import Quasiquote.Tree.Node

namespace Quasiquote.Node

def identifier (text : String) : Node :=
  plain .identifier [.text text]

def stringLiteral (text : String) : Node :=
  plain .stringLiteral [.text text, .flag false]

def boolean (value : Bool) : Node :=
  plain (if value then .trueKeyword else .falseKeyword) []

def undefined : Node :=
  identifier "undefined"

def array (elements : List Node) : Node :=
  plain .arrayLiteralExpression [.list elements]

def propertyAccess (object : Node) (name : String) : Node :=
  plain .propertyAccessExpression [.node object, .node (identifier name)]

def call (callee : Node) (arguments : List Node) : Node :=
  plain .callExpression [.node callee, .list [], .list arguments]

def parameter (name : String) : Node :=
  plain .parameter [.flag false, .node (identifier name), .flag false, .absent, .absent]

def arrowFunction (parameters : List Node) (body : Node) : Node :=
  plain .arrowFunction [.flag false, .list [], .list parameters, .absent, .node body]

def block (statements : List Node) : Node :=
  plain .block [.list statements]

def returnStatement (expression : Option Node) : Node :=
  plain .returnStatement [.ofOption expression]

def constStatement (name : String) (initializer : Node) : Node :=
  let declaration :=
    plain .variableDeclaration [.node (identifier name), .absent, .node initializer]
  let declarations := plain .variableDeclarationList [.text "const", .list [declaration]]
  plain .variableStatement [.flag false, .node declarations]

def defaultImport (name module : String) : Node :=
  let clause := plain .importClause [.node (identifier name), .absent]
  plain .importDeclaration [.node clause, .node (stringLiteral module)]

end Quasiquote.Node
