import Quasiquote.Tree.Kind

namespace Quasiquote

inductive Label
  | statements | importClause | moduleSpecifier | name | namedBindings | elements | propertyName
  | isExported | declarationList | keyword | declarations | typeNode | initializer | isAsync
  | typeParameters | parameters | body | rest | isOptional | constraint | defaultType
  | expression | thenStatement | elseStatement | text | singleQuote | head | templateSpans
  | literal | tag | typeArguments | template | arguments | argumentExpression | properties
  | left | operator | right | operand | condition | whenTrue | whenFalse | typeName | members
  | elementType | types
  deriving DecidableEq

namespace Label

def all : List Label :=
  [statements, importClause, moduleSpecifier, name, namedBindings, elements, propertyName,
   isExported, declarationList, keyword, declarations, typeNode, initializer, isAsync,
   typeParameters, parameters, body, rest, isOptional, constraint, defaultType, expression,
   thenStatement, elseStatement, text, singleQuote, head, templateSpans, literal, tag,
   typeArguments, template, arguments, argumentExpression, properties, left, operator, right,
   operand, condition, whenTrue, whenFalse, typeName, members, elementType, types]

def spelling : Label → String
  | statements => "statements"
  | importClause => "importClause"
  | moduleSpecifier => "moduleSpecifier"
  | name => "name"
  | namedBindings => "namedBindings"
  | elements => "elements"
  | propertyName => "propertyName"
  | isExported => "exported"
  | declarationList => "declarationList"
  | keyword => "keyword"
  | declarations => "declarations"
  | typeNode => "type"
  | initializer => "initializer"
  | isAsync => "async"
  | typeParameters => "typeParameters"
  | parameters => "parameters"
  | body => "body"
  | rest => "dotDotDotToken"
  | isOptional => "questionToken"
  | constraint => "constraint"
  | defaultType => "default"
  | expression => "expression"
  | thenStatement => "thenStatement"
  | elseStatement => "elseStatement"
  | text => "text"
  | singleQuote => "singleQuote"
  | head => "head"
  | templateSpans => "templateSpans"
  | literal => "literal"
  | tag => "tag"
  | typeArguments => "typeArguments"
  | template => "template"
  | arguments => "arguments"
  | argumentExpression => "argumentExpression"
  | properties => "properties"
  | left => "left"
  | operator => "operator"
  | right => "right"
  | operand => "operand"
  | condition => "condition"
  | whenTrue => "whenTrue"
  | whenFalse => "whenFalse"
  | typeName => "typeName"
  | members => "members"
  | elementType => "elementType"
  | types => "types"

def ofSpelling? (s : String) : Option Label :=
  all.find? fun l => l.spelling = s

end Label

inductive Shape
  | node | optional | list | text | flag
  deriving DecidableEq

def Shape.name : Shape → String
  | node => "node"
  | optional => "optional node"
  | list => "node list"
  | text => "string"
  | flag => "boolean"

def Kind.schema : Kind → List (Label × Shape)
  | sourceFile => [(.statements, .list)]
  | importDeclaration => [(.importClause, .optional), (.moduleSpecifier, .node)]
  | importClause => [(.name, .optional), (.namedBindings, .optional)]
  | namespaceImport => [(.name, .node)]
  | namedImports => [(.elements, .list)]
  | importSpecifier => [(.propertyName, .optional), (.name, .node)]
  | variableStatement => [(.isExported, .flag), (.declarationList, .node)]
  | variableDeclarationList => [(.keyword, .text), (.declarations, .list)]
  | variableDeclaration => [(.name, .node), (.typeNode, .optional), (.initializer, .optional)]
  | functionDeclaration =>
    [(.isExported, .flag), (.isAsync, .flag), (.name, .optional), (.typeParameters, .list),
     (.parameters, .list), (.typeNode, .optional), (.body, .optional)]
  | parameter =>
    [(.rest, .flag), (.name, .node), (.isOptional, .flag), (.typeNode, .optional),
     (.initializer, .optional)]
  | typeParameter => [(.name, .node), (.constraint, .optional), (.defaultType, .optional)]
  | block => [(.statements, .list)]
  | expressionStatement => [(.expression, .node)]
  | returnStatement => [(.expression, .optional)]
  | ifStatement => [(.expression, .node), (.thenStatement, .node), (.elseStatement, .optional)]
  | throwStatement => [(.expression, .node)]
  | emptyStatement => []
  | identifier => [(.text, .text)]
  | stringLiteral => [(.text, .text), (.singleQuote, .flag)]
  | numericLiteral => [(.text, .text)]
  | trueKeyword => []
  | falseKeyword => []
  | nullKeyword => []
  | thisKeyword => []
  | noSubstitutionTemplateLiteral => [(.text, .text)]
  | templateExpression => [(.head, .text), (.templateSpans, .list)]
  | templateSpan => [(.expression, .node), (.literal, .text)]
  | taggedTemplateExpression => [(.tag, .node), (.typeArguments, .list), (.template, .node)]
  | arrowFunction =>
    [(.isAsync, .flag), (.typeParameters, .list), (.parameters, .list), (.typeNode, .optional),
     (.body, .node)]
  | functionExpression =>
    [(.isAsync, .flag), (.name, .optional), (.typeParameters, .list), (.parameters, .list),
     (.typeNode, .optional), (.body, .node)]
  | callExpression => [(.expression, .node), (.typeArguments, .list), (.arguments, .list)]
  | newExpression => [(.expression, .node), (.typeArguments, .list), (.arguments, .list)]
  | propertyAccessExpression => [(.expression, .node), (.name, .node)]
  | elementAccessExpression => [(.expression, .node), (.argumentExpression, .node)]
  | parenthesizedExpression => [(.expression, .node)]
  | arrayLiteralExpression => [(.elements, .list)]
  | objectLiteralExpression => [(.properties, .list)]
  | propertyAssignment => [(.name, .node), (.initializer, .node)]
  | shorthandPropertyAssignment => [(.name, .node)]
  | spreadAssignment => [(.expression, .node)]
  | spreadElement => [(.expression, .node)]
  | binaryExpression => [(.left, .node), (.operator, .text), (.right, .node)]
  | prefixUnaryExpression => [(.operator, .text), (.operand, .node)]
  | conditionalExpression => [(.condition, .node), (.whenTrue, .node), (.whenFalse, .node)]
  | asExpression => [(.expression, .node), (.typeNode, .node)]
  | typeReference => [(.typeName, .node), (.typeArguments, .list)]
  | qualifiedName => [(.left, .node), (.right, .node)]
  | keywordType => [(.keyword, .text)]
  | typeLiteral => [(.members, .list)]
  | propertySignature => [(.name, .node), (.isOptional, .flag), (.typeNode, .optional)]
  | arrayType => [(.elementType, .node)]
  | unionType => [(.types, .list)]
  | literalType => [(.literal, .node)]
  | functionType => [(.typeParameters, .list), (.parameters, .list), (.typeNode, .node)]

def Kind.fieldIndex? (k : Kind) (l : Label) : Option Nat :=
  k.schema.findIdx? fun field => field.1 = l

end Quasiquote
