import Quasiquote.Tree.Build
import Quasiquote.Tree.Conform

namespace Quasiquote

/-- A call of the factory of a kind, which is reached through `namespaceName`. -/
def Node.factoryCall (namespaceName : String) (kind : Kind) (arguments : List Node) : Node :=
  .call (.propertyAccess (.identifier namespaceName) kind.factoryName) arguments

mutual

/-- The expression that builds a node: one factory call with an argument for each field. -/
def Node.builderCall (namespaceName : String) : Node → Node
  | .mk kind _ fields =>
    .factoryCall namespaceName kind (Field.builderArguments namespaceName fields)

def Field.builderArguments (namespaceName : String) : List Field → List Node
  | [] => []
  | .node n :: r => n.builderCall namespaceName :: Field.builderArguments namespaceName r
  | .list ns :: r =>
    .array (Node.builderCalls namespaceName ns) :: Field.builderArguments namespaceName r
  | .text s :: r => .stringLiteral s :: Field.builderArguments namespaceName r
  | .flag b :: r => .boolean b :: Field.builderArguments namespaceName r
  | .absent :: r => .undefined :: Field.builderArguments namespaceName r

def Node.builderCalls (namespaceName : String) : List Node → List Node
  | [] => []
  | n :: r => n.builderCall namespaceName :: Node.builderCalls namespaceName r

end

/-- The expression that builds what a fragment holds: an empty statement for none, the expression of
a single expression statement, a single statement otherwise, and an array of several. -/
def Node.synthesize (namespaceName : String) (fragment : Node) : Node :=
  match fragment.list .statements with
  | [] => .factoryCall namespaceName .emptyStatement []
  | [statement] =>
    match statement.kind, statement.child? .expression with
    | .expressionStatement, some expression => expression.builderCall namespaceName
    | _, _ => statement.builderCall namespaceName
  | statements => .array (Node.builderCalls namespaceName statements)

end Quasiquote
