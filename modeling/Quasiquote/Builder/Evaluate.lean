import Quasiquote.Tree.Conform
import Quasiquote.Tree.Print

namespace Quasiquote

def Node.namespaceMember? (namespaceName : String) (callee : Node) : Option String :=
  if callee.kind = .propertyAccessExpression
      && ((callee.child? .expression).bind Node.identifier?) = some namespaceName then
    (callee.child? .name).bind Node.identifier?
  else none

def Node.factoryKind? (namespaceName : String) (callee : Node) : Option Kind :=
  (callee.namespaceMember? namespaceName).bind Kind.ofFactoryName?

def Node.factoryArguments? (namespaceName : String) (kind : Kind) (n : Node) :
    Option (List Node) :=
  if n.kind = .callExpression
      && ((n.child? .expression).bind (Node.factoryKind? namespaceName)) = some kind then
    some (n.list .arguments)
  else none

inductive EvalError
  /-- A call of something that is no factory. -/
  | foreign (callee : String)
  /-- A member of the namespace that names no kind. -/
  | unknownFactory (name : String)
  /-- A form of expression that builders do not have. -/
  | unsupported (kind : Kind)
  /-- Something else where a node is needed. -/
  | notANode (found : FieldForm)
  | factory (e : FactoryError)
  deriving DecidableEq

namespace EvalError

def description : EvalError → String
  | foreign _ => "call to a non-factory function"
  | unknownFactory _ => "unknown factory function"
  | unsupported _ => "unsupported expression in builder call"
  | notANode _ => "array element is not a node"
  | factory _ => "factory arguments do not fit the schema"

def foundName : FieldForm → String
  | .absent => "undefined"
  | form => form.name

def message (e : EvalError) : String :=
  let detail := match e with
    | foreign callee => "`" ++ callee ++ "`"
    | unknownFactory name => "`" ++ name ++ "`"
    | unsupported kind => kind.name
    | notANode found => "found " ++ foundName found
    | factory e => e.message
  e.description ++ ": " ++ detail

end EvalError

def EvalError.ofCallee (namespaceName : String) (callee : Option Node) : EvalError :=
  match callee.bind (Node.namespaceMember? namespaceName) with
  | some name => .unknownFactory name
  | none => .foreign ((callee.map Node.print).getD "")

def Field.asNode : Field → Except EvalError Node
  | .node n => .ok n
  | other => .error (.notANode other.form)

/-- The value of an expression that is made of factory calls, arrays, strings and truth values. -/
def Node.evaluateField (namespaceName : String) (n : Node) : Except EvalError Field :=
  match n.kind with
  | .callExpression =>
    match (n.child? .expression).bind (Node.factoryKind? namespaceName) with
    | some kind => do
      let fields ← (n.smallerList .arguments).mapM fun ⟨c, _⟩ => evaluateField namespaceName c
      match Node.create kind fields with
      | .ok built => return .node built
      | .error e => throw (.factory e)
    | none => .error (.ofCallee namespaceName (n.child? .expression))
  | .stringLiteral => .ok (.text (n.text .text))
  | .trueKeyword => .ok (.flag true)
  | .falseKeyword => .ok (.flag false)
  | .arrayLiteralExpression => do
    let nodes ← (n.smallerList .elements).mapM fun ⟨c, _⟩ => do
      (← evaluateField namespaceName c).asNode
    return .list nodes
  | .identifier =>
    if n.identifier? = some "undefined" then .ok .absent else .error (.unsupported .identifier)
  | kind => .error (.unsupported kind)
termination_by sizeOf n

def Node.evaluate (namespaceName : String) (n : Node) : Except EvalError Node := do
  (← n.evaluateField namespaceName).asNode

end Quasiquote
