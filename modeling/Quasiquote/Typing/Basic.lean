import Quasiquote.Program.Scope
import Quasiquote.Tree.KeywordType

namespace Quasiquote

/-- A type as far as roles depend on it: of a function only the result, of an object only the
name. -/
inductive Ty
  | named (name : String)
  | primitive (keyword : KeywordType)
  | function (result : Ty)
  | unknown
  deriving DecidableEq

namespace Ty

def nodeFactory : Ty :=
  .function (.named "Node")

def result? : Ty → Option Ty
  | function result => some result
  | _ => none

def name? : Ty → Option String
  | named name => some name
  | function _ => some anonymousName
  | primitive _ | unknown => none

def text : Ty → String
  | named name => name
  | primitive keyword => keyword.name
  | function result => "() => " ++ result.text
  | unknown => "unknown"

end Ty

namespace Node

def rightmostName? (name : Node) : Option String :=
  match name.kind with
  | .identifier => name.identifier?
  | .qualifiedName => (name.child? .right).bind identifier?
  | _ => none

def literalType (literal : Option Node) : Ty :=
  match literal.map kind with
  | some .stringLiteral => .primitive .string
  | some .numericLiteral => .primitive .number
  | some .trueKeyword | some .falseKeyword => .primitive .boolean
  | _ => .unknown

def writtenType (n : Node) : Ty :=
  match n.kind with
  | .typeReference =>
    match (n.child? .typeName).bind rightmostName? with
    | some name => if name = "NodeFactory" then .nodeFactory else .named name
    | none => .unknown
  | .keywordType => ((n.text? .keyword).bind KeywordType.ofName?).elim .unknown .primitive
  | .functionType => .function ((n.smaller? .typeNode).elim .unknown fun ⟨t, _⟩ => writtenType t)
  | .typeLiteral => .named "__type"
  | .arrayType => .named "Array"
  | .literalType => literalType (n.child? .literal)
  | _ => .unknown
termination_by sizeOf n

/-- The expression of the first return among the statements of a body, not counting those of nested
functions. A return without an expression ends the search in its block. -/
def firstReturn (body : Node) : Option Node :=
  ((body.smallerList .statements).findSome? fun ⟨s, hs⟩ =>
    match s.kind with
    | .returnStatement => some (s.child? .expression)
    | .block => (firstReturn s).map some
    | .ifStatement =>
      ([Label.thenStatement, .elseStatement].findSome? fun branch =>
        (s.smaller? branch).bind fun ⟨b, hb⟩ =>
          have : sizeOf b < sizeOf body := Nat.lt_trans hb hs
          if b.kind = .returnStatement then b.child? .expression else firstReturn b).map some
    | _ => none).join
termination_by sizeOf body

end Node

end Quasiquote
