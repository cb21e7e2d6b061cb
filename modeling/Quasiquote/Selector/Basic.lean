import Quasiquote.Tree.Schema

namespace Quasiquote

inductive AttributeValue
  | text (value : String)
  | flag (value : Bool)
  deriving DecidableEq

/-- A condition on a field that is reached through child nodes: that it is there, or what it is. -/
structure Attribute where
  path : List String
  value : Option AttributeValue
  deriving DecidableEq

/-- Conditions on one node: its kind, attributes, and selectors that something below it has to
match. A selector is the list of its compounds, that of the node itself first and then those of
ancestors farther and farther out. -/
inductive Compound
  | mk (kind : Option Kind) (attributes : List Attribute) (has : List (List Compound))

abbrev Selector := List Compound

inductive SelectorErrorKind
  | empty
  | unknownKind (name : String)
  | unknownPseudoClass (name : String)
  | unterminatedString
  | expected (what : String)
  deriving DecidableEq

def SelectorErrorKind.description : SelectorErrorKind → String
  | empty => "empty selector"
  | unknownKind _ => "unknown node kind"
  | unknownPseudoClass _ => "unknown pseudo-class"
  | unterminatedString => "unterminated string in selector"
  | expected _ => "unexpected character in selector"

/-- A text that is no selector, and the byte offset where it ceases to be one. -/
structure SelectorError where
  kind : SelectorErrorKind
  position : Nat
  deriving DecidableEq

def SelectorError.message (e : SelectorError) : String :=
  let detail := match e.kind with
    | .unknownKind name | .unknownPseudoClass name => ": `" ++ name ++ "`"
    | .expected what => ": expected " ++ what
    | .empty | .unterminatedString => ""
  e.kind.description ++ " at " ++ toString e.position ++ detail

end Quasiquote
