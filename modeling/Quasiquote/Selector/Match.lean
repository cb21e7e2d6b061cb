import Quasiquote.Selector.Parse
import Quasiquote.Tree.Node

namespace Quasiquote

namespace Attribute

def childNamed? (n : Node) (name : String) : Option Node :=
  (Label.ofSpelling? name).bind n.child?

/-- The field of a name. Where a kind has none of it, `name` and `value` stand for its text. -/
def fieldNamed? (n : Node) (name : String) : Option Field :=
  match (Label.ofSpelling? name).bind n.field? with
  | some f => some f
  | none => if name = "name" || name = "value" then n.field? .text else none

def target? (n : Node) : List String → Option Field
  | [] => none
  | [name] => fieldNamed? n name
  | name :: rest => (childNamed? n name).bind fun c => target? c rest

def holds (a : Attribute) (n : Node) : Bool :=
  match target? n a.path, a.value with
  | none, _ | some .absent, _ => false
  | some _, none => true
  | some (.text s), some (.text t) => s = t
  | some (.flag b), some (.flag b') => b = b'
  | some (.flag b), some (.text t) => t = if b then "true" else "false"
  | _, _ => false

end Attribute

mutual

def Compound.matches : Compound → Node → Bool
  | .mk kind attributes has, n =>
    kind.all (· = n.kind) && attributes.all (·.holds n) && Selector.allBelow has n

/-- Whether each of the selectors matches something properly below `n`, with `n` as the outermost
ancestor. -/
def Selector.allBelow : List (List Compound) → Node → Bool
  | [], _ => true
  | selector :: rest, n =>
    (n.entries.tail.any fun e => Selector.matchesChain selector e.node e.ancestors)
      && Selector.allBelow rest n

/-- Whether the first compound matches the node and the others match ancestors farther and farther
out. -/
def Selector.matchesChain : List Compound → Node → List Node → Bool
  | [], _, _ => false
  | compound :: outer, n, ancestors => compound.matches n && Selector.climb outer ancestors

def Selector.climb : List Compound → List Node → Bool
  | [], _ => true
  | compound :: outer, ancestors =>
    match ancestors.dropWhile fun a => !compound.matches a with
    | [] => false
    | _ :: farther => Selector.climb outer farther

end

def Selector.matches (s : Selector) (n : Node) (ancestors : List Node) : Bool :=
  Selector.matchesChain s n ancestors

def Selector.select (s : Selector) (tree : Node) : List Node :=
  (tree.entries.filter fun e => s.matches e.node e.ancestors).map Node.Entry.node

/-- The nodes of a tree that match a selector given as text, in pre-order. -/
def query (tree : Node) (selector : String) : Except SelectorError (List Node) :=
  (Selector.parse selector).map (·.select tree)

end Quasiquote
