import Quasiquote.Template.Placeholder

namespace Quasiquote

structure Unspliced where
  token : String
  role : Role
  span : Option Span

/-- The entry whose token a builder call carries in the shape that the entry's role prescribes, and
the registry without it. -/
def Registry.take? (r : Registry) (namespaceName : String) (n : Node) : Option (Node × Registry) :=
  Pattern.all.findSome? fun pattern => do
    let token ← pattern.token? namespaceName n
    let placeholder ← r.get? token
    if placeholder.role.pattern = pattern then some (placeholder.payload, r.erase token) else none

mutual

/-- Put payloads in the place of the builder calls that encode their tokens, in pre-order. What is
put in is not searched again. -/
def Node.splice (namespaceName : String) : Node → Registry → Node × Registry
  | .mk kind mark fields, r =>
    match r.take? namespaceName (.mk kind mark fields) with
    | some taken => taken
    | none =>
      let (fields, r) := Field.spliceList namespaceName fields r
      (.plain kind fields, r)

def Field.spliceList (namespaceName : String) : List Field → Registry → List Field × Registry
  | [], r => ([], r)
  | .node n :: rest, r =>
    let (n, r) := n.splice namespaceName r
    let (rest, r) := Field.spliceList namespaceName rest r
    (.node n :: rest, r)
  | .list ns :: rest, r =>
    let (ns, r) := Node.spliceList namespaceName ns r
    let (rest, r) := Field.spliceList namespaceName rest r
    (.list ns :: rest, r)
  | .text s :: rest, r =>
    let (rest, r) := Field.spliceList namespaceName rest r
    (.text s :: rest, r)
  | .flag b :: rest, r =>
    let (rest, r) := Field.spliceList namespaceName rest r
    (.flag b :: rest, r)
  | .absent :: rest, r =>
    let (rest, r) := Field.spliceList namespaceName rest r
    (.absent :: rest, r)

def Node.spliceList (namespaceName : String) : List Node → Registry → List Node × Registry
  | [], r => ([], r)
  | n :: rest, r =>
    let (n, r) := n.splice namespaceName r
    let (rest, r) := Node.spliceList namespaceName rest r
    (n :: rest, r)

end

def Registry.unspliced (r : Registry) : List Unspliced :=
  r.remaining.map fun (token, p) => ⟨token, p.role, p.span⟩

end Quasiquote
