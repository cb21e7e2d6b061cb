import Quasiquote.Tree.Schema

namespace Quasiquote

structure Span where
  start : Nat
  stop : Nat
  deriving DecidableEq

/-- The least span that covers two. A side that is missing yields the other. -/
def Span.join : Option Span → Option Span → Option Span
  | none, b => b
  | a, none => a
  | some a, some b => some ⟨min a.start b.start, max a.stop b.stop⟩

/-- Where a node comes from. A node that was not read from a source has no span, and one that does
not belong to a program has no identity. -/
structure Mark where
  id : Option Nat := none
  span : Option Span := none
  deriving DecidableEq

mutual

/-- A node of the tree: its kind, where it comes from, and its fields in the order of the schema. -/
inductive Node
  | mk (kind : Kind) (mark : Mark) (fields : List Field)

inductive Field
  | node (child : Node)
  | list (children : List Node)
  | text (value : String)
  | flag (value : Bool)
  | absent

end

instance : Inhabited Node := ⟨.mk .emptyStatement {} []⟩

namespace Field

def ofOption : Option Node → Field
  | some n => .node n
  | none => .absent

def node? : Field → Option Node
  | .node n => some n
  | _ => none

def nodes : Field → List Node
  | .node n => [n]
  | .list ns => ns
  | _ => []

end Field

namespace Node

def kind : Node → Kind
  | .mk kind _ _ => kind

def mark : Node → Mark
  | .mk _ mark _ => mark

def fields : Node → List Field
  | .mk _ _ fields => fields

def plain (kind : Kind) (fields : List Field) : Node :=
  .mk kind {} fields

def span (n : Node) : Option Span :=
  n.mark.span

def id? (n : Node) : Option Nat :=
  n.mark.id

def withSpan (n : Node) (span : Option Span) : Node :=
  .mk n.kind { n.mark with span } n.fields

def field? (n : Node) (l : Label) : Option Field :=
  n.kind.fieldIndex? l |>.bind (n.fields[·]?)

def child? (n : Node) (l : Label) : Option Node :=
  n.field? l |>.bind Field.node?

def list (n : Node) (l : Label) : List Node :=
  match n.field? l with
  | some (.list ns) => ns
  | _ => []

def text? (n : Node) (l : Label) : Option String :=
  match n.field? l with
  | some (.text s) => some s
  | _ => none

def text (n : Node) (l : Label) : String :=
  (n.text? l).getD ""

def flag (n : Node) (l : Label) : Bool :=
  match n.field? l with
  | some (.flag b) => b
  | _ => false

def identifier? (n : Node) : Option String :=
  if n.kind = .identifier then n.text? .text else none

def children (n : Node) : List Node :=
  n.fields.flatMap Field.nodes

theorem sizeOf_lt_of_mem_nodes {c : Node} {f : Field} (h : c ∈ f.nodes) : sizeOf c < sizeOf f := by
  cases f with
  | node n =>
    obtain rfl : c = n := by simpa [Field.nodes] using h
    simp only [Field.node.sizeOf_spec]
    omega
  | list ns =>
    have hlt : sizeOf c < sizeOf ns := List.sizeOf_lt_of_mem h
    simp only [Field.list.sizeOf_spec]
    omega
  | text => simp [Field.nodes] at h
  | flag => simp [Field.nodes] at h
  | absent => simp [Field.nodes] at h

theorem sizeOf_lt_of_mem_children {n c : Node} (h : c ∈ n.children) : sizeOf c < sizeOf n := by
  cases n with
  | mk kind mark fields =>
    obtain ⟨f, hf, hc⟩ := List.mem_flatMap.mp h
    have hlt : sizeOf f < sizeOf fields := List.sizeOf_lt_of_mem hf
    have hlt' := sizeOf_lt_of_mem_nodes hc
    simp only [Node.mk.sizeOf_spec]
    omega

theorem mem_fields_of_field? {n : Node} {l : Label} {f : Field} (h : n.field? l = some f) :
    f ∈ n.fields := by
  obtain ⟨i, -, hi⟩ := Option.bind_eq_some_iff.mp h
  exact List.mem_of_getElem? hi

theorem mem_children_of_child? {n c : Node} {l : Label} (h : n.child? l = some c) :
    c ∈ n.children := by
  obtain ⟨f, hf, hc⟩ := Option.bind_eq_some_iff.mp h
  refine List.mem_flatMap.mpr ⟨f, mem_fields_of_field? hf, ?_⟩
  cases f <;> simp_all [Field.node?, Field.nodes]

theorem mem_children_of_mem_list {n c : Node} {l : Label} (h : c ∈ n.list l) :
    c ∈ n.children := by
  unfold list at h
  split at h
  · next ns hf => exact List.mem_flatMap.mpr ⟨_, mem_fields_of_field? hf, h⟩
  · simp at h

theorem sizeOf_child {n c : Node} {l : Label} (h : n.child? l = some c) : sizeOf c < sizeOf n :=
  sizeOf_lt_of_mem_children (mem_children_of_child? h)

theorem sizeOf_mem_list {n c : Node} {l : Label} (h : c ∈ n.list l) : sizeOf c < sizeOf n :=
  sizeOf_lt_of_mem_children (mem_children_of_mem_list h)

def smaller? (n : Node) (l : Label) : Option { c : Node // sizeOf c < sizeOf n } :=
  match h : n.child? l with
  | some c => some ⟨c, sizeOf_child h⟩
  | none => none

/-- The nodes of a named list together with the fact that they are smaller. -/
def smallerList (n : Node) (l : Label) : List { c : Node // sizeOf c < sizeOf n } :=
  (n.list l).attach.map fun ⟨c, h⟩ => ⟨c, sizeOf_mem_list h⟩

/-- To show something of every node, show it of a node whose children have it. -/
theorem inductionOnChildren {p : Node → Prop} (h : ∀ n, (∀ c ∈ n.children, p c) → p n) (n : Node) :
    p n :=
  h n fun c _ => inductionOnChildren h c
termination_by sizeOf n
decreasing_by exact sizeOf_lt_of_mem_children ‹_›

structure Entry where
  node : Node
  ancestors : List Node

def entriesUnder (ancestors : List Node) (n : Node) : List Entry :=
  ⟨n, ancestors⟩ :: n.children.attach.flatMap fun ⟨c, _⟩ => entriesUnder (n :: ancestors) c
termination_by sizeOf n
decreasing_by exact sizeOf_lt_of_mem_children ‹_›

def entries (n : Node) : List Entry :=
  n.entriesUnder []

def preorder (n : Node) : List Node :=
  n :: n.children.attach.flatMap fun ⟨c, _⟩ => preorder c
termination_by sizeOf n
decreasing_by exact sizeOf_lt_of_mem_children ‹_›

def size (n : Node) : Nat :=
  n.preorder.length

def mapChildren (n : Node) (f : Node → Node) : Node :=
  .mk n.kind n.mark <| n.fields.map fun
    | .node c => .node (f c)
    | .list cs => .list (cs.map f)
    | field => field

def mapChildrenM {m : Type → Type} [Monad m] (n : Node) (f : Node → m Node) : m Node := do
  let fields ← n.fields.mapM fun
    | .node c => Field.node <$> f c
    | .list cs => Field.list <$> cs.mapM f
    | field => pure field
  return .mk n.kind n.mark fields

def rebuild (n : Node) (f : Field → Field) : Node :=
  plain n.kind (n.fields.map f)

/-- Replace a named field and keep what the node is and where it comes from. A label that the kind
does not have changes nothing. -/
def withField (n : Node) (l : Label) (value : Field) : Node :=
  match n.kind.fieldIndex? l with
  | some i => .mk n.kind n.mark (n.fields.set i value)
  | none => n

end Node

end Quasiquote
