import Quasiquote.Builder.Evaluate
import Quasiquote.Builder.Synthesize
import Quasiquote.Proofs.Conformance

namespace Quasiquote

theorem mapM_map_eq_ok {ε α β γ : Type} {f : β → Except ε γ} {k : α → β} {g : α → γ} (xs : List α)
    (h : ∀ x ∈ xs, f (k x) = .ok (g x)) : (xs.map k).mapM f = .ok (xs.map g) := by
  induction xs with
  | nil => rfl
  | cons x xs ih =>
    rw [List.map_cons, List.mapM_cons, h x (by simp), ih fun y hy => h y (by simp [hy])]
    rfl

theorem exists_of_bind_eq_ok {ε α β : Type} {x : Except ε α} {f : α → Except ε β} {b : β}
    (h : (x >>= f) = .ok b) : ∃ a, x = .ok a ∧ f a = .ok b := by
  cases x with
  | error e => exact absurd h nofun
  | ok a => exact ⟨a, rfl, h⟩

theorem mapM_eq_ok_of_map {ε α β γ : Type} {f : β → Except ε γ} {g : α → Except ε γ} {k : α → β}
    {xs : List α} (h : ∀ x ∈ xs, ∀ y, f (k x) = .ok y → g x = .ok y) {ys : List γ}
    (hys : (xs.map k).mapM f = .ok ys) : xs.mapM g = .ok ys := by
  induction xs generalizing ys with
  | nil => exact hys
  | cons x xs ih =>
    obtain ⟨hx, hxs⟩ := List.forall_mem_cons.mp h
    rw [List.map_cons, List.mapM_cons] at hys
    obtain ⟨y, hy, hrest⟩ := exists_of_bind_eq_ok hys
    obtain ⟨zs, hzs, hcons⟩ := exists_of_bind_eq_ok hrest
    rw [List.mapM_cons, hx y hy, ih hxs hzs]
    exact hcons

theorem Node.mapM_smallerList {ε β : Type} (n : Node) (l : Label) (f : Node → Except ε β) :
    ((n.smallerList l).mapM fun c => f c.1) = (n.list l).mapM f := by
  simp [Node.smallerList]

variable (ns : String)

def Field.builderArgument : Field → Node
  | .node n => n.builderCall ns
  | .list ms => .array (ms.map (Node.builderCall ns))
  | .text s => .stringLiteral s
  | .flag b => .boolean b
  | .absent => .undefined

theorem Node.builderCalls_eq_map (ms : List Node) :
    Node.builderCalls ns ms = ms.map (Node.builderCall ns) := by
  induction ms with
  | nil => rfl
  | cons m ms ih => simp only [Node.builderCalls, ih, List.map_cons]

theorem Field.builderArguments_eq_map (fs : List Field) :
    Field.builderArguments ns fs = fs.map (Field.builderArgument ns) := by
  induction fs with
  | nil => rfl
  | cons f fs ih =>
    cases f <;> simp only [Field.builderArguments, Field.builderArgument,
      Node.builderCalls_eq_map, ih, List.map_cons]

theorem Node.builderCall_mk (kind : Kind) (mark : Mark) (fields : List Field) :
    (Node.mk kind mark fields).builderCall ns =
      .factoryCall ns kind (fields.map (Field.builderArgument ns)) := by
  rw [Node.builderCall, Field.builderArguments_eq_map]

theorem Node.kind_builderCall (n : Node) : (n.builderCall ns).kind = .callExpression := by
  cases n with
  | mk kind mark fields =>
    rw [Node.builderCall_mk]
    rfl

theorem Field.bare_builderArgument (f : Field)
    (h : ∀ c ∈ f.nodes, (c.builderCall ns).bare = c.builderCall ns) :
    (f.builderArgument ns).bare = f.builderArgument ns := by
  cases f with
  | node n => exact h n (by simp)
  | list ms =>
    have hms : (ms.map (Node.builderCall ns)).map Node.bare = ms.map (Node.builderCall ns) := by
      rw [List.map_map]
      exact List.map_congr_left h
    rw [Field.builderArgument, Node.array, Node.plain, Node.bare_mk]
    simp only [List.map_cons, List.map_nil, Field.bare, hms, Node.plain]
  | text s | flag b | absent => rfl

theorem Node.bare_builderCall (n : Node) : (n.builderCall ns).bare = n.builderCall ns := by
  induction n using Node.inductionOnChildren with
  | h n ih =>
    cases n with
    | mk kind mark fields =>
      have harguments : (fields.map (Field.builderArgument ns)).map Node.bare =
          fields.map (Field.builderArgument ns) := by
        rw [List.map_map]
        apply List.map_congr_left
        intro f hf
        apply Field.bare_builderArgument
        intro c hc
        exact ih c (List.mem_flatMap.mpr ⟨f, hf, hc⟩)
      rw [Node.builderCall_mk, Node.factoryCall, Node.call, Node.plain, Node.bare_mk]
      simp only [List.map_cons, List.map_nil, Field.bare, harguments]
      rfl

theorem Node.factoryKind?_factoryName (kind : Kind) :
    (Node.propertyAccess (.identifier ns) kind.factoryName).factoryKind? ns = some kind := by
  have h : (Node.propertyAccess (.identifier ns) kind.factoryName).namespaceMember? ns =
      some kind.factoryName := by
    rw [namespaceMember?, if_pos]
    · rfl
    · exact Bool.and_eq_true_iff.mpr ⟨rfl, decide_eq_true rfl⟩
  rw [factoryKind?, h]
  exact Kind.ofFactoryName?_factoryName kind

theorem Node.evaluateField_factoryCall (kind : Kind) (arguments : List Node) :
    (Node.factoryCall ns kind arguments).evaluateField ns = (do
      let fields ← arguments.mapM (Node.evaluateField ns)
      match Node.create kind fields with
      | .ok built => return .node built
      | .error e => throw (.factory e)) := by
  have hk : (Node.factoryCall ns kind arguments).kind = .callExpression := rfl
  have hfactory : ((Node.factoryCall ns kind arguments).child? .expression).bind
      (Node.factoryKind? ns) = some kind := factoryKind?_factoryName ns kind
  rw [evaluateField, hk, hfactory, mapM_smallerList]
  rfl

theorem Node.evaluateField_array (elements : List Node) :
    (Node.array elements).evaluateField ns = (do
      let nodes ← elements.mapM fun c => do (← c.evaluateField ns).asNode
      return .list nodes) := by
  have hk : (Node.array elements).kind = .arrayLiteralExpression := rfl
  have hl : (Node.array elements).list .elements = elements := rfl
  rw [evaluateField, hk]
  simp only [mapM_smallerList (Node.array elements) .elements fun c => do
    (← c.evaluateField ns).asNode, hl]

theorem Field.evaluateField_builderArgument (f : Field)
    (h : ∀ c ∈ f.nodes, (c.builderCall ns).evaluateField ns = .ok (.node c.bare)) :
    (f.builderArgument ns).evaluateField ns = .ok f.bare := by
  cases f with
  | node n => exact h n (by simp)
  | list ms =>
    have hm : ∀ c ∈ ms, (do ((← (c.builderCall ns).evaluateField ns).asNode)) = .ok c.bare := by
      intro c hc
      rw [h c hc]
      rfl
    rw [Field.builderArgument, Node.evaluateField_array, mapM_map_eq_ok ms hm]
    rfl
  | text s => rw [Field.builderArgument, Node.evaluateField]; rfl
  | flag b => cases b <;> rw [Field.builderArgument, Node.evaluateField] <;> rfl
  | absent => rw [Field.builderArgument, Node.evaluateField]; rfl

theorem Node.create_bare (kind : Kind) (fields : List Field)
    (h : checkFields kind fields = .ok ()) :
    Node.create kind (fields.map Field.bare) = .ok (.plain kind (fields.map Field.bare)) := by
  have hf : (fields.map Field.bare).map Field.form = fields.map Field.form := by simp
  rw [Node.create, checkFields_congr kind hf, h]

/-- A builder call builds the tree that it was made for. -/
theorem Node.evaluateField_builderCall (n : Node) (h : n.Conforms) :
    (n.builderCall ns).evaluateField ns = .ok (.node n.bare) := by
  induction n using Node.inductionOnChildren with
  | h n ih =>
    cases n with
    | mk kind mark fields =>
      obtain ⟨hk, hf⟩ := (Node.conforms_mk_iff kind mark fields).mp h
      have ha : ∀ f ∈ fields, (f.builderArgument ns).evaluateField ns = .ok f.bare := by
        intro f hm
        apply Field.evaluateField_builderArgument
        intro c hc
        exact ih c (List.mem_flatMap.mpr ⟨f, hm, hc⟩) (hf f hm c hc)
      rw [Node.builderCall_mk, Node.evaluateField_factoryCall, mapM_map_eq_ok fields ha,
        Node.bare_mk]
      simp only [bind, Except.bind, Node.create_bare kind fields hk]
      rfl

theorem Node.evaluate_builderCall (n : Node) (h : n.Conforms) :
    (n.builderCall ns).evaluate ns = .ok n.bare := by
  rw [Node.evaluate, Node.evaluateField_builderCall ns n h]
  rfl

namespace Node

variable (n : Node) (l : Label)

theorem namespaceMember?_bare : n.bare.namespaceMember? ns = n.namespaceMember? ns := by
  have hname (l : Label) : (n.bare.child? l).bind identifier? = (n.child? l).bind identifier? := by
    rw [child?_bare]
    cases n.child? l <;> simp
  rw [namespaceMember?, namespaceMember?, hname, hname, kind_bare]

theorem factoryKind?_bare :
    (n.bare.child? l).bind (factoryKind? ns) = (n.child? l).bind (factoryKind? ns) := by
  rw [child?_bare]
  cases n.child? l with
  | none => rfl
  | some c => simp [factoryKind?, namespaceMember?_bare]

/-- Whether and what an expression builds does not depend on where it comes from. -/
theorem evaluateField_of_bare {f : Field} (h : n.bare.evaluateField ns = .ok f) :
    n.evaluateField ns = .ok f := by
  induction n using Node.inductionOnChildren generalizing f with
  | h n ih =>
    have hlist (l : Label) : ∀ c ∈ n.list l, ∀ f, c.bare.evaluateField ns = .ok f →
        c.evaluateField ns = .ok f := fun c hc f hf => ih c (mem_children_of_mem_list hc) hf
    rw [evaluateField, kind_bare, factoryKind?_bare, identifier?_bare, mapM_smallerList,
      mapM_smallerList n.bare .elements fun c => do (← c.evaluateField ns).asNode, list_bare,
      list_bare, text_bare] at h
    rw [evaluateField, mapM_smallerList,
      mapM_smallerList n .elements fun c => do (← c.evaluateField ns).asNode]
    split at h
    · split at h
      · obtain ⟨fields, hfields, hcreate⟩ := exists_of_bind_eq_ok h
        rw [mapM_eq_ok_of_map (hlist .arguments) hfields]
        exact hcreate
      · exact absurd h (by simp)
    · exact h
    · exact h
    · exact h
    · obtain ⟨nodes, hnodes, hpure⟩ := exists_of_bind_eq_ok h
      have helements : ∀ c ∈ n.list .elements, ∀ m,
          (do (← c.bare.evaluateField ns).asNode) = .ok m →
          (do (← c.evaluateField ns).asNode) = Except.ok m := by
        intro c hc m hcm
        obtain ⟨f, hf, hm⟩ := exists_of_bind_eq_ok hcm
        rw [hlist .elements c hc f hf]
        exact hm
      rw [mapM_eq_ok_of_map helements hnodes]
      exact hpure
    · exact h
    · exact absurd h (by simp)

theorem evaluate_of_bare {m : Node} (h : n.bare.evaluate ns = .ok m) : n.evaluate ns = .ok m := by
  obtain ⟨f, hf, hm⟩ := exists_of_bind_eq_ok h
  rw [evaluate, evaluateField_of_bare ns n hf]
  exact hm

end Node

theorem Node.synthesize_of_nil {fragment : Node} (h : fragment.list .statements = []) :
    fragment.synthesize ns = .factoryCall ns .emptyStatement [] := by
  rw [Node.synthesize, h]

theorem Node.synthesize_of_expression {fragment s e : Node} (h : fragment.list .statements = [s])
    (hk : s.kind = .expressionStatement) (he : s.child? .expression = some e) :
    fragment.synthesize ns = e.builderCall ns := by
  simp only [Node.synthesize, h, hk, he]

theorem Node.synthesize_of_statement {fragment s : Node} (h : fragment.list .statements = [s])
    (hk : s.kind ≠ .expressionStatement) : fragment.synthesize ns = s.builderCall ns := by
  simp only [Node.synthesize, h]
  split
  · next hs _ => exact absurd hs hk
  · rfl

theorem Node.synthesize_of_many {fragment : Node} (h : 2 ≤ (fragment.list .statements).length) :
    fragment.synthesize ns =
      .array ((fragment.list .statements).map (Node.builderCall ns)) := by
  rw [← Node.builderCalls_eq_map]
  match hl : fragment.list .statements with
  | [] | [_] => simp [hl] at h
  | s :: t :: r => simp only [Node.synthesize, hl]

/-- A builder call rebuilds the tree that it was made for, and what is synthesized for a fragment
builds what the fragment holds: an empty statement for none, the expression of a single expression
statement, any other single statement, and the list of several. -/
theorem Node.evaluate_rebuilds (ns : String) :
    (∀ n : Node, n.Conforms →
      ∃ m, (n.builderCall ns).evaluate ns = .ok m ∧ m.same n = true) ∧
    ∀ fragment : Node, fragment.Conforms →
      (fragment.list .statements = [] →
        (fragment.synthesize ns).evaluateField ns = .ok (.node (.plain .emptyStatement []))) ∧
      (∀ s, fragment.list .statements = [s] → s.kind = .expressionStatement →
        ∃ e m, s.child? .expression = some e ∧
          (fragment.synthesize ns).evaluateField ns = .ok (.node m) ∧ m.same e = true) ∧
      (∀ s, fragment.list .statements = [s] → s.kind ≠ .expressionStatement →
        ∃ m, (fragment.synthesize ns).evaluateField ns = .ok (.node m) ∧ m.same s = true) ∧
      (2 ≤ (fragment.list .statements).length →
        ∃ ms, (fragment.synthesize ns).evaluateField ns = .ok (.list ms) ∧
          Node.sameList ms (fragment.list .statements) = true) := by
  refine ⟨fun n h => ⟨n.bare, Node.evaluate_builderCall ns n h, Node.same_bare n⟩, ?_⟩
  intro fragment h
  refine ⟨?_, ?_, ?_, ?_⟩
  · intro hl
    rw [Node.synthesize_of_nil ns hl, Node.evaluateField_factoryCall]
    rfl
  · intro s hl hk
    have hs : s.Conforms := h.of_mem_list (l := .statements) (by simp [hl])
    obtain ⟨mark, e, rfl⟩ := hs.eq_expressionStatement hk
    have he : (Node.mk .expressionStatement mark [.node e]).child? .expression = some e := rfl
    refine ⟨e, e.bare, he, ?_, Node.same_bare e⟩
    rw [Node.synthesize_of_expression ns hl hk he]
    exact Node.evaluateField_builderCall ns e (hs.of_child? he)
  · intro s hl hk
    have hs : s.Conforms := h.of_mem_list (l := .statements) (by simp [hl])
    refine ⟨s.bare, ?_, Node.same_bare s⟩
    rw [Node.synthesize_of_statement ns hl hk]
    exact Node.evaluateField_builderCall ns s hs
  · intro hl
    have hs : ∀ c ∈ (Field.list (fragment.list .statements)).nodes,
        (c.builderCall ns).evaluateField ns = .ok (.node c.bare) := fun c hc =>
      Node.evaluateField_builderCall ns c (h.of_mem_list hc)
    refine ⟨(fragment.list .statements).map Node.bare, ?_, ?_⟩
    · rw [Node.synthesize_of_many ns hl]
      exact Field.evaluateField_builderArgument ns _ hs
    · rw [Node.sameList_iff_of fun m _ => Node.same_iff m]
      simp

/-- A string that reads `undefined`, an empty array and a return without an expression are told
apart. -/
theorem Node.evaluate_rebuilds_returns :
    let call := Node.call (.identifier "f") [.stringLiteral "undefined", .undefined, .array []]
    let fragment := Node.plain .sourceFile
      [.list [.returnStatement (some call), .returnStatement none]]
    (call.Conforms ∧ ∃ m, (call.builderCall "ts").evaluate "ts" = .ok m ∧ m.same call = true) ∧
    fragment.Conforms ∧ ∃ ms, (fragment.synthesize "ts").evaluateField "ts" = .ok (.list ms) ∧
      Node.sameList ms (fragment.list .statements) = true := by
  intro call fragment
  have hc : call.Conforms := by decide +kernel
  have hf : fragment.Conforms := by decide +kernel
  have hl : 2 ≤ (fragment.list .statements).length := by decide +kernel
  exact ⟨⟨hc, (Node.evaluate_rebuilds "ts").1 call hc⟩, hf,
    ((Node.evaluate_rebuilds "ts").2 fragment hf).2.2.2 hl⟩

end Quasiquote
