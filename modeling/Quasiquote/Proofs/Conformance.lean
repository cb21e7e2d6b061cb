import Mathlib.Data.List.Flatten
import Mathlib.Data.List.Forall2
import Quasiquote.Tree.Conform
import Quasiquote.Tree.Same

namespace Quasiquote

theorem Kind.mem_all (k : Kind) : k ∈ all := by
  cases k <;> decide

theorem Kind.ofName?_name (k : Kind) : ofName? k.name = some k := by
  have h : ∀ k ∈ all, ofName? k.name = some k := by decide
  exact h k (mem_all k)

theorem Kind.ofFactoryName?_factoryName (k : Kind) : ofFactoryName? k.factoryName = some k := by
  have h : k.factoryName.toList = "create".toList ++ k.name.toList := by simp [factoryName]
  have hp : "create".toList.isPrefixOf ("create".toList ++ k.name.toList) = true := by simp
  have hd : ("create".toList ++ k.name.toList).drop 6 = k.name.toList := by simp
  rw [ofFactoryName?, h, if_pos hp, hd, String.ofList_toList]
  exact ofName?_name k

namespace Field

@[simp] theorem nodes_node (n : Node) : (node n).nodes = [n] := rfl
@[simp] theorem nodes_list (ns : List Node) : (list ns).nodes = ns := rfl
@[simp] theorem nodes_text (s : String) : (text s).nodes = [] := rfl
@[simp] theorem nodes_flag (b : Bool) : (flag b).nodes = [] := rfl
@[simp] theorem nodes_absent : absent.nodes = [] := rfl

@[simp] theorem form_node (n : Node) : (node n).form = .node := rfl
@[simp] theorem form_list (ns : List Node) : (list ns).form = .list := rfl
@[simp] theorem form_text (s : String) : (text s).form = .text := rfl
@[simp] theorem form_flag (b : Bool) : (flag b).form = .flag := rfl
@[simp] theorem form_absent : absent.form = .absent := rfl

def bare : Field → Field
  | .node n => .node n.bare
  | .list ns => .list (ns.map Node.bare)
  | .text s => .text s
  | .flag b => .flag b
  | .absent => .absent

@[simp] theorem form_bare (f : Field) : f.bare.form = f.form := by
  cases f <;> rfl

@[simp] theorem fits_node_iff (f : Field) : f.fits .node = true ↔ ∃ n, f = .node n := by
  cases f <;> simp [fits]

@[simp] theorem fits_optional_iff (f : Field) : f.fits .optional = true ↔ ∃ n, f = .ofOption n := by
  cases f with
  | node n => simp only [fits, form, true_iff]; exact ⟨some n, rfl⟩
  | absent => simp only [fits, form, true_iff]; exact ⟨none, rfl⟩
  | list _ | text _ | flag _ =>
    simp only [fits, form, Bool.false_eq_true, false_iff, not_exists]
    rintro (_ | _) <;> simp [ofOption]

@[simp] theorem fits_list_iff (f : Field) : f.fits .list = true ↔ ∃ ns, f = .list ns := by
  cases f <;> simp [fits]

@[simp] theorem fits_text_iff (f : Field) : f.fits .text = true ↔ ∃ s, f = .text s := by
  cases f <;> simp [fits]

@[simp] theorem fits_flag_iff (f : Field) : f.fits .flag = true ↔ ∃ b, f = .flag b := by
  cases f <;> simp [fits]

end Field

theorem Node.bareList_eq_map (ns : List Node) : Node.bareList ns = ns.map Node.bare := by
  induction ns with
  | nil => rfl
  | cons n ns ih => simp only [Node.bareList, ih, List.map_cons]

theorem Field.bareList_eq_map (fs : List Field) : Field.bareList fs = fs.map Field.bare := by
  induction fs with
  | nil => rfl
  | cons f fs ih =>
    cases f <;> simp only [Field.bareList, Field.bare, Node.bareList_eq_map, ih, List.map_cons]

theorem Node.bare_mk (kind : Kind) (mark : Mark) (fields : List Field) :
    (Node.mk kind mark fields).bare = .plain kind (fields.map Field.bare) := by
  rw [Node.bare, Field.bareList_eq_map, Node.plain]

namespace Node

variable (n : Node) (l : Label)

@[simp] theorem kind_bare : n.bare.kind = n.kind := by
  cases n with
  | mk kind mark fields => rw [bare_mk]; rfl

@[simp] theorem field?_bare : n.bare.field? l = (n.field? l).map Field.bare := by
  cases n with
  | mk kind mark fields =>
    rw [bare_mk]
    simp only [field?, plain, Node.kind, Node.fields]
    cases kind.fieldIndex? l <;> simp

@[simp] theorem child?_bare : n.bare.child? l = (n.child? l).map bare := by
  rw [child?, child?, field?_bare]
  cases n.field? l with
  | none => rfl
  | some f => cases f <;> rfl

@[simp] theorem list_bare : n.bare.list l = (n.list l).map bare := by
  rw [list, list, field?_bare]
  cases n.field? l with
  | none => rfl
  | some f => cases f <;> rfl

@[simp] theorem text?_bare : n.bare.text? l = n.text? l := by
  rw [text?, text?, field?_bare]
  cases n.field? l with
  | none => rfl
  | some f => cases f <;> rfl

@[simp] theorem text_bare : n.bare.text l = n.text l := by
  rw [text, text, text?_bare]

@[simp] theorem identifier?_bare : n.bare.identifier? = n.identifier? := by
  rw [identifier?, identifier?, kind_bare, text?_bare]

theorem exists_child?_of_bare {n m c : Node} {l : Label} (h : n.bare = m.bare)
    (hc : m.child? l = some c) : ∃ d, n.child? l = some d ∧ d.bare = c.bare := by
  have hbare : (n.child? l).map bare = some c.bare := by
    rw [← child?_bare, h, child?_bare, hc]
    rfl
  exact Option.map_eq_some_iff.mp hbare

end Node

@[simp] theorem Node.bare_bare (n : Node) : n.bare.bare = n.bare := by
  induction n using Node.inductionOnChildren with
  | h n ih =>
    cases n with
    | mk kind mark fields =>
      simp only [Node.bare_mk, Node.plain, List.map_map, Node.mk.injEq, true_and]
      apply List.map_congr_left
      intro f hf
      have hc : ∀ c ∈ f.nodes, c.bare.bare = c.bare := fun c hc =>
        ih c (List.mem_flatMap.mpr ⟨f, hf, hc⟩)
      cases f with
      | node n => exact congrArg Field.node (hc n (by simp))
      | list ns =>
        simp only [Function.comp_apply, Field.bare, List.map_map, Field.list.injEq]
        exact List.map_congr_left hc
      | text s | flag b | absent => rfl

theorem Node.sameList_iff_of {ns : List Node}
    (h : ∀ n ∈ ns, ∀ m : Node, n.same m = true ↔ n.bare = m.bare) (ms : List Node) :
    Node.sameList ns ms = true ↔ ns.map Node.bare = ms.map Node.bare := by
  induction ns generalizing ms with
  | nil => cases ms <;> simp [Node.sameList]
  | cons n ns ih =>
    have hn := h n (by simp)
    have hns := ih fun k hk => h k (by simp [hk])
    cases ms <;> simp [Node.sameList, hn, hns]

theorem Field.sameList_iff_of {fs : List Field}
    (h : ∀ f ∈ fs, ∀ n ∈ f.nodes, ∀ m : Node, n.same m = true ↔ n.bare = m.bare)
    (gs : List Field) : Field.sameList fs gs = true ↔ fs.map Field.bare = gs.map Field.bare := by
  induction fs generalizing gs with
  | nil => cases gs <;> simp [Field.sameList]
  | cons f fs ih =>
    have hf := h f (by simp)
    have hfs := ih fun g hg => h g (by simp [hg])
    cases gs with
    | nil => simp [Field.sameList]
    | cons g gs =>
      cases f with
      | node n =>
        have hn := hf n (by simp)
        cases g <;> simp [Field.sameList, Field.bare, hn, hfs]
      | list ns =>
        have hns : ∀ ms, Node.sameList ns ms = true ↔ ns.map Node.bare = ms.map Node.bare :=
          Node.sameList_iff_of hf
        cases g <;> simp [Field.sameList, Field.bare, hns, hfs]
      | text s | flag b | absent => cases g <;> simp [Field.sameList, Field.bare, hfs]

/-- Two trees are the same exactly if they do not differ without their marks. -/
theorem Node.same_iff (n m : Node) : n.same m = true ↔ n.bare = m.bare := by
  induction n using Node.inductionOnChildren generalizing m with
  | h n ih =>
    cases n with
    | mk kind mark fields =>
      cases m with
      | mk kind' mark' fields' =>
        have h : Field.sameList fields fields' = true ↔
            fields.map Field.bare = fields'.map Field.bare :=
          Field.sameList_iff_of
            (fun f hf c hc => ih c (List.mem_flatMap.mpr ⟨f, hf, hc⟩)) fields'
        simp only [Node.same, Node.bare_mk, Node.plain, Bool.and_eq_true, decide_eq_true_eq, h,
          Node.mk.injEq, true_and]

theorem Node.same_bare (n : Node) : n.bare.same n = true := by
  rw [Node.same_iff, Node.bare_bare]

namespace Node

theorem elim_smaller? {β : Type} (n : Node) (l : Label) (b : β) (f : Node → β) :
    ((n.smaller? l).elim b fun ⟨c, _⟩ => f c) = (n.child? l).elim b f := by
  unfold smaller?
  split
  · next c h => simp [h]
  · next h => simp [h]

theorem map_smallerList {β : Type} (n : Node) (l : Label) (f : Node → β) :
    ((n.smallerList l).map fun ⟨c, _⟩ => f c) = (n.list l).map f := by
  simp [smallerList, Function.comp_def]

end Node

theorem Node.preorder_eq (n : Node) : n.preorder = n :: n.children.flatMap Node.preorder := by
  rw [Node.preorder]
  simp only [List.flatMap_subtype, List.unattach_attach]

namespace Node

open scoped List

theorem entriesUnder_eq (ancestors : List Node) (n : Node) : n.entriesUnder ancestors =
    ⟨n, ancestors⟩ :: n.children.flatMap (entriesUnder (n :: ancestors)) := by
  rw [entriesUnder]
  simp only [List.flatMap_subtype, List.unattach_attach]

theorem map_node_entriesUnder (n : Node) (ancestors : List Node) :
    (n.entriesUnder ancestors).map Entry.node = n.preorder := by
  induction n using inductionOnChildren generalizing ancestors with
  | h n ih =>
    rw [entriesUnder_eq, preorder_eq, List.map_cons, List.map_flatMap]
    congr 1
    exact List.flatMap_congr fun c hc => ih c hc _

theorem list_sublist_children (n : Node) (l : Label) : n.list l <+ n.children := by
  unfold list
  split
  · next ns hf =>
    have h := List.Sublist.flatMap (List.singleton_sublist.mpr (mem_fields_of_field? hf))
      Field.nodes
    simpa [children] using h
  · exact List.nil_sublist _

theorem preorder_sublist_of_mem_children {n c : Node} (h : c ∈ n.children) :
    c.preorder <+ n.children.flatMap preorder := by
  simpa using List.Sublist.flatMap (List.singleton_sublist.mpr h) preorder

theorem flatMap_children_sublist (n : Node) : n.children.flatMap preorder <+ n.preorder := by
  rw [preorder_eq n]
  exact List.sublist_cons_self n _

theorem self_mem_preorder (n : Node) : n ∈ n.preorder := by
  rw [preorder_eq]
  exact List.mem_cons_self

theorem mem_preorder_of_mem_children {n c : Node} (h : c ∈ n.children) : c ∈ n.preorder :=
  (flatMap_children_sublist n).subset (List.mem_flatMap.mpr ⟨c, h, c.self_mem_preorder⟩)

theorem preorder_sublist_of_mem_preorder {n m : Node} (h : m ∈ n.preorder) :
    m.preorder <+ n.preorder := by
  induction n using inductionOnChildren with
  | h n ih =>
    rw [preorder_eq] at h
    rcases List.mem_cons.mp h with rfl | h
    · exact List.Sublist.refl _
    · obtain ⟨c, hc, hm⟩ := List.mem_flatMap.mp h
      calc m.preorder
        _ <+ c.preorder := ih c hc hm
        _ <+ n.children.flatMap preorder := preorder_sublist_of_mem_children hc
        _ <+ n.preorder := flatMap_children_sublist n

end Node

def Node.Conforms (n : Node) : Prop :=
  ∀ m ∈ n.preorder, checkFields m.kind m.fields = .ok ()

instance (kind : Kind) (fields : List Field) : Decidable (checkFields kind fields = .ok ()) :=
  match checkFields kind fields with
  | .ok () => .isTrue rfl
  | .error _ => .isFalse nofun

instance (n : Node) : Decidable n.Conforms :=
  inferInstanceAs (Decidable (∀ m ∈ n.preorder, checkFields m.kind m.fields = .ok ()))

theorem Node.conforms_iff (n : Node) :
    n.Conforms ↔ checkFields n.kind n.fields = .ok () ∧ ∀ c ∈ n.children, c.Conforms := by
  simp only [Node.Conforms]
  rw [Node.preorder_eq]
  simp only [List.forall_mem_cons, List.forall_mem_flatMap]

theorem Node.conforms_mk_iff (kind : Kind) (mark : Mark) (fields : List Field) :
    (Node.mk kind mark fields).Conforms ↔
      checkFields kind fields = .ok () ∧ ∀ f ∈ fields, ∀ c ∈ f.nodes, c.Conforms := by
  rw [Node.conforms_iff, Node.children, List.forall_mem_flatMap]
  rfl

theorem Node.Conforms.of_mem_children {n c : Node} (h : n.Conforms) (hc : c ∈ n.children) :
    c.Conforms :=
  ((Node.conforms_iff n).mp h).2 c hc

theorem Node.Conforms.of_mem_list {n c : Node} {l : Label} (h : n.Conforms) (hc : c ∈ n.list l) :
    c.Conforms :=
  h.of_mem_children (Node.mem_children_of_mem_list hc)

theorem Node.Conforms.of_child? {n c : Node} {l : Label} (h : n.Conforms)
    (hc : n.child? l = some c) : c.Conforms :=
  h.of_mem_children (Node.mem_children_of_child? hc)

theorem firstMisfit?_eq_none_iff (kind : Kind) (schema : List (Label × Shape))
    (fields : List Field) :
    schema.length = fields.length ∧ firstMisfit? kind schema fields = none ↔
      List.Forall₂ (fun s f => f.fits s.2 = true) schema fields := by
  induction schema generalizing fields with
  | nil => cases fields <;> simp [firstMisfit?]
  | cons s schema ih =>
    cases fields with
    | nil => simp
    | cons f fields =>
      rw [List.forall₂_cons, ← ih fields]
      by_cases hf : f.fits s.2 = true <;> simp [firstMisfit?, hf]

theorem checkFields_eq_ok_iff (kind : Kind) (fields : List Field) :
    checkFields kind fields = .ok () ↔
      List.Forall₂ (fun s f => f.fits s.2 = true) kind.schema fields := by
  rw [← firstMisfit?_eq_none_iff kind, checkFields]
  by_cases hl : kind.schema.length = fields.length
  · rw [if_neg (not_not_intro hl)]
    cases hm : firstMisfit? kind kind.schema fields <;> simp [hl]
  · simp [hl]

/-- A conforming node of a known kind, with its fields one by one. -/
theorem Node.Conforms.eq_mk {n : Node} (h : n.Conforms) {kind : Kind} (hk : n.kind = kind) :
    ∃ mark fields, n = .mk kind mark fields ∧
      List.Forall₂ (fun s f => f.fits s.2 = true) kind.schema fields := by
  cases n with
  | mk k mark fields =>
    obtain rfl : k = kind := hk
    exact ⟨mark, fields, rfl,
      (checkFields_eq_ok_iff k fields).mp ((Node.conforms_mk_iff k mark fields).mp h).1⟩

theorem Node.Conforms.eq_identifier {n : Node} (h : n.Conforms) (hk : n.kind = .identifier) :
    ∃ mark s, n = .mk .identifier mark [.text s] := by
  obtain ⟨mark, fields, rfl, hf⟩ := h.eq_mk hk
  simp only [Kind.schema, List.forall₂_cons_left_iff, List.forall₂_nil_left_iff,
    Field.fits_text_iff] at hf
  obtain ⟨_, _, ⟨s, rfl⟩, rfl, rfl⟩ := hf
  exact ⟨mark, s, rfl⟩

theorem Node.Conforms.eq_stringLiteral {n : Node} (h : n.Conforms)
    (hk : n.kind = .stringLiteral) :
    ∃ mark s b, n = .mk .stringLiteral mark [.text s, .flag b] := by
  obtain ⟨mark, fields, rfl, hf⟩ := h.eq_mk hk
  simp only [Kind.schema, List.forall₂_cons_left_iff, List.forall₂_nil_left_iff,
    Field.fits_text_iff, Field.fits_flag_iff] at hf
  obtain ⟨_, _, ⟨s, rfl⟩, ⟨_, _, ⟨b, rfl⟩, rfl, rfl⟩, rfl⟩ := hf
  exact ⟨mark, s, b, rfl⟩

theorem Node.Conforms.eq_block {n : Node} (h : n.Conforms) (hk : n.kind = .block) :
    ∃ mark statements, n = .mk .block mark [.list statements] := by
  obtain ⟨mark, fields, rfl, hf⟩ := h.eq_mk hk
  simp only [Kind.schema, List.forall₂_cons_left_iff, List.forall₂_nil_left_iff,
    Field.fits_list_iff] at hf
  obtain ⟨_, _, ⟨statements, rfl⟩, rfl, rfl⟩ := hf
  exact ⟨mark, statements, rfl⟩

theorem Node.Conforms.eq_expressionStatement {n : Node} (h : n.Conforms)
    (hk : n.kind = .expressionStatement) :
    ∃ mark e, n = .mk .expressionStatement mark [.node e] := by
  obtain ⟨mark, fields, rfl, hf⟩ := h.eq_mk hk
  simp only [Kind.schema, List.forall₂_cons_left_iff, List.forall₂_nil_left_iff,
    Field.fits_node_iff] at hf
  obtain ⟨_, _, ⟨e, rfl⟩, rfl, rfl⟩ := hf
  exact ⟨mark, e, rfl⟩

theorem Node.Conforms.eq_returnStatement {n : Node} (h : n.Conforms)
    (hk : n.kind = .returnStatement) :
    ∃ mark e, n = .mk .returnStatement mark [.ofOption e] := by
  obtain ⟨mark, fields, rfl, hf⟩ := h.eq_mk hk
  simp only [Kind.schema, List.forall₂_cons_left_iff, List.forall₂_nil_left_iff,
    Field.fits_optional_iff] at hf
  obtain ⟨_, _, ⟨e, rfl⟩, rfl, rfl⟩ := hf
  exact ⟨mark, e, rfl⟩

/-- Whether a node has the fields of its kind does not depend on their content. -/
theorem firstMisfit?_congr (kind : Kind) (schema : List (Label × Shape)) {fs gs : List Field}
    (h : fs.map Field.form = gs.map Field.form) :
    firstMisfit? kind schema fs = firstMisfit? kind schema gs := by
  induction schema generalizing fs gs with
  | nil => cases fs <;> cases gs <;> rfl
  | cons s schema ih =>
    cases fs with
    | nil =>
      obtain rfl : gs = [] := by simpa using h.symm
      rfl
    | cons f fs =>
      cases gs with
      | nil => simp at h
      | cons g gs =>
        obtain ⟨hf, hfs⟩ : f.form = g.form ∧ fs.map Field.form = gs.map Field.form := by
          simpa using h
        have hfits : f.fits s.2 = g.fits s.2 := by simp only [Field.fits, hf]
        simp only [firstMisfit?, hfits, hf, ih hfs]

theorem checkFields_congr (kind : Kind) {fs gs : List Field}
    (h : fs.map Field.form = gs.map Field.form) : checkFields kind fs = checkFields kind gs := by
  have hl : fs.length = gs.length := by simpa using congrArg List.length h
  simp only [checkFields, hl, firstMisfit?_congr kind kind.schema h]

end Quasiquote
