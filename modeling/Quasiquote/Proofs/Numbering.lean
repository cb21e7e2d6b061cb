import Mathlib.Tactic.SplitIfs
import Quasiquote.Program.Basic
import Quasiquote.Proofs.Conformance

namespace Quasiquote

mutual

theorem Node.bare_number (n : Node) (next : Nat) : (n.number next).1.bare = n.bare := by
  match n with
  | .mk kind mark fields =>
    simp only [Node.number, Node.bare]
    rw [Field.bareList_numberList]

theorem Field.bareList_numberList (fs : List Field) (next : Nat) :
    Field.bareList (Field.numberList fs next).1 = Field.bareList fs := by
  match fs with
  | [] => rfl
  | .node n :: r =>
    simp only [Field.numberList, Field.bareList]
    rw [Node.bare_number, Field.bareList_numberList]
  | .list ns :: r =>
    simp only [Field.numberList, Field.bareList]
    rw [Node.bareList_numberList, Field.bareList_numberList]
  | .text _ :: r | .flag _ :: r | .absent :: r =>
    simp only [Field.numberList, Field.bareList]
    rw [Field.bareList_numberList]

theorem Node.bareList_numberList (ns : List Node) (next : Nat) :
    Node.bareList (Node.numberList ns next).1 = Node.bareList ns := by
  match ns with
  | [] => rfl
  | n :: r =>
    simp only [Node.numberList, Node.bareList]
    rw [Node.bare_number, Node.bareList_numberList]

end

def Node.countKey (k : Nat) (ns : List Node) : Nat :=
  (ns.flatMap Node.preorder).countP fun m => m.key = k

def Node.KeysBelow (bound : Nat) (ns : List Node) : Prop :=
  ∀ m ∈ ns.flatMap Node.preorder, ∀ id, m.id? = some id → id < bound

theorem Node.KeysBelow.key_lt {bound : Nat} {n m : Node} (h : Node.KeysBelow bound [n])
    (hpos : 0 < bound) (hm : m ∈ n.preorder) : m.key < bound := by
  unfold Node.key
  cases hid : m.id? with
  | none => exact hpos
  | some id => exact h m (by simpa using hm) id hid

theorem Node.countKey_append (k : Nat) (ns ms : List Node) :
    Node.countKey k (ns ++ ms) = Node.countKey k ns + Node.countKey k ms := by
  simp [Node.countKey]

theorem Node.countKey_cons (k : Nat) (n : Node) (ns : List Node) :
    Node.countKey k (n :: ns) = Node.countKey k [n] + Node.countKey k ns :=
  Node.countKey_append k [n] ns

theorem Node.countKey_singleton (k : Nat) (n : Node) :
    Node.countKey k [n] = (if n.key = k then 1 else 0) + Node.countKey k n.children := by
  simp only [Node.countKey, List.flatMap_cons, List.flatMap_nil, List.append_nil]
  rw [Node.preorder_eq, List.countP_cons, Nat.add_comm]
  simp

def Node.countIds (k : Nat) (ns : List Node) : Nat :=
  (ns.flatMap Node.preorder).countP fun m => m.id? = some k

theorem Node.countIds_append (k : Nat) (ns ms : List Node) :
    Node.countIds k (ns ++ ms) = Node.countIds k ns + Node.countIds k ms := by
  simp [Node.countIds]

theorem Node.countIds_singleton (k : Nat) (n : Node) :
    Node.countIds k [n] = (if n.id? = some k then 1 else 0) + Node.countIds k n.children := by
  simp only [Node.countIds, List.flatMap_cons, List.flatMap_nil, List.append_nil]
  rw [Node.preorder_eq, List.countP_cons, Nat.add_comm]
  simp

theorem Node.KeysBelow.countIds_eq_zero {bound k : Nat} {ns : List Node}
    (h : Node.KeysBelow bound ns) (hk : bound ≤ k) : Node.countIds k ns = 0 := by
  refine List.countP_eq_zero.mpr fun m hm hid => ?_
  have hlt := h m hm k (of_decide_eq_true hid)
  omega

/-- Trees in the place of others, with identities drawn from `lo` up to `hi`: each of those occurs
once more at most, and no other does. -/
structure Node.Draws (lo hi : Nat) (ns ms : List Node) : Prop where
  le : lo ≤ hi
  count (k : Nat) :
    Node.countIds k ms ≤ Node.countIds k ns + if lo ≤ k ∧ k < hi then 1 else 0

namespace Node.Draws

variable {lo mid hi : Nat} {ns ms ks ls : List Node}

theorem of_le (lo : Nat) (h : ∀ k, countIds k ms ≤ countIds k ns) : Draws lo lo ns ms :=
  ⟨Nat.le_refl lo, fun k => Nat.le_trans (h k) (Nat.le_add_right _ _)⟩

theorem refl (lo : Nat) (ns : List Node) : Draws lo lo ns ns :=
  .of_le lo fun _ => Nat.le_refl _

theorem trans (h : Draws lo mid ns ms) (h' : Draws mid hi ms ks) : Draws lo hi ns ks := by
  refine ⟨Nat.le_trans h.le h'.le, fun k => ?_⟩
  have hle := h.le
  have hle' := h'.le
  have hcount := h.count k
  have hcount' := h'.count k
  split_ifs at hcount hcount' ⊢ <;> omega

theorem append (h : Draws lo mid ns ms) (h' : Draws mid hi ks ls) :
    Draws lo hi (ns ++ ks) (ms ++ ls) := by
  refine ⟨Nat.le_trans h.le h'.le, fun k => ?_⟩
  have hle := h.le
  have hle' := h'.le
  have hcount := h.count k
  have hcount' := h'.count k
  rw [countIds_append, countIds_append]
  split_ifs at hcount hcount' ⊢ <;> omega

/-- What is below the first identity that was drawn, or not drawn yet, occurs as often as before. -/
theorem count_le_one (h : Draws lo hi ns ms) {k : Nat} (hlow : k < lo → countIds k ns ≤ 1)
    (hnew : lo ≤ k → countIds k ns = 0) : countIds k ms ≤ 1 := by
  have hcount := h.count k
  obtain hk | hk := Nat.lt_or_ge k lo
  · rw [if_neg (by omega)] at hcount
    exact Nat.le_trans hcount (hlow hk)
  · rw [hnew hk, Nat.zero_add] at hcount
    split at hcount <;> omega

/-- A node draws at most one identity, before its parts do. -/
theorem node {id id' : Option Nat} {kind : Kind} {span : Option Span} {fs gs : List Field}
    (hid : id' = id ∧ mid = lo ∨ id' = some lo ∧ mid = lo + 1)
    (h : Draws mid hi (fs.flatMap Field.nodes) (gs.flatMap Field.nodes)) :
    Draws lo hi [.mk kind ⟨id, span⟩ fs] [.mk kind ⟨id', span⟩ gs] := by
  have hle := h.le
  refine ⟨by omega, fun k => ?_⟩
  have hcount : countIds k (Node.mk kind ⟨id', span⟩ gs).children ≤
      countIds k (Node.mk kind ⟨id, span⟩ fs).children + _ := h.count k
  rw [countIds_singleton, countIds_singleton]
  change (if id' = some k then 1 else 0) + _ ≤ (if id = some k then 1 else 0) + _ + _
  obtain ⟨rfl, rfl⟩ | ⟨rfl, rfl⟩ := hid
  · omega
  · simp only [Option.some.injEq]
    split_ifs at hcount ⊢ <;> omega

end Node.Draws

mutual

theorem Node.draws_number (n : Node) (next : Nat) :
    Node.Draws next (n.number next).2 [n] [(n.number next).1] := by
  match n with
  | .mk kind ⟨none, span⟩ fields =>
    exact .node (.inr ⟨rfl, rfl⟩) (Field.draws_numberList fields (next + 1))
  | .mk kind ⟨some id, span⟩ fields =>
    exact .node (.inl ⟨rfl, rfl⟩) (Field.draws_numberList fields next)

theorem Field.draws_numberList (fs : List Field) (next : Nat) :
    Node.Draws next (Field.numberList fs next).2 (fs.flatMap Field.nodes)
      ((Field.numberList fs next).1.flatMap Field.nodes) := by
  match fs with
  | [] => exact .refl next []
  | .node n :: r => exact (Node.draws_number n next).append (Field.draws_numberList r _)
  | .list ns :: r => exact (Node.draws_numberList ns next).append (Field.draws_numberList r _)
  | .text _ :: r | .flag _ :: r | .absent :: r => exact Field.draws_numberList r next

theorem Node.draws_numberList (ns : List Node) (next : Nat) :
    Node.Draws next (Node.numberList ns next).2 ns (Node.numberList ns next).1 := by
  match ns with
  | [] => exact .refl next []
  | n :: r => exact (Node.draws_number n next).append (Node.draws_numberList r _)

end

mutual

theorem Node.isSome_id?_number (n : Node) (next : Nat) :
    ∀ m ∈ (n.number next).1.preorder, m.id?.isSome = true := by
  match n with
  | .mk kind mark fields =>
    rw [Node.preorder_eq, List.forall_mem_cons]
    exact ⟨rfl, Field.isSome_id?_numberList fields _⟩

theorem Field.isSome_id?_numberList (fs : List Field) (next : Nat) :
    ∀ m ∈ ((Field.numberList fs next).1.flatMap Field.nodes).flatMap Node.preorder,
      m.id?.isSome = true := by
  match fs with
  | [] => simp [Field.numberList]
  | .node n :: r =>
    simp only [Field.numberList, List.flatMap_cons, List.flatMap_append, List.forall_mem_append,
      Field.nodes_node, List.flatMap_nil, List.append_nil]
    exact ⟨Node.isSome_id?_number n _, Field.isSome_id?_numberList r _⟩
  | .list ns :: r =>
    simp only [Field.numberList, List.flatMap_cons, List.flatMap_append, List.forall_mem_append,
      Field.nodes_list]
    exact ⟨Node.isSome_id?_numberList ns _, Field.isSome_id?_numberList r _⟩
  | .text _ :: r => exact Field.isSome_id?_numberList r next
  | .flag _ :: r => exact Field.isSome_id?_numberList r next
  | .absent :: r => exact Field.isSome_id?_numberList r next

theorem Node.isSome_id?_numberList (ns : List Node) (next : Nat) :
    ∀ m ∈ (Node.numberList ns next).1.flatMap Node.preorder, m.id?.isSome = true := by
  match ns with
  | [] => simp [Node.numberList]
  | n :: r =>
    simp only [Node.numberList, List.flatMap_cons, List.forall_mem_append]
    exact ⟨Node.isSome_id?_number n _, Node.isSome_id?_numberList r _⟩

end

theorem Node.countKey_eq_countIds {k : Nat} {ns : List Node}
    (h : ∀ m ∈ ns.flatMap Node.preorder, m.id?.isSome = true) :
    Node.countKey k ns = Node.countIds k ns := by
  refine List.countP_congr fun m hm => ?_
  obtain ⟨id, hid⟩ := Option.isSome_iff_exists.mp (h m hm)
  simp [Node.key, hid]

theorem Node.countKey_number_le_one {bound k : Nat} {n : Node} (hb : Node.KeysBelow bound [n])
    (hk : bound ≤ k) (next : Nat) : Node.countKey k [(n.number next).1] ≤ 1 := by
  have hzero := hb.countIds_eq_zero hk
  rw [Node.countKey_eq_countIds (by simpa using n.isSome_id?_number next)]
  exact (n.draws_number next).count_le_one (fun _ => by omega) fun _ => hzero

namespace Program

theorem exists_of_mem_numberFiles {files : List SourceFile} {file : SourceFile} {next : Nat}
    (h : file ∈ numberFiles files next) :
    ∃ f ∈ files, ∃ k, file = { f with tree := (f.tree.number k).1 } := by
  induction files generalizing next with
  | nil => simp [numberFiles] at h
  | cons f files ih =>
    simp only [numberFiles, List.mem_cons] at h
    obtain rfl | h := h
    · exact ⟨f, List.mem_cons_self, next, rfl⟩
    · obtain ⟨f', hf', k, rfl⟩ := ih h
      exact ⟨f', List.mem_cons_of_mem f hf', k, rfl⟩

theorem exists_of_mem_ofFiles {files : List SourceFile} {file : SourceFile}
    (h : file ∈ (ofFiles files).files) :
    ∃ f ∈ files, ∃ k, file = { f with tree := (f.tree.number k).1 } :=
  exists_of_mem_numberFiles h

theorem draws_numberFiles (files : List SourceFile) (next : Nat) :
    ∃ stop, Node.Draws next stop (files.map SourceFile.tree)
      ((numberFiles files next).map SourceFile.tree) := by
  induction files generalizing next with
  | nil => exact ⟨next, .refl next []⟩
  | cons file files ih =>
    obtain ⟨stop, hrest⟩ := ih (file.tree.number next).2
    exact ⟨stop, (file.tree.draws_number next).append hrest⟩

/-- Where no node has an identity yet, the nodes of a program have different ones. -/
theorem countKey_ofFiles_le_one {files : List SourceFile}
    (h : ∀ f ∈ files, ∀ m ∈ f.tree.preorder, m.id? = none) (k : Nat) :
    Node.countKey k ((ofFiles files).files.map SourceFile.tree) ≤ 1 := by
  have hb : Node.KeysBelow 0 (files.map SourceFile.tree) := by
    intro m hm id hid
    obtain ⟨tree, ht, hm⟩ := List.mem_flatMap.mp hm
    obtain ⟨f, hf, rfl⟩ := List.mem_map.mp ht
    rw [h f hf m hm] at hid
    cases hid
  have hsome : ∀ m ∈ ((ofFiles files).files.map SourceFile.tree).flatMap Node.preorder,
      m.id?.isSome = true := by
    intro m hm
    obtain ⟨tree, ht, hm⟩ := List.mem_flatMap.mp hm
    obtain ⟨file, hfile, rfl⟩ := List.mem_map.mp ht
    obtain ⟨f, -, next, rfl⟩ := exists_of_mem_ofFiles hfile
    exact f.tree.isSome_id?_number next m hm
  have hzero : Node.countIds k (files.map SourceFile.tree) = 0 :=
    hb.countIds_eq_zero (Nat.zero_le k)
  obtain ⟨stop, hdraws⟩ := draws_numberFiles files _
  rw [Node.countKey_eq_countIds hsome]
  exact hdraws.count_le_one (fun _ => by omega) fun _ => hzero

end Program

end Quasiquote
