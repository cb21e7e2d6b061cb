import Mathlib.Algebra.GroupWithZero.Nat
import Quasiquote.Proofs.Numbering

namespace Quasiquote

theorem Kind.fieldIndex?_eq_some {k : Kind} {l : Label} {i : Nat} (h : k.fieldIndex? l = some i) :
    ∃ shape, k.schema[i]? = some (l, shape) := by
  obtain ⟨hi, hl, -⟩ := List.findIdx?_eq_some_iff_getElem.mp h
  refine ⟨(k.schema[i]).2, ?_⟩
  obtain rfl : (k.schema[i]).1 = l := by simpa using hl
  exact List.getElem?_eq_getElem hi

def Kind.shape? (k : Kind) (l : Label) : Option Shape := do
  let i ← k.fieldIndex? l
  let (_, shape) ← k.schema[i]?
  return shape

theorem Node.fits_of_field? {n : Node} {l : Label} {f : Field} {shape : Shape}
    (hn : checkFields n.kind n.fields = .ok ()) (hl : n.kind.shape? l = some shape)
    (hf : n.field? l = some f) : f.fits shape = true := by
  obtain ⟨i, hi, hf⟩ := Option.bind_eq_some_iff.mp hf
  obtain ⟨_, hs⟩ := n.kind.fieldIndex?_eq_some hi
  obtain rfl : _ = shape := by simpa [Kind.shape?, hi, hs] using hl
  obtain ⟨hi, hs⟩ := List.getElem?_eq_some_iff.mp hs
  obtain ⟨hi', hf⟩ := List.getElem?_eq_some_iff.mp hf
  have hall := List.forall₂_iff_get.mp ((checkFields_eq_ok_iff _ _).mp hn)
  simpa [hs, hf] using hall.2 i hi hi'

theorem le_sum_of_getElem? {α : Type} (f : α → Nat) {xs : List α} {i : Nat} {x : α}
    (hx : xs[i]? = some x) : f x ≤ (xs.map f).sum := by
  induction xs generalizing i with
  | nil => simp at hx
  | cons a xs ih =>
    rw [List.map_cons, List.sum_cons]
    cases i with
    | zero =>
      obtain rfl : a = x := by simpa using hx
      exact Nat.le_add_right _ _
    | succ i => exact Nat.le_trans (ih (by simpa using hx)) (Nat.le_add_left _ _)

/-- Two places of a list add to its sum. -/
theorem add_le_sum_of_getElem? {α : Type} (f : α → Nat) {xs : List α} {i j : Nat} {x y : α}
    (hij : i ≠ j) (hx : xs[i]? = some x) (hy : xs[j]? = some y) : f x + f y ≤ (xs.map f).sum := by
  induction xs generalizing i j with
  | nil => simp at hx
  | cons a xs ih =>
    rw [List.map_cons, List.sum_cons]
    cases i with
    | zero =>
      cases j with
      | zero => exact absurd rfl hij
      | succ j =>
        obtain rfl : a = x := by simpa using hx
        exact Nat.add_le_add_left (le_sum_of_getElem? f (by simpa using hy)) _
    | succ i =>
      cases j with
      | zero =>
        obtain rfl : a = y := by simpa using hy
        rw [Nat.add_comm]
        exact Nat.add_le_add_left (le_sum_of_getElem? f (by simpa using hx)) _
      | succ j =>
        rw [List.getElem?_cons_succ] at hx hy
        exact Nat.le_trans (ih (by omega) hx hy) (Nat.le_add_left _ _)

structure Descent where
  node : Node
  label : Label

namespace Node

variable {n m m' c c' : Node} {l l' : Label} {k : Nat} {path path' : List Descent}

def nodesAt (n : Node) (l : Label) : List Node :=
  ((n.field? l).map Field.nodes).getD []

theorem mem_nodesAt_iff : c ∈ n.nodesAt l ↔ ∃ f, n.field? l = some f ∧ c ∈ f.nodes := by
  unfold nodesAt
  cases n.field? l <;> simp

theorem mem_children_of_mem_nodesAt (h : c ∈ n.nodesAt l) : c ∈ n.children := by
  obtain ⟨f, hf, hc⟩ := mem_nodesAt_iff.mp h
  exact List.mem_flatMap.mpr ⟨f, mem_fields_of_field? hf, hc⟩

theorem mem_nodesAt_of_child? (h : n.child? l = some c) : c ∈ n.nodesAt l := by
  obtain ⟨f, hf, hc⟩ := Option.bind_eq_some_iff.mp h
  cases f <;> simp_all [Field.node?, mem_nodesAt_iff]

theorem mem_nodesAt_of_mem_list (h : c ∈ n.list l) : c ∈ n.nodesAt l := by
  unfold list at h
  split at h
  · next ns hf => exact mem_nodesAt_iff.mpr ⟨_, hf, h⟩
  · simp at h

theorem mem_list_of_mem_nodesAt (hn : checkFields n.kind n.fields = .ok ())
    (hl : n.kind.shape? l = some .list) (hc : c ∈ n.nodesAt l) : c ∈ n.list l := by
  obtain ⟨f, hf, hc⟩ := mem_nodesAt_iff.mp hc
  obtain ⟨ns, rfl⟩ := (f.fits_list_iff).mp (fits_of_field? hn hl hf)
  simpa [list, hf] using hc

theorem child?_of_mem_nodesAt (hn : checkFields n.kind n.fields = .ok ())
    (hl : n.kind.shape? l = some .node ∨ n.kind.shape? l = some .optional)
    (hc : c ∈ n.nodesAt l) : n.child? l = some c := by
  obtain ⟨f, hf, hc⟩ := mem_nodesAt_iff.mp hc
  have hform : f.fits .optional = true := by
    obtain hl | hl := hl
    · obtain ⟨m, rfl⟩ := (f.fits_node_iff).mp (fits_of_field? hn hl hf)
      rfl
    · exact fits_of_field? hn hl hf
  obtain ⟨o, rfl⟩ := (f.fits_optional_iff).mp hform
  cases o with
  | none => simp [Field.ofOption] at hc
  | some m =>
    obtain rfl : c = m := by simpa [Field.ofOption] using hc
    simp [child?, hf, Field.node?, Field.ofOption]

theorem countKey_eq_sum (ns : List Node) :
    countKey k ns = (ns.map fun n => countKey k [n]).sum := by
  induction ns with
  | nil => rfl
  | cons n ns ih =>
    rw [List.map_cons, List.sum_cons, ← ih, countKey_cons]

theorem countKey_children (n : Node) :
    countKey k n.children = (n.fields.map fun f => countKey k f.nodes).sum := by
  unfold children
  induction n.fields with
  | nil => rfl
  | cons f fs ih => rw [List.flatMap_cons, countKey_append, ih, List.map_cons, List.sum_cons]

theorem one_le_countKey_of_mem {ns : List Node} (hc : c ∈ ns) (h : 1 ≤ countKey k [c]) :
    1 ≤ countKey k ns := by
  obtain ⟨i, hi⟩ := List.mem_iff_getElem?.mp hc
  rw [countKey_eq_sum]
  exact Nat.le_trans h (le_sum_of_getElem? (fun n => countKey k [n]) hi)

theorem countKey_le_of_mem_preorder (h : c ∈ n.preorder) : countKey k [c] ≤ countKey k [n] := by
  simpa [countKey] using (preorder_sublist_of_mem_preorder h).countP_le

/-- Of the fields of a node, and of the nodes of a field, only one holds an identity that occurs
once. -/
theorem eq_of_mem_nodesAt (hn : countKey k [n] ≤ 1) (hc : c ∈ n.nodesAt l)
    (hc' : c' ∈ n.nodesAt l') (h : 1 ≤ countKey k [c]) (h' : 1 ≤ countKey k [c']) :
    l = l' ∧ c = c' := by
  obtain ⟨f, hf, hcf⟩ := mem_nodesAt_iff.mp hc
  obtain ⟨f', hf', hcf'⟩ := mem_nodesAt_iff.mp hc'
  obtain ⟨i, hi, hfi⟩ := Option.bind_eq_some_iff.mp hf
  obtain ⟨j, hj, hfj⟩ := Option.bind_eq_some_iff.mp hf'
  have hchildren : (n.fields.map fun f => countKey k f.nodes).sum ≤ 1 := by
    rw [countKey_singleton, countKey_children] at hn
    omega
  have hpos := one_le_countKey_of_mem hcf h
  have hpos' := one_le_countKey_of_mem hcf' h'
  have hij : i = j := by
    by_contra hne
    have hsum := add_le_sum_of_getElem? (fun f => countKey k f.nodes) hne hfi hfj
    omega
  subst hij
  obtain ⟨_, hs⟩ := n.kind.fieldIndex?_eq_some hi
  obtain ⟨_, hs'⟩ := n.kind.fieldIndex?_eq_some hj
  obtain rfl : f = f' := Option.some.inj (hfi.symm.trans hfj)
  refine ⟨(Prod.mk.inj (Option.some.inj (hs.symm.trans hs'))).1, ?_⟩
  obtain ⟨a, ha⟩ := List.mem_iff_getElem?.mp hcf
  obtain ⟨b, hb⟩ := List.mem_iff_getElem?.mp hcf'
  have hle := Nat.le_trans (le_sum_of_getElem? (fun f => countKey k f.nodes) hfi) hchildren
  have hab : a = b := by
    by_contra hne
    have hsum := add_le_sum_of_getElem? (fun n => countKey k [n]) hne ha hb
    rw [← countKey_eq_sum] at hsum
    omega
  subst hab
  exact Option.some.inj (ha.symm.trans hb)

inductive Leads (root : Node) : List Descent → Node → Prop
  | here : Leads root [] root
  | down {path : List Descent} {n c : Node} {l : Label} (h : Leads root path n)
    (hc : c ∈ n.nodesAt l) : Leads root (⟨n, l⟩ :: path) c

theorem Leads.up (hc : c ∈ n.nodesAt l) (h : Leads c path m) : Leads n (path ++ [⟨n, l⟩]) m := by
  induction h with
  | here => exact .down .here hc
  | down _ hd ih => exact .down ih hd

theorem Leads.trans (h : Leads n path m) (h' : Leads m path' c) : Leads n (path' ++ path) c := by
  induction h' with
  | here => exact h
  | down _ hd ih => exact .down ih hd

def descend? (n : Node) : List (Label × Nat) → Option (List Descent × Node)
  | [] => some ([], n)
  | (l, i) :: rest => do
    let c ← (n.nodesAt l)[i]?
    let (path, m) ← c.descend? rest
    return (path ++ [⟨n, l⟩], m)

theorem leads_of_descend? {steps : List (Label × Nat)} (h : n.descend? steps = some (path, m)) :
    n.Leads path m := by
  induction steps generalizing n path with
  | nil =>
    cases h
    exact .here
  | cons step rest ih =>
    obtain ⟨c, hc, h⟩ := Option.bind_eq_some_iff.mp h
    obtain ⟨⟨path', m'⟩, hrest, h⟩ := Option.bind_eq_some_iff.mp h
    cases h
    exact (ih hrest).up (List.mem_of_getElem? hc)

theorem Leads.cases_first (h : Leads n path m) :
    (path = [] ∧ m = n) ∨
      ∃ l c path', c ∈ n.nodesAt l ∧ Leads c path' m ∧ path = path' ++ [⟨n, l⟩] := by
  induction h with
  | here => exact .inl ⟨rfl, rfl⟩
  | @down path p c l h hc ih =>
    refine .inr ?_
    obtain ⟨rfl, rfl⟩ | ⟨l', d, path', hd, hp, rfl⟩ := ih
    · exact ⟨l, c, [], hc, .here, rfl⟩
    · exact ⟨l', d, ⟨p, l⟩ :: path', hd, .down hp hc, rfl⟩

theorem Leads.exists_of_mem {d : Descent} (h : Leads n path m) (hd : d ∈ path) :
    ∃ path', Leads n path' d.node := by
  induction h with
  | here => simp at hd
  | @down path p c l h hc ih =>
    obtain rfl | hd := List.mem_cons.mp hd
    · exact ⟨path, h⟩
    · exact ih hd

theorem Leads.mem_preorder (h : Leads n path m) : m ∈ n.preorder := by
  induction h with
  | here =>
    rw [preorder_eq]
    exact List.mem_cons_self
  | down _ hc ih =>
    exact (preorder_sublist_of_mem_preorder ih).subset
      (mem_preorder_of_mem_children (mem_children_of_mem_nodesAt hc))

theorem Leads.one_le_countKey (h : Leads n path m) (hk : m.key = k) : 1 ≤ countKey k [n] := by
  rw [countKey]
  exact List.countP_pos_iff.mpr ⟨m, by simpa using h.mem_preorder, by simpa using hk⟩

/-- To an identity that occurs once in a tree leads one way. -/
theorem Leads.unique (hn : countKey k [n] ≤ 1) (h : Leads n path m) (h' : Leads n path' m')
    (hm : m.key = k) (hm' : m'.key = k) : path = path' ∧ m = m' := by
  induction n using inductionOnChildren generalizing path path' with
  | h n ih =>
    obtain ⟨rfl, rfl⟩ | ⟨l, c, path, hc, hp, rfl⟩ := h.cases_first
    · obtain ⟨rfl, rfl⟩ | ⟨l', c', path', hc', hp', rfl⟩ := h'.cases_first
      · exact ⟨rfl, rfl⟩
      · have hpos := one_le_countKey_of_mem (mem_children_of_mem_nodesAt hc')
          (hp'.one_le_countKey hm')
        rw [countKey_singleton, if_pos hm] at hn
        omega
    · obtain ⟨rfl, rfl⟩ | ⟨l', c', path', hc', hp', rfl⟩ := h'.cases_first
      · have hpos := one_le_countKey_of_mem (mem_children_of_mem_nodesAt hc)
          (hp.one_le_countKey hm)
        rw [countKey_singleton, if_pos hm'] at hn
        omega
      · obtain ⟨rfl, rfl⟩ := eq_of_mem_nodesAt hn hc hc' (hp.one_le_countKey hm)
          (hp'.one_le_countKey hm')
        have hcount := Nat.le_trans (countKey_le_of_mem_preorder (mem_preorder_of_mem_children
          (mem_children_of_mem_nodesAt hc))) hn
        obtain ⟨rfl, rfl⟩ := ih c (mem_children_of_mem_nodesAt hc) hcount hp hp'
        exact ⟨rfl, rfl⟩

end Node

end Quasiquote
