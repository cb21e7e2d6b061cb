import Quasiquote.Proofs.Capture
import Quasiquote.Proofs.TopLevel

namespace Quasiquote

def Node.IsSimulation (R : Node → Node → Prop) : Prop :=
  ∀ n m, R n m → n.Keeps R m

def Descent.Rel (R : Node → Node → Prop) (d d' : Descent) : Prop :=
  R d.node d'.node ∧ d.label = d'.label

namespace Node.IsSimulation

variable {R : Node → Node → Prop} {n m x' : Node} {name : String}
  {path path' outer outer' : List Descent}

theorem mirrors (hR : IsSimulation R) (h : R n m) : n.Mirrors m := by
  induction n using inductionOnChildren generalizing m with
  | h n ih => exact ((hR n m h).imp_of_mem fun c hc d hcd => ih c hc hcd).mirrors

/-- A way in one tree is followed in the other. -/
theorem leads (hR : IsSimulation R) (h : R n m) (hp : m.Leads path' x') :
    ∃ path x, n.Leads path x ∧ R x x' ∧ List.Forall₂ (Descent.Rel R) path path' := by
  induction hp with
  | here => exact ⟨[], n, .here, h, .nil⟩
  | down _ hc ih =>
    obtain ⟨path, y, hy, hyy, hpath⟩ := ih
    obtain ⟨c, hc, hcc⟩ := (hR _ _ hyy).swap.mem_nodesAt hc
    exact ⟨_, c, hy.down hc, hcc, .cons ⟨hyy, rfl⟩ hpath⟩

theorem mem_preorder (hR : IsSimulation R) (h : R n m) (hx : x' ∈ m.preorder) :
    ∃ x ∈ n.preorder, R x x' := by
  induction n using inductionOnChildren generalizing m with
  | h n ih =>
    rw [preorder_eq, List.mem_cons, List.mem_flatMap] at hx
    obtain rfl | ⟨c', hc', hx⟩ := hx
    · exact ⟨n, n.self_mem_preorder, h⟩
    · obtain ⟨c, hc, hcc⟩ := (hR n m h).swap.mem_children hc'
      obtain ⟨x, hxc, hxx⟩ := ih c hc hcc hx
      have hsub := preorder_sublist_of_mem_preorder (mem_preorder_of_mem_children hc)
      exact ⟨x, hsub.subset hxc, hxx⟩

theorem alike (hR : IsSimulation R) (h : List.Forall₂ (Descent.Rel R) path path')
    (ho : Descent.Alike outer outer') : Descent.Alike (path ++ outer) (path' ++ outer') := by
  cases h with
  | nil => exact ho
  | cons h _ =>
    refine ⟨by simp, ?_⟩
    simp [Descent.ReachesBody, (hR _ _ h.1).kind, h.2]

theorem clear (hR : IsSimulation R) (h : List.Forall₂ (Descent.Rel R) path path')
    (ho : Descent.Alike outer outer') (hc : Descent.Clear name outer path) :
    Descent.Clear name outer' path' := by
  induction h with
  | nil => trivial
  | @cons d d' path path' hd hpath ih =>
    obtain ⟨⟨href, hdeclares⟩, hrest⟩ := hc
    have hkeeps := hR _ _ hd.1
    refine ⟨⟨?_, fun h => hdeclares ?_⟩, ih hrest⟩
    · rwa [Descent.isReference, ← hkeeps.kind, ← hd.2]
    · have hmirrors : d.node.Keeps Mirrors d'.node := hkeeps.imp fun _ _ => hR.mirrors
      have hfrom := h.of_keeps hmirrors.symm (hR.alike hpath ho).symm
      rwa [← hd.2] at hfrom

theorem swap (hR : IsSimulation R) : IsSimulation (flip R) :=
  fun n m h => (hR m n h).swap

theorem clear_iff (hR : IsSimulation R) (h : List.Forall₂ (Descent.Rel R) path path')
    (ho : Descent.Alike outer outer') :
    Descent.Clear name outer path ↔ Descent.Clear name outer' path' := by
  refine ⟨hR.clear h ho, hR.swap.clear (h.flip.imp fun d d' hd => ?_) ho.symm⟩
  exact ⟨hd.1, hd.2.symm⟩

end Node.IsSimulation

def Node.Numbers (bound : Nat) (n m : Node) : Prop :=
  ∃ next, bound ≤ next ∧ m = (n.number next).1

theorem Node.forall₂_numberList {bound : Nat} (ns : List Node) {next : Nat} (h : bound ≤ next) :
    List.Forall₂ (Node.Numbers bound) ns (Node.numberList ns next).1 := by
  induction ns generalizing next with
  | nil => exact .nil
  | cons n ns ih => exact .cons ⟨next, h, rfl⟩ (ih (Nat.le_trans h (n.draws_number next).le))

theorem Field.forall₂_numberList {bound : Nat} (fs : List Field) {next : Nat} (h : bound ≤ next) :
    List.Forall₂ (Field.Rel (Node.Numbers bound)) fs (Field.numberList fs next).1 := by
  induction fs generalizing next with
  | nil => exact .nil
  | cons f fs ih =>
    cases f with
    | node n => exact .cons (.node ⟨next, h, rfl⟩) (ih (Nat.le_trans h (n.draws_number next).le))
    | list ns =>
      exact .cons (.list (Node.forall₂_numberList ns h))
        (ih (Nat.le_trans h (Node.draws_numberList ns next).le))
    | text s => exact .cons (.text s) (ih h)
    | flag b => exact .cons (.flag b) (ih h)
    | absent => exact .cons .absent (ih h)

namespace Node

variable {bound : Nat} {n m : Node}

theorem isSimulation_numbers (bound : Nat) : IsSimulation (Numbers bound) := by
  rintro ⟨kind, ⟨id, span⟩, fields⟩ _ ⟨next, h, rfl⟩
  cases id with
  | none => exact ⟨rfl, Field.forall₂_numberList fields (Nat.le_trans h (Nat.le_succ next))⟩
  | some id => exact ⟨rfl, Field.forall₂_numberList fields h⟩

theorem Numbers.mark_of_some (h : n.Numbers bound m) (hid : n.id?.isSome = true) :
    m.mark = n.mark := by
  obtain ⟨next, -, rfl⟩ := h
  obtain ⟨kind, ⟨id, span⟩, fields⟩ := n
  cases id with
  | none => cases hid
  | some id => rfl

theorem Numbers.le_key_of_none (h : n.Numbers bound m) (hid : n.id? = none) : bound ≤ m.key := by
  obtain ⟨next, h, rfl⟩ := h
  obtain ⟨kind, ⟨id, span⟩, fields⟩ := n
  obtain rfl : id = none := hid
  exact h

/-- A tree whose nodes have identities keeps them all. -/
theorem Numbers.eq_of_isSome (h : n.Numbers bound m)
    (hid : ∀ x ∈ n.preorder, x.id?.isSome = true) : m = n := by
  induction n using inductionOnChildren generalizing m with
  | h n ih =>
    have hkeeps := isSimulation_numbers bound n m h
    refine (hkeeps.imp_of_mem fun c hc d hcd => ?_).eq_of_mark
      (h.mark_of_some (hid n n.self_mem_preorder))
    have hsub := preorder_sublist_of_mem_preorder (mem_preorder_of_mem_children hc)
    exact (ih c hc hcd fun x hx => hid x (hsub.subset hx)).symm

/-- An identity below the bound was there before. -/
theorem Numbers.exists_of_key_lt {x : Node} (h : n.Numbers bound m) (hx : x ∈ m.preorder)
    (hlt : x.key < bound) : ∃ y ∈ n.preorder, y.id? = some x.key := by
  obtain ⟨y, hy, hyx⟩ := (isSimulation_numbers bound).mem_preorder h hx
  refine ⟨y, hy, ?_⟩
  cases hid : y.id? with
  | none =>
    have hle := hyx.le_key_of_none hid
    omega
  | some id =>
    have hmark := hyx.mark_of_some (by simp [hid])
    simp only [Option.some.injEq]
    rw [key, id?, hmark]
    exact (congrArg (Option.getD · 0) hid).symm

/-- An identity that was not there before is not below the bound. -/
theorem Numbers.le_key_of_new {x : Node} (h : n.Numbers bound m) (hx : x ∈ m.preorder)
    (hnew : ∀ y ∈ n.preorder, y.id? ≠ x.id?) : bound ≤ x.key := by
  obtain ⟨y, hy, hyx⟩ := (isSimulation_numbers bound).mem_preorder h hx
  cases hid : y.id? with
  | none => exact hyx.le_key_of_none hid
  | some id =>
    have hmark := hyx.mark_of_some (by simp [hid])
    exact absurd (congrArg Mark.id hmark).symm (hnew y hy)

def above (next : Nat) (m : Node) : Nat :=
  match m.id? with
  | some id => max next (id + 1)
  | none => next

theorem le_foldl_above (ns : List Node) (start : Nat) : start ≤ ns.foldl above start ∧
    ∀ m ∈ ns, ∀ id, m.id? = some id → id < ns.foldl above start := by
  induction ns generalizing start with
  | nil => simp
  | cons n ns ih =>
    obtain ⟨hle, hrest⟩ := ih (above start n)
    have hstart : start ≤ above start n := by
      unfold above
      split <;> omega
    refine ⟨Nat.le_trans hstart hle, List.forall_mem_cons.mpr ⟨fun id hid => ?_, hrest⟩⟩
    have hid : id < above start n := by
      simp only [above, hid]
      omega
    exact Nat.lt_of_lt_of_le hid hle

theorem keysBelow_freshId (n : Node) : KeysBelow n.freshId [n] := fun m hm =>
  (le_foldl_above n.preorder 1).2 m (by simpa using hm)

end Node

def SourceFile.withTree (file : SourceFile) (tree : Node) : SourceFile :=
  { file with tree }

namespace Program

def startOf (tree : Node) : Nat :=
  max 1 tree.freshId

theorem numbers_of_mem_ofFiles {file rebound : SourceFile} (h : rebound ∈ (ofFiles [file]).files) :
    file.tree.Numbers (startOf file.tree) rebound.tree := by
  obtain rfl := List.mem_singleton.mp h
  exact ⟨_, Nat.le_refl _, rfl⟩

theorem key_lt_startOf {tree m : Node} (hm : m ∈ tree.preorder) (hid : m.id?.isSome = true) :
    m.key < startOf tree := by
  obtain ⟨id, hid⟩ := Option.isSome_iff_exists.mp hid
  have hlt := tree.keysBelow_freshId m (by simpa using hm) id hid
  rw [Node.key, hid]
  exact Nat.lt_of_lt_of_le hlt (Nat.le_max_right _ _)

/-- New identities are different. -/
theorem countKey_le_one_of_le {file rebound : SourceFile} {k : Nat}
    (h : rebound ∈ (ofFiles [file]).files) (hk : startOf file.tree ≤ k) :
    Node.countKey k [rebound.tree] ≤ 1 := by
  obtain rfl := List.mem_singleton.mp h
  have hbelow : Node.KeysBelow (startOf file.tree) [file.tree] := fun m hm id hid =>
    Nat.lt_of_lt_of_le (file.tree.keysBelow_freshId m hm id hid) (Nat.le_max_right _ _)
  exact Node.countKey_number_le_one hbelow hk _

end Program

end Quasiquote
