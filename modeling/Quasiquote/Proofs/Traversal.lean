import Quasiquote.Expansion.Pass
import Quasiquote.Proofs.Conformance

namespace Quasiquote

section

variable {m : Type → Type} [Monad m]

def Field.mapNodesM (f : Node → m Node) : Field → m Field
  | .node c => Field.node <$> f c
  | .list cs => Field.list <$> cs.mapM f
  | field => pure field

namespace Node

theorem mapChildrenM_eq (n : Node) (f : Node → m Node) :
    n.mapChildrenM f =
      (do return .mk n.kind n.mark (← n.fields.mapM (Field.mapNodesM f))) := by
  rw [mapChildrenM]
  congr 2

variable [LawfulMonad m]

theorem mapM_congr_of_mem {α β : Type} {f g : α → m β} {xs : List α} (h : ∀ x ∈ xs, f x = g x) :
    xs.mapM f = xs.mapM g := by
  induction xs with
  | nil => rfl
  | cons x xs ih =>
    obtain ⟨hx, hxs⟩ := List.forall_mem_cons.mp h
    rw [List.mapM_cons, List.mapM_cons, hx, ih hxs]

theorem mapChildrenM_congr {n : Node} {f g : Node → m Node} (h : ∀ c ∈ n.children, f c = g c) :
    n.mapChildrenM f = n.mapChildrenM g := by
  have hfields : n.fields.mapM (Field.mapNodesM f) = n.fields.mapM (Field.mapNodesM g) := by
    apply mapM_congr_of_mem
    intro field hfield
    have hnodes : ∀ c ∈ field.nodes, f c = g c := fun c hc =>
      h c (List.mem_flatMap.mpr ⟨field, hfield, hc⟩)
    cases field with
    | node c => simp only [Field.mapNodesM, hnodes c (by simp)]
    | list cs => exact congrArg (Field.list <$> ·) (mapM_congr_of_mem hnodes)
    | text | flag | absent => rfl
  rw [mapChildrenM_eq, mapChildrenM_eq, hfields]

theorem mapChildrenM_pure (n : Node) : n.mapChildrenM (pure : Node → m Node) = pure n := by
  have hid (xs : List Node) : xs.mapM (pure : Node → m Node) = pure xs := by
    simpa using List.mapM_pure (m := m) (l := xs) (f := id)
  have hfields : n.fields.mapM (Field.mapNodesM (pure : Node → m Node)) = pure n.fields := by
    have hfield : Field.mapNodesM (pure : Node → m Node) = fun f => pure (id f) := by
      funext field
      cases field <;> simp [Field.mapNodesM, hid]
    rw [hfield, List.mapM_pure, List.map_id]
  rw [mapChildrenM_eq, hfields]
  cases n with
  | mk => simp only [pure_bind]; rfl

variable (selected : Node → Bool) (replacement : Node → m Node)

theorem replaceListM_eq_mapM (ns : List Node) :
    replaceListM selected replacement ns = ns.mapM (replaceM selected replacement) := by
  induction ns with
  | nil => simp [replaceListM]
  | cons n ns ih => simp [replaceListM, ih]

theorem replaceFieldsM_eq_mapM (fields : List Field) :
    Field.replaceListM selected replacement fields =
      fields.mapM (Field.mapNodesM (replaceM selected replacement)) := by
  induction fields with
  | nil => simp [Field.replaceListM]
  | cons f fields ih =>
    cases f <;> simp [Field.replaceListM, Field.mapNodesM, replaceListM_eq_mapM, ih]

/-- Replacing goes down to the children of a node that is not selected. -/
theorem replaceM_eq (n : Node) : n.replaceM selected replacement =
    if selected n then replacement n else n.mapChildrenM (replaceM selected replacement) := by
  cases n with
  | mk kind mark fields =>
    rw [replaceM, mapChildrenM_eq, replaceFieldsM_eq_mapM]
    rfl

theorem replaceM_congr {replacement' : Node → m Node} {n : Node}
    (h : ∀ c ∈ n.preorder, selected c = true → replacement c = replacement' c) :
    n.replaceM selected replacement = n.replaceM selected replacement' := by
  induction n using inductionOnChildren with
  | h n ih =>
    rw [preorder_eq] at h
    rw [replaceM_eq, replaceM_eq]
    split
    · next hs => exact h n List.mem_cons_self hs
    · apply mapChildrenM_congr
      intro c hc
      exact ih c hc fun d hd => h d (List.mem_cons_of_mem n (List.mem_flatMap.mpr ⟨c, hc, hd⟩))

theorem replaceM_of_none {n : Node} (h : ∀ c ∈ n.preorder, selected c = false) :
    n.replaceM selected replacement = pure n := by
  induction n using inductionOnChildren with
  | h n ih =>
    rw [preorder_eq] at h
    rw [replaceM_eq, if_neg (by simp [h n List.mem_cons_self]), ← mapChildrenM_pure]
    apply mapChildrenM_congr
    intro c hc
    exact ih c hc fun d hd => h d (List.mem_cons_of_mem n (List.mem_flatMap.mpr ⟨c, hc, hd⟩))

end Node

end

namespace Pass

variable {α β : Type}

def outcome (x : Pass α) (s : Progress) : Except ExpansionError α × Progress :=
  x.run.run s

@[simp] theorem outcome_pure (a : α) (s : Progress) : outcome (pure a) s = (.ok a, s) := rfl

@[simp] theorem outcome_get (s : Progress) : outcome get s = (.ok s, s) := rfl

@[simp] theorem outcome_set (t s : Progress) : outcome (set t) s = (.ok ⟨⟩, t) := rfl

@[simp] theorem outcome_modify (f : Progress → Progress) (s : Progress) :
    outcome (modify f) s = (.ok ⟨⟩, f s) := rfl

@[simp] theorem outcome_throw (e : ExpansionError) (s : Progress) :
    outcome (throw e : Pass α) s = (.error e, s) := rfl

def Yields (x : Pass α) (s : Progress) (a : α) (s' : Progress) : Prop :=
  outcome x s = (.ok a, s')

@[simp] theorem yields_pure_iff {a b : α} {s s' : Progress} :
    Yields (pure a) s b s' ↔ a = b ∧ s = s' := by
  simp [Yields]

theorem outcome_bind (x : Pass α) (f : α → Pass β) (s : Progress) : outcome (x >>= f) s =
    match outcome x s with
    | (.ok a, t) => outcome (f a) t
    | (.error e, t) => (.error e, t) := by
  simp only [outcome, ExceptT.run_bind, StateT.run_bind]
  rcases x.run.run s with ⟨_ | a, t⟩ <;> rfl

theorem yields_bind_iff {x : Pass α} {f : α → Pass β} {s s' : Progress} {b : β} :
    Yields (x >>= f) s b s' ↔ ∃ a t, Yields x s a t ∧ Yields (f a) t b s' := by
  simp only [Yields, outcome_bind]
  rcases outcome x s with ⟨_ | a, t⟩ <;> simp

theorem yields_map_iff {x : Pass α} {f : α → β} {s s' : Progress} {b : β} :
    Yields (f <$> x) s b s' ↔ ∃ a, Yields x s a s' ∧ f a = b := by
  simp [← bind_pure_comp, yields_bind_iff]

/-- What follows a step matters only for what the step yields. -/
theorem bind_congr_of_yields {x : Pass α} {f g : α → Pass β}
    (h : ∀ s a s', Yields x s a s' → f a = g a) : x >>= f = x >>= g := by
  funext s
  change outcome (x >>= f) s = outcome (x >>= g) s
  rw [outcome_bind, outcome_bind]
  rcases hx : outcome x s with ⟨_ | a, t⟩
  · rfl
  · simp only [h s a t hx]

/-- A relation that holds of no steps and is kept by one step in front holds of a whole list. -/
theorem mapM_yields {g : α → Pass β} {R : List α → Progress → List β → Progress → Prop}
    {xs : List α} {s s' : Progress} {ys : List β} (nil : ∀ s, R [] s [] s)
    (cons : ∀ x ∈ xs, ∀ rest s y t ys s', Yields (g x) s y t → R rest t ys s' →
      R (x :: rest) s (y :: ys) s')
    (h : Yields (xs.mapM g) s ys s') : R xs s ys s' := by
  induction xs generalizing s ys with
  | nil =>
    rw [List.mapM_nil, yields_pure_iff] at h
    obtain ⟨rfl, rfl⟩ := h
    exact nil s
  | cons x xs ih =>
    obtain ⟨hx, hxs⟩ := List.forall_mem_cons.mp cons
    rw [List.mapM_cons, yields_bind_iff] at h
    obtain ⟨y, t, hy, h⟩ := h
    obtain ⟨ys', t', hys, h⟩ := yields_bind_iff.mp h
    obtain ⟨rfl, rfl⟩ := yields_pure_iff.mp h
    exact hx xs s y t ys' t' hy (ih hxs hys)

end Pass

end Quasiquote
