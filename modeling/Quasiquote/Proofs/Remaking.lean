import Quasiquote.Proofs.Mirror
import Quasiquote.Proofs.Removal

namespace Quasiquote

theorem Pass.forall₂_of_mapM {α β : Type} {R : α → β → Prop} {g : α → Pass β} {xs : List α}
    {ys : List β} {s s' : Progress}
    (hg : ∀ x ∈ xs, ∀ s y s', Pass.Yields (g x) s y s' → R x y)
    (h : Pass.Yields (xs.mapM g) s ys s') : List.Forall₂ R xs ys :=
  Pass.mapM_yields (R := fun xs _ ys _ => List.Forall₂ R xs ys) (fun _ => .nil)
    (fun x hx _ s y t _ _ hy hrest => .cons (hg x hx s y t hy) hrest) h

theorem Field.rel_of_mapNodesM {R : Node → Node → Prop} {g : Node → Pass Node} {f f' : Field}
    {s s' : Progress} (hg : ∀ c ∈ f.nodes, ∀ s c' s', Pass.Yields (g c) s c' s' → R c c')
    (h : Pass.Yields (f.mapNodesM g) s f' s') : Field.Rel R f f' := by
  cases f with
  | node c =>
    obtain ⟨c', hc', rfl⟩ := Pass.yields_map_iff.mp h
    exact .node (hg c (by simp) s c' s' hc')
  | list cs =>
    obtain ⟨cs', hcs', rfl⟩ := Pass.yields_map_iff.mp h
    exact .list (Pass.forall₂_of_mapM hg hcs')
  | text t =>
    obtain ⟨rfl, -⟩ := Pass.yields_pure_iff.mp h
    exact .text t
  | flag b =>
    obtain ⟨rfl, -⟩ := Pass.yields_pure_iff.mp h
    exact .flag b
  | absent =>
    obtain ⟨rfl, -⟩ := Pass.yields_pure_iff.mp h
    exact .absent

theorem Node.keeps_of_mapChildrenM {R : Node → Node → Prop} {g : Node → Pass Node} {n n' : Node}
    {s s' : Progress} (hg : ∀ c ∈ n.children, ∀ s c' s', Pass.Yields (g c) s c' s' → R c c')
    (h : Pass.Yields (n.mapChildrenM g) s n' s') : n.Keeps R n' ∧ n'.mark = n.mark := by
  rw [Node.mapChildrenM_eq] at h
  obtain ⟨fields', t, hfields, h⟩ := Pass.yields_bind_iff.mp h
  obtain ⟨rfl, -⟩ := Pass.yields_pure_iff.mp h
  refine ⟨⟨rfl, Pass.forall₂_of_mapM (fun f hf s f' s' hf' => ?_) hfields⟩, rfl⟩
  exact Field.rel_of_mapNodesM
    (fun c hc s c' s' hc' => hg c (List.mem_flatMap.mpr ⟨f, hf, hc⟩) s c' s' hc') hf'

namespace FilePass

variable {p : FilePass}

/-- What holds of a use site if it holds of what replaces it, and of any other node if it holds of
what it keeps, holds of a whole run. -/
theorem expandAll_induction {R : Node → Node → Prop}
    (site : ∀ {n r n' : Node} {s s' : Progress}, n.Templated → p.isUseSite n = true →
      Pass.Yields (p.expandSite n) s r s' → R r n' → R n n')
    (keep : ∀ {n n' : Node}, p.isUseSite n = false → n.Keeps R n' → n'.mark = n.mark → R n n')
    {n n' : Node} {s s' : Progress} (hn : n.Templated)
    (h : Pass.Yields (p.expandAll n) s n' s') : R n n' := by
  induction acc_calls (p := p) hn generalizing s n' s' with
  | intro n _ ih =>
    rw [expandAll_eq hn] at h
    split at h
    · next hs =>
      obtain ⟨r, t, hr, h⟩ := Pass.yields_bind_iff.mp h
      exact site hn hs hr (ih r (.replacement hs hr) (templated_of_expandSite hn hs hr) h)
    · next hs =>
      have hs' : p.isUseSite n = false := Bool.eq_false_iff.mpr hs
      obtain ⟨hkeeps, hmark⟩ := Node.keeps_of_mapChildrenM
        (fun c hc _ _ _ hc' => ih c (.child hs' hc) (hn.of_mem_children hc) hc') h
      exact keep hs' hkeeps hmark

theorem kind_of_expandSite {n r : Node} {s s' : Progress} (hn : n.Templated)
    (hs : p.isUseSite n = true) (h : Pass.Yields (p.expandSite n) s r s') :
    r.kind = .arrowFunction := by
  obtain ⟨template, ht⟩ := exists_template hn hs
  obtain ⟨e, ids, -, rfl, -⟩ := expandSite_yields ht h
  rfl

/-- A use site declares as little as what it becomes. -/
theorem mirrors_of_expandSite {n r n' : Node} {s s' : Progress} (hn : n.Templated)
    (hs : p.isUseSite n = true) (hr : Pass.Yields (p.expandSite n) s r s') (h : r.Mirrors n') :
    n.Mirrors n' := by
  have hkind := kind_of_expandSite hn hs hr
  refine .inert (by simp [kind_of_isUseSite hs, Kind.isInert]) ?_
  cases h with
  | keep => simp_all [Node.kind, Kind.isInert]
  | inert _ h => exact h

end FilePass

end Quasiquote
