import Mathlib.Data.List.Flatten
import Quasiquote.Proofs.Carrying

namespace Quasiquote.Node

open scoped List

def substitutions (n : Node) : List Node :=
  match n.child? .template with
  | some template => (TemplateParts.ofTemplate template).substitutions.map Prod.fst
  | none => []

theorem substitutions_eq (n : Node) : n.substitutions =
    match n.child? .template with
    | some template =>
      if template.kind = .templateExpression then
        (template.list .templateSpans).filterMap (child? · .expression)
      else []
    | none => [] := by
  rw [substitutions]
  cases n.child? .template with
  | none => rfl
  | some template =>
    dsimp only
    rw [TemplateParts.ofTemplate]
    split <;> simp [List.map_filterMap, Function.comp_def]

/-- Each substitution is a subtree of its own. -/
theorem substitutions_sublist (n : Node) :
    n.substitutions.flatMap preorder <+ n.children.flatMap preorder := by
  have hspans : ∀ spans : List Node,
      (spans.filterMap (child? · .expression)).flatMap preorder <+ spans.flatMap preorder := by
    intro spans
    induction spans with
    | nil => exact List.nil_sublist _
    | cons s spans ih =>
      cases hs : s.child? .expression with
      | none => simpa [hs] using ih.trans (List.sublist_append_right s.preorder _)
      | some e =>
        have he := preorder_sublist_of_mem_children (mem_children_of_child? hs)
        simpa [hs] using (he.trans (flatMap_children_sublist s)).append ih
  rw [substitutions_eq]
  split
  · next template ht =>
    split
    · calc ((template.list .templateSpans).filterMap (child? · .expression)).flatMap preorder
        _ <+ (template.list .templateSpans).flatMap preorder := hspans _
        _ <+ template.children.flatMap preorder :=
          (list_sublist_children template .templateSpans).flatMap preorder
        _ <+ template.preorder := flatMap_children_sublist template
        _ <+ n.children.flatMap preorder :=
          preorder_sublist_of_mem_children (mem_children_of_child? ht)
    · simp
  · simp

theorem sizeOf_lt_of_mem_preorder {n m : Node} (h : m ∈ n.children.flatMap preorder) :
    sizeOf m < sizeOf n := by
  obtain ⟨c, hc, hm⟩ := List.mem_flatMap.mp h
  have hlt := sizeOf_lt_of_mem_children hc
  rw [preorder_eq] at hm
  rcases List.mem_cons.mp hm with rfl | hm
  · exact hlt
  · exact Nat.lt_trans (sizeOf_lt_of_mem_preorder hm) hlt
termination_by sizeOf n

theorem mem_flatMap_of_mem_substitutions {n m : Node} (h : m ∈ n.substitutions) :
    m ∈ n.children.flatMap preorder :=
  (substitutions_sublist n).subset (List.mem_flatMap.mpr ⟨m, h, m.self_mem_preorder⟩)

theorem mem_preorder_of_mem_substitutions {n m : Node} (h : m ∈ n.substitutions) :
    m ∈ n.preorder :=
  (flatMap_children_sublist n).subset (mem_flatMap_of_mem_substitutions h)

theorem sizeOf_lt_of_mem_substitutions {n m : Node} (h : m ∈ n.substitutions) :
    sizeOf m < sizeOf n :=
  sizeOf_lt_of_mem_preorder (mem_flatMap_of_mem_substitutions h)

/-- The selected nodes that replacing the outermost ones comes to, when a node that is replaced
leaves its substitutions behind and nothing else. -/
def exposed (selected : Node → Bool) (n : Node) : List Node :=
  if selected n then n :: n.substitutions.attach.flatMap fun ⟨c, _⟩ => c.exposed selected
  else n.children.attach.flatMap fun ⟨c, _⟩ => c.exposed selected
termination_by sizeOf n
decreasing_by
  · exact sizeOf_lt_of_mem_substitutions ‹_›
  · exact sizeOf_lt_of_mem_children ‹_›

variable {selected : Node → Bool}

theorem exposed_of_selected {n : Node} (h : selected n = true) :
    n.exposed selected = n :: n.substitutions.flatMap (exposed selected) := by
  rw [exposed, if_pos h]
  simp [List.flatMap_subtype]

theorem exposed_of_not_selected {n : Node} (h : selected n = false) :
    n.exposed selected = n.children.flatMap (exposed selected) := by
  rw [exposed, if_neg (by simp [h])]
  simp [List.flatMap_subtype]

theorem exposed_sublist (selected : Node → Bool) (n : Node) :
    n.exposed selected <+ n.preorder.filter selected := by
  rw [preorder_eq]
  cases h : selected n with
  | true =>
    rw [exposed_of_selected h, List.filter_cons_of_pos h]
    have hsubs : n.substitutions.flatMap (exposed selected) <+
        (n.substitutions.flatMap preorder).filter selected := by
      rw [List.filter_flatMap]
      exact List.Sublist.flatMap_right _ fun c hc => exposed_sublist selected c
    exact (hsubs.trans ((substitutions_sublist n).filter selected)).cons_cons n
  | false =>
    rw [exposed_of_not_selected h, List.filter_cons_of_neg (by simp [h]), List.filter_flatMap]
    exact List.Sublist.flatMap_right _ fun c hc => exposed_sublist selected c
termination_by sizeOf n
decreasing_by
  · exact sizeOf_lt_of_mem_children hc
  · exact sizeOf_lt_of_mem_substitutions hc

/-- Every selected node below another one stands in a substitution of it, and not in its tag. -/
def NestsInSubstitutions (selected : Node → Bool) (n : Node) : Prop :=
  ∀ m ∈ n.preorder, selected m = true →
    (m.children.flatMap preorder).filter selected =
      (m.substitutions.flatMap preorder).filter selected

theorem NestsInSubstitutions.of_mem_preorder {n m : Node} (h : n.NestsInSubstitutions selected)
    (hm : m ∈ n.preorder) : m.NestsInSubstitutions selected := fun k hk =>
  h k ((preorder_sublist_of_mem_preorder hm).subset hk)

theorem exposed_eq_filter {n : Node} (h : n.NestsInSubstitutions selected) :
    n.exposed selected = n.preorder.filter selected := by
  rw [preorder_eq]
  cases hs : selected n with
  | true =>
    have hsubs : n.substitutions.flatMap (exposed selected) =
        (n.substitutions.flatMap preorder).filter selected := by
      rw [List.filter_flatMap]
      refine List.flatMap_congr fun c hc => ?_
      exact exposed_eq_filter (h.of_mem_preorder (mem_preorder_of_mem_substitutions hc))
    rw [exposed_of_selected hs, List.filter_cons_of_pos hs, hsubs, h n n.self_mem_preorder hs]
  | false =>
    rw [exposed_of_not_selected hs, List.filter_cons_of_neg (by simp [hs]), List.filter_flatMap]
    refine List.flatMap_congr fun c hc => ?_
    exact exposed_eq_filter (h.of_mem_preorder (mem_preorder_of_mem_children hc))
termination_by sizeOf n
decreasing_by
  · exact sizeOf_lt_of_mem_children hc
  · exact sizeOf_lt_of_mem_substitutions hc

theorem length_exposed_additive
    (hs : ∀ n, selected n = true → n.kind = .taggedTemplateExpression) :
    Additive fun n => (n.exposed selected).length := by
  intro n hn
  have hsel : selected n = false := Bool.eq_false_iff.mpr fun h => hn (hs n h)
  dsimp only
  rw [total_length, exposed_of_not_selected hsel]

end Quasiquote.Node
