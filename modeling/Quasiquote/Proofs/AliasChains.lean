import Mathlib.Data.Finset.Card
import Mathlib.Data.Nat.Find
import Mathlib.Logic.Function.Iterate
import Mathlib.Logic.Relation
import Quasiquote.Proofs.Renaming.Model

namespace Quasiquote

open Relation (ReflTransGen TransGen)

namespace Model

def StandsFor (m : Model) (s t : Symbol) : Prop :=
  ∃ before after, m.links = before ++ (s, t) :: after ∧ ∀ link ∈ after, link.1 ≠ s

theorem lookup_filter_ne {s s' : Symbol} (h : s ≠ s') (table : List (Symbol × Symbol)) :
    (table.filter fun e => e.1 ≠ s').lookup s = table.lookup s := by
  induction table with
  | nil => rfl
  | cons e table ih =>
    by_cases he : e.1 = s'
    · have hs : (s == e.1) = false := by simpa [he] using h
      rw [List.filter_cons_of_neg (by simpa using he), List.lookup_cons, hs, ih]
    · rw [List.filter_cons_of_pos (by simpa using he), List.lookup_cons, List.lookup_cons, ih]

theorem lookup_lastOfEach (pairs : List (Symbol × Symbol)) (s : Symbol) :
    (lastOfEach pairs).lookup s = pairs.reverse.lookup s := by
  induction pairs using List.reverseRecOn with
  | nil => rfl
  | append_singleton pairs e ih =>
    have hlast : lastOfEach (pairs ++ [e]) =
        e :: (lastOfEach pairs).filter fun other => other.1 ≠ e.1 := by
      rw [lastOfEach_eq, lastOfEach_eq, List.foldl_append]
      rfl
    rw [hlast, List.reverse_append, List.reverse_singleton, List.singleton_append,
      List.lookup_cons, List.lookup_cons]
    by_cases hs : s = e.1
    · rw [hs, beq_self_eq_true]
    · rw [lookup_filter_ne hs, ih]

/-- The aliases of a model say what its symbols stand for. -/
theorem standsFor_iff {p : Program} {s t : Symbol} :
    p.model.StandsFor s t ↔ p.model.aliases.lookup s = some t := by
  have haliases : p.model.aliases = lastOfEach p.model.links := rfl
  rw [haliases, lookup_lastOfEach, List.lookup_eq_some_iff]
  constructor
  · rintro ⟨before, after, hlinks, hafter⟩
    refine ⟨after.reverse, before.reverse, by simp [hlinks], fun link hlink => ?_⟩
    simpa using (hafter link (List.mem_reverse.mp hlink)).symm
  · rintro ⟨after, before, hlinks, hafter⟩
    refine ⟨before.reverse, after.reverse, ?_, fun link hlink => ?_⟩
    · rw [← List.reverse_reverse p.model.links, hlinks]
      simp
    · have hne : s ≠ link.1 := by simpa using hafter link (List.mem_reverse.mp hlink)
      exact hne.symm

variable {m : Model} {s t : Symbol}

def next (m : Model) (s : Symbol) : Symbol :=
  (m.aliases.lookup s).getD s

theorem next_of_some (h : m.aliases.lookup s = some t) : m.next s = t := by
  rw [next, h, Option.getD_some]

theorem next_of_none (h : m.aliases.lookup s = none) : m.next s = s := by
  rw [next, h, Option.getD_none]

theorem followAliases_eq_iterate (m : Model) (steps : Nat) (s : Symbol) :
    m.followAliases steps s = m.next^[steps] s := by
  induction steps generalizing s with
  | zero => rfl
  | succ steps ih =>
    rw [followAliases, Function.iterate_succ_apply]
    cases h : m.aliases.lookup s with
    | none =>
      rw [next_of_none h]
      exact (Function.iterate_fixed (next_of_none h) steps).symm
    | some t =>
      rw [next_of_some h]
      exact ih t

/-- More symbols with an alias than there are aliases cannot all be different. -/
theorem exists_repeat {k : Nat} (hk : m.aliases.length < k)
    (h : ∀ i < k, m.aliases.lookup (m.next^[i] s) ≠ none) :
    ∃ i j, i < j ∧ j < k ∧ m.next^[i] s = m.next^[j] s := by
  let keys := (m.aliases.map Prod.fst).toFinset
  have hcard : keys.card < (Finset.range k).card := by
    have hle := List.toFinset_card_le (m.aliases.map Prod.fst)
    rw [List.length_map] at hle
    rw [Finset.card_range]
    exact Nat.lt_of_le_of_lt hle hk
  have hkeys : ∀ i ∈ Finset.range k, m.next^[i] s ∈ keys := by
    intro i hi
    obtain ⟨t, ht⟩ := Option.ne_none_iff_exists'.mp (h i (Finset.mem_range.mp hi))
    obtain ⟨before, after, haliases, -⟩ := List.lookup_eq_some_iff.mp ht
    rw [List.mem_toFinset, List.mem_map]
    exact ⟨(m.next^[i] s, t), by simp [haliases], rfl⟩
  obtain ⟨i, hi, j, hj, hne, heq⟩ :=
    Finset.exists_ne_map_eq_of_card_lt_of_maps_to hcard hkeys
  rcases Nat.lt_or_gt_of_ne hne with hij | hij
  · exact ⟨i, j, hij, Finset.mem_range.mp hj, heq⟩
  · exact ⟨j, i, hij, Finset.mem_range.mp hi, heq.symm⟩

/-- A chain that ends does so within as many steps as there are aliases. -/
theorem exists_end_le {k : Nat} (h : m.aliases.lookup (m.next^[k] s) = none) :
    ∃ i ≤ m.aliases.length, m.aliases.lookup (m.next^[i] s) = none := by
  have hend : ∃ i, m.aliases.lookup (m.next^[i] s) = none := ⟨k, h⟩
  refine ⟨Nat.find hend, Nat.le_of_not_lt fun hlong => ?_, Nat.find_spec hend⟩
  obtain ⟨i, j, hij, hj, heq⟩ := exists_repeat hlong fun i hi => Nat.find_min hend hi
  -- without the part between the two the chain ends sooner
  have hsooner : m.next^[Nat.find hend - j + i] s = m.next^[Nat.find hend] s := by
    rw [Function.iterate_add_apply, heq, ← Function.iterate_add_apply,
      Nat.sub_add_cancel (Nat.le_of_lt hj)]
  refine Nat.find_min hend (by omega : Nat.find hend - j + i < Nat.find hend) ?_
  rw [hsooner]
  exact Nat.find_spec hend

/-- A chain stays at its end. -/
theorem iterate_of_end {i k : Nat} (h : m.aliases.lookup (m.next^[i] s) = none) (hle : i ≤ k) :
    m.next^[k] s = m.next^[i] s := by
  rw [← Nat.sub_add_cancel hle, Function.iterate_add_apply]
  exact Function.iterate_fixed (next_of_none h) _

end Model

namespace Program

variable {p : Program} {s t : Symbol}

theorem standsFor_next (h : p.model.aliases.lookup s ≠ none) :
    p.model.StandsFor s (p.model.next s) := by
  obtain ⟨t, ht⟩ := Option.ne_none_iff_exists'.mp h
  rw [Model.next_of_some ht]
  exact Model.standsFor_iff.mpr ht

theorem lookup_eq_none_iff : p.model.aliases.lookup s = none ↔ ∀ t, ¬p.model.StandsFor s t := by
  simp only [Model.standsFor_iff, Option.eq_none_iff_forall_not_mem, Option.mem_def]

theorem reflTransGen_iterate (k : Nat) (s : Symbol) :
    ReflTransGen p.model.StandsFor s (p.model.next^[k] s) := by
  induction k with
  | zero => exact .refl
  | succ k ih =>
    rw [Function.iterate_succ_apply']
    by_cases h : p.model.aliases.lookup (p.model.next^[k] s) = none
    · rw [Model.next_of_none h]
      exact ih
    · exact ih.tail (standsFor_next h)

theorem exists_iterate_eq (h : ReflTransGen p.model.StandsFor s t) :
    ∃ k, p.model.next^[k] s = t := by
  induction h with
  | refl => exact ⟨0, rfl⟩
  | tail _ hstep ih =>
    obtain ⟨k, rfl⟩ := ih
    refine ⟨k + 1, ?_⟩
    rw [Function.iterate_succ_apply']
    exact Model.next_of_some (Model.standsFor_iff.mp hstep)

/-- Once a symbol of an endless chain has come twice, every later one comes again. -/
theorem transGen_iterate {i j k : Nat}
    (hnone : ∀ k, p.model.aliases.lookup (p.model.next^[k] s) ≠ none) (hij : i < j) (hik : i ≤ k)
    (heq : p.model.next^[i] s = p.model.next^[j] s) :
    TransGen p.model.StandsFor (p.model.next^[k] s) (p.model.next^[k] s) := by
  have hcircle : p.model.next^[j - i - 1 + 1] (p.model.next^[k] s) = p.model.next^[k] s := by
    have hsteps : j - i - 1 + 1 + k = k - i + j := by omega
    rw [← Function.iterate_add_apply, hsteps, Function.iterate_add_apply, ← heq,
      ← Function.iterate_add_apply, Nat.sub_add_cancel hik]
  have hlast := hnone (j - i - 1 + k)
  rw [Function.iterate_add_apply] at hlast
  have hround := TransGen.tail' (reflTransGen_iterate (j - i - 1) (p.model.next^[k] s))
    (standsFor_next hlast)
  rwa [← Function.iterate_succ_apply' p.model.next, hcircle] at hround

/-- Imports are followed to the end. What a symbol stands for lies on the chain of its imports; it is
the end of the chain if there is one, and otherwise it lies on a circle. -/
theorem aliased_follows_imports (p : Program) (s : Symbol) :
    ReflTransGen p.model.StandsFor s (p.model.aliased s) ∧
    (∀ t, ReflTransGen p.model.StandsFor s t → (∀ u, ¬p.model.StandsFor t u) →
      p.model.aliased s = t) ∧
    ((∀ t, ReflTransGen p.model.StandsFor s t → ∃ u, p.model.StandsFor t u) →
      TransGen p.model.StandsFor (p.model.aliased s) (p.model.aliased s)) := by
  have haliased : p.model.aliased s = p.model.next^[p.model.aliases.length + 1] s :=
    p.model.followAliases_eq_iterate _ s
  rw [haliased]
  refine ⟨reflTransGen_iterate _ s, fun t ht hend => ?_, fun hendless => ?_⟩
  · obtain ⟨k, rfl⟩ := exists_iterate_eq ht
    rw [← lookup_eq_none_iff] at hend
    obtain ⟨i, hi, hfirst⟩ := Model.exists_end_le hend
    rw [Model.iterate_of_end hfirst (Nat.le_succ_of_le hi)]
    rcases Nat.le_total i k with hik | hki
    · exact (Model.iterate_of_end hfirst hik).symm
    · exact Model.iterate_of_end hend hki
  · have hnone : ∀ k, p.model.aliases.lookup (p.model.next^[k] s) ≠ none := by
      intro k hend
      obtain ⟨u, hu⟩ := hendless _ (reflTransGen_iterate k s)
      exact lookup_eq_none_iff.mp hend u hu
    obtain ⟨i, j, hij, hj, heq⟩ :=
      Model.exists_repeat (Nat.lt_add_one p.model.aliases.length) fun k _ => hnone k
    exact transGen_iterate hnone hij (by omega) heq

end Program

end Quasiquote
