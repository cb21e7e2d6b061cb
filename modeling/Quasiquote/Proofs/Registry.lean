import Quasiquote.Template.Placeholder

namespace Quasiquote.Registry

theorem mem_entries_of_get? {r : Registry} {token : String} {p : Placeholder}
    (h : r.get? token = some p) : (token, p) ∈ r.entries := by
  obtain ⟨l₁, l₂, hl, -⟩ := List.lookup_eq_some_iff.mp h
  simp [hl]

theorem get?_erase (r : Registry) (token token' : String) :
    (r.erase token).get? token' = if token' = token then none else r.get? token' := by
  obtain ⟨entries⟩ := r
  simp only [get?, erase]
  induction entries with
  | nil => simp
  | cons e entries ih =>
    by_cases he : e.1 = token
    · rw [List.filter_cons_of_neg (by simp [he]), ih, List.lookup_cons, he]
      by_cases ht : token' = token
      · simp [ht]
      · simp [ht, beq_eq_false_iff_ne.mpr ht]
    · rw [List.filter_cons_of_pos (by simp [he]), List.lookup_cons, List.lookup_cons, ih]
      by_cases ht : token' = token
      · subst ht
        simp [beq_eq_false_iff_ne.mpr (Ne.symm he)]
      · simp [ht]

def tokens (r : Registry) : List String :=
  r.entries.map Prod.fst

theorem contains_eq_false_iff (r : Registry) (token : String) :
    r.contains token = false ↔ token ∉ r.tokens := by
  simp only [contains, get?, Option.isSome_eq_false_iff, Option.isNone_iff_eq_none,
    List.lookup_eq_none_iff, bne_iff_ne, tokens, List.mem_map, not_exists, not_and]
  exact ⟨fun h e he heq => h e he heq.symm, fun h e he heq => h e he heq.symm⟩

theorem entries_erase_of_not_mem {r : Registry} {token : String} (h : token ∉ r.tokens) :
    (r.erase token).entries = r.entries := by
  rw [erase, List.filter_eq_self]
  intro e he
  simp only [ne_eq, decide_not, Bool.not_eq_eq_eq_not, Bool.not_true, decide_eq_false_iff_not]
  rintro rfl
  exact h (List.mem_map_of_mem he)

theorem nodup_tokens_erase {r : Registry} (h : r.tokens.Nodup) (token : String) :
    (r.erase token).tokens.Nodup :=
  h.sublist (List.filter_sublist.map Prod.fst)

theorem nodup_tokens_insert {r : Registry} (h : r.tokens.Nodup) (token : String)
    (p : Placeholder) : (r.insert token p).tokens.Nodup := by
  have hn : token ∉ (r.erase token).tokens := by
    simp [tokens, erase]
  rw [tokens, insert, List.map_append, List.nodup_append]
  refine ⟨nodup_tokens_erase h token, by simp, ?_⟩
  rintro a ha b hb rfl
  obtain rfl : a = token := by simpa using hb
  exact hn ha

end Quasiquote.Registry
