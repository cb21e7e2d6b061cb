import Mathlib.Data.List.Nodup
import Mathlib.Data.List.Perm.Subperm
import Mathlib.Data.List.ProdSigma
import Quasiquote.Options.Basic
import Quasiquote.Template.Placeholder

namespace Quasiquote

theorem Text.occursIn_iff (word text : List Char) : occursIn word text = true ↔ word <:+: text := by
  induction text with
  | nil => simp [occursIn]
  | cons c text ih =>
    rw [occursIn, Bool.or_eq_true, ih, List.infix_cons_iff, List.isPrefixOf_iff_prefix]

namespace Registry

variable (r : Registry) (text : String)

theorem withSuffix_injective (token : String) : Function.Injective (withSuffix token) := by
  intro a b h
  have hl : Nat.toDigits 10 a = Nat.toDigits 10 b := by
    have hlists := congrArg String.toList h
    simpa [withSuffix, Nat.toString_eq_ofList_toDigits] using hlists
  rw [← Nat.ofDigitChars_ten_toDigits (n := a), hl, Nat.ofDigitChars_ten_toDigits]

def pieces : List String :=
  (List.range (text.length + 1) ×ˢ List.range (text.length + 1)).map fun (start, size) =>
    String.ofList ((text.toList.drop start).take size)

theorem length_pieces : (pieces text).length = (text.length + 1) * (text.length + 1) := by
  simp [pieces, List.length_product]

theorem mem_pieces_of_occursIn {word : String}
    (h : Text.occursIn word.toList text.toList = true) : word ∈ pieces text := by
  obtain ⟨before, after, heq⟩ := (Text.occursIn_iff _ _).mp h
  have hl := congrArg List.length heq
  simp only [List.length_append, String.length_toList] at hl
  refine List.mem_map.mpr ⟨(before.length, word.length), ?_, ?_⟩
  · simp only [List.mem_product, List.mem_range]
    omega
  · simp only [← heq, List.append_assoc, List.drop_left]
    rw [← String.length_toList, List.take_left, String.ofList_toList]

theorem mem_of_not_isFree {token : String} (h : r.isFree text token = false) :
    token ∈ r.entries.map Prod.fst ++ pieces text := by
  simp only [isFree, Bool.and_eq_false_iff, Bool.not_eq_false'] at h
  rcases h with h | h
  · simp only [contains, get?, List.lookup_isSome_iff, beq_iff_eq] at h
    obtain ⟨e, he, rfl⟩ := h
    exact List.mem_append_left _ (List.mem_map_of_mem he)
  · exact List.mem_append_right _ (mem_pieces_of_occursIn text h)

/-- There are more numbered forms of a token than registered tokens and pieces of the text. -/
theorem exists_isFree_withSuffix (token : String) :
    ∃ k < r.suffixBound text, r.isFree text (withSuffix token k) = true := by
  by_contra hnone
  have hused : (List.range (r.suffixBound text)).map (withSuffix token) ⊆
      r.entries.map Prod.fst ++ pieces text := by
    intro used hmem
    obtain ⟨k, hk, rfl⟩ := List.mem_map.mp hmem
    apply mem_of_not_isFree
    rw [← Bool.not_eq_true]
    exact fun hfree => hnone ⟨k, List.mem_range.mp hk, hfree⟩
  have hnodup : ((List.range (r.suffixBound text)).map (withSuffix token)).Nodup :=
    List.Nodup.map (withSuffix_injective token) List.nodup_range
  have hle := (hnodup.subperm hused).length_le
  simp only [List.length_map, List.length_range, List.length_append, length_pieces, suffixBound,
    size] at hle
  omega

theorem isFree_firstFreeSuffix (token : String) (bound k : Nat)
    (h : ∃ i < bound, r.isFree text (withSuffix token (k + i)) = true) :
    r.isFree text (r.firstFreeSuffix text token bound k) = true := by
  induction bound generalizing k with
  | zero => simp at h
  | succ bound ih =>
    rw [firstFreeSuffix]
    split
    · assumption
    · next hk =>
      apply ih
      obtain ⟨i, hi, hfree⟩ := h
      cases i with
      | zero => exact absurd hfree hk
      | succ i => exact ⟨i, by omega, by rwa [Nat.add_right_comm, Nat.add_assoc]⟩

theorem isFree_drawFree (draws : Nat) (token : String) (ids : IdSupply) :
    r.isFree text (r.drawFree text draws token ids).1 = true := by
  induction draws generalizing token ids with
  | zero =>
    apply isFree_firstFreeSuffix
    simpa using r.exists_isFree_withSuffix text token
  | succ draws ih =>
    rw [drawFree]
    split
    · assumption
    · exact ih _ _

/-- A token that is drawn is not registered and does not occur in the text. -/
theorem isFree_freshToken (ids : IdSupply) :
    r.isFree text (r.freshToken ids text).1 = true :=
  r.isFree_drawFree text _ _ _

/-- All numbered forms before the one that is taken are in use. -/
theorem firstFreeSuffix_eq (token : String) (bound k : Nat) :
    ∃ n, r.firstFreeSuffix text token bound k = withSuffix token (k + n) ∧
      ∀ j < n, r.isFree text (withSuffix token (k + j)) = false := by
  induction bound generalizing k with
  | zero => exact ⟨0, rfl, by simp⟩
  | succ bound ih =>
    rw [firstFreeSuffix]
    split
    · exact ⟨0, rfl, by simp⟩
    · next hk =>
      obtain ⟨n, hn, hused⟩ := ih (k + 1)
      refine ⟨n + 1, by rw [hn, Nat.add_right_comm, Nat.add_assoc], fun j hj => ?_⟩
      cases j with
      | zero => simpa using hk
      | succ j =>
        rw [← Nat.add_assoc, Nat.add_right_comm]
        exact hused j (by omega)

/-- A token from `ids` after `n` others that are in use: the next id itself, or its first numbered
form that is free once `draws` ids were tested in vain. -/
inductive Settles (ids : Nat → String) (draws n : Nat) : String → Prop
  | drawn (hn : n < draws) : Settles ids draws n (Token.sanitize (ids n))
  | numbered (hn : n = draws) (k : Nat)
    (hused : ∀ j < k, r.isFree text (withSuffix (Token.sanitize (ids n)) j) = false) :
    Settles ids draws n (withSuffix (Token.sanitize (ids n)) k)

theorem drawFree_settles (id : Nat → String) (draws start : Nat) :
    ∃ n token, r.drawFree text draws (Token.sanitize (id start)) ⟨start + 1, id⟩ =
        (token, ⟨start + n + 1, id⟩) ∧
      (∀ i < n, r.isFree text (Token.sanitize (id (start + i))) = false) ∧
      r.Settles text (fun i => id (start + i)) draws n token := by
  induction draws generalizing start with
  | zero =>
    obtain ⟨k, hk, hused⟩ :=
      r.firstFreeSuffix_eq text (Token.sanitize (id start)) (r.suffixBound text) 0
    simp only [Nat.zero_add] at hk hused
    exact ⟨0, _, by rw [drawFree, hk]; rfl, by simp, .numbered rfl k hused⟩
  | succ draws ih =>
    rw [drawFree]
    split
    · exact ⟨0, _, rfl, by simp, .drawn (Nat.succ_pos draws)⟩
    · next hstart =>
      obtain ⟨n, token, hdraw, hused, hsettles⟩ := ih (start + 1)
      have hnext (i : Nat) : start + 1 + i = start + (i + 1) := by omega
      simp only [hnext] at hdraw hused hsettles
      refine ⟨n + 1, token, hdraw, fun i hi => ?_, ?_⟩
      · cases i with
        | zero => simpa using hstart
        | succ i => exact hused i (by omega)
      · cases hsettles with
        | drawn hn => exact .drawn (by omega)
        | numbered hn k hk => exact .numbered (by omega) k hk

end Registry

def Token.IsName (token : String) : Prop :=
  ∃ c r, token.toList = c :: r ∧ startsName c = true ∧ ∀ d ∈ r, continuesName d = true

theorem Token.IsName.isIdentifier {token : String} (h : IsName token) :
    Options.isIdentifier token = true := by
  obtain ⟨c, r, htoken, hc, hr⟩ := h
  simp only [startsName, continuesName] at hc hr
  simp only [Options.isIdentifier, htoken, Bool.and_eq_true, List.all_eq_true]
  exact ⟨by rw [hc, Bool.true_or], fun d hd => by rw [hr d hd, Bool.true_or]⟩

theorem Token.isName_sanitize (id : String) : IsName (sanitize id) := by
  have hkept : ∀ d ∈ id.toList.filter continuesName, continuesName d = true :=
    fun d hd => (List.mem_filter.mp hd).2
  rw [IsName, sanitize, String.toList_ofList]
  split
  · next hhead =>
    cases hchars : id.toList.filter continuesName with
    | nil => simp [hchars] at hhead
    | cons c r =>
      rw [hchars] at hhead hkept
      exact ⟨c, r, rfl, by simpa using hhead, (List.forall_mem_cons.mp hkept).2⟩
  · exact ⟨'_', _, rfl, by decide, hkept⟩

namespace Registry

theorem isName_withSuffix {token : String} (h : Token.IsName token) (k : Nat) :
    Token.IsName (withSuffix token k) := by
  obtain ⟨c, r, htoken, hc, hr⟩ := h
  refine ⟨c, r ++ '_' :: Nat.toDigits 10 k, by simp [withSuffix, htoken], hc, fun d hd => ?_⟩
  rcases List.mem_append.mp hd with hd | hd
  · exact hr d hd
  · rcases List.mem_cons.mp hd with rfl | hd
    · decide
    · have hdigit := Nat.isDigit_of_mem_toDigits (by decide) (by decide) hd
      simp [Token.continuesName, Char.isAlphanum, hdigit]

theorem Settles.isName {r : Registry} {text token : String} {ids : Nat → String} {draws n : Nat}
    (h : r.Settles text ids draws n token) : Token.IsName token := by
  cases h with
  | drawn => exact Token.isName_sanitize _
  | numbered _ k => exact isName_withSuffix (Token.isName_sanitize _) k

theorem isName_freshToken (r : Registry) (text : String) (ids : IdSupply) :
    Token.IsName (r.freshToken ids text).1 := by
  obtain ⟨n, token, hdraw, -, hsettles⟩ :=
    r.drawFree_settles text ids.id (maxDraws - 1) ids.drawn
  have hfresh : r.freshToken ids text = (token, ⟨ids.drawn + n + 1, ids.id⟩) := hdraw
  rw [hfresh]
  exact hsettles.isName

end Registry

/-- A fresh token is found with at most 16 ids of whatever supply. It is an identifier that is
neither registered nor part of the text, and the search that numbers the last id ends at the first
form that is free. -/
theorem Registry.freshToken_settles (r : Registry) (ids : IdSupply) (text : String) :
    ∃ n token, r.freshToken ids text = (token, { ids with drawn := ids.drawn + n + 1 }) ∧
      n + 1 ≤ 16 ∧ Options.isIdentifier token = true ∧ token ∉ r.entries.map Prod.fst ∧
      ¬token.toList <:+: text.toList ∧
      (∀ i < n, r.isFree text (Token.sanitize (ids.id (ids.drawn + i))) = false) ∧
      r.Settles text (fun i => ids.id (ids.drawn + i)) 15 n token := by
  obtain ⟨n, token, hdraw, hused, hsettles⟩ := r.drawFree_settles text ids.id 15 ids.drawn
  have hfresh : r.freshToken ids text = (token, { ids with drawn := ids.drawn + n + 1 }) := hdraw
  have hfree := r.isFree_freshToken text ids
  rw [hfresh, isFree, Bool.and_eq_true, Bool.not_eq_true', Bool.not_eq_true'] at hfree
  refine ⟨n, token, hfresh, ?_, ?_, fun hmem => ?_, fun hinfix => ?_, hused, hsettles⟩
  · cases hsettles with
    | drawn hn => omega
    | numbered hn => omega
  · exact hsettles.isName.isIdentifier
  · obtain ⟨e, he, rfl⟩ := List.mem_map.mp hmem
    have hlookup : r.contains e.1 = true := by
      simp only [contains, get?, List.lookup_isSome_iff, beq_iff_eq]
      exact ⟨e, he, rfl⟩
    rw [hfree.1] at hlookup
    exact Bool.false_ne_true hlookup
  · rw [(Text.occursIn_iff _ _).mpr hinfix] at hfree
    exact Bool.false_ne_true hfree.2.symm

end Quasiquote
