import Mathlib.Data.Prod.Lex
import Mathlib.Order.Bounds.Defs
import Quasiquote.Proofs.Caret
import Quasiquote.Proofs.Progress.Source

namespace Quasiquote

namespace Text

theorem isPlace_of_isValid {source : String} {position : Nat}
    (h : String.Pos.Raw.IsValid source ⟨position⟩) : IsPlace 0 source.toList position := by
  obtain ⟨before, rest, rfl, hposition⟩ := String.Pos.Raw.isValid_iff_exists_append.mp h
  refine ⟨before.toList, ?_, ?_⟩
  · rw [String.toList_append]
    exact List.prefix_append _ _
  · rw [byteLength_toList, Nat.zero_add]
    exact congrArg String.Pos.Raw.byteIdx hposition

/-- Of two places the one with fewer bytes before it comes first. -/
theorem exists_append_of_byteLength_lt {source before before' : List Char} (h : before <+: source)
    (h' : before' <+: source) (hlt : byteLength before < byteLength before') :
    ∃ between, between ≠ [] ∧ before' = before ++ between := by
  rcases List.prefix_or_prefix_of_prefix h h' with ⟨between, rfl⟩ | ⟨between, rfl⟩
  · refine ⟨between, ?_, rfl⟩
    rintro rfl
    simp at hlt
  · rw [byteLength_append] at hlt
    omega

def within : List Char → Nat → List Char
  | [], _ => []
  | c :: r, offset => if c.utf8Size ≤ offset then c :: within r (offset - c.utf8Size) else []

theorem isPrefix_within (cs : List Char) (offset : Nat) : within cs offset <+: cs := by
  fun_induction within cs offset with
  | case1 => exact List.prefix_rfl
  | case2 c r offset _ ih => exact List.prefix_cons_inj c |>.mpr ih
  | case3 => exact List.nil_prefix

theorem byteLength_within_le (cs : List Char) (offset : Nat) :
    byteLength (within cs offset) ≤ offset := by
  fun_induction within cs offset with
  | case1 => exact Nat.zero_le _
  | case2 c r offset hc ih =>
    rw [byteLength_cons]
    omega
  | case3 => exact Nat.zero_le _

theorem byteLength_le_within {before cs : List Char} {offset : Nat} (h : before <+: cs)
    (hle : byteLength before ≤ offset) : byteLength before ≤ byteLength (within cs offset) := by
  fun_induction within cs offset generalizing before with
  | case1 => rw [List.prefix_nil.mp h]
  | case2 c r offset hc ih =>
    cases before with
    | nil => exact Nat.zero_le _
    | cons d before =>
      obtain ⟨rfl, hbefore⟩ := List.cons_prefix_cons.mp h
      rw [byteLength_cons] at hle
      have hrest := ih hbefore (by omega)
      rw [byteLength_cons, byteLength_cons]
      omega
  | case3 c r offset hc =>
    cases before with
    | nil => exact Nat.zero_le _
    | cons d before =>
      obtain ⟨rfl, -⟩ := List.cons_prefix_cons.mp h
      rw [byteLength_cons] at hle
      omega

theorem lastLine_append_of_not_mem (before : List Char) {between : List Char}
    (h : '\n' ∉ between) : lastLine (before ++ between) = lastLine before ++ between := by
  induction before with
  | nil => exact lastLine_of_not_mem h
  | cons c before ih =>
    by_cases hmem : '\n' ∈ before
    · rw [List.cons_append, lastLine_cons_of_mem (List.mem_append_left _ hmem), ih,
        lastLine_cons_of_mem hmem]
    · have happend : '\n' ∉ before ++ between := by simp [hmem, h]
      rw [List.cons_append, lastLine, lastLine, if_neg hmem, if_neg happend]
      split <;> simp

/-- A place in a text that is split at its line feeds: the lines before it are complete, and of its
own line it has what stands after the last of those feeds. -/
theorem splitOn_append (before after : List Char) :
    ∃ front line rest, (before ++ after).splitOn '\n' = front ++ (lastLine before ++ line) :: rest ∧
      front.length = before.count '\n' ∧
      front.flatMap (· ++ ['\n']) ++ lastLine before = before := by
  induction before with
  | nil =>
    obtain ⟨line, rest, h⟩ := List.exists_cons_of_ne_nil (List.splitOn_ne_nil '\n' after)
    exact ⟨[], line, rest, h, rfl, rfl⟩
  | cons c before ih =>
    obtain ⟨front, line, rest, hsplit, hlength, hbefore⟩ := ih
    rw [List.cons_append, List.splitOn_cons_eq_if_modifyHead, hsplit]
    by_cases hc : c = '\n'
    · subst hc
      refine ⟨[] :: front, line, rest, ?_, ?_, ?_⟩
      · rw [if_pos (beq_self_eq_true _), lastLine_feed]
        rfl
      · rw [List.length_cons, hlength, List.count_cons_self]
      · rw [lastLine_feed, List.flatMap_cons, List.append_assoc, hbefore]
        rfl
    · rw [if_neg (by simpa using hc), List.count_cons_of_ne hc]
      -- the character joins the first line, which is the line of the place if no feed precedes it
      cases front with
      | nil =>
        have hmem : '\n' ∉ before := List.count_eq_zero.mp hlength.symm
        have hcons : '\n' ∉ c :: before := by simp [Ne.symm hc, hmem]
        refine ⟨[], line, rest, ?_, hlength, ?_⟩
        · rw [lastLine_of_not_mem hmem, lastLine_of_not_mem hcons]
          rfl
        · rw [lastLine_of_not_mem hcons]
          rfl
      | cons first front =>
        have hmem : '\n' ∈ before := by
          rw [← List.count_pos_iff, ← hlength]
          exact Nat.succ_pos _
        refine ⟨(c :: first) :: front, line, rest, ?_, hlength, ?_⟩
        · rw [lastLine_cons_of_mem hmem]
          rfl
        · rw [lastLine_cons_of_mem hmem]
          exact congrArg (c :: ·) hbefore

end Text

open Text

namespace LineColumn

theorem walk_zero (here : LineColumn) (cs : List Char) : here.walk cs 0 = here := by
  cases cs with
  | nil => rfl
  | cons c r => rw [walk, if_neg (Nat.not_le.mpr c.utf8Size_pos)]

/-- What stands after the offset does not matter to a walk. -/
theorem walk_append (here : LineColumn) (before after : List Char) :
    here.walk (before ++ after) (byteLength before) = here.walk before (byteLength before) := by
  induction before generalizing here with
  | nil => rw [byteLength_nil, walk_zero, walk_zero]
  | cons c before ih =>
    rw [List.cons_append, byteLength_cons, walk, walk, if_pos (Nat.le_add_right _ _),
      Nat.add_sub_cancel_left, ih, if_pos (Nat.le_add_right _ _)]

/-- The line and the column of a place, by what stands before it. -/
theorem ofOffset_byteLength {source : String} {before : List Char} (h : before <+: source.toList) :
    ofOffset source (byteLength before) =
      ⟨before.count '\n' + 1, (lastLine before).length + 1⟩ := by
  obtain ⟨after, hsource⟩ := h
  -- at the end of a source the walk is the one to a character that could follow there
  have hstart := @ofOffset_start (String.ofList (before ++ ['\n'])) before [] '\n'
    String.toList_ofList
  rw [ofOffset, String.toList_ofList, walk_append] at hstart
  rw [ofOffset, ← hsource, walk_append, hstart]

theorem walk_within (here : LineColumn) (cs : List Char) (offset : Nat) :
    here.walk cs offset = here.walk cs (byteLength (within cs offset)) := by
  fun_induction within cs offset generalizing here with
  | case1 => rfl
  | case2 c r offset hc ih =>
    rw [walk, if_pos hc, byteLength_cons, walk, if_pos (Nat.le_add_right _ _),
      Nat.add_sub_cancel_left, ih]
  | case3 c r offset hc => rw [walk, if_neg hc, byteLength_nil, walk_zero]

/-- Go to a line of a source that is split at its line feeds, and there over the characters before a
column. The result is the number of bytes that have been passed, the line feeds included, unless
there is no such line or the line is shorter. -/
def offset? (source : String) (place : LineColumn) : Option Nat :=
  let lines := source.toList.splitOn '\n'
  match lines[place.line - 1]? with
  | some line =>
    if place.column - 1 ≤ line.length then
      some (byteLength ((lines.take (place.line - 1)).flatMap (· ++ ['\n']) ++
        line.take (place.column - 1)))
    else none
  | none => none

theorem offset?_byteLength {source : String} {before : List Char} (h : before <+: source.toList) :
    offset? source ⟨before.count '\n' + 1, (lastLine before).length + 1⟩ =
      some (byteLength before) := by
  obtain ⟨after, hsource⟩ := h
  obtain ⟨front, line, rest, hsplit, hlength, hbefore⟩ := splitOn_append before after
  rw [hsource] at hsplit
  simp only [offset?, Nat.add_sub_cancel, hsplit, ← hlength]
  rw [List.getElem?_append_right (Nat.le_refl _), Nat.sub_self, List.getElem?_cons_zero]
  simp only [List.length_append, Nat.le_add_right, if_true, List.take_left, hbefore]

/-- A place that comes after another one is in a later line, or in the same line and a later
column. -/
theorem lex_of_append (before : List Char) {between : List Char} (h : between ≠ []) :
    toLex (before.count '\n' + 1, (lastLine before).length + 1) <
      toLex ((before ++ between).count '\n' + 1, (lastLine (before ++ between)).length + 1) := by
  rw [Prod.Lex.toLex_lt_toLex, List.count_append]
  by_cases hmem : '\n' ∈ between
  · have hpos := List.count_pos_iff.mpr hmem
    left
    show _ + 1 < _ + 1
    omega
  · have hlength := List.length_pos_of_ne_nil h
    right
    rw [lastLine_append_of_not_mem before hmem, List.count_eq_zero.mpr hmem, List.length_append]
    exact ⟨rfl, by show _ + 1 < _ + 1; omega⟩

/-- Lines and columns are faithful. On the offsets between two characters they increase strictly with
the offset; any other offset has those of the last such offset before it, which past the end is the
end; and from them the offset is found again. -/
theorem ofOffset_faithful (source : String) :
    StrictMonoOn (fun b => toLex ((ofOffset source b).line, (ofOffset source b).column))
      {b | String.Pos.Raw.IsValid source ⟨b⟩} ∧
    (∀ offset, ∃ b, IsGreatest {a | String.Pos.Raw.IsValid source ⟨a⟩ ∧ a ≤ offset} b ∧
      ofOffset source offset = ofOffset source b ∧
      (source.utf8ByteSize ≤ offset → b = source.utf8ByteSize)) ∧
    ∀ b, String.Pos.Raw.IsValid source ⟨b⟩ → offset? source (ofOffset source b) = some b := by
  refine ⟨?_, fun offset => ?_, ?_⟩
  · intro a ha b hb hab
    obtain ⟨before, hbefore, rfl⟩ := isPlace_of_isValid ha
    obtain ⟨before', hbefore', rfl⟩ := isPlace_of_isValid hb
    rw [Nat.zero_add, Nat.zero_add] at hab
    obtain ⟨between, hne, rfl⟩ := exists_append_of_byteLength_lt hbefore hbefore' hab
    simp only [Nat.zero_add, ofOffset_byteLength hbefore, ofOffset_byteLength hbefore']
    exact lex_of_append before hne
  · have hinitial := isPrefix_within source.toList offset
    have hle := byteLength_within_le source.toList offset
    refine ⟨byteLength (within source.toList offset), ⟨⟨?_, hle⟩, ?_⟩, ?_, ?_⟩
    · exact IsPlace.isValid ⟨_, hinitial, (Nat.zero_add _).symm⟩
    · rintro a ⟨ha, hoffset⟩
      obtain ⟨before, hbefore, rfl⟩ := isPlace_of_isValid ha
      rw [Nat.zero_add] at hoffset ⊢
      exact byteLength_le_within hbefore hoffset
    · exact walk_within ⟨1, 1⟩ source.toList offset
    · intro hend
      rw [← byteLength_toList] at hend ⊢
      obtain ⟨after, hafter⟩ := hinitial
      have hlength := congrArg byteLength hafter
      rw [byteLength_append] at hlength
      have hall := byteLength_le_within List.prefix_rfl hend
      omega
  · intro b hb
    obtain ⟨before, hbefore, rfl⟩ := isPlace_of_isValid hb
    rw [Nat.zero_add, ofOffset_byteLength hbefore, offset?_byteLength hbefore]

/-- An empty line, a character of two bytes, and an offset in the middle of it. -/
theorem ofOffset_faithful_accent :
    String.Pos.Raw.IsValid "a\nbc\n\né" ⟨4⟩ ∧ String.Pos.Raw.IsValid "a\nbc\n\né" ⟨6⟩ ∧
    ofOffset "a\nbc\n\né" 4 = ⟨2, 3⟩ ∧ ofOffset "a\nbc\n\né" 6 = ⟨4, 1⟩ ∧
    toLex (2, 3) < toLex (4, 1) ∧
    (∃ b, IsGreatest {a | String.Pos.Raw.IsValid "a\nbc\n\né" ⟨a⟩ ∧ a ≤ 7} b ∧
      ofOffset "a\nbc\n\né" b = ⟨4, 1⟩) ∧
    offset? "a\nbc\n\né" ⟨4, 1⟩ = some 6 := by
  obtain ⟨hmono, hother, hback⟩ := ofOffset_faithful "a\nbc\n\né"
  have hfour : String.Pos.Raw.IsValid "a\nbc\n\né" ⟨4⟩ :=
    IsPlace.isValid ⟨"a\nbc".toList, by decide, by decide⟩
  have hsix : String.Pos.Raw.IsValid "a\nbc\n\né" ⟨6⟩ :=
    IsPlace.isValid ⟨"a\nbc\n\n".toList, by decide, by decide⟩
  have hplaces : ofOffset "a\nbc\n\né" 4 = ⟨2, 3⟩ ∧ ofOffset "a\nbc\n\né" 6 = ⟨4, 1⟩ ∧
      ofOffset "a\nbc\n\né" 7 = ⟨4, 1⟩ := by decide
  obtain ⟨hplace, hplace', hinside⟩ := hplaces
  obtain ⟨b, hb, hsame, -⟩ := hother 7
  refine ⟨hfour, hsix, hplace, hplace', ?_, ⟨b, hb, hsame.symm.trans hinside⟩, ?_⟩
  · have hlt := hmono hfour hsix (by decide)
    simpa only [hplace, hplace'] using hlt
  · have hoffset := hback 6 hsix
    rwa [hplace'] at hoffset

end LineColumn

end Quasiquote
