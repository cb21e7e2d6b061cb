import Quasiquote.Report.Snippet
import Quasiquote.Text.Bytes

namespace Quasiquote

namespace Text

def lastLine : List Char → List Char
  | [] => []
  | c :: r => if '\n' ∈ r then lastLine r else if c = '\n' then r else c :: r

/-- What stands before the first line feed of a text and a carriage return right before it. -/
def lineRest : List Char → List Char
  | [] => []
  | '\n' :: _ => []
  | '\r' :: '\n' :: _ => []
  | c :: r => c :: lineRest r

theorem lastLine_of_not_mem {cs : List Char} (h : '\n' ∉ cs) : lastLine cs = cs := by
  cases cs with
  | nil => rfl
  | cons c r =>
    rw [List.mem_cons, not_or] at h
    rw [lastLine, if_neg h.2, if_neg (Ne.symm h.1)]

theorem lastLine_cons_of_mem {c : Char} {r : List Char} (h : '\n' ∈ r) :
    lastLine (c :: r) = lastLine r := by
  rw [lastLine, if_pos h]

theorem lastLine_feed (r : List Char) : lastLine ('\n' :: r) = lastLine r := by
  by_cases h : '\n' ∈ r
  · exact lastLine_cons_of_mem h
  · rw [lastLine, if_neg h, if_pos rfl, lastLine_of_not_mem h]

/-- Nothing is cut off after a character that is not blank. -/
theorem trimEnd_append_cons (cs : List Char) {c : Char} (h : isBlank c = false) (r : List Char) :
    trimEnd (cs ++ c :: r) = cs ++ c :: trimEnd r := by
  unfold trimEnd
  rw [List.reverse_append, List.reverse_cons, List.append_assoc, List.dropWhile_append]
  cases hr : r.reverse.dropWhile isBlank with
  | nil => simp [h]
  | cons d rest => simp

end Text

open Text

namespace LineColumn

/-- The walk to the start of a character passes over all that stands before it. -/
theorem walk_start (here : LineColumn) (before : List Char) (c : Char) (after : List Char) :
    here.walk (before ++ c :: after) (byteLength before) =
      ⟨here.line + before.count '\n',
        if '\n' ∈ before then (lastLine before).length + 1 else here.column + before.length⟩ := by
  induction before generalizing here with
  | nil =>
    have hpos : ¬ c.utf8Size ≤ 0 := Nat.not_le.mpr c.utf8Size_pos
    simp [walk, hpos]
  | cons d before ih =>
    rw [List.cons_append, byteLength_cons, walk, if_pos (Nat.le_add_right _ _),
      Nat.add_sub_cancel_left, ih]
    by_cases hd : d = '\n'
    · subst hd
      simp only [↓reduceIte, List.count_cons_self, List.mem_cons_self, lastLine_feed]
      by_cases hmem : '\n' ∈ before
      · rw [if_pos hmem]
        congr 1
        omega
      · rw [if_neg hmem, lastLine_of_not_mem hmem]
        congr 1 <;> omega
    · rw [if_neg hd, List.count_cons_of_ne hd]
      by_cases hmem : '\n' ∈ before
      · rw [if_pos hmem, if_pos (List.mem_cons_of_mem d hmem), lastLine_cons_of_mem hmem]
      · have hcons : '\n' ∉ d :: before := by simp [Ne.symm hd, hmem]
        rw [if_neg hmem, if_neg hcons, List.length_cons, Nat.add_assoc, Nat.add_comm 1]

theorem ofOffset_start {source : String} {before after : List Char} {c : Char}
    (hsource : source.toList = before ++ c :: after) :
    ofOffset source (byteLength before) =
      ⟨before.count '\n' + 1, (lastLine before).length + 1⟩ := by
  rw [ofOffset, hsource, walk_start]
  by_cases h : '\n' ∈ before
  · rw [if_pos h, Nat.add_comm 1]
  · rw [if_neg h, lastLine_of_not_mem h, Nat.add_comm 1, Nat.add_comm 1]

end LineColumn

namespace Snippet

/-- The first line of a text. -/
theorem lines_eq_cons {cs : List Char} (h : cs ≠ []) : ∃ rest, lines cs = lineRest cs :: rest := by
  induction cs using lines.induct with
  | case1 => exact absurd rfl h
  | case2 r ih => exact ⟨lines r, rfl⟩
  | case3 r ih => exact ⟨lines r, rfl⟩
  | case4 c hfeed d r line rest hreturn hr ih =>
    obtain ⟨rest', hline⟩ := ih (List.cons_ne_nil d r)
    obtain ⟨rfl, -⟩ := List.cons.inj (hr.symm.trans hline)
    refine ⟨rest, ?_⟩
    rw [lines.eq_4 c d r _ rest hfeed hreturn hr, lineRest.eq_4 c _ hfeed hreturn]
  | case5 c r hfeed hreturn hr ih =>
    cases r with
    | nil =>
      refine ⟨[], ?_⟩
      rw [lines.eq_5 c [] hfeed hreturn hr, lineRest.eq_4 c _ hfeed hreturn]
      rfl
    | cons d r =>
      obtain ⟨rest, hline⟩ := ih (List.cons_ne_nil d r)
      exact (hr d r _ rest rfl hline).elim

/-- A character that ends no line stands first in the line of what follows it. -/
theorem lines_cons {c : Char} {r line : List Char} {rest : List (List Char)} (hfeed : c ≠ '\n')
    (hreturn : c = '\r' → r.head? ≠ some '\n') (hr : lines r = line :: rest) :
    lines (c :: r) = (c :: line) :: rest := by
  cases r with
  | nil => simp [lines] at hr
  | cons d r =>
    apply lines.eq_4 c d r line rest hfeed
    · rintro r' rfl hd
      exact hreturn rfl (by rw [hd]; rfl)
    · exact hr

/-- The line of a character that ends no line has what stands before it and after it there. -/
theorem lines_of_start (before : List Char) {c : Char} (after : List Char) (hfeed : c ≠ '\n')
    (hreturn : c ≠ '\r') :
    (lines (before ++ c :: after))[before.count '\n']? =
      some (lastLine before ++ c :: lineRest after) := by
  have hstep : ∀ (d : Char) (before : List Char), d ≠ '\n' →
      (d = '\r' → before.head? ≠ some '\n') →
      (lines (before ++ c :: after))[before.count '\n']? =
        some (lastLine before ++ c :: lineRest after) →
      (lines (d :: before ++ c :: after))[(d :: before).count '\n']? =
        some (lastLine (d :: before) ++ c :: lineRest after) := by
    intro d before hd hr ih
    have hhead : d = '\r' → (before ++ c :: after).head? ≠ some '\n' := by
      intro hd
      cases before with
      | nil => simpa using hfeed
      | cons e before => exact hr hd
    obtain ⟨rest, hlines⟩ := @lines_eq_cons (before ++ c :: after) (by simp)
    rw [hlines] at ih
    rw [List.cons_append, lines_cons hd hhead hlines, List.count_cons_of_ne hd]
    by_cases hmem : '\n' ∈ before
    · obtain ⟨n, hn⟩ : ∃ n, before.count '\n' = n + 1 :=
        Nat.exists_eq_add_one.mpr (List.count_pos_iff.mpr hmem)
      rw [hn] at ih ⊢
      rw [lastLine_cons_of_mem hmem]
      exact ih
    · have hcons : '\n' ∉ d :: before := by simp [Ne.symm hd, hmem]
      rw [List.count_eq_zero.mpr hmem] at ih ⊢
      rw [lastLine_of_not_mem hmem] at ih
      rw [lastLine_of_not_mem hcons, List.cons_append]
      exact congrArg (fun line => some (d :: line)) (Option.some.inj ih)
  induction before using lines.induct with
  | case1 =>
    obtain ⟨rest, hlines⟩ := lines_eq_cons (List.cons_ne_nil c after)
    rw [List.nil_append, hlines, lineRest.eq_4 c after hfeed fun r h _ => hreturn h]
    rfl
  | case2 before ih =>
    rw [List.count_cons_self, lastLine_feed]
    exact ih
  | case3 before ih =>
    rw [List.count_cons_of_ne (by decide), List.count_cons_self,
      lastLine_cons_of_mem List.mem_cons_self, lastLine_feed]
    exact ih
  | case4 d hd e before line rest hr _ ih =>
    exact hstep d (e :: before) hd (fun h he => hr before h (by simpa using he)) ih
  | case5 d before hd hr _ ih =>
    refine hstep d before hd (fun h he => ?_) ih
    obtain ⟨r, rfl⟩ := List.head?_eq_some_iff.mp he
    exact hr r h rfl

def ellipsis (isCut : Bool) : List Char :=
  if isCut then "...".toList else []

/-- What is shown of a line, with dots where it is cut, has its character number `i` above the
caret. -/
def Marks (line : List Char) (i : Nat) (shown : List Char) (caret : Nat) : Prop :=
  ∃ start stop, start ≤ i ∧ i < stop ∧ stop ≤ line.length ∧
    shown = ellipsis (0 < start) ++ (line.drop start).take (stop - start) ++
      ellipsis (stop < line.length) ∧
    caret = (ellipsis (0 < start)).length + (i - start)

theorem Marks.getElem? {full shown : List Char} {i caret : Nat} (h : Marks full i shown caret) :
    shown[caret]? = full[i]? := by
  obtain ⟨start, stop, hstart, hstop, hlength, rfl, rfl⟩ := h
  have hmiddle : i - start < ((full.drop start).take (stop - start)).length := by
    rw [List.length_take, List.length_drop]
    omega
  rw [List.append_assoc, List.getElem?_append_right (Nat.le_add_right _ _),
    Nat.add_sub_cancel_left, List.getElem?_append_left hmiddle, List.getElem?_take_of_lt (by omega),
    List.getElem?_drop, Nat.add_sub_cancel' hstart]

/-- A line is cut around any of its characters so that the caret stands below it. -/
theorem marks_window {line : List Char} {i : Nat} (h : i < line.length) :
    Marks line i (window line i).1 (window line i).2 := by
  unfold window
  by_cases hlong : line.length ≤ maxLineLength
  · rw [if_pos hlong]
    refine ⟨0, line.length, by omega, h, by omega, ?_, ?_⟩ <;> simp [ellipsis]
  · rw [if_neg hlong]
    refine ⟨min (i - contextLength) line.length, min (i + contextLength) line.length, ?_, ?_, ?_,
      ?_, ?_⟩
    · omega
    · have : 0 < contextLength := by decide
      omega
    · omega
    · simp only [ellipsis, decide_eq_true_eq]
    · simp only [ellipsis, decide_eq_true_eq]
      omega

def drawn (s : Snippet) (line column : Nat) (shown : List Char) (caret : Nat) : List Char :=
  let number := toString (line + s.lineOffset)
  let gutter := spaces number.length
  "error: ".toList ++ s.message.toList ++ "\n".toList ++
  gutter ++ "--> ".toList ++ s.filename.toList ++ ":".toList ++ number.toList ++ ":".toList ++
    (toString column).toList ++ "\n".toList ++
  gutter ++ " |\n".toList ++
  number.toList ++ " | ".toList ++ shown ++ "\n".toList ++
  gutter ++ " | ".toList ++ spaces caret ++ "^".toList ++
    trimEnd (' ' :: (s.note.getD "").toList) ++ "\n".toList ++
  (s.help.elim [] fun help => "help: ".toList ++ help.toList ++ "\n".toList)

theorem expandTabs_append (a b : List Char) :
    expandTabs (a ++ b) = expandTabs a ++ expandTabs b :=
  List.flatMap_append

theorem length_expandTabs (line : List Char) :
    (expandTabs line).length = line.length + 3 * line.count '\t' := by
  induction line with
  | nil => rfl
  | cons c line ih =>
    rw [← List.singleton_append, expandTabs_append, List.length_append, ih, List.length_append,
      List.count_append]
    by_cases hc : c = '\t'
    · subst hc
      simp only [expandTabs, spaces, List.flatMap_singleton, ↓reduceIte, List.length_replicate,
        List.length_singleton, List.count_singleton_self]
      omega
    · simp only [expandTabs, List.flatMap_singleton, List.length_singleton, List.count_singleton,
        beq_iff_eq, if_neg hc]
      omega

/-- What stands for a character begins where what stands before it ends. -/
theorem getElem?_expandTabs (a : List Char) (c : Char) (b : List Char) :
    (expandTabs (a ++ c :: b))[(expandTabs a).length]? = some (if c = '\t' then ' ' else c) := by
  rw [expandTabs_append, List.getElem?_append_right (Nat.le_refl _), Nat.sub_self]
  by_cases hc : c = '\t'
  · subst hc
    rfl
  · simp [expandTabs, hc]

/-- The text shows the line of a character with the caret at the character's column. -/
theorem text_eq_drawn (s : Snippet) {before after : List Char} {c : Char}
    (hsource : s.source.toList = before ++ c :: after)
    (hposition : s.position = byteLength before) (hfeed : c ≠ '\n') (hreturn : c ≠ '\r') :
    s.text.toList =
      let cut := window (expandTabs (lastLine before ++ c :: lineRest after))
        (lastLine before).length
      s.drawn (before.count '\n' + 1) ((lastLine before).length + 1) cut.1 cut.2 := by
  have hplace : LineColumn.ofOffset s.source s.position =
      ⟨before.count '\n' + 1, (lastLine before).length + 1⟩ := by
    rw [hposition]
    exact LineColumn.ofOffset_start hsource
  have hline := lines_of_start before after hfeed hreturn
  rw [← hsource] at hline
  have hpointer : ∀ gutter caret, trimEnd (gutter ++ " | ".toList ++ spaces caret ++ "^ ".toList ++
      (s.note.getD "").toList) = gutter ++ " | ".toList ++ spaces caret ++ "^".toList ++
        trimEnd (' ' :: (s.note.getD "").toList) := by
    intro gutter caret
    have h := trimEnd_append_cons (gutter ++ " | ".toList ++ spaces caret) (c := '^') (by decide)
      (' ' :: (s.note.getD "").toList)
    simpa using h
  unfold text drawn
  simp only [hplace, Nat.add_sub_cancel, hline, excerpt, hpointer, String.toList_ofList]
  cases s.help <;> simp

/-- The caret stands below character number `(lastLine before).length` of the shown line. That is where
the display of the character at the position begins, except that it begins three characters later for
each tab before it in its line. -/
theorem text_marks (s : Snippet) {before after : List Char} {c : Char}
    (hsource : s.source.toList = before ++ c :: after)
    (hposition : s.position = byteLength before) (hfeed : c ≠ '\n') (hreturn : c ≠ '\r') :
    ∃ shown caret,
      s.text.toList =
        s.drawn (before.count '\n' + 1) ((lastLine before).length + 1) shown caret ∧
      Marks (expandTabs (lastLine before ++ c :: lineRest after)) (lastLine before).length
        shown caret ∧
      (expandTabs (lastLine before)).length =
        (lastLine before).length + 3 * (lastLine before).count '\t' ∧
      ('\t' ∉ lastLine before →
        Marks (expandTabs (lastLine before ++ c :: lineRest after))
          (expandTabs (lastLine before)).length shown caret ∧
        shown[caret]? = some (if c = '\t' then ' ' else c)) := by
  have hlength := length_expandTabs (lastLine before)
  have hlt : (lastLine before).length <
      (expandTabs (lastLine before ++ c :: lineRest after)).length := by
    rw [length_expandTabs, List.length_append, List.length_cons]
    omega
  have hmarks := marks_window hlt
  refine ⟨_, _, s.text_eq_drawn hsource hposition hfeed hreturn, hmarks, hlength, fun htab => ?_⟩
  have hsame : (expandTabs (lastLine before)).length = (lastLine before).length := by
    rw [hlength, List.count_eq_zero.mpr htab]
    rfl
  rw [hsame]
  refine ⟨hmarks, ?_⟩
  rw [hmarks.getElem?, ← hsame]
  exact getElem?_expandTabs _ c _

/-- A tab late in a line that is too long to be shown whole, after lines that end in both ways. -/
theorem text_marks_cut : ∃ (s : Snippet) (before : List Char),
    before = "a\r\nb\n".toList ++ List.replicate 90 'é' ∧
    s.source.toList = before ++ '\t' :: "x".toList ∧ s.position = 185 ∧
    maxLineLength < (expandTabs (lastLine before)).length ∧
    ∃ shown caret, s.text.toList = s.drawn 3 91 shown caret ∧ shown[caret]? = some ' ' := by
  let before := "a\r\nb\n".toList ++ List.replicate 90 'é'
  let s : Snippet := ⟨"m", String.ofList (before ++ '\t' :: "x".toList), 185, "input", 0, none, none⟩
  have hsource : s.source.toList = before ++ '\t' :: "x".toList := String.toList_ofList
  have hline : before.count '\n' + 1 = 3 ∧ (lastLine before).length + 1 = 91 ∧
      maxLineLength < (expandTabs (lastLine before)).length ∧ '\t' ∉ lastLine before ∧
      185 = byteLength before := by decide +kernel
  obtain ⟨hcount, hcolumn, hlong, htab, hposition⟩ := hline
  obtain ⟨shown, caret, htext, -, -, hcaret⟩ :=
    text_marks s hsource hposition (by decide) (by decide)
  rw [hcount, hcolumn] at htext
  exact ⟨s, before, rfl, hsource, rfl, hlong, shown, caret, htext, (hcaret htab).2⟩

/-- A caret below the second of the four spaces that stand for a tab, not below what follows the
tab. -/
theorem text_misses_after_tab :
    ∃ s : Snippet, s.source = "\tx" ∧ s.source.toList = ['\t'] ++ 'x' :: [] ∧
      s.position = byteLength ['\t'] ∧
      s.text = "error: m\n --> input:1:2\n  |\n1 |     x\n  |  ^\n" ∧
      s.text.toList = s.drawn 1 2 "    x".toList 1 ∧ "    x".toList[1]? ≠ some 'x' := by
  refine ⟨{ message := "m", source := "\tx", position := 1 }, rfl, rfl, rfl, ?_, ?_, by decide⟩
  · decide +kernel
  · decide +kernel

end Snippet

end Quasiquote
