import Mathlib.Tactic.IntervalCases
import Mathlib.Tactic.Simps.Basic
import Quasiquote.Proofs.Quoting
import Quasiquote.Token.Scan

namespace Quasiquote

namespace Text

variable {c : Char}

theorem toNat_lt_of_isAlphanum (h : c.isAlphanum = true) : c.toNat < 128 := by
  rcases Bool.or_eq_true_iff.mp h with h | hdigit
  · rcases Bool.or_eq_true_iff.mp h with hupper | hlower
    · have hle : c.val ≤ 'Z'.val := (of_decide_eq_true hupper).2
      exact Nat.lt_of_le_of_lt (UInt32.le_iff_toNat_le.mp hle) (by decide)
    · have hle : c.val ≤ 'z'.val := of_decide_eq_true (Bool.and_eq_true_iff.mp hlower).2
      exact Nat.lt_of_le_of_lt (UInt32.le_iff_toNat_le.mp hle) (by decide)
  · exact Nat.lt_of_le_of_lt (Char.isDigit_iff_toNat.mp hdigit).2 (by decide)

theorem isAlphabetic_of_isAlpha (h : c.isAlpha = true) : isAlphabetic c = true := by
  rw [isAlphabetic, if_pos (toNat_lt_of_isAlphanum (by simp [Char.isAlphanum, h])), h]

theorem isNumeric_of_isDigit (h : c.isDigit = true) : isNumeric c = true := by
  rw [isNumeric, if_pos (toNat_lt_of_isAlphanum (by simp [Char.isAlphanum, h])), h]

end Text

namespace Token

variable {c : Char} {rest : List Char} {offset : Nat}

theorem not_startsWord_of_isBlank (h : Text.isBlank c = true) : startsWord c = false := by
  have hpoint : ∀ n : Nat, Text.blankRanges.any (fun r => r.1 ≤ n && n ≤ r.2) = true →
      startsWord (Char.ofNat n) = false := by
    intro n hn
    simp only [Text.blankRanges, List.any_cons, List.any_nil, Bool.or_eq_true, Bool.and_eq_true,
      decide_eq_true_eq, Bool.or_false] at hn
    rcases hn with hn | hn | hn | hn | hn | hn | hn | hn | hn | hn <;> obtain ⟨hlo, hhi⟩ := hn <;>
      interval_cases n <;> decide +kernel
  rw [← Char.ofNat_toNat c]
  exact hpoint c.toNat h

theorem not_startsWord_of_isDigit (h : c.isDigit = true) : startsWord c = false := by
  have hpoint : ∀ n : Nat, 48 ≤ n ∧ n ≤ 57 → startsWord (Char.ofNat n) = false := by
    rintro n ⟨hlo, hhi⟩
    interval_cases n <;> decide +kernel
  rw [← Char.ofNat_toNat c]
  exact hpoint c.toNat (Char.isDigit_iff_toNat.mp h)

theorem not_isBlank_of_isDigit (h : c.isDigit = true) : Text.isBlank c = false := by
  have hpoint : ∀ n : Nat, 48 ≤ n ∧ n ≤ 57 → Text.isBlank (Char.ofNat n) = false := by
    rintro n ⟨hlo, hhi⟩
    interval_cases n <;> decide +kernel
  rw [← Char.ofNat_toNat c]
  exact hpoint c.toNat (Char.isDigit_iff_toNat.mp h)

theorem not_isBlank_of_isAlphanum (h : c.isAlphanum = true) : Text.isBlank c = false := by
  simp only [Char.isAlphanum, Bool.or_eq_true] at h
  obtain halpha | hdigit := h
  · have hstart : startsWord c = true := by simp [startsWord, Text.isAlphabetic_of_isAlpha halpha]
    refine Bool.eq_false_iff.mpr fun hblank => ?_
    rw [not_startsWord_of_isBlank hblank] at hstart
    exact Bool.false_ne_true hstart
  · exact not_isBlank_of_isDigit hdigit

theorem scanTrivia_of_startsWord (h : startsWord c = true) (r : List Char) :
    scanTrivia offset c r = .ok none := by
  have hslash : c ≠ '/' := by
    rintro rfl
    exact absurd h (by decide)
  have hblank : Text.isBlank c = false := by
    refine Bool.eq_false_iff.mpr fun hb => ?_
    rw [not_startsWord_of_isBlank hb] at h
    exact Bool.false_ne_true h
  simp [scanTrivia, hslash, hblank]

/-- One token, and what the scanner finds after it. -/
theorem scanFrom_lexeme (newline : Bool) {depths depths' : List Nat} {text : List Char}
    {value : Option (List Char)} {kind : TokenKind} {single : Bool}
    (htrivia : scanTrivia offset c (text ++ rest) = .ok none)
    (hlexeme : scanLexeme depths offset c (text ++ rest) =
      .ok ⟨kind, text.length + 1, value, single, depths'⟩) :
    scanFrom depths newline offset (c :: text ++ rest) =
      (scanFrom depths' false (offset + Text.byteLength (c :: text)) rest).map
        (⟨kind, String.ofList (c :: text), String.ofList (value.getD (c :: text)), offset,
          offset + Text.byteLength (c :: text), newline, single⟩ :: ·) := by
  have htake : (c :: (text ++ rest)).take (text.length + 1) = c :: text := by simp
  have hdrop : (text ++ rest).drop (text.length + 1 - 1) = rest := by simp
  rw [List.cons_append, scanFrom, htrivia]
  simp only [bind, Except.bind, hlexeme, ofLexeme, htake, hdrop]
  rcases scanFrom depths' false (offset + Text.byteLength (c :: text)) rest with e | ts <;> rfl

end Token

/-- The longest operator at the front of `p` and `rest` is `p`, and it begins no number and no
comment. -/
def Punct.Ends (p : Punct) (rest : List Char) : Prop :=
  Punct.ofText? (p.text.toList ++ rest) = some p ∧
    (p = .dot → ∀ c ∈ rest.head?, c.isDigit = false) ∧
    (p = .slash → ∀ c ∈ rest.head?, c ≠ '/' ∧ c ≠ '*')

theorem Punct.text_eq_cons (p : Punct) : ∃ c r, p.text.toList = c :: r ∧
    Token.startsWord c = false ∧ c.isDigit = false ∧ c ≠ '"' ∧ c ≠ '\'' ∧ c ≠ '`' ∧
    Text.isBlank c = false ∧ (c = '.' → p = .dot ∧ r = [] ∨ r.head? = some '.') ∧
    (c = '/' → p = .slash ∧ r = []) := by
  cases p <;> exact ⟨_, _, rfl, by decide, by decide⟩

theorem Token.scanPunct_of_ofText? {p : Punct} {c : Char} {r : List Char} {offset : Nat}
    (h : Punct.ofText? (c :: r) = some p) :
    scanPunct [] offset c r = .ok { kind := .punct p, size := p.text.length, depths := [] } := by
  rw [scanPunct, h]
  cases p <;> rfl

namespace Token

@[simps] def word (text : String) (start stop : Nat) : Token :=
  ⟨.word, text, text, start, stop, false, false⟩

@[simps] def number (digits : String) (start stop : Nat) : Token :=
  ⟨.number, digits, digits, start, stop, false, false⟩

@[simps] def string (value : String) (single : Bool) (start stop : Nat) : Token :=
  ⟨.string, String.ofList (Literal.quote value.toList (if single then '\'' else '"')), value, start,
    stop, false, single⟩

@[simps] def punct (p : Punct) (start stop : Nat) : Token :=
  ⟨.punct p, p.text, p.text, start, stop, false, false⟩

end Token

inductive Token.Joined (mark : Punct) : List (List Token) → List Token → Prop
  | nil : Joined mark [] []
  | single (ts : List Token) : Joined mark [ts] ts
  | cons (ts : List Token) {t : Token} {us : List Token} {tss : List (List Token)}
    {vs : List Token} (ht : t.kind = .punct mark) (h : Joined mark (us :: tss) vs) :
    Joined mark (ts :: us :: tss) (ts ++ t :: vs)

inductive Piece
  | word (text : String)
  | number (digits : String)
  | string (value : String) (single : Bool)
  | punct (p : Punct)
  | blank

namespace Piece

def chars : Piece → List Char
  | word text => text.toList
  | number digits => digits.toList
  | string value single => Literal.quote value.toList (if single then '\'' else '"')
  | punct p => p.text.toList
  | blank => [' ']

def IsWord (text : String) : Prop :=
  ∃ c r, text.toList = c :: r ∧ Token.startsWord c = true ∧ ∀ d ∈ r, Token.continuesWord d = true

def IsNumber (text : String) : Prop :=
  ∃ c r, text.toList = c :: r ∧ ∀ d ∈ c :: r, d.isDigit = true

def Ends : Piece → List Char → Prop
  | word text, rest => IsWord text ∧ ∀ c ∈ rest.head?, Token.continuesWord c = false
  | number digits, rest =>
    IsNumber digits ∧ ∀ c ∈ rest.head?, Token.continuesWord c = false ∧ c ≠ '.'
  | string _ _, _ => True
  | punct p, rest => p.Ends rest
  | blank, _ => True

inductive Spelled : List Piece → List Token → Prop
  | nil : Spelled [] []
  | blank {ps : List Piece} {ts : List Token} (h : Spelled ps ts) : Spelled (.blank :: ps) ts
  | word {ps : List Piece} {ts : List Token} (text : String) (start stop : Nat)
      (h : Spelled ps ts) : Spelled (.word text :: ps) (.word text start stop :: ts)
  | number {ps : List Piece} {ts : List Token} (digits : String) (start stop : Nat)
      (h : Spelled ps ts) : Spelled (.number digits :: ps) (.number digits start stop :: ts)
  | string {ps : List Piece} {ts : List Token} (value : String) (single : Bool)
      (start stop : Nat) (h : Spelled ps ts) :
      Spelled (.string value single :: ps) (.string value single start stop :: ts)
  | punct {ps : List Piece} {ts : List Token} (p : Punct) (start stop : Nat) (h : Spelled ps ts) :
      Spelled (.punct p :: ps) (.punct p start stop :: ts)

def allChars (ps : List Piece) : List Char :=
  ps.flatMap chars

def Spaced : List Piece → List Char → Prop
  | [], _ => True
  | p :: ps, rest => p.Ends (allChars ps ++ rest) ∧ Spaced ps rest

def commas (pss : List (List Piece)) : List Piece :=
  [.punct .comma, .blank].intercalate pss

def tokenCount : List Piece → Nat
  | [] => 0
  | .blank :: ps => tokenCount ps
  | _ :: ps => tokenCount ps + 1

@[simp] theorem allChars_nil : allChars [] = [] := rfl

@[simp] theorem allChars_cons (p : Piece) (ps : List Piece) :
    allChars (p :: ps) = p.chars ++ allChars ps := rfl

@[simp] theorem allChars_append (ps qs : List Piece) :
    allChars (ps ++ qs) = allChars ps ++ allChars qs :=
  List.flatMap_append

theorem spaced_append_iff (ps qs : List Piece) (rest : List Char) :
    Spaced (ps ++ qs) rest ↔ Spaced ps (allChars qs ++ rest) ∧ Spaced qs rest := by
  induction ps with
  | nil => simp [Spaced]
  | cons p ps ih => simp only [List.cons_append, Spaced, ih, allChars_append, List.append_assoc,
      and_assoc]

@[simp] theorem tokenCount_append (ps qs : List Piece) :
    tokenCount (ps ++ qs) = tokenCount ps + tokenCount qs := by
  induction ps with
  | nil => simp [tokenCount]
  | cons p ps ih => cases p <;> simp [tokenCount, ih, Nat.add_right_comm]

theorem Spelled.length_eq {ps : List Piece} {ts : List Token} (h : Spelled ps ts) :
    ts.length = tokenCount ps := by
  induction h with
  | nil => rfl
  | blank h ih => exact ih
  | word | number | string | punct => simpa [tokenCount]

theorem Spelled.of_blank {ps : List Piece} {ts : List Token} (h : Spelled (.blank :: ps) ts) :
    Spelled ps ts := by
  cases h with
  | blank h => exact h

theorem Spelled.exists_of_word {ps : List Piece} {ts : List Token} {text : String}
    (h : Spelled (.word text :: ps) ts) :
    ∃ start stop us, ts = .word text start stop :: us ∧ Spelled ps us := by
  cases h with
  | word text start stop h => exact ⟨start, stop, _, rfl, h⟩

theorem Spelled.exists_of_number {ps : List Piece} {ts : List Token} {digits : String}
    (h : Spelled (.number digits :: ps) ts) :
    ∃ start stop us, ts = .number digits start stop :: us ∧ Spelled ps us := by
  cases h with
  | number digits start stop h => exact ⟨start, stop, _, rfl, h⟩

theorem Spelled.exists_of_string {ps : List Piece} {ts : List Token} {value : String}
    {single : Bool} (h : Spelled (.string value single :: ps) ts) :
    ∃ start stop us, ts = .string value single start stop :: us ∧ Spelled ps us := by
  cases h with
  | string value single start stop h => exact ⟨start, stop, _, rfl, h⟩

theorem Spelled.exists_of_punct {ps : List Piece} {ts : List Token} {p : Punct}
    (h : Spelled (.punct p :: ps) ts) :
    ∃ start stop us, ts = .punct p start stop :: us ∧ Spelled ps us := by
  cases h with
  | punct p start stop h => exact ⟨start, stop, _, rfl, h⟩

theorem Spelled.eq_nil {ts : List Token} (h : Spelled [] ts) : ts = [] := by
  cases h
  rfl

theorem Spelled.exists_of_append {ps qs : List Piece} {ts : List Token}
    (h : Spelled (ps ++ qs) ts) :
    ∃ us vs, ts = us ++ vs ∧ Spelled ps us ∧ Spelled qs vs := by
  induction ps generalizing ts with
  | nil => exact ⟨[], ts, rfl, .nil, h⟩
  | cons p ps ih =>
    cases h with
    | blank h =>
      obtain ⟨us, vs, rfl, hus, hvs⟩ := ih h
      exact ⟨us, vs, rfl, .blank hus, hvs⟩
    | word text start stop h =>
      obtain ⟨us, vs, rfl, hus, hvs⟩ := ih h
      exact ⟨_ :: us, vs, rfl, .word text start stop hus, hvs⟩
    | number digits start stop h =>
      obtain ⟨us, vs, rfl, hus, hvs⟩ := ih h
      exact ⟨_ :: us, vs, rfl, .number digits start stop hus, hvs⟩
    | string value single start stop h =>
      obtain ⟨us, vs, rfl, hus, hvs⟩ := ih h
      exact ⟨_ :: us, vs, rfl, .string value single start stop hus, hvs⟩
    | punct p start stop h =>
      obtain ⟨us, vs, rfl, hus, hvs⟩ := ih h
      exact ⟨_ :: us, vs, rfl, .punct p start stop hus, hvs⟩

/-- Tokens of pieces with a separator between them, which is read as the one token `mark`. -/
theorem Spelled.exists_joined {sep : List Piece} {mark : Punct} {pss : List (List Piece)}
    {ts : List Token} (hsep : ∀ us, Spelled sep us → ∃ start stop, us = [.punct mark start stop])
    (h : Spelled (sep.intercalate pss) ts) :
    ∃ tss, List.Forall₂ Spelled pss tss ∧ Token.Joined mark tss ts := by
  induction pss generalizing ts with
  | nil =>
    obtain rfl := h.eq_nil
    exact ⟨[], .nil, .nil⟩
  | cons ps pss ih =>
    cases pss with
    | nil =>
      rw [List.intercalate_singleton] at h
      exact ⟨[ts], .cons h .nil, .single ts⟩
    | cons qs pss =>
      rw [List.intercalate_cons_cons, List.append_assoc] at h
      obtain ⟨us, _, rfl, hus, hrest⟩ := h.exists_of_append
      obtain ⟨vs, ws, rfl, hvs, hws⟩ := hrest.exists_of_append
      obtain ⟨start, stop, rfl⟩ := hsep vs hvs
      obtain ⟨tss, htss, hjoined⟩ := ih hws
      obtain _ | ⟨hfirst, htss⟩ := htss
      exact ⟨_, .cons hus (.cons hfirst htss), .cons us (Token.punct_kind ..) hjoined⟩

theorem Spelled.exists_joined_commas {pss : List (List Piece)} {ts : List Token}
    (h : Spelled (commas pss) ts) :
    ∃ tss, List.Forall₂ Spelled pss tss ∧ Token.Joined .comma tss ts := by
  refine h.exists_joined fun us hus => ?_
  obtain ⟨start, stop, vs, rfl, hvs⟩ := hus.exists_of_punct
  obtain rfl := hvs.of_blank.eq_nil
  exact ⟨start, stop, rfl⟩

section

variable {sep : String} {sp : List Piece} {ss : List String} {pss : List (List Piece)}

theorem toList_intercalate (hsep : sep.toList = allChars sp)
    (h : List.Forall₂ (fun s ps => s.toList = allChars ps) ss pss) :
    (sep.intercalate ss).toList = allChars (sp.intercalate pss) := by
  rw [String.toList_intercalate]
  induction h with
  | nil => rfl
  | @cons s ps ss pss hs hss ih =>
    cases hss with
    | nil => simp [hs]
    | cons hs' hss' =>
      simp only [List.map_cons, List.intercalate_cons_cons, allChars_append] at ih ⊢
      rw [ih, hs, hsep]

/-- Pieces before `D` are spaced, and so are many of them with a separator between two. -/
theorem spaced_intercalate {D : List Char → Prop} (hsep : ∀ rest, Spaced sp rest)
    (hD : ∀ rest, D (allChars sp ++ rest)) (h : ∀ ps ∈ pss, ∀ rest, D rest → Spaced ps rest)
    {rest : List Char} (hrest : D rest) : Spaced (sp.intercalate pss) rest := by
  induction pss with
  | nil => exact trivial
  | cons ps pss ih =>
    obtain ⟨hps, hpss⟩ := List.forall_mem_cons.mp h
    cases pss with
    | nil =>
      rw [List.intercalate_singleton]
      exact hps rest hrest
    | cons qs pss =>
      rw [List.intercalate_cons_cons, List.append_assoc, spaced_append_iff, spaced_append_iff,
        allChars_append, List.append_assoc]
      exact ⟨hps _ (hD _), hsep _, ih hpss⟩

end

theorem Spelled.exists_of_closed {ps : List Piece} {p : Punct} {ts : List Token}
    (h : Spelled (ps ++ [.punct p]) ts) :
    ∃ us start stop, ts = us ++ [.punct p start stop] ∧ Spelled ps us := by
  obtain ⟨us, vs, rfl, hus, hvs⟩ := h.exists_of_append
  obtain ⟨start, stop, ws, rfl, hws⟩ := hvs.exists_of_punct
  obtain rfl := hws.eq_nil
  exact ⟨us, start, stop, rfl, hus⟩

end Piece

namespace Token

variable {rest : List Char} {offset : Nat}

theorem takeWhile_word {c : Char} {r : List Char} (hc : startsWord c = true)
    (hr : ∀ d ∈ r, continuesWord d = true) (hrest : ∀ d ∈ rest.head?, continuesWord d = false) :
    (c :: (r ++ rest)).takeWhile continuesWord = c :: r := by
  have hall : ∀ d ∈ c :: r, continuesWord d = true := by
    refine List.forall_mem_cons.mpr ⟨?_, hr⟩
    simp only [startsWord, Bool.or_eq_true] at hc
    simp only [continuesWord, Bool.or_eq_true]
    exact .inl hc
  have hnone : rest.takeWhile continuesWord = [] := by
    cases rest with
    | nil => rfl
    | cons d rest => simp [hrest d rfl]
  rw [← List.cons_append, List.takeWhile_append_of_pos hall, hnone, List.append_nil]

theorem scanFrom_word {depths : List Nat} {text : String} (h : Piece.IsWord text)
    (hrest : ∀ c ∈ rest.head?, continuesWord c = false) :
    scanFrom depths false offset (text.toList ++ rest) =
      (scanFrom depths false (offset + Text.byteLength text.toList) rest).map
        (word text offset (offset + Text.byteLength text.toList) :: ·) := by
  obtain ⟨c, r, htext, hc, hr⟩ := h
  have hlexeme : scanLexeme depths offset c (r ++ rest) =
      .ok ⟨.word, r.length + 1, none, false, depths⟩ := by
    rw [scanLexeme, if_pos hc, takeWhile_word hc hr hrest, List.length_cons]
  have hscan := scanFrom_lexeme false (scanTrivia_of_startsWord hc _) hlexeme
  rwa [← htext, Option.getD_none, String.ofList_toList] at hscan

theorem continuesWord_of_isDigitOrGap {c : Char} (h : Literal.isDigitOrGap c = true) :
    continuesWord c = true := by
  simp only [Literal.isDigitOrGap, Bool.or_eq_true, decide_eq_true_eq] at h
  rcases h with h | rfl
  · simp [continuesWord, Text.isNumeric_of_isDigit h]
  · decide

/-- A number of decimal digits has no mark of another base, no fraction and no exponent. -/
theorem numberLength_digits {digits : List Char} (hdigits : ∀ d ∈ digits, d.isDigit = true)
    (hrest : ∀ c ∈ rest.head?, continuesWord c = false ∧ c ≠ '.') :
    Literal.numberLength (digits ++ rest) = digits.length := by
  have hne (c : Char) (hc : continuesWord c = true) : rest.head? ≠ some c := by
    intro hhead
    rw [(hrest c hhead).1] at hc
    exact Bool.false_ne_true hc
  have hwhole : (digits ++ rest).takeWhile Literal.isDigitOrGap = digits := by
    have hall : ∀ d ∈ digits, Literal.isDigitOrGap d = true := fun d hd => by
      simp [Literal.isDigitOrGap, hdigits d hd]
    have hnone : rest.takeWhile Literal.isDigitOrGap = [] := by
      cases rest with
      | nil => rfl
      | cons c r =>
        have hc : ¬Literal.isDigitOrGap c = true := fun hc =>
          hne c (continuesWord_of_isDigitOrGap hc) rfl
        simp [hc]
    rw [List.takeWhile_append_of_pos hall, hnone, List.append_nil]
  have hbase (x : Char) (hx : continuesWord x = true) (hx' : x.isDigit = false) :
      ['0', x].isPrefixOf (digits ++ rest) = false := by
    refine Bool.eq_false_iff.mpr fun hprefix => ?_
    obtain ⟨r, hr⟩ := List.isPrefixOf_iff_prefix.mp hprefix
    match digits, hr with
    | [], hr => exact hne '0' (by decide) (by rw [← List.nil_append rest, ← hr]; rfl)
    | [d], hr => exact hne x hx (by simpa using (congrArg (·.tail.head?) hr).symm)
    | d :: d' :: ds, hr =>
      obtain rfl : x = d' := by simpa using congrArg (·.tail.head?) hr
      rw [hdigits x (by simp)] at hx'
      exact Bool.false_ne_true hx'.symm
  have hexponent : Literal.exponentLength rest = 0 := by
    cases rest with
    | nil => rfl
    | cons c r =>
      have hsmall : c ≠ 'e' := fun h => hne 'e' (by decide) (by simp [h])
      have hlarge : c ≠ 'E' := fun h => hne 'E' (by decide) (by simp [h])
      simp [Literal.exponentLength, hsmall, hlarge]
  have hpoint (r : List Char) : rest ≠ '.' :: r := by
    rintro rfl
    exact (hrest '.' rfl).2 rfl
  have hbig := hne 'n' (by decide)
  have hsmall : "0x".toList.isPrefixOf (digits ++ rest) = false := hbase 'x' (by decide) (by decide)
  have hlarge : "0X".toList.isPrefixOf (digits ++ rest) = false := hbase 'X' (by decide) (by decide)
  rw [Literal.numberLength, hsmall, hlarge, hwhole]
  simp [hexponent, hbig]

theorem scanFrom_number {digits : String} (h : Piece.IsNumber digits)
    (hrest : ∀ c ∈ rest.head?, continuesWord c = false ∧ c ≠ '.') :
    scanFrom [] false offset (digits.toList ++ rest) =
      (scanFrom [] false (offset + Text.byteLength digits.toList) rest).map
        (number digits offset (offset + Text.byteLength digits.toList) :: ·) := by
  obtain ⟨c, r, htext, hdigits⟩ := h
  have hc : c.isDigit = true := hdigits c (by simp)
  have hword : startsWord c = false := not_startsWord_of_isDigit hc
  have hlexeme : scanLexeme [] offset c (r ++ rest) =
      .ok ⟨.number, r.length + 1, none, false, []⟩ := by
    rw [scanLexeme, if_neg (by simp [hword]), if_pos (by simp [hc]), ← List.cons_append,
      numberLength_digits hdigits hrest, List.length_cons]
  have hslash : c ≠ '/' := by
    rintro rfl
    exact absurd hc (by decide)
  have htrivia : scanTrivia offset c (r ++ rest) = .ok none := by
    simp [scanTrivia, hslash, not_isBlank_of_isDigit hc]
  have hscan := scanFrom_lexeme false htrivia hlexeme
  rwa [← htext, Option.getD_none, String.ofList_toList] at hscan

/-- A literal is one token wherever it stands, and the scanner goes on behind its closing quote. -/
theorem scanFrom_quote {q : Char} (hq : q = '"' ∨ q = '\'') (value : List Char)
    (depths : List Nat) (newline : Bool) :
    scanFrom depths newline offset (Literal.quote value q ++ rest) =
      (scanFrom depths false (offset + Text.byteLength (Literal.quote value q)) rest).map
        (⟨.string, String.ofList (Literal.quote value q), String.ofList value, offset,
          offset + Text.byteLength (Literal.quote value q), newline, q = '\''⟩ :: ·) := by
  have hread := Literal.readString_quote hq value offset (offset + 1) rest
  have hlexeme : scanLexeme depths offset q
      ((value.flatMap (Literal.quoteChar q) ++ [q]) ++ rest) =
      .ok ⟨.string, (value.flatMap (Literal.quoteChar q) ++ [q]).length + 1, some value,
        q = '\'', depths⟩ := by
    have hword : startsWord q = false := by rcases hq with rfl | rfl <;> decide
    have hdigit : q.isDigit = false := by rcases hq with rfl | rfl <;> decide
    have hdot : q ≠ '.' := by rcases hq with rfl | rfl <;> decide
    rw [scanLexeme, if_neg (by simp [hword]), if_neg (by simp [hdigit, hdot]),
      if_pos (by simpa using hq), List.append_assoc, List.singleton_append, hread]
    simp
  have htrivia : scanTrivia offset q
      ((value.flatMap (Literal.quoteChar q) ++ [q]) ++ rest) = .ok none := by
    rcases hq with rfl | rfl <;> simp [scanTrivia, show Text.isBlank '"' = false by decide,
      show Text.isBlank '\'' = false by decide]
  exact scanFrom_lexeme newline htrivia hlexeme

theorem scanFrom_string (value : String) (single : Bool) :
    let literal := Literal.quote value.toList (if single then '\'' else '"')
    scanFrom [] false offset (literal ++ rest) =
      (scanFrom [] false (offset + Text.byteLength literal) rest).map
        (string value single offset (offset + Text.byteLength literal) :: ·) := by
  intro literal
  have hsingle : decide ((if single then '\'' else '"') = '\'') = single := by
    cases single <;> decide
  rw [scanFrom_quote (by cases single <;> decide), hsingle, String.ofList_toList]
  rfl

theorem scanFrom_punct {p : Punct} (h : p.Ends rest) :
    scanFrom [] false offset (p.text.toList ++ rest) =
      (scanFrom [] false (offset + Text.byteLength p.text.toList) rest).map
        (punct p offset (offset + Text.byteLength p.text.toList) :: ·) := by
  obtain ⟨hfind, hdot, hslash⟩ := h
  obtain ⟨c, r, htext, hword, hdigit, hdouble, hsingle, htick, hblank, hdot', hslash'⟩ :=
    p.text_eq_cons
  have hnumber : ¬(c.isDigit || (c = '.' && (r ++ rest).head?.any Char.isDigit)) = true := by
    simp only [hdigit, Bool.false_or, Bool.and_eq_true, decide_eq_true_eq, not_and]
    intro hc
    rcases hdot' hc with ⟨hp, rfl⟩ | hr
    · rw [List.nil_append, Option.any_eq_true]
      rintro ⟨d, hd, hdigit⟩
      rw [hdot hp d hd] at hdigit
      exact Bool.false_ne_true hdigit
    · rw [List.head?_append, hr, Option.some_or]
      decide
  have hsize : p.text.length = r.length + 1 := by
    rw [← String.length_toList, htext, List.length_cons]
  rw [htext, List.cons_append] at hfind
  have hlexeme : scanLexeme [] offset c (r ++ rest) =
      .ok ⟨.punct p, r.length + 1, none, false, []⟩ := by
    rw [scanLexeme, if_neg (by simp [hword]), if_neg hnumber, if_neg (by simp [hdouble, hsingle]),
      if_neg htick, if_neg (by simp), scanPunct_of_ofText? hfind, hsize]
  have hcomment : c = '/' → (r ++ rest).head? ≠ some '/' ∧ (r ++ rest).head? ≠ some '*' := by
    intro hc
    obtain ⟨hp, rfl⟩ := hslash' hc
    exact ⟨fun hd => (hslash hp '/' hd).1 rfl, fun hd => (hslash hp '*' hd).2 rfl⟩
  have htrivia : scanTrivia offset c (r ++ rest) = .ok none := by
    rw [scanTrivia, if_neg, if_neg, if_neg (by simp [hblank])]
    · simpa using fun hc => (hcomment hc).2
    · simpa using fun hc => (hcomment hc).1
  have hscan := scanFrom_lexeme false htrivia hlexeme
  rwa [← htext, Option.getD_none, String.ofList_toList] at hscan

theorem scanFrom_blank :
    scanFrom [] false offset (' ' :: rest) = scanFrom [] false (offset + 1) rest := by
  have htrivia : scanTrivia offset ' ' rest = .ok (some (0, false)) := by
    simp [scanTrivia, show Text.isBlank ' ' = true by decide]
  have hsize : Text.byteLength (' ' :: rest.take 0) = 1 := rfl
  rw [scanFrom, htrivia]
  simp only [bind, Except.bind, hsize, Bool.or_false, List.drop_zero]

open Piece in
/-- The scanner reads one token for each piece that is not a blank. -/
theorem scanFrom_allChars {ps : List Piece} (h : Spaced ps rest) (offset : Nat) :
    ∃ ts stop, Spelled ps ts ∧ scanFrom [] false offset (allChars ps ++ rest) =
      (scanFrom [] false stop rest).map (ts ++ ·) := by
  induction ps generalizing offset with
  | nil =>
    refine ⟨[], offset, .nil, ?_⟩
    rw [allChars_nil, List.nil_append]
    rcases scanFrom [] false offset rest with e | ts <;> rfl
  | cons p ps ih =>
    obtain ⟨hp, hps⟩ := h
    have hchars : allChars (p :: ps) ++ rest = p.chars ++ (allChars ps ++ rest) := by
      rw [allChars_cons, List.append_assoc]
    obtain ⟨ts, stop, hts, hscan⟩ := ih hps (offset + Text.byteLength p.chars)
    have hmap (t : Token) : ((scanFrom [] false stop rest).map (ts ++ ·)).map (t :: ·) =
        (scanFrom [] false stop rest).map (t :: ts ++ ·) := by
      rcases scanFrom [] false stop rest with e | us <;> rfl
    rw [hchars]
    cases p with
    | word text =>
      refine ⟨_, stop, .word text offset (offset + Text.byteLength text.toList) hts, ?_⟩
      rw [chars, scanFrom_word hp.1 hp.2, ← hmap, ← hscan, chars]
    | number digits =>
      refine ⟨_, stop, .number digits offset (offset + Text.byteLength digits.toList) hts, ?_⟩
      rw [chars, scanFrom_number hp.1 hp.2, ← hmap, ← hscan, chars]
    | string value single =>
      let literal := Literal.quote value.toList (if single then '\'' else '"')
      refine ⟨_, stop, .string value single offset (offset + Text.byteLength literal) hts, ?_⟩
      rw [chars, scanFrom_string, ← hmap, ← hscan, chars]
    | punct p =>
      refine ⟨_, stop, .punct p offset (offset + Text.byteLength p.text.toList) hts, ?_⟩
      rw [chars, scanFrom_punct hp, ← hmap, ← hscan, chars]
    | blank =>
      refine ⟨ts, stop, .blank hts, ?_⟩
      rw [← hscan]
      exact scanFrom_blank

open Piece in
theorem scan_allChars {ps : List Piece} (h : Spaced ps []) :
    ∃ ts stop, Spelled ps ts ∧
      scan (String.ofList (allChars ps)) = .ok (ts ++ [eofAt stop]) := by
  obtain ⟨ts, stop, hts, hscan⟩ := scanFrom_allChars h 0
  have hend : scanFrom [] false stop [] = .ok [eofAt stop] := by
    rw [scanFrom]
    rfl
  refine ⟨ts, stop, hts, ?_⟩
  rw [List.append_nil, hend] at hscan
  rw [scan, String.toList_ofList, hscan]
  rfl

end Token

end Quasiquote
