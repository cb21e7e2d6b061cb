import Mathlib.Tactic.SplitIfs
import Quasiquote.Token.Literal
import Quasiquote.Token.Quote

namespace Quasiquote.Literal

variable {q c : Char} {rest : List Char}

theorem hexValue_upperHexDigits {n : Nat} (h : n < 0x20) :
    let digits := ['0', '0', upperHexDigit (n / 16), upperHexDigit (n % 16)]
    digits.all isHexDigit = true ∧ hexValue digits = n := by
  revert n
  decide

theorem fixedHex?_control (h : c.toNat < 0x20) (rest : List Char) :
    fixedHex? 4 ('0' :: '0' :: upperHexDigit (c.toNat / 16) :: upperHexDigit (c.toNat % 16) :: rest)
      = some c := by
  obtain ⟨hdigits, hvalue⟩ := hexValue_upperHexDigits h
  have hvalid : c.toNat.isValidChar := c.valid
  simp [fixedHex?, charOfCode?, hdigits, hvalue, hvalid, Char.ofNat_toNat]

theorem readEscape_control (h : c.toNat < 0x20) (rest : List Char) :
    readEscape ('u' :: '0' :: '0' :: upperHexDigit (c.toNat / 16) ::
      upperHexDigit (c.toNat % 16) :: rest) = .ok (some c, 5) := by
  simp [readEscape, fixedHex?_control h]

/-- A character is written as an escape that reads as that character, or it stands for itself. -/
theorem quoteChar_cases (hq : q = '"' ∨ q = '\'') (c : Char) :
    (∃ escape, quoteChar q c = '\\' :: escape ∧
      ∀ rest, readEscape (escape ++ rest) = .ok (some c, escape.length)) ∨
    quoteChar q c = [c] ∧ c ≠ '\\' ∧ c ≠ '\n' ∧ c ≠ q := by
  unfold quoteChar
  split_ifs with hslash hfeed hreturn htab hquote hcontrol
  · exact .inl ⟨['\\'], rfl, fun rest => by simp [readEscape, hslash]⟩
  · exact .inl ⟨['n'], rfl, fun rest => by simp [readEscape, hfeed]⟩
  · exact .inl ⟨['r'], rfl, fun rest => by simp [readEscape, hreturn]⟩
  · exact .inl ⟨['t'], rfl, fun rest => by simp [readEscape, htab]⟩
  · refine .inl ⟨[c], rfl, fun rest => ?_⟩
    rcases hq with rfl | rfl <;> simp [readEscape, hquote]
  · exact .inl ⟨_, rfl, fun rest => readEscape_control hcontrol rest⟩
  · exact .inr ⟨rfl, hslash, hfeed, hquote⟩

theorem readString_quoteChar (hq : q = '"' ∨ q = '\'') (start offset : Nat) (c : Char)
    (rest : List Char) :
    readString q start offset (quoteChar q c ++ rest) = (do
      let (value, n) ← readString q start (offset + Text.byteLength (quoteChar q c)) rest
      return (c :: value, (quoteChar q c).length + n)) := by
  have hne : '\\' ≠ q := by rcases hq with rfl | rfl <;> decide
  rcases quoteChar_cases hq c with ⟨escape, hwrite, hread⟩ | ⟨hwrite, hslash, hfeed, hquote⟩
  · have hsize : '\\'.utf8Size = 1 := rfl
    rw [hwrite, List.cons_append, readString]
    simp [hne, hread, hsize, Nat.add_assoc, Nat.add_left_comm 1]
  · rw [hwrite, List.singleton_append, readString]
    simp [hslash, hfeed, hquote]

/-- A literal is read back to its value, up to its closing quote. -/
theorem readString_quote (hq : q = '"' ∨ q = '\'') (value : List Char) (start offset : Nat)
    (rest : List Char) :
    readString q start offset (value.flatMap (quoteChar q) ++ q :: rest) =
      .ok (value, (value.flatMap (quoteChar q)).length + 1) := by
  induction value generalizing offset with
  | nil =>
    have hne : q ≠ '\n' := by rcases hq with rfl | rfl <;> decide
    rw [List.flatMap_nil, List.nil_append, readString]
    simp [hne]
  | cons c value ih =>
    rw [List.flatMap_cons, List.append_assoc, readString_quoteChar hq, ih, List.length_append,
      Nat.add_assoc]
    rfl

end Quasiquote.Literal
