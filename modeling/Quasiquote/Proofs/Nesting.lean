import Quasiquote.Proofs.Lexing

namespace Quasiquote

namespace TokenKind

def isPiece : TokenKind → Bool
  | .template .head | .template .middle | .template .tail => true
  | _ => false

def isBrace : TokenKind → Bool
  | .punct .braceOpen | .punct .braceClose => true
  | _ => false

mutual

inductive Balanced : List TokenKind → Prop
  | nil : Balanced []
  | single {k : TokenKind} {ks : List TokenKind} (hp : k.isPiece = false) (hb : k.isBrace = false)
    (h : Balanced ks) : Balanced (k :: ks)
  | braces {inner ks : List TokenKind} (hi : Balanced inner) (h : Balanced ks) :
    Balanced (.punct .braceOpen :: inner ++ .punct .braceClose :: ks)
  | template {spans ks : List TokenKind} (hs : Spans spans) (h : Balanced ks) :
    Balanced (.template .head :: spans ++ ks)

/-- What follows the head of a template up to its tail: balanced tokens after each piece. -/
inductive Spans : List TokenKind → Prop
  | tail {inner : List TokenKind} (hi : Balanced inner) : Spans (inner ++ [.template .tail])
  | middle {inner spans : List TokenKind} (hi : Balanced inner) (hs : Spans spans) :
    Spans (inner ++ .template .middle :: spans)

end

/-- Tokens among which each template is complete. Outside of templates braces may stand alone. -/
inductive Nested : List TokenKind → Prop
  | nil : Nested []
  | single {k : TokenKind} {ks : List TokenKind} (hp : k.isPiece = false) (h : Nested ks) :
    Nested (k :: ks)
  | template {spans ks : List TokenKind} (hs : Spans spans) (h : Nested ks) :
    Nested (.template .head :: spans ++ ks)

theorem Balanced.append {ks ls : List TokenKind} :
    Balanced ks → Balanced ls → Balanced (ks ++ ls)
  | .nil, hl => hl
  | .single hp hb h, hl => .single hp hb (h.append hl)
  | .braces hi h, hl => by
    rw [List.append_assoc]
    exact .braces hi (h.append hl)
  | .template hs h, hl => by
    rw [List.append_assoc]
    exact .template hs (h.append hl)

theorem Nested.append {ks ls : List TokenKind} : Nested ks → Nested ls → Nested (ks ++ ls)
  | .nil, hl => hl
  | .single hp h, hl => .single hp (h.append hl)
  | .template hs h, hl => by
    rw [List.append_assoc]
    exact .template hs (h.append hl)

theorem Balanced.nested {ks : List TokenKind} : Balanced ks → Nested ks
  | .nil => .nil
  | .single hp _ h => .single hp h.nested
  | .braces hi h => .single rfl (hi.nested.append (.single rfl h.nested))
  | .template hs h => .template hs h.nested

/-- What may follow when some substitutions are open, with a number of braces open in each, the
innermost first: the braces are closed, then the template, then the next one. -/
inductive Closing : List Nat → List TokenKind → Prop
  | outside {ks : List TokenKind} (h : Nested ks) : Closing [] ks
  | brace {depth : Nat} {outer : List Nat} {inner ks : List TokenKind} (hi : Balanced inner)
    (h : Closing (depth :: outer) ks) :
    Closing ((depth + 1) :: outer) (inner ++ .punct .braceClose :: ks)
  | middle {outer : List Nat} {inner ks : List TokenKind} (hi : Balanced inner)
    (h : Closing (0 :: outer) ks) : Closing (0 :: outer) (inner ++ .template .middle :: ks)
  | tail {outer : List Nat} {inner ks : List TokenKind} (hi : Balanced inner)
    (h : Closing outer ks) : Closing (0 :: outer) (inner ++ .template .tail :: ks)

namespace Closing

variable {depths outer : List Nat} {depth : Nat} {ks ls : List TokenKind}

/-- Balanced tokens in front change nothing. -/
theorem of_balanced (h : Closing depths ks) (hl : Balanced ls) : Closing depths (ls ++ ks) := by
  cases h with
  | outside h => exact .outside (hl.nested.append h)
  | brace hi h =>
    rw [← List.append_assoc]
    exact .brace (hl.append hi) h
  | middle hi h =>
    rw [← List.append_assoc]
    exact .middle (hl.append hi) h
  | tail hi h =>
    rw [← List.append_assoc]
    exact .tail (hl.append hi) h

theorem of_single (h : Closing depths ks) {k : TokenKind} (hp : k.isPiece = false)
    (hb : k.isBrace = false) : Closing depths (k :: ks) :=
  h.of_balanced (.single hp hb .nil)

theorem of_braceOpen (h : Closing ((depth + 1) :: outer) ks) :
    Closing (depth :: outer) (.punct .braceOpen :: ks) := by
  cases h with
  | @brace _ _ inner ks hi h =>
    have hblock : Balanced (.punct .braceOpen :: inner ++ [.punct .braceClose]) := .braces hi .nil
    have hclosing := h.of_balanced hblock
    rwa [List.append_assoc, List.singleton_append] at hclosing

/-- The tokens up to the tail of the innermost open template, and what closes the others. -/
theorem exists_spans (h : Closing (0 :: outer) ks) :
    ∃ spans rest, ks = spans ++ rest ∧ Spans spans ∧ Closing outer rest := by
  generalize hd : 0 :: outer = depths at h
  induction h with
  | outside => cases hd
  | brace => cases hd
  | @middle _ inner ks hi h ih =>
    cases hd
    obtain ⟨spans, rest, rfl, hs, hrest⟩ := ih rfl
    exact ⟨inner ++ .template .middle :: spans, rest, by simp, .middle hi hs, hrest⟩
  | @tail _ inner ks hi h =>
    cases hd
    exact ⟨inner ++ [.template .tail], ks, by simp, .tail hi, h⟩

theorem of_head (h : Closing (0 :: depths) ks) : Closing depths (.template .head :: ks) := by
  obtain ⟨spans, rest, rfl, hs, hrest⟩ := h.exists_spans
  have htemplate : Balanced (.template .head :: spans ++ []) := .template hs .nil
  rw [List.append_nil] at htemplate
  exact hrest.of_balanced htemplate

end Closing

end TokenKind

/-- An operator that is found at the front of a text begins with its first character. -/
theorem Punct.head_of_ofText? {p : Punct} {c : Char} {r : List Char}
    (h : Punct.ofText? (c :: r) = some p) : p.text.toList.head? = some c := by
  have hfound : p.text.toList.isPrefixOf (c :: r) = true :=
    List.find?_some (p := fun p : Punct => p.text.toList.isPrefixOf (c :: r)) h
  obtain ⟨d, s, htext, -⟩ := p.text_eq_cons
  rw [htext, List.isPrefixOf_iff_prefix, List.cons_prefix_cons] at hfound
  rw [htext, List.head?_cons, hfound.1]

namespace Token

open TokenKind

variable {depths : List Nat} {offset : Nat} {c : Char} {r : List Char} {l : Lexeme}
  {ks : List TokenKind}

theorem scanPunct_closing (h : scanPunct depths offset c r = .ok l) (hk : Closing l.depths ks) :
    Closing depths (l.kind :: ks) := by
  unfold scanPunct at h
  split at h
  · cases h
  · next p hp =>
    clear hp
    dsimp only at h
    split at h
    · cases h
      exact hk.of_braceOpen
    · cases h
    · cases h
      exact .brace .nil hk
    · next hopen hclose hclose' =>
      cases h
      by_cases hbrace : (TokenKind.punct p).isBrace = true
      · -- a brace outside of every template is not counted
        cases depths with
        | nil =>
          cases hk with
          | outside hn => exact .outside (.single rfl hn)
        | cons depth outer =>
          cases p with
          | braceOpen => exact absurd rfl (hopen depth outer rfl)
          | braceClose =>
            cases depth with
            | zero => exact absurd rfl (hclose outer rfl)
            | succ depth => exact absurd rfl (hclose' depth outer rfl)
          | _ => simp [isBrace] at hbrace
      · exact hk.of_single rfl (by simpa using hbrace)

/-- Each token takes the scanner from what may follow it to what may follow before it. -/
theorem scanLexeme_closing (h : scanLexeme depths offset c r = .ok l) (hk : Closing l.depths ks) :
    Closing depths (l.kind :: ks) := by
  unfold scanLexeme at h
  split at h
  · cases h
    exact hk.of_single rfl rfl
  split at h
  · cases h
    exact hk.of_single rfl rfl
  split at h
  · cases hread : Literal.readString c offset (offset + 1) r with
    | error e => simp [hread, bind, Except.bind] at h
    | ok p =>
      simp only [hread, bind, Except.bind, pure, Except.pure] at h
      cases h
      exact hk.of_single rfl rfl
  split at h
  · cases hread : Literal.readTemplate (offset + 1) (offset + 1) r with
    | error e => simp [hread, bind, Except.bind] at h
    | ok p =>
      simp only [hread, bind, Except.bind, pure, Except.pure] at h
      split at h
      · cases h
        exact hk.of_head
      · cases h
        exact hk.of_single rfl rfl
  split at h
  · next hclose =>
    simp only [Bool.and_eq_true, decide_eq_true_eq] at hclose
    obtain ⟨outer, rfl⟩ := List.head?_eq_some_iff.mp hclose.2
    cases hread : Literal.readTemplate (offset + 1) (offset + 1) r with
    | error e => simp [hread, bind, Except.bind] at h
    | ok p =>
      simp only [hread, bind, Except.bind, pure, Except.pure] at h
      split at h
      · cases h
        exact .middle .nil hk
      · cases h
        exact .tail .nil hk
  · exact scanPunct_closing h hk

theorem scanFrom_closing {newline : Bool} {cs : List Char} {tokens : List Token}
    (h : scanFrom depths newline offset cs = .ok tokens) :
    Closing depths (tokens.map Token.kind) := by
  induction hn : cs.length using Nat.strong_induction_on
    generalizing cs depths newline offset tokens with
  | _ n ih =>
  subst hn
  cases cs with
  | nil =>
    rw [scanFrom] at h
    split at h
    · next hempty =>
      cases h
      rw [List.isEmpty_iff.mp hempty]
      exact .outside (.single rfl .nil)
    · cases h
  | cons c r =>
    obtain ⟨n, feed, -, hrest⟩ | ⟨l, rest, hl, hrest, rfl⟩ := scanFrom_cons_ok h
    · exact ih _ (by simp only [List.length_drop, List.length_cons]; omega) hrest rfl
    · refine scanLexeme_closing hl ?_
      exact ih _ (by simp only [List.length_drop, List.length_cons]; omega) hrest rfl

end Token

namespace Literal

variable {quote : Char} {start offset : Nat} {cs : List Char} {e : LexError}

theorem readString_kind (h : readString quote start offset cs = .error e) :
    e.kind ≠ .unbalancedBraces := by
  fun_induction readString quote start offset cs with
  | case1 | case2 | case4 =>
    cases h
    simp
  | case3 => cases h
  | case5 _ _ _ _ _ _ _ ih | case6 _ _ _ _ _ _ ih =>
    obtain h | ⟨p, -, h⟩ := error_of_bind h
    · exact ih h
    · cases h

theorem readTemplate_kind (h : readTemplate start offset cs = .error e) :
    e.kind ≠ .unbalancedBraces := by
  fun_induction readTemplate start offset cs with
  | case1 | case4 =>
    cases h
    simp
  | case2 | case3 => cases h
  | case5 _ _ _ _ _ _ _ ih | case6 _ _ _ _ _ _ ih | case7 _ _ _ _ _ _ _ ih =>
    obtain h | ⟨p, -, h⟩ := error_of_bind h
    · exact ih h
    · cases h

end Literal

namespace Token

variable {depths : List Nat} {offset : Nat} {c : Char} {r : List Char} {e : LexError}

/-- Only a closing brace where no brace is open is unbalanced. -/
theorem scanPunct_kind (h : scanPunct depths offset c r = .error e)
    (hguard : ¬(c = '}' ∧ depths.head? = some 0)) : e.kind ≠ .unbalancedBraces := by
  unfold scanPunct at h
  split at h
  · cases h
    simp
  · next p hp =>
    dsimp only at h
    split at h <;> cases h
    have hc := Punct.head_of_ofText? hp
    cases hc
    exact absurd ⟨rfl, rfl⟩ hguard

theorem scanLexeme_kind (h : scanLexeme depths offset c r = .error e) :
    e.kind ≠ .unbalancedBraces := by
  unfold scanLexeme at h
  split at h
  · cases h
  split at h
  · cases h
  split at h
  · obtain h | ⟨p, -, h⟩ := error_of_bind h
    · exact Literal.readString_kind h
    · cases h
  split at h
  · obtain h | ⟨⟨value, n, opens⟩, -, h⟩ := error_of_bind h
    · exact Literal.readTemplate_kind h
    · cases opens <;> cases h
  split at h
  · obtain h | ⟨⟨value, n, opens⟩, -, h⟩ := error_of_bind h
    · exact Literal.readTemplate_kind h
    · cases opens <;> cases h
  · next hguard => exact scanPunct_kind h (by simpa using hguard)

theorem scanTrivia_kind (h : scanTrivia offset c r = .error e) : e.kind ≠ .unbalancedBraces := by
  unfold scanTrivia at h
  split at h
  · cases h
  split at h
  · split at h <;> cases h
    simp
  · split at h <;> cases h

theorem scanFrom_kind {newline : Bool} {cs : List Char}
    (h : scanFrom depths newline offset cs = .error e) : e.kind ≠ .unbalancedBraces := by
  induction hn : cs.length using Nat.strong_induction_on generalizing cs depths newline offset with
  | _ n ih =>
  subst hn
  cases cs with
  | nil =>
    rw [scanFrom] at h
    split at h <;> cases h
    simp
  | cons c r =>
    rw [scanFrom] at h
    obtain h | ⟨trivia, -, h⟩ := error_of_bind h
    · exact scanTrivia_kind h
    cases trivia with
    | some p => exact ih _ (by simp only [List.length_drop, List.length_cons]; omega) h rfl
    | none =>
      obtain h | ⟨l, -, h⟩ := error_of_bind h
      · exact scanLexeme_kind h
      obtain h | ⟨rest, -, h⟩ := error_of_bind h
      · exact ih _ (by simp only [List.length_drop, List.length_cons]; omega) h rfl
      · cases h

/-- The tokens of a source are nested: the pieces of each template are a head, perhaps some middle
pieces and a tail, and between two of them braces are balanced and templates complete. A source that
has no tokens is not refused for its braces. -/
theorem scan_nested (source : String) :
    match scan source with
    | .ok tokens => TokenKind.Nested (tokens.map Token.kind)
    | .error e => e.kind ≠ .unbalancedBraces := by
  cases h : scan source with
  | ok tokens =>
    have hclosing := scanFrom_closing h
    cases hclosing with
    | outside hn => exact hn
  | error e => exact scanFrom_kind h

/-- A brace and a template with a brace of its own in a substitution. -/
example :
    (scan "\x7d`a$\x7b \x7b `$\x7b\x7b\x7d\x7d` \x7d \x7db`").toOption.map (·.map Token.kind) =
    some [.punct .braceClose, .template .head, .punct .braceOpen, .template .head,
      .punct .braceOpen, .punct .braceClose, .template .tail, .punct .braceClose, .template .tail,
      .eof] := by
  decide +kernel

end Token

end Quasiquote
