import Quasiquote.Proofs.Layout
import Quasiquote.Proofs.ParsedTree
import Quasiquote.Proofs.Progress.Module

namespace Quasiquote

namespace Text

/-- A byte at which a character of `cs`, which begin at byte `offset`, begins or the last one ends. -/
def IsPlace (offset : Nat) (cs : List Char) (position : Nat) : Prop :=
  ∃ before, before <+: cs ∧ position = offset + byteLength before

namespace IsPlace

variable {offset position : Nat} {cs : List Char}

theorem first (offset : Nat) (cs : List Char) : IsPlace offset cs offset :=
  ⟨[], List.nil_prefix, rfl⟩

theorem after {before : List Char} (h : IsPlace (offset + byteLength before) cs position) :
    IsPlace offset (before ++ cs) position := by
  obtain ⟨front, hfront, rfl⟩ := h
  refine ⟨before ++ front, List.prefix_append_right_inj before |>.mpr hfront, ?_⟩
  rw [byteLength_append, Nat.add_assoc]

theorem cons {c : Char} (h : IsPlace (offset + c.utf8Size) cs position) :
    IsPlace offset (c :: cs) position := by
  have hc : c.utf8Size = byteLength [c] := rfl
  rw [hc] at h
  exact h.after

theorem of_drop {n : Nat} (h : IsPlace (offset + byteLength (cs.take n)) (cs.drop n) position) :
    IsPlace offset cs position := by
  have hafter := h.after
  rwa [List.take_append_drop] at hafter

theorem isValid {source : String} (h : IsPlace 0 source.toList position) :
    String.Pos.Raw.IsValid source ⟨position⟩ := by
  obtain ⟨before, ⟨rest, hrest⟩, rfl⟩ := h
  refine String.Pos.Raw.isValid_iff_exists_append.mpr
    ⟨String.ofList before, String.ofList rest, ?_, ?_⟩
  · rw [← String.ofList_append, hrest, String.ofList_toList]
  · rw [Nat.zero_add, ← String.toList_ofList (l := before), byteLength_toList]
    simp [String.rawEndPos]

end IsPlace

end Text

open Text (IsPlace)

namespace Literal

variable {quote : Char} {start offset : Nat} {cs : List Char} {e : LexError}

theorem readString_error (h : readString quote start offset cs = .error e) :
    e.position = start ∨ IsPlace offset cs e.position := by
  fun_induction readString quote start offset cs with
  | case1 | case2 =>
    cases h
    exact .inl rfl
  | case3 => cases h
  | case4 =>
    cases h
    exact .inr (.first _ _)
  | case5 offset r char n _ _ _ ih =>
    obtain h | ⟨p, -, h⟩ := error_of_bind h
    · exact (ih h).imp_right fun hplace => hplace.of_drop.cons
    · cases h
  | case6 offset c r _ _ _ ih =>
    obtain h | ⟨p, -, h⟩ := error_of_bind h
    · exact (ih h).imp_right .cons
    · cases h

/-- A carriage return and the line feed after it are one byte each. -/
theorem byteLength_take_feed (r : List Char) :
    Text.byteLength (r.take (if r.head? = some '\n' then 1 else 0)) =
      if r.head? = some '\n' then 1 else 0 := by
  split
  · next h =>
    obtain ⟨s, rfl⟩ := List.head?_eq_some_iff.mp h
    rfl
  · rfl

theorem readTemplate_error (h : readTemplate start offset cs = .error e) :
    e.position = start ∨ IsPlace offset cs e.position := by
  fun_induction readTemplate start offset cs with
  | case1 =>
    cases h
    exact .inl rfl
  | case2 | case3 => cases h
  | case4 =>
    cases h
    exact .inr (.first _ _)
  | case5 offset r char n _ _ _ ih =>
    obtain h | ⟨p, -, h⟩ := error_of_bind h
    · exact (ih h).imp_right fun hplace => hplace.of_drop.cons
    · cases h
  | case6 offset r n _ _ _ ih =>
    obtain h | ⟨p, -, h⟩ := error_of_bind h
    · refine (ih h).imp_right fun hplace => .cons (.of_drop (n := n) ?_)
      have hfeed : Text.byteLength (r.take n) = n := byteLength_take_feed r
      rwa [hfeed]
    · cases h
  | case7 offset c r _ _ _ _ ih =>
    obtain h | ⟨p, -, h⟩ := error_of_bind h
    · exact (ih h).imp_right .cons
    · cases h

end Literal

namespace Token

variable {depths : List Nat} {offset : Nat} {c : Char} {r : List Char} {e : LexError}

theorem scanPunct_error (h : scanPunct depths offset c r = .error e) : e.position = offset := by
  unfold scanPunct at h
  split at h
  · cases h
    rfl
  · split at h <;> cases h
    rfl

theorem scanLexeme_error (h : scanLexeme depths offset c r = .error e) :
    IsPlace offset (c :: r) e.position := by
  -- quotes and braces are one byte long
  have htemplate : c.utf8Size = 1 → Literal.readTemplate (offset + 1) (offset + 1) r = .error e →
      IsPlace offset (c :: r) e.position := by
    intro hc hread
    refine .cons (hc ▸ ?_)
    obtain hstart | hplace := Literal.readTemplate_error hread
    · exact hstart ▸ .first _ _
    · exact hplace
  unfold scanLexeme at h
  split at h
  · cases h
  split at h
  · cases h
  split at h
  · next hquote =>
    obtain hread | ⟨p, -, h⟩ := error_of_bind h
    · obtain hstart | hplace := Literal.readString_error hread
      · exact hstart ▸ .first _ _
      · have hc : c.utf8Size = 1 := by
          simp only [Bool.or_eq_true, decide_eq_true_eq] at hquote
          rcases hquote with rfl | rfl <;> rfl
        exact .cons (hc ▸ hplace)
    · cases h
  split at h
  · next htick =>
    obtain hread | ⟨⟨value, n, opens⟩, -, h⟩ := error_of_bind h
    · exact htemplate (htick ▸ rfl) hread
    · cases opens <;> cases h
  split at h
  · next hbrace =>
    simp only [Bool.and_eq_true, decide_eq_true_eq] at hbrace
    obtain hread | ⟨⟨value, n, opens⟩, -, h⟩ := error_of_bind h
    · exact htemplate (hbrace.1 ▸ rfl) hread
    · cases opens <;> cases h
  · exact scanPunct_error h ▸ .first _ _

theorem scanTrivia_error (h : scanTrivia offset c r = .error e) : e.position = offset := by
  unfold scanTrivia at h
  split at h
  · cases h
  split at h
  · split at h <;> cases h
    rfl
  · split at h <;> cases h

theorem scanFrom_error {newline : Bool} {cs : List Char}
    (h : scanFrom depths newline offset cs = .error e) : IsPlace offset cs e.position := by
  induction hn : cs.length using Nat.strong_induction_on generalizing cs depths newline offset with
  | _ n ih =>
  subst hn
  cases cs with
  | nil =>
    rw [scanFrom] at h
    split at h <;> cases h
    exact .first _ _
  | cons c r =>
    rw [scanFrom] at h
    obtain h | ⟨trivia, -, h⟩ := error_of_bind h
    · exact scanTrivia_error h ▸ .first _ _
    cases trivia with
    | some p =>
      obtain ⟨n, feed⟩ := p
      have hless : (r.drop n).length < (c :: r).length := by
        simp only [List.length_drop, List.length_cons]
        omega
      have hplace := (ih _ hless h rfl).after
      rwa [List.cons_append, List.take_append_drop] at hplace
    | none =>
      obtain h | ⟨l, hl, h⟩ := error_of_bind h
      · exact scanLexeme_error h
      obtain h | ⟨rest, -, h⟩ := error_of_bind h
      · have hless : (r.drop (l.size - 1)).length < (c :: r).length := by
          simp only [List.length_drop, List.length_cons]
          omega
        have hplace := (ih _ hless h rfl).after
        rwa [← (scanLexeme_spells hl).split] at hplace
      · cases h

theorem Stands.isPlace {source : List Char} {t : Token} (h : Stands source t) :
    IsPlace 0 source t.start := by
  obtain ⟨before, rest, rfl, hread⟩ := h
  refine ⟨before, List.prefix_append before rest, ?_⟩
  rw [hread.place.1, Nat.zero_add]

/-- The end mark is there as long as a token is. -/
theorem ends_of_scan {source : String} {tokens : List Token} (h : scan source = .ok tokens)
    {c : Cursor} (hc : c.rest <:+ tokens) (hne : c.rest ≠ []) : c.Ends := by
  have hlast := getLast?_scanFrom h
  obtain ⟨front, hfront⟩ := hc
  rw [← hfront, List.getLast?_append_of_ne_nil _ hne] at hlast
  exact ⟨_, List.mem_of_getLast? hlast, rfl⟩

end Token

namespace Grammar

def repeated (g : Grammar) : List (Parser Node) :=
  [g.anyStatement, g.assignment, g.binary 0, g.unary, g.unionType, g.element, g.parameter,
    g.typeParameter, g.propertySignature, g.objectMember, g.variableDeclaration, importSpecifier,
    Prod.fst <$> g.templateSpan]

theorem Answers.repeated {g : Grammar} {n : Nat} {c : Cursor} (hg : g.Answers n) (hc : c.Ends)
    (hn : c.left < n) : ∀ p ∈ g.repeated, p.Advances c := by
  have hle := Nat.le_of_lt hn
  simp only [Grammar.repeated, List.forall_mem_cons]
  exact ⟨hg.anyStatement hc hle, hg.assignment hc hle, hg.binary hc hle, hg.unary hc hle,
    hg.unionType hc hle, hg.element hc hn, hg.parameter hc hle, hg.typeParameter hc hle,
    hg.propertySignature hc hle, hg.objectMember hc hle, hg.variableDeclaration hc hle,
    importSpecifier hc, (hg.templateSpan hc hn).map Prod.fst, nofun⟩

end Grammar

theorem moduleOfTokens_answers {source : String} {tokens : List Token}
    (h : Token.scan source = .ok tokens) {depth : Nat} (hdepth : tokens.length < depth) :
    (Grammar.toDepth depth).module.Tries ⟨0, tokens⟩ := by
  have hne : tokens ≠ [] := by
    rintro rfl
    exact absurd (Token.getLast?_scanFrom h) (by simp)
  have hends : Cursor.Ends ⟨0, tokens⟩ := Token.ends_of_scan h (List.suffix_refl _) hne
  exact (Grammar.answers_toDepth depth).module hends hdepth

theorem parse_error {source : String} {e : ParseError} (h : parse source = .error e) :
    IsPlace 0 source.toList e.position := by
  unfold parse at h
  split at h
  · next e' hscan =>
    cases h
    exact Token.scanFrom_error hscan
  · next tokens hscan =>
    have hanswers := moduleOfTokens_answers hscan (Nat.lt_succ_self _)
    unfold Parser.Tries Parser.Answers at hanswers
    unfold moduleOfTokens at h
    split at h
    · cases h
    · next e' hrejected =>
      cases h
      rw [hrejected] at hanswers
      obtain ⟨t, ht, hposition⟩ := hanswers
      exact hposition ▸ ((Token.scan_chain hscan).2 t ht).isPlace
    · next hstarved =>
      rw [hstarved] at hanswers
      exact hanswers.elim

/-- The parser comes to an end on every source. At each place among the tokens, the rules that may be
repeated pass a token or report one, at any depth that the tokens left do not reach; so does the rule
for all statements together. The answer is a module, or an error at a byte where a character begins or
the source ends. -/
theorem parse_answers (source : String) :
    (∀ tokens, Token.scan source = .ok tokens → ∀ depth,
      (∀ c : Cursor, c.rest <:+ tokens → c.rest ≠ [] → c.left < depth →
        ∀ p ∈ (Grammar.toDepth depth).repeated, p.Advances c) ∧
      (tokens.length < depth → (Grammar.toDepth depth).module ⟨0, tokens⟩ ≠ .starved)) ∧
    match parse source with
    | .ok tree => tree.kind = .sourceFile
    | .error e =>
      e.position ≤ source.utf8ByteSize ∧ String.Pos.Raw.IsValid source ⟨e.position⟩ := by
  refine ⟨fun tokens hscan depth => ⟨fun c hc hne hlt => ?_, fun hdepth hstarved => ?_⟩, ?_⟩
  · exact (Grammar.answers_toDepth depth).repeated (Token.ends_of_scan hscan hc hne) hlt
  · have hanswers := moduleOfTokens_answers hscan hdepth
    unfold Parser.Tries Parser.Answers at hanswers
    rwa [hstarved] at hanswers
  · cases h : parse source with
    | ok tree => exact (parse_allRead h).2
    | error e =>
      have hvalid := (parse_error h).isValid
      exact ⟨hvalid.le_rawEndPos, hvalid⟩

/-- A parenthesis that is not closed is reported after the last character, which is two bytes long. -/
theorem parse_answers_unclosed :
    ∃ tokens e, Token.scan "(é" = .ok tokens ∧ parse "(é" = .error e ∧ e.position = 3 ∧
      (Grammar.toDepth (tokens.length + 1)).module ⟨0, tokens⟩ ≠ .starved ∧
      String.Pos.Raw.IsValid "(é" ⟨3⟩ ∧ ¬String.Pos.Raw.IsValid "(é" ⟨2⟩ := by
  have hplace : (match parse "(é" with
      | .error e => e.position == 3
      | .ok _ => false) = true := by
    decide +kernel
  have hanswers := parse_answers "(é"
  cases hparse : parse "(é" with
  | ok tree => simp [hparse] at hplace
  | error e =>
    have he : e.position = 3 := by simpa [hparse] using hplace
    cases hscan : Token.scan "(é" with
    | error e' =>
      have hok : (Token.scan "(é").toOption.isSome = true := by decide +kernel
      simp [hscan, Except.toOption] at hok
    | ok tokens =>
      rw [hparse] at hanswers
      refine ⟨tokens, e, rfl, rfl, he, ?_, he ▸ hanswers.2.2, by decide⟩
      exact (hanswers.1 tokens hscan _).2 (Nat.lt_succ_self _)

end Quasiquote
