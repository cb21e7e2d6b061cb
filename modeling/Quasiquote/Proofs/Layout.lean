import Quasiquote.Proofs.Lexing

namespace Quasiquote

theorem Text.byteLength_toList (s : String) : byteLength s.toList = s.utf8ByteSize := by
  have hlist : ∀ cs : List Char, byteLength cs = (String.ofList cs).utf8ByteSize := by
    intro cs
    induction cs with
    | nil => rfl
    | cons c cs ih =>
      rw [byteLength_cons, ih, String.ofList_cons, String.utf8ByteSize_append,
        String.utf8ByteSize_singleton]
  rw [hlist, String.ofList_toList]

namespace Token

structure Placed (before gap rest : List Char) (t : Token) : Prop where
  kind : t.kind ≠ .eof
  text : t.text ≠ ""
  skipped : Gap gap (t.text.toList ++ rest)
  start : t.start = Text.byteLength (before ++ gap)
  stop : t.stop = Text.byteLength (before ++ gap ++ t.text.toList)
  newline : t.newlineBefore = true ↔ '\n' ∈ gap

def written (pieces : List (List Char × Token)) : List Char :=
  pieces.flatMap fun p => p.1 ++ p.2.text.toList

theorem written_cons (gap : List Char) (t : Token) (pieces : List (List Char × Token)) :
    written ((gap, t) :: pieces) = gap ++ t.text.toList ++ written pieces := rfl

def LaidOut (before : List Char) (pieces : List (List Char × Token)) (after : List Char) : Prop :=
  ∀ front gap t back, pieces = front ++ (gap, t) :: back →
    Placed (before ++ written front) gap (written back ++ after) t

theorem laidOut_nil (before after : List Char) : LaidOut before [] after := by
  intro front gap t back h
  simp at h

theorem LaidOut.cons {before gap after : List Char} {t : Token} {pieces : List (List Char × Token)}
    (ht : Placed before gap (written pieces ++ after) t)
    (h : LaidOut (before ++ gap ++ t.text.toList) pieces after) :
    LaidOut before ((gap, t) :: pieces) after := by
  intro front gap' t' back heq
  cases front with
  | nil =>
    obtain ⟨hpiece, rfl⟩ := List.cons.inj heq
    obtain ⟨rfl, rfl⟩ := Prod.mk.inj hpiece
    simpa [written] using ht
  | cons piece front =>
    obtain ⟨rfl, rfl⟩ := List.cons.inj heq
    have hplaced := h front gap' t' back rfl
    rwa [List.append_assoc, List.append_assoc, ← List.append_assoc gap, ← written_cons] at hplaced

/-- A lexeme that is read after a gap is a token in its place. -/
theorem placed_ofLexeme {depths : List Nat} {before gap r : List Char} {c : Char} {l : Lexeme}
    (hl : scanLexeme depths (Text.byteLength (before ++ gap)) c r = .ok l) (hg : Gap gap (c :: r)) :
    Placed before gap (r.drop (l.size - 1))
      (ofLexeme l (gap.contains '\n') (Text.byteLength (before ++ gap)) (c :: r)) := by
  have hspells := scanLexeme_spells hl
  have htext : (ofLexeme l (gap.contains '\n') (Text.byteLength (before ++ gap)) (c :: r)).text.toList
      = (c :: r).take l.size := String.toList_ofList
  refine ⟨?_, ?_, ?_, rfl, ?_, ?_⟩
  · change l.kind ≠ .eof
    cases hspells with
    | word hk | number hk | string hk | template hk | punct hk => simp [hk]
  · intro hempty
    have hsize := hspells.size_pos
    rw [hempty, String.toList_empty, eq_comm, List.take_eq_nil_iff] at htext
    simp [hsize.ne'] at htext
  · rwa [htext, ← hspells.split]
  · rw [htext]
    exact (Text.byteLength_append _ _).symm
  · simp [ofLexeme]

/-- What is left of a source, after a gap that has been skipped already, is taken apart into tokens
and gaps. -/
theorem scanFrom_laidOut {depths : List Nat} {newline : Bool} {before gap cs : List Char}
    {tokens : List Token}
    (h : scanFrom depths newline (Text.byteLength (before ++ gap)) cs = .ok tokens)
    (hg : Gap gap cs) (hfeed : newline = gap.contains '\n') :
    ∃ pieces last, tokens = pieces.map Prod.snd ++ [eofAt (Text.byteLength (before ++ gap ++ cs))] ∧
      gap ++ cs = written pieces ++ last ∧ Gap last [] ∧ LaidOut before pieces last := by
  induction hn : cs.length using Nat.strong_induction_on
    generalizing before gap cs depths newline tokens with
  | _ n ih =>
  subst hn hfeed
  cases cs with
  | nil =>
    rw [scanFrom] at h
    split at h <;> cases h
    refine ⟨[], gap, ?_, ?_, hg, laidOut_nil before gap⟩
    · simp
    · simp [written]
  | cons c r =>
    obtain ⟨n, feed, ht, hrest⟩ | ⟨l, rest, hl, hrest, rfl⟩ := scanFrom_cons_ok h
    · -- a piece that is skipped makes the gap longer
      obtain ⟨htrivia, hfeed⟩ := scanTrivia_eq_some ht
      have hsplit : c :: r = (c :: r.take n) ++ r.drop n := by simp
      have hless : (r.drop n).length < (c :: r).length := by
        simp only [List.length_drop, List.length_cons]
        omega
      rw [← Text.byteLength_append, List.append_assoc] at hrest
      rw [hsplit] at hg
      obtain ⟨pieces, last, htokens, htext, hlast, hlaid⟩ :=
        ih _ hless hrest (hg.snoc htrivia) (by simp [hfeed]) rfl
      refine ⟨pieces, last, ?_, ?_, hlast, hlaid⟩
      · rw [htokens, ← List.append_assoc before, List.append_assoc _ (c :: _), ← hsplit]
      · rw [← htext, List.append_assoc, ← hsplit]
    · -- a token ends the gap, and the next one begins empty
      have hplaced := placed_ofLexeme hl hg
      have hsplit := (scanLexeme_spells hl).split
      have hless : (r.drop (l.size - 1)).length < (c :: r).length := by
        simp only [List.length_drop, List.length_cons]
        omega
      generalize ht : ofLexeme l _ _ (c :: r) = t at hrest hplaced
      have htext : t.text.toList = (c :: r).take l.size := by
        rw [← ht]
        exact String.toList_ofList
      rw [← htext] at hsplit
      rw [hplaced.stop, ← List.append_nil (before ++ gap ++ t.text.toList)] at hrest
      obtain ⟨pieces, last, rfl, hwritten, hlast, hlaid⟩ := ih _ hless hrest .nil rfl rfl
      rw [List.nil_append] at hwritten
      rw [hwritten] at hplaced
      refine ⟨(gap, t) :: pieces, last, ?_, ?_, hlast, hlaid.cons hplaced⟩
      · rw [hsplit]
        simp
      · rw [written_cons, hsplit, hwritten]
        simp

/-- Tokens and gaps make up a source, and each token tells where it stands in it: it is not empty, its
text begins and ends at its bytes, white space and comments are before it, and it knows of a line feed
among them. The end mark comes last and stands at the end. -/
theorem scan_loses_nothing {source : String} {tokens : List Token} (h : scan source = .ok tokens) :
    ∃ pieces last, tokens = pieces.map Prod.snd ++ [eofAt source.utf8ByteSize] ∧
      source.toList = written pieces ++ last ∧ Gap last [] ∧
      ∀ front gap t back, pieces = front ++ (gap, t) :: back →
        t.kind ≠ .eof ∧ t.text ≠ "" ∧ Gap gap (t.text.toList ++ written back ++ last) ∧
        t.start = Text.byteLength (written front ++ gap) ∧
        t.stop = Text.byteLength (written front ++ gap ++ t.text.toList) ∧
        (t.newlineBefore = true ↔ '\n' ∈ gap) := by
  obtain ⟨pieces, last, htokens, htext, hlast, hlaid⟩ :=
    @scanFrom_laidOut [] false [] [] source.toList tokens h .nil rfl
  refine ⟨pieces, last, ?_, htext, hlast, fun front gap t back heq => ?_⟩
  · rw [htokens, ← Text.byteLength_toList]
    rfl
  · obtain ⟨hkind, hne, hgap, hstart, hstop, hnewline⟩ := hlaid front gap t back heq
    rw [← List.append_assoc] at hgap
    exact ⟨hkind, hne, hgap, hstart, hstop, hnewline⟩

/-- A line feed in a comment, and a comment that goes up to the end. -/
theorem scan_loses_nothing_comments :
    ∃ tokens, scan "é/*\n*/`a$\x7b b\x7d` //c" = .ok tokens ∧
      tokens.map Token.start = [0, 7, 12, 13, 19] ∧
      tokens.map Token.newlineBefore = [false, true, false, false, true] ∧
      ∃ pieces last, tokens = pieces.map Prod.snd ++ [eofAt 19] ∧
        "é/*\n*/`a$\x7b b\x7d` //c".toList = written pieces ++ last ∧ Gap last [] := by
  have hcheck : ((scan "é/*\n*/`a$\x7b b\x7d` //c").toOption.any fun tokens =>
      tokens.map Token.start = [0, 7, 12, 13, 19] &&
      tokens.map Token.newlineBefore = [false, true, false, false, true]) = true := by
    decide +kernel
  cases h : scan "é/*\n*/`a$\x7b b\x7d` //c" with
  | error e => simp [h, Except.toOption] at hcheck
  | ok tokens =>
    rw [h] at hcheck
    simp only [Except.toOption, Option.any_some, Bool.and_eq_true, decide_eq_true_eq] at hcheck
    obtain ⟨pieces, last, htokens, htext, hlast, -⟩ := scan_loses_nothing h
    exact ⟨tokens, rfl, hcheck.1, hcheck.2, pieces, last, htokens, htext, hlast⟩

end Token

end Quasiquote
