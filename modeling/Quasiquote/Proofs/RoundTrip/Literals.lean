import Quasiquote.Proofs.Layout
import Quasiquote.Proofs.RoundTrip.Pieces

namespace Quasiquote

theorem mapError_bind {ε ε' α β : Type} (g : ε → ε') (x : Except ε α) (f : α → Except ε β) :
    (x >>= f).mapError g = x.mapError g >>= fun a => (f a).mapError g := by
  cases x <;> rfl

def LexError.shift (k : Nat) (e : LexError) : LexError :=
  { e with position := e.position + k }

def Token.shift (k : Nat) (t : Token) : Token :=
  { t with start := t.start + k, stop := t.stop + k }

namespace Literal

variable {q : Char} {start offset : Nat}

theorem readString_shift (k : Nat) (cs : List Char) :
    readString q (start + k) (offset + k) cs =
      (readString q start offset cs).mapError (LexError.shift k) := by
  fun_induction readString q start offset cs with
  | case1 => rw [readString]; rfl
  | case2 => rw [readString, if_pos rfl]; rfl
  | case3 _ _ hfeed => rw [readString, if_neg hfeed, if_pos rfl]; rfl
  | case4 _ _ found hread hfeed hquote =>
    rw [readString, if_neg hfeed, if_neg hquote, if_pos rfl, hread]
    rfl
  | case5 _ r char n hread hfeed hquote ih =>
    rw [readString, if_neg hfeed, if_neg hquote, if_pos rfl, hread, mapError_bind, ← ih]
    simp only [Nat.add_right_comm _ k]
    rfl
  | case6 _ c r hfeed hquote hslash ih =>
    rw [readString, if_neg hfeed, if_neg hquote, if_neg hslash, mapError_bind, ← ih,
      Nat.add_right_comm]
    rfl

theorem readTemplate_shift (k : Nat) (cs : List Char) :
    readTemplate (start + k) (offset + k) cs =
      (readTemplate start offset cs).mapError (LexError.shift k) := by
  fun_induction readTemplate start offset cs with
  | case1 => rw [readTemplate]; rfl
  | case2 _ _ _ hopens => rw [readTemplate, if_pos hopens]; rfl
  | case3 _ _ hopens => rw [readTemplate, if_neg hopens, if_pos rfl]; rfl
  | case4 _ _ found hread hopens htick =>
    rw [readTemplate, if_neg hopens, if_neg htick, if_pos rfl, hread]
    rfl
  | case5 _ r char n hread hopens htick ih =>
    rw [readTemplate, if_neg hopens, if_neg htick, if_pos rfl, hread, mapError_bind, ← ih]
    simp only [Nat.add_right_comm _ k]
    rfl
  | case6 _ r n hopens htick hslash ih =>
    rw [readTemplate, if_neg hopens, if_neg htick, if_neg hslash, if_pos rfl, mapError_bind, ← ih]
    simp only [Nat.add_right_comm _ k]
    rfl
  | case7 _ c r hopens htick hslash hreturn ih =>
    rw [readTemplate, if_neg hopens, if_neg htick, if_neg hslash, if_neg hreturn, mapError_bind,
      ← ih, Nat.add_right_comm]
    rfl

end Literal

namespace Token

variable {depths : List Nat} {offset : Nat} {c : Char} {r : List Char}

theorem scanPunct_shift (k : Nat) :
    scanPunct depths (offset + k) c r =
      (scanPunct depths offset c r).mapError (LexError.shift k) := by
  unfold scanPunct
  cases Punct.ofText? (c :: r) with
  | none => rfl
  | some p =>
    dsimp only
    split <;> rfl

theorem scanLexeme_shift (k : Nat) :
    scanLexeme depths (offset + k) c r =
      (scanLexeme depths offset c r).mapError (LexError.shift k) := by
  unfold scanLexeme
  rw [Nat.add_right_comm offset k 1]
  split_ifs
  · rfl
  · rfl
  · rw [Literal.readString_shift, mapError_bind]
    rfl
  · rw [Literal.readTemplate_shift]
    rcases Literal.readTemplate (offset + 1) (offset + 1) r with e | ⟨value, n, _ | _⟩ <;> rfl
  · rw [Literal.readTemplate_shift]
    rcases Literal.readTemplate (offset + 1) (offset + 1) r with e | ⟨value, n, _ | _⟩ <;> rfl
  · exact scanPunct_shift k

theorem scanTrivia_shift (k : Nat) :
    scanTrivia (offset + k) c r = (scanTrivia offset c r).mapError (LexError.shift k) := by
  unfold scanTrivia
  split_ifs
  · rfl
  · cases commentLength? r.tail <;> rfl
  · rfl
  · rfl

/-- What is found in a text does not depend on where the text begins. -/
theorem scanFrom_shift (k : Nat) (newline : Bool) (cs : List Char) :
    scanFrom depths newline (offset + k) cs =
      ((scanFrom depths newline offset cs).map (List.map (shift k))).mapError
        (LexError.shift k) := by
  induction depths, newline, offset, cs using scanFrom.induct with
  | case1 depths newline offset h => simp [scanFrom, h, Except.map, Except.mapError, shift, eofAt]
  | case2 depths newline offset h =>
    simp [scanFrom, h, Except.map, Except.mapError, LexError.shift]
  | case3 depths newline offset c r htrivia hlexeme =>
    rw [scanFrom, scanFrom, scanTrivia_shift]
    cases scanTrivia offset c r with
    | error e => rfl
    | ok trivia =>
      cases trivia with
      | some p =>
        have hrest := htrivia p.1 p.2
        simp only [Nat.add_right_comm _ _ k] at hrest ⊢
        exact hrest
      | none =>
        simp only [Except.mapError, bind, Except.bind, scanLexeme_shift]
        cases scanLexeme depths offset c r with
        | error e => rfl
        | ok l =>
          have hrest := hlexeme l
          have hshift : ofLexeme l newline (offset + k) (c :: r) =
              (ofLexeme l newline offset (c :: r)).shift k := by
            simp [ofLexeme, shift, Nat.add_right_comm _ k]
          have hstop (t : Token) : (t.shift k).stop = t.stop + k := rfl
          simp only [hshift, hstop, hrest]
          rcases scanFrom l.depths false (ofLexeme l newline offset (c :: r)).stop
            (r.drop (l.size - 1)) with e | ts <;> rfl

/-- A string survives its quotes. Wherever a literal stands and whatever follows it, it is read as
one string with its value, and the scanner goes on as it would with the rest alone. -/
theorem scan_quote {q : Char} (hq : q = '"' ∨ q = '\'') (text rest : String) :
    let literal := String.ofList (Literal.quote text.toList q)
    let size := literal.utf8ByteSize
    let token (newline : Bool) (offset : Nat) : Token :=
      ⟨.string, literal, text, offset, offset + size, newline, q = '\''⟩
    (∀ depths newline offset, scanFrom depths newline offset (literal ++ rest).toList =
      (scanFrom depths false (offset + size) rest.toList).map (token newline offset :: ·)) ∧
    scan (literal ++ rest) = ((scan rest).map fun ts =>
      token false 0 :: ts.map (shift size)).mapError (LexError.shift size) := by
  intro literal size token
  have hsize : Text.byteLength (Literal.quote text.toList q) = size := by
    rw [← String.toList_ofList (l := Literal.quote text.toList q), Text.byteLength_toList]
  have hfrom (depths : List Nat) (newline : Bool) (offset : Nat) :
      scanFrom depths newline offset (literal ++ rest).toList =
        (scanFrom depths false (offset + size) rest.toList).map (token newline offset :: ·) := by
    rw [String.toList_append, String.toList_ofList, scanFrom_quote hq, hsize,
      String.ofList_toList]
  refine ⟨hfrom, ?_⟩
  rw [scan, hfrom, scanFrom_shift, scan]
  rcases scanFrom [] false 0 rest.toList with e | ts <;> rfl

/-- The quote, a backslash, a line break, and a control character before digits, in front of a
literal that does not end. -/
theorem scan_quote_unterminated :
    let literal := String.ofList (Literal.quote "it's \\\n\x0195".toList '\'')
    ('\'' = '"' ∨ '\'' = '\'') ∧ literal = "'it\\'s \\\\\\n\\u000195'" ∧
      scan (literal ++ "+\"") = ((scan "+\"").map fun ts =>
        ⟨.string, literal, "it's \\\n\x0195", 0, 0 + literal.utf8ByteSize, false, true⟩ ::
          ts.map (shift literal.utf8ByteSize)).mapError (LexError.shift literal.utf8ByteSize) :=
  ⟨.inr rfl, by decide +kernel, (scan_quote (.inr rfl) "it's \\\n\x0195" "+\"").2⟩

end Token

namespace Literal

/-- The value of a template piece in which line breaks stand as they are: each carriage return, with
a line feed or without, has become a line feed. -/
def unifyBreaks : List Char → List Char
  | [] => []
  | c :: r =>
    if c = '\r' then if r.head? = some '\n' then unifyBreaks r else '\n' :: unifyBreaks r
    else c :: unifyBreaks r

theorem not_mem_unifyBreaks (cs : List Char) : '\r' ∉ unifyBreaks cs := by
  induction cs with
  | nil => simp [unifyBreaks]
  | cons c r ih =>
    rw [unifyBreaks]
    split_ifs with hreturn
    · exact ih
    · simpa using ih
    · simpa [Ne.symm hreturn] using ih

theorem unifyBreaks_eq_self_iff (cs : List Char) : unifyBreaks cs = cs ↔ '\r' ∉ cs := by
  refine ⟨fun h => h ▸ not_mem_unifyBreaks cs, fun h => ?_⟩
  induction cs with
  | nil => rfl
  | cons c r ih =>
    simp only [List.mem_cons, not_or] at h
    rw [unifyBreaks, if_neg (Ne.symm h.1), ih h.2]

def pieceEnd (opens : Bool) : List Char :=
  if opens then ['$', '{'] else ['`']

variable {start offset : Nat} {rest : List Char}

/-- Only a backslash, a backtick and a dollar sign can be what an escaped text begins with and the
text does not. -/
theorem head?_escapeTemplate (cs : List Char) (opens : Bool) {x : Char}
    (hx : x ∉ ['\\', '`', '$']) :
    (escapeTemplate cs ++ (pieceEnd opens ++ rest)).head? = some x ↔ cs.head? = some x := by
  simp only [List.mem_cons, List.not_mem_nil, or_false, not_or] at hx
  obtain ⟨hslash, htick, hdollar⟩ := hx
  cases cs with
  | nil => cases opens <;> simp [escapeTemplate, pieceEnd, Ne.symm htick, Ne.symm hdollar]
  | cons c r =>
    rw [escapeTemplate]
    split_ifs with h h' h''
    · simp [h]
    · simp [h', Ne.symm hslash, Ne.symm htick]
    · simp only [Bool.and_eq_true, decide_eq_true_eq] at h''
      simp [h''.1, Ne.symm hslash, Ne.symm hdollar]
    · simp

theorem readTemplate_plain {c : Char} {r : List Char} (hc : c ∉ ['\\', '`', '\r'])
    (hopens : c = '$' → r.head? ≠ some '{') :
    readTemplate start offset (c :: r) = (do
      let (value, n, opens) ← readTemplate start (offset + c.utf8Size) r
      return (c :: value, 1 + n, opens)) := by
  simp only [List.mem_cons, List.not_mem_nil, or_false, not_or] at hc
  rw [readTemplate, if_neg (by simpa using hopens), if_neg hc.2.1, if_neg hc.1, if_neg hc.2.2]

theorem readTemplate_escaped {c : Char} (hc : c ∈ ['\\', '`', '$']) (r : List Char) :
    readTemplate start offset ('\\' :: c :: r) = (do
      let (value, n, opens) ← readTemplate start (offset + 1 + c.utf8Size) r
      return (c :: value, 2 + n, opens)) := by
  have hread : readEscape (c :: r) = .ok (some c, 1) := by
    simp only [List.mem_cons, List.not_mem_nil, or_false] at hc
    rcases hc with rfl | rfl | rfl <;> simp [readEscape]
  rw [readTemplate, if_neg (by simp), if_neg (by decide), if_pos rfl, hread]
  rfl

theorem readTemplate_return {r : List Char} (hr : r.head? ≠ some '\n') :
    readTemplate start offset ('\r' :: r) = (do
      let (value, n, opens) ← readTemplate start (offset + 1) r
      return ('\n' :: value, 1 + n, opens)) := by
  rw [readTemplate, if_neg (by simp), if_neg (by decide), if_neg (by decide), if_pos rfl]
  simp [hr]

/-- A carriage return before a line feed adds nothing. -/
theorem readTemplate_return_feed (r : List Char) :
    readTemplate start offset ('\r' :: '\n' :: r) = (do
      let (value, n, opens) ← readTemplate start (offset + 1) ('\n' :: r)
      return (value, 1 + n, opens)) := by
  have hsize : '\n'.utf8Size = 1 := rfl
  rw [readTemplate, if_neg (by simp), if_neg (by decide), if_neg (by decide), if_pos rfl,
    readTemplate_plain (by decide) (by simp), hsize]
  simp only [List.head?_cons, if_true, List.drop_one, List.tail_cons]
  rcases readTemplate start (offset + 1 + 1) r with e | ⟨value, n, opens⟩
  · rfl
  · simp only [bind, Except.bind, pure, Except.pure, Nat.add_assoc]

/-- A character is written behind a backslash, or it stands for itself and opens no substitution. -/
theorem escapeTemplate_cons (c : Char) (r : List Char) :
    c ∈ ['\\', '`', '$'] ∧ escapeTemplate (c :: r) = '\\' :: c :: escapeTemplate r ∨
    c ∉ ['\\', '`'] ∧ (c = '$' → r.head? ≠ some '{') ∧
      escapeTemplate (c :: r) = c :: escapeTemplate r := by
  rw [escapeTemplate]
  split_ifs with hslash htick hdollar
  · exact .inl ⟨by simp [hslash], by rw [hslash]⟩
  · exact .inl ⟨by simp [htick], by rw [htick]⟩
  · simp only [Bool.and_eq_true, decide_eq_true_eq] at hdollar
    exact .inl ⟨by simp [hdollar.1], by rw [hdollar.1]⟩
  · exact .inr ⟨by simp [hslash, htick], by simpa using hdollar, rfl⟩

/-- A text that was escaped is read up to the end of its piece, with its line breaks unified. -/
theorem readTemplate_escapeTemplate (value : List Char) (opens : Bool) :
    readTemplate start offset (escapeTemplate value ++ (pieceEnd opens ++ rest)) =
      .ok (unifyBreaks value, (escapeTemplate value ++ pieceEnd opens).length, opens) := by
  induction value generalizing offset with
  | nil => cases opens <;> simp [escapeTemplate, pieceEnd, readTemplate, unifyBreaks]
  | cons c r ih =>
    rcases escapeTemplate_cons c r with ⟨hc, hwrite⟩ | ⟨hc, hopens, hwrite⟩
    · have hreturn : c ≠ '\r' := by
        rintro rfl
        exact absurd hc (by decide)
      rw [hwrite, List.cons_append, List.cons_append, readTemplate_escaped hc, ih, unifyBreaks,
        if_neg hreturn]
      simp [bind, Except.bind, pure, Except.pure, Nat.add_comm 2]
    · rw [hwrite, List.cons_append, unifyBreaks]
      split_ifs with hreturn hfeed
      · -- the line feed is the next character and opens the rest of the text
        obtain ⟨r, rfl⟩ : ∃ s, r = '\n' :: s := List.head?_eq_some_iff.mp hfeed
        have hescape : escapeTemplate ('\n' :: r) = '\n' :: escapeTemplate r := by
          simp [escapeTemplate]
        rw [hreturn, hescape, List.cons_append, readTemplate_return_feed, ← List.cons_append,
          ← hescape, ih]
        simp [bind, Except.bind, pure, Except.pure, Nat.add_comm 1]
      · rw [hreturn, readTemplate_return (mt (head?_escapeTemplate r opens (by decide)).mp hfeed),
          ih]
        simp [bind, Except.bind, pure, Except.pure, Nat.add_comm 1]
      · rw [readTemplate_plain (by simp_all)
          fun h => mt (head?_escapeTemplate r opens (by decide)).mp (hopens h), ih]
        simp [bind, Except.bind, pure, Except.pure, Nat.add_comm 1]

end Literal

namespace Token

variable {depths : List Nat} {offset : Nat}

/-- A piece of a template after the mark `c` that begins it: its end says which piece it is and how
many substitutions are open then. -/
theorem scanFrom_piece {c : Char} (piece : Bool → TemplatePiece) (depths' : Bool → List Nat)
    (htrivia : ∀ r, scanTrivia offset c r = .ok none)
    (hlexeme : ∀ r, scanLexeme depths offset c r = (do
      let (value, n, opens) ← Literal.readTemplate (offset + 1) (offset + 1) r
      return ⟨.template (piece opens), n + 1, some value, false, depths' opens⟩))
    (value : List Char) (opens : Bool) (rest : List Char) :
    ∃ t stop, scanFrom depths false offset
        (c :: (Literal.escapeTemplate value ++ Literal.pieceEnd opens) ++ rest) =
      (scanFrom (depths' opens) false stop rest).map (t :: ·) ∧
      t.kind = .template (piece opens) ∧
      t.value = String.ofList (Literal.unifyBreaks value) := by
  have hread : scanLexeme depths offset c
      ((Literal.escapeTemplate value ++ Literal.pieceEnd opens) ++ rest) =
      .ok ⟨.template (piece opens),
        (Literal.escapeTemplate value ++ Literal.pieceEnd opens).length + 1,
        some (Literal.unifyBreaks value), false, depths' opens⟩ := by
    rw [hlexeme, List.append_assoc, Literal.readTemplate_escapeTemplate]
    rfl
  exact ⟨_, _, scanFrom_lexeme false (htrivia _) hread, rfl, rfl⟩

/-- The first piece of a template, up to its end or its first substitution. -/
theorem scanFrom_templateStart (depths : List Nat) (offset : Nat) (value : List Char)
    (opens : Bool) (rest : List Char) :
    ∃ t stop, scanFrom depths false offset
        ('`' :: (Literal.escapeTemplate value ++ Literal.pieceEnd opens) ++ rest) =
      (scanFrom (if opens then 0 :: depths else depths) false stop rest).map (t :: ·) ∧
      t.kind = .template (if opens then .head else .whole) ∧
      t.value = String.ofList (Literal.unifyBreaks value) := by
  refine scanFrom_piece (fun opens => if opens then .head else .whole)
    (fun opens => if opens then 0 :: depths else depths) (fun r => ?_) (fun r => ?_)
    value opens rest
  · simp [scanTrivia, show Text.isBlank '`' = false by decide]
  · rw [scanLexeme, if_neg (by decide), if_neg (by simp), if_neg (by decide), if_pos rfl]
    rcases Literal.readTemplate (offset + 1) (offset + 1) r with e | ⟨value, n, _ | _⟩ <;> rfl

/-- The piece of a template after a substitution. -/
theorem scanFrom_templateResume (depths : List Nat) (offset : Nat) (value : List Char)
    (opens : Bool) (rest : List Char) :
    ∃ t stop, scanFrom (0 :: depths) false offset
        ('}' :: (Literal.escapeTemplate value ++ Literal.pieceEnd opens) ++ rest) =
      (scanFrom (if opens then 0 :: depths else depths) false stop rest).map (t :: ·) ∧
      t.kind = .template (if opens then .middle else .tail) ∧
      t.value = String.ofList (Literal.unifyBreaks value) := by
  refine scanFrom_piece (fun opens => if opens then .middle else .tail)
    (fun opens => if opens then 0 :: depths else depths) (fun r => ?_) (fun r => ?_)
    value opens rest
  · simp [scanTrivia, show Text.isBlank '}' = false by decide]
  · rw [scanLexeme, if_neg (by decide), if_neg (by simp), if_neg (by decide),
      if_neg (by decide), if_pos (by simp)]
    rcases Literal.readTemplate (offset + 1) (offset + 1) r with e | ⟨value, n, _ | _⟩ <;> rfl

end Token

namespace Literal

/-- The text of names that are substituted, each with the piece after it, from the first name on. -/
def spansText : List (String × String) → List Char
  | [] => []
  | (name, literal) :: r => name.toList ++
    ('}' :: (escapeTemplate literal.toList ++ pieceEnd !r.isEmpty) ++ spansText r)

def spanTokens : List (String × String) → List (TokenKind × String)
  | [] => []
  | (name, literal) :: r =>
    (.word, name) :: (.template (if r.isEmpty then .tail else .middle), literal) :: spanTokens r

def templateTokens (head : String) (spans : List (String × String)) : List (TokenKind × String) :=
  (.template (if spans.isEmpty then .whole else .head), head) :: spanTokens spans

def unified (s : String) : String :=
  String.ofList (unifyBreaks s.toList)

theorem unified_eq_self_iff (s : String) : unified s = s ↔ '\r' ∉ s.toList := by
  rw [← unifyBreaks_eq_self_iff, unified, ← String.toList_inj, String.toList_ofList]

theorem spanTokens_unified_iff (spans : List (String × String)) :
    spanTokens (spans.map (Prod.map id unified)) = spanTokens spans ↔
      ∀ p ∈ spans, '\r' ∉ p.2.toList := by
  induction spans with
  | nil => simp
  | cons p r ih => simp [spanTokens, ih, unified_eq_self_iff]

end Literal

namespace Token

open Quasiquote.Literal

theorem scanFrom_spansText {spans : List (String × String)}
    (h : ∀ p ∈ spans, Piece.IsWord p.1) (depths : List Nat) (offset : Nat) (rest : List Char) :
    ∃ ts stop, scanFrom (if spans.isEmpty then depths else 0 :: depths) false offset
        (spansText spans ++ rest) = (scanFrom depths false stop rest).map (ts ++ ·) ∧
      ts.map (fun t => (t.kind, t.value)) = spanTokens (spans.map (Prod.map id unified)) := by
  induction spans generalizing offset with
  | nil =>
    refine ⟨[], offset, ?_, rfl⟩
    rw [List.isEmpty_nil, if_pos rfl, spansText, List.nil_append]
    rcases scanFrom depths false offset rest with e | ts <;> rfl
  | cons p r ih =>
    obtain ⟨name, literal⟩ := p
    obtain ⟨hname, hr⟩ := List.forall_mem_cons.mp h
    -- the name, the piece behind it, and what the other substitutions give
    obtain ⟨t, middle, hresume, hkind, hvalue⟩ := scanFrom_templateResume depths
      (offset + Text.byteLength name.toList) literal.toList (!r.isEmpty) (spansText r ++ rest)
    obtain ⟨ts, stop, hrest, hts⟩ := ih hr middle
    have hopen : (if (!r.isEmpty) = true then 0 :: depths else depths) =
        if r.isEmpty then depths else 0 :: depths := by
      cases r.isEmpty <;> rfl
    refine ⟨.word name offset (offset + Text.byteLength name.toList) :: t :: ts, stop, ?_, ?_⟩
    · rw [hopen, hrest] at hresume
      rw [List.isEmpty_cons, if_neg Bool.false_ne_true, spansText, List.append_assoc,
        List.append_assoc,
        scanFrom_word hname (by rintro _ ⟨⟩; decide), hresume]
      rcases scanFrom depths false stop rest with e | us <;> rfl
    · have hpiece : t.kind = .template (if r.isEmpty then .tail else .middle) := by
        rw [hkind]
        cases r.isEmpty <;> rfl
      simp [spanTokens, hpiece, hvalue, hts, unified]

/-- A template is read back piece by piece, with the line breaks of each piece unified. -/
theorem scan_templateText {spans : List (String × String)}
    (h : ∀ p ∈ spans, Piece.IsWord p.1) (head : String) :
    ∃ ts stop, scan (String.ofList ('`' :: (escapeTemplate head.toList ++
        pieceEnd !spans.isEmpty) ++ spansText spans)) = .ok (ts ++ [eofAt stop]) ∧
      ts.map (fun t => (t.kind, t.value)) =
        templateTokens (unified head) (spans.map (Prod.map id unified)) := by
  obtain ⟨t, middle, hstart, hkind, hvalue⟩ :=
    scanFrom_templateStart [] 0 head.toList (!spans.isEmpty) (spansText spans)
  obtain ⟨ts, stop, hspans, hts⟩ := scanFrom_spansText h [] middle []
  have hopen : (if (!spans.isEmpty) = true then [0] else []) =
      if spans.isEmpty then [] else [0] := by
    cases spans.isEmpty <;> rfl
  have hend : scanFrom [] false stop [] = .ok [eofAt stop] := by
    rw [scanFrom]
    rfl
  refine ⟨t :: ts, stop, ?_, ?_⟩
  · rw [List.append_nil, hend] at hspans
    rw [scan, String.toList_ofList, hstart, hopen, hspans]
    rfl
  · have hpiece : t.kind = .template (if spans.isEmpty then .whole else .head) := by
      rw [hkind]
      cases spans.isEmpty <;> rfl
    simp [templateTokens, hpiece, hvalue, hts, unified]

end Token

namespace Print

open Quasiquote.Literal

variable (depth : Nat) (mark mark' : Mark)

theorem text_wholeTemplate (value : String) :
    text depth (.mk .noSubstitutionTemplateLiteral mark [.text value]) =
      "`" ++ templateText value ++ "`" := by
  rw [text]
  rfl

theorem text_templateExpression (head : String) (nodes : List Node) :
    text depth (.mk .templateExpression mark [.text head, .list nodes]) =
      "`" ++ templateText head ++ String.join (nodes.map (templateSpan depth)) ++ "`" := by
  rw [text]
  dsimp only [Node.kind]
  rw [Node.map_smallerList]
  rfl

theorem templateSpan_name (name literal : String) :
    templateSpan depth (.mk .templateSpan mark
        [.node (.mk .identifier mark' [.text name]), .text literal]) =
      "$\x7b" ++ name ++ "\x7d" ++ templateText literal := by
  rw [templateSpan, Node.elim_smaller?]
  change "$\x7b" ++ text depth (.mk .identifier mark' [.text name]) ++ _ ++ _ = _
  rw [text_name]
  rfl

end Print

inductive Node.IsSpan : Node → String × String → Prop
  | mk (mark mark' : Mark) (name literal : String) :
    IsSpan (.mk .templateSpan mark [.node (.mk .identifier mark' [.text name]), .text literal])
      (name, literal)

inductive Node.IsTemplate : Node → String → List (String × String) → Prop
  | whole (mark : Mark) (text : String) :
    IsTemplate (.mk .noSubstitutionTemplateLiteral mark [.text text]) text []
  | pieces (mark : Mark) (head : String) {nodes : List Node} {spans : List (String × String)}
    (hne : spans ≠ []) (h : List.Forall₂ IsSpan nodes spans) :
    IsTemplate (.mk .templateExpression mark [.text head, .list nodes]) head spans

namespace Node

open Quasiquote.Literal

theorem toList_templateSpans {nodes : List Node} {spans : List (String × String)}
    (h : List.Forall₂ IsSpan nodes spans) :
    (String.join (nodes.map (Print.templateSpan 0))).toList ++ ['`'] =
      pieceEnd (!spans.isEmpty) ++ spansText spans := by
  induction h with
  | nil => simp [pieceEnd, spansText]
  | @cons node p nodes spans hnode _ ih =>
    cases hnode with
    | mk mark mark' name literal =>
      rw [List.map_cons, String.join_cons, Print.templateSpan_name, String.toList_append,
        List.append_assoc, ih]
      simp [Print.templateText, spansText, pieceEnd]

theorem IsTemplate.toList_print {n : Node} {head : String} {spans : List (String × String)}
    (h : n.IsTemplate head spans) :
    n.print.toList = '`' :: (escapeTemplate head.toList ++ pieceEnd !spans.isEmpty) ++
      spansText spans := by
  cases h with
  | whole mark =>
    rw [print, Print.text_wholeTemplate]
    simp [Print.templateText, pieceEnd, spansText]
  | pieces mark _ _ h =>
    rw [print, Print.text_templateExpression, List.cons_append, List.append_assoc,
      ← toList_templateSpans h]
    simp [Print.templateText]

/-- The text of a template with names for substitutions is read as its pieces in order, with the
names between them. The values are the pieces with unified line breaks, so they are the pieces
themselves exactly when none of them holds a carriage return. -/
theorem scan_print_template {n : Node} {head : String} {spans : List (String × String)}
    (h : n.IsTemplate head spans) (hnames : ∀ p ∈ spans, Piece.IsWord p.1) :
    ∃ ts stop, Token.scan n.print = .ok (ts ++ [Token.eofAt stop]) ∧
      ts.map (fun t => (t.kind, t.value)) =
        templateTokens (unified head) (spans.map (Prod.map id unified)) ∧
      (ts.map (fun t => (t.kind, t.value)) = templateTokens head spans ↔
        '\r' ∉ head.toList ∧ ∀ p ∈ spans, '\r' ∉ p.2.toList) := by
  obtain ⟨ts, stop, hscan, hts⟩ := Token.scan_templateText hnames head
  rw [← h.toList_print, String.ofList_toList] at hscan
  refine ⟨ts, stop, hscan, hts, ?_⟩
  rw [hts, ← unified_eq_self_iff, ← spanTokens_unified_iff]
  simp [templateTokens]

/-- A dollar sign before a substitution, one before a brace, a backslash and a backtick, and a line
break of two characters. -/
theorem scan_print_template_breaks :
    let span (name literal : String) := Node.plain .templateSpan
      [.node (.identifier name), .text literal]
    let n := Node.plain .templateExpression
      [.text "a$", .list [span "x" "$\x7b\\", span "let" "`\r\n"]]
    let spans := [("x", "$\x7b\\"), ("let", "`\r\n")]
    n.IsTemplate "a$" spans ∧ (∀ p ∈ spans, Piece.IsWord p.1) ∧
      ∃ ts stop, Token.scan n.print = .ok (ts ++ [Token.eofAt stop]) ∧
        ts.map (fun t => (t.kind, t.value)) =
          templateTokens (unified "a$") (spans.map (Prod.map id unified)) ∧
        (ts.map (fun t => (t.kind, t.value)) = templateTokens "a$" spans ↔
          '\r' ∉ "a$".toList ∧ ∀ p ∈ spans, '\r' ∉ p.2.toList) := by
  intro span n spans
  have h : n.IsTemplate "a$" spans :=
    .pieces {} "a$" (by simp [spans]) (.cons (.mk ..) (.cons (.mk ..) .nil))
  have hnames : ∀ p ∈ spans, Piece.IsWord p.1 := by
    simp only [spans, List.forall_mem_cons, List.not_mem_nil, false_imp_iff, implies_true, and_true]
    exact ⟨Options.isWord_of_isIdentifier (by decide), Options.isWord_of_isIdentifier (by decide)⟩
  exact ⟨h, hnames, scan_print_template h hnames⟩

/-- A carriage return in a template is printed as it is and read as a line feed. -/
theorem scan_print_carriageReturn :
    Token.scan (Node.plain .noSubstitutionTemplateLiteral [.text "\r"]).print =
      .ok [⟨.template .whole, "`\r`", "\n", 0, 3, false, false⟩, Token.eofAt 3] := by
  rw [print, Node.plain, Print.text_wholeTemplate]
  decide +kernel

end Node

end Quasiquote
