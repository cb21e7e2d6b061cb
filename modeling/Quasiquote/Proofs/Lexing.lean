import Mathlib.Data.List.Chain
import Quasiquote.Proofs.Scanning

namespace Quasiquote

section

variable {α : Type} (p : α → Bool) (l : List α)

theorem take_length_takeWhile : l.take (l.takeWhile p).length = l.takeWhile p :=
  (List.prefix_iff_eq_take.mp (List.takeWhile_prefix p)).symm

theorem drop_length_takeWhile : l.drop (l.takeWhile p).length = l.dropWhile p := by
  induction l with
  | nil => rfl
  | cons a l ih =>
    by_cases ha : p a = true
    · simpa [ha] using ih
    · simp [ha]

end

theorem error_of_bind {ε α β : Type} {x : Except ε α} {f : α → Except ε β} {e : ε}
    (h : x >>= f = .error e) : x = .error e ∨ ∃ a, x = .ok a ∧ f a = .error e := by
  cases x with
  | error e' =>
    cases h
    exact .inl rfl
  | ok a => exact .inr ⟨a, rfl, h⟩

namespace Text

theorem byteLength_pos {cs : List Char} (h : cs ≠ []) : 0 < byteLength cs := by
  obtain ⟨c, r, rfl⟩ := List.exists_cons_of_ne_nil h
  have hc := c.utf8Size_pos
  rw [byteLength_cons]
  omega

/-- A place in a text is known by the number of bytes before it. -/
theorem append_inj_of_byteLength {before before' rest rest' : List Char}
    (h : before ++ rest = before' ++ rest') (hlen : byteLength before = byteLength before') :
    before = before' ∧ rest = rest' := by
  rcases List.append_eq_append_iff.mp h with ⟨cs, rfl, rfl⟩ | ⟨cs, rfl, rfl⟩
  all_goals
    have hcs : cs = [] := by
      by_contra hne
      have hpos := byteLength_pos hne
      rw [byteLength_append] at hlen
      omega
    simp [hcs]

end Text

/-- A piece of white space or a comment in front of some text. A line comment goes up to a line feed
or the end, a block comment up to the first mark of its end. -/
inductive Trivia : List Char → List Char → Prop
  | blank {c : Char} {rest : List Char} (hc : Text.isBlank c = true) : Trivia [c] rest
  | line {body rest : List Char} (hbody : '\n' ∉ body) (hrest : ∀ c ∈ rest.head?, c = '\n') :
    Trivia ('/' :: '/' :: body) rest
  | block {body rest : List Char} (hbody : ¬['*', '/'] <:+: body) :
    Trivia ('/' :: '*' :: body ++ ['*', '/']) rest

inductive Gap : List Char → List Char → Prop
  | nil {rest : List Char} : Gap [] rest
  | snoc {gap piece rest : List Char} (h : Gap gap (piece ++ rest)) (hp : Trivia piece rest) :
    Gap (gap ++ piece) rest

def Text.isSolid (c : Char) : Bool :=
  !isBlank c && c ≠ '/'

namespace Gap

variable {gap rest : List Char} {c d : Char}

theorem eq_nil_of_head (h : Gap gap rest) (hc : Text.isSolid c = true)
    (hhead : (gap ++ rest).head? = some c) : gap = [] := by
  induction h with
  | nil => rfl
  | snoc h hp ih =>
    rw [List.append_assoc] at hhead
    obtain rfl := ih hhead
    exfalso
    cases hp with
    | blank hb =>
      cases hhead
      simp [Text.isSolid, hb] at hc
    | line | block =>
      cases hhead
      simp [Text.isSolid] at hc

/-- What a gap ends with if it is not empty. A line comment does not count, because a token never
begins with a line feed. -/
theorem last_piece (h : Gap gap (c :: rest)) (hc : c ≠ '\n') :
    gap = [] ∨ ∃ gap' piece, gap = gap' ++ piece ∧ Gap gap' (piece ++ c :: rest) ∧
      ((∃ d, Text.isBlank d = true ∧ piece = [d]) ∨ ∃ body, piece = body ++ ['/']) := by
  generalize hr : c :: rest = r at h
  cases h with
  | nil => exact .inl rfl
  | snoc h hp =>
    subst hr
    refine .inr ⟨_, _, rfl, h, ?_⟩
    cases hp with
    | blank hb => exact .inl ⟨_, hb, rfl⟩
    | line _ hrest => exact absurd (hrest c rfl) hc
    | @block body _ _ => exact .inr ⟨'/' :: '*' :: body ++ ['*'], by simp⟩

theorem of_append_singleton (h : Gap (gap ++ [d]) (c :: rest)) (hc : c ≠ '\n') (hd : d ≠ '/') :
    Text.isBlank d = true ∧ Gap gap (d :: c :: rest) := by
  obtain hnil | ⟨gap', piece, heq, hgap, ⟨e, he, rfl⟩ | ⟨body, rfl⟩⟩ := h.last_piece hc
  · simp at hnil
  · obtain ⟨rfl, hde⟩ := List.append_inj' heq rfl
    obtain rfl : d = e := by simpa using hde
    exact ⟨he, hgap⟩
  · rw [← List.append_assoc] at heq
    obtain ⟨-, hd'⟩ := List.append_inj' heq rfl
    exact absurd (by simpa using hd') hd

theorem eq_nil_of_last (h : Gap gap (c :: rest)) (hc : c ≠ '\n') (hd : Text.isSolid d = true)
    {start before : List Char} (heq : start ++ gap = before ++ [d]) : gap = [] := by
  simp only [Text.isSolid, Bool.and_eq_true, Bool.not_eq_true', decide_eq_true_eq] at hd
  obtain rfl | ⟨gap, e, rfl⟩ := List.eq_nil_or_concat gap
  · rfl
  · rw [List.concat_eq_append] at h heq
    rw [← List.append_assoc] at heq
    obtain rfl : e = d := by simpa using (List.append_inj' heq rfl).2
    simp [(h.of_append_singleton hc hd.2).1] at hd

theorem eq_singleton_of_last (h : Gap gap (c :: rest)) (hc : c ≠ '\n') {e : Char} (he : e ≠ '/')
    (he' : e ≠ '\n') (hd : Text.isSolid d = true) {start before : List Char}
    (heq : start ++ gap = before ++ [d] ++ [e]) : gap = [] ∨ gap = [e] := by
  obtain rfl | ⟨gap, x, rfl⟩ := List.eq_nil_or_concat gap
  · exact .inl rfl
  · rw [List.concat_eq_append] at h heq ⊢
    rw [← List.append_assoc] at heq
    obtain ⟨hstart, hx⟩ := List.append_inj' heq rfl
    obtain rfl : x = e := by simpa using hx
    obtain rfl := (h.of_append_singleton hc he).2.eq_nil_of_last he' hd hstart
    exact .inr rfl

end Gap

namespace Token

inductive IsRead (before : List Char) : List Char → Token → Prop
  | eof : IsRead before [] (eofAt (Text.byteLength before))
  | lexeme {c : Char} {r : List Char} {depths : List Nat} {newline : Bool} {l : Lexeme}
    (h : scanLexeme depths (Text.byteLength before) c r = .ok l) :
    IsRead before (c :: r) (ofLexeme l newline (Text.byteLength before) (c :: r))

def Stands (source : List Char) (t : Token) : Prop :=
  ∃ before rest, source = before ++ rest ∧ IsRead before rest t

def Follows (source : List Char) (t u : Token) : Prop :=
  ∃ before gap rest, source = before ++ gap ++ rest ∧ t.stop = Text.byteLength before ∧
    Gap gap rest ∧ IsRead (before ++ gap) rest u

theorem commentLength?_eq_some {cs : List Char} {n : Nat} (h : commentLength? cs = some n) :
    ∃ body rest, cs = body ++ '*' :: '/' :: rest ∧ body.length = n ∧ ¬['*', '/'] <:+: body := by
  fun_induction commentLength? cs generalizing n with
  | case1 => cases h
  | case2 rest =>
    obtain rfl : 0 = n := by simpa using h
    exact ⟨[], rest, rfl, rfl, by simp⟩
  | case3 c r hne ih =>
    obtain ⟨m, hm, rfl⟩ := Option.map_eq_some_iff.mp h
    obtain ⟨body, rest, rfl, rfl, hbody⟩ := ih hm
    refine ⟨c :: body, rest, rfl, rfl, fun hinfix => ?_⟩
    obtain hprefix | hinfix := List.infix_cons_iff.mp hinfix
    · obtain ⟨tail, htail⟩ := hprefix
      obtain ⟨rfl, hslash⟩ := List.cons.inj htail
      exact hne (tail ++ '*' :: '/' :: rest) rfl (by rw [← hslash]; rfl)
    · exact hbody hinfix

theorem scanTrivia_eq_some {offset : Nat} {c : Char} {r : List Char} {n : Nat} {feed : Bool}
    (h : scanTrivia offset c r = .ok (some (n, feed))) :
    Trivia (c :: r.take n) (r.drop n) ∧ feed = (c :: r.take n).contains '\n' := by
  unfold scanTrivia at h
  split at h
  · next hline =>
    simp only [Bool.and_eq_true, decide_eq_true_eq] at hline
    obtain ⟨rfl, hr⟩ := hline
    obtain ⟨s, rfl⟩ := List.head?_eq_some_iff.mp hr
    cases h
    rw [take_length_takeWhile, drop_length_takeWhile]
    have hcons : ('/' :: s).takeWhile (· ≠ '\n') = '/' :: s.takeWhile (· ≠ '\n') := by simp
    rw [hcons]
    have hbody : '\n' ∉ s.takeWhile (· ≠ '\n') := fun hfeed => by
      simpa using List.all_eq_true.mp (List.all_takeWhile (l := s)) _ hfeed
    refine ⟨.line hbody fun d hd => ?_, by simpa using hbody⟩
    have hnot := List.head?_dropWhile_not (· ≠ '\n') ('/' :: s)
    rw [hd] at hnot
    simpa using hnot
  · split at h
    · next hblock =>
      simp only [Bool.and_eq_true, decide_eq_true_eq] at hblock
      obtain ⟨rfl, hr⟩ := hblock
      obtain ⟨s, rfl⟩ := List.head?_eq_some_iff.mp hr
      split at h
      · next n hn =>
        cases h
        obtain ⟨body, rest, hs, rfl, hbody⟩ := commentLength?_eq_some hn
        obtain rfl : s = _ := hs
        have hsplit : '*' :: (body ++ '*' :: '/' :: rest) = ('*' :: body ++ ['*', '/']) ++ rest := by
          simp
        have hlen : body.length + 3 = ('*' :: body ++ ['*', '/']).length := by simp
        rw [hsplit, hlen, List.take_left, List.drop_left]
        exact ⟨.block hbody, by simp⟩
      · cases h
    · split at h
      · next hb =>
        cases h
        exact ⟨.blank hb, by simp [eq_comm]⟩
      · cases h

inductive Lexeme.Spells (c : Char) (r : List Char) (l : Lexeme) : Prop
  | word (hk : l.kind = .word) (hc : startsWord c = true)
    (hsize : l.size = ((c :: r).takeWhile continuesWord).length)
  | number (hk : l.kind = .number)
    (hc : (c.isDigit || (c = '.' && r.head?.any Char.isDigit)) = true)
    (hsize : l.size = Literal.numberLength (c :: r))
  | string {start offset n : Nat} {value : List Char} (hk : l.kind = .string)
    (hc : c = '"' ∨ c = '\'') (h : Literal.readString c start offset r = .ok (value, n))
    (hsize : l.size = n + 1) (hv : l.value = some value)
  | template {piece : TemplatePiece} {start offset n : Nat} {value : List Char} {opens : Bool}
    (hk : l.kind = .template piece) (hc : c = '`' ∨ c = '}')
    (h : Literal.readTemplate start offset r = .ok (value, n, opens)) (hsize : l.size = n + 1)
  | punct {p : Punct} (hk : l.kind = .punct p) (hp : Punct.ofText? (c :: r) = some p)
    (hsize : l.size = p.text.length)

section

variable {depths : List Nat} {offset : Nat} {c : Char} {r : List Char} {l : Lexeme}

theorem scanPunct_spells (h : scanPunct depths offset c r = .ok l) : l.Spells c r := by
  unfold scanPunct at h
  split at h
  · cases h
  · next p hp =>
    split at h <;> cases h <;> exact .punct rfl hp rfl

theorem scanLexeme_spells (h : scanLexeme depths offset c r = .ok l) : l.Spells c r := by
  unfold scanLexeme at h
  split at h
  · next hw =>
    cases h
    exact .word rfl hw rfl
  split at h
  · next hd =>
    cases h
    exact .number rfl hd rfl
  split at h
  · next hq =>
    simp only [Bool.or_eq_true, decide_eq_true_eq] at hq
    cases hread : Literal.readString c offset (offset + 1) r with
    | error e => simp [hread, bind, Except.bind] at h
    | ok p =>
      simp only [hread, bind, Except.bind, pure, Except.pure] at h
      cases h
      exact .string rfl hq hread rfl rfl
  split at h
  · next hc =>
    cases hread : Literal.readTemplate (offset + 1) (offset + 1) r with
    | error e => simp [hread, bind, Except.bind] at h
    | ok p =>
      simp only [hread, bind, Except.bind, pure, Except.pure] at h
      split at h <;> cases h <;> exact .template rfl (.inl hc) hread rfl
  split at h
  · next hc =>
    simp only [Bool.and_eq_true, decide_eq_true_eq] at hc
    cases hread : Literal.readTemplate (offset + 1) (offset + 1) r with
    | error e => simp [hread, bind, Except.bind] at h
    | ok p =>
      simp only [hread, bind, Except.bind, pure, Except.pure] at h
      split at h <;> cases h <;> exact .template rfl (.inr hc.1) hread rfl
  · exact scanPunct_spells h

theorem continuesWord_of_startsWord (h : startsWord c = true) : continuesWord c = true := by
  unfold startsWord at h
  rw [continuesWord, h, Bool.true_or]

theorem numberLength_pos (h : (c.isDigit || (c = '.' && r.head?.any Char.isDigit)) = true) :
    0 < Literal.numberLength (c :: r) := by
  unfold Literal.numberLength
  split
  · omega
  · simp only [Bool.or_eq_true, Bool.and_eq_true, decide_eq_true_eq] at h
    rcases h with h | ⟨rfl, -⟩
    · have hwhole : 0 < ((c :: r).takeWhile Literal.isDigitOrGap).length := by
        simp [Literal.isDigitOrGap, h]
      dsimp only
      omega
    · have hdot : ('.' :: r).takeWhile Literal.isDigitOrGap = [] := by
        simp [show Literal.isDigitOrGap '.' = false by decide]
      rw [hdot]
      change 0 < 0 + (1 + _) + _ + _
      omega

theorem Lexeme.Spells.size_pos (h : l.Spells c r) : 0 < l.size := by
  cases h with
  | word _ hc hsize => simp [hsize, continuesWord_of_startsWord hc]
  | number _ hc hsize => exact hsize ▸ numberLength_pos hc
  | string _ _ _ hsize _ | template _ _ _ hsize => omega
  | @punct p _ _ hsize =>
    obtain ⟨d, s, hd, -⟩ := Punct.text_eq_cons p
    rw [hsize, ← String.length_toList, hd]
    exact Nat.succ_pos _

theorem Lexeme.Spells.split (h : l.Spells c r) :
    c :: r = (c :: r).take l.size ++ r.drop (l.size - 1) := by
  obtain ⟨k, hk⟩ := Nat.exists_eq_succ_of_ne_zero h.size_pos.ne'
  rw [hk]
  simp

theorem scanFrom_cons_ok {newline : Bool} {tokens : List Token}
    (h : scanFrom depths newline offset (c :: r) = .ok tokens) :
    (∃ n feed, scanTrivia offset c r = .ok (some (n, feed)) ∧
      scanFrom depths (newline || feed) (offset + Text.byteLength (c :: r.take n)) (r.drop n) =
        .ok tokens) ∨
    ∃ l rest, scanLexeme depths offset c r = .ok l ∧
      scanFrom l.depths false (ofLexeme l newline offset (c :: r)).stop (r.drop (l.size - 1)) =
        .ok rest ∧
      tokens = ofLexeme l newline offset (c :: r) :: rest := by
  rw [scanFrom] at h
  cases ht : scanTrivia offset c r with
  | error e => simp [ht, bind, Except.bind] at h
  | ok trivia =>
    simp only [ht, bind, Except.bind] at h
    cases trivia with
    | some p => exact .inl ⟨p.1, p.2, rfl, h⟩
    | none =>
      simp only at h
      cases hl : scanLexeme depths offset c r with
      | error e => simp [hl] at h
      | ok l =>
        simp only [hl] at h
        split at h
        · cases h
        · next rest hrest =>
          cases h
          exact .inr ⟨l, rest, rfl, hrest, rfl⟩

theorem IsRead.place {before rest : List Char} {t : Token} (h : IsRead before rest t) :
    t.start = Text.byteLength before ∧
      ∃ after, rest = t.text.toList ++ after ∧
        t.stop = Text.byteLength (before ++ t.text.toList) := by
  cases h with
  | eof => exact ⟨rfl, [], rfl, by simp [eofAt]⟩
  | @lexeme c r _ _ l h =>
    refine ⟨rfl, (c :: r).drop l.size, ?_, ?_⟩
    · simp [ofLexeme, String.toList_ofList]
    · simp [ofLexeme, String.toList_ofList]

theorem scanFrom_chain {source before gap cs : List Char} {depths : List Nat} {newline : Bool}
    {offset : Nat} {tokens : List Token} (h : scanFrom depths newline offset cs = .ok tokens)
    (hg : Gap gap cs) (hs : source = before ++ gap ++ cs)
    (ho : offset = Text.byteLength (before ++ gap)) :
    (∀ t, t.stop = Text.byteLength before → (t :: tokens).IsChain (Follows source)) ∧
      ∀ u ∈ tokens, Stands source u := by
  induction hn : cs.length using Nat.strong_induction_on
    generalizing before gap cs depths newline offset tokens with
  | _ n ih =>
  subst hn ho
  cases cs with
  | nil =>
    rw [scanFrom] at h
    split at h
    · cases h
      refine ⟨fun t ht => ?_, ?_⟩
      · exact .cons_cons ⟨before, gap, [], hs, ht, hg, .eof⟩ (.singleton _)
      · exact List.forall_mem_singleton.mpr ⟨before ++ gap, [], hs, .eof⟩
    · cases h
  | cons c r =>
    obtain ⟨n, feed, ht, hrest⟩ | ⟨l, rest, hl, hrest, rfl⟩ := scanFrom_cons_ok h
    · have hsplit : c :: r = c :: r.take n ++ r.drop n := by simp
      rw [hsplit] at hg hs
      refine ih _ ?_ hrest (hg.snoc (scanTrivia_eq_some ht).1) ?_ ?_ rfl
      · simp only [List.length_drop, List.length_cons]
        omega
      · simpa using hs
      · simp only [Text.byteLength_append]
        omega
    · have hread : IsRead (before ++ gap) (c :: r) (ofLexeme l newline _ (c :: r)) := .lexeme hl
      have hsplit := (scanLexeme_spells hl).split
      have hs' : source = (before ++ gap ++ (c :: r).take l.size) ++ [] ++ r.drop (l.size - 1) := by
        rw [hs, List.append_nil, List.append_assoc _ (List.take _ _), ← hsplit]
      have hstop : (ofLexeme l newline (Text.byteLength (before ++ gap)) (c :: r)).stop =
          Text.byteLength (before ++ gap ++ (c :: r).take l.size) :=
        (Text.byteLength_append _ _).symm
      have hless : (r.drop (l.size - 1)).length < (c :: r).length := by
        simp only [List.length_drop, List.length_cons]
        omega
      obtain ⟨hchain, hstands⟩ := ih _ hless hrest .nil hs' (by rw [hstop, List.append_nil]) rfl
      refine ⟨fun t ht => ?_, List.forall_mem_cons.mpr ⟨⟨_, _, hs, hread⟩, hstands⟩⟩
      exact .cons_cons ⟨before, gap, _, hs, ht, hg, hread⟩ (hchain _ hstop)

theorem getLast?_scanFrom {cs : List Char} {newline : Bool} {tokens : List Token}
    (h : scanFrom depths newline offset cs = .ok tokens) :
    tokens.getLast? = some (eofAt (offset + Text.byteLength cs)) := by
  induction hn : cs.length using Nat.strong_induction_on
    generalizing cs depths newline offset tokens with
  | _ n ih =>
  subst hn
  cases cs with
  | nil =>
    rw [scanFrom] at h
    split at h <;> cases h
    rfl
  | cons c r =>
    obtain ⟨n, feed, -, hrest⟩ | ⟨l, rest, hl, hrest, rfl⟩ := scanFrom_cons_ok h
    · rw [ih _ (by simp only [List.length_drop, List.length_cons]; omega) hrest rfl, Nat.add_assoc,
        ← Text.byteLength_append, List.cons_append, List.take_append_drop]
    · have hbytes := congrArg Text.byteLength (scanLexeme_spells hl).split
      rw [Text.byteLength_append] at hbytes
      rw [List.getLast?_cons, hbytes,
        ih _ (by simp only [List.length_drop, List.length_cons]; omega) hrest rfl]
      simp [ofLexeme, Nat.add_assoc]

end

/-- The tokens of a source stand in it one after the other. -/
theorem scan_chain {source : String} {tokens : List Token} (h : scan source = .ok tokens) :
    tokens.IsChain (Follows source.toList) ∧ ∀ t ∈ tokens, Stands source.toList t := by
  have hs : source.toList = [] ++ [] ++ source.toList := rfl
  obtain ⟨hchain, hstands⟩ := scanFrom_chain h .nil hs rfl
  exact ⟨List.isChain_of_isChain_cons (hchain (eofAt 0) rfl), hstands⟩

variable {source before rest : List Char} {t u : Token} {c d : Char}

theorem Stands.isRead (h : Stands source t) (hs : source = before ++ rest)
    (ht : t.start = Text.byteLength before) : IsRead before rest t := by
  obtain ⟨before', rest', hs', hread⟩ := h
  obtain ⟨rfl, rfl⟩ := Text.append_inj_of_byteLength (hs ▸ hs') (ht ▸ hread.place.1)
  exact hread

/-- The text before the end of a token ends with the text of the token. -/
theorem Stands.eq_append_text (h : Stands source t) (hs : source = before ++ rest)
    (ht : t.stop = Text.byteLength before) :
    ∃ start, before = start ++ t.text.toList ∧ t.start = Text.byteLength start := by
  obtain ⟨start, rest', hs', hread⟩ := h
  obtain ⟨hstart, after, rfl, hstop⟩ := hread.place
  rw [← List.append_assoc] at hs'
  obtain ⟨rfl, -⟩ := Text.append_inj_of_byteLength (hs ▸ hs') (ht ▸ hstop)
  exact ⟨start, rfl, hstart⟩

theorem IsRead.spells (h : IsRead before (c :: rest) t) :
    ∃ l : Lexeme, l.Spells c rest ∧ t.kind = l.kind ∧
      t.text.toList = (c :: rest).take l.size ∧
      t.value.toList = l.value.getD ((c :: rest).take l.size) := by
  cases h with
  | lexeme h =>
    exact ⟨_, scanLexeme_spells h, rfl, String.toList_ofList, String.toList_ofList⟩

theorem IsRead.text_of_punct (h : IsRead before rest t) {p : Punct} (hk : t.kind = .punct p) :
    t.text = p.text := by
  cases rest with
  | nil =>
    cases h
    cases hk
  | cons c rest =>
    obtain ⟨l, hl, hkind, htext, -⟩ := h.spells
    rw [hk] at hkind
    cases hl with
    | word hk' | number hk' | string hk' | template hk' => simp [← hkind] at hk'
    | @punct q hk' hp hsize =>
      obtain rfl : p = q := by simpa [← hkind] using hk'
      have hfound : p.text.toList.isPrefixOf (c :: rest) = true :=
        List.find?_some (p := fun p : Punct => p.text.toList.isPrefixOf (c :: rest)) hp
      have hprefix := List.isPrefixOf_iff_prefix.mp hfound
      rw [hsize, ← String.length_toList, ← List.prefix_iff_eq_take.mp hprefix] at htext
      exact String.toList_inj.mp htext

theorem IsRead.head_of_punct (h : IsRead before (c :: rest) t) {p : Punct}
    (hk : t.kind = .punct p) : p.text.toList.head? = some c := by
  obtain ⟨-, after, hsplit, -⟩ := h.place
  rw [h.text_of_punct hk] at hsplit
  obtain ⟨e, r, hr, -⟩ := p.text_eq_cons
  rw [hr, List.cons_append, List.cons.injEq] at hsplit
  rw [hr, hsplit.1, List.head?_cons]

theorem IsRead.startsWord_of_word (h : IsRead before rest t) (hk : t.kind = .word) :
    ∃ c r, rest = c :: r ∧ startsWord c = true := by
  cases rest with
  | nil =>
    cases h
    cases hk
  | cons c r =>
    obtain ⟨l, hl, hkind, -⟩ := h.spells
    rw [hk] at hkind
    cases hl with
    | word _ hc => exact ⟨c, r, rfl, hc⟩
    | number hk' | string hk' | template hk' | punct hk' => simp [← hkind] at hk'

theorem IsRead.kind_of_semicolon (h : IsRead before (';' :: rest) t) :
    t.kind = .punct .semicolon := by
  obtain ⟨l, hl, hkind, -⟩ := h.spells
  cases hl with
  | word _ hc => exact absurd hc (by decide)
  | number _ hc => simp at hc
  | string _ hc => simp at hc
  | template _ hc => simp at hc
  | @punct p hk hp _ =>
    have hfind : Punct.ofText? (';' :: rest) = some .semicolon := rfl
    rw [hkind, hk, ← Option.some.inj (hp.symm.trans hfind)]

def isPlain (c : Char) : Bool :=
  c ≠ '"' && c ≠ '\\' && c ≠ '\n'

theorem readString_plain {text : List Char} (h : ∀ c ∈ text, isPlain c = true) (start offset : Nat)
    (rest : List Char) :
    Literal.readString '"' start offset (text ++ '"' :: rest) = .ok (text, text.length + 1) := by
  induction text generalizing offset with
  | nil =>
    rw [List.nil_append, Literal.readString]
    rfl
  | cons c text ih =>
    rw [List.forall_mem_cons] at h
    have hc := h.1
    simp only [isPlain, Bool.and_eq_true, decide_eq_true_eq, and_assoc] at hc
    rw [List.cons_append, Literal.readString, if_neg hc.2.2, if_neg hc.1, if_neg hc.2.1, ih h.2]
    simp [bind, Except.bind, pure, Except.pure, Nat.add_comm]

theorem IsRead.text_of_string {text : List Char}
    (h : IsRead before ('"' :: (text ++ '"' :: rest)) t) (hk : t.kind = .string)
    (htext : ∀ c ∈ text, isPlain c = true) : t.text.toList = '"' :: text ++ ['"'] := by
  obtain ⟨l, hl, hkind, hread, -⟩ := h.spells
  rw [hk] at hkind
  cases hl with
  | word hk' | number hk' | template hk' | punct hk' => simp [← hkind] at hk'
  | string _ _ hstring hsize _ =>
    rw [readString_plain htext] at hstring
    cases hstring
    rw [hread, hsize, List.take_succ_cons, List.take_append,
      List.take_of_length_le (Nat.le_succ text.length)]
    simp

theorem Follows.isRead_of_solid (h : Follows source t u) (hs : source = before ++ c :: rest)
    (ht : t.stop = Text.byteLength before) (hc : Text.isSolid c = true) :
    IsRead before (c :: rest) u := by
  obtain ⟨before', gap, rest', hs', ht', hgap, hread⟩ := h
  rw [hs, List.append_assoc] at hs'
  obtain ⟨rfl, hrest⟩ := Text.append_inj_of_byteLength hs' (ht ▸ ht')
  obtain rfl := hgap.eq_nil_of_head hc (by rw [← hrest, List.head?_cons])
  rw [hrest]
  simpa using hread

/-- The token before a word that stands right after a visible character ends there. -/
theorem Follows.stop_of_solid (h : Follows source t u) (hs : source = before ++ [d] ++ rest)
    (hu : u.kind = .word) (hstart : u.start = Text.byteLength (before ++ [d]))
    (hd : Text.isSolid d = true) : t.stop = Text.byteLength (before ++ [d]) := by
  obtain ⟨before', gap, rest', hs', ht, hgap, hread⟩ := h
  obtain ⟨heq, rfl⟩ := Text.append_inj_of_byteLength (hs ▸ hs') (hstart ▸ hread.place.1)
  obtain ⟨c, r, rfl, hc⟩ := hread.startsWord_of_word hu
  obtain rfl := hgap.eq_nil_of_last (by rintro rfl; exact absurd hc (by decide)) hd heq.symm
  rw [ht, heq, List.append_nil]

theorem Follows.stop_of_blank (h : Follows source t u)
    (hs : source = before ++ [d] ++ [' '] ++ rest) (hu : u.kind = .word)
    (hstart : u.start = Text.byteLength (before ++ [d] ++ [' '])) (hd : Text.isSolid d = true) :
    t.stop = Text.byteLength (before ++ [d]) ∨
      t.stop = Text.byteLength (before ++ [d] ++ [' ']) := by
  obtain ⟨before', gap, rest', hs', ht, hgap, hread⟩ := h
  obtain ⟨heq, rfl⟩ := Text.append_inj_of_byteLength (hs ▸ hs') (hstart ▸ hread.place.1)
  obtain ⟨c, r, rfl, hc⟩ := hread.startsWord_of_word hu
  have hfeed : c ≠ '\n' := by
    rintro rfl
    exact absurd hc (by decide)
  obtain rfl | rfl := hgap.eq_singleton_of_last hfeed (by decide) (by decide) hd heq.symm
  · exact .inr (by rw [ht, heq, List.append_nil])
  · exact .inl (by rw [ht, List.append_cancel_right heq])

end Token

end Quasiquote
