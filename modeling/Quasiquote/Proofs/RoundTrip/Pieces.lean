import Quasiquote.Proofs.EmittedText

namespace Quasiquote

namespace Print

variable (depth : Nat) (mark : Mark)

theorem text_name (name : String) : text depth (.mk .identifier mark [.text name]) = name := by
  rw [text]
  rfl

theorem text_number (digits : String) :
    text depth (.mk .numericLiteral mark [.text digits]) = digits := by
  rw [text]
  rfl

theorem text_string (value : String) (single : Bool) :
    text depth (.mk .stringLiteral mark [.text value, .flag single]) =
      String.ofList (Literal.quote value.toList (if single then '\'' else '"')) := by
  rw [text]
  rfl

end Print

def Punct.joiners : List Char :=
  ['=', '>', '&', '|', '?', '.', '/', '*']

theorem Punct.mem_all (p : Punct) : p ∈ all := by
  cases p <;> decide

/-- An operator ends before a character that does not continue it. -/
theorem Punct.ofText?_append (p : Punct) {c : Char}
    (hc : ∀ q ∈ all, ¬p.text.toList ++ [c] <+: q.text.toList) (rest : List Char) :
    ofText? (p.text.toList ++ c :: rest) = some p := by
  have htable : ∀ p ∈ all, ∀ q ∈ all.takeWhile (· ≠ p), ¬q.text.toList <+: p.text.toList := by
    decide +kernel
  have hsplit : all = all.takeWhile (· ≠ p) ++ p :: (all.dropWhile (· ≠ p)).tail := by
    cases p <;> decide
  refine List.find?_eq_some_iff_append.mpr ⟨by simp, _, _, hsplit, fun q hq => ?_⟩
  have hshorter := htable p p.mem_all q hq
  simp only [Bool.not_eq_true', Bool.eq_false_iff, ne_eq, List.isPrefixOf_iff_prefix]
  intro hprefix
  rcases List.prefix_or_prefix_of_prefix hprefix (List.prefix_append p.text.toList (c :: rest)) with
    h | ⟨s, hs⟩
  · exact hshorter h
  · rw [← hs, List.prefix_append_right_inj] at hprefix
    cases s with
    | nil => exact hshorter (by simp [← hs])
    | cons x s =>
      obtain ⟨rfl, -⟩ := List.cons_prefix_cons.mp hprefix
      exact hc q q.mem_all ⟨s, by simp [← hs]⟩

theorem Punct.ends_cons {p : Punct} {c : Char} (hc : c ∉ joiners)
    (hdot : p = .dot → c.isDigit = false) (rest : List Char) : p.Ends (c :: rest) := by
  have htable : ∀ p ∈ all, ∀ q ∈ all, p.text.toList <+: q.text.toList →
      (q.text.toList.drop p.text.toList.length).head?.all (· ∈ joiners) = true := by
    decide +kernel
  refine ⟨p.ofText?_append (fun q hq hprefix => ?_) rest, fun hp d hd => ?_, fun hp d hd => ?_⟩
  · have hjoins := htable p p.mem_all q hq ((List.prefix_append ..).trans hprefix)
    obtain ⟨s, hs⟩ := hprefix
    exact hc (by simpa [← hs] using hjoins)
  · obtain rfl : c = d := by simpa using hd
    exact hdot hp
  · obtain rfl : c = d := by simpa using hd
    constructor <;> rintro rfl <;> exact hc (by decide)

def delimiters : List Char :=
  [' ', ';', ',', '(', ')', '[', ']', '>']

def Delimited (rest : List Char) : Prop :=
  ∃ c r, rest = c :: r ∧ c ∈ delimiters

theorem Delimited.head? {rest : List Char} (h : Delimited rest) :
    ∀ c ∈ rest.head?, Token.continuesWord c = false ∧ c ≠ '.' := by
  obtain ⟨c, r, rfl, hc⟩ := h
  have hall : delimiters.all (fun d => !Token.continuesWord d && d ≠ '.') = true := by decide
  rintro _ ⟨⟩
  simpa using List.all_eq_true.mp hall c hc

namespace Piece

def Leads (ps : List Piece) : Prop :=
  ∃ c r, allChars ps = c :: r ∧ c ∉ Punct.joiners

theorem Leads.append {ps : List Piece} (h : Leads ps) (qs : List Piece) : Leads (ps ++ qs) := by
  obtain ⟨c, r, hps, hc⟩ := h
  exact ⟨c, r ++ allChars qs, by simp [hps], hc⟩

theorem leads_intercalate {ps sp : List Piece} (h : Leads ps) (pss : List (List Piece)) :
    Leads (sp.intercalate (ps :: pss)) := by
  cases pss with
  | nil => rwa [List.intercalate_singleton]
  | cons qs pss =>
    rw [List.intercalate_cons_cons, List.append_assoc]
    exact h.append _

theorem Leads.spaced_punct {ps : List Piece} (h : Leads ps) {p : Punct} (hp : p ≠ .dot)
    (rest : List Char) : p.Ends (allChars ps ++ rest) := by
  obtain ⟨c, r, hps, hc⟩ := h
  rw [hps, List.cons_append]
  exact Punct.ends_cons hc (fun h => absurd h hp) _

theorem leads_word {text : String} (h : IsWord text) (ps : List Piece) :
    Leads (.word text :: ps) := by
  obtain ⟨c, r, htext, hc, -⟩ := h
  refine ⟨c, r ++ allChars ps, by simp [chars, htext], fun hmem => ?_⟩
  have hall : Punct.joiners.all (fun d => !Token.startsWord d) = true := by decide
  simpa [hc] using List.all_eq_true.mp hall c hmem

theorem leads_number {digits : String} (h : IsNumber digits) (ps : List Piece) :
    Leads (.number digits :: ps) := by
  obtain ⟨c, r, htext, hdigits⟩ := h
  refine ⟨c, r ++ allChars ps, by simp [chars, htext], fun hmem => ?_⟩
  have hall : Punct.joiners.all (fun d => !d.isDigit) = true := by decide
  simpa [hdigits c (by simp)] using List.all_eq_true.mp hall c hmem

theorem leads_string (value : String) (single : Bool) (ps : List Piece) :
    Leads (.string value single :: ps) := by
  cases single <;> exact ⟨_, _, rfl, by decide⟩

theorem spaced_word {text : String} (h : IsWord text) {rest : List Char} (hrest : Delimited rest) :
    Spaced [.word text] rest :=
  ⟨⟨h, fun c hc => (hrest.head? c hc).1⟩, trivial⟩

theorem spaced_number {digits : String} (h : IsNumber digits) {rest : List Char}
    (hrest : Delimited rest) : Spaced [.number digits] rest :=
  ⟨⟨h, hrest.head?⟩, trivial⟩

/-- Pieces in brackets end wherever they stand. -/
theorem spaced_enclosed {ps : List Piece} {open_ close : Punct}
    (h : open_ = .parenOpen ∧ close = .parenClose ∨ open_ = .bracketOpen ∧ close = .bracketClose)
    (hps : ∀ rest, Delimited rest → Spaced ps rest) (rest : List Char) :
    Spaced (.punct open_ :: (ps ++ [.punct close])) rest := by
  rcases h with ⟨rfl, rfl⟩ | ⟨rfl, rfl⟩
  · exact ⟨Punct.ends_of_mem (by simp) _, (spaced_append_iff _ _ _).mpr
      ⟨hps _ ⟨')', _, rfl, by decide⟩, Punct.ends_of_mem (by simp) _, trivial⟩⟩
  · exact ⟨Punct.ends_of_mem (by simp) _, (spaced_append_iff _ _ _).mpr
      ⟨hps _ ⟨']', _, rfl, by decide⟩, Punct.ends_of_mem (by simp) _, trivial⟩⟩

variable {sp : List Piece} {pss : List (List Piece)}

theorem forall_mem_intercalate {P : Piece → Prop} (hsep : ∀ p ∈ sp, P p)
    (h : ∀ ps ∈ pss, ∀ p ∈ ps, P p) : ∀ p ∈ sp.intercalate pss, P p := by
  induction pss with
  | nil => simp
  | cons ps pss ih =>
    obtain ⟨hps, hpss⟩ := List.forall_mem_cons.mp h
    cases pss with
    | nil => simpa using hps
    | cons qs pss =>
      rw [List.intercalate_cons_cons]
      simp only [List.forall_mem_append]
      exact ⟨⟨hps, hsep⟩, ih hpss⟩

structure Written (text : Nat → String) (P : List Token → Prop) (ps : List Piece) : Prop where
  prints (depth : Nat) : (text depth).toList = allChars ps
  spaced {rest : List Char} (h : Delimited rest) : Spaced ps rest
  reads {ts : List Token} (h : Spelled ps ts) : P ts

section

variable {f : Nat → Node → String} {P : List Token → Node → Prop} {es : List Node}

theorem Written.forall_right {Q : List Piece → Prop}
    (h : List.Forall₂ (fun e ps => Written (f · e) (P · e) ps) es pss)
    (hQ : ∀ e ps, Written (f · e) (P · e) ps → Q ps) : ∀ ps ∈ pss, Q ps := by
  induction h with
  | nil => simp
  | cons he _ ih => exact List.forall_mem_cons.mpr ⟨hQ _ _ he, ih⟩

/-- Texts with a separator between them, which is read as the one token `mark`. -/
theorem Written.intercalate {sep : String} {mark : Punct} (hsep : sep.toList = allChars sp)
    (hspaced : ∀ rest, Spaced sp rest) (hdelimited : ∀ rest, Delimited (allChars sp ++ rest))
    (hmark : ∀ us, Spelled sp us → ∃ start stop, us = [.punct mark start stop])
    (h : List.Forall₂ (fun e ps => Written (f · e) (P · e) ps) es pss) :
    Written (fun depth => sep.intercalate (es.map (f depth)))
      (fun ts => ∃ tss, List.Forall₂ P tss es ∧ Token.Joined mark tss ts)
      (sp.intercalate pss) where
  prints depth := by
    refine toList_intercalate hsep ?_
    rw [List.forall₂_map_left_iff]
    exact h.imp fun e ps he => he.prints depth
  spaced hrest := spaced_intercalate hspaced hdelimited
    (Written.forall_right h fun e ps he rest => he.spaced) hrest
  reads hts := by
    obtain ⟨tss, htss, hjoined⟩ := hts.exists_joined hmark
    have heach : Parser.ReadsEach P es pss :=
      h.imp fun e ps he ts (hts : Spelled ps ts) => he.reads hts
    exact ⟨tss, heach.of_spelled htss, hjoined⟩

theorem Written.commas (h : List.Forall₂ (fun e ps => Written (f · e) (P · e) ps) es pss) :
    Written (fun depth => Print.commas (es.map (f depth)))
      (fun ts => ∃ tss, List.Forall₂ P tss es ∧ Token.Joined .comma tss ts) (commas pss) := by
  refine .intercalate rfl spaced_commaMark (fun _ => ⟨',', _, rfl, by decide⟩) (fun us hus => ?_) h
  obtain ⟨start, stop, vs, rfl, hvs⟩ := hus.exists_of_punct
  obtain rfl := hvs.of_blank.eq_nil
  exact ⟨start, stop, rfl⟩

end

/-- Tokens of pieces with blanks between them. -/
theorem Spelled.exists_flatten {ts : List Token} (h : Spelled ([.blank].intercalate pss) ts) :
    ∃ tss, List.Forall₂ Spelled pss tss ∧ ts = tss.flatten := by
  induction pss generalizing ts with
  | nil => exact ⟨[], .nil, h.eq_nil⟩
  | cons ps pss ih =>
    cases pss with
    | nil =>
      rw [List.intercalate_singleton] at h
      exact ⟨[ts], .cons h .nil, by simp⟩
    | cons qs pss =>
      rw [List.intercalate_cons_cons, List.append_assoc] at h
      obtain ⟨us, vs, rfl, hus, hvs⟩ := h.exists_of_append
      obtain ⟨tss, htss, rfl⟩ := ih hvs.of_blank
      exact ⟨us :: tss, .cons hus htss, rfl⟩

theorem Spelled.kind_ne {ps : List Piece} {ts : List Token} (h : Spelled ps ts) {p : Punct}
    (hp : .punct p ∉ ps) : ∀ t ∈ ts, t.kind ≠ .punct p := by
  induction h with
  | nil => simp
  | blank _ ih => exact ih (List.not_mem_of_not_mem_cons hp)
  | word _ _ _ _ ih | number _ _ _ _ ih | string _ _ _ _ _ ih =>
    exact List.forall_mem_cons.mpr ⟨by simp, ih (List.not_mem_of_not_mem_cons hp)⟩
  | punct q _ _ _ ih =>
    refine List.forall_mem_cons.mpr ⟨?_, ih (List.not_mem_of_not_mem_cons hp)⟩
    rintro hk
    obtain rfl : q = p := by simpa using hk
    simp at hp

theorem Spelled.newlineBefore_eq_false {ps : List Piece} {ts : List Token} (h : Spelled ps ts) :
    ∀ t ∈ ts, t.newlineBefore = false := by
  induction h with
  | nil => simp
  | blank _ ih => exact ih
  | word _ _ _ _ ih | number _ _ _ _ ih | string _ _ _ _ _ ih | punct _ _ _ _ ih =>
    exact List.forall_mem_cons.mpr ⟨rfl, ih⟩

end Piece

/-- A text of one statement is parsed to that statement. -/
theorem parse_of_statement {source : String} {ps : List Piece} {Q : Node → Prop}
    (hsource : source.toList = Piece.allChars ps) (hspaced : Piece.Spaced ps [])
    (h : ∀ ts stop, Piece.Spelled ps ts → ∃ t us statement last', ts = t :: us ∧ t.kind ≠ .eof ∧
      (Grammar.toDepth (ts.length + 2)).statement ⟨0, ts ++ [Token.eofAt stop]⟩ =
        .done statement ⟨last', [Token.eofAt stop]⟩ ∧ Q statement) :
    ∃ tree statement, parse source = .ok tree ∧ tree.list .statements = [statement] ∧
      Q statement := by
  obtain ⟨ts, stop, hts, hscan⟩ := Token.scan_allChars hspaced
  obtain ⟨t, us, statement, last', rfl, ht, hread, hq⟩ := h ts stop hts
  obtain ⟨tree, c, hlist, hmodule⟩ := Grammar.module_of_statement ht hread
  refine ⟨tree, statement, ?_, hlist, hq⟩
  rw [← hsource, String.ofList_toList] at hscan
  have htokens : moduleOfTokens ((t :: us) ++ [Token.eofAt stop]) = .done tree c := by
    rw [moduleOfTokens]
    simpa using hmodule
  rw [parse, hscan]
  simp only [htokens]

end Quasiquote
