import Quasiquote.Grammar.Module
import Quasiquote.Proofs.Conformance
import Quasiquote.Proofs.Scanning
import Quasiquote.Tree.Build

namespace Quasiquote

def Token.Closes (t : Token) : Prop :=
  t.kind ∈ [.punct .comma, .punct .parenClose, .punct .bracketClose, .punct .semicolon]

theorem Token.Closes.ne_punct {t : Token} (h : t.Closes) {p : Punct}
    (hp : p ∉ [.comma, .parenClose, .bracketClose, .semicolon]) : t.kind ≠ .punct p := by
  rintro hk
  simp only [Token.Closes, hk, List.mem_cons, List.not_mem_nil, or_false,
    TokenKind.punct.injEq] at h
  exact hp (by simpa using h)

def Token.BeginsElement (t : Token) : Prop :=
  t.kind ∉ [.punct .ellipsis, .punct .parenClose, .punct .bracketClose, .punct .braceOpen, .eof]

namespace Parser

variable {α β : Type} {last : Nat} {t : Token} {rest : List Token} {c c' : Cursor}

@[simp] theorem bind_apply (p : Parser α) (f : α → Parser β) (c : Cursor) : (p >>= f) c =
    match p c with
    | .done a c' => f a c'
    | .rejected e => .rejected e
    | .starved => .starved := by
  cases h : p c <;> simp [bind, h]

@[simp] theorem pure_apply (a : α) (c : Cursor) : (pure a : Parser α) c = .done a c := rfl

@[simp] theorem map_apply (f : α → β) (p : Parser α) (c : Cursor) : (f <$> p) c =
    match p c with
    | .done a c' => .done (f a) c'
    | .rejected e => .rejected e
    | .starved => .starved := by
  change (p >>= fun a => pure (f a)) c = _
  cases h : p c <;> simp [h]

@[simp] theorem current_cons : current ⟨last, t :: rest⟩ = .done t ⟨last, t :: rest⟩ := rfl

@[simp] theorem here_cons : here ⟨last, t :: rest⟩ = .done t.start ⟨last, t :: rest⟩ := rfl

@[simp] theorem next?_cons : next? ⟨last, t :: rest⟩ = .done rest.head? ⟨last, t :: rest⟩ := rfl

@[simp] theorem atPunct_cons (p : Punct) :
    atPunct p ⟨last, t :: rest⟩ = .done (t.kind = .punct p) ⟨last, t :: rest⟩ := rfl

@[simp] theorem atWord_cons (word : String) :
    atWord word ⟨last, t :: rest⟩ = .done (t.isWord word) ⟨last, t :: rest⟩ := rfl

@[simp] theorem atEof_cons :
    atEof ⟨last, t :: rest⟩ = .done (t.kind = .eof) ⟨last, t :: rest⟩ := rfl

theorem advance_cons (h : t.kind ≠ .eof) :
    advance ⟨last, t :: rest⟩ = .done t ⟨t.stop, rest⟩ := by
  simp [advance, Cursor.advance, Cursor.current, h]

@[simp] theorem eat_cons (p : Punct) : eat p ⟨last, t :: rest⟩ =
    if t.kind = .punct p then .done true ⟨t.stop, rest⟩ else .done false ⟨last, t :: rest⟩ := by
  by_cases h : t.kind = .punct p <;> simp [eat, Cursor.current, Cursor.advance, h]

@[simp] theorem finish_apply (kind : Kind) (start : Nat) (fields : List Field) (c : Cursor) :
    finish kind start fields c =
      .done (.mk kind { span := some ⟨start, max c.last start⟩ } fields) c := rfl

theorem expect_punct (p : Punct) (start stop : Nat) (context : String) :
    expect p context ⟨last, .punct p start stop :: rest⟩ = .done () ⟨stop, rest⟩ := by
  simp [expect]

theorem announced_none {mark : Punct} (p : Parser Node) (h : t.kind ≠ .punct mark) :
    announced mark p ⟨last, t :: rest⟩ = .done none ⟨last, t :: rest⟩ := by
  simp [announced, h]

theorem identifier_word {word : String} (start stop : Nat) (h : isReserved word = false)
    (context : String) : identifier context ⟨last, .word word start stop :: rest⟩ =
      .done (.mk .identifier { span := some ⟨start, max stop start⟩ } [.text word])
        ⟨stop, rest⟩ := by
  simp [identifier, h, advance_cons]

theorem identifierName_word (word : String) (start stop : Nat) (context : String) :
    identifierName context ⟨last, .word word start stop :: rest⟩ =
      .done (.mk .identifier { span := some ⟨start, max stop start⟩ } [.text word])
        ⟨stop, rest⟩ := by
  simp [identifierName, advance_cons]

theorem loopWithin_more {step : α → Parser (α × Bool)} {a a' : α} (bound : Nat)
    (h : step a c = .done (a', true) c') :
    Reader.loopWithin step (bound + 1) a c = Reader.loopWithin step bound a' c' := by
  rw [Reader.loopWithin]
  exact (bind_apply _ _ c).trans (by rw [h]; rfl)

theorem loopWithin_stop {step : α → Parser (α × Bool)} {a a' : α} (bound : Nat)
    (h : step a c = .done (a', false) c') :
    Reader.loopWithin step (bound + 1) a c = .done a' c' := by
  rw [Reader.loopWithin]
  exact (bind_apply _ _ c).trans (by rw [h]; rfl)

theorem loop_stop {step : α → Parser (α × Bool)} {a a' : α}
    (h : step a c = .done (a', false) c') : loop a step c = .done a' c' :=
  loopWithin_stop c.rest.length h

theorem loopWithin_mono {step : α → Parser (α × Bool)} {bound bound' : Nat} {a a' : α}
    (h : Reader.loopWithin step bound a c = .done a' c') (hle : bound ≤ bound') :
    Reader.loopWithin step bound' a c = .done a' c' := by
  induction bound generalizing bound' a c with
  | zero => cases h
  | succ bound ih =>
    obtain ⟨b, rfl⟩ : ∃ b, bound' = b + 1 := ⟨bound' - 1, by omega⟩
    rw [Reader.loopWithin, bind_apply] at h ⊢
    cases hstep : step a c with
    | rejected e => simp [hstep] at h
    | starved => simp [hstep] at h
    | done r d =>
      obtain ⟨a₁, more⟩ := r
      rw [hstep] at h
      cases more with
      | false => exact h
      | true => exact ih h (Nat.le_of_succ_le_succ hle)

/-- One round of a loop, and then the loop again. -/
theorem loop_more {step : α → Parser (α × Bool)} {a a₁ a' : α} {d : Cursor}
    (h : step a c = .done (a₁, true) d) (hlt : d.rest.length < c.rest.length)
    (hrest : loop a₁ step d = .done a' c') : loop a step c = .done a' c' := by
  rw [loop, loopWithin_more _ h]
  exact loopWithin_mono hrest hlt

inductive Steps (step : α → Parser (α × Bool)) : α → Cursor → α → Cursor → Prop
  | refl (a : α) (c : Cursor) : Steps step a c a c
  | tail {a a₁ a₂ : α} {c d e : Cursor} (h : Steps step a c a₁ d)
    (hstep : step a₁ d = .done (a₂, true) e) (hlt : e.rest.length < d.rest.length) :
    Steps step a c a₂ e

theorem Steps.loop {step : α → Parser (α × Bool)} {a a₁ a' : α} {d : Cursor}
    (h : Steps step a c a₁ d) (hrest : Parser.loop a₁ step d = .done a' c') :
    Parser.loop a step c = .done a' c' := by
  induction h with
  | refl => exact hrest
  | tail _ hstep hlt ih => exact ih (loop_more hstep hlt hrest)

/-- A parser takes some tokens for something that `Q` holds of, whatever it has read before, and
leaves the rest. -/
def Yields (p : Parser α) (ts : List Token) (Q : α → Prop) (rest : List Token) : Prop :=
  ∀ last, ∃ a last', p ⟨last, ts ++ rest⟩ = .done a ⟨last', rest⟩ ∧ Q a

abbrev Reads (p : Parser Node) (ts : List Token) (e : Node) (rest : List Token) : Prop :=
  Yields p ts (fun n => n.bare = e.bare) rest

section

variable {p : Parser α} {f : α → Parser β} {ts us : List Token} {Q : α → Prop} {R : β → Prop}
  {a b : Nat}

/-- Two steps read their tokens one after the other. -/
theorem Yields.bind (hp : Yields p ts Q (us ++ rest))
    (hf : ∀ x, Q x → Yields (f x) us R rest) : Yields (p >>= f) (ts ++ us) R rest := by
  intro last
  obtain ⟨x, last₁, hread, hx⟩ := hp last
  obtain ⟨y, last', hread', hy⟩ := hf x hx last₁
  refine ⟨y, last', ?_, hy⟩
  rw [List.append_assoc, bind_apply, hread]
  exact hread'

theorem Yields.after_here {f : Nat → Parser β} (hf : ∀ start, Yields (f start) ts R rest) :
    Yields (here >>= f) ts R rest := fun last => hf _ last

theorem yields_finish {kind : Kind} {start : Nat} {fields : List Field} {e : Node}
    (h : (Node.plain kind (fields.map Field.bare)) = e.bare) :
    Yields (finish kind start fields) [] (fun n => n.bare = e.bare) rest :=
  fun last => ⟨_, last, rfl, (Node.bare_mk ..).trans h⟩

theorem yields_identifier {word : String} (hr : isReserved word = false) (context : String)
    (mark : Mark) : Yields (identifier context) [.word word a b]
      (fun n => n.bare = (Node.mk .identifier mark [.text word]).bare) rest := fun last =>
  ⟨_, b, identifier_word a b hr context, by simp [Node.bare_mk]⟩

theorem yields_expect (p : Punct) (context : String) :
    Yields (expect p context) [.punct p a b] (fun _ => True) rest := fun _ =>
  ⟨(), b, expect_punct p a b context, trivial⟩

end

def Lasting (C : List Token → Prop) : Prop :=
  ∀ ts t rest, C (ts ++ t :: rest) → C (t :: rest)

def commaStep (close : Punct) (atEnd : Parser Unit) (item : Parser α) (items : List α) :
    Parser (List α × Bool) := do
  if ← atPunct close then return (items, false)
  atEnd
  let x ← item
  let more ← eat .comma
  return (items ++ [x], more)

theorem commaList_eq (close : Punct) (atEnd : Parser Unit) (item : Parser α) :
    commaList close atEnd item = loop [] (commaStep close atEnd item) := rfl

/-- An item of a list: it does not begin like the end of the list, and where `C` holds it is read up
to a comma or the end of the list as something that is `R` to a tree. -/
structure YieldsItem (C : List Token → Prop) (R : α → Node → Prop) (close : Punct)
    (item : Parser α) (ts : List Token) (e : Node) : Prop where
  begins : ∃ t r, ts = t :: r ∧ t.kind ≠ .punct close ∧ t.kind ≠ .eof
  yields : ∀ t rest, t.kind = .punct .comma ∨ t.kind = .punct close → C (ts ++ t :: rest) →
    Yields item ts (R · e) (t :: rest)

def Idle (p : Parser Unit) : Prop :=
  ∀ last t rest, t.kind ≠ .eof → p ⟨last, t :: rest⟩ = .done () ⟨last, t :: rest⟩

section

variable {C : List Token → Prop} {R : α → Node → Prop} {close : Punct} {atEnd : Parser Unit}
  {item : Parser α}

theorem commaStep_item {ts : List Token} {e : Node} (hend : Idle atEnd)
    (h : YieldsItem C R close item ts e) (ht : t.kind = .punct .comma ∨ t.kind = .punct close)
    (hctx : C (ts ++ t :: rest)) (items : List α) (last : Nat) :
    ∃ a last', R a e ∧ commaStep close atEnd item items ⟨last, ts ++ t :: rest⟩ =
      if t.kind = .punct .comma then .done (items ++ [a], true) ⟨t.stop, rest⟩
      else .done (items ++ [a], false) ⟨last', t :: rest⟩ := by
  obtain ⟨first, r, rfl, hclose, heof⟩ := h.begins
  obtain ⟨a, last', hread, ha⟩ := h.yields t rest ht hctx last
  refine ⟨a, last', ha, ?_⟩
  rw [List.cons_append] at hread ⊢
  by_cases hcomma : t.kind = .punct .comma <;>
    simp [commaStep, hclose, hend _ _ _ heof, hread, hcomma]

variable {es : List Node} {tss : List (List Token)} {ts : List Token}

theorem loop_commaStep (hend : Idle atEnd) (hcomma : close ≠ .comma) (hC : Lasting C)
    (hitems : List.Forall₂ (YieldsItem C R close item) tss es) (hts : Token.Joined .comma tss ts)
    (ht : t.kind = .punct close) (hctx : C (ts ++ t :: rest)) (items : List α) (last : Nat) :
    ∃ as last', List.Forall₂ R as es ∧
      loop items (commaStep close atEnd item) ⟨last, ts ++ t :: rest⟩ =
        .done (items ++ as) ⟨last', t :: rest⟩ := by
  have hne : t.kind ≠ .punct .comma := by simp [ht, hcomma]
  induction hts generalizing es items last with
  | nil =>
    cases hitems
    refine ⟨[], last, .nil, ?_⟩
    apply loop_stop
    simp [commaStep, ht]
  | single us =>
    obtain _ | ⟨hitem, _ | _⟩ := hitems
    obtain ⟨a, last', ha, hstep⟩ := commaStep_item hend hitem (.inr ht) hctx items last
    rw [if_neg hne] at hstep
    exact ⟨[a], last', .cons ha .nil, loop_stop hstep⟩
  | @cons us u tss vs ws hu h ih =>
    cases hitems with
    | cons hitem hitems =>
      rw [List.append_assoc, List.cons_append] at hctx ⊢
      obtain ⟨a, last₁, ha, hstep⟩ := commaStep_item hend hitem (.inl hu) hctx items last
      rw [if_pos hu] at hstep
      have hctx' : C (ws ++ t :: rest) := by
        obtain ⟨v, vs', hv⟩ : ∃ v vs', ws ++ t :: rest = v :: vs' := by cases ws <;> simp
        rw [hv] at hctx ⊢
        exact hC [u] v vs' (hC us u _ hctx)
      obtain ⟨as, last', has, hloop⟩ := ih hitems hctx' (items ++ [a]) u.stop
      have hlt : (ws ++ t :: rest).length < (us ++ u :: (ws ++ t :: rest)).length := by
        simp only [List.length_append, List.length_cons]
        omega
      refine ⟨a :: as, last', .cons ha has, loop_more hstep hlt ?_⟩
      simpa using hloop

/-- A list with commas between its items is read item by item. -/
theorem commaList_yields (hend : Idle atEnd) (hcomma : close ≠ .comma) (hC : Lasting C)
    (hitems : List.Forall₂ (YieldsItem C R close item) tss es) (hts : Token.Joined .comma tss ts)
    (ht : t.kind = .punct close) (hctx : C (ts ++ t :: rest)) :
    Yields (commaList close atEnd item) ts (List.Forall₂ R · es) (t :: rest) := by
  intro last
  obtain ⟨as, last', has, hloop⟩ := loop_commaStep hend hcomma hC hitems hts ht hctx [] last
  exact ⟨as, last', hloop, has⟩

end

/-- An item of a list: it does not begin like the end of the list, and it is read up to a token that
ends an operand. -/
structure ReadsItem (close : Punct) (item : Parser Node) (ts : List Token) (e : Node) : Prop where
  begins : ∃ t r, ts = t :: r ∧ t.kind ≠ .punct close ∧ t.kind ≠ .eof
  reads : ∀ t rest, Token.Closes t → Reads item ts e (t :: rest)

/-- Each tree of a list is read as `R` says from whatever its own pieces are scanned to. -/
abbrev ReadsEach (R : List Token → Node → Prop) (es : List Node) (pss : List (List Piece)) :
    Prop :=
  List.Forall₂ (fun e ps => ∀ ts, Piece.Spelled ps ts → R ts e) es pss

section

variable {close : Punct} {atEnd : Parser Unit} {item : Parser Node} {es : List Node}
  {pss : List (List Piece)} {tss : List (List Token)} {ts : List Token}

theorem ReadsEach.of_spelled {R : List Token → Node → Prop} (h : ReadsEach R es pss)
    (htss : List.Forall₂ Piece.Spelled pss tss) : List.Forall₂ R tss es := by
  induction h generalizing tss with
  | nil =>
    cases htss
    exact .nil
  | cons he _ ih =>
    obtain _ | ⟨hts, htss⟩ := htss
    exact .cons (he _ hts) (ih htss)

theorem commaList_reads (atEnd : Parser Unit) (item : Parser Node) (hend : Idle atEnd)
    (hclose : close = .parenClose ∨ close = .bracketClose)
    (hitems : ReadsEach (ReadsItem close item) es pss)
    (hts : Piece.Spelled (Piece.commas pss) ts) (last start stop : Nat) (rest : List Token) :
    ∃ ns last', ns.map Node.bare = es.map Node.bare ∧
      commaList close atEnd item ⟨last, ts ++ .punct close start stop :: rest⟩ =
        .done ns ⟨last', .punct close start stop :: rest⟩ := by
  obtain ⟨tss, htss, hjoined⟩ := hts.exists_joined_commas
  have hyields : List.Forall₂
      (YieldsItem (fun _ => True) (fun n e => n.bare = e.bare) close item) tss es := by
    refine (hitems.of_spelled htss).imp fun ts e h => ⟨h.begins, fun t rest ht _ => ?_⟩
    refine h.reads t rest ?_
    rcases hclose with rfl | rfl <;> rcases ht with ht | ht <;> simp [Token.Closes, ht]
  have hlist : Yields (commaList close atEnd item) ts
      (List.Forall₂ (fun n e => n.bare = e.bare) · es) (.punct close start stop :: rest) :=
    commaList_yields hend (by rcases hclose with rfl | rfl <;> decide) (fun _ _ _ _ => trivial)
      hyields hjoined (Token.punct_kind close start stop) trivial
  obtain ⟨ns, last', hread, hns⟩ := hlist last
  refine ⟨ns, last', ?_, hread⟩
  rw [← List.forall₂_eq_eq_eq, List.forall₂_map_left_iff, List.forall₂_map_right_iff]
  exact hns

end

end Parser

namespace Grammar

open Quasiquote.Parser

variable {g : Grammar} {last last' : Nat} {t u : Token} {rest : List Token} {n : Node}

theorem postfixStep_closes (ht : t.Closes) (start : Nat) (e : Node) :
    g.postfixStep start e ⟨last, t :: rest⟩ = .done (e, false) ⟨last, t :: rest⟩ := by
  simp only [Token.Closes, List.mem_cons, List.not_mem_nil, or_false] at ht
  rcases ht with ht | ht | ht | ht <;> simp [postfixStep, ht]

theorem binaryStep_closes (ht : t.Closes) (least start : Nat) (left : Node) :
    g.binaryStep least start left ⟨last, t :: rest⟩ = .done (left, false) ⟨last, t :: rest⟩ := by
  simp only [Token.Closes, List.mem_cons, List.not_mem_nil, or_false] at ht
  rcases ht with ht | ht | ht | ht <;>
    simp [binaryStep, Token.isWord, ht, TokenKind.binary?, Punct.binaryPower?]

/-- An operand before a token that ends it is a whole expression. -/
theorem assignment_of_leftHandSide {ts : List Token}
    (harrow : g.arrow? ⟨last, t :: ts⟩ = .done none ⟨last, t :: ts⟩) (hsign : sign? t = none)
    (h : g.leftHandSide ⟨last, t :: ts⟩ = .done n ⟨last', u :: rest⟩) (hu : u.Closes) :
    g.assignment ⟨last, t :: ts⟩ = .done n ⟨last', u :: rest⟩ := by
  have hunary : g.unary ⟨last, t :: ts⟩ = .done n ⟨last', u :: rest⟩ := by
    simp [unary, hsign, h]
  have hbinary : g.binary 0 ⟨last, t :: ts⟩ = .done n ⟨last', u :: rest⟩ := by
    simp [binary, hunary, loop_stop (binaryStep_closes hu _ _ _)]
  have hquestion : u.kind ≠ .punct .question := hu.ne_punct (by decide)
  have hconditional : g.conditional ⟨last, t :: ts⟩ = .done n ⟨last', u :: rest⟩ := by
    simp [conditional, hbinary, hquestion]
  have hassign : u.kind.assignment? = none := by
    simp only [Token.Closes, List.mem_cons, List.not_mem_nil, or_false] at hu
    rcases hu with hu | hu | hu | hu <;> rw [hu] <;> rfl
  simp [assignment, harrow, hconditional, hassign]

theorem leftHandSide_of_primary {ts : List Token} (hnew : t.isWord "new" = false)
    (h : g.primary ⟨last, t :: ts⟩ = .done n ⟨last', u :: rest⟩) (hu : u.Closes) :
    g.leftHandSide ⟨last, t :: ts⟩ = .done n ⟨last', u :: rest⟩ := by
  simp [leftHandSide, hnew, h, loop_stop (postfixStep_closes hu _ _)]

/-- No arrow function begins with a token that is neither a word nor a bracket of one. -/
theorem arrow?_of_not_word {ts : List Token} (hword : t.kind ≠ .word)
    (hparen : t.kind ≠ .punct .parenOpen) (hless : t.kind ≠ .punct .less) :
    g.arrow? ⟨last, t :: ts⟩ = .done none ⟨last, t :: ts⟩ := by
  simp [arrow?, atAsyncArrow, Token.isWord, arrowAfterAsync, atBareArrow, hword, hparen, hless]

/-- No arrow function begins with a word that a dot or the end of an operand follows. -/
theorem arrow?_of_word {ts : List Token} {word : String} {start stop : Nat}
    (hu : u.Closes ∨ u.kind = .punct .dot) :
    g.arrow? ⟨last, .word word start stop :: u :: ts⟩ =
      .done none ⟨last, .word word start stop :: u :: ts⟩ := by
  simp only [Token.Closes, List.mem_cons, List.not_mem_nil, or_false, or_assoc] at hu
  rcases hu with hu | hu | hu | hu | hu <;>
    simp [arrow?, atAsyncArrow, Token.isWord, arrowAfterAsync, atBareArrow, hu]

theorem primary_string (value : String) (single : Bool) (start stop : Nat) :
    g.primary ⟨last, .string value single start stop :: rest⟩ =
      .done (.mk .stringLiteral { span := some ⟨start, max stop start⟩ }
        [.text value, .flag single]) ⟨stop, rest⟩ := by
  simp [primary, Parser.stringLiteral, advance_cons]

theorem primary_keyword {word : String} {kind : Kind} (h : keywordLiteral? word = some kind)
    (start stop : Nat) : g.primary ⟨last, .word word start stop :: rest⟩ =
      .done (.mk kind { span := some ⟨start, max stop start⟩ } []) ⟨stop, rest⟩ := by
  simp [primary, h, advance_cons]

theorem keywordLiteral?_eq_none {word : String} (h : isReserved word = false) :
    keywordLiteral? word = none := by
  unfold keywordLiteral?
  split
  · exact absurd h (by decide)
  · exact absurd h (by decide)
  · exact absurd h (by decide)
  · exact absurd h (by decide)
  · rfl

theorem primary_word {word : String} (h : isReserved word = false) (hu : u.kind ≠ .word)
    (start stop : Nat) : g.primary ⟨last, .word word start stop :: u :: rest⟩ =
      .done (.mk .identifier { span := some ⟨start, max stop start⟩ } [.text word])
        ⟨stop, u :: rest⟩ := by
  have hfunction : word ≠ "function" := by
    rintro rfl
    exact absurd h (by decide)
  simp [primary, keywordLiteral?_eq_none h, startsFunction, hfunction, Token.isWord, hu,
    identifier_word _ _ h]

theorem ne_of_isReserved {word reserved : String} (h : isReserved word = false)
    (hr : isReserved reserved = true) : word ≠ reserved := by
  rintro rfl
  rw [hr] at h
  exact Bool.false_ne_true h.symm

theorem isWord_word_of_isReserved {word reserved : String} (h : isReserved word = false)
    (hr : isReserved reserved = true) (start stop : Nat) :
    (Token.word word start stop).isWord reserved = false := by
  simp [Token.isWord, ne_of_isReserved h hr]

theorem sign?_word {word : String} (h : isReserved word = false) (start stop : Nat) :
    sign? (.word word start stop) = none := by
  have htypeof := isWord_word_of_isReserved h (by decide : isReserved "typeof" = true) start stop
  have hvoid := isWord_word_of_isReserved h (by decide : isReserved "void" = true) start stop
  simp only [Token.isWord, Token.word_kind, Token.word_text, decide_true, Bool.true_and,
    decide_eq_false_iff_not] at htypeof hvoid
  simp [sign?, htypeof, hvoid]

theorem element_of_expression (ht : t.kind ≠ .punct .ellipsis) :
    g.element ⟨last, t :: rest⟩ = g.expression ⟨last, t :: rest⟩ := by
  simp [element, ht]

section

variable {es : List Node} {pss : List (List Piece)} {ts : List Token}

structure ReadsElement (g : Grammar) (ts : List Token) (e : Node) : Prop where
  begins : ∃ t r, ts = t :: r ∧ t.BeginsElement
  reads : ∀ t rest, Token.Closes t → Reads g.expression ts e (t :: rest)

/-- An operand that begins no arrow function is an element of a list one level up. -/
theorem readsElement_of_leftHandSide {e : Node} (hbegins : t.BeginsElement)
    (hsign : sign? t = none)
    (harrow : ∀ last u rest, Token.Closes u → g.arrow? ⟨last, t :: (ts ++ u :: rest)⟩ =
      .done none ⟨last, t :: (ts ++ u :: rest)⟩)
    (h : ∀ u rest, Token.Closes u → Reads g.leftHandSide (t :: ts) e (u :: rest)) :
    g.deeper.ReadsElement (t :: ts) e where
  begins := ⟨t, ts, rfl, hbegins⟩
  reads u rest hu last := by
    obtain ⟨n, last', hread, hn⟩ := h u rest hu last
    exact ⟨n, last', assignment_of_leftHandSide (harrow last u rest hu) hsign hread hu, hn⟩

theorem readsElement_of_primary {e : Node} (hbegins : t.BeginsElement)
    (hsign : sign? t = none) (hnew : t.isWord "new" = false)
    (harrow : ∀ last u rest, Token.Closes u → g.arrow? ⟨last, t :: (ts ++ u :: rest)⟩ =
      .done none ⟨last, t :: (ts ++ u :: rest)⟩)
    (h : ∀ u rest, Token.Closes u → Reads g.primary (t :: ts) e (u :: rest)) :
    g.deeper.ReadsElement (t :: ts) e := by
  refine readsElement_of_leftHandSide hbegins hsign harrow fun u rest hu last => ?_
  obtain ⟨n, last', hread, hn⟩ := h u rest hu last
  exact ⟨n, last', leftHandSide_of_primary hnew hread hu, hn⟩

theorem ReadsElement.readsItem {e : Node} {close : Punct}
    (hclose : close = .parenClose ∨ close = .bracketClose) (h : g.ReadsElement ts e) :
    ReadsItem close g.element ts e := by
  obtain ⟨t, r, rfl, ht⟩ := h.begins
  simp only [Token.BeginsElement, List.mem_cons, List.not_mem_nil, or_false, not_or] at ht
  refine ⟨⟨t, r, rfl, ?_, ht.2.2.2.2⟩, fun u rest hu last => ?_⟩
  · rcases hclose with rfl | rfl
    · exact ht.2.1
    · exact ht.2.2.1
  · have hread := h.reads u rest hu last
    rw [List.cons_append] at hread ⊢
    rwa [element_of_expression ht.1]

theorem arguments_reads (h : ReadsEach g.ReadsElement es pss)
    (hts : Piece.Spelled (Piece.commas pss) ts) (last a b a' b' : Nat) (rest : List Token) :
    ∃ ns, ns.map Node.bare = es.map Node.bare ∧
      g.arguments ⟨last, .punct .parenOpen a b :: (ts ++ .punct .parenClose a' b' :: rest)⟩ =
        .done ns ⟨b', rest⟩ := by
  obtain ⟨ns, last', hns, hread⟩ := commaList_reads
    (do if ← atEof then reject .missingClosingParen "argument list") g.element
    (by simp +contextual [Idle]) (.inl rfl) (h.imp fun _ _ h ts hts => (h ts hts).readsItem (.inl rfl))
    hts b a' b' rest
  refine ⟨ns, hns, ?_⟩
  simp [arguments, expect_punct, hread]

theorem primary_array (h : ReadsEach g.ReadsElement es pss)
    (hts : Piece.Spelled (Piece.commas pss) ts) (last a b a' b' : Nat) (rest : List Token) :
    ∃ n, n.bare = (Node.array es).bare ∧
      g.primary ⟨last, .punct .bracketOpen a b :: (ts ++ .punct .bracketClose a' b' :: rest)⟩ =
        .done n ⟨b', rest⟩ := by
  obtain ⟨ns, last', hns, hread⟩ := commaList_reads
    (do if ← atEof then reject .unexpectedEof "array literal" ["']'"]) g.element
    (by simp +contextual [Idle]) (.inr rfl) (h.imp fun _ _ h ts hts => (h ts hts).readsItem (.inr rfl))
    hts b a' b' rest
  refine ⟨.mk .arrayLiteralExpression { span := some ⟨a, max b' a⟩ } [.list ns], ?_, ?_⟩
  · simp [Node.array, Node.plain, Node.bare_mk, Field.bare, hns]
  · simp [primary, arrayLiteral, advance_cons, expect_punct, hread]

theorem postfixStep_member (start : Nat) (object : Node) (member : String)
    (last a b a' b' : Nat) (rest : List Token) :
    g.postfixStep start object ⟨last, .punct .dot a b :: .word member a' b' :: rest⟩ =
      .done (.mk .propertyAccessExpression { span := some ⟨start, max b' start⟩ }
        [.node object, .node (.mk .identifier { span := some ⟨a', max b' a'⟩ } [.text member])],
        true) ⟨b', rest⟩ := by
  simp [postfixStep, advance_cons, identifierName_word]

theorem postfixStep_call (h : ReadsEach g.ReadsElement es pss)
    (hts : Piece.Spelled (Piece.commas pss) ts) (start : Nat) (callee : Node)
    (last a b a' b' : Nat) (rest : List Token) :
    ∃ ns, ns.map Node.bare = es.map Node.bare ∧
      g.postfixStep start callee
        ⟨last, .punct .parenOpen a b :: (ts ++ .punct .parenClose a' b' :: rest)⟩ =
      .done (.mk .callExpression { span := some ⟨start, max b' start⟩ }
        [.node callee, .list [], .list ns], true) ⟨b', rest⟩ := by
  obtain ⟨ns, hns, hread⟩ := arguments_reads h hts last a b a' b' rest
  refine ⟨ns, hns, ?_⟩
  simp [postfixStep, application, hread]

/-- A call of a member of something that has a name. -/
theorem leftHandSide_memberCall {object member : String} (ho : isReserved object = false)
    (h : ReadsEach g.ReadsElement es pss)
    (hts : Piece.Spelled (Piece.commas pss) ts) (hu : u.Closes)
    (last a₁ b₁ a₂ b₂ a₃ b₃ a₄ b₄ a₅ b₅ : Nat) :
    ∃ n, n.bare = (Node.call (.propertyAccess (.identifier object) member) es).bare ∧
      g.leftHandSide ⟨last, .word object a₁ b₁ :: .punct .dot a₂ b₂ :: .word member a₃ b₃ ::
        .punct .parenOpen a₄ b₄ :: (ts ++ .punct .parenClose a₅ b₅ :: u :: rest)⟩ =
      .done n ⟨b₅, u :: rest⟩ := by
  obtain ⟨callee, hcallee, hprimary⟩ : ∃ n, n.bare = (Node.identifier object).bare ∧
      ∀ rest, g.primary ⟨last, .word object a₁ b₁ :: .punct .dot a₂ b₂ :: rest⟩ =
        .done n ⟨b₁, .punct .dot a₂ b₂ :: rest⟩ :=
    ⟨.mk .identifier { span := some ⟨a₁, max b₁ a₁⟩ } [.text object],
      by simp [Node.identifier, Node.plain, Node.bare_mk, Field.bare],
      fun rest => primary_word ho (by simp) a₁ b₁⟩
  have hmember := postfixStep_member (g := g) a₁ callee member b₁ a₂ b₂ a₃ b₃
    (.punct .parenOpen a₄ b₄ :: (ts ++ .punct .parenClose a₅ b₅ :: u :: rest))
  obtain ⟨ns, hns, hcall⟩ := postfixStep_call h hts a₁ _ b₃ a₄ b₄ a₅ b₅ (u :: rest)
  have hloop : loop callee (g.postfixStep a₁) ⟨b₁, .punct .dot a₂ b₂ :: .word member a₃ b₃ ::
      .punct .parenOpen a₄ b₄ :: (ts ++ .punct .parenClose a₅ b₅ :: u :: rest)⟩ = _ :=
    (loopWithin_more _ hmember).trans <| (loopWithin_more _ hcall).trans <|
      loopWithin_stop _ (postfixStep_closes hu a₁ _)
  have hnew := isWord_word_of_isReserved ho (by decide : isReserved "new" = true) a₁ b₁
  refine ⟨_, ?_, by simp [leftHandSide, hnew, hprimary, hloop]; rfl⟩
  simp [Node.call, Node.propertyAccess, Node.identifier, Node.plain, Node.bare_mk, Field.bare, hns,
    hcallee]

end

end Grammar

end Quasiquote
