import Quasiquote.Proofs.Parsing

namespace Quasiquote

namespace Grammar

open Quasiquote.Parser

def nameStep (start : Nat) (name : Node) : Parser (Node × Bool) := do
  if ← eat .dot then
    let right ← identifierName "qualified name"
    let qualified ← finish .qualifiedName start [.node name, .node right]
    return (qualified, true)
  else return (name, false)

def appliedTypes (g : Grammar) : Parser (List Node) := do
  if ← atPunct .less then g.typeArguments else return []

def constraint (g : Grammar) : Parser (Option Node) := do
  if ← eatWord "extends" then some <$> g.typeNode else return none

/-- What follows a choice follows either branch of it. -/
theorem bind_choice {α β : Type} (c : Parser Bool) (p q : Parser α) (f : α → Parser β) :
    ((do if ← c then p else q) >>= f) = (do if ← c then p >>= f else q >>= f) := by
  funext s
  simp only [bind_apply]
  cases c s with
  | done b s' => cases b <;> simp
  | rejected e => rfl
  | starved => rfl

theorem typeReference_eq (g : Grammar) : g.typeReference = (do
    let start ← here
    let first ← identifierName "type reference"
    let name ← loop first (nameStep start)
    let arguments ← g.appliedTypes
    finish .typeReference start [.node name, .list arguments]) := by
  simp only [appliedTypes, bind_choice]
  rfl

theorem typeParameter_eq (g : Grammar) : g.typeParameter = (do
    let start ← here
    let name ← identifier "type parameter"
    let constraint ← g.constraint
    let default ← announced .assign g.typeNode
    finish .typeParameter start [.node name, .ofOption constraint, .ofOption default]) := by
  simp only [constraint, bind_choice]
  rfl

def memberStep (g : Grammar) (members : List Node) : Parser (List Node × Bool) := do
  if ← atPunct .braceClose then return (members, false)
  if ← atEof then reject .missingClosingBrace "type literal"
  let member ← g.propertySignature
  let more ← memberSeparator
  return (members ++ [member], more)

theorem typeLiteral_eq (g : Grammar) : g.typeLiteral = (do
    let start ← here
    expect .braceOpen "type literal"
    let members ← loop [] g.memberStep
    expect .braceClose "type literal"
    finish .typeLiteral start [.list members]) := rfl

def arrayStep (start : Nat) (type : Node) : Parser (Node × Bool) := do
  let closes := (← next?).any fun t => t.kind = .punct .bracketClose
  if (← atPunct .bracketOpen) && closes then
    let _ ← advance
    let _ ← advance
    let array ← finish .arrayType start [.node type]
    return (array, true)
  else return (type, false)

theorem arrayType_eq (g : Grammar) : g.arrayType = (do
    let start ← here
    let first ← g.primaryType
    loop first (arrayStep start)) := rfl

def unionStep (g : Grammar) (types : List Node) : Parser (List Node × Bool) := do
  if ← eat .pipe then
    let type ← g.arrayType
    return (types ++ [type], true)
  else return (types, false)

theorem unionType_eq (g : Grammar) : g.unionType = (do
    let start ← here
    let _ ← eat .pipe
    let first ← g.arrayType
    let types ← loop [first] g.unionStep
    match types with
    | [type] => return type
    | _ => finish .unionType start [.list types]) := rfl

end Grammar

namespace Parser

variable {ts rest : List Token}

def Flagged (p : Punct) (flag : Bool) (ts : List Token) : Prop :=
  flag = true ∧ (∃ a b, ts = [.punct p a b]) ∨ flag = false ∧ ts = []

def Apart (p : Punct) (rest : List Token) : Prop :=
  ∃ t r, rest = t :: r ∧ t.kind ≠ .punct p

theorem Flagged.yields {p : Punct} {flag : Bool} (h : Flagged p flag ts) (hrest : Apart p rest) :
    Yields (eat p) ts (· = flag) rest := by
  intro last
  rcases h with ⟨rfl, a, b, rfl⟩ | ⟨rfl, rfl⟩
  · exact ⟨true, b, by simp, rfl⟩
  · obtain ⟨t, r, rfl, ht⟩ := hrest
    exact ⟨false, last, by simp [ht], rfl⟩

end Parser

theorem Field.bare_ofOption (o : Option Node) :
    (Field.ofOption o).bare = .ofOption (o.map Node.bare) := by
  cases o <;> rfl

namespace Token

def BeginsType (t : Token) : Prop :=
  t.kind ∈ [.punct .braceOpen, .punct .parenOpen, .punct .less, .string, .number, .word]

theorem BeginsType.ne {t : Token} (h : t.BeginsType) {k : TokenKind}
    (hk : k ∉ [.punct .braceOpen, .punct .parenOpen, .punct .less, .string, .number, .word]) :
    t.kind ≠ k := by
  rintro rfl
  exact hk h

def EndsType (t : Token) : Prop :=
  t.kind ∈ [.punct .comma, .punct .greater, .punct .parenClose, .punct .semicolon, .punct .assign]

def FollowsParameter (t : Token) : Prop :=
  t.kind ∈ [.punct .question, .punct .colon, .punct .assign, .punct .comma, .punct .parenClose]

theorem EndsType.ne {t : Token} (h : t.EndsType) {k : TokenKind}
    (hk : k ∉ [.punct .comma, .punct .greater, .punct .parenClose, .punct .semicolon,
      .punct .assign]) : t.kind ≠ k := by
  rintro rfl
  exact hk h

end Token

namespace Grammar

open Quasiquote.Parser

variable {g : Grammar} {last : Nat} {t : Token} {ts us rest : List Token} {e : Node} {mark : Mark}
  {a b a' b' : Nat}

def Annotates (ts : List Token) (e : Node) : Prop :=
  ∀ d t rest, (ts ++ t :: rest).length ≤ d → t.EndsType →
    Reads (toDepth (d + 1)).typeNode ts e (t :: rest)

/-- Tokens whose reading, as a type and the brackets after it, comes to stand behind them. -/
def Bracketed (ts : List Token) (e : Node) : Prop :=
  ∀ d t rest, (ts ++ t :: rest).length ≤ d → t.kind ≠ .punct .dot → t.kind ≠ .punct .less →
    ∀ start last, ∃ a c n last', (toDepth d).primaryType ⟨last, ts ++ t :: rest⟩ = .done a c ∧
      Steps (arrayStep start) a c n ⟨last', t :: rest⟩ ∧ n.bare = e.bare

def Names (ts : List Token) (e : Node) : Prop :=
  ∀ context start last rest, ∃ a c n last', identifierName context ⟨last, ts ++ rest⟩ = .done a c ∧
    Steps (nameStep start) a c n ⟨last', rest⟩ ∧ n.bare = e.bare

def Unlike (ts : List Token) : Prop :=
  ∀ (g : Grammar) last a b, ∃ e,
    g.functionType ⟨last, .punct .parenOpen a b :: ts⟩ = .rejected e

theorem loop_rejected {α : Type} {step : α → Parser (α × Bool)} {x : α} {c : Cursor}
    {e : ParseError} (h : step x c = .rejected e) : loop x step c = .rejected e := by
  rw [loop, Reader.loopWithin]
  exact (bind_apply _ _ c).trans (by rw [h])

theorem unlike_of_parameter
    (h : ∀ (g : Grammar) b, ∃ e, g.parameter ⟨b, t :: rest⟩ = .rejected e)
    (hclose : t.kind ≠ .punct .parenClose) : Unlike (t :: rest) := by
  intro g last a b
  obtain ⟨e, he⟩ := h g b
  have hlist : commaList .parenClose (pure ()) g.parameter ⟨b, t :: rest⟩ = .rejected e := by
    rw [commaList_eq]
    apply loop_rejected
    simp [commaStep, hclose, he]
  exact ⟨e, by simp [functionType, typeParameters, parameters, expect_punct, hlist]⟩

theorem unlike_of_kind (hword : t.kind ≠ .word) (hdots : t.kind ≠ .punct .ellipsis)
    (hclose : t.kind ≠ .punct .parenClose) (rest : List Token) : Unlike (t :: rest) := by
  refine unlike_of_parameter (fun g b => ?_) hclose
  simp [parameter, hdots, identifier, hword, reject]

/-- A word is the first parameter of a function only before one of a few tokens. -/
theorem unlike_of_word {u : Token} (hword : t.kind = .word) (hu : ¬u.FollowsParameter)
    (rest : List Token) : Unlike (t :: u :: rest) := by
  simp only [Token.FollowsParameter, List.mem_cons, List.not_mem_nil, or_false, not_or] at hu
  by_cases hr : isReserved t.text = true
  · refine unlike_of_parameter (fun g b => ?_) (by simp [hword])
    simp [parameter, hword, identifier, hr, reject]
  · -- The word alone is a parameter, but nothing that may follow one stands behind it.
    intro g last a b
    obtain ⟨n, hn⟩ : ∃ n, g.parameter ⟨b, t :: u :: rest⟩ = .done n ⟨t.stop, u :: rest⟩ := by
      simp [parameter, hword, identifier, hr, advance_cons, hu, announced_none]
    have hlist : commaList .parenClose (pure ()) g.parameter ⟨b, t :: u :: rest⟩ =
        .done [n] ⟨t.stop, u :: rest⟩ := by
      rw [commaList_eq]
      apply loop_stop
      simp [commaStep, hword, hn, hu]
    simp [functionType, typeParameters, parameters, hlist, expect, hu, reject]

theorem Bracketed.yields {d : Nat} (h : Bracketed ts e) (hne : ts ≠ [])
    (hfits : (ts ++ t :: rest).length ≤ d)
    (ht : t.kind ∉ [.punct .dot, .punct .less, .punct .bracketOpen]) :
    Reads (toDepth d).arrayType ts e (t :: rest) := by
  intro last
  simp only [List.mem_cons, List.not_mem_nil, or_false, not_or] at ht
  obtain ⟨u, us, rfl⟩ := List.exists_cons_of_ne_nil hne
  obtain ⟨x, c, n, last', hprimary, hsteps, hn⟩ := h d t rest hfits ht.1 ht.2.1 u.start last
  have hstop : arrayStep u.start n ⟨last', t :: rest⟩ = .done (n, false) ⟨last', t :: rest⟩ := by
    simp [arrayStep, ht]
  have hloop := hsteps.loop (loop_stop hstop)
  rw [List.cons_append] at hprimary ⊢
  refine ⟨n, last', ?_, hn⟩
  rw [arrayType_eq]
  simp [hprimary, hloop]

theorem annotates_of_arrayType (hbegins : ∃ t r, ts = t :: r ∧ t.BeginsType)
    (h : ∀ d t rest, (ts ++ t :: rest).length ≤ d → t.EndsType →
      Reads (toDepth d).arrayType ts e (t :: rest)) : Annotates ts e := by
  intro d t rest hfits ht last
  obtain ⟨u, us, rfl, hu⟩ := hbegins
  obtain ⟨n, last', hread, hn⟩ := h d t rest hfits ht last
  have hstop : (toDepth d).unionStep [n] ⟨last', t :: rest⟩ =
      .done ([n], false) ⟨last', t :: rest⟩ := by
    simp [unionStep, ht.ne (k := .punct .pipe) (by decide)]
  rw [List.cons_append] at hread ⊢
  refine ⟨n, last', ?_, hn⟩
  change (toDepth d).unionType _ = _
  rw [unionType_eq]
  simp [hu.ne (k := .punct .pipe) (by decide), hread, loop_stop hstop]

structure Member (ts : List Token) (e : Node) : Prop where
  begins : ∃ t r, ts = t :: r ∧ t.BeginsType
  unlike : ∀ t rest, ¬t.FollowsParameter → Unlike (ts ++ t :: rest)
  bracketed : Bracketed ts e

/-- A type in parentheses is taken for a function first. -/
theorem member_parens (h : Annotates ts e) (hunlike : ∀ rest, Unlike (ts ++ rest)) :
    Member (.punct .parenOpen a b :: (ts ++ [.punct .parenClose a' b'])) e where
  begins := ⟨_, _, rfl, by simp [Token.BeginsType]⟩
  unlike t rest _ := unlike_of_kind (by simp) (by simp) (by simp) _
  bracketed := by
    intro d t rest hfits _ _ start last
    rw [List.cons_append, List.append_assoc, List.singleton_append] at hfits ⊢
    rw [List.length_cons] at hfits
    obtain ⟨d, rfl⟩ : ∃ d', d = d' + 1 := ⟨d - 1, by omega⟩
    obtain ⟨n, last', hread, hn⟩ := h d (.punct .parenClose a' b') (t :: rest) (by omega)
      (by simp [Token.EndsType]) b
    -- The attempt gives back the parenthesis, from where it is read again.
    obtain ⟨x, hx⟩ := hunlike (.punct .parenClose a' b' :: t :: rest) (toDepth (d + 1)) last a b
    refine ⟨n, _, n, b', ?_, .refl _ _, hn⟩
    simp [primaryType, Reader.attempt, hx, advance_cons, hread, expect_punct]

theorem Member.array (h : Member ts e) :
    Member (ts ++ [.punct .bracketOpen a b, .punct .bracketClose a' b'])
      (.mk .arrayType mark [.node e]) where
  begins := by
    obtain ⟨t, r, rfl, ht⟩ := h.begins
    exact ⟨t, _, rfl, ht⟩
  unlike t rest _ := by
    rw [List.append_assoc]
    exact h.unlike _ _ (by simp [Token.FollowsParameter])
  bracketed := by
    intro d t rest hfits _ _ start last
    rw [List.append_assoc] at hfits ⊢
    obtain ⟨x, c, n, last₁, hprimary, hsteps, hn⟩ :=
      h.bracketed d (.punct .bracketOpen a b) (.punct .bracketClose a' b' :: t :: rest) hfits
        (by simp) (by simp) start last
    refine ⟨x, c, .mk .arrayType { span := some ⟨start, max b' start⟩ } [.node n], b', hprimary,
      hsteps.tail ?_ (by simp), by simp [Node.bare_mk, Field.bare, hn]⟩
    simp [arrayStep, advance_cons]

theorem member_of_primary (ht : t.BeginsType) (h : ∀ (g : Grammar) last rest,
    ∃ n last', g.primaryType ⟨last, t :: rest⟩ = .done n ⟨last', rest⟩ ∧ n.bare = e.bare) :
    Member [t] e where
  begins := ⟨t, [], rfl, ht⟩
  unlike u rest hu := by
    by_cases hword : t.kind = .word
    · exact unlike_of_word hword hu rest
    · exact unlike_of_kind hword (ht.ne (by decide)) (ht.ne (by decide)) _
  bracketed := by
    intro d u rest _ _ _ start last
    obtain ⟨n, last', hread, hn⟩ := h (toDepth d) last (u :: rest)
    exact ⟨n, _, n, last', hread, .refl _ _, hn⟩

theorem member_keyword (k : KeywordType) :
    Member [.word k.name a b] (.mk .keywordType mark [.text k.name]) := by
  refine member_of_primary (by simp [Token.BeginsType]) fun g last rest =>
    ⟨.mk .keywordType { span := some ⟨a, max b a⟩ } [.text k.name], b, ?_, by simp [Node.bare_mk]⟩
  have hsome : (KeywordType.ofName? k.name).isSome = true := by cases k <;> decide
  have htrue : k.name ≠ "true" := by cases k <;> decide
  have hfalse : k.name ≠ "false" := by cases k <;> decide
  simp [primaryType, wordType, htrue, hfalse, hsome, advance_cons]

theorem member_string (value : String) (single : Bool) {mark' : Mark} :
    Member [.string value single a b] (.mk .literalType mark
      [.node (.mk .stringLiteral mark' [.text value, .flag single])]) := by
  refine member_of_primary (by simp [Token.BeginsType]) fun g last rest =>
    ⟨.mk .literalType { span := some ⟨a, max b a⟩ }
      [.node (.mk .stringLiteral { span := some ⟨a, max b a⟩ } [.text value, .flag single])], b, ?_,
      by simp [Node.bare_mk, Field.bare]⟩
  simp [primaryType, stringLiteral, advance_cons]

theorem member_number (digits : String) {mark' : Mark} :
    Member [.number digits a b] (.mk .literalType mark
      [.node (.mk .numericLiteral mark' [.text digits])]) := by
  refine member_of_primary (by simp [Token.BeginsType]) fun g last rest =>
    ⟨.mk .literalType { span := some ⟨a, max b a⟩ }
      [.node (.mk .numericLiteral { span := some ⟨a, max b a⟩ } [.text digits])], b, ?_,
      by simp [Node.bare_mk, Field.bare]⟩
  simp [primaryType, numericLiteral, advance_cons]

theorem member_boolean (value : Bool) {mark' : Mark} :
    Member [.word (if value then "true" else "false") a b] (.mk .literalType mark
      [.node (.mk (if value then .trueKeyword else .falseKeyword) mark' [])]) := by
  refine member_of_primary (by simp [Token.BeginsType]) fun g last rest =>
    ⟨.mk .literalType { span := some ⟨a, max b a⟩ } [.node (.mk
      (if value then .trueKeyword else .falseKeyword) { span := some ⟨a, max b a⟩ } [])], b, ?_,
      by simp [Node.bare_mk, Field.bare]⟩
  cases value <;> simp [primaryType, wordType, advance_cons]

theorem names_word (word : String) :
    Names [.word word a b] (.mk .identifier mark [.text word]) := by
  intro context start last rest
  exact ⟨_, _, _, b, identifierName_word word a b context, .refl _ _, by simp [Node.bare_mk]⟩

theorem Names.qualified (h : Names ts e) (word : String) {mark' : Mark} :
    Names (ts ++ [.punct .dot a b, .word word a' b'])
      (.mk .qualifiedName mark [.node e, .node (.mk .identifier mark' [.text word])]) := by
  intro context start last rest
  rw [List.append_assoc]
  obtain ⟨x, c, n, last₁, hfirst, hsteps, hn⟩ := h context start last
    ([.punct .dot a b, .word word a' b'] ++ rest)
  refine ⟨x, c, .mk .qualifiedName { span := some ⟨start, max b' start⟩ } [.node n,
    .node (.mk .identifier { span := some ⟨a', max b' a'⟩ } [.text word])], b', hfirst,
    hsteps.tail ?_ ?_, by simp [Node.bare_mk, Field.bare, hn]⟩
  · simp [nameStep, identifierName_word]
  · simp only [List.length_append, List.length_cons]
    omega

def Part (close : Punct) (item : Grammar → Parser Node) (ts : List Token) (e : Node) : Prop :=
  ∀ d, YieldsItem (·.length < d) (fun n e => n.bare = e.bare) close (item (toDepth d)) ts e

theorem Annotates.part (h : Annotates ts e) (hbegins : ∃ t r, ts = t :: r ∧ t.BeginsType) :
    Part .greater typeNode ts e := by
  refine fun d => ⟨?_, fun t rest ht hfits => ?_⟩
  · obtain ⟨t, r, rfl, ht⟩ := hbegins
    exact ⟨t, r, rfl, ht.ne (by decide), ht.ne (by decide)⟩
  · obtain ⟨d, rfl⟩ : ∃ d', d = d' + 1 := ⟨d - 1, by omega⟩
    refine h d t rest (Nat.le_of_lt_succ hfits) ?_
    rcases ht with ht | ht <;> simp [Token.EndsType, ht]

variable {d : Nat} {tss : List (List Token)} {es : List Node}

theorem commaList_parts {close : Punct} {item : Grammar → Parser Node} (hcomma : close ≠ .comma)
    (h : List.Forall₂ (Part close item) tss es) (hus : Token.Joined .comma tss us)
    (hfits : (us ++ .punct close a b :: rest).length < d) :
    Yields (commaList close (pure ()) (item (toDepth d))) us
      (fun ns => ns.map Node.bare = es.map Node.bare) (.punct close a b :: rest) := by
  have hlasting : Lasting fun ts => ts.length < d := by
    intro ts t rest hlt
    simp only [List.length_append, List.length_cons] at hlt ⊢
    omega
  have hidle : Idle (pure ()) := by simp [Idle]
  intro last
  obtain ⟨ns, last', hread, hns⟩ := commaList_yields hidle hcomma hlasting
    (h.imp fun ts e he => he d) hus (Token.punct_kind ..) hfits last
  refine ⟨ns, last', hread, ?_⟩
  change ns.map Node.bare = es.map Node.bare
  rwa [← List.forall₂_eq_eq_eq, List.forall₂_map_left_iff, List.forall₂_map_right_iff]

/-- Groups of tokens with commas between them, inside angle brackets; without a group there are no
brackets either. -/
def Angled (tss : List (List Token)) (us : List Token) : Prop :=
  tss = [] ∧ us = [] ∨ tss ≠ [] ∧ ∃ a b vs a' b',
    us = .punct .less a b :: (vs ++ [.punct .greater a' b']) ∧ Token.Joined .comma tss vs

theorem appliedTypes_yields (h : List.Forall₂ (Part .greater typeNode) tss es)
    (hus : Angled tss us) (hrest : Apart .less rest) (hfits : (us ++ rest).length ≤ d) :
    Yields (toDepth d).appliedTypes us (fun ns => ns.map Node.bare = es.map Node.bare) rest := by
  intro last
  rcases hus with ⟨rfl, rfl⟩ | ⟨-, a, b, vs, a', b', rfl, hvs⟩
  · cases h
    obtain ⟨t, r, rfl, ht⟩ := hrest
    exact ⟨[], last, by simp [appliedTypes, ht], rfl⟩
  · simp only [List.cons_append, List.append_assoc, List.nil_append, List.length_cons] at hfits ⊢
    obtain ⟨ns, last', hread, hns⟩ := commaList_parts (by decide) h hvs hfits b
    exact ⟨ns, b', by simp [appliedTypes, typeArguments, expect_punct, hread], hns⟩

theorem typeParameters_yields (h : List.Forall₂ (Part .greater typeParameter) tss es)
    (hus : Angled tss us) (hrest : Apart .less rest) (hfits : (us ++ rest).length ≤ d) :
    Yields (toDepth d).typeParameters us (fun ns => ns.map Node.bare = es.map Node.bare) rest := by
  intro last
  rcases hus with ⟨rfl, rfl⟩ | ⟨-, a, b, vs, a', b', rfl, hvs⟩
  · cases h
    obtain ⟨t, r, rfl, ht⟩ := hrest
    exact ⟨[], last, by simp [typeParameters, ht], rfl⟩
  · simp only [List.cons_append, List.append_assoc, List.nil_append, List.length_cons] at hfits ⊢
    obtain ⟨ns, last', hread, hns⟩ := commaList_parts (by decide) h hvs hfits b
    exact ⟨ns, b', by simp [typeParameters, expect_punct, hread], hns⟩

theorem parameters_yields (h : List.Forall₂ (Part .parenClose parameter) tss es)
    (hus : Token.Joined .comma tss us)
    (hfits : (us ++ .punct .parenClose a' b' :: rest).length < d) :
    Yields (toDepth d).parameters (.punct .parenOpen a b :: (us ++ [.punct .parenClose a' b']))
      (fun ns => ns.map Node.bare = es.map Node.bare) rest := by
  intro last
  obtain ⟨ns, last', hread, hns⟩ := commaList_parts (by decide) h hus hfits b
  refine ⟨ns, b', ?_, hns⟩
  simp [parameters, expect_punct, hread]

def IsReference (word : String) : Prop :=
  KeywordType.ofName? word = none ∧ word ≠ "true" ∧ word ≠ "false"

theorem member_reference {word : String} (hword : IsReference word)
    (hname : Names (.word word a b :: ts) e) (hdots : ∀ u ∈ ts.head?, u.kind = .punct .dot)
    (h : List.Forall₂ (Part .greater typeNode) tss es) (hus : Angled tss us) :
    Member (.word word a b :: (ts ++ us)) (.mk .typeReference mark [.node e, .list es]) where
  begins := ⟨_, _, rfl, by simp [Token.BeginsType]⟩
  unlike t rest ht := by
    cases ts with
    | cons u ts =>
      have hu : u.kind = .punct .dot := hdots u rfl
      exact unlike_of_word rfl (by simp [Token.FollowsParameter, hu]) _
    | nil =>
      rcases hus with ⟨-, rfl⟩ | ⟨-, a₁, b₁, vs, a₂, b₂, rfl, -⟩
      · exact unlike_of_word rfl ht _
      · exact unlike_of_word rfl (by simp [Token.FollowsParameter]) _
  bracketed := by
    intro d t rest hfits hdot hless start last
    rw [List.cons_append, List.append_assoc] at hfits ⊢
    have hfits' : (us ++ t :: rest).length ≤ d := by
      simp only [List.length_append, List.length_cons] at hfits ⊢
      omega
    obtain ⟨x, c, n, last₁, hfirst, hsteps, hn⟩ := hname "type reference" a last (us ++ t :: rest)
    obtain ⟨ns, last', hread, hns⟩ := appliedTypes_yields h hus ⟨t, rest, rfl, hless⟩ hfits' last₁
    obtain ⟨v, vs, hv, hne⟩ : ∃ v vs, us ++ t :: rest = v :: vs ∧ v.kind ≠ .punct .dot := by
      rcases hus with ⟨-, rfl⟩ | ⟨-, a₁, b₁, vs, a₂, b₂, rfl, -⟩
      · exact ⟨t, rest, rfl, hdot⟩
      · exact ⟨_, _, rfl, by simp⟩
    rw [hv] at hfirst hsteps hread ⊢
    have hstop : nameStep a n ⟨last₁, v :: vs⟩ = .done (n, false) ⟨last₁, v :: vs⟩ := by
      simp [nameStep, hne]
    have hloop := hsteps.loop (loop_stop hstop)
    obtain ⟨hkeyword, htrue, hfalse⟩ := hword
    rw [List.cons_append] at hfirst
    refine ⟨.mk .typeReference { span := some ⟨a, max last' a⟩ } [.node n, .list ns], _, _, last',
      ?_, .refl _ _, by simp [Node.bare_mk, Field.bare, hn, hns]⟩
    simp [primaryType, wordType, htrue, hfalse, hkeyword, typeReference_eq, hfirst, hloop, hread]

variable {vs ws : List Token}

def Announces (p : Punct) (ts : List Token) (type : Option Node) : Prop :=
  ts = [] ∧ type = none ∨
    ∃ a b us e, ts = .punct p a b :: us ∧ type = some e ∧ Annotates us e

theorem Announces.yields {p : Punct} {type : Option Node} (h : Announces p ts type)
    (hfits : (ts ++ t :: rest).length ≤ d) (ht : t.EndsType) (hp : t.kind ≠ .punct p) :
    Yields (announced p (toDepth d).typeNode) ts (fun r => r.map Node.bare = type.map Node.bare)
      (t :: rest) := by
  intro last
  rcases h with ⟨rfl, rfl⟩ | ⟨a, b, us, e, rfl, rfl, hus⟩
  · exact ⟨none, last, announced_none _ hp, rfl⟩
  · rw [List.cons_append, List.length_cons] at hfits
    obtain ⟨d, rfl⟩ : ∃ d', d = d' + 1 := ⟨d - 1, by omega⟩
    obtain ⟨n, last', hread, hn⟩ := hus d t rest (by omega) ht b
    exact ⟨some n, last', by simp [announced, hread], by simp [hn]⟩

theorem Announces.apart {p q : Punct} {type : Option Node} (h : Announces p ts type)
    (hne : p ≠ q) (ht : t.kind ≠ .punct q) : Apart q (ts ++ t :: rest) := by
  rcases h with ⟨rfl, rfl⟩ | ⟨a, b, us, e, rfl, rfl, hus⟩
  · exact ⟨t, rest, rfl, ht⟩
  · exact ⟨_, _, rfl, by simp [hne]⟩

theorem part_parameter {word : String} {variadic optional : Bool} {type : Option Node}
    {mark' : Mark} (hr : isReserved word = false) (hts : Flagged .ellipsis variadic ts)
    (hus : Flagged .question optional us) (hvs : Announces .colon vs type) :
    Part .parenClose parameter (ts ++ .word word a b :: (us ++ vs))
      (.mk .parameter mark [.flag variadic, .node (.mk .identifier mark' [.text word]),
        .flag optional, .ofOption type, .absent]) := by
  refine fun d => ⟨?_, fun t rest ht hfits => ?_⟩
  · rcases hts with ⟨-, a', b', rfl⟩ | ⟨-, rfl⟩
    · exact ⟨_, _, rfl, by simp, by simp⟩
    · exact ⟨_, _, rfl, by simp, by simp⟩
  have hends : t.EndsType := by rcases ht with ht | ht <;> simp [Token.EndsType, ht]
  have hassign : t.kind ≠ .punct .assign := by rcases ht with ht | ht <;> simp [ht]
  have hfits' : (vs ++ t :: rest).length ≤ d := by
    simp only [List.length_append, List.length_cons] at hfits ⊢
    omega
  have hword : .word word a b :: (us ++ vs) =
      [Token.word word a b] ++ (us ++ (vs ++ ([] ++ []))) := by
    simp
  rw [hword]
  refine .after_here fun start => (hts.yields ⟨_, _, rfl, by simp⟩).bind fun x hx => ?_
  refine (yields_identifier hr _ mark').bind fun name hname => ?_
  refine (hus.yields ?_).bind fun y hy => ?_
  · simpa using hvs.apart (by decide) (hends.ne (by decide))
  refine (hvs.yields hfits' hends (hends.ne (by decide))).bind fun r hr => ?_
  refine Yields.bind (Q := (· = none)) (fun last => ⟨none, last, ?_, rfl⟩) fun z hz =>
    yields_finish ?_
  · exact announced_none _ hassign
  · subst hx hy hz
    simp only [Node.bare_mk, List.map_cons, List.map_nil, Field.bare_ofOption, hr]
    simp [Field.bare, Field.ofOption, hname, Node.bare_mk]

def Constrains (ts : List Token) (type : Option Node) : Prop :=
  ts = [] ∧ type = none ∨
    ∃ a b us e, ts = .word "extends" a b :: us ∧ type = some e ∧ Annotates us e

theorem Constrains.yields {type : Option Node} (h : Constrains ts type)
    (hrest : ∃ t r, rest = t :: r ∧ t.EndsType) (hfits : (ts ++ rest).length ≤ d) :
    Yields (toDepth d).constraint ts (fun r => r.map Node.bare = type.map Node.bare) rest := by
  intro last
  obtain ⟨t, r, rfl, ht⟩ := hrest
  rcases h with ⟨rfl, rfl⟩ | ⟨a, b, us, e, rfl, rfl, hus⟩
  · exact ⟨none, last, by simp [constraint, eatWord, Cursor.current, Token.isWord,
      ht.ne (k := .word) (by decide)], rfl⟩
  · rw [List.cons_append, List.length_cons] at hfits
    obtain ⟨d, rfl⟩ : ∃ d', d = d' + 1 := ⟨d - 1, by omega⟩
    obtain ⟨n, last', hread, hn⟩ := hus d t r (by omega) ht b
    exact ⟨some n, last', by simp [constraint, eatWord, Cursor.current, Cursor.advance,
      Token.isWord, hread], by simp [hn]⟩

theorem part_typeParameter {word : String} {constraint default : Option Node} {mark' : Mark}
    (hr : isReserved word = false) (hts : Constrains ts constraint)
    (hus : Announces .assign us default) :
    Part .greater typeParameter (.word word a b :: (ts ++ us))
      (.mk .typeParameter mark [.node (.mk .identifier mark' [.text word]),
        .ofOption constraint, .ofOption default]) := by
  refine fun d => ⟨⟨_, _, rfl, by simp, by simp⟩, fun t rest ht hfits => ?_⟩
  have hends : t.EndsType := by rcases ht with ht | ht <;> simp [Token.EndsType, ht]
  have hassign : t.kind ≠ .punct .assign := by rcases ht with ht | ht <;> simp [ht]
  have hfits' : (ts ++ (us ++ t :: rest)).length ≤ d := by
    simp only [List.length_append, List.length_cons] at hfits ⊢
    omega
  have hword : .word word a b :: (ts ++ us) = [Token.word word a b] ++ (ts ++ (us ++ [])) := by
    simp
  rw [hword, typeParameter_eq]
  refine .after_here fun start => (yields_identifier hr _ mark').bind fun name hname => ?_
  refine (hts.yields ?_ (by simpa using hfits')).bind fun r hr => ?_
  · rcases hus with ⟨rfl, -⟩ | ⟨a', b', vs, e, rfl, -, -⟩
    · exact ⟨t, rest, rfl, hends⟩
    · exact ⟨_, _, rfl, by simp [Token.EndsType]⟩
  have hfits : (us ++ t :: rest).length ≤ d := by
    simp only [List.length_append, List.length_cons] at hfits' ⊢
    omega
  refine (hus.yields hfits hends hassign).bind fun r' hr' => yields_finish ?_
  simp only [Node.bare_mk, List.map_cons, List.map_nil, Field.bare_ofOption, hr, hr']
  simp [Field.bare, hname, Node.bare_mk]

inductive IsFunction : List Token → Node → Prop
  | mk {tss tss' : List (List Token)} {us vs ws : List Token} {es es' : List Node} {e : Node}
    {mark : Mark} {a b a' b' c d : Nat} (htypes : List.Forall₂ (Part .greater typeParameter) tss es)
    (hus : Angled tss us) (hparams : List.Forall₂ (Part .parenClose parameter) tss' es')
    (hvs : Token.Joined .comma tss' vs) (hws : Annotates ws e) :
    IsFunction (us ++ ((.punct .parenOpen a b :: (vs ++ [.punct .parenClose a' b'])) ++
        ([.punct .arrow c d] ++ ws)))
      (.mk .functionType mark [.list es, .list es', .node e])

theorem IsFunction.begins (h : IsFunction ts e) :
    ∃ t r, ts = t :: r ∧ (t.kind = .punct .parenOpen ∨ t.kind = .punct .less) := by
  cases h with
  | mk _ hus _ _ _ =>
    rcases hus with ⟨-, rfl⟩ | ⟨-, a, b, vs, a', b', rfl, -⟩
    · exact ⟨_, _, rfl, by simp⟩
    · exact ⟨_, _, rfl, by simp⟩

theorem IsFunction.reads (h : IsFunction ts e) (ht : t.EndsType)
    (hfits : (ts ++ t :: rest).length ≤ d) : Reads (toDepth d).functionType ts e (t :: rest) := by
  cases h with
  | @mk tss tss' us vs ws _ _ _ _ _ _ _ _ _ _ htypes hus hparams hvs hws =>
    simp only [List.length_append, List.length_cons, List.length_nil] at hfits
    obtain ⟨d, rfl⟩ : ∃ d', d = d' + 1 := ⟨d - 1, by omega⟩
    rw [← List.append_nil ws]
    refine .after_here fun start => (typeParameters_yields htypes hus ?_ ?_).bind fun ns hns => ?_
    · exact ⟨_, _, rfl, by simp⟩
    · simp only [List.length_append, List.length_cons, List.length_nil]
      omega
    refine (parameters_yields hparams hvs ?_).bind fun ns' hns' => ?_
    · simp only [List.length_append, List.length_cons, List.length_nil]
      omega
    refine (yields_expect .arrow _).bind fun _ _ => ?_
    refine (hws d t rest ?_ ht).bind fun n hn => yields_finish ?_
    · simp only [List.length_append, List.length_cons]
      omega
    · simp [Node.bare_mk, Field.bare, hns, hns', hn]

theorem IsFunction.annotates (h : IsFunction ts e) : Annotates ts e := by
  obtain ⟨u, r, rfl, hu⟩ := h.begins
  refine annotates_of_arrayType ⟨u, r, rfl, ?_⟩ fun d t rest hfits ht last => ?_
  · rcases hu with hu | hu <;> simp [Token.BeginsType, hu]
  obtain ⟨n, last', hread, hn⟩ := h.reads ht hfits last
  have hstop : arrayStep u.start n ⟨last', t :: rest⟩ = .done (n, false) ⟨last', t :: rest⟩ := by
    simp [arrayStep, ht.ne (k := .punct .bracketOpen) (by decide)]
  rw [List.cons_append] at hread ⊢
  refine ⟨n, last', ?_, hn⟩
  rw [arrayType_eq]
  rcases hu with hu | hu <;> simp [primaryType, hu, Reader.attempt, hread, loop_stop hstop]

theorem IsFunction.unlike (h : IsFunction ts e) (rest : List Token) : Unlike (ts ++ rest) := by
  obtain ⟨u, r, rfl, hu⟩ := h.begins
  rcases hu with hu | hu <;>
    exact unlike_of_kind (by simp [hu]) (by simp [hu]) (by simp [hu]) _

/-- A member of a union is read up to the next bar, or to what ends the union. -/
theorem Member.reads (h : Member ts e) (ht : t.EndsType ∨ t.kind = .punct .pipe)
    (hfits : (ts ++ t :: rest).length ≤ d) : Reads (toDepth d).arrayType ts e (t :: rest) := by
  refine h.bracketed.yields ?_ hfits ?_
  · obtain ⟨u, us, rfl, -⟩ := h.begins
    simp
  · rcases ht with ht | ht
    · simp only [List.mem_cons, List.not_mem_nil, or_false, not_or]
      exact ⟨ht.ne (by decide), ht.ne (by decide), ht.ne (by decide)⟩
    · simp [ht]

theorem loop_unionStep (h : List.Forall₂ Member tss es) (hus : Token.Joined .pipe tss us)
    (hne : tss ≠ []) (ht : t.EndsType) (hfits : (us ++ t :: rest).length ≤ d) (types : List Node)
    (last : Nat) :
    ∃ n c ns last', (toDepth d).arrayType ⟨last, us ++ t :: rest⟩ = .done n c ∧
      c.rest.length ≤ (us ++ t :: rest).length ∧
      loop (types ++ [n]) (toDepth d).unionStep c = .done (types ++ n :: ns) ⟨last', t :: rest⟩ ∧
      (n :: ns).map Node.bare = es.map Node.bare := by
  -- Each round begins with a bar, so a group is read before the loop that reads the others.
  induction hus generalizing es types last with
  | nil => exact absurd rfl hne
  | single us =>
    obtain _ | ⟨hmember, _ | _⟩ := h
    obtain ⟨n, last', hread, hn⟩ := hmember.reads (.inl ht) hfits last
    refine ⟨n, _, [], last', hread, by simp, loop_stop ?_, by simp [hn]⟩
    simp [unionStep, ht.ne (k := .punct .pipe) (by decide)]
  | @cons us u vs tss ws hu _ ih =>
    cases h with
    | cons hmember hmembers =>
      rw [List.append_assoc, List.cons_append] at hfits ⊢
      obtain ⟨n, last₁, hread, hn⟩ := hmember.reads (.inr hu) hfits last
      simp only [List.length_append, List.length_cons] at hfits ih
      obtain ⟨m, c, ns, last', hnext, hle, hloop, hns⟩ := ih hmembers (by simp) (by omega)
        (types ++ [n]) u.stop
      refine ⟨n, _, m :: ns, last', hread, by simp, ?_, by simpa [hn] using hns⟩
      have hstep : (toDepth d).unionStep (types ++ [n]) ⟨last₁, u :: (ws ++ t :: rest)⟩ =
          .done (types ++ [n] ++ [m], true) c := by
        simp [unionStep, hu, hnext]
      refine loop_more hstep ?_ (by simpa using hloop)
      simp only [List.length_append, List.length_cons]
      omega

inductive IsUnion : List Token → Node → Prop
  | mk {ts ts' us : List Token} {tss : List (List Token)} {e e' : Node} {es : List Node}
    {mark : Mark} {t : Token} (h : List.Forall₂ Member (ts :: ts' :: tss) (e :: e' :: es))
    (ht : t.kind = .punct .pipe) (hus : Token.Joined .pipe (ts' :: tss) us) :
    IsUnion (ts ++ t :: us) (.mk .unionType mark [.list (e :: e' :: es)])

theorem IsUnion.begins (h : IsUnion ts e) : ∃ t r, ts = t :: r ∧ t.BeginsType := by
  cases h with
  | mk h _ _ =>
    cases h with
    | cons hmember _ =>
      obtain ⟨u, r, rfl, hu⟩ := hmember.begins
      exact ⟨u, _, rfl, hu⟩

theorem IsUnion.unlike (h : IsUnion ts e) (rest : List Token) : Unlike (ts ++ rest) := by
  cases h with
  | mk h ht _ =>
    cases h with
    | cons hmember _ =>
      rw [List.append_assoc]
      exact hmember.unlike _ _ (by simp [Token.FollowsParameter, ht])

theorem IsUnion.annotates (h : IsUnion ts e) : Annotates ts e := by
  obtain ⟨u, r, rfl, hu⟩ := h.begins
  intro d t rest hfits ht last
  -- The first token must be seen for the bar that may stand before a union.
  generalize hts : u :: r = ts at h hfits
  cases h with
  | @mk _ _ us _ e e' es mark v h hv hus =>
    obtain ⟨n, c, ns, last', hread, -, hloop, hns⟩ :=
      loop_unionStep h (.cons _ hv hus) (by simp) ht hfits [] last
    obtain ⟨m, ns, rfl⟩ : ∃ m ms, ns = m :: ms := by
      cases ns with
      | nil => simp at hns
      | cons m ms => exact ⟨m, ms, rfl⟩
    have hbare (mark' : Mark) : (Node.mk .unionType mark' [.list (n :: m :: ns)]).bare =
        (Node.mk .unionType mark [.list (e :: e' :: es)]).bare := by
      rw [Node.bare_mk, Node.bare_mk]
      exact congrArg (fun ms => Node.plain .unionType [.list ms]) hns
    refine ⟨.mk .unionType { span := some ⟨u.start, max last' u.start⟩ } [.list (n :: m :: ns)],
      last', ?_, hbare _⟩
    change (toDepth d).unionType _ = _
    rw [← hts, List.cons_append] at hread ⊢
    rw [List.nil_append] at hloop
    rw [unionType_eq]
    simp [hu.ne (k := .punct .pipe) (by decide), hread, hloop]

structure ReadsSignature (ts : List Token) (e : Node) : Prop where
  begins : ∃ t r, ts = t :: r ∧ t.kind ≠ .punct .braceClose ∧ t.kind ≠ .eof
  reads : ∀ d a b rest, (ts ++ .punct .semicolon a b :: rest).length ≤ d →
    Reads (toDepth d).propertySignature ts e (.punct .semicolon a b :: rest)

def signatureTail (g : Grammar) (start : Nat) (name : Node) : Parser Node := do
  let optional ← eat .question
  let type ← announced .colon g.typeNode
  finish .propertySignature start [.node name, .flag optional, .ofOption type]

theorem propertySignature_word (g : Grammar) (word : String) :
    g.propertySignature ⟨last, .word word a b :: rest⟩ =
      g.signatureTail a (.mk .identifier { span := some ⟨a, max b a⟩ } [.text word]) ⟨b, rest⟩ := by
  simp [propertySignature, identifierName_word, signatureTail]

theorem propertySignature_string (g : Grammar) (value : String) (single : Bool) :
    g.propertySignature ⟨last, .string value single a b :: rest⟩ =
      g.signatureTail a (.mk .stringLiteral { span := some ⟨a, max b a⟩ }
        [.text value, .flag single]) ⟨b, rest⟩ := by
  simp [propertySignature, stringLiteral, advance_cons, signatureTail]

inductive IsMemberName : Token → Node → Prop
  | word (word : String) (a b : Nat) (mark : Mark) :
    IsMemberName (.word word a b) (.mk .identifier mark [.text word])
  | string (value : String) (single : Bool) (a b : Nat) (mark : Mark) :
    IsMemberName (.string value single a b) (.mk .stringLiteral mark [.text value, .flag single])

theorem IsMemberName.propertySignature_eq (h : IsMemberName t e) (g : Grammar) (last : Nat)
    (rest : List Token) : ∃ name : Node, name.bare = e.bare ∧
      g.propertySignature ⟨last, t :: rest⟩ = g.signatureTail t.start name ⟨t.stop, rest⟩ := by
  cases h with
  | word word a b mark =>
    exact ⟨_, by simp [Node.bare_mk], propertySignature_word g word⟩
  | string value single a b mark =>
    exact ⟨_, by simp [Node.bare_mk, Field.bare], propertySignature_string g value single⟩

theorem readsSignature {optional : Bool} {type : Option Node} (ht : IsMemberName t e)
    (hus : Flagged .question optional us) (hvs : Announces .colon vs type) :
    ReadsSignature (t :: (us ++ vs))
      (.mk .propertySignature mark [.node e, .flag optional, .ofOption type]) where
  begins := ⟨t, _, rfl, by cases ht <;> simp, by cases ht <;> simp⟩
  reads := by
    intro d a b rest hfits last
    have hends : (Token.punct .semicolon a b).EndsType := by simp [Token.EndsType]
    have hfits' : (vs ++ .punct .semicolon a b :: rest).length ≤ d := by
      simp only [List.length_append, List.length_cons] at hfits ⊢
      omega
    obtain ⟨name, hname, heq⟩ := ht.propertySignature_eq (toDepth d) last
      (us ++ vs ++ .punct .semicolon a b :: rest)
    have htail : Reads ((toDepth d).signatureTail t.start name) (us ++ (vs ++ []))
        (.mk .propertySignature mark [.node e, .flag optional, .ofOption type])
        (.punct .semicolon a b :: rest) := by
      refine (hus.yields ?_).bind fun y hy => ?_
      · simpa using hvs.apart (by decide) (by simp)
      refine (hvs.yields hfits' hends (by simp)).bind fun r hr => yields_finish ?_
      subst hy
      simp only [Node.bare_mk, List.map_cons, List.map_nil, Field.bare_ofOption, hr]
      simp [Field.bare, hname]
    obtain ⟨n, last', hread, hn⟩ := htail t.stop
    refine ⟨n, last', ?_, hn⟩
    rw [List.append_nil] at hread
    rw [List.cons_append, heq, hread]

theorem loop_memberStep (h : List.Forall₂ (fun ts e =>
      ∃ us a b, ts = us ++ [.punct .semicolon a b] ∧ ReadsSignature us e) tss es)
    (hfits : (tss.flatten ++ .punct .braceClose a b :: rest).length ≤ d) (members : List Node)
    (last : Nat) :
    ∃ ns last', loop members (toDepth d).memberStep
        ⟨last, tss.flatten ++ .punct .braceClose a b :: rest⟩ =
      .done (members ++ ns) ⟨last', .punct .braceClose a b :: rest⟩ ∧
      ns.map Node.bare = es.map Node.bare := by
  induction h generalizing members last with
  | nil => exact ⟨[], last, loop_stop (by simp [memberStep]), rfl⟩
  | @cons ts e tss es hts _ ih =>
    obtain ⟨us, a', b', rfl, hus⟩ := hts
    rw [List.flatten_cons, List.append_assoc, List.append_assoc, List.singleton_append] at hfits ⊢
    obtain ⟨n, last₁, hread, hn⟩ := hus.reads d a' b' _ hfits last
    obtain ⟨u, r, rfl, hbrace, heof⟩ := hus.begins
    simp only [List.length_append, List.length_cons] at hfits ih
    obtain ⟨ns, last', hloop, hns⟩ := ih (by omega) (members ++ [n]) b'
    refine ⟨n :: ns, last', ?_, by simp [hn, hns]⟩
    rw [List.cons_append] at hread ⊢
    have hstep : (toDepth d).memberStep members ⟨last, u :: (r ++ .punct .semicolon a' b' ::
        (tss.flatten ++ .punct .braceClose a b :: rest))⟩ = .done (members ++ [n], true)
          ⟨b', tss.flatten ++ .punct .braceClose a b :: rest⟩ := by
      simp [memberStep, hbrace, heof, hread, memberSeparator]
    refine loop_more hstep ?_ (by simpa using hloop)
    simp only [List.length_append, List.length_cons]
    omega

theorem member_typeLiteral (h : List.Forall₂ (fun ts e =>
      ∃ us a b, ts = us ++ [.punct .semicolon a b] ∧ ReadsSignature us e) tss es) :
    Member (.punct .braceOpen a b :: (tss.flatten ++ [.punct .braceClose a' b']))
      (.mk .typeLiteral mark [.list es]) where
  begins := ⟨_, _, rfl, by simp [Token.BeginsType]⟩
  unlike t rest _ := unlike_of_kind (by simp) (by simp) (by simp) _
  bracketed := by
    intro d t rest hfits _ _ start last
    rw [List.cons_append, List.append_assoc, List.singleton_append] at hfits ⊢
    obtain ⟨ns, last', hloop, hns⟩ := loop_memberStep h (Nat.le_of_succ_le hfits) [] b
    refine ⟨.mk .typeLiteral { span := some ⟨a, max b' a⟩ } [.list ns], _, _, b', ?_, .refl _ _,
      by simp [Node.bare_mk, Field.bare, hns]⟩
    simp [primaryType, typeLiteral_eq, expect_punct, hloop]

inductive ReadsType : List Token → Node → Prop
  | member {ts : List Token} {e : Node} (hunion : e.kind ≠ .unionType)
    (hfunction : e.kind ≠ .functionType) (h : Member ts e) : ReadsType ts e
  | function {ts : List Token} {e : Node} (h : IsFunction ts e) : ReadsType ts e
  | union {ts : List Token} {e : Node} (h : IsUnion ts e) : ReadsType ts e

theorem ReadsType.begins (h : ReadsType ts e) : ∃ t r, ts = t :: r ∧ t.BeginsType := by
  cases h with
  | member _ _ h => exact h.begins
  | union h => exact h.begins
  | function h =>
    obtain ⟨t, r, rfl, ht⟩ := h.begins
    exact ⟨t, r, rfl, by rcases ht with ht | ht <;> simp [Token.BeginsType, ht]⟩

theorem ReadsType.annotates (h : ReadsType ts e) : Annotates ts e := by
  cases h with
  | member _ _ h =>
    exact annotates_of_arrayType h.begins fun d t rest hfits ht => h.reads (.inl ht) hfits
  | function h => exact h.annotates
  | union h => exact h.annotates

theorem ReadsType.part (h : ReadsType ts e) : Part .greater typeNode ts e :=
  h.annotates.part h.begins

/-- In parentheses a function or a union is a member. -/
theorem ReadsType.member_parens (h : ReadsType ts e)
    (hk : e.kind = .unionType ∨ e.kind = .functionType) :
    Member (.punct .parenOpen a b :: (ts ++ [.punct .parenClose a' b'])) e := by
  cases h with
  | member hunion hfunction _ => exact (hk.elim hunion hfunction).elim
  | function h => exact Grammar.member_parens h.annotates h.unlike
  | union h => exact Grammar.member_parens h.annotates h.unlike

theorem ReadsType.member_of_kind (h : ReadsType ts e) (hunion : e.kind ≠ .unionType)
    (hfunction : e.kind ≠ .functionType) : Member ts e := by
  cases h with
  | member _ _ h => exact h
  | function h =>
    cases h
    exact absurd rfl hfunction
  | union h =>
    cases h
    exact absurd rfl hunion

end Grammar

end Quasiquote
