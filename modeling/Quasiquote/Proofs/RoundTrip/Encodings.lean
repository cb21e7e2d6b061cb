import Quasiquote.Proofs.Accounting
import Quasiquote.Proofs.RoundTrip.Operators
import Quasiquote.Proofs.RoundTrip.Pieces

namespace Quasiquote

def Token.EndsStatement (t : Token) : Prop :=
  t.kind ∈ [.punct .semicolon, .punct .braceClose, .eof]

namespace Grammar

open Quasiquote.Parser

variable {d last last' : Nat} {t u : Token} {rest : List Token} {n : Node}

/-- A primary expression before the end of a statement is a whole expression. -/
theorem assignment_of_primary (hcalm : Token.Calm d (t :: u :: rest)) (ht : t.BeginsPrimary)
    (hu : u.EndsStatement)
    (h : (toDepth d).primary ⟨last, t :: u :: rest⟩ = .done n ⟨last', u :: rest⟩) :
    (toDepth d).assignment ⟨last, t :: u :: rest⟩ = .done n ⟨last', u :: rest⟩ := by
  simp only [Token.EndsStatement, List.mem_cons, List.not_mem_nil, or_false] at hu
  have happly (start : Nat) : (toDepth d).postfixStep start n ⟨last', u :: rest⟩ =
      .done (n, false) ⟨last', u :: rest⟩ := by
    rcases hu with hu | hu | hu <;> simp [postfixStep, hu]
  have hbinary (start : Nat) : (toDepth d).binaryStep 0 start n ⟨last', u :: rest⟩ =
      .done (n, false) ⟨last', u :: rest⟩ := by
    rcases hu with hu | hu | hu <;>
      simp [binaryStep, Token.isWord, hu, TokenKind.binary?, Punct.binaryPower?]
  have hleft : (toDepth d).unary ⟨last, t :: u :: rest⟩ = .done n ⟨last', u :: rest⟩ := by
    simp [unary, ht.sign?_eq_none, leftHandSide, ht.not_new, h, loop_stop (happly t.start)]
  have hconditional : (toDepth d).conditional ⟨last, t :: u :: rest⟩ =
      .done n ⟨last', u :: rest⟩ := by
    rcases hu with hu | hu | hu <;>
      simp [conditional, binary, hleft, loop_stop (hbinary t.start), hu]
  have hassign : u.kind.assignment? = none := by
    rcases hu with hu | hu | hu <;> rw [hu] <;> rfl
  simp [assignment, arrow?_of_calm hcalm, hconditional, hassign]

/-- A name is a statement before a closing brace or the end of the input, unless it is a word that
begins another one. -/
theorem statement_name {token : String} {a b : Nat}
    (hcalm : Token.Calm d (.word token a b :: u :: rest)) (hr : isReserved token = false)
    (hlet : token ≠ "let") (hu : u.kind = .punct .braceClose ∨ u.kind = .eof) (last : Nat) :
    ∃ mark mark', (toDepth (d + 1)).statement ⟨last, .word token a b :: u :: rest⟩ =
      .done (.mk .expressionStatement mark [.node (.mk .identifier mark' [.text token])])
        ⟨b, u :: rest⟩ := by
  have hword : u.kind ≠ .word := by rcases hu with hu | hu <;> simp [hu]
  have hprimary : (toDepth d).primary ⟨last, .word token a b :: u :: rest⟩ = .done _ _ :=
    primary_word hr hword a b
  have hassign := assignment_of_primary hcalm (.inr ⟨rfl, hr⟩)
    (by rcases hu with hu | hu <;> simp [Token.EndsStatement, hu]) hprimary
  have hne (reserved : String) (h : isReserved reserved = true) : token ≠ reserved :=
    ne_of_isReserved hr h
  refine ⟨{ span := some ⟨a, max b a⟩ }, { span := some ⟨a, max b a⟩ }, ?_⟩
  change (toDepth d).anyStatement _ = _
  rcases hu with hu | hu <;>
    simp [anyStatement, wordStatement, isVariableKeyword, startsFunction, expressionStatement,
      semicolon, hassign, hu, hlet, Token.isWord, hne "import" (by decide),
      hne "export" (by decide), hne "const" (by decide), hne "var" (by decide),
      hne "function" (by decide), hne "return" (by decide), hne "if" (by decide),
      hne "throw" (by decide)]

theorem statement_string {value : String} {a b : Nat}
    (hcalm : Token.Calm d (.string value false a b :: u :: rest)) (hu : u.kind = .eof)
    (last : Nat) :
    ∃ mark mark', (toDepth (d + 1)).statement ⟨last, .string value false a b :: u :: rest⟩ =
      .done (.mk .expressionStatement mark
        [.node (.mk .stringLiteral mark' [.text value, .flag false])]) ⟨b, u :: rest⟩ := by
  have hprimary : (toDepth d).primary ⟨last, .string value false a b :: u :: rest⟩ = .done _ _ :=
    primary_string value false a b
  have hassign := assignment_of_primary hcalm (.inl (by simp)) (by simp [Token.EndsStatement, hu])
    hprimary
  refine ⟨{ span := some ⟨a, max b a⟩ }, { span := some ⟨a, max b a⟩ }, ?_⟩
  change (toDepth d).anyStatement _ = _
  simp [anyStatement, expressionStatement, semicolon, hassign, hu]

def blockStep (g : Grammar) (statements : List Node) : Parser (List Node × Bool) := do
  if ← atPunct .braceClose then return (statements, false)
  if ← atEof then reject .missingClosingBrace "block"
  let statement ← g.statement
  return (statements ++ [statement], true)

theorem block_eq (g : Grammar) : g.block = (do
    let start ← here
    expect .braceOpen "block"
    let statements ← loop [] g.blockStep
    let _ ← advance
    finish .block start [.list statements]) := rfl

/-- A block of one name. -/
theorem statement_block {token : String} {a b a' b' a'' b'' : Nat}
    (hcalm : Token.Calm d (.word token a b :: .punct .braceClose a' b' :: rest))
    (hr : isReserved token = false) (hlet : token ≠ "let") (last : Nat) :
    ∃ mark mark' mark'', (toDepth (d + 2)).statement
        ⟨last, .punct .braceOpen a'' b'' :: .word token a b :: .punct .braceClose a' b' :: rest⟩ =
      .done (.mk .block mark [.list [.mk .expressionStatement mark'
        [.node (.mk .identifier mark'' [.text token])]]]) ⟨b', rest⟩ := by
  obtain ⟨mark', mark'', hstatement⟩ := statement_name hcalm hr hlet (.inl rfl) b''
  refine ⟨{ span := some ⟨a'', max b' a''⟩ }, mark', mark'', ?_⟩
  have hfirst : (toDepth (d + 1)).blockStep []
      ⟨b'', .word token a b :: .punct .braceClose a' b' :: rest⟩ =
      .done ([.mk .expressionStatement mark' [.node (.mk .identifier mark'' [.text token])]], true)
        ⟨b, .punct .braceClose a' b' :: rest⟩ := by
    simp [blockStep, hstatement]
  have hsecond (statements : List Node) : (toDepth (d + 1)).blockStep statements
      ⟨b, .punct .braceClose a' b' :: rest⟩ =
      .done (statements, false) ⟨b, .punct .braceClose a' b' :: rest⟩ := by
    simp [blockStep]
  have hloop := loop_more hfirst (by simp) (loop_stop (hsecond _))
  change (toDepth (d + 1)).anyStatement _ = _
  simp [anyStatement, block_eq, expect_punct, hloop, advance_cons]

/-- A return of one name. -/
theorem statement_returned {token : String} {a b a' b' a'' b'' : Nat}
    (hcalm : Token.Calm d (.word token a b :: .punct .semicolon a' b' :: rest))
    (hr : isReserved token = false) (last : Nat) :
    ∃ mark mark', (toDepth (d + 2)).statement
        ⟨last, .word "return" a'' b'' :: .word token a b :: .punct .semicolon a' b' :: rest⟩ =
      .done (.mk .returnStatement mark [.node (.mk .identifier mark' [.text token])])
        ⟨b', rest⟩ := by
  have hprimary : (toDepth d).primary ⟨b'', .word token a b :: .punct .semicolon a' b' :: rest⟩ =
      .done _ _ := primary_word hr (by simp) a b
  have hassign := assignment_of_primary hcalm (.inr ⟨rfl, hr⟩) (by simp [Token.EndsStatement])
    hprimary
  refine ⟨{ span := some ⟨a'', max b' a''⟩ }, { span := some ⟨a, max b a⟩ }, ?_⟩
  change (toDepth (d + 1)).anyStatement _ = _
  simp [anyStatement, wordStatement, isVariableKeyword, startsFunction, returnStatement,
    advance_cons, toDepth_expression, hassign, semicolon, Field.ofOption]

end Grammar

namespace Token.IsName

variable {token : String}

theorem isWord (h : IsName token) : Piece.IsWord token :=
  Options.isWord_of_isIdentifier h.isIdentifier

/-- A name needs no escapes. -/
theorem quote_eq (h : IsName token) :
    Literal.quote token.toList '"' = '"' :: (token.toList ++ ['"']) := by
  have hplain (c : Char) (hc : c ∈ token.toList) : Literal.quoteChar '"' c = [c] := by
    have hne : ∀ d : Char, continuesName d = false → c ≠ d := by
      rintro d hd rfl
      rw [h.isNameLike c hc] at hd
      cases hd
    have hcontrol : ¬c.toNat < 0x20 := by
      intro hlt
      have hpoint : ∀ n < 0x20, continuesName (Char.ofNat n) = false := by decide
      have hc' := hpoint c.toNat hlt
      rw [Char.ofNat_toNat, h.isNameLike c hc] at hc'
      cases hc'
    simp [Literal.quoteChar, hne '\\' (by decide), hne '\n' (by decide), hne '\r' (by decide),
      hne '\t' (by decide), hne '"' (by decide), hcontrol]
  rw [Literal.quote, List.flatMap_congr hplain, List.flatMap_singleton']
  rfl

end Token.IsName

inductive Encoding.Gives (token : String) : Encoding → Node → Prop
  | quoted (mark mark' : Mark) : Gives token .quoted (.mk .expressionStatement mark
      [.node (.mk .stringLiteral mark' [.text token, .flag false])])
  | bare (mark mark' : Mark) : Gives token .bare (.mk .expressionStatement mark
      [.node (.mk .identifier mark' [.text token])])
  | braced (mark mark' mark'' : Mark) : Gives token .braced (.mk .block mark
      [.list [.mk .expressionStatement mark' [.node (.mk .identifier mark'' [.text token])]]])
  | returned (mark mark' : Mark) : Gives token .returned (.mk .returnStatement mark
      [.node (.mk .identifier mark' [.text token])])

open Piece

def Encoding.pieces (token : String) : Encoding → List Piece
  | quoted => [.string token false]
  | bare => [.word token]
  | braced => [.punct .braceOpen, .word token, .punct .braceClose]
  | returned => [.word "return", .blank, .word token, .punct .semicolon]

namespace Encoding

variable {token : String}

theorem toList_encode_eq_allChars (h : Token.IsName token) (e : Encoding) :
    (e.encode token).toList = allChars (e.pieces token) := by
  cases e with
  | quoted => simp [encode, pieces, chars, h.quote_eq]
  | bare => simp [encode, pieces, chars]
  | braced => simp [encode, pieces, chars, Punct.text]
  | returned => simp [encode, pieces, chars, Punct.text]

theorem spaced_pieces (h : Token.IsName token) (e : Encoding) : Spaced (e.pieces token) [] := by
  cases e with
  | quoted => exact ⟨trivial, trivial⟩
  | bare => exact ⟨⟨h.isWord, by simp⟩, trivial⟩
  | braced =>
    exact ⟨Punct.ends_of_mem (by simp) _, ⟨h.isWord, by rintro _ ⟨⟩; decide⟩,
      Punct.ends_of_mem (by simp) _, trivial⟩
  | returned =>
    exact ⟨⟨Options.isWord_of_isIdentifier (by decide), by rintro _ ⟨⟩; decide⟩, trivial,
      ⟨h.isWord, by rintro _ ⟨⟩; decide⟩, Punct.ends_of_mem (by simp) _, trivial⟩

theorem calm_of_spelled {ps : List Piece} {ts : List Token} (h : Spelled ps ts)
    (hps : .punct .arrow ∉ ps) (stop : Nat) :
    Token.Calm (ts.length + 1) (ts ++ [Token.eofAt stop]) := by
  refine ⟨⟨Token.eofAt stop, by simp, rfl⟩, fun t ht => ?_, by simp⟩
  rcases List.mem_append.mp ht with ht | ht
  · exact h.kind_ne hps t ht
  · obtain rfl := List.mem_singleton.mp ht
    simp [Token.eofAt]

/-- The text of an encoded token is one statement, which holds the token in the shape of the
encoding. -/
theorem parse_encode (h : Token.IsName token) (hr : isReserved token = false)
    (hlet : token ≠ "let") (e : Encoding) :
    ∃ fragment statement, parse (e.encode token) = .ok fragment ∧
      fragment.list .statements = [statement] ∧ Gives token e statement := by
  refine parse_of_statement (e.toList_encode_eq_allChars h) (e.spaced_pieces h) fun ts stop hts => ?_
  have hcalm := calm_of_spelled hts (by cases e <;> simp [pieces]) stop
  cases e with
  | quoted =>
    obtain ⟨a, b, _, rfl, hus⟩ := hts.exists_of_string
    obtain rfl := hus.eq_nil
    obtain ⟨mark, mark', hread⟩ := Grammar.statement_string hcalm rfl 0
    exact ⟨_, _, _, b, rfl, by simp, hread, .quoted mark mark'⟩
  | bare =>
    obtain ⟨a, b, _, rfl, hus⟩ := hts.exists_of_word
    obtain rfl := hus.eq_nil
    obtain ⟨mark, mark', hread⟩ := Grammar.statement_name hcalm hr hlet (.inr rfl) 0
    exact ⟨_, _, _, b, rfl, by simp, hread, .bare mark mark'⟩
  | braced =>
    obtain ⟨a, b, _, rfl, hus⟩ := hts.exists_of_punct
    obtain ⟨a', b', _, rfl, hvs⟩ := hus.exists_of_word
    obtain ⟨a'', b'', _, rfl, hws⟩ := hvs.exists_of_punct
    obtain rfl := hws.eq_nil
    obtain ⟨_, ⟨⟩, hinside⟩ := hcalm.inside
    obtain ⟨mark, mark', mark'', hread⟩ := Grammar.statement_block hinside hr hlet 0
    exact ⟨_, _, _, b'', rfl, by simp, hread, .braced mark mark' mark''⟩
  | returned =>
    obtain ⟨a, b, _, rfl, hus⟩ := hts.exists_of_word
    obtain ⟨a', b', _, rfl, hvs⟩ := hus.of_blank.exists_of_word
    obtain ⟨a'', b'', _, rfl, hws⟩ := hvs.exists_of_punct
    obtain rfl := hws.eq_nil
    obtain ⟨_, ⟨⟩, hinside⟩ := hcalm.inside
    obtain ⟨mark, mark', hread⟩ := Grammar.statement_returned hinside hr 0
    exact ⟨_, _, _, b'', rfl, by simp, hread, .returned mark mark'⟩

end Encoding

/-- The call that builds an encoded token has the pattern of its role. -/
theorem Role.token?_synthesize {role : Role} {token : String} {fragment statement : Node}
    (hlist : fragment.list .statements = [statement])
    (h : role.encoding.Gives token statement) (ns : String) :
    role.pattern.token? ns (fragment.synthesize ns) = some token := by
  have hname (mark : Mark) : Pattern.identifierToken? ns
      ((Node.mk .identifier mark [.text token]).builderCall ns) = some token := by
    rw [Pattern.identifierToken?, Node.factoryArguments?_builderCall]
    rfl
  rw [Node.synthesize, hlist]
  cases role <;> cases h
  case expression.bare mark mark' => exact hname mark'
  case identifier.bare mark mark' => exact hname mark'
  case block.braced mark mark' mark'' =>
    have honly : Pattern.onlyStatement? ns ((Node.mk .block mark [.list [.mk .expressionStatement
        mark' [.node (.mk .identifier mark'' [.text token])]]]).builderCall ns) =
        some ((Node.mk .expressionStatement mark'
          [.node (.mk .identifier mark'' [.text token])]).builderCall ns) := by
      rw [Pattern.onlyStatement?, Node.factoryArguments?_builderCall]
      rfl
    change Pattern.blockOfIdentifier.token? ns (Node.builderCall ns _) = _
    rw [Pattern.token?, honly, Option.bind_some, Node.factoryArguments?_builderCall]
    exact hname mark''
  case returnStatement.returned mark mark' =>
    change Pattern.returnOfIdentifier.token? ns (Node.builderCall ns _) = _
    rw [Pattern.token?, Node.factoryArguments?_builderCall]
    exact hname mark'
  case stringLiteral.quoted mark mark' =>
    change Pattern.stringLiteral.token? ns (Node.builderCall ns _) = _
    rw [Pattern.token?, Node.factoryArguments?_builderCall]
    rfl

/-- What a role writes for a token is what its pattern finds again. The text is a fragment, the call
that builds the fragment carries the token in the pattern of the role, and it has no other
pattern. -/
theorem Role.token?_encode {token : String} (h : Token.IsName token)
    (hr : isReserved token = false) (hlet : token ≠ "let") (ns : String) (role : Role) :
    ∃ fragment, parse (role.encoding.encode token) = .ok fragment ∧
      role.pattern.token? ns (fragment.synthesize ns) = some token ∧
      ∀ pattern, pattern ≠ role.pattern →
        pattern.token? ns (fragment.synthesize ns) = none := by
  obtain ⟨fragment, statement, hparse, hlist, hgives⟩ := role.encoding.parse_encode h hr hlet
  have htoken := token?_synthesize hlist hgives ns
  refine ⟨fragment, hparse, htoken, fun pattern hne => ?_⟩
  rw [Option.eq_none_iff_forall_ne_some]
  intro token' htoken'
  exact hne (Pattern.eq_of_token? htoken' htoken)

/-- A word that begins functions elsewhere, as a block, through a namespace that is no name. -/
theorem Role.token?_encode_async :
    Token.IsName "async" ∧ isReserved "async" = false ∧ "async" ≠ "let" ∧
      ∃ fragment, parse (block.encoding.encode "async") = .ok fragment ∧
        block.pattern.token? "t s" (fragment.synthesize "t s") = some "async" ∧
        ∀ pattern, pattern ≠ block.pattern →
          pattern.token? "t s" (fragment.synthesize "t s") = none := by
  have h : Token.IsName "async" := ⟨'a', _, rfl, by decide, List.all_eq_true.mp (by decide)⟩
  exact ⟨h, by decide, by decide, Role.token?_encode h (by decide) (by decide) "t s" block⟩

end Quasiquote
