import Quasiquote.Proofs.Legible

namespace Quasiquote

namespace Print

variable (depth : Nat)

theorem text_unionType {n : Node} (hk : n.kind = .unionType) :
    text depth n = " | ".intercalate ((n.list .types).map fun c =>
      if c.kind = .functionType then parens (text depth c) else text depth c) := by
  rw [text, hk]
  dsimp only
  rw [← Node.map_smallerList]

theorem typeSuffix_of_none {n : Node} (h : n.child? .typeNode = none) :
    typeSuffix depth n = "" := by
  rw [typeSuffix, Node.elim_smaller? _ _ _ fun c => ": " ++ text depth c, h]
  rfl

theorem initializer_of_none {n : Node} (h : n.child? .initializer = none) :
    initializer depth n = "" := by
  rw [initializer, Node.elim_smaller? _ _ _ fun c => " = " ++ operand depth Power.assignmentLevel c,
    h]
  rfl

theorem parameter_parameter (name : String) : parameter depth (.parameter name) = name := by
  have hname : (Node.parameter name).child? .name = some (.identifier name) := rfl
  have hrest : (Node.parameter name).flag .rest = false := rfl
  have hoptional : (Node.parameter name).flag .isOptional = false := rfl
  rw [parameter, Node.elim_smaller?, hname, hrest, hoptional, typeSuffix_of_none depth rfl,
    initializer_of_none depth rfl]
  simp [text_identifier]

def arrowBody (body : Node) : String :=
  if body.kind = .block then block depth body
  else if body.kind = .objectLiteralExpression then parens (text depth body)
  else operand depth Power.assignmentLevel body

theorem text_arrow (mark : Mark) (name : String) (body : Node) :
    text depth (.mk .arrowFunction mark (Node.arrowFunction [.parameter name] body).fields) =
      "(" ++ name ++ ")" ++ " => " ++ arrowBody depth body := by
  let n := Node.mk .arrowFunction mark (Node.arrowFunction [.parameter name] body).fields
  have hasync : n.flag .isAsync = false := rfl
  have htypes : n.list .typeParameters = [] := rfl
  have hparameters : n.list .parameters = [.parameter name] := rfl
  have hbody : n.child? .body = some body := rfl
  have hkind : n.kind = .arrowFunction := rfl
  change text depth n = _
  rw [text, hkind]
  dsimp only
  rw [Node.elim_smaller? _ _ _ fun c => if c.kind = .block then block depth c
      else if c.kind = .objectLiteralExpression then parens (text depth c)
      else operand depth Power.assignmentLevel c,
    signature, typeSuffix_of_none depth (rfl : n.child? .typeNode = none), typeParameters,
    parameters, Node.map_smallerList, Node.map_smallerList, hasync, htypes, hparameters, hbody]
  simp [arrowBody, parameter_parameter, commas, parens]

theorem text_arrowFunction (name : String) {body : Node} (hblock : body.kind ≠ .block)
    (hobject : body.kind ≠ .objectLiteralExpression) :
    text depth (.arrowFunction [.parameter name] body) =
      "(" ++ name ++ ")" ++ " => " ++ operand depth Power.assignmentLevel body := by
  have htext := text_arrow depth {} name body
  rwa [arrowBody, if_neg hblock, if_neg hobject] at htext

theorem text_expressionStatement {e : Node} (h : e.startsLikeStatement = false) :
    text depth (.plain .expressionStatement [.node e]) = text depth e ++ ";" := by
  have hkind : (Node.plain .expressionStatement [.node e]).kind = .expressionStatement := rfl
  have hexpression : (Node.plain .expressionStatement [.node e]).child? .expression = some e := rfl
  rw [text, hkind]
  dsimp only
  rw [Node.elim_smaller? _ _ _ fun c =>
    if c.startsLikeStatement then parens (text depth c) else text depth c, hexpression]
  simp [h]

end Print

theorem Node.startsLikeStatement_arrowFunction (parameters : List Node) (body : Node) :
    (Node.arrowFunction parameters body).startsLikeStatement = false := by
  have hkind : (Node.arrowFunction parameters body).kind = .arrowFunction := rfl
  rw [startsLikeStatement, firstOperand?, hkind]
  rfl

namespace Grammar

open Quasiquote.Parser

variable {g : Grammar} {ts us : List Token} {es : List Node} {pss : List (List Piece)}

theorem readsItem_parameter {name : String} (h : isReserved name = false) {ts : List Token}
    (hts : Piece.Spelled [.word name] ts) :
    ReadsItem .parenClose g.parameter ts (.parameter name) := by
  obtain ⟨a, b, _, rfl, hnil⟩ := hts.exists_of_word
  obtain rfl := hnil.eq_nil
  refine ⟨⟨_, _, rfl, by simp, by simp⟩, fun t rest ht last => ?_⟩
  have hquestion : t.kind ≠ .punct .question := ht.ne_punct (by decide)
  have hcolon : t.kind ≠ .punct .colon := ht.ne_punct (by decide)
  have hassign : t.kind ≠ .punct .assign := ht.ne_punct (by decide)
  refine ⟨.mk .parameter { span := some ⟨a, max b a⟩ } [.flag false, .node (.mk .identifier
    { span := some ⟨a, max b a⟩ } [.text name]), .flag false, .absent, .absent], b, ?_, ?_⟩
  · simp [parameter, identifier_word _ _ h, hquestion, announced_none _ hcolon,
      announced_none _ hassign, Field.ofOption]
  · simp [Node.parameter, Node.identifier, Node.plain, Node.bare_mk, Field.bare]

theorem arrowHead_reads (h : ReadsEach (ReadsItem .parenClose g.parameter) es pss)
    (hts : Piece.Spelled (Piece.commas pss) ts) (last a b a' b' c d : Nat) (rest : List Token) :
    ∃ ns, ns.map Node.bare = es.map Node.bare ∧
      g.arrowHead ⟨last, .punct .parenOpen a b ::
        (ts ++ .punct .parenClose a' b' :: .punct .arrow c d :: rest)⟩ =
      .done ([], ns, none) ⟨d, rest⟩ := by
  obtain ⟨ns, last', hns, hread⟩ := commaList_reads (pure ()) g.parameter (by simp [Idle])
    (.inl rfl) h hts b a' b' (.punct .arrow c d :: rest)
  refine ⟨ns, hns, ?_⟩
  simp [arrowHead, typeParameters, parameters, expect_punct, hread, announced_none]

/-- An arrow function with its parameters between parentheses. -/
theorem arrow?_of_arrowBody {body : Node} {rest : List Token}
    (h : ReadsEach (ReadsItem .parenClose g.parameter) es pss)
    (hts : Piece.Spelled (Piece.commas pss) ts) (hbody : Reads g.arrowBody us body rest)
    (last a b a' b' c d : Nat) :
    ∃ n last', n.bare = (Node.arrowFunction es body).bare ∧
      g.arrow? ⟨last, .punct .parenOpen a b :: (ts ++ .punct .parenClose a' b' ::
        .punct .arrow c d :: (us ++ rest))⟩ = .done (some n) ⟨last', rest⟩ := by
  obtain ⟨ns, hns, hhead⟩ := arrowHead_reads h hts last a b a' b' c d (us ++ rest)
  obtain ⟨m, last', hread, hm⟩ := hbody d
  refine ⟨.mk .arrowFunction { span := some ⟨a, max last' a⟩ } [.flag false, .list [], .list ns,
    .absent, .node m], last', ?_, ?_⟩
  · simp [Node.arrowFunction, Node.plain, Node.bare_mk, Field.bare, hns, hm]
  · simp [arrow?, atAsyncArrow, Token.isWord, arrowAfterAsync, atBareArrow, Reader.attempt, hhead,
      hread, Field.ofOption]

theorem ReadsElement.arrowBody {body : Node} {t : Token} (h : g.ReadsElement us body)
    (ht : t.Closes) (rest : List Token) : Reads g.arrowBody us body (t :: rest) := by
  intro last
  obtain ⟨m, last', hread, hm⟩ := h.reads t rest ht last
  obtain ⟨u, us, rfl, hu⟩ := h.begins
  have hbrace : u.kind ≠ .punct .braceOpen := by
    rintro hk
    simp [Token.BeginsElement, hk] at hu
  refine ⟨m, last', ?_, hm⟩
  rw [List.cons_append] at hread ⊢
  simp [Grammar.arrowBody, hbrace, hread]

/-- An arrow function with its parameters between parentheses and an expression for its body. -/
theorem arrow?_reads {body : Node} {t : Token}
    (h : ReadsEach (ReadsItem .parenClose g.parameter) es pss)
    (hts : Piece.Spelled (Piece.commas pss) ts) (hbody : g.ReadsElement us body) (ht : t.Closes)
    (last a b a' b' c d : Nat) (rest : List Token) :
    ∃ n last', n.bare = (Node.arrowFunction es body).bare ∧
      g.arrow? ⟨last, .punct .parenOpen a b :: (ts ++ .punct .parenClose a' b' ::
        .punct .arrow c d :: (us ++ t :: rest))⟩ = .done (some n) ⟨last', t :: rest⟩ :=
  arrow?_of_arrowBody h hts (hbody.arrowBody ht rest) last a b a' b' c d

theorem anyStatement_reads {ts : List Token} {function e : Node} {last last' a b c d : Nat}
    {rest : List Token} (h : g.arrow? ⟨last, .punct .parenOpen a b :: ts⟩ =
      .done (some function) ⟨last', .punct .semicolon c d :: rest⟩)
    (hfunction : function.bare = e.bare) :
    ∃ n, n.bare = (Node.plain .expressionStatement [.node e]).bare ∧
      g.anyStatement ⟨last, .punct .parenOpen a b :: ts⟩ = .done n ⟨d, rest⟩ := by
  refine ⟨.mk .expressionStatement { span := some ⟨a, max d a⟩ } [.node function], ?_, ?_⟩
  · simp [Node.plain, Node.bare_mk, Field.bare, hfunction]
  · simp [anyStatement, expressionStatement, assignment, h, semicolon]

def moduleStep (g : Grammar) (statements : List Node) : Parser (List Node × Bool) := do
  if ← atEof then return (statements, false)
  let statement ← g.statement
  return (statements ++ [statement], true)

theorem module_eq (g : Grammar) : g.module = (do
    let start ← here
    let statements ← loop [] g.moduleStep
    finish .sourceFile start [.list statements]) := rfl

theorem module_of_statement {t : Token} {statement : Node} {last' stop : Nat}
    (ht : t.kind ≠ .eof)
    (h : g.statement ⟨0, t :: ts⟩ = .done statement ⟨last', [Token.eofAt stop]⟩) :
    ∃ tree c, tree.list .statements = [statement] ∧ g.module ⟨0, t :: ts⟩ = .done tree c := by
  have hfirst : g.moduleStep [] ⟨0, t :: ts⟩ =
      .done ([statement], true) ⟨last', [Token.eofAt stop]⟩ := by
    simp [moduleStep, ht, h]
  have hsecond : g.moduleStep [statement] ⟨last', [Token.eofAt stop]⟩ =
      .done ([statement], false) ⟨last', [Token.eofAt stop]⟩ := by
    simp [moduleStep, Token.eofAt]
  have hloop : loop [] g.moduleStep ⟨0, t :: ts⟩ =
      .done [statement] ⟨last', [Token.eofAt stop]⟩ :=
    (loopWithin_more _ hfirst).trans (loopWithin_stop _ hsecond)
  refine ⟨.mk .sourceFile { span := some ⟨t.start, max last' t.start⟩ } [.list [statement]],
    ⟨last', [Token.eofAt stop]⟩, rfl, ?_⟩
  rw [module_eq]
  simp [hloop]

end Grammar

open Piece

def Node.arrowStatement (name : String) (body : Node) : Node :=
  .plain .expressionStatement [.node (.arrowFunction [.parameter name] body)]

def Piece.arrowStatement (name : String) (ps : List Piece) : List Piece :=
  .punct .parenOpen :: .word name :: .punct .parenClose :: .blank :: .punct .arrow :: .blank ::
    (ps ++ [.punct .semicolon])

section

variable {name : String} {body : Node} {ps : List Piece}

theorem print_arrowStatement (h : Legible body ps) (hblock : body.kind ≠ .block)
    (hobject : body.kind ≠ .objectLiteralExpression) :
    (Node.arrowStatement name body).print =
      String.ofList (allChars (Piece.arrowStatement name ps)) := by
  rw [Node.print, Node.arrowStatement,
    Print.text_expressionStatement _ (Node.startsLikeStatement_arrowFunction _ _),
    Print.text_arrowFunction _ _ hblock hobject, ← String.toList_inj]
  simp [h.prints, Piece.arrowStatement, chars, Punct.text]

theorem spaced_arrowStatement (h : Legible body ps) (hname : IsWord name) :
    Spaced (Piece.arrowStatement name ps) [] := by
  refine ⟨Punct.ends_of_mem (by simp) _, ⟨hname, ?_⟩, Punct.ends_of_mem (by simp) _, trivial,
    Punct.ends_of_mem (by simp) _, trivial, (spaced_append_iff _ _ _).mpr ⟨?_, ?_⟩⟩
  · rintro _ ⟨⟩
    decide
  · exact h.spaced ⟨';', _, rfl, by simp⟩
  · exact ⟨Punct.ends_of_mem (by simp) _, trivial⟩

theorem moduleOfTokens_arrowStatement (h : Legible body ps) (hname : isReserved name = false)
    {ts : List Token} (hts : Spelled (Piece.arrowStatement name ps) ts) (stop : Nat) :
    ∃ tree statement c, moduleOfTokens (ts ++ [Token.eofAt stop]) = .done tree c ∧
      tree.list .statements = [statement] ∧
      statement.bare = (Node.arrowStatement name body).bare := by
  obtain ⟨a₁, b₁, _, rfl, hopen⟩ := hts.exists_of_punct
  obtain ⟨a₂, b₂, _, rfl, hword⟩ := hopen.exists_of_word
  obtain ⟨a₃, b₃, _, rfl, hclose⟩ := hword.exists_of_punct
  obtain ⟨a₄, b₄, _, rfl, harrow⟩ := hclose.of_blank.exists_of_punct
  obtain ⟨us, a₅, b₅, rfl, hus⟩ := harrow.of_blank.exists_of_closed
  have hparameters : Spelled (commas [[.word name]]) [.word name a₂ b₂] := by
    simpa [commas] using Spelled.word name a₂ b₂ .nil
  -- the body stands two levels below the module, and five tokens beside it are left for them
  have hbody := h.reads hus (Nat.le_add_right us.length 5)
  obtain ⟨function, last, hfunction, hread⟩ := Grammar.arrow?_reads
    (.cons (fun ts hts => Grammar.readsItem_parameter hname hts) .nil) hparameters hbody
    (t := .punct .semicolon a₅ b₅) (by simp [Token.Closes]) 0 a₁ b₁ a₃ b₃ a₄ b₄
    [Token.eofAt stop]
  obtain ⟨statement, hstatement, hread⟩ := Grammar.anyStatement_reads hread hfunction
  obtain ⟨tree, c, hlist, hmodule⟩ := Grammar.module_of_statement
    (g := .toDepth (us.length + 5 + 1 + 1)) (by simp) hread
  refine ⟨tree, statement, c, ?_, hlist, hstatement⟩
  rw [moduleOfTokens]
  simpa using hmodule

/-- A function of one parameter with a legible body is read back from its text. -/
theorem parse_arrowStatement (h : Legible body ps) (hblock : body.kind ≠ .block)
    (hobject : body.kind ≠ .objectLiteralExpression) (hname : IsWord name)
    (hr : isReserved name = false) :
    ∃ tree statement, parse (Node.arrowStatement name body).print = .ok tree ∧
      tree.list .statements = [statement] ∧
      statement.bare = (Node.arrowStatement name body).bare := by
  obtain ⟨ts, stop, hts, hscan⟩ := Token.scan_allChars (spaced_arrowStatement h hname)
  obtain ⟨tree, statement, c, hmodule, hlist, hstatement⟩ :=
    moduleOfTokens_arrowStatement h hr hts stop
  refine ⟨tree, statement, ?_, hlist, hstatement⟩
  rw [print_arrowStatement h hblock hobject, parse, hscan]
  simp only [hmodule]

end

/-- The text of a function that rebuilds a tree is one statement, which is the function again, and
the body that is read from it builds the tree. -/
theorem Node.parse_print_builderCall (n : Node) (ns p : String) (hn : n.Conforms)
    (hns : Options.isIdentifier ns = true) (hnsr : isReserved ns = false)
    (hp : Options.isIdentifier p = true) (hpr : isReserved p = false) :
    ∃ tree statement function body m,
      parse (Node.arrowStatement p (n.builderCall ns)).print = .ok tree ∧
      tree.list .statements = [statement] ∧
      statement.same (Node.arrowStatement p (n.builderCall ns)) = true ∧
      statement.child? .expression = some function ∧ function.child? .body = some body ∧
      body.evaluate ns = .ok m ∧ m.same n = true := by
  obtain ⟨ps, hps⟩ := Node.legible_builderCall (Options.isWord_of_isIdentifier hns) hnsr n
  have hkind := Node.kind_builderCall ns n
  obtain ⟨tree, statement, hparse, hlist, hstatement⟩ := parse_arrowStatement hps
    (by simp [hkind]) (by simp [hkind]) (Options.isWord_of_isIdentifier hp) hpr
  obtain ⟨function, hfunction, hfunction'⟩ := Node.exists_child?_of_bare hstatement
    (rfl : (Node.arrowStatement p (n.builderCall ns)).child? .expression = some _)
  obtain ⟨body, hbody, hbody'⟩ := Node.exists_child?_of_bare hfunction'
    (rfl : (Node.arrowFunction [.parameter p] (n.builderCall ns)).child? .body = some _)
  refine ⟨tree, statement, function, body, n.bare, hparse, hlist,
    (Node.same_iff _ _).mpr hstatement, hfunction, hbody, ?_, Node.same_bare n⟩
  apply Node.evaluate_of_bare
  rw [hbody', Node.bare_builderCall]
  exact Node.evaluate_builderCall ns n hn

/-- Quotes, a backslash, line breaks and a control character in the strings of the tree, and names
that are words of the language elsewhere. -/
theorem Node.parse_print_builderCall_escapes :
    let n := Node.call (.identifier "undefined")
      [.stringLiteral "\"\\'\n\r\x01é\u2028", .plain .stringLiteral [.text "as", .flag true],
        .array [], .boolean false, .undefined]
    n.Conforms ∧ Options.isIdentifier "async" = true ∧ isReserved "async" = false ∧
      Options.isIdentifier "let" = true ∧ isReserved "let" = false ∧
      ∃ tree statement function body m,
        parse (Node.arrowStatement "let" (n.builderCall "async")).print = .ok tree ∧
        tree.list .statements = [statement] ∧
        statement.same (Node.arrowStatement "let" (n.builderCall "async")) = true ∧
        statement.child? .expression = some function ∧ function.child? .body = some body ∧
        body.evaluate "async" = .ok m ∧ m.same n = true := by
  intro n
  have hn : n.Conforms := by decide +kernel
  refine ⟨hn, by decide, by decide, by decide, by decide, ?_⟩
  exact Node.parse_print_builderCall n "async" "let" hn (by decide) (by decide) (by decide)
    (by decide)

end Quasiquote
