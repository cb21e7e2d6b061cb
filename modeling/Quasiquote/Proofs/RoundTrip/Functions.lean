import Quasiquote.Proofs.RoundTrip.Annotations
import Quasiquote.Proofs.RoundTrip.Encodings
import Quasiquote.Proofs.RoundTrip.Expressions

namespace Quasiquote

namespace Token

variable {offset : Nat} {rest : List Char}

def openLine : List Token → List Token
  | [] => []
  | t :: ts => { t with newlineBefore := true } :: ts

theorem length_openLine (ts : List Token) : (openLine ts).length = ts.length := by
  cases ts <;> rfl

theorem scanFrom_feed (newline : Bool) :
    scanFrom [] newline offset ('\n' :: rest) = scanFrom [] true (offset + 1) rest := by
  have htrivia : scanTrivia offset '\n' rest = .ok (some (0, true)) := by
    simp [scanTrivia, show Text.isBlank '\n' = true by decide]
  have hsize : Text.byteLength ('\n' :: rest.take 0) = 1 := rfl
  rw [scanFrom, htrivia]
  simp only [bind, Except.bind, hsize, Bool.or_true, List.drop_zero]

theorem scanFrom_indent (newline : Bool) (n : Nat) :
    scanFrom [] newline offset (List.replicate n ' ' ++ rest) =
      scanFrom [] newline (offset + n) rest := by
  induction n generalizing offset with
  | zero => rfl
  | succ n ih =>
    have htrivia : scanTrivia offset ' ' (List.replicate n ' ' ++ rest) = .ok (some (0, false)) := by
      simp [scanTrivia, show Text.isBlank ' ' = true by decide]
    have hsize : Text.byteLength (' ' :: (List.replicate n ' ' ++ rest).take 0) = 1 := rfl
    rw [List.replicate_succ, List.cons_append, scanFrom, htrivia]
    simp only [bind, Except.bind, hsize, Bool.or_false, List.drop_zero]
    rw [ih, Nat.add_right_comm, Nat.add_assoc]

/-- A line feed before a token shows in that token only. -/
theorem scanFrom_openLine {c : Char} (hc : Text.isSolid c = true) :
    scanFrom [] true offset (c :: rest) = (scanFrom [] false offset (c :: rest)).map openLine := by
  have htrivia : scanTrivia offset c rest = .ok none := by
    simp only [Text.isSolid, Bool.and_eq_true, Bool.not_eq_true', decide_eq_true_eq] at hc
    simp [scanTrivia, hc.1, hc.2]
  rw [scanFrom, scanFrom, htrivia]
  simp only [bind, Except.bind]
  cases scanLexeme [] offset c rest with
  | error e => rfl
  | ok l =>
    simp only [ofLexeme]
    cases scanFrom l.depths false (offset + Text.byteLength ((c :: rest).take l.size))
      (rest.drop (l.size - 1)) <;> rfl

end Token

namespace Piece

def linesChars : List (Nat × List Piece) → List Char
  | [] => []
  | (indent, ps) :: ls => '\n' :: (List.replicate indent ' ' ++ (allChars ps ++ linesChars ls))

/-- Lines that begin with no white space or comment, and no piece of which is continued. -/
def SpacedLines : List (Nat × List Piece) → Prop
  | [] => True
  | (_, ps) :: ls => (∃ c r, allChars ps = c :: r ∧ Text.isSolid c = true) ∧
      Spaced ps (linesChars ls) ∧ SpacedLines ls

/-- Pieces without a token are blanks. -/
theorem Spelled.ne_nil {ps : List Piece} {ts : List Token} (h : Spelled ps ts) {c : Char}
    {r : List Char} (hps : allChars ps = c :: r) (hc : Text.isSolid c = true) : ts ≠ [] := by
  cases h with
  | nil => simp at hps
  | blank h =>
    obtain ⟨rfl, -⟩ := List.cons.inj hps
    exact absurd hc (by decide)
  | word | number | string | punct => exact List.cons_ne_nil _ _

end Piece

open Piece

namespace Token

theorem scanFrom_lines {ls : List (Nat × List Piece)} (h : SpacedLines ls) (offset : Nat) :
    ∃ tss stop, List.Forall₂ Spelled (ls.map Prod.snd) tss ∧
      scanFrom [] false offset (linesChars ls) = .ok (tss.flatMap openLine ++ [eofAt stop]) := by
  induction ls generalizing offset with
  | nil =>
    refine ⟨[], offset, .nil, ?_⟩
    rw [linesChars, scanFrom]
    rfl
  | cons l ls ih =>
    obtain ⟨indent, ps⟩ := l
    obtain ⟨⟨c, r, hps, hc⟩, hspaced, hls⟩ := h
    obtain ⟨ts, stop, hts, hscan⟩ :=
      scanFrom_allChars hspaced (offset + 1 + indent)
    obtain ⟨tss, stop', htss, hscan'⟩ := ih hls stop
    refine ⟨ts :: tss, stop', .cons hts htss, ?_⟩
    have hsolid : scanFrom [] true (offset + 1 + indent) (allChars ps ++ linesChars ls) =
        (scanFrom [] false (offset + 1 + indent) (allChars ps ++ linesChars ls)).map openLine := by
      rw [hps, List.cons_append]
      exact scanFrom_openLine hc
    obtain ⟨t, us, rfl⟩ := List.exists_cons_of_ne_nil (hts.ne_nil hps hc)
    rw [linesChars, scanFrom_feed, scanFrom_indent, hsolid, hscan, hscan']
    simp [Except.map, openLine]

/-- A text of several lines is scanned line by line. -/
theorem scan_lines {ps : List Piece} {ls : List (Nat × List Piece)} (h : Spaced ps (linesChars ls))
    (hls : SpacedLines ls) :
    ∃ ts tss stop, Spelled ps ts ∧ List.Forall₂ Spelled (ls.map Prod.snd) tss ∧
      scan (String.ofList (allChars ps ++ linesChars ls)) =
        .ok (ts ++ tss.flatMap openLine ++ [eofAt stop]) := by
  obtain ⟨ts, stop, hts, hscan⟩ := scanFrom_allChars h 0
  obtain ⟨tss, stop', htss, hscan'⟩ := scanFrom_lines hls stop
  refine ⟨ts, tss, stop', hts, htss, ?_⟩
  rw [scan, String.toList_ofList, hscan, hscan']
  simp [Except.map]

end Token

/-- Tokens of one statement are parsed to that statement. -/
theorem parse_of_scan {source : String} {t : Token} {ts : List Token} {stop last : Nat}
    {statement : Node} (hscan : Token.scan source = .ok (t :: ts ++ [Token.eofAt stop]))
    (ht : t.kind ≠ .eof)
    (h : (Grammar.toDepth (ts.length + 3)).statement ⟨0, t :: ts ++ [Token.eofAt stop]⟩ =
      .done statement ⟨last, [Token.eofAt stop]⟩) :
    ∃ tree, parse source = .ok tree ∧ tree.list .statements = [statement] := by
  obtain ⟨tree, c, hlist, hmodule⟩ := Grammar.module_of_statement ht h
  refine ⟨tree, ?_, hlist⟩
  have htokens : moduleOfTokens (t :: ts ++ [Token.eofAt stop]) = .done tree c := by
    rw [moduleOfTokens]
    simpa using hmodule
  rw [parse, hscan]
  simp only [htokens]

namespace Grammar

open Quasiquote.Parser

variable {g : Grammar} {d : Nat} {t : Token} {ts rest : List Token} {e : Node}

/-- The statement of a constant is read up to its semicolon. -/
theorem statement_const {name : String} (hr : isReserved name = false)
    (ht : t.isWord "const" = true) {a b a' b' c c' : Nat}
    (h : Reads (toDepth d).expression ts e (.punct .semicolon c c' :: rest)) :
    Reads (toDepth (d + 1)).statement (t :: .word name a b :: .punct .assign a' b' ::
      (ts ++ [.punct .semicolon c c'])) (.constStatement name e) rest := by
  intro last
  obtain ⟨value, last', hread, hvalue⟩ := h b'
  simp only [Token.isWord, Bool.and_eq_true, decide_eq_true_eq] at ht
  obtain ⟨hkind, htext⟩ := ht
  refine ⟨.mk .variableStatement { span := some ⟨t.start, max c' t.start⟩ } [.flag false, .node (.mk
    .variableDeclarationList { span := some ⟨t.start, max last' t.start⟩ } [.text "const",
      .list [.mk .variableDeclaration { span := some ⟨a, max last' a⟩ } [.node (.mk .identifier
        { span := some ⟨a, max b a⟩ } [.text name]), .absent, .node value]]])], c', ?_, ?_⟩
  · have hstep : (toDepth d).declarationStep [] ⟨t.stop, .word name a b :: .punct .assign a' b' ::
        (ts ++ .punct .semicolon c c' :: rest)⟩ = .done
          ([.mk .variableDeclaration { span := some ⟨a, max last' a⟩ } [.node (.mk .identifier
            { span := some ⟨a, max b a⟩ } [.text name]), .absent, .node value]], false)
          ⟨last', .punct .semicolon c c' :: rest⟩ := by
      simp [declarationStep, variableDeclaration, identifier_word _ _ hr, announced,
        hread, Field.ofOption]
    change (toDepth d).anyStatement _ = _
    simp [anyStatement, wordStatement, isVariableKeyword, variableStatement_eq, advance_cons, hkind,
      htext, loop_stop hstep, semicolon]
  · simp [Node.constStatement, Node.identifier, Node.plain, Node.bare_mk, Field.bare, hvalue]

theorem statement_return (ht : t.isWord "return" = true) {u : Token} (hu : u.kind = .word)
    (hnewline : u.newlineBefore = false) {c c' : Nat}
    (h : Reads (toDepth d).expression (u :: ts) e (.punct .semicolon c c' :: rest)) :
    Reads (toDepth (d + 1)).statement (t :: u :: (ts ++ [.punct .semicolon c c']))
      (.returnStatement (some e)) rest := by
  intro last
  obtain ⟨value, last', hread, hvalue⟩ := h t.stop
  rw [List.cons_append] at hread
  simp only [Token.isWord, Bool.and_eq_true, decide_eq_true_eq] at ht
  obtain ⟨hkind, htext⟩ := ht
  refine ⟨.mk .returnStatement { span := some ⟨t.start, max c' t.start⟩ } [.node value], c', ?_, ?_⟩
  · change (toDepth d).anyStatement _ = _
    simp [anyStatement, wordStatement, isVariableKeyword, startsFunction, returnStatement,
      advance_cons, Token.isWord, hkind, htext, hu, hnewline, hread, semicolon, Field.ofOption]
  · simp [Node.returnStatement, Field.ofOption, Node.plain, Node.bare_mk, Field.bare, hvalue]

structure ReadsStatement (g : Grammar) (ts : List Token) (s : Node) : Prop where
  begins : ∃ t r, ts = t :: r ∧ t.kind = .word
  reads : ∀ rest, Reads g.statement ts s rest

theorem loop_blockStep {tss : List (List Token)} {ss : List Node}
    (h : List.Forall₂ g.ReadsStatement tss ss) {u : Token} (hu : u.kind = .punct .braceClose)
    (statements : List Node) (last : Nat) (rest : List Token) :
    ∃ ns last', ns.map Node.bare = ss.map Node.bare ∧
      loop statements g.blockStep ⟨last, tss.flatten ++ u :: rest⟩ =
        .done (statements ++ ns) ⟨last', u :: rest⟩ := by
  induction h generalizing statements last with
  | nil =>
    refine ⟨[], last, rfl, ?_⟩
    apply loop_stop
    simp [blockStep, hu]
  | @cons ts s tss ss hs _ ih =>
    obtain ⟨t, r, rfl, ht⟩ := hs.begins
    obtain ⟨n, last₁, hread, hn⟩ := hs.reads (tss.flatten ++ u :: rest) last
    obtain ⟨ns, last', hns, hloop⟩ := ih (statements ++ [n]) last₁
    refine ⟨n :: ns, last', by simp [hn, hns], ?_⟩
    rw [List.flatten_cons, List.append_assoc]
    rw [List.cons_append] at hread ⊢
    have hstep : g.blockStep statements ⟨last, t :: (r ++ (tss.flatten ++ u :: rest))⟩ =
        .done (statements ++ [n], true) ⟨last₁, tss.flatten ++ u :: rest⟩ := by
      simp [blockStep, ht, hread]
    have hlt : (tss.flatten ++ u :: rest).length <
        (t :: (r ++ (tss.flatten ++ u :: rest))).length := by
      simp only [List.length_cons, List.length_append]
      omega
    apply loop_more hstep hlt
    simpa using hloop

/-- A block is read statement by statement. -/
theorem block_reads {tss : List (List Token)} {ss : List Node}
    (h : List.Forall₂ g.ReadsStatement tss ss) {u : Token} (hu : u.kind = .punct .braceClose)
    (a b : Nat) (rest : List Token) :
    Reads g.block (.punct .braceOpen a b :: (tss.flatten ++ [u])) (.block ss) rest := by
  intro last
  obtain ⟨ns, last', hns, hloop⟩ := loop_blockStep h hu [] b rest
  refine ⟨.mk .block { span := some ⟨a, max u.stop a⟩ } [.list ns], u.stop, ?_, ?_⟩
  · rw [block_eq]
    simp [expect_punct, hloop, advance_cons, hu]
  · simp [Node.block, Node.plain, Node.bare_mk, Field.bare, hns]

/-- A function of one parameter is an expression wherever its body ends. -/
theorem expression_arrow {name : String} (hr : isReserved name = false)
    (h : Reads (toDepth d).arrowBody ts e rest) (a b a' b' x y x' y' : Nat) :
    Reads (toDepth (d + 1)).expression (.punct .parenOpen a b :: .word name a' b' ::
      .punct .parenClose x y :: .punct .arrow x' y' :: ts)
      (.arrowFunction [.parameter name] e) rest := by
  intro last
  have hparameters : Spelled (commas [[.word name]]) [.word name a' b'] := by
    simpa [commas] using Spelled.word name a' b' .nil
  obtain ⟨n, last', hn, hread⟩ := arrow?_of_arrowBody
    (.cons (fun ts hts => readsItem_parameter hr hts) .nil) hparameters h last a b x y x' y'
  refine ⟨n, last', ?_, hn⟩
  change (toDepth d).assignment _ = _
  simp only [List.cons_append, List.nil_append] at hread ⊢
  simp [assignment, hread]

theorem arrow?_of_call {word : String} (h : word ≠ "async") {last a b a' b' : Nat} :
    g.arrow? ⟨last, .word word a b :: .punct .parenOpen a' b' :: rest⟩ =
      .done none ⟨last, .word word a b :: .punct .parenOpen a' b' :: rest⟩ := by
  simp [arrow?, atAsyncArrow, Token.isWord, arrowAfterAsync, atBareArrow, h]

theorem leftHandSide_call {callee : String} (hr : isReserved callee = false) {es : List Node}
    {pss : List (List Piece)} (h : ReadsEach g.ReadsElement es pss)
    (hts : Spelled (commas pss) ts) {u : Token} (hu : u.Closes)
    (last a b a' b' a'' b'' : Nat) :
    ∃ n, n.bare = (Node.call (.identifier callee) es).bare ∧
      g.leftHandSide ⟨last, .word callee a b :: .punct .parenOpen a' b' ::
        (ts ++ .punct .parenClose a'' b'' :: u :: rest)⟩ = .done n ⟨b'', u :: rest⟩ := by
  have hprimary : g.primary ⟨last, .word callee a b :: .punct .parenOpen a' b' ::
      (ts ++ .punct .parenClose a'' b'' :: u :: rest)⟩ = .done _ _ :=
    primary_word hr (by simp) a b
  obtain ⟨ns, hns, hcall⟩ := postfixStep_call h hts a (.mk .identifier
    { span := some ⟨a, max b a⟩ } [.text callee]) b a' b' a'' b'' (u :: rest)
  have hloop := (loopWithin_more _ hcall).trans
    (loopWithin_stop (ts ++ .punct .parenClose a'' b'' :: u :: rest).length
      (postfixStep_closes hu a _))
  have hnew := isWord_word_of_isReserved hr (by decide : isReserved "new" = true) a b
  refine ⟨.mk .callExpression { span := some ⟨a, max b'' a⟩ } [.node (.mk .identifier
    { span := some ⟨a, max b a⟩ } [.text callee]), .list [], .list ns], ?_, ?_⟩
  · simp [Node.call, Node.identifier, Node.plain, Node.bare_mk, Field.bare, hns]
  · simpa [leftHandSide, hnew, hprimary, loop] using hloop

end Grammar

/-- A call of something that has a name. -/
theorem legible_call {callee : String} (hw : IsWord callee) (hr : isReserved callee = false)
    (hasync : callee ≠ "async") {es : List Node} {pss : List (List Piece)}
    (h : List.Forall₂ Legible es pss) :
    Legible (.call (.identifier callee) es)
      (.word callee :: .punct .parenOpen :: (commas pss ++ [.punct .parenClose])) where
  prints depth := by
    have hcall : (Node.call (.identifier callee) es).power = Power.postfixLevel := rfl
    have hname : (Node.identifier callee).power = Power.primaryLevel := rfl
    rw [Print.operand, hcall, if_neg (by decide), Print.text_call, Print.operand, hname,
      if_neg (by decide), Print.text_identifier]
    simp [toList_commas h, chars, Punct.text, Print.parens]
  spaced hrest := by
    refine ⟨⟨hw, ?_⟩, Punct.ends_of_mem (by simp) _,
      (spaced_append_iff _ _ _).mpr ⟨?_, Punct.ends_of_mem (by simp) _, trivial⟩⟩
    · rintro _ ⟨⟩
      decide
    · exact spaced_commas h ⟨')', _, rfl, by simp⟩
  reads hts depth hd := by
    obtain ⟨a, b, _, rfl, hname⟩ := hts.exists_of_word
    obtain ⟨a', b', _, rfl, hopen⟩ := hname.exists_of_punct
    obtain ⟨us, a'', b'', rfl, hus⟩ := hopen.exists_of_closed
    simp only [List.length_cons, List.length_append, List.length_nil] at hd
    obtain ⟨d, rfl⟩ : ∃ d, depth = d + 1 := ⟨depth - 1, by omega⟩
    have hitems := readsElements h hus (by omega : us.length ≤ d)
    refine Grammar.readsElement_of_leftHandSide (by simp [Token.BeginsElement])
      (Grammar.sign?_word hr a b) (fun last u rest hu => Grammar.arrow?_of_call hasync)
      fun u rest hu last => ?_
    obtain ⟨n, hn, hread⟩ := Grammar.leftHandSide_call hr hitems hus hu last a b a' b' a'' b''
    exact ⟨n, b'', by simpa using hread, hn⟩

namespace Print

variable (depth : Nat)

theorem text_constStatement (name : String) (e : Node) :
    text depth (.constStatement name e) =
      "const " ++ name ++ " = " ++ operand depth Power.assignmentLevel e ++ ";" := by
  let declaration := Node.plain .variableDeclaration
    [.node (.identifier name), .absent, .node e]
  have hdeclaration : Print.declaration depth declaration =
      name ++ " = " ++ operand depth Power.assignmentLevel e := by
    have hname : declaration.child? .name = some (.identifier name) := rfl
    have hinitializer : declaration.child? .initializer = some e := rfl
    rw [Print.declaration, Node.elim_smaller?, typeSuffix_of_none depth rfl, initializer,
      Node.elim_smaller? _ _ _ fun c => " = " ++ operand depth Power.assignmentLevel c, hname,
      hinitializer]
    simp [text_identifier, String.append_assoc]
  let declarations := Node.plain .variableDeclarationList [.text "const", .list [declaration]]
  have hdeclarations : declarationList depth declarations =
      "const " ++ name ++ " = " ++ operand depth Power.assignmentLevel e := by
    have hlist : declarations.list .declarations = [declaration] := rfl
    have hkeyword : declarations.text? .keyword = some "const" := rfl
    rw [declarationList, Node.map_smallerList, hlist, hkeyword]
    simp [hdeclaration, commas, ← String.append_assoc]
  have hkind : (Node.constStatement name e).kind = .variableStatement := rfl
  have hchild : (Node.constStatement name e).child? .declarationList = some declarations := rfl
  have hexported : (Node.constStatement name e).flag .isExported = false := rfl
  rw [text, hkind]
  dsimp only
  rw [Node.elim_smaller?, hchild, hexported]
  simp [hdeclarations]

theorem block_block {ss : List Node} (h : ss ≠ []) :
    block depth (.block ss) = "\x7b" ++ String.join (ss.map fun s =>
      newline (depth + 1) ++ text (depth + 1) s) ++ newline depth ++ "\x7d" := by
  have hlist : (Node.block ss).list .statements = ss := rfl
  rw [block, Node.map_smallerList _ _ fun c => newline (depth + 1) ++ text (depth + 1) c, hlist]
  simp [h]

end Print

structure LegibleLine (s : Node) (ps : List Piece) : Prop where
  prints (depth : Nat) : (Print.text depth s).toList = allChars ps
  begins : ∃ c r, allChars ps = c :: r ∧ Text.isSolid c = true
  spaced (rest : List Char) : Spaced ps rest
  reads {ts : List Token} (hts : Spelled ps ts) {depth : Nat} (hd : ts.length ≤ depth) :
    (Grammar.toDepth (depth + 1)).ReadsStatement (Token.openLine ts) s

section

variable {e : Node} {ps : List Piece}

theorem legibleLine_const {name : String} (hw : IsWord name) (hr : isReserved name = false)
    (h : Legible e ps) :
    LegibleLine (.constStatement name e) (.word "const" :: .blank :: .word name :: .blank ::
      .punct .assign :: .blank :: (ps ++ [.punct .semicolon])) where
  prints depth := by
    rw [Print.text_constStatement]
    simp [h.prints, chars, Punct.text]
  begins := ⟨'c', _, rfl, by decide⟩
  spaced rest := by
    refine ⟨⟨Options.isWord_of_isIdentifier (by decide), by rintro _ ⟨⟩; decide⟩, trivial,
      ⟨hw, by rintro _ ⟨⟩; decide⟩, trivial, ?_, trivial, (spaced_append_iff _ _ _).mpr ⟨?_, ?_⟩⟩
    · exact Punct.ends_cons (by decide) (by simp) _
    · exact h.spaced ⟨';', _, rfl, by simp⟩
    · exact ⟨Punct.ends_of_mem (by simp) _, trivial⟩
  reads hts depth hd := by
    obtain ⟨a, b, _, rfl, hconst⟩ := hts.exists_of_word
    obtain ⟨a', b', _, rfl, hname⟩ := hconst.of_blank.exists_of_word
    obtain ⟨x, y, _, rfl, hassign⟩ := hname.of_blank.exists_of_punct
    obtain ⟨us, c, c', rfl, hus⟩ := hassign.of_blank.exists_of_closed
    simp only [List.length_cons, List.length_append, List.length_nil] at hd
    obtain ⟨d, rfl⟩ : ∃ d, depth = d + 1 := ⟨depth - 1, by omega⟩
    refine ⟨⟨_, _, rfl, rfl⟩, fun rest => Grammar.statement_const hr rfl ?_⟩
    exact (h.reads hus (by omega)).reads _ rest (by simp [Token.Closes])

theorem legibleLine_return {word : String} (h : Legible e (.word word :: ps))
    (hpower : Power.assignmentLevel ≤ e.power) :
    LegibleLine (.returnStatement (some e))
      (.word "return" :: .blank :: .word word :: (ps ++ [.punct .semicolon])) where
  prints depth := by
    have hoperand := h.prints depth
    rw [Print.operand, if_neg (by omega)] at hoperand
    rw [Print.text_return]
    simp [hoperand, chars, Punct.text]
  begins := ⟨'r', _, rfl, by decide⟩
  spaced rest := by
    refine ⟨⟨Options.isWord_of_isIdentifier (by decide), by rintro _ ⟨⟩; decide⟩, trivial, ?_⟩
    rw [← List.cons_append]
    refine (spaced_append_iff _ _ _).mpr ⟨h.spaced ⟨';', _, rfl, by simp⟩, ?_⟩
    exact ⟨Punct.ends_of_mem (by simp) _, trivial⟩
  reads hts depth hd := by
    obtain ⟨a, b, _, rfl, hreturn⟩ := hts.exists_of_word
    obtain ⟨a', b', _, rfl, hword⟩ := hreturn.of_blank.exists_of_word
    obtain ⟨us, c, c', rfl, hus⟩ := hword.exists_of_closed
    simp only [List.length_cons, List.length_append, List.length_nil] at hd
    obtain ⟨d, rfl⟩ : ∃ d, depth = d + 1 := ⟨depth - 1, by omega⟩
    have hread := h.reads (.word word a' b' hus) (show us.length + 1 ≤ d by omega)
    refine ⟨⟨_, _, rfl, rfl⟩, fun rest => Grammar.statement_return rfl rfl rfl ?_⟩
    exact hread.reads _ rest (by simp [Token.Closes])

end

/-- The body of a function and the semicolon after the function, on one line or on several. -/
structure LegibleBody (body : Node) (ps : List Piece) (ls : List (Nat × List Piece)) : Prop where
  prints : (Print.arrowBody 0 body).toList ++ [';'] = allChars ps ++ linesChars ls
  spaced : Spaced ps (linesChars ls)
  spacedLines : SpacedLines ls
  reads {ts : List Token} {tss : List (List Token)} (hts : Spelled ps ts)
    (htss : List.Forall₂ Spelled (ls.map Prod.snd) tss) {depth : Nat}
    (hd : (ts ++ tss.flatMap Token.openLine).length ≤ depth) :
    ∃ us c c', ts ++ tss.flatMap Token.openLine = us ++ [.punct .semicolon c c'] ∧
      ∀ rest, Parser.Reads (Grammar.toDepth (depth + 1)).arrowBody us body
        (.punct .semicolon c c' :: rest)

theorem legibleBody_expression {e : Node} {ps : List Piece} (h : Legible e ps)
    (hblock : e.kind ≠ .block) (hobject : e.kind ≠ .objectLiteralExpression) :
    LegibleBody e (ps ++ [.punct .semicolon]) [] where
  prints := by
    rw [Print.arrowBody, if_neg hblock, if_neg hobject, h.prints]
    simp [linesChars, chars, Punct.text]
  spaced := by
    refine (spaced_append_iff _ _ _).mpr ⟨h.spaced ⟨';', _, rfl, by simp⟩, ?_⟩
    exact ⟨Punct.ends_of_mem (by simp) _, trivial⟩
  spacedLines := trivial
  reads hts htss depth hd := by
    cases htss
    obtain ⟨us, c, c', rfl, hus⟩ := hts.exists_of_closed
    simp only [List.length_append, List.length_cons, List.length_nil, List.flatMap_nil] at hd
    refine ⟨us, c, c', by simp, fun rest => ?_⟩
    exact (h.reads hus (by omega)).arrowBody (by simp [Token.Closes]) rest

def Piece.blockLines (pss : List (List Piece)) : List (Nat × List Piece) :=
  pss.map (4, ·) ++ [(0, [.punct .braceClose, .punct .semicolon])]

section

variable {ss : List Node} {pss : List (List Piece)}

theorem toList_blockLines (h : List.Forall₂ LegibleLine ss pss) :
    (String.join (ss.map fun s => Print.newline 1 ++ Print.text 1 s)).toList ++
      ['\n', '\x7d', ';'] = linesChars (blockLines pss) := by
  have hnewline : (Print.newline 1).toList = '\n' :: List.replicate 4 ' ' := by decide
  rw [blockLines]
  induction h with
  | nil => rfl
  | cons hs _ ih => simp [linesChars, hs.prints, hnewline, ← ih]

theorem spacedLines_blockLines (h : List.Forall₂ LegibleLine ss pss) :
    SpacedLines (blockLines pss) := by
  rw [blockLines]
  induction h with
  | nil =>
    refine ⟨⟨'\x7d', _, rfl, by decide⟩, ⟨?_, ?_, trivial⟩, trivial⟩
    · exact Punct.ends_of_mem (by simp) _
    · exact Punct.ends_of_mem (by simp) _
  | cons hs _ ih => exact ⟨hs.begins, hs.spaced _, ih⟩

theorem readsStatements (h : List.Forall₂ LegibleLine ss pss) {tss : List (List Token)}
    (htss : List.Forall₂ Spelled ((blockLines pss).map Prod.snd) tss) {depth : Nat}
    (hd : (tss.flatMap Token.openLine).length ≤ depth) :
    ∃ uss u c c', tss.flatMap Token.openLine = uss.flatten ++ [u, .punct .semicolon c c'] ∧
      u.kind = .punct .braceClose ∧
      List.Forall₂ (Grammar.toDepth (depth + 1)).ReadsStatement uss ss := by
  rw [blockLines] at htss
  induction h generalizing tss with
  | nil =>
    obtain _ | ⟨hts, _ | _⟩ := htss
    obtain ⟨a, b, _, rfl, hbrace⟩ := hts.exists_of_punct
    obtain ⟨c, c', _, rfl, hnil⟩ := hbrace.exists_of_punct
    obtain rfl := hnil.eq_nil
    exact ⟨[], _, c, c', rfl, rfl, .nil⟩
  | cons hs _ ih =>
    obtain _ | ⟨hts, htss⟩ := htss
    rw [List.flatMap_cons, List.length_append, Token.length_openLine] at hd
    obtain ⟨uss, u, c, c', heq, hu, huss⟩ := ih htss (by omega)
    refine ⟨_ :: uss, u, c, c', ?_, hu, .cons (hs.reads hts (by omega)) huss⟩
    rw [List.flatMap_cons, heq, List.flatten_cons, List.append_assoc]

/-- A block of statements of one line each. -/
theorem legibleBody_block (hne : ss ≠ []) (h : List.Forall₂ LegibleLine ss pss) :
    LegibleBody (.block ss) [.punct .braceOpen] (blockLines pss) where
  prints := by
    have hkind : (Node.block ss).kind = .block := rfl
    have hnewline : (Print.newline 0).toList = ['\n'] := by decide
    rw [Print.arrowBody, if_pos hkind, Print.block_block 0 hne]
    simp [← toList_blockLines h, hnewline, chars, Punct.text]
  spaced := ⟨Punct.ends_of_mem (by simp) _, trivial⟩
  spacedLines := spacedLines_blockLines h
  reads hts htss depth hd := by
    obtain ⟨a, b, _, rfl, hnil⟩ := hts.exists_of_punct
    obtain rfl := hnil.eq_nil
    have hlines : _ ≤ depth := (List.length_append ▸ hd : _ + _ ≤ depth).trans' (Nat.le_add_left _ _)
    obtain ⟨uss, u, c, c', heq, hu, huss⟩ := readsStatements h htss hlines
    refine ⟨.punct .braceOpen a b :: (uss.flatten ++ [u]), c, c', by simp [heq],
      fun rest last => ?_⟩
    obtain ⟨n, last', hread, hn⟩ :=
      Grammar.block_reads huss hu a b (.punct .semicolon c c' :: rest) last
    refine ⟨n, last', ?_, hn⟩
    simp only [List.append_assoc, List.cons_append, List.nil_append] at hread ⊢
    simp [Grammar.arrowBody, hread]

end

/-- A constant that is a function of one parameter, up to the body `ps` on the first line. -/
def Piece.constArrow (name : String) (ps : List Piece) : List Piece :=
  .word "const" :: .blank :: .word "a" :: .blank :: .punct .assign :: .blank :: .punct .parenOpen ::
    .word name :: .punct .parenClose :: .blank :: .punct .arrow :: .blank :: ps

section

variable {body : Node} {ps : List Piece} {ls : List (Nat × List Piece)} {name : String}

theorem spaced_constArrow (hw : IsWord name) {rest : List Char} (h : Spaced ps rest) :
    Spaced (constArrow name ps) rest := by
  have hconst : IsWord "const" := Options.isWord_of_isIdentifier (by decide)
  have ha : IsWord "a" := Options.isWord_of_isIdentifier (by decide)
  refine ⟨⟨hconst, ?_⟩, trivial, ⟨ha, ?_⟩, trivial, Punct.ends_cons (by decide) (by simp) _, trivial,
    Punct.ends_of_mem (by simp) _, ⟨hw, ?_⟩, Punct.ends_of_mem (by simp) _, trivial,
    Punct.ends_of_mem (by simp) _, trivial, h⟩
  · rintro _ ⟨⟩
    decide
  · rintro _ ⟨⟩
    decide
  · rintro _ ⟨⟩
    decide

theorem statement_constArrow (h : LegibleBody body ps ls) (hr : isReserved name = false)
    {ts : List Token} {tss : List (List Token)} (hts : Spelled (constArrow name ps) ts)
    (htss : List.Forall₂ Spelled (ls.map Prod.snd) tss) {depth : Nat}
    (hd : (ts ++ tss.flatMap Token.openLine).length ≤ depth) (rest : List Token) :
    Parser.Reads (Grammar.toDepth (depth + 1)).statement (ts ++ tss.flatMap Token.openLine)
      (.constStatement "a" (.arrowFunction [.parameter name] body)) rest := by
  obtain ⟨a₁, b₁, _, rfl, hconst⟩ := hts.exists_of_word
  obtain ⟨a₂, b₂, _, rfl, hname⟩ := hconst.of_blank.exists_of_word
  obtain ⟨a₃, b₃, _, rfl, hassign⟩ := hname.of_blank.exists_of_punct
  obtain ⟨a₄, b₄, _, rfl, hopen⟩ := hassign.of_blank.exists_of_punct
  obtain ⟨a₅, b₅, _, rfl, hparameter⟩ := hopen.exists_of_word
  obtain ⟨a₆, b₆, _, rfl, hclose⟩ := hparameter.exists_of_punct
  obtain ⟨a₇, b₇, us, rfl, harrow⟩ := hclose.of_blank.exists_of_punct
  simp only [List.cons_append, List.length_cons] at hd ⊢
  -- the body stands below the function, and the function below the statement
  obtain ⟨d, rfl⟩ : ∃ d, depth = d + 2 := ⟨depth - 2, by omega⟩
  obtain ⟨vs, c, c', hvs, hbody⟩ := h.reads harrow.of_blank htss (show _ ≤ d by omega)
  rw [hvs]
  exact Grammar.statement_const (by decide) rfl
    (Grammar.expression_arrow hr (hbody rest) a₄ b₄ a₅ b₅ a₆ b₆ a₇ b₇)

/-- A constant that is a function of one parameter is read back from its text. -/
theorem parse_constArrow (h : LegibleBody body ps ls) (hw : IsWord name)
    (hr : isReserved name = false) :
    ∃ tree statement, parse ("const a = " ++ ("(" ++ name ++ ")" ++ " => " ++
        Print.arrowBody 0 body) ++ ";") = .ok tree ∧ tree.list .statements = [statement] ∧
      statement.bare = (Node.constStatement "a" (.arrowFunction [.parameter name] body)).bare := by
  have htext : "const a = " ++ ("(" ++ name ++ ")" ++ " => " ++ Print.arrowBody 0 body) ++ ";" =
      String.ofList (allChars (constArrow name ps) ++ linesChars ls) := by
    rw [← String.toList_inj]
    simp [constArrow, chars, Punct.text, h.prints]
  obtain ⟨ts, tss, stop, hts, htss, hscan⟩ :=
    Token.scan_lines (spaced_constArrow hw h.spaced) h.spacedLines
  have hread (depth : Nat) (hd : (ts ++ tss.flatMap Token.openLine).length ≤ depth) :=
    statement_constArrow h hr hts htss hd [Token.eofAt stop] 0
  obtain ⟨a, b, us, rfl, -⟩ := hts.exists_of_word
  rw [List.cons_append, List.cons_append] at hscan
  obtain ⟨statement, last, hread, hstatement⟩ := hread _ (Nat.le_succ _)
  obtain ⟨tree, hparse, hlist⟩ := parse_of_scan hscan (by simp) hread
  rw [htext]
  exact ⟨tree, statement, hparse, hlist, hstatement⟩

end

def Kind.namedPart? : Kind → Option Label
  | .parameter => some .name
  | .propertyAccessExpression => some .expression
  | _ => none

namespace Node

def Unreserved (n : Node) : Prop :=
  ∀ l, n.kind.namedPart? = some l → ∀ c ∈ n.nodesAt l, ∀ name ∈ c.identifier?,
    isReserved name = false

def AllUnreserved (n : Node) : Prop :=
  ∀ m ∈ n.preorder, m.Unreserved

variable {n m : Node}

theorem Unreserved.of_bare (h : n.bare = m.bare) (hm : m.Unreserved) : n.Unreserved := by
  have hkind : n.kind = m.kind := by simpa using congrArg Node.kind h
  intro l hl c hc name hname
  have hmem : c.bare ∈ (m.nodesAt l).map bare := by
    rw [← nodesAt_bare, ← h, nodesAt_bare]
    exact List.mem_map_of_mem hc
  obtain ⟨d, hd, heq⟩ := List.mem_map.mp hmem
  rw [← identifier?_bare, ← heq, identifier?_bare] at hname
  exact hm l (hkind ▸ hl) d hd name hname

theorem allUnreserved_iff (n : Node) :
    n.AllUnreserved ↔ n.Unreserved ∧ ∀ c ∈ n.children, c.AllUnreserved := by
  unfold AllUnreserved
  rw [preorder_eq, List.forall_mem_cons, List.forall_mem_flatMap]

theorem AllUnreserved.unreserved (h : n.AllUnreserved) : n.Unreserved :=
  h n n.self_mem_preorder

theorem AllUnreserved.of_mem_list {c : Node} {l : Label} (h : n.AllUnreserved) (hc : c ∈ n.list l) :
    c.AllUnreserved :=
  ((allUnreserved_iff n).mp h).2 c (mem_children_of_mem_list hc)

theorem AllUnreserved.of_child? {c : Node} {l : Label} (h : n.AllUnreserved)
    (hc : n.child? l = some c) : c.AllUnreserved :=
  ((allUnreserved_iff n).mp h).2 c (mem_children_of_child? hc)

end Node

namespace Derives

variable {ts : List Token} {n : Node} {name : String}

theorem isReserved_of_name (h : Derives .name ts [n]) (hn : n.identifier? = some name) :
    isReserved name = false := by
  obtain ⟨_, _, ⟨⟩, hm⟩ := h.exists_makes rfl
  cases hm with
  | name ht hr =>
    cases hn
    exact hr

/-- A name that is an expression is no reserved word. -/
theorem isReserved_of_expression (h : Derives .expression ts [n])
    (hn : n.identifier? = some name) : isReserved name = false := by
  cases h with
  | operand hp h =>
    rcases hp with rfl | hp
    · exact h.isReserved_of_name hn
    · obtain ⟨_, _, ⟨⟩, hm⟩ := h.exists_makes (by rcases hp with rfl | rfl | rfl <;> rfl)
      rcases hp with rfl | rfl | rfl <;> cases hm <;> cases hn
  | made h =>
    cases h with
    | keywordLiteral _ hk =>
      unfold Grammar.keywordLiteral? at hk
      split at hk <;> cases hk <;> cases hn
    | _ => cases hn

theorem isReserved_of_callee (h : Derives .callee ts [n]) (hn : n.identifier? = some name) :
    isReserved name = false := by
  cases h with
  | callee _ h _ => exact h.isReserved_of_expression hn
  | made h =>
    cases h
    cases hn

end Derives

theorem Makes.unreserved {p : Phrase} {ts : List Token} {kind : Kind} {fields : List Field}
    (h : Makes Derives p ts kind fields) : (Node.over kind ts fields).Unreserved := by
  intro l hl c hc name hname
  replace hl : kind.namedPart? = some l := hl
  cases h with
  | parameter _ hn | bareParameter hn =>
    cases hl
    obtain rfl := List.mem_singleton.mp hc
    exact hn.isReserved_of_name hname
  | calleeAccess h =>
    cases hl
    obtain rfl := List.mem_singleton.mp hc
    exact h.isReserved_of_callee hname
  | access h =>
    cases hl
    obtain rfl := List.mem_singleton.mp hc
    exact h.isReserved_of_expression hname
  | keywordLiteral _ hk =>
    unfold Grammar.keywordLiteral? at hk
    split at hk <;> cases hk <;> cases hl
  | _ => cases hl

theorem parse_allUnreserved {source : String} {tree : Node} (h : parse source = .ok tree) :
    tree.AllUnreserved := by
  obtain ⟨tokens, c, -, hdone⟩ := parse_eq_ok h
  obtain ⟨ts, statements, mark, -, -, hd, -, rfl⟩ := moduleOfTokens_done hdone
  rw [Node.allUnreserved_iff]
  refine ⟨nofun, fun s hs => hd.forall_mem_preorder Makes.unreserved s ?_⟩
  simpa [Node.children, Node.fields] using hs

namespace Options

variable (o : Options)

def emptyBody : Node :=
  let call := Node.factoryCall o.factoryNamespace .emptyStatement []
  match o.moduleFormat with
  | .esModule => call
  | .commonJs =>
    .block [.constStatement o.factoryNamespace
        (.call (.identifier "require") [.stringLiteral o.factoryModule]),
      .returnStatement (some call)]

def emptyFunction : Node :=
  .arrowFunction [.parameter o.parameterName] o.emptyBody

variable {o}

theorem isIdentifier_of_validate (h : o.validate = .ok ()) :
    isIdentifier o.factoryNamespace = true ∧ isIdentifier o.parameterName = true := by
  rw [validate] at h
  split_ifs at h with hns hp
  exact ⟨by simpa using hns, by simpa using hp⟩

theorem exists_legibleBody (hns : IsWord o.factoryNamespace)
    (hr : isReserved o.factoryNamespace = false) : ∃ ps ls, LegibleBody o.emptyBody ps ls := by
  have hcall := legible_factoryCall hns hr .emptyStatement .nil
  rw [emptyBody]
  cases o.moduleFormat with
  | esModule => exact ⟨_, _, legibleBody_expression hcall nofun nofun⟩
  | commonJs =>
    have hrequire := legible_call (Options.isWord_of_isIdentifier (by decide)) (by decide)
      (by decide : "require" ≠ "async") (.cons (legible_stringLiteral o.factoryModule) .nil)
    exact ⟨_, _, legibleBody_block (by simp) (.cons (legibleLine_const hns hr hrequire)
      (.cons (legibleLine_return hcall (show Power.assignmentLevel ≤ Power.postfixLevel by decide))
        .nil))⟩

/-- Both names stand where a reserved word cannot be read. -/
theorem isReserved_of_allUnreserved
    (h : (Node.constStatement "a" o.emptyFunction).AllUnreserved) :
    isReserved o.parameterName = false ∧ isReserved o.factoryNamespace = false := by
  have hdeclarations := h.of_child? (l := .declarationList) rfl
  have hdeclaration := hdeclarations.of_mem_list (l := .declarations) (List.mem_singleton_self _)
  have hfunction : o.emptyFunction.AllUnreserved := hdeclaration.of_child? (l := .initializer) rfl
  have hparameter : (Node.parameter o.parameterName).AllUnreserved :=
    hfunction.of_mem_list (l := .parameters) (List.mem_singleton_self _)
  have hbody : o.emptyBody.AllUnreserved := hfunction.of_child? (l := .body) rfl
  have hcall : (Node.factoryCall o.factoryNamespace .emptyStatement []).AllUnreserved := by
    rw [emptyBody] at hbody
    cases hformat : o.moduleFormat with
    | esModule => simpa only [hformat] using hbody
    | commonJs =>
      simp only [hformat] at hbody
      have hreturn := hbody.of_mem_list (l := .statements) (List.mem_cons_of_mem _
        (List.mem_singleton_self _))
      exact hreturn.of_child? (l := .expression) rfl
  have hobject := hcall.of_child? (l := .expression) rfl
  exact ⟨hparameter.unreserved .name rfl _ (List.mem_singleton_self _) _ rfl,
    hobject.unreserved .expression rfl _ (List.mem_singleton_self _) _ rfl⟩

end Options

theorem Print.print_emptyFunction (o : Options) (span : Option Span) :
    (o.emptyFunction.withSpan span).print =
      "(" ++ o.parameterName ++ ")" ++ " => " ++ Print.arrowBody 0 o.emptyBody :=
  Print.text_arrow 0 { o.emptyFunction.mark with span } o.parameterName o.emptyBody

namespace FilePass

variable {p : FilePass} {site template : Node}

theorem expandSite_empty (ht : site.child? .template = some template)
    (hempty : (TemplateParts.ofTemplate template).isEmpty = true) (s : Progress) :
    Pass.Yields (p.expandSite site) s (p.options.emptyFunction.withSpan site.span)
      { s with expansions := s.expansions + 1 } := by
  have hexpand : p.compilation.expandTemplate template s.ids =
      (.ok { tree := .factoryCall p.options.factoryNamespace .emptyStatement [] }, s.ids) := by
    simp [Compilation.expandTemplate, Compilation.compileTemplate, hempty, options]
  have hassemble : p.assemble (.factoryCall p.options.factoryNamespace .emptyStatement []) =
      p.options.emptyFunction := by
    unfold assemble Options.emptyFunction Options.emptyBody
    cases p.options.moduleFormat <;> rfl
  rw [Pass.Yields, outcome_expandSite s ht, hexpand]
  simp [diagnostics, hassemble]

/-- The function for an empty template, as the value of a constant, is read back from its text
exactly when neither its parameter nor the namespace of the factories is a reserved word. -/
theorem parse_emptyFunction_iff (p : FilePass) (hvalid : p.options.validate = .ok ())
    (ht : site.child? .template = some template)
    (hempty : (TemplateParts.ofTemplate template).isEmpty = true) (s : Progress) :
    ∃ function s', Pass.Yields (p.expandSite site) s function s' ∧
      function.same p.options.emptyFunction = true ∧
      ((∃ tree statement, parse ("const a = " ++ function.print ++ ";") = .ok tree ∧
          tree.list .statements = [statement] ∧
          statement.same (.constStatement "a" function) = true) ↔
        isReserved p.options.parameterName = false ∧
          isReserved p.options.factoryNamespace = false) := by
  obtain ⟨hns, hname⟩ := Options.isIdentifier_of_validate hvalid
  have hbare : (p.options.emptyFunction.withSpan site.span).bare = p.options.emptyFunction.bare := by
    rw [Node.withSpan, Node.bare_mk]
    exact (Node.bare_mk ..).symm
  have hconst : (Node.constStatement "a" (p.options.emptyFunction.withSpan site.span)).bare =
      (Node.constStatement "a" p.options.emptyFunction).bare := by
    simp [Node.constStatement, Node.plain, Node.bare_mk, Field.bare, hbare]
  refine ⟨_, _, expandSite_empty ht hempty s, (Node.same_iff _ _).mpr hbare, ?_⟩
  rw [Print.print_emptyFunction]
  constructor
  · rintro ⟨tree, statement, hparse, hlist, hsame⟩
    rw [Node.same_iff, hconst] at hsame
    apply Options.isReserved_of_allUnreserved
    apply Node.forall_preorder_of_bare Node.Unreserved.of_bare hsame.symm
    exact (parse_allUnreserved hparse).of_mem_list (l := .statements) (by simp [hlist])
  · rintro ⟨hp, hr⟩
    obtain ⟨ps, ls, hbody⟩ := Options.exists_legibleBody (Options.isWord_of_isIdentifier hns) hr
    obtain ⟨tree, statement, hparse, hlist, hstatement⟩ :=
      parse_constArrow hbody (Options.isWord_of_isIdentifier hname) hp
    exact ⟨tree, statement, hparse, hlist, (Node.same_iff _ _).mpr (hstatement.trans hconst.symm)⟩

/-- A function that requires its namespace under the name of the function that loads modules, from a
module whose name needs escapes. -/
theorem parse_emptyFunction_iff_required :
    let o : Options :=
      { factoryModule := "a\"\n", factoryNamespace := "require", parameterName := "async",
        moduleFormat := .commonJs }
    let p : FilePass :=
      ⟨⟨(Program.ofFiles []).model, o⟩, ⟨"a.ts", "", .plain .sourceFile [.list []]⟩, []⟩
    let template := Node.plain .noSubstitutionTemplateLiteral [.text ""]
    let site := Node.plain .taggedTemplateExpression
      [.node (.identifier "f"), .list [], .node template]
    o.validate = .ok () ∧ site.child? .template = some template ∧
      (TemplateParts.ofTemplate template).isEmpty = true ∧
      ∃ function s', Pass.Yields (p.expandSite site) { ids := .sequential } function s' ∧
        function.same o.emptyFunction = true ∧
        ∃ tree statement, parse ("const a = " ++ function.print ++ ";") = .ok tree ∧
          tree.list .statements = [statement] ∧
          statement.same (.constStatement "a" function) = true := by
  intro o p template site
  have hvalid : o.validate = .ok () := by decide
  have hempty : (TemplateParts.ofTemplate template).isEmpty = true := by decide
  obtain ⟨function, s', hyields, hsame, hiff⟩ :=
    parse_emptyFunction_iff p hvalid (rfl : site.child? .template = some template) hempty
      { ids := .sequential }
  exact ⟨hvalid, rfl, hempty, function, s', hyields, hsame, hiff.mpr ⟨by decide, by decide⟩⟩

/-- A reserved word passes for the name of a parameter, and the function cannot be read. -/
theorem parse_emptyFunction_reserved :
    let o : Options := { parameterName := "class" }
    o.validate = .ok () ∧
      (parse ("const a = " ++ o.emptyFunction.print ++ ";")).toOption = none := by
  decide +kernel

end FilePass

end Quasiquote
