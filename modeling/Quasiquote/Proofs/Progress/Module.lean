import Quasiquote.Proofs.Progress.Expressions

namespace Quasiquote.Grammar

open Quasiquote.Parser

namespace Answers

variable {g : Grammar} {n : Nat} {c : Cursor}

theorem expressionStatement (hg : g.Answers n) (hc : c.Ends) (hn : c.left ≤ n) :
    g.expressionStatement.Advances c := by
  refine .observe rfl ?_
  refine (hg.assignment hc hn).bind fun expression c₁ h₁ _ hlt₁ => ?_
  refine (tries_semicolon h₁).bind fun _ c₂ h₂ hle₂ _ => ?_
  exact answers_finish h₂ fun _ => by omega

theorem returnStatement (hg : g.Answers n) (hc : c.Ends) (hn : c.left ≤ n)
    (hk : c.current.kind ≠ .eof) : g.returnStatement.Advances c := by
  have hrest : ∀ (expression : Option Node) (d : Cursor), d.Ends → d.left < c.left →
      Parser.Answers (do
        semicolon "return statement"
        finish .returnStatement c.current.start [.ofOption expression]) d fun _ m => m < c.left := by
    intro expression d hd hlt
    refine (tries_semicolon hd).bind fun _ e he hle _ => ?_
    exact answers_finish he fun _ => by omega
  refine .observe rfl ?_
  refine (advances_advance hc hk).bind fun _ c₁ h₁ _ hlt₁ => ?_
  refine .observe rfl (.observe rfl (.observe rfl (.observe rfl ?_)))
  dsimp only
  split
  · exact hrest none c₁ h₁ hlt₁
  · refine ((hg.expression c₁ h₁ (by omega)).map some).bind fun expression c₂ h₂ _ hlt₂ => ?_
    exact hrest expression c₂ h₂ (by omega)

theorem throwStatement (hg : g.Answers n) (hc : c.Ends) (hn : c.left ≤ n)
    (hk : c.current.kind ≠ .eof) : g.throwStatement.Advances c := by
  refine .observe rfl ?_
  refine (advances_advance hc hk).bind fun _ c₁ h₁ _ hlt₁ => ?_
  refine (hg.expression c₁ h₁ (by omega)).bind fun expression c₂ h₂ _ hlt₂ => ?_
  refine (tries_semicolon h₂).bind fun _ c₃ h₃ hle₃ _ => ?_
  exact answers_finish h₃ fun _ => by omega

theorem ifStatement (hg : g.Answers n) (hc : c.Ends) (hn : c.left ≤ n)
    (hk : c.current.kind ≠ .eof) : g.ifStatement.Advances c := by
  refine .observe rfl ?_
  refine (advances_advance hc hk).bind fun _ c₁ h₁ _ hlt₁ => ?_
  refine (advances_expect h₁).bind fun _ c₂ h₂ _ hlt₂ => ?_
  refine (hg.expression c₂ h₂ (by omega)).bind fun condition c₃ h₃ _ hlt₃ => ?_
  refine (advances_expect h₃).bind fun _ c₄ h₄ _ hlt₄ => ?_
  refine (hg.statement c₄ h₄ (by omega)).bind fun consequence c₅ h₅ _ hlt₅ => ?_
  refine (answers_eatWord h₅).bind fun b c₆ h₆ hle₆ _ => ?_
  cases b with
  | true =>
    refine ((hg.statement c₆ h₆ (by omega)).map some).bind fun alternative c₇ h₇ _ hlt₇ => ?_
    exact answers_finish h₇ fun _ => by omega
  | false => exact answers_finish h₆ fun _ => by omega

theorem variableDeclaration (hg : g.Answers n) (hc : c.Ends) (hn : c.left ≤ n) :
    g.variableDeclaration.Advances c := by
  refine .observe rfl ?_
  refine (advances_identifier hc).bind fun name c₁ h₁ _ hlt₁ => ?_
  refine (tries_announced h₁ fun d hd hlt => (hg.typeNode d hd (by omega)).tries).bind
    fun type c₂ h₂ hle₂ _ => ?_
  refine (tries_announced h₂ fun d hd hlt => (hg.expression d hd (by omega)).tries).bind
    fun initializer c₃ h₃ hle₃ _ => ?_
  exact answers_finish h₃ fun _ => by omega

theorem variableStatement (hg : g.Answers n) (hc : c.Ends) (hn : c.left ≤ n) {exported : Bool}
    {start : Nat} (hk : c.current.kind ≠ .eof) :
    (g.variableStatement exported start).Advances c := by
  refine .observe rfl ?_
  refine (advances_advance hc hk).bind fun keyword c₁ h₁ _ hlt₁ => ?_
  refine (tries_loop h₁ fun declarations d hd hle => ?_).bind fun declarations c₂ h₂ hle₂ _ => ?_
  · refine (hg.variableDeclaration hd (by omega)).bind fun declaration e he _ hlt => ?_
    refine (answers_eat he).bind fun more e' he' hle' _ => ?_
    exact answers_pure he' fun _ => by omega
  · refine (answers_finish (Q := fun _ m => m < c.left) h₂ fun _ => by omega).bind
      fun list c₃ h₃ _ hlt₃ => ?_
    refine (tries_semicolon h₃).bind fun _ c₄ h₄ hle₄ _ => ?_
    exact answers_finish h₄ fun _ => by omega

theorem functionDeclaration (hg : g.Answers n) (hc : c.Ends) (hn : c.left ≤ n) {exported : Bool}
    {start : Nat} : (g.functionDeclaration exported start).Advances c := by
  refine (answers_eatWord hc).bind fun async c₁ h₁ hle₁ _ => ?_
  refine (advances_expectWord h₁).bind fun _ c₂ h₂ _ hlt₂ => ?_
  refine (advances_identifier h₂).bind fun name c₃ h₃ _ hlt₃ => ?_
  refine (hg.typeParameters h₃ (by omega)).bind fun typeParameters c₄ h₄ hle₄ _ => ?_
  refine (hg.parameters h₄ (by omega)).bind fun parameters c₅ h₅ _ hlt₅ => ?_
  refine (tries_announced h₅ fun d hd hlt => (hg.typeNode d hd (by omega)).tries).bind
    fun type c₆ h₆ hle₆ _ => ?_
  refine .observe rfl ?_
  split
  · refine ((hg.block h₆ (by omega)).map some).bind fun body c₇ h₇ _ hlt₇ => ?_
    exact answers_finish h₇ fun _ => by omega
  · refine (tries_semicolon h₆).bind fun _ c₇ h₇ hle₇ _ => ?_
    exact answers_finish h₇ fun _ => by omega

theorem exportStatement (hg : g.Answers n) (hc : c.Ends) (hn : c.left ≤ n)
    (hk : c.current.kind ≠ .eof) : g.exportStatement.Advances c := by
  refine .observe rfl ?_
  refine (advances_advance hc hk).bind fun _ c₁ h₁ _ hlt₁ => ?_
  refine .observe rfl ?_
  split
  · next hword =>
    simp only [Bool.and_eq_true, decide_eq_true_eq] at hword
    refine (hg.variableStatement h₁ (by omega) (by simp [hword.1])).mono fun _ m hle _ => ?_
    omega
  · split
    · exact (hg.functionDeclaration h₁ (by omega)).mono fun _ m hle _ => by omega
    · exact answers_reject h₁

theorem importSpecifier (hc : c.Ends) : Grammar.importSpecifier.Advances c := by
  refine .observe rfl ?_
  refine (advances_identifierName hc).bind fun imported c₁ h₁ _ hlt₁ => ?_
  refine (answers_eatWord h₁).bind fun b c₂ h₂ hle₂ _ => ?_
  cases b with
  | true =>
    refine (advances_identifier h₂).bind fun name c₃ h₃ _ hlt₃ => ?_
    exact answers_finish h₃ fun _ => by omega
  | false => exact answers_finish h₂ fun _ => by omega

theorem namedBindings (hc : c.Ends) : Grammar.namedBindings.Advances c := by
  refine .observe rfl ?_
  refine (answers_eat hc).bind fun b c₁ h₁ hle₁ _ => ?_
  cases b with
  | true =>
    refine (advances_expectWord h₁).bind fun _ c₂ h₂ _ hlt₂ => ?_
    refine (advances_identifier h₂).bind fun name c₃ h₃ _ hlt₃ => ?_
    exact answers_finish h₃ fun _ => by omega
  | false =>
    refine (advances_expect h₁).bind fun _ c₂ h₂ _ hlt₂ => ?_
    refine (tries_commaList h₂ tries_nothing fun d hd _ => importSpecifier hd).bind
      fun elements c₃ h₃ hle₃ _ => ?_
    refine (advances_expect h₃).bind fun _ c₄ h₄ _ hlt₄ => ?_
    exact answers_finish h₄ fun _ => by omega

theorem importClause (hc : c.Ends) : Grammar.importClause.Advances c := by
  refine .observe rfl (.observe rfl ?_)
  split
  · refine (advances_identifier hc).bind fun name c₁ h₁ _ hlt₁ => ?_
    refine (tries_announced h₁ fun d hd _ => (namedBindings hd).tries).bind
      fun bindings c₂ h₂ hle₂ _ => ?_
    exact answers_finish h₂ fun _ => by omega
  · split
    · refine (namedBindings hc).bind fun bindings c₁ h₁ _ hlt₁ => ?_
      exact answers_finish h₁ fun _ => hlt₁
    · exact answers_reject hc

theorem importDeclaration (hc : c.Ends) (hk : c.current.kind ≠ .eof) :
    Grammar.importDeclaration.Advances c := by
  refine .observe rfl ?_
  refine (advances_advance hc hk).bind fun _ c₁ h₁ _ hlt₁ => ?_
  refine .observe rfl ?_
  split
  · next hs =>
    refine (advances_stringLiteral h₁ hs).bind fun module c₂ h₂ _ hlt₂ => ?_
    refine (tries_semicolon h₂).bind fun _ c₃ h₃ hle₃ _ => ?_
    exact answers_finish h₃ fun _ => by omega
  · refine (importClause h₁).bind fun clause c₂ h₂ _ hlt₂ => ?_
    refine (advances_expectWord h₂).bind fun _ c₃ h₃ _ hlt₃ => ?_
    refine .observe rfl ?_
    split
    · exact (answers_reject (Q := fun _ _ => False) h₃).bind fun _ _ _ _ h => h.elim
    · next hs =>
      have hs : c₃.current.kind = .string := by simpa using hs
      refine (advances_stringLiteral h₃ hs).bind fun module c₄ h₄ _ hlt₄ => ?_
      refine (tries_semicolon h₄).bind fun _ c₅ h₅ hle₅ _ => ?_
      exact answers_finish h₅ fun _ => by omega

theorem wordStatement (hg : g.Answers n) (hc : c.Ends) (hn : c.left ≤ n) {word : String}
    (hk : c.current.kind ≠ .eof) : (g.wordStatement word).Advances c := by
  refine .observe rfl (.observe rfl ?_)
  dsimp only
  split
  · exact importDeclaration hc hk
  split
  · exact hg.exportStatement hc hn hk
  split
  · exact hg.variableStatement hc hn hk
  refine .observe rfl ?_
  split
  · exact hg.functionDeclaration hc hn
  split
  · exact hg.returnStatement hc hn hk
  split
  · exact hg.ifStatement hc hn hk
  split
  · exact hg.throwStatement hc hn hk
  · exact hg.expressionStatement hc hn

theorem anyStatement (hg : g.Answers n) (hc : c.Ends) (hn : c.left ≤ n) :
    g.anyStatement.Advances c := by
  refine .observe rfl (.observe rfl ?_)
  generalize hk : c.current.kind = kind
  split
  · exact hg.block hc hn
  · refine (advances_advance hc (by simp [hk])).bind fun _ c₁ h₁ _ hlt₁ => ?_
    exact answers_finish h₁ fun _ => hlt₁
  · exact hg.wordStatement hc hn (by simp [hk])
  · exact hg.expressionStatement hc hn

/-- One level of the grammar is enough for one token more. -/
theorem deeper (hg : g.Answers n) : g.deeper.Answers (n + 1) where
  statement _ hc hn := hg.anyStatement hc (Nat.le_of_lt_succ hn)
  expression _ hc hn := hg.assignment hc (Nat.le_of_lt_succ hn)
  operation _ _ hc hn := hg.binary hc (Nat.le_of_lt_succ hn)
  operand _ hc hn := hg.unary hc (Nat.le_of_lt_succ hn)
  typeNode _ hc hn := hg.unionType hc (Nat.le_of_lt_succ hn)

theorem module (hg : g.Answers n) (hc : c.Ends) (hn : c.left < n) :
    g.module.Tries c := by
  refine .observe rfl ?_
  refine (tries_loop hc fun statements d hd hle => .observe rfl ?_).bind
    fun statements c₁ h₁ hle₁ _ => ?_
  · split
    · exact answers_pure hd nofun
    refine (hg.statement d hd (by omega)).bind fun statement e he _ hlt => ?_
    exact answers_pure he fun _ => hlt
  · exact answers_finish h₁ fun _ => hle₁

end Answers

/-- The depth has to be more than the number of tokens left. -/
theorem answers_toDepth (depth : Nat) : (toDepth depth).Answers depth := by
  induction depth with
  | zero =>
    have hnone : ∀ (p : Parser Node) (c : Cursor), c.Ends → c.left < 0 → p.Advances c :=
      fun _ _ _ h => absurd h (Nat.not_lt_zero _)
    exact ⟨hnone _, hnone _, fun _ => hnone _, hnone _, hnone _⟩
  | succ depth ih => exact ih.deeper

end Quasiquote.Grammar
