import Quasiquote.Proofs.Progress.Types

namespace Quasiquote.Grammar.Answers

open Quasiquote.Parser

variable {g : Grammar} {n : Nat} {c : Cursor}

theorem block (hg : g.Answers n) (hc : c.Ends) (hn : c.left ≤ n) : g.block.Advances c := by
  refine .observe rfl ?_
  refine (advances_expect hc).bind fun _ c₁ h₁ _ hlt₁ => ?_
  refine (tries_loop h₁ fun statements d hd hle => ?_).bind fun statements c₂ h₂ hle₂ _ => ?_
  · refine .observe rfl ?_
    split
    · exact answers_pure hd nofun
    refine .observe rfl ?_
    split
    · exact (answers_reject (Q := fun _ _ => False) hd).bind fun _ _ _ _ h => h.elim
    refine (hg.statement d hd (by omega)).bind fun statement e he _ hlt => ?_
    exact answers_pure he fun _ => hlt
  · refine (tries_advance h₂).bind fun _ c₃ h₃ hle₃ _ => ?_
    exact answers_finish h₃ fun _ => by omega

theorem element (hg : g.Answers n) (hc : c.Ends) (hn : c.left < n) : g.element.Advances c := by
  refine .observe rfl ?_
  refine (answers_eat hc).bind fun b d hd hle _ => ?_
  cases b with
  | true =>
    refine (hg.expression d hd (by omega)).bind fun expression e he _ hlt => ?_
    exact answers_finish he fun _ => by omega
  | false => exact (hg.expression d hd (by omega)).mono fun _ m _ hm => by omega

theorem arguments (hg : g.Answers n) (hc : c.Ends) (hn : c.left ≤ n) : g.arguments.Advances c := by
  refine (advances_expect hc).bind fun _ d hd _ hlt => ?_
  refine (tries_commaList hd tries_atEnd fun e he hle =>
    hg.element he (by omega)).bind fun arguments e he _ hle => ?_
  refine (advances_expect he).bind fun _ e' he' _ hlt' => ?_
  exact answers_pure he' (by omega)

theorem arrayLiteral (hg : g.Answers n) (hc : c.Ends) (hn : c.left ≤ n)
    (hk : c.current.kind = .punct .bracketOpen) : g.arrayLiteral.Advances c := by
  refine .observe rfl ?_
  refine (advances_advance hc (by simp [hk])).bind fun _ d hd _ hlt => ?_
  refine (tries_commaList hd tries_atEnd fun e he hle =>
    hg.element he (by omega)).bind fun elements e he _ hle => ?_
  refine (advances_expect he).bind fun _ e' he' _ hlt' => ?_
  exact answers_finish he' fun _ => by omega

theorem propertyName (hc : c.Ends) : Grammar.propertyName.Advances c := by
  refine .observe rfl ?_
  generalize hk : c.current.kind = kind
  split
  · exact advances_stringLiteral hc hk
  · exact advances_numericLiteral hc hk
  · exact advances_identifierName hc

theorem objectMember (hg : g.Answers n) (hc : c.Ends) (hn : c.left ≤ n) :
    g.objectMember.Advances c := by
  refine .observe rfl ?_
  refine (answers_eat hc).bind fun b c₁ h₁ hle₁ hb => ?_
  cases b with
  | true =>
    have hlt₁ := hb rfl
    refine (hg.expression c₁ h₁ (by omega)).bind fun expression c₂ h₂ _ hlt₂ => ?_
    exact answers_finish h₂ fun _ => by omega
  | false =>
    refine (propertyName h₁).bind fun name c₂ h₂ _ hlt₂ => ?_
    refine (answers_eat h₂).bind fun b c₃ h₃ hle₃ _ => ?_
    cases b with
    | true =>
      refine (hg.expression c₃ h₃ (by omega)).bind fun initializer c₄ h₄ _ hlt₄ => ?_
      exact answers_finish h₄ fun _ => by omega
    | false =>
      rw [if_neg Bool.false_ne_true]
      split
      · exact answers_finish h₃ fun _ => by omega
      · exact answers_reject h₃

theorem objectLiteral (hg : g.Answers n) (hc : c.Ends) (hn : c.left ≤ n)
    (hk : c.current.kind = .punct .braceOpen) : g.objectLiteral.Advances c := by
  refine .observe rfl ?_
  refine (advances_advance hc (by simp [hk])).bind fun _ d hd _ hlt => ?_
  refine (tries_commaList hd tries_atEnd fun e he hle =>
    hg.objectMember he (by omega)).bind fun properties e he _ hle => ?_
  refine (advances_expect he).bind fun _ e' he' _ hlt' => ?_
  exact answers_finish he' fun _ => by omega

theorem templateSpan (hg : g.Answers n) (hc : c.Ends) (hn : c.left < n) :
    g.templateSpan.Advances c := by
  refine .observe rfl ?_
  refine (hg.expression c hc hn).bind fun expression d hd _ hlt => ?_
  refine (tries_advance hd).bind fun t e he hle _ => ?_
  split
  · refine (answers_finish (Q := fun _ m => m < c.left) he fun _ => by omega).bind
      fun span e' he' _ hlt' => ?_
    exact answers_pure he' hlt'
  · exact answers_reject he

/-- A template literal passes its first piece. At the end mark it would go on with a substitution, for
which there must be enough depth. -/
theorem templateLiteral (hg : g.Answers n) (hc : c.Ends) (hn : c.left ≤ n)
    (hk : c.current.kind = .eof → c.left < n) :
    g.templateLiteral.Answers c fun _ m => c.current.kind ≠ .eof → m < c.left := by
  refine .observe rfl ?_
  refine (answers_advance hc).bind fun t d hd hle hlt => ?_
  have hdn : d.left < n := by
    by_cases h : c.current.kind = .eof
    · have := hk h
      omega
    · have := hlt h
      omega
  split
  · exact answers_finish hd fun _ => hlt
  · refine (tries_loop hd fun spans e he hle' => ?_).bind fun spans e he _ hle' => ?_
    · refine (hg.templateSpan he (by omega)).bind fun ⟨span, more⟩ e' he' _ hlt' => ?_
      exact answers_pure he' fun _ => hlt'
    · exact answers_finish he fun _ h => Nat.lt_of_le_of_lt hle' (hlt h)

theorem functionExpression (hg : g.Answers n) (hc : c.Ends) (hn : c.left ≤ n) :
    g.functionExpression.Advances c := by
  refine .observe rfl ?_
  refine (answers_eatWord hc).bind fun async c₁ h₁ hle₁ _ => ?_
  refine (advances_expectWord h₁).bind fun _ c₂ h₂ _ hlt₂ => ?_
  have hrest : ∀ (name : Option Node) (d : Cursor), d.Ends → d.left ≤ c₂.left →
      Parser.Answers (do
        let typeParameters ← g.typeParameters
        let parameters ← g.parameters
        let type ← announced .colon g.typeNode
        let body ← g.block
        finish .functionExpression c.current.start
          [.flag async, .ofOption name, .list typeParameters, .list parameters, .ofOption type,
           .node body]) d fun _ m => m < c.left := by
    intro name d hd hle
    refine (hg.typeParameters hd (by omega)).bind fun typeParameters c₃ h₃ hle₃ _ => ?_
    refine (hg.parameters h₃ (by omega)).bind fun parameters c₄ h₄ _ hlt₄ => ?_
    refine (tries_announced h₄ fun e he hlt => (hg.typeNode e he (by omega)).tries).bind
      fun type c₅ h₅ hle₅ _ => ?_
    refine (hg.block h₅ (by omega)).bind fun body c₆ h₆ _ hlt₆ => ?_
    exact answers_finish h₆ fun _ => by omega
  refine .observe rfl ?_
  split
  · refine ((advances_identifier h₂).map some).bind fun name d hd hle _ => ?_
    exact hrest name d hd hle
  · exact hrest none c₂ h₂ (Nat.le_refl _)

theorem primary (hg : g.Answers n) (hc : c.Ends) (hn : c.left ≤ n) : g.primary.Advances c := by
  refine .observe rfl (.observe rfl ?_)
  generalize hk : c.current.kind = kind
  split
  · split
    · refine (advances_advance hc (by simp [hk])).bind fun _ d hd _ hlt => ?_
      exact answers_finish hd fun _ => hlt
    · refine .observe rfl ?_
      split
      · exact hg.functionExpression hc hn
      · exact advances_identifier hc
  · exact advances_numericLiteral hc hk
  · exact advances_stringLiteral hc hk
  · exact (hg.templateLiteral hc hn (by simp [hk])).mono fun _ _ _ h => h (by simp [hk])
  · exact (hg.templateLiteral hc hn (by simp [hk])).mono fun _ _ _ h => h (by simp [hk])
  · refine (advances_advance hc (by simp [hk])).bind fun _ c₁ h₁ _ hlt₁ => ?_
    refine (hg.expression c₁ h₁ (by omega)).bind fun expression c₂ h₂ _ hlt₂ => ?_
    refine (advances_expect h₂).bind fun _ c₃ h₃ _ hlt₃ => ?_
    exact answers_finish h₃ fun _ => by omega
  · exact hg.arrayLiteral hc hn hk
  · exact hg.objectLiteral hc hn hk
  · exact answers_reject hc

theorem newExpression (hg : g.Answers n) (hc : c.Ends) (hn : c.left ≤ n)
    (hk : c.current.kind ≠ .eof) : g.newExpression.Advances c := by
  refine .observe rfl ?_
  refine (advances_advance hc hk).bind fun _ c₁ h₁ _ hlt₁ => ?_
  refine (hg.primary h₁ (by omega)).bind fun first c₂ h₂ _ hlt₂ => ?_
  refine (tries_loop h₂ fun callee d hd _ => ?_).bind fun callee c₃ h₃ hle₃ _ => ?_
  · refine (answers_eat hd).bind fun b e he _ hb => ?_
    cases b with
    | true =>
      have hlt := hb rfl
      refine (advances_identifierName he).bind fun name e' he' _ hlt' => ?_
      refine (answers_finish (Q := fun _ m => m < d.left) he' fun _ => by omega).bind
        fun access e'' he'' _ hlt'' => ?_
      exact answers_pure he'' fun _ => hlt''
    | false => exact answers_pure he nofun
  have harguments : ∀ (typeArguments : List Node) (d : Cursor), d.Ends → d.left ≤ c₃.left →
      Parser.Answers (do
        let arguments ← if ← atPunct .parenOpen then g.arguments else pure []
        finish .newExpression c.current.start
          [.node callee, .list typeArguments, .list arguments]) d fun _ m => m < c.left := by
    intro typeArguments d hd hle
    refine .observe rfl ?_
    split
    · refine (hg.arguments hd (by omega)).bind fun arguments e he _ hlt => ?_
      exact answers_finish he fun _ => by omega
    · exact answers_finish hd fun _ => by omega
  refine .observe rfl ?_
  split
  · have hattempt : Parser.Tries ((·.getD []) <$> attempt g.typeArguments) c₃ := by
      refine (hg.typeArguments h₃ (by omega)).attempt (fun types d hd hle _ => ?_) ?_
      · exact answers_pure hd hle
      · exact answers_pure h₃ (Nat.le_refl _)
    exact hattempt.bind fun typeArguments d hd hle _ => harguments typeArguments d hd hle
  · exact harguments [] c₃ h₃ (Nat.le_refl _)

theorem application (hg : g.Answers n) (hc : c.Ends) (hn : c.left ≤ n)
    (hk : c.current.kind = .eof → c.left < n) {start : Nat} {callee : Node}
    {typeArguments : List Node} :
    (g.application start callee typeArguments).Answers c
      fun _ m => c.current.kind ≠ .eof → m < c.left := by
  refine .observe rfl ?_
  split
  · refine (hg.arguments hc hn).bind fun arguments d hd _ hlt => ?_
    exact answers_finish hd fun _ _ => hlt
  · refine (hg.templateLiteral hc hn hk).bind fun template d hd _ hlt => ?_
    exact answers_finish hd fun _ => hlt

theorem appliedTypeArguments (hg : g.Answers n) (hc : c.Ends) (hn : c.left ≤ n) :
    g.appliedTypeArguments.Advances c := by
  refine (hg.typeArguments hc hn).bind fun types d hd _ hlt => ?_
  refine .observe rfl (.observe rfl ?_)
  split
  · exact answers_pure hd hlt
  · exact answers_reject hd

theorem postfixStep (hg : g.Answers n) (hc : c.Ends) (hn : c.left ≤ n) {start : Nat}
    {expression : Node} :
    (g.postfixStep start expression).Answers c fun r m => r.2 = true → m < c.left := by
  have happlied : c.current.kind ≠ .eof →
      Parser.Answers (do return (← g.application start expression [], true)) c
        fun r m => r.2 = true → m < c.left := by
    intro hk
    refine (hg.application hc hn fun h => absurd h hk).bind fun applied d hd _ hlt => ?_
    exact answers_pure hd fun _ => hlt hk
  refine .observe rfl ?_
  generalize hk : c.current.kind = kind at happlied
  split
  · refine (advances_advance hc (by simp [hk])).bind fun _ c₁ h₁ _ hlt₁ => ?_
    refine (advances_identifierName h₁).bind fun name c₂ h₂ _ hlt₂ => ?_
    refine (answers_finish (Q := fun _ m => m < c.left) h₂ fun _ => by omega).bind
      fun access c₃ h₃ _ hlt₃ => ?_
    exact answers_pure h₃ fun _ => hlt₃
  · refine (advances_advance hc (by simp [hk])).bind fun _ c₁ h₁ _ hlt₁ => ?_
    refine (hg.expression c₁ h₁ (by omega)).bind fun argument c₂ h₂ _ hlt₂ => ?_
    refine (advances_expect h₂).bind fun _ c₃ h₃ _ hlt₃ => ?_
    refine (answers_finish (Q := fun _ m => m < c.left) h₃ fun _ => by omega).bind
      fun access c₄ h₄ _ hlt₄ => ?_
    exact answers_pure h₄ fun _ => hlt₄
  · exact happlied nofun
  · exact happlied nofun
  · exact happlied nofun
  · refine (hg.appliedTypeArguments hc hn).attempt (fun types d hd _ hlt => ?_) ?_
    · refine (hg.application hd (by omega) fun _ => by omega).bind fun applied e he hle _ => ?_
      exact answers_pure he fun _ => by omega
    · exact answers_pure hc nofun
  · exact answers_pure hc nofun

theorem leftHandSide (hg : g.Answers n) (hc : c.Ends) (hn : c.left ≤ n) :
    g.leftHandSide.Advances c := by
  have hrest : ∀ (first : Node) (d : Cursor), d.Ends → d.left < c.left →
      Parser.Answers (loop first (g.postfixStep c.current.start)) d fun _ m => m < c.left := by
    intro first d hd hlt
    refine (tries_loop hd fun expression e he hle => ?_).mono fun _ _ _ hm => by omega
    exact hg.postfixStep he (by omega)
  refine .observe rfl (.observe rfl ?_)
  split
  · next hnew =>
    have hk : c.current.kind ≠ .eof := by simp [kind_of_isWord hnew]
    refine (hg.newExpression hc hn hk).bind fun first d hd _ hlt => ?_
    exact hrest first d hd hlt
  · refine (hg.primary hc hn).bind fun first d hd _ hlt => ?_
    exact hrest first d hd hlt

theorem kind_of_sign? {t : Token} {sign : String} (h : sign? t = some sign) : t.kind ≠ .eof := by
  intro hk
  simp [sign?, hk] at h

theorem unary (hg : g.Answers n) (hc : c.Ends) (hn : c.left ≤ n) : g.unary.Advances c := by
  refine .observe rfl (.observe rfl ?_)
  split
  · next sign hsign =>
    refine (advances_advance hc (kind_of_sign? hsign)).bind fun _ c₁ h₁ _ hlt₁ => ?_
    refine (hg.operand c₁ h₁ (by omega)).bind fun operand c₂ h₂ _ hlt₂ => ?_
    exact answers_finish h₂ fun _ => by omega
  · exact hg.leftHandSide hc hn

theorem binaryStep (hg : g.Answers n) (hc : c.Ends) (hn : c.left ≤ n) {least start : Nat}
    {left : Node} :
    (g.binaryStep least start left).Answers c fun r m => r.2 = true → m < c.left := by
  refine .observe rfl ?_
  split
  · next has =>
    simp only [Bool.and_eq_true] at has
    refine (advances_advance hc (by simp [kind_of_isWord has.1])).bind fun _ c₁ h₁ _ hlt₁ => ?_
    refine (hg.typeNode c₁ h₁ (by omega)).bind fun type c₂ h₂ _ hlt₂ => ?_
    refine (answers_finish (Q := fun _ m => m < c.left) h₂ fun _ => by omega).bind
      fun cast c₃ h₃ _ hlt₃ => ?_
    exact answers_pure h₃ fun _ => hlt₃
  · refine .observe rfl ?_
    split
    · next op power hop =>
      split
      · exact answers_pure hc nofun
      have hk : c.current.kind ≠ .eof := by
        intro h
        simp [h, TokenKind.binary?] at hop
      refine (advances_advance hc hk).bind fun _ c₁ h₁ _ hlt₁ => ?_
      refine (hg.operation power.right c₁ h₁ (by omega)).bind fun right c₂ h₂ _ hlt₂ => ?_
      refine (answers_finish (Q := fun _ m => m < c.left) h₂ fun _ => by omega).bind
        fun operation c₃ h₃ _ hlt₃ => ?_
      exact answers_pure h₃ fun _ => hlt₃
    · exact answers_pure hc nofun

theorem binary (hg : g.Answers n) (hc : c.Ends) (hn : c.left ≤ n) {least : Nat} :
    (g.binary least).Advances c := by
  refine .observe rfl ?_
  refine (hg.unary hc hn).bind fun first d hd _ hlt => ?_
  refine (tries_loop hd fun left e he hle => ?_).mono fun _ _ _ hm => by omega
  exact hg.binaryStep he (by omega)

theorem conditional (hg : g.Answers n) (hc : c.Ends) (hn : c.left ≤ n) :
    g.conditional.Advances c := by
  refine .observe rfl ?_
  refine (hg.binary hc hn).bind fun condition c₁ h₁ _ hlt₁ => ?_
  refine (answers_eat h₁).bind fun b c₂ h₂ hle₂ _ => ?_
  cases b with
  | true =>
    refine (hg.expression c₂ h₂ (by omega)).bind fun whenTrue c₃ h₃ _ hlt₃ => ?_
    refine (advances_expect h₃).bind fun _ c₄ h₄ _ hlt₄ => ?_
    refine (hg.expression c₄ h₄ (by omega)).bind fun whenFalse c₅ h₅ _ hlt₅ => ?_
    exact answers_finish h₅ fun _ => by omega
  | false => exact answers_pure h₂ (by omega)

theorem arrowBody (hg : g.Answers n) (hc : c.Ends) (hn : c.left < n) : g.arrowBody.Advances c := by
  refine .observe rfl ?_
  split
  · exact hg.block hc (Nat.le_of_lt hn)
  · exact hg.expression c hc hn

theorem arrowHead (hg : g.Answers n) (hc : c.Ends) (hn : c.left ≤ n) : g.arrowHead.Advances c := by
  refine (hg.typeParameters hc hn).bind fun typeParameters c₁ h₁ hle₁ _ => ?_
  refine (hg.parameters h₁ (by omega)).bind fun parameters c₂ h₂ _ hlt₂ => ?_
  refine (tries_announced h₂ fun d hd hlt => (hg.typeNode d hd (by omega)).tries).bind
    fun type c₃ h₃ hle₃ _ => ?_
  refine (advances_expect h₃).bind fun _ c₄ h₄ _ hlt₄ => ?_
  exact answers_pure h₄ (by omega)

theorem arrowAfterAsync (hg : g.Answers n) (hc : c.Ends) (hn : c.left ≤ n) {start : Nat}
    {async : Bool} :
    (g.arrowAfterAsync start async).Answers c fun r m => r.isSome = true → m < c.left := by
  refine .observe rfl ?_
  split
  · refine .observe rfl ?_
    refine (advances_identifier hc).bind fun name c₁ h₁ _ hlt₁ => ?_
    refine (answers_finish (Q := fun _ m => m < c.left) h₁ fun _ => hlt₁).bind
      fun parameter c₂ h₂ _ hlt₂ => ?_
    refine (tries_advance h₂).bind fun _ c₃ h₃ hle₃ _ => ?_
    refine (hg.arrowBody h₃ (by omega)).bind fun body c₄ h₄ _ hlt₄ => ?_
    refine (answers_finish (Q := fun _ m => m < c.left) h₄ fun _ => by omega).bind
      fun function c₅ h₅ _ hlt₅ => ?_
    exact answers_pure h₅ fun _ => hlt₅
  · refine .observe rfl (.observe rfl ?_)
    split
    · exact answers_pure hc nofun
    refine (hg.arrowHead hc hn).attempt
      (fun ⟨typeParameters, parameters, type⟩ c₁ h₁ _ hlt₁ => ?_) ?_
    · refine (hg.arrowBody h₁ (by omega)).bind fun body c₂ h₂ _ hlt₂ => ?_
      refine (answers_finish (Q := fun _ m => m < c.left) h₂ fun _ => by omega).bind
        fun function c₃ h₃ _ hlt₃ => ?_
      exact answers_pure h₃ fun _ => hlt₃
    · exact answers_pure hc nofun

/-- Where no arrow function begins the tokens that were passed in search of it are read again. -/
theorem arrow? (hg : g.Answers n) (hc : c.Ends) (hn : c.left ≤ n) :
    g.arrow?.Answers c fun r m => r.isSome = true → m < c.left := by
  have hsearch : Parser.Answers (do
      let start ← here
      let async ← Grammar.atAsyncArrow
      if async then
        let _ ← advance
      g.arrowAfterAsync start async) c fun r m => r.isSome = true → m < c.left := by
    refine .observe rfl (.observe rfl ?_)
    split
    · refine (tries_advance hc).bind fun _ d hd hle _ => ?_
      refine (hg.arrowAfterAsync hd (by omega)).mono fun _ _ _ h hr => ?_
      exact Nat.lt_of_lt_of_le (h hr) hle
    · exact hg.arrowAfterAsync hc hn
  unfold Parser.Answers at hsearch ⊢
  unfold Grammar.arrow?
  dsimp only
  split
  · next r d h =>
    split at h
    · cases h
      exact ⟨hc, List.suffix_refl _, nofun⟩
    · rwa [h] at hsearch
  · next e h =>
    split at h
    · cases h
    · rwa [h] at hsearch
  · next h =>
    split at h
    · cases h
    · rwa [h] at hsearch

theorem assignment (hg : g.Answers n) (hc : c.Ends) (hn : c.left ≤ n) :
    g.assignment.Advances c := by
  refine (hg.arrow? hc hn).bind fun r c₁ h₁ hle₁ hr => ?_
  cases r with
  | some function => exact answers_pure h₁ (hr rfl)
  | none =>
    refine .observe rfl ?_
    refine (hg.conditional h₁ (by omega)).bind fun left c₂ h₂ _ hlt₂ => ?_
    refine .observe rfl ?_
    split
    · refine (tries_advance h₂).bind fun _ c₃ h₃ hle₃ _ => ?_
      refine (hg.expression c₃ h₃ (by omega)).bind fun right c₄ h₄ _ hlt₄ => ?_
      exact answers_finish h₄ fun _ => by omega
    · exact answers_pure h₂ (by omega)

end Quasiquote.Grammar.Answers
