import Quasiquote.Proofs.Progress.Basic

namespace Quasiquote

/-- The parts of a grammar that contain each other answer where fewer than `n` tokens are left. -/
structure Grammar.Answers (g : Grammar) (n : Nat) : Prop where
  statement : ∀ c : Cursor, c.Ends → c.left < n → g.statement.Advances c
  expression : ∀ c : Cursor, c.Ends → c.left < n → g.expression.Advances c
  operation : ∀ least, ∀ c : Cursor, c.Ends → c.left < n → (g.operation least).Advances c
  operand : ∀ c : Cursor, c.Ends → c.left < n → g.operand.Advances c
  typeNode : ∀ c : Cursor, c.Ends → c.left < n → g.typeNode.Advances c

namespace Grammar.Answers

open Quasiquote.Parser

variable {g : Grammar} {n : Nat} {c : Cursor}

theorem typeArguments (hg : g.Answers n) (hc : c.Ends) (hn : c.left ≤ n) :
    g.typeArguments.Advances c := by
  refine (advances_expect hc).bind fun _ d hd _ hlt => ?_
  refine (tries_commaList hd tries_nothing fun e he hle =>
    hg.typeNode e he (by omega)).bind fun types e he _ hle => ?_
  refine (advances_expect he).bind fun _ e' he' _ hlt' => ?_
  exact answers_pure he' (by omega)

theorem parameter (hg : g.Answers n) (hc : c.Ends) (hn : c.left ≤ n) : g.parameter.Advances c := by
  refine .observe rfl ?_
  refine (answers_eat hc).bind fun rest c₁ h₁ hle₁ _ => ?_
  refine (advances_identifier h₁).bind fun name c₂ h₂ _ hlt₂ => ?_
  refine (answers_eat h₂).bind fun optional c₃ h₃ hle₃ _ => ?_
  refine (tries_announced h₃ fun d hd hlt => (hg.typeNode d hd (by omega)).tries).bind
    fun type c₄ h₄ hle₄ _ => ?_
  refine (tries_announced h₄ fun d hd hlt => (hg.expression d hd (by omega)).tries).bind
    fun initializer c₅ h₅ hle₅ _ => ?_
  exact answers_finish h₅ fun _ => by omega

theorem parameters (hg : g.Answers n) (hc : c.Ends) (hn : c.left ≤ n) : g.parameters.Advances c := by
  refine (advances_expect hc).bind fun _ d hd _ hlt => ?_
  refine (tries_commaList hd tries_nothing fun e he hle =>
    hg.parameter he (by omega)).bind fun parameters e he _ hle => ?_
  refine (advances_expect he).bind fun _ e' he' _ hlt' => ?_
  exact answers_pure he' (by omega)

theorem typeParameter (hg : g.Answers n) (hc : c.Ends) (hn : c.left ≤ n) :
    g.typeParameter.Advances c := by
  refine .observe rfl ?_
  refine (advances_identifier hc).bind fun name c₁ h₁ _ hlt₁ => ?_
  refine (answers_eatWord h₁).bind fun extended c₂ h₂ hle₂ _ => ?_
  have hdefault : ∀ (constraint : Option Node) (d : Cursor), d.Ends → d.left ≤ c₂.left →
      Parser.Answers (do
        let default ← announced .assign g.typeNode
        finish .typeParameter c.current.start [.node name, .ofOption constraint, .ofOption default])
        d fun _ m => m < c.left := by
    intro constraint d hd hle
    refine (tries_announced hd fun e he hlt => (hg.typeNode e he (by omega)).tries).bind
      fun default e he hle' _ => ?_
    exact answers_finish he fun _ => by omega
  cases extended with
  | true =>
    refine ((hg.typeNode c₂ h₂ (by omega)).map some).bind fun constraint d hd hle _ => ?_
    exact hdefault constraint d hd hle
  | false => exact hdefault none c₂ h₂ (Nat.le_refl _)

theorem typeParameters (hg : g.Answers n) (hc : c.Ends) (hn : c.left ≤ n) :
    g.typeParameters.Tries c := by
  refine (answers_eat hc).bind fun b d hd hle hb => ?_
  cases b with
  | true =>
    refine (tries_commaList hd tries_nothing fun e he hle' =>
      hg.typeParameter he (by omega)).bind fun parameters e he _ hle' => ?_
    refine (advances_expect he).bind fun _ e' he' _ hlt => ?_
    exact answers_pure he' (by omega)
  | false => exact answers_pure hd hle

theorem functionType (hg : g.Answers n) (hc : c.Ends) (hn : c.left ≤ n) :
    g.functionType.Advances c := by
  refine .observe rfl ?_
  refine (hg.typeParameters hc hn).bind fun typeParameters c₁ h₁ hle₁ _ => ?_
  refine (hg.parameters h₁ (by omega)).bind fun parameters c₂ h₂ _ hlt₂ => ?_
  refine (advances_expect h₂).bind fun _ c₃ h₃ _ hlt₃ => ?_
  refine (hg.typeNode c₃ h₃ (by omega)).bind fun result c₄ h₄ _ hlt₄ => ?_
  exact answers_finish h₄ fun _ => by omega

theorem propertySignature (hg : g.Answers n) (hc : c.Ends) (hn : c.left ≤ n) :
    g.propertySignature.Advances c := by
  have hrest : ∀ (name : Node) (d : Cursor), d.Ends → d.left < c.left →
      Parser.Answers (do
        let optional ← eat .question
        let type ← announced .colon g.typeNode
        finish .propertySignature c.current.start [.node name, .flag optional, .ofOption type])
        d fun _ m => m < c.left := by
    intro name d hd hlt
    refine (answers_eat hd).bind fun optional c₂ h₂ hle₂ _ => ?_
    refine (tries_announced h₂ fun e he hlt' => (hg.typeNode e he (by omega)).tries).bind
      fun type c₃ h₃ hle₃ _ => ?_
    exact answers_finish h₃ fun _ => by omega
  refine .observe rfl (.observe rfl ?_)
  split
  · next hs =>
    refine (advances_stringLiteral hc hs).bind fun name d hd _ hlt => ?_
    exact hrest name d hd hlt
  · refine (advances_identifierName hc).bind fun name d hd _ hlt => ?_
    exact hrest name d hd hlt

theorem memberSeparator (hc : c.Ends) : Grammar.memberSeparator.Tries c := by
  refine (answers_eat hc).bind fun b c₁ h₁ hle₁ _ => ?_
  cases b with
  | true => exact answers_pure h₁ hle₁
  | false =>
    refine (answers_eat h₁).bind fun b c₂ h₂ hle₂ _ => ?_
    cases b with
    | true => exact answers_pure h₂ (by omega)
    | false => exact .observe rfl (answers_pure h₂ (by omega))

theorem typeLiteral (hg : g.Answers n) (hc : c.Ends) (hn : c.left ≤ n) :
    g.typeLiteral.Advances c := by
  refine .observe rfl ?_
  refine (advances_expect hc).bind fun _ c₁ h₁ _ hlt₁ => ?_
  refine (tries_loop h₁ fun members d hd hle => ?_).bind fun members c₂ h₂ hle₂ _ => ?_
  · refine .observe rfl ?_
    split
    · exact answers_pure hd nofun
    refine .observe rfl ?_
    split
    · exact (answers_reject (Q := fun _ _ => False) hd).bind fun _ _ _ _ h => h.elim
    refine (hg.propertySignature hd (by omega)).bind fun member e he _ hlt => ?_
    refine (memberSeparator he).bind fun more e' he' hle' _ => ?_
    exact answers_pure he' fun _ => by omega
  · refine (advances_expect h₂).bind fun _ c₃ h₃ _ hlt₃ => ?_
    exact answers_finish h₃ fun _ => by omega

theorem typeReference (hg : g.Answers n) (hc : c.Ends) (hn : c.left ≤ n) :
    g.typeReference.Advances c := by
  refine .observe rfl ?_
  refine (advances_identifierName hc).bind fun first c₁ h₁ _ hlt₁ => ?_
  refine (tries_loop h₁ fun name d hd hle => ?_).bind fun name c₂ h₂ hle₂ _ => ?_
  · refine (answers_eat hd).bind fun b e he hle' hb => ?_
    cases b with
    | true =>
      have hlt := hb rfl
      refine (advances_identifierName he).bind fun right e' he' _ hlt' => ?_
      refine (answers_finish (Q := fun _ m => m < d.left) he' fun _ => by omega).bind
        fun qualified e'' he'' _ hlt'' => ?_
      exact answers_pure he'' fun _ => hlt''
    | false => exact answers_pure he nofun
  · refine .observe rfl ?_
    split
    · refine (hg.typeArguments h₂ (by omega)).bind fun arguments c₃ h₃ _ hlt₃ => ?_
      exact answers_finish h₃ fun _ => by omega
    · exact answers_finish h₂ fun _ => by omega

theorem wordType (hg : g.Answers n) (hc : c.Ends) (hn : c.left ≤ n) {word : String}
    (hk : c.current.kind = .word) : (g.wordType word).Advances c := by
  refine .observe rfl ?_
  have hne : c.current.kind ≠ .eof := by simp [hk]
  split
  · refine (advances_advance hc hne).bind fun _ d hd _ hlt => ?_
    refine (answers_finish (Q := fun _ m => m < c.left) hd fun _ => hlt).bind
      fun literal e he _ hlt' => ?_
    exact answers_finish he fun _ => hlt'
  · split
    · refine (advances_advance hc hne).bind fun _ d hd _ hlt => ?_
      exact answers_finish hd fun _ => hlt
    · exact hg.typeReference hc hn

theorem primaryType (hg : g.Answers n) (hc : c.Ends) (hn : c.left ≤ n) :
    g.primaryType.Advances c := by
  refine .observe rfl (.observe rfl ?_)
  generalize hk : c.current.kind = kind
  split
  · exact hg.typeLiteral hc hn
  · refine (hg.functionType hc hn).attempt (fun function d hd _ hlt => ?_) ?_
    · exact answers_pure hd hlt
    · refine (advances_advance hc (by simp [hk])).bind fun _ c₁ h₁ _ hlt₁ => ?_
      refine (hg.typeNode c₁ h₁ (by omega)).bind fun inner c₂ h₂ _ hlt₂ => ?_
      refine (advances_expect h₂).bind fun _ c₃ h₃ _ hlt₃ => ?_
      exact answers_pure h₃ (by omega)
  · exact hg.functionType hc hn
  · refine (advances_stringLiteral hc hk).bind fun literal d hd _ hlt => ?_
    exact answers_finish hd fun _ => hlt
  · refine (advances_numericLiteral hc hk).bind fun literal d hd _ hlt => ?_
    exact answers_finish hd fun _ => hlt
  · exact hg.wordType hc hn hk
  · exact answers_reject hc

theorem arrayType (hg : g.Answers n) (hc : c.Ends) (hn : c.left ≤ n) : g.arrayType.Advances c := by
  refine .observe rfl ?_
  refine (hg.primaryType hc hn).bind fun first c₁ h₁ _ hlt₁ => ?_
  refine (tries_loop h₁ fun type d hd _ => ?_).mono fun _ _ _ hm => by omega
  refine .observe rfl (.observe rfl ?_)
  split
  · next hb =>
    simp only [Bool.and_eq_true, decide_eq_true_eq] at hb
    refine (advances_advance hd (by simp [hb.1])).bind fun _ e he _ hlt => ?_
    refine (tries_advance he).bind fun _ e' he' hle _ => ?_
    refine (answers_finish (Q := fun _ m => m < d.left) he' fun _ => by omega).bind
      fun array e'' he'' _ hlt'' => ?_
    exact answers_pure he'' fun _ => hlt''
  · exact answers_pure hd nofun

theorem unionType (hg : g.Answers n) (hc : c.Ends) (hn : c.left ≤ n) : g.unionType.Advances c := by
  refine .observe rfl ?_
  refine (answers_eat hc).bind fun barred c₁ h₁ hle₁ _ => ?_
  refine (hg.arrayType h₁ (by omega)).bind fun first c₂ h₂ _ hlt₂ => ?_
  refine (tries_loop h₂ fun types d hd hle => ?_).bind fun types c₃ h₃ hle₃ _ => ?_
  · refine (answers_eat hd).bind fun b e he hle' hb => ?_
    cases b with
    | true =>
      have hlt := hb rfl
      refine (hg.arrayType he (by omega)).bind fun type e' he' _ hlt' => ?_
      exact answers_pure he' fun _ => by omega
    | false => exact answers_pure he nofun
  · split
    · exact answers_pure h₃ (by omega)
    · exact answers_finish h₃ fun _ => by omega

end Grammar.Answers

end Quasiquote
