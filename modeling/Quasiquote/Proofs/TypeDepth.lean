import Quasiquote.Proofs.Removal
import Quasiquote.Template.Inference

namespace Quasiquote

def Ty.IsKnown : Ty → Prop
  | named _ | primitive _ => True
  | function result => result.IsKnown
  | unknown => False

inductive Subject
  | symbol (s : Symbol)
  | function (n : Node)
  | expression (e : Node)

namespace Subject

/-- The depth of the search is looked at before symbols and expressions, not before functions. -/
def IsChecked : Subject → Prop
  | symbol _ | expression _ => True
  | function _ => False

end Subject

inductive TypeRule
  | settled (t : Ty)
  | sameAs (x : Subject)
  | functionTo (x : Subject)
  /-- What a call returns. -/
  | resultOf (x : Subject)
  /-- The type of two subjects that have the same one. -/
  | agreed (x y : Subject)

namespace TypeRule

def asks : TypeRule → List Subject
  | settled _ => []
  | sameAs x | functionTo x | resultOf x => [x]
  | agreed x y => [x, y]

def apply (typeOf : Subject → Ty) : TypeRule → Ty
  | settled t => t
  | sameAs x => typeOf x
  | functionTo x => .function (typeOf x)
  | resultOf x => (typeOf x).result?.getD .unknown
  | agreed x y => if typeOf x = typeOf y then typeOf x else .unknown

/-- Only the subjects that are asked for matter. -/
theorem apply_congr {r : TypeRule} {f g : Subject → Ty} (h : ∀ x ∈ r.asks, f x = g x) :
    r.apply f = r.apply g := by
  cases r with
  | settled t => rfl
  | sameAs x => exact h x (by simp [asks])
  | functionTo x => exact congrArg Ty.function (h x (by simp [asks]))
  | resultOf x => simp only [apply, h x (by simp [asks])]
  | agreed x y => simp only [apply, h x (by simp [asks]), h y (by simp [asks])]

/-- A known type follows from known types only. -/
theorem isKnown_of_mem_asks {r : TypeRule} {f : Subject → Ty} (h : (r.apply f).IsKnown) :
    ∀ x ∈ r.asks, (f x).IsKnown := by
  cases r with
  | settled t => simp [asks]
  | sameAs x =>
    simp only [asks, List.mem_singleton, forall_eq]
    exact h
  | functionTo x =>
    simp only [asks, List.mem_singleton, forall_eq]
    exact h
  | resultOf x =>
    simp only [asks, List.mem_singleton, forall_eq]
    simp only [apply] at h
    cases ht : f x with
    | function result =>
      rw [ht] at h
      exact h
    | named name => exact trivial
    | primitive keyword => exact trivial
    | unknown =>
      rw [ht] at h
      exact h
  | agreed x y =>
    simp only [asks, List.mem_cons, List.not_mem_nil, or_false, forall_eq_or_imp, forall_eq]
    simp only [apply] at h
    by_cases hxy : f x = f y
    · rw [if_pos hxy] at h
      exact ⟨h, hxy ▸ h⟩
    · rw [if_neg hxy] at h
      exact h.elim

end TypeRule

namespace Compilation

def childRule (rule : Subject → TypeRule) (child : Option Node) : TypeRule :=
  child.elim (.settled .unknown) fun e => rule (.expression e)

def functionRule (function : Node) : TypeRule :=
  match function.child? .typeNode with
  | some annotated => .settled (.function annotated.writtenType)
  | none =>
    match function.child? .body with
    | some body =>
      if body.kind = .block then
        body.firstReturn.elim (.settled (.function (.primitive .void))) fun e =>
          .functionTo (.expression e)
      else .functionTo (.expression body)
    | none => .settled (.function .unknown)

def variableRule (declaration : Node) : TypeRule :=
  match declaration.child? .typeNode with
  | some annotated => .settled annotated.writtenType
  | none => childRule .sameAs (declaration.child? .initializer)

def declarationRule (declaration : Node) : TypeRule :=
  match declaration.kind with
  | .variableDeclaration | .parameter => variableRule declaration
  | .functionDeclaration | .functionExpression | .arrowFunction => .sameAs (.function declaration)
  | _ => .settled .unknown

def symbolRule (c : Compilation) (s : Symbol) : TypeRule :=
  (c.importedType? s).elim
    (((c.model.declarations (c.model.aliased s)).head?).elim (.settled .unknown) declarationRule)
    .settled

def expressionRule (c : Compilation) (e : Node) : TypeRule :=
  match e.kind with
  | .identifier => (c.model.resolve? e).elim (.settled .unknown) fun s => .sameAs (.symbol s)
  | .functionDeclaration | .functionExpression | .arrowFunction => .sameAs (.function e)
  | .callExpression => childRule .resultOf (e.child? .expression)
  | .taggedTemplateExpression => childRule .resultOf (e.child? .tag)
  | .conditionalExpression =>
    (e.child? .whenTrue).elim (.settled .unknown) fun whenTrue =>
      childRule (.agreed (.expression whenTrue)) (e.child? .whenFalse)
  | .parenthesizedExpression => childRule .sameAs (e.child? .expression)
  | .asExpression => .settled (((e.child? .typeNode).map Node.writtenType).getD .unknown)
  | .propertyAccessExpression => .settled ((c.memberType? e).getD .unknown)
  | .stringLiteral | .noSubstitutionTemplateLiteral | .templateExpression =>
    .settled (.primitive .string)
  | .numericLiteral => .settled (.primitive .number)
  | .trueKeyword | .falseKeyword => .settled (.primitive .boolean)
  | .nullKeyword => .settled (.primitive .null)
  | _ => .settled .unknown

def rule (c : Compilation) : Subject → TypeRule
  | .symbol s => c.symbolRule s
  | .function n => functionRule n
  | .expression e => c.expressionRule e

/-- The type of a subject that is found at a depth, when symbols and expressions from a limit on are
not looked at. -/
inductive Finds (c : Compilation) (limit : Nat) : Nat → Subject → Ty → Prop
  | tooDeep {depth : Nat} {x : Subject} (hx : x.IsChecked) (hdepth : limit ≤ depth) :
    Finds c limit depth x .unknown
  | byRule {depth : Nat} {x : Subject} (typeOf : Subject → Ty)
    (hdepth : x.IsChecked → depth < limit)
    (hasks : ∀ y ∈ (c.rule x).asks, Finds c limit (depth + 1) y (typeOf y)) :
    Finds c limit depth x ((c.rule x).apply typeOf)

def typeWithin (c : Compilation) (steps : Nat) : Subject → Ty
  | .symbol s => c.symbolTypeWithin steps s
  | .function n => c.functionTypeWithin steps n
  | .expression e => c.expressionTypeWithin steps e

variable {c : Compilation} {steps : Nat}

theorem typeWithin_zero {x : Subject} (hx : x.IsChecked) : c.typeWithin 0 x = .unknown := by
  cases x with
  | symbol s => rw [typeWithin, symbolTypeWithin]
  | function n => exact hx.elim
  | expression e => rw [typeWithin, expressionTypeWithin]

theorem functionTypeWith_eq (typeOf : Subject → Ty) (n : Node) :
    functionTypeWith (fun e => typeOf (.expression e)) n = (functionRule n).apply typeOf := by
  unfold functionTypeWith functionRule
  cases n.child? .typeNode with
  | some annotated => rfl
  | none =>
    cases n.child? .body with
    | none => rfl
    | some body =>
      by_cases hb : body.kind = .block
      · simp only [if_pos hb]
        cases body.firstReturn <;> rfl
      · simp only [if_neg hb]
        rfl

/-- Functions ask for expressions only. -/
theorem isChecked_of_mem_asks_functionRule {n : Node} :
    ∀ x ∈ (functionRule n).asks, x.IsChecked := by
  unfold functionRule
  cases n.child? .typeNode with
  | some annotated => simp [TypeRule.asks]
  | none =>
    cases n.child? .body with
    | none => simp [TypeRule.asks]
    | some body =>
      by_cases hb : body.kind = .block
      · simp only [if_pos hb]
        cases body.firstReturn <;> simp [TypeRule.asks, Subject.IsChecked]
      · simp [if_neg hb, TypeRule.asks, Subject.IsChecked]

theorem functionTypeWithin_zero (n : Node) :
    c.functionTypeWithin 0 n = (functionRule n).apply fun _ => .unknown := by
  rw [functionTypeWithin, ← functionTypeWith_eq]

theorem apply_childRule_sameAs (child : Option Node) :
    (childRule .sameAs child).apply (c.typeWithin steps) =
      (child.map fun e => c.expressionTypeWithin steps e).getD .unknown := by
  cases child <;> rfl

theorem apply_childRule_resultOf (child : Option Node) :
    (childRule .resultOf child).apply (c.typeWithin steps) =
      ((child.map fun e => c.expressionTypeWithin steps e).getD .unknown).result?.getD .unknown := by
  cases child <;> rfl

theorem symbolTypeWithin_succ (s : Symbol) :
    c.symbolTypeWithin (steps + 1) s = (c.symbolRule s).apply (c.typeWithin steps) := by
  rw [symbolTypeWithin, symbolRule]
  cases c.importedType? s with
  | some t => rfl
  | none =>
    cases (c.model.declarations (c.model.aliased s)).head? with
    | none => rfl
    | some declaration =>
      have hvariable : variableTypeWith (fun e => c.expressionTypeWithin steps e) declaration =
          (variableRule declaration).apply (c.typeWithin steps) := by
        unfold variableTypeWith variableRule
        cases declaration.child? .typeNode with
        | some annotated => rfl
        | none => exact (apply_childRule_sameAs _).symm
      simp only [Option.elim_none, Option.elim_some, declarationRule]
      cases declaration.kind with
      | variableDeclaration => exact hvariable
      | parameter => exact hvariable
      | _ => rfl

theorem expressionTypeWithin_succ (e : Node) :
    c.expressionTypeWithin (steps + 1) e = (c.expressionRule e).apply (c.typeWithin steps) := by
  rw [expressionTypeWithin, expressionRule]
  cases e.kind with
  | identifier => cases c.model.resolve? e <;> rfl
  | callExpression => exact (apply_childRule_resultOf _).symm
  | taggedTemplateExpression => exact (apply_childRule_resultOf _).symm
  | parenthesizedExpression => exact (apply_childRule_sameAs _).symm
  | conditionalExpression =>
    dsimp only
    cases e.child? .whenTrue with
    | none => simp [TypeRule.apply]
    | some whenTrue =>
      cases e.child? .whenFalse with
      | none =>
        simp only [Option.map_some, Option.map_none, Option.getD_some, Option.getD_none]
        split
        · assumption
        · rfl
      | some whenFalse => rfl
  | _ => rfl

/-- One step of the search applies one rule. -/
theorem typeWithin_succ (x : Subject) :
    c.typeWithin (steps + 1) x = (c.rule x).apply (c.typeWithin steps) := by
  cases x with
  | symbol s => exact symbolTypeWithin_succ s
  | function n =>
    rw [typeWithin, functionTypeWithin]
    exact functionTypeWith_eq (c.typeWithin steps) n
  | expression e => exact expressionTypeWithin_succ e

/-- The search finds the type that the rules give. -/
theorem finds_typeWithin (c : Compilation) (limit depth : Nat) (x : Subject) :
    c.Finds limit depth x (c.typeWithin (limit - depth) x) := by
  -- The induction is on the steps that are left; a function is opened even when none is.
  induction hsteps : limit - depth generalizing depth x with
  | zero =>
    have hdepth : limit ≤ depth := by omega
    by_cases hx : x.IsChecked
    · rw [typeWithin_zero hx]
      exact .tooDeep hx hdepth
    · cases x with
      | symbol s => exact absurd trivial hx
      | expression e => exact absurd trivial hx
      | function n =>
        rw [typeWithin, functionTypeWithin_zero]
        apply Finds.byRule (x := .function n)
        · exact fun hf => hf.elim
        · intro y hy
          exact .tooDeep (isChecked_of_mem_asks_functionRule y hy) (by omega)
  | succ steps ih =>
    rw [typeWithin_succ]
    apply Finds.byRule
    · omega
    · intro y _
      exact ih (depth + 1) y (by omega)

/-- The rules give no other type. -/
theorem eq_typeWithin_of_finds {limit depth : Nat} {x : Subject} {t : Ty}
    (h : c.Finds limit depth x t) : t = c.typeWithin (limit - depth) x := by
  induction h with
  | tooDeep hx hdepth => rw [Nat.sub_eq_zero_of_le hdepth, typeWithin_zero hx]
  | @byRule depth x typeOf hdepth hasks ih =>
    have hcongr : ∀ steps, limit - (depth + 1) = steps →
        (c.rule x).apply typeOf = (c.rule x).apply (c.typeWithin steps) := fun steps hs =>
      TypeRule.apply_congr fun y hy => hs ▸ ih y hy
    by_cases hlt : depth < limit
    · have hs : limit - depth = (limit - (depth + 1)) + 1 := by omega
      rw [hs, typeWithin_succ]
      exact hcongr _ rfl
    · have hz : limit - depth = 0 := by omega
      rw [hz, hcongr 0 (by omega)]
      cases x with
      | symbol s => exact absurd (hdepth trivial) hlt
      | expression e => exact absurd (hdepth trivial) hlt
      | function n =>
        rw [typeWithin, functionTypeWithin_zero]
        exact TypeRule.apply_congr fun y hy =>
          typeWithin_zero (isChecked_of_mem_asks_functionRule y hy)

theorem finds_iff {limit depth : Nat} {x : Subject} {t : Ty} :
    c.Finds limit depth x t ↔ t = c.typeWithin (limit - depth) x :=
  ⟨eq_typeWithin_of_finds, fun h => h ▸ c.finds_typeWithin limit depth x⟩

/-- One step more does not change a known type. -/
theorem typeWithin_succ_of_isKnown {x : Subject} (h : (c.typeWithin steps x).IsKnown) :
    c.typeWithin (steps + 1) x = c.typeWithin steps x := by
  induction steps generalizing x with
  | zero =>
    cases x with
    | symbol s =>
      rw [typeWithin_zero (x := .symbol s) trivial] at h
      exact h.elim
    | expression e =>
      rw [typeWithin_zero (x := .expression e) trivial] at h
      exact h.elim
    | function n =>
      rw [typeWithin_succ]
      simp only [typeWithin, functionTypeWithin_zero] at h ⊢
      refine TypeRule.apply_congr fun y hy => ?_
      exact typeWithin_zero (isChecked_of_mem_asks_functionRule y hy)
  | succ steps ih =>
    rw [typeWithin_succ] at h
    rw [typeWithin_succ, typeWithin_succ]
    exact TypeRule.apply_congr fun y hy => ih (TypeRule.isKnown_of_mem_asks h y hy)

theorem typeWithin_of_le {x : Subject} {steps' : Nat} (hle : steps ≤ steps')
    (h : (c.typeWithin steps x).IsKnown) : c.typeWithin steps' x = c.typeWithin steps x := by
  induction hle with
  | refl => rfl
  | step _ ih => rw [typeWithin_succ_of_isKnown (ih ▸ h), ih]

end Compilation

namespace RoleInference

/-- A role of its own comes from a type without unknown parts. -/
theorem isKnown_of_role_ofType {t : Ty} (h : (ofType t).role ≠ .expression) : t.IsKnown := by
  cases t with
  | named name => exact trivial
  | primitive keyword => exact trivial
  | unknown => exact absurd rfl h
  | function result =>
    cases result with
    | named name => exact trivial
    | primitive keyword => exact trivial
    | unknown => exact absurd rfl h
    | function _ => exact absurd rfl h

end RoleInference

namespace Compilation

def roleSubject (c : Compilation) (substitution : Node) : Subject :=
  (c.model.resolve? substitution).elim (.expression substitution) .symbol

theorem inferRole_eq (c : Compilation) (substitution : Node) : c.inferRole substitution =
    .ofType (c.typeWithin typeSteps (c.roleSubject substitution)) := by
  unfold inferRole roleSubject
  cases c.model.resolve? substitution <;> rfl

/-- The bound on the depth only loses information. At every depth and under every limit a subject has
exactly one type by the rules, and the types of symbols and expressions are found so from depth zero.
A type without unknown parts is the type at every lesser depth and under every greater limit. So is
every role but the one for want of a better. -/
theorem finds_of_isKnown (c : Compilation) :
    (∀ limit depth x, ∃! t, c.Finds limit depth x t) ∧
    (∀ s, c.Finds typeSteps 0 (.symbol s) (c.symbolType s)) ∧
    (∀ e, c.Finds typeSteps 0 (.expression e) (c.expressionType e)) ∧
    (∀ limit limit' depth depth' x t, limit ≤ limit' → depth' ≤ depth → t.IsKnown →
      c.Finds limit depth x t → c.Finds limit' depth' x t) ∧
    (∀ limit limit' depth depth' x t t', limit ≤ limit' → depth' ≤ depth →
      c.Finds limit depth x t → (RoleInference.ofType t).role ≠ .expression →
      c.Finds limit' depth' x t' → RoleInference.ofType t' = .ofType t) ∧
    ∀ e, (∃ t, c.Finds typeSteps 0 (c.roleSubject e) t ∧ c.inferRole e = .ofType t) ∧
      ((c.inferRole e).role ≠ .expression → ∀ limit ≥ typeSteps, ∀ t,
        c.Finds limit 0 (c.roleSubject e) t → .ofType t = c.inferRole e) := by
  have hkeep : ∀ limit limit' depth depth' x t, limit ≤ limit' → depth' ≤ depth → t.IsKnown →
      c.Finds limit depth x t → c.Finds limit' depth' x t := by
    intro limit limit' depth depth' x t hlimit hdepth hknown h
    rw [finds_iff] at h ⊢
    subst h
    exact (typeWithin_of_le (by omega) hknown).symm
  have hrole : ∀ limit limit' depth depth' x t t', limit ≤ limit' → depth' ≤ depth →
      c.Finds limit depth x t → (RoleInference.ofType t).role ≠ .expression →
      c.Finds limit' depth' x t' → RoleInference.ofType t' = .ofType t := by
    intro limit limit' depth depth' x t t' hlimit hdepth h hne h'
    have hsame := hkeep limit limit' depth depth' x t hlimit hdepth
      (RoleInference.isKnown_of_role_ofType hne) h
    rw [finds_iff] at hsame h'
    rw [h', hsame]
  refine ⟨?_, ?_, ?_, hkeep, hrole, ?_⟩
  · intro limit depth x
    exact ⟨_, c.finds_typeWithin limit depth x, fun t h => eq_typeWithin_of_finds h⟩
  · intro s
    exact c.finds_typeWithin typeSteps 0 (.symbol s)
  · intro e
    exact c.finds_typeWithin typeSteps 0 (.expression e)
  · intro e
    have hfinds := c.finds_typeWithin typeSteps 0 (c.roleSubject e)
    refine ⟨⟨_, hfinds, c.inferRole_eq e⟩, ?_⟩
    intro hne limit hlimit t h
    rw [inferRole_eq] at hne ⊢
    exact hrole typeSteps limit 0 0 _ _ _ hlimit (Nat.le_refl _) hfinds hne h

/-- Two variables that are each other's value, of unknown type at any depth, and a variable whose type
is found three steps before the limit. -/
theorem finds_of_isKnown_cyclic : ∃ file c e b,
    SourceFile.parse "a.ts" "const b = f; const f = b; const g = (p): Identifier => p; g(b);" =
      .ok file ∧
    c = (⟨(Program.ofFiles [file]).model, {}⟩ : Compilation) ∧
    e.identifier? = some "g" ∧ b.identifier? = some "b" ∧
    c.Finds typeSteps 30 (.expression e) (.function (.named "Identifier")) ∧
    (∀ depth ≤ 30, c.Finds typeSteps depth (.expression e) (.function (.named "Identifier"))) ∧
    c.inferRole e = ⟨.identifier, none⟩ ∧
    (∀ limit ≥ typeSteps, ∀ t, c.Finds limit 0 (c.roleSubject e) t →
      RoleInference.ofType t = ⟨.identifier, none⟩) ∧
    (∃! t, c.Finds typeSteps 0 (.expression b) t) ∧ c.expressionType b = .unknown := by
  have hcheck : ((SourceFile.parse "a.ts"
      "const b = f; const f = b; const g = (p): Identifier => p; g(b);").toOption.any fun file =>
        let p := Program.ofFiles [file]
        let c : Compilation := ⟨p.model, {}⟩
        (p.files.any fun file => file.tree.preorder.any fun e => e.identifier? = some "g" &&
          c.expressionTypeWithin 3 e = .function (.named "Identifier") &&
          c.inferRole e = ⟨.identifier, none⟩) &&
        p.files.any fun file => file.tree.preorder.any fun b => b.identifier? = some "b" &&
          c.expressionType b = .unknown) = true := by decide +kernel
  obtain ⟨file, hfile, h⟩ := exists_ok_of_any hcheck
  simp only [Bool.and_eq_true, List.any_eq_true, decide_eq_true_eq] at h
  obtain ⟨⟨-, -, e, -, ⟨he, htype⟩, hrole⟩, -, -, b, -, hb, hunknown⟩ := h
  obtain ⟨hunique, -, -, hkeep, -, hroles⟩ :=
    finds_of_isKnown ⟨(Program.ofFiles [file]).model, {}⟩
  have hfinds := finds_typeWithin ⟨(Program.ofFiles [file]).model, {}⟩ typeSteps 30
    (.expression e)
  rw [show Compilation.typeWithin _ (typeSteps - 30) (.expression e) = _ from htype] at hfinds
  refine ⟨file, _, e, b, hfile, rfl, he, hb, hfinds, ?_, hrole, ?_, hunique _ _ _, hunknown⟩
  · intro depth hdepth
    exact hkeep _ _ _ _ _ _ (Nat.le_refl _) hdepth trivial hfinds
  · intro limit hlimit t ht
    rw [← hrole]
    exact (hroles e).2 (by rw [hrole]; decide) limit hlimit t ht

end Compilation

end Quasiquote
