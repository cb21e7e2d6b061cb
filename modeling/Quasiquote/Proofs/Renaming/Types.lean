import Quasiquote.Proofs.Renaming.Model
import Quasiquote.Proofs.Returns
import Quasiquote.Template.Inference

namespace Quasiquote

variable {r : Renaming}

namespace Node

variable {n e : Node}

theorem writtenType_functionType (hk : n.kind = .functionType) :
    n.writtenType = .function ((n.child? .typeNode).elim .unknown writtenType) := by
  rw [writtenType, hk]
  dsimp only
  rw [elim_smaller? n .typeNode Ty.unknown writtenType]

theorem rightmostName?_rename (h : ∀ m ∈ n.preorder, r.touches m = false) :
    (n.rename r).rightmostName? = n.rightmostName? := by
  unfold rightmostName?
  rw [kind_rename]
  split
  · exact identifier?_rename_of_touches (h n n.self_mem_preorder)
  · rw [child?_rename n (by decide)]
    cases hc : n.child? .right with
    | none => rfl
    | some c =>
      exact identifier?_rename_of_touches
        (h c (mem_preorder_of_mem_children (mem_children_of_child? hc)))
  · rfl

theorem writtenType_rename (h : ∀ m ∈ n.preorder, r.touches m = false) :
    (n.rename r).writtenType = n.writtenType := by
  induction n using inductionOnChildren with
  | h n ih =>
    have hchild : ∀ {l : Label} {c : Node}, n.child? l = some c →
        ∀ m ∈ c.preorder, r.touches m = false := fun hc m hm =>
      h m ((preorder_sublist_of_mem_preorder
        (mem_preorder_of_mem_children (mem_children_of_child? hc))).subset hm)
    by_cases hf : n.kind = .functionType
    · rw [writtenType_functionType hf, writtenType_functionType ((kind_rename n).trans hf),
        child?_rename n (by decide)]
      cases hc : n.child? .typeNode with
      | none => rfl
      | some c => exact congrArg Ty.function (ih c (mem_children_of_child? hc) (hchild hc))
    rw [writtenType, writtenType, kind_rename]
    split
    · rw [child?_rename n (by decide)]
      cases hc : n.child? .typeName with
      | none => rfl
      | some c =>
        simp only [Option.map_some, Option.bind_some, rightmostName?_rename (hchild hc)]
    · rw [text?_rename_of_label n (by decide) (by decide)]
    · contradiction
    · rfl
    · rfl
    · rw [child?_rename n (by decide)]
      cases n.child? .literal with
      | none => rfl
      | some c => simp only [literalType, Option.map_some, kind_rename]
    · rfl

theorem mem_preorder_of_firstReturn {body : Node} (h : body.firstReturn = some e) :
    e ∈ body.preorder := by
  induction body using inductionOnDescendants generalizing e with
  | h body ih =>
    rw [firstReturn_eq] at h
    have h := Option.join_eq_some_iff.mp h
    obtain ⟨s, hs, h⟩ := List.exists_of_findSome?_eq_some h
    have hs := mem_children_of_mem_list hs
    have hsub := preorder_sublist_of_mem_preorder (mem_preorder_of_mem_children hs)
    unfold statementReturn at h
    split at h
    · have he := mem_preorder_of_mem_children (mem_children_of_child? (Option.some.inj h))
      exact hsub.subset he
    · obtain ⟨_, hreturn, heq⟩ := Option.map_eq_some_iff.mp h
      obtain rfl := Option.some.inj heq
      exact hsub.subset (ih s (mem_descendants_of_mem_children hs) hreturn)
    · obtain ⟨_, hreturn, heq⟩ := Option.map_eq_some_iff.mp h
      obtain rfl := Option.some.inj heq
      obtain ⟨branch, -, h⟩ := List.exists_of_findSome?_eq_some hreturn
      obtain ⟨b, hb, h⟩ := Option.bind_eq_some_iff.mp h
      have hb := mem_children_of_child? hb
      refine hsub.subset
        ((preorder_sublist_of_mem_preorder (mem_preorder_of_mem_children hb)).subset ?_)
      split at h
      · exact mem_preorder_of_mem_children (mem_children_of_child? h)
      · exact ih b (mem_descendants_of_mem_children_of_mem_children hs hb) h
    · cases h

theorem branchReturn_rename {s : Node} {branch : Label} (hl : branch ≠ .propertyName)
    (h : ∀ b ∈ s.children, (b.rename r).firstReturn = b.firstReturn.map (rename r)) :
    (s.rename r).branchReturn branch = (s.branchReturn branch).map (rename r) := by
  unfold branchReturn
  rw [child?_rename s hl]
  cases hb : s.child? branch with
  | none => rfl
  | some b =>
    simp only [Option.map_some, Option.bind_some, kind_rename]
    split
    · exact child?_rename b (by decide)
    · exact h b (mem_children_of_child? hb)

theorem statementReturn_rename {s : Node}
    (hs : (s.rename r).firstReturn = s.firstReturn.map (rename r))
    (h : ∀ b ∈ s.children, (b.rename r).firstReturn = b.firstReturn.map (rename r)) :
    (s.rename r).statementReturn = s.statementReturn.map (Option.map (rename r)) := by
  unfold statementReturn
  rw [kind_rename]
  split
  · rw [child?_rename s (by decide)]
    rfl
  · rw [hs, Option.map_map, Option.map_map]
    rfl
  · have hthen := branchReturn_rename (show Label.thenStatement ≠ .propertyName by decide) h
    have helse := branchReturn_rename (show Label.elseStatement ≠ .propertyName by decide) h
    simp only [List.findSome?_cons, List.findSome?_nil, hthen, helse]
    cases s.branchReturn .thenStatement <;> cases s.branchReturn .elseStatement <;> rfl
  · rfl

theorem firstReturn_rename (body : Node) :
    (body.rename r).firstReturn = body.firstReturn.map (rename r) := by
  induction body using inductionOnDescendants with
  | h body ih =>
    have hstatement : ∀ s ∈ body.list .statements,
        (s.rename r).statementReturn = s.statementReturn.map (Option.map (rename r)) := by
      intro s hs
      have hs := mem_children_of_mem_list hs
      exact statementReturn_rename (ih s (mem_descendants_of_mem_children hs)) fun b hb =>
        ih b (mem_descendants_of_mem_children_of_mem_children hs hb)
    rw [firstReturn_eq, firstReturn_eq, list_rename body (by decide), ← Option.join_map_eq_map_join,
      List.findSome?_map, List.map_findSome?, ← List.head?_filterMap, ← List.head?_filterMap]
    exact congrArg (fun es => es.head?.join) (List.filterMap_congr hstatement)

end Node

namespace Compilation

theorem memberType?_eq (c : Compilation) (access : Node) : c.memberType? access =
    ((access.child? .name).bind Node.identifier?).bind fun name =>
      (Kind.ofFactoryName? name).bind fun kind => (memberObject? access).bind fun object =>
        if c.isFactoryNamespace object then some (factoryType kind) else none := by
  unfold memberType?
  rw [Option.bind_assoc]
  rfl

theorem specifierType?_eq (c : Compilation) (specifier : Node) : c.specifierType? specifier =
    (c.model.importModule? specifier).bind fun module =>
      if module = c.options.moduleSpecifier then some (.function .nodeFactory)
      else if module = c.options.factoryModule then
        (specifier.imported?.bind Node.identifier?).bind fun name =>
          (Kind.ofFactoryName? name).bind fun kind => some (factoryType kind)
      else none := by
  unfold specifierType?
  simp only [Option.bind_assoc]
  rfl

end Compilation

namespace Renaming.Agrees

variable {p : Program} {n e : Node} {symbol : Symbol} (o : Options)

theorem suits_of_holds (h : r.Agrees p) (hn : p.Holds n) : r.Suits n := by
  obtain ⟨file, hfile, hn⟩ := hn
  exact (h.fits file hfile).suits n hn

theorem id?_ne_of_holds (h : r.Agrees p) (hn : p.Holds n) : n.id? ≠ r.mark.id := by
  obtain ⟨file, hfile, hn⟩ := hn
  exact h.fresh file hfile n hn

theorem importsFactories_rename (h : r.Agrees p) (hn : p.Holds n) :
    Compilation.importsFactories ⟨(p.rename r).model, o⟩ (n.rename r) =
      Compilation.importsFactories ⟨p.model, o⟩ n := by
  simp only [Compilation.importsFactories, Node.kind_rename,
    h.importModule?_rename (h.id?_ne_of_holds hn)]

theorem isFactoryNamespace_rename (h : r.Agrees p) (n : Node) :
    Compilation.isFactoryNamespace ⟨(p.rename r).model, o⟩ (n.rename r) =
      Compilation.isFactoryNamespace ⟨p.model, o⟩ n := by
  unfold Compilation.isFactoryNamespace
  dsimp only
  rw [h.resolve?_rename]
  cases hn : p.model.resolve? n with
  | none => rfl
  | some symbol =>
    simp only [Option.map_some, Option.bind_some, h.declarations_symbol (h.knows_of_resolve? hn),
      List.head?_map]
    cases hd : (p.model.declarations symbol).head? with
    | none => rfl
    | some d =>
      exact h.importsFactories_rename o
        (h.holds_of_mem_declarations (List.mem_of_mem_head? hd))

/-- The name of a member does not change. -/
theorem memberName_rename (h : r.Agrees p) (hn : p.Holds n)
    (hk : n.kind = .propertyAccessExpression) :
    ((n.rename r).child? .name).bind Node.identifier? = (n.child? .name).bind Node.identifier? := by
  rw [Node.child?_rename n (by decide)]
  cases hc : n.child? .name with
  | none => rfl
  | some c => exact Node.identifier?_rename_of_touches ((h.suits_of_holds hn).member hk c hc)

theorem memberObject?_rename (h : r.Agrees p) (hn : p.Holds n) :
    Compilation.memberObject? (n.rename r) = (Compilation.memberObject? n).map (Node.rename r) := by
  unfold Compilation.memberObject?
  rw [Node.child?_rename n (by decide)]
  cases hobject : n.child? .expression with
  | none => rfl
  | some object =>
    simp only [Option.map_some, bind, Option.bind_some, Node.kind_rename]
    by_cases hk : object.kind = .propertyAccessExpression
    · rw [h.memberName_rename (hn.child hobject) hk]
      split
      · exact Node.child?_rename object (by decide)
      · rfl
    · simp [hk]

theorem memberType?_rename (h : r.Agrees p) (hn : p.Holds n)
    (hk : n.kind = .propertyAccessExpression) :
    Compilation.memberType? ⟨(p.rename r).model, o⟩ (n.rename r) =
      Compilation.memberType? ⟨p.model, o⟩ n := by
  rw [Compilation.memberType?_eq, Compilation.memberType?_eq, h.memberName_rename hn hk,
    h.memberObject?_rename hn]
  simp only [Option.bind_map, Function.comp_def, h.isFactoryNamespace_rename]

theorem specifierType?_rename (h : r.Agrees p) (hn : p.Holds n) (hk : n.kind = .importSpecifier) :
    Compilation.specifierType? ⟨(p.rename r).model, o⟩ (n.rename r) =
      Compilation.specifierType? ⟨p.model, o⟩ n := by
  rw [Compilation.specifierType?_eq, Compilation.specifierType?_eq,
    (h.suits_of_holds hn).imported hk]
  simp only [h.importModule?_rename (h.id?_ne_of_holds hn)]

theorem importedType?_symbol (h : r.Agrees p) (hsymbol : r.Knows symbol) :
    Compilation.importedType? ⟨(p.rename r).model, o⟩ (r.symbol symbol) =
      Compilation.importedType? ⟨p.model, o⟩ symbol := by
  unfold Compilation.importedType?
  dsimp only
  rw [h.kind_symbol, h.declarations_symbol hsymbol, List.head?_map]
  split
  · rfl
  · cases hd : (p.model.declarations symbol).head? with
    | none => rfl
    | some d =>
      simp only [Option.map_some, bind, Option.bind_some, Node.kind_rename]
      split
      · next hk =>
        exact h.specifierType?_rename o
          (h.holds_of_mem_declarations (List.mem_of_mem_head? hd)) hk
      · rfl

theorem annotation_rename (h : r.Agrees p) (hn : p.Holds n) :
    ((n.rename r).child? .typeNode).map Node.writtenType =
      (n.child? .typeNode).map Node.writtenType := by
  rw [Node.child?_rename n (by decide)]
  cases hc : n.child? .typeNode with
  | none => rfl
  | some c =>
    exact congrArg some (Node.writtenType_rename ((h.suits_of_holds hn).typed c hc))

variable {type type' : Node → Ty}

theorem variableTypeWith_rename (h : r.Agrees p)
    (htype : ∀ e, p.Holds e → type' (e.rename r) = type e) (hn : p.Holds n) :
    Compilation.variableTypeWith type' (n.rename r) = Compilation.variableTypeWith type n := by
  have hannotation := h.annotation_rename hn
  unfold Compilation.variableTypeWith
  rw [Node.child?_rename n (by decide)] at hannotation ⊢
  cases hc : n.child? .typeNode with
  | some c =>
    rw [hc] at hannotation
    exact Option.some.inj hannotation
  | none =>
    simp only [Option.map_none]
    rw [Node.child?_rename n (by decide)]
    cases he : n.child? .initializer with
    | none => rfl
    | some e => exact htype e (hn.child he)

theorem functionTypeWith_rename (h : r.Agrees p)
    (htype : ∀ e, p.Holds e → type' (e.rename r) = type e) (hn : p.Holds n) :
    Compilation.functionTypeWith type' (n.rename r) = Compilation.functionTypeWith type n := by
  have hannotation := h.annotation_rename hn
  unfold Compilation.functionTypeWith
  rw [Node.child?_rename n (by decide)] at hannotation ⊢
  cases hc : n.child? .typeNode with
  | some c =>
    rw [hc] at hannotation
    exact congrArg Ty.function (Option.some.inj hannotation)
  | none =>
    simp only [Option.map_none]
    rw [Node.child?_rename n (by decide)]
    cases hb : n.child? .body with
    | none => rfl
    | some body =>
      simp only [Option.map_some, Node.kind_rename, Node.firstReturn_rename]
      split
      · cases he : body.firstReturn with
        | none => rfl
        | some e =>
          obtain ⟨file, hfile, hbody⟩ := hn.child hb
          have hmem := (Node.preorder_sublist_of_mem_preorder hbody).subset
            (Node.mem_preorder_of_firstReturn he)
          exact congrArg Ty.function (htype e ⟨file, hfile, hmem⟩)
      · exact congrArg Ty.function (htype body (hn.child hb))

structure TypesWithin (r : Renaming) (p : Program) (o : Options) (steps : Nat) : Prop where
  symbol : ∀ s, r.Knows s → Compilation.symbolTypeWithin ⟨(p.rename r).model, o⟩ steps (r.symbol s) =
    Compilation.symbolTypeWithin ⟨p.model, o⟩ steps s
  function : ∀ f, p.Holds f →
    Compilation.functionTypeWithin ⟨(p.rename r).model, o⟩ steps (f.rename r) =
      Compilation.functionTypeWithin ⟨p.model, o⟩ steps f
  expression : ∀ e, p.Holds e →
    Compilation.expressionTypeWithin ⟨(p.rename r).model, o⟩ steps (e.rename r) =
      Compilation.expressionTypeWithin ⟨p.model, o⟩ steps e

theorem symbolTypeWithin_symbol (h : r.Agrees p) {steps : Nat} (ht : TypesWithin r p o steps)
    (hsymbol : r.Knows symbol) :
    Compilation.symbolTypeWithin ⟨(p.rename r).model, o⟩ (steps + 1) (r.symbol symbol) =
      Compilation.symbolTypeWithin ⟨p.model, o⟩ (steps + 1) symbol := by
  rw [Compilation.symbolTypeWithin, Compilation.symbolTypeWithin, h.importedType?_symbol o hsymbol]
  cases Compilation.importedType? ⟨p.model, o⟩ symbol with
  | some t => rfl
  | none =>
    dsimp only
    rw [h.aliased_rename, h.declarations_symbol (knows_aliased hsymbol), List.head?_map]
    cases hd : (p.model.declarations (p.model.aliased symbol)).head? with
    | none => rfl
    | some d =>
      have hheld := h.holds_of_mem_declarations (List.mem_of_mem_head? hd)
      simp only [Option.map_some, Node.kind_rename]
      split
      · exact h.variableTypeWith_rename ht.expression hheld
      · exact h.variableTypeWith_rename ht.expression hheld
      · exact ht.function d hheld
      · exact ht.function d hheld
      · exact ht.function d hheld
      · rfl

theorem expressionTypeWithin_rename (h : r.Agrees p) {steps : Nat} (ht : TypesWithin r p o steps)
    (he : p.Holds e) :
    Compilation.expressionTypeWithin ⟨(p.rename r).model, o⟩ (steps + 1) (e.rename r) =
      Compilation.expressionTypeWithin ⟨p.model, o⟩ (steps + 1) e := by
  have hchild : ∀ l, l ≠ .propertyName →
      (((e.rename r).child? l).map fun inner =>
          Compilation.expressionTypeWithin ⟨(p.rename r).model, o⟩ steps inner) =
        (e.child? l).map fun inner =>
          Compilation.expressionTypeWithin ⟨p.model, o⟩ steps inner := by
    intro l hl
    rw [Node.child?_rename e hl]
    cases hc : e.child? l with
    | none => simp only [Option.map_none]
    | some c => simp only [Option.map_some, ht.expression c (he.child hc)]
  rw [Compilation.expressionTypeWithin, Compilation.expressionTypeWithin, Node.kind_rename]
  split
  · dsimp only
    rw [h.resolve?_rename]
    cases hs : p.model.resolve? e with
    | none => rfl
    | some s => exact ht.symbol s (h.knows_of_resolve? hs)
  · exact ht.function e he
  · exact ht.function e he
  · exact ht.function e he
  · dsimp only
    rw [hchild .expression (by decide)]
  · dsimp only
    rw [hchild .tag (by decide)]
  · simp only [hchild .whenTrue (by decide), hchild .whenFalse (by decide)]
  · dsimp only
    rw [hchild .expression (by decide)]
  · rw [h.annotation_rename he]
  · next hk => rw [h.memberType?_rename o he hk]
  all_goals rfl

theorem typesWithin (h : r.Agrees p) (steps : Nat) : TypesWithin r p o steps := by
  induction steps with
  | zero => exact ⟨fun _ _ => rfl, fun f hf => h.functionTypeWith_rename (fun _ _ => rfl) hf,
      fun _ _ => rfl⟩
  | succ steps ih => exact ⟨fun _ hs => h.symbolTypeWithin_symbol o ih hs,
      fun f hf => h.functionTypeWith_rename ih.expression hf,
      fun _ he => h.expressionTypeWithin_rename o ih he⟩

/-- A substitution has the role that it had. -/
theorem inferRole_rename (h : r.Agrees p) (he : p.Holds e) :
    Compilation.inferRole ⟨(p.rename r).model, o⟩ (e.rename r) =
      Compilation.inferRole ⟨p.model, o⟩ e := by
  have ht := h.typesWithin o Compilation.typeSteps
  unfold Compilation.inferRole
  dsimp only
  rw [h.resolve?_rename]
  cases hs : p.model.resolve? e with
  | none => exact congrArg RoleInference.ofType (ht.expression e he)
  | some s => exact congrArg RoleInference.ofType (ht.symbol s (h.knows_of_resolve? hs))

end Renaming.Agrees

end Quasiquote
