import Quasiquote.Proofs.Removal
import Quasiquote.Proofs.Selection

namespace Quasiquote

theorem Kind.shape?_text {k : Kind} {shape : Shape} (h : k.shape? .text = some shape) :
    shape = .text := by
  cases k <;> cases h <;> rfl

namespace Node

variable {n tree : Node} {module : String}

/-- Whether a node is an import declaration whose specifier has a module's name for its text. -/
def isImportFrom (module : String) (n : Node) : Bool :=
  n.kind = .importDeclaration &&
    ((n.child? .moduleSpecifier).bind fun c => c.text? .text) = some module

/-- In a tree that conforms, a field with the label of texts holds a text. -/
theorem Conforms.exists_text {f : Field} (h : n.Conforms) (hf : n.field? .text = some f) :
    ∃ s, f = .text s := by
  obtain ⟨i, hi, -⟩ := Option.bind_eq_some_iff.mp hf
  obtain ⟨shape, hs⟩ := n.kind.fieldIndex?_eq_some hi
  have hshape : n.kind.shape? .text = some shape := by simp [Kind.shape?, hi, hs]
  obtain rfl := Kind.shape?_text hshape
  exact f.fits_text_iff.mp (fits_of_field? (h n n.self_mem_preorder) hshape hf)

theorem Conforms.holds_module_iff (h : n.Conforms) :
    Attribute.holds ⟨["moduleSpecifier", "text"], some (.text module)⟩ n = true ↔
      ((n.child? .moduleSpecifier).bind fun c => c.text? .text) = some module := by
  rw [Attribute.holds, target?_moduleSpecifier, moduleField?]
  cases hc : n.child? .moduleSpecifier with
  | none => simp
  | some c =>
    rw [Option.bind_some, Option.bind_some, text?]
    cases hf : c.field? .text with
    | none => simp
    | some f =>
      obtain ⟨s, rfl⟩ := (h.of_child? hc).exists_text hf
      simp

theorem Conforms.matches_ofModule (h : n.Conforms) (ancestors : List Node) :
    (Selector.ofModule module).matches n ancestors = n.isImportFrom module := by
  have hancestors : (Selector.ofModule module).matches n ancestors =
      (Selector.ofModule module).matches n [] := by
    simp [Selector.matches, Selector.ofModule, Selector.matchesChain, Selector.climb]
  rw [hancestors, Bool.eq_iff_iff, isImportFrom, Bool.and_eq_true, decide_eq_true_eq,
    decide_eq_true_eq, ← h.holds_module_iff]
  exact isImportOf_iff

theorem Conforms.tagImports_eq (h : tree.Conforms) (module : String) :
    tagImports tree module = .ok (tree.preorder.filter (isImportFrom module)) := by
  have hselect : (Selector.ofModule module).select tree =
      tree.preorder.filter (isImportFrom module) := by
    rw [Selector.select, ← tree.map_node_entriesUnder [], List.filter_map]
    congr 1
    refine List.filter_congr fun e he => ?_
    have hnode : e.node ∈ tree.preorder := by
      rw [← tree.map_node_entriesUnder []]
      exact List.mem_map_of_mem he
    have hconforms : e.node.Conforms := fun m hm =>
      h m ((preorder_sublist_of_mem_preorder hnode).subset hm)
    exact hconforms.matches_ofModule e.ancestors
  rw [tagImports, query, Selector.parse_ofModule, ← hselect]
  rfl

end Node

def ExpansionError.IsFragment (e : ExpansionError) : Prop :=
  ∃ fragment error, e.cause = .invalidFragment fragment error

namespace Pass

variable {α β : Type}

def FailsOnFragments (x : Pass α) : Prop :=
  ∀ s e s', outcome x s = (.error e, s') → e.IsFragment

theorem failsOnFragments_pure (a : α) : FailsOnFragments (pure a : Pass α) := by
  intro s e s' h
  simp at h

theorem FailsOnFragments.bind {x : Pass α} {f : α → Pass β} (hx : FailsOnFragments x)
    (hf : ∀ a, FailsOnFragments (f a)) : FailsOnFragments (x >>= f) := by
  intro s e s' h
  rw [outcome_bind] at h
  rcases hxs : outcome x s with ⟨e' | a, t⟩
  · simp only [hxs, Prod.mk.injEq, Except.error.injEq] at h
    obtain ⟨rfl, rfl⟩ := h
    exact hx s e' t hxs
  · simp only [hxs] at h
    exact hf a t e s' h

theorem FailsOnFragments.map {x : Pass α} (hx : FailsOnFragments x) (f : α → β) :
    FailsOnFragments (f <$> x) := by
  rw [← bind_pure_comp]
  exact hx.bind fun a => failsOnFragments_pure (f a)

theorem FailsOnFragments.mapM {g : α → Pass β} {xs : List α}
    (h : ∀ x ∈ xs, FailsOnFragments (g x)) : FailsOnFragments (xs.mapM g) := by
  induction xs with
  | nil => exact failsOnFragments_pure []
  | cons x xs ih =>
    obtain ⟨hx, hxs⟩ := List.forall_mem_cons.mp h
    rw [List.mapM_cons]
    exact hx.bind fun y => (ih hxs).bind fun ys => failsOnFragments_pure _

theorem FailsOnFragments.replaceM {selected : Node → Bool} {replacement : Node → Pass Node}
    (h : ∀ n, FailsOnFragments (replacement n)) (n : Node) :
    FailsOnFragments (n.replaceM selected replacement) := by
  induction n using Node.inductionOnChildren with
  | h n ih =>
    rw [Node.replaceM_eq]
    split
    · exact h n
    · rw [Node.mapChildrenM_eq]
      refine FailsOnFragments.bind (.mapM fun f hf => ?_) fun _ => failsOnFragments_pure _
      have hnodes : ∀ c ∈ f.nodes, FailsOnFragments (c.replaceM selected replacement) :=
        fun c hc => ih c (List.mem_flatMap.mpr ⟨f, hf, hc⟩)
      cases f with
      | node c => exact (hnodes c (List.mem_singleton_self c)).map Field.node
      | list cs => exact (FailsOnFragments.mapM hnodes).map Field.list
      | text | flag | absent => exact failsOnFragments_pure _

end Pass

namespace FilePass

variable (p : FilePass)

theorem expandSite_failsOnFragments (site : Node) : Pass.FailsOnFragments (p.expandSite site) := by
  cases ht : site.child? .template with
  | none =>
    rw [expandSite, ht]
    exact Pass.failsOnFragments_pure site
  | some template =>
    intro s e s' h
    rw [outcome_expandSite s ht] at h
    rcases hx : p.compilation.expandTemplate template s.ids with ⟨e' | expansion, ids⟩
    · simp only [hx, outcome_conclude_error, Prod.mk.injEq, Except.error.injEq] at h
      obtain ⟨rfl, -⟩ := h
      exact ⟨e'.fragment, e'.error, rfl⟩
    · simp [hx] at h

theorem expandWithin_failsOnFragments (depth : Nat) (n : Node) :
    Pass.FailsOnFragments (p.expandWithin depth n) := by
  induction depth generalizing n with
  | zero => exact Pass.failsOnFragments_pure n
  | succ depth ih =>
    exact .replaceM (fun site => (p.expandSite_failsOnFragments site).bind ih) n

theorem withFactoryImport_failsOnFragments (tree : Node) :
    Pass.FailsOnFragments (p.withFactoryImport tree) := by
  have hget : Pass.FailsOnFragments (get : Pass Progress) := fun s e s' h => by simp at h
  have hmodify (f : Progress → Progress) : Pass.FailsOnFragments (modify f : Pass Unit) :=
    fun s e s' h => by simp at h
  refine hget.bind fun progress => ?_
  split
  · exact Pass.failsOnFragments_pure tree
  · split
    · exact Pass.failsOnFragments_pure _
    · split
      · exact Pass.failsOnFragments_pure tree
      · exact (hmodify _).bind fun _ => Pass.failsOnFragments_pure tree

end FilePass

namespace Compilation

variable {file : SourceFile}

theorem expandFile_isFragment {c : Compilation} {ids : IdSupply} {e : ExpansionError}
    (h : (c.expandFile file ids).1 = .error e) : e.IsFragment := by
  obtain ⟨imports, himports⟩ := Node.exists_tagImports file.tree c.options.moduleSpecifier
  unfold expandFile at h
  rw [himports] at h
  cases imports with
  | nil => cases h
  | cons statement rest =>
    let p : FilePass := ⟨c, file, statement :: rest⟩
    have hpass : Pass.FailsOnFragments (p.expandAll file.tree >>= p.withFactoryImport) :=
      (p.expandWithin_failsOnFragments _ file.tree).bind p.withFactoryImport_failsOnFragments
    dsimp only at h
    split at h
    · cases h
    · next e' progress hrun =>
      obtain rfl : e' = e := Except.error.inj h
      exact hpass _ e' progress hrun

/-- The imports of the tag are found exactly, whatever module they are looked for in. Hence a file
is only ever refused for one of its templates, and one without such an import stays as it is. -/
theorem expandFile_finds_imports (hf : file.tree.Conforms) :
    (∀ module, tagImports file.tree module =
      .ok (file.tree.preorder.filter (Node.isImportFrom module))) ∧
    ∀ (c : Compilation) (ids : IdSupply),
      (∀ e error, (c.expandFile file ids).1 = .error e →
        e.cause ≠ .invalidModuleSpecifier error) ∧
      ((∀ n ∈ file.tree.preorder, n.isImportFrom c.options.moduleSpecifier = false) →
        c.expandFile file ids =
          (.ok { tree := file.tree, diagnostics := [], expansions := 0 }, ids)) := by
  refine ⟨hf.tagImports_eq, fun c ids => ⟨fun e error he => ?_, fun hnone => ?_⟩⟩
  · obtain ⟨fragment, parseError, hcause⟩ := expandFile_isFragment he
    rw [hcause]
    exact nofun
  · have himports : tagImports file.tree c.options.moduleSpecifier = .ok [] := by
      rw [hf.tagImports_eq, List.filter_eq_nil_iff.mpr fun n hn => by simp [hnone n hn]]
    unfold expandFile
    rw [himports]

/-- An import inside a function, of a module with quotes, brackets and a backslash in its name. -/
theorem expandFile_finds_nested_import :
    ∃ file, SourceFile.parse "a.ts"
        "function g() \x7b import a from '[\"\\\\]'; \x7d import b from \"b\";\n" = .ok file ∧
      file.tree.Conforms ∧ (∃ n, tagImports file.tree "[\"\\]" = .ok [n]) ∧
      (∀ s ∈ file.tree.list .statements, s.isImportFrom "[\"\\]" = false) ∧
      ∀ model ids, expandFile ⟨model, { moduleSpecifier := "c" }⟩ file ids =
        (.ok { tree := file.tree, diagnostics := [], expansions := 0 }, ids) := by
  have hcheck : ((SourceFile.parse "a.ts"
      "function g() \x7b import a from '[\"\\\\]'; \x7d import b from \"b\";\n").toOption.any
      fun file => decide file.tree.Conforms &&
        (file.tree.preorder.filter (Node.isImportFrom "[\"\\]")).length == 1 &&
        ((file.tree.list .statements).all fun s => !s.isImportFrom "[\"\\]") &&
        file.tree.preorder.all fun n => !n.isImportFrom "c") = true := by decide +kernel
  obtain ⟨file, hfile, h⟩ := exists_ok_of_any hcheck
  simp only [Bool.and_eq_true, decide_eq_true_eq, beq_iff_eq, List.all_eq_true,
    Bool.not_eq_true'] at h
  obtain ⟨⟨⟨hf, hlength⟩, hstatements⟩, hnone⟩ := h
  obtain ⟨himports, hexpand⟩ := expandFile_finds_imports hf
  obtain ⟨n, hn⟩ := List.length_eq_one_iff.mp hlength
  exact ⟨file, hfile, hf, ⟨n, hn ▸ himports _⟩, hstatements,
    fun model ids => (hexpand ⟨model, { moduleSpecifier := "c" }⟩ ids).2 hnone⟩

end Compilation

end Quasiquote
