import Quasiquote.Proofs.Removal
import Quasiquote.Proofs.Renaming.Templates
import Quasiquote.Proofs.Selection

namespace Quasiquote

variable {r : Renaming} {p : Program} {n : Node}

namespace Node

variable {m : Type → Type} [Monad m] [LawfulMonad m]

theorem mapM_map_of_mem {α : Type} {f f' : α → m α} {g : α → α} {xs : List α}
    (h : ∀ x ∈ xs, f' (g x) = g <$> f x) : (xs.map g).mapM f' = List.map g <$> xs.mapM f := by
  induction xs with
  | nil => simp
  | cons x xs ih =>
    obtain ⟨hx, hxs⟩ := List.forall_mem_cons.mp h
    simp [List.mapM_cons, hx, ih hxs]

section

variable {f f' : Node → m Node}

theorem mapNodesM_rename {field : Field}
    (h : ∀ c ∈ field.nodes, f' (c.rename r) = rename r <$> f c) :
    Field.mapNodesM f' (r.field n field) = r.field n <$> Field.mapNodesM f field := by
  cases field with
  | node c =>
    simp only [Renaming.field, Field.rename, Field.mapNodesM, h c (by simp [Field.nodes]),
      Functor.map_map]
  | list cs =>
    have hcs : (cs.map (rename r)).mapM f' = List.map (rename r) <$> cs.mapM f := mapM_map_of_mem h
    simp only [Renaming.field, Field.rename, Field.mapNodesM, hcs, Functor.map_map]
  | text | flag | absent => simp [Renaming.field, Field.rename, Field.mapNodesM]

/-- The property name of the specifier is put in after or before its fields are mapped. -/
theorem mapM_importAs (hproperty : f' r.property = pure r.property) {fields : List Field}
    (h : ∀ field ∈ fields, Field.mapNodesM f' (r.field n field) =
      r.field n <$> Field.mapNodesM f field) :
    (r.importAs (fields.map (r.field n))).mapM (Field.mapNodesM f') =
      (fun mapped => r.importAs (mapped.map (r.field n))) <$> fields.mapM (Field.mapNodesM f) := by
  cases fields with
  | nil => simp [Renaming.importAs]
  | cons field fields =>
    cases field with
    | absent =>
      have hrest := mapM_map_of_mem (List.forall_mem_cons.mp h).2
      simp [Renaming.importAs, Renaming.field, Field.rename, Field.mapNodesM, hproperty, hrest]
    | node | list | text | flag =>
      refine (mapM_map_of_mem h).trans ?_
      simp [Renaming.importAs, Renaming.field, Field.rename, Field.mapNodesM]

theorem mapChildrenM_rename (hproperty : f' r.property = pure r.property)
    (h : ∀ c ∈ n.children, f' (c.rename r) = rename r <$> f c) :
    (n.rename r).mapChildrenM f' = rename r <$> n.mapChildrenM f := by
  have hfields : ∀ field ∈ n.fields, Field.mapNodesM f' (r.field n field) =
      r.field n <$> Field.mapNodesM f field := fun field hfield =>
    mapNodesM_rename fun c hc => h c (List.mem_flatMap.mpr ⟨field, hfield, hc⟩)
  rw [mapChildrenM_eq, mapChildrenM_eq, kind_rename, mark_rename, fields_rename]
  simp only [map_bind, map_pure, rename_mk]
  split
  · rw [mapM_importAs hproperty hfields]
    simp
  · rw [mapM_map_of_mem hfields]
    simp

end

theorem replaceM_rename {selected selected' : Node → Bool} {replacement replacement' : Node → m Node}
    (hselected : ∀ c, selected' (c.rename r) = selected c) (hproperty : selected' r.property = false)
    (h : ∀ c ∈ n.preorder, selected c = true →
      replacement' (c.rename r) = rename r <$> replacement c) :
    (n.rename r).replaceM selected' replacement' = rename r <$> n.replaceM selected replacement := by
  have hkeep : r.property.replaceM selected' replacement' = pure r.property := by
    apply replaceM_of_none
    simpa [preorder_eq, Renaming.property, children, fields] using hproperty
  induction n using inductionOnChildren with
  | h n ih =>
    rw [preorder_eq, List.forall_mem_cons] at h
    rw [replaceM_eq, replaceM_eq, hselected]
    split
    · next hs => exact h.1 hs
    · refine mapChildrenM_rename hkeep fun c hc => ih c hc fun d hd => h.2 d ?_
      exact List.mem_flatMap.mpr ⟨c, hc, hd⟩

end Node

namespace Renaming

theorem Suits.isImportOf_rename (h : r.Suits n) (module : String) :
    (n.rename r).IsImportOf module ↔ n.IsImportOf module := by
  rw [Node.isImportOf_iff, Node.isImportOf_iff, Node.kind_rename]
  refine and_congr_right fun hk => ?_
  rw [Attribute.holds, Attribute.holds, Node.target?_moduleSpecifier, Node.target?_moduleSpecifier,
    Node.moduleField?, Node.moduleField?, Node.child?_rename n (by decide)]
  cases hc : n.child? .moduleSpecifier with
  | none => rfl
  | some c =>
    rw [Option.map_some, Option.bind_some, Option.bind_some, Node.field?_rename c (by decide)]
    cases c.field? .text with
    | none => rfl
    | some f =>
      cases f with
      | text s => rw [Option.map_some, field, text_of_touches (h.module hk c hc)]
      | node | list | flag | absent => rfl

theorem AllSuits.tagImports_rename {tree : Node} (h : r.AllSuits tree) (module : String) :
    tagImports (tree.rename r) module = (tagImports tree module).map (List.map (Node.rename r)) := by
  have hsuits : ∀ e ∈ tree.entriesUnder [], r.Suits e.node := fun e he =>
    h e.node (tree.map_node_entriesUnder [] ▸ List.mem_map_of_mem he)
  have hselect : (Selector.ofModule module).select (tree.rename r) =
      ((Selector.ofModule module).select tree).map (Node.rename r) := by
    have hfilter := Node.filter_entriesUnder_rename
      (fun e => (Selector.ofModule module).matches e.node e.ancestors)
      (fun e => (Selector.ofModule module).matches e.node e.ancestors) tree []
      (fun e he => Bool.eq_iff_iff.mpr ((hsuits e he).isImportOf_rename module)) fun _ => rfl
    rw [Selector.select, Selector.select, List.map_map]
    exact (congrArg (List.map Node.Entry.node) hfilter).trans (List.map_map ..)
  rw [tagImports, query, tagImports, query, Selector.parse_ofModule]
  exact congrArg Except.ok hselect

namespace Agrees

theorem isUseSite_rename (h : r.Agrees p) (imports : List Node) (n : Node) :
    (p.rename r).model.isUseSite (imports.map (Node.rename r)) (n.rename r) =
      p.model.isUseSite imports n := by
  unfold Model.isUseSite
  rw [Node.kind_rename, Node.child?_rename n (by decide)]
  congr 1
  cases n.child? .tag with
  | none => rfl
  | some tag =>
    simp only [Option.map_some, Option.bind_some, h.resolve?_rename]
    cases hs : p.model.resolve? tag with
    | none => rfl
    | some s =>
      have hwithin : ∀ d ∈ p.model.declarations s,
          ((imports.map (Node.rename r)).any ((p.rename r).model.isWithin (d.rename r))) =
            imports.any (p.model.isWithin d) := by
        intro d hd
        rw [List.any_map]
        congr 1
        funext statement
        exact p.isWithin_rename (h.id?_ne_of_holds (h.holds_of_mem_declarations hd)) statement
      rw [Option.map_some, Option.any_some, Option.any_some,
        h.declarations_symbol (h.knows_of_resolve? hs), List.any_map, Bool.eq_iff_iff,
        List.any_eq_true, List.any_eq_true]
      exact exists_congr fun d => and_congr_right fun hd => by rw [Function.comp_apply, hwithin d hd]

end Agrees

end Renaming

theorem Pass.ext_outcome {α : Type} {x y : Pass α} (h : ∀ s, outcome x s = outcome y s) : x = y :=
  funext h

theorem Pass.outcome_map {α β : Type} (f : α → β) (x : Pass α) (s : Progress) :
    outcome (f <$> x) s = Prod.map (Except.map f) id (outcome x s) := by
  rw [← bind_pure_comp, outcome_bind]
  rcases outcome x s with ⟨_ | a, t⟩ <;> rfl

def Program.pass (p : Program) (o : Options) (file : SourceFile) (imports : List Node) : FilePass :=
  ⟨⟨p.model, o⟩, file, imports⟩

def Program.renamedPass (r : Renaming) (p : Program) (o : Options) (file : SourceFile)
    (imports : List Node) : FilePass :=
  (p.rename r).pass o (file.rename r) (imports.map (Node.rename r))

section

variable {o : Options} {file : SourceFile} {imports : List Node}

theorem Program.assemble_rename (tree : Node) :
    (p.renamedPass r o file imports).assemble (tree.rename r) =
      ((p.pass o file imports).assemble tree).rename r := by
  change FilePass.assemble ⟨⟨_, o⟩, _, _⟩ _ = (FilePass.assemble ⟨⟨_, o⟩, _, _⟩ _).rename r
  unfold FilePass.assemble FilePass.options
  cases o.moduleFormat with
  | esModule =>
    simp [Node.arrowFunction, Node.parameter, Node.identifier, Node.rename_plain,
      Field.rename]
  | commonJs =>
    simp [Node.arrowFunction, Node.parameter, Node.identifier, Node.block,
      Node.constStatement, Node.returnStatement, Node.call, Node.stringLiteral, Field.ofOption,
      Node.rename_plain, Field.rename]

theorem Program.templated_of_holds (hp : p.IsRead) (hn : p.Holds n) : n.Templated := by
  obtain ⟨file, hfile, hn⟩ := hn
  have hconforms : file.tree.Conforms := fun m hm => (hp.shaped file hfile m hm).fields
  exact hconforms.templated.of_mem_preorder hn

def Program.HoldsTemplates (p : Program) (n : Node) : Prop :=
  ∀ m ∈ n.preorder, m.kind = .taggedTemplateExpression → p.Holds m

namespace Renaming.Agrees

theorem expandSite_rename (h : r.Agrees p) {site : Node} (hsite : p.Holds site)
    (hk : site.kind = .taggedTemplateExpression) :
    (p.renamedPass r o file imports).expandSite (site.rename r) =
      Node.rename r <$> (p.pass o file imports).expandSite site := by
  obtain ⟨template, ht⟩ := Option.isSome_iff_exists.mp
    (p.templated_of_holds h.read hsite site site.self_mem_preorder hk)
  have ht' : (site.rename r).child? .template = some (template.rename r) := by
    rw [Node.child?_rename site (by decide), ht, Option.map_some]
  refine Pass.ext_outcome fun s => ?_
  have hexpand :
      (p.renamedPass r o file imports).compilation.expandTemplate (template.rename r) s.ids =
      Prod.map (Except.map (Expansion.rename r)) id
        ((p.pass o file imports).compilation.expandTemplate template s.ids) :=
    h.expandTemplate_rename o (hsite.child ht)
      ((h.suits_of_holds hsite).template hk template ht) s.ids
  rw [Pass.outcome_map, FilePass.outcome_expandSite s ht, FilePass.outcome_expandSite s ht', hexpand]
  rcases (p.pass o file imports).compilation.expandTemplate template s.ids with ⟨_ | e, ids⟩
  · simp only [Prod.map, Except.map, FilePass.outcome_conclude_error, Node.span_rename]
    rfl
  · simp only [Prod.map, Except.map, FilePass.outcome_conclude_ok, Node.span_rename]
    have htree : ((p.renamedPass r o file imports).assemble (e.tree.rename r)).withSpan site.span =
        (((p.pass o file imports).assemble e.tree).withSpan site.span).rename r := by
      rw [p.assemble_rename, Node.withSpan_rename]
    exact congrArg (fun tree => (Except.ok tree, _)) htree

theorem holdsTemplates_expandSite (h : r.Agrees p) {site tree : Node} {s s' : Progress}
    (hsite : p.Holds site) (hk : site.kind = .taggedTemplateExpression)
    (hs : Pass.Yields ((p.pass o file imports).expandSite site) s tree s') :
    p.HoldsTemplates tree := by
  classical
  obtain ⟨template, ht⟩ := Option.isSome_iff_exists.mp
    (p.templated_of_holds h.read hsite site site.self_mem_preorder hk)
  let foreign : Node → Bool := fun m => m.kind = .taggedTemplateExpression ∧ ¬p.Holds m
  have hle := FilePass.expandSite_countP_le (q := foreign) (fun m hm => (of_decide_eq_true hm).1)
    ht hs
  have hzero : (site.children.flatMap Node.preorder).countP foreign = 0 := by
    refine List.countP_eq_zero.mpr fun m hm => ?_
    obtain ⟨c, hc, hm⟩ := List.mem_flatMap.mp hm
    have hheld := (hsite.of_mem_children hc).of_mem_preorder hm
    simp [foreign, hheld]
  intro m hm hkm
  by_contra hno
  have hnone := List.countP_eq_zero.mp (Nat.le_zero.mp (hzero ▸ hle)) m hm
  exact hnone (decide_eq_true ⟨hkm, hno⟩)

theorem expandWithin_rename (h : r.Agrees p) (depth : Nat) (hn : p.HoldsTemplates n) :
    (p.renamedPass r o file imports).expandWithin depth (n.rename r) =
      Node.rename r <$> (p.pass o file imports).expandWithin depth n := by
  induction depth generalizing n with
  | zero => exact (map_pure _ _).symm
  | succ depth ih =>
    have hproperty :
        (p.rename r).model.isUseSite (imports.map (Node.rename r)) r.property = false := by
      simp [Model.isUseSite, Renaming.property, Node.kind]
    refine Node.replaceM_rename (h.isUseSite_rename imports) hproperty fun site hsite hs => ?_
    have hk := FilePass.kind_of_isUseSite (p := p.pass o file imports) hs
    have hheld := hn site hsite hk
    rw [h.expandSite_rename hheld hk, bind_map_left, map_bind]
    exact Pass.bind_congr_of_yields fun s tree s' hyields =>
      ih (h.holdsTemplates_expandSite hheld hk hyields)

theorem expandAll_rename (h : r.Agrees p) (hn : p.HoldsTemplates n) :
    (p.renamedPass r o file imports).expandAll (n.rename r) =
      Node.rename r <$> (p.pass o file imports).expandAll n := by
  have hbound : FilePass.nestingBound (n.rename r) = FilePass.nestingBound n := by
    have hfilter := Node.filter_preorder_rename (r := r)
      (fun m => m.kind = .taggedTemplateExpression)
      (fun m => m.kind = .taggedTemplateExpression) n
      (fun m _ => by rw [Node.kind_rename]) rfl
    rw [FilePass.nestingBound, FilePass.nestingBound, List.countP_eq_length_filter,
      List.countP_eq_length_filter, hfilter, List.length_map]
  rw [FilePass.expandAll, FilePass.expandAll, hbound]
  exact h.expandWithin_rename _ hn

theorem namespaceDeclaration?_rename (h : r.Agrees p) (hold : o.factoryNamespace ≠ r.old)
    (hnew : o.factoryNamespace ≠ r.new) :
    (p.renamedPass r o file imports).namespaceDeclaration? =
      (p.pass o file imports).namespaceDeclaration?.map (Node.rename r) := by
  have hbinding : (p.rename r).model.moduleBinding? file.name o.factoryNamespace =
      (p.model.moduleBinding? file.name o.factoryNamespace).map r.symbol :=
    h.moduleBinding?_rename fun _ _ _ => ⟨hold, hnew⟩
  change ((p.rename r).model.moduleBinding? file.name o.factoryNamespace).bind
      (fun s => ((p.rename r).model.declarations s).head?) =
    ((p.model.moduleBinding? file.name o.factoryNamespace).bind
      fun s => (p.model.declarations s).head?).map (Node.rename r)
  rw [hbinding]
  cases hs : p.model.moduleBinding? file.name o.factoryNamespace with
  | none => rfl
  | some s =>
    have hknows : r.Knows s := by
      obtain ⟨owner, rfl⟩ := Model.exists_named_of_moduleBinding? hs
      exact nofun
    rw [Option.map_some, Option.bind_some, Option.bind_some, h.declarations_symbol hknows,
      List.head?_map]

theorem withFactoryImport_rename (h : r.Agrees p) (hold : o.factoryNamespace ≠ r.old)
    (hnew : o.factoryNamespace ≠ r.new) (tree : Node) :
    (p.renamedPass r o file imports).withFactoryImport (tree.rename r) =
      Node.rename r <$> (p.pass o file imports).withFactoryImport tree := by
  have hdeclaration : (p.renamedPass r o file imports).namespaceDeclaration? =
      (p.pass o file imports).namespaceDeclaration?.map (Node.rename r) :=
    h.namespaceDeclaration?_rename hold hnew
  unfold FilePass.withFactoryImport
  rw [map_bind]
  refine bind_congr fun s => ?_
  change (if s.expansions = 0 || !o.insertFactoryImport || o.moduleFormat ≠ .esModule then _ else _) =
    _ <$> (if s.expansions = 0 || !o.insertFactoryImport || o.moduleFormat ≠ .esModule then _ else _)
  split
  · rw [map_pure]
  · rw [hdeclaration]
    cases hd : (p.pass o file imports).namespaceDeclaration? with
    | none =>
      have himport : (Node.defaultImport o.factoryNamespace o.factoryModule).rename r =
          Node.defaultImport o.factoryNamespace o.factoryModule := by
        simp [Node.defaultImport, Node.identifier, Node.stringLiteral, Node.rename_plain,
          Field.rename]
      rw [Option.map_none]
      dsimp only
      rw [map_pure, Node.withField_rename tree rfl, List.map_cons, Node.list_rename tree (by decide)]
      exact congrArg (fun statement => pure ((tree.rename r).withField .statements
        (.list (statement :: _)))) himport.symm
    | some declaration =>
      obtain ⟨symbol, -, hhead⟩ := Option.bind_eq_some_iff.mp hd
      have hheld := h.holds_of_mem_declarations (List.mem_of_mem_head? hhead)
      have hfactories : (p.renamedPass r o file imports).compilation.importsFactories
          (declaration.rename r) = (p.pass o file imports).compilation.importsFactories declaration :=
        h.importsFactories_rename o hheld
      rw [Option.map_some]
      dsimp only
      rw [hfactories, Node.span_rename]
      split
      · rw [map_pure]
      · rw [map_bind]
        rfl

end Renaming.Agrees

end

def ExpandedFile.rename (r : Renaming) (f : ExpandedFile) : ExpandedFile :=
  { f with tree := f.tree.rename r }

def FilePass.run (p : FilePass) : Pass Node := do
  p.withFactoryImport (← p.expandAll p.file.tree)

def ExpandedFile.ofOutcome :
    Except ExpansionError Node × Progress → Except ExpansionError ExpandedFile × IdSupply
  | (.ok tree, s) => (.ok ⟨tree, s.diagnostics, s.expansions⟩, s.ids)
  | (.error e, s) => (.error e, s.ids)

theorem ExpandedFile.ofOutcome_rename (x : Except ExpansionError Node × Progress) :
    ofOutcome (Prod.map (Except.map (Node.rename r)) id x) =
      Prod.map (Except.map (rename r)) id (ofOutcome x) := by
  obtain ⟨_ | tree, s⟩ := x <;> rfl

theorem Compilation.expandFile_eq_ofOutcome (c : Compilation) {file : SourceFile} {first : Node}
    {rest : List Node} (h : tagImports file.tree c.options.moduleSpecifier = .ok (first :: rest))
    (ids : IdSupply) : c.expandFile file ids =
      ExpandedFile.ofOutcome (Pass.outcome (FilePass.run ⟨c, file, first :: rest⟩) { ids }) := by
  unfold expandFile
  rw [h]
  rfl

namespace Renaming.Agrees

variable {o : Options} {file : SourceFile}

theorem run_rename (h : r.Agrees p) (hfile : file ∈ p.files) (hold : o.factoryNamespace ≠ r.old)
    (hnew : o.factoryNamespace ≠ r.new) (imports : List Node) :
    (p.renamedPass r o file imports).run = Node.rename r <$> (p.pass o file imports).run := by
  have hheld : p.HoldsTemplates file.tree := fun m hm _ => ⟨file, hfile, hm⟩
  have hall : (p.renamedPass r o file imports).expandAll (file.tree.rename r) =
      Node.rename r <$> (p.pass o file imports).expandAll file.tree := h.expandAll_rename hheld
  unfold FilePass.run
  rw [map_bind]
  refine (congrArg (· >>= _) hall).trans ?_
  rw [bind_map_left]
  exact bind_congr fun tree => h.withFactoryImport_rename hold hnew tree

/-- A file expands to what it expanded to, under the other name. -/
theorem expandFile_rename (h : r.Agrees p) (hfile : file ∈ p.files)
    (hold : o.factoryNamespace ≠ r.old) (hnew : o.factoryNamespace ≠ r.new) (ids : IdSupply) :
    Compilation.expandFile ⟨(p.rename r).model, o⟩ (file.rename r) ids =
      Prod.map (Except.map (ExpandedFile.rename r)) id
        (Compilation.expandFile ⟨p.model, o⟩ file ids) := by
  have htags : tagImports (file.rename r).tree o.moduleSpecifier =
      (tagImports file.tree o.moduleSpecifier).map (List.map (Node.rename r)) :=
    (h.fits file hfile).suits.tagImports_rename o.moduleSpecifier
  obtain ⟨imports, hfound⟩ := Node.exists_tagImports file.tree o.moduleSpecifier
  rw [hfound, Except.map] at htags
  cases imports with
  | nil =>
    unfold Compilation.expandFile
    dsimp only
    rw [hfound, htags]
    rfl
  | cons first rest =>
    rw [List.map_cons] at htags
    have hexpand : Compilation.expandFile ⟨p.model, o⟩ file ids = ExpandedFile.ofOutcome
        (Pass.outcome (p.pass o file (first :: rest)).run { ids }) :=
      Compilation.expandFile_eq_ofOutcome ⟨p.model, o⟩ hfound ids
    have hexpand' : Compilation.expandFile ⟨(p.rename r).model, o⟩ (file.rename r) ids =
        ExpandedFile.ofOutcome (Pass.outcome
          (p.renamedPass r o file (first :: rest)).run { ids }) :=
      Compilation.expandFile_eq_ofOutcome ⟨(p.rename r).model, o⟩ htags ids
    rw [hexpand, hexpand', h.run_rename hfile hold hnew, Pass.outcome_map,
      ExpandedFile.ofOutcome_rename]

end Renaming.Agrees

end Quasiquote
