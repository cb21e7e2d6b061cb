import Quasiquote.Proofs.Rebinding

namespace Quasiquote

namespace Descent

variable {name : String} {path outer : List Descent} {symbol : Option Symbol}

theorem Innermost.of_clear (h : Clear name outer path) (ho : Innermost name outer symbol) :
    Innermost name (path ++ outer) symbol := by
  induction path with
  | nil => exact ho
  | cons d path ih => exact .outward h.1.2 (ih h.2)

theorem Clear.isReference (h : Clear name outer path) : ∀ d ∈ path, d.isReference = true := by
  induction path with
  | nil => simp
  | cons d path ih => exact List.forall_mem_cons.mpr ⟨h.1.1, ih h.2⟩

/-- A way to a reference is clear if the name can only be that of a node which is not left on it. -/
theorem clear_of_innermost {k : Nat} (href : ∀ d ∈ path, d.isReference = true)
    (hkey : ∀ d ∈ path, d.node.key ≠ k)
    (h : ∀ s, Innermost name (path ++ outer) (some s) → s = .named k name) :
    Clear name outer path := by
  induction path with
  | nil => trivial
  | cons d path ih =>
    have hdeclares : ¬d.Declares name (path ++ outer) := by
      intro hd
      have hsymbol := h _ (.declared hd)
      exact hkey d List.mem_cons_self (Symbol.named.inj hsymbol).1
    refine ⟨⟨href d List.mem_cons_self, hdeclares⟩, ih (fun d hd => ?_) (fun d hd => ?_) ?_⟩
    · exact href d (List.mem_cons_of_mem _ hd)
    · exact hkey d (List.mem_cons_of_mem _ hd)
    · exact fun s hs => h s (.outward hdeclares hs)

end Descent

namespace FilePass

variable {p : FilePass} {program : Program} {name : String}

structure Within (p : FilePass) (program : Program) : Prop where
  read : program.IsRead
  model : p.compilation.model = program.model
  file : p.file ∈ program.files

def SeesModule (p : FilePass) (name : String) : Prop :=
  ∀ path site symbol, p.file.tree.Leads path site → p.isUseSite site = true →
    Descent.Innermost name path (some symbol) → symbol = .named p.file.tree.key name

namespace Within

variable (h : p.Within program)

include h

theorem reference_of_isUseSite {path : List Descent} {x : Node} (hp : p.file.tree.Leads path x)
    (hs : p.isUseSite x = true) : ∀ d ∈ path, d.isReference = true := by
  simp only [isUseSite, Model.isUseSite, Bool.and_eq_true, Option.any_eq_true] at hs
  obtain ⟨-, symbol, hsymbol, -⟩ := hs
  obtain ⟨t, ht, hresolve⟩ := Option.bind_eq_some_iff.mp hsymbol
  have hpt := hp.down (Node.mem_nodesAt_of_child? ht)
  rw [h.model] at hresolve
  intro d hd
  exact h.read.reference_of_tag h.file hpt (by simp [hresolve]) d (List.mem_cons_of_mem _ hd)

theorem guarded_statement (hlocal : p.SeesModule name) {s : Node}
    (hs : s ∈ p.file.tree.list .statements) :
    s.Guarded (p.Target name) name [⟨p.file.tree, .statements⟩] := by
  intro path x hp hx
  have hroot := Node.mem_nodesAt_of_mem_list hs
  have hpx := hp.up hroot
  have hsite : p.isUseSite x = true := by
    refine hx.resolve_right fun ⟨_, o, ho, hid, _⟩ => ?_
    have hsome := h.read.ids _ h.file o (hpx.down (Node.mem_nodesAt_of_child? ho)).mem_preorder
    simp [hid] at hsome
  refine Descent.clear_of_innermost (fun d hd => ?_) (fun d hd hkey => ?_) fun symbol =>
    hlocal _ x symbol hpx hsite
  · exact h.reference_of_isUseSite hpx hsite d (List.mem_append_left _ hd)
  · obtain ⟨path', hd⟩ := hp.exists_of_mem hd
    have hnil := ((hd.up hroot).unique (h.read.countKey_le_one h.file _) .here hkey rfl).1
    simp at hnil

/-- No use site stands in an import. -/
theorem isUseSite_of_import {s : Node} (hs : s ∈ p.file.tree.preorder)
    (hk : s.kind = .importDeclaration) : ∀ x ∈ s.preorder, p.isUseSite x = false := by
  intro x hx
  refine Bool.eq_false_iff.mpr fun hsite => ?_
  have hshaped := h.read.shaped _ h.file
  obtain ⟨way, hway⟩ := Node.exists_leads_of_mem_preorder hshaped hs
  obtain ⟨path, hp⟩ := Node.exists_leads_of_mem_preorder (hshaped.of_mem_preorder hs) hx
  have href := h.reference_of_isUseSite (hway.trans hp) hsite
  obtain ⟨rfl, rfl⟩ | ⟨l', c, path, hc, hpc, rfl⟩ := hp.cases_first
  · have hkind := kind_of_isUseSite hsite
    simp [hk] at hkind
  · have hs := href ⟨s, l'⟩ (by simp)
    simp [Descent.isReference, Kind.refersIn, hk] at hs

/-- What stands for the namespace at the top level of the file. -/
theorem namespaceDeclaration?_eq (hlast : program.model.lastFile? p.file.name = some p.file) :
    p.namespaceDeclaration? = (p.file.moduleScope.bindings.find? fun b =>
      b.name = p.options.factoryNamespace).map Binding.declaration := by
  have hscope := Program.scope?_key h.file (h.read.unique p.file.tree.key)
  rw [← Program.head?_declarations hscope]
  have hbinding : program.model.moduleBinding? p.file.name p.options.factoryNamespace =
      p.file.moduleScope.symbol? p.options.factoryNamespace := by
    simp [Model.moduleBinding?, hlast, hscope]
  rw [namespaceDeclaration?, h.model, hbinding, Scope.symbol?]
  split
  · rfl
  · next hdeclares =>
    have hnone : p.file.moduleScope.bindings.find?
        (fun b => b.name = p.options.factoryNamespace) = none := by
      simpa [Scope.declares] using hdeclares
    rw [Program.head?_declarations hscope, hnone]
    rfl

/-- A run over the file goes through its statements. -/
theorem keeps_expandAll {tree : Node} {s s' : Progress}
    (hmodule : p.options.moduleFormat = .esModule) (hp : p.options.parameterName ≠ name)
    (hy : Pass.Yields (p.expandAll p.file.tree) s tree s') :
    p.file.tree.Keeps (p.Remakes name) tree ∧ tree.mark = p.file.tree.mark := by
  have htemplated : p.file.tree.Templated :=
    Node.Conforms.templated fun m hm => (h.read.shaped _ h.file m hm).fields
  have hsite : p.isUseSite p.file.tree = false := by
    refine Bool.eq_false_iff.mpr fun hs => ?_
    simpa [h.read.kind _ h.file] using kind_of_isUseSite hs
  rw [expandAll_eq htemplated, hsite, if_neg (by simp)] at hy
  exact Node.keeps_of_mapChildrenM (fun c hc _ _ _ hc' =>
    remakes_expandAll hmodule hp (htemplated.of_mem_children hc) hc') hy

end Within

/-- A run that warns of nothing imports the factories, or the file does. -/
theorem withFactoryImport_cases {tree tree' : Node} {s s' : Progress}
    (hmodule : p.options.moduleFormat = .esModule) (himport : p.options.insertFactoryImport = true)
    (hexpansions : s'.expansions ≠ 0) (hwarnings : ∀ d ∈ s'.diagnostics, d.kind ≠ .shadowedNamespace)
    (h : Pass.Yields (p.withFactoryImport tree) s tree' s') :
    (p.namespaceDeclaration? = none ∧ tree' = tree.withField .statements
      (.list (.defaultImport p.options.factoryNamespace p.options.factoryModule ::
        tree.list .statements))) ∨
    ∃ d, p.namespaceDeclaration? = some d ∧ p.compilation.importsFactories d = true ∧
      tree' = tree := by
  have hexpansions : s.expansions ≠ 0 := (withFactoryImport_yields h).1 ▸ hexpansions
  simp only [withFactoryImport, Pass.Yields, Pass.outcome_bind, Pass.outcome_get] at h
  rw [if_neg (by simp [hexpansions, himport, hmodule])] at h
  split at h
  · next hnone =>
    obtain ⟨rfl, rfl⟩ := Pass.yields_pure_iff.mp h
    exact .inl ⟨hnone, rfl⟩
  · next d hd =>
    split at h
    · next hfactories =>
      obtain ⟨rfl, rfl⟩ := Pass.yields_pure_iff.mp h
      exact .inr ⟨d, hd, hfactories, rfl⟩
    · obtain ⟨_, t, hwarn, h⟩ := Pass.yields_bind_iff.mp h
      obtain ⟨rfl, rfl⟩ := Pass.yields_pure_iff.mp h
      simp only [Pass.Yields, Pass.outcome_modify, Prod.mk.injEq] at hwarn
      obtain ⟨-, rfl⟩ := hwarn
      exact absurd rfl (hwarnings _ (List.mem_append_right _ (List.mem_singleton_self _)))

end FilePass

theorem Binding.names_iff_isSome_find? {bs : List Binding} {name : String} :
    Names bs name ↔ (bs.find? fun b => b.name = name).isSome = true := by
  simp [Names]

/-- An import of a whole module stays the first declaration of its name, if imports stay and the other
statements declare what they did. -/
theorem Binding.find?_hoistedInFunction {ss ss' : List Node} {b : Binding} {name : String}
    (h : List.Forall₂ (fun s s' => s.AllShaped ∧ (s.kind = .importDeclaration → s' = s) ∧
      (s'.Introduces name ∨ s'.HoistsVar name → s.Introduces name ∨ s.HoistsVar name)) ss ss')
    (hb : (hoistedInFunction ss).find? (fun b => b.name = name) = some b) (hwhole : b.IsWhole) :
    (hoistedInFunction ss').find? (fun b => b.name = name) = some b ∧
      ∃ s ∈ ss, s ∈ ss' ∧ s.kind = .importDeclaration ∧ b ∈ ofStatement s ++ ofVars s := by
  induction h with
  | nil => simp [hoistedInFunction] at hb
  | @cons s s' ss ss' hs hss ih =>
    obtain ⟨hshaped, himport, hdeclares⟩ := hs
    simp only [hoistedInFunction, List.flatMap_cons] at hb ⊢ ih
    rw [List.find?_append] at hb ⊢
    by_cases hnames : Names (ofStatement s ++ ofVars s) name
    · obtain ⟨b', hb'⟩ := Option.isSome_iff_exists.mp (names_iff_isSome_find?.mp hnames)
      obtain rfl : b' = b := by simpa [hb'] using hb
      have hmem := List.mem_of_find?_eq_some hb'
      have hk := (leads_of_isWhole hshaped hmem hwhole).1
      obtain rfl := himport hk
      exact ⟨by simp [hb'], s', List.mem_cons_self, List.mem_cons_self, hk, hmem⟩
    · have hnames' : ¬Names (ofStatement s' ++ ofVars s') name := by
        rw [names_append_iff, names_ofStatement_iff, names_ofVars_iff] at hnames ⊢
        exact mt hdeclares hnames
      rw [names_iff_isSome_find?, Bool.not_eq_true, Option.isSome_eq_false_iff,
        Option.isNone_iff_eq_none] at hnames hnames'
      rw [hnames, Option.none_or] at hb
      rw [hnames', Option.none_or]
      obtain ⟨hfind, t, ht, ht', hk, hmem⟩ := ih hb
      exact ⟨hfind, t, List.mem_cons_of_mem _ ht, List.mem_cons_of_mem _ ht', hk, hmem⟩

theorem Node.countKey_le_of_forall₂ {k : Nat} {ns ms : List Node}
    (h : List.Forall₂ (fun n m => countKey k [m] ≤ countKey k [n]) ns ms) :
    countKey k ms ≤ countKey k ns := by
  rw [countKey_eq_sum, countKey_eq_sum]
  induction h with
  | nil => exact Nat.le_refl _
  | cons h _ ih => exact Nat.add_le_add h ih

theorem forall₂_comp {α β γ : Type} {R : α → β → Prop} {S : β → γ → Prop} {xs : List α}
    {ys : List β} {zs : List γ} (h : List.Forall₂ R xs ys) (h' : List.Forall₂ S ys zs) :
    List.Forall₂ (Relation.Comp R S) xs zs := by
  induction h generalizing zs with
  | nil =>
    cases h'
    exact .nil
  | cons h _ ih =>
    cases h' with
    | cons h' hs => exact .cons ⟨_, h, h'⟩ (ih hs)

theorem Program.files_eq_of_mem {file rebound : SourceFile}
    (h : rebound ∈ (ofFiles [file]).files) : (ofFiles [file]).files = [rebound] := by
  obtain rfl := List.mem_singleton.mp h
  rfl

namespace FilePass.Within

variable {p : FilePass} {program : Program} {name : String} {tree : Node} {rebound : SourceFile}
  (h : p.Within program) (hkeeps : p.file.tree.Keeps (p.Remakes name) tree)

section

variable (hmark : tree.mark = p.file.tree.mark)
  (hr : rebound ∈ (Program.ofFiles [p.file.withTree tree]).files)

include h

theorem eq_of_import {s s' : Node} {l : Label} {bound : Nat} (hs : s ∈ p.file.tree.nodesAt l)
    (hk : s.kind = .importDeclaration)
    (hss : Relation.Comp (p.Remakes name) (Node.Numbers bound) s s') : s' = s := by
  obtain ⟨t, hst, hts⟩ := hss
  have hs := Node.mem_preorder_of_mem_children (Node.mem_children_of_mem_nodesAt hs)
  obtain rfl := hst.same (h.isUseSite_of_import hs hk)
  exact hts.eq_of_isSome fun x hx =>
    h.read.ids _ h.file x ((Node.preorder_sublist_of_mem_preorder hs).subset hx)

include hkeeps hmark hr

/-- The identities of an import are no others in the new tree. -/
theorem countKey_rebound_le_one {s : Node} {l : Label} {k : Nat} (hs : s ∈ p.file.tree.nodesAt l)
    (hk : s.kind = .importDeclaration) (hone : 1 ≤ Node.countKey k [s])
    (hlt : k < Program.startOf tree) : Node.countKey k [rebound.tree] ≤ 1 := by
  have hnumbers : tree.Numbers _ rebound.tree := Program.numbers_of_mem_ofFiles hr
  have hroot : rebound.tree.key = p.file.tree.key := by
    have hsome : tree.id?.isSome = true := by
      rw [Node.id?, hmark]
      exact h.read.ids _ h.file _ p.file.tree.self_mem_preorder
    rw [Node.key, Node.id?, hnumbers.mark_of_some hsome, hmark]
    rfl
  refine Nat.le_trans ?_ (h.read.countKey_le_one h.file k)
  rw [Node.countKey_singleton, Node.countKey_singleton, hroot]
  refine Nat.add_le_add_left (Node.countKey_le_of_forall₂ ?_) _
  refine forall₂_imp_of_mem (forall₂_comp hkeeps.forall₂_children
    (Node.isSimulation_numbers _ _ _ hnumbers).forall₂_children) fun t ht t' htt => ?_
  obtain ⟨l', ht⟩ := Node.exists_mem_nodesAt (h.read.shaped _ h.file).shaped.fields ht
  by_cases htk : t.kind = .importDeclaration
  · exact Nat.le_of_eq (by rw [h.eq_of_import ht htk htt])
  by_contra hcount
  obtain ⟨t₀, hremakes, hnumbered⟩ := htt
  obtain ⟨x, hx, hxk⟩ := List.countP_pos_iff.mp (show 0 < Node.countKey k [t'] by omega)
  have hxk : x.key = k := by simpa using hxk
  obtain ⟨y, hy, hid⟩ := hnumbered.exists_of_key_lt (by simpa using hx) (hxk ▸ hlt)
  obtain ⟨z, hz, hid⟩ := hremakes.holds _ ⟨y, hy, hid⟩
  have hpos : 1 ≤ Node.countKey k [t] := by
    refine List.countP_pos_iff.mpr ⟨z, by simpa using hz, ?_⟩
    simpa [Node.key, hid] using hxk
  obtain ⟨-, rfl⟩ := Node.eq_of_mem_nodesAt (h.read.countKey_le_one h.file k) hs ht hone hpos
  exact htk hk

/-- An import of a whole module that the file had is found again. -/
theorem find?_of_kept {b : Binding}
    (hb : p.file.moduleScope.bindings.find? (fun b => b.name = name) = some b)
    (hwhole : b.IsWhole) :
    rebound.moduleScope.bindings.find? (fun b => b.name = name) = some b ∧
      (Program.ofFiles [p.file.withTree tree]).model.importModule? b.declaration =
        program.model.importModule? b.declaration := by
  have hshaped := h.read.shaped _ h.file
  have hnumbers : tree.Numbers _ rebound.tree := Program.numbers_of_mem_ofFiles hr
  have hnumkeeps := Node.isSimulation_numbers _ _ _ hnumbers
  have hstatements := forall₂_comp (hkeeps.forall₂_list .statements)
    (hnumkeeps.forall₂_list .statements)
  obtain ⟨hfind, s, hs, hs', hk, hmem⟩ := Binding.find?_hoistedInFunction (forall₂_imp_of_mem
    hstatements fun s hs s' hss => by
      refine ⟨hshaped.of_mem_children (Node.mem_children_of_mem_list hs),
        fun hk => h.eq_of_import (Node.mem_nodesAt_of_mem_list hs) hk hss, fun hd => ?_⟩
      obtain ⟨t, hst, hts⟩ := hss
      have hnumbered := (Node.isSimulation_numbers _).mirrors hts
      have ht := hd.imp hnumbered.symm.introduces hnumbered.symm.hoistsVar
      exact ht.imp hst.mirrors.symm.introduces hst.mirrors.symm.hoistsVar) hb hwhole
  refine ⟨hfind, ?_⟩
  have hss := hshaped.of_mem_children (Node.mem_children_of_mem_list hs)
  obtain ⟨-, path, hpath, -⟩ := Binding.leads_of_isWhole hss hmem hwhole
  have hsat := Node.mem_nodesAt_of_mem_list hs
  have hid := h.read.ids _ h.file _ (hpath.up hsat).mem_preorder
  have hlt : b.declaration.key < Program.startOf tree := by
    obtain ⟨t, ht, hst⟩ := hkeeps.mem_list hs
    obtain rfl := hst.same (h.isUseSite_of_import (Node.mem_preorder_of_mem_children
      (Node.mem_children_of_mem_list hs)) hk)
    exact Program.key_lt_startOf (hpath.up (Node.mem_nodesAt_of_mem_list ht)).mem_preorder hid
  have hcount := h.countKey_rebound_le_one hkeeps hmark hr hsat hk (hpath.one_le_countKey rfl) hlt
  rw [Program.importModule?_eq h.file hss hs hmem hwhole hid (h.read.unique _),
    Program.importModule?_eq hr hss hs' hmem hwhole hid
      (by simpa [Program.files_eq_of_mem hr] using hcount)]

end

end FilePass.Within

/-- A read tree is its statements. -/
theorem Node.Shaped.eq_sourceFile {n : Node} (h : n.Shaped) (hk : n.kind = .sourceFile) :
    n = .mk .sourceFile n.mark [.list (n.list .statements)] := by
  obtain ⟨kind, mark, fields⟩ := n
  obtain rfl : kind = .sourceFile := hk
  have hfields := (checkFields_eq_ok_iff _ _).mp h.fields
  simp only [Node.kind, Node.fields, Kind.schema, List.forall₂_cons_left_iff,
    List.forall₂_nil_left_iff, Field.fits_list_iff] at hfields
  obtain ⟨_, _, ⟨ss, rfl⟩, rfl, rfl⟩ := hfields
  rfl

theorem Node.list_withField_statements {n : Node} (h : n.Shaped) (hk : n.kind = .sourceFile)
    (ss : List Node) : (n.withField .statements (.list ss)).list .statements = ss := by
  rw [h.eq_sourceFile hk]
  rfl

theorem Node.allShaped_withField_statements {n : Node} (h : n.AllShaped)
    (hk : n.kind = .sourceFile) {ss : List Node} (hss : ∀ s ∈ ss, s.AllShaped) :
    (n.withField .statements (.list ss)).AllShaped := by
  rw [h.shaped.eq_sourceFile hk]
  refine (allShaped_iff _).mpr ⟨⟨rfl, nofun⟩, fun c hc => hss c ?_⟩
  simpa [withField, Node.kind, Kind.fieldIndex?, Kind.schema, children, Node.fields] using hc

/-- What an import that was put in declares. -/
theorem Binding.exists_ofStatement_defaultImport (name module : String) (next : Nat) :
    ∃ b, ofStatement ((Node.defaultImport name module).number next).1 = [b] ∧ b.name = name ∧
      b.declaration.kind = .importClause ∧ b.declaration.id? = some (next + 1) :=
  ⟨_, rfl, rfl, rfl, rfl⟩

theorem Node.allShaped_defaultImport (name module : String) :
    (defaultImport name module).AllShaped := by
  have hclause : (plain .importClause [.node (identifier name), .absent]).AllShaped := by
    refine (allShaped_iff _).mpr ⟨⟨rfl, ?_⟩, ?_⟩
    · rintro _ _ ⟨⟩ c hc
      cases hc
    · simpa [plain, children, Node.fields] using allShaped_identifier name
  have hmodule : (stringLiteral module).AllShaped := allShaped_plain rfl rfl (by simp)
  refine (allShaped_iff _).mpr ⟨⟨rfl, ?_⟩, ?_⟩
  · rintro _ _ ⟨⟩
    exact List.forall_mem_singleton.mpr (List.mem_singleton_self _)
  · simpa [defaultImport, plain, children, Node.fields] using ⟨hclause, hmodule⟩

/-- An import that was put in is found. -/
theorem Program.find?_of_inserted {file rebound : SourceFile} {name module : String}
    {rest : List Node}
    (hstatements : file.tree.list .statements = .defaultImport name module :: rest)
    (hr : rebound ∈ (ofFiles [file]).files) :
    ∃ b, rebound.moduleScope.bindings.find? (fun b => b.name = name) = some b ∧ b.IsWhole ∧
      (ofFiles [file]).model.importModule? b.declaration = some module := by
  have hkeeps := Node.isSimulation_numbers _ _ _ (numbers_of_mem_ofFiles hr)
  have hlist := hkeeps.forall₂_list .statements
  rw [hstatements] at hlist
  obtain ⟨s, rest', hnumbers, -, hrebound⟩ := List.forall₂_cons_left_iff.mp hlist
  obtain ⟨next, hnext, rfl⟩ := hnumbers
  obtain ⟨b, hb, hname, hkind, hid⟩ := Binding.exists_ofStatement_defaultImport name module next
  have hmem : b ∈ Binding.ofStatement ((Node.defaultImport name module).number next).1 ++
      Binding.ofVars ((Node.defaultImport name module).number next).1 := by simp [hb]
  refine ⟨b, ?_, .inl hkind, ?_⟩
  · rw [SourceFile.moduleScope, hrebound]
    simp [Binding.hoistedInFunction, hb, hname]
  · have hcount : Node.countKey b.declaration.key [rebound.tree] ≤ 1 := by
      refine countKey_le_one_of_le hr (Nat.le_trans hnext ?_)
      rw [Node.key, hid]
      exact Nat.le_succ next
    rw [importModule?_eq hr ?_ (hrebound ▸ List.mem_cons_self) hmem (.inl hkind) (by simp [hid])
      (by simpa [files_eq_of_mem hr] using hcount)]
    · rfl
    · exact .of_bare (Node.bare_number _ next) (Node.allShaped_defaultImport name module)

/-- The top level of a file after a run: its statements, and the factories first among what is
declared under the name of their namespace. -/
structure FilePass.Imported (p : FilePass) (tree result : Node) (rebound : SourceFile) : Prop where
  shaped : result.AllShaped
  kind : result.kind = .sourceFile
  statements : ∀ s ∈ result.list .statements,
    s ∈ tree.list .statements ∨ ∃ name module, s = .defaultImport name module
  binding : ∃ b, rebound.moduleScope.bindings.find?
      (fun b => b.name = p.options.factoryNamespace) = some b ∧ b.IsWhole ∧
    (Program.ofFiles [p.file.withTree result]).model.importModule? b.declaration =
      some p.options.factoryModule

theorem FilePass.Within.imported {p : FilePass} {program : Program} {tree result : Node}
    {rebound : SourceFile} {s s' : Progress} (h : p.Within program)
    (hlast : program.model.lastFile? p.file.name = some p.file)
    (hmodule : p.options.moduleFormat = .esModule) (himport : p.options.insertFactoryImport = true)
    (hkeeps : p.file.tree.Keeps (p.Remakes p.options.factoryNamespace) tree)
    (hmark : tree.mark = p.file.tree.mark) (hexpansions : s'.expansions ≠ 0)
    (hwarnings : ∀ d ∈ s'.diagnostics, d.kind ≠ .shadowedNamespace)
    (hy : Pass.Yields (p.withFactoryImport tree) s result s')
    (hr : rebound ∈ (Program.ofFiles [p.file.withTree result]).files) :
    p.Imported tree result rebound := by
  have hts : tree.AllShaped := (remakes_keep hkeeps hmark).shaped (h.read.shaped _ h.file)
  have htk : tree.kind = .sourceFile := hkeeps.kind.symm.trans (h.read.kind _ h.file)
  have hcases := withFactoryImport_cases hmodule himport hexpansions hwarnings hy
  rw [h.namespaceDeclaration?_eq hlast] at hcases
  obtain ⟨-, rfl⟩ | ⟨d, hd, hfactories, rfl⟩ := hcases
  · have hlist := Node.list_withField_statements hts.shaped htk (.defaultImport
      p.options.factoryNamespace p.options.factoryModule :: tree.list .statements)
    obtain ⟨b, hb⟩ := Program.find?_of_inserted hlist hr
    refine ⟨?_, (kind_withField _ _ _).trans htk, ?_, b, hb⟩
    · refine Node.allShaped_withField_statements hts htk (List.forall_mem_cons.mpr
        ⟨Node.allShaped_defaultImport _ _, fun s hs => ?_⟩)
      exact hts.of_mem_children (Node.mem_children_of_mem_list hs)
    · rw [hlist]
      exact List.forall_mem_cons.mpr ⟨.inr ⟨_, _, rfl⟩, fun s hs => .inl hs⟩
  · obtain ⟨b, hb, rfl⟩ := Option.map_eq_some_iff.mp hd
    simp only [Compilation.importsFactories, Bool.and_eq_true, Bool.or_eq_true,
      decide_eq_true_eq] at hfactories
    obtain ⟨hwhole, hfactories⟩ := hfactories
    obtain ⟨hfind, hsame⟩ := h.find?_of_kept hkeeps hmark hr hb hwhole
    exact ⟨hts, htk, fun s hs => .inl hs, b, hfind, hwhole, hsame.trans (h.model ▸ hfactories)⟩

theorem Node.not_isWritten_defaultImport {name module member : String} {path : List Descent}
    {x : Node} (h : (defaultImport name module).Leads path x) : ¬x.IsWritten member := by
  intro hw
  have hx := h.mem_preorder
  have hclause : (plain .importClause [.node (identifier name), .absent]).children =
    [identifier name] := rfl
  have himport : (defaultImport name module).children =
    [plain .importClause [.node (identifier name), .absent], stringLiteral module] := rfl
  have hname : (identifier name).children = [] := rfl
  have hmodule : (stringLiteral module).children = [] := rfl
  simp only [preorder_eq, himport, hclause, hname, hmodule, List.flatMap_cons, List.flatMap_nil,
    List.append_nil, List.mem_cons, List.mem_append, List.not_mem_nil, or_false] at hx
  obtain rfl | (rfl | rfl) | rfl := hx <;> cases hw.1

namespace FilePass.Within

variable {p : FilePass} {program : Program} {name : String} {tree result : Node}
  {rebound : SourceFile}

/-- The way to the object of an access that was written is clear up to the module. -/
theorem clear_of_written (h : p.Within program) (hlocal : p.SeesModule name)
    (hkeeps : p.file.tree.Keeps (p.Remakes name) tree) (hi : p.Imported tree result rebound)
    (hr : rebound ∈ (Program.ofFiles [p.file.withTree result]).files) {a n : Node}
    {path : List Descent} (hp : rebound.tree.Leads (⟨a, .expression⟩ :: path) n)
    (ha : a.kind = .propertyAccessExpression) (hn : n.identifier? = some name)
    (hnew : ∀ m ∈ result.preorder, m.id? ≠ n.id?) :
    ∃ q, Descent.mk a .expression :: path = q ++ [⟨rebound.tree, .statements⟩] ∧
      Descent.Clear name [⟨rebound.tree, .statements⟩] q := by
  have hsim := Node.isSimulation_numbers (Program.startOf result)
  have hnumbers : result.Numbers (Program.startOf result) rebound.tree :=
    Program.numbers_of_mem_ofFiles hr
  have hrk : rebound.tree.kind = .sourceFile := (hsim _ _ hnumbers).kind.symm.trans hi.kind
  obtain ⟨hpa, hna⟩ : rebound.tree.Leads path a ∧ n ∈ a.nodesAt .expression := by
    cases hp with
    | down hpa hna => exact ⟨hpa, hna⟩
  obtain ⟨rfl, rfl⟩ | ⟨l, c', q', hc', hq', rfl⟩ := hpa.cases_first
  · simp [hrk] at ha
  obtain ⟨shape, hl⟩ := Node.label_mem_schema hc'
  obtain ⟨rfl, -⟩ : l = .statements ∧ shape = .list := by simpa [hrk, Kind.schema] using hl
  refine ⟨⟨a, .expression⟩ :: q', rfl, ?_⟩
  -- The same way in the tree before it was numbered.
  obtain ⟨c, hc, hcc⟩ := (hsim _ _ hnumbers).swap.mem_nodesAt hc'
  obtain ⟨q, b, hq, hba, hqq⟩ := hsim.leads hcc hq'
  obtain ⟨o, ho, hon⟩ := (hsim _ _ hba).swap.mem_nodesAt hna
  have hbr := (hq.up hc).mem_preorder
  have hbk : b.kind = .propertyAccessExpression := (hsim _ _ hba).kind.trans ha
  have hwritten : b.IsWritten name := by
    refine ⟨hbk, o, Node.child?_of_mem_nodesAt (hi.shaped b hbr).fields (.inl (by rw [hbk]; rfl)) ho,
      ?_, (hsim.mirrors hon).symm.identifier? hn⟩
    cases hid : o.id? with
    | none => rfl
    | some id =>
      have hmark := hon.mark_of_some (by simp [hid])
      exact absurd (congrArg Mark.id hmark).symm (hnew o ((hq.up hc).down ho).mem_preorder)
  have hclear : Descent.Clear name [⟨rebound.tree, .statements⟩] q := by
    have hcl := Node.mem_list_of_mem_nodesAt hi.shaped.shaped.fields (by rw [hi.kind]; rfl) hc
    obtain hcl | ⟨m, module, rfl⟩ := hi.statements c hcl
    · obtain ⟨s, hst, hsc⟩ := hkeeps.swap.mem_list hcl
      have hsc : p.Remakes name s c := hsc
      have hss := (h.read.shaped _ h.file).of_mem_children (Node.mem_children_of_mem_list hst)
      exact hsc.guarded hss _ _ (Descent.alike_of_label (by simp) (by simp))
        (h.guarded_statement hlocal hst) q b hq hwritten
    · exact absurd hwritten (Node.not_isWritten_defaultImport hq)
  refine ⟨⟨by simp [Descent.isReference, Kind.refersIn, ha], ?_⟩,
    hsim.clear hqq ⟨Iff.rfl, Iff.rfl⟩ hclear⟩
  exact Descent.not_declares_of_kind (by simp [ha]) (by rw [ha]; rfl) (by simp)

end FilePass.Within

/-- A new name is resolved to the module, if the way to it is clear and the module declares it. -/
theorem Program.resolve?_of_clear {file rebound : SourceFile} {q : List Descent} {n : Node}
    {name : String} (hs : file.tree.AllShaped) (hk : file.tree.kind = .sourceFile)
    (hr : rebound ∈ (ofFiles [file]).files)
    (hp : rebound.tree.Leads (q ++ [⟨rebound.tree, .statements⟩]) n)
    (hq : Descent.Clear name [⟨rebound.tree, .statements⟩] q) (hn : n.identifier? = some name)
    (hnew : ∀ m ∈ file.tree.preorder, m.id? ≠ n.id?)
    (hdeclares : Binding.Names rebound.moduleScope.bindings name) :
    (ofFiles [file]).model.resolve? n = some (.named rebound.tree.key name) := by
  have hnumbers := numbers_of_mem_ofFiles hr
  have hcount := countKey_le_one_of_le hr (hnumbers.le_key_of_new hp.mem_preorder hnew)
  have hfiles := files_eq_of_mem hr
  have hrk : rebound.tree.kind = .sourceFile :=
    (Node.isSimulation_numbers _ _ _ hnumbers).kind.symm.trans hk
  have hrs : rebound.tree.AllShaped := by
    obtain ⟨next, -, heq⟩ := hnumbers
    exact heq ▸ .of_bare (Node.bare_number file.tree next) hs
  have hid : n.id?.isSome = true := by
    obtain ⟨next, -, heq⟩ := hnumbers
    exact Node.isSome_id?_number file.tree next n (heq ▸ hp.mem_preorder)
  have hroot : Descent.Declares name ⟨rebound.tree, .statements⟩ [] := by
    obtain ⟨s, hst, h⟩ := Descent.names_hoistedInFunction_iff.mp hdeclares
    exact .module hrk hst h
  have href : ∀ d ∈ q ++ [Descent.mk rebound.tree .statements], d.isReference = true := by
    refine List.forall_mem_append.mpr ⟨hq.isReference, ?_⟩
    simp [Descent.isReference, Kind.refersIn, hrk]
  rw [resolve?_eq (by simpa [hfiles] using hrs) hr hp hid (by simpa [hfiles] using hcount)]
  exact (SourceFile.innermost_bindings hrk hrs hp href hn hcount).unique (.of_clear hq (.declared hroot))

def Node.declared (n : Node) : List Binding :=
  (if n.kind.isFunctionLike then Binding.ofOwnName n ++ Binding.ofParameters n else []) ++
    (Binding.hoistedInFunction (n.list .statements) ++
      Binding.hoistedInFunction ((n.child? .body).elim [] (list · .statements)))

theorem Descent.Declares.names {d : Descent} {outer : List Descent} {name : String}
    (h : d.Declares name outer) : Binding.Names d.node.declared name := by
  simp only [Node.declared, Binding.names_append_iff, names_hoistedInFunction_iff]
  cases h with
  | module _ hs h => exact .inr (.inl ⟨_, hs, h⟩)
  | ownName hk h =>
    have hf : Kind.functionExpression.isFunctionLike = true := rfl
    rw [if_pos (hk ▸ hf), Binding.names_append_iff, Binding.ofOwnName, if_neg (by simp [hk])]
    exact .inl (.inl (Binding.names_ofName_iff.mpr h))
  | parameter hk hp h =>
    rw [if_pos hk, Binding.names_append_iff]
    refine .inl (.inr (Binding.names_flatMap_iff.mpr ⟨_, hp, ?_⟩))
    exact Binding.names_ofName_iff.mpr h
  | body _ hb _ hs h => exact .inr (.inr ⟨_, by simpa [hb] using hs, h⟩)
  | block _ _ hs h => exact .inr (.inl ⟨_, hs, .inl h⟩)

/-- Where only the module declares a name, all use sites see the module's. -/
theorem FilePass.seesModule_of_declared {p : FilePass} {name : String}
    (h : ∀ x ∈ p.file.tree.preorder, Binding.Names x.declared name → x.key = p.file.tree.key) :
    p.SeesModule name := by
  intro path site symbol hp _ hsymbol
  obtain ⟨d, hd, ⟨outer, hdeclares⟩, rfl⟩ := hsymbol.exists_declares
  obtain ⟨path', hd⟩ := hp.exists_of_mem hd
  rw [h d.node hd.mem_preorder hdeclares.names]

theorem Program.lastFile?_of_toOption {file : SourceFile} {x : Except ParseError SourceFile}
    (h : file ∈ (ofFiles x.toOption.toList).files) :
    (ofFiles x.toOption.toList).model.lastFile? file.name = some file := by
  cases x with
  | error e => simp [Except.toOption, ofFiles, numberFiles] at h
  | ok f =>
    change (ofFiles [f]).model.lastFile? file.name = some file
    have hfiles : (ofFiles [f]).model.files = [file] := files_eq_of_mem h
    rw [Model.lastFile?, hfiles]
    simp

namespace Compilation

theorem isFactoryNamespace_of_binding {program : Program} {options : Options} {file : SourceFile}
    {n : Node} {b : Binding} {name : String}
    (hscope : program.model.scope? file.tree.key = some file.moduleScope)
    (hn : program.model.resolve? n = some (.named file.tree.key name))
    (hb : file.moduleScope.bindings.find? (fun b => b.name = name) = some b) (hwhole : b.IsWhole)
    (hmodule : program.model.importModule? b.declaration = some options.factoryModule) :
    isFactoryNamespace ⟨program.model, options⟩ n = true := by
  rw [isFactoryNamespace, hn, Option.bind_some, Program.head?_declarations hscope, hb]
  simp only [Option.map_some, Option.any_some, importsFactories, Bool.and_eq_true, Bool.or_eq_true,
    decide_eq_true_eq]
  exact ⟨hwhole, hmodule⟩

/-- Where a file was expanded without a warning about the namespace of the factories, every access to
one of its members that was written names the module of the factories, by an import at the top
level. -/
theorem expandFile_names_factories {files : List SourceFile} {file rebound : SourceFile}
    {options : Options} {ids ids' : IdSupply} {out : ExpandedFile} {access n : Node}
    {path : List Descent}
    (hfiles : ∀ f ∈ files, ∃ source, SourceFile.parse f.name source = .ok f)
    (hfile : file ∈ (Program.ofFiles files).files)
    (hlast : (Program.ofFiles files).model.lastFile? file.name = some file)
    (hmodule : options.moduleFormat = .esModule) (himport : options.insertFactoryImport = true)
    (hname : options.parameterName ≠ options.factoryNamespace)
    (hlocal : ∀ imports, tagImports file.tree options.moduleSpecifier = .ok imports →
      FilePass.SeesModule ⟨⟨(Program.ofFiles files).model, options⟩, file, imports⟩
        options.factoryNamespace)
    (hout : expandFile ⟨(Program.ofFiles files).model, options⟩ file ids = (.ok out, ids'))
    (hexpansions : 0 < out.expansions)
    (hwarnings : ∀ d ∈ out.diagnostics, d.kind ≠ .shadowedNamespace)
    (hrebound : rebound ∈ (Program.ofFiles [file.withTree out.tree]).files)
    (hpath : rebound.tree.Leads (⟨access, .expression⟩ :: path) n)
    (haccess : access.kind = .propertyAccessExpression)
    (hn : n.identifier? = some options.factoryNamespace)
    (hnew : ∀ m ∈ out.tree.preorder, m.id? ≠ n.id?) :
    (Program.ofFiles [file.withTree out.tree]).model.resolve? n =
        some (.named rebound.tree.key options.factoryNamespace) ∧
      isFactoryNamespace ⟨(Program.ofFiles [file.withTree out.tree]).model, options⟩ n = true := by
  obtain ⟨imports, himports, hexpands⟩ := expandFile_yields hout
  obtain ⟨-, rfl⟩ | ⟨tree, s, s', htree, himported, hdiagnostics, hcount⟩ := hexpands
  · simp at hexpansions
  let p : FilePass := ⟨⟨(Program.ofFiles files).model, options⟩, file, imports⟩
  have hp : p.Within (Program.ofFiles files) := ⟨Program.isRead_ofFiles hfiles, rfl, hfile⟩
  have hlocal : p.SeesModule options.factoryNamespace := hlocal imports himports
  obtain ⟨hkeeps, hmark⟩ := hp.keeps_expandAll hmodule hname htree
  have hi : p.Imported tree out.tree rebound := hp.imported hlast hmodule himport hkeeps hmark
    (by omega) (fun d hd => hwarnings d (hdiagnostics ▸ hd)) himported hrebound
  obtain ⟨b, hb, hwhole, hfactories⟩ := hi.binding
  obtain ⟨q, hq, hclear⟩ := hp.clear_of_written hlocal hkeeps hi hrebound hpath haccess hn hnew
  have hresolve := Program.resolve?_of_clear hi.shaped hi.kind hrebound (hq ▸ hpath) hclear hn hnew
    (Binding.names_iff_isSome_find?.mpr (Option.isSome_of_eq_some hb))
  refine ⟨hresolve, ?_⟩
  have hscope := Program.scope?_key_of_singleton (Program.files_eq_of_mem hrebound)
  exact isFactoryNamespace_of_binding hscope hresolve hb hwhole hfactories

/-- The file imports the namespace itself, and a use site stands in another: the accesses that both
write name the factories. -/
theorem expandFile_names_factories_nested :
    ∃ files, files = (SourceFile.parse "a.ts" ("import * as ts from \"typescript\"; " ++
      "import \x7b f \x7d from \"ts-transform-creator\"; " ++
      "function g(x) \x7b return f`$\x7bf`b`\x7d + 1`; \x7d")).toOption.toList ∧
    ∃ file ∈ (Program.ofFiles files).files, ∃ out ids', out.expansions = 2 ∧
      expandFile ⟨(Program.ofFiles files).model, {}⟩ file .sequential = (.ok out, ids') ∧
      ∃ rebound ∈ (Program.ofFiles [file.withTree out.tree]).files, ∃ access path n,
        rebound.tree.Leads (⟨access, .expression⟩ :: path) n ∧
        (∀ m ∈ out.tree.preorder, m.id? ≠ n.id?) ∧
        isFactoryNamespace ⟨(Program.ofFiles [file.withTree out.tree]).model, {}⟩ n = true := by
  obtain ⟨files, hfiles, hcheck⟩ : ∃ files, files = (SourceFile.parse "a.ts"
      ("import * as ts from \"typescript\"; " ++
      "import \x7b f \x7d from \"ts-transform-creator\"; " ++
      "function g(x) \x7b return f`$\x7bf`b`\x7d + 1`; \x7d")).toOption.toList ∧
      (Program.ofFiles files).files.any (fun file =>
        (file.tree.preorder.all fun x =>
          x.declared.all (fun b => b.name ≠ "ts") || x.key = file.tree.key) &&
        (expandFile ⟨(Program.ofFiles files).model, {}⟩ file .sequential).1.toOption.any fun out =>
          out.expansions = 2 && (out.diagnostics.isEmpty &&
            (Program.ofFiles [file.withTree out.tree]).files.any fun rebound =>
              (rebound.tree.descend? [(.statements, 2), (.body, 0), (.statements, 0),
                (.expression, 0), (.body, 0), (.arguments, 0), (.expression, 0), (.body, 0),
                (.expression, 0)]).any fun place =>
                place.2.kind = .propertyAccessExpression &&
                  (place.2.child? .expression).any fun n =>
                    n.identifier? = some "ts" && out.tree.preorder.all fun m => m.id? ≠ n.id?)) =
        true :=
    ⟨_, rfl, by decide +kernel⟩
  have hread : ∀ f ∈ files, ∃ source, SourceFile.parse f.name source = .ok f :=
    fun f hf => ⟨_, SourceFile.parse_of_mem_toList (hfiles ▸ hf)⟩
  obtain ⟨file, hfile, h⟩ := List.any_eq_true.mp hcheck
  obtain ⟨hdeclared, h⟩ := (Bool.and_eq_true _ _).mp h
  obtain ⟨out, ids', hout, h⟩ := exists_ok_fst_of_any h
  obtain ⟨htwo, h⟩ := (Bool.and_eq_true _ _).mp h
  obtain ⟨hempty, h⟩ := (Bool.and_eq_true _ _).mp h
  obtain ⟨rebound, hrebound, h⟩ := List.any_eq_true.mp h
  obtain ⟨⟨path, access⟩, hdescend, h⟩ := (Option.any_eq_true _ _).mp h
  obtain ⟨haccess, h⟩ := (Bool.and_eq_true _ _).mp h
  obtain ⟨n, hn, h⟩ := (Option.any_eq_true _ _).mp h
  simp only [Bool.and_eq_true, List.all_eq_true, decide_eq_true_eq, Bool.or_eq_true]
    at hdeclared htwo haccess h
  have hpath := (Node.leads_of_descend? hdescend).down (Node.mem_nodesAt_of_child? hn)
  have hlast := Program.lastFile?_of_toOption (hfiles ▸ hfile)
  rw [← hfiles] at hlast
  refine ⟨files, hfiles, file, hfile, out, ids', htwo, hout, rebound, hrebound, access, path, n, hpath,
    h.2, ?_⟩
  refine (expandFile_names_factories hread hfile hlast rfl rfl (by decide) (fun imports _ => ?_) hout
    (by omega) (by simp [List.isEmpty_iff.mp hempty]) hrebound hpath haccess h.1 h.2).2
  refine FilePass.seesModule_of_declared fun x hx hnames => ?_
  obtain ⟨b, hb, hname⟩ := hnames
  exact (hdeclared x hx).resolve_left fun hall => hall b hb hname

/-- A parameter around a use site has the name of the namespace: the import is put in, nothing is
reported, and the access that is written does not name the factories. -/
theorem expandFile_captured_by_parameter :
    ∃ program, program = Program.ofFiles (SourceFile.parse "a.ts"
      ("import \x7b f \x7d from \"ts-transform-creator\"; " ++
      "function g(ts) \x7b return f`a`; \x7d")).toOption.toList ∧
    ∃ file ∈ program.files, ∃ out ids', out.expansions = 1 ∧ out.diagnostics = [] ∧
      expandFile ⟨program.model, {}⟩ file .sequential = (.ok out, ids') ∧
      ∃ rebound ∈ (Program.ofFiles [file.withTree out.tree]).files, ∃ access path n,
        rebound.tree.Leads (⟨access, .expression⟩ :: path) n ∧
        access.kind = .propertyAccessExpression ∧ n.identifier? = some "ts" ∧
        (∀ m ∈ out.tree.preorder, m.id? ≠ n.id?) ∧
        isFactoryNamespace ⟨(Program.ofFiles [file.withTree out.tree]).model, {}⟩ n = false := by
  obtain ⟨program, hprogram, hcheck⟩ : ∃ program, program = Program.ofFiles
      (SourceFile.parse "a.ts" ("import \x7b f \x7d from \"ts-transform-creator\"; " ++
      "function g(ts) \x7b return f`a`; \x7d")).toOption.toList ∧
      program.files.any (fun file =>
        (expandFile ⟨program.model, {}⟩ file .sequential).1.toOption.any fun out =>
          out.expansions = 1 && (out.diagnostics.isEmpty &&
            (Program.ofFiles [file.withTree out.tree]).files.any fun rebound =>
              (rebound.tree.descend? [(.statements, 2), (.body, 0), (.statements, 0),
                (.expression, 0), (.body, 0), (.expression, 0)]).any fun place =>
                place.2.kind = .propertyAccessExpression &&
                  (place.2.child? .expression).any fun n =>
                    n.identifier? = some "ts" && (out.tree.preorder.all (fun m => m.id? ≠ n.id?) &&
                      !isFactoryNamespace
                        ⟨(Program.ofFiles [file.withTree out.tree]).model, {}⟩ n))) = true :=
    ⟨_, rfl, by decide +kernel⟩
  obtain ⟨file, hfile, h⟩ := List.any_eq_true.mp hcheck
  obtain ⟨out, ids', hout, h⟩ := exists_ok_fst_of_any h
  obtain ⟨hone, h⟩ := (Bool.and_eq_true _ _).mp h
  obtain ⟨hempty, h⟩ := (Bool.and_eq_true _ _).mp h
  obtain ⟨rebound, hrebound, h⟩ := List.any_eq_true.mp h
  obtain ⟨⟨path, access⟩, hdescend, h⟩ := (Option.any_eq_true _ _).mp h
  obtain ⟨haccess, h⟩ := (Bool.and_eq_true _ _).mp h
  obtain ⟨n, hn, h⟩ := (Option.any_eq_true _ _).mp h
  simp only [Bool.and_eq_true, List.all_eq_true, decide_eq_true_eq, Bool.not_eq_true']
    at hone haccess h
  have hpath := (Node.leads_of_descend? hdescend).down (Node.mem_nodesAt_of_child? hn)
  exact ⟨program, hprogram, file, hfile, out, ids', hone, List.isEmpty_iff.mp hempty, hout, rebound,
    hrebound, access, path, n, hpath, haccess, h.1, h.2.1, h.2.2⟩

end Compilation

end Quasiquote
