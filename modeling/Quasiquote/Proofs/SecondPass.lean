import Quasiquote.Proofs.Persistence

namespace Quasiquote

namespace Compilation

variable {c : Compilation} {file : SourceFile} {ids : IdSupply} {imports : List Node}

/-- A file without use sites stays as it is. -/
theorem expandFile_of_none (himports : tagImports file.tree c.options.moduleSpecifier = .ok imports)
    (hnone : ∀ x ∈ file.tree.preorder, c.model.isUseSite imports x = false) :
    c.expandFile file ids = (.ok { tree := file.tree }, ids) := by
  unfold expandFile
  rw [himports]
  cases imports with
  | nil => rfl
  | cons statement rest =>
    have hall : FilePass.expandAll ⟨c, file, statement :: rest⟩ file.tree = pure file.tree := by
      unfold FilePass.expandAll
      cases FilePass.nestingBound file.tree with
      | zero => rfl
      | succ depth => exact Node.replaceM_of_none _ _ hnone
    dsimp only
    rw [hall, pure_bind]
    rfl

end Compilation

theorem Node.Shaped.exists_identifier? {n : Node} (h : n.Shaped) (hk : n.kind = .identifier) :
    ∃ name, n.identifier? = some name := by
  obtain ⟨kind, mark, fields⟩ := n
  obtain rfl : kind = .identifier := hk
  have hfields := (checkFields_eq_ok_iff _ _).mp h.fields
  simp only [Node.kind, Node.fields, Kind.schema, List.forall₂_cons_left_iff,
    List.forall₂_nil_left_iff] at hfields
  obtain ⟨f, _, hf, rfl, rfl⟩ := hfields
  cases f <;> first | exact ⟨_, rfl⟩ | cases hf

theorem Node.ownSymbol?_arrowFunction {t : Node} (hk : t.kind = .arrowFunction) :
    t.ownSymbol? = some (.anonymous t.key) := by
  have hname : t.child? .name = none := by
    unfold child? field?
    rw [hk]
    rfl
  simp [ownSymbol?, hk, hname, Kind.isFunctionLike]

namespace FilePass.Replaced

variable {p : FilePass} {first second : Program} {bound : Nat} {rebound : SourceFile}
  {path path' : List Descent} {n m : Node} (h : p.Replaced first second bound rebound)

include h

/-- The imports of the tag's module are those that were there. -/
theorem mem_imports (hmodule : p.options.moduleSpecifier ≠ p.options.factoryModule)
    (himports : tagImports p.file.tree p.options.moduleSpecifier = .ok p.imports) {s : Node}
    (hs : s ∈ rebound.tree.preorder) (himport : s.IsImportOf p.options.moduleSpecifier) :
    s ∈ p.imports ∧ ∀ z ∈ s.preorder, z.key < bound := by
  have hk := (Node.isImportOf_iff.mp himport).1
  have hlt : s.key < bound := (h.key_lt_of_kind hs (.inr hk)).resolve_right fun hfactories =>
    hmodule (himport.eq_module hfactories.moduleField?).symm
  obtain ⟨path, path', n, hstays⟩ := h.stays_of_kind hs (by simp [hk]) hlt
  have hn := hstays.before.mem_preorder
  have hnk := (Becomes.kind_eq _ _ hstays.site hstays.becomes).trans hk
  obtain ⟨rfl, hbelow⟩ := hstays.becomes.eq_of_none (h.within.isUseSite_of_import hn hnk)
  refine ⟨(Node.mem_tagImports_iff himports).mpr ⟨hn, himport⟩, fun z hz => ?_⟩
  have hid := h.within.read.id?_eq h.within.file
    ((Node.preorder_sublist_of_mem_preorder hn).subset hz)
  exact hbelow z (by simpa using hz) z.key hid

/-- What a tag stands for, if it was there before, the tag stood for before. -/
theorem tag_declared (hstays : p.Stays bound rebound path path' n m) {t d : Node} {symbol : Symbol}
    (ht : m.child? .tag = some t) (hresolve : second.model.resolve? t = some symbol)
    (hd : d ∈ second.model.declarations symbol) (hlt : d.key < bound) :
    ∃ t₀, n.child? .tag = some t₀ ∧ first.model.resolve? t₀ = some symbol ∧
      ∃ d₀ ∈ first.model.declarations symbol, d₀.id? = d.id? := by
  have hleads := hstays.after.down (Node.mem_nodesAt_of_child? ht)
  have href' := h.read.reference_of_tag h.file hleads (by simp [hresolve])
  obtain ⟨t₀, ht₀, htt⟩ := (hstays.becomes.keeps hstays.site).1.swap.child? ht
  refine ⟨t₀, ht₀, ?_⟩
  cases hsite : p.isUseSite t₀ with
  | true =>
    -- the tag was a use site: a new function is its own declaration
    obtain ⟨hk, hnew⟩ := htt.arrowFunction hsite
    have hown := h.read.resolve?_eq_ownSymbol? h.file hleads href' (.inr ⟨_, rfl, rfl⟩) (by simp [hk])
    rw [hresolve, Node.ownSymbol?_arrowFunction hk] at hown
    obtain rfl := Option.some.inj hown
    rw [h.read.declarations_anonymous h.file hleads.mem_preorder, List.mem_singleton] at hd
    exact absurd (hd ▸ hlt) (Nat.not_lt.mpr hnew)
  | false =>
    have htag := hstays.child ht₀ ht htt hsite
    have href := (h.reference_iff htag).mp href'
    have hcases : (second.model.resolve? t = first.model.resolve? t₀ ∧
        ∀ symbol, first.model.resolve? t₀ = some symbol → p.Grows bound symbol
          (first.model.declarations symbol) (second.model.declarations symbol)) ∨
        ∀ symbol, second.model.resolve? t = some symbol →
          ∀ d ∈ second.model.declarations symbol, bound ≤ d.key := by
      by_cases hk : t₀.kind = .identifier
      · have hshaped := h.within.read.shaped _ h.within.file t₀ htag.before.mem_preorder
        obtain ⟨name, hname⟩ := hshaped.exists_identifier? hk
        exact (h.resolve?_identifier htag href hname).imp_right And.right
      · exact .inl (h.resolve?_own htag href (.inr ⟨_, rfl, rfl⟩) (.inr ⟨_, rfl, rfl⟩) hk)
    obtain ⟨heq, hgrows⟩ | hnew := hcases
    · have hfirst := heq.symm.trans hresolve
      exact ⟨hfirst, (hgrows symbol hfirst).exists_of_mem hd hlt⟩
    · exact absurd hlt (Nat.not_lt.mpr (hnew symbol hresolve d hd))

/-- No template in the file is a use site. -/
theorem isUseSite_eq_false (hmodule : p.options.moduleSpecifier ≠ p.options.factoryModule)
    (himports : tagImports p.file.tree p.options.moduleSpecifier = .ok p.imports) {imports : List Node}
    (himports' : tagImports rebound.tree p.options.moduleSpecifier = .ok imports) {x : Node}
    (hx : x ∈ rebound.tree.preorder) : second.model.isUseSite imports x = false := by
  refine Bool.eq_false_iff.mpr fun hs => ?_
  simp only [Model.isUseSite, Bool.and_eq_true, decide_eq_true_eq, Option.any_eq_true,
    List.any_eq_true] at hs
  obtain ⟨hk, symbol, hsymbol, d, hd, s, hs, hwithin⟩ := hs
  obtain ⟨t, ht, hresolve⟩ := Option.bind_eq_some_iff.mp hsymbol
  obtain ⟨hstree, himport⟩ := (Node.mem_tagImports_iff himports').mp hs
  obtain ⟨hsmem, hbelow⟩ := h.mem_imports hmodule himports hstree himport
  obtain ⟨z, hz, hid⟩ := (h.read.isWithin_iff h.file hstree).mp hwithin
  have hdlt : d.key < bound := by
    rw [Node.key, ← hid]
    exact hbelow z hz
  have hxlt : x.key < bound := (h.key_lt_of_kind hx (.inl hk)).resolve_right fun hfactories => by
    rw [← (Node.isSimulation_renumbers bound _ _ hfactories).kind] at hk
    cases hk
  obtain ⟨path, path', n, hstays⟩ := h.stays_of_kind hx (by simp [hk]) hxlt
  obtain ⟨t₀, ht₀, hfirst, d₀, hd₀, hid₀⟩ := h.tag_declared hstays ht hresolve hd hdlt
  -- the template was a use site, so it is not one that stays
  have hsite : p.isUseSite n = true := by
    rw [isUseSite, h.within.model]
    simp only [Model.isUseSite, Bool.and_eq_true, decide_eq_true_eq, Option.any_eq_true,
      List.any_eq_true]
    refine ⟨(Becomes.kind_eq _ _ hstays.site hstays.becomes).trans hk, symbol, by simp [ht₀, hfirst],
      d₀, hd₀, s, hsmem, ?_⟩
    obtain ⟨hsfile, -⟩ := (Node.mem_tagImports_iff himports).mp hsmem
    exact (h.within.read.isWithin_iff h.within.file hsfile).mpr ⟨z, hz, hid.trans hid₀.symm⟩
  rw [hstays.site] at hsite
  cases hsite

end FilePass.Replaced

namespace Compilation

variable {first : Program} {before after : List SourceFile} {file : SourceFile} {options : Options}
  {ids ids' : IdSupply} {out : ExpandedFile}

/-- A file that was expanded takes its own place in the program. Another run over it, with any ids,
expands nothing, reports nothing and returns the tree that the first one did, if the factories do not
come from the module of the tag. -/
theorem expandFile_settles (hread : first.IsRead) (hfiles : first.files = before ++ file :: after)
    (hmodule : options.moduleSpecifier ≠ options.factoryModule)
    (h : expandFile ⟨first.model, options⟩ file ids = (.ok out, ids')) :
    ∃ second rebound, second = Program.ofFiles (before ++ file.withTree out.tree :: after) ∧
      second.files = before ++ rebound :: after ∧ rebound.name = file.name ∧
      rebound.source = file.source ∧ rebound.tree.bare = out.tree.bare ∧
      ∀ ids₂, ∃ again, expandFile ⟨second.model, options⟩ rebound ids₂ = (.ok again, ids₂) ∧
        again.expansions = 0 ∧ again.diagnostics = [] ∧ again.tree.bare = out.tree.bare := by
  obtain ⟨p, bound, rebound, hc, rfl, himports, hsecond, hname, hsource, hnumbers, hreplaced⟩ :=
    expandFile_replaced hread hfiles h
  have hoptions : p.options = options := by rw [FilePass.options, hc]
  have hbare : rebound.tree.bare = out.tree.bare := by
    obtain ⟨next, -, hnext⟩ := hnumbers.2
    rw [hnext, Node.bare_number]
  refine ⟨_, rebound, rfl, hsecond, hname, hsource, hbare, fun ids₂ => ?_⟩
  obtain ⟨imports, himports'⟩ := Node.exists_tagImports rebound.tree options.moduleSpecifier
  rw [← hoptions] at hmodule himports
  refine ⟨_, expandFile_of_none himports' fun x hx => ?_, rfl, rfl, hbare⟩
  exact hreplaced.isUseSite_eq_false hmodule himports (hoptions ▸ himports') hx

/-- A use site in a substitution of another, and a template whose tag is a parameter of the same name:
the first run expands two and leaves one, which the second run leaves too. -/
theorem expandFile_settles_shadowed :
    ∃ files, files = (SourceFile.parse "a.ts" ("import \x7b f \x7d from \"ts-transform-creator\";" ++
      "g(f`$\x7bf`b`\x7d + 1`); function h(f) \x7b return f`c`; \x7d")).toOption.toList ∧
    ∃ file before after, (Program.ofFiles files).IsRead ∧
      (Program.ofFiles files).files = before ++ file :: after ∧
      ({} : Options).moduleSpecifier ≠ ({} : Options).factoryModule ∧
      ∃ out ids', expandFile ⟨(Program.ofFiles files).model, {}⟩ file .sequential = (.ok out, ids') ∧
        out.expansions = 2 ∧
        (out.tree.preorder.countP fun n => n.kind = .taggedTemplateExpression) = 1 ∧
        ∃ second rebound, second = Program.ofFiles (before ++ file.withTree out.tree :: after) ∧
          second.files = before ++ rebound :: after ∧ ∃ again,
            expandFile ⟨second.model, {}⟩ rebound .sequential = (.ok again, .sequential) ∧
            again.expansions = 0 ∧ again.diagnostics = [] ∧ again.tree.bare = out.tree.bare := by
  obtain ⟨files, hfiles, hcheck⟩ : ∃ files, files = (SourceFile.parse "a.ts"
      ("import \x7b f \x7d from \"ts-transform-creator\";" ++
        "g(f`$\x7bf`b`\x7d + 1`); function h(f) \x7b return f`c`; \x7d")).toOption.toList ∧
      (Program.ofFiles files).files.any (fun file =>
        (expandFile ⟨(Program.ofFiles files).model, {}⟩ file .sequential).1.toOption.any fun out =>
          out.expansions = 2 &&
            (out.tree.preorder.countP fun n => n.kind = .taggedTemplateExpression) = 1) = true :=
    ⟨_, rfl, by decide +kernel⟩
  obtain ⟨file, hfile, h⟩ := List.any_eq_true.mp hcheck
  obtain ⟨out, ids', hout, h⟩ := exists_ok_fst_of_any h
  simp only [Bool.and_eq_true, decide_eq_true_eq] at h
  have hread : (Program.ofFiles files).IsRead := Program.isRead_ofFiles fun f hf =>
    ⟨_, SourceFile.parse_of_mem_toList (hfiles ▸ hf)⟩
  obtain ⟨before, after, hsplit⟩ := List.append_of_mem hfile
  have hmodule : ({} : Options).moduleSpecifier ≠ ({} : Options).factoryModule := by decide
  obtain ⟨second, rebound, hsecond, hrebound, -, -, -, hagain⟩ :=
    expandFile_settles hread hsplit hmodule hout
  exact ⟨files, hfiles, file, before, after, hread, hsplit, hmodule, out, ids', hout, h.1, h.2, second,
    rebound, hsecond, hrebound, hagain .sequential⟩

end Compilation

end Quasiquote
