import Quasiquote.Proofs.Persistence

namespace Quasiquote

theorem FilePass.Grows.map_id?_eq {p : FilePass} {bound : Nat} {symbol : Symbol} {ds ds' : List Node}
    (h : p.Grows bound symbol ds ds')
    (hnone : p.namespaceDeclaration? = none →
      symbol ≠ .named p.file.tree.key p.options.factoryNamespace) :
    ds'.map Node.id? = ds.map Node.id? := by
  obtain ⟨added, kept, rfl, hadded, hkept⟩ := h
  have hnil : added = [] := by
    refine List.eq_nil_iff_forall_not_mem.mpr fun d hd => ?_
    obtain ⟨-, hns, hsymbol⟩ := hadded d hd
    exact hnone hns hsymbol
  rw [hnil, List.nil_append]
  clear hnil hadded
  induction hkept with
  | nil => rfl
  | cons hid _ ih => rw [List.map_cons, List.map_cons, hid, ih]

namespace FilePass.Replaced

variable {p : FilePass} {first second : Program} {bound : Nat} {rebound : SourceFile}
  {path : List Descent} {n m : Node} {name : String} {symbol : Symbol}
  (h : p.Replaced first second bound rebound)

include h

/-- A reference that is still there stays, at the end of the way that led to it. -/
theorem stays_of_id? (hp : p.file.tree.Leads path n) (hname : n.identifier? = some name)
    (hm : m ∈ rebound.tree.preorder) (hid : m.id? = n.id?) (hlt : m.key < bound) :
    ∃ inner inner', path = inner ++ [⟨p.file.tree, .statements⟩] ∧
      p.Stays bound rebound inner inner' n m := by
  have hcount := h.within.read.countKey_le_one h.within.file n.key
  obtain ⟨path', hp'⟩ := Node.exists_leads_of_mem_preorder (h.read.shaped _ h.file) hm
  have hne : path' ≠ [] := by
    rintro rfl
    cases hp'
    have hroot : p.file.tree.key = n.key := by
      rw [← h.key_eq, Node.key, hid]
      rfl
    obtain ⟨-, rfl⟩ := hp.unique hcount .here rfl hroot
    have hkind := Node.kind_of_identifier? hname
    simp [h.within.read.kind _ h.within.file] at hkind
  obtain ⟨inner, inner', n', rfl, hstays⟩ := h.stays hp' hne hlt
  have hkey : n'.key = n.key := by
    rw [Node.key, ← hstays.id?_eq, hid]
    rfl
  obtain ⟨rfl, rfl⟩ := hp.unique hcount hstays.before rfl hkey
  exact ⟨inner, inner', rfl, hstays⟩

/-- A file whose own bindings are looked up does not get the import of a namespace that it declares. -/
theorem ne_namespace (hlast : first.model.lastFile? p.file.name = some p.file)
    (hp : p.file.tree.Leads path n) (href : ∀ d ∈ path, d.isReference = true)
    (hname : n.identifier? = some name) (hresolve : first.model.resolve? n = some symbol)
    (hnone : p.namespaceDeclaration? = none) :
    symbol ≠ .named p.file.tree.key p.options.factoryNamespace := by
  rintro rfl
  have hfile := h.within.file
  obtain ⟨y, hy, hsymbol, hnames⟩ := h.within.read.exists_names hfile hp href hname hresolve
  obtain ⟨hkey, rfl⟩ := Symbol.named.inj hsymbol
  obtain rfl := h.within.read.eq_of_key hfile hfile hy p.file.tree.self_mem_preorder hkey
  rw [h.within.namespaceDeclaration?_eq hlast, Option.map_eq_none_iff] at hnone
  rw [Node.ownBindings_sourceFile (h.within.read.kind _ hfile), Binding.names_iff_isSome_find?] at hnames
  change ((p.file.moduleScope.bindings.find? _).isSome = true) at hnames
  rw [hnone] at hnames
  cases hnames

end FilePass.Replaced

namespace Compilation

variable {first : Program} {before after : List SourceFile} {file : SourceFile} {options : Options}
  {ids ids' : IdSupply} {out : ExpandedFile}

/-- A reference that survives stands for what it did, and the same nodes declare it, unless it is
captured: its name is one that the functions in the place of use sites declare, and no declaration of it
comes before a use site on the way outward. Then what it stands for is declared by new nodes alone. Of
two files of one name the bindings of the last are looked up for both, so the namespace that another file
declares may get one more declaration, the import. -/
theorem expandFile_captures_exactly (hread : first.IsRead)
    (hfiles : first.files = before ++ file :: after)
    (h : expandFile ⟨first.model, options⟩ file ids = (.ok out, ids')) :
    ∃ (p : FilePass) (second : Program), p.compilation = ⟨first.model, options⟩ ∧ p.file = file ∧
      tagImports file.tree options.moduleSpecifier = .ok p.imports ∧
      second = Program.ofFiles (before ++ file.withTree out.tree :: after) ∧
      ∀ path n name symbol, file.tree.Leads path n → (∀ d ∈ path, d.isReference = true) →
        n.identifier? = some name → (∃ y ∈ out.tree.preorder, y.id? = n.id?) →
        first.model.resolve? n = some symbol →
        ((p.Binds name → p.Shielded name path) →
          (symbol = .named file.tree.key options.factoryNamespace →
            first.model.lastFile? file.name = some file) →
          second.model.resolve? n = some symbol ∧
            (second.model.declarations symbol).map Node.id? =
              (first.model.declarations symbol).map Node.id?) ∧
        (p.Binds name → ¬p.Shielded name path →
          ∃ captor, second.model.resolve? n = some captor ∧ second.model.declarations captor ≠ [] ∧
            ∀ d ∈ second.model.declarations captor, ∀ y ∈ out.tree.preorder, y.id? ≠ d.id?) := by
  obtain ⟨p, bound, rebound, hc, rfl, himports, -, -, -, hnumbers, hreplaced⟩ :=
    expandFile_replaced hread hfiles h
  refine ⟨p, _, hc, rfl, himports, rfl, ?_⟩
  intro path n name symbol hp href hname ⟨y, hy, hyn⟩ hresolve
  have hknown := hread.id?_eq hreplaced.within.file hp.mem_preorder
  obtain ⟨m, hm, hym⟩ := (Node.isSimulation_renumbers bound).swap.mem_preorder hnumbers hy
  have hsome : y.id?.isSome = true := by simp [hyn, hknown]
  have hid : m.id? = n.id? := by
    rw [← hyn, Node.id?, hym.2.mark_of_some hsome]
    rfl
  have hlt := hym.key_lt_iff.mpr hsome
  obtain ⟨inner, inner', rfl, hstays⟩ := hreplaced.stays_of_id? hp hname hm hid hlt
  rw [show (Program.ofFiles _).model.resolve? n = (Program.ofFiles _).model.resolve? m by
    rw [Model.resolve?, Model.resolve?, hid]]
  refine ⟨fun hfree hlast => ?_, fun hbinds hshielded => ?_⟩
  · obtain ⟨heq, hgrows⟩ | ⟨⟨hbinds, hshielded⟩ | hnone, -⟩ :=
      hreplaced.resolve?_identifier hstays href hname
    · refine ⟨heq.trans hresolve, (hgrows symbol hresolve).map_id?_eq fun hnone hsymbol => ?_⟩
      have hoptions : p.options = options := by rw [FilePass.options, hc]
      exact hreplaced.ne_namespace (hlast (hoptions ▸ hsymbol)) hp href hname hresolve hnone hsymbol
    · exact absurd (hfree hbinds) hshielded
    · rw [hresolve] at hnone
      cases hnone
  · obtain ⟨captor, hcaptor, hne, hnew⟩ :=
      hreplaced.resolve?_captured hstays href hname hresolve hbinds hshielded
    refine ⟨captor, hcaptor, hne, fun d hd z hz hzd => ?_⟩
    have hle : bound ≤ z.key := by
      rw [Node.key, hzd]
      exact hnew d hd
    exact absurd (hnumbers.1.key_lt (Nat.zero_lt_of_lt hlt) hz) (Nat.not_lt.mpr hle)

/-- A function in a substitution has a parameter of the name that the generated one has: what its body
refers to stays its own. -/
theorem expandFile_captures_exactly_shielded :
    ∃ files, files = (SourceFile.parse "a.ts" ("import \x7b f \x7d from \"ts-transform-creator\"; " ++
      "k(f`$\x7b(props) => h(props)\x7d + 1`);")).toOption.toList ∧
    ∃ file before after, (Program.ofFiles files).IsRead ∧
      (Program.ofFiles files).files = before ++ file :: after ∧ ∃ out ids',
      expandFile ⟨(Program.ofFiles files).model, {}⟩ file .sequential = (.ok out, ids') ∧
      out.expansions = 1 ∧ ∃ path n symbol, file.tree.Leads path n ∧ n.identifier? = some "props" ∧
        (∃ y ∈ out.tree.preorder, y.id? = n.id?) ∧
        (Program.ofFiles files).model.resolve? n = some symbol ∧
        ∃ second, second = Program.ofFiles (before ++ file.withTree out.tree :: after) ∧
          second.model.resolve? n = some symbol ∧
          (second.model.declarations symbol).map Node.id? =
            ((Program.ofFiles files).model.declarations symbol).map Node.id? := by
  obtain ⟨files, hfiles, hcheck⟩ : ∃ files, files = (SourceFile.parse "a.ts"
      ("import \x7b f \x7d from \"ts-transform-creator\"; " ++
        "k(f`$\x7b(props) => h(props)\x7d + 1`);")).toOption.toList ∧
      (Program.ofFiles files).files.any (fun file =>
        (expandFile ⟨(Program.ofFiles files).model, {}⟩ file .sequential).1.toOption.any fun out =>
          out.expansions = 1 && (file.tree.descend? [(.statements, 1), (.expression, 0), (.arguments, 0),
            (.template, 0), (.templateSpans, 0), (.expression, 0), (.body, 0), (.arguments, 0)]).any
            fun place => place.2.identifier? = some "props" && (place.1.all Descent.isReference &&
              (out.tree.preorder.any (fun y => y.id? = place.2.id?) &&
                (((Program.ofFiles files).model.resolve? place.2).isSome &&
                  (place.1.head?.any (fun d => d.node.kind = .callExpression) &&
                  place.1.tail.head?.any fun d => d.node.kind.isFunctionLike &&
                    (d.node.list .parameters).any fun q =>
                      (q.child? .name).any fun id => id.identifier? = some "props"))))) = true :=
    ⟨_, rfl, by decide +kernel⟩
  obtain ⟨file, hfile, h⟩ := List.any_eq_true.mp hcheck
  obtain ⟨out, ids', hout, h⟩ := exists_ok_fst_of_any h
  obtain ⟨hone, h⟩ := (Bool.and_eq_true _ _).mp h
  obtain ⟨⟨path, n⟩, hdescend, h⟩ := (Option.any_eq_true _ _).mp h
  have hpath := Node.leads_of_descend? hdescend
  obtain ⟨hname, h⟩ := (Bool.and_eq_true _ _).mp h
  obtain ⟨href, h⟩ := (Bool.and_eq_true _ _).mp h
  obtain ⟨hkept, h⟩ := (Bool.and_eq_true _ _).mp h
  obtain ⟨hresolve, h⟩ := (Bool.and_eq_true _ _).mp h
  obtain ⟨symbol, hsymbol⟩ := Option.isSome_iff_exists.mp hresolve
  simp only [decide_eq_true_eq, List.all_eq_true, List.any_eq_true] at hone hname href hkept
  have hread : (Program.ofFiles files).IsRead := Program.isRead_ofFiles fun f hf =>
    ⟨_, SourceFile.parse_of_mem_toList (hfiles ▸ hf)⟩
  have hlast := Program.lastFile?_of_toOption (hfiles ▸ hfile)
  rw [← hfiles] at hlast
  obtain ⟨before, after, hsplit⟩ := List.append_of_mem hfile
  obtain ⟨p, second, -, -, -, hsecond, hkeeps⟩ := expandFile_captures_exactly hread hsplit hout
  have hshielded : p.Shielded "props" path := by
    simp only [Bool.and_eq_true, decide_eq_true_eq, List.any_eq_true, Option.any_eq_true] at h
    obtain ⟨⟨call, hfirst, hcall⟩, function, hnext, hfunction, q, hq, id, hid, hprops⟩ := h
    obtain ⟨rest, rfl⟩ := List.head?_eq_some_iff.mp hfirst
    obtain ⟨rest, rfl⟩ := List.head?_eq_some_iff.mp hnext
    refine .outward (Bool.eq_false_iff.mpr fun hs => ?_) (.declared (.parameter hfunction hq
      ⟨id, hid, hprops⟩))
    rw [FilePass.kind_of_isUseSite hs] at hcall
    cases hcall
  exact ⟨files, hfiles, file, before, after, hread, hsplit, out, ids', hout, hone, path, n, symbol,
    hpath, hname, hkept, hsymbol, second, hsecond,
    (hkeeps path n "props" symbol hpath href hname hkept hsymbol).1 (fun _ => hshielded) fun _ => hlast⟩

/-- A function in a substitution refers to a parameter outside of the use site that has the name of the
generated one: bound again, the reference is to the generated parameter. -/
theorem expandFile_captures_reference :
    ∃ program, program = Program.ofFiles (SourceFile.parse "a.ts"
      ("import \x7b f \x7d from \"ts-transform-creator\"; " ++
      "function g(props) \x7b return f`$\x7b() => props\x7d`; \x7d")).toOption.toList ∧
    ∃ file ∈ program.files, ∃ out ids' imports, out.expansions = 1 ∧
      expandFile ⟨program.model, {}⟩ file .sequential = (.ok out, ids') ∧
      tagImports file.tree ({} : Options).moduleSpecifier = .ok imports ∧
      ∃ path n symbol captor, file.tree.Leads path n ∧ (∀ d ∈ path, d.isReference = true) ∧
        n.identifier? = some "props" ∧
        (∃ d ∈ path, program.model.isUseSite imports d.node = true ∧
          ∃ e ∈ d.node.substitutions, ∃ x ∈ e.preorder, x.id? = n.id?) ∧
        (∃ y ∈ out.tree.preorder, y.id? = n.id?) ∧
        program.model.resolve? n = some symbol ∧
        (Program.ofFiles [file.withTree out.tree]).model.resolve? n = some captor ∧
        ((Program.ofFiles [file.withTree out.tree]).model.declarations captor).map Node.id? ≠
          (program.model.declarations symbol).map Node.id? := by
  obtain ⟨program, hprogram, hcheck⟩ : ∃ program, program = Program.ofFiles (SourceFile.parse "a.ts"
      ("import \x7b f \x7d from \"ts-transform-creator\"; " ++
      "function g(props) \x7b return f`$\x7b() => props\x7d`; \x7d")).toOption.toList ∧
      program.files.any (fun file =>
        (expandFile ⟨program.model, {}⟩ file .sequential).1.toOption.any fun out =>
          out.expansions = 1 &&
          (tagImports file.tree ({} : Options).moduleSpecifier).toOption.any fun imports =>
          (file.tree.descend? [(.statements, 1), (.body, 0), (.statements, 0), (.expression, 0),
            (.template, 0), (.templateSpans, 0), (.expression, 0), (.body, 0)]).any fun place =>
          place.1.all Descent.isReference && (place.2.identifier? = some "props" &&
            (place.1.any (fun d => program.model.isUseSite imports d.node &&
              d.node.substitutions.any fun e => e.preorder.any fun x => x.id? = place.2.id?) &&
            (out.tree.preorder.any (fun y => y.id? = place.2.id?) &&
            (program.model.resolve? place.2).any fun symbol =>
            ((Program.ofFiles [file.withTree out.tree]).model.resolve? place.2).any fun captor =>
            ((Program.ofFiles [file.withTree out.tree]).model.declarations captor).map Node.id? ≠
              (program.model.declarations symbol).map Node.id?)))) = true :=
    ⟨_, rfl, by decide +kernel⟩
  obtain ⟨file, hfile, h⟩ := List.any_eq_true.mp hcheck
  obtain ⟨out, ids', hout, h⟩ := exists_ok_fst_of_any h
  obtain ⟨hone, h⟩ := (Bool.and_eq_true _ _).mp h
  obtain ⟨imports, himports, h⟩ := exists_ok_of_any h
  obtain ⟨⟨path, n⟩, hdescend, h⟩ := (Option.any_eq_true _ _).mp h
  simp only [Bool.and_eq_true, List.all_eq_true, List.any_eq_true, Option.any_eq_true,
    decide_eq_true_eq] at hone h
  obtain ⟨href, hname, hsite, hkept, symbol, hsymbol, captor, hcaptor, hne⟩ := h
  exact ⟨program, hprogram, file, hfile, out, ids', imports, hone, hout, himports, path, n, symbol,
    captor, Node.leads_of_descend? hdescend, href, hname, hsite, hkept, hsymbol, hcaptor, hne⟩

end Compilation

end Quasiquote
