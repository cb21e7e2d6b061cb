import Quasiquote.Proofs.FactoryImport
import Quasiquote.Proofs.Rewriting

namespace Quasiquote

theorem Node.conforms_plain {kind : Kind} {fields : List Field}
    (hf : checkFields kind fields = .ok ()) (h : ∀ c ∈ fields.flatMap Field.nodes, c.Conforms) :
    (plain kind fields).Conforms :=
  (conforms_iff _).mpr ⟨hf, h⟩

theorem Node.AllShaped.conforms {n : Node} (h : n.AllShaped) : n.Conforms :=
  fun m hm => (h m hm).fields

/-- A tree that agrees with one that conforms does so too. -/
theorem Node.IsSimulation.conforms {R : Node → Node → Prop} (hR : IsSimulation R) {n m : Node}
    (h : R n m) (hn : n.Conforms) : m.Conforms := by
  intro x hx
  obtain ⟨y, hy, hyx⟩ := hR.mem_preorder h hx
  have hkeeps := hR y x hyx
  rw [← hkeeps.kind, ← checkFields_congr y.kind hkeeps.forms]
  exact hn y hy

namespace Node

variable {ns : String} {holes : List Node} {t : Node}

theorem conforms_identifier (s : String) : (identifier s).Conforms :=
  conforms_plain rfl nofun

theorem conforms_stringLiteral (s : String) : (stringLiteral s).Conforms :=
  conforms_plain rfl nofun

theorem conforms_call {callee : Node} {arguments : List Node} (hc : callee.Conforms)
    (ha : ∀ a ∈ arguments, a.Conforms) : (call callee arguments).Conforms :=
  conforms_plain rfl (by simpa using ⟨hc, ha⟩)

theorem Wraps.conforms (h : t.Wraps ns holes) (hh : ∀ n ∈ holes, n.Conforms) : t.Conforms := by
  induction h with
  | hole h => exact hh _ h
  | text s => exact conforms_stringLiteral s
  | boolean b => cases b <;> exact conforms_plain rfl nofun
  | name s => exact conforms_identifier s
  | array _ ih => exact conforms_plain rfl (by simpa using ih)
  | factoryCall _ ih =>
    refine conforms_call (conforms_plain rfl ?_) ih
    simpa using ⟨conforms_identifier _, conforms_identifier _⟩

/-- What is synthesized conforms, whatever the fragment. -/
theorem conforms_synthesize (fragment : Node) : (fragment.synthesize ns).Conforms :=
  Wraps.conforms (wraps_synthesize fragment : (fragment.synthesize ns).Wraps ns []) nofun

end Node

def Registry.Conforms (r : Registry) : Prop :=
  ∀ e ∈ r.entries, e.2.payload.Conforms

theorem Registry.Conforms.erase {r : Registry} (h : r.Conforms) (token : String) :
    (r.erase token).Conforms :=
  fun e he => h e (List.mem_filter.mp he).1

variable (ns : String)

mutual

/-- A payload takes the place of a node, and any other node keeps the forms of its fields. -/
theorem Node.conforms_splice (n : Node) (r : Registry) (hn : n.Conforms) (hr : r.Conforms) :
    (n.splice ns r).1.Conforms ∧ (n.splice ns r).2.Conforms := by
  match n with
  | .mk kind mark fields =>
    rw [Node.splice]
    cases htake : r.take? ns (.mk kind mark fields) with
    | some taken =>
      obtain ⟨token, p, hp, rfl⟩ := Registry.take?_eq_some htake
      exact ⟨hr _ (Registry.mem_entries_of_get? hp), hr.erase token⟩
    | none =>
      obtain ⟨hf, hc⟩ := (Node.conforms_mk_iff kind mark fields).mp hn
      obtain ⟨hforms, hparts, hr'⟩ := Field.conforms_spliceList fields r hc hr
      refine ⟨Node.conforms_plain ?_ (List.forall_mem_flatMap.mpr hparts), hr'⟩
      rw [checkFields_congr kind hforms]
      exact hf

theorem Field.conforms_spliceList (fields : List Field) (r : Registry)
    (hf : ∀ f ∈ fields, ∀ c ∈ f.nodes, c.Conforms) (hr : r.Conforms) :
    (Field.spliceList ns fields r).1.map Field.form = fields.map Field.form ∧
      (∀ f ∈ (Field.spliceList ns fields r).1, ∀ c ∈ f.nodes, c.Conforms) ∧
      (Field.spliceList ns fields r).2.Conforms := by
  match fields with
  | [] => exact ⟨rfl, hf, hr⟩
  | .node n :: rest =>
    obtain ⟨hn, hrest⟩ := List.forall_mem_cons.mp hf
    obtain ⟨hn, hr₁⟩ := Node.conforms_splice n r (hn n (by simp)) hr
    obtain ⟨hforms, hparts, hr₂⟩ := Field.conforms_spliceList rest (n.splice ns r).2 hrest hr₁
    refine ⟨congrArg (FieldForm.node :: ·) hforms, List.forall_mem_cons.mpr ⟨?_, hparts⟩, hr₂⟩
    exact List.forall_mem_singleton.mpr hn
  | .list ms :: rest =>
    obtain ⟨hms, hrest⟩ := List.forall_mem_cons.mp hf
    obtain ⟨hms, hr₁⟩ := Node.conforms_spliceList ms r hms hr
    obtain ⟨hforms, hparts, hr₂⟩ :=
      Field.conforms_spliceList rest (Node.spliceList ns ms r).2 hrest hr₁
    exact ⟨congrArg (FieldForm.list :: ·) hforms, List.forall_mem_cons.mpr ⟨hms, hparts⟩, hr₂⟩
  | .text _ :: rest | .flag _ :: rest | .absent :: rest =>
    obtain ⟨-, hrest⟩ := List.forall_mem_cons.mp hf
    obtain ⟨hforms, hparts, hr'⟩ := Field.conforms_spliceList rest r hrest hr
    exact ⟨congrArg (_ :: ·) hforms, List.forall_mem_cons.mpr ⟨nofun, hparts⟩, hr'⟩

theorem Node.conforms_spliceList (ms : List Node) (r : Registry) (hm : ∀ m ∈ ms, m.Conforms)
    (hr : r.Conforms) :
    (∀ m ∈ (Node.spliceList ns ms r).1, m.Conforms) ∧ (Node.spliceList ns ms r).2.Conforms := by
  match ms with
  | [] => exact ⟨hm, hr⟩
  | m :: rest =>
    obtain ⟨hm, hrest⟩ := List.forall_mem_cons.mp hm
    obtain ⟨hm, hr₁⟩ := Node.conforms_splice m r hm hr
    obtain ⟨hms, hr₂⟩ := Node.conforms_spliceList rest (m.splice ns r).2 hrest hr₁
    exact ⟨List.forall_mem_cons.mpr ⟨hm, hms⟩, hr₂⟩

end

theorem exists_of_mem_mapM {ε α β : Type} {f : α → Except ε β} {xs : List α} {ys : List β} {y : β}
    (h : xs.mapM f = .ok ys) (hy : y ∈ ys) : ∃ x ∈ xs, f x = .ok y := by
  induction xs generalizing ys with
  | nil =>
    cases h
    simp at hy
  | cons x xs ih =>
    rw [List.mapM_cons] at h
    obtain ⟨z, hz, h⟩ := exists_of_bind_eq_ok h
    obtain ⟨zs, hzs, h⟩ := exists_of_bind_eq_ok h
    cases h
    obtain rfl | hy := List.mem_cons.mp hy
    · exact ⟨x, List.mem_cons_self, hz⟩
    · obtain ⟨w, hw, hwy⟩ := ih hzs hy
      exact ⟨w, List.mem_cons_of_mem x hw, hwy⟩

namespace Node

variable {ns}

theorem checkFields_of_create {kind : Kind} {fields : List Field} {n : Node}
    (h : create kind fields = .ok n) : checkFields kind fields = .ok () ∧ n = plain kind fields := by
  unfold create at h
  split at h
  · next hf => exact ⟨hf, (Except.ok.inj h).symm⟩
  · cases h

/-- The nodes in the value of an expression are built by factories, which check their fields. -/
theorem conforms_evaluateField {n : Node} {f : Field} (h : n.evaluateField ns = .ok f) :
    ∀ c ∈ f.nodes, c.Conforms := by
  induction n using inductionOnChildren generalizing f with
  | h n ih =>
    rw [evaluateField, mapM_smallerList,
      mapM_smallerList n .elements fun c => do (← c.evaluateField ns).asNode] at h
    split at h
    · split at h
      · obtain ⟨fields, hfields, h⟩ := exists_of_bind_eq_ok h
        split at h
        · next built hbuilt =>
          cases h
          obtain ⟨hcheck, rfl⟩ := checkFields_of_create hbuilt
          refine List.forall_mem_singleton.mpr (conforms_plain hcheck ?_)
          refine List.forall_mem_flatMap.mpr fun g hg => ?_
          obtain ⟨a, ha, hag⟩ := exists_of_mem_mapM hfields hg
          exact ih a (mem_children_of_mem_list ha) hag
        · cases h
      · cases h
    · cases h
      simp
    · cases h
      simp
    · cases h
      simp
    · obtain ⟨nodes, hnodes, h⟩ := exists_of_bind_eq_ok h
      cases h
      intro c hc
      obtain ⟨e, he, hec⟩ := exists_of_mem_mapM hnodes hc
      obtain ⟨g, hg, hgc⟩ := exists_of_bind_eq_ok hec
      cases g with
      | node m =>
        cases hgc
        exact ih e (mem_children_of_mem_list he) hg c (List.mem_singleton_self c)
      | _ => cases hgc
    · split at h
      · cases h
        simp
      · cases h
    · cases h

theorem conforms_evaluate {n m : Node} (h : n.evaluate ns = .ok m) : m.Conforms := by
  obtain ⟨f, hf, h⟩ := exists_of_bind_eq_ok h
  cases f with
  | node k =>
    cases h
    exact conforms_evaluateField hf m (List.mem_singleton_self m)
  | _ => cases h

end Node

namespace FilePass

variable {p : FilePass} {n n' : Node}

theorem conforms_arrowFunction {parameter : String} {body : Node} (span : Option Span)
    (hb : body.Conforms) :
    ((Node.arrowFunction [.parameter parameter] body).withSpan span).Conforms := by
  have hparameter : (Node.parameter parameter).Conforms :=
    Node.conforms_plain rfl (by simpa using Node.conforms_identifier parameter)
  refine (Node.conforms_iff _).mpr ⟨rfl, ?_⟩
  simpa [Node.arrowFunction, Node.withSpan, Node.plain, Node.children, Node.fields] using
    ⟨hparameter, hb⟩

theorem conforms_constStatement (name : String) {e : Node} (he : e.Conforms) :
    (Node.constStatement name e).Conforms := by
  refine Node.conforms_plain rfl (List.forall_mem_singleton.mpr ?_)
  refine Node.conforms_plain rfl (List.forall_mem_singleton.mpr ?_)
  exact Node.conforms_plain rfl (by simpa using ⟨Node.conforms_identifier name, he⟩)

theorem conforms_assemble {t : Node} (span : Option Span) (ht : t.Conforms) :
    ((p.assemble t).withSpan span).Conforms := by
  unfold assemble
  refine conforms_arrowFunction span ?_
  cases p.options.moduleFormat with
  | esModule => exact ht
  | commonJs =>
    have hcall := Node.conforms_call (Node.conforms_identifier "require")
      (List.forall_mem_singleton.mpr (Node.conforms_stringLiteral p.options.factoryModule))
    have hconst := conforms_constStatement p.options.factoryNamespace hcall
    have hreturn : (Node.returnStatement (some t)).Conforms :=
      Node.conforms_plain rfl (List.forall_mem_singleton.mpr ht)
    exact Node.conforms_plain rfl (by simpa using ⟨hconst, hreturn⟩)

theorem conforms_payload {c : Compilation} {e : Node} (he : e.Conforms) : (c.payload e).Conforms :=
  Node.conforms_call he (List.forall_mem_singleton.mpr (Node.conforms_identifier _))

/-- The recursion goes from a tree that conforms to trees that do. -/
theorem Calls.conforms {m : Node} (h : p.Calls n m) (hn : n.Conforms) : m.Conforms := by
  cases h with
  | replacement hs h =>
    obtain ⟨t, rfl, ht⟩ := assembles_expandSite hn.templated hs h
    refine conforms_assemble n.span (ht.conforms fun hole hhole => ?_)
    obtain ⟨e, he, rfl⟩ := List.mem_map.mp hhole
    have hsub : e ∈ n.preorder := Node.mem_preorder_of_mem_substitutions he
    exact conforms_payload fun m hm =>
      hn m ((Node.preorder_sublist_of_mem_preorder hsub).subset hm)
  | child _ hc => exact ((Node.conforms_iff n).mp hn).2 m hc

theorem Rewrites.conforms (h : p.Rewrites n n') (hn : n.Conforms) : n'.Conforms := by
  refine induct (R := fun n n' => n.Conforms → n'.Conforms) ?_ ?_ h hn
  · intro n n' _ hkeeps _ hn
    obtain ⟨hf, hc⟩ := (Node.conforms_iff n).mp hn
    refine (Node.conforms_iff n').mpr ⟨?_, fun c' hc' => ?_⟩
    · rw [← hkeeps.kind, ← checkFields_congr n.kind hkeeps.forms]
      exact hf
    · obtain ⟨c, hmem, hcc⟩ := hkeeps.swap.mem_children hc'
      exact hcc (hc c hmem)
  · intro n body parts _ hparts ih hbody hn
    refine conforms_assemble n.span (hbody.conforms fun hole hhole => ?_)
    obtain ⟨q, hq, rfl⟩ := List.mem_map.mp hhole
    have hsub : q.1 ∈ n.preorder := Node.mem_preorder_of_mem_substitutions (hparts q hq)
    exact conforms_payload (ih q hq fun m hm =>
      hn m ((Node.preorder_sublist_of_mem_preorder hsub).subset hm))

/-- Of the kinds in the schema, those that have statements have nothing else. -/
theorem withField_statements_cases {tree : Node} (ht : tree.Conforms) (ss : List Node) :
    tree.withField .statements (.list ss) = tree ∨
      tree.kind.schema = [(.statements, .list)] ∧
      tree.fields = [.list (tree.list .statements)] ∧
      tree.withField .statements (.list ss) = .mk tree.kind tree.mark [.list ss] := by
  unfold Node.withField
  split
  · next i hi =>
    have hschema : tree.kind.schema = [(.statements, .list)] ∧ i = 0 := by
      cases h : tree.kind <;> rw [h] at hi <;> cases hi <;> exact ⟨rfl, rfl⟩
    obtain ⟨hschema, rfl⟩ := hschema
    obtain ⟨mark, fields, htree, hfields⟩ := ht.eq_mk rfl
    rw [hschema] at hfields
    simp only [List.forall₂_cons_left_iff, List.forall₂_nil_left_iff, Field.fits_list_iff] at hfields
    obtain ⟨_, _, ⟨old, rfl⟩, rfl, rfl⟩ := hfields
    have hfields : tree.fields = [.list old] := congrArg Node.fields htree
    have hlist : tree.list .statements = old := by
      simp [Node.list, Node.field?, hi, hfields]
    refine .inr ⟨hschema, by rw [hfields, hlist], ?_⟩
    rw [hfields]
    rfl
  · exact .inl rfl

theorem conforms_withField_statements {tree : Node} (ht : tree.Conforms) {ss : List Node}
    (hss : ∀ s ∈ ss, s.Conforms) : (tree.withField .statements (.list ss)).Conforms := by
  obtain heq | ⟨hschema, -, heq⟩ := withField_statements_cases ht ss
  · rwa [heq]
  · rw [heq]
    refine (Node.conforms_mk_iff _ _ _).mpr ⟨?_, by simpa using hss⟩
    rw [checkFields_eq_ok_iff, hschema]
    simp

theorem conforms_withFactoryImport {tree tree' : Node} {s s' : Progress} (ht : tree.Conforms)
    (h : Pass.Yields (p.withFactoryImport tree) s tree' s') : tree'.Conforms := by
  obtain ⟨-, -, rfl | ⟨-, rfl⟩⟩ := withFactoryImport_yields h
  · exact ht
  · exact conforms_withField_statements ht (List.forall_mem_cons.mpr
      ⟨(Node.allShaped_defaultImport _ _).conforms, fun _ => ht.of_mem_list⟩)

end FilePass

/-- A file that conforms expands to one that does, whatever the options and the model. -/
theorem Compilation.conforms_expandFile {c : Compilation} {file : SourceFile} {ids ids' : IdSupply}
    {out : ExpandedFile} (hf : file.tree.Conforms)
    (h : c.expandFile file ids = (.ok out, ids')) : out.tree.Conforms := by
  obtain ⟨imports, -, ⟨-, rfl⟩ | ⟨tree, s, s', htree, himport, -, -⟩⟩ := expandFile_yields h
  · exact hf
  · exact FilePass.conforms_withFactoryImport
      ((FilePass.rewrites_expandAll hf.templated htree).conforms hf) himport

theorem Program.conforms_ofFiles {files : List SourceFile} {file : SourceFile}
    (h : ∀ f ∈ files, f.tree.Conforms) (hfile : file ∈ (ofFiles files).files) :
    file.tree.Conforms := by
  obtain ⟨f, hf, next, rfl⟩ := exists_of_mem_ofFiles hfile
  exact (Node.isSimulation_numbers 0).conforms ⟨next, Nat.zero_le _, rfl⟩ (h f hf)

/-- Every node of every tree that is produced has the fields of its kind: what is read, what is
synthesized for a fragment, what is spliced from payloads that conform, what an expression builds, and
what a file of a program expands to, with every tree that its expansion comes to on the way. -/
theorem trees_conform :
    (∀ source tree, parse source = .ok tree → tree.Conforms) ∧
    (∀ ns (fragment : Node), fragment.Conforms → (fragment.synthesize ns).Conforms) ∧
    (∀ ns (n : Node) (r : Registry), n.Conforms → (∀ e ∈ r.entries, e.2.payload.Conforms) →
      (n.splice ns r).1.Conforms) ∧
    (∀ ns (n m : Node), n.evaluate ns = .ok m → m.Conforms) ∧
    (∀ files : List SourceFile, (∀ f ∈ files, f.tree.Conforms) →
      ∀ file ∈ (Program.ofFiles files).files, ∀ options,
        (∀ imports n, Relation.ReflTransGen
          (FilePass.Calls ⟨⟨(Program.ofFiles files).model, options⟩, file, imports⟩) file.tree n →
          n.Conforms) ∧
        ∀ ids out ids', Compilation.expandFile ⟨(Program.ofFiles files).model, options⟩ file ids =
          (.ok out, ids') → out.tree.Conforms) := by
  refine ⟨fun source tree h => ?_, fun ns fragment _ => Node.conforms_synthesize fragment,
    fun ns n r hn hr => (Node.conforms_splice ns n r hn hr).1,
    fun ns n m h => Node.conforms_evaluate h, fun files hfiles file hfile options => ?_⟩
  · exact fun m hm => ((parse_allRead h).1 m hm).shaped.fields
  have hf := Program.conforms_ofFiles hfiles hfile
  refine ⟨fun imports n h => ?_, fun ids out ids' h => Compilation.conforms_expandFile hf h⟩
  induction h with
  | refl => exact hf
  | tail _ hcall ih => exact hcall.conforms ih

/-- A use site in a substitution of another: what the file expands to conforms. -/
theorem trees_conform_nested :
    ∃ files, files = (SourceFile.parse "a.ts"
      "import \x7b f \x7d from \"ts-transform-creator\"; f`$\x7bf`b`\x7d + 1`;").toOption.toList ∧
    ∃ file ∈ (Program.ofFiles files).files, ∃ out ids',
      Compilation.expandFile ⟨(Program.ofFiles files).model, {}⟩ file .sequential =
        (.ok out, ids') ∧ out.expansions = 2 ∧ out.tree.Conforms := by
  obtain ⟨files, hfiles, hcheck⟩ : ∃ files, files = (SourceFile.parse "a.ts"
      "import \x7b f \x7d from \"ts-transform-creator\"; f`$\x7bf`b`\x7d + 1`;").toOption.toList ∧
      (Program.ofFiles files).files.any (fun file =>
        (Compilation.expandFile ⟨(Program.ofFiles files).model, {}⟩ file .sequential).1.toOption.any
          fun out => out.expansions == 2) = true :=
    ⟨_, rfl, by decide +kernel⟩
  obtain ⟨file, hfile, h⟩ := List.any_eq_true.mp hcheck
  obtain ⟨out, ids', hout, htwo⟩ := Compilation.exists_ok_fst_of_any h
  obtain ⟨hparse, -, -, -, hexpand⟩ := trees_conform
  have hconforms : ∀ f ∈ files, f.tree.Conforms := by
    intro f hf
    obtain ⟨tree, htree, hname⟩ :=
      SourceFile.parse_eq_ok (SourceFile.parse_of_mem_toList (hfiles ▸ hf))
    exact hname ▸ hparse _ tree htree
  exact ⟨files, hfiles, file, hfile, out, ids', hout, eq_of_beq htwo,
    (hexpand files hconforms file hfile {}).2 _ out ids' hout⟩

end Quasiquote
