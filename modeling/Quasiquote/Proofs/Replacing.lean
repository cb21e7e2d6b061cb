import Quasiquote.Proofs.Identity
import Quasiquote.Proofs.ScopeTable
import Quasiquote.Proofs.Shielding

namespace Quasiquote

namespace Node

variable {n m t : Node} {ns : String} {holes : List Node}

theorem allShaped_constStatement {name : String} {e : Node} (he : e.AllShaped) :
    (constStatement name e).AllShaped := by
  have hdeclaration : (plain .variableDeclaration
      [.node (identifier name), .absent, .node e]).AllShaped :=
    allShaped_plain rfl rfl (by simpa using ⟨allShaped_identifier name, he⟩)
  refine allShaped_plain rfl rfl (List.forall_mem_singleton.mpr ?_)
  refine (allShaped_iff _).mpr ⟨⟨rfl, ?_⟩, List.forall_mem_singleton.mpr hdeclaration⟩
  rintro _ _ ⟨⟩
  exact List.forall_mem_singleton.mpr (List.mem_singleton_self _)

def Tame (n : Node) : Prop :=
  ∀ x ∈ n.preorder, x.id? = none →
    x.kind ≠ .taggedTemplateExpression ∧ x.kind ≠ .importDeclaration

theorem tame_iff (n : Node) : n.Tame ↔ (n.id? = none →
    n.kind ≠ .taggedTemplateExpression ∧ n.kind ≠ .importDeclaration) ∧ ∀ c ∈ n.children, c.Tame := by
  simp only [Tame]
  rw [preorder_eq]
  simp only [List.forall_mem_cons, List.forall_mem_flatMap]

theorem tame_plain_iff {kind : Kind} {fields : List Field} : (plain kind fields).Tame ↔
    (kind ≠ .taggedTemplateExpression ∧ kind ≠ .importDeclaration) ∧
      ∀ c ∈ fields.flatMap Field.nodes, c.Tame := by
  rw [tame_iff]
  simp [plain, id?, mark, Node.kind, children, Node.fields]

theorem Wraps.tame (h : t.Wraps ns holes) (hh : ∀ n ∈ holes, n.Tame) : t.Tame := by
  induction h with
  | hole h => exact hh _ h
  | text s => simp [stringLiteral, tame_plain_iff]
  | boolean b => cases b <;> simp [Node.boolean, tame_plain_iff]
  | name s => simp [identifier, tame_plain_iff]
  | array _ ih => simpa [Node.array, tame_plain_iff] using ih
  | factoryCall _ ih =>
    simpa [Node.factoryCall, call, propertyAccess, identifier, tame_plain_iff] using ih

/-- A template with a tag or an import in a tame tree was there before it was numbered. -/
theorem Renumbers.key_lt_of_tame {bound : Nat} {x : Node} (h : n.Renumbers bound m) (hn : n.Tame)
    (hx : x ∈ m.preorder)
    (hk : x.kind = .taggedTemplateExpression ∨ x.kind = .importDeclaration) : x.key < bound := by
  obtain ⟨y, hy, hyx⟩ := (isSimulation_renumbers bound).mem_preorder h hx
  rw [hyx.key_lt_iff]
  by_contra hnone
  have hkinds := hn y hy (by simpa using hnone)
  rw [(isSimulation_renumbers bound y x hyx).kind] at hkinds
  exact hk.elim hkinds.1 hkinds.2

end Node

namespace FilePass

variable {p : FilePass} {n n' t : Node} {span : Option Span}

theorem allShaped_assemble (ht : t.AllShaped) : ((p.assemble t).withSpan span).AllShaped := by
  unfold assemble
  refine Node.allShaped_arrowFunction ?_
  split
  · exact ht
  · refine Node.allShaped_plain rfl rfl (List.forall_mem_cons.mpr
      ⟨Node.allShaped_constStatement ?_, List.forall_mem_singleton.mpr ?_⟩)
    · exact Node.allShaped_call (Node.allShaped_identifier _)
        (List.forall_mem_singleton.mpr (Node.allShaped_plain rfl rfl nofun))
    · exact Node.allShaped_plain rfl rfl (List.forall_mem_singleton.mpr ht)

theorem tame_assemble (ht : t.Tame) : ((p.assemble t).withSpan span).Tame := by
  have hbody : ∀ body : Node, body.Tame →
      ((Node.arrowFunction [.parameter p.options.parameterName] body).withSpan span).Tame := by
    intro body hb
    refine (Node.tame_iff _).mpr ⟨fun _ => ⟨nofun, nofun⟩, List.forall_mem_cons.mpr ⟨?_,
      List.forall_mem_singleton.mpr hb⟩⟩
    simp [Node.parameter, Node.identifier, Node.tame_plain_iff]
  refine hbody _ ?_
  split
  · exact ht
  · simpa [Node.block, Node.constStatement, Node.returnStatement, Node.call, Node.identifier,
      Node.stringLiteral, Node.tame_plain_iff, Field.ofOption] using ht

theorem Rewrites.allShaped (h : p.Rewrites n n') (hn : n.AllShaped) : n'.AllShaped := by
  refine (induct (R := fun n n' => p.Rewrites n n' ∧ (n.AllShaped → n'.AllShaped)) ?_ ?_ h).2 hn
  · intro n n' hs hkeeps hmark
    refine ⟨rewrites_of_keeps hs (hkeeps.imp fun _ _ => And.left) hmark, fun hn => ?_⟩
    refine (Node.allShaped_iff n').mpr ⟨⟨?_, fun l kinds hrule c' hc' => ?_⟩, fun c' hc' => ?_⟩
    · rw [← hkeeps.kind, ← checkFields_congr n.kind hkeeps.forms]
      exact hn.shaped.fields
    · rw [← hkeeps.kind] at hrule
      obtain ⟨c, hc, hcc, -⟩ := hkeeps.swap.mem_nodesAt hc'
      have hkind := hn.shaped.children l kinds hrule c hc
      have hsite : p.isUseSite c = false := Bool.eq_false_iff.mpr fun hs => by
        have hinert := Kind.isInert_of_childRule? hrule hkind
        simp [kind_of_isUseSite hs, Kind.isInert] at hinert
      rwa [← (hcc.keeps hsite).1.kind]
    · obtain ⟨c, hc, hcc⟩ := hkeeps.swap.mem_children hc'
      exact hcc.2 (hn.of_mem_children hc)
  · intro n body parts hs hparts h hbody
    refine ⟨.site hs hparts (fun q hq => (h q hq).1) hbody, fun hn => allShaped_assemble ?_⟩
    refine hbody.allShaped fun hole hhole => ?_
    obtain ⟨q, hq, rfl⟩ := List.mem_map.mp hhole
    have hsub : q.1 ∈ n.preorder := Node.mem_preorder_of_mem_substitutions (hparts q hq)
    exact Node.allShaped_call ((h q hq).2 (hn.of_mem_preorder hsub))
      (List.forall_mem_singleton.mpr (Node.allShaped_identifier _))

theorem Rewrites.tame (h : p.Rewrites n n') (hn : ∀ x ∈ n.preorder, x.id?.isSome = true) :
    n'.Tame := by
  refine induct (R := fun n n' => (∀ x ∈ n.preorder, x.id?.isSome = true) → n'.Tame) ?_ ?_ h hn
  · intro n n' _ hkeeps hmark hn
    refine (Node.tame_iff n').mpr ⟨fun hnone => ?_, fun c' hc' => ?_⟩
    · have hid := hn n n.self_mem_preorder
      rw [Node.id?, ← hmark, ← Node.id?, hnone] at hid
      cases hid
    · obtain ⟨c, hc, hcc⟩ := hkeeps.swap.mem_children hc'
      exact hcc fun x hx => hn x ((Node.preorder_sublist_of_mem_preorder
        (Node.mem_preorder_of_mem_children hc)).subset hx)
  · intro n body parts _ hparts h hbody hn
    refine tame_assemble (hbody.tame fun hole hhole => ?_)
    obtain ⟨q, hq, rfl⟩ := List.mem_map.mp hhole
    have hsub : q.1 ∈ n.preorder := Node.mem_preorder_of_mem_substitutions (hparts q hq)
    have hpart := h q hq fun x hx => hn x ((Node.preorder_sublist_of_mem_preorder hsub).subset hx)
    simpa [Compilation.payload, Node.call, Node.identifier, Node.tame_plain_iff] using hpart

/-- A template with a tag or an import in an expanded file was there before. -/
theorem Becomes.key_lt_of_kind {bound : Nat} {m x : Node} (h : p.Becomes bound n m)
    (hx : x ∈ m.preorder)
    (hk : x.kind = .taggedTemplateExpression ∨ x.kind = .importDeclaration) : x.key < bound := by
  obtain ⟨n', hn, hm⟩ := h.rewritten
  exact hm.key_lt_of_tame (hn.tame h.known) hx hk

end FilePass

namespace Program

variable {before after : List SourceFile} {file : SourceFile}

theorem numberFiles_of_known {files : List SourceFile} {next : Nat}
    (h : ∀ f ∈ files, ∀ m ∈ f.tree.preorder, m.id?.isSome = true) :
    numberFiles files next = files := by
  induction files generalizing next with
  | nil => rfl
  | cons f files ih =>
    obtain ⟨hf, hfiles⟩ := List.forall_mem_cons.mp h
    have htree : (f.tree.number next).1 = f.tree :=
      Node.Numbers.eq_of_isSome ⟨next, Nat.le_refl _, rfl⟩ hf
    simp only [numberFiles, htree, ih hfiles]

/-- Files whose nodes have identities stay as they are. -/
theorem numberFiles_append (file : SourceFile) (next : Nat)
    (hbefore : ∀ f ∈ before, ∀ m ∈ f.tree.preorder, m.id?.isSome = true)
    (hafter : ∀ f ∈ after, ∀ m ∈ f.tree.preorder, m.id?.isSome = true) :
    ∃ next', next ≤ next' ∧ numberFiles (before ++ file :: after) next =
      before ++ file.withTree (file.tree.number next').1 :: after := by
  induction before generalizing next with
  | nil =>
    refine ⟨next, Nat.le_refl _, ?_⟩
    simp only [List.nil_append, numberFiles, numberFiles_of_known hafter]
    rfl
  | cons f before ih =>
    obtain ⟨hf, hbefore⟩ := List.forall_mem_cons.mp hbefore
    have htree : (f.tree.number next).1 = f.tree :=
      Node.Numbers.eq_of_isSome ⟨next, Nat.le_refl _, rfl⟩ hf
    obtain ⟨next', hle, heq⟩ := ih (f.tree.number next).2 hbefore
    refine ⟨next', Nat.le_trans (f.tree.draws_number next).le hle, ?_⟩
    simp only [List.cons_append, numberFiles, htree, heq]

def startOfFiles (files : List SourceFile) : Nat :=
  files.foldl (fun next file => max next file.tree.freshId) 1

theorem freshId_le_startOfFiles {files : List SourceFile} {f : SourceFile} (hf : f ∈ files) :
    f.tree.freshId ≤ startOfFiles files := by
  have hfold : ∀ (files : List SourceFile) (start : Nat),
      start ≤ files.foldl (fun next file => max next file.tree.freshId) start ∧
      ∀ f ∈ files, f.tree.freshId ≤ files.foldl (fun next file => max next file.tree.freshId) start := by
    intro files
    induction files with
    | nil => simp
    | cons g files ih =>
      intro start
      obtain ⟨hstart, hrest⟩ := ih (max start g.tree.freshId)
      exact ⟨Nat.le_trans (Nat.le_max_left _ _) hstart,
        List.forall_mem_cons.mpr ⟨Nat.le_trans (Nat.le_max_right _ _) hstart, hrest⟩⟩
  exact (hfold files 1).2 f hf

theorem keysBelow_startOfFiles {files : List SourceFile} {f : SourceFile} (hf : f ∈ files) :
    Node.KeysBelow (startOfFiles files) [f.tree] := fun m hm id hid =>
  Nat.lt_of_lt_of_le (f.tree.keysBelow_freshId m hm id hid) (freshId_le_startOfFiles hf)

/-- A program with one file whose nodes may lack identities. -/
theorem files_ofFiles_append (file : SourceFile)
    (hbefore : ∀ f ∈ before, ∀ m ∈ f.tree.preorder, m.id?.isSome = true)
    (hafter : ∀ f ∈ after, ∀ m ∈ f.tree.preorder, m.id?.isSome = true) :
    ∃ tree, (ofFiles (before ++ file :: after)).files = before ++ file.withTree tree :: after ∧
      file.tree.Renumbers (startOfFiles (before ++ file :: after)) tree ∧
      ∀ k, startOfFiles (before ++ file :: after) ≤ k → Node.countKey k [tree] ≤ 1 := by
  obtain ⟨next, hle, heq⟩ := numberFiles_append file (startOfFiles (before ++ file :: after)) hbefore
    hafter
  have hbelow : Node.KeysBelow (startOfFiles (before ++ file :: after)) [file.tree] :=
    keysBelow_startOfFiles (List.mem_append_right before List.mem_cons_self)
  exact ⟨_, heq, ⟨hbelow, next, hle, rfl⟩, fun k hk => Node.countKey_number_le_one hbelow hk next⟩

theorem countKey_eq_zero {files : List SourceFile} {bound k : Nat} (hk : bound ≤ k)
    (hknown : ∀ f ∈ files, ∀ m ∈ f.tree.preorder, m.id?.isSome = true)
    (hbelow : ∀ f ∈ files, Node.KeysBelow bound [f.tree]) :
    Node.countKey k (files.map SourceFile.tree) = 0 := by
  refine List.countP_eq_zero.mpr fun m hm hkey => ?_
  obtain ⟨tree, htree, hm⟩ := List.mem_flatMap.mp hm
  obtain ⟨f, hf, rfl⟩ := List.mem_map.mp htree
  obtain ⟨id, hid⟩ := Option.isSome_iff_exists.mp (hknown f hf m hm)
  have hlt := hbelow f hf m (by simpa using hm) id hid
  have hkey : id = k := by simpa [Node.key, hid] using hkey
  omega

/-- The identities of a program are still different when a tree in which none occurs more often takes
the place of another and its new nodes are numbered. -/
theorem countKey_replaced {tree out tree' : Node} {bound : Nat}
    (hids : ∀ m ∈ tree.preorder, m.id?.isSome = true)
    (hunique : ∀ k, Node.countKey k (before.map SourceFile.tree ++ tree ::
      after.map SourceFile.tree) ≤ 1)
    (hknown : ∀ f, f ∈ before ∨ f ∈ after → ∀ m ∈ f.tree.preorder, m.id?.isSome = true)
    (hbelow : ∀ f, f ∈ before ∨ f ∈ after → Node.KeysBelow bound [f.tree])
    (hcount : ∀ k, out.countId k ≤ tree.countId k) (hnumbers : out.Renumbers bound tree')
    (hnew : ∀ k, bound ≤ k → Node.countKey k [tree'] ≤ 1) (k : Nat) :
    Node.countKey k (before.map SourceFile.tree ++ tree' :: after.map SourceFile.tree) ≤ 1 := by
  have hone := hunique k
  rw [Node.countKey_append, Node.countKey_cons] at hone ⊢
  obtain hk | hk := Nat.lt_or_ge k bound
  · have hle := hcount k
    rw [← Node.countKey_eq_countId hids, ← hnumbers.2.countKey_eq hk] at hle
    exact Nat.le_trans (Nat.add_le_add_left (Nat.add_le_add_right hle _) _) hone
  · rw [countKey_eq_zero hk (fun f hf => hknown f (.inl hf)) fun f hf => hbelow f (.inl hf),
      countKey_eq_zero hk (fun f hf => hknown f (.inr hf)) fun f hf => hbelow f (.inr hf),
      Nat.zero_add, Nat.add_zero]
    exact hnew k hk

/-- A file of a program may be replaced by one with other nodes, if each identity occurs in it no more
often than before. -/
theorem isRead_replaced {first : Program} {out : Node} (hread : first.IsRead)
    (hfiles : first.files = before ++ file :: after) (hshaped : out.AllShaped)
    (hkind : out.kind = .sourceFile) (hcount : ∀ k, out.countId k ≤ file.tree.countId k) :
    ∃ bound tree, (ofFiles (before ++ file.withTree out :: after)).files =
        before ++ file.withTree tree :: after ∧
      out.Renumbers bound tree ∧ (ofFiles (before ++ file.withTree out :: after)).IsRead := by
  have hmem : ∀ f, f ∈ before ∨ f ∈ after → f ∈ first.files := by
    intro f hf
    rw [hfiles, List.mem_append, List.mem_cons]
    exact hf.imp_right .inr
  have hfile : file ∈ first.files := hfiles ▸ List.mem_append_right before List.mem_cons_self
  have hknown : ∀ f, f ∈ before ∨ f ∈ after → ∀ m ∈ f.tree.preorder, m.id?.isSome = true :=
    fun f hf => hread.ids f (hmem f hf)
  obtain ⟨tree, heq, hnumbers, hnew⟩ := files_ofFiles_append (file.withTree out)
    (fun f hf => hknown f (.inl hf)) fun f hf => hknown f (.inr hf)
  refine ⟨_, tree, heq, hnumbers, ?_⟩
  have hcases : ∀ f ∈ (ofFiles (before ++ file.withTree out :: after)).files,
      f = file.withTree tree ∨ f ∈ first.files := by
    intro f hf
    rw [heq, List.mem_append, List.mem_cons] at hf
    obtain hf | rfl | hf := hf
    · exact .inr (hmem f (.inl hf))
    · exact .inl rfl
    · exact .inr (hmem f (.inr hf))
  obtain ⟨next, -, hnext⟩ := hnumbers.2
  refine ⟨fun f hf => ?_, fun f hf => ?_, fun f hf => ?_, fun k => ?_⟩
  · obtain rfl | hf := hcases f hf
    · exact .of_bare (hnext ▸ Node.bare_number out next) hshaped
    · exact hread.shaped f hf
  · obtain rfl | hf := hcases f hf
    · exact (Node.isSimulation_renumbers _ _ _ hnumbers).kind.symm.trans hkind
    · exact hread.kind f hf
  · obtain rfl | hf := hcases f hf
    · exact hnext ▸ Node.isSome_id?_number out next
    · exact hread.ids f hf
  · have hunique := hread.unique
    simp only [hfiles, List.map_append, List.map_cons] at hunique
    rw [heq, List.map_append, List.map_cons]
    refine countKey_replaced (hread.ids file hfile) hunique hknown (fun f hf => ?_) hcount hnumbers
      hnew k
    refine keysBelow_startOfFiles ?_
    rw [List.mem_append, List.mem_cons]
    exact hf.imp_right .inr

end Program

/-- A file has been expanded and takes its own place in a program. Its statements have become others,
and the import of the factories may stand in front of them. -/
structure FilePass.Replaced (p : FilePass) (first second : Program) (bound : Nat)
    (rebound : SourceFile) : Prop where
  within : p.Within first
  read : second.IsRead
  file : rebound ∈ second.files
  mark : rebound.tree.mark = p.file.tree.mark
  statements : ∃ added kept, rebound.tree.list .statements = added ++ kept ∧
    (∀ s ∈ added, p.namespaceDeclaration? = none ∧
      (Node.defaultImport p.options.factoryNamespace p.options.factoryModule).Renumbers bound s) ∧
    List.Forall₂ (p.Becomes bound) (p.file.tree.list .statements) kept

namespace Compilation

variable {first : Program} {before after : List SourceFile} {file : SourceFile} {options : Options}
  {ids ids' : IdSupply} {out : ExpandedFile}

/-- The tree of an expanded file: its statements, rewritten, and perhaps the import of the factories
before them. -/
theorem expandFile_statements (hshaped : file.tree.AllShaped) (hkind : file.tree.kind = .sourceFile)
    {c : Compilation} (h : c.expandFile file ids = (.ok out, ids')) :
    ∃ p : FilePass, p.compilation = c ∧ p.file = file ∧
      tagImports file.tree c.options.moduleSpecifier = .ok p.imports ∧
      out.tree.AllShaped ∧ out.tree.kind = .sourceFile ∧ out.tree.mark = file.tree.mark ∧
      (∀ k, out.tree.countId k ≤ file.tree.countId k) ∧
      ∃ added kept, out.tree.list .statements = added ++ kept ∧
        (∀ s ∈ added, p.namespaceDeclaration? = none ∧
          s = .defaultImport c.options.factoryNamespace c.options.factoryModule) ∧
        List.Forall₂ p.Rewrites (file.tree.list .statements) kept := by
  have hconforms : file.tree.Conforms := fun m hm => (hshaped m hm).fields
  obtain ⟨p, rfl, rfl, himports, tree, hrewrites, hcount, hout⟩ :=
    expandFile_rewrites hconforms.templated h
  have hsite : p.isUseSite p.file.tree = false := Bool.eq_false_iff.mpr fun hs => by
    have htagged := FilePass.kind_of_isUseSite hs
    rw [hkind] at htagged
    cases htagged
  obtain ⟨hkeeps, hmark⟩ := hrewrites.keeps hsite
  have htshaped := hrewrites.allShaped hshaped
  have htkind : tree.kind = .sourceFile := hkeeps.kind.symm.trans hkind
  have hstatements := hkeeps.forall₂_list .statements
  refine ⟨p, rfl, rfl, himports, ?_⟩
  obtain rfl | ⟨hnone, heq⟩ := hout
  · exact ⟨htshaped, htkind, hmark, hcount, [], _, rfl, nofun, hstatements⟩
  · rw [heq]
    refine ⟨?_, (FilePass.kind_withField _ _ _).trans htkind,
      (Node.mark_withField _ _ _).trans hmark, fun k => ?_, [_], _,
      Node.list_withField_statements htshaped.shaped htkind _,
      List.forall_mem_singleton.mpr ⟨hnone, rfl⟩, hstatements⟩
    · refine Node.allShaped_withField_statements htshaped htkind (List.forall_mem_cons.mpr
        ⟨Node.allShaped_defaultImport _ _, fun s hs => ?_⟩)
      exact htshaped.of_mem_children (Node.mem_children_of_mem_list hs)
    · rw [Node.countId_withImport fun m hm => (htshaped m hm).fields]
      exact hcount k

theorem expandFile_replaced (hread : first.IsRead) (hfiles : first.files = before ++ file :: after)
    (h : expandFile ⟨first.model, options⟩ file ids = (.ok out, ids')) :
    ∃ (p : FilePass) (bound : Nat) (rebound : SourceFile),
      p.compilation = ⟨first.model, options⟩ ∧ p.file = file ∧
      tagImports file.tree options.moduleSpecifier = .ok p.imports ∧
      (Program.ofFiles (before ++ file.withTree out.tree :: after)).files =
        before ++ rebound :: after ∧
      rebound.name = file.name ∧ rebound.source = file.source ∧
      out.tree.Renumbers bound rebound.tree ∧
      p.Replaced first (Program.ofFiles (before ++ file.withTree out.tree :: after)) bound
        rebound := by
  have hfile : file ∈ first.files := hfiles ▸ List.mem_append_right before List.mem_cons_self
  obtain ⟨p, hc, rfl, himports, hshaped, hkind, hmark, hcount, added, kept, hlist, hadded, hkept⟩ :=
    expandFile_statements (hread.shaped file hfile) (hread.kind file hfile) h
  obtain ⟨bound, tree, hsecond, hnumbers, hread'⟩ :=
    Program.isRead_replaced hread hfiles hshaped hkind hcount
  refine ⟨p, bound, p.file.withTree tree, hc, rfl, himports, hsecond, rfl, rfl, hnumbers,
    ⟨hread, by rw [hc], hfile⟩, hread', ?_, ?_, ?_⟩
  · rw [hsecond]
    exact List.mem_append_right before List.mem_cons_self
  · have hid := hread.ids p.file hfile p.file.tree p.file.tree.self_mem_preorder
    rw [Node.id?, ← hmark] at hid
    exact (hnumbers.2.mark_of_some hid).trans hmark
  · have hrelated := (Node.isSimulation_renumbers bound _ _ hnumbers).forall₂_list .statements
    rw [hlist] at hrelated
    obtain ⟨added', kept', heq, hadded', hkept'⟩ := exists_append_of_forall₂ hrelated
    refine ⟨added', kept', heq, fun s' hs' => ?_, ?_⟩
    · obtain ⟨s, hs, hss⟩ := exists_of_mem_forall₂ hadded'.flip hs'
      obtain ⟨hnone, rfl⟩ := hadded s hs
      refine ⟨hnone, ?_⟩
      rwa [FilePass.options, hc]
    · refine forall₂_imp_of_mem (forall₂_comp hkept hkept') fun s hs s' hss => ⟨fun x hx => ?_, hss⟩
      exact hread.ids p.file hfile x ((Node.preorder_sublist_of_mem_preorder
        (Node.mem_preorder_of_mem_children (Node.mem_children_of_mem_list hs))).subset hx)

end Compilation

end Quasiquote
