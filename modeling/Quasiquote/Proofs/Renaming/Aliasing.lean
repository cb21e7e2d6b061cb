import Quasiquote.Proofs.Renaming.Expansion
import Quasiquote.Proofs.Replacing

namespace Quasiquote

theorem Program.allLiteral_ofFiles {files : List SourceFile}
    (h : ∀ f ∈ files, ∃ source, SourceFile.parse f.name source = .ok f) :
    ∀ f ∈ (ofFiles files).files, f.tree.AllLiteral := by
  intro f hf
  obtain ⟨g, hg, k, rfl⟩ := exists_of_mem_ofFiles hf
  obtain ⟨source, hparse⟩ := h g hg
  obtain ⟨tree, htree, heq⟩ := SourceFile.parse_eq_ok hparse
  refine .of_bare (Node.bare_number g.tree k) ?_
  rw [heq]
  exact parse_allLiteral htree

theorem Kind.refersIn_typeNode (k : Kind) : k.refersIn .typeNode = false := by
  cases k <;> rfl

theorem Node.fields_of_propertyName {n : Node} (hk : n.kind = .importSpecifier)
    (hn : checkFields n.kind n.fields = .ok ()) (h : n.child? .propertyName = none) :
    ∃ rest, n.fields = .absent :: rest := by
  obtain ⟨kind, mark, fields⟩ := n
  obtain rfl : kind = .importSpecifier := hk
  have hfields := (checkFields_eq_ok_iff _ _).mp hn
  simp only [Node.kind, Node.fields, Kind.schema, List.forall₂_cons_left_iff,
    List.forall₂_nil_left_iff, Field.fits_optional_iff, Field.fits_node_iff] at hfields
  obtain ⟨_, _, ⟨property, rfl⟩, -, rfl⟩ := hfields
  cases property with
  | none => exact ⟨_, rfl⟩
  | some c => cases h

/-- A module imports a name by a specifier without a property name, and declares it nowhere else. -/
structure Program.Imports (p : Program) (file : SourceFile) (specifier : Node) (name : String) :
    Prop where
  kind : specifier.kind = .importSpecifier
  plain : specifier.child? .propertyName = none
  alone : p.model.declarations (.named file.tree.key name) = [specifier]

namespace Program

variable {p : Program} {file f g : SourceFile} {specifier n m c d y z : Node} {name : String}
  {l : Label}

/-- An identity stands in one file only. -/
theorem IsRead.file_eq (hp : p.IsRead) (hf : f ∈ p.files) (hg : g ∈ p.files)
    (hy : y ∈ f.tree.preorder) (hz : z ∈ g.tree.preorder) (h : z.key = y.key) : f = g := by
  have hone : ∀ {e : SourceFile} {x : Node}, x ∈ e.tree.preorder → x.key = y.key →
      1 ≤ Node.countKey y.key [e.tree] := fun hx hkey =>
    List.countP_pos_iff.mpr ⟨_, by simpa using hx, by simpa using hkey⟩
  let holders : SourceFile → List SourceFile := fun e =>
    if 1 ≤ Node.countKey y.key [e.tree] then [e] else []
  have hholders : ∀ e ∈ p.files, 1 ≤ Node.countKey y.key [e.tree] →
      p.files.flatMap holders = [e] := by
    intro e he hcount
    rw [Node.flatMap_eq_of_countKey SourceFile.tree (fun x _ hx => ?_) he hcount (hp.unique _)]
    · exact if_pos hcount
    · by_contra hno
      exact hx (if_neg hno)
  have heq := (hholders f hf (hone hy rfl)).symm.trans (hholders g hg (hone hz h))
  exact List.singleton_inj.mp heq

/-- A node that has another for its name is the only one. -/
theorem IsRead.eq_of_name (hp : p.IsRead) (hf : f ∈ p.files) (hm : m ∈ f.tree.preorder)
    (hd : d ∈ f.tree.preorder) (hmn : n ∈ m.nodesAt l) (hdn : d.child? .name = some n) :
    m = d ∧ l = .name := by
  obtain ⟨path, hpath⟩ := Node.exists_leads_of_mem_preorder (hp.shaped f hf) hm
  obtain ⟨path', hpath'⟩ := Node.exists_leads_of_mem_preorder (hp.shaped f hf) hd
  have hunique := (hpath.down hmn).unique (hp.countKey_le_one hf n.key)
    (hpath'.down (Node.mem_nodesAt_of_child? hdn)) rfl rfl
  obtain ⟨hhead, -⟩ := List.cons_eq_cons.mp hunique.1
  exact ⟨congrArg Descent.node hhead, congrArg Descent.label hhead⟩

/-- The name of a declaration resolves to a symbol of that declaration. -/
theorem IsRead.exists_of_nameNode (hp : p.IsRead) (hf : f ∈ p.files) (hy : y ∈ f.tree.preorder)
    {b : Binding} (hb : b ∈ y.ownBindings) {symbol : Symbol}
    (h : p.model.resolve? b.nameNode = some symbol) :
    ∃ z ∈ f.tree.preorder, ∃ b' ∈ z.ownBindings, b'.declaration = b.declaration ∧
      b'.name = b.name ∧ symbol = .named z.key b.name := by
  have hdeclared := Node.declaredIn_of_mem_ownBindings hb
  have hsub := Node.preorder_sublist_of_mem_preorder hy
  have hn := hsub.subset hdeclared.nameNode_mem
  have hkind := Node.kind_of_identifier? hdeclared.text
  have hresolution := hp.resolution hf hn h
  generalize hkey : b.nameNode.key = k at hresolution
  cases hresolution with
  | @reference path ss x _ _ hv hname hsymbol =>
    -- the name of a declaration is no reference
    obtain ⟨path', hp', ⟨d, hd, hno⟩, -⟩ := (Node.located_of_mem_ownBindings
      ((hp.shaped f hf).of_mem_preorder hy) hb).name
    obtain ⟨way, hway⟩ := Node.exists_leads_of_mem_preorder (hp.shaped f hf) hy
    obtain ⟨rfl, -⟩ := hv.leads.unique (hp.countKey_le_one hf _) (hway.trans hp') rfl hkey
    rw [hv.refers d (List.mem_append_left _ hd)] at hno
    cases hno
  | @declared z b' hz hb' =>
    have hdeclared' := Node.declaredIn_of_mem_ownBindings hb'
    have hsub' := Node.preorder_sublist_of_mem_preorder hz
    have hnode : b.nameNode = b'.nameNode :=
      hp.eq_of_key hf hf (hsub'.subset hdeclared'.nameNode_mem) hn hkey
    have hname : b'.name = b.name := by
      have htext := hdeclared.text
      rw [hnode, hdeclared'.text] at htext
      exact Option.some.inj htext
    have hsame := hp.eq_of_name hf (hsub'.subset hdeclared'.mem) (hsub.subset hdeclared.mem)
      (Node.mem_nodesAt_of_child? (hnode ▸ hdeclared'.child)) hdeclared.child
    exact ⟨z, hz, b', hb', hsame.1, hname, by rw [hname]⟩
  | @function z b' hz hb' hfunction =>
    have hmem := (Node.preorder_sublist_of_mem_preorder hz).subset
      (Node.declaredIn_of_mem_ownBindings hb').mem
    rw [← hp.eq_of_key hf hf hmem hn hkey, hkind] at hfunction
    cases hfunction
  | @anonymous x hx hfunction =>
    rw [← hp.eq_of_key hf hf hx hn hkey, hkind] at hfunction
    cases hfunction

/-- A specifier that a module declares is declared in no inner scope. -/
theorem IsRead.eq_tree_of_specifier (hp : p.IsRead) (hf : f ∈ p.files) {b b' : Binding}
    (hb : b ∈ f.tree.ownBindings) (hk : b.declaration.kind = .importSpecifier)
    (hy : y ∈ f.tree.preorder) (hb' : b' ∈ y.ownBindings) (heq : b'.declaration = b.declaration) :
    y = f.tree := by
  have hs := hp.shaped f hf
  obtain ⟨path, hpath, hlabels⟩ := Node.leads_specifier_of_mem_ownBindings hs hb hk
  obtain ⟨path', hpath', hlabels'⟩ := Node.leads_specifier_of_mem_ownBindings
    (hs.of_mem_preorder hy) hb' (heq ▸ hk)
  obtain ⟨way, hway⟩ := Node.exists_leads_of_mem_preorder hs hy
  obtain ⟨rfl, -⟩ := hpath.unique (hp.countKey_le_one hf b.declaration.key) (hway.trans hpath') rfl
    (congrArg Node.key heq)
  have hlength : (path' ++ way).length = 4 := by
    simpa [hp.kind f hf, Kind.isFunctionLike] using congrArg List.length hlabels
  have hle : 4 ≤ path'.length := by
    rw [← path'.length_map Descent.label, hlabels', List.length_append]
    exact Nat.le_add_right 4 _
  obtain rfl : way = [] := by
    rw [List.length_append] at hlength
    exact List.eq_nil_of_length_eq_zero (by omega)
  cases hway
  rfl

namespace Imports

variable (h : p.Imports file specifier name) (hp : p.IsRead) (hfile : file ∈ p.files)

include h hp hfile

theorem filter_ownBindings :
    (file.tree.ownBindings.filter fun b => b.name = name).map Binding.declaration = [specifier] := by
  have halone := h.alone
  rw [Model.declarations, Model.bindings] at halone
  have hscope : ∃ s ∈ p.model.scopes, s.owner = file.tree.key := by
    cases hs : p.model.scope? file.tree.key with
    | none => simp [hs] at halone
    | some s => exact ⟨s, List.mem_of_find?_eq_some hs, by simpa using List.find?_some hs⟩
  obtain ⟨s, hs, hbindings⟩ := Option.map_eq_some_iff.mp
    (hp.bindings_scope? hfile file.tree.self_mem_preorder hscope)
  rw [hs, Option.map_some, Option.getD_some, hbindings] at halone
  exact halone

theorem declaration_eq {b : Binding} (hb : b ∈ file.tree.ownBindings) (hname : b.name = name) :
    b.declaration = specifier := by
  have hmem : b.declaration ∈
      (file.tree.ownBindings.filter fun b => b.name = name).map Binding.declaration :=
    List.mem_map_of_mem (List.mem_filter.mpr ⟨hb, by simpa using hname⟩)
  rw [h.filter_ownBindings hp hfile] at hmem
  exact List.mem_singleton.mp hmem

theorem exists_binding :
    ∃ b ∈ file.tree.ownBindings, b.name = name ∧ b.declaration = specifier := by
  have hmem : specifier ∈
      (file.tree.ownBindings.filter fun b => b.name = name).map Binding.declaration := by
    rw [h.filter_ownBindings hp hfile]
    exact List.mem_singleton_self _
  obtain ⟨b, hb, hdeclaration⟩ := List.mem_map.mp hmem
  obtain ⟨hb, hname⟩ := List.mem_filter.mp hb
  exact ⟨b, hb, by simpa using hname, hdeclaration⟩

theorem resolve?_nameNode (hn : specifier.child? .name = some n) :
    p.model.resolve? n = some (.named file.tree.key name) := by
  obtain ⟨b, hb, hname, hdeclaration⟩ := h.exists_binding hp hfile
  have hdeclared := Node.declaredIn_of_mem_ownBindings hb
  obtain rfl : b.nameNode = n := by
    have hchild := hdeclared.child
    rw [hdeclaration, hn] at hchild
    exact (Option.some.inj hchild).symm
  have hsymbols : file.bindings.symbolsOf b.nameNode.key ≠ [] := by
    have hscope : b ∈ file.moduleScope.bindings := by
      rw [Node.ownBindings_sourceFile (hp.kind file hfile)] at hb
      exact hb
    have hmem : (b.nameNode.key, Symbol.named file.tree.key b.name) ∈ file.bindings.resolutions := by
      refine List.mem_append_left _ (List.mem_flatMap.mpr ⟨b, hscope, ?_⟩)
      dsimp only
      split <;> exact List.mem_cons_self
    exact List.ne_nil_of_mem (List.mem_map_of_mem (List.mem_filter.mpr ⟨hmem, by simp⟩))
  obtain ⟨path, hpath⟩ := Node.exists_leads_of_mem_preorder (hp.shaped file hfile)
    hdeclared.nameNode_mem
  have hresolve := resolve?_eq hp.shaped hfile hpath
    (hp.ids file hfile _ hdeclared.nameNode_mem) (hp.unique _)
  obtain ⟨symbol, rest, hsymbol⟩ := List.exists_cons_of_ne_nil hsymbols
  rw [hsymbol, List.head?_cons] at hresolve
  obtain ⟨y, hy, b', hb', heq, -, rfl⟩ :=
    hp.exists_of_nameNode hfile file.tree.self_mem_preorder hb hresolve
  rw [hresolve, hp.eq_tree_of_specifier hfile hb (hdeclaration ▸ h.kind) hy hb' heq, hname]

theorem exists_nameNode : specifier ∈ file.tree.preorder ∧
      ∃ id, specifier.child? .name = some id ∧ id.identifier? = some name := by
  obtain ⟨b, hb, rfl, rfl⟩ := h.exists_binding hp hfile
  have hdeclared := Node.declaredIn_of_mem_ownBindings hb
  exact ⟨hdeclared.mem, _, hdeclared.child, hdeclared.text⟩

/-- What resolves to the import is its name in the specifier or a reference in its module. -/
theorem of_resolve? (hf : f ∈ p.files) (hn : n ∈ f.tree.preorder)
    (hr : p.model.resolve? n = some (.named file.tree.key name)) :
    f = file ∧ n.identifier? = some name ∧ (specifier.child? .name = some n ∨
      ∃ path, file.tree.Leads path n ∧ ∀ d ∈ path, d.isReference = true) := by
  have hroot : ∀ {y : Node}, y ∈ f.tree.preorder → file.tree.key = y.key → file.tree = y ∧ f = file :=
    fun hy hkey => ⟨hp.eq_of_key hf hfile hy file.tree.self_mem_preorder hkey,
      hp.file_eq hf hfile hy file.tree.self_mem_preorder hkey⟩
  have hresolution := hp.resolution hf hn hr
  generalize hkey : n.key = k at hresolution
  generalize hsymbol : Symbol.named file.tree.key name = symbol at hresolution
  cases hresolution with
  | @reference path ss x _ _ hv hname hlookup =>
    obtain ⟨s, hs, hnamed⟩ := Scope.exists_of_lookup hlookup
    obtain ⟨howner, rfl⟩ := Symbol.named.inj (hsymbol.trans hnamed)
    obtain ⟨y, hy, hyowner, -⟩ := hv.owned s hs
    obtain ⟨-, rfl⟩ := hroot hy (howner.trans hyowner)
    obtain rfl := hp.eq_of_key hf hf hv.mem_preorder hn hkey
    exact ⟨rfl, hname, .inr ⟨path, hv.leads, hv.refers⟩⟩
  | @declared y b hy hb =>
    obtain ⟨howner, rfl⟩ := Symbol.named.inj hsymbol
    obtain ⟨rfl, rfl⟩ := hroot hy howner
    have hdeclared := Node.declaredIn_of_mem_ownBindings hb
    obtain rfl := hp.eq_of_key hf hf hdeclared.nameNode_mem hn hkey
    exact ⟨rfl, hdeclared.text, .inl (h.declaration_eq hp hf hb rfl ▸ hdeclared.child)⟩
  | @function y b hy hb hfunction =>
    obtain ⟨howner, rfl⟩ := Symbol.named.inj hsymbol
    obtain ⟨rfl, rfl⟩ := hroot hy howner
    rw [h.declaration_eq hp hf hb rfl, h.kind] at hfunction
    cases hfunction
  | anonymous => cases hsymbol

/-- What stands below a field that is neither on the way to the specifier nor holds references does
not resolve to the import. -/
theorem resolve?_ne (hf : f ∈ p.files) (hm : m ∈ f.tree.preorder) (hc : c ∈ m.nodesAt l)
    (hno : m.kind.refersIn l = false)
    (hl : l ∉ [.elements, .namedBindings, .importClause, .statements])
    (hname : l = .name → m ≠ specifier) (hd : d ∈ c.preorder) :
    p.model.resolve? d ≠ some (.named file.tree.key name) := by
  intro hr
  have hs := hp.shaped f hf
  obtain ⟨way, hway⟩ := Node.exists_leads_of_mem_preorder hs hm
  have hcm := Node.mem_preorder_of_mem_children (Node.mem_children_of_mem_nodesAt hc)
  have hcs := (hs.of_mem_preorder hm).of_mem_preorder hcm
  obtain ⟨path, hpath⟩ := Node.exists_leads_of_mem_preorder hcs hd
  have hleads := hway.trans (hpath.up hc)
  have hmem : ⟨m, l⟩ ∈ (path ++ [⟨m, l⟩]) ++ way := by simp
  obtain ⟨rfl, -, hid | ⟨path', hpath', href⟩⟩ :=
    h.of_resolve? hp hfile hf hleads.mem_preorder hr
  · obtain ⟨b, hb, -, rfl⟩ := h.exists_binding hp hf
    obtain ⟨spath, hspath, hlabels⟩ := Node.leads_specifier_of_mem_ownBindings hs hb h.kind
    obtain ⟨heq, -⟩ := hleads.unique (hp.countKey_le_one hf d.key)
      (hspath.down (Node.mem_nodesAt_of_child? hid)) rfl rfl
    rw [heq, List.mem_cons] at hmem
    obtain hhead | hmem := hmem
    · exact hname (congrArg Descent.label hhead) (congrArg Descent.node hhead)
    · refine hl ?_
      have hlabel : l ∈ spath.map Descent.label := List.mem_map_of_mem hmem
      rw [hlabels, hp.kind f hf] at hlabel
      simpa [Kind.isFunctionLike] using hlabel
  · obtain ⟨rfl, -⟩ := hleads.unique (hp.countKey_le_one hf d.key) hpath' rfl rfl
    have hreference : m.kind.refersIn l = true := href ⟨m, l⟩ hmem
    rw [hno] at hreference
    cases hreference

end Imports

/-- The change of a specifier to one that imports the name under another one: the names that resolve
to the symbol of the import get the other one for their text. -/
def aliasing (p : Program) (file : SourceFile) (specifier : Node) (old new : String) (mark : Mark) :
    Renaming where
  renames id := p.model.resolutions.lookup id = some (.named file.tree.key old)
  scope := file.tree.key
  old := old
  new := new
  specifier := specifier.key
  mark := mark

variable {old new : String} {mark : Mark}

theorem touches_aliasing_iff : (p.aliasing file specifier old new mark).touches n = true ↔
    p.model.resolve? n = some (.named file.tree.key old) := by
  simp [Renaming.touches, aliasing, Model.resolve?, Option.any_eq_true, Option.bind_eq_some_iff]

theorem touches_aliasing_of_ne (h : p.model.resolve? n ≠ some (.named file.tree.key old)) :
    (p.aliasing file specifier old new mark).touches n = false :=
  Bool.eq_false_iff.mpr (mt touches_aliasing_iff.mp h)

namespace Imports

variable (h : p.Imports file specifier old) (hp : p.IsRead) (hfile : file ∈ p.files)

include h hp hfile

theorem isSpecifier_aliasing (hf : f ∈ p.files) (hm : m ∈ f.tree.preorder)
    (hs : (p.aliasing file specifier old new mark).isSpecifier m = true) :
    f = file ∧ m = specifier := by
  simp only [Renaming.isSpecifier, Bool.and_eq_true, decide_eq_true_eq] at hs
  have hkey : m.key = specifier.key := by simp [Node.key, hs.2, aliasing]
  have hmem := (h.exists_nameNode hp hfile).1
  exact ⟨(hp.file_eq hfile hf hmem hm hkey).symm, hp.eq_of_key hfile hf hmem hm hkey⟩

theorem imported_rename (hf : f ∈ p.files) (hm : m ∈ f.tree.preorder)
    (hk : m.kind = .importSpecifier) :
    (m.rename (p.aliasing file specifier old new mark)).imported?.bind Node.identifier? =
      m.imported?.bind Node.identifier? := by
  cases hs : (p.aliasing file specifier old new mark).isSpecifier m with
  | true =>
    obtain ⟨-, rfl⟩ := h.isSpecifier_aliasing hp hfile hf hm hs
    obtain ⟨-, id, hid, htext⟩ := h.exists_nameNode hp hfile
    obtain ⟨rest, hfields⟩ := Node.fields_of_propertyName hk (hp.shaped f hf m hm).fields h.plain
    rw [Node.imported?, Node.imported?, Node.child?_propertyName_rename hs hfields, h.plain, hid]
    exact htext.symm
  | false =>
    have hkeep : ∀ l c, m.child? l = some c →
        l ∉ [.elements, .namedBindings, .importClause, .statements] →
        (c.rename (p.aliasing file specifier old new mark)).identifier? = c.identifier? := by
      intro l c hc hl
      refine Node.identifier?_rename_of_touches (touches_aliasing_of_ne ?_)
      refine h.resolve?_ne hp hfile hf hm (Node.mem_nodesAt_of_child? hc) (by rw [hk]; rfl) hl ?_
        c.self_mem_preorder
      rintro - rfl
      simp [Renaming.isSpecifier, hk, aliasing, hp.id?_eq hf hm] at hs
    rw [Node.imported?, Node.imported?, Node.child?_rename_of_isSpecifier hs,
      Node.child?_rename_of_isSpecifier hs]
    cases hproperty : m.child? .propertyName with
    | some c => exact hkeep .propertyName c hproperty (by decide)
    | none =>
      cases hname : m.child? .name with
      | some c => exact hkeep .name c hname (by decide)
      | none => rfl

theorem suits (hf : f ∈ p.files) (hm : m ∈ f.tree.preorder) (hliteral : m.Literal) :
    (p.aliasing file specifier old new mark).Suits m := by
  have hne : ∀ l c, m.child? l = some c → m.kind.refersIn l = false →
      l ∉ [.elements, .namedBindings, .importClause, .statements] →
      (l = .name → m.kind ≠ .importSpecifier) →
      ∀ d ∈ c.preorder, (p.aliasing file specifier old new mark).touches d = false := by
    intro l c hc hno hl hname d hd
    refine touches_aliasing_of_ne (h.resolve?_ne hp hfile hf hm (Node.mem_nodesAt_of_child? hc) hno hl
      ?_ hd)
    rintro hname' rfl
    exact hname hname' h.kind
  refine ⟨h.imported_rename hp hfile hf hm, fun hk c hc => ?_, fun hk c hc => ?_, fun c hc => ?_,
    fun hk c hc => ?_⟩
  · exact hne .moduleSpecifier c hc (by rw [hk]; rfl) (by decide) nofun c c.self_mem_preorder
  · exact hne .name c hc (by rw [hk]; rfl) (by decide) (by simp [hk]) c c.self_mem_preorder
  · exact hne .typeNode c hc (Kind.refersIn_typeNode _) (by decide) nofun
  · refine touches_aliasing_of_ne fun hr => ?_
    have hcm := (Node.preorder_sublist_of_mem_preorder hm).subset
      (Node.mem_preorder_of_mem_children (Node.mem_children_of_child? hc))
    obtain ⟨-, hname, -⟩ := h.of_resolve? hp hfile hf hcm hr
    exact hliteral hk c (Node.mem_nodesAt_of_child? hc) (Node.kind_of_identifier? hname)

/-- In each scope the names that change are those of the import. -/
theorem governs (hnew : ∀ n ∈ file.tree.preorder, n.identifier? ≠ some new) (hf : f ∈ p.files)
    (hy : y ∈ f.tree.preorder) :
    (p.aliasing file specifier old new mark).Governs f.tree.key (y.ownScope f.name) where
  touches_iff b hb := by
    have hb : b ∈ y.ownBindings := hb
    have hdeclared := Node.declaredIn_of_mem_ownBindings hb
    rw [touches_aliasing_iff]
    constructor
    · intro hr
      obtain ⟨z, hz, b', hb', heq, hname, hsymbol⟩ := hp.exists_of_nameNode hf hy hb hr
      obtain ⟨hkey, hold⟩ := Symbol.named.inj hsymbol
      obtain rfl := hp.file_eq hf hfile hz file.tree.self_mem_preorder hkey
      obtain rfl := hp.eq_of_key hf hf hz f.tree.self_mem_preorder hkey
      have hkind : b'.declaration.kind = .importSpecifier := by
        rw [h.declaration_eq hp hf hb' (hname.trans hold.symm), h.kind]
      have htree := hp.eq_tree_of_specifier hf hb' hkind hy hb heq.symm
      exact ⟨congrArg Node.key htree, hold.symm⟩
    · rintro ⟨howner, hname⟩
      obtain rfl := hp.eq_of_key hfile hf file.tree.self_mem_preorder hy howner
      exact h.resolve?_nameNode hp hfile (h.declaration_eq hp hfile hb hname ▸ hdeclared.child)
  name_ne hroot b hb := by
    obtain rfl := hp.file_eq hfile hf file.tree.self_mem_preorder f.tree.self_mem_preorder hroot
    have hdeclared := Node.declaredIn_of_mem_ownBindings (show b ∈ y.ownBindings from hb)
    have hmem := (Node.preorder_sublist_of_mem_preorder hy).subset hdeclared.nameNode_mem
    exact fun heq => hnew _ hmem (hdeclared.text.trans (congrArg some heq))
  owner howner := by
    obtain rfl := hp.file_eq hfile hf file.tree.self_mem_preorder hy howner
    rfl

theorem agrees (hliteral : ∀ f ∈ p.files, f.tree.AllLiteral)
    (hnew : ∀ n ∈ file.tree.preorder, n.identifier? ≠ some new)
    (hfresh : ∀ f ∈ p.files, ∀ n ∈ f.tree.preorder, n.id? ≠ mark.id) :
    (p.aliasing file specifier old new mark).Agrees p where
  read := hp
  fits f hf := {
    kind := hp.kind f hf
    shaped := hp.shaped f hf
    suits := fun m hm => h.suits hp hfile hf hm (hliteral f hf m hm)
    governs := fun y hy => h.governs hp hfile hnew hf hy
    text_ne := by
      intro hroot
      obtain rfl := hp.file_eq hfile hf file.tree.self_mem_preorder f.tree.self_mem_preorder hroot
      exact hnew
    touches_iff := fun path ss n name hv hname => by
      rw [touches_aliasing_iff, hp.resolve?_of_visits hf hv hname]
      rfl }
  fresh := hfresh
  exported f hf hroot hmem := by
    obtain rfl := hp.file_eq hfile hf file.tree.self_mem_preorder f.tree.self_mem_preorder hroot
    obtain ⟨b, hb, hname, hkind⟩ := SourceFile.exists_of_mem_exportedNames (hp.kind file hfile)
      (hp.shaped file hfile) hmem
    rw [h.declaration_eq hp hfile hb hname] at hkind
    exact hkind h.kind

/-- The other files stay as they are. -/
theorem rename_eq {before after : List SourceFile} (hfiles : p.files = before ++ file :: after) :
    p.rename (p.aliasing file specifier old new mark) =
      ⟨before ++ file.rename (p.aliasing file specifier old new mark) :: after⟩ := by
  have hkeep : ∀ f ∈ p.files, f ≠ file →
      f.rename (p.aliasing file specifier old new mark) = f := by
    intro f hf hne
    have htree : f.tree.rename (p.aliasing file specifier old new mark) = f.tree := by
      refine Node.rename_eq_self fun m hm => ⟨touches_aliasing_of_ne fun hr => ?_, ?_⟩
      · exact hne (h.of_resolve? hp hfile hf hm hr).1
      · exact Bool.eq_false_iff.mpr fun hs => hne (h.isSpecifier_aliasing hp hfile hf hm hs).1
    rw [SourceFile.rename, htree]
  have hother : ∀ f ∈ before ++ after, f ∈ p.files ∧ f ≠ file := by
    intro f hf
    have hmem : f ∈ p.files := by
      rw [hfiles]
      exact (List.sublist_cons_self file after).append_left before |>.subset hf
    refine ⟨hmem, ?_⟩
    rintro rfl
    have hone := Node.Leads.here.one_le_countKey (rfl : f.tree.key = f.tree.key)
    have htwice : 1 ≤ Node.countKey f.tree.key ((before ++ after).map SourceFile.tree) :=
      Node.one_le_countKey_of_mem (List.mem_map_of_mem hf) hone
    have hunique := hp.unique f.tree.key
    rw [hfiles, List.map_append, List.map_cons, Node.countKey_append, Node.countKey_cons] at hunique
    rw [List.map_append, Node.countKey_append] at htwice
    omega
  have hsame : ∀ fs, fs ⊆ before ++ after →
      fs.map (SourceFile.rename (p.aliasing file specifier old new mark)) = fs := by
    intro fs hfs
    refine (List.map_congr_left (g := id) fun f hf => ?_).trans fs.map_id
    exact hkeep f (hother f (hfs hf)).1 (hother f (hfs hf)).2
  rw [rename, hfiles, List.map_append, List.map_cons, hsame before (List.subset_append_left _ _),
    hsame after (List.subset_append_right _ _)]

end Imports

/-- Files whose nodes have identities are the files of their program. -/
theorem ofFiles_of_known {files : List SourceFile}
    (h : ∀ f ∈ files, ∀ m ∈ f.tree.preorder, m.id?.isSome = true) : ofFiles files = ⟨files⟩ :=
  congrArg Program.mk (numberFiles_of_known h)

end Program

theorem Node.isSome_id?_rename {r : Renaming} {n : Node}
    (hn : ∀ m ∈ n.preorder, m.id?.isSome = true) (hmark : r.mark.id.isSome = true) :
    ∀ m ∈ (n.rename r).preorder, m.id?.isSome = true := by
  have hfilter := Node.filter_preorder_rename (r := r) (fun m => !m.id?.isSome)
    (fun m => !m.id?.isSome) n (fun m _ => by rw [Node.id?_rename])
    (by rw [show r.property.id? = r.mark.id from rfl, hmark]; rfl)
  have hnone : n.preorder.filter (fun m => !m.id?.isSome) = [] :=
    List.filter_eq_nil_iff.mpr fun m hm => by simp [hn m hm]
  rw [hnone, List.map_nil, List.filter_eq_nil_iff] at hfilter
  intro m hm
  simpa only [Bool.not_eq_true', Bool.not_eq_false] using hfilter m hm

namespace Compilation

/-- A module imports something by one specifier without a property name, and the specifier is changed
to import it under another name that no identifier of the module has, along with all the names that
stand for it. Then the module expands if and only if it did, with the same expansions, diagnostics and
ids or the same error, and the result is the former one with the same change. -/
theorem expandFile_under_alias {files before after : List SourceFile} {file : SourceFile}
    {specifier : Node} {old new : String} {mark : Mark} {options : Options} {r : Renaming}
    (hfiles : ∀ f ∈ files, ∃ source, SourceFile.parse f.name source = .ok f)
    (hsplit : (Program.ofFiles files).files = before ++ file :: after)
    (himports : (Program.ofFiles files).Imports file specifier old)
    (hnew : ∀ n ∈ file.tree.preorder, n.identifier? ≠ some new)
    (hold : old ≠ options.factoryNamespace) (hother : new ≠ options.factoryNamespace)
    (hmark : mark.id.isSome = true)
    (hfresh : ∀ f ∈ (Program.ofFiles files).files, ∀ n ∈ f.tree.preorder, n.id? ≠ mark.id)
    (hr : r = (Program.ofFiles files).aliasing file specifier old new mark) (ids : IdSupply) :
    expandFile ⟨(Program.ofFiles (before ++ file.rename r :: after)).model, options⟩
        (file.rename r) ids =
      Prod.map (Except.map (ExpandedFile.rename r)) id
        (expandFile ⟨(Program.ofFiles files).model, options⟩ file ids) := by
  have hread := Program.isRead_ofFiles hfiles
  have hfile : file ∈ (Program.ofFiles files).files := by simp [hsplit]
  have hagrees : r.Agrees (Program.ofFiles files) := by
    rw [hr]
    exact himports.agrees hread hfile (Program.allLiteral_ofFiles hfiles) hnew hfresh
  have hprogram : (Program.ofFiles files).rename r = ⟨before ++ file.rename r :: after⟩ := by
    rw [hr]
    exact himports.rename_eq hread hfile hsplit
  have hknown : ∀ f ∈ before ++ file.rename r :: after, ∀ m ∈ f.tree.preorder,
      m.id?.isSome = true := by
    rw [show before ++ file.rename r :: after = ((Program.ofFiles files).rename r).files by
      rw [hprogram]]
    intro f hf
    obtain ⟨g, hg, rfl⟩ := List.mem_map.mp hf
    exact Node.isSome_id?_rename (hread.ids g hg) (by rw [hr]; exact hmark)
  rw [Program.ofFiles_of_known hknown, ← hprogram]
  exact hagrees.expandFile_rename hfile (by rw [hr]; exact hold.symm)
    (by rw [hr]; exact hother.symm) ids

/-- A use site in another, next to a parameter and a property of the same name: four names change, and
four of the old name are left, the new property name among them. -/
theorem expandFile_under_alias_nested :
    ∃ files, files = (SourceFile.parse "a.ts" ("import \x7b f \x7d from \"ts-transform-creator\"; " ++
      "function g(f) \x7b return f; \x7d k(f`$\x7bf`1`\x7d + $\x7bh.f\x7d`, f);")).toOption.toList ∧
    ∃ file specifier r out ids', (Program.ofFiles files).files = [file] ∧
      (Program.ofFiles files).Imports file specifier "f" ∧
      r = (Program.ofFiles files).aliasing file specifier "f" "q" ⟨some 100, none⟩ ∧
      (file.rename r).tree.preorder.countP (fun n => n.identifier? = some "q") = 4 ∧
      (file.rename r).tree.preorder.countP (fun n => n.identifier? = some "f") = 4 ∧
      expandFile ⟨(Program.ofFiles files).model, {}⟩ file .sequential = (.ok out, ids') ∧
      out.expansions = 2 ∧
      expandFile ⟨(Program.ofFiles [file.rename r]).model, {}⟩ (file.rename r) .sequential =
        (.ok (out.rename r), ids') := by
  obtain ⟨files, hfiles, hcheck⟩ : ∃ files, files = (SourceFile.parse "a.ts"
      ("import \x7b f \x7d from \"ts-transform-creator\"; " ++
      "function g(f) \x7b return f; \x7d k(f`$\x7bf`1`\x7d + $\x7bh.f\x7d`, f);")).toOption.toList ∧
      ((Program.ofFiles files).files.length = 1 && (Program.ofFiles files).files.any fun file =>
        (expandFile ⟨(Program.ofFiles files).model, {}⟩ file .sequential).1.toOption.any fun out =>
          out.expansions = 2 &&
          ((file.tree.preorder.all fun n => n.identifier? ≠ some "q" && n.id? ≠ some 100) &&
          (((Program.ofFiles files).model.declarations (.named file.tree.key "f")).length = 1 &&
          ((Program.ofFiles files).model.declarations (.named file.tree.key "f")).all fun specifier =>
            specifier.kind = .importSpecifier && ((specifier.child? .propertyName).isNone &&
            ((file.rename ((Program.ofFiles files).aliasing file specifier "f" "q"
              ⟨some 100, none⟩)).tree.preorder.countP (fun n => n.identifier? = some "q") = 4 &&
            (file.rename ((Program.ofFiles files).aliasing file specifier "f" "q"
              ⟨some 100, none⟩)).tree.preorder.countP (fun n => n.identifier? = some "f") = 4)))))
        = true :=
    ⟨_, rfl, by decide +kernel⟩
  obtain ⟨hlength, h⟩ := (Bool.and_eq_true _ _).mp hcheck
  obtain ⟨file, hfile, h⟩ := List.any_eq_true.mp h
  obtain ⟨out, ids', hout, h⟩ := exists_ok_fst_of_any h
  simp only [Bool.and_eq_true, decide_eq_true_eq, List.all_eq_true,
    Option.isNone_iff_eq_none] at hlength h
  obtain ⟨hexpansions, hfresh, hone, hall⟩ := h
  obtain ⟨specifier, hspecifier⟩ := List.length_eq_one_iff.mp hone
  obtain ⟨hkind, hplain, hnew, hold⟩ := hall specifier (by simp [hspecifier])
  have hsplit : (Program.ofFiles files).files = [file] := by
    obtain ⟨f, hf⟩ := List.length_eq_one_iff.mp hlength
    rw [hf, List.mem_singleton] at hfile
    rw [hf, hfile]
  have himports : (Program.ofFiles files).Imports file specifier "f" := ⟨hkind, hplain, hspecifier⟩
  have hread : ∀ f ∈ files, ∃ source, SourceFile.parse f.name source = .ok f :=
    fun f hf => ⟨_, SourceFile.parse_of_mem_toList (hfiles ▸ hf)⟩
  obtain ⟨r, hr⟩ :
      ∃ r, r = (Program.ofFiles files).aliasing file specifier "f" "q" ⟨some 100, none⟩ := ⟨_, rfl⟩
  rw [← hr] at hnew hold
  have hunder : expandFile ⟨(Program.ofFiles ([] ++ file.rename r :: [])).model, {}⟩ (file.rename r)
      .sequential = Prod.map (Except.map (ExpandedFile.rename r)) id
        (expandFile ⟨(Program.ofFiles files).model, {}⟩ file .sequential) :=
    expandFile_under_alias hread hsplit himports (fun n hn => (hfresh n hn).1) (by decide) (by decide)
      rfl (by rw [hsplit]; simpa using fun n hn => (hfresh n hn).2) hr .sequential
  rw [hout] at hunder
  exact ⟨files, hfiles, file, specifier, r, out, ids', hsplit, himports, hr, hnew, hold, hout,
    hexpansions, hunder⟩

end Compilation

end Quasiquote
