import Quasiquote.Proofs.Replacing
import Quasiquote.Proofs.Selection

namespace Quasiquote

namespace Node

variable {name module : String} {bound : Nat} {s x : Node}

theorem Renumbers.le_key_of_mem (h : (defaultImport name module).Renumbers bound s)
    (hx : x ∈ s.preorder) : bound ≤ x.key := by
  obtain ⟨y, hy, hyx⟩ := (isSimulation_renumbers bound).mem_preorder h hx
  refine Nat.le_of_not_lt fun hlt => ?_
  obtain ⟨id, hid⟩ := Option.isSome_iff_exists.mp (hyx.key_lt_iff.mp hlt)
  exact not_holds_defaultImport id ⟨y, hy, hid⟩

/-- Below the import stand neither imports nor templates with a tag. -/
theorem Renumbers.eq_of_mem (h : (defaultImport name module).Renumbers bound s)
    (hx : x ∈ s.preorder)
    (hk : x.kind = .taggedTemplateExpression ∨ x.kind = .importDeclaration) : x = s := by
  rw [preorder_eq, List.mem_cons, List.mem_flatMap] at hx
  refine hx.resolve_right fun ⟨c, hc, hxc⟩ => ?_
  obtain ⟨d, hd, hdc⟩ := (isSimulation_renumbers bound _ _ h).swap.mem_children hc
  obtain ⟨y, hy, hyx⟩ := (isSimulation_renumbers bound).mem_preorder hdc hxc
  have hchildren : ∀ d ∈ (defaultImport name module).children, d.Tame := by
    change ∀ d ∈ [plain .importClause [.node (identifier name), .absent], stringLiteral module], d.Tame
    simp [identifier, stringLiteral, tame_plain_iff]
  have hid : y.id? = none := by
    cases hid : y.id? with
    | none => rfl
    | some id =>
      have hmem := (preorder_sublist_of_mem_preorder (mem_preorder_of_mem_children hd)).subset hy
      exact absurd ⟨y, hmem, hid⟩ (not_holds_defaultImport id)
  have hkinds := hchildren d hd y hy hid
  rw [(isSimulation_renumbers bound _ _ hyx).kind] at hkinds
  exact hk.elim hkinds.1 hkinds.2

/-- The import names the module of the factories. -/
theorem Renumbers.moduleField? (h : (defaultImport name module).Renumbers bound s) :
    s.moduleField? = some (.text module) := by
  obtain ⟨next, -, rfl⟩ := h.2
  rfl

/-- The import declares the namespace. -/
theorem Renumbers.hoistedInFunction (h : (defaultImport name module).Renumbers bound s) :
    ∀ b ∈ Binding.hoistedInFunction [s], b.name = name ∧ bound ≤ b.declaration.key := by
  obtain ⟨next, hnext, rfl⟩ := h.2
  intro b hb
  obtain ⟨b', hb', hname, -, hid⟩ := Binding.exists_ofStatement_defaultImport name module next
  have hvars : Binding.ofVars ((defaultImport name module).number next).1 = [] := by
    rw [Binding.ofVars]
    rfl
  rw [Binding.hoistedInFunction, List.flatMap_singleton, hb', hvars] at hb
  obtain rfl := List.mem_singleton.mp hb
  refine ⟨hname, ?_⟩
  rw [key, hid]
  exact Nat.le_trans hnext (Nat.le_succ next)

end Node

/-- What a node declares for itself is owned by the node. -/
theorem Node.ownSymbol?_cases {n : Node} {symbol : Symbol} (h : n.ownSymbol? = some symbol) :
    symbol = .anonymous n.key ∨ ∃ name, symbol = .named n.key name := by
  rw [ownSymbol?] at h
  split at h
  · split at h
    · exact .inl (Option.some.inj h).symm
    · obtain ⟨name, -, rfl⟩ := Option.map_eq_some_iff.mp h
      exact .inr ⟨name, rfl⟩
  · cases h

theorem Descent.declares_module_iff {n : Node} {l : Label} {name : String}
    (hk : n.kind = .sourceFile) :
    Declares name ⟨n, l⟩ [] ↔ Binding.Names n.ownBindings name := by
  refine ⟨Declares.names_ownBindings, fun h => ?_⟩
  rw [Node.ownBindings_sourceFile hk, names_hoistedInFunction_iff] at h
  obtain ⟨s, hs, h⟩ := h
  exact .module hk hs h

namespace FilePass

variable {p : FilePass} {bound : Nat} {rebound : SourceFile} {path path' : List Descent} {n m : Node}

structure Stays (p : FilePass) (bound : Nat) (rebound : SourceFile) (path path' : List Descent)
    (n m : Node) : Prop where
  before : p.file.tree.Leads (path ++ [⟨p.file.tree, .statements⟩]) n
  after : rebound.tree.Leads (path' ++ [⟨rebound.tree, .statements⟩]) m
  site : p.isUseSite n = false
  becomes : p.Becomes bound n m
  carries : p.Carries (p.Becomes bound) (fun y => bound ≤ y.key) path path'

namespace Stays

variable (h : p.Stays bound rebound path path' n m)

include h

theorem id?_eq : m.id? = n.id? := by
  rw [Node.id?, (h.becomes.keeps h.site).2.1]
  rfl

theorem identifier?_eq : m.identifier? = n.identifier? :=
  ((p.isTrace_becomes bound).mirrors h.becomes).identifier?_eq

theorem ownSymbol?_eq : m.ownSymbol? = n.ownSymbol? := by
  have hkeeps := (h.becomes.keeps h.site).1
  have hrel := hkeeps.rel_child? .name
  unfold Node.ownSymbol?
  rw [hkeeps.kind, h.becomes.key_eq h.site]
  generalize n.child? .name = i at hrel ⊢
  generalize m.child? .name = j at hrel ⊢
  cases hrel with
  | none => rfl
  | some hij => simp only [((p.isTrace_becomes bound).mirrors hij).identifier?_eq]

theorem child {c d : Node} {l : Label} (hc : n.child? l = some c) (hd : m.child? l = some d)
    (hcd : p.Becomes bound c d) (hs : p.isUseSite c = false) :
    p.Stays bound rebound (⟨n, l⟩ :: path) (⟨m, l⟩ :: path') c d :=
  ⟨h.before.down (Node.mem_nodesAt_of_child? hc), h.after.down (Node.mem_nodesAt_of_child? hd), hs,
    hcd, .keep h.site h.becomes h.carries⟩

end Stays

/-- What a name is declared by, before and after: new declarations come first, those of the import of
the factories. -/
def Grows (p : FilePass) (bound : Nat) (symbol : Symbol) (ds ds' : List Node) : Prop :=
  ∃ added kept, ds' = added ++ kept ∧
    (∀ d ∈ added, bound ≤ d.key ∧ p.namespaceDeclaration? = none ∧
      symbol = .named p.file.tree.key p.options.factoryNamespace) ∧
    List.Forall₂ (fun d d' => d'.id? = d.id?) ds kept

theorem Grows.exists_of_mem {symbol : Symbol} {ds ds' : List Node} {d' : Node}
    (h : p.Grows bound symbol ds ds') (hd : d' ∈ ds') (hlt : d'.key < bound) :
    ∃ d ∈ ds, d.id? = d'.id? := by
  obtain ⟨added, kept, rfl, hadded, hkept⟩ := h
  obtain hd | hd := List.mem_append.mp hd
  · exact absurd hlt (Nat.not_lt.mpr (hadded d' hd).1)
  · obtain ⟨d, hd, hid⟩ := exists_of_mem_forall₂ hkept.flip hd
    exact ⟨d, hd, hid.symm⟩

theorem Becomes.id?_declaration {b b' : Binding} (h : Binding.Same (p.Becomes bound) b b') :
    b'.declaration.id? = b.declaration.id? := by
  have hsite := h.declaration.isUseSite_of_kind h.kind
  rw [Node.id?, (h.declaration.keeps hsite).2.1]
  rfl

theorem Becomes.forall₂_declarations {bs bs' : List Binding} (name : String)
    (h : List.Forall₂ (Binding.Same (p.Becomes bound)) bs bs') :
    List.Forall₂ (fun d d' : Node => d'.id? = d.id?)
      ((bs.filter fun b => b.name = name).map Binding.declaration)
      ((bs'.filter fun b => b.name = name).map Binding.declaration) := by
  induction h with
  | nil => exact .nil
  | @cons b b' bs bs' hb _ ih =>
    simp only [List.filter_cons, hb.name]
    split
    · exact .cons (id?_declaration hb) ih
    · exact ih

namespace Replaced

variable {first second : Program} (h : p.Replaced first second bound rebound)

include h

theorem key_eq : rebound.tree.key = p.file.tree.key := by
  rw [Node.key, Node.id?, h.mark]
  rfl

omit h in
theorem alike : Descent.Alike [⟨p.file.tree, .statements⟩] [⟨rebound.tree, .statements⟩] :=
  ⟨by simp, by simp [Descent.ReachesBody]⟩

theorem mem_statements {c : Node} {l : Label} (hc : c ∈ rebound.tree.nodesAt l) :
    l = .statements ∧
      ((Node.defaultImport p.options.factoryNamespace p.options.factoryModule).Renumbers bound c ∨
        ∃ s ∈ p.file.tree.list .statements, p.Becomes bound s c) := by
  have hk := h.read.kind _ h.file
  obtain ⟨shape, hl⟩ := Node.label_mem_schema hc
  obtain ⟨rfl, rfl⟩ : l = .statements ∧ shape = .list := by simpa [hk, Kind.schema] using hl
  have hc := Node.mem_list_of_mem_nodesAt (h.read.shaped _ h.file).shaped.fields (by rw [hk]; rfl) hc
  obtain ⟨added, kept, heq, hadded, hkept⟩ := h.statements
  rw [heq, List.mem_append] at hc
  refine ⟨rfl, hc.imp (fun hc => (hadded c hc).2) fun hc => ?_⟩
  obtain ⟨s, hs, hsc⟩ := exists_of_mem_forall₂ hkept.flip hc
  exact ⟨s, hs, hsc⟩

/-- A node below the top that was there before is one that stays. -/
theorem stays {x : Node} (hp : rebound.tree.Leads path' x) (hne : path' ≠ []) (hx : x.key < bound) :
    ∃ path inner n, path' = inner ++ [⟨rebound.tree, .statements⟩] ∧
      p.Stays bound rebound path inner n x := by
  obtain ⟨rfl, rfl⟩ | ⟨l, c, inner, hc, hinner, rfl⟩ := hp.cases_first
  · exact absurd rfl hne
  obtain ⟨rfl, himport | ⟨s, hs, hsc⟩⟩ := h.mem_statements hc
  · exact absurd hx (Nat.not_lt.mpr (himport.le_key_of_mem hinner.mem_preorder))
  · obtain ⟨path, n, hpath, hsite, hbecomes, hcarries⟩ := hsc.carries hinner hx
    exact ⟨path, inner, n, rfl, hpath.up (Node.mem_nodesAt_of_mem_list hs), hp, hsite, hbecomes,
      hcarries⟩

theorem stays_of_kind {x : Node} (hx : x ∈ rebound.tree.preorder) (hk : x.kind ≠ .sourceFile)
    (hlt : x.key < bound) : ∃ path path' n, p.Stays bound rebound path path' n x := by
  obtain ⟨path', hp⟩ := Node.exists_leads_of_mem_preorder (h.read.shaped _ h.file) hx
  have hne : path' ≠ [] := by
    rintro rfl
    cases hp
    exact hk (h.read.kind _ h.file)
  obtain ⟨path, inner, n, -, hstays⟩ := h.stays hp hne hlt
  exact ⟨path, inner, n, hstays⟩

/-- A template with a tag or an import was there before, or is the import of the factories. -/
theorem key_lt_of_kind {x : Node} (hx : x ∈ rebound.tree.preorder)
    (hk : x.kind = .taggedTemplateExpression ∨ x.kind = .importDeclaration) :
    x.key < bound ∨
      (Node.defaultImport p.options.factoryNamespace p.options.factoryModule).Renumbers bound x := by
  obtain ⟨path, hp⟩ := Node.exists_leads_of_mem_preorder (h.read.shaped _ h.file) hx
  obtain ⟨rfl, rfl⟩ | ⟨l, c, inner, hc, hinner, rfl⟩ := hp.cases_first
  · simp [h.read.kind _ h.file] at hk
  obtain ⟨rfl, himport | ⟨s, hs, hsc⟩⟩ := h.mem_statements hc
  · rw [himport.eq_of_mem hinner.mem_preorder hk]
    exact .inr himport
  · exact .inl (hsc.key_lt_of_kind hinner.mem_preorder hk)

/-- A scope below the top declares what it did. -/
theorem grows_inner {y y' a b : Node} {name : String} (hy : y ∈ p.file.tree.preorder)
    (hy' : y' ∈ rebound.tree.preorder) (hs : p.isUseSite y = false) (hyy : p.Becomes bound y y')
    (ha : first.model.resolve? a = some (.named y.key name))
    (hb : second.model.resolve? b = some (.named y.key name)) :
    p.Grows bound (.named y.key name) (first.model.declarations (.named y.key name))
      (second.model.declarations (.named y.key name)) := by
  have hown := Node.forall₂_ownBindings (p.isTrace_becomes bound) (hyy.keeps hs).1 fun _ => hyy
  rw [h.within.read.declarations_named h.within.file hy ha]
  rw [← hyy.key_eq hs] at hb ⊢
  rw [h.read.declarations_named h.file hy' hb]
  exact ⟨[], _, rfl, nofun, Becomes.forall₂_declarations name hown⟩

/-- The top level declares what it did, and what the import of the factories does. -/
theorem exists_ownBindings : ∃ added kept, rebound.tree.ownBindings = added ++ kept ∧
    (∀ b ∈ added, b.name = p.options.factoryNamespace ∧ bound ≤ b.declaration.key ∧
      p.namespaceDeclaration? = none) ∧
    List.Forall₂ (Binding.Same (p.Becomes bound)) p.file.tree.ownBindings kept := by
  obtain ⟨added, kept, heq, hadded, hkept⟩ := h.statements
  rw [Node.ownBindings_sourceFile (h.read.kind _ h.file),
    Node.ownBindings_sourceFile (h.within.read.kind _ h.within.file), heq]
  refine ⟨_, _, List.flatMap_append, fun b hb => ?_,
    Binding.forall₂_hoistedInFunction (p.isTrace_becomes bound) hkept⟩
  obtain ⟨s, hs, hb⟩ := List.mem_flatMap.mp hb
  obtain ⟨hnone, himport⟩ := hadded s hs
  obtain ⟨hname, hkey⟩ := himport.hoistedInFunction b (List.mem_flatMap.mpr ⟨s, by simp, hb⟩)
  exact ⟨hname, hkey, hnone⟩

/-- What the top level declares under a name that it declared before. -/
theorem grows_root {a b : Node} {name : String}
    (ha : first.model.resolve? a = some (.named p.file.tree.key name))
    (hb : second.model.resolve? b = some (.named p.file.tree.key name)) :
    p.Grows bound (.named p.file.tree.key name)
      (first.model.declarations (.named p.file.tree.key name))
      (second.model.declarations (.named p.file.tree.key name)) := by
  obtain ⟨added, kept, heq, hadded, hkept⟩ := h.exists_ownBindings
  rw [h.within.read.declarations_named h.within.file p.file.tree.self_mem_preorder ha]
  rw [← h.key_eq] at hb ⊢
  rw [h.read.declarations_named h.file rebound.tree.self_mem_preorder hb, heq, List.filter_append,
    List.map_append]
  refine ⟨_, _, rfl, fun d hd => ?_, Becomes.forall₂_declarations name hkept⟩
  obtain ⟨b, hb, rfl⟩ := List.mem_map.mp hd
  obtain ⟨hb, hname⟩ := List.mem_filter.mp hb
  obtain ⟨hns, hkey, hnone⟩ := hadded b hb
  refine ⟨hkey, hnone, ?_⟩
  rw [h.key_eq, ← hns, of_decide_eq_true hname]

/-- What the top level declares under a name that it did not declare before is new. -/
theorem le_key_of_undeclared {b d : Node} {name : String}
    (hno : ¬Binding.Names p.file.tree.ownBindings name)
    (hb : second.model.resolve? b = some (.named rebound.tree.key name))
    (hd : d ∈ second.model.declarations (.named rebound.tree.key name)) : bound ≤ d.key := by
  obtain ⟨added, kept, heq, hadded, hkept⟩ := h.exists_ownBindings
  rw [h.read.declarations_named h.file rebound.tree.self_mem_preorder hb, heq] at hd
  obtain ⟨c, hc, rfl⟩ := List.mem_map.mp hd
  obtain ⟨hc, hname⟩ := List.mem_filter.mp hc
  obtain hc | hc := List.mem_append.mp hc
  · exact (hadded c hc).2.1
  · obtain ⟨a, ha, hac⟩ := exists_of_mem_forall₂ hkept.flip hc
    exact absurd ⟨a, ha, hac.name.symm.trans (of_decide_eq_true hname)⟩ hno

theorem names_root {name : String} (hname : Binding.Names p.file.tree.ownBindings name) :
    Binding.Names rebound.tree.ownBindings name := by
  obtain ⟨added, kept, heq, -, hkept⟩ := h.exists_ownBindings
  obtain ⟨b, hb, rfl⟩ := hname
  obtain ⟨b', hb', hbb⟩ := exists_of_mem_forall₂ hkept hb
  exact ⟨b', heq ▸ List.mem_append_right added hb', hbb.name⟩

section

variable (hstays : p.Stays bound rebound path path' n m)

include hstays

/-- A node that stays is reached through references if and only if it was. -/
theorem reference_iff : (∀ d ∈ path' ++ [⟨rebound.tree, .statements⟩], d.isReference = true) ↔
    ∀ d ∈ path ++ [⟨p.file.tree, .statements⟩], d.isReference = true := by
  rw [List.forall_mem_append, List.forall_mem_append, hstays.carries.reference Becomes.kind_eq]
  simp [Descent.isReference, h.read.kind _ h.file, h.within.read.kind _ h.within.file]

/-- What captures a reference is declared by new nodes. -/
theorem le_key_of_captures {name : String}
    (hcaptures : p.Captures bound name path' (second.model.resolve? m)) {symbol : Symbol}
    (hresolve : second.model.resolve? m = some symbol) :
    ∀ d ∈ second.model.declarations symbol, bound ≤ d.key := by
  intro e he
  obtain ⟨-, d, hd, hsymbol, hnew⟩ := hcaptures
  obtain ⟨way, hway⟩ := hstays.after.exists_of_mem (List.mem_append_left _ hd)
  obtain rfl := Option.some.inj (hresolve.symm.trans hsymbol)
  rw [h.read.declarations_named h.file hway.mem_preorder hresolve] at he
  obtain ⟨b, hb, rfl⟩ := List.mem_map.mp he
  exact hnew b (List.mem_filter.mp hb).1

/-- A reference stands for what it did, unless it is captured. -/
theorem resolve?_identifier {name : String}
    (href : ∀ d ∈ path ++ [⟨p.file.tree, .statements⟩], d.isReference = true)
    (hname : n.identifier? = some name) :
    (second.model.resolve? m = first.model.resolve? n ∧
      ∀ symbol, first.model.resolve? n = some symbol → p.Grows bound symbol
        (first.model.declarations symbol) (second.model.declarations symbol)) ∨
    ((p.Binds name ∧ ¬p.Shielded name (path ++ [⟨p.file.tree, .statements⟩]) ∨
        first.model.resolve? n = none) ∧
      ∀ symbol, second.model.resolve? m = some symbol →
        ∀ d ∈ second.model.declarations symbol, bound ≤ d.key) := by
  have hname' := hstays.identifier?_eq.trans hname
  have hin := h.within.read.innermost_resolve? h.within.file hstays.before href hname
  have hin' := h.read.innermost_resolve? h.file hstays.after ((h.reference_iff hstays).mpr href) hname'
  obtain ⟨hcaptures, hshielded⟩ | ⟨d, hd, d', hd', hsite, hdd, hsymbol, hinner⟩ |
    ⟨houter', houter⟩ := hstays.carries.innermost alike (by simp) hin'
  · exact .inr ⟨.inl ⟨hcaptures.binds, hshielded⟩, fun symbol => h.le_key_of_captures hstays hcaptures⟩
  · have heq := hinner.unique hin
    refine .inl ⟨heq, fun symbol hresolve => ?_⟩
    obtain ⟨way, hway⟩ := hstays.before.exists_of_mem (List.mem_append_left _ hd)
    obtain ⟨way', hway'⟩ := hstays.after.exists_of_mem (List.mem_append_left _ hd')
    obtain rfl := Option.some.inj (hresolve.symm.trans (heq.symm.trans hsymbol))
    exact h.grows_inner hway.mem_preorder hway'.mem_preorder hsite hdd hresolve hsymbol
  · by_cases hnames : Binding.Names p.file.tree.ownBindings name
    · have hdeclares := (Descent.declares_module_iff (l := .statements)
        (h.within.read.kind _ h.within.file)).mpr hnames
      have hdeclares' := (Descent.declares_module_iff (l := .statements)
        (h.read.kind _ h.file)).mpr (h.names_root hnames)
      have hfirst := hin.unique (houter _ (.declared hdeclares))
      have hsecond := houter'.unique (.declared hdeclares')
      rw [h.key_eq] at hsecond
      refine .inl ⟨hsecond.trans hfirst.symm, fun symbol hresolve => ?_⟩
      obtain rfl := Option.some.inj (hresolve.symm.trans hfirst)
      exact h.grows_root hfirst hsecond
    · have hdeclares := mt (Descent.declares_module_iff (l := .statements)
        (h.within.read.kind _ h.within.file)).mp hnames
      refine .inr ⟨.inr (hin.unique (houter _ (.outward hdeclares .undeclared))), ?_⟩
      intro symbol hresolve d hd
      rw [hresolve] at houter'
      cases houter' with
      | declared => exact h.le_key_of_undeclared hnames hresolve hd
      | outward _ ho => cases ho

/-- A reference to what is declared outside of a use site is captured, if the function in the place of
the use site declares its name. -/
theorem resolve?_captured {name : String} {symbol : Symbol}
    (href : ∀ d ∈ path ++ [⟨p.file.tree, .statements⟩], d.isReference = true)
    (hname : n.identifier? = some name) (hresolve : first.model.resolve? n = some symbol)
    (hbinds : p.Binds name) (hshielded : ¬p.Shielded name (path ++ [⟨p.file.tree, .statements⟩])) :
    ∃ captor, second.model.resolve? m = some captor ∧ second.model.declarations captor ≠ [] ∧
      ∀ d ∈ second.model.declarations captor, bound ≤ d.key := by
  have hname' := hstays.identifier?_eq.trans hname
  have href' := (h.reference_iff hstays).mpr href
  have hin := h.within.read.innermost_resolve? h.within.file hstays.before href hname
  have hin' := h.read.innermost_resolve? h.file hstays.after href' hname'
  rw [hresolve] at hin
  have hcaptures := hstays.carries.captured alike (by simp) hbinds (fun hroot => by
    cases hroot with
    | declared hd => exact .declared hd
    | outward _ ho => cases ho) hin hshielded hin'
  obtain ⟨d, -, hcaptor, -⟩ := hcaptures.declared
  exact ⟨_, hcaptor, h.read.declarations_ne_nil h.file hstays.after href' hname' hcaptor,
    h.le_key_of_captures hstays hcaptures hcaptor⟩

/-- A tag that is no name resolves to the function that it is, before and after. -/
theorem resolve?_own
    (href : ∀ d ∈ path ++ [⟨p.file.tree, .statements⟩], d.isReference = true)
    (hsought : n.IsSought (path ++ [⟨p.file.tree, .statements⟩]))
    (hsought' : m.IsSought (path' ++ [⟨rebound.tree, .statements⟩])) (hk : n.kind ≠ .identifier) :
    second.model.resolve? m = first.model.resolve? n ∧
      ∀ symbol, first.model.resolve? n = some symbol → p.Grows bound symbol
        (first.model.declarations symbol) (second.model.declarations symbol) := by
  have hkind := Becomes.kind_eq _ _ hstays.site hstays.becomes
  have hfirst := h.within.read.resolve?_eq_ownSymbol? h.within.file hstays.before href hsought hk
  have hsecond := h.read.resolve?_eq_ownSymbol? h.file hstays.after
    ((h.reference_iff hstays).mpr href) hsought' (hkind ▸ hk)
  have heq : second.model.resolve? m = first.model.resolve? n := by
    rw [hsecond, hstays.ownSymbol?_eq, hfirst]
  refine ⟨heq, fun symbol hresolve => ?_⟩
  obtain rfl | ⟨name, rfl⟩ := Node.ownSymbol?_cases (hfirst.symm.trans hresolve)
  · rw [h.within.read.declarations_anonymous h.within.file hstays.before.mem_preorder,
      ← hstays.becomes.key_eq hstays.site,
      h.read.declarations_anonymous h.file hstays.after.mem_preorder]
    exact ⟨[], _, rfl, by simp, .cons hstays.id?_eq .nil⟩
  · exact h.grows_inner hstays.before.mem_preorder hstays.after.mem_preorder hstays.site
      hstays.becomes hresolve (heq.trans hresolve)

end

end Replaced

end FilePass

end Quasiquote
