import Quasiquote.Proofs.Renaming.Model
import Quasiquote.Proofs.SourceOrder

namespace Quasiquote

def Node.IsNameless (n : Node) : Prop :=
  n.kind.isFunctionLike = true ∧ n.kind ≠ .functionDeclaration ∧ n.child? .name = none

/-- The symbols of a model: the names that its scopes declare, and the functions without a name. -/
inductive Model.Has (m : Model) : Symbol → Prop
  | named {s : Scope} {name : String} (hs : s ∈ m.scopes) (hname : s.declares name = true) :
    Has m (.named s.owner name)
  | anonymous {e : Node.Entry} (he : e ∈ m.entries) (h : e.node.IsNameless) :
    Has m (.anonymous e.node.key)

namespace Bindings

variable {root : Node} {b : Bindings}

def NamelessIn (root : Node) (b : Bindings) : Prop :=
  ∀ k f, (k, Symbol.anonymous f) ∈ b.resolutions → ∃ y ∈ root.preorder, y.key = f ∧ y.IsNameless

theorem composes_namelessIn (root : Node) : Composes (NamelessIn root) where
  empty _ _ h := absurd h List.not_mem_nil
  append ha hb k f h := (List.mem_append.mp h).elim (ha k f) (hb k f)

theorem namelessIn_ofScope (root : Node) (s : Scope) : NamelessIn root (ofScope s) := by
  intro k f h
  obtain ⟨b, -, h⟩ := List.mem_flatMap.mp h
  dsimp only at h
  split at h <;> simp at h

theorem namelessIn_ofAnonymous (hk : root.kind.isFunctionLike = true) :
    NamelessIn root (ofAnonymous root) := by
  intro k f h
  unfold ofAnonymous at h
  split at h
  · next hname =>
    obtain ⟨-, hf⟩ := Prod.mk.inj (List.mem_singleton.mp h)
    obtain rfl := Symbol.anonymous.inj hf
    simp only [Bool.and_eq_true, decide_eq_true_eq, Option.isNone_iff_eq_none] at hname
    exact ⟨root, root.self_mem_preorder, rfl, hk, hname⟩
  · simp at h

theorem NamelessIn.up {c : Node} (h : NamelessIn c b) (hc : c ∈ root.preorder) :
    NamelessIn root b := by
  intro k f hr
  obtain ⟨y, hy, hf⟩ := h k f hr
  exact ⟨y, (Node.preorder_sublist_of_mem_preorder hc).subset hy, hf⟩

end Bindings

theorem Node.namelessIn_bindings (n : Node) (file : String) (ss : List Scope) :
    (n.bindings file ss).NamelessIn n := by
  induction n using inductionOnDescendants generalizing ss with
  | h n ih =>
    refine bindings_compose (Bindings.composes_namelessIn n) (fun _ symbol hsymbol k f h => ?_)
      Bindings.namelessIn_ofAnonymous (fun s _ => Bindings.namelessIn_ofScope n s)
      fun c ts henters => (ih c henters.mem_descendants ts).up
        (mem_preorder_of_mem_descendants henters.mem_descendants)
    obtain ⟨name, -, hlookup⟩ := Option.bind_eq_some_iff.mp hsymbol
    obtain ⟨s, -, rfl⟩ := Scope.exists_of_lookup hlookup
    simp at h

theorem SourceFile.namelessIn_bindings (file : SourceFile) :
    file.bindings.NamelessIn file.tree := by
  refine (Bindings.composes_namelessIn _).append (Bindings.namelessIn_ofScope _ _)
    ((Bindings.composes_namelessIn _).join fun s hs => ?_)
  exact (s.namelessIn_bindings _ _).up
    (Node.mem_preorder_of_mem_children (Node.mem_children_of_mem_list hs))

namespace Model

variable {m : Model} {file name : String} {symbol : Symbol}

theorem has_moduleBinding? (h : m.moduleBinding? file name = some symbol) : m.Has symbol := by
  obtain ⟨last, -, h⟩ := Option.bind_eq_some_iff.mp h
  obtain ⟨scope, hscope, h⟩ := Option.bind_eq_some_iff.mp h
  obtain ⟨hname, rfl⟩ := Scope.symbol?_eq_some_iff.mp h
  exact .named (List.mem_of_find?_eq_some hscope) hname

theorem has_exported? (h : m.exported? file name = some symbol) : m.Has symbol := by
  obtain ⟨last, -, h⟩ := Option.bind_eq_some_iff.mp h
  split at h
  · exact has_moduleBinding? h
  · cases h

theorem has_of_link {link : Symbol × Symbol} (h : link ∈ m.links) :
    m.Has link.1 ∧ m.Has link.2 := by
  obtain ⟨s, hs, h⟩ := List.mem_flatMap.mp h
  obtain ⟨b, hb, h⟩ := List.mem_filterMap.mp h
  obtain ⟨l, -, h⟩ := Option.bind_eq_some_iff.mp h
  obtain ⟨target, htarget, h⟩ := Option.bind_eq_some_iff.mp h
  obtain rfl := Option.some.inj h
  obtain ⟨base, -, htarget⟩ := Option.bind_eq_some_iff.mp htarget
  obtain ⟨f, -, htarget⟩ := Option.bind_eq_some_iff.mp htarget
  exact ⟨.named hs (Scope.declares_iff.mpr ⟨b, hb, rfl⟩), has_exported? htarget⟩

end Model

/-- A symbol that something in a file resolves to is declared by the node that it belongs to. -/
theorem SourceFile.Resolution.exists_names {file : SourceFile} {k owner : Nat} {name : String}
    (h : file.Resolution k (.named owner name)) :
    ∃ y ∈ file.tree.preorder, y.key = owner ∧ Binding.Names y.ownBindings name := by
  generalize hs : Symbol.named owner name = symbol at h
  cases h with
  | reference h hname hsymbol =>
    obtain ⟨s, hmem, hdeclares, rfl⟩ := Scope.exists_declares_of_lookup hsymbol
    obtain ⟨rfl, rfl⟩ := Symbol.named.inj hs
    obtain ⟨y, hy, howner, hsub⟩ := h.owned s hmem
    obtain ⟨b, hb, hname⟩ := Scope.declares_iff.mp hdeclares
    exact ⟨y, hy, howner.symm, b, hsub hb, hname⟩
  | declared hy hb =>
    obtain ⟨rfl, rfl⟩ := Symbol.named.inj hs
    exact ⟨_, hy, rfl, _, hb, rfl⟩
  | function hy hb _ =>
    obtain ⟨rfl, rfl⟩ := Symbol.named.inj hs
    exact ⟨_, hy, rfl, _, hb, rfl⟩
  | anonymous => cases hs

namespace Program.IsRead

variable {p : Program} {file : SourceFile} {n y : Node} {k : Nat} {symbol : Symbol}

theorem exists_entry (hfile : file ∈ p.files) (hy : y ∈ file.tree.preorder) :
    ∃ e ∈ p.model.entries, e.node = y := by
  rw [← Node.map_node_entriesUnder file.tree [], List.mem_map] at hy
  obtain ⟨e, he, rfl⟩ := hy
  exact ⟨e, List.mem_flatMap.mpr ⟨file, hfile, he⟩, rfl⟩

theorem has_of_resolution (hp : p.IsRead) (hfile : file ∈ p.files)
    (h : (k, symbol) ∈ file.bindings.resolutions) : p.model.Has symbol := by
  cases symbol with
  | named owner name =>
    have hresolution := SourceFile.resolution (hp.kind file hfile) (hp.shaped file hfile) h
    obtain ⟨y, hy, hkey, b, hb, hname⟩ := hresolution.exists_names
    obtain ⟨s, hs, rfl⟩ := List.mem_map.mp (file.isClosed_bindings k owner name h)
    obtain ⟨z, hz, howner, hbindings⟩ := SourceFile.exists_of_scope (hp.kind file hfile) hs
    obtain rfl := hp.eq_of_key hfile hfile hy hz (howner.symm.trans hkey.symm)
    refine .named ?_ (Scope.declares_iff.mpr ⟨b, hbindings ▸ hb, hname⟩)
    rw [scopes_model]
    exact List.mem_flatMap.mpr ⟨file, hfile, hs⟩
  | anonymous f =>
    obtain ⟨y, hy, rfl, hnameless⟩ := file.namelessIn_bindings k f h
    obtain ⟨e, he, rfl⟩ := exists_entry hfile hy
    exact .anonymous he hnameless

/-- A name that resolves to something has its text as a name. -/
theorem identifier?_of_resolve? (hp : p.IsRead) (hfile : file ∈ p.files)
    (hn : n ∈ file.tree.preorder) (hkind : n.kind = .identifier)
    (h : p.model.resolve? n = some symbol) : n.identifier? = some symbol.name := by
  have hresolution := hp.resolution hfile hn h
  generalize hkey : n.key = k at hresolution
  cases hresolution with
  | reference h hname hsymbol =>
    obtain rfl := hp.eq_of_key hfile hfile h.mem_preorder hn hkey
    obtain ⟨s, -, rfl⟩ := Scope.exists_of_lookup hsymbol
    exact hname
  | @declared y b hy hb =>
    have hdeclared := Node.declaredIn_of_mem_ownBindings hb
    have hmem := (Node.preorder_sublist_of_mem_preorder hy).subset hdeclared.nameNode_mem
    rw [hp.eq_of_key hfile hfile hmem hn hkey]
    exact hdeclared.text
  -- a function is no identifier
  | @function y b hy hb hf =>
    have hmem := (Node.preorder_sublist_of_mem_preorder hy).subset
      (Node.declaredIn_of_mem_ownBindings hb).mem
    rw [← hp.eq_of_key hfile hfile hmem hn hkey, hkind] at hf
    cases hf
  | anonymous hy hf =>
    rw [← hp.eq_of_key hfile hfile hy hn hkey, hkind] at hf
    cases hf

theorem isWithin_iff_mem (hp : p.IsRead) {f : SourceFile} (hfile : file ∈ p.files)
    (hf : f ∈ p.files) (hy : y ∈ file.tree.preorder) (hn : n ∈ f.tree.preorder) :
    p.model.isWithin n y = true ↔ n ∈ y.preorder := by
  rw [hp.isWithin_iff hfile hy]
  constructor
  · rintro ⟨x, hx, hid⟩
    have hxfile := (Node.preorder_sublist_of_mem_preorder hy).subset hx
    obtain rfl := hp.eq_of_key hfile hf hxfile hn (by rw [Node.key, Node.key, hid])
    exact hx
  · exact fun hx => ⟨n, hx, rfl⟩

end Program.IsRead

/-- Nodes of a file that are found by their identities, in the order in which they begin. -/
structure Model.Orders (m : Model) (file : SourceFile) (ds : List Node) : Prop where
  mem : ∀ d ∈ ds, d ∈ file.tree.preorder
  found : ∀ d ∈ ds, (d.id?.bind m.entry?).map Node.Entry.node = some d
  distinct : (ds.map Node.id?).Nodup
  begins : ds.Pairwise Node.BeginsBefore

theorem Node.not_beginsBefore_self (n : Node) : ¬n.BeginsBefore n := by
  rintro ⟨s, t, hs, ht, hlt⟩
  obtain rfl := Option.some.inj (hs.symm.trans ht)
  exact Nat.lt_irrefl _ hlt

namespace Program.IsRead

variable {p : Program} {file : SourceFile} {n y : Node} {ds : List Node} {symbol : Symbol}

theorem node_entry? (hp : p.IsRead) (hfile : file ∈ p.files) (hy : y ∈ file.tree.preorder) :
    (y.id?.bind p.model.entry?).map Node.Entry.node = some y := by
  obtain ⟨path, hpath⟩ := Node.exists_leads_of_mem_preorder (hp.shaped file hfile) hy
  rw [hp.id?_eq hfile hy, Option.bind_some,
    entry?_eq hfile hpath (hp.ids file hfile y hy) (hp.unique _), Option.map_some]

theorem orders (hp : p.IsRead) (hfile : file ∈ p.files) (hmem : ∀ d ∈ ds, d ∈ file.tree.preorder)
    (hbegins : ds.Pairwise Node.BeginsBefore) : p.model.Orders file ds where
  mem := hmem
  found d hd := hp.node_entry? hfile (hmem d hd)
  distinct := by
    refine List.pairwise_map.mpr (hbegins.imp_of_mem fun {a b} ha hb hab hid => ?_)
    obtain rfl := hp.eq_of_key hfile hfile (hmem b hb) (hmem a ha) (by rw [Node.key, Node.key, hid])
    exact a.not_beginsBefore_self hab
  begins := hbegins

/-- What a node declares under a name is in the order of the source. -/
theorem orders_ownBindings {P : Nat → Prop} (hp : p.IsRead) (hfile : file ∈ p.files)
    (hlaid : file.tree.IsLaid P) (hnames : file.tree.HasNames) (hy : y ∈ file.tree.preorder)
    (name : String) : p.model.Orders file
      ((y.ownBindings.filter fun b => b.name = name).map Binding.declaration) := by
  have hsub := Node.preorder_sublist_of_mem_preorder hy
  refine hp.orders hfile (List.forall_mem_map.mpr fun b hb => ?_) ?_
  · exact hsub.subset (Node.declaredIn_of_mem_ownBindings (List.mem_filter.mp hb).1).mem
  · exact (Node.pairwise_declarations (hlaid.mem_preorder hy)
      fun m hm => hnames m (hsub.subset hm)).sublist (List.filter_sublist.map _)

/-- A symbol has a declaration, and the declarations are in the order of the source. -/
theorem orders_declarations (hp : p.IsRead)
    (hlaid : ∀ file ∈ p.files, ∃ P, file.tree.IsLaid P ∧ file.tree.HasNames)
    (h : p.model.Has symbol) : p.model.declarations symbol ≠ [] ∧
      ∃ file ∈ p.files, p.model.Orders file (p.model.declarations symbol) := by
  cases h with
  | @named s name hs hname =>
    have hscope := hs
    rw [scopes_model] at hscope
    obtain ⟨file, hfile, hscope⟩ := List.mem_flatMap.mp hscope
    obtain ⟨y, hy, howner, hbindings⟩ := SourceFile.exists_of_scope (hp.kind file hfile) hscope
    obtain ⟨P, hP, hnames⟩ := hlaid file hfile
    obtain ⟨b, hb, hname⟩ := Scope.declares_iff.mp hname
    rw [howner, hp.declarations_of_scope hfile hy ⟨s, hs, howner⟩]
    refine ⟨List.ne_nil_of_mem (List.mem_map_of_mem (List.mem_filter.mpr ⟨hbindings ▸ hb, ?_⟩)),
      file, hfile, hp.orders_ownBindings hfile hP hnames hy name⟩
    simpa using hname
  | @anonymous e he h =>
    obtain ⟨file, hfile, he⟩ := List.mem_flatMap.mp he
    have hy : e.node ∈ file.tree.preorder := by
      rw [← Node.map_node_entriesUnder file.tree []]
      exact List.mem_map_of_mem he
    rw [hp.declarations_anonymous hfile hy]
    refine ⟨List.cons_ne_nil _ _, file, hfile, hp.orders hfile ?_ (List.pairwise_singleton _ _)⟩
    simpa using hy

end Program.IsRead

structure Model.IsSound (m : Model) : Prop where
  resolutions : ∀ r ∈ m.resolutions, m.Has r.2
  moduleBindings : ∀ file name symbol, m.moduleBinding? file name = some symbol → m.Has symbol
  exports : ∀ file name symbol, m.exported? file name = some symbol → m.Has symbol
  aliases : ∀ a ∈ m.aliases, m.Has a.1 ∧ m.Has a.2
  declarations : ∀ symbol, m.Has symbol → m.declarations symbol ≠ [] ∧
    ∃ file ∈ m.files, m.Orders file (m.declarations symbol)
  names : ∀ file ∈ m.files, ∀ n ∈ file.tree.preorder, n.kind = .identifier →
    ∀ symbol, m.resolve? n = some symbol → n.identifier? = some symbol.name
  within : ∀ file ∈ m.files, ∀ f ∈ m.files, ∀ root ∈ file.tree.preorder, ∀ n ∈ f.tree.preorder,
    m.isWithin n root = true ↔ n ∈ root.preorder

namespace Program

theorem isSound_model_ofFiles {files : List SourceFile}
    (hfiles : ∀ f ∈ files, ∃ source, SourceFile.parse f.name source = .ok f) :
    (ofFiles files).model.IsSound := by
  have hp := isRead_ofFiles hfiles
  refine
    { resolutions := fun (k, symbol) hr => ?_
      moduleBindings := fun _ _ _ => Model.has_moduleBinding?
      exports := fun _ _ _ => Model.has_exported?
      aliases := fun a ha => Model.has_of_link (Model.mem_of_mem_lastOfEach ha)
      declarations := fun _ => hp.orders_declarations fun _ => isLaid_of_mem_ofFiles hfiles
      names := fun _ hfile _ hn hkind _ => hp.identifier?_of_resolve? hfile hn hkind
      within := fun _ hfile _ hf _ hroot _ hn => hp.isWithin_iff_mem hfile hf hroot hn }
  obtain ⟨_, hb, hr⟩ := List.mem_flatMap.mp hr
  obtain ⟨file, hfile, rfl⟩ := List.mem_map.mp hb
  exact hp.has_of_resolution hfile hr

/-- A variable with three declarations, two of them in blocks, and an overloaded function that
another file imports and that returns one without a name. -/
theorem isSound_model_ofFiles_merged :
    ∃ files, files =
      (SourceFile.parse "a.ts" ("import \x7b f as g \x7d from \"./b\"; var x = g; if (x) \x7b " ++
        "var x = function h(y) \x7b return h; \x7d; \x7d else \x7b var x; \x7d")).toOption.toList ++
      (SourceFile.parse "b.ts"
        "export function f(a); export function f(a) \x7b return () => a; \x7d").toOption.toList ∧
    (ofFiles files).model.IsSound ∧
    (ofFiles files).model.moduleBinding? "a.ts" "g" = some (.named 1 "g") ∧
    (ofFiles files).model.exported? "b.ts" "f" = some (.named 33 "f") ∧
    ((ofFiles files).model.declarations (.named 1 "x")).map (fun d => d.span.map Span.start) =
      [some 34, some 54, some 100] ∧
    ((ofFiles files).model.declarations (.named 33 "f")).map Node.id? = [some 34, some 38] ∧
    ((ofFiles files).model.declarations (.anonymous 44)).map Node.kind = [.arrowFunction] := by
  refine ⟨_, rfl, isSound_model_ofFiles fun f hf => ?_, by decide +kernel⟩
  obtain hf | hf := List.mem_append.mp hf
  · exact ⟨_, SourceFile.parse_of_mem_toList hf⟩
  · exact ⟨_, SourceFile.parse_of_mem_toList hf⟩

end Program

end Quasiquote
