import Quasiquote.Proofs.TopLevel
import Quasiquote.Proofs.Visiting

namespace Quasiquote

namespace Bindings

variable {owners : List Nat} {b : Bindings} {k : Nat}

/-- The named symbols that are resolved belong to scopes around, or to scopes that are opened. -/
def IsClosed (owners : List Nat) (b : Bindings) : Prop :=
  ∀ i k name, (i, Symbol.named k name) ∈ b.resolutions → k ∈ owners ++ b.scopes.map Scope.owner

theorem composes_isClosed (owners : List Nat) : Composes (IsClosed owners) where
  empty _ _ _ hr := absurd hr List.not_mem_nil
  append {a b} ha hb i k name hr := by
    simp only [append, List.map_append, List.mem_append] at hr ⊢
    obtain hr | hr := hr
    · have hk := ha i k name hr
      rw [List.mem_append] at hk
      tauto
    · have hk := hb i k name hr
      rw [List.mem_append] at hk
      tauto

theorem isClosed_ofScope (s : Scope) (owners : List Nat) : IsClosed owners (ofScope s) := by
  intro i k name hr
  obtain ⟨b, -, hr⟩ := List.mem_flatMap.mp hr
  have hk : k = s.owner := by
    dsimp only at hr
    split at hr
    · simp only [List.mem_cons, Prod.mk.injEq, Symbol.named.injEq, List.not_mem_nil, or_false] at hr
      obtain ⟨-, rfl, -⟩ | ⟨-, rfl, -⟩ := hr <;> rfl
    · simp only [List.mem_singleton, Prod.mk.injEq, Symbol.named.injEq] at hr
      exact hr.2.1
  rw [hk]
  exact List.mem_append_right _ (List.mem_singleton_self _)

theorem isClosed_ofAnonymous (n : Node) (owners : List Nat) : IsClosed owners (ofAnonymous n) := by
  intro i k name hr
  unfold ofAnonymous at hr
  split at hr
  · simp at hr
  · cases hr

/-- A scope that is opened need not be around. -/
theorem IsClosed.close (h : IsClosed (k :: owners) b) (hk : k ∈ b.scopes.map Scope.owner) :
    IsClosed owners b := by
  intro i j name hr
  obtain rfl | hj := List.mem_cons.mp (List.cons_append ▸ h i j name hr)
  · exact List.mem_append_right _ hk
  · exact hj

end Bindings

theorem Scope.symbol?_eq_some_iff {s : Scope} {name : String} {symbol : Symbol} :
    s.symbol? name = some symbol ↔ s.declares name = true ∧ .named s.owner name = symbol := by
  rw [symbol?, Option.ite_none_right_eq_some, Option.some_inj]

theorem Scope.exists_declares_of_lookup {ss : List Scope} {name : String} {symbol : Symbol}
    (h : lookup ss name = some symbol) :
    ∃ s ∈ ss, s.declares name = true ∧ symbol = .named s.owner name := by
  obtain ⟨s, hs, hsymbol⟩ := List.exists_of_findSome?_eq_some h
  obtain ⟨hname, rfl⟩ := symbol?_eq_some_iff.mp hsymbol
  exact ⟨s, hs, hname, rfl⟩

theorem Scope.exists_of_lookup {ss : List Scope} {name : String} {symbol : Symbol}
    (h : lookup ss name = some symbol) : ∃ s ∈ ss, symbol = .named s.owner name := by
  obtain ⟨s, hs, -, hsymbol⟩ := exists_declares_of_lookup h
  exact ⟨s, hs, hsymbol⟩

namespace Node

variable {file : String} {ss : List Scope} {n m : Node}

theorem isClosed_bodyBindings {owners : List Nat}
    (hparts : ∀ c ∈ n.descendants, ∀ s : Scope, s.owner = n.key →
      (c.bindings file (s :: ss)).IsClosed (n.key :: owners)) :
    (n.bodyBindings file ss).IsClosed (n.key :: owners) ∧
      n.key ∈ (n.bodyBindings file ss).scopes.map Scope.owner := by
  have hcomposes := Bindings.composes_isClosed (n.key :: owners)
  unfold bodyBindings
  cases hbody : n.child? .body with
  | none => exact ⟨Bindings.isClosed_ofScope _ _, List.mem_singleton_self _⟩
  | some body =>
    have hb := mem_children_of_child? hbody
    dsimp only
    split
    · exact ⟨hcomposes.append (Bindings.isClosed_ofScope _ _) (hcomposes.join fun c hc =>
        hparts c (mem_descendants_of_mem_children_of_mem_children hb
          (mem_children_of_mem_list hc)) _ rfl), List.mem_cons_self⟩
    · exact ⟨hcomposes.append (Bindings.isClosed_ofScope _ _)
        (hparts body (mem_descendants_of_mem_children hb) _ rfl), List.mem_cons_self⟩

theorem isClosed_bindings (n : Node) (file : String) (ss : List Scope) :
    (n.bindings file ss).IsClosed (ss.map Scope.owner) := by
  induction n using inductionOnDescendants generalizing ss with
  | h n ih =>
    have hparts : ∀ c ∈ n.descendants, ∀ s : Scope, s.owner = n.key →
        (c.bindings file (s :: ss)).IsClosed (n.key :: ss.map Scope.owner) := by
      intro c hc s hs
      have hclosed := ih c hc (s :: ss)
      rwa [List.map_cons, hs] at hclosed
    have hcomposes := Bindings.composes_isClosed (n.key :: ss.map Scope.owner)
    obtain hk | hk | hk | hk | hk := n.cases_kind
    · rw [bindings_importDeclaration hk]
      exact (Bindings.composes_isClosed _).empty
    · rw [bindings_identifier hk]
      split
      · next symbol hsymbol =>
        obtain ⟨name, -, hlookup⟩ := Option.bind_eq_some_iff.mp hsymbol
        obtain ⟨s, hs, rfl⟩ := Scope.exists_of_lookup hlookup
        intro i k name' hr
        obtain ⟨-, hsymbol⟩ := Prod.mk.inj (List.mem_singleton.mp hr)
        rw [(Symbol.named.inj hsymbol).1]
        exact List.mem_append_left _ (List.mem_map_of_mem hs)
      · exact (Bindings.composes_isClosed _).empty
    · rw [bindings_block hk]
      exact .close (hcomposes.append (Bindings.isClosed_ofScope _ _) (hcomposes.join fun c hc =>
        hparts c (mem_descendants_of_mem_children (mem_children_of_mem_list hc)) _ rfl))
        List.mem_cons_self
    · rw [bindings_function hk]
      obtain ⟨hbody, hopened⟩ := isClosed_bodyBindings hparts
      refine .close (hcomposes.append (Bindings.isClosed_ofAnonymous _ _)
        (hcomposes.append (hcomposes.join fun q hq => ?_) hbody)) ?_
      · cases he : q.child? .initializer with
        | none => exact hcomposes.empty
        | some e => exact hparts e (mem_descendants_of_mem_children_of_mem_children
            (mem_children_of_mem_list hq) (mem_children_of_child? he)) _ rfl
      · simp only [Bindings.append, List.map_append, List.mem_append]
        exact .inr (.inr hopened)
    · rw [bindings_ordinary hk]
      exact (Bindings.composes_isClosed _).join fun c hc =>
        ih c (mem_descendants_of_mem_children (mem_children_of_mem_referencing hc)) ss

end Node

theorem SourceFile.isClosed_bindings (file : SourceFile) : file.bindings.IsClosed [] :=
  have hcomposes := Bindings.composes_isClosed [file.tree.key]
  .close (hcomposes.append (Bindings.isClosed_ofScope _ _)
    (hcomposes.join fun s _ => s.isClosed_bindings file.name [file.moduleScope]))
    List.mem_cons_self

theorem Program.exists_scope {p : Program} {n : Node} {k : Nat} {name : String}
    (h : p.model.resolve? n = some (.named k name)) : ∃ s ∈ p.model.scopes, s.owner = k := by
  obtain ⟨id, -, hid⟩ := Option.bind_eq_some_iff.mp h
  have hclosed : (Bindings.join (p.files.map SourceFile.bindings)).IsClosed [] :=
    (Bindings.composes_isClosed []).join fun file _ => file.isClosed_bindings
  change (Bindings.join (p.files.map SourceFile.bindings)).resolutions.lookup id = _ at hid
  rw [Bindings.lookup_resolutions] at hid
  obtain ⟨⟨i, _⟩, hr, rfl⟩ := List.mem_map.mp (List.mem_of_mem_head? hid)
  obtain ⟨s, hs, rfl⟩ := List.mem_map.mp (hclosed i k name (List.mem_filter.mp hr).1)
  exact ⟨s, hs, rfl⟩

theorem Node.mem_preorder_of_mem_ancestors {n a : Node} {e : Node.Entry} {ancestors : List Node}
    (he : e ∈ n.entriesUnder ancestors) (ha : a ∈ e.ancestors) :
    a ∈ ancestors ∨ a ∈ n.preorder ∧ e.node ∈ a.preorder := by
  induction n using inductionOnChildren generalizing ancestors with
  | h n ih =>
    rw [entriesUnder_eq, List.mem_cons, List.mem_flatMap] at he
    obtain rfl | ⟨c, hc, he⟩ := he
    · exact .inl ha
    have hsub := preorder_sublist_of_mem_preorder (mem_preorder_of_mem_children hc)
    obtain ha' | ⟨hac, hea⟩ := ih c hc he
    · obtain rfl | ha' := List.mem_cons.mp ha'
      · have hnode : e.node ∈ c.preorder := by
          rw [← map_node_entriesUnder c (a :: ancestors)]
          exact List.mem_map_of_mem he
        exact .inr ⟨a.self_mem_preorder, hsub.subset hnode⟩
      · exact .inl ha'
    · exact .inr ⟨hsub.subset hac, hea⟩

/-- What a scope declares on a way is among what its node declares. -/
theorem Descent.Declares.names_ownBindings {d : Descent} {outer : List Descent} {name : String}
    (h : d.Declares name outer) : Binding.Names d.node.ownBindings name := by
  have hhead {n : Node} (hk : n.kind.isFunctionLike = true)
      (h : (n.kind = .functionExpression ∧ n.IsNamed name) ∨ ∃ p ∈ n.list .parameters, p.IsNamed name) :
      Binding.Names n.ownBindings name := by
    have hnames : Binding.Names (Scope.ofHead "" n).bindings name := (names_ofHead_iff hk).mpr h
    rw [Node.ownBindings_function hk, Binding.names_append_iff]
    exact .inl hnames
  cases h with
  | module hk hs h =>
    rw [Node.ownBindings_sourceFile hk, names_hoistedInFunction_iff]
    exact ⟨_, hs, h⟩
  | ownName hk h => exact hhead (by rw [hk]; rfl) (.inl ⟨hk, h⟩)
  | parameter hk hp h => exact hhead hk (.inr ⟨_, hp, h⟩)
  | body hk hb hbk hs h =>
    rw [Node.ownBindings_function hk, Binding.names_append_iff, Node.bodyDeclared, hb]
    dsimp only
    rw [if_pos hbk, names_hoistedInFunction_iff]
    exact .inr ⟨_, hs, h⟩
  | block hk _ hs h =>
    rw [Node.ownBindings_block hk, Binding.hoistedInBlock, Binding.names_flatMap_iff]
    exact ⟨_, hs, Binding.names_ofStatement_iff.mpr h⟩

namespace Program.IsRead

variable {p : Program} {file f : SourceFile} {n y z d t : Node} {name : String}
  {path : List Descent}

/-- A node of a program is known by its identity. -/
theorem eq_of_key (hp : p.IsRead) (hfile : file ∈ p.files) (hf : f ∈ p.files)
    (hy : y ∈ file.tree.preorder) (hz : z ∈ f.tree.preorder) (h : z.key = y.key) : z = y := by
  have hmem : ∀ {g : SourceFile} {x : Node}, g ∈ p.files → x ∈ g.tree.preorder →
      x ∈ (p.files.map SourceFile.tree).flatMap Node.preorder := fun hg hx =>
    List.mem_flatMap.mpr ⟨_, List.mem_map_of_mem hg, hx⟩
  have hfind := find?_eq_of_countP (hmem hfile hy) (by simp) (hp.unique y.key)
  rw [find?_eq_of_countP (hmem hf hz) (by simpa using h) (hp.unique y.key)] at hfind
  exact Option.some.inj hfind

theorem id?_eq (hp : p.IsRead) (hfile : file ∈ p.files) (hy : y ∈ file.tree.preorder) :
    y.id? = some y.key := by
  obtain ⟨id, hid⟩ := Option.isSome_iff_exists.mp (hp.ids file hfile y hy)
  simp [Node.key, hid]

/-- The scope of a node that has one declares what the node does. -/
theorem bindings_scope? (hp : p.IsRead) (hfile : file ∈ p.files) (hy : y ∈ file.tree.preorder)
    (h : ∃ s ∈ p.model.scopes, s.owner = y.key) :
    (p.model.scope? y.key).map Scope.bindings = some y.ownBindings := by
  obtain ⟨s, hs, howner⟩ := h
  have hsome : (p.model.scope? y.key).isSome = true :=
    List.find?_isSome.mpr ⟨s, hs, by simpa using howner⟩
  obtain ⟨t, ht⟩ := Option.isSome_iff_exists.mp hsome
  have htmem := List.mem_of_find?_eq_some ht
  have htowner : t.owner = y.key := by simpa using List.find?_some ht
  rw [scopes_model] at htmem
  obtain ⟨f, hf, htf⟩ := List.mem_flatMap.mp htmem
  obtain ⟨z, hz, hzowner, hbindings⟩ := SourceFile.exists_of_scope (hp.kind f hf) htf
  obtain rfl := hp.eq_of_key hfile hf hy hz (hzowner.symm.trans htowner)
  rw [ht, Option.map_some, hbindings]

theorem declarations_of_scope (hp : p.IsRead) (hfile : file ∈ p.files)
    (hy : y ∈ file.tree.preorder) (h : ∃ s ∈ p.model.scopes, s.owner = y.key) (name : String) :
    p.model.declarations (.named y.key name) =
      (y.ownBindings.filter fun b => b.name = name).map Binding.declaration := by
  have hscope := hp.bindings_scope? hfile hy h
  obtain ⟨s, hs, hbindings⟩ := Option.map_eq_some_iff.mp hscope
  rw [Model.declarations, Model.bindings, hs, Option.map_some, Option.getD_some, hbindings]

theorem declarations_named (hp : p.IsRead) (hfile : file ∈ p.files) (hy : y ∈ file.tree.preorder)
    (h : p.model.resolve? n = some (.named y.key name)) :
    p.model.declarations (.named y.key name) =
      (y.ownBindings.filter fun b => b.name = name).map Binding.declaration :=
  hp.declarations_of_scope hfile hy (exists_scope h) name

theorem declarations_anonymous (hp : p.IsRead) (hfile : file ∈ p.files)
    (hy : y ∈ file.tree.preorder) : p.model.declarations (.anonymous y.key) = [y] := by
  obtain ⟨path, hpath⟩ := Node.exists_leads_of_mem_preorder (hp.shaped file hfile) hy
  rw [Model.declarations, entry?_eq hfile hpath (hp.ids file hfile y hy) (hp.unique _)]
  rfl

/-- A node lies within another if a node of its identity is in the tree of that one. -/
theorem isWithin_iff (hp : p.IsRead) (hfile : file ∈ p.files) (hy : y ∈ file.tree.preorder) :
    p.model.isWithin d y = true ↔ ∃ x ∈ y.preorder, x.id? = d.id? := by
  rw [Model.isWithin, Bool.or_eq_true, decide_eq_true_eq]
  constructor
  · rintro (hid | hany)
    · exact ⟨y, y.self_mem_preorder, hid.symm⟩
    obtain ⟨a, ha, hay⟩ := List.any_eq_true.mp hany
    cases hentry : d.id?.bind p.model.entry? with
    | none => simp [Model.ancestors, hentry] at ha
    | some e =>
      rw [Model.ancestors, hentry] at ha
      obtain ⟨id, hid, hentry⟩ := Option.bind_eq_some_iff.mp hentry
      obtain ⟨f, hf, he⟩ := List.mem_flatMap.mp (List.mem_of_find?_eq_some hentry)
      have hnode : e.node.id? = some id := by simpa using List.find?_some hentry
      obtain ha | ⟨haf, hea⟩ := Node.mem_preorder_of_mem_ancestors he ha
      · cases ha
      have hkey : a.key = y.key := by
        rw [Node.key, of_decide_eq_true hay]
        rfl
      obtain rfl := hp.eq_of_key hfile hf hy haf hkey
      exact ⟨e.node, hea, hnode.trans hid.symm⟩
  · rintro ⟨x, hx, hid⟩
    obtain ⟨q, hq⟩ := Node.exists_leads_of_mem_preorder (hp.shaped file hfile) hy
    obtain ⟨r, hr⟩ := Node.exists_leads_of_mem_preorder ((hp.shaped file hfile).of_mem_preorder hy) hx
    obtain ⟨rfl, rfl⟩ | ⟨l, c, inner, -, -, rfl⟩ := hr.cases_first
    · exact .inl hid.symm
    · have hxr := hq.trans hr
      have hancestors := ancestors_eq hfile hxr (hp.ids file hfile x hxr.mem_preorder) (hp.unique _)
      refine .inr (List.any_eq_true.mpr ⟨y, ?_, by simp⟩)
      rw [Model.ancestors, ← hid, ← Model.ancestors, hancestors]
      simp

/-- A reference resolves to the innermost declaration on the way to it. -/
theorem innermost_resolve? (hp : p.IsRead) (hfile : file ∈ p.files)
    (hpath : file.tree.Leads path n) (href : ∀ d ∈ path, d.isReference = true)
    (hname : n.identifier? = some name) : Descent.Innermost name path (p.model.resolve? n) := by
  rw [resolve?_eq hp.shaped hfile hpath (hp.ids file hfile n hpath.mem_preorder) (hp.unique _)]
  exact SourceFile.innermost_bindings (hp.kind file hfile) (hp.shaped file hfile) hpath href hname
    (hp.countKey_le_one hfile _)

/-- A reference resolves to a scope on the way to it that declares its name. -/
theorem exists_names (hp : p.IsRead) (hfile : file ∈ p.files) (hpath : file.tree.Leads path n)
    (href : ∀ d ∈ path, d.isReference = true) (hname : n.identifier? = some name) {symbol : Symbol}
    (h : p.model.resolve? n = some symbol) :
    ∃ y ∈ file.tree.preorder, symbol = .named y.key name ∧ Binding.Names y.ownBindings name := by
  have hin := hp.innermost_resolve? hfile hpath href hname
  rw [h] at hin
  obtain ⟨d, hd, ⟨outer, hdeclares⟩, hsymbol⟩ := hin.exists_declares
  obtain ⟨way, hway⟩ := hpath.exists_of_mem hd
  exact ⟨d.node, hway.mem_preorder, hsymbol, hdeclares.names_ownBindings⟩

/-- A reference that resolves has a declaration. -/
theorem declarations_ne_nil (hp : p.IsRead) (hfile : file ∈ p.files)
    (hpath : file.tree.Leads path n) (href : ∀ d ∈ path, d.isReference = true)
    (hname : n.identifier? = some name) {symbol : Symbol}
    (h : p.model.resolve? n = some symbol) : p.model.declarations symbol ≠ [] := by
  obtain ⟨y, hy, rfl, b, hb, hbname⟩ := hp.exists_names hfile hpath href hname h
  rw [hp.declarations_named hfile hy h]
  refine List.ne_nil_of_mem (List.mem_map_of_mem (List.mem_filter.mpr ⟨hb, ?_⟩))
  simpa using hbname

end Program.IsRead

namespace Node

variable {file : String} {ss : List Scope} {n m t : Node}

theorem key_ne_of_leads {path : List Descent} (hcount : countKey t.key [t] ≤ 1)
    (hp : t.Leads path m) (hne : path ≠ []) : m.key ≠ t.key := fun h =>
  hne (hp.unique hcount .here h rfl).1

def ownSymbol? (t : Node) : Option Symbol :=
  if t.kind.isFunctionLike ∧ t.kind ≠ .functionDeclaration then
    match t.child? .name with
    | none => some (.anonymous t.key)
    | some name => name.identifier?.map (.named t.key)
  else none

section

variable (hs : t.AllShaped) (hcount : countKey t.key [t] ≤ 1)

include hs hcount

theorem symbolsOf_descendant {c : Node} (hc : c ∈ t.descendants) :
    (c.bindings file ss).symbolsOf t.key = [] := by
  by_contra hne
  have hone := one_le_countKey_of_bindings
    (hs.of_mem_preorder (mem_preorder_of_mem_descendants hc)) hne
  obtain ⟨d, hd, hcd⟩ := List.mem_flatMap.mp hc
  have hle := Nat.le_trans hone (countKey_le_of_mem_preorder hcd)
  have hchildren := one_le_countKey_of_mem hd hle
  rw [countKey_singleton, if_pos rfl] at hcount
  omega

theorem symbolsOf_join_descendants {cs : List Node} (hcs : ∀ c ∈ cs, c ∈ t.descendants) :
    (Bindings.join (cs.map (bindings file ss))).symbolsOf t.key = [] := by
  rw [Bindings.symbolsOf_join, List.flatMap_map]
  exact List.flatMap_eq_nil_iff.mpr fun c hc => symbolsOf_descendant hs hcount (hcs c hc)

omit hs in
/-- A scope does not resolve the node that opens it, if what it declares stands below. -/
theorem symbolsOf_ofScope_self {s : Scope} (hb : ∀ b ∈ s.bindings, Binding.Located t b ∧
      (b.declaration.kind.isFunctionLike = true → b.declaration.key ≠ t.key)) :
    (Bindings.ofScope s).symbolsOf t.key = [] := by
  by_contra hne
  obtain ⟨b, hmem, hkey | ⟨hfunction, hkey⟩⟩ := Bindings.exists_of_symbolsOf_ofScope hne
  · obtain ⟨path, hp, ⟨d, hd, -⟩, -⟩ := (hb b hmem).1.name
    exact key_ne_of_leads hcount hp (List.ne_nil_of_mem hd) hkey
  · exact (hb b hmem).2 hfunction hkey

omit hs in
/-- Of what the scope of a function declares, its own name alone resolves the function. -/
theorem symbolsOf_ofOwnName (file : String) (hk : t.kind.isFunctionLike = true)
    {declared : List Binding}
    (hdeclared : ∀ b ∈ declared, Binding.Located t b ∧
      (b.declaration.kind.isFunctionLike = true → b.declaration.key ≠ t.key)) :
    (Bindings.ofScope ⟨file, t.key, Binding.ofOwnName t ++ declared⟩).symbolsOf t.key =
      if t.kind = .functionDeclaration then []
      else ((t.child? .name).bind identifier?).toList.map (.named t.key) := by
  have hrest := symbolsOf_ofScope_self (s := ⟨file, t.key, declared⟩) hcount hdeclared
  simp only [Bindings.symbolsOf, Bindings.ofScope, List.flatMap_append, List.filter_append,
    List.map_append] at hrest ⊢
  rw [hrest, List.append_nil, Binding.ofOwnName]
  split
  · rfl
  · cases hname : t.child? .name with
    | none => rfl
    | some id =>
      have hkey := key_ne_of_leads hcount (.down .here (mem_nodesAt_of_child? hname)) (by simp)
      cases hid : id.identifier? with
      | none => simp [Binding.ofName, hid]
      | some name => simp [Binding.ofName, hid, hk, hkey]

theorem symbolsOf_bodyBindings_self (hk : t.kind.isFunctionLike = true) :
    (t.bodyBindings file ss).symbolsOf t.key =
      if t.kind = .functionDeclaration then []
      else ((t.child? .name).bind identifier?).toList.map (.named t.key) := by
  have hparameters : ∀ b ∈ Binding.ofParameters t, Binding.Located t b ∧
      (b.declaration.kind.isFunctionLike = true → b.declaration.key ≠ t.key) := by
    intro b hb
    refine ⟨Binding.located_of_mem_ofParameters hs hb, fun _ => ?_⟩
    obtain ⟨q, hq, hb⟩ := List.mem_flatMap.mp hb
    rw [Binding.declaration_of_mem_ofName hb]
    exact key_ne_of_leads hcount (.down .here (mem_nodesAt_of_mem_list hq)) (by simp)
  have hhead := symbolsOf_ofOwnName hcount file hk hparameters
  unfold bodyBindings
  cases hbody : t.child? .body with
  | none => exact hhead
  | some body =>
    have hb := mem_children_of_child? hbody
    dsimp only
    split
    · rw [Bindings.symbolsOf_append, symbolsOf_join_descendants hs hcount fun c hc =>
        mem_descendants_of_mem_children_of_mem_children hb (mem_children_of_mem_list hc),
        List.append_nil, Scope.ofFunction, List.append_assoc]
      refine symbolsOf_ofOwnName hcount file hk (List.forall_mem_append.mpr ⟨hparameters, fun b hb' => ?_⟩)
      have hat := mem_nodesAt_of_child? hbody
      have hlocated := Scope.located_hoistedInFunction (hs.of_mem_children hb) hb'
      refine ⟨hlocated.up hat (by simp), fun hf => ?_⟩
      obtain ⟨path, hp, -⟩ := hlocated.function hf
      exact key_ne_of_leads hcount (hp.up hat) (by simp)
    · rw [Bindings.symbolsOf_append, symbolsOf_descendant hs hcount
        (mem_descendants_of_mem_children hb), List.append_nil]
      exact hhead

/-- A node other than a name resolves to the symbol of its own, if it has one. -/
theorem head?_symbolsOf_self (hk : t.kind ≠ .identifier) :
    ((t.bindings file ss).symbolsOf t.key).head? = t.ownSymbol? := by
  obtain hkind | hkind | hkind | hkind | hkind := t.cases_kind
  · rw [bindings_importDeclaration hkind, ownSymbol?, if_neg (by simp [hkind, Kind.isFunctionLike])]
    rfl
  · exact absurd hkind hk
  · rw [bindings_block hkind, Bindings.symbolsOf_append, symbolsOf_join_descendants hs hcount fun c hc =>
        mem_descendants_of_mem_children (mem_children_of_mem_list hc), List.append_nil,
      symbolsOf_ofScope_self hcount fun b hb => ?_, ownSymbol?,
      if_neg (by simp [hkind, Kind.isFunctionLike])]
    · rfl
    · refine ⟨Scope.located_ofBlock hs hb, fun hf hkey => ?_⟩
      obtain ⟨path, hp, -⟩ := (Scope.located_ofBlock hs hb).function hf
      obtain ⟨-, rfl⟩ := hp.unique hcount .here hkey rfl
      simp [hkind, Kind.isFunctionLike] at hf
  · rw [bindings_function hkind, Bindings.symbolsOf_append, Bindings.symbolsOf_append,
      symbolsOf_defaults, symbolsOf_bodyBindings_self hs hcount hkind,
      List.flatMap_eq_nil_iff.mpr fun e he =>
        symbolsOf_descendant hs hcount (mem_descendants_of_mem_defaults he), List.nil_append,
      Bindings.ofAnonymous, ownSymbol?]
    by_cases hd : t.kind = .functionDeclaration
    · simp [hd, Bindings.symbolsOf_empty]
    · cases hname : t.child? .name with
      | none => simp [hd, hkind, Bindings.symbolsOf]
      | some id => cases hid : id.identifier? <;> simp [hd, hkind, hid, Bindings.symbolsOf_empty]
  · rw [bindings_ordinary hkind, symbolsOf_join_descendants hs hcount fun c hc =>
        mem_descendants_of_mem_children (mem_children_of_mem_referencing hc), ownSymbol?,
      if_neg (by simp [hkind.2.2.2])]
    rfl

end

end Node

namespace Program.IsRead

variable {p : Program} {file : SourceFile} {t : Node} {path : List Descent}

/-- A tag that is no name resolves to the function that it is. -/
theorem resolve?_eq_ownSymbol? (hp : p.IsRead) (hfile : file ∈ p.files)
    (hpath : file.tree.Leads path t) (href : ∀ d ∈ path, d.isReference = true)
    (hsought : t.IsSought path) (hk : t.kind ≠ .identifier) :
    p.model.resolve? t = t.ownSymbol? := by
  have hshaped := hp.shaped file hfile
  have hcount := hp.countKey_le_one hfile t.key
  obtain ⟨ts, -, heq⟩ :=
    SourceFile.exists_tracks (hp.kind file hfile) hshaped hpath href hsought hcount
  rw [resolve?_eq hp.shaped hfile hpath (hp.ids file hfile t hpath.mem_preorder) (hp.unique _), heq]
  exact Node.head?_symbolsOf_self (hshaped.of_mem_preorder hpath.mem_preorder)
    (Nat.le_trans (Node.countKey_le_of_mem_preorder hpath.mem_preorder) hcount) hk

end Program.IsRead

end Quasiquote
