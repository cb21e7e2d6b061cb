import Quasiquote.Proofs.ScopeTable

namespace Quasiquote

/-- Resolution comes to a node through references, inside scopes that nodes of the file open. -/
structure SourceFile.Visits (file : SourceFile) (path : List Descent) (ss : List Scope) (n : Node) :
    Prop where
  leads : file.tree.Leads path n
  refers : ∀ d ∈ path, d.isReference = true
  inside : path ≠ []
  tracks : Scope.Tracks ss path
  /-- The body of a function is passed with the function. -/
  body : n.kind = .block → ¬Descent.ReachesBody path
  owned : ∀ s ∈ ss, ∃ y ∈ file.tree.preorder, s.owner = y.key ∧ s.bindings ⊆ y.ownBindings

inductive SourceFile.Resolution (file : SourceFile) : Nat → Symbol → Prop
  | reference {path : List Descent} {ss : List Scope} {n : Node} {name : String} {symbol : Symbol}
    (h : file.Visits path ss n) (hname : n.identifier? = some name)
    (hsymbol : Scope.lookup ss name = some symbol) : Resolution file n.key symbol
  | declared {y : Node} {b : Binding} (hy : y ∈ file.tree.preorder) (hb : b ∈ y.ownBindings) :
    Resolution file b.nameNode.key (.named y.key b.name)
  | function {y : Node} {b : Binding} (hy : y ∈ file.tree.preorder) (hb : b ∈ y.ownBindings)
    (hf : b.declaration.kind.isFunctionLike = true) :
    Resolution file b.declaration.key (.named y.key b.name)
  | anonymous {n : Node} (hn : n ∈ file.tree.preorder) (hf : n.kind.isFunctionLike = true) :
    Resolution file n.key (.anonymous n.key)

namespace SourceFile

variable {file : SourceFile} {path : List Descent} {ss : List Scope} {n c e body q : Node}
  {k : Nat} {symbol : Symbol}

theorem Visits.mem_preorder (h : file.Visits path ss n) : n ∈ file.tree.preorder :=
  h.leads.mem_preorder

theorem visits_statement (hk : file.tree.kind = .sourceFile)
    (hc : c ∈ file.tree.list .statements) :
    file.Visits [⟨file.tree, .statements⟩] [file.moduleScope] c where
  leads := .down .here (Node.mem_nodesAt_of_mem_list hc)
  refers := by simp [Descent.isReference, Kind.refersIn, hk]
  inside := by simp
  tracks := tracks_moduleScope hk .statements
  body _ := Node.not_reachesBody_cons _ (by simp)
  owned := by
    rw [List.forall_mem_singleton]
    exact ⟨file.tree, file.tree.self_mem_preorder, rfl,
      by rw [Node.ownBindings_sourceFile hk]; exact List.Subset.refl _⟩

namespace Visits

theorem owned_cons (h : file.Visits path ss n) {s : Scope} (howner : s.owner = n.key)
    (hbindings : s.bindings ⊆ n.ownBindings) : ∀ t ∈ s :: ss,
      ∃ y ∈ file.tree.preorder, t.owner = y.key ∧ t.bindings ⊆ y.ownBindings :=
  List.forall_mem_cons.mpr ⟨⟨n, h.mem_preorder, howner, hbindings⟩, h.owned⟩

theorem ofHead_subset (hk : n.kind.isFunctionLike = true) :
    (Scope.ofHead file.name n).bindings ⊆ n.ownBindings := by
  rw [Node.ownBindings_function hk]
  exact List.subset_append_left _ _

theorem ofFunction_subset (hk : n.kind.isFunctionLike = true) (hb : n.child? .body = some body)
    (hbk : body.kind = .block) :
    (Scope.ofFunction file.name n body).bindings ⊆ n.ownBindings := by
  rw [Node.ownBindings_function hk, Node.bodyDeclared, hb]
  dsimp only
  rw [if_pos hbk]
  exact List.Subset.refl _

theorem ordinary (h : file.Visits path ss n) (hs : file.tree.AllShaped) (hn : n.IsOrdinary)
    (hc : c ∈ n.referencing) : ∃ l, file.Visits (⟨n, l⟩ :: path) ss c := by
  have hfields := (hs.of_mem_preorder h.mem_preorder).shaped.fields
  obtain ⟨l, hl, href⟩ := Node.exists_of_mem_referencing hn hfields hc
  refine ⟨l, h.leads.down hl, List.forall_mem_cons.mpr ⟨href, h.refers⟩, by simp,
    h.tracks.skip fun _ => Descent.not_declares_of_isOrdinary hn h.inside, fun _ => ?_, h.owned⟩
  exact Node.not_reachesBody_cons _ fun _ => hn.2.2.2

theorem block (h : file.Visits path ss n) (hk : n.kind = .block) (hc : c ∈ n.list .statements) :
    file.Visits (⟨n, .statements⟩ :: path) (Scope.ofBlock file.name n :: ss) c where
  leads := h.leads.down (Node.mem_nodesAt_of_mem_list hc)
  refers := List.forall_mem_cons.mpr ⟨by simp [Descent.isReference, Kind.refersIn, hk], h.refers⟩
  inside := by simp
  tracks := h.tracks.enter rfl fun _ => Descent.declares_block_iff hk (h.body hk)
  body _ := Node.not_reachesBody_cons _ (by simp)
  owned := h.owned_cons rfl (by rw [Node.ownBindings_block hk]; exact List.Subset.refl _)

theorem default (h : file.Visits path ss n) (hs : file.tree.AllShaped)
    (hk : n.kind.isFunctionLike = true) (hq : q ∈ n.list .parameters)
    (he : q.child? .initializer = some e) :
    file.Visits (⟨q, .initializer⟩ :: ⟨n, .parameters⟩ :: path) (Scope.ofHead file.name n :: ss)
      e := by
  have hqk := (hs.of_mem_preorder h.mem_preorder).shaped.parameters q hq
  have hhead : Scope.Tracks (Scope.ofHead file.name n :: ss) (⟨n, .parameters⟩ :: path) :=
    h.tracks.enter rfl fun _ => Descent.declares_head_iff hk (by simp)
  refine ⟨(h.leads.down (Node.mem_nodesAt_of_mem_list hq)).down (Node.mem_nodesAt_of_child? he),
    ?_, by simp, hhead.skip fun _ => Descent.not_declares_of_kind ?_ ?_ (by simp),
    fun _ => Node.not_reachesBody_cons _ (by simp), h.owned_cons rfl (ofHead_subset hk)⟩
  · refine List.forall_mem_cons.mpr ⟨?_, List.forall_mem_cons.mpr ⟨?_, h.refers⟩⟩
    · simp [Descent.isReference, Kind.refersIn, hqk]
    · simp [Descent.isReference, Kind.refersIn_function hk]
  · simp [hqk]
  · simp [hqk, Kind.isFunctionLike]

theorem bodyStatement (h : file.Visits path ss n) (hk : n.kind.isFunctionLike = true)
    (hb : n.child? .body = some body) (hbk : body.kind = .block)
    (hc : c ∈ body.list .statements) :
    file.Visits (⟨body, .statements⟩ :: ⟨n, .body⟩ :: path)
      (Scope.ofFunction file.name n body :: ss) c := by
  have hfunction : Scope.Tracks (Scope.ofFunction file.name n body :: ss) (⟨n, .body⟩ :: path) :=
    h.tracks.enter rfl fun _ => Descent.declares_body_iff hk hb hbk
  refine ⟨(h.leads.down (Node.mem_nodesAt_of_child? hb)).down (Node.mem_nodesAt_of_mem_list hc),
    ?_, by simp,
    hfunction.skip fun _ => Descent.not_declares_of_reachesBody hbk ⟨_, rfl, hk, rfl⟩,
    fun _ => Node.not_reachesBody_cons _ (by simp), h.owned_cons rfl ?_⟩
  · refine List.forall_mem_cons.mpr ⟨?_, List.forall_mem_cons.mpr ⟨?_, h.refers⟩⟩
    · simp [Descent.isReference, Kind.refersIn, hbk]
    · simp [Descent.isReference, Kind.refersIn_function hk]
  · exact ofFunction_subset hk hb hbk

theorem bodyExpression (h : file.Visits path ss n) (hk : n.kind.isFunctionLike = true)
    (hb : n.child? .body = some body) (hbk : body.kind ≠ .block) :
    file.Visits (⟨n, .body⟩ :: path) (Scope.ofHead file.name n :: ss) body := by
  refine ⟨h.leads.down (Node.mem_nodesAt_of_child? hb),
    List.forall_mem_cons.mpr ⟨by simp [Descent.isReference, Kind.refersIn_function hk], h.refers⟩,
    by simp, h.tracks.enter rfl fun _ => Descent.declares_head_iff hk fun _ b hb' => ?_,
    fun hk' => absurd hk' hbk, h.owned_cons rfl (ofHead_subset hk)⟩
  obtain rfl := Option.some.inj (hb.symm.trans hb')
  exact hbk

end Visits

theorem resolution_of_ofScope {y : Node} {s : Scope} (hy : y ∈ file.tree.preorder)
    (howner : s.owner = y.key) (hbindings : s.bindings ⊆ y.ownBindings)
    (hr : (k, symbol) ∈ (Bindings.ofScope s).resolutions) : file.Resolution k symbol := by
  obtain ⟨b, hb, hr⟩ := List.mem_flatMap.mp hr
  have hb := hbindings hb
  dsimp only at hr
  rw [howner] at hr
  split at hr
  · next hf =>
    simp only [List.mem_cons, Prod.mk.injEq, List.not_mem_nil, or_false] at hr
    obtain ⟨rfl, rfl⟩ | ⟨rfl, rfl⟩ := hr
    · exact .declared hy hb
    · exact .function hy hb hf
  · obtain ⟨rfl, rfl⟩ := Prod.mk.inj (List.mem_singleton.mp hr)
    exact .declared hy hb

theorem Visits.enters {ts : List Scope} (h : file.Visits path ss n) (hs : file.tree.AllShaped)
    (hc : n.Enters file.name ss c ts) : ∃ path, file.Visits path ts c := by
  cases hc with
  | statement hk hc => exact ⟨_, h.block hk hc⟩
  | default hk hq he => exact ⟨_, h.default hs hk hq he⟩
  | bodyStatement hk hb hbk hc => exact ⟨_, h.bodyStatement hk hb hbk hc⟩
  | bodyExpression hk hb hbk => exact ⟨_, h.bodyExpression hk hb hbk⟩
  | part hn hc =>
    obtain ⟨l, hl⟩ := h.ordinary hs hn hc
    exact ⟨_, hl⟩

theorem Visits.resolution (h : file.Visits path ss n) (hs : file.tree.AllShaped)
    (hr : (k, symbol) ∈ (n.bindings file.name ss).resolutions) : file.Resolution k symbol := by
  induction n using Node.inductionOnDescendants generalizing path ss with
  | h n ih =>
    refine Node.bindings_compose (Bindings.composes_resolutions (r := (k, symbol)))
      (fun _ s hsymbol hr => ?_) (fun hk hr => ?_) (fun s hopens => ?_)
      (fun c ts henters hr => ?_) hr
    · obtain ⟨name, hname, hlookup⟩ := Option.bind_eq_some_iff.mp hsymbol
      obtain ⟨rfl, rfl⟩ := Prod.mk.inj (List.mem_singleton.mp hr)
      exact .reference h hname hlookup
    · unfold Bindings.ofAnonymous at hr
      split at hr
      · obtain ⟨rfl, rfl⟩ := Prod.mk.inj (List.mem_singleton.mp hr)
        exact .anonymous h.mem_preorder hk
      · cases hr
    · exact resolution_of_ofScope h.mem_preorder hopens.owner_eq
        (hopens.bindings_eq ▸ List.Subset.refl _)
    · obtain ⟨path, hvisits⟩ := h.enters hs henters
      exact ih c henters.mem_descendants hvisits hr

theorem resolution (hk : file.tree.kind = .sourceFile) (hs : file.tree.AllShaped)
    (hr : (k, symbol) ∈ file.bindings.resolutions) : file.Resolution k symbol := by
  obtain hr | hr := List.mem_append.mp hr
  · exact resolution_of_ofScope file.tree.self_mem_preorder rfl
      (by rw [Node.ownBindings_sourceFile hk]; exact List.Subset.refl _) hr
  · obtain ⟨_, hb, hr⟩ := List.mem_flatMap.mp hr
    obtain ⟨c, hc, rfl⟩ := List.mem_map.mp hb
    exact (visits_statement hk hc).resolution hs hr

end SourceFile

namespace Program.IsRead

variable {p : Program} {file : SourceFile} {path : List Descent} {ss : List Scope} {n : Node}
  {symbol : Symbol} {name : String}

/-- A node of a file resolves to what the file resolves it to. -/
theorem resolution (hp : p.IsRead) (hfile : file ∈ p.files) (hn : n ∈ file.tree.preorder)
    (h : p.model.resolve? n = some symbol) : file.Resolution n.key symbol := by
  obtain ⟨path, hpath⟩ := Node.exists_leads_of_mem_preorder (hp.shaped file hfile) hn
  rw [resolve?_eq hp.shaped hfile hpath (hp.ids file hfile n hn) (hp.unique _)] at h
  obtain ⟨⟨i, _⟩, hr, rfl⟩ := List.mem_map.mp (List.mem_of_mem_head? h)
  obtain ⟨hr, hi⟩ := List.mem_filter.mp hr
  obtain rfl : i = n.key := by simpa using hi
  exact SourceFile.resolution (hp.kind file hfile) (hp.shaped file hfile) hr

/-- A name that resolution passes resolves to what the scopes around it tell. -/
theorem resolve?_of_visits (hp : p.IsRead) (hfile : file ∈ p.files) (h : file.Visits path ss n)
    (hname : n.identifier? = some name) : p.model.resolve? n = Scope.lookup ss name :=
  (hp.innermost_resolve? hfile h.leads h.refers hname).unique (h.tracks name)

end Program.IsRead

end Quasiquote
