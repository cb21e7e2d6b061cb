import Quasiquote.Proofs.Resolution

namespace Quasiquote

namespace Node

variable {n m : Node} {path : List Descent} {ancestors : List Node}

/-- The ancestors of a node are those that the way to it leaves. -/
theorem Leads.mem_entriesUnder (h : n.Leads path m) :
    ⟨m, path.map Descent.node ++ ancestors⟩ ∈ n.entriesUnder ancestors := by
  induction n using inductionOnChildren generalizing path ancestors with
  | h n ih =>
    rw [entriesUnder_eq, List.mem_cons]
    obtain ⟨rfl, rfl⟩ | ⟨l, c, path, hc, hp, rfl⟩ := h.cases_first
    · exact .inl rfl
    · have hc := mem_children_of_mem_nodesAt hc
      refine .inr (List.mem_flatMap.mpr ⟨c, hc, ?_⟩)
      simpa using ih c hc hp

end Node

theorem find?_eq_of_countP {α : Type} {p : α → Bool} {xs : List α} {x : α} (hx : x ∈ xs)
    (hp : p x = true) (h : xs.countP p ≤ 1) : xs.find? p = some x := by
  have hmem : x ∈ xs.filter p := List.mem_filter.mpr ⟨hx, hp⟩
  rw [List.countP_eq_length_filter] at h
  rw [← List.head?_filter]
  match hf : xs.filter p, h with
  | [y], _ => simp_all
  | [], _ => simp [hf] at hmem
  | _ :: _ :: _, h => simp at h

namespace Program

variable {p : Program} {file : SourceFile} {m : Node} {path : List Descent}

theorem entry?_eq (hfile : file ∈ p.files) (hp : file.tree.Leads path m)
    (hid : m.id?.isSome = true)
    (hcount : Node.countKey m.key (p.files.map SourceFile.tree) ≤ 1) :
    p.model.entry? m.key = some ⟨m, path.map Descent.node⟩ := by
  obtain ⟨id, hid⟩ := Option.isSome_iff_exists.mp hid
  have hkey : m.key = id := by simp [Node.key, hid]
  refine find?_eq_of_countP (List.mem_flatMap.mpr ⟨file, hfile, ?_⟩) (by simpa [hkey] using hid) ?_
  · rw [Node.entries, ← List.append_nil (path.map Descent.node)]
    exact hp.mem_entriesUnder
  · refine Nat.le_trans ?_ hcount
    rw [hkey, Node.countKey, List.flatMap_map]
    have hnodes : p.model.entries.map Node.Entry.node =
        p.files.flatMap fun f => f.tree.preorder := by
      rw [show p.model.entries = p.files.flatMap fun f => f.tree.entries from rfl,
        List.map_flatMap]
      exact List.flatMap_congr fun f _ => f.tree.map_node_entriesUnder []
    rw [← hnodes, List.countP_map]
    refine List.countP_mono_left fun e _ he => ?_
    simp_all [Node.key]

theorem ancestors_eq (hfile : file ∈ p.files) (hp : file.tree.Leads path m)
    (hid : m.id?.isSome = true)
    (hcount : Node.countKey m.key (p.files.map SourceFile.tree) ≤ 1) :
    p.model.ancestors m = path.map Descent.node := by
  have hentry := entry?_eq hfile hp hid hcount
  obtain ⟨id, hid⟩ := Option.isSome_iff_exists.mp hid
  rw [Node.key, hid, Option.getD_some] at hentry
  rw [Model.ancestors, hid, Option.bind_some, hentry]
  rfl

end Program

namespace Bindings

theorem mem_scopes_append {a b : Bindings} {s : Scope} :
    s ∈ (a.append b).scopes ↔ s ∈ a.scopes ∨ s ∈ b.scopes :=
  List.mem_append

theorem mem_scopes_join {parts : List Bindings} {s : Scope} :
    s ∈ (join parts).scopes ↔ ∃ b ∈ parts, s ∈ b.scopes :=
  List.mem_flatMap

theorem mem_scopes_ofScope {s t : Scope} : s ∈ (ofScope t).scopes ↔ s = t :=
  List.mem_singleton

theorem scopes_ofAnonymous (n : Node) : (ofAnonymous n).scopes = [] := by
  unfold ofAnonymous
  split <;> rfl

end Bindings

def Node.bodyDeclared (n : Node) : List Binding :=
  match n.child? .body with
  | none => []
  | some body => if body.kind = .block then Binding.hoistedInFunction (body.list .statements) else []

def Node.ownBindings (n : Node) : List Binding :=
  if n.kind = .sourceFile then Binding.hoistedInFunction (n.list .statements)
  else if n.kind = .block then Binding.hoistedInBlock (n.list .statements)
  else if n.kind.isFunctionLike then
    (Binding.ofOwnName n ++ Binding.ofParameters n) ++ n.bodyDeclared
  else []

namespace Node

variable {n : Node}

theorem ownBindings_sourceFile (hk : n.kind = .sourceFile) :
    n.ownBindings = Binding.hoistedInFunction (n.list .statements) := by
  simp [ownBindings, hk]

theorem ownBindings_block (hk : n.kind = .block) :
    n.ownBindings = Binding.hoistedInBlock (n.list .statements) := by
  simp [ownBindings, hk]

theorem ownBindings_function (hk : n.kind.isFunctionLike = true) : n.ownBindings =
    (Binding.ofOwnName n ++ Binding.ofParameters n) ++ n.bodyDeclared := by
  have hs : n.kind ≠ .sourceFile := by
    rintro h
    simp [h, Kind.isFunctionLike] at hk
  have hb : n.kind ≠ .block := by
    rintro h
    simp [h, Kind.isFunctionLike] at hk
  simp [ownBindings, hs, hb, hk]

theorem Opens.bindings_eq {file : String} {s : Scope} (h : n.Opens file s) :
    s.bindings = n.ownBindings := by
  cases h with
  | block hk => exact (ownBindings_block hk).symm
  | head hk hb =>
    rw [ownBindings_function hk, bodyDeclared]
    cases hbody : n.child? .body with
    | none => simp [Scope.ofHead]
    | some body => simp [Scope.ofHead, hb body hbody]
  | function hk hb hbk => simp [ownBindings_function hk, bodyDeclared, hb, hbk, Scope.ofFunction]

/-- The scopes of a tree are those of its nodes. -/
theorem exists_of_scope {file : String} {ss : List Scope} {s : Scope}
    (h : s ∈ (n.bindings file ss).scopes) :
    ∃ y ∈ n.preorder, s.owner = y.key ∧ s.bindings = y.ownBindings := by
  induction n using inductionOnDescendants generalizing ss with
  | h n ih =>
    refine bindings_compose (Bindings.composes_scopes (s := s)) (fun _ _ _ hs => absurd hs (by simp))
      (fun _ hs => absurd hs (by simp [Bindings.scopes_ofAnonymous])) (fun t hopens hs => ?_)
      (fun c ts henters hs => ?_) h
    · obtain rfl := Bindings.mem_scopes_ofScope.mp hs
      exact ⟨n, n.self_mem_preorder, hopens.owner_eq, hopens.bindings_eq⟩
    · obtain ⟨y, hy, hys⟩ := ih c henters.mem_descendants hs
      have hsub := preorder_sublist_of_mem_preorder
        (mem_preorder_of_mem_descendants henters.mem_descendants)
      exact ⟨y, hsub.subset hy, hys⟩

end Node

/-- The scopes of a file are those of its nodes. -/
theorem SourceFile.exists_of_scope {file : SourceFile} {s : Scope}
    (hk : file.tree.kind = .sourceFile) (h : s ∈ file.bindings.scopes) :
    ∃ y ∈ file.tree.preorder, s.owner = y.key ∧ s.bindings = y.ownBindings := by
  obtain h | h := Bindings.mem_scopes_append.mp h
  · obtain rfl := Bindings.mem_scopes_ofScope.mp h
    exact ⟨file.tree, file.tree.self_mem_preorder, rfl, (Node.ownBindings_sourceFile hk).symm⟩
  · obtain ⟨_, hb, hs⟩ := Bindings.mem_scopes_join.mp h
    obtain ⟨c, hc, rfl⟩ := List.mem_map.mp hb
    obtain ⟨y, hy, hys⟩ := Node.exists_of_scope hs
    exact ⟨y, (Node.preorder_sublist_of_mem_preorder (Node.mem_preorder_of_mem_children
      (Node.mem_children_of_mem_list hc))).subset hy, hys⟩

/-- The scopes of a tree are opened by its nodes. -/
theorem Node.one_le_countKey_of_scope {n : Node} {file : String} {ss : List Scope} {s : Scope}
    (h : s ∈ (n.bindings file ss).scopes) : 1 ≤ countKey s.owner [n] := by
  obtain ⟨y, hy, howner, -⟩ := exists_of_scope h
  exact List.countP_pos_iff.mpr ⟨y, by simpa using hy, by simpa using howner.symm⟩

theorem SourceFile.one_le_countKey_of_scope {file : SourceFile} {s : Scope}
    (h : s ∈ file.bindings.scopes) : 1 ≤ Node.countKey s.owner [file.tree] := by
  obtain h | h := Bindings.mem_scopes_append.mp h
  · obtain rfl := Bindings.mem_scopes_ofScope.mp h
    exact Node.Leads.here.one_le_countKey rfl
  · obtain ⟨_, hb, hs⟩ := Bindings.mem_scopes_join.mp h
    obtain ⟨c, hc, rfl⟩ := List.mem_map.mp hb
    exact Nat.le_trans (Node.one_le_countKey_of_scope hs) (Node.countKey_le_of_mem_preorder
      (Node.mem_preorder_of_mem_children (Node.mem_children_of_mem_list hc)))

namespace Program

variable {p : Program} {file : SourceFile} {name : String}

theorem scopes_model (p : Program) :
    p.model.scopes = p.files.flatMap fun f => f.bindings.scopes := by
  rw [show p.model.scopes = (p.files.map SourceFile.bindings).flatMap Bindings.scopes from rfl,
    List.flatMap_map]

/-- The scope of a module is the first of its file. -/
theorem find?_scopes (file : SourceFile) :
    file.bindings.scopes.find? (fun s => s.owner = file.tree.key) = some file.moduleScope := by
  rw [show file.bindings.scopes = file.moduleScope :: _ from rfl, List.find?_cons_of_pos]
  simp [SourceFile.moduleScope]

theorem scope?_key (hfile : file ∈ p.files)
    (hcount : Node.countKey file.tree.key (p.files.map SourceFile.tree) ≤ 1) :
    p.model.scope? file.tree.key = some file.moduleScope := by
  have hother : ∀ f ∈ p.files, f.bindings.scopes.filter (fun s => s.owner = file.tree.key) ≠ [] →
      1 ≤ Node.countKey file.tree.key [f.tree] := by
    intro f _ hne
    obtain ⟨s, hs⟩ := List.exists_mem_of_ne_nil _ hne
    obtain ⟨hs, howner⟩ := List.mem_filter.mp hs
    exact (decide_eq_true_eq.mp howner) ▸ SourceFile.one_le_countKey_of_scope hs
  rw [Model.scope?, scopes_model, ← List.head?_filter, List.filter_flatMap,
    Node.flatMap_eq_of_countKey SourceFile.tree hother hfile (Node.Leads.here.one_le_countKey rfl)
      hcount, List.head?_filter, find?_scopes]

theorem scope?_key_of_singleton (hfile : p.files = [file]) :
    p.model.scope? file.tree.key = some file.moduleScope := by
  rw [Model.scope?, scopes_model, hfile, List.flatMap_singleton, find?_scopes]

/-- The first declaration of a name at the top level of a file. -/
theorem head?_declarations (h : p.model.scope? file.tree.key = some file.moduleScope) :
    (p.model.declarations (.named file.tree.key name)).head? =
      (file.moduleScope.bindings.find? fun b => b.name = name).map Binding.declaration := by
  simp only [Model.declarations, Model.bindings, h, Option.map_some, Option.getD_some,
    List.head?_map, List.head?_filter]

end Program

namespace Binding

variable {s : Node} {b : Binding}

theorem declaration_of_mem_ofName {kind : SymbolKind} {d : Node} {name? : Option Node}
    {link : Option ImportLink} (h : b ∈ ofName kind d name? link) : b.declaration = d := by
  obtain ⟨n, name, -, -, rfl⟩ := mem_ofName_iff.mp h
  rfl

theorem kind_of_mem_ofVariables (hs : s.AllShaped) {isVar : Bool} (h : b ∈ ofVariables s isVar) :
    b.declaration.kind = .variableDeclaration := by
  unfold ofVariables at h
  split at h
  · next list hl =>
    split at h
    · obtain ⟨d, hd, hb⟩ := List.mem_flatMap.mp h
      rw [declaration_of_mem_ofName hb]
      exact (hs.of_mem_children (Node.mem_children_of_child? hl)).shaped.declarations d hd
    · simp at h
  · simp at h

theorem kind_of_mem_ofVars (hs : s.AllShaped) (h : b ∈ ofVars s) :
    b.declaration.kind = .variableDeclaration := by
  induction s using Node.inductionOnChildren with
  | h s ih =>
    by_cases hv : s.kind = .variableStatement
    · rw [ofVars, hv] at h
      exact kind_of_mem_ofVariables hs h
    by_cases hb : s.kind = .block
    · rw [ofVars_block hb] at h
      obtain ⟨t, ht, h⟩ := List.mem_flatMap.mp h
      have ht := Node.mem_children_of_mem_list ht
      exact ih t ht (hs.of_mem_children ht) h
    by_cases hi : s.kind = .ifStatement
    · have hbranch : ∀ l, b ∈ (s.child? l).elim [] ofVars →
          b.declaration.kind = .variableDeclaration := by
        intro l hb
        cases ht : s.child? l with
        | none => simp [ht] at hb
        | some t =>
          rw [ht] at hb
          have ht := Node.mem_children_of_child? ht
          exact ih t ht (hs.of_mem_children ht) hb
      rw [ofVars_ifStatement hi] at h
      exact (List.mem_append.mp h).elim (hbranch _) (hbranch _)
    rw [ofVars] at h
    split at h <;> simp_all

def IsWhole (b : Binding) : Prop :=
  b.declaration.kind = .importClause ∨ b.declaration.kind = .namespaceImport

/-- The way from an import to what declares the module as a whole. -/
theorem leads_of_mem_ofImport (hs : s.AllShaped) (hk : s.kind = .importDeclaration)
    (hb : b ∈ ofImport s) (hwhole : b.IsWhole) : ∃ path, s.Leads path b.declaration ∧
      (path.map Descent.node).find? (fun a => a.kind = .importDeclaration) = some s := by
  unfold ofImport at hb
  cases hc : s.child? .importClause with
  | none => simp [hc] at hb
  | some clause =>
    have hclause := Node.mem_nodesAt_of_child? hc
    have hck := hs.shaped.children .importClause [.importClause] (by rw [hk]; rfl) clause hclause
    have hck : clause.kind = .importClause := List.mem_singleton.mp hck
    have hcs := hs.of_mem_children (Node.mem_children_of_child? hc)
    simp only [hc, List.mem_append] at hb
    obtain hb | hb := hb
    · rw [declaration_of_mem_ofName hb]
      exact ⟨_, .down .here hclause, by simp [hk]⟩
    cases hbs : clause.child? .namedBindings with
    | none => simp [hbs] at hb
    | some bs =>
      have hbindings := Node.mem_nodesAt_of_child? hbs
      simp only [hbs] at hb
      split at hb
      · rw [declaration_of_mem_ofName hb]
        exact ⟨_, .down (.down .here hclause) hbindings, by simp [hk, hck]⟩
      · next hne =>
        -- What is left are specifiers, which declare one member of the module.
        have hbk := hcs.shaped.children .namedBindings _ (by rw [hck]; rfl) bs hbindings
        have hbk : bs.kind = .namedImports := by simpa [hne] using hbk
        obtain ⟨e, he, hb⟩ := List.mem_flatMap.mp hb
        have hek := (hcs.of_mem_children (Node.mem_children_of_child? hbs)).shaped.children
          .elements [.importSpecifier] (by rw [hbk]; rfl) e (Node.mem_nodesAt_of_mem_list he)
        rw [IsWhole, declaration_of_mem_ofName hb] at hwhole
        simp_all

theorem leads_of_isWhole (hs : s.AllShaped) (hb : b ∈ ofStatement s ++ ofVars s)
    (hwhole : b.IsWhole) : s.kind = .importDeclaration ∧ ∃ path, s.Leads path b.declaration ∧
      (path.map Descent.node).find? (fun a => a.kind = .importDeclaration) = some s := by
  obtain hb | hb := List.mem_append.mp hb
  · unfold ofStatement at hb
    split at hb
    · next hk => exact ⟨hk, leads_of_mem_ofImport hs hk hb hwhole⟩
    · have hvariable := kind_of_mem_ofVariables hs hb
      simp [IsWhole, hvariable] at hwhole
    · next hk =>
      rw [IsWhole, declaration_of_mem_ofName hb] at hwhole
      simp [hk] at hwhole
    · simp at hb
  · have hvariable := kind_of_mem_ofVars hs hb
    simp [IsWhole, hvariable] at hwhole

end Binding

/-- The module of an import at the top level. -/
theorem Program.importModule?_eq {p : Program} {file : SourceFile} {s : Node} {b : Binding}
    (hfile : file ∈ p.files) (hs : s.AllShaped) (hst : s ∈ file.tree.list .statements)
    (hb : b ∈ Binding.ofStatement s ++ Binding.ofVars s) (hwhole : b.IsWhole)
    (hid : b.declaration.id?.isSome = true)
    (hcount : Node.countKey b.declaration.key (p.files.map SourceFile.tree) ≤ 1) :
    p.model.importModule? b.declaration =
      (s.child? .moduleSpecifier).bind fun specifier => specifier.text? .text := by
  obtain ⟨-, path, hpath, hfind⟩ := Binding.leads_of_isWhole hs hb hwhole
  have hp := hpath.up (Node.mem_nodesAt_of_mem_list hst)
  rw [Model.importModule?, ancestors_eq hfile hp hid hcount, List.map_append, List.find?_append,
    hfind]
  rfl

end Quasiquote
