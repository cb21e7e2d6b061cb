import Quasiquote.Proofs.Renaming.Basic

namespace Quasiquote

def Node.imported? (specifier : Node) : Option Node :=
  (specifier.child? .propertyName).orElse fun _ => specifier.child? .name

/-- Nothing but the names that are declared and referred to is read differently in a node: not what it
imports or takes from an object, not the types that are written there, and not its template. -/
structure Renaming.Suits (r : Renaming) (n : Node) : Prop where
  imported : n.kind = .importSpecifier →
    (n.rename r).imported?.bind Node.identifier? = n.imported?.bind Node.identifier?
  module : n.kind = .importDeclaration → ∀ c ∈ n.child? .moduleSpecifier, r.touches c = false
  member : n.kind = .propertyAccessExpression → ∀ c ∈ n.child? .name, r.touches c = false
  typed : ∀ c ∈ n.child? .typeNode, ∀ m ∈ c.preorder, r.touches m = false
  template : n.kind = .taggedTemplateExpression → ∀ c ∈ n.child? .template, r.touches c = false

def Renaming.AllSuits (r : Renaming) (n : Node) : Prop :=
  ∀ m ∈ n.preorder, r.Suits m

variable {r : Renaming}

theorem Renaming.AllSuits.of_mem_children {n c : Node} (h : r.AllSuits n) (hc : c ∈ n.children) :
    r.AllSuits c := fun m hm =>
  h m ((Node.preorder_sublist_of_mem_preorder (Node.mem_preorder_of_mem_children hc)).subset hm)

theorem Renaming.AllSuits.suits {n : Node} (h : r.AllSuits n) : r.Suits n :=
  h n n.self_mem_preorder

/-- The module of an import has no other name. -/
theorem Renaming.Suits.moduleText {n : Node} (h : r.Suits n) (hk : n.kind = .importDeclaration) :
    ((n.rename r).child? .moduleSpecifier).bind (·.text? .text) =
      (n.child? .moduleSpecifier).bind (·.text? .text) := by
  rw [Node.child?_rename n (by decide)]
  cases hc : n.child? .moduleSpecifier with
  | none => rfl
  | some c =>
    rw [Option.map_some, Option.bind_some, Option.bind_some, Node.text?_rename c (by decide),
      funext (Renaming.text_of_touches (h.module hk c hc)), Option.map_id']

namespace Binding

def rename (r : Renaming) (b : Binding) : Binding :=
  ⟨if r.touches b.nameNode then r.new else b.name, b.nameNode.rename r, b.declaration.rename r,
    b.kind, b.link⟩

theorem ofName_rename (kind : SymbolKind) (d : Node) (name? : Option Node)
    (link : Option ImportLink) : ofName kind (d.rename r) (name?.map (Node.rename r)) link =
      (ofName kind d name? link).map (rename r) := by
  cases name? with
  | none => rfl
  | some n =>
    simp only [ofName, Option.map_some, Node.identifier?_rename]
    cases n.identifier? <;> rfl

theorem ofName_child_rename (kind : SymbolKind) (d : Node) (link : Option ImportLink) :
    ofName kind (d.rename r) ((d.rename r).child? .name) link =
      (ofName kind d (d.child? .name) link).map (rename r) := by
  rw [Node.child?_rename d (by decide), ofName_rename]

theorem ofSpecifier_rename {e : Node} (h : r.Suits e) (hk : e.kind = .importSpecifier)
    (specifier : String) :
    ofSpecifier specifier (e.rename r) = (ofSpecifier specifier e).map (rename r) := by
  have himported := h.imported hk
  unfold Node.imported? at himported
  unfold ofSpecifier
  dsimp only
  rw [himported, ofName_child_rename]

theorem ofImport_rename {s : Node} (h : r.AllSuits s) (hs : s.AllShaped)
    (hk : s.kind = .importDeclaration) : ofImport (s.rename r) = (ofImport s).map (rename r) := by
  unfold ofImport
  rw [Node.child?_rename s (by decide), h.suits.moduleText hk]
  cases hc : s.child? .importClause with
  | none => rfl
  | some clause =>
    have hcm := Node.mem_children_of_child? hc
    simp only [Option.map_some, List.map_append, ofName_child_rename,
      Node.child?_rename clause (show Label.namedBindings ≠ .propertyName by decide)]
    congr 1
    cases hb : clause.child? .namedBindings with
    | none => rfl
    | some bs =>
      have hbm := Node.mem_children_of_child? hb
      simp only [Option.map_some, Node.kind_rename]
      split
      · exact ofName_child_rename _ bs _
      · next hne =>
        have hck := hs.shaped.children .importClause [.importClause] (by rw [hk]; rfl) clause
          (Node.mem_nodesAt_of_child? hc)
        have hbk := (hs.of_mem_children hcm).shaped.children .namedBindings
          [.namespaceImport, .namedImports] (by rw [List.mem_singleton.mp hck]; rfl) bs
          (Node.mem_nodesAt_of_child? hb)
        have hbk : bs.kind = .namedImports := by simpa [hne] using hbk
        have hbs := (hs.of_mem_children hcm).of_mem_children hbm
        rw [Node.list_rename bs (by decide), List.flatMap_map, List.map_flatMap]
        refine List.flatMap_congr fun e he => ?_
        have hek := hbs.shaped.children .elements [.importSpecifier] (by rw [hbk]; rfl) e
          (Node.mem_nodesAt_of_mem_list he)
        have hesuits := ((h.of_mem_children hcm).of_mem_children hbm).of_mem_children
          (Node.mem_children_of_mem_list he)
        exact ofSpecifier_rename hesuits.suits (List.mem_singleton.mp hek) _

theorem ofVariables_rename (s : Node) (isVar : Bool) :
    ofVariables (s.rename r) isVar = (ofVariables s isVar).map (rename r) := by
  unfold ofVariables
  rw [Node.child?_rename s (by decide)]
  cases s.child? .declarationList with
  | none => rfl
  | some list =>
    simp only [Option.map_some]
    rw [Node.text?_rename_of_label list (by decide) (by decide)]
    split
    · unfold ofDeclarationList
      rw [Node.list_rename list (by decide), List.flatMap_map, List.map_flatMap]
      exact List.flatMap_congr fun d _ => ofName_child_rename _ d _
    · rfl

theorem ofStatement_rename {s : Node} (h : r.AllSuits s) (hs : s.AllShaped) :
    ofStatement (s.rename r) = (ofStatement s).map (rename r) := by
  unfold ofStatement
  rw [Node.kind_rename]
  split
  · next hk => exact ofImport_rename h hs hk
  · exact ofVariables_rename s false
  · exact ofName_child_rename _ s _
  · rfl

theorem ofVars_rename (s : Node) : ofVars (s.rename r) = (ofVars s).map (rename r) := by
  induction s using Node.inductionOnChildren with
  | h s ih =>
    by_cases hv : s.kind = .variableStatement
    · rw [ofVars, ofVars, Node.kind_rename, hv]
      exact ofVariables_rename s true
    by_cases hb : s.kind = .block
    · have hb' : (s.rename r).kind = .block := (Node.kind_rename s).trans hb
      rw [ofVars_block hb, ofVars_block hb', Node.list_rename s (by decide), List.flatMap_map,
        List.map_flatMap]
      exact List.flatMap_congr fun t ht => ih t (Node.mem_children_of_mem_list ht)
    by_cases hi : s.kind = .ifStatement
    · have hi' : (s.rename r).kind = .ifStatement := (Node.kind_rename s).trans hi
      have hbranch : ∀ l, l ≠ .propertyName → ((s.rename r).child? l).elim [] ofVars =
          ((s.child? l).elim [] ofVars).map (rename r) := by
        intro l hl
        rw [Node.child?_rename s hl]
        cases ht : s.child? l with
        | none => rfl
        | some t => exact ih t (Node.mem_children_of_child? ht)
      rw [ofVars_ifStatement hi, ofVars_ifStatement hi', List.map_append,
        hbranch _ (by decide), hbranch _ (by decide)]
    · rw [ofVars, ofVars, Node.kind_rename]
      split <;> simp_all

theorem hoistedInBlock_rename {statements : List Node} (h : ∀ s ∈ statements, r.AllSuits s)
    (hs : ∀ s ∈ statements, s.AllShaped) : hoistedInBlock (statements.map (Node.rename r)) =
      (hoistedInBlock statements).map (rename r) := by
  unfold hoistedInBlock
  rw [List.flatMap_map, List.map_flatMap]
  exact List.flatMap_congr fun s hm => ofStatement_rename (h s hm) (hs s hm)

theorem hoistedInFunction_rename {statements : List Node} (h : ∀ s ∈ statements, r.AllSuits s)
    (hs : ∀ s ∈ statements, s.AllShaped) : hoistedInFunction (statements.map (Node.rename r)) =
      (hoistedInFunction statements).map (rename r) := by
  unfold hoistedInFunction
  rw [List.flatMap_map, List.map_flatMap]
  refine List.flatMap_congr fun s hm => ?_
  rw [ofStatement_rename (h s hm) (hs s hm), ofVars_rename, List.map_append]

theorem ofOwnName_rename (f : Node) : ofOwnName (f.rename r) = (ofOwnName f).map (rename r) := by
  unfold ofOwnName
  rw [Node.kind_rename]
  split
  · rfl
  · exact ofName_child_rename _ f _

theorem ofParameters_rename (f : Node) :
    ofParameters (f.rename r) = (ofParameters f).map (rename r) := by
  unfold ofParameters
  rw [Node.list_rename f (by decide), List.flatMap_map, List.map_flatMap]
  exact List.flatMap_congr fun p _ => ofName_child_rename _ p _

end Binding

end Quasiquote
