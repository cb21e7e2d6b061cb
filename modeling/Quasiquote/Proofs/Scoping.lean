import Quasiquote.Program.Model
import Quasiquote.Proofs.Descent
import Quasiquote.Proofs.ParsedTree

namespace Quasiquote

namespace Node

def IsNamed (n : Node) (name : String) : Prop :=
  ∃ id, n.child? .name = some id ∧ id.identifier? = some name

inductive Introduces (name : String) : Node → Prop
  | defaultImport {s clause : Node} (hk : s.kind = .importDeclaration)
    (hc : s.child? .importClause = some clause) (hn : clause.IsNamed name) : Introduces name s
  | namespaceImport {s clause b : Node} (hk : s.kind = .importDeclaration)
    (hc : s.child? .importClause = some clause) (hb : clause.child? .namedBindings = some b)
    (hbk : b.kind = .namespaceImport) (hn : b.IsNamed name) : Introduces name s
  | namedImport {s clause b e : Node} (hk : s.kind = .importDeclaration)
    (hc : s.child? .importClause = some clause) (hb : clause.child? .namedBindings = some b)
    (hbk : b.kind ≠ .namespaceImport) (he : e ∈ b.list .elements) (hn : e.IsNamed name) :
    Introduces name s
  | letOrConst {s list d : Node} (hk : s.kind = .variableStatement)
    (hl : s.child? .declarationList = some list) (hw : list.text? .keyword ≠ some "var")
    (hd : d ∈ list.list .declarations) (hn : d.IsNamed name) : Introduces name s
  | function {s : Node} (hk : s.kind = .functionDeclaration) (hn : s.IsNamed name) :
    Introduces name s

inductive HoistsVar (name : String) : Node → Prop
  | varStatement {s list d : Node} (hk : s.kind = .variableStatement)
    (hl : s.child? .declarationList = some list) (hw : list.text? .keyword = some "var")
    (hd : d ∈ list.list .declarations) (hn : d.IsNamed name) : HoistsVar name s
  | block {s t : Node} (hk : s.kind = .block) (ht : t ∈ s.list .statements)
    (h : HoistsVar name t) : HoistsVar name s
  | consequence {s t : Node} (hk : s.kind = .ifStatement) (ht : s.child? .thenStatement = some t)
    (h : HoistsVar name t) : HoistsVar name s
  | alternative {s t : Node} (hk : s.kind = .ifStatement) (ht : s.child? .elseStatement = some t)
    (h : HoistsVar name t) : HoistsVar name s

end Node

/-- Whether an identifier below a field can be a reference. Imports, types, names of properties and
declared names are none. -/
def Kind.refersIn (k : Kind) (l : Label) : Bool :=
  match k with
  | .importDeclaration | .importClause | .namespaceImport | .importSpecifier => false
  | .propertySignature => false
  | .functionDeclaration | .functionExpression | .arrowFunction => l = .parameters || l = .body
  | .variableDeclaration | .parameter | .propertyAssignment => l = .initializer
  | .propertyAccessExpression => l = .expression
  | _ => l ∉ [Label.typeNode, .typeArguments, .typeParameters, .constraint, .defaultType]

theorem Kind.refersIn_function {k : Kind} (hk : k.isFunctionLike = true) (l : Label) :
    k.refersIn l = (l = .parameters || l = .body) := by
  cases k <;> first | rfl | cases hk

def Descent.isReference (d : Descent) : Bool :=
  d.node.kind.refersIn d.label

def Descent.ReachesBody (outer : List Descent) : Prop :=
  ∃ d ∈ outer.head?, d.node.kind.isFunctionLike = true ∧ d.label = .body

/-- The scope that a descent leaves declares a name for what lies below. The second argument is the
way from the root to the descent. -/
inductive Descent.Declares (name : String) : Descent → List Descent → Prop
  | module {n s : Node} {l : Label} (hk : n.kind = .sourceFile) (hs : s ∈ n.list .statements)
    (h : s.Introduces name ∨ s.HoistsVar name) : Declares name ⟨n, l⟩ []
  | ownName {n : Node} {l : Label} {outer : List Descent} (hk : n.kind = .functionExpression)
    (h : n.IsNamed name) : Declares name ⟨n, l⟩ outer
  | parameter {n p : Node} {l : Label} {outer : List Descent} (hk : n.kind.isFunctionLike = true)
    (hp : p ∈ n.list .parameters) (h : p.IsNamed name) : Declares name ⟨n, l⟩ outer
  | body {n b s : Node} {outer : List Descent} (hk : n.kind.isFunctionLike = true)
    (hb : n.child? .body = some b) (hbk : b.kind = .block) (hs : s ∈ b.list .statements)
    (h : s.Introduces name ∨ s.HoistsVar name) : Declares name ⟨n, .body⟩ outer
  | block {n s : Node} {l : Label} {outer : List Descent} (hk : n.kind = .block)
    (houter : ¬Descent.ReachesBody outer) (hs : s ∈ n.list .statements)
    (h : s.Introduces name) : Declares name ⟨n, l⟩ outer

inductive Descent.Innermost (name : String) : List Descent → Option Symbol → Prop
  | undeclared : Innermost name [] none
  | declared {d : Descent} {outer : List Descent} (h : d.Declares name outer) :
    Innermost name (d :: outer) (some (.named d.node.key name))
  | outward {d : Descent} {outer : List Descent} {symbol : Option Symbol}
    (h : ¬d.Declares name outer) (ho : Innermost name outer symbol) :
    Innermost name (d :: outer) symbol

namespace Binding

variable {b : Binding} {name : String} {s n : Node}

theorem mem_ofName_iff {kind : SymbolKind} {d : Node} {n? : Option Node}
    {link : Option ImportLink} : b ∈ ofName kind d n? link ↔
      ∃ n name, n? = some n ∧ n.identifier? = some name ∧ b = ⟨name, n, d, kind, link⟩ := by
  unfold ofName
  cases n? with
  | none => simp
  | some n => cases h : n.identifier? <;> simp [h]

def Names (bs : List Binding) (name : String) : Prop :=
  ∃ b ∈ bs, b.name = name

theorem names_append_iff {bs cs : List Binding} :
    Names (bs ++ cs) name ↔ Names bs name ∨ Names cs name := by
  simp only [Names, List.mem_append, or_and_right, exists_or]

theorem names_flatMap_iff {α : Type} {xs : List α} {f : α → List Binding} :
    Names (xs.flatMap f) name ↔ ∃ x ∈ xs, Names (f x) name := by
  simp only [Names, List.mem_flatMap]
  constructor
  · rintro ⟨b, ⟨x, hx, hb⟩, hn⟩
    exact ⟨x, hx, b, hb, hn⟩
  · rintro ⟨x, hx, b, hb, hn⟩
    exact ⟨b, ⟨x, hx, hb⟩, hn⟩

theorem names_ofName_iff {kind : SymbolKind} {d n : Node} {link : Option ImportLink} :
    Names (ofName kind d (n.child? .name) link) name ↔ n.IsNamed name := by
  simp only [Names, mem_ofName_iff, Node.IsNamed]
  constructor
  · rintro ⟨b, ⟨id, x, hid, hx, rfl⟩, rfl⟩
    exact ⟨id, hid, hx⟩
  · rintro ⟨id, hid, hx⟩
    exact ⟨_, ⟨id, name, hid, hx, rfl⟩, rfl⟩

theorem names_ofVariables_iff {isVar : Bool} : Names (ofVariables s isVar) name ↔
    ∃ list, s.child? .declarationList = some list ∧
      (list.text? .keyword = some "var" ↔ isVar = true) ∧
      ∃ d ∈ list.list .declarations, d.IsNamed name := by
  unfold ofVariables
  cases s.child? .declarationList with
  | none => simp [Names]
  | some list =>
    simp only [Option.some.injEq, exists_eq_left']
    split
    · next h =>
      simp only [ofDeclarationList, names_flatMap_iff, names_ofName_iff]
      simp_all
    · next h =>
      simp_all [Names]

theorem names_ofImport_iff : Names (ofImport s) name ↔
    ∃ clause, s.child? .importClause = some clause ∧
      (clause.IsNamed name ∨ ∃ b, clause.child? .namedBindings = some b ∧
        ((b.kind = .namespaceImport ∧ b.IsNamed name) ∨
          (b.kind ≠ .namespaceImport ∧ ∃ e ∈ b.list .elements, e.IsNamed name))) := by
  unfold ofImport
  cases s.child? .importClause with
  | none => simp [Names]
  | some clause =>
    simp only [Option.some.injEq, exists_eq_left', names_append_iff, names_ofName_iff]
    apply or_congr_right
    cases clause.child? .namedBindings with
    | none => simp [Names]
    | some b =>
      simp only [Option.some.injEq, exists_eq_left']
      split
      · next hb => simp [hb, names_ofName_iff]
      · next hb => simp [hb, names_flatMap_iff, ofSpecifier, names_ofName_iff]

theorem names_ofStatement_iff : Names (ofStatement s) name ↔ s.Introduces name := by
  constructor
  · intro h
    unfold ofStatement at h
    split at h
    · next hk =>
      obtain ⟨clause, hc, hn | ⟨b, hb, ⟨hbk, hn⟩ | ⟨hbk, e, he, hn⟩⟩⟩ := names_ofImport_iff.mp h
      · exact .defaultImport hk hc hn
      · exact .namespaceImport hk hc hb hbk hn
      · exact .namedImport hk hc hb hbk he hn
    · next hk =>
      obtain ⟨list, hl, hw, d, hd, hn⟩ := names_ofVariables_iff.mp h
      exact .letOrConst hk hl (by simpa using hw) hd hn
    · next hk => exact .function hk (names_ofName_iff.mp h)
    · simp [Names] at h
  · intro h
    cases h with
    | defaultImport hk hc hn =>
      rw [ofStatement, hk]
      exact names_ofImport_iff.mpr ⟨_, hc, .inl hn⟩
    | namespaceImport hk hc hb hbk hn =>
      rw [ofStatement, hk]
      exact names_ofImport_iff.mpr ⟨_, hc, .inr ⟨_, hb, .inl ⟨hbk, hn⟩⟩⟩
    | namedImport hk hc hb hbk he hn =>
      rw [ofStatement, hk]
      exact names_ofImport_iff.mpr ⟨_, hc, .inr ⟨_, hb, .inr ⟨hbk, _, he, hn⟩⟩⟩
    | letOrConst hk hl hw hd hn =>
      rw [ofStatement, hk]
      exact names_ofVariables_iff.mpr ⟨_, hl, by simpa using hw, _, hd, hn⟩
    | function hk hn =>
      rw [ofStatement, hk]
      exact names_ofName_iff.mpr hn

theorem ofVars_block (hk : s.kind = .block) :
    ofVars s = (s.list .statements).flatMap ofVars := by
  rw [ofVars, hk]
  simp only [List.flatMap_def]
  rw [Node.map_smallerList s .statements ofVars]

theorem ofVars_ifStatement (hk : s.kind = .ifStatement) :
    ofVars s = (s.child? .thenStatement).elim [] ofVars ++
      (s.child? .elseStatement).elim [] ofVars := by
  rw [ofVars, hk]
  dsimp only
  rw [Node.elim_smaller? s .thenStatement [] ofVars, Node.elim_smaller? s .elseStatement [] ofVars]

theorem names_ofVars_iff : Names (ofVars s) name ↔ s.HoistsVar name := by
  constructor
  · intro h
    induction s using Node.inductionOnChildren with
    | h s ih =>
      by_cases hv : s.kind = .variableStatement
      · rw [ofVars, hv] at h
        obtain ⟨list, hl, hw, d, hd, hn⟩ := names_ofVariables_iff.mp h
        exact .varStatement hv hl (by simpa using hw) hd hn
      by_cases hb : s.kind = .block
      · rw [ofVars_block hb, names_flatMap_iff] at h
        obtain ⟨t, ht, h⟩ := h
        exact .block hb ht (ih t (Node.mem_children_of_mem_list ht) h)
      by_cases hi : s.kind = .ifStatement
      · rw [ofVars_ifStatement hi, names_append_iff] at h
        obtain h | h := h
        · cases ht : s.child? .thenStatement with
          | none => simp [ht, Names] at h
          | some t =>
            rw [ht] at h
            exact .consequence hi ht (ih t (Node.mem_children_of_child? ht) h)
        · cases ht : s.child? .elseStatement with
          | none => simp [ht, Names] at h
          | some t =>
            rw [ht] at h
            exact .alternative hi ht (ih t (Node.mem_children_of_child? ht) h)
      rw [ofVars] at h
      split at h <;> simp_all [Names]
  · intro h
    induction h with
    | varStatement hk hl hw hd hn =>
      rw [ofVars, hk]
      exact names_ofVariables_iff.mpr ⟨_, hl, by simpa using hw, _, hd, hn⟩
    | block hk ht _ ih =>
      rw [ofVars_block hk, names_flatMap_iff]
      exact ⟨_, ht, ih⟩
    | consequence hk ht _ ih =>
      rw [ofVars_ifStatement hk, ht, names_append_iff]
      exact .inl ih
    | alternative hk ht _ ih =>
      rw [ofVars_ifStatement hk, ht, names_append_iff]
      exact .inr ih

/-- The name of a binding stands in a tree where no reference stands, and a function that it declares
stands in the tree. Neither is the tag of a template. -/
structure Located (root : Node) (b : Binding) : Prop where
  name : ∃ path, root.Leads path b.nameNode ∧ (∃ d ∈ path, d.isReference = false) ∧
    ∀ d ∈ path.head?, d.label ≠ .tag
  function : b.declaration.kind.isFunctionLike = true →
    ∃ path, root.Leads path b.declaration ∧ ∀ d ∈ path.head?, d.label ≠ .tag

theorem Located.up {c : Node} {l : Label} (hc : c ∈ n.nodesAt l) (hl : l ≠ .tag)
    (h : Located c b) : Located n b := by
  have hhead : ∀ path : List Descent, (∀ d ∈ path.head?, d.label ≠ .tag) →
      ∀ d ∈ (path ++ [Descent.mk n l]).head?, d.label ≠ .tag := by
    intro path hpath
    cases path with
    | nil => simpa using hl
    | cons d path => exact hpath
  obtain ⟨⟨path, hp, ⟨d, hd, hr⟩, htag⟩, hf⟩ := h
  refine ⟨⟨_, hp.up hc, ⟨d, List.mem_append_left _ hd, hr⟩, hhead path htag⟩, fun hk => ?_⟩
  obtain ⟨path', hp', htag'⟩ := hf hk
  exact ⟨_, hp'.up hc, hhead path' htag'⟩

/-- The name of a node that has no reference for its name. -/
theorem located_of_mem_ofName {d : Node} {kind : SymbolKind} {link : Option ImportLink}
    (hd : (Descent.mk d .name).isReference = false)
    (hb : b ∈ ofName kind d (d.child? .name) link) : Located d b := by
  obtain ⟨id, name, hid, -, rfl⟩ := mem_ofName_iff.mp hb
  have hid := Node.mem_nodesAt_of_child? hid
  exact ⟨⟨_, .down .here hid, ⟨_, List.mem_singleton_self _, hd⟩, by simp⟩,
    fun _ => ⟨[], .here, by simp⟩⟩

/-- The name of a node to which no references lead. -/
theorem located_of_leads {d : Node} {kind : SymbolKind} {link : Option ImportLink}
    {path : List Descent} (hb : b ∈ ofName kind d (d.child? .name) link) (hp : n.Leads path d)
    (href : ∃ e ∈ path, e.isReference = false) (htag : ∀ e ∈ path.head?, e.label ≠ .tag) :
    Located n b := by
  obtain ⟨id, name, hid, -, rfl⟩ := mem_ofName_iff.mp hb
  obtain ⟨e, he, href⟩ := href
  exact ⟨⟨_, hp.down (Node.mem_nodesAt_of_child? hid), ⟨e, List.mem_cons_of_mem _ he, href⟩,
    by simp⟩, fun _ => ⟨_, hp, htag⟩⟩

theorem located_of_mem_ofImport (hk : s.kind = .importDeclaration) (hb : b ∈ ofImport s) :
    Located s b := by
  have href : (Descent.mk s .importClause).isReference = false := by
    simp [Descent.isReference, Kind.refersIn, hk]
  unfold ofImport at hb
  cases hc : s.child? .importClause with
  | none => simp [hc] at hb
  | some clause =>
    have hclause := Node.Leads.here.down (Node.mem_nodesAt_of_child? hc)
    simp only [hc, List.mem_append] at hb
    obtain hb | hb := hb
    · exact located_of_leads hb hclause ⟨_, by simp, href⟩ (by simp)
    · cases hbs : clause.child? .namedBindings with
      | none => simp [hbs] at hb
      | some bs =>
        have hbindings := hclause.down (Node.mem_nodesAt_of_child? hbs)
        simp only [hbs] at hb
        split at hb
        · exact located_of_leads hb hbindings ⟨⟨s, .importClause⟩, by simp, href⟩ (by simp)
        · obtain ⟨e, he, hb⟩ := List.mem_flatMap.mp hb
          have helement := hbindings.down (Node.mem_nodesAt_of_mem_list he)
          exact located_of_leads hb helement ⟨⟨s, .importClause⟩, by simp, href⟩ (by simp)

theorem located_of_mem_ofVariables (hs : s.AllShaped) {isVar : Bool}
    (hb : b ∈ ofVariables s isVar) : Located s b := by
  unfold ofVariables at hb
  cases hl : s.child? .declarationList with
  | none => simp [hl] at hb
  | some list =>
    simp only [hl] at hb
    split at hb
    · obtain ⟨d, hd, hb⟩ := List.mem_flatMap.mp hb
      have hlist := hs.of_mem_children (Node.mem_children_of_child? hl)
      have hk := hlist.shaped.declarations d hd
      have hd := Node.mem_nodesAt_of_mem_list hd
      exact ((located_of_mem_ofName (by simp [Descent.isReference, Kind.refersIn, hk]) hb).up hd
        (by simp)).up (Node.mem_nodesAt_of_child? hl) (by simp)
    · simp at hb

theorem located_of_mem_ofStatement (hs : s.AllShaped) (hb : b ∈ ofStatement s) : Located s b := by
  unfold ofStatement at hb
  split at hb
  · next hk => exact located_of_mem_ofImport hk hb
  · exact located_of_mem_ofVariables hs hb
  · next hk => exact located_of_mem_ofName (by simp [Descent.isReference, Kind.refersIn, hk]) hb
  · simp at hb

theorem located_of_mem_ofVars (hs : s.AllShaped) (hb : b ∈ ofVars s) : Located s b := by
  induction s using Node.inductionOnChildren with
  | h s ih =>
    by_cases hv : s.kind = .variableStatement
    · rw [ofVars, hv] at hb
      exact located_of_mem_ofVariables hs hb
    by_cases hk : s.kind = .block
    · rw [ofVars_block hk] at hb
      obtain ⟨t, ht, hb⟩ := List.mem_flatMap.mp hb
      have hc := Node.mem_children_of_mem_list ht
      exact (ih t hc (hs.of_mem_children hc) hb).up (Node.mem_nodesAt_of_mem_list ht) (by simp)
    by_cases hi : s.kind = .ifStatement
    · have hbranch : ∀ l, l ≠ .tag → b ∈ (s.child? l).elim [] ofVars → Located s b := by
        intro l hl hb
        cases ht : s.child? l with
        | none => simp [ht] at hb
        | some t =>
          rw [ht] at hb
          have hc := Node.mem_children_of_child? ht
          exact (ih t hc (hs.of_mem_children hc) hb).up (Node.mem_nodesAt_of_child? ht) hl
      rw [ofVars_ifStatement hi] at hb
      exact (List.mem_append.mp hb).elim (hbranch _ (by simp)) (hbranch _ (by simp))
    rw [ofVars] at hb
    split at hb <;> simp_all

theorem located_of_mem_ofOwnName (hk : n.kind.isFunctionLike = true) (hb : b ∈ ofOwnName n) :
    Located n b := by
  unfold ofOwnName at hb
  split at hb
  · simp at hb
  · refine located_of_mem_ofName ?_ hb
    cases h : n.kind <;> simp_all [Kind.isFunctionLike, Descent.isReference, Kind.refersIn]

theorem located_of_mem_ofParameters (hs : n.AllShaped) (hb : b ∈ ofParameters n) :
    Located n b := by
  obtain ⟨p, hp, hb⟩ := List.mem_flatMap.mp hb
  have hk := hs.shaped.parameters p hp
  exact (located_of_mem_ofName (by simp [Descent.isReference, Kind.refersIn, hk]) hb).up
    (Node.mem_nodesAt_of_mem_list hp) (by simp)

end Binding

end Quasiquote
