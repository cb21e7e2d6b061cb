import Quasiquote.Proofs.Descent
import Quasiquote.Proofs.Soundness.Module

namespace Quasiquote

/-- The kinds that the nodes of a field can have, for the field of a kind where names depend on it. -/
def Kind.childRule? : Kind → Option (Label × List Kind)
  | .functionDeclaration | .functionExpression | .arrowFunction | .functionType =>
    some (.parameters, [.parameter])
  | .variableDeclarationList => some (.declarations, [.variableDeclaration])
  | .importDeclaration => some (.importClause, [.importClause])
  | .importClause => some (.namedBindings, [.namespaceImport, .namedImports])
  | .namedImports => some (.elements, [.importSpecifier])
  | _ => none

/-- A node has the fields of its kind, and in the field with a rule the nodes that it allows. -/
structure Node.Shaped (n : Node) : Prop where
  fields : checkFields n.kind n.fields = .ok ()
  children : ∀ l kinds, n.kind.childRule? = some (l, kinds) → ∀ c ∈ n.nodesAt l, c.kind ∈ kinds

theorem Kind.childRule?_of_parameters {k : Kind} {i : Nat} (h : k.fieldIndex? .parameters = some i) :
    k.childRule? = some (.parameters, [.parameter]) := by
  cases k <;> first | rfl | cases h

theorem Kind.childRule?_of_declarations {k : Kind} {i : Nat}
    (h : k.fieldIndex? .declarations = some i) :
    k.childRule? = some (.declarations, [.variableDeclaration]) := by
  cases k <;> first | rfl | cases h

/-- In a field that always comes with the rule for one kind, the nodes of a list are of that kind. -/
theorem Node.Shaped.kind_of_mem_list {n : Node} (h : n.Shaped) {l : Label} {kind : Kind}
    (hrule : ∀ i, n.kind.fieldIndex? l = some i → n.kind.childRule? = some (l, [kind])) :
    ∀ c ∈ n.list l, c.kind = kind := by
  intro c hc
  have hc := Node.mem_nodesAt_of_mem_list hc
  obtain ⟨f, hf, -⟩ := Node.mem_nodesAt_iff.mp hc
  obtain ⟨i, hi, -⟩ := Option.bind_eq_some_iff.mp hf
  exact List.mem_singleton.mp (h.children _ _ (hrule i hi) c hc)

theorem Node.Shaped.parameters {n : Node} (h : n.Shaped) :
    ∀ p ∈ n.list .parameters, p.kind = .parameter :=
  h.kind_of_mem_list fun _ => Kind.childRule?_of_parameters

theorem Node.Shaped.declarations {n : Node} (h : n.Shaped) :
    ∀ d ∈ n.list .declarations, d.kind = .variableDeclaration :=
  h.kind_of_mem_list fun _ => Kind.childRule?_of_declarations

def Node.AllShaped (n : Node) : Prop :=
  ∀ m ∈ n.preorder, m.Shaped

theorem Node.AllShaped.of_mem_preorder {n m : Node} (h : n.AllShaped) (hm : m ∈ n.preorder) :
    m.AllShaped :=
  fun x hx => h x ((Node.preorder_sublist_of_mem_preorder hm).subset hx)

theorem Node.AllShaped.of_mem_children {n c : Node} (h : n.AllShaped) (hc : c ∈ n.children) :
    c.AllShaped :=
  h.of_mem_preorder (Node.mem_preorder_of_mem_children hc)

theorem Node.AllShaped.shaped {n : Node} (h : n.AllShaped) : n.Shaped :=
  h n n.self_mem_preorder

theorem Node.children_bare (n : Node) : n.bare.children = n.children.map Node.bare := by
  obtain ⟨kind, mark, fields⟩ := n
  rw [Node.bare_mk]
  change (fields.map Field.bare).flatMap Field.nodes = (fields.flatMap Field.nodes).map Node.bare
  induction fields with
  | nil => rfl
  | cons f fields ih =>
    rw [List.map_cons, List.flatMap_cons, List.flatMap_cons, List.map_append, ih]
    cases f <;> simp [Field.bare]

theorem Node.preorder_bare (n : Node) : n.bare.preorder = n.preorder.map Node.bare := by
  induction n using Node.inductionOnChildren with
  | h n ih =>
    rw [Node.preorder_eq, Node.preorder_eq n, Node.children_bare, List.flatMap_map, List.map_cons,
      List.map_flatMap]
    congr 1
    exact List.flatMap_congr ih

theorem Field.nodes_bare (f : Field) : f.bare.nodes = f.nodes.map Node.bare := by
  cases f <;> simp [Field.bare]

theorem Node.nodesAt_bare (n : Node) (l : Label) :
    n.bare.nodesAt l = (n.nodesAt l).map Node.bare := by
  unfold Node.nodesAt
  rw [Node.field?_bare]
  cases n.field? l with
  | none => rfl
  | some f => exact f.nodes_bare

theorem Node.exists_mem_nodesAt_of_bare {n m c : Node} {l : Label} (h : n.bare = m.bare)
    (hc : c ∈ n.nodesAt l) : ∃ d ∈ m.nodesAt l, d.kind = c.kind := by
  have hmem : c.bare ∈ (m.nodesAt l).map Node.bare := by
    rw [← Node.nodesAt_bare, ← h, Node.nodesAt_bare]
    exact List.mem_map_of_mem hc
  obtain ⟨d, hd, heq⟩ := List.mem_map.mp hmem
  exact ⟨d, hd, by simpa using congrArg Node.kind heq⟩

/-- What does not depend on marks is carried over to a tree that differs in marks only. -/
theorem Node.forall_preorder_of_bare {P : Node → Prop}
    (hP : ∀ {x y : Node}, x.bare = y.bare → P y → P x) {n m : Node} (h : n.bare = m.bare)
    (hm : ∀ y ∈ m.preorder, P y) : ∀ x ∈ n.preorder, P x := by
  intro x hx
  have hmem : x.bare ∈ m.preorder.map Node.bare := by
    rw [← Node.preorder_bare, ← h, Node.preorder_bare]
    exact List.mem_map_of_mem hx
  obtain ⟨y, hy, heq⟩ := List.mem_map.mp hmem
  exact hP heq.symm (hm y hy)

theorem Node.Shaped.of_bare {n m : Node} (h : n.bare = m.bare) (hm : m.Shaped) : n.Shaped := by
  have hkind : n.kind = m.kind := by simpa using congrArg Node.kind h
  refine ⟨?_, fun l kinds hrule c hc => ?_⟩
  · have hforms : n.fields.map Field.form = m.fields.map Field.form := by
      obtain ⟨kind, mark, fields⟩ := n
      obtain ⟨kind', mark', fields'⟩ := m
      rw [Node.bare_mk, Node.bare_mk] at h
      injection h with _ _ h
      simpa [Node.fields, Function.comp_def] using congrArg (List.map Field.form) h
    rw [hkind, checkFields_congr _ hforms]
    exact hm.fields
  · obtain ⟨d, hd, hcd⟩ := Node.exists_mem_nodesAt_of_bare h hc
    exact hcd ▸ hm.children l kinds (hkind ▸ hrule) d hd

theorem Node.AllShaped.of_bare {n m : Node} (h : n.bare = m.bare) (hm : m.AllShaped) :
    n.AllShaped :=
  Node.forall_preorder_of_bare Node.Shaped.of_bare h hm

structure Node.Read (n : Node) : Prop where
  id : n.id? = none
  shaped : n.Shaped

def Node.AllRead (n : Node) : Prop :=
  ∀ m ∈ n.preorder, m.Read

theorem Field.mem_nodes_ofOption {n : Node} {o : Option Node} :
    n ∈ (Field.ofOption o).nodes ↔ n ∈ o.toList := by
  cases o <;> simp [Field.ofOption]

theorem Field.fits_ofOption (o : Option Node) : (Field.ofOption o).fits .optional = true := by
  cases o <;> rfl

theorem Field.fits_optional_node (n : Node) : (Field.node n).fits .optional = true := rfl

theorem Field.fits_optional_absent : Field.absent.fits .optional = true := rfl

theorem Grammar.schema_of_keywordLiteral? {word : String} {kind : Kind}
    (h : Grammar.keywordLiteral? word = some kind) : kind.schema = [] := by
  unfold Grammar.keywordLiteral? at h
  split at h <;> cases h <;> rfl

def Phrase.kinds? : Phrase → Option (List Kind)
  | .parameter | .bareParameter => some [.parameter]
  | .declaration => some [.variableDeclaration]
  | .specifier => some [.importSpecifier]
  | .bindings => some [.namespaceImport, .namedImports]
  | .clause => some [.importClause]
  | .optional p | .announced _ p | .many _ p | .enclosed _ _ p => p.kinds?
  | _ => none

theorem Makes.kind_mem {D : Phrase → List Token → List Node → Prop} {p : Phrase} {ts : List Token}
    {kind : Kind} {fields : List Field} (h : Makes D p ts kind fields) {kinds : List Kind}
    (hk : p.kinds? = some kinds) : kind ∈ kinds := by
  cases h with
  | parameter | bareParameter | declaration | specifier | renamedSpecifier | namespaceImport
  | namedImports | defaultClause | bindingsClause =>
    obtain rfl := Option.some.inj hk
    simp
  | _ => cases hk

theorem Derives.kind_mem {p : Phrase} {ts : List Token} {ns : List Node} (h : Derives p ts ns)
    {kinds : List Kind} (hk : p.kinds? = some kinds) : ∀ n ∈ ns, n.kind ∈ kinds := by
  induction h with
  | absent | nil => simp
  | present _ ih | announced _ _ ih | enclosed _ _ _ ih => exact ih hk
  | snoc _ _ _ ihs ih => exact List.forall_mem_append.mpr ⟨ihs hk, ih hk⟩
  | made h _ _ => exact List.forall_mem_singleton.mpr (h.kind_mem hk)
  | _ => cases hk

theorem Makes.fits {D : Phrase → List Token → List Node → Prop} {p : Phrase} {ts : List Token}
    {kind : Kind} {fields : List Field} (h : Makes D p ts kind fields) :
    List.Forall₂ (fun s f => f.fits s.2 = true) kind.schema fields := by
  cases h with
  | keywordLiteral _ hk =>
    rw [Grammar.schema_of_keywordLiteral? hk]
    exact .nil
  | _ =>
    simp [Kind.schema, Field.fits_optional_node, Field.fits_optional_absent, Field.fits_ofOption,
      -Field.fits_optional_iff]

theorem Makes.read {p : Phrase} {ts : List Token} {kind : Kind} {fields : List Field}
    (h : Makes Derives p ts kind fields) : (Node.over kind ts fields).Read := by
  refine ⟨rfl, (checkFields_eq_ok_iff kind fields).mpr h.fits, fun l kinds hrule c hc => ?_⟩
  replace hrule : kind.childRule? = some (l, kinds) := hrule
  cases h with
  | functionType _ hp _ _ | functionExpression _ _ _ _ hp _ _ | arrow _ _ hp _ _ _
  | functionDeclaration _ _ _ _ _ hp _ _ _ | bareArrow _ hp _ _ | declarationList _ _ hp
  | namedImports hp | bindingsClause hp | importDeclaration _ hp _ _ _ =>
    cases hrule
    exact hp.kind_mem rfl c hc
  | defaultClause _ hb =>
    cases hrule
    exact hb.kind_mem rfl c (Field.mem_nodes_ofOption.mp hc)
  | bareImport =>
    cases hrule
    cases hc
  | keywordLiteral _ hk =>
    unfold Grammar.keywordLiteral? at hk
    split at hk <;> cases hk <;> cases hrule
  | _ => cases hrule

/-- What the rules ensure of the nodes that they make holds of every node of a phrase. -/
theorem Derives.forall_mem_preorder {P : Node → Prop} {p : Phrase} {ts : List Token}
    {ns : List Node}
    (hP : ∀ {p ts kind fields}, Makes Derives p ts kind fields → P (.over kind ts fields))
    (h : Derives p ts ns) : ∀ n ∈ ns, ∀ m ∈ n.preorder, P m := by
  have hQ : Token.Composes fun _ ns => ∀ n ∈ ns, ∀ m ∈ n.preorder, P m :=
    ⟨by simp, fun h h' => List.forall_mem_append.mpr ⟨h, h'⟩⟩
  refine h.compose hQ fun hm hparts => ?_
  rw [List.forall_mem_singleton, Node.preorder_eq, List.forall_mem_cons, List.forall_mem_flatMap]
  exact ⟨hP hm, hparts⟩

theorem parse_eq_ok {source : String} {tree : Node} (h : parse source = .ok tree) :
    ∃ tokens c, Token.scan source = .ok tokens ∧ moduleOfTokens tokens = .done tree c := by
  unfold parse at h
  split at h
  · cases h
  · next tokens hscan =>
    split at h
    · next tree c hdone =>
      cases h
      exact ⟨tokens, c, hscan, hdone⟩
    · cases h
    · cases h

theorem parse_allRead {source : String} {tree : Node} (h : parse source = .ok tree) :
    tree.AllRead ∧ tree.kind = .sourceFile := by
  obtain ⟨tokens, c, -, hdone⟩ := parse_eq_ok h
  obtain ⟨ts, statements, mark, -, -, hd, hid, rfl⟩ := moduleOfTokens_done hdone
  refine ⟨?_, rfl⟩
  intro m hm
  rw [Node.preorder_eq, List.mem_cons, List.mem_flatMap] at hm
  obtain rfl | ⟨s, hs, hm⟩ := hm
  · exact ⟨hid, rfl, nofun⟩
  · have hs : s ∈ statements := by simpa [Node.children, Node.fields] using hs
    exact hd.forall_mem_preorder Makes.read s hs m hm

namespace Node

def Literal (n : Node) : Prop :=
  n.kind = .taggedTemplateExpression → ∀ c ∈ n.nodesAt .template, c.kind ≠ .identifier

def AllLiteral (n : Node) : Prop :=
  ∀ m ∈ n.preorder, m.Literal

variable {n m : Node}

theorem Literal.of_bare (h : n.bare = m.bare) (hm : m.Literal) : n.Literal := by
  have hkind : n.kind = m.kind := by simpa using congrArg Node.kind h
  intro hk c hc
  obtain ⟨d, hd, hcd⟩ := exists_mem_nodesAt_of_bare h hc
  exact hcd ▸ hm (hkind ▸ hk) d hd

theorem AllLiteral.of_bare (h : n.bare = m.bare) (hm : m.AllLiteral) : n.AllLiteral :=
  forall_preorder_of_bare Literal.of_bare h hm

theorem allLiteral_iff (n : Node) :
    n.AllLiteral ↔ n.Literal ∧ ∀ c ∈ n.children, c.AllLiteral := by
  unfold AllLiteral
  rw [preorder_eq, List.forall_mem_cons, List.forall_mem_flatMap]

end Node

theorem Makes.literal {p : Phrase} {ts : List Token} {kind : Kind} {fields : List Field}
    (h : Makes Derives p ts kind fields) : (Node.over kind ts fields).Literal := by
  intro hkind c hc
  replace hkind : kind = .taggedTemplateExpression := hkind
  cases h with
  | taggedTemplate _ _ ha =>
    obtain rfl := List.mem_singleton.mp hc
    obtain ⟨_, _, hn, hm⟩ := ha.exists_makes rfl
    obtain rfl := List.singleton_inj.mp hn
    cases hm <;> nofun
  | keywordLiteral _ hk =>
    unfold Grammar.keywordLiteral? at hk
    split at hk <;> cases hk <;> cases hkind
  | _ => cases hkind

theorem parse_allLiteral {source : String} {tree : Node} (h : parse source = .ok tree) :
    tree.AllLiteral := by
  obtain ⟨tokens, c, -, hdone⟩ := parse_eq_ok h
  obtain ⟨ts, statements, mark, -, -, hd, -, rfl⟩ := moduleOfTokens_done hdone
  rw [Node.allLiteral_iff]
  refine ⟨nofun, fun s hs => hd.forall_mem_preorder Makes.literal s ?_⟩
  simpa [Node.children, Node.fields] using hs

end Quasiquote
