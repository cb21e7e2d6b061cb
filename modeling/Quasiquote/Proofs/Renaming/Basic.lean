import Quasiquote.Proofs.TopLevel

namespace Quasiquote

structure Renaming where
  /-- The identities of the names that change. -/
  renames : Nat → Bool
  /-- The node that opens the scope of the name. -/
  scope : Nat
  old : String
  new : String
  /-- The identity of the specifier that imports the name. -/
  specifier : Nat
  /-- Where the property name of the specifier comes from. -/
  mark : Mark

namespace Renaming

variable (r : Renaming)

def property : Node :=
  .mk .identifier r.mark [.text r.old]

def touches (n : Node) : Bool :=
  n.id?.any r.renames

def isSpecifier (n : Node) : Bool :=
  n.kind = .importSpecifier && n.id? = some r.specifier

def retext : Field → Field
  | .text _ => .text r.new
  | f => f

def importAs : List Field → List Field
  | .absent :: rest => .node r.property :: rest
  | fields => fields

def adjust (kind : Kind) (mark : Mark) (fields : List Field) : List Field :=
  if kind = .identifier ∧ mark.id.any r.renames then fields.map r.retext
  else if kind = .importSpecifier ∧ mark.id = some r.specifier then r.importAs fields
  else fields

end Renaming

mutual

def Node.rename (r : Renaming) : Node → Node
  | .mk kind mark fields => .mk kind mark (r.adjust kind mark (Field.renameList r fields))

def Field.renameList (r : Renaming) : List Field → List Field
  | [] => []
  | .node n :: rest => .node (n.rename r) :: Field.renameList r rest
  | .list ns :: rest => .list (Node.renameList r ns) :: Field.renameList r rest
  | .text s :: rest => .text s :: Field.renameList r rest
  | .flag b :: rest => .flag b :: Field.renameList r rest
  | .absent :: rest => .absent :: Field.renameList r rest

def Node.renameList (r : Renaming) : List Node → List Node
  | [] => []
  | n :: rest => n.rename r :: Node.renameList r rest

end

def Field.rename (r : Renaming) : Field → Field
  | .node n => .node (n.rename r)
  | .list ns => .list (ns.map (Node.rename r))
  | f => f

variable {r : Renaming}

theorem Node.renameList_eq (r : Renaming) (ns : List Node) :
    Node.renameList r ns = ns.map (Node.rename r) := by
  induction ns with
  | nil => rfl
  | cons n ns ih => rw [Node.renameList, ih, List.map_cons]

theorem Field.renameList_eq (r : Renaming) (fields : List Field) :
    Field.renameList r fields = fields.map (Field.rename r) := by
  induction fields with
  | nil => rfl
  | cons f fields ih => cases f <;> simp [Field.renameList, Field.rename, ih, Node.renameList_eq]

namespace Renaming

def text (r : Renaming) (n : Node) (s : String) : String :=
  if n.kind = .identifier ∧ r.touches n then r.new else s

def field (r : Renaming) (n : Node) : Field → Field
  | .text s => .text (r.text n s)
  | f => f.rename r

theorem node?_field (r : Renaming) (n : Node) (f : Field) :
    (r.field n f).node? = f.node?.map (Node.rename r) := by
  cases f <;> rfl

theorem nodes_field (r : Renaming) (n : Node) (f : Field) :
    (r.field n f).nodes = f.nodes.map (Node.rename r) := by
  cases f <;> rfl

theorem flatMap_nodes_field (r : Renaming) (n : Node) (fields : List Field) :
    (fields.map (r.field n)).flatMap Field.nodes =
      (fields.flatMap Field.nodes).map (Node.rename r) := by
  rw [List.flatMap_map, List.map_flatMap]
  exact List.flatMap_congr fun f _ => r.nodes_field n f

theorem text_of_kind {n : Node} (hk : n.kind ≠ .identifier) (s : String) : r.text n s = s :=
  if_neg fun h => hk h.1

theorem text_of_touches {n : Node} (h : r.touches n = false) (s : String) : r.text n s = s := by
  simp [text, h]

theorem getElem?_importAs (fields : List Field) (i : Nat) :
    (r.importAs fields)[i + 1]? = fields[i + 1]? := by
  unfold importAs
  split <;> rfl

theorem kind_of_isSpecifier {n : Node} (h : r.isSpecifier n = true) :
    n.kind = .importSpecifier := by
  simp_all [isSpecifier]

theorem adjust_of_id {mark : Mark} (h : mark.id = none) (kind : Kind) (fields : List Field) :
    r.adjust kind mark fields = fields := by
  simp [adjust, h]

end Renaming

namespace Node

variable {n c : Node} {l : Label}

@[simp] theorem kind_rename (n : Node) : (n.rename r).kind = n.kind := by
  cases n
  rfl

@[simp] theorem mark_rename (n : Node) : (n.rename r).mark = n.mark := by
  cases n
  rfl

@[simp] theorem id?_rename (n : Node) : (n.rename r).id? = n.id? :=
  congrArg Mark.id n.mark_rename

@[simp] theorem span_rename (n : Node) : (n.rename r).span = n.span :=
  congrArg Mark.span n.mark_rename

@[simp] theorem key_rename (n : Node) : (n.rename r).key = n.key := by
  rw [key, id?_rename]
  rfl

theorem fields_rename (n : Node) : (n.rename r).fields =
    if r.isSpecifier n then r.importAs (n.fields.map (r.field n)) else n.fields.map (r.field n) := by
  obtain ⟨kind, mark, fields⟩ := n
  rw [rename, Field.renameList_eq]
  change r.adjust kind mark (fields.map (Field.rename r)) = _
  unfold Renaming.adjust
  split
  · next h =>
    have hfield : r.retext ∘ Field.rename r = r.field (.mk kind mark fields) := by
      funext f
      cases f with
      | text s => exact congrArg Field.text (if_pos h).symm
      | _ => rfl
    have hspecifier : r.isSpecifier (.mk kind mark fields) = false := by
      simp [Renaming.isSpecifier, Node.kind, h.1]
    rw [hspecifier, List.map_map, hfield]
    rfl
  · next h =>
    have hfield : Field.rename r = r.field (.mk kind mark fields) := by
      funext f
      cases f with
      | text s => exact congrArg Field.text (if_neg h).symm
      | _ => rfl
    rw [hfield]
    exact if_congr (by simp [Renaming.isSpecifier]; rfl) rfl rfl

/-- How the fields change depends on the kind and the mark of their node. -/
theorem rename_mk (n : Node) (fields : List Field) : (mk n.kind n.mark fields).rename r =
    mk n.kind n.mark
      (if r.isSpecifier n then r.importAs (fields.map (r.field n)) else fields.map (r.field n)) := by
  have hfields := fields_rename (r := r) (mk n.kind n.mark fields)
  cases n
  exact congrArg (mk _ _) hfields

theorem rename_plain (kind : Kind) (fields : List Field) :
    (plain kind fields).rename r = plain kind (fields.map (Field.rename r)) := by
  rw [plain, rename, Field.renameList_eq, Renaming.adjust_of_id rfl]
  rfl

theorem withSpan_rename (n : Node) (span : Option Span) :
    (n.withSpan span).rename r = (n.rename r).withSpan span := by
  obtain ⟨kind, mark, fields⟩ := n
  rfl

theorem withField_rename (n : Node) (hl : Kind.importSpecifier.fieldIndex? l = none)
    (cs : List Node) :
    (n.withField l (.list cs)).rename r = (n.rename r).withField l (.list (cs.map (rename r))) := by
  unfold withField
  rw [kind_rename, mark_rename, fields_rename]
  cases hi : n.kind.fieldIndex? l with
  | none => rfl
  | some i =>
    have hspecifier : r.isSpecifier n = false := by
      refine Bool.eq_false_iff.mpr fun hs => ?_
      rw [Renaming.kind_of_isSpecifier hs, hl] at hi
      cases hi
    dsimp only
    rw [rename_mk, hspecifier, List.map_set]
    rfl

/-- Of the named fields, only the property name of the specifier is new. -/
theorem field?_rename (n : Node) (hl : l ≠ .propertyName) :
    (n.rename r).field? l = (n.field? l).map (r.field n) := by
  unfold field?
  rw [kind_rename, fields_rename]
  cases hi : n.kind.fieldIndex? l with
  | none => rfl
  | some i =>
    simp only [Option.bind_some]
    rw [← List.getElem?_map]
    split
    · next hs =>
      obtain ⟨j, rfl⟩ : ∃ j, i = j + 1 := by
        obtain ⟨shape, hshape⟩ := n.kind.fieldIndex?_eq_some hi
        cases i with
        | zero =>
          rw [Renaming.kind_of_isSpecifier hs] at hshape
          cases hshape
          exact absurd rfl hl
        | succ j => exact ⟨j, rfl⟩
      exact Renaming.getElem?_importAs _ j
    · rfl

theorem child?_rename (n : Node) (hl : l ≠ .propertyName) :
    (n.rename r).child? l = (n.child? l).map (rename r) := by
  unfold child?
  rw [field?_rename n hl]
  cases n.field? l with
  | none => rfl
  | some f => exact r.node?_field n f

theorem child?_rename_of_isSpecifier (h : r.isSpecifier n = false) (l : Label) :
    (n.rename r).child? l = (n.child? l).map (rename r) := by
  unfold child? field?
  rw [kind_rename, fields_rename, h]
  cases n.kind.fieldIndex? l with
  | none => rfl
  | some i =>
    simp only [Option.bind_some, Bool.false_eq_true, if_false, List.getElem?_map]
    cases n.fields[i]? with
    | none => rfl
    | some f => exact r.node?_field n f

/-- The specifier imports what it did: the name that was its own is its property name now. -/
theorem child?_propertyName_rename {rest : List Field} (h : r.isSpecifier n = true)
    (hf : n.fields = .absent :: rest) : (n.rename r).child? .propertyName = some r.property := by
  unfold child? field?
  rw [kind_rename, fields_rename, h, Renaming.kind_of_isSpecifier h, hf]
  rfl

theorem list_rename (n : Node) (hl : l ≠ .propertyName) :
    (n.rename r).list l = (n.list l).map (rename r) := by
  unfold list
  rw [field?_rename n hl]
  cases n.field? l with
  | none => rfl
  | some f => cases f <;> rfl

theorem flag_rename (n : Node) (hl : l ≠ .propertyName) : (n.rename r).flag l = n.flag l := by
  unfold flag
  rw [field?_rename n hl]
  cases n.field? l with
  | none => rfl
  | some f => cases f <;> rfl

theorem text?_rename (n : Node) (hl : l ≠ .propertyName) :
    (n.rename r).text? l = (n.text? l).map (r.text n) := by
  unfold text?
  rw [field?_rename n hl]
  cases n.field? l with
  | none => rfl
  | some f => cases f <;> rfl

theorem text?_rename_of_kind (hk : n.kind ≠ .identifier) (hl : l ≠ .propertyName) :
    (n.rename r).text? l = n.text? l := by
  rw [text?_rename n hl, funext (Renaming.text_of_kind hk), Option.map_id']

/-- A name has no text besides its own. -/
theorem text?_rename_of_label (n : Node) (ht : l ≠ .text) (hl : l ≠ .propertyName) :
    (n.rename r).text? l = n.text? l := by
  by_cases hk : n.kind = .identifier
  · have hnone : n.text? l = none := by
      have hindex : Kind.identifier.fieldIndex? l = none := by
        simp [Kind.fieldIndex?, Kind.schema, Ne.symm ht]
      simp [text?, field?, hk, hindex]
    rw [text?_rename n hl, hnone]
    rfl
  · exact text?_rename_of_kind hk hl

theorem identifier?_rename (n : Node) :
    (n.rename r).identifier? = n.identifier?.map fun s => if r.touches n then r.new else s := by
  unfold identifier?
  rw [kind_rename]
  split
  · next hk =>
    have htext : r.text n = fun s => if r.touches n then r.new else s := by
      funext s
      simp [Renaming.text, hk]
    rw [text?_rename n (by decide), htext]
  · rfl

theorem identifier?_rename_of_touches (h : r.touches n = false) :
    (n.rename r).identifier? = n.identifier? := by
  simp [identifier?_rename, h]

/-- The children are the old ones, but that the specifier has a property name besides. -/
theorem children_rename (n : Node) : (n.rename r).children = n.children.map (rename r) ∨
    (n.rename r).children = r.property :: n.children.map (rename r) := by
  unfold children
  rw [fields_rename]
  split
  · cases n.fields with
    | nil => exact .inl rfl
    | cons f fields =>
      cases f with
      | absent => exact .inr (congrArg (r.property :: ·) (r.flatMap_nodes_field n fields))
      | node c => exact .inl (r.flatMap_nodes_field n (.node c :: fields))
      | list cs => exact .inl (r.flatMap_nodes_field n (.list cs :: fields))
      | text s => exact .inl (r.flatMap_nodes_field n (.text s :: fields))
      | flag b => exact .inl (r.flatMap_nodes_field n (.flag b :: fields))
  · exact .inl (r.flatMap_nodes_field n n.fields)

def Entry.rename (r : Renaming) (e : Entry) : Entry :=
  ⟨e.node.rename r, e.ancestors.map (Node.rename r)⟩

theorem entriesUnder_property (r : Renaming) (ancestors : List Node) :
    r.property.entriesUnder ancestors = [⟨r.property, ancestors⟩] := by
  rw [entriesUnder_eq]
  rfl

/-- What is selected in the new tree is what is selected in the old one, if the property name never
is. -/
theorem filter_entriesUnder_rename (select select' : Entry → Bool) (n : Node)
    (ancestors : List Node)
    (hselect : ∀ e ∈ n.entriesUnder ancestors, select' (e.rename r) = select e)
    (hproperty : ∀ around, select' ⟨r.property, around⟩ = false) :
    ((n.rename r).entriesUnder (ancestors.map (rename r))).filter select' =
      ((n.entriesUnder ancestors).filter select).map (Entry.rename r) := by
  induction n using inductionOnChildren generalizing ancestors with
  | h n ih =>
    have hself : select' ⟨n.rename r, ancestors.map (rename r)⟩ = select ⟨n, ancestors⟩ :=
      hselect ⟨n, ancestors⟩ (by rw [entriesUnder_eq]; exact List.mem_cons_self)
    have hchildren : ((n.children.map (rename r)).flatMap
          (entriesUnder (n.rename r :: ancestors.map (rename r)))).filter select' =
        ((n.children.flatMap (entriesUnder (n :: ancestors))).filter select).map
          (Entry.rename r) := by
      rw [List.flatMap_map, List.filter_flatMap, List.filter_flatMap, List.map_flatMap]
      refine List.flatMap_congr fun c hc => ih c hc (n :: ancestors) fun e he => hselect e ?_
      rw [entriesUnder_eq]
      exact List.mem_cons_of_mem _ (List.mem_flatMap.mpr ⟨c, hc, he⟩)
    have htail : ((n.rename r).children.flatMap
          (entriesUnder (n.rename r :: ancestors.map (rename r)))).filter select' =
        ((n.children.flatMap (entriesUnder (n :: ancestors))).filter select).map
          (Entry.rename r) := by
      obtain h | h := n.children_rename (r := r)
      · rw [h, hchildren]
      · rw [h, List.flatMap_cons, List.filter_append, entriesUnder_property, hchildren,
          List.filter_cons_of_neg (by simp [hproperty])]
        rfl
    rw [entriesUnder_eq, entriesUnder_eq, List.filter_cons, List.filter_cons, hself, htail]
    split <;> rfl

theorem filter_preorder_rename (select select' : Node → Bool) (n : Node)
    (hselect : ∀ m ∈ n.preorder, select' (m.rename r) = select m)
    (hproperty : select' r.property = false) :
    (n.rename r).preorder.filter select' = (n.preorder.filter select).map (rename r) := by
  have h := filter_entriesUnder_rename (r := r) (fun e => select e.node) (fun e => select' e.node)
    n [] (fun e he => hselect e.node ?_) fun _ => hproperty
  · have h := congrArg (List.map Entry.node) h
    rw [← map_node_entriesUnder _ [], ← map_node_entriesUnder n [], List.filter_map,
      List.filter_map, List.map_map]
    rw [List.map_map] at h
    exact h
  · rw [← map_node_entriesUnder n []]
    exact List.mem_map_of_mem he

/-- A tree without the specifier and the names that change stays as it is. -/
theorem rename_eq_self (h : ∀ m ∈ n.preorder, r.touches m = false ∧ r.isSpecifier m = false) :
    n.rename r = n := by
  induction n using inductionOnChildren with
  | h n ih =>
    obtain ⟨htouches, hspecifier⟩ := h n n.self_mem_preorder
    have hchild : ∀ c ∈ n.children, c.rename r = c := fun c hc =>
      ih c hc fun m hm => h m
        ((preorder_sublist_of_mem_preorder (mem_preorder_of_mem_children hc)).subset hm)
    have hfield : ∀ f ∈ n.fields, r.field n f = f := by
      intro f hf
      cases f with
      | node c =>
        exact congrArg Field.node (hchild c (List.mem_flatMap.mpr ⟨_, hf, by simp [Field.nodes]⟩))
      | list cs =>
        have hcs : cs.map (rename r) = cs.map id := List.map_congr_left fun c hc =>
          hchild c (List.mem_flatMap.mpr ⟨_, hf, hc⟩)
        exact congrArg Field.list (hcs.trans cs.map_id)
      | text s => exact congrArg Field.text (Renaming.text_of_touches htouches s)
      | flag b => rfl
      | absent => rfl
    have hfields : n.fields.map (r.field n) = n.fields :=
      (List.map_congr_left (g := id) hfield).trans n.fields.map_id
    have heta : mk n.kind n.mark n.fields = n := by
      cases n
      rfl
    calc
      n.rename r = (mk n.kind n.mark n.fields).rename r := by rw [heta]
      _ = mk n.kind n.mark n.fields := by
        rw [rename_mk, hspecifier, hfields]
        rfl
      _ = n := heta

end Node

end Quasiquote
