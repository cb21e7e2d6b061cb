import Quasiquote.Proofs.Remaking
import Quasiquote.Proofs.Splicing
import Quasiquote.Proofs.Visiting

namespace Quasiquote

namespace Descent

variable {name : String} {path outer outer' : List Descent}

def Clear (name : String) (outer : List Descent) : List Descent → Prop
  | [] => True
  | d :: path =>
    (d.isReference = true ∧ ¬d.Declares name (path ++ outer)) ∧ Clear name outer path

theorem clear_append {path' : List Descent} : Clear name outer (path' ++ path) ↔
    Clear name (path ++ outer) path' ∧ Clear name outer path := by
  induction path' with
  | nil => simp [Clear]
  | cons d path' ih => simp [Clear, ih, and_assoc]

theorem Alike.append (h : Alike outer outer') (path : List Descent) :
    Alike (path ++ outer) (path ++ outer') := by
  cases path with
  | nil => exact h
  | cons d path => exact ⟨by simp, by simp [ReachesBody]⟩

theorem Declares.of_alike {d : Descent} (h : d.Declares name outer) (ho : Alike outer outer') :
    d.Declares name outer' :=
  h.of_keeps ⟨rfl, Field.mirrors_refl _⟩ ho

theorem Clear.of_alike (h : Clear name outer path) (ho : Alike outer outer') :
    Clear name outer' path := by
  induction path with
  | nil => trivial
  | cons d path ih =>
    exact ⟨⟨h.1.1, fun hd => h.1.2 (hd.of_alike (ho.symm.append path))⟩, ih h.2⟩

theorem alike_of_label {d d' : Descent} (h : d.label ≠ .body) (h' : d'.label ≠ .body) :
    Alike (d :: outer) (d' :: outer') := by
  refine ⟨by simp, ?_⟩
  simp [ReachesBody, h, h']

end Descent

namespace Node

variable {T : Node → Prop} {name : String} {n c x : Node} {l : Label} {path outer outer' : List Descent}

def Guarded (T : Node → Prop) (name : String) (outer : List Descent) (n : Node) : Prop :=
  ∀ path x, n.Leads path x → T x → Descent.Clear name outer path

theorem Guarded.of_alike (h : n.Guarded T name outer) (ho : Descent.Alike outer outer') :
    n.Guarded T name outer' :=
  fun path x hp hx => (h path x hp hx).of_alike ho

theorem Guarded.of_leads (h : n.Guarded T name outer) (hp : n.Leads path c) :
    c.Guarded T name (path ++ outer) :=
  fun _ x hp' hx => (Descent.clear_append.mp (h _ x (hp.trans hp') hx)).1

/-- A node guards what its parts guard, if its own step to a part with something wanted in it is
clear. -/
theorem guarded_of_parts (h : ∀ l, ∀ c ∈ n.nodesAt l, c.Guarded T name (⟨n, l⟩ :: outer))
    (hn : ∀ l, ∀ c ∈ n.nodesAt l, (∃ x ∈ c.preorder, T x) →
      Descent.Clear name outer [⟨n, l⟩]) : n.Guarded T name outer := by
  intro path x hp hx
  obtain ⟨rfl, rfl⟩ | ⟨l, c, path, hc, hpc, rfl⟩ := hp.cases_first
  · trivial
  · exact Descent.clear_append.mpr
      ⟨h l c hc path x hpc hx, hn l c hc ⟨x, hpc.mem_preorder, hx⟩⟩

/-- The step of a node towards something wanted is clear. -/
theorem Guarded.clear_step (h : n.Guarded T name outer) (hc : c ∈ n.nodesAt l)
    (hs : c.AllShaped) (hx : x ∈ c.preorder) (hT : T x) : Descent.Clear name outer [⟨n, l⟩] := by
  obtain ⟨path, hp⟩ := exists_leads_of_mem_preorder hs hx
  exact (Descent.clear_append.mp (h _ x (hp.up hc) hT)).2

theorem guarded_of_none (h : ∀ x ∈ n.preorder, ¬T x) : n.Guarded T name outer :=
  fun _ x hp hx => absurd hx (h x hp.mem_preorder)

theorem clear_of_kind (href : n.kind.refersIn l = true) (hb : n.kind ≠ .block)
    (hf : n.kind.isFunctionLike = false) (houter : outer ≠ []) :
    Descent.Clear name outer [⟨n, l⟩] :=
  ⟨⟨href, Descent.not_declares_of_kind hb hf houter⟩, trivial⟩

end Node

inductive Node.Wraps (ns : String) (holes : List Node) : Node → Prop
  | hole {n : Node} (h : n ∈ holes) : Wraps ns holes n
  | text (s : String) : Wraps ns holes (.stringLiteral s)
  | boolean (b : Bool) : Wraps ns holes (.boolean b)
  | name (s : String) : Wraps ns holes (.identifier s)
  | array {elements : List Node} (h : ∀ e ∈ elements, Wraps ns holes e) :
    Wraps ns holes (.array elements)
  | factoryCall {kind : Kind} {arguments : List Node} (h : ∀ a ∈ arguments, Wraps ns holes a) :
    Wraps ns holes (.factoryCall ns kind arguments)

namespace Node

variable {ns : String} {holes : List Node}

theorem wraps_builderCall (n : Node) : (n.builderCall ns).Wraps ns holes := by
  induction n using inductionOnChildren with
  | h n ih =>
    obtain ⟨kind, mark, fields⟩ := n
    rw [builderCall_mk]
    refine .factoryCall fun a ha => ?_
    obtain ⟨f, hf, rfl⟩ := List.mem_map.mp ha
    have hparts : ∀ c ∈ f.nodes, (c.builderCall ns).Wraps ns holes := fun c hc =>
      ih c (List.mem_flatMap.mpr ⟨f, hf, hc⟩)
    cases f with
    | node n => exact hparts n (by simp)
    | list ms => exact .array (by simpa using hparts)
    | text s => exact .text s
    | flag b => exact .boolean b
    | absent => exact .name _

theorem wraps_synthesize (fragment : Node) : (fragment.synthesize ns).Wraps ns holes := by
  rw [synthesize]
  split
  · exact .factoryCall (by simp)
  · split <;> exact wraps_builderCall _
  · rw [builderCalls_eq_map]
    refine .array fun e he => ?_
    obtain ⟨m, -, rfl⟩ := List.mem_map.mp he
    exact wraps_builderCall m

end Node

def Registry.Within (r : Registry) (holes : List Node) : Prop :=
  ∀ e ∈ r.entries, e.2.payload ∈ holes

theorem Registry.Within.erase {r : Registry} {holes : List Node} (h : r.Within holes)
    (token : String) : (r.erase token).Within holes :=
  fun e he => h e (List.mem_filter.mp he).1

theorem Node.wraps_spliceList {ns : String} {holes ms : List Node} {r : Registry}
    (h : ∀ m ∈ ms, ∀ r : Registry, r.Within holes →
      (m.splice ns r).1.Wraps ns holes ∧ (m.splice ns r).2.Within holes) (hr : r.Within holes) :
    (∀ m ∈ (Node.spliceList ns ms r).1, m.Wraps ns holes) ∧
      (Node.spliceList ns ms r).2.Within holes := by
  induction ms generalizing r with
  | nil => exact ⟨by simp [Node.spliceList], hr⟩
  | cons m ms ih =>
    obtain ⟨hm, hms⟩ := List.forall_mem_cons.mp h
    obtain ⟨hwraps, hr₁⟩ := hm r hr
    obtain ⟨hrest, hr₂⟩ := ih hms hr₁
    refine ⟨?_, hr₂⟩
    simp only [Node.spliceList, List.forall_mem_cons]
    exact ⟨hwraps, hrest⟩

/-- Splicing puts payloads into an expression that builds nodes. -/
theorem Node.wraps_splice {ns : String} {holes : List Node} {n : Node} (hn : n.Wraps ns [])
    {r : Registry} (hr : r.Within holes) :
    (n.splice ns r).1.Wraps ns holes ∧ (n.splice ns r).2.Within holes := by
  induction hn generalizing r with
  | hole h => simp at h
  | text s =>
    rw [Node.splice_stringLiteral]
    exact ⟨.text s, hr⟩
  | boolean b =>
    rw [Node.splice_boolean]
    exact ⟨.boolean b, hr⟩
  | name s =>
    rw [Node.splice_identifier]
    exact ⟨.name s, hr⟩
  | array _ ih =>
    rw [Node.splice_array]
    obtain ⟨helements, hr'⟩ := Node.wraps_spliceList (fun m hm r hr => ih m hm hr) hr
    exact ⟨.array helements, hr'⟩
  | @factoryCall kind arguments _ ih =>
    cases htake : r.take? ns (.factoryCall ns kind arguments) with
    | some taken =>
      obtain ⟨token, p, hp, rfl⟩ := Registry.take?_eq_some htake
      rw [Node.factoryCall, Node.call, Node.plain] at htake ⊢
      rw [Node.splice, htake]
      exact ⟨.hole (hr _ (Registry.mem_entries_of_get? hp)), hr.erase token⟩
    | none =>
      rw [Node.splice_factoryCall ns htake]
      obtain ⟨harguments, hr'⟩ := Node.wraps_spliceList (fun m hm r hr => ih m hm hr) hr
      exact ⟨.factoryCall harguments, hr'⟩

theorem Fragment.within_addAll {c : Compilation} {literalText : String} {holes : List Node}
    (substitutions : List (Node × String)) (f : Fragment) (ids : IdSupply)
    (hf : f.registry.Within holes) (hs : ∀ s ∈ substitutions, c.payload s.1 ∈ holes) :
    (Fragment.addAll c literalText f ids substitutions).1.registry.Within holes := by
  induction substitutions generalizing f ids with
  | nil => exact hf
  | cons s rest ih =>
    obtain ⟨hs, hrest⟩ := List.forall_mem_cons.mp hs
    refine ih _ _ ?_ hrest
    intro e he
    simp only [Registry.insert, List.mem_append, List.mem_singleton] at he
    obtain he | rfl := he
    · exact hf.erase _ e he
    · exact hs

theorem Fragment.wraps_expand {f : Fragment} {ns : String} {e : Expansion} {holes : List Node}
    (hf : f.registry.Within holes) (h : f.expand ns = .ok e) : e.tree.Wraps ns holes := by
  rw [Fragment.expand] at h
  split at h
  · cases h
  · next tree _ =>
    obtain rfl := Except.ok.inj h
    exact (Node.wraps_splice (Node.wraps_synthesize tree) hf).1

/-- The expression for a template is generated around the payloads of its substitutions. -/
theorem Compilation.wraps_expandTemplate {c : Compilation} {template : Node} {ids ids' : IdSupply}
    {e : Expansion} (h : c.expandTemplate template ids = (.ok e, ids')) :
    e.tree.Wraps c.options.factoryNamespace
      ((TemplateParts.ofTemplate template).substitutions.map fun s => c.payload s.1) := by
  rw [Compilation.expandTemplate, Compilation.compileTemplate] at h
  by_cases hempty : (TemplateParts.ofTemplate template).isEmpty = true
  · simp only [hempty, if_true, Prod.mk.injEq, Except.ok.injEq] at h
    obtain ⟨rfl, -⟩ := h
    exact .factoryCall (by simp)
  · simp only [hempty] at h
    refine Fragment.wraps_expand ?_ (by simpa using congrArg Prod.fst h)
    refine Fragment.within_addAll _ _ _ (by simp [Registry.Within]) fun s hs => ?_
    exact List.mem_map.mpr ⟨s, hs, rfl⟩

namespace Node

variable {T : Node → Prop} {ns name : String} {holes : List Node} {n t : Node}
  {outer : List Descent}

theorem allShaped_iff (n : Node) : n.AllShaped ↔ n.Shaped ∧ ∀ c ∈ n.children, c.AllShaped := by
  simp only [AllShaped]
  rw [preorder_eq]
  simp only [List.forall_mem_cons, List.forall_mem_flatMap]

theorem allShaped_plain {kind : Kind} {fields : List Field}
    (hf : checkFields kind fields = .ok ()) (hrule : kind.childRule? = none)
    (h : ∀ c ∈ fields.flatMap Field.nodes, c.AllShaped) : (plain kind fields).AllShaped :=
  (allShaped_iff _).mpr ⟨⟨hf, by simp [plain, Node.kind, hrule]⟩, h⟩

theorem allShaped_identifier (s : String) : (identifier s).AllShaped :=
  allShaped_plain rfl rfl nofun

theorem allShaped_call {callee : Node} {arguments : List Node} (hc : callee.AllShaped)
    (ha : ∀ a ∈ arguments, a.AllShaped) : (call callee arguments).AllShaped :=
  allShaped_plain rfl rfl (by simpa using ⟨hc, ha⟩)

theorem allShaped_propertyAccess {object : Node} (name : String) (ho : object.AllShaped) :
    (propertyAccess object name).AllShaped :=
  allShaped_plain rfl rfl (by simpa using ⟨ho, allShaped_identifier name⟩)

theorem Wraps.allShaped (h : t.Wraps ns holes) (hh : ∀ n ∈ holes, n.AllShaped) :
    t.AllShaped := by
  induction h with
  | hole h => exact hh _ h
  | text s => exact allShaped_plain rfl rfl nofun
  | boolean b => cases b <;> exact allShaped_plain rfl rfl nofun
  | name s => exact allShaped_identifier s
  | array _ ih => exact allShaped_plain rfl rfl (by simpa using ih)
  | factoryCall _ ih =>
    exact allShaped_call (allShaped_propertyAccess _ (allShaped_identifier ns)) ih

def Holds (n : Node) (id : Nat) : Prop :=
  ∃ x ∈ n.preorder, x.id? = some id

theorem holds_iff (n : Node) (id : Nat) :
    n.Holds id ↔ n.id? = some id ∨ ∃ c ∈ n.children, c.Holds id := by
  unfold Holds
  rw [preorder_eq]
  simp only [List.mem_cons, List.mem_flatMap]
  grind

theorem holds_plain {kind : Kind} {fields : List Field} {id : Nat} :
    (plain kind fields).Holds id ↔ ∃ c ∈ fields.flatMap Field.nodes, c.Holds id := by
  rw [holds_iff]
  simp [plain, id?, mark, children, Node.fields]

theorem Holds.of_leads {path : List Descent} {id : Nat} (h : c.Holds id) (hp : n.Leads path c) :
    n.Holds id := by
  obtain ⟨x, hx, hid⟩ := h
  exact ⟨x, (preorder_sublist_of_mem_preorder hp.mem_preorder).subset hx, hid⟩

theorem not_holds_identifier (s : String) (id : Nat) : ¬(identifier s).Holds id := by
  simp [identifier, holds_plain]

/-- What is generated has no identity. -/
theorem Wraps.exists_hole {id : Nat} (h : t.Wraps ns holes) (ht : t.Holds id) :
    ∃ n ∈ holes, n.Holds id := by
  induction h with
  | hole h => exact ⟨_, h, ht⟩
  | text s => simp [stringLiteral, holds_plain] at ht
  | boolean b => simp [Node.boolean, holds_plain] at ht
  | name s => exact absurd ht (not_holds_identifier s id)
  | array _ ih =>
    obtain ⟨e, he, ht⟩ := holds_plain.mp ht
    exact ih e (by simpa using he) ht
  | factoryCall _ ih =>
    obtain ⟨a, ha, ht⟩ := holds_plain.mp ht
    obtain rfl | ha : a = _ ∨ a ∈ _ := by simpa using ha
    · simp [propertyAccess, holds_plain, not_holds_identifier] at ht
    · exact ih a ha ht

theorem Wraps.kind_ne_block (h : t.Wraps ns holes) (hh : ∀ n ∈ holes, n.kind ≠ .block) :
    t.kind ≠ .block := by
  cases h with
  | hole h => exact hh _ h
  | boolean b => cases b <;> simp [Node.boolean, plain, Node.kind]
  | _ => simp [stringLiteral, identifier, Node.array, Node.factoryCall, call, plain, Node.kind]

theorem guarded_call {callee : Node} {arguments : List Node}
    (hc : callee.Guarded T name (⟨call callee arguments, .expression⟩ :: outer))
    (ha : ∀ a ∈ arguments, a.Guarded T name (⟨call callee arguments, .arguments⟩ :: outer))
    (houter : outer ≠ []) : (call callee arguments).Guarded T name outer := by
  refine guarded_of_parts (fun l c hl => ?_) fun l c hl _ => ?_
  all_goals
    obtain ⟨shape, hschema⟩ := label_mem_schema hl
    simp only [call, plain, Node.kind, Kind.schema, List.mem_cons, Prod.mk.injEq,
      List.not_mem_nil, or_false] at hschema
    obtain ⟨rfl, -⟩ | ⟨rfl, -⟩ | ⟨rfl, -⟩ := hschema
  · obtain rfl : c = callee := List.mem_singleton.mp hl
    exact hc
  · exact absurd (show c ∈ ([] : List Node) from hl) (by simp)
  · exact ha c hl
  · exact clear_of_kind rfl (by simp [call, plain, Node.kind]) rfl houter
  · exact absurd (show c ∈ ([] : List Node) from hl) (by simp)
  · exact clear_of_kind rfl (by simp [call, plain, Node.kind]) rfl houter

theorem cases_nodesAt_arrowFunction {parameter : String} {span : Option Span} {l : Label} {c : Node}
    (hc : c ∈ ((arrowFunction [.parameter parameter] t).withSpan span).nodesAt l) :
    (l = .parameters ∧ c = .parameter parameter) ∨ (l = .body ∧ c = t) := by
  obtain ⟨shape, hschema⟩ := label_mem_schema hc
  simp only [arrowFunction, withSpan, plain, Node.kind, Kind.schema, List.mem_cons,
    Prod.mk.injEq, List.not_mem_nil, or_false] at hschema
  obtain ⟨rfl, -⟩ | ⟨rfl, -⟩ | ⟨rfl, -⟩ | ⟨rfl, -⟩ | ⟨rfl, -⟩ := hschema
  · exact absurd (show c ∈ ([] : List Node) from hc) (by simp)
  · exact absurd (show c ∈ ([] : List Node) from hc) (by simp)
  · exact .inl ⟨rfl, List.mem_singleton.mp hc⟩
  · exact absurd (show c ∈ ([] : List Node) from hc) (by simp)
  · exact .inr ⟨rfl, List.mem_singleton.mp hc⟩

section

variable (hT : ∀ x, T x → x.kind = .taggedTemplateExpression ∨ x.kind = .propertyAccessExpression)

include hT

theorem not_wanted_of_leaf (hc : n.children = []) (ht : n.kind ≠ .taggedTemplateExpression)
    (ha : n.kind ≠ .propertyAccessExpression) : ∀ x ∈ n.preorder, ¬T x := by
  intro x hx h
  rw [preorder_eq, hc, List.flatMap_nil, List.mem_singleton] at hx
  subst hx
  exact (hT x h).elim ht ha

theorem not_wanted_identifier (s : String) : ∀ x ∈ (identifier s).preorder, ¬T x :=
  not_wanted_of_leaf hT rfl (by simp [identifier, plain, Node.kind])
    (by simp [identifier, plain, Node.kind])

theorem guarded_propertyAccess (object member : String) :
    (propertyAccess (identifier object) member).Guarded T name outer := by
  have hparts : ∀ l, ∀ c ∈ (propertyAccess (identifier object) member).nodesAt l,
      ∀ x ∈ c.preorder, ¬T x := by
    intro l c hc
    obtain rfl | rfl : c = identifier object ∨ c = identifier member := by
      simpa [propertyAccess, plain, children, Node.fields] using mem_children_of_mem_nodesAt hc
    · exact not_wanted_identifier hT object
    · exact not_wanted_identifier hT member
  refine guarded_of_parts (fun l c hc => guarded_of_none (hparts l c hc)) ?_
  rintro l c hc ⟨x, hx, h⟩
  exact absurd h (hparts l c hc x hx)

theorem Wraps.guarded (h : t.Wraps ns holes)
    (hh : ∀ n ∈ holes, ∀ outer, outer ≠ [] → n.Guarded T name outer) (houter : outer ≠ []) :
    t.Guarded T name outer := by
  induction h generalizing outer with
  | hole h => exact hh _ h outer houter
  | text s =>
    exact guarded_of_none (not_wanted_of_leaf hT rfl (by simp [stringLiteral, plain, Node.kind])
      (by simp [stringLiteral, plain, Node.kind]))
  | boolean b =>
    cases b <;> exact guarded_of_none (not_wanted_of_leaf hT rfl
      (by simp [Node.boolean, plain, Node.kind]) (by simp [Node.boolean, plain, Node.kind]))
  | name s => exact guarded_of_none (not_wanted_identifier hT s)
  | @array elements _ ih =>
    refine guarded_of_parts (fun l c hl => ih c ?_ (by simp)) fun l c hl _ => ?_
    · simpa [Node.array, plain, children, Node.fields] using mem_children_of_mem_nodesAt hl
    · obtain ⟨shape, hschema⟩ := label_mem_schema hl
      obtain ⟨rfl, -⟩ : l = .elements ∧ shape = .list := by
        simpa [Node.array, plain, Node.kind, Kind.schema] using hschema
      exact clear_of_kind rfl (by simp [Node.array, plain, Node.kind]) rfl houter
  | factoryCall _ ih =>
    exact guarded_call (guarded_propertyAccess hT _ _) (fun a ha => ih a ha (by simp)) houter

/-- The function around a generated expression declares its parameter alone. -/
theorem guarded_arrowFunction {parameter : String} {span : Option Span} (hp : parameter ≠ name)
    (htk : t.kind ≠ .block) (ht : ∀ outer, outer ≠ [] → t.Guarded T name outer) :
    ((arrowFunction [.parameter parameter] t).withSpan span).Guarded T name outer := by
  have hparameter : ∀ x ∈ (Node.parameter parameter).preorder, ¬T x := by
    intro x hx h
    have hchildren : (Node.parameter parameter).children = [identifier parameter] := rfl
    rw [preorder_eq, hchildren, List.flatMap_singleton, List.mem_cons] at hx
    obtain rfl | hx := hx
    · exact (hT _ h).elim (by simp [Node.parameter, plain, Node.kind])
        (by simp [Node.parameter, plain, Node.kind])
    · exact not_wanted_identifier hT parameter x hx h
  refine guarded_of_parts (fun l c hl => ?_) ?_
  · obtain ⟨rfl, rfl⟩ | ⟨rfl, rfl⟩ := cases_nodesAt_arrowFunction hl
    · exact guarded_of_none hparameter
    · exact ht _ (by simp)
  · rintro l c hl ⟨x, hx, hTx⟩
    obtain ⟨rfl, rfl⟩ | ⟨rfl, rfl⟩ := cases_nodesAt_arrowFunction hl
    · exact absurd hTx (hparameter x hx)
    refine ⟨⟨rfl, fun h => ?_⟩, trivial⟩
    cases h with
    | module hk => cases hk
    | ownName hk => cases hk
    | parameter _ hq h =>
      obtain rfl := List.mem_singleton.mp hq
      obtain ⟨id, hid, hname⟩ := h
      obtain rfl : .identifier parameter = id := Option.some.inj hid
      exact hp (Option.some.inj hname)
    | body _ hb hbk =>
      obtain rfl := Option.some.inj hb
      exact htk hbk
    | block hk => cases hk

end

theorem allShaped_arrowFunction {parameter : String} {span : Option Span} (ht : t.AllShaped) :
    ((arrowFunction [.parameter parameter] t).withSpan span).AllShaped := by
  have hparameter : (Node.parameter parameter).AllShaped :=
    allShaped_plain rfl rfl (by simpa using allShaped_identifier parameter)
  refine (allShaped_iff _).mpr ⟨⟨rfl, ?_⟩, fun c hc => ?_⟩
  · rintro _ _ ⟨⟩
    exact List.forall_mem_singleton.mpr (List.mem_singleton_self _)
  · obtain rfl | rfl : c = .parameter parameter ∨ c = t := by
      simpa [arrowFunction, withSpan, plain, children, Node.fields] using hc
    · exact hparameter
    · exact ht

def IsWritten (name : String) (x : Node) : Prop :=
  x.kind = .propertyAccessExpression ∧
    ∃ o, x.child? .expression = some o ∧ o.id? = none ∧ o.identifier? = some name

end Node

theorem TemplateParts.leads_of_mem {template : Node} {s : Node × String}
    (h : s ∈ (TemplateParts.ofTemplate template).substitutions) :
    ∃ span, template.Leads [⟨span, .expression⟩, ⟨template, .templateSpans⟩] s.1 := by
  unfold TemplateParts.ofTemplate at h
  split at h
  · obtain ⟨span, hspan, hs⟩ := List.mem_filterMap.mp h
    obtain ⟨e, he, rfl⟩ := Option.map_eq_some_iff.mp hs
    exact ⟨span, .down (.down .here (Node.mem_nodesAt_of_mem_list hspan))
      (Node.mem_nodesAt_of_child? he)⟩
  · simp at h

namespace FilePass

variable {p : FilePass} {name : String}

def Target (p : FilePass) (name : String) (x : Node) : Prop :=
  p.isUseSite x = true ∨ x.IsWritten name

theorem kind_of_target (x : Node) (h : p.Target name x) :
    x.kind = .taggedTemplateExpression ∨ x.kind = .propertyAccessExpression :=
  h.imp kind_of_isUseSite And.left

/-- What a run makes of a tree, as far as the ways to the accesses that it writes are concerned. -/
structure Remakes (p : FilePass) (name : String) (n n' : Node) : Prop where
  mirrors : n.Mirrors n'
  mark : n.kind.isInert = false → n'.mark = n.mark
  same : (∀ x ∈ n.preorder, p.isUseSite x = false) → n' = n
  holds : ∀ id, n'.Holds id → n.Holds id
  shaped : n.AllShaped → n'.AllShaped
  target : ∀ x ∈ n'.preorder, x.IsWritten name → ∃ y ∈ n.preorder, p.Target name y
  guarded : n.AllShaped → ∀ outer outer', Descent.Alike outer outer' →
    n.Guarded (p.Target name) name outer → n'.Guarded (Node.IsWritten name) name outer'

section

variable {n r : Node} {s s' : Progress} (hmodule : p.options.moduleFormat = .esModule)
  (hn : n.Templated) (hs : p.isUseSite n = true) (h : Pass.Yields (p.expandSite n) s r s')

include hmodule hn hs h

/-- A function around payloads takes the place of a use site. -/
theorem wraps_expandSite : ∃ (t : Node) (substitutions : List Node),
    r = (Node.arrowFunction [.parameter p.options.parameterName] t).withSpan n.span ∧
      t.Wraps p.options.factoryNamespace (substitutions.map p.compilation.payload) ∧
      ∀ e ∈ substitutions, ∃ d path, d.label = .expression ∧ n.Leads (d :: path) e := by
  obtain ⟨template, ht⟩ := exists_template hn hs
  obtain ⟨e, ids, he, rfl, -⟩ := expandSite_yields ht h
  refine ⟨e.tree, (TemplateParts.ofTemplate template).substitutions.map Prod.fst, ?_, ?_, ?_⟩
  · rw [assemble, hmodule]
  · rw [List.map_map]
    exact Compilation.wraps_expandTemplate he
  · intro e he
    obtain ⟨sub, hsub, rfl⟩ := List.mem_map.mp he
    obtain ⟨span, hleads⟩ := TemplateParts.leads_of_mem hsub
    exact ⟨_, _, rfl, (Node.Leads.here.down (Node.mem_nodesAt_of_child? ht)).trans hleads⟩

theorem allShaped_expandSite (hshaped : n.AllShaped) : r.AllShaped := by
  obtain ⟨t, substitutions, rfl, hwraps, hleads⟩ := wraps_expandSite hmodule hn hs h
  refine Node.allShaped_arrowFunction (hwraps.allShaped fun hole hhole => ?_)
  obtain ⟨e, he, rfl⟩ := List.mem_map.mp hhole
  obtain ⟨d, path, -, hp⟩ := hleads e he
  exact Node.allShaped_call (hshaped.of_mem_preorder hp.mem_preorder)
    (List.forall_mem_singleton.mpr (Node.allShaped_identifier _))

theorem holds_expandSite {id : Nat} (hr : r.Holds id) : n.Holds id := by
  obtain ⟨t, substitutions, rfl, hwraps, hleads⟩ := wraps_expandSite hmodule hn hs h
  obtain hid | ⟨c, hc, hpart⟩ := (Node.holds_iff _ id).mp hr
  · cases hid
  obtain rfl | rfl : c = .parameter p.options.parameterName ∨ c = t := by
    simpa [Node.arrowFunction, Node.withSpan, Node.plain, Node.children, Node.fields] using hc
  · simp [Node.parameter, Node.holds_plain, Node.not_holds_identifier] at hpart
  obtain ⟨hole, hhole, hpart⟩ := hwraps.exists_hole hpart
  obtain ⟨e, he, rfl⟩ := List.mem_map.mp hhole
  obtain ⟨d, path, -, hp⟩ := hleads e he
  have he : e.Holds id := by
    simpa [Compilation.payload, Node.call, Node.holds_plain, Node.not_holds_identifier] using hpart
  exact he.of_leads hp

theorem guarded_expandSite {outer : List Descent} (hp : p.options.parameterName ≠ name)
    (hg : n.Guarded (p.Target name) name outer) : r.Guarded (p.Target name) name outer := by
  obtain ⟨t, substitutions, rfl, hwraps, hleads⟩ := wraps_expandSite hmodule hn hs h
  refine Node.guarded_arrowFunction kind_of_target hp (hwraps.kind_ne_block ?_)
    fun outer' houter' => hwraps.guarded kind_of_target (fun hole hhole outer'' houter'' => ?_)
      houter'
  · intro hole hhole
    obtain ⟨e, -, rfl⟩ := List.mem_map.mp hhole
    simp [Compilation.payload, Node.call, Node.plain, Node.kind]
  · obtain ⟨e, he, rfl⟩ := List.mem_map.mp hhole
    obtain ⟨d, path, hd, hpath⟩ := hleads e he
    refine Node.guarded_call ((hg.of_leads hpath).of_alike ?_)
      (List.forall_mem_singleton.mpr ?_) houter''
    · exact Descent.alike_of_label (by simp [hd]) (by simp)
    · exact Node.guarded_of_none (Node.not_wanted_identifier kind_of_target _)

end

/-- The step at a node that is no use site. -/
theorem remakes_keep {n n' : Node} (hk : n.Keeps (p.Remakes name) n') (hmark : n'.mark = n.mark) :
    p.Remakes name n n' := by
  have hmirrors : n.Keeps Node.Mirrors n' := hk.imp fun _ _ h => h.mirrors
  refine ⟨hmirrors.mirrors, fun _ => hmark, fun hsites => ?_, fun id hid => ?_, fun hs => ?_, ?_,
    fun hs outer outer' ho hg => ?_⟩
  · refine (hk.imp_of_mem fun c hc d hcd => (hcd.same fun x hx => ?_).symm).eq_of_mark hmark
    have hsub := Node.preorder_sublist_of_mem_preorder (Node.mem_preorder_of_mem_children hc)
    exact hsites x (hsub.subset hx)
  · refine (n.holds_iff id).mpr (((n'.holds_iff id).mp hid).imp (fun h => ?_) ?_)
    · exact (congrArg Mark.id hmark).symm.trans h
    · rintro ⟨c', hc', h⟩
      obtain ⟨c, hc, hcc⟩ := hk.swap.mem_children hc'
      exact ⟨c, hc, hcc.holds id h⟩
  · refine (Node.allShaped_iff n').mpr ⟨⟨?_, fun l kinds hrule c' hc' => ?_⟩, fun c' hc' => ?_⟩
    · rw [← hk.kind, ← checkFields_congr n.kind hk.forms]
      exact hs.shaped.fields
    · rw [← hk.kind] at hrule
      obtain ⟨c, hc, hcc⟩ := hk.swap.mem_nodesAt hc'
      have hkind := hs.shaped.children l kinds hrule c hc
      exact hcc.mirrors.kind_eq (Kind.isInert_of_childRule? hrule hkind) ▸ hkind
    · obtain ⟨c, hc, hcc⟩ := hk.swap.mem_children hc'
      exact hcc.shaped (hs.of_mem_children hc)
  · intro x hx hw
    rw [Node.preorder_eq, List.mem_cons, List.mem_flatMap] at hx
    obtain rfl | ⟨c', hc', hx⟩ := hx
    · obtain ⟨hxk, o', ho', hid, hname⟩ := hw
      obtain ⟨o, ho, hoo⟩ := hk.swap.child? ho'
      have hoo : p.Remakes name o o' := hoo
      have hname' := hoo.mirrors.symm.identifier? hname
      have hkind := Node.kind_of_identifier? hname'
      have hmark' := hoo.mark (by simp [hkind, Kind.isInert])
      refine ⟨n, n.self_mem_preorder, .inr ⟨hk.kind.trans hxk, o, ho, ?_, hname'⟩⟩
      exact (congrArg Mark.id hmark'.symm).trans hid
    · obtain ⟨c, hc, hcc⟩ := hk.swap.mem_children hc'
      obtain ⟨y, hy, hT⟩ := hcc.target x hx hw
      have hsub := Node.preorder_sublist_of_mem_preorder (Node.mem_preorder_of_mem_children hc)
      exact ⟨y, hsub.subset hy, hT⟩
  · refine Node.guarded_of_parts (fun l c' hc' => ?_) fun l c' hc' hwritten => ?_
    all_goals
      obtain ⟨c, hc, hcc⟩ := hk.swap.mem_nodesAt hc'
      have hcn := hs.of_mem_children (Node.mem_children_of_mem_nodesAt hc)
    · refine hcc.guarded hcn _ _ ⟨by simp, ?_⟩ (hg.of_leads (Node.Leads.here.down hc))
      simp [Descent.ReachesBody, hk.kind]
    · obtain ⟨x, hx, hw⟩ := hwritten
      obtain ⟨y, hy, hT⟩ := hcc.target x hx hw
      obtain ⟨⟨href, hdeclares⟩, -⟩ := hg.clear_step hc hcn hy hT
      refine ⟨⟨?_, fun h => hdeclares (h.of_keeps hmirrors.symm ho.symm)⟩, trivial⟩
      rwa [Descent.isReference, ← hk.kind]

/-- A run puts no scope that declares a name around the accesses to that name that it writes, if
none stands around a use site. -/
theorem remakes_expandAll {n n' : Node} {s s' : Progress}
    (hmodule : p.options.moduleFormat = .esModule) (hp : p.options.parameterName ≠ name)
    (hn : n.Templated) (h : Pass.Yields (p.expandAll n) s n' s') : p.Remakes name n n' := by
  refine expandAll_induction ?_ (fun _ hk hmark => remakes_keep hk hmark) hn h
  intro n r n' s s' hn hs hr hremakes
  have hinert : n.kind.isInert = true := by simp [kind_of_isUseSite hs, Kind.isInert]
  refine ⟨mirrors_of_expandSite hn hs hr hremakes.mirrors, fun hk => ?_, fun hsites => ?_,
    fun id hid => holds_expandSite hmodule hn hs hr (hremakes.holds id hid), fun hshaped => ?_,
    fun _ _ _ => ⟨n, n.self_mem_preorder, .inl hs⟩, fun hshaped outer outer' ho hg => ?_⟩
  · rw [hinert] at hk
    cases hk
  · have hno := hsites n n.self_mem_preorder
    rw [hs] at hno
    cases hno
  · exact hremakes.shaped (allShaped_expandSite hmodule hn hs hr hshaped)
  · exact hremakes.guarded (allShaped_expandSite hmodule hn hs hr hshaped) outer outer' ho
      (guarded_expandSite hmodule hn hs hr hp hg)

end FilePass

end Quasiquote
