import Quasiquote.Proofs.FactoryImport
import Quasiquote.Proofs.Rewriting
import Quasiquote.Proofs.Tracing

namespace Quasiquote

structure Descent.IsQuiet (d : Descent) : Prop where
  module : d.node.kind ≠ .sourceFile
  block : d.node.kind ≠ .block
  function : d.node.kind.isFunctionLike = false
  reference : d.isReference = true

theorem Descent.IsQuiet.ownBindings {d : Descent} (h : d.IsQuiet) : d.node.ownBindings = [] := by
  simp [Node.ownBindings, h.module, h.block, h.function]

theorem Descent.clear_of_isQuiet {name : String} {way outer : List Descent}
    (h : ∀ d ∈ way, d.IsQuiet) (houter : outer ≠ []) : Clear name outer way := by
  induction way with
  | nil => trivial
  | cons d way ih =>
    obtain ⟨hd, hrest⟩ := List.forall_mem_cons.mp h
    exact ⟨⟨hd.reference, not_declares_of_kind hd.block hd.function (by simp [houter])⟩, ih hrest⟩

theorem Descent.isQuiet_of_expression {n : Node} {i : Nat}
    (h : n.kind.fieldIndex? .expression = some i) : (Descent.mk n .expression).IsQuiet := by
  have hquiet : ∀ k : Kind, k.fieldIndex? .expression = some i →
      k ≠ .sourceFile ∧ k ≠ .block ∧ k.isFunctionLike = false ∧ k.refersIn .expression = true := by
    intro k hk
    cases k <;> first | exact ⟨by decide, by decide, rfl, rfl⟩ | cases hk
  obtain ⟨hm, hb, hf, href⟩ := hquiet n.kind h
  exact ⟨hm, hb, hf, href⟩

theorem Descent.isQuiet_of_templateSpans {n : Node} {i : Nat}
    (h : n.kind.fieldIndex? .templateSpans = some i) : (Descent.mk n .templateSpans).IsQuiet := by
  have hquiet : ∀ k : Kind, k.fieldIndex? .templateSpans = some i → k ≠ .sourceFile ∧ k ≠ .block ∧
      k.isFunctionLike = false ∧ k.refersIn .templateSpans = true := by
    intro k hk
    cases k <;> first | exact ⟨by decide, by decide, rfl, rfl⟩ | cases hk
  obtain ⟨hm, hb, hf, href⟩ := hquiet n.kind h
  exact ⟨hm, hb, hf, href⟩

theorem Node.fieldIndex?_of_mem_nodesAt {n c : Node} {l : Label} (h : c ∈ n.nodesAt l) :
    ∃ i, n.kind.fieldIndex? l = some i := by
  obtain ⟨f, hf, -⟩ := mem_nodesAt_iff.mp h
  obtain ⟨i, hi, -⟩ := Option.bind_eq_some_iff.mp hf
  exact ⟨i, hi⟩

theorem exists_append_of_forall₂ {α β : Type} {R : α → β → Prop} {as bs : List α} {zs : List β}
    (h : List.Forall₂ R (as ++ bs) zs) :
    ∃ xs ys, zs = xs ++ ys ∧ List.Forall₂ R as xs ∧ List.Forall₂ R bs ys := by
  refine ⟨_, _, (List.take_append_drop as.length zs).symm, ?_, ?_⟩
  · exact (List.forall₂_take_append zs as bs h.flip).flip
  · exact (List.forall₂_drop_append zs as bs h.flip).flip

theorem Field.Rel.comp {R S : Node → Node → Prop} {f g k : Field} (h : Field.Rel R f g)
    (h' : Field.Rel S g k) : Field.Rel (Relation.Comp R S) f k := by
  cases h with
  | node h =>
    cases h' with
    | node h' => exact .node ⟨_, h, h'⟩
  | list h =>
    cases h' with
    | list h' => exact .list (forall₂_comp h h')
  | text s =>
    cases h'
    exact .text s
  | flag b =>
    cases h'
    exact .flag b
  | absent =>
    cases h'
    exact .absent

theorem Node.Keeps.comp {R S : Node → Node → Prop} {n m k : Node} (h : n.Keeps R m)
    (h' : m.Keeps S k) : n.Keeps (Relation.Comp R S) k :=
  ⟨h.kind.trans h'.kind, (forall₂_comp h.fields h'.fields).imp fun _ _ ⟨_, hf, hf'⟩ => hf.comp hf'⟩

/-- A tree with its nodes numbered, the identities that were there below a bound and the new ones from
it on. -/
def Node.Renumbers (bound : Nat) (n m : Node) : Prop :=
  KeysBelow bound [n] ∧ n.Numbers bound m

theorem Node.isSimulation_renumbers (bound : Nat) : IsSimulation (Renumbers bound) := by
  intro n m h
  refine (isSimulation_numbers bound n m h.2).imp_of_mem fun c hc d hcd => ⟨fun x hx => ?_, hcd⟩
  refine h.1 x ?_
  rw [List.flatMap_singleton] at hx ⊢
  exact (preorder_sublist_of_mem_preorder (mem_preorder_of_mem_children hc)).subset hx

/-- An identity is below the bound if and only if it was there. -/
theorem Node.Renumbers.key_lt_iff {bound : Nat} {n m : Node} (h : n.Renumbers bound m) :
    m.key < bound ↔ n.id?.isSome = true := by
  cases hid : n.id? with
  | none =>
    have hle := h.2.le_key_of_none hid
    simpa using hle
  | some id =>
    have hlt := h.1 n (by simp [n.self_mem_preorder]) id hid
    rw [key, id?, h.2.mark_of_some (by simp [hid]), ← id?, hid]
    simpa using hlt

namespace Node

variable {ns : String} {holes : List Node} {n t x : Node} {path : List Descent}

theorem not_leads_of_not_holds (h : ∀ id, ¬n.Holds id) (hp : n.Leads path x) : x.id? = none := by
  cases hid : x.id? with
  | none => rfl
  | some id => exact absurd ⟨x, hp.mem_preorder, hid⟩ (h id)

theorem leads_call {callee : Node} {arguments : List Node}
    (hp : (call callee arguments).Leads path x) (hid : x.id?.isSome = true) :
    ∃ inner l c, path = inner ++ [⟨call callee arguments, l⟩] ∧ c.Leads inner x ∧
      ((l = .expression ∧ c = callee) ∨ (l = .arguments ∧ c ∈ arguments)) := by
  obtain ⟨rfl, rfl⟩ | ⟨l, c, inner, hc, hinner, rfl⟩ := hp.cases_first
  · cases hid
  refine ⟨inner, l, c, rfl, hinner, ?_⟩
  obtain ⟨shape, hschema⟩ := label_mem_schema hc
  simp only [call, plain, Node.kind, Kind.schema, List.mem_cons, Prod.mk.injEq,
    List.not_mem_nil, or_false] at hschema
  obtain ⟨rfl, -⟩ | ⟨rfl, -⟩ | ⟨rfl, -⟩ := hschema
  · exact .inl ⟨rfl, List.mem_singleton.mp hc⟩
  · exact absurd (show c ∈ ([] : List Node) from hc) (by simp)
  · exact .inr ⟨rfl, hc⟩

theorem isQuiet_call (callee : Node) (arguments : List Node) {l : Label}
    (hl : l = .expression ∨ l = .arguments) :
    (Descent.mk (call callee arguments) l).IsQuiet := by
  refine ⟨?_, ?_, rfl, ?_⟩
  · simp [call, plain, Node.kind]
  · simp [call, plain, Node.kind]
  · obtain rfl | rfl := hl <;> rfl

/-- To a node with an identity in a generated expression leads a way through one of the holes. -/
theorem Wraps.leads (h : t.Wraps ns holes) (hp : t.Leads path x) (hid : x.id?.isSome = true) :
    ∃ hole ∈ holes, ∃ inner way, path = inner ++ way ∧ hole.Leads inner x ∧
      ∀ d ∈ way, d.node.id? = none ∧ d.IsQuiet := by
  induction h generalizing path with
  | hole h => exact ⟨_, h, path, [], by simp, hp, by simp⟩
  | text s =>
    have hnone := not_leads_of_not_holds (by simp [stringLiteral, holds_plain]) hp
    simp [hnone] at hid
  | boolean b =>
    have hnone := not_leads_of_not_holds (by simp [Node.boolean, holds_plain]) hp
    simp [hnone] at hid
  | name s =>
    have hnone := not_leads_of_not_holds (not_holds_identifier s) hp
    simp [hnone] at hid
  | @array elements _ ih =>
    obtain ⟨rfl, rfl⟩ | ⟨l, c, inner, hc, hinner, rfl⟩ := hp.cases_first
    · cases hid
    obtain ⟨shape, hschema⟩ := label_mem_schema hc
    obtain ⟨rfl, -⟩ : l = .elements ∧ shape = .list := by
      simpa [Node.array, plain, Node.kind, Kind.schema] using hschema
    obtain ⟨hole, hhole, inner, way, rfl, hleads, hway⟩ := ih c hc hinner
    refine ⟨hole, hhole, inner, way ++ [_], (List.append_assoc _ _ _), hleads,
      List.forall_mem_append.mpr ⟨hway, List.forall_mem_singleton.mpr ⟨rfl, ?_, ?_, rfl, rfl⟩⟩⟩
    · simp [Node.array, plain, Node.kind]
    · simp [Node.array, plain, Node.kind]
  | factoryCall _ ih =>
    obtain ⟨inner, l, c, rfl, hinner, ⟨rfl, rfl⟩ | ⟨rfl, hc⟩⟩ := leads_call hp hid
    · have hnone := not_leads_of_not_holds
        (by simp [propertyAccess, holds_plain, not_holds_identifier]) hinner
      simp [hnone] at hid
    obtain ⟨hole, hhole, inner, way, rfl, hleads, hway⟩ := ih c hc hinner
    exact ⟨hole, hhole, inner, way ++ [_], (List.append_assoc _ _ _), hleads,
      List.forall_mem_append.mpr ⟨hway, List.forall_mem_singleton.mpr
        ⟨rfl, isQuiet_call _ _ (.inr rfl)⟩⟩⟩

end Node

namespace FilePass

variable {p : FilePass} {name : String}

def Binds (p : FilePass) (name : String) : Prop :=
  name = p.options.parameterName ∨
    (p.options.moduleFormat = .commonJs ∧ name = p.options.factoryNamespace)

/-- A way through nodes that the expansion made, from a function in the place of a template to what
became of a substitution. -/
structure Generated (p : FilePass) (fresh : Node → Prop) (way : List Descent) : Prop where
  label : ∃ d rest, way = d :: rest ∧ d.label = .expression
  nodes : ∀ d ∈ way, fresh d.node
  reference : ∀ d ∈ way, d.isReference = true
  bindings : ∀ d ∈ way, ∀ b ∈ d.node.ownBindings, fresh b.declaration
  clear : ∀ name outer, outer ≠ [] → (Descent.Clear name outer way ↔ ¬p.Binds name)

structure Dropped (p : FilePass) (way : List Descent) : Prop where
  label : ∃ d rest, way = d :: rest ∧ d.label = .expression
  quiet : ∀ d ∈ way, d.IsQuiet
  site : ∃ d ∈ way, p.isUseSite d.node = true

section

variable {t x : Node} {span : Option Span} {path outer : List Descent}

theorem ofVars_constStatement (constant : String) (e : Node) :
    Binding.ofVars (.constStatement constant e) = [] := by
  rw [Binding.ofVars]
  rfl

theorem ofVars_returnStatement (e : Option Node) : Binding.ofVars (.returnStatement e) = [] := by
  rw [Binding.ofVars]
  rfl

theorem eq_of_introduces_const {constant : String} {e : Node}
    (h : (Node.constStatement constant e).Introduces name ∨
      (Node.constStatement constant e).HoistsVar name) : name = constant := by
  rw [← Binding.names_ofStatement_iff, ← Binding.names_ofVars_iff, ofVars_constStatement] at h
  obtain ⟨b, hb, rfl⟩ | ⟨b, hb, -⟩ := h
  · obtain rfl : b = _ := List.mem_singleton.mp hb
    rfl
  · cases hb

theorem not_introduces_return {e : Option Node} :
    ¬((Node.returnStatement e).Introduces name ∨ (Node.returnStatement e).HoistsVar name) := by
  rw [← Binding.names_ofStatement_iff, ← Binding.names_ofVars_iff, ofVars_returnStatement]
  rintro (⟨b, hb, -⟩ | ⟨b, hb, -⟩) <;> cases hb

/-- The function declares its parameter and, in its body, the namespace that it requires. -/
theorem binds_of_declares (ht : t.kind ≠ .block)
    (h : Descent.Declares name ⟨(p.assemble t).withSpan span, .body⟩ outer) : p.Binds name := by
  unfold assemble at h
  cases h with
  | module hk => cases hk
  | ownName hk => cases hk
  | parameter _ hq h =>
    obtain rfl := List.mem_singleton.mp hq
    obtain ⟨id, hid, hname⟩ := h
    obtain rfl : .identifier p.options.parameterName = id := Option.some.inj hid
    exact .inl (Option.some.inj hname).symm
  | body _ hb hbk hs h =>
    obtain rfl := Option.some.inj hb
    cases hformat : p.options.moduleFormat with
    | esModule =>
      rw [hformat] at hbk
      exact absurd hbk ht
    | commonJs =>
      rw [hformat] at hs
      obtain rfl | rfl : _ ∨ _ := by simpa using (show _ ∈ [_, _] from hs)
      · exact .inr ⟨hformat, eq_of_introduces_const h⟩
      · exact absurd h not_introduces_return
  | block hk => cases hk

theorem declares_of_binds (h : p.Binds name) :
    Descent.Declares name ⟨(p.assemble t).withSpan span, .body⟩ outer := by
  obtain rfl | ⟨hformat, rfl⟩ := h
  · exact .parameter rfl (List.mem_singleton_self _) ⟨_, rfl, rfl⟩
  · unfold assemble
    rw [hformat]
    refine .body rfl rfl rfl List.mem_cons_self (.inl ?_)
    rw [← Binding.names_ofStatement_iff]
    exact ⟨_, List.mem_singleton_self _, rfl⟩

theorem mem_hoistedInFunction_of_block {ss : List Node} {b : Binding}
    (hb : b ∈ Binding.hoistedInBlock ss) : b ∈ Binding.hoistedInFunction ss := by
  obtain ⟨s, hs, hb⟩ := List.mem_flatMap.mp hb
  exact List.mem_flatMap.mpr ⟨s, hs, List.mem_append_left _ hb⟩

/-- A body that requires the factories declares what is made with it. -/
theorem fresh_requires {constant : String} {e : Node} {b : Binding}
    (hb : b ∈ Binding.hoistedInFunction
      [.constStatement constant e, .returnStatement (some t)]) : b.declaration.id? = none := by
  simp only [Binding.hoistedInFunction, List.flatMap_cons, List.flatMap_nil, ofVars_constStatement,
    ofVars_returnStatement, List.append_nil] at hb
  obtain rfl : b = _ := List.mem_singleton.mp hb
  rfl

/-- What the function declares is made with it. -/
theorem fresh_assemble (ht : t.kind ≠ .block) :
    ∀ b ∈ ((p.assemble t).withSpan span).ownBindings, b.declaration.id? = none := by
  intro b hb
  rw [Node.ownBindings_function rfl, List.mem_append] at hb
  obtain hb | hb := hb
  · obtain rfl : b = _ := List.mem_singleton.mp hb
    rfl
  · unfold assemble at hb
    cases hformat : p.options.moduleFormat with
    | esModule =>
      rw [hformat] at hb
      have hnone : ((Node.arrowFunction [.parameter p.options.parameterName] t).withSpan
          span).bodyDeclared = [] := if_neg ht
      simp [hnone] at hb
    | commonJs =>
      rw [hformat] at hb
      exact fresh_requires hb

theorem leads_returnStatement (hp : (Node.returnStatement (some t)).Leads path x)
    (hid : x.id?.isSome = true) :
    ∃ inner, path = inner ++ [⟨.returnStatement (some t), .expression⟩] ∧ t.Leads inner x := by
  obtain ⟨rfl, rfl⟩ | ⟨l, e, inner, he, hinner, rfl⟩ := hp.cases_first
  · cases hid
  obtain ⟨shape, hschema⟩ := Node.label_mem_schema he
  obtain ⟨rfl, -⟩ : l = .expression ∧ shape = .optional := by
    simpa [Node.returnStatement, Node.plain, Node.kind, Kind.schema] using hschema
  obtain rfl : e = t := List.mem_singleton.mp he
  exact ⟨inner, rfl, hinner⟩

/-- In a block of a declaration and a return, identities are in what is returned. -/
theorem leads_block {s : Node} (hs : ∀ id, ¬s.Holds id)
    (hp : (Node.block [s, .returnStatement (some t)]).Leads path x) (hid : x.id?.isSome = true) :
    ∃ inner, path = inner ++ [⟨.returnStatement (some t), .expression⟩,
      ⟨.block [s, .returnStatement (some t)], .statements⟩] ∧ t.Leads inner x := by
  obtain ⟨rfl, rfl⟩ | ⟨l, c, inner, hc, hinner, rfl⟩ := hp.cases_first
  · cases hid
  obtain ⟨shape, hschema⟩ := Node.label_mem_schema hc
  obtain ⟨rfl, -⟩ : l = .statements ∧ shape = .list := by
    simpa [Node.block, Node.plain, Node.kind, Kind.schema] using hschema
  obtain rfl | rfl : c = s ∨ c = .returnStatement (some t) := by
    simpa using (show c ∈ [_, _] from hc)
  · have hnone := Node.not_leads_of_not_holds hs hinner
    simp [hnone] at hid
  · obtain ⟨inner, rfl, hleads⟩ := leads_returnStatement hinner hid
    exact ⟨inner, List.append_assoc _ _ _, hleads⟩

/-- To a node with an identity in the function leads a way through the generated expression. -/
theorem leads_assemble (ht : t.kind ≠ .block)
    (hp : ((p.assemble t).withSpan span).Leads path x) (hid : x.id?.isSome = true) :
    ∃ inner way, path = inner ++ way ∧ t.Leads inner x ∧
      (∀ d ∈ way, d.node.id? = none ∧ d.isReference = true ∧
        ∀ b ∈ d.node.ownBindings, b.declaration.id? = none) ∧
      ∀ name outer, outer ≠ [] → (Descent.Clear name outer way ↔ ¬p.Binds name) := by
  have hbody : ∀ name outer,
      Descent.Clear name outer [⟨(p.assemble t).withSpan span, .body⟩] ↔ ¬p.Binds name :=
    fun name outer => ⟨fun h hname => h.1.2 (declares_of_binds hname),
      fun hname => ⟨⟨rfl, fun h => hname (binds_of_declares ht h)⟩, trivial⟩⟩
  obtain ⟨rfl, rfl⟩ | ⟨l, c, inner, hc, hinner, rfl⟩ := hp.cases_first
  · cases hid
  obtain ⟨rfl, rfl⟩ | ⟨rfl, hct⟩ := Node.cases_nodesAt_arrowFunction hc
  · have hnone := Node.not_leads_of_not_holds
      (by simp [Node.parameter, Node.holds_plain, Node.not_holds_identifier]) hinner
    simp [hnone] at hid
  cases hformat : p.options.moduleFormat with
  | esModule =>
    obtain rfl : c = t := by simpa [hformat] using hct
    exact ⟨inner, [_], rfl, hinner, List.forall_mem_singleton.mpr ⟨rfl, rfl, fresh_assemble ht⟩,
      fun name outer _ => hbody name outer⟩
  | commonJs =>
    simp only [hformat] at hct
    obtain ⟨inner, rfl, hleads⟩ := leads_block (by simp [Node.constStatement, Node.call,
      Node.identifier, Node.stringLiteral, Node.holds_plain]) (hct ▸ hinner) hid
    refine ⟨inner, _ :: _ :: [_], List.append_assoc _ _ _, hleads, ?_,
      fun name outer houter => ⟨fun h => (hbody name outer).mp h.2.2, fun hname => ?_⟩⟩
    · simp only [List.forall_mem_cons]
      refine ⟨⟨rfl, rfl, fun b hb => ?_⟩, ⟨rfl, rfl, fun b hb => ?_⟩, ⟨rfl, rfl, fresh_assemble ht⟩,
        by simp⟩
      · cases hb
      · exact fresh_requires (mem_hoistedInFunction_of_block hb)
    refine ⟨⟨rfl, ?_⟩, ⟨rfl, ?_⟩, (hbody name outer).mpr hname⟩
    · exact Descent.not_declares_of_kind (by simp [Node.returnStatement, Node.plain, Node.kind])
        rfl (by simp)
    · exact Descent.not_declares_of_reachesBody rfl ⟨_, rfl, rfl, rfl⟩

/-- To a node with an identity in what replaces a use site leads a way through one of the parts. -/
theorem leads_site {parts : List Node} (ht : t.Wraps p.options.factoryNamespace
      (parts.map p.compilation.payload))
    (hp : ((p.assemble t).withSpan span).Leads path x) (hid : x.id?.isSome = true) :
    ∃ e ∈ parts, ∃ inner way, path = inner ++ way ∧ e.Leads inner x ∧
      p.Generated (fun n => n.id? = none) way := by
  have hblock : t.kind ≠ .block := by
    refine ht.kind_ne_block fun hole hhole => ?_
    obtain ⟨e, -, rfl⟩ := List.mem_map.mp hhole
    simp [Compilation.payload, Node.call, Node.plain, Node.kind]
  obtain ⟨_, way, rfl, hbody, hway, hclear⟩ := leads_assemble hblock hp hid
  obtain ⟨hole, hhole, _, quiet, rfl, hpayload, hquiet⟩ := ht.leads hbody hid
  obtain ⟨e, he, rfl⟩ := List.mem_map.mp hhole
  obtain ⟨inner, l, c, rfl, hinner, ⟨rfl, rfl⟩ | ⟨rfl, hc⟩⟩ := Node.leads_call hpayload hid
  · refine ⟨c, he, inner, ⟨p.compilation.payload c, .expression⟩ :: (quiet ++ way),
      by simp [Compilation.payload], hinner, ⟨⟨_, _, rfl, rfl⟩, ?_, ?_, ?_, ?_⟩⟩
    · refine List.forall_mem_cons.mpr ⟨rfl, List.forall_mem_append.mpr ⟨?_, ?_⟩⟩
      · exact fun d hd => (hquiet d hd).1
      · exact fun d hd => (hway d hd).1
    · refine List.forall_mem_cons.mpr ⟨rfl, List.forall_mem_append.mpr ⟨?_, ?_⟩⟩
      · exact fun d hd => (hquiet d hd).2.reference
      · exact fun d hd => (hway d hd).2.1
    · refine List.forall_mem_cons.mpr ⟨fun b hb => ?_, List.forall_mem_append.mpr ⟨?_, ?_⟩⟩
      · cases hb
      · intro d hd b hb
        rw [(hquiet d hd).2.ownBindings] at hb
        cases hb
      · exact fun d hd => (hway d hd).2.2
    · intro name outer houter
      rw [← List.cons_append, Descent.clear_append, hclear name outer houter]
      refine and_iff_right (Descent.clear_of_isQuiet ?_ (by simp [houter]))
      exact List.forall_mem_cons.mpr
        ⟨Node.isQuiet_call _ _ (.inl rfl), fun d hd => (hquiet d hd).2⟩
  · obtain rfl := List.mem_singleton.mp hc
    have hnone := Node.not_leads_of_not_holds (Node.not_holds_identifier _) hinner
    simp [hnone] at hid

end

theorem exists_dropped {site e : Node} (hs : p.isUseSite site = true) (he : e ∈ site.substitutions) :
    ∃ way, site.Leads way e ∧ p.Dropped way := by
  unfold Node.substitutions at he
  cases ht : site.child? .template with
  | none => simp [ht] at he
  | some template =>
    simp only [ht] at he
    obtain ⟨s, hsub, rfl⟩ := List.mem_map.mp he
    obtain ⟨span, hleads⟩ := TemplateParts.leads_of_mem hsub
    have hway := (Node.Leads.here.down (Node.mem_nodesAt_of_child? ht)).trans hleads
    refine ⟨_, hway, ⟨⟨_, _, rfl, rfl⟩, ?_, ⟨⟨site, .template⟩, by simp, hs⟩⟩⟩
    obtain ⟨hspan, hexpression⟩ : span ∈ template.nodesAt .templateSpans ∧
        s.1 ∈ span.nodesAt .expression := by
      cases hleads with
      | down h he =>
        cases h with
        | down h hspan =>
          cases h
          exact ⟨hspan, he⟩
    obtain ⟨_, hspan⟩ := Node.fieldIndex?_of_mem_nodesAt hspan
    obtain ⟨_, hexpression⟩ := Node.fieldIndex?_of_mem_nodesAt hexpression
    have hkind := kind_of_isUseSite hs
    simp only [List.cons_append, List.nil_append, List.forall_mem_cons]
    refine ⟨Descent.isQuiet_of_expression hexpression, Descent.isQuiet_of_templateSpans hspan, ?_,
      nofun⟩
    exact ⟨by simp [hkind], by simp [hkind], by simp [hkind, Kind.isFunctionLike],
      by simp [Descent.isReference, hkind, Kind.refersIn]⟩

/-- A way in a tree and the way to the same node in what became of it: descents from related nodes,
and generated ones in the place of those through a use site. -/
inductive Carries (p : FilePass) (R : Node → Node → Prop) (fresh : Node → Prop) :
    List Descent → List Descent → Prop
  | nil : Carries p R fresh [] []
  | keep {n m : Node} {l : Label} {path path' : List Descent} (hs : p.isUseSite n = false)
    (h : R n m) (hpath : Carries p R fresh path path') :
    Carries p R fresh (⟨n, l⟩ :: path) (⟨m, l⟩ :: path')
  | leap {dropped way path path' : List Descent} (hdropped : p.Dropped dropped)
    (hway : p.Generated fresh way) (hpath : Carries p R fresh path path') :
    Carries p R fresh (dropped ++ path) (way ++ path')

namespace Carries

variable {R : Node → Node → Prop} {fresh : Node → Prop} {path path' outer outer' : List Descent}

theorem append {rest rest' : List Descent} (h : p.Carries R fresh path path')
    (h' : p.Carries R fresh rest rest') : p.Carries R fresh (path ++ rest) (path' ++ rest') := by
  induction h with
  | nil => exact h'
  | keep hs h _ ih => exact .keep hs h ih
  | leap hdropped hway _ ih =>
    rw [List.append_assoc, List.append_assoc]
    exact .leap hdropped hway ih

end Carries

/-- To a node with an identity in what became of a tree leads the way that led to it. -/
theorem Rewrites.carries {n n' : Node} (h : p.Rewrites n n') {path' : List Descent} {x' : Node}
    (hp : n'.Leads path' x') (hid : x'.id?.isSome = true) :
    ∃ path x, n.Leads path x ∧ p.isUseSite x = false ∧ p.Rewrites x x' ∧
      p.Carries p.Rewrites (fun m => m.id? = none) path path' := by
  refine (induct (R := fun n n' => p.Rewrites n n' ∧ ∀ ⦃path'⦄, n'.Leads path' x' →
    ∃ path x, n.Leads path x ∧ p.isUseSite x = false ∧ p.Rewrites x x' ∧
      p.Carries p.Rewrites (fun m => m.id? = none) path path') ?_ ?_ h).2 hp
  · intro n n' hs hkeeps hmark
    have hrewrites := rewrites_of_keeps hs (hkeeps.imp fun _ _ => And.left) hmark
    refine ⟨hrewrites, fun path' hp => ?_⟩
    obtain ⟨rfl, rfl⟩ | ⟨l, c', inner', hc', hinner', rfl⟩ := hp.cases_first
    · exact ⟨[], n, .here, hs, hrewrites, .nil⟩
    obtain ⟨c, hc, -, hcc⟩ := hkeeps.swap.mem_nodesAt hc'
    obtain ⟨inner, x, hinner, hx, hxx, hcarries⟩ := hcc hinner'
    exact ⟨_, x, hinner.up hc, hx, hxx, hcarries.append (.keep hs hrewrites .nil)⟩
  · intro n body parts hs hparts h hbody
    refine ⟨.site hs hparts (fun q hq => (h q hq).1) hbody, fun path' hp => ?_⟩
    have hwraps : body.Wraps p.options.factoryNamespace
        ((parts.map Prod.snd).map p.compilation.payload) := by
      rwa [List.map_map]
    obtain ⟨_, he, inner', way, rfl, hinner', hway⟩ := leads_site hwraps hp hid
    obtain ⟨q, hq, rfl⟩ := List.mem_map.mp he
    obtain ⟨inner, x, hinner, hx, hxx, hcarries⟩ := (h q hq).2 hinner'
    obtain ⟨dropped, hleads, hdropped⟩ := exists_dropped hs (hparts q hq)
    refine ⟨_, x, hleads.trans hinner, hx, hxx, hcarries.append ?_⟩
    rw [← List.append_nil dropped, ← List.append_nil way]
    exact .leap hdropped hway .nil

structure Becomes (p : FilePass) (bound : Nat) (n m : Node) : Prop where
  known : ∀ x ∈ n.preorder, x.id?.isSome = true
  rewritten : ∃ n', p.Rewrites n n' ∧ n'.Renumbers bound m

theorem Generated.numbered {bound : Nat} {way way' : List Descent}
    (h : p.Generated (fun m => m.id? = none) way)
    (hrel : List.Forall₂ (Descent.Rel (Node.Renumbers bound)) way way') :
    p.Generated (fun y => bound ≤ y.key) way' := by
  have hsim := Node.isSimulation_renumbers bound
  refine ⟨?_, fun d' hd' => ?_, fun d' hd' => ?_, fun d' hd' b' hb' => ?_,
    fun name outer houter => ?_⟩
  · obtain ⟨d, rest, rfl, hl⟩ := h.label
    obtain ⟨d', rest', hd, -, rfl⟩ := List.forall₂_cons_left_iff.mp hrel
    exact ⟨d', rest', rfl, hd.2.symm.trans hl⟩
  · obtain ⟨d, hd, hdd⟩ := exists_of_mem_forall₂ hrel.flip hd'
    exact hdd.1.2.le_key_of_none (h.nodes d hd)
  · obtain ⟨d, hd, hdd⟩ := exists_of_mem_forall₂ hrel.flip hd'
    have href := h.reference d hd
    rwa [Descent.isReference, (hsim _ _ hdd.1).kind, hdd.2] at href
  · obtain ⟨d, hd, hdd⟩ := exists_of_mem_forall₂ hrel.flip hd'
    have hown := Node.forall₂_ownBindings hsim.isTrace (hsim _ _ hdd.1) fun _ => hdd.1
    obtain ⟨b, hb, hbb⟩ := exists_of_mem_forall₂ hown.flip hb'
    exact hbb.declaration.2.le_key_of_none (h.bindings d hd b hb)
  · rw [← hsim.clear_iff hrel ⟨Iff.rfl, Iff.rfl⟩, h.clear name outer houter]

/-- A way in what a run made, numbered. -/
theorem Carries.numbered {bound : Nat} {path path' path'' : List Descent}
    (h : p.Carries p.Rewrites (fun m => m.id? = none) path path')
    (hknown : ∀ d ∈ path, ∀ x ∈ d.node.preorder, x.id?.isSome = true)
    (hrel : List.Forall₂ (Descent.Rel (Node.Renumbers bound)) path' path'') :
    p.Carries (p.Becomes bound) (fun y => bound ≤ y.key) path path'' := by
  induction h generalizing path'' with
  | nil =>
    cases hrel
    exact .nil
  | keep hs h _ ih =>
    obtain ⟨hn, hrest⟩ := List.forall_mem_cons.mp hknown
    obtain ⟨⟨m, l⟩, path'', ⟨hm, hl⟩, htail, rfl⟩ := List.forall₂_cons_left_iff.mp hrel
    obtain rfl : _ = l := hl
    exact .keep hs ⟨hn, _, h, hm⟩ (ih hrest htail)
  | leap hdropped hway _ ih =>
    obtain ⟨-, hrest⟩ := List.forall_mem_append.mp hknown
    obtain ⟨way', path'', rfl, hrelway, hreltail⟩ := exists_append_of_forall₂ hrel
    exact .leap hdropped (hway.numbered hrelway) (ih hrest hreltail)

namespace Becomes

variable {bound : Nat} {n m : Node}

theorem known_child (h : p.Becomes bound n m) {c : Node} (hc : c ∈ n.children) :
    ∀ x ∈ c.preorder, x.id?.isSome = true := fun x hx =>
  h.known x ((Node.preorder_sublist_of_mem_preorder (Node.mem_preorder_of_mem_children hc)).subset hx)

/-- A node that is no use site stays what it is, with parts that become others. -/
theorem keeps (h : p.Becomes bound n m) (hs : p.isUseSite n = false) :
    n.Keeps (p.Becomes bound) m ∧ m.mark = n.mark ∧ m.key < bound := by
  obtain ⟨n', hn, hm⟩ := h.rewritten
  obtain ⟨hkeeps, hmark⟩ := hn.keeps hs
  have hid : n'.id?.isSome = true := by
    rw [Node.id?, hmark]
    exact h.known n n.self_mem_preorder
  refine ⟨?_, (hm.2.mark_of_some hid).trans hmark, hm.key_lt_iff.mpr hid⟩
  refine (hkeeps.comp (Node.isSimulation_renumbers bound n' m hm)).imp_of_mem fun c hc d hcd => ?_
  exact ⟨h.known_child hc, hcd⟩

/-- A new function takes the place of a use site. -/
theorem arrowFunction (h : p.Becomes bound n m) (hs : p.isUseSite n = true) :
    m.kind = .arrowFunction ∧ bound ≤ m.key := by
  obtain ⟨n', hn, hm⟩ := h.rewritten
  cases hn with
  | keep hno => simp [hs] at hno
  | site =>
    exact ⟨(Node.isSimulation_renumbers bound _ m hm).kind.symm, hm.2.le_key_of_none rfl⟩

/-- A node of the kind that it had is no new one. -/
theorem isUseSite_of_kind (h : p.Becomes bound n m) (hk : n.kind = m.kind) :
    p.isUseSite n = false := by
  refine Bool.eq_false_iff.mpr fun hs => ?_
  have hkind := kind_of_isUseSite hs
  rw [hk, (h.arrowFunction hs).1] at hkind
  cases hkind

/-- A tree without use sites stays as it is. -/
theorem eq_of_none (h : p.Becomes bound n m) (hn : ∀ x ∈ n.preorder, p.isUseSite x = false) :
    m = n ∧ Node.KeysBelow bound [n] := by
  obtain ⟨n', hrewrites, hbelow, hnumbers⟩ := h.rewritten
  obtain rfl := hrewrites.eq_of_none hn
  exact ⟨hnumbers.eq_of_isSome h.known, hbelow⟩

/-- To a node that was there before leads the way that led to it. -/
theorem carries (h : p.Becomes bound n m) {path' : List Descent} {x' : Node}
    (hp : m.Leads path' x') (hx : x'.key < bound) :
    ∃ path x, n.Leads path x ∧ p.isUseSite x = false ∧ p.Becomes bound x x' ∧
      p.Carries (p.Becomes bound) (fun y => bound ≤ y.key) path path' := by
  obtain ⟨n', hn, hm⟩ := h.rewritten
  obtain ⟨way, y, hway, hyx, hrel⟩ := (Node.isSimulation_renumbers bound).leads hm hp
  obtain ⟨path, x, hpath, hs, hxy, hcarries⟩ := hn.carries hway (hyx.key_lt_iff.mp hx)
  have hknown : ∀ z path, n.Leads path z → ∀ w ∈ z.preorder, w.id?.isSome = true :=
    fun z path hz w hw => h.known w ((Node.preorder_sublist_of_mem_preorder hz.mem_preorder).subset hw)
  refine ⟨path, x, hpath, hs, ⟨hknown x path hpath, y, hxy, hyx⟩,
    hcarries.numbered (fun d hd => ?_) hrel⟩
  obtain ⟨path', hd⟩ := hpath.exists_of_mem hd
  exact hknown d.node path' hd

end Becomes

theorem isTrace_becomes (p : FilePass) (bound : Nat) : Node.IsTrace (p.Becomes bound) := by
  intro n m h
  cases hs : p.isUseSite n with
  | true =>
    refine .inl ⟨?_, ?_⟩
    · simp [kind_of_isUseSite hs, Kind.isInert]
    · simp [(h.arrowFunction hs).1, Kind.isInert]
  | false => exact .inr (h.keeps hs).1

end FilePass

end Quasiquote
