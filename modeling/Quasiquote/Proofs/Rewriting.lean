import Quasiquote.Proofs.Capture

namespace Quasiquote

theorem Node.Wraps.mono {ns : String} {holes holes' : List Node} {t : Node} (h : t.Wraps ns holes)
    (hsub : holes ⊆ holes') : t.Wraps ns holes' := by
  induction h with
  | hole h => exact .hole (hsub h)
  | text s => exact .text s
  | boolean b => exact .boolean b
  | name s => exact .name s
  | array _ ih => exact .array ih
  | factoryCall _ ih => exact .factoryCall ih

namespace Field

variable {R : Node → Node → Prop} {f : Field}

@[simp] theorem rel_node_iff {n : Node} : Rel R (.node n) f ↔ ∃ m, R n m ∧ f = .node m := by
  constructor
  · rintro ⟨h⟩
    exact ⟨_, h, rfl⟩
  · rintro ⟨m, h, rfl⟩
    exact .node h

@[simp] theorem rel_list_iff {ns : List Node} :
    Rel R (.list ns) f ↔ ∃ ms, List.Forall₂ R ns ms ∧ f = .list ms := by
  constructor
  · rintro (_ | h)
    exact ⟨_, h, rfl⟩
  · rintro ⟨ms, h, rfl⟩
    exact .list h

@[simp] theorem rel_text_iff {s : String} : Rel R (.text s) f ↔ f = .text s := by
  constructor
  · rintro ⟨⟩
    rfl
  · rintro rfl
    exact .text s

@[simp] theorem rel_flag_iff {b : Bool} : Rel R (.flag b) f ↔ f = .flag b := by
  constructor
  · rintro ⟨⟩
    rfl
  · rintro rfl
    exact .flag b

@[simp] theorem rel_absent_iff : Rel R .absent f ↔ f = .absent := by
  constructor
  · rintro ⟨⟩
    rfl
  · rintro rfl
    exact .absent

end Field

namespace FilePass

/-- A node that is no use site keeps what it is. The function around a generated expression takes the
place of a use site, with the payloads of what its substitutions become. -/
inductive Rewrites (p : FilePass) : Node → Node → Prop
  | keep {kind : Kind} {mark : Mark} {fields fields' : List Field}
    (hs : p.isUseSite (.mk kind mark fields) = false)
    (h : List.Forall₂ (Field.Rel (Rewrites p)) fields fields') :
    Rewrites p (.mk kind mark fields) (.mk kind mark fields')
  | site {n body : Node} {parts : List (Node × Node)} (hs : p.isUseSite n = true)
    (hparts : ∀ q ∈ parts, q.1 ∈ n.substitutions) (h : ∀ q ∈ parts, Rewrites p q.1 q.2)
    (hbody : body.Wraps p.options.factoryNamespace
      (parts.map fun q => p.compilation.payload q.2)) :
    Rewrites p n ((p.assemble body).withSpan n.span)

variable {p : FilePass} {n n' : Node}

theorem rewrites_of_keeps (hs : p.isUseSite n = false) (h : n.Keeps p.Rewrites n')
    (hmark : n'.mark = n.mark) : p.Rewrites n n' := by
  obtain ⟨kind, mark, fields⟩ := n
  obtain ⟨kind', mark', fields'⟩ := n'
  obtain rfl : kind = kind' := h.kind
  obtain rfl : mark' = mark := hmark
  exact .keep hs h.fields

namespace Rewrites

theorem keeps (h : p.Rewrites n n') (hs : p.isUseSite n = false) :
    n.Keeps p.Rewrites n' ∧ n'.mark = n.mark := by
  cases h with
  | keep _ h => exact ⟨⟨rfl, h⟩, rfl⟩
  | site hs' => simp [hs] at hs'

/-- What is kept by a node whose parts have it, and by a use site whose substitutions have it, holds
of a whole tree. -/
theorem induct {R : Node → Node → Prop}
    (keep : ∀ {n n' : Node}, p.isUseSite n = false → n.Keeps R n' → n'.mark = n.mark → R n n')
    (site : ∀ {n body : Node} {parts : List (Node × Node)}, p.isUseSite n = true →
      (∀ q ∈ parts, q.1 ∈ n.substitutions) → (∀ q ∈ parts, R q.1 q.2) →
      body.Wraps p.options.factoryNamespace (parts.map fun q => p.compilation.payload q.2) →
      R n ((p.assemble body).withSpan n.span))
    (h : p.Rewrites n n') : R n n' := by
  induction hb : sizeOf n using Nat.strongRecOn generalizing n n' with
  | ind b ih =>
    subst hb
    cases h with
    | keep hs h =>
      refine keep hs (Node.Keeps.imp_of_mem ⟨rfl, h⟩ fun c hc d hcd => ?_) rfl
      exact ih _ (Node.sizeOf_lt_of_mem_children hc) hcd rfl
    | site hs hparts h hbody =>
      refine site hs hparts (fun q hq => ?_) hbody
      exact ih _ (Node.sizeOf_lt_of_mem_substitutions (hparts q hq)) (h q hq) rfl

/-- A tree without use sites stays as it is. -/
theorem eq_of_none (h : p.Rewrites n n') (hn : ∀ x ∈ n.preorder, p.isUseSite x = false) :
    n' = n := by
  refine induct (R := fun n n' => (∀ x ∈ n.preorder, p.isUseSite x = false) → n' = n) ?_ ?_ h hn
  · intro n n' _ hkeeps hmark hn
    refine (hkeeps.imp_of_mem fun c hc d hcd => (hcd fun x hx => ?_).symm).eq_of_mark hmark
    have hsub := Node.preorder_sublist_of_mem_preorder (Node.mem_preorder_of_mem_children hc)
    exact hn x (hsub.subset hx)
  · intro n body parts hs _ _ _ hn
    have hno := hn n n.self_mem_preorder
    simp [hs] at hno

/-- Nothing becomes of a node of its own but one with other parts. -/
theorem eq_plain {kind : Kind} {fields : List Field} (h : p.Rewrites (.plain kind fields) n')
    (hk : kind ≠ .taggedTemplateExpression) :
    ∃ fields', n' = .plain kind fields' ∧
      List.Forall₂ (Field.Rel p.Rewrites) fields fields' := by
  have hs : p.isUseSite (.plain kind fields) = false :=
    Bool.eq_false_iff.mpr fun hs => hk (kind_of_isUseSite hs)
  obtain ⟨hkeeps, hmark⟩ := h.keeps hs
  obtain ⟨kind', mark', fields'⟩ := n'
  obtain rfl : kind = kind' := hkeeps.kind
  obtain rfl : mark' = {} := hmark
  exact ⟨fields', rfl, hkeeps.fields⟩

theorem eq_of_untagged (h : p.Rewrites n n') (hn : n.Untagged) : n' = n :=
  h.eq_of_none fun x hx => Bool.eq_false_iff.mpr fun hs => hn x hx (kind_of_isUseSite hs)

theorem eq_identifier {s : String} (h : p.Rewrites (.identifier s) n') : n' = .identifier s :=
  h.eq_of_untagged (by simp [Node.identifier, Node.untagged_plain_iff])

end Rewrites

section

variable {substitutions : List Node} {t t' : Node}

/-- A list of generated expressions becomes one, if each of them does. -/
theorem exists_parts {ts ts' : List Node} (h : List.Forall₂ p.Rewrites ts ts')
    (ih : ∀ t ∈ ts, ∀ t', p.Rewrites t t' → ∃ parts : List (Node × Node),
      (∀ q ∈ parts, q.1 ∈ substitutions ∧ p.Rewrites q.1 q.2) ∧
      t'.Wraps p.options.factoryNamespace (parts.map fun q => p.compilation.payload q.2)) :
    ∃ parts : List (Node × Node), (∀ q ∈ parts, q.1 ∈ substitutions ∧ p.Rewrites q.1 q.2) ∧
      ∀ t' ∈ ts', t'.Wraps p.options.factoryNamespace
        (parts.map fun q => p.compilation.payload q.2) := by
  induction h with
  | nil => exact ⟨[], by simp⟩
  | cons h _ ihs =>
    obtain ⟨ih, ihrest⟩ := List.forall_mem_cons.mp ih
    obtain ⟨parts, hparts, hwraps⟩ := ih _ h
    obtain ⟨parts', hparts', hwraps'⟩ := ihs ihrest
    refine ⟨parts ++ parts', List.forall_mem_append.mpr ⟨hparts, hparts'⟩,
      List.forall_mem_cons.mpr ⟨hwraps.mono ?_, fun t' ht' => (hwraps' t' ht').mono ?_⟩⟩
    · simp
    · simp

/-- An expression that is generated around payloads stays one, around the payloads of what the
substitutions become. -/
theorem exists_parts_of_wraps (ht : t.Wraps p.options.factoryNamespace
      (substitutions.map p.compilation.payload)) (h : p.Rewrites t t') :
    ∃ parts : List (Node × Node), (∀ q ∈ parts, q.1 ∈ substitutions ∧ p.Rewrites q.1 q.2) ∧
      t'.Wraps p.options.factoryNamespace (parts.map fun q => p.compilation.payload q.2) := by
  induction ht generalizing t' with
  | hole hmem =>
    obtain ⟨e, he, rfl⟩ := List.mem_map.mp hmem
    obtain ⟨fields', rfl, hfields⟩ := h.eq_plain (by simp)
    simp only [List.forall₂_cons_left_iff, List.forall₂_nil_left_iff, Field.rel_node_iff,
      Field.rel_list_iff] at hfields
    obtain ⟨_, _, ⟨e', hee, rfl⟩, ⟨_, _, ⟨_, rfl, rfl⟩, ⟨_, _, ⟨_, ⟨i, _, hi, rfl, rfl⟩, rfl⟩, rfl,
      rfl⟩, rfl⟩, rfl⟩ := hfields
    obtain rfl := hi.eq_identifier
    exact ⟨[(e, e')], by simpa using ⟨he, hee⟩, .hole (by simp [Compilation.payload, Node.call])⟩
  | text s =>
    obtain rfl := h.eq_of_untagged (by simp [Node.stringLiteral, Node.untagged_plain_iff])
    exact ⟨[], by simp, .text s⟩
  | boolean b =>
    obtain rfl := h.eq_of_untagged (by cases b <;> simp [Node.boolean, Node.untagged_plain_iff])
    exact ⟨[], by simp, .boolean b⟩
  | name s =>
    obtain rfl := h.eq_identifier
    exact ⟨[], by simp, .name s⟩
  | array _ ih =>
    obtain ⟨fields', rfl, hfields⟩ := h.eq_plain (by simp)
    simp only [List.forall₂_cons_left_iff, List.forall₂_nil_left_iff, Field.rel_list_iff] at hfields
    obtain ⟨_, _, ⟨elements', helements, rfl⟩, rfl, rfl⟩ := hfields
    obtain ⟨parts, hparts, hwraps⟩ := exists_parts helements fun e he e' => ih e he
    exact ⟨parts, hparts, .array hwraps⟩
  | factoryCall _ ih =>
    obtain ⟨fields', rfl, hfields⟩ := h.eq_plain (by simp)
    simp only [List.forall₂_cons_left_iff, List.forall₂_nil_left_iff, Field.rel_node_iff,
      Field.rel_list_iff] at hfields
    obtain ⟨_, _, ⟨callee, hcallee, rfl⟩, ⟨_, _, ⟨_, rfl, rfl⟩, ⟨_, _, ⟨arguments', harguments, rfl⟩,
      rfl, rfl⟩, rfl⟩, rfl⟩ := hfields
    obtain rfl := hcallee.eq_of_untagged
      (by simp [Node.propertyAccess, Node.identifier, Node.untagged_plain_iff])
    obtain ⟨parts, hparts, hwraps⟩ := exists_parts harguments fun a ha a' => ih a ha
    exact ⟨parts, hparts, .factoryCall hwraps⟩

theorem Rewrites.eq_arrowFunction {parameter : String} {span : Option Span}
    (h : p.Rewrites ((Node.arrowFunction [.parameter parameter] t).withSpan span) n') :
    ∃ t', p.Rewrites t t' ∧
      n' = (Node.arrowFunction [.parameter parameter] t').withSpan span := by
  have hs : p.isUseSite ((Node.arrowFunction [.parameter parameter] t).withSpan span) = false :=
    Bool.eq_false_iff.mpr fun hs => by cases kind_of_isUseSite hs
  obtain ⟨⟨hkind, hfields⟩, hmark⟩ := h.keeps hs
  obtain ⟨kind, mark, fields⟩ := n'
  obtain rfl : .arrowFunction = kind := hkind
  obtain rfl : mark = { span } := hmark
  simp only [Node.arrowFunction, Node.withSpan, Node.plain, Node.fields,
    List.forall₂_cons_left_iff, List.forall₂_nil_left_iff, Field.rel_node_iff, Field.rel_list_iff,
    Field.rel_flag_iff, Field.rel_absent_iff] at hfields
  obtain ⟨_, _, rfl, ⟨_, _, ⟨_, rfl, rfl⟩, ⟨_, _, ⟨_, ⟨q, _, hq, rfl, rfl⟩, rfl⟩, ⟨_, _, rfl, ⟨_, _,
    ⟨t', ht, rfl⟩, rfl, rfl⟩, rfl⟩, rfl⟩, rfl⟩, rfl⟩ := hfields
  obtain rfl := hq.eq_of_untagged
    (by simp [Node.parameter, Node.identifier, Node.untagged_plain_iff])
  exact ⟨t', ht, rfl⟩

theorem Rewrites.eq_assemble {span : Option Span}
    (h : p.Rewrites ((p.assemble t).withSpan span) n') :
    ∃ t', p.Rewrites t t' ∧ n' = (p.assemble t').withSpan span := by
  unfold assemble at h ⊢
  obtain ⟨body, hbody, rfl⟩ := h.eq_arrowFunction
  cases hformat : p.options.moduleFormat with
  | esModule =>
    rw [hformat] at hbody
    exact ⟨body, hbody, rfl⟩
  | commonJs =>
    rw [hformat] at hbody
    obtain ⟨_, rfl, hfields⟩ := hbody.eq_plain (by simp)
    simp only [List.forall₂_cons_left_iff, List.forall₂_nil_left_iff, Field.rel_list_iff] at hfields
    obtain ⟨_, _, ⟨_, ⟨c, _, hc, ⟨r, _, hr, rfl, rfl⟩, rfl⟩, rfl⟩, rfl, rfl⟩ := hfields
    obtain rfl := hc.eq_of_untagged (by simp [Node.constStatement, Node.call, Node.identifier,
      Node.stringLiteral, Node.untagged_plain_iff])
    obtain ⟨_, rfl, hfields⟩ := hr.eq_plain (by simp)
    simp only [Field.ofOption, List.forall₂_cons_left_iff, List.forall₂_nil_left_iff,
      Field.rel_node_iff] at hfields
    obtain ⟨_, _, ⟨t', ht, rfl⟩, rfl, rfl⟩ := hfields
    exact ⟨t', ht, rfl⟩

end

/-- The function around the payloads of its substitutions takes the place of a use site. -/
theorem assembles_expandSite {r : Node} {s s' : Progress} (hn : n.Templated)
    (hs : p.isUseSite n = true) (h : Pass.Yields (p.expandSite n) s r s') :
    ∃ t : Node, r = (p.assemble t).withSpan n.span ∧
      t.Wraps p.options.factoryNamespace (n.substitutions.map p.compilation.payload) := by
  obtain ⟨template, ht⟩ := exists_template hn hs
  obtain ⟨e, ids, he, rfl, -⟩ := expandSite_yields ht h
  refine ⟨e.tree, rfl, ?_⟩
  have hwraps := Compilation.wraps_expandTemplate he
  rw [Node.substitutions, ht, List.map_map]
  exact hwraps

/-- A run rewrites a tree. -/
theorem rewrites_expandAll {s s' : Progress} (hn : n.Templated)
    (h : Pass.Yields (p.expandAll n) s n' s') : p.Rewrites n n' := by
  refine expandAll_induction (fun hn hs hr hrewrites => ?_) rewrites_of_keeps hn h
  obtain ⟨t, rfl, hwraps⟩ := assembles_expandSite hn hs hr
  obtain ⟨t', ht, rfl⟩ := hrewrites.eq_assemble
  obtain ⟨parts, hparts, hwraps'⟩ := exists_parts_of_wraps hwraps ht
  exact .site hs (fun q hq => (hparts q hq).1) (fun q hq => (hparts q hq).2) hwraps'

end FilePass

end Quasiquote
