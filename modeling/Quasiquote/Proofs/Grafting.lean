import Quasiquote.Proofs.Splicing

namespace Quasiquote

/-- What is built for a part of a fragment when the substitutions of some tokens take the place of
nodes, the tokens that are left, and each node that was replaced with its token. -/
structure Graft (α : Type) where
  value : α
  left : Registry
  cuts : List (String × Node)

namespace Graft

variable {α β γ : Type}

def join (f : α → β → γ) (first : Graft α) (second : Registry → Graft β) : Graft γ :=
  let next := second first.left
  ⟨f first.value next.value, next.left, first.cuts ++ next.cuts⟩

def map (f : α → β) (g : Graft α) : Graft β :=
  ⟨f g.value, g.left, g.cuts⟩

end Graft

/-- The entry of a registry whose token a node carries in the shape that its role prescribes. -/
def Registry.entryIn? (r : Registry) (n : Node) : Option (String × Placeholder) :=
  (r.tokenIn? n).bind fun token => (r.get? token).map fun p => (token, p)

mutual

/-- Build a fragment and put the substitutions in the place of the nodes that carry their tokens, in
pre-order. -/
def Node.graft (ns : String) : Node → Registry → Graft Node
  | .mk kind mark fields, r =>
    match r.entryIn? (.mk kind mark fields) with
    | some (token, p) => ⟨p.payload, r.erase token, [(token, .mk kind mark fields)]⟩
    | none => (Field.graftArguments ns fields r).map (.factoryCall ns kind)

def Field.graftArguments (ns : String) : List Field → Registry → Graft (List Node)
  | [], r => ⟨[], r, []⟩
  | .node n :: rest, r => (n.graft ns r).join List.cons (Field.graftArguments ns rest)
  | .list ms :: rest, r =>
    (Node.graftList ns ms r).join (fun es as => .array es :: as) (Field.graftArguments ns rest)
  | .text s :: rest, r => (Field.graftArguments ns rest r).map (.stringLiteral s :: ·)
  | .flag b :: rest, r => (Field.graftArguments ns rest r).map (.boolean b :: ·)
  | .absent :: rest, r => (Field.graftArguments ns rest r).map (.undefined :: ·)

def Node.graftList (ns : String) : List Node → Registry → Graft (List Node)
  | [], r => ⟨[], r, []⟩
  | n :: rest, r => (n.graft ns r).join List.cons (Node.graftList ns rest)

end

/-- What a fragment of one statement is built from: the expression of an expression statement. -/
def Node.core (statement : Node) : Node :=
  match statement.kind, statement.child? .expression with
  | .expressionStatement, some expression => expression
  | _, _ => statement

def Node.graftFragment (ns : String) (fragment : Node) (r : Registry) : Graft Node :=
  match fragment.list .statements with
  | [] => ⟨.factoryCall ns .emptyStatement [], r, []⟩
  | [statement] => statement.core.graft ns r
  | statements => (Node.graftList ns statements r).map .array

/-- What every graft does: exactly the tokens of its cuts are gone, each once, and each cut is a node
of the fragment that carries the token of an entry. -/
structure Graft.Sound {α : Type} (r : Registry) (nodes : List Node) (g : Graft α) : Prop where
  nodup : (g.cuts.map Prod.fst).Nodup
  left : ∀ token, g.left.get? token = if token ∈ g.cuts.map Prod.fst then none else r.get? token
  cuts : ∀ cut ∈ g.cuts, (∃ n ∈ nodes, cut.2 ∈ n.preorder) ∧
    ∃ p, r.get? cut.1 = some p ∧ p.role.token? cut.2 = some cut.1

variable {ns : String} {r : Registry}

theorem Registry.entryIn?_eq_some {n : Node} {token : String} {p : Placeholder}
    (h : r.entryIn? n = some (token, p)) :
    r.get? token = some p ∧ p.role.token? n = some token := by
  obtain ⟨t, ht, hp⟩ := Option.bind_eq_some_iff.mp h
  obtain ⟨q, hq, heq⟩ := Option.map_eq_some_iff.mp hp
  obtain ⟨rfl, rfl⟩ := Prod.mk.inj heq
  obtain ⟨p', hp', hrole⟩ := Registry.tokenIn?_eq_some ht
  obtain rfl := Option.some.inj (hq.symm.trans hp')
  exact ⟨hq, hrole⟩

theorem Registry.entryIn?_eq_none {n : Node} (h : r.entryIn? n = none) : r.tokenIn? n = none := by
  cases ht : r.tokenIn? n with
  | none => rfl
  | some token =>
    obtain ⟨p, hp, -⟩ := Registry.tokenIn?_eq_some ht
    simp [Registry.entryIn?, ht, hp] at h

mutual

theorem Node.splice_builderCall_eq_graft (n : Node) (r : Registry) (hn : n.Conforms) :
    (n.builderCall ns).splice ns r = ((n.graft ns r).value, (n.graft ns r).left) := by
  match n with
  | .mk kind mark fields =>
    rw [Node.graft]
    cases hentry : r.entryIn? (.mk kind mark fields) with
    | some entry =>
      obtain ⟨token, p⟩ := entry
      obtain ⟨hp, hrole⟩ := Registry.entryIn?_eq_some hentry
      have htake := Registry.take?_builderCall_of_some ns hn hp hrole
      rw [Node.builderCall, Node.factoryCall, Node.call, Node.plain] at htake ⊢
      rw [Node.splice, htake]
    | none =>
      have htake := Registry.take?_builderCall_of_none ns hn (Registry.entryIn?_eq_none hentry)
      have hf := ((Node.conforms_mk_iff kind mark fields).mp hn).2
      rw [Node.builderCall] at htake ⊢
      rw [Node.splice_factoryCall ns htake, Field.spliceList_eq_graft fields r hf]
      rfl

theorem Field.spliceList_eq_graft (fields : List Field) (r : Registry)
    (hf : ∀ f ∈ fields, ∀ c ∈ f.nodes, c.Conforms) :
    Node.spliceList ns (Field.builderArguments ns fields) r =
      ((Field.graftArguments ns fields r).value, (Field.graftArguments ns fields r).left) := by
  match fields with
  | [] => rfl
  | .node n :: rest =>
    have hn := Node.splice_builderCall_eq_graft n r (hf (.node n) (by simp) n (by simp))
    have hrest := Field.spliceList_eq_graft rest (n.graft ns r).left
      (fun f hm => hf f (by simp [hm]))
    simp only [Field.builderArguments, Node.spliceList, hn, hrest, Field.graftArguments,
      Graft.join]
  | .list ms :: rest =>
    have hms := Node.spliceList_eq_graft ms r (hf (.list ms) (by simp))
    have hrest := Field.spliceList_eq_graft rest (Node.graftList ns ms r).left
      (fun f hm => hf f (by simp [hm]))
    simp only [Field.builderArguments, Node.spliceList, Node.splice_array, hms, hrest,
      Field.graftArguments, Graft.join]
  | .text _ :: rest | .flag _ :: rest | .absent :: rest =>
    have hrest := Field.spliceList_eq_graft rest r (fun f hm => hf f (by simp [hm]))
    simp only [Field.builderArguments, Node.spliceList, Node.undefined, Node.splice_stringLiteral,
      Node.splice_boolean, Node.splice_identifier, hrest, Field.graftArguments, Graft.map]

theorem Node.spliceList_eq_graft (ms : List Node) (r : Registry) (hm : ∀ m ∈ ms, m.Conforms) :
    Node.spliceList ns (Node.builderCalls ns ms) r =
      ((Node.graftList ns ms r).value, (Node.graftList ns ms r).left) := by
  match ms with
  | [] => rfl
  | m :: rest =>
    have hn := Node.splice_builderCall_eq_graft m r (hm m (by simp))
    have hrest := Node.spliceList_eq_graft rest (m.graft ns r).left
      (fun k hk => hm k (by simp [hk]))
    simp only [Node.builderCalls, Node.spliceList, hn, hrest, Node.graftList, Graft.join]

end

theorem Node.core_eq (statement : Node) :
    statement.core = statement ∨ statement.child? .expression = some statement.core := by
  unfold Node.core
  split
  · next h => exact .inr h
  · exact .inl rfl

theorem Node.core_mem_preorder (statement : Node) : statement.core ∈ statement.preorder := by
  obtain h | h := statement.core_eq
  · rw [h]
    exact Node.self_mem_preorder _
  · exact Node.mem_preorder_of_mem_children (Node.mem_children_of_child? h)

theorem Node.synthesize_singleton {fragment statement : Node}
    (h : fragment.list .statements = [statement]) :
    fragment.synthesize ns = statement.core.builderCall ns := by
  by_cases hk : statement.kind = .expressionStatement
  · cases hc : statement.child? .expression with
    | none => simp only [Node.synthesize, h, Node.core, hk, hc]
    | some e =>
      have hcore : statement.core = e := by simp only [Node.core, hk, hc]
      rw [hcore]
      exact Node.synthesize_of_expression ns h hk hc
  · have hcore : statement.core = statement := by
      unfold Node.core
      split
      · next hs _ => exact absurd hs hk
      · rfl
    rw [hcore]
    exact Node.synthesize_of_statement ns h hk

theorem Registry.take?_emptyStatement (r : Registry) :
    r.take? ns (.factoryCall ns .emptyStatement []) = none := by
  have hnone : r.tokenIn? (.plain .emptyStatement []) = none := by
    rw [Registry.tokenIn?, List.findSome?_eq_none_iff]
    intro role _
    cases role <;> rfl
  exact Registry.take?_builderCall_of_none ns (by decide +kernel) hnone

/-- Splicing puts every payload where the fragment is cut. -/
theorem Node.splice_synthesize (fragment : Node) (r : Registry) (h : fragment.Conforms) :
    (fragment.synthesize ns).splice ns r =
      ((fragment.graftFragment ns r).value, (fragment.graftFragment ns r).left) := by
  match hs : fragment.list .statements with
  | [] =>
    have hempty : fragment.synthesize ns = .factoryCall ns .emptyStatement [] := by
      rw [Node.synthesize, hs]
    rw [hempty, Node.splice_factoryCall ns r.take?_emptyStatement, Node.graftFragment, hs]
    rfl
  | [statement] =>
    have hstatement : statement.Conforms := h.of_mem_list (hs ▸ List.mem_singleton_self _)
    have hcore : statement.core.Conforms := by
      obtain hcore | hcore := statement.core_eq
      · rwa [hcore]
      · exact hstatement.of_child? hcore
    rw [Node.synthesize_singleton hs, Node.graftFragment, hs]
    exact Node.splice_builderCall_eq_graft _ r hcore
  | s₁ :: s₂ :: rest =>
    have harray : fragment.synthesize ns = .array (Node.builderCalls ns (s₁ :: s₂ :: rest)) := by
      rw [Node.synthesize, hs]
    rw [harray, Node.splice_array, Node.spliceList_eq_graft _ r fun s hm => h.of_mem_list (hs ▸ hm),
      Node.graftFragment, hs]
    rfl

namespace Graft.Sound

variable {α β γ : Type} {nodes nodes' : List Node} {g : Graft α}

theorem map (h : g.Sound r nodes) (f : α → β) : (g.map f).Sound r nodes :=
  ⟨h.nodup, h.left, h.cuts⟩

theorem mono (h : g.Sound r nodes)
    (hnodes : ∀ n ∈ nodes, ∃ n' ∈ nodes', n ∈ n'.preorder) : g.Sound r nodes' := by
  refine ⟨h.nodup, h.left, fun cut hcut => ?_⟩
  obtain ⟨⟨n, hn, hm⟩, hp⟩ := h.cuts cut hcut
  obtain ⟨n', hn', hnn'⟩ := hnodes n hn
  exact ⟨⟨n', hn', (Node.preorder_sublist_of_mem_preorder hnn').subset hm⟩, hp⟩

theorem pure (a : α) : (⟨a, r, []⟩ : Graft α).Sound r nodes :=
  ⟨List.nodup_nil, fun _ => rfl, nofun⟩

theorem join {second : Registry → Graft β} (h : g.Sound r nodes)
    (h' : (second g.left).Sound g.left nodes') (f : α → β → γ) :
    (g.join f second).Sound r (nodes ++ nodes') := by
  have hnot : ∀ cut ∈ (second g.left).cuts, cut.1 ∉ g.cuts.map Prod.fst := by
    intro cut hcut hmem
    obtain ⟨-, p, hp, -⟩ := h'.cuts cut hcut
    rw [h.left, if_pos hmem] at hp
    cases hp
  refine ⟨?_, fun token => ?_, fun cut hcut => ?_⟩
  · simp only [Graft.join, List.map_append]
    refine List.nodup_append.mpr ⟨h.nodup, h'.nodup, ?_⟩
    rintro token htoken _ htoken' rfl
    obtain ⟨cut, hcut, rfl⟩ := List.mem_map.mp htoken'
    exact hnot cut hcut htoken
  · simp only [Graft.join, List.map_append, List.mem_append]
    rw [h'.left, h.left]
    by_cases h₂ : token ∈ (second g.left).cuts.map Prod.fst
    · simp [h₂]
    · by_cases h₁ : token ∈ g.cuts.map Prod.fst <;> simp [h₁, h₂]
  · rcases List.mem_append.mp hcut with hcut | hcut
    · obtain ⟨⟨n, hn, hm⟩, hp⟩ := h.cuts cut hcut
      exact ⟨⟨n, List.mem_append_left _ hn, hm⟩, hp⟩
    · obtain ⟨⟨n, hn, hm⟩, p, hp, hrole⟩ := h'.cuts cut hcut
      rw [h.left, if_neg (hnot cut hcut)] at hp
      exact ⟨⟨n, List.mem_append_right _ hn, hm⟩, p, hp, hrole⟩

end Graft.Sound

mutual

theorem Node.graft_sound (n : Node) (r : Registry) : (n.graft ns r).Sound r [n] := by
  match n with
  | .mk kind mark fields =>
    rw [Node.graft]
    cases hentry : r.entryIn? (.mk kind mark fields) with
    | some entry =>
      obtain ⟨token, p⟩ := entry
      obtain ⟨hp, hrole⟩ := Registry.entryIn?_eq_some hentry
      refine ⟨List.pairwise_singleton _ _, fun t => ?_, ?_⟩
      · simp [Registry.get?_erase]
      · rintro _ (_ | ⟨_, ⟨⟩⟩)
        exact ⟨⟨_, List.mem_singleton_self _, Node.self_mem_preorder _⟩, p, hp, hrole⟩
    | none =>
      refine ((Field.graftArguments_sound fields r).map _).mono fun c hc => ?_
      exact ⟨_, List.mem_singleton_self _, Node.mem_preorder_of_mem_children hc⟩

theorem Field.graftArguments_sound (fields : List Field) (r : Registry) :
    (Field.graftArguments ns fields r).Sound r (fields.flatMap Field.nodes) := by
  match fields with
  | [] => exact .pure _
  | .node n :: rest => exact (Node.graft_sound n r).join (Field.graftArguments_sound rest _) _
  | .list ms :: rest => exact (Node.graftList_sound ms r).join (Field.graftArguments_sound rest _) _
  | .text _ :: rest | .flag _ :: rest | .absent :: rest =>
    exact (Field.graftArguments_sound rest r).map _

theorem Node.graftList_sound (ms : List Node) (r : Registry) :
    (Node.graftList ns ms r).Sound r ms := by
  match ms with
  | [] => exact .pure _
  | m :: rest => exact (Node.graft_sound m r).join (Node.graftList_sound rest _) _

end

theorem Node.graftFragment_sound (fragment : Node) (r : Registry) :
    (fragment.graftFragment ns r).Sound r [fragment] := by
  have hlist : ∀ s ∈ fragment.list .statements, ∃ n ∈ [fragment], s ∈ n.preorder := fun s hs =>
    ⟨fragment, List.mem_singleton_self _,
      Node.mem_preorder_of_mem_children (Node.mem_children_of_mem_list hs)⟩
  unfold Node.graftFragment
  split
  · exact .pure _
  · next statement hs =>
    refine (Node.graft_sound _ r).mono (List.forall_mem_singleton.mpr ?_)
    obtain ⟨n, hn, hm⟩ := hlist statement (hs ▸ List.mem_singleton_self _)
    exact ⟨n, hn, (Node.preorder_sublist_of_mem_preorder hm).subset statement.core_mem_preorder⟩
  · next hs => exact ((Node.graftList_sound _ r).map _).mono hlist

end Quasiquote
