import Quasiquote.Proofs.FreshToken
import Quasiquote.Proofs.Rebuilding
import Quasiquote.Proofs.Registry
import Quasiquote.Template.Compile

namespace Quasiquote

def Node.total (w : Node → Nat) : List Node → Nat
  | [] => 0
  | n :: rest => w n + Node.total w rest

/-- A weight to which only templates with a tag add: any other node weighs what its children
weigh. -/
def Node.Additive (w : Node → Nat) : Prop :=
  ∀ n : Node, n.kind ≠ .taggedTemplateExpression → w n = Node.total w n.children

/-- A weight to which nodes with an identity may add too: it is only of generated nodes that each
weighs what its children weigh. -/
def Node.Inherited (w : Node → Nat) : Prop :=
  ∀ n : Node, n.id? = none → n.kind ≠ .taggedTemplateExpression → w n = Node.total w n.children

def Node.Untagged (n : Node) : Prop :=
  ∀ m ∈ n.preorder, m.kind ≠ .taggedTemplateExpression

def Registry.weight (w : Node → Nat) (r : Registry) : Nat :=
  Node.total w (r.entries.map fun e => e.2.payload)

variable {w : Node → Nat}

namespace Node

@[simp] theorem total_nil : total w [] = 0 := rfl

@[simp] theorem total_cons (n : Node) (rest : List Node) :
    total w (n :: rest) = w n + total w rest := rfl

@[simp] theorem total_append (ns ms : List Node) :
    total w (ns ++ ms) = total w ns + total w ms := by
  induction ns with
  | nil => simp
  | cons n ns ih => simp [ih, Nat.add_assoc]

theorem total_length (f : Node → List Node) (ns : List Node) :
    total (fun n => (f n).length) ns = (ns.flatMap f).length := by
  induction ns with
  | nil => rfl
  | cons n ns ih => simp [ih]

theorem total_countP_preorder (q : Node → Bool) (ns : List Node) :
    total (fun n => n.preorder.countP q) ns = (ns.flatMap preorder).countP q := by
  simp only [List.countP_eq_length_filter, List.filter_flatMap]
  exact total_length (fun n => n.preorder.filter q) ns

theorem countP_preorder_additive {q : Node → Bool}
    (hq : ∀ n, q n = true → n.kind = .taggedTemplateExpression) :
    Additive fun n => n.preorder.countP q := by
  intro n hn
  have hqn : ¬q n = true := fun h => hn (hq n h)
  dsimp only
  rw [total_countP_preorder, preorder_eq, List.countP_cons_of_neg hqn]

theorem untagged_iff (n : Node) :
    n.Untagged ↔ n.kind ≠ .taggedTemplateExpression ∧ ∀ c ∈ n.children, c.Untagged := by
  simp only [Untagged]
  rw [preorder_eq]
  simp only [List.forall_mem_cons, List.forall_mem_flatMap]

theorem untagged_mk_iff (kind : Kind) (mark : Mark) (fields : List Field) :
    (mk kind mark fields).Untagged ↔
      kind ≠ .taggedTemplateExpression ∧ ∀ f ∈ fields, ∀ c ∈ f.nodes, c.Untagged := by
  rw [untagged_iff, children, List.forall_mem_flatMap]
  rfl

theorem untagged_plain_iff (kind : Kind) (fields : List Field) :
    (plain kind fields).Untagged ↔
      kind ≠ .taggedTemplateExpression ∧ ∀ f ∈ fields, ∀ c ∈ f.nodes, c.Untagged :=
  untagged_mk_iff kind {} fields

theorem untagged_array {elements : List Node} (h : ∀ e ∈ elements, e.Untagged) :
    (array elements).Untagged := by
  simpa [array, untagged_plain_iff] using h

theorem untagged_factoryCall (ns : String) (kind : Kind) {arguments : List Node}
    (h : ∀ a ∈ arguments, a.Untagged) : (factoryCall ns kind arguments).Untagged := by
  simpa [factoryCall, call, propertyAccess, identifier, untagged_plain_iff] using h

end Node

theorem Node.Additive.inherited (hw : Node.Additive w) : Node.Inherited w :=
  fun n _ => hw n

theorem Node.Inherited.plain (hw : Node.Inherited w) {kind : Kind}
    (hk : kind ≠ .taggedTemplateExpression) (fields : List Field) :
    w (.plain kind fields) = Node.total w (fields.flatMap Field.nodes) :=
  hw (.plain kind fields) rfl hk

theorem Node.Inherited.identifier (hw : Node.Inherited w) (name : String) :
    w (.identifier name) = 0 :=
  hw.plain (by decide) _

theorem Node.Inherited.stringLiteral (hw : Node.Inherited w) (text : String) :
    w (.stringLiteral text) = 0 :=
  hw.plain (by decide) _

theorem Node.Inherited.call (hw : Node.Inherited w) (callee : Node) (arguments : List Node) :
    w (.call callee arguments) = w callee + Node.total w arguments := by
  rw [Node.call, hw.plain (by decide)]
  simp

theorem Node.Inherited.factoryCall (hw : Node.Inherited w) (ns : String) (kind : Kind)
    (arguments : List Node) : w (.factoryCall ns kind arguments) = Node.total w arguments := by
  have hcallee (name : String) : w (.propertyAccess (.identifier ns) name) = 0 := by
    rw [Node.propertyAccess, hw.plain (by decide)]
    simp [hw.identifier]
  rw [Node.factoryCall, hw.call, hcallee, Nat.zero_add]

namespace Registry

theorem weight_erase {r : Registry} (hr : r.tokens.Nodup) {token : String} {p : Placeholder}
    (h : r.get? token = some p) : w p.payload + (r.erase token).weight w = r.weight w := by
  obtain ⟨entries⟩ := r
  induction entries with
  | nil => simp [get?] at h
  | cons e entries ih =>
    obtain ⟨key, q⟩ := e
    obtain ⟨hnot, hnodup⟩ := List.nodup_cons.mp hr
    by_cases hk : key = token
    · subst hk
      obtain rfl : q = p := by simpa [get?] using h
      have hentries : (erase ⟨entries⟩ key).entries = entries := entries_erase_of_not_mem hnot
      have herase : (erase ⟨(key, q) :: entries⟩ key).entries = entries := by
        rw [← hentries]
        simp [erase]
      simp [weight, herase]
    · have hget : get? ⟨entries⟩ token = some p := by
        simpa [get?, List.lookup_cons, beq_eq_false_iff_ne.mpr (Ne.symm hk)] using h
      have herase : (erase ⟨(key, q) :: entries⟩ token).entries =
          (key, q) :: (erase ⟨entries⟩ token).entries := by
        simp [erase, hk]
      have hrest := ih hnodup hget
      simp only [weight, herase, List.map_cons, Node.total_cons] at hrest ⊢
      omega

theorem weight_insert {r : Registry} {token : String} (h : r.contains token = false)
    (p : Placeholder) : (r.insert token p).weight w = r.weight w + w p.payload := by
  have hentries := entries_erase_of_not_mem ((contains_eq_false_iff r token).mp h)
  simp [weight, insert, hentries]

theorem take?_eq_some {r : Registry} {ns : String} {n : Node} {taken : Node × Registry}
    (h : r.take? ns n = some taken) :
    ∃ token p, r.get? token = some p ∧ taken = (p.payload, r.erase token) := by
  obtain ⟨pattern, -, hpattern⟩ := List.exists_of_findSome?_eq_some h
  simp only [Option.bind_eq_bind, Option.bind_eq_some_iff] at hpattern
  obtain ⟨token, -, p, hp, hif⟩ := hpattern
  split at hif
  · exact ⟨token, p, hp, by simpa using hif.symm⟩
  · simp at hif

end Registry

variable (ns : String)

mutual

/-- Splicing a tree without tagged templates takes every payload out of the registry that it puts
into the tree, and no other. -/
theorem Node.splice_weight (hw : Node.Inherited w) (n : Node) (r : Registry) (hn : n.Untagged)
    (hr : r.tokens.Nodup) :
    w (n.splice ns r).1 + (n.splice ns r).2.weight w = r.weight w ∧
      (n.splice ns r).2.tokens.Nodup := by
  match n with
  | .mk kind mark fields =>
    rw [Node.splice]
    cases htake : r.take? ns (.mk kind mark fields) with
    | some taken =>
      obtain ⟨token, p, hp, rfl⟩ := Registry.take?_eq_some htake
      exact ⟨Registry.weight_erase hr hp, Registry.nodup_tokens_erase hr token⟩
    | none =>
      obtain ⟨hk, hf⟩ := (Node.untagged_mk_iff kind mark fields).mp hn
      obtain ⟨hs, hr'⟩ := Field.spliceList_weight hw fields r hf hr
      refine ⟨?_, hr'⟩
      rw [hw.plain hk]
      exact hs

theorem Field.spliceList_weight (hw : Node.Inherited w) (fields : List Field) (r : Registry)
    (hf : ∀ f ∈ fields, ∀ c ∈ f.nodes, c.Untagged) (hr : r.tokens.Nodup) :
    Node.total w ((Field.spliceList ns fields r).1.flatMap Field.nodes) +
        (Field.spliceList ns fields r).2.weight w = r.weight w ∧
      (Field.spliceList ns fields r).2.tokens.Nodup := by
  match fields with
  | [] => exact ⟨Nat.zero_add _, hr⟩
  | .node n :: rest =>
    obtain ⟨hn, hr₁⟩ := Node.splice_weight hw n r (hf (.node n) (by simp) n (by simp)) hr
    obtain ⟨hs, hr₂⟩ := Field.spliceList_weight hw rest (n.splice ns r).2
      (fun f hm => hf f (by simp [hm])) hr₁
    refine ⟨?_, hr₂⟩
    simp only [Field.spliceList, List.flatMap_cons, Field.nodes_node, Node.total_append,
      Node.total_cons, Node.total_nil]
    omega
  | .list ms :: rest =>
    obtain ⟨hn, hr₁⟩ := Node.spliceList_weight hw ms r (hf (.list ms) (by simp)) hr
    obtain ⟨hs, hr₂⟩ := Field.spliceList_weight hw rest (Node.spliceList ns ms r).2
      (fun f hm => hf f (by simp [hm])) hr₁
    refine ⟨?_, hr₂⟩
    simp only [Field.spliceList, List.flatMap_cons, Field.nodes_list, Node.total_append]
    omega
  | .text _ :: rest | .flag _ :: rest | .absent :: rest =>
    exact Field.spliceList_weight hw rest r (fun f hm => hf f (by simp [hm])) hr

theorem Node.spliceList_weight (hw : Node.Inherited w) (ms : List Node) (r : Registry)
    (hm : ∀ m ∈ ms, m.Untagged) (hr : r.tokens.Nodup) :
    Node.total w (Node.spliceList ns ms r).1 + (Node.spliceList ns ms r).2.weight w =
        r.weight w ∧
      (Node.spliceList ns ms r).2.tokens.Nodup := by
  match ms with
  | [] => exact ⟨Nat.zero_add _, hr⟩
  | m :: rest =>
    obtain ⟨hn, hr₁⟩ := Node.splice_weight hw m r (hm m (by simp)) hr
    obtain ⟨hs, hr₂⟩ := Node.spliceList_weight hw rest (m.splice ns r).2
      (fun k hk => hm k (by simp [hk])) hr₁
    refine ⟨?_, hr₂⟩
    simp only [Node.spliceList, Node.total_cons]
    omega

end

theorem Field.untagged_builderArgument (f : Field)
    (h : ∀ c ∈ f.nodes, (c.builderCall ns).Untagged) : (f.builderArgument ns).Untagged := by
  cases f with
  | node n => exact h n (by simp)
  | list ms => exact Node.untagged_array (by simpa using h)
  | text s => simp [Field.builderArgument, Node.stringLiteral, Node.untagged_plain_iff]
  | flag b => cases b <;> simp [Field.builderArgument, Node.boolean, Node.untagged_plain_iff]
  | absent =>
    simp [Field.builderArgument, Node.undefined, Node.identifier, Node.untagged_plain_iff]

theorem Node.untagged_builderCall (n : Node) : (n.builderCall ns).Untagged := by
  induction n using Node.inductionOnChildren with
  | h n ih =>
    cases n with
    | mk kind mark fields =>
      rw [Node.builderCall_mk]
      apply Node.untagged_factoryCall
      intro a ha
      obtain ⟨f, hf, rfl⟩ := List.mem_map.mp ha
      exact Field.untagged_builderArgument ns f fun c hc =>
        ih c (List.mem_flatMap.mpr ⟨f, hf, hc⟩)

theorem Node.untagged_synthesize (fragment : Node) : (fragment.synthesize ns).Untagged := by
  rw [Node.synthesize]
  split
  · exact Node.untagged_factoryCall ns .emptyStatement (by simp)
  · split <;> exact Node.untagged_builderCall ns _
  · rw [Node.builderCalls_eq_map]
    apply Node.untagged_array
    intro e he
    obtain ⟨m, -, rfl⟩ := List.mem_map.mp he
    exact Node.untagged_builderCall ns m

theorem Compilation.weight_payload (hw : Node.Inherited w) (c : Compilation) (substitution : Node) :
    w (c.payload substitution) = w substitution := by
  rw [Compilation.payload, hw.call]
  simp [hw.identifier]

theorem Fragment.addAll_weight (hw : Node.Inherited w) (c : Compilation) (literalText : String)
    (f : Fragment) (ids : IdSupply) (substitutions : List (Node × String))
    (hf : f.registry.tokens.Nodup) :
    (Fragment.addAll c literalText f ids substitutions).1.registry.weight w =
        f.registry.weight w + Node.total w (substitutions.map Prod.fst) ∧
      (Fragment.addAll c literalText f ids substitutions).1.registry.tokens.Nodup := by
  induction substitutions generalizing f ids with
  | nil => exact ⟨rfl, hf⟩
  | cons s rest ih =>
    obtain ⟨substitution, chunk⟩ := s
    have hfree := f.registry.isFree_freshToken literalText ids
    have hnew : f.registry.contains (f.registry.freshToken ids literalText).1 = false := by
      simp only [Registry.isFree, Bool.and_eq_true, Bool.not_eq_true'] at hfree
      exact hfree.1
    have hadd : (f.add c literalText ids substitution chunk).1.registry.weight w =
        f.registry.weight w + w substitution := by
      rw [← c.weight_payload hw substitution]
      exact Registry.weight_insert hnew _
    have hnodup : (f.add c literalText ids substitution chunk).1.registry.tokens.Nodup :=
      Registry.nodup_tokens_insert hf _ _
    obtain ⟨hrest, hrest'⟩ := ih (f.add c literalText ids substitution chunk).1
      (f.add c literalText ids substitution chunk).2 hnodup
    refine ⟨?_, hrest'⟩
    rw [Fragment.addAll, hrest, hadd]
    simp [Nat.add_assoc]

theorem Registry.weight_eq_zero_of_unspliced {r : Registry} (h : r.unspliced = []) :
    r.weight w = 0 := by
  have hl : r.entries.length = 0 := by
    have hs : r.entries.mergeSort (fun a b => a.2.notAfter b.2) = [] := by
      simpa [Registry.unspliced, Registry.remaining] using h
    rw [← List.length_mergeSort r.entries, hs, List.length_nil]
  simp [Registry.weight, List.length_eq_zero_iff.mp hl]

/-- What an expansion weighs is what the substitutions weigh that it could place. -/
theorem Fragment.expand_weight (hw : Node.Inherited w) {f : Fragment} {e : Expansion}
    (hf : f.registry.tokens.Nodup) (h : f.expand ns = .ok e) :
    w e.tree ≤ f.registry.weight w ∧ (e.mismatches = [] → w e.tree = f.registry.weight w) := by
  rw [Fragment.expand] at h
  split at h
  · simp at h
  · next tree _ =>
    obtain ⟨hs, -⟩ := Node.splice_weight ns hw (tree.synthesize ns) f.registry
      (Node.untagged_synthesize ns tree) hf
    obtain rfl := Except.ok.inj h
    refine ⟨by simp only; omega, fun hm => ?_⟩
    have hz := Registry.weight_eq_zero_of_unspliced (w := w) hm
    simp only
    omega

theorem Compilation.compileTemplate_weight (hw : Node.Inherited w) {c : Compilation}
    {template : Node} {ids ids' : IdSupply} {f : Fragment}
    (h : c.compileTemplate template ids = (some f, ids')) :
    f.registry.weight w =
        Node.total w ((TemplateParts.ofTemplate template).substitutions.map Prod.fst) ∧
      f.registry.tokens.Nodup := by
  unfold Compilation.compileTemplate at h
  dsimp only at h
  split at h
  · cases h
  · obtain ⟨hweight, hnodup⟩ := Fragment.addAll_weight hw c
      (TemplateParts.ofTemplate template).literalText
      { source := (TemplateParts.ofTemplate template).head } ids
      (TemplateParts.ofTemplate template).substitutions List.nodup_nil
    have hzero : Registry.weight w {} = 0 := rfl
    rw [hzero, Nat.zero_add] at hweight
    cases h
    exact ⟨hweight, hnodup⟩

theorem Compilation.substitutions_of_compileTemplate {c : Compilation} {template : Node}
    {ids ids' : IdSupply} (h : c.compileTemplate template ids = (none, ids')) :
    (TemplateParts.ofTemplate template).substitutions = [] := by
  unfold Compilation.compileTemplate at h
  dsimp only at h
  split at h
  · next hempty =>
    simp only [TemplateParts.isEmpty, Bool.and_eq_true, List.isEmpty_iff] at hempty
    exact hempty.1
  · cases h

theorem Compilation.expandTemplate_weight (hw : Node.Inherited w) {c : Compilation}
    {template : Node} {ids ids' : IdSupply} {e : Expansion}
    (h : c.expandTemplate template ids = (.ok e, ids')) :
    let substitutions := (TemplateParts.ofTemplate template).substitutions.map Prod.fst
    w e.tree ≤ Node.total w substitutions ∧
      (e.mismatches = [] → w e.tree = Node.total w substitutions) := by
  intro substitutions
  unfold Compilation.expandTemplate at h
  split at h
  · next hnone =>
    have hsubs : substitutions = [] := by
      simp [substitutions, c.substitutions_of_compileTemplate hnone]
    have htree : w (.factoryCall c.options.factoryNamespace .emptyStatement []) = 0 :=
      hw.factoryCall _ _ []
    simp only [Prod.mk.injEq, Except.ok.injEq] at h
    obtain ⟨rfl, -⟩ := h
    simp [hsubs, htree]
  · next f _ hsome =>
    obtain ⟨hweight, hnodup⟩ := c.compileTemplate_weight hw hsome
    have hexpand := Fragment.expand_weight c.options.factoryNamespace hw hnodup
      (congrArg Prod.fst h)
    rwa [hweight] at hexpand

end Quasiquote
