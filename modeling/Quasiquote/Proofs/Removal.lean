import Mathlib.Logic.Relation
import Quasiquote.Proofs.Exposure
import Quasiquote.Proofs.Traversal

namespace Quasiquote

def Progress.Matched (s : Progress) : Prop :=
  ∀ d ∈ s.diagnostics, d.kind ≠ .unsplicedSubstitution

namespace Node

def Templated (n : Node) : Prop :=
  ∀ m ∈ n.preorder, m.kind = .taggedTemplateExpression → (m.child? .template).isSome

theorem Conforms.templated {n : Node} (h : n.Conforms) : n.Templated := by
  intro m hm hk
  obtain ⟨kind, mark, fields⟩ := m
  obtain rfl : kind = .taggedTemplateExpression := hk
  have hf := (checkFields_eq_ok_iff _ _).mp (h _ hm)
  simp only [Node.kind, Node.fields, Kind.schema, List.forall₂_cons_left_iff,
    List.forall₂_nil_left_iff, Field.fits_node_iff, Field.fits_list_iff] at hf
  obtain ⟨_, _, ⟨tag, rfl⟩, ⟨_, _, ⟨arguments, rfl⟩, ⟨_, _, ⟨template, rfl⟩, rfl, rfl⟩, rfl⟩,
    rfl⟩ := hf
  rfl

def isUntemplated (m : Node) : Bool :=
  m.kind = .taggedTemplateExpression && (m.child? .template).isNone

theorem templated_iff (n : Node) : n.Templated ↔ n.preorder.countP isUntemplated = 0 := by
  simp [Templated, isUntemplated, List.countP_eq_zero, ← Option.isSome_iff_ne_none]

theorem Templated.of_mem_preorder {n c : Node} (h : n.Templated) (hc : c ∈ n.preorder) :
    c.Templated := fun m hm =>
  h m ((preorder_sublist_of_mem_preorder hc).subset hm)

theorem Templated.of_mem_children {n c : Node} (h : n.Templated) (hc : c ∈ n.children) :
    c.Templated :=
  h.of_mem_preorder (mem_preorder_of_mem_children hc)

end Node

namespace FilePass

variable {p : FilePass}

def isUseSite (p : FilePass) : Node → Bool :=
  p.compilation.model.isUseSite p.imports

theorem kind_of_isUseSite {n : Node} (h : p.isUseSite n = true) :
    n.kind = .taggedTemplateExpression := by
  simp only [isUseSite, Model.isUseSite, Bool.and_eq_true, decide_eq_true_eq] at h
  exact h.1

theorem isUseSite_of_no_import (h : p.imports = []) (m : Node) : p.isUseSite m = false := by
  refine Bool.eq_false_iff.mpr fun hs => ?_
  simp [isUseSite, Model.isUseSite, h, Option.any_eq_true] at hs

@[simp] theorem outcome_conclude_ok (site : Node) (e : Expansion) (ids : IdSupply) (s : Progress) :
    Pass.outcome (p.conclude site (.ok e, ids)) s = (.ok ((p.assemble e.tree).withSpan site.span),
      ⟨ids, s.diagnostics ++ p.diagnostics e, s.expansions + 1⟩) := rfl

@[simp] theorem outcome_conclude_error (site : Node) (e : FragmentError) (ids : IdSupply)
    (s : Progress) : Pass.outcome (p.conclude site (.error e, ids)) s =
      (.error ⟨.invalidFragment e.fragment e.error, p.file.name, some (p.location site.span)⟩,
        { s with ids }) := rfl

theorem outcome_expandSite {site template : Node} (s : Progress)
    (ht : site.child? .template = some template) : Pass.outcome (p.expandSite site) s =
      Pass.outcome (p.conclude site (p.compilation.expandTemplate template s.ids)) s := by
  simp only [expandSite, ht, Pass.outcome_bind, Pass.outcome_get]

theorem expandSite_yields {site template r : Node} {s s' : Progress}
    (ht : site.child? .template = some template) (h : Pass.Yields (p.expandSite site) s r s') :
    ∃ e ids, p.compilation.expandTemplate template s.ids = (.ok e, ids) ∧
      r = (p.assemble e.tree).withSpan site.span ∧
      s' = ⟨ids, s.diagnostics ++ p.diagnostics e, s.expansions + 1⟩ := by
  rw [Pass.Yields, outcome_expandSite s ht] at h
  rcases hx : p.compilation.expandTemplate template s.ids with ⟨_ | e, ids⟩
  · simp [hx] at h
  · simp only [hx, outcome_conclude_ok, Prod.mk.injEq, Except.ok.injEq] at h
    exact ⟨e, ids, rfl, h.1.symm, h.2.symm⟩

theorem mismatches_eq_nil {e : Expansion}
    (h : ∀ d ∈ p.diagnostics e, d.kind ≠ .unsplicedSubstitution) : e.mismatches = [] := by
  cases hm : e.mismatches with
  | nil => rfl
  | cons u us =>
    have hu := h (.warning .unsplicedSubstitution u.message (p.location u.span))
      (by simp [diagnostics, hm])
    exact absurd rfl hu

section

variable {w : Node → Nat} {site r : Node} {s s' : Progress}

/-- A replacement weighs what its body weighs. -/
theorem weight_assemble (hw : Node.Inherited w) (tree : Node) (span : Option Span) :
    w ((p.assemble tree).withSpan span) = w tree := by
  have hparameter (name : String) : w (.parameter name) = 0 := by
    simp [Node.parameter, hw.plain, hw.identifier]
  have hconst (name : String) (e : Node) : w (.constStatement name e) = w e := by
    simp [Node.constStatement, hw.plain, hw.identifier]
  have hblock (a b : Node) : w (.block [a, .returnStatement (some b)]) = w a + w b := by
    simp [Node.block, Node.returnStatement, hw.plain, Field.ofOption]
  have harrow (name : String) (body : Node) :
      w ((Node.arrowFunction [.parameter name] body).withSpan span) = w body := by
    have hkind : ((Node.arrowFunction [.parameter name] body).withSpan span).kind ≠
        .taggedTemplateExpression := by
      simp [Node.withSpan, Node.arrowFunction, Node.plain, Node.kind]
    rw [hw _ rfl hkind]
    simp [Node.withSpan, Node.arrowFunction, Node.plain, Node.children, Node.fields, hparameter]
  rw [assemble, harrow]
  cases p.options.moduleFormat with
  | esModule => rfl
  | commonJs => simp [hblock, hconst, hw.call, hw.identifier, hw.stringLiteral]

/-- What replaces a template weighs what its substitutions weigh, unless one of them was not
spliced. -/
theorem expandSite_weight (hw : Node.Inherited w) {template : Node}
    (ht : site.child? .template = some template) (h : Pass.Yields (p.expandSite site) s r s') :
    w r ≤ Node.total w site.substitutions ∧
      (s'.Matched → w r = Node.total w site.substitutions) := by
  obtain ⟨e, ids, he, rfl, rfl⟩ := expandSite_yields ht h
  obtain ⟨hle, heq⟩ := p.compilation.expandTemplate_weight hw he
  rw [weight_assemble hw, Node.substitutions, ht]
  refine ⟨hle, fun hm => heq (mismatches_eq_nil (p := p) ?_)⟩
  intro d hd
  exact hm d (List.mem_append_right _ hd)

theorem expandSite_countP_le {q : Node → Bool}
    (hq : ∀ n, q n = true → n.kind = .taggedTemplateExpression) {template : Node}
    (ht : site.child? .template = some template) (h : Pass.Yields (p.expandSite site) s r s') :
    r.preorder.countP q ≤ (site.children.flatMap Node.preorder).countP q :=
  calc r.preorder.countP q
    _ ≤ Node.total (fun n => n.preorder.countP q) site.substitutions :=
      (expandSite_weight (Node.countP_preorder_additive hq).inherited ht h).1
    _ = (site.substitutions.flatMap Node.preorder).countP q := Node.total_countP_preorder q _
    _ ≤ (site.children.flatMap Node.preorder).countP q :=
      (Node.substitutions_sublist site).countP_le

theorem expandSite_id? {template : Node} (ht : site.child? .template = some template)
    (h : Pass.Yields (p.expandSite site) s r s') : r.id? = none := by
  obtain ⟨e, ids, -, rfl, -⟩ := expandSite_yields ht h
  rfl

theorem exists_template {n : Node} (hn : n.Templated) (hs : p.isUseSite n = true) :
    ∃ template, n.child? .template = some template :=
  Option.isSome_iff_exists.mp (hn n n.self_mem_preorder (kind_of_isUseSite hs))

theorem templated_of_expandSite (hn : site.Templated) (hs : p.isUseSite site = true)
    (h : Pass.Yields (p.expandSite site) s r s') : r.Templated := by
  obtain ⟨template, ht⟩ := exists_template hn hs
  have hle := expandSite_countP_le (q := Node.isUntemplated)
    (fun n hn => by simp_all [Node.isUntemplated]) ht h
  have hsite := (Node.flatMap_children_sublist site).countP_le (p := Node.isUntemplated)
  rw [(Node.templated_iff site).mp hn] at hsite
  exact (Node.templated_iff r).mpr (by omega)

/-- A replacement holds fewer templates than what it replaces. -/
theorem nestingBound_expandSite (hn : site.Templated) (hs : p.isUseSite site = true)
    (h : Pass.Yields (p.expandSite site) s r s') : nestingBound r < nestingBound site := by
  obtain ⟨template, ht⟩ := exists_template hn hs
  have hle := expandSite_countP_le (fun n => of_decide_eq_true) ht h
  have hkind := kind_of_isUseSite hs
  rw [nestingBound, nestingBound, Node.preorder_eq site, List.countP_cons_of_pos (by simp [hkind])]
  exact Nat.lt_succ_of_le hle

end

/-- Expanding one node calls for expanding another: what replaces a use site, or a child of any
other node. -/
inductive Calls (p : FilePass) (n : Node) : Node → Prop
  | replacement {s s' : Progress} {r : Node} (hs : p.isUseSite n = true)
      (h : Pass.Yields (p.expandSite n) s r s') : Calls p n r
  | child {c : Node} (hs : p.isUseSite n = false) (h : c ∈ n.children) : Calls p n c

theorem Calls.templated {n m : Node} (h : p.Calls n m) (hn : n.Templated) : m.Templated := by
  cases h with
  | replacement hs h => exact templated_of_expandSite hn hs h
  | child hs h => exact hn.of_mem_children h

theorem nestingBound_le_of_mem_preorder {n m : Node} (h : m ∈ n.preorder) :
    nestingBound m ≤ nestingBound n :=
  (Node.preorder_sublist_of_mem_preorder h).countP_le

/-- The calls below a node come to an end: a replacement holds fewer templates, and a child is
smaller. -/
theorem acc_calls {n : Node} (hn : n.Templated) : Acc (fun m n => p.Calls n m) n := by
  induction hb : nestingBound n using Nat.strongRecOn generalizing n with
  | ind b ihb =>
    induction n using Node.inductionOnChildren with
    | h n ihn =>
      refine Acc.intro n fun m hm => ?_
      cases hm with
      | replacement hs h =>
        have hlt := nestingBound_expandSite hn hs h
        exact ihb _ (hb ▸ hlt) (templated_of_expandSite hn hs h) rfl
      | child hs hc =>
        have hle : nestingBound m ≤ b :=
          hb ▸ nestingBound_le_of_mem_preorder (Node.mem_preorder_of_mem_children hc)
        rcases Nat.lt_or_eq_of_le hle with hlt | heq
        · exact ihb _ hlt (hn.of_mem_children hc) rfl
        · exact ihn m hc (hn.of_mem_children hc) heq

theorem not_isUseSite_of_nestingBound {n : Node} (h : nestingBound n = 0) :
    ∀ m ∈ n.preorder, p.isUseSite m = false := by
  intro m hm
  have hkind := List.countP_eq_zero.mp h m hm
  exact Bool.eq_false_iff.mpr fun hs => hkind (by simp [kind_of_isUseSite hs])

theorem expandWithin_of_nestingBound {n : Node} (h : nestingBound n = 0) (depth : Nat) :
    p.expandWithin depth n = pure n := by
  cases depth with
  | zero => rfl
  | succ depth => exact Node.replaceM_of_none _ _ (not_isUseSite_of_nestingBound h)

/-- More depth than there are templates changes nothing. -/
theorem expandWithin_stable {n : Node} (hn : n.Templated) {depth depth' : Nat}
    (hd : nestingBound n ≤ depth) (hd' : nestingBound n ≤ depth') :
    p.expandWithin depth n = p.expandWithin depth' n := by
  induction depth generalizing n depth' with
  | zero =>
    have hzero := Nat.le_zero.mp hd
    rw [expandWithin_of_nestingBound hzero, expandWithin_of_nestingBound hzero]
  | succ depth ih =>
    cases depth' with
    | zero =>
      have hzero := Nat.le_zero.mp hd'
      rw [expandWithin_of_nestingBound hzero, expandWithin_of_nestingBound hzero]
    | succ depth' =>
      refine Node.replaceM_congr _ _ fun site hsite hs => ?_
      refine Pass.bind_congr_of_yields fun s r s' h => ?_
      have hsn : site.Templated := hn.of_mem_preorder hsite
      have hlt := nestingBound_expandSite hsn hs h
      have hle := nestingBound_le_of_mem_preorder hsite
      exact ih (templated_of_expandSite hsn hs h) (by omega) (by omega)

/-- Expanding a use site expands what replaces it, and expanding any other node expands its
children. -/
theorem expandAll_eq {n : Node} (hn : n.Templated) : p.expandAll n =
    if p.isUseSite n then p.expandSite n >>= p.expandAll else n.mapChildrenM p.expandAll := by
  have hdepth : p.expandAll n = p.expandWithin (nestingBound n + 1) n :=
    expandWithin_stable hn (Nat.le_refl _) (Nat.le_succ _)
  rw [hdepth, expandWithin, Node.replaceM_eq]
  change (if p.isUseSite n then _ else _) = _
  split
  · next hs =>
    refine Pass.bind_congr_of_yields fun s r s' h => ?_
    have hlt := nestingBound_expandSite hn hs h
    exact expandWithin_stable (templated_of_expandSite hn hs h) (Nat.le_of_lt hlt) (Nat.le_refl _)
  · apply Node.mapChildrenM_congr
    intro c hc
    have hle := nestingBound_le_of_mem_preorder (Node.mem_preorder_of_mem_children hc)
    have hle' : nestingBound c ≤ nestingBound n + 1 := Nat.le_succ_of_le hle
    exact expandWithin_stable (hn.of_mem_children hc) hle' (Nat.le_refl _)

def demand (p : FilePass) (n : Node) : Nat :=
  (n.exposed p.isUseSite).length

theorem demand_additive (p : FilePass) : Node.Additive p.demand :=
  Node.length_exposed_additive fun _ => kind_of_isUseSite

/-- Trees without use sites take the place of others, and each use site that the run came to counts
once. -/
structure Clears (p : FilePass) (ns : List Node) (s : Progress) (ns' : List Node)
    (s' : Progress) : Prop where
  cleared : ∀ n' ∈ ns', ∀ m ∈ n'.preorder, p.isUseSite m = false
  matched : s'.Matched → s.Matched
  bounded : s'.expansions ≤ s.expansions + Node.total p.demand ns
  exact : s'.Matched → s'.expansions = s.expansions + Node.total p.demand ns

theorem Clears.nil (s : Progress) : p.Clears [] s [] s where
  cleared := by simp
  matched := id
  bounded := Nat.le_refl _
  exact _ := rfl

theorem Clears.append {ns ns' ms ms' : List Node} {s t s' : Progress} (h : p.Clears ns s ns' t)
    (h' : p.Clears ms t ms' s') : p.Clears (ns ++ ms) s (ns' ++ ms') s' where
  cleared n' hn' := (List.mem_append.mp hn').elim (h.cleared n') (h'.cleared n')
  matched hm := h.matched (h'.matched hm)
  bounded := by
    have h₁ := h.bounded
    have h₂ := h'.bounded
    rw [Node.total_append]
    omega
  exact hm := by
    have h₁ := h.exact (h'.matched hm)
    have h₂ := h'.exact hm
    rw [Node.total_append]
    omega

def Follows (n n' : Node) : Prop :=
  n'.id? = n.id? ∨ n'.id? = none

def FieldFollows (f f' : Field) : Prop :=
  ∀ c', f'.node? = some c' → ∃ c, f.node? = some c ∧ Follows c c'

theorem child?_follows {kind : Kind} {mark : Mark} {fields fields' : List Field}
    (hf : List.Forall₂ FieldFollows fields fields') {l : Label} {c' : Node}
    (hc : (Node.mk kind mark fields').child? l = some c') :
    ∃ c, (Node.mk kind mark fields).child? l = some c ∧ Follows c c' := by
  obtain ⟨f', hf', hnode⟩ := Option.bind_eq_some_iff.mp hc
  obtain ⟨i, hi, hget⟩ := Option.bind_eq_some_iff.mp hf'
  obtain ⟨hlt', rfl⟩ := List.getElem?_eq_some_iff.mp hget
  have hlt : i < fields.length := hf.length_eq ▸ hlt'
  obtain ⟨c, hc, hfollows⟩ := (List.forall₂_iff_get.mp hf).2 i hlt hlt' c' hnode
  have hfield : (Node.mk kind mark fields).field? l = some (fields.get ⟨i, hlt⟩) :=
    Option.bind_eq_some_iff.mpr ⟨i, hi, List.getElem?_eq_getElem hlt⟩
  exact ⟨c, Option.bind_eq_some_iff.mpr ⟨_, hfield, hc⟩, hfollows⟩

/-- A node that is no use site does not become one when its tag changes. -/
theorem isUseSite_of_follows {kind : Kind} {mark : Mark} {fields fields' : List Field}
    (hs : p.isUseSite (.mk kind mark fields) = false)
    (hf : List.Forall₂ FieldFollows fields fields') :
    p.isUseSite (.mk kind mark fields') = false := by
  refine Bool.eq_false_iff.mpr fun hs' => Bool.eq_false_iff.mp hs ?_
  simp only [isUseSite, Model.isUseSite, Bool.and_eq_true, Option.any_eq_true] at hs' ⊢
  obtain ⟨hk, symbol, hsymbol, hany⟩ := hs'
  obtain ⟨c', hc', hresolve⟩ := Option.bind_eq_some_iff.mp hsymbol
  obtain ⟨c, hc, hid⟩ := child?_follows hf hc'
  refine ⟨hk, symbol, Option.bind_eq_some_iff.mpr ⟨c, hc, ?_⟩, hany⟩
  rcases hid with hid | hid
  · rwa [Model.resolve?, ← hid]
  · simp [Model.resolve?, hid] at hresolve

/-- The step at a use site. -/
theorem clears_expandSite {n r n' : Node} {s t s' : Progress} (hn : n.Templated)
    (hs : p.isUseSite n = true) (hr : Pass.Yields (p.expandSite n) s r t)
    (h : p.Clears [r] t [n'] s') : p.Clears [n] s [n'] s' := by
  obtain ⟨template, ht⟩ := exists_template hn hs
  obtain ⟨hle, heq⟩ := expandSite_weight p.demand_additive.inherited ht hr
  have hdemand : p.demand n = 1 + Node.total p.demand n.substitutions := by
    rw [demand, Node.exposed_of_selected hs, List.length_cons, ← Node.total_length]
    exact Nat.add_comm _ 1
  have hone (k : Node) : Node.total p.demand [k] = p.demand k := rfl
  obtain ⟨e, ids, -, -, rfl⟩ := expandSite_yields ht hr
  refine ⟨h.cleared, fun hm d hd => h.matched hm d (List.mem_append_left _ hd), ?_, fun hm => ?_⟩
  · have hb := h.bounded
    simp only [hone] at hb ⊢
    omega
  · have he := h.exact hm
    have hw := heq (h.matched hm)
    simp only [hone] at he ⊢
    omega

section

variable {f : Node → Pass Node}

def ClearsBy (p : FilePass) (f : Node → Pass Node) (n : Node) : Prop :=
  ∀ s n' s', Pass.Yields (f n) s n' s' → p.Clears [n] s [n'] s' ∧ Follows n n'

theorem clears_mapM {ns ns' : List Node} {s s' : Progress} (hf : ∀ n ∈ ns, p.ClearsBy f n)
    (h : Pass.Yields (ns.mapM f) s ns' s') : p.Clears ns s ns' s' := by
  refine Pass.mapM_yields Clears.nil ?_ h
  intro n hn rest s n' t rest' s' hyields hrest
  exact (hf n hn s n' t hyields).1.append hrest

theorem clears_mapNodesM {field field' : Field} {s s' : Progress}
    (hf : ∀ n ∈ field.nodes, p.ClearsBy f n) (h : Pass.Yields (field.mapNodesM f) s field' s') :
    p.Clears field.nodes s field'.nodes s' ∧ FieldFollows field field' := by
  cases field with
  | node c =>
    obtain ⟨c', hc', rfl⟩ := Pass.yields_map_iff.mp h
    obtain ⟨hclears, hid⟩ := hf c (by simp) s c' s' hc'
    refine ⟨hclears, ?_⟩
    rintro _ ⟨⟩
    exact ⟨c, rfl, hid⟩
  | list cs =>
    obtain ⟨cs', hcs', rfl⟩ := Pass.yields_map_iff.mp h
    exact ⟨clears_mapM hf hcs', by rintro _ ⟨⟩⟩
  | text | flag | absent =>
    obtain ⟨rfl, rfl⟩ := Pass.yields_pure_iff.mp h
    exact ⟨Clears.nil s, by rintro _ ⟨⟩⟩

/-- The step at a node that is no use site. -/
theorem clears_mapChildrenM {n n' : Node} {s s' : Progress} (hs : p.isUseSite n = false)
    (hf : ∀ c ∈ n.children, p.ClearsBy f c) (h : Pass.Yields (n.mapChildrenM f) s n' s') :
    p.Clears [n] s [n'] s' ∧ n'.id? = n.id? := by
  obtain ⟨kind, mark, fields⟩ := n
  rw [Node.mapChildrenM_eq] at h
  obtain ⟨fields', t, hfields, h⟩ := Pass.yields_bind_iff.mp h
  obtain ⟨rfl, rfl⟩ := Pass.yields_pure_iff.mp h
  obtain ⟨hclears, hfollows⟩ :
      p.Clears (fields.flatMap Field.nodes) s (fields'.flatMap Field.nodes) t ∧
        List.Forall₂ FieldFollows fields fields' := by
    refine Pass.mapM_yields (R := fun fs s fs' s' =>
      p.Clears (fs.flatMap Field.nodes) s (fs'.flatMap Field.nodes) s' ∧
        List.Forall₂ FieldFollows fs fs') (fun s => ⟨Clears.nil s, .nil⟩) ?_ hfields
    rintro field hfield rest s field' t rest' s' hstep ⟨hrest, hfollows⟩
    obtain ⟨hone, hone'⟩ := clears_mapNodesM
      (fun c hc => hf c (List.mem_flatMap.mpr ⟨field, hfield, hc⟩)) hstep
    exact ⟨hone.append hrest, .cons hone' hfollows⟩
  have hdemand : Node.total p.demand [.mk kind mark fields] =
      Node.total p.demand (fields.flatMap Field.nodes) := by
    change p.demand _ = _
    rw [demand, Node.exposed_of_not_selected hs, ← Node.total_length]
    rfl
  refine ⟨⟨?_, hclears.matched, ?_, ?_⟩, rfl⟩
  · intro n' hn' m hm
    obtain rfl := List.mem_singleton.mp hn'
    rw [Node.preorder_eq] at hm
    rcases List.mem_cons.mp hm with rfl | hm
    · exact isUseSite_of_follows hs hfollows
    · obtain ⟨c, hc, hm⟩ := List.mem_flatMap.mp hm
      exact hclears.cleared c hc m hm
  · rw [hdemand]
    exact hclears.bounded
  · rw [hdemand]
    exact hclears.exact

end

/-- A run over a tree clears it. -/
theorem expandAll_clears {n n' : Node} {s s' : Progress} (hn : n.Templated)
    (h : Pass.Yields (p.expandAll n) s n' s') : p.Clears [n] s [n'] s' ∧ Follows n n' := by
  induction acc_calls (p := p) hn generalizing s n' s' with
  | intro n _ ih =>
    rw [expandAll_eq hn] at h
    split at h
    · next hs =>
      obtain ⟨r, t, hr, h⟩ := Pass.yields_bind_iff.mp h
      obtain ⟨hclears, hfollows⟩ := ih r (.replacement hs hr) (templated_of_expandSite hn hs hr) h
      refine ⟨clears_expandSite hn hs hr hclears, .inr ?_⟩
      obtain ⟨template, ht⟩ := exists_template hn hs
      exact hfollows.elim (fun hid => hid.trans (expandSite_id? ht hr)) id
    · next hs =>
      have hs' : p.isUseSite n = false := Bool.eq_false_iff.mpr hs
      obtain ⟨hclears, hid⟩ := clears_mapChildrenM hs'
        (fun c hc _ _ _ hc' => ih c (.child hs' hc) (hn.of_mem_children hc) hc') h
      exact ⟨hclears, .inl hid⟩

theorem withFactoryImport_yields {tree tree' : Node} {s s' : Progress}
    (h : Pass.Yields (p.withFactoryImport tree) s tree' s') :
    s'.expansions = s.expansions ∧ (s'.Matched → s.Matched) ∧
      (tree' = tree ∨ p.namespaceDeclaration? = none ∧ tree' = tree.withField .statements
        (.list (.defaultImport p.options.factoryNamespace p.options.factoryModule ::
          tree.list .statements))) := by
  simp only [withFactoryImport, Pass.Yields, Pass.outcome_bind, Pass.outcome_get] at h
  split at h
  · obtain ⟨rfl, rfl⟩ := Pass.yields_pure_iff.mp h
    exact ⟨rfl, id, .inl rfl⟩
  · split at h
    · next hnone =>
      obtain ⟨rfl, rfl⟩ := Pass.yields_pure_iff.mp h
      exact ⟨rfl, id, .inr ⟨hnone, rfl⟩⟩
    · split at h
      · obtain ⟨rfl, rfl⟩ := Pass.yields_pure_iff.mp h
        exact ⟨rfl, id, .inl rfl⟩
      · obtain ⟨_, t, hwarn, h⟩ := Pass.yields_bind_iff.mp h
        obtain ⟨rfl, rfl⟩ := Pass.yields_pure_iff.mp h
        simp only [Pass.Yields, Pass.outcome_modify, Prod.mk.injEq] at hwarn
        obtain ⟨-, rfl⟩ := hwarn
        exact ⟨rfl, fun hm d hd => hm d (List.mem_append_left _ hd), .inl rfl⟩

theorem kind_withField (n : Node) (l : Label) (value : Field) :
    (n.withField l value).kind = n.kind := by
  unfold Node.withField
  split <;> rfl

theorem mem_children_withField {n c : Node} {l : Label} {value : Field}
    (h : c ∈ (n.withField l value).children) : c ∈ n.children ∨ c ∈ value.nodes := by
  unfold Node.withField at h
  split at h
  · obtain ⟨f, hf, hc⟩ := List.mem_flatMap.mp h
    rcases List.mem_or_eq_of_mem_set hf with hf | rfl
    · exact .inl (List.mem_flatMap.mpr ⟨f, hf, hc⟩)
    · exact .inr hc
  · exact .inl h

/-- A template has no statements to change. -/
theorem withField_statements_of_tagged {n : Node} (h : n.kind = .taggedTemplateExpression)
    (value : Field) : n.withField .statements value = n := by
  have hindex : n.kind.fieldIndex? .statements = none := by rw [h]; rfl
  rw [Node.withField, hindex]

theorem not_isUseSite_withFactoryImport {tree tree' : Node} {s s' : Progress}
    (ht : ∀ m ∈ tree.preorder, p.isUseSite m = false)
    (h : Pass.Yields (p.withFactoryImport tree) s tree' s') :
    ∀ m ∈ tree'.preorder, p.isUseSite m = false := by
  have hkind {m : Node} (hm : m.kind ≠ .taggedTemplateExpression) : p.isUseSite m = false :=
    Bool.eq_false_iff.mpr fun hs => hm (kind_of_isUseSite hs)
  have hchild {c m : Node} (hc : c ∈ tree.children) (hm : m ∈ c.preorder) :
      p.isUseSite m = false :=
    ht m ((Node.preorder_sublist_of_mem_preorder (Node.mem_preorder_of_mem_children hc)).subset hm)
  obtain ⟨-, -, rfl | ⟨-, rfl⟩⟩ := withFactoryImport_yields h
  · exact ht
  by_cases htree : tree.kind = .taggedTemplateExpression
  · rwa [withField_statements_of_tagged htree]
  intro m hm
  rw [Node.preorder_eq] at hm
  rcases List.mem_cons.mp hm with rfl | hm
  · exact hkind (by rwa [kind_withField])
  · obtain ⟨c, hc, hm⟩ := List.mem_flatMap.mp hm
    rcases mem_children_withField hc with hc | hc
    · exact hchild hc hm
    · rcases List.mem_cons.mp hc with rfl | hc
      · have himport : (Node.defaultImport p.options.factoryNamespace
            p.options.factoryModule).Untagged := by
          simp [Node.defaultImport, Node.identifier, Node.stringLiteral, Node.untagged_plain_iff]
        exact hkind (himport m hm)
      · exact hchild (Node.mem_children_of_mem_list hc) hm

end FilePass

namespace Compilation

variable {c : Compilation} {file : SourceFile} {ids ids' : IdSupply} {out : ExpandedFile}

def Expands (c : Compilation) (file : SourceFile) (imports : List Node) (ids : IdSupply)
    (out : ExpandedFile) : Prop :=
  imports = [] ∧ out = { tree := file.tree } ∨ ∃ tree s s',
    Pass.Yields (FilePass.expandAll ⟨c, file, imports⟩ file.tree) { ids } tree s ∧
    Pass.Yields (FilePass.withFactoryImport ⟨c, file, imports⟩ tree) s out.tree s' ∧
    out.diagnostics = s'.diagnostics ∧ out.expansions = s'.expansions

theorem expandFile_yields (h : c.expandFile file ids = (.ok out, ids')) :
    ∃ imports, tagImports file.tree c.options.moduleSpecifier = .ok imports ∧
      c.Expands file imports ids out := by
  unfold expandFile at h
  generalize tagImports file.tree c.options.moduleSpecifier = found at h ⊢
  match found, h with
  | .ok [], h =>
    simp only [Prod.mk.injEq, Except.ok.injEq] at h
    exact ⟨[], rfl, .inl ⟨rfl, h.1.symm⟩⟩
  | .ok (statement :: rest), h =>
    refine ⟨statement :: rest, rfl, .inr ?_⟩
    dsimp only at h
    split at h
    · next tree' s' hrun =>
      obtain ⟨tree, s, htree, htree'⟩ := Pass.yields_bind_iff.mp hrun
      simp only [Prod.mk.injEq, Except.ok.injEq] at h
      obtain ⟨rfl, -⟩ := h
      exact ⟨tree, s, s', htree, htree', rfl, rfl⟩
    · simp at h

theorem expandFile_counts {imports : List Node} (ht : file.tree.Templated)
    (h : c.Expands file imports ids out) :
    let p : FilePass := ⟨c, file, imports⟩
    (∀ m ∈ out.tree.preorder, p.isUseSite m = false) ∧
      out.expansions ≤ (file.tree.exposed p.isUseSite).length ∧
      ((∀ d ∈ out.diagnostics, d.kind ≠ .unsplicedSubstitution) →
        out.expansions = (file.tree.exposed p.isUseSite).length) := by
  intro p
  rcases h with ⟨rfl, rfl⟩ | ⟨tree, s, s', htree, himport, hdiagnostics, hexpansions⟩
  · have hnone (m : Node) : p.isUseSite m = false := FilePass.isUseSite_of_no_import rfl m
    have hexposed : (file.tree.exposed p.isUseSite).length = 0 := by
      have hfilter : file.tree.preorder.filter p.isUseSite = [] := by
        simp [List.filter_eq_nil_iff, hnone]
      have hle := (Node.exposed_sublist p.isUseSite file.tree).length_le
      rw [hfilter] at hle
      exact Nat.le_zero.mp hle
    exact ⟨fun m _ => hnone m, Nat.zero_le _, fun _ => hexposed.symm⟩
  · obtain ⟨hclears, -⟩ := FilePass.expandAll_clears ht htree
    obtain ⟨hsame, hmatched, -⟩ := FilePass.withFactoryImport_yields himport
    have hcleared := hclears.cleared tree (List.mem_singleton.mpr rfl)
    refine ⟨FilePass.not_isUseSite_withFactoryImport hcleared himport, ?_, fun hm => ?_⟩
    · have hbounded : s.expansions ≤ 0 + (file.tree.exposed p.isUseSite).length := hclears.bounded
      omega
    · have hmatched' : s'.Matched := by rwa [Progress.Matched, ← hdiagnostics]
      have hexact : s.expansions = 0 + (file.tree.exposed p.isUseSite).length :=
        hclears.exact (hmatched hmatched')
      omega

/-- Expanding a file comes to an end, leaves no use site, and counts each use site at most once.
When every substitution was spliced, it counts exactly the use sites that lie in a substitution of
every use site around them. -/
theorem expandFile_removes_use_sites (hf : file.tree.Conforms)
    (h : c.expandFile file ids = (.ok out, ids')) :
    ∃ p : FilePass, p.compilation = c ∧ p.file = file ∧
      tagImports file.tree c.options.moduleSpecifier = .ok p.imports ∧
      Acc (fun m n => p.Calls n m) file.tree ∧
      (∀ n, Relation.ReflTransGen p.Calls file.tree n → p.expandAll n =
        if p.isUseSite n then p.expandSite n >>= p.expandAll else n.mapChildrenM p.expandAll) ∧
      (∀ m ∈ out.tree.preorder, p.isUseSite m = false) ∧
      out.expansions ≤ file.tree.preorder.countP p.isUseSite ∧
      ((∀ d ∈ out.diagnostics, d.kind ≠ .unsplicedSubstitution) →
        out.expansions = (file.tree.exposed p.isUseSite).length ∧
        (file.tree.NestsInSubstitutions p.isUseSite →
          out.expansions = file.tree.preorder.countP p.isUseSite)) := by
  obtain ⟨imports, himports, hout⟩ := expandFile_yields h
  have ht := hf.templated
  refine ⟨⟨c, file, imports⟩, rfl, rfl, himports, FilePass.acc_calls ht, ?_, ?_⟩
  · intro n hn
    have hnt : n.Templated := by
      induction hn with
      | refl => exact ht
      | tail _ hcall ih => exact hcall.templated ih
    exact FilePass.expandAll_eq hnt
  obtain ⟨hcleared, hbounded, hexact⟩ := expandFile_counts ht hout
  have hle := (Node.exposed_sublist (FilePass.isUseSite ⟨c, file, imports⟩) file.tree).length_le
  rw [← List.countP_eq_length_filter] at hle
  refine ⟨hcleared, Nat.le_trans hbounded hle, fun hm => ⟨hexact hm, fun hnests => ?_⟩⟩
  rw [hexact hm, Node.exposed_eq_filter hnests, List.countP_eq_length_filter]

theorem exists_ok_of_any {ε α : Type} {x : Except ε α} {q : α → Bool}
    (h : x.toOption.any q = true) : ∃ a, x = .ok a ∧ q a = true := by
  cases x with
  | error => cases h
  | ok a => exact ⟨a, rfl, h⟩

theorem exists_ok_fst_of_any {ε α β : Type} {x : Except ε α × β} {q : α → Bool}
    (h : x.1.toOption.any q = true) : ∃ a b, x = (.ok a, b) ∧ q a = true := by
  obtain ⟨a, ha, hq⟩ := exists_ok_of_any h
  exact ⟨a, x.2, Prod.ext ha rfl, hq⟩

/-- A use site in a substitution of another: both are expanded. -/
theorem expandFile_removes_nested :
    ∃ program, program = Program.ofFiles (SourceFile.parse "a.ts"
      "import \x7b f \x7d from \"ts-transform-creator\"; f`$\x7bf`b`\x7d + 1`;").toOption.toList ∧
    ∃ file ∈ program.files, ∃ out ids', file.tree.Conforms ∧
      expandFile ⟨program.model, {}⟩ file .sequential = (.ok out, ids') ∧ out.diagnostics = [] ∧
      ∃ p : FilePass, p.file = file ∧ (∀ m ∈ out.tree.preorder, p.isUseSite m = false) ∧
        out.expansions = 2 ∧ (file.tree.exposed p.isUseSite).length = 2 := by
  obtain ⟨program, hprogram, hcheck⟩ : ∃ program, program = Program.ofFiles (SourceFile.parse "a.ts"
      "import \x7b f \x7d from \"ts-transform-creator\"; f`$\x7bf`b`\x7d + 1`;").toOption.toList ∧
      program.files.any (fun file => decide file.tree.Conforms &&
        (expandFile ⟨program.model, {}⟩ file .sequential).1.toOption.any fun out =>
          out.diagnostics.isEmpty && out.expansions == 2) = true :=
    ⟨_, rfl, by decide +kernel⟩
  obtain ⟨file, hfile, h⟩ := List.any_eq_true.mp hcheck
  obtain ⟨hf, h⟩ := (Bool.and_eq_true _ _).mp h
  obtain ⟨out, ids', hout, h⟩ := exists_ok_fst_of_any h
  obtain ⟨hempty, htwo⟩ := (Bool.and_eq_true _ _).mp h
  have hdiagnostics := List.isEmpty_iff.mp hempty
  have hexpansions := eq_of_beq htwo
  obtain ⟨p, -, hp, -, -, -, hcleared, -, hexact⟩ :=
    expandFile_removes_use_sites (of_decide_eq_true hf) hout
  have hexposed := (hexact (by simp [hdiagnostics])).1
  exact ⟨program, hprogram, file, hfile, out, ids', of_decide_eq_true hf, hout, hdiagnostics, p, hp,
    hcleared, hexpansions, hexposed ▸ hexpansions⟩

/-- A use site in the tag of another: it goes with the tag and is not expanded. -/
theorem expandFile_discards_tag :
    ∃ program, program = Program.ofFiles (SourceFile.parse "a.ts" ("const x = function f() \x7b " ++
      "import \x7b f \x7d from \"ts-transform-creator\"; return f`a`; \x7d`b`;\n")).toOption.toList ∧
    ∃ file ∈ program.files, ∃ out ids' imports, file.tree.Conforms ∧
      tagImports file.tree "ts-transform-creator" = .ok imports ∧
      expandFile ⟨program.model, {}⟩ file .sequential = (.ok out, ids') ∧ out.diagnostics = [] ∧
      out.expansions = 1 ∧ file.tree.preorder.countP (program.model.isUseSite imports) = 2 := by
  obtain ⟨program, hprogram, hcheck⟩ : ∃ program, program = Program.ofFiles (SourceFile.parse "a.ts"
      ("const x = function f() \x7b " ++
      "import \x7b f \x7d from \"ts-transform-creator\"; return f`a`; \x7d`b`;\n")).toOption.toList ∧
      program.files.any (fun file => decide file.tree.Conforms &&
        ((tagImports file.tree "ts-transform-creator").toOption.any fun imports =>
          file.tree.preorder.countP (program.model.isUseSite imports) == 2) &&
        (expandFile ⟨program.model, {}⟩ file .sequential).1.toOption.any fun out =>
          out.diagnostics.isEmpty && out.expansions == 1) = true :=
    ⟨_, rfl, by decide +kernel⟩
  obtain ⟨file, hfile, h⟩ := List.any_eq_true.mp hcheck
  obtain ⟨h, hexpand⟩ := (Bool.and_eq_true _ _).mp h
  obtain ⟨hf, h⟩ := (Bool.and_eq_true _ _).mp h
  obtain ⟨imports, himports, hsites⟩ := exists_ok_of_any h
  obtain ⟨out, ids', hout, hexpand⟩ := exists_ok_fst_of_any hexpand
  obtain ⟨hempty, hone⟩ := (Bool.and_eq_true _ _).mp hexpand
  exact ⟨program, hprogram, file, hfile, out, ids', imports, of_decide_eq_true hf, himports, hout,
    List.isEmpty_iff.mp hempty, eq_of_beq hone, eq_of_beq hsites⟩

end Compilation

end Quasiquote
