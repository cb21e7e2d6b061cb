import Quasiquote.Proofs.TopLevel

namespace Quasiquote

namespace Binding

variable {b : Binding} {s n d : Node}

structure DeclaredIn (root : Node) (b : Binding) : Prop where
  mem : b.declaration ∈ root.preorder
  child : b.declaration.child? .name = some b.nameNode
  text : b.nameNode.identifier? = some b.name

theorem DeclaredIn.up {c : Node} (h : DeclaredIn c b) (hc : c ∈ n.children) : DeclaredIn n b :=
  ⟨(Node.preorder_sublist_of_mem_preorder (Node.mem_preorder_of_mem_children hc)).subset h.mem,
    h.child, h.text⟩

theorem DeclaredIn.nameNode_mem (h : DeclaredIn n b) : b.nameNode ∈ n.preorder :=
  (Node.preorder_sublist_of_mem_preorder h.mem).subset
    (Node.mem_preorder_of_mem_children (Node.mem_children_of_child? h.child))

theorem declaredIn_of_mem_ofName {kind : SymbolKind} {link : Option ImportLink}
    (h : b ∈ ofName kind d (d.child? .name) link) : DeclaredIn d b := by
  obtain ⟨id, name, hid, htext, rfl⟩ := mem_ofName_iff.mp h
  exact ⟨d.self_mem_preorder, hid, htext⟩

theorem declaredIn_of_mem_ofImport (h : b ∈ ofImport s) : DeclaredIn s b := by
  unfold ofImport at h
  cases hc : s.child? .importClause with
  | none => simp [hc] at h
  | some clause =>
    have hclause := Node.mem_children_of_child? hc
    simp only [hc, List.mem_append] at h
    obtain h | h := h
    · exact (declaredIn_of_mem_ofName h).up hclause
    cases hb : clause.child? .namedBindings with
    | none => simp [hb] at h
    | some bs =>
      have hbindings := Node.mem_children_of_child? hb
      simp only [hb] at h
      split at h
      · exact ((declaredIn_of_mem_ofName h).up hbindings).up hclause
      · obtain ⟨e, he, h⟩ := List.mem_flatMap.mp h
        exact (((declaredIn_of_mem_ofName h).up (Node.mem_children_of_mem_list he)).up hbindings).up
          hclause

theorem declaredIn_of_mem_ofVariables {isVar : Bool} (h : b ∈ ofVariables s isVar) :
    DeclaredIn s b := by
  unfold ofVariables at h
  cases hl : s.child? .declarationList with
  | none => simp [hl] at h
  | some list =>
    simp only [hl] at h
    split at h
    · obtain ⟨d, hd, h⟩ := List.mem_flatMap.mp h
      exact ((declaredIn_of_mem_ofName h).up (Node.mem_children_of_mem_list hd)).up
        (Node.mem_children_of_child? hl)
    · simp at h

theorem declaredIn_of_mem_ofStatement (h : b ∈ ofStatement s) : DeclaredIn s b := by
  unfold ofStatement at h
  split at h
  · exact declaredIn_of_mem_ofImport h
  · exact declaredIn_of_mem_ofVariables h
  · exact declaredIn_of_mem_ofName h
  · simp at h

theorem declaredIn_of_mem_ofVars (h : b ∈ ofVars s) : DeclaredIn s b := by
  induction s using Node.inductionOnChildren with
  | h s ih =>
    by_cases hv : s.kind = .variableStatement
    · rw [ofVars, hv] at h
      exact declaredIn_of_mem_ofVariables h
    by_cases hb : s.kind = .block
    · rw [ofVars_block hb] at h
      obtain ⟨t, ht, h⟩ := List.mem_flatMap.mp h
      have ht := Node.mem_children_of_mem_list ht
      exact (ih t ht h).up ht
    by_cases hi : s.kind = .ifStatement
    · have hbranch : ∀ l, b ∈ (s.child? l).elim [] ofVars → DeclaredIn s b := by
        intro l hb
        cases ht : s.child? l with
        | none => simp [ht] at hb
        | some t =>
          rw [ht] at hb
          have ht := Node.mem_children_of_child? ht
          exact (ih t ht hb).up ht
      rw [ofVars_ifStatement hi] at h
      exact (List.mem_append.mp h).elim (hbranch _) (hbranch _)
    rw [ofVars] at h
    split at h <;> simp_all

theorem declaredIn_of_mem_hoistedInFunction (h : b ∈ hoistedInFunction (n.list .statements)) :
    DeclaredIn n b := by
  obtain ⟨s, hs, h⟩ := List.mem_flatMap.mp h
  have hs := Node.mem_children_of_mem_list hs
  obtain h | h := List.mem_append.mp h
  · exact (declaredIn_of_mem_ofStatement h).up hs
  · exact (declaredIn_of_mem_ofVars h).up hs

end Binding

namespace Node

variable {b : Binding} {n : Node}

/-- What a scope declares stands in the node that opens it. -/
theorem declaredIn_of_mem_ownBindings (h : b ∈ n.ownBindings) : Binding.DeclaredIn n b := by
  unfold ownBindings at h
  split at h
  · exact Binding.declaredIn_of_mem_hoistedInFunction h
  split at h
  · obtain ⟨s, hs, h⟩ := List.mem_flatMap.mp h
    exact (Binding.declaredIn_of_mem_ofStatement h).up (mem_children_of_mem_list hs)
  split at h
  · obtain h | h := List.mem_append.mp h
    · obtain h | h := List.mem_append.mp h
      · unfold Binding.ofOwnName at h
        split at h
        · simp at h
        · exact Binding.declaredIn_of_mem_ofName h
      · obtain ⟨q, hq, h⟩ := List.mem_flatMap.mp h
        exact (Binding.declaredIn_of_mem_ofName h).up (mem_children_of_mem_list hq)
    · unfold bodyDeclared at h
      split at h
      · simp at h
      next body hb =>
      split at h
      · exact (Binding.declaredIn_of_mem_hoistedInFunction h).up (mem_children_of_child? hb)
      · simp at h
  · simp at h

theorem located_of_mem_ownBindings (hs : n.AllShaped) (h : b ∈ n.ownBindings) :
    Binding.Located n b := by
  unfold ownBindings at h
  split at h
  · exact Scope.located_hoistedInFunction hs h
  split at h
  · exact Scope.located_ofBlock hs (show b ∈ (Scope.ofBlock "" n).bindings from h)
  split at h
  · next hk =>
    obtain h | h := List.mem_append.mp h
    · exact Scope.located_ofHead hs hk (show b ∈ (Scope.ofHead "" n).bindings from h)
    · unfold bodyDeclared at h
      split at h
      · simp at h
      next body hb =>
      split at h
      · exact (Scope.located_hoistedInFunction (hs.of_mem_children (mem_children_of_child? hb)) h).up
          (mem_nodesAt_of_child? hb) (by simp)
      · simp at h
  · simp at h

end Node

namespace Binding

variable {b : Binding} {s n : Node}

theorem leads_specifier_of_mem_ofStatement (hs : s.AllShaped) (h : b ∈ ofStatement s)
    (hk : b.declaration.kind = .importSpecifier) :
    ∃ path, s.Leads path b.declaration ∧
      path.map Descent.label = [.elements, .namedBindings, .importClause] := by
  unfold ofStatement at h
  split at h
  · next hsk =>
    unfold ofImport at h
    cases hc : s.child? .importClause with
    | none => simp [hc] at h
    | some clause =>
      have hclause := Node.mem_nodesAt_of_child? hc
      have hck := hs.shaped.children .importClause [.importClause] (by rw [hsk]; rfl) clause hclause
      simp only [hc, List.mem_append] at h
      obtain h | h := h
      · rw [declaration_of_mem_ofName h, List.mem_singleton.mp hck] at hk
        cases hk
      cases hb : clause.child? .namedBindings with
      | none => simp [hb] at h
      | some bs =>
        simp only [hb] at h
        split at h
        · next hbk =>
          rw [declaration_of_mem_ofName h, hbk] at hk
          cases hk
        · obtain ⟨e, he, h⟩ := List.mem_flatMap.mp h
          rw [declaration_of_mem_ofName h]
          exact ⟨_, ((Node.Leads.here.down hclause).down (Node.mem_nodesAt_of_child? hb)).down
            (Node.mem_nodesAt_of_mem_list he), rfl⟩
  · rw [kind_of_mem_ofVariables hs h] at hk
    cases hk
  · next hsk =>
    rw [declaration_of_mem_ofName h, hsk] at hk
    cases hk
  · simp at h

theorem leads_specifier_of_mem_hoistedInFunction (hs : n.AllShaped)
    (h : b ∈ hoistedInFunction (n.list .statements))
    (hk : b.declaration.kind = .importSpecifier) :
    ∃ path, n.Leads path b.declaration ∧
      path.map Descent.label = [.elements, .namedBindings, .importClause, .statements] := by
  obtain ⟨s, hst, h⟩ := List.mem_flatMap.mp h
  have hss := hs.of_mem_children (Node.mem_children_of_mem_list hst)
  obtain h | h := List.mem_append.mp h
  · obtain ⟨path, hp, hlabels⟩ := leads_specifier_of_mem_ofStatement hss h hk
    exact ⟨_, hp.up (Node.mem_nodesAt_of_mem_list hst), by simp [hlabels]⟩
  · rw [kind_of_mem_ofVars hss h] at hk
    cases hk

end Binding

/-- The specifiers that a scope declares stand in its statements, those of a function in its body. -/
theorem Node.leads_specifier_of_mem_ownBindings {n : Node} {b : Binding} (hs : n.AllShaped)
    (h : b ∈ n.ownBindings) (hk : b.declaration.kind = .importSpecifier) :
    ∃ path, n.Leads path b.declaration ∧ path.map Descent.label =
      [.elements, .namedBindings, .importClause, .statements] ++
        if n.kind.isFunctionLike then [.body] else [] := by
  unfold ownBindings at h
  split at h
  · next hn =>
    rw [hn]
    exact Binding.leads_specifier_of_mem_hoistedInFunction hs h hk
  split at h
  · next hn =>
    obtain ⟨s, hst, h⟩ := List.mem_flatMap.mp h
    obtain ⟨path, hp, hlabels⟩ := Binding.leads_specifier_of_mem_ofStatement
      (hs.of_mem_children (mem_children_of_mem_list hst)) h hk
    rw [hn]
    exact ⟨_, hp.up (mem_nodesAt_of_mem_list hst), by simp [hlabels, Kind.isFunctionLike]⟩
  split at h
  · next hn =>
    rw [if_pos hn]
    obtain h | h := List.mem_append.mp h
    · obtain h | h := List.mem_append.mp h
      · unfold Binding.ofOwnName at h
        split at h
        · simp at h
        · rw [Binding.declaration_of_mem_ofName h] at hk
          simp [hk, Kind.isFunctionLike] at hn
      · obtain ⟨q, hq, h⟩ := List.mem_flatMap.mp h
        rw [Binding.declaration_of_mem_ofName h, hs.shaped.parameters q hq] at hk
        cases hk
    · unfold bodyDeclared at h
      split at h
      · simp at h
      next body hb =>
      split at h
      · obtain ⟨path, hp, hlabels⟩ := Binding.leads_specifier_of_mem_hoistedInFunction
          (hs.of_mem_children (mem_children_of_child? hb)) h hk
        exact ⟨_, hp.up (mem_nodesAt_of_child? hb), by simp [hlabels]⟩
      · simp at h
  · simp at h

end Quasiquote
