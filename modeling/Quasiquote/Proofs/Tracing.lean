import Quasiquote.Proofs.Rebinding

namespace Quasiquote

def Node.IsTrace (R : Node → Node → Prop) : Prop :=
  ∀ n m, R n m → (n.kind.isInert = true ∧ m.kind.isInert = true) ∨ n.Keeps R m

theorem Node.IsSimulation.isTrace {R : Node → Node → Prop} (h : IsSimulation R) : IsTrace R :=
  fun n m hnm => .inr (h n m hnm)

theorem Node.Keeps.rel_child? {R : Node → Node → Prop} {n m : Node} (h : n.Keeps R m) (l : Label) :
    Option.Rel R (n.child? l) (m.child? l) := by
  cases hn : n.child? l with
  | some c =>
    obtain ⟨d, hd, hcd⟩ := h.child? hn
    rw [hd]
    exact .some hcd
  | none =>
    cases hm : m.child? l with
    | none => exact .none
    | some d =>
      obtain ⟨c, hc, -⟩ := h.swap.child? hm
      rw [hn] at hc
      cases hc

theorem Node.Keeps.text?_eq {R : Node → Node → Prop} {n m : Node} (h : n.Keeps R m) (l : Label) :
    m.text? l = n.text? l := by
  cases hn : n.text? l with
  | some t => exact h.text? hn
  | none =>
    cases hm : m.text? l with
    | none => rfl
    | some t =>
      rw [h.swap.text? hm] at hn
      cases hn

theorem Node.Mirrors.identifier?_eq {n m : Node} (h : n.Mirrors m) :
    m.identifier? = n.identifier? := by
  cases hn : n.identifier? with
  | some name => exact h.identifier? hn
  | none =>
    cases hm : m.identifier? with
    | none => rfl
    | some name =>
      rw [h.symm.identifier? hm] at hn
      cases hn

def Label.IsForeign (l : Label) : Prop :=
  Kind.taggedTemplateExpression.fieldIndex? l = none ∧ Kind.arrowFunction.fieldIndex? l = none

theorem Node.field?_of_isForeign {n : Node} {l : Label} (hl : l.IsForeign)
    (hn : n.kind.isInert = true) : n.field? l = none := by
  rw [Kind.isInert, Bool.or_eq_true, decide_eq_true_eq, decide_eq_true_eq] at hn
  obtain hn | hn := hn
  · simp [field?, hn, hl.1]
  · simp [field?, hn, hl.2]

namespace Node.IsTrace

variable {R : Node → Node → Prop} {n m : Node} {l : Label}

theorem mirrors (hR : IsTrace R) (h : R n m) : n.Mirrors m := by
  induction n using inductionOnChildren generalizing m with
  | h n ih =>
    obtain ⟨hn, hm⟩ | hkeeps := hR n m h
    · exact .inert hn hm
    · exact (hkeeps.imp_of_mem fun c hc d hcd => ih c hc hcd).mirrors

theorem rel_child? (hR : IsTrace R) (h : R n m) (hl : l.IsForeign) :
    Option.Rel R (n.child? l) (m.child? l) := by
  obtain ⟨hn, hm⟩ | hkeeps := hR n m h
  · rw [Node.child?, Node.child?, field?_of_isForeign hl hn, field?_of_isForeign hl hm]
    exact .none
  · exact hkeeps.rel_child? l

theorem forall₂_list (hR : IsTrace R) (h : R n m) (hl : l.IsForeign) :
    List.Forall₂ R (n.list l) (m.list l) := by
  obtain ⟨hn, hm⟩ | hkeeps := hR n m h
  · rw [Node.list, Node.list, field?_of_isForeign hl hn, field?_of_isForeign hl hm]
    exact .nil
  · exact hkeeps.forall₂_list l

theorem text?_eq (hR : IsTrace R) (h : R n m) (hl : l.IsForeign) : m.text? l = n.text? l := by
  obtain ⟨hn, hm⟩ | hkeeps := hR n m h
  · rw [Node.text?, Node.text?, field?_of_isForeign hl hn, field?_of_isForeign hl hm]
  · exact hkeeps.text?_eq l

theorem kind_eq_iff (hR : IsTrace R) (h : R n m) {k : Kind} (hk : k.isInert = false) :
    n.kind = k ↔ m.kind = k := by
  obtain ⟨hn, hm⟩ | hkeeps := hR n m h
  · constructor
    · rintro rfl
      simp [hn] at hk
    · rintro rfl
      simp [hm] at hk
  · rw [hkeeps.kind]

end Node.IsTrace

structure Binding.Same (R : Node → Node → Prop) (b b' : Binding) : Prop where
  name : b'.name = b.name
  declaration : R b.declaration b'.declaration
  kind : b.declaration.kind = b'.declaration.kind

namespace Binding

variable {R : Node → Node → Prop} {n m : Node}

theorem forall₂_ofName {kind : SymbolKind} {link link' : Option ImportLink}
    (hR : Node.IsTrace R) (h : R n m) (hkeeps : n.Keeps R m) :
    List.Forall₂ (Same R) (ofName kind n (n.child? .name) link)
      (ofName kind m (m.child? .name) link') := by
  have hrel := hkeeps.rel_child? .name
  generalize n.child? .name = i at hrel ⊢
  generalize m.child? .name = j at hrel ⊢
  cases hrel with
  | none => exact .nil
  | @some i j hij =>
    simp only [ofName, (hR.mirrors hij).identifier?_eq]
    cases i.identifier? with
    | none => exact .nil
    | some name => exact .cons ⟨rfl, h, hkeeps.kind⟩ .nil

theorem forall₂_ofName_of_rel {kind : SymbolKind} {link link' : Option ImportLink}
    (hR : Node.IsTrace R) (h : R n m) :
    List.Forall₂ (Same R) (ofName kind n (n.child? .name) link)
      (ofName kind m (m.child? .name) link') := by
  obtain ⟨hn, hm⟩ | hkeeps := hR n m h
  · rw [Node.child?, Node.child?, Node.field?_of_isForeign ⟨rfl, rfl⟩ hn,
      Node.field?_of_isForeign ⟨rfl, rfl⟩ hm]
    exact .nil
  · exact forall₂_ofName hR h hkeeps

theorem forall₂_ofImport (hR : Node.IsTrace R) (h : R n m) :
    List.Forall₂ (Same R) (ofImport n) (ofImport m) := by
  have hrel := hR.rel_child? (l := .importClause) h ⟨rfl, rfl⟩
  unfold ofImport
  generalize n.child? .importClause = a at hrel ⊢
  generalize m.child? .importClause = b at hrel ⊢
  cases hrel with
  | none => exact .nil
  | @some a b hab =>
    refine List.rel_append (forall₂_ofName_of_rel hR hab) ?_
    have hrel := hR.rel_child? (l := .namedBindings) hab ⟨rfl, rfl⟩
    generalize a.child? .namedBindings = c at hrel ⊢
    generalize b.child? .namedBindings = d at hrel ⊢
    cases hrel with
    | none => exact .nil
    | @some c d hcd =>
      dsimp only
      by_cases hc : c.kind = .namespaceImport
      · rw [if_pos hc, if_pos ((hR.kind_eq_iff hcd rfl).mp hc)]
        exact forall₂_ofName_of_rel hR hcd
      · rw [if_neg hc, if_neg (mt (hR.kind_eq_iff hcd rfl).mpr hc)]
        exact List.rel_flatMap (hR.forall₂_list hcd ⟨rfl, rfl⟩) fun _ _ =>
          forall₂_ofName_of_rel hR

theorem forall₂_ofVariables (hR : Node.IsTrace R) (h : R n m) (isVar : Bool) :
    List.Forall₂ (Same R) (ofVariables n isVar) (ofVariables m isVar) := by
  have hrel := hR.rel_child? (l := .declarationList) h ⟨rfl, rfl⟩
  unfold ofVariables
  generalize n.child? .declarationList = a at hrel ⊢
  generalize m.child? .declarationList = b at hrel ⊢
  cases hrel with
  | none => exact .nil
  | @some a b hab =>
    simp only [hR.text?_eq (l := .keyword) hab ⟨rfl, rfl⟩]
    split
    · exact List.rel_flatMap (hR.forall₂_list hab ⟨rfl, rfl⟩) fun _ _ => forall₂_ofName_of_rel hR
    · exact .nil

theorem ofStatement_of_isInert (hn : n.kind.isInert = true) : ofStatement n = [] := by
  rw [Kind.isInert, Bool.or_eq_true, decide_eq_true_eq, decide_eq_true_eq] at hn
  obtain hn | hn := hn <;> rw [ofStatement, hn]

theorem forall₂_ofStatement (hR : Node.IsTrace R) (h : R n m) :
    List.Forall₂ (Same R) (ofStatement n) (ofStatement m) := by
  obtain ⟨hn, hm⟩ | hkeeps := hR n m h
  · rw [ofStatement_of_isInert hn, ofStatement_of_isInert hm]
    exact .nil
  · unfold ofStatement
    rw [← hkeeps.kind]
    split
    · exact forall₂_ofImport hR h
    · exact forall₂_ofVariables hR h false
    · exact forall₂_ofName_of_rel hR h
    · exact .nil

theorem ofVars_eq_nil (hv : n.kind ≠ .variableStatement) (hb : n.kind ≠ .block)
    (hi : n.kind ≠ .ifStatement) : ofVars n = [] := by
  rw [ofVars]
  split <;> simp_all

theorem forall₂_ofVars (hR : Node.IsTrace R) (h : R n m) :
    List.Forall₂ (Same R) (ofVars n) (ofVars m) := by
  induction n using Node.inductionOnChildren generalizing m with
  | h n ih =>
    have hkind {k : Kind} (hk : k.isInert = false) : n.kind = k ↔ m.kind = k :=
      hR.kind_eq_iff h hk
    by_cases hv : n.kind = .variableStatement
    · rw [ofVars, hv, ofVars, (hkind rfl).mp hv]
      exact forall₂_ofVariables hR h true
    by_cases hb : n.kind = .block
    · rw [ofVars_block hb, ofVars_block ((hkind rfl).mp hb)]
      have hstatements := forall₂_imp_of_mem (hR.forall₂_list (l := .statements) h ⟨rfl, rfl⟩)
        fun s hs t hst => ih s (Node.mem_children_of_mem_list hs) hst
      exact List.rel_flatMap hstatements fun _ _ => id
    by_cases hi : n.kind = .ifStatement
    · rw [ofVars_ifStatement hi, ofVars_ifStatement ((hkind rfl).mp hi)]
      have hbranch (l : Label) (hl : l.IsForeign) :
          List.Forall₂ (Same R) ((n.child? l).elim [] ofVars) ((m.child? l).elim [] ofVars) := by
        have hrel := hR.rel_child? h hl
        generalize m.child? l = o at hrel ⊢
        cases hc : n.child? l with
        | none =>
          rw [hc] at hrel
          cases hrel
          exact .nil
        | some c =>
          rw [hc] at hrel
          cases hrel with
          | some hcd => exact ih c (Node.mem_children_of_child? hc) hcd
      exact List.rel_append (hbranch _ ⟨rfl, rfl⟩) (hbranch _ ⟨rfl, rfl⟩)
    · rw [ofVars_eq_nil hv hb hi, ofVars_eq_nil (mt (hkind rfl).mpr hv) (mt (hkind rfl).mpr hb)
        (mt (hkind rfl).mpr hi)]
      exact .nil

theorem forall₂_hoistedInFunction (hR : Node.IsTrace R) {ss ts : List Node}
    (h : List.Forall₂ R ss ts) : List.Forall₂ (Same R) (hoistedInFunction ss) (hoistedInFunction ts) :=
  List.rel_flatMap h fun _ _ hst =>
    List.rel_append (forall₂_ofStatement hR hst) (forall₂_ofVars hR hst)

theorem forall₂_hoistedInBlock (hR : Node.IsTrace R) {ss ts : List Node}
    (h : List.Forall₂ R ss ts) : List.Forall₂ (Same R) (hoistedInBlock ss) (hoistedInBlock ts) :=
  List.rel_flatMap h fun _ _ => forall₂_ofStatement hR

end Binding

namespace Node

variable {R : Node → Node → Prop} {n m : Node}

theorem forall₂_bodyDeclared (hR : IsTrace R) (h : n.Keeps R m) :
    List.Forall₂ (Binding.Same R) n.bodyDeclared m.bodyDeclared := by
  have hrel := h.rel_child? .body
  unfold bodyDeclared
  generalize n.child? .body = a at hrel ⊢
  generalize m.child? .body = b at hrel ⊢
  cases hrel with
  | none => exact .nil
  | @some a b hab =>
    dsimp only
    by_cases ha : a.kind = .block
    · rw [if_pos ha, if_pos ((hR.kind_eq_iff hab rfl).mp ha)]
      exact Binding.forall₂_hoistedInFunction hR (hR.forall₂_list hab ⟨rfl, rfl⟩)
    · rw [if_neg ha, if_neg (mt (hR.kind_eq_iff hab rfl).mpr ha)]
      exact .nil

/-- The scope of a node that was kept declares what it did. -/
theorem forall₂_ownBindings (hR : IsTrace R) (h : n.Keeps R m)
    (hnm : n.kind.isFunctionLike = true → R n m) :
    List.Forall₂ (Binding.Same R) n.ownBindings m.ownBindings := by
  unfold ownBindings
  rw [← h.kind]
  split
  · exact Binding.forall₂_hoistedInFunction hR (h.forall₂_list .statements)
  split
  · exact Binding.forall₂_hoistedInBlock hR (h.forall₂_list .statements)
  split
  · next hf =>
    refine List.rel_append (List.rel_append ?_ ?_) (forall₂_bodyDeclared hR h)
    · unfold Binding.ofOwnName
      rw [← h.kind]
      split
      · exact .nil
      · exact Binding.forall₂_ofName hR (hnm hf) h
    · exact List.rel_flatMap (h.forall₂_list .parameters) fun _ _ =>
        Binding.forall₂_ofName_of_rel hR
  · exact .nil

end Node

end Quasiquote
