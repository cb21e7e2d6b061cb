import Quasiquote.Proofs.Declaring
import Quasiquote.Proofs.Extents
import Quasiquote.Proofs.Locating
import Quasiquote.Proofs.Rebinding

namespace Quasiquote

namespace Node

variable {P : Nat → Prop} {bound lo hi : Nat} {n m : Node} {ns ms : List Node}

theorem Numbers.span (h : n.Numbers bound m) : m.span = n.span := by
  obtain ⟨next, -, rfl⟩ := h
  obtain ⟨kind, ⟨_ | id, span⟩, fields⟩ := n <;> rfl

/-- Numbering leaves nodes where they are. -/
theorem Row.number (h : Row P lo ns hi) (hms : List.Forall₂ (Numbers bound) ns ms) :
    Row P lo ms hi := by
  induction h generalizing ms with
  | nil hle =>
    cases hms
    exact .nil hle
  | cons hs hlo hstart hstop _ _ ihc ih =>
    obtain _ | ⟨hm, hms⟩ := hms
    have hchildren := (isSimulation_numbers bound _ _ hm).forall₂_children
    exact .cons (hm.span.trans hs) hlo hstart hstop (ihc hchildren) (ih hms)

end Node

def Label.ordered : List (Label × Label) :=
  [(.name, .parameters), (.name, .body), (.parameters, .body), (.name, .namedBindings),
    (.thenStatement, .elseStatement)]

theorem Kind.fieldIndex?_lt {k : Kind} {l l' : Label} {i j : Nat} (h : (l, l') ∈ Label.ordered)
    (hi : k.fieldIndex? l = some i) (hj : k.fieldIndex? l' = some j) : i < j := by
  have htable : ∀ k ∈ Kind.all, ∀ q ∈ Label.ordered, ∀ i ∈ k.fieldIndex? q.1,
      ∀ j ∈ k.fieldIndex? q.2, i < j := by
    decide +kernel
  exact htable k k.mem_all _ h i hi j hj

namespace Node

variable {P : Nat → Prop} {lo hi : Nat} {n m c d : Node} {ns ms : List Node} {l l' : Label}

theorem pairwise_nodesAt {R : Node → Node → Prop} (hn : n.children.Pairwise R)
    (h : (l, l') ∈ Label.ordered) (hc : c ∈ n.nodesAt l) (hd : d ∈ n.nodesAt l') : R c d := by
  obtain ⟨f, hf, hc⟩ := mem_nodesAt_iff.mp hc
  obtain ⟨g, hg, hd⟩ := mem_nodesAt_iff.mp hd
  obtain ⟨i, hi, hf⟩ := Option.bind_eq_some_iff.mp hf
  obtain ⟨j, hj, hg⟩ := Option.bind_eq_some_iff.mp hg
  obtain ⟨hi', rfl⟩ := List.getElem?_eq_some_iff.mp hf
  obtain ⟨hj', rfl⟩ := List.getElem?_eq_some_iff.mp hg
  have hfields := (List.pairwise_flatMap.mp hn).2
  exact List.pairwise_iff_getElem.mp hfields i j hi' hj' (Kind.fieldIndex?_lt h hi hj) c hc d hd

def IsLaid (P : Nat → Prop) (n : Node) : Prop :=
  ∃ s, n.span = some s ∧ Row P s.start n.children s.stop

theorem Row.isLaid (h : Row P lo ns hi) (hn : n ∈ ns) : n.IsLaid P := by
  obtain ⟨s, hs, -, -, -, -, hrow⟩ := h.of_mem hn
  exact ⟨s, hs, hrow⟩

/-- What stands below a node stands inside of it. -/
theorem IsLaid.of_mem_preorder (h : n.IsLaid P) (hm : m ∈ n.preorder) :
    ∃ s t, n.span = some s ∧ m.span = some t ∧ s.start ≤ t.start ∧ t.stop ≤ s.stop ∧
      Row P t.start m.children t.stop := by
  obtain ⟨s, hs, hrow⟩ := h
  rw [preorder_eq, List.mem_cons] at hm
  obtain rfl | hm := hm
  · exact ⟨s, s, hs, hs, Nat.le_refl _, Nat.le_refl _, hrow⟩
  · obtain ⟨t, ht, hlo, hhi, -, -, hrow'⟩ := hrow.preorder.1 m hm
    exact ⟨s, t, hs, ht, hlo, hhi, hrow'⟩

theorem IsLaid.mem_preorder (h : n.IsLaid P) (hm : m ∈ n.preorder) : m.IsLaid P := by
  obtain ⟨-, t, -, ht, -, -, hrow⟩ := h.of_mem_preorder hm
  exact ⟨t, ht, hrow⟩

theorem IsLaid.pairwise (h : n.IsLaid P) : n.children.Pairwise EndsBefore := by
  obtain ⟨s, -, hrow⟩ := h
  exact hrow.pairwise

/-- What stands below a node that ends before another begins ends before what stands below that
one. -/
theorem EndsBefore.of_mem_preorder {x y : Node} (h : c.EndsBefore d) (hc : c.IsLaid P)
    (hd : d.IsLaid P) (hx : x ∈ c.preorder) (hy : y ∈ d.preorder) : x.EndsBefore y := by
  obtain ⟨s, t, hs, ht, hle⟩ := h
  obtain ⟨s', u, hs', hu, -, hstop, -⟩ := hc.of_mem_preorder hx
  obtain ⟨t', v, ht', hv, hstart, -⟩ := hd.of_mem_preorder hy
  obtain rfl : s = s' := Option.some.inj (hs.symm.trans hs')
  obtain rfl : t = t' := Option.some.inj (ht.symm.trans ht')
  exact ⟨u, v, hu, hv, by omega⟩

end Node

namespace Binding

def Precedes (a b : Binding) : Prop :=
  a.nameNode.EndsBefore b.declaration

variable {P : Nat → Prop} {n s : Node}

theorem pairwise_ofName {kind : SymbolKind} {d : Node} {name? : Option Node}
    {link : Option ImportLink} : (ofName kind d name? link).Pairwise Precedes := by
  unfold ofName
  split
  · split
    · exact List.pairwise_singleton _ _
    · exact .nil
  · exact .nil

/-- What the nodes of a list declare is in order if what each of them declares is. -/
theorem pairwise_flatMap {ns : List Node} {f : Node → List Binding} (hlaid : n.IsLaid P)
    (hns : ns.Sublist n.children) (hf : ∀ c ∈ ns, ∀ b ∈ f c, DeclaredIn c b)
    (h : ∀ c ∈ ns, (f c).Pairwise Precedes) : (ns.flatMap f).Pairwise Precedes := by
  rw [List.pairwise_flatMap]
  refine ⟨h, (hlaid.pairwise.sublist hns).imp_of_mem fun {c d} hc hd hcd a ha b hb => ?_⟩
  have hlaid' : ∀ c ∈ ns, c.IsLaid P := fun c hc =>
    hlaid.mem_preorder (Node.mem_preorder_of_mem_children (hns.subset hc))
  exact hcd.of_mem_preorder (hlaid' c hc) (hlaid' d hd) (hf c hc a ha).nameNode_mem
    (hf d hd b hb).mem

/-- The names of one field come before those of a later one. -/
theorem precedes_of_ordered {l l' : Label} {c d : Node} {a b : Binding} (hlaid : n.IsLaid P)
    (h : (l, l') ∈ Label.ordered) (hc : c ∈ n.nodesAt l) (hd : d ∈ n.nodesAt l')
    (ha : a.nameNode ∈ c.preorder) (hb : DeclaredIn d b) : Precedes a b := by
  have hcd : c.EndsBefore d := Node.pairwise_nodesAt hlaid.pairwise h hc hd
  have hlaid' : ∀ {l c}, c ∈ n.nodesAt l → c.IsLaid P := fun hc =>
    hlaid.mem_preorder (Node.mem_preorder_of_mem_children (Node.mem_children_of_mem_nodesAt hc))
  exact hcd.of_mem_preorder (hlaid' hc) (hlaid' hd) ha hb.mem

theorem pairwise_ofVariables (hlaid : s.IsLaid P) (isVar : Bool) :
    (ofVariables s isVar).Pairwise Precedes := by
  unfold ofVariables
  split
  · next declarations hd =>
    have hmem := Node.mem_preorder_of_mem_children (Node.mem_children_of_child? hd)
    split
    · exact pairwise_flatMap (hlaid.mem_preorder hmem) (Node.list_sublist_children _ _)
        (fun d _ b hb => declaredIn_of_mem_ofName hb) fun d _ => pairwise_ofName
    · exact .nil
  · exact .nil

/-- The name of a whole import comes before the names that are imported beside it. -/
theorem pairwise_ofImport (hlaid : s.IsLaid P) : (ofImport s).Pairwise Precedes := by
  unfold ofImport
  cases hclause : s.child? .importClause with
  | none => exact .nil
  | some clause =>
    have hlaid := hlaid.mem_preorder
      (Node.mem_preorder_of_mem_children (Node.mem_children_of_child? hclause))
    cases hnamed : clause.child? .namedBindings with
    | none => simpa [hnamed] using pairwise_ofName
    | some bindings =>
      have hlaid' := hlaid.mem_preorder
        (Node.mem_preorder_of_mem_children (Node.mem_children_of_child? hnamed))
      simp only [hnamed]
      rw [List.pairwise_append]
      refine ⟨pairwise_ofName, ?_, fun a ha b hb => ?_⟩
      · split
        · exact pairwise_ofName
        · exact pairwise_flatMap hlaid' (Node.list_sublist_children _ _)
            (fun e _ b hb => declaredIn_of_mem_ofName hb) fun e _ => pairwise_ofName
      · obtain ⟨name, text, hname, -, rfl⟩ := mem_ofName_iff.mp ha
        refine precedes_of_ordered hlaid (by decide) (Node.mem_nodesAt_of_child? hname)
          (Node.mem_nodesAt_of_child? hnamed) name.self_mem_preorder ?_
        split at hb
        · exact declaredIn_of_mem_ofName hb
        · obtain ⟨e, he, hb⟩ := List.mem_flatMap.mp hb
          exact (declaredIn_of_mem_ofName hb).up (Node.mem_children_of_mem_list he)

theorem pairwise_ofStatement (hlaid : s.IsLaid P) : (ofStatement s).Pairwise Precedes := by
  unfold ofStatement
  split
  · exact pairwise_ofImport hlaid
  · exact pairwise_ofVariables hlaid false
  · exact pairwise_ofName
  · exact .nil

theorem pairwise_ofVars (hlaid : s.IsLaid P) : (ofVars s).Pairwise Precedes := by
  induction s using Node.inductionOnChildren with
  | h s ih =>
    have hchild : ∀ c ∈ s.children, (ofVars c).Pairwise Precedes := fun c hc =>
      ih c hc (hlaid.mem_preorder (Node.mem_preorder_of_mem_children hc))
    by_cases hv : s.kind = .variableStatement
    · rw [ofVars, hv]
      exact pairwise_ofVariables hlaid true
    by_cases hb : s.kind = .block
    · rw [ofVars_block hb]
      exact pairwise_flatMap hlaid (Node.list_sublist_children _ _)
        (fun t _ b hb => declaredIn_of_mem_ofVars hb)
        fun t ht => hchild t (Node.mem_children_of_mem_list ht)
    by_cases hi : s.kind = .ifStatement
    · have hbranch : ∀ l, ((s.child? l).elim [] ofVars).Pairwise Precedes := by
        intro l
        cases hl : s.child? l with
        | none => exact .nil
        | some t => exact hchild t (Node.mem_children_of_child? hl)
      rw [ofVars_ifStatement hi, List.pairwise_append]
      refine ⟨hbranch _, hbranch _, fun a ha b hb => ?_⟩
      cases hthen : s.child? .thenStatement with
      | none => simp [hthen] at ha
      | some t =>
        cases helse : s.child? .elseStatement with
        | none => simp [helse] at hb
        | some u =>
          rw [hthen] at ha
          rw [helse] at hb
          exact precedes_of_ordered hlaid (by decide) (Node.mem_nodesAt_of_child? hthen)
            (Node.mem_nodesAt_of_child? helse) (declaredIn_of_mem_ofVars ha).nameNode_mem
            (declaredIn_of_mem_ofVars hb)
    rw [ofVars]
    split
    · contradiction
    · contradiction
    · contradiction
    · exact .nil

/-- No statement declares both in its block and in its function. -/
theorem ofStatement_eq_nil_or_ofVars_eq_nil (s : Node) : ofStatement s = [] ∨ ofVars s = [] := by
  by_cases hv : s.kind = .variableStatement
  · rw [ofStatement, ofVars, hv]
    dsimp only
    unfold ofVariables
    cases s.child? .declarationList with
    | none => exact .inl rfl
    | some declarations =>
      by_cases hvar : declarations.text? .keyword = some "var"
      · exact .inl (by simp [hvar])
      · exact .inr (by simp [hvar])
  by_cases hb : s.kind = .block
  · exact .inl (by rw [ofStatement, hb])
  by_cases hi : s.kind = .ifStatement
  · exact .inl (by rw [ofStatement, hi])
  refine .inr ?_
  rw [ofVars]
  split
  · contradiction
  · contradiction
  · contradiction
  · rfl

theorem pairwise_hoistedInFunction (hlaid : n.IsLaid P) :
    (hoistedInFunction (n.list .statements)).Pairwise Precedes := by
  refine pairwise_flatMap hlaid (Node.list_sublist_children _ _) (fun s _ b hb => ?_) fun s hs => ?_
  · obtain hb | hb := List.mem_append.mp hb
    · exact declaredIn_of_mem_ofStatement hb
    · exact declaredIn_of_mem_ofVars hb
  · have hlaid := hlaid.mem_preorder
      (Node.mem_preorder_of_mem_children (Node.mem_children_of_mem_list hs))
    obtain h | h := ofStatement_eq_nil_or_ofVars_eq_nil s
    · rw [h, List.nil_append]
      exact pairwise_ofVars hlaid
    · rw [h, List.append_nil]
      exact pairwise_ofStatement hlaid

end Binding

namespace Node

variable {P : Nat → Prop} {n : Node}

theorem nameNode_of_mem_ofOwnName {b : Binding} (h : b ∈ Binding.ofOwnName n) :
    b.nameNode ∈ n.nodesAt .name := by
  unfold Binding.ofOwnName at h
  split at h
  · simp at h
  · obtain ⟨name, text, hname, -, rfl⟩ := Binding.mem_ofName_iff.mp h
    exact mem_nodesAt_of_child? hname

theorem exists_of_mem_ofParameters {b : Binding} (h : b ∈ Binding.ofParameters n) :
    ∃ q ∈ n.nodesAt .parameters, Binding.DeclaredIn q b := by
  obtain ⟨q, hq, h⟩ := List.mem_flatMap.mp h
  exact ⟨q, mem_nodesAt_of_mem_list hq, Binding.declaredIn_of_mem_ofName h⟩

theorem exists_of_mem_bodyDeclared {b : Binding} (h : b ∈ n.bodyDeclared) :
    ∃ body ∈ n.nodesAt .body, Binding.DeclaredIn body b := by
  unfold bodyDeclared at h
  split at h
  · simp at h
  · next body hbody =>
    split at h
    · exact ⟨body, mem_nodesAt_of_child? hbody, Binding.declaredIn_of_mem_hoistedInFunction h⟩
    · simp at h

theorem pairwise_bodyDeclared (hlaid : n.IsLaid P) : n.bodyDeclared.Pairwise Binding.Precedes := by
  unfold bodyDeclared
  split
  · exact .nil
  · next body hbody =>
    split
    · exact Binding.pairwise_hoistedInFunction (hlaid.mem_preorder
        (mem_preorder_of_mem_children (mem_children_of_child? hbody)))
    · exact .nil

/-- The name of a function comes first, then its parameters, then what its body declares. -/
theorem pairwise_function (hlaid : n.IsLaid P) :
    ((Binding.ofOwnName n ++ Binding.ofParameters n) ++ n.bodyDeclared).Pairwise
      Binding.Precedes := by
  have hown : (Binding.ofOwnName n).Pairwise Binding.Precedes := by
    unfold Binding.ofOwnName
    split
    · exact .nil
    · exact Binding.pairwise_ofName
  have hparameters : (Binding.ofParameters n).Pairwise Binding.Precedes :=
    Binding.pairwise_flatMap hlaid (list_sublist_children _ _)
      (fun q _ b hb => Binding.declaredIn_of_mem_ofName hb) fun q _ => Binding.pairwise_ofName
  rw [List.pairwise_append, List.pairwise_append]
  refine ⟨⟨hown, hparameters, fun a ha b hb => ?_⟩, pairwise_bodyDeclared hlaid,
    fun a ha b hb => ?_⟩
  · obtain ⟨q, hq, hb⟩ := exists_of_mem_ofParameters hb
    exact Binding.precedes_of_ordered hlaid (by decide) (nameNode_of_mem_ofOwnName ha) hq
      a.nameNode.self_mem_preorder hb
  · obtain ⟨body, hbody, hb⟩ := exists_of_mem_bodyDeclared hb
    obtain ha | ha := List.mem_append.mp ha
    · exact Binding.precedes_of_ordered hlaid (by decide) (nameNode_of_mem_ofOwnName ha) hbody
        a.nameNode.self_mem_preorder hb
    · obtain ⟨q, hq, ha⟩ := exists_of_mem_ofParameters ha
      exact Binding.precedes_of_ordered hlaid (by decide) hq hbody ha.nameNode_mem hb

theorem pairwise_ownBindings (hlaid : n.IsLaid P) : n.ownBindings.Pairwise Binding.Precedes := by
  unfold ownBindings
  split
  · exact Binding.pairwise_hoistedInFunction hlaid
  split
  · exact Binding.pairwise_flatMap hlaid (list_sublist_children _ _)
      (fun s _ b hb => Binding.declaredIn_of_mem_ofStatement hb) fun s hs =>
        Binding.pairwise_ofStatement (hlaid.mem_preorder
          (mem_preorder_of_mem_children (mem_children_of_mem_list hs)))
  split
  · exact pairwise_function hlaid
  · exact .nil

def BeginsBefore (a b : Node) : Prop :=
  ∃ s t, a.span = some s ∧ b.span = some t ∧ s.start < t.start

def HasNames (n : Node) : Prop :=
  ∀ m ∈ n.preorder, m.kind = .identifier → ∀ s ∈ m.span, s.start < s.stop

/-- What a scope declares begins at different places, in the order of its bindings. -/
theorem pairwise_declarations (hlaid : n.IsLaid P) (hnames : n.HasNames) :
    (n.ownBindings.map Binding.declaration).Pairwise BeginsBefore := by
  rw [List.pairwise_map]
  refine (pairwise_ownBindings hlaid).imp_of_mem fun {a b} ha hb hab => ?_
  have hdeclared := declaredIn_of_mem_ownBindings ha
  obtain ⟨t, u, ht, hu, hle⟩ := hab
  -- the name lies in the declaration and is not empty
  obtain ⟨s, t', hs, ht', hstart, -, -⟩ := (hlaid.mem_preorder hdeclared.mem).of_mem_preorder
    (mem_preorder_of_mem_children (mem_children_of_child? hdeclared.child))
  obtain rfl : t = t' := Option.some.inj (ht.symm.trans ht')
  have hlt := hnames _ hdeclared.nameNode_mem (kind_of_identifier? hdeclared.text) t ht
  exact ⟨s, u, hs, hu, by omega⟩

end Node

/-- A token that is no end of the input is not empty. -/
theorem Token.Stands.start_lt_stop {source : List Char} {t : Token} (h : Stands source t)
    (ht : t.kind ≠ .eof) : t.start < t.stop := by
  obtain ⟨before, rest, -, hread⟩ := h
  cases hread with
  | eof => exact absurd rfl ht
  | @lexeme c r _ _ l hl =>
    obtain ⟨k, hk⟩ := Nat.exists_eq_succ_of_ne_zero (scanLexeme_spells hl).size_pos.ne'
    have hpos := c.utf8Size_pos
    simp only [ofLexeme, hk, List.take_succ_cons, Text.byteLength_cons]
    omega

theorem parse_hasNames {source : String} {tree : Node} (h : parse source = .ok tree) :
    tree.HasNames := by
  obtain ⟨tokens, -, hlocated⟩ := parse_allLocated h
  intro m hm hk s hs
  obtain ⟨_, us, kind, fields, rfl, hmakes, hruns, -⟩ := hlocated m hm (by simp [hk])
  obtain ⟨t, rfl, ht, -⟩ := hmakes.eq_of_identifier hk
  have hlt := (hruns.2 t (List.mem_singleton_self t)).2.start_lt_stop (by simp [ht])
  obtain rfl := Option.some.inj hs
  exact Nat.lt_of_lt_of_le hlt (Nat.le_max_left _ _)

namespace Program

variable {files : List SourceFile} {file : SourceFile}

/-- The trees of a program of read files are laid out as they were in their sources. -/
theorem isLaid_of_mem_ofFiles (h : ∀ f ∈ files, ∃ source, SourceFile.parse f.name source = .ok f)
    (hfile : file ∈ (ofFiles files).files) :
    ∃ P, file.tree.IsLaid P ∧ file.tree.HasNames := by
  obtain ⟨f, hf, k, rfl⟩ := exists_of_mem_ofFiles hfile
  obtain ⟨source, hparse⟩ := h f hf
  obtain ⟨tree, htree, heq⟩ := SourceFile.parse_eq_ok hparse
  obtain rfl : f.tree = tree := congrArg SourceFile.tree heq
  have hnumbers : f.tree.Numbers 0 (f.tree.number k).1 := ⟨k, Nat.zero_le k, rfl⟩
  obtain ⟨lo, hi, hrow⟩ := parse_row htree
  refine ⟨_, (hrow.number (.cons hnumbers .nil)).isLaid (List.mem_singleton_self _), ?_⟩
  intro m hm hk s hs
  obtain ⟨x, hx, hxm⟩ := (Node.isSimulation_numbers 0).mem_preorder hnumbers hm
  have hkind := (Node.isSimulation_numbers 0 x m hxm).kind
  exact parse_hasNames htree x hx (hkind.trans hk) s (hxm.span ▸ hs)

end Program

end Quasiquote
