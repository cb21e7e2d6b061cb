import Quasiquote.Proofs.Production
import Quasiquote.Proofs.Threading

namespace Quasiquote

namespace Node

variable {k bound : Nat} {n m : Node} {w : Node → Nat}

def countId (k : Nat) (n : Node) : Nat :=
  n.preorder.countP fun m => m.id? = some k

theorem total_countId (ns : List Node) :
    total (countId k) ns = (ns.flatMap preorder).countP fun m => m.id? = some k :=
  total_countP_preorder _ ns

theorem countId_eq (n : Node) :
    n.countId k = (if n.id? = some k then 1 else 0) + total (countId k) n.children := by
  rw [total_countId, countId, preorder_eq, List.countP_cons, Nat.add_comm]
  simp

/-- What is generated adds to no identity. -/
theorem inherited_countId (k : Nat) : Inherited (countId k) := by
  intro n hn _
  rw [countId_eq, if_neg (by simp [hn]), Nat.zero_add]

theorem countId_eq_zero (h : ¬n.Holds k) : n.countId k = 0 := by
  refine List.countP_eq_zero.mpr fun m hm hid => h ⟨m, hm, ?_⟩
  exact of_decide_eq_true hid

theorem total_le_of_forall₂ {ns ms : List Node} (h : List.Forall₂ (fun n m => w m ≤ w n) ns ms) :
    total w ms ≤ total w ns := by
  induction h with
  | nil => exact Nat.le_refl _
  | cons h _ ih => exact Nat.add_le_add h ih

theorem countKey_eq_total {ns ms : List Node}
    (h : List.Forall₂ (fun n m => countKey k [m] = n.countId k) ns ms) :
    countKey k ms = total (countId k) ns := by
  rw [countKey_eq_sum]
  induction h with
  | nil => rfl
  | cons h _ ih => rw [List.map_cons, List.sum_cons, total_cons, h, ih]

/-- Numbering keeps the identities below its bound. -/
theorem Numbers.countKey_eq (h : n.Numbers bound m) (hk : k < bound) :
    countKey k [m] = n.countId k := by
  induction n using inductionOnChildren generalizing m with
  | h n ih =>
    have hkey : m.key = k ↔ n.id? = some k := by
      cases hid : n.id? with
      | none =>
        have hle := h.le_key_of_none hid
        simp only [reduceCtorEq, iff_false]
        omega
      | some id =>
        rw [key, id?, h.mark_of_some (by simp [hid]), ← id?, hid]
        simp
    have hchildren := countKey_eq_total (forall₂_imp_of_mem
      (isSimulation_numbers bound n m h).forall₂_children fun c hc d hcd => ih c hc hcd)
    rw [countKey_singleton, countId_eq, hchildren]
    simp only [hkey]

theorem countKey_eq_countId (h : ∀ x ∈ n.preorder, x.id?.isSome = true) :
    countKey k [n] = n.countId k := by
  rw [countKey, List.flatMap_singleton, countId]
  refine List.countP_congr fun x hx => ?_
  obtain ⟨id, hid⟩ := Option.isSome_iff_exists.mp (h x hx)
  simp [key, hid]

theorem eq_of_countId_le_one {x y : Node} (h : n.countId k ≤ 1) (hx : x ∈ n.preorder)
    (hy : y ∈ n.preorder) (hxk : x.id? = some k) (hyk : y.id? = some k) : x = y := by
  have hfind := find?_eq_of_countP hx (by simpa using hxk) h
  rw [find?_eq_of_countP hy (by simpa using hyk) h] at hfind
  exact (Option.some.inj hfind).symm

theorem Keeps.refl {R : Node → Node → Prop} (n : Node) (h : ∀ c ∈ n.children, R c c) :
    n.Keeps R n := by
  refine ⟨rfl, List.forall₂_same.mpr fun f hf => ?_⟩
  cases f with
  | node c => exact .node (h c (List.mem_flatMap.mpr ⟨_, hf, by simp⟩))
  | list cs =>
    exact .list (List.forall₂_same.mpr fun c hc => h c (List.mem_flatMap.mpr ⟨_, hf, hc⟩))
  | text s => exact .text s
  | flag b => exact .flag b
  | absent => exact .absent

theorem nodup_keys_iff (n : Node) : (n.preorder.map key).Nodup ↔ ∀ k, countKey k [n] ≤ 1 := by
  rw [List.nodup_iff_count_le_one]
  refine forall_congr' fun k => ?_
  rw [List.count, List.countP_map, countKey, List.flatMap_singleton,
    List.countP_congr fun x _ => ?_]
  simp

end Node

namespace FilePass

variable {p : FilePass} {n n' : Node} {k : Nat}

/-- An identity occurs in what a run makes of a tree no more often than in the tree. -/
theorem countId_expandAll {s s' : Progress} (hn : n.Templated)
    (h : Pass.Yields (p.expandAll n) s n' s') : n'.countId k ≤ n.countId k := by
  refine expandAll_induction (R := fun n n' => n'.countId k ≤ n.countId k) ?_ ?_ hn h
  · intro n r n' s s' hn hs hr hle
    obtain ⟨template, ht⟩ := exists_template hn hs
    calc n'.countId k
      _ ≤ r.countId k := hle
      _ ≤ Node.total (Node.countId k) n.substitutions :=
        (expandSite_weight (Node.inherited_countId k) ht hr).1
      _ ≤ Node.total (Node.countId k) n.children := by
        rw [Node.total_countId, Node.total_countId]
        exact (Node.substitutions_sublist n).countP_le
      _ ≤ n.countId k := by
        rw [n.countId_eq]
        exact Nat.le_add_left _ _
  · intro n n' _ hkeeps hmark
    rw [Node.countId_eq, n.countId_eq, Node.id?, hmark]
    exact Nat.add_le_add_left (Node.total_le_of_forall₂ hkeeps.forall₂_children) _

theorem rewrites_self (h : ∀ x ∈ n.preorder, p.isUseSite x = false) : p.Rewrites n n := by
  induction n using Node.inductionOnChildren with
  | h n ih =>
    refine rewrites_of_keeps (h n n.self_mem_preorder) (.refl n fun c hc => ?_) rfl
    have hsub := Node.preorder_sublist_of_mem_preorder (Node.mem_preorder_of_mem_children hc)
    exact ih c hc fun x hx => h x (hsub.subset hx)

/-- What stands in the place of a child: a new function with its span, if it was a use site, and
otherwise a node with its kind and its mark. -/
def Succeeds (p : FilePass) (isNew : Option Nat → Prop) (c c' : Node) : Prop :=
  if p.isUseSite c then c'.kind = .arrowFunction ∧ c'.span = c.span ∧ isNew c'.id?
  else c'.kind = c.kind ∧ c'.mark = c.mark

theorem Rewrites.succeeds (h : p.Rewrites n n') : p.Succeeds (· = none) n n' := by
  unfold Succeeds
  cases h with
  | keep hs =>
    rw [if_neg (by simp [hs])]
    exact ⟨rfl, rfl⟩
  | site hs =>
    rw [if_pos hs]
    exact ⟨rfl, rfl, rfl⟩

/-- A node with an identity in what became of a tree was there before. -/
theorem Rewrites.exists_keeps (h : p.Rewrites n n') (hn' : n'.Conforms) {m' : Node}
    (hm' : m' ∈ n'.preorder) (hid : m'.id?.isSome = true) :
    ∃ m ∈ n.preorder, m.Keeps (p.Succeeds (· = none)) m' ∧ m'.mark = m.mark := by
  obtain ⟨path', hp'⟩ := hn'.exists_leads hm'
  obtain ⟨path, m, hp, hs, hrewrites, -⟩ := h.carries hp' hid
  obtain ⟨hkeeps, hmark⟩ := hrewrites.keeps hs
  exact ⟨m, hp.mem_preorder, hkeeps.imp fun _ _ => succeeds, hmark⟩

/-- The root of what became of a tree has the identity of the tree or none. -/
theorem Rewrites.eq_root (h : p.Rewrites n n') (hone : ∀ k, n.countId k ≤ 1) {m : Node}
    (hm : m ∈ n.preorder) (hid : m.id?.isSome = true) (hsame : n'.id? = m.id?) : m = n := by
  obtain ⟨k, hk⟩ := Option.isSome_iff_exists.mp hid
  refine Node.eq_of_countId_le_one (hone k) hm n.self_mem_preorder hk ?_
  cases h with
  | keep => exact hsame.trans hk
  | site => cases hsame.trans hk

end FilePass

namespace Compilation

variable {c : Compilation} {file : SourceFile} {ids ids' : IdSupply} {out : ExpandedFile}

/-- A file is rewritten, and the import of the factories may be put in front of it. -/
theorem expandFile_rewrites (hf : file.tree.Templated)
    (h : c.expandFile file ids = (.ok out, ids')) :
    ∃ p : FilePass, p.compilation = c ∧ p.file = file ∧
      tagImports file.tree c.options.moduleSpecifier = .ok p.imports ∧
      ∃ tree, p.Rewrites file.tree tree ∧ (∀ k, tree.countId k ≤ file.tree.countId k) ∧
        (out.tree = tree ∨ p.namespaceDeclaration? = none ∧ out.tree = tree.withField .statements
          (.list (.defaultImport c.options.factoryNamespace c.options.factoryModule ::
            tree.list .statements))) := by
  obtain ⟨imports, himports, hexpands⟩ := expandFile_yields h
  refine ⟨⟨c, file, imports⟩, rfl, rfl, himports, ?_⟩
  obtain ⟨rfl, rfl⟩ | ⟨tree, s, s', htree, himport, -⟩ := hexpands
  · exact ⟨file.tree, FilePass.rewrites_self fun x _ => FilePass.isUseSite_of_no_import rfl x,
      fun _ => Nat.le_refl _, .inl rfl⟩
  · exact ⟨tree, FilePass.rewrites_expandAll hf htree, fun _ => FilePass.countId_expandAll hf htree,
      (FilePass.withFactoryImport_yields himport).2.2⟩

end Compilation

namespace Node

variable {tree m : Node} {name module : String} {k : Nat}

theorem not_holds_defaultImport (id : Nat) : ¬(defaultImport name module).Holds id := by
  simp [defaultImport, identifier, stringLiteral, holds_plain]

/-- An import in front of the statements adds no identity. -/
theorem countId_withImport (ht : tree.Conforms) : (tree.withField .statements
      (.list (.defaultImport name module :: tree.list .statements))).countId k = tree.countId k := by
  obtain heq | ⟨-, hfields, heq⟩ := FilePass.withField_statements_cases ht
    (.defaultImport name module :: tree.list .statements)
  · rw [heq]
  · have himport : (defaultImport name module).countId k = 0 :=
      countId_eq_zero (not_holds_defaultImport k)
    have hid : (mk tree.kind tree.mark
        [.list (.defaultImport name module :: tree.list .statements)]).id? = tree.id? := rfl
    rw [heq, countId_eq, tree.countId_eq, hid, children, children, hfields]
    simp [Node.fields, himport]

/-- The nodes with an identity under an import in front of the statements. -/
theorem mem_preorder_of_withImport (hid : m.id?.isSome = true)
    (hm : m ∈ (tree.withField .statements
      (.list (.defaultImport name module :: tree.list .statements))).preorder) :
    m ∈ tree.preorder ∨ m = tree.withField .statements
      (.list (.defaultImport name module :: tree.list .statements)) := by
  rw [preorder_eq, List.mem_cons, List.mem_flatMap] at hm
  obtain rfl | ⟨c, hc, hm⟩ := hm
  · exact .inr rfl
  have hchild {c : Node} (hc : c ∈ tree.children) (hm : m ∈ c.preorder) : m ∈ tree.preorder :=
    (preorder_sublist_of_mem_preorder (mem_preorder_of_mem_children hc)).subset hm
  obtain hc | hc := FilePass.mem_children_withField hc
  · exact .inl (hchild hc hm)
  obtain rfl | hc := List.mem_cons.mp hc
  · obtain ⟨id, hid⟩ := Option.isSome_iff_exists.mp hid
    exact absurd ⟨m, hm, hid⟩ (not_holds_defaultImport id)
  · exact .inl (hchild (mem_children_of_mem_list hc) hm)

theorem mark_withField (n : Node) (l : Label) (value : Field) :
    (n.withField l value).mark = n.mark := by
  unfold withField
  split <;> rfl

end Node

namespace Compilation

variable {c : Compilation} {file : SourceFile} {ids ids' : IdSupply} {out : ExpandedFile}

/-- A node that kept its identity is what it was: its mark, its kind, its texts and flags, and its
children, of which use sites alone are replaced. Only the file itself may get one more statement, in
front: the import of the factories. -/
theorem expandFile_keeps (hf : file.tree.Conforms) (hone : ∀ k, file.tree.countId k ≤ 1)
    (h : c.expandFile file ids = (.ok out, ids')) :
    ∃ p : FilePass, p.compilation = c ∧ p.file = file ∧
      tagImports file.tree c.options.moduleSpecifier = .ok p.imports ∧
      ∀ m ∈ file.tree.preorder, ∀ m' ∈ out.tree.preorder, m.id?.isSome = true → m'.id? = m.id? →
        m'.mark = m.mark ∧ (m.Keeps (p.Succeeds (· = none)) m' ∨ m = file.tree ∧ m' = out.tree ∧
          ∃ kept : Node, kept.Conforms ∧ m.Keeps (p.Succeeds (· = none)) kept ∧ kept.mark = m.mark ∧
            m' = kept.withField .statements (.list (.defaultImport c.options.factoryNamespace
              c.options.factoryModule :: kept.list .statements))) := by
  obtain ⟨p, hc, hfile, himports, tree, hrewrites, -, hout⟩ := expandFile_rewrites hf.templated h
  have htree : tree.Conforms := hrewrites.conforms hf
  have hkept : ∀ m ∈ file.tree.preorder, ∀ m' ∈ tree.preorder, m.id?.isSome = true →
      m'.id? = m.id? → m'.mark = m.mark ∧ m.Keeps (p.Succeeds (· = none)) m' := by
    intro m hm m' hm' hid hsame
    obtain ⟨x, hx, hkeeps, hmark⟩ := hrewrites.exists_keeps htree hm' (hsame ▸ hid)
    obtain ⟨k, hk⟩ := Option.isSome_iff_exists.mp hid
    obtain rfl : m = x := by
      refine Node.eq_of_countId_le_one (hone k) hm hx hk ?_
      rw [← hk, ← hsame, Node.id?, Node.id?, hmark]
    exact ⟨hmark, hkeeps⟩
  refine ⟨p, hc, hfile, himports, fun m hm m' hm' hid hsame => ?_⟩
  obtain heq | ⟨-, heq⟩ := hout
  · obtain ⟨hmark, hkeeps⟩ := hkept m hm m' (heq ▸ hm') hid hsame
    exact ⟨hmark, .inl hkeeps⟩
  rw [heq] at hm' ⊢
  obtain hm' | rfl := Node.mem_preorder_of_withImport (hsame ▸ hid) hm'
  · obtain ⟨hmark, hkeeps⟩ := hkept m hm m' hm' hid hsame
    exact ⟨hmark, .inl hkeeps⟩
  · have hroot := Node.mark_withField tree .statements (.list (.defaultImport
      c.options.factoryNamespace c.options.factoryModule :: tree.list .statements))
    obtain ⟨hmark, hkeeps⟩ := hkept m hm tree tree.self_mem_preorder hid
      ((congrArg Mark.id hroot).symm.trans hsame)
    have hsame' : tree.id? = m.id? := congrArg Mark.id hmark
    exact ⟨hroot.trans hmark, .inr ⟨hrewrites.eq_root hone hm hid hsame', rfl, tree, htree, hkeeps,
      hmark, rfl⟩⟩

end Compilation

end Quasiquote
