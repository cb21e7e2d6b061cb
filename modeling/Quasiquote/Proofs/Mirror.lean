import Quasiquote.Proofs.Scoping

namespace Quasiquote

inductive Field.Rel (R : Node → Node → Prop) : Field → Field → Prop
  | node {n m : Node} (h : R n m) : Rel R (.node n) (.node m)
  | list {ns ms : List Node} (h : List.Forall₂ R ns ms) : Rel R (.list ns) (.list ms)
  | text (s : String) : Rel R (.text s) (.text s)
  | flag (b : Bool) : Rel R (.flag b) (.flag b)
  | absent : Rel R .absent .absent

theorem Field.Rel.form {R : Node → Node → Prop} {f g : Field} (h : Field.Rel R f g) :
    f.form = g.form := by
  cases h <;> rfl

theorem exists_of_mem_forall₂ {α β : Type} {R : α → β → Prop} {xs : List α} {ys : List β} {x : α}
    (h : List.Forall₂ R xs ys) (hx : x ∈ xs) : ∃ y ∈ ys, R x y := by
  obtain ⟨i, hi, rfl⟩ := List.getElem_of_mem hx
  obtain ⟨hlength, hget⟩ := List.forall₂_iff_get.mp h
  have hi' : i < ys.length := hlength ▸ hi
  exact ⟨ys.get ⟨i, hi'⟩, List.getElem_mem hi', hget i hi hi'⟩

theorem Field.Rel.mem_nodes {R : Node → Node → Prop} {f g : Field} {c : Node}
    (h : Field.Rel R f g) (hc : c ∈ f.nodes) : ∃ d ∈ g.nodes, R c d := by
  cases h with
  | node h =>
    obtain rfl := List.mem_singleton.mp hc
    exact ⟨_, List.mem_singleton_self _, h⟩
  | list h => exact exists_of_mem_forall₂ h hc
  | _ => simp at hc

theorem Field.Rel.swap {R : Node → Node → Prop} {f g : Field} (h : Field.Rel R f g) :
    Field.Rel (flip R) g f := by
  cases h with
  | node h => exact .node h
  | list h => exact .list h.flip
  | text s => exact .text s
  | flag b => exact .flag b
  | absent => exact .absent

theorem forall₂_imp_of_mem {α β : Type} {R S : α → β → Prop} {xs : List α} {ys : List β}
    (h : List.Forall₂ R xs ys) (hRS : ∀ x ∈ xs, ∀ y, R x y → S x y) : List.Forall₂ S xs ys := by
  induction h with
  | nil => exact .nil
  | cons h _ ih =>
    exact .cons (hRS _ List.mem_cons_self _ h) (ih fun x hx => hRS x (List.mem_cons_of_mem _ hx))

theorem Field.Rel.imp_of_mem {R S : Node → Node → Prop} {f g : Field} (h : Field.Rel R f g)
    (hRS : ∀ n ∈ f.nodes, ∀ m, R n m → S n m) : Field.Rel S f g := by
  cases h with
  | node h => exact .node (hRS _ (List.mem_singleton_self _) _ h)
  | list h => exact .list (forall₂_imp_of_mem h hRS)
  | text s => exact .text s
  | flag b => exact .flag b
  | absent => exact .absent

structure Node.Keeps (R : Node → Node → Prop) (n m : Node) : Prop where
  kind : n.kind = m.kind
  fields : List.Forall₂ (Field.Rel R) n.fields m.fields

namespace Node.Keeps

variable {R : Node → Node → Prop} {n m c : Node} {l : Label}

theorem imp_of_mem {S : Node → Node → Prop} (h : n.Keeps R m)
    (hRS : ∀ c ∈ n.children, ∀ d, R c d → S c d) : n.Keeps S m := by
  refine ⟨h.kind, forall₂_imp_of_mem h.fields fun f hf g hfg => hfg.imp_of_mem fun c hc => ?_⟩
  exact hRS c (List.mem_flatMap.mpr ⟨f, hf, hc⟩)

theorem imp {S : Node → Node → Prop} (hRS : ∀ n m, R n m → S n m) (h : n.Keeps R m) :
    n.Keeps S m :=
  h.imp_of_mem fun c _ => hRS c

theorem swap (h : n.Keeps R m) : m.Keeps (flip R) n :=
  ⟨h.kind.symm, (h.fields.imp fun _ _ => Field.Rel.swap).flip⟩

theorem field? {f : Field} (h : n.Keeps R m) (hf : n.field? l = some f) :
    ∃ g, m.field? l = some g ∧ Field.Rel R f g := by
  obtain ⟨i, hi, hf⟩ := Option.bind_eq_some_iff.mp hf
  obtain ⟨hi', rfl⟩ := List.getElem?_eq_some_iff.mp hf
  obtain ⟨hlength, hget⟩ := List.forall₂_iff_get.mp h.fields
  have him : i < m.fields.length := hlength ▸ hi'
  refine ⟨m.fields.get ⟨i, him⟩, ?_, hget i hi' him⟩
  exact Option.bind_eq_some_iff.mpr ⟨i, h.kind ▸ hi, List.getElem?_eq_getElem him⟩

theorem child? (h : n.Keeps R m) (hc : n.child? l = some c) :
    ∃ d, m.child? l = some d ∧ R c d := by
  obtain ⟨f, hf, hc⟩ := Option.bind_eq_some_iff.mp hc
  obtain ⟨g, hg, hrel⟩ := h.field? hf
  cases hrel with
  | node hrel =>
    obtain rfl : _ = c := by simpa [Field.node?] using hc
    exact ⟨_, Option.bind_eq_some_iff.mpr ⟨_, hg, rfl⟩, hrel⟩
  | _ => simp [Field.node?] at hc

theorem mem_list (h : n.Keeps R m) (hc : c ∈ n.list l) : ∃ d ∈ m.list l, R c d := by
  unfold Node.list at hc
  split at hc
  · next ns hf =>
    obtain ⟨g, hg, hrel⟩ := h.field? hf
    cases hrel with
    | list hrel =>
      obtain ⟨d, hd, hcd⟩ := exists_of_mem_forall₂ hrel hc
      exact ⟨d, by simpa [Node.list, hg] using hd, hcd⟩
  · simp at hc

theorem mem_nodesAt (h : n.Keeps R m) (hc : c ∈ n.nodesAt l) : ∃ d ∈ m.nodesAt l, R c d := by
  obtain ⟨f, hf, hc⟩ := Node.mem_nodesAt_iff.mp hc
  obtain ⟨g, hg, hrel⟩ := h.field? hf
  obtain ⟨d, hd, hcd⟩ := hrel.mem_nodes hc
  exact ⟨d, Node.mem_nodesAt_iff.mpr ⟨g, hg, hd⟩, hcd⟩

theorem mem_children (h : n.Keeps R m) (hc : c ∈ n.children) : ∃ d ∈ m.children, R c d := by
  obtain ⟨f, hf, hc⟩ := List.mem_flatMap.mp hc
  obtain ⟨g, hg, hrel⟩ := exists_of_mem_forall₂ h.fields hf
  obtain ⟨d, hd, hcd⟩ := hrel.mem_nodes hc
  exact ⟨d, List.mem_flatMap.mpr ⟨g, hg, hd⟩, hcd⟩

theorem forall₂_list (h : n.Keeps R m) (l : Label) : List.Forall₂ R (n.list l) (m.list l) := by
  unfold Node.list
  cases hf : n.field? l with
  | none =>
    cases hg : m.field? l with
    | none => exact .nil
    | some g =>
      obtain ⟨f, hf', -⟩ := h.swap.field? hg
      simp [hf] at hf'
  | some f =>
    obtain ⟨g, hg, hrel⟩ := h.field? hf
    rw [hg]
    cases hrel with
    | list h => exact h
    | _ => exact .nil

theorem forall₂_children (h : n.Keeps R m) : List.Forall₂ R n.children m.children := by
  refine List.rel_flatMap h.fields fun f g hfg => ?_
  cases hfg with
  | node h => exact .cons h .nil
  | list h => exact h
  | _ => exact .nil

theorem text? (h : n.Keeps R m) {t : String} (ht : n.text? l = some t) : m.text? l = some t := by
  unfold Node.text? at ht
  split at ht
  · next s hf =>
    obtain ⟨g, hg, hrel⟩ := h.field? hf
    cases hrel
    rw [Node.text?, hg]
    exact ht
  · cases ht

theorem eq_of_mark (h : n.Keeps Eq m) (hmark : m.mark = n.mark) : m = n := by
  obtain ⟨kind, mark, fields⟩ := n
  obtain ⟨kind', mark', fields'⟩ := m
  obtain rfl : kind = kind' := h.kind
  obtain rfl : mark' = mark := hmark
  have hfields : List.Forall₂ Eq fields fields' := by
    refine h.fields.imp fun f g hfg => ?_
    cases hfg with
    | node h => rw [h]
    | list h =>
      rw [List.forall₂_eq_eq_eq] at h
      rw [h]
    | _ => rfl
  rw [List.forall₂_eq_eq_eq] at hfields
  rw [hfields]

theorem forms (h : n.Keeps R m) : n.fields.map Field.form = m.fields.map Field.form := by
  rw [← List.forall₂_eq_eq_eq, List.forall₂_map_left_iff, List.forall₂_map_right_iff]
  exact h.fields.imp fun _ _ => Field.Rel.form

end Node.Keeps

def Kind.isInert (k : Kind) : Bool :=
  k = .taggedTemplateExpression || k = .arrowFunction

theorem Kind.isInert_of_childRule? {k c : Kind} {l : Label} {kinds : List Kind}
    (hrule : k.childRule? = some (l, kinds)) (hc : c ∈ kinds) : c.isInert = false := by
  have hall : kinds.all (fun c => !c.isInert) = true := by
    cases k <;> cases hrule <;> rfl
  simpa using List.all_eq_true.mp hall c hc

inductive Node.Mirrors : Node → Node → Prop
  | keep {kind : Kind} {mark mark' : Mark} {fields fields' : List Field}
    (h : List.Forall₂ (Field.Rel Mirrors) fields fields') :
    Mirrors (.mk kind mark fields) (.mk kind mark' fields')
  | inert {n m : Node} (hn : n.kind.isInert = true) (hm : m.kind.isInert = true) : Mirrors n m

mutual

theorem Node.Mirrors.symm {n m : Node} : n.Mirrors m → m.Mirrors n
  | .keep h => .keep (Field.mirrors_symm h)
  | .inert hn hm => .inert hm hn

theorem Field.mirrors_symm {fs gs : List Field} :
    List.Forall₂ (Field.Rel Node.Mirrors) fs gs → List.Forall₂ (Field.Rel Node.Mirrors) gs fs
  | .nil => .nil
  | .cons h t => .cons (Field.Rel.symm h) (Field.mirrors_symm t)

theorem Field.Rel.symm {f g : Field} : Field.Rel Node.Mirrors f g → Field.Rel Node.Mirrors g f
  | .node h => .node h.symm
  | .list h => .list (Node.mirrors_symm h)
  | .text s => .text s
  | .flag b => .flag b
  | .absent => .absent

theorem Node.mirrors_symm {ns ms : List Node} :
    List.Forall₂ Node.Mirrors ns ms → List.Forall₂ Node.Mirrors ms ns
  | .nil => .nil
  | .cons h t => .cons h.symm (Node.mirrors_symm t)

end

mutual

theorem Node.Mirrors.refl : (n : Node) → n.Mirrors n
  | .mk _ _ fields => .keep (Field.mirrors_refl fields)

theorem Field.mirrors_refl : (fs : List Field) → List.Forall₂ (Field.Rel Node.Mirrors) fs fs
  | [] => .nil
  | .node n :: fs => .cons (.node (.refl n)) (Field.mirrors_refl fs)
  | .list ns :: fs => .cons (.list (Node.mirrors_refl ns)) (Field.mirrors_refl fs)
  | .text s :: fs => .cons (.text s) (Field.mirrors_refl fs)
  | .flag b :: fs => .cons (.flag b) (Field.mirrors_refl fs)
  | .absent :: fs => .cons .absent (Field.mirrors_refl fs)

theorem Node.mirrors_refl : (ns : List Node) → List.Forall₂ Node.Mirrors ns ns
  | [] => .nil
  | n :: ns => .cons (.refl n) (Node.mirrors_refl ns)

end

namespace Node

variable {n m c : Node} {l : Label} {name : String}

theorem Keeps.symm (h : n.Keeps Mirrors m) : m.Keeps Mirrors n :=
  ⟨h.kind.symm, Field.mirrors_symm h.fields⟩

theorem Keeps.mirrors (h : n.Keeps Mirrors m) : n.Mirrors m := by
  obtain ⟨kind, mark, fields⟩ := n
  obtain ⟨kind', mark', fields'⟩ := m
  obtain rfl : kind = kind' := h.kind
  exact .keep h.fields

theorem Mirrors.keeps (h : n.Mirrors m) (hn : n.kind.isInert = false) : n.Keeps Mirrors m := by
  cases h with
  | keep h => exact ⟨rfl, h⟩
  | inert h => simp [h] at hn

/-- A node with a field that no template and no arrow function has. -/
theorem Mirrors.keeps_of_field {f : Field} (h : n.Mirrors m) (hf : n.field? l = some f)
    (ht : Kind.taggedTemplateExpression.fieldIndex? l = none)
    (ha : Kind.arrowFunction.fieldIndex? l = none) : n.Keeps Mirrors m := by
  obtain ⟨i, hi, -⟩ := Option.bind_eq_some_iff.mp hf
  refine h.keeps (Bool.eq_false_iff.mpr fun hk => ?_)
  rw [Kind.isInert, Bool.or_eq_true, decide_eq_true_eq, decide_eq_true_eq] at hk
  obtain hk | hk := hk
  · simp [hk, ht] at hi
  · simp [hk, ha] at hi

theorem Mirrors.child? (h : n.Mirrors m) (hc : n.child? l = some c)
    (ht : Kind.taggedTemplateExpression.fieldIndex? l = none)
    (ha : Kind.arrowFunction.fieldIndex? l = none) : ∃ d, m.child? l = some d ∧ c.Mirrors d := by
  obtain ⟨f, hf, -⟩ := Option.bind_eq_some_iff.mp hc
  exact (h.keeps_of_field hf ht ha).child? hc

theorem Mirrors.mem_list (h : n.Mirrors m) (hc : c ∈ n.list l)
    (ht : Kind.taggedTemplateExpression.fieldIndex? l = none)
    (ha : Kind.arrowFunction.fieldIndex? l = none) : ∃ d ∈ m.list l, c.Mirrors d := by
  obtain ⟨f, hf, -⟩ := mem_nodesAt_iff.mp (mem_nodesAt_of_mem_list hc)
  exact (h.keeps_of_field hf ht ha).mem_list hc

theorem Mirrors.kind_eq (h : n.Mirrors m) (hn : n.kind.isInert = false) : m.kind = n.kind :=
  (h.keeps hn).kind.symm

theorem Mirrors.identifier? (h : n.Mirrors m) (hn : n.identifier? = some name) :
    m.identifier? = some name := by
  unfold Node.identifier? at hn ⊢
  split at hn
  · next hk =>
    have hkeeps := h.keeps (by simp [hk, Kind.isInert])
    rw [if_pos (hkeeps.kind ▸ hk)]
    exact hkeeps.text? hn
  · cases hn

theorem Mirrors.isNamed (h : n.Mirrors m) (hn : n.IsNamed name) : m.IsNamed name := by
  obtain ⟨id, hid, hname⟩ := hn
  obtain ⟨id', hid', hm⟩ := h.child? hid rfl rfl
  exact ⟨id', hid', hm.identifier? hname⟩

theorem Mirrors.introduces (h : n.Mirrors m) (hn : n.Introduces name) : m.Introduces name := by
  cases hn with
  | defaultImport hk hc hn =>
    have hkm := (h.kind_eq (by simp [hk, Kind.isInert])).trans hk
    obtain ⟨clause, hc', hclause⟩ := h.child? hc rfl rfl
    exact .defaultImport hkm hc' (hclause.isNamed hn)
  | namespaceImport hk hc hb hbk hn =>
    have hkm := (h.kind_eq (by simp [hk, Kind.isInert])).trans hk
    obtain ⟨clause, hc', hclause⟩ := h.child? hc rfl rfl
    obtain ⟨b, hb', hbindings⟩ := hclause.child? hb rfl rfl
    have hbkm := (hbindings.kind_eq (by simp [hbk, Kind.isInert])).trans hbk
    exact .namespaceImport hkm hc' hb' hbkm (hbindings.isNamed hn)
  | namedImport hk hc hb hbk he hn =>
    have hkm := (h.kind_eq (by simp [hk, Kind.isInert])).trans hk
    obtain ⟨clause, hc', hclause⟩ := h.child? hc rfl rfl
    obtain ⟨b, hb', hbindings⟩ := hclause.child? hb rfl rfl
    obtain ⟨e, he', helement⟩ := hbindings.mem_list he rfl rfl
    refine .namedImport hkm hc' hb' (fun hbkm => hbk ?_) he' (helement.isNamed hn)
    exact (hbindings.symm.kind_eq (by simp [hbkm, Kind.isInert])).trans hbkm
  | letOrConst hk hl hw hd hn =>
    have hkm := (h.kind_eq (by simp [hk, Kind.isInert])).trans hk
    obtain ⟨list, hl', hlist⟩ := h.child? hl rfl rfl
    obtain ⟨f, hf, -⟩ := mem_nodesAt_iff.mp (mem_nodesAt_of_mem_list hd)
    have hkeeps := hlist.keeps_of_field hf rfl rfl
    obtain ⟨d, hd', hdeclaration⟩ := hkeeps.mem_list hd
    exact .letOrConst hkm hl' (fun hw' => hw (hkeeps.symm.text? hw')) hd' (hdeclaration.isNamed hn)
  | function hk hn =>
    exact .function ((h.kind_eq (by simp [hk, Kind.isInert])).trans hk) (h.isNamed hn)

theorem Mirrors.hoistsVar (h : n.Mirrors m) (hn : n.HoistsVar name) : m.HoistsVar name := by
  induction hn generalizing m with
  | varStatement hk hl hw hd hn =>
    have hkm := (h.kind_eq (by simp [hk, Kind.isInert])).trans hk
    obtain ⟨list, hl', hlist⟩ := h.child? hl rfl rfl
    obtain ⟨f, hf, -⟩ := mem_nodesAt_iff.mp (mem_nodesAt_of_mem_list hd)
    have hkeeps := hlist.keeps_of_field hf rfl rfl
    obtain ⟨d, hd', hdeclaration⟩ := hkeeps.mem_list hd
    exact .varStatement hkm hl' (hkeeps.text? hw) hd' (hdeclaration.isNamed hn)
  | block hk ht _ ih =>
    have hkm := (h.kind_eq (by simp [hk, Kind.isInert])).trans hk
    obtain ⟨t, ht', hstatement⟩ := h.mem_list ht rfl rfl
    exact .block hkm ht' (ih hstatement)
  | consequence hk ht _ ih =>
    have hkm := (h.kind_eq (by simp [hk, Kind.isInert])).trans hk
    obtain ⟨t, ht', hstatement⟩ := h.child? ht rfl rfl
    exact .consequence hkm ht' (ih hstatement)
  | alternative hk ht _ ih =>
    have hkm := (h.kind_eq (by simp [hk, Kind.isInert])).trans hk
    obtain ⟨t, ht', hstatement⟩ := h.child? ht rfl rfl
    exact .alternative hkm ht' (ih hstatement)

end Node

structure Descent.Alike (outer outer' : List Descent) : Prop where
  nil : outer = [] ↔ outer' = []
  body : Descent.ReachesBody outer ↔ Descent.ReachesBody outer'

theorem Descent.Alike.symm {outer outer' : List Descent} (h : Descent.Alike outer outer') :
    Descent.Alike outer' outer :=
  ⟨h.nil.symm, h.body.symm⟩

/-- What a scope declares is declared by its mirror image. -/
theorem Descent.Declares.of_keeps {n m : Node} {l : Label} {name : String}
    {outer outer' : List Descent} (h : Declares name ⟨n, l⟩ outer) (hk : n.Keeps Node.Mirrors m)
    (ho : Descent.Alike outer outer') : Declares name ⟨m, l⟩ outer' := by
  have hstatement : ∀ {s t : Node}, s.Mirrors t → s.Introduces name ∨ s.HoistsVar name →
      t.Introduces name ∨ t.HoistsVar name :=
    fun hst => Or.imp hst.introduces hst.hoistsVar
  cases h with
  | module hn hs h =>
    obtain rfl := ho.nil.mp rfl
    obtain ⟨t, ht, hst⟩ := hk.mem_list hs
    exact .module (hk.kind ▸ hn) ht (hstatement hst h)
  | ownName hn h =>
    obtain ⟨id, hid, hname⟩ := h
    obtain ⟨id', hid', hm⟩ := hk.child? hid
    exact .ownName (hk.kind ▸ hn) ⟨id', hid', hm.identifier? hname⟩
  | parameter hn hp h =>
    obtain ⟨q, hq, hpq⟩ := hk.mem_list hp
    exact .parameter (hk.kind ▸ hn) hq (hpq.isNamed h)
  | body hn hb hbk hs h =>
    obtain ⟨b', hb', hbb⟩ := hk.child? hb
    have hkeeps := hbb.keeps (by simp [hbk, Kind.isInert])
    obtain ⟨t, ht, hst⟩ := hkeeps.mem_list hs
    exact .body (hk.kind ▸ hn) hb' (hkeeps.kind ▸ hbk) ht (hstatement hst h)
  | block hn houter hs h =>
    obtain ⟨t, ht, hst⟩ := hk.mem_list hs
    exact .block (hk.kind ▸ hn) (fun hb => houter (ho.body.mpr hb)) ht (hst.introduces h)

end Quasiquote
