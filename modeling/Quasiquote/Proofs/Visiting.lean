import Quasiquote.Proofs.Resolution

namespace Quasiquote

namespace Node

variable {file : String} {ss : List Scope} {n c x t : Node} {l : Label} {path rest : List Descent}

theorem schema_labels_nodup (k : Kind) : (k.schema.map Prod.fst).Nodup := by
  cases k <;> decide

theorem fieldIndex?_of_getElem? {k : Kind} {i : Nat} {shape : Shape}
    (h : k.schema[i]? = some (l, shape)) : k.fieldIndex? l = some i := by
  obtain ⟨hi, hl⟩ := List.getElem?_eq_some_iff.mp h
  refine List.findIdx?_eq_some_iff_getElem.mpr ⟨hi, by simp [hl], fun j hj => ?_⟩
  have hnodup := List.pairwise_iff_getElem.mp (schema_labels_nodup k) j i
    (by simpa using Nat.lt_trans hj hi) (by simpa using hi) hj
  simpa [hl] using hnodup

theorem mem_nodesAt_of_getElem? {i : Nat} {shape : Shape} {f : Field}
    (hs : n.kind.schema[i]? = some (l, shape)) (hf : n.fields[i]? = some f) (hc : c ∈ f.nodes) :
    c ∈ n.nodesAt l :=
  mem_nodesAt_iff.mpr ⟨f, Option.bind_eq_some_iff.mpr ⟨i, fieldIndex?_of_getElem? hs, hf⟩, hc⟩

theorem exists_mem_nodesAt (hn : checkFields n.kind n.fields = .ok ()) (hc : c ∈ n.children) :
    ∃ l, c ∈ n.nodesAt l := by
  obtain ⟨f, hf, hc⟩ := List.mem_flatMap.mp hc
  obtain ⟨i, hi⟩ := List.mem_iff_getElem?.mp hf
  have hlength := ((checkFields_eq_ok_iff _ _).mp hn).length_eq
  have hlt : i < n.kind.schema.length := hlength ▸ (List.getElem?_eq_some_iff.mp hi).1
  exact ⟨_, mem_nodesAt_of_getElem? (List.getElem?_eq_getElem hlt) hi hc⟩

theorem Conforms.exists_leads (hn : n.Conforms) (hx : x ∈ n.preorder) : ∃ path, n.Leads path x := by
  induction n using inductionOnChildren with
  | h n ih =>
    rw [preorder_eq, List.mem_cons, List.mem_flatMap] at hx
    obtain rfl | ⟨c, hc, hx⟩ := hx
    · exact ⟨[], .here⟩
    · obtain ⟨hf, hchildren⟩ := (conforms_iff n).mp hn
      obtain ⟨l, hl⟩ := exists_mem_nodesAt hf hc
      obtain ⟨path, hp⟩ := ih c hc (hchildren c hc) hx
      exact ⟨_, hp.up hl⟩

theorem exists_leads_of_mem_preorder (hs : n.AllShaped) (hx : x ∈ n.preorder) :
    ∃ path, n.Leads path x :=
  Conforms.exists_leads (fun m hm => (hs m hm).fields) hx

theorem exists_leads_of_countKey {k : Nat} (hs : n.AllShaped) (h : 1 ≤ countKey k [n]) :
    ∃ path m, n.Leads path m ∧ m.key = k := by
  obtain ⟨m, hm, hk⟩ := List.countP_pos_iff.mp (show 0 < countKey k [n] from h)
  obtain ⟨path, hp⟩ := exists_leads_of_mem_preorder hs (by simpa using hm)
  exact ⟨path, m, hp, by simpa using hk⟩

theorem refersIn_of_isReference (k : Kind) : ∀ e ∈ k.schema,
    e.2 = .node ∨ e.2 = .optional ∨ e.2 = .list → e.1.isReference k = true →
    k ≠ .importDeclaration → k.isFunctionLike = false → k.refersIn e.1 = true := by
  cases k <;> decide

theorem exists_of_mem_referencing (hn : n.IsOrdinary) (hf : checkFields n.kind n.fields = .ok ())
    (hc : c ∈ n.referencing) : ∃ l, c ∈ n.nodesAt l ∧ n.kind.refersIn l = true := by
  obtain ⟨⟨⟨l, shape⟩, f⟩, hzip, hc⟩ := List.mem_flatMap.mp hc
  obtain ⟨i, hi⟩ := List.mem_iff_getElem?.mp hzip
  obtain ⟨hs, hfield⟩ := List.getElem?_zip_eq_some.mp hi
  dsimp only at hc
  split at hc
  · next href =>
    have hat := mem_nodesAt_of_getElem? hs hfield hc
    have hshape : shape = .node ∨ shape = .optional ∨ shape = .list := by
      have hfits : f.fits shape = true :=
        fits_of_field? hf (by simp [Kind.shape?, fieldIndex?_of_getElem? hs, hs])
          (Option.bind_eq_some_iff.mpr ⟨i, fieldIndex?_of_getElem? hs, hfield⟩)
      cases f <;> cases shape <;> simp_all [Field.fits]
    exact ⟨l, hat, refersIn_of_isReference n.kind _ (List.mem_of_getElem? hs) hshape href hn.1
      hn.2.2.2⟩
  · simp at hc

def VisitsTag (file : String) (n t : Node) : Prop :=
  ∀ ⦃ss : List Scope⦄ ⦃x : Node⦄ ⦃rest : List Descent⦄, n.Leads (⟨x, .tag⟩ :: rest) t →
    (n.bindings file ss).symbolsOf t.key ≠ [] →
    ∀ d ∈ Descent.mk x .tag :: rest, d.isReference = true

section

variable {s : Scope} {q : List Descent} (hs : n.AllShaped) (hcount : countKey t.key [n] ≤ 1)
  (hp : n.Leads (⟨x, .tag⟩ :: rest) t)

include hcount hp

theorem key_ne_of_tag : n.key ≠ t.key := by
  intro heq
  obtain ⟨h, -⟩ := hp.unique hcount .here rfl heq
  cases h

/-- A scope resolves no tag by itself. -/
theorem symbolsOf_ofScope_tag (hb : ∀ b ∈ s.bindings, Binding.Located n b) :
    (Bindings.ofScope s).symbolsOf t.key = [] := by
  by_contra h
  obtain ⟨b, hmem, hkey | ⟨hf, hkey⟩⟩ := Bindings.exists_of_symbolsOf_ofScope h
  · obtain ⟨path', hp', -, htag⟩ := (hb b hmem).name
    obtain ⟨rfl, -⟩ := hp.unique hcount hp' rfl hkey
    exact htag _ rfl rfl
  · obtain ⟨path', hp', htag⟩ := (hb b hmem).function hf
    obtain ⟨rfl, -⟩ := hp.unique hcount hp' rfl hkey
    exact htag _ rfl rfl

include hs

/-- A part that resolves the tag holds it. -/
theorem reference_of_part (hq : n.Leads q c) (href : ∀ d ∈ q, d.isReference = true)
    (hne : (c.bindings file ss).symbolsOf t.key ≠ []) (ih : c.VisitsTag file t) :
    ∀ d ∈ Descent.mk x .tag :: rest, d.isReference = true := by
  have hcs := hs.of_mem_preorder hq.mem_preorder
  obtain ⟨path, m, hpm, hkey⟩ :=
    exists_leads_of_countKey hcs (one_le_countKey_of_bindings hcs hne)
  obtain ⟨heq, rfl⟩ := hp.unique hcount (hq.trans hpm) rfl hkey
  rw [heq]
  intro e he
  obtain he | he := List.mem_append.mp he
  · cases path with
    | nil => simp at he
    | cons d path =>
      obtain rfl : ⟨x, .tag⟩ = d := (List.cons.inj heq).1
      exact ih hpm hne e he
  · exact href e he

end

theorem Enters.exists_leads {ts : List Scope} (h : n.Enters file ss c ts) (hs : n.AllShaped) :
    ∃ path, n.Leads path c ∧ ∀ d ∈ path, d.isReference = true := by
  have hfunction : ∀ l, l = .parameters ∨ l = .body → n.kind.isFunctionLike = true →
      (Descent.mk n l).isReference = true := by
    intro l hl hk
    simpa [Descent.isReference, Kind.refersIn_function hk] using hl
  cases h with
  | statement hk hc =>
    exact ⟨_, Leads.here.down (mem_nodesAt_of_mem_list hc),
      by simp [Descent.isReference, Kind.refersIn, hk]⟩
  | default hk hq he =>
    refine ⟨_, (Leads.here.down (mem_nodesAt_of_mem_list hq)).down (mem_nodesAt_of_child? he),
      List.forall_mem_cons.mpr ⟨?_, by simp [hfunction _ (.inl rfl) hk]⟩⟩
    simp [Descent.isReference, Kind.refersIn, hs.shaped.parameters _ hq]
  | bodyStatement hk hb hbk hc =>
    refine ⟨_, (Leads.here.down (mem_nodesAt_of_child? hb)).down (mem_nodesAt_of_mem_list hc),
      List.forall_mem_cons.mpr ⟨?_, by simp [hfunction _ (.inr rfl) hk]⟩⟩
    simp [Descent.isReference, Kind.refersIn, hbk]
  | bodyExpression hk hb =>
    exact ⟨_, Leads.here.down (mem_nodesAt_of_child? hb),
      by simp [hfunction _ (.inr rfl) hk]⟩
  | part hn hc =>
    obtain ⟨l, hl, href⟩ := exists_of_mem_referencing hn hs.shaped.fields hc
    exact ⟨_, Leads.here.down hl, by simpa [Descent.isReference] using href⟩

theorem visitsTag (hs : n.AllShaped) (hcount : countKey t.key [n] ≤ 1) : n.VisitsTag file t := by
  induction n using inductionOnDescendants with
  | h n ih =>
    intro ss x rest hp hne
    have hkey := key_ne_of_tag hcount hp
    refine bindings_compose (Bindings.composes_symbolsOf (k := t.key)) (fun _ symbol _ h => ?_)
      (fun _ h => absurd (Bindings.symbolsOf_ofAnonymous hkey) h)
      (fun s hopens h => absurd (symbolsOf_ofScope_tag hcount hp (hopens.located hs)) h)
      (fun c ts henters h => ?_) hne
    · simp [Bindings.symbolsOf, hkey] at h
    · obtain ⟨path, hpath, href⟩ := henters.exists_leads hs
      have hc := hpath.mem_preorder
      exact reference_of_part hs hcount hp hpath href h (ih c henters.mem_descendants
        (hs.of_mem_preorder hc) (Nat.le_trans (countKey_le_of_mem_preorder hc) hcount))

end Node

/-- The tag of a template that a file resolves is reached through references. -/
theorem SourceFile.reference_of_tag {file : SourceFile} {t x : Node} {rest : List Descent}
    (hk : file.tree.kind = .sourceFile) (hs : file.tree.AllShaped)
    (hcount : Node.countKey t.key [file.tree] ≤ 1)
    (hp : file.tree.Leads (⟨x, .tag⟩ :: rest) t) (hne : file.bindings.symbolsOf t.key ≠ []) :
    ∀ d ∈ Descent.mk x .tag :: rest, d.isReference = true := by
  rw [symbolsOf_bindings, Node.symbolsOf_ofScope_tag hcount hp
    (fun b hb => Scope.located_hoistedInFunction hs hb), List.nil_append] at hne
  obtain ⟨symbol, hsymbol⟩ := List.exists_mem_of_ne_nil _ hne
  obtain ⟨c, hc, hsymbol⟩ := List.mem_flatMap.mp hsymbol
  have hcn := Node.mem_children_of_mem_list hc
  refine Node.reference_of_part hs hcount hp (.down .here (Node.mem_nodesAt_of_mem_list hc))
    (by simp [Descent.isReference, Kind.refersIn, hk]) (List.ne_nil_of_mem hsymbol)
    (Node.visitsTag (hs.of_mem_children hcn) ?_)
  exact Nat.le_trans
    (Node.countKey_le_of_mem_preorder (Node.mem_preorder_of_mem_children hcn)) hcount

/-- A tag that resolves is reached through references. -/
theorem Program.IsRead.reference_of_tag {p : Program} {file : SourceFile} {t x : Node}
    {rest : List Descent} (hp : p.IsRead) (hfile : file ∈ p.files)
    (hpath : file.tree.Leads (⟨x, .tag⟩ :: rest) t) (h : (p.model.resolve? t).isSome = true) :
    ∀ d ∈ Descent.mk x .tag :: rest, d.isReference = true := by
  rw [resolve?_eq hp.shaped hfile hpath (hp.ids file hfile t hpath.mem_preorder)
    (hp.unique _)] at h
  refine SourceFile.reference_of_tag (hp.kind file hfile) (hp.shaped file hfile)
    (hp.countKey_le_one hfile _) hpath fun hnil => ?_
  simp [hnil] at h

end Quasiquote
