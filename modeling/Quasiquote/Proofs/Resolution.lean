import Quasiquote.Proofs.Bindings

namespace Quasiquote

namespace Descent

variable {name : String} {n body : Node} {l : Label} {d : Descent} {outer : List Descent}

theorem names_hoistedInFunction_iff {ns : List Node} :
    Binding.Names (Binding.hoistedInFunction ns) name ↔
      ∃ s ∈ ns, s.Introduces name ∨ s.HoistsVar name := by
  simp only [Binding.hoistedInFunction, Binding.names_flatMap_iff, Binding.names_append_iff,
    Binding.names_ofStatement_iff, Binding.names_ofVars_iff]

theorem names_ofHead_iff {file : String} (hk : n.kind.isFunctionLike = true) :
    Binding.Names (Scope.ofHead file n).bindings name ↔
      (n.kind = .functionExpression ∧ n.IsNamed name) ∨
        ∃ p ∈ n.list .parameters, p.IsNamed name := by
  have hown : Binding.Names (Binding.ofOwnName n) name ↔
      n.kind = .functionExpression ∧ n.IsNamed name := by
    unfold Binding.ofOwnName
    split
    · next h => simp [Binding.Names, h]
    · rw [Binding.names_ofName_iff]
      cases h : n.kind with
      | arrowFunction =>
        have hnone : n.child? .name = none := by
          unfold Node.child? Node.field?
          rw [h]
          rfl
        simp [Node.IsNamed, hnone]
      | functionExpression => simp
      | _ => simp_all [Kind.isFunctionLike]
  rw [Scope.ofHead, Binding.names_append_iff, hown, Binding.ofParameters,
    Binding.names_flatMap_iff]
  simp only [Binding.names_ofName_iff]

theorem declares_block_iff {file : String} (hk : n.kind = .block)
    (houter : ¬Descent.ReachesBody outer) :
    Declares name ⟨n, l⟩ outer ↔ Binding.Names (Scope.ofBlock file n).bindings name := by
  rw [Scope.ofBlock, Binding.hoistedInBlock, Binding.names_flatMap_iff]
  simp only [Binding.names_ofStatement_iff]
  constructor
  · intro h
    cases h with
    | block _ _ hs h => exact ⟨_, hs, h⟩
    | _ hk' => simp_all [Kind.isFunctionLike]
  · rintro ⟨s, hs, h⟩
    exact .block hk houter hs h

theorem not_declares_of_reachesBody (hk : n.kind = .block) (houter : Descent.ReachesBody outer) :
    ¬Declares name ⟨n, l⟩ outer := by
  intro h
  cases h with
  | block _ h => exact h houter
  | _ hk' => simp_all [Kind.isFunctionLike]

theorem not_declares_of_kind (hb : n.kind ≠ .block) (hf : n.kind.isFunctionLike = false)
    (houter : outer ≠ []) : ¬Declares name ⟨n, l⟩ outer := by
  intro h
  cases h with
  | module => exact houter rfl
  | _ hk' => simp_all [Kind.isFunctionLike]

theorem not_declares_of_isOrdinary (hn : n.IsOrdinary) (houter : outer ≠ []) :
    ¬Declares name ⟨n, l⟩ outer :=
  not_declares_of_kind hn.2.2.1 hn.2.2.2 houter

theorem declares_head_iff {file : String} (hk : n.kind.isFunctionLike = true)
    (hl : l = .body → ∀ b, n.child? .body = some b → b.kind ≠ .block) :
    Declares name ⟨n, l⟩ outer ↔ Binding.Names (Scope.ofHead file n).bindings name := by
  rw [names_ofHead_iff hk]
  constructor
  · intro h
    cases h with
    | ownName hk h => exact .inl ⟨hk, h⟩
    | parameter _ hp h => exact .inr ⟨_, hp, h⟩
    | body _ hb hbk => exact absurd hbk (hl rfl _ hb)
    | _ hk' => simp_all [Kind.isFunctionLike]
  · rintro (⟨hk, h⟩ | ⟨p, hp, h⟩)
    · exact .ownName hk h
    · exact .parameter hk hp h

theorem declares_body_iff {file : String} (hk : n.kind.isFunctionLike = true)
    (hb : n.child? .body = some body) (hbk : body.kind = .block) :
    Declares name ⟨n, .body⟩ outer ↔
      Binding.Names (Scope.ofFunction file n body).bindings name := by
  rw [Scope.ofFunction, Binding.names_append_iff, names_hoistedInFunction_iff]
  rw [← show (Scope.ofHead file n).bindings = Binding.ofOwnName n ++ Binding.ofParameters n from rfl,
    names_ofHead_iff hk]
  constructor
  · intro h
    cases h with
    | ownName hk h => exact .inl (.inl ⟨hk, h⟩)
    | parameter _ hp h => exact .inl (.inr ⟨_, hp, h⟩)
    | body _ hb' _ hs h =>
      obtain rfl := Option.some.inj (hb.symm.trans hb')
      exact .inr ⟨_, hs, h⟩
    | _ hk' => simp_all [Kind.isFunctionLike]
  · rintro ((⟨hk, h⟩ | ⟨p, hp, h⟩) | ⟨s, hs, h⟩)
    · exact .ownName hk h
    · exact .parameter hk hp h
    · exact .body hk hb hbk hs h

end Descent

namespace Scope

variable {name : String} {s : Scope} {ss : List Scope} {d : Descent} {outer : List Descent}

theorem lookup_cons (s : Scope) (ss : List Scope) (name : String) :
    lookup (s :: ss) name =
      if s.declares name then some (.named s.owner name) else lookup ss name := by
  unfold lookup symbol?
  rw [List.findSome?_cons]
  split <;> split <;> simp_all

theorem declares_iff : s.declares name = true ↔ Binding.Names s.bindings name := by
  simp [declares, Binding.Names]

def Tracks (ss : List Scope) (outer : List Descent) : Prop :=
  ∀ name, Descent.Innermost name outer (lookup ss name)

theorem Tracks.skip (h : Tracks ss outer) (hd : ∀ name, ¬d.Declares name outer) :
    Tracks ss (d :: outer) :=
  fun name => .outward (hd name) (h name)

theorem Tracks.enter (h : Tracks ss outer) (ho : s.owner = d.node.key)
    (hd : ∀ name, d.Declares name outer ↔ Binding.Names s.bindings name) :
    Tracks (s :: ss) (d :: outer) := by
  intro name
  rw [lookup_cons]
  by_cases hname : d.Declares name outer
  · rw [if_pos (declares_iff.mpr ((hd name).mp hname)), ho]
    exact .declared hname
  · rw [if_neg fun hs => hname ((hd name).mpr (declares_iff.mp hs))]
    exact .outward hname (h name)

end Scope

namespace Node

variable {file : String} {ss : List Scope} {n m c : Node} {l : Label} {k : Nat} {name : String}
  {path outer : List Descent}

/-- Of parts that resolve only what they hold, one resolves an identity that occurs once. -/
theorem flatMap_eq_of_countKey {α β : Type} {cs : List α} {c : α} (tree : α → Node)
    {g : α → List β} (hg : ∀ x ∈ cs, g x ≠ [] → 1 ≤ countKey k [tree x]) (hc : c ∈ cs)
    (hone : 1 ≤ countKey k [tree c]) (hle : countKey k (cs.map tree) ≤ 1) :
    cs.flatMap g = g c := by
  obtain ⟨as, bs, rfl⟩ := List.append_of_mem hc
  have hsplit : countKey k ((as ++ c :: bs).map tree) =
      countKey k (as.map tree) + (countKey k [tree c] + countKey k (bs.map tree)) := by
    rw [List.map_append, countKey_append, List.map_cons, countKey_cons]
  have hnil : ∀ x ∈ as ++ bs, g x = [] := by
    intro x hx
    by_contra hne
    rw [List.mem_append] at hx
    have hx' : x ∈ as ++ c :: bs := by simp only [List.mem_append, List.mem_cons]; tauto
    have hpos := hg x hx' hne
    obtain hx | hx := hx
    · have := one_le_countKey_of_mem (List.mem_map_of_mem hx) hpos
      omega
    · have := one_le_countKey_of_mem (List.mem_map_of_mem hx) hpos
      omega
  have has : as.flatMap g = [] :=
    List.flatMap_eq_nil_iff.mpr fun x hx => hnil x (List.mem_append_left _ hx)
  have hbs : bs.flatMap g = [] :=
    List.flatMap_eq_nil_iff.mpr fun x hx => hnil x (List.mem_append_right _ hx)
  rw [List.flatMap_append, List.flatMap_cons, has, hbs, List.nil_append, List.append_nil]

theorem isReference_of_refersIn (k : Kind) : ∀ e ∈ k.schema, k.refersIn e.1 = true →
    k.isFunctionLike = false → e.1.isReference k = true := by
  cases k <;> decide

theorem mem_referencing_of_mem_nodesAt (hc : c ∈ n.nodesAt l) (hn : n.IsOrdinary)
    (href : (Descent.mk n l).isReference = true) : c ∈ n.referencing := by
  obtain ⟨f, hf, hc⟩ := mem_nodesAt_iff.mp hc
  obtain ⟨i, hi, hf⟩ := Option.bind_eq_some_iff.mp hf
  obtain ⟨shape, hs⟩ := n.kind.fieldIndex?_eq_some hi
  have hl := isReference_of_refersIn n.kind _ (List.mem_of_getElem? hs) href hn.2.2.2
  refine List.mem_flatMap.mpr ⟨((l, shape), f), ?_, ?_⟩
  · exact List.mem_of_getElem? (i := i) (by simp [List.getElem?_zip_eq_some, hs, hf])
  · simpa [hl] using hc

/-- The scope of a function does not resolve the references below it. -/
theorem symbolsOf_bodyBindings (hs : n.AllShaped) (hk : n.kind.isFunctionLike = true)
    (hp : n.Leads path m) (href : ∀ d ∈ path, d.isReference = true) (hm : m.IsSought path)
    (hcount : countKey m.key [n] ≤ 1) : (n.bodyBindings file ss).symbolsOf m.key =
      match n.child? .body with
      | none => []
      | some body =>
        if body.kind = .block then (body.list .statements).flatMap fun s =>
          (s.bindings file (Scope.ofFunction file n body :: ss)).symbolsOf m.key
        else (body.bindings file (Scope.ofHead file n :: ss)).symbolsOf m.key := by
  have hhead := symbolsOf_ofScope_eq_nil (s := Scope.ofHead file n)
    (fun b hb => Scope.located_ofHead hs hk hb) hp href hm hcount
  unfold bodyBindings
  cases hb : n.child? .body with
  | none => exact hhead
  | some body =>
    dsimp only
    split
    · rw [Bindings.symbolsOf_append, Bindings.symbolsOf_join, List.flatMap_map,
        symbolsOf_ofScope_eq_nil (fun b h => Scope.located_ofFunction hs hk hb h) hp href hm hcount]
      rfl
    · rw [Bindings.symbolsOf_append, hhead, List.nil_append]

theorem one_le_countKey_of_bodyBindings (hs : n.AllShaped) (hk : n.kind.isFunctionLike = true)
    (hp : n.Leads path m) (href : ∀ d ∈ path, d.isReference = true) (hm : m.IsSought path)
    (hcount : countKey m.key [n] ≤ 1) (h : (n.bodyBindings file ss).symbolsOf m.key ≠ []) :
    ∃ body ∈ n.nodesAt .body, 1 ≤ countKey m.key [body] := by
  rw [symbolsOf_bodyBindings hs hk hp href hm hcount] at h
  split at h
  · exact absurd rfl h
  next body hb =>
  have hshaped := hs.of_mem_children (mem_children_of_child? hb)
  refine ⟨body, mem_nodesAt_of_child? hb, ?_⟩
  split at h
  · obtain ⟨symbol, hsymbol⟩ := List.exists_mem_of_ne_nil _ h
    obtain ⟨c, hc, hsymbol⟩ := List.mem_flatMap.mp hsymbol
    have hc := mem_preorder_of_mem_children (mem_children_of_mem_list hc)
    have hone := one_le_countKey_of_bindings (hshaped.of_mem_preorder hc)
      (List.ne_nil_of_mem hsymbol)
    exact Nat.le_trans hone (countKey_le_of_mem_preorder hc)
  · exact one_le_countKey_of_bindings hshaped h

theorem one_le_countKey_of_defaults {ts : List Scope} (hs : n.AllShaped)
    (h : (n.defaults.flatMap fun e => (e.bindings file ts).symbolsOf k) ≠ []) :
    ∃ p ∈ n.nodesAt .parameters, 1 ≤ countKey k [p] := by
  obtain ⟨symbol, hsymbol⟩ := List.exists_mem_of_ne_nil _ h
  obtain ⟨e, he, hsymbol⟩ := List.mem_flatMap.mp hsymbol
  obtain ⟨p, hp, he⟩ := List.mem_filterMap.mp he
  have hshaped := hs.of_mem_children (mem_children_of_mem_list hp)
  have he := mem_preorder_of_mem_children (mem_children_of_child? he)
  have hone := one_le_countKey_of_bindings (hshaped.of_mem_preorder he)
    (List.ne_nil_of_mem hsymbol)
  exact ⟨p, mem_nodesAt_of_mem_list hp, Nat.le_trans hone (countKey_le_of_mem_preorder he)⟩

theorem not_reachesBody_cons (d : Descent) (h : d.label = .body → d.node.kind.isFunctionLike = false) :
    ¬Descent.ReachesBody (d :: outer) := by
  rintro ⟨e, he, hk, hl⟩
  obtain rfl : d = e := by simpa using he
  simp [h hl] at hk

theorem kind_of_identifier? (h : n.identifier? = some name) : n.kind = .identifier := by
  unfold identifier? at h
  split at h
  · assumption
  · cases h

theorem label_mem_schema (hc : c ∈ n.nodesAt l) : ∃ shape, (l, shape) ∈ n.kind.schema := by
  obtain ⟨f, hf, -⟩ := mem_nodesAt_iff.mp hc
  obtain ⟨i, hi, -⟩ := Option.bind_eq_some_iff.mp hf
  obtain ⟨shape, hs⟩ := n.kind.fieldIndex?_eq_some hi
  exact ⟨shape, List.mem_of_getElem? hs⟩

theorem mem_statements_of_block (hn : n.Shaped) (hk : n.kind = .block) (hc : c ∈ n.nodesAt l) :
    c ∈ n.list .statements := by
  obtain ⟨shape, hl⟩ := label_mem_schema hc
  obtain ⟨rfl, rfl⟩ : l = .statements ∧ shape = .list := by simpa [hk, Kind.schema] using hl
  exact mem_list_of_mem_nodesAt hn.fields (by rw [hk]; rfl) hc

theorem mem_parameters_of_function (hn : n.Shaped) (hk : n.kind.isFunctionLike = true)
    (hc : c ∈ n.nodesAt .parameters) : c ∈ n.list .parameters := by
  refine mem_list_of_mem_nodesAt hn.fields ?_ hc
  cases h : n.kind <;> simp_all [Kind.isFunctionLike] <;> rfl

theorem body_of_function (hn : n.Shaped) (hk : n.kind.isFunctionLike = true)
    (hc : c ∈ n.nodesAt .body) : n.child? .body = some c := by
  refine child?_of_mem_nodesAt hn.fields ?_ hc
  cases h : n.kind with
  | functionDeclaration => exact .inr rfl
  | functionExpression | arrowFunction => exact .inl rfl
  | _ => simp_all [Kind.isFunctionLike]

theorem initializer_of_parameter (hn : n.Shaped) (hk : n.kind = .parameter)
    (hc : c ∈ n.nodesAt .initializer) : n.child? .initializer = some c :=
  child?_of_mem_nodesAt hn.fields (.inr (by rw [hk]; rfl)) hc

theorem flatMap_bindings_eq {cs : List Node} {ts : List Scope} (hs : n.AllShaped)
    (hcs : ∀ x ∈ cs, x ∈ n.descendants) (hc : c ∈ cs) (hp : c.Leads path m)
    (hle : countKey m.key cs ≤ 1) :
    (cs.flatMap fun x => (x.bindings file ts).symbolsOf m.key) =
      (c.bindings file ts).symbolsOf m.key := by
  refine flatMap_eq_of_countKey id (fun x hx h => ?_) hc (hp.one_le_countKey rfl) (by simpa using hle)
  exact one_le_countKey_of_bindings
    (hs.of_mem_preorder (mem_preorder_of_mem_descendants (hcs x hx))) h

theorem countKey_children_le (h : countKey k [n] ≤ 1) : countKey k n.children ≤ 1 := by
  rw [countKey_singleton] at h
  omega

/-- What a tree resolves at a place to which references lead, is resolved by what stands there, inside
scopes that tell what each name is at that place. -/
def Resolves (file : String) (n m : Node) : Prop :=
  ∀ ⦃ss : List Scope⦄ ⦃path outer : List Descent⦄, Scope.Tracks ss outer → outer ≠ [] →
    (n.kind = .block → ¬Descent.ReachesBody outer) → n.Leads path m →
    (∀ d ∈ path, d.isReference = true) → (path ≠ [] → m.IsSought path) →
    ∃ ts, Scope.Tracks ts (path ++ outer) ∧
      (n.bindings file ss).symbolsOf m.key = (m.bindings file ts).symbolsOf m.key

theorem resolves_importDeclaration (hk : n.kind = .importDeclaration) : n.Resolves file m := by
  intro ss path outer hss _ _ hp href _
  obtain ⟨rfl, rfl⟩ | ⟨l, c, path, hc, hpc, rfl⟩ := hp.cases_first
  · exact ⟨ss, hss, rfl⟩
  · have hrefn := href ⟨n, l⟩ (by simp)
    simp [Descent.isReference, Kind.refersIn, hk] at hrefn

theorem resolves_identifier (hk : n.kind = .identifier) (hs : n.AllShaped) :
    n.Resolves file m := by
  intro ss path outer hss _ _ hp _ _
  obtain ⟨rfl, rfl⟩ | ⟨l, c, path, hc, hpc, rfl⟩ := hp.cases_first
  · exact ⟨ss, hss, rfl⟩
  · obtain ⟨shape, hl⟩ := label_mem_schema hc
    obtain ⟨rfl, rfl⟩ : l = .text ∧ shape = .text := by simpa [hk, Kind.schema] using hl
    obtain ⟨f, hf, hc⟩ := mem_nodesAt_iff.mp hc
    obtain ⟨t, rfl⟩ := (f.fits_text_iff).mp
      (fits_of_field? hs.shaped.fields (by rw [hk]; rfl) hf)
    simp at hc

theorem resolves_block (hk : n.kind = .block) (hs : n.AllShaped)
    (hcount : countKey m.key [n] ≤ 1)
    (ih : ∀ c ∈ n.descendants, c.Resolves file m) : n.Resolves file m := by
  intro ss path outer hss _ hbody hp href hm
  obtain ⟨rfl, rfl⟩ | ⟨l, c, path, hc, hpc, rfl⟩ := hp.cases_first
  · exact ⟨ss, hss, rfl⟩
  have hm := hm (by simp)
  have hcs := mem_statements_of_block hs.shaped hk hc
  have hmem : ∀ x ∈ n.list .statements, x ∈ n.descendants := fun x hx =>
    mem_descendants_of_mem_children (mem_children_of_mem_list hx)
  have hle := Nat.le_trans (countKey_sublist (k := m.key) (n.list_sublist_children .statements))
    (countKey_children_le hcount)
  rw [bindings_block hk, Bindings.symbolsOf_append, Bindings.symbolsOf_join, List.flatMap_map,
    symbolsOf_ofScope_eq_nil (fun b hb => Scope.located_ofBlock hs hb) hp href hm hcount,
    List.nil_append, flatMap_bindings_eq hs hmem hcs hpc hle, List.append_assoc]
  refine ih c (hmem c hcs) (hss.enter rfl fun _ => Descent.declares_block_iff hk (hbody hk))
    (by simp) (fun _ => not_reachesBody_cons _ fun _ => ?_) hpc (fun d hd => href d (by simp [hd]))
    hm.of_append
  simp [hk, Kind.isFunctionLike]

theorem resolves_ordinary (hn : n.IsOrdinary) (hs : n.AllShaped)
    (hcount : countKey m.key [n] ≤ 1)
    (ih : ∀ c ∈ n.descendants, c.Resolves file m) : n.Resolves file m := by
  intro ss path outer hss houter _ hp href hm
  obtain ⟨rfl, rfl⟩ | ⟨l, c, path, hc, hpc, rfl⟩ := hp.cases_first
  · exact ⟨ss, hss, rfl⟩
  have hcs := mem_referencing_of_mem_nodesAt hc hn (href ⟨n, l⟩ (by simp))
  have hmem : ∀ x ∈ n.referencing, x ∈ n.descendants := fun x hx =>
    mem_descendants_of_mem_children (mem_children_of_mem_referencing hx)
  have hle := Nat.le_trans (countKey_sublist (k := m.key) n.referencing_sublist)
    (countKey_children_le hcount)
  rw [bindings_ordinary hn, Bindings.symbolsOf_join, List.flatMap_map,
    flatMap_bindings_eq hs hmem hcs hpc hle, List.append_assoc]
  exact ih c (hmem c hcs) (hss.skip fun _ => Descent.not_declares_of_isOrdinary hn houter)
    (by simp) (fun _ => not_reachesBody_cons _ fun _ => hn.2.2.2) hpc
    (fun d hd => href d (by simp [hd])) (hm (by simp)).of_append

/-- A reference in the default of a parameter sees the name of the function and the parameters. -/
theorem resolves_defaults (hk : n.kind.isFunctionLike = true) (hs : n.AllShaped)
    (hcount : countKey m.key [n] ≤ 1)
    (ih : ∀ c ∈ n.descendants, c.Resolves file m) (hss : Scope.Tracks ss outer)
    (hc : c ∈ n.nodesAt .parameters) (hp : c.Leads path m)
    (href : ∀ d ∈ path, d.isReference = true) (hm : m.IsSought (path ++ [⟨n, .parameters⟩])) :
    ∃ ts, Scope.Tracks ts (path ++ ⟨n, .parameters⟩ :: outer) ∧
      (n.defaults.flatMap fun e =>
        (e.bindings file (Scope.ofHead file n :: ss)).symbolsOf m.key) =
        (m.bindings file ts).symbolsOf m.key := by
  have hcs := mem_parameters_of_function hs.shaped hk hc
  have hck := hs.shaped.parameters c hcs
  have hcn := mem_children_of_mem_nodesAt hc
  obtain ⟨rfl, rfl⟩ | ⟨l, e, path, he, hpe, rfl⟩ := hp.cases_first
  · simp [IsSought, hck] at hm
  obtain rfl : l = .initializer := by
    simpa [Descent.isReference, Kind.refersIn, hck] using href ⟨c, l⟩ (by simp)
  have hed : e ∈ n.defaults := List.mem_filterMap.mpr
    ⟨c, hcs, initializer_of_parameter (hs.of_mem_children hcn).shaped hck he⟩
  have hle : countKey m.key n.defaults ≤ 1 :=
    Nat.le_trans (Nat.le_trans (n.countKey_defaults_le)
      (countKey_sublist (n.list_sublist_children .parameters))) (countKey_children_le hcount)
  rw [flatMap_bindings_eq hs (fun x hx => mem_descendants_of_mem_defaults hx) hed hpe hle,
    List.append_assoc]
  have hhead : Scope.Tracks (Scope.ofHead file n :: ss) (⟨n, .parameters⟩ :: outer) :=
    hss.enter rfl fun _ => Descent.declares_head_iff hk (by simp)
  rw [List.append_assoc] at hm
  refine ih e (mem_descendants_of_mem_defaults hed) (hhead.skip fun _ => ?_) (by simp)
    (fun _ => not_reachesBody_cons _ (by simp)) hpe (fun d hd => href d (by simp [hd])) hm.of_append
  exact Descent.not_declares_of_isOrdinary (by simp [IsOrdinary, hck, Kind.isFunctionLike])
    (by simp)

/-- A reference in the body of a function sees what the body declares too. -/
theorem resolves_body (hk : n.kind.isFunctionLike = true) (hs : n.AllShaped)
    (hcount : countKey m.key [n] ≤ 1)
    (ih : ∀ c ∈ n.descendants, c.Resolves file m) (hss : Scope.Tracks ss outer)
    (hc : c ∈ n.nodesAt .body) (hp : c.Leads path m)
    (href : ∀ d ∈ path, d.isReference = true) (hm : m.IsSought (path ++ [⟨n, .body⟩])) :
    ∃ ts, Scope.Tracks ts (path ++ ⟨n, .body⟩ :: outer) ∧
      (n.bodyBindings file ss).symbolsOf m.key = (m.bindings file ts).symbolsOf m.key := by
  have hb := body_of_function hs.shaped hk hc
  have hcn := mem_children_of_mem_nodesAt hc
  have hrefn : (Descent.mk n .body).isReference = true := by
    simp [Descent.isReference, Kind.refersIn_function hk]
  have href' : ∀ d ∈ path ++ [⟨n, .body⟩], d.isReference = true := by
    intro d hd
    obtain hd | rfl := by simpa using hd
    · exact href d hd
    · exact hrefn
  rw [symbolsOf_bodyBindings hs hk (hp.up hc) href' hm hcount, hb]
  dsimp only
  split
  · next hbk =>
    obtain ⟨rfl, rfl⟩ | ⟨l, s, path, hsc, hps, rfl⟩ := hp.cases_first
    · simp [IsSought, hbk] at hm
    have hst := mem_statements_of_block (hs.of_mem_children hcn).shaped hbk hsc
    have hmem : ∀ x ∈ c.list .statements, x ∈ n.descendants := fun x hx =>
      mem_descendants_of_mem_children_of_mem_children hcn (mem_children_of_mem_list hx)
    have hle := Nat.le_trans (countKey_sublist (k := m.key) (c.list_sublist_children .statements))
      (countKey_children_le (Nat.le_trans
        (countKey_le_of_mem_preorder (mem_preorder_of_mem_children hcn)) hcount))
    rw [flatMap_bindings_eq hs hmem hst hps hle, List.append_assoc]
    have hfun : Scope.Tracks (Scope.ofFunction file n c :: ss) (⟨n, .body⟩ :: outer) :=
      hss.enter rfl fun _ => Descent.declares_body_iff hk hb hbk
    rw [List.append_assoc] at hm
    refine ih s (hmem s hst) (hfun.skip fun _ => ?_) (by simp)
      (fun _ => not_reachesBody_cons _ fun _ => ?_) hps (fun d hd => href d (by simp [hd]))
      hm.of_append
    · exact Descent.not_declares_of_reachesBody hbk ⟨_, rfl, hk, rfl⟩
    · simp [hbk, Kind.isFunctionLike]
  · next hbk =>
    have hhead : Scope.Tracks (Scope.ofHead file n :: ss) (⟨n, .body⟩ :: outer) := by
      refine hss.enter rfl fun _ => Descent.declares_head_iff hk fun _ b h => ?_
      obtain rfl := Option.some.inj (hb.symm.trans h)
      exact hbk
    exact ih c (mem_descendants_of_mem_children hcn) hhead (by simp) (fun h => absurd h hbk) hp href
      hm.of_append

theorem resolves_function (hk : n.kind.isFunctionLike = true) (hs : n.AllShaped)
    (hcount : countKey m.key [n] ≤ 1)
    (ih : ∀ c ∈ n.descendants, c.Resolves file m) : n.Resolves file m := by
  intro ss path outer hss _ _ hp href hm
  obtain ⟨rfl, rfl⟩ | ⟨l, c, path, hc, hpc, rfl⟩ := hp.cases_first
  · exact ⟨ss, hss, rfl⟩
  have hm := hm (by simp)
  have hrefn := href ⟨n, l⟩ (by simp)
  have hrefc : ∀ d ∈ path, d.isReference = true := fun d hd => href d (by simp [hd])
  have hkey : n.key ≠ m.key := by
    intro heq
    obtain ⟨h, -⟩ := hp.unique hcount .here rfl heq
    simp at h
  have hone := hpc.one_le_countKey rfl
  rw [bindings_function hk, Bindings.symbolsOf_append, Bindings.symbolsOf_append,
    symbolsOf_defaults, Bindings.symbolsOf_ofAnonymous hkey, List.nil_append, List.append_assoc,
    List.singleton_append]
  obtain rfl | rfl : l = .parameters ∨ l = .body := by
    simpa [Descent.isReference, Kind.refersIn_function hk] using hrefn
  · have hbody : (n.bodyBindings file ss).symbolsOf m.key = [] := by
      by_contra hne
      obtain ⟨b, hb, hone'⟩ := one_le_countKey_of_bodyBindings hs hk hp href hm hcount hne
      exact Label.noConfusion (eq_of_mem_nodesAt hcount hc hb hone hone').1
    rw [hbody, List.append_nil]
    exact resolves_defaults hk hs hcount ih hss hc hpc hrefc hm
  · have hdefaults : (n.defaults.flatMap fun e =>
        (e.bindings file (Scope.ofHead file n :: ss)).symbolsOf m.key) = [] := by
      by_contra hne
      obtain ⟨p, hp', hone'⟩ := one_le_countKey_of_defaults hs hne
      exact Label.noConfusion (eq_of_mem_nodesAt hcount hc hp' hone hone').1
    rw [hdefaults, List.nil_append]
    exact resolves_body hk hs hcount ih hss hc hpc hrefc hm

theorem resolves (hs : n.AllShaped) (hcount : countKey m.key [n] ≤ 1) : n.Resolves file m := by
  induction n using inductionOnDescendants with
  | h n ih =>
    have ih : ∀ c ∈ n.descendants, c.Resolves file m := fun c hc => by
      have hc' := mem_preorder_of_mem_descendants hc
      exact ih c hc (hs.of_mem_preorder hc')
        (Nat.le_trans (countKey_le_of_mem_preorder hc') hcount)
    obtain hk | hk | hk | hk | hk := n.cases_kind
    · exact resolves_importDeclaration hk
    · exact resolves_identifier hk hs
    · exact resolves_block hk hs hcount ih
    · exact resolves_function hk hs hcount ih
    · exact resolves_ordinary hk hs hcount ih

/-- A name resolves to what the scopes around it tell. -/
theorem head?_symbolsOf_identifier (hm : m.identifier? = some name) :
    ((m.bindings file ss).symbolsOf m.key).head? = Scope.lookup ss name := by
  rw [bindings_identifier (kind_of_identifier? hm), hm, Option.bind_some]
  cases Scope.lookup ss name with
  | none => rfl
  | some symbol => simp [Bindings.symbolsOf]

end Node

namespace SourceFile

variable {file : SourceFile} {m : Node} {k : Nat} {name : String} {path : List Descent}

def moduleScope (file : SourceFile) : Scope :=
  ⟨file.name, file.tree.key, Binding.hoistedInFunction (file.tree.list .statements)⟩

theorem symbolsOf_bindings (file : SourceFile) : file.bindings.symbolsOf k =
    (Bindings.ofScope file.moduleScope).symbolsOf k ++ (file.tree.list .statements).flatMap
      fun s => (s.bindings file.name [file.moduleScope]).symbolsOf k := by
  rw [bindings, Bindings.symbolsOf_append, Bindings.symbolsOf_join, List.flatMap_map]
  rfl

theorem one_le_countKey_of_bindings (hs : file.tree.AllShaped)
    (h : file.bindings.symbolsOf k ≠ []) : 1 ≤ Node.countKey k [file.tree] := by
  rw [symbolsOf_bindings] at h
  obtain h | h := not_and_or.mp (mt List.append_eq_nil_iff.mpr h)
  · exact Node.one_le_countKey_of_ofScope (fun b hb => Scope.located_hoistedInFunction hs hb) h
  · obtain ⟨symbol, hsymbol⟩ := List.exists_mem_of_ne_nil _ h
    obtain ⟨s, hst, hsymbol⟩ := List.mem_flatMap.mp hsymbol
    have hst := Node.mem_preorder_of_mem_children (Node.mem_children_of_mem_list hst)
    have hone := Node.one_le_countKey_of_bindings (hs.of_mem_preorder hst)
      (List.ne_nil_of_mem hsymbol)
    exact Nat.le_trans hone (Node.countKey_le_of_mem_preorder hst)

theorem tracks_moduleScope (hk : file.tree.kind = .sourceFile) (l : Label) :
    Scope.Tracks [file.moduleScope] [⟨file.tree, l⟩] := by
  refine Scope.Tracks.enter (fun _ => .undeclared) rfl fun name => ?_
  rw [moduleScope, Descent.names_hoistedInFunction_iff]
  constructor
  · intro h
    cases h with
    | module _ hs h => exact ⟨_, hs, h⟩
    | _ hk' => simp_all [Kind.isFunctionLike]
  · rintro ⟨s, hs, h⟩
    exact .module hk hs h

/-- What a file resolves at a place to which references lead. -/
theorem exists_tracks (hk : file.tree.kind = .sourceFile) (hs : file.tree.AllShaped)
    (hp : file.tree.Leads path m) (href : ∀ d ∈ path, d.isReference = true) (hm : m.IsSought path)
    (hcount : Node.countKey m.key [file.tree] ≤ 1) :
    ∃ ts, Scope.Tracks ts path ∧
      file.bindings.symbolsOf m.key = (m.bindings file.name ts).symbolsOf m.key := by
  obtain ⟨rfl, rfl⟩ | ⟨l, c, path, hc, hpc, rfl⟩ := hp.cases_first
  · simp [Node.IsSought, hk] at hm
  have hcn := Node.mem_children_of_mem_nodesAt hc
  obtain ⟨shape, hl⟩ := Node.label_mem_schema hc
  obtain ⟨rfl, rfl⟩ : l = .statements ∧ shape = .list := by simpa [hk, Kind.schema] using hl
  have hcs := Node.mem_list_of_mem_nodesAt hs.shaped.fields (by rw [hk]; rfl) hc
  have hmem : ∀ x ∈ file.tree.list .statements, x ∈ file.tree.descendants := fun x hx =>
    Node.mem_descendants_of_mem_children (Node.mem_children_of_mem_list hx)
  have hle := Nat.le_trans
    (Node.countKey_sublist (k := m.key) (file.tree.list_sublist_children .statements))
    (Node.countKey_children_le hcount)
  rw [symbolsOf_bindings, Node.flatMap_bindings_eq hs hmem hcs hpc hle,
    Node.symbolsOf_ofScope_eq_nil (fun b hb => Scope.located_hoistedInFunction hs hb) hp href hm
      hcount, List.nil_append]
  refine Node.resolves (hs.of_mem_children hcn) ?_ (tracks_moduleScope hk .statements)
    (by simp) (fun _ => Node.not_reachesBody_cons _ (by simp)) hpc
    (fun d hd => href d (by simp [hd])) hm.of_append
  exact Nat.le_trans (Node.countKey_le_of_mem_preorder (Node.mem_preorder_of_mem_children hcn)) hcount

/-- A reference in a file resolves to the innermost declaration on the way to it. -/
theorem innermost_bindings (hk : file.tree.kind = .sourceFile) (hs : file.tree.AllShaped)
    (hp : file.tree.Leads path m) (href : ∀ d ∈ path, d.isReference = true)
    (hm : m.identifier? = some name) (hcount : Node.countKey m.key [file.tree] ≤ 1) :
    Descent.Innermost name path (file.bindings.symbolsOf m.key).head? := by
  obtain ⟨ts, hts, heq⟩ := exists_tracks hk hs hp href (.inl (Node.kind_of_identifier? hm)) hcount
  rw [heq, Node.head?_symbolsOf_identifier hm]
  exact hts name

end SourceFile

theorem SourceFile.parse_eq_ok {name source : String} {file : SourceFile}
    (h : SourceFile.parse name source = .ok file) :
    ∃ tree, Quasiquote.parse source = .ok tree ∧ file = ⟨name, source, tree⟩ := by
  unfold SourceFile.parse at h
  cases ht : Quasiquote.parse source with
  | error e => simp [ht, Except.map] at h
  | ok tree => exact ⟨tree, rfl, by simpa [ht, Except.map] using h.symm⟩

theorem SourceFile.parse_allRead {name source : String} {file : SourceFile}
    (h : SourceFile.parse name source = .ok file) :
    file.tree.AllRead ∧ file.tree.kind = .sourceFile := by
  obtain ⟨tree, ht, rfl⟩ := SourceFile.parse_eq_ok h
  exact Quasiquote.parse_allRead ht

theorem SourceFile.parse_of_mem_toList {name source : String} {file : SourceFile}
    (h : file ∈ (SourceFile.parse name source).toOption.toList) :
    SourceFile.parse file.name source = .ok file := by
  cases hp : SourceFile.parse name source with
  | error e => simp [hp, Except.toOption] at h
  | ok f =>
    obtain rfl : file = f := by simpa [hp, Except.toOption] using h
    obtain ⟨tree, -, rfl⟩ := SourceFile.parse_eq_ok hp
    exact hp

/-- The innermost declaration is one. -/
theorem Descent.Innermost.unique {name : String} {path : List Descent} {a b : Option Symbol}
    (ha : Innermost name path a) (hb : Innermost name path b) : a = b := by
  induction ha with
  | undeclared =>
    cases hb
    rfl
  | declared h =>
    cases hb with
    | declared => rfl
    | outward hno => exact absurd h hno
  | outward hno _ ih =>
    cases hb with
    | declared h => exact absurd h hno
    | outward _ ho => exact ih ho

theorem Descent.Innermost.exists_declares {name : String} {path : List Descent} {symbol : Symbol}
    (h : Innermost name path (some symbol)) :
    ∃ d ∈ path, (∃ outer, d.Declares name outer) ∧ symbol = .named d.node.key name := by
  generalize hs : some symbol = s at h
  induction h with
  | undeclared => cases hs
  | declared h => exact ⟨_, List.mem_cons_self, ⟨_, h⟩, Option.some.inj hs⟩
  | outward _ _ ih =>
    obtain ⟨d, hd, h⟩ := ih hs
    exact ⟨d, List.mem_cons_of_mem _ hd, h⟩

namespace Program

/-- In a program of trees where an identity occurs once, its file alone resolves it. -/
theorem resolve?_eq {p : Program} {file : SourceFile} {m : Node} {path : List Descent}
    (hs : ∀ f ∈ p.files, f.tree.AllShaped) (hfile : file ∈ p.files)
    (hp : file.tree.Leads path m) (hid : m.id?.isSome = true)
    (hcount : Node.countKey m.key (p.files.map SourceFile.tree) ≤ 1) :
    p.model.resolve? m = (file.bindings.symbolsOf m.key).head? := by
  obtain ⟨id, hid⟩ := Option.isSome_iff_exists.mp hid
  have hkey : m.key = id := by simp [Node.key, hid]
  have hresolve : p.model.resolve? m =
      (Bindings.join (p.files.map SourceFile.bindings)).resolutions.lookup m.key := by
    rw [Model.resolve?, hid, hkey]
    rfl
  rw [hresolve, Bindings.lookup_resolutions, Bindings.symbolsOf_join, List.flatMap_map]
  congr 1
  exact Node.flatMap_eq_of_countKey SourceFile.tree
    (fun f hf h => SourceFile.one_le_countKey_of_bindings (hs f hf) h) hfile
    (hp.one_le_countKey rfl) hcount

structure IsRead (p : Program) : Prop where
  shaped : ∀ f ∈ p.files, f.tree.AllShaped
  kind : ∀ f ∈ p.files, f.tree.kind = .sourceFile
  ids : ∀ f ∈ p.files, ∀ m ∈ f.tree.preorder, m.id?.isSome = true
  unique : ∀ k, Node.countKey k (p.files.map SourceFile.tree) ≤ 1

theorem IsRead.countKey_le_one {p : Program} {file : SourceFile} (hp : p.IsRead)
    (hfile : file ∈ p.files) (k : Nat) : Node.countKey k [file.tree] ≤ 1 :=
  Nat.le_trans (Node.countKey_sublist (List.singleton_sublist.mpr (List.mem_map_of_mem hfile)))
    (hp.unique k)

theorem isRead_ofFiles {files : List SourceFile}
    (h : ∀ f ∈ files, ∃ source, SourceFile.parse f.name source = .ok f) :
    (ofFiles files).IsRead := by
  have hread : ∀ f ∈ files, f.tree.AllRead ∧ f.tree.kind = .sourceFile := by
    intro f hf
    obtain ⟨source, h⟩ := h f hf
    exact SourceFile.parse_allRead h
  refine ⟨fun f hf => ?_, fun f hf => ?_, fun f hf m hm => ?_,
    countKey_ofFiles_le_one fun f hf m hm => ((hread f hf).1 m hm).id⟩
  all_goals obtain ⟨g, hg, k, rfl⟩ := exists_of_mem_ofFiles hf
  · exact .of_bare (Node.bare_number g.tree k) fun m hm => ((hread g hg).1 m hm).shaped
  · have hkind : (g.tree.number k).1.kind = g.tree.kind := by
      simpa using congrArg Node.kind (Node.bare_number g.tree k)
    exact hkind.trans (hread g hg).2
  · exact Node.isSome_id?_number g.tree k m hm

/-- A reference in a program of read files resolves to a symbol if and only if that is the innermost
declaration of its name on the way to it. The order of declarations plays no part in what a scope
declares. -/
theorem resolve?_reference {files : List SourceFile} {file : SourceFile} {path : List Descent}
    {n : Node} {name : String}
    (hfiles : ∀ f ∈ files, ∃ source, SourceFile.parse f.name source = .ok f)
    (hfile : file ∈ (ofFiles files).files) (hpath : file.tree.Leads path n)
    (href : ∀ d ∈ path, d.isReference = true) (hname : n.identifier? = some name)
    (symbol : Option Symbol) :
    (ofFiles files).model.resolve? n = symbol ↔ Descent.Innermost name path symbol := by
  have hread := isRead_ofFiles hfiles
  have hinner := SourceFile.innermost_bindings (hread.kind file hfile) (hread.shaped file hfile)
    hpath href hname (hread.countKey_le_one hfile n.key)
  rw [resolve?_eq hread.shaped hfile hpath (hread.ids file hfile n hpath.mem_preorder)
    (hread.unique n.key)]
  constructor
  · rintro rfl
    exact hinner
  · exact hinner.unique

/-- A variable of the module, and one hoisted out of a block after the reference: the default of the
parameter sees the first and the body the second. -/
theorem resolve?_reference_hoisted :
    ∃ files, files = (SourceFile.parse "a.ts"
      "var x; function f(y = x) \x7b return x; \x7b var x; \x7d \x7d").toOption.toList ∧
    ∃ file ∈ (ofFiles files).files, ∃ path n path' n',
      file.tree.Leads path n ∧ file.tree.Leads path' n' ∧
      n.identifier? = some "x" ∧ n'.identifier? = some "x" ∧
      Descent.Innermost "x" path (some (.named 1 "x")) ∧
      Descent.Innermost "x" path' (some (.named 6 "x")) := by
  obtain ⟨files, hfiles, hcheck⟩ : ∃ files, files = (SourceFile.parse "a.ts"
      "var x; function f(y = x) \x7b return x; \x7b var x; \x7d \x7d").toOption.toList ∧
      ((ofFiles files).files.any fun file =>
        ((file.tree.descend? [(.statements, 1), (.parameters, 0), (.initializer, 0)]).any
          fun place => place.1.all Descent.isReference && (place.2.identifier? = some "x" &&
            (ofFiles files).model.resolve? place.2 = some (.named 1 "x"))) &&
        ((file.tree.descend? [(.statements, 1), (.body, 0), (.statements, 0), (.expression, 0)]).any
          fun place => place.1.all Descent.isReference && (place.2.identifier? = some "x" &&
            (ofFiles files).model.resolve? place.2 = some (.named 6 "x")))) = true :=
    ⟨_, rfl, by decide +kernel⟩
  have hread : ∀ f ∈ files, ∃ source, SourceFile.parse f.name source = .ok f :=
    fun f hf => ⟨_, SourceFile.parse_of_mem_toList (hfiles ▸ hf)⟩
  obtain ⟨file, hfile, h⟩ := List.any_eq_true.mp hcheck
  obtain ⟨hdefault, hreturn⟩ := (Bool.and_eq_true _ _).mp h
  obtain ⟨⟨path, n⟩, hn, hdefault⟩ := (Option.any_eq_true _ _).mp hdefault
  obtain ⟨⟨path', n'⟩, hn', hreturn⟩ := (Option.any_eq_true _ _).mp hreturn
  simp only [Bool.and_eq_true, List.all_eq_true, decide_eq_true_eq] at hdefault hreturn
  have hp := Node.leads_of_descend? hn
  have hp' := Node.leads_of_descend? hn'
  exact ⟨files, hfiles, file, hfile, path, n, path', n', hp, hp', hdefault.2.1, hreturn.2.1,
    (resolve?_reference hread hfile hp hdefault.1 hdefault.2.1 _).mp hdefault.2.2,
    (resolve?_reference hread hfile hp' hreturn.1 hreturn.2.1 _).mp hreturn.2.2⟩

end Program

end Quasiquote
