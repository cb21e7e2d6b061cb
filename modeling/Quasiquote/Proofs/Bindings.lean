import Quasiquote.Proofs.Scoping

namespace Quasiquote

namespace Bindings

variable (k : Nat)

def symbolsOf (b : Bindings) : List Symbol :=
  (b.resolutions.filter fun r => r.1 = k).map Prod.snd

theorem lookup_resolutions (b : Bindings) : b.resolutions.lookup k = (b.symbolsOf k).head? := by
  unfold symbolsOf
  induction b.resolutions with
  | nil => rfl
  | cons r rest ih =>
    obtain ⟨i, s⟩ := r
    by_cases h : i = k
    · subst h
      simp
    · have h' : (k == i) = false := by simpa using Ne.symm h
      simp [List.lookup_cons, h', h, ih]

theorem symbolsOf_empty : symbolsOf k {} = [] := rfl

theorem symbolsOf_append (a b : Bindings) :
    (a.append b).symbolsOf k = a.symbolsOf k ++ b.symbolsOf k := by
  simp [symbolsOf, append]

theorem symbolsOf_join (parts : List Bindings) :
    (join parts).symbolsOf k = parts.flatMap (symbolsOf k) := by
  simp only [symbolsOf, join]
  induction parts with
  | nil => rfl
  | cons p parts ih =>
    rw [List.flatMap_cons, List.filter_append, List.map_append, ih]
    rfl

/-- What holds of bindings as soon as it holds of the parts that they are put together from. -/
structure Composes (Q : Bindings → Prop) : Prop where
  empty : Q {}
  append {a b : Bindings} (ha : Q a) (hb : Q b) : Q (a.append b)

theorem Composes.join {α : Type} {Q : Bindings → Prop} (hQ : Composes Q) {f : α → Bindings}
    {xs : List α} (h : ∀ x ∈ xs, Q (f x)) : Q (join (xs.map f)) := by
  induction xs with
  | nil => exact hQ.empty
  | cons x xs ih =>
    obtain ⟨hx, hxs⟩ := List.forall_mem_cons.mp h
    exact hQ.append hx (ih hxs)

theorem composes_resolutions {r : Nat × Symbol} {P : Prop} :
    Composes fun b => r ∈ b.resolutions → P where
  empty h := absurd h List.not_mem_nil
  append ha hb h := (List.mem_append.mp h).elim ha hb

theorem composes_scopes {s : Scope} {P : Prop} : Composes fun b => s ∈ b.scopes → P where
  empty h := absurd h List.not_mem_nil
  append ha hb h := (List.mem_append.mp h).elim ha hb

theorem composes_symbolsOf {P : Prop} : Composes fun b => b.symbolsOf k ≠ [] → P where
  empty h := absurd rfl h
  append ha hb h := by
    rw [symbolsOf_append] at h
    exact (not_and_or.mp (mt List.append_eq_nil_iff.mpr h)).elim ha hb

end Bindings

def Scope.ofBlock (file : String) (n : Node) : Scope :=
  ⟨file, n.key, Binding.hoistedInBlock (n.list .statements)⟩

def Scope.ofHead (file : String) (n : Node) : Scope :=
  ⟨file, n.key, Binding.ofOwnName n ++ Binding.ofParameters n⟩

def Scope.ofFunction (file : String) (n body : Node) : Scope :=
  ⟨file, n.key, (Binding.ofOwnName n ++ Binding.ofParameters n) ++
    Binding.hoistedInFunction (body.list .statements)⟩

namespace Node

variable {file : String} {ss : List Scope} {n : Node} (k : Nat)

def defaults (n : Node) : List Node :=
  (n.list .parameters).filterMap (child? · .initializer)

theorem smaller?_of_some {l : Label} {c : Node} (h : n.child? l = some c) :
    n.smaller? l = some ⟨c, sizeOf_child h⟩ := by
  unfold smaller?
  split
  · next d hd =>
    obtain rfl : c = d := Option.some.inj (h.symm.trans hd)
    rfl
  · next hd => cases h.symm.trans hd

theorem smaller?_of_none {l : Label} (h : n.child? l = none) : n.smaller? l = none := by
  unfold smaller?
  split
  · next d hd => cases h.symm.trans hd
  · rfl

theorem bindings_importDeclaration (hk : n.kind = .importDeclaration) :
    n.bindings file ss = {} := by
  rw [bindings, hk]

theorem bindings_identifier (hk : n.kind = .identifier) : n.bindings file ss =
    match n.identifier?.bind (Scope.lookup ss) with
    | some symbol => ⟨[(n.key, symbol)], []⟩
    | none => {} := by
  have h := bindings.eq_def file ss n
  rw [hk] at h
  exact h

theorem bindings_block (hk : n.kind = .block) : n.bindings file ss =
    (Bindings.ofScope (Scope.ofBlock file n)).append
      (.join ((n.list .statements).map (bindings file (Scope.ofBlock file n :: ss)))) := by
  rw [bindings, hk]
  dsimp only
  rw [map_smallerList n .statements]
  rfl

def bodyBindings (file : String) (ss : List Scope) (n : Node) : Bindings :=
  match n.child? .body with
  | none => .ofScope (Scope.ofHead file n)
  | some body =>
    if body.kind = .block then
      (Bindings.ofScope (Scope.ofFunction file n body)).append
        (.join ((body.list .statements).map (bindings file (Scope.ofFunction file n body :: ss))))
    else
      (Bindings.ofScope (Scope.ofHead file n)).append
        (body.bindings file (Scope.ofHead file n :: ss))

theorem bindings_function (hk : n.kind.isFunctionLike = true) : n.bindings file ss =
    (Bindings.ofAnonymous n).append
      ((Bindings.join ((n.list .parameters).map fun p =>
        (p.child? .initializer).elim {} (bindings file (Scope.ofHead file n :: ss)))).append
        (n.bodyBindings file ss)) := by
  have hdefaults : ((n.smallerList .parameters).map fun p =>
      (p.1.smaller? .initializer).elim {} fun e => bindings file (Scope.ofHead file n :: ss) e.1) =
      (n.list .parameters).map fun p =>
        (p.child? .initializer).elim {} (bindings file (Scope.ofHead file n :: ss)) := by
    rw [← map_smallerList]
    apply List.map_congr_left
    rintro ⟨p, hp⟩ -
    exact elim_smaller? p .initializer ({} : Bindings) _
  rw [bindings]
  split
  all_goals first | (simp_all [Kind.isFunctionLike]; done) | skip
  all_goals
    refine congrArg₂ Bindings.append rfl (congrArg₂ Bindings.append ?_ ?_)
    · exact congrArg Bindings.join hdefaults
    · unfold bodyBindings
      cases hb : n.child? .body with
      | none => rw [smaller?_of_none hb]; rfl
      | some body =>
        rw [smaller?_of_some hb]
        dsimp only
        split
        · rw [map_smallerList body .statements]
          rfl
        · rfl

def IsOrdinary (n : Node) : Prop :=
  n.kind ≠ .importDeclaration ∧ n.kind ≠ .identifier ∧ n.kind ≠ .block ∧
    n.kind.isFunctionLike = false

theorem bindings_ordinary (hn : n.IsOrdinary) :
    n.bindings file ss = .join (n.referencing.map (bindings file ss)) := by
  obtain ⟨hi, hid, hb, hf⟩ := hn
  rw [bindings]
  split
  case h_7 => simp
  all_goals simp_all [Kind.isFunctionLike]

theorem cases_kind (n : Node) : n.kind = .importDeclaration ∨ n.kind = .identifier ∨
    n.kind = .block ∨ n.kind.isFunctionLike = true ∨ n.IsOrdinary := by
  unfold IsOrdinary
  grind

end Node

theorem Bindings.exists_of_symbolsOf_ofScope {s : Scope} {k : Nat}
    (h : (ofScope s).symbolsOf k ≠ []) :
    ∃ b ∈ s.bindings, b.nameNode.key = k ∨
      (b.declaration.kind.isFunctionLike = true ∧ b.declaration.key = k) := by
  obtain ⟨symbol, hsymbol⟩ := List.exists_mem_of_ne_nil _ h
  obtain ⟨⟨i, _⟩, hr, rfl⟩ := List.mem_map.mp hsymbol
  obtain ⟨hmem, hi⟩ := List.mem_filter.mp hr
  obtain rfl : i = k := by simpa using hi
  obtain ⟨b, hb, hr⟩ := List.mem_flatMap.mp hmem
  refine ⟨b, hb, ?_⟩
  dsimp only at hr
  split at hr
  · next hf =>
    simp only [List.mem_cons, Prod.mk.injEq, List.not_mem_nil, or_false] at hr
    exact hr.imp (fun h => h.1.symm) (fun h => ⟨hf, h.1.symm⟩)
  · simp only [List.mem_singleton, Prod.mk.injEq] at hr
    exact .inl hr.1.symm

theorem Bindings.symbolsOf_ofAnonymous {n : Node} {k : Nat} (h : n.key ≠ k) :
    (ofAnonymous n).symbolsOf k = [] := by
  unfold ofAnonymous
  split
  · simp [symbolsOf, h]
  · rfl

namespace Scope

variable {file : String} {n body : Node} {b : Binding}

theorem located_ofBlock (hs : n.AllShaped) (hb : b ∈ (ofBlock file n).bindings) :
    Binding.Located n b := by
  obtain ⟨s, h, hb⟩ := List.mem_flatMap.mp hb
  have hshaped := hs.of_mem_children (Node.mem_children_of_mem_list h)
  exact (Binding.located_of_mem_ofStatement hshaped hb).up (Node.mem_nodesAt_of_mem_list h)
    (by simp)

theorem located_ofHead (hs : n.AllShaped) (hk : n.kind.isFunctionLike = true)
    (hb : b ∈ (ofHead file n).bindings) : Binding.Located n b := by
  rcases List.mem_append.mp hb with hb | hb
  · exact Binding.located_of_mem_ofOwnName hk hb
  · exact Binding.located_of_mem_ofParameters hs hb

theorem located_hoistedInFunction (hs : n.AllShaped)
    (hb : b ∈ Binding.hoistedInFunction (n.list .statements)) : Binding.Located n b := by
  obtain ⟨s, h, hb⟩ := List.mem_flatMap.mp hb
  have hshaped := hs.of_mem_children (Node.mem_children_of_mem_list h)
  have hat := Node.mem_nodesAt_of_mem_list h
  rcases List.mem_append.mp hb with hb | hb
  · exact (Binding.located_of_mem_ofStatement hshaped hb).up hat (by simp)
  · exact (Binding.located_of_mem_ofVars hshaped hb).up hat (by simp)

theorem located_ofFunction (hs : n.AllShaped) (hk : n.kind.isFunctionLike = true)
    (hbody : n.child? .body = some body) (hb : b ∈ (ofFunction file n body).bindings) :
    Binding.Located n b := by
  rcases List.mem_append.mp hb with hb | hb
  · exact located_ofHead hs hk (show b ∈ (ofHead file n).bindings from hb)
  · have hshaped := hs.of_mem_children (Node.mem_children_of_child? hbody)
    exact (located_hoistedInFunction hshaped hb).up (Node.mem_nodesAt_of_child? hbody) (by simp)

end Scope

namespace Node

variable {file : String} {ss : List Scope} {n m : Node} {k : Nat} {path : List Descent}

theorem one_le_countKey_of_ofScope {s : Scope} (hs : ∀ b ∈ s.bindings, Binding.Located n b)
    (h : (Bindings.ofScope s).symbolsOf k ≠ []) : 1 ≤ countKey k [n] := by
  obtain ⟨b, hb, hkey | ⟨hf, hkey⟩⟩ := Bindings.exists_of_symbolsOf_ofScope h
  · obtain ⟨path, hp, -⟩ := (hs b hb).name
    exact hp.one_le_countKey hkey
  · obtain ⟨path, hp, -⟩ := (hs b hb).function hf
    exact hp.one_le_countKey hkey

/-- A name, or the tag of a template, at the end of a way: what is resolved where it stands. -/
def IsSought (m : Node) (path : List Descent) : Prop :=
  m.kind = .identifier ∨ ∃ d ∈ path.head?, d.label = .tag

theorem IsSought.of_append {m : Node} {path rest : List Descent} (h : m.IsSought (path ++ rest))
    (hne : path ≠ []) : m.IsSought path := by
  cases path with
  | nil => exact absurd rfl hne
  | cons d path => exact h

/-- The names and functions of a scope are not the references below it. -/
theorem symbolsOf_ofScope_eq_nil {s : Scope} (hs : ∀ b ∈ s.bindings, Binding.Located n b)
    (hp : n.Leads path m) (href : ∀ d ∈ path, d.isReference = true) (hm : m.IsSought path)
    (hcount : countKey m.key [n] ≤ 1) : (Bindings.ofScope s).symbolsOf m.key = [] := by
  by_contra h
  obtain ⟨b, hb, hkey | ⟨hf, hkey⟩⟩ := Bindings.exists_of_symbolsOf_ofScope h
  · obtain ⟨path', hp', ⟨d, hd, hno⟩, -⟩ := (hs b hb).name
    obtain ⟨rfl, -⟩ := hp.unique hcount hp' rfl hkey
    rw [href d hd] at hno
    cases hno
  · obtain ⟨path', hp', htag⟩ := (hs b hb).function hf
    obtain ⟨rfl, rfl⟩ := hp.unique hcount hp' rfl hkey
    obtain hm | ⟨d, hd, hl⟩ := hm
    · rw [hm] at hf
      cases hf
    · exact htag d hd hl

theorem countKey_sublist {ns ms : List Node} (h : ns.Sublist ms) :
    countKey k ns ≤ countKey k ms := by
  exact (h.flatMap preorder).countP_le

theorem referencing_sublist (n : Node) : n.referencing.Sublist n.children := by
  unfold referencing children
  generalize n.kind.schema = schema
  generalize n.fields = fields
  induction schema generalizing fields with
  | nil => simp
  | cons s schema ih =>
    cases fields with
    | nil => simp
    | cons f fields =>
      simp only [List.zip_cons_cons, List.flatMap_cons]
      apply List.Sublist.append
      · split
        · exact List.Sublist.refl _
        · exact List.nil_sublist _
      · exact ih fields

theorem countKey_defaults_le (n : Node) : countKey k n.defaults ≤ countKey k (n.list .parameters) := by
  unfold defaults
  induction n.list .parameters with
  | nil => exact Nat.le_refl _
  | cons p ps ih =>
    rw [List.filterMap_cons, countKey_cons k p]
    split
    · omega
    · next e he =>
      have hle : countKey k [e] ≤ countKey k [p] :=
        countKey_le_of_mem_preorder (mem_preorder_of_mem_children (mem_children_of_child? he))
      rw [countKey_cons]
      omega

theorem symbolsOf_defaults {ts : List Scope} (n : Node) :
    (Bindings.join ((n.list .parameters).map fun p =>
      (p.child? .initializer).elim {} (bindings file ts))).symbolsOf k =
      n.defaults.flatMap fun e => (e.bindings file ts).symbolsOf k := by
  unfold defaults
  rw [Bindings.symbolsOf_join, List.flatMap_map]
  induction n.list .parameters with
  | nil => rfl
  | cons p ps ih =>
    rw [List.flatMap_cons, ih, List.filterMap_cons]
    cases p.child? .initializer <;> simp [Bindings.symbolsOf_empty]

def descendants (n : Node) : List Node :=
  n.children.flatMap preorder

theorem mem_descendants_of_mem_children {c : Node} (h : c ∈ n.children) : c ∈ n.descendants :=
  List.mem_flatMap.mpr ⟨c, h, c.self_mem_preorder⟩

theorem mem_descendants_of_mem_children_of_mem_children {c d : Node} (h : c ∈ n.children)
    (hd : d ∈ c.children) : d ∈ n.descendants :=
  List.mem_flatMap.mpr ⟨c, h, mem_preorder_of_mem_children hd⟩

theorem mem_preorder_of_mem_descendants {c : Node} (h : c ∈ n.descendants) : c ∈ n.preorder :=
  n.flatMap_children_sublist.subset h

@[elab_as_elim]
theorem inductionOnDescendants {motive : Node → Prop}
    (h : ∀ n, (∀ c ∈ n.descendants, motive c) → motive n) (n : Node) : motive n := by
  suffices ∀ c ∈ n.preorder, motive c from this n n.self_mem_preorder
  induction n using inductionOnChildren with
  | h n ih =>
    have hdescendants : ∀ c ∈ n.descendants, motive c := by
      intro c hc
      obtain ⟨d, hd, hc⟩ := List.mem_flatMap.mp hc
      exact ih d hd c hc
    intro c hc
    rw [preorder_eq, List.mem_cons] at hc
    obtain rfl | hc := hc
    · exact h _ hdescendants
    · exact hdescendants c hc

theorem mem_descendants_of_mem_defaults {e : Node} (h : e ∈ n.defaults) : e ∈ n.descendants := by
  obtain ⟨p, hp, he⟩ := List.mem_filterMap.mp h
  exact mem_descendants_of_mem_children_of_mem_children (mem_children_of_mem_list hp)
    (mem_children_of_child? he)

/-- Where resolution goes on from a node, and inside which scopes. -/
inductive Enters (file : String) (ss : List Scope) (n : Node) : Node → List Scope → Prop
  | statement {c : Node} (hk : n.kind = .block) (hc : c ∈ n.list .statements) :
    Enters file ss n c (Scope.ofBlock file n :: ss)
  | default {q e : Node} (hk : n.kind.isFunctionLike = true) (hq : q ∈ n.list .parameters)
    (he : q.child? .initializer = some e) : Enters file ss n e (Scope.ofHead file n :: ss)
  | bodyStatement {body c : Node} (hk : n.kind.isFunctionLike = true)
    (hb : n.child? .body = some body) (hbk : body.kind = .block) (hc : c ∈ body.list .statements) :
    Enters file ss n c (Scope.ofFunction file n body :: ss)
  | bodyExpression {body : Node} (hk : n.kind.isFunctionLike = true)
    (hb : n.child? .body = some body) (hbk : body.kind ≠ .block) :
    Enters file ss n body (Scope.ofHead file n :: ss)
  | part {c : Node} (hn : n.IsOrdinary) (hc : c ∈ n.referencing) : Enters file ss n c ss

inductive Opens (file : String) (n : Node) : Scope → Prop
  | block (hk : n.kind = .block) : Opens file n (Scope.ofBlock file n)
  | head (hk : n.kind.isFunctionLike = true)
    (hb : ∀ body, n.child? .body = some body → body.kind ≠ .block) :
    Opens file n (Scope.ofHead file n)
  | function {body : Node} (hk : n.kind.isFunctionLike = true) (hb : n.child? .body = some body)
    (hbk : body.kind = .block) : Opens file n (Scope.ofFunction file n body)

theorem Enters.mem_descendants {c : Node} {ts : List Scope} (h : n.Enters file ss c ts) :
    c ∈ n.descendants := by
  cases h with
  | statement _ hc => exact mem_descendants_of_mem_children (mem_children_of_mem_list hc)
  | default _ hq he =>
    exact mem_descendants_of_mem_children_of_mem_children (mem_children_of_mem_list hq)
      (mem_children_of_child? he)
  | bodyStatement _ hb _ hc =>
    exact mem_descendants_of_mem_children_of_mem_children (mem_children_of_child? hb)
      (mem_children_of_mem_list hc)
  | bodyExpression _ hb => exact mem_descendants_of_mem_children (mem_children_of_child? hb)
  | part _ hc => exact mem_descendants_of_mem_children (mem_children_of_mem_referencing hc)

theorem Opens.owner_eq {s : Scope} (h : n.Opens file s) : s.owner = n.key := by
  cases h <;> rfl

theorem Opens.located {s : Scope} (h : n.Opens file s) (hs : n.AllShaped) :
    ∀ b ∈ s.bindings, Binding.Located n b := by
  cases h with
  | block => exact fun b => Scope.located_ofBlock hs
  | head hk => exact fun b => Scope.located_ofHead hs hk
  | function hk hb => exact fun b => Scope.located_ofFunction hs hk hb

/-- What composes holds of the bindings of a node if it holds of the name that it is, of the scopes
that it opens and of the bindings of the nodes where resolution goes on. -/
theorem bindings_compose {Q : Bindings → Prop} (hQ : Bindings.Composes Q)
    (hname : n.kind = .identifier → ∀ symbol, n.identifier?.bind (Scope.lookup ss) = some symbol →
      Q ⟨[(n.key, symbol)], []⟩)
    (hanonymous : n.kind.isFunctionLike = true → Q (.ofAnonymous n))
    (hscope : ∀ s, n.Opens file s → Q (.ofScope s))
    (hpart : ∀ c ts, n.Enters file ss c ts → Q (c.bindings file ts)) : Q (n.bindings file ss) := by
  obtain hk | hk | hk | hk | hk := n.cases_kind
  · rw [bindings_importDeclaration hk]
    exact hQ.empty
  · rw [bindings_identifier hk]
    split
    · next symbol hsymbol => exact hname hk symbol hsymbol
    · exact hQ.empty
  · rw [bindings_block hk]
    exact hQ.append (hscope _ (.block hk)) (hQ.join fun c hc => hpart c _ (.statement hk hc))
  · rw [bindings_function hk]
    refine hQ.append (hanonymous hk) (hQ.append (hQ.join fun q hq => ?_) ?_)
    · cases he : q.child? .initializer with
      | none => exact hQ.empty
      | some e => exact hpart e _ (.default hk hq he)
    · unfold bodyBindings
      cases hb : n.child? .body with
      | none => exact hscope _ (.head hk (by simp [hb]))
      | some body =>
        dsimp only
        split
        · next hbk =>
          exact hQ.append (hscope _ (.function hk hb hbk))
            (hQ.join fun c hc => hpart c _ (.bodyStatement hk hb hbk hc))
        · next hbk =>
          exact hQ.append (hscope _ (.head hk (by simpa [hb] using hbk)))
            (hpart body _ (.bodyExpression hk hb hbk))
  · rw [bindings_ordinary hk]
    exact hQ.join fun c hc => hpart c _ (.part hk hc)

/-- What a tree resolves belongs to the tree. -/
theorem one_le_countKey_of_bindings (hs : n.AllShaped)
    (h : (n.bindings file ss).symbolsOf k ≠ []) : 1 ≤ countKey k [n] := by
  induction n using inductionOnDescendants generalizing ss with
  | h n ih =>
    refine bindings_compose (Bindings.composes_symbolsOf (k := k)) (fun _ symbol _ hne => ?_)
      (fun _ hne => ?_) (fun s hopens => one_le_countKey_of_ofScope (hopens.located hs))
      (fun c ts henters hne => ?_) h
    · by_cases hkey : n.key = k
      · exact Leads.here.one_le_countKey hkey
      · simp [Bindings.symbolsOf, hkey] at hne
    · by_contra hcount
      exact hne (Bindings.symbolsOf_ofAnonymous fun hkey =>
        hcount (Leads.here.one_le_countKey hkey))
    · have hmem := mem_preorder_of_mem_descendants henters.mem_descendants
      exact Nat.le_trans (ih c henters.mem_descendants (hs.of_mem_preorder hmem) hne)
        (countKey_le_of_mem_preorder hmem)

end Node

end Quasiquote
