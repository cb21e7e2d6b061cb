import Quasiquote.Expansion.Drawing
import Quasiquote.Proofs.Identity

namespace Quasiquote

def Mark.Gains (bound : Nat) (a b : Mark) : Prop :=
  b.span = a.span ∧ (b.id = a.id ∨ a.id = none ∧ ∃ k, bound ≤ k ∧ b.id = some k)

namespace Node

/-- A tree in which nodes without an identity may have got one, none of them below a bound. -/
inductive Gains (bound : Nat) : Node → Node → Prop
  | mk {kind : Kind} {mark mark' : Mark} {fields fields' : List Field}
    (hmark : mark.Gains bound mark')
    (h : List.Forall₂ (Field.Rel (Gains bound)) fields fields') :
    Gains bound (.mk kind mark fields) (.mk kind mark' fields')

variable {bound : Nat} {n m k : Node}

theorem isSimulation_gains (bound : Nat) : IsSimulation (Gains bound) := by
  rintro _ _ ⟨-, h⟩
  exact ⟨rfl, h⟩

theorem Gains.mark (h : n.Gains bound m) : n.mark.Gains bound m.mark := by
  obtain ⟨hmark, -⟩ := h
  exact hmark

theorem gains_of_keeps (hmark : n.mark.Gains bound m.mark) (h : n.Keeps (Gains bound) m) :
    n.Gains bound m := by
  obtain ⟨kind, mark, fields⟩ := n
  obtain ⟨kind', mark', fields'⟩ := m
  obtain rfl : kind = kind' := h.kind
  exact .mk hmark h.fields

/-- Trees that agree node by node, up to marks that gain an identity. -/
theorem IsSimulation.gains {R : Node → Node → Prop} (hR : IsSimulation R)
    (hmark : ∀ n m, R n m → n.mark.Gains bound m.mark) (h : R n m) : n.Gains bound m := by
  induction n using inductionOnChildren generalizing m with
  | h n ih => exact gains_of_keeps (hmark n m h) ((hR n m h).imp_of_mem fun c hc d => ih c hc)

theorem Gains.refl (n : Node) : n.Gains bound n := by
  refine IsSimulation.gains (R := Eq) ?_ ?_ rfl
  · rintro n _ rfl
    exact .refl n fun _ _ => rfl
  · rintro n _ rfl
    exact ⟨rfl, .inl rfl⟩

theorem Gains.trans (h : n.Gains bound m) (h' : m.Gains bound k) : n.Gains bound k := by
  refine IsSimulation.gains (R := Relation.Comp (Gains bound) (Gains bound)) ?_ ?_ ⟨m, h, h'⟩
  · rintro n k ⟨m, h, h'⟩
    exact (isSimulation_gains bound n m h).comp (isSimulation_gains bound m k h')
  · rintro n k ⟨m, h, h'⟩
    obtain ⟨hspan, hid⟩ := h.mark
    obtain ⟨hspan', hid'⟩ := h'.mark
    refine ⟨hspan'.trans hspan, ?_⟩
    obtain hid | ⟨hnone, i, hi, hid⟩ := hid
    · rwa [hid] at hid'
    · obtain hid' | ⟨hnone', -⟩ := hid'
      · exact .inr ⟨hnone, i, hi, hid'.trans hid⟩
      · cases hid.symm.trans hnone'

theorem Gains.mono {low : Nat} (h : n.Gains bound m) (hle : low ≤ bound) : n.Gains low m := by
  refine (isSimulation_gains bound).gains (fun n m h => ?_) h
  obtain ⟨hspan, hid⟩ := h.mark
  refine ⟨hspan, hid.imp_right ?_⟩
  rintro ⟨hnone, i, hi, hid⟩
  exact ⟨hnone, i, Nat.le_trans hle hi, hid⟩

theorem gains_number (n : Node) {next : Nat} (h : bound ≤ next) :
    n.Gains bound (n.number next).1 := by
  refine (isSimulation_numbers bound).gains ?_ ⟨next, h, rfl⟩
  rintro ⟨kind, ⟨id, span⟩, fields⟩ _ ⟨next, h, rfl⟩
  refine ⟨rfl, ?_⟩
  cases id with
  | none => exact .inr ⟨rfl, next, h, rfl⟩
  | some id => exact .inl rfl

theorem gains_plain {kind : Kind} {fields fields' : List Field}
    (h : List.Forall₂ (Field.Rel (Gains bound)) fields fields') :
    (plain kind fields).Gains bound (plain kind fields') :=
  .mk ⟨rfl, .inl rfl⟩ h

theorem countIds_node (i : Nat) (n : Node) : countIds i [n] = n.countId i := by
  rw [countIds, List.flatMap_singleton, countId]

def Identified (n : Node) : Prop :=
  ∀ m ∈ n.preorder, m.id?.isSome = true

theorem identified_iff (n : Node) :
    n.Identified ↔ n.id?.isSome = true ∧ ∀ c ∈ n.children, c.Identified := by
  simp only [Identified]
  rw [preorder_eq]
  simp only [List.forall_mem_cons, List.forall_mem_flatMap]

theorem Gains.mark_eq (h : n.Gains bound m) (hid : n.id?.isSome = true) : m.mark = n.mark := by
  obtain ⟨hspan, hid' | ⟨hnone, -⟩⟩ := h.mark
  · obtain ⟨kind, ⟨id, span⟩, fields⟩ := n
    obtain ⟨kind', ⟨id', span'⟩, fields'⟩ := m
    obtain rfl : id' = id := hid'
    obtain rfl : span' = span := hspan
    rfl
  · rw [id?, hnone] at hid
    cases hid

/-- A tree whose nodes have identities gains none. -/
theorem Gains.eq_of_identified (h : n.Gains bound m) (hn : n.Identified) : m = n := by
  induction n using inductionOnChildren generalizing m with
  | h n ih =>
    obtain ⟨hid, hchildren⟩ := (identified_iff n).mp hn
    refine ((isSimulation_gains bound n m h).imp_of_mem fun c hc d hcd => ?_).eq_of_mark
      (h.mark_eq hid)
    exact (ih c hc hcd (hchildren c hc)).symm

/-- What replaces a tree, with its new nodes identified. -/
structure Completes (bound : Nat) (n m : Node) : Prop where
  gains : n.Gains bound m
  identified : m.Identified

theorem isSimulation_completes (bound : Nat) : IsSimulation (Completes bound) := by
  intro n m h
  have hchildren := ((identified_iff m).mp h.identified).2
  refine Keeps.swap (R := flip (Completes bound)) ?_
  exact (isSimulation_gains bound n m h.gains).swap.imp_of_mem fun d hd c hdc =>
    ⟨hdc, hchildren d hd⟩

theorem forall₂_set {α β : Type} {R : α → β → Prop} {xs : List α} {ys : List β}
    (h : List.Forall₂ R xs ys) (i : Nat) {x : α} {y : β} (hxy : R x y) :
    List.Forall₂ R (xs.set i x) (ys.set i y) := by
  induction h generalizing i with
  | nil => exact .nil
  | cons h hs ih =>
    cases i with
    | zero => exact .cons hxy hs
    | succ i => exact .cons h (ih i)

theorem Keeps.withField {R : Node → Node → Prop} (h : n.Keeps R m) (l : Label) {f g : Field}
    (hfg : Field.Rel R f g) : (n.withField l f).Keeps R (m.withField l g) := by
  unfold Node.withField
  rw [h.kind]
  split
  · exact ⟨rfl, forall₂_set h.fields _ hfg⟩
  · exact h

theorem completes_of_keeps (hmark : n.mark.Gains bound m.mark) (hid : m.id?.isSome = true)
    (h : n.Keeps (Completes bound) m) : n.Completes bound m := by
  refine ⟨gains_of_keeps hmark (h.imp fun _ _ => Completes.gains), (identified_iff m).mpr ⟨hid, ?_⟩⟩
  intro d hd
  obtain ⟨c, -, hcd⟩ := h.swap.mem_children hd
  exact hcd.identified

theorem completes_number (h : n.Gains bound m) {next : Nat} (hle : bound ≤ next) :
    n.Completes bound (m.number next).1 :=
  ⟨h.trans (gains_number m hle), m.isSome_id?_number next⟩

end Node

structure Placeholder.Gains (bound : Nat) (p q : Placeholder) : Prop where
  payload : p.payload.Gains bound q.payload
  role : p.role = q.role
  span : p.span = q.span

namespace Registry

/-- The same tokens in the same order, for payloads in which nodes may have got identities. -/
def Gains (bound : Nat) (r r' : Registry) : Prop :=
  List.Forall₂ (fun e e' => e.1 = e'.1 ∧ e.2.Gains bound e'.2) r.entries r'.entries

variable {bound : Nat} {r r' : Registry}

theorem Gains.get? (h : r.Gains bound r') (token : String) :
    Option.Rel (Placeholder.Gains bound) (r.get? token) (r'.get? token) := by
  obtain ⟨entries⟩ := r
  obtain ⟨entries'⟩ := r'
  change Option.Rel _ (entries.lookup token) (entries'.lookup token)
  change List.Forall₂ _ entries entries' at h
  induction h with
  | nil => exact .none
  | @cons e e' _ _ h _ ih =>
    obtain ⟨key, p⟩ := e
    obtain ⟨key', q⟩ := e'
    obtain ⟨rfl, hpq⟩ : key = key' ∧ p.Gains bound q := h
    rw [List.lookup_cons, List.lookup_cons]
    cases token == key with
    | true => exact .some hpq
    | false => exact ih

theorem Gains.erase (h : r.Gains bound r') (token : String) :
    (r.erase token).Gains bound (r'.erase token) :=
  List.rel_filter (fun e e' he => by simp [he.1]) h

theorem Gains.take? (h : r.Gains bound r') (ns : String) (n : Node) :
    Option.Rel (fun a b => a.1.Gains bound b.1 ∧ a.2.Gains bound b.2) (r.take? ns n)
      (r'.take? ns n) := by
  unfold Registry.take?
  induction Pattern.all with
  | nil => exact .none
  | cons pattern patterns ih =>
    rw [List.findSome?_cons, List.findSome?_cons]
    cases pattern.token? ns n with
    | none => exact ih
    | some token =>
      have hget := h.get? token
      cases hp : r.get? token with
      | none =>
        rw [hp] at hget
        cases hq : r'.get? token with
        | none => simpa [hp, hq] using ih
        | some q => simp [hq] at hget
      | some p =>
        rw [hp] at hget
        cases hq : r'.get? token with
        | none => simp [hq] at hget
        | some q =>
          rw [hq] at hget
          obtain ⟨hpayload, hrole, -⟩ : p.Gains bound q := by simpa using hget
          by_cases hpattern : q.role.pattern = pattern
          · simpa [hp, hq, hrole, hpattern] using ⟨hpayload, h.erase token⟩
          · simpa [hp, hq, hrole, hpattern] using ih

/-- What is read of the entries besides their payloads stays the same. -/
theorem Gains.map_eq {β : Type} (h : r.Gains bound r') {f : String × Placeholder → β}
    (hf : ∀ token p q, p.role = q.role → p.span = q.span → f (token, p) = f (token, q)) :
    r'.entries.map f = r.entries.map f := by
  obtain ⟨entries⟩ := r
  obtain ⟨entries'⟩ := r'
  change List.Forall₂ _ entries entries' at h
  change entries'.map f = entries.map f
  induction h with
  | nil => rfl
  | @cons e e' _ _ h _ ih =>
    obtain ⟨token, p⟩ := e
    obtain ⟨token', q⟩ := e'
    obtain ⟨rfl, hpq⟩ : token = token' ∧ p.Gains bound q := h
    rw [List.map_cons, List.map_cons, ih, hf token p q hpq.role hpq.span]

theorem Gains.tokens_eq (h : r.Gains bound r') : r'.tokens = r.tokens :=
  h.map_eq fun _ _ _ _ _ => rfl

theorem Gains.unspliced_eq (h : r.Gains bound r') : r'.unspliced = r.unspliced := by
  have hproject (r : Registry) : r.unspliced =
      (r.entries.map fun e => Unspliced.mk e.1 e.2.role e.2.span).mergeSort fun u v =>
        Placeholder.notAfter ⟨.undefined, u.role, u.span⟩ ⟨.undefined, v.role, v.span⟩ := by
    rw [Registry.unspliced, Registry.remaining]
    exact List.map_mergeSort fun _ _ _ _ => rfl
  rw [hproject, hproject, h.map_eq fun token p q hrole hspan => ?_]
  rw [hrole, hspan]

theorem Gains.size_eq (h : r.Gains bound r') : r'.size = r.size :=
  h.length_eq.symm

end Registry

section

variable {bound : Nat} (ns : String)

mutual

/-- What is spliced from two registries differs in the identities of their payloads alone. -/
theorem Node.gains_splice (n : Node) {r r' : Registry} (h : r.Gains bound r') :
    (n.splice ns r).1.Gains bound (n.splice ns r').1 ∧
      (n.splice ns r).2.Gains bound (n.splice ns r').2 := by
  match n with
  | .mk kind mark fields =>
    rw [Node.splice, Node.splice]
    have htake := h.take? ns (.mk kind mark fields)
    cases ha : r.take? ns (.mk kind mark fields) with
    | some a =>
      cases hb : r'.take? ns (.mk kind mark fields) with
      | some b => simpa [ha, hb] using htake
      | none => simp [ha, hb] at htake
    | none =>
      cases hb : r'.take? ns (.mk kind mark fields) with
      | some b => simp [ha, hb] at htake
      | none =>
        obtain ⟨hfields, hr⟩ := Field.gains_spliceList fields h
        exact ⟨Node.gains_plain hfields, hr⟩

theorem Field.gains_spliceList (fields : List Field) {r r' : Registry} (h : r.Gains bound r') :
    List.Forall₂ (Field.Rel (Node.Gains bound)) (Field.spliceList ns fields r).1
        (Field.spliceList ns fields r').1 ∧
      (Field.spliceList ns fields r).2.Gains bound (Field.spliceList ns fields r').2 := by
  match fields with
  | [] => exact ⟨.nil, h⟩
  | .node n :: rest =>
    obtain ⟨hn, hr⟩ := Node.gains_splice n h
    obtain ⟨hrest, hr⟩ := Field.gains_spliceList rest hr
    exact ⟨.cons (.node hn) hrest, hr⟩
  | .list ms :: rest =>
    obtain ⟨hms, hr⟩ := Node.gains_spliceList ms h
    obtain ⟨hrest, hr⟩ := Field.gains_spliceList rest hr
    exact ⟨.cons (.list hms) hrest, hr⟩
  | .text s :: rest => exact (Field.gains_spliceList rest h).imp_left (.cons (.text s))
  | .flag b :: rest => exact (Field.gains_spliceList rest h).imp_left (.cons (.flag b))
  | .absent :: rest => exact (Field.gains_spliceList rest h).imp_left (.cons .absent)

theorem Node.gains_spliceList (ms : List Node) {r r' : Registry} (h : r.Gains bound r') :
    List.Forall₂ (Node.Gains bound) (Node.spliceList ns ms r).1 (Node.spliceList ns ms r').1 ∧
      (Node.spliceList ns ms r).2.Gains bound (Node.spliceList ns ms r').2 := by
  match ms with
  | [] => exact ⟨.nil, h⟩
  | m :: rest =>
    obtain ⟨hm, hr⟩ := Node.gains_splice m h
    obtain ⟨hrest, hr⟩ := Node.gains_spliceList rest hr
    exact ⟨.cons hm hrest, hr⟩

end

end

namespace Registry

variable {bound : Nat}

def payloads (r : Registry) : List Node :=
  r.entries.map fun e => e.2.payload

theorem gains_drawEntries (entries : List (String × Placeholder)) {next : Nat} (h : bound ≤ next) :
    Gains bound ⟨entries⟩ ⟨(drawEntries entries next).1⟩ := by
  induction entries generalizing next with
  | nil => exact .nil
  | cons e entries ih =>
    obtain ⟨token, p⟩ := e
    have hle := (p.payload.draws_number next).le
    exact .cons ⟨rfl, p.payload.gains_number h, rfl, rfl⟩ (ih (Nat.le_trans h hle))

theorem draws_drawEntries (entries : List (String × Placeholder)) (next : Nat) :
    Node.Draws next (drawEntries entries next).2 (payloads ⟨entries⟩)
      (payloads ⟨(drawEntries entries next).1⟩) := by
  induction entries generalizing next with
  | nil => exact .refl next []
  | cons e entries ih => exact (e.2.payload.draws_number next).append (ih _)

theorem weight_countId (r : Registry) (k : Nat) :
    r.weight (Node.countId k) = Node.countIds k r.payloads :=
  Node.total_countId r.payloads

end Registry

open Node (Draws countIds)

/-- A fragment expands to the same tree when its new nodes draw. The payloads are spliced at most once
each, so that what they drew is in the tree once at most. -/
theorem Fragment.expandDrawing_of_ok {f : Fragment} {ns : String} {e : Expansion}
    (hf : f.registry.tokens.Nodup) (h : f.expand ns = .ok e) (next : Nat) :
    ∃ tree next', f.expandDrawing ns next = (.ok { e with tree }, next') ∧
      e.tree.Gains next tree ∧ Draws next next' f.registry.payloads [tree] := by
  have hgains : f.registry.Gains next (f.registry.draw next).1 :=
    Registry.gains_drawEntries f.registry.entries (Nat.le_refl next)
  have hdraws : Draws next (f.registry.draw next).2 f.registry.payloads
      (f.registry.draw next).1.payloads := Registry.draws_drawEntries f.registry.entries next
  generalize hdraw : f.registry.draw next = drawn at hgains hdraws
  obtain ⟨registry, next₁⟩ := drawn
  obtain ⟨e', he', hgains', hrest⟩ : ∃ e', Fragment.expand { f with registry } ns = .ok e' ∧
      e.tree.Gains next e'.tree ∧ { e with tree := e'.tree } = e' := by
    unfold Fragment.expand at h ⊢
    dsimp only at h ⊢
    cases hparse : parse f.source with
    | error error =>
      rw [hparse] at h
      cases h
    | ok tree =>
      rw [hparse] at h
      obtain rfl := Except.ok.inj h
      obtain ⟨htree, hleft⟩ := (tree.synthesize ns).gains_splice ns hgains
      refine ⟨_, rfl, htree, ?_⟩
      simp only [hleft.unspliced_eq, hgains.size_eq]
  have hspliced : Draws next₁ next₁ registry.payloads [e'.tree] := by
    refine .of_le next₁ fun k => ?_
    have hle := (Fragment.expand_weight ns (Node.inherited_countId k)
      (f := { f with registry }) (hgains.tokens_eq ▸ hf) he').1
    rwa [Registry.weight_countId, ← Node.countIds_node] at hle
  refine ⟨(e'.tree.number next₁).1, (e'.tree.number next₁).2, ?_,
    hgains'.trans (e'.tree.gains_number hdraws.le),
    hdraws.trans (hspliced.trans (e'.tree.draws_number next₁))⟩
  simp only [Fragment.expandDrawing, hdraw, he']
  rw [← hrest]

theorem Fragment.expandDrawing_of_error {f : Fragment} {ns : String} {error : FragmentError}
    (h : f.expand ns = .error error) (next : Nat) :
    (f.expandDrawing ns next).1 = .error error := by
  have hexpand : Fragment.expand { f with registry := (f.registry.draw next).1 } ns =
      .error error := by
    unfold Fragment.expand at h ⊢
    dsimp only at h ⊢
    cases hparse : parse f.source with
    | error e => simpa [hparse] using h
    | ok tree =>
      rw [hparse] at h
      cases h
  simp only [Fragment.expandDrawing, hexpand]

namespace Compilation

variable {c : Compilation} {template : Node} {ids ids' : IdSupply}

theorem expandTemplateDrawing_of_ok {e : Expansion}
    (h : c.expandTemplate template ids = (.ok e, ids')) (next : Nat) :
    ∃ tree next', c.expandTemplateDrawing template ids next = ((.ok { e with tree }, ids'), next') ∧
      e.tree.Gains next tree ∧ Draws next next'
        ((TemplateParts.ofTemplate template).substitutions.map Prod.fst) [tree] := by
  unfold expandTemplate at h
  unfold expandTemplateDrawing
  rcases hcompiled : c.compileTemplate template ids with ⟨_ | f, ids₁⟩
  · rw [hcompiled] at h
    cases h
    let built := Node.factoryCall c.options.factoryNamespace .emptyStatement []
    refine ⟨(built.number next).1, (built.number next).2, rfl, built.gains_number (Nat.le_refl next),
      ?_⟩
    rw [c.substitutions_of_compileTemplate hcompiled]
    refine (Draws.of_le next fun k => ?_).trans (built.draws_number next)
    rw [Node.countIds_node, (Node.inherited_countId k).factoryCall]
    exact Nat.le_refl 0
  · rw [hcompiled] at h
    simp only [Prod.mk.injEq] at h
    obtain ⟨h, rfl⟩ := h
    have hnodup := (c.compileTemplate_weight (Node.inherited_countId 0) hcompiled).2
    obtain ⟨tree, next', hexpand, hgains, hdraws⟩ := f.expandDrawing_of_ok hnodup h next
    refine ⟨tree, next', by simp only [hexpand], hgains, (Draws.of_le next fun k => ?_).trans hdraws⟩
    have hweight := (c.compileTemplate_weight (Node.inherited_countId k) hcompiled).1
    rw [Registry.weight_countId, Node.total_countId] at hweight
    exact Nat.le_of_eq hweight

theorem expandTemplateDrawing_of_error {error : FragmentError}
    (h : c.expandTemplate template ids = (.error error, ids')) (next : Nat) :
    (c.expandTemplateDrawing template ids next).1 = (.error error, ids') := by
  unfold expandTemplate at h
  unfold expandTemplateDrawing
  rcases hcompiled : c.compileTemplate template ids with ⟨_ | f, ids₁⟩
  · rw [hcompiled] at h
    cases h
  · rw [hcompiled] at h
    simp only [Prod.mk.injEq] at h
    obtain ⟨h, rfl⟩ := h
    simp only [f.expandDrawing_of_error h next]

end Compilation

namespace Pass

variable {α α' β β' γ : Type} {bound : Nat} {R : α → β → Prop} {S : α' → β' → Prop}

/-- One step draws identities and another does not. They succeed or fail together, and end alike but
for what is drawn: `R` relates their results, and the nodes in the result of the first have the
identities of `before`, and the new ones at most once. -/
def Tracks (bound : Nat) (before : List Node) (after : β → List Node) (R : α → β → Prop)
    (x : Pass α) (y : DrawingPass β) : Prop :=
  ∀ s next, bound ≤ next → match x.outcome s with
    | (.ok a, s') => ∃ b next', (y.run next).Yields s (b, next') s' ∧
        Draws next next' before (after b) ∧ R a b
    | (.error e, s') => (y.run next).outcome s = (.error e, s')

variable {before : List Node} {after : β → List Node} {after' : β' → List Node} {x : Pass α}
  {y : DrawingPass β}

theorem tracks_pure {a : α} {b : β} (h : R a b) (hb : before = after b) :
    Tracks bound before after R (pure a) (pure b) :=
  fun _ next _ => ⟨b, next, rfl, hb ▸ .refl next before, h⟩

theorem Tracks.bind {f : α → Pass α'} {g : β → DrawingPass β'} (h : Tracks bound before after R x y)
    (hf : ∀ a b, R a b → Tracks bound (after b) after' S (f a) (g b)) :
    Tracks bound before after' S (x >>= f) (y >>= g) := by
  intro s next hnext
  have hx := h s next hnext
  rw [outcome_bind, StateT.run_bind]
  rcases hout : x.outcome s with ⟨e | a, t⟩
  · rw [hout] at hx
    simp only at hx ⊢
    rw [outcome_bind, hx]
  · rw [hout] at hx
    obtain ⟨b, mid, hy, hdraws, hR⟩ := hx
    have hfa := hf a b hR t mid (Nat.le_trans hnext hdraws.le)
    simp only
    rcases hout' : (f a).outcome t with ⟨e | a', s'⟩
    · rw [hout'] at hfa
      simp only at hfa ⊢
      rw [outcome_bind, hy]
      exact hfa
    · rw [hout'] at hfa
      obtain ⟨b', next', hy', hdraws', hS⟩ := hfa
      exact ⟨b', next', yields_bind_iff.mpr ⟨_, t, hy, hy'⟩, hdraws.trans hdraws', hS⟩

theorem outcome_liftM (x : Pass α) (s : Progress) (next : Nat) :
    (StateT.run (liftM x : DrawingPass α) next).outcome s =
      match x.outcome s with
      | (.ok a, s') => (.ok (a, next), s')
      | (.error e, s') => (.error e, s') :=
  outcome_bind x (fun a => pure (a, next)) s

theorem Tracks.imp {before' : List Node} {after' : β → List Node} {S : α → β → Prop}
    (h : Tracks bound before after R x y) (hdraws : ∀ lo hi b, Draws lo hi before (after b) →
      Draws lo hi before' (after' b)) (hRS : ∀ a b, R a b → S a b) :
    Tracks bound before' after' S x y := by
  intro s next hnext
  have hx := h s next hnext
  split at hx
  · obtain ⟨b, next', hy, hb, hR⟩ := hx
    exact ⟨b, next', hy, hdraws next next' b hb, hRS _ b hR⟩
  · exact hx

theorem Tracks.and_yields {Q : α → Prop} (h : Tracks bound before after R x y)
    (hQ : ∀ s a s', x.Yields s a s' → Q a) :
    Tracks bound before after (fun a b => R a b ∧ Q a) x y := by
  intro s next hnext
  have hx := h s next hnext
  split at hx
  · next a s' hout =>
    obtain ⟨b, next', hy, hb, hR⟩ := hx
    exact ⟨b, next', hy, hb, hR, hQ s a s' hout⟩
  · exact hx

theorem Tracks.map {f : α → α'} {g : β → β'} (h : Tracks bound before (fun b => after' (g b)) R x y)
    (hRS : ∀ a b, R a b → S (f a) (g b)) : Tracks bound before after' S (f <$> x) (g <$> y) := by
  rw [← bind_pure_comp, ← bind_pure_comp]
  exact h.bind fun a b hab => tracks_pure (hRS a b hab) rfl

/-- Steps one after the other, each about nodes of its own. -/
theorem Tracks.mapM {f : α → Pass α'} {g : β → DrawingPass β'} {own : β → List Node} {xs : List α}
    {ys : List β} (h : List.Forall₂ (fun x y => Tracks bound (own y) after' S (f x) (g y)) xs ys) :
    Tracks bound (ys.flatMap own) (List.flatMap after') (List.Forall₂ S) (xs.mapM f)
      (ys.mapM g) := by
  induction h with
  | nil =>
    rw [List.mapM_nil, List.mapM_nil]
    exact tracks_pure .nil rfl
  | @cons x y xs ys hxy _ ih =>
    have hhead : Tracks bound (own y ++ ys.flatMap own) (fun b => after' b ++ ys.flatMap own) S (f x)
        (g y) := hxy.imp (fun _ hi _ hb => hb.append (.refl hi _)) fun _ _ => id
    have htail (b : β') : Tracks bound (after' b ++ ys.flatMap own)
        (fun bs => after' b ++ bs.flatMap after') (List.Forall₂ S) (xs.mapM f) (ys.mapM g) :=
      ih.imp (fun lo _ _ hb => (Draws.refl lo _).append hb) fun _ _ => id
    rw [List.mapM_cons, List.mapM_cons]
    exact hhead.bind fun a b hab => (htail b).bind fun _ _ hrest => tracks_pure (.cons hab hrest) rfl

end Pass

namespace Node

variable {bound : Nat} {R : Node → Node → Prop} {f : Node → Pass Node}
  {g : Node → DrawingPass Node}

open Pass

theorem tracks_mapNodesM {u v : Field} (h : Field.Rel (fun c d =>
      Tracks bound [d] (fun d' => [d']) R (f c) (g d)) u v) :
    Tracks bound v.nodes Field.nodes (Field.Rel R) (u.mapNodesM f) (v.mapNodesM g) := by
  cases h with
  | node h => exact h.map fun _ _ => .node
  | list h =>
    have hlist : Tracks bound (List.flatMap (fun d => [d]) _) _ (List.Forall₂ R) _ _ :=
      Tracks.mapM h
    refine Tracks.map (f := Field.list) (g := Field.list)
      (hlist.imp (fun lo hi bs hbs => ?_) fun _ _ => id) fun _ _ => .list
    rwa [List.flatMap_singleton', List.flatMap_singleton'] at hbs
  | text s => exact tracks_pure (.text s) rfl
  | flag b => exact tracks_pure (.flag b) rfl
  | absent => exact tracks_pure .absent rfl

/-- A node whose children are tracked is tracked itself, with the marks it has. -/
theorem tracks_mapChildrenM {n m : Node} (h : n.Keeps (fun c d =>
      Tracks bound [d] (fun d' => [d']) R (f c) (g d)) m) :
    Tracks bound [m] (fun m' => [m'])
      (fun n' m' => n'.mark = n.mark ∧ m'.mark = m.mark ∧ n'.Keeps R m') (n.mapChildrenM f)
      (m.mapChildrenM g) := by
  have hfields := Tracks.mapM (h.fields.imp fun _ _ => tracks_mapNodesM)
  rw [mapChildrenM_eq, mapChildrenM_eq]
  have hparts : Tracks bound [m] (fun gs => [Node.mk m.kind m.mark gs])
      (List.Forall₂ (Field.Rel R)) (n.fields.mapM (Field.mapNodesM f))
      (m.fields.mapM (Field.mapNodesM g)) := by
    refine hfields.imp (fun lo hi gs hdraws => ?_) fun _ _ => id
    obtain ⟨kind, ⟨id, span⟩, fields⟩ := m
    exact .node (.inl ⟨rfl, rfl⟩) hdraws
  exact hparts.bind fun fs gs hfs => tracks_pure ⟨rfl, rfl, h.kind, hfs⟩ rfl

/-- In which every template with a tag has its identities, as in a file that was read. -/
def Grounded (n : Node) : Prop :=
  ∀ m ∈ n.preorder, m.kind = .taggedTemplateExpression → m.Identified

def isUngrounded (m : Node) : Bool :=
  m.kind = .taggedTemplateExpression && m.preorder.any fun x => x.id?.isNone

theorem grounded_iff (n : Node) : n.Grounded ↔ n.preorder.countP isUngrounded = 0 := by
  simp [Grounded, Identified, isUngrounded, List.countP_eq_zero, ← Option.isSome_iff_ne_none]

theorem Grounded.of_mem_children {n c : Node} (h : n.Grounded) (hc : c ∈ n.children) :
    c.Grounded := fun m hm =>
  h m ((preorder_sublist_of_mem_preorder (mem_preorder_of_mem_children hc)).subset hm)

theorem Identified.of_mem_preorder {n m : Node} (h : n.Identified) (hm : m ∈ n.preorder) :
    m.Identified := fun x hx =>
  h x ((preorder_sublist_of_mem_preorder hm).subset hx)

theorem Identified.grounded {n : Node} (h : n.Identified) : n.Grounded :=
  fun _ hm _ => h.of_mem_preorder hm

theorem Gains.arrowFunction {parameter : String} {body body' : Node} (span : Option Span)
    (h : body.Gains bound body') :
    ((Node.arrowFunction [.parameter parameter] body).withSpan span).Gains bound
      ((Node.arrowFunction [.parameter parameter] body').withSpan span) := by
  refine .mk ⟨rfl, .inl rfl⟩ (.cons (.flag false) (.cons (.list .nil) (.cons (.list ?_)
    (.cons .absent (.cons (.node h) .nil)))))
  exact .cons (.refl _) .nil

end Node

namespace FilePass

open Pass

variable {p : FilePass} {bound : Nat} {n m : Node}

theorem gains_assemble {t t' : Node} (span : Option Span) (h : t.Gains bound t') :
    ((p.assemble t).withSpan span).Gains bound ((p.assemble t').withSpan span) := by
  unfold assemble
  refine .arrowFunction span ?_
  cases p.options.moduleFormat with
  | esModule => exact h
  | commonJs =>
    refine Node.gains_plain (.cons (.list (.cons (.refl _) (.cons ?_ .nil))) .nil)
    exact Node.gains_plain (.cons (.node h) .nil)

theorem grounded_of_expandSite {site r : Node} {s s' : Progress} (hn : site.Templated)
    (hg : site.Grounded) (hs : p.isUseSite site = true)
    (h : Pass.Yields (p.expandSite site) s r s') : r.Grounded := by
  obtain ⟨template, ht⟩ := exists_template hn hs
  have hle := expandSite_countP_le (q := Node.isUngrounded)
    (fun n hn => by simp_all [Node.isUngrounded]) ht h
  have hsite := (Node.flatMap_children_sublist site).countP_le (p := Node.isUngrounded)
  rw [(Node.grounded_iff site).mp hg] at hsite
  exact (Node.grounded_iff r).mpr (by omega)

theorem outcome_expandSiteDrawing {site template : Node} (s : Progress) (next : Nat)
    (ht : site.child? .template = some template) :
    ((p.expandSiteDrawing site).run next).outcome s =
      match (p.conclude site
          (p.compilation.expandTemplateDrawing template s.ids next).1).outcome s with
      | (.ok r, s') =>
        (.ok (r.number (p.compilation.expandTemplateDrawing template s.ids next).2), s')
      | (.error e, s') => (.error e, s') := by
  have hget : (StateT.run (getThe Progress : DrawingPass Progress) next).outcome s =
      (.ok (s, next), s) := rfl
  simp only [expandSiteDrawing, ht, StateT.run_bind, outcome_bind, hget]
  rw [StateT.run_modifyGet, outcome_pure]
  simp only [outcome_liftM]
  rcases (p.conclude site
    (p.compilation.expandTemplateDrawing template s.ids next).1).outcome s with ⟨_ | _, _⟩ <;> rfl

/-- What replaces a use site when new nodes draw. -/
theorem tracks_expandSite (hn : n.Templated) (hg : n.Grounded) (hs : p.isUseSite n = true) :
    Tracks bound [n] (fun r' => [r'])
      (fun r r' => r.Completes bound r' ∧ r.Templated ∧ r.Grounded) (p.expandSite n)
      (p.expandSiteDrawing n) := by
  obtain ⟨template, ht⟩ := exists_template hn hs
  intro s next hnext
  have hout := outcome_expandSite (p := p) s ht
  have houtDrawing := outcome_expandSiteDrawing (p := p) s next ht
  rcases hx : p.compilation.expandTemplate template s.ids with ⟨error | e, ids⟩
  · rw [hx, outcome_conclude_error] at hout
    rw [p.compilation.expandTemplateDrawing_of_error hx next, outcome_conclude_error] at houtDrawing
    rw [hout, houtDrawing]
  · obtain ⟨tree, mid, hdrawn, hgains, hdraws⟩ := p.compilation.expandTemplateDrawing_of_ok hx next
    have hassembled : ((p.assemble e.tree).withSpan n.span).Gains bound
        ((p.assemble tree).withSpan n.span) := gains_assemble n.span (hgains.mono hnext)
    rw [hx, outcome_conclude_ok] at hout
    rw [hdrawn, outcome_conclude_ok] at houtDrawing
    rw [hout]
    refine ⟨(((p.assemble tree).withSpan n.span).number mid).1,
      (((p.assemble tree).withSpan n.span).number mid).2, houtDrawing, ?_,
      Node.completes_number hassembled (Nat.le_trans hnext hdraws.le),
      templated_of_expandSite hn hs hout, grounded_of_expandSite hn hg hs hout⟩
    · refine (Draws.of_le next fun k => ?_).trans (hdraws.trans ((Draws.of_le mid fun k => ?_).trans
        (Node.draws_number _ mid)))
      · have hsub := (Node.substitutions_sublist n).countP_le (p := fun m => m.id? = some k)
        rw [Node.countIds_singleton]
        rw [Node.substitutions, ht] at hsub
        exact Nat.le_trans hsub (Nat.le_add_left _ _)
      · rw [Node.countIds_node, Node.countIds_node]
        exact Nat.le_of_eq (weight_assemble (Node.inherited_countId k) tree n.span)

/-- Use sites are found among nodes that a file had, which gain nothing. -/
theorem isUseSite_eq (h : n.Gains bound m) (hg : n.Grounded) : p.isUseSite m = p.isUseSite n := by
  by_cases hk : n.kind = .taggedTemplateExpression
  · rw [h.eq_of_identified (hg n n.self_mem_preorder hk)]
  · have hkind := (Node.isSimulation_gains bound n m h).kind
    have hnone {x : Node} (hx : x.kind ≠ .taggedTemplateExpression) : p.isUseSite x = false :=
      Bool.eq_false_iff.mpr fun hs => hx (kind_of_isUseSite hs)
    rw [hnone hk, hnone (hkind ▸ hk)]

theorem tracks_expandWithin (depth : Nat) (hn : n.Templated) (hg : n.Grounded)
    (h : n.Completes bound m) : Tracks bound [m] (fun m' => [m']) (Node.Completes bound)
      (p.expandWithin depth n) (p.expandWithinDrawing depth m) := by
  induction depth generalizing n m with
  | zero => exact tracks_pure h rfl
  | succ depth ih =>
    unfold expandWithin expandWithinDrawing
    change Tracks bound [m] _ _ (n.replaceM p.isUseSite _) (m.replaceM p.isUseSite _)
    induction n using Node.inductionOnChildren generalizing m with
    | h n ihn =>
      rw [Node.replaceM_eq, Node.replaceM_eq, isUseSite_eq h.gains hg]
      split
      · next hs =>
        obtain rfl := h.gains.eq_of_identified (hg n n.self_mem_preorder (kind_of_isUseSite hs))
        exact (tracks_expandSite hn hg hs).bind fun r r' hr => ih hr.2.1 hr.2.2 hr.1
      · have hkeeps := Node.isSimulation_completes bound n m h
        have htracks := Node.tracks_mapChildrenM (hkeeps.imp_of_mem fun c hc d hcd =>
          ihn c hc (hn.of_mem_children hc) (hg.of_mem_children hc) hcd)
        refine htracks.imp (fun _ _ _ => id) fun n' m' hkept => ?_
        obtain ⟨hmark, hmark', hkept⟩ := hkept
        refine Node.completes_of_keeps ?_ ?_ hkept
        · rw [hmark, hmark']
          exact h.gains.mark
        · rw [Node.id?, hmark']
          exact h.identified m m.self_mem_preorder

theorem tracks_expandAll (hn : n.Conforms) (hid : n.Identified) :
    Tracks bound [n] (fun m' => [m']) (fun n' m' => n'.Completes bound m' ∧ n'.Conforms)
      (p.expandAll n) (p.expandAllDrawing n) :=
  (tracks_expandWithin _ hn.templated hid.grounded ⟨.refl n, hid⟩).and_yields fun _ _ _ h =>
    (rewrites_expandAll hn.templated h).conforms hn

/-- Whether the factories are imported does not depend on the tree. -/
theorem outcome_withFactoryImport (p : FilePass) (s : Progress) :
    ∃ s', (∀ t, (p.withFactoryImport t).outcome s = (.ok t, s')) ∨
      ∀ t, (p.withFactoryImport t).outcome s = (.ok (t.withField .statements (.list
        (.defaultImport p.options.factoryNamespace p.options.factoryModule ::
          t.list .statements))), s') := by
  simp only [withFactoryImport, outcome_bind, outcome_get]
  split
  · exact ⟨s, .inl fun _ => rfl⟩
  · cases p.namespaceDeclaration? with
    | none => exact ⟨s, .inr fun _ => rfl⟩
    | some declaration =>
      cases himports : p.compilation.importsFactories declaration with
      | true => exact ⟨s, .inl fun _ => by simp [himports]⟩
      | false => exact ⟨_, .inl fun _ => by simp [himports]; rfl⟩

theorem tracks_withFactoryImport (hn : n.Conforms) (h : n.Completes bound m) :
    Tracks bound [m] (fun m' => [m']) (Node.Completes bound) (p.withFactoryImport n)
      (do DrawingPass.draw (← p.withFactoryImport m)) := by
  intro s next hnext
  have hm : m.Conforms := (Node.isSimulation_completes bound).conforms h hn
  have hrun (t : Node) (s' : Progress) (ht : (p.withFactoryImport m).outcome s = (.ok t, s')) :
      ((do DrawingPass.draw (← p.withFactoryImport m) : DrawingPass Node).run next).Yields s
        (t.number next) s' := by
    rw [Pass.Yields, StateT.run_bind, outcome_bind, outcome_liftM, ht]
    rfl
  obtain ⟨s', hout | hout⟩ := p.outcome_withFactoryImport s
  · rw [hout n]
    exact ⟨_, _, hrun m s' (hout m), m.draws_number next, Node.completes_number h.gains hnext⟩
  · rw [hout n]
    refine ⟨_, _, hrun _ s' (hout m), (Draws.of_le next fun k => ?_).trans (Node.draws_number _ next),
      Node.completes_number ?_ hnext⟩
    · rw [Node.countIds_node, Node.countIds_node]
      exact Nat.le_of_eq (Node.countId_withImport hm)
    · have hkeeps := Node.isSimulation_gains bound n m h.gains
      refine Node.gains_of_keeps ?_ (hkeeps.withField .statements (.list (.cons (.refl _)
        (hkeeps.forall₂_list .statements))))
      rw [Node.mark_withField, Node.mark_withField]
      exact h.gains.mark

end FilePass

namespace Compilation

variable {c : Compilation} {file : SourceFile} {ids : IdSupply}

/-- A file expands alike whether its new nodes draw or not. Those that draw get each identity once. -/
theorem expandFile_alike (c : Compilation) (ids : IdSupply) (hf : file.tree.Conforms)
    (hid : file.tree.Identified) (next : Nat) :
    (∃ out ids' tree next', c.expandFile file ids = (.ok out, ids') ∧
      c.expandFileDrawing file ids next = (.ok ({ out with tree }, next'), ids') ∧
      out.tree.Completes next tree ∧ Draws next next' [file.tree] [tree]) ∨
    ∃ e ids', c.expandFile file ids = (.error e, ids') ∧
      c.expandFileDrawing file ids next = (.error e, ids') := by
  unfold expandFile expandFileDrawing
  cases tagImports file.tree c.options.moduleSpecifier with
  | error e => exact .inr ⟨_, _, rfl, rfl⟩
  | ok imports =>
    cases imports with
    | nil => exact .inl ⟨_, _, file.tree, next, rfl, rfl, ⟨.refl _, hid⟩, .refl next _⟩
    | cons statement rest =>
      let p : FilePass := ⟨c, file, statement :: rest⟩
      have htracks : Pass.Tracks next [file.tree] (fun m => [m]) (Node.Completes next) _ _ :=
        (p.tracks_expandAll hf hid).bind fun n m h => p.tracks_withFactoryImport h.2 h.1
      have hrun := htracks { ids } next (Nat.le_refl next)
      dsimp only
      split at hrun
      · next n s hout =>
        obtain ⟨tree, next', hyields, hdraws, hcompletes⟩ := hrun
        rw [show StateT.run (ExceptT.run _) _ = _ from hout]
        exact .inl ⟨_, _, tree, next', rfl, congrArg DrawingPass.finish hyields, hcompletes, hdraws⟩
      · next e s hout =>
        rw [show StateT.run (ExceptT.run _) _ = _ from hout]
        exact .inr ⟨_, _, rfl, congrArg DrawingPass.finish hrun⟩

end Compilation

namespace FilePass

def IsDrawn (next : Nat) (id : Option Nat) : Prop :=
  ∃ k, next ≤ k ∧ id = some k

/-- A node that had an identity has the same successor when new nodes draw, and a use site one that
drew. -/
theorem Succeeds.of_completes {p : FilePass} {next : Nat} {c x y : Node}
    (h : p.Succeeds (· = none) c x) (hc : c.id?.isSome = true) (hxy : x.Completes next y) :
    p.Succeeds (IsDrawn next) c y := by
  have hkind := (Node.isSimulation_completes next x y hxy).kind
  unfold Succeeds at h ⊢
  split at h
  · next hs =>
    obtain ⟨hk, hspan, hnone⟩ := h
    obtain ⟨hspan', hid | ⟨-, hid⟩⟩ := hxy.gains.mark
    · have hsome := hxy.identified y y.self_mem_preorder
      rw [Node.id?, hid, ← Node.id?, hnone] at hsome
      cases hsome
    · rw [if_pos hs]
      exact ⟨hkind.symm.trans hk, hspan'.trans hspan, hid⟩
  · next hs =>
    obtain ⟨hk, hmark⟩ := h
    have hsome : x.id?.isSome = true := by rwa [Node.id?, hmark]
    rw [if_neg hs]
    exact ⟨hkind.symm.trans hk, (hxy.gains.mark_eq hsome).trans hmark⟩

theorem keeps_of_completes {p : FilePass} {next : Nat} {m x y : Node} (hid : m.Identified)
    (h : m.Keeps (p.Succeeds (· = none)) x) (hxy : x.Completes next y) :
    m.Keeps (p.Succeeds (IsDrawn next)) y := by
  refine (h.comp (Node.isSimulation_completes next x y hxy)).imp_of_mem ?_
  rintro c hc d ⟨e, hce, hed⟩
  exact hce.of_completes (hid c (Node.mem_preorder_of_mem_children hc)) hed

end FilePass

namespace Node

variable {next : Nat} {x y : Node}

/-- A node whose identity is older than what was drawn had it before. -/
theorem Gains.mark_eq_of_lt (h : x.Gains next y) {k : Nat} (hk : y.id? = some k) (hlt : k < next) :
    y.mark = x.mark := by
  refine h.mark_eq ?_
  obtain ⟨-, hid | ⟨-, i, hi, hid⟩⟩ := h.mark
  · rw [id?, ← hid, ← id?, hk]
    rfl
  · cases hk.symm.trans hid
    omega

/-- Different identities below those that were drawn stay different from them. -/
theorem Draws.countId_le_one {n m : Node} {stop : Nat} (h : Draws next stop [n] [m])
    (hid : n.Identified) (hids : (n.preorder.map key).Nodup)
    (hnext : ∀ x ∈ n.preorder, x.key < next) (k : Nat) : m.countId k ≤ 1 := by
  have hbelow : KeysBelow next [n] := by
    intro x hx i hi
    have hlt := hnext x (by simpa using hx)
    rwa [key, hi, Option.getD_some] at hlt
  rw [← countIds_node]
  refine h.count_le_one (fun _ => ?_) hbelow.countIds_eq_zero
  rw [countIds_node, ← countKey_eq_countId hid]
  exact (nodup_keys_iff n).mp hids k

/-- What becomes of an import put in front of the statements. -/
theorem Completes.exists_statement {kept : Node} {name module : String} (hkept : kept.Conforms)
    (h : (kept.withField .statements
      (.list (.defaultImport name module :: kept.list .statements))).Completes next y) :
    kept.Completes next y ∨ ∃ statement kept', (defaultImport name module).Completes next statement ∧
      kept.Completes next kept' ∧ y = kept'.withField .statements
        (.list (statement :: kept'.list .statements)) := by
  obtain heq | ⟨hschema, hfields, heq⟩ := FilePass.withField_statements_cases hkept
    (.defaultImport name module :: kept.list .statements)
  · exact .inl (heq ▸ h)
  rw [heq] at h
  have hkeeps := isSimulation_completes next _ y h
  have hparts := hkeeps.fields
  simp only [Node.fields, List.forall₂_cons_left_iff, List.forall₂_nil_left_iff,
    Field.rel_list_iff] at hparts
  obtain ⟨_, _, ⟨_, ⟨statement, rest, hstatement, hrest, rfl⟩, rfl⟩, rfl, hy⟩ := hparts
  obtain ⟨kind, mark, fields⟩ := y
  obtain rfl : kept.kind = kind := hkeeps.kind
  obtain rfl : fields = _ := hy
  refine .inr ⟨statement, .mk kept.kind mark [.list rest], hstatement, ?_, ?_⟩
  · have hid := h.identified _ (self_mem_preorder _)
    refine completes_of_keeps h.gains.mark hid ⟨rfl, ?_⟩
    rw [hfields]
    exact .cons (.list hrest) .nil
  · have hindex : kept.kind.fieldIndex? .statements = some 0 := by
      rw [Kind.fieldIndex?, hschema]
      rfl
    generalize kept.kind = kind at hindex ⊢
    simp [withField, Node.list, field?, Node.kind, Node.fields, Node.mark, hindex]

end Node

namespace Compilation

variable {c : Compilation} {file : SourceFile} {ids : IdSupply}

/-- If the nodes of a file have different identities, below those that new nodes draw, so have the
nodes of what it expands to, all of them. A node that kept its identity is what it was: its mark, its
kind, its texts and flags, and its children, of which use sites alone are replaced, by functions that
drew. Only the file itself may get one more statement, the import of the factories in front. -/
theorem expandFile_draws_identities {out : ExpandedFile} {ids' : IdSupply} {next : Nat}
    (hf : file.tree.Conforms) (hid : file.tree.Identified)
    (hids : (file.tree.preorder.map Node.key).Nodup)
    (hnext : ∀ m ∈ file.tree.preorder, m.key < next)
    (h : c.expandFile file ids = (.ok out, ids')) :
    ∃ tree next', c.expandFileDrawing file ids next = (.ok ({ out with tree }, next'), ids') ∧
      out.tree.Gains next tree ∧ tree.Identified ∧ (tree.preorder.map Node.key).Nodup ∧
      ∃ p : FilePass, p.compilation = c ∧ p.file = file ∧
        tagImports file.tree c.options.moduleSpecifier = .ok p.imports ∧
        ∀ m ∈ file.tree.preorder, ∀ m' ∈ tree.preorder, m'.key = m.key →
          m'.mark = m.mark ∧ (m.Keeps (p.Succeeds (FilePass.IsDrawn next)) m' ∨
            m = file.tree ∧ m' = tree ∧ ∃ statement kept : Node,
              (Node.defaultImport c.options.factoryNamespace c.options.factoryModule).Gains next
                statement ∧
              m.Keeps (p.Succeeds (FilePass.IsDrawn next)) kept ∧ kept.mark = m.mark ∧
              m' = kept.withField .statements (.list (statement :: kept.list .statements))) := by
  obtain ⟨out, ids', tree, next', hout, hdrawing, hcompletes, hdraws⟩ | ⟨e, ids', hout, -⟩ :=
    c.expandFile_alike ids hf hid next
  · cases h.symm.trans hout
    have hone (k : Nat) : file.tree.countId k ≤ 1 := by
      rw [← Node.countKey_eq_countId hid]
      exact (Node.nodup_keys_iff _).mp hids k
    have hcount := hdraws.countId_le_one hid hids hnext
    have hnodup : (tree.preorder.map Node.key).Nodup := (Node.nodup_keys_iff _).mpr fun k => by
      rw [Node.countKey_eq_countId hcompletes.identified]
      exact hcount k
    obtain ⟨p, hc, hfile, himports, hkept⟩ := expandFile_keeps hf hone h
    refine ⟨tree, next', hdrawing, hcompletes.gains, hcompletes.identified, hnodup, p, hc, hfile,
      himports, fun m hm y hy hsame => ?_⟩
    obtain ⟨k, hk⟩ := Option.isSome_iff_exists.mp (hid m hm)
    have hmk : m.key = k := by rw [Node.key, hk, Option.getD_some]
    have hyk : y.id? = some k := by
      obtain ⟨i, hi⟩ := Option.isSome_iff_exists.mp (hcompletes.identified y hy)
      rw [← hmk, ← hsame, Node.key, hi, Option.getD_some]
    obtain ⟨x, hx, hxy⟩ := (Node.isSimulation_completes next).mem_preorder hcompletes hy
    have hmark : y.mark = x.mark := hxy.gains.mark_eq_of_lt hyk (hmk ▸ hnext m hm)
    have hxk : x.id? = some k := by rw [← hyk, Node.id?, Node.id?, hmark]
    have hmid : m.Identified := fun c hc =>
      hid c ((Node.preorder_sublist_of_mem_preorder hm).subset hc)
    obtain ⟨hxm, hkeeps | ⟨rfl, rfl, kept, hconforms, hkeeps, hroot, heq⟩⟩ :=
      hkept m hm x hx (hid m hm) (hxk.trans hk.symm)
    · exact ⟨hmark.trans hxm, .inl (FilePass.keeps_of_completes hmid hkeeps hxy)⟩
    · have htree : tree.mark = out.tree.mark := hcompletes.gains.mark_eq (by rw [hxk]; rfl)
      obtain rfl : y = tree := Node.eq_of_countId_le_one (hcount k) hy tree.self_mem_preorder hyk
        (by rw [Node.id?, htree]; exact hxk)
      refine ⟨hmark.trans hxm, ?_⟩
      obtain hkept' | ⟨statement, kept', hstatement, hkept', hy'⟩ :=
        Node.Completes.exists_statement hconforms (heq ▸ hxy)
      · exact .inl (FilePass.keeps_of_completes hmid hkeeps hkept')
      · have hid' : kept.id?.isSome = true := by rw [Node.id?, hroot]; exact hid _ hm
        exact .inr ⟨rfl, rfl, statement, kept', hstatement.gains,
          FilePass.keeps_of_completes hmid hkeeps hkept',
          (hkept'.gains.mark_eq hid').trans hroot, hy'⟩
  · cases h.symm.trans hout

/-- A use site in a substitution of another, and the import put in front: eleven nodes are left with
the identities they had, and the new ones draw others. -/
theorem expandFile_draws_identities_nested :
    ∃ files, files = (SourceFile.parse "a.ts"
      "import \x7b f \x7d from \"ts-transform-creator\"; g(f`$\x7bf`b`\x7d + 1`, 2);").toOption.toList ∧
    ∃ file ∈ (Program.ofFiles files).files, ∃ next out tree next' ids', file.tree.Conforms ∧
      file.tree.Identified ∧ (file.tree.preorder.map Node.key).Nodup ∧
      (∀ m ∈ file.tree.preorder, m.key < next) ∧
      expandFile ⟨(Program.ofFiles files).model, {}⟩ file .sequential = (.ok out, ids') ∧
      out.expansions = 2 ∧ (out.tree.preorder.filterMap Node.id?).length = 11 ∧
      expandFileDrawing ⟨(Program.ofFiles files).model, {}⟩ file .sequential next =
        (.ok ({ out with tree }, next'), ids') ∧
      tree.Identified ∧ (tree.preorder.map Node.key).Nodup ∧
      ∀ m ∈ file.tree.preorder, ∀ m' ∈ tree.preorder, m'.key = m.key → m'.mark = m.mark := by
  obtain ⟨files, hfiles, hcheck⟩ : ∃ files, files = (SourceFile.parse "a.ts"
      "import \x7b f \x7d from \"ts-transform-creator\"; g(f`$\x7bf`b`\x7d + 1`, 2);").toOption.toList ∧
      (Program.ofFiles files).files.any (fun file => decide file.tree.Conforms &&
        (file.tree.preorder.all (fun m => m.id?.isSome && decide (m.key < 100)) &&
          (decide (file.tree.preorder.map Node.key).Nodup &&
            (expandFile ⟨(Program.ofFiles files).model, {}⟩ file
              .sequential).1.toOption.any fun out =>
              out.expansions = 2 && (out.tree.preorder.filterMap Node.id?).length = 11))) = true :=
    ⟨_, rfl, by decide +kernel⟩
  obtain ⟨file, hfile, h⟩ := List.any_eq_true.mp hcheck
  obtain ⟨hf, h⟩ := (Bool.and_eq_true _ _).mp h
  obtain ⟨hmarks, h⟩ := (Bool.and_eq_true _ _).mp h
  obtain ⟨hids, h⟩ := (Bool.and_eq_true _ _).mp h
  obtain ⟨out, ids', hout, h⟩ := exists_ok_fst_of_any h
  simp only [List.all_eq_true, Bool.and_eq_true, decide_eq_true_eq] at hf hmarks hids h
  obtain ⟨tree, next', hdrawing, -, hidentified, hnodup, p, -, -, -, hkept⟩ :=
    expandFile_draws_identities hf (fun m hm => (hmarks m hm).1) hids
      (fun m hm => (hmarks m hm).2) hout
  exact ⟨files, hfiles, file, hfile, 100, out, tree, next', ids', hf, fun m hm => (hmarks m hm).1,
    hids, fun m hm => (hmarks m hm).2, hout, h.1, h.2, hdrawing, hidentified, hnodup,
    fun m hm m' hm' hsame => (hkept m hm m' hm' hsame).1⟩

end Compilation

end Quasiquote
