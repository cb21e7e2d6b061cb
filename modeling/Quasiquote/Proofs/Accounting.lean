import Quasiquote.Proofs.Grafting
import Quasiquote.Proofs.Identity
import Quasiquote.Proofs.Placement

namespace Quasiquote

def Pattern.kind : Pattern → Kind
  | stringLiteral => .stringLiteral
  | identifier => .identifier
  | blockOfIdentifier => .block
  | returnOfIdentifier => .returnStatement

/-- The entry whose token a builder call carries in the shape that the entry's role prescribes, with
the patterns tried in the given order. -/
def Registry.entryBy? (patterns : List Pattern) (r : Registry) (ns : String) (n : Node) :
    Option (String × Placeholder) :=
  patterns.findSome? fun pattern => do
    let token ← pattern.token? ns n
    let p ← r.get? token
    if p.role.pattern = pattern then some (token, p) else none

mutual

/-- Splicing with the patterns tried in the given order, and with the calls that were replaced. -/
def Node.spliceBy (patterns : List Pattern) (ns : String) : Node → Registry → Graft Node
  | .mk kind mark fields, r =>
    match r.entryBy? patterns ns (.mk kind mark fields) with
    | some (token, p) => ⟨p.payload, r.erase token, [(token, .mk kind mark fields)]⟩
    | none => (Field.spliceListBy patterns ns fields r).map (.plain kind)

def Field.spliceListBy (patterns : List Pattern) (ns : String) :
    List Field → Registry → Graft (List Field)
  | [], r => ⟨[], r, []⟩
  | .node n :: rest, r =>
    (n.spliceBy patterns ns r).join (fun n fs => .node n :: fs) (Field.spliceListBy patterns ns rest)
  | .list ms :: rest, r =>
    (Node.spliceListBy patterns ns ms r).join (fun ms fs => .list ms :: fs)
      (Field.spliceListBy patterns ns rest)
  | .text s :: rest, r => (Field.spliceListBy patterns ns rest r).map (.text s :: ·)
  | .flag b :: rest, r => (Field.spliceListBy patterns ns rest r).map (.flag b :: ·)
  | .absent :: rest, r => (Field.spliceListBy patterns ns rest r).map (.absent :: ·)

def Node.spliceListBy (patterns : List Pattern) (ns : String) :
    List Node → Registry → Graft (List Node)
  | [], r => ⟨[], r, []⟩
  | n :: rest, r =>
    (n.spliceBy patterns ns r).join List.cons (Node.spliceListBy patterns ns rest)

end

variable {ns : String} {r : Registry} {n : Node} {patterns : List Pattern}

theorem Node.factoryKind_of_arguments? {kind : Kind} {arguments : List Node}
    (h : n.factoryArguments? ns kind = some arguments) :
    (n.child? .expression).bind (Node.factoryKind? ns) = some kind := by
  unfold Node.factoryArguments? at h
  split at h
  · next hn =>
    simp only [Bool.and_eq_true, decide_eq_true_eq] at hn
    exact hn.2
  · cases h

theorem Pattern.factoryKind_of_token? {pattern : Pattern} {token : String}
    (h : pattern.token? ns n = some token) :
    (n.child? .expression).bind (Node.factoryKind? ns) = some pattern.kind := by
  cases pattern with
  | stringLiteral =>
    simp only [token?] at h
    split at h
    · next ha => exact Node.factoryKind_of_arguments? ha
    · cases h
  | identifier =>
    simp only [token?, identifierToken?] at h
    split at h
    · next ha => exact Node.factoryKind_of_arguments? ha
    · cases h
  | returnOfIdentifier =>
    simp only [token?] at h
    split at h
    · next ha => exact Node.factoryKind_of_arguments? ha
    · cases h
  | blockOfIdentifier =>
    simp only [token?] at h
    split at h
    · next hs =>
      obtain ⟨s, hs, -⟩ := Option.bind_eq_some_iff.mp hs
      simp only [onlyStatement?] at hs
      split at hs
      · next ha => exact Node.factoryKind_of_arguments? ha
      · cases hs
    · cases h

/-- A call builds a node of one kind, so that it has one pattern at most. -/
theorem Pattern.eq_of_token? {pattern pattern' : Pattern} {token token' : String}
    (h : pattern.token? ns n = some token) (h' : pattern'.token? ns n = some token') :
    pattern = pattern' := by
  have hkind := (factoryKind_of_token? h).symm.trans (factoryKind_of_token? h')
  cases pattern <;> cases pattern' <;> simp_all [kind]

theorem Registry.entryBy?_eq_some {token : String} {p : Placeholder}
    (h : r.entryBy? patterns ns n = some (token, p)) :
    r.get? token = some p ∧ p.role.pattern.token? ns n = some token := by
  obtain ⟨pattern, -, hpattern⟩ := List.exists_of_findSome?_eq_some h
  simp only [Option.bind_eq_bind, Option.bind_eq_some_iff] at hpattern
  obtain ⟨token', htoken, p', hp, hif⟩ := hpattern
  split at hif
  · next hrole =>
    obtain ⟨rfl, rfl⟩ := Prod.mk.inj (Option.some.inj hif)
    exact ⟨hp, hrole ▸ htoken⟩
  · cases hif

/-- Which entry is found is a matter of the call and the registry alone. -/
theorem Registry.entryBy?_eq_some_iff (hall : ∀ pattern, pattern ∈ patterns) {token : String}
    {p : Placeholder} :
    r.entryBy? patterns ns n = some (token, p) ↔
      r.get? token = some p ∧ p.role.pattern.token? ns n = some token := by
  refine ⟨entryBy?_eq_some, fun ⟨hp, htoken⟩ => ?_⟩
  cases hentry : r.entryBy? patterns ns n with
  | none =>
    have hnone := List.findSome?_eq_none_iff.mp hentry p.role.pattern (hall _)
    simp [htoken, hp] at hnone
  | some entry =>
    obtain ⟨token', p'⟩ := entry
    obtain ⟨hp', htoken'⟩ := entryBy?_eq_some hentry
    rw [Pattern.eq_of_token? htoken' htoken, htoken, Option.some.injEq] at htoken'
    subst htoken'
    rw [hp] at hp'
    rw [Option.some.inj hp']

theorem Pattern.mem_all (pattern : Pattern) : pattern ∈ all := by
  cases pattern <;> decide

theorem Registry.take?_eq_entryBy? (hall : ∀ pattern, pattern ∈ patterns) :
    r.take? ns n =
      (r.entryBy? patterns ns n).map fun entry => (entry.2.payload, r.erase entry.1) := by
  have hsame : r.entryBy? patterns ns n = r.entryBy? Pattern.all ns n := by
    apply Option.ext
    rintro ⟨token, p⟩
    rw [entryBy?_eq_some_iff hall, entryBy?_eq_some_iff Pattern.mem_all]
  rw [hsame, take?, entryBy?, List.map_findSome?]
  congr 1
  funext pattern
  simp

mutual

theorem Node.splice_eq_spliceBy (hall : ∀ pattern, pattern ∈ patterns) (n : Node) (r : Registry) :
    n.splice ns r = ((n.spliceBy patterns ns r).value, (n.spliceBy patterns ns r).left) := by
  match n with
  | .mk kind mark fields =>
    rw [Node.splice, Node.spliceBy, Registry.take?_eq_entryBy? hall]
    cases r.entryBy? patterns ns (.mk kind mark fields) with
    | some entry => rfl
    | none =>
      have hfields := Field.spliceList_eq_spliceListBy hall fields r
      simp only [Option.map_none, hfields, Graft.map]

theorem Field.spliceList_eq_spliceListBy (hall : ∀ pattern, pattern ∈ patterns)
    (fields : List Field) (r : Registry) :
    Field.spliceList ns fields r =
      ((Field.spliceListBy patterns ns fields r).value,
        (Field.spliceListBy patterns ns fields r).left) := by
  match fields with
  | [] => rfl
  | .node n :: rest =>
    have hn := Node.splice_eq_spliceBy hall n r
    have hrest := Field.spliceList_eq_spliceListBy hall rest (n.spliceBy patterns ns r).left
    simp only [Field.spliceList, hn, hrest, Field.spliceListBy, Graft.join]
  | .list ms :: rest =>
    have hms := Node.spliceList_eq_spliceListBy hall ms r
    have hrest := Field.spliceList_eq_spliceListBy hall rest
      (Node.spliceListBy patterns ns ms r).left
    simp only [Field.spliceList, hms, hrest, Field.spliceListBy, Graft.join]
  | .text _ :: rest | .flag _ :: rest | .absent :: rest =>
    have hrest := Field.spliceList_eq_spliceListBy hall rest r
    simp only [Field.spliceList, hrest, Field.spliceListBy, Graft.map]

theorem Node.spliceList_eq_spliceListBy (hall : ∀ pattern, pattern ∈ patterns) (ms : List Node)
    (r : Registry) :
    Node.spliceList ns ms r =
      ((Node.spliceListBy patterns ns ms r).value, (Node.spliceListBy patterns ns ms r).left) := by
  match ms with
  | [] => rfl
  | m :: rest =>
    have hm := Node.splice_eq_spliceBy hall m r
    have hrest := Node.spliceList_eq_spliceListBy hall rest (m.spliceBy patterns ns r).left
    simp only [Node.spliceList, hm, hrest, Node.spliceListBy, Graft.join]

end

def Graft.taken {α : Type} (g : Graft α) : List String :=
  g.cuts.map Prod.fst

def Registry.without (r : Registry) (tokens : List String) : Registry :=
  ⟨r.entries.filter fun e => e.1 ∉ tokens⟩

theorem Registry.get?_without (r : Registry) (tokens : List String) (token : String) :
    (r.without tokens).get? token = if token ∈ tokens then none else r.get? token := by
  obtain ⟨entries⟩ := r
  simp only [get?, without]
  induction entries with
  | nil => simp
  | cons e entries ih =>
    by_cases he : e.1 ∈ tokens
    · rw [List.filter_cons_of_neg (by simp [he]), ih, List.lookup_cons]
      by_cases ht : token = e.1
      · simp [ht, he]
      · simp [beq_eq_false_iff_ne.mpr ht]
    · rw [List.filter_cons_of_pos (by simp [he]), List.lookup_cons, List.lookup_cons, ih]
      by_cases ht : token = e.1
      · simp [ht, he]
      · simp [beq_eq_false_iff_ne.mpr ht]

theorem Registry.without_without (r : Registry) (tokens tokens' : List String) :
    (r.without tokens).without tokens' = r.without (tokens ++ tokens') := by
  simp only [without, List.filter_filter, Registry.mk.injEq]
  refine List.filter_congr fun e _ => ?_
  simp [Bool.and_comm]

/-- Each token is taken once at most, from a call that carries it in the shape of its role, and its
payload is in the result; exactly the other entries are left. The call is in one of `nodes` and the
payload in one of `values`. -/
structure Graft.Accounts {α : Type} (ns : String) (r : Registry) (nodes values : List Node)
    (g : Graft α) : Prop where
  nodup : g.taken.Nodup
  left : g.left = r.without g.taken
  cuts : ∀ cut ∈ g.cuts, ∃ p, r.get? cut.1 = some p ∧
    p.role.pattern.token? ns cut.2 = some cut.1 ∧
    cut.2 ∈ nodes.flatMap Node.preorder ∧ p.payload ∈ values.flatMap Node.preorder

namespace Graft.Accounts

variable {α β γ : Type} {nodes nodes' values values' : List Node} {g : Graft α}

theorem map (h : g.Accounts ns r nodes values) (f : α → β) :
    (g.map f).Accounts ns r nodes values :=
  ⟨h.nodup, h.left, h.cuts⟩

theorem mono (h : g.Accounts ns r nodes values)
    (hnodes : nodes.flatMap Node.preorder ⊆ nodes'.flatMap Node.preorder)
    (hvalues : values.flatMap Node.preorder ⊆ values'.flatMap Node.preorder) :
    g.Accounts ns r nodes' values' := by
  refine ⟨h.nodup, h.left, fun cut hcut => ?_⟩
  obtain ⟨p, hp, htoken, hnode, hvalue⟩ := h.cuts cut hcut
  exact ⟨p, hp, htoken, hnodes hnode, hvalues hvalue⟩

theorem pure (a : α) : (⟨a, r, []⟩ : Graft α).Accounts ns r [] [] :=
  ⟨List.nodup_nil, by simp [Graft.taken, Registry.without], nofun⟩

theorem join {second : Registry → Graft β} (h : g.Accounts ns r nodes values)
    (h' : (second g.left).Accounts ns g.left nodes' values') (f : α → β → γ) :
    (g.join f second).Accounts ns r (nodes ++ nodes') (values ++ values') := by
  have hnot : ∀ cut ∈ (second g.left).cuts, cut.1 ∉ g.taken := by
    intro cut hcut hmem
    obtain ⟨p, hp, -⟩ := h'.cuts cut hcut
    rw [h.left, Registry.get?_without, if_pos hmem] at hp
    cases hp
  have htaken : (g.join f second).taken = g.taken ++ (second g.left).taken := List.map_append
  refine ⟨?_, ?_, fun cut hcut => ?_⟩
  · rw [htaken, List.nodup_append]
    refine ⟨h.nodup, h'.nodup, ?_⟩
    rintro token htoken _ htoken' rfl
    obtain ⟨cut, hcut, rfl⟩ := List.mem_map.mp htoken'
    exact hnot cut hcut htoken
  · calc
      (g.join f second).left = g.left.without (second g.left).taken := h'.left
      _ = (r.without g.taken).without (second g.left).taken :=
        congrArg (Registry.without · (second g.left).taken) h.left
      _ = r.without (g.join f second).taken := by rw [Registry.without_without, htaken]
  · rw [List.flatMap_append, List.flatMap_append]
    rcases List.mem_append.mp hcut with hcut | hcut
    · obtain ⟨p, hp, htoken, hnode, hvalue⟩ := h.cuts cut hcut
      exact ⟨p, hp, htoken, List.mem_append_left _ hnode, List.mem_append_left _ hvalue⟩
    · obtain ⟨p, hp, htoken, hnode, hvalue⟩ := h'.cuts cut hcut
      rw [h.left, Registry.get?_without, if_neg (hnot cut hcut)] at hp
      exact ⟨p, hp, htoken, List.mem_append_right _ hnode, List.mem_append_right _ hvalue⟩

end Graft.Accounts

theorem Node.flatMap_preorder_singleton (n : Node) : [n].flatMap Node.preorder = n.preorder := by
  simp

theorem Node.flatMap_children_subset (n : Node) :
    n.children.flatMap Node.preorder ⊆ [n].flatMap Node.preorder := by
  rw [flatMap_preorder_singleton, preorder_eq]
  exact List.subset_cons_self _ _

mutual

theorem Node.spliceBy_accounts (n : Node) (r : Registry) :
    (n.spliceBy patterns ns r).Accounts ns r [n] [(n.spliceBy patterns ns r).value] := by
  match n with
  | .mk kind mark fields =>
    rw [Node.spliceBy]
    cases hentry : r.entryBy? patterns ns (.mk kind mark fields) with
    | some entry =>
      obtain ⟨token, p⟩ := entry
      obtain ⟨hp, htoken⟩ := Registry.entryBy?_eq_some hentry
      refine ⟨List.pairwise_singleton _ _, ?_, ?_⟩
      · simp [Registry.erase, Registry.without, Graft.taken]
      · rintro _ (_ | ⟨_, ⟨⟩⟩)
        refine ⟨p, hp, htoken, ?_, ?_⟩
        · rw [Node.flatMap_preorder_singleton]
          exact Node.self_mem_preorder _
        · rw [Node.flatMap_preorder_singleton]
          exact Node.self_mem_preorder _
    | none =>
      refine ((Field.spliceListBy_accounts fields r).map _).mono ?_ ?_
      · exact Node.flatMap_children_subset (.mk kind mark fields)
      · exact Node.flatMap_children_subset (.plain kind _)

theorem Field.spliceListBy_accounts (fields : List Field) (r : Registry) :
    (Field.spliceListBy patterns ns fields r).Accounts ns r (fields.flatMap Field.nodes)
      ((Field.spliceListBy patterns ns fields r).value.flatMap Field.nodes) := by
  match fields with
  | [] => exact .pure _
  | .node n :: rest =>
    exact (Node.spliceBy_accounts n r).join (Field.spliceListBy_accounts rest _) _
  | .list ms :: rest =>
    exact (Node.spliceListBy_accounts ms r).join (Field.spliceListBy_accounts rest _) _
  | .text _ :: rest | .flag _ :: rest | .absent :: rest =>
    exact (Field.spliceListBy_accounts rest r).map _

theorem Node.spliceListBy_accounts (ms : List Node) (r : Registry) :
    (Node.spliceListBy patterns ns ms r).Accounts ns r ms
      (Node.spliceListBy patterns ns ms r).value := by
  match ms with
  | [] => exact .pure _
  | m :: rest => exact (Node.spliceBy_accounts m r).join (Node.spliceListBy_accounts rest _) _

end

theorem Node.splice_sublist (ns : String) (n : Node) (r : Registry) :
    (n.splice ns r).2.entries.Sublist r.entries := by
  have haccounts : (n.spliceBy Pattern.all ns r).Accounts ns r [n] _ := Node.spliceBy_accounts n r
  rw [Node.splice_eq_spliceBy Pattern.mem_all n r, haccounts.left]
  exact List.filter_sublist

theorem Placeholder.notAfter_trans (p q s : Placeholder) (h : p.notAfter q = true)
    (h' : q.notAfter s = true) : p.notAfter s = true := by
  cases hp : p.span <;> cases hq : q.span <;> cases hs : s.span <;>
    simp_all [Placeholder.notAfter]
  omega

theorem Placeholder.notAfter_total (p q : Placeholder) :
    (p.notAfter q || q.notAfter p) = true := by
  cases hp : p.span <;> cases hq : q.span <;> simp [Placeholder.notAfter, hp, hq]
  omega

def Unspliced.ofEntry (entry : String × Placeholder) : Unspliced :=
  ⟨entry.1, entry.2.role, entry.2.span⟩

theorem Registry.unspliced_perm (r : Registry) :
    r.unspliced.Perm (r.entries.map Unspliced.ofEntry) :=
  (List.mergeSort_perm _ _).map _

/-- Entries that begin at different places are reported in the order of these. -/
theorem Registry.unspliced_pairwise {r : Registry}
    (hspans : ∀ entry ∈ r.entries, entry.2.span.isSome = true)
    (hstarts : (r.entries.map fun entry => entry.2.span.map Span.start).Nodup) :
    r.unspliced.Pairwise fun m m' =>
      ∃ s s', m.span = some s ∧ m'.span = some s' ∧ s.start < s'.start := by
  have hsorted : r.remaining.Pairwise fun a b => a.2.notAfter b.2 = true :=
    List.pairwise_mergeSort (fun a b c => Placeholder.notAfter_trans a.2 b.2 c.2)
      (fun a b => Placeholder.notAfter_total a.2 b.2) r.entries
  have hperm : r.remaining.Perm r.entries := List.mergeSort_perm _ _
  have hdistinct : r.remaining.Pairwise fun a b =>
      a.2.span.map Span.start ≠ b.2.span.map Span.start :=
    List.pairwise_map.mp ((hperm.map _).nodup_iff.mpr hstarts)
  refine List.pairwise_map.mpr ((hsorted.and hdistinct).imp_of_mem fun {a b} ha hb hab => ?_)
  obtain ⟨s, hs⟩ := Option.isSome_iff_exists.mp (hspans a (hperm.mem_iff.mp ha))
  obtain ⟨s', hs'⟩ := Option.isSome_iff_exists.mp (hspans b (hperm.mem_iff.mp hb))
  refine ⟨s, s', hs, hs', ?_⟩
  simp only [Placeholder.notAfter, hs, hs', decide_eq_true_eq, Option.map_some, ne_eq,
    Option.some.injEq] at hab
  omega

def TemplateParts.nodes (parts : TemplateParts) : List Node :=
  parts.substitutions.map Prod.fst

def Compilation.placeholder (c : Compilation) (substitution : Node) : Placeholder :=
  ⟨c.payload substitution, (c.inferRole substitution).role, substitution.span⟩

structure Compilation.Registers (c : Compilation) (nodes : List Node) (r : Registry) : Prop where
  placeholders : r.entries.map Prod.snd = nodes.map c.placeholder
  tokens : r.tokens.Nodup

variable {c : Compilation}

theorem Fragment.placeholder_slots (literalText : String) (f : Fragment) (ids : IdSupply)
    (substitutions : List (Node × String)) :
    (f.slots c literalText ids substitutions).map Slot.placeholder =
      substitutions.map fun s => c.placeholder s.1 := by
  induction substitutions generalizing f ids with
  | nil => rfl
  | cons s rest ih =>
    rw [Fragment.slots, List.map_cons, ih]
    rfl

theorem Fragment.registers_addAll (c : Compilation) (parts : TemplateParts) (ids : IdSupply) :
    c.Registers parts.nodes (Fragment.addAll c parts.literalText { source := parts.head } ids
      parts.substitutions).1.registry := by
  have hlays := parts.lays c ids
  refine ⟨?_, ?_⟩
  · rw [hlays.entries, List.map_map]
    have hslots := Fragment.placeholder_slots (c := c) parts.literalText { source := parts.head } ids
      parts.substitutions
    rw [TemplateParts.nodes, List.map_map]
    exact hslots
  · rw [Registry.tokens, hlays.entries, List.map_map]
    exact hlays.written.nodup

/-- What an expansion with a fragment is made of. -/
theorem Compilation.expandTemplate_registers {template : Node} {ids ids' : IdSupply} {e : Expansion}
    (h : c.expandTemplate template ids = (.ok e, ids')) (hfragment : e.fragment.isSome = true) :
    ∃ (r : Registry) (fragment : Node), c.Registers (TemplateParts.ofTemplate template).nodes r ∧
      e.placeholders = r.size ∧
      (e.tree, e.mismatches) =
        ((fragment.synthesize c.options.factoryNamespace).splice c.options.factoryNamespace r).map
          id Registry.unspliced := by
  rw [expandTemplate, compileTemplate] at h
  by_cases hempty : (TemplateParts.ofTemplate template).isEmpty = true
  · simp only [hempty, if_true, Prod.mk.injEq, Except.ok.injEq] at h
    obtain ⟨rfl, -⟩ := h
    cases hfragment
  · simp only [hempty] at h
    have hexpand := congrArg Prod.fst h
    simp only [Bool.false_eq_true, if_false, Fragment.expand] at hexpand
    split at hexpand
    · cases hexpand
    · next fragment _ =>
      obtain rfl := Except.ok.inj hexpand
      exact ⟨_, fragment, Fragment.registers_addAll c _ ids, rfl, rfl⟩

theorem Registry.get?_of_mem {r : Registry} (hr : r.tokens.Nodup) {token : String}
    {p : Placeholder} (h : (token, p) ∈ r.entries) : r.get? token = some p := by
  obtain ⟨entries⟩ := r
  induction entries with
  | nil => cases h
  | cons e entries ih =>
    obtain ⟨hnot, hnodup⟩ := List.nodup_cons.mp hr
    rcases List.mem_cons.mp h with rfl | h
    · simp [get?]
    · have hne : token ≠ e.1 := by
        rintro rfl
        exact hnot (List.mem_map.mpr ⟨_, h, rfl⟩)
      rw [get?, List.lookup_cons, beq_eq_false_iff_ne.mpr hne]
      exact ih hnodup h

theorem filter_eq_singleton {α β : Type} [DecidableEq β] {f : α → β} {xs : List α} {a : α}
    (h : (xs.map f).Nodup) (ha : a ∈ xs) : (xs.filter fun x => f x = f a) = [a] := by
  induction xs with
  | nil => cases ha
  | cons x xs ih =>
    obtain ⟨hnot, hnodup⟩ := List.nodup_cons.mp h
    rcases List.mem_cons.mp ha with rfl | ha
    · rw [List.filter_cons_of_pos (by simp), List.cons.injEq]
      refine ⟨rfl, List.filter_eq_nil_iff.mpr fun y hy hfy => hnot ?_⟩
      rw [← of_decide_eq_true hfy]
      exact List.mem_map_of_mem hy
    · have hne : f x ≠ f a := fun hfx => hnot (hfx ▸ List.mem_map_of_mem ha)
      rw [List.filter_cons_of_neg (by simpa using hne), ih hnodup ha]

theorem Node.total_map {w : Node → Nat} {f : Node → Node} (h : ∀ n, w (f n) = w n)
    (ns : List Node) : Node.total w (ns.map f) = Node.total w ns := by
  induction ns with
  | nil => rfl
  | cons n ns ih => rw [List.map_cons, total_cons, total_cons, h, ih]

theorem Node.le_total {w : Node → Nat} {ns : List Node} (h : n ∈ ns) : w n ≤ Node.total w ns := by
  induction ns with
  | nil => cases h
  | cons m ns ih =>
    rw [total_cons]
    rcases List.mem_cons.mp h with rfl | h
    · exact Nat.le_add_right _ _
    · exact (ih h).trans (Nat.le_add_left _ _)

theorem Node.one_le_countId {m : Node} {k : Nat} (hm : m ∈ n.preorder) (hk : m.id? = some k) :
    1 ≤ n.countId k :=
  List.countP_pos_iff.mpr ⟨m, hm, decide_eq_true hk⟩

namespace Compilation.Registers

variable {nodes : List Node} {tree s : Node} {k : Nat}

theorem exists_entry (h : c.Registers nodes r) (hs : s ∈ nodes) :
    ∃ token, (token, c.placeholder s) ∈ r.entries := by
  have hmem : c.placeholder s ∈ r.entries.map Prod.snd := h.placeholders ▸ List.mem_map_of_mem hs
  obtain ⟨⟨token, p⟩, hentry, rfl⟩ := List.mem_map.mp hmem
  exact ⟨token, hentry⟩

theorem weight_eq (h : c.Registers nodes r) {w : Node → Nat} (hw : Node.Inherited w) :
    r.weight w = Node.total w nodes := by
  have hpayloads : (r.entries.map fun e => e.2.payload) = nodes.map c.payload := by
    calc
      (r.entries.map fun e => e.2.payload) = (r.entries.map Prod.snd).map Placeholder.payload := by
        rw [List.map_map]
        rfl
      _ = nodes.map c.payload := by
        rw [h.placeholders, List.map_map]
        rfl
  rw [Registry.weight, hpayloads]
  exact Node.total_map (c.weight_payload hw) nodes

theorem nodup_starts (h : c.Registers nodes r)
    (hstarts : (nodes.map fun s => s.span.map Span.start).Nodup) :
    (r.entries.map fun entry => entry.2.span.map Span.start).Nodup := by
  have hsame : (r.entries.map fun entry => entry.2.span.map Span.start) =
      nodes.map fun s => s.span.map Span.start := by
    calc
      (r.entries.map fun entry => entry.2.span.map Span.start) =
          (r.entries.map Prod.snd).map fun p => p.span.map Span.start := by
        rw [List.map_map]
        rfl
      _ = nodes.map fun s => s.span.map Span.start := by
        rw [h.placeholders, List.map_map]
        rfl
  rwa [hsame]

/-- A substitution is put into a tree that holds no template with a tag, and only there, or it stays
in the registry. -/
theorem placed_or_left (h : c.Registers nodes r) (htree : tree.Untagged) (hs : s ∈ nodes)
    (hk : s.id? = some k) (hone : Node.total (Node.countId k) nodes = 1)
    (hstarts : (nodes.map fun s => s.span.map Span.start).Nodup) :
    ((tree.splice ns r).1.countId k = 1 ∧ c.payload s ∈ (tree.splice ns r).1.preorder ∧
      ∀ m ∈ (tree.splice ns r).2.unspliced, m.span ≠ s.span) ∨
    ((tree.splice ns r).1.countId k = 0 ∧
      ∃ m, ((tree.splice ns r).2.unspliced.filter fun m => m.span = s.span) = [m] ∧
        m.role = (c.inferRole s).role) := by
  obtain ⟨token, hentry⟩ := h.exists_entry hs
  have hweight := (Node.splice_weight ns (Node.inherited_countId k) tree r htree h.tokens).1
  rw [h.weight_eq (Node.inherited_countId k), hone] at hweight
  have haccounts : (tree.spliceBy Pattern.all ns r).Accounts ns r [tree] _ :=
    Node.spliceBy_accounts tree r
  rw [Node.splice_eq_spliceBy Pattern.mem_all tree r] at hweight ⊢
  generalize tree.spliceBy Pattern.all ns r = g at haccounts hweight ⊢
  dsimp only at hweight ⊢
  have hself : s ∈ (c.payload s).preorder :=
    Node.mem_preorder_of_mem_children (Node.mem_children_of_child? (l := .expression) rfl)
  have hpayload : 1 ≤ (c.payload s).countId k := Node.one_le_countId hself hk
  have hleft : ∀ e, e ∈ g.left.entries ↔ e ∈ r.entries ∧ e.1 ∉ g.taken := by
    intro e
    rw [haccounts.left, Registry.without, List.mem_filter]
    simp
  have hspans : (r.entries.map fun e => e.2.span).Nodup := by
    refine List.Nodup.of_map (Option.map Span.start) ?_
    rw [List.map_map]
    exact h.nodup_starts hstarts
  by_cases htaken : token ∈ g.taken
  · left
    obtain ⟨cut, hcut, rfl⟩ := List.mem_map.mp htaken
    obtain ⟨p, hp, -, -, hvalue⟩ := haccounts.cuts cut hcut
    rw [Registry.get?_of_mem h.tokens hentry, Option.some.injEq] at hp
    subst hp
    rw [Node.flatMap_preorder_singleton] at hvalue
    have hcount : 1 ≤ g.value.countId k :=
      Node.one_le_countId ((Node.preorder_sublist_of_mem_preorder hvalue).subset hself) hk
    refine ⟨by omega, hvalue, fun m hm hspan => ?_⟩
    obtain ⟨e, he, rfl⟩ := List.mem_map.mp (g.left.unspliced_perm.mem_iff.mp hm)
    obtain ⟨he, hnot⟩ := (hleft e).mp he
    rw [List.inj_on_of_nodup_map hspans he hentry hspan] at hnot
    exact hnot htaken
  · right
    have hmem : (token, c.placeholder s) ∈ g.left.entries := (hleft _).mpr ⟨hentry, htaken⟩
    have hcount : (c.payload s).countId k ≤ g.left.weight (Node.countId k) :=
      Node.le_total (List.mem_map_of_mem hmem)
    have hnodup : (g.left.entries.map fun e => e.2.span).Nodup := by
      rw [haccounts.left]
      exact hspans.sublist (List.filter_sublist.map _)
    refine ⟨by omega, Unspliced.ofEntry (token, c.placeholder s), ?_, rfl⟩
    have hone := (g.left.unspliced_perm.filter fun m => m.span = s.span)
    rw [List.filter_map] at hone
    have hfilter : g.left.entries.filter ((fun m => decide (m.span = s.span)) ∘ Unspliced.ofEntry) =
        [(token, c.placeholder s)] := filter_eq_singleton hnodup hmem
    rw [hfilter] at hone
    exact List.perm_singleton.mp hone

/-- What stays is reported in the order of the file. -/
theorem reported_in_order (h : c.Registers nodes r)
    (hspans : ∀ s ∈ nodes, s.span.isSome = true)
    (hstarts : (nodes.map fun s => s.span.map Span.start).Nodup) :
    (tree.splice ns r).2.unspliced.Pairwise fun m m' =>
      ∃ s s', m.span = some s ∧ m'.span = some s' ∧ s.start < s'.start := by
  have hsub := Node.splice_sublist ns tree r
  refine Registry.unspliced_pairwise (fun entry he => ?_)
    ((h.nodup_starts hstarts).sublist (hsub.map _))
  have hmem : entry.2 ∈ nodes.map c.placeholder :=
    h.placeholders ▸ List.mem_map_of_mem (hsub.subset he)
  obtain ⟨s, hs, hentry⟩ := List.mem_map.mp hmem
  rw [← hentry]
  exact hspans s hs

end Compilation.Registers

/-- No substitution of a template is lost or put in twice. Each is in the expression that is built, as
the callee of one call with the parameter, or it is reported, in the order of the file, with its role
and its place. In general, splicing takes an entry of the registry once at most, for a call that carries
its token in the shape of its role, leaves the others, which are those that are reported, and does not
depend on the order of the patterns. More is asked than distinct ids and starts of the substitutions:
each has an id that no node inside of a substitution has either, and each has a span. -/
theorem Compilation.expandTemplate_accounts {template : Node} {ids ids' : IdSupply} {e : Expansion}
    (h : c.expandTemplate template ids = (.ok e, ids')) (hfragment : e.fragment.isSome = true)
    (hids : ∀ s ∈ (TemplateParts.ofTemplate template).nodes, ∃ k, s.id? = some k ∧
      ((TemplateParts.ofTemplate template).nodes.flatMap Node.preorder).countP
        (fun m => m.id? = some k) = 1)
    (hspans : ∀ s ∈ (TemplateParts.ofTemplate template).nodes, s.span.isSome = true)
    (hstarts : ((TemplateParts.ofTemplate template).nodes.map
      fun s => s.span.map Span.start).Nodup) :
    e.placeholders = (TemplateParts.ofTemplate template).nodes.length ∧
    (∀ s ∈ (TemplateParts.ofTemplate template).nodes, ∀ k, s.id? = some k →
      (e.tree.countId k = 1 ∧
        Node.call s [.identifier c.options.parameterName] ∈ e.tree.preorder ∧
        ∀ m ∈ e.mismatches, m.span ≠ s.span) ∨
      (e.tree.countId k = 0 ∧
        ∃ m, (e.mismatches.filter fun m => m.span = s.span) = [m] ∧
          m.role = (c.inferRole s).role)) ∧
    (e.mismatches.Pairwise fun m m' =>
      ∃ s s', m.span = some s ∧ m'.span = some s' ∧ s.start < s'.start) ∧
    ∀ (patterns : List Pattern), patterns.Perm Pattern.all →
      ∀ (ns : String) (tree : Node) (r : Registry), ∃ g, g = tree.spliceBy patterns ns r ∧
        tree.splice ns r = (g.value, g.left) ∧ g.taken.Nodup ∧
        g.left.entries = (r.entries.filter fun e => e.1 ∉ g.taken) ∧
        g.left.unspliced.Perm (g.left.entries.map Unspliced.ofEntry) ∧
        ∀ cut ∈ g.cuts, cut.2 ∈ tree.preorder ∧ ∃ p, r.get? cut.1 = some p ∧
          p.role.pattern.token? ns cut.2 = some cut.1 ∧ p.payload ∈ g.value.preorder := by
  obtain ⟨r, fragment, hr, hsize, hparts⟩ := expandTemplate_registers h hfragment
  obtain ⟨htree, hmismatches⟩ := Prod.mk.inj hparts
  have huntagged : (fragment.synthesize c.options.factoryNamespace).Untagged :=
    Node.untagged_synthesize _ fragment
  refine ⟨?_, fun s hs k hk => ?_, ?_, fun patterns hpatterns ns tree r => ?_⟩
  · have hlength := congrArg List.length hr.placeholders
    rwa [List.length_map, List.length_map, ← Registry.size, ← hsize] at hlength
  · obtain ⟨k', hk', hone⟩ := hids s hs
    obtain rfl := Option.some.inj (hk'.symm.trans hk)
    rw [← Node.total_countId] at hone
    rw [htree, hmismatches]
    exact hr.placed_or_left huntagged hs hk hone hstarts
  · rw [hmismatches]
    exact hr.reported_in_order hspans hstarts
  · have hall : ∀ pattern, pattern ∈ patterns := fun pattern =>
      hpatterns.mem_iff.mpr pattern.mem_all
    have haccounts : (tree.spliceBy patterns ns r).Accounts ns r [tree] _ :=
      Node.spliceBy_accounts tree r
    refine ⟨_, rfl, Node.splice_eq_spliceBy hall tree r, haccounts.nodup,
      congrArg Registry.entries haccounts.left, Registry.unspliced_perm _, fun cut hcut => ?_⟩
    obtain ⟨p, hp, htoken, hnode, hvalue⟩ := haccounts.cuts cut hcut
    rw [Node.flatMap_preorder_singleton] at hnode hvalue
    exact ⟨hnode, p, hp, htoken, hvalue⟩

/-- Two blocks are no arguments of a call, so that they are reported; the expression between them goes
in. -/
theorem Compilation.expandTemplate_accounts_blocks :
    ∃ program, program = Program.ofFiles (SourceFile.parse "a.ts"
      ("import \x7b f \x7d from \"ts-transform-creator\"; function b(p): Block \x7b\x7d " ++
      "f`x($\x7bb\x7d, $\x7be\x7d, $\x7bb\x7d)`;")).toOption.toList ∧
    ∃ file ∈ program.files, ∃ template ∈ file.tree.preorder, ∃ e ids',
      expandTemplate ⟨program.model, {}⟩ template .sequential = (.ok e, ids') ∧
      ((TemplateParts.ofTemplate template).nodes.map fun s =>
        s.id?.map fun k => e.tree.countId k) = [some 0, some 1, some 0] ∧
      e.placeholders = (TemplateParts.ofTemplate template).nodes.length ∧
      (∀ s ∈ (TemplateParts.ofTemplate template).nodes, ∀ k, s.id? = some k →
        e.tree.countId k = 1 ∨ ∃ m ∈ e.mismatches, m.span = s.span) ∧
      e.mismatches.Pairwise fun m m' =>
        ∃ s s', m.span = some s ∧ m'.span = some s' ∧ s.start < s'.start := by
  obtain ⟨program, hprogram, hcheck⟩ : ∃ program, program = Program.ofFiles (SourceFile.parse "a.ts"
      ("import \x7b f \x7d from \"ts-transform-creator\"; function b(p): Block \x7b\x7d " ++
      "f`x($\x7bb\x7d, $\x7be\x7d, $\x7bb\x7d)`;")).toOption.toList ∧
      program.files.any (fun file => file.tree.preorder.any fun template =>
        (expandTemplate ⟨program.model, {}⟩ template .sequential).1.toOption.any fun e =>
          e.fragment.isSome && ((TemplateParts.ofTemplate template).nodes.map fun s =>
            s.id?.map fun k => e.tree.countId k) = [some 0, some 1, some 0] &&
          ((TemplateParts.ofTemplate template).nodes.all fun s =>
            s.span.isSome && s.id?.any fun k =>
              ((TemplateParts.ofTemplate template).nodes.flatMap Node.preorder).countP
                (fun m => m.id? = some k) = 1) &&
          ((TemplateParts.ofTemplate template).nodes.map
            fun s => s.span.map Span.start).Nodup) = true :=
    ⟨_, rfl, by decide +kernel⟩
  obtain ⟨file, hfile, h⟩ := List.any_eq_true.mp hcheck
  obtain ⟨template, htemplate, h⟩ := List.any_eq_true.mp h
  obtain ⟨e, ids', he, h⟩ := exists_ok_fst_of_any h
  simp only [Bool.and_eq_true, decide_eq_true_eq, List.all_eq_true, Option.any_eq_true] at h
  obtain ⟨⟨⟨hfragment, hcounts⟩, hnodes⟩, hstarts⟩ := h
  obtain ⟨hsize, hplaced, hordered, -⟩ := expandTemplate_accounts he hfragment
    (fun s hs => (hnodes s hs).2) (fun s hs => (hnodes s hs).1) hstarts
  refine ⟨program, hprogram, file, hfile, template, htemplate, e, ids', he, hcounts, hsize,
    fun s hs k hk => ?_, hordered⟩
  obtain ⟨hcount, -⟩ | ⟨-, m, hm, -⟩ := hplaced s hs k hk
  · exact .inl hcount
  · have hmem : m ∈ e.mismatches.filter fun m => m.span = s.span := hm ▸ List.mem_singleton_self m
    rw [List.mem_filter] at hmem
    exact .inr ⟨m, hmem.1, of_decide_eq_true hmem.2⟩

end Quasiquote
