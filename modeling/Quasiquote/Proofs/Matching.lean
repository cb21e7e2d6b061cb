import Mathlib.Data.List.Chain
import Quasiquote.Proofs.Conformance
import Quasiquote.Selector.Match
import Quasiquote.Tree.Build

namespace Quasiquote

abbrev Position := List Nat

namespace Position

def IsBelow (p q : Position) : Prop :=
  q <+: p ∧ q ≠ p

/-- Positions in pre-order: each one comes before those below it and before those to its right, and
only once. -/
def InPreorder (ps : List Position) : Prop :=
  ps.Pairwise (List.Lex (· < ·))

theorem isBelow_concat (p : Position) (i : Nat) : IsBelow (p ++ [i]) p :=
  ⟨List.prefix_append p [i], by simp⟩

theorem isBelow_concat_iff {p q : Position} {i : Nat} :
    IsBelow (p ++ [i]) q ↔ q = p ∨ IsBelow p q := by
  constructor
  · rintro ⟨hstart, hne⟩
    obtain h | h := List.prefix_concat_iff.mp hstart
    · exact absurd h hne
    · by_cases heq : q = p
      · exact .inl heq
      · exact .inr ⟨h, heq⟩
  · rintro (rfl | ⟨hstart, -⟩)
    · exact isBelow_concat q i
    · have hle := hstart.length_le
      refine ⟨hstart.trans (List.prefix_append p [i]), fun heq => ?_⟩
      rw [heq, List.length_append, List.length_singleton] at hle
      omega

theorem not_isBelow_nil (q : Position) : ¬ IsBelow [] q := by
  rintro ⟨hstart, hne⟩
  exact hne (List.prefix_nil.mp hstart)

end Position

open Position

namespace Node

variable {n c : Node} {p : Position} {ancestors : List Node}

def nodeAt? (n : Node) : Position → Option Node
  | [] => some n
  | i :: p => n.children[i]?.bind fun c => c.nodeAt? p

def ancestorsAt (n : Node) : Position → List Node
  | [] => []
  | i :: p => n.children[i]?.elim [] (fun c => c.ancestorsAt p) ++ [n]

theorem nodeAt?_cons {i : Nat} (hc : n.children[i]? = some c) (p : Position) :
    n.nodeAt? (i :: p) = c.nodeAt? p := by
  rw [nodeAt?, hc, Option.bind_some]

theorem ancestorsAt_cons {i : Nat} (hc : n.children[i]? = some c) (p : Position) :
    n.ancestorsAt (i :: p) = c.ancestorsAt p ++ [n] := by
  rw [ancestorsAt, hc, Option.elim_some]

theorem exists_nodeAt?_cons {i : Nat} {x : Node} (h : n.nodeAt? (i :: p) = some x) :
    ∃ c, n.children[i]? = some c ∧ c.nodeAt? p = some x :=
  Option.bind_eq_some_iff.mp h

/-- The nearest node above a position is the one at the position with a step less. -/
theorem exists_nodeAt?_of_concat {i : Nat} {x : Node} (h : n.nodeAt? (p ++ [i]) = some x) :
    ∃ a, n.nodeAt? p = some a ∧ n.ancestorsAt (p ++ [i]) = a :: n.ancestorsAt p := by
  induction p generalizing n with
  | nil =>
    obtain ⟨c, hc, -⟩ := exists_nodeAt?_cons h
    exact ⟨n, rfl, ancestorsAt_cons hc []⟩
  | cons j p ih =>
    obtain ⟨c, hc, hx⟩ := exists_nodeAt?_cons h
    obtain ⟨a, ha, hancestors⟩ := ih hx
    refine ⟨a, by rw [nodeAt?_cons hc, ha], ?_⟩
    rw [List.cons_append, ancestorsAt_cons hc, hancestors, ancestorsAt_cons hc, List.cons_append]

def Entry.StandsAt (n : Node) (ancestors : List Node) (p : Position) (e : Entry) : Prop :=
  n.nodeAt? p = some e.node ∧ e.ancestors = n.ancestorsAt p ++ ancestors

theorem Entry.StandsAt.up {i : Nat} {e : Entry} (hc : n.children[i]? = some c)
    (h : e.StandsAt c (n :: ancestors) p) : e.StandsAt n ancestors (i :: p) := by
  refine ⟨?_, ?_⟩
  · rw [nodeAt?_cons hc, h.1]
  · rw [h.2, ancestorsAt_cons hc, List.append_assoc, List.singleton_append]

/-- The entries in a list are those of the positions in another one, which are all positions of a
subtree with a property. -/
structure Lists (n : Node) (ancestors : List Node) (Holds : Position → Prop) (ps : List Position)
    (es : List Entry) : Prop where
  inPreorder : InPreorder ps
  mem_iff : ∀ p, p ∈ ps ↔ Holds p ∧ (n.nodeAt? p).isSome = true
  standsAt : List.Forall₂ (Entry.StandsAt n ancestors) ps es

/-- The entries below the children from the `k`-th on. -/
theorem exists_lists_from {k : Nat} {cs : List Node} (hcs : n.children.drop k = cs)
    (h : ∀ c ∈ n.children, ∃ ps,
      c.Lists (n :: ancestors) (fun _ => True) ps (c.entriesUnder (n :: ancestors))) :
    ∃ ps, n.Lists ancestors (fun p => ∃ i ∈ p.head?, k ≤ i) ps
      (cs.flatMap (entriesUnder (n :: ancestors))) := by
  induction cs generalizing k with
  | nil =>
    refine ⟨[], .nil, fun p => ⟨nofun, ?_⟩, .nil⟩
    rintro ⟨⟨i, hi, hk⟩, hp⟩
    cases p with
    | nil => cases hi
    | cons j p =>
      obtain rfl : j = i := Option.some.inj hi
      have hnone : n.children[j]? = none :=
        List.getElem?_eq_none (Nat.le_trans (List.drop_eq_nil_iff.mp hcs) hk)
      simp [nodeAt?, hnone] at hp
  | cons c cs ih =>
    have hc : n.children[k]? = some c := by
      rw [← List.head?_drop, hcs, List.head?_cons]
    obtain ⟨qs, hqs⟩ := h c (List.mem_of_getElem? hc)
    obtain ⟨ps, hps⟩ := ih (k := k + 1) (by rw [← List.tail_drop, hcs, List.tail_cons])
    refine ⟨qs.map (k :: ·) ++ ps, ?_, fun p => ?_, ?_⟩
    · refine List.pairwise_append.mpr ⟨List.pairwise_map.mpr (hqs.inPreorder.imp .cons),
        hps.inPreorder, ?_⟩
      intro p hp p' hp'
      obtain ⟨q, -, rfl⟩ := List.mem_map.mp hp
      obtain ⟨⟨i, hi, hk⟩, -⟩ := (hps.mem_iff p').mp hp'
      obtain ⟨q', rfl⟩ := List.head?_eq_some_iff.mp hi
      exact .rel hk
    · rw [List.mem_append, List.mem_map, hps.mem_iff]
      constructor
      · rintro (⟨q, hq, rfl⟩ | ⟨⟨i, hi, hk⟩, hp⟩)
        · have hq := ((hqs.mem_iff q).mp hq).2
          exact ⟨⟨k, rfl, Nat.le_refl k⟩, by rwa [nodeAt?_cons hc]⟩
        · exact ⟨⟨i, hi, Nat.le_of_succ_le hk⟩, hp⟩
      · rintro ⟨⟨i, hi, hk⟩, hp⟩
        obtain ⟨q, rfl⟩ := List.head?_eq_some_iff.mp hi
        obtain rfl | hk := Nat.eq_or_lt_of_le hk
        · rw [nodeAt?_cons hc] at hp
          exact .inl ⟨q, (hqs.mem_iff q).mpr ⟨trivial, hp⟩, rfl⟩
        · exact .inr ⟨⟨i, hi, hk⟩, hp⟩
    · rw [List.flatMap_cons]
      refine List.rel_append ?_ hps.standsAt
      exact List.forall₂_map_left_iff.mpr (hqs.standsAt.imp fun q e he => he.up hc)

theorem exists_lists (n : Node) (ancestors : List Node) :
    ∃ ps, n.Lists ancestors (fun _ => True) ps (n.entriesUnder ancestors) := by
  induction n using inductionOnChildren generalizing ancestors with
  | h n ih =>
    obtain ⟨ps, hps⟩ := exists_lists_from (k := 0) rfl fun c hc => ih c hc (n :: ancestors)
    refine ⟨[] :: ps, ?_, fun p => ?_, ?_⟩
    · refine List.pairwise_cons.mpr ⟨fun p hp => ?_, hps.inPreorder⟩
      obtain ⟨⟨i, hi, -⟩, -⟩ := (hps.mem_iff p).mp hp
      obtain ⟨q, rfl⟩ := List.head?_eq_some_iff.mp hi
      exact .nil
    · rw [List.mem_cons, hps.mem_iff]
      cases p with
      | nil => simp [nodeAt?]
      | cons i p => simp
    · rw [entriesUnder_eq]
      exact .cons ⟨rfl, rfl⟩ hps.standsAt

/-- The entries properly below a node. -/
theorem exists_lists_tail (n : Node) :
    ∃ ps, n.Lists [] (· ≠ []) ps n.entries.tail := by
  obtain ⟨ps, hps⟩ := exists_lists_from (k := 0) rfl fun c _ => c.exists_lists [n]
  refine ⟨ps, hps.inPreorder, fun p => ?_, ?_⟩
  · rw [hps.mem_iff]
    cases p <;> simp
  · rw [entries, entriesUnder_eq]
    exact hps.standsAt

theorem Lists.filter {Holds F : Position → Prop} {ps : List Position} {es : List Entry}
    {f : Entry → Bool} (h : n.Lists ancestors Holds ps es)
    (hf : ∀ p e, Entry.StandsAt n ancestors p e → (F p ↔ f e = true)) :
    ∃ qs, n.Lists ancestors (fun p => Holds p ∧ F p) qs (es.filter f) := by
  classical
  refine ⟨ps.filter (F ·), h.inPreorder.filter _, fun p => ?_, ?_⟩
  · rw [List.mem_filter, h.mem_iff, decide_eq_true_eq, and_right_comm]
  · exact List.rel_filter (fun p e he => decide_eq_true_iff.trans (hf p e he)) h.standsAt

end Node

def Compound.MatchesAt (n : Node) (c : Compound) (p : Position) : Prop :=
  ∃ a, n.nodeAt? p = some a ∧ c.matches a = true

/-- The node at a position matches the first compound of a selector, and nodes farther and farther
above it match the others. -/
def Selector.Selects (s : Selector) (n : Node) (p : Position) : Prop :=
  ∃ above : List Position, (p :: above).IsChain IsBelow ∧
    List.Forall₂ (Compound.MatchesAt n) s (p :: above)

namespace Selector

variable {c : Compound} {outer : List Compound} {n a : Node} {ancestors : List Node} {p : Position}

theorem climb_cons_of_matches (h : c.matches a = true) :
    climb (c :: outer) (a :: ancestors) = climb outer ancestors := by
  rw [climb, List.dropWhile_cons_of_neg (by simp [h])]

theorem climb_cons_of_not_matches (h : c.matches a = false) :
    climb (c :: outer) (a :: ancestors) = climb (c :: outer) ancestors := by
  rw [climb, climb, List.dropWhile_cons_of_pos (by simp [h])]

theorem sublistForall₂_of_cons {α β : Type} {R : α → β → Prop} {x : α} {xs : List α} {ys : List β}
    (h : List.SublistForall₂ R (x :: xs) ys) : List.SublistForall₂ R xs ys := by
  generalize hl : x :: xs = l at h
  induction h with
  | nil => cases hl
  | cons _ h _ =>
    cases hl
    exact .cons_right h
  | cons_right _ ih => exact .cons_right (ih hl)

/-- The nearest ancestor that matches is as good as any other: a choice for the compounds farther
out that goes with another one goes with it, too. -/
theorem climb_iff (outer : List Compound) (ancestors : List Node) :
    climb outer ancestors = true ↔
      List.SublistForall₂ (fun (c : Compound) a => c.matches a = true) outer ancestors := by
  induction ancestors generalizing outer with
  | nil =>
    cases outer with
    | nil => exact ⟨fun _ => .nil, fun _ => by rw [climb]⟩
    | cons c outer => exact ⟨fun h => by simp [climb] at h, nofun⟩
  | cons a ancestors ih =>
    cases outer with
    | nil => exact ⟨fun _ => .nil, fun _ => by rw [climb]⟩
    | cons c outer =>
      cases hc : c.matches a with
      | true =>
        rw [climb_cons_of_matches hc, ih]
        refine ⟨.cons hc, fun h => ?_⟩
        cases h with
        | cons _ h => exact h
        | cons_right h => exact sublistForall₂_of_cons h
      | false =>
        rw [climb_cons_of_not_matches hc, ih]
        refine ⟨.cons_right, fun h => ?_⟩
        cases h with
        | cons h _ => exact absurd (hc ▸ h) Bool.false_ne_true
        | cons_right h => exact h

/-- To choose among the ancestors of a node is to choose among the positions above it. -/
theorem sublistForall₂_ancestorsAt_iff (hp : (n.nodeAt? p).isSome = true) :
    List.SublistForall₂ (fun (c : Compound) a => c.matches a = true) outer (n.ancestorsAt p) ↔
      ∃ above : List Position, (p :: above).IsChain IsBelow ∧
        List.Forall₂ (Compound.MatchesAt n) outer above := by
  induction p using List.reverseRecOn generalizing outer with
  | nil =>
    constructor
    · rintro ⟨⟩
      exact ⟨[], .singleton _, .nil⟩
    · rintro ⟨above, hchain, hmatches⟩
      cases hmatches with
      | nil => exact .nil
      | cons => exact absurd (List.isChain_cons_cons.mp hchain).1 (not_isBelow_nil _)
  | append_singleton p i ih =>
    obtain ⟨x, hx⟩ := Option.isSome_iff_exists.mp hp
    obtain ⟨a, ha, hancestors⟩ := Node.exists_nodeAt?_of_concat hx
    have ih {outer : List Compound} := @ih outer (by rw [ha]; rfl)
    rw [hancestors]
    constructor
    · intro h
      cases h with
      | nil => exact ⟨[], .singleton _, .nil⟩
      | cons hmatches h =>
        obtain ⟨above, hchain, habove⟩ := ih.mp h
        exact ⟨p :: above, .cons_cons (isBelow_concat p i) hchain, .cons ⟨a, ha, hmatches⟩ habove⟩
      | cons_right h =>
        obtain ⟨above, hchain, habove⟩ := ih.mp h
        refine ⟨above, ?_, habove⟩
        cases above with
        | nil => exact .singleton _
        | cons q above =>
          obtain ⟨hq, hchain⟩ := List.isChain_cons_cons.mp hchain
          exact .cons_cons (isBelow_concat_iff.mpr (.inr hq)) hchain
    · rintro ⟨above, hchain, habove⟩
      cases habove with
      | nil => exact .nil
      | cons hmatches habove =>
        obtain ⟨hq, hrest⟩ := List.isChain_cons_cons.mp hchain
        obtain rfl | hq := isBelow_concat_iff.mp hq
        · obtain ⟨b, hb, hmatches⟩ := hmatches
          obtain rfl : a = b := Option.some.inj (ha ▸ hb)
          exact .cons hmatches (ih.mpr ⟨_, hrest, habove⟩)
        · exact .cons_right (ih.mpr ⟨_, .cons_cons hq hrest, .cons hmatches habove⟩)

theorem selects_iff {s : Selector} {e : Node.Entry} (he : Node.Entry.StandsAt n [] p e) :
    s.Selects n p ↔ s.matches e.node e.ancestors = true := by
  obtain ⟨hnode, hancestors⟩ := he
  rw [List.append_nil] at hancestors
  cases s with
  | nil =>
    refine ⟨?_, fun h => by simp [Selector.matches, matchesChain] at h⟩
    rintro ⟨above, -, hmatches⟩
    cases hmatches
  | cons c outer =>
    have hp : (n.nodeAt? p).isSome = true := by rw [hnode]; rfl
    rw [Selector.matches, matchesChain, Bool.and_eq_true, climb_iff, hancestors,
      sublistForall₂_ancestorsAt_iff hp]
    constructor
    · rintro ⟨above, hchain, hmatches⟩
      obtain ⟨⟨a, ha, hc⟩, habove⟩ := List.forall₂_cons.mp hmatches
      obtain rfl : e.node = a := Option.some.inj (hnode ▸ ha)
      exact ⟨hc, above, hchain, habove⟩
    · rintro ⟨hc, above, hchain, habove⟩
      exact ⟨above, hchain, .cons ⟨e.node, hnode, hc⟩ habove⟩

theorem Selects.isSome {s : Selector} (h : s.Selects n p) : (n.nodeAt? p).isSome = true := by
  obtain ⟨above, -, hmatches⟩ := h
  cases hmatches with
  | cons hmatches _ =>
    obtain ⟨a, ha, -⟩ := hmatches
    rw [ha]
    rfl

/-- A selector matches something properly below a node exactly if it selects a position there. -/
theorem any_entries_tail_iff {s : Selector} :
    (n.entries.tail.any fun e => matchesChain s e.node e.ancestors) = true ↔
      ∃ p ≠ [], s.Selects n p := by
  obtain ⟨ps, hps⟩ := n.exists_lists_tail
  obtain ⟨qs, hqs⟩ := hps.filter fun p e he => selects_iff (s := s) he
  have hlength := hqs.standsAt.length_eq
  rw [List.any_eq_true]
  constructor
  · rintro ⟨e, he, hmatches⟩
    have he : e ∈ n.entries.tail.filter fun e => s.matches e.node e.ancestors :=
      List.mem_filter.mpr ⟨he, hmatches⟩
    have hpos := List.length_pos_of_mem he
    obtain ⟨p, hp⟩ := List.exists_mem_of_length_pos (hlength ▸ hpos)
    obtain ⟨⟨hne, hselects⟩, -⟩ := (hqs.mem_iff p).mp hp
    exact ⟨p, hne, hselects⟩
  · rintro ⟨p, hne, hselects⟩
    have hpos := List.length_pos_of_mem ((hqs.mem_iff p).mpr ⟨⟨hne, hselects⟩, hselects.isSome⟩)
    obtain ⟨e, he⟩ := List.exists_mem_of_length_pos (hlength ▸ hpos)
    exact ⟨e, List.mem_filter.mp he⟩

theorem allBelow_iff (has : List Selector) :
    allBelow has n = true ↔ ∀ s ∈ has, ∃ p ≠ [], s.Selects n p := by
  induction has with
  | nil => simp [allBelow]
  | cons s has ih =>
    rw [allBelow, Bool.and_eq_true, any_entries_tail_iff, ih, List.forall_mem_cons]

end Selector

/-- What a compound asks of a node. -/
theorem Compound.matches_mk_iff {kind : Option Kind} {attributes : List Attribute}
    {has : List Selector} {n : Node} : (Compound.mk kind attributes has).matches n = true ↔
      (∀ k ∈ kind, k = n.kind) ∧ (∀ a ∈ attributes, a.holds n = true) ∧
        ∀ s ∈ has, ∃ p ≠ [], s.Selects n p := by
  rw [Compound.matches, Bool.and_eq_true, Bool.and_eq_true, Selector.allBelow_iff,
    List.all_eq_true, and_assoc]
  cases kind <;> simp

/-- A query finds, in pre-order and each of them once, the nodes that match the selector together
with some of their ancestors. A selector inside a compound does the same with what is below a node,
and that node is the outermost ancestor. -/
theorem query_selects {text : String} {s : Selector} (h : Selector.parse text = .ok s)
    (tree : Node) :
    (∃ ps found, query tree text = .ok found ∧ InPreorder ps ∧ (∀ p, p ∈ ps ↔ s.Selects tree p) ∧
      List.Forall₂ (fun p x => tree.nodeAt? p = some x) ps found) ∧
    ∀ (kind : Option Kind) (attributes : List Attribute) (has : List Selector) (n : Node),
      (Compound.mk kind attributes has).matches n = true ↔
        (∀ k ∈ kind, k = n.kind) ∧ (∀ a ∈ attributes, a.holds n = true) ∧
          ∀ t ∈ has, ∃ p ≠ [], t.Selects n p := by
  refine ⟨?_, fun _ _ _ _ => Compound.matches_mk_iff⟩
  obtain ⟨ps, hps⟩ := tree.exists_lists []
  obtain ⟨qs, hqs⟩ := hps.filter fun p e he => Selector.selects_iff (s := s) he
  refine ⟨qs, s.select tree, by rw [query, h]; rfl, hqs.inPreorder, fun p => ?_, ?_⟩
  · rw [hqs.mem_iff]
    exact ⟨fun hp => hp.1.2, fun hp => ⟨⟨trivial, hp⟩, hp.isSome⟩⟩
  · exact List.forall₂_map_right_iff.mpr (hqs.standsAt.imp fun p e he => he.1)

/-- Two names below a call, which is itself below the file, and one that is not below a call. -/
theorem query_selects_call :
    ∃ (tree : Node) (s : Selector) (ps : List Position) (found : List Node),
      tree = .plain .sourceFile [.list [
        .plain .expressionStatement [.node (.call (.identifier "f") [.identifier "g"])],
        .plain .expressionStatement [.node (.identifier "h")]]] ∧
      Selector.parse "SourceFile CallExpression:has(Identifier) Identifier" = .ok s ∧
      query tree "SourceFile CallExpression:has(Identifier) Identifier" = .ok found ∧
      found.map Node.identifier? = [some "f", some "g"] ∧ InPreorder ps ∧
      (∀ p, p ∈ ps ↔ s.Selects tree p) ∧
      List.Forall₂ (fun p x => tree.nodeAt? p = some x) ps found := by
  let tree : Node := .plain .sourceFile [.list [
    .plain .expressionStatement [.node (.call (.identifier "f") [.identifier "g"])],
    .plain .expressionStatement [.node (.identifier "h")]]]
  have hnames : ((query tree "SourceFile CallExpression:has(Identifier) Identifier").toOption.any
      fun found => found.map Node.identifier? = [some "f", some "g"]) = true := by decide +kernel
  cases hs : Selector.parse "SourceFile CallExpression:has(Identifier) Identifier" with
  | error e => simp [query, hs, Except.toOption, Except.map] at hnames
  | ok s =>
    obtain ⟨⟨ps, found, hfound, hps⟩, -⟩ := query_selects hs tree
    simp only [hfound, Except.toOption, Option.any_some, decide_eq_true_eq] at hnames
    exact ⟨tree, s, ps, found, rfl, rfl, hfound, hnames, hps⟩

end Quasiquote
