import Quasiquote.Proofs.Progress.Source

namespace Quasiquote

/-- Tokens one after the other from byte `lo` to byte `hi`, each from one place to another. -/
inductive Token.Tiles (P : Nat → Prop) : Nat → List Token → Nat → Prop
  | nil {lo hi : Nat} (h : lo ≤ hi) : Tiles P lo [] hi
  | cons {lo hi : Nat} {t : Token} {ts : List Token} (hlo : lo ≤ t.start) (hle : t.start ≤ t.stop)
    (hstart : P t.start) (hstop : P t.stop) (h : Tiles P t.stop ts hi) : Tiles P lo (t :: ts) hi

/-- Nodes one after the other from byte `lo` to byte `hi`, each from one place to another and around
its children. -/
inductive Node.Row (P : Nat → Prop) : Nat → List Node → Nat → Prop
  | nil {lo hi : Nat} (h : lo ≤ hi) : Row P lo [] hi
  | cons {lo hi : Nat} {n : Node} {ns : List Node} {s : Span} (hs : n.span = some s)
    (hlo : lo ≤ s.start) (hstart : P s.start) (hstop : P s.stop)
    (hc : Row P s.start n.children s.stop) (h : Row P s.stop ns hi) : Row P lo (n :: ns) hi

variable {P : Nat → Prop} {lo mid hi : Nat}

namespace Token.Tiles

variable {t : Token} {ts us : List Token}

theorem le (h : Tiles P lo ts hi) : lo ≤ hi := by
  induction h with
  | nil h => exact h
  | cons hlo hle _ _ _ ih => omega

theorem of_append (h : Tiles P lo (ts ++ us) hi) :
    ∃ mid, Tiles P lo ts mid ∧ Tiles P mid us hi := by
  induction ts generalizing lo with
  | nil => exact ⟨lo, .nil (Nat.le_refl lo), h⟩
  | cons t ts ih =>
    cases h with
    | cons hlo hle hstart hstop h =>
      obtain ⟨mid, hts, hus⟩ := ih h
      exact ⟨mid, .cons hlo hle hstart hstop hts, hus⟩

/-- Tokens run from the start of the first to the end of the last. -/
theorem tight (h : Tiles P lo (t :: ts) hi) :
    ∃ stop, (t :: ts).getLast?.map Token.stop = some stop ∧ P stop ∧ stop ≤ hi ∧
      Tiles P t.start (t :: ts) stop := by
  induction ts generalizing lo t with
  | nil =>
    cases h with
    | cons hlo hle hstart hstop h =>
      exact ⟨t.stop, rfl, hstop, h.le,
        .cons (Nat.le_refl _) hle hstart hstop (.nil (Nat.le_refl _))⟩
  | cons u us ih =>
    cases h with
    | cons hlo hle hstart hstop h =>
      obtain ⟨stop, hlast, hplace, hhi, hrest⟩ := ih h
      refine ⟨stop, by rwa [List.getLast?_cons_cons], hplace, hhi, ?_⟩
      cases hrest with
      | cons _ hle' hstart' hstop' hrest =>
        cases h with
        | cons hlo' _ _ _ _ =>
          exact .cons (Nat.le_refl _) hle hstart hstop (.cons hlo' hle' hstart' hstop' hrest)

end Token.Tiles

namespace Node.Row

variable {n : Node} {ns ms : List Node}

theorem le (h : Row P lo ns hi) : lo ≤ hi := by
  induction h with
  | nil h => exact h
  | cons _ hlo _ _ _ _ ihc ih => omega

theorem append (h : Row P lo ns mid) (h' : Row P mid ms hi) : Row P lo (ns ++ ms) hi := by
  induction h with
  | nil hle =>
    cases h' with
    | nil h' => exact .nil (Nat.le_trans hle h')
    | cons hs hlo hstart hstop hc h' => exact .cons hs (Nat.le_trans hle hlo) hstart hstop hc h'
  | cons hs hlo hstart hstop hc _ _ ih => exact .cons hs hlo hstart hstop hc (ih h')

theorem of_mem (h : Row P lo ns hi) (hn : n ∈ ns) :
    ∃ s, n.span = some s ∧ lo ≤ s.start ∧ s.stop ≤ hi ∧ P s.start ∧ P s.stop ∧
      Row P s.start n.children s.stop := by
  induction h with
  | nil => cases hn
  | cons hs hlo hstart hstop hc h _ ih =>
    rcases List.mem_cons.mp hn with rfl | hn
    · exact ⟨_, hs, hlo, h.le, hstart, hstop, hc⟩
    · obtain ⟨s', hs', hlo', hrest⟩ := ih hn
      have hle := hc.le
      exact ⟨s', hs', by omega, hrest⟩

end Node.Row

def Token.Fills (P : Nat → Prop) (ts : List Token) (ns : List Node) : Prop :=
  ∀ lo hi, Token.Tiles P lo ts hi → Node.Row P lo ns hi

namespace Token.Fills

theorem composes : Composes (Fills P) where
  empty _ _ _ h := .nil h.le
  append h h' lo hi htiles := by
    obtain ⟨mid, hts, hus⟩ := htiles.of_append
    exact (h lo mid hts).append (h' mid hi hus)

/-- A node covers its tokens and so what they stand for. -/
theorem cover {kind : Kind} {ts : List Token} {fields : List Field} (hne : ts ≠ [])
    (h : Fills P ts (fields.flatMap Field.nodes)) : Fills P ts [Node.over kind ts fields] := by
  intro lo hi htiles
  obtain ⟨t, us, rfl⟩ := List.exists_cons_of_ne_nil hne
  obtain ⟨stop, hlast, hplace, hhi, htight⟩ := htiles.tight
  have hle := htight.le
  have hextent : Token.extent (t :: us) = ⟨t.start, stop⟩ := by
    simp [Token.extent, hlast, hle]
  cases htiles with
  | cons hlo _ hstart _ _ =>
    refine .cons (s := ⟨t.start, stop⟩) (congrArg some hextent) hlo hstart hplace ?_ (.nil hhi)
    exact h t.start stop htight

end Token.Fills

/-- What a phrase stands for is laid out like its tokens. -/
theorem Derives.fills {p : Phrase} {ts : List Token} {ns : List Node} (h : Derives p ts ns) :
    Token.Fills P ts ns :=
  h.compose Token.Fills.composes fun hm => .cover hm.ne_nil

namespace Token

variable {source : String} {tokens : List Token}

theorem Stands.places {t : Token} (h : Stands source.toList t) :
    t.start ≤ t.stop ∧ Text.IsPlace 0 source.toList t.start ∧
      Text.IsPlace 0 source.toList t.stop := by
  have hstart := h.isPlace
  obtain ⟨before, rest, hs, hread⟩ := h
  obtain ⟨hbefore, after, rfl, hstop⟩ := hread.place
  refine ⟨?_, hstart, before ++ t.text.toList, ?_, ?_⟩
  · rw [hbefore, hstop, Text.byteLength_append]
    omega
  · rw [hs, ← List.append_assoc]
    exact List.prefix_append _ _
  · rw [hstop, Nat.zero_add]

theorem Follows.stop_le {source : List Char} {t u : Token} (h : Follows source t u) :
    t.stop ≤ u.start := by
  obtain ⟨before, gap, rest, -, ht, -, hread⟩ := h
  rw [ht, hread.place.1, Text.byteLength_append]
  omega

theorem tiles_of_isChain {t : Token} {ts : List Token}
    (h : (t :: ts).IsChain (Follows source.toList))
    (hstands : ∀ u ∈ t :: ts, Stands source.toList u) :
    ∃ hi, Tiles (Text.IsPlace 0 source.toList) t.start (t :: ts) hi := by
  induction ts generalizing t with
  | nil =>
    obtain ⟨hle, hstart, hstop⟩ := (hstands t (by simp)).places
    exact ⟨t.stop, .cons (Nat.le_refl _) hle hstart hstop (.nil (Nat.le_refl _))⟩
  | cons u us ih =>
    obtain ⟨hle, hstart, hstop⟩ := (hstands t (by simp)).places
    obtain ⟨hfollows, hchain⟩ := List.isChain_cons_cons.mp h
    obtain ⟨hi, htiles⟩ := ih hchain fun v hv => hstands v (List.mem_cons_of_mem t hv)
    have hstop_le := hfollows.stop_le
    cases htiles with
    | cons _ hle' hstart' hstop' hrest =>
      exact ⟨hi, .cons (Nat.le_refl _) hle hstart hstop
        (.cons hstop_le hle' hstart' hstop' hrest)⟩

end Token

/-- The tree of a source is laid out in it. -/
theorem parse_row {source : String} {tree : Node} (h : parse source = .ok tree) :
    ∃ lo hi, Node.Row (Text.IsPlace 0 source.toList) lo [tree] hi := by
  obtain ⟨tokens, c, hscan, hdone⟩ := parse_eq_ok h
  obtain ⟨ts, statements, hts, -, hd, rfl⟩ := moduleOfTokens_passes hdone
  obtain ⟨hchain, hstands⟩ := Token.scan_chain hscan
  have hne : tokens ≠ [] := by
    rintro rfl
    exact absurd (Token.getLast?_scanFrom hscan) (by simp)
  obtain ⟨t, us, rfl⟩ := List.exists_cons_of_ne_nil hne
  obtain ⟨hi, htiles⟩ := Token.tiles_of_isChain hchain hstands
  have hplaces := (hstands t (by simp)).places
  -- where the statements stop, and that they are laid out up to there
  obtain ⟨stop, hstop, hplace, hstatements⟩ : ∃ stop, max c.last t.start = stop ∧
      Text.IsPlace 0 source.toList stop ∧
      Token.Tiles (Text.IsPlace 0 source.toList) t.start ts stop := by
    cases ts with
    | nil =>
      refine ⟨t.start, ?_, hplaces.2.1, .nil (Nat.le_refl _)⟩
      rw [hts.last]
      exact Nat.max_eq_right (Nat.zero_le _)
    | cons u vs =>
      have hrest : t :: us = (u :: vs) ++ c.rest := hts.rest
      obtain rfl : t = u := (List.cons.inj hrest).1
      rw [hrest] at htiles
      obtain ⟨mid, htiles, -⟩ := htiles.of_append
      obtain ⟨stop, hlast, hplace, -, htight⟩ := htiles.tight
      refine ⟨stop, ?_, hplace, htight⟩
      rw [hts.last, hlast]
      exact Nat.max_eq_left htight.le
  refine ⟨t.start, stop, .cons (s := ⟨t.start, stop⟩) ?_ (Nat.le_refl _) hplaces.2.1 hplace ?_
    (.nil (Nat.le_refl _))⟩
  · rw [← hstop]
    rfl
  · have hrow := hd.fills _ _ hstatements
    simpa [Node.children, Node.fields] using hrow

namespace Node

def EndsBefore (a b : Node) : Prop :=
  ∃ s s', a.span = some s ∧ b.span = some s' ∧ s.stop ≤ s'.start

def StartsBefore (a b : Node) : Prop :=
  ∃ s s', a.span = some s ∧ b.span = some s' ∧ s.start ≤ s'.start

variable {n : Node} {ns : List Node}

theorem Row.pairwise (h : Row P lo ns hi) : ns.Pairwise EndsBefore := by
  induction h with
  | nil => exact .nil
  | cons hs _ _ _ _ h _ ih =>
    refine .cons (fun b hb => ?_) ih
    obtain ⟨s', hs', hlo, -⟩ := h.of_mem hb
    exact ⟨_, s', hs, hs', hlo⟩

/-- All nodes below a row are between its ends, and they begin in the order in which they are
met. -/
theorem Row.preorder (h : Row P lo ns hi) :
    (∀ m ∈ ns.flatMap preorder, ∃ s, m.span = some s ∧ lo ≤ s.start ∧ s.stop ≤ hi ∧ P s.start ∧
      P s.stop ∧ Row P s.start m.children s.stop) ∧
    (ns.flatMap preorder).Pairwise StartsBefore := by
  induction h with
  | nil => simp
  | @cons lo hi n ns s hs hlo hstart hstop hc h ihc ih =>
    have hle := hc.le
    have hend := h.le
    rw [List.flatMap_cons, preorder_eq]
    refine ⟨fun m hm => ?_, List.pairwise_append.mpr ⟨.cons (fun m hm => ?_) ihc.2, ih.2, ?_⟩⟩
    · simp only [List.cons_append, List.mem_cons, List.mem_append] at hm
      obtain rfl | hm | hm := hm
      · exact ⟨s, hs, hlo, hend, hstart, hstop, hc⟩
      · obtain ⟨s', hs', hlo', hhi', hrest⟩ := ihc.1 m hm
        exact ⟨s', hs', by omega, by omega, hrest⟩
      · obtain ⟨s', hs', hlo', hrest⟩ := ih.1 m hm
        exact ⟨s', hs', by omega, hrest⟩
    · obtain ⟨s', hs', hlo', -⟩ := ihc.1 m hm
      exact ⟨s, s', hs, hs', hlo'⟩
    · -- what stands below `n` begins before its end, and the rest after it
      intro a ha b hb
      obtain ⟨sb, hsb, hlob, -⟩ := ih.1 b hb
      rcases List.mem_cons.mp ha with rfl | ha
      · exact ⟨s, sb, hs, hsb, by omega⟩
      · obtain ⟨sa, hsa, -, hhia, -, -, hrow⟩ := ihc.1 a ha
        have hlea := hrow.le
        exact ⟨sa, sb, hsa, hsb, by omega⟩

end Node

/-- Spans nest. Each node of the tree of a source covers a range of bytes of it that begins and ends
between two characters; its children stand inside it one after the other; and the nodes begin in the
order of the tree. -/
theorem parse_spans_nest {source : String} {tree : Node} (h : parse source = .ok tree) :
    (∀ n ∈ tree.preorder, ∃ s, n.span = some s ∧ s.start ≤ s.stop ∧
      s.stop ≤ source.utf8ByteSize ∧ String.Pos.Raw.IsValid source ⟨s.start⟩ ∧
      String.Pos.Raw.IsValid source ⟨s.stop⟩ ∧
      (∀ c ∈ n.children, ∃ s', c.span = some s' ∧ s.start ≤ s'.start ∧ s'.stop ≤ s.stop) ∧
      n.children.Pairwise Node.EndsBefore) ∧
    tree.preorder.Pairwise Node.StartsBefore := by
  obtain ⟨lo, hi, hrow⟩ := parse_row h
  obtain ⟨hnodes, hstarts⟩ := hrow.preorder
  rw [List.flatMap_singleton] at hnodes hstarts
  refine ⟨fun n hn => ?_, hstarts⟩
  obtain ⟨s, hs, -, -, hstart, hstop, hchildren⟩ := hnodes n hn
  refine ⟨s, hs, hchildren.le, hstop.isValid.le_rawEndPos, hstart.isValid, hstop.isValid, ?_,
    hchildren.pairwise⟩
  intro c hc
  obtain ⟨s', hs', hlo, hhi, -⟩ := hchildren.of_mem hc
  exact ⟨s', hs', hlo, hhi⟩

/-- A statement without a semicolon, a name of two bytes, a type in parentheses that belong to no
node, and a template. -/
theorem parse_spans_nest_layout :
    ∃ tree, parse "new é.b\nlet x: (A)[] = f`$\x7bc\x7d`" = .ok tree ∧
      tree.preorder.filterMap Node.span =
        [⟨0, 31⟩, ⟨0, 8⟩, ⟨0, 8⟩, ⟨0, 8⟩, ⟨4, 6⟩, ⟨7, 8⟩, ⟨9, 31⟩, ⟨9, 31⟩, ⟨13, 31⟩, ⟨13, 14⟩,
         ⟨16, 21⟩, ⟨17, 18⟩, ⟨17, 18⟩, ⟨24, 31⟩, ⟨24, 25⟩, ⟨25, 31⟩, ⟨28, 31⟩, ⟨28, 29⟩] ∧
      (∀ n ∈ tree.preorder, n.children.Pairwise Node.EndsBefore) ∧
      tree.preorder.Pairwise Node.StartsBefore := by
  have hspans : ((parse "new é.b\nlet x: (A)[] = f`$\x7bc\x7d`").toOption.any fun tree =>
      tree.preorder.filterMap Node.span =
        [⟨0, 31⟩, ⟨0, 8⟩, ⟨0, 8⟩, ⟨0, 8⟩, ⟨4, 6⟩, ⟨7, 8⟩, ⟨9, 31⟩, ⟨9, 31⟩, ⟨13, 31⟩, ⟨13, 14⟩,
         ⟨16, 21⟩, ⟨17, 18⟩, ⟨17, 18⟩, ⟨24, 31⟩, ⟨24, 25⟩, ⟨25, 31⟩, ⟨28, 31⟩, ⟨28, 29⟩]) =
      true := by
    decide +kernel
  cases h : parse "new é.b\nlet x: (A)[] = f`$\x7bc\x7d`" with
  | error e => simp [h, Except.toOption] at hspans
  | ok tree =>
    obtain ⟨hnodes, hstarts⟩ := parse_spans_nest h
    refine ⟨tree, rfl, by simpa [h, Except.toOption] using hspans, fun n hn => ?_, hstarts⟩
    obtain ⟨s, -, -, -, -, -, -, hchildren⟩ := hnodes n hn
    exact hchildren

end Quasiquote
