import Quasiquote.Proofs.Conformance
import Quasiquote.Proofs.Scanning
import Quasiquote.Selector.Parse

namespace Quasiquote

/-- What can stand for a field: letters of the basic alphabet, digits, underscores and dollars, at
least one of them. -/
def Selector.IsFieldName (w : String) : Prop :=
  w ≠ "" ∧ ∀ c ∈ w.toList, isWordChar c = true

instance (w : String) : Decidable (Selector.IsFieldName w) :=
  decidable_of_iff (w ≠ "" ∧ w.toList.all Selector.isWordChar = true) (by
    rw [List.all_eq_true, Selector.IsFieldName])

def AttributeValue.written : AttributeValue → List Char
  | .text value => (Selector.quoteValue value).toList
  | .flag value => (if value then "true" else "false").toList

namespace Attribute

def writtenPath : List String → List Char
  | [] => []
  | first :: rest => first.toList ++ rest.flatMap fun w => '.' :: w.toList

def writtenValue : Option AttributeValue → List Char
  | none => []
  | some value => '=' :: value.written

def written (a : Attribute) : List Char :=
  '[' :: (writtenPath a.path ++ (writtenValue a.value ++ [']']))

@[mk_iff]
structure Writable (a : Attribute) : Prop where
  path : a.path ≠ []
  words : ∀ w ∈ a.path, Selector.IsFieldName w

end Attribute

def Selector.writtenKind : Option Kind → List Char
  | none => ['*']
  | some kind => kind.name.toList

mutual

def Compound.written : Compound → List Char
  | .mk kind attributes has =>
    Selector.writtenKind kind ++ (attributes.flatMap Attribute.written ++ Selector.writtenBelow has)

def Selector.writtenBelow : List (List Compound) → List Char
  | [] => []
  | selector :: rest =>
    [':', 'h', 'a', 's', '('] ++ (Selector.written selector ++ [')']) ++ Selector.writtenBelow rest

def Selector.written : List Compound → List Char
  | [] => []
  | [compound] => compound.written
  | compound :: next :: outer => Selector.written (next :: outer) ++ ' ' :: compound.written

end

def Selector.render (s : Selector) : String :=
  String.ofList (written s)

/-- The paths of a compound can be written, also those of the selectors in it, none of which is
empty. -/
inductive Compound.Writable : Compound → Prop
  | mk {kind : Option Kind} {attributes : List Attribute} {has : List Selector}
    (hattributes : ∀ a ∈ attributes, a.Writable) (hne : ∀ s ∈ has, s ≠ [])
    (hhas : ∀ s ∈ has, ∀ c ∈ s, Compound.Writable c) : Writable (.mk kind attributes has)

def Selector.Writable (s : Selector) : Prop :=
  s ≠ [] ∧ ∀ c ∈ s, c.Writable

theorem Compound.writable_mk_iff {kind : Option Kind} {attributes : List Attribute}
    {has : List Selector} : (Compound.mk kind attributes has).Writable ↔
      (∀ a ∈ attributes, a.Writable) ∧ ∀ s ∈ has, s.Writable := by
  constructor
  · rintro ⟨hattributes, hne, hhas⟩
    exact ⟨hattributes, fun s hs => ⟨hne s hs, hhas s hs⟩⟩
  · rintro ⟨hattributes, hhas⟩
    exact ⟨hattributes, fun s hs => (hhas s hs).1, fun s hs => (hhas s hs).2⟩

namespace Selector

section

variable {α β : Type} {p : TextReader α} {a b : α} {c : Char} {s r left : List Char}

theorem bind_done (f : α → TextReader β) (h : p s = .done a r) : (p >>= f) s = f a r := by
  simp [bind, h]

theorem map_done (f : α → β) (h : p s = .done a r) : (f <$> p) s = .done (f a) r := by
  simp [Functor.map, h]
  rfl

theorem skipBlanks_cons (hc : Text.isBlank c = false) :
    skipBlanks (c :: left) = .done false (c :: left) := by
  simp [skipBlanks, hc]

theorem skipBlanks_of_head? (h : ∀ c ∈ left.head?, Text.isBlank c = false) :
    skipBlanks left = .done false left := by
  cases left with
  | nil => rfl
  | cons c left => exact skipBlanks_cons (h c rfl)

theorem skipBlanks_blank (h : ∀ c ∈ left.head?, Text.isBlank c = false) :
    skipBlanks (' ' :: left) = .done true left := by
  have hblank : Text.isBlank ' ' = true := by decide
  cases left with
  | nil => simp [skipBlanks, hblank]
  | cons c left =>
    have hc := h c rfl
    simp [skipBlanks, hblank, hc]

theorem eat_self : eat c (c :: left) = .done true left :=
  if_pos rfl

theorem eat_other {d : Char} (h : d ≠ c) : eat c (d :: left) = .done false (d :: left) :=
  if_neg h

theorem eat_of_head? (h : left.head? ≠ some c) : eat c left = .done false left := by
  cases left with
  | nil => rfl
  | cons d left => exact eat_other (by simpa using h)

theorem expect_self (what : String) : expect c what (c :: left) = .done () left := by
  simp [expect, bind_done _ eat_self]
  rfl

variable {step : α → TextReader (α × Bool)} {bound : Nat}

theorem loopWithin_more (h : step a s = .done (b, true) r) :
    Reader.loopWithin step (bound + 1) a s = Reader.loopWithin step bound b r := by
  rw [Reader.loopWithin, bind_done _ h]
  rfl

theorem loopWithin_stop (h : step a s = .done (b, false) r) :
    Reader.loopWithin step (bound + 1) a s = .done b r := by
  rw [Reader.loopWithin, bind_done _ h]
  rfl

/-- A loop whose step reads one item reads the items of a list. What is left has to be such that an
item can stand in front of it. -/
theorem loop_items {ι : Type} {write : ι → List Char} {add : α → ι → α}
    (Follows : List Char → Prop) {items : List ι} (hleft : Follows left)
    (hwrite : ∀ i, write i ≠ [])
    (hitem : ∀ i ∈ items, ∀ r, Follows r →
      Follows (write i ++ r) ∧ ∀ a, step a (write i ++ r) = .done (add a i, true) r)
    (hstop : ∀ a, step a left = .done (a, false) left) :
    loop a step (items.flatMap write ++ left) = .done (items.foldl add a) left := by
  suffices hwithin : Follows (items.flatMap write ++ left) ∧
      items.length ≤ (items.flatMap write).length ∧
      ∀ a bound, items.length < bound →
        Reader.loopWithin step bound a (items.flatMap write ++ left) =
          .done (items.foldl add a) left by
    obtain ⟨-, hlength, hwithin⟩ := hwithin
    exact hwithin a _ (by rw [List.length_append]; omega)
  induction items with
  | nil =>
    refine ⟨hleft, Nat.le_refl 0, fun a bound hbound => ?_⟩
    obtain ⟨bound, rfl⟩ := Nat.exists_eq_add_of_lt hbound
    exact loopWithin_stop (hstop a)
  | cons i items ih =>
    obtain ⟨hi, hitems⟩ := List.forall_mem_cons.mp hitem
    obtain ⟨hrest, hlength, hwithin⟩ := ih hitems
    obtain ⟨hfollows, hread⟩ := hi _ hrest
    have hpos := List.length_pos_iff.mpr (hwrite i)
    rw [List.flatMap_cons, List.append_assoc, List.length_append, List.length_cons]
    refine ⟨hfollows, by omega, fun a bound hbound => ?_⟩
    obtain ⟨bound, rfl⟩ := Nat.exists_eq_succ_of_ne_zero (Nat.ne_zero_of_lt hbound)
    rw [loopWithin_more (hread a), List.foldl_cons]
    exact hwithin _ bound (by omega)

end

variable {left : List Char}

def EndsWord (cs : List Char) : Prop :=
  ∀ c ∈ cs.head?, isWordChar c = false

theorem endsWord_cons {c : Char} (h : isWordChar c = false) : EndsWord (c :: left) := by
  simpa [EndsWord] using h

theorem not_isBlank_of_isWordChar {c : Char} (h : isWordChar c = true) :
    Text.isBlank c = false := by
  simp only [isWordChar, Bool.or_eq_true, decide_eq_true_eq] at h
  obtain (halphanum | rfl) | rfl := h
  · exact Token.not_isBlank_of_isAlphanum halphanum
  · decide
  · decide

theorem IsFieldName.head? {w : String} (h : IsFieldName w) (left : List Char) :
    ∃ c, (w.toList ++ left).head? = some c ∧ isWordChar c = true := by
  obtain ⟨hne, hword⟩ := h
  obtain ⟨c, cs, hc⟩ := List.exists_cons_of_ne_nil (mt String.toList_eq_nil_iff.mp hne)
  exact ⟨c, by simp [hc], hword c (by simp [hc])⟩

theorem IsFieldName.skipBlanks {w : String} (h : IsFieldName w) (left : List Char) :
    skipBlanks (w.toList ++ left) = .done false (w.toList ++ left) := by
  obtain ⟨c, hc, hword⟩ := h.head? left
  refine skipBlanks_of_head? fun d hd => ?_
  obtain rfl : c = d := by simpa [hc] using hd
  exact not_isBlank_of_isWordChar hword

theorem IsFieldName.read {w : String} (h : IsFieldName w) (hleft : EndsWord left) :
    word (w.toList ++ left) = .done w left := by
  rw [word, List.takeWhile_append_of_pos h.2, List.dropWhile_append_of_pos h.2]
  cases left with
  | nil => simp
  | cons c left =>
    have hc : isWordChar c = false := hleft c rfl
    simp [hc]

theorem path_written {p : List String} (hne : p ≠ [])
    (hp : ∀ w ∈ p, IsFieldName w) (hleft : EndsWord left)
    (hdot : left.head? ≠ some '.') :
    path (Attribute.writtenPath p ++ left) = .done p left := by
  obtain ⟨first, rest, rfl⟩ := List.exists_cons_of_ne_nil hne
  obtain ⟨hfirst, hrest⟩ := List.forall_mem_cons.mp hp
  -- A word ends before the dot of the next one as well as before what is left.
  have hends : EndsWord (rest.flatMap (fun w => '.' :: w.toList) ++ left) := by
    cases rest with
    | nil => exact hleft
    | cons w rest => exact endsWord_cons (by decide)
  have hwords : rest.foldl (fun words w => words ++ [w]) [first] = first :: rest := by
    rw [List.foldl_append_eq_append (f := fun w => [w]), ← List.flatMap_def]
    simp
  rw [path, Attribute.writtenPath, List.append_assoc, bind_done _ (hfirst.read hends),
    ← hwords]
  refine loop_items EndsWord hleft (fun w => List.cons_ne_nil _ _) ?_ ?_
  · intro w hw r hr
    refine ⟨endsWord_cons (by decide), fun words => ?_⟩
    rw [List.cons_append, bind_done _ eat_self, if_pos rfl, bind_done _ ((hrest w hw).read hr)]
    rfl
  · intro words
    rw [bind_done _ (eat_of_head? hdot)]
    rfl

theorem quotedText?_quoted (text left : List Char) :
    quotedText? '"' (text.flatMap (fun c => if c = '"' || c = '\\' then ['\\', c] else [c]) ++
      '"' :: left) = some (text, left) := by
  simp only [Bool.or_eq_true, decide_eq_true_eq]
  induction text with
  | nil => simp [quotedText?.eq_def]
  | cons c text ih =>
    rw [List.flatMap_cons, List.append_assoc, quotedText?.eq_def]
    by_cases hq : c = '"'
    · simp [hq, ih]
    by_cases hb : c = '\\'
    · simp [hb, ih]
    · simp [hq, hb, ih]

theorem value_quoteValue (text : String) (left : List Char) :
    value ((quoteValue text).toList ++ left) = .done (.text text) left := by
  have hquoted := quotedText?_quoted text.toList left
  simp only [quoteValue, String.toList_ofList, List.cons_append, List.append_assoc,
    List.nil_append, value, hquoted]
  simp

theorem value_written (v : AttributeValue) (hleft : EndsWord left) :
    value (v.written ++ left) = .done v left := by
  cases v with
  | text text => exact value_quoteValue text left
  | flag b =>
    cases b with
    | true =>
      change wordValue ("true".toList ++ left) = _
      rw [wordValue, bind_done _ (IsFieldName.read (by decide) hleft)]
      rfl
    | false =>
      change wordValue ("false".toList ++ left) = _
      rw [wordValue, bind_done _ (IsFieldName.read (by decide) hleft)]
      rfl

theorem skipBlanks_value (v : AttributeValue) :
    skipBlanks (v.written ++ left) = .done false (v.written ++ left) := by
  cases v with
  | text text =>
    rw [AttributeValue.written, quoteValue, String.toList_ofList, List.cons_append,
      List.cons_append]
    exact skipBlanks_cons (by decide)
  | flag b => cases b <;> exact skipBlanks_cons (by decide)

theorem skipBlanks_path {p : List String} (hne : p ≠ []) (hp : ∀ w ∈ p, IsFieldName w) :
    skipBlanks (Attribute.writtenPath p ++ left) =
      .done false (Attribute.writtenPath p ++ left) := by
  obtain ⟨first, rest, rfl⟩ := List.exists_cons_of_ne_nil hne
  rw [Attribute.writtenPath, List.append_assoc]
  exact (hp first List.mem_cons_self).skipBlanks _

theorem condition_written {a : Attribute} (ha : a.Writable) (left : List Char) :
    condition (Attribute.writtenPath a.path ++ (Attribute.writtenValue a.value ++ ']' :: left)) =
      .done a left := by
  obtain ⟨path, v⟩ := a
  have hpath {r : List Char} {c : Char} (hc : isWordChar c = false) (hdot : c ≠ '.') :
      Selector.path (Attribute.writtenPath path ++ c :: r) = .done path (c :: r) :=
    path_written ha.path ha.words (endsWord_cons hc) (by simpa using hdot)
  have hcontains : path.contains "" = false := by
    simpa using fun hmem => (ha.words "" hmem).1 rfl
  rw [condition, bind_done _ (skipBlanks_path ha.path ha.words)]
  cases v with
  | none =>
    rw [Attribute.writtenValue, List.nil_append, bind_done _ (hpath (by decide) (by decide)),
      hcontains, if_neg Bool.false_ne_true]
    dsimp only
    rw [bind_done _ (skipBlanks_cons (by decide)), bind_done _ (eat_other (by decide)),
      if_neg Bool.false_ne_true,
      bind_done _ (show (pure none : TextReader _) _ = .done _ _ from rfl),
      bind_done _ (skipBlanks_cons (by decide)), bind_done _ (expect_self _)]
    rfl
  | some v =>
    have hvalue : value (v.written ++ ']' :: left) = .done v (']' :: left) :=
      value_written v (endsWord_cons (by decide))
    rw [Attribute.writtenValue, List.cons_append, bind_done _ (hpath (by decide) (by decide)),
      hcontains, if_neg Bool.false_ne_true]
    dsimp only
    rw [bind_done _ (skipBlanks_cons (by decide)), bind_done _ eat_self, if_pos rfl,
      bind_done _ (skipBlanks_value v), bind_done _ (map_done _ hvalue),
      bind_done _ (skipBlanks_cons (by decide)), bind_done _ (expect_self _)]
    rfl

theorem isFieldName_name (k : Kind) : IsFieldName k.name := by
  have h : ∀ k ∈ Kind.all, IsFieldName k.name := by decide +kernel
  exact h k k.mem_all

/-- A kind begins with something that is neither a blank nor the end of a selector. -/
theorem head?_writtenKind (k : Option Kind) (left : List Char) :
    ∃ c, (writtenKind k ++ left).head? = some c ∧ Text.isBlank c = false ∧ c ≠ ')' := by
  cases k with
  | none => exact ⟨'*', rfl, by decide⟩
  | some k =>
    obtain ⟨c, hc, hword⟩ := (isFieldName_name k).head? left
    refine ⟨c, hc, not_isBlank_of_isWordChar hword, ?_⟩
    rintro rfl
    exact absurd hword (by decide)

theorem kind_written (blank : Bool) (k : Option Kind) (hleft : EndsWord left) :
    kind blank (writtenKind k ++ left) = .done k left := by
  cases k with
  | none =>
    rw [kind, writtenKind, List.singleton_append, bind_done _ eat_self]
    rfl
  | some k =>
    have hname := isFieldName_name k
    have hstar : (k.name.toList ++ left).head? ≠ some '*' := by
      obtain ⟨c, hc, hword⟩ := hname.head? left
      rw [hc, ne_eq, Option.some.injEq]
      rintro rfl
      exact absurd hword (by decide)
    rw [kind, writtenKind, bind_done _ (eat_of_head? hstar), if_neg Bool.false_ne_true,
      bind_done _ (show rest _ = .done _ _ from rfl), bind_done _ (hname.read hleft)]
    cases k <;> rfl

def Reads (nested : TextReader Selector) (s : Selector) : Prop :=
  ∀ left, nested (written s ++ ')' :: left) = .done s (')' :: left)

theorem hasClause_written {nested : TextReader Selector} {s : Selector} (hs : Reads nested s)
    (left : List Char) :
    hasClause nested ("has".toList ++ '(' :: (written s ++ ')' :: left)) = .done s left := by
  rw [hasClause, bind_done _ (show rest _ = .done _ _ from rfl),
    bind_done _ (IsFieldName.read (by decide) (endsWord_cons (by decide))), if_neg (by decide)]
  dsimp only
  rw [bind_done _ (expect_self _), bind_done _ (hs left), bind_done _ (expect_self _)]
  rfl

/-- What a compound can stand in front of: the end, the next compound or the end of a nested
selector. -/
def EndsCompound (cs : List Char) : Prop :=
  ∀ c ∈ cs.head?, c = ' ' ∨ c = ')'

theorem EndsCompound.head?_ne {c : Char} (h : EndsCompound left) (hc : c ≠ ' ' ∧ c ≠ ')') :
    left.head? ≠ some c := by
  intro hleft
  obtain rfl | rfl := h c hleft
  · exact hc.1 rfl
  · exact hc.2 rfl

theorem EndsCompound.endsWord (h : EndsCompound left) : EndsWord left := by
  intro c hc
  obtain rfl | rfl := h c hc <;> decide

abbrev Clause := Attribute ⊕ Selector

def Clause.written : Clause → List Char
  | .inl a => a.written
  | .inr s => [':', 'h', 'a', 's', '('] ++ (Selector.written s ++ [')'])

def Clause.addTo (clauses : List Attribute × List Selector) :
    Clause → List Attribute × List Selector
  | .inl a => (clauses.1 ++ [a], clauses.2)
  | .inr s => (clauses.1, clauses.2 ++ [s])

def clauses (attributes : List Attribute) (has : List Selector) : List Clause :=
  attributes.map Sum.inl ++ has.map Sum.inr

theorem flatMap_written_clauses (attributes : List Attribute) (has : List Selector) :
    (clauses attributes has).flatMap Clause.written =
      attributes.flatMap Attribute.written ++ writtenBelow has := by
  have hhas : has.flatMap (fun s => Clause.written (.inr s)) = writtenBelow has := by
    induction has with
    | nil => rfl
    | cons s has ih =>
      rw [List.flatMap_cons, ih, writtenBelow]
      rfl
  rw [clauses, List.flatMap_append, List.flatMap_map, List.flatMap_map, hhas]
  rfl

theorem foldl_addTo_clauses (attributes : List Attribute) (has : List Selector) :
    (clauses attributes has).foldl Clause.addTo ([], []) = (attributes, has) := by
  have hattributes (start : List Attribute × List Selector) :
      attributes.foldl (fun read a => Clause.addTo read (.inl a)) start =
        (start.1 ++ attributes, start.2) := by
    induction attributes generalizing start with
    | nil => simp
    | cons a attributes ih => rw [List.foldl_cons, ih]; simp [Clause.addTo]
  have hhas (start : List Attribute × List Selector) :
      has.foldl (fun read s => Clause.addTo read (.inr s)) start = (start.1, start.2 ++ has) := by
    induction has generalizing start with
    | nil => simp
    | cons s has ih => rw [List.foldl_cons, ih]; simp [Clause.addTo]
  rw [clauses, List.foldl_append, List.foldl_map, List.foldl_map, hattributes, hhas]
  rfl

theorem clause_attribute {nested : TextReader Selector} {a : Attribute} (ha : a.Writable)
    (read : List Attribute × List Selector) :
    clause nested read (Clause.written (.inl a) ++ left) =
      .done (Clause.addTo read (.inl a), true) left := by
  have hcondition := condition_written ha left
  simp only [Clause.written, Attribute.written, List.cons_append, List.append_assoc,
    List.nil_append]
  rw [clause, bind_done _ eat_self, if_pos rfl, bind_done _ hcondition]
  rfl

theorem clause_has {nested : TextReader Selector} {s : Selector} (hs : Reads nested s)
    (read : List Attribute × List Selector) :
    clause nested read (Clause.written (.inr s) ++ left) =
      .done (Clause.addTo read (.inr s), true) left := by
  have htext : Clause.written (.inr s) ++ left =
      ':' :: ("has".toList ++ '(' :: (written s ++ ')' :: left)) := by
    simp [Clause.written]
  rw [htext, clause, bind_done _ (eat_other (by decide)), if_neg Bool.false_ne_true,
    bind_done _ eat_self, if_pos rfl, bind_done _ (hasClause_written hs left)]
  rfl

theorem clauses_written {nested : TextReader Selector} {attributes : List Attribute}
    {has : List Selector} (ha : ∀ a ∈ attributes, a.Writable) (hs : ∀ s ∈ has, Reads nested s)
    (hleft : EndsCompound left) :
    loop ([], []) (clause nested)
      (attributes.flatMap Attribute.written ++ writtenBelow has ++ left) =
        .done (attributes, has) left := by
  rw [← flatMap_written_clauses, ← foldl_addTo_clauses attributes has]
  refine loop_items (fun _ => True) trivial ?_ ?_ ?_
  · rintro (a | s) <;> exact List.cons_ne_nil _ _
  · intro i hi r _
    obtain hi | hi := List.mem_append.mp hi
    · obtain ⟨a, hmem, rfl⟩ := List.mem_map.mp hi
      exact ⟨trivial, clause_attribute (ha a hmem)⟩
    · obtain ⟨s, hmem, rfl⟩ := List.mem_map.mp hi
      exact ⟨trivial, clause_has (hs s hmem)⟩
  · intro read
    rw [clause, bind_done _ (eat_of_head? (hleft.head?_ne (by decide))), if_neg Bool.false_ne_true,
      bind_done _ (eat_of_head? (hleft.head?_ne (by decide))), if_neg Bool.false_ne_true]
    rfl

theorem compound_written (blank : Bool) {nested : TextReader Selector} {kind : Option Kind}
    {attributes : List Attribute} {has : List Selector} (ha : ∀ a ∈ attributes, a.Writable)
    (hs : ∀ s ∈ has, Reads nested s) (hleft : EndsCompound left) :
    compound blank nested ((Compound.mk kind attributes has).written ++ left) =
      .done (.mk kind attributes has) left := by
  -- The kind ends at the bracket or the colon of the first clause, if there is one.
  have hends : EndsWord (attributes.flatMap Attribute.written ++ writtenBelow has ++ left) := by
    cases attributes with
    | cons a attributes => exact endsWord_cons (by decide)
    | nil =>
      cases has with
      | cons s has => exact endsWord_cons (by decide)
      | nil => exact hleft.endsWord
  rw [compound, Compound.written, List.append_assoc, bind_done _ (kind_written blank kind hends),
    bind_done _ (clauses_written ha hs hleft)]
  rfl

theorem head?_written (c : Compound) (left : List Char) :
    ∃ d, (c.written ++ left).head? = some d ∧ Text.isBlank d = false ∧ d ≠ ')' := by
  obtain ⟨kind, attributes, has⟩ := c
  rw [Compound.written, List.append_assoc]
  exact head?_writtenKind kind _

theorem written_concat (inner : List Compound) (outermost : Compound) :
    written (inner ++ [outermost]) =
      outermost.written ++ inner.reverse.flatMap fun c => ' ' :: c.written := by
  induction inner with
  | nil => simp [written]
  | cons c inner ih =>
    obtain ⟨next, outer, houter⟩ : ∃ next outer, inner ++ [outermost] = next :: outer :=
      List.exists_cons_of_ne_nil (by simp)
    rw [List.cons_append, houter, written, ← houter, ih]
    simp

def EndsSelector (cs : List Char) : Prop :=
  ∀ c ∈ cs.head?, c = ')'

theorem EndsSelector.endsCompound (h : EndsSelector left) : EndsCompound left :=
  fun c hc => .inr (h c hc)

theorem endsCompound_blank : EndsCompound (' ' :: left) := by
  simp [EndsCompound]

theorem compounds_written (blank : Bool) {nested : TextReader Selector} {s : Selector}
    (hs : s.Writable)
    (hnested : ∀ kind attributes has, .mk kind attributes has ∈ s → ∀ t ∈ has, Reads nested t)
    (hleft : EndsSelector left) :
    compounds blank nested (written s ++ left) = .done s left := by
  have hcompound : ∀ c ∈ s, ∀ r, EndsCompound r →
      compound blank nested (c.written ++ r) = .done c r := by
    intro c hc r hr
    obtain ⟨kind, attributes, has⟩ := c
    have hattributes := (Compound.writable_mk_iff.mp (hs.2 _ hc)).1
    exact compound_written blank hattributes (hnested _ _ _ hc) hr
  have hblank (c : Compound) (r : List Char) :
      ∀ d ∈ (c.written ++ r).head?, Text.isBlank d = false := by
    obtain ⟨d, hd, hnot, -⟩ := head?_written c r
    simpa [hd] using hnot
  obtain ⟨inner, outermost, rfl⟩ := (List.eq_nil_or_concat' s).resolve_left hs.1
  have hends : EndsCompound (inner.reverse.flatMap (fun c => ' ' :: c.written) ++ left) := by
    cases inner.reverse with
    | nil => exact hleft.endsCompound
    | cons c rest => exact endsCompound_blank
  have hfold : inner.reverse.foldl (fun s c => c :: s) [outermost] = inner ++ [outermost] := by
    simp
  rw [compounds, written_concat, List.append_assoc,
    bind_done _ (skipBlanks_of_head? (hblank outermost _)),
    bind_done _ (hcompound outermost (by simp) _ hends), ← hfold]
  refine loop_items EndsCompound hleft.endsCompound (fun c => List.cons_ne_nil _ _) ?_ ?_
  · intro c hc r hr
    refine ⟨endsCompound_blank, fun read => ?_⟩
    obtain ⟨d, hd, -, hclose⟩ := head?_written c r
    rw [List.cons_append, bind_done _ (skipBlanks_blank (hblank c r)),
      bind_done _ (show rest _ = .done _ _ from rfl), hd, if_pos rfl]
    simp only
    rw [bind_done _ (hcompound c (List.mem_append_left _ (List.mem_reverse.mp hc)) r hr)]
    rfl
  · intro read
    have hstop : ∀ c ∈ left.head?, Text.isBlank c = false := by
      intro c hc
      obtain rfl := hleft c hc
      decide
    rw [bind_done _ (skipBlanks_of_head? hstop), bind_done _ (show rest _ = .done _ _ from rfl)]
    cases left with
    | nil => rfl
    | cons c left =>
      obtain rfl := hleft c rfl
      rfl

theorem length_writtenBelow {has : List Selector} {t : Selector} (ht : t ∈ has) :
    (written t).length < (writtenBelow has).length := by
  induction has with
  | nil => cases ht
  | cons u has ih =>
    rw [writtenBelow, List.length_append, List.length_append, List.length_append,
      List.length_singleton]
    obtain rfl | ht := List.mem_cons.mp ht
    · omega
    · have hlt := ih ht
      omega

theorem length_written_le {s : Selector} {c : Compound} (hc : c ∈ s) :
    c.written.length ≤ (written s).length := by
  obtain ⟨inner, outermost, rfl⟩ :=
    (List.eq_nil_or_concat' s).resolve_left (List.ne_nil_of_mem hc)
  rw [written_concat, List.length_append]
  obtain hc | hc := List.mem_append.mp hc
  · have hinfix := List.Sublist.flatMap (List.singleton_sublist.mpr (List.mem_reverse.mpr hc))
      fun c => ' ' :: c.written
    have hle := hinfix.length_le
    rw [List.flatMap_singleton, List.length_cons] at hle
    omega
  · obtain rfl := List.mem_singleton.mp hc
    omega

/-- A nested selector is shorter than the one it stands in. -/
theorem length_written_lt {s : Selector} {kind : Option Kind} {attributes : List Attribute}
    {has : List Selector} (hc : .mk kind attributes has ∈ s) {t : Selector} (ht : t ∈ has) :
    (written t).length < (written s).length := by
  have hbelow := length_writtenBelow ht
  have hle := length_written_le hc
  rw [Compound.written, List.length_append, List.length_append] at hle
  omega

/-- A selector is read as soon as the readers may go as deep as it is long. -/
theorem toDepth_written (blank : Bool) {depth : Nat} {s : Selector} (hs : s.Writable)
    (hdepth : (written s).length < depth) (hleft : EndsSelector left) :
    toDepth blank depth (written s ++ left) = .done s left := by
  induction depth generalizing s left with
  | zero => exact absurd hdepth (Nat.not_lt_zero _)
  | succ depth ih =>
    refine compounds_written blank hs (fun kind attributes has hc t ht r => ?_) hleft
    have hwritable := (Compound.writable_mk_iff.mp (hs.2 _ hc)).2 t ht
    have hlt := length_written_lt hc ht
    exact ih hwritable (by omega) (by simp [EndsSelector])

theorem parse_written {text : String} {s : Selector} (hs : s.Writable)
    (htext : text.toList = written s) : parse text = .ok s := by
  have hread : toDepth ((written s).all Text.isBlank) ((written s).length + 1) (written s) =
      .done s [] := by
    simpa using toDepth_written _ hs (Nat.lt_succ_self _) (show EndsSelector [] from nofun)
  rw [parse, htext, whole, bind_done _ hread]
  rfl

/-- What is written for a selector is read as that selector. -/
theorem parse_render {s : Selector} (hs : s.Writable) : parse s.render = .ok s :=
  parse_written hs String.toList_ofList

/-- A quote, a bracket, a backslash and a parenthesis in a value, and a selector in another one. -/
theorem parse_render_nested : ∃ s : Selector, s.Writable ∧
    s.render = "SourceFile *[exported=true]:has(" ++
      "StringLiteral[text=\"a\\\"]\\\\ )\"] Identifier[name.text])" ∧
    parse s.render = .ok s := by
  let nested : Selector :=
    [.mk (some .identifier) [⟨["name", "text"], none⟩] [],
     .mk (some .stringLiteral) [⟨["text"], some (.text "a\"]\\ )")⟩] []]
  let s : Selector :=
    [.mk none [⟨["exported"], some (.flag true)⟩] [nested], .mk (some .sourceFile) [] []]
  have hwords : IsFieldName "name" ∧ IsFieldName "text" ∧ IsFieldName "exported" :=
    ⟨by decide, by decide, by decide⟩
  have hs : s.Writable := by
    simp [s, nested, Writable, Compound.writable_mk_iff, Attribute.writable_iff, hwords]
  exact ⟨s, hs, by decide +kernel, parse_render hs⟩

end Selector

end Quasiquote
