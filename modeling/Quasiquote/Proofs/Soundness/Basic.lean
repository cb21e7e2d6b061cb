import Quasiquote.Proofs.Derivation

namespace Quasiquote

structure Cursor.Passes (c : Cursor) (ts : List Token) (c' : Cursor) : Prop where
  rest : c.rest = ts ++ c'.rest
  last : c'.last = (ts.getLast?.map Token.stop).getD c.last

namespace Cursor

variable {c d e : Cursor} {t : Token} {ts us : List Token}

theorem Passes.refl (c : Cursor) : c.Passes [] c := ⟨rfl, rfl⟩

theorem Passes.trans (h : c.Passes ts d) (h' : d.Passes us e) : c.Passes (ts ++ us) e := by
  refine ⟨by rw [h.rest, h'.rest, List.append_assoc], ?_⟩
  rw [h'.last, h.last, List.getLast?_append]
  cases us.getLast? <;> rfl

theorem passes_advance (h : c.current.kind ≠ .eof) : c.Passes [c.current] c.advance := by
  obtain ⟨last, rest⟩ := c
  cases rest with
  | nil => exact absurd rfl h
  | cons t r =>
    have ht : t.kind ≠ .eof := h
    constructor <;> simp [current, advance, ht]

theorem current_advance (h : c.current.kind ≠ .eof) (ht : c.next? = some t) :
    c.advance.current = t := by
  obtain ⟨last, rest⟩ := c
  match rest with
  | [] => simp [next?] at ht
  | [_] => simp [next?] at ht
  | u :: v :: r =>
    have hu : u.kind ≠ .eof := h
    simpa [advance, current, hu, next?] using ht

theorem Passes.extent (h : c.Passes ts d) (hne : ts ≠ []) :
    Token.extent ts = ⟨c.current.start, max d.last c.current.start⟩ := by
  obtain ⟨t, us, rfl⟩ := List.exists_cons_of_ne_nil hne
  have hlast : (((t :: us).getLast?.map Token.stop).getD 0) = d.last := by
    rw [h.last, List.getLast?_cons]
    rfl
  simp [Token.extent, hlast, current, h.rest]

end Cursor

def Phrase.isSolid : Phrase → Bool
  | .optional _ | .many _ _ | .statements => false
  | .joined _ p => p.isSolid
  | _ => true

theorem Makes.ne_nil_of_parts {p : Phrase} {ts : List Token} {kind : Kind} {fields : List Field}
    (h : Makes (fun q us _ => q.isSolid = true → us ≠ []) p ts kind fields) : ts ≠ [] := by
  cases h with
  | signature hp | literalType hp => rcases hp with rfl | rfl | rfl <;> simp_all [Phrase.isSolid]
  | _ => simp_all [Phrase.isSolid, Phrase.parameters, Phrase.arguments]

theorem Derives.ne_nil {p : Phrase} {ts : List Token} {ns : List Node} (h : Derives p ts ns) :
    p.isSolid = true → ts ≠ [] := by
  induction h with
  | body hp _ ih => rcases hp with rfl | rfl <;> simp_all [Phrase.isSolid]
  | property hp _ ih => rcases hp with rfl | rfl | rfl <;> simp_all [Phrase.isSolid]
  | operand hp _ ih => rcases hp with rfl | rfl | rfl | rfl <;> simp_all [Phrase.isSolid]
  | made h _ ih => exact fun _ => (h.imp ih).ne_nil_of_parts
  | _ => simp_all [Phrase.isSolid]

theorem Makes.ne_nil {p : Phrase} {ts : List Token} {kind : Kind} {fields : List Field}
    (h : Makes Derives p ts kind fields) : ts ≠ [] :=
  (h.imp Derives.ne_nil).ne_nil_of_parts

theorem Derives.of_joined_single {operator : Punct} {p : Phrase} {ts : List Token} {n : Node}
    (h : Derives (.joined operator p) ts [n]) : Derives p ts [n] := by
  have hne : ∀ {ts : List Token} {ns : List Node}, Derives (.joined operator p) ts ns → ns ≠ [] := by
    intro ts ns h
    cases h <;> simp
  generalize hns : [n] = ns at h
  cases h with
  | single h =>
    cases hns
    exact h
  | joined hs =>
    have hlen := congrArg List.length hns
    exact absurd (List.length_eq_zero_iff.mp (by simpa using hlen.symm)) (hne hs)
  | made h => cases h

theorem Derives.append_single {separators : List Punct} {p : Phrase} {ts us : List Token}
    {ns : List Node} {n : Node} (hs : Derives (.many separators p) ts ns) (h : Derives p us [n]) :
    Derives (.many separators p) (ts ++ us) (ns ++ [n]) := by
  have hsnoc := Derives.snoc hs h (.inl rfl)
  rwa [List.append_nil] at hsnoc

def Derived (p : Phrase) (c : Cursor) (ns : List Node) (c' : Cursor) : Prop :=
  ∃ ts, c.Passes ts c' ∧ Derives p ts ns

theorem Derived.of_over {p : Phrase} {c c' : Cursor} {ts : List Token} {kind : Kind}
    {fields : List Field} (h : c.Passes ts c') (hd : Makes Derives p ts kind fields) :
    Derived p c [.mk kind { span := some ⟨c.current.start, max c'.last c.current.start⟩ } fields]
      c' := by
  refine ⟨ts, h, ?_⟩
  rw [← h.extent hd.ne_nil]
  exact hd.derives

/-- Between two cursors stand the tokens of a statement. A semicolon that follows them is not left
to the next one. -/
def Stated (c : Cursor) (n : Node) (c' : Cursor) : Prop :=
  ∃ ts, c.Passes ts c' ∧ Derives .statement ts [n] ∧ Token.Parts ts c'.rest

theorem Stated.of_over {c c' : Cursor} {ts : List Token} {kind : Kind} {fields : List Field}
    (h : c.Passes ts c') (hd : Makes Derives .statement ts kind fields)
    (hp : Token.Parts ts c'.rest) :
    Stated c (.mk kind { span := some ⟨c.current.start, max c'.last c.current.start⟩ } fields)
      c' := by
  refine ⟨ts, h, ?_, hp⟩
  rw [← h.extent hd.ne_nil]
  exact hd.derives

namespace Token

variable {ts us rest : List Token}

theorem Parts.of_nil : Parts [] us := by
  simp [Parts]

theorem Parts.of_append (h : Parts us rest) (hus : us ≠ []) (ts : List Token) :
    Parts (ts ++ us) rest := by
  have hlast := List.getLast?_eq_some_getLast hus
  rw [Parts, hlast] at h
  rwa [Parts, List.getLast?_append, hlast, Option.some_or]

theorem Parts.of_append_left (h : Parts ts (us ++ rest)) (hus : us ≠ []) : Parts ts us := by
  obtain ⟨u, us, rfl⟩ := List.exists_cons_of_ne_nil hus
  exact h

theorem parts_of_ends {t : Token} (ht : t.kind = .punct .semicolon ∨ t.kind = .punct .braceClose)
    (ts rest : List Token) : Parts (ts ++ [t]) rest := by
  intro u hu
  obtain rfl : t = u := by simpa using hu
  exact fun _ _ => ht.elim .inl fun h => .inr (.inl h)

end Token

theorem Derives.parts_block {ts rest : List Token} {ns : List Node} (h : Derives .block ts ns) :
    Token.Parts ts rest := by
  obtain ⟨_, _, rfl, hm⟩ := h.exists_makes rfl
  cases hm with
  | block _ _ ht' => exact Token.parts_of_ends (.inr ht') _ _

namespace Parser

variable {α β : Type} {c c' d : Cursor} {n : Node} {p : Punct} {word context : String}

theorem bind_done {p : Parser α} {f : α → Parser β} {b : β} :
    (p >>= f) c = .done b c' ↔ ∃ a d, p c = .done a d ∧ f a d = .done b c' := by
  simp only [bind]
  cases p c with
  | done a d =>
    refine ⟨fun h => ⟨a, d, rfl, h⟩, ?_⟩
    rintro ⟨_, _, h, h'⟩
    cases h
    exact h'
  | rejected e => simp
  | starved => simp

theorem pure_done {a b : α} : (pure a : Parser α) c = .done b c' ↔ b = a ∧ c' = c := by
  simp [pure, eq_comm]

theorem map_done {p : Parser α} {f : α → β} {b : β} :
    (f <$> p) c = .done b c' ↔ ∃ a, p c = .done a c' ∧ b = f a := by
  have h : (f <$> p) c = (p >>= pure ∘ f) c := rfl
  rw [h, bind_done]
  constructor
  · rintro ⟨a, d, ha, hb⟩
    obtain ⟨rfl, rfl⟩ := pure_done.mp hb
    exact ⟨a, ha, rfl⟩
  · rintro ⟨a, ha, rfl⟩
    exact ⟨a, c', ha, rfl⟩

theorem passes_of_punct (h : c.current.kind = .punct p) : c.Passes [c.current] c.advance :=
  Cursor.passes_advance (by simp [h])

theorem passes_of_word (h : c.current.kind = .word) : c.Passes [c.current] c.advance :=
  Cursor.passes_advance (by simp [h])

theorem kind_of_isWord {t : Token} (h : t.isWord word = true) : t.kind = .word := by
  simp only [Token.isWord, Bool.and_eq_true, decide_eq_true_eq] at h
  exact h.1

/-- What follows a choice is written after both its branches. -/
theorem ite_bind_done {b : Prop} [Decidable b] {p q : Parser α} {f : α → Parser β} {x : β} :
    (if b then p >>= f else q >>= f) c = .done x c' ↔
      ∃ a d, (if b then p else q) c = .done a d ∧ f a d = .done x c' := by
  split <;> exact bind_done

theorem attempt_done {p : Parser α} {a? : Option α} (h : attempt p c = .done a? c') :
    (∃ a, a? = some a ∧ p c = .done a c') ∨ (a? = none ∧ c' = c) := by
  unfold attempt at h
  split at h
  · next a d ha =>
    cases h
    exact .inl ⟨a, rfl, ha⟩
  · cases h
    exact .inr ⟨rfl, rfl⟩
  · cases h

theorem eat_done {b : Bool} (h : eat p c = .done b c') :
    ∃ ts, c.Passes ts c' ∧ Terminal.Perhaps (.punct p) ts b := by
  unfold eat at h
  split at h
  · next hp =>
    cases h
    exact ⟨_, passes_of_punct hp, .inl ⟨_, hp, rfl, rfl⟩⟩
  · cases h
    exact ⟨[], .refl c, .inr ⟨rfl, rfl⟩⟩

theorem eatWord_done {b : Bool} (h : eatWord word c = .done b c') :
    ∃ ts, c.Passes ts c' ∧ Terminal.Perhaps (.word word) ts b := by
  unfold eatWord at h
  split at h
  · next hw =>
    cases h
    exact ⟨_, passes_of_word (kind_of_isWord hw), .inl ⟨_, hw, rfl, rfl⟩⟩
  · cases h
    exact ⟨[], .refl c, .inr ⟨rfl, rfl⟩⟩

theorem expect_done {u : Unit} (h : expect p context c = .done u c') :
    ∃ t, c.Passes [t] c' ∧ t.kind = .punct p := by
  simp only [expect, bind_done] at h
  obtain ⟨b, d, hb, h⟩ := h
  obtain ⟨ts, hts, ⟨t, ht, rfl, rfl⟩ | ⟨rfl, rfl⟩⟩ := eat_done hb
  · cases h
    exact ⟨t, hts, ht⟩
  · cases h

theorem expectWord_done {u : Unit} (h : expectWord word context c = .done u c') :
    ∃ t, c.Passes [t] c' ∧ t.isWord word = true := by
  simp only [expectWord, bind_done] at h
  obtain ⟨b, d, hb, h⟩ := h
  obtain ⟨ts, hts, ⟨t, ht, rfl, rfl⟩ | ⟨rfl, rfl⟩⟩ := eatWord_done hb
  · cases h
    exact ⟨t, hts, ht⟩
  · cases h

/-- What holds before a loop and after each of its rounds holds before the last round. -/
theorem loop_last {I : α → Cursor → Prop} {step : α → Parser (α × Bool)} {a b : α}
    (hstep : ∀ {a c b more c'}, I a c → step a c = .done (b, more) c' → I b c')
    (h : loop a step c = .done b c') (ha : I a c) :
    ∃ a' d, I a' d ∧ step a' d = .done (b, false) c' := by
  unfold loop at h
  generalize c.rest.length + 1 = bound at h
  induction bound generalizing a c with
  | zero => cases h
  | succ bound ih =>
    simp only [Reader.loopWithin, bind_done] at h
    obtain ⟨⟨a', more⟩, d, hs, h⟩ := h
    cases more with
    | true => exact ih (hstep ha hs) h
    | false =>
      obtain ⟨rfl, rfl⟩ := pure_done.mp h
      exact ⟨a, c, ha, hs⟩

theorem loop_done {I : α → Cursor → Prop} {step : α → Parser (α × Bool)} {a b : α}
    (hstep : ∀ {a c b more c'}, I a c → step a c = .done (b, more) c' → I b c')
    (h : loop a step c = .done b c') (ha : I a c) : I b c' := by
  obtain ⟨a', d, hd, hlast⟩ := loop_last hstep h ha
  exact hstep hd hlast

theorem eat_missed (h : eat p c = .done false c') : c' = c ∧ c.current.kind ≠ .punct p := by
  unfold eat at h
  split at h
  · cases h
  · next hp =>
    cases h
    exact ⟨rfl, hp⟩

theorem semicolon_done {u : Unit} (h : semicolon context c = .done u c') :
    ∃ us, c.Passes us c' ∧ Terminal.Separates [.semicolon] us ∧
      ∀ ts, Token.Parts (ts ++ us) c'.rest := by
  simp only [semicolon, bind_done] at h
  obtain ⟨b, d, hb, h⟩ := h
  cases b with
  | true =>
    obtain ⟨us, hus, ⟨t, ht, rfl, -⟩ | ⟨-, ⟨⟩⟩⟩ := eat_done hb
    cases h
    exact ⟨_, hus, .inr ⟨t, _, List.mem_singleton.mpr rfl, ht, rfl⟩,
      fun _ => Token.parts_of_ends (.inl ht) _ _⟩
  | false =>
    obtain ⟨rfl, hne⟩ := eat_missed hb
    simp only [Bool.false_eq_true, if_false, bind_done] at h
    obtain ⟨_, _, ⟨⟩, _, _, ⟨⟩, _, _, ⟨⟩, h⟩ := h
    split at h <;> cases h
    refine ⟨[], .refl _, .inl rfl, fun ts _ _ u hu => .inr (.inr ?_)⟩
    rwa [Cursor.current, List.headD_eq_head?_getD, hu] at hne

theorem identifier_done (h : identifier context c = .done n c') : Derived .name c [n] c' := by
  simp only [identifier, bind_done] at h
  obtain ⟨t, _, ⟨⟩, h⟩ := h
  split at h
  · cases h
  · next hw =>
    split at h
    · cases h
    · next hr =>
      simp only [bind_done] at h
      obtain ⟨_, _, ⟨⟩, ⟨⟩⟩ := h
      have hw : c.current.kind = .word := by simpa using hw
      exact .of_over (passes_of_word hw) (.name hw (by simpa using hr))

theorem eq_advance_of_identifier (h : identifier context c = .done n c') : c' = c.advance := by
  simp only [identifier, bind_done] at h
  obtain ⟨t, _, ⟨⟩, h⟩ := h
  split at h
  · cases h
  · split at h
    · cases h
    · simp only [bind_done] at h
      obtain ⟨_, _, ⟨⟩, ⟨⟩⟩ := h
      rfl

theorem identifierName_done (h : identifierName context c = .done n c') :
    Derived .word c [n] c' := by
  simp only [identifierName, bind_done] at h
  obtain ⟨t, _, ⟨⟩, h⟩ := h
  split at h
  · cases h
  · next hw =>
    simp only [bind_done] at h
    obtain ⟨_, _, ⟨⟩, ⟨⟩⟩ := h
    have hw : c.current.kind = .word := by simpa using hw
    exact .of_over (passes_of_word hw) (.word hw)

theorem stringLiteral_done (h : stringLiteral c = .done n c') (hs : c.current.kind = .string) :
    Derived .string c [n] c' := by
  simp only [stringLiteral, bind_done] at h
  obtain ⟨_, _, ⟨⟩, ⟨⟩⟩ := h
  exact .of_over (Cursor.passes_advance (by simp [hs])) (.string hs)

theorem numericLiteral_done (h : numericLiteral c = .done n c') (hs : c.current.kind = .number) :
    Derived .number c [n] c' := by
  simp only [numericLiteral, bind_done] at h
  obtain ⟨_, _, ⟨⟩, ⟨⟩⟩ := h
  exact .of_over (Cursor.passes_advance (by simp [hs])) (.number hs)

def Sound (p : Parser Node) (phrase : Phrase) : Prop :=
  ∀ {c n c'}, p c = .done n c' → Derived phrase c [n] c'

theorem announced_done {q : Parser Node} {phrase : Phrase} (hq : Sound q phrase)
    {n? : Option Node} (h : announced p q c = .done n? c') :
    Derived (.optional (.announced (.punct p) phrase)) c n?.toList c' := by
  simp only [announced, bind_done] at h
  obtain ⟨b, d, hb, h⟩ := h
  obtain ⟨ts, hts, ⟨t, ht, rfl, rfl⟩ | ⟨rfl, rfl⟩⟩ := eat_done hb
  · simp only [if_true, bind_done] at h
    obtain ⟨n, e, hn, ⟨⟩⟩ := h
    obtain ⟨us, hus, hd⟩ := hq hn
    exact ⟨_, hts.trans hus, .present (.announced ht hd)⟩
  · cases h
    exact ⟨[], hts, .absent⟩

theorem commaList_done {atEnd : Parser Unit} {item : Parser Node} {phrase : Phrase}
    (hend : ∀ {c u c'}, atEnd c = .done u c' → c' = c) (hitem : Sound item phrase)
    {ns : List Node} (h : commaList p atEnd item c = .done ns c') :
    Derived (.many [.comma] phrase) c ns c' := by
  refine loop_done (I := Derived (.many [.comma] phrase) c) ?_ h ⟨[], .refl c, .nil⟩
  rintro ns d ms more d' ⟨ts, hts, hd⟩ h
  simp only [bind_done] at h
  obtain ⟨_, _, ⟨⟩, h⟩ := h
  split at h
  · cases h
    exact ⟨ts, hts, hd⟩
  · simp only [bind_done] at h
    obtain ⟨_, e, he, n, e', hn, more, e'', hm, ⟨⟩⟩ := h
    obtain rfl := hend he
    obtain ⟨us, hus, hn⟩ := hitem hn
    obtain ⟨vs, hvs, hv⟩ := eat_done hm
    refine ⟨_, (hts.trans hus).trans hvs, .snoc hd hn ?_⟩
    obtain ⟨t, ht, rfl, -⟩ | ⟨rfl, -⟩ := hv
    · exact .inr ⟨t, _, List.mem_singleton.mpr rfl, ht, rfl⟩
    · exact .inl rfl

theorem enclosed_done {opening closing : Punct} {atEnd : Parser Unit} {item : Parser Node}
    {phrase : Phrase} {context' : String}
    (hend : ∀ {c u c'}, atEnd c = .done u c' → c' = c) (hitem : Sound item phrase)
    {ns : List Node} (h : (do
      expect opening context
      let ns ← commaList closing atEnd item
      expect closing context'
      return ns : Parser (List Node)) c = .done ns c') :
    Derived (.enclosed opening closing phrase) c ns c' := by
  simp only [bind_done] at h
  obtain ⟨_, c₁, h₁, ns, c₂, h₂, _, c₃, h₃, ⟨⟩⟩ := h
  obtain ⟨t, p₁, ht⟩ := expect_done h₁
  obtain ⟨ts, p₂, hns⟩ := commaList_done hend hitem h₂
  obtain ⟨t', p₃, ht'⟩ := expect_done h₃
  exact ⟨_, (p₁.trans p₂).trans p₃, .enclosed ht hns ht'⟩

end Parser

end Quasiquote
