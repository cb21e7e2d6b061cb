import Quasiquote.Proofs.Soundness.Basic

namespace Quasiquote

namespace Cursor

def left (c : Cursor) : Nat :=
  c.rest.length

def Ends (c : Cursor) : Prop :=
  ∃ t ∈ c.rest, t.kind = .eof

variable {c : Cursor}

theorem Ends.current_mem (h : c.Ends) : c.current ∈ c.rest := by
  obtain ⟨t, ht, -⟩ := h
  obtain ⟨u, us, hu⟩ := List.exists_cons_of_ne_nil (List.ne_nil_of_mem ht)
  simp [current, hu]

theorem advance_suffix (c : Cursor) : c.advance.rest <:+ c.rest := by
  unfold advance
  split
  · next t r hr =>
    split
    · exact List.suffix_refl _
    · rw [hr]
      exact List.suffix_cons t r
  · exact List.suffix_refl _

theorem Ends.advance (h : c.Ends) : c.advance.Ends := by
  obtain ⟨t, ht, hk⟩ := h
  unfold Cursor.advance
  split
  · next u r hr =>
    split
    · exact ⟨t, ht, hk⟩
    · next hu =>
      rw [hr, List.mem_cons] at ht
      obtain rfl | ht := ht
      · exact absurd hk hu
      · exact ⟨t, ht, hk⟩
  · exact ⟨t, ht, hk⟩

theorem left_advance (h : c.current.kind ≠ .eof) : c.advance.left < c.left := by
  rw [left, left, (passes_advance h).rest]
  simp

end Cursor

namespace Parser

variable {α β : Type} {p : Parser α} {f : α → Parser β} {c c' : Cursor} {Q : α → Nat → Prop}
  {R : β → Nat → Prop}

/-- At a place a parser reads a value and leaves a number of tokens that belong together, or it
reports one of the tokens there. -/
def Answers (p : Parser α) (c : Cursor) (Q : α → Nat → Prop) : Prop :=
  match p c with
  | .done a c' => c'.Ends ∧ c'.rest <:+ c.rest ∧ Q a c'.left
  | .rejected e => ∃ t ∈ c.rest, e.position = t.start
  | .starved => False

def Advances (p : Parser α) (c : Cursor) : Prop :=
  p.Answers c fun _ m => m < c.left

def Tries (p : Parser α) (c : Cursor) : Prop :=
  p.Answers c fun _ m => m ≤ c.left

theorem Answers.done (h : p.Answers c Q) {a : α} (hp : p c = .done a c') :
    c'.Ends ∧ c'.rest <:+ c.rest ∧ Q a c'.left := by
  rwa [Answers, hp] at h

theorem Answers.mono (h : p.Answers c Q) {Q' : α → Nat → Prop}
    (hQ : ∀ a m, m ≤ c.left → Q a m → Q' a m) : p.Answers c Q' := by
  unfold Answers at h ⊢
  split
  · next a d hp =>
    rw [hp] at h
    exact ⟨h.1, h.2.1, hQ a _ h.2.1.length_le h.2.2⟩
  · next e hp => rwa [hp] at h
  · next hp => rwa [hp] at h

theorem Advances.tries (h : p.Advances c) : p.Tries c :=
  h.mono fun _ _ _ => Nat.le_of_lt

theorem Answers.tries (h : p.Answers c Q) : p.Tries c :=
  h.mono fun _ _ hm _ => hm

/-- What is true of the tokens left by the first of two steps may be used for the second. -/
theorem Answers.bind (hp : p.Answers c Q)
    (hf : ∀ a d, d.Ends → d.left ≤ c.left → Q a d.left → (f a).Answers d R) :
    (p >>= f).Answers c R := by
  unfold Answers at hp ⊢
  simp only [Bind.bind]
  cases hpc : p c with
  | done a d =>
    rw [hpc] at hp
    obtain ⟨hd, hsuffix, hq⟩ := hp
    have hfd := hf a d hd hsuffix.length_le hq
    unfold Answers at hfd
    dsimp only
    split
    · next b e hb =>
      rw [hb] at hfd
      exact ⟨hfd.1, hfd.2.1.trans hsuffix, hfd.2.2⟩
    · next e he =>
      rw [he] at hfd
      obtain ⟨t, ht, hpos⟩ := hfd
      exact ⟨t, hsuffix.subset ht, hpos⟩
    · next hs => rwa [hs] at hfd
  | rejected e => rwa [hpc] at hp
  | starved => rwa [hpc] at hp

/-- A step that looks at the tokens and passes none. -/
theorem Answers.observe {a : α} (hp : p c = .done a c) (hf : (f a).Answers c R) :
    (p >>= f).Answers c R := by
  have hbind : (p >>= f) c = f a c := by simp only [Bind.bind, hp]
  unfold Answers at hf ⊢
  rwa [hbind]

/-- A parser that is tried goes on where it began if it fails. -/
theorem Answers.attempt {g : Option α → Parser β} (hp : p.Answers c Q)
    (hsome : ∀ a d, d.Ends → d.left ≤ c.left → Q a d.left → (g (some a)).Answers d R)
    (hnone : (g none).Answers c R) : Answers (Reader.attempt p >>= g) c R := by
  cases hpc : p c with
  | done a d =>
    have hdone : Reader.attempt p c = .done (some a) d := by simp only [Reader.attempt, hpc]
    obtain ⟨hd, hsuffix, hq⟩ := hp.done hpc
    have hread : Answers (Reader.attempt p) c fun x m => x = some a ∧ Q a m := by
      unfold Answers
      rw [hdone]
      exact ⟨hd, hsuffix, rfl, hq⟩
    refine hread.bind fun x e he hle hx => ?_
    obtain ⟨rfl, hq⟩ := hx
    exact hsome a e he hle hq
  | rejected e =>
    exact .observe (a := none) (by simp only [Reader.attempt, hpc]) hnone
  | starved =>
    unfold Answers at hp
    rw [hpc] at hp
    exact hp.elim

theorem Answers.map {f : α → β} (hp : p.Answers c fun a m => R (f a) m) : (f <$> p).Answers c R := by
  have hmap : f <$> p = p >>= fun a => Pure.pure (f a) := rfl
  rw [hmap]
  refine hp.bind fun a d hd _ hq => ?_
  exact ⟨hd, List.suffix_refl _, hq⟩

theorem Advances.map (f : α → β) (hp : p.Advances c) : (f <$> p).Advances c :=
  Answers.map hp

variable {context : String} {punct : Punct} {word : String}

theorem answers_pure (hc : c.Ends) {a : α} (h : Q a c.left) : (pure a : Parser α).Answers c Q :=
  ⟨hc, List.suffix_refl _, h⟩

theorem answers_finish (hc : c.Ends) {kind : Kind} {start : Nat} {fields : List Field}
    {Q : Node → Nat → Prop} (h : ∀ n, Q n c.left) : (finish kind start fields).Answers c Q :=
  ⟨hc, List.suffix_refl _, h _⟩

theorem answers_reject (hc : c.Ends) {kind : ParseErrorKind} {expected : List String} :
    (reject kind context expected : Parser α).Answers c Q := by
  refine ⟨c.current, hc.current_mem, ?_⟩
  unfold errorAt
  dsimp only
  split <;> rfl

theorem tries_advance (hc : c.Ends) : advance.Tries c :=
  ⟨hc.advance, c.advance_suffix, c.advance_suffix.length_le⟩

theorem answers_advance (hc : c.Ends) :
    advance.Answers c fun _ m => c.current.kind ≠ .eof → m < c.left :=
  ⟨hc.advance, c.advance_suffix, Cursor.left_advance⟩

theorem advances_advance (hc : c.Ends) (hk : c.current.kind ≠ .eof) : advance.Advances c :=
  (answers_advance hc).mono fun _ _ _ h => h hk

theorem answers_eat (hc : c.Ends) : (eat punct).Answers c fun b m => b = true → m < c.left := by
  unfold Answers eat
  split
  · next a d h =>
    split at h
    · next hk =>
      cases h
      exact ⟨hc.advance, c.advance_suffix, fun _ => Cursor.left_advance (by simp [hk])⟩
    · cases h
      exact ⟨hc, List.suffix_refl _, nofun⟩
  · next h => split at h <;> cases h
  · next h => split at h <;> cases h

theorem answers_eatWord (hc : c.Ends) :
    (eatWord word).Answers c fun b m => b = true → m < c.left := by
  unfold Answers eatWord
  split
  · next a d h =>
    split at h
    · next hk =>
      cases h
      refine ⟨hc.advance, c.advance_suffix, fun _ => Cursor.left_advance ?_⟩
      simp [kind_of_isWord hk]
    · cases h
      exact ⟨hc, List.suffix_refl _, nofun⟩
  · next h => split at h <;> cases h
  · next h => split at h <;> cases h

theorem advances_expect (hc : c.Ends) : (expect punct context).Advances c := by
  refine (answers_eat hc).bind fun b d hd _ hb => ?_
  cases b with
  | true => exact answers_pure hd (hb rfl)
  | false => exact answers_reject hd

theorem advances_expectWord (hc : c.Ends) : (expectWord word context).Advances c := by
  refine (answers_eatWord hc).bind fun b d hd _ hb => ?_
  cases b with
  | true => exact answers_pure hd (hb rfl)
  | false => exact answers_reject hd

theorem tries_semicolon (hc : c.Ends) : (semicolon context).Tries c := by
  refine (answers_eat hc).bind fun b d hd hle _ => ?_
  cases b with
  | true => exact answers_pure hd hle
  | false =>
    refine .observe rfl (.observe rfl (.observe rfl ?_))
    split
    · exact answers_pure hd hle
    · exact answers_reject hd

theorem advances_identifier (hc : c.Ends) : (identifier context).Advances c := by
  refine .observe rfl ?_
  split
  · exact answers_reject hc
  · next hk =>
    split
    · exact answers_reject hc
    · have hk : c.current.kind = .word := by simpa using hk
      refine (advances_advance hc (by simp [hk])).bind fun _ d hd _ hlt => ?_
      exact answers_finish hd fun _ => hlt

theorem advances_identifierName (hc : c.Ends) : (identifierName context).Advances c := by
  refine .observe rfl ?_
  split
  · exact answers_reject hc
  · next hk =>
    have hk : c.current.kind = .word := by simpa using hk
    refine (advances_advance hc (by simp [hk])).bind fun _ d hd _ hlt => ?_
    exact answers_finish hd fun _ => hlt

theorem advances_stringLiteral (hc : c.Ends) (hk : c.current.kind = .string) :
    stringLiteral.Advances c := by
  refine (advances_advance hc (by simp [hk])).bind fun _ d hd _ hlt => ?_
  exact answers_finish hd fun _ => hlt

theorem advances_numericLiteral (hc : c.Ends) (hk : c.current.kind = .number) :
    numericLiteral.Advances c := by
  refine (advances_advance hc (by simp [hk])).bind fun _ d hd _ hlt => ?_
  exact answers_finish hd fun _ => hlt

theorem tries_announced {mark : Punct} {q : Parser Node} (hc : c.Ends)
    (hq : ∀ d, d.Ends → d.left < c.left → q.Tries d) : (announced mark q).Tries c := by
  refine (answers_eat hc).bind fun b d hd hle hb => ?_
  cases b with
  | true =>
    refine (hq d hd (hb rfl)).bind fun n e he hle' _ => ?_
    exact answers_pure he (Nat.le_trans hle' hle)
  | false => exact answers_pure hd hle

/-- Rounds that pass a token each time they ask for another come to an end. -/
theorem tries_loop {a : α} {step : α → Parser (α × Bool)} (hc : c.Ends)
    (hstep : ∀ a d, d.Ends → d.left ≤ c.left →
      (step a).Answers d fun r m => r.2 = true → m < d.left) : (loop a step).Tries c := by
  have hrounds : ∀ bound a d, d.Ends → d.left ≤ c.left → d.left < bound →
      Answers (Reader.loopWithin step bound a) d fun _ m => m ≤ d.left := by
    intro bound
    induction bound with
    | zero => exact fun a d _ _ h => absurd h (Nat.not_lt_zero _)
    | succ bound ih =>
      intro a d hd hdc hlt
      refine (hstep a d hd hdc).bind fun ⟨b, more⟩ e he hle hmore => ?_
      cases more with
      | true =>
        have hless : e.left < d.left := hmore rfl
        refine (ih b e he (Nat.le_trans hle hdc) (by omega)).mono fun _ m _ hm => ?_
        exact Nat.le_trans hm hle
      | false => exact answers_pure he hle
  exact hrounds (c.rest.length + 1) a c hc (Nat.le_refl _) (Nat.lt_succ_self _)

theorem tries_commaList {close : Punct} {atEnd : Parser Unit} {item : Parser α} (hc : c.Ends)
    (hend : ∀ d, d.Ends → atEnd.Tries d)
    (hitem : ∀ d, d.Ends → d.left ≤ c.left → item.Advances d) :
    (commaList close atEnd item).Tries c := by
  refine tries_loop hc fun items d hd hdc => .observe rfl ?_
  split
  · exact answers_pure hd nofun
  · refine (hend d hd).bind fun _ e he hle _ => ?_
    refine (hitem e he (Nat.le_trans hle hdc)).bind fun x e' he' _ hlt => ?_
    refine (answers_eat he').bind fun more e'' he'' hle'' _ => ?_
    exact answers_pure he'' fun _ => by omega

theorem tries_nothing (d : Cursor) (hd : d.Ends) : (pure () : Parser Unit).Tries d :=
  answers_pure hd (Nat.le_refl _)

theorem tries_atEnd {kind : ParseErrorKind} {expected : List String} (d : Cursor) (hd : d.Ends) :
    (do if ← atEof then reject kind context expected : Parser Unit).Tries d := by
  refine .observe rfl ?_
  split
  · exact answers_reject hd
  · exact answers_pure hd (Nat.le_refl _)

end Parser

end Quasiquote
