import Quasiquote.Proofs.Parsing
import Quasiquote.Proofs.Progress.Module
import Quasiquote.Proofs.Soundness.Module

namespace Quasiquote

mutual

def Node.withoutParens : Node → Node
  | .mk .parenthesizedExpression _ [.node n] => n.withoutParens
  | .mk kind mark fields => .mk kind mark (Field.withoutParensList fields)

def Field.withoutParensList : List Field → List Field
  | [] => []
  | .node n :: r => .node n.withoutParens :: Field.withoutParensList r
  | .list ns :: r => .list (Node.withoutParensList ns) :: Field.withoutParensList r
  | .text s :: r => .text s :: Field.withoutParensList r
  | .flag b :: r => .flag b :: Field.withoutParensList r
  | .absent :: r => .absent :: Field.withoutParensList r

def Node.withoutParensList : List Node → List Node
  | [] => []
  | n :: r => n.withoutParens :: Node.withoutParensList r

end

/-- What an expression says: neither where it was read nor the parentheses around its parts. -/
def Node.gist (n : Node) : Node :=
  n.withoutParens.bare

def Field.gist : Field → Field
  | .node n => .node n.gist
  | .list ns => .list (ns.map Node.gist)
  | .text s => .text s
  | .flag b => .flag b
  | .absent => .absent

theorem Node.bare_withoutParensList (ns : List Node) :
    (Node.withoutParensList ns).map Node.bare = ns.map Node.gist := by
  induction ns with
  | nil => rfl
  | cons n ns ih => rw [Node.withoutParensList, List.map_cons, ih, List.map_cons, Node.gist]

theorem Field.bare_withoutParensList (fs : List Field) :
    (Field.withoutParensList fs).map Field.bare = fs.map Field.gist := by
  induction fs with
  | nil => rfl
  | cons f fs ih =>
    cases f <;> simp [Field.withoutParensList, Field.bare, Field.gist, Node.gist, ih,
      Node.bare_withoutParensList]

theorem Node.gist_mk {kind : Kind} (h : kind ≠ .parenthesizedExpression) (mark : Mark)
    (fields : List Field) :
    (Node.mk kind mark fields).gist = .plain kind (fields.map Field.gist) := by
  rw [Node.gist, Node.withoutParens, Node.bare_mk, Field.bare_withoutParensList]
  simp [h]

theorem Node.gist_parens (mark : Mark) (n : Node) :
    (Node.mk .parenthesizedExpression mark [.node n]).gist = n.gist := by
  rw [Node.gist, Node.withoutParens, Node.gist]

def Node.Alike (n m : Node) : Prop :=
  n.gist = m.gist

theorem Node.map_gist_of_alike {ns ms : List Node} (h : List.Forall₂ Node.Alike ns ms) :
    ns.map Node.gist = ms.map Node.gist := by
  rwa [← List.forall₂_eq_eq_eq, List.forall₂_map_left_iff, List.forall₂_map_right_iff]

/-- The tokens that are left hold no arrow, end with the end mark and are no more than the grammar
is deep. -/
structure Token.Calm (depth : Nat) (ts : List Token) : Prop where
  ends : ∃ t ∈ ts.getLast?, t.kind = .eof
  noArrow : ∀ t ∈ ts, t.kind ≠ .punct .arrow
  fits : ts.length ≤ depth

namespace Token

variable {depth : Nat} {t u : Token} {ts us rest : List Token}

theorem Calm.of_append (h : Calm depth (ts ++ t :: rest)) : Calm depth (t :: rest) where
  ends := by simpa using h.ends
  noArrow u hu := h.noArrow u (List.mem_append_right ts hu)
  fits := by
    have hfits := h.fits
    simp only [List.length_append, List.length_cons] at hfits ⊢
    omega

theorem Calm.tail (h : Calm depth (t :: u :: rest)) : Calm depth (u :: rest) := by
  rw [← List.singleton_append] at h
  exact h.of_append

theorem Calm.of_append_cons (h : Calm depth (t :: (ts ++ u :: rest))) :
    Calm depth (ts ++ u :: rest) := by
  obtain ⟨v, vs, hv⟩ : ∃ v vs, ts ++ u :: rest = v :: vs := by cases ts <;> simp
  rw [hv] at h ⊢
  exact h.tail

/-- Behind a token one level of the grammar may be left. -/
theorem Calm.inside (h : Calm depth (t :: (ts ++ u :: rest))) :
    ∃ d, depth = d + 1 ∧ Calm d (ts ++ u :: rest) := by
  have hfits := h.fits
  rw [List.length_cons] at hfits
  refine ⟨depth - 1, by omega, ?_, fun v hv => h.noArrow v (List.mem_cons_of_mem t hv), by omega⟩
  have hends := h.ends
  rw [← List.cons_append, List.getLast?_append_cons] at hends
  rwa [List.getLast?_append_cons]

theorem calm_lasting (depth : Nat) : Parser.Lasting (Calm depth) :=
  fun _ _ _ h => h.of_append

end Token

namespace Grammar

open Quasiquote.Parser

variable {d last : Nat} {t : Token} {rest : List Token}

/-- Without an arrow in sight no function is found. -/
theorem attempt_arrowHead (h : Token.Calm d (t :: rest)) :
    attempt (toDepth d).arrowHead ⟨last, t :: rest⟩ = .done none ⟨last, t :: rest⟩ := by
  have hends : Cursor.Ends ⟨last, t :: rest⟩ := by
    obtain ⟨u, hu, hk⟩ := h.ends
    exact ⟨u, List.mem_of_getLast? hu, hk⟩
  have hanswers := (answers_toDepth d).arrowHead hends h.fits
  unfold Parser.Advances Parser.Answers at hanswers
  rw [Reader.attempt]
  cases hhead : (toDepth d).arrowHead ⟨last, t :: rest⟩ with
  | done r c =>
    -- A head ends with its arrow, and that is among the tokens that were read.
    obtain ⟨qs, ps, ts, u, hpasses, -, -, -, hu⟩ := (Sound.toDepth d).arrowHead hhead
    have hrest : t :: rest = (qs ++ ps ++ ts ++ [u]) ++ c.rest := hpasses.rest
    exact absurd hu (h.noArrow u (by simp [hrest]))
  | rejected e => rfl
  | starved => simp [hhead] at hanswers

theorem arrowAfterAsync_of_calm (h : Token.Calm d (t :: rest)) (last start : Nat) (async : Bool) :
    (toDepth d).arrowAfterAsync start async ⟨last, t :: rest⟩ =
      .done none ⟨last, t :: rest⟩ := by
  have hnext : (rest.head?.any fun u => u.kind = .punct .arrow) = false := by
    cases rest with
    | nil => rfl
    | cons u us => simpa using h.noArrow u (by simp)
  by_cases hopen : t.kind = .punct .parenOpen ∨ t.kind = .punct .less
  · rcases hopen with hopen | hopen <;>
      simp [arrowAfterAsync, atBareArrow, hopen, attempt_arrowHead h]
  · obtain ⟨hparen, hless⟩ := not_or.mp hopen
    simp [arrowAfterAsync, atBareArrow, hnext, hparen, hless]

theorem arrow?_of_calm (h : Token.Calm d (t :: rest)) (last : Nat) :
    (toDepth d).arrow? ⟨last, t :: rest⟩ = .done none ⟨last, t :: rest⟩ := by
  obtain ⟨async, hasync, hword⟩ : ∃ async, atAsyncArrow ⟨last, t :: rest⟩ =
      .done async ⟨last, t :: rest⟩ ∧ (async = true → t.kind = .word ∧ rest ≠ []) := by
    refine ⟨_, rfl, fun hasync => ?_⟩
    simp only [Cursor.current, Cursor.next?, List.headD_cons, List.tail_cons, Bool.and_eq_true,
      Token.isWord] at hasync
    refine ⟨of_decide_eq_true hasync.1.1, ?_⟩
    rintro rfl
    simp at hasync
  cases async with
  | false =>
    have hstay := arrowAfterAsync_of_calm h last t.start false
    simp [arrow?, hasync, hstay]
  | true =>
    obtain ⟨hkind, hne⟩ := hword rfl
    obtain ⟨u, us, rfl⟩ := List.exists_cons_of_ne_nil hne
    have hmove := arrowAfterAsync_of_calm h.tail t.stop t.start true
    simp [arrow?, hasync, advance_cons, hkind, hmove]

end Grammar

/-- An operator or bracket that ends an operand of power `level`, and does not take it for its own
left operand with that power or more. -/
def Punct.halts (level : Nat) (p : Punct) : Bool :=
  match p.binaryPower? with
  | some power => power.left < level && p ≠ .less
  | none => p ∈ [.comma, .parenClose, .bracketClose, .semicolon, .colon, .question, .assign,
      .plusAssign, .minusAssign]

namespace Token

variable {level level' : Nat} {t : Token}

def Halts (level : Nat) (t : Token) : Prop :=
  ∃ p, t.kind = .punct p ∧ p.halts level = true

theorem Halts.mono (h : t.Halts level) (hle : level ≤ level') : t.Halts level' := by
  obtain ⟨p, hk, hp⟩ := h
  refine ⟨p, hk, ?_⟩
  unfold Punct.halts at hp ⊢
  split
  · next power hpower =>
    simp only [hpower, Bool.and_eq_true, decide_eq_true_eq] at hp ⊢
    exact ⟨by omega, hp.2⟩
  · next hpower => simpa only [hpower] using hp

theorem Halts.not_word (h : t.Halts level) : t.kind ≠ .word := by
  obtain ⟨p, hk, -⟩ := h
  simp [hk]

def Concludes (t : Token) : Prop :=
  t.kind ∈ [.punct .comma, .punct .parenClose, .punct .bracketClose, .punct .semicolon,
    .punct .colon]

theorem Concludes.halts (h : t.Concludes) (level : Nat) : t.Halts level := by
  simp only [Concludes, List.mem_cons, List.not_mem_nil, or_false] at h
  rcases h with h | h | h | h | h <;> exact ⟨_, h, rfl⟩

theorem Concludes.assignment?_eq_none (h : t.Concludes) : t.kind.assignment? = none := by
  simp only [Concludes, List.mem_cons, List.not_mem_nil, or_false] at h
  rcases h with h | h | h | h | h <;> rw [h] <;> rfl

def BeginsPrimary (t : Token) : Prop :=
  t.kind ∈ [.string, .number, .punct .parenOpen, .punct .bracketOpen] ∨
    t.kind = .word ∧ isReserved t.text = false

theorem BeginsPrimary.sign?_eq_none (h : t.BeginsPrimary) : Grammar.sign? t = none := by
  rcases h with hk | ⟨hk, hr⟩
  · simp only [List.mem_cons, List.not_mem_nil, or_false] at hk
    rcases hk with hk | hk | hk | hk <;> simp [Grammar.sign?, hk]
  · simp [Grammar.sign?, hk,
      Grammar.ne_of_isReserved hr (by decide : isReserved "typeof" = true),
      Grammar.ne_of_isReserved hr (by decide : isReserved "void" = true)]

theorem BeginsPrimary.not_new (h : t.BeginsPrimary) : t.isWord "new" = false := by
  rcases h with hk | ⟨hk, hr⟩
  · simp only [List.mem_cons, List.not_mem_nil, or_false] at hk
    rcases hk with hk | hk | hk | hk <;> simp [Token.isWord, hk]
  · simp [Token.isWord, Grammar.ne_of_isReserved hr (by decide : isReserved "new" = true)]

def BeginsOperand (t : Token) : Prop :=
  t.BeginsPrimary ∨ (Grammar.sign? t).isSome

theorem BeginsOperand.kind_not_mem (h : t.BeginsOperand) :
    t.kind ∉ [.punct .ellipsis, .punct .parenClose, .punct .bracketClose, .punct .semicolon,
      .punct .braceClose, .eof] := by
  intro hmem
  simp only [List.mem_cons, List.not_mem_nil, or_false] at hmem
  rcases h with (h | h) | h <;> rcases hmem with hk | hk | hk | hk | hk | hk <;>
    simp [hk, Grammar.sign?] at h

end Token

/-- Binary operators group to the left, and hold tighter than a conditional and less tight than a
sign. -/
theorem Punct.binaryPower?_eq_some {p : Punct} {w : Power} (h : p.binaryPower? = some w) :
    w.right = w.left + 1 ∧ Power.conditionalLevel < w.left ∧ w.left < Power.unaryLevel ∧
      Power.levelOfText p.text = w.left := by
  cases p <;> simp only [binaryPower?, Option.some.injEq, reduceCtorEq] at h <;> subst h <;> decide

namespace Grammar

open Quasiquote.Parser

variable {g : Grammar} {d last level least power : Nat} {t : Token} {ts us rest : List Token}
  {e : Node}

theorem postfixStep_halts (ht : t.Halts level) (start : Nat) (n : Node) :
    g.postfixStep start n ⟨last, t :: rest⟩ = .done (n, false) ⟨last, t :: rest⟩ := by
  obtain ⟨p, hk, hp⟩ := ht
  have hopens : p ∉ [.dot, .bracketOpen, .parenOpen, .less] := by
    rintro hmem
    simp only [List.mem_cons, List.not_mem_nil, or_false] at hmem
    rcases hmem with rfl | rfl | rfl | rfl <;> simp [Punct.halts, Punct.binaryPower?] at hp
  simp only [List.mem_cons, List.not_mem_nil, or_false, not_or] at hopens
  simp [postfixStep, hk, hopens]

theorem binaryStep_halts (ht : t.Halts level) (hle : level ≤ least) (start : Nat) (left : Node) :
    g.binaryStep least start left ⟨last, t :: rest⟩ = .done (left, false) ⟨last, t :: rest⟩ := by
  obtain ⟨p, hk, hp⟩ := ht
  have hword : t.isWord "as" = false := by simp [Token.isWord, hk]
  unfold Punct.halts at hp
  cases hpower : p.binaryPower? with
  | none => simp [binaryStep, hword, hk, TokenKind.binary?, hpower]
  | some power =>
    simp only [hpower, Bool.and_eq_true, decide_eq_true_eq] at hp
    have hlt : power.left < least := by omega
    simp [binaryStep, hword, hk, TokenKind.binary?, hpower, hlt]

theorem toDepth_expression (d : Nat) :
    (toDepth (d + 1)).expression = (toDepth d).assignment := rfl

theorem toDepth_operation (d : Nat) : (toDepth (d + 1)).operation = (toDepth d).binary := rfl

theorem toDepth_operand (d : Nat) : (toDepth (d + 1)).operand = (toDepth d).unary := rfl

/-- Tokens whose reading, as a primary expression and what is applied to it, comes to stand behind
them. -/
def Applies (ts : List Token) (e : Node) : Prop :=
  ∀ d t rest, Token.Calm d (ts ++ t :: rest) → t.kind ≠ .word → ∀ start last,
    ∃ a c n last', (toDepth d).primary ⟨last, ts ++ t :: rest⟩ = .done a c ∧
      Steps ((toDepth d).postfixStep start) a c n ⟨last', t :: rest⟩ ∧ n.Alike e

def Signs (ts : List Token) (e : Node) : Prop :=
  ∀ d t rest level, Token.Calm d (ts ++ t :: rest) → t.Halts level →
    Yields (toDepth d).unary ts (Node.Alike · e) (t :: rest)

/-- Tokens whose reading, as an operand and the operators after it, comes to stand behind them,
before whatever is not of more than `power`. -/
def Operates (power : Nat) (ts : List Token) (e : Node) : Prop :=
  ∀ least ≤ power, ∀ d t rest, Token.Calm d (ts ++ t :: rest) → t.Halts (power + 1) →
    ∀ start last, ∃ a c n last', (toDepth d).unary ⟨last, ts ++ t :: rest⟩ = .done a c ∧
      Steps ((toDepth d).binaryStep least start) a c n ⟨last', t :: rest⟩ ∧ n.Alike e

def Expresses (ts : List Token) (e : Node) : Prop :=
  ∀ d t rest, Token.Calm d (ts ++ t :: rest) → t.Concludes →
    Yields (toDepth (d + 1)).expression ts (Node.Alike · e) (t :: rest)

/-- An expression that holds together with some power is read from its tokens wherever that power is
enough. -/
structure Holds (power : Nat) (ts : List Token) (e : Node) : Prop where
  begins : ∃ t r, ts = t :: r ∧ t.BeginsOperand
  primary : Power.postfixLevel ≤ power → ∃ t r, ts = t :: r ∧ t.BeginsPrimary
  applies : Power.postfixLevel ≤ power → Applies ts e
  signs : Power.unaryLevel ≤ power → Signs ts e
  operates : Power.conditionalLevel < power → Operates power ts e
  expresses : Expresses ts e

theorem Operates.mono (h : Operates power ts e) (hle : level ≤ power) : Operates level ts e :=
  fun _ hleast d t rest hcalm ht =>
    h _ (Nat.le_trans hleast hle) d t rest hcalm (ht.mono (Nat.succ_le_succ hle))

theorem Operates.yields (h : Operates power ts e) (hle : least ≤ power)
    (hne : ts ≠ []) (hcalm : Token.Calm d (ts ++ t :: rest)) (ht : t.Halts least) :
    Yields ((toDepth d).binary least) ts (Node.Alike · e) (t :: rest) := by
  intro last
  obtain ⟨u, us, rfl⟩ := List.exists_cons_of_ne_nil hne
  obtain ⟨a, c, n, last', hunary, hsteps, hn⟩ :=
    h least hle d t rest hcalm (ht.mono (Nat.le_succ_of_le hle)) u.start last
  have hloop := hsteps.loop (loop_stop (binaryStep_halts ht (Nat.le_refl _) u.start n))
  rw [List.cons_append] at hunary ⊢
  exact ⟨n, last', by simp [binary, hunary, hloop], hn⟩

/-- Before something that is no question mark operators make up the condition, or all there is. -/
theorem Operates.yields_conditional (h : Operates power ts e) (hne : ts ≠ [])
    (hcalm : Token.Calm d (ts ++ t :: rest)) (ht : t.Halts 0)
    (hquestion : t.kind ≠ .punct .question) :
    Yields (toDepth d).conditional ts (Node.Alike · e) (t :: rest) := by
  intro last
  obtain ⟨n, last', hbinary, hn⟩ := h.yields (Nat.zero_le _) hne hcalm ht last
  obtain ⟨u, us, rfl⟩ := List.exists_cons_of_ne_nil hne
  rw [List.cons_append] at hbinary ⊢
  exact ⟨n, last', by simp [conditional, hbinary, hquestion], hn⟩

theorem Operates.expresses (h : Operates power ts e) (hne : ts ≠ []) : Expresses ts e := by
  intro d t rest hcalm ht last
  have hquestion : t.kind ≠ .punct .question := by
    rintro hk
    simp [Token.Concludes, hk] at ht
  obtain ⟨n, last', hread, hn⟩ :=
    h.yields_conditional hne hcalm (ht.halts 0) hquestion last
  obtain ⟨u, us, rfl⟩ := List.exists_cons_of_ne_nil hne
  rw [toDepth_expression]
  rw [List.cons_append] at hread hcalm ⊢
  exact ⟨n, last', by simp [assignment, arrow?_of_calm hcalm, hread, ht.assignment?_eq_none], hn⟩

theorem Signs.operates (h : Signs ts e) (power : Nat) : Operates power ts e := by
  intro least _ d t rest hcalm ht start last
  obtain ⟨n, last', hunary, hn⟩ := h d t rest _ hcalm ht last
  exact ⟨n, _, n, last', hunary, .refl _ _, hn⟩

theorem Applies.signs (h : Applies ts e) (hbegins : ∃ t r, ts = t :: r ∧ t.BeginsPrimary) :
    Signs ts e := by
  intro d t rest level hcalm ht last
  obtain ⟨u, us, rfl, hu⟩ := hbegins
  obtain ⟨a, c, n, last', hprimary, hsteps, hn⟩ := h d t rest hcalm ht.not_word u.start last
  have hloop := hsteps.loop (loop_stop (postfixStep_halts ht u.start n))
  rw [List.cons_append] at hprimary ⊢
  exact ⟨n, last', by simp [unary, hu.sign?_eq_none, leftHandSide, hu.not_new, hprimary, hloop], hn⟩

theorem holds_of_expresses (hbegins : ∃ t r, ts = t :: r ∧ t.BeginsOperand)
    (h : Expresses ts e) (hle : power ≤ Power.conditionalLevel) : Holds power ts e := by
  simp only [Power.conditionalLevel] at hle
  refine ⟨hbegins, fun hp => ?_, fun hp => ?_, fun hp => ?_, fun hp => ?_, h⟩ <;>
    simp only [Power.postfixLevel, Power.unaryLevel, Power.conditionalLevel] at hp <;> omega

theorem holds_of_operates (hbegins : ∃ t r, ts = t :: r ∧ t.BeginsOperand)
    (h : Operates power ts e) (hlt : power < Power.unaryLevel) : Holds power ts e := by
  have hne : ts ≠ [] := by
    obtain ⟨t, r, rfl, -⟩ := hbegins
    simp
  simp only [Power.unaryLevel] at hlt
  refine ⟨hbegins, fun hp => ?_, fun hp => ?_, fun hp => ?_, fun _ => h, h.expresses hne⟩ <;>
    simp only [Power.postfixLevel, Power.unaryLevel] at hp <;> omega

theorem holds_of_signs (hbegins : ∃ t r, ts = t :: r ∧ t.BeginsOperand) (h : Signs ts e)
    (hlt : power < Power.postfixLevel) : Holds power ts e := by
  have hne : ts ≠ [] := by
    obtain ⟨t, r, rfl, -⟩ := hbegins
    simp
  exact ⟨hbegins, fun hp => absurd hlt (Nat.not_lt.mpr hp),
    fun hp => absurd hlt (Nat.not_lt.mpr hp), fun _ => h, fun _ => h.operates power,
    (h.operates 0).expresses hne⟩

theorem holds_of_applies (hbegins : ∃ t r, ts = t :: r ∧ t.BeginsPrimary) (h : Applies ts e)
    (power : Nat) : Holds power ts e := by
  have hsigns := h.signs hbegins
  have hne : ts ≠ [] := by
    obtain ⟨t, r, rfl, -⟩ := hbegins
    simp
  refine ⟨?_, fun _ => hbegins, fun _ => h, fun _ => hsigns, fun _ => hsigns.operates power,
    (hsigns.operates 0).expresses hne⟩
  obtain ⟨t, r, hts, ht⟩ := hbegins
  exact ⟨t, r, hts, .inl ht⟩

theorem Holds.mono (h : Holds power ts e) (hle : level ≤ power) : Holds level ts e where
  begins := h.begins
  primary hp := h.primary (Nat.le_trans hp hle)
  applies hp := h.applies (Nat.le_trans hp hle)
  signs hp := h.signs (Nat.le_trans hp hle)
  operates hp := (h.operates (Nat.lt_of_lt_of_le hp hle)).mono hle
  expresses := h.expresses

section

variable {a b a' b' : Nat} {mark : Mark}

theorem applies_of_primary (h : ∀ (g : Grammar) last u rest, u.kind ≠ .word →
    ∃ n c, g.primary ⟨last, t :: u :: rest⟩ = .done n ⟨c, u :: rest⟩ ∧ n.Alike e) :
    Applies [t] e := by
  intro d u rest _ hu start last
  obtain ⟨n, c, hread, hn⟩ := h (toDepth d) last u rest hu
  exact ⟨n, _, n, c, hread, .refl _ _, hn⟩

theorem applies_word {name : String} (hr : isReserved name = false) :
    Applies [.word name a b] (.mk .identifier mark [.text name]) := by
  refine applies_of_primary fun g last u rest hu => ⟨_, b, primary_word hr hu a b, ?_⟩
  simp [Node.Alike, Node.gist_mk]

theorem applies_string (value : String) (single : Bool) :
    Applies [.string value single a b] (.mk .stringLiteral mark [.text value, .flag single]) := by
  refine applies_of_primary fun g last u rest _ => ⟨_, b, primary_string value single a b, ?_⟩
  simp [Node.Alike, Node.gist_mk]

theorem applies_number (digits : String) :
    Applies [.number digits a b] (.mk .numericLiteral mark [.text digits]) := by
  refine applies_of_primary fun g last u rest _ => ⟨.mk .numericLiteral
    { span := some ⟨a, max b a⟩ } [.text digits], b, ?_, by simp [Node.Alike, Node.gist_mk]⟩
  simp [Grammar.primary, numericLiteral, advance_cons]

/-- An expression in parentheses may stand wherever an operand may. -/
theorem applies_parens {e' : Node} (h : Expresses ts e) (he : e.Alike e') :
    Applies (.punct .parenOpen a b :: (ts ++ [.punct .parenClose a' b'])) e' := by
  intro d t rest hcalm _ start last
  rw [List.cons_append, List.append_assoc, List.singleton_append] at hcalm ⊢
  obtain ⟨d, rfl, hinner⟩ := hcalm.inside
  obtain ⟨n, last', hread, hn⟩ := h d _ _ hinner (by simp [Token.Concludes]) b
  refine ⟨.mk .parenthesizedExpression { span := some ⟨a, max b' a⟩ } [.node n], _, _, b', ?_,
    .refl _ _, (Node.gist_parens _ n).trans (hn.trans he)⟩
  simp [Grammar.primary, advance_cons, hread, expect_punct]

/-- What is applied to an expression is read in one round more. -/
theorem Applies.extend {e' : Node} (h : Applies ts e)
    (hus : ∃ u r, us = u :: r ∧ u.kind ≠ .word)
    (hstep : ∀ d t rest, Token.Calm d (us ++ t :: rest) → ∀ start last n, n.Alike e →
      ∃ m last', (toDepth d).postfixStep start n ⟨last, us ++ t :: rest⟩ =
        .done (m, true) ⟨last', t :: rest⟩ ∧ m.Alike e') : Applies (ts ++ us) e' := by
  intro d t rest hcalm _ start last
  obtain ⟨u, r, rfl, hu⟩ := hus
  rw [List.append_assoc] at hcalm ⊢
  obtain ⟨a, c, n, last₁, hprimary, hsteps, hn⟩ := h d u (r ++ t :: rest) hcalm hu start last
  obtain ⟨m, last', hread, hm⟩ := hstep d t rest hcalm.of_append start last₁ n hn
  refine ⟨a, c, m, last', hprimary, hsteps.tail hread ?_, hm⟩
  simp only [List.length_append, List.length_cons]
  omega

theorem Applies.access (h : Applies ts e) (name : String) {mark' : Mark} :
    Applies (ts ++ [.punct .dot a b, .word name a' b'])
      (.mk .propertyAccessExpression mark
        [.node e, .node (.mk .identifier mark' [.text name])]) := by
  refine h.extend ⟨_, _, rfl, by simp⟩ fun d t rest _ start last n hn =>
    ⟨_, b', postfixStep_member start n name last a b a' b' (t :: rest), ?_⟩
  have hgist : n.gist = e.gist := hn
  simp [Node.Alike, Node.gist_mk, Field.gist, hgist]

theorem Applies.elementAccess {i : Node} (h : Applies ts e) (hi : Expresses us i) :
    Applies (ts ++ .punct .bracketOpen a b :: (us ++ [.punct .bracketClose a' b']))
      (.mk .elementAccessExpression mark [.node e, .node i]) := by
  refine h.extend ⟨_, _, rfl, by simp⟩ fun d t rest hcalm start last n hn => ?_
  rw [List.cons_append, List.append_assoc, List.singleton_append] at hcalm ⊢
  obtain ⟨d, rfl, hinner⟩ := hcalm.inside
  obtain ⟨m, last', hread, hm⟩ := hi d _ _ hinner (by simp [Token.Concludes]) b
  refine ⟨.mk .elementAccessExpression { span := some ⟨start, max b' start⟩ } [.node n, .node m],
    b', ?_, ?_⟩
  · simp [postfixStep, advance_cons, hread, expect_punct]
  · have hgist : n.gist = e.gist := hn
    have hgist' : m.gist = i.gist := hm
    simp [Node.Alike, Node.gist_mk, Field.gist, hgist, hgist']

theorem elements_yield {close : Punct} {atEnd : Parser Unit} {tss : List (List Token)}
    {es : List Node} (hclose : close = .parenClose ∨ close = .bracketClose) (hend : Idle atEnd)
    (h : List.Forall₂ (Holds Power.assignmentLevel) tss es) (hts : Token.Joined .comma tss ts)
    (ht : t.kind = .punct close) (hcalm : Token.Calm d (ts ++ t :: rest)) :
    Yields (commaList close atEnd (toDepth (d + 1)).element) ts (List.Forall₂ Node.Alike · es)
      (t :: rest) := by
  refine commaList_yields hend (by rcases hclose with rfl | rfl <;> decide)
    (Token.calm_lasting d) (h.imp fun us e he => ?_) hts ht hcalm
  obtain ⟨u, r, rfl, hu⟩ := he.begins
  have hkind := hu.kind_not_mem
  simp only [List.mem_cons, List.not_mem_nil, or_false, not_or] at hkind
  refine ⟨⟨u, r, rfl, ?_, hkind.2.2.2.2.2⟩, fun v rest hv hcalm last => ?_⟩
  · rcases hclose with rfl | rfl
    · exact hkind.2.1
    · exact hkind.2.2.1
  · have hconcludes : v.Concludes := by
      rcases hclose with rfl | rfl <;> rcases hv with hv | hv <;> simp [Token.Concludes, hv]
    have hread := he.expresses d v rest hcalm hconcludes last
    rw [List.cons_append] at hread ⊢
    rwa [element_of_expression hkind.1]

section

variable {tss : List (List Token)} {es : List Node}

theorem Applies.call (h : Applies ts e) (hes : List.Forall₂ (Holds Power.assignmentLevel) tss es)
    (hus : Token.Joined .comma tss us) :
    Applies (ts ++ .punct .parenOpen a b :: (us ++ [.punct .parenClose a' b']))
      (.mk .callExpression mark [.node e, .list [], .list es]) := by
  refine h.extend ⟨_, _, rfl, by simp⟩ fun d t rest hcalm start last n hn => ?_
  rw [List.cons_append, List.append_assoc, List.singleton_append] at hcalm ⊢
  obtain ⟨d, rfl, hinner⟩ := hcalm.inside
  have hidle : Idle (do if ← atEof then reject .missingClosingParen "argument list") := by
    simp +contextual [Idle]
  obtain ⟨ms, last', hread, hms⟩ :=
    elements_yield (.inl rfl) hidle hes hus (Token.punct_kind ..) hinner b
  refine ⟨.mk .callExpression { span := some ⟨start, max b' start⟩ }
    [.node n, .list [], .list ms], b', ?_, ?_⟩
  · simp [postfixStep, application, arguments, hread, expect_punct]
  · have hgist : n.gist = e.gist := hn
    simp [Node.Alike, Node.gist_mk, Field.gist, hgist, Node.map_gist_of_alike hms]

theorem applies_array (hes : List.Forall₂ (Holds Power.assignmentLevel) tss es)
    (hus : Token.Joined .comma tss us) :
    Applies (.punct .bracketOpen a b :: (us ++ [.punct .bracketClose a' b']))
      (.mk .arrayLiteralExpression mark [.list es]) := by
  intro d t rest hcalm _ start last
  rw [List.cons_append, List.append_assoc, List.singleton_append] at hcalm ⊢
  obtain ⟨d, rfl, hinner⟩ := hcalm.inside
  have hidle : Idle (do if ← atEof then reject .unexpectedEof "array literal" ["']'"]) := by
    simp +contextual [Idle]
  obtain ⟨ms, last', hread, hms⟩ :=
    elements_yield (.inr rfl) hidle hes hus (Token.punct_kind ..) hinner b
  refine ⟨.mk .arrayLiteralExpression { span := some ⟨a, max b' a⟩ } [.list ms], _, _, b', ?_,
    .refl _ _, ?_⟩
  · simp [Grammar.primary, arrayLiteral, advance_cons, hread, expect_punct]
  · simp [Node.Alike, Node.gist_mk, Field.gist, Node.map_gist_of_alike hms]

end

theorem signs_sign {sign : String} (hsign : sign? t = some sign) (hne : t.kind ≠ .eof)
    (h : Signs ts e) : Signs (t :: ts) (.mk .prefixUnaryExpression mark [.text sign, .node e]) := by
  intro d u rest level hcalm hu last
  rw [List.cons_append] at hcalm ⊢
  obtain ⟨d, rfl, hinner⟩ := hcalm.inside
  obtain ⟨n, last', hread, hn⟩ := h d u rest level hinner hu t.stop
  refine ⟨.mk .prefixUnaryExpression { span := some ⟨t.start, max last' t.start⟩ }
    [.text sign, .node n], last', ?_, ?_⟩
  · rw [← toDepth_operand] at hread
    simp [Grammar.unary, hsign, advance_cons hne, hread]
  · have hgist : n.gist = e.gist := hn
    simp [Node.Alike, Node.gist_mk, Field.gist, hgist]

/-- An operator between a left operand of its own power and a right one of more. -/
theorem Operates.binary {p : Punct} {w : Power} {l r : Node} (hp : p.binaryPower? = some w)
    (hless : p ≠ .less) (hl : Operates w.left ts l) (hr : Operates (w.left + 1) us r)
    (hne : us ≠ []) :
    Operates w.left (ts ++ .punct p a b :: us)
      (.mk .binaryExpression mark [.node l, .text p.text, .node r]) := by
  intro least hleast d t rest hcalm ht start last
  rw [List.append_assoc, List.cons_append] at hcalm ⊢
  -- The left operand may hold operators of the same power, so the loop goes on where it stands.
  have hop : (Token.punct p a b).Halts (w.left + 1) := ⟨p, rfl, by simp [Punct.halts, hp, hless]⟩
  obtain ⟨x, c, n, last₁, hunary, hsteps, hn⟩ := hl least hleast d _ _ hcalm hop start last
  obtain ⟨d, rfl, hinner⟩ := hcalm.of_append.inside
  obtain ⟨m, last', hread, hm⟩ := hr.yields (Nat.le_refl _) hne hinner ht b
  refine ⟨x, c, .mk .binaryExpression { span := some ⟨start, max last' start⟩ }
    [.node n, .text p.text, .node m], last', hunary, hsteps.tail ?_ ?_, ?_⟩
  · have hright := (Punct.binaryPower?_eq_some hp).1
    have hle : ¬w.left < least := Nat.not_lt.mpr hleast
    rw [← toDepth_operation] at hread
    simp [binaryStep, Token.isWord, TokenKind.binary?, hp, hle, advance_cons, hright, hread]
  · simp only [List.length_append, List.length_cons]
    omega
  · have hgist : n.gist = l.gist := hn
    have hgist' : m.gist = r.gist := hm
    simp [Node.Alike, Node.gist_mk, Field.gist, hgist, hgist']

/-- Something of any power may be assigned to, as far as reading goes. -/
theorem Operates.assignment {p : Punct} {l r : Node} (hp : p.isAssignment = true)
    (hl : Operates power ts l) (hne : ts ≠ []) (hr : Expresses us r) :
    Expresses (ts ++ .punct p a b :: us)
      (.mk .binaryExpression mark [.node l, .text p.text, .node r]) := by
  intro d t rest hcalm ht last
  rw [List.append_assoc, List.cons_append] at hcalm ⊢
  have hop : (Token.punct p a b).Halts 0 := by
    refine ⟨p, rfl, ?_⟩
    cases p <;> first | rfl | exact absurd hp (by decide)
  have hquestion : (Token.punct p a b).kind ≠ .punct .question := by
    rintro hk
    cases hk
    exact absurd hp (by decide)
  obtain ⟨n, last₁, hleft, hn⟩ := hl.yields_conditional hne hcalm hop hquestion last
  have hstart := hcalm
  obtain ⟨u, vs, rfl⟩ := List.exists_cons_of_ne_nil hne
  rw [List.cons_append] at hstart hleft ⊢
  have harrow := arrow?_of_calm hstart last
  obtain ⟨d, rfl, hinner⟩ := hcalm.of_append.inside
  obtain ⟨m, last', hread, hm⟩ := hr d t rest hinner ht b
  refine ⟨.mk .binaryExpression { span := some ⟨u.start, max last' u.start⟩ }
    [.node n, .text p.text, .node m], last', ?_, ?_⟩
  · rw [toDepth_expression]
    simp [Grammar.assignment, harrow, hleft, TokenKind.assignment?, hp, advance_cons, hread]
  · have hgist : n.gist = l.gist := hn
    have hgist' : m.gist = r.gist := hm
    simp [Node.Alike, Node.gist_mk, Field.gist, hgist, hgist']

theorem Operates.conditional {x y : Node} {vs : List Token} (hc : Operates power ts e)
    (hne : ts ≠ []) (hx : Expresses us x) (hy : Expresses vs y) :
    Expresses (ts ++ .punct .question a b :: (us ++ .punct .colon a' b' :: vs))
      (.mk .conditionalExpression mark [.node e, .node x, .node y]) := by
  intro d t rest hcalm ht last
  simp only [List.append_assoc, List.cons_append] at hcalm ⊢
  obtain ⟨n, last₁, hcondition, hn⟩ :=
    hc.yields (Nat.zero_le _) hne hcalm ⟨.question, rfl, rfl⟩ last
  have hstart := hcalm
  obtain ⟨u, ws, rfl⟩ := List.exists_cons_of_ne_nil hne
  rw [List.cons_append] at hstart hcondition ⊢
  have harrow := arrow?_of_calm hstart last
  obtain ⟨d, rfl, hinner⟩ := hcalm.of_append.inside
  obtain ⟨m, last₂, htrue, hm⟩ := hx d _ _ hinner (by simp [Token.Concludes]) b
  have hlater := hinner.of_append
  obtain ⟨k, last', hfalse, hk⟩ :=
    hy d t rest (Token.Calm.of_append_cons hlater) ht b'
  refine ⟨.mk .conditionalExpression { span := some ⟨u.start, max last' u.start⟩ }
    [.node n, .node m, .node k], last', ?_, ?_⟩
  · rw [toDepth_expression]
    simp [Grammar.assignment, harrow, Grammar.conditional, hcondition, htrue, expect_punct, hfalse,
      ht.assignment?_eq_none]
  · have hgist : n.gist = e.gist := hn
    have hgist' : m.gist = x.gist := hm
    have hgist'' : k.gist = y.gist := hk
    simp [Node.Alike, Node.gist_mk, Field.gist, hgist, hgist', hgist'']

end

end Grammar

end Quasiquote
