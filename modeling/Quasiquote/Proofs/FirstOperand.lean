import Quasiquote.Proofs.Extents
import Quasiquote.Proofs.Locating

namespace Quasiquote

def Kind.isLeftRecursive : Kind → Bool
  | .propertyAccessExpression | .elementAccessExpression | .callExpression
  | .taggedTemplateExpression | .binaryExpression | .asExpression | .conditionalExpression
  | .qualifiedName => true
  | _ => false

namespace Node

def start? (n : Node) : Option Nat :=
  n.span.map Span.start

def OperandStarts (r : Nat → Nat → Prop) (n : Node) : Prop :=
  ∃ operand start start', n.children.head? = some operand ∧ n.start? = some start ∧
    operand.start? = some start' ∧ r start start'

def innermostAccess? (n : Node) : Option Node :=
  if n.kind = .propertyAccessExpression then
    match n.smaller? .expression with
    | some ⟨c, _⟩ => c.innermostAccess?.or (some n)
    | none => some n
  else none
termination_by sizeOf n

def calleeAccess? (n : Node) : Option Node :=
  if n.kind = .newExpression then (n.child? .expression).bind innermostAccess? else none

theorem innermostAccess?_eq_none_iff {n : Node} :
    n.innermostAccess? = none ↔ n.kind ≠ .propertyAccessExpression := by
  rw [innermostAccess?]
  split
  · next hk => split <;> simp [hk]
  · next hk => simp [hk]

theorem innermostAccess?_over (ts : List Token) (n name : Node) :
    (Node.over .propertyAccessExpression ts [.node n, .node name]).innermostAccess? =
      n.innermostAccess?.or
        (some (Node.over .propertyAccessExpression ts [.node n, .node name])) := by
  have hkind : (Node.over .propertyAccessExpression ts [.node n, .node name]).kind =
      .propertyAccessExpression := rfl
  rw [innermostAccess?, if_pos hkind]
  rfl

theorem start?_over {ts : List Token} (h : ts ≠ []) (kind : Kind) (fields : List Field) :
    (Node.over kind ts fields).start? = ts.head?.map Token.start := by
  obtain ⟨t, us, rfl⟩ := List.exists_cons_of_ne_nil h
  rfl

/-- A node whose tokens begin with those of its first child begins with it. -/
theorem operandStarts_over {ls ts : List Token} {left : Node}
    (hleft : left.start? = ls.head?.map Token.start) (hne : ls ≠ []) (hts : ls <+: ts) (kind : Kind)
    (fields : List Field) : (Node.over kind ts (.node left :: fields)).OperandStarts (· = ·) := by
  obtain ⟨t, us, rfl⟩ := List.exists_cons_of_ne_nil hne
  obtain ⟨vs, rfl⟩ := hts
  exact ⟨left, t.start, t.start, rfl, rfl, hleft, rfl⟩

end Node

namespace Derives

variable {ts : List Token} {n : Node}

theorem start?_of_expression (h : Derives .expression ts [n]) :
    n.start? = ts.head?.map Token.start := by
  obtain ⟨_, kind, fields, hn, hm, -⟩ := h.makes_of_expression
  obtain rfl := List.singleton_inj.mp hn
  exact Node.start?_over hm.ne_nil kind fields

theorem start?_of_entity (h : Derives .entity ts [n]) : n.start? = ts.head?.map Token.start := by
  have hne := h.ne_nil rfl
  cases h with
  | entity h =>
    obtain ⟨kind, fields, hn, -⟩ := h.exists_makes rfl
    obtain rfl := List.singleton_inj.mp hn
    exact Node.start?_over hne kind fields
  | made => exact Node.start?_over hne _ _

theorem start?_of_callee (h : Derives .callee ts [n]) (hk : n.kind = .propertyAccessExpression) :
    n.start? = ts.head?.map Token.start := by
  have hne := h.ne_nil rfl
  cases h with
  | callee _ _ hne => exact absurd hk hne
  | made => exact Node.start?_over hne _ _

end Derives

section

variable {R : Token → Token → Prop} {P : Token → Prop}

/-- In a callee that begins with the token `t`, the operand stands after it and the accesses begin
with it. -/
structure Node.BeginsAfter (t : Token) (n : Node) : Prop where
  operand : n.kind ≠ .propertyAccessExpression → ∃ start, n.start? = some start ∧ t.start < start
  access : ∀ m, n.innermostAccess? = some m → m.OperandStarts (· < ·) ∧ m.start? = some t.start

theorem Derives.beginsAfter (hnew : ∀ t u, P t → t.isWord "new" = true → R t u → t.start < u.start)
    {p : Phrase} {ts : List Token} {ns : List Node} (h : Derives p ts ns) (hp : p = .callee)
    (hrun : Token.Runs R P ts) : ∃ t us, ts = t :: us ∧ ∀ n ∈ ns, n.BeginsAfter t := by
  induction h with
  | @callee t ts n ht h hk =>
    refine ⟨t, ts, rfl, List.forall_mem_singleton.mpr ⟨fun _ => ?_, ?_⟩⟩
    · obtain ⟨u, us, rfl⟩ := List.exists_cons_of_ne_nil (h.ne_nil rfl)
      obtain ⟨hP, -, hjoins⟩ := Token.runs_cons.mp hrun
      exact ⟨u.start, h.start?_of_expression, hnew t u hP ht (hjoins t rfl u rfl)⟩
    · intro m hm
      rw [Node.innermostAccess?_eq_none_iff.mpr hk] at hm
      cases hm
  | made h _ ih =>
    subst hp
    cases h with
    | @calleeAccess _ ts _ n name h =>
      obtain ⟨t, us, rfl, hbegins⟩ := ih h rfl (Token.runs_append.mp hrun).1
      have hn := List.forall_mem_singleton.mp hbegins
      refine ⟨t, _, rfl, List.forall_mem_singleton.mpr ⟨fun hk => absurd rfl hk, fun m hm => ?_⟩⟩
      rw [Node.innermostAccess?_over] at hm
      cases hinner : n.innermostAccess? with
      | some m' =>
        rw [hinner, Option.some_or] at hm
        obtain rfl := Option.some.inj hm
        exact hn.access _ hinner
      | none =>
        rw [hinner, Option.none_or] at hm
        obtain rfl := Option.some.inj hm
        obtain ⟨start, hstart, hlt⟩ := hn.operand (Node.innermostAccess?_eq_none_iff.mp hinner)
        exact ⟨⟨n, t.start, start, rfl, rfl, hstart, hlt⟩, rfl⟩
  | _ => cases hp

namespace Node

/-- What is known of the starts in a subtree. Its innermost access may begin before its operand if
the subtree is a callee itself. -/
structure Settled (isCallee : Bool) (n : Node) : Prop where
  starts : ∀ m ∈ n.preorder, m.kind.isLeftRecursive = true →
    m.OperandStarts (· = ·) ∨ (∃ w ∈ n.preorder, w.calleeAccess? = some m) ∨
      (isCallee = true ∧ n.innermostAccess? = some m)
  callees : ∀ w ∈ n.preorder, ∀ m, w.calleeAccess? = some m →
    m.OperandStarts (· < ·) ∧ m.start? = w.start?

variable {n c : Node}

theorem Settled.as_callee (h : n.Settled false) : n.Settled true := by
  refine ⟨fun m hm hk => ?_, h.callees⟩
  obtain hstarts | hcallee | ⟨⟨⟩, -⟩ := h.starts m hm hk
  · exact .inl hstarts
  · exact .inr (.inl hcallee)

/-- A node settles its own start and that of the accesses which its children leave open. -/
theorem settled_of_children {isCallee : Bool}
    (hstarts : n.kind.isLeftRecursive = true →
      n.OperandStarts (· = ·) ∨ (isCallee = true ∧ n.innermostAccess? = some n))
    (hcallee : ∀ m, n.calleeAccess? = some m → m.OperandStarts (· < ·) ∧ m.start? = n.start?)
    (h : ∀ c ∈ n.children, ∃ isOpen, c.Settled isOpen ∧
      (isOpen = true → ∀ m, c.innermostAccess? = some m →
        n.calleeAccess? = some m ∨ (isCallee = true ∧ n.innermostAccess? = some m))) :
    n.Settled isCallee := by
  constructor
  · intro m hm hk
    rw [preorder_eq, List.mem_cons, List.mem_flatMap] at hm
    obtain rfl | ⟨c, hc, hm⟩ := hm
    · exact (hstarts hk).imp_right .inr
    obtain ⟨isOpen, hsettled, hopen⟩ := h c hc
    obtain hstart | ⟨w, hw, hcall⟩ | ⟨hisOpen, hinner⟩ := hsettled.starts m hm hk
    · exact .inl hstart
    · have hmem := (preorder_sublist_of_mem_preorder (mem_preorder_of_mem_children hc)).subset hw
      exact .inr (.inl ⟨w, hmem, hcall⟩)
    · obtain hcall | hinner := hopen hisOpen m hinner
      · exact .inr (.inl ⟨n, self_mem_preorder n, hcall⟩)
      · exact .inr (.inr hinner)
  · intro w hw m hm
    rw [preorder_eq, List.mem_cons, List.mem_flatMap] at hw
    obtain rfl | ⟨c, hc, hw⟩ := hw
    · exact hcallee m hm
    · obtain ⟨isOpen, hsettled, -⟩ := h c hc
      exact hsettled.callees w hw m hm

theorem settled_over {kind : Kind} {ts : List Token} {fields : List Field}
    (hstarts : kind.isLeftRecursive = true → (Node.over kind ts fields).OperandStarts (· = ·))
    (hnew : kind ≠ .newExpression) (h : ∀ c ∈ fields.flatMap Field.nodes, c.Settled false) :
    (Node.over kind ts fields).Settled false := by
  refine settled_of_children (fun hk => .inl (hstarts hk)) (fun m hm => ?_)
    fun c hc => ⟨false, h c hc, by rintro ⟨⟩⟩
  have hnone : (Node.over kind ts fields).calleeAccess? = none := if_neg hnew
  cases hnone.symm.trans hm

end Node

namespace Makes

variable {D : Phrase → List Token → List Node → Prop} {p : Phrase} {ts : List Token} {kind : Kind}
  {fields : List Field}

theorem isCallee_eq_false (h : Makes D p ts kind fields) (hp : p ≠ .callee) :
    p.isCallee = false := by
  cases h <;> first | rfl | exact absurd rfl hp

/-- The tokens of an operation begin with those of its operand. -/
theorem operandStarts (h : Makes Derives p ts kind fields) (hp : p ≠ .callee)
    (hk : kind.isLeftRecursive = true) : (Node.over kind ts fields).OperandStarts (· = ·) := by
  cases h with
  | calleeAccess => exact absurd rfl hp
  | qualifiedName h =>
    exact Node.operandStarts_over h.start?_of_entity (h.ne_nil rfl) (by simp) _ _
  | access h | elementAccess h | call h | taggedTemplate h | cast h | binary h | conditional h =>
    exact Node.operandStarts_over h.start?_of_expression (h.ne_nil rfl) (by simp) _ _
  | keywordLiteral _ hl =>
    unfold Grammar.keywordLiteral? at hl
    split at hl <;> cases hl <;> cases hk
  | _ => cases hk

theorem settled (hnew : ∀ t u, P t → t.isWord "new" = true → R t u → t.start < u.start)
    (h : Makes (fun q us ns => Derives q us ns ∧
      (Token.Runs R P us → ∀ n ∈ ns, n.Settled q.isCallee)) p ts kind fields)
    (hrun : Token.Runs R P ts) : (Node.over kind ts fields).Settled p.isCallee := by
  by_cases hp : p = .callee
  · subst hp
    cases h with
    | @calleeAccess _ us vs n name h _ hn =>
      obtain ⟨hus, hvs, -⟩ := Token.runs_append.mp hrun
      have hcallee := List.forall_mem_singleton.mp (h.2 hus)
      have hname := List.forall_mem_singleton.mp (hn.2 (Token.runs_cons.mp hvs).2.1)
      refine Node.settled_of_children (fun _ => ?_) (by rintro _ ⟨⟩) fun c hc => ?_
      · by_cases hk : n.kind = .propertyAccessExpression
        · exact .inl (Node.operandStarts_over (h.1.start?_of_callee hk) (h.1.ne_nil rfl)
            (List.prefix_append _ _) _ _)
        · refine .inr ⟨rfl, ?_⟩
          rw [Node.innermostAccess?_over, Node.innermostAccess?_eq_none_iff.mpr hk, Option.none_or]
      · obtain rfl | rfl : c = n ∨ c = name := by
          simpa [Node.over, Node.children, Node.fields, Field.nodes] using hc
        · refine ⟨true, hcallee, fun _ m hm => .inr ⟨rfl, ?_⟩⟩
          rw [Node.innermostAccess?_over, hm, Option.some_or]
        · exact ⟨false, hname, by rintro ⟨⟩⟩
  rw [h.isCallee_eq_false hp]
  by_cases hk : kind = .newExpression
  · cases h with
    | @newExpression cs _ _ callee typeArguments arguments hc ht ha =>
      obtain ⟨hcs, has, -⟩ := Token.runs_append.mp hrun
      obtain ⟨hcs, hts, -⟩ := Token.runs_append.mp hcs
      have hcallee := List.forall_mem_singleton.mp (hc.2 hcs)
      obtain ⟨t, us, rfl, hbegins⟩ := hc.1.beginsAfter hnew rfl hcs
      refine Node.settled_of_children (by rintro ⟨⟩)
        (List.forall_mem_singleton.mp hbegins).access fun c hc => ?_
      obtain rfl | hc | hc : c = callee ∨ c ∈ typeArguments ∨ c ∈ arguments := by
        simpa [Node.over, Node.children, Node.fields, Field.nodes] using hc
      · exact ⟨true, hcallee, fun _ m hm => .inl hm⟩
      · exact ⟨false, ht.2 hts c hc, by rintro ⟨⟩⟩
      · exact ⟨false, ha.2 has c hc, by rintro ⟨⟩⟩
    | keywordLiteral _ hl =>
      subst hk
      cases Grammar.schema_of_keywordLiteral? hl
    | _ => cases hk
  · refine Node.settled_over ((h.imp And.left).operandStarts hp) hk ?_
    refine (h.within.imp fun hq hus => ?_).compose Token.composes_runs hrun
    have hcallee := mt hq.1.callee (by simp [h.isCallee_eq_false hp, hk])
    exact Bool.eq_false_iff.mpr hcallee ▸ hq.2.2 hus

end Makes

theorem Derives.settled (hnew : ∀ t u, P t → t.isWord "new" = true → R t u → t.start < u.start)
    {p : Phrase} {ts : List Token} {ns : List Node} (h : Derives p ts ns)
    (hrun : Token.Runs R P ts) : ∀ n ∈ ns, n.Settled p.isCallee := by
  induction h with
  | absent | nil | noStatement => simp
  | present _ ih | single _ ih | entity _ ih | element _ ih | blockStatement _ ih => exact ih hrun
  | announced _ _ ih | barredType _ _ ih => exact ih (Token.runs_cons.mp hrun).2.1
  | snoc _ _ _ ihs ih =>
    obtain ⟨hts, hus, -⟩ := Token.runs_append.mp (Token.runs_append.mp hrun).1
    exact List.forall_mem_append.mpr ⟨ihs hts, ih hus⟩
  | joined _ _ _ ihs ih =>
    obtain ⟨hts, hus, -⟩ := Token.runs_append.mp hrun
    exact List.forall_mem_append.mpr ⟨ihs hts, ih (Token.runs_cons.mp hus).2.1⟩
  | enclosed _ _ _ ih | parenthesizedType _ _ _ ih =>
    exact ih (Token.runs_cons.mp (Token.runs_append.mp hrun).1).2.1
  | nextStatement _ _ _ ihs ih =>
    obtain ⟨hts, hus, -⟩ := Token.runs_append.mp hrun
    exact List.forall_mem_append.mpr ⟨ihs hts, ih hus⟩
  | property hp _ ih => rcases hp with rfl | rfl | rfl <;> exact ih hrun
  | operand hp _ ih => rcases hp with rfl | rfl | rfl | rfl <;> exact ih hrun
  | body hp _ ih => rcases hp with rfl | rfl <;> exact ih hrun
  | callee _ _ _ ih => exact fun n hn => (ih (Token.runs_cons.mp hrun).2.1 n hn).as_callee
  | made h hparts ih =>
    exact List.forall_mem_singleton.mpr
      ((h.imp fun hq => ⟨hparts hq, ih hq⟩).settled hnew hrun)

end

theorem Token.start_lt_of_new {source : List Char} {t u : Token} (ht : Stands source t)
    (hword : t.isWord "new" = true) (h : Follows source t u) : t.start < u.start := by
  obtain ⟨before, rest, -, hread⟩ := ht
  obtain ⟨hstart, -, -, hstop⟩ := hread.place
  simp only [isWord, Bool.and_eq_true, decide_eq_true_eq] at hword
  have hlength : 0 < Text.byteLength t.text.toList := by
    rw [hword.2]
    decide
  have hnext := h.stop_le
  rw [Text.byteLength_append] at hstop
  omega

theorem parse_settled {source : String} {tree : Node} (h : parse source = .ok tree) :
    tree.Settled false := by
  obtain ⟨tokens, c, hscan, hdone⟩ := parse_eq_ok h
  obtain ⟨ts, statements, mark, htokens, -, hd, -, rfl⟩ := moduleOfTokens_done hdone
  have hrun : Token.Runs (Token.Follows source.toList) (Token.Stands source.toList) tokens :=
    Token.scan_chain hscan
  rw [htokens, Token.runs_append] at hrun
  have hstatements := hd.settled (fun _ _ => Token.start_lt_of_new) hrun.1
  refine Node.settled_of_children (by rintro ⟨⟩) (by rintro _ ⟨⟩) fun s hs => ⟨false, ?_, by rintro ⟨⟩⟩
  exact hstatements s (by simpa [Node.children, Node.fields] using hs)

/-- Operations begin with their first operand. In the tree of a source, each access, call, template
with a tag, operation, cast, conditional and qualified name begins where its first child does. The
exception is the innermost access in the callee of a `new`, which begins where the `new` does and so
before its first child. -/
theorem parse_starts_at_operand {source : String} {tree : Node} (h : parse source = .ok tree) :
    ∀ n ∈ tree.preorder, n.kind.isLeftRecursive = true →
      ((∀ w ∈ tree.preorder, w.calleeAccess? ≠ some n) → n.OperandStarts (· = ·)) ∧
      ∀ w ∈ tree.preorder, w.calleeAccess? = some n →
        n.OperandStarts (· < ·) ∧ n.start? = w.start? := by
  intro n hn hk
  have hsettled := parse_settled h
  refine ⟨fun hnone => ?_, fun w hw => hsettled.callees w hw n⟩
  obtain hstarts | ⟨w, hw, hcallee⟩ | ⟨⟨⟩, -⟩ := hsettled.starts n hn hk
  · exact hstarts
  · exact absurd hcallee (hnone w hw)

/-- Three accesses: two in a callee, of which the inner one begins with the `new` and not with its
operand, and one in an argument. -/
theorem parse_starts_at_operand_callee :
    ∃ tree, parse "new a.b.c(x.y)" = .ok tree ∧
      (tree.preorder.filter fun n => n.kind.isLeftRecursive).map
        (fun n => (n.start?, n.children.head?.bind Node.start?)) =
        [(some 0, some 0), (some 0, some 4), (some 10, some 10)] ∧
      ∃ n ∈ tree.preorder, n.kind.isLeftRecursive = true ∧ n.start? = some 0 ∧
        n.children.head?.bind Node.start? = some 4 ∧
        ∃ w ∈ tree.preorder, w.calleeAccess? = some n ∧ w.start? = some 0 := by
  have heval : ((parse "new a.b.c(x.y)").toOption.any fun tree =>
      (tree.preorder.filter fun n => n.kind.isLeftRecursive).map
        (fun n => (n.start?, n.children.head?.bind Node.start?)) =
        [(some 0, some 0), (some 0, some 4), (some 10, some 10)]) = true := by
    decide +kernel
  cases h : parse "new a.b.c(x.y)" with
  | error e => simp [h, Except.toOption] at heval
  | ok tree =>
    have hstarts : (tree.preorder.filter fun n => n.kind.isLeftRecursive).map
        (fun n => (n.start?, n.children.head?.bind Node.start?)) =
        [(some 0, some 0), (some 0, some 4), (some 10, some 10)] := by
      simpa [h, Except.toOption] using heval
    refine ⟨tree, rfl, hstarts, ?_⟩
    have hmem : (some 0, some 4) ∈ (tree.preorder.filter fun n => n.kind.isLeftRecursive).map
        (fun n => (n.start?, n.children.head?.bind Node.start?)) := by
      simp [hstarts]
    obtain ⟨n, hn, heq⟩ := List.mem_map.mp hmem
    obtain ⟨hn, hk⟩ := List.mem_filter.mp hn
    obtain ⟨hstart, hoperand⟩ := Prod.mk.inj heq
    obtain ⟨hplain, hcallee⟩ := parse_starts_at_operand h n hn hk
    refine ⟨n, hn, hk, hstart, hoperand, ?_⟩
    by_contra hno
    obtain ⟨operand, start, start', hhead, hstart', hoperand', rfl⟩ := hplain fun w hw hcall =>
      hno ⟨w, hw, hcall, (hcallee w hw hcall).2.symm.trans hstart⟩
    rw [hhead, Option.bind_some, hoperand'] at hoperand
    rw [hstart'] at hstart
    cases hoperand.symm.trans hstart

/-- The access in `new a.b()` covers the bytes of `new a.b`, and its operand begins at byte 4. -/
theorem not_operandStarts_callee :
    ∃ tree, parse "new a.b();" = .ok tree ∧ ∃ n ∈ tree.preorder,
      n.kind = .propertyAccessExpression ∧ n.kind.isLeftRecursive = true ∧
      n.span = some ⟨0, 7⟩ ∧ n.children.head?.bind Node.span = some ⟨4, 5⟩ ∧
      ¬n.OperandStarts (· = ·) := by
  have heval : ((parse "new a.b();").toOption.any fun tree => tree.preorder.any fun n =>
      n.kind = .propertyAccessExpression && n.span = some ⟨0, 7⟩ &&
        n.children.head?.bind Node.span = some ⟨4, 5⟩) = true := by
    decide +kernel
  cases h : parse "new a.b();" with
  | error e => simp [h, Except.toOption] at heval
  | ok tree =>
    simp only [h, Except.toOption, Option.any_some, List.any_eq_true, Bool.and_eq_true,
      decide_eq_true_eq] at heval
    obtain ⟨n, hn, ⟨hk, hspan⟩, hoperand⟩ := heval
    refine ⟨tree, rfl, n, hn, hk, by rw [hk]; rfl, hspan, hoperand, ?_⟩
    rintro ⟨operand, start, start', hhead, hstart, hstart', rfl⟩
    rw [hhead, Option.bind_some] at hoperand
    rw [Node.start?, hspan] at hstart
    rw [Node.start?, hoperand] at hstart'
    cases hstart.trans hstart'.symm

end Quasiquote
