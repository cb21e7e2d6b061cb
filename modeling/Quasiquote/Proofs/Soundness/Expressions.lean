import Quasiquote.Proofs.Soundness.Types

namespace Quasiquote.Grammar.Sound

open Quasiquote.Parser

variable {g : Grammar} {c c' : Cursor} {n : Node} {ns : List Node}

/-- Statements are read one after the other until a mark of the end. -/
theorem many_statements (hg : g.Sound) {step : List Node → Parser (List Node × Bool)}
    {E : Cursor → Prop}
    (hstep : ∀ {ns c ms more c'}, step ns c = .done (ms, more) c' →
      (ms = ns ∧ c' = c ∧ E c) ∨ ∃ n, g.statement c = .done n c' ∧ ms = ns ++ [n] ∧ more = true)
    (h : loop [] step c = .done ns c') : Derived .statements c ns c' ∧ E c' := by
  let Read (ns : List Node) (d : Cursor) : Prop :=
    ∃ ts, c.Passes ts d ∧ Derives .statements ts ns ∧ Token.Parts ts d.rest
  have hread : ∀ {ns d ms more d'}, Read ns d → step ns d = .done (ms, more) d' → Read ms d' := by
    rintro ns d ms more d' ⟨ts, hts, hd, hp⟩ h
    obtain ⟨rfl, rfl, -⟩ | ⟨n, hn, rfl, -⟩ := hstep h
    · exact ⟨ts, hts, hd, hp⟩
    · obtain ⟨us, hus, hu, hp'⟩ := hg.statement hn
      have hne := hu.ne_nil rfl
      rw [hus.rest] at hp
      exact ⟨_, hts.trans hus, .nextStatement hd hu (hp.of_append_left hne), hp'.of_append hne _⟩
  obtain ⟨ms, d, hd, hlast⟩ := loop_last hread h ⟨[], .refl c, .noStatement, .of_nil⟩
  obtain ⟨ts, hts, hs, -⟩ := hread hd hlast
  refine ⟨⟨ts, hts, hs⟩, ?_⟩
  obtain ⟨-, rfl, hE⟩ | ⟨n, -, -, hmore⟩ := hstep hlast
  · exact hE
  · cases hmore

theorem block (hg : g.Sound) : Parser.Sound g.block .block := by
  intro c n c' h
  simp only [Grammar.block] at h
  rw [bind_done] at h
  obtain ⟨_, _, ⟨⟩, h⟩ := h
  rw [bind_done] at h
  obtain ⟨_, c₁, h₁, h⟩ := h
  rw [bind_done] at h
  obtain ⟨statements, c₂, h₂, h⟩ := h
  rw [bind_done] at h
  obtain ⟨_, _, ⟨⟩, ⟨⟩⟩ := h
  obtain ⟨t, p₁, ht⟩ := expect_done h₁
  have hs : Derived .statements c₁ statements c₂ ∧
      c₂.current.kind = .punct .braceClose := by
    refine hg.many_statements (E := fun d => d.current.kind = .punct .braceClose) ?_ h₂
    intro ns d ms more d' h
    simp only [bind_done] at h
    obtain ⟨_, _, ⟨⟩, h⟩ := h
    split at h
    · next hclose =>
      cases h
      exact .inl ⟨rfl, rfl, by simpa using hclose⟩
    · simp only [bind_done] at h
      obtain ⟨_, _, ⟨⟩, h⟩ := h
      split at h
      · simp only [bind_done] at h
        obtain ⟨_, _, ⟨⟩, -⟩ := h
      · simp only [bind_done] at h
        obtain ⟨n, e, hn, ⟨⟩⟩ := h
        exact .inr ⟨n, hn, rfl, rfl⟩
  obtain ⟨⟨ts, p₂, hs⟩, ht'⟩ := hs
  exact .of_over ((p₁.trans p₂).trans (passes_of_punct ht')) (.block ht hs ht')

theorem element (hg : g.Sound) : Parser.Sound g.element .element := by
  intro c n c' h
  simp only [Grammar.element, bind_done] at h
  obtain ⟨_, _, ⟨⟩, b, c₁, h₁, h⟩ := h
  obtain ⟨ts, p₁, ⟨t, ht, rfl, rfl⟩ | ⟨rfl, rfl⟩⟩ := eat_done h₁
  · simp only [if_true, bind_done] at h
    obtain ⟨e, c₂, h₂, ⟨⟩⟩ := h
    obtain ⟨us, p₂, hu⟩ := hg.expression h₂
    exact .of_over (p₁.trans p₂) (.spreadElement ht hu)
  · obtain ⟨us, p₂, hu⟩ := hg.expression h
    exact ⟨us, p₁.trans p₂, .element hu⟩

theorem atEnd_done {kind : ParseErrorKind} {context : String} {expected : List String}
    {c c' : Cursor} {u : Unit} (h : (do
      if ← atEof then reject kind context expected : Parser Unit) c = .done u c') : c' = c := by
  simp only [bind_done] at h
  obtain ⟨_, _, ⟨⟩, h⟩ := h
  split at h <;> cases h
  rfl

theorem arguments (hg : g.Sound) (h : g.arguments c = .done ns c') :
    Derived .arguments c ns c' :=
  enclosed_done atEnd_done hg.element h

theorem arrayLiteral (hg : g.Sound) (hc : c.current.kind = .punct .bracketOpen)
    (h : g.arrayLiteral c = .done n c') : Derived .expression c [n] c' := by
  simp only [Grammar.arrayLiteral] at h
  rw [bind_done] at h
  obtain ⟨_, _, ⟨⟩, h⟩ := h
  rw [bind_done] at h
  obtain ⟨_, _, ⟨⟩, h⟩ := h
  rw [bind_done] at h
  obtain ⟨elements, c₂, h₂, h⟩ := h
  rw [bind_done] at h
  obtain ⟨_, c₃, h₃, ⟨⟩⟩ := h
  obtain ⟨ts, p₂, ht⟩ := commaList_done atEnd_done hg.element h₂
  obtain ⟨t', p₃, ht'⟩ := expect_done h₃
  exact .of_over (((passes_of_punct hc).trans p₂).trans p₃)
    (.arrayLiteral (.enclosed hc ht ht'))

theorem propertyName : Parser.Sound Grammar.propertyName .property := by
  intro c n c' h
  simp only [Grammar.propertyName, bind_done] at h
  obtain ⟨_, _, ⟨⟩, h⟩ := h
  generalize hk : c.current.kind = kind at h
  split at h
  · obtain ⟨ts, p₁, ht⟩ := stringLiteral_done h hk
    exact ⟨ts, p₁, .property (.inl rfl) ht⟩
  · obtain ⟨ts, p₁, ht⟩ := numericLiteral_done h hk
    exact ⟨ts, p₁, .property (.inr (.inl rfl)) ht⟩
  · obtain ⟨ts, p₁, ht⟩ := identifierName_done h
    exact ⟨ts, p₁, .property (.inr (.inr rfl)) ht⟩

theorem objectMember (hg : g.Sound) : Parser.Sound g.objectMember .member := by
  intro c n c' h
  simp only [Grammar.objectMember, bind_done] at h
  obtain ⟨_, _, ⟨⟩, b, c₁, h₁, h⟩ := h
  obtain ⟨ts, p₁, ⟨t, ht, rfl, rfl⟩ | ⟨rfl, rfl⟩⟩ := eat_done h₁
  · simp only [if_true, bind_done] at h
    obtain ⟨e, c₂, h₂, ⟨⟩⟩ := h
    obtain ⟨us, p₂, hu⟩ := hg.expression h₂
    exact .of_over (p₁.trans p₂) (.spreadAssignment ht hu)
  · simp only [Bool.false_eq_true, if_false, bind_done] at h
    obtain ⟨name, c₂, h₂, b, c₃, h₃, h⟩ := h
    obtain ⟨ns, p₂, hn⟩ := propertyName h₂
    obtain ⟨us, p₃, ⟨t, ht, rfl, rfl⟩ | ⟨rfl, rfl⟩⟩ := eat_done h₃
    · simp only [if_true, bind_done] at h
      obtain ⟨e, c₄, h₄, ⟨⟩⟩ := h
      obtain ⟨vs, p₄, hv⟩ := hg.expression h₄
      exact .of_over ((p₁.trans p₂).trans (p₃.trans p₄)) (.propertyAssignment hn ht hv)
    · simp only [Bool.false_eq_true, if_false] at h
      split at h
      · next hk =>
        cases h
        have hp := (p₁.trans p₂).trans p₃
        rw [List.append_nil] at hp
        exact .of_over hp (.shorthandAssignment hn hk)
      · cases h

theorem objectLiteral (hg : g.Sound) (hc : c.current.kind = .punct .braceOpen)
    (h : g.objectLiteral c = .done n c') : Derived .expression c [n] c' := by
  simp only [Grammar.objectLiteral] at h
  rw [bind_done] at h
  obtain ⟨_, _, ⟨⟩, h⟩ := h
  rw [bind_done] at h
  obtain ⟨_, _, ⟨⟩, h⟩ := h
  rw [bind_done] at h
  obtain ⟨members, c₂, h₂, h⟩ := h
  rw [bind_done] at h
  obtain ⟨_, c₃, h₃, ⟨⟩⟩ := h
  obtain ⟨ts, p₂, ht⟩ := commaList_done atEnd_done hg.objectMember h₂
  obtain ⟨t', p₃, ht'⟩ := expect_done h₃
  exact .of_over (((passes_of_punct hc).trans p₂).trans p₃)
    (.objectLiteral (.enclosed hc ht ht'))

theorem templateSpan (hg : g.Sound) {more : Bool} (h : g.templateSpan c = .done (n, more) c') :
    Derived .span c [n] c' := by
  simp only [Grammar.templateSpan, bind_done] at h
  obtain ⟨_, _, ⟨⟩, e, c₁, h₁, _, _, ⟨⟩, h⟩ := h
  obtain ⟨ts, p₁, ht⟩ := hg.expression h₁
  split at h
  · next hk =>
    simp only [bind_done] at h
    obtain ⟨_, _, ⟨⟩, ⟨⟩⟩ := h
    have hk : c₁.current.kind = .template .middle ∨ c₁.current.kind = .template .tail := by
      simpa using hk
    have p₂ : c₁.Passes [c₁.current] c₁.advance :=
      Cursor.passes_advance (by rcases hk with hk | hk <;> simp [hk])
    exact .of_over (p₁.trans p₂) (.span ht hk)
  · cases h

theorem templateLiteral (hg : g.Sound)
    (hc : c.current.kind = .template .whole ∨ c.current.kind = .template .head)
    (h : g.templateLiteral c = .done n c') : Derived .template c [n] c' := by
  have p₁ : c.Passes [c.current] c.advance :=
    Cursor.passes_advance (by rcases hc with hc | hc <;> simp [hc])
  simp only [Grammar.templateLiteral] at h
  rw [bind_done] at h
  obtain ⟨_, _, ⟨⟩, h⟩ := h
  rw [bind_done] at h
  obtain ⟨_, _, ⟨⟩, h⟩ := h
  split at h
  · next hw =>
    cases h
    exact .of_over p₁ (.wholeTemplate hw)
  · next hw =>
    rw [bind_done] at h
    obtain ⟨spans, c₂, h₂, ⟨⟩⟩ := h
    have hs : Derived (.many [] .span) c.advance spans c' := by
      refine loop_done (I := Derived (.many [] .span) c.advance) ?_ h₂ ⟨[], .refl _, .nil⟩
      rintro spans d spans' more d' ⟨ts, hts, hd⟩ h
      simp only [bind_done] at h
      obtain ⟨⟨span, more⟩, e, hs, ⟨⟩⟩ := h
      obtain ⟨us, hus, hu⟩ := hg.templateSpan hs
      exact ⟨_, hts.trans hus, hd.append_single hu⟩
    obtain ⟨ts, p₂, hs⟩ := hs
    exact .of_over (p₁.trans p₂) (.template (hc.resolve_left hw) hs)

theorem functionExpression (hg : g.Sound) : Parser.Sound g.functionExpression .expression := by
  intro c n c' h
  simp only [Grammar.functionExpression, bind_done, ite_bind_done] at h
  obtain ⟨_, _, ⟨⟩, async, c₁, h₁, _, c₂, h₂, _, _, ⟨⟩, name, c₃, h₃, typeParameters, c₄, h₄,
    parameters, c₅, h₅, type, c₆, h₆, body, c₇, h₇, ⟨⟩⟩ := h
  obtain ⟨as, p₁, ha⟩ := eatWord_done h₁
  obtain ⟨t, p₂, ht⟩ := expectWord_done h₂
  obtain ⟨qs, p₄, hq⟩ := hg.typeParameters h₄
  obtain ⟨ps, p₅, hp⟩ := hg.parameters h₅
  obtain ⟨ts, p₆, hr⟩ := announced_done hg.typeNode h₆
  obtain ⟨bs, p₇, hb⟩ := hg.block h₇
  have hn : Derived (.optional .name) c₂ name.toList c₃ := by
    split at h₃
    · rw [map_done] at h₃
      obtain ⟨name, h₃, rfl⟩ := h₃
      obtain ⟨ns, p₃, hn⟩ := identifier_done h₃
      exact ⟨ns, p₃, .present hn⟩
    · cases h₃
      exact ⟨[], .refl _, .absent⟩
  obtain ⟨ns, p₃, hn⟩ := hn
  exact .of_over ((((p₁.trans (p₂.trans p₃)).trans p₄).trans p₅).trans p₆ |>.trans p₇)
    (.functionExpression ha ht hn hq hp hr hb)

theorem primary (hg : g.Sound) : Parser.Sound g.primary .expression := by
  intro c n c' h
  simp only [Grammar.primary, bind_done] at h
  obtain ⟨_, _, ⟨⟩, _, _, ⟨⟩, h⟩ := h
  generalize hk : c.current.kind = kind at h
  split at h
  · generalize hw : keywordLiteral? c.current.text = literal? at h
    split at h
    · simp only [bind_done] at h
      obtain ⟨_, _, ⟨⟩, ⟨⟩⟩ := h
      exact .of_over (passes_of_word hk) (.keywordLiteral hk hw)
    · simp only [Grammar.startsFunction, bind_done] at h
      obtain ⟨_, _, ⟨_, _, ⟨⟩, ⟨⟩⟩, h⟩ := h
      split at h
      · exact hg.functionExpression h
      · obtain ⟨ts, p₁, ht⟩ := identifier_done h
        exact ⟨ts, p₁, .operand (.inl rfl) ht⟩
  · obtain ⟨ts, p₁, ht⟩ := numericLiteral_done h hk
    exact ⟨ts, p₁, .operand (.inr (.inr (.inl rfl))) ht⟩
  · obtain ⟨ts, p₁, ht⟩ := stringLiteral_done h hk
    exact ⟨ts, p₁, .operand (.inr (.inl rfl)) ht⟩
  · obtain ⟨ts, p₁, ht⟩ := hg.templateLiteral (.inl hk) h
    exact ⟨ts, p₁, .operand (.inr (.inr (.inr rfl))) ht⟩
  · obtain ⟨ts, p₁, ht⟩ := hg.templateLiteral (.inr hk) h
    exact ⟨ts, p₁, .operand (.inr (.inr (.inr rfl))) ht⟩
  · simp only [bind_done] at h
    obtain ⟨_, _, ⟨⟩, e, c₂, h₂, _, c₃, h₃, ⟨⟩⟩ := h
    obtain ⟨ts, p₂, ht⟩ := hg.expression h₂
    obtain ⟨t', p₃, ht'⟩ := expect_done h₃
    exact .of_over (((passes_of_punct hk).trans p₂).trans p₃) (.parenthesized hk ht ht')
  · exact hg.arrayLiteral hk h
  · exact hg.objectLiteral hk h
  · cases h

theorem kind_functionExpression (h : g.functionExpression c = .done n c') :
    n.kind = .functionExpression := by
  simp only [Grammar.functionExpression, bind_done, ite_bind_done] at h
  obtain ⟨_, _, -, _, _, -, _, _, -, _, _, -, _, _, -, _, _, -, _, _, -, _, _, -, _, _, -, ⟨⟩⟩ := h
  rfl

theorem kind_arrayLiteral (h : g.arrayLiteral c = .done n c') :
    n.kind = .arrayLiteralExpression := by
  simp only [Grammar.arrayLiteral, bind_done] at h
  obtain ⟨_, _, -, _, _, -, _, _, -, _, _, -, ⟨⟩⟩ := h
  rfl

theorem kind_objectLiteral (h : g.objectLiteral c = .done n c') :
    n.kind = .objectLiteralExpression := by
  simp only [Grammar.objectLiteral, bind_done] at h
  obtain ⟨_, _, -, _, _, -, _, _, -, _, _, -, ⟨⟩⟩ := h
  rfl

/-- An operand by itself is no access. -/
theorem kind_primary (hg : g.Sound) (h : g.primary c = .done n c') :
    n.kind ≠ .propertyAccessExpression := by
  intro hkind
  simp only [Grammar.primary, bind_done] at h
  obtain ⟨_, _, ⟨⟩, _, _, ⟨⟩, h⟩ := h
  generalize hk : c.current.kind = kind at h
  split at h
  · generalize hw : keywordLiteral? c.current.text = literal? at h
    split at h
    · simp only [bind_done] at h
      obtain ⟨_, _, ⟨⟩, ⟨⟩⟩ := h
      unfold keywordLiteral? at hw
      split at hw <;> cases hw <;> cases hkind
    · simp only [Grammar.startsFunction, bind_done] at h
      obtain ⟨_, _, ⟨_, _, ⟨⟩, ⟨⟩⟩, h⟩ := h
      split at h
      · rw [kind_functionExpression h] at hkind
        cases hkind
      · obtain ⟨ts, -, hd⟩ := identifier_done h
        obtain ⟨_, _, ⟨⟩, ⟨⟩⟩ := hd.exists_makes rfl
        cases hkind
  · obtain ⟨ts, -, hd⟩ := numericLiteral_done h hk
    obtain ⟨_, _, ⟨⟩, ⟨⟩⟩ := hd.exists_makes rfl
    cases hkind
  · obtain ⟨ts, -, hd⟩ := stringLiteral_done h hk
    obtain ⟨_, _, ⟨⟩, ⟨⟩⟩ := hd.exists_makes rfl
    cases hkind
  · obtain ⟨ts, -, hd⟩ := hg.templateLiteral (.inl hk) h
    obtain ⟨_, _, ⟨⟩, hm⟩ := hd.exists_makes rfl
    cases hm <;> cases hkind
  · obtain ⟨ts, -, hd⟩ := hg.templateLiteral (.inr hk) h
    obtain ⟨_, _, ⟨⟩, hm⟩ := hd.exists_makes rfl
    cases hm <;> cases hkind
  · simp only [bind_done] at h
    obtain ⟨_, _, -, _, _, -, _, _, -, ⟨⟩⟩ := h
    cases hkind
  · rw [kind_arrayLiteral h] at hkind
    cases hkind
  · rw [kind_objectLiteral h] at hkind
    cases hkind
  · cases h

theorem newExpression (hg : g.Sound) (hc : c.current.isWord "new" = true)
    (h : g.newExpression c = .done n c') : Derived .expression c [n] c' := by
  simp only [Grammar.newExpression] at h
  rw [bind_done] at h
  obtain ⟨_, _, ⟨⟩, h⟩ := h
  rw [bind_done] at h
  obtain ⟨_, _, ⟨⟩, h⟩ := h
  rw [bind_done] at h
  obtain ⟨first, c₁, h₁, h⟩ := h
  rw [bind_done] at h
  obtain ⟨callee, c₂, h₂, h⟩ := h
  rw [bind_done] at h
  obtain ⟨_, _, ⟨⟩, h⟩ := h
  simp only [bind_done, ite_bind_done] at h
  obtain ⟨typeArguments, c₃, h₃, _, _, ⟨⟩, arguments, c₄, h₄, ⟨⟩⟩ := h
  have hcallee : Derived .callee c [callee] c₂ := by
    obtain ⟨ts, p₁, ht⟩ := hg.primary h₁
    refine loop_done (I := fun callee => Derived .callee c [callee]) ?_ h₂
      ⟨_, (passes_of_word (kind_of_isWord hc)).trans p₁, .callee hc ht (hg.kind_primary h₁)⟩
    rintro callee d callee' more d' ⟨us, hus, hu⟩ h
    simp only [bind_done] at h
    obtain ⟨b, e, he, h⟩ := h
    obtain ⟨vs, hvs, ⟨t, hdot, rfl, rfl⟩ | ⟨rfl, rfl⟩⟩ := eat_done he
    · simp only [if_true, bind_done] at h
      obtain ⟨name, e', hn, _, _, ⟨⟩, ⟨⟩⟩ := h
      obtain ⟨ns, hns, hn⟩ := identifierName_done hn
      exact .of_over (hus.trans (hvs.trans hns)) (.calleeAccess hu hdot hn)
    · cases h
      have hus' := hus.trans hvs
      rw [List.append_nil] at hus'
      exact ⟨us, hus', hu⟩
  have htypes : Derived (.optional .typeArguments) c₂ typeArguments c₃ := by
    split at h₃
    · rw [map_done] at h₃
      obtain ⟨types?, h₃, rfl⟩ := h₃
      obtain ⟨types, rfl, htypes⟩ | ⟨rfl, rfl⟩ := attempt_done h₃
      · obtain ⟨us, p₃, hu⟩ := hg.typeArguments htypes
        exact ⟨us, p₃, .present hu⟩
      · exact ⟨[], .refl _, .absent⟩
    · cases h₃
      exact ⟨[], .refl _, .absent⟩
  have harguments : Derived (.optional .arguments) c₃ arguments c' := by
    split at h₄
    · obtain ⟨us, p₄, hu⟩ := hg.arguments h₄
      exact ⟨us, p₄, .present hu⟩
    · cases h₄
      exact ⟨[], .refl _, .absent⟩
  obtain ⟨cs, p₂, hcallee⟩ := hcallee
  obtain ⟨ts, p₃, htypes⟩ := htypes
  obtain ⟨as, p₄, harguments⟩ := harguments
  exact .of_over ((p₂.trans p₃).trans p₄) (.newExpression hcallee htypes harguments)

theorem application (hg : g.Sound) {start : Nat} {callee : Node} {typeArguments : List Node}
    {c₀ : Cursor} {ts us : List Token} (hs : start = c₀.current.start)
    (hd : Derives .expression ts [callee])
    (hu : Derives (.optional .typeArguments) us typeArguments) (hp : c₀.Passes (ts ++ us) c)
    (hk : c.current.kind = .punct .parenOpen ∨ c.current.kind = .template .whole ∨
      c.current.kind = .template .head)
    (h : g.application start callee typeArguments c = .done n c') :
    Derived .expression c₀ [n] c' := by
  subst hs
  simp only [Grammar.application, bind_done] at h
  obtain ⟨_, _, ⟨⟩, h⟩ := h
  split at h
  · simp only [bind_done] at h
    obtain ⟨arguments, c₁, h₁, ⟨⟩⟩ := h
    obtain ⟨as, p₁, ha⟩ := hg.arguments h₁
    exact .of_over (hp.trans p₁) (.call hd hu ha)
  · next hparen =>
    simp only [bind_done] at h
    obtain ⟨template, c₁, h₁, ⟨⟩⟩ := h
    obtain ⟨as, p₁, ha⟩ := hg.templateLiteral (hk.resolve_left (by simpa using hparen)) h₁
    exact .of_over (hp.trans p₁) (.taggedTemplate hd hu ha)

theorem appliedTypeArguments (hg : g.Sound) (h : g.appliedTypeArguments c = .done ns c') :
    Derived .typeArguments c ns c' ∧ (c'.current.kind = .punct .parenOpen ∨
      c'.current.kind = .template .whole ∨ c'.current.kind = .template .head) := by
  simp only [Grammar.appliedTypeArguments, Grammar.atTemplate, bind_done] at h
  obtain ⟨types, c₁, h₁, _, _, ⟨⟩, _, _, ⟨_, _, ⟨⟩, ⟨⟩⟩, h⟩ := h
  split at h
  · next hk =>
    cases h
    exact ⟨hg.typeArguments h₁, by simpa using hk⟩
  · cases h

theorem postfixStep (hg : g.Sound) {c₀ : Cursor} {callee : Node} {more : Bool}
    (hd : Derived .expression c₀ [callee] c)
    (h : g.postfixStep c₀.current.start callee c = .done (n, more) c') :
    Derived .expression c₀ [n] c' := by
  obtain ⟨ts, p₁, ht⟩ := hd
  simp only [Grammar.postfixStep, bind_done] at h
  obtain ⟨_, _, ⟨⟩, h⟩ := h
  generalize hk : c.current.kind = kind at h
  have hnone : c₀.Passes (ts ++ []) c := by rwa [List.append_nil]
  split at h
  · simp only [bind_done] at h
    obtain ⟨_, _, ⟨⟩, name, c₂, h₂, _, _, ⟨⟩, ⟨⟩⟩ := h
    obtain ⟨ns, p₂, hn⟩ := identifierName_done h₂
    exact .of_over (p₁.trans ((passes_of_punct hk).trans p₂)) (.access ht hk hn)
  · simp only [bind_done] at h
    obtain ⟨_, _, ⟨⟩, argument, c₂, h₂, _, c₃, h₃, _, _, ⟨⟩, ⟨⟩⟩ := h
    obtain ⟨as, p₂, ha⟩ := hg.expression h₂
    obtain ⟨t', p₃, ht'⟩ := expect_done h₃
    exact .of_over ((p₁.trans ((passes_of_punct hk).trans p₂)).trans p₃)
      (.elementAccess ht hk ha ht')
  · simp only [bind_done] at h
    obtain ⟨applied, c₂, h₂, ⟨⟩⟩ := h
    exact hg.application rfl ht .absent hnone (by simp [hk]) h₂
  · simp only [bind_done] at h
    obtain ⟨applied, c₂, h₂, ⟨⟩⟩ := h
    exact hg.application rfl ht .absent hnone (by simp [hk]) h₂
  · simp only [bind_done] at h
    obtain ⟨applied, c₂, h₂, ⟨⟩⟩ := h
    exact hg.application rfl ht .absent hnone (by simp [hk]) h₂
  · rw [bind_done] at h
    obtain ⟨types?, c₂, h₂, h⟩ := h
    obtain ⟨types, rfl, htypes⟩ | ⟨rfl, rfl⟩ := attempt_done h₂
    · simp only [bind_done] at h
      obtain ⟨applied, c₃, h₃, ⟨⟩⟩ := h
      obtain ⟨⟨us, p₂, hu⟩, hk'⟩ := hg.appliedTypeArguments htypes
      exact hg.application rfl ht (.present hu) (p₁.trans p₂) hk' h₃
    · cases h
      exact ⟨ts, p₁, ht⟩
  · cases h
    exact ⟨ts, p₁, ht⟩

theorem leftHandSide (hg : g.Sound) : Parser.Sound g.leftHandSide .expression := by
  intro c n c' h
  simp only [Grammar.leftHandSide, bind_done, ite_bind_done] at h
  obtain ⟨_, _, ⟨⟩, _, _, ⟨⟩, first, c₁, h₁, h⟩ := h
  have hfirst : Derived .expression c [first] c₁ := by
    split at h₁
    · next hw => exact hg.newExpression hw h₁
    · exact hg.primary h₁
  exact loop_done (I := fun n => Derived .expression c [n]) hg.postfixStep h hfirst

theorem unary (hg : g.Sound) : Parser.Sound g.unary .expression := by
  intro c n c' h
  simp only [Grammar.unary, bind_done] at h
  obtain ⟨_, _, ⟨⟩, _, _, ⟨⟩, h⟩ := h
  generalize hs : sign? c.current = sign? at h
  split at h
  · simp only [bind_done] at h
    obtain ⟨_, _, ⟨⟩, operand, c₂, h₂, ⟨⟩⟩ := h
    obtain ⟨ts, p₂, ht⟩ := hg.operand h₂
    have p₁ : c.Passes [c.current] c.advance := by
      apply Cursor.passes_advance
      intro heof
      simp [sign?, heof] at hs
    exact .of_over (p₁.trans p₂) (.unary hs ht)
  · exact hg.leftHandSide h

theorem binaryStep (hg : g.Sound) {least : Nat} {c₀ : Cursor} {left : Node} {more : Bool}
    (hd : Derived .expression c₀ [left] c)
    (h : g.binaryStep least c₀.current.start left c = .done (n, more) c') :
    Derived .expression c₀ [n] c' := by
  obtain ⟨ts, p₁, ht⟩ := hd
  simp only [Grammar.binaryStep, bind_done] at h
  obtain ⟨_, _, ⟨⟩, h⟩ := h
  split at h
  · next hw =>
    simp only [bind_done] at h
    obtain ⟨_, _, ⟨⟩, type, c₂, h₂, _, _, ⟨⟩, ⟨⟩⟩ := h
    have hw : c.current.isWord "as" = true := by
      simp only [Bool.and_eq_true] at hw
      exact hw.1
    obtain ⟨us, p₂, hu⟩ := hg.typeNode h₂
    exact .of_over (p₁.trans ((passes_of_word (kind_of_isWord hw)).trans p₂)) (.cast ht hw hu)
  · simp only [bind_done] at h
    obtain ⟨_, _, ⟨⟩, h⟩ := h
    generalize hop : c.current.kind.binary? = op? at h
    split at h
    · split at h
      · cases h
        exact ⟨ts, p₁, ht⟩
      · simp only [bind_done] at h
        obtain ⟨_, _, ⟨⟩, right, c₂, h₂, _, _, ⟨⟩, ⟨⟩⟩ := h
        obtain ⟨us, p₂, hu⟩ := hg.operation _ h₂
        have p' : c.Passes [c.current] c.advance := by
          apply Cursor.passes_advance
          intro heof
          simp [heof, TokenKind.binary?] at hop
        exact .of_over (p₁.trans (p'.trans p₂)) (.binary ht (.inl (by simp [hop])) hu)
    · cases h
      exact ⟨ts, p₁, ht⟩

theorem binary (hg : g.Sound) (least : Nat) : Parser.Sound (g.binary least) .expression := by
  intro c n c' h
  simp only [Grammar.binary, bind_done] at h
  obtain ⟨_, _, ⟨⟩, first, c₁, h₁, h⟩ := h
  exact loop_done (I := fun n => Derived .expression c [n]) hg.binaryStep h (hg.unary h₁)

theorem conditional (hg : g.Sound) : Parser.Sound g.conditional .expression := by
  intro c n c' h
  simp only [Grammar.conditional, bind_done] at h
  obtain ⟨_, _, ⟨⟩, condition, c₁, h₁, b, c₂, h₂, h⟩ := h
  obtain ⟨cs, p₁, hc⟩ := hg.binary 0 h₁
  obtain ⟨us, p₂, ⟨t, ht, rfl, rfl⟩ | ⟨rfl, rfl⟩⟩ := eat_done h₂
  · simp only [if_true, bind_done] at h
    obtain ⟨whenTrue, c₃, h₃, _, c₄, h₄, whenFalse, c₅, h₅, ⟨⟩⟩ := h
    obtain ⟨ts, p₃, h₃⟩ := hg.expression h₃
    obtain ⟨t', p₄, ht'⟩ := expect_done h₄
    obtain ⟨us, p₅, h₅⟩ := hg.expression h₅
    exact .of_over ((p₁.trans (p₂.trans p₃)).trans (p₄.trans p₅))
      (.conditional hc ht h₃ ht' h₅)
  · cases h
    have p' := p₁.trans p₂
    rw [List.append_nil] at p'
    exact ⟨cs, p', hc⟩

theorem arrowBody (hg : g.Sound) : Parser.Sound g.arrowBody .body := by
  intro c n c' h
  simp only [Grammar.arrowBody, bind_done] at h
  obtain ⟨_, _, ⟨⟩, h⟩ := h
  split at h
  · obtain ⟨ts, p₁, ht⟩ := hg.block h
    exact ⟨ts, p₁, .body (.inl rfl) ht⟩
  · obtain ⟨ts, p₁, ht⟩ := hg.expression h
    exact ⟨ts, p₁, .body (.inr rfl) ht⟩

theorem arrowHead (hg : g.Sound) {typeParameters parameters : List Node} {type : Option Node}
    (h : g.arrowHead c = .done (typeParameters, parameters, type) c') :
    ∃ qs ps ts t, c.Passes (qs ++ ps ++ ts ++ [t]) c' ∧
      Derives .typeParameters qs typeParameters ∧ Derives .parameters ps parameters ∧
      Derives .ascription ts type.toList ∧ t.kind = .punct .arrow := by
  simp only [Grammar.arrowHead, bind_done] at h
  obtain ⟨_, c₁, h₁, _, c₂, h₂, _, c₃, h₃, _, c₄, h₄, ⟨⟩⟩ := h
  obtain ⟨qs, p₁, hq⟩ := hg.typeParameters h₁
  obtain ⟨ps, p₂, hp⟩ := hg.parameters h₂
  obtain ⟨ts, p₃, hr⟩ := announced_done hg.typeNode h₃
  obtain ⟨t, p₄, ht⟩ := expect_done h₄
  exact ⟨qs, ps, ts, t, ((p₁.trans p₂).trans p₃).trans p₄, hq, hp, hr, ht⟩

theorem bareArrow (hg : g.Sound) {c₀ : Cursor} {as : List Token} {async : Bool}
    (ha : Terminal.Perhaps (.word "async") as async) (hp : c₀.Passes as c)
    (hc : c.current.kind = .word) {t : Token} (hn : c.next? = some t)
    (ht : t.kind = .punct .arrow) {name body : Node} {c₁ : Cursor} {context : String}
    (h₁ : identifier context c = .done name c₁) (h₂ : g.arrowBody c₁.advance = .done body c') :
    Derived .expression c₀
      [.mk .arrowFunction { span := some ⟨c₀.current.start, max c'.last c₀.current.start⟩ }
        [.flag async, .list [],
         .list [.mk .parameter
            { span := some ⟨c.current.start, max c₁.last c.current.start⟩ }
            [.flag false, .node name, .flag false, .absent, .absent]],
         .absent, .node body]] c' := by
  obtain rfl := eq_advance_of_identifier h₁
  obtain ⟨ns, p₁, hname⟩ := identifier_done h₁
  obtain rfl := Cursor.current_advance (by simp [hc]) hn
  obtain ⟨bs, p₃, hb⟩ := hg.arrowBody h₂
  rw [← p₁.extent (hname.ne_nil rfl)]
  exact .of_over ((hp.trans p₁).trans ((passes_of_punct ht).trans p₃))
    (.bareArrow ha (Makes.bareParameter hname).derives ht hb)

theorem arrowAfterAsync (hg : g.Sound) {c₀ : Cursor} {as : List Token} {async : Bool}
    (ha : Terminal.Perhaps (.word "async") as async) (hp : c₀.Passes as c)
    (h : g.arrowAfterAsync c₀.current.start async c = .done (some n) c') :
    Derived .expression c₀ [n] c' := by
  simp only [Grammar.arrowAfterAsync, Grammar.atBareArrow, bind_done] at h
  obtain ⟨_, _, ⟨_, _, ⟨⟩, _, _, ⟨⟩, ⟨⟩⟩, h⟩ := h
  split at h
  · next hbare =>
    simp only [Bool.and_eq_true, decide_eq_true_eq, Option.any_eq_true] at hbare
    obtain ⟨⟨hc, t, hn, ht⟩, -⟩ := hbare
    simp only [bind_done] at h
    obtain ⟨_, _, ⟨⟩, name, c₁, h₁, _, _, ⟨⟩, _, _, ⟨⟩, body, c₂, h₂, _, _, ⟨⟩, ⟨⟩⟩ := h
    exact hg.bareArrow ha hp hc hn ht h₁ h₂
  · simp only [bind_done] at h
    obtain ⟨_, _, ⟨⟩, _, _, ⟨⟩, h⟩ := h
    split at h
    · cases h
    · rw [bind_done] at h
      obtain ⟨head?, c₁, h₁, h⟩ := h
      obtain ⟨⟨typeParameters, parameters, type⟩, rfl, hhead⟩ | ⟨rfl, rfl⟩ := attempt_done h₁
      · simp only [bind_done] at h
        obtain ⟨body, c₂, h₂, _, _, ⟨⟩, ⟨⟩⟩ := h
        obtain ⟨qs, ps, ts, t, p₁, hq, hps, hr, ht⟩ := hg.arrowHead hhead
        obtain ⟨bs, p₂, hb⟩ := hg.arrowBody h₂
        have hall := (hp.trans p₁).trans p₂
        simp only [← List.append_assoc] at hall
        rw [List.append_assoc _ [t]] at hall
        exact .of_over hall (.arrow ha hq hps hr ht hb)
      · cases h

theorem arrow? (hg : g.Sound) (h : g.arrow? c = .done (some n) c') :
    Derived .expression c [n] c' := by
  simp only [Grammar.arrow?] at h
  split at h
  · cases h
  · simp only [Grammar.atAsyncArrow, bind_done] at h
    obtain ⟨_, _, ⟨⟩, _, _, ⟨_, _, ⟨⟩, _, _, ⟨⟩, ⟨⟩⟩, h⟩ := h
    split at h
    · next hasync =>
      simp only [bind_done] at h
      obtain ⟨_, _, ⟨⟩, h⟩ := h
      have hw : c.current.isWord "async" = true := by
        simp only [Bool.and_eq_true] at hasync
        exact hasync.1
      rw [hasync] at h
      exact hg.arrowAfterAsync (.inl ⟨_, hw, rfl, rfl⟩) (passes_of_word (kind_of_isWord hw)) h
    · next hasync =>
      simp only [Bool.not_eq_true] at hasync
      rw [hasync] at h
      exact hg.arrowAfterAsync (.inr ⟨rfl, rfl⟩) (.refl c) h

theorem eq_of_arrow?_none (h : g.arrow? c = .done none c') : c' = c := by
  simp only [Grammar.arrow?] at h
  split at h
  · cases h
    rfl
  · next hne => exact absurd h (hne c')

theorem assignment (hg : g.Sound) : Parser.Sound g.assignment .expression := by
  intro c n c' h
  simp only [Grammar.assignment] at h
  rw [bind_done] at h
  obtain ⟨function?, c₁, h₁, h⟩ := h
  cases function? with
  | some function =>
    cases h
    exact hg.arrow? h₁
  | none =>
    obtain rfl := eq_of_arrow?_none h₁
    simp only [bind_done] at h
    obtain ⟨_, _, ⟨⟩, left, c₂, h₂, _, _, ⟨⟩, h⟩ := h
    obtain ⟨ls, p₂, hl⟩ := hg.conditional h₂
    generalize hop : c₂.current.kind.assignment? = op? at h
    split at h
    · simp only [bind_done] at h
      obtain ⟨_, _, ⟨⟩, right, c₃, h₃, ⟨⟩⟩ := h
      obtain ⟨rs, p₃, hr⟩ := hg.expression h₃
      have p' : c₂.Passes [c₂.current] c₂.advance := by
        apply Cursor.passes_advance
        intro heof
        simp [heof, TokenKind.assignment?] at hop
      exact .of_over (p₂.trans (p'.trans p₃)) (.binary hl (.inr hop) hr)
    · cases h
      exact ⟨ls, p₂, hl⟩

end Quasiquote.Grammar.Sound
