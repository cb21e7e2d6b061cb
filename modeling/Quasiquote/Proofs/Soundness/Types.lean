import Quasiquote.Proofs.Soundness.Basic

namespace Quasiquote

structure Grammar.Sound (g : Grammar) : Prop where
  statement : ∀ {c n c'}, g.statement c = .done n c' → Stated c n c'
  expression : Parser.Sound g.expression .expression
  operation : ∀ least, Parser.Sound (g.operation least) .expression
  operand : Parser.Sound g.operand .expression
  typeNode : Parser.Sound g.typeNode .type

namespace Grammar.Sound

open Quasiquote.Parser

variable {g : Grammar} {c c' : Cursor} {n : Node} {ns : List Node}

theorem pure_unit {c c' : Cursor} {u : Unit} (h : (pure () : Parser Unit) c = .done u c') :
    c' = c := by
  cases h
  rfl

theorem typeArguments (hg : g.Sound) (h : g.typeArguments c = .done ns c') :
    Derived .typeArguments c ns c' :=
  enclosed_done pure_unit hg.typeNode h

theorem parameter (hg : g.Sound) : Parser.Sound g.parameter .parameter := by
  intro c n c' h
  simp only [Grammar.parameter, bind_done] at h
  obtain ⟨_, _, ⟨⟩, rest, c₁, h₁, name, c₂, h₂, isOptional, c₃, h₃, type, c₄, h₄, initializer, c₅,
    h₅, ⟨⟩⟩ := h
  obtain ⟨rs, p₁, hr⟩ := eat_done h₁
  obtain ⟨ns, p₂, hn⟩ := identifier_done h₂
  obtain ⟨os, p₃, ho⟩ := eat_done h₃
  obtain ⟨ts, p₄, ht⟩ := announced_done hg.typeNode h₄
  obtain ⟨is, p₅, hi⟩ := announced_done hg.expression h₅
  exact .of_over ((((p₁.trans p₂).trans p₃).trans p₄).trans p₅) (.parameter hr hn ho ht hi)

theorem parameters (hg : g.Sound) (h : g.parameters c = .done ns c') :
    Derived .parameters c ns c' :=
  enclosed_done pure_unit hg.parameter h

theorem typeParameter (hg : g.Sound) : Parser.Sound g.typeParameter .typeParameter := by
  intro c n c' h
  simp only [Grammar.typeParameter, bind_done, ite_bind_done] at h
  obtain ⟨_, _, ⟨⟩, name, c₁, h₁, extended, c₂, h₂, constraint, c₃, h₃, default, c₄, h₄, ⟨⟩⟩ := h
  obtain ⟨ns, p₁, hn⟩ := identifier_done h₁
  obtain ⟨ds, p₄, hd⟩ := announced_done hg.typeNode h₄
  have hc : Derived (.optional (.announced (.word "extends") .type)) c₁ constraint.toList c₃ := by
    obtain ⟨ts, p₂, ⟨t, ht, rfl, rfl⟩ | ⟨rfl, rfl⟩⟩ := eatWord_done h₂
    · simp only [if_true, map_done] at h₃
      obtain ⟨type, h₃, rfl⟩ := h₃
      obtain ⟨us, p₃, hu⟩ := hg.typeNode h₃
      exact ⟨_, p₂.trans p₃, .present (.announced ht hu)⟩
    · cases h₃
      exact ⟨_, p₂, .absent⟩
  obtain ⟨cs, p₂₃, hc⟩ := hc
  exact .of_over ((p₁.trans p₂₃).trans p₄) (.typeParameter hn hc hd)

theorem typeParameters (hg : g.Sound) (h : g.typeParameters c = .done ns c') :
    Derived .typeParameters c ns c' := by
  simp only [Grammar.typeParameters, bind_done] at h
  obtain ⟨b, c₁, h₁, h⟩ := h
  obtain ⟨ts, p₁, ⟨t, ht, rfl, rfl⟩ | ⟨rfl, rfl⟩⟩ := eat_done h₁
  · simp only [if_true, bind_done] at h
    obtain ⟨_, c₂, h₂, _, c₃, h₃, ⟨⟩⟩ := h
    obtain ⟨us, p₂, hu⟩ := commaList_done pure_unit hg.typeParameter h₂
    obtain ⟨t', p₃, ht'⟩ := expect_done h₃
    exact ⟨_, (p₁.trans p₂).trans p₃, .present (.enclosed ht hu ht')⟩
  · cases h
    exact ⟨_, p₁, .absent⟩

theorem functionType (hg : g.Sound) : Parser.Sound g.functionType .type := by
  intro c n c' h
  simp only [Grammar.functionType, bind_done] at h
  obtain ⟨_, _, ⟨⟩, qs, c₁, h₁, ps, c₂, h₂, _, c₃, h₃, result, c₄, h₄, ⟨⟩⟩ := h
  obtain ⟨qs, p₁, hq⟩ := hg.typeParameters h₁
  obtain ⟨ps, p₂, hp⟩ := hg.parameters h₂
  obtain ⟨t, p₃, ht⟩ := expect_done h₃
  obtain ⟨rs, p₄, hr⟩ := hg.typeNode h₄
  have hall := ((p₁.trans p₂).trans p₃).trans p₄
  rw [List.append_assoc] at hall
  exact .of_over hall (.functionType hq hp ht hr)

theorem propertySignature (hg : g.Sound) : Parser.Sound g.propertySignature .signature := by
  intro c n c' h
  simp only [Grammar.propertySignature, bind_done, ite_bind_done] at h
  obtain ⟨_, _, ⟨⟩, _, _, ⟨⟩, name, c₁, h₁, isOptional, c₂, h₂, type, c₃, h₃, ⟨⟩⟩ := h
  obtain ⟨os, p₂, ho⟩ := eat_done h₂
  obtain ⟨ts, p₃, ht⟩ := announced_done hg.typeNode h₃
  split at h₁
  · next hs =>
    obtain ⟨ns, p₁, hn⟩ := stringLiteral_done h₁ hs
    exact .of_over ((p₁.trans p₂).trans p₃) (.signature (.inl rfl) hn ho ht)
  · obtain ⟨ns, p₁, hn⟩ := identifierName_done h₁
    exact .of_over ((p₁.trans p₂).trans p₃) (.signature (.inr rfl) hn ho ht)

theorem memberSeparator {b : Bool} (h : Grammar.memberSeparator c = .done b c') :
    ∃ ts, c.Passes ts c' ∧ Terminal.Separates [.semicolon, .comma] ts := by
  simp only [Grammar.memberSeparator, bind_done] at h
  obtain ⟨s, c₁, h₁, h⟩ := h
  obtain ⟨ts, p₁, ⟨t, ht, rfl, rfl⟩ | ⟨rfl, rfl⟩⟩ := eat_done h₁
  · cases h
    exact ⟨_, p₁, .inr ⟨t, .semicolon, by simp, ht, rfl⟩⟩
  · simp only [Bool.false_eq_true, if_false, bind_done] at h
    obtain ⟨s, c₂, h₂, h⟩ := h
    obtain ⟨us, p₂, ⟨t, ht, rfl, rfl⟩ | ⟨rfl, rfl⟩⟩ := eat_done h₂
    · cases h
      exact ⟨_, p₁.trans p₂, .inr ⟨t, .comma, by simp, ht, rfl⟩⟩
    · simp only [Bool.false_eq_true, if_false, bind_done] at h
      obtain ⟨_, _, ⟨⟩, ⟨⟩⟩ := h
      exact ⟨_, p₁.trans p₂, .inl rfl⟩

theorem typeLiteral (hg : g.Sound) : Parser.Sound g.typeLiteral .type := by
  intro c n c' h
  simp only [Grammar.typeLiteral] at h
  obtain ⟨_, _, ⟨⟩, h⟩ := bind_done.mp h
  obtain ⟨_, c₁, h₁, h⟩ := bind_done.mp h
  obtain ⟨members, c₂, h₂, h⟩ := bind_done.mp h
  obtain ⟨_, c₃, h₃, ⟨⟩⟩ := bind_done.mp h
  obtain ⟨t, p₁, ht⟩ := expect_done h₁
  obtain ⟨t', p₃, ht'⟩ := expect_done h₃
  have hm : Derived (.many [.semicolon, .comma] .signature) c₁ members c₂ := by
    refine loop_done (I := Derived (.many [.semicolon, .comma] .signature) c₁) ?_ h₂
      ⟨[], .refl c₁, .nil⟩
    rintro members d members' more d' ⟨ts, hts, hd⟩ h
    simp only [bind_done] at h
    obtain ⟨_, _, ⟨⟩, h⟩ := h
    split at h
    · cases h
      exact ⟨ts, hts, hd⟩
    · simp only [bind_done] at h
      obtain ⟨_, _, ⟨⟩, h⟩ := h
      split at h
      · simp only [bind_done] at h
        obtain ⟨_, _, ⟨⟩, -⟩ := h
      · simp only [bind_done] at h
        obtain ⟨member, e, hm, more, e', hs, ⟨⟩⟩ := h
        obtain ⟨us, hus, hu⟩ := hg.propertySignature hm
        obtain ⟨vs, hvs, hv⟩ := memberSeparator hs
        exact ⟨_, (hts.trans hus).trans hvs, .snoc hd hu hv⟩
  obtain ⟨ts, p₂, hm⟩ := hm
  exact .of_over ((p₁.trans p₂).trans p₃) (.typeLiteral ht hm ht')

theorem typeReference (hg : g.Sound) : Parser.Sound g.typeReference .type := by
  intro c n c' h
  simp only [Grammar.typeReference] at h
  obtain ⟨_, _, ⟨⟩, h⟩ := bind_done.mp h
  obtain ⟨first, c₁, h₁, h⟩ := bind_done.mp h
  obtain ⟨name, c₂, h₂, h⟩ := bind_done.mp h
  obtain ⟨_, _, ⟨⟩, h⟩ := bind_done.mp h
  obtain ⟨arguments, c₃, h₃, ⟨⟩⟩ := ite_bind_done.mp h
  obtain ⟨ns, p₁, hn⟩ := identifierName_done h₁
  have he : Derived .entity c [name] c₂ := by
    refine loop_done (I := fun name => Derived .entity c [name]) ?_ h₂ ⟨ns, p₁, .entity hn⟩
    rintro name d name' more d' ⟨ts, hts, hd⟩ h
    simp only [bind_done] at h
    obtain ⟨b, e, he, h⟩ := h
    obtain ⟨us, hus, ⟨t, ht, rfl, rfl⟩ | ⟨rfl, rfl⟩⟩ := eat_done he
    · simp only [if_true, bind_done] at h
      obtain ⟨right, e', hr, _, _, ⟨⟩, ⟨⟩⟩ := h
      obtain ⟨vs, hvs, hv⟩ := identifierName_done hr
      exact .of_over (hts.trans (hus.trans hvs)) (.qualifiedName hd ht hv)
    · cases h
      have hd' := hts.trans hus
      rw [List.append_nil] at hd'
      exact ⟨ts, hd', hd⟩
  obtain ⟨es, p₂, he⟩ := he
  split at h₃
  · obtain ⟨ts, p₃, ht⟩ := hg.typeArguments h₃
    exact .of_over (p₂.trans p₃) (.typeReference he (.present ht))
  · cases h₃
    exact .of_over (p₂.trans (.refl _)) (.typeReference he .absent)

theorem wordType (hg : g.Sound) {word : String} (hw : c.current.isWord word = true)
    (h : g.wordType word c = .done n c') : Derived .type c [n] c' := by
  have hk := kind_of_isWord hw
  have hp := passes_of_word hk
  have hext := hp.extent (by simp)
  obtain rfl : c.current.text = word := by
    simp only [Token.isWord, Bool.and_eq_true, decide_eq_true_eq] at hw
    exact hw.2
  simp only [Grammar.wordType, bind_done] at h
  obtain ⟨_, _, ⟨⟩, h⟩ := h
  split at h
  · next hb =>
    simp only [bind_done] at h
    obtain ⟨_, _, ⟨⟩, _, _, ⟨⟩, ⟨⟩⟩ := h
    refine ⟨_, hp, ?_⟩
    rw [← hext]
    by_cases ht : c.current.text = "true"
    · simp only [ht, if_true]
      exact (Makes.literalType (.inr (.inr rfl)) (Makes.trueLiteral (ht ▸ hw)).derives).derives
    · have hf : c.current.text = "false" := by simpa [ht] using hb
      simp only [ht, if_false]
      exact (Makes.literalType (.inr (.inr rfl)) (Makes.falseLiteral (hf ▸ hw)).derives).derives
  · split at h
    · next hkey =>
      simp only [bind_done] at h
      obtain ⟨_, _, ⟨⟩, ⟨⟩⟩ := h
      exact .of_over hp (.keywordType hk hkey)
    · exact hg.typeReference h

theorem primaryType (hg : g.Sound) : Parser.Sound g.primaryType .type := by
  intro c n c' h
  simp only [Grammar.primaryType, bind_done] at h
  obtain ⟨_, _, ⟨⟩, _, _, ⟨⟩, h⟩ := h
  generalize hk : c.current.kind = kind at h
  split at h
  · exact hg.typeLiteral h
  · rw [bind_done] at h
    obtain ⟨n?, c₁, h₁, h⟩ := h
    obtain ⟨n', rfl, hf⟩ | ⟨rfl, rfl⟩ := attempt_done h₁
    · cases h
      exact hg.functionType hf
    · simp only [bind_done] at h
      obtain ⟨_, _, ⟨⟩, inner, c₂, h₂, _, c₃, h₃, ⟨⟩⟩ := h
      obtain ⟨ts, p₂, ht⟩ := hg.typeNode h₂
      obtain ⟨t', p₃, ht'⟩ := expect_done h₃
      exact ⟨_, ((passes_of_punct hk).trans p₂).trans p₃, .parenthesizedType hk ht ht'⟩
  · exact hg.functionType h
  · obtain ⟨n, c₁, h₁, ⟨⟩⟩ := bind_done.mp h
    obtain ⟨ts, p₁, ht⟩ := stringLiteral_done h₁ hk
    exact .of_over p₁ (.literalType (.inl rfl) ht)
  · obtain ⟨n, c₁, h₁, ⟨⟩⟩ := bind_done.mp h
    obtain ⟨ts, p₁, ht⟩ := numericLiteral_done h₁ hk
    exact .of_over p₁ (.literalType (.inr (.inl rfl)) ht)
  · exact hg.wordType (by simp [Token.isWord, hk]) h
  · cases h

theorem arrayType (hg : g.Sound) : Parser.Sound g.arrayType .type := by
  intro c n c' h
  unfold Grammar.arrayType at h
  obtain ⟨_, _, ⟨⟩, h⟩ := bind_done.mp h
  obtain ⟨first, c₁, h₁, h⟩ := bind_done.mp h
  refine loop_done (I := fun type => Derived .type c [type]) ?_ h (hg.primaryType h₁)
  rintro type d type' more d' ⟨ts, hts, hd⟩ h
  simp only [bind_done] at h
  obtain ⟨_, _, ⟨⟩, _, _, ⟨⟩, h⟩ := h
  split at h
  · next hb =>
    simp only [bind_done] at h
    obtain ⟨_, _, ⟨⟩, _, _, ⟨⟩, _, _, ⟨⟩, ⟨⟩⟩ := h
    simp only [Bool.and_eq_true, decide_eq_true_eq, Option.any_eq_true] at hb
    obtain ⟨ho, t', ht', hc⟩ := hb
    obtain rfl := Cursor.current_advance (by simp [ho]) ht'
    have p₂ := (passes_of_punct ho).trans (passes_of_punct hc)
    exact .of_over (hts.trans p₂) (.arrayType hd ho hc)
  · cases h
    exact ⟨ts, hts, hd⟩

theorem unionType (hg : g.Sound) : Parser.Sound g.unionType .type := by
  intro c n c' h
  unfold Grammar.unionType at h
  obtain ⟨_, _, ⟨⟩, h⟩ := bind_done.mp h
  obtain ⟨barred, c₁, h₁, h⟩ := bind_done.mp h
  obtain ⟨first, c₂, h₂, h⟩ := bind_done.mp h
  obtain ⟨types, c₃, h₃, h⟩ := bind_done.mp h
  obtain ⟨bs, p₁, hb⟩ := eat_done h₁
  obtain ⟨fs, p₂, hf⟩ := hg.arrayType h₂
  have hall : Derived (.joined .pipe .type) c₁ types c₃ := by
    refine loop_done (I := Derived (.joined .pipe .type) c₁) ?_ h₃ ⟨fs, p₂, .single hf⟩
    rintro types d types' more d' ⟨ts, hts, hd⟩ h
    obtain ⟨b, e, he, h⟩ := bind_done.mp h
    obtain ⟨us, hus, ⟨t, ht, rfl, rfl⟩ | ⟨rfl, rfl⟩⟩ := eat_done he
    · simp only [if_true, bind_done] at h
      obtain ⟨type, e', ha, ⟨⟩⟩ := h
      obtain ⟨vs, hvs, hv⟩ := hg.arrayType ha
      exact ⟨_, hts.trans (hus.trans hvs), .joined hd ht hv⟩
    · cases h
      have hd' := hts.trans hus
      rw [List.append_nil] at hd'
      exact ⟨ts, hd', hd⟩
  obtain ⟨ts, p₃, ht⟩ := hall
  split at h
  · cases h
    have ht := ht.of_joined_single
    obtain ⟨t, hbar, rfl, rfl⟩ | ⟨rfl, rfl⟩ := hb
    · exact ⟨_, p₁.trans p₃, .barredType hbar ht⟩
    · exact ⟨_, p₁.trans p₃, ht⟩
  · cases h
    exact .of_over (p₁.trans p₃) (.unionType hb ht)

end Grammar.Sound

end Quasiquote
