import Quasiquote.Proofs.Soundness.Expressions

namespace Quasiquote

namespace Grammar.Sound

open Quasiquote.Parser

variable {g : Grammar} {c c' c₀ : Cursor} {n : Node}

theorem expressionStatement (hg : g.Sound) (h : g.expressionStatement c = .done n c') :
    Stated c n c' := by
  simp only [Grammar.expressionStatement, bind_done] at h
  obtain ⟨_, _, ⟨⟩, e, c₁, h₁, _, c₂, h₂, ⟨⟩⟩ := h
  obtain ⟨ts, p₁, ht⟩ := hg.assignment h₁
  obtain ⟨us, p₂, hs, hp⟩ := semicolon_done h₂
  exact .of_over (p₁.trans p₂) (.expressionStatement ht hs) (hp _)

theorem returnStatement (hg : g.Sound) (hc : c.current.isWord "return" = true)
    (h : g.returnStatement c = .done n c') : Stated c n c' := by
  simp only [Grammar.returnStatement, bind_done, ite_bind_done] at h
  obtain ⟨_, _, ⟨⟩, _, _, ⟨⟩, _, _, ⟨⟩, _, _, ⟨⟩, _, _, ⟨⟩, _, _, ⟨⟩, value, c₂, h₂, _, c₃, h₃,
    ⟨⟩⟩ := h
  obtain ⟨us, p₃, hs, hp⟩ := semicolon_done h₃
  have hv : Derived (.optional .expression) c.advance value.toList c₂ := by
    split at h₂
    · cases h₂
      exact ⟨[], .refl _, .absent⟩
    · rw [map_done] at h₂
      obtain ⟨value, h₂, rfl⟩ := h₂
      obtain ⟨ts, p₂, ht⟩ := hg.expression h₂
      exact ⟨ts, p₂, .present ht⟩
  obtain ⟨ts, p₂, hv⟩ := hv
  exact .of_over (((passes_of_word (kind_of_isWord hc)).trans p₂).trans p₃)
    (.returnStatement hc hv hs) (hp _)

theorem throwStatement (hg : g.Sound) (hc : c.current.isWord "throw" = true)
    (h : g.throwStatement c = .done n c') : Stated c n c' := by
  simp only [Grammar.throwStatement, bind_done] at h
  obtain ⟨_, _, ⟨⟩, _, _, ⟨⟩, e, c₂, h₂, _, c₃, h₃, ⟨⟩⟩ := h
  obtain ⟨ts, p₂, ht⟩ := hg.expression h₂
  obtain ⟨us, p₃, hs, hp⟩ := semicolon_done h₃
  exact .of_over (((passes_of_word (kind_of_isWord hc)).trans p₂).trans p₃)
    (.throwStatement hc ht hs) (hp _)

theorem ifStatement (hg : g.Sound) (hc : c.current.isWord "if" = true)
    (h : g.ifStatement c = .done n c') : Stated c n c' := by
  simp only [Grammar.ifStatement, bind_done, ite_bind_done] at h
  obtain ⟨_, _, ⟨⟩, _, _, ⟨⟩, _, c₁, h₁, condition, c₂, h₂, _, c₃, h₃, consequence, c₄, h₄, b, c₅,
    h₅, alternative, c₆, h₆, ⟨⟩⟩ := h
  obtain ⟨t', p₁, ht'⟩ := expect_done h₁
  obtain ⟨cs, p₂, hcond⟩ := hg.expression h₂
  obtain ⟨t'', p₃, ht''⟩ := expect_done h₃
  obtain ⟨ts, p₄, ht, hp⟩ := hg.statement h₄
  have p₀ := passes_of_word (kind_of_isWord hc)
  have hhead := (p₀.trans (p₁.trans p₂)).trans (p₃.trans p₄)
  obtain ⟨es, p₅, ⟨t, hw, rfl, rfl⟩ | ⟨rfl, rfl⟩⟩ := eatWord_done h₅
  · simp only [if_true, map_done] at h₆
    obtain ⟨alternative, h₆, rfl⟩ := h₆
    obtain ⟨us, p₆, hu, hp'⟩ := hg.statement h₆
    exact .of_over (hhead.trans (p₅.trans p₆))
      (.ifStatement hc ht' hcond ht'' ht (.present (.announced hw hu)))
      ((hp'.of_append (hu.ne_nil rfl) [t]).of_append (by simp) _)
  · cases h₆
    refine .of_over (hhead.trans p₅) (.ifStatement hc ht' hcond ht'' ht .absent) ?_
    rw [p₅.rest] at hp
    rw [List.append_nil]
    exact (hp.of_append (ht.ne_nil rfl) [t'']).of_append (by simp) _

theorem variableDeclaration (hg : g.Sound) :
    Parser.Sound g.variableDeclaration .declaration := by
  intro c n c' h
  simp only [Grammar.variableDeclaration, bind_done] at h
  obtain ⟨_, _, ⟨⟩, name, c₁, h₁, type, c₂, h₂, initializer, c₃, h₃, ⟨⟩⟩ := h
  obtain ⟨ns, p₁, hn⟩ := identifier_done h₁
  obtain ⟨ts, p₂, ht⟩ := announced_done hg.typeNode h₂
  obtain ⟨is, p₃, hi⟩ := announced_done hg.expression h₃
  exact .of_over ((p₁.trans p₂).trans p₃) (.declaration hn ht hi)

theorem variableStatement (hg : g.Sound) {exported : Bool} {es : List Token}
    (he : Terminal.Perhaps (.word "export") es exported) (hp : c₀.Passes es c)
    (hc : c.current.kind = .word) (hk : isVariableKeyword c.current.text = true)
    (h : g.variableStatement exported c₀.current.start c = .done n c') :
    Stated c₀ n c' := by
  simp only [Grammar.variableStatement] at h
  rw [bind_done] at h
  obtain ⟨_, _, ⟨⟩, h⟩ := h
  rw [bind_done] at h
  obtain ⟨_, _, ⟨⟩, h⟩ := h
  rw [bind_done] at h
  obtain ⟨declarations, c₂, h₂, h⟩ := h
  simp only [bind_done] at h
  obtain ⟨_, _, ⟨⟩, _, c₃, h₃, ⟨⟩⟩ := h
  obtain ⟨us, p₃, hs, hparts⟩ := semicolon_done h₃
  have hd : Derived (.many [.comma] .declaration) c.advance declarations c₂ := by
    refine loop_done (I := Derived (.many [.comma] .declaration) c.advance) ?_ h₂
      ⟨[], .refl _, .nil⟩
    rintro ns d ms more d' ⟨ts, hts, hd⟩ h
    simp only [bind_done] at h
    obtain ⟨n, e, hn, more, e', hm, ⟨⟩⟩ := h
    obtain ⟨us, hus, hu⟩ := hg.variableDeclaration hn
    obtain ⟨vs, hvs, hv⟩ := eat_done hm
    refine ⟨_, (hts.trans hus).trans hvs, .snoc hd hu ?_⟩
    obtain ⟨t, ht, rfl, -⟩ | ⟨rfl, -⟩ := hv
    · exact .inr ⟨t, _, List.mem_singleton.mpr rfl, ht, rfl⟩
    · exact .inl rfl
  obtain ⟨ds, p₂, hd⟩ := hd
  have hlist := (passes_of_word hc).trans p₂
  rw [← hlist.extent (by simp)]
  have hd := (Makes.declarationList hc hk hd).derives
  exact .of_over ((hp.trans hlist).trans p₃) (.variableStatement he hd hs) (hparts _)

theorem functionDeclaration (hg : g.Sound) {exported : Bool} {es : List Token}
    (he : Terminal.Perhaps (.word "export") es exported) (hp : c₀.Passes es c)
    (h : g.functionDeclaration exported c₀.current.start c = .done n c') :
    Stated c₀ n c' := by
  simp only [Grammar.functionDeclaration, bind_done] at h
  obtain ⟨async, c₁, h₁, _, c₂, h₂, name, c₃, h₃, typeParameters, c₄, h₄, parameters, c₅, h₅, type,
    c₆, h₆, _, _, ⟨⟩, h⟩ := h
  obtain ⟨as, p₁, ha⟩ := eatWord_done h₁
  obtain ⟨t, p₂, ht⟩ := expectWord_done h₂
  obtain ⟨ns, p₃, hn⟩ := identifier_done h₃
  obtain ⟨qs, p₄, hq⟩ := hg.typeParameters h₄
  obtain ⟨ps, p₅, hps⟩ := hg.parameters h₅
  obtain ⟨ts, p₆, hr⟩ := announced_done hg.typeNode h₆
  have hhead := ((((hp.trans p₁).trans (p₂.trans p₃)).trans p₄).trans p₅).trans p₆
  split at h
  · simp only [map_done, bind_done] at h
    obtain ⟨body, c₇, ⟨b, h₇, rfl⟩, ⟨⟩⟩ := h
    obtain ⟨bs, p₇, hb⟩ := hg.block h₇
    have hparts : Token.Parts bs c'.rest := hb.parts_block
    refine .of_over ((hhead.trans p₇).trans (.refl _))
      (.functionDeclaration he ha ht hn hq hps hr (.present hb) (.inl rfl)) ?_
    rw [List.append_nil]
    exact hparts.of_append (hb.ne_nil rfl) _
  · simp only [bind_done] at h
    obtain ⟨_, c₇, h₇, _, _, ⟨⟩, ⟨⟩⟩ := h
    obtain ⟨us, p₇, hs, hparts⟩ := semicolon_done h₇
    exact .of_over ((hhead.trans (.refl _)).trans p₇)
      (.functionDeclaration he ha ht hn hq hps hr .absent hs) (hparts _)

theorem exportStatement (hg : g.Sound) (hc : c.current.isWord "export" = true)
    (h : g.exportStatement c = .done n c') : Stated c n c' := by
  have p₁ := passes_of_word (kind_of_isWord hc)
  have he : Terminal.Perhaps (.word "export") [c.current] true := .inl ⟨_, hc, rfl, rfl⟩
  simp only [Grammar.exportStatement, bind_done] at h
  obtain ⟨_, _, ⟨⟩, _, _, ⟨⟩, _, _, ⟨⟩, h⟩ := h
  split at h
  · next hk =>
    simp only [Bool.and_eq_true, decide_eq_true_eq] at hk
    exact hg.variableStatement he p₁ hk.1 hk.2 h
  · split at h
    · exact hg.functionDeclaration he p₁ h
    · cases h

theorem importSpecifier : Parser.Sound Grammar.importSpecifier .specifier := by
  intro c n c' h
  simp only [Grammar.importSpecifier, bind_done] at h
  obtain ⟨_, _, ⟨⟩, imported, c₁, h₁, b, c₂, h₂, h⟩ := h
  obtain ⟨is, p₁, hi⟩ := identifierName_done h₁
  obtain ⟨ts, p₂, ⟨t, ht, rfl, rfl⟩ | ⟨rfl, rfl⟩⟩ := eatWord_done h₂
  · simp only [if_true, bind_done] at h
    obtain ⟨name, c₃, h₃, ⟨⟩⟩ := h
    obtain ⟨ns, p₃, hn⟩ := identifier_done h₃
    exact .of_over (p₁.trans (p₂.trans p₃)) (.renamedSpecifier hi ht hn)
  · cases h
    have p' := p₁.trans p₂
    rw [List.append_nil] at p'
    exact .of_over p' (.specifier hi)

theorem namedBindings : Parser.Sound Grammar.namedBindings .bindings := by
  intro c n c' h
  simp only [Grammar.namedBindings] at h
  rw [bind_done] at h
  obtain ⟨_, _, ⟨⟩, h⟩ := h
  rw [bind_done] at h
  obtain ⟨b, c₁, h₁, h⟩ := h
  obtain ⟨ts, p₁, ⟨t, ht, rfl, rfl⟩ | ⟨rfl, rfl⟩⟩ := eat_done h₁
  · simp only [if_true, bind_done] at h
    obtain ⟨_, c₂, h₂, name, c₃, h₃, ⟨⟩⟩ := h
    obtain ⟨t', p₂, ht'⟩ := expectWord_done h₂
    obtain ⟨ns, p₃, hn⟩ := identifier_done h₃
    exact .of_over (p₁.trans (p₂.trans p₃)) (.namespaceImport ht ht' hn)
  · simp only [Bool.false_eq_true, if_false, bind_done] at h
    obtain ⟨_, c₂, h₂, elements, c₃, h₃, _, c₄, h₄, ⟨⟩⟩ := h
    obtain ⟨t, p₂, ht⟩ := expect_done h₂
    obtain ⟨es, p₃, hes⟩ := commaList_done pure_unit importSpecifier h₃
    obtain ⟨t', p₄, ht'⟩ := expect_done h₄
    exact .of_over (p₁.trans ((p₂.trans p₃).trans p₄)) (.namedImports (.enclosed ht hes ht'))

theorem importClause : Parser.Sound Grammar.importClause .clause := by
  intro c n c' h
  simp only [Grammar.importClause, bind_done] at h
  obtain ⟨_, _, ⟨⟩, _, _, ⟨⟩, h⟩ := h
  split at h
  · simp only [bind_done] at h
    obtain ⟨name, c₁, h₁, bindings, c₂, h₂, ⟨⟩⟩ := h
    obtain ⟨ns, p₁, hn⟩ := identifier_done h₁
    obtain ⟨bs, p₂, hb⟩ := announced_done namedBindings h₂
    exact .of_over (p₁.trans p₂) (.defaultClause hn hb)
  · split at h
    · simp only [bind_done] at h
      obtain ⟨bindings, c₁, h₁, ⟨⟩⟩ := h
      obtain ⟨bs, p₁, hb⟩ := namedBindings h₁
      exact .of_over p₁ (.bindingsClause hb)
    · cases h

theorem importDeclaration (hc : c.current.isWord "import" = true)
    (h : Grammar.importDeclaration c = .done n c') : Stated c n c' := by
  have p₀ := passes_of_word (kind_of_isWord hc)
  simp only [Grammar.importDeclaration, bind_done] at h
  obtain ⟨_, _, ⟨⟩, _, _, ⟨⟩, _, _, ⟨⟩, h⟩ := h
  split at h
  · next hs =>
    simp only [bind_done] at h
    obtain ⟨module, c₁, h₁, _, c₂, h₂, ⟨⟩⟩ := h
    obtain ⟨ms, p₁, hm⟩ := stringLiteral_done h₁ hs
    obtain ⟨us, p₂, hu, hp⟩ := semicolon_done h₂
    exact .of_over ((p₀.trans p₁).trans p₂) (.bareImport hc hm hu) (hp _)
  · simp only [bind_done] at h
    obtain ⟨clause, c₁, h₁, _, c₂, h₂, _, _, ⟨⟩, h⟩ := h
    obtain ⟨cs, p₁, hclause⟩ := importClause h₁
    obtain ⟨t', p₂, ht'⟩ := expectWord_done h₂
    split at h
    · simp only [bind_done] at h
      obtain ⟨_, _, ⟨⟩, -⟩ := h
    · next hs =>
      simp only [bind_done] at h
      obtain ⟨module, c₃, h₃, _, c₄, h₄, ⟨⟩⟩ := h
      obtain ⟨ms, p₃, hm⟩ := stringLiteral_done h₃ (by simpa using hs)
      obtain ⟨us, p₄, hu, hp⟩ := semicolon_done h₄
      exact .of_over (((p₀.trans p₁).trans (p₂.trans p₃)).trans p₄)
        (.importDeclaration hc hclause ht' hm hu) (hp _)

theorem wordStatement (hg : g.Sound) {word : String} (hc : c.current.isWord word = true)
    (h : g.wordStatement word c = .done n c') : Stated c n c' := by
  have hnone : Terminal.Perhaps (.word "export") [] false := .inr ⟨rfl, rfl⟩
  have htext : c.current.text = word := by
    simp only [Token.isWord, Bool.and_eq_true, decide_eq_true_eq] at hc
    exact hc.2
  simp only [Grammar.wordStatement, Grammar.startsFunction, bind_done] at h
  obtain ⟨_, _, ⟨⟩, _, _, ⟨⟩, h⟩ := h
  split at h
  · next hw =>
    simp only [Bool.and_eq_true, decide_eq_true_eq] at hw
    exact importDeclaration (hw.1 ▸ hc) h
  split at h
  · next hw => exact hg.exportStatement (hw ▸ hc) h
  split at h
  · next hw => exact hg.variableStatement hnone (.refl c) (kind_of_isWord hc) (htext ▸ hw) h
  simp only [bind_done] at h
  obtain ⟨_, _, ⟨_, _, ⟨⟩, ⟨⟩⟩, h⟩ := h
  split at h
  · exact hg.functionDeclaration hnone (.refl c) h
  split at h
  · next hw => exact hg.returnStatement (hw ▸ hc) h
  split at h
  · next hw => exact hg.ifStatement (hw ▸ hc) h
  split at h
  · next hw => exact hg.throwStatement (hw ▸ hc) h
  · exact hg.expressionStatement h

theorem anyStatement (hg : g.Sound) (h : g.anyStatement c = .done n c') : Stated c n c' := by
  simp only [Grammar.anyStatement, bind_done] at h
  obtain ⟨_, _, ⟨⟩, _, _, ⟨⟩, h⟩ := h
  generalize hk : c.current.kind = kind at h
  split at h
  · obtain ⟨ts, p₁, ht⟩ := hg.block h
    exact ⟨ts, p₁, .blockStatement ht, ht.parts_block⟩
  · simp only [bind_done] at h
    obtain ⟨_, _, ⟨⟩, ⟨⟩⟩ := h
    exact .of_over (passes_of_punct hk) (.emptyStatement hk) (Token.parts_of_ends (.inl hk) [] _)
  · exact hg.wordStatement (by simp [Token.isWord, hk]) h
  · exact hg.expressionStatement h

theorem deeper (hg : g.Sound) : g.deeper.Sound where
  statement := hg.anyStatement
  expression := hg.assignment
  operation := hg.binary
  operand := hg.unary
  typeNode := hg.unionType

theorem toDepth (depth : Nat) : (Grammar.toDepth depth).Sound := by
  induction depth with
  | zero =>
    have hstarve : ∀ phrase, Parser.Sound starve phrase := fun _ _ _ _ h => nomatch h
    exact ⟨(nomatch ·), hstarve _, fun _ => hstarve _, hstarve _, hstarve _⟩
  | succ depth ih => exact ih.deeper

end Grammar.Sound

/-- The tokens of a module are those of its statements and a mark of the end. The module begins where
its first token does, which is the mark of the end if there is no other. -/
theorem moduleOfTokens_passes {tokens : List Token} {tree : Node} {c : Cursor}
    (h : moduleOfTokens tokens = .done tree c) :
    ∃ ts statements, Cursor.Passes ⟨0, tokens⟩ ts c ∧ c.current.kind = .eof ∧
      Derives .statements ts statements ∧
      tree = .mk .sourceFile { span := some ⟨(Cursor.mk 0 tokens).current.start,
        max c.last (Cursor.mk 0 tokens).current.start⟩ } [.list statements] := by
  have hg := Grammar.Sound.toDepth (tokens.length + 1)
  simp only [moduleOfTokens, Grammar.module] at h
  rw [Parser.bind_done] at h
  obtain ⟨_, _, ⟨⟩, h⟩ := h
  rw [Parser.bind_done] at h
  obtain ⟨statements, c₁, h₁, ⟨⟩⟩ := h
  obtain ⟨⟨ts, hts, hd⟩, heof⟩ :=
    hg.many_statements (E := fun d => d.current.kind = .eof) (by
      intro ns d ms more d' h
      simp only [Parser.bind_done] at h
      obtain ⟨_, _, ⟨⟩, h⟩ := h
      split at h
      · next hend =>
        cases h
        exact .inl ⟨rfl, rfl, by simpa using hend⟩
      · simp only [Parser.bind_done] at h
        obtain ⟨n, e, hn, ⟨⟩⟩ := h
        exact .inr ⟨n, hn, rfl, rfl⟩) h₁
  exact ⟨ts, statements, hts, heof, hd, rfl⟩

theorem moduleOfTokens_done {tokens : List Token} {tree : Node} {c : Cursor}
    (h : moduleOfTokens tokens = .done tree c) :
    ∃ ts statements mark, tokens = ts ++ c.rest ∧ c.current.kind = .eof ∧
      Derives .statements ts statements ∧ mark.id = none ∧
      tree = .mk .sourceFile mark [.list statements] := by
  obtain ⟨ts, statements, hts, heof, hd, rfl⟩ := moduleOfTokens_passes h
  exact ⟨ts, statements, _, hts.rest, heof, hd, rfl, rfl⟩

end Quasiquote
