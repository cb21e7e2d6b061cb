import Quasiquote.Proofs.Lexing
import Quasiquote.Proofs.ParsedTree
import Quasiquote.Proofs.Splicing

namespace Quasiquote

namespace Token

variable (R : Token → Token → Prop) (P : Token → Prop)

def Joins (ts us : List Token) : Prop :=
  ∀ t ∈ ts.getLast?, ∀ u ∈ us.head?, R t u

def Runs (ts : List Token) : Prop :=
  ts.IsChain R ∧ ∀ t ∈ ts, P t

variable {R P}

theorem runs_append {ts us : List Token} :
    Runs R P (ts ++ us) ↔ Runs R P ts ∧ Runs R P us ∧ Joins R ts us := by
  simp only [Runs, Joins, List.isChain_append, List.forall_mem_append]
  tauto

theorem runs_cons {t : Token} {ts : List Token} :
    Runs R P (t :: ts) ↔ P t ∧ Runs R P ts ∧ Joins R [t] ts := by
  simp only [Runs, Joins, List.isChain_cons, List.forall_mem_cons, List.getLast?_singleton,
    Option.mem_some_iff, forall_eq']
  tauto

variable (R) in
/-- The last of some tokens ends a statement by itself, or something else than a semicolon is next
to it. -/
def Closed (ts : List Token) : Prop :=
  ∀ t ∈ ts.getLast?, t.kind = .punct .semicolon ∨ t.kind = .punct .braceClose ∨
    ∃ u, R t u ∧ u.kind ≠ .punct .semicolon

theorem Closed.of_append {us : List Token} (ts : List Token) (h : Closed R (ts ++ us)) :
    Closed R us := by
  intro t ht
  rw [Option.mem_def] at ht
  exact h t (by rw [List.getLast?_append, ht]; rfl)

theorem Closed.of_next {ts us : List Token} (hjoins : Joins R ts us) {u : Token}
    (hu : u ∈ us.head?) (hk : u.kind ≠ .punct .semicolon) : Closed R ts :=
  fun t ht => .inr (.inr ⟨u, hjoins t ht u hu, hk⟩)

end Token

section

variable (R : Token → Token → Prop) (P : Token → Prop)

/-- What a phrase has to be told about its tokens: how they follow each other, and what is next to
them where it can end with a statement. -/
structure Phrase.Runs (p : Phrase) (ts : List Token) : Prop where
  runs : Token.Runs R P ts
  closed : p.isEnclosed = true ∨ p.isStatement = true ∧ Token.Closed R ts

def Node.Located (m : Node) : Prop :=
  m.kind ≠ .sourceFile → ∃ p us kind fields, m = .over kind us fields ∧
    Makes Derives p us kind fields ∧ Token.Runs R P us ∧ (p = .statement → Token.Closed R us)

def Node.AllLocated (n : Node) : Prop :=
  ∀ m ∈ n.preorder, m.Located R P

end

variable {R : Token → Token → Prop} {P : Token → Prop}

theorem Node.allLocated_over {kind : Kind} {ts : List Token} {fields : List Field}
    (hself : (Node.over kind ts fields).Located R P)
    (hnodes : ∀ c ∈ fields.flatMap Field.nodes, c.AllLocated R P) :
    (Node.over kind ts fields).AllLocated R P := by
  unfold Node.AllLocated
  rw [Node.preorder_eq, List.forall_mem_cons, List.forall_mem_flatMap]
  exact ⟨hself, hnodes⟩

theorem Derives.eq_nil_or_announced {m : Terminal} {p : Phrase} {ts : List Token}
    {ns : List Node} (h : Derives (.optional (.announced m p)) ts ns) :
    ts = [] ∨ ∃ t us, m.Matches t ∧ ts = t :: us := by
  cases h with
  | absent => exact .inl rfl
  | present h =>
    cases h with
    | announced ht _ => exact .inr ⟨_, _, ht, rfl⟩
    | made h => cases h
  | made h => cases h

namespace Phrase.Runs

variable {p q : Phrase} {ts us : List Token}

/-- Inside of a phrase that cannot end with a statement, nothing needs to be known of what is
next. -/
theorem of_isEnclosed (h : p.Runs R P ts) (hp : p.isStatement = false)
    (hq : p.isEnclosed = true → q.isEnclosed = true) (hus : Token.Runs R P us) : q.Runs R P us :=
  ⟨hus, .inl (hq (h.closed.resolve_right (by simp [hp])))⟩

theorem of_runs (hp : p.isEnclosed = true) (h : Token.Runs R P ts) : p.Runs R P ts :=
  ⟨h, .inl hp⟩

end Phrase.Runs

theorem Token.composes_runs {A : Node → Prop} :
    Token.Composes fun ts ns => Token.Runs R P ts → ∀ n ∈ ns, A n where
  empty := by simp
  append h h' hrun := by
    obtain ⟨hts, hus, -⟩ := Token.runs_append.mp hrun
    exact List.forall_mem_append.mpr ⟨h hts, h' hus⟩

/-- The nodes of the parts are located if those of each part are. A statement that has no semicolon
of its own is not followed by one, because the list that it stands in would not go on. -/
theorem Makes.allLocated_parts {p : Phrase} {ts : List Token} {kind : Kind} {fields : List Field}
    (h : Makes (fun q us ns => Derives q us ns ∧ (q.Runs R P us → ∀ n ∈ ns, n.AllLocated R P))
      p ts kind fields)
    (hrun : p.Runs R P ts) : ∀ c ∈ fields.flatMap Field.nodes, c.AllLocated R P := by
  by_cases hb : kind = .block
  · cases h with
    | block ht h ht' =>
      obtain ⟨hts, -, hjoins⟩ := Token.runs_append.mp hrun.runs
      obtain ⟨-, hts, -⟩ := Token.runs_cons.mp hts
      have hclosed := Token.Closed.of_next hjoins rfl (by simp [ht'])
      simpa using h.2 ⟨hts, .inr ⟨rfl, .of_append [_] hclosed⟩⟩
    | keywordLiteral _ hk =>
      subst hb
      cases Grammar.schema_of_keywordLiteral? hk
    | _ => cases hb
  by_cases hi : kind = .ifStatement
  · cases h with
    | @ifStatement t t' t'' cs us es _ _ _ _ _ hc _ h he =>
      obtain ⟨hhead, hes, hjoins⟩ := Token.runs_append.mp hrun.runs
      obtain ⟨hcs, hus, -⟩ := Token.runs_append.mp hhead
      have hclosed := (hrun.closed.resolve_left (by simp [Phrase.isEnclosed])).2
      have hbranch : Token.Closed R (t :: t' :: cs ++ t'' :: us) := by
        obtain rfl | ⟨u, vs, hu, rfl⟩ := he.1.eq_nil_or_announced
        · rwa [List.append_nil] at hclosed
        · exact .of_next hjoins rfl (by simp [Parser.kind_of_isWord hu])
      have hcondition := hc.2 (.of_runs rfl (Token.runs_cons.mp (Token.runs_cons.mp hcs).2.1).2.1)
      have hconsequence := h.2 ⟨(Token.runs_cons.mp hus).2.1,
        .inr ⟨rfl, .of_append [_] (.of_append _ hbranch)⟩⟩
      have halternative := he.2 ⟨hes, .inr ⟨rfl, .of_append _ hclosed⟩⟩
      simp_all [Field.nodes_ofOption, or_imp]
    | keywordLiteral _ hk =>
      subst hi
      cases Grammar.schema_of_keywordLiteral? hk
    | _ => cases hi
  refine (h.within.imp fun hq hus => hq.2.2 (.of_runs ?_ hus)).compose Token.composes_runs hrun.runs
  by_contra hopen
  exact (hq.1.statement (Bool.eq_false_iff.mpr hopen)).elim hb hi

/-- Every node of a phrase is located among the tokens of the phrase. -/
theorem Derives.allLocated {p : Phrase} {ts : List Token} {ns : List Node} (h : Derives p ts ns)
    (hrun : p.Runs R P ts) : ∀ n ∈ ns, n.AllLocated R P := by
  induction h with
  | absent | nil | noStatement => simp
  | present _ ih => exact ih ⟨hrun.runs, hrun.closed⟩
  | @announced _ _ t _ _ _ _ ih =>
    exact ih ⟨(Token.runs_cons.mp hrun.runs).2.1,
      hrun.closed.imp_right fun h => ⟨h.1, .of_append [t] h.2⟩⟩
  | snoc _ _ _ ihs ih =>
    obtain ⟨hts, hus, -⟩ := Token.runs_append.mp (Token.runs_append.mp hrun.runs).1
    exact List.forall_mem_append.mpr
      ⟨ihs (hrun.of_isEnclosed rfl id hts), ih (hrun.of_isEnclosed rfl id hus)⟩
  | single _ ih => exact ih (hrun.of_isEnclosed rfl id hrun.runs)
  | joined _ _ _ ihs ih =>
    obtain ⟨hts, hus, -⟩ := Token.runs_append.mp hrun.runs
    exact List.forall_mem_append.mpr ⟨ihs (hrun.of_isEnclosed rfl id hts),
      ih (hrun.of_isEnclosed rfl id (Token.runs_cons.mp hus).2.1)⟩
  | enclosed _ _ _ ih =>
    obtain ⟨hts, -⟩ := Token.runs_append.mp hrun.runs
    exact ih (hrun.of_isEnclosed rfl id (Token.runs_cons.mp hts).2.1)
  | @nextStatement ts us _ _ hs h hparts ihs ih =>
    obtain ⟨hts, hus, hjoins⟩ := Token.runs_append.mp hrun.runs
    have hclosed := (hrun.closed.resolve_left (by simp [Phrase.isEnclosed])).2
    refine List.forall_mem_append.mpr
      ⟨ihs ⟨hts, .inr ⟨rfl, fun t ht => ?_⟩⟩, ih ⟨hus, .inr ⟨rfl, .of_append ts hclosed⟩⟩⟩
    obtain ⟨u, us, rfl⟩ := List.exists_cons_of_ne_nil (h.ne_nil rfl)
    exact (hparts t ht u rfl).imp_right (.imp_right fun hk => ⟨u, hjoins t ht u rfl, hk⟩)
  | entity _ ih | element _ ih | blockStatement _ ih => exact ih (.of_runs rfl hrun.runs)
  | property hp _ ih => exact ih (.of_runs (by rcases hp with rfl | rfl | rfl <;> rfl) hrun.runs)
  | operand hp _ ih =>
    exact ih (.of_runs (by rcases hp with rfl | rfl | rfl | rfl <;> rfl) hrun.runs)
  | body hp _ ih => exact ih (.of_runs (by rcases hp with rfl | rfl <;> rfl) hrun.runs)
  | parenthesizedType _ _ _ ih =>
    obtain ⟨hts, -⟩ := Token.runs_append.mp hrun.runs
    exact ih (.of_runs rfl (Token.runs_cons.mp hts).2.1)
  | barredType _ _ ih | callee _ _ _ ih => exact ih (.of_runs rfl (Token.runs_cons.mp hrun.runs).2.1)
  | made h hparts ih =>
    rw [List.forall_mem_singleton]
    refine Node.allLocated_over (fun _ => ⟨_, _, _, _, rfl, h.imp hparts, hrun.runs, ?_⟩)
      ((h.imp fun hq => ⟨hparts hq, ih hq⟩).allLocated_parts hrun)
    rintro rfl
    exact (hrun.closed.resolve_left (by simp [Phrase.isEnclosed])).2

/-- Every node of a parsed source is located among its tokens. -/
theorem parse_allLocated {source : String} {tree : Node} (h : parse source = .ok tree) :
    ∃ tokens, Token.scan source = .ok tokens ∧
      tree.AllLocated (Token.Follows source.toList)
        fun t => t ∈ tokens ∧ Token.Stands source.toList t := by
  obtain ⟨tokens, c, hscan, hdone⟩ := parse_eq_ok h
  obtain ⟨ts, statements, mark, htokens, heof, hd, -, rfl⟩ := moduleOfTokens_done hdone
  obtain ⟨hchain, hstands⟩ := Token.scan_chain hscan
  refine ⟨tokens, hscan, ?_⟩
  have hrun : Token.Runs (Token.Follows source.toList)
      (fun t => t ∈ tokens ∧ Token.Stands source.toList t) (ts ++ c.rest) :=
    htokens ▸ ⟨hchain, fun t ht => ⟨ht, hstands t ht⟩⟩
  obtain ⟨hts, -, hjoins⟩ := Token.runs_append.mp hrun
  have hclosed : Token.Closed (Token.Follows source.toList) ts := by
    cases hrest : c.rest with
    | nil =>
      have hlast := Token.getLast?_scanFrom hscan
      rw [htokens, hrest, List.append_nil, Nat.zero_add] at hlast
      intro t ht
      obtain rfl := Option.mem_unique ht hlast
      refine .inr (.inr ⟨_, ⟨source.toList, [], [], by simp, rfl, .nil, .eof⟩, fun hkind => ?_⟩)
      cases hkind
    | cons u rest =>
      rw [hrest] at hjoins
      have hu : c.current = u := by rw [Cursor.current, hrest]; rfl
      exact .of_next hjoins rfl (by simp [← hu, heof])
  have hall := hd.allLocated ⟨hts, .inr ⟨rfl, hclosed⟩⟩
  intro m hm
  rw [Node.preorder_eq, List.mem_cons, List.mem_flatMap] at hm
  obtain rfl | ⟨s, hs, hm⟩ := hm
  · exact absurd rfl
  · exact hall s (by simpa [Node.children, Node.fields] using hs) m hm

theorem Makes.eq_of_identifier {D : Phrase → List Token → List Node → Prop} {p : Phrase}
    {ts : List Token} {kind : Kind} {fields : List Field} (h : Makes D p ts kind fields)
    (hk : kind = .identifier) : ∃ t, ts = [t] ∧ t.kind = .word ∧
      (Node.over kind ts fields).text? .text = some t.text := by
  cases h with
  | name ht _ | word ht => exact ⟨_, rfl, ht, rfl⟩
  | keywordLiteral _ hl =>
    subst hk
    cases Grammar.schema_of_keywordLiteral? hl
  | _ => cases hk

theorem Derives.eq_of_identifier {ts : List Token} {n : Node} (h : Derives .expression ts [n])
    (hk : n.kind = .identifier) :
    ∃ t, ts = [t] ∧ t.kind = .word ∧ n.text? .text = some t.text := by
  obtain ⟨q, kind, fields, hn, hm, -⟩ := h.makes_of_expression
  obtain rfl := List.singleton_inj.mp hn
  exact hm.eq_of_identifier hk

theorem Derives.eq_of_name {ts : List Token} {n : Node} {token : String}
    (h : Derives .expression ts [n]) (hn : n.identifier? = some token) :
    ∃ t, ts = [t] ∧ t.isWord token = true := by
  unfold Node.identifier? at hn
  split at hn
  · next hk =>
    obtain ⟨t, rfl, ht, htext⟩ := h.eq_of_identifier hk
    obtain rfl := Option.some.inj (htext.symm.trans hn)
    exact ⟨t, rfl, by simp [Token.isWord, ht]⟩
  · cases hn

theorem Derives.of_statements_singleton {ts : List Token} {n : Node}
    (h : Derives .statements ts [n]) : Derives .statement ts [n] := by
  generalize hns : [n] = ns at h
  cases h with
  | noStatement => cases hns
  | @nextStatement _ us statements m hs h _ =>
    obtain ⟨rfl, hm⟩ : statements = [] ∧ n = m := by
      cases statements with
      | nil => exact ⟨rfl, by simpa using hns⟩
      | cons => simp at hns
    generalize hnil : ([] : List Node) = ns at hs
    cases hs with
    | noStatement => simpa [hm] using h
    | nextStatement => simp at hnil
    | made h => cases h
  | made h => cases h

namespace Role

variable {n : Node} {token : String}

/-- The tokens that carry the token of a template in a node, and the bytes they stand on. -/
theorem located_identifier (hn : n.Located R P) (h : n.identifier? = some token) :
    ∃ t, P t ∧ t.isWord token = true ∧ n.span = some (Token.extent [t]) := by
  unfold Node.identifier? at h
  split at h
  · next hk =>
    obtain ⟨_, us, kind, fields, rfl, hm, hrun, -⟩ := hn (by simp [hk])
    obtain ⟨t, rfl, ht, htext⟩ := hm.eq_of_identifier hk
    obtain rfl := Option.some.inj (htext.symm.trans h)
    exact ⟨t, hrun.2 t (List.mem_singleton_self t), by simp [Token.isWord, ht], rfl⟩
  · cases h

theorem located_string (hn : n.Located R P) (h : stringLiteral.token? n = some token) :
    ∃ t, P t ∧ t.kind = .string ∧ t.value = token ∧ n.span = some (Token.extent [t]) := by
  simp only [token?] at h
  split at h
  · next hk =>
    obtain ⟨_, us, kind, fields, rfl, hm, hrun, -⟩ := hn (by simp [hk])
    replace hk : kind = .stringLiteral := hk
    cases hm with
    | string ht =>
      obtain rfl := Option.some.inj h
      exact ⟨_, hrun.2 _ (List.mem_singleton_self _), ht, rfl, rfl⟩
    | keywordLiteral _ hl =>
      subst hk
      cases Grammar.schema_of_keywordLiteral? hl
    | _ => cases hk
  · cases h

theorem located_block (hn : n.Located R P) (h : block.token? n = some token) :
    ∃ t u vs w, Token.Runs R P (t :: u :: vs ++ [w]) ∧ t.kind = .punct .braceOpen ∧
      u.isWord token = true ∧ Terminal.Separates [.semicolon] vs ∧ w.kind = .punct .braceClose ∧
      n.span = some (Token.extent (t :: u :: vs ++ [w])) := by
  simp only [token?] at h
  split at h
  · next s hk hs =>
    split at h
    · next hks =>
      obtain ⟨_, us, kind, fields, rfl, hm, hrun, -⟩ := hn (by simp [hk])
      replace hk : kind = .block := hk
      cases hm with
      | block ht hd ht' =>
        obtain rfl : _ = [s] := hs
        have hstatement := hd.of_statements_singleton
        cases hstatement with
        | blockStatement hb =>
          obtain ⟨_, _, ⟨⟩, ⟨⟩⟩ := hb.exists_makes rfl
          cases hks
        | made hs hparts =>
          cases hs with
          | expressionStatement he hsep =>
            obtain ⟨u, rfl, hu⟩ := (hparts he).eq_of_name h
            exact ⟨_, u, _, _, hrun, ht, hu, hsep, ht', rfl⟩
          | _ => cases hks
      | keywordLiteral _ hl =>
        subst hk
        cases Grammar.schema_of_keywordLiteral? hl
      | _ => cases hk
    · cases h
  · cases h

theorem located_returnStatement (hn : n.Located R P) (h : returnStatement.token? n = some token) :
    ∃ t u vs, Token.Runs R P (t :: u :: vs) ∧ t.isWord "return" = true ∧ u.isWord token = true ∧
      Terminal.Separates [.semicolon] vs ∧ Token.Closed R (t :: u :: vs) ∧
      n.span = some (Token.extent (t :: u :: vs)) := by
  simp only [token?] at h
  split at h
  · next hk =>
    obtain ⟨_, us, kind, fields, rfl, hm, hrun, hclosed⟩ := hn (by simp [hk])
    replace hk : kind = .returnStatement := hk
    cases hm with
    | @returnStatement _ _ _ value ht hd hsep =>
      cases value with
      | none => cases h
      | some e =>
        cases hd with
        | present he =>
          obtain ⟨u, rfl, hu⟩ := he.eq_of_name h
          exact ⟨_, u, _, hrun, ht, hu, hsep, hclosed rfl, rfl⟩
        | made hm => cases hm
    | keywordLiteral _ hl =>
      subst hk
      cases Grammar.schema_of_keywordLiteral? hl
    | _ => cases hk
  · cases h

end Role

end Quasiquote
