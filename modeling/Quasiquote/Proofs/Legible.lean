import Quasiquote.Options.Basic
import Quasiquote.Proofs.Parsing
import Quasiquote.Proofs.Rebuilding

namespace Quasiquote

namespace Print

variable (depth : Nat)

theorem text_identifier (name : String) : text depth (.identifier name) = name := by
  rw [text]
  rfl

theorem text_stringLiteral (value : String) :
    text depth (.stringLiteral value) = String.ofList (Literal.quote value.toList '"') := by
  rw [text]
  rfl

theorem text_boolean (value : Bool) :
    text depth (.boolean value) = if value then "true" else "false" := by
  rw [text]
  cases value <;> rfl

theorem text_propertyAccess (object name : String) :
    text depth (.propertyAccess (.identifier object) name) = object ++ "." ++ name := by
  have hobject : (Node.propertyAccess (.identifier object) name).child? .expression =
      some (.identifier object) := rfl
  have hname : (Node.propertyAccess (.identifier object) name).child? .name =
      some (.identifier name) := rfl
  have hpower : (Node.identifier object).power = Power.primaryLevel := rfl
  have hoperand : operand depth Power.postfixLevel (.identifier object) = object := by
    rw [operand, hpower, if_neg (by decide), text_identifier]
  have hdot : needsSecondDot (.identifier object) = false := rfl
  have hkind : (Node.propertyAccess (.identifier object) name).kind =
      .propertyAccessExpression := rfl
  rw [text, hkind]
  dsimp only
  rw [Node.elim_smaller? _ _ _ fun c => operand depth Power.postfixLevel c ++
    (if needsSecondDot c then "." else ""), Node.elim_smaller?, hobject, hname]
  simp [hoperand, hdot, text_identifier]

theorem text_call (callee : Node) (arguments : List Node) :
    text depth (.call callee arguments) = operand depth Power.postfixLevel callee ++
      parens (commas (arguments.map (operand depth Power.assignmentLevel))) := by
  have hcallee : (Node.call callee arguments).child? .expression = some callee := rfl
  have htypes : (Node.call callee arguments).list .typeArguments = [] := rfl
  have harguments : (Node.call callee arguments).list .arguments = arguments := rfl
  have hkind : (Node.call callee arguments).kind = .callExpression := rfl
  rw [text, hkind]
  dsimp only
  rw [Node.elim_smaller?, typeArguments, Print.arguments, Node.map_smallerList,
    Node.map_smallerList, hcallee, htypes, harguments]
  simp

theorem text_array (elements : List Node) : text depth (.array elements) =
    "[" ++ commas (elements.map (operand depth Power.assignmentLevel)) ++ "]" := by
  have helements : (Node.array elements).list .elements = elements := rfl
  have hkind : (Node.array elements).kind = .arrayLiteralExpression := rfl
  rw [text, hkind]
  dsimp only
  rw [Node.map_smallerList, helements]

end Print

open Piece

def Stops (rest : List Char) : Prop :=
  ∃ c r, rest = c :: r ∧ c ∈ [',', ')', ']', ';']

theorem Stops.head? {rest : List Char} (h : Stops rest) :
    ∀ c ∈ rest.head?, Token.continuesWord c = false := by
  obtain ⟨c, r, rfl, hc⟩ := h
  have hall : [',', ')', ']', ';'].all (fun d => !Token.continuesWord d) = true := by decide
  rintro _ ⟨⟩
  simpa only [Bool.not_eq_true'] using List.all_eq_true.mp hall c hc

/-- An expression that is written in pieces, and read back from them wherever they stand before
something that ends an operand. -/
structure Legible (e : Node) (ps : List Piece) : Prop where
  prints (depth : Nat) : (Print.operand depth Power.assignmentLevel e).toList = allChars ps
  spaced {rest : List Char} (h : Stops rest) : Spaced ps rest
  reads {ts : List Token} (hts : Spelled ps ts) {depth : Nat} (hd : ts.length ≤ depth) :
    (Grammar.toDepth (depth + 1)).ReadsElement ts e

theorem legible_stringLiteral (value : String) :
    Legible (.stringLiteral value) [.string value false] where
  prints depth := by
    have hpower : (Node.stringLiteral value).power = Power.primaryLevel := rfl
    rw [Print.operand, hpower, if_neg (by decide), Print.text_stringLiteral]
    simp [chars]
  spaced _ := ⟨trivial, trivial⟩
  reads hts depth hd := by
    obtain ⟨start, stop, us, rfl, hus⟩ := hts.exists_of_string
    obtain rfl := hus.eq_nil
    refine Grammar.readsElement_of_primary (by simp [Token.BeginsElement]) rfl rfl
      (fun last u rest hu => Grammar.arrow?_of_not_word (by simp) (by simp) (by simp))
      fun u rest hu last => ⟨_, _, Grammar.primary_string value false start stop, ?_⟩
    simp [Node.stringLiteral, Node.plain, Node.bare_mk, Field.bare]

theorem isWord_ends {word : String} (h : IsWord word) {rest : List Char} (hrest : Stops rest) :
    Spaced [.word word] rest :=
  ⟨⟨h, hrest.head?⟩, trivial⟩

theorem legible_boolean (value : Bool) :
    Legible (.boolean value) [.word (if value then "true" else "false")] where
  prints depth := by
    have hpower : (Node.boolean value).power = Power.primaryLevel := by cases value <;> rfl
    rw [Print.operand, hpower, if_neg (by decide), Print.text_boolean]
    simp [chars]
  spaced h := by
    refine isWord_ends ?_ h
    cases value <;> exact ⟨_, _, rfl, by decide, List.all_eq_true.mp (by decide)⟩
  reads hts depth hd := by
    obtain ⟨start, stop, us, rfl, hus⟩ := hts.exists_of_word
    obtain rfl := hus.eq_nil
    have hkeyword : Grammar.keywordLiteral? (if value then "true" else "false") =
        some (if value then .trueKeyword else .falseKeyword) := by
      cases value <;> rfl
    refine Grammar.readsElement_of_primary (by simp [Token.BeginsElement]) ?_ ?_
      (fun last u rest hu => Grammar.arrow?_of_word (.inl hu))
      fun u rest hu last => ⟨_, _, Grammar.primary_keyword hkeyword start stop, ?_⟩
    · cases value <;> simp [Grammar.sign?]
    · cases value <;> simp [Token.isWord]
    · simp [Node.boolean, Node.plain, Node.bare_mk]

theorem legible_undefined : Legible .undefined [.word "undefined"] where
  prints depth := by
    have hpower : Node.undefined.power = Power.primaryLevel := rfl
    rw [Print.operand, hpower, if_neg (by decide), Node.undefined, Print.text_identifier]
    simp [chars]
  spaced h := isWord_ends ⟨_, _, rfl, by decide, List.all_eq_true.mp (by decide)⟩ h
  reads hts depth hd := by
    obtain ⟨start, stop, us, rfl, hus⟩ := hts.exists_of_word
    obtain rfl := hus.eq_nil
    refine Grammar.readsElement_of_primary (by simp [Token.BeginsElement]) (by simp [Grammar.sign?])
      (by simp [Token.isWord]) (fun last u rest hu => Grammar.arrow?_of_word (.inl hu))
      fun u rest hu last => ⟨_, _, Grammar.primary_word (by decide) ?_ start stop, ?_⟩
    · rintro hk
      simp [Token.Closes, hk] at hu
    · simp [Node.undefined, Node.identifier, Node.plain, Node.bare_mk, Field.bare]

/-- Brackets, commas and arrows end wherever they stand. -/
theorem Punct.ends_of_mem {p : Punct}
    (hp : p ∈ [.parenOpen, .parenClose, .bracketOpen, .bracketClose, .braceOpen, .braceClose, .comma,
      .semicolon, .arrow]) (rest : List Char) : p.Ends rest := by
  simp only [List.mem_cons, List.not_mem_nil, or_false] at hp
  rcases hp with rfl | rfl | rfl | rfl | rfl | rfl | rfl | rfl | rfl <;>
    exact ⟨rfl, by simp, by simp⟩

theorem Punct.ends_dot {word : String} (h : IsWord word) (rest : List Char) :
    Punct.dot.Ends (word.toList ++ rest) := by
  obtain ⟨c, r, hword, hc, -⟩ := h
  have hdot : c ≠ '.' := by
    rintro rfl
    exact absurd hc (by decide)
  have hdigit : c.isDigit = false := by
    refine Bool.eq_false_iff.mpr fun hd => ?_
    rw [Token.not_startsWord_of_isDigit hd] at hc
    exact Bool.false_ne_true hc
  rw [hword, List.cons_append]
  refine ⟨?_, ?_, by simp⟩
  · have hprefix : ('.' == c) = false := beq_eq_false_iff_ne.mpr hdot.symm
    simp [Punct.ofText?, Punct.all, Punct.text, List.find?, List.isPrefixOf, hprefix]
  · rintro - d ⟨⟩
    exact hdigit

section

variable {es : List Node} {pss : List (List Piece)}

theorem toList_commas (h : List.Forall₂ Legible es pss) (depth : Nat) :
    (Print.commas (es.map (Print.operand depth Power.assignmentLevel))).toList =
      allChars (commas pss) := by
  refine toList_intercalate rfl ?_
  rw [List.forall₂_map_left_iff]
  exact h.imp fun e ps he => he.prints depth

theorem spaced_commaMark (rest : List Char) : Spaced [.punct .comma, .blank] rest :=
  ⟨Punct.ends_of_mem (by simp) _, trivial, trivial⟩

theorem spaced_commas (h : List.Forall₂ Legible es pss) {rest : List Char} (hrest : Stops rest) :
    Spaced (commas pss) rest := by
  refine spaced_intercalate spaced_commaMark (fun _ => ⟨',', _, rfl, by simp⟩) ?_ hrest
  induction h with
  | nil => simp
  | cons he _ ih => exact List.forall_mem_cons.mpr ⟨fun _ => he.spaced, ih⟩

theorem tokenCount_le_commas {ps : List Piece} (h : ps ∈ pss) :
    tokenCount ps ≤ tokenCount (commas pss) := by
  rw [commas]
  induction pss with
  | nil => simp at h
  | cons qs pss ih =>
    cases pss with
    | nil =>
      obtain rfl := List.mem_singleton.mp h
      simp
    | cons qs' pss =>
      rw [List.intercalate_cons_cons, tokenCount_append, tokenCount_append]
      rcases List.mem_cons.mp h with rfl | h
      · omega
      · have hle := ih h
        omega

/-- The elements of a list are read one level below the list. -/
theorem readsElements (h : List.Forall₂ Legible es pss) {ts : List Token}
    (hts : Spelled (commas pss) ts) {depth : Nat} (hd : ts.length ≤ depth) :
    Parser.ReadsEach (Grammar.toDepth (depth + 1)).ReadsElement es pss := by
  have hcount : ∀ ps ∈ pss, tokenCount ps ≤ depth := fun ps hps =>
    Nat.le_trans (tokenCount_le_commas hps) (hts.length_eq ▸ hd)
  clear hts hd
  induction h with
  | nil => exact .nil
  | @cons e ps es pss he hes ih =>
    obtain ⟨hps, hpss⟩ := List.forall_mem_cons.mp hcount
    exact .cons (fun ts hts => he.reads hts (hts.length_eq ▸ hps)) (ih hpss)

theorem legible_array (h : List.Forall₂ Legible es pss) :
    Legible (.array es) (.punct .bracketOpen :: (commas pss ++ [.punct .bracketClose])) where
  prints depth := by
    have hpower : (Node.array es).power = Power.primaryLevel := rfl
    rw [Print.operand, hpower, if_neg (by decide), Print.text_array]
    simp [toList_commas h, chars, Punct.text]
  spaced hrest := by
    refine ⟨Punct.ends_of_mem (by simp) _, (spaced_append_iff _ _ _).mpr ⟨?_, ?_⟩⟩
    · exact spaced_commas h ⟨']', _, rfl, by simp⟩
    · exact ⟨Punct.ends_of_mem (by simp) _, trivial⟩
  reads hts depth hd := by
    obtain ⟨a, b, _, rfl, hopen⟩ := hts.exists_of_punct
    obtain ⟨us, a', b', rfl, hus⟩ := hopen.exists_of_closed
    simp only [List.length_cons, List.length_append, List.length_nil] at hd
    obtain ⟨d, rfl⟩ : ∃ d, depth = d + 1 := ⟨depth - 1, by omega⟩
    have hitems := readsElements h hus (by omega : us.length ≤ d)
    refine Grammar.readsElement_of_primary (by simp [Token.BeginsElement]) rfl rfl
      (fun last u rest hu => Grammar.arrow?_of_not_word (by simp) (by simp) (by simp))
      fun u rest hu last => ?_
    obtain ⟨n, hn, hread⟩ := Grammar.primary_array hitems hus last a b a' b' (u :: rest)
    exact ⟨n, b', by simpa using hread, hn⟩

theorem Kind.isWord_factoryName (kind : Kind) : IsWord kind.factoryName := by
  have hname : ∀ k ∈ Kind.all, k.name.toList.all Token.continuesWord = true := by
    decide +kernel
  refine ⟨'c', "reate".toList ++ kind.name.toList, ?_, by decide, ?_⟩
  · simp [Kind.factoryName]
  · intro d hd
    rcases List.mem_append.mp hd with hd | hd
    · have hcreate : "reate".toList.all Token.continuesWord = true := by decide
      exact List.all_eq_true.mp hcreate d hd
    · exact List.all_eq_true.mp (hname kind kind.mem_all) d hd

theorem legible_factoryCall {ns : String} (hns : IsWord ns) (hr : isReserved ns = false)
    (kind : Kind) (h : List.Forall₂ Legible es pss) :
    Legible (.factoryCall ns kind es) (.word ns :: .punct .dot :: .word kind.factoryName ::
      .punct .parenOpen :: (commas pss ++ [.punct .parenClose])) where
  prints depth := by
    have hcall : (Node.factoryCall ns kind es).power = Power.postfixLevel := rfl
    have hmember : (Node.propertyAccess (.identifier ns) kind.factoryName).power =
      Power.postfixLevel := rfl
    rw [Print.operand, hcall, if_neg (by decide), Node.factoryCall, Print.text_call, Print.operand,
      hmember, if_neg (by decide), Print.text_propertyAccess]
    simp [toList_commas h, chars, Punct.text, Print.parens]
  spaced hrest := by
    have hmember := Kind.isWord_factoryName kind
    refine ⟨⟨hns, ?_⟩, ?_, ⟨hmember, ?_⟩, Punct.ends_of_mem (by simp) _,
      (spaced_append_iff _ _ _).mpr ⟨?_, Punct.ends_of_mem (by simp) _, trivial⟩⟩
    · rintro _ ⟨⟩
      decide
    · rw [allChars_cons, List.append_assoc]
      exact Punct.ends_dot hmember _
    · rintro _ ⟨⟩
      decide
    · exact spaced_commas h ⟨')', _, rfl, by simp⟩
  reads hts depth hd := by
    obtain ⟨a₁, b₁, _, rfl, hobject⟩ := hts.exists_of_word
    obtain ⟨a₂, b₂, _, rfl, hdot⟩ := hobject.exists_of_punct
    obtain ⟨a₃, b₃, _, rfl, hmember⟩ := hdot.exists_of_word
    obtain ⟨a₄, b₄, _, rfl, hopen⟩ := hmember.exists_of_punct
    obtain ⟨us, a₅, b₅, rfl, hus⟩ := hopen.exists_of_closed
    simp only [List.length_cons, List.length_append, List.length_nil] at hd
    obtain ⟨d, rfl⟩ : ∃ d, depth = d + 1 := ⟨depth - 1, by omega⟩
    have hitems := readsElements h hus (by omega : us.length ≤ d)
    refine Grammar.readsElement_of_leftHandSide (by simp [Token.BeginsElement])
      (Grammar.sign?_word hr a₁ b₁)
      (fun last u rest hu => Grammar.arrow?_of_word (.inr (Token.punct_kind ..)))
      fun u rest hu last => ?_
    obtain ⟨n, hn, hread⟩ := Grammar.leftHandSide_memberCall hr hitems hus hu last
      a₁ b₁ a₂ b₂ a₃ b₃ a₄ b₄ a₅ b₅
    exact ⟨n, b₅, by simpa using hread, hn⟩

end

theorem Options.isWord_of_isIdentifier {text : String} (h : isIdentifier text = true) :
    IsWord text := by
  unfold isIdentifier at h
  split at h
  · exact absurd h Bool.false_ne_true
  · next c r htext =>
    simp only [Bool.and_eq_true, Bool.or_eq_true, decide_eq_true_eq, List.all_eq_true] at h
    refine ⟨c, r, htext, ?_, ?_⟩
    · rcases h.1 with (hc | hc) | hc <;> simp [Token.startsWord, hc, Text.isAlphabetic_of_isAlpha]
    · intro d hd
      rcases h.2 d hd with (hc | hc) | hc
      · rcases Bool.or_eq_true_iff.mp hc with hc | hc <;>
          simp [Token.continuesWord, hc, Text.isAlphabetic_of_isAlpha, Text.isNumeric_of_isDigit]
      · simp [Token.continuesWord, hc]
      · simp [Token.continuesWord, hc]

theorem exists_forall₂ {α β : Type} {R : α → β → Prop} {l : List α}
    (h : ∀ a ∈ l, ∃ b, R a b) : ∃ bs, List.Forall₂ R l bs := by
  induction l with
  | nil => exact ⟨[], .nil⟩
  | cons a l ih =>
    obtain ⟨⟨b, hb⟩, hl⟩ := List.forall_mem_cons.mp h
    obtain ⟨bs, hbs⟩ := ih hl
    exact ⟨b :: bs, .cons hb hbs⟩

section

variable {ns : String}

theorem Field.legible_builderArgument (f : Field)
    (h : ∀ c ∈ f.nodes, ∃ ps, Legible (c.builderCall ns) ps) :
    ∃ ps, Legible (f.builderArgument ns) ps := by
  cases f with
  | node n => exact h n (by simp)
  | list ms =>
    have hcalls : ∀ e ∈ ms.map (Node.builderCall ns), ∃ ps, Legible e ps := by
      simpa using h
    obtain ⟨pss, hpss⟩ := exists_forall₂ hcalls
    exact ⟨_, legible_array hpss⟩
  | text s => exact ⟨_, legible_stringLiteral s⟩
  | flag b => exact ⟨_, legible_boolean b⟩
  | absent => exact ⟨_, legible_undefined⟩

/-- Builder calls are read back as they were written. -/
theorem Node.legible_builderCall (hns : IsWord ns) (hr : isReserved ns = false) (n : Node) :
    ∃ ps, Legible (n.builderCall ns) ps := by
  induction n using Node.inductionOnChildren with
  | h n ih =>
    cases n with
    | mk kind mark fields =>
      have harguments : ∀ e ∈ fields.map (Field.builderArgument ns), ∃ ps, Legible e ps := by
        simp only [List.forall_mem_map]
        intro f hf
        apply Field.legible_builderArgument
        intro c hc
        exact ih c (List.mem_flatMap.mpr ⟨f, hf, hc⟩)
      obtain ⟨pss, hpss⟩ := exists_forall₂ harguments
      rw [Node.builderCall_mk]
      exact ⟨_, legible_factoryCall hns hr kind hpss⟩

end

end Quasiquote
