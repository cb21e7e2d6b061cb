import Quasiquote.Proofs.RoundTrip.Operators
import Quasiquote.Proofs.RoundTrip.Pieces

namespace Quasiquote

namespace Print

variable (depth : Nat) (mark : Mark)

theorem text_parenthesized (e : Node) :
    text depth (.mk .parenthesizedExpression mark [.node e]) = parens (text depth e) := by
  rw [text]
  dsimp only [Node.kind]
  rw [Node.elim_smaller?]
  rfl

theorem text_binary (l r : Node) (op : String) :
    text depth (.mk .binaryExpression mark [.node l, .text op, .node r]) =
      operand depth (operandPowers op).1 l ++ " " ++ op ++ " " ++
        operand depth (operandPowers op).2 r := by
  rw [text]
  dsimp only [Node.kind]
  rw [Node.elim_smaller?, Node.elim_smaller?]
  rfl

theorem text_sign (sign : String) (e : Node) :
    text depth (.mk .prefixUnaryExpression mark [.text sign, .node e]) =
      sign ++ (if sign.toList.all Text.isAlphabetic then " " else "") ++
        ((if repeatsSign sign e then " " else "") ++ operand depth Power.unaryLevel e) := by
  rw [text]
  dsimp only [Node.kind]
  rw [Node.elim_smaller? _ _ _ fun c => (if repeatsSign _ c then " " else "") ++
    operand depth Power.unaryLevel c]
  rfl

theorem text_conditional (e x y : Node) :
    text depth (.mk .conditionalExpression mark [.node e, .node x, .node y]) =
      operand depth (Power.conditionalLevel + 1) e ++ " ? " ++
        operand depth Power.assignmentLevel x ++ " : " ++
        operand depth Power.assignmentLevel y := by
  rw [text]
  dsimp only [Node.kind]
  rw [Node.elim_smaller?, Node.elim_smaller?, Node.elim_smaller?]
  rfl

theorem text_application (callee : Node) (arguments : List Node) :
    text depth (.mk .callExpression mark [.node callee, .list [], .list arguments]) =
      operand depth Power.postfixLevel callee ++
        parens (commas (arguments.map (operand depth Power.assignmentLevel))) := by
  have htypes : (Node.mk .callExpression mark [.node callee, .list [], .list arguments]).list
      .typeArguments = [] := rfl
  rw [text]
  dsimp only [Node.kind]
  rw [Node.elim_smaller?, typeArguments, Print.arguments, Node.map_smallerList,
    Node.map_smallerList, htypes]
  exact congrArg (· ++ _) String.append_empty

theorem text_access {object : Node} (h : object.kind ≠ .numericLiteral) (mark' : Mark)
    (name : String) :
    text depth (.mk .propertyAccessExpression mark
      [.node object, .node (.mk .identifier mark' [.text name])]) =
      operand depth Power.postfixLevel object ++ "." ++ name := by
  have hdot : needsSecondDot object = false := by simp [needsSecondDot, h]
  rw [text]
  dsimp only [Node.kind]
  rw [Node.elim_smaller? _ _ _ fun c => operand depth Power.postfixLevel c ++
    (if needsSecondDot c then "." else ""), Node.elim_smaller?]
  change operand depth Power.postfixLevel object ++ (if needsSecondDot object then "." else "") ++
    "." ++ text depth (.mk .identifier mark' [.text name]) = _
  rw [hdot, text_name]
  simp

theorem text_elementAccess (object i : Node) :
    text depth (.mk .elementAccessExpression mark [.node object, .node i]) =
      operand depth Power.postfixLevel object ++ "[" ++ text depth i ++ "]" := by
  rw [text]
  dsimp only [Node.kind]
  rw [Node.elim_smaller?, Node.elim_smaller?]
  rfl

theorem text_elements (elements : List Node) :
    text depth (.mk .arrayLiteralExpression mark [.list elements]) =
      "[" ++ commas (elements.map (operand depth Power.assignmentLevel)) ++ "]" := by
  rw [text]
  dsimp only [Node.kind]
  rw [Node.map_smallerList]
  rfl

theorem text_return (e : Node) :
    text depth (.returnStatement (some e)) = "return " ++ text depth e ++ ";" := by
  rw [Node.returnStatement, Node.plain, text]
  dsimp only [Node.kind]
  rw [Node.elim_smaller? _ _ _ fun c => " " ++ text depth c]
  change "return" ++ (" " ++ text depth e) ++ ";" = _
  rw [← String.append_assoc]
  rfl

end Print

inductive Node.Operation : Node → Prop
  | identifier {mark : Mark} {name : String} (hw : Piece.IsWord name)
    (hr : isReserved name = false) : Operation (.mk .identifier mark [.text name])
  | stringLiteral {mark : Mark} (value : String) (single : Bool) :
    Operation (.mk .stringLiteral mark [.text value, .flag single])
  | numericLiteral {mark : Mark} {digits : String} (h : Piece.IsNumber digits) :
    Operation (.mk .numericLiteral mark [.text digits])
  | binary {mark : Mark} {p : Punct} {l r : Node}
    (hp : p.binaryPower?.isSome = true ∨ p.isAssignment = true) (hless : p ≠ .less)
    (hl : Operation l) (hr : Operation r) :
    Operation (.mk .binaryExpression mark [.node l, .text p.text, .node r])
  | sign {mark : Mark} {sign : String} {e : Node}
    (hs : sign ∈ ["!", "-", "+", "~", "typeof", "void"]) (h : Operation e) :
    Operation (.mk .prefixUnaryExpression mark [.text sign, .node e])
  | conditional {mark : Mark} {e x y : Node} (he : Operation e) (hx : Operation x)
    (hy : Operation y) :
    Operation (.mk .conditionalExpression mark [.node e, .node x, .node y])
  | call {mark : Mark} {callee : Node} {arguments : List Node} (hc : Operation callee)
    (ha : ∀ a ∈ arguments, Operation a) :
    Operation (.mk .callExpression mark [.node callee, .list [], .list arguments])
  | access {mark mark' : Mark} {object : Node} {name : String}
    (hk : object.kind ≠ .numericLiteral) (ho : Operation object) (hw : Piece.IsWord name) :
    Operation (.mk .propertyAccessExpression mark
      [.node object, .node (.mk .identifier mark' [.text name])])
  | elementAccess {mark : Mark} {object i : Node} (ho : Operation object) (hi : Operation i) :
    Operation (.mk .elementAccessExpression mark [.node object, .node i])
  | array {mark : Mark} {elements : List Node} (h : ∀ e ∈ elements, Operation e) :
    Operation (.mk .arrayLiteralExpression mark [.list elements])
  | parenthesized {mark : Mark} {e : Node} (h : Operation e) :
    Operation (.mk .parenthesizedExpression mark [.node e])

open Piece

/-- A text of an expression in pieces, from which the expression is read wherever some power is
enough. -/
structure Renders (power : Nat) (text : Nat → String) (e : Node) (ps : List Piece) : Prop
    extends Written text (Grammar.Holds power · e) ps where
  leads : Leads ps
  /-- What may be accessed is no number, which would take the dot for its own. -/
  dotted (hp : Power.postfixLevel ≤ power) (hk : e.kind ≠ .numericLiteral) (rest : List Char) :
    Spaced ps ('.' :: rest)
  quiet : .punct .arrow ∉ ps

namespace Renders

variable {power least : Nat} {text : Nat → String} {e e' : Node} {ps : List Piece} {mark : Mark}

theorem identifier {name : String} (hw : IsWord name) (hr : isReserved name = false) :
    Renders power (Print.text · (.mk .identifier mark [.text name]))
      (.mk .identifier mark [.text name]) [.word name] where
  prints depth := by simp [Print.text_name, chars]
  leads := leads_word hw []
  spaced h := spaced_word hw h
  dotted _ _ rest := ⟨⟨hw, by rintro _ ⟨⟩; decide⟩, trivial⟩
  quiet := by simp
  reads hts := by
    obtain ⟨a, b, us, rfl, hus⟩ := hts.exists_of_word
    obtain rfl := hus.eq_nil
    exact Grammar.holds_of_applies ⟨_, _, rfl, .inr ⟨rfl, hr⟩⟩ (Grammar.applies_word hr) power

theorem stringLiteral (value : String) (single : Bool) :
    Renders power (Print.text · (.mk .stringLiteral mark [.text value, .flag single]))
      (.mk .stringLiteral mark [.text value, .flag single]) [.string value single] where
  prints depth := by simp [Print.text_string, chars]
  leads := leads_string value single []
  spaced _ := ⟨trivial, trivial⟩
  dotted _ _ _ := ⟨trivial, trivial⟩
  quiet := by simp
  reads hts := by
    obtain ⟨a, b, us, rfl, hus⟩ := hts.exists_of_string
    obtain rfl := hus.eq_nil
    exact Grammar.holds_of_applies ⟨_, _, rfl, .inl (by simp)⟩
      (Grammar.applies_string value single) power

theorem numericLiteral {digits : String} (h : IsNumber digits) :
    Renders power (Print.text · (.mk .numericLiteral mark [.text digits]))
      (.mk .numericLiteral mark [.text digits]) [.number digits] where
  prints depth := by simp [Print.text_number, chars]
  leads := leads_number h []
  spaced hrest := spaced_number h hrest
  dotted _ hk _ := absurd rfl hk
  quiet := by simp
  reads hts := by
    obtain ⟨a, b, us, rfl, hus⟩ := hts.exists_of_number
    obtain rfl := hus.eq_nil
    exact Grammar.holds_of_applies ⟨_, _, rfl, .inl (by simp)⟩
      (Grammar.applies_number digits) power

theorem parens (h : Renders power text e ps) (he : e.Alike e') (least : Nat) :
    Renders least (fun depth => Print.parens (text depth)) e'
      (.punct .parenOpen :: (ps ++ [.punct .parenClose])) where
  prints depth := by simp [Print.parens, h.prints, chars, Punct.text]
  leads := ⟨'(', _, rfl, by decide⟩
  spaced _ := spaced_enclosed (.inl ⟨rfl, rfl⟩) (fun _ => h.spaced) _
  dotted _ _ _ := spaced_enclosed (.inl ⟨rfl, rfl⟩) (fun _ => h.spaced) _
  quiet := by simpa using h.quiet
  reads hts := by
    obtain ⟨a, b, _, rfl, hopen⟩ := hts.exists_of_punct
    obtain ⟨us, a', b', rfl, hus⟩ := hopen.exists_of_closed
    exact Grammar.holds_of_applies ⟨_, _, rfl, .inl (by simp)⟩
      (Grammar.applies_parens (h.reads hus).expresses he) least

theorem congr {text' : Nat → String} (h : Renders power text e ps)
    (heq : ∀ depth, text' depth = text depth) : Renders power text' e ps := by
  rwa [funext heq]

theorem mono (h : Renders power text e ps) (hle : least ≤ power) : Renders least text e ps where
  prints := h.prints
  leads := h.leads
  spaced := h.spaced
  dotted hp := h.dotted (Nat.le_trans hp hle)
  quiet := h.quiet
  reads hts := (h.reads hts).mono hle

/-- The printer adds parentheses just where the power of an operand is not enough. -/
theorem operand (h : Renders e.power (Print.text · e) e ps) (least : Nat) :
    ∃ qs, Renders least (Print.operand · least e) e qs := by
  by_cases hlt : e.power < least
  · refine ⟨_, (h.parens (rfl : e.Alike e) least).congr fun depth => ?_⟩
    rw [Print.operand, if_pos hlt]
  · refine ⟨ps, (h.mono (Nat.not_lt.mp hlt)).congr fun depth => ?_⟩
    rw [Print.operand, if_neg hlt]

section

variable {l r x y : Node} {text' text'' : Nat → String} {qs rs : List Piece} {p : Punct}

/-- Two operands with an operator between them. -/
theorem spaced_between {rest : List Char} (hps : ∀ rest, Delimited rest → Spaced ps rest)
    (hqs : Spaced qs rest) :
    Spaced (ps ++ .blank :: .punct p :: .blank :: qs) rest := by
  refine (spaced_append_iff _ _ _).mpr ⟨hps _ ⟨' ', _, rfl, by decide⟩, trivial, ?_, trivial, hqs⟩
  exact Punct.ends_cons (by decide) (fun _ => by decide) _

theorem binary {w : Power} (hp : p.binaryPower? = some w) (hless : p ≠ .less)
    (hl : Renders w.left text l ps) (hr : Renders (w.left + 1) text' r qs) :
    Renders w.left (fun depth => text depth ++ " " ++ p.text ++ " " ++ text' depth)
      (.mk .binaryExpression mark [.node l, .text p.text, .node r])
      (ps ++ .blank :: .punct p :: .blank :: qs) where
  prints depth := by simp [hl.prints, hr.prints, chars]
  leads := hl.leads.append _
  spaced h := spaced_between (fun _ => hl.spaced) (hr.spaced h)
  dotted hle _ _ := by
    have hlt := (Punct.binaryPower?_eq_some hp).2.2.1
    simp only [Power.postfixLevel, Power.unaryLevel] at hle hlt
    omega
  quiet := by
    have harrow : p ≠ .arrow := by
      rintro rfl
      cases hp
    simpa [harrow.symm] using ⟨hl.quiet, hr.quiet⟩
  reads hts := by
    obtain ⟨us, _, rfl, hus, hop⟩ := hts.exists_of_append
    obtain ⟨a, b, vs, rfl, hvs⟩ := hop.of_blank.exists_of_punct
    have hleft := hl.reads hus
    have hright := hr.reads hvs.of_blank
    obtain ⟨v, vs, rfl, -⟩ := hright.begins
    obtain ⟨-, hlow, hhigh, -⟩ := Punct.binaryPower?_eq_some hp
    refine Grammar.holds_of_operates ?_ (.binary hp hless (hleft.operates hlow)
      (hright.operates (Nat.lt_succ_of_lt hlow)) (by simp)) hhigh
    obtain ⟨u, us, rfl, hu⟩ := hleft.begins
    exact ⟨u, _, rfl, hu⟩

theorem assignment (hp : p.isAssignment = true) (hl : Renders Power.postfixLevel text l ps)
    (hr : Renders Power.assignmentLevel text' r qs) :
    Renders Power.assignmentLevel (fun depth => text depth ++ " " ++ p.text ++ " " ++ text' depth)
      (.mk .binaryExpression mark [.node l, .text p.text, .node r])
      (ps ++ .blank :: .punct p :: .blank :: qs) where
  prints depth := by simp [hl.prints, hr.prints, chars]
  leads := hl.leads.append _
  spaced h := spaced_between (fun _ => hl.spaced) (hr.spaced h)
  dotted hle := absurd hle (by decide)
  quiet := by
    have harrow : p ≠ .arrow := by
      rintro rfl
      cases hp
    simpa [harrow.symm] using ⟨hl.quiet, hr.quiet⟩
  reads hts := by
    obtain ⟨us, _, rfl, hus, hop⟩ := hts.exists_of_append
    obtain ⟨a, b, vs, rfl, hvs⟩ := hop.of_blank.exists_of_punct
    have hleft := hl.reads hus
    obtain ⟨u, us, rfl, hu⟩ := hleft.begins
    exact Grammar.holds_of_expresses ⟨u, _, rfl, hu⟩ ((hleft.operates (by decide)).assignment hp
      (by simp) (hr.reads hvs.of_blank).expresses) (by decide)

theorem conditional (he : Renders (Power.conditionalLevel + 1) text e ps)
    (hx : Renders Power.assignmentLevel text' x qs)
    (hy : Renders Power.assignmentLevel text'' y rs) :
    Renders Power.conditionalLevel
      (fun depth => text depth ++ " ? " ++ text' depth ++ " : " ++ text'' depth)
      (.mk .conditionalExpression mark [.node e, .node x, .node y])
      (ps ++ .blank :: .punct .question :: .blank ::
        (qs ++ .blank :: .punct .colon :: .blank :: rs)) where
  prints depth := by simp [he.prints, hx.prints, hy.prints, chars, Punct.text]
  leads := he.leads.append _
  spaced h :=
    spaced_between (fun _ => he.spaced) (spaced_between (fun _ => hx.spaced) (hy.spaced h))
  dotted hle := absurd hle (by decide)
  quiet := by simpa using ⟨he.quiet, hx.quiet, hy.quiet⟩
  reads hts := by
    obtain ⟨us, _, rfl, hus, hquestion⟩ := hts.exists_of_append
    obtain ⟨a, b, _, rfl, hbranches⟩ := hquestion.of_blank.exists_of_punct
    obtain ⟨vs, _, rfl, hvs, hcolon⟩ := hbranches.of_blank.exists_of_append
    obtain ⟨a', b', ws, rfl, hws⟩ := hcolon.of_blank.exists_of_punct
    have hcondition := he.reads hus
    obtain ⟨u, us, rfl, hu⟩ := hcondition.begins
    exact Grammar.holds_of_expresses ⟨u, _, rfl, hu⟩ ((hcondition.operates
      (by decide)).conditional (by simp) (hx.reads hvs).expresses
      (hy.reads hws.of_blank).expresses) (by decide)

structure Signs (sign : String) (ps : List Piece) : Prop where
  prints : (sign ++ if sign.toList.all Text.isAlphabetic then " " else "").toList = allChars ps
  leads : Leads ps
  spaced (qs : List Piece) (hqs : Leads qs) (rest : List Char) : Spaced ps (allChars qs ++ rest)
  quiet : .punct .arrow ∉ ps
  token {ts : List Token} (hts : Spelled ps ts) :
    ∃ t, ts = [t] ∧ Grammar.sign? t = some sign ∧ t.kind ≠ .eof

theorem signs_punct (hp : p = .bang ∨ p = .minus ∨ p = .plus ∨ p = .tilde) :
    Signs p.text [.punct p] where
  prints := by rcases hp with rfl | rfl | rfl | rfl <;> decide
  leads := by rcases hp with rfl | rfl | rfl | rfl <;> exact ⟨_, _, rfl, by decide⟩
  spaced qs hqs rest :=
    ⟨hqs.spaced_punct (by rcases hp with rfl | rfl | rfl | rfl <;> decide) rest, trivial⟩
  quiet := by rcases hp with rfl | rfl | rfl | rfl <;> simp
  token hts := by
    obtain ⟨a, b, us, rfl, hus⟩ := hts.exists_of_punct
    obtain rfl := hus.eq_nil
    exact ⟨_, rfl, by rcases hp with rfl | rfl | rfl | rfl <;> rfl, by simp⟩

theorem signs_word {text : String} (h : text = "typeof" ∨ text = "void") :
    Signs text [.word text, .blank] := by
  have hword : IsWord text := by
    rcases h with rfl | rfl <;> exact Options.isWord_of_isIdentifier (by decide)
  refine ⟨by rcases h with rfl | rfl <;> decide, leads_word hword _, fun qs _ rest => ?_, by simp,
    fun hts => ?_⟩
  · exact ⟨⟨hword, by rintro _ ⟨⟩; decide⟩, trivial, trivial⟩
  · obtain ⟨a, b, us, rfl, hus⟩ := hts.exists_of_word
    obtain rfl := hus.of_blank.eq_nil
    exact ⟨_, rfl, by rcases h with rfl | rfl <;> simp [Grammar.sign?], by simp⟩

theorem exists_signs {sign : String} (h : sign ∈ ["!", "-", "+", "~", "typeof", "void"]) :
    ∃ ps, Signs sign ps := by
  simp only [List.mem_cons, List.not_mem_nil, or_false] at h
  rcases h with rfl | rfl | rfl | rfl | hword
  · exact ⟨_, signs_punct (p := .bang) (by simp)⟩
  · exact ⟨_, signs_punct (p := .minus) (by simp)⟩
  · exact ⟨_, signs_punct (p := .plus) (by simp)⟩
  · exact ⟨_, signs_punct (p := .tilde) (by simp)⟩
  · exact ⟨_, signs_word hword⟩

theorem sign {sign : String} (hs : sign ∈ ["!", "-", "+", "~", "typeof", "void"])
    (he : Renders Power.unaryLevel text e ps) (gap : Bool) (mark : Mark) :
    ∃ qs, Renders Power.unaryLevel (fun depth =>
      sign ++ (if sign.toList.all Text.isAlphabetic then " " else "") ++
        ((if gap then " " else "") ++ text depth))
      (.mk .prefixUnaryExpression mark [.text sign, .node e]) qs := by
  obtain ⟨qs, hqs⟩ := exists_signs hs
  obtain ⟨rs, hgap, hrs, hblank⟩ : ∃ rs : List Piece,
      (if gap then " " else "").toList = allChars rs ∧ (rs = [] ∨ rs = [.blank]) ∧
      Leads (rs ++ ps) := by
    cases gap
    · exact ⟨[], rfl, .inl rfl, he.leads⟩
    · exact ⟨[.blank], rfl, .inr rfl, ' ', _, rfl, by decide⟩
  refine ⟨qs ++ (rs ++ ps), ⟨fun depth => ?_, fun hrest => ?_, fun hts => ?_⟩, hqs.leads.append _,
    fun hle => ?_, ?_⟩
  · rw [String.toList_append, hqs.prints, String.toList_append, hgap, he.prints, allChars_append,
      allChars_append]
  · refine (spaced_append_iff _ _ _).mpr ⟨hqs.spaced _ hblank _, ?_⟩
    rcases hrs with rfl | rfl
    · exact he.spaced hrest
    · exact ⟨trivial, he.spaced hrest⟩
  · obtain ⟨us, vs, rfl, hus, hvs⟩ := hts.exists_of_append
    obtain ⟨t, rfl, ht, hne⟩ := hqs.token hus
    have hoperand : Spelled ps vs := by
      rcases hrs with rfl | rfl
      · exact hvs
      · exact hvs.of_blank
    exact Grammar.holds_of_signs ⟨t, vs, rfl, .inr (by simp [ht])⟩
      (Grammar.signs_sign ht hne ((he.reads hoperand).signs (Nat.le_refl _))) (by decide)
  · exact absurd hle (by decide)
  · rcases hrs with rfl | rfl <;> simpa using ⟨hqs.quiet, he.quiet⟩

theorem access (hk : e.kind ≠ .numericLiteral) (h : Renders Power.postfixLevel text e ps)
    {mark' : Mark} {name : String} (hw : IsWord name) :
    Renders Power.postfixLevel (fun depth => text depth ++ "." ++ name)
      (.mk .propertyAccessExpression mark [.node e, .node (.mk .identifier mark' [.text name])])
      (ps ++ [.punct .dot, .word name]) where
  prints depth := by simp [h.prints, chars, Punct.text]
  leads := h.leads.append _
  spaced hrest := by
    refine (spaced_append_iff _ _ _).mpr ⟨h.dotted (Nat.le_refl _) hk _, ?_, spaced_word hw hrest⟩
    rw [allChars_cons, List.append_assoc]
    exact Punct.ends_dot hw _
  dotted _ _ rest := by
    refine (spaced_append_iff _ _ _).mpr ⟨h.dotted (Nat.le_refl _) hk _, ?_,
      ⟨hw, by rintro _ ⟨⟩; decide⟩, trivial⟩
    rw [allChars_cons, List.append_assoc]
    exact Punct.ends_dot hw _
  quiet := by simpa using h.quiet
  reads hts := by
    obtain ⟨us, _, rfl, hus, hdot⟩ := hts.exists_of_append
    obtain ⟨a, b, _, rfl, hname⟩ := hdot.exists_of_punct
    obtain ⟨a', b', _, rfl, hnil⟩ := hname.exists_of_word
    obtain rfl := hnil.eq_nil
    have hobject := h.reads hus
    obtain ⟨u, us, rfl, hu⟩ := hobject.primary (Nat.le_refl _)
    exact Grammar.holds_of_applies ⟨u, _, rfl, hu⟩
      ((hobject.applies (Nat.le_refl _)).access name) _

theorem elementAccess (h : Renders Power.postfixLevel text e ps) (hx : Renders power text' x qs) :
    Renders Power.postfixLevel (fun depth => text depth ++ "[" ++ text' depth ++ "]")
      (.mk .elementAccessExpression mark [.node e, .node x])
      (ps ++ .punct .bracketOpen :: (qs ++ [.punct .bracketClose])) where
  prints depth := by simp [h.prints, hx.prints, chars, Punct.text]
  leads := h.leads.append _
  spaced _ := (spaced_append_iff _ _ _).mpr ⟨h.spaced ⟨'[', _, rfl, by decide⟩,
    spaced_enclosed (.inr ⟨rfl, rfl⟩) (fun _ => hx.spaced) _⟩
  dotted _ _ _ := (spaced_append_iff _ _ _).mpr ⟨h.spaced ⟨'[', _, rfl, by decide⟩,
    spaced_enclosed (.inr ⟨rfl, rfl⟩) (fun _ => hx.spaced) _⟩
  quiet := by simpa using ⟨h.quiet, hx.quiet⟩
  reads hts := by
    obtain ⟨us, _, rfl, hus, hopen⟩ := hts.exists_of_append
    obtain ⟨a, b, _, rfl, hclosed⟩ := hopen.exists_of_punct
    obtain ⟨vs, a', b', rfl, hvs⟩ := hclosed.exists_of_closed
    have hobject := h.reads hus
    obtain ⟨u, us, rfl, hu⟩ := hobject.primary (Nat.le_refl _)
    exact Grammar.holds_of_applies ⟨u, _, rfl, hu⟩
      ((hobject.applies (Nat.le_refl _)).elementAccess (hx.reads hvs).expresses) _

end

section

abbrev Each (es : List Node) (pss : List (List Piece)) : Prop :=
  List.Forall₂ (fun e ps =>
    Renders Power.assignmentLevel (Print.operand · Power.assignmentLevel e) e ps) es pss

variable {es : List Node} {pss : List (List Piece)}

theorem exists_each (h : ∀ e ∈ es, ∃ ps, Renders e.power (Print.text · e) e ps) :
    ∃ pss, Each es pss := by
  refine exists_forall₂ fun e he => ?_
  obtain ⟨ps, hps⟩ := h e he
  exact hps.operand Power.assignmentLevel

theorem Each.written (h : Each es pss) :
    Written (fun depth => Print.commas (es.map (Print.operand depth Power.assignmentLevel)))
      (fun ts => ∃ tss, List.Forall₂ (Grammar.Holds Power.assignmentLevel) tss es ∧
        Token.Joined .comma tss ts) (commas pss) :=
  .commas (h.imp fun _ _ he => he.toWritten)

theorem Each.quiet (h : Each es pss) : .punct .arrow ∉ commas pss := by
  have heach : ∀ ps ∈ pss, ∀ p ∈ ps, p ≠ .punct .arrow := by
    induction h with
    | nil => simp
    | cons he _ ih =>
      refine List.forall_mem_cons.mpr ⟨?_, ih⟩
      rintro p hp rfl
      exact he.quiet hp
  exact fun hmem => forall_mem_intercalate (by simp) heach _ hmem rfl

theorem call (h : Renders Power.postfixLevel text e ps) (hes : Each es pss) :
    Renders Power.postfixLevel (fun depth => text depth ++ Print.parens (Print.commas
        (es.map (Print.operand depth Power.assignmentLevel))))
      (.mk .callExpression mark [.node e, .list [], .list es])
      (ps ++ .punct .parenOpen :: (commas pss ++ [.punct .parenClose])) where
  prints depth := by simp [Print.parens, h.prints, hes.written.prints, chars, Punct.text]
  leads := h.leads.append _
  spaced _ := (spaced_append_iff _ _ _).mpr ⟨h.spaced ⟨'(', _, rfl, by decide⟩,
    spaced_enclosed (.inl ⟨rfl, rfl⟩) (fun _ => hes.written.spaced) _⟩
  dotted _ _ _ := (spaced_append_iff _ _ _).mpr ⟨h.spaced ⟨'(', _, rfl, by decide⟩,
    spaced_enclosed (.inl ⟨rfl, rfl⟩) (fun _ => hes.written.spaced) _⟩
  quiet := by simpa using ⟨h.quiet, hes.quiet⟩
  reads hts := by
    obtain ⟨us, _, rfl, hus, hopen⟩ := hts.exists_of_append
    obtain ⟨a, b, _, rfl, hclosed⟩ := hopen.exists_of_punct
    obtain ⟨vs, a', b', rfl, hvs⟩ := hclosed.exists_of_closed
    obtain ⟨tss, htss, hjoined⟩ := hes.written.reads hvs
    have hcallee := h.reads hus
    obtain ⟨u, us, rfl, hu⟩ := hcallee.primary (Nat.le_refl _)
    exact Grammar.holds_of_applies ⟨u, _, rfl, hu⟩
      ((hcallee.applies (Nat.le_refl _)).call htss hjoined) _

theorem array (hes : Each es pss) :
    Renders power (fun depth => "[" ++ Print.commas
        (es.map (Print.operand depth Power.assignmentLevel)) ++ "]")
      (.mk .arrayLiteralExpression mark [.list es])
      (.punct .bracketOpen :: (commas pss ++ [.punct .bracketClose])) where
  prints depth := by simp [hes.written.prints, chars, Punct.text]
  leads := ⟨'[', _, rfl, by decide⟩
  spaced _ := spaced_enclosed (.inr ⟨rfl, rfl⟩) (fun _ => hes.written.spaced) _
  dotted _ _ _ := spaced_enclosed (.inr ⟨rfl, rfl⟩) (fun _ => hes.written.spaced) _
  quiet := by simpa using hes.quiet
  reads hts := by
    obtain ⟨a, b, _, rfl, hclosed⟩ := hts.exists_of_punct
    obtain ⟨vs, a', b', rfl, hvs⟩ := hclosed.exists_of_closed
    obtain ⟨tss, htss, hjoined⟩ := hes.written.reads hvs
    exact Grammar.holds_of_applies ⟨_, _, rfl, .inl (by simp)⟩
      (Grammar.applies_array htss hjoined) _

end

end Renders

theorem Print.operandPowers_of_binaryPower? {p : Punct} {w : Power}
    (h : p.binaryPower? = some w) : operandPowers p.text = (w.left, w.left + 1) := by
  obtain ⟨-, hlow, -, hlevel⟩ := Punct.binaryPower?_eq_some h
  have hne : w.left ≠ Power.assignmentLevel := by
    simp only [Power.conditionalLevel, Power.assignmentLevel] at hlow ⊢
    omega
  rw [operandPowers, hlevel, if_neg hne]

theorem Power.levelOfText_of_isAssignment {p : Punct} (h : p.isAssignment = true) :
    levelOfText p.text = assignmentLevel := by
  cases p <;> first | rfl | cases h

theorem Print.operandPowers_of_isAssignment {p : Punct} (h : p.isAssignment = true) :
    operandPowers p.text = (Power.postfixLevel, Power.assignmentLevel) := by
  rw [operandPowers, Power.levelOfText_of_isAssignment h, if_pos rfl]

namespace Node

/-- Whatever its shape, an expression is written in pieces from which it is read. -/
theorem Operation.renders {e : Node} (h : e.Operation) :
    ∃ ps, Renders e.power (Print.text · e) e ps := by
  induction h with
  | identifier hw hr => exact ⟨_, .identifier hw hr⟩
  | stringLiteral value single => exact ⟨_, .stringLiteral value single⟩
  | numericLiteral h => exact ⟨_, .numericLiteral h⟩
  | @binary mark p l r hp hless _ _ ihl ihr =>
    obtain ⟨ps, hps⟩ := ihl
    obtain ⟨qs, hqs⟩ := ihr
    have hpower : (Node.mk .binaryExpression mark [.node l, .text p.text, .node r]).power =
        Power.levelOfText p.text := rfl
    rw [hpower]
    rcases hp with hp | hp
    · obtain ⟨w, hw⟩ := Option.isSome_iff_exists.mp hp
      obtain ⟨ps, hps⟩ := hps.operand w.left
      obtain ⟨qs, hqs⟩ := hqs.operand (w.left + 1)
      rw [(Punct.binaryPower?_eq_some hw).2.2.2]
      refine ⟨_, (Renders.binary hw hless hps hqs).congr fun depth => ?_⟩
      rw [Print.text_binary, Print.operandPowers_of_binaryPower? hw]
    · obtain ⟨ps, hps⟩ := hps.operand Power.postfixLevel
      obtain ⟨qs, hqs⟩ := hqs.operand Power.assignmentLevel
      rw [Power.levelOfText_of_isAssignment hp]
      refine ⟨_, (Renders.assignment hp hps hqs).congr fun depth => ?_⟩
      rw [Print.text_binary, Print.operandPowers_of_isAssignment hp]
  | @sign mark sign e hs _ ih =>
    obtain ⟨ps, hps⟩ := ih
    obtain ⟨ps, hps⟩ := hps.operand Power.unaryLevel
    obtain ⟨qs, hqs⟩ := hps.sign hs (Print.repeatsSign sign e) mark
    exact ⟨qs, hqs.congr fun depth => Print.text_sign depth mark sign e⟩
  | conditional _ _ _ ihe ihx ihy =>
    obtain ⟨ps, hps⟩ := ihe
    obtain ⟨qs, hqs⟩ := ihx
    obtain ⟨rs, hrs⟩ := ihy
    obtain ⟨ps, hps⟩ := hps.operand (Power.conditionalLevel + 1)
    obtain ⟨qs, hqs⟩ := hqs.operand Power.assignmentLevel
    obtain ⟨rs, hrs⟩ := hrs.operand Power.assignmentLevel
    exact ⟨_, (hps.conditional hqs hrs).congr fun depth => Print.text_conditional ..⟩
  | call _ _ ihc iha =>
    obtain ⟨ps, hps⟩ := ihc
    obtain ⟨ps, hps⟩ := hps.operand Power.postfixLevel
    obtain ⟨pss, hpss⟩ := Renders.exists_each iha
    exact ⟨_, (hps.call hpss).congr fun depth => Print.text_application ..⟩
  | access hk _ hw ih =>
    obtain ⟨ps, hps⟩ := ih
    obtain ⟨ps, hps⟩ := hps.operand Power.postfixLevel
    exact ⟨_, (hps.access hk hw).congr fun depth => Print.text_access depth _ hk _ _⟩
  | elementAccess _ _ iho ihi =>
    obtain ⟨ps, hps⟩ := iho
    obtain ⟨qs, hqs⟩ := ihi
    obtain ⟨ps, hps⟩ := hps.operand Power.postfixLevel
    exact ⟨_, (hps.elementAccess hqs).congr fun depth => Print.text_elementAccess ..⟩
  | array _ ih =>
    obtain ⟨pss, hpss⟩ := Renders.exists_each ih
    exact ⟨_, (Renders.array hpss).congr fun depth => Print.text_elements ..⟩
  | parenthesized _ ih =>
    obtain ⟨ps, hps⟩ := ih
    exact ⟨_, (hps.parens (Node.gist_parens _ _).symm _).congr fun depth =>
      Print.text_parenthesized ..⟩

/-- The expression of a return statement is read up to its semicolon. -/
theorem statement_return {e : Node} {ts : List Token} {power d : Nat}
    (h : Grammar.Holds power ts e) (hd : ts.length + 2 ≤ d)
    (hquiet : ∀ t ∈ ts, t.kind ≠ .punct .arrow) (hline : ∀ t ∈ ts, t.newlineBefore = false)
    (stop a b a' b' : Nat) :
    ∃ value mark, (Grammar.toDepth (d + 2)).statement
        ⟨0, .word "return" a b :: (ts ++ [.punct .semicolon a' b', Token.eofAt stop])⟩ =
      .done (.mk .returnStatement mark [.node value]) ⟨b', [Token.eofAt stop]⟩ ∧ value.Alike e := by
  have hcalm : Token.Calm d (ts ++ [.punct .semicolon a' b', Token.eofAt stop]) := by
    refine ⟨⟨Token.eofAt stop, by simp, rfl⟩, fun t ht => ?_, by simpa using hd⟩
    rcases List.mem_append.mp ht with ht | ht
    · exact hquiet t ht
    · simp only [List.mem_cons, List.not_mem_nil, or_false] at ht
      rcases ht with rfl | rfl <;> simp [Token.eofAt]
  obtain ⟨value, last', hread, hvalue⟩ :=
    h.expresses _ _ _ hcalm (by simp [Token.Concludes]) b
  obtain ⟨t, us, rfl, ht⟩ := h.begins
  have hkind := ht.kind_not_mem
  simp only [List.mem_cons, List.not_mem_nil, or_false, not_or] at hkind
  have hfirst := hline t (by simp)
  refine ⟨value, { span := some ⟨a, max b' a⟩ }, ?_, hvalue⟩
  change (Grammar.toDepth (d + 1)).anyStatement _ = _
  rw [List.cons_append] at hread ⊢
  simp [Grammar.anyStatement, Grammar.wordStatement, Grammar.isVariableKeyword,
    Grammar.startsFunction, Grammar.returnStatement, Parser.advance_cons, hkind, hfirst, hread,
    Parser.semicolon, Field.ofOption]

/-- Operator expressions print with the right parentheses. A statement that returns one is read back
as one statement that returns the same expression, up to parentheses. -/
theorem parse_print_operation {e : Node} (h : e.Operation) :
    ∃ tree statement value, parse (Node.returnStatement (some e)).print = .ok tree ∧
      tree.list .statements = [statement] ∧ statement.kind = .returnStatement ∧
      statement.child? .expression = some value ∧
      value.withoutParens.same e.withoutParens = true := by
  obtain ⟨ps, hps⟩ := h.renders
  have hprint : (Node.returnStatement (some e)).print.toList =
      allChars (.word "return" :: .blank :: (ps ++ [.punct .semicolon])) := by
    rw [Node.print, Print.text_return]
    simp [hps.prints, chars, Punct.text]
  have hspaced : Spaced (.word "return" :: .blank :: (ps ++ [.punct .semicolon])) [] := by
    refine ⟨⟨Options.isWord_of_isIdentifier (by decide), by rintro _ ⟨⟩; decide⟩, trivial,
      (spaced_append_iff _ _ _).mpr ⟨hps.spaced ⟨';', _, rfl, by decide⟩, ?_, trivial⟩⟩
    exact Punct.ends_of_mem (by simp) _
  obtain ⟨tree, statement, hparse, hlist, value, mark, rfl, hvalue⟩ := parse_of_statement hprint
    hspaced (Q := fun s => ∃ value mark, s = .mk .returnStatement mark [.node value] ∧
      value.Alike e) fun ts stop hts => by
    obtain ⟨a, b, _, rfl, hrest⟩ := hts.exists_of_word
    obtain ⟨us, a', b', rfl, hus⟩ := hrest.of_blank.exists_of_closed
    obtain ⟨value, mark, hread, hvalue⟩ := statement_return (hps.reads hus) (Nat.le_refl _)
      (hus.kind_ne hps.quiet) hus.newlineBefore_eq_false stop a b a' b'
    refine ⟨_, _, _, b', rfl, by simp, ?_, value, mark, rfl, hvalue⟩
    simpa using hread
  exact ⟨tree, _, value, hparse, hlist, rfl, rfl, (Node.same_iff _ _).mpr hvalue⟩

/-- Operands that need parentheses on either side and some that have more of them, equal signs in a
row, and a call that might begin a function. -/
theorem parse_print_operation_nested :
    let number := Node.plain .numericLiteral [.text "1"]
    let signs := Node.plain .prefixUnaryExpression [.text "-",
      .node (.plain .prefixUnaryExpression [.text "-", .node number])]
    let call := Node.call (.identifier "async") [.plain .parenthesizedExpression [.node signs]]
    let assigned := Node.plain .binaryExpression [.node (.propertyAccess call "new"), .text "+=",
      .node (.plain .stringLiteral [.text "\"'", .flag true])]
    let difference := Node.plain .binaryExpression [.node assigned, .text "-",
      .node (.plain .binaryExpression [.node (.identifier "as"), .text "-", .node number])]
    let e := Node.plain .conditionalExpression [
      .node (.plain .conditionalExpression [.node number, .node signs, .node difference]),
      .node (.array [difference, number]),
      .node (.plain .elementAccessExpression [.node difference, .node assigned])]
    e.Operation ∧ ∃ tree statement value, parse (Node.returnStatement (some e)).print = .ok tree ∧
      tree.list .statements = [statement] ∧ statement.kind = .returnStatement ∧
      statement.child? .expression = some value ∧
      value.withoutParens.same e.withoutParens = true := by
  intro number signs call assigned difference e
  have hnumber : number.Operation := .numericLiteral ⟨_, _, rfl, List.all_eq_true.mp (by decide)⟩
  have hsigns : signs.Operation := .sign (by simp) (.sign (by simp) hnumber)
  have hcall : call.Operation := by
    refine .call (.identifier (Options.isWord_of_isIdentifier (by decide)) (by decide))
      fun a ha => ?_
    obtain rfl := List.mem_singleton.mp ha
    exact .parenthesized hsigns
  have hassigned : assigned.Operation := .binary (p := .plusAssign) (.inr rfl) (by decide)
    (.access (by decide) hcall (Options.isWord_of_isIdentifier (by decide))) (.stringLiteral _ _)
  have hdifference : difference.Operation := .binary (p := .minus) (.inl rfl) (by decide) hassigned
    (.binary (p := .minus) (.inl rfl) (by decide)
      (.identifier (Options.isWord_of_isIdentifier (by decide)) (by decide)) hnumber)
  have he : e.Operation := by
    refine .conditional (.conditional hnumber hsigns hdifference) (.array ?_)
      (.elementAccess hdifference hassigned)
    simpa using ⟨hdifference, hnumber⟩
  exact ⟨he, parse_print_operation he⟩

end Node

end Quasiquote
