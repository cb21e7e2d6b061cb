import Quasiquote.Proofs.RoundTrip.Pieces
import Quasiquote.Proofs.RoundTrip.Types

namespace Quasiquote

namespace Print

variable (depth : Nat) (mark : Mark)

def angled (items : List String) : String :=
  if items.isEmpty then "" else "<" ++ commas items ++ ">"

def suffix (mark : String) (part : Option Node) : String :=
  part.elim "" fun c => mark ++ text depth c

def memberType (type : Node) : String :=
  if type.kind = .unionType || type.kind = .functionType then parens (text depth type)
  else text depth type

theorem text_typeReference (name : Node) (arguments : List Node) :
    text depth (.mk .typeReference mark [.node name, .list arguments]) =
      text depth name ++ angled (arguments.map (text depth)) := by
  rw [text]
  dsimp only [Node.kind]
  rw [Node.elim_smaller?, typeArguments, Node.map_smallerList]
  rfl

theorem text_qualifiedName (left right : Node) :
    text depth (.mk .qualifiedName mark [.node left, .node right]) =
      text depth left ++ "." ++ text depth right := by
  rw [text]
  dsimp only [Node.kind]
  rw [Node.elim_smaller?, Node.elim_smaller?]
  rfl

theorem text_keywordType (keyword : String) :
    text depth (.mk .keywordType mark [.text keyword]) = keyword := by
  rw [text]
  rfl

theorem text_literalType (literal : Node) :
    text depth (.mk .literalType mark [.node literal]) = text depth literal := by
  rw [text]
  dsimp only [Node.kind]
  rw [Node.elim_smaller?]
  rfl

theorem text_keyword (value : Bool) :
    text depth (.mk (if value then .trueKeyword else .falseKeyword) mark []) =
      if value then "true" else "false" := by
  cases value <;> · rw [text]; rfl

theorem text_typeLiteral (members : List Node) :
    text depth (.mk .typeLiteral mark [.list members]) =
      if members.isEmpty then "\x7b\x7d"
      else "\x7b " ++ " ".intercalate (members.map fun m => propertySignature depth m ++ ";") ++
        " \x7d" := by
  rw [text]
  dsimp only [Node.kind]
  rw [Node.map_smallerList _ _ fun m => propertySignature depth m ++ ";", List.isEmpty_map]
  rfl

theorem text_arrayType (type : Node) :
    text depth (.mk .arrayType mark [.node type]) = memberType depth type ++ "[]" := by
  have hk : (Node.mk .arrayType mark [.node type]).kind = .arrayType := rfl
  rw [text, hk]
  dsimp only
  rw [Node.elim_smaller? _ _ _ fun c => if c.kind = .unionType || c.kind = .functionType then
    parens (text depth c) else text depth c]
  rfl

theorem text_functionType (types parameters : List Node) (result : Node) :
    text depth (.mk .functionType mark [.list types, .list parameters, .node result]) =
      angled (types.map (typeParameter depth)) ++
        parens (commas (parameters.map (parameter depth))) ++ " => " ++ text depth result := by
  rw [text]
  dsimp only [Node.kind]
  rw [Node.elim_smaller?, typeParameters, Print.parameters, Node.map_smallerList,
    Node.map_smallerList]
  rfl

theorem typeParameter_mk (name : Node) (constraint default : Option Node) :
    typeParameter depth (.mk .typeParameter mark
      [.node name, .ofOption constraint, .ofOption default]) =
      text depth name ++ suffix depth " extends " constraint ++ suffix depth " = " default := by
  rw [typeParameter, Node.elim_smaller?,
    Node.elim_smaller? _ _ _ fun c => " extends " ++ text depth c,
    Node.elim_smaller? _ _ _ fun c => " = " ++ text depth c]
  cases constraint <;> cases default <;> rfl

theorem typeSuffix_of_child {n : Node} (type : Option Node) (h : n.child? .typeNode = type) :
    typeSuffix depth n = suffix depth ": " type := by
  rw [typeSuffix, Node.elim_smaller? _ _ _ fun c => ": " ++ text depth c, h]
  rfl

theorem parameter_mk (variadic optional : Bool) (name : Node) (type : Option Node) :
    parameter depth (.mk .parameter mark
      [.flag variadic, .node name, .flag optional, .ofOption type, .absent]) =
      (if variadic then "..." else "") ++ text depth name ++ (if optional then "?" else "") ++
        suffix depth ": " type := by
  rw [parameter, Node.elim_smaller?, initializer_of_none depth (by rfl),
    typeSuffix_of_child depth type (by cases type <;> rfl), String.append_empty]
  rfl

theorem propertySignature_mk (name : Node) (optional : Bool) (type : Option Node) :
    propertySignature depth (.mk .propertySignature mark
      [.node name, .flag optional, .ofOption type]) =
      text depth name ++ (if optional then "?" else "") ++ suffix depth ": " type := by
  rw [propertySignature, Node.elim_smaller?,
    typeSuffix_of_child depth type (by cases type <;> rfl)]
  rfl

end Print

inductive Node.TypeSort
  | type
  | typeParameter
  | parameter
  | signature

inductive Node.EntityName (word : String) : Node → Prop
  | identifier {mark : Mark} (hw : Piece.IsWord word) :
    EntityName word (.mk .identifier mark [.text word])
  | qualified {mark mark' : Mark} {left : Node} {right : String} (h : EntityName word left)
    (hw : Piece.IsWord right) :
    EntityName word (.mk .qualifiedName mark
      [.node left, .node (.mk .identifier mark' [.text right])])

inductive Node.MemberName : Node → Prop
  | identifier {mark : Mark} {word : String} (hw : Piece.IsWord word) :
    MemberName (.mk .identifier mark [.text word])
  | string {mark : Mark} (value : String) (single : Bool) :
    MemberName (.mk .stringLiteral mark [.text value, .flag single])

inductive Node.TypeTree : TypeSort → Node → Prop
  | reference {mark : Mark} {word : String} {name : Node} {arguments : List Node}
    (hname : name.EntityName word) (hword : Grammar.IsReference word)
    (h : ∀ a ∈ arguments, TypeTree .type a) :
    TypeTree .type (.mk .typeReference mark [.node name, .list arguments])
  | keyword {mark : Mark} (k : KeywordType) :
    TypeTree .type (.mk .keywordType mark [.text k.name])
  | string {mark mark' : Mark} (value : String) (single : Bool) :
    TypeTree .type (.mk .literalType mark
      [.node (.mk .stringLiteral mark' [.text value, .flag single])])
  | number {mark mark' : Mark} {digits : String} (h : Piece.IsNumber digits) :
    TypeTree .type (.mk .literalType mark [.node (.mk .numericLiteral mark' [.text digits])])
  | boolean {mark mark' : Mark} (value : Bool) :
    TypeTree .type (.mk .literalType mark
      [.node (.mk (if value then .trueKeyword else .falseKeyword) mark' [])])
  | literal {mark : Mark} {members : List Node} (h : ∀ m ∈ members, TypeTree .signature m) :
    TypeTree .type (.mk .typeLiteral mark [.list members])
  | array {mark : Mark} {type : Node} (h : TypeTree .type type) :
    TypeTree .type (.mk .arrayType mark [.node type])
  | function {mark : Mark} {types parameters : List Node} {result : Node}
    (htypes : ∀ p ∈ types, TypeTree .typeParameter p)
    (hparameters : ∀ p ∈ parameters, TypeTree .parameter p) (hresult : TypeTree .type result) :
    TypeTree .type (.mk .functionType mark [.list types, .list parameters, .node result])
  | union {mark : Mark} {types : List Node} (hlength : 2 ≤ types.length)
    (hflat : ∀ t ∈ types, t.kind ≠ .unionType) (h : ∀ t ∈ types, TypeTree .type t) :
    TypeTree .type (.mk .unionType mark [.list types])
  | typeParameter {mark mark' : Mark} {name : String} {constraint default : Option Node}
    (hw : Piece.IsWord name) (hr : isReserved name = false)
    (hconstraint : ∀ c ∈ constraint, TypeTree .type c)
    (hdefault : ∀ c ∈ default, TypeTree .type c) :
    TypeTree .typeParameter (.mk .typeParameter mark
      [.node (.mk .identifier mark' [.text name]), .ofOption constraint, .ofOption default])
  | parameter {mark mark' : Mark} {name : String} {type : Option Node} (variadic optional : Bool)
    (hw : Piece.IsWord name) (hr : isReserved name = false)
    (htype : ∀ c ∈ type, TypeTree .type c) :
    TypeTree .parameter (.mk .parameter mark [.flag variadic,
      .node (.mk .identifier mark' [.text name]), .flag optional, .ofOption type, .absent])
  | signature {mark : Mark} {name : Node} {type : Option Node} (optional : Bool)
    (hname : name.MemberName) (htype : ∀ c ∈ type, TypeTree .type c) :
    TypeTree .signature (.mk .propertySignature mark
      [.node name, .flag optional, .ofOption type])

open Piece

structure RendersType (e : Node) (ps : List Piece) : Prop
    extends Written (Print.text · e) (Grammar.ReadsType · e) ps where
  leads : Leads ps

def Separated (rest : List Char) : Prop :=
  ∃ c r, rest = c :: r ∧ c ∈ ':' :: delimiters

theorem Delimited.separated {rest : List Char} (h : Delimited rest) : Separated rest := by
  obtain ⟨c, r, rfl, hc⟩ := h
  exact ⟨c, r, rfl, List.mem_cons_of_mem _ hc⟩

theorem Separated.head? {rest : List Char} (h : Separated rest) :
    ∀ c ∈ rest.head?, Token.continuesWord c = false := by
  obtain ⟨c, r, rfl, hc⟩ := h
  have hall : (':' :: delimiters).all (fun d => !Token.continuesWord d) = true := by decide
  rintro _ ⟨⟩
  simpa only [Bool.not_eq_true'] using List.all_eq_true.mp hall c hc

theorem Separated.ends {p : Punct} (hp : p = .greater ∨ p = .question) {rest : List Char}
    (h : Separated rest) : p.Ends rest := by
  have htable : ∀ p ∈ [Punct.greater, .question], (':' :: delimiters).all (fun c =>
      ∀ q ∈ Punct.all, ¬p.text.toList ++ [c] <+: q.text.toList) = true := by
    decide +kernel
  obtain ⟨c, r, rfl, hc⟩ := h
  have hends := of_decide_eq_true (List.all_eq_true.mp (htable p (by simpa using hp)) c hc)
  refine ⟨p.ofText?_append hends r, ?_, ?_⟩
  · rintro rfl
    simp at hp
  · rintro rfl
    simp at hp

namespace RendersType

variable {e : Node} {ps : List Piece} {mark : Mark}

theorem of_piece {p : Piece} (hprints : ∀ depth, (Print.text depth e).toList = p.chars)
    (hleads : Leads [p]) (hspaced : ∀ rest, Delimited rest → Spaced [p] rest)
    (hunion : e.kind ≠ .unionType) (hfunction : e.kind ≠ .functionType)
    (hreads : ∀ ts, Spelled [p] ts → Grammar.Member ts e) : RendersType e [p] where
  prints depth := by simp [hprints]
  spaced := hspaced _
  reads hts := .member hunion hfunction (hreads _ hts)
  leads := hleads

theorem keyword (k : KeywordType) :
    RendersType (.mk .keywordType mark [.text k.name]) [.word k.name] := by
  have hword : IsWord k.name := by cases k <;> exact Options.isWord_of_isIdentifier (by decide)
  refine of_piece (fun depth => by rw [Print.text_keywordType]; rfl) (leads_word hword [])
    (fun _ => spaced_word hword) (by simp [Node.kind]) (by simp [Node.kind]) fun ts hts => ?_
  obtain ⟨a, b, us, rfl, hus⟩ := hts.exists_of_word
  obtain rfl := hus.eq_nil
  exact Grammar.member_keyword k

theorem string {mark' : Mark} (value : String) (single : Bool) :
    RendersType (.mk .literalType mark
      [.node (.mk .stringLiteral mark' [.text value, .flag single])]) [.string value single] := by
  refine of_piece (fun depth => by rw [Print.text_literalType, Print.text_string]; simp [chars])
    (leads_string value single []) (fun _ _ => ⟨trivial, trivial⟩) (by simp [Node.kind])
    (by simp [Node.kind]) fun ts hts => ?_
  obtain ⟨a, b, us, rfl, hus⟩ := hts.exists_of_string
  obtain rfl := hus.eq_nil
  exact Grammar.member_string value single

theorem number {mark' : Mark} {digits : String} (h : IsNumber digits) :
    RendersType (.mk .literalType mark [.node (.mk .numericLiteral mark' [.text digits])])
      [.number digits] := by
  refine of_piece (fun depth => by rw [Print.text_literalType, Print.text_number]; rfl)
    (leads_number h []) (fun _ => spaced_number h) (by simp [Node.kind]) (by simp [Node.kind])
    fun ts hts => ?_
  obtain ⟨a, b, us, rfl, hus⟩ := hts.exists_of_number
  obtain rfl := hus.eq_nil
  exact Grammar.member_number digits

theorem boolean {mark' : Mark} (value : Bool) :
    RendersType (.mk .literalType mark
      [.node (.mk (if value then .trueKeyword else .falseKeyword) mark' [])])
      [.word (if value then "true" else "false")] := by
  have hword : IsWord (if value then "true" else "false") := by
    cases value <;> exact Options.isWord_of_isIdentifier (by decide)
  refine of_piece (fun depth => by rw [Print.text_literalType, Print.text_keyword]; rfl)
    (leads_word hword []) (fun _ => spaced_word hword) (by simp [Node.kind]) (by simp [Node.kind])
    fun ts hts => ?_
  obtain ⟨a, b, us, rfl, hus⟩ := hts.exists_of_word
  obtain rfl := hus.eq_nil
  exact Grammar.member_boolean value

/-- Around a function or a union the printer puts parentheses. -/
theorem member (h : RendersType e ps) :
    ∃ qs, Written (Print.memberType · e) (Grammar.Member · e) qs ∧ Leads qs := by
  by_cases hk : e.kind = .unionType ∨ e.kind = .functionType
  · refine ⟨.punct .parenOpen :: (ps ++ [.punct .parenClose]), ⟨fun depth => ?_, fun _ => ?_,
      fun hts => ?_⟩, '(', _, rfl, by decide⟩
    · have hparens : Print.memberType depth e = Print.parens (Print.text depth e) := by
        simp [Print.memberType, hk]
      simp [hparens, Print.parens, h.prints, chars, Punct.text]
    · exact spaced_enclosed (.inl ⟨rfl, rfl⟩) (fun _ => h.spaced) _
    · obtain ⟨a, b, _, rfl, hopen⟩ := hts.exists_of_punct
      obtain ⟨us, a', b', rfl, hus⟩ := hopen.exists_of_closed
      exact (h.reads hus).member_parens hk
  · have hplain (depth : Nat) : Print.memberType depth e = Print.text depth e := by
      simp [Print.memberType, hk]
    rw [not_or] at hk
    refine ⟨ps, ⟨fun depth => ?_, h.spaced, fun hts => (h.reads hts).member_of_kind hk.1 hk.2⟩,
      h.leads⟩
    rw [hplain]
    exact h.prints depth

theorem array (h : RendersType e ps) :
    ∃ qs, RendersType (.mk .arrayType mark [.node e]) qs := by
  obtain ⟨qs, hqs, hleads⟩ := h.member
  refine ⟨qs ++ [.punct .bracketOpen, .punct .bracketClose], ⟨fun depth => ?_, fun _ => ?_,
    fun hts => ?_⟩, hleads.append _⟩
  · rw [Print.text_arrayType]
    simp [hqs.prints, chars, Punct.text]
  · exact (spaced_append_iff _ _ _).mpr ⟨hqs.spaced ⟨'[', _, rfl, by decide⟩,
      Punct.ends_of_mem (by simp) _, Punct.ends_of_mem (by simp) _, trivial⟩
  · obtain ⟨us, vs, rfl, hus, hvs⟩ := hts.exists_of_append
    obtain ⟨a, b, _, rfl, hclose⟩ := hvs.exists_of_punct
    obtain ⟨a', b', _, rfl, hnil⟩ := hclose.exists_of_punct
    obtain rfl := hnil.eq_nil
    exact .member (by simp [Node.kind]) (by simp [Node.kind]) (hqs.reads hus).array

theorem union {types : List Node} (hlength : 2 ≤ types.length)
    (hflat : ∀ t ∈ types, t.kind ≠ .unionType) (h : ∀ t ∈ types, ∃ ps, RendersType t ps) :
    ∃ qs, RendersType (.mk .unionType mark [.list types]) qs := by
  obtain ⟨pss, hpss⟩ : ∃ pss, List.Forall₂ (fun t ps =>
      Written (Print.memberType · t) (Grammar.Member · t) ps ∧ Leads ps) types pss := by
    refine exists_forall₂ fun t ht => ?_
    obtain ⟨ps, hps⟩ := h t ht
    exact hps.member
  have hbar (rest : List Char) : Spaced [.blank, .punct .pipe, .blank] rest :=
    ⟨trivial, Punct.ends_cons (by decide) (fun _ => by decide) _, trivial, trivial⟩
  have hall : Written (fun depth => " | ".intercalate (types.map (Print.memberType depth)))
      (fun ts => ∃ tss, List.Forall₂ Grammar.Member tss types ∧ Token.Joined .pipe tss ts)
      ([.blank, .punct .pipe, .blank].intercalate pss) := by
    refine .intercalate rfl hbar (fun _ => ⟨' ', _, rfl, by decide⟩) (fun us hus => ?_)
      (hpss.imp fun _ _ hps => hps.1)
    obtain ⟨start, stop, vs, rfl, hvs⟩ := hus.of_blank.exists_of_punct
    obtain rfl := hvs.of_blank.eq_nil
    exact ⟨start, stop, rfl⟩
  refine ⟨_, ⟨fun depth => ?_, hall.spaced, fun hts => ?_⟩, ?_⟩
  · rw [← hall.prints depth, Print.text_unionType depth rfl]
    -- No member is a union, so parentheses stand around functions only.
    have hmembers : types.map (Print.memberType depth) = types.map fun c =>
        if c.kind = .functionType then Print.parens (Print.text depth c)
        else Print.text depth c := by
      refine List.map_congr_left fun c hc => ?_
      simp [Print.memberType, hflat c hc]
    rw [hmembers]
    rfl
  · obtain ⟨tss, htss, hjoined⟩ := hall.reads hts
    cases htss with
    | nil => simp at hlength
    | cons hfirst htss =>
      cases htss with
      | nil => simp at hlength
      | cons hsecond htss =>
        cases hjoined with
        | cons _ ht hjoined => exact .union (.mk (.cons hfirst (.cons hsecond htss)) ht hjoined)
  · cases hpss with
    | nil => simp at hlength
    | cons hps hpss => exact leads_intercalate hps.2 _

end RendersType

structure RendersName (word : String) (e : Node) (ps : List Piece) : Prop where
  prints (depth : Nat) : (Print.text depth e).toList = allChars ps
  leads : Leads ps
  spaced {rest : List Char} (h : ∀ c ∈ rest.head?, Token.continuesWord c = false) : Spaced ps rest
  reads {ts : List Token} (h : Spelled ps ts) : ∃ a b us, ts = .word word a b :: us ∧
    Grammar.Names ts e ∧ ∀ u ∈ us.head?, u.kind = .punct .dot

theorem Node.EntityName.renders {word : String} {e : Node} (h : e.EntityName word) :
    ∃ ps, RendersName word e ps := by
  induction h with
  | identifier hw =>
    refine ⟨[.word word], fun depth => ?_, leads_word hw [], fun hrest => ⟨⟨hw, hrest⟩, trivial⟩,
      fun hts => ?_⟩
    · simp [Print.text_name, chars]
    · obtain ⟨a, b, us, rfl, hus⟩ := hts.exists_of_word
      obtain rfl := hus.eq_nil
      exact ⟨a, b, [], rfl, Grammar.names_word word, by simp⟩
  | @qualified mark mark' left right _ hw ih =>
    obtain ⟨ps, hps⟩ := ih
    refine ⟨ps ++ [.punct .dot, .word right], fun depth => ?_, hps.leads.append _, fun hrest => ?_,
      fun hts => ?_⟩
    · rw [Print.text_qualifiedName, Print.text_name]
      simp [hps.prints, chars, Punct.text]
    · refine (spaced_append_iff _ _ _).mpr ⟨hps.spaced (by rintro _ ⟨⟩; decide), ?_,
        ⟨hw, hrest⟩, trivial⟩
      rw [allChars_cons, List.append_assoc]
      exact Punct.ends_dot hw _
    · obtain ⟨us, vs, rfl, hus, hvs⟩ := hts.exists_of_append
      obtain ⟨a, b, _, rfl, hright⟩ := hvs.exists_of_punct
      obtain ⟨a', b', _, rfl, hnil⟩ := hright.exists_of_word
      obtain rfl := hnil.eq_nil
      obtain ⟨a₁, b₁, ws, rfl, hnames, hdots⟩ := hps.reads hus
      refine ⟨a₁, b₁, _, rfl, hnames.qualified right, ?_⟩
      cases ws with
      | nil =>
        rintro _ ⟨⟩
        rfl
      | cons w ws => exact hdots

section

variable {f : Nat → Node → String} {P : List Token → Node → Prop} {es : List Node}
  {pss : List (List Piece)}

def Piece.angled (pss : List (List Piece)) : List Piece :=
  if pss.isEmpty then [] else .punct .less :: (commas pss ++ [.punct .greater])

theorem written_angled
    (h : List.Forall₂ (fun e ps => Written (f · e) (P · e) ps ∧ Leads ps) es pss) :
    Written (fun depth => Print.angled (es.map (f depth)))
      (fun ts => ∃ tss, List.Forall₂ P tss es ∧ Grammar.Angled tss ts) (angled pss) := by
  have hall := Written.commas (h.imp fun _ _ he => he.1)
  cases h with
  | nil =>
    refine ⟨fun depth => rfl, fun _ => trivial, fun hts => ⟨[], .nil, .inl ⟨rfl, ?_⟩⟩⟩
    exact hts.eq_nil
  | @cons e ps es pss he hes =>
    refine ⟨fun depth => ?_, fun hrest => ?_, fun hts => ?_⟩
    · simpa [Print.angled, angled, chars, Punct.text] using hall.prints depth
    · refine ⟨?_, (spaced_append_iff _ _ _).mpr ⟨hall.spaced ⟨'>', _, rfl, by decide⟩,
        hrest.separated.ends (.inl rfl), trivial⟩⟩
      exact ((leads_intercalate he.2 _).append _).spaced_punct (by decide) _
    · obtain ⟨a, b, _, rfl, hopen⟩ := hts.exists_of_punct
      obtain ⟨vs, a', b', rfl, hvs⟩ := hopen.exists_of_closed
      obtain ⟨tss, htss, hjoined⟩ := hall.reads hvs
      refine ⟨tss, htss, .inr ⟨?_, a, b, vs, a', b', rfl, hjoined⟩⟩
      rintro rfl
      cases htss

/-- What follows a name is no part of it. -/
theorem head?_angled {rest : List Char} (hrest : Separated rest) :
    ∀ c ∈ (allChars (angled pss) ++ rest).head?, Token.continuesWord c = false := by
  cases pss with
  | nil => exact hrest.head?
  | cons ps pss =>
    rintro _ ⟨⟩
    decide

end

theorem RendersType.reference {mark : Mark} {word : String} {name : Node} {arguments : List Node}
    (hname : name.EntityName word) (hword : Grammar.IsReference word)
    (h : ∀ a ∈ arguments, ∃ ps, RendersType a ps) :
    ∃ qs, RendersType (.mk .typeReference mark [.node name, .list arguments]) qs := by
  obtain ⟨ps, hps⟩ := hname.renders
  obtain ⟨pss, hpss⟩ := exists_forall₂ h
  have hangled := written_angled (hpss.imp fun _ _ ha => ⟨ha.toWritten, ha.leads⟩)
  refine ⟨ps ++ angled pss, ⟨fun depth => ?_, fun hrest => ?_, fun hts => ?_⟩, hps.leads.append _⟩
  · have hprints := hangled.prints depth
    rw [Print.text_typeReference, String.toList_append, hps.prints, hprints, allChars_append]
  · exact (spaced_append_iff _ _ _).mpr ⟨hps.spaced (head?_angled hrest.separated),
      hangled.spaced hrest⟩
  · obtain ⟨us, vs, rfl, hus, hvs⟩ := hts.exists_of_append
    obtain ⟨a, b, ws, rfl, hnames, hdots⟩ := hps.reads hus
    obtain ⟨tss, htss, htypes⟩ := hangled.reads hvs
    exact .member (by simp [Node.kind]) (by simp [Node.kind]) (Grammar.member_reference hword hnames
      hdots (htss.imp fun _ _ ht => ht.part) htypes)

section

variable {text : Nat → String} {P : List Token → Prop} {ps : List Piece}

structure Suffix (D : List Char → Prop) (text : Nat → String) (P : List Token → Prop)
    (ps : List Piece) : Prop extends Written text P ps where
  follows {rest : List Char} (h : Delimited rest) : D (allChars ps ++ rest)

/-- A type that some pieces announce, if there is one. -/
theorem exists_suffix {D : List Char → Prop} {before : String} {bs : List Piece}
    {Q : List Token → Option Node → Prop} {part : Option Node}
    (hprints : before.toList = allChars bs) (hspaced : ∀ rest, Spaced bs rest)
    (hD : ∀ rest, Delimited rest → D rest) (hbefore : ∀ rest, D (allChars bs ++ rest))
    (hnone : Q [] none)
    (hsome : ∀ ts us e, Spelled bs ts → Grammar.Annotates us e → Q (ts ++ us) (some e))
    (h : ∀ c ∈ part, ∃ ps, RendersType c ps) :
    ∃ ps, Suffix D (Print.suffix · before part) (Q · part) ps := by
  cases part with
  | none =>
    refine ⟨[], ⟨fun depth => rfl, fun _ => trivial, fun hts => ?_⟩, hD _⟩
    rwa [hts.eq_nil]
  | some c =>
    obtain ⟨ps, hps⟩ := h c rfl
    refine ⟨bs ++ ps, ⟨fun depth => ?_, fun hrest => ?_, fun hts => ?_⟩, fun _ => ?_⟩
    · simp [Print.suffix, hprints, hps.prints]
    · exact (spaced_append_iff _ _ _).mpr ⟨hspaced _, hps.spaced hrest⟩
    · obtain ⟨us, vs, rfl, hus, hvs⟩ := hts.exists_of_append
      exact hsome us vs c hus (hps.reads hvs).annotates
    · rw [allChars_append, List.append_assoc]
      exact hbefore _

theorem exists_typeSuffix {type : Option Node} (h : ∀ c ∈ type, ∃ ps, RendersType c ps) :
    ∃ ps, Suffix Separated (Print.suffix · ": " type) (Grammar.Announces .colon · type) ps := by
  have hspaced (rest : List Char) : Spaced [.punct .colon, .blank] rest :=
    ⟨Punct.ends_cons (by decide) (fun _ => by decide) _, trivial, trivial⟩
  refine exists_suffix rfl hspaced (fun _ => Delimited.separated)
    (fun _ => ⟨':', _, rfl, by decide⟩) (.inl ⟨rfl, rfl⟩) (fun ts us e hts he => ?_) h
  obtain ⟨a, b, _, rfl, hnil⟩ := hts.exists_of_punct
  obtain rfl := hnil.of_blank.eq_nil
  exact .inr ⟨a, b, us, e, rfl, rfl, he⟩

theorem exists_defaultSuffix {type : Option Node} (h : ∀ c ∈ type, ∃ ps, RendersType c ps) :
    ∃ ps, Suffix Delimited (Print.suffix · " = " type) (Grammar.Announces .assign · type) ps := by
  have hspaced (rest : List Char) : Spaced [.blank, .punct .assign, .blank] rest :=
    ⟨trivial, Punct.ends_cons (by decide) (fun _ => by decide) _, trivial, trivial⟩
  refine exists_suffix rfl hspaced (fun _ => id) (fun _ => ⟨' ', _, rfl, by decide⟩)
    (.inl ⟨rfl, rfl⟩) (fun ts us e hts he => ?_) h
  obtain ⟨a, b, _, rfl, hnil⟩ := hts.of_blank.exists_of_punct
  obtain rfl := hnil.of_blank.eq_nil
  exact .inr ⟨a, b, us, e, rfl, rfl, he⟩

theorem exists_constraintSuffix {type : Option Node} (h : ∀ c ∈ type, ∃ ps, RendersType c ps) :
    ∃ ps, Suffix Delimited (Print.suffix · " extends " type) (Grammar.Constrains · type) ps := by
  have hspaced (rest : List Char) : Spaced [.blank, .word "extends", .blank] rest :=
    ⟨trivial, ⟨Options.isWord_of_isIdentifier (by decide), by rintro _ ⟨⟩; decide⟩, trivial,
      trivial⟩
  refine exists_suffix rfl hspaced (fun _ => id) (fun _ => ⟨' ', _, rfl, by decide⟩)
    (.inl ⟨rfl, rfl⟩) (fun ts us e hts he => ?_) h
  obtain ⟨a, b, _, rfl, hnil⟩ := hts.of_blank.exists_of_word
  obtain rfl := hnil.of_blank.eq_nil
  exact .inr ⟨a, b, us, e, rfl, rfl, he⟩

def Piece.flagged (p : Punct) (flag : Bool) : List Piece :=
  if flag then [.punct p] else []

theorem Piece.Spelled.flagged {p : Punct} {flag : Bool} {ts : List Token}
    (h : Spelled (Piece.flagged p flag) ts) : Parser.Flagged p flag ts := by
  cases flag with
  | false => exact .inr ⟨rfl, h.eq_nil⟩
  | true =>
    obtain ⟨a, b, us, rfl, hus⟩ := h.exists_of_punct
    obtain rfl := hus.eq_nil
    exact .inl ⟨rfl, a, b, rfl⟩

/-- A question mark between a name and what stands behind it. -/
theorem Suffix.marked (h : Suffix Separated text P ps) (optional : Bool) :
    Written (fun depth => (if optional then "?" else "") ++ text depth)
      (fun ts => ∃ us vs, ts = us ++ vs ∧ Parser.Flagged .question optional us ∧ P vs)
      (flagged .question optional ++ ps) where
  prints depth := by cases optional <;> simp [flagged, h.prints, chars, Punct.text]
  spaced hrest := by
    refine (spaced_append_iff _ _ _).mpr ⟨?_, h.spaced hrest⟩
    cases optional with
    | false => exact trivial
    | true => exact ⟨(h.follows hrest).ends (.inr rfl), trivial⟩
  reads hts := by
    obtain ⟨us, vs, rfl, hus, hvs⟩ := hts.exists_of_append
    exact ⟨us, vs, rfl, hus.flagged, h.reads hvs⟩

theorem Suffix.head?_marked (h : Suffix Separated text P ps) (optional : Bool) {rest : List Char}
    (hrest : Delimited rest) :
    ∀ c ∈ (allChars (flagged .question optional ++ ps) ++ rest).head?,
      Token.continuesWord c = false := by
  cases optional with
  | false => exact (h.follows hrest).head?
  | true =>
    rintro _ ⟨⟩
    decide

end

section

variable {mark mark' : Mark} {name : String} {type : Option Node}

theorem exists_parameter (variadic optional : Bool) (hw : IsWord name)
    (hr : isReserved name = false) (htype : ∀ c ∈ type, ∃ ps, RendersType c ps) :
    ∃ ps, Written
      (Print.parameter · (.mk .parameter mark [.flag variadic,
        .node (.mk .identifier mark' [.text name]), .flag optional, .ofOption type, .absent]))
      (Grammar.Part .parenClose Grammar.parameter · (.mk .parameter mark [.flag variadic,
        .node (.mk .identifier mark' [.text name]), .flag optional, .ofOption type, .absent]))
      ps := by
  obtain ⟨ps, hps⟩ := exists_typeSuffix htype
  refine ⟨flagged .ellipsis variadic ++ .word name :: (flagged .question optional ++ ps),
    fun depth => ?_, fun hrest => ?_, fun hts => ?_⟩
  · have hmarked := (hps.marked optional).prints depth
    rw [Print.parameter_mk, Print.text_name, String.append_assoc, String.toList_append, hmarked]
    cases variadic <;> simp [flagged, chars, Punct.text]
  · refine (spaced_append_iff _ _ _).mpr ⟨?_, ⟨hw, hps.head?_marked optional hrest⟩,
      (hps.marked optional).spaced hrest⟩
    cases variadic with
    | false => exact trivial
    | true => exact ⟨(leads_word hw _).spaced_punct (by decide) _, trivial⟩
  · obtain ⟨us, _, rfl, hus, hrest⟩ := hts.exists_of_append
    obtain ⟨a, b, _, rfl, hmarked⟩ := hrest.exists_of_word
    obtain ⟨vs, ws, rfl, hvs, hws⟩ := (hps.marked optional).reads hmarked
    exact Grammar.part_parameter hr hus.flagged hvs hws

theorem exists_typeParameter {constraint default : Option Node} (hw : IsWord name)
    (hr : isReserved name = false) (hconstraint : ∀ c ∈ constraint, ∃ ps, RendersType c ps)
    (hdefault : ∀ c ∈ default, ∃ ps, RendersType c ps) :
    ∃ ps, Written
      (Print.typeParameter · (.mk .typeParameter mark [.node (.mk .identifier mark' [.text name]),
        .ofOption constraint, .ofOption default]))
      (Grammar.Part .greater Grammar.typeParameter · (.mk .typeParameter mark
        [.node (.mk .identifier mark' [.text name]), .ofOption constraint, .ofOption default]))
      ps ∧ Leads ps := by
  obtain ⟨ps, hps⟩ := exists_constraintSuffix hconstraint
  obtain ⟨qs, hqs⟩ := exists_defaultSuffix hdefault
  refine ⟨.word name :: (ps ++ qs), ⟨fun depth => ?_, fun hrest => ?_, fun hts => ?_⟩,
    leads_word hw _⟩
  · rw [Print.typeParameter_mk, Print.text_name]
    simp [hps.prints, hqs.prints, chars]
  · refine ⟨⟨hw, fun c hc => ?_⟩, (spaced_append_iff _ _ _).mpr
      ⟨hps.spaced (hqs.follows hrest), hqs.spaced hrest⟩⟩
    rw [allChars_append, List.append_assoc] at hc
    exact ((hps.follows (hqs.follows hrest)).head? c hc).1
  · obtain ⟨a, b, _, rfl, hsuffixes⟩ := hts.exists_of_word
    obtain ⟨us, vs, rfl, hus, hvs⟩ := hsuffixes.exists_of_append
    exact Grammar.part_typeParameter hr (hps.reads hus) (hqs.reads hvs)

theorem exists_signature {name : Node} (optional : Bool) (hname : name.MemberName)
    (htype : ∀ c ∈ type, ∃ ps, RendersType c ps) :
    ∃ ps, Written
      (Print.propertySignature · (.mk .propertySignature mark
        [.node name, .flag optional, .ofOption type]))
      (Grammar.ReadsSignature · (.mk .propertySignature mark
        [.node name, .flag optional, .ofOption type])) ps := by
  obtain ⟨ps, hps⟩ := exists_typeSuffix htype
  have hmarked := hps.marked optional
  cases hname with
  | @identifier mark' word hw =>
    refine ⟨.word word :: (flagged .question optional ++ ps), fun depth => ?_, fun hrest => ?_,
      fun hts => ?_⟩
    · rw [Print.propertySignature_mk, Print.text_name, String.append_assoc, String.toList_append,
        hmarked.prints]
      rfl
    · exact ⟨⟨hw, hps.head?_marked optional hrest⟩, hmarked.spaced hrest⟩
    · obtain ⟨a, b, _, rfl, hrest⟩ := hts.exists_of_word
      obtain ⟨us, vs, rfl, hus, hvs⟩ := hmarked.reads hrest
      exact Grammar.readsSignature (.word word a b mark') hus hvs
  | @string mark' value single =>
    refine ⟨.string value single :: (flagged .question optional ++ ps), fun depth => ?_,
      fun hrest => ⟨trivial, hmarked.spaced hrest⟩, fun hts => ?_⟩
    · rw [Print.propertySignature_mk, Print.text_string, String.append_assoc, String.toList_append,
        hmarked.prints, String.toList_ofList]
      rfl
    · obtain ⟨a, b, _, rfl, hrest⟩ := hts.exists_of_string
      obtain ⟨us, vs, rfl, hus, hvs⟩ := hmarked.reads hrest
      exact Grammar.readsSignature (.string value single a b mark') hus hvs

end

namespace RendersType

variable {mark : Mark}

theorem written_member {m : Node} {ps : List Piece}
    (h : Written (Print.propertySignature · m) (Grammar.ReadsSignature · m) ps) :
    Written (fun depth => Print.propertySignature depth m ++ ";")
      (fun ts => ∃ us a b, ts = us ++ [.punct .semicolon a b] ∧ Grammar.ReadsSignature us m)
      (ps ++ [.punct .semicolon]) where
  prints depth := by simp [h.prints, chars, Punct.text]
  spaced _ := (spaced_append_iff _ _ _).mpr ⟨h.spaced ⟨';', _, rfl, by decide⟩,
    Punct.ends_of_mem (by simp) _, trivial⟩
  reads hts := by
    obtain ⟨us, a, b, rfl, hus⟩ := hts.exists_of_closed
    exact ⟨us, a, b, rfl, h.reads hus⟩

theorem literal {members : List Node} (h : ∀ m ∈ members, ∃ ps,
      Written (Print.propertySignature · m) (Grammar.ReadsSignature · m) ps) :
    ∃ qs, RendersType (.mk .typeLiteral mark [.list members]) qs := by
  obtain ⟨pss, hpss⟩ := exists_forall₂ fun m hm => (h m hm).elim fun ps hps =>
    ⟨ps ++ [.punct .semicolon], written_member hps⟩
  have hall := hpss
  cases hpss with
  | nil =>
    refine ⟨[.punct .braceOpen, .punct .braceClose], ⟨fun depth => ?_, fun _ => ?_, fun hts => ?_⟩,
      _, _, rfl, by decide⟩
    · rw [Print.text_typeLiteral]
      simp [chars, Punct.text]
    · exact ⟨Punct.ends_of_mem (by simp) _, Punct.ends_of_mem (by simp) _, trivial⟩
    · obtain ⟨a, b, _, rfl, hclose⟩ := hts.exists_of_punct
      obtain ⟨a', b', _, rfl, hnil⟩ := hclose.exists_of_punct
      obtain rfl := hnil.eq_nil
      exact .member (by simp [Node.kind]) (by simp [Node.kind]) (Grammar.member_typeLiteral .nil)
  | @cons m ps members pss hps hpss =>
    refine ⟨.punct .braceOpen :: .blank :: ([.blank].intercalate (ps :: pss) ++
      [.blank, .punct .braceClose]), ⟨fun depth => ?_, fun _ => ?_, fun hts => ?_⟩, _, _, rfl,
      by decide⟩
    · have hmembers : (" ".intercalate ((m :: members).map fun m =>
          Print.propertySignature depth m ++ ";")).toList =
            allChars ([.blank].intercalate (ps :: pss)) := by
        refine toList_intercalate rfl ?_
        rw [List.forall₂_map_left_iff]
        exact hall.imp fun _ _ hm => hm.prints depth
      rw [Print.text_typeLiteral, if_neg (by simp), String.toList_append, String.toList_append,
        hmembers]
      simp [chars, Punct.text]
    · have hblank (rest : List Char) : Spaced [.blank] rest := ⟨trivial, trivial⟩
      refine ⟨Punct.ends_of_mem (by simp) _, trivial, (spaced_append_iff _ _ _).mpr ⟨?_, trivial,
        Punct.ends_of_mem (by simp) _, trivial⟩⟩
      exact spaced_intercalate hblank (fun _ => ⟨' ', _, rfl, by decide⟩)
        (Written.forall_right hall fun _ _ hm rest => hm.spaced) ⟨' ', _, rfl, by decide⟩
    · obtain ⟨a, b, _, rfl, hopen⟩ := hts.exists_of_punct
      obtain ⟨us, vs, rfl, hus, hvs⟩ := hopen.of_blank.exists_of_append
      obtain ⟨a', b', _, rfl, hnil⟩ := hvs.of_blank.exists_of_punct
      obtain rfl := hnil.eq_nil
      obtain ⟨tss, htss, rfl⟩ := hus.exists_flatten
      have heach : Parser.ReadsEach (fun ts m => ∃ us a b, ts = us ++ [.punct .semicolon a b] ∧
          Grammar.ReadsSignature us m) (m :: members) (ps :: pss) :=
        hall.imp fun _ ps hm ts (hts : Spelled ps ts) => hm.reads hts
      exact .member (by simp [Node.kind]) (by simp [Node.kind])
        (Grammar.member_typeLiteral (heach.of_spelled htss))

theorem function {types parameters : List Node} {result : Node} {rs : List Piece}
    (htypes : ∀ p ∈ types, ∃ ps, Written (Print.typeParameter · p)
      (Grammar.Part .greater Grammar.typeParameter · p) ps ∧ Leads ps)
    (hparameters : ∀ p ∈ parameters, ∃ ps, Written (Print.parameter · p)
      (Grammar.Part .parenClose Grammar.parameter · p) ps)
    (hresult : RendersType result rs) :
    ∃ qs, RendersType (.mk .functionType mark
      [.list types, .list parameters, .node result]) qs := by
  obtain ⟨pss, hpss⟩ := exists_forall₂ htypes
  obtain ⟨qss, hqss⟩ := exists_forall₂ hparameters
  have hangled := written_angled hpss
  have hcommas := Written.commas hqss
  refine ⟨angled pss ++ ((.punct .parenOpen :: (commas qss ++ [.punct .parenClose])) ++
    (.blank :: .punct .arrow :: .blank :: rs)), ⟨fun depth => ?_, fun hrest => ?_, fun hts => ?_⟩,
    ?_⟩
  · have htypes := hangled.prints depth
    have hparameters := hcommas.prints depth
    rw [Print.text_functionType]
    simp [Print.parens, htypes, hparameters, hresult.prints, chars, Punct.text]
  · refine (spaced_append_iff _ _ _).mpr ⟨hangled.spaced ⟨'(', _, rfl, by decide⟩,
      (spaced_append_iff _ _ _).mpr ⟨spaced_enclosed (.inl ⟨rfl, rfl⟩) (fun _ => hcommas.spaced) _,
        trivial, Punct.ends_of_mem (by simp) _, trivial, hresult.spaced hrest⟩⟩
  · obtain ⟨us, _, rfl, hus, hrest⟩ := hts.exists_of_append
    obtain ⟨_, _, rfl, henclosed, harrow⟩ := hrest.exists_of_append
    obtain ⟨a, b, _, rfl, hopen⟩ := henclosed.exists_of_punct
    obtain ⟨vs, a', b', rfl, hvs⟩ := hopen.exists_of_closed
    obtain ⟨c, d, ws, rfl, hws⟩ := harrow.of_blank.exists_of_punct
    obtain ⟨tss, htss, hbrackets⟩ := hangled.reads hus
    obtain ⟨tss', htss', hjoined⟩ := hcommas.reads hvs
    exact .function (.mk htss hbrackets htss' hjoined (hresult.reads hws.of_blank).annotates)
  · cases pss with
    | nil => exact ⟨'(', _, rfl, by decide⟩
    | cons ps pss => exact ⟨'<', _, rfl, by decide⟩

end RendersType

def Node.TypeSort.Renders : TypeSort → Node → Prop
  | .type, e => ∃ ps, RendersType e ps
  | .typeParameter, e => ∃ ps, Written (Print.typeParameter · e)
    (Grammar.Part .greater Grammar.typeParameter · e) ps ∧ Piece.Leads ps
  | .parameter, e => ∃ ps, Written (Print.parameter · e)
    (Grammar.Part .parenClose Grammar.parameter · e) ps
  | .signature, e => ∃ ps, Written (Print.propertySignature · e) (Grammar.ReadsSignature · e) ps

theorem Node.TypeTree.renders {sort : TypeSort} {e : Node} (h : TypeTree sort e) :
    sort.Renders e := by
  induction h with
  | reference hname hword _ ih => exact RendersType.reference hname hword ih
  | keyword k => exact ⟨_, .keyword k⟩
  | string value single => exact ⟨_, .string value single⟩
  | number h => exact ⟨_, .number h⟩
  | boolean value => exact ⟨_, .boolean value⟩
  | literal _ ih => exact RendersType.literal ih
  | array _ ih =>
    obtain ⟨ps, hps⟩ := ih
    exact hps.array
  | function _ _ _ ihtypes ihparameters ihresult =>
    obtain ⟨rs, hrs⟩ := ihresult
    exact RendersType.function ihtypes ihparameters hrs
  | union hlength hflat _ ih => exact RendersType.union hlength hflat ih
  | typeParameter hw hr _ _ ihconstraint ihdefault =>
    exact exists_typeParameter hw hr ihconstraint ihdefault
  | parameter variadic optional hw hr _ ih => exact exists_parameter variadic optional hw hr ih
  | signature optional hname _ ih => exact exists_signature optional hname ih

def Node.annotated (name : String) (type : Node) : Node :=
  .plain .variableStatement [.flag false, .node (.plain .variableDeclarationList [.text "let",
    .list [.plain .variableDeclaration [.node (.identifier name), .node type, .absent]]])]

theorem Print.text_annotated (depth : Nat) (name : String) (type : Node) :
    text depth (.annotated name type) = "let " ++ name ++ ": " ++ text depth type ++ ";" := by
  have hdeclaration : declaration depth (.plain .variableDeclaration
      [.node (.identifier name), .node type, .absent]) = name ++ (": " ++ text depth type) := by
    rw [declaration, Node.elim_smaller?, initializer_of_none depth rfl,
      typeSuffix_of_child depth (some type) rfl, String.append_empty]
    change text depth (.identifier name) ++ _ = _
    rw [text_identifier]
    rfl
  rw [Node.annotated, Node.plain, text]
  dsimp only [Node.kind]
  rw [Node.elim_smaller?]
  change "" ++ declarationList depth (.plain .variableDeclarationList _) ++ ";" = _
  rw [declarationList, Node.map_smallerList]
  change "" ++ ("let" ++ " " ++ commas [declaration depth _]) ++ ";" = _
  rw [hdeclaration]
  simp [commas, String.append_assoc]

namespace Grammar

open Quasiquote.Parser

def declarationStep (g : Grammar) (declarations : List Node) : Parser (List Node × Bool) := do
  let declaration ← g.variableDeclaration
  let more ← eat .comma
  return (declarations ++ [declaration], more)

theorem variableStatement_eq (g : Grammar) (exported : Bool) (start : Nat) :
    g.variableStatement exported start = (do
      let listStart ← here
      let keyword ← advance
      let declarations ← loop [] g.declarationStep
      let list ← finish .variableDeclarationList listStart [.text keyword.text, .list declarations]
      semicolon "variable statement"
      finish .variableStatement start [.flag exported, .node list]) := rfl

variable {name : String} {type : Node} {ts rest : List Token} {a b a' b' c c' d : Nat}

theorem variableDeclaration_reads {declared : Option Node} (hr : isReserved name = false)
    (hts : Announces .colon ts declared)
    (hfits : (ts ++ .punct .semicolon a' b' :: rest).length ≤ d) :
    Reads (toDepth d).variableDeclaration (.word name a b :: ts)
      (.plain .variableDeclaration [.node (.identifier name), .ofOption declared, .absent])
      (.punct .semicolon a' b' :: rest) := by
  have hends : (Token.punct .semicolon a' b').EndsType := by simp [Token.EndsType]
  have hword : .word name a b :: ts = [Token.word name a b] ++ (ts ++ ([] ++ [])) := by simp
  rw [hword]
  refine .after_here fun start => (yields_identifier hr _ {}).bind fun n hn => ?_
  refine (hts.yields hfits hends (by simp)).bind fun r hr => ?_
  refine Yields.bind (Q := (· = none)) (fun last => ⟨none, last, announced_none _ (by simp), rfl⟩)
    fun z hz => yields_finish ?_
  subst hz
  simp only [Node.plain, Node.bare_mk, List.map_cons, List.map_nil, Field.bare_ofOption, hr]
  simp [Field.bare, Field.ofOption, hn, Node.identifier, Node.plain, Node.bare_mk]

/-- A variable with its type is read up to the semicolon of its statement. -/
theorem statement_annotated {x y : Nat} (hr : isReserved name = false) (h : Annotates ts type)
    (hd : (ts ++ .punct .semicolon c c' :: rest).length ≤ d) :
    Reads (toDepth (d + 2)).statement (.word "let" a b :: .word name a' b' :: .punct .colon x y ::
      (ts ++ [.punct .semicolon c c'])) (.annotated name type) rest := by
  intro last
  have hdeclares : Announces .colon (.punct .colon x y :: ts) (some type) :=
    .inr ⟨x, y, ts, type, rfl, rfl, h⟩
  obtain ⟨n, last', hread, hn⟩ := variableDeclaration_reads (a := a') (b := b') hr hdeclares
    (Nat.succ_le_succ hd) b
  simp only [List.cons_append] at hread
  have hstep : (toDepth (d + 1)).declarationStep [] ⟨b, .word name a' b' :: .punct .colon x y ::
      (ts ++ .punct .semicolon c c' :: rest)⟩ =
        .done ([n], false) ⟨last', .punct .semicolon c c' :: rest⟩ := by
    simp [declarationStep, hread]
  refine ⟨.mk .variableStatement { span := some ⟨a, max c' a⟩ } [.flag false, .node (.mk
    .variableDeclarationList { span := some ⟨a, max last' a⟩ } [.text "let", .list [n]])], c',
    ?_, ?_⟩
  · change (toDepth (d + 1)).anyStatement _ = _
    simp [anyStatement, wordStatement, isVariableKeyword, variableStatement_eq, advance_cons,
      loop_stop hstep, semicolon]
  · simp [Node.annotated, Node.plain, Node.bare_mk, Field.bare, hn, Field.ofOption]

end Grammar

theorem Node.exists_declaredType {statement type : Node} {name : String}
    (h : statement.bare = (Node.annotated name type).bare) :
    ∃ list declaration declared, statement.child? .declarationList = some list ∧
      list.list .declarations = [declaration] ∧ declaration.child? .typeNode = some declared ∧
      declared.same type = true := by
  obtain ⟨list, hlist, hbare⟩ := exists_child?_of_bare (l := .declarationList) h rfl
  obtain ⟨declaration, hdeclaration, hbare⟩ : ∃ declaration,
      list.list .declarations = [declaration] ∧ declaration.bare = (Node.plain .variableDeclaration
        [.node (.identifier name), .node type, .absent]).bare := by
    have hdeclarations : (list.list .declarations).map Node.bare = [(Node.plain .variableDeclaration
        [.node (.identifier name), .node type, .absent]).bare] := by
      rw [← list_bare, hbare, list_bare]
      rfl
    simpa [List.map_eq_cons_iff] using hdeclarations
  obtain ⟨declared, hdeclared, hbare⟩ := exists_child?_of_bare (l := .typeNode) hbare rfl
  exact ⟨list, declaration, declared, hlist, hdeclaration, hdeclared,
    (Node.same_iff _ _).mpr hbare⟩

/-- Type annotations round trip. The statement that declares a variable of a type is read back as
one statement, which declares the same variable of the same type. -/
theorem Node.parse_print_annotated {type : Node} (h : TypeTree .type type) {name : String}
    (hw : IsWord name) (hr : isReserved name = false) :
    ∃ tree statement list declaration declared,
      parse (Node.annotated name type).print = .ok tree ∧ tree.list .statements = [statement] ∧
      statement.same (.annotated name type) = true ∧
      statement.child? .declarationList = some list ∧ list.list .declarations = [declaration] ∧
      declaration.child? .typeNode = some declared ∧ declared.same type = true := by
  obtain ⟨ps, hps⟩ := h.renders
  have hprint : (Node.annotated name type).print.toList = allChars (.word "let" :: .blank ::
      .word name :: .punct .colon :: .blank :: (ps ++ [.punct .semicolon])) := by
    rw [Node.print, Print.text_annotated]
    simp [hps.prints, chars, Punct.text]
  have hspaced : Spaced (.word "let" :: .blank :: .word name :: .punct .colon :: .blank ::
      (ps ++ [.punct .semicolon])) [] := by
    refine ⟨⟨Options.isWord_of_isIdentifier (by decide), by rintro _ ⟨⟩; decide⟩, trivial,
      ⟨hw, by rintro _ ⟨⟩; decide⟩, Punct.ends_cons (by decide) (fun _ => by decide) _, trivial,
      (spaced_append_iff _ _ _).mpr ⟨hps.spaced ⟨';', _, rfl, by decide⟩, ?_, trivial⟩⟩
    exact Punct.ends_of_mem (by simp) _
  obtain ⟨tree, statement, hparse, hlist, hstatement⟩ := parse_of_statement hprint hspaced
    (Q := fun s => s.bare = (Node.annotated name type).bare) fun ts stop hts => by
    obtain ⟨a, b, _, rfl, hname⟩ := hts.exists_of_word
    obtain ⟨a', b', _, rfl, hcolon⟩ := hname.of_blank.exists_of_word
    obtain ⟨x, y, _, rfl, htype⟩ := hcolon.exists_of_punct
    obtain ⟨us, c, c', rfl, hus⟩ := htype.of_blank.exists_of_closed
    have hfits : (us ++ .punct .semicolon c c' :: [Token.eofAt stop]).length ≤ us.length + 4 := by
      simp
    obtain ⟨n, last', hread, hn⟩ := Grammar.statement_annotated (a := a) (b := b) (x := x) (y := y)
      hr (hps.reads hus).annotates hfits 0
    refine ⟨_, _, n, last', rfl, by simp, ?_, hn⟩
    simpa using hread
  obtain ⟨list, declaration, declared, hchild, hdeclaration, hdeclared, hsame⟩ :=
    exists_declaredType hstatement
  exact ⟨tree, statement, list, declaration, declared, hparse, hlist,
    (Node.same_iff _ _).mpr hstatement, hchild, hdeclaration, hdeclared, hsame⟩

/-- Unions and functions in parentheses and without, brackets that close together, a parameter with
both marks, and members named by a string and by a reserved word. -/
theorem Node.parse_print_annotated_nested :
    let plain := Node.plain .typeReference [.node (.identifier "A"), .list []]
    let qualified := Node.plain .typeReference [
      .node (.plain .qualifiedName [.node (.identifier "A"), .node (.identifier "new")]),
      .list [.plain .typeReference [.node (.identifier "A"), .list [plain]]]]
    let thunk := Node.plain .functionType [.list [], .list [],
      .node (.plain .keywordType [.text KeywordType.void.name])]
    let union := Node.plain .unionType [.list [plain, thunk]]
    let members := Node.plain .typeLiteral [.list [
      .plain .propertySignature [.node (.plain .stringLiteral [.text "k", .flag true]), .flag true,
        .ofOption (some (.plain .literalType [.node (.plain .numericLiteral [.text "1"])]))],
      .plain .propertySignature [.node (.identifier "in"), .flag false, .ofOption none]]]
    let function := Node.plain .functionType [
      .list [.plain .typeParameter [.node (.identifier "T"), .ofOption (some qualified),
        .ofOption (some members)]],
      .list [.plain .parameter [.flag true, .node (.identifier "r"), .flag true,
        .ofOption (some (.plain .arrayType [.node union])), .absent]],
      .node union]
    let type := Node.plain .unionType [.list [.plain .arrayType [.node function],
      .plain .literalType [.node (.plain .trueKeyword [])]]]
    TypeTree .type type ∧ ∃ tree statement list declaration declared,
      parse (Node.annotated "x" type).print = .ok tree ∧ tree.list .statements = [statement] ∧
      statement.same (.annotated "x" type) = true ∧
      statement.child? .declarationList = some list ∧ list.list .declarations = [declaration] ∧
      declaration.child? .typeNode = some declared ∧ declared.same type = true := by
  intro plain qualified thunk union members function type
  have hA : IsWord "A" := Options.isWord_of_isIdentifier (by decide)
  have hreference : Grammar.IsReference "A" := ⟨by decide, by decide, by decide⟩
  have hplain : TypeTree .type plain := .reference (.identifier hA) hreference (by simp)
  have hqualified : TypeTree .type qualified := by
    refine .reference (.qualified (.identifier hA) (Options.isWord_of_isIdentifier (by decide)))
      hreference ?_
    intro t ht
    obtain rfl := List.mem_singleton.mp ht
    exact .reference (.identifier hA) hreference (by simpa using hplain)
  have hthunk : TypeTree .type thunk := .function (by simp) (by simp) (.keyword .void)
  have hunion : TypeTree .type union :=
    .union (by simp) (by simp [plain, thunk, Node.plain, Node.kind]) (by simp [hplain, hthunk])
  have hmembers : TypeTree .type members := by
    refine .literal (List.forall_mem_cons.mpr ⟨?_, List.forall_mem_singleton.mpr ?_⟩)
    · refine .signature true (.string "k" true) ?_
      rintro _ ⟨⟩
      exact .number ⟨_, _, rfl, List.all_eq_true.mp (by decide)⟩
    · exact .signature false (.identifier (Options.isWord_of_isIdentifier (by decide))) (by simp)
  have hfunction : TypeTree .type function := by
    refine .function (List.forall_mem_singleton.mpr ?_) (List.forall_mem_singleton.mpr ?_) hunion
    · exact .typeParameter (Options.isWord_of_isIdentifier (by decide)) (by decide)
        (by simpa using hqualified) (by simpa using hmembers)
    · refine .parameter true true (Options.isWord_of_isIdentifier (by decide)) (by decide) ?_
      rintro _ ⟨⟩
      exact .array hunion
  have htype : TypeTree .type type := by
    refine .union (by simp) (by simp [Node.plain, Node.kind])
      (List.forall_mem_cons.mpr ⟨.array hfunction, List.forall_mem_singleton.mpr ?_⟩)
    exact .boolean true
  exact ⟨htype,
    parse_print_annotated htype (Options.isWord_of_isIdentifier (by decide)) (by decide)⟩

end Quasiquote
