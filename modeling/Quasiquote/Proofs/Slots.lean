import Quasiquote.Proofs.FreshToken
import Quasiquote.Proofs.Locating
import Quasiquote.Template.Compile

namespace Quasiquote

/-- What is written in front of a token by its encoding. The quotes of a string are part of it. -/
def Encoding.lead : Encoding → String
  | quoted | bare => ""
  | braced => "\x7b"
  | returned => "return "

structure Slot where
  token : String
  placeholder : Placeholder
  /-- The fragment up to the encoded token. -/
  before : List Char

namespace Slot

def text (s : Slot) : List Char :=
  (s.placeholder.role.encoding.encode s.token).toList

def start (s : Slot) : Nat :=
  Text.byteLength s.before

def span (s : Slot) : Span :=
  ⟨s.start, s.start + Text.byteLength s.text⟩

def tokenStart (s : Slot) : Nat :=
  s.start + Text.byteLength s.placeholder.role.encoding.lead.toList

def isSpelledBy (s : Slot) (t : Token) : Bool :=
  match s.placeholder.role with
  | .stringLiteral => t.kind = .string && t.value = s.token
  | _ => t.isWord s.token

def Lies (s : Slot) (source : List Char) : Prop :=
  s.before ++ s.text <+: source

end Slot

theorem Token.extent_eq {ts : List Token} {t u : Token} {before text : List Char}
    (ht : ts.head? = some t) (hu : ts.getLast? = some u) (hstart : t.start = Text.byteLength before)
    (hstop : u.stop = Text.byteLength (before ++ text)) :
    Token.extent ts = ⟨Text.byteLength before, Text.byteLength (before ++ text)⟩ := by
  simp [Token.extent, ht, hu, hstart, hstop]

theorem Token.text_of_isWord {t : Token} {text : String} (h : t.isWord text = true) :
    t.text = text := by
  simp only [Token.isWord, Bool.and_eq_true, decide_eq_true_eq] at h
  exact h.2

theorem Token.Stands.stop_of_isWord {source before rest : List Char} {t : Token} {text : String}
    (h : t.Stands source) (hs : source = before ++ (text.toList ++ rest))
    (hstart : t.start = Text.byteLength before) (hword : t.isWord text = true) :
    t.stop = Text.byteLength (before ++ text.toList) := by
  obtain ⟨-, -, -, hstop⟩ := (h.isRead hs hstart).place
  rwa [Token.text_of_isWord hword] at hstop

section

variable {source before after : List Char} {P : Token → Prop} {n : Node} {token : String}
  (hP : ∀ t, P t → t.Stands source)

include hP

theorem Node.Located.span_identifier (hn : n.Located (Token.Follows source) P)
    (h : n.identifier? = some token) (hs : source = before ++ token.toList ++ after)
    (hlone : ∀ t, P t → t.isWord token = true → t.start = Text.byteLength before) :
    n.span = some ⟨Text.byteLength before, Text.byteLength (before ++ token.toList)⟩ := by
  obtain ⟨t, ht, hword, hspan⟩ := Role.located_identifier hn h
  have hstart := hlone t ht hword
  have hstop := (hP t ht).stop_of_isWord (hs.trans (List.append_assoc _ _ _)) hstart hword
  rw [hspan, Token.extent_eq rfl rfl hstart hstop]

theorem Node.Located.span_string (hn : n.Located (Token.Follows source) P)
    (h : Role.stringLiteral.token? n = some token)
    (htoken : ∀ c ∈ token.toList, Token.isPlain c = true)
    (hs : source = before ++ ('"' :: token.toList ++ ['"']) ++ after)
    (hlone : ∀ t, P t → t.kind = .string → t.value = token → t.start = Text.byteLength before) :
    n.span = some ⟨Text.byteLength before,
      Text.byteLength (before ++ ('"' :: token.toList ++ ['"']))⟩ := by
  obtain ⟨t, ht, hk, hvalue, hspan⟩ := Role.located_string hn h
  have hread := (hP t ht).isRead (hs.trans (List.append_assoc _ _ _)) (hlone t ht hk hvalue)
  obtain ⟨hstart, -, -, hstop⟩ := hread.place
  have hread' : Token.IsRead before ('"' :: (token.toList ++ '"' :: after)) t := by
    simpa using hread
  rw [hread'.text_of_string hk htoken] at hstop
  rw [hspan, Token.extent_eq rfl rfl hstart hstop]

theorem Node.Located.span_block (hn : n.Located (Token.Follows source) P)
    (h : Role.block.token? n = some token)
    (hs : source = before ++ ('{' :: token.toList ++ ['}']) ++ after)
    (hlone : ∀ t, P t → t.isWord token = true → t.start = Text.byteLength (before ++ ['{'])) :
    n.span = some ⟨Text.byteLength before,
      Text.byteLength (before ++ ('{' :: token.toList ++ ['}']))⟩ := by
  obtain ⟨t, u, vs, w, hrun, ht, hu, hvs, hw, hspan⟩ := Role.located_block hn h
  obtain ⟨hhead, -, hlast⟩ := Token.runs_append.mp hrun
  obtain ⟨hPt, hus, htu⟩ := Token.runs_cons.mp hhead
  obtain ⟨hPu, -, huvs⟩ := Token.runs_cons.mp hus
  have hustart := hlone u hPu hu
  have hs' : source = before ++ ['{'] ++ (token.toList ++ '}' :: after) := by simpa using hs
  have hs'' : source = (before ++ ['{'] ++ token.toList) ++ '}' :: after := by simpa using hs
  -- the brace before the token
  have htstop := (htu t rfl u rfl).stop_of_solid hs' (Parser.kind_of_isWord hu) hustart (by decide)
  obtain ⟨start, hstart, htstart⟩ := (hP t hPt).eq_append_text hs' htstop
  have htext : t.text.toList = ['{'] := by
    obtain ⟨_, _, _, hread⟩ := hP t hPt
    rw [hread.text_of_punct ht]
    rfl
  rw [htext] at hstart
  obtain rfl := List.append_cancel_right hstart
  -- the brace after it
  have hustop := (hP u hPu).stop_of_isWord hs' hustart hu
  have hnext : ∀ {v : Token} {p : Punct}, Token.Follows source u v → v.kind = .punct p →
      p.text.toList.head? = some '}' ∧ Token.IsRead _ ('}' :: after) v := fun hv hk => by
    have hread := hv.isRead_of_solid hs'' hustop (by decide)
    exact ⟨hread.head_of_punct hk, hread⟩
  obtain rfl | ⟨v, p, hp, hv, rfl⟩ := hvs
  · have hread := (hnext (hlast u rfl w rfl) hw).2
    obtain ⟨-, -, -, hwstop⟩ := hread.place
    have hclosing : w.text.toList = ['}'] := by rw [hread.text_of_punct hw]; rfl
    rw [hclosing, List.append_assoc, List.append_assoc] at hwstop
    rw [hspan, Token.extent_eq rfl rfl htstart hwstop]
    rfl
  · obtain rfl := List.mem_singleton.mp hp
    exact absurd (hnext (huvs u rfl v rfl) hv).1 (by decide)

theorem Node.Located.span_returnStatement (hn : n.Located (Token.Follows source) P)
    (h : Role.returnStatement.token? n = some token)
    (hs : source = before ++ ("return ".toList ++ token.toList ++ [';']) ++ after)
    (hlone : ∀ t, P t → t.isWord token = true →
      t.start = Text.byteLength (before ++ "return ".toList)) :
    n.span = some ⟨Text.byteLength before,
      Text.byteLength (before ++ ("return ".toList ++ token.toList ++ [';']))⟩ := by
  obtain ⟨t, u, vs, hrun, ht, hu, hvs, hclosed, hspan⟩ := Role.located_returnStatement hn h
  obtain ⟨hPt, hus, htu⟩ := Token.runs_cons.mp hrun
  obtain ⟨hPu, -, huvs⟩ := Token.runs_cons.mp hus
  have hustart := hlone u hPu hu
  have hs' : source = (before ++ "return ".toList) ++ (token.toList ++ ';' :: after) := by
    simpa using hs
  have hs'' : source = (before ++ "return ".toList ++ token.toList) ++ ';' :: after := by
    simpa using hs
  -- the keyword before the token
  have hkeyword : before ++ "return ".toList = (before ++ "retur".toList) ++ ['n'] ++ [' '] := by
    simp
  have htext : t.text.toList = "return".toList := by rw [Token.text_of_isWord ht]
  have htstart : t.start = Text.byteLength before := by
    rw [hkeyword] at hs' hustart
    obtain hstop | hstop := (htu t rfl u rfl).stop_of_blank hs' (Parser.kind_of_isWord hu) hustart
      (by decide)
    · rw [List.append_assoc _ [' ']] at hs'
      obtain ⟨start, hstart, htstart⟩ := (hP t hPt).eq_append_text hs' hstop
      rw [htext, List.append_assoc] at hstart
      rw [htstart, ← List.append_cancel_right (hstart : before ++ "return".toList = _)]
    · obtain ⟨start, hstart, -⟩ := (hP t hPt).eq_append_text hs' hstop
      rw [htext] at hstart
      simpa using congrArg List.getLast? hstart
  -- the semicolon after it
  have hustop := (hP u hPu).stop_of_isWord hs' hustart hu
  obtain rfl | ⟨v, p, hp, hv, rfl⟩ := hvs
  · obtain hk | hk | ⟨v, hv, hne⟩ := hclosed u rfl
    · simp [Parser.kind_of_isWord hu] at hk
    · simp [Parser.kind_of_isWord hu] at hk
    · exact absurd (hv.isRead_of_solid hs'' hustop (by decide)).kind_of_semicolon hne
  · have hread := (huvs u rfl v rfl).isRead_of_solid hs'' hustop (by decide)
    obtain ⟨-, -, -, hvstop⟩ := hread.place
    have hclosing : v.text.toList = [';'] := by
      rw [hread.text_of_punct hread.kind_of_semicolon]
      rfl
    rw [hclosing, List.append_assoc, List.append_assoc] at hvstop
    rw [hspan, Token.extent_eq rfl rfl htstart hvstop, List.append_assoc]

end

namespace Token

theorem isPlain_of_continuesName {c : Char} (h : continuesName c = true) : isPlain c = true := by
  have hne : ∀ d : Char, continuesName d = false → c ≠ d := by
    rintro d hd rfl
    rw [h] at hd
    cases hd
  simp [isPlain, hne '"' (by decide), hne '\\' (by decide), hne '\n' (by decide)]

def IsNameLike (token : String) : Prop :=
  ∀ c ∈ token.toList, continuesName c = true

theorem IsName.isNameLike {token : String} (h : IsName token) : IsNameLike token := by
  obtain ⟨c, r, htoken, hc, hr⟩ := h
  rw [IsNameLike, htoken, List.forall_mem_cons]
  refine ⟨?_, hr⟩
  simp only [startsName, Bool.or_eq_true] at hc
  simp only [continuesName, Char.isAlphanum, Bool.or_eq_true]
  exact hc.imp_left .inl

end Token

/-- The node that carries the token of a slot stands exactly on the slot, if no other word or string
of the fragment says the token. -/
theorem Slot.span_eq {s : Slot} {source : List Char} {P : Token → Prop} {n : Node}
    (hname : Token.IsNameLike s.token) (hlies : s.Lies source)
    (hn : n.Located (Token.Follows source) P) (hP : ∀ t, P t → t.Stands source)
    (htoken : s.placeholder.role.token? n = some s.token)
    (hlone : ∀ t, P t → s.isSpelledBy t = true → t.start = s.tokenStart) :
    n.span = some s.span := by
  obtain ⟨token, ⟨payload, role, span⟩, before⟩ := s
  obtain ⟨after, hs⟩ := hlies
  replace hs := hs.symm
  rw [Slot.span, Slot.start, Slot.text, ← Text.byteLength_append]
  simp only [Slot.isSpelledBy, Slot.tokenStart, Slot.start, ← Text.byteLength_append] at hlone
  cases role with
  | expression | identifier =>
    refine hn.span_identifier hP htoken hs fun t ht hword => ?_
    rw [hlone t ht hword]
    simp [Role.encoding, Encoding.lead]
  | block =>
    have htext : (Role.block.encoding.encode token).toList = '{' :: token.toList ++ ['}'] := by
      simp [Role.encoding, Encoding.encode]
    simp only [Slot.text, htext] at hs ⊢
    exact hn.span_block hP htoken hs hlone
  | returnStatement =>
    have htext : (Role.returnStatement.encoding.encode token).toList =
        "return ".toList ++ token.toList ++ [';'] := by
      simp [Role.encoding, Encoding.encode]
    simp only [Slot.text, htext] at hs ⊢
    exact hn.span_returnStatement hP htoken hs hlone
  | stringLiteral =>
    have htext : (Role.stringLiteral.encoding.encode token).toList =
        '"' :: token.toList ++ ['"'] := by
      simp [Role.encoding, Encoding.encode]
    simp only [Slot.text, htext] at hs ⊢
    refine hn.span_string hP htoken (fun c hc => Token.isPlain_of_continuesName (hname c hc)) hs
      fun t ht hk hv => ?_
    rw [hlone t ht (by simp [hk, hv])]
    simp [Role.encoding, Encoding.lead]

end Quasiquote
