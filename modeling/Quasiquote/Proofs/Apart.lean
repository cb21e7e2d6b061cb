import Quasiquote.Proofs.Slots

namespace Quasiquote

namespace Literal

variable {quote c d : Char} {start offset n k : Nat} {cs r body rest value : List Char} {opens : Bool}

theorem cons_of_drop_eq (c : Char) (h : r.drop k = body ++ d :: rest) :
    c :: r = c :: r.take k ++ body ++ d :: rest ∧
      (c :: r.take k ++ body).length = 1 + k + body.length := by
  have hlength := congrArg List.length h
  simp only [List.length_drop, List.length_append, List.length_cons] at hlength
  refine ⟨by rw [List.append_assoc, ← h, List.cons_append, List.take_append_drop], ?_⟩
  simp only [List.length_append, List.length_cons, List.length_take]
  omega

/-- A string ends with its quote, and it says what is written if nothing in it is escaped. -/
theorem readString_eq_ok (h : readString quote start offset cs = .ok (value, n)) :
    ∃ body rest, cs = body ++ quote :: rest ∧ n = body.length + 1 ∧
      ('\\' ∉ body → value = body) := by
  fun_induction readString quote start offset cs generalizing value n with
  | case1 | case2 | case4 => cases h
  | case3 offset r =>
    cases h
    exact ⟨[], r, rfl, rfl, fun _ => rfl⟩
  | case5 offset r char k _ _ _ ih =>
    obtain ⟨⟨value', m⟩, hread, hpure⟩ := exists_of_bind_eq_ok h
    cases hpure
    obtain ⟨body, rest, hdrop, rfl, -⟩ := ih hread
    obtain ⟨hcons, hlength⟩ := cons_of_drop_eq '\\' hdrop
    exact ⟨_, rest, hcons, by omega, by simp⟩
  | case6 offset c r _ _ _ ih =>
    obtain ⟨⟨value', m⟩, hread, hpure⟩ := exists_of_bind_eq_ok h
    cases hpure
    obtain ⟨body, rest, rfl, rfl, hvalue⟩ := ih hread
    refine ⟨c :: body, rest, rfl, by simp [Nat.add_comm], fun hbody => ?_⟩
    rw [hvalue fun hmem => hbody (List.mem_cons_of_mem c hmem)]

theorem readTemplate_eq_ok (h : readTemplate start offset cs = .ok (value, n, opens)) :
    ∃ body d rest, cs = body ++ d :: rest ∧ n = body.length + 1 ∧ (d = '`' ∨ d = '{') := by
  fun_induction readTemplate start offset cs generalizing value n opens with
  | case1 | case4 => cases h
  | case2 offset c r hc =>
    simp only [Bool.and_eq_true, decide_eq_true_eq] at hc
    obtain ⟨rfl, hr⟩ := hc
    obtain ⟨rest, rfl⟩ := List.head?_eq_some_iff.mp hr
    cases h
    exact ⟨['$'], '{', rest, rfl, rfl, .inr rfl⟩
  | case3 offset r =>
    cases h
    exact ⟨[], '`', r, rfl, rfl, .inl rfl⟩
  | case5 | case6 =>
    rename_i ih
    obtain ⟨⟨value', m, opens'⟩, hread, hpure⟩ := exists_of_bind_eq_ok h
    cases hpure
    obtain ⟨body, d, rest, hdrop, rfl, hd⟩ := ih hread
    obtain ⟨hcons, hlength⟩ := cons_of_drop_eq _ hdrop
    exact ⟨_, d, rest, hcons, by omega, hd⟩
  | case7 offset c r _ _ _ _ ih =>
    obtain ⟨⟨value', m, opens'⟩, hread, hpure⟩ := exists_of_bind_eq_ok h
    cases hpure
    obtain ⟨body, d, rest, rfl, rfl, hd⟩ := ih hread
    exact ⟨c :: body, d, rest, rfl, by simp [Nat.add_comm], hd⟩

end Literal

namespace Token

variable {source before rest x y : List Char} {t u : Token} {c d : Char}

theorem continuesWord_of_continuesName (h : continuesName c = true) : continuesWord c = true := by
  simp only [continuesName, Char.isAlphanum, Bool.or_eq_true, decide_eq_true_eq] at h
  obtain (h | h) | rfl := h
  · simp [continuesWord, Text.isAlphabetic_of_isAlpha h]
  · simp [continuesWord, Text.isNumeric_of_isDigit h]
  · decide

theorem isSolid_of_continuesName (h : continuesName c = true) : Text.isSolid c = true := by
  have hslash : c ≠ '/' := by
    rintro rfl
    exact absurd h (by decide)
  have hblank : Text.isBlank c = false := by
    simp only [continuesName, Bool.or_eq_true, decide_eq_true_eq] at h
    obtain h | rfl := h
    · exact not_isBlank_of_isAlphanum h
    · decide
  simp [Text.isSolid, hslash, hblank]

/-- A word goes on as long as there are characters of a word. -/
theorem IsRead.not_continuesWord (h : IsRead before (t.text.toList ++ rest) t)
    (hk : t.kind = .word) : rest.head?.any continuesWord = false := by
  generalize hr : t.text.toList ++ rest = r at h
  cases r with
  | nil =>
    cases h
    cases hk
  | cons c r =>
    obtain ⟨l, hl, hkind, htext, -⟩ := h.spells
    rw [hk] at hkind
    cases hl with
    | number hk' | string hk' | template hk' | punct hk' => simp [← hkind] at hk'
    | word _ _ hsize =>
      rw [hsize, take_length_takeWhile] at htext
      have hrest : rest = (c :: r).dropWhile continuesWord := by
        rw [← List.takeWhile_append_dropWhile (p := continuesWord) (l := c :: r), ← htext] at hr
        exact List.append_cancel_left hr
      have hnot := List.head?_dropWhile_not continuesWord (c :: r)
      rw [← hrest] at hnot
      cases rest with
      | nil => rfl
      | cons d rest => simpa using hnot

/-- A string without escapes is its value between quotes. -/
theorem IsRead.text_of_unescaped (h : IsRead before rest t) (hk : t.kind = .string)
    (hescape : '\\' ∉ t.text.toList) :
    ∃ quote, continuesName quote = false ∧ t.text.toList = quote :: t.value.toList ++ [quote] := by
  cases rest with
  | nil =>
    cases h
    cases hk
  | cons c r =>
    obtain ⟨l, hl, hkind, htext, hvalue⟩ := h.spells
    rw [hk] at hkind
    cases hl with
    | word hk' | number hk' | template hk' | punct hk' => simp [← hkind] at hk'
    | string _ hc hread hsize hv =>
      obtain ⟨body, rest, rfl, rfl, hbody⟩ := Literal.readString_eq_ok hread
      have hwhole : t.text.toList = c :: body ++ [c] := by
        rw [htext, hsize, List.take_succ_cons, List.take_length_add_append]
        rfl
      rw [hv, Option.getD_some, hbody fun hmem => hescape (by simp [hwhole, hmem])] at hvalue
      refine ⟨c, ?_, by rw [hwhole, hvalue]⟩
      rcases hc with rfl | rfl <;> decide

/-- Only words and numbers end with a character of a name. -/
theorem IsRead.kind_of_last (h : IsRead before rest t) (hlast : d ∈ t.text.toList.getLast?)
    (hd : continuesName d = true) : t.kind = .word ∨ t.kind = .number := by
  cases rest with
  | nil =>
    cases h
    cases hlast
  | cons c r =>
    obtain ⟨l, hl, hkind, htext, -⟩ := h.spells
    have hquote : ∀ {body rest : List Char} {e : Char}, r = body ++ e :: rest →
        l.size = body.length + 1 + 1 → d = e := by
      rintro body rest e rfl hsize
      rw [htext, hsize, List.take_succ_cons, List.take_length_add_append, List.take_one,
        List.head?_cons, Option.toList_some, ← List.cons_append, List.getLast?_concat] at hlast
      exact (Option.some.inj hlast).symm
    cases hl with
    | word hk => exact .inl (hkind.trans hk)
    | number hk => exact .inr (hkind.trans hk)
    | string _ hc hread hsize _ =>
      obtain ⟨body, rest, hr, rfl, -⟩ := Literal.readString_eq_ok hread
      obtain rfl := hquote hr hsize
      rcases hc with rfl | rfl <;> exact absurd hd (by decide)
    | template _ _ hread hsize =>
      obtain ⟨body, e, rest, hr, rfl, he⟩ := Literal.readTemplate_eq_ok hread
      obtain rfl := hquote hr hsize
      rcases he with rfl | rfl <;> exact absurd hd (by decide)
    | @punct p hk =>
      have hnot : ∀ p : Punct, p.text.toList.getLast?.any continuesName = false := by
        intro p
        cases p <;> rfl
      rw [h.text_of_punct (hkind.trans hk)] at hlast
      have hany := hnot p
      rw [Option.mem_def.mp hlast, Option.any_some, hd] at hany
      cases hany

theorem exists_rel_of_mem {α : Type} {R : α → α → Prop} {a b : α} {l : List α}
    (h : (a :: l).IsChain R) (hb : b ∈ l) : ∃ e ∈ a :: l, R e b := by
  induction l generalizing a with
  | nil => cases hb
  | cons e l ih =>
    obtain ⟨hae, hl⟩ := List.isChain_cons_cons.mp h
    rcases List.mem_cons.mp hb with rfl | hb
    · exact ⟨a, List.mem_cons_self, hae⟩
    · obtain ⟨e', he', hR⟩ := ih hl hb
      exact ⟨e', List.mem_cons_of_mem a he', hR⟩

/-- A word right after a character of a name comes after a number: a word does not end there. -/
theorem exists_number_of_word {source : String} {tokens : List Token}
    (hscan : scan source = .ok tokens) (ht : t ∈ tokens) (hk : t.kind = .word)
    (hs : source.toList = x ++ [d] ++ y) (hstart : t.start = Text.byteLength (x ++ [d]))
    (hd : continuesName d = true) :
    ∃ u ∈ tokens, u.kind = .number ∧ u.start < u.stop ∧ u.stop = t.start := by
  obtain ⟨hchain, hstands⟩ := scanFrom_chain hscan .nil
    (show source.toList = [] ++ [] ++ source.toList from rfl) rfl
  obtain ⟨c, r, rfl, hc⟩ := ((hstands t ht).isRead hs hstart).startsWord_of_word hk
  obtain ⟨u, hu, hfollows⟩ := exists_rel_of_mem (hchain (eofAt 0) rfl) ht
  have hstop := hfollows.stop_of_solid hs hk hstart (isSolid_of_continuesName hd)
  have hpos : 0 < Text.byteLength (x ++ [d]) := Text.byteLength_pos (by simp)
  rcases List.mem_cons.mp hu with rfl | hu
  · exact absurd hstop (Nat.ne_of_lt hpos)
  obtain ⟨start, heq, hustart⟩ := (hstands u hu).eq_append_text hs hstop
  have hread := (hstands u hu).isRead (hs.trans (by rw [heq, List.append_assoc])) hustart
  have htext : u.text.toList ≠ [] := by
    intro hnil
    rw [hnil, List.nil_append] at hread
    obtain ⟨l, hl, -, htext, -⟩ := hread.spells
    rw [hnil] at htext
    have hsize := hl.size_pos
    cases hsize' : l.size with
    | zero => omega
    | succ k => simp [hsize'] at htext
  have hlast : d ∈ u.text.toList.getLast? := by
    have hgetLast := congrArg List.getLast? heq
    rw [List.getLast?_append_of_ne_nil _ htext, List.getLast?_concat] at hgetLast
    exact hgetLast.symm
  obtain hword | hnumber := hread.kind_of_last hlast hd
  · have hnot := hread.not_continuesWord hword
    rw [List.head?_cons, Option.any_some, continuesWord_of_startsWord hc] at hnot
    cases hnot
  · refine ⟨u, hu, hnumber, ?_, hstop.trans hstart.symm⟩
    have hlength := Text.byteLength_pos htext
    rw [hstop, heq, Text.byteLength_append]
    omega

end Token

namespace Text

def nameAt (cs : List Char) (k : Nat) : Bool :=
  cs[k]?.any Token.continuesName

variable {source x w y : List Char} {p q p' q' k : Nat} {c : Char}

theorem nameAt_of_mid (hw : ∀ c ∈ w, Token.continuesName c = true) (h : source = x ++ w ++ y)
    (hle : x.length ≤ k) (hlt : k < x.length + w.length) : nameAt source k = true := by
  have hget : source[k]? = w[k - x.length]? := by
    rw [h, List.append_assoc, List.getElem?_append_right hle,
      List.getElem?_append_left (by omega)]
  have hin : k - x.length < w.length := by omega
  rw [nameAt, hget, List.getElem?_eq_getElem hin, Option.any_some]
  exact hw _ (List.getElem_mem hin)

/-- Characters of a name from one position up to another, with none right before or after them. -/
structure IsRun (source : List Char) (p q : Nat) : Prop where
  names : ∀ k, p ≤ k → k < q → nameAt source k = true
  before : ∀ k, k + 1 = p → nameAt source k = false
  after : nameAt source q = false

/-- Runs that have a position in common are the same. -/
theorem IsRun.unique (h : IsRun source p q) (h' : IsRun source p' q') (hlt : p < q')
    (hlt' : p' < q) : p = p' ∧ q = q' := by
  have hle : ∀ {a b a' b' : Nat}, IsRun source a b → IsRun source a' b' → a' < b → a < b' →
      a' ≤ a ∧ b' ≤ b := by
    intro a b a' b' h h' hab hab'
    constructor
    · by_contra hnot
      have hname := h.names (a' - 1) (by omega) (by omega)
      rw [h'.before (a' - 1) (by omega)] at hname
      cases hname
    · by_contra hnot
      have hname := h'.names b (by omega) (by omega)
      rw [h.after] at hname
      cases hname
  obtain ⟨hp, hq⟩ := hle h h' hlt' hlt
  obtain ⟨hp', hq'⟩ := hle h' h hlt hlt'
  omega

/-- Whether the last character of a text and the first one of another are of one name. -/
def meets (xs ys : List Char) : Bool :=
  xs.getLast?.any Token.continuesName && ys.head?.any Token.continuesName

theorem nameAt_getLast (hs : source = x ++ y) (hk : k + 1 = x.length) :
    nameAt source k = x.getLast?.any Token.continuesName := by
  rw [nameAt, hs, List.getElem?_append_left (by omega), List.getLast?_eq_getElem?,
    Nat.eq_sub_of_add_eq hk]

theorem nameAt_head (hs : source = x ++ y) :
    nameAt source x.length = y.head?.any Token.continuesName := by
  rw [nameAt, hs, List.getElem?_append_right (Nat.le_refl _), Nat.sub_self,
    List.head?_eq_getElem?]

theorem not_nameAt_of_meets (h : meets x y = false) (hs : source = x ++ y) (hk : k + 1 = x.length)
    (hname : nameAt source k = true) : nameAt source (k + 1) = false := by
  rwa [meets, ← nameAt_getLast hs hk, ← nameAt_head hs, ← hk, hname, Bool.true_and] at h

theorem meets_append_left (hx : x ≠ []) : meets (w ++ x) y = meets x y := by
  rw [meets, meets, List.getLast?_append_of_ne_nil _ hx]

theorem meets_append_right (hy : y ≠ []) : meets x (y ++ w) = meets x y := by
  rw [meets, meets, List.head?_append_of_ne_nil _ hy]

theorem byteLength_lt_of_length_lt {after after' : List Char} (h : x ++ after = w ++ after')
    (hlt : x.length < w.length) : byteLength x < byteLength w := by
  obtain ⟨cs, rfl, -⟩ | ⟨cs, rfl, -⟩ := List.append_eq_append_iff.mp h
  · have hcs : cs ≠ [] := by
      rintro rfl
      simp at hlt
    have hpos := byteLength_pos hcs
    rw [byteLength_append]
    omega
  · simp only [List.length_append] at hlt
    omega

end Text

namespace Encoding

def opening : Encoding → List Char
  | quoted => ['"']
  | bare => []
  | braced => ['{']
  | returned => "return ".toList

def closing : Encoding → List Char
  | quoted => ['"']
  | bare => []
  | braced => ['}']
  | returned => [';']

theorem toList_encode (token : String) (e : Encoding) :
    (e.encode token).toList = e.opening ++ token.toList ++ e.closing := by
  cases e with
  | bare => exact (List.append_nil _).symm
  | quoted | braced | returned =>
    simp only [encode, String.toList_append]
    rfl

theorem not_continuesName_opening (e : Encoding) :
    e.opening.getLast?.any Token.continuesName = false := by
  cases e <;> decide

theorem not_continuesName_closing (e : Encoding) :
    e.closing.head?.any Token.continuesName = false := by
  cases e <;> decide

theorem length_closing_le (e : Encoding) : e.closing.length ≤ 1 := by
  cases e <;> decide

theorem length_opening_le {e : Encoding} (h : e ≠ returned) : e.opening.length ≤ 1 := by
  cases e with
  | returned => exact absurd rfl h
  | _ => decide

theorem opening_eq_nil_iff {e : Encoding} : e.opening = [] ↔ e.closing = [] := by
  cases e <;> decide

end Encoding

namespace Slot

/-- Nothing of a name is written right before or after an encoded token, and no number of the
fragment reaches into it. -/
structure StandsApart (s : Slot) (source : List Char) (tokens : List Token) : Prop where
  before : Text.meets s.before s.text = false
  after : Text.meets s.text (source.drop (s.before ++ s.text).length) = false
  numbers : ∀ t ∈ tokens, t.kind = .number → t.stop ≤ s.span.start ∨ s.span.stop ≤ t.start

instance (s : Slot) (source : List Char) (tokens : List Token) :
    Decidable (s.StandsApart source tokens) :=
  decidable_of_iff (Text.meets s.before s.text = false ∧
      Text.meets s.text (source.drop (s.before ++ s.text).length) = false ∧
      ∀ t ∈ tokens, t.kind = .number → t.stop ≤ s.span.start ∨ s.span.stop ≤ t.start)
    ⟨fun h => ⟨h.1, h.2.1, h.2.2⟩, fun h => ⟨h.before, h.after, h.numbers⟩⟩

def encoding (s : Slot) : Encoding :=
  s.placeholder.role.encoding

variable {s : Slot} {source x w y : List Char} {tokens : List Token} {p q : Nat}

theorem text_eq (s : Slot) : s.text = s.encoding.opening ++ s.token.toList ++ s.encoding.closing :=
  Encoding.toList_encode s.token s.encoding

theorem Lies.eq_append (h : s.Lies source) :
    source = s.before ++ s.text ++ source.drop (s.before ++ s.text).length := by
  obtain ⟨after, rfl⟩ := h
  rw [List.drop_left]

theorem text_ne_nil (hname : Token.IsName s.token) : s.text ≠ [] := by
  obtain ⟨c, r, htoken, -⟩ := hname
  simp [text_eq, htoken]

theorem opening_of_returned (he : s.encoding = .returned) :
    s.encoding.opening = "return".toList ++ [' '] := by
  rw [he]
  rfl

section

variable (hname : Token.IsName s.token) (hlies : s.Lies source)
  (hs : s.StandsApart source tokens)

include hname hlies hs

theorem StandsApart.not_nameAt_start {k : Nat} (hk : k + 1 = s.before.length)
    (h : Text.nameAt source k = true) : Text.nameAt source (k + 1) = false := by
  refine Text.not_nameAt_of_meets ?_ (hlies.eq_append.trans (List.append_assoc ..)) hk h
  rw [Text.meets_append_right (text_ne_nil hname), hs.before]

theorem StandsApart.not_nameAt_stop {k : Nat} (hk : k + 1 = (s.before ++ s.text).length)
    (h : Text.nameAt source k = true) : Text.nameAt source (k + 1) = false := by
  refine Text.not_nameAt_of_meets ?_ hlies.eq_append hk h
  rw [Text.meets_append_left (text_ne_nil hname), hs.after]

/-- A token that stands apart is a run of its own. -/
theorem StandsApart.isRun : Text.IsRun source (s.before ++ s.encoding.opening).length
    (s.before ++ s.encoding.opening ++ s.token.toList).length := by
  obtain ⟨after, hsource⟩ : ∃ after, source =
      s.before ++ s.encoding.opening ++ s.token.toList ++ (s.encoding.closing ++ after) := by
    obtain ⟨after, rfl⟩ := hlies
    exact ⟨after, by simp only [text_eq, List.append_assoc]⟩
  have hnames : ∀ k, (s.before ++ s.encoding.opening).length ≤ k →
      k < (s.before ++ s.encoding.opening ++ s.token.toList).length →
      Text.nameAt source k = true := fun k hle hlt =>
    Text.nameAt_of_mid hname.isNameLike hsource hle (by rwa [← List.length_append])
  have hpos : 0 < s.token.toList.length := by
    obtain ⟨c, r, htoken, -⟩ := hname
    simp [htoken]
  have hlength : (s.before ++ s.encoding.opening ++ s.token.toList).length =
    (s.before ++ s.encoding.opening).length + s.token.toList.length := List.length_append
  by_cases hopening : s.encoding.opening = []
  -- a token that nothing is written around ends where the literal text begins
  · have hclosing := Encoding.opening_eq_nil_iff.mp hopening
    refine ⟨hnames, fun k hk => Bool.eq_false_iff.mpr fun hk' => ?_, ?_⟩
    · have hfirst := hnames (k + 1) hk.ge (by omega)
      rw [hopening, List.append_nil] at hk
      rw [hs.not_nameAt_start hname hlies hk hk'] at hfirst
      cases hfirst
    · obtain ⟨k, hk⟩ : ∃ k, k + 1 = (s.before ++ s.encoding.opening ++ s.token.toList).length :=
        ⟨_, Nat.succ_pred_eq_of_pos (by omega)⟩
      have hstop : k + 1 = (s.before ++ s.text).length := by
        rw [hk, text_eq, hopening, hclosing]
        simp
      rw [← hk]
      exact hs.not_nameAt_stop hname hlies hstop (hnames k (by omega) (by omega))
  · have hclosing := mt Encoding.opening_eq_nil_iff.mpr hopening
    refine ⟨hnames, fun k hk => ?_, ?_⟩
    · rw [Text.nameAt_getLast (hsource.trans (List.append_assoc ..)) hk,
        List.getLast?_append_of_ne_nil _ hopening, Encoding.not_continuesName_opening]
    · rw [Text.nameAt_head hsource, List.head?_append_of_ne_nil _ hclosing,
        Encoding.not_continuesName_closing]

theorem StandsApart.isRun_keyword (he : s.encoding = .returned) :
    Text.IsRun source s.before.length (s.before ++ "return".toList).length := by
  obtain ⟨after, hsource⟩ : ∃ after, source = s.before ++ "return".toList ++ ' ' :: after := by
    obtain ⟨after, rfl⟩ := hlies
    refine ⟨s.token.toList ++ s.encoding.closing ++ after, ?_⟩
    rw [text_eq, opening_of_returned he]
    simp only [List.append_assoc, List.cons_append, List.nil_append]
  have hkeyword : "return".toList.all Token.continuesName = true := rfl
  have hnames : ∀ k, s.before.length ≤ k → k < (s.before ++ "return".toList).length →
      Text.nameAt source k = true := fun k hle hlt =>
    Text.nameAt_of_mid (List.all_eq_true.mp hkeyword) hsource hle (by rwa [← List.length_append])
  refine ⟨hnames, fun k hk => Bool.eq_false_iff.mpr fun hk' => ?_, ?_⟩
  · have hsix : "return".toList.length = 6 := rfl
    have hfirst := hnames (k + 1) hk.ge (by rw [List.length_append]; omega)
    rw [hs.not_nameAt_start hname hlies hk hk'] at hfirst
    cases hfirst
  · rw [Text.nameAt_head hsource]
    rfl

/-- The only runs in an encoded token that stands apart are the token and the keyword before it. -/
theorem StandsApart.run_eq (hrun : Text.IsRun source p q) (hpq : p < q)
    (hp : p < (s.before ++ s.text).length) (hq : s.before.length < q) :
    (p = (s.before ++ s.encoding.opening).length ∧
      q = (s.before ++ s.encoding.opening ++ s.token.toList).length) ∨
    (s.encoding = .returned ∧ p = s.before.length ∧
      q = (s.before ++ "return".toList).length) := by
  have htoken := hs.isRun hname hlies
  have hstart : p ≠ (s.before ++ s.encoding.opening ++ s.token.toList).length := by
    intro heq
    have hfirst := hrun.names p (Nat.le_refl p) hpq
    rw [heq, htoken.after] at hfirst
    cases hfirst
  have hclosing := s.encoding.length_closing_le
  simp only [text_eq, List.length_append] at hp hstart
  by_cases hopening : (s.before ++ s.encoding.opening).length < q
  · exact .inl (hrun.unique htoken (by simp only [List.length_append]; omega) hopening)
  -- what ends in the opening is the keyword, because no other opening has a character of a name
  · have hstop : q ≠ (s.before ++ s.encoding.opening).length := by
      intro heq
      have hlast := hrun.names (q - 1) (by omega) (by omega)
      rw [htoken.before (q - 1) (by omega)] at hlast
      cases hlast
    rw [List.length_append] at hopening hstop
    have he : s.encoding = .returned := by
      by_contra hne
      have hlength := Encoding.length_opening_le hne
      omega
    have hseven : Encoding.returned.opening.length = 7 := rfl
    have hsix : "return".toList.length = 6 := rfl
    rw [he, hseven] at hopening hstop
    exact .inr ⟨he, hrun.unique (hs.isRun_keyword hname hlies he)
      (by rw [List.length_append]; omega) hq⟩

/-- A word of the fragment that shares a character with an encoded token that stands apart has no
character of a name in front of it: it would come after a number. -/
theorem StandsApart.isRun_of_word {fragment : String} (hsource : source = fragment.toList)
    (hscan : Token.scan fragment = .ok tokens) {t : Token} (ht : t ∈ tokens) (hk : t.kind = .word)
    (hw : ∀ c ∈ t.text.toList, Token.continuesName c = true)
    (heq : source = x ++ t.text.toList ++ y) (hstart : t.start = Text.byteLength x)
    (hp : x.length < (s.before ++ s.text).length)
    (hq : s.before.length < (x ++ t.text.toList).length) :
    Text.IsRun source x.length (x ++ t.text.toList).length := by
  have hnames : ∀ k, x.length ≤ k → k < (x ++ t.text.toList).length →
      Text.nameAt source k = true := fun k hle hlt =>
    Text.nameAt_of_mid hw heq hle (by rwa [← List.length_append])
  have hstands := (Token.scan_chain hscan).2 t ht
  rw [← hsource] at hstands
  refine ⟨hnames, fun k hk' => Bool.eq_false_iff.mpr fun hlast => ?_, ?_⟩
  · have hgetLast := hlast
    rw [Text.nameAt_getLast (heq.trans (List.append_assoc ..)) hk'] at hgetLast
    obtain ⟨d, hmem, hd⟩ := (Option.any_eq_true _ _).mp hgetLast
    obtain ⟨x, rfl⟩ := List.getLast?_eq_some_iff.mp hmem
    obtain ⟨u, hu, hnumber, hlt, hstop⟩ := Token.exists_number_of_word hscan ht hk
      (hsource ▸ heq.trans (List.append_assoc ..)) hstart hd
    have hplace := hlies.eq_append
    obtain hbefore | hafter := hs.numbers u hu hnumber
    -- the number ends before the encoded token, and then the word reaches into it from outside
    · have hle : (x ++ [d]).length ≤ s.before.length := by
        by_contra hnot
        have hbytes := Text.byteLength_lt_of_length_lt
          ((hplace.trans (List.append_assoc ..)).symm.trans (heq.trans (List.append_assoc ..)))
          (Nat.lt_of_not_le hnot)
        have hstart' : s.span.start = Text.byteLength s.before := rfl
        omega
      obtain ⟨j, hj⟩ : ∃ j, j + 1 = s.before.length := ⟨_, Nat.succ_pred_eq_of_pos (by omega)⟩
      have hj' : Text.nameAt source j = true := by
        by_cases hkj : k = j
        · exact hkj ▸ hlast
        · exact hnames j (by omega) (by omega)
      have hfirst := hnames (j + 1) (by omega) (by omega)
      rw [hs.not_nameAt_start hname hlies hj hj'] at hfirst
      cases hfirst
    -- or it begins after the encoded token, which the word shares a character with
    · have hbytes := Text.byteLength_lt_of_length_lt
        ((heq.trans (List.append_assoc ..)).symm.trans hplace) hp
      have hstop' : s.span.stop = Text.byteLength (s.before ++ s.text) :=
        (Text.byteLength_append ..).symm
      omega
  · have hnot := (hstands.isRead (heq.trans (List.append_assoc ..)) hstart).not_continuesWord hk
    rw [Text.nameAt_head heq]
    cases y with
    | nil => rfl
    | cons c y =>
      refine Bool.eq_false_iff.mpr fun hc => ?_
      rw [List.head?_cons, Option.any_some, Token.continuesWord_of_continuesName hc] at hnot
      cases hnot

end

/-- The slots of a source that is written from literal text and encoded tokens: the tokens are names
of their own that the literal text does not hold, and what shares no character with a slot is
literal text. -/
structure Written (literal source : List Char) (slots : List Slot) : Prop where
  isName : ∀ s ∈ slots, Token.IsName s.token
  lies : ∀ s ∈ slots, s.Lies source
  fresh : ∀ s ∈ slots, ¬s.token.toList <:+: literal
  nodup : (slots.map Slot.token).Nodup
  literal_or_slot : ∀ x w y, source = x ++ w ++ y → w <:+: literal ∨
    ∃ s ∈ slots, s.before.length < (x ++ w).length ∧ x.length < (s.before ++ s.text).length

variable {literal chunk : List Char} {slots : List Slot}

theorem Written.ofLiteral (h : source <:+: literal) : Written literal source [] := by
  refine ⟨nofun, nofun, nofun, .nil, fun x w y hsource => .inl ?_⟩
  exact (hsource ▸ List.infix_append x w y).trans h

theorem Written.add (h : Written literal source slots) (hbefore : s.before = source)
    (hname : Token.IsName s.token) (hfresh : ¬s.token.toList <:+: literal)
    (hnew : s.token ∉ slots.map Slot.token) (hchunk : chunk <:+: literal) :
    Written literal (source ++ s.text ++ chunk) (slots ++ [s]) := by
  subst hbefore
  constructor
  · exact List.forall_mem_append.mpr ⟨h.isName, List.forall_mem_singleton.mpr hname⟩
  · refine List.forall_mem_append.mpr ⟨fun s' hs' => ?_, List.forall_mem_singleton.mpr ⟨chunk, rfl⟩⟩
    exact (h.lies s' hs').trans ⟨s.text ++ chunk, (List.append_assoc ..).symm⟩
  · exact List.forall_mem_append.mpr ⟨h.fresh, List.forall_mem_singleton.mpr hfresh⟩
  · rw [List.map_append, List.map_singleton]
    exact List.nodup_append'.mpr ⟨h.nodup, List.nodup_singleton _, by simpa using hnew⟩
  · intro x w y hsource
    by_cases hleft : (x ++ w).length ≤ s.before.length
    · obtain ⟨rest, hrest⟩ : x ++ w <+: s.before := List.prefix_of_prefix_length_le
        ⟨y, hsource.symm⟩ ⟨s.text ++ chunk, (List.append_assoc ..).symm⟩ hleft
      obtain hliteral | ⟨s', hs', hplace⟩ := h.literal_or_slot x w rest hrest.symm
      · exact .inl hliteral
      · exact .inr ⟨s', List.mem_append_left _ hs', hplace⟩
    by_cases hright : (s.before ++ s.text).length ≤ x.length
    · obtain ⟨rest, rfl⟩ : s.before ++ s.text <+: x := List.prefix_of_prefix_length_le
        ⟨chunk, rfl⟩ ⟨w ++ y, by rw [hsource, List.append_assoc]⟩ hright
      have hrest : chunk = rest ++ w ++ y := by simpa using hsource
      exact .inl ((hrest ▸ List.infix_append rest w y).trans hchunk)
    · exact .inr ⟨s, List.mem_append_right _ (List.mem_singleton_self s),
        Nat.lt_of_not_le hleft, Nat.lt_of_not_le hright⟩

/-- A token that is read as a run of its own wherever it meets a slot is read from its own slot. -/
theorem Written.eq_of_run (h : Written literal source slots)
    (hapart : ∀ s ∈ slots, s.StandsApart source tokens) (hs : s ∈ slots)
    (hreturn : s.token ≠ "return") (heq : source = x ++ s.token.toList ++ y)
    (hrun : ∀ s' ∈ slots, x.length < (s'.before ++ s'.text).length →
      s'.before.length < (x ++ s.token.toList).length →
      Text.IsRun source x.length (x ++ s.token.toList).length) :
    x = s.before ++ s.encoding.opening := by
  have hpos : x.length < (x ++ s.token.toList).length := by
    obtain ⟨c, r, htoken, -⟩ := h.isName s hs
    simp [htoken]
  obtain hliteral | ⟨s', hs', hq, hp⟩ := h.literal_or_slot x _ y heq
  · exact absurd hliteral (h.fresh s hs)
  obtain ⟨after, hsource⟩ := h.lies s' hs'
  have hprefix (before word : List Char) (hword : before ++ word <+: source)
      (hx : x.length = before.length)
      (hlength : (x ++ s.token.toList).length = (before ++ word).length) :
      x = before ∧ s.token.toList = word := by
    obtain ⟨rest, hword⟩ := hword
    obtain ⟨hxw, -⟩ := List.append_inj (heq.symm.trans hword.symm) hlength
    exact List.append_inj hxw hx
  obtain ⟨hx, hw⟩ | ⟨he, hx, hw⟩ := (hapart s' hs').run_eq (h.isName s' hs') (h.lies s' hs')
    (hrun s' hs' hp hq) hpos hp hq
  · obtain ⟨rfl, htoken⟩ := hprefix (s'.before ++ s'.encoding.opening) s'.token.toList
      ⟨s'.encoding.closing ++ after, by simp [← hsource, text_eq]⟩ hx hw
    rw [List.inj_on_of_nodup_map h.nodup hs hs' (String.toList_inj.mp htoken)]
  · obtain ⟨-, htoken⟩ := hprefix s'.before "return".toList
      ⟨' ' :: s'.token.toList ++ s'.encoding.closing ++ after, by
        rw [← hsource, text_eq, opening_of_returned he]
        simp only [List.append_assoc, List.cons_append, List.nil_append]⟩ hx hw
    exact absurd (String.toList_inj.mp htoken) hreturn

/-- A token that stands apart, as all tokens of the fragment do, is spelled nowhere else: what is
fresh does not occur in the literal text, and no other token is spelled like it. -/
theorem Written.start_eq {fragment : String} (h : Written literal fragment.toList slots)
    (hscan : Token.scan fragment = .ok tokens)
    (hapart : ∀ s ∈ slots, s.StandsApart fragment.toList tokens) (hs : s ∈ slots)
    (hreturn : s.token ≠ "return")
    {t : Token} (ht : t ∈ tokens) (hspelled : s.isSpelledBy t = true)
    (hescape : '\\' ∉ t.text.toList) : t.start = s.tokenStart := by
  obtain ⟨x, rest, hsource, hread⟩ := (Token.scan_chain hscan).2 t ht
  obtain ⟨hstart, y, rfl, -⟩ := hread.place
  have hnames : ∀ c ∈ s.token.toList, Token.continuesName c = true := (h.isName s hs).isNameLike
  by_cases hrole : s.placeholder.role = .stringLiteral
  · obtain ⟨hk, hvalue⟩ : t.kind = .string ∧ t.value = s.token := by
      simpa [isSpelledBy, hrole] using hspelled
    obtain ⟨quote, hquote, htext⟩ := hread.text_of_unescaped hk hescape
    have heq : fragment.toList = x ++ [quote] ++ s.token.toList ++ quote :: y := by
      rw [hsource, htext, hvalue]
      simp
    have hx := h.eq_of_run hapart hs hreturn heq fun _ _ _ _ =>
      ⟨fun k hle hlt => Text.nameAt_of_mid hnames heq hle (by rwa [← List.length_append]),
        fun k hk => by
          rw [Text.nameAt_getLast (heq.trans (List.append_assoc ..)) hk, List.getLast?_concat]
          exact hquote,
        by
          rw [Text.nameAt_head heq]
          exact hquote⟩
    rw [encoding, hrole] at hx
    obtain ⟨rfl, -⟩ := List.append_inj' hx rfl
    rw [hstart, tokenStart, hrole]
    rfl
  · have hword : t.isWord s.token = true := by
      unfold isSpelledBy at hspelled
      split at hspelled
      · next hstring => exact absurd hstring hrole
      · exact hspelled
    have htext := Token.text_of_isWord hword
    have heq : fragment.toList = x ++ t.text.toList ++ y := hsource.trans (List.append_assoc ..).symm
    have hx := h.eq_of_run hapart hs hreturn (htext ▸ heq) fun s' hs' hp hq =>
      htext ▸ (hapart s' hs').isRun_of_word (h.isName s' hs') (h.lies s' hs') rfl hscan ht
        (Parser.kind_of_isWord hword) (htext ▸ hnames) heq hstart hp (htext ▸ hq)
    have hlead : s.encoding.opening = s.encoding.lead.toList := by
      rw [encoding]
      cases hr : s.placeholder.role with
      | stringLiteral => exact absurd hr hrole
      | _ => rfl
    rw [hstart, hx, hlead, Text.byteLength_append, tokenStart, start, encoding]

end Slot

end Quasiquote
