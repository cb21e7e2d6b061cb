import Quasiquote.Proofs.Rebuilding
import Quasiquote.Proofs.Registry
import Quasiquote.Template.Splice

namespace Quasiquote

def Role.token? (n : Node) : Role → Option String
  | expression | identifier => n.identifier?
  | stringLiteral => if n.kind = .stringLiteral then n.text? .text else none
  | block =>
    match n.kind, n.list .statements with
    | .block, [s] =>
      if s.kind = .expressionStatement then (s.child? .expression).bind Node.identifier? else none
    | _, _ => none
  | returnStatement =>
    if n.kind = .returnStatement then (n.child? .expression).bind Node.identifier? else none

def Registry.tokenIn? (r : Registry) (n : Node) : Option String :=
  Role.all.findSome? fun role => do
    let token ← role.token? n
    let placeholder ← r.get? token
    if placeholder.role = role then some token else none

mutual

/-- Put the values of tokens in the place of the nodes of a fragment that carry them, in pre-order.
A token is gone once it has been met, and what is put in is not searched. -/
def Node.substitute (v : String → Node) : Node → Registry → Node × Registry
  | .mk kind mark fields, r =>
    match r.tokenIn? (.mk kind mark fields) with
    | some token => (v token, r.erase token)
    | none =>
      let (fields, r) := Field.substituteList v fields r
      (.mk kind mark fields, r)

def Field.substituteList (v : String → Node) : List Field → Registry → List Field × Registry
  | [], r => ([], r)
  | .node n :: rest, r =>
    let (n, r) := n.substitute v r
    let (rest, r) := Field.substituteList v rest r
    (.node n :: rest, r)
  | .list ns :: rest, r =>
    let (ns, r) := Node.substituteList v ns r
    let (rest, r) := Field.substituteList v rest r
    (.list ns :: rest, r)
  | .text s :: rest, r =>
    let (rest, r) := Field.substituteList v rest r
    (.text s :: rest, r)
  | .flag b :: rest, r =>
    let (rest, r) := Field.substituteList v rest r
    (.flag b :: rest, r)
  | .absent :: rest, r =>
    let (rest, r) := Field.substituteList v rest r
    (.absent :: rest, r)

def Node.substituteList (v : String → Node) : List Node → Registry → List Node × Registry
  | [], r => ([], r)
  | n :: rest, r =>
    let (n, r) := n.substitute v r
    let (rest, r) := Node.substituteList v rest r
    (n :: rest, r)

end

variable (ns : String)

theorem Node.factoryArguments?_builderCall (kind : Kind) (n : Node) :
    (n.builderCall ns).factoryArguments? ns kind =
      if n.kind = kind then some (n.fields.map (Field.builderArgument ns)) else none := by
  cases n with
  | mk k mark fields =>
    have hc : (Node.factoryCall ns k (fields.map (Field.builderArgument ns))).child? .expression =
        some (.propertyAccess (.identifier ns) k.factoryName) := rfl
    have hl : (Node.factoryCall ns k (fields.map (Field.builderArgument ns))).list .arguments =
        fields.map (Field.builderArgument ns) := rfl
    rw [Node.builderCall_mk, Node.factoryArguments?, hc, Option.bind_some,
      Node.factoryKind?_factoryName, hl]
    by_cases hk : k = kind
    · simp [hk, Node.kind, Node.fields, Node.factoryCall, Node.call, Node.plain]
    · simp [hk, Node.kind]

namespace Pattern

theorem identifierToken?_builderCall {n : Node} (h : n.Conforms) :
    identifierToken? ns (n.builderCall ns) = n.identifier? := by
  rw [identifierToken?, Node.factoryArguments?_builderCall]
  by_cases hk : n.kind = .identifier
  · obtain ⟨mark, s, rfl⟩ := h.eq_identifier hk
    rfl
  · simp [hk, Node.identifier?]

theorem stringLiteral_token?_builderCall {n : Node} (h : n.Conforms) :
    stringLiteral.token? ns (n.builderCall ns) = Role.stringLiteral.token? n := by
  rw [token?, Node.factoryArguments?_builderCall]
  by_cases hk : n.kind = .stringLiteral
  · obtain ⟨mark, s, b, rfl⟩ := h.eq_stringLiteral hk
    rfl
  · simp [hk, Role.token?]

theorem returnOfIdentifier_token?_builderCall {n : Node} (h : n.Conforms) :
    returnOfIdentifier.token? ns (n.builderCall ns) = Role.returnStatement.token? n := by
  rw [token?, Node.factoryArguments?_builderCall]
  by_cases hk : n.kind = .returnStatement
  · obtain ⟨mark, e, rfl⟩ := h.eq_returnStatement hk
    cases e with
    | none => rfl
    | some e => exact identifierToken?_builderCall ns (h.of_child? (l := .expression) rfl)
  · simp [hk, Role.token?]

theorem blockOfIdentifier_token?_builderCall {n : Node} (h : n.Conforms) :
    blockOfIdentifier.token? ns (n.builderCall ns) = Role.block.token? n := by
  by_cases hk : n.kind = .block
  · obtain ⟨mark, statements, rfl⟩ := h.eq_block hk
    match statements with
    | [] | _ :: _ :: _ =>
      rw [token?, onlyStatement?, Node.factoryArguments?_builderCall]
      rfl
    | [s] =>
      have hs : s.Conforms := h.of_mem_list (l := .statements) (List.mem_singleton.mpr rfl)
      have honly : onlyStatement? ns ((Node.mk .block mark [.list [s]]).builderCall ns) =
          some (s.builderCall ns) := by
        rw [onlyStatement?, Node.factoryArguments?_builderCall]
        rfl
      have hrole : Role.block.token? (Node.mk .block mark [.list [s]]) =
          if s.kind = .expressionStatement then (s.child? .expression).bind Node.identifier?
          else none := rfl
      rw [token?, honly, hrole, Option.bind_some, Node.factoryArguments?_builderCall]
      by_cases hks : s.kind = .expressionStatement
      · obtain ⟨mark, e, rfl⟩ := hs.eq_expressionStatement hks
        exact identifierToken?_builderCall ns (hs.of_child? (l := .expression) rfl)
      · simp [hks]
  · simp [token?, onlyStatement?, Node.factoryArguments?_builderCall, hk, Role.token?]

theorem token?_builderCall {n : Node} (h : n.Conforms) (role : Role) :
    role.pattern.token? ns (n.builderCall ns) = role.token? n := by
  cases role with
  | expression | identifier => exact identifierToken?_builderCall ns h
  | block => exact blockOfIdentifier_token?_builderCall ns h
  | returnStatement => exact returnOfIdentifier_token?_builderCall ns h
  | stringLiteral => exact stringLiteral_token?_builderCall ns h

theorem token?_eq_none {n : Node} (h : n.kind ≠ .callExpression) (pattern : Pattern) :
    pattern.token? ns n = none := by
  have hn : ∀ kind, n.factoryArguments? ns kind = none := fun kind => by
    simp [Node.factoryArguments?, h]
  cases pattern <;> simp [token?, identifierToken?, onlyStatement?, hn]

end Pattern

theorem Role.kind_of_token? {n : Node} {role : Role} {token : String}
    (h : role.token? n = some token) :
    match role with
    | expression | identifier => n.kind = .identifier
    | stringLiteral => n.kind = .stringLiteral
    | block => n.kind = .block
    | returnStatement => n.kind = .returnStatement := by
  cases role with
  | expression | identifier | stringLiteral | returnStatement =>
    simp only [token?, Node.identifier?] at h
    split at h
    · assumption
    · simp at h
  | block =>
    simp only [token?] at h
    split at h
    · assumption
    · simp at h

/-- The kind of a node decides which pattern it can have. -/
theorem Role.pattern_eq_of_token? {n : Node} {role role' : Role} {token token' : String}
    (h : role.token? n = some token) (h' : role'.token? n = some token') :
    role.pattern = role'.pattern := by
  have hk := kind_of_token? h
  have hk' := kind_of_token? h'
  cases role <;> cases role' <;> simp_all [pattern]

theorem Registry.take?_eq_none {n : Node} (h : n.kind ≠ .callExpression) (r : Registry) :
    r.take? ns n = none := by
  simp [Registry.take?, Pattern.token?_eq_none ns h]

theorem Registry.tokenIn?_eq_some {r : Registry} {n : Node} {token : String}
    (h : r.tokenIn? n = some token) :
    ∃ p, r.get? token = some p ∧ p.role.token? n = some token := by
  obtain ⟨role, -, hrole⟩ := List.exists_of_findSome?_eq_some h
  simp only [Option.bind_eq_bind, Option.bind_eq_some_iff] at hrole
  obtain ⟨t, ht, p, hp, hif⟩ := hrole
  split at hif
  · next hr =>
    obtain rfl : t = token := by simpa using hif
    exact ⟨p, hp, by rw [hr]; exact ht⟩
  · simp at hif

theorem Registry.tokenIn?_eq_none {r : Registry} {n : Node} (h : r.tokenIn? n = none)
    {token : String} {p : Placeholder} (hp : r.get? token = some p) :
    p.role.token? n ≠ some token := by
  intro ht
  have hmem : p.role ∈ Role.all := by cases p.role <;> decide
  have := List.findSome?_eq_none_iff.mp h p.role hmem
  simp [ht, hp] at this

theorem Role.exists_pattern_eq (pattern : Pattern) : ∃ role : Role, role.pattern = pattern := by
  cases pattern with
  | stringLiteral => exact ⟨.stringLiteral, rfl⟩
  | identifier => exact ⟨.identifier, rfl⟩
  | blockOfIdentifier => exact ⟨.block, rfl⟩
  | returnOfIdentifier => exact ⟨.returnStatement, rfl⟩

theorem Registry.take?_builderCall_of_some {n : Node} (h : n.Conforms) {r : Registry}
    {token : String} {p : Placeholder} (hp : r.get? token = some p)
    (ht : p.role.token? n = some token) :
    r.take? ns (n.builderCall ns) = some (p.payload, r.erase token) := by
  have hself : p.role.pattern.token? ns (n.builderCall ns) = some token := by
    rw [Pattern.token?_builderCall ns h, ht]
  -- No other pattern can match, so the order in which they are tried does not matter.
  have hother : ∀ pattern, pattern ≠ p.role.pattern →
      pattern.token? ns (n.builderCall ns) = none := by
    intro pattern hne
    obtain ⟨role, rfl⟩ := Role.exists_pattern_eq pattern
    rw [Pattern.token?_builderCall ns h, Option.eq_none_iff_forall_ne_some]
    exact fun t hr => hne (Role.pattern_eq_of_token? hr ht)
  simp only [Registry.take?, Pattern.all, List.findSome?_cons, List.findSome?_nil]
  cases hpat : p.role.pattern <;> rw [hpat] at hself hother <;>
    simp [hself, hother, hp, hpat]

theorem Registry.take?_builderCall_of_none {n : Node} (h : n.Conforms) {r : Registry}
    (ht : r.tokenIn? n = none) : r.take? ns (n.builderCall ns) = none := by
  rw [Registry.take?, List.findSome?_eq_none_iff]
  intro pattern _
  obtain ⟨role, rfl⟩ := Role.exists_pattern_eq pattern
  rw [Pattern.token?_builderCall ns h]
  cases hrole : role.token? n with
  | none => rfl
  | some token =>
    cases hp : r.get? token with
    | none => simp [hp]
    | some p =>
      have hne : p.role.pattern ≠ role.pattern := by
        intro he
        have hself : p.role.token? n = some token := by
          rw [← Pattern.token?_builderCall ns h, he, Pattern.token?_builderCall ns h, hrole]
        exact Registry.tokenIn?_eq_none ht hp hself
      simp [hp, hne]

/-- What a registry promises for the values of its tokens: each payload builds the value. -/
def Registry.Builds (v : String → Node) (r : Registry) : Prop :=
  ∀ token p, r.get? token = some p →
    (v token).Conforms ∧ p.payload = (v token).builderCall ns

theorem Registry.Builds.erase {v : String → Node} {r : Registry} (h : r.Builds ns v)
    (token : String) : (r.erase token).Builds ns v := by
  intro token' p hp
  rw [Registry.get?_erase] at hp
  split at hp
  · simp at hp
  · exact h token' p hp

theorem Node.splice_plain {kind : Kind} (hk : kind ≠ .callExpression) (fields : List Field)
    (r : Registry) : (Node.plain kind fields).splice ns r =
      (.plain kind (Field.spliceList ns fields r).1, (Field.spliceList ns fields r).2) := by
  have hn : (Node.mk kind {} fields).kind ≠ .callExpression := hk
  rw [Node.plain, Node.splice, Registry.take?_eq_none ns hn r]

theorem Node.splice_array (elements : List Node) (r : Registry) :
    (Node.array elements).splice ns r =
      (.array (Node.spliceList ns elements r).1, (Node.spliceList ns elements r).2) := by
  rw [Node.array, Node.splice_plain ns (by decide)]
  rfl

theorem Node.splice_identifier (text : String) (r : Registry) :
    (Node.identifier text).splice ns r = (.identifier text, r) := by
  rw [Node.identifier, Node.splice_plain ns (by decide)]
  rfl

theorem Node.splice_stringLiteral (text : String) (r : Registry) :
    (Node.stringLiteral text).splice ns r = (.stringLiteral text, r) := by
  rw [Node.stringLiteral, Node.splice_plain ns (by decide)]
  rfl

theorem Node.splice_boolean (value : Bool) (r : Registry) :
    (Node.boolean value).splice ns r = (.boolean value, r) := by
  cases value <;> rw [Node.boolean, Node.splice_plain ns (by decide)] <;> rfl

theorem Node.splice_factoryCall {kind : Kind} {arguments : List Node} {r : Registry}
    (h : r.take? ns (.factoryCall ns kind arguments) = none) :
    (Node.factoryCall ns kind arguments).splice ns r =
      (.factoryCall ns kind (Node.spliceList ns arguments r).1,
        (Node.spliceList ns arguments r).2) := by
  have hc : (Node.propertyAccess (.identifier ns) kind.factoryName).splice ns r =
      (.propertyAccess (.identifier ns) kind.factoryName, r) := by
    rw [Node.propertyAccess, Node.splice_plain ns (by decide)]
    simp only [Field.spliceList, Node.splice_identifier]
  rw [Node.factoryCall, Node.call, Node.plain] at h ⊢
  rw [Node.splice, h]
  simp only [Field.spliceList, Node.spliceList, hc]
  rfl

mutual

/-- Splicing the call that builds a fragment gives the call that builds the fragment with its
tokens replaced, and leaves the same tokens. -/
theorem Node.splice_builderCall (v : String → Node) (n : Node) (r : Registry) (hn : n.Conforms)
    (hr : r.Builds ns v) :
    (n.builderCall ns).splice ns r =
        ((n.substitute v r).1.builderCall ns, (n.substitute v r).2) ∧
      (n.substitute v r).1.Conforms ∧ (n.substitute v r).2.Builds ns v := by
  match n with
  | .mk kind mark fields =>
    rw [Node.substitute]
    cases ht : r.tokenIn? (.mk kind mark fields) with
    | some token =>
      obtain ⟨p, hp, hrole⟩ := Registry.tokenIn?_eq_some ht
      obtain ⟨hv, hpayload⟩ := hr token p hp
      have htake := Registry.take?_builderCall_of_some ns hn hp hrole
      refine ⟨?_, hv, hr.erase ns token⟩
      rw [Node.builderCall, Node.factoryCall, Node.call, Node.plain] at htake ⊢
      rw [Node.splice, htake, hpayload]
    | none =>
      obtain ⟨hk, hf⟩ := (Node.conforms_mk_iff kind mark fields).mp hn
      obtain ⟨hs, hc, hform, hb⟩ := Field.spliceList_builderArguments v fields r hf hr
      have htake := Registry.take?_builderCall_of_none ns hn ht
      refine ⟨?_, ?_, hb⟩
      · rw [Node.builderCall] at htake ⊢
        rw [Node.splice_factoryCall ns htake, hs, Node.builderCall]
      · rw [Node.conforms_mk_iff, checkFields_congr kind hform]
        exact ⟨hk, hc⟩

theorem Field.spliceList_builderArguments (v : String → Node) (fields : List Field) (r : Registry)
    (hf : ∀ f ∈ fields, ∀ c ∈ f.nodes, c.Conforms) (hr : r.Builds ns v) :
    Node.spliceList ns (Field.builderArguments ns fields) r =
        (Field.builderArguments ns (Field.substituteList v fields r).1,
          (Field.substituteList v fields r).2) ∧
      (∀ f ∈ (Field.substituteList v fields r).1, ∀ c ∈ f.nodes, c.Conforms) ∧
      (Field.substituteList v fields r).1.map Field.form = fields.map Field.form ∧
      (Field.substituteList v fields r).2.Builds ns v := by
  match fields with
  | [] => exact ⟨rfl, by simp [Field.substituteList], rfl, hr⟩
  | .node n :: rest =>
    obtain ⟨hs, hc, hb⟩ := Node.splice_builderCall v n r
      (hf (.node n) (by simp) n (by simp)) hr
    obtain ⟨hs', hc', hform, hb'⟩ := Field.spliceList_builderArguments v rest
      (n.substitute v r).2 (fun f hm => hf f (by simp [hm])) hb
    simp only [Field.builderArguments, Field.substituteList, Node.spliceList, hs, hs']
    refine ⟨trivial, ?_, by simp [hform], hb'⟩
    simpa [hc] using hc'
  | .list ms :: rest =>
    obtain ⟨hs, hc, hb⟩ := Node.spliceList_builderCalls v ms r (hf (.list ms) (by simp)) hr
    obtain ⟨hs', hc', hform, hb'⟩ := Field.spliceList_builderArguments v rest
      (Node.substituteList v ms r).2 (fun f hm => hf f (by simp [hm])) hb
    simp only [Field.builderArguments, Field.substituteList, Node.spliceList, Node.splice_array,
      hs, hs']
    refine ⟨trivial, ?_, by simp [hform], hb'⟩
    intro f hm
    rcases List.mem_cons.mp hm with rfl | hm
    · exact hc
    · exact hc' f hm
  | .text _ :: rest | .flag _ :: rest | .absent :: rest =>
    obtain ⟨hs, hc, hform, hb⟩ := Field.spliceList_builderArguments v rest r
      (fun f hm => hf f (by simp [hm])) hr
    simp only [Field.builderArguments, Field.substituteList, Node.spliceList, Node.undefined,
      Node.splice_stringLiteral, Node.splice_boolean, Node.splice_identifier, hs]
    refine ⟨trivial, ?_, by simp [hform], hb⟩
    simpa using hc

theorem Node.spliceList_builderCalls (v : String → Node) (ms : List Node) (r : Registry)
    (hm : ∀ m ∈ ms, m.Conforms) (hr : r.Builds ns v) :
    Node.spliceList ns (Node.builderCalls ns ms) r =
        (Node.builderCalls ns (Node.substituteList v ms r).1, (Node.substituteList v ms r).2) ∧
      (∀ m ∈ (Node.substituteList v ms r).1, m.Conforms) ∧
      (Node.substituteList v ms r).2.Builds ns v := by
  match ms with
  | [] => exact ⟨rfl, by simp [Node.substituteList], hr⟩
  | m :: rest =>
    obtain ⟨hs, hc, hb⟩ := Node.splice_builderCall v m r (hm m (by simp)) hr
    obtain ⟨hs', hc', hb'⟩ := Node.spliceList_builderCalls v rest (m.substitute v r).2
      (fun k hk => hm k (by simp [hk])) hb
    simp only [Node.builderCalls, Node.substituteList, Node.spliceList, hs, hs']
    exact ⟨trivial, List.forall_mem_cons.mpr ⟨hc, hc'⟩, hb'⟩

end

/-- Splicing commutes with rebuilding: what the spliced call of a fragment builds is the fragment
with the values of the tokens put directly in the place of the nodes that carry them. -/
theorem Node.evaluate_splice (ns : String) (fragment : Node) (r : Registry) (v : String → Node)
    (hfragment : fragment.Conforms)
    (hr : ∀ token p, r.get? token = some p →
      (v token).Conforms ∧ p.payload = (v token).builderCall ns) :
    ∃ m, ((fragment.builderCall ns).splice ns r).1.evaluate ns = .ok m ∧
      m.same (fragment.substitute v r).1 = true := by
  obtain ⟨hs, hc, -⟩ := Node.splice_builderCall ns v fragment r hfragment hr
  refine ⟨(fragment.substitute v r).1.bare, ?_, Node.same_bare _⟩
  rw [hs]
  exact Node.evaluate_builderCall ns _ hc

/-- A token that is met twice, one whose value is a node that carries it again, and one that stands
in another shape than its own. -/
theorem Node.evaluate_splice_block :
    let v : String → Node
      | "a" => .call (.identifier "a") []
      | "b" => .returnStatement none
      | _ => .stringLiteral "x"
    let r : Registry :=
      ⟨[("a", ⟨(v "a").builderCall "ts", .expression, none⟩),
        ("b", ⟨(v "b").builderCall "ts", .returnStatement, none⟩),
        ("c", ⟨(v "c").builderCall "ts", .stringLiteral, none⟩)]⟩
    let fragment := Node.block [.returnStatement (some (.identifier "b")),
      .returnStatement (some (.identifier "a")),
      .returnStatement (some (.call (.identifier "a") [.identifier "c", .stringLiteral "c"]))]
    fragment.Conforms ∧
    (∀ token p, r.get? token = some p →
      (v token).Conforms ∧ p.payload = (v token).builderCall "ts") ∧
    ∃ m, ((fragment.builderCall "ts").splice "ts" r).1.evaluate "ts" = .ok m ∧
      m.same (fragment.substitute v r).1 = true := by
  intro v r fragment
  have hf : fragment.Conforms := by decide +kernel
  have hr : ∀ token p, r.get? token = some p →
      (v token).Conforms ∧ p.payload = (v token).builderCall "ts" := by
    intro token p hp
    have hm := Registry.mem_entries_of_get? hp
    simp only [r, List.mem_cons, Prod.mk.injEq, List.not_mem_nil, or_false] at hm
    rcases hm with ⟨rfl, rfl⟩ | ⟨rfl, rfl⟩ | ⟨rfl, rfl⟩ <;>
      exact ⟨by decide +kernel, rfl⟩
  exact ⟨hf, hr, Node.evaluate_splice "ts" fragment r v hf hr⟩

end Quasiquote
