import Quasiquote.Proofs.Bindings
import Quasiquote.Proofs.Removal

namespace Quasiquote

namespace Node

def branchReturn (s : Node) (branch : Label) : Option Node :=
  (s.child? branch).bind fun b =>
    if b.kind = .returnStatement then b.child? .expression else b.firstReturn

def statementReturn (s : Node) : Option (Option Node) :=
  match s.kind with
  | .returnStatement => some (s.child? .expression)
  | .block => s.firstReturn.map some
  | .ifStatement => ([Label.thenStatement, .elseStatement].findSome? s.branchReturn).map some
  | _ => none

theorem statementReturn_of_kind {s : Node} (hr : s.kind ≠ .returnStatement) (hb : s.kind ≠ .block)
    (hi : s.kind ≠ .ifStatement) : s.statementReturn = none := by
  unfold statementReturn
  split <;> first | rfl | contradiction

theorem firstReturn_eq (body : Node) :
    body.firstReturn = ((body.list .statements).findSome? statementReturn).join := by
  have hbranch : ∀ (s : Node) (branch : Label), ((s.smaller? branch).bind fun b =>
      if b.1.kind = .returnStatement then b.1.child? .expression else b.1.firstReturn) =
        s.branchReturn branch := by
    intro s branch
    unfold branchReturn
    cases h : s.child? branch with
    | none => rw [smaller?_of_none h]; rfl
    | some b => rw [smaller?_of_some h]; rfl
  have hlist : body.list .statements = (body.smallerList .statements).map Subtype.val :=
    ((map_smallerList body .statements id).trans (List.map_id _)).symm
  rw [firstReturn, hlist, List.findSome?_map]
  congr 2
  funext s
  rewrite [Function.comp_apply, statementReturn, ← funext (hbranch s)]
  rfl

end Node

theorem Kind.holdsStatements_eq_false {k : Kind} (hfile : k ≠ .sourceFile)
    (hf : k.isFunctionLike = false) (hb : k ≠ .block) (hi : k ≠ .ifStatement) :
    k.holdsStatements = false := by
  cases k <;> first | rfl | contradiction

theorem Kind.ne_of_isStatement {k : Kind} (hs : k.isStatement = false) :
    k ≠ .returnStatement ∧ k ≠ .block ∧ k ≠ .ifStatement := by
  refine ⟨?_, ?_, ?_⟩ <;> rintro rfl <;> cases hs

theorem Kind.fieldIndex?_statements {k : Kind} (hb : k ≠ .block) (hf : k ≠ .sourceFile) :
    k.fieldIndex? .statements = none := by
  cases k <;> first | rfl | exact absurd rfl hb | exact absurd rfl hf

namespace Node

/-- A file stands in nothing, statements stand only in what holds statements, and they are no
conditions. -/
structure WellPlaced (n : Node) : Prop where
  file : ∀ c ∈ n.children, c.kind ≠ .sourceFile
  statement : ∀ c ∈ n.children, c.kind.isStatement = true → n.kind.holdsStatements = true
  condition : ∀ c, n.kind = .ifStatement → n.child? .expression = some c →
    c.kind.isStatement = false

def AllWellPlaced (n : Node) : Prop :=
  ∀ m ∈ n.preorder, m.WellPlaced

variable {n c : Node}

theorem WellPlaced.isStatement_of_mem_children (h : n.WellPlaced)
    (hn : n.kind.holdsStatements = false) (hc : c ∈ n.children) : c.kind.isStatement = false := by
  rw [Bool.eq_false_iff]
  intro hs
  rw [h.statement c hc hs] at hn
  cases hn

theorem allWellPlaced_iff (n : Node) :
    n.AllWellPlaced ↔ n.WellPlaced ∧ ∀ c ∈ n.children, c.AllWellPlaced := by
  unfold AllWellPlaced
  rw [preorder_eq, List.forall_mem_cons, List.forall_mem_flatMap]

theorem AllWellPlaced.wellPlaced (h : n.AllWellPlaced) : n.WellPlaced :=
  ((allWellPlaced_iff n).mp h).1

theorem AllWellPlaced.of_mem_preorder {m : Node} (h : n.AllWellPlaced) (hm : m ∈ n.preorder) :
    m.AllWellPlaced :=
  fun x hx => h x ((preorder_sublist_of_mem_preorder hm).subset hx)

theorem AllWellPlaced.of_mem_children (h : n.AllWellPlaced) (hc : c ∈ n.children) :
    c.AllWellPlaced :=
  ((allWellPlaced_iff n).mp h).2 c hc

/-- A node can stand where statements may or may not be, and so can every node below it. -/
structure Stands (statements : Bool) (n : Node) : Prop where
  placed : n.AllWellPlaced
  file : n.kind ≠ .sourceFile
  statement : n.kind.isStatement = true → statements = true

theorem Stands.mono {b b' : Bool} (h : n.Stands b) (hb : b = true → b' = true) : n.Stands b' :=
  ⟨h.placed, h.file, fun hs => hb (h.statement hs)⟩

theorem stands_over {statements : Bool} {kind : Kind} {ts : List Token} {fields : List Field}
    (hfile : kind ≠ .sourceFile) (hs : kind.isStatement = true → statements = true)
    (hcondition : ∀ c, kind = .ifStatement →
      (Node.over kind ts fields).child? .expression = some c → c.kind.isStatement = false)
    (h : ∀ c ∈ fields.flatMap Field.nodes, c.Stands kind.holdsStatements) :
    (Node.over kind ts fields).Stands statements := by
  refine ⟨?_, hfile, hs⟩
  rw [allWellPlaced_iff]
  exact ⟨⟨fun c hc => (h c hc).file, fun c hc => (h c hc).statement, hcondition⟩,
    fun c hc => (h c hc).placed⟩

end Node

theorem Grammar.isStatement_of_keywordLiteral? {word : String} {kind : Kind}
    (h : Grammar.keywordLiteral? word = some kind) :
    kind.isStatement = false ∧ kind ≠ .sourceFile := by
  unfold Grammar.keywordLiteral? at h
  split at h <;> cases h <;> exact ⟨rfl, nofun⟩

theorem Makes.yieldsStatements {D : Phrase → List Token → List Node → Prop} {p : Phrase}
    {ts : List Token} {kind : Kind} {fields : List Field} (h : Makes D p ts kind fields) :
    kind ≠ .sourceFile ∧ (kind.isStatement = true → p.yieldsStatements = true) := by
  cases h with
  | keywordLiteral _ hk =>
    obtain ⟨hs, hfile⟩ := Grammar.isStatement_of_keywordLiteral? hk
    exact ⟨hfile, by simp [hs]⟩
  | _ => exact ⟨nofun, by decide⟩

theorem Makes.stands {p : Phrase} {ts : List Token} {kind : Kind} {fields : List Field}
    (h : Makes (fun q _ ns => ∀ n ∈ ns, n.Stands q.yieldsStatements) p ts kind fields) :
    (Node.over kind ts fields).Stands p.yieldsStatements := by
  obtain ⟨hfile, hs⟩ := h.yieldsStatements
  have hQ : Token.Composes fun _ ns => ∀ n ∈ ns, n.Stands kind.holdsStatements :=
    ⟨by simp, fun h h' => List.forall_mem_append.mpr ⟨h, h'⟩⟩
  refine Node.stands_over hfile hs (fun c hk hc => ?_)
    ((h.within.imp fun hq n hn => (hq.2 n hn).mono hq.1.body).compose hQ)
  cases h with
  | ifStatement _ _ hcondition =>
    cases hc
    have hstatement := (List.forall_mem_singleton.mp hcondition).statement
    simpa [Phrase.yieldsStatements] using hstatement
  | keywordLiteral _ hl =>
    subst hk
    cases Grammar.schema_of_keywordLiteral? hl
  | _ => cases hk

theorem Derives.stands {p : Phrase} {ts : List Token} {ns : List Node} (h : Derives p ts ns) :
    ∀ n ∈ ns, n.Stands p.yieldsStatements := by
  induction h with
  | absent | nil | noStatement => simp
  | present _ ih | announced _ _ ih | single _ ih | enclosed _ _ _ ih
  | entity _ ih | parenthesizedType _ _ _ ih | barredType _ _ ih | element _ ih | callee _ _ _ ih
  | blockStatement _ ih => exact ih
  | snoc _ _ _ ihs ih | nextStatement _ _ _ ihs ih | joined _ _ _ ihs ih =>
    exact List.forall_mem_append.mpr ⟨ihs, ih⟩
  | property hp _ ih => rcases hp with rfl | rfl | rfl <;> exact ih
  | operand hp _ ih => rcases hp with rfl | rfl | rfl | rfl <;> exact ih
  | body _ _ ih => exact fun n hn => (ih n hn).mono fun _ => rfl
  | made h _ ih => exact List.forall_mem_singleton.mpr (h.imp ih).stands

theorem parse_allWellPlaced {source : String} {tree : Node} (h : parse source = .ok tree) :
    tree.AllWellPlaced := by
  obtain ⟨tokens, c, -, hdone⟩ := parse_eq_ok h
  obtain ⟨ts, statements, mark, -, -, hd, -, rfl⟩ := moduleOfTokens_done hdone
  have hs : ∀ s ∈ (Node.mk .sourceFile mark [.list statements]).children, s.Stands true :=
    fun s hs => hd.stands s (by simpa [Node.children, Node.fields] using hs)
  rw [Node.allWellPlaced_iff]
  refine ⟨⟨fun s h => (hs s h).file, fun _ _ _ => rfl, ?_⟩, fun s h => (hs s h).placed⟩
  rintro _ ⟨⟩

namespace Node

/-- The nodes of a subtree in pre-order, without those that are cut off from the node above them and
what stands below those. -/
def outside (cut : Node → Node → Bool) (n : Node) : List Node :=
  n :: n.children.attach.flatMap fun ⟨c, _⟩ => if cut n c then [] else c.outside cut
termination_by sizeOf n
decreasing_by exact sizeOf_lt_of_mem_children ‹_›

def isNested (_ c : Node) : Bool :=
  c.kind.isFunctionLike

def isChained (n c : Node) : Bool :=
  n.kind = .ifStatement && c.kind = .ifStatement

def isPassedOver (n c : Node) : Bool :=
  isNested n c || isChained n c

def returnsOutside (cut : Node → Node → Bool) (n : Node) : List Node :=
  (n.outside cut).filter fun m => m.kind = .returnStatement

def ownReturns : Node → List Node :=
  returnsOutside isNested

/-- The returns that stand in no nested function and in no condition that is the branch of one. -/
def plainReturns : Node → List Node :=
  returnsOutside isPassedOver

open scoped List

variable {n c : Node} {cut cut' : Node → Node → Bool}

theorem outside_eq (cut : Node → Node → Bool) (n : Node) : n.outside cut =
    n :: n.children.flatMap fun c => if cut n c then [] else c.outside cut := by
  rw [outside]
  simp only [List.flatMap_subtype, List.unattach_attach]

theorem self_mem_outside (cut : Node → Node → Bool) (n : Node) : n ∈ n.outside cut := by
  rw [outside_eq]
  exact List.mem_cons_self

theorem mem_outside_of_mem_children {m : Node} (hc : c ∈ n.children) (hcut : cut n c = false)
    (hm : m ∈ c.outside cut) : m ∈ n.outside cut := by
  rw [outside_eq]
  exact List.mem_cons_of_mem _ (List.mem_flatMap.mpr ⟨c, hc, by simpa [hcut] using hm⟩)

theorem outside_sublist (h : ∀ n c, cut n c = true → cut' n c = true) (n : Node) :
    n.outside cut' <+ n.outside cut := by
  induction n using inductionOnChildren with
  | h n ih =>
    rw [outside_eq, outside_eq]
    refine (List.Sublist.flatMap_right _ fun c hc => ?_).cons_cons n
    by_cases hcut' : cut' n c = true
    · rw [if_pos hcut']
      exact List.nil_sublist _
    · rw [if_neg hcut', if_neg fun hcut => hcut' (h n c hcut)]
      exact ih c hc

theorem outside_congr (h : ∀ m ∈ n.outside cut, ∀ c ∈ m.children, cut m c = cut' m c) :
    n.outside cut = n.outside cut' := by
  induction n using inductionOnChildren with
  | h n ih =>
    rw [outside_eq, outside_eq]
    refine congrArg (n :: ·) (List.flatMap_congr fun c hc => ?_)
    rw [← h n (n.self_mem_outside cut) c hc]
    by_cases hcut : cut n c = true
    · rw [if_pos hcut, if_pos hcut]
    · rw [if_neg hcut, if_neg hcut]
      exact ih c hc fun m hm =>
        h m (mem_outside_of_mem_children hc (Bool.eq_false_iff.mpr hcut) hm)

theorem returnsOutside_eq (cut : Node → Node → Bool) (n : Node) : n.returnsOutside cut =
    (if n.kind = .returnStatement then [n] else []) ++
      n.children.flatMap fun c => if cut n c then [] else c.returnsOutside cut := by
  have hchildren : (n.children.flatMap fun c => if cut n c then [] else c.outside cut).filter
      (fun m => m.kind = .returnStatement) =
        n.children.flatMap fun c => if cut n c then [] else c.returnsOutside cut := by
    rw [List.filter_flatMap]
    exact List.flatMap_congr fun c _ => by split <;> rfl
  unfold returnsOutside at hchildren ⊢
  rw [outside_eq, List.filter_cons, hchildren]
  by_cases hk : n.kind = .returnStatement <;> simp [hk]

def plainReturn (n : Node) : Option Node :=
  n.plainReturns.findSome? (child? · .expression)

/-- What the first of the plain returns of a node returns, unless the node is passed over. -/
def plainReturnIn (n c : Node) : Option Node :=
  if isPassedOver n c then none else c.plainReturn

theorem isPassedOver_eq_false_iff : isPassedOver n c = false ↔
    c.kind.isFunctionLike = false ∧ (n.kind = .ifStatement → c.kind ≠ .ifStatement) := by
  simp [isPassedOver, isNested, isChained]

theorem plainReturnIn_of_isPassedOver (h : isPassedOver n c = false) :
    n.plainReturnIn c = c.plainReturn := by
  rw [plainReturnIn, h, if_neg Bool.false_ne_true]

theorem findSome?_flatMap {α β γ : Type} (xs : List α) (f : α → List β) (g : β → Option γ) :
    (xs.flatMap f).findSome? g = xs.findSome? fun x => (f x).findSome? g := by
  induction xs with
  | nil => rfl
  | cons x xs ih =>
    rw [List.flatMap_cons, List.findSome?_append, List.findSome?_cons, ih]
    cases (f x).findSome? g <;> rfl

theorem plainReturn_eq (hk : n.kind ≠ .returnStatement) :
    n.plainReturn = n.children.findSome? n.plainReturnIn := by
  unfold plainReturn plainReturns
  rw [returnsOutside_eq, if_neg hk, List.nil_append, findSome?_flatMap]
  congr 1
  funext c
  rw [plainReturnIn]
  split <;> rfl

theorem plainReturns_of_children
    (h : ∀ c ∈ n.children, isPassedOver n c = false → c.plainReturns = []) :
    n.plainReturns = if n.kind = .returnStatement then [n] else [] := by
  rw [plainReturns, returnsOutside_eq, List.append_right_eq_self, List.flatMap_eq_nil_iff]
  intro c hc
  split
  · rfl
  · next hcut => exact h c hc (Bool.eq_false_iff.mpr hcut)

theorem plainReturns_of_isStatement (hp : n.AllWellPlaced) (hfile : n.kind ≠ .sourceFile)
    (hs : n.kind.isStatement = false) (hf : n.kind.isFunctionLike = false) :
    n.plainReturns = [] := by
  induction n using inductionOnChildren with
  | h n ih =>
    obtain ⟨hr, hb, hi⟩ := Kind.ne_of_isStatement hs
    have hholds := Kind.holdsStatements_eq_false hfile hf hb hi
    have hchildren : ∀ c ∈ n.children, isPassedOver n c = false → c.plainReturns = [] :=
      fun c hc hcut => ih c hc (hp.of_mem_children hc) (hp.wellPlaced.file c hc)
        (hp.wellPlaced.isStatement_of_mem_children hholds hc) (isPassedOver_eq_false_iff.mp hcut).1
    rw [plainReturns_of_children hchildren, if_neg hr]

theorem plainReturnIn_of_isStatement (hp : n.AllWellPlaced) (hc : c ∈ n.children)
    (hs : c.kind.isStatement = false) : n.plainReturnIn c = none := by
  cases hcut : isPassedOver n c with
  | true => rw [plainReturnIn, if_pos hcut]
  | false =>
    rw [plainReturnIn_of_isPassedOver hcut, plainReturn, plainReturns_of_isStatement
      (hp.of_mem_children hc) (hp.wellPlaced.file c hc) hs (isPassedOver_eq_false_iff.mp hcut).1]
    rfl

/-- A node that holds no statements returns only as a return itself. -/
theorem plainReturns_of_holdsStatements (hp : n.AllWellPlaced)
    (hn : n.kind.holdsStatements = false) :
    n.plainReturns = if n.kind = .returnStatement then [n] else [] :=
  plainReturns_of_children fun c hc hcut =>
    plainReturns_of_isStatement (hp.of_mem_children hc) (hp.wellPlaced.file c hc)
      (hp.wellPlaced.isStatement_of_mem_children hn hc) (isPassedOver_eq_false_iff.mp hcut).1

theorem plainReturn_returnStatement (hp : n.AllWellPlaced) (hk : n.kind = .returnStatement) :
    n.plainReturn = n.child? .expression := by
  rw [plainReturn, plainReturns_of_holdsStatements hp (by rw [hk]; rfl), if_pos hk,
    List.findSome?_singleton]

theorem firstReturn_of_kind (hb : n.kind ≠ .block) (hf : n.kind ≠ .sourceFile) :
    n.firstReturn = none := by
  have hlist : n.list .statements = [] := by
    rw [list, field?, Kind.fieldIndex?_statements hb hf]
    rfl
  rw [firstReturn_eq, hlist]
  rfl

theorem Conforms.children_ifStatement (h : n.Conforms) (hk : n.kind = .ifStatement) :
    ∃ condition, n.child? .expression = some condition ∧ n.children =
      condition :: ((n.child? .thenStatement).toList ++ (n.child? .elseStatement).toList) := by
  obtain ⟨mark, fields, rfl, hf⟩ := h.eq_mk hk
  simp only [Kind.schema, List.forall₂_cons_left_iff, List.forall₂_nil_left_iff,
    Field.fits_node_iff, Field.fits_optional_iff] at hf
  obtain ⟨_, _, ⟨condition, rfl⟩, ⟨_, _, ⟨consequence, rfl⟩, ⟨_, _, ⟨alternative, rfl⟩, rfl, rfl⟩,
    rfl⟩, rfl⟩ := hf
  exact ⟨condition, rfl, by cases alternative <;> rfl⟩

theorem firstReturn_of_statements (hc : n.Conforms) (hk : n.kind = .block)
    (h : ∀ s ∈ n.children, s.kind.isFunctionLike = false →
      s.statementReturn = s.plainReturn.map some) : n.firstReturn = n.plainReturn := by
  have hstatement : ∀ s ∈ n.children, s.statementReturn = (n.plainReturnIn s).map some := by
    intro s hs
    cases hf : s.kind.isFunctionLike with
    | true =>
      rw [plainReturnIn, if_pos (by simp [isPassedOver, isNested, hf])]
      apply statementReturn_of_kind <;> intro hkind <;> rw [hkind] at hf <;> cases hf
    | false =>
      rw [h s hs hf, plainReturnIn_of_isPassedOver
        (isPassedOver_eq_false_iff.mpr ⟨hf, by simp [hk]⟩)]
  have hlist : n.list .statements = n.children := by
    obtain ⟨mark, statements, rfl⟩ := hc.eq_block hk
    exact (List.append_nil _).symm
  calc n.firstReturn
    _ = (n.children.findSome? statementReturn).join := by rw [firstReturn_eq, hlist]
    _ = (n.children.findSome? (Option.map some ∘ n.plainReturnIn)).join := by
      rw [← List.head?_filterMap, List.filterMap_congr hstatement, List.head?_filterMap]
      rfl
    _ = n.children.findSome? n.plainReturnIn := by
      rw [← List.map_findSome?]
      cases n.children.findSome? n.plainReturnIn <;> rfl
    _ = n.plainReturn := (plainReturn_eq (by simp [hk])).symm

/-- The search takes a branch that is a return for what it is, and everything else for a body. -/
theorem branch_eq (hp : n.AllWellPlaced) (hc : c ∈ n.children) (hk : n.kind = .ifStatement)
    (h : c.kind = .block → c.firstReturn = c.plainReturn) :
    (if c.kind = .returnStatement then c.child? .expression else c.firstReturn) =
      n.plainReturnIn c := by
  have hfile := hp.wellPlaced.file c hc
  cases hcut : isPassedOver n c with
  | true =>
    -- neither a function nor a condition has a list of statements of its own
    have hkind : c.kind.isFunctionLike = true ∨ c.kind = .ifStatement := by
      simpa [isPassedOver, isNested, isChained, hk] using hcut
    have hr : c.kind ≠ .returnStatement := fun hr => by simp [hr, Kind.isFunctionLike] at hkind
    have hb : c.kind ≠ .block := fun hb => by simp [hb, Kind.isFunctionLike] at hkind
    rw [if_neg hr, firstReturn_of_kind hb hfile, plainReturnIn, if_pos hcut]
  | false =>
    rw [plainReturnIn_of_isPassedOver hcut]
    obtain ⟨hf, hi⟩ := isPassedOver_eq_false_iff.mp hcut
    by_cases hr : c.kind = .returnStatement
    · rw [if_pos hr, plainReturn_returnStatement (hp.of_mem_children hc) hr]
    · rw [if_neg hr]
      by_cases hb : c.kind = .block
      · exact h hb
      · have hholds := Kind.holdsStatements_eq_false hfile hf hb (hi hk)
        rw [firstReturn_of_kind hb hfile, plainReturn,
          plainReturns_of_holdsStatements (hp.of_mem_children hc) hholds, if_neg hr]
        rfl

theorem statementReturn_of_branches (hc : n.Conforms) (hp : n.AllWellPlaced)
    (hk : n.kind = .ifStatement)
    (h : ∀ b ∈ n.children, b.kind = .block → b.firstReturn = b.plainReturn) :
    n.statementReturn = n.plainReturn.map some := by
  have hbranch : n.branchReturn = fun l => (n.child? l).bind n.plainReturnIn := by
    funext l
    unfold branchReturn
    cases hb : n.child? l with
    | none => rfl
    | some b => exact branch_eq hp (mem_children_of_child? hb) hk (h b (mem_children_of_child? hb))
  have hbranches : ∀ o : Option Node,
      o.toList.findSome? n.plainReturnIn = o.bind n.plainReturnIn := by
    rintro (_ | b)
    · rfl
    · exact List.findSome?_singleton
  obtain ⟨condition, hcondition, hchildren⟩ := hc.children_ifStatement hk
  have hnone : n.plainReturnIn condition = none :=
    plainReturnIn_of_isStatement hp (mem_children_of_child? hcondition)
      (hp.wellPlaced.condition condition hk hcondition)
  rw [plainReturn_eq (by simp [hk]), hchildren, List.findSome?_cons, hnone, List.findSome?_append,
    hbranches, hbranches, statementReturn, hk, hbranch]
  simp only [List.findSome?_cons, List.findSome?_nil]
  cases (n.child? .thenStatement).bind n.plainReturnIn <;>
    cases (n.child? .elseStatement).bind n.plainReturnIn <;> rfl

theorem mem_plainReturns_of_mem_children {r : Node} (hc : c ∈ n.children)
    (hcut : isPassedOver n c = false) (hr : r ∈ c.plainReturns) : r ∈ n.plainReturns := by
  rw [plainReturns, returnsOutside, List.mem_filter] at hr ⊢
  exact ⟨mem_outside_of_mem_children hc hcut hr.1, hr.2⟩

/-- The search finds what the first plain return returns, both in a block and for a statement. -/
theorem search_eq (hc : n.Conforms) (hp : n.AllWellPlaced) (hfile : n.kind ≠ .sourceFile)
    (hr : ∀ r ∈ n.plainReturns, (r.child? .expression).isSome = true) :
    (n.kind = .block → n.firstReturn = n.plainReturn) ∧
      (n.kind.isFunctionLike = false → n.statementReturn = n.plainReturn.map some) := by
  -- A block needs its children as statements and a condition needs them as bodies, so both go
  -- through one induction.
  induction n using inductionOnChildren with
  | h n ih =>
    have ih : ∀ c ∈ n.children, isPassedOver n c = false →
        (c.kind = .block → c.firstReturn = c.plainReturn) ∧
          (c.kind.isFunctionLike = false → c.statementReturn = c.plainReturn.map some) :=
      fun c hcn hcut => ih c hcn (hc.of_mem_children hcn) (hp.of_mem_children hcn)
        (hp.wellPlaced.file c hcn) fun r hrc => hr r (mem_plainReturns_of_mem_children hcn hcut hrc)
    have hblock : n.kind = .block → n.firstReturn = n.plainReturn := fun hk =>
      firstReturn_of_statements hc hk fun s hs hf =>
        (ih s hs (isPassedOver_eq_false_iff.mpr ⟨hf, by simp [hk]⟩)).2 hf
    refine ⟨hblock, fun hf => ?_⟩
    by_cases hb : n.kind = .block
    · rw [statementReturn, hb, ← hblock hb]
    by_cases hi : n.kind = .ifStatement
    · refine statementReturn_of_branches hc hp hi fun b hbn hkb => (ih b hbn ?_).1 hkb
      rw [isPassedOver_eq_false_iff, hkb]
      exact ⟨rfl, nofun⟩
    have hholds := Kind.holdsStatements_eq_false hfile hf hb hi
    have hreturns := plainReturns_of_holdsStatements hp hholds
    by_cases hreturn : n.kind = .returnStatement
    · rw [if_pos hreturn] at hreturns
      obtain ⟨e, he⟩ := Option.isSome_iff_exists.mp (hr n (by simp [hreturns]))
      rw [plainReturn_returnStatement hp hreturn, statementReturn, hreturn, he]
      rfl
    · rw [plainReturn, hreturns, if_neg hreturn, statementReturn_of_kind hreturn hb hi]
      rfl

theorem findSome?_eq_bind_head? {α β : Type} {xs : List α} {f : α → Option β}
    (h : ∀ x ∈ xs, (f x).isSome = true) : xs.findSome? f = xs.head?.bind f := by
  cases xs with
  | nil => rfl
  | cons x xs => exact List.findSome?_cons_of_isSome (h x List.mem_cons_self)

theorem plainReturns_sublist_ownReturns (n : Node) : n.plainReturns <+ n.ownReturns :=
  (outside_sublist (fun _ _ h => by simp [isPassedOver, h]) n).filter _

theorem plainReturns_eq_ownReturns
    (h : ∀ m ∈ n.outside isNested, ∀ c ∈ m.children, isChained m c = false) :
    n.plainReturns = n.ownReturns := by
  have houtside : n.outside isNested = n.outside isPassedOver :=
    outside_congr fun m hm c hc => by simp [isPassedOver, h m hm c hc]
  rw [plainReturns, ownReturns, returnsOutside, returnsOutside, houtside]

/-- A body returns what the first of its plain returns returns, and nothing exactly if it has none.
They are all of its own returns if no condition is itself the branch of one. A function that says no
type has the type of that expression, and is void only without one. -/
theorem firstReturn_eq_head_plainReturns {body : Node} (hk : body.kind = .block)
    (hc : body.Conforms) (hp : body.AllWellPlaced)
    (hr : ∀ r ∈ body.ownReturns, (r.child? .expression).isSome = true) :
    body.firstReturn = body.plainReturns.head?.bind (child? · .expression) ∧
    (body.firstReturn = none ↔ body.plainReturns = []) ∧
    body.plainReturns <+ body.ownReturns ∧
    ((∀ m ∈ body.outside isNested, ∀ c ∈ m.children, isChained m c = false) →
      body.plainReturns = body.ownReturns) ∧
    ∀ (typeOf : Node → Ty) (function : Node), function.child? .typeNode = none →
      function.child? .body = some body → Compilation.functionTypeWith typeOf function =
        .function ((body.plainReturns.head?.bind (child? · .expression)).elim (.primitive .void)
          typeOf) := by
  have hsublist := body.plainReturns_sublist_ownReturns
  have hr : ∀ r ∈ body.plainReturns, (r.child? .expression).isSome = true := fun r h =>
    hr r (hsublist.subset h)
  have hfirst : body.firstReturn = body.plainReturns.head?.bind (child? · .expression) := by
    rw [(search_eq hc hp (by simp [hk]) hr).1 hk, plainReturn, findSome?_eq_bind_head? hr]
  refine ⟨hfirst, ?_, hsublist, plainReturns_eq_ownReturns, fun typeOf function htype hbody => ?_⟩
  · rw [hfirst]
    cases hreturns : body.plainReturns with
    | nil => simp
    | cons r rs =>
      obtain ⟨e, he⟩ := Option.isSome_iff_exists.mp (hr r (by simp [hreturns]))
      simp [he]
  · rw [← hfirst]
    simp only [Compilation.functionTypeWith, htype, hbody, if_pos hk]
    cases body.firstReturn <;> rfl

/-- A function that returns in the branches of conditions, in blocks and without, and that has a
function inside of it. -/
theorem firstReturn_eq_head_plainReturns_branches : ∃ tree function body,
    parse
      "x => \x7b if (x) g(() => \x7b return 0; \x7d); else \x7b if (x) return 1; \x7d return 2 \x7d"
      = .ok tree ∧
    function ∈ tree.preorder ∧ function.child? .body = some body ∧ body.ownReturns.length = 2 ∧
    body.plainReturns = body.ownReturns ∧
    ∃ e, body.firstReturn = some e ∧ e.text? .text = some "1" ∧
      ∀ typeOf, Compilation.functionTypeWith typeOf function = .function (typeOf e) := by
  have hcheck : ((parse
      "x => \x7b if (x) g(() => \x7b return 0; \x7d); else \x7b if (x) return 1; \x7d return 2 \x7d"
      ).toOption.any fun tree => tree.preorder.any fun function =>
        (function.child? .typeNode).isNone && (function.child? .body).any fun body =>
          body.kind = .block && decide body.Conforms &&
          (body.ownReturns.all fun r => (r.child? .expression).isSome) &&
          body.ownReturns.length == 2 &&
          ((body.outside isNested).all fun m => m.children.all fun c => !isChained m c) &&
          body.firstReturn.any fun e => e.text? .text = some "1") = true := by decide +kernel
  obtain ⟨tree, htree, h⟩ := Compilation.exists_ok_of_any hcheck
  simp only [List.any_eq_true, Option.any_eq_true, Bool.and_eq_true, decide_eq_true_eq, beq_iff_eq,
    List.all_eq_true, Bool.not_eq_true', Option.isNone_iff_eq_none] at h
  obtain ⟨function, hfunction, htype, body, hbody, ⟨⟨⟨⟨hk, hc⟩, hr⟩, hlength⟩, hplain⟩, e, he,
    htext⟩ := h
  have hp : body.AllWellPlaced := ((parse_allWellPlaced htree).of_mem_preorder hfunction)
    |>.of_mem_children (mem_children_of_child? hbody)
  obtain ⟨hfirst, -, -, heq, hfunctionType⟩ := firstReturn_eq_head_plainReturns hk hc hp hr
  refine ⟨tree, function, body, htree, hfunction, hbody, hlength, heq hplain, e, he, htext,
    fun typeOf => ?_⟩
  rw [hfunctionType typeOf function htype hbody, ← hfirst, he]
  rfl

/-- A function whose only return stands in a condition after another's `else` is void. -/
theorem firstReturn_eq_none_of_chained : ∃ tree function body,
    parse "const f = (p) => \x7b if (p) \x7b \x7d else if (p) \x7b return 1; \x7d \x7d;\n" =
      .ok tree ∧
    function ∈ tree.preorder ∧ function.child? .body = some body ∧ body.kind = .block ∧
    (∀ r ∈ body.ownReturns, (r.child? .expression).isSome = true) ∧ body.ownReturns ≠ [] ∧
    body.firstReturn = none ∧
    ∀ typeOf, Compilation.functionTypeWith typeOf function = .function (.primitive .void) := by
  have hcheck : ((parse
      "const f = (p) => \x7b if (p) \x7b \x7d else if (p) \x7b return 1; \x7d \x7d;\n").toOption.any
      fun tree => tree.preorder.any fun function => (function.child? .typeNode).isNone &&
        (function.child? .body).any fun body => body.kind = .block &&
          (body.ownReturns.all fun r => (r.child? .expression).isSome) &&
          !body.ownReturns.isEmpty && body.firstReturn.isNone) = true := by decide +kernel
  obtain ⟨tree, htree, h⟩ := Compilation.exists_ok_of_any hcheck
  simp only [List.any_eq_true, Option.any_eq_true, Bool.and_eq_true, decide_eq_true_eq,
    List.all_eq_true, Bool.not_eq_true', List.isEmpty_eq_false_iff, Option.isNone_iff_eq_none] at h
  obtain ⟨function, hfunction, htype, body, hbody, ⟨⟨hk, hr⟩, hne⟩, hnone⟩ := h
  refine ⟨tree, function, body, htree, hfunction, hbody, hk, hr, hne, hnone, fun typeOf => ?_⟩
  simp only [Compilation.functionTypeWith, htype, hbody, if_pos hk, hnone]

end Node

end Quasiquote
