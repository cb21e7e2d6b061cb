import Mathlib.Logic.Equiv.Basic
import Quasiquote.Proofs.Renaming.Declarations
import Quasiquote.Proofs.Surroundings

namespace Quasiquote

variable {r : Renaming}

namespace Renaming

def target (r : Renaming) : Symbol :=
  .named r.scope r.old

/-- What a symbol is called after the change. The two names of the import change places. -/
def symbol (r : Renaming) : Equiv.Perm Symbol :=
  Equiv.swap r.target (.named r.scope r.new)

theorem symbol_target (r : Renaming) : r.symbol r.target = .named r.scope r.new :=
  Equiv.swap_apply_left _ _

theorem symbol_named {owner : Nat} {name : String} (h : owner = r.scope → name ≠ r.old)
    (h' : owner = r.scope → name ≠ r.new) : r.symbol (.named owner name) = .named owner name := by
  refine Equiv.swap_apply_of_ne_of_ne ?_ ?_
  · intro heq
    obtain ⟨howner, hname⟩ := Symbol.named.inj heq
    exact h howner hname
  · intro heq
    obtain ⟨howner, hname⟩ := Symbol.named.inj heq
    exact h' howner hname

theorem exists_symbol_named (r : Renaming) (owner : Nat) (name : String) :
    ∃ name', r.symbol (.named owner name) = .named owner name' := by
  by_cases htarget : Symbol.named owner name = r.target
  · refine ⟨r.new, ?_⟩
    rw [htarget, r.symbol_target, (Symbol.named.inj htarget).1]
  by_cases hnew : Symbol.named owner name = .named r.scope r.new
  · refine ⟨r.old, ?_⟩
    rw [hnew, (Symbol.named.inj hnew).1]
    exact Equiv.swap_apply_right _ _
  · exact ⟨name, Equiv.swap_apply_of_ne_of_ne htarget hnew⟩

theorem symbol_anonymous (r : Renaming) (k : Nat) : r.symbol (.anonymous k) = .anonymous k :=
  Equiv.swap_apply_of_ne_of_ne nofun nofun

/-- In a scope of a tree, the names that change are those of the symbol whose name changes, and none
is like the new one. -/
structure Governs (r : Renaming) (root : Nat) (s : Scope) : Prop where
  touches_iff : ∀ b ∈ s.bindings,
    r.touches b.nameNode = true ↔ s.owner = r.scope ∧ b.name = r.old
  name_ne : root = r.scope → ∀ b ∈ s.bindings, b.name ≠ r.new
  owner : s.owner = r.scope → root = r.scope

end Renaming

namespace Scope

variable {root : Nat} {s : Scope} {ss : List Scope} {b : Binding} {n : Node} {name : String}

def rename (r : Renaming) (s : Scope) : Scope :=
  { s with bindings := s.bindings.map (Binding.rename r) }

theorem symbol_rename (hs : r.Governs root s) (hb : b ∈ s.bindings) :
    Symbol.named s.owner (b.rename r).name = r.symbol (.named s.owner b.name) := by
  have htouches := hs.touches_iff b hb
  by_cases h : r.touches b.nameNode = true
  · obtain ⟨howner, hname⟩ := htouches.mp h
    have hnew : (b.rename r).name = r.new := if_pos h
    rw [hnew, howner, hname, ← r.symbol_target]
    rfl
  · have hsame : (b.rename r).name = b.name := if_neg h
    rw [hsame, Renaming.symbol_named]
    · exact fun howner hname => h (htouches.mpr ⟨howner, hname⟩)
    · exact fun howner => hs.name_ne (hs.owner howner) b hb

/-- A scope on the way to a name that changes does not declare the new name. -/
theorem declares_rename_new (hs : r.Governs root s) (hroot : root = r.scope)
    (hold : s.declares r.old = false) : (s.rename r).declares r.new = false := by
  rw [Bool.eq_false_iff, Ne, declares_iff]
  rintro ⟨_, hmem, hname⟩
  obtain ⟨b, hb, rfl⟩ := List.mem_map.mp hmem
  by_cases h : r.touches b.nameNode = true
  · obtain ⟨-, hold'⟩ := (hs.touches_iff b hb).mp h
    exact Bool.eq_false_iff.mp hold (declares_iff.mpr ⟨b, hb, hold'⟩)
  · exact hs.name_ne hroot b hb ((if_neg h).symm.trans hname)

/-- A scope declares a name that does not change as before. -/
theorem declares_rename (hs : r.Governs root s) (hname : s.owner = r.scope → name ≠ r.new)
    (hold : s.owner = r.scope → s.declares name = true → name ≠ r.old) :
    (s.rename r).declares name = s.declares name := by
  rw [Bool.eq_iff_iff, declares_iff, declares_iff]
  constructor
  · rintro ⟨_, hmem, hb'⟩
    obtain ⟨b, hb, rfl⟩ := List.mem_map.mp hmem
    by_cases h : r.touches b.nameNode = true
    · obtain ⟨howner, -⟩ := (hs.touches_iff b hb).mp h
      exact absurd ((if_pos h).symm.trans hb').symm (hname howner)
    · exact ⟨b, hb, (if_neg h).symm.trans hb'⟩
  · rintro ⟨b, hb, rfl⟩
    refine ⟨b.rename r, List.mem_map_of_mem hb, if_neg fun h => ?_⟩
    obtain ⟨howner, hb'⟩ := (hs.touches_iff b hb).mp h
    exact hold howner (declares_iff.mpr ⟨b, hb, rfl⟩) hb'

theorem lookup_rename_target (hss : ∀ s ∈ ss, r.Governs root s)
    (h : lookup ss r.old = some r.target) :
    lookup (ss.map (rename r)) r.new = some (.named r.scope r.new) := by
  have hroot : root = r.scope := by
    obtain ⟨s, hs, hsymbol⟩ := exists_of_lookup h
    exact (hss s hs).owner (Symbol.named.inj hsymbol).1.symm
  induction ss with
  | nil => cases h
  | cons s ss ih =>
    obtain ⟨hs, hss⟩ := List.forall_mem_cons.mp hss
    rw [lookup_cons] at h
    rw [List.map_cons, lookup_cons]
    by_cases hold : s.declares r.old = true
    · rw [if_pos hold] at h
      have howner : s.owner = r.scope := (Symbol.named.inj (Option.some.inj h)).1
      obtain ⟨b, hb, hname⟩ := declares_iff.mp hold
      have hnew : (s.rename r).declares r.new = true :=
        declares_iff.mpr ⟨b.rename r, List.mem_map_of_mem hb,
          if_pos ((hs.touches_iff b hb).mpr ⟨howner, hname⟩)⟩
      rw [if_pos hnew, ← howner]
      rfl
    · rw [if_neg hold] at h
      have hnew := declares_rename_new hs hroot (Bool.eq_false_iff.mpr hold)
      rw [if_neg (Bool.eq_false_iff.mp hnew)]
      exact ih hss h

theorem lookup_rename_of_ne (hss : ∀ s ∈ ss, r.Governs root s)
    (hname : root = r.scope → name ≠ r.new) (h : lookup ss name ≠ some r.target) :
    lookup (ss.map (rename r)) name = (lookup ss name).map r.symbol := by
  induction ss with
  | nil => rfl
  | cons s ss ih =>
    obtain ⟨hs, hss⟩ := List.forall_mem_cons.mp hss
    rw [lookup_cons] at h
    have hold : s.owner = r.scope → s.declares name = true → name ≠ r.old := by
      rintro howner hdeclares rfl
      rw [if_pos hdeclares, howner] at h
      exact h rfl
    have hnew : s.owner = r.scope → name ≠ r.new := fun howner => hname (hs.owner howner)
    rw [List.map_cons, lookup_cons, lookup_cons, declares_rename hs hnew hold]
    by_cases hdeclares : s.declares name = true
    · rw [if_pos hdeclares, if_pos hdeclares, Option.map_some, Renaming.symbol_named]
      · rfl
      · exact fun howner => hold howner hdeclares
      · exact hnew
    · rw [if_neg hdeclares] at h
      rw [if_neg hdeclares, if_neg hdeclares]
      exact ih hss h

/-- A name that changes exactly if it stands for the symbol whose name changes, stands for what it
did. -/
theorem lookup_rename (hss : ∀ s ∈ ss, r.Governs root s) (hname : root = r.scope → name ≠ r.new)
    (h : r.touches n = true ↔ lookup ss name = some r.target) :
    lookup (ss.map (rename r)) (if r.touches n then r.new else name) =
      (lookup ss name).map r.symbol := by
  by_cases hn : r.touches n = true
  · have htarget := h.mp hn
    obtain ⟨s, hs, hsymbol⟩ := exists_of_lookup htarget
    obtain rfl : r.old = name := (Symbol.named.inj hsymbol).2
    rw [if_pos hn, htarget, lookup_rename_target hss htarget, Option.map_some, r.symbol_target]
  · rw [if_neg hn]
    exact lookup_rename_of_ne hss hname (mt h.mpr hn)

end Scope

namespace Bindings

variable {root : Nat} {s : Scope}

def rename (r : Renaming) (b : Bindings) : Bindings :=
  ⟨b.resolutions.map (Prod.map id r.symbol), b.scopes.map (Scope.rename r)⟩

theorem append_rename (a b : Bindings) :
    (a.append b).rename r = (a.rename r).append (b.rename r) := by
  simp [rename, append]

theorem join_rename (parts : List Bindings) :
    (join parts).rename r = join (parts.map (rename r)) := by
  simp [rename, join, List.map_flatMap, List.flatMap_map]

theorem ofScope_rename (hs : r.Governs root s) :
    ofScope (s.rename r) = (ofScope s).rename r := by
  have hresolutions : (ofScope (s.rename r)).resolutions =
      (ofScope s).resolutions.map (Prod.map id r.symbol) := by
    simp only [ofScope, Scope.rename, List.flatMap_map, List.map_flatMap]
    refine List.flatMap_congr fun b hb => ?_
    have hsymbol := Scope.symbol_rename hs hb
    have hdeclaration : (b.rename r).declaration = b.declaration.rename r := rfl
    have hnameNode : (b.rename r).nameNode = b.nameNode.rename r := rfl
    rw [hsymbol, hdeclaration, hnameNode, Node.kind_rename, Node.key_rename, Node.key_rename]
    split <;> rfl
  rw [rename, ← hresolutions]
  rfl

theorem ofAnonymous_rename (n : Node) : ofAnonymous (n.rename r) = (ofAnonymous n).rename r := by
  unfold ofAnonymous
  rw [Node.kind_rename, Node.child?_rename n (by decide), Option.isNone_map, Node.key_rename]
  split
  · simp [rename, r.symbol_anonymous]
  · rfl

end Bindings

theorem Node.referencing_eq (n : Node) : n.referencing = (n.kind.schema.zip n.fields).flatMap
    fun e => if e.1.1.isReference n.kind then e.2.nodes else [] :=
  rfl

theorem Node.referencing_rename (n : Node) :
    (n.rename r).referencing = n.referencing.map (Node.rename r) := by
  rw [referencing_eq, referencing_eq, kind_rename, fields_rename]
  split
  · next h =>
    -- No field of a specifier holds references.
    have hnone : ∀ fields : List Field, ((Kind.importSpecifier.schema.zip fields).flatMap
        fun e => if e.1.1.isReference .importSpecifier then e.2.nodes else []) = [] := by
      intro fields
      refine List.flatMap_eq_nil_iff.mpr fun e _ => ?_
      cases e.1.1 <;> rfl
    rw [Renaming.kind_of_isSpecifier h, hnone, hnone]
    rfl
  · rw [List.zip_map_right, List.flatMap_map, List.map_flatMap]
    refine List.flatMap_congr fun e _ => ?_
    dsimp only [Prod.map, id]
    split
    · exact r.nodes_field n e.2
    · rfl

def SourceFile.rename (r : Renaming) (file : SourceFile) : SourceFile :=
  { file with tree := file.tree.rename r }

def Node.ownScope (file : String) (n : Node) : Scope :=
  ⟨file, n.key, n.ownBindings⟩

structure Renaming.Fits (r : Renaming) (file : SourceFile) : Prop where
  kind : file.tree.kind = .sourceFile
  shaped : file.tree.AllShaped
  suits : r.AllSuits file.tree
  governs : ∀ y ∈ file.tree.preorder, r.Governs file.tree.key (y.ownScope file.name)
  text_ne : file.tree.key = r.scope → ∀ n ∈ file.tree.preorder, n.identifier? ≠ some r.new
  touches_iff : ∀ ⦃path : List Descent⦄ ⦃ss : List Scope⦄ ⦃n : Node⦄ ⦃name : String⦄,
    file.Visits path ss n → n.identifier? = some name →
    (r.touches n = true ↔ Scope.lookup ss name = some r.target)

def Renaming.Commutes (r : Renaming) (file : SourceFile) (n : Node) : Prop :=
  ∀ ⦃path : List Descent⦄ ⦃ss : List Scope⦄, file.Visits path ss n →
    (n.rename r).bindings file.name (ss.map (Scope.rename r)) = (n.bindings file.name ss).rename r

namespace Renaming.Fits

variable {file : SourceFile} {path : List Descent} {ss : List Scope} {n y : Node} {s : Scope}

theorem governs_of_subset (h : r.Fits file) (hy : y ∈ file.tree.preorder)
    (howner : s.owner = y.key) (hbindings : s.bindings ⊆ y.ownBindings) :
    r.Governs file.tree.key s := by
  obtain ⟨htouches, hname, hroot⟩ := h.governs y hy
  refine ⟨fun b hb => ?_, fun hr b hb => hname hr b (hbindings hb), fun ho => hroot ?_⟩
  · rw [howner]
    exact htouches b (hbindings hb)
  · exact howner.symm.trans ho

theorem governs_of_visits (h : r.Fits file) (hv : file.Visits path ss n) :
    ∀ s ∈ ss, r.Governs file.tree.key s := by
  intro s hs
  obtain ⟨y, hy, howner, hbindings⟩ := hv.owned s hs
  exact h.governs_of_subset hy howner hbindings

theorem suits_of_mem (h : r.Fits file) (hy : y ∈ file.tree.preorder) : r.AllSuits y :=
  fun m hm => h.suits m ((Node.preorder_sublist_of_mem_preorder hy).subset hm)

theorem bindings_identifier (h : r.Fits file) (hv : file.Visits path ss n)
    (hk : n.kind = .identifier) :
    (n.rename r).bindings file.name (ss.map (Scope.rename r)) =
      (n.bindings file.name ss).rename r := by
  rw [Node.bindings_identifier hk, Node.bindings_identifier ((Node.kind_rename n).trans hk),
    Node.identifier?_rename, Node.key_rename]
  cases hname : n.identifier? with
  | none => rfl
  | some name =>
    have hne : file.tree.key = r.scope → name ≠ r.new := fun hroot heq =>
      h.text_ne hroot n hv.mem_preorder (heq ▸ hname)
    have hlookup := Scope.lookup_rename (h.governs_of_visits hv) hne (h.touches_iff hv hname)
    simp only [Option.map_some, Option.bind_some, hlookup]
    cases Scope.lookup ss name <;> rfl

theorem hoistedInFunction_rename (h : r.Fits file) (hy : y ∈ file.tree.preorder) :
    Binding.hoistedInFunction ((y.rename r).list .statements) =
      (Binding.hoistedInFunction (y.list .statements)).map (Binding.rename r) := by
  rw [Node.list_rename y (by decide)]
  exact Binding.hoistedInFunction_rename
    (fun s hs => (h.suits_of_mem hy).of_mem_children (Node.mem_children_of_mem_list hs))
    fun s hs => (h.shaped.of_mem_preorder hy).of_mem_children (Node.mem_children_of_mem_list hs)

theorem ofBlock_rename (h : r.Fits file) (hy : y ∈ file.tree.preorder) :
    Scope.ofBlock file.name (y.rename r) = (Scope.ofBlock file.name y).rename r := by
  rw [Scope.ofBlock, Node.key_rename, Node.list_rename y (by decide),
    Binding.hoistedInBlock_rename
      (fun s hs => (h.suits_of_mem hy).of_mem_children (Node.mem_children_of_mem_list hs))
      fun s hs => (h.shaped.of_mem_preorder hy).of_mem_children (Node.mem_children_of_mem_list hs)]
  rfl

theorem bindings_block (h : r.Fits file) (hv : file.Visits path ss n) (hk : n.kind = .block)
    (ih : ∀ c ∈ n.descendants, r.Commutes file c) :
    (n.rename r).bindings file.name (ss.map (Scope.rename r)) =
      (n.bindings file.name ss).rename r := by
  have hgoverns := h.governs_of_subset (s := Scope.ofBlock file.name n) hv.mem_preorder rfl
    (by rw [Node.ownBindings_block hk]; exact List.Subset.refl _)
  rw [Node.bindings_block hk, Node.bindings_block ((Node.kind_rename n).trans hk),
    Bindings.append_rename, Bindings.join_rename, h.ofBlock_rename hv.mem_preorder,
    Bindings.ofScope_rename hgoverns, Node.list_rename n (by decide), List.map_map, List.map_map]
  congr 2
  refine List.map_congr_left fun c hc => ?_
  exact ih c (Node.mem_descendants_of_mem_children (Node.mem_children_of_mem_list hc))
    (hv.block hk hc)

theorem ofHead_rename (file : String) (n : Node) :
    Scope.ofHead file (n.rename r) = (Scope.ofHead file n).rename r := by
  rw [Scope.ofHead, Node.key_rename, Binding.ofOwnName_rename, Binding.ofParameters_rename,
    ← List.map_append]
  rfl

theorem ofFunction_rename (h : r.Fits file) {body : Node} (hb : body ∈ file.tree.preorder) :
    Scope.ofFunction file.name (n.rename r) (body.rename r) =
      (Scope.ofFunction file.name n body).rename r := by
  rw [Scope.ofFunction, Node.key_rename, Binding.ofOwnName_rename, Binding.ofParameters_rename,
    h.hoistedInFunction_rename hb, ← List.map_append, ← List.map_append]
  rfl

theorem bodyBindings_rename (h : r.Fits file) (hv : file.Visits path ss n)
    (hk : n.kind.isFunctionLike = true)
    (ih : ∀ c ∈ n.descendants, r.Commutes file c) :
    (n.rename r).bodyBindings file.name (ss.map (Scope.rename r)) =
      (n.bodyBindings file.name ss).rename r := by
  have hhead := Bindings.ofScope_rename (h.governs_of_subset (s := Scope.ofHead file.name n)
    hv.mem_preorder rfl (SourceFile.Visits.ofHead_subset hk))
  unfold Node.bodyBindings
  rw [Node.child?_rename n (by decide), ofHead_rename, hhead]
  cases hb : n.child? .body with
  | none => rfl
  | some body =>
    have hbn := Node.mem_children_of_child? hb
    have hbt := (Node.preorder_sublist_of_mem_preorder hv.mem_preorder).subset
      (Node.mem_preorder_of_mem_children hbn)
    simp only [Option.map_some, Node.kind_rename]
    split
    · next hbk =>
      have hgoverns := h.governs_of_subset (s := Scope.ofFunction file.name n body)
        hv.mem_preorder rfl (SourceFile.Visits.ofFunction_subset hk hb hbk)
      rw [h.ofFunction_rename hbt, Bindings.ofScope_rename hgoverns, Bindings.append_rename,
        Bindings.join_rename, Node.list_rename body (by decide), List.map_map, List.map_map]
      congr 2
      refine List.map_congr_left fun c hc => ?_
      exact ih c (Node.mem_descendants_of_mem_children_of_mem_children hbn
        (Node.mem_children_of_mem_list hc)) (hv.bodyStatement hk hb hbk hc)
    · next hbk =>
      rw [Bindings.append_rename]
      congr 1
      exact ih body (Node.mem_descendants_of_mem_children hbn) (hv.bodyExpression hk hb hbk)

theorem bindings_function (h : r.Fits file) (hv : file.Visits path ss n)
    (hk : n.kind.isFunctionLike = true)
    (ih : ∀ c ∈ n.descendants, r.Commutes file c) :
    (n.rename r).bindings file.name (ss.map (Scope.rename r)) =
      (n.bindings file.name ss).rename r := by
  rw [Node.bindings_function hk, Node.bindings_function (by rw [Node.kind_rename]; exact hk),
    Bindings.append_rename, Bindings.append_rename, Bindings.join_rename,
    Bindings.ofAnonymous_rename, h.bodyBindings_rename hv hk ih, ofHead_rename,
    Node.list_rename n (by decide), List.map_map, List.map_map]
  congr 3
  refine List.map_congr_left fun q hq => ?_
  simp only [Function.comp_apply,
    Node.child?_rename q (show Label.initializer ≠ .propertyName by decide)]
  cases he : q.child? .initializer with
  | none => rfl
  | some e =>
    exact ih e (Node.mem_descendants_of_mem_children_of_mem_children
      (Node.mem_children_of_mem_list hq) (Node.mem_children_of_child? he))
      (hv.default h.shaped hk hq he)

/-- Resolution of a part of the file. -/
theorem commutes (h : r.Fits file) (n : Node) : r.Commutes file n := by
  induction n using Node.inductionOnDescendants with
  | h n ih =>
    intro path ss hv
    obtain hk | hk | hk | hk | hk := n.cases_kind
    · rw [Node.bindings_importDeclaration hk,
        Node.bindings_importDeclaration ((Node.kind_rename n).trans hk)]
      rfl
    · exact h.bindings_identifier hv hk
    · exact h.bindings_block hv hk ih
    · exact h.bindings_function hv hk ih
    · have hk' : (n.rename r).IsOrdinary := by
        rw [Node.IsOrdinary, Node.kind_rename]
        exact hk
      rw [Node.bindings_ordinary hk, Node.bindings_ordinary hk', Node.referencing_rename,
        Bindings.join_rename, List.map_map, List.map_map]
      congr 1
      refine List.map_congr_left fun c hc => ?_
      obtain ⟨l, hl⟩ := hv.ordinary h.shaped hk hc
      exact ih c (Node.mem_descendants_of_mem_children (Node.mem_children_of_mem_referencing hc))
        hl

theorem moduleScope_rename (h : r.Fits file) :
    (file.rename r).moduleScope = file.moduleScope.rename r := by
  have hbindings := h.hoistedInFunction_rename file.tree.self_mem_preorder
  simp only [SourceFile.moduleScope, SourceFile.rename, Scope.rename, Node.key_rename, hbindings]

/-- Resolution of a file: the resolutions are those of the old one, by the other names of the
symbols. -/
theorem bindings_rename (h : r.Fits file) :
    (file.rename r).bindings = file.bindings.rename r := by
  have hgoverns := h.governs_of_subset (s := file.moduleScope) file.tree.self_mem_preorder rfl
    (by rw [Node.ownBindings_sourceFile h.kind]; exact List.Subset.refl _)
  have hstatements : ((file.rename r).tree.list .statements).map
        (Node.bindings file.name [(file.rename r).moduleScope]) =
      ((file.tree.list .statements).map (Node.bindings file.name [file.moduleScope])).map
        (Bindings.rename r) := by
    change ((file.tree.rename r).list .statements).map _ = _
    rw [Node.list_rename file.tree (by decide), List.map_map, List.map_map]
    refine List.map_congr_left fun c hc => ?_
    rw [Function.comp_apply, h.moduleScope_rename]
    exact h.commutes c (SourceFile.visits_statement h.kind hc)
  change (Bindings.ofScope (file.rename r).moduleScope).append (.join
    (((file.rename r).tree.list .statements).map
      (Node.bindings file.name [(file.rename r).moduleScope]))) = _
  rw [hstatements, h.moduleScope_rename, Bindings.ofScope_rename hgoverns, ← Bindings.join_rename,
    ← Bindings.append_rename]
  rfl

end Renaming.Fits

end Quasiquote
