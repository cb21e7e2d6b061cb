import Quasiquote.Proofs.Declaring
import Quasiquote.Proofs.Renaming.Scopes

namespace Quasiquote

variable {r : Renaming}

theorem lookup_map_snd {α β γ : Type} [BEq α] (f : β → γ) (table : List (α × β)) (k : α) :
    (table.map (Prod.map id f)).lookup k = (table.lookup k).map f := by
  induction table with
  | nil => rfl
  | cons e table ih =>
    obtain ⟨i, b⟩ := e
    simp only [List.map_cons, Prod.map, id, List.lookup_cons]
    split
    · rfl
    · exact ih

theorem lookup_map_perm {α : Type} [DecidableEq α] (f : Equiv.Perm α) (table : List (α × α)) (a : α) :
    (table.map (Prod.map f f)).lookup (f a) = (table.lookup a).map f := by
  induction table with
  | nil => rfl
  | cons e table ih =>
    obtain ⟨b, c⟩ := e
    have heq : (f a == f b) = (a == b) := by
      rw [Bool.eq_iff_iff]
      simp
    simp only [List.map_cons, Prod.map, List.lookup_cons, heq]
    split
    · rfl
    · exact ih

namespace Model

theorem lastOfEach_eq (pairs : List (Symbol × Symbol)) : lastOfEach pairs =
    pairs.foldl (fun table e => e :: table.filter fun other => other.1 ≠ e.1) [] :=
  rfl

theorem lastOfEach_map (f : Equiv.Perm Symbol) (pairs : List (Symbol × Symbol)) :
    lastOfEach (pairs.map (Prod.map f f)) = (lastOfEach pairs).map (Prod.map f f) := by
  have hfold : ∀ table : List (Symbol × Symbol),
      (pairs.map (Prod.map f f)).foldl (fun table e => e :: table.filter fun other => other.1 ≠ e.1)
          (table.map (Prod.map f f)) =
        (pairs.foldl (fun table e => e :: table.filter fun other => other.1 ≠ e.1)
          table).map (Prod.map f f) := by
    induction pairs with
    | nil => exact fun _ => rfl
    | cons e pairs ih =>
      intro table
      rw [List.map_cons, List.foldl_cons, List.foldl_cons, ← ih]
      congr 1
      simp only [Prod.map, List.map_cons, List.filter_map]
      congr 2
      refine List.filter_congr fun e _ => ?_
      simp
  rw [lastOfEach_eq, lastOfEach_eq]
  exact hfold []

theorem mem_of_mem_lastOfEach {pairs : List (Symbol × Symbol)} {e : Symbol × Symbol}
    (h : e ∈ lastOfEach pairs) : e ∈ pairs := by
  have hfold : ∀ (pairs table : List (Symbol × Symbol)),
      e ∈ pairs.foldl (fun table e => e :: table.filter fun other => other.1 ≠ e.1) table →
      e ∈ pairs ∨ e ∈ table := by
    intro pairs
    induction pairs with
    | nil => exact fun _ h => .inr h
    | cons first pairs ih =>
      intro table h
      obtain h | h := ih _ h
      · exact .inl (List.mem_cons_of_mem _ h)
      obtain rfl | h := List.mem_cons.mp h
      · exact .inl List.mem_cons_self
      · exact .inr (List.mem_filter.mp h).1
  rw [lastOfEach_eq] at h
  exact (hfold pairs [] h).resolve_right (by simp)

theorem exists_named_of_moduleBinding? {m : Model} {file name : String} {symbol : Symbol}
    (h : m.moduleBinding? file name = some symbol) : ∃ owner, symbol = .named owner name := by
  obtain ⟨f, -, h⟩ := Option.bind_eq_some_iff.mp h
  obtain ⟨scope, -, h⟩ := Option.bind_eq_some_iff.mp h
  obtain ⟨-, rfl⟩ := Scope.symbol?_eq_some_iff.mp h
  exact ⟨_, rfl⟩

/-- What is linked is a name at the top level of a file. -/
theorem exists_named_of_mem_links {m : Model} {e : Symbol × Symbol} (h : e ∈ m.links) :
    ∃ owner name, e.2 = .named owner name := by
  obtain ⟨s, -, h⟩ := List.mem_flatMap.mp h
  obtain ⟨b, -, h⟩ := List.mem_filterMap.mp h
  obtain ⟨link, -, h⟩ := Option.bind_eq_some_iff.mp h
  obtain ⟨target, hlinked, h⟩ := Option.bind_eq_some_iff.mp h
  obtain rfl := Option.some.inj h
  obtain ⟨base, -, h⟩ := Option.bind_eq_some_iff.mp hlinked
  obtain ⟨file, -, h⟩ := Option.bind_eq_some_iff.mp h
  obtain ⟨last, -, h⟩ := Option.bind_eq_some_iff.mp h
  split at h
  · obtain ⟨owner, howner⟩ := exists_named_of_moduleBinding? h
    exact ⟨owner, _, howner⟩
  · cases h

end Model

def Program.rename (r : Renaming) (p : Program) : Program :=
  ⟨p.files.map (SourceFile.rename r)⟩

namespace Program

variable {n : Node}

theorem entry?_rename (p : Program) {id : Nat} (hid : r.mark.id ≠ some id) :
    (p.rename r).model.entry? id = (p.model.entry? id).map (Node.Entry.rename r) := by
  unfold Model.entry?
  rw [← List.head?_filter, ← List.head?_filter, ← List.head?_map]
  change (((p.files.map (SourceFile.rename r)).flatMap fun f => f.tree.entries).filter _).head? =
    (((p.files.flatMap fun file => file.tree.entries).filter _).map _).head?
  rw [List.flatMap_map, List.filter_flatMap, List.filter_flatMap, List.map_flatMap]
  congr 1
  refine List.flatMap_congr fun file _ => ?_
  refine Node.filter_entriesUnder_rename _ _ file.tree [] (fun e _ => ?_) fun around => ?_
  · rw [Node.Entry.rename, Node.id?_rename]
  · exact decide_eq_false hid

theorem ancestors_rename (p : Program) (hn : n.id? ≠ r.mark.id) :
    (p.rename r).model.ancestors (n.rename r) = (p.model.ancestors n).map (Node.rename r) := by
  unfold Model.ancestors
  rw [Node.id?_rename]
  cases hid : n.id? with
  | none => rfl
  | some id =>
    rw [Option.bind_some, Option.bind_some, p.entry?_rename fun heq => hn (hid.trans heq.symm)]
    cases p.model.entry? id <;> rfl

theorem isWithin_rename (p : Program) (hn : n.id? ≠ r.mark.id) (root : Node) :
    (p.rename r).model.isWithin (n.rename r) (root.rename r) = p.model.isWithin n root := by
  unfold Model.isWithin
  rw [p.ancestors_rename hn, List.any_map, Node.id?_rename, Node.id?_rename]
  congr 2
  funext a
  rw [Function.comp_apply, Node.id?_rename]

end Program

def Program.Holds (p : Program) (n : Node) : Prop :=
  ∃ file ∈ p.files, n ∈ file.tree.preorder

namespace Program.Holds

variable {p : Program} {n c a : Node} {l : Label}

theorem of_mem_preorder (h : p.Holds n) (hc : c ∈ n.preorder) : p.Holds c := by
  obtain ⟨file, hfile, hn⟩ := h
  exact ⟨file, hfile, (Node.preorder_sublist_of_mem_preorder hn).subset hc⟩

theorem of_mem_children (h : p.Holds n) (hc : c ∈ n.children) : p.Holds c :=
  h.of_mem_preorder (Node.mem_preorder_of_mem_children hc)

theorem child (h : p.Holds n) (hc : n.child? l = some c) : p.Holds c :=
  h.of_mem_children (Node.mem_children_of_child? hc)

theorem of_mem_list (h : p.Holds n) (hc : c ∈ n.list l) : p.Holds c :=
  h.of_mem_children (Node.mem_children_of_mem_list hc)

theorem of_mem_ancestors (ha : a ∈ p.model.ancestors n) : p.Holds a := by
  unfold Model.ancestors at ha
  cases hentry : n.id?.bind p.model.entry? with
  | none => simp [hentry] at ha
  | some e =>
    rw [hentry] at ha
    obtain ⟨id, -, hentry⟩ := Option.bind_eq_some_iff.mp hentry
    obtain ⟨file, hfile, he⟩ := List.mem_flatMap.mp (List.mem_of_find?_eq_some hentry)
    obtain ha | ⟨ha, -⟩ := Node.mem_preorder_of_mem_ancestors he ha
    · cases ha
    · exact ⟨file, hfile, ha⟩

end Program.Holds

theorem Node.identifier?_name_rename {d : Node}
    (h : ∀ n name, d.child? .name = some n → n.identifier? = some name → r.touches n = false) :
    ((d.rename r).child? .name).bind Node.identifier? =
      (d.child? .name).bind Node.identifier? := by
  rw [Node.child?_rename d (by decide)]
  cases hn : d.child? .name with
  | none => rfl
  | some n =>
    rw [Option.map_some, Option.bind_some, Option.bind_some, Node.identifier?_rename]
    cases hname : n.identifier? with
    | none => rfl
    | some name => simp [h n name hn hname]

namespace SourceFile

theorem mem_bindings_of_variable {s list d n : Node} {name : String}
    (hk : s.kind = .variableStatement) (hl : s.child? .declarationList = some list)
    (hd : d ∈ list.list .declarations) (hn : d.child? .name = some n)
    (hname : n.identifier? = some name) :
    ⟨name, n, d, .variableName, none⟩ ∈ Binding.ofStatement s ++ Binding.ofVars s := by
  have hmem : (⟨name, n, d, .variableName, none⟩ : Binding) ∈ Binding.ofDeclarationList list :=
    List.mem_flatMap.mpr ⟨d, hd, Binding.mem_ofName_iff.mpr ⟨n, name, hn, hname, rfl⟩⟩
  rw [List.mem_append, Binding.ofStatement, Binding.ofVars, hk]
  by_cases hvar : list.text? .keyword = some "var"
  · refine .inr ?_
    simpa [Binding.ofVariables, hl, hvar] using hmem
  · refine .inl ?_
    simpa [Binding.ofVariables, hl, hvar] using hmem

/-- A statement exports the names that it did, if they do not change. -/
theorem exportedByStatement_rename {s : Node}
    (h : ∀ b ∈ Binding.ofStatement s ++ Binding.ofVars s, b.name ∈ exportedByStatement s →
      r.touches b.nameNode = false) :
    exportedByStatement (s.rename r) = exportedByStatement s := by
  unfold exportedByStatement
  rw [Node.kind_rename]
  split
  · next hk =>
    rw [Node.child?_rename s (by decide)]
    cases hl : s.child? .declarationList with
    | none => rfl
    | some list =>
      simp only [Option.map_some]
      rw [Node.list_rename list (by decide), List.filterMap_map]
      refine List.filterMap_congr fun d hd => ?_
      rw [Function.comp_apply]
      refine Node.identifier?_name_rename fun n name hn hname => ?_
      refine h _ (mem_bindings_of_variable hk hl hd hn hname) ?_
      rw [exportedByStatement, hk]
      dsimp only
      rw [hl]
      exact List.mem_filterMap.mpr ⟨d, hd, by rw [hn, Option.bind_some, hname]⟩
  · next hk =>
    rw [Node.identifier?_name_rename fun n name hn hname => ?_]
    refine h ⟨name, n, s, .functionName, none⟩ (List.mem_append_left _ ?_) ?_
    · rw [Binding.ofStatement, hk]
      exact Binding.mem_ofName_iff.mpr ⟨n, name, hn, hname, rfl⟩
    · rw [exportedByStatement, hk]
      simp [hn, hname]
  · rfl

/-- What a file exports is a variable or a function of its module. -/
theorem exists_of_mem_exportedNames {file : SourceFile} {name : String}
    (hk : file.tree.kind = .sourceFile) (hs : file.tree.AllShaped) (h : name ∈ file.exportedNames) :
    ∃ b ∈ file.tree.ownBindings, b.name = name ∧ b.declaration.kind ≠ .importSpecifier := by
  rw [Node.ownBindings_sourceFile hk]
  obtain ⟨s, hst, h⟩ := List.mem_flatMap.mp h
  have hss := hs.of_mem_children (Node.mem_children_of_mem_list hst)
  split at h
  · unfold exportedByStatement at h
    split at h
    · next hsk =>
      split at h
      · next list hl =>
        obtain ⟨d, hd, hname⟩ := List.mem_filterMap.mp h
        obtain ⟨n, hn, hname⟩ := Option.bind_eq_some_iff.mp hname
        have hb := mem_bindings_of_variable hsk hl hd hn hname
        refine ⟨_, List.mem_flatMap.mpr ⟨s, hst, hb⟩, rfl, ?_⟩
        have hkind : d.kind = .variableDeclaration := by
          obtain hb | hb := List.mem_append.mp hb
          · rw [Binding.ofStatement, hsk] at hb
            exact Binding.kind_of_mem_ofVariables hss hb
          · exact Binding.kind_of_mem_ofVars hss hb
        simp [hkind]
      · cases h
    · next hsk =>
      obtain ⟨n, hn, hname⟩ := Option.bind_eq_some_iff.mp (Option.mem_toList.mp h)
      refine ⟨⟨name, n, s, .functionName, none⟩, List.mem_flatMap.mpr ⟨s, hst, ?_⟩, rfl,
        by simp [hsk]⟩
      rw [Binding.ofStatement, hsk]
      exact List.mem_append_left _ (Binding.mem_ofName_iff.mpr ⟨n, name, hn, hname, rfl⟩)
    · cases h
  · cases h

end SourceFile

structure Renaming.Agrees (r : Renaming) (p : Program) : Prop where
  read : p.IsRead
  fits : ∀ file ∈ p.files, r.Fits file
  /-- The property name is a new node. -/
  fresh : ∀ file ∈ p.files, ∀ n ∈ file.tree.preorder, n.id? ≠ r.mark.id
  /-- The import is not exported. -/
  exported : ∀ file ∈ p.files, file.tree.key = r.scope → r.old ∉ file.exportedNames

def Renaming.Knows (r : Renaming) (s : Symbol) : Prop :=
  ∀ k, s = .anonymous k → r.mark.id ≠ some k

namespace Renaming.Agrees

variable {p : Program} {n : Node} {s : Scope} {symbol : Symbol}

theorem bindings_files (h : r.Agrees p) :
    Bindings.join ((p.rename r).files.map SourceFile.bindings) =
      (Bindings.join (p.files.map SourceFile.bindings)).rename r := by
  rw [Bindings.join_rename, Program.rename, List.map_map, List.map_map]
  exact congrArg Bindings.join
    (List.map_congr_left fun file hfile => (h.fits file hfile).bindings_rename)

theorem scopes_rename (h : r.Agrees p) :
    (p.rename r).model.scopes = p.model.scopes.map (Scope.rename r) :=
  congrArg Bindings.scopes h.bindings_files

theorem resolve?_rename (h : r.Agrees p) (n : Node) :
    (p.rename r).model.resolve? (n.rename r) = (p.model.resolve? n).map r.symbol := by
  have hresolutions : (p.rename r).model.resolutions =
      p.model.resolutions.map (Prod.map id r.symbol) :=
    congrArg Bindings.resolutions h.bindings_files
  unfold Model.resolve?
  rw [Node.id?_rename, hresolutions]
  cases n.id? with
  | none => rfl
  | some id => exact lookup_map_snd r.symbol _ id

theorem scope?_rename (h : r.Agrees p) (owner : Nat) :
    (p.rename r).model.scope? owner = (p.model.scope? owner).map (Scope.rename r) := by
  rw [Model.scope?, h.scopes_rename, List.find?_map]
  rfl

theorem governs (h : r.Agrees p) (hs : s ∈ p.model.scopes) : ∃ root, r.Governs root s := by
  rw [Program.scopes_model] at hs
  obtain ⟨file, hfile, hs⟩ := List.mem_flatMap.mp hs
  obtain ⟨y, hy, howner, hbindings⟩ := SourceFile.exists_of_scope (h.read.kind file hfile) hs
  exact ⟨_, (h.fits file hfile).governs_of_subset hy howner
    (by rw [hbindings]; exact List.Subset.refl _)⟩

theorem bindings_symbol (h : r.Agrees p) (symbol : Symbol) :
    (p.rename r).model.bindings (r.symbol symbol) =
      (p.model.bindings symbol).map (Binding.rename r) := by
  cases symbol with
  | anonymous k =>
    rw [r.symbol_anonymous]
    rfl
  | named owner name =>
    obtain ⟨name', hname'⟩ := r.exists_symbol_named owner name
    rw [hname', Model.bindings, Model.bindings, h.scope?_rename]
    cases hs : p.model.scope? owner with
    | none => rfl
    | some s =>
      have howner : s.owner = owner := by simpa using List.find?_some hs
      obtain ⟨root, hgoverns⟩ := h.governs (List.mem_of_find?_eq_some hs)
      simp only [Option.map_some, Option.getD_some, Scope.rename, List.filter_map]
      congr 1
      refine List.filter_congr fun b hb => ?_
      -- Two names are the same before the change if they are after it.
      have hsymbol := Scope.symbol_rename hgoverns hb
      rw [howner] at hsymbol
      rw [Function.comp_apply, decide_eq_decide]
      constructor
      · intro heq
        rw [heq, ← hname'] at hsymbol
        exact (Symbol.named.inj (r.symbol.injective hsymbol)).2.symm
      · intro heq
        rw [heq, hname'] at hsymbol
        exact (Symbol.named.inj hsymbol).2

theorem kind_symbol (h : r.Agrees p) (symbol : Symbol) :
    (p.rename r).model.kind (r.symbol symbol) = p.model.kind symbol := by
  rw [Model.kind, Model.kind, h.bindings_symbol, List.head?_map, Option.map_map]
  rfl

theorem declarations_symbol (h : r.Agrees p) (hsymbol : r.Knows symbol) :
    (p.rename r).model.declarations (r.symbol symbol) =
      (p.model.declarations symbol).map (Node.rename r) := by
  cases symbol with
  | anonymous k =>
    rw [r.symbol_anonymous, Model.declarations, Model.declarations,
      p.entry?_rename (hsymbol k rfl)]
    cases p.model.entry? k <;> rfl
  | named owner name =>
    have hbindings := h.bindings_symbol (.named owner name)
    obtain ⟨name', hname'⟩ := r.exists_symbol_named owner name
    rw [hname'] at hbindings ⊢
    rw [Model.declarations, Model.declarations, hbindings, List.map_map, List.map_map]
    rfl

theorem holds_of_mem_declarations (h : r.Agrees p) (hn : n ∈ p.model.declarations symbol) :
    p.Holds n := by
  cases symbol with
  | anonymous k =>
    obtain ⟨e, he, rfl⟩ := Option.map_eq_some_iff.mp (Option.mem_toList.mp hn)
    obtain ⟨file, hfile, he⟩ := List.mem_flatMap.mp (List.mem_of_find?_eq_some he)
    refine ⟨file, hfile, ?_⟩
    rw [← file.tree.map_node_entriesUnder []]
    exact List.mem_map_of_mem he
  | named owner name =>
    obtain ⟨b, hb, rfl⟩ := List.mem_map.mp hn
    rw [Model.bindings] at hb
    cases hs : p.model.scope? owner with
    | none => simp [hs] at hb
    | some s =>
      rw [hs, Option.map_some, Option.getD_some, List.mem_filter] at hb
      have hmem := List.mem_of_find?_eq_some hs
      rw [Program.scopes_model] at hmem
      obtain ⟨file, hfile, hmem⟩ := List.mem_flatMap.mp hmem
      obtain ⟨y, hy, -, hbindings⟩ := SourceFile.exists_of_scope (h.read.kind file hfile) hmem
      rw [hbindings] at hb
      exact ⟨file, hfile, (Node.preorder_sublist_of_mem_preorder hy).subset
        (Node.declaredIn_of_mem_ownBindings hb.1).mem⟩

theorem importModule?_rename (h : r.Agrees p) (hn : n.id? ≠ r.mark.id) :
    (p.rename r).model.importModule? (n.rename r) = p.model.importModule? n := by
  unfold Model.importModule?
  rw [p.ancestors_rename hn, List.find?_map]
  have hkind : (fun a : Node => decide (a.kind = .importDeclaration)) ∘ Node.rename r =
      fun a => decide (a.kind = .importDeclaration) := by
    funext a
    rw [Function.comp_apply, Node.kind_rename]
  rw [hkind]
  cases hs : (p.model.ancestors n).find? fun a => a.kind = .importDeclaration with
  | none => rfl
  | some s =>
    have hk : s.kind = .importDeclaration := by simpa using List.find?_some hs
    obtain ⟨file, hfile, hmem⟩ := Program.Holds.of_mem_ancestors (List.mem_of_find?_eq_some hs)
    exact ((h.fits file hfile).suits s hmem).moduleText hk

theorem lastFile?_rename (p : Program) (name : String) :
    (p.rename r).model.lastFile? name = (p.model.lastFile? name).map (SourceFile.rename r) := by
  change (p.files.map (SourceFile.rename r)).reverse.find? _ = (p.files.reverse.find? _).map _
  rw [← List.map_reverse, List.find?_map]
  rfl

theorem exportedNames_rename {file : SourceFile} (h : r.Agrees p) (hfile : file ∈ p.files) :
    (file.rename r).exportedNames = file.exportedNames := by
  have htouches : ∀ s ∈ file.tree.list .statements, s.flag .isExported = true →
      ∀ b ∈ Binding.ofStatement s ++ Binding.ofVars s,
        b.name ∈ SourceFile.exportedByStatement s → r.touches b.nameNode = false := by
    intro s hs hflag b hb hname
    have hown : b ∈ file.tree.ownBindings := by
      rw [Node.ownBindings_sourceFile (h.read.kind file hfile)]
      exact List.mem_flatMap.mpr ⟨s, hs, hb⟩
    have hgoverns := (h.fits file hfile).governs file.tree file.tree.self_mem_preorder
    rw [Bool.eq_false_iff]
    intro htouches
    obtain ⟨hscope, hold⟩ := (hgoverns.touches_iff b hown).mp htouches
    refine h.exported file hfile hscope (List.mem_flatMap.mpr ⟨s, hs, ?_⟩)
    rw [if_pos hflag, ← hold]
    exact hname
  unfold SourceFile.exportedNames
  change ((file.tree.rename r).list .statements).flatMap _ = _
  rw [Node.list_rename file.tree (by decide), List.flatMap_map]
  refine List.flatMap_congr fun s hs => ?_
  rw [Node.flag_rename s (by decide)]
  split
  · next hflag => exact SourceFile.exportedByStatement_rename (htouches s hs hflag)
  · rfl

theorem moduleBinding?_rename (h : r.Agrees p) {file name : String}
    (hname : ∀ f ∈ p.model.lastFile? file, f.tree.key = r.scope → name ≠ r.old ∧ name ≠ r.new) :
    (p.rename r).model.moduleBinding? file name =
      (p.model.moduleBinding? file name).map r.symbol := by
  unfold Model.moduleBinding?
  rw [lastFile?_rename]
  cases hf : p.model.lastFile? file with
  | none => rfl
  | some f =>
    have hname := hname f hf
    change ((p.rename r).model.scope? (f.tree.rename r).key).bind _ =
      ((p.model.scope? f.tree.key).bind _).map r.symbol
    rw [Node.key_rename, h.scope?_rename]
    cases hs : p.model.scope? f.tree.key with
    | none => rfl
    | some s =>
      have howner : s.owner = f.tree.key := by simpa using List.find?_some hs
      obtain ⟨root, hgoverns⟩ := h.governs (List.mem_of_find?_eq_some hs)
      rw [← howner] at hname
      have hdeclares := Scope.declares_rename hgoverns (fun ho => (hname ho).2)
        fun ho _ => (hname ho).1
      have hsymbol : r.symbol (.named s.owner name) = .named s.owner name :=
        Renaming.symbol_named (fun ho => (hname ho).1) fun ho => (hname ho).2
      simp only [Option.map_some, Option.bind_some, Scope.symbol?, hdeclares]
      split
      · rw [Option.map_some, hsymbol]
        rfl
      · rfl

theorem exported?_rename (h : r.Agrees p) (file name : String) :
    (p.rename r).model.exported? file name = (p.model.exported? file name).map r.symbol := by
  unfold Model.exported?
  rw [lastFile?_rename]
  cases hf : p.model.lastFile? file with
  | none => rfl
  | some f =>
    have hfile : f ∈ p.files := List.mem_reverse.mp (List.mem_of_find?_eq_some hf)
    simp only [Option.map_some, bind, Option.bind_some, h.exportedNames_rename hfile]
    split
    · next hname =>
      refine h.moduleBinding?_rename fun g hg hscope => ?_
      obtain rfl := Option.some.inj (hf.symm.trans hg)
      refine ⟨fun heq => h.exported f hfile hscope (heq ▸ hname), fun heq => ?_⟩
      obtain ⟨b, hb, hnew, -⟩ := SourceFile.exists_of_mem_exportedNames (h.read.kind f hfile)
        (h.read.shaped f hfile) (heq ▸ hname)
      have hdeclared := Node.declaredIn_of_mem_ownBindings hb
      exact (h.fits f hfile).text_ne hscope _ hdeclared.nameNode_mem (hnew ▸ hdeclared.text)
    · rfl

theorem linked?_rename (h : r.Agrees p) (importer : String) (link : ImportLink) :
    (p.rename r).model.linked? importer link = (p.model.linked? importer link).map r.symbol := by
  have hsome : (fun name => ((p.rename r).model.lastFile? name).isSome) =
      fun name => (p.model.lastFile? name).isSome := by
    funext name
    rw [lastFile?_rename, Option.isSome_map]
  unfold Model.linked?
  rw [hsome]
  cases ModulePath.resolve importer link.specifier with
  | none => rfl
  | some base =>
    simp only [bind, Option.bind_some]
    cases (ModulePath.candidates base).find? fun name => (p.model.lastFile? name).isSome with
    | none => rfl
    | some file => exact h.exported?_rename file link.exported

theorem links_rename (h : r.Agrees p) :
    (p.rename r).model.links = p.model.links.map (Prod.map r.symbol r.symbol) := by
  unfold Model.links
  rw [h.scopes_rename, List.flatMap_map, List.map_flatMap]
  refine List.flatMap_congr fun s hs => ?_
  obtain ⟨root, hgoverns⟩ := h.governs hs
  rw [Scope.rename, List.filterMap_map, List.map_filterMap]
  refine List.filterMap_congr fun b hb => ?_
  change (b.link.bind fun link => ((p.rename r).model.linked? s.file link).bind fun target =>
      some (Symbol.named s.owner (b.rename r).name, target)) =
    (b.link.bind fun link => (p.model.linked? s.file link).bind fun target =>
      some (Symbol.named s.owner b.name, target)).map _
  cases b.link with
  | none => rfl
  | some link =>
    rw [Option.bind_some, Option.bind_some, h.linked?_rename, Scope.symbol_rename hgoverns hb]
    cases p.model.linked? s.file link <;> rfl

theorem aliased_rename (h : r.Agrees p) (symbol : Symbol) :
    (p.rename r).model.aliased (r.symbol symbol) = r.symbol (p.model.aliased symbol) := by
  have haliases : (p.rename r).model.aliases =
      p.model.aliases.map (Prod.map r.symbol r.symbol) := by
    change Model.lastOfEach (p.rename r).model.links = (Model.lastOfEach p.model.links).map _
    rw [h.links_rename, Model.lastOfEach_map]
  have hfollow : ∀ steps symbol, (p.rename r).model.followAliases steps (r.symbol symbol) =
      r.symbol (p.model.followAliases steps symbol) := by
    intro steps
    induction steps with
    | zero => exact fun _ => rfl
    | succ steps ih =>
      intro symbol
      rw [Model.followAliases, Model.followAliases, haliases, lookup_map_perm]
      cases p.model.aliases.lookup symbol with
      | none => rfl
      | some target => exact ih target
  rw [Model.aliased, Model.aliased, haliases, List.length_map]
  exact hfollow _ symbol

theorem knows_of_resolve? (h : r.Agrees p) (hn : p.model.resolve? n = some symbol) :
    r.Knows symbol := by
  rintro k rfl
  obtain ⟨id, -, hid⟩ := Option.bind_eq_some_iff.mp hn
  change (Bindings.join (p.files.map SourceFile.bindings)).resolutions.lookup id = _ at hid
  rw [Bindings.lookup_resolutions] at hid
  obtain ⟨⟨i, _⟩, hr, heq⟩ := List.mem_map.mp (List.mem_of_mem_head? hid)
  obtain rfl : _ = Symbol.anonymous k := heq
  obtain ⟨_, hb, hr⟩ := List.mem_flatMap.mp (List.mem_filter.mp hr).1
  obtain ⟨file, hfile, rfl⟩ := List.mem_map.mp hb
  have hresolution := SourceFile.resolution (h.read.kind file hfile) (h.read.shaped file hfile) hr
  cases hresolution with
  | reference hv hname hsymbol =>
    obtain ⟨s, -, hs⟩ := Scope.exists_of_lookup hsymbol
    cases hs
  | anonymous hn' _ =>
    intro heq
    exact h.fresh file hfile _ hn' ((h.read.id?_eq hfile hn').trans heq.symm)

theorem knows_aliased (hsymbol : r.Knows symbol) : r.Knows (p.model.aliased symbol) := by
  have htarget : ∀ e ∈ p.model.aliases, r.Knows e.2 := by
    intro e he k heq
    obtain ⟨owner, name, hnamed⟩ := Model.exists_named_of_mem_links (Model.mem_of_mem_lastOfEach he)
    cases hnamed.symm.trans heq
  have hfollow : ∀ steps symbol, r.Knows symbol → r.Knows (p.model.followAliases steps symbol) := by
    intro steps
    induction steps with
    | zero => exact fun _ h => h
    | succ steps ih =>
      intro symbol h
      rw [Model.followAliases]
      split
      · next target hlookup =>
        obtain ⟨before, after, hsplit, -⟩ := List.lookup_eq_some_iff.mp hlookup
        have hmem : (symbol, target) ∈ p.model.aliases := by simp [hsplit]
        exact ih target (htarget _ hmem)
      · exact h
  exact hfollow _ symbol hsymbol

end Renaming.Agrees

end Quasiquote
