import Quasiquote.Proofs.Renaming.Types
import Quasiquote.Template.Compile

namespace Quasiquote

variable {r : Renaming}

def Placeholder.rename (r : Renaming) (placeholder : Placeholder) : Placeholder :=
  { placeholder with payload := placeholder.payload.rename r }

namespace Registry

variable (g : Registry) (ns text token : String)

def rename (r : Renaming) (g : Registry) : Registry :=
  ⟨g.entries.map (Prod.map id (Placeholder.rename r))⟩

theorem get?_rename : (g.rename r).get? token = (g.get? token).map (Placeholder.rename r) :=
  lookup_map_snd _ g.entries token

theorem erase_rename : (g.rename r).erase token = (g.erase token).rename r := by
  unfold erase rename
  rw [List.filter_map]
  rfl

theorem insert_rename (placeholder : Placeholder) :
    (g.rename r).insert token (placeholder.rename r) = (g.insert token placeholder).rename r := by
  rw [insert, erase_rename, insert, rename, rename, List.map_append]
  rfl

theorem size_rename : (g.rename r).size = g.size :=
  List.length_map _

theorem isFree_rename : (g.rename r).isFree text token = g.isFree text token := by
  rw [isFree, contains, get?_rename, Option.isSome_map]
  rfl

theorem firstFreeSuffix_rename (bound k : Nat) :
    (g.rename r).firstFreeSuffix text token bound k = g.firstFreeSuffix text token bound k := by
  induction bound generalizing k with
  | zero => rfl
  | succ bound ih => rw [firstFreeSuffix, firstFreeSuffix, isFree_rename, ih]

theorem drawFree_rename (draws : Nat) (ids : IdSupply) :
    (g.rename r).drawFree text draws token ids = g.drawFree text draws token ids := by
  induction draws generalizing token ids with
  | zero => rw [drawFree, drawFree, suffixBound, size_rename, firstFreeSuffix_rename, suffixBound]
  | succ draws ih =>
    rw [drawFree, drawFree, isFree_rename]
    split
    · rfl
    · exact ih _ _

theorem freshToken_rename (ids : IdSupply) :
    (g.rename r).freshToken ids text = g.freshToken ids text :=
  g.drawFree_rename text _ _ _

theorem unspliced_rename : (g.rename r).unspliced = g.unspliced := by
  have hsort : (g.rename r).remaining =
      g.remaining.map (Prod.map id (Placeholder.rename r)) :=
    (List.map_mergeSort (f := Prod.map id (Placeholder.rename r)) fun _ _ _ _ => rfl).symm
  rw [unspliced, hsort, List.map_map]
  rfl

theorem take?_rename (n : Node) : (g.rename r).take? ns n =
    (g.take? ns n).map (Prod.map (Node.rename r) (rename r)) := by
  unfold take?
  rw [List.map_findSome?]
  congr 1
  funext pattern
  simp only [Function.comp_apply]
  cases pattern.token? ns n with
  | none => rfl
  | some token =>
    simp only [bind, Option.bind_some, get?_rename, erase_rename]
    cases g.get? token with
    | none => rfl
    | some placeholder =>
      simp only [Option.map_some, Option.bind_some, Placeholder.rename]
      split <;> rfl

end Registry

variable (ns : String)

mutual

/-- What is spliced into a tree under the other name is what was, under the other name. The tree
itself is made anew and has no identities that could be renamed. -/
theorem Node.splice_rename (n : Node) (g : Registry) : n.splice ns (g.rename r) =
    Prod.map (Node.rename r) (Registry.rename r) (n.splice ns g) := by
  match n with
  | .mk kind mark fields =>
    rw [Node.splice, Node.splice, g.take?_rename]
    cases g.take? ns (.mk kind mark fields) with
    | some taken => rfl
    | none =>
      rw [Option.map_none]
      dsimp only
      rw [Field.spliceList_rename fields g, Prod.map, Prod.map, Node.rename_plain]

theorem Field.spliceList_rename (fields : List Field) (g : Registry) :
    Field.spliceList ns fields (g.rename r) =
      Prod.map (List.map (Field.rename r)) (Registry.rename r) (Field.spliceList ns fields g) := by
  match fields with
  | [] => rfl
  | .node n :: rest =>
    simp only [Field.spliceList, Node.splice_rename n g, Prod.map, Field.spliceList_rename rest,
      List.map_cons, Field.rename]
  | .list ms :: rest =>
    simp only [Field.spliceList, Node.spliceList_rename ms g, Prod.map,
      Field.spliceList_rename rest, List.map_cons, Field.rename]
  | .text _ :: rest | .flag _ :: rest | .absent :: rest =>
    simp only [Field.spliceList, Prod.map, Field.spliceList_rename rest, List.map_cons,
      Field.rename]

theorem Node.spliceList_rename (ms : List Node) (g : Registry) :
    Node.spliceList ns ms (g.rename r) =
      Prod.map (List.map (Node.rename r)) (Registry.rename r) (Node.spliceList ns ms g) := by
  match ms with
  | [] => rfl
  | m :: rest =>
    simp only [Node.spliceList, Node.splice_rename m g, Prod.map, Node.spliceList_rename rest,
      List.map_cons]

end

def TemplateParts.rename (r : Renaming) (parts : TemplateParts) : TemplateParts :=
  ⟨parts.head, parts.substitutions.map (Prod.map (Node.rename r) id)⟩

def Fragment.rename (r : Renaming) (f : Fragment) : Fragment :=
  { f with registry := f.registry.rename r }

def Expansion.rename (r : Renaming) (e : Expansion) : Expansion :=
  { e with tree := e.tree.rename r }

namespace TemplateParts

theorem ofTemplate_rename {template : Node} (h : r.touches template = false) :
    ofTemplate (template.rename r) = (ofTemplate template).rename r := by
  unfold ofTemplate Node.text
  rw [Node.kind_rename]
  split
  · rw [Node.text?_rename_of_label template (by decide) (by decide),
      Node.list_rename template (by decide), List.filterMap_map, rename, List.map_filterMap]
    congr 1
    refine List.filterMap_congr fun s _ => ?_
    rw [Function.comp_apply, Node.child?_rename s (by decide),
      Node.text?_rename_of_label s (by decide) (by decide)]
    cases s.child? .expression <;> rfl
  · rw [Node.text?_rename template (by decide), funext (Renaming.text_of_touches h),
      Option.map_id']
    rfl

theorem literalText_rename (parts : TemplateParts) :
    (parts.rename r).literalText = parts.literalText := by
  rw [literalText, rename, List.map_map]
  rfl

theorem isEmpty_rename (parts : TemplateParts) : (parts.rename r).isEmpty = parts.isEmpty := by
  rw [isEmpty, literalText_rename, rename, List.isEmpty_map]
  rfl

end TemplateParts

theorem TemplateParts.holds_of_mem_substitutions {p : Program} {template e : Node} {chunk : String}
    (h : p.Holds template) (he : (e, chunk) ∈ (ofTemplate template).substitutions) :
    p.Holds e := by
  unfold ofTemplate at he
  split at he
  · obtain ⟨s, hs, he⟩ := List.mem_filterMap.mp he
    obtain ⟨e', he', heq⟩ := Option.map_eq_some_iff.mp he
    obtain rfl := congrArg Prod.fst heq
    exact (h.of_mem_list hs).child he'
  · cases he

theorem Fragment.expand_rename (f : Fragment) :
    (f.rename r).expand ns = (f.expand ns).map (Expansion.rename r) := by
  unfold expand
  rw [show (f.rename r).source = f.source from rfl]
  cases parse f.source with
  | error e => rfl
  | ok tree =>
    simp only [Fragment.rename, Node.splice_rename, Prod.map, Registry.size_rename,
      Registry.unspliced_rename, Except.map, Expansion.rename]

namespace Renaming.Agrees

variable {p : Program} (o : Options)

theorem add_rename (h : r.Agrees p) (literalText : String) (f : Fragment) (ids : IdSupply)
    {e : Node} (he : p.Holds e) (chunk : String) :
    (f.rename r).add ⟨(p.rename r).model, o⟩ literalText ids (e.rename r) chunk =
      Prod.map (Fragment.rename r) id (f.add ⟨p.model, o⟩ literalText ids e chunk) := by
  have hpayload : Compilation.payload ⟨(p.rename r).model, o⟩ (e.rename r) =
      (Compilation.payload ⟨p.model, o⟩ e).rename r := by
    simp [Compilation.payload, Node.call, Node.identifier, Node.rename_plain, Field.rename]
  simp only [Fragment.add, h.inferRole_rename o he, Fragment.rename, Registry.freshToken_rename,
    hpayload, Node.span_rename, Prod.map, id]
  congr 2
  exact Registry.insert_rename _ _ ⟨_, _, _⟩

theorem addAll_rename (h : r.Agrees p) (literalText : String) {parts : List (Node × String)}
    (hparts : ∀ part ∈ parts, p.Holds part.1) (f : Fragment) (ids : IdSupply) :
    Fragment.addAll ⟨(p.rename r).model, o⟩ literalText (f.rename r) ids
        (parts.map (Prod.map (Node.rename r) id)) =
      Prod.map (Fragment.rename r) id (Fragment.addAll ⟨p.model, o⟩ literalText f ids parts) := by
  induction parts generalizing f ids with
  | nil => rfl
  | cons part parts ih =>
    obtain ⟨e, chunk⟩ := part
    obtain ⟨he, hparts⟩ := List.forall_mem_cons.mp hparts
    simp only [List.map_cons, Prod.map, id, Fragment.addAll, h.add_rename o literalText f ids he]
    exact ih hparts _ _

/-- A template of the program expands to what it expanded to, under the other name. -/
theorem expandTemplate_rename (h : r.Agrees p) {template : Node} (ht : p.Holds template)
    (htouches : r.touches template = false) (ids : IdSupply) :
    Compilation.expandTemplate ⟨(p.rename r).model, o⟩ (template.rename r) ids =
      Prod.map (Except.map (Expansion.rename r)) id
        (Compilation.expandTemplate ⟨p.model, o⟩ template ids) := by
  have hcompile : Compilation.compileTemplate ⟨(p.rename r).model, o⟩ (template.rename r) ids =
      Prod.map (Option.map (Fragment.rename r)) id
        (Compilation.compileTemplate ⟨p.model, o⟩ template ids) := by
    unfold Compilation.compileTemplate
    simp only [TemplateParts.ofTemplate_rename htouches, TemplateParts.isEmpty_rename,
      TemplateParts.literalText_rename]
    split
    · rfl
    · have hadd := h.addAll_rename o (TemplateParts.ofTemplate template).literalText
        (fun part hpart => TemplateParts.holds_of_mem_substitutions ht hpart)
        { source := (TemplateParts.ofTemplate template).head } ids
      exact congrArg (Prod.map some id) hadd
  unfold Compilation.expandTemplate
  rw [hcompile]
  obtain ⟨_ | f, ids'⟩ := Compilation.compileTemplate ⟨p.model, o⟩ template ids
  · simp [Except.map, Expansion.rename, Node.factoryCall, Node.call, Node.propertyAccess,
      Node.identifier, Node.rename_plain, Field.rename]
  · exact congrArg (Prod.mk · ids') (f.expand_rename o.factoryNamespace)

end Renaming.Agrees

end Quasiquote
