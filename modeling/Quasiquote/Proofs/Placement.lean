import Quasiquote.Proofs.Apart
import Quasiquote.Proofs.Grafting
import Quasiquote.Proofs.Removal

namespace Quasiquote

def Fragment.slot (c : Compilation) (literalText : String) (f : Fragment) (ids : IdSupply)
    (substitution : Node) : Slot :=
  ⟨(f.registry.freshToken ids literalText).1,
    ⟨c.payload substitution, (c.inferRole substitution).role, substitution.span⟩, f.source.toList⟩

def Fragment.slots (c : Compilation) (literalText : String) :
    Fragment → IdSupply → List (Node × String) → List Slot
  | _, _, [] => []
  | f, ids, (substitution, chunk) :: rest =>
    let next := f.add c literalText ids substitution chunk
    f.slot c literalText ids substitution :: Fragment.slots c literalText next.1 next.2 rest

def Compilation.slots (c : Compilation) (template : Node) (ids : IdSupply) : List Slot :=
  let parts := TemplateParts.ofTemplate template
  Fragment.slots c parts.literalText { source := parts.head } ids parts.substitutions

namespace Fragment

structure Lays (literalText : String) (f : Fragment) (slots : List Slot) : Prop where
  written : Slot.Written literalText.toList f.source.toList slots
  entries : f.registry.entries = slots.map fun s => (s.token, s.placeholder)

variable {c : Compilation} {literalText : String} {f : Fragment} {slots : List Slot}

/-- One more substitution makes one more slot. Its token is not registered and not in the literal
text. -/
theorem Lays.add (h : f.Lays literalText slots) (ids : IdSupply) (substitution : Node)
    {chunk : String} (hchunk : chunk.toList <:+: literalText.toList) :
    (f.add c literalText ids substitution chunk).1.Lays literalText
      (slots ++ [f.slot c literalText ids substitution]) := by
  have hfree := f.registry.isFree_freshToken literalText ids
  simp only [Registry.isFree, Bool.and_eq_true, Bool.not_eq_true',
    Registry.contains_eq_false_iff] at hfree
  have hnew : (f.slot c literalText ids substitution).token ∉ slots.map Slot.token := by
    have htokens : f.registry.tokens = slots.map Slot.token := by
      simp [Registry.tokens, h.entries]
    exact htokens ▸ hfree.1
  have hfresh : ¬(f.slot c literalText ids substitution).token.toList <:+: literalText.toList := by
    intro hinfix
    rw [← Text.occursIn_iff] at hinfix
    exact Bool.false_ne_true (hfree.2.symm.trans hinfix)
  have hsource : (f.add c literalText ids substitution chunk).1.source.toList =
      f.source.toList ++ (f.slot c literalText ids substitution).text ++ chunk.toList := by
    simp [Fragment.add, Fragment.slot, Slot.text]
  constructor
  · rw [hsource]
    exact h.written.add rfl (f.registry.isName_freshToken literalText ids) hfresh hnew hchunk
  · simp [Fragment.add, Fragment.slot, Registry.insert,
      Registry.entries_erase_of_not_mem hfree.1, h.entries]

theorem Lays.addAll (h : f.Lays literalText slots) (ids : IdSupply)
    {substitutions : List (Node × String)}
    (hchunks : ∀ e ∈ substitutions, e.2.toList <:+: literalText.toList) :
    (f.addAll c literalText ids substitutions).1.Lays literalText
      (slots ++ f.slots c literalText ids substitutions) := by
  induction substitutions generalizing f ids slots with
  | nil => rwa [Fragment.slots, List.append_nil]
  | cons e rest ih =>
    obtain ⟨hchunk, hrest⟩ := List.forall_mem_cons.mp hchunks
    rw [Fragment.slots, Fragment.addAll, List.append_cons]
    exact ih (h.add ids e.1 hchunk) _ hrest

end Fragment

theorem TemplateParts.infix_literalText (parts : TemplateParts) :
    parts.head.toList <:+: parts.literalText.toList ∧
      ∀ e ∈ parts.substitutions, e.2.toList <:+: parts.literalText.toList := by
  have htext : parts.literalText.toList =
      parts.head.toList ++ (parts.substitutions.map fun e => e.2.toList).flatten := by
    simp [literalText, List.flatMap_def, Function.comp_def]
  rw [htext]
  refine ⟨(List.prefix_append ..).isInfix, fun e he => ?_⟩
  have hmem : e.2.toList ∈ parts.substitutions.map fun e => e.2.toList := List.mem_map_of_mem he
  exact (List.infix_of_mem_flatten hmem).trans (List.suffix_append ..).isInfix

theorem TemplateParts.lays (c : Compilation) (parts : TemplateParts) (ids : IdSupply) :
    (Fragment.addAll c parts.literalText { source := parts.head } ids
      parts.substitutions).1.Lays parts.literalText
        (Fragment.slots c parts.literalText { source := parts.head } ids parts.substitutions) := by
  obtain ⟨hhead, hchunks⟩ := parts.infix_literalText
  have hstart : Fragment.Lays parts.literalText { source := parts.head } [] :=
    ⟨.ofLiteral hhead, rfl⟩
  exact hstart.addAll ids hchunks

theorem Compilation.lays_of_compileTemplate {c : Compilation} {template : Node} {ids : IdSupply}
    {f : Fragment} (h : (c.compileTemplate template ids).1 = some f) :
    f.Lays (TemplateParts.ofTemplate template).literalText (c.slots template ids) := by
  simp only [Compilation.compileTemplate] at h
  split at h
  · cases h
  · obtain rfl := Option.some.inj h
    exact (TemplateParts.ofTemplate template).lays c ids

theorem Fragment.Lays.exists_slot {f : Fragment} {literalText : String} {slots : List Slot}
    (h : f.Lays literalText slots) {token : String} {p : Placeholder}
    (hp : f.registry.get? token = some p) : ∃ s ∈ slots, s.token = token ∧ s.placeholder = p := by
  have hmem := Registry.mem_entries_of_get? hp
  rw [h.entries] at hmem
  obtain ⟨s, hs, heq⟩ := List.mem_map.mp hmem
  exact ⟨s, hs, congrArg Prod.fst heq, congrArg Prod.snd heq⟩

theorem Fragment.expand_eq_ok {f : Fragment} {ns : String} {e : Expansion}
    (h : f.expand ns = .ok e) : ∃ tree, parse f.source = .ok tree ∧
      e.tree = ((tree.synthesize ns).splice ns f.registry).1 := by
  unfold Fragment.expand at h
  split at h
  · cases h
  · next tree htree =>
    cases h
    exact ⟨tree, htree, rfl⟩

/-- Where the substitutions of a template go: each takes the place of a node of the fragment that
carries its token in the shape of its role. When the tokens of the fragment stand apart, nothing but
what is written in its slot spells a token without an escape, and the node stands on the slot. -/
theorem Compilation.expandTemplate_places (c : Compilation) (template : Node)
    (ids ids' : IdSupply) (e : Expansion) (h : c.expandTemplate template ids = (.ok e, ids'))
    (f : Fragment) (hf : (c.compileTemplate template ids).1 = some f) :
    ∃ tokens fragment, Token.scan f.source = .ok tokens ∧ parse f.source = .ok fragment ∧
      e.tree = (fragment.graftFragment c.options.factoryNamespace f.registry).value ∧
      ((fragment.graftFragment c.options.factoryNamespace f.registry).cuts.map Prod.fst).Nodup ∧
      ∀ cut ∈ (fragment.graftFragment c.options.factoryNamespace f.registry).cuts,
        cut.2 ∈ fragment.preorder ∧
        ∃ s ∈ c.slots template ids, s.token = cut.1 ∧
          f.registry.get? cut.1 = some s.placeholder ∧
          s.placeholder.role.token? cut.2 = some s.token ∧
          ((∀ s' ∈ c.slots template ids, s'.StandsApart f.source.toList tokens) →
            s.token ≠ "return" →
            (∀ t ∈ tokens, s.isSpelledBy t = true → '\\' ∉ t.text.toList) →
            (∀ t ∈ tokens, s.isSpelledBy t = true → t.start = s.tokenStart) ∧
              cut.2.span = some s.span) := by
  have hlays := lays_of_compileTemplate hf
  have hexpand : f.expand c.options.factoryNamespace = .ok e := by
    obtain ⟨compiled, ids'', hc⟩ := (⟨_, _, rfl⟩ :
      ∃ f ids'', c.compileTemplate template ids = (f, ids''))
    rw [hc] at hf
    obtain rfl : compiled = some f := hf
    rw [Compilation.expandTemplate, hc] at h
    exact (Prod.mk.inj h).1
  obtain ⟨fragment, hparse, htree⟩ := Fragment.expand_eq_ok hexpand
  obtain ⟨tokens, hscan, hlocated⟩ := parse_allLocated hparse
  have hconforms : fragment.Conforms := fun m hm => ((parse_allRead hparse).1 m hm).shaped.fields
  have hsound : (fragment.graftFragment c.options.factoryNamespace f.registry).Sound f.registry
      [fragment] := fragment.graftFragment_sound f.registry
  refine ⟨tokens, fragment, hscan, hparse, ?_, hsound.nodup, fun cut hcut => ?_⟩
  · rw [htree, Node.splice_synthesize fragment f.registry hconforms]
  · obtain ⟨⟨n, hn, hmem⟩, p, hp, hrole⟩ := hsound.cuts cut hcut
    obtain rfl := List.mem_singleton.mp hn
    obtain ⟨s, hs, htoken, rfl⟩ := hlays.exists_slot hp
    rw [← htoken] at hrole
    refine ⟨hmem, s, hs, htoken, hp, hrole, fun hapart hreturn hescape => ?_⟩
    have hlone : ∀ t ∈ tokens, s.isSpelledBy t = true → t.start = s.tokenStart := fun t ht hspelled =>
      hlays.written.start_eq hscan hapart hs hreturn ht hspelled (hescape t ht hspelled)
    exact ⟨hlone, s.span_eq (hlays.written.isName s hs).isNameLike (hlays.written.lies s hs)
      (hlocated cut.2 hmem) (fun t ht => ht.2) hrole fun t ht => hlone t ht.1⟩

/-- One substitution for each way to write a token: every one of them stands on its slot. -/
theorem Compilation.expandTemplate_places_roles :
    ∃ program, program = Program.ofFiles (SourceFile.parse "a.ts"
      ("import \x7b f \x7d from \"ts-transform-creator\"; function b(p): Block \x7b\x7d " ++
      "function r(p): ReturnStatement \x7b\x7d function s(p): StringLiteral \x7b\x7d " ++
      "f`if (x) $\x7br\x7d $\x7bb\x7d $\x7bs\x7d + $\x7be\x7d`;")).toOption.toList ∧
    ∃ file ∈ program.files, ∃ template ∈ file.tree.preorder, ∃ e ids' f fragment,
      expandTemplate ⟨program.model, {}⟩ template .sequential = (.ok e, ids') ∧
      (compileTemplate ⟨program.model, {}⟩ template .sequential).1 = some f ∧
      parse f.source = .ok fragment ∧ (fragment.graftFragment "ts" f.registry).cuts.length = 4 ∧
      ∀ cut ∈ (fragment.graftFragment "ts" f.registry).cuts,
        ∃ s ∈ slots ⟨program.model, {}⟩ template .sequential,
          s.token = cut.1 ∧ cut.2.span = some s.span := by
  obtain ⟨program, hprogram, hcheck⟩ : ∃ program, program = Program.ofFiles (SourceFile.parse "a.ts"
      ("import \x7b f \x7d from \"ts-transform-creator\"; function b(p): Block \x7b\x7d " ++
      "function r(p): ReturnStatement \x7b\x7d function s(p): StringLiteral \x7b\x7d " ++
      "f`if (x) $\x7br\x7d $\x7bb\x7d $\x7bs\x7d + $\x7be\x7d`;")).toOption.toList ∧
      program.files.any (fun file => file.tree.preorder.any fun template =>
        (expandTemplate ⟨program.model, {}⟩ template .sequential).1.toOption.any fun _ =>
        (compileTemplate ⟨program.model, {}⟩ template .sequential).1.any fun f =>
        (Token.scan f.source).toOption.any fun tokens =>
        (parse f.source).toOption.any fun fragment =>
          (fragment.graftFragment "ts" f.registry).cuts.length = 4 &&
          (slots ⟨program.model, {}⟩ template .sequential).all fun s =>
            s.StandsApart f.source.toList tokens && s.token ≠ "return" &&
              tokens.all fun t => !s.isSpelledBy t || '\\' ∉ t.text.toList) = true :=
    ⟨_, rfl, by decide +kernel⟩
  obtain ⟨file, hfile, h⟩ := List.any_eq_true.mp hcheck
  obtain ⟨template, htemplate, h⟩ := List.any_eq_true.mp h
  obtain ⟨e, ids', he, h⟩ := exists_ok_fst_of_any h
  obtain ⟨f, hf, h⟩ := (Option.any_eq_true _ _).mp h
  obtain ⟨tokens, hscan, h⟩ := exists_ok_of_any h
  obtain ⟨fragment, hparse, h⟩ := exists_ok_of_any h
  simp only [Bool.and_eq_true, decide_eq_true_eq, List.all_eq_true, Bool.or_eq_true,
    Bool.not_eq_true'] at h
  obtain ⟨hlength, hslots⟩ := h
  refine ⟨program, hprogram, file, hfile, template, htemplate, e, ids', f, fragment, he, hf, hparse,
    hlength, fun cut hcut => ?_⟩
  obtain ⟨tokens', fragment', hscan', hparse', -, -, hcuts⟩ :=
    expandTemplate_places _ template .sequential ids' e he f hf
  obtain rfl := Except.ok.inj (hscan.symm.trans hscan')
  obtain rfl := Except.ok.inj (hparse.symm.trans hparse')
  obtain ⟨-, s, hs, htoken, -, -, hspan⟩ := hcuts cut hcut
  refine ⟨s, hs, htoken, (hspan (fun s' hs' => (hslots s' hs').1.1) (hslots s hs).1.2
    fun t ht hspelled => ?_).2⟩
  exact ((hslots s hs).2 t ht).resolve_left (by simp [hspelled])

/-- Two tokens that are written next to each other are read as one word. It is the token of a third
substitution, which goes where none was written for it. -/
theorem Compilation.expandTemplate_misplaces_joined :
    ∃ program, program = Program.ofFiles (SourceFile.parse "a.ts"
      ("import \x7b f \x7d from \"ts-transform-creator\"; " ++
      "f`$\x7ba\x7d$\x7bb\x7d + $\x7bc\x7d`;")).toOption.toList ∧
    ∃ file ∈ program.files, ∃ template ∈ file.tree.preorder, ∃ ids e ids' f fragment,
      expandTemplate ⟨program.model, {}⟩ template ids = (.ok e, ids') ∧
      (compileTemplate ⟨program.model, {}⟩ template ids).1 = some f ∧
      parse f.source = .ok fragment ∧
      ∃ cut ∈ (fragment.graftFragment "ts" f.registry).cuts,
      ∃ s ∈ slots ⟨program.model, {}⟩ template ids, s.token = cut.1 ∧ cut.2.span ≠ some s.span := by
  obtain ⟨program, hprogram, hcheck⟩ : ∃ program, program = Program.ofFiles (SourceFile.parse "a.ts"
      ("import \x7b f \x7d from \"ts-transform-creator\"; " ++
      "f`$\x7ba\x7d$\x7bb\x7d + $\x7bc\x7d`;")).toOption.toList ∧
      program.files.any (fun file => file.tree.preorder.any fun template =>
        (expandTemplate ⟨program.model, {}⟩ template
          (.ofList ["a0", "b0", "a0b0"])).1.toOption.any fun _ =>
        (compileTemplate ⟨program.model, {}⟩ template
          (.ofList ["a0", "b0", "a0b0"])).1.any fun f =>
        (parse f.source).toOption.any fun fragment =>
        (fragment.graftFragment "ts" f.registry).cuts.any fun cut =>
        (slots ⟨program.model, {}⟩ template (.ofList ["a0", "b0", "a0b0"])).any fun s =>
          s.token = cut.1 && cut.2.span ≠ some s.span) = true :=
    ⟨_, rfl, by decide +kernel⟩
  obtain ⟨file, hfile, h⟩ := List.any_eq_true.mp hcheck
  obtain ⟨template, htemplate, h⟩ := List.any_eq_true.mp h
  obtain ⟨e, ids', he, h⟩ := exists_ok_fst_of_any h
  obtain ⟨f, hf, h⟩ := (Option.any_eq_true _ _).mp h
  obtain ⟨fragment, hparse, h⟩ := exists_ok_of_any h
  obtain ⟨cut, hcut, h⟩ := List.any_eq_true.mp h
  obtain ⟨s, hs, h⟩ := List.any_eq_true.mp h
  simp only [Bool.and_eq_true, decide_eq_true_eq] at h
  exact ⟨program, hprogram, file, hfile, template, htemplate, _, e, ids', f, fragment, he, hf,
    hparse, cut, hcut, s, hs, h⟩

end Quasiquote
