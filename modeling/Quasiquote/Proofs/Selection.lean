import Quasiquote.Expansion.Site
import Quasiquote.Proofs.RoundTrip.Selectors
import Quasiquote.Proofs.TopLevel

namespace Quasiquote

namespace Selector

def ofModule (module : String) : Selector :=
  [.mk (some .importDeclaration) [⟨["moduleSpecifier", "text"], some (.text module)⟩] []]

theorem writable_ofModule (module : String) : (ofModule module).Writable := by
  have hwords : IsFieldName "moduleSpecifier" ∧ IsFieldName "text" :=
    ⟨by decide, by decide⟩
  simp [ofModule, Writable, Compound.writable_mk_iff, Attribute.writable_iff, hwords]

theorem parse_ofModule (module : String) :
    parse ("ImportDeclaration[moduleSpecifier.text=" ++ quoteValue module ++ "]") =
      .ok (ofModule module) := by
  apply parse_written (writable_ofModule module)
  simp [ofModule, written, Compound.written, writtenKind, Kind.name, writtenBelow,
    Attribute.written, Attribute.writtenPath, Attribute.writtenValue, AttributeValue.written]

end Selector

def Node.moduleField? (n : Node) : Option Field :=
  (n.child? .moduleSpecifier).bind fun c => c.field? .text

def Node.IsImportOf (module : String) (n : Node) : Prop :=
  (Selector.ofModule module).matches n [] = true

namespace Node

variable {n tree : Node} {module : String} {imports : List Node}

theorem isImportOf_iff : n.IsImportOf module ↔ n.kind = .importDeclaration ∧
    Attribute.holds ⟨["moduleSpecifier", "text"], some (.text module)⟩ n = true := by
  simp only [IsImportOf, Selector.matches, Selector.ofModule, Selector.matchesChain,
    Selector.climb, Compound.matches, Selector.allBelow, Option.all_some, List.all_cons,
    List.all_nil, Bool.and_true, Bool.and_eq_true, decide_eq_true_eq]
  rw [eq_comm]

theorem target?_moduleSpecifier (n : Node) :
    Attribute.target? n ["moduleSpecifier", "text"] = n.moduleField? := by
  have hspecifier : Label.ofSpelling? "moduleSpecifier" = some .moduleSpecifier := by decide
  have htext : Label.ofSpelling? "text" = some .text := by decide
  simp only [Attribute.target?, Attribute.childNamed?, Attribute.fieldNamed?, hspecifier, htext,
    Option.bind_some, moduleField?]
  congr 1
  funext c
  cases c.field? .text <;> rfl

theorem IsImportOf.eq_module {name : String} (h : n.IsImportOf module)
    (hname : n.moduleField? = some (.text name)) : name = module := by
  have hholds := (isImportOf_iff.mp h).2
  rw [Attribute.holds, target?_moduleSpecifier, hname] at hholds
  simpa using hholds

theorem mem_tagImports_iff (h : tagImports tree module = .ok imports) {s : Node} :
    s ∈ imports ↔ s ∈ tree.preorder ∧ s.IsImportOf module := by
  rw [tagImports, query, Selector.parse_ofModule] at h
  obtain rfl : (Selector.ofModule module).select tree = imports := Except.ok.inj h
  rw [← tree.map_node_entriesUnder [], Selector.select, List.mem_map, List.mem_map]
  constructor
  · rintro ⟨e, he, rfl⟩
    obtain ⟨he, hmatches⟩ := List.mem_filter.mp he
    exact ⟨⟨e, he, rfl⟩, hmatches⟩
  · rintro ⟨⟨e, he, rfl⟩, hmatches⟩
    exact ⟨e, List.mem_filter.mpr ⟨he, hmatches⟩, rfl⟩

theorem exists_tagImports (tree : Node) (module : String) :
    ∃ imports, tagImports tree module = .ok imports := by
  rw [tagImports, query, Selector.parse_ofModule]
  exact ⟨_, rfl⟩

end Node

end Quasiquote
