import Quasiquote.Expansion.Pass

namespace Quasiquote

/-- An expansion in which new nodes draw identities from a counter. -/
abbrev DrawingPass := StateT Nat Pass

namespace Registry

def drawEntries : List (String × Placeholder) → Nat → List (String × Placeholder) × Nat
  | [], next => ([], next)
  | (token, p) :: rest, next =>
    let (payload, next) := p.payload.number next
    let (rest, next) := drawEntries rest next
    ((token, { p with payload }) :: rest, next)

def draw (r : Registry) (next : Nat) : Registry × Nat :=
  let (entries, next) := drawEntries r.entries next
  (⟨entries⟩, next)

end Registry

/-- The calls in the payloads draw as they are registered, and what splicing builds around them draws
after that. A payload that were spliced twice would bring its identities twice. -/
def Fragment.expandDrawing (f : Fragment) (namespaceName : String) (next : Nat) :
    Except FragmentError Expansion × Nat :=
  let (registry, next) := f.registry.draw next
  match { f with registry }.expand namespaceName with
  | .error e => (.error e, next)
  | .ok e =>
    let (tree, next) := e.tree.number next
    (.ok { e with tree }, next)

def Compilation.expandTemplateDrawing (c : Compilation) (template : Node) (ids : IdSupply)
    (next : Nat) : (Except FragmentError Expansion × IdSupply) × Nat :=
  match c.compileTemplate template ids with
  | (none, ids) =>
    let (tree, next) := (Node.factoryCall c.options.factoryNamespace .emptyStatement []).number next
    ((.ok { tree }, ids), next)
  | (some f, ids) =>
    let (outcome, next) := f.expandDrawing c.options.factoryNamespace next
    ((outcome, ids), next)

namespace DrawingPass

def draw (n : Node) : DrawingPass Node :=
  modifyGet n.number

def finish : Except ExpansionError (Node × Nat) × Progress →
    Except ExpansionError (ExpandedFile × Nat) × IdSupply
  | (.ok (tree, next), s) => (.ok (⟨tree, s.diagnostics, s.expansions⟩, next), s.ids)
  | (.error e, s) => (.error e, s.ids)

end DrawingPass

namespace FilePass

open DrawingPass

def expandSiteDrawing (p : FilePass) (site : Node) : DrawingPass Node := do
  match site.child? .template with
  | none => return site
  | some template =>
    let progress ← getThe Progress
    let result ← modifyGet (p.compilation.expandTemplateDrawing template progress.ids)
    draw (← p.conclude site result)

def expandWithinDrawing (p : FilePass) : Nat → Node → DrawingPass Node
  | 0, n => return n
  | depth + 1, n =>
    n.replaceM (p.compilation.model.isUseSite p.imports) fun site => do
      p.expandWithinDrawing depth (← p.expandSiteDrawing site)

def expandAllDrawing (p : FilePass) (n : Node) : DrawingPass Node :=
  p.expandWithinDrawing (nestingBound n) n

end FilePass

/-- The expansion of a file in which every new node draws an identity, from `next` on. The counter
that is left comes with the result. -/
def Compilation.expandFileDrawing (c : Compilation) (file : SourceFile) (ids : IdSupply)
    (next : Nat) : Except ExpansionError (ExpandedFile × Nat) × IdSupply :=
  match tagImports file.tree c.options.moduleSpecifier with
  | .error e => (.error { cause := .invalidModuleSpecifier e, file := file.name }, ids)
  | .ok [] => (.ok ({ tree := file.tree }, next), ids)
  | .ok imports =>
    let p : FilePass := ⟨c, file, imports⟩
    let pass : DrawingPass Node := do
      DrawingPass.draw (← p.withFactoryImport (← p.expandAllDrawing file.tree))
    DrawingPass.finish ((pass.run next).run.run { ids })

end Quasiquote
