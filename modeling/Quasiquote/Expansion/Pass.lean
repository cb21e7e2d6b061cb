import Quasiquote.Expansion.Error
import Quasiquote.Expansion.Site
import Quasiquote.Template.Compile
import Quasiquote.Tree.Replace

namespace Quasiquote

structure Progress where
  ids : IdSupply
  diagnostics : List Diagnostic := []
  expansions : Nat := 0

/-- A step of an expansion. A failure keeps the ids that were drawn before it. -/
abbrev Pass := ExceptT ExpansionError (StateM Progress)

structure FilePass where
  compilation : Compilation
  file : SourceFile
  /-- Its imports of the tag. -/
  imports : List Node

def Degradation.diagnosticKind : Degradation → DiagnosticKind
  | unresolved => .unresolvedSubstitution
  | notCallable _ => .uncallableSubstitution

def Unspliced.message (u : Unspliced) : String :=
  u.role.name ++ " substitution was not spliced into the template; its placeholder `" ++ u.token
    ++ "` remains"

namespace FilePass

def location (p : FilePass) (span : Option Span) : Location :=
  .ofOffset p.file.name p.file.source ((span.map Span.start).getD p.file.source.utf8ByteSize)

def options (p : FilePass) : Options :=
  p.compilation.options

def diagnostics (p : FilePass) (e : Expansion) : List Diagnostic :=
  let warnings := e.warnings.map fun w =>
    Diagnostic.warning w.reason.diagnosticKind w.reason.message (p.location w.span)
  let mismatches := e.mismatches.map fun u =>
    Diagnostic.warning .unsplicedSubstitution u.message (p.location u.span)
  warnings ++ mismatches

def assemble (p : FilePass) (spliced : Node) : Node :=
  let body := match p.options.moduleFormat with
    | .esModule => spliced
    | .commonJs =>
      let required := Node.call (.identifier "require") [.stringLiteral p.options.factoryModule]
      .block [.constStatement p.options.factoryNamespace required, .returnStatement (some spliced)]
  .arrowFunction [.parameter p.options.parameterName] body

/-- What an expansion comes to: the function that replaces the template, with its warnings, or the
failure of the file. -/
def conclude (p : FilePass) (site : Node) (result : Except FragmentError Expansion × IdSupply) :
    Pass Node := do
  modify fun progress => { progress with ids := result.2 }
  match result.1 with
  | .error e =>
    throw ⟨.invalidFragment e.fragment e.error, p.file.name, some (p.location site.span)⟩
  | .ok expansion =>
    modify fun progress =>
      { progress with
        expansions := progress.expansions + 1
        diagnostics := progress.diagnostics ++ p.diagnostics expansion }
    return (p.assemble expansion.tree).withSpan site.span

def expandSite (p : FilePass) (site : Node) : Pass Node := do
  match site.child? .template with
  | none => return site
  | some template =>
    p.conclude site (p.compilation.expandTemplate template (← get).ids)

/-- Expand the templates of a tree, and those that their substitutions bring into the results, down
to a depth of nesting. -/
def expandWithin (p : FilePass) : Nat → Node → Pass Node
  | 0, n => return n
  | depth + 1, n =>
    n.replaceM (p.compilation.model.isUseSite p.imports) fun site => do
      p.expandWithin depth (← p.expandSite site)

/-- The number of templates with a tag, which bounds how deep they are nested. -/
def nestingBound (n : Node) : Nat :=
  n.preorder.countP fun m => m.kind = .taggedTemplateExpression

def expandAll (p : FilePass) (n : Node) : Pass Node :=
  p.expandWithin (nestingBound n) n

/-- The first declaration of the namespace of the factories at the top level of the file. -/
def namespaceDeclaration? (p : FilePass) : Option Node := do
  let model := p.compilation.model
  (model.declarations (← model.moduleBinding? p.file.name p.options.factoryNamespace)).head?

def shadowedMessage (o : Options) : String :=
  "`" ++ o.factoryNamespace ++ "` is bound to something other than an import of \""
    ++ o.factoryModule ++ "\"; the factory import was not inserted"

/-- Import the factories, if expanded templates need them. A file that binds the name of the
namespace gets no import, and a warning if it binds something else. -/
def withFactoryImport (p : FilePass) (tree : Node) : Pass Node := do
  let o := p.options
  if (← get).expansions = 0 || !o.insertFactoryImport || o.moduleFormat ≠ .esModule then
    return tree
  else
    match p.namespaceDeclaration? with
    | none =>
      let statement := Node.defaultImport o.factoryNamespace o.factoryModule
      return tree.withField .statements (.list (statement :: tree.list .statements))
    | some declaration =>
      unless p.compilation.importsFactories declaration do
        let warning :=
          Diagnostic.warning .shadowedNamespace (shadowedMessage o) (p.location declaration.span)
        modify fun progress => { progress with diagnostics := progress.diagnostics ++ [warning] }
      return tree

end FilePass

structure ExpandedFile where
  tree : Node
  diagnostics : List Diagnostic := []
  /-- How many templates were replaced, nested ones included. -/
  expansions : Nat := 0

namespace Compilation

def expandFile (c : Compilation) (file : SourceFile) (ids : IdSupply) :
    Except ExpansionError ExpandedFile × IdSupply :=
  match tagImports file.tree c.options.moduleSpecifier with
  | .error e => (.error { cause := .invalidModuleSpecifier e, file := file.name }, ids)
  | .ok [] => (.ok { tree := file.tree }, ids)
  | .ok imports =>
    let p : FilePass := ⟨c, file, imports⟩
    let pass : Pass Node := do p.withFactoryImport (← p.expandAll file.tree)
    match pass.run.run { ids } with
    | (.ok tree, progress) => (.ok ⟨tree, progress.diagnostics, progress.expansions⟩, progress.ids)
    | (.error e, progress) => (.error e, progress.ids)

def expandFiles (c : Compilation) :
    List SourceFile → IdSupply → List (String × Except ExpansionError ExpandedFile)
  | [], _ => []
  | file :: rest, ids =>
    let (outcome, ids) := c.expandFile file ids
    (file.name, outcome) :: c.expandFiles rest ids

end Compilation

def Program.expand (p : Program) (options : Options) (ids : IdSupply) :
    List (String × Except ExpansionError ExpandedFile) :=
  Compilation.expandFiles ⟨p.model, options⟩ p.files ids

end Quasiquote
