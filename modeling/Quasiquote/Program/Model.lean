import Quasiquote.Program.Scope

namespace Quasiquote

namespace SourceFile

def exportedByStatement (statement : Node) : List String :=
  match statement.kind with
  | .variableStatement =>
    match statement.child? .declarationList with
    | some declarations =>
      (declarations.list .declarations).filterMap fun d => (d.child? .name).bind Node.identifier?
    | none => []
  | .functionDeclaration => ((statement.child? .name).bind Node.identifier?).toList
  | _ => []

def exportedNames (file : SourceFile) : List String :=
  (file.tree.list .statements).flatMap fun s =>
    if s.flag .isExported then exportedByStatement s else []

end SourceFile

structure Model where
  files : List SourceFile
  /-- All nodes of the files with their ancestors. -/
  entries : List Node.Entry
  resolutions : List (Nat × Symbol)
  scopes : List Scope
  /-- What imported symbols stand for, as far as it is declared in the program. -/
  aliases : List (Symbol × Symbol) := []

namespace Model

/-- The symbol that a node refers to or declares. Nodes outside the program have none. -/
def resolve? (m : Model) (n : Node) : Option Symbol :=
  n.id?.bind fun id => m.resolutions.lookup id

def scope? (m : Model) (owner : Nat) : Option Scope :=
  m.scopes.find? fun s => s.owner = owner

def entry? (m : Model) (id : Nat) : Option Node.Entry :=
  m.entries.find? fun e => e.node.id? = some id

def ancestors (m : Model) (n : Node) : List Node :=
  ((n.id?.bind m.entry?).map Node.Entry.ancestors).getD []

/-- Whether a node lies in the subtree of another, which may be the node itself. -/
def isWithin (m : Model) (n root : Node) : Bool :=
  n.id? = root.id? || (m.ancestors n).any fun a => a.id? = root.id?

def bindings (m : Model) : Symbol → List Binding
  | .named owner name =>
    ((m.scope? owner).map fun s => s.bindings.filter fun b => b.name = name).getD []
  | .anonymous _ => []

def declarations (m : Model) : Symbol → List Node
  | .named owner name => (m.bindings (.named owner name)).map Binding.declaration
  | .anonymous function => ((m.entry? function).map Node.Entry.node).toList

def kind (m : Model) (s : Symbol) : SymbolKind :=
  ((m.bindings s).head?.map Binding.kind).getD .functionName

def importModule? (m : Model) (declaration : Node) : Option String := do
  let statement ← (m.ancestors declaration).find? fun a => a.kind = .importDeclaration
  let specifier ← statement.child? .moduleSpecifier
  specifier.text? .text

def lastFile? (m : Model) (name : String) : Option SourceFile :=
  m.files.reverse.find? fun file => file.name = name

def moduleBinding? (m : Model) (file name : String) : Option Symbol := do
  let file ← m.lastFile? file
  let scope ← m.scope? file.tree.key
  scope.symbol? name

def exported? (m : Model) (file name : String) : Option Symbol := do
  let last ← m.lastFile? file
  if name ∈ last.exportedNames then m.moduleBinding? file name else none

def linked? (m : Model) (importer : String) (link : ImportLink) : Option Symbol := do
  let base ← ModulePath.resolve importer link.specifier
  let file ← (ModulePath.candidates base).find? fun name => (m.lastFile? name).isSome
  m.exported? file link.exported

/-- The symbols with a relative import among their declarations and what it stands for. -/
def links (m : Model) : List (Symbol × Symbol) :=
  m.scopes.flatMap fun s => s.bindings.filterMap fun b => do
    let target ← m.linked? s.file (← b.link)
    return (.named s.owner b.name, target)

def lastOfEach (pairs : List (Symbol × Symbol)) : List (Symbol × Symbol) :=
  pairs.foldl (fun table (s, target) => (s, target) :: table.filter fun e => e.1 ≠ s) []

def followAliases (m : Model) : Nat → Symbol → Symbol
  | 0, s => s
  | steps + 1, s =>
    match m.aliases.lookup s with
    | some target => m.followAliases steps target
    | none => s

/-- What a symbol stands for at the end of a chain of imports. Imports that go in a circle are
followed until each of them has been passed. -/
def aliased (m : Model) (s : Symbol) : Symbol :=
  m.followAliases (m.aliases.length + 1) s

end Model

def Program.model (p : Program) : Model :=
  let found := Bindings.join (p.files.map SourceFile.bindings)
  let unlinked : Model :=
    { files := p.files
      entries := p.files.flatMap fun file => file.tree.entries
      resolutions := found.resolutions
      scopes := found.scopes }
  { unlinked with aliases := Model.lastOfEach unlinked.links }

end Quasiquote
