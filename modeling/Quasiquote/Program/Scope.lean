import Quasiquote.Program.Basic
import Quasiquote.Program.ModulePath

namespace Quasiquote

inductive SymbolKind
  | imported | importedModule | variableName | functionName | parameterName
  deriving DecidableEq

inductive Symbol
  | named (scope : Nat) (name : String)
  | anonymous (function : Nat)
  deriving DecidableEq

def anonymousName : String := "__function"

def Symbol.name : Symbol → String
  | named _ name => name
  | anonymous _ => anonymousName

structure ImportLink where
  specifier : String
  exported : String

structure Binding where
  name : String
  nameNode : Node
  declaration : Node
  kind : SymbolKind
  link : Option ImportLink := none

namespace Binding

def ofName (kind : SymbolKind) (declaration : Node) (nameNode : Option Node)
    (link : Option ImportLink := none) : List Binding :=
  match nameNode with
  | some n =>
    match n.identifier? with
    | some name => [⟨name, n, declaration, kind, link⟩]
    | none => []
  | none => []

def ofSpecifier (specifier : String) (element : Node) : List Binding :=
  let imported := (element.child? .propertyName).orElse fun _ => element.child? .name
  let exported := (imported.bind Node.identifier?).getD ""
  let link := if ModulePath.isRelative specifier then some ⟨specifier, exported⟩ else none
  ofName .imported element (element.child? .name) link

def ofImport (declaration : Node) : List Binding :=
  match declaration.child? .importClause with
  | none => []
  | some clause =>
    let specifier := ((declaration.child? .moduleSpecifier).bind (·.text? .text)).getD ""
    let module := ofName .imported clause (clause.child? .name)
    let names := match clause.child? .namedBindings with
      | none => []
      | some bindings =>
        if bindings.kind = .namespaceImport then
          ofName .importedModule bindings (bindings.child? .name)
        else (bindings.list .elements).flatMap (ofSpecifier specifier)
    module ++ names

def ofDeclarationList (declarations : Node) : List Binding :=
  (declarations.list .declarations).flatMap fun d => ofName .variableName d (d.child? .name)

def ofVariables (statement : Node) (isVar : Bool) : List Binding :=
  match statement.child? .declarationList with
  | some declarations =>
    if (declarations.text? .keyword = some "var") = isVar then ofDeclarationList declarations
    else []
  | none => []

def ofStatement (statement : Node) : List Binding :=
  match statement.kind with
  | .importDeclaration => ofImport statement
  | .variableStatement => ofVariables statement false
  | .functionDeclaration => ofName .functionName statement (statement.child? .name)
  | _ => []

/-- Variables that a statement declares in the function it stands in, from inside blocks and
branches too. -/
def ofVars (statement : Node) : List Binding :=
  match statement.kind with
  | .variableStatement => ofVariables statement true
  | .block => (statement.smallerList .statements).flatMap fun ⟨s, _⟩ => ofVars s
  | .ifStatement =>
    ((statement.smaller? .thenStatement).elim [] fun ⟨s, _⟩ => ofVars s)
      ++ ((statement.smaller? .elseStatement).elim [] fun ⟨s, _⟩ => ofVars s)
  | _ => []
termination_by sizeOf statement

def hoistedInBlock (statements : List Node) : List Binding :=
  statements.flatMap ofStatement

/-- What the statements of a module or a function body declare, before any of them runs. -/
def hoistedInFunction (statements : List Node) : List Binding :=
  statements.flatMap fun s => ofStatement s ++ ofVars s

def ofOwnName (function : Node) : List Binding :=
  if function.kind = .functionDeclaration then []
  else ofName .functionName function (function.child? .name)

def ofParameters (function : Node) : List Binding :=
  (function.list .parameters).flatMap fun p => ofName .parameterName p (p.child? .name)

end Binding

structure Scope where
  file : String
  /-- The node that opens the scope. -/
  owner : Nat
  bindings : List Binding

namespace Scope

def declares (s : Scope) (name : String) : Bool :=
  s.bindings.any fun b => b.name = name

def symbol? (s : Scope) (name : String) : Option Symbol :=
  if s.declares name then some (.named s.owner name) else none

def lookup (scopes : List Scope) (name : String) : Option Symbol :=
  scopes.findSome? fun s => s.symbol? name

end Scope

structure Bindings where
  resolutions : List (Nat × Symbol) := []
  scopes : List Scope := []

namespace Bindings

def append (a b : Bindings) : Bindings :=
  ⟨a.resolutions ++ b.resolutions, a.scopes ++ b.scopes⟩

def join (parts : List Bindings) : Bindings :=
  ⟨parts.flatMap Bindings.resolutions, parts.flatMap Bindings.scopes⟩

/-- A scope itself: its names and its functions resolve to what they declare. -/
def ofScope (s : Scope) : Bindings :=
  let resolutions := s.bindings.flatMap fun b =>
    let symbol := Symbol.named s.owner b.name
    if b.declaration.kind.isFunctionLike then
      [(b.nameNode.key, symbol), (b.declaration.key, symbol)]
    else [(b.nameNode.key, symbol)]
  ⟨resolutions, [s]⟩

def ofAnonymous (function : Node) : Bindings :=
  if function.kind ≠ .functionDeclaration && (function.child? .name).isNone then
    ⟨[(function.key, .anonymous function.key)], []⟩
  else {}

end Bindings

/-- Whether identifiers in a field are references. Types, names of properties and declared names are
not. -/
def Label.isReference (l : Label) (kind : Kind) : Bool :=
  match l, kind with
  | .typeNode, _ | .typeArguments, _ | .typeParameters, _ => false
  | .constraint, _ | .defaultType, _ => false
  | .name, .propertyAccessExpression | .name, .propertyAssignment | .name, .propertySignature
  | .name, .variableDeclaration | .name, .parameter => false
  | _, .importSpecifier | _, .importClause | _, .namespaceImport => false
  | _, _ => true

namespace Node

def referencing (n : Node) : List Node :=
  (n.kind.schema.zip n.fields).flatMap fun ((label, _), f) =>
    if label.isReference n.kind then f.nodes else []

theorem mem_children_of_mem_referencing {n c : Node} (h : c ∈ n.referencing) : c ∈ n.children := by
  obtain ⟨⟨⟨label, shape⟩, f⟩, hf, hc⟩ := List.mem_flatMap.mp h
  have hmem : f ∈ n.fields := (List.of_mem_zip hf).2
  refine List.mem_flatMap.mpr ⟨f, hmem, ?_⟩
  dsimp only at hc
  split at hc
  · exact hc
  · simp at hc

/-- Resolve the names of a subtree, inside the given scopes, innermost first. The defaults of
parameters see the function's own name and its parameters, its body sees what the body declares
too. -/
def bindings (file : String) (scopes : List Scope) (n : Node) : Bindings :=
  match n.kind with
  | .importDeclaration => {}
  | .identifier =>
    match n.identifier?.bind (Scope.lookup scopes) with
    | some symbol => ⟨[(n.key, symbol)], []⟩
    | none => {}
  | .block =>
    let scope : Scope := ⟨file, n.key, Binding.hoistedInBlock (n.list .statements)⟩
    let statements := (n.smallerList .statements).map fun ⟨s, _⟩ =>
      bindings file (scope :: scopes) s
    (Bindings.ofScope scope).append (.join statements)
  | .functionDeclaration | .functionExpression | .arrowFunction =>
    let head : Scope := ⟨file, n.key, Binding.ofOwnName n ++ Binding.ofParameters n⟩
    let defaults := (n.smallerList .parameters).map fun ⟨p, hp⟩ =>
      (p.smaller? .initializer).elim {} fun ⟨e, he⟩ =>
        have : sizeOf e < sizeOf n := Nat.lt_trans he hp
        bindings file (head :: scopes) e
    let inside := match n.smaller? .body with
      | none => Bindings.ofScope head
      | some ⟨body, hb⟩ =>
        if body.kind = .block then
          let whole : Scope :=
            { head with
              bindings := head.bindings ++ Binding.hoistedInFunction (body.list .statements) }
          let statements := (body.smallerList .statements).map fun ⟨s, hs⟩ =>
            have : sizeOf s < sizeOf n := Nat.lt_trans hs hb
            bindings file (whole :: scopes) s
          (Bindings.ofScope whole).append (.join statements)
        else (Bindings.ofScope head).append (bindings file (head :: scopes) body)
    (Bindings.ofAnonymous n).append ((Bindings.join defaults).append inside)
  | _ =>
    .join <| n.referencing.attach.map fun ⟨c, h⟩ =>
      have : sizeOf c < sizeOf n := sizeOf_lt_of_mem_children (mem_children_of_mem_referencing h)
      bindings file scopes c
termination_by sizeOf n

end Node

def SourceFile.bindings (file : SourceFile) : Bindings :=
  let statements := file.tree.list .statements
  let scope : Scope := ⟨file.name, file.tree.key, Binding.hoistedInFunction statements⟩
  (Bindings.ofScope scope).append
    (.join (statements.map fun s => s.bindings file.name [scope]))

end Quasiquote
