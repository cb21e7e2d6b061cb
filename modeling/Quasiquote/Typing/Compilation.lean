import Quasiquote.Options.Basic
import Quasiquote.Program.Model
import Quasiquote.Tree.Conform
import Quasiquote.Typing.Basic

namespace Quasiquote

/-- A program whose names are resolved, with the options for its expansion. -/
structure Compilation where
  model : Model
  options : Options

namespace Compilation

def importsFactories (c : Compilation) (declaration : Node) : Bool :=
  (declaration.kind = .importClause || declaration.kind = .namespaceImport)
    && c.model.importModule? declaration = some c.options.factoryModule

def isFactoryNamespace (c : Compilation) (expression : Node) : Bool :=
  ((c.model.resolve? expression).bind fun s => (c.model.declarations s).head?).any
    c.importsFactories

/-- The object of a member access; a `factory` between the namespace and the member is passed
over. -/
def memberObject? (access : Node) : Option Node := do
  let object ← access.child? .expression
  if object.kind = .propertyAccessExpression
      && ((object.child? .name).bind Node.identifier?) = some "factory" then
    object.child? .expression
  else some object

def factoryType (kind : Kind) : Ty :=
  .function (.named kind.name)

def memberType? (c : Compilation) (access : Node) : Option Ty := do
  let name ← access.child? .name
  let kind ← Kind.ofFactoryName? (← name.identifier?)
  if c.isFactoryNamespace (← memberObject? access) then some (factoryType kind) else none

/-- The type of what a specifier imports from the module of the tag or of the factories. -/
def specifierType? (c : Compilation) (specifier : Node) : Option Ty := do
  let module ← c.model.importModule? specifier
  if module = c.options.moduleSpecifier then some (.function .nodeFactory)
  else if module = c.options.factoryModule then do
    let name ← (specifier.child? .propertyName).orElse fun _ => specifier.child? .name
    let kind ← Kind.ofFactoryName? (← name.identifier?)
    some (factoryType kind)
  else none

def importedType? (c : Compilation) (s : Symbol) : Option Ty := do
  if c.model.kind s ≠ .imported then none else
  let declaration ← (c.model.declarations s).head?
  if declaration.kind = .importSpecifier then c.specifierType? declaration else none

def functionTypeWith (expressionType : Node → Ty) (function : Node) : Ty :=
  match function.child? .typeNode with
  | some annotated => .function annotated.writtenType
  | none =>
    match function.child? .body with
    | some body =>
      if body.kind = .block then
        match body.firstReturn with
        | some expression => .function (expressionType expression)
        | none => .function (.primitive .void)
      else .function (expressionType body)
    | none => .function .unknown

/-- The type of a variable or a parameter by its annotation, else by its initial value. -/
def variableTypeWith (expressionType : Node → Ty) (declaration : Node) : Ty :=
  match declaration.child? .typeNode with
  | some annotated => annotated.writtenType
  | none => ((declaration.child? .initializer).map expressionType).getD .unknown

mutual

def symbolTypeWithin (c : Compilation) : Nat → Symbol → Ty
  | 0, _ => .unknown
  | steps + 1, s =>
    match c.importedType? s with
    | some t => t
    | none =>
      match (c.model.declarations (c.model.aliased s)).head? with
      | none => .unknown
      | some declaration =>
        match declaration.kind with
        | .variableDeclaration | .parameter =>
          variableTypeWith (fun e => c.expressionTypeWithin steps e) declaration
        | .functionDeclaration | .functionExpression | .arrowFunction =>
          c.functionTypeWithin steps declaration
        | _ => .unknown

def functionTypeWithin (c : Compilation) : Nat → Node → Ty
  | 0, function => functionTypeWith (fun _ => .unknown) function
  | steps + 1, function => functionTypeWith (fun e => c.expressionTypeWithin steps e) function

def expressionTypeWithin (c : Compilation) : Nat → Node → Ty
  | 0, _ => .unknown
  | steps + 1, e =>
    let typeOf (child : Option Node) : Ty :=
      (child.map fun inner => c.expressionTypeWithin steps inner).getD .unknown
    match e.kind with
    | .identifier =>
      match c.model.resolve? e with
      | some s => c.symbolTypeWithin steps s
      | none => .unknown
    | .functionDeclaration | .functionExpression | .arrowFunction => c.functionTypeWithin steps e
    | .callExpression => (typeOf (e.child? .expression)).result?.getD .unknown
    | .taggedTemplateExpression => (typeOf (e.child? .tag)).result?.getD .unknown
    | .conditionalExpression =>
      let whenTrue := typeOf (e.child? .whenTrue)
      if whenTrue = typeOf (e.child? .whenFalse) then whenTrue else .unknown
    | .parenthesizedExpression => typeOf (e.child? .expression)
    | .asExpression => ((e.child? .typeNode).map Node.writtenType).getD .unknown
    | .propertyAccessExpression => (c.memberType? e).getD .unknown
    | .stringLiteral | .noSubstitutionTemplateLiteral | .templateExpression => .primitive .string
    | .numericLiteral => .primitive .number
    | .trueKeyword | .falseKeyword => .primitive .boolean
    | .nullKeyword => .primitive .null
    | _ => .unknown

end

def typeSteps : Nat := 33

def symbolType (c : Compilation) (s : Symbol) : Ty :=
  c.symbolTypeWithin typeSteps s

def expressionType (c : Compilation) (e : Node) : Ty :=
  c.expressionTypeWithin typeSteps e

end Compilation

end Quasiquote
