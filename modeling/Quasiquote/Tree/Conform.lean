import Quasiquote.Tree.Node

namespace Quasiquote

inductive FieldForm
  | node | list | text | flag | absent
  deriving DecidableEq

def FieldForm.name : FieldForm → String
  | node => "node"
  | list => "node list"
  | text => "string"
  | flag => "boolean"
  | absent => "absent"

namespace Field

def form : Field → FieldForm
  | .node _ => .node
  | .list _ => .list
  | .text _ => .text
  | .flag _ => .flag
  | .absent => .absent

def fits (f : Field) (shape : Shape) : Bool :=
  match f.form, shape with
  | .node, .node | .node, .optional | .absent, .optional => true
  | .list, .list | .text, .text | .flag, .flag => true
  | _, _ => false

end Field

inductive SchemaError
  | arity (kind : Kind) (expected found : Nat)
  | shape (kind : Kind) (label : Label) (expected : Shape) (found : FieldForm)
  deriving DecidableEq

def SchemaError.message : SchemaError → String
  | arity kind expected found =>
    kind.name ++ " takes " ++ toString expected ++ " fields, got " ++ toString found
  | shape kind label expected found =>
    "field `" ++ label.spelling ++ "` of " ++ kind.name ++ " expects a " ++ expected.name
      ++ ", got " ++ found.name

def firstMisfit? (kind : Kind) : List (Label × Shape) → List Field → Option SchemaError
  | (label, shape) :: schema, f :: fields =>
    if f.fits shape then firstMisfit? kind schema fields
    else some (.shape kind label shape f.form)
  | _, _ => none

def checkFields (kind : Kind) (fields : List Field) : Except SchemaError Unit :=
  if kind.schema.length ≠ fields.length then
    .error (.arity kind kind.schema.length fields.length)
  else
    match firstMisfit? kind kind.schema fields with
    | some e => .error e
    | none => .ok ()

structure FactoryError where
  kind : Kind
  error : SchemaError
  deriving DecidableEq

def Kind.factoryName (k : Kind) : String :=
  "create" ++ k.name

def Kind.ofFactoryName? (s : String) : Option Kind :=
  if "create".toList.isPrefixOf s.toList then Kind.ofName? (String.ofList (s.toList.drop 6))
  else none

def FactoryError.message (e : FactoryError) : String :=
  e.kind.factoryName ++ ": " ++ e.error.message

def Node.create (kind : Kind) (fields : List Field) : Except FactoryError Node :=
  match checkFields kind fields with
  | .ok () => .ok (.plain kind fields)
  | .error error => .error ⟨kind, error⟩

end Quasiquote
