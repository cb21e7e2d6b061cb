import Quasiquote.Template.Role
import Quasiquote.Typing.Compilation

namespace Quasiquote

inductive Degradation
  /-- The type, or the name of the type that a call returns, is not known. -/
  | unresolved
  /-- It is no function. -/
  | notCallable (found : Ty)
  deriving DecidableEq

namespace Degradation

def message : Degradation → String
  | unresolved =>
    "could not resolve the substitution's return type; treating it as an expression"
  | notCallable found =>
    "substitution is not callable (its type is `" ++ found.text
      ++ "`); treating it as an expression"

end Degradation

structure RoleInference where
  role : Role
  degradation : Option Degradation := none
  deriving DecidableEq

namespace RoleInference

def degraded (reason : Degradation) : RoleInference :=
  ⟨.expression, some reason⟩

/-- The role of a function with the given type, by the name of what it returns. -/
def ofType (t : Ty) : RoleInference :=
  if t = .unknown then degraded .unresolved
  else
    match t.result? with
    | none => degraded (.notCallable t)
    | some result =>
      match result.name? with
      | some name => ⟨Role.ofTypeName name, none⟩
      | none => degraded .unresolved

end RoleInference

def Compilation.inferRole (c : Compilation) (substitution : Node) : RoleInference :=
  match c.model.resolve? substitution with
  | some s => .ofType (c.symbolType s)
  | none => .ofType (c.expressionType substitution)

end Quasiquote
