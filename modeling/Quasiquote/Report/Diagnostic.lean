import Quasiquote.Report.Location

namespace Quasiquote

inductive Severity
  | warning | error
  deriving DecidableEq

def Severity.name : Severity → String
  | warning => "warning"
  | error => "error"

inductive DiagnosticKind
  /-- The type of a substitution is not known. -/
  | unresolvedSubstitution
  /-- A substitution is no function. -/
  | uncallableSubstitution
  /-- A placeholder was not found again, and its substitution is missing in the result. -/
  | unsplicedSubstitution
  /-- The text of a template is not in the language. -/
  | invalidFragment
  | invalidModuleSpecifier
  /-- The namespace of the factories is bound to something else. -/
  | shadowedNamespace
  deriving DecidableEq

structure Diagnostic where
  severity : Severity
  kind : DiagnosticKind
  message : String
  location : Option Location
  deriving DecidableEq

namespace Diagnostic

def warning (kind : DiagnosticKind) (message : String) (location : Location) : Diagnostic :=
  ⟨.warning, kind, message, some location⟩

def text (d : Diagnostic) : String :=
  let place := match d.location with
    | some location => "\n --> " ++ location.text
    | none => ""
  d.severity.name ++ ": " ++ d.message ++ place

end Diagnostic

end Quasiquote
