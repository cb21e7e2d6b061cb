import Quasiquote.Grammar.ParseError
import Quasiquote.Report.Diagnostic
import Quasiquote.Selector.Basic

namespace Quasiquote

inductive ExpansionCause
  | invalidFragment (fragment : String) (error : ParseError)
  /-- The module of the tag cannot be looked for. -/
  | invalidModuleSpecifier (error : SelectorError)

structure ExpansionError where
  cause : ExpansionCause
  file : String
  /-- Where the template stands, if it is the fault of one. -/
  location : Option Location := none

namespace ExpansionError

def description (e : ExpansionError) : String :=
  match e.cause with
  | .invalidFragment _ _ => "template is not valid syntax"
  | .invalidModuleSpecifier _ => "invalid module specifier"

def causeMessage (e : ExpansionError) : String :=
  match e.cause with
  | .invalidFragment _ error => error.message
  | .invalidModuleSpecifier error => error.message

/-- The message with its place. Lines of a fragment are counted from the line of the template. -/
def message (e : ExpansionError) : String :=
  let place := match e.location with
    | some location => " at " ++ location.text
    | none => " in " ++ e.file
  let detail := match e.cause with
    | .invalidFragment fragment error =>
      let lineOffset := (e.location.map fun location => location.line - 1).getD 0
      "\n" ++ error.renderIn fragment e.file lineOffset
    | .invalidModuleSpecifier error => ": " ++ error.message
  e.description ++ place ++ detail

def diagnostic (e : ExpansionError) : Diagnostic :=
  let kind := match e.cause with
    | .invalidFragment _ _ => DiagnosticKind.invalidFragment
    | .invalidModuleSpecifier _ => .invalidModuleSpecifier
  ⟨.error, kind, e.message, e.location⟩

end ExpansionError

end Quasiquote
