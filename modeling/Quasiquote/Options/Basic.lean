import Quasiquote.Text.Quoted

namespace Quasiquote

inductive ModuleFormat
  /-- It is imported once for a file. -/
  | esModule
  /-- Each function requires it in its body. -/
  | commonJs
  deriving DecidableEq

structure Options where
  /-- The module that the tag is imported from. -/
  moduleSpecifier : String := "ts-transform-creator"
  /-- The module that has the factories. -/
  factoryModule : String := "typescript"
  /-- The name under which generated code finds the factories. -/
  factoryNamespace : String := "ts"
  /-- The parameter of a generated function, to which substitutions are applied. -/
  parameterName : String := "props"
  moduleFormat : ModuleFormat := .esModule
  /-- Whether a file that needs the namespace gets an import of it. -/
  insertFactoryImport : Bool := true
  deriving DecidableEq

inductive OptionsError
  /-- The text is not an object or a list of options. -/
  | malformed
  | notAnIdentifier (key value : String)
  deriving DecidableEq

def OptionsError.message : OptionsError → String
  | malformed => "failed to parse transform options"
  | notAnIdentifier key value =>
    "`" ++ key ++ "` must be an identifier, got " ++ Text.displayed value

namespace Options

/-- A name of letters, digits, underscores and dollar signs of ASCII that begins with no digit. -/
def isIdentifier (text : String) : Bool :=
  match text.toList with
  | [] => false
  | c :: r =>
    (c.isAlpha || c = '_' || c = '$') && r.all fun d => d.isAlphanum || d = '_' || d = '$'

def validate (o : Options) : Except OptionsError Unit :=
  if !isIdentifier o.factoryNamespace then
    .error (.notAnIdentifier "factoryNamespace" o.factoryNamespace)
  else if !isIdentifier o.parameterName then
    .error (.notAnIdentifier "parameterName" o.parameterName)
  else .ok ()

end Options

end Quasiquote
