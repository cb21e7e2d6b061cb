import Quasiquote.Builder.Synthesize
import Quasiquote.Grammar.Module
import Quasiquote.Template.Inference
import Quasiquote.Template.Splice

namespace Quasiquote

structure RoleWarning where
  span : Option Span
  reason : Degradation

/-- The literal text of a template up to its first substitution, and each substitution with the text
after it. -/
structure TemplateParts where
  head : String
  substitutions : List (Node × String)

namespace TemplateParts

def ofTemplate (template : Node) : TemplateParts :=
  if template.kind = .templateExpression then
    ⟨template.text .head, (template.list .templateSpans).filterMap fun s =>
      (s.child? .expression).map fun e => (e, s.text .literal)⟩
  else ⟨template.text .text, []⟩

def literalText (parts : TemplateParts) : String :=
  parts.head ++ String.join (parts.substitutions.map Prod.snd)

def isEmpty (parts : TemplateParts) : Bool :=
  parts.substitutions.isEmpty && parts.literalText.isEmpty

end TemplateParts

structure Fragment where
  source : String
  registry : Registry := {}
  warnings : List RoleWarning := []

/-- What stands for a substitution in the result: a call of it with the parameter. -/
def Compilation.payload (c : Compilation) (substitution : Node) : Node :=
  .call substitution [.identifier c.options.parameterName]

/-- Write a token for one more substitution, and the text after it. The token does not occur in the
literal text of the template. -/
def Fragment.add (c : Compilation) (literalText : String) (f : Fragment) (ids : IdSupply)
    (substitution : Node) (chunk : String) : Fragment × IdSupply :=
  let inference := c.inferRole substitution
  let (token, ids) := f.registry.freshToken ids literalText
  let placeholder : Placeholder := ⟨c.payload substitution, inference.role, substitution.span⟩
  let warnings := inference.degradation.toList.map fun reason => ⟨substitution.span, reason⟩
  (⟨f.source ++ inference.role.encoding.encode token ++ chunk, f.registry.insert token placeholder,
    f.warnings ++ warnings⟩, ids)

def Fragment.addAll (c : Compilation) (literalText : String) :
    Fragment → IdSupply → List (Node × String) → Fragment × IdSupply
  | f, ids, [] => (f, ids)
  | f, ids, (substitution, chunk) :: rest =>
    let (f, ids) := f.add c literalText ids substitution chunk
    Fragment.addAll c literalText f ids rest

def Compilation.compileTemplate (c : Compilation) (template : Node) (ids : IdSupply) :
    Option Fragment × IdSupply :=
  let parts := TemplateParts.ofTemplate template
  if parts.isEmpty then (none, ids)
  else
    let (f, ids) := Fragment.addAll c parts.literalText { source := parts.head } ids
      parts.substitutions
    (some f, ids)

structure FragmentError where
  fragment : String
  error : ParseError

structure Expansion where
  tree : Node
  fragment : Option String := none
  placeholders : Nat := 0
  warnings : List RoleWarning := []
  mismatches : List Unspliced := []

def Fragment.expand (f : Fragment) (namespaceName : String) : Except FragmentError Expansion :=
  match parse f.source with
  | .error error => .error ⟨f.source, error⟩
  | .ok tree =>
    let (tree, left) := (tree.synthesize namespaceName).splice namespaceName f.registry
    .ok ⟨tree, some f.source, f.registry.size, f.warnings, left.unspliced⟩

/-- The expression for a template. An empty template builds an empty statement. -/
def Compilation.expandTemplate (c : Compilation) (template : Node) (ids : IdSupply) :
    Except FragmentError Expansion × IdSupply :=
  match c.compileTemplate template ids with
  | (none, ids) => (.ok { tree := .factoryCall c.options.factoryNamespace .emptyStatement [] }, ids)
  | (some f, ids) => (f.expand c.options.factoryNamespace, ids)

end Quasiquote
