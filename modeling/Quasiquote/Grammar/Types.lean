import Quasiquote.Grammar.Parser
import Quasiquote.Tree.KeywordType

namespace Quasiquote.Grammar

open Quasiquote.Parser

def typeArguments (g : Grammar) : Parser (List Node) := do
  expect .less "type arguments"
  let types ← commaList .greater (pure ()) g.typeNode
  expect .greater "type arguments"
  return types

def parameter (g : Grammar) : Parser Node := do
  let start ← here
  let rest ← eat .ellipsis
  let name ← identifier "parameter"
  let optional ← eat .question
  let type ← announced .colon g.typeNode
  let initializer ← announced .assign g.expression
  finish .parameter start
    [.flag rest, .node name, .flag optional, .ofOption type, .ofOption initializer]

def parameters (g : Grammar) : Parser (List Node) := do
  expect .parenOpen "parameter list"
  let parameters ← commaList .parenClose (pure ()) g.parameter
  expect .parenClose "parameter list"
  return parameters

def typeParameter (g : Grammar) : Parser Node := do
  let start ← here
  let name ← identifier "type parameter"
  let constraint ← if ← eatWord "extends" then some <$> g.typeNode else pure none
  let default ← announced .assign g.typeNode
  finish .typeParameter start [.node name, .ofOption constraint, .ofOption default]

def typeParameters (g : Grammar) : Parser (List Node) := do
  if ← eat .less then
    let parameters ← commaList .greater (pure ()) g.typeParameter
    expect .greater "type parameter list"
    return parameters
  else return []

def functionType (g : Grammar) : Parser Node := do
  let start ← here
  let typeParameters ← g.typeParameters
  let parameters ← g.parameters
  expect .arrow "function type"
  let result ← g.typeNode
  finish .functionType start [.list typeParameters, .list parameters, .node result]

def propertySignature (g : Grammar) : Parser Node := do
  let start ← here
  let name ←
    if (← current).kind = .string then stringLiteral else identifierName "property signature"
  let optional ← eat .question
  let type ← announced .colon g.typeNode
  finish .propertySignature start [.node name, .flag optional, .ofOption type]

def memberSeparator : Parser Bool := do
  if ← eat .semicolon then return true
  if ← eat .comma then return true
  return (← current).newlineBefore

def typeLiteral (g : Grammar) : Parser Node := do
  let start ← here
  expect .braceOpen "type literal"
  let members ← loop [] fun members => do
    if ← atPunct .braceClose then return (members, false)
    if ← atEof then reject .missingClosingBrace "type literal"
    let member ← g.propertySignature
    let more ← memberSeparator
    return (members ++ [member], more)
  expect .braceClose "type literal"
  finish .typeLiteral start [.list members]

def typeReference (g : Grammar) : Parser Node := do
  let start ← here
  let first ← identifierName "type reference"
  let name ← loop first fun name => do
    if ← eat .dot then
      let right ← identifierName "qualified name"
      let qualified ← finish .qualifiedName start [.node name, .node right]
      return (qualified, true)
    else return (name, false)
  let arguments ← if ← atPunct .less then g.typeArguments else pure []
  finish .typeReference start [.node name, .list arguments]

def wordType (g : Grammar) (word : String) : Parser Node := do
  let start ← here
  if word = "true" || word = "false" then
    let _ ← advance
    let literal ← finish (if word = "true" then .trueKeyword else .falseKeyword) start []
    finish .literalType start [.node literal]
  else if (KeywordType.ofName? word).isSome then
    let _ ← advance
    finish .keywordType start [.text word]
  else g.typeReference

/-- A type without array brackets. A parenthesis is tried as the head of a function type first. -/
def primaryType (g : Grammar) : Parser Node := do
  let start ← here
  let t ← current
  match t.kind with
  | .punct .braceOpen => g.typeLiteral
  | .punct .parenOpen =>
    match ← attempt g.functionType with
    | some function => return function
    | none =>
      let _ ← advance
      let inner ← g.typeNode
      expect .parenClose "parenthesized type"
      return inner
  | .punct .less => g.functionType
  | .string =>
    let literal ← stringLiteral
    finish .literalType start [.node literal]
  | .number =>
    let literal ← numericLiteral
    finish .literalType start [.node literal]
  | .word => g.wordType t.text
  | _ => reject .expectedType "type annotation"

def arrayType (g : Grammar) : Parser Node := do
  let start ← here
  let first ← g.primaryType
  loop first fun type => do
    let closes := (← next?).any fun t => t.kind = .punct .bracketClose
    if (← atPunct .bracketOpen) && closes then
      let _ ← advance
      let _ ← advance
      let array ← finish .arrayType start [.node type]
      return (array, true)
    else return (type, false)

/-- A type: members of a union with bars between them, and perhaps one before the first. -/
def unionType (g : Grammar) : Parser Node := do
  let start ← here
  let _ ← eat .pipe
  let first ← g.arrayType
  let types ← loop [first] fun types => do
    if ← eat .pipe then
      let type ← g.arrayType
      return (types ++ [type], true)
    else return (types, false)
  match types with
  | [type] => return type
  | _ => finish .unionType start [.list types]

end Quasiquote.Grammar
