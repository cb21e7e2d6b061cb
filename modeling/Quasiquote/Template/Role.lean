import Quasiquote.Builder.Evaluate

namespace Quasiquote

inductive Role
  | expression | identifier | block | returnStatement | stringLiteral
  deriving DecidableEq

inductive Encoding
  | quoted | bare | braced | returned
  deriving DecidableEq

inductive Pattern
  | stringLiteral | identifier | blockOfIdentifier | returnOfIdentifier
  deriving DecidableEq

namespace Role

def all : List Role :=
  [expression, identifier, block, returnStatement, stringLiteral]

def name : Role → String
  | expression => "expression"
  | identifier => "identifier"
  | block => "block"
  | returnStatement => "return statement"
  | stringLiteral => "string literal"

def ofTypeName : String → Role
  | "StringLiteral" | "StringLiteralLike" | "NoSubstitutionTemplateLiteral" => stringLiteral
  | "Identifier" => identifier
  | "Block" => block
  | "ReturnStatement" => returnStatement
  | _ => expression

def encoding : Role → Encoding
  | expression | identifier => .bare
  | block => .braced
  | returnStatement => .returned
  | stringLiteral => .quoted

def pattern : Role → Pattern
  | expression | identifier => .identifier
  | block => .blockOfIdentifier
  | returnStatement => .returnOfIdentifier
  | stringLiteral => .stringLiteral

end Role

def Encoding.encode (token : String) : Encoding → String
  | quoted => "\"" ++ token ++ "\""
  | bare => token
  | braced => "\x7b" ++ token ++ "\x7d"
  | returned => "return " ++ token ++ ";"

namespace Pattern

def all : List Pattern :=
  [blockOfIdentifier, returnOfIdentifier, stringLiteral, identifier]

def stringArgument? (n : Node) : Option String :=
  if n.kind = .stringLiteral then n.text? .text else none

def identifierToken? (namespaceName : String) (n : Node) : Option String :=
  match n.factoryArguments? namespaceName .identifier with
  | some [text] => stringArgument? text
  | _ => none

def onlyStatement? (namespaceName : String) (n : Node) : Option Node :=
  match n.factoryArguments? namespaceName .block with
  | some [statements] =>
    if statements.kind = .arrayLiteralExpression then
      match statements.list .elements with
      | [statement] => some statement
      | _ => none
    else none
  | _ => none

def token? (namespaceName : String) (n : Node) : Pattern → Option String
  | stringLiteral =>
    match n.factoryArguments? namespaceName .stringLiteral with
    | some (text :: _) => stringArgument? text
    | _ => none
  | identifier => identifierToken? namespaceName n
  | blockOfIdentifier =>
    match (onlyStatement? namespaceName n).bind
        (Node.factoryArguments? namespaceName .expressionStatement) with
    | some [expression] => identifierToken? namespaceName expression
    | _ => none
  | returnOfIdentifier =>
    match n.factoryArguments? namespaceName .returnStatement with
    | some [expression] => identifierToken? namespaceName expression
    | _ => none

end Pattern

end Quasiquote
