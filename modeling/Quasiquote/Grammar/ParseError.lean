import Quasiquote.Report.Snippet
import Quasiquote.Token.LexError

namespace Quasiquote

inductive ParseErrorKind
  | lex (kind : LexErrorKind)
  | unexpectedToken
  | unexpectedEof
  | expectedExpression
  | expectedIdentifier
  | expectedType
  | expectedToken
  | missingSemicolon
  | reservedWord
  | invalidImport
  | missingClosingBrace
  | missingClosingParen
  deriving DecidableEq

def ParseErrorKind.description : ParseErrorKind → String
  | lex kind => kind.description
  | unexpectedToken => "unexpected token"
  | unexpectedEof => "unexpected end of input"
  | expectedExpression => "expected expression"
  | expectedIdentifier => "expected identifier"
  | expectedType => "expected type"
  | expectedToken => "expected token"
  | missingSemicolon => "missing ';' after statement"
  | reservedWord => "reserved word cannot be used as identifier"
  | invalidImport => "invalid import declaration"
  | missingClosingBrace => "missing closing brace '\x7d'"
  | missingClosingParen => "missing closing parenthesis ')'"

structure ParseError where
  kind : ParseErrorKind
  /-- Byte offset. -/
  position : Nat
  /-- What was being read; empty when no token could be read. -/
  context : String := ""
  /-- What would have been accepted. -/
  expected : List String := []
  found : Option String := none
  deriving DecidableEq

namespace ParseError

def ofLexError (e : LexError) : ParseError :=
  { kind := .lex e.kind, position := e.position, found := e.found }

def summary (e : ParseError) : String :=
  if e.context.isEmpty then e.kind.description else e.kind.description ++ " in " ++ e.context

def note (e : ParseError) : Option String :=
  let expected := match e.expected with
    | [] => none
    | [one] => some ("expected " ++ one)
    | many => some ("expected one of " ++ ", ".intercalate many)
  match expected, e.found with
  | some expected, some found => some (expected ++ ", found " ++ found)
  | some expected, none => some expected
  | none, some found => some ("found " ++ found)
  | none, none => none

def message (e : ParseError) : String :=
  let note := match e.note with
    | some note => " (" ++ note ++ ")"
    | none => ""
  e.summary ++ " at position " ++ toString e.position ++ note

/-- The error against the text it was raised for, which stands `lineOffset` lines into a file. -/
def renderIn (e : ParseError) (source filename : String) (lineOffset : Nat) : String :=
  let help := match e.kind with
    | .lex kind => kind.suggestion
    | _ => none
  let snippet : Snippet :=
    { message := e.summary, source, position := e.position, filename, lineOffset, note := e.note,
      help }
  snippet.text

def render (e : ParseError) (source filename : String) : String :=
  e.renderIn source filename 0

end ParseError

end Quasiquote
