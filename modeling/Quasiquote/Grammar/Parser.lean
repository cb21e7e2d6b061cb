import Quasiquote.Grammar.ParseError
import Quasiquote.Reading.Basic
import Quasiquote.Token.Operator
import Quasiquote.Tree.Node

namespace Quasiquote

/-- A place in a list of tokens that ends with an end mark, which is never passed. -/
structure Cursor where
  /-- End of the last token that was passed; zero before the first. -/
  last : Nat
  rest : List Token

namespace Cursor

def current (c : Cursor) : Token :=
  c.rest.headD (Token.eofAt c.last)

def next? (c : Cursor) : Option Token :=
  c.rest.tail.head?

def advance (c : Cursor) : Cursor :=
  match c.rest with
  | t :: r => if t.kind = .eof then c else ⟨t.stop, r⟩
  | [] => c

end Cursor

abbrev Parser : Type → Type :=
  Reader Cursor ParseError

namespace Parser

export Reader (starve attempt)

def current : Parser Token :=
  fun c => .done c.current c

def next? : Parser (Option Token) :=
  fun c => .done c.next? c

def advance : Parser Token :=
  fun c => .done c.current c.advance

def here : Parser Nat :=
  fun c => .done c.current.start c

def atPunct (p : Punct) : Parser Bool :=
  fun c => .done (c.current.kind = .punct p) c

def atWord (word : String) : Parser Bool :=
  fun c => .done (c.current.isWord word) c

def atEof : Parser Bool :=
  fun c => .done (c.current.kind = .eof) c

def eat (p : Punct) : Parser Bool :=
  fun c => if c.current.kind = .punct p then .done true c.advance else .done false c

def eatWord (word : String) : Parser Bool :=
  fun c => if c.current.isWord word then .done true c.advance else .done false c

/-- The error at the current token. At the end of the input a token that is missing or out of place
is an unexpected end. -/
def errorAt (c : Cursor) (kind : ParseErrorKind) (context : String) (expected : List String) :
    ParseError :=
  let t := c.current
  if t.kind = .eof then
    let kind := match kind with
      | .expectedToken | .unexpectedToken => .unexpectedEof
      | _ => kind
    ⟨kind, t.start, context, expected, some "end of input"⟩
  else ⟨kind, t.start, context, expected, some ("'" ++ t.text ++ "'")⟩

def reject {α : Type} (kind : ParseErrorKind) (context : String) (expected : List String := []) :
    Parser α :=
  fun c => .rejected (errorAt c kind context expected)

def quoted (text : String) : String :=
  "'" ++ text ++ "'"

def missing : Punct → ParseErrorKind
  | .braceClose => .missingClosingBrace
  | .parenClose => .missingClosingParen
  | _ => .expectedToken

def expect (p : Punct) (context : String) : Parser Unit := do
  unless ← eat p do
    reject (missing p) context [quoted p.text]

def expectWord (word context : String) : Parser Unit := do
  unless ← eatWord word do
    reject .expectedToken context [quoted word]

/-- A node of `kind` from byte `start` to the end of the last token passed. -/
def finish (kind : Kind) (start : Nat) (fields : List Field) : Parser Node :=
  fun c => .done (.mk kind { span := some ⟨start, max c.last start⟩ } fields) c

/-- Repeat a step as long as it asks for another round. Each such round has to pass a token, so the
number of tokens left bounds the rounds. -/
def loop {α : Type} (a : α) (step : α → Parser (α × Bool)) : Parser α :=
  fun c => Reader.loopWithin step (c.rest.length + 1) a c

/-- Items with commas between them, up to `close`; a comma may stand before it. What `atEnd` does
comes before each item. -/
def commaList {α : Type} (close : Punct) (atEnd : Parser Unit) (item : Parser α) :
    Parser (List α) :=
  loop [] fun items => do
    if ← atPunct close then return (items, false)
    atEnd
    let x ← item
    let more ← eat .comma
    return (items ++ [x], more)

/-- Accept a semicolon, or none before a closing brace, the end of the input or a new line. -/
def semicolon (context : String) : Parser Unit := do
  if ← eat .semicolon then return
  if (← atPunct .braceClose) || (← atEof) || (← current).newlineBefore then return
  reject .missingSemicolon context ["';'"]

end Parser

def reservedWords : List String :=
  ["break", "case", "catch", "class", "const", "continue", "debugger", "default", "delete", "do",
   "else", "enum", "export", "extends", "finally", "for", "function", "if", "import", "in",
   "instanceof", "new", "return", "super", "switch", "throw", "try", "typeof", "var", "void",
   "while", "with", "true", "false", "null", "this"]

def isReserved (word : String) : Bool :=
  reservedWords.contains word

namespace Parser

def identifier (context : String) : Parser Node := do
  let t ← current
  if t.kind ≠ .word then reject .expectedIdentifier context
  else if isReserved t.text then reject .reservedWord context
  else
    let t ← advance
    finish .identifier t.start [.text t.text]

def identifierName (context : String) : Parser Node := do
  let t ← current
  if t.kind ≠ .word then reject .expectedIdentifier context
  else
    let t ← advance
    finish .identifier t.start [.text t.text]

def stringLiteral : Parser Node := do
  let t ← advance
  finish .stringLiteral t.start [.text t.value, .flag t.singleQuote]

def numericLiteral : Parser Node := do
  let t ← advance
  finish .numericLiteral t.start [.text t.text]

def announced (mark : Punct) (p : Parser Node) : Parser (Option Node) := do
  if ← eat mark then
    let n ← p
    return some n
  else return none

end Parser

structure Grammar where
  statement : Parser Node
  expression : Parser Node
  /-- Operators with at least a given power, and their operands. -/
  operation : Nat → Parser Node
  /-- An operand with the signs before it. -/
  operand : Parser Node
  typeNode : Parser Node

end Quasiquote
