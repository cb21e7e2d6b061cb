import Quasiquote.Text.Alphabetic
import Quasiquote.Text.Blank
import Quasiquote.Text.Numeric
import Quasiquote.Token.Basic
import Quasiquote.Token.Literal

namespace Quasiquote.Token

def startsWord (c : Char) : Bool :=
  c = '_' || c = '$' || Text.isAlphabetic c

def continuesWord (c : Char) : Bool :=
  c = '_' || c = '$' || Text.isAlphabetic c || Text.isNumeric c

structure Lexeme where
  kind : TokenKind
  /-- Number of characters. -/
  size : Nat
  /-- The value, where it is not the text itself. -/
  value : Option (List Char) := none
  singleQuote : Bool := false
  /-- Open braces inside each open substitution after this token, innermost first. -/
  depths : List Nat

/-- An operator or a bracket. Inside a substitution its braces are counted. -/
def scanPunct (depths : List Nat) (offset : Nat) (c : Char) (r : List Char) :
    Except LexError Lexeme :=
  match Punct.ofText? (c :: r) with
  | none => .error ⟨.invalidCharacter, offset, some (String.ofList [c])⟩
  | some p =>
    let size := p.text.length
    match p, depths with
    | .braceOpen, depth :: outer => .ok { kind := .punct p, size, depths := (depth + 1) :: outer }
    | .braceClose, 0 :: _ => .error ⟨.unbalancedBraces, offset, none⟩
    | .braceClose, (depth + 1) :: outer => .ok { kind := .punct p, size, depths := depth :: outer }
    | _, _ => .ok { kind := .punct p, size, depths }

/-- The token at the front of a text that begins with `c`. A closing brace resumes a template when
no brace is open inside its substitution. -/
def scanLexeme (depths : List Nat) (offset : Nat) (c : Char) (r : List Char) :
    Except LexError Lexeme :=
  if startsWord c then
    .ok { kind := .word, size := ((c :: r).takeWhile continuesWord).length, depths }
  else if c.isDigit || (c = '.' && r.head?.any Char.isDigit) then
    .ok { kind := .number, size := Literal.numberLength (c :: r), depths }
  else if c = '"' || c = '\'' then do
    let (value, n) ← Literal.readString c offset (offset + 1) r
    return { kind := .string, size := n + 1, value, singleQuote := c = '\'', depths }
  else if c = '`' then do
    let (value, n, opens) ← Literal.readTemplate (offset + 1) (offset + 1) r
    if opens then return { kind := .template .head, size := n + 1, value, depths := 0 :: depths }
    else return { kind := .template .whole, size := n + 1, value, depths }
  else if c = '}' && depths.head? = some 0 then do
    let (value, n, opens) ← Literal.readTemplate (offset + 1) (offset + 1) r
    if opens then return { kind := .template .middle, size := n + 1, value, depths }
    else return { kind := .template .tail, size := n + 1, value, depths := depths.tail }
  else scanPunct depths offset c r

/-- The token of a lexeme at byte `offset` of a source that goes on with `cs`. -/
def ofLexeme (l : Lexeme) (newline : Bool) (offset : Nat) (cs : List Char) : Token :=
  let text := cs.take l.size
  { kind := l.kind
    text := String.ofList text
    value := String.ofList (l.value.getD text)
    start := offset
    stop := offset + Text.byteLength text
    newlineBefore := newline
    singleQuote := l.singleQuote }

def commentLength? : List Char → Option Nat
  | [] => none
  | '*' :: '/' :: _ => some 0
  | _ :: r => (commentLength? r).map (· + 1)

/-- A piece of white space or a comment at the front of a text that begins with `c`: the number of
characters after `c` and whether a line feed is among them all. A line comment leaves its line feed
to the next piece. -/
def scanTrivia (offset : Nat) (c : Char) (r : List Char) :
    Except LexError (Option (Nat × Bool)) :=
  if c = '/' && r.head? = some '/' then
    .ok (some ((r.takeWhile (· ≠ '\n')).length, false))
  else if c = '/' && r.head? = some '*' then
    match commentLength? r.tail with
    | some n => .ok (some (n + 3, (r.tail.take n).contains '\n'))
    | none => .error ⟨.unterminatedComment, offset, none⟩
  else if Text.isBlank c then .ok (some (0, c = '\n'))
  else .ok none

def scanFrom (depths : List Nat) (newline : Bool) (offset : Nat) (cs : List Char) :
    Except LexError (List Token) :=
  match cs with
  | [] =>
    if depths.isEmpty then .ok [eofAt offset]
    else .error ⟨.unterminatedTemplate, offset, none⟩
  | c :: r => do
    match ← scanTrivia offset c r with
    | some (n, feed) =>
      let skipped := Text.byteLength (c :: r.take n)
      scanFrom depths (newline || feed) (offset + skipped) (r.drop n)
    | none =>
      let l ← scanLexeme depths offset c r
      let t := ofLexeme l newline offset (c :: r)
      let rest ← scanFrom l.depths false t.stop (r.drop (l.size - 1))
      return t :: rest
termination_by cs.length
decreasing_by all_goals simp only [List.length_cons, List.length_drop]; omega

def scan (source : String) : Except LexError (List Token) :=
  scanFrom [] false 0 source.toList

end Quasiquote.Token
