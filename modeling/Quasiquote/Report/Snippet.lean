import Quasiquote.Report.Location
import Quasiquote.Text.Blank

namespace Quasiquote

/-- A message about one position of a source, to be shown with the line it stands in. -/
structure Snippet where
  message : String
  source : String
  /-- Byte offset into `source`. -/
  position : Nat
  filename : String := "input"
  /-- Lines that stand before `source` in the file. -/
  lineOffset : Nat := 0
  /-- Shown after the caret. -/
  note : Option String := none
  help : Option String := none

namespace Snippet

/-- The lines of a text: a line feed ends a line together with a carriage return before it, and
nothing after the last line feed is no line. -/
def lines : List Char → List (List Char)
  | [] => []
  | '\n' :: r => [] :: lines r
  | '\r' :: '\n' :: r => [] :: lines r
  | c :: r =>
    match r, lines r with
    | _ :: _, line :: rest => (c :: line) :: rest
    | _, rest => [c] :: rest

def spaces (n : Nat) : List Char :=
  List.replicate n ' '

def expandTabs (line : List Char) : List Char :=
  line.flatMap fun c => if c = '\t' then spaces 4 else [c]

def maxLineLength : Nat := 80

def contextLength : Nat := 30

/-- Cut a line that is too long to a window around `column`. The result is the text to show and the
column of the caret in it. -/
def window (line : List Char) (column : Nat) : List Char × Nat :=
  if line.length ≤ maxLineLength then (line, column)
  else
    let start := min (column - contextLength) line.length
    let stop := min (column + contextLength) line.length
    let before := if 0 < start then "...".toList else []
    let after := if stop < line.length then "...".toList else []
    (before ++ (line.drop start).take (stop - start) ++ after, column - start + before.length)

def excerpt (s : Snippet) (gutter : List Char) (number : String) (column : Nat)
    (line : List Char) : List Char :=
  let (shown, caret) := window (expandTabs line) (column - 1)
  let pointer := gutter ++ " | ".toList ++ spaces caret ++ "^ ".toList
    ++ (s.note.getD "").toList
  gutter ++ " |\n".toList ++ number.toList ++ " | ".toList ++ shown ++ ['\n']
    ++ Text.trimEnd pointer ++ ['\n']

/-- The message, where it belongs, the line with a caret below it, and the help. -/
def text (s : Snippet) : String :=
  let place := LineColumn.ofOffset s.source s.position
  let number := toString (place.line + s.lineOffset)
  let gutter := spaces number.length
  let head := "error: ".toList ++ s.message.toList ++ ['\n'] ++ gutter ++ "--> ".toList
    ++ (s.filename ++ ":" ++ number ++ ":" ++ toString place.column).toList ++ ['\n']
  let body := match (lines s.source.toList)[place.line - 1]? with
    | some line => s.excerpt gutter number place.column line
    | none => []
  let foot := match s.help with
    | some help => "help: ".toList ++ help.toList ++ ['\n']
    | none => []
  String.ofList (head ++ body ++ foot)

end Snippet

end Quasiquote
