import Quasiquote.Reading.Basic
import Quasiquote.Selector.Basic
import Quasiquote.Text.Blank
import Quasiquote.Text.Bytes

namespace Quasiquote.Selector

/-- A reader of selector text. An error comes with the text that was left. -/
abbrev TextReader : Type → Type :=
  Reader (List Char) (SelectorErrorKind × List Char)

def reject {α : Type} (kind : SelectorErrorKind) : TextReader α :=
  fun cs => .rejected (kind, cs)

def rejectAt {α : Type} (cs : List Char) (kind : SelectorErrorKind) : TextReader α :=
  fun _ => .rejected (kind, cs)

def rest : TextReader (List Char) :=
  fun cs => .done cs cs

def eat (c : Char) : TextReader Bool
  | d :: r => if d = c then .done true r else .done false (d :: r)
  | [] => .done false []

def expect (c : Char) (what : String) : TextReader Unit := do
  unless ← eat c do
    reject (.expected what)

def skipBlanks : TextReader Bool :=
  fun cs => .done (cs.head?.any Text.isBlank) (cs.dropWhile Text.isBlank)

def isWordChar (c : Char) : Bool :=
  c.isAlphanum || c = '_' || c = '$'

def word : TextReader String :=
  fun cs => .done (String.ofList (cs.takeWhile isWordChar)) (cs.dropWhile isWordChar)

/-- What stands before the closing quote, and the text after it. A backslash makes the character
after it stand for itself. -/
def quotedText? (quote : Char) : List Char → Option (List Char × List Char)
  | [] => none
  | c :: r =>
    if c = quote then some ([], r)
    else if c = '\\' then
      match r with
      | [] => none
      | d :: s => (quotedText? quote s).map fun (text, left) => (d :: text, left)
    else (quotedText? quote r).map fun (text, left) => (c :: text, left)

def wordValue : TextReader AttributeValue := do
  match ← word with
  | "" => reject (.expected "attribute value")
  | "true" => return .flag true
  | "false" => return .flag false
  | word => return .text word

def value : TextReader AttributeValue := fun cs =>
  match cs with
  | c :: r =>
    if c = '"' || c = '\'' then
      match quotedText? c r with
      | some (text, left) => .done (.text (String.ofList text)) left
      | none => .rejected (.unterminatedString, cs)
    else wordValue cs
  | [] => wordValue cs

/-- Repeat a step as long as it asks for another round. Each such round has to pass a character. -/
def loop {α : Type} (a : α) (step : α → TextReader (α × Bool)) : TextReader α :=
  fun cs => Reader.loopWithin step (cs.length + 1) a cs

def path : TextReader (List String) := do
  let first ← word
  loop [first] fun words => do
    if ← eat '.' then
      let next ← word
      return (words ++ [next], true)
    else return (words, false)

def condition : TextReader Attribute := do
  let _ ← skipBlanks
  let path ← path
  if path.contains "" then reject (.expected "field name")
  let _ ← skipBlanks
  let value ←
    if ← eat '=' then
      let _ ← skipBlanks
      some <$> value
    else pure none
  let _ ← skipBlanks
  expect ']' "`]`"
  return ⟨path, value⟩

/-- A kind or a star. When the whole text is `blank` there is nothing to be found. -/
def kind (blank : Bool) : TextReader (Option Kind) := do
  if ← eat '*' then return none
  let start ← rest
  match ← word with
  | "" => reject (if blank then .empty else .expected "node kind or `*`")
  | name =>
    match Kind.ofName? name with
    | some kind => return some kind
    | none => rejectAt start (.unknownKind name)

def hasClause (nested : TextReader Selector) : TextReader Selector := do
  let start ← rest
  let name ← word
  if name ≠ "has" then rejectAt start (.unknownPseudoClass name)
  expect '(' "`(`"
  let selector ← nested
  expect ')' "`)`"
  return selector

def clause (nested : TextReader Selector) :
    List Attribute × List Selector → TextReader ((List Attribute × List Selector) × Bool)
  | (attributes, has) => do
    if ← eat '[' then
      let next ← condition
      return ((attributes ++ [next], has), true)
    else if ← eat ':' then
      let next ← hasClause nested
      return ((attributes, has ++ [next]), true)
    else return ((attributes, has), false)

def compound (blank : Bool) (nested : TextReader Selector) : TextReader Compound := do
  let kind ← kind blank
  let (attributes, has) ← loop ([], []) (clause nested)
  return .mk kind attributes has

/-- Compounds with white space between them, up to the end or a closing parenthesis. -/
def compounds (blank : Bool) (nested : TextReader Selector) : TextReader Selector := do
  let _ ← skipBlanks
  let first ← compound blank nested
  loop [first] fun selector => do
    let apart ← skipBlanks
    match (← rest).head? with
    | none | some ')' => return (selector, false)
    | some _ =>
      if apart then
        let next ← compound blank nested
        return (next :: selector, true)
      else reject (.expected "whitespace")

def toDepth (blank : Bool) : Nat → TextReader Selector
  | 0 => Reader.starve
  | depth + 1 => compounds blank (toDepth blank depth)

def whole (text : List Char) : TextReader Selector := do
  let selector ← toDepth (text.all Text.isBlank) (text.length + 1)
  let _ ← skipBlanks
  if (← rest).isEmpty then return selector else reject (.expected "end of selector")

/-- Read a selector. Each nested one follows a parenthesis, so the length of the text bounds their
depth. -/
def parse (text : String) : Except SelectorError Selector :=
  match whole text.toList text.toList with
  | .done selector _ => .ok selector
  | .rejected (kind, left) =>
    .error ⟨kind, Text.byteLength text.toList - Text.byteLength left⟩
  | .starved => .error ⟨.empty, 0⟩

def quoteValue (text : String) : String :=
  let quoted := text.toList.flatMap fun c => if c = '"' || c = '\\' then ['\\', c] else [c]
  String.ofList ('"' :: quoted ++ ['"'])

end Quasiquote.Selector
