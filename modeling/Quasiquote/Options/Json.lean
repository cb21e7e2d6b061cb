import Quasiquote.Options.Basic
import Quasiquote.Token.Literal

namespace Quasiquote

inductive JsonValue
  | null
  | bool (value : Bool)
  | text (value : String)
  | list (items : List JsonValue)
  | object (members : List (String × JsonValue))

namespace JsonValue

def isBlank (c : Char) : Bool :=
  c = ' ' || c = '\n' || c = '\t' || c = '\r'

def skipBlanks (cs : List Char) : List Char :=
  cs.dropWhile isBlank

def hexUnit? (cs : List Char) : Option (Nat × List Char) :=
  let digits := cs.take 4
  if digits.length = 4 && digits.all Literal.isHexDigit then
    some (Literal.hexValue digits, cs.drop 4)
  else none

def isHighSurrogate (unit : Nat) : Bool :=
  0xD800 ≤ unit && unit ≤ 0xDBFF

def isLowSurrogate (unit : Nat) : Bool :=
  0xDC00 ≤ unit && unit ≤ 0xDFFF

def unitEscape? (cs : List Char) : Option (Char × List Char) :=
  match hexUnit? cs with
  | none => none
  | some (unit, rest) =>
    if isHighSurrogate unit then
      match rest with
      | '\\' :: 'u' :: more =>
        match hexUnit? more with
        | some (low, left) =>
          if isLowSurrogate low then
            some (Char.ofNat (0x10000 + (unit - 0xD800) * 0x400 + (low - 0xDC00)), left)
          else none
        | none => none
      | _ => none
    else if isLowSurrogate unit then none
    else some (Char.ofNat unit, rest)

def simpleEscape? : Char → Option Char
  | '"' => some '"'
  | '\\' => some '\\'
  | '/' => some '/'
  | 'b' => some '\x08'
  | 'f' => some '\x0c'
  | 'n' => some '\n'
  | 'r' => some '\r'
  | 't' => some '\t'
  | _ => none

/-- The text of a string after its opening quote, within `bound` characters, and what comes after
its closing quote. -/
def textWithin : Nat → List Char → Option (List Char × List Char)
  | 0, _ => none
  | _, [] => none
  | bound + 1, c :: r =>
    if c = '"' then some ([], r)
    else if c.toNat < 0x20 then none
    else if c = '\\' then
      match r with
      | [] => none
      | d :: s =>
        match (if d = 'u' then unitEscape? s else (simpleEscape? d).map fun e => (e, s)) with
        | some (char, rest) =>
          (textWithin bound rest).map fun (content, left) => (char :: content, left)
        | none => none
    else (textWithin bound r).map fun (content, left) => (c :: content, left)

def string? (cs : List Char) : Option (String × List Char) :=
  match cs with
  | '"' :: r => (textWithin r.length r).map fun (content, left) => (String.ofList content, left)
  | _ => none

def after? (word : String) (cs : List Char) : Option (List Char) :=
  if word.toList.isPrefixOf cs then some (cs.drop word.length) else none

/-- Items with commas between them up to `close`, at most `bound` of them. The text begins with an
item. -/
def itemsWithin {α : Type} (close : Char) (item : List Char → Option (α × List Char)) :
    Nat → List Char → Option (List α × List Char)
  | 0, _ => none
  | bound + 1, cs =>
    match item cs with
    | none => none
    | some (x, rest) =>
      match skipBlanks rest with
      | c :: more =>
        if c = close then some ([x], more)
        else if c = ',' then
          (itemsWithin close item bound (skipBlanks more)).map fun (xs, left) => (x :: xs, left)
        else none
      | [] => none

def items {α : Type} (close : Char) (item : List Char → Option (α × List Char)) (cs : List Char) :
    Option (List α × List Char) :=
  match skipBlanks cs with
  | c :: r => if c = close then some ([], r) else itemsWithin close item (r.length + 1) (c :: r)
  | [] => none

def member? (value : List Char → Option (JsonValue × List Char)) (cs : List Char) :
    Option ((String × JsonValue) × List Char) :=
  match string? cs with
  | none => none
  | some (key, rest) =>
    match skipBlanks rest with
    | ':' :: more => (value (skipBlanks more)).map fun (v, left) => ((key, v), left)
    | _ => none

/-- A value that is nested less than `depth` deep. Options hold no numbers. -/
def valueWithin : Nat → List Char → Option (JsonValue × List Char)
  | 0, _ => none
  | depth + 1, cs =>
    match cs with
    | '"' :: _ => (string? cs).map fun (s, left) => (.text s, left)
    | '[' :: r => (items ']' (valueWithin depth) r).map fun (xs, left) => (.list xs, left)
    | '{' :: r =>
      (items '}' (member? (valueWithin depth)) r).map fun (xs, left) => (.object xs, left)
    | 'n' :: _ => (after? "null" cs).map fun left => (.null, left)
    | 't' :: _ => (after? "true" cs).map fun left => (.bool true, left)
    | 'f' :: _ => (after? "false" cs).map fun left => (.bool false, left)
    | _ => none

def parse? (text : String) : Option JsonValue :=
  match valueWithin (text.length + 1) (skipBlanks text.toList) with
  | some (value, left) => if (skipBlanks left).isEmpty then some value else none
  | none => none

end JsonValue

namespace Options

def moduleFormatOfName? : String → Option ModuleFormat
  | "esModule" => some .esModule
  | "commonJs" => some .commonJs
  | _ => none

/-- A format by its name, or as an object with the name as its only key and no content. -/
def moduleFormat? : JsonValue → Option ModuleFormat
  | .text name => moduleFormatOfName? name
  | .object [(name, .null)] => moduleFormatOfName? name
  | _ => none

def setText (value : JsonValue) (set : String → Options) : Option Options :=
  match value with
  | .text s => some (set s)
  | _ => none

def set? (o : Options) (key : String) (value : JsonValue) : Option Options :=
  match key with
  | "moduleSpecifier" => setText value fun s => { o with moduleSpecifier := s }
  | "factoryModule" => setText value fun s => { o with factoryModule := s }
  | "factoryNamespace" => setText value fun s => { o with factoryNamespace := s }
  | "parameterName" => setText value fun s => { o with parameterName := s }
  | "moduleFormat" => (moduleFormat? value).map fun format => { o with moduleFormat := format }
  | "insertFactoryImport" =>
    match value with
    | .bool b => some { o with insertFactoryImport := b }
    | _ => none
  | _ => none

def keys : List String :=
  ["moduleSpecifier", "factoryModule", "factoryNamespace", "parameterName", "moduleFormat",
   "insertFactoryImport"]

def setAll? (o : Options) : List (String × JsonValue) → Option Options
  | [] => some o
  | (key, value) :: rest =>
    if rest.any fun member => member.1 = key then none
    else (o.set? key value).bind fun o => o.setAll? rest

/-- Options from an object, or from a list of the values of the first keys. What is not given keeps
its default. -/
def ofJson? : JsonValue → Option Options
  | .object members => setAll? {} members
  | .list values => if values.length ≤ keys.length then setAll? {} (keys.zip values) else none
  | _ => none

def parse (text : String) : Except OptionsError Options :=
  match (JsonValue.parse? text).bind ofJson? with
  | none => .error .malformed
  | some o =>
    match o.validate with
    | .ok () => .ok o
    | .error e => .error e

end Options

end Quasiquote
