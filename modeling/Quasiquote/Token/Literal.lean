import Quasiquote.Text.Bytes
import Quasiquote.Token.LexError

namespace Quasiquote.Literal

def isHexDigit (c : Char) : Bool :=
  c.isDigit || ('a' ≤ c && c ≤ 'f') || ('A' ≤ c && c ≤ 'F')

def hexDigitValue (c : Char) : Nat :=
  if c.isDigit then c.toNat - '0'.toNat
  else if 'a' ≤ c then c.toNat - 'a'.toNat + 10
  else c.toNat - 'A'.toNat + 10

def hexValue (digits : List Char) : Nat :=
  digits.foldl (fun n c => 16 * n + hexDigitValue c) 0

def charOfCode? (code : Nat) : Option Char :=
  if code.isValidChar then some (Char.ofNat code) else none

def fixedHex? (size : Nat) (cs : List Char) : Option Char :=
  let digits := cs.take size
  if digits.length = size && digits.all isHexDigit then charOfCode? (hexValue digits) else none

/-- Read what follows a backslash: the character it stands for, none for a line that is continued,
and the number of characters read. The error is the text to report. -/
def readEscape : List Char → Except String (Option Char × Nat)
  | [] => .error "\\"
  | c :: r =>
    if c = 'n' then .ok (some '\n', 1)
    else if c = 't' then .ok (some '\t', 1)
    else if c = 'r' then .ok (some '\r', 1)
    else if c = 'b' then .ok (some '\x08', 1)
    else if c = 'f' then .ok (some '\x0c', 1)
    else if c = 'v' then .ok (some '\x0b', 1)
    else if c = '0' && !r.head?.any Char.isDigit then .ok (some '\x00', 1)
    else if c = '\n' then .ok (none, 1)
    else if c = '\r' then .ok (none, if r.head? = some '\n' then 2 else 1)
    else if c = 'x' then
      match fixedHex? 2 r with
      | some char => .ok (some char, 3)
      | none => .error "\\x"
    else if c = 'u' then
      match r with
      | '{' :: s =>
        let digits := s.takeWhile isHexDigit
        if digits.isEmpty || (s.drop digits.length).head? ≠ some '}' then .error "\\u\x7b"
        else if 0x100000000 ≤ hexValue digits then .error (String.ofList digits)
        else
          match charOfCode? (hexValue digits) with
          | some char => .ok (some char, digits.length + 3)
          | none => .error "\\u"
      | _ =>
        match fixedHex? 4 r with
        | some char => .ok (some char, 5)
        | none => .error "\\u"
    else if c.isDigit then .error (String.ofList ['\\', c])
    else .ok (some c, 1)

/-- Read a string after its opening quote at byte `start`, from byte `offset` on: its value and the
number of characters read, the closing quote included. -/
def readString (quote : Char) (start offset : Nat) (cs : List Char) :
    Except LexError (List Char × Nat) :=
  match cs with
  | [] => .error ⟨.unterminatedString, start, none⟩
  | c :: r =>
    if c = '\n' then .error ⟨.unterminatedString, start, none⟩
    else if c = quote then .ok ([], 1)
    else if c = '\\' then
      match readEscape r with
      | .error found => .error ⟨.invalidEscape, offset, some found⟩
      | .ok (char, n) => do
        let (value, m) ← readString quote start (offset + 1 + Text.byteLength (r.take n)) (r.drop n)
        return (char.toList ++ value, 1 + n + m)
    else do
      let (value, m) ← readString quote start (offset + c.utf8Size) r
      return (c :: value, 1 + m)
termination_by cs.length
decreasing_by all_goals simp only [List.length_cons, List.length_drop]; omega

/-- Read a template piece that begins at byte `start`, from byte `offset` on: its value, the number
of characters read, and whether it ends at a substitution. A carriage return, with or without a
line feed, stands for a line feed. -/
def readTemplate (start offset : Nat) (cs : List Char) :
    Except LexError (List Char × Nat × Bool) :=
  match cs with
  | [] => .error ⟨.unterminatedTemplate, start, none⟩
  | c :: r =>
    if c = '$' && r.head? = some '{' then .ok ([], 2, true)
    else if c = '`' then .ok ([], 1, false)
    else if c = '\\' then
      match readEscape r with
      | .error found => .error ⟨.invalidEscape, offset, some found⟩
      | .ok (char, n) => do
        let (value, m, opens) ←
          readTemplate start (offset + 1 + Text.byteLength (r.take n)) (r.drop n)
        return (char.toList ++ value, 1 + n + m, opens)
    else if c = '\r' then do
      let n := if r.head? = some '\n' then 1 else 0
      let (value, m, opens) ← readTemplate start (offset + 1 + n) (r.drop n)
      return ('\n' :: value, 1 + n + m, opens)
    else do
      let (value, m, opens) ← readTemplate start (offset + c.utf8Size) r
      return (c :: value, 1 + m, opens)
termination_by cs.length
decreasing_by all_goals simp only [List.length_cons, List.length_drop]; omega

def isDigitOrGap (c : Char) : Bool :=
  c.isDigit || c = '_'

/-- Characters of an exponent at the front of a text; none unless a digit follows the mark. -/
def exponentLength (cs : List Char) : Nat :=
  match cs with
  | e :: r =>
    if e = 'e' || e = 'E' then
      let sign := if r.head? = some '+' || r.head? = some '-' then 1 else 0
      let digits := (r.drop sign).takeWhile Char.isDigit
      if digits.isEmpty then 0 else 1 + sign + digits.length
    else 0
  | [] => 0

def numberLength (cs : List Char) : Nat :=
  if "0x".toList.isPrefixOf cs || "0X".toList.isPrefixOf cs then
    2 + ((cs.drop 2).takeWhile fun c => isHexDigit c || c = '_').length
  else
    let whole := (cs.takeWhile isDigitOrGap).length
    let fraction := match cs.drop whole with
      | '.' :: r => 1 + (r.takeWhile isDigitOrGap).length
      | _ => 0
    let mantissa := whole + fraction
    let exponent := exponentLength (cs.drop mantissa)
    let big := if (cs.drop (mantissa + exponent)).head? = some 'n' then 1 else 0
    mantissa + exponent + big

end Quasiquote.Literal
