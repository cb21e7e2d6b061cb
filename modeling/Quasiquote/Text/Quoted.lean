import Quasiquote.Text.AttachingMark
import Quasiquote.Text.Printable

namespace Quasiquote.Text

/-- A code point in braces with lower-case hexadecimal digits, as in `\u{7f}`. -/
def codePointEscape (c : Char) : List Char :=
  "\\u\x7b".toList ++ Nat.toDigits 16 c.toNat ++ ['}']

def displayedChar (c : Char) : List Char :=
  if c = '"' then ['\\', '"']
  else if c = '\\' then ['\\', '\\']
  else if c = '\n' then ['\\', 'n']
  else if c = '\r' then ['\\', 'r']
  else if c = '\t' then ['\\', 't']
  else if c = '\x00' then ['\\', '0']
  else if isAttachingMark c || !isPrintable c then codePointEscape c
  else [c]

/-- A text between double quotes for a message: what cannot be seen is written as an escape. -/
def displayed (s : String) : String :=
  String.ofList ('"' :: s.toList.flatMap displayedChar ++ ['"'])

end Quasiquote.Text
