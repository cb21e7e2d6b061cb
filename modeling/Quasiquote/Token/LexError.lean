import Quasiquote.Text.Quoted

namespace Quasiquote

inductive LexErrorKind
  | unterminatedString
  | unterminatedTemplate
  | unterminatedComment
  | invalidEscape
  | invalidCharacter
  /-- A closing brace that closes nothing inside a template. -/
  | unbalancedBraces
  deriving DecidableEq

namespace LexErrorKind

def description : LexErrorKind → String
  | unterminatedString => "unterminated string literal"
  | unterminatedTemplate => "unterminated template literal"
  | unterminatedComment => "unterminated block comment"
  | invalidEscape => "invalid escape sequence"
  | invalidCharacter => "invalid character"
  | unbalancedBraces => "unbalanced braces"

def suggestion : LexErrorKind → Option String
  | unterminatedString => some "add a closing quote \" or '"
  | unterminatedTemplate => some "add a closing backtick `"
  | unterminatedComment => some "close the comment with */"
  | invalidEscape =>
    some "use a valid escape: \\n, \\t, \\r, \\\\, \\\", \\', \\`, \\$, \\xHH, \\uHHHH"
  | unbalancedBraces => some "ensure every \x7d has a matching \x7b"
  | invalidCharacter => none

end LexErrorKind

structure LexError where
  kind : LexErrorKind
  position : Nat
  /-- The offending text, when there is one. -/
  found : Option String := none
  deriving DecidableEq

def LexError.message (e : LexError) : String :=
  let found := match e.found with
    | some found => ", found " ++ Text.displayed found
    | none => ""
  let help := match e.kind.suggestion with
    | some help => " (help: " ++ help ++ ")"
    | none => ""
  e.kind.description ++ " at position " ++ toString e.position ++ found ++ help

end Quasiquote
