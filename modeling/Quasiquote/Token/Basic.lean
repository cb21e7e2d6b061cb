namespace Quasiquote

inductive Punct
  | parenOpen | parenClose | braceOpen | braceClose | bracketOpen | bracketClose
  | semicolon | comma | dot | ellipsis | colon | question | nullish | arrow
  | assign | equal | identical | notEqual | notIdentical
  | less | greater | lessEqual | greaterEqual
  | plus | minus | star | slash | percent | plusAssign | minusAssign
  | andAnd | orOr | amp | pipe | bang | tilde
  deriving DecidableEq

namespace Punct

def text : Punct → String
  | parenOpen => "("
  | parenClose => ")"
  | braceOpen => "\x7b"
  | braceClose => "\x7d"
  | bracketOpen => "["
  | bracketClose => "]"
  | semicolon => ";"
  | comma => ","
  | dot => "."
  | ellipsis => "..."
  | colon => ":"
  | question => "?"
  | nullish => "??"
  | arrow => "=>"
  | assign => "="
  | equal => "=="
  | identical => "==="
  | notEqual => "!="
  | notIdentical => "!=="
  | less => "<"
  | greater => ">"
  | lessEqual => "<="
  | greaterEqual => ">="
  | plus => "+"
  | minus => "-"
  | star => "*"
  | slash => "/"
  | percent => "%"
  | plusAssign => "+="
  | minusAssign => "-="
  | andAnd => "&&"
  | orOr => "||"
  | amp => "&"
  | pipe => "|"
  | bang => "!"
  | tilde => "~"

def all : List Punct :=
  [ellipsis, identical, notIdentical, arrow, equal, notEqual, lessEqual, greaterEqual, andAnd, orOr,
   nullish, plusAssign, minusAssign, parenOpen, parenClose, braceOpen, braceClose, bracketOpen,
   bracketClose, semicolon, comma, dot, colon, question, assign, less, greater, plus, minus, star,
   slash, percent, amp, pipe, bang, tilde]

def ofText? (cs : List Char) : Option Punct :=
  all.find? fun p => p.text.toList.isPrefixOf cs

end Punct

/-- The pieces of a template literal: one without substitutions, the piece before the first, one
between two, and the piece after the last. -/
inductive TemplatePiece
  | whole | head | middle | tail
  deriving DecidableEq

inductive TokenKind
  | word
  | string
  | number
  | template (piece : TemplatePiece)
  | punct (p : Punct)
  | eof
  deriving DecidableEq

structure Token where
  kind : TokenKind
  /-- The source text. -/
  text : String
  /-- What a string or a template piece stands for; otherwise the source text. -/
  value : String
  /-- Byte offset of the first character. -/
  start : Nat
  /-- Byte offset just past the last character. -/
  stop : Nat
  /-- Whether a line feed stands between this token and the one before it. -/
  newlineBefore : Bool
  /-- Whether this is a string between apostrophes. -/
  singleQuote : Bool
  deriving DecidableEq

namespace Token

def eofAt (offset : Nat) : Token :=
  ⟨.eof, "", "", offset, offset, true, false⟩

def isWord (t : Token) (text : String) : Bool :=
  t.kind = .word && t.text = text

end Token

end Quasiquote
