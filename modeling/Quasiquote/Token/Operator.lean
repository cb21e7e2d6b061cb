import Quasiquote.Token.Basic

namespace Quasiquote

/-- How tightly an operator holds its operands. A left operand needs at least `left`, a right one at
least `right`. -/
structure Power where
  left : Nat
  right : Nat
  deriving DecidableEq

namespace Power

def leftAssociative (level : Nat) : Power :=
  ⟨level, level + 1⟩

def nullish : Power := leftAssociative 6
def logicalOr : Power := leftAssociative 8
def logicalAnd : Power := leftAssociative 10
def bitwiseOr : Power := leftAssociative 12
def bitwiseAnd : Power := leftAssociative 16
def equality : Power := leftAssociative 18
def relational : Power := leftAssociative 20
def additive : Power := leftAssociative 24
def multiplicative : Power := leftAssociative 26

def assignmentLevel : Nat := 2
def conditionalLevel : Nat := 4
def unaryLevel : Nat := 30
def postfixLevel : Nat := 40
def primaryLevel : Nat := 50

/-- The level of a binary operator by its text. Whatever is not one counts as an assignment. -/
def levelOfText (op : String) : Nat :=
  match op with
  | "??" => nullish.left
  | "||" => logicalOr.left
  | "&&" => logicalAnd.left
  | "|" => bitwiseOr.left
  | "&" => bitwiseAnd.left
  | "==" | "!=" | "===" | "!==" => equality.left
  | "<" | ">" | "<=" | ">=" => relational.left
  | "+" | "-" => additive.left
  | "*" | "/" | "%" => multiplicative.left
  | _ => assignmentLevel

end Power

def Punct.binaryPower? : Punct → Option Power
  | nullish => some Power.nullish
  | orOr => some Power.logicalOr
  | andAnd => some Power.logicalAnd
  | pipe => some Power.bitwiseOr
  | amp => some Power.bitwiseAnd
  | equal | notEqual | identical | notIdentical => some Power.equality
  | less | greater | lessEqual | greaterEqual => some Power.relational
  | plus | minus => some Power.additive
  | star | slash | percent => some Power.multiplicative
  | _ => none

def Punct.isAssignment : Punct → Bool
  | assign | plusAssign | minusAssign => true
  | _ => false

def TokenKind.binary? : TokenKind → Option (String × Power)
  | punct p => p.binaryPower?.map fun power => (p.text, power)
  | _ => none

def TokenKind.assignment? : TokenKind → Option String
  | punct p => if p.isAssignment then some p.text else none
  | _ => none

end Quasiquote
