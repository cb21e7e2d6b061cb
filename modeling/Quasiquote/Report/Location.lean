namespace Quasiquote

structure LineColumn where
  line : Nat
  column : Nat
  deriving DecidableEq

/-- Walk over every character that ends at or before `offset` bytes from here. -/
def LineColumn.walk (here : LineColumn) : List Char → Nat → LineColumn
  | [], _ => here
  | c :: r, offset =>
    if c.utf8Size ≤ offset then
      let next : LineColumn :=
        if c = '\n' then ⟨here.line + 1, 1⟩ else ⟨here.line, here.column + 1⟩
      next.walk r (offset - c.utf8Size)
    else here

/-- Line and column of a byte offset. An offset inside a character counts as its start, one past
the end as the end. -/
def LineColumn.ofOffset (source : String) (offset : Nat) : LineColumn :=
  LineColumn.walk ⟨1, 1⟩ source.toList offset

structure Location where
  file : String
  line : Nat
  column : Nat
  deriving DecidableEq

def Location.ofOffset (file source : String) (offset : Nat) : Location :=
  let place := LineColumn.ofOffset source offset
  ⟨file, place.line, place.column⟩

def Location.text (l : Location) : String :=
  l.file ++ ":" ++ toString l.line ++ ":" ++ toString l.column

end Quasiquote
