namespace Quasiquote.Literal

def upperHexDigit (n : Nat) : Char :=
  if n < 10 then Char.ofNat ('0'.toNat + n) else Char.ofNat ('A'.toNat + n - 10)

def quoteChar (quote c : Char) : List Char :=
  if c = '\\' then ['\\', '\\']
  else if c = '\n' then ['\\', 'n']
  else if c = '\r' then ['\\', 'r']
  else if c = '\t' then ['\\', 't']
  else if c = quote then ['\\', c]
  else if c.toNat < 0x20 then
    ['\\', 'u', '0', '0', upperHexDigit (c.toNat / 16), upperHexDigit (c.toNat % 16)]
  else [c]

def quote (value : List Char) (quote : Char) : List Char :=
  quote :: value.flatMap (quoteChar quote) ++ [quote]

def escapeTemplate : List Char → List Char
  | [] => []
  | c :: r =>
    if c = '\\' then '\\' :: '\\' :: escapeTemplate r
    else if c = '`' then '\\' :: '`' :: escapeTemplate r
    else if c = '$' && r.head? = some '{' then '\\' :: '$' :: escapeTemplate r
    else c :: escapeTemplate r

end Quasiquote.Literal
