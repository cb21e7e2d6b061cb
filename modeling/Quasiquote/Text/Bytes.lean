namespace Quasiquote.Text

/-- Number of bytes of a text in UTF-8. Offsets into a source count these. -/
def byteLength : List Char → Nat
  | [] => 0
  | c :: r => c.utf8Size + byteLength r

@[simp] theorem byteLength_nil : byteLength [] = 0 := rfl

@[simp] theorem byteLength_cons (c : Char) (cs : List Char) :
    byteLength (c :: cs) = c.utf8Size + byteLength cs := rfl

@[simp] theorem byteLength_append (xs ys : List Char) :
    byteLength (xs ++ ys) = byteLength xs + byteLength ys := by
  induction xs with
  | nil => simp only [List.nil_append, byteLength_nil, Nat.zero_add]
  | cons c xs ih => simp only [List.cons_append, byteLength_cons, ih, Nat.add_assoc]

def occursIn (word : List Char) : List Char → Bool
  | [] => word.isEmpty
  | c :: r => word.isPrefixOf (c :: r) || occursIn word r

end Quasiquote.Text
