import Quasiquote.Template.Role
import Quasiquote.Text.Bytes

namespace Quasiquote

structure IdSupply where
  drawn : Nat := 0
  id : Nat → String

namespace IdSupply

def draw (ids : IdSupply) : String × IdSupply :=
  (ids.id ids.drawn, { ids with drawn := ids.drawn + 1 })

def sequential : IdSupply :=
  { id := fun n => "__tsc" ++ toString n }

def ofList (ids : List String) : IdSupply :=
  { id := fun n => (ids[n]?).getD (ids.getLast?.getD "") }

end IdSupply

structure Placeholder where
  /-- What takes the place of the token: the substitution applied to the parameter. -/
  payload : Node
  role : Role
  /-- Where the substitution stands in its file. -/
  span : Option Span

def Placeholder.notAfter (p q : Placeholder) : Bool :=
  match p.span, q.span with
  | some s, some t => s.start ≤ t.start
  | none, some _ => false
  | _, none => true

structure Registry where
  entries : List (String × Placeholder) := []

namespace Registry

def get? (r : Registry) (token : String) : Option Placeholder :=
  r.entries.lookup token

def contains (r : Registry) (token : String) : Bool :=
  (r.get? token).isSome

def erase (r : Registry) (token : String) : Registry :=
  ⟨r.entries.filter fun e => e.1 ≠ token⟩

def insert (r : Registry) (token : String) (p : Placeholder) : Registry :=
  ⟨(r.erase token).entries ++ [(token, p)]⟩

def size (r : Registry) : Nat :=
  r.entries.length

def remaining (r : Registry) : List (String × Placeholder) :=
  r.entries.mergeSort fun a b => a.2.notAfter b.2

end Registry

namespace Token

def startsName (c : Char) : Bool :=
  c.isAlpha || c = '_'

def continuesName (c : Char) : Bool :=
  c.isAlphanum || c = '_'

/-- An id as a name: what no name holds is dropped, and a name never begins with a digit. -/
def sanitize (id : String) : String :=
  let kept := id.toList.filter continuesName
  String.ofList (if kept.head?.any startsName then kept else '_' :: kept)

end Token

namespace Registry

def isFree (r : Registry) (text : String) (token : String) : Bool :=
  !r.contains token && !Text.occursIn token.toList text.toList

def withSuffix (token : String) (k : Nat) : String :=
  token ++ "_" ++ toString k

/-- The first free one of a token's numbered forms, among `bound` of them. -/
def firstFreeSuffix (r : Registry) (text token : String) : Nat → Nat → String
  | 0, k => withSuffix token k
  | bound + 1, k =>
    if r.isFree text (withSuffix token k) then withSuffix token k
    else firstFreeSuffix r text token bound (k + 1)

def suffixBound (r : Registry) (text : String) : Nat :=
  r.size + (text.length + 1) * (text.length + 1) + 1

/-- Test a token and draw another as long as it is not free, `draws` times. The last one is not
tested but numbered. -/
def drawFree (r : Registry) (text : String) : Nat → String → IdSupply → String × IdSupply
  | 0, token, ids => (r.firstFreeSuffix text token (r.suffixBound text) 0, ids)
  | draws + 1, token, ids =>
    if r.isFree text token then (token, ids)
    else
      let (id, ids) := ids.draw
      drawFree r text draws (Token.sanitize id) ids

def maxDraws : Nat := 16

def freshToken (r : Registry) (ids : IdSupply) (text : String) : String × IdSupply :=
  let (id, ids) := ids.draw
  r.drawFree text (maxDraws - 1) (Token.sanitize id) ids

end Registry

end Quasiquote
