namespace Quasiquote

/-- How reading ends: with a value and what is left, with an error, or because the bound on its
depth was too small. -/
inductive Outcome (σ ε α : Type)
  | done (value : α) (rest : σ)
  | rejected (e : ε)
  | starved

/-- Something that reads an `α` from the front of a `σ`, or fails with an `ε`. -/
def Reader (σ ε α : Type) : Type :=
  σ → Outcome σ ε α

namespace Reader

variable {σ ε α : Type}

instance : Monad (Reader σ ε) where
  pure a := fun s => .done a s
  bind p f := fun s =>
    match p s with
    | .done a rest => f a rest
    | .rejected e => .rejected e
    | .starved => .starved

def starve : Reader σ ε α :=
  fun _ => .starved

def attempt (p : Reader σ ε α) : Reader σ ε (Option α) :=
  fun s =>
    match p s with
    | .done a rest => .done (some a) rest
    | .rejected _ => .done none s
    | .starved => .starved

/-- Repeat a step at most `bound` times, as long as it asks for another round. -/
def loopWithin (step : α → Reader σ ε (α × Bool)) : Nat → α → Reader σ ε α
  | 0, _ => starve
  | bound + 1, a => do
    let (a, more) ← step a
    if more then loopWithin step bound a else return a

end Reader

end Quasiquote
