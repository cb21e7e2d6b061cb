import Quasiquote.Grammar.Statements
import Quasiquote.Token.Scan

namespace Quasiquote

open Quasiquote.Parser

def Grammar.module (g : Grammar) : Parser Node := do
  let start ← here
  let statements ← loop [] fun statements => do
    if ← atEof then return (statements, false)
    let statement ← g.statement
    return (statements ++ [statement], true)
  finish .sourceFile start [.list statements]

/-- Read the tokens of a module. Every step into the grammar follows a token, so the number of
tokens bounds the depth that is needed. -/
def moduleOfTokens (tokens : List Token) : Outcome Cursor ParseError Node :=
  (Grammar.toDepth (tokens.length + 1)).module ⟨0, tokens⟩

def parse (source : String) : Except ParseError Node :=
  match Token.scan source with
  | .error e => .error (.ofLexError e)
  | .ok tokens =>
    match moduleOfTokens tokens with
    | .done tree _ => .ok tree
    | .rejected e => .error e
    | .starved => .error { kind := .unexpectedEof, position := 0 }

end Quasiquote
