import Quasiquote.Grammar.Expressions

namespace Quasiquote.Grammar

open Quasiquote.Parser

def expressionStatement (g : Grammar) : Parser Node := do
  let start ← here
  let expression ← g.assignment
  semicolon "expression statement"
  finish .expressionStatement start [.node expression]

def returnStatement (g : Grammar) : Parser Node := do
  let start ← here
  let _ ← advance
  let ends := (← atPunct .semicolon) || (← atPunct .braceClose) || (← atEof)
    || (← current).newlineBefore
  let expression ← if ends then pure none else some <$> g.expression
  semicolon "return statement"
  finish .returnStatement start [.ofOption expression]

def throwStatement (g : Grammar) : Parser Node := do
  let start ← here
  let _ ← advance
  let expression ← g.expression
  semicolon "throw statement"
  finish .throwStatement start [.node expression]

def ifStatement (g : Grammar) : Parser Node := do
  let start ← here
  let _ ← advance
  expect .parenOpen "if statement"
  let condition ← g.expression
  expect .parenClose "if statement"
  let consequence ← g.statement
  let alternative ← if ← eatWord "else" then some <$> g.statement else pure none
  finish .ifStatement start [.node condition, .node consequence, .ofOption alternative]

def variableDeclaration (g : Grammar) : Parser Node := do
  let start ← here
  let name ← identifier "variable declaration"
  let type ← announced .colon g.typeNode
  let initializer ← announced .assign g.expression
  finish .variableDeclaration start [.node name, .ofOption type, .ofOption initializer]

/-- Variables, from the keyword on; the statement itself begins at byte `start`. -/
def variableStatement (g : Grammar) (exported : Bool) (start : Nat) : Parser Node := do
  let listStart ← here
  let keyword ← advance
  let declarations ← loop [] fun declarations => do
    let declaration ← g.variableDeclaration
    let more ← eat .comma
    return (declarations ++ [declaration], more)
  let list ← finish .variableDeclarationList listStart [.text keyword.text, .list declarations]
  semicolon "variable statement"
  finish .variableStatement start [.flag exported, .node list]

def functionDeclaration (g : Grammar) (exported : Bool) (start : Nat) : Parser Node := do
  let async ← eatWord "async"
  expectWord "function" "function declaration"
  let name ← identifier "function declaration"
  let typeParameters ← g.typeParameters
  let parameters ← g.parameters
  let type ← announced .colon g.typeNode
  let body ← if ← atPunct .braceOpen then some <$> g.block else
    semicolon "function declaration"
    pure none
  finish .functionDeclaration start
    [.flag exported, .flag async, .node name, .list typeParameters, .list parameters,
     .ofOption type, .ofOption body]

def isVariableKeyword (word : String) : Bool :=
  word = "const" || word = "let" || word = "var"

def exportStatement (g : Grammar) : Parser Node := do
  let start ← here
  let _ ← advance
  let t ← current
  if t.kind = .word && isVariableKeyword t.text then g.variableStatement true start
  else if t.isWord "function" || t.isWord "async" then g.functionDeclaration true start
  else
    reject .unexpectedToken "export declaration" ["'const'", "'let'", "'var'", "'function'"]

def importSpecifier : Parser Node := do
  let start ← here
  let imported ← identifierName "import specifier"
  if ← eatWord "as" then
    let name ← identifier "import specifier"
    finish .importSpecifier start [.node imported, .node name]
  else finish .importSpecifier start [.absent, .node imported]

def namedBindings : Parser Node := do
  let start ← here
  if ← eat .star then
    expectWord "as" "namespace import"
    let name ← identifier "namespace import"
    finish .namespaceImport start [.node name]
  else
    expect .braceOpen "named imports"
    let elements ← commaList .braceClose (pure ()) importSpecifier
    expect .braceClose "named imports"
    finish .namedImports start [.list elements]

def importClause : Parser Node := do
  let start ← here
  let t ← current
  if t.kind = .word && t.text ≠ "from" then
    let name ← identifier "import clause"
    let bindings ← announced .comma namedBindings
    finish .importClause start [.node name, .ofOption bindings]
  else if t.kind = .punct .braceOpen || t.kind = .punct .star then
    let bindings ← namedBindings
    finish .importClause start [.absent, .node bindings]
  else reject .invalidImport "import declaration"

def importDeclaration : Parser Node := do
  let start ← here
  let _ ← advance
  if (← current).kind = .string then
    let module ← stringLiteral
    semicolon "import declaration"
    finish .importDeclaration start [.absent, .node module]
  else
    let clause ← importClause
    expectWord "from" "import declaration"
    if (← current).kind ≠ .string then
      reject .invalidImport "import declaration" ["module specifier string"]
    let module ← stringLiteral
    semicolon "import declaration"
    finish .importDeclaration start [.node clause, .node module]

def wordStatement (g : Grammar) (word : String) : Parser Node := do
  let start ← here
  let next ← next?
  let called := next.any fun t => t.kind = .punct .parenOpen || t.kind = .punct .dot
  if word = "import" && !called then importDeclaration
  else if word = "export" then g.exportStatement
  else if isVariableKeyword word then g.variableStatement false start
  else if ← startsFunction word then g.functionDeclaration false start
  else if word = "return" then g.returnStatement
  else if word = "if" then g.ifStatement
  else if word = "throw" then g.throwStatement
  else g.expressionStatement

def anyStatement (g : Grammar) : Parser Node := do
  let start ← here
  let t ← current
  match t.kind with
  | .punct .braceOpen => g.block
  | .punct .semicolon =>
    let _ ← advance
    finish .emptyStatement start []
  | .word => g.wordStatement t.text
  | _ => g.expressionStatement

def deeper (g : Grammar) : Grammar where
  statement := g.anyStatement
  expression := g.assignment
  operation := g.binary
  operand := g.unary
  typeNode := g.unionType

def toDepth : Nat → Grammar
  | 0 => ⟨starve, starve, fun _ => starve, starve, starve⟩
  | depth + 1 => (toDepth depth).deeper

end Quasiquote.Grammar
