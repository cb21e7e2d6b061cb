import Quasiquote.Grammar.Types

namespace Quasiquote.Grammar

open Quasiquote.Parser

def block (g : Grammar) : Parser Node := do
  let start ← here
  expect .braceOpen "block"
  let statements ← loop [] fun statements => do
    if ← atPunct .braceClose then return (statements, false)
    if ← atEof then reject .missingClosingBrace "block"
    let statement ← g.statement
    return (statements ++ [statement], true)
  let _ ← advance
  finish .block start [.list statements]

def element (g : Grammar) : Parser Node := do
  let start ← here
  if ← eat .ellipsis then
    let expression ← g.expression
    finish .spreadElement start [.node expression]
  else g.expression

def arguments (g : Grammar) : Parser (List Node) := do
  expect .parenOpen "argument list"
  let arguments ← commaList .parenClose
    (do if ← atEof then reject .missingClosingParen "argument list") g.element
  expect .parenClose "argument list"
  return arguments

def arrayLiteral (g : Grammar) : Parser Node := do
  let start ← here
  let _ ← advance
  let elements ← commaList .bracketClose
    (do if ← atEof then reject .unexpectedEof "array literal" ["']'"]) g.element
  expect .bracketClose "array literal"
  finish .arrayLiteralExpression start [.list elements]

def propertyName : Parser Node := do
  match (← current).kind with
  | .string => stringLiteral
  | .number => numericLiteral
  | _ => identifierName "object literal"

def objectMember (g : Grammar) : Parser Node := do
  let start ← here
  if ← eat .ellipsis then
    let expression ← g.expression
    finish .spreadAssignment start [.node expression]
  else
    let name ← propertyName
    if ← eat .colon then
      let initializer ← g.expression
      finish .propertyAssignment start [.node name, .node initializer]
    else if name.kind = .identifier then
      finish .shorthandPropertyAssignment start [.node name]
    else reject .expectedToken "object literal" ["':'"]

def objectLiteral (g : Grammar) : Parser Node := do
  let start ← here
  let _ ← advance
  let properties ← commaList .braceClose
    (do if ← atEof then reject .missingClosingBrace "object literal") g.objectMember
  expect .braceClose "object literal"
  finish .objectLiteralExpression start [.list properties]

/-- A substitution and the template piece after it. The token after the substitution is passed
before it is known to be such a piece. -/
def templateSpan (g : Grammar) : Parser (Node × Bool) := do
  let start ← here
  let expression ← g.expression
  let t ← advance
  if t.kind = .template .middle || t.kind = .template .tail then
    let span ← finish .templateSpan start [.node expression, .text t.value]
    return (span, t.kind = .template .middle)
  else reject .expectedToken "template literal" ["'\x7d'"]

def templateLiteral (g : Grammar) : Parser Node := do
  let start ← here
  let t ← advance
  if t.kind = .template .whole then
    finish .noSubstitutionTemplateLiteral start [.text t.value]
  else
    let spans ← loop [] fun spans => do
      let (span, more) ← g.templateSpan
      return (spans ++ [span], more)
    finish .templateExpression start [.text t.value, .list spans]

def functionExpression (g : Grammar) : Parser Node := do
  let start ← here
  let async ← eatWord "async"
  expectWord "function" "function expression"
  let name ←
    if (← current).kind = .word then some <$> identifier "function expression" else pure none
  let typeParameters ← g.typeParameters
  let parameters ← g.parameters
  let type ← announced .colon g.typeNode
  let body ← g.block
  finish .functionExpression start
    [.flag async, .ofOption name, .list typeParameters, .list parameters, .ofOption type,
     .node body]

def keywordLiteral? : String → Option Kind
  | "true" => some .trueKeyword
  | "false" => some .falseKeyword
  | "null" => some .nullKeyword
  | "this" => some .thisKeyword
  | _ => none

def startsFunction (word : String) : Parser Bool := do
  let next ← next?
  return word = "function" || (word = "async" && next.any fun t => t.isWord "function")

def primary (g : Grammar) : Parser Node := do
  let start ← here
  let t ← current
  match t.kind with
  | .word =>
    match keywordLiteral? t.text with
    | some kind =>
      let _ ← advance
      finish kind start []
    | none =>
      if ← startsFunction t.text then g.functionExpression else identifier "expression"
  | .number => numericLiteral
  | .string => stringLiteral
  | .template .whole | .template .head => g.templateLiteral
  | .punct .parenOpen =>
    let _ ← advance
    let expression ← g.expression
    expect .parenClose "parenthesized expression"
    finish .parenthesizedExpression start [.node expression]
  | .punct .bracketOpen => g.arrayLiteral
  | .punct .braceOpen => g.objectLiteral
  | _ => reject .expectedExpression "expression"

def newExpression (g : Grammar) : Parser Node := do
  let start ← here
  let _ ← advance
  let first ← g.primary
  let callee ← loop first fun callee => do
    if ← eat .dot then
      let name ← identifierName "property access"
      let access ← finish .propertyAccessExpression start [.node callee, .node name]
      return (access, true)
    else return (callee, false)
  let typeArguments ←
    if ← atPunct .less then (·.getD []) <$> attempt g.typeArguments else pure []
  let arguments ← if ← atPunct .parenOpen then g.arguments else pure []
  finish .newExpression start [.node callee, .list typeArguments, .list arguments]

def atTemplate : Parser Bool := do
  let kind := (← current).kind
  return kind = .template .whole || kind = .template .head

def appliedTypeArguments (g : Grammar) : Parser (List Node) := do
  let types ← g.typeArguments
  if (← atPunct .parenOpen) || (← atTemplate) then return types
  else reject .unexpectedToken "type arguments"

def application (g : Grammar) (start : Nat) (callee : Node) (typeArguments : List Node) :
    Parser Node := do
  if ← atPunct .parenOpen then
    let arguments ← g.arguments
    finish .callExpression start [.node callee, .list typeArguments, .list arguments]
  else
    let template ← g.templateLiteral
    finish .taggedTemplateExpression start [.node callee, .list typeArguments, .node template]

/-- One access, call or tagged template after an expression that begins at byte `start`. -/
def postfixStep (g : Grammar) (start : Nat) (expression : Node) : Parser (Node × Bool) := do
  match (← current).kind with
  | .punct .dot =>
    let _ ← advance
    let name ← identifierName "property access"
    let access ← finish .propertyAccessExpression start [.node expression, .node name]
    return (access, true)
  | .punct .bracketOpen =>
    let _ ← advance
    let argument ← g.expression
    expect .bracketClose "element access"
    let access ← finish .elementAccessExpression start [.node expression, .node argument]
    return (access, true)
  | .punct .parenOpen | .template .whole | .template .head =>
    let applied ← g.application start expression []
    return (applied, true)
  | .punct .less =>
    match ← attempt g.appliedTypeArguments with
    | some types =>
      let applied ← g.application start expression types
      return (applied, true)
    | none => return (expression, false)
  | _ => return (expression, false)

def leftHandSide (g : Grammar) : Parser Node := do
  let start ← here
  let first ← if ← atWord "new" then g.newExpression else g.primary
  loop first (g.postfixStep start)

def sign? (t : Token) : Option String :=
  match t.kind with
  | .punct .bang => some "!"
  | .punct .minus => some "-"
  | .punct .plus => some "+"
  | .punct .tilde => some "~"
  | .word => if t.text = "typeof" || t.text = "void" then some t.text else none
  | _ => none

def unary (g : Grammar) : Parser Node := do
  let start ← here
  match sign? (← current) with
  | some sign =>
    let _ ← advance
    let operand ← g.operand
    finish .prefixUnaryExpression start [.text sign, .node operand]
  | none => g.leftHandSide

def binaryStep (g : Grammar) (least start : Nat) (left : Node) : Parser (Node × Bool) := do
  if (← atWord "as") && least ≤ Power.relational.left then
    let _ ← advance
    let type ← g.typeNode
    let cast ← finish .asExpression start [.node left, .node type]
    return (cast, true)
  match (← current).kind.binary? with
  | some (op, power) =>
    if power.left < least then return (left, false)
    let _ ← advance
    let right ← g.operation power.right
    let operation ← finish .binaryExpression start [.node left, .text op, .node right]
    return (operation, true)
  | none => return (left, false)

def binary (g : Grammar) (least : Nat) : Parser Node := do
  let start ← here
  let first ← g.unary
  loop first (g.binaryStep least start)

def conditional (g : Grammar) : Parser Node := do
  let start ← here
  let condition ← g.binary 0
  if ← eat .question then
    let whenTrue ← g.expression
    expect .colon "conditional expression"
    let whenFalse ← g.expression
    finish .conditionalExpression start [.node condition, .node whenTrue, .node whenFalse]
  else return condition

def arrowBody (g : Grammar) : Parser Node := do
  if ← atPunct .braceOpen then g.block else g.expression

/-- Type parameters, parameters and result type of an arrow function, with the arrow. -/
def arrowHead (g : Grammar) : Parser (List Node × List Node × Option Node) := do
  let typeParameters ← g.typeParameters
  let parameters ← g.parameters
  let type ← announced .colon g.typeNode
  expect .arrow "arrow function"
  return (typeParameters, parameters, type)

def atAsyncArrow : Parser Bool := do
  let next ← next?
  let opens := next.any fun t =>
    (t.kind = .word || t.kind = .punct .parenOpen || t.kind = .punct .less) && !t.newlineBefore
  return (← atWord "async") && opens

def atBareArrow : Parser Bool := do
  let t ← current
  let next ← next?
  return t.kind = .word && (next.any fun t => t.kind = .punct .arrow) && !isReserved t.text

/-- The rest of an arrow function after its name for asynchrony: an error where it must be one, and
none where it is none. -/
def arrowAfterAsync (g : Grammar) (start : Nat) (async : Bool) : Parser (Option Node) := do
  if ← atBareArrow then
    let parameterStart ← here
    let name ← identifier "arrow function"
    let parameter ← finish .parameter parameterStart
      [.flag false, .node name, .flag false, .absent, .absent]
    let _ ← advance
    let body ← g.arrowBody
    let function ← finish .arrowFunction start
      [.flag async, .list [], .list [parameter], .absent, .node body]
    return some function
  if !(← atPunct .parenOpen) && !(← atPunct .less) then return none
  match ← attempt g.arrowHead with
  | none => return none
  | some (typeParameters, parameters, type) =>
    let body ← g.arrowBody
    let function ← finish .arrowFunction start
      [.flag async, .list typeParameters, .list parameters, .ofOption type, .node body]
    return some function

def arrow? (g : Grammar) : Parser (Option Node) := fun c =>
  let p : Parser (Option Node) := do
    let start ← here
    let async ← atAsyncArrow
    if async then
      let _ ← advance
    g.arrowAfterAsync start async
  match p c with
  | .done none _ => .done none c
  | outcome => outcome

/-- An expression: an arrow function, or a conditional that may be assigned to. -/
def assignment (g : Grammar) : Parser Node := do
  match ← g.arrow? with
  | some function => return function
  | none =>
    let start ← here
    let left ← g.conditional
    match (← current).kind.assignment? with
    | some op =>
      let _ ← advance
      let right ← g.expression
      finish .binaryExpression start [.node left, .text op, .node right]
    | none => return left

end Quasiquote.Grammar
