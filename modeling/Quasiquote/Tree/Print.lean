import Quasiquote.Text.Alphabetic
import Quasiquote.Token.Operator
import Quasiquote.Token.Quote
import Quasiquote.Tree.Node

namespace Quasiquote

namespace Node

def power (n : Node) : Nat :=
  match n.kind with
  | .arrowFunction => Power.assignmentLevel
  | .conditionalExpression => Power.conditionalLevel
  | .binaryExpression => Power.levelOfText (n.text .operator)
  | .asExpression => Power.relational.left
  | .prefixUnaryExpression => Power.unaryLevel
  | .callExpression | .newExpression | .propertyAccessExpression | .elementAccessExpression
  | .taggedTemplateExpression => Power.postfixLevel
  | _ => Power.primaryLevel

def firstOperand? (n : Node) : Option { c : Node // sizeOf c < sizeOf n } :=
  match n.kind with
  | .callExpression | .propertyAccessExpression | .elementAccessExpression | .asExpression =>
    n.smaller? .expression
  | .taggedTemplateExpression => n.smaller? .tag
  | .binaryExpression => n.smaller? .left
  | .conditionalExpression => n.smaller? .condition
  | _ => none

/-- Whether a statement that begins with this expression would be taken for a block or a
declaration. A first operand that is put in parentheses begins with one. -/
def startsLikeStatement (n : Node) : Bool :=
  if n.kind = .objectLiteralExpression || n.kind = .functionExpression then true
  else
    match n.firstOperand? with
    | some ⟨c, _⟩ => if n.power ≤ c.power then startsLikeStatement c else false
    | none => false
termination_by sizeOf n

end Node

namespace Print

def newline (depth : Nat) : String :=
  String.ofList ('\n' :: List.replicate (4 * depth) ' ')

def parens (s : String) : String :=
  "(" ++ s ++ ")"

def commas (items : List String) : String :=
  ", ".intercalate items

def quoted (n : Node) : String :=
  String.ofList (Literal.quote (n.text .text).toList (if n.flag .singleQuote then '\'' else '"'))

def templateText (s : String) : String :=
  String.ofList (Literal.escapeTemplate s.toList)

def operandPowers (op : String) : Nat × Nat :=
  let level := Power.levelOfText op
  if level = Power.assignmentLevel then (Power.postfixLevel, Power.assignmentLevel)
  else (level, level + 1)

/-- A number without a point would take the dot of a property access for its own. -/
def needsSecondDot (object : Node) : Bool :=
  object.kind = .numericLiteral && (object.text? .text).any fun t => !t.contains '.'

def repeatsSign (op : String) (operand : Node) : Bool :=
  operand.kind = .prefixUnaryExpression && (op = "-" || op = "+") && operand.text .operator = op

mutual

def text (depth : Nat) (n : Node) : String :=
  match n.kind with
  | .sourceFile => String.join ((n.smallerList .statements).map fun ⟨s, _⟩ => text depth s ++ "\n")
  | .importDeclaration =>
    let clause := (n.smaller? .importClause).elim "" fun ⟨c, _⟩ => importClause depth c ++ " from "
    let module := (n.smaller? .moduleSpecifier).elim "" fun ⟨c, _⟩ => text depth c
    "import " ++ clause ++ module ++ ";"
  | .importClause => importClause depth n
  | .namespaceImport | .namedImports => namedBindings depth n
  | .importSpecifier => importSpecifier depth n
  | .variableStatement =>
    let exporting := if n.flag .isExported then "export " else ""
    let declarations :=
      (n.smaller? .declarationList).elim "" fun ⟨c, _⟩ => declarationList depth c
    exporting ++ declarations ++ ";"
  | .variableDeclarationList => declarationList depth n
  | .variableDeclaration => declaration depth n
  | .functionDeclaration =>
    let exporting := if n.flag .isExported then "export " else ""
    exporting ++ function depth n ++ (if (n.child? .body).isNone then ";" else "")
  | .parameter => parameter depth n
  | .typeParameter => typeParameter depth n
  | .block => block depth n
  | .expressionStatement =>
    let expression := (n.smaller? .expression).elim "" fun ⟨c, _⟩ =>
      if c.startsLikeStatement then parens (text depth c) else text depth c
    expression ++ ";"
  | .returnStatement =>
    "return" ++ ((n.smaller? .expression).elim "" fun ⟨c, _⟩ => " " ++ text depth c) ++ ";"
  | .ifStatement =>
    let condition := (n.smaller? .expression).elim "" fun ⟨c, _⟩ => text depth c
    let consequence := (n.smaller? .thenStatement).elim "" fun ⟨c, _⟩ => text depth c
    let alternative := (n.smaller? .elseStatement).elim "" fun ⟨c, _⟩ => " else " ++ text depth c
    "if (" ++ condition ++ ") " ++ consequence ++ alternative
  | .throwStatement =>
    "throw " ++ ((n.smaller? .expression).elim "" fun ⟨c, _⟩ => text depth c) ++ ";"
  | .emptyStatement => ";"
  | .identifier | .numericLiteral => n.text .text
  | .stringLiteral => quoted n
  | .trueKeyword => "true"
  | .falseKeyword => "false"
  | .nullKeyword => "null"
  | .thisKeyword => "this"
  | .noSubstitutionTemplateLiteral => "`" ++ templateText (n.text .text) ++ "`"
  | .templateExpression =>
    let spans := (n.smallerList .templateSpans).map fun ⟨c, _⟩ => templateSpan depth c
    "`" ++ templateText (n.text .head) ++ String.join spans ++ "`"
  | .templateSpan => (n.smaller? .expression).elim "" fun ⟨c, _⟩ => text depth c
  | .taggedTemplateExpression =>
    let tag := (n.smaller? .tag).elim "" fun ⟨c, _⟩ => operand depth Power.postfixLevel c
    let template := (n.smaller? .template).elim "" fun ⟨c, _⟩ => text depth c
    tag ++ typeArguments depth n ++ template
  | .arrowFunction =>
    let async := if n.flag .isAsync then "async " else ""
    let body := (n.smaller? .body).elim "" fun ⟨c, _⟩ =>
      if c.kind = .block then block depth c
      else if c.kind = .objectLiteralExpression then parens (text depth c)
      else operand depth Power.assignmentLevel c
    async ++ signature depth n ++ " => " ++ body
  | .functionExpression => function depth n
  | .callExpression =>
    let callee := (n.smaller? .expression).elim "" fun ⟨c, _⟩ =>
      operand depth Power.postfixLevel c
    callee ++ typeArguments depth n ++ arguments depth n
  | .newExpression =>
    let callee := (n.smaller? .expression).elim "" fun ⟨c, _⟩ =>
      if c.kind = .callExpression then parens (text depth c)
      else operand depth Power.postfixLevel c
    "new " ++ callee ++ typeArguments depth n ++ arguments depth n
  | .propertyAccessExpression =>
    let object := (n.smaller? .expression).elim "" fun ⟨c, _⟩ =>
      operand depth Power.postfixLevel c ++ (if needsSecondDot c then "." else "")
    object ++ "." ++ ((n.smaller? .name).elim "" fun ⟨c, _⟩ => text depth c)
  | .elementAccessExpression =>
    let object := (n.smaller? .expression).elim "" fun ⟨c, _⟩ =>
      operand depth Power.postfixLevel c
    let argument := (n.smaller? .argumentExpression).elim "" fun ⟨c, _⟩ => text depth c
    object ++ "[" ++ argument ++ "]"
  | .parenthesizedExpression =>
    parens ((n.smaller? .expression).elim "" fun ⟨c, _⟩ => text depth c)
  | .arrayLiteralExpression =>
    let elements := (n.smallerList .elements).map fun ⟨c, _⟩ =>
      operand depth Power.assignmentLevel c
    "[" ++ commas elements ++ "]"
  | .objectLiteralExpression =>
    let properties := (n.smallerList .properties).map fun ⟨c, _⟩ => text depth c
    if properties.isEmpty then "\x7b\x7d" else "\x7b " ++ commas properties ++ " \x7d"
  | .propertyAssignment =>
    let name := (n.smaller? .name).elim "" fun ⟨c, _⟩ => text depth c
    let value := (n.smaller? .initializer).elim "" fun ⟨c, _⟩ =>
      operand depth Power.assignmentLevel c
    name ++ ": " ++ value
  | .shorthandPropertyAssignment => (n.smaller? .name).elim "" fun ⟨c, _⟩ => text depth c
  | .spreadAssignment | .spreadElement =>
    "..." ++ ((n.smaller? .expression).elim "" fun ⟨c, _⟩ =>
      operand depth Power.assignmentLevel c)
  | .binaryExpression =>
    let op := n.text .operator
    let left := (n.smaller? .left).elim "" fun ⟨c, _⟩ => operand depth (operandPowers op).1 c
    let right := (n.smaller? .right).elim "" fun ⟨c, _⟩ => operand depth (operandPowers op).2 c
    left ++ " " ++ op ++ " " ++ right
  | .prefixUnaryExpression =>
    let op := n.text .operator
    let blank := if op.toList.all Text.isAlphabetic then " " else ""
    op ++ blank ++ ((n.smaller? .operand).elim "" fun ⟨c, _⟩ =>
      (if repeatsSign op c then " " else "") ++ operand depth Power.unaryLevel c)
  | .conditionalExpression =>
    let condition := (n.smaller? .condition).elim "" fun ⟨c, _⟩ =>
      operand depth (Power.conditionalLevel + 1) c
    let whenTrue := (n.smaller? .whenTrue).elim "" fun ⟨c, _⟩ =>
      operand depth Power.assignmentLevel c
    let whenFalse := (n.smaller? .whenFalse).elim "" fun ⟨c, _⟩ =>
      operand depth Power.assignmentLevel c
    condition ++ " ? " ++ whenTrue ++ " : " ++ whenFalse
  | .asExpression =>
    let expression := (n.smaller? .expression).elim "" fun ⟨c, _⟩ =>
      operand depth Power.relational.left c
    expression ++ " as " ++ ((n.smaller? .typeNode).elim "" fun ⟨c, _⟩ => text depth c)
  | .typeReference =>
    ((n.smaller? .typeName).elim "" fun ⟨c, _⟩ => text depth c) ++ typeArguments depth n
  | .qualifiedName =>
    let left := (n.smaller? .left).elim "" fun ⟨c, _⟩ => text depth c
    left ++ "." ++ ((n.smaller? .right).elim "" fun ⟨c, _⟩ => text depth c)
  | .keywordType => (n.text? .keyword).getD "any"
  | .typeLiteral =>
    let members := (n.smallerList .members).map fun ⟨c, _⟩ => propertySignature depth c ++ ";"
    if members.isEmpty then "\x7b\x7d" else "\x7b " ++ " ".intercalate members ++ " \x7d"
  | .propertySignature => propertySignature depth n
  | .arrayType =>
    let element := (n.smaller? .elementType).elim "" fun ⟨c, _⟩ =>
      if c.kind = .unionType || c.kind = .functionType then parens (text depth c)
      else text depth c
    element ++ "[]"
  | .unionType =>
    let members := (n.smallerList .types).map fun ⟨c, _⟩ =>
      if c.kind = .functionType then parens (text depth c) else text depth c
    " | ".intercalate members
  | .literalType => (n.smaller? .literal).elim "" fun ⟨c, _⟩ => text depth c
  | .functionType =>
    let result := (n.smaller? .typeNode).elim "" fun ⟨c, _⟩ => text depth c
    typeParameters depth n ++ parameters depth n ++ " => " ++ result
termination_by 8 * sizeOf n + 3

/-- An expression, in parentheses when it holds together less tightly than `least`. -/
def operand (depth least : Nat) (n : Node) : String :=
  if n.power < least then parens (text depth n) else text depth n
termination_by 8 * sizeOf n + 4

def block (depth : Nat) (n : Node) : String :=
  let statements := (n.smallerList .statements).map fun ⟨c, _⟩ =>
    newline (depth + 1) ++ text (depth + 1) c
  if statements.isEmpty then "\x7b\x7d"
  else "\x7b" ++ String.join statements ++ newline depth ++ "\x7d"
termination_by 8 * sizeOf n + 2

def importClause (depth : Nat) (n : Node) : String :=
  let name := (n.smaller? .name).elim "" fun ⟨c, _⟩ => text depth c
  let bindings := (n.smaller? .namedBindings).elim "" fun ⟨c, _⟩ =>
    (if (n.child? .name).isSome then ", " else "") ++ namedBindings depth c
  name ++ bindings
termination_by 8 * sizeOf n + 2

def namedBindings (depth : Nat) (n : Node) : String :=
  if n.kind = .namespaceImport then
    "* as " ++ ((n.smaller? .name).elim "" fun ⟨c, _⟩ => text depth c)
  else
    let elements := (n.smallerList .elements).map fun ⟨c, _⟩ => importSpecifier depth c
    "\x7b " ++ commas elements ++ " \x7d"
termination_by 8 * sizeOf n + 2

def importSpecifier (depth : Nat) (n : Node) : String :=
  let property := (n.smaller? .propertyName).elim "" fun ⟨c, _⟩ => text depth c ++ " as "
  property ++ ((n.smaller? .name).elim "" fun ⟨c, _⟩ => text depth c)
termination_by 8 * sizeOf n + 2

def declarationList (depth : Nat) (n : Node) : String :=
  let declarations := (n.smallerList .declarations).map fun ⟨c, _⟩ => declaration depth c
  (n.text? .keyword).getD "const" ++ " " ++ commas declarations
termination_by 8 * sizeOf n + 2

def declaration (depth : Nat) (n : Node) : String :=
  let name := (n.smaller? .name).elim "" fun ⟨c, _⟩ => text depth c
  name ++ typeSuffix depth n ++ initializer depth n
termination_by 8 * sizeOf n + 2

def function (depth : Nat) (n : Node) : String :=
  let async := if n.flag .isAsync then "async " else ""
  let name := (n.smaller? .name).elim "" fun ⟨c, _⟩ => " " ++ text depth c
  let body := (n.smaller? .body).elim "" fun ⟨c, _⟩ => " " ++ block depth c
  async ++ "function" ++ name ++ signature depth n ++ body
termination_by 8 * sizeOf n + 2

def signature (depth : Nat) (n : Node) : String :=
  typeParameters depth n ++ parameters depth n ++ typeSuffix depth n
termination_by 8 * sizeOf n + 1

def parameters (depth : Nat) (n : Node) : String :=
  parens (commas ((n.smallerList .parameters).map fun ⟨c, _⟩ => parameter depth c))
termination_by 8 * sizeOf n + 0

def parameter (depth : Nat) (n : Node) : String :=
  let rest := if n.flag .rest then "..." else ""
  let name := (n.smaller? .name).elim "" fun ⟨c, _⟩ => text depth c
  let optional := if n.flag .isOptional then "?" else ""
  rest ++ name ++ optional ++ typeSuffix depth n ++ initializer depth n
termination_by 8 * sizeOf n + 2

def typeSuffix (depth : Nat) (n : Node) : String :=
  (n.smaller? .typeNode).elim "" fun ⟨c, _⟩ => ": " ++ text depth c
termination_by 8 * sizeOf n + 0

def initializer (depth : Nat) (n : Node) : String :=
  (n.smaller? .initializer).elim "" fun ⟨c, _⟩ => " = " ++ operand depth Power.assignmentLevel c
termination_by 8 * sizeOf n + 0

def typeParameters (depth : Nat) (n : Node) : String :=
  let parameters := (n.smallerList .typeParameters).map fun ⟨c, _⟩ => typeParameter depth c
  if parameters.isEmpty then "" else "<" ++ commas parameters ++ ">"
termination_by 8 * sizeOf n + 0

def typeParameter (depth : Nat) (n : Node) : String :=
  let name := (n.smaller? .name).elim "" fun ⟨c, _⟩ => text depth c
  let constraint := (n.smaller? .constraint).elim "" fun ⟨c, _⟩ => " extends " ++ text depth c
  name ++ constraint ++ ((n.smaller? .defaultType).elim "" fun ⟨c, _⟩ => " = " ++ text depth c)
termination_by 8 * sizeOf n + 2

def typeArguments (depth : Nat) (n : Node) : String :=
  let arguments := (n.smallerList .typeArguments).map fun ⟨c, _⟩ => text depth c
  if arguments.isEmpty then "" else "<" ++ commas arguments ++ ">"
termination_by 8 * sizeOf n + 0

def arguments (depth : Nat) (n : Node) : String :=
  parens (commas ((n.smallerList .arguments).map fun ⟨c, _⟩ =>
    operand depth Power.assignmentLevel c))
termination_by 8 * sizeOf n + 0

def templateSpan (depth : Nat) (n : Node) : String :=
  let expression := (n.smaller? .expression).elim "" fun ⟨c, _⟩ => text depth c
  "$\x7b" ++ expression ++ "\x7d" ++ templateText (n.text .literal)
termination_by 8 * sizeOf n + 2

def propertySignature (depth : Nat) (n : Node) : String :=
  let name := (n.smaller? .name).elim "" fun ⟨c, _⟩ => text depth c
  name ++ (if n.flag .isOptional then "?" else "") ++ typeSuffix depth n
termination_by 8 * sizeOf n + 2

end

end Print

/-- The text of a node. A module has one statement on a line and a line feed after each; anything
else ends without one. Parentheses are added only where the shape of the tree needs them. -/
def Node.print (n : Node) : String :=
  Print.text 0 n

end Quasiquote
