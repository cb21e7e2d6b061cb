import Quasiquote.Grammar.Module
import Quasiquote.Proofs.Conformance

namespace Quasiquote

inductive Terminal
  | punct (p : Punct)
  | word (text : String)

namespace Terminal

def Matches : Terminal → Token → Prop
  | punct p, t => t.kind = .punct p
  | word text, t => t.isWord text = true

def Perhaps (m : Terminal) (ts : List Token) (present : Bool) : Prop :=
  (∃ t, m.Matches t ∧ ts = [t] ∧ present = true) ∨ (ts = [] ∧ present = false)

def Separates (operators : List Punct) (ts : List Token) : Prop :=
  ts = [] ∨ ∃ t, ∃ p ∈ operators, t.kind = .punct p ∧ ts = [t]

end Terminal

def Token.extent (ts : List Token) : Span :=
  let start := (ts.head?.map Token.start).getD 0
  ⟨start, max ((ts.getLast?.map Token.stop).getD 0) start⟩

def Node.over (kind : Kind) (ts : List Token) (fields : List Field) : Node :=
  .mk kind { span := some (Token.extent ts) } fields

/-- No semicolon stands between two runs of tokens unless the first ends a statement by itself. -/
def Token.Parts (ts us : List Token) : Prop :=
  ∀ t ∈ ts.getLast?, ∀ u ∈ us.head?,
    t.kind = .punct .semicolon ∨ t.kind = .punct .braceClose ∨ u.kind ≠ .punct .semicolon

inductive Phrase
  | optional (p : Phrase)
  | announced (m : Terminal) (p : Phrase)
  /-- Any number of phrases, after each of which one of some operators may stand. -/
  | many (separators : List Punct) (p : Phrase)
  /-- Phrases with an operator between them, at least one. -/
  | joined (operator : Punct) (p : Phrase)
  | enclosed (opening closing : Punct) (p : Phrase)
  | name | word | string | number | truth
  | parameter | bareParameter | typeParameter | entity | signature | type
  | block | element | property | member | span | template | callee | body | expression
  | declaration | declarationList | specifier | bindings | clause | statement | statements

namespace Phrase

def typeArguments : Phrase := .enclosed .less .greater .type
def parameters : Phrase := .enclosed .parenOpen .parenClose .parameter
def typeParameters : Phrase := .optional (.enclosed .less .greater .typeParameter)
def arguments : Phrase := .enclosed .parenOpen .parenClose .element
def ascription : Phrase := .optional (.announced (.punct .colon) .type)
def initializer : Phrase := .optional (.announced (.punct .assign) .expression)

end Phrase

/-- The rules of the grammar that make a node, without the order in which a reader tries them: the
tokens of a phrase and the kind and fields of the node that covers them. The parts of the phrase stand
for nodes as `D` says. -/
inductive Makes (D : Phrase → List Token → List Node → Prop) :
    Phrase → List Token → Kind → List Field → Prop
  -- names and literals
  | name {t : Token} (ht : t.kind = .word) (hr : isReserved t.text = false) :
    Makes D .name [t] .identifier [.text t.text]
  | word {t : Token} (ht : t.kind = .word) : Makes D .word [t] .identifier [.text t.text]
  | string {t : Token} (ht : t.kind = .string) :
    Makes D .string [t] .stringLiteral [.text t.value, .flag t.singleQuote]
  | number {t : Token} (ht : t.kind = .number) :
    Makes D .number [t] .numericLiteral [.text t.text]
  | trueLiteral {t : Token} (ht : t.isWord "true" = true) : Makes D .truth [t] .trueKeyword []
  | falseLiteral {t : Token} (ht : t.isWord "false" = true) : Makes D .truth [t] .falseKeyword []
  -- types
  | parameter {rs ns os ts is : List Token} {rest isOptional : Bool} {name : Node}
    {type initializer : Option Node}
    (hr : Terminal.Perhaps (.punct .ellipsis) rs rest) (hn : D .name ns [name])
    (ho : Terminal.Perhaps (.punct .question) os isOptional) (ht : D .ascription ts type.toList)
    (hi : D .initializer is initializer.toList) :
    Makes D .parameter (rs ++ ns ++ os ++ ts ++ is) .parameter
      [.flag rest, .node name, .flag isOptional, .ofOption type, .ofOption initializer]
  | bareParameter {ns : List Token} {name : Node} (hn : D .name ns [name]) :
    Makes D .bareParameter ns .parameter
      [.flag false, .node name, .flag false, .absent, .absent]
  | typeParameter {ns cs ds : List Token} {name : Node} {constraint default : Option Node}
    (hn : D .name ns [name])
    (hc : D (.optional (.announced (.word "extends") .type)) cs constraint.toList)
    (hd : D (.optional (.announced (.punct .assign) .type)) ds default.toList) :
    Makes D .typeParameter (ns ++ cs ++ ds) .typeParameter
      [.node name, .ofOption constraint, .ofOption default]
  | functionType {qs ps rs : List Token} {t : Token} {typeParameters parameters : List Node}
    {result : Node} (hq : D .typeParameters qs typeParameters) (hp : D .parameters ps parameters)
    (ht : t.kind = .punct .arrow) (hr : D .type rs [result]) :
    Makes D .type (qs ++ ps ++ t :: rs) .functionType
      [.list typeParameters, .list parameters, .node result]
  | signature {p : Phrase} {ns os ts : List Token} {name : Node} {isOptional : Bool}
    {type : Option Node} (hp : p = .string ∨ p = .word) (hn : D p ns [name])
    (ho : Terminal.Perhaps (.punct .question) os isOptional) (ht : D .ascription ts type.toList) :
    Makes D .signature (ns ++ os ++ ts) .propertySignature
      [.node name, .flag isOptional, .ofOption type]
  | typeLiteral {t t' : Token} {ts : List Token} {members : List Node}
    (ht : t.kind = .punct .braceOpen) (h : D (.many [.semicolon, .comma] .signature) ts members)
    (ht' : t'.kind = .punct .braceClose) :
    Makes D .type (t :: ts ++ [t']) .typeLiteral [.list members]
  | qualifiedName {ls rs : List Token} {t : Token} {left right : Node}
    (hl : D .entity ls [left]) (ht : t.kind = .punct .dot) (hr : D .word rs [right]) :
    Makes D .entity (ls ++ t :: rs) .qualifiedName [.node left, .node right]
  | typeReference {ns ts : List Token} {name : Node} {arguments : List Node}
    (hn : D .entity ns [name]) (ht : D (.optional .typeArguments) ts arguments) :
    Makes D .type (ns ++ ts) .typeReference [.node name, .list arguments]
  | keywordType {t : Token} (ht : t.kind = .word)
    (hk : (KeywordType.ofName? t.text).isSome = true) :
    Makes D .type [t] .keywordType [.text t.text]
  | literalType {p : Phrase} {ts : List Token} {n : Node}
    (hp : p = .string ∨ p = .number ∨ p = .truth) (h : D p ts [n]) :
    Makes D .type ts .literalType [.node n]
  | arrayType {t t' : Token} {ts : List Token} {n : Node} (h : D .type ts [n])
    (ht : t.kind = .punct .bracketOpen) (ht' : t'.kind = .punct .bracketClose) :
    Makes D .type (ts ++ [t, t']) .arrayType [.node n]
  | unionType {bs ts : List Token} {barred : Bool} {types : List Node}
    (hb : Terminal.Perhaps (.punct .pipe) bs barred) (h : D (.joined .pipe .type) ts types) :
    Makes D .type (bs ++ ts) .unionType [.list types]
  -- lists, literals and functions
  | block {t t' : Token} {ts : List Token} {statements : List Node}
    (ht : t.kind = .punct .braceOpen) (h : D .statements ts statements)
    (ht' : t'.kind = .punct .braceClose) : Makes D .block (t :: ts ++ [t']) .block [.list statements]
  | spreadElement {t : Token} {ts : List Token} {n : Node} (ht : t.kind = .punct .ellipsis)
    (h : D .expression ts [n]) : Makes D .element (t :: ts) .spreadElement [.node n]
  | arrayLiteral {ts : List Token} {elements : List Node}
    (h : D (.enclosed .bracketOpen .bracketClose .element) ts elements) :
    Makes D .expression ts .arrayLiteralExpression [.list elements]
  | spreadAssignment {t : Token} {ts : List Token} {n : Node} (ht : t.kind = .punct .ellipsis)
    (h : D .expression ts [n]) : Makes D .member (t :: ts) .spreadAssignment [.node n]
  | propertyAssignment {t : Token} {ns ts : List Token} {name n : Node}
    (hn : D .property ns [name]) (ht : t.kind = .punct .colon) (h : D .expression ts [n]) :
    Makes D .member (ns ++ t :: ts) .propertyAssignment [.node name, .node n]
  | shorthandAssignment {ns : List Token} {name : Node} (hn : D .property ns [name])
    (hk : name.kind = .identifier) :
    Makes D .member ns .shorthandPropertyAssignment [.node name]
  | objectLiteral {ts : List Token} {members : List Node}
    (h : D (.enclosed .braceOpen .braceClose .member) ts members) :
    Makes D .expression ts .objectLiteralExpression [.list members]
  | span {t : Token} {ts : List Token} {n : Node} (h : D .expression ts [n])
    (ht : t.kind = .template .middle ∨ t.kind = .template .tail) :
    Makes D .span (ts ++ [t]) .templateSpan [.node n, .text t.value]
  | wholeTemplate {t : Token} (ht : t.kind = .template .whole) :
    Makes D .template [t] .noSubstitutionTemplateLiteral [.text t.value]
  | template {t : Token} {ts : List Token} {spans : List Node} (ht : t.kind = .template .head)
    (h : D (.many [] .span) ts spans) :
    Makes D .template (t :: ts) .templateExpression [.text t.value, .list spans]
  | functionExpression {t : Token} {as ns qs ps ts bs : List Token} {async : Bool}
    {name type : Option Node} {typeParameters parameters : List Node} {body : Node}
    (ha : Terminal.Perhaps (.word "async") as async) (ht : t.isWord "function" = true)
    (hn : D (.optional .name) ns name.toList) (hq : D .typeParameters qs typeParameters)
    (hp : D .parameters ps parameters) (hr : D .ascription ts type.toList)
    (hb : D .block bs [body]) :
    Makes D .expression (as ++ t :: ns ++ qs ++ ps ++ ts ++ bs) .functionExpression
      [.flag async, .ofOption name, .list typeParameters, .list parameters, .ofOption type,
       .node body]
  -- operands and operators
  | keywordLiteral {t : Token} {kind : Kind} (ht : t.kind = .word)
    (hk : Grammar.keywordLiteral? t.text = some kind) : Makes D .expression [t] kind []
  | parenthesized {t t' : Token} {ts : List Token} {n : Node} (ht : t.kind = .punct .parenOpen)
    (h : D .expression ts [n]) (ht' : t'.kind = .punct .parenClose) :
    Makes D .expression (t :: ts ++ [t']) .parenthesizedExpression [.node n]
  -- an access right after `new` has `new` among its tokens
  | calleeAccess {t : Token} {ts ns : List Token} {n name : Node} (h : D .callee ts [n])
    (ht : t.kind = .punct .dot) (hn : D .word ns [name]) :
    Makes D .callee (ts ++ t :: ns) .propertyAccessExpression [.node n, .node name]
  | newExpression {cs ts as : List Token} {callee : Node} {typeArguments arguments : List Node}
    (hc : D .callee cs [callee]) (ht : D (.optional .typeArguments) ts typeArguments)
    (ha : D (.optional .arguments) as arguments) :
    Makes D .expression (cs ++ ts ++ as) .newExpression
      [.node callee, .list typeArguments, .list arguments]
  | access {t : Token} {ts ns : List Token} {n name : Node} (h : D .expression ts [n])
    (ht : t.kind = .punct .dot) (hn : D .word ns [name]) :
    Makes D .expression (ts ++ t :: ns) .propertyAccessExpression [.node n, .node name]
  | elementAccess {t t' : Token} {ts as : List Token} {n argument : Node}
    (h : D .expression ts [n]) (ht : t.kind = .punct .bracketOpen)
    (ha : D .expression as [argument]) (ht' : t'.kind = .punct .bracketClose) :
    Makes D .expression (ts ++ t :: as ++ [t']) .elementAccessExpression
      [.node n, .node argument]
  | call {ts us as : List Token} {n : Node} {typeArguments arguments : List Node}
    (h : D .expression ts [n]) (ht : D (.optional .typeArguments) us typeArguments)
    (ha : D .arguments as arguments) :
    Makes D .expression (ts ++ us ++ as) .callExpression
      [.node n, .list typeArguments, .list arguments]
  | taggedTemplate {ts us as : List Token} {n template : Node} {typeArguments : List Node}
    (h : D .expression ts [n]) (ht : D (.optional .typeArguments) us typeArguments)
    (ha : D .template as [template]) :
    Makes D .expression (ts ++ us ++ as) .taggedTemplateExpression
      [.node n, .list typeArguments, .node template]
  | unary {t : Token} {ts : List Token} {sign : String} {n : Node}
    (ht : Grammar.sign? t = some sign) (h : D .expression ts [n]) :
    Makes D .expression (t :: ts) .prefixUnaryExpression [.text sign, .node n]
  | cast {t : Token} {ls rs : List Token} {left type : Node} (hl : D .expression ls [left])
    (ht : t.isWord "as" = true) (hr : D .type rs [type]) :
    Makes D .expression (ls ++ t :: rs) .asExpression [.node left, .node type]
  | binary {t : Token} {op : String} {ls rs : List Token} {left right : Node}
    (hl : D .expression ls [left])
    (ht : t.kind.binary?.map Prod.fst = some op ∨ t.kind.assignment? = some op)
    (hr : D .expression rs [right]) :
    Makes D .expression (ls ++ t :: rs) .binaryExpression [.node left, .text op, .node right]
  | conditional {t t' : Token} {cs ts us : List Token} {condition whenTrue whenFalse : Node}
    (hc : D .expression cs [condition]) (ht : t.kind = .punct .question)
    (h : D .expression ts [whenTrue]) (ht' : t'.kind = .punct .colon)
    (h' : D .expression us [whenFalse]) :
    Makes D .expression (cs ++ t :: ts ++ t' :: us) .conditionalExpression
      [.node condition, .node whenTrue, .node whenFalse]
  | bareArrow {t : Token} {as ps bs : List Token} {async : Bool} {parameter body : Node}
    (ha : Terminal.Perhaps (.word "async") as async) (hp : D .bareParameter ps [parameter])
    (ht : t.kind = .punct .arrow) (hb : D .body bs [body]) :
    Makes D .expression (as ++ ps ++ t :: bs) .arrowFunction
      [.flag async, .list [], .list [parameter], .absent, .node body]
  | arrow {t : Token} {as qs ps ts bs : List Token} {async : Bool}
    {typeParameters parameters : List Node} {type : Option Node} {body : Node}
    (ha : Terminal.Perhaps (.word "async") as async) (hq : D .typeParameters qs typeParameters)
    (hp : D .parameters ps parameters) (hr : D .ascription ts type.toList)
    (ht : t.kind = .punct .arrow) (hb : D .body bs [body]) :
    Makes D .expression (as ++ qs ++ ps ++ ts ++ t :: bs) .arrowFunction
      [.flag async, .list typeParameters, .list parameters, .ofOption type, .node body]
  -- statements
  | emptyStatement {t : Token} (ht : t.kind = .punct .semicolon) :
    Makes D .statement [t] .emptyStatement []
  | expressionStatement {ts us : List Token} {n : Node} (h : D .expression ts [n])
    (hs : Terminal.Separates [.semicolon] us) :
    Makes D .statement (ts ++ us) .expressionStatement [.node n]
  | returnStatement {t : Token} {ts us : List Token} {value : Option Node}
    (ht : t.isWord "return" = true) (h : D (.optional .expression) ts value.toList)
    (hs : Terminal.Separates [.semicolon] us) :
    Makes D .statement (t :: ts ++ us) .returnStatement [.ofOption value]
  | throwStatement {t : Token} {ts us : List Token} {n : Node} (ht : t.isWord "throw" = true)
    (h : D .expression ts [n]) (hs : Terminal.Separates [.semicolon] us) :
    Makes D .statement (t :: ts ++ us) .throwStatement [.node n]
  | ifStatement {t t' t'' : Token} {cs ts es : List Token} {condition consequence : Node}
    {alternative : Option Node} (ht : t.isWord "if" = true) (ht' : t'.kind = .punct .parenOpen)
    (hc : D .expression cs [condition]) (ht'' : t''.kind = .punct .parenClose)
    (h : D .statement ts [consequence])
    (he : D (.optional (.announced (.word "else") .statement)) es alternative.toList) :
    Makes D .statement (t :: t' :: cs ++ t'' :: ts ++ es) .ifStatement
      [.node condition, .node consequence, .ofOption alternative]
  | declaration {ns ts is : List Token} {name : Node} {type initializer : Option Node}
    (hn : D .name ns [name]) (ht : D .ascription ts type.toList)
    (hi : D .initializer is initializer.toList) :
    Makes D .declaration (ns ++ ts ++ is) .variableDeclaration
      [.node name, .ofOption type, .ofOption initializer]
  | declarationList {t : Token} {ds : List Token} {declarations : List Node} (ht : t.kind = .word)
    (hk : Grammar.isVariableKeyword t.text = true)
    (hd : D (.many [.comma] .declaration) ds declarations) :
    Makes D .declarationList (t :: ds) .variableDeclarationList [.text t.text, .list declarations]
  | variableStatement {es ds us : List Token} {exported : Bool} {list : Node}
    (he : Terminal.Perhaps (.word "export") es exported) (hd : D .declarationList ds [list])
    (hs : Terminal.Separates [.semicolon] us) :
    Makes D .statement (es ++ ds ++ us) .variableStatement [.flag exported, .node list]
  | functionDeclaration {t : Token} {es as ns qs ps ts bs us : List Token} {exported async : Bool}
    {name : Node} {type body : Option Node} {typeParameters parameters : List Node}
    (he : Terminal.Perhaps (.word "export") es exported)
    (ha : Terminal.Perhaps (.word "async") as async) (ht : t.isWord "function" = true)
    (hn : D .name ns [name]) (hq : D .typeParameters qs typeParameters)
    (hp : D .parameters ps parameters) (hr : D .ascription ts type.toList)
    (hb : D (.optional .block) bs body.toList) (hs : Terminal.Separates [.semicolon] us) :
    Makes D .statement (es ++ as ++ t :: ns ++ qs ++ ps ++ ts ++ bs ++ us) .functionDeclaration
      [.flag exported, .flag async, .node name, .list typeParameters, .list parameters,
       .ofOption type, .ofOption body]
  | specifier {ns : List Token} {name : Node} (hn : D .word ns [name]) :
    Makes D .specifier ns .importSpecifier [.absent, .node name]
  | renamedSpecifier {t : Token} {is ns : List Token} {imported name : Node}
    (hi : D .word is [imported]) (ht : t.isWord "as" = true) (hn : D .name ns [name]) :
    Makes D .specifier (is ++ t :: ns) .importSpecifier [.node imported, .node name]
  | namespaceImport {t t' : Token} {ns : List Token} {name : Node} (ht : t.kind = .punct .star)
    (ht' : t'.isWord "as" = true) (hn : D .name ns [name]) :
    Makes D .bindings (t :: t' :: ns) .namespaceImport [.node name]
  | namedImports {ts : List Token} {elements : List Node}
    (h : D (.enclosed .braceOpen .braceClose .specifier) ts elements) :
    Makes D .bindings ts .namedImports [.list elements]
  | defaultClause {ns bs : List Token} {name : Node} {bindings : Option Node}
    (hn : D .name ns [name])
    (hb : D (.optional (.announced (.punct .comma) .bindings)) bs bindings.toList) :
    Makes D .clause (ns ++ bs) .importClause [.node name, .ofOption bindings]
  | bindingsClause {bs : List Token} {bindings : Node} (hb : D .bindings bs [bindings]) :
    Makes D .clause bs .importClause [.absent, .node bindings]
  | bareImport {t : Token} {ms us : List Token} {module : Node} (ht : t.isWord "import" = true)
    (hm : D .string ms [module]) (hs : Terminal.Separates [.semicolon] us) :
    Makes D .statement (t :: ms ++ us) .importDeclaration [.absent, .node module]
  | importDeclaration {t t' : Token} {cs ms us : List Token} {clause module : Node}
    (ht : t.isWord "import" = true) (hc : D .clause cs [clause])
    (ht' : t'.isWord "from" = true) (hm : D .string ms [module])
    (hs : Terminal.Separates [.semicolon] us) :
    Makes D .statement (t :: cs ++ t' :: ms ++ us) .importDeclaration [.node clause, .node module]

/-- The grammar of the language: which tokens make a phrase and what nodes it stands for. A phrase is
put together from others and stands for their nodes, or it is made into a node over exactly its
tokens. The parentheses around a type belong to no node. -/
inductive Derives : Phrase → List Token → List Node → Prop
  | absent {p : Phrase} : Derives (.optional p) [] []
  | present {p : Phrase} {ts : List Token} {ns : List Node} (h : Derives p ts ns) :
    Derives (.optional p) ts ns
  | announced {m : Terminal} {p : Phrase} {t : Token} {ts : List Token} {ns : List Node}
    (ht : m.Matches t) (h : Derives p ts ns) : Derives (.announced m p) (t :: ts) ns
  | nil {separators : List Punct} {p : Phrase} : Derives (.many separators p) [] []
  | snoc {separators : List Punct} {p : Phrase} {ts us vs : List Token} {ns : List Node} {n : Node}
    (hs : Derives (.many separators p) ts ns) (h : Derives p us [n])
    (hv : Terminal.Separates separators vs) :
    Derives (.many separators p) (ts ++ us ++ vs) (ns ++ [n])
  | single {operator : Punct} {p : Phrase} {ts : List Token} {n : Node} (h : Derives p ts [n]) :
    Derives (.joined operator p) ts [n]
  | joined {operator : Punct} {p : Phrase} {t : Token} {ts us : List Token} {ns : List Node}
    {n : Node} (hs : Derives (.joined operator p) ts ns) (ht : t.kind = .punct operator)
    (h : Derives p us [n]) : Derives (.joined operator p) (ts ++ t :: us) (ns ++ [n])
  | enclosed {opening closing : Punct} {p : Phrase} {t t' : Token} {ts : List Token}
    {ns : List Node} (ht : t.kind = .punct opening) (h : Derives (.many [.comma] p) ts ns)
    (ht' : t'.kind = .punct closing) :
    Derives (.enclosed opening closing p) (t :: ts ++ [t']) ns
  | entity {ts : List Token} {n : Node} (h : Derives .word ts [n]) : Derives .entity ts [n]
  | parenthesizedType {t t' : Token} {ts : List Token} {n : Node}
    (ht : t.kind = .punct .parenOpen) (h : Derives .type ts [n])
    (ht' : t'.kind = .punct .parenClose) : Derives .type (t :: ts ++ [t']) [n]
  | barredType {t : Token} {ts : List Token} {n : Node} (ht : t.kind = .punct .pipe)
    (h : Derives .type ts [n]) : Derives .type (t :: ts) [n]
  | element {ts : List Token} {n : Node} (h : Derives .expression ts [n]) : Derives .element ts [n]
  | property {p : Phrase} {ts : List Token} {n : Node}
    (hp : p = .string ∨ p = .number ∨ p = .word) (h : Derives p ts [n]) :
    Derives .property ts [n]
  | operand {p : Phrase} {ts : List Token} {n : Node}
    (hp : p = .name ∨ p = .string ∨ p = .number ∨ p = .template) (h : Derives p ts [n]) :
    Derives .expression ts [n]
  | callee {t : Token} {ts : List Token} {n : Node} (ht : t.isWord "new" = true)
    (h : Derives .expression ts [n]) (hk : n.kind ≠ .propertyAccessExpression) :
    Derives .callee (t :: ts) [n]
  | body {p : Phrase} {ts : List Token} {n : Node} (hp : p = .block ∨ p = .expression)
    (h : Derives p ts [n]) :
    Derives .body ts [n]
  | noStatement : Derives .statements [] []
  | nextStatement {ts us : List Token} {statements : List Node} {n : Node}
    (hs : Derives .statements ts statements) (h : Derives .statement us [n])
    (hp : Token.Parts ts us) : Derives .statements (ts ++ us) (statements ++ [n])
  | blockStatement {ts : List Token} {n : Node} (h : Derives .block ts [n]) :
    Derives .statement ts [n]
  | made {parts : Phrase → List Token → List Node → Prop} {p : Phrase} {ts : List Token}
    {kind : Kind} {fields : List Field} (h : Makes parts p ts kind fields)
    (hparts : ∀ {q us ns}, parts q us ns → Derives q us ns) : Derives p ts [.over kind ts fields]

variable {D D' : Phrase → List Token → List Node → Prop} {p : Phrase} {ts us : List Token}
  {ns ms : List Node} {kind : Kind} {fields : List Field}

theorem Makes.imp (h : Makes D p ts kind fields) (hD : ∀ {q us ns}, D q us ns → D' q us ns) :
    Makes D' p ts kind fields := by
  cases h <;> constructor <;> first | assumption | exact hD ‹_›

theorem Makes.derives (h : Makes Derives p ts kind fields) : Derives p ts [.over kind ts fields] :=
  .made h id

namespace Phrase

def isStatement : Phrase → Bool
  | statement | statements => true
  | optional p | announced _ p => p.isStatement
  | _ => false

/-- No statement can be the last of the phrase. -/
def isEnclosed : Phrase → Bool
  | statement | statements => false
  | optional p | announced _ p | many _ p | joined _ p | enclosed _ _ p => p.isEnclosed
  | _ => true

def yieldsStatements : Phrase → Bool
  | block | body | statement | statements => true
  | optional p | announced _ p | many _ p | joined _ p | enclosed _ _ p => p.yieldsStatements
  | _ => false

def isCallee : Phrase → Bool
  | callee => true
  | optional p | announced _ p | many _ p | joined _ p | enclosed _ _ p => p.isCallee
  | _ => false

end Phrase

def Kind.holdsStatements : Kind → Bool
  | sourceFile | block | ifStatement | functionDeclaration | functionExpression | arrowFunction =>
    true
  | _ => false

/-- Where the phrases that depend on what stands around them can be a part: a callee in a callee and
in what calls it, statements in blocks and conditions, and the bodies of functions in functions. -/
structure Phrase.Within (q p : Phrase) (kind : Kind) : Prop where
  callee : q.isCallee = true → p.isCallee = true ∨ kind = .newExpression
  statement : q.isEnclosed = false → kind = .block ∨ kind = .ifStatement
  body : q.yieldsStatements = true → kind.holdsStatements = true

theorem Makes.within (h : Makes D p ts kind fields) :
    Makes (fun q us ns => q.Within p kind ∧ D q us ns) p ts kind fields := by
  cases h with
  | signature hp hn ho ht =>
    refine .signature hp ⟨?_, hn⟩ ho ⟨⟨by decide, by decide, by decide⟩, ht⟩
    rcases hp with rfl | rfl <;> exact ⟨by decide, by decide, by decide⟩
  | literalType hp h =>
    refine .literalType hp ⟨?_, h⟩
    rcases hp with rfl | rfl | rfl <;> exact ⟨by decide, by decide, by decide⟩
  | _ =>
    constructor <;>
    first | assumption | exact ⟨⟨by decide, by decide, by decide⟩, ‹_›⟩

/-- The phrases that always stand for one node over their tokens. -/
def Phrase.isMade : Phrase → Bool
  | .name | .word | .string | .number | .truth | .parameter | .bareParameter | .typeParameter
  | .signature | .block | .member | .span | .template | .declaration | .declarationList
  | .specifier | .bindings | .clause => true
  | _ => false

theorem Derives.exists_makes (h : Derives p ts ns) (hp : p.isMade = true) :
    ∃ kind fields, ns = [.over kind ts fields] ∧ Makes Derives p ts kind fields := by
  cases h with
  | made h hparts => exact ⟨_, _, rfl, h.imp hparts⟩
  | _ => cases hp

theorem Derives.makes_of_expression (h : Derives .expression ts ns) :
    ∃ q kind fields, ns = [.over kind ts fields] ∧ Makes Derives q ts kind fields ∧
      (q = .expression ∨ q = .name ∨ q = .string ∨ q = .number ∨ q = .template) := by
  cases h with
  | operand hp h =>
    obtain ⟨kind, fields, hn, hm⟩ :=
      h.exists_makes (by rcases hp with rfl | rfl | rfl | rfl <;> rfl)
    exact ⟨_, kind, fields, hn, hm, .inr hp⟩
  | made h hparts => exact ⟨_, _, _, rfl, h.imp hparts, .inl rfl⟩

theorem Field.nodes_ofOption (o : Option Node) : (Field.ofOption o).nodes = o.toList := by
  cases o <;> rfl

/-- What holds of tokens and nodes as soon as it holds of the pieces that they are put together
from. -/
structure Token.Composes (Q : List Token → List Node → Prop) : Prop where
  empty (ts : List Token) : Q ts []
  append {ts us : List Token} {ns ms : List Node} (h : Q ts ns) (h' : Q us ms) :
    Q (ts ++ us) (ns ++ ms)

variable {Q : List Token → List Node → Prop}

theorem Token.Composes.after (hQ : Token.Composes Q) (t : Token) (h : Q ts ns) : Q (t :: ts) ns :=
  hQ.append (hQ.empty [t]) h

theorem Token.Composes.before (hQ : Token.Composes Q) (us : List Token) (h : Q ts ns) :
    Q (ts ++ us) ns := by
  simpa using hQ.append h (hQ.empty us)

/-- The children of a node come from the parts of its phrase, in their order. -/
theorem Makes.compose (hQ : Token.Composes Q) (h : Makes (fun _ => Q) p ts kind fields) :
    Q ts (fields.flatMap Field.nodes) := by
  cases h with
  | name | word | string | number | trueLiteral | falseLiteral | keywordType | wholeTemplate
  | keywordLiteral | emptyStatement => exact hQ.empty _
  -- types
  | parameter _ hn _ ht hi =>
    simpa [Field.nodes_ofOption] using
      hQ.append (hQ.append (hQ.before _ (hQ.append (hQ.empty _) hn)) ht) hi
  | bareParameter hn => simpa using hn
  | typeParameter hn hc hd => simpa [Field.nodes_ofOption] using hQ.append (hQ.append hn hc) hd
  | functionType hq hp _ hr => simpa using hQ.append (hQ.append hq hp) (hQ.after _ hr)
  | signature _ hn _ ht =>
    simpa [Field.nodes_ofOption] using hQ.append (hQ.before _ hn) ht
  | typeLiteral _ h _ | block _ h _ | parenthesized _ h _ =>
    simpa using hQ.before _ (hQ.after _ h)
  | qualifiedName hl _ hr | propertyAssignment hl _ hr | calleeAccess hl _ hr | access hl _ hr
  | cast hl _ hr | binary hl _ hr | renamedSpecifier hl _ hr =>
    simpa using hQ.append hl (hQ.after _ hr)
  | typeReference hn ht => simpa using hQ.append hn ht
  | literalType _ h | arrayLiteral h | shorthandAssignment h _ | objectLiteral h | namedImports h
  | specifier h | bindingsClause h => simpa using h
  | arrayType h _ _ | span h _ | expressionStatement h _ => simpa using hQ.before _ h
  | unionType _ h => simpa using hQ.append (hQ.empty _) h
  -- lists, literals and functions
  | spreadElement _ h | spreadAssignment _ h | template _ h | unary _ h | declarationList _ _ h =>
    simpa using hQ.after _ h
  | functionExpression _ _ hn hq hp hr hb =>
    simpa [Field.nodes_ofOption] using hQ.append (hQ.append (hQ.append (hQ.append
      (hQ.append (hQ.empty _) (hQ.after _ hn)) hq) hp) hr) hb
  -- operands and operators
  | newExpression hc ht ha | call hc ht ha | taggedTemplate hc ht ha =>
    simpa using hQ.append (hQ.append hc ht) ha
  | elementAccess h _ ha _ => simpa using hQ.before _ (hQ.append h (hQ.after _ ha))
  | conditional hc _ h _ h' =>
    simpa using hQ.append (hQ.append hc (hQ.after _ h)) (hQ.after _ h')
  | bareArrow _ hp _ hb => simpa using hQ.append (hQ.append (hQ.empty _) hp) (hQ.after _ hb)
  | arrow _ hq hp hr _ hb =>
    simpa [Field.nodes_ofOption] using
      hQ.append (hQ.append (hQ.append (hQ.append (hQ.empty _) hq) hp) hr) (hQ.after _ hb)
  -- statements
  | returnStatement _ h _ | throwStatement _ h _ | bareImport _ h _ =>
    simpa [Field.nodes_ofOption] using hQ.before _ (hQ.after _ h)
  | ifStatement _ _ hc _ h he =>
    simpa [Field.nodes_ofOption] using
      hQ.append (hQ.append (hQ.after _ (hQ.after _ hc)) (hQ.after _ h)) he
  | declaration hn ht hi => simpa [Field.nodes_ofOption] using hQ.append (hQ.append hn ht) hi
  | variableStatement _ hd _ => simpa using hQ.before _ (hQ.append (hQ.empty _) hd)
  | functionDeclaration _ _ _ hn hq hp hr hb _ =>
    simpa [Field.nodes_ofOption] using hQ.before _ (hQ.append (hQ.append (hQ.append (hQ.append
      (hQ.append (hQ.append (hQ.empty _) (hQ.empty _)) (hQ.after _ hn)) hq) hp) hr) hb)
  | namespaceImport _ _ hn => simpa using hQ.after _ (hQ.after _ hn)
  | defaultClause hn hb => simpa [Field.nodes_ofOption] using hQ.append hn hb
  | importDeclaration _ hc _ hm _ =>
    simpa using hQ.before _ (hQ.append (hQ.after _ hc) (hQ.after _ hm))

/-- What composes holds of every phrase if the rules that make a node keep it. -/
theorem Derives.compose (hQ : Token.Composes Q)
    (hover : ∀ {p ts kind fields}, Makes Derives p ts kind fields →
      Q ts (fields.flatMap Field.nodes) → Q ts [.over kind ts fields])
    (h : Derives p ts ns) : Q ts ns := by
  induction h with
  | absent | nil | noStatement => exact hQ.empty _
  | present _ ih | single _ ih | entity _ ih | element _ ih | property _ _ ih | operand _ _ ih
  | body _ _ ih | blockStatement _ ih => exact ih
  | announced _ _ ih | barredType _ _ ih | callee _ _ _ ih => exact hQ.after _ ih
  | snoc _ _ _ ihs ih => exact hQ.before _ (hQ.append ihs ih)
  | joined _ _ _ ihs ih => exact hQ.append ihs (hQ.after _ ih)
  | enclosed _ _ _ ih | parenthesizedType _ _ _ ih => exact hQ.before _ (hQ.after _ ih)
  | nextStatement _ _ _ ihs ih => exact hQ.append ihs ih
  | made h hparts ih => exact hover (h.imp hparts) ((h.imp ih).compose hQ)

end Quasiquote
