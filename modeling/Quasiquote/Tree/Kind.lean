namespace Quasiquote

inductive Kind
  | sourceFile | importDeclaration | importClause | namespaceImport | namedImports
  | importSpecifier | variableStatement | variableDeclarationList | variableDeclaration
  | functionDeclaration | parameter | typeParameter | block | expressionStatement
  | returnStatement | ifStatement | throwStatement | emptyStatement | identifier | stringLiteral
  | numericLiteral | trueKeyword | falseKeyword | nullKeyword | thisKeyword
  | noSubstitutionTemplateLiteral | templateExpression | templateSpan | taggedTemplateExpression
  | arrowFunction | functionExpression | callExpression | newExpression
  | propertyAccessExpression | elementAccessExpression | parenthesizedExpression
  | arrayLiteralExpression | objectLiteralExpression | propertyAssignment
  | shorthandPropertyAssignment | spreadAssignment | spreadElement | binaryExpression
  | prefixUnaryExpression | conditionalExpression | asExpression | typeReference | qualifiedName
  | keywordType | typeLiteral | propertySignature | arrayType | unionType | literalType
  | functionType
  deriving DecidableEq

namespace Kind

/-- Every kind, in the order of the language: modules, statements, expressions, types. -/
def all : List Kind :=
  [sourceFile, importDeclaration, importClause, namespaceImport, namedImports, importSpecifier,
   variableStatement, variableDeclarationList, variableDeclaration, functionDeclaration,
   parameter, typeParameter, block, expressionStatement, returnStatement, ifStatement,
   throwStatement, emptyStatement, identifier, stringLiteral, numericLiteral, trueKeyword,
   falseKeyword, nullKeyword, thisKeyword, noSubstitutionTemplateLiteral, templateExpression,
   templateSpan, taggedTemplateExpression, arrowFunction, functionExpression, callExpression,
   newExpression, propertyAccessExpression, elementAccessExpression, parenthesizedExpression,
   arrayLiteralExpression, objectLiteralExpression, propertyAssignment,
   shorthandPropertyAssignment, spreadAssignment, spreadElement, binaryExpression,
   prefixUnaryExpression, conditionalExpression, asExpression, typeReference, qualifiedName,
   keywordType, typeLiteral, propertySignature, arrayType, unionType, literalType, functionType]

def name : Kind → String
  | sourceFile => "SourceFile"
  | importDeclaration => "ImportDeclaration"
  | importClause => "ImportClause"
  | namespaceImport => "NamespaceImport"
  | namedImports => "NamedImports"
  | importSpecifier => "ImportSpecifier"
  | variableStatement => "VariableStatement"
  | variableDeclarationList => "VariableDeclarationList"
  | variableDeclaration => "VariableDeclaration"
  | functionDeclaration => "FunctionDeclaration"
  | parameter => "Parameter"
  | typeParameter => "TypeParameter"
  | block => "Block"
  | expressionStatement => "ExpressionStatement"
  | returnStatement => "ReturnStatement"
  | ifStatement => "IfStatement"
  | throwStatement => "ThrowStatement"
  | emptyStatement => "EmptyStatement"
  | identifier => "Identifier"
  | stringLiteral => "StringLiteral"
  | numericLiteral => "NumericLiteral"
  | trueKeyword => "TrueKeyword"
  | falseKeyword => "FalseKeyword"
  | nullKeyword => "NullKeyword"
  | thisKeyword => "ThisKeyword"
  | noSubstitutionTemplateLiteral => "NoSubstitutionTemplateLiteral"
  | templateExpression => "TemplateExpression"
  | templateSpan => "TemplateSpan"
  | taggedTemplateExpression => "TaggedTemplateExpression"
  | arrowFunction => "ArrowFunction"
  | functionExpression => "FunctionExpression"
  | callExpression => "CallExpression"
  | newExpression => "NewExpression"
  | propertyAccessExpression => "PropertyAccessExpression"
  | elementAccessExpression => "ElementAccessExpression"
  | parenthesizedExpression => "ParenthesizedExpression"
  | arrayLiteralExpression => "ArrayLiteralExpression"
  | objectLiteralExpression => "ObjectLiteralExpression"
  | propertyAssignment => "PropertyAssignment"
  | shorthandPropertyAssignment => "ShorthandPropertyAssignment"
  | spreadAssignment => "SpreadAssignment"
  | spreadElement => "SpreadElement"
  | binaryExpression => "BinaryExpression"
  | prefixUnaryExpression => "PrefixUnaryExpression"
  | conditionalExpression => "ConditionalExpression"
  | asExpression => "AsExpression"
  | typeReference => "TypeReference"
  | qualifiedName => "QualifiedName"
  | keywordType => "KeywordType"
  | typeLiteral => "TypeLiteral"
  | propertySignature => "PropertySignature"
  | arrayType => "ArrayType"
  | unionType => "UnionType"
  | literalType => "LiteralType"
  | functionType => "FunctionType"

def ofName? (s : String) : Option Kind :=
  all.find? fun k => k.name = s

def isFunctionLike : Kind → Bool
  | functionDeclaration | functionExpression | arrowFunction => true
  | _ => false

def isStatement : Kind → Bool
  | importDeclaration | variableStatement | functionDeclaration | block | expressionStatement
  | returnStatement | ifStatement | throwStatement | emptyStatement => true
  | _ => false

end Kind

end Quasiquote
