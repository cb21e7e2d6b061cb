namespace Quasiquote

inductive KeywordType
  | any | bigint | boolean | never | null | number | object | string | symbol | undefined | unknown
  | void
  deriving DecidableEq

namespace KeywordType

def all : List KeywordType :=
  [any, bigint, boolean, never, null, number, object, string, symbol, undefined, unknown, void]

def name : KeywordType → String
  | any => "any"
  | bigint => "bigint"
  | boolean => "boolean"
  | never => "never"
  | null => "null"
  | number => "number"
  | object => "object"
  | string => "string"
  | symbol => "symbol"
  | undefined => "undefined"
  | unknown => "unknown"
  | void => "void"

def ofName? (s : String) : Option KeywordType :=
  all.find? fun k => k.name = s

end KeywordType

end Quasiquote
