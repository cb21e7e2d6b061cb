import Quasiquote.Selector.Match
import Quasiquote.Typing.Compilation

namespace Quasiquote

def tagImports (tree : Node) (module : String) : Except SelectorError (List Node) :=
  query tree ("ImportDeclaration[moduleSpecifier.text=" ++ Selector.quoteValue module ++ "]")

/-- Whether a node is a template whose tag comes from one of the imports. What an inner scope
declares under the same name does not. -/
def Model.isUseSite (m : Model) (imports : List Node) (n : Node) : Bool :=
  n.kind = .taggedTemplateExpression
    && ((n.child? .tag).bind m.resolve?).any fun s =>
      (m.declarations s).any fun declaration =>
        imports.any fun statement => m.isWithin declaration statement

end Quasiquote
