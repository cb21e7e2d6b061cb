import Quasiquote.Tree.Node

namespace Quasiquote

variable {m : Type → Type} [Monad m]

mutual

/-- Replace the outermost selected nodes of a tree, in pre-order. Nodes around them stay what they
are and keep their marks. -/
def Node.replaceM (selected : Node → Bool) (replacement : Node → m Node) : Node → m Node
  | .mk kind mark fields =>
    if selected (.mk kind mark fields) then replacement (.mk kind mark fields)
    else do return .mk kind mark (← Field.replaceListM selected replacement fields)

def Field.replaceListM (selected : Node → Bool) (replacement : Node → m Node) :
    List Field → m (List Field)
  | [] => return []
  | .node n :: rest => do
    let n ← n.replaceM selected replacement
    return .node n :: (← Field.replaceListM selected replacement rest)
  | .list ns :: rest => do
    let ns ← Node.replaceListM selected replacement ns
    return .list ns :: (← Field.replaceListM selected replacement rest)
  | .text s :: rest => return .text s :: (← Field.replaceListM selected replacement rest)
  | .flag b :: rest => return .flag b :: (← Field.replaceListM selected replacement rest)
  | .absent :: rest => return .absent :: (← Field.replaceListM selected replacement rest)

def Node.replaceListM (selected : Node → Bool) (replacement : Node → m Node) :
    List Node → m (List Node)
  | [] => return []
  | n :: rest => do
    let n ← n.replaceM selected replacement
    return n :: (← Node.replaceListM selected replacement rest)

end

end Quasiquote
