import Quasiquote.Tree.Node

namespace Quasiquote

mutual

def Node.bare : Node → Node
  | .mk kind _ fields => .mk kind {} (Field.bareList fields)

def Field.bareList : List Field → List Field
  | [] => []
  | .node n :: r => .node n.bare :: Field.bareList r
  | .list ns :: r => .list (Node.bareList ns) :: Field.bareList r
  | .text s :: r => .text s :: Field.bareList r
  | .flag b :: r => .flag b :: Field.bareList r
  | .absent :: r => .absent :: Field.bareList r

def Node.bareList : List Node → List Node
  | [] => []
  | n :: r => n.bare :: Node.bareList r

end

mutual

/-- Whether two trees agree in kinds and fields, wherever their nodes come from. -/
def Node.same : Node → Node → Bool
  | .mk kind _ fields, .mk kind' _ fields' => kind = kind' && Field.sameList fields fields'

def Field.sameList : List Field → List Field → Bool
  | [], [] => true
  | .node n :: r, .node n' :: r' => n.same n' && Field.sameList r r'
  | .list ns :: r, .list ns' :: r' => Node.sameList ns ns' && Field.sameList r r'
  | .text s :: r, .text s' :: r' => s = s' && Field.sameList r r'
  | .flag b :: r, .flag b' :: r' => b = b' && Field.sameList r r'
  | .absent :: r, .absent :: r' => Field.sameList r r'
  | _, _ => false

def Node.sameList : List Node → List Node → Bool
  | [], [] => true
  | n :: r, n' :: r' => n.same n' && Node.sameList r r'
  | _, _ => false

end

end Quasiquote
