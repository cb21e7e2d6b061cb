import Quasiquote.Grammar.Module

namespace Quasiquote

structure SourceFile where
  name : String
  source : String
  tree : Node

def SourceFile.parse (name source : String) : Except ParseError SourceFile :=
  (Quasiquote.parse source).map fun tree => ⟨name, source, tree⟩

mutual

/-- Give every node without an identity one, from `next` on in pre-order. The second result is the
next identity that is free. -/
def Node.number : Node → Nat → Node × Nat
  | .mk kind mark fields, next =>
    let (id, next) := match mark.id with
      | some id => (id, next)
      | none => (next, next + 1)
    let (fields, next) := Field.numberList fields next
    (.mk kind { mark with id := some id } fields, next)

def Field.numberList : List Field → Nat → List Field × Nat
  | [], next => ([], next)
  | .node n :: rest, next =>
    let (n, next) := n.number next
    let (rest, next) := Field.numberList rest next
    (.node n :: rest, next)
  | .list ns :: rest, next =>
    let (ns, next) := Node.numberList ns next
    let (rest, next) := Field.numberList rest next
    (.list ns :: rest, next)
  | .text s :: rest, next =>
    let (rest, next) := Field.numberList rest next
    (.text s :: rest, next)
  | .flag b :: rest, next =>
    let (rest, next) := Field.numberList rest next
    (.flag b :: rest, next)
  | .absent :: rest, next =>
    let (rest, next) := Field.numberList rest next
    (.absent :: rest, next)

def Node.numberList : List Node → Nat → List Node × Nat
  | [], next => ([], next)
  | n :: rest, next =>
    let (n, next) := n.number next
    let (rest, next) := Node.numberList rest next
    (n :: rest, next)

end

def Node.freshId (n : Node) : Nat :=
  n.preorder.foldl (fun next m => match m.id? with
    | some id => max next (id + 1)
    | none => next) 1

/-- The files of one compilation. Every node has an identity, none of them zero. -/
structure Program where
  files : List SourceFile

namespace Program

def numberFiles : List SourceFile → Nat → List SourceFile
  | [], _ => []
  | file :: rest, next =>
    let (tree, next) := file.tree.number next
    { file with tree } :: numberFiles rest next

def ofFiles (files : List SourceFile) : Program :=
  ⟨numberFiles files (files.foldl (fun next file => max next file.tree.freshId) 1)⟩

def file? (p : Program) (name : String) : Option SourceFile :=
  p.files.find? fun file => file.name = name

end Program

def Node.key (n : Node) : Nat :=
  n.id?.getD 0

end Quasiquote
