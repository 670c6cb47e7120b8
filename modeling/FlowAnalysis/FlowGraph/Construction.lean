import FlowAnalysis.FlowGraph
import FlowAnalysis.Statement.Issue

/-!
The control flow graph of a program, constructed step by step along the program: a node is added
when its point is reached, and an edge when both its ends are known. A step may fail, and then there
is no graph.
-/
namespace FlowAnalysis

/-- A step that the graph under construction does not allow. -/
inductive GraphError
  | dangling (edge : DanglingEdge)
  | labelsExhausted
  deriving DecidableEq

def GraphError.message : GraphError → String
  | dangling edge => edge.message
  | labelsExhausted => "label space exhausted"

/-- Why a construction stops. -/
inductive ConstructionError
  | issue (i : Issue)
  | graph (e : GraphError)
  | fault (f : Fault)
  deriving DecidableEq

/-- How many labels there are for points: the positive numbers of 32 bits. -/
def labelLimit : Nat := UInt32.size - 1

/-- The graph so far, and how many labels are in use. -/
structure Construction where
  graph : Digraph Node EdgeKind
  issued : Nat

namespace Construction

def start : Construction := ⟨.empty, 0⟩

/-- A part of the program whose own edges are all there: where control enters it, and where control
leaves it, with the kinds of the edges to come. -/
structure Piece where
  root : Nat
  exits : List (Nat × EdgeKind)

/-- A step of a construction. -/
abbrev Stage (α : Type) : Type := StateT Construction (Except ConstructionError) α

/-- Stop at an issue. -/
def check : Option Issue → Stage Unit
  | none => pure ()
  | some i => throw (.issue i)

def freshLabel : Stage Label := fun c =>
  if c.issued < labelLimit then .ok (.stmt (c.issued + 1), { c with issued := c.issued + 1 })
  else .error (.graph .labelsExhausted)

def addNode (node : Node) : Stage Nat := fun c =>
  .ok (c.graph.nodeCount, { c with graph := c.graph.addNode node })

def addEdge (source target : Nat) (kind : EdgeKind) : Stage Unit := fun c =>
  match c.graph.addEdge source target kind with
  | .ok graph => .ok ((), { c with graph := graph })
  | .error edge => .error (.graph (.dangling edge))

/-- A node under a fresh label. -/
def addPoint (a : Action) : Stage Nat := do
  let l ← freshLabel
  addNode ⟨l, a⟩

/-- Edges from `exits` to `target`, of their own kinds unless all are to be of one kind. -/
def link (exits : List (Nat × EdgeKind)) (target : Nat) (kind? : Option EdgeKind) : Stage Unit :=
  match exits with
  | [] => pure ()
  | (n, kind) :: rest => do
    addEdge n target (kind?.getD kind)
    link rest target kind?

/-- A point that control leaves for the one after it. -/
def placePoint (a : Action) : Stage Piece := do
  let n ← addPoint a
  return ⟨n, [(n, .sequential)]⟩

mutual

/-- Add what belongs to a statement that stands where `block` says. -/
def place (block : BlockKind) (s : Statement) : Stage Piece := do
  check s.ownIssue?
  match s with
  | .skip => placePoint .skip
  | .assign x e => placePoint (.assign x e)
  | .seq body => placeSeq block body
  | .loop c body =>
    let test ← addPoint (.test c)
    let part ← place .loopBody body
    addEdge test part.root .whenTrue
    link part.exits test (some .back)
    return ⟨test, [(test, .whenFalse)]⟩
  | .branch c t f =>
    let test ← addPoint (.test c)
    let yes ← place .trueBranch t
    let no ← place .falseBranch f
    addEdge test yes.root .whenTrue
    addEdge test no.root .whenFalse
    return ⟨test, yes.exits ++ no.exits⟩

/-- A sequence needs a member. -/
def placeSeq (block : BlockKind) (body : List Statement) : Stage Piece :=
  match body with
  | [] => throw (.issue (.emptyBlock block))
  | s :: rest => do
    let head ← place .sequence s
    let exits ← placeRest head.exits rest
    return ⟨head.root, exits⟩

/-- Add members of a sequence that `pending` leads to, and tell where the last one is left. -/
def placeRest (pending : List (Nat × EdgeKind)) (body : List Statement) :
    Stage (List (Nat × EdgeKind)) :=
  match body with
  | [] => return pending
  | s :: rest => do
    let next ← place .sequence s
    link pending next.root none
    placeRest next.exits rest

end

/-- Add what belongs to a program, and the exit after it. -/
def placeProgram (s : Statement) : Stage (Nat × Nat) := do
  let piece ← place .sequence s
  let exit ← addNode ⟨.exit, .exit⟩
  link piece.exits exit none
  return (piece.root, exit)

end Construction

/-- Construct the control flow graph of a program. -/
def FlowGraph.construct (s : Statement) : Except ConstructionError FlowGraph := do
  let ((entry, exit), c) ← Construction.placeProgram s .start
  (ofDigraph c.graph entry exit).mapError .fault

end FlowAnalysis
