import Noelle.CallGraph.Edges
import Noelle.Lib.Classes
import Noelle.Lib.Loop

/-!
# CallGraph.Islands

The islands of a call graph: `CallGraph::getIslands`.

An island is a call graph of its own, of which only the function nodes are filled in.
The islands of connected calls are explored from a stack of nodes; islands are then
merged along the uses of function addresses by instructions.
-/

namespace Noelle

/-- The islands on the heap, and the island of every function. -/
structure Islands (F : Type) where
  islands : AList fun _ : F => Nat
  functions : Nat → AList fun _ : F => CallGraphFunctionNode F
  live : PtrSet Nat
  nextAddr : Nat

/-- The state of `identifyCallGraphIslandsByCallInstructions`. -/
structure IslandSearch (F : Type) extends Islands F where
  visited : PtrSet F
  todos : List (CallGraphFunctionNode F)

namespace CallGraph

variable {F I : Type} [DecidableEq F] [DecidableEq I]

/-! ## Calls -/

/-- `new CallGraph(this->m)`. -/
def newIsland (s : IslandSearch F) : Nat × IslandSearch F :=
  (s.nextAddr, { s with
    functions := Function.update s.functions s.nextAddr ∅
    live := s.live.insert s.nextAddr
    nextAddr := s.nextAddr + 1 })

def addToIsland (s : IslandSearch F) (f : F) (island : Nat) : IslandSearch F :=
  { s with
    functions :=
      Function.update s.functions island ((s.functions island).insert f ⟨s.nextAddr, f⟩)
    visited := s.visited.insert f
    islands := s.islands.insert f island
    nextAddr := s.nextAddr + 1 }

/-- One end of an edge of the current node.  The assertion is that the function is in no
older island. -/
def visitEnd (island : Nat) (s : IslandSearch F) (node : CallGraphFunctionNode F) :
    Option (IslandSearch F) :=
  if ((s.functions island).lookup node.f).isSome then some s
  else if node.f ∈ s.visited then none
  else some { addToIsland s node.f island with todos := node :: s.todos }

/-- The body of the loop over the edges. -/
def visitEdge (island : Nat) (s : IslandSearch F) (edge : CallGraphFunctionFunctionEdge F) :
    Option (IslandSearch F) := do
  let s ← visitEnd island s edge.callee
  visitEnd island s edge.caller

variable (g : CallGraph F I) (ord : IterOrder)

/-- The body of the loop over the stack. -/
def visitNode (island : Nat) (s : IslandSearch F) : Option (IslandSearch F) :=
  match s.todos with
  | [] => none
  | currentNode :: todos =>
      if g.getFunctionNode currentNode.f ≠ some currentNode then none
      else
        (ord.visit (g.getEdges currentNode).elems).foldlM (visitEdge island)
          { s with todos := todos }

/-- The body of the loop over the functions. -/
def exploreFrom (fuel : Nat) (s : IslandSearch F) (fPair : (_ : F) × CallGraphFunctionNode F) :
    Option (IslandSearch F) :=
  if fPair.1 ∈ s.visited then some s
  else
    let (island, s) := newIsland s
    let s := addToIsland s fPair.1 island
    loopM (fun s => !s.todos.isEmpty) (visitNode g ord island) fuel { s with todos := [fPair.2] }

def identifyCallGraphIslandsByCallInstructions (fuel : Nat) : Option (IslandSearch F) :=
  (ord.visit g.functions.entries).foldlM (exploreFrom g ord fuel)
    { islands := ∅, functions := fun _ => ∅, live := ∅, nextAddr := g.nextAddr, visited := ∅,
      todos := [] }

/-! ## Escapes -/

/-- The user of a use calls the function: the use is ignored. -/
def isCallOf (M : IRModule F I) (f : F) (inst : I) : Bool :=
  match M.kind inst with
  | .callInst calledFunction | .invokeInst calledFunction => decide (calledFunction = some f)
  | .otherInst => false

/-- Move the functions of the island `instIsland` to the island `fIsland` and delete it. -/
def moveIsland (s : Islands F) (instIsland fIsland : Nat) : Islands F :=
  let s := (ord.visit (s.functions instIsland).entries).foldl (fun s pair =>
    { s with
      functions :=
        Function.update s.functions fIsland ((s.functions fIsland).insert pair.1 pair.2)
      islands := s.islands.insert pair.1 fIsland }) s
  { s with
    functions := Function.update s.functions instIsland ∅
    live := s.live.erase instIsland }

/-- The body of the loop over the uses of `f`. -/
def handleUse (M : IRModule F I) (f : F) (s : Islands F) (use : FunctionUse I) :
    Option (Islands F) :=
  match use.user with
  | none => some s
  | some inst =>
      if isCallOf M f inst then some s
      else do
        let instIsland ← s.islands.lookup (M.getFunction inst)
        let fIsland ← s.islands.lookup f
        if instIsland = fIsland then return s
        if instIsland ∉ s.live || fIsland ∉ s.live then none
        else return moveIsland ord s instIsland fIsland

def mergeCallGraphIslandsForEscapedFunctions (M : IRModule F I) (s : Islands F) :
    Option (Islands F) :=
  (ord.visit g.functions.entries).foldlM (fun s fPair =>
    (M.uses fPair.1).foldlM (handleUse ord M fPair.1) s) s

def getIslands (M : IRModule F I) (fuel : Nat) : Option (Islands F) := do
  let s ← identifyCallGraphIslandsByCallInstructions g ord fuel
  mergeCallGraphIslandsForEscapedFunctions g ord M s.toIslands

end CallGraph

end Noelle
