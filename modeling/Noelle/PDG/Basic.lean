import Noelle.DG.Basic

/-!
# PDG.Basic

The program dependence graph: the `DG<T>` over values, with the operations that
build another graph from it.

The pointer of a graph that an operation allocates is an argument (`self`).  The
sub-edges of a PDG edge are edges of another graph, whose flags `subLC` reads.
-/

namespace Noelle

/-- A program dependence graph over the values `V`. -/
abbrev PDG (V : Type) := DG V (DGEdge V)

/-- `Loop`: the instructions of its blocks. -/
structure Loop (V : Type) where
  blocks : List (List V)
  blocks_ne_nil : blocks ≠ []
  block_ne_nil : ∀ bb ∈ blocks, bb ≠ []
  nodup : blocks.flatten.Nodup

namespace DG

variable {T S : Type} [DecidableEq T] [DecidableEq S] (ord : IterOrder) (subLC : S → Bool)

def copyNodesIntoNewGraph (g newGraph : DG T S) (nodesToPartition : PtrSet (DGNode T))
    (entryNode : DGNode T) : Option (DG T S) :=
  let newGraph := (ord.visit nodesToPartition.elems).foldl (fun newGraph node =>
    let (clonedNode, newGraph) := newGraph.addNode node.theT (g.isInternal node.theT)
    if node.theT = entryNode.theT then newGraph.setEntryNode clonedNode else newGraph) newGraph
  -- only edges between two nodes of the partition
  (ord.visit nodesToPartition.elems).foldlM (fun newGraph node =>
    (ord.visit (g.outgoingEdges node).elems).foldlM (fun newGraph edgeToCopy =>
      if newGraph.isInGraph edgeToCopy.getDst then
        (newGraph.copyAddEdge subLC edgeToCopy (g.edgeAttr edgeToCopy)).map (·.2)
      else some newGraph) newGraph) newGraph

end DG

namespace PDG

variable {V : Type} [DecidableEq V] (ord : IterOrder) (subLC : DGEdge V → Bool)

/-- `PDG::PDG(std::vector<Value *> &)`, whose callers check that there is a value. -/
def ofValues (self : Nat) (first : V) (values : List V) : PDG V :=
  let g : PDG V := (first :: values).foldl (fun g v => (g.addNode v true).2) (DG.empty self)
  { g with entryNode := (g.internalNodeMap.lookup first).getD none }

/-- The body of the loop of `PDG::copyEdgesInto`. -/
def copyEdgeInto (g : PDG V) (linkToExternal : Bool) (edgesToIgnore : PtrSet (DGEdge V))
    (newPDG : PDG V) (oldEdge : DGEdge V) : Option (PDG V) :=
  if oldEdge ∈ edgesToIgnore then some newPDG
  else
    let fromT := oldEdge.getSrc
    let toT := oldEdge.getDst
    let fromInclusion := newPDG.isInternal fromT
    let toInclusion := newPDG.isInternal toT
    if !fromInclusion && !toInclusion then some newPDG
    else if !linkToExternal && (!fromInclusion || !toInclusion) then some newPDG
    else
      let newPDG := (newPDG.fetchOrAddNode fromT fromInclusion).2
      let newPDG := (newPDG.fetchOrAddNode toT toInclusion).2
      (newPDG.copyAddEdge subLC oldEdge (g.edgeAttr oldEdge)).map (·.2)

def copyEdgesInto (g newPDG : PDG V) (linkToExternal : Bool) (edgesToIgnore : PtrSet (DGEdge V)) :
    Option (PDG V) :=
  (ord.visit g.allEdges.elems).foldlM (copyEdgeInto subLC g linkToExternal edgesToIgnore) newPDG

/-- `PDG::createSubgraphFromValues`: a null pointer (`some none`) if there is no value. -/
def createSubgraphFromValues (g : PDG V) (self : Nat) (valueList : List V) (linkToExternal : Bool)
    (edgesToIgnore : PtrSet (DGEdge V)) : Option (Option (PDG V)) :=
  match valueList with
  | [] => some none
  | first :: values =>
      (copyEdgesInto ord subLC g (ofValues self first values) linkToExternal edgesToIgnore).map some

/-- `PDG::PDG(Loop *)`. -/
def ofLoop (self : Nat) (loop : Loop V) : PDG V :=
  let g : PDG V :=
    loop.blocks.foldl (fun g bb => bb.foldl (fun g I => (g.addNode I true).2) g) (DG.empty self)
  let bbBegin := loop.blocks.head?.bind List.head?
  { g with entryNode := bbBegin.bind fun I => (g.internalNodeMap.lookup I).getD none }

def createLoopsSubgraph (g : PDG V) (self : Nat) (loop : Loop V) : Option (PDG V) :=
  copyEdgesInto ord subLC g (ofLoop self loop) true ∅

def clone (g : PDG V) (self : Nat) (includeExternalNodes : Bool) : Option (Option (PDG V)) :=
  let internals := (ord.visit g.internalNodeMap.entries).map (·.1)
  let externals :=
    if includeExternalNodes then (ord.visit g.externalNodeMap.entries).map (·.1) else []
  createSubgraphFromValues ord subLC g self (internals ++ externals) includeExternalNodes ∅

end PDG

end Noelle
