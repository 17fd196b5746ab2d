import Noelle.CallGraph.Edges
import Noelle.Lib.SccIterator

/-!
# CallGraph.SCCCAG

The call graph without its cycles: `SCCCAG`.

A node stands for a strongly connected component of the call graph: a function that
does not call itself, or an SCC.
-/

namespace Noelle

/-- `SCCCAGNode`, with its two subclasses. -/
inductive SCCCAGNode (F : Type) where
  /-- `SCCCAGNode_Function` -/
  | function (ID : Nat) (node : CallGraphFunctionNode F)
  /-- `SCCCAGNode_SCC` -/
  | scc (ID : Nat) (nodes : PtrSet (CallGraphFunctionNode F))
  deriving DecidableEq

namespace SCCCAGNode

variable {F : Type}

def getID : SCCCAGNode F → Nat
  | function ID _ | scc ID _ => ID

def isAnSCC : SCCCAGNode F → Bool
  | function _ _ => false
  | scc _ _ => true

/-- The function node belongs to the SCCCAG node. -/
def Holds : SCCCAGNode F → CallGraphFunctionNode F → Prop
  | function _ node, n => n = node
  | scc _ nodes, n => n ∈ nodes

end SCCCAGNode

structure SCCCAGEdge (F : Type) where
  addr : Nat
  f : SCCCAGNode F
  t : SCCCAGNode F
  deriving DecidableEq

/-- `SCCCAG`.  The sub-edges are the member of an edge that changes; `currentID` is the
counter of the constructor of `SCCCAGNode`. -/
structure SCCCAG (F : Type) where
  fromCGNodeToSCC : AList fun _ : CallGraphFunctionNode F => SCCCAGNode F
  nodes : PtrSet (SCCCAGNode F)
  edges : PtrSet (SCCCAGEdge F)
  outgoingEdges : SCCCAGNode F → AList fun _ : SCCCAGNode F => SCCCAGEdge F
  incomingEdges : SCCCAGNode F → AList fun _ : SCCCAGNode F => SCCCAGEdge F
  subEdges : SCCCAGEdge F → PtrSet (CallGraphFunctionFunctionEdge F)
  currentID : Nat
  nextAddr : Nat

namespace CallGraph

variable {F I : Type} [DecidableEq F]

/-- `outgoingNodeInstances` of a node in `CallGraphWrapper`. -/
def wrappedChildren (cg : CallGraph F I) (node : CallGraphFunctionNode F) :
    List (CallGraphFunctionNode F) :=
  (cg.getOutgoingEdges node).elems.map CallGraphFunctionFunctionEdge.callee

/-- Every callee has a wrapper, as the constructor of `CallGraphWrapper` demands. -/
def wrapped (cg : CallGraph F I) : Bool :=
  cg.getFunctionNodes.elems.all fun node =>
    (cg.wrappedChildren node).all fun callee => decide (callee ∈ cg.getFunctionNodes)

end CallGraph

namespace SCCCAG

variable {F I : Type} [DecidableEq F]

/-- An SCCCAG without nodes. -/
def empty (currentID : Nat) : SCCCAG F where
  fromCGNodeToSCC := ∅
  nodes := ∅
  edges := ∅
  outgoingEdges := fun _ => ∅
  incomingEdges := fun _ => ∅
  subEdges := fun _ => ∅
  currentID := currentID
  nextAddr := 0

def getNode (s : SCCCAG F) (n : CallGraphFunctionNode F) : Option (SCCCAGNode F) :=
  s.fromCGNodeToSCC.lookup n

/-! ## Nodes -/

variable (ord : IterOrder) (cg : CallGraph F I)

/-- `new SCCCAGNode_Function(singleCGNode)`, and its insertion. -/
def addFunction (s : SCCCAG F) (singleCGNode : CallGraphFunctionNode F) : SCCCAG F :=
  let sccNode := .function s.currentID singleCGNode
  { s with
    fromCGNodeToSCC := s.fromCGNodeToSCC.insert singleCGNode sccNode
    nodes := s.nodes.insert sccNode
    currentID := s.currentID + 1 }

/-- `new SCCCAGNode_SCC(cgNodes)`, and its insertion. -/
def addSCC (s : SCCCAG F) (cgNodes : PtrSet (CallGraphFunctionNode F)) : SCCCAG F :=
  let sccNode := .scc s.currentID cgNodes
  { s with
    fromCGNodeToSCC :=
      (ord.visit cgNodes.elems).foldl (fun map node => map.insert node sccNode) s.fromCGNodeToSCC
    nodes := s.nodes.insert sccNode
    currentID := s.currentID + 1 }

/-- The nodes of a component are an SCC. -/
def isSCC (cgNodes : PtrSet (CallGraphFunctionNode F)) (singleCGNode : CallGraphFunctionNode F) :
    Bool :=
  decide (1 < cgNodes.size) ||
    (cg.getOutgoingEdges singleCGNode).elems.any fun edge => decide (edge.callee = singleCGNode)

/-- The body of the loop over the components that the iterator lists. -/
def addComponent (st : PtrSet (CallGraphFunctionNode F) × SCCCAG F)
    (wrappedCGNodes : List (CallGraphFunctionNode F)) :
    Option (PtrSet (CallGraphFunctionNode F) × SCCCAG F) := do
  let firstNode ← wrappedCGNodes.head?
  if firstNode ∈ st.1 then return st
  let cgNodes := PtrSet.ofList wrappedCGNodes
  let visited := st.1.insertAll cgNodes.elems
  let singleCGNode ← (ord.visit cgNodes.elems).head?
  if isSCC cg cgNodes singleCGNode then return (visited, st.2.addSCC ord cgNodes)
  else return (visited, st.2.addFunction singleCGNode)

def createNodes (it : SccIterator) (s : SCCCAG F) : Option (SCCCAG F) :=
  if !cg.wrapped then none
  else
    ((ord.visit cg.getFunctionNodes.elems).foldlM (fun st functionNode =>
      if functionNode ∈ st.1 then some st
      else (it.comps cg.getFunctionNodes.elems cg.wrappedChildren functionNode).foldlM
        (addComponent ord cg) st) (∅, s)).map (·.2)

/-! ## Edges -/

def newEdge (s : SCCCAG F) (fromNode toNode : SCCCAGNode F) : Option (SCCCAG F) :=
  let newEdge := ⟨s.nextAddr, fromNode, toNode⟩
  let outEdges := s.outgoingEdges fromNode
  let inEdges := s.incomingEdges toNode
  if (outEdges.lookup toNode).isSome then none
  else if (inEdges.lookup fromNode).isSome then none
  else some { s with
    edges := s.edges.insert newEdge
    outgoingEdges := Function.update s.outgoingEdges fromNode (outEdges.insert toNode newEdge)
    incomingEdges := Function.update s.incomingEdges toNode (inEdges.insert fromNode newEdge)
    subEdges := Function.update s.subEdges newEdge ∅
    nextAddr := s.nextAddr + 1 }

/-- `newEdge`, unless the edge exists. -/
def addEdge (s : SCCCAG F) (sccNode dstSCCNode : SCCCAGNode F) : Option (SCCCAG F) :=
  if ((s.outgoingEdges sccNode).lookup dstSCCNode).isNone then s.newEdge sccNode dstSCCNode
  else some s

/-- Add the edge from `sccNode` to `dstSCCNode`, and its sub-edge. -/
def linkTo (s : SCCCAG F) (sccNode dstSCCNode : SCCCAGNode F)
    (outgoingEdge : CallGraphFunctionFunctionEdge F) : Option (SCCCAG F) := do
  let s ← s.addEdge sccNode dstSCCNode
  let scccagEdge ← (s.outgoingEdges sccNode).lookup dstSCCNode
  return { s with
    subEdges :=
      Function.update s.subEdges scccagEdge ((s.subEdges scccagEdge).insert outgoingEdge) }

/-- The body of the loop over the nodes. -/
def createEdgesOf (s : SCCCAG F) : SCCCAGNode F → Option (SCCCAG F)
  | .function ID cgFuncNode =>
      (ord.visit (cg.getOutgoingEdges cgFuncNode).elems).foldlM (fun s outgoingEdge => do
        let dstSCCNode ← s.getNode outgoingEdge.callee
        s.linkTo (.function ID cgFuncNode) dstSCCNode outgoingEdge) s
  | .scc ID internalNodes =>
      (ord.visit internalNodes.elems).foldlM (fun s cgFuncNode =>
        (ord.visit (cg.getOutgoingEdges cgFuncNode).elems).foldlM (fun s outgoingEdge => do
          let dstSCCNode ← s.getNode outgoingEdge.callee
          if dstSCCNode = .scc ID internalNodes then return s
          else s.linkTo (.scc ID internalNodes) dstSCCNode outgoingEdge) s) s

def createEdges (s : SCCCAG F) : Option (SCCCAG F) :=
  (ord.visit s.nodes.elems).foldlM (createEdgesOf ord cg) s

/-- The constructor. -/
def new (it : SccIterator) (currentID : Nat) : Option (SCCCAG F) := do
  let s ← createNodes ord cg it (empty currentID)
  createEdges ord cg s

end SCCCAG

end Noelle
