import Noelle.BitMatrix
import Noelle.DG.GraphTraits
import Noelle.SCC.Basic

/-!
# SCCDAG.Basic

The SCCDAG: a dependence graph whose nodes are SCCs, with the map from values to
nodes and the ordering of the nodes.

The SCC objects live beside the graph (`sccs`) and are never freed: `removeNode`
frees the node of an SCC but not the SCC.  An SCC is a graph of its own whose
nodes and edges carry its pointer, so a node or an edge of any SCC can be read
through the SCC that owns it (`nodeStore`).
-/

namespace Noelle

/-- `SCC *`. -/
abbrev SccPtr := Nat

structure SCCDAG (V : Type) extends DG SccPtr (DGEdge V) where
  sccs : SccPtr → SCC V
  nextScc : SccPtr
  valueToSCCNode : AList fun _ : V => DGNode SccPtr
  ordered : BitMatrix
  orderedDirty : Bool
  sccIndexes : AList fun _ : SccPtr => Nat

namespace SCCDAG

variable {V : Type}

/-- The members before the body of the constructor runs. -/
def empty (self : Nat) : SCCDAG V where
  toDG := DG.empty self
  sccs := DG.empty
  nextScc := 0
  valueToSCCNode := ∅
  ordered := BitMatrix.new 1
  orderedDirty := true
  sccIndexes := ∅

/-- The nodes and edges of all SCCs. -/
def nodeStore (s : SCCDAG V) : NodeStore V where
  outgoingEdges node := (s.sccs node.owner).outgoingEdges node
  incomingEdges node := (s.sccs node.owner).incomingEdges node
  edgeAttr edge := (s.sccs edge.owner).edgeAttr edge

def addScc (s : SCCDAG V) (scc : SCC V) (inclusion : Bool) : SCCDAG V :=
  { s with
    toDG := (s.toDG.addNode s.nextScc inclusion).2
    sccs := Function.update s.sccs s.nextScc scc
    nextScc := s.nextScc + 1 }

/-- `sccEdge->addSubEdge(edge)`. -/
def addSubEdge [DecidableEq V] (s : SCCDAG V) (sccEdge : DGEdge SccPtr) (edge : DGEdge V) :
    SCCDAG V :=
  { s with
    edgeAttr := Function.update s.edgeAttr sccEdge
      ((s.edgeAttr sccEdge).addSubEdge edge (s.nodeStore.edgeAttr edge).isLoopCarried) }

/-- `sccEdge->removeSubEdges()`. -/
def removeSubEdges (s : SCCDAG V) (sccEdge : DGEdge SccPtr) : SCCDAG V :=
  { s with edgeAttr := Function.update s.edgeAttr sccEdge (s.edgeAttr sccEdge).removeSubEdges }

variable [DecidableEq V] (ord : IterOrder)

def markValuesInSCC (s : SCCDAG V) : SCCDAG V :=
  { s with
    valueToSCCNode := (ord.visit s.allNodes.elems).foldl (fun valueToSCCNode sccNode =>
      (ord.visit (s.sccs sccNode.theT).internalNodeMap.entries).foldl
        (fun valueToSCCNode instPair => valueToSCCNode.insert instPair.1 sccNode)
        valueToSCCNode) ∅ }

/-- The edges between two nodes, in either direction. -/
def edgesBetween (s : SCCDAG V) (outgoingSCCNode incomingSCCNode : DGNode SccPtr) :
    PtrSet (DGEdge SccPtr) :=
  ((s.outgoingEdges outgoingSCCNode).filter fun edge =>
      decide (edge.dstNode = incomingSCCNode)).insertAll
    ((s.incomingEdges outgoingSCCNode).filter fun edge =>
      decide (edge.srcNode = incomingSCCNode)).elems

def findOrAddEdge (s : SCCDAG V) (outgoingSCCNode incomingSCCNode : DGNode SccPtr) :
    Option (DGEdge SccPtr × SCCDAG V) :=
  match (ord.visit (s.edgesBetween outgoingSCCNode incomingSCCNode).elems).head? with
  | some edge => some (edge, s)
  | none =>
      (s.toDG.addUndefinedDependenceEdge outgoingSCCNode.theT incomingSCCNode.theT).map
        fun (edge, g) => (edge, { s with toDG := g })

/-- The body of the inner loop of `SCCDAG::markEdgesAndSubEdges`, on the SCCDAG
and `clearedEdges`. -/
def markExternalNode (outgoingSCCNode : DGNode SccPtr) :
    SCCDAG V × PtrSet (DGEdge SccPtr) → (_ : V) × Option (DGNode V) →
      Option (SCCDAG V × PtrSet (DGEdge SccPtr))
  | (s, clearedEdges), externalNodePair => do
      let outgoingSCC := s.sccs outgoingSCCNode.theT
      let incomingNode ← externalNodePair.2
      if outgoingSCC.inDegree incomingNode = 0 then return (s, clearedEdges)
      let incomingSCCNode ← s.valueToSCCNode.lookup externalNodePair.1
      let (sccEdge, s) ← s.findOrAddEdge ord outgoingSCCNode incomingSCCNode
      let (s, clearedEdges) :=
        if sccEdge ∈ clearedEdges then (s, clearedEdges)
        else (s.removeSubEdges sccEdge, clearedEdges.insert sccEdge)
      let incomingEdges := (outgoingSCC.incomingEdges incomingNode).elems
      return ((ord.visit incomingEdges).foldl (fun s edge => s.addSubEdge sccEdge edge) s,
        clearedEdges)

def markEdgesAndSubEdges (s : SCCDAG V) : Option (SCCDAG V) :=
  ((ord.visit s.allNodes.elems).foldlM (fun st outgoingSCCNode =>
    (ord.visit (st.1.sccs outgoingSCCNode.theT).externalNodeMap.entries).foldlM
      (markExternalNode ord outgoingSCCNode) st) (s, ∅)).map (·.1)

/-- `sccIndexes[scc]`: a missing key is inserted with the index zero. -/
def sccIndexOf (sccIndexes : AList fun _ : SccPtr => Nat) (scc : SccPtr) :
    Nat × AList fun _ : SccPtr => Nat :=
  match sccIndexes.lookup scc with
  | some index => (index, sccIndexes)
  | none => (0, sccIndexes.insert scc 0)

def computeReachabilityAmongSCCs (s : SCCDAG V) : Option (SCCDAG V) := do
  let nscc := uint32 s.numNodes
  let (sccIndexes, _) := (ord.visit s.allNodes.elems).foldl (fun (sccIndexes, index) sccNode =>
    (sccIndexes.insert sccNode.theT index, uint32 (index + 1))) (s.sccIndexes, 0)
  let (sccIndexes, ordered) ← (ord.visit s.allEdges.elems).foldlM
    (fun (sccIndexes, ordered) sccEdge => do
      let (src, sccIndexes) := sccIndexOf sccIndexes sccEdge.getSrc
      let (dst, sccIndexes) := sccIndexOf sccIndexes sccEdge.getDst
      return (sccIndexes, ← BitMatrix.set ordered src dst)) (sccIndexes, s.ordered.resize nscc)
  let ordered ← ordered.transitiveClosure
  return { s with orderedDirty := false, sccIndexes := sccIndexes, ordered := ordered }

def sccOfValue (s : SCCDAG V) (val : V) : Option SccPtr :=
  (s.valueToSCCNode.lookup val).map DGNode.theT

omit [DecidableEq V] in
/-- `SCCDAG::orderedBefore`.  The assertion is on the dirty flag; a missing key is
the end of the map, which must not be read. -/
def orderedBefore (s : SCCDAG V) (earlySCC lateSCC : SccPtr) : Option Bool := do
  if s.orderedDirty then none
  let earlySCCid ← s.sccIndexes.lookup earlySCC
  let lateSCCid ← s.sccIndexes.lookup lateSCC
  s.ordered.test earlySCCid lateSCCid

/-! ## Construction -/

section Construction

variable (it : SccIterator) (subLC : DGEdge V → Bool) (pdg : PDG V)

/-- The body of the loop over the SCCs found from one node, on `visited` and the
SCCDAG. -/
def addSccNodes : PtrSet (DGNode V) × SCCDAG V → List (DGNode V) →
    Option (PtrSet (DGNode V) × SCCDAG V)
  | (visited, s), sccNodes => do
      let firstNode ← sccNodes.head?
      if firstNode ∈ visited then return (visited, s)
      let unwrappedNodes := PtrSet.ofList sccNodes
      let visited := visited.insertAll unwrappedNodes.elems
      let scc ← SCC.new ord subLC pdg.store s.nextScc unwrappedNodes
      let isInternal := unwrappedNodes.elems.any fun node => pdg.isInternal node.theT
      return (visited, s.addScc scc isInternal)

/-- The first loop of the constructor.  It makes `nodeToVisit` the entry node of
the PDG while the SCCs are enumerated and restores the entry node at the end. -/
def addAllSccs (s : SCCDAG V) : Option (SCCDAG V) :=
  ((ord.visit pdg.allNodes.elems).foldlM (fun st nodeToVisit =>
    if nodeToVisit ∈ st.1 then some st
    else (it.comps pdg.allNodes.elems pdg.wrappedChildren nodeToVisit).foldlM
      (addSccNodes ord subLC pdg) st) (∅, s)).map (·.2)

/-- The constructor up to the ordering: nodes, map and edges. -/
def buildGraph (self : Nat) : Option (SCCDAG V) := do
  let s ← addAllSccs ord it subLC pdg (empty self)
  let s := s.markValuesInSCC ord
  s.markEdgesAndSubEdges ord

/-- `SCCDAG::SCCDAG(PDG *)`. -/
def new (self : Nat) : Option (SCCDAG V) := do
  let s ← buildGraph ord it subLC pdg self
  computeReachabilityAmongSCCs ord { s with orderedDirty := true }

end Construction

/-! ## Merging -/

def mergeSCCs (subLC : DGEdge V → Bool) (s : SCCDAG V) (sccSet : PtrSet (DGNode SccPtr)) :
    Option (SCCDAG V) :=
  if sccSet.size < 2 then some s
  else do
    let internalNodes ← (sccSet.elems.flatMap fun sccNode =>
      (s.sccs sccNode.theT).internalNodeMap.entries.map (·.2)).mapM id
    let mergeNodes := PtrSet.ofList internalNodes
    let mergeSCC ← SCC.new ord subLC s.nodeStore s.nextScc mergeNodes
    let s := s.addScc mergeSCC true
    let s := { s with
      toDG := (ord.visit sccSet.elems).foldl (fun g sccNode => g.removeNode sccNode) s.toDG }
    markEdgesAndSubEdges ord (s.markValuesInSCC ord)

end SCCDAG

end Noelle
