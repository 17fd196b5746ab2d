import Noelle.PDG.Basic

/-!
# SCC.Basic

A strongly connected component: its own dependence graph, with the values of the
component as internal nodes and the other ends of their dependences as external
ones.

The constructor reads nodes that may belong to several graphs at once (the PDG,
or the SCCs that are being merged).  A `NodeStore` is what it sees of them.
-/

namespace Noelle

/-- `SCC` adds no data to `DG<Value>`. -/
abbrev SCC (V : Type) := DG V (DGEdge V)

/-- The edge sets of nodes and the attributes of edges, wherever they live. -/
structure NodeStore (V : Type) where
  outgoingEdges : DGNode V → PtrSet (DGEdge V)
  incomingEdges : DGNode V → PtrSet (DGEdge V)
  edgeAttr : DGEdge V → EdgeAttr (DGEdge V)

/-- The nodes of one graph. -/
def DG.store {V : Type} (g : DG V (DGEdge V)) : NodeStore V where
  outgoingEdges := g.outgoingEdges
  incomingEdges := g.incomingEdges
  edgeAttr := g.edgeAttr

namespace SCC

variable {V : Type} [DecidableEq V] (ord : IterOrder) (subLC : DGEdge V → Bool)

/-- The first loop of `copyNodesAndEdges`, and the second one. -/
def addNodes (inclusion : Bool) (nodes : PtrSet (DGNode V)) (g : SCC V) : SCC V :=
  (ord.visit nodes.elems).foldl (fun g node => (g.addNode node.theT inclusion).2) g

/-- Copy one edge unless its other end is in the map `skip` looks at. -/
def copyEdgeUnless (store : NodeStore V) (skip : SCC V → DGEdge V → Bool) (g : SCC V)
    (edge : DGEdge V) : Option (SCC V) :=
  if skip g edge then some g
  else (g.copyAddEdge subLC edge (store.edgeAttr edge)).map (·.2)

/-- `SCC::copyNodesAndEdges`.  The entry node is `*allNodes.begin()`, which needs
a node. -/
def copyNodesAndEdges (store : NodeStore V) (g : SCC V)
    (internalNodes externalNodes : PtrSet (DGNode V)) : Option (SCC V) := do
  let g := addNodes ord true internalNodes g
  let g := addNodes ord false externalNodes g
  let entryNode ← (ord.visit g.allNodes.elems).head?
  let g := g.setEntryNode entryNode
  -- internal edges: incoming edges of internal nodes are outgoing edges of others
  let g ← (ord.visit internalNodes.elems).foldlM (fun g node =>
    (ord.visit (store.outgoingEdges node).elems).foldlM
      (copyEdgeUnless subLC store fun g edge => g.isExternal edge.getDst) g) g
  -- external edges
  (ord.visit internalNodes.elems).foldlM (fun g node => do
    let g ← (ord.visit (store.outgoingEdges node).elems).foldlM
      (copyEdgeUnless subLC store fun g edge => g.isInternal edge.getDst) g
    (ord.visit (store.incomingEdges node).elems).foldlM
      (copyEdgeUnless subLC store fun g edge => g.isInternal edge.getSrc) g) g

/-- The nodes at the other end of an edge whose value is not an internal one.
Values are compared and not nodes, since the nodes may be of several graphs. -/
def externalNodesOf (store : NodeStore V) (internalNodes : PtrSet (DGNode V)) :
    PtrSet (DGNode V) :=
  let internalValues := PtrSet.ofList (internalNodes.elems.map DGNode.theT)
  internalNodes.elems.foldl (fun externalNodes node =>
    let dsts := (store.outgoingEdges node).filter fun edge => decide (edge.getDst ∉ internalValues)
    let srcs := (store.incomingEdges node).filter fun edge => decide (edge.getSrc ∉ internalValues)
    (externalNodes.insertAll (dsts.elems.map DGEdge.dstNode)).insertAll
      (srcs.elems.map DGEdge.srcNode)) ∅

/-- `SCC::SCC(std::set<DGNode<Value> *>)`, allocated at `self`. -/
def new (store : NodeStore V) (self : Nat) (internalNodes : PtrSet (DGNode V)) :
    Option (SCC V) :=
  copyNodesAndEdges ord subLC store (DG.empty self) internalNodes
    (externalNodesOf store internalNodes)

end SCC

end Noelle
