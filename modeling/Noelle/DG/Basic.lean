import Noelle.Lib.Collections

/-!
# DG.Basic

The dependence-graph template `DG<T>` with its nodes and edges.

A node or an edge is identified by the graph that allocated it and a counter of
that graph, and carries the fields that never change after construction; the
sets a node holds and the loop-carried flag and sub-edges of an edge live in the
graph, as maps from identities.  An identity is never reused.

A `DG<T>` is keyed by pointers to `T`; `T` here is the type of these pointers
and `S` the type of the pointers an edge can hold as sub-edges.  A null pointer
is `none`: the node maps can hold one because `fetchNode` subscripts the external
map.  Operations that would dereference it return `none`.
-/

namespace Noelle

open Function

/-! ## Edges and nodes -/

/-- Concrete sub-classes of `DGEdge`. -/
inductive DependenceKind
  | controlDependence
  | variableDependence
  | mayMemoryDependence
  | mustMemoryDependence
  | undefinedDependence
  deriving DecidableEq, Repr

/-- `DG_DATA_RAW`, `DG_DATA_WAR` and `DG_DATA_WAW`. -/
inductive DataDependenceType
  | raw
  | war
  | waw
  deriving DecidableEq, Repr

namespace DependenceKind

/-- `MemoryDependence::classof`. -/
def isMemory : DependenceKind → Bool
  | mayMemoryDependence | mustMemoryDependence => true
  | _ => false

/-- `DataDependence::classof`. -/
def isData : DependenceKind → Bool
  | variableDependence | mayMemoryDependence | mustMemoryDependence => true
  | _ => false

end DependenceKind

/-- A node: the graph that allocated it, its id there and the value it stands for. -/
structure DGNode (T : Type) where
  owner : Nat
  ID : Nat
  theT : T
  deriving DecidableEq

/-- An edge.  Only data dependences have a `dataDepType`. -/
structure DGEdge (T : Type) where
  owner : Nat
  addr : Nat
  srcNode : DGNode T
  dstNode : DGNode T
  kind : DependenceKind
  dataDepType : Option DataDependenceType
  deriving DecidableEq

namespace DGEdge

variable {T : Type}

def getSrc (e : DGEdge T) : T := e.srcNode.theT

def getDst (e : DGEdge T) : T := e.dstNode.theT

end DGEdge

/-- The fields of an edge that change: `subEdges` is null until a first sub-edge
is added. -/
structure EdgeAttr (S : Type) where
  isLoopCarried : Bool := false
  subEdges : Option (PtrSet S) := none

namespace EdgeAttr

variable {S : Type} [DecidableEq S]

def getSubEdges (a : EdgeAttr S) : PtrSet S := a.subEdges.getD ∅

/-- `DGEdge::addSubEdge`; `lc` is the loop-carried flag of the sub-edge. -/
def addSubEdge (a : EdgeAttr S) (s : S) (lc : Bool) : EdgeAttr S where
  isLoopCarried := a.isLoopCarried || lc
  subEdges := some ((a.subEdges.getD ∅).insert s)

/-- `DGEdge::removeSubEdges`. -/
def removeSubEdges (a : EdgeAttr S) : EdgeAttr S :=
  match a.subEdges with
  | none => a
  | some _ => { isLoopCarried := false, subEdges := none }

/-- The copy constructor of `DGEdge`: the flag, then every sub-edge again. -/
def copy (subLC : S → Bool) (a : EdgeAttr S) : EdgeAttr S :=
  match a.subEdges with
  | none => { isLoopCarried := a.isLoopCarried }
  | some subs =>
      subs.elems.foldl (fun c s => c.addSubEdge s (subLC s)) { isLoopCarried := a.isLoopCarried }

@[simp] theorem mem_getSubEdges_addSubEdge (a : EdgeAttr S) (s x : S) (lc : Bool) :
    x ∈ (a.addSubEdge s lc).getSubEdges ↔ x = s ∨ x ∈ a.getSubEdges :=
  PtrSet.mem_insert

variable (subLC : S → Bool) (a : EdgeAttr S)

theorem foldl_addSubEdge (l : List S) :
    (l.foldl (fun c s => c.addSubEdge s (subLC s)) a).isLoopCarried =
        (a.isLoopCarried || l.any subLC) ∧
      ∀ x, x ∈ (l.foldl (fun c s => c.addSubEdge s (subLC s)) a).getSubEdges ↔
        x ∈ a.getSubEdges ∨ x ∈ l := by
  induction l generalizing a with
  | nil => simp
  | cons s l ih =>
      obtain ⟨hflag, hmem⟩ := ih (a.addSubEdge s (subLC s))
      refine ⟨hflag.trans ?_, fun x => (hmem x).trans ?_⟩
      · rw [List.any_cons, ← Bool.or_assoc]
        rfl
      · rw [mem_getSubEdges_addSubEdge, List.mem_cons]
        tauto

theorem isLoopCarried_copy :
    (a.copy subLC).isLoopCarried = (a.isLoopCarried || a.getSubEdges.elems.any subLC) := by
  unfold copy getSubEdges
  cases a.subEdges with
  | none => simp
  | some subs => exact (foldl_addSubEdge subLC { isLoopCarried := a.isLoopCarried } subs.elems).1

@[simp] theorem mem_getSubEdges_copy (x : S) :
    x ∈ (a.copy subLC).getSubEdges ↔ x ∈ a.getSubEdges := by
  unfold copy
  cases h : a.subEdges with
  | none => simp [getSubEdges, h]
  | some subs =>
      have hmem := (foldl_addSubEdge subLC { isLoopCarried := a.isLoopCarried } subs.elems).2 x
      simpa [getSubEdges, h] using hmem

omit [DecidableEq S] in
@[simp] theorem getSubEdges_removeSubEdges (a : EdgeAttr S) : a.removeSubEdges.getSubEdges = ∅ := by
  cases h : a.subEdges <;> simp [removeSubEdges, getSubEdges, h]

end EdgeAttr

/-! ## The graph -/

/-- `DG<T>`: the members of the class, and the sets and flags of its nodes and edges. -/
structure DG (T S : Type) where
  self : Nat
  nodeIdCounter : Nat
  edgeCounter : Nat
  allNodes : PtrSet (DGNode T)
  allEdges : PtrSet (DGEdge T)
  entryNode : Option (DGNode T)
  internalNodeMap : AList fun _ : T => Option (DGNode T)
  externalNodeMap : AList fun _ : T => Option (DGNode T)
  outgoingEdges : DGNode T → PtrSet (DGEdge T)
  incomingEdges : DGNode T → PtrSet (DGEdge T)
  edgeAttr : DGEdge T → EdgeAttr S

namespace DG

variable {T S : Type}

/-- The constructor. -/
def empty (self : Nat) : DG T S where
  self := self
  nodeIdCounter := 0
  edgeCounter := 0
  allNodes := ∅
  allEdges := ∅
  entryNode := none
  internalNodeMap := ∅
  externalNodeMap := ∅
  outgoingEdges := fun _ => ∅
  incomingEdges := fun _ => ∅
  edgeAttr := fun _ => {}

def setEntryNode (g : DG T S) (node : DGNode T) : DG T S := { g with entryNode := some node }

def numNodes (g : DG T S) : Nat := g.allNodes.size

def numEdges (g : DG T S) : Nat := g.allEdges.size

def numInternalNodes (g : DG T S) : Nat := g.internalNodeMap.entries.length

def numExternalNodes (g : DG T S) : Nat := g.externalNodeMap.entries.length

def outDegree (g : DG T S) (node : DGNode T) : Nat := (g.outgoingEdges node).size

def inDegree (g : DG T S) (node : DGNode T) : Nat := (g.incomingEdges node).size

variable [DecidableEq T]

def isInternal (g : DG T S) (theT : T) : Bool := (g.internalNodeMap.lookup theT).isSome

def isExternal (g : DG T S) (theT : T) : Bool := (g.externalNodeMap.lookup theT).isSome

def isInGraph (g : DG T S) (theT : T) : Bool := g.isInternal theT || g.isExternal theT

def addNode (g : DG T S) (theT : T) (inclusion : Bool) : DGNode T × DG T S :=
  let node : DGNode T := ⟨g.self, g.nodeIdCounter, theT⟩
  (node,
    { g with
      nodeIdCounter := g.nodeIdCounter + 1
      allNodes := g.allNodes.insert node
      internalNodeMap :=
        if inclusion then g.internalNodeMap.insert theT (some node) else g.internalNodeMap
      externalNodeMap :=
        if inclusion then g.externalNodeMap else g.externalNodeMap.insert theT (some node)
      outgoingEdges := update g.outgoingEdges node ∅
      incomingEdges := update g.incomingEdges node ∅ })

/-- `DG::fetchNode`.  A value that is in neither map is looked up by subscript,
so the external map gets a null entry for it. -/
def fetchNode (g : DG T S) (theT : T) : Option (DGNode T) × DG T S :=
  match g.internalNodeMap.lookup theT with
  | some node => (node, g)
  | none =>
      match g.externalNodeMap.lookup theT with
      | some node => (node, g)
      | none => (none, { g with externalNodeMap := g.externalNodeMap.insert theT none })

def fetchOrAddNode (g : DG T S) (theT : T) (inclusion : Bool) : Option (DGNode T) × DG T S :=
  if g.isInGraph theT then g.fetchNode theT
  else
    let (node, g) := g.addNode theT inclusion
    (some node, g)

/-- Allocate an edge between two nodes and record it in the graph, in its source
and in its destination. -/
def insertEdge (g : DG T S) (fromNode toNode : DGNode T) (kind : DependenceKind)
    (t : Option DataDependenceType) (attr : EdgeAttr S) : DGEdge T × DG T S :=
  let edge : DGEdge T := ⟨g.self, g.edgeCounter, fromNode, toNode, kind, t⟩
  (edge,
    { g with
      edgeCounter := g.edgeCounter + 1
      allEdges := g.allEdges.insert edge
      outgoingEdges :=
        update g.outgoingEdges fromNode ((g.outgoingEdges fromNode).insert edge)
      incomingEdges :=
        update g.incomingEdges toNode ((g.incomingEdges toNode).insert edge)
      edgeAttr := update g.edgeAttr edge attr })

/-- The common body of the `add*DependenceEdge` operations.  An endpoint that is
not in the graph is a null pointer, which adding the edge to its node
dereferences. -/
def addDependenceEdge (g : DG T S) (fromT toT : T) (kind : DependenceKind)
    (t : Option DataDependenceType) (attr : EdgeAttr S) : Option (DGEdge T × DG T S) :=
  let (fromNode, g) := g.fetchNode fromT
  let (toNode, g) := g.fetchNode toT
  match fromNode, toNode with
  | some fromNode, some toNode => some (g.insertEdge fromNode toNode kind t attr)
  | _, _ => none

def addVariableDataDependenceEdge (g : DG T S) (fromT toT : T) (t : DataDependenceType) :
    Option (DGEdge T × DG T S) :=
  g.addDependenceEdge fromT toT .variableDependence (some t) {}

def addMemoryDataDependenceEdge (g : DG T S) (fromT toT : T) (t : DataDependenceType)
    (isMust : Bool) : Option (DGEdge T × DG T S) :=
  g.addDependenceEdge fromT toT
    (if isMust then .mustMemoryDependence else .mayMemoryDependence) (some t) {}

def addControlDependenceEdge (g : DG T S) (fromT toT : T) : Option (DGEdge T × DG T S) :=
  g.addDependenceEdge fromT toT .controlDependence none {}

def addUndefinedDependenceEdge (g : DG T S) (fromT toT : T) : Option (DGEdge T × DG T S) :=
  g.addDependenceEdge fromT toT .undefinedDependence none {}

/-- `DGEdge::setLoopCarried`. -/
def setLoopCarried (g : DG T S) (edge : DGEdge T) (isLoopCarried : Bool) : DG T S :=
  { g with
    edgeAttr := update g.edgeAttr edge
      { g.edgeAttr edge with isLoopCarried := isLoopCarried } }

def fetchEdges (g : DG T S) (fromNode toNode : DGNode T) : PtrSet (DGEdge T) :=
  (g.outgoingEdges fromNode).filter fun edge => decide (edge.dstNode = toNode)

/-- `DG::copyAddEdge`: a copy of an edge, possibly one of another graph, between
the equivalent nodes of this graph.  The cast that ends the chain of `isa` checks
fails on an undefined dependence. -/
def copyAddEdge [DecidableEq S] (g : DG T S) (subLC : S → Bool) (edgeToCopy : DGEdge T)
    (attr : EdgeAttr S) : Option (DGEdge T × DG T S) :=
  match edgeToCopy.kind with
  | .undefinedDependence => none
  | kind =>
      g.addDependenceEdge edgeToCopy.getSrc edgeToCopy.getDst kind edgeToCopy.dataDepType
        (attr.copy subLC)

/-- `DGNode::removeConnectedEdge`: from the outgoing edges if it is one of them,
from the incoming ones otherwise. -/
def removeConnectedEdge (g : DG T S) (node : DGNode T) (edge : DGEdge T) : DG T S :=
  if edge ∈ g.outgoingEdges node then
    { g with
      outgoingEdges := update g.outgoingEdges node ((g.outgoingEdges node).erase edge) }
  else
    { g with
      incomingEdges := update g.incomingEdges node ((g.incomingEdges node).erase edge) }

/-- `DGNode::removeConnectedNode`. -/
def removeConnectedNode (g : DG T S) (node other : DGNode T) : DG T S :=
  { g with
    outgoingEdges := update g.outgoingEdges node
      ((g.outgoingEdges node).filter fun edge => decide (edge.dstNode ≠ other))
    incomingEdges := update g.incomingEdges node
      ((g.incomingEdges node).filter fun edge => decide (edge.srcNode ≠ other)) }

/-- Take a value out of the map that holds it. -/
def eraseFromMaps (g : DG T S) (theT : T) : DG T S :=
  if g.isInternal theT then { g with internalNodeMap := g.internalNodeMap.erase theT }
  else { g with externalNodeMap := g.externalNodeMap.erase theT }

/-- `DG::removeNode`.  The three sets of edges are collected before any of them
changes; the bodies of the loops over them commute. -/
def removeNode (g : DG T S) (node : DGNode T) : DG T S :=
  let g := g.eraseFromMaps node.theT
  let g := { g with allNodes := g.allNodes.erase node }
  let incomingToNode := (g.incomingEdges node).elems
  let outgoingFromNode := (g.outgoingEdges node).elems
  let allToAndFromNode := ((g.outgoingEdges node).insertAll incomingToNode).elems
  let g := incomingToNode.foldl (fun g edge => g.removeConnectedNode edge.srcNode node) g
  let g := outgoingFromNode.foldl (fun g edge => g.removeConnectedNode edge.dstNode node) g
  allToAndFromNode.foldl (fun g edge => { g with allEdges := g.allEdges.erase edge }) g

def removeEdge (g : DG T S) (edge : DGEdge T) : DG T S :=
  let g := g.removeConnectedEdge edge.srcNode edge
  let g := g.removeConnectedEdge edge.dstNode edge
  { g with allEdges := g.allEdges.erase edge }

/-! ## Lookup -/

/-- The node a value is mapped to: the pointer `fetchNode` returns. -/
def nodeOf (g : DG T S) (theT : T) : Option (DGNode T) := (g.fetchNode theT).1

variable {g : DG T S} {t : T}

theorem isInternal_iff :
    g.isInternal t = true ↔ ∃ p, g.internalNodeMap.lookup t = some p :=
  Option.isSome_iff_exists

theorem isExternal_iff :
    g.isExternal t = true ↔ ∃ p, g.externalNodeMap.lookup t = some p :=
  Option.isSome_iff_exists

theorem isInGraph_iff :
    g.isInGraph t = true ↔ g.isInternal t = true ∨ g.isExternal t = true := by
  simp [isInGraph]

theorem fetchNode_of_isInGraph (h : g.isInGraph t = true) :
    g.fetchNode t = (g.nodeOf t, g) := by
  unfold nodeOf fetchNode
  cases hi : g.internalNodeMap.lookup t with
  | some p => rfl
  | none =>
      cases he : g.externalNodeMap.lookup t with
      | some p => rfl
      | none => simp [isInGraph, isInternal, isExternal, hi, he] at h

theorem isInGraph_of_nodeOf {n : DGNode T} (h : g.nodeOf t = some n) :
    g.isInGraph t = true := by
  unfold nodeOf fetchNode at h
  cases hi : g.internalNodeMap.lookup t with
  | some p => simp [isInGraph, isInternal, hi]
  | none =>
      cases he : g.externalNodeMap.lookup t with
      | some p => simp [isInGraph, isExternal, he]
      | none => simp [hi, he] at h

theorem nodeOf_eq : g.nodeOf t =
    match g.internalNodeMap.lookup t with
    | some p => p
    | none => (g.externalNodeMap.lookup t).getD none := by
  unfold nodeOf fetchNode
  cases g.internalNodeMap.lookup t with
  | some p => rfl
  | none => cases g.externalNodeMap.lookup t <;> rfl

theorem nodeOf_congr {g' : DG T S} (hi : g'.internalNodeMap.lookup t = g.internalNodeMap.lookup t)
    (he : g'.externalNodeMap.lookup t = g.externalNodeMap.lookup t) : g'.nodeOf t = g.nodeOf t := by
  rw [nodeOf_eq, nodeOf_eq, hi, he]

theorem addDependenceEdge_eq {a b : T} {na nb : DGNode T} (ha : g.nodeOf a = some na)
    (hb : g.nodeOf b = some nb) (kind : DependenceKind) (t : Option DataDependenceType)
    (attr : EdgeAttr S) :
    g.addDependenceEdge a b kind t attr = some (g.insertEdge na nb kind t attr) := by
  unfold addDependenceEdge
  rw [fetchNode_of_isInGraph (isInGraph_of_nodeOf ha)]
  dsimp only
  rw [fetchNode_of_isInGraph (isInGraph_of_nodeOf hb)]
  dsimp only
  rw [ha, hb]

end DG

end Noelle
