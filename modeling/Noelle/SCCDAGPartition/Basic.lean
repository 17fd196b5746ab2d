import Noelle.SCCDAG.Basic

/-!
# SCCDAGPartition.Basic

The graph of a partition of SCCs: its nodes are sets of SCCs.

The sets live on a heap beside the graph.  A set that was deleted is gone from
the heap (`none`), so every operation that reads one after that returns `none`;
so does one that takes the first element of an empty set.
-/

namespace Noelle

/-- `SCCSet *`. -/
abbrev SetPtr := Nat

/-- `SCCDAGPartition`; `heap` holds the `sccs` of the live sets. -/
structure SCCDAGPartition extends DG SetPtr Empty where
  heap : SetPtr → Option (PtrSet SccPtr)
  nextSet : SetPtr
  sccToSetMap : AList fun _ : SccPtr => SetPtr

namespace SCCDAGPartition

/-- The members before the body of the constructor runs. -/
def empty (self : Nat) : SCCDAGPartition where
  toDG := DG.empty self
  heap := fun _ => none
  nextSet := 0
  sccToSetMap := ∅

/-- `fetchNode`. -/
def fetchSetNode (p : SCCDAGPartition) (set : SetPtr) : Option (DGNode SetPtr) × SCCDAGPartition :=
  let (node, g) := p.toDG.fetchNode set
  (node, { p with toDG := g })

def addSet (p : SCCDAGPartition) (sccs : PtrSet SccPtr) : DGNode SetPtr × SCCDAGPartition :=
  let (node, g) := p.toDG.addNode p.nextSet true
  (node, { p with
    toDG := g
    heap := Function.update p.heap p.nextSet (some sccs)
    nextSet := p.nextSet + 1 })

/-- Add an edge between two sets unless there is one. -/
def addSetEdge (p : SCCDAGPartition) (fromNode toNode : DGNode SetPtr) (fromSet toSet : SetPtr) :
    Option SCCDAGPartition :=
  if (p.fetchEdges fromNode toNode).size ≠ 0 then some p
  else (p.addUndefinedDependenceEdge fromSet toSet).map fun (_, g) => { p with toDG := g }

/-- `SCCDAGPartition::setOfSCC`, with its assertion. -/
def setOfSCC (p : SCCDAGPartition) (scc : SccPtr) : Option SetPtr := p.sccToSetMap.lookup scc

variable (ord : IterOrder) (it : SccIterator)

/-! ## Construction -/

/-- The body of the first loop of the constructor. -/
def addInitialSet (p : SCCDAGPartition) (initialSet : PtrSet SccPtr) : SCCDAGPartition :=
  let set := p.nextSet
  let (_, p) := p.addSet initialSet
  { p with
    sccToSetMap := (ord.visit initialSet.elems).foldl (fun sccToSetMap scc =>
      -- `insert` keeps the entry that is there
      if (sccToSetMap.lookup scc).isSome then sccToSetMap else sccToSetMap.insert scc set)
      p.sccToSetMap }

/-- The body of the second loop of the constructor. -/
def addEdgesOfSCC (p : SCCDAGPartition) (sccAndParents : (_ : SccPtr) × PtrSet SccPtr) :
    Option SCCDAGPartition :=
  match p.sccToSetMap.lookup sccAndParents.1 with
  | none => some p
  | some selfSet => do
      let (selfNode, p) := p.fetchSetNode selfSet
      (ord.visit sccAndParents.2.elems).foldlM (fun p parent =>
        match p.sccToSetMap.lookup parent with
        | none => some p
        | some parentSet => do
            let (parentNode, p) := p.fetchSetNode parentSet
            p.addSetEdge (← parentNode) (← selfNode) parentSet selfSet) p

/-- `SCCDAGPartition::SCCDAGPartition`. -/
def new (self : Nat) (initialSets : List (PtrSet SccPtr))
    (sccToParentsMap : AList fun _ : SccPtr => PtrSet SccPtr) : Option SCCDAGPartition :=
  (ord.visit sccToParentsMap.entries).foldlM (addEdgesOfSCC ord)
    ((ord.visit initialSets).foldl (addInitialSet ord) (empty self))

/-! ## Merging -/

/-- The members of the merged set and the map that sends them to it. -/
def unionOfSets (p : SCCDAGPartition) (mergedSet : SetPtr) (sets : PtrSet SetPtr) :
    Option (PtrSet SccPtr × AList fun _ : SccPtr => SetPtr) :=
  (ord.visit sets.elems).foldlM (fun (sccs, sccToSetMap) set => do
    let ofSet := ord.visit (← p.heap set).elems
    return (sccs.insertAll ofSet,
      ofSet.foldl (fun sccToSetMap scc => sccToSetMap.insert scc mergedSet) sccToSetMap))
    (∅, p.sccToSetMap)

/-- Some SCC of a set is mapped to the merged set. -/
def isMerged (p : SCCDAGPartition) (mergedSet set : SetPtr) : Option Bool := do
  let anySCCInSet ← (ord.visit (← p.heap set).elems).head?
  return decide ((← p.sccToSetMap.lookup anySCCInSet) = mergedSet)

def transferIncoming (mergedSet : SetPtr) (mergedSetNode : DGNode SetPtr) (p : SCCDAGPartition)
    (edge : DGEdge SetPtr) : Option SCCDAGPartition := do
  let parentSet := edge.getSrc
  let (parentNode, p) := p.fetchSetNode parentSet
  if ← p.isMerged ord mergedSet parentSet then return p
  p.addSetEdge (← parentNode) mergedSetNode parentSet mergedSet

def transferOutgoing (mergedSet : SetPtr) (mergedSetNode : DGNode SetPtr) (p : SCCDAGPartition)
    (edge : DGEdge SetPtr) : Option SCCDAGPartition := do
  let childSet := edge.getDst
  let (childNode, p) := p.fetchSetNode childSet
  if ← p.isMerged ord mergedSet childSet then return p
  p.addSetEdge mergedSetNode (← childNode) mergedSet childSet

def transferEdges (mergedSet : SetPtr) (mergedSetNode : DGNode SetPtr) (p : SCCDAGPartition)
    (set : SetPtr) : Option SCCDAGPartition := do
  let (setNode, p) := p.fetchSetNode set
  let setNode ← setNode
  let p ← (ord.visit (p.incomingEdges setNode).elems).foldlM
    (transferIncoming ord mergedSet mergedSetNode) p
  (ord.visit (p.outgoingEdges setNode).elems).foldlM (transferOutgoing ord mergedSet mergedSetNode) p

def deleteSet (p : SCCDAGPartition) (set : SetPtr) : Option SCCDAGPartition := do
  let (node, p) := p.fetchSetNode set
  return { p with
    toDG := p.removeNode (← node)
    heap := Function.update p.heap set none }

def mergeSets (p : SCCDAGPartition) (sets : PtrSet SetPtr) : Option SCCDAGPartition := do
  let mergedSet := p.nextSet
  let (sccs, sccToSetMap) ← p.unionOfSets ord mergedSet sets
  let (mergedSetNode, p) := { p with sccToSetMap := sccToSetMap }.addSet sccs
  let p ← (ord.visit sets.elems).foldlM (transferEdges ord mergedSet mergedSetNode) p
  (ord.visit sets.elems).foldlM deleteSet p

/-- The body of the loop over the cycles found from one node, on `visited` and
`collapsedSets`. -/
def collectCycle : PtrSet SetPtr × List (PtrSet SetPtr) → List (DGNode SetPtr) →
    Option (PtrSet SetPtr × List (PtrSet SetPtr))
  | (visited, collapsedSets), setNodes => do
      let firstNode ← setNodes.head?
      if firstNode.theT ∈ visited then return (visited, collapsedSets)
      let unwrappedSets := PtrSet.ofList (setNodes.map DGNode.theT)
      return (visited.insertAll unwrappedSets.elems, collapsedSets ++ [unwrappedSets])

/-- The loop over the nodes, on the partition, `visited` and `collapsedSets`: the
cycles are enumerated from every node that was not visited, after making it the
entry node. -/
def collectCycles (p : SCCDAGPartition) : Option (SCCDAGPartition × List (PtrSet SetPtr)) := do
  let (p, _, collapsedSets) ← (ord.visit p.allNodes.elems).foldlM
    (fun (p, visited, collapsedSets) nodeToVisit => do
      if nodeToVisit.theT ∈ visited then return (p, visited, collapsedSets)
      let p := { p with toDG := p.setEntryNode nodeToVisit }
      let found ← (it.comps p.allNodes.elems p.wrappedChildren nodeToVisit).foldlM collectCycle
        (visited, collapsedSets)
      return (p, found)) (p, ∅, [])
  return (p, collapsedSets)

def collapseCycles (p : SCCDAGPartition) : Option SCCDAGPartition := do
  let (p, collapsedSets) ← p.collectCycles ord it
  (ord.visit collapsedSets).foldlM (fun p setsToMerge =>
    if setsToMerge.size > 1 then p.mergeSets ord setsToMerge else some p) p

def mergeSetsAndCollapseResultingCycles (p : SCCDAGPartition) (sets : PtrSet SetPtr) :
    Option SCCDAGPartition := do
  let p ← p.mergeSets ord sets
  p.collapseCycles ord it

/-- `SCCDAGPartitioner::mergeAllPairs`, on the partition of the partitioner. -/
def mergeAllPairs (p : SCCDAGPartition) (pairs : PtrSet (SccPtr × SccPtr)) :
    Option SCCDAGPartition :=
  (ord.visit pairs.elems).foldlM (fun p pair => do
    let setProducer ← p.setOfSCC pair.1
    let setConsumer ← p.setOfSCC pair.2
    if setProducer = setConsumer then return p
    p.mergeSetsAndCollapseResultingCycles ord it (PtrSet.ofList [setProducer, setConsumer])) p

end SCCDAGPartition

end Noelle
