import Noelle.IR
import Noelle.LoopForest.LoopTree
import Noelle.SCCDAG.Basic

/-!
# SCCDAGNormalizer.Basic

The normalizer of an SCCDAG: phases that merge nodes.

A phase first decides what to merge and then merges.  The first three phases
group nodes pair by pair (`MergeGroups`); the last one pairs a trailing compare or
branch with a node in front of it, which it looks up when its turn comes.  The
function that would collapse the cycles introduced on the way is commented out as
a whole, so the call does nothing.
-/

namespace Noelle

/-! ## Merge groups -/

/-- `SCCDAGNormalizer::MergeGroups`.  A group is a pointer to a set of nodes. -/
structure MergeGroups where
  sccToGroupMap : AList fun _ : DGNode SccPtr => Nat
  groups : PtrSet Nat
  nodes : Nat → PtrSet (DGNode SccPtr)
  nextGroup : Nat

namespace MergeGroups

/-- The constructor. -/
def empty : MergeGroups where
  sccToGroupMap := ∅
  groups := ∅
  nodes := fun _ => ∅
  nextGroup := 0

def merge (m : MergeGroups) (sccNode1 sccNode2 : DGNode SccPtr) : MergeGroups :=
  match m.sccToGroupMap.lookup sccNode1, m.sccToGroupMap.lookup sccNode2 with
  | some group1, some group2 =>
      if group1 = group2 then m
      else
        { m with
          nodes := Function.update m.nodes group1 ((m.nodes group1).insertAll (m.nodes group2).elems)
          sccToGroupMap := (m.nodes group2).elems.foldl
            (fun sccToGroupMap node => sccToGroupMap.insert node group1) m.sccToGroupMap
          groups := m.groups.erase group2 }
  | some group1, none =>
      { m with
        nodes := Function.update m.nodes group1 ((m.nodes group1).insert sccNode2)
        sccToGroupMap := m.sccToGroupMap.insert sccNode2 group1 }
  | none, some group2 =>
      { m with
        nodes := Function.update m.nodes group2 ((m.nodes group2).insert sccNode1)
        sccToGroupMap := m.sccToGroupMap.insert sccNode1 group2 }
  | none, none =>
      { nodes := Function.update m.nodes m.nextGroup (PtrSet.ofList [sccNode1, sccNode2])
        groups := m.groups.insert m.nextGroup
        sccToGroupMap := (m.sccToGroupMap.insert sccNode1 m.nextGroup).insert sccNode2 m.nextGroup
        nextGroup := m.nextGroup + 1 }

/-- Group the pairs that some elements of a list ask for. -/
def ofPairs {α : Type} (pairOf : α → Option (Option (DGNode SccPtr × DGNode SccPtr)))
    (l : List α) : Option MergeGroups :=
  l.foldlM (fun m a => do
    match ← pairOf a with
    | none => return m
    | some (sccNode1, sccNode2) => return m.merge sccNode1 sccNode2) empty

end MergeGroups

def DG.getPreviousDepthNodes {T S : Type} [DecidableEq T] (g : DG T S) (node : DGNode T) :
    PtrSet (DGNode T) :=
  let outgoingNodes := PtrSet.ofList ((g.incomingEdges node).elems.map DGEdge.srcNode)
  outgoingNodes.filter fun outgoing =>
    (g.outgoingEdges outgoing).elems.all fun outgoingE => decide (outgoingE.dstNode ∉ outgoingNodes)

namespace LoopCarriedDependencies

variable {V F B : Type} [DecidableEq V] [DecidableEq B]

/-- Is the edge a loop-carried dependence of the loop?  The destination is cast to an
instruction. -/
def isOfLoop (ir : IR V B) (LS : LoopStructure F B) (loopNode : LoopTree F B) (scc : SCC V)
    (edge : DGEdge V) : Option Bool :=
  if !(scc.edgeAttr edge).isLoopCarried then return false
  else if !ir.isInstruction edge.getDst then none
  else
    match loopNode.getInnermostLoopThatContains (ir.getParent edge.getDst) with
    | none => return false
    | some consumerLoop =>
        if consumerLoop.self ≠ LS.self then return false
        else if !ir.isInstruction edge.getSrc then return false
        else return (loopNode.getInnermostLoopThatContains (ir.getParent edge.getSrc)).isSome

def getLoopCarriedDependenciesForLoop (ord : IterOrder) (ir : IR V B) (LS : LoopStructure F B)
    (loopNode : LoopTree F B) (sccdag : SCCDAG V) : Option (PtrSet (DGEdge V)) :=
  (ord.visit sccdag.allNodes.elems).foldlM (fun LCEdges sccNode =>
    let scc := sccdag.sccs sccNode.theT
    (ord.visit scc.allEdges.elems).foldlM (fun LCEdges edge => do
      if ← isOfLoop ir LS loopNode scc edge then return LCEdges.insert edge
      else return LCEdges) LCEdges) ∅

end LoopCarriedDependencies

namespace SCCDAGNormalizer

variable {V F B : Type} [DecidableEq V] [DecidableEq F] [DecidableEq B]
  (ord : IterOrder) (subLC : DGEdge V → Bool) (ir : IR V B) (loop : LoopTree F B)

/-! ## What the phases merge -/

/-- `scc->begin_internal_node_map()->first`. -/
def firstInternalValue (scc : SCC V) : Option V :=
  ((ord.visit scc.internalNodeMap.entries).head?).map (·.1)

/-- `sccdag.fetchNode(scc)`: a null node would be dereferenced when its group is merged. -/
def fetchSccNode (sccdag : SCCDAG V) (scc : SccPtr) : Option (DGNode SccPtr) :=
  (sccdag.fetchNode scc).1

/-- The body of the loop of `mergeLCSSAPhis`: a PHI of one value that closes a PHI of a
loop header is grouped with that PHI. -/
def lcssaPhiPair (sccdag : SCCDAG V) (sccNode : DGNode SccPtr) :
    Option (Option (DGNode SccPtr × DGNode SccPtr)) := do
  let scc := sccdag.sccs sccNode.theT
  if scc.numInternalNodes ≠ 1 then return none
  let I ← firstInternalValue ord scc
  match ir.kind I with
  | .phiNode [incomingI] =>
      if !ir.isPHINode incomingI then return none
      match loop.getInnermostLoopThatContains (ir.getParent incomingI) with
      | none => return none
      | some incomingLoop =>
          if incomingLoop.getHeader ≠ ir.getParent incomingI then return none
          let incomingNode ← fetchSccNode sccdag (← sccdag.sccOfValue incomingI)
          return some (incomingNode, sccNode)
  | _ => return none

/-- The body of the loops of `mergeSCCsWithExternalInterIterationDependencies`: the SCCs at
both ends of a loop-carried data dependence. -/
def loopCarriedPair (sccdag : SCCDAG V) (edge : DGEdge V) :
    Option (Option (DGNode SccPtr × DGNode SccPtr)) := do
  if !edge.kind.isData then return none
  let producerSCC ← sccdag.sccOfValue edge.getSrc
  if !(sccdag.sccs producerSCC).isExternal edge.getDst then return none
  let consumerSCC ← sccdag.sccOfValue edge.getDst
  if producerSCC = consumerSCC then none
  else
    let producerNode ← fetchSccNode sccdag producerSCC
    let consumerNode ← fetchSccNode sccdag consumerSCC
    return some (producerNode, consumerNode)

/-- `adjacentNode` after the check of the out-degree: the only child, if there is one. -/
def onlyChild (sccdag : SCCDAG V) (sccNode : DGNode SccPtr) : Option (Option (DGNode SccPtr)) :=
  if sccdag.outDegree sccNode = 1 then
    ((ord.visit (sccdag.outgoingEdges sccNode).elems).head?).map fun edge => some edge.dstNode
  else some none

/-- The node that a single PHI, GEP or cast is grouped with. -/
def adjacentNode (sccdag : SCCDAG V) (I : V) (sccNode : DGNode SccPtr) :
    Option (Option (DGNode SccPtr)) := do
  let outgoing ← onlyChild ord sccdag sccNode
  if sccdag.inDegree sccNode = 1 then
    let edge ← (ord.visit (sccdag.incomingEdges sccNode).elems).head?
    match outgoing with
    | none => return some edge.srcNode
    | some dst => return some (if ir.isPHINode I || ir.isCastInst I then edge.srcNode else dst)
  else return outgoing

/-- The body of the loop of `mergeSingleSyntacticSugarInstrs`. -/
def syntacticSugarPair (sccdag : SCCDAG V) (sccPair : (_ : SccPtr) × Option (DGNode SccPtr)) :
    Option (Option (DGNode SccPtr × DGNode SccPtr)) := do
  let scc := sccdag.sccs sccPair.1
  if 1 < scc.numInternalNodes then return none
  let I ← firstInternalValue ord scc
  if !ir.isPHINode I && !ir.isGetElementPtrInst I && !ir.isCastInst I then return none
  let sccNode ← sccPair.2
  match ← adjacentNode ord ir sccdag I sccNode with
  | none => return none
  | some adjacent => return some (sccNode, adjacent)

/-- The body of the loop that collects `tailCmpBrs`. -/
def isTailCmpBr (sccdag : SCCDAG V) (sccPair : (_ : SccPtr) × Option (DGNode SccPtr)) :
    Option Bool := do
  let sccNode ← sccPair.2
  if sccdag.inDegree sccNode = 0 || 0 < sccdag.outDegree sccNode then return false
  return (sccdag.sccs sccPair.1).internalNodeMap.entries.all fun nodePair =>
    ir.isCmpInst nodePair.1 || (ir.isInstruction nodePair.1 && ir.isTerminator nodePair.1)

/-- A merge that a phase has decided on. -/
inductive MergeItem where
  | group (sccNodes : PtrSet (DGNode SccPtr))
  | tailCmpBr (tailSCC : DGNode SccPtr)

/-- The groups as merges, in the order of the set of groups. -/
def mergesOf (m : MergeGroups) : List MergeItem :=
  (ord.visit m.groups.elems).map fun group => .group (m.nodes group)

/-- The groups of `mergeLCSSAPhis`. -/
def lcssaPhiGroups (sccdag : SCCDAG V) : Option (List MergeItem) :=
  (MergeGroups.ofPairs (lcssaPhiPair ord ir loop sccdag) (ord.visit sccdag.allNodes.elems)).map
    (mergesOf ord)

def loopCarriedEdges (sccdag : SCCDAG V) : Option (List (DGEdge V)) :=
  (ord.visit loop.getLoops.elems).foldlM (fun edges l => do
    let LCEdges ← LoopCarriedDependencies.getLoopCarriedDependenciesForLoop ord ir l loop sccdag
    return edges ++ ord.visit LCEdges.elems) []

/-- The groups of `mergeSCCsWithExternalInterIterationDependencies`. -/
def loopCarriedGroups (sccdag : SCCDAG V) : Option (List MergeItem) := do
  let edges ← loopCarriedEdges ord ir loop sccdag
  (MergeGroups.ofPairs (loopCarriedPair sccdag) edges).map (mergesOf ord)

/-- The groups of `mergeSingleSyntacticSugarInstrs`. -/
def syntacticSugarGroups (sccdag : SCCDAG V) : Option (List MergeItem) :=
  (MergeGroups.ofPairs (syntacticSugarPair ord ir sccdag)
    (ord.visit sccdag.internalNodeMap.entries)).map (mergesOf ord)

/-- `tailCmpBrs` of `mergeBranchesWithoutOutgoingEdges`. -/
def tailCmpBrs (sccdag : SCCDAG V) : Option (List MergeItem) :=
  (ord.visit sccdag.internalNodeMap.entries).foldlM (fun tails sccPair => do
    if ← isTailCmpBr ir sccdag sccPair then return tails ++ (sccPair.2.map .tailCmpBr).toList
    else return tails) []

/-! ## Merging -/

/-- The nodes of a merge whose turn it is.  `*getPreviousDepthNodes(tailSCC).begin()`
needs a node. -/
def nodesToMerge (sccdag : SCCDAG V) : MergeItem → Option (PtrSet (DGNode SccPtr))
  | .group sccNodes => some sccNodes
  | .tailCmpBr tailSCC => do
      let previous ← (ord.visit (sccdag.getPreviousDepthNodes tailSCC).elems).head?
      return PtrSet.ofList [tailSCC, previous]

def mergeItem (sccdag : SCCDAG V) (item : MergeItem) : Option (SCCDAG V) := do
  sccdag.mergeSCCs ord subLC (← nodesToMerge ord sccdag item)

/-- Do the merges that a phase has decided on. -/
def mergeAll (decided : SCCDAG V → Option (List MergeItem)) (sccdag : SCCDAG V) :
    Option (SCCDAG V) := do
  (← decided sccdag).foldlM (mergeItem ord subLC) sccdag

def mergeLCSSAPhis (sccdag : SCCDAG V) : Option (SCCDAG V) :=
  mergeAll ord subLC (lcssaPhiGroups ord ir loop) sccdag

def mergeSCCsWithExternalInterIterationDependencies (sccdag : SCCDAG V) : Option (SCCDAG V) :=
  mergeAll ord subLC (loopCarriedGroups ord ir loop) sccdag

def mergeSingleSyntacticSugarInstrs (sccdag : SCCDAG V) : Option (SCCDAG V) :=
  mergeAll ord subLC (syntacticSugarGroups ord ir) sccdag

def mergeBranchesWithoutOutgoingEdges (sccdag : SCCDAG V) : Option (SCCDAG V) :=
  mergeAll ord subLC (tailCmpBrs ord ir) sccdag

/-- `SCCDAGNormalizer::collapseIntroducedCycles`, whose whole definition is commented out: it is
declared and called only. -/
def collapseIntroducedCycles (sccdag : SCCDAG V) : SCCDAG V := sccdag

def normalizeInPlace (sccdag : SCCDAG V) : Option (SCCDAG V) := do
  let sccdag ← mergeLCSSAPhis ord subLC ir loop sccdag
  let sccdag ← mergeSCCsWithExternalInterIterationDependencies ord subLC ir loop sccdag
  let sccdag ← mergeSingleSyntacticSugarInstrs ord subLC ir sccdag
  let sccdag ← mergeBranchesWithoutOutgoingEdges ord subLC ir sccdag
  return collapseIntroducedCycles sccdag

end SCCDAGNormalizer

end Noelle
