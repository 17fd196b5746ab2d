import Noelle.SCCDAGPartition.Basic
import Noelle.Scheduler.Basic

/-!
# SCCPartitionScheduler.Basic

`SCCPartitionScheduler::squeezePartitions`.

In every block, the instructions of a partition and what they depend on are pulled up towards the
first of them.  The function changes with each move; its values and their blocks stay.  The
constructor's data flow result and the map that is built from it decide nothing and are left out.
-/

namespace Noelle

/-- `SCCPartitionScheduler`, with the SCCs of the sets it points to. -/
structure SCCPartitionScheduler (V : Type) where
  loopSCCDAG : SCCDAG V
  sccPartitions : PtrSet SetPtr
  sccs : SetPtr → PtrSet SccPtr

namespace SchedulerFunction

variable {V B : Type} [DecidableEq V] [DecidableEq B] (fn : SchedulerFunction V B)

/-- The order of one block. -/
def setInstructions (b : B) (instructions : List V) : SchedulerFunction V B :=
  { fn with instructions := Function.update fn.instructions b instructions }

omit [DecidableEq B] in
/-- `Instruction::getNextNode`, of an instruction of the block. -/
def getNextNode (b : B) (i : V) : Option V :=
  ((fn.instructions b).dropWhile fun v => decide (v ≠ i)).tail.head?

/-- `Instruction::moveBefore`, in front of the whole block. -/
def moveToBegin (b : B) (i : V) : SchedulerFunction V B :=
  fn.setInstructions b (i :: (fn.instructions b).filter fun v => decide (v ≠ i))

/-- `Instruction::moveAfter`, for two instructions of the block. -/
def moveAfter (b : B) (i dest : V) : SchedulerFunction V B :=
  fn.setInstructions b (((fn.instructions b).filter fun v => decide (v ≠ i)).flatMap fun v =>
    if v = dest then [v, i] else [v])

end SchedulerFunction

namespace SCCPartitionScheduler

variable {V B : Type} [DecidableEq V] [DecidableEq B] (ord : IterOrder)
  (sps : SCCPartitionScheduler V)

/-! ## Maps -/

def sccToPartitionMap : AList fun _ : SccPtr => SetPtr :=
  (ord.visit sps.sccPartitions.elems).foldl (fun map partition =>
    (ord.visit (sps.sccs partition).elems).foldl (fun map scc => map.insert scc partition) map) ∅

/-- `basicBlockToPartitionsMap[B].insert(partition)`. -/
def insertPartition (partition : SetPtr) (map : AList fun _ : B => PtrSet SetPtr) (b : B) :
    AList fun _ : B => PtrSet SetPtr :=
  map.insert b (((map.lookup b).getD ∅).insert partition)

def basicBlockToPartitionsMap (fn : SchedulerFunction V B) : AList fun _ : B => PtrSet SetPtr :=
  (ord.visit sps.loopSCCDAG.allNodes.elems).foldl (fun map sccNode =>
    match (sps.sccToPartitionMap ord).lookup sccNode.theT with
    | none => map
    | some partition =>
        let values := (ord.visit (sps.loopSCCDAG.sccs sccNode.theT).internalNodeMap.entries).map
          Sigma.fst
        ((values.filter fn.ir.isInstruction).map fn.ir.getParent).foldl (insertPartition partition)
          map) ∅

/-- `SCCPartitionScheduler::getPartition`.  No partition has the null SCC. -/
def getPartition (i : V) : Option SetPtr :=
  (sps.loopSCCDAG.sccOfValue i).bind fun scc => (sps.sccToPartitionMap ord).lookup scc

/-! ## Dependences -/

/-- The loop over the incoming edges of a node, on `nodes` and `consumedInstructions`. -/
def consumeEdge (fn : SchedulerFunction V B) (i : V) (st : List (DGNode V) × PtrSet V)
    (edge : DGEdge V) : List (DGNode V) × PtrSet V :=
  let consumedValue := edge.getSrc
  if consumedValue = i then st
  else if !fn.ir.isInstruction consumedValue then st
  else if fn.ir.getParent consumedValue ≠ fn.ir.getParent i then st
  else if consumedValue ∈ st.2 then st
  else (st.1 ++ [edge.srcNode], st.2.insert consumedValue)

/-- The body of the loop over the queue. -/
def consumeNode (fn : SchedulerFunction V B) (scc : SCC V) (i : V)
    (st : List (DGNode V) × PtrSet V) : Option (List (DGNode V) × PtrSet V) := do
  let node ← st.1.head?
  return (ord.visit (scc.incomingEdges node).elems).foldl (consumeEdge fn i) (st.1.tail, st.2)

/-- `SCCPartitionScheduler::collectDependedOnInstructionsWithinBlock`, of an instruction with an
SCC. -/
def collectDependedOnInstructionsWithinBlock (fuel : Nat) (fn : SchedulerFunction V B) (i : V) :
    Option (PtrSet V) := do
  let sccOfI ← sps.loopSCCDAG.sccOfValue i
  let scc := sps.loopSCCDAG.sccs sccOfI
  let nodeOfI ← scc.nodeOf i
  (loopM (fun st => !st.1.isEmpty) (consumeNode ord fn scc i) fuel ([nodeOfI], ∅)).map (·.2)

/-! ## Hoisting -/

/-- The walk up the block, from the instruction to the target or a consumed instruction; `none` is
the beginning of the block. -/
def instructionToHoistTo (instructions : List V) (consumedInstructions : PtrSet V)
    (instructionToMove target : V) : Option V :=
  (instructionToMove ::
    (instructions.takeWhile fun v => decide (v ≠ instructionToMove)).reverse).find? fun v =>
      decide (target = v) || decide (v ∈ consumedInstructions)

/-- `SCCPartitionScheduler::hoistInstructionTowards`.  It returns `instructionToMove`. -/
def hoistInstructionTowards (fuel : Nat) (fn : SchedulerFunction V B)
    (instructionToMove target : V) : Option (SchedulerFunction V B) := do
  if target = instructionToMove then return fn
  let consumedInstructions ←
    sps.collectDependedOnInstructionsWithinBlock ord fuel fn instructionToMove
  let block := fn.ir.getParent instructionToMove
  match instructionToHoistTo (fn.instructions block) consumedInstructions instructionToMove
    target with
  | none =>
      let firstInst ← (fn.instructions block).head?
      if firstInst ≠ instructionToMove then return fn.moveToBegin block instructionToMove
      return fn
  | some dest => return fn.moveAfter block instructionToMove dest

/-! ## Squeezing -/

/-- `squeezePartitions` on one block, inside the loop over its partitions: the function, the
target and whether something moved. -/
structure Squeezing (V B : Type) where
  fn : SchedulerFunction V B
  targetInstruction : V
  modified : Bool

/-- The body of the loop over the block, on `partitionInstructions` and
`dependedOnInstructions`. -/
def collectPartitionInstruction (fuel : Nat) (fn : SchedulerFunction V B)
    (partitionToSqueeze : SetPtr) (st : PtrSet V × PtrSet V) (i : V) :
    Option (PtrSet V × PtrSet V) := do
  if fn.ir.isPHINode i || fn.ir.isTerminator i then return st
  if sps.getPartition ord i ≠ some partitionToSqueeze then return st
  let dependedOn ← sps.collectDependedOnInstructionsWithinBlock ord fuel fn i
  let hoistable := (ord.visit dependedOn.elems).filter fun d =>
    !(fn.ir.isPHINode d || fn.ir.isTerminator d)
  return (st.1.insert i, st.2.insertAll hoistable)

/-- The loop that orders what is hoisted, up to the last instruction of the partition. -/
def orderedInstructionsToHoist : List V → PtrSet V → PtrSet V → List V
  | [], _, _ => []
  | i :: instructions, partitionInstructions, dependedOnInstructions =>
      if i ∈ partitionInstructions then
        i :: if (partitionInstructions.erase i).size = 0 then []
          else orderedInstructionsToHoist instructions (partitionInstructions.erase i)
            dependedOnInstructions
      else if i ∈ dependedOnInstructions then
        i :: if partitionInstructions.size = 0 then []
          else orderedInstructionsToHoist instructions partitionInstructions dependedOnInstructions
      else orderedInstructionsToHoist instructions partitionInstructions dependedOnInstructions

/-- The body of the loop over what is hoisted. -/
def hoistNext (fuel : Nat) (b : B) (st : Squeezing V B) (i : V) : Option (Squeezing V B) := do
  let initialNextNode := st.fn.getNextNode b i
  let fn ← sps.hoistInstructionTowards ord fuel st.fn i st.targetInstruction
  let finalNextNode := fn.getNextNode b i
  return { fn, targetInstruction := i
           modified := st.modified || decide (initialNextNode ≠ finalNextNode) }

/-- The body of the loop over the partitions of a block. -/
def squeezePartition (fuel : Nat) (b : B) (st : SchedulerFunction V B × Bool)
    (partitionToSqueeze : SetPtr) : Option (SchedulerFunction V B × Bool) := do
  let (fn, modified) := st
  let (partitionInstructions, dependedOnInstructions) ← (fn.instructions b).foldlM
    (sps.collectPartitionInstruction ord fuel fn partitionToSqueeze) (∅, ∅)
  if partitionInstructions.size < 1 then return st
  let ordered := orderedInstructionsToHoist (fn.instructions b) partitionInstructions
    dependedOnInstructions
  let targetInstruction ← ordered.head?
  let st ← ordered.foldlM (sps.hoistNext ord fuel b) { fn, targetInstruction, modified }
  return (st.fn, st.modified)

/-- `SCCPartitionScheduler::squeezePartitions`, on the function. -/
def squeezePartitions (fuel : Nat) (fn : SchedulerFunction V B) :
    Option (SchedulerFunction V B × Bool) :=
  (ord.visit (sps.basicBlockToPartitionsMap ord fn).entries).foldlM (fun st entry =>
    (ord.visit entry.2.elems).foldlM (sps.squeezePartition ord fuel entry.1) st) (fn, false)

end SCCPartitionScheduler

end Noelle
