import Noelle.CFG
import Noelle.Lib.Loop

/-!
# DataFlow.Basic

The data-flow engine.

`applyForward` and `applyBackward` customise one worklist algorithm, which takes
the direction as functions: the backward analysis runs the forward algorithm on
the reversed graph with `IN` and `OUT` swapped.  A callback that takes a set by
reference returns its new contents.  Beside the result the model records the
instructions that callbacks were invoked on.
-/

namespace Noelle

open Function

/-- `DataFlowResult`.  A subscript makes the set of a missing key, which is empty. -/
structure DataFlowResult (B V : Type) where
  gens : Instruction B → PtrSet V
  kills : Instruction B → PtrSet V
  ins : Instruction B → PtrSet V
  outs : Instruction B → PtrSet V

/-- A function that returns a reference to a set of an instruction. -/
structure SetOfInst (B V : Type) where
  get : DataFlowResult B V → Instruction B → PtrSet V
  put : DataFlowResult B V → Instruction B → PtrSet V → DataFlowResult B V

/-- What `applyForward` and `applyBackward` customise. -/
structure Customization (B V : Type) where
  getPredecessors : B → List B
  getSuccessors : B → List B
  appendBB : List B → B → List B
  getFirstInstruction : B → Instruction B
  getLastInstruction : B → Instruction B
  getInSetOfInst : SetOfInst B V
  getOutSetOfInst : SetOfInst B V
  getEndIterator : B → Instruction B
  incrementIterator : Instruction B → Option (Instruction B)

structure Callbacks (B V : Type) where
  computeGEN : Instruction B → DataFlowResult B V → DataFlowResult B V
  computeKILL : Instruction B → DataFlowResult B V → DataFlowResult B V
  initializeIN : Instruction B → PtrSet V → PtrSet V
  initializeOUT : Instruction B → PtrSet V → PtrSet V
  computeIN : Instruction B → Instruction B → PtrSet V → DataFlowResult B V → PtrSet V
  computeOUT : Instruction B → PtrSet V → DataFlowResult B V → PtrSet V

/-- The result so far, and the instructions that callbacks were invoked on. -/
structure Analysis (B V : Type) where
  df : DataFlowResult B V
  invoked : List (Instruction B)

/-- The local variables of the main loop. -/
structure WorkState (B V : Type) where
  workingList : List B
  computedOnce : PtrSet B
  analysis : Analysis B V

namespace DataFlowEngine

variable {B V : Type} [DecidableEq B]

/-- `df->IN(inst)`. -/
def inOf : SetOfInst B V where
  get df inst := df.ins inst
  put df inst s := { df with ins := update df.ins inst s }

/-- `df->OUT(inst)`. -/
def outOf : SetOfInst B V where
  get df inst := df.outs inst
  put df inst s := { df with outs := update df.outs inst s }

/-! ## The worklist algorithm -/

section Generalized

variable (f : CFG B) (c : Customization B V) (cb : Callbacks B V)

/-- Initialize the `IN` and `OUT` sets. -/
def initializeSets : Analysis B V :=
  f.instructions.foldl (fun a i =>
    let df := { a.df with ins := update a.df.ins i (cb.initializeIN i (a.df.ins i)) }
    let df := { df with outs := update df.outs i (cb.initializeOUT i (df.outs i)) }
    { df := df, invoked := i :: a.invoked })
    { df := ⟨fun _ => ∅, fun _ => ∅, fun _ => ∅, fun _ => ∅⟩, invoked := [] }

def computeGENAndKILL (a : Analysis B V) : Analysis B V :=
  f.instructions.foldl (fun a i =>
    { df := cb.computeKILL i (cb.computeGEN i a.df), invoked := i :: a.invoked }) a

/-- `computeIN(inst, pred, inSetOfInst, df)`. -/
def invokeIN (inst pred : Instruction B) (a : Analysis B V) : Analysis B V where
  df := c.getInSetOfInst.put a.df inst
    (cb.computeIN inst pred (c.getInSetOfInst.get a.df inst) a.df)
  invoked := inst :: pred :: a.invoked

/-- `computeOUT(inst, outSetOfInst, df)`. -/
def invokeOUT (inst : Instruction B) (a : Analysis B V) : Analysis B V where
  df := c.getOutSetOfInst.put a.df inst
    (cb.computeOUT inst (c.getOutSetOfInst.get a.df inst) a.df)
  invoked := inst :: a.invoked

/-- The body of the loop over the rest of a block, on `iter`, `predI` and the analysis. -/
def propagateStep : Instruction B × Instruction B × Analysis B V →
    Option (Instruction B × Instruction B × Analysis B V)
  | (iter, predI, a) => do
      let i ← c.incrementIterator iter
      return (i, i, invokeOUT c cb i (invokeIN c cb i predI a))

/-- The body of the main loop. -/
def processBlock (fuel : Nat) (s : WorkState B V) : Option (WorkState B V) :=
  match s.workingList with
  | [] => none
  | bb :: workingList => do
      let inst := c.getFirstInstruction bb
      let a := (c.getPredecessors bb).foldl (fun a predecessorBB =>
        invokeIN c cb inst (c.getLastInstruction predecessorBB) a) s.analysis
      let oldSizeOut := (c.getOutSetOfInst.get a.df inst).size
      let a := invokeOUT c cb inst a
      if bb ∉ s.computedOnce ∨ (c.getOutSetOfInst.get a.df inst).size ≠ oldSizeOut then
        let (_, _, a) ← loopM (fun st => decide (st.1 ≠ c.getEndIterator bb)) (propagateStep c cb)
          fuel (inst, inst, a)
        return {
          workingList := workingList ++ c.getSuccessors bb
          computedOnce := s.computedOnce.insert bb
          analysis := a }
      else
        return { s with workingList := workingList, analysis := a }

/-- `DataFlowEngine::applyGeneralizedForwardAnalysis`, with at most `fuel` iterations
of each loop. -/
def applyGeneralizedForwardAnalysis (fuel : Nat) : Option (Analysis B V) := do
  let a := computeGENAndKILL f cb (initializeSets f cb)
  let s ← loopM (fun s => !s.workingList.isEmpty) (processBlock c cb fuel) fuel
    { workingList := f.blocks.foldl c.appendBB [], computedOnce := ∅, analysis := a }
  return s.analysis

end Generalized

/-! ## Directions -/

/-- The customization of `applyForward`. -/
def forwardCustomization (f : CFG B) : Customization B V where
  getPredecessors := f.predecessors
  getSuccessors := f.successors
  appendBB workingList bb := workingList ++ [bb]
  getFirstInstruction := CFG.begin
  getLastInstruction := f.getTerminator
  getInSetOfInst := inOf
  getOutSetOfInst := outOf
  getEndIterator := f.endOf
  -- the end of a block must not be incremented
  incrementIterator iter := if iter.index < f.size iter.parent then some ⟨iter.parent, iter.index + 1⟩ else none

/-- The customization of `applyBackward`. -/
def backwardCustomization (f : CFG B) : Customization B V where
  getPredecessors := f.successors
  getSuccessors := f.predecessors
  appendBB workingList bb := bb :: workingList
  getFirstInstruction := f.getTerminator
  getLastInstruction := CFG.begin
  getInSetOfInst := outOf
  getOutSetOfInst := inOf
  getEndIterator := CFG.begin
  -- nor the begin of a block decremented
  incrementIterator iter := if 0 < iter.index then some ⟨iter.parent, iter.index - 1⟩ else none

def applyForward (f : CFG B) (computeGEN computeKILL : Instruction B → DataFlowResult B V → DataFlowResult B V)
    (initializeIN initializeOUT : Instruction B → PtrSet V → PtrSet V)
    (computeIN : Instruction B → Instruction B → PtrSet V → DataFlowResult B V → PtrSet V)
    (computeOUT : Instruction B → PtrSet V → DataFlowResult B V → PtrSet V) (fuel : Nat) :
    Option (Analysis B V) :=
  applyGeneralizedForwardAnalysis f (forwardCustomization f)
    { computeGEN, computeKILL, initializeIN, initializeOUT, computeIN, computeOUT } fuel

/-- `DataFlowEngine::applyBackward`: its `computeOUT` plays the part of `computeIN`
and the other way round. -/
def applyBackward (f : CFG B) (computeGEN computeKILL : Instruction B → DataFlowResult B V → DataFlowResult B V)
    (computeIN : Instruction B → PtrSet V → DataFlowResult B V → PtrSet V)
    (computeOUT : Instruction B → Instruction B → PtrSet V → DataFlowResult B V → PtrSet V)
    (fuel : Nat) : Option (Analysis B V) :=
  applyGeneralizedForwardAnalysis f (backwardCustomization f)
    { computeGEN, computeKILL
      initializeIN := fun _ s => s
      initializeOUT := fun _ s => s
      computeIN := computeOUT
      computeOUT := computeIN } fuel

end DataFlowEngine

/-! ## Gen and kill analyses -/

namespace GenKillAnalysis

variable {B V : Type} [DecidableEq B] [DecidableEq V] (gen kill : Instruction B → PtrSet V)

/-- Put the generated values of an instruction into `GEN`. -/
def computeGEN (inst : Instruction B) (df : DataFlowResult B V) : DataFlowResult B V :=
  { df with gens := update df.gens inst ((df.gens inst).insertAll (gen inst).elems) }

/-- Put the killed values of an instruction into `KILL`. -/
def computeKILL (inst : Instruction B) (df : DataFlowResult B V) : DataFlowResult B V :=
  { df with kills := update df.kills inst ((df.kills inst).insertAll (kill inst).elems) }

/-- Add a set of a neighbour where `pass` allows it. -/
def addNeighbourIf (pass : Instruction B → Instruction B → Bool) (other : SetOfInst B V)
    (inst neighbour : Instruction B) (set : PtrSet V) (df : DataFlowResult B V) : PtrSet V :=
  if pass inst neighbour then set.insertAll (other.get df neighbour).elems else set

/-- Add a set of a neighbour: `OUT[pred]` to `IN[inst]`, or `IN[succ]` to `OUT[inst]`. -/
def addNeighbour (other : SetOfInst B V) (_inst neighbour : Instruction B) (set : PtrSet V)
    (df : DataFlowResult B V) : PtrSet V :=
  set.insertAll (other.get df neighbour).elems

/-- Add `GEN[inst]` and what `KILL[inst]` leaves of the other set of the instruction. -/
def addTransfer (other : SetOfInst B V) (inst : Instruction B) (set : PtrSet V)
    (df : DataFlowResult B V) : PtrSet V :=
  (set.insertAll (df.gens inst).elems).insertAll
    ((other.get df inst).filter fun v => decide (v ∉ df.kills inst)).elems

end GenKillAnalysis

end Noelle
