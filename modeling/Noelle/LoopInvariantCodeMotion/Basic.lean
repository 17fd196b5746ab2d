import Noelle.Lib.SSA
import Noelle.LoopForest.LoopTree
import Noelle.PDG.Queries
import Noelle.PDGGenerator.Memory

/-!
# LoopInvariantCodeMotion.Basic

`LoopInvariantCodeMotion::hoistInvariantValues`.

Instructions are values, and a block holds its PHIs and the instructions up to its terminator.
Terminators that define a value or access memory (`invoke`, `callbr`) are left out; of the others
an invariant manager reports none.  What a loop over a container of pointers meets first is open.
The answers of LLVM's dominator tree are parameters.
-/

namespace Noelle

/-- A function, with what is asked of its instructions. -/
structure InvariantFunction (V B : Type) where
  code : SSACode V B
  inst : V → MemoryInst
  /-- The pointer operand of a `LoadInst`, if it is a `GlobalValue`. -/
  loadedGlobal : V → Option V

/-- The queries of `DominatorSummary::DT`. -/
structure DominatorQueries (V B : Type) where
  dominatesBlock : B → B → Bool
  /-- Of two instructions. -/
  dominates : V → V → Bool

namespace SSACode

variable {V B : Type} [DecidableEq V] [DecidableEq B] (f : SSACode V B)

/-- `User::replaceUsesOfWith` for all users of `x`. -/
def replaceUses (x v : V) : SSACode V B :=
  let replace := fun w => if w = x then v else w
  { f with
    operands := fun i => (f.operands i).map replace
    incoming := fun i => (f.incoming i).map fun e => (e.1, replace e.2)
    terminatorOperands := fun b => (f.terminatorOperands b).map replace }

/-- `PHINode::eraseFromParent`. -/
def erasePHI (x : V) : SSACode V B :=
  { f with phis := fun b => (f.phis b).filter fun y => decide (y ≠ x) }

/-- `Instruction::removeFromParent`, and `IRBuilder::Insert` in front of the terminator of `b`. -/
def moveToEnd (b : B) (x : V) : SSACode V B :=
  { f with
    phis := fun c => (f.phis c).filter fun y => decide (y ≠ x)
    body := fun c => (f.body c).filter (fun y => decide (y ≠ x)) ++ if c = b then [x] else [] }

end SSACode

namespace LoopInvariantCodeMotion

variable {F V B : Type} [DecidableEq V] [DecidableEq B]

/-- `LoopStructure::isIncluded` of an instruction. -/
def isIncluded (fn : InvariantFunction V B) (l : LoopStructure F B) (i : V) : Bool :=
  l.bbs.elems.any fun b => decide (i ∈ fn.code.phis b) || decide (i ∈ fn.code.body b)

/-- The check for unwanted side effects. -/
def mayWriteToMemory : MemoryInst → Bool
  | .store => true
  | .call none _ => true
  | .call (some callee) _ =>
      if !callee.empty then true else !PDGGenerator.isTheLibraryFunctionPure callee
  | _ => false

def dataDependences : PDG.Filter := ⟨false, true, true⟩

def getSourceDependenceInstructionsFrom (ord : IterOrder) (fn : InvariantFunction V B)
    (l : LoopStructure F B) (ldg : PDG V) (i : V) : List V :=
  (PDG.iterateOverDependencesTo ord ldg i dataDependences
    (fun s fromValue _ => (false, if isIncluded fn l fromValue then s ++ [fromValue] else s))
    []).1.2

/-- The local variables of `hoistInvariantValues`, with the function as modified so far. -/
structure Hoisting (V B : Type) where
  code : SSACode V B
  instructionsToHoistToPreheader : List V := []
  conditionalHoisting : AList fun _ : V => PtrSet V := ∅
  phisToRemove : PtrSet V := ∅
  modified : Bool := false

/-! ## Identifying the instructions -/

section Identify

variable (ord : IterOrder) (fn : InvariantFunction V B) (l : LoopStructure F B)
  (isLoopInvariant : V → Bool) (ldg : PDG V) (DS : DominatorQueries V B)

/-- The loop over the dependences of an instruction: the invariants of the loop that it depends
on, unless it depends on something of the loop that is not invariant. -/
def checkDependences : List V → PtrSet V → Option (PtrSet V)
  | [], dependentInvariantsInLoop => some dependentInvariantsInLoop
  | depI :: deps, dependentInvariantsInLoop =>
      if !isIncluded fn l depI then checkDependences deps dependentInvariantsInLoop
      else if !isLoopInvariant depI then none
      else checkDependences deps (dependentInvariantsInLoop.insert depI)

/-- Tag an instruction to be hoisted, or to be hoisted if the invariants are. -/
def tag (st : Hoisting V B) (i : V) (dependentInvariantsInLoop : PtrSet V) : Hoisting V B :=
  if i ∈ st.instructionsToHoistToPreheader then st
  else if dependentInvariantsInLoop.size = 0 then
    { st with instructionsToHoistToPreheader := st.instructionsToHoistToPreheader ++ [i] }
  else
    { st with
      conditionalHoisting := st.conditionalHoisting.insert i dependentInvariantsInLoop }

/-- The first incoming value of the PHI from a block that dominates `b`. -/
def valueToReplacePHI (code : SSACode V B) (b : B) (phi : V) : Option V :=
  ((code.incoming phi).find? fun e => DS.dominatesBlock e.1 b).map (·.2)

/-- What is done with a PHI that passed the checks.  Its removal marks the function as modified,
whether it had users or not. -/
def replacePHI (st : Hoisting V B) (b : B) (phi : V) (dependentInvariantsInLoop : PtrSet V) :
    Hoisting V B :=
  match valueToReplacePHI DS st.code b phi with
  | none => st
  | some value =>
      let st := { st with
        code := st.code.replaceUses phi value
        phisToRemove := st.phisToRemove.insert phi }
      if isIncluded fn l value then tag st value dependentInvariantsInLoop else st

/-- The checks of an instruction: the invariants of the loop that it depends on, if it passes. -/
def checkInstruction (i : V) : Option (PtrSet V) :=
  if !isLoopInvariant i then none
  else if mayWriteToMemory (fn.inst i) then none
  else checkDependences fn l isLoopInvariant
    (getSourceDependenceInstructionsFrom ord fn l ldg i) ∅

/-- The body of the loop over the PHIs of `b`. -/
def visitPHI (b : B) (st : Hoisting V B) (phi : V) : Hoisting V B :=
  match checkInstruction ord fn l isLoopInvariant ldg phi with
  | none => st
  | some dependentInvariantsInLoop => replacePHI fn l DS st b phi dependentInvariantsInLoop

/-- The body of the loop over the instructions of a block that are no PHIs. -/
def visitInstruction (st : Hoisting V B) (i : V) : Hoisting V B :=
  match checkInstruction ord fn l isLoopInvariant ldg i with
  | none => st
  | some dependentInvariantsInLoop => tag st i dependentInvariantsInLoop

/-- The body of the loop over the blocks. -/
def visitBlock (st : Hoisting V B) (b : B) : Hoisting V B :=
  (fn.code.body b).foldl (visitInstruction ord fn l isLoopInvariant ldg)
    ((fn.code.phis b).foldl (visitPHI ord fn l isLoopInvariant ldg DS b) st)

def identify : Hoisting V B :=
  (ord.visit l.bbs.elems).foldl (visitBlock ord fn l isLoopInvariant ldg DS) { code := fn.code }

end Identify

/-! ## The invariants that can only conditionally be hoisted -/

/-- Remove an invariant that cannot be hoisted, and the ones that are conditioned to it. -/
def removeInvariant (st : Hoisting V B) (instToHoist : V) : Hoisting V B :=
  let conditionalHoisting := st.conditionalHoisting.erase instToHoist
  let toDelete := (conditionalHoisting.entries.filter fun p2 => decide (instToHoist ∈ p2.2)).map (·.1)
  { st with
    instructionsToHoistToPreheader :=
      toDelete.foldl (fun l inst => l.erase inst) st.instructionsToHoistToPreheader
    conditionalHoisting := toDelete.foldl (fun m inst => m.erase inst) conditionalHoisting }

/-- The loop over the map as it was when the loop started, with `conditionsAreModified`. -/
def checkInvariants : List (Sigma fun _ : V => PtrSet V) → Hoisting V B → Hoisting V B × Bool
  | [], st => (st, false)
  | p :: ps, st =>
      if p.1 ∈ st.instructionsToHoistToPreheader then checkInvariants ps st
      else if p.2.elems.all fun cond => decide (cond ∈ st.instructionsToHoistToPreheader) ||
          decide (cond ∈ st.conditionalHoisting) then
        checkInvariants ps { st with
          instructionsToHoistToPreheader := st.instructionsToHoistToPreheader ++ [p.1]
          modified := true }
      else (removeInvariant st p.1, true)

/-- The loop that runs until no condition is modified. -/
def checkConditions (ord : IterOrder) (fuel : Nat) (st : Hoisting V B) : Option (Hoisting V B) :=
  (loopM (fun s => s.2)
    (fun s => some (checkInvariants (ord.visit s.1.conditionalHoisting.entries) s.1)) fuel
    (st, true)).map (·.1)

/-! ## Sorting and moving -/

/-- The body of the nested loops over positions. -/
def swapIfDominates (DS : DominatorQueries V B) (s : List V × Bool) (ij : Nat × Nat) :
    List V × Bool :=
  match s.1[ij.1]?, s.1[ij.2]? with
  | some I, some J =>
      if DS.dominates J I then ((s.1.set ij.1 J).set ij.2 I, false) else s
  | _, _ => s

/-- The positions that the nested loops compare. -/
def positions (n : Nat) : List (Nat × Nat) :=
  (List.range (n - 1)).flatMap fun i => (List.range' (i + 1) (n - (i + 1))).map fun j => (i, j)

/-- The sort in order of dominance. -/
def sortByDominance (DS : DominatorQueries V B) (fuel : Nat) (l : List V) : Option (List V) :=
  (loopM (fun s => !s.2)
    (fun s => some ((positions s.1.length).foldl (swapIfDominates DS) (s.1, true))) fuel
    (l, false)).map (·.1)

/-- The loop that moves the instructions to the preheader.  A PHI that has been erased cannot be
moved: there is no result, as the pointer to it dangles. -/
def moveToPreHeader (preHeader : B) (phisToRemove : PtrSet V) :
    List V → SSACode V B → Option (SSACode V B)
  | [], code => some code
  | i :: is, code =>
      if i ∈ phisToRemove then none
      else moveToPreHeader preHeader phisToRemove is (code.moveToEnd preHeader i)

/-- `LoopInvariantCodeMotion::hoistInvariantValues`: the function that it leaves, what it hoisted
and whether it modified anything. -/
def hoistInvariantValues (ord : IterOrder) (fn : InvariantFunction V B) (l : LoopStructure F B)
    (preHeader : B) (isLoopInvariant : V → Bool) (ldg : PDG V)
    (getDominators : SSACode V B → DominatorQueries V B) (fuel : Nat) :
    Option (SSACode V B × List V × Bool) := do
  let st ← checkConditions ord fuel
    (identify ord fn l isLoopInvariant ldg (getDominators fn.code))
  let code := (ord.visit st.phisToRemove.elems).foldl SSACode.erasePHI st.code
  let hoisted ← sortByDominance (getDominators code) fuel st.instructionsToHoistToPreheader
  let code ← moveToPreHeader preHeader st.phisToRemove hoisted code
  return (code, hoisted, st.modified || !st.phisToRemove.elems.isEmpty || !hoisted.isEmpty)

end LoopInvariantCodeMotion

end Noelle
