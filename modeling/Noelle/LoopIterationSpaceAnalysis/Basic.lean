import Noelle.Lib.Collections

/-!
# LoopIterationSpaceAnalysis.Basic

What `LoopIterationSpaceAnalysis` reads of an `InductionVariable`.
-/

namespace Noelle

/-- `InductionVariable`: the PHI node at the loop entry, the PHI nodes and intermediate values of its
component with all their casts, and the other instructions of the loop that rely on it only. -/
structure InductionVariable (V : Type) where
  getLoopEntryPHI : V
  getAllInstructions : PtrSet V
  getDerivedSCEVInstructions : PtrSet V
  loopEntryPHI_mem : getLoopEntryPHI ∈ getAllInstructions
  deriving DecidableEq

namespace InductionVariable

variable {V : Type} [DecidableEq V] (iv : InductionVariable V)

def isIVInstruction (inst : V) : Bool := decide (inst ∈ iv.getAllInstructions)

end InductionVariable

end Noelle
