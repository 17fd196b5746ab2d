import Noelle.Lib.Collections

/-!
# Privatizer.Basic

What the privatizer knows of one function: `FunctionSummary`.

The stack of a function is guarded by a counter of 64 bits: an allocation is accepted if the usage
with it, modulo `2 ^ 64`, is below the threshold.
-/

namespace Noelle

/-- What the privatizer asks of an instruction.  A size that is not a constant is `none`. -/
inductive PrivatizerInst (V : Type)
  | storeInst (valueOperand pointerOperand : V)
  | allocaInst (allocationSize : BitVec 64)
  | malloc (size : Option (BitVec 64))
  | calloc (elementCount elementSize : Option (BitVec 64))
  | free (argOperand : V)
  | memCpyInst (dest : V)
  | callBase
  | other

namespace PrivatizerInst

variable {V : Type}

/-- `isa<CallBase>`. -/
def isCallBase : PrivatizerInst V → Bool
  | storeInst _ _ | allocaInst _ | other => false
  | malloc _ | calloc _ _ | free _ | memCpyInst _ | callBase => true

def isFixedSizedHeapAllocation : PrivatizerInst V → Bool
  | malloc (some _) | calloc (some _) (some _) => true
  | _ => false

/-- `getAllocationSize`; `none` is the failed assertion. -/
def getAllocationSize : PrivatizerInst V → Option (BitVec 64)
  | allocaInst allocationSize => some allocationSize
  | malloc (some size) => some size
  | calloc (some elementCount) (some elementSize) => some (elementCount * elementSize)
  | _ => none

theorem exists_getAllocationSize {inst : PrivatizerInst V}
    (h : inst.isFixedSizedHeapAllocation = true) : ∃ size, inst.getAllocationSize = some size := by
  unfold isFixedSizedHeapAllocation at h
  split at h
  · exact ⟨_, rfl⟩
  · exact ⟨_, rfl⟩
  · exact absurd h Bool.false_ne_true

end PrivatizerInst

/-- A function as the privatizer sees it, with the answers of the analyses. -/
structure PrivatizerFunction (V : Type) where
  instructions : PtrSet V
  /-- A value that is not an instruction is `other`. -/
  inst : V → PrivatizerInst V
  isIncludedInACycle : V → Bool
  mayEscape : V → Bool
  /-- The objects that a pointer may point to; the unknown object is `none`. -/
  getPointees : V → PtrSet (Option V)

namespace PrivatizerFunction

variable {V : Type} [DecidableEq V] (f : PrivatizerFunction V)

/-! ## The summary -/

def mallocInsts : PtrSet V :=
  f.instructions.filter fun v => match f.inst v with | .malloc _ => true | _ => false

def callocInsts : PtrSet V :=
  f.instructions.filter fun v => match f.inst v with | .calloc _ _ => true | _ => false

def freeInsts : PtrSet V :=
  f.instructions.filter fun v => match f.inst v with | .free _ => true | _ => false

def isDestOfMemcpy (ptr : V) : Bool :=
  f.instructions.elems.any fun v =>
    match f.inst v with
    | .memCpyInst dest => decide (dest = ptr)
    | _ => false

/-- `stackMemoryUsage` of a new summary. -/
def stackMemoryUsage : BitVec 64 :=
  f.instructions.elems.foldl (fun usage v =>
    match f.inst v with
    | .allocaInst allocationSize => usage + allocationSize
    | _ => usage) 0

end PrivatizerFunction

def STACK_SIZE_THRESHOLD : BitVec 64 := 8 * 1024 * 1024

/-- `stackCanHoldNewAlloca`: the answer, and the usage after it. -/
def stackCanHoldNewAlloca (stackMemoryUsage allocationSize : BitVec 64) : Bool × BitVec 64 :=
  if (stackMemoryUsage + allocationSize).ult STACK_SIZE_THRESHOLD then
    (true, stackMemoryUsage + allocationSize)
  else (false, stackMemoryUsage)

end Noelle
