import Noelle.Lib.ICmp

/-!
# LoopGoverningIV.Utility

The exit condition of a loop governed by an integer induction variable, and its
rewriting: `LoopGoverningIVUtility`.

The compare instruction of the header has the induction variable and the exit value as
operands, in either order, and either successor of the branch can be the exit block.
The utility brings all this to one shape: the induction variable on the left, the exit
block as the true successor, and a predicate that catches iterating past the exit value.
-/

namespace Noelle

/-! ## The header -/

/-- `CmpInst` over the values `V`. -/
structure CmpInst (V : Type) where
  predicate : ICmpPredicate
  operand0 : V
  operand1 : V
  deriving DecidableEq

/-- A conditional `BranchInst` over the blocks `B`. -/
structure BranchInst (B : Type) where
  successor0 : B
  successor1 : B
  deriving DecidableEq

/-- What the utility reads of a well-formed `LoopGoverningInductionVariable`: the compare
and the branch of the header, the value of the induction variable that is compared, and
the constant step. -/
structure LoopGoverningInductionVariable (V B : Type) (w : Nat) where
  headerCmp : CmpInst V
  headerBr : BranchInst B
  exitBlock : B
  valueToCompare : V
  stepValue : BitVec w
  /-- One operand is compared against the other one. -/
  operands_ne : headerCmp.operand0 ≠ headerCmp.operand1
  valueToCompare_mem : valueToCompare = headerCmp.operand0 ∨ valueToCompare = headerCmp.operand1
  /-- One successor leaves the loop. -/
  successors_ne : headerBr.successor0 ≠ headerBr.successor1
  exitBlock_mem : exitBlock = headerBr.successor0 ∨ exitBlock = headerBr.successor1

structure LoopGoverningIVUtility where
  flipOperandsToUseNonStrictPredicate : Bool
  flipBrSuccessorsToUseNonStrictPredicate : Bool
  nonStrictPredicate : ICmpPredicate
  strictPredicate : ICmpPredicate
  deriving DecidableEq

namespace LoopGoverningInductionVariable

variable {V B : Type} [DecidableEq V] [DecidableEq B] {w : Nat}
  (attribution : LoopGoverningInductionVariable V B w)

/-- `InductionVariable::isStepValuePositive`. -/
def isStepValuePositive : Bool := decide (0 < attribution.stepValue.toInt)

def doesOriginalCmpInstHaveIVAsLeftOperand : Bool :=
  decide (attribution.headerCmp.operand0 = attribution.valueToCompare)

def conditionExitsOnTrue : Bool :=
  decide (attribution.headerBr.successor0 = attribution.exitBlock)

/-- The predicate that leaves the loop when it is true of the induction variable and the
exit value. -/
def exitPredicate : ICmpPredicate :=
  let exitPredicate := if attribution.conditionExitsOnTrue then attribution.headerCmp.predicate
    else attribution.headerCmp.predicate.inverse
  if attribution.doesOriginalCmpInstHaveIVAsLeftOperand then exitPredicate
  else exitPredicate.swapped

end LoopGoverningInductionVariable

namespace LoopGoverningIVUtility

variable {V B : Type} [DecidableEq V] [DecidableEq B] {w : Nat}

/-! ## Construction -/

/-- The switch of the constructor over the integer predicates: the non-strict and the
strict predicate. -/
def predicatesFor (exitPredicate : ICmpPredicate) (isStepValuePositive : Bool) :
    Option (ICmpPredicate × ICmpPredicate) :=
  match exitPredicate with
  | .ne => some (.ne, .ne)
  | .eq => if isStepValuePositive then some (.sge, .sgt) else some (.sle, .slt)
  | .ult => if isStepValuePositive then none else some (.slt, .slt)
  | .ule => if isStepValuePositive then none else some (.sle, .sle)
  | .sle => if isStepValuePositive then none else some (.sle, .sle)
  | .slt => if isStepValuePositive then none else some (.slt, .slt)
  | .ugt => if isStepValuePositive then some (.ugt, .ugt) else none
  | .uge => if isStepValuePositive then some (.uge, .uge) else none
  | .sgt => if isStepValuePositive then some (.sgt, .sgt) else none
  | .sge => if isStepValuePositive then some (.sge, .sge) else none

/-- The constructor. -/
def new (attribution : LoopGoverningInductionVariable V B w) : Option LoopGoverningIVUtility :=
  (predicatesFor attribution.exitPredicate attribution.isStepValuePositive).map
    fun (nonStrictPredicate, strictPredicate) =>
      { flipOperandsToUseNonStrictPredicate := !attribution.doesOriginalCmpInstHaveIVAsLeftOperand
        flipBrSuccessorsToUseNonStrictPredicate := !attribution.conditionExitsOnTrue
        nonStrictPredicate := nonStrictPredicate
        strictPredicate := strictPredicate }

/-! ## Rewriting -/

def updateConditionAndBranchToCatchIteratingPastExitValue (u : LoopGoverningIVUtility)
    (cmpToUpdate : CmpInst V) (branchInst : BranchInst B) (exitBlock : B) :
    Option (CmpInst V × BranchInst B) :=
  let cmp : CmpInst V := if u.flipOperandsToUseNonStrictPredicate
    then { cmpToUpdate with operand0 := cmpToUpdate.operand1, operand1 := cmpToUpdate.operand0 }
    else cmpToUpdate
  let cmp : CmpInst V := { cmp with predicate := u.nonStrictPredicate }
  let br : BranchInst B := if u.flipBrSuccessorsToUseNonStrictPredicate
    then ⟨branchInst.successor1, branchInst.successor0⟩
    else branchInst
  if br.successor0 = exitBlock then some (cmp, br) else none

end LoopGoverningIVUtility

/-! ## Runs of the loop -/

section Runs

variable {V B : Type} [DecidableEq V] [DecidableEq B] {w : Nat}

/-- The header leaves the loop. -/
def leaves (cmp : CmpInst V) (br : BranchInst B) (exitBlock : B) (env : V → BitVec w) : Bool :=
  let successor := if cmp.predicate.holds (env cmp.operand0) (env cmp.operand1) then br.successor0
    else br.successor1
  decide (successor = exitBlock)

variable (attribution : LoopGoverningInductionVariable V B w) (start bound : BitVec w)

/-- The induction variable in the iteration `k`. -/
def ivAt (k : Nat) : BitVec w := start + BitVec.ofNat w k * attribution.stepValue

/-- The values of the operands in the iteration `k`. -/
def valuesAt (k : Nat) (v : V) : BitVec w :=
  if v = attribution.valueToCompare then ivAt attribution start k else bound

/-- The condition of the loop. -/
def originalExit (k : Nat) : Bool :=
  leaves attribution.headerCmp attribution.headerBr attribution.exitBlock
    (valuesAt attribution start bound k)

def rewrittenExit (rewritten : CmpInst V × BranchInst B) (k : Nat) : Bool :=
  leaves rewritten.1 rewritten.2 attribution.exitBlock (valuesAt attribution start bound k)

/-- The induction variable takes the bound in the iteration `k` or is past it, in the
signed order and the direction of the step. -/
def reachedOrPassed (k : Nat) : Bool :=
  if attribution.isStepValuePositive then bound.sle (ivAt attribution start k)
  else (ivAt attribution start k).sle bound

/-! ## The rewritten condition -/

variable {attribution} {u : LoopGoverningIVUtility}

omit [DecidableEq B] in
@[simp] theorem valuesAt_valueToCompare (k : Nat) :
    valuesAt attribution start bound k attribution.valueToCompare = ivAt attribution start k := by
  simp [valuesAt]

omit [DecidableEq B] in
theorem valuesAt_of_ne (k : Nat) {v : V} (hv : v ≠ attribution.valueToCompare) :
    valuesAt attribution start bound k v = bound := by
  simp [valuesAt, hv]

variable (attribution) in
omit [DecidableEq B] in
theorem holds_valuesAt (p : ICmpPredicate) (k : Nat) :
    p.holds (valuesAt attribution start bound k attribution.headerCmp.operand0)
        (valuesAt attribution start bound k attribution.headerCmp.operand1) =
      (if attribution.doesOriginalCmpInstHaveIVAsLeftOperand then p else p.swapped).holds
        (ivAt attribution start k) bound := by
  have hne := attribution.operands_ne
  unfold LoopGoverningInductionVariable.doesOriginalCmpInstHaveIVAsLeftOperand
  rcases attribution.valueToCompare_mem with heq | heq
  · have hne' : attribution.headerCmp.operand1 ≠ attribution.valueToCompare := heq ▸ hne.symm
    rw [decide_eq_true heq.symm, if_pos rfl, valuesAt_of_ne start bound k hne', ← heq,
      valuesAt_valueToCompare]
  · have hne' : attribution.headerCmp.operand0 ≠ attribution.valueToCompare := heq ▸ hne
    rw [decide_eq_false hne', if_neg Bool.false_ne_true, valuesAt_of_ne start bound k hne', ← heq,
      valuesAt_valueToCompare, ICmpPredicate.holds_swapped]

variable {cmp : CmpInst V} {br : BranchInst B} {exitBlock : B} {env : V → BitVec w}

omit [DecidableEq V] in
theorem leaves_of_successor0 (h0 : br.successor0 = exitBlock) (h1 : br.successor1 ≠ exitBlock) :
    leaves cmp br exitBlock env = cmp.predicate.holds (env cmp.operand0) (env cmp.operand1) := by
  unfold leaves
  cases cmp.predicate.holds (env cmp.operand0) (env cmp.operand1) <;> simp [h0, h1]

omit [DecidableEq V] in
theorem leaves_of_successor1 (h0 : br.successor0 ≠ exitBlock) (h1 : br.successor1 = exitBlock) :
    leaves cmp br exitBlock env = !cmp.predicate.holds (env cmp.operand0) (env cmp.operand1) := by
  unfold leaves
  cases cmp.predicate.holds (env cmp.operand0) (env cmp.operand1) <;> simp [h0, h1]

theorem originalExit_eq (k : Nat) : originalExit attribution start bound k =
    attribution.exitPredicate.holds (ivAt attribution start k) bound := by
  have hne := attribution.successors_ne
  unfold originalExit LoopGoverningInductionVariable.exitPredicate
    LoopGoverningInductionVariable.conditionExitsOnTrue
  rcases attribution.exitBlock_mem with heq | heq
  · have h1 : attribution.headerBr.successor1 ≠ attribution.exitBlock := heq ▸ hne.symm
    rw [leaves_of_successor0 heq.symm h1, holds_valuesAt, decide_eq_true heq.symm, if_pos rfl]
  · have h0 : attribution.headerBr.successor0 ≠ attribution.exitBlock := heq ▸ hne
    rw [leaves_of_successor1 h0 heq.symm, holds_valuesAt, decide_eq_false h0,
      if_neg Bool.false_ne_true]
    cases attribution.doesOriginalCmpInstHaveIVAsLeftOperand <;>
      simp [ICmpPredicate.holds_inverse, ICmpPredicate.holds_swapped]

/-- The rewritten branch exits when the new comparison says so. -/
theorem rewrittenExit_eq (hu : LoopGoverningIVUtility.new attribution = some u) :
    ∃ rewritten, u.updateConditionAndBranchToCatchIteratingPastExitValue attribution.headerCmp
        attribution.headerBr attribution.exitBlock = some rewritten ∧
      ∀ k, rewrittenExit attribution start bound rewritten k =
        u.nonStrictPredicate.holds (ivAt attribution start k) bound := by
  obtain ⟨⟨nonStrict, strict⟩, -, rfl⟩ := Option.map_eq_some_iff.mp hu
  have hne := attribution.successors_ne
  -- the operands, with the induction variable on the left
  let operands : CmpInst V := if !attribution.doesOriginalCmpInstHaveIVAsLeftOperand
    then { attribution.headerCmp with
      operand0 := attribution.headerCmp.operand1, operand1 := attribution.headerCmp.operand0 }
    else attribution.headerCmp
  have hvalues : ∀ k, nonStrict.holds (valuesAt attribution start bound k operands.operand0)
      (valuesAt attribution start bound k operands.operand1) =
      nonStrict.holds (ivAt attribution start k) bound := by
    intro k
    unfold operands
    cases hleft : attribution.doesOriginalCmpInstHaveIVAsLeftOperand with
    | true =>
        have hholds := holds_valuesAt attribution start bound nonStrict k
        rw [hleft] at hholds
        exact hholds
    | false =>
        have hholds := holds_valuesAt attribution start bound nonStrict.swapped k
        rw [hleft] at hholds
        simpa [ICmpPredicate.holds_swapped] using hholds
  -- the successors, with the exit block as the true one
  have hbr : ∀ br : BranchInst B, br = (if !attribution.conditionExitsOnTrue
        then ⟨attribution.headerBr.successor1, attribution.headerBr.successor0⟩
        else attribution.headerBr) →
      br.successor0 = attribution.exitBlock ∧ br.successor1 ≠ attribution.exitBlock := by
    rintro br rfl
    unfold LoopGoverningInductionVariable.conditionExitsOnTrue
    rcases attribution.exitBlock_mem with heq | heq
    · have h1 : attribution.headerBr.successor1 ≠ attribution.exitBlock := heq ▸ hne.symm
      simp [← heq, h1]
    · have h0 : attribution.headerBr.successor0 ≠ attribution.exitBlock := heq ▸ hne
      simp [← heq, h0]
  exact ⟨_, if_pos (hbr _ rfl).1, fun k =>
    (leaves_of_successor0 (hbr _ rfl).1 (hbr _ rfl).2).trans (hvalues k)⟩

omit [DecidableEq V] [DecidableEq B] in
/-- Equality becomes an order, and an unsigned order a signed one. -/
theorem LoopGoverningIVUtility.predicatesFor_spec {p nonStrict strict : ICmpPredicate} {positive : Bool}
    (h : predicatesFor p positive = some (nonStrict, strict)) :
    (p = .eq → nonStrict = if positive then .sge else .sle) ∧
      (p = .ult ∨ p = .ule → nonStrict = p.signed) ∧
      (p ≠ .eq → p ≠ .ult → p ≠ .ule → nonStrict = p) := by
  cases p <;> cases positive <;> simp only [predicatesFor, if_true, Bool.false_eq_true, if_false,
    Option.some.injEq, Prod.mk.injEq, reduceCtorEq] at h <;> obtain ⟨rfl, rfl⟩ := h <;>
    simp [ICmpPredicate.signed]

omit [DecidableEq V] [DecidableEq B] in
theorem reachedOrPassed_of_eq {k : Nat} (h : ivAt attribution start k = bound) :
    reachedOrPassed attribution start bound k = true := by
  simp [reachedOrPassed, h, BitVec.sle_iff_toInt_le]

variable (attribution) in
/-- **The exit iteration under the rewriting.**  Predicates other than equality and the
unsigned less-than ones are only oriented, and every exit iteration is kept.  Equality
becomes reaching or passing the bound: the loop is left in the iteration of the original
one if the induction variable takes the bound there, and earlier otherwise.  The
unsigned less-than predicates keep the exit iteration as long as the induction variable
has the sign of the bound. -/
theorem updateConditionAndBranch_exitIteration (hu : LoopGoverningIVUtility.new attribution = some u) :
    ∃ rewritten, u.updateConditionAndBranchToCatchIteratingPastExitValue attribution.headerCmp
        attribution.headerBr attribution.exitBlock = some rewritten ∧
      (attribution.exitPredicate ≠ .eq → attribution.exitPredicate ≠ .ult →
        attribution.exitPredicate ≠ .ule → ∀ n, FirstAt (originalExit attribution start bound) n ↔
          FirstAt (rewrittenExit attribution start bound rewritten) n) ∧
      (attribution.exitPredicate = .eq →
        (∀ n, FirstAt (rewrittenExit attribution start bound rewritten) n ↔
          FirstAt (reachedOrPassed attribution start bound) n) ∧
        ∀ n, FirstAt (rewrittenExit attribution start bound rewritten) n →
          (ivAt attribution start n = bound → FirstAt (originalExit attribution start bound) n) ∧
          (ivAt attribution start n ≠ bound →
            ∀ m, FirstAt (originalExit attribution start bound) m → n < m)) ∧
      (attribution.exitPredicate = .ult ∨ attribution.exitPredicate = .ule →
        ∀ n, (∀ k ≤ n, (ivAt attribution start k).msb = bound.msb) →
          (FirstAt (originalExit attribution start bound) n ↔
            FirstAt (rewrittenExit attribution start bound rewritten) n)) := by
  obtain ⟨rewritten, hrewritten, hexit⟩ := rewrittenExit_eq start bound hu
  obtain ⟨⟨nonStrict, strict⟩, hfor, rfl⟩ := Option.map_eq_some_iff.mp hu
  obtain ⟨heq, hunsigned, hother⟩ := LoopGoverningIVUtility.predicatesFor_spec hfor
  dsimp only at hexit
  refine ⟨rewritten, hrewritten, fun h₁ h₂ h₃ n => ?_, fun hpred => ?_, fun hpred n hsign => ?_⟩
  · refine FirstAt.congr fun k _ => ?_
    rw [originalExit_eq, hexit, hother h₁ h₂ h₃]
  · have hreached : ∀ k, rewrittenExit attribution start bound rewritten k =
        reachedOrPassed attribution start bound k := fun k => by
      rw [hexit, heq hpred, reachedOrPassed]
      cases attribution.isStepValuePositive <;> rfl
    have horiginal : ∀ k, originalExit attribution start bound k = true ↔
        ivAt attribution start k = bound := fun k => by
      rw [originalExit_eq, hpred]
      exact decide_eq_true_iff
    have himp : ∀ k, originalExit attribution start bound k = true →
        rewrittenExit attribution start bound rewritten k = true := fun k hk => by
      rw [hreached]
      exact reachedOrPassed_of_eq start bound ((horiginal k).mp hk)
    refine ⟨fun n => FirstAt.congr fun k _ => hreached k, fun n hn => ⟨fun hbound => ?_, fun hne m hm => ?_⟩⟩
    · exact hn.of_imp himp ((horiginal n).mpr hbound)
    · have hle := hn.le_of_imp himp hm
      have hmn : m ≠ n := fun h => hne (h ▸ (horiginal m).mp hm.1)
      omega
  · refine FirstAt.congr fun k hk => ?_
    rw [originalExit_eq, hexit, hunsigned hpred, ICmpPredicate.holds_signed _ (hsign k hk)]

end Runs

/-- A loop that is left when the induction variable is 5; it counts by twos. -/
def countByTwo : LoopGoverningInductionVariable Nat Nat 8 where
  headerCmp := ⟨.eq, 0, 1⟩
  headerBr := ⟨10, 11⟩
  exitBlock := 10
  valueToCompare := 0
  stepValue := 2
  operands_ne := by decide
  valueToCompare_mem := by decide
  successors_ne := by decide
  exitBlock_mem := by decide

/-- From 0 the induction variable steps over 5: the rewritten loop is left in the fourth
iteration, the original one is not. -/
theorem exitIteration_not_kept :
    ∃ u rewritten, LoopGoverningIVUtility.new countByTwo = some u ∧
      u.updateConditionAndBranchToCatchIteratingPastExitValue countByTwo.headerCmp
        countByTwo.headerBr countByTwo.exitBlock = some rewritten ∧
      ¬ ∀ n, FirstAt (originalExit countByTwo 0 5) n ↔
        FirstAt (rewrittenExit countByTwo 0 5 rewritten) n := by
  refine ⟨_, _, rfl, rfl, fun h => ?_⟩
  have hrewritten : FirstAt (rewrittenExit countByTwo 0 5 (⟨.sge, 0, 1⟩, ⟨10, 11⟩)) 3 := by
    unfold FirstAt
    decide
  have hfalse := ((h 3).mpr hrewritten).1
  revert hfalse
  decide

/-- A loop whose body is entered as long as 5 is at least the induction variable. -/
def whileAtLeast : LoopGoverningInductionVariable Nat Nat 8 where
  headerCmp := ⟨.sge, 1, 0⟩
  headerBr := ⟨11, 10⟩
  exitBlock := 10
  valueToCompare := 0
  stepValue := 2
  operands_ne := by decide
  valueToCompare_mem := by decide
  successors_ne := by decide
  exitBlock_mem := by decide

theorem updateConditionAndBranch_exitIteration_whileAtLeast :
    ∃ rewritten, LoopGoverningIVUtility.updateConditionAndBranchToCatchIteratingPastExitValue
        ⟨true, true, .sgt, .sgt⟩ whileAtLeast.headerCmp whileAtLeast.headerBr
        whileAtLeast.exitBlock = some rewritten ∧
      ∀ n, FirstAt (originalExit whileAtLeast 0 5) n ↔
        FirstAt (rewrittenExit whileAtLeast 0 5 rewritten) n := by
  obtain ⟨rewritten, hrewritten, hkept, _⟩ :=
    updateConditionAndBranch_exitIteration whileAtLeast 0 5 rfl
  exact ⟨rewritten, hrewritten, hkept (by decide) (by decide) (by decide)⟩

end Noelle
