import Noelle.Lib.Shifting
import Noelle.LoopIterationSpaceAnalysis.InnerDimensions

/-!
# SCEVSimplification.LoopGuards

`SCEVSimplification::simplifyLoopGoverningIVGuards`.

The comparison of an intermediate value of the governing induction variable with a bound becomes the
comparison of the PHI node with the bound less an offset.  The offset is the difference of the starts
of the two recurrences; their steps are not compared, and neither is the predicate looked at.

`simplifyLoopGoverningIVGuards_preserves_iff`: the loop keeps its tests exactly if, in every iteration,
the PHI node plus the offset compares as the intermediate value does, and adding the offset to the two
operands wraps around for both or for neither.
-/

namespace Noelle

open Option

/-- What the pass reads of an induction variable: is its single step value a constant, is its PHI node
an integer, and the conditions of the conditional branches in its SCC. -/
structure GuardIV (V : Type) extends InductionVariable V where
  hasConstantStep : Bool
  isIntegerTy : Bool
  branchConditions : List V

/-- What the pass reads of a loop.  A condition that is no comparison of integers is none. -/
structure GuardedLoop (V B : Type) where
  header : B
  getInductionVariables : List (GuardIV V)
  getCmpInst : V → Option (CmpInst V)
  getSCEV : V → AnySCEV V B

/-- The comparison after the pass: the PHI node replaces the intermediate value, and the offset is
subtracted from the other operand. -/
structure SimplifiedGuard (V B : Type) where
  cmpInst : CmpInst V
  isOpLHSAnIntermediate : Bool
  loopEntryPHI : V
  offset : AnySCEV V B
  deriving DecidableEq

namespace SCEVSimplification

open LoopIterationSpaceAnalysis

variable {V B : Type} [DecidableEq V] [DecidableEq B]

/-! ## The pass -/

/-- `getOffsetBetween`.  The outer `none` is the failed assertion that a constant fits into 64 bits. -/
def getOffsetBetween (startSCEV intermediateSCEV : AnySCEV V B) : Option (Option (AnySCEV V B)) :=
  match intermediateSCEV.2.asConstant with
  | some intermediateConstSCEV =>
      match startSCEV.2.asConstant with
      | none => some none
      | some startConstSCEV => do
          let startConst ← startConstSCEV.getSExtValue
          let intermediateConst ← intermediateConstSCEV.getSExtValue
          return some ⟨startSCEV.1, .constant ((intermediateConst - startConst).signExtend startSCEV.1)⟩
  | none =>
      match operandsOfTwo intermediateSCEV.2 with
      | none => some none
      | some (lhs, rhs) =>
          let isStart (scev : SCEV V B intermediateSCEV.1) : Bool :=
            decide ((⟨_, scev⟩ : AnySCEV V B) = startSCEV)
          if isStart lhs ^^ isStart rhs then some (some ⟨_, if isStart lhs then rhs else lhs⟩)
          else some none

/-- `cast<SCEVAddRecExpr>(scev)->getStart()`. -/
def getStart : AnySCEV V B → Option (AnySCEV V B)
  | ⟨w, .addRecExpr _ start _⟩ => some ⟨w, start⟩
  | _ => none

def hasOffsetValue (offsetSCEV : AnySCEV V B) : Bool :=
  match offsetSCEV.2 with
  | .constant _ | .unknown _ => true
  | _ => false

variable (ord : IterOrder) (loop : GuardedLoop V B)

/-- The loop over the induction variables: the first one with a constant step and a single conditional
branch in its SCC, and the condition of the branch. -/
def loopGoverningIV : Option (GuardIV V × V) :=
  (ord.visit loop.getInductionVariables).findSome? fun iv =>
    if iv.hasConstantStep && iv.isIntegerTy then
      match iv.branchConditions with
      | [condition] => some (iv, condition)
      | _ => none
    else none

/-- The rewrite of a comparison of an intermediate value with a condition value.  The outer `none` is a
failed cast or assertion: the operands of the subtraction have one type. -/
def simplifyCmpInst (iv : GuardIV V) (cmpInst : CmpInst V) (isOpLHSAnIntermediate : Bool)
    (intermediateValueUsedInCompare conditionValue : V) : Option (Option (SimplifiedGuard V B)) :=
  if intermediateValueUsedInCompare = iv.getLoopEntryPHI then some none
  else do
    let loopEntryPHIStartSCEV ← getStart (loop.getSCEV iv.getLoopEntryPHI)
    let intermediateStartSCEV ← getStart (loop.getSCEV intermediateValueUsedInCompare)
    match ← getOffsetBetween loopEntryPHIStartSCEV intermediateStartSCEV with
    | none => return none
    | some offsetSCEV =>
        if !hasOffsetValue offsetSCEV then return none
        else if offsetSCEV.1 ≠ (loop.getSCEV conditionValue).1 then none
        else return some ⟨cmpInst, isOpLHSAnIntermediate, iv.getLoopEntryPHI, offsetSCEV⟩

def simplifyLoopGoverningIVGuards : Option (Option (SimplifiedGuard V B)) :=
  match loopGoverningIV ord loop with
  | none => some none
  | some (iv, condition) =>
      match loop.getCmpInst condition with
      | none => some none
      | some cmpInst =>
          let isOpLHSAnIntermediate := iv.isIVInstruction cmpInst.operand0
          let isOpRHSAnIntermediate := iv.isIVInstruction cmpInst.operand1
          if isOpLHSAnIntermediate ^^ isOpRHSAnIntermediate then
            simplifyCmpInst loop iv cmpInst isOpLHSAnIntermediate
              (if isOpLHSAnIntermediate then cmpInst.operand0 else cmpInst.operand1)
              (if isOpLHSAnIntermediate then cmpInst.operand1 else cmpInst.operand0)
          else some none

/-- The branch on the comparison leaves the loop. -/
def leavesAt (exitsOnTrue : Bool) (holds : Nat → Bool) (k : Nat) : Bool := holds k == exitsOnTrue

end SCEVSimplification

/-! ## The iterations -/

namespace SimplifiedGuard

open LoopIterationSpaceAnalysis SCEVSimplification

variable {V B : Type} [DecidableEq V] [DecidableEq B] {loop : GuardedLoop V B} (g : SimplifiedGuard V B) (env : SCEVEnv V B)

def valueOf (loop : GuardedLoop V B) (k : Nat) (v : V) : BitVec g.offset.1 :=
  ((loop.getSCEV v).2.eval (iterationAt env loop.header k)).setWidth g.offset.1

def intermediateValue : V :=
  if g.isOpLHSAnIntermediate then g.cmpInst.operand0 else g.cmpInst.operand1

def conditionValue : V :=
  if g.isOpLHSAnIntermediate then g.cmpInst.operand1 else g.cmpInst.operand0

def offsetAt (loop : GuardedLoop V B) (k : Nat) : BitVec g.offset.1 :=
  g.offset.2.eval (iterationAt env loop.header k)

/-- The comparison of a value of the induction variable with a bound, in the order of the operands. -/
def compare (x bound : BitVec g.offset.1) : Bool :=
  if g.isOpLHSAnIntermediate then g.cmpInst.predicate.holds x bound
  else g.cmpInst.predicate.holds bound x

/-- The comparison that is replaced. -/
def holdsBefore (loop : GuardedLoop V B) (k : Nat) : Bool :=
  g.cmpInst.predicate.holds (g.valueOf env loop k g.cmpInst.operand0)
    (g.valueOf env loop k g.cmpInst.operand1)

/-- The comparison with which it is replaced. -/
def holdsAfter (loop : GuardedLoop V B) (k : Nat) : Bool :=
  g.compare (g.valueOf env loop k g.loopEntryPHI)
    (g.valueOf env loop k g.conditionValue - g.offsetAt env loop k)

/-- The PHI node plus the offset compares as the intermediate value does, exactly if adding the offset
wraps around for both operands or for neither. -/
def ShiftKeepsResult (loop : GuardedLoop V B) (k : Nat) : Prop :=
  let x := g.valueOf env loop k g.loopEntryPHI
  let bound := g.valueOf env loop k g.conditionValue
  let offset := g.offsetAt env loop k
  g.compare (x + offset) bound = g.holdsBefore env loop k ↔
    g.cmpInst.predicate.addWraps x offset = g.cmpInst.predicate.addWraps (bound - offset) offset

omit [DecidableEq V] in
theorem holdsBefore_eq (k : Nat) : g.holdsBefore env loop k =
    g.compare (g.valueOf env loop k g.intermediateValue) (g.valueOf env loop k g.conditionValue) := by
  unfold holdsBefore compare intermediateValue conditionValue
  cases g.isOpLHSAnIntermediate <;> rfl

omit [DecidableEq V] [DecidableEq B] in
theorem compare_sub_iff (x bound offset : BitVec g.offset.1) :
    g.compare (x + offset) bound = g.compare x (bound - offset) ↔
      g.cmpInst.predicate.addWraps x offset = g.cmpInst.predicate.addWraps (bound - offset) offset := by
  unfold compare
  cases g.isOpLHSAnIntermediate with
  | true =>
      have hadd := ICmpPredicate.holds_add_iff x (bound - offset) offset g.cmpInst.predicate
      rwa [BitVec.sub_add_cancel] at hadd
  | false =>
      have hadd := ICmpPredicate.holds_add_iff (bound - offset) x offset g.cmpInst.predicate
      rw [BitVec.sub_add_cancel] at hadd
      exact hadd.trans eq_comm

omit [DecidableEq V] in
theorem holdsAfter_eq_iff (k : Nat) :
    g.holdsAfter env loop k = g.holdsBefore env loop k ↔ g.ShiftKeepsResult env loop k := by
  unfold ShiftKeepsResult holdsAfter
  dsimp only
  rw [← g.compare_sub_iff]
  generalize g.compare (_ + _) _ = shifted
  generalize g.compare _ _ = after
  generalize g.holdsBefore env loop k = before
  cases shifted <;> cases after <;> cases before <;> simp

omit [DecidableEq V] in
/-- The loop is left in the same iteration if the test is kept in those that are reached. -/
theorem firstAt_leaves_iff {exitsOnTrue : Bool}
    (hsame : ∀ k, (∀ j < k, leavesAt exitsOnTrue (g.holdsBefore env loop) j = false) →
      g.holdsAfter env loop k = g.holdsBefore env loop k) (n : Nat) :
    FirstAt (leavesAt exitsOnTrue (g.holdsAfter env loop)) n ↔
      FirstAt (leavesAt exitsOnTrue (g.holdsBefore env loop)) n := by
  refine (FirstAt.congr_reached fun k hk => ?_).symm
  unfold leavesAt
  rw [hsame k hk]

/-! ## The offset -/

/-- The intermediate value is a recurrence of the loop with the step of the PHI node. -/
def StepsAgree (loop : GuardedLoop V B) : Prop :=
  ∃ (w : Nat) (start start' step : SCEV V B w), w ≤ 64 ∧
    loop.getSCEV g.loopEntryPHI = ⟨w, .addRecExpr loop.header start step⟩ ∧
      loop.getSCEV g.intermediateValue = ⟨w, .addRecExpr loop.header start' step⟩

end SimplifiedGuard

namespace SCEVSimplification

open LoopIterationSpaceAnalysis

variable {V B : Type} [DecidableEq V] [DecidableEq B] {w : Nat}

theorem constant_eq_add {c c' : BitVec w} {x x' : BitVec 64} (hw : w ≤ 64)
    (hx : x.toInt = c.toInt) (hx' : x'.toInt = c'.toInt) : c' = c + (x' - x).signExtend w := by
  have hc : c = x.setWidth w := by
    rw [← BitVec.signExtend_eq_setWidth_of_le x hw, BitVec.signExtend, hx, BitVec.ofInt_toInt]
  have hc' : c' = x'.setWidth w := by
    rw [← BitVec.signExtend_eq_setWidth_of_le x' hw, BitVec.signExtend, hx', BitVec.ofInt_toInt]
  rw [hc, hc', BitVec.signExtend_eq_setWidth_of_le _ hw, ← BitVec.setWidth_add _ _ hw,
    BitVec.add_comm, BitVec.sub_add_cancel]

/-- The offset is the difference of the two starts, whatever the unknowns. -/
theorem getOffsetBetween_spec {start start' : SCEV V B w} {offset : AnySCEV V B} (hw : w ≤ 64)
    (h : getOffsetBetween ⟨w, start⟩ ⟨w, start'⟩ = some (some offset)) :
    ∃ e : SCEV V B w, offset = ⟨w, e⟩ ∧
      ∀ (unknown : V → Int) (k : B → Nat),
        start'.valueAt unknown k = start.valueAt unknown k + e.valueAt unknown k := by
  unfold getOffsetBetween at h
  cases hconst : start'.asConstant with
  | some c' =>
      rw [hconst] at h
      cases hstart : start.asConstant with
      | none =>
          rw [hstart] at h
          cases some.inj h
      | some c =>
          rw [hstart] at h
          obtain ⟨x, hx, h⟩ := bind_eq_some_iff.mp h
          obtain ⟨x', hx', h⟩ := bind_eq_some_iff.mp h
          obtain rfl := some.inj (some.inj h)
          refine ⟨_, rfl, fun unknown k => ?_⟩
          cases start with
          | constant value =>
              cases start' with
              | constant value' =>
                  cases hstart
                  cases hconst
                  exact constant_eq_add hw (SCEV.toInt_getSExtValue hx) (SCEV.toInt_getSExtValue hx')
              | _ => cases hconst
          | _ => cases hstart
  | none =>
      rw [hconst] at h
      cases htwo : operandsOfTwo start' with
      | none =>
          rw [htwo] at h
          cases some.inj h
      | some operands =>
          obtain ⟨lhs, rhs⟩ := operands
          rw [htwo] at h
          dsimp only at h
          obtain rfl := eq_add_of_operandsOfTwo htwo
          split_ifs at h with hxor hlhs
          · obtain rfl := some.inj (some.inj h)
            have heq := eq_of_heq (Sigma.mk.inj_iff.mp (of_decide_eq_true hlhs)).2
            exact ⟨rhs, rfl, fun unknown k => by rw [← heq]; rfl⟩
          · obtain rfl := some.inj (some.inj h)
            rw [Bool.not_eq_true] at hlhs
            rw [hlhs, Bool.false_xor] at hxor
            have heq := eq_of_heq (Sigma.mk.inj_iff.mp (of_decide_eq_true hxor)).2
            exact ⟨lhs, rfl, fun unknown k => by rw [← heq]; exact BitVec.add_comm _ _⟩
          · cases some.inj h

section Accepted

variable {ord : IterOrder} {loop : GuardedLoop V B} {g : SimplifiedGuard V B}

/-- What the pass has found out about a comparison that it replaces. -/
def IsOffsetGuard (loop : GuardedLoop V B) (g : SimplifiedGuard V B) : Prop :=
  ∃ start start', getStart (loop.getSCEV g.loopEntryPHI) = some start ∧
    getStart (loop.getSCEV g.intermediateValue) = some start' ∧
      getOffsetBetween start start' = some (some g.offset) ∧ hasOffsetValue g.offset = true

/-- What a simplified comparison looks like. -/
theorem simplifyCmpInst_cases {iv : GuardIV V} {cmpInst : CmpInst V} {left : Bool}
    {intermediate condition : V}
    (h : simplifyCmpInst loop iv cmpInst left intermediate condition = some (some g)) :
    ∃ start start', getStart (loop.getSCEV iv.getLoopEntryPHI) = some start ∧
      getStart (loop.getSCEV intermediate) = some start' ∧
        getOffsetBetween start start' = some (some g.offset) ∧ hasOffsetValue g.offset = true ∧
          g = ⟨cmpInst, left, iv.getLoopEntryPHI, g.offset⟩ := by
  unfold simplifyCmpInst at h
  split_ifs at h with hphi
  · cases some.inj h
  · obtain ⟨start, hstart, h⟩ := bind_eq_some_iff.mp h
    obtain ⟨start', hstart', h⟩ := bind_eq_some_iff.mp h
    obtain ⟨found, hoffset, h⟩ := bind_eq_some_iff.mp h
    cases found with
    | none => cases some.inj h
    | some offset =>
        dsimp only at h
        split_ifs at h with hvalue htype
        · cases some.inj h
        · obtain rfl := some.inj (some.inj h)
          exact ⟨start, start', hstart, hstart', hoffset, by simpa using hvalue, rfl⟩

/-- A simplified guard has the offset between two starts. -/
theorem isOffsetGuard_of_simplified (h : simplifyLoopGoverningIVGuards ord loop = some (some g)) :
    IsOffsetGuard loop g := by
  unfold simplifyLoopGoverningIVGuards at h
  cases hiv : loopGoverningIV ord loop with
  | none =>
      rw [hiv] at h
      cases some.inj h
  | some found =>
      obtain ⟨iv, condition⟩ := found
      rw [hiv] at h
      cases hcmp : loop.getCmpInst condition with
      | none =>
          simp only [hcmp] at h
          cases some.inj h
      | some cmpInst =>
          simp only [hcmp] at h
          by_cases hxor : (iv.isIVInstruction cmpInst.operand0 ^^ iv.isIVInstruction cmpInst.operand1)
              = true
          · rw [if_pos hxor] at h
            obtain ⟨start, start', hstart, hstart', hoffset, hvalue, heq⟩ := simplifyCmpInst_cases h
            rw [heq]
            exact ⟨start, start', hstart, hstart', hoffset, hvalue⟩
          · rw [if_neg hxor] at h
            cases some.inj h

end Accepted

omit [DecidableEq V] in
theorem valueAt_addRecExpr_add {header : B} {start start' step : SCEV V B w} {unknown : V → Int}
    {k : B → Nat} {x : BitVec w}
    (hstart : start'.valueAt unknown (Function.update k header 0) =
      start.valueAt unknown (Function.update k header 0) + x) :
    (SCEV.addRecExpr header start' step).valueAt unknown k =
      (SCEV.addRecExpr header start step).valueAt unknown k + x := by
  rw [SCEV.valueAt, SCEV.valueAt, hstart]
  generalize start.valueAt unknown _ = sum
  generalize List.range (k header) = l
  induction l generalizing sum with
  | nil => rfl
  | cons j l ih =>
      rw [List.foldl_cons, List.foldl_cons, ← ih]
      congr 1
      rw [BitVec.add_assoc, BitVec.add_comm x, BitVec.add_assoc]

/-- With the step of the PHI node, the intermediate value is the PHI node plus the offset. -/
theorem shiftKeepsResult_iff_of_stepsAgree {ord : IterOrder} {loop : GuardedLoop V B}
    {g : SimplifiedGuard V B} (h : simplifyLoopGoverningIVGuards ord loop = some (some g))
    (hsteps : g.StepsAgree loop) (env : SCEVEnv V B) (k : Nat) :
    let bound := g.valueOf env loop k g.conditionValue
    let offset := g.offsetAt env loop k
    g.ShiftKeepsResult env loop k ↔
      g.cmpInst.predicate.addWraps (g.valueOf env loop k g.loopEntryPHI) offset =
        g.cmpInst.predicate.addWraps (bound - offset) offset := by
  obtain ⟨start, start', hphi, hintermediate, hoffset, hvalue⟩ := isOffsetGuard_of_simplified h
  obtain ⟨w, s, s', step, hw, hphi', hintermediate'⟩ := hsteps
  rw [hphi'] at hphi
  rw [hintermediate'] at hintermediate
  cases hphi
  cases hintermediate
  obtain ⟨e, heq, hadd⟩ := getOffsetBetween_spec hw hoffset
  have hshift : g.valueOf env loop k g.intermediateValue =
      g.valueOf env loop k g.loopEntryPHI + g.offsetAt env loop k := by
    unfold SimplifiedGuard.valueOf SimplifiedGuard.offsetAt
    rw [hphi', hintermediate', heq]
    dsimp only
    rw [BitVec.setWidth_eq, BitVec.setWidth_eq]
    refine valueAt_addRecExpr_add ?_
    rw [hadd]
    congr 1
    rw [heq] at hvalue
    cases e with
    | constant c => rfl
    | unknown v => rfl
    | _ => cases hvalue
  dsimp only
  unfold SimplifiedGuard.ShiftKeepsResult
  dsimp only
  rw [g.holdsBefore_eq, hshift]
  exact iff_of_eq (by simp)

/-- **Rewriting the guard** of a loop keeps the tests of all iterations, and so the iteration in which the
loop is left, exactly if in each iteration that is reached the PHI node plus the offset compares as the
intermediate value does, where adding the offset wraps around for both operands or for neither, and
otherwise where it does not.  An intermediate value with the step of the PHI node compares as the PHI
node plus the offset. -/
theorem simplifyLoopGoverningIVGuards_preserves_iff {ord : IterOrder} {loop : GuardedLoop V B}
    {g : SimplifiedGuard V B} (h : simplifyLoopGoverningIVGuards ord loop = some (some g))
    (env : SCEVEnv V B) (exitsOnTrue : Bool) :
    (((∀ k, (∀ j < k, leavesAt exitsOnTrue (g.holdsBefore env loop) j = false) →
        g.holdsAfter env loop k = g.holdsBefore env loop k) ∧
      ∀ n, FirstAt (leavesAt exitsOnTrue (g.holdsAfter env loop)) n ↔
        FirstAt (leavesAt exitsOnTrue (g.holdsBefore env loop)) n) ↔
      ∀ k, (∀ j < k, leavesAt exitsOnTrue (g.holdsBefore env loop) j = false) →
        g.ShiftKeepsResult env loop k) ∧
    (g.StepsAgree loop → ∀ k, g.ShiftKeepsResult env loop k ↔
      g.cmpInst.predicate.addWraps (g.valueOf env loop k g.loopEntryPHI) (g.offsetAt env loop k) =
        g.cmpInst.predicate.addWraps
          (g.valueOf env loop k g.conditionValue - g.offsetAt env loop k) (g.offsetAt env loop k)) := by
  refine ⟨?_, fun hsteps k => shiftKeepsResult_iff_of_stepsAgree h hsteps env k⟩
  have heach : (∀ k, (∀ j < k, leavesAt exitsOnTrue (g.holdsBefore env loop) j = false) →
        g.holdsAfter env loop k = g.holdsBefore env loop k) ↔
      ∀ k, (∀ j < k, leavesAt exitsOnTrue (g.holdsBefore env loop) j = false) →
        g.ShiftKeepsResult env loop k :=
    forall₂_congr fun k _ => g.holdsAfter_eq_iff env k
  rw [← heach, and_iff_left_iff_imp]
  exact fun hsame n => g.firstAt_leaves_iff env hsame n

end SCEVSimplification

/-! ## A loop that tests the next value -/

inductive CountedValue
  | i
  | next
  | n
  | test
  deriving DecidableEq

namespace SCEVSimplification

def countedIV : GuardIV CountedValue where
  getLoopEntryPHI := .i
  getAllInstructions := PtrSet.ofList [.i, .next]
  getDerivedSCEVInstructions := ∅
  loopEntryPHI_mem := by decide
  hasConstantStep := true
  isIntegerTy := true
  branchConditions := [.test]

/-- The loop `while (++i < n)` over bytes, with a test of its own in place of `<`. -/
def countedLoop (predicate : ICmpPredicate) (n : BitVec 8) : GuardedLoop CountedValue Unit where
  header := ()
  getInductionVariables := [countedIV]
  getCmpInst
    | .test => some ⟨predicate, .next, .n⟩
    | _ => none
  getSCEV
    | .i => ⟨8, .addRecExpr () (.constant 0) (.constant 1)⟩
    | .next => ⟨8, .addRecExpr () (.constant 1) (.constant 1)⟩
    | .n => ⟨8, .constant n⟩
    | .test => ⟨1, .unknown .test⟩

def countedGuard (predicate : ICmpPredicate) : SimplifiedGuard CountedValue Unit where
  cmpInst := ⟨predicate, .next, .n⟩
  isOpLHSAnIntermediate := true
  loopEntryPHI := .i
  offset := ⟨8, .constant 1⟩

def countedEnv : SCEVEnv CountedValue Unit := ⟨fun _ => 0, fun _ => 0⟩

/-- With a test for inequality nothing changes. -/
theorem simplifyLoopGoverningIVGuards_preserves_ne :
    (∀ k, (∀ j < k, leavesAt false
          ((countedGuard .ne).holdsBefore countedEnv (countedLoop .ne 0)) j = false) →
        (countedGuard .ne).holdsAfter countedEnv (countedLoop .ne 0) k =
          (countedGuard .ne).holdsBefore countedEnv (countedLoop .ne 0) k) ∧
      ∀ n, FirstAt (leavesAt false
          ((countedGuard .ne).holdsAfter countedEnv (countedLoop .ne 0))) n ↔
        FirstAt (leavesAt false
          ((countedGuard .ne).holdsBefore countedEnv (countedLoop .ne 0))) n := by
  have haccepted : simplifyLoopGoverningIVGuards .stored (countedLoop .ne 0) =
      some (some (countedGuard .ne)) := by decide
  obtain ⟨hiff, hshift⟩ :=
    simplifyLoopGoverningIVGuards_preserves_iff haccepted countedEnv false
  have hsteps : (countedGuard .ne).StepsAgree (countedLoop .ne 0) :=
    ⟨8, .constant 0, .constant 1, .constant 1, by decide, rfl, rfl⟩
  exact hiff.mpr fun k _ => (hshift hsteps k).mpr rfl

/-- With `n = 0` the loop was left at once; after the rewrite the first value is below the bound. -/
theorem not_preserves_ult :
    simplifyLoopGoverningIVGuards .stored (countedLoop .ult 0) = some (some (countedGuard .ult)) ∧
      (countedGuard .ult).holdsBefore countedEnv (countedLoop .ult 0) 0 = false ∧
        (countedGuard .ult).holdsAfter countedEnv (countedLoop .ult 0) 0 = true := by
  refine ⟨by decide, by decide, by decide⟩

end SCEVSimplification

end Noelle
