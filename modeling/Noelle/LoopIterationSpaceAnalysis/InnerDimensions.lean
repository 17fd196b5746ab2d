import Noelle.Lib.Crossing
import Noelle.LoopGoverningIV.Utility
import Noelle.LoopIterationSpaceAnalysis.Basic
import Noelle.LoopIterationSpaceAnalysis.SCEV

/-!
# LoopIterationSpaceAnalysis.InnerDimensions

`LoopIterationSpaceAnalysis::isInnerDimensionSubscriptsBounded`.

The check compares the exit value of the loop with the size of the dimension.  It does not look at
the start of the induction variable, takes a test that lets the exit value through for one that does
not, and accepts a test for equality that the steps may pass over.

The nest is read over the integers.  `isInnerDimensionSubscriptsBounded_inRange_iff`: the subscript of
an accepted inner dimension stays in range exactly if it starts there and the loop is left by the
iteration in which it would reach the size.  For a test of the induction variable itself this is a
condition on the start, the step and the bound (`BoundsByExitTest`).
-/

namespace Noelle

open List Option

/-- `LoopGoverningInductionVariable`, with its induction variable. -/
structure LoopAttribution (V B : Type) where
  getInductionVariable : InductionVariable V
  width : Nat
  governing : LoopGoverningInductionVariable V B width

/-- What the analysis reads of a loop nest. -/
structure LoopNest (F V B : Type) where
  getSCEV : V → Option (AnySCEV V B)
  isIntegerType : AnySCEV V B → Bool
  getParent : V → B
  loops : LoopTree F B
  getLoopGoverningInductionVariable : LoopStructure F B → Option (LoopAttribution V B)

/-- `MemoryAccessSpace`: the sizes of the dimensions, and the instruction and induction variable of
each subscript. -/
structure MemoryAccessSpace (V B : Type) where
  sizes : List (AnySCEV V B)
  subscriptIVs : List (Option (V × InductionVariable V))

namespace LoopAttribution

variable {V B : Type} [DecidableEq V] (attr : LoopAttribution V B)

/-- The operand that the induction variable is compared with. -/
def getExitConditionValue : V :=
  if attr.governing.valueToCompare = attr.governing.headerCmp.operand0 then
    attr.governing.headerCmp.operand1
  else attr.governing.headerCmp.operand0

end LoopAttribution

namespace LoopIterationSpaceAnalysis

variable {F V B : Type} [DecidableEq V] [DecidableEq B]

/-! ## The check -/

section Check

/-- The operand of a truncation or an extension. -/
def stripCast : AnySCEV V B → AnySCEV V B
  | ⟨w, .castExpr op operand⟩ =>
      if op = .otherCast then ⟨w, .castExpr op operand⟩ else ⟨_, operand⟩
  | scev => scev

/-- The predicate and the side of the exit value that the check goes on with. -/
def strictPredicate (predicate : ICmpPredicate) (isConditionLHS : Bool) : ICmpPredicate × Bool :=
  match predicate with
  | .ule | .sle => (.ugt, !isConditionLHS)
  | .uge | .sge => (.ult, !isConditionLHS)
  | predicate => (predicate, isConditionLHS)

def isUpperBounded (attr : LoopAttribution V B) : Bool :=
  let cmpInst := attr.governing.headerCmp
  let exitOnFalse := decide (attr.governing.exitBlock = attr.governing.headerBr.successor1)
  let (predicate, isConditionLHS) := strictPredicate cmpInst.predicate
    (decide (cmpInst.operand0 = attr.getExitConditionValue))
  let isUpperBoundedByEq :=
    (!exitOnFalse && predicate = .eq) || (exitOnFalse && predicate = .ne)
  let isUpperBoundedByLT := exitOnFalse && !isConditionLHS &&
    (predicate = .ult || predicate = .slt)
  let isUpperBoundedByFlippedGT := exitOnFalse && isConditionLHS &&
    (predicate = .ugt || predicate = .sgt)
  isUpperBoundedByEq || isUpperBoundedByLT || isUpperBoundedByFlippedGT

def operandsOfTwo {w : Nat} : SCEV V B w → Option (SCEV V B w × SCEV V B w)
  | .operator .add (.operator .add _ _) _ => none
  | .operator .add _ (.operator .add _ _) => none
  | .operator .add lhs rhs => some (lhs, rhs)
  | _ => none

/-- The exit value is the size, or the size and a negative constant. -/
def isWithinSize (conditionSCEV sizeSCEV : AnySCEV V B) : Bool :=
  let conditionSCEVBase := stripCast conditionSCEV
  let sizeSCEVBase := stripCast sizeSCEV
  if conditionSCEVBase = sizeSCEVBase then true
  else
    match operandsOfTwo conditionSCEVBase.2 with
    | none => false
    | some (lhsSCEV, rhsSCEV) =>
        let isSize (scev : SCEV V B conditionSCEVBase.1) : Bool :=
          decide ((⟨_, scev⟩ : AnySCEV V B) = sizeSCEVBase)
        if isSize lhsSCEV ^^ isSize rhsSCEV then
          match (if isSize lhsSCEV then rhsSCEV else lhsSCEV).asConstant with
          | some constOffset => constOffset.isNegative
          | none => false
        else false

variable (nest : LoopNest F V B)

/-- The governing induction variable of the loop of an induction variable. -/
def attributionOf (iv : InductionVariable V) : Option (Option (LoopAttribution V B)) :=
  let loopHeader := nest.getParent iv.getLoopEntryPHI
  (nest.loops.getInnermostLoopThatContains loopHeader).map nest.getLoopGoverningInductionVariable

/-- The comparison with the exit condition, for a recurrence with the given start and step. -/
def isBoundedByExitCondition {w : Nat} (sizeSCEV : AnySCEV V B) (iv : InductionVariable V)
    (start step : SCEV V B w) : Option Bool := do
  let loopEntryPHISCEV ← nest.getSCEV iv.getLoopEntryPHI
  match loopEntryPHISCEV.2 with
  | .addRecExpr _ phiStart phiStep => do
      if !(← start.scevsMatch phiStart) then return false
      if !(← step.scevsMatch phiStep) then return false
      match ← attributionOf nest iv with
      | none => return false
      | some attr =>
          if attr.getInductionVariable ≠ iv then return false
          match step.asConstant with
          | none => return false
          | some constantStep =>
              if constantStep.isNegative || !isUpperBounded attr then return false
              let conditionSCEV ← nest.getSCEV attr.getExitConditionValue
              return isWithinSize conditionSCEV sizeSCEV
  | _ => none

/-- The body of the loop over the dimensions. -/
def isSubscriptBounded (sizeSCEV : AnySCEV V B) (instIVPair : Option (V × InductionVariable V)) :
    Option Bool :=
  match instIVPair with
  | none => some false
  | some (inst, iv) =>
      match nest.getSCEV inst with
      | none => some false
      | some scev =>
          let subscriptSCEV := stripCast scev
          if !nest.isIntegerType subscriptSCEV || !iv.isIVInstruction inst then some false
          else
            match subscriptSCEV with
            | ⟨_, .addRecExpr _ start step⟩ => isBoundedByExitCondition nest sizeSCEV iv start step
            | _ => some false

end Check

/-- The inner dimensions: each subscript but the first, with the size of its dimension. -/
def innerDimensions (space : MemoryAccessSpace V B) :
    List (AnySCEV V B × Option (V × InductionVariable V)) :=
  space.sizes.zip space.subscriptIVs.tail

def isInnerDimensionSubscriptsBounded (nest : LoopNest F V B) (space : MemoryAccessSpace V B) :
    Option Bool :=
  if space.subscriptIVs.length = 0 || space.subscriptIVs.length ≠ space.sizes.length then some false
  else (innerDimensions space).allM fun d => isSubscriptBounded nest d.1 d.2

/-! ## The iterations -/

section Iterations

/-- The iteration `k` of the loop with the header, at the current iterations of the others. -/
def iterationAt (env : SCEVEnv V B) (header : B) (k : Nat) : SCEVEnv V B :=
  { env with iteration := Function.update env.iteration header k }

variable (nest : LoopNest F V B)

def valueOf (env : SCEVEnv V B) (v : V) : Int :=
  match nest.getSCEV v with
  | some scev => scev.2.intValue env
  | none => env.unknown v

/-- The branch of the header leaves the loop in the iteration `k`. -/
def leavesLoop (attr : LoopAttribution V B) (env : SCEVEnv V B) (header : B) (k : Nat) : Bool :=
  let cmpInst := attr.governing.headerCmp
  let values := valueOf nest (iterationAt env header k)
  let successor := if cmpInst.predicate.holdsInt (values cmpInst.operand0) (values cmpInst.operand1)
    then attr.governing.headerBr.successor0 else attr.governing.headerBr.successor1
  decide (successor = attr.governing.exitBlock)

/-- In every iteration of the loop the subscript is in the range of its dimension. -/
def IsInRange (attr : LoopAttribution V B) (env : SCEVEnv V B) (header : B) (sizeSCEV : AnySCEV V B)
    (inst : V) : Prop :=
  ∀ k, ExecutedAt (leavesLoop nest attr env header) k →
    0 ≤ valueOf nest (iterationAt env header k) inst ∧
      valueOf nest (iterationAt env header k) inst < sizeSCEV.2.intValue (iterationAt env header k)

def recurrenceOf (inst : V) : Option (B × AnySCEV V B) :=
  match (nest.getSCEV inst).map stripCast with
  | some ⟨_, .addRecExpr header _ stepRecurrence⟩ => some (header, ⟨_, stepRecurrence⟩)
  | _ => none

/-- The subscript and the PHI node evolve in the loop, and the size is an invariant of it. -/
structure EvolvesIn (env : SCEVEnv V B) (header : B) (sizeSCEV : AnySCEV V B) (inst phi : V) :
    Prop where
  header_eq : (recurrenceOf nest inst).map (·.1) = some header
  phi_header_eq : (recurrenceOf nest phi).map (·.1) = some header
  invariant : ∀ k, sizeSCEV.2.intValue (iterationAt env header k) =
    sizeSCEV.2.intValue (iterationAt env header 0)

/-- If the loop is entered, the subscript starts in the range, and the loop is left by the iteration
in which it would reach the size. -/
def StartsInRangeAndLeaves (attr : LoopAttribution V B) (env : SCEVEnv V B) (header : B)
    (sizeSCEV : AnySCEV V B) (inst : V) : Prop :=
  let leaves := leavesLoop nest attr env header
  let start := valueOf nest (iterationAt env header 0) inst
  let size := sizeSCEV.2.intValue (iterationAt env header 0)
  let step := ((recurrenceOf nest inst).map fun r => r.2.2.intValue env).getD 0
  ExecutedAt leaves 0 → 0 ≤ start ∧ start < size ∧
    (0 < step → ¬ ExecutedAt leaves (crossing start step size))

/-- If the loop is entered, the test of the induction variable bounds the subscript. -/
def BoundsByExitTest (attr : LoopAttribution V B) (env : SCEVEnv V B) (header : B)
    (sizeSCEV : AnySCEV V B) (inst : V) : Prop :=
  let start := valueOf nest (iterationAt env header 0) inst
  let bound := valueOf nest (iterationAt env header 0) attr.getExitConditionValue
  let size := sizeSCEV.2.intValue (iterationAt env header 0)
  let step := ((recurrenceOf nest inst).map fun r => r.2.2.intValue env).getD 0
  ExecutedAt (leavesLoop nest attr env header) 0 →
    RangeCondition attr.governing.exitPredicate start step bound size

end Iterations

section Values

variable {nest : LoopNest F V B} {env : SCEVEnv V B} {header : B}

omit [DecidableEq V] in
theorem intValue_stripCast (scev : AnySCEV V B) (env : SCEVEnv V B) :
    (stripCast scev).2.intValue env = scev.2.intValue env := by
  obtain ⟨w, e⟩ := scev
  cases e with
  | castExpr op operand => cases op <;> rfl
  | _ => rfl

theorem foldl_add_const (c x : Int) (k : Nat) :
    (List.range k).foldl (fun sum _ => sum + c) x = x + k * c := by
  induction k with
  | zero => simp
  | succ k ih =>
      rw [range_succ, foldl_append, ih, foldl_cons, foldl_nil]
      push_cast
      ring

variable {w : Nat} {sizeSCEV : AnySCEV V B} {iv : InductionVariable V} {start e : SCEV V B w}
  {inst : V} {c : ConstantInt}

omit [DecidableEq V] in
theorem intValue_addRecExpr (start : SCEV V B w) (c : BitVec w) (env : SCEVEnv V B) (header : B)
    (k : Nat) :
    (SCEV.addRecExpr header start (.constant c)).intValue (iterationAt env header k) =
      start.intValue (iterationAt env header 0) + k * c.toInt := by
  have hfold := foldl_add_const c.toInt (start.intValue (iterationAt env header 0)) k
  simpa [SCEV.intValue, SCEV.intValueAt, iterationAt] using hfold

/-- What a recurrence with the given start and step was accepted for. -/
structure BoundedByExitCondition (nest : LoopNest F V B) (sizeSCEV : AnySCEV V B)
    (iv : InductionVariable V) {w : Nat} (start step : SCEV V B w) (attr : LoopAttribution V B)
    (c : BitVec w) : Prop where
  attribution : attributionOf nest iv = some (some attr)
  inductionVariable : attr.getInductionVariable = iv
  isUpperBounded : isUpperBounded attr = true
  step_eq : step = .constant c
  nonneg : c.msb = false
  phi : ∃ w' phiHeader, ∃ phiStart phiStep : SCEV V B w',
    nest.getSCEV iv.getLoopEntryPHI = some ⟨w', .addRecExpr phiHeader phiStart phiStep⟩ ∧
      start.scevsMatch phiStart = some true ∧ step.scevsMatch phiStep = some true
  withinSize : ∃ conditionSCEV, nest.getSCEV attr.getExitConditionValue = some conditionSCEV ∧
    isWithinSize conditionSCEV sizeSCEV = true

/-- What an accepted exit condition looks like. -/
theorem isBoundedByExitCondition_cases {step : SCEV V B w}
    (h : isBoundedByExitCondition nest sizeSCEV iv start step = some true) :
    ∃ attr c, BoundedByExitCondition nest sizeSCEV iv start step attr c := by
  obtain ⟨⟨w', phi⟩, hphi, h⟩ := bind_eq_some_iff.mp h
  cases phi with
  | addRecExpr phiHeader phiStart phiStep =>
      obtain ⟨b, hstart, h⟩ := bind_eq_some_iff.mp h
      cases b with
      | false => nomatch h
      | true =>
          obtain ⟨b, hstep, h⟩ := bind_eq_some_iff.mp h
          cases b with
          | false => nomatch h
          | true =>
              obtain ⟨found, hattr, h⟩ := bind_eq_some_iff.mp h
              cases found with
              | none => nomatch h
              | some attr =>
                  by_cases hiv : attr.getInductionVariable = iv
                  swap
                  · simp [hiv] at h
                  cases step with
                  | constant c =>
                      simp only [hiv, ne_eq, not_true_eq_false, if_false, SCEV.asConstant] at h
                      by_cases hnot :
                        ((⟨_, c⟩ : ConstantInt).isNegative || !isUpperBounded attr) = true
                      · rw [if_pos hnot] at h
                        nomatch h
                      · rw [if_neg hnot] at h
                        obtain ⟨conditionSCEV, hcondition, h⟩ := bind_eq_some_iff.mp h
                        simp only [Bool.or_eq_true, not_or, Bool.not_eq_true,
                          Bool.not_eq_false'] at hnot
                        exact ⟨attr, c, hattr, hiv, hnot.2, rfl, hnot.1,
                          ⟨w', phiHeader, phiStart, phiStep, hphi, hstart, hstep⟩,
                          conditionSCEV, hcondition, some.inj h⟩
                  | _ => simp [hiv, SCEV.asConstant] at h
  | _ => exact absurd h nofun

/-- What an accepted subscript looks like. -/
theorem isSubscriptBounded_cases {instIVPair : Option (V × InductionVariable V)}
    (h : isSubscriptBounded nest sizeSCEV instIVPair = some true) :
    ∃ inst iv scev w header, ∃ start step : SCEV V B w, ∃ attr c,
      instIVPair = some (inst, iv) ∧ nest.getSCEV inst = some scev ∧
        stripCast scev = ⟨w, .addRecExpr header start step⟩ ∧
          BoundedByExitCondition nest sizeSCEV iv start step attr c := by
  cases instIVPair with
  | none => nomatch h
  | some pair =>
      obtain ⟨inst, iv⟩ := pair
      unfold isSubscriptBounded at h
      cases hscev : nest.getSCEV inst with
      | none => simp [hscev] at h
      | some scev =>
          simp only [hscev] at h
          split_ifs at h with hskip
          · nomatch h
          · generalize hbase : stripCast scev = base at h
            obtain ⟨w, e⟩ := base
            cases e with
            | addRecExpr header start step =>
                obtain ⟨attr, c, hbounded⟩ := isBoundedByExitCondition_cases h
                exact ⟨inst, iv, scev, w, header, start, step, attr, c, rfl, hscev, hbase, hbounded⟩
            | _ => nomatch h

theorem isInnerDimensionSubscriptsBounded_cases {space : MemoryAccessSpace V B}
    (h : isInnerDimensionSubscriptsBounded nest space = some true) :
    space.subscriptIVs.length = space.sizes.length ∧
      ∀ d ∈ innerDimensions space, isSubscriptBounded nest d.1 d.2 = some true := by
  unfold isInnerDimensionSubscriptsBounded at h
  split_ifs at h with hlength
  · nomatch h
  · refine ⟨by simp at hlength; exact hlength.2, ?_⟩
    generalize innerDimensions space = l at h
    induction l with
    | nil => exact nofun
    | cons d l ih =>
        obtain ⟨b, hb, h⟩ := bind_eq_some_iff.mp h
        cases b with
        | false => nomatch h
        | true =>
            intro d' hd'
            exact (mem_cons.mp hd').elim (fun heq => heq ▸ hb) (ih h d')

omit [DecidableEq V] in
theorem valueOf_iterationAt {scev : AnySCEV V B} {c : BitVec w}
    (hscev : nest.getSCEV inst = some scev)
    (hbase : stripCast scev = ⟨w, .addRecExpr header start (.constant c)⟩) (env : SCEVEnv V B)
    (k : Nat) :
    valueOf nest (iterationAt env header k) inst =
      start.intValue (iterationAt env header 0) + k * c.toInt := by
  rw [valueOf, hscev]
  change scev.2.intValue _ = _
  rw [← intValue_stripCast, hbase]
  exact intValue_addRecExpr start c env header k

theorem eq_constant_of_scevsMatch {w' : Nat} {c : BitVec w} {e : SCEV V B w'}
    (h : SCEV.scevsMatch (.constant c) e = some true) :
    ∃ c', e = .constant c' ∧ c'.toInt = c.toInt := by
  rcases SCEV.scevsMatch_cases h with heq | ⟨_, c', hc, rfl, heq⟩
  · obtain ⟨rfl, heq⟩ := Sigma.mk.inj_iff.mp heq
    exact ⟨c, (eq_of_heq heq).symm, rfl⟩
  · obtain rfl := SCEV.constant.inj hc
    exact ⟨c', rfl, heq.symm⟩

/-! ## The exit test -/

omit [DecidableEq V] [DecidableEq B] in
theorem eq_add_of_operandsOfTwo {lhs rhs : SCEV V B w}
    (h : operandsOfTwo e = some (lhs, rhs)) : e = .operator .add lhs rhs := by
  unfold operandsOfTwo at h
  split at h
  · exact absurd h nofun
  · exact absurd h nofun
  · obtain ⟨rfl, rfl⟩ := Prod.mk.inj (some.inj h)
    rfl
  · exact absurd h nofun

omit [DecidableEq V] in
theorem intValue_of_asConstant (h : e.asConstant = some c)
    (env : SCEVEnv V B) : e.intValue env = c.value.toInt := by
  cases e with
  | constant value =>
      cases h
      rfl
  | _ => exact absurd h nofun

theorem toInt_nonpos_of_isNegative (hneg : c.isNegative = true) : c.value.toInt ≤ 0 :=
  (of_decide_eq_true ((BitVec.msb_eq_toInt).symm.trans hneg)).le

/-- An accepted condition is the size less a constant. -/
theorem intValue_of_isWithinSize {conditionSCEV : AnySCEV V B}
    (h : isWithinSize conditionSCEV sizeSCEV = true) :
    ∃ offset ≤ (0 : Int), ∀ env : SCEVEnv V B,
      conditionSCEV.2.intValue env = sizeSCEV.2.intValue env + offset := by
  simp only [← intValue_stripCast conditionSCEV, ← intValue_stripCast sizeSCEV]
  unfold isWithinSize at h
  generalize stripCast conditionSCEV = condition at h
  generalize stripCast sizeSCEV = size at h
  obtain ⟨w, e⟩ := condition
  by_cases heq : (⟨w, e⟩ : AnySCEV V B) = size
  · exact ⟨0, le_rfl, fun env => by rw [← heq, add_zero]⟩
  · simp only [heq, if_false] at h
    cases hoperands : operandsOfTwo e with
    | none => simp [hoperands] at h
    | some operands =>
        obtain ⟨lhs, rhs⟩ := operands
        obtain rfl := eq_add_of_operandsOfTwo hoperands
        simp only [hoperands] at h
        have hsum : ∀ env, (SCEV.operator SCEVOperator.add lhs rhs).intValue env =
            lhs.intValue env + rhs.intValue env := fun _ => rfl
        have hsize : ∀ e' : SCEV V B w, (⟨w, e'⟩ : AnySCEV V B) = size →
            ∀ env, e'.intValue env = size.2.intValue env := fun e' he' env => by rw [← he']
        by_cases hl : (⟨w, lhs⟩ : AnySCEV V B) = size
        · by_cases hr : (⟨w, rhs⟩ : AnySCEV V B) = size
          · simp [hl, hr] at h
          · simp only [hl, hr, decide_true, decide_false, Bool.xor_false, if_true] at h
            cases hconst : rhs.asConstant with
            | none => simp [hconst] at h
            | some c =>
                rw [hconst] at h
                refine ⟨_, toInt_nonpos_of_isNegative h, fun env => ?_⟩
                rw [hsum, hsize lhs hl, intValue_of_asConstant hconst]
        · by_cases hr : (⟨w, rhs⟩ : AnySCEV V B) = size
          · simp only [hl, hr, decide_true, decide_false, Bool.false_xor, if_true,
              Bool.false_eq_true, if_false] at h
            cases hconst : lhs.asConstant with
            | none => simp [hconst] at h
            | some c =>
                rw [hconst] at h
                refine ⟨_, toInt_nonpos_of_isNegative h, fun env => ?_⟩
                rw [hsum, hsize rhs hr, intValue_of_asConstant hconst, add_comm]
          · simp [hl, hr] at h

omit [DecidableEq B] in
theorem isConditionLHS_eq (attr : LoopAttribution V B) :
    decide (attr.governing.headerCmp.operand0 = attr.getExitConditionValue) =
      !attr.governing.doesOriginalCmpInstHaveIVAsLeftOperand := by
  have hne := attr.governing.operands_ne
  unfold LoopGoverningInductionVariable.doesOriginalCmpInstHaveIVAsLeftOperand
    LoopAttribution.getExitConditionValue
  rcases attr.governing.valueToCompare_mem with heq | heq
  · simp [heq, hne]
  · simp [heq, hne, hne.symm]

omit [DecidableEq V] in
theorem exitOnFalse_eq (attr : LoopAttribution V B) :
    decide (attr.governing.exitBlock = attr.governing.headerBr.successor1) =
      !attr.governing.conditionExitsOnTrue := by
  have hne := attr.governing.successors_ne
  unfold LoopGoverningInductionVariable.conditionExitsOnTrue
  rcases attr.governing.exitBlock_mem with heq | heq
  · simp [heq, hne]
  · simp [heq, hne]

theorem leavesUpwards_exitPredicate {attr : LoopAttribution V B} (h : isUpperBounded attr = true) :
    LeavesUpwards attr.governing.exitPredicate := by
  unfold isUpperBounded at h
  unfold LoopGoverningInductionVariable.exitPredicate LeavesUpwards
  simp only [isConditionLHS_eq, exitOnFalse_eq] at h
  generalize attr.governing.headerCmp.predicate = predicate at h ⊢
  generalize attr.governing.conditionExitsOnTrue = exitsOnTrue at h ⊢
  generalize attr.governing.doesOriginalCmpInstHaveIVAsLeftOperand = isLeft at h ⊢
  cases predicate <;> cases exitsOnTrue <;> cases isLeft <;>
    simp_all [strictPredicate, ICmpPredicate.inverse, ICmpPredicate.swapped]

omit [DecidableEq B] in
theorem holdsInt_operands (attr : LoopAttribution V B) (p : ICmpPredicate) (values : V → Int) :
    p.holdsInt (values attr.governing.headerCmp.operand0) (values attr.governing.headerCmp.operand1) =
      (if attr.governing.doesOriginalCmpInstHaveIVAsLeftOperand then p else p.swapped).holdsInt
        (values attr.governing.valueToCompare) (values attr.getExitConditionValue) := by
  have hne := attr.governing.operands_ne
  unfold LoopGoverningInductionVariable.doesOriginalCmpInstHaveIVAsLeftOperand
    LoopAttribution.getExitConditionValue
  rcases attr.governing.valueToCompare_mem with heq | heq
  · rw [heq, decide_eq_true rfl, if_pos rfl, if_pos rfl]
  · rw [heq, decide_eq_false hne, if_neg Bool.false_ne_true, if_neg hne.symm,
      ICmpPredicate.holdsInt_swapped]

theorem leavesLoop_eq (nest : LoopNest F V B) (attr : LoopAttribution V B) (env : SCEVEnv V B)
    (header : B) (k : Nat) : leavesLoop nest attr env header k =
      attr.governing.exitPredicate.holdsInt
        (valueOf nest (iterationAt env header k) attr.governing.valueToCompare)
        (valueOf nest (iterationAt env header k) attr.getExitConditionValue) := by
  have hne := attr.governing.successors_ne
  unfold leavesLoop LoopGoverningInductionVariable.exitPredicate
    LoopGoverningInductionVariable.conditionExitsOnTrue
  dsimp only
  rw [holdsInt_operands]
  rcases attr.governing.exitBlock_mem with heq | heq
  · rw [heq, decide_eq_true rfl]
    cases attr.governing.doesOriginalCmpInstHaveIVAsLeftOperand <;>
      simp [hne.symm]
  · rw [heq, decide_eq_false hne]
    cases attr.governing.doesOriginalCmpInstHaveIVAsLeftOperand <;>
      simp [hne, ICmpPredicate.holdsInt_inverse, ICmpPredicate.holdsInt_swapped]

/-! ## The accepted subscripts -/

/-- What holds of an accepted subscript and the governing induction variable in every iteration. -/
structure AcceptedSubscript (nest : LoopNest F V B) (env : SCEVEnv V B) (header : B)
    (sizeSCEV : AnySCEV V B) (inst : V) (iv : InductionVariable V) (attr : LoopAttribution V B)
    (step : Int) : Prop where
  isUpperBounded : isUpperBounded attr = true
  nonneg : 0 ≤ step
  recurrence_eq : ((recurrenceOf nest inst).map fun r => r.2.2.intValue env).getD 0 = step
  subscript_eq : ∀ k : Nat, valueOf nest (iterationAt env header k) inst =
    valueOf nest (iterationAt env header 0) inst + k * step
  phi_eq : ∀ k, valueOf nest (iterationAt env header k) iv.getLoopEntryPHI =
    valueOf nest (iterationAt env header k) inst
  size_eq : ∀ k, sizeSCEV.2.intValue (iterationAt env header k) =
    sizeSCEV.2.intValue (iterationAt env header 0)
  exitValue_eq : ∀ k, valueOf nest (iterationAt env header k) attr.getExitConditionValue =
    valueOf nest (iterationAt env header 0) attr.getExitConditionValue
  exitValue_le : valueOf nest (iterationAt env header 0) attr.getExitConditionValue ≤
    sizeSCEV.2.intValue (iterationAt env header 0)

/-- What was accepted, in every environment in which the variable evolves. -/
theorem acceptedSubscript (h : isSubscriptBounded nest sizeSCEV (some (inst, iv)) = some true) :
    ∃ attr, attributionOf nest iv = some (some attr) ∧
      ∀ {env header}, EvolvesIn nest env header sizeSCEV inst iv.getLoopEntryPHI →
        ∃ step, AcceptedSubscript nest env header sizeSCEV inst iv attr step := by
  obtain ⟨inst', iv', scev, w, header', start, step, attr, c, heq, hscev, hbase, hbounded⟩ :=
    isSubscriptBounded_cases h
  obtain ⟨rfl, rfl⟩ := Prod.mk.inj (some.inj heq)
  obtain rfl := hbounded.step_eq
  refine ⟨attr, hbounded.attribution, fun {env header} hevolves => ⟨c.toInt, ?_⟩⟩
  have hrecurrence : recurrenceOf nest inst = some (header', ⟨w, .constant c⟩) := by
    simp [recurrenceOf, hscev, hbase]
  obtain rfl : header' = header := by
    have hheader := hevolves.header_eq
    rw [hrecurrence] at hheader
    exact some.inj hheader
  have hinst := valueOf_iterationAt hscev hbase env
  obtain ⟨w', phiHeader, phiStart, phiStep, hphi, hstart, hstep⟩ := hbounded.phi
  obtain ⟨c', rfl, hc'⟩ := eq_constant_of_scevsMatch hstep
  have hphiRecurrence : recurrenceOf nest iv.getLoopEntryPHI =
      some (phiHeader, ⟨w', .constant c'⟩) := by
    simp [recurrenceOf, hphi, stripCast]
  obtain rfl : phiHeader = header' := by
    have hheader := hevolves.phi_header_eq
    rw [hphiRecurrence] at hheader
    exact some.inj hheader
  have hphi' := valueOf_iterationAt hphi rfl env
  obtain ⟨conditionSCEV, hcondition, hwithin⟩ := hbounded.withinSize
  obtain ⟨offset, hoffset, hvalue⟩ := intValue_of_isWithinSize hwithin
  have hexit : ∀ k, valueOf nest (iterationAt env phiHeader k) attr.getExitConditionValue =
      sizeSCEV.2.intValue (iterationAt env phiHeader 0) + offset := by
    intro k
    rw [valueOf, hcondition, ← hevolves.invariant k]
    exact hvalue _
  exact
    { isUpperBounded := hbounded.isUpperBounded
      nonneg := not_lt.mp (of_decide_eq_false ((BitVec.msb_eq_toInt).symm.trans hbounded.nonneg))
      recurrence_eq := by
        rw [hrecurrence]
        rfl
      subscript_eq := fun k => by rw [hinst k, hinst 0, Nat.cast_zero, zero_mul, add_zero]
      phi_eq := fun k => by
        rw [hphi' k, hinst k, SCEV.intValue_of_scevsMatch hstart, hc']
      size_eq := hevolves.invariant
      exitValue_eq := fun k => by rw [hexit k, hexit 0]
      exitValue_le := by
        rw [hexit 0]
        omega }

namespace AcceptedSubscript

variable {sizeSCEV : AnySCEV V B} {inst : V} {iv : InductionVariable V} {attr : LoopAttribution V B}
  {step : Int}

section

variable (h : AcceptedSubscript nest env header sizeSCEV inst iv attr step)

include h

theorem isInRange_iff_staysInRange :
    IsInRange nest attr env header sizeSCEV inst ↔
      StaysInRange (leavesLoop nest attr env header)
        (valueOf nest (iterationAt env header 0) inst) step
        (sizeSCEV.2.intValue (iterationAt env header 0)) := by
  refine forall₂_congr fun k _ => ?_
  rw [h.size_eq k, h.subscript_eq k]

/-- **One dimension**: the subscript stays in range if and only if it starts there and the loop is left
by the iteration in which it would reach the size. -/
theorem isInRange_iff :
    IsInRange nest attr env header sizeSCEV inst ↔
      StartsInRangeAndLeaves nest attr env header sizeSCEV inst := by
  rw [h.isInRange_iff_staysInRange, staysInRange_iff h.nonneg, StartsInRangeAndLeaves,
    h.recurrence_eq]

/-- **One dimension, by the exit test** of the induction variable. -/
theorem isInRange_iff_of_test (hcompares : attr.governing.valueToCompare = iv.getLoopEntryPHI) :
    IsInRange nest attr env header sizeSCEV inst ↔
      BoundsByExitTest nest attr env header sizeSCEV inst := by
  have hleaves : leavesLoop nest attr env header = fun k : Nat =>
      attr.governing.exitPredicate.holdsInt (valueOf nest (iterationAt env header 0) inst + k * step)
        (valueOf nest (iterationAt env header 0) attr.getExitConditionValue) := by
    funext k
    rw [leavesLoop_eq, hcompares, h.phi_eq k, h.subscript_eq k, h.exitValue_eq k]
  rw [h.isInRange_iff_staysInRange, BoundsByExitTest, h.recurrence_eq, hleaves]
  exact staysInRange_iff_of_test (leavesUpwards_exitPredicate h.isUpperBounded) h.nonneg
    h.exitValue_le

end

end AcceptedSubscript

end Values

/-! ## A loop over a row -/

/-- `for (i = 0; i < n; i++) A[..][i]`, with the test given by its predicate. -/
inductive RowValue
  | i
  | n
  deriving DecidableEq

inductive RowBlock
  | header
  | body
  | exit
  deriving DecidableEq

def rowIV : InductionVariable RowValue where
  getLoopEntryPHI := .i
  getAllInstructions := PtrSet.ofList [.i]
  getDerivedSCEVInstructions := ∅
  loopEntryPHI_mem := by decide

def rowAttribution (predicate : ICmpPredicate) : LoopAttribution RowValue RowBlock where
  getInductionVariable := rowIV
  width := 64
  governing :=
    { headerCmp := ⟨predicate, .i, .n⟩
      headerBr := ⟨.body, .exit⟩
      exitBlock := .exit
      valueToCompare := .i
      stepValue := 1
      operands_ne := by simp
      valueToCompare_mem := .inl rfl
      successors_ne := by decide
      exitBlock_mem := .inr rfl }

def rowNest (predicate : ICmpPredicate) : LoopNest Unit RowValue RowBlock where
  getSCEV
    | .i => some ⟨64, .addRecExpr .header (.constant 0) (.constant 1)⟩
    | .n => some ⟨64, .constant 10⟩
  isIntegerType _ := true
  getParent _ := .header
  loops := .node ⟨0, (), .header, 1, PtrSet.ofList [.header, .body]⟩ []
  getLoopGoverningInductionVariable _ := some (rowAttribution predicate)

/-- Rows of ten elements of eight bytes. -/
def rowSpace : MemoryAccessSpace RowValue RowBlock where
  sizes := [⟨64, .constant 10⟩, ⟨64, .constant 8⟩]
  subscriptIVs := [none, some (.i, rowIV)]

/-- The outer loops are in their first iteration. -/
def rowEnv : SCEVEnv RowValue RowBlock := ⟨fun _ => 0, fun _ => 0⟩

theorem rowNest_evolvesIn (predicate : ICmpPredicate) :
    EvolvesIn (rowNest predicate) rowEnv .header ⟨64, .constant 10⟩ .i .i :=
  ⟨rfl, rfl, fun _ => rfl⟩

variable {F V B : Type} [DecidableEq V] [DecidableEq B]

/-- **Inner dimensions**: where the check succeeds, an inner subscript is in the range of its dimension
in every iteration if and only if it starts there and the loop is left by the iteration in which it
would reach the size.  For a test of the induction variable that means a start that is not negative,
and a test that does not let the size through or step over its bound. -/
theorem isInnerDimensionSubscriptsBounded_inRange_iff {nest : LoopNest F V B}
    {space : MemoryAccessSpace V B}
    (h : isInnerDimensionSubscriptsBounded nest space = some true) :
    ∀ d ∈ innerDimensions space, ∃ inst iv attr, d.2 = some (inst, iv) ∧
      attributionOf nest iv = some (some attr) ∧
        ∀ env : SCEVEnv V B,
          let header := nest.getParent iv.getLoopEntryPHI
          EvolvesIn nest env header d.1 inst iv.getLoopEntryPHI →
            (IsInRange nest attr env header d.1 inst ↔
              StartsInRangeAndLeaves nest attr env header d.1 inst) ∧
            (attr.governing.valueToCompare = iv.getLoopEntryPHI →
              (IsInRange nest attr env header d.1 inst ↔
                BoundsByExitTest nest attr env header d.1 inst)) := by
  rintro ⟨sizeSCEV, instIVPair⟩ hd
  have hbounded := (isInnerDimensionSubscriptsBounded_cases h).2 _ hd
  obtain ⟨inst, iv, _, _, _, _, _, _, _, heq, -⟩ := isSubscriptBounded_cases hbounded
  dsimp only at heq hbounded
  rw [heq] at hbounded
  obtain ⟨attr, hattr, haccepted⟩ := acceptedSubscript hbounded
  refine ⟨inst, iv, attr, heq, hattr, fun env => ?_⟩
  intro header hevolves
  obtain ⟨step, hstep⟩ := haccepted hevolves
  exact ⟨hstep.isInRange_iff, hstep.isInRange_iff_of_test⟩

/-- `i < n` keeps the subscript in the row. -/
theorem isInnerDimensionSubscriptsBounded_inRange_slt :
    IsInRange (rowNest .slt) (rowAttribution .slt) rowEnv .header ⟨64, .constant 10⟩ .i := by
  have haccepted : isInnerDimensionSubscriptsBounded (rowNest .slt) rowSpace = some true := rfl
  obtain ⟨inst, iv, attr, heq, hattr, hiff⟩ := isInnerDimensionSubscriptsBounded_inRange_iff
    haccepted (⟨64, .constant 10⟩, some (.i, rowIV)) (mem_singleton.mpr rfl)
  obtain ⟨rfl, rfl⟩ := Prod.mk.inj (some.inj heq)
  obtain rfl := some.inj (some.inj hattr)
  refine ((hiff rowEnv (rowNest_evolvesIn .slt)).2 rfl).mpr fun _ => ?_
  exact (by decide : (0 : Int) ≤ 0)

/-- `i <= n` is accepted, and the last iteration accesses the next row. -/
theorem isInnerDimensionSubscriptsBounded_sle :
    isInnerDimensionSubscriptsBounded (rowNest .sle) rowSpace = some true ∧
      (⟨64, .constant 10⟩, some (.i, rowIV)) ∈ innerDimensions rowSpace ∧
        ¬ IsInRange (rowNest .sle) (rowAttribution .sle) rowEnv .header ⟨64, .constant 10⟩ .i := by
  refine ⟨rfl, mem_singleton.mpr rfl, fun h => ?_⟩
  have hexecuted : ExecutedAt (leavesLoop (rowNest .sle) (rowAttribution .sle) rowEnv .header) 10 := by
    unfold ExecutedAt
    decide
  exact absurd (h 10 hexecuted).2 (by decide)

end LoopIterationSpaceAnalysis

end Noelle
