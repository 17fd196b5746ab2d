import Noelle.Lib.Search
import Noelle.LoopForest.LoopTree
import Noelle.LoopIterationSpaceAnalysis.Basic

/-!
# InductionVariables.Governing

`LoopGoverningInductionVariable`, the attribution that `InductionVariableManager` records for the
loops of a tree.

An attribution is built from the induction variable and the exit blocks of the loop that it is recorded
for, but it keeps the root of the tree as its loop.  `valueOfExitConditionToJumpToTheLoopBody` then asks
whether the true successor of the branch is in the root.

`getLoopGoverningInductionVariable_describes_iff`: a recorded attribution describes its loop exactly if the
true successor of the branch is not a block of the root outside of the loop.
-/

namespace Noelle

open List Option

/-- What the attribution reads of an instruction.  A branch here is a conditional one. -/
inductive GoverningInst (V B : Type) where
  | branchInst (condition : V) (successor0 successor1 : B)
  | cmpInst (operand0 operand1 : V)
  | invokeInst
  | otherInst
  deriving DecidableEq

/-- What the attribution reads of an induction variable: has it a single step value that is a constant,
is its PHI node an integer or a floating-point number, and its SCC, with the sources of the data
dependences of each node. -/
structure AttributedIV (V : Type) extends InductionVariable V where
  hasConstantStep : Bool
  isIntegerOrFloatingPoint : Bool
  getNonPHIIntermediateValues : PtrSet V
  internalNodes : List V
  dataSources : V → List V

/-- A function with a tree of loops and their induction variables. -/
structure LoopsWithIVs (F V B : Type) [DecidableEq F] [DecidableEq B] where
  kind : V → GoverningInst V B
  getParent : V → B
  getTerminator : B → V
  successors : B → List B
  loops : LoopTree F B
  phis : B → List V
  /-- The induction variable that the manager has allocated for a header PHI node of a loop. -/
  inductionVariableOf : LoopStructure F B → V → Option (AttributedIV V)
  phis_parent : ∀ b, ∀ phi ∈ phis b, getParent phi = b
  loopEntryPHI_eq : ∀ l phi iv, inductionVariableOf l phi = some iv → iv.getLoopEntryPHI = phi
  branch_terminates : ∀ v condition successor0 successor1,
    kind v = .branchInst condition successor0 successor1 →
      getTerminator (getParent v) = v ∧ successors (getParent v) = [successor0, successor1]
  header_mem : ∀ l ∈ loops.getLoops, l.header ∈ l.bbs
  bbs_subset : ∀ l ∈ loops.getLoops, ∀ b ∈ l.bbs, b ∈ loops.getLoop.bbs
  /-- A loop comes back to its header. -/
  header_successor : ∀ l ∈ loops.getLoops, ∃ b ∈ successors l.header, b ∈ l.bbs

/-- The members of a `LoopGoverningInductionVariable` that is well formed. -/
structure GoverningAttribution (F V B : Type) where
  loop : LoopStructure F B
  loopEntryPHI : V
  intermediateValueUsedInCompare : V
  conditionValue : V
  headerCmp : V
  headerBr : V
  exitBlock : B

variable {F V B : Type} [DecidableEq F] [DecidableEq V] [DecidableEq B]

namespace GoverningAttribution

variable (ord : IterOrder) (fn : LoopsWithIVs F V B)

/-- The loop over the SCC: its only conditional branch, if it has no invoke. -/
def loopGoverningTerminator : List V → Option V → Option V
  | [], loopGoverningTerminator => loopGoverningTerminator
  | value :: values, found =>
      match fn.kind value with
      | .invokeInst => none
      | .branchInst _ _ _ =>
          if found.isSome then none else loopGoverningTerminator values (some value)
      | _ => loopGoverningTerminator values found

/-- `intermediateValueUsedInCompare` and `conditionValue`. -/
def comparedValues (iv : AttributedIV V) (opL opR : V) : Option (V × V) :=
  let isOpLHSLoopEntryPHI := decide (opL = iv.getLoopEntryPHI)
  let isOpRHSLoopEntryPHI := decide (opR = iv.getLoopEntryPHI)
  if isOpLHSLoopEntryPHI ^^ isOpRHSLoopEntryPHI then
    if isOpLHSLoopEntryPHI then some (opL, opR) else some (opR, opL)
  else
    ((ord.visit iv.getNonPHIIntermediateValues.elems).find? fun intermediateValue =>
      decide (intermediateValue = opR) || decide (intermediateValue = opL)).map fun intermediateValue =>
        if intermediateValue = opR then (intermediateValue, opL) else (intermediateValue, opR)

def getLoopExitBasicBlocks (l : LoopStructure F B) : List B :=
  (l.bbs.elems.flatMap fn.successors).filter fun b => !l.isIncluded b

def exitBlockOf (exitBlocks : List B) (successor0 successor1 : B) : Option B :=
  if successor0 ∈ exitBlocks then some successor0
  else if successor1 ∈ exitBlocks then some successor1
  else none

/-- Is the condition value of the SCC derived from the induction variable?  `none` is a search without
enough fuel. -/
def isConditionDerivedFromIV (fuel : Nat) (iv : AttributedIV V) (conditionValue : V) : Option Bool :=
  if conditionValue ∈ iv.internalNodes then
    (searchAll (fun value => some ((iv.dataSources value).filter fun v => decide (v ∈ iv.internalNodes)))
      conditionValue fuel).map fun conditionValueDerivation =>
        conditionValueDerivation.elems.any iv.isIVInstruction
  else some false

/-- The constructor.  The inner `none` is an attribution that is not well formed. -/
def new (fuel : Nat) (l : LoopStructure F B) (iv : AttributedIV V) (exitBlocks : List B) :
    Option (Option (GoverningAttribution F V B)) :=
  if !iv.hasConstantStep || !iv.isIntegerOrFloatingPoint then some none
  else
    match loopGoverningTerminator fn iv.internalNodes none with
    | none => some none
    | some headerBr =>
        if fn.getParent headerBr ≠ fn.getParent iv.getLoopEntryPHI then some none
        else
          match fn.kind headerBr with
          | .branchInst headerCmp successor0 successor1 =>
              match fn.kind headerCmp with
              | .cmpInst opL opR =>
                  match comparedValues ord iv opL opR, exitBlockOf exitBlocks successor0 successor1 with
                  | some (intermediateValue, conditionValue), some exitBlock =>
                      (isConditionDerivedFromIV fuel iv conditionValue).map fun isDerived =>
                        if isDerived then none
                        else some ⟨l, iv.getLoopEntryPHI, intermediateValue, conditionValue, headerCmp,
                          headerBr, exitBlock⟩
                  | _, _ => some none
              | _ => some none
          | _ => some none

/-- `valueOfExitConditionToJumpToTheLoopBody`.  `none` is the failed assertion that there is a branch. -/
def valueOfExitConditionToJumpToTheLoopBody (attribution : GoverningAttribution F V B) : Option Bool :=
  match fn.kind attribution.headerBr with
  | .branchInst _ succTrue _ => some (attribution.loop.isIncluded succTrue)
  | _ => none

end GoverningAttribution

namespace InductionVariableManager

open GoverningAttribution

variable (ord : IterOrder) (fn : LoopsWithIVs F V B)

/-- The attribution that the constructor records for a loop: the one of the last PHI node that has a
well-formed one. -/
def getLoopGoverningInductionVariable (fuel : Nat) (loop : LoopStructure F B) :
    Option (Option (GoverningAttribution F V B)) :=
  let loopToAnalyze := fn.loops.getLoop
  (fn.phis loop.getHeader).foldlM (fun recorded phi =>
    match fn.inductionVariableOf loop phi with
    | none => some recorded
    | some IV =>
        (new ord fn fuel loopToAnalyze IV (getLoopExitBasicBlocks fn loop)).map fun attribution =>
          attribution.or recorded) none

end InductionVariableManager

/-! ## What an attribution says of a loop -/

namespace GoverningAttribution

/-- The attribution describes the loop: its branch ends the header, the exit block is a successor outside
of the loop, the comparison is one of the recorded value of the induction variable and the condition
value, and the polarity tells in which case the header stays in the loop. -/
structure Describes (fn : LoopsWithIVs F V B) (attribution : GoverningAttribution F V B)
    (l : LoopStructure F B) : Prop where
  headerBr_eq : fn.getTerminator l.header = attribution.headerBr
  branch : ∃ successor0 successor1,
    fn.kind attribution.headerBr = .branchInst attribution.headerCmp successor0 successor1 ∧
      (attribution.exitBlock = successor0 ∨ attribution.exitBlock = successor1) ∧
      attribution.exitBlock ∉ l.bbs ∧
      ∃ polarity, attribution.valueOfExitConditionToJumpToTheLoopBody fn = some polarity ∧
        (polarity = true ↔ successor0 ∈ l.bbs) ∧
        ∀ holds, (if holds then successor0 else successor1) ∈ l.bbs ↔ holds = polarity
  compare : ∃ opL opR, fn.kind attribution.headerCmp = .cmpInst opL opR ∧
    ((attribution.intermediateValueUsedInCompare = opL ∧ attribution.conditionValue = opR) ∨
      (attribution.intermediateValueUsedInCompare = opR ∧ attribution.conditionValue = opL))

section Recorded

variable {ord : IterOrder} {fn : LoopsWithIVs F V B} {fuel : Nat} {l : LoopStructure F B}
  {iv : AttributedIV V} {exitBlocks : List B} {attribution : GoverningAttribution F V B}

omit [DecidableEq V] in
/-- The terminator found is a conditional branch. -/
theorem kind_of_loopGoverningTerminator {br : V} : ∀ {values : List V} {found : Option V},
    (∀ v, found = some v → ∃ c s0 s1, fn.kind v = .branchInst c s0 s1) →
      loopGoverningTerminator fn values found = some br → ∃ c s0 s1, fn.kind br = .branchInst c s0 s1
  | [], _, hfound, h => hfound br h
  | value :: values, found, hfound, h => by
      unfold loopGoverningTerminator at h
      cases hkind : fn.kind value with
      | invokeInst =>
          rw [hkind] at h
          cases h
      | branchInst c s0 s1 =>
          rw [hkind] at h
          dsimp only at h
          split_ifs at h
          refine kind_of_loopGoverningTerminator (fun v hv => ?_) h
          cases hv
          exact ⟨c, s0, s1, hkind⟩
      | cmpInst a b =>
          rw [hkind] at h
          exact kind_of_loopGoverningTerminator hfound h
      | otherInst =>
          rw [hkind] at h
          exact kind_of_loopGoverningTerminator hfound h

theorem comparedValues_cases {opL opR x y : V} (h : comparedValues ord iv opL opR = some (x, y)) :
    (x = opL ∧ y = opR) ∨ (x = opR ∧ y = opL) := by
  unfold comparedValues at h
  dsimp only at h
  split_ifs at h with hxor hleft
  · obtain ⟨rfl, rfl⟩ := Prod.mk.inj (some.inj h)
    exact .inl ⟨rfl, rfl⟩
  · obtain ⟨rfl, rfl⟩ := Prod.mk.inj (some.inj h)
    exact .inr ⟨rfl, rfl⟩
  · obtain ⟨z, hz, hpair⟩ := map_eq_some_iff.mp h
    have hmatch := List.find?_some hz
    rw [Bool.or_eq_true, decide_eq_true_eq, decide_eq_true_eq] at hmatch
    split_ifs at hpair with hright
    · obtain ⟨rfl, rfl⟩ := Prod.mk.inj hpair
      exact .inr ⟨hright, rfl⟩
    · obtain ⟨rfl, rfl⟩ := Prod.mk.inj hpair
      exact .inl ⟨hmatch.resolve_left hright, rfl⟩

/-- What an attribution that was made consists of. -/
theorem new_cases (h : new ord fn fuel l iv exitBlocks = some (some attribution)) :
    attribution.loop = l ∧ fn.getParent attribution.headerBr = fn.getParent iv.getLoopEntryPHI ∧
      (∃ s0 s1, fn.kind attribution.headerBr = .branchInst attribution.headerCmp s0 s1 ∧
        exitBlockOf exitBlocks s0 s1 = some attribution.exitBlock) ∧
      ∃ opL opR, fn.kind attribution.headerCmp = .cmpInst opL opR ∧
        comparedValues ord iv opL opR =
          some (attribution.intermediateValueUsedInCompare, attribution.conditionValue) := by
  unfold new at h
  split_ifs at h with hunknown
  · cases some.inj h
  · cases hbr : loopGoverningTerminator fn iv.internalNodes none with
    | none =>
        rw [hbr] at h
        cases some.inj h
    | some headerBr =>
        obtain ⟨headerCmp, s0, s1, hkind⟩ :=
          kind_of_loopGoverningTerminator (fun v hv => absurd hv (by simp)) hbr
        rw [hbr] at h
        dsimp only at h
        split_ifs at h with hparent
        · cases some.inj h
        · rw [hkind] at h
          dsimp only at h
          cases hcmp : fn.kind headerCmp with
          | cmpInst opL opR =>
              rw [hcmp] at h
              dsimp only at h
              cases hvalues : comparedValues ord iv opL opR with
              | none =>
                  rw [hvalues] at h
                  cases some.inj h
              | some values =>
                  obtain ⟨x, y⟩ := values
                  cases hexit : exitBlockOf exitBlocks s0 s1 with
                  | none =>
                      rw [hvalues, hexit] at h
                      cases some.inj h
                  | some exitBlock =>
                      rw [hvalues, hexit] at h
                      obtain ⟨isDerived, _, h⟩ := map_eq_some_iff.mp h
                      split_ifs at h
                      cases h
                      exact ⟨rfl, not_not.mp hparent, ⟨s0, s1, hkind, hexit⟩, opL, opR, hcmp, hvalues⟩
          | branchInst c a b =>
              rw [hcmp] at h
              cases some.inj h
          | invokeInst =>
              rw [hcmp] at h
              cases some.inj h
          | otherInst =>
              rw [hcmp] at h
              cases some.inj h

omit [DecidableEq F] [DecidableEq V] in
theorem exitBlockOf_cases {s0 s1 b : B} (h : exitBlockOf exitBlocks s0 s1 = some b) :
    (b = s0 ∨ b = s1) ∧ b ∈ exitBlocks := by
  unfold exitBlockOf at h
  split_ifs at h with h0 h1
  · cases h
    exact ⟨.inl rfl, h0⟩
  · cases h
    exact ⟨.inr rfl, h1⟩

omit [DecidableEq V] in
theorem mem_getLoopExitBasicBlocks {b : B} :
    b ∈ getLoopExitBasicBlocks fn l ↔ (∃ a ∈ l.bbs, b ∈ fn.successors a) ∧ b ∉ l.bbs := by
  simp [getLoopExitBasicBlocks, LoopStructure.isIncluded]

end Recorded

end GoverningAttribution

namespace InductionVariableManager

open GoverningAttribution

variable {ord : IterOrder} {fn : LoopsWithIVs F V B} {fuel : Nat} {l : LoopStructure F B}
  {attribution : GoverningAttribution F V B}

/-- A recorded attribution was built for a PHI node of the header, and keeps the root of the tree. -/
theorem new_of_recorded
    (h : getLoopGoverningInductionVariable ord fn fuel l = some (some attribution)) :
    ∃ phi ∈ fn.phis l.header, ∃ iv, fn.inductionVariableOf l phi = some iv ∧
      new ord fn fuel fn.loops.getLoop iv (getLoopExitBasicBlocks fn l) = some (some attribution) := by
  have hbuilt : ∀ recorded, some recorded = some (some attribution) →
      ∀ a, recorded = some a → ∃ phi ∈ fn.phis l.header, ∃ iv, fn.inductionVariableOf l phi = some iv ∧
        new ord fn fuel fn.loops.getLoop iv (getLoopExitBasicBlocks fn l) = some (some a) := by
    intro recorded hrecorded
    refine foldlM_preserves _ (fun recorded => ∀ a, recorded = some a → ∃ phi ∈ fn.phis l.header,
      ∃ iv, fn.inductionVariableOf l phi = some iv ∧
        new ord fn fuel fn.loops.getLoop iv (getLoopExitBasicBlocks fn l) = some (some a))
      (fn.phis l.header) none recorded ?_ (h.trans hrecorded.symm) (fun a ha => by cases ha)
    intro phi hphi recorded recorded' hstep hrecorded a ha
    cases hiv : fn.inductionVariableOf l phi with
    | none =>
        rw [hiv] at hstep
        cases hstep
        exact hrecorded a ha
    | some iv =>
        rw [hiv] at hstep
        obtain ⟨found, hfound, hor⟩ := map_eq_some_iff.mp hstep
        cases found with
        | none =>
            obtain rfl : recorded = recorded' := hor
            exact hrecorded a ha
        | some b =>
            rw [some_or] at hor
            rw [← hor] at ha
            cases ha
            exact ⟨phi, hphi, iv, hiv, hfound⟩
  exact hbuilt (some attribution) rfl attribution rfl

/-- **Governing induction variables**: the attribution that is recorded for a loop describes it exactly if
the true successor of the branch of its header is in the loop, or is not in the root of the tree. -/
theorem getLoopGoverningInductionVariable_describes_iff (hl : l ∈ fn.loops.getLoops)
    (h : getLoopGoverningInductionVariable ord fn fuel l = some (some attribution)) :
    attribution.Describes fn l ↔
      ∀ condition successor0 successor1,
        fn.kind (fn.getTerminator l.header) = .branchInst condition successor0 successor1 →
          successor0 ∈ fn.loops.getLoop.bbs → successor0 ∈ l.bbs := by
  obtain ⟨phi, hphi, iv, hiv, hnew⟩ := new_of_recorded h
  obtain ⟨hloop, hparent, ⟨s0, s1, hkind, hexit⟩, opL, opR, hcmp, hvalues⟩ := new_cases hnew
  rw [fn.loopEntryPHI_eq l phi iv hiv, fn.phis_parent _ phi hphi] at hparent
  obtain ⟨hterm, hsuccs⟩ := fn.branch_terminates _ _ _ _ hkind
  rw [hparent] at hterm hsuccs
  obtain ⟨hsucc, hexitMem⟩ := exitBlockOf_cases hexit
  have houtside := (mem_getLoopExitBasicBlocks.mp hexitMem).2
  have hpolarity : attribution.valueOfExitConditionToJumpToTheLoopBody fn =
      some (decide (s0 ∈ fn.loops.getLoop.bbs)) := by
    rw [valueOfExitConditionToJumpToTheLoopBody, hkind, hloop]
    rfl
  have hstay : s0 ∈ l.bbs ∨ s1 ∈ l.bbs := by
    obtain ⟨b, hb, hmem⟩ := fn.header_successor l hl
    rw [hsuccs] at hb
    obtain rfl | hb := mem_cons.mp hb
    · exact .inl hmem
    · exact .inr (mem_singleton.mp hb ▸ hmem)
  constructor
  · intro hdescribes condition b0 b1 hbranch hroot
    rw [hterm, hkind] at hbranch
    obtain ⟨-, rfl, rfl⟩ := GoverningInst.branchInst.inj hbranch
    obtain ⟨c0, c1, hkind', -, -, polarity, hvalue, hiff, -⟩ := hdescribes.branch
    obtain ⟨-, rfl, rfl⟩ := GoverningInst.branchInst.inj (hkind.symm.trans hkind')
    rw [hpolarity, some.injEq] at hvalue
    exact hiff.mp (hvalue ▸ decide_eq_true hroot)
  · intro hinside
    have hmem : s0 ∈ fn.loops.getLoop.bbs ↔ s0 ∈ l.bbs :=
      ⟨hinside _ s0 s1 (hterm ▸ hkind), fn.bbs_subset l hl s0⟩
    -- one successor stays in the loop and the other one is the exit block
    have hone : s1 ∈ l.bbs ↔ s0 ∉ l.bbs := by
      constructor
      · intro h1 h0
        obtain heq | heq := hsucc
        · exact houtside (heq ▸ h0)
        · exact houtside (heq ▸ h1)
      · exact hstay.resolve_left
    refine ⟨hterm, ⟨s0, s1, hkind, hsucc, houtside, _, hpolarity, ?_, fun holds => ?_⟩, opL, opR, hcmp,
      comparedValues_cases hvalues⟩
    · rw [decide_eq_true_eq, hmem]
    · cases holds with
      | true =>
          rw [if_pos rfl, ← hmem]
          exact decide_eq_true_iff.symm.trans eq_comm
      | false =>
          rw [if_neg Bool.false_ne_true, hone, ← hmem]
          exact decide_eq_false_iff_not.symm.trans eq_comm

/-! ## A nest of two loops -/

/-- The PHI nodes of the two headers, the update of the inner one, the tests and the terminators. -/
inductive NestValue
  | i
  | j
  | nextJ
  | limit
  | testI
  | testJ
  | branchI
  | branchJ
  | back
  | leave
  deriving DecidableEq

inductive NestBlock
  | outerHeader
  | innerHeader
  | innerBody
  | outerLatch
  | exit
  deriving DecidableEq

def nestIV : AttributedIV NestValue where
  getLoopEntryPHI := .j
  getAllInstructions := PtrSet.ofList [.j, .nextJ]
  getDerivedSCEVInstructions := ∅
  loopEntryPHI_mem := by decide
  hasConstantStep := true
  isIntegerOrFloatingPoint := true
  getNonPHIIntermediateValues := PtrSet.ofList [.nextJ]
  internalNodes := [.j, .nextJ, .testJ, .branchJ]
  dataSources _ := []

def innerLoop : LoopStructure Unit NestBlock :=
  ⟨1, (), .innerHeader, 2, PtrSet.ofList [.innerHeader, .innerBody]⟩

def outerLoop : LoopStructure Unit NestBlock :=
  ⟨0, (), .outerHeader, 1, PtrSet.ofList [.outerHeader, .innerHeader, .innerBody, .outerLatch]⟩

/-- The successors of the inner header.  The exit block of the inner loop is the latch of the outer
one. -/
def innerSuccessor (exitsOnTrue holds : Bool) : NestBlock :=
  if holds = exitsOnTrue then .outerLatch else .innerBody

def nestKind (exitsOnTrue : Bool) : NestValue → GoverningInst NestValue NestBlock
  | .testI => .cmpInst .i .limit
  | .testJ => .cmpInst .j .limit
  | .branchI => .branchInst .testI .innerHeader .exit
  | .branchJ =>
      .branchInst .testJ (innerSuccessor exitsOnTrue true) (innerSuccessor exitsOnTrue false)
  | _ => .otherInst

def nestParent : NestValue → NestBlock
  | .i | .testI | .branchI | .limit => .outerHeader
  | .j | .testJ | .branchJ => .innerHeader
  | .nextJ | .back => .innerBody
  | .leave => .outerLatch

def nestTerminator : NestBlock → NestValue
  | .outerHeader => .branchI
  | .innerHeader => .branchJ
  | .innerBody => .back
  | _ => .leave

def nestSuccessors (exitsOnTrue : Bool) : NestBlock → List NestBlock
  | .outerHeader => [.innerHeader, .exit]
  | .innerHeader => [innerSuccessor exitsOnTrue true, innerSuccessor exitsOnTrue false]
  | .innerBody => [.innerHeader]
  | .outerLatch => [.outerHeader]
  | .exit => []

def nestPhis : NestBlock → List NestValue
  | .outerHeader => [.i]
  | .innerHeader => [.j]
  | _ => []

def nestIVOf : NestValue → Option (AttributedIV NestValue)
  | .j => some nestIV
  | _ => none

theorem mem_nest_loops {l : LoopStructure Unit NestBlock}
    (hl : l ∈ (LoopTree.node outerLoop [.node innerLoop []]).getLoops) : l = outerLoop ∨ l = innerLoop := by
  have hmem := PtrSet.mem_ofList.mp hl
  simpa [LoopTree.preOrder, LoopTree.preOrderAll] using hmem

/-- Two nested loops, of which the inner one is left if its test holds, or if it does not. -/
def nest (exitsOnTrue : Bool) : LoopsWithIVs Unit NestValue NestBlock where
  kind := nestKind exitsOnTrue
  getParent := nestParent
  getTerminator := nestTerminator
  successors := nestSuccessors exitsOnTrue
  loops := .node outerLoop [.node innerLoop []]
  phis := nestPhis
  inductionVariableOf _ := nestIVOf
  phis_parent b phi hphi := by
    cases b <;> simp only [nestPhis, mem_singleton, not_mem_nil] at hphi <;> subst hphi <;> rfl
  loopEntryPHI_eq _ phi iv hiv := by
    cases phi <;> simp only [nestIVOf, reduceCtorEq] at hiv
    exact some.inj hiv ▸ rfl
  branch_terminates v condition s0 s1 hkind := by
    cases v <;> simp only [nestKind, reduceCtorEq, GoverningInst.branchInst.injEq] at hkind
    · obtain ⟨-, rfl, rfl⟩ := hkind
      exact ⟨rfl, rfl⟩
    · obtain ⟨-, rfl, rfl⟩ := hkind
      exact ⟨rfl, rfl⟩
  header_mem l hl := by
    obtain rfl | rfl := mem_nest_loops hl <;> decide
  bbs_subset l hl := by
    obtain rfl | rfl := mem_nest_loops hl <;> decide
  header_successor l hl := by
    obtain rfl | rfl := mem_nest_loops hl
    · exact ⟨.innerHeader, .head _, by decide⟩
    · exact ⟨.innerBody, by cases exitsOnTrue <;> decide, by decide⟩

def innerAttribution : GoverningAttribution Unit NestValue NestBlock :=
  ⟨outerLoop, .j, .j, .limit, .testJ, .branchJ, .outerLatch⟩

/-- A nested loop that goes on while its test holds. -/
theorem getLoopGoverningInductionVariable_describes_inner :
    innerAttribution.Describes (nest false) innerLoop := by
  have hrecorded : getLoopGoverningInductionVariable .stored (nest false) 1 innerLoop =
      some (some innerAttribution) := by rfl
  refine (getLoopGoverningInductionVariable_describes_iff (by decide) hrecorded).mpr ?_
  intro condition s0 s1 hbranch _
  obtain ⟨-, rfl, -⟩ := GoverningInst.branchInst.inj hbranch
  decide

/-- A nested loop that is left if its test holds: the latch of the outer loop is taken for the body. -/
theorem not_describes_inner :
    getLoopGoverningInductionVariable .stored (nest true) 1 innerLoop = some (some innerAttribution) ∧
      innerAttribution.valueOfExitConditionToJumpToTheLoopBody (nest true) = some true ∧
        innerSuccessor true true ∉ innerLoop.bbs ∧
          ¬ innerAttribution.Describes (nest true) innerLoop := by
  refine ⟨by rfl, by rfl, by decide, fun h => ?_⟩
  obtain ⟨s0, s1, hkind, -, -, polarity, hvalue, hiff, -⟩ := h.branch
  obtain ⟨-, rfl, -⟩ := GoverningInst.branchInst.inj hkind
  cases hvalue
  exact absurd (hiff.mp rfl) (by decide)

end InductionVariableManager

end Noelle
