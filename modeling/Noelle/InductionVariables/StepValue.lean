import Noelle.Lib.Collections

/-!
# InductionVariables.StepValue

`deriveStepValueFromCompositeSCEV`: the step of an induction variable as instructions.

A tree of references is built along the expression and then expanded into a temporary block.  The
instructions are recorded, and the block is erased.

`deriveStepValue_exact_iff`: what is recorded computes the step exactly if nothing has been expanded.
-/

namespace Noelle

open List Option

/-- The expressions with operands that are expanded. -/
inductive StepNAryOp where
  | addExpr | mulExpr | smaxExpr
  deriving DecidableEq

/-- A step expression.  All values have the width of the PHI node. -/
inductive StepSCEV (V : Type) (w : Nat) : Type where
  | constant (value : BitVec w)
  | unknown (value : V)
  | nary (op : StepNAryOp) (operands : List (StepSCEV V w))

/-- A value: a constant, a value of the function, or an instruction of the temporary block. -/
inductive StepOperand (V : Type) (w : Nat) : Type where
  | constant (value : BitVec w)
  | value (v : V)
  | expanded (n : Nat)
  deriving DecidableEq

/-- `CreateAdd`, `CreateMul` and `CreateMaximum`. -/
inductive ExpandedInst (V : Type) (w : Nat) : Type where
  | add (lhs rhs : StepOperand V w)
  | mul (lhs rhs : StepOperand V w)
  | maximum (lhs rhs : StepOperand V w)
  deriving DecidableEq

inductive SCEVReference (V : Type) (w : Nat) : Type where
  | mk (value : Option (StepOperand V w)) (childReferences : List (SCEVReference V w))

variable {V : Type} {w : Nat}

/-! ## Meaning -/

def StepNAryOp.apply : StepNAryOp → BitVec w → BitVec w → BitVec w
  | addExpr, x, y => x + y
  | mulExpr, x, y => x * y
  | smaxExpr, x, y => if x.slt y then y else x

namespace StepSCEV

variable (values : V → BitVec w)

mutual

/-- The value of an expression, from the values of the opaque ones. -/
def eval : StepSCEV V w → BitVec w
  | constant value => value
  | unknown value => values value
  | nary op operands => evalOperands op operands

def evalOperands (op : StepNAryOp) : List (StepSCEV V w) → BitVec w
  | [] => 0
  | [S] => S.eval
  | S :: operands => op.apply S.eval (evalOperands op operands)

end

end StepSCEV

namespace StepOperand

/-- The value of an operand, from those of the block before it. -/
def eval (values : V → BitVec w) (results : List (BitVec w)) : StepOperand V w → Option (BitVec w)
  | constant c => some c
  | value v => some (values v)
  | expanded n => results[n]?

end StepOperand

namespace ExpandedInst

/-- `llvm.maximum` is an intrinsic of floating-point numbers. -/
def IsWellFormed : ExpandedInst V w → Prop
  | add _ _ | mul _ _ => True
  | maximum _ _ => False

/-- The value of an instruction that is well formed. -/
def eval (values : V → BitVec w) (results : List (BitVec w)) : ExpandedInst V w → Option (BitVec w)
  | add lhs rhs => do return (← lhs.eval values results) + (← rhs.eval values results)
  | mul lhs rhs => do return (← lhs.eval values results) * (← rhs.eval values results)
  | maximum _ _ => none

/-- The instructions in order, each after the results of those before it. -/
def evalAll (values : V → BitVec w) (insts : List (ExpandedInst V w)) (results : List (BitVec w)) :
    Option (List (BitVec w)) :=
  insts.foldlM (fun results inst => (inst.eval values results).map fun x => results ++ [x]) results

variable {values : V → BitVec w}

theorem evalAll_length : ∀ {insts : List (ExpandedInst V w)} {results results' : List (BitVec w)},
    evalAll values insts results = some results' →
      results <+: results' ∧ results'.length = results.length + insts.length
  | [], results, results', h => by
      cases h
      exact ⟨prefix_rfl, rfl⟩
  | inst :: insts, results, results', h => by
      unfold evalAll at h
      rw [foldlM_cons] at h
      obtain ⟨results₁, h₁, h₂⟩ := bind_eq_some_iff.mp h
      obtain ⟨x, -, rfl⟩ := map_eq_some_iff.mp h₁
      obtain ⟨hkept, hlength⟩ := evalAll_length h₂
      refine ⟨(prefix_append results [x]).trans hkept, ?_⟩
      rw [hlength, length_append, length_singleton, length_cons]
      omega

theorem evalAll_of_prefix {insts insts' : List (ExpandedInst V w)} {results : List (BitVec w)}
    (hinsts : insts <+: insts') (h : evalAll values insts' [] = some results) :
    ∃ before, evalAll values insts [] = some before ∧ before <+: results := by
  obtain ⟨rest, rfl⟩ := hinsts
  unfold evalAll at h
  rw [foldlM_append] at h
  obtain ⟨before, hbefore, hrest⟩ := bind_eq_some_iff.mp h
  exact ⟨before, hbefore, (evalAll_length hrest).1⟩

theorem evalAll_append_singleton {insts : List (ExpandedInst V w)} {inst : ExpandedInst V w}
    {results : List (BitVec w)} (h : evalAll values (insts ++ [inst]) [] = some results) :
    ∃ before x, evalAll values insts [] = some before ∧ inst.eval values before = some x ∧
      results[insts.length]? = some x := by
  unfold evalAll at h
  rw [foldlM_append] at h
  obtain ⟨before, hbefore, h⟩ := bind_eq_some_iff.mp h
  rw [foldlM_cons] at h
  obtain ⟨results₁, h₁, h₂⟩ := bind_eq_some_iff.mp h
  obtain ⟨x, hx, rfl⟩ := map_eq_some_iff.mp h₁
  cases h₂
  have hlength : insts.length = before.length := by
    have hlength := (evalAll_length hbefore).2
    rw [length_nil, Nat.zero_add] at hlength
    exact hlength.symm
  exact ⟨before, x, hbefore, hx, by rw [hlength, List.getElem?_concat_length]⟩

end ExpandedInst

/-- More results do not change the value of an operand. -/
theorem StepOperand.eval_of_prefix {values : V → BitVec w} {before results : List (BitVec w)}
    (h : before <+: results) : ∀ {x : StepOperand V w} {c : BitVec w},
      x.eval values before = some c → x.eval values results = some c
  | .constant _, _, hx => hx
  | .value _, _, hx => hx
  | .expanded n, c, hx => by
      obtain ⟨rest, rfl⟩ := h
      obtain ⟨hlt, -⟩ := List.getElem?_eq_some_iff.mp hx
      exact (List.getElem?_append_left hlt).trans hx

/-! ## Reference trees -/

/-- What an induction variable knows of the values of the function. -/
structure StepScope (V : Type) (w : Nat) where
  /-- `SCEVValueMapper::getValuesOf`. -/
  getValuesOf : StepSCEV V w → List V
  valuesInScope : V → Bool
  valuesToReference : V → Bool
  isLoopInvariant : V → Bool

namespace SCEVReference

def getValue : SCEVReference V w → Option (StepOperand V w)
  | mk value _ => value

def getChildReferences : SCEVReference V w → List (SCEVReference V w)
  | mk _ childReferences => childReferences

mutual

def collectAllReferences : SCEVReference V w → List (SCEVReference V w)
  | mk value childReferences => mk value childReferences :: collectFrom childReferences

def collectFrom : List (SCEVReference V w) → List (SCEVReference V w)
  | [] => []
  | child :: childReferences => child.collectAllReferences ++ collectFrom childReferences

end

end SCEVReference

namespace StepScope

variable (scope : StepScope V w)

def mapToSingleInScopeValue (S : StepSCEV V w) : Option V :=
  match (scope.getValuesOf S).filter scope.valuesInScope with
  | [v] => some v
  | _ => none

mutual

/-- `ReferenceTreeBuilder::visit`. -/
def createReferenceTree : StepSCEV V w → Option (SCEVReference V w)
  | .constant value => some (.mk (some (.constant value)) [])
  | .unknown value => if scope.valuesInScope value then some (.mk (some (.value value)) []) else none
  | .nary op operands =>
      let value := scope.mapToSingleInScopeValue (.nary op operands)
      let childReferences := createOperandReferences operands
      if childReferences.length ≠ operands.length ∧ value = none then none
      else some (.mk (value.map .value) childReferences)

/-- The loop over the operands stops at the first that has no reference. -/
def createOperandReferences : List (StepSCEV V w) → List (SCEVReference V w)
  | [] => []
  | S :: operands =>
      match createReferenceTree S with
      | none => []
      | some reference => reference :: createOperandReferences operands

end

/-! ## Expansion -/

/-- Is the value of a reference one of those to reference? -/
def isReferenced : Option (StepOperand V w) → Bool
  | some (.value v) => scope.valuesToReference v
  | _ => false

/-- The builder: two constants are folded, except by an intrinsic. -/
def create (op : StepNAryOp) (lhs rhs : StepOperand V w) (tempBlock : List (ExpandedInst V w)) :
    StepOperand V w × List (ExpandedInst V w) :=
  match op, lhs, rhs with
  | .addExpr, .constant x, .constant y => (.constant (x + y), tempBlock)
  | .mulExpr, .constant x, .constant y => (.constant (x * y), tempBlock)
  | .addExpr, lhs, rhs => (.expanded tempBlock.length, tempBlock ++ [.add lhs rhs])
  | .mulExpr, lhs, rhs => (.expanded tempBlock.length, tempBlock ++ [.mul lhs rhs])
  | .smaxExpr, lhs, rhs => (.expanded tempBlock.length, tempBlock ++ [.maximum lhs rhs])

/-- `ReferenceTreeExpander::visit`, at a node of the tree. -/
def expand : StepSCEV V w → SCEVReference V w → List (ExpandedInst V w) →
    Option (StepOperand V w × List (ExpandedInst V w))
  | .constant _, currentNode, tempBlock => currentNode.getValue.map fun value => (value, tempBlock)
  | .unknown _, currentNode, tempBlock =>
      if scope.isReferenced currentNode.getValue then currentNode.getValue.map fun value => (value, tempBlock)
      else none
  | .nary op operands, currentNode, tempBlock =>
      if scope.isReferenced currentNode.getValue then currentNode.getValue.map fun value => (value, tempBlock)
      else
        match operands, currentNode.getChildReferences with
        | [S₀, S₁], child₀ :: child₁ :: _ => do
            let (lhs, tempBlock) ← expand S₀ child₀ tempBlock
            let (rhs, tempBlock) ← expand S₁ child₁ tempBlock
            return create op lhs rhs tempBlock
        | _, _ => none

/-- What an induction variable keeps of its step, and the instructions that exist then. -/
structure StepComputation (V : Type) (w : Nat) where
  isComputedStepValueLoopInvariant : Bool
  singleStepValue : Option (StepOperand V w)
  computationOfStepValue : List Nat
  instructions : Nat → Option (ExpandedInst V w)

/-- The instructions of a block that has been erased. -/
def eraseFromParent (_ : List (ExpandedInst V w)) : Nat → Option (ExpandedInst V w) := fun _ => none

def deriveStepValueFromCompositeSCEV (S : StepSCEV V w) : Option (StepComputation V w) := do
  let tree ← scope.createReferenceTree S
  let (finalValue, tempBlock) ← scope.expand S tree []
  return {
    isComputedStepValueLoopInvariant := tree.collectAllReferences.all fun reference =>
      match reference.getValue with
      | none => false
      | some (.value v) => scope.isLoopInvariant v
      | some _ => true
    singleStepValue := if tempBlock.length < 2 then some finalValue else none
    computationOfStepValue := List.range tempBlock.length
    instructions := eraseFromParent tempBlock }

/-! ## What is expanded -/

/-- The value of the reference to an expression. -/
def referenceValue : StepSCEV V w → Option (StepOperand V w)
  | .constant value => some (.constant value)
  | .unknown value => if scope.valuesInScope value then some (.value value) else none
  | .nary op operands => (scope.mapToSingleInScopeValue (.nary op operands)).map .value

/-- Sums and products of constants, none of which is the value of a live-in. -/
def isConstantFolded : StepSCEV V w → Bool
  | .constant _ => true
  | .unknown _ => false
  | .nary op operands =>
      match operands with
      | [S₀, S₁] =>
          op != .smaxExpr && !scope.isReferenced (scope.referenceValue (.nary op [S₀, S₁])) &&
            isConstantFolded S₀ && isConstantFolded S₁
      | _ => false

/-- The step is the value of a live-in, or a constant. -/
def isUnexpanded (S : StepSCEV V w) : Bool :=
  scope.isReferenced (scope.referenceValue S) || scope.isConstantFolded S

variable {scope}
variable {S S₀ S₁ : StepSCEV V w} {tree : SCEVReference V w} {op : StepNAryOp} {x : StepOperand V w}
  {tempBlock : List (ExpandedInst V w)}

theorem getValue_createReferenceTree
    (h : scope.createReferenceTree S = some tree) : tree.getValue = scope.referenceValue S := by
  cases S with
  | constant value =>
      cases h
      rfl
  | unknown value =>
      rw [createReferenceTree] at h
      rw [referenceValue]
      split_ifs at h ⊢ with hscope
      cases h
      rfl
  | nary op operands =>
      rw [createReferenceTree] at h
      split_ifs at h
      cases h
      rfl

/-- The first two children refer to the two operands. -/
theorem createReferenceTree_operands {child₀ child₁ : SCEVReference V w}
    {rest : List (SCEVReference V w)}
    (h : scope.createReferenceTree (.nary op [S₀, S₁]) = some tree)
    (hchildren : tree.getChildReferences = child₀ :: child₁ :: rest) :
    scope.createReferenceTree S₀ = some child₀ ∧ scope.createReferenceTree S₁ = some child₁ := by
  rw [createReferenceTree] at h
  split_ifs at h
  cases h
  rw [SCEVReference.getChildReferences, createOperandReferences] at hchildren
  cases h₀ : scope.createReferenceTree S₀ with
  | none =>
      rw [h₀] at hchildren
      cases hchildren
  | some first =>
      simp only [h₀, createOperandReferences] at hchildren
      obtain ⟨rfl, hrest⟩ := List.cons.inj hchildren
      cases h₁ : scope.createReferenceTree S₁ with
      | none =>
          rw [h₁] at hrest
          cases hrest
      | some second =>
          simp only [h₁] at hrest
          obtain ⟨rfl, -⟩ := List.cons.inj hrest
          exact ⟨rfl, rfl⟩

/-- What the builder returns is a constant if both operands are and it folds them, and otherwise a new
instruction. -/
theorem create_spec (op : StepNAryOp) (lhs rhs : StepOperand V w) (tempBlock : List (ExpandedInst V w)) :
    (∃ x y, op ≠ .smaxExpr ∧ lhs = .constant x ∧ rhs = .constant y ∧
      create op lhs rhs tempBlock = (.constant (op.apply x y), tempBlock)) ∨
    (¬ (op ≠ .smaxExpr ∧ (∃ x, lhs = .constant x) ∧ ∃ y, rhs = .constant y) ∧
      ∃ inst, create op lhs rhs tempBlock = (.expanded tempBlock.length, tempBlock ++ [inst]) ∧
        ∀ values results x, inst.eval values results = some x →
          ∃ a b, lhs.eval values results = some a ∧ rhs.eval values results = some b ∧
            x = op.apply a b) := by
  have hadd : ∀ (values : V → BitVec w) results x,
      (ExpandedInst.add lhs rhs).eval values results = some x → ∃ a b,
        lhs.eval values results = some a ∧ rhs.eval values results = some b ∧ x = a + b := by
    intro values results x hx
    obtain ⟨a, ha, hx⟩ := bind_eq_some_iff.mp hx
    obtain ⟨b, hb, hx⟩ := bind_eq_some_iff.mp hx
    exact ⟨a, b, ha, hb, (some.inj hx).symm⟩
  have hmul : ∀ (values : V → BitVec w) results x,
      (ExpandedInst.mul lhs rhs).eval values results = some x → ∃ a b,
        lhs.eval values results = some a ∧ rhs.eval values results = some b ∧ x = a * b := by
    intro values results x hx
    obtain ⟨a, ha, hx⟩ := bind_eq_some_iff.mp hx
    obtain ⟨b, hb, hx⟩ := bind_eq_some_iff.mp hx
    exact ⟨a, b, ha, hb, (some.inj hx).symm⟩
  by_cases hconst : (∃ x, lhs = .constant x) ∧ ∃ y, rhs = .constant y
  · obtain ⟨⟨x, rfl⟩, y, rfl⟩ := hconst
    cases op with
    | addExpr => exact .inl ⟨x, y, by decide, rfl, rfl, rfl⟩
    | mulExpr => exact .inl ⟨x, y, by decide, rfl, rfl, rfl⟩
    | smaxExpr =>
        exact .inr ⟨fun h => h.1 rfl, _, rfl, fun values results x hx => by cases hx⟩
  · refine .inr ⟨fun h => hconst h.2, ?_⟩
    cases op with
    | addExpr =>
        refine ⟨.add lhs rhs, ?_, hadd⟩
        cases lhs with
        | constant x =>
            cases rhs with
            | constant y => exact absurd ⟨⟨x, rfl⟩, y, rfl⟩ hconst
            | value v => rfl
            | expanded n => rfl
        | value v => rfl
        | expanded n => rfl
    | mulExpr =>
        refine ⟨.mul lhs rhs, ?_, hmul⟩
        cases lhs with
        | constant x =>
            cases rhs with
            | constant y => exact absurd ⟨⟨x, rfl⟩, y, rfl⟩ hconst
            | value v => rfl
            | expanded n => rfl
        | value v => rfl
        | expanded n => rfl
    | smaxExpr => exact ⟨.maximum lhs rhs, rfl, fun values results x hx => by cases hx⟩

/-- What an expansion has done: the block has grown unless the expression is a live-in or a constant, and
the value is that of the expression. -/
structure Expanded (scope : StepScope V w) (S : StepSCEV V w) (tempBlock : List (ExpandedInst V w))
    (x : StepOperand V w) (tempBlock' : List (ExpandedInst V w)) : Prop where
  prefix_block : tempBlock <+: tempBlock'
  block_eq_iff : tempBlock' = tempBlock ↔ scope.isUnexpanded S = true
  constant_iff : (∃ c, x = .constant c) ↔ scope.isConstantFolded S = true
  eval_eq : ∀ values : V → BitVec w, (∀ S, ∀ v ∈ scope.getValuesOf S, values v = S.eval values) →
    ∀ results, ExpandedInst.evalAll values tempBlock' [] = some results →
      x.eval values results = some (S.eval values)

/-- A value in scope evaluates to its expression. -/
theorem eval_referenceValue {values : V → BitVec w}
    (hvalues : ∀ S, ∀ v ∈ scope.getValuesOf S, values v = S.eval values)
    (h : scope.referenceValue S = some x) (results : List (BitVec w)) :
    x.eval values results = some (S.eval values) := by
  cases S with
  | constant value =>
      cases h
      rw [StepSCEV.eval, StepOperand.eval]
  | unknown value =>
      rw [referenceValue] at h
      split_ifs at h
      cases h
      rw [StepSCEV.eval, StepOperand.eval]
  | nary op operands =>
      obtain ⟨v, hv, rfl⟩ := map_eq_some_iff.mp h
      have hmem : v ∈ scope.getValuesOf (.nary op operands) := by
        unfold mapToSingleInScopeValue at hv
        cases hfilter : (scope.getValuesOf (.nary op operands)).filter scope.valuesInScope with
        | nil =>
            rw [hfilter] at hv
            cases hv
        | cons first rest =>
            cases rest with
            | nil =>
                rw [hfilter] at hv
                obtain rfl := some.inj hv
                exact (mem_filter.mp (hfilter ▸ mem_singleton_self first)).1
            | cons second rest =>
                rw [hfilter] at hv
                cases hv
      exact congrArg some (hvalues _ v hmem)

/-- A value in scope needs no instruction. -/
theorem expanded_referenced (h : scope.referenceValue S = some x)
    (href : scope.isReferenced (some x) = true) (tempBlock : List (ExpandedInst V w)) :
    Expanded scope S tempBlock x tempBlock where
  prefix_block := prefix_rfl
  block_eq_iff := by
    rw [isUnexpanded, h, href]
    simp
  constant_iff := by
    constructor
    · intro ⟨c, hc⟩
      rw [hc] at href
      cases href
    · intro hfolded
      cases S with
      | constant value => exact ⟨value, (some.inj h).symm⟩
      | unknown value => cases hfolded
      | nary op operands =>
          unfold isConstantFolded at hfolded
          split at hfolded
          · rw [h, href] at hfolded
            simp at hfolded
          · cases hfolded
  eval_eq values hvalues results _ := eval_referenceValue hvalues h results

/-- The instruction of two expanded operands is appended. -/
theorem Expanded.create {lhs rhs : StepOperand V w}
    {tempBlock₀ tempBlock₁ : List (ExpandedInst V w)}
    (href : scope.isReferenced (scope.referenceValue (.nary op [S₀, S₁])) = false)
    (h₀ : Expanded scope S₀ tempBlock lhs tempBlock₀)
    (h₁ : Expanded scope S₁ tempBlock₀ rhs tempBlock₁) :
    Expanded scope (.nary op [S₀, S₁]) tempBlock (create op lhs rhs tempBlock₁).1
      (create op lhs rhs tempBlock₁).2 := by
  have hfolded : scope.isConstantFolded (.nary op [S₀, S₁]) = true ↔
      op ≠ .smaxExpr ∧ (∃ x, lhs = .constant x) ∧ ∃ y, rhs = .constant y := by
    rw [isConstantFolded, href, h₀.constant_iff, h₁.constant_iff]
    simp [and_assoc]
  have hunexpanded : scope.isUnexpanded (.nary op [S₀, S₁]) = scope.isConstantFolded (.nary op [S₀, S₁]) := by
    rw [isUnexpanded, href, Bool.false_or]
  have hkept : tempBlock <+: tempBlock₁ := h₀.prefix_block.trans h₁.prefix_block
  obtain ⟨x, y, hop, rfl, rfl, hcreate⟩ | ⟨hnot, inst, hcreate, hinst⟩ := create_spec op lhs rhs tempBlock₁
  · have hunexpanded₀ : tempBlock₀ = tempBlock := h₀.block_eq_iff.mpr (by
      rw [isUnexpanded, h₀.constant_iff.mp ⟨x, rfl⟩, Bool.or_true])
    have hunexpanded₁ : tempBlock₁ = tempBlock₀ := h₁.block_eq_iff.mpr (by
      rw [isUnexpanded, h₁.constant_iff.mp ⟨y, rfl⟩, Bool.or_true])
    have htrue := hfolded.mpr ⟨hop, ⟨x, rfl⟩, y, rfl⟩
    rw [hcreate]
    refine ⟨hkept, ?_, ?_, fun values hvalues results hresults => ?_⟩
    · rw [hunexpanded, htrue, hunexpanded₁, hunexpanded₀]
      simp
    · rw [htrue]
      simp
    · have hx := h₁.eval_eq values hvalues results hresults
      rw [hunexpanded₁] at hresults
      have hy := h₀.eval_eq values hvalues results hresults
      rw [StepOperand.eval, some.injEq] at hx hy
      rw [StepOperand.eval, hx, hy]
      rfl
  · rw [hcreate]
    refine ⟨hkept.trans (prefix_append _ _), ?_, ?_, fun values hvalues results hresults => ?_⟩
    · rw [hunexpanded, hfolded]
      refine iff_of_false (fun heq => ?_) hnot
      have hlength := congrArg List.length heq
      rw [length_append, length_singleton] at hlength
      have hle := hkept.length_le
      omega
    · rw [hfolded]
      refine iff_of_false (fun ⟨c, hc⟩ => ?_) hnot
      cases hc
    · obtain ⟨before, x, hbefore, hx, hresult⟩ := ExpandedInst.evalAll_append_singleton hresults
      obtain ⟨a, b, ha, hb, rfl⟩ := hinst values before x hx
      obtain ⟨before₀, hbefore₀, hle⟩ := ExpandedInst.evalAll_of_prefix h₁.prefix_block hbefore
      have hlhs := StepOperand.eval_of_prefix hle (h₀.eval_eq values hvalues before₀ hbefore₀)
      have hrhs := h₁.eval_eq values hvalues before hbefore
      obtain rfl := mem_unique hlhs ha
      obtain rfl := mem_unique hrhs hb
      exact hresult

/-- The operands of an expression are expanded in turn. -/
theorem expand_operands {operands : List (StepSCEV V w)} {node : SCEVReference V w}
    {tempBlock' : List (ExpandedInst V w)}
    (htree : scope.createReferenceTree (.nary op operands) = some node)
    (href : ¬ scope.isReferenced node.getValue = true)
    (h : scope.expand (.nary op operands) node tempBlock = some (x, tempBlock')) :
    ∃ S₀ S₁ child₀ child₁ lhs tempBlock₀ rhs tempBlock₁, operands = [S₀, S₁] ∧
      scope.createReferenceTree S₀ = some child₀ ∧ scope.createReferenceTree S₁ = some child₁ ∧
      scope.expand S₀ child₀ tempBlock = some (lhs, tempBlock₀) ∧
      scope.expand S₁ child₁ tempBlock₀ = some (rhs, tempBlock₁) ∧
      create op lhs rhs tempBlock₁ = (x, tempBlock') := by
  unfold expand at h
  rw [if_neg href] at h
  rcases operands with _ | ⟨S₀, _ | ⟨S₁, _ | ⟨S₂, operands⟩⟩⟩
  · cases h
  · cases h
  · rcases hchildren : node.getChildReferences with _ | ⟨child₀, _ | ⟨child₁, rest⟩⟩
    · rw [hchildren] at h
      cases h
    · rw [hchildren] at h
      cases h
    · rw [hchildren] at h
      obtain ⟨⟨lhs, tempBlock₀⟩, hlhs, hlhs'⟩ := bind_eq_some_iff.mp h
      obtain ⟨⟨rhs, tempBlock₁⟩, hrhs, hcreate⟩ := bind_eq_some_iff.mp hlhs'
      obtain ⟨htree₀, htree₁⟩ := createReferenceTree_operands htree hchildren
      exact ⟨S₀, S₁, child₀, child₁, lhs, tempBlock₀, rhs, tempBlock₁, rfl, htree₀, htree₁, hlhs, hrhs,
        some.inj hcreate⟩
  · cases h

/-- **Exactness**: an expansion that succeeds computes the value of the expression. -/
theorem expanded_expand : ∀ {S : StepSCEV V w} {node : SCEVReference V w}
    {tempBlock tempBlock' : List (ExpandedInst V w)} {x : StepOperand V w},
    scope.createReferenceTree S = some node → scope.expand S node tempBlock = some (x, tempBlock') →
      Expanded scope S tempBlock x tempBlock'
  | .constant value, node, tempBlock, tempBlock', x, htree, h => by
      rw [expand, getValue_createReferenceTree htree, referenceValue] at h
      obtain ⟨rfl, rfl⟩ := Prod.mk.inj (some.inj h)
      refine ⟨prefix_rfl, ?_, ?_, fun values hvalues results _ => eval_referenceValue hvalues rfl results⟩
      · simp [isUnexpanded, isConstantFolded]
      · simp [isConstantFolded]
  | .unknown value, node, tempBlock, tempBlock', x, htree, h => by
      rw [expand] at h
      split_ifs at h with href
      obtain ⟨x, hx, heq⟩ := map_eq_some_iff.mp h
      obtain ⟨rfl, rfl⟩ := Prod.mk.inj heq
      rw [hx] at href
      exact expanded_referenced ((getValue_createReferenceTree htree).symm.trans hx) href tempBlock
  | .nary op operands, node, tempBlock, tempBlock', x, htree, h => by
      by_cases href : scope.isReferenced node.getValue = true
      · unfold expand at h
        rw [if_pos href] at h
        obtain ⟨x, hx, heq⟩ := map_eq_some_iff.mp h
        obtain ⟨rfl, rfl⟩ := Prod.mk.inj heq
        rw [hx] at href
        exact expanded_referenced ((getValue_createReferenceTree htree).symm.trans hx) href tempBlock
      · obtain ⟨S₀, S₁, child₀, child₁, lhs, tempBlock₀, rhs, tempBlock₁, rfl, htree₀, htree₁, hlhs, hrhs,
          hcreate⟩ := expand_operands htree href h
        have h₀ := expanded_expand htree₀ hlhs
        have h₁ := expanded_expand htree₁ hrhs
        rw [getValue_createReferenceTree htree, Bool.not_eq_true] at href
        have hboth := Expanded.create href h₀ h₁
        rwa [hcreate] at hboth

/-! ## The step of an execution -/

/-- The values of an execution of the loop, by iteration. -/
structure Iterations (scope : StepScope V w) where
  valueAt : Nat → V → BitVec w
  /-- `getSCEV` of a value has the value. -/
  getSCEV_eval : ∀ k S, ∀ v ∈ scope.getValuesOf S, valueAt k v = S.eval (valueAt k)
  valueAt_invariant : ∀ v, scope.isLoopInvariant v = true → ∀ k, valueAt k v = valueAt 0 v

/-- The recorded instructions in order, each with the results of those before it. -/
def StepComputation.evaluate (c : StepComputation V w) (values : V → BitVec w) : Option (List (BitVec w)) :=
  c.computationOfStepValue.foldlM (fun results n => do
    let inst ← c.instructions n
    return results ++ [← inst.eval values results]) []

/-- What is recorded is the step. -/
structure ComputesStep (iterations : Iterations scope) (S : StepSCEV V w) (c : StepComputation V w) :
    Prop where
  isWellFormed : ∀ n ∈ c.computationOfStepValue, ∃ inst, c.instructions n = some inst ∧ inst.IsWellFormed
  evaluate_eq : ∀ k, ∃ results, c.evaluate (iterations.valueAt k) = some results ∧
    (c.computationOfStepValue ≠ [] → results.getLast? = some (S.eval (iterations.valueAt k))) ∧
    (c.computationOfStepValue = [] → c.singleStepValue ≠ none) ∧
    ∀ x, c.singleStepValue = some x →
      x.eval (iterations.valueAt k) results = some (S.eval (iterations.valueAt k))
  invariant : c.isComputedStepValueLoopInvariant = true →
    ∀ k, S.eval (iterations.valueAt k) = S.eval (iterations.valueAt 0)

theorem eval_eq_of_invariant (iterations : Iterations scope) (h : scope.referenceValue S = some x)
    (hinvariant : ∀ v, x = .value v → scope.isLoopInvariant v = true)
    (k : Nat) : S.eval (iterations.valueAt k) = S.eval (iterations.valueAt 0) := by
  have hk := eval_referenceValue (iterations.getSCEV_eval k) h []
  have h0 := eval_referenceValue (iterations.getSCEV_eval 0) h []
  have hx : x.eval (iterations.valueAt k) [] = x.eval (iterations.valueAt 0) [] := by
    cases x with
    | constant c => rfl
    | value v => exact congrArg some (iterations.valueAt_invariant v (hinvariant v rfl) k)
    | expanded n => rfl
  exact mem_unique hk (hx.trans h0)

/-- **The recorded step**: the computation is that of the step exactly if nothing has been expanded. -/
theorem deriveStepValue_exact_iff (iterations : Iterations scope) {S : StepSCEV V w}
    {c : StepComputation V w} (h : scope.deriveStepValueFromCompositeSCEV S = some c) :
    ComputesStep iterations S c ↔ scope.isUnexpanded S = true := by
  obtain ⟨tree, htree, hderive⟩ := bind_eq_some_iff.mp h
  obtain ⟨⟨finalValue, tempBlock⟩, hexpand, hc⟩ := bind_eq_some_iff.mp hderive
  cases hc
  have hexpanded := expanded_expand htree hexpand
  constructor
  · intro hcomputes
    refine hexpanded.block_eq_iff.mp (eq_nil_iff_length_eq_zero.mpr ?_)
    by_contra hlength
    -- the first instruction no longer exists
    obtain ⟨inst, hinst, -⟩ := hcomputes.isWellFormed 0 (mem_range.mpr (Nat.pos_of_ne_zero hlength))
    cases hinst
  · intro hunexpanded
    obtain rfl := hexpanded.block_eq_iff.mpr hunexpanded
    refine ⟨nofun, fun k => ⟨[], rfl, fun hne => absurd rfl hne,
      fun _ => some_ne_none finalValue, fun x hx => ?_⟩, fun hflag k => ?_⟩
    · cases hx
      exact hexpanded.eval_eq _ (iterations.getSCEV_eval k) [] rfl
    · -- the root of the tree is one of its references
      have hroot := all_eq_true.mp hflag tree (by
        cases tree
        exact .head _)
      rw [getValue_createReferenceTree htree] at hroot
      cases hvalue : scope.referenceValue S with
      | none =>
          rw [hvalue] at hroot
          cases hroot
      | some x =>
          refine eval_eq_of_invariant iterations hvalue (fun v hv => ?_) k
          rw [hvalue, hv] at hroot
          exact hroot

/-- `a + b`, for two live-ins and a third one that has this value if it is in scope. -/
def scopeOfSum (sumInScope : Bool) : StepScope (Fin 3) 32 where
  getValuesOf S := match S with
    | .nary .addExpr [.unknown 0, .unknown 1] => [2]
    | _ => []
  valuesInScope v := sumInScope || decide (v ≠ 2)
  valuesToReference v := sumInScope || decide (v ≠ 2)
  isLoopInvariant _ := true

def iterationsOfSum (sumInScope : Bool) : Iterations (scopeOfSum sumInScope) where
  valueAt _ v := if v = 0 then 3 else if v = 1 then 4 else 7
  getSCEV_eval k S v hv := by
    unfold scopeOfSum at hv
    dsimp only at hv
    split at hv
    · obtain rfl := mem_singleton.mp hv
      rfl
    · cases hv
  valueAt_invariant _ _ _ := rfl

theorem deriveStepValue_exact_live_in : ∃ c,
    (scopeOfSum true).deriveStepValueFromCompositeSCEV (.nary .addExpr [.unknown 0, .unknown 1]) = some c ∧
      ComputesStep (iterationsOfSum true) (.nary .addExpr [.unknown 0, .unknown 1]) c :=
  ⟨_, rfl, (deriveStepValue_exact_iff (iterationsOfSum true) rfl).mpr rfl⟩

/-- The sum is expanded, and its instruction is erased. -/
theorem not_exact_sum : ∃ c,
    (scopeOfSum false).deriveStepValueFromCompositeSCEV (.nary .addExpr [.unknown 0, .unknown 1]) = some c ∧
      c.computationOfStepValue = [0] ∧ c.instructions 0 = none ∧
      ¬ ComputesStep (iterationsOfSum false) (.nary .addExpr [.unknown 0, .unknown 1]) c := by
  refine ⟨_, rfl, rfl, rfl, fun hcomputes => ?_⟩
  obtain ⟨inst, hinst, -⟩ := hcomputes.isWellFormed 0 (.head _)
  cases hinst

end StepScope

end Noelle
