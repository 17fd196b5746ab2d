import Noelle.DG.Invariant
import Noelle.Lib.Loop
import Noelle.LoopForest.LoopTree
import Noelle.SCC.Basic

/-!
# LoopCarriedVariable.Basic

`LoopCarriedVariable::isEvolutionReducibleAcrossLoopIterations`, with `EvolutionUpdate`,
`AccumulatorOpInfo` and the reduction that `BinaryReductionSCC` derives.

A variable comes with the two components that its constructor has computed: the one with the
values, memory and control of the variable only, and the one without control.  Uses are numbers
of operands.
-/

namespace Noelle

/-! ## Instructions -/

/-- Opcodes of binary operators. -/
inductive Opcode where
  | add | fAdd | sub | fSub | mul | fMul | and | or | xor
  | otherBinaryOp
  deriving DecidableEq

/-- Opcodes of casts; the others are those that involve floating point values or pointers. -/
inductive CastOpcode where
  | trunc | zext | sext | otherCast
  deriving DecidableEq

/-- The types that are told apart. -/
inductive ValueType where
  | integerTy (width : Nat)
  | floatingPointTy (name : Nat)
  | otherTy (name : Nat)
  deriving DecidableEq

/-- The classes of values that the analysis tells apart, with their operands. -/
inductive EvolutionKind (V B : Type) where
  | phiNode (incoming : List (B × V))
  | selectInst (condition trueValue falseValue : V)
  | binaryOperator (op : Opcode) (lhs rhs : V)
  | castInst (op : CastOpcode) (operand : V)
  | cmpInst (lhs rhs : V)
  | loadInst (pointerOperand : V)
  | storeInst (valueOperand pointerOperand : V)
  | callInst (arguments : List V)
  | otherInstruction (operands : List V)
  | noInstruction

/-- The function that the variable belongs to. -/
structure EvolutionFunction (V B : Type) where
  kind : V → EvolutionKind V B
  type : V → ValueType
  users : V → List V
  getParent : V → B
  /-- The fast-math flags that make a floating point operation associative. -/
  isReassociable : V → Bool

namespace ValueType

/-- `Type::isIntegerTy`. -/
def isIntegerTy : ValueType → Bool
  | integerTy _ => true
  | _ => false

/-- `Type::isFloatingPointTy`. -/
def isFloatingPointTy : ValueType → Bool
  | floatingPointTy _ => true
  | _ => false

end ValueType

namespace EvolutionFunction

variable {V B : Type} (fn : EvolutionFunction V B)

/-- `User::operands`. -/
def operands (v : V) : List V :=
  match fn.kind v with
  | .phiNode incoming => incoming.map Prod.snd
  | .selectInst c t f => [c, t, f]
  | .binaryOperator _ lhs rhs => [lhs, rhs]
  | .castInst _ operand => [operand]
  | .cmpInst lhs rhs => [lhs, rhs]
  | .loadInst p => [p]
  | .storeInst x p => [x, p]
  | .callInst arguments => arguments
  | .otherInstruction operands => operands
  | .noInstruction => []

/-- `isa<Instruction>`. -/
def isInstruction (v : V) : Bool :=
  match fn.kind v with
  | .noInstruction => false
  | _ => true

/-- `isa<PHINode>`. -/
def isPHINode (v : V) : Bool :=
  match fn.kind v with
  | .phiNode _ => true
  | _ => false

/-- `isa<SelectInst>`. -/
def isSelectInst (v : V) : Bool :=
  match fn.kind v with
  | .selectInst _ _ _ => true
  | _ => false

/-- `isa<LoadInst>`. -/
def isLoadInst (v : V) : Bool :=
  match fn.kind v with
  | .loadInst _ => true
  | _ => false

/-- `isa<CastInst>`. -/
def isCastInst (v : V) : Bool :=
  match fn.kind v with
  | .castInst _ _ => true
  | _ => false

/-- `Instruction::getOpcode`, of binary operators. -/
def binaryOpcode (v : V) : Option Opcode :=
  match fn.kind v with
  | .binaryOperator op _ _ => some op
  | _ => none

/-- `Instruction::isCommutative`. -/
def isCommutative (v : V) : Bool :=
  match fn.binaryOpcode v with
  | some .add | some .fAdd | some .mul | some .fMul | some .and | some .or | some .xor => true
  | _ => false

/-- `Instruction::isAssociative`. -/
def isAssociative (v : V) : Bool :=
  match fn.binaryOpcode v with
  | some .add | some .mul | some .and | some .or | some .xor => true
  | some .fAdd | some .fMul => fn.isReassociable v
  | _ => false

/-- `Instruction::isBitwiseLogicOp`. -/
def isBitwiseLogicOp (v : V) : Bool :=
  match fn.binaryOpcode v with
  | some .and | some .or | some .xor => true
  | _ => false

end EvolutionFunction

/-! ## Updates of a variable -/

structure EvolutionUpdate (V : Type) where
  updateInstruction : V
  internalValuesUsed : List Nat
  externalValuesUsed : List Nat
  deriving DecidableEq

namespace EvolutionUpdate

variable {V B : Type} [DecidableEq V] (fn : EvolutionFunction V B)

/-- The uses of an instruction whose values satisfy `p`. -/
def usesOf (p : V → Bool) (v : V) : List Nat :=
  ((fn.operands v).zipIdx.filter fun use => p use.1).map Prod.snd

/-- The constructor of `EvolutionUpdate`. -/
def ofInstruction (dataMemoryVariableSCC : SCC V) (updateInstruction : V) : EvolutionUpdate V :=
  match fn.kind updateInstruction with
  | .storeInst _ _ => ⟨updateInstruction, [], []⟩
  | _ =>
      ⟨updateInstruction, usesOf fn dataMemoryVariableSCC.isInternal updateInstruction,
        usesOf fn (fun v => !dataMemoryVariableSCC.isInternal v) updateInstruction⟩

variable (u : EvolutionUpdate V)

def mayUpdateBeOverride : Bool :=
  match fn.kind u.updateInstruction with
  | .selectInst _ _ _ | .phiNode _ => !u.externalValuesUsed.isEmpty
  | .callInst _ => true
  | .binaryOperator _ _ _ => u.internalValuesUsed.isEmpty
  | .cmpInst _ _ => (fn.users u.updateInstruction).any fun user => !fn.isSelectInst user
  | _ => true

def isAdd : Bool :=
  match fn.binaryOpcode u.updateInstruction with
  | some .add | some .fAdd => true
  | _ => false

def isMul : Bool :=
  match fn.binaryOpcode u.updateInstruction with
  | some .mul | some .fMul => true
  | _ => false

def isSub : Bool :=
  match fn.binaryOpcode u.updateInstruction with
  | some .sub | some .fSub => true
  | _ => false

def isSubTransformableToAdd : Bool :=
  if !u.isSub fn then false else decide (1 ∈ u.externalValuesUsed)

def isTransformablyCommutativeWithSelf : Bool :=
  if u.mayUpdateBeOverride fn then false
  else if fn.isCommutative u.updateInstruction then true
  else u.isSubTransformableToAdd fn

def isAssociativeWithSelf : Bool :=
  if u.mayUpdateBeOverride fn then false
  else if fn.isAssociative u.updateInstruction then true
  else if u.isAdd fn then true
  else if u.isMul fn then true
  else u.isSubTransformableToAdd fn

variable (otherUpdate : EvolutionUpdate V)

/-- `isBothUpdatesAddOrSub`, which only looks for additions. -/
def isBothUpdatesAddOrSub : Bool := u.isAdd fn && otherUpdate.isAdd fn

def isBothUpdatesMul : Bool := u.isMul fn && otherUpdate.isMul fn

def isBothUpdatesSameBitwiseLogicalOp : Bool :=
  fn.isBitwiseLogicOp u.updateInstruction && fn.isBitwiseLogicOp otherUpdate.updateInstruction
    && decide (fn.binaryOpcode u.updateInstruction = fn.binaryOpcode otherUpdate.updateInstruction)

/-- The end that `isTransformablyCommutativeWith` and `isAssociativeWith` share. -/
def isSameOperation : Bool :=
  if u.isBothUpdatesAddOrSub fn otherUpdate then true
  else if u.isBothUpdatesMul fn otherUpdate then true
  else u.isBothUpdatesSameBitwiseLogicalOp fn otherUpdate

def isTransformablyCommutativeWith : Bool :=
  if !u.isTransformablyCommutativeWithSelf fn || !otherUpdate.isTransformablyCommutativeWithSelf fn
  then false
  else u.isSameOperation fn otherUpdate

def isAssociativeWith : Bool :=
  if !u.isAssociativeWithSelf fn || !otherUpdate.isAssociativeWithSelf fn then false
  else u.isSameOperation fn otherUpdate

end EvolutionUpdate

/-! ## Variables -/

/-- `LoopCarriedVariable`.  The component without control is part of the other one and holds the
declaration PHI; a cast is in it because of its operand. -/
structure LoopCarriedVariable (F V B : Type) [DecidableEq V] (fn : EvolutionFunction V B) where
  isValid : Bool
  outermostLoopOfVariable : LoopStructure F B
  preHeader : B
  declarationValue : V
  sccOfVariableOnly : SCC V
  sccOfDataAndMemoryVariableValuesOnly : SCC V
  declaration_isPHINode : fn.isPHINode declarationValue = true
  variable_wf : sccOfVariableOnly.WF
  data_isInternal : ∀ v, sccOfDataAndMemoryVariableValuesOnly.isInternal v = true →
    sccOfVariableOnly.isInternal v = true
  declaration_isInternal : sccOfDataAndMemoryVariableValuesOnly.isInternal declarationValue = true
  cast_operand : ∀ v op operand, sccOfDataAndMemoryVariableValuesOnly.isInternal v = true →
    fn.kind v = .castInst op operand →
      sccOfDataAndMemoryVariableValuesOnly.isInternal operand = true

/-- The variables of the walk over the consumers.  `returnedFalse` is the return from inside the
loop. -/
structure ConsumerWalk (V : Type) where
  valuesToCheck : List V
  valuesChecked : PtrSet V
  returnedFalse : Bool := false

namespace LoopCarriedVariable

variable {F V B : Type} [DecidableEq V] [DecidableEq B] {fn : EvolutionFunction V B}
  (ord : IterOrder) (x : LoopCarriedVariable F V B fn)

def isInternal (v : V) : Bool := x.sccOfDataAndMemoryVariableValuesOnly.isInternal v

/-- `controlValuesGoverningEvolution`, as the constructor collects it. -/
def controlValuesGoverningEvolution : List V :=
  (ord.visit x.sccOfVariableOnly.allNodes.elems).flatMap fun node =>
    match fn.kind node.theT with
    | .selectInst condition _ _ => [condition]
    | _ =>
        if (x.sccOfVariableOnly.outgoingEdges node).elems.any fun edge =>
            decide (edge.kind = .controlDependence) then [node.theT] else []

/-- The values that the constructor catalogs: neither loads nor the declaration. -/
def catalogedValues : List V :=
  (ord.visit x.sccOfDataAndMemoryVariableValuesOnly.internalNodeMap.keys).filter fun v =>
    decide (v ≠ x.declarationValue) && !fn.isLoadInst v

def castsInternalToVariableComputation : List V :=
  (x.catalogedValues ord).filter fun v => fn.isCastInst v

def variableUpdates : List (EvolutionUpdate V) :=
  ((x.catalogedValues ord).filter fun v => !fn.isCastInst v).map
    (EvolutionUpdate.ofInstruction fn x.sccOfDataAndMemoryVariableValuesOnly)

def getConsumersOfVariable : List V :=
  (ord.visit x.sccOfVariableOnly.externalNodeMap.keys).filter fun value =>
    fn.isInstruction value && x.outermostLoopOfVariable.isIncluded (fn.getParent value) &&
      match x.sccOfVariableOnly.externalNodeMap.lookup value with
      | some (some node) => (x.sccOfVariableOnly.incomingEdges node).elems.any fun edge =>
          !x.sccOfVariableOnly.isExternal edge.getSrc
      | _ => false

/-- The loop over the incoming values of a PHI node: the value that comes from everywhere but the
preheader. -/
def singleIncomingValue : List (B × V) → Option V → Option V
  | [], single => single
  | (incomingBlock, incomingValue) :: rest, single =>
      if incomingBlock = x.preHeader then singleIncomingValue rest single
      else
        match single with
        | none => singleIncomingValue rest (some incomingValue)
        | some v => if incomingValue = v then singleIncomingValue rest (some v) else none

def propagatesVariable (value : V) : Bool :=
  match fn.kind value with
  | .castInst _ valueToCast => !x.sccOfDataAndMemoryVariableValuesOnly.isExternal valueToCast
  | .phiNode incoming =>
      if x.outermostLoopOfVariable.getHeader ≠ fn.getParent value then false
      else
        match x.singleIncomingValue incoming none with
        | none => false
        | some v => !x.sccOfDataAndMemoryVariableValuesOnly.isExternal v
  | _ => false

/-- The body of the loop over the users. -/
def checkUser (s : ConsumerWalk V) (user : V) : ConsumerWalk V :=
  if !fn.isInstruction user then s
  else if !x.outermostLoopOfVariable.isIncluded (fn.getParent user) then s
  else if user ∈ s.valuesChecked then s
  else { s with valuesToCheck := s.valuesToCheck ++ [user], valuesChecked := s.valuesChecked.insert user }

/-- The body of the loop over the queue. -/
def checkValue (s : ConsumerWalk V) : Option (ConsumerWalk V) :=
  match s.valuesToCheck with
  | [] => none
  | value :: valuesToCheck =>
      let s := { s with valuesToCheck := valuesToCheck }
      if !x.propagatesVariable value then some { s with returnedFalse := true }
      else some ((fn.users value).foldl x.checkUser s)

def areValuesPropagatingVariableIntermediatesOutsideLoop (values : List V) (fuel : Nat) :
    Option Bool :=
  (loopM (fun s => !s.valuesToCheck.isEmpty && !s.returnedFalse) x.checkValue fuel
    ⟨values, PtrSet.ofList values, false⟩).map fun s => !s.returnedFalse

def hasRoundingError (arithmeticUpdates : List (EvolutionUpdate V)) : Bool :=
  let casts := x.castsInternalToVariableComputation ord
  let isBetweenFloatingPoint (cast : V) : Bool :=
    (fn.type cast).isFloatingPointTy &&
      (fn.operands cast).any fun source => (fn.type source).isFloatingPointTy
  if casts.any isBetweenFloatingPoint then true
  else if !(casts.any fun cast => (fn.type cast).isIntegerTy) ||
      !(casts.any fun cast => (fn.type cast).isFloatingPointTy) then false
  else
    let onlyAddition := arithmeticUpdates.all fun update =>
      update.isAdd fn || update.isSubTransformableToAdd fn
    if (fn.type x.declarationValue).isIntegerTy && onlyAddition then false else true

/-- The updates that do not just propagate others. -/
def arithmeticUpdates : List (EvolutionUpdate V) :=
  (x.variableUpdates ord).filter fun update =>
    !fn.isPHINode update.updateInstruction && !fn.isSelectInst update.updateInstruction

def isEvolutionReducibleAcrossLoopIterations (fuel : Nat) : Option Bool :=
  if !x.isValid then some false
  else if (x.controlValuesGoverningEvolution ord).any x.sccOfVariableOnly.isInternal then some false
  else if (x.variableUpdates ord).any fun update => update.mayUpdateBeOverride fn then some false
  else if x.hasRoundingError ord (x.arithmeticUpdates ord) then some false
  else if (x.arithmeticUpdates ord).isEmpty then some false
  else if (x.arithmeticUpdates ord).any fun update => (x.arithmeticUpdates ord).any fun otherUpdate =>
      !update.isTransformablyCommutativeWith fn otherUpdate ||
        !update.isAssociativeWith fn otherUpdate then some false
  else x.areValuesPropagatingVariableIntermediatesOutsideLoop (x.getConsumersOfVariable ord) fuel

end LoopCarriedVariable

/-! ## Reductions -/

namespace AccumulatorOpInfo

def accumOps : List Opcode := [.add, .fAdd, .mul, .fMul, .sub, .fSub, .or, .and, .xor]

/-- `opIdentities`; looking up another opcode inserts a zero. -/
def opIdentities : Opcode → Nat
  | .add | .fAdd => 0
  | .mul | .fMul => 1
  | .sub | .fSub => 0
  | .or => 0
  | .and => 1
  | .xor => 0
  | .otherBinaryOp => 0

def integerReducingOperators : Opcode → Option Opcode
  | .add | .fAdd => some .add
  | .mul | .fMul => some .mul
  | .sub | .fSub => some .add
  | .or => some .or
  | .and => some .and
  | .xor => some .xor
  | .otherBinaryOp => none

def floatingReducingOperators : Opcode → Option Opcode
  | .add | .fAdd | .sub | .fSub => some .fAdd
  | .mul | .fMul => some .fMul
  | _ => none

def accumOpForType (op : Opcode) : ValueType → Option Opcode
  | .integerTy _ => integerReducingOperators op
  | .floatingPointTy _ => floatingReducingOperators op
  | .otherTy _ => none

/-- `generateIdentityFor`, for an integer type. -/
def generateIdentityFor (op : Opcode) (width : Nat) : BitVec width :=
  BitVec.ofNat width (opIdentities op)

end AccumulatorOpInfo

/-- What `BinaryReductionSCC` says about a variable of an integer type. -/
structure BinaryReductionSCC (width : Nat) where
  reductionOperation : Opcode
  identity : BitVec width

namespace BinaryReductionSCC

variable {V B : Type} [DecidableEq V] (ord : IterOrder) (fn : EvolutionFunction V B)

def collectAccumulators (scc : SCC V) : List V :=
  scc.internalNodeMap.keys.filter fun v =>
    match fn.binaryOpcode v with
    | some op => decide (op ∈ AccumulatorOpInfo.accumOps)
    | none => false

/-- `setBinaryReductionInformation`.  The accumulator is the PHI node of the loop header. -/
def setBinaryReductionInformation (scc : SCC V) (width : Nat) : Option (BinaryReductionSCC width) := do
  let firstAccumI ← (ord.visit (collectAccumulators fn scc)).head?
  let binOpCode ← fn.binaryOpcode firstAccumI
  let reductionOperation ← AccumulatorOpInfo.accumOpForType binOpCode (.integerTy width)
  return ⟨reductionOperation, AccumulatorOpInfo.generateIdentityFor binOpCode width⟩

end BinaryReductionSCC

end Noelle
