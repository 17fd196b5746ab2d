import Mathlib.Data.List.Infix
import Noelle.DominatorForest
import Noelle.Lib.Loop
import Noelle.LoopForest.LoopTree
import Noelle.PDG.Queries

/-!
# MemoryCloningAnalysis.Basic

`ClonableMemoryObject`: can each iteration of a loop have its own copy of a stack object?

The constructor walks over the users of the object through casts and GEPs, asks the loop
dependence graph about the instructions it found and decides.  The result is `none` where the
walk runs out of fuel (it has no visited set), where a block is missing from the dominator tree,
or where the index of a GEP is read past its end.

The queries change the graph only for values that are not in it; the values asked about here are
instructions of the loop, so the graph is not threaded.
-/

namespace Noelle

/-- The types that are told apart; types are unique. -/
inductive AllocatedType where
  | structTy (name numElements : Nat)
  | integerTy (width : Nat)
  | otherTy (name : Nat)
  deriving DecidableEq

namespace AllocatedType

/-- `Type::isStructTy`. -/
def isStructTy : AllocatedType → Bool
  | structTy _ _ => true
  | _ => false

/-- `Type::isIntegerTy`. -/
def isIntegerTy : AllocatedType → Bool
  | integerTy _ => true
  | _ => false

end AllocatedType

/-- `CallInst`: the name is the one of the called function, if it is known and has one. -/
structure CallInst (V : Type) where
  arguments : List V
  isLifetimeStartOrEnd : Bool
  calledFunctionName : Option String
  deriving DecidableEq

/-- The classes of values that the analysis tells apart.  An index of a GEP is its value if it
is a constant. -/
inductive UserKind (V : Type) where
  | allocaInst
  | castInst (operand : V)
  | getElementPtrInst (sourceElementType : AllocatedType) (indices : List (Option Int))
  | storeInst (pointerOperand : V)
  | loadInst
  | callInst (call : CallInst V)
  | invokeInst
  | otherInstruction
  | noInstruction
  deriving DecidableEq

structure ObjectFunction (V B : Type) where
  kind : V → UserKind V
  /-- `Value::users`: one entry for each use. -/
  users : V → List V
  getParent : V → B
  /-- The instructions of a block. -/
  instructions : B → List V
  /-- `dyn_cast<ConstantInt>` and `getZExtValue`. -/
  constantInt : V → Option Nat

/-- The stack object that is analysed. -/
structure StackObject (V : Type) where
  allocation : V
  allocatedType : AllocatedType
  sizeInBits : Nat

structure OverrideSet (V B : Type) where
  dominatingBlockOfNonStoringInsts : B
  initialStoringInstructions : PtrSet V
  subsequentNonStoringInstructions : PtrSet V

/-- The instructions that the walk over the users has found. -/
structure ObjectUsers (V : Type) where
  castsAndGEPs : PtrSet V := ∅
  storingInstructions : PtrSet V := ∅
  loadInstructions : PtrSet V := ∅
  nonStoringInstructions : PtrSet V := ∅

/-- The variables of the walk.  `returnedFalse` is the return from inside the loop. -/
structure UserWalk (V : Type) where
  allocationUses : List V
  found : ObjectUsers V := {}
  returnedFalse : Bool := false

structure ClonableMemoryObject (V : Type) where
  isClonable : Bool := false
  isScopeWithinLoop : Bool
  needInitialization : Bool := false
  found : ObjectUsers V

namespace CallInst

variable {V : Type}

/-- `ClonableMemoryObject::isMemCpyInstrinsicCall`. -/
def isMemCpyInstrinsicCall (call : CallInst V) : Bool :=
  match call.calledFunctionName with
  | none => false
  | some name => decide ("llvm.memcpy".toList <:+: name.toList)

end CallInst

namespace ObjectFunction

variable {F V B : Type} (fn : ObjectFunction V B)

/-- `isa<Instruction>`. -/
def isInstruction (v : V) : Bool :=
  match fn.kind v with
  | .noInstruction => false
  | _ => true

/-- `LoopStructure::isIncluded` of an instruction. -/
def isIncluded [DecidableEq B] (loop : LoopStructure F B) (i : V) : Bool :=
  loop.isIncluded (fn.getParent i)

/-- `LoopStructure::getInstructions`. -/
def getInstructions (loop : LoopStructure F B) : List V :=
  loop.bbs.elems.flatMap fn.instructions

end ObjectFunction

namespace ClonableMemoryObject

variable {F V B : Type} [DecidableEq V] [DecidableEq B] (ord : IterOrder) (fn : ObjectFunction V B)
  (loop : LoopStructure F B) (DT : DominatorForest B) (ldg : PDG V)

/-! ## The users of the object -/

/-- `setObjectScope`: there is a lifetime call about the object in the loop. -/
def setObjectScope (allocation : V) : Bool :=
  (fn.getInstructions loop).any fun inst =>
    match fn.kind inst with
    | .callInst call =>
        call.isLifetimeStartOrEnd &&
          match call.arguments[1]? with
          | some objectUsed =>
              match fn.kind objectUsed with
              | .castInst operand => decide (operand = allocation)
              | _ => decide (objectUsed = allocation)
          | none => false
    | _ => false

/-- The use is the destination of an `llvm.memcpy`. -/
def isMemCpyDestination (i : V) (call : CallInst V) : Bool :=
  call.isMemCpyInstrinsicCall && decide (call.arguments.length = 4)
    && decide (call.arguments[0]? = some i)

/-- The use is the source of an `llvm.memcpy`. -/
def isMemCpySource (i : V) (call : CallInst V) : Bool :=
  call.isMemCpyInstrinsicCall && decide (call.arguments.length = 4)
    && decide (call.arguments[1]? = some i)

/-- The set that a call which uses `i` belongs to. -/
def addCall (i user : V) (call : CallInst V) (found : ObjectUsers V) : ObjectUsers V :=
  if isMemCpyDestination i call then
    { found with storingInstructions := found.storingInstructions.insert user }
  else if isMemCpySource i call then
    { found with loadInstructions := found.loadInstructions.insert user }
  else { found with nonStoringInstructions := found.nonStoringInstructions.insert user }

/-- The user is outside the loop and its block does not dominate the header. -/
def isOutsideAndNotBefore (user : V) : Option Bool :=
  if fn.isIncluded loop user then some false
  else (DT.dominatesBlock (fn.getParent user) loop.getHeader).map (!·)

/-- The checks at the end of the loop over the users. -/
def checkUser (user : V) (s : UserWalk V) : Option (UserWalk V) :=
  (isOutsideAndNotBefore fn loop DT user).map fun isBad =>
    if isBad then { s with returnedFalse := true }
    else if fn.kind user = .invokeInst then { s with returnedFalse := true }
    else s

/-- The body of the loop over the users of `i`. -/
def visitUser (i : V) (s : UserWalk V) (user : V) : Option (UserWalk V) :=
  if s.returnedFalse then some s
  else
    let { allocationUses, found, .. } := s
    match fn.kind user with
    | .castInst _ =>
        some { s with
          allocationUses := allocationUses ++ [user]
          found := { found with castsAndGEPs := found.castsAndGEPs.insert user } }
    | .getElementPtrInst _ _ =>
        some { s with
          allocationUses := allocationUses ++ [user]
          found := { found with castsAndGEPs := found.castsAndGEPs.insert user } }
    | .storeInst _ =>
        checkUser fn loop DT user { s with
          found := { found with storingInstructions := found.storingInstructions.insert user } }
    | .loadInst =>
        checkUser fn loop DT user { s with
          found := { found with loadInstructions := found.loadInstructions.insert user } }
    | .callInst call =>
        if call.isLifetimeStartOrEnd then some s
        else checkUser fn loop DT user { s with found := addCall i user call found }
    | .noInstruction => some { s with returnedFalse := true }
    | _ =>
        checkUser fn loop DT user { s with
          found := { found with nonStoringInstructions := found.nonStoringInstructions.insert user } }

/-- The body of the loop over the queue. -/
def visitUsers (s : UserWalk V) : Option (UserWalk V) :=
  match s.allocationUses with
  | [] => none
  | i :: allocationUses =>
      (fn.users i).foldlM (visitUser fn loop DT i) { s with allocationUses := allocationUses }

/-- `identifyStoresAndOtherUsers`: what was found, unless the result is false. -/
def identifyStoresAndOtherUsers (allocation : V) (fuel : Nat) : Option (UserWalk V) :=
  loopM (fun s => !s.allocationUses.isEmpty && !s.returnedFalse) (visitUsers fn loop DT) fuel
    { allocationUses := [allocation] }

/-! ## The checks on the dependence graph -/

def memoryDependences : PDG.Filter := ⟨false, true, false⟩

/-- `PDG::iterateOverDependencesTo` with a callback that only answers. -/
def anyDependenceTo (inst : V) (functor : V → DGEdge V → Bool) : Bool :=
  (PDG.iterateOverDependencesTo ord ldg inst memoryDependences
    (fun _ fromValue d => (functor fromValue d, ())) ()).1.1

/-- `PDG::iterateOverDependencesFrom` with a callback that only answers. -/
def anyDependenceFrom (inst : V) (functor : V → DGEdge V → Bool) : Bool :=
  (PDG.iterateOverDependencesFrom ord ldg inst memoryDependences
    (fun _ toValue d => (functor toValue d, ())) ()).1.1

/-- The other end is an instruction of the loop and the dependence is loop-carried. -/
def isLoopCarriedWithin (value : V) (d : DGEdge V) : Bool :=
  if !fn.isInstruction value then false
  else if !fn.isIncluded loop value then false
  else (ldg.edgeAttr d).isLoopCarried

def isThereAMemoryDependenceBetweenLoopIterations (insts : PtrSet V) : Bool :=
  (ord.visit insts.elems).any fun inst =>
    fn.isIncluded loop inst &&
      (anyDependenceTo ord ldg inst (isLoopCarriedWithin fn loop ldg) ||
        anyDependenceFrom ord ldg inst (isLoopCarriedWithin fn loop ldg))

/-- The callback of the check between iterations: a loop-carried RAW from the loop. -/
def isLoopCarriedRAWWithin (fromValue : V) (d : DGEdge V) : Bool :=
  if !fn.isInstruction fromValue then false
  else if !fn.isIncluded loop fromValue then false
  else if d.dataDepType ≠ some .raw then false
  else (ldg.edgeAttr d).isLoopCarried

/-- The callback of the checks across the loop boundary: a RAW with an instruction outside. -/
def isRAWWithOutside (value : V) (d : DGEdge V) : Bool :=
  if !fn.isInstruction value then false
  else if fn.isIncluded loop value then false
  else decide (d.dataDepType = some .raw)

/-- `isThereRAWThroughMemoryBetweenLoopIterations` of a set of instructions. -/
def isThereRAWThroughMemoryBetweenLoopIterationsTo (insts : PtrSet V) : Bool :=
  (ord.visit insts.elems).any fun inst =>
    fn.isIncluded loop inst && anyDependenceTo ord ldg inst (isLoopCarriedRAWWithin fn loop ldg)

/-- `isThereRAWThroughMemoryBetweenLoopIterations`: only the loads are asked about. -/
def isThereRAWThroughMemoryBetweenLoopIterations (found : ObjectUsers V) : Bool :=
  isThereRAWThroughMemoryBetweenLoopIterationsTo ord fn loop ldg found.loadInstructions

/-- `isThereRAWThroughMemoryFromOutsideToLoop` of a set of instructions. -/
def isThereRAWThroughMemoryFromOutsideToLoopTo (insts : PtrSet V) : Bool :=
  (ord.visit insts.elems).any fun inst =>
    fn.isIncluded loop inst && anyDependenceTo ord ldg inst (isRAWWithOutside fn loop)

def isThereRAWThroughMemoryFromOutsideToLoop (found : ObjectUsers V) : Bool :=
  isThereRAWThroughMemoryFromOutsideToLoopTo ord fn loop ldg found.loadInstructions ||
    isThereRAWThroughMemoryFromOutsideToLoopTo ord fn loop ldg found.nonStoringInstructions

/-- `isThereRAWThroughMemoryFromLoopToOutside` of a set of instructions. -/
def isThereRAWThroughMemoryFromLoopToOutsideFrom (insts : PtrSet V) : Bool :=
  (ord.visit insts.elems).any fun inst =>
    fn.isIncluded loop inst && anyDependenceFrom ord ldg inst (isRAWWithOutside fn loop)

def isThereRAWThroughMemoryFromLoopToOutside (found : ObjectUsers V) : Bool :=
  isThereRAWThroughMemoryFromLoopToOutsideFrom ord fn loop ldg found.storingInstructions ||
    isThereRAWThroughMemoryFromLoopToOutsideFrom ord fn loop ldg found.nonStoringInstructions

/-! ## Override sets -/

def groupInstruction (overrideSets : List (OverrideSet V B)) (instToCover : V) :
    Option (List (OverrideSet V B)) := do
  let instBlock := fn.getParent instToCover
  let dominating ← (ord.visit overrideSets).findM? fun overrideSet =>
    DT.dominatesBlock overrideSet.dominatingBlockOfNonStoringInsts instBlock
  match dominating with
  | some overrideSet =>
      return overrideSets.map fun o =>
        if o.dominatingBlockOfNonStoringInsts = overrideSet.dominatingBlockOfNonStoringInsts then
          { o with subsequentNonStoringInstructions :=
              o.subsequentNonStoringInstructions.insert instToCover }
        else o
  | none => return overrideSets ++ [⟨instBlock, ∅, PtrSet.ofList [instToCover]⟩]

def distributeStore (overrideSets : List (OverrideSet V B)) (storingInstruction : V) :
    Option (List (OverrideSet V B)) :=
  if !fn.isIncluded loop storingInstruction then some overrideSets
  else
    overrideSets.mapM fun o => do
      if ← DT.dominatesBlock (fn.getParent storingInstruction) o.dominatingBlockOfNonStoringInsts then
        return { o with initialStoringInstructions :=
          o.initialStoringInstructions.insert storingInstruction }
      else return o

/-- `identifyInitialStoringInstructions`; nobody reads whether it returns true. -/
def identifyInitialStoringInstructions (found : ObjectUsers V) : Option (List (OverrideSet V B)) := do
  let instructionsNeedingCoverage :=
    (PtrSet.ofList (ord.visit found.nonStoringInstructions.elems)).insertAll
      (ord.visit found.loadInstructions.elems)
  let overrideSets ← (ord.visit instructionsNeedingCoverage.elems).foldlM
    (groupInstruction ord fn DT) []
  (ord.visit found.storingInstructions.elems).foldlM (distributeStore fn loop DT) overrideSets

/-- What one storing instruction of an override set covers: the whole object, one element of the
struct or nothing that is known. -/
inductive Coverage where
  | whole
  | element (index : Int)
  | nothing

/-- The body of the loop of `isOverrideSetFullyCoveringTheAllocationSpace`. -/
def coverageOf (object : StackObject V) (storingInstruction : V) : Option Coverage :=
  match fn.kind storingInstruction with
  | .storeInst pointerOperand =>
      match fn.kind pointerOperand with
      | .allocaInst => some .whole
      | .getElementPtrInst sourceElementTy indices =>
          if !sourceElementTy.isStructTy then some .nothing
          else if sourceElementTy ≠ object.allocatedType then some .nothing
          else
            match indices with
            | some baseIdx :: some elementIdx :: _ =>
                if baseIdx ≠ 0 then some .nothing else some (.element elementIdx)
            | _ :: _ :: _ => some .nothing
            | _ => none
      | _ => some .nothing
  | .callInst call =>
      if !call.isMemCpyInstrinsicCall then none
      else
        match call.arguments[2]?.bind fn.constantInt with
        | none => some .nothing
        | some bytesStored =>
            if object.sizeInBits = bytesStored * 8 % 2 ^ 64 then some .whole else some .nothing
  | _ => some .nothing

/-- The loop of `isOverrideSetFullyCoveringTheAllocationSpace`: the elements stored to, or the
inner `none` where it returns true. -/
def structElementsStoredTo (object : StackObject V) (elements : PtrSet Int) :
    List V → Option (Option (PtrSet Int))
  | [] => some (some elements)
  | storingInstruction :: rest =>
      match coverageOf fn object storingInstruction with
      | none => none
      | some .whole => some none
      | some (.element elementIdx) => structElementsStoredTo object (elements.insert elementIdx) rest
      | some .nothing => structElementsStoredTo object elements rest

def isOverrideSetFullyCoveringTheAllocationSpace (object : StackObject V)
    (overrideSet : OverrideSet V B) : Option Bool := do
  match ← structElementsStoredTo fn object ∅
      (ord.visit overrideSet.initialStoringInstructions.elems) with
  | none => return true
  | some elements =>
      match object.allocatedType with
      | .structTy _ numElements => return decide (elements.size = numElements)
      | _ => return false

def areOverrideSetsFullyCoveringTheAllocationSpace (object : StackObject V)
    (overrideSets : List (OverrideSet V B)) : Option Bool :=
  if overrideSets.isEmpty then some false
  else (ord.visit overrideSets).allM (isOverrideSetFullyCoveringTheAllocationSpace ord fn object)

/-! ## The constructor -/

/-- The end of the constructor: objects that code after the loop reads. -/
def decideByOverrideSets (object : StackObject V) (self : ClonableMemoryObject V) :
    Option (ClonableMemoryObject V) :=
  if !self.isScopeWithinLoop && !object.allocatedType.isStructTy
      && !object.allocatedType.isIntegerTy then
    some self
  else
    (identifyInitialStoringInstructions ord fn loop DT self.found).bind fun overrideSets =>
      if self.isScopeWithinLoop then some { self with isClonable := true }
      else
        (areOverrideSetsFullyCoveringTheAllocationSpace ord fn object overrideSets).map fun covered =>
          if !covered || isThereRAWThroughMemoryFromLoopToOutside ord fn loop ldg self.found then self
          else { self with isClonable := true }

/-- The constructor after the users have been found. -/
def decideClonable (object : StackObject V) (self : ClonableMemoryObject V) :
    Option (ClonableMemoryObject V) :=
  let found := self.found
  if !isThereAMemoryDependenceBetweenLoopIterations ord fn loop ldg found.storingInstructions
      && !isThereAMemoryDependenceBetweenLoopIterations ord fn loop ldg found.nonStoringInstructions
      && !self.isScopeWithinLoop then
    some self
  else if isThereRAWThroughMemoryBetweenLoopIterations ord fn loop ldg found then some self
  else if self.isScopeWithinLoop then some { self with isClonable := true }
  else if !isThereRAWThroughMemoryFromLoopToOutside ord fn loop ldg found then
    if !isThereRAWThroughMemoryFromOutsideToLoop ord fn loop ldg found then
      some { self with isClonable := true }
    else some { self with needInitialization := true, isClonable := true }
  else decideByOverrideSets ord fn loop DT ldg object self

/-- The constructor of `ClonableMemoryObject`. -/
def ofObject (object : StackObject V) (fuel : Nat) : Option (ClonableMemoryObject V) := do
  let isScopeWithinLoop := setObjectScope fn loop object.allocation
  let walk ← identifyStoresAndOtherUsers fn loop DT object.allocation fuel
  let self : ClonableMemoryObject V := { isScopeWithinLoop, found := walk.found }
  if walk.returnedFalse then return self
  decideClonable ord fn loop DT ldg object self

end ClonableMemoryObject

end Noelle
