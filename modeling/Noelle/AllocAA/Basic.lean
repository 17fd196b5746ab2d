import Noelle.Lib.Collections
import Noelle.Lib.Loop

/-!
# AllocAA.Basic

`AllocAA`: global pointers and heap allocations that are used as arrays of their own.

A global variable is classified if its address is used by loads and by stores of fresh
allocations only; its initializer is not looked at.  The recursions of the analysis have
fuel, for the depth of the call stack.
-/

namespace Noelle

/-- The classes of values that the analysis tells apart, with their operands. -/
inductive AllocValue (V : Type) where
  | loadInst (pointerOperand : V)
  | storeInst (valueOperand pointerOperand : V)
  | callInst (calledOperand : V) (arguments : List V)
  | castInst (operand : V)
  | getElementPtrInst (pointerOperand : V) (indices : List V)
  | branchOrSwitchInst (operandList : List V)
  | returnInst (returnValue : Option V)
  | otherTerminator (operandList : List V)
  | otherInstruction (operandList : List V)
  | argument
  | globalVariable (initializer : Option V)
  | function (name : String)
  | constantData
  | bitCastOperator (operand : V)
  | zExtOperator (operand : V)
  | otherConstant (operandList : List V)
  deriving DecidableEq

namespace AllocValue

variable {V : Type}

/-- `User::operands`. -/
def operands : AllocValue V → List V
  | loadInst pointerOperand => [pointerOperand]
  | storeInst valueOperand pointerOperand => [valueOperand, pointerOperand]
  | callInst calledOperand arguments => calledOperand :: arguments
  | castInst operand => [operand]
  | getElementPtrInst pointerOperand indices => pointerOperand :: indices
  | branchOrSwitchInst operandList => operandList
  | returnInst returnValue => returnValue.toList
  | otherTerminator operandList => operandList
  | otherInstruction operandList => operandList
  | argument => []
  | globalVariable initializer => initializer.toList
  | function _ => []
  | constantData => []
  | bitCastOperator operand => [operand]
  | zExtOperator operand => [operand]
  | otherConstant operandList => operandList

/-- `isa<Instruction>`. -/
def isInstruction : AllocValue V → Bool
  | loadInst _ | storeInst _ _ | callInst _ _ | castInst _ | getElementPtrInst _ _
  | branchOrSwitchInst _ | returnInst _ | otherTerminator _ | otherInstruction _ => true
  | _ => false

/-- `isa<GlobalVariable>`. -/
def isGlobalVariable : AllocValue V → Bool
  | globalVariable _ => true
  | _ => false

end AllocValue

/-- A module: all its values, where every operand is one of them. -/
structure AllocModule (V : Type) where
  values : PtrSet V
  value : V → AllocValue V
  operand_mem : ∀ u ∈ values, ∀ v ∈ (value u).operands, v ∈ values
  /-- `isa<IntegerType>` of the type. -/
  isIntegerTy : V → Bool
  /-- `Instruction::getFunction`. -/
  getFunction : V → V
  /-- `Function::empty`. -/
  empty : V → Bool
  hasExternalLinkage : V → Bool
  hasLocalLinkage : V → Bool

/-- `llvm::CallGraph`: the call records of a function, with the call and the callee where
they are known. -/
abbrev CallRecords (V : Type) := V → List (Option V × Option V)

namespace AllocModule

variable {V : Type} [DecidableEq V] (M : AllocModule V)

/-- `Value::users`: one entry for each use. -/
def users (v : V) : List V :=
  M.values.elems.flatMap fun u => ((M.value u).operands.filter fun w => w = v).map fun _ => u

@[simp] theorem mem_users {u v : V} : u ∈ M.users v ↔ u ∈ M.values ∧ v ∈ (M.value u).operands := by
  simp only [users, List.mem_flatMap, List.mem_map, List.mem_filter, decide_eq_true_eq]
  constructor
  · rintro ⟨u, hu, w, ⟨hw, rfl⟩, rfl⟩
    exact ⟨hu, hw⟩
  · rintro ⟨hu, hv⟩
    exact ⟨u, hu, v, ⟨hv, rfl⟩, rfl⟩

/-- `isa<Instruction>`. -/
def isInstruction (v : V) : Bool := (M.value v).isInstruction

/-- `CallBase::getCalledFunction`, by its name. -/
def calledFunctionName (v : V) : Option String :=
  match M.value v with
  | .callInst calledOperand _ =>
      match M.value calledOperand with
      | .function name => some name
      | _ => none
  | _ => none

/-- `Value::hasOneUse`. -/
def hasOneUse (v : V) : Bool := decide ((M.users v).length = 1)

end AllocModule

/-- `readOnlyFunctionNames`: nothing fills it. -/
def readOnlyFunctionNames : List String := []

def allocatorFunctionNames : List String := ["malloc", "calloc"]

/-- The members of `AllocAA` that its constructor fills for the queries about arrays. -/
structure AllocAA (V : Type) where
  CGUnderMain : PtrSet V
  allocatorCalls : PtrSet V
  primitiveArrayGlobals : PtrSet V
  primitiveArrayLocals : PtrSet V

namespace AllocAA

variable {V : Type} [DecidableEq V] (ord : IterOrder) (M : AllocModule V)

/-! ## Users -/

/-- The instruction that a user stands for. -/
def userInstruction (user : V) : Option V :=
  match M.value user with
  | .bitCastOperator _ | .zExtOperator _ =>
      match M.users user with
      | [operUser] => if M.isInstruction operUser then some operUser else none
      | _ => none
  | _ => if M.isInstruction user then some user else none

omit [DecidableEq V] in
theorem singleUser_eq_some {l : List V} {I : V}
    (h : (match l with
      | [operUser] => if M.isInstruction operUser then some operUser else none
      | _ => none) = some I) : M.isInstruction I = true ∧ l = [I] := by
  split at h
  · split at h
    · next hinst => exact ⟨Option.some.inj h ▸ hinst, by rw [Option.some.inj h]⟩
    · cases h
  · cases h

/-- `AllocAA::collectUserInstructions`, `none` for false. -/
def collectUserInstructions (v : V) : Option (PtrSet V) :=
  ((M.users v).mapM (userInstruction M)).map PtrSet.ofList

/-! ## Escape -/

def storedDoesNotEscape (doesValueNotEscape : V → Option Bool) (stored : V) : Option Bool :=
  if M.isIntegerTy stored then
    if M.isInstruction stored then doesValueNotEscape stored
    else some (decide (M.value stored = .constantData))
  else some false

def storageDoesNotEscape (doesValueNotEscape : V → Option Bool) (I storage : V) : Option Bool :=
  if storage = I then some true
  else if M.isInstruction storage then doesValueNotEscape storage
  else some false

/-- The body of the loop over the users of `I`, after `user` was checked. -/
def userDoesNotEscape (doesValueNotEscape : V → Option Bool) (I user : V) : Option Bool :=
  match M.value user with
  | .branchOrSwitchInst _ => some true
  | .returnInst returnValue => some (returnValue.any M.isIntegerTy)
  | .otherTerminator _ => some false
  | .storeInst valueOperand pointerOperand => do
      let stored ← storedDoesNotEscape M doesValueNotEscape valueOperand
      let storage ← storageDoesNotEscape M doesValueNotEscape I pointerOperand
      return stored && storage
  | _ => if M.isIntegerTy user then doesValueNotEscape user else some false

/-- The loop over the users of `I`. -/
def usersDoNotEscape (doesValueNotEscape : PtrSet V → V → Option Bool) (I : V) :
    List V → PtrSet V → Option Bool
  | [], _ => some true
  | user :: users, checked =>
      if !M.isInstruction user then some false
      else if user ∈ checked then usersDoNotEscape doesValueNotEscape I users checked
      else do
        let checked := checked.insert user
        if ← userDoesNotEscape M (doesValueNotEscape checked) I user then
          usersDoNotEscape doesValueNotEscape I users checked
        else return false

def doesValueNotEscape : Nat → PtrSet V → V → Option Bool
  | 0, _, _ => none
  | fuel + 1, checked, I => usersDoNotEscape M (doesValueNotEscape fuel) I (M.users I) checked

/-! ## Arrays -/

/-- A loop that stops at the first element without the property. -/
def allOf (p : V → Option Bool) : List V → Option Bool
  | [] => some true
  | v :: l => do
      if ← p v then allOf p l else return false

def isPrimitiveArray : Nat → PtrSet V → Option Bool
  | 0, _ => none
  | fuel + 1, userInstructions =>
      allOf (fun I =>
        match M.value I with
        | .castInst _ =>
            match collectUserInstructions M I with
            | some castUsers => isPrimitiveArray fuel castUsers
            | none => some false
        | .getElementPtrInst _ _ => doesValueNotEscape M fuel (PtrSet.insert ∅ I) I
        | .callInst _ _ => some ((M.calledFunctionName I).any (readOnlyFunctionNames.contains ·))
        | _ => some false) (ord.visit userInstructions.elems)

def isPrimitiveArrayPointer (fuel : Nat) (userInstructions : PtrSet V) : Option Bool :=
  allOf (fun I =>
    match M.value I with
    | .storeInst valueOperand _ =>
        some ((M.calledFunctionName valueOperand).any (allocatorFunctionNames.contains ·) &&
          M.hasOneUse valueOperand)
    | .loadInst _ =>
        match collectUserInstructions M I with
        | some allUsers => isPrimitiveArray ord M fuel allUsers
        | none => some false
    | _ => some false) (ord.visit userInstructions.elems)

/-! ## The constructor -/

/-- The body of the loop over the call records of a function. -/
def visitCallRecord (st : List V × PtrSet V) (callRecord : Option V × Option V) :
    List V × PtrSet V :=
  match callRecord.2 with
  | none => st
  | some F =>
      if M.empty F then st
      else if F ∈ st.2 then st
      else (st.1 ++ [F], st.2.insert F)

/-- `AllocAA::collectCGUnderFunctionMain`.  A function is traversed once. -/
def collectCGUnderFunctionMain (callGraph : CallRecords V) : Option (PtrSet V) := do
  let main ← M.values.elems.find? fun v => decide (M.value v = .function "main")
  let (_, reached) ← loopM (fun (st : List V × PtrSet V) => !st.1.isEmpty)
    (fun (funcToTraverse, reached) =>
      match funcToTraverse with
      | [] => none
      | func :: funcToTraverse =>
          some ((callGraph func).foldl (visitCallRecord M) (funcToTraverse, reached)))
    M.values.size ([main], PtrSet.insert ∅ main)
  return reached

/-- The body of the loop of `AllocAA::collectFunctionCallsTo`. -/
def collectCall (called : List V) (calls : PtrSet V) (callRecord : Option V × Option V) :
    PtrSet V :=
  match callRecord with
  | (some v, some F) =>
      if F ∈ called then
        match M.value v with
        | .callInst _ _ => calls.insert v
        | _ => calls
      else calls
  | _ => calls

/-- `AllocAA::collectAllocations`, with `collectFunctionCallsTo`. -/
def collectAllocations (callGraph : CallRecords V) (CGUnderMain : PtrSet V) : PtrSet V :=
  let allocatorFns := M.values.elems.filter fun v =>
    allocatorFunctionNames.any fun allocName => decide (M.value v = .function allocName)
  (ord.visit CGUnderMain.elems).foldl (fun calls caller =>
    (callGraph caller).foldl (collectCall M allocatorFns) calls) ∅

/-- The body of the loop over the global variables. -/
def classifyGlobal (fuel : Nat) (CGUnderMain primitiveArrayGlobals : PtrSet V) (GV : V) :
    Option (PtrSet V) :=
  if M.hasExternalLinkage GV then some primitiveArrayGlobals
  else if (M.users GV).isEmpty then some primitiveArrayGlobals
  else
    match collectUserInstructions M GV with
    | none => some primitiveArrayGlobals
    | some scopedUsers => do
        let relevantToMain := scopedUsers.elems.any fun I => decide (M.getFunction I ∈ CGUnderMain)
        if !relevantToMain then return primitiveArrayGlobals
        if ← isPrimitiveArrayPointer ord M fuel scopedUsers then
          return primitiveArrayGlobals.insert GV
        return primitiveArrayGlobals

/-- The body of the loop over the calls of allocators. -/
def classifyCall (fuel : Nat) (primitiveArrayLocals : PtrSet V) (call : V) : Option (PtrSet V) :=
  match collectUserInstructions M call with
  | none => some primitiveArrayLocals
  | some allUsers => do
      if ← isPrimitiveArray ord M fuel allUsers then return primitiveArrayLocals.insert call
      return primitiveArrayLocals

/-- `AllocAA::AllocAA`, with `collectPrimitiveArrayValues`. -/
def new (callGraph : CallRecords V) (fuel : Nat) : Option (AllocAA V) := do
  let CGUnderMain ← collectCGUnderFunctionMain M callGraph
  let allocatorCalls := collectAllocations ord M callGraph CGUnderMain
  let globals := M.values.elems.filter fun v => (M.value v).isGlobalVariable
  let primitiveArrayGlobals ← globals.foldlM (classifyGlobal ord M fuel CGUnderMain) ∅
  let primitiveArrayLocals ←
    (ord.visit allocatorCalls.elems).foldlM (classifyCall ord M fuel) ∅
  return { CGUnderMain, allocatorCalls, primitiveArrayGlobals, primitiveArrayLocals }

/-! ## Queries -/

variable (aa : AllocAA V)

/-- The operand of a cast, and any other value itself. -/
def stripCast (v : V) : V :=
  match M.value v with
  | .castInst operand => operand
  | _ => v

def getLocalPrimitiveArray (v : V) : Option V :=
  let targetV := stripCast M v
  if M.isInstruction targetV && decide (targetV ∈ aa.primitiveArrayLocals) then some targetV
  else none

def getGlobalValuePrimitiveArray (v : V) : Option V :=
  let targetV := stripCast M v
  if targetV ∈ aa.primitiveArrayGlobals then some targetV else none

def getPrimitiveArray (v : V) : Option V :=
  (aa.getLocalPrimitiveArray M v).or (aa.getGlobalValuePrimitiveArray M v)

def getMemoryPointerOperand (v : V) : Option V :=
  match M.value v with
  | .loadInst pointerOperand => some pointerOperand
  | .storeInst _ pointerOperand => some pointerOperand
  | _ => none

/-- `AllocAA::getPrimitiveArrayAccess`: the array, and the GEP if there is one. -/
def getPrimitiveArrayAccess (v : V) : Option (V × Option V) := do
  let memOp ← getMemoryPointerOperand M v
  match aa.getPrimitiveArray M memOp with
  | some directAccessArray => return (directAccessArray, none)
  | none =>
      match M.value memOp with
      | .getElementPtrInst gepMemOp _ =>
          match aa.getLocalPrimitiveArray M gepMemOp with
          | some localArray => return (localArray, some memOp)
          | none => do
              let loadMemOp ← getMemoryPointerOperand M gepMemOp
              let globalArray ← aa.getGlobalValuePrimitiveArray M loadMemOp
              return (globalArray, some memOp)
      | _ => none

/-- `PDGGenerator::isMemoryAccessIntoDifferentArrays`, for an edge from `src` to `dst`. -/
def isMemoryAccessIntoDifferentArrays (src dst : V) : Bool :=
  match aa.getPrimitiveArrayAccess M src, aa.getPrimitiveArrayAccess M dst with
  | some (array1, _), some (array2, _) => decide (array1 ≠ array2)
  | _, _ => false

end AllocAA

end Noelle
