import Noelle.Lib.Collections
import Noelle.Lib.Loop

/-!
# MayPointsToAnalysis.Basic

The may-points-to analysis of one function: `MpaSummary`.

Node ids are assigned by a counter, one for each memory object and one for each stripped
pointer, so a node is the object or the pointer it stands for.  The unknown object is
`none`.  A `BitVector` of the points-to graph is the set of its bits, and a default one,
which has no bits at all, is `none`: the comparison of `unionPts` tells it from an empty
set of the right size.
-/

namespace Noelle

inductive MPAFunctionType
  | malloc
  | calloc
  | realloc
  | free
  | intrinsic
  | readOnly
  | memCopy
  | userDefined
  | unknown
  deriving DecidableEq

/-- What the analysis asks of an LLVM value. -/
inductive MpaValue (V : Type)
  | allocaInst
  | phiNode (incomingValues : List V)
  | selectInst (trueValue falseValue : V)
  | argument
  | globalVariable
  | constantPointerNull
  | getElementPtr (pointerOperand : V)
  | bitCast (stripPointerCasts : V)
  | loadInst (pointerOperand : V)
  | storeInst (valueOperand pointerOperand : V)
  | callBase (calleeType : MPAFunctionType) (argOperands : List V)
  | other
  deriving DecidableEq

inductive NodeID (V : Type)
  | memobj (m : Option V)
  | ptr (stripped : V)
  deriving DecidableEq

def UnknownMemobjId {V : Type} : NodeID V := .memobj none

/-- A function, and the parts of the module that the analysis of it reads.  `users` are the
users of a value in the whole module: a global variable is also used in other functions. -/
structure MpaFunction (V : Type) where
  value : V → MpaValue V
  isPointerTy : V → Bool
  users : V → List V
  args : List V
  instructions : List V
  privatizeCandidate : Option V
  candidate_global : ∀ v ∈ privatizeCandidate, value v = .globalVariable
  /-- No chain of casts and GEPs is longer. -/
  castDepth : Nat

namespace MpaFunction

variable {V : Type} [DecidableEq V] (F : MpaFunction V)

/-! ## Pointers and allocations -/

/-- `strip` for chains of a bounded length. -/
def stripN : Nat → V → V
  | 0, pointer => pointer
  | n + 1, pointer =>
      match F.value pointer with
      | .getElementPtr pointerOperand => stripN n pointerOperand
      | .bitCast stripPointerCasts => stripN n stripPointerCasts
      | _ => pointer

def strip (pointer : V) : V := F.stripN F.castDepth pointer

/-- The pointers that `insertPointer` takes off its queue. -/
def castChain : Nat → V → List V
  | 0, pointer => [pointer]
  | n + 1, pointer => pointer ::
      match F.value pointer with
      | .getElementPtr pointerOperand => castChain n pointerOperand
      | .bitCast stripPointerCasts => castChain n stripPointerCasts
      | _ => []

/-- The values that the constructor gives to `insertPointer` for an instruction. -/
def pointersOf (inst : V) : List V :=
  match F.value inst with
  | .loadInst pointerOperand => [pointerOperand, inst]
  | .storeInst valueOperand pointerOperand => [valueOperand, pointerOperand]
  | .getElementPtr _ => [inst]
  | .bitCast _ => [inst]
  | .allocaInst => [inst]
  | .callBase .malloc _ => [inst]
  | .callBase .calloc _ => [inst]
  | .callBase .free _ => []
  | .callBase .realloc _ => [inst]
  | .callBase _ argOperands => inst :: argOperands
  | .phiNode incomingValues => if F.isPointerTy inst then inst :: incomingValues else []
  | .selectInst trueValue falseValue =>
      if F.isPointerTy inst then [inst, trueValue, falseValue] else []
  | _ => []

/-- The member `pointers`, filled by the constructor. -/
def pointers : PtrSet V :=
  PtrSet.ofList (((F.args ++ F.instructions.flatMap F.pointersOf).filter F.isPointerTy).flatMap
    (F.castChain F.castDepth))

/-- The instruction is in one of `allocaInsts`, `mallocInsts` and `callocInsts`. -/
def isAllocationInst (inst : V) : Bool :=
  match F.value inst with
  | .allocaInst => true
  | .callBase .malloc _ => true
  | .callBase .calloc _ => true
  | _ => false

def getAllocations : PtrSet V :=
  (PtrSet.ofList (F.instructions.filter F.isAllocationInst)).insertAll F.privatizeCandidate.toList

end MpaFunction

/-- The members of `MpaSummary` that the analysis changes. -/
structure MpaSummary (V : Type) where
  ptr2nodeId : PtrSet V
  pointsTo : NodeID V → Option (PtrSet (Option V))
  copyOutEdges : NodeID V → PtrSet (NodeID V)
  incomingStores : NodeID V → PtrSet V
  outgoingLoads : NodeID V → PtrSet V
  usedAsFuncArg : PtrSet (NodeID V)
  worklist : List (NodeID V)

namespace MpaSummary

variable {V : Type} [DecidableEq V] (ord : IterOrder) (F : MpaFunction V)

/-- `clearPointsToSummary`. -/
def clear : MpaSummary V where
  ptr2nodeId := ∅
  pointsTo _ := none
  copyOutEdges _ := ∅
  incomingStores _ := ∅
  outgoingLoads _ := ∅
  usedAsFuncArg := ∅
  worklist := []

/-- `getPtrId`: the node of a pointer, which is known from now on. -/
def getPtrId (s : MpaSummary V) (v : V) : NodeID V × MpaSummary V :=
  (.ptr (F.strip v), { s with ptr2nodeId := s.ptr2nodeId.insert (F.strip v) })

def addCopyEdge (s : MpaSummary V) (src dst : NodeID V) : Bool × MpaSummary V :=
  (decide (dst ∉ s.copyOutEdges src), { s with
    copyOutEdges := Function.update s.copyOutEdges src ((s.copyOutEdges src).insert dst) })

/-- `pointsTo[nodeId] = pts`. -/
def setPointsTo (s : MpaSummary V) (nodeId : NodeID V) (pts : PtrSet (Option V)) : MpaSummary V :=
  { s with pointsTo := Function.update s.pointsTo nodeId (some pts) }

def onlyPointsTo (memobj : Option V) : PtrSet (Option V) := PtrSet.ofList [memobj]

def getPointeeBitVector (s : MpaSummary V) (nodeId : NodeID V) : PtrSet (Option V) :=
  (s.pointsTo nodeId).getD ∅

/-! ## Generating the constraints -/

/-- The part of the loop of `initPtInfo` that depends on what a pointer is. -/
def initPointer (s : MpaSummary V) (ptr : V) (ptrId : NodeID V) : MpaSummary V :=
  if ptr ∈ F.getAllocations then s.setPointsTo ptrId (onlyPointsTo (some ptr))
  else
    match F.value ptr with
    | .phiNode incomingValues =>
        incomingValues.foldl (fun s incoming =>
          let (incomingPtrId, s) := s.getPtrId F incoming
          (s.addCopyEdge incomingPtrId ptrId).2) s
    | .selectInst trueValue falseValue =>
        let (trueValuePtrId, s) := s.getPtrId F trueValue
        let (falseValuePtrId, s) := s.getPtrId F falseValue
        ((s.addCopyEdge trueValuePtrId ptrId).2.addCopyEdge falseValuePtrId ptrId).2
    | .argument => s.setPointsTo ptrId (onlyPointsTo none)
    | .globalVariable => s.setPointsTo ptrId (onlyPointsTo none)
    | .callBase .realloc (argOperand :: _) =>
        let (argId, s) := s.getPtrId F argOperand
        (s.addCopyEdge argId ptrId).2
    | .callBase .userDefined _ =>
        ((s.setPointsTo ptrId (onlyPointsTo none)).addCopyEdge UnknownMemobjId ptrId).2
    | .callBase .unknown _ =>
        ((s.setPointsTo ptrId (onlyPointsTo none)).addCopyEdge UnknownMemobjId ptrId).2
    | .constantPointerNull => s.setPointsTo ptrId ∅
    | _ => s

/-- The body of the loop over the users of a pointer. -/
def recordUser (ptr : V) (ptrId : NodeID V) (s : MpaSummary V) (user : V) : MpaSummary V :=
  match F.value user with
  | .storeInst valueOperand pointerOperand =>
      if ptr = pointerOperand && F.isPointerTy valueOperand then
        { s with incomingStores :=
            Function.update s.incomingStores ptrId ((s.incomingStores ptrId).insert user) }
      else s
  | .loadInst pointerOperand =>
      if ptr = pointerOperand && F.isPointerTy user then
        { s with outgoingLoads :=
            Function.update s.outgoingLoads ptrId ((s.outgoingLoads ptrId).insert user) }
      else s
  | .callBase .memCopy (dst :: src :: _) =>
      let (srcId, s) := s.getPtrId F src
      let (dstId, s) := s.getPtrId F dst
      (s.addCopyEdge srcId dstId).2
  | .callBase .userDefined _ =>
      ({ s with usedAsFuncArg := s.usedAsFuncArg.insert ptrId }.addCopyEdge ptrId UnknownMemobjId).2
  | .callBase .unknown _ =>
      ({ s with usedAsFuncArg := s.usedAsFuncArg.insert ptrId }.addCopyEdge ptrId UnknownMemobjId).2
  | _ => s

/-- The body of the loop of `initPtInfo` over the pointers. -/
def initPtr (s : MpaSummary V) (ptr : V) : MpaSummary V :=
  let (ptrId, s) := s.getPtrId F ptr
  (F.users ptr).foldl (recordUser F ptr ptrId) (initPointer F s ptr ptrId)

def initPtInfo : MpaSummary V :=
  (ord.visit F.pointers.elems).foldl (initPtr F)
    ((clear : MpaSummary V).setPointsTo UnknownMemobjId (onlyPointsTo none))

/-! ## Solving them -/

/-- `worklist.push` if the condition holds. -/
def pushIf (s : MpaSummary V) (changed : Bool) (nodeId : NodeID V) : MpaSummary V :=
  if changed then { s with worklist := s.worklist ++ [nodeId] } else s

/-- The body of the loop of `handleLoadStore` over the loads. -/
def handleLoad (memobjId : NodeID V) (s : MpaSummary V) (loadInst : V) : MpaSummary V :=
  let (destId, s) := s.getPtrId F loadInst
  let (added, s) := s.addCopyEdge memobjId destId
  s.pushIf added memobjId

/-- The body of the loop of `handleLoadStore` over the stores. -/
def handleStore (memobjId : NodeID V) (s : MpaSummary V) (storeInst : V) : MpaSummary V :=
  match F.value storeInst with
  | .storeInst valueOperand _ =>
      let (srcId, s) := s.getPtrId F valueOperand
      let (added, s) := s.addCopyEdge srcId memobjId
      s.pushIf added srcId
  | _ => s

def handleLoadStore (s : MpaSummary V) (ptrId : NodeID V) : MpaSummary V :=
  (ord.visit (s.getPointeeBitVector ptrId).elems).foldl (fun s memobj =>
    let s := (ord.visit (s.outgoingLoads ptrId).elems).foldl (handleLoad F (.memobj memobj)) s
    (ord.visit (s.incomingStores ptrId).elems).foldl (handleStore F (.memobj memobj)) s) s

/-- The variables of `getreachableMemobjIds`. -/
structure ReachableSearch (V : Type) where
  reachable : PtrSet (Option V)
  todolist : List (NodeID V)

/-- The body of the loop of `getreachableMemobjIds` over the pointees. -/
def visitPointee (q : ReachableSearch V) (memObj : Option V) : ReachableSearch V :=
  if memObj ∈ q.reachable then q
  else ⟨q.reachable.insert memObj, q.todolist ++ [.memobj memObj]⟩

/-- The body of the loop of `getreachableMemobjIds` over the queue. -/
def visitNode (s : MpaSummary V) (q : ReachableSearch V) : Option (ReachableSearch V) :=
  match q.todolist with
  | [] => none
  | nodeId :: todolist =>
      some ((ord.visit (s.getPointeeBitVector nodeId).elems).foldl visitPointee
        ⟨q.reachable, todolist⟩)

def getreachableMemobjIds (s : MpaSummary V) (ptrId : NodeID V) : Option (PtrSet (Option V)) :=
  (loopM (fun q : ReachableSearch V => !q.todolist.isEmpty) (s.visitNode ord)
    (F.getAllocations.size + 2) ⟨∅, [ptrId]⟩).map (·.reachable)

/-- The body of the loop of `handleFuncUsers`. -/
def exchangeWithUnknown (s : MpaSummary V) (memobj : Option V) : MpaSummary V :=
  let (changedOut, s) := s.addCopyEdge (.memobj memobj) UnknownMemobjId
  let (changedIn, s) := s.addCopyEdge UnknownMemobjId (.memobj memobj)
  s.pushIf (changedOut || changedIn) (.memobj memobj)

def handleFuncUsers (s : MpaSummary V) (ptrId : NodeID V) : Option (MpaSummary V) :=
  if ptrId ∉ s.usedAsFuncArg then some s
  else do
    let reachable ← s.getreachableMemobjIds ord F ptrId
    return (ord.visit reachable.elems).foldl exchangeWithUnknown s

/-- `unionPts`, and the push of its caller. -/
def unionPts (srcId : NodeID V) (s : MpaSummary V) (dstId : NodeID V) : MpaSummary V :=
  match s.pointsTo srcId, s.pointsTo dstId with
  | none, _ => s
  | some src, none => { s.setPointsTo dstId src with worklist := s.worklist ++ [dstId] }
  | some src, some old =>
      if src.elems.all (· ∈ old) then s
      else { s.setPointsTo dstId (old.insertAll src.elems) with worklist := s.worklist ++ [dstId] }

def handleCopyEdges (s : MpaSummary V) (srcId : NodeID V) : MpaSummary V :=
  (ord.visit (s.copyOutEdges srcId).elems).foldl (unionPts srcId) s

/-- The body of the loop of `solveWorklist`, for the `i`-th node of the worklist.  The code
takes the first one. -/
def solveStep (s : MpaSummary V) (i : Nat) : Option (MpaSummary V) := do
  let nodeID ← s.worklist[i]?
  let s := { s with worklist := s.worklist.eraseIdx i }
  let s := s.handleLoadStore ord F nodeID
  let s ← s.handleFuncUsers ord F nodeID
  return s.handleCopyEdges ord nodeID

/-- The state in which the loop of `solveWorklist` starts. -/
def startWorklist : MpaSummary V :=
  let s := initPtInfo ord F
  { s with worklist := (ord.visit s.ptr2nodeId.elems).map .ptr }

/-- The loop of `solveWorklist`, with the places of the nodes it takes. -/
def solveWorklist (choices : List Nat) : Option (MpaSummary V) :=
  choices.foldlM (solveStep ord F) (startWorklist ord F)

end MpaSummary

end Noelle
