import Noelle.Lib.Collections

/-!
# CallGraph.Basic

The call graph of a module.

Nodes and edges are heap objects: a pointer with the members that never change.
The members of an edge that change are attributes kept beside the graph.  `edges`
holds the edges that are on the heap: `new` adds one and `delete` drops it.  An
operation whose assertion fails, that reads a missing key, or that touches an edge
which is not on the heap has no result.
-/

namespace Noelle

open Function

/-! ## Modules -/

/-- The instructions that call graphs look at, with the function that a call names. -/
inductive InstKind (F : Type) where
  | callInst (calledFunction : Option F)
  | invokeInst (calledFunction : Option F)
  | otherInst

/-- `CallBase::getCalledFunction`. -/
def InstKind.getCalledFunction {F : Type} : InstKind F → Option F
  | callInst calledFunction | invokeInst calledFunction => calledFunction
  | otherInst => none

/-- A use of a function: its user, if that is an instruction, and whether the use is the
function that the user calls. -/
structure FunctionUse (I : Type) where
  user : Option I
  asCallee : Bool

/-- A module: functions, their instructions and the uses of functions. -/
structure IRModule (F I : Type) where
  functions : PtrSet F
  instructions : F → List I
  kind : I → InstKind F
  getFunction : I → F
  uses : F → List (FunctionUse I)
  getFunction_eq : ∀ f ∈ functions, ∀ i ∈ instructions f, getFunction i = f
  /-- A function is used by instructions of the module only. -/
  use_ok : ∀ f ∈ functions, ∀ use ∈ uses f, ∀ i ∈ use.user,
    getFunction i ∈ functions ∧ i ∈ instructions (getFunction i) ∧
      (use.asCallee = true → (kind i).getCalledFunction = some f)
  /-- A module calls its own functions only. -/
  callee_ok : ∀ f ∈ functions, ∀ i ∈ instructions f, ∀ callee ∈ (kind i).getCalledFunction,
    callee ∈ functions

/-! ## Nodes and edges -/

structure CallGraphFunctionNode (F : Type) where
  addr : Nat
  f : F
  deriving DecidableEq

structure CallGraphInstructionNode (I : Type) where
  addr : Nat
  i : I
  deriving DecidableEq

/-- `CallGraphInstructionFunctionEdge`: the sub-edge of one instruction. -/
structure CallGraphInstructionFunctionEdge (F I : Type) where
  addr : Nat
  caller : CallGraphInstructionNode I
  callee : CallGraphFunctionNode F
  deriving DecidableEq

structure CallGraphFunctionFunctionEdge (F : Type) where
  addr : Nat
  caller : CallGraphFunctionNode F
  callee : CallGraphFunctionNode F
  deriving DecidableEq

/-- The members of a `CallGraphFunctionFunctionEdge` that change. -/
structure FunctionEdgeAttr (F I : Type) where
  isMust : Bool
  subEdges : PtrSet (CallGraphInstructionFunctionEdge F I)
  subEdgesMap : AList fun _ : I => CallGraphInstructionFunctionEdge F I

/-- `CallGraph`.  A node without an entry in `outgoingEdges` or `incomingEdges` has an
empty map there. -/
structure CallGraph (F I : Type) where
  functions : AList fun _ : F => CallGraphFunctionNode F
  instructionNodes : AList fun _ : I => CallGraphInstructionNode I
  outgoingEdges : CallGraphFunctionNode F →
    AList fun _ : CallGraphFunctionNode F => CallGraphFunctionFunctionEdge F
  incomingEdges : CallGraphFunctionNode F →
    AList fun _ : CallGraphFunctionNode F => CallGraphFunctionFunctionEdge F
  edges : PtrSet (CallGraphFunctionFunctionEdge F)
  edgeAttr : CallGraphFunctionFunctionEdge F → FunctionEdgeAttr F I
  subEdgeIsMust : CallGraphInstructionFunctionEdge F I → Bool
  nextAddr : Nat

namespace FunctionEdgeAttr

variable {F I : Type} [DecidableEq F] [DecidableEq I]

/-- `CallGraphFunctionFunctionEdge::addSubEdge`. -/
def addSubEdge (a : FunctionEdgeAttr F I) (subEdge : CallGraphInstructionFunctionEdge F I) :
    FunctionEdgeAttr F I :=
  { a with
    subEdges := a.subEdges.insert subEdge
    subEdgesMap := a.subEdgesMap.insert subEdge.caller.i subEdge }

/-- `CallGraphEdge::setMust`. -/
def setMust (a : FunctionEdgeAttr F I) : FunctionEdgeAttr F I := { a with isMust := true }

/-- `CallGraphEdge::unsetMust`. -/
def unsetMust (a : FunctionEdgeAttr F I) : FunctionEdgeAttr F I := { a with isMust := false }

/-- `CallGraphFunctionFunctionEdge::removeSubEdge`. -/
def removeSubEdge (a : FunctionEdgeAttr F I)
    (isAMustCall : CallGraphInstructionFunctionEdge F I → Bool)
    (subEdge : CallGraphInstructionFunctionEdge F I) : Option (FunctionEdgeAttr F I) :=
  if subEdge ∉ a.subEdges then none
  else
    let a := { a with
      subEdges := a.subEdges.erase subEdge
      subEdgesMap := a.subEdgesMap.erase subEdge.caller.i }
    if isAMustCall subEdge then
      if !a.isMust then none
      else if a.subEdges.elems.any isAMustCall then some a
      else some a.unsetMust
    else some a

end FunctionEdgeAttr

namespace CallGraph

variable {F I : Type} [DecidableEq F] [DecidableEq I]

/-! ## Queries -/

def getFunctionNode (g : CallGraph F I) (f : F) : Option (CallGraphFunctionNode F) :=
  g.functions.lookup f

def getFunctionNodes (g : CallGraph F I) : PtrSet (CallGraphFunctionNode F) :=
  PtrSet.ofList (g.functions.entries.map (·.2))

def getEdge (g : CallGraph F I) (fromNode toNode : CallGraphFunctionNode F) :
    Option (CallGraphFunctionFunctionEdge F) :=
  (g.outgoingEdges fromNode).lookup toNode

def getIncomingEdges (g : CallGraph F I) (node : CallGraphFunctionNode F) :
    PtrSet (CallGraphFunctionFunctionEdge F) :=
  PtrSet.ofList ((g.incomingEdges node).entries.map (·.2))

def getOutgoingEdges (g : CallGraph F I) (node : CallGraphFunctionNode F) :
    PtrSet (CallGraphFunctionFunctionEdge F) :=
  PtrSet.ofList ((g.outgoingEdges node).entries.map (·.2))

def getEdges (g : CallGraph F I) (node : CallGraphFunctionNode F) :
    PtrSet (CallGraphFunctionFunctionEdge F) :=
  (g.getIncomingEdges node).insertAll (g.getOutgoingEdges node).elems

/-- `CallGraphFunctionFunctionEdge::getSubEdges`. -/
def getSubEdges (g : CallGraph F I) (e : CallGraphFunctionFunctionEdge F) :
    PtrSet (CallGraphInstructionFunctionEdge F I) :=
  (g.edgeAttr e).subEdges

/-- `CallGraphEdge::isAMustCall` of a function-function edge. -/
def isAMustCall (g : CallGraph F I) (e : CallGraphFunctionFunctionEdge F) : Bool :=
  (g.edgeAttr e).isMust

/-! ## Changes of edges -/

/-- `instructionNodes[callInst]`, allocated when it is missing. -/
def fetchOrCreateInstructionNode (g : CallGraph F I) (callInst : I) :
    CallGraphInstructionNode I × CallGraph F I :=
  match g.instructionNodes.lookup callInst with
  | some instNode => (instNode, g)
  | none =>
      let instNode := ⟨g.nextAddr, callInst⟩
      (instNode, { g with
        instructionNodes := g.instructionNodes.insert callInst instNode
        nextAddr := g.nextAddr + 1 })

/-- Allocate a sub-edge. -/
def newSubEdge (g : CallGraph F I) (instNode : CallGraphInstructionNode I)
    (toNode : CallGraphFunctionNode F) (isMust : Bool) :
    CallGraphInstructionFunctionEdge F I × CallGraph F I :=
  let subEdge := ⟨g.nextAddr, instNode, toNode⟩
  (subEdge, { g with
    subEdgeIsMust := update g.subEdgeIsMust subEdge isMust
    nextAddr := g.nextAddr + 1 })

/-- Allocate an edge and record it at both ends. -/
def newEdge (g : CallGraph F I) (fromNode toNode : CallGraphFunctionNode F) (isMust : Bool) :
    CallGraphFunctionFunctionEdge F × CallGraph F I :=
  let edge := ⟨g.nextAddr, fromNode, toNode⟩
  (edge, { g with
    outgoingEdges :=
      update g.outgoingEdges fromNode ((g.outgoingEdges fromNode).insert toNode edge)
    incomingEdges :=
      update g.incomingEdges toNode ((g.incomingEdges toNode).insert fromNode edge)
    edges := g.edges.insert edge
    edgeAttr := update g.edgeAttr edge ⟨isMust, ∅, ∅⟩
    nextAddr := g.nextAddr + 1 })

/-- The edge between two nodes, allocated when it is missing. -/
def getOrNewEdge (g : CallGraph F I) (fromNode toNode : CallGraphFunctionNode F) (isMust : Bool) :
    CallGraphFunctionFunctionEdge F × CallGraph F I :=
  match g.getEdge fromNode toNode with
  | some existingEdge => (existingEdge, g)
  | none => g.newEdge fromNode toNode isMust

def fetchOrCreateEdge (g : CallGraph F I) (fromNode : CallGraphFunctionNode F) (callInst : I)
    (callee : F) (isMust : Bool) : Option (CallGraphFunctionFunctionEdge F × CallGraph F I) := do
  let toNode ← g.functions.lookup callee
  let (instNode, g) := g.fetchOrCreateInstructionNode callInst
  let (subEdge, g) := g.newSubEdge instNode toNode isMust
  let (existingEdge, g) := g.getOrNewEdge fromNode toNode isMust
  let attr := (g.edgeAttr existingEdge).addSubEdge subEdge
  let attr := if isMust then attr.setMust else attr
  return (existingEdge, { g with edgeAttr := update g.edgeAttr existingEdge attr })

/-- The part of `CallGraph::removeSubEdge` for an edge without sub-edges. -/
def deleteEdge (g : CallGraph F I) (e : CallGraphFunctionFunctionEdge F) : Option (CallGraph F I) :=
  if (g.outgoingEdges e.caller).lookup e.callee ≠ some e then none
  else if (g.incomingEdges e.callee).lookup e.caller ≠ some e then none
  else some { g with
    outgoingEdges :=
      update g.outgoingEdges e.caller ((g.outgoingEdges e.caller).erase e.callee)
    incomingEdges :=
      update g.incomingEdges e.callee ((g.incomingEdges e.callee).erase e.caller)
    edges := g.edges.erase e }

def removeSubEdge (g : CallGraph F I) (e : CallGraphFunctionFunctionEdge F)
    (se : CallGraphInstructionFunctionEdge F I) : Option (CallGraph F I) := do
  if e ∉ g.edges then none
  let attr ← (g.edgeAttr e).removeSubEdge g.subEdgeIsMust se
  let g := { g with edgeAttr := update g.edgeAttr e attr }
  if attr.subEdges.size = 0 then g.deleteEdge e
  else return g

/-! ## Construction -/

section Construction

variable (M : IRModule F I)

def empty : CallGraph F I where
  functions := ∅
  instructionNodes := ∅
  outgoingEdges := fun _ => ∅
  incomingEdges := fun _ => ∅
  edges := ∅
  edgeAttr := fun _ => ⟨false, ∅, ∅⟩
  subEdgeIsMust := fun _ => false
  nextAddr := 0

/-- The first loop of the constructor: one node for each function. -/
def createNodes : CallGraph F I :=
  M.functions.elems.foldl (fun g f =>
    { g with
      functions := g.functions.insert f ⟨g.nextAddr, f⟩
      nextAddr := g.nextAddr + 1 }) empty

variable (ord : IterOrder) (hasIndCSCallees : I → Bool) (getIndCSCallees : I → PtrSet F)

def handleCallInstruction (g : CallGraph F I) (fromNode : CallGraphFunctionNode F) (callInst : I) :
    Option (CallGraph F I) :=
  match M.kind callInst with
  | .callInst (some callee) | .invokeInst (some callee) =>
      (g.fetchOrCreateEdge fromNode callInst callee true).map (·.2)
  | .callInst none =>
      if !hasIndCSCallees callInst then some g
      else
        (ord.visit (getIndCSCallees callInst).elems).foldlM (fun g callee =>
          (g.fetchOrCreateEdge fromNode callInst callee false).map (·.2)) g
  | _ => some g

/-- The constructor. -/
def new : Option (CallGraph F I) :=
  M.functions.elems.foldlM (fun g f => do
    let fromNode ← g.functions.lookup f
    (M.instructions f).foldlM (fun g inst =>
      handleCallInstruction M ord hasIndCSCallees getIndCSCallees g fromNode inst) g)
    (createNodes M)

end Construction

end CallGraph

end Noelle
