import Noelle.PDGGenerator.ControlDependences

/-!
# PDGGenerator.Metadata

The program dependence graph as metadata of the module: `embedPDGAsMetadata` and
`constructPDGFromMetadata`.

Nodes get numbers, and memory dependences become tuples of these; variable and control
dependences are not written but computed from the program again.  The reader fills its map
from numbers to values function by function, and reads the dependences of a function before it
comes to the next one.
-/

namespace Noelle

open Function

/-! ## Metadata -/

/-- `Metadata`.  `MDNode::get` returns one node for equal operands, so the pointer of a node is
its operands. -/
inductive Metadata where
  | null
  | constantInt (n : Nat)
  | mdString (s : String)
  | node (operands : List Metadata)

namespace Metadata

mutual

def decEq : (m m' : Metadata) → Decidable (m = m')
  | null, null => isTrue rfl
  | constantInt n, constantInt n' =>
      decidable_of_iff (n = n') ⟨congrArg constantInt, fun h => Metadata.constantInt.inj h⟩
  | mdString s, mdString s' =>
      decidable_of_iff (s = s') ⟨congrArg mdString, fun h => Metadata.mdString.inj h⟩
  | node l, node l' =>
      match decEqAll l l' with
      | isTrue h => isTrue (congrArg node h)
      | isFalse h => isFalse fun heq => h (Metadata.node.inj heq)
  | null, constantInt _ | null, mdString _ | null, node _ => isFalse Metadata.noConfusion
  | constantInt _, null | constantInt _, mdString _ | constantInt _, node _ =>
      isFalse Metadata.noConfusion
  | mdString _, null | mdString _, constantInt _ | mdString _, node _ =>
      isFalse Metadata.noConfusion
  | node _, null | node _, constantInt _ | node _, mdString _ => isFalse Metadata.noConfusion

def decEqAll : (l l' : List Metadata) → Decidable (l = l')
  | [], [] => isTrue rfl
  | [], _ :: _ => isFalse (List.cons_ne_nil _ _).symm
  | _ :: _, [] => isFalse (List.cons_ne_nil _ _)
  | m :: l, m' :: l' =>
      match decEq m m', decEqAll l l' with
      | isTrue h, isTrue hl => isTrue (congrArg₂ List.cons h hl)
      | isFalse h, _ => isFalse fun heq => h (List.cons.inj heq).1
      | _, isFalse hl => isFalse fun heq => hl (List.cons.inj heq).2

end

instance : DecidableEq Metadata := decEq

/-- `MDNode::getOperand`.  Only nodes have operands. -/
def getOperand : Metadata → Nat → Option Metadata
  | node operands, i => operands[i]?
  | _, _ => none

/-- `isa<MDNode>`. -/
def isMDNode : Metadata → Bool
  | node _ => true
  | _ => false

def ofString (s : String) : Metadata := node [mdString s]

/-- The node of `"true"` or `"false"`. -/
def ofBool (b : Bool) : Metadata := ofString (if b then "true" else "false")

/-- The string in the node that is an operand. -/
def getString (m : Metadata) (i : Nat) : Option String := do
  match ← (← m.getOperand i).getOperand 0 with
  | mdString s => some s
  | _ => none

/-- The test for `"true"`. -/
def isTrueAt (m : Metadata) (i : Nat) : Option Bool :=
  (m.getString i).map fun s => decide (s = "true")

theorem isTrueAt_ofBool {l : List Metadata} {i : Nat} {b : Bool}
    (h : l[i]? = some (ofBool b)) : (node l).isTrueAt i = some b := by
  cases b <;> simp [isTrueAt, getString, getOperand, h, ofBool, ofString]

theorem getString_ofString {l : List Metadata} {i : Nat} {s : String}
    (h : l[i]? = some (ofString s)) : (node l).getString i = some s := by
  simp [getString, getOperand, h, ofString]

end Metadata

namespace DataDependenceType

/-- `DataDependence::dataDepToString`. -/
def dataDepToString : DataDependenceType → String
  | raw => "RAW"
  | war => "WAR"
  | waw => "WAW"

/-- `DataDependence::stringToDataDep`, which aborts on other strings. -/
def stringToDataDep (str : String) : Option DataDependenceType :=
  if str = "RAW" then some raw
  else if str = "WAR" then some war
  else if str = "WAW" then some waw
  else none

@[simp] theorem stringToDataDep_dataDepToString (t : DataDependenceType) :
    stringToDataDep t.dataDepToString = some t := by
  cases t <;> decide

end DataDependenceType

/-! ## Modules -/

/-- What a value is: an argument, an instruction or something else. -/
inductive ValueClass (F : Type) where
  | argument (parent : F) (argNo : Nat)
  | instruction (function : F)
  | other
  deriving DecidableEq

/-- The functions of a module.  A declaration has no body. -/
structure ModuleIR (V F B : Type) where
  functions : List F
  args : F → List V
  body : F → Option (ControlFunction V B)
  postDomTree : F → DominatorForest (Option B)
  mainF : F
  users : V → List V
  valueClass : V → ValueClass F

namespace ModuleIR

variable {V F B : Type} (M : ModuleIR V F B)

def instructions (f : F) : List V :=
  match M.body f with
  | none => []
  | some body => body.cfg.instructions.map body.value

/-- The arguments and instructions of a function with a body. -/
def valuesOf (f : F) : List V :=
  match M.body f with
  | none => []
  | some _ => M.args f ++ M.instructions f

/-- The arguments and instructions of the functions with a body. -/
def values : List V := M.functions.flatMap M.valuesOf

/-- `isa<Instruction>` or `isa<Argument>`. -/
def isInstructionOrArgument (v : V) : Bool :=
  match M.valueClass v with
  | .other => false
  | _ => true

/-- The function of an argument or an instruction. -/
def functionOf (v : V) : Option F :=
  match M.valueClass v with
  | .argument parent _ => some parent
  | .instruction function => some function
  | .other => none

end ModuleIR

/-- A module whose values know their functions. -/
structure PDGModule (V F B : Type) [DecidableEq B] extends ModuleIR V F B where
  functions_nodup : functions.Nodup
  values_nodup : toModuleIR.values.Nodup
  argument_iff : ∀ v f n, valueClass v = .argument f n ↔ f ∈ functions ∧ (args f)[n]? = some v
  instruction_iff : ∀ v f, valueClass v = .instruction f ↔
    f ∈ functions ∧ v ∈ toModuleIR.instructions f
  /-- The instructions and arguments that use a value are those of defined functions. -/
  user_mem : ∀ v ∈ toModuleIR.values, ∀ u ∈ users v,
    toModuleIR.isInstructionOrArgument u = true → u ∈ toModuleIR.values
  /-- The post-dominator tree of a function is one of its blocks. -/
  postDomTree_mem : ∀ f F', body f = some F' → ∀ a, ∀ b ∈ (postDomTree f).getDescendants a,
    b ∈ F'.cfg.blocks
  /-- `PDG::PDG` of a module asserts that there is a function `main`. -/
  main_mem : mainF ∈ functions
  main_body : (body mainF).isSome = true

/-- The metadata of a module: of its instructions, of its functions and its named metadata. -/
structure ModuleMetadata (V F : Type) where
  /-- `noelle.pdg.inst.id` -/
  instId : V → Option Metadata
  /-- `noelle.pdg.args.id` -/
  argsId : F → Option Metadata
  /-- `noelle.pdg.edges` -/
  edges : F → Option Metadata
  /-- `noelle.module.pdg` -/
  modulePdg : Option (List Metadata)

namespace PDGGenerator

variable {V F B : Type} [DecidableEq V] [DecidableEq F]

/-! ## Embedding -/

section Embedding

variable (ord : IterOrder) (M : ModuleIR V F B)

def cleanPDGMetadata (md : ModuleMetadata V F) : ModuleMetadata V F where
  instId v := if M.functions.any fun f => decide (v ∈ M.instructions f) then none else md.instId v
  argsId f := if f ∈ M.functions then none else md.argsId f
  edges f := if f ∈ M.functions then none else md.edges f
  modulePdg := none

/-- The variables of the loop of `embedNodesAsMetadata` over the values. -/
structure NodeIDs (V F : Type) where
  i : Nat
  nodeIDMap : V → Option Metadata
  functionArgsIDMap : F → AList fun _ : Nat => Metadata
  instId : V → Option Metadata

/-- One value: its number, and where it is noted. -/
def embedNode (s : NodeIDs V F) (v : V) : NodeIDs V F :=
  let m := Metadata.node [.constantInt s.i]
  { i := s.i + 1
    nodeIDMap := update s.nodeIDMap v (some m)
    functionArgsIDMap :=
      match M.valueClass v with
      | .argument parent argNo => update s.functionArgsIDMap parent
          ((s.functionArgsIDMap parent).insert argNo m)
      | _ => s.functionArgsIDMap
    instId :=
      match M.valueClass v with
      | .instruction _ => update s.instId v (some m)
      | _ => s.instId }

/-- `argsVec`: the subscript of a missing number inserts a null pointer, so the loop ends behind
the largest number. -/
def argsVec (ids : AList fun _ : Nat => Metadata) : List Metadata :=
  (List.range (ids.keys.foldr (fun argNo n => max (argNo + 1) n) 0)).map fun i =>
    (ids.lookup i).getD .null

/-- `PDGGenerator::embedNodesAsMetadata`.  The order of the sorted values is left open. -/
def embedNodesAsMetadata (pdg : PDG V) (md : ModuleMetadata V F) :
    (V → Option Metadata) × ModuleMetadata V F :=
  let s := (ord.visit (PtrSet.ofList (pdg.allNodes.elems.map (·.theT))).elems).foldl (embedNode M)
    ⟨0, fun _ => none, fun _ => ∅, md.instId⟩
  (s.nodeIDMap,
    { md with
      instId := s.instId
      argsId := fun f =>
        if (s.functionArgsIDMap f).entries.isEmpty then md.argsId f
        else some (.node (argsVec (s.functionArgsIDMap f))) })

/-- `isMust` and `dataDepType` of an edge, which is none for a control dependence. -/
def dataDepTypeString (edge : DGEdge V) : Option String :=
  if edge.kind.isData then edge.dataDepType.map (·.dataDepToString) else some "NONE"

/-- The tuple of an edge from `src` to `dst` with the attributes of `edge`. -/
def attributesOf (edge : DGEdge V) (isLoopCarried : Bool) (dataDepType : String) (src dst : Metadata) :
    List Metadata :=
  [src, dst,
    .ofBool edge.kind.isMemory,
    .ofBool (decide (edge.kind = .mustMemoryDependence)),
    .ofString dataDepType,
    .ofBool (decide (edge.kind = .controlDependence)),
    .ofBool isLoopCarried]

/-- `PDGGenerator::getSubEdgesMetadata`: the endpoints are those of the sub-edges, the other
attributes those of the edge. -/
def getSubEdgesMetadata (pdg : PDG V) (nodeIDMap : V → Option Metadata) (edge : DGEdge V) :
    Option Metadata := do
  let dataDepType ← dataDepTypeString edge
  return .node ((ord.visit (pdg.edgeAttr edge).getSubEdges.elems).map fun subEdge =>
    .node (attributesOf edge (pdg.edgeAttr edge).isLoopCarried dataDepType
      ((nodeIDMap subEdge.getSrc).getD .null) ((nodeIDMap subEdge.getDst).getD .null)))

def getEdgeMetadata (pdg : PDG V) (nodeIDMap : V → Option Metadata) (edge : DGEdge V) :
    Option Metadata := do
  let dataDepType ← dataDepTypeString edge
  let subEdges ← getSubEdgesMetadata ord pdg nodeIDMap edge
  return .node (attributesOf edge (pdg.edgeAttr edge).isLoopCarried dataDepType
    ((nodeIDMap edge.getSrc).getD .null) ((nodeIDMap edge.getDst).getD .null) ++ [subEdges])

/-- One dependence of the loop of `embedEdgesAsMetadata`.  The source of a memory dependence is
an argument or an instruction. -/
def embedEdge (pdg : PDG V) (nodeIDMap : V → Option Metadata)
    (functionEdgesMap : F → List Metadata) (edge : DGEdge V) : Option (F → List Metadata) :=
  if !edge.kind.isMemory then some functionEdgesMap
  else do
    let edgeM ← getEdgeMetadata ord pdg nodeIDMap edge
    let f ← M.functionOf edge.getSrc
    return update functionEdgesMap f (functionEdgesMap f ++ [edgeM])

def embedEdgesAsMetadata (pdg : PDG V) (nodeIDMap : V → Option Metadata)
    (md : ModuleMetadata V F) : Option (ModuleMetadata V F) := do
  let functionEdgesMap ← (ord.visit pdg.allEdges.elems).foldlM (embedEdge ord M pdg nodeIDMap)
    (fun _ => [])
  return { md with
    edges := fun f =>
      if (functionEdgesMap f).isEmpty then md.edges f else some (.node (functionEdgesMap f)) }

def embedPDGAsMetadata (pdg : PDG V) (md : ModuleMetadata V F) : Option (ModuleMetadata V F) := do
  let (nodeIDMap, md) := embedNodesAsMetadata ord M pdg md
  let md ← embedEdgesAsMetadata ord M pdg nodeIDMap md
  return { md with modulePdg := some (md.modulePdg.getD [] ++ [.ofString "true"]) }

def cleanAndEmbedPDGAsMetadata (pdg : PDG V) (md : ModuleMetadata V F) :
    Option (ModuleMetadata V F) :=
  embedPDGAsMetadata ord M pdg (cleanPDGMetadata M md)

def hasPDGAsMetadata (md : ModuleMetadata V F) : Bool :=
  match md.modulePdg with
  | some (m :: _) => decide (m.getOperand 0 = some (.mdString "true"))
  | _ => false

end Embedding

/-! ## Dependences of the program -/

section Program

variable [DecidableEq B] (ord : IterOrder) (M : ModuleIR V F B)

/-- `PDG::PDG` of a module. -/
def pdgOfModule (self : Nat) : Option (PDG V) := do
  let pdg : PDG V := M.values.foldl (fun g v => (g.addNode v true).2) (DG.empty self)
  let mainF ← M.body M.mainF
  let entryInstr := mainF.value (CFG.begin mainF.entry)
  let entryNode ← pdg.internalNodeMap.lookup entryInstr
  return { pdg with entryNode }

def constructEdgesFromUseDefs (pdg : PDG V) : Option (PDG V) :=
  (ord.visit pdg.allNodes.elems).foldlM (fun pdg node =>
    ((M.users node.theT).filter M.isInstructionOrArgument).foldlM (fun pdg user =>
      (pdg.addVariableDataDependenceEdge node.theT user .raw).map (·.2)) pdg) pdg

def constructEdgesFromControl (pdg : PDG V) : Option (PDG V) :=
  M.functions.foldlM (fun pdg f =>
    match M.body f with
    | none => some pdg
    | some body => constructEdgesFromControlForFunction ord body (M.postDomTree f) pdg) pdg

/-- The graph with the variable and control dependences of the program only. -/
def pdgOfProgram (self : Nat) : Option (PDG V) := do
  let pdg ← pdgOfModule M self
  let pdg ← constructEdgesFromUseDefs ord M pdg
  constructEdgesFromControl ord M pdg

end Program

/-! ## Reading -/

section Reading

variable [DecidableEq B] (ord : IterOrder) (M : ModuleIR V F B)

/-- The graph so far with the map from numbers to values, and the sub-edges that are allocated:
their number and their loop-carried flags. -/
structure Reading (V : Type) where
  pdg : PDG V
  IDNodeMap : Metadata → Option V
  allocated : Nat
  subLC : DGEdge V → Bool

/-- The members that `constructEdgeFromMetadata` gives a dependence. -/
structure EdgeRecord (V : Type) where
  fromNode : DGNode V
  toNode : DGNode V
  kind : DependenceKind
  dataDepType : Option DataDependenceType
  isLoopCarried : Bool

/-- One argument of the loop of `constructNodesFromMetadata`. -/
def readArgument (argsM : Metadata) (IDNodeMap : Metadata → Option V) (p : V × Nat) :
    Option (Metadata → Option V) := do
  let m ← argsM.getOperand p.2
  if m = .null then none
  else if m.isMDNode then some (update IDNodeMap m (some p.1))
  else some IDNodeMap

/-- The loop of `constructNodesFromMetadata` over the arguments. -/
def readArguments (md : ModuleMetadata V F) (f : F) (IDNodeMap : Metadata → Option V) :
    Option (Metadata → Option V) :=
  match md.argsId f with
  | none => some IDNodeMap
  | some argsM => (M.args f).zipIdx.foldlM (readArgument argsM) IDNodeMap

/-- One instruction of the loop of `constructNodesFromMetadata`. -/
def readInstruction (md : ModuleMetadata V F) (IDNodeMap : Metadata → Option V) (I : V) :
    Metadata → Option V :=
  match md.instId I with
  | none => IDNodeMap
  | some m => update IDNodeMap m (some I)

def constructNodesFromMetadata (md : ModuleMetadata V F) (f : F) (IDNodeMap : Metadata → Option V) :
    Option (Metadata → Option V) :=
  (readArguments M md f IDNodeMap).map fun IDNodeMap =>
    (M.instructions f).foldl (readInstruction md) IDNodeMap

/-- `PDGGenerator::constructEdgeFromMetadata`.  A number that is not in the map yet stands for a
null value, which has no node: there is no dependence with it. -/
def constructEdgeFromMetadata (pdg : PDG V) (IDNodeMap : Metadata → Option V) (edgeM : Metadata) :
    Option (EdgeRecord V) := do
  let fromM ← edgeM.getOperand 0
  let toM ← edgeM.getOperand 1
  let fromT ← IDNodeMap fromM
  let toT ← IDNodeMap toM
  let fromNode ← pdg.nodeOf fromT
  let toNode ← pdg.nodeOf toT
  let isMemoryDependence ← edgeM.isTrueAt 2
  let isControl ← edgeM.isTrueAt 5
  let isLoopCarried ← edgeM.isTrueAt 6
  if isControl then return ⟨fromNode, toNode, .controlDependence, none, isLoopCarried⟩
  let dataDepType ← DataDependenceType.stringToDataDep (← edgeM.getString 4)
  if isMemoryDependence then
    let isMust ← edgeM.isTrueAt 3
    return ⟨fromNode, toNode, if isMust then .mustMemoryDependence else .mayMemoryDependence,
      some dataDepType, isLoopCarried⟩
  return ⟨fromNode, toNode, .variableDependence, some dataDepType, isLoopCarried⟩

/-- One sub-edge: it is allocated and added to the edge with the attributes `attr`. -/
def readSubEdge (heap : Nat) (p : EdgeAttr (DGEdge V) × Reading V) (subEdgeM : Metadata) :
    Option (EdgeAttr (DGEdge V) × Reading V) := do
  let (attr, s) := p
  let e ← constructEdgeFromMetadata s.pdg s.IDNodeMap subEdgeM
  let subEdge : DGEdge V := ⟨heap, s.allocated, e.fromNode, e.toNode, e.kind, e.dataDepType⟩
  return (attr.addSubEdge subEdge e.isLoopCarried,
    { s with
      allocated := s.allocated + 1
      subLC := update s.subLC subEdge e.isLoopCarried })

/-- One dependence: it is built with its sub-edges, copied into the graph and freed. -/
def readEdge (heap : Nat) (s : Reading V) (edgeM : Metadata) : Option (Reading V) := do
  let e ← constructEdgeFromMetadata s.pdg s.IDNodeMap edgeM
  let (attr, s) ←
    match ← edgeM.getOperand 7 with
    | .node subOperands =>
        (subOperands.filter Metadata.isMDNode).foldlM (readSubEdge heap)
          ({ isLoopCarried := e.isLoopCarried }, s)
    | _ => some ({ isLoopCarried := e.isLoopCarried }, s)
  let edge : DGEdge V := ⟨heap, s.allocated, e.fromNode, e.toNode, e.kind, e.dataDepType⟩
  let (_, pdg) ← s.pdg.copyAddEdge s.subLC edge attr
  return { s with pdg }

def constructEdgesFromMetadata (md : ModuleMetadata V F) (heap : Nat) (f : F) (s : Reading V) :
    Option (Reading V) :=
  match md.edges f with
  | some (.node operands) => (operands.filter Metadata.isMDNode).foldlM (readEdge heap) s
  | _ => some s

/-- The nodes and then the dependences of a function. -/
def readFunction (md : ModuleMetadata V F) (heap : Nat) (s : Reading V) (f : F) :
    Option (Reading V) := do
  let IDNodeMap ← constructNodesFromMetadata M md f s.IDNodeMap
  constructEdgesFromMetadata md heap f { s with IDNodeMap }

/-- `PDGGenerator::constructPDGFromMetadata`, with the loop-carried flags of the sub-edges.
`heap` stands for the owner of the sub-edges, which are in no graph. -/
def constructPDGFromMetadata (md : ModuleMetadata V F) (self heap : Nat) :
    Option (PDG V × (DGEdge V → Bool)) := do
  let pdg ← pdgOfModule M self
  let s ← M.functions.foldlM (readFunction M md heap) ⟨pdg, fun _ => none, 0, fun _ => false⟩
  let pdg ← constructEdgesFromUseDefs ord M s.pdg
  let pdg ← constructEdgesFromControl ord M pdg
  return (pdg, s.subLC)

end Reading

end PDGGenerator

end Noelle
