import Noelle.DG.Basic
import Noelle.DataFlow.Reachability

/-!
# PDGGenerator.Memory

The memory dependences of the program dependence graph, without SVF.

Every `iterateInst` function returns the edges that it adds, in their order.  An edge of two
instructions can be added more than once.  The answers of the alias analyses of LLVM and of
the registered dependence analyses are parameters.
-/

namespace Noelle

/-- `ModRefInfo` of LLVM. -/
inductive ModRefInfo
  | NoModRef
  | Ref
  | Mod
  | ModRef
  | Must
  | MustRef
  | MustMod
  | MustModRef
  deriving DecidableEq

namespace ModRefInfo

/-- The answer admits a read. -/
def isRefSet : ModRefInfo → Bool
  | Ref | ModRef | MustRef | MustModRef => true
  | _ => false

/-- The answer admits a write. -/
def isModSet : ModRefInfo → Bool
  | Mod | ModRef | MustMod | MustModRef => true
  | _ => false

end ModRefInfo

/-- `AliasResult` of LLVM. -/
inductive AliasResult
  | NoAlias
  | MayAlias
  | PartialAlias
  | MustAlias
  deriving DecidableEq

/-- A function that is called directly. -/
structure Callee where
  name : String
  empty : Bool
  deriving DecidableEq

/-- What the memory phase asks of an instruction. -/
inductive MemoryInst
  | load
  | store
  | call (callee : Option Callee) (isLifetimeStartOrEnd : Bool)
  | other
  deriving DecidableEq

inductive MemoryDataDependenceStrength
  | CANNOT_EXIST
  | MAY_EXIST
  | MUST_EXIST
  deriving DecidableEq

structure DependenceAnalysis (B : Type) where
  canThereBeAMemoryDataDependence : Instruction B → Instruction B → Bool
  isThereThisMemoryDataDependenceType : DataDependenceType → Instruction B → Instruction B →
    MemoryDataDependenceStrength

/-- The answers of the alias analyses of LLVM. -/
structure AAResults (B : Type) where
  /-- `getModRefInfo` of two calls. -/
  callInfo : Instruction B → Instruction B → ModRefInfo
  /-- `getModRefInfo` of a call and the location of a load or store. -/
  locationInfo : Instruction B → Instruction B → ModRefInfo
  /-- The locations of two loads or stores are equal. -/
  sameLocation : Instruction B → Instruction B → Bool
  /-- `alias` of the locations of two loads or stores. -/
  aliasLocations : Instruction B → Instruction B → AliasResult
  /-- `alias` of the object that a call allocates and the one that a call frees. -/
  aliasFreed : Instruction B → Instruction B → AliasResult

/-- A function with what the memory phase asks of it. -/
structure MemoryFunction (B : Type) where
  cfg : CFG B
  inst : Instruction B → MemoryInst

structure MemoryDependence (B : Type) where
  src : Instruction B
  dst : Instruction B
  type : DataDependenceType
  must : Bool
  deriving DecidableEq

namespace PDGGenerator

def externalFuncsHaveNoSideEffectOrHandledBySVF : List String :=
  ["isalnum", "isalpha", "isblank", "iscntrl", "isdigit", "isgraph", "islower", "isprint",
   "ispunct", "isspace", "isupper", "isxdigit", "tolower", "toupper", "cos", "sin", "tan", "acos",
   "asin", "atan", "atan2", "cosh", "sinh", "tanh", "acosh", "asinh", "atanh", "exp", "expf",
   "ldexp", "log", "logf", "log10", "exp2", "expm1", "ilogb", "log1p", "log2", "logb", "scalbn",
   "scalbln", "pow", "sqrt", "cbrt", "hypot", "erf", "erfc", "tgamma", "lgamma", "ceil", "floor",
   "fmod", "trunc", "round", "lround", "llround", "nearbyint", "remainder", "copysign",
   "nextafter", "nexttoward", "fdim", "fmax", "fmin", "fabs", "abs", "fma", "fpclassify",
   "isfinite", "isinf", "isnan", "isnormal", "signbit", "isgreater", "isgreaterequal", "isless",
   "islessequal", "islessgreater", "isunordered", "clock", "difftime", "iswalnum", "iswalpha",
   "iswblank", "iswcntrl", "iswdigit", "iswgraph", "iswlower", "iswprint", "iswpunct", "iswspace",
   "iswupper", "iswxdigit", "towlower", "towupper", "iswctype", "towctrans", "atoi", "atoll",
   "exit", "strcmp", "strncmp", "rand_r", "strlen"]

def isTheLibraryFunctionPure (libraryFunction : Callee) : Bool :=
  libraryFunction.name ∈ externalFuncsHaveNoSideEffectOrHandledBySVF

/-! ## Utilities -/

/-- `Utils::isActualCode`. -/
def isActualCode : MemoryInst → Bool
  | .call _ true => false
  | .call (some callee) false => !"llvm.dbg.".isPrefixOf callee.name
  | _ => true

/-- `Utils::isAllocator`. -/
def isAllocator : MemoryInst → Bool
  | .call (some callee) _ =>
      callee.empty &&
        (callee.name == "malloc" || callee.name == "calloc" || callee.name == "realloc")
  | _ => false

/-- `Utils::isReallocator`. -/
def isReallocator : MemoryInst → Bool
  | .call (some callee) _ => callee.empty && callee.name == "realloc"
  | _ => false

/-- `Utils::isDeallocator`. -/
def isDeallocator : MemoryInst → Bool
  | .call (some callee) _ => callee.empty && callee.name == "free"
  | _ => false

/-- The call is to a function of the table of pure library functions. -/
def callsPureFunction : MemoryInst → Bool
  | .call (some callee) _ => isTheLibraryFunctionPure callee
  | _ => false

def canAccessMemory (i : MemoryInst) : Bool :=
  if !isActualCode i then false
  else
    match i with
    | .store => true
    | .load => true
    | .call _ _ => !callsPureFunction i
    | .other => false

section

variable {B : Type} [DecidableEq B] (ord : IterOrder) (AA : AAResults B)
  (ddAnalyses : List (DependenceAnalysis B)) (F : MemoryFunction B)

def canThereBeAMemoryDataDependence (fromInst toInst : Instruction B) : Bool :=
  ddAnalyses.all fun ddAnalysis => ddAnalysis.canThereBeAMemoryDataDependence fromInst toInst

/-- `PDGGenerator::isThereThisMemoryDataDependenceType`: the pair of `noDep` and `mustExist`. -/
def isThereThisMemoryDataDependenceType (t : DataDependenceType)
    (fromInst toInst : Instruction B) : List (DependenceAnalysis B) → Bool × Bool
  | [] => (false, false)
  | ddAnalysis :: ddAnalyses =>
      match ddAnalysis.isThereThisMemoryDataDependenceType t fromInst toInst with
      | .CANNOT_EXIST => (true, false)
      | .MUST_EXIST => (false, true)
      | .MAY_EXIST => isThereThisMemoryDataDependenceType t fromInst toInst ddAnalyses

/-- Add a dependence that no analysis denies, asked about `fromInst` and `toInst`. -/
def unlessDenied (t : DataDependenceType) (fromInst toInst src dst : Instruction B) :
    List (MemoryDependence B) :=
  let (noDep, mustExist) := isThereThisMemoryDataDependenceType t fromInst toInst ddAnalyses
  if !noDep then [⟨src, dst, t, mustExist⟩] else []

/-- `PDGGenerator::doTheyAlias` for loads and stores. -/
def doTheyAlias (instI instJ : Instruction B) : AliasResult :=
  match if AA.sameLocation instI instJ then .MustAlias else AA.aliasLocations instI instJ with
  | .NoAlias => .NoAlias
  | .MustAlias => .MustAlias
  | _ => .MayAlias

def addEdgeFromMemoryAlias (instI instJ : Instruction B) (t : DataDependenceType) :
    List (MemoryDependence B) :=
  match doTheyAlias AA instI instJ with
  | .NoAlias => []
  | .MustAlias => [⟨instI, instJ, t, true⟩]
  | _ => [⟨instI, instJ, t, false⟩]

/-- The bits that `addEdgeFromFunctionModRef` sets for an answer. -/
structure ModRefBits where
  ref : Bool
  mod : Bool
  modRef : Bool
  deriving DecidableEq

/-- The bits of an answer, or none if it is neither. -/
def bitsOf : ModRefInfo → Option ModRefBits
  | .NoModRef | .Must => none
  | .Ref | .MustRef => some ⟨true, false, false⟩
  | .Mod | .MustMod => some ⟨false, true, false⟩
  | .ModRef | .MustModRef => some ⟨false, false, true⟩

/-- `PDGGenerator::addEdgeFromFunctionModRef` of a call and a store. -/
def addEdgeFromFunctionModRefStore (call store : Instruction B) (addEdgeFromCall : Bool) :
    List (MemoryDependence B) :=
  if isDeallocator (F.inst call) then []
  else
    match bitsOf (AA.locationInfo call store) with
    | none => []
    | some bv =>
        let (makeRefEdge, makeModEdge) :=
          if bv.ref && bv.mod then (false, false)
          else if bv.ref then (true, false)
          else if bv.mod then (false, true)
          else (true, true)
        (if makeRefEdge then
          if addEdgeFromCall then unlessDenied ddAnalyses .war call store call store
          else if !isAllocator (F.inst call) then
            unlessDenied ddAnalyses .raw call store store call
          else []
        else []) ++
        (if makeModEdge then
          if addEdgeFromCall then unlessDenied ddAnalyses .waw call store call store
          else if !isAllocator (F.inst call) then
            unlessDenied ddAnalyses .waw call store store call
          else []
        else [])

/-- `PDGGenerator::addEdgeFromFunctionModRef` of a call and a load. -/
def addEdgeFromFunctionModRefLoad (call load : Instruction B) (addEdgeFromCall : Bool) :
    List (MemoryDependence B) :=
  if isDeallocator (F.inst call) then []
  else if !(AA.locationInfo call load).isModSet then []
  else if addEdgeFromCall then
    (unlessDenied ddAnalyses .raw call load call load).map ({ · with must := false })
  else if !isAllocator (F.inst call) then
    (unlessDenied ddAnalyses .war call load load call).map ({ · with must := false })
  else []

/-- The calls are an allocator and a deallocator of different objects. -/
def freesAnotherObject (call otherCall : Instruction B) : Bool :=
  let allocatorCall :=
    if isAllocator (F.inst otherCall) then some otherCall
    else if isAllocator (F.inst call) then some call
    else none
  let deallocatorCall :=
    if isDeallocator (F.inst otherCall) then some otherCall
    else if isDeallocator (F.inst call) then some call
    else none
  match allocatorCall, deallocatorCall with
  | some allocatorCall, some deallocatorCall =>
      AA.aliasFreed allocatorCall deallocatorCall == .NoAlias
  | _, _ => false

/-- The two queries of `addEdgeFromFunctionModRef` for two calls: `none` if it returns. -/
def queryModRef (call otherCall : Instruction B) (isCallReachableFromOtherCall : Bool) :
    Option (ModRefBits × ModRefBits) :=
  let noBits : ModRefBits := ⟨false, false, false⟩
  match AA.callInfo otherCall call with
  | .NoModRef | .Must => none
  | .Ref | .MustRef =>
      if isCallReachableFromOtherCall then
        match AA.callInfo call otherCall with
        | .NoModRef | .Must | .Ref | .MustRef => none
        | .Mod | .MustMod | .ModRef | .MustModRef => some (⟨true, false, false⟩, noBits)
      else some (⟨true, false, false⟩, noBits)
  | .Mod | .MustMod =>
      if isCallReachableFromOtherCall then
        match AA.callInfo call otherCall with
        | .NoModRef | .Must => none
        | .Ref | .MustRef => some (⟨false, true, false⟩, ⟨true, false, false⟩)
        | .Mod | .MustMod => some (⟨false, true, false⟩, ⟨false, true, false⟩)
        | .ModRef | .MustModRef => some (⟨false, true, false⟩, ⟨false, false, true⟩)
      else some (⟨false, true, false⟩, noBits)
  | .ModRef | .MustModRef =>
      if isCallReachableFromOtherCall then
        match AA.callInfo call otherCall with
        | .NoModRef | .Must => none
        | .Ref | .MustRef => none
        | .Mod | .MustMod => some (⟨false, false, true⟩, ⟨false, true, false⟩)
        | .ModRef | .MustModRef => some (⟨false, false, true⟩, ⟨false, false, true⟩)
      else some (⟨false, false, true⟩, noBits)

/-- `PDGGenerator::addEdgeFromFunctionModRef` of two calls. -/
def addEdgeFromFunctionModRef (call otherCall : Instruction B)
    (isCallReachableFromOtherCall : Bool) : List (MemoryDependence B) :=
  if isAllocator (F.inst call) && isAllocator (F.inst otherCall) &&
      !isReallocator (F.inst call) && !isReallocator (F.inst otherCall) then []
  else if freesAnotherObject AA F call otherCall then []
  else
    let add t := unlessDenied ddAnalyses t call otherCall call otherCall
    match queryModRef AA call otherCall isCallReachableFromOtherCall with
    | none => []
    | some (bv, rbv) =>
        if bv.ref && bv.mod then []
        else if bv.ref then
          add .raw ++ if otherCall = call then add .war else []
        else if bv.mod then
          if rbv.ref && rbv.mod then []
          else if rbv.ref then
            if otherCall = call then [] else add .war
          else if rbv.mod then add .waw
          else if otherCall = call then []
          else add .war ++ add .waw
        else if rbv.ref then []
        else if rbv.mod then
          if otherCall = call then [] else add .raw ++ add .waw
        else if rbv.modRef then add .raw ++ add .waw ++ add .war
        else if otherCall = call then []
        else add .raw ++ add .waw

/-! ## The dependences from an instruction -/

def iterateInstForStore (dfr : DataFlowResult B (Instruction B)) (store : Instruction B) :
    List (MemoryDependence B) :=
  (ord.visit (dfr.outs store).elems).flatMap fun inst =>
    if !canAccessMemory (F.inst inst) then []
    else if !canThereBeAMemoryDataDependence ddAnalyses store inst then []
    else
      match F.inst inst with
      | .store => addEdgeFromMemoryAlias AA store inst .waw
      | .load => addEdgeFromMemoryAlias AA store inst .raw
      | .call _ _ =>
          if !isActualCode (F.inst inst) then []
          else addEdgeFromFunctionModRefStore AA ddAnalyses F inst store false
      | .other => []

def iterateInstForLoad (dfr : DataFlowResult B (Instruction B)) (load : Instruction B) :
    List (MemoryDependence B) :=
  (ord.visit (dfr.outs load).elems).flatMap fun inst =>
    if !canAccessMemory (F.inst inst) then []
    else if !canThereBeAMemoryDataDependence ddAnalyses load inst then []
    else
      match F.inst inst with
      | .store => addEdgeFromMemoryAlias AA load inst .war
      | .call _ _ => addEdgeFromFunctionModRefLoad AA ddAnalyses F inst load false
      | _ => []

def iterateInstForCall (dfr : DataFlowResult B (Instruction B)) (call : Instruction B) :
    List (MemoryDependence B) :=
  if !isActualCode (F.inst call) then []
  else if !canAccessMemory (F.inst call) then []
  else
    (ord.visit (dfr.outs call).elems).flatMap fun inst =>
      if !canAccessMemory (F.inst inst) then []
      else if !canThereBeAMemoryDataDependence ddAnalyses call inst then []
      else
        match F.inst inst with
        | .store => addEdgeFromFunctionModRefStore AA ddAnalyses F call inst true
        | .load => addEdgeFromFunctionModRefLoad AA ddAnalyses F call inst true
        | .call _ _ =>
            if !isActualCode (F.inst inst) then []
            else addEdgeFromFunctionModRef AA ddAnalyses F call inst (decide (call ∈ dfr.outs inst))
        | .other => []

def onlyMemoryInstructionFilter : MemoryInst → Bool
  | .load => true
  | .store => true
  | .call _ _ => true
  | .other => false

def constructEdgesFromAliasesForFunction (fuel : Nat) : Option (List (MemoryDependence B)) := do
  let dfr ← DataFlowEngine.runReachableAnalysis F.cfg (fun i => onlyMemoryInstructionFilter (F.inst i))
    fuel
  return F.cfg.instructions.flatMap fun I =>
    if !canAccessMemory (F.inst I) then []
    else
      match F.inst I with
      | .store => iterateInstForStore ord AA ddAnalyses F dfr I
      | .load => iterateInstForLoad ord AA ddAnalyses F dfr I
      | .call _ _ => iterateInstForCall ord AA ddAnalyses F dfr I
      | .other => []

end

end PDGGenerator

end Noelle
