import Noelle.AllocAA.Basic

/-!
# AllocAA.Runs

Runs of a module, as far as they matter to which object a pointer points into.

A value is an integer or a pointer, and a pointer carries the object it was derived from:
casts and GEPs keep the object, which says that accesses stay within the allocation that
their base pointer points into.  An address is an object and an offset: an allocation is an
object of its own, also after another one was freed.  A run may start any function at any time and step any
frame at any instruction of its function, and whatever is not a load, a store, a cast, a GEP
or an allocation may do anything with the objects that are known (`Known`): a call may run
other code, code outside the module included.  Every execution of the program is a run.
-/

namespace Noelle

open Relation

/-- Objects in memory: the static ones of the module, those allocated while it runs, and
those it was given from outside. -/
inductive MemoryObject (V : Type) where
  | static (v : V)
  | allocated (n : Nat)
  | outside (n : Nat)
  deriving DecidableEq

/-- An integer, or a pointer derived from the object. -/
structure RunValue (V : Type) where
  object : Option (MemoryObject V)
  offset : Int
  deriving DecidableEq

/-- A call of a function: what its arguments and instructions were last assigned. -/
structure Frame (V : Type) where
  function : V
  registers : V → Option (RunValue V)

/-- A state of a run.  The `n`-th allocation was made by the instruction `allocations[n]`, and
`accesses` are the loads and stores so far with the addresses they accessed. -/
structure RunState (V : Type) where
  memory : MemoryObject V → Int → RunValue V
  frames : List (Frame V)
  allocations : List V
  accesses : List (V × MemoryObject V × Int)

/-- Assign the result of an instruction. -/
def Frame.assign {V : Type} [DecidableEq V] (fr : Frame V) (x : V) (val : RunValue V) : Frame V :=
  { fr with registers := Function.update fr.registers x (some val) }

def RunState.write {V : Type} [DecidableEq V] (s : RunState V) (o : MemoryObject V) (k : Int)
    (val : RunValue V) : MemoryObject V → Int → RunValue V :=
  Function.update s.memory o (Function.update (s.memory o) k val)

namespace AllocModule

variable {V : Type} [DecidableEq V] (M : AllocModule V)

/-! ## Values -/

/-- The values a constant can have: a constant expression other than a cast of a pointer may
compute anything from the pointers it is made of. -/
inductive ConstantValue : V → RunValue V → Prop
  | global {v : V} {init : Option V} : M.value v = .globalVariable init →
      ConstantValue v ⟨some (.static v), 0⟩
  | function {v : V} {name : String} : M.value v = .function name →
      ConstantValue v ⟨some (.static v), 0⟩
  | data {v : V} (k : Int) : M.value v = .constantData → ConstantValue v ⟨none, k⟩
  | bitCast {v w : V} {val : RunValue V} : M.value v = .bitCastOperator w → ConstantValue w val →
      ConstantValue v val
  | zExt {v w : V} {val : RunValue V} (k : Int) : M.value v = .zExtOperator w →
      ConstantValue w val → ConstantValue v ⟨val.object, k⟩
  | other {v w : V} {operandList : List V} {val : RunValue V} (k : Int) :
      M.value v = .otherConstant operandList → w ∈ operandList → ConstantValue w val →
      ConstantValue v ⟨val.object, k⟩
  | number {v : V} {operandList : List V} (k : Int) : M.value v = .otherConstant operandList →
      ConstantValue v ⟨none, k⟩

def Evaluates (fr : Frame V) (v : V) (val : RunValue V) : Prop :=
  ((M.value v = .argument ∨ M.isInstruction v = true) ∧ fr.registers v = some val) ∨
    M.ConstantValue v val

/-- A constant made from a pointer into the object. -/
def Denotes (v : V) (o : MemoryObject V) : Prop := ∃ val, M.ConstantValue v val ∧ val.object = some o

/-- The instruction calls a function that is named `malloc` or `calloc`. -/
def CallsAllocator (x : V) : Prop :=
  (M.calledFunctionName x).any (allocatorFunctionNames.contains ·) = true

/-- The instruction calls `malloc` or `calloc`, and the module does not define that function. -/
structure IsAllocatorCall (x : V) : Prop where
  callsAllocator : M.CallsAllocator x
  empty : ∃ F arguments, M.value x = .callInst F arguments ∧ M.empty F = true

/-- Instructions with an effect that is not spelled out. -/
def IsOther (x : V) : Prop :=
  match M.value x with
  | .loadInst _ | .storeInst _ _ | .castInst _ | .getElementPtrInst _ _ => False
  | .callInst _ _ => ¬ M.IsAllocatorCall x
  | v => v.isInstruction = true

/-- The initializer of the global variable names the object. -/
def InitialisedTo (v : V) (o : MemoryObject V) : Prop :=
  ∃ init, M.value v = .globalVariable (some init) ∧ M.Denotes init o

/-! ## Steps -/

/-- The objects given from outside, and those with a name outside the module. -/
def Outside (o : MemoryObject V) : Prop :=
  (∃ n, o = .outside n) ∨ ∃ v, o = .static v ∧ M.hasLocalLinkage v = false

/-- The objects that code can get hold of: those outside, those that an instruction names whose
effect is not spelled out, and those that some pointer in a register or in memory points
into. -/
def Known (s : RunState V) (o : MemoryObject V) : Prop :=
  M.Outside o ∨
  (∃ x ∈ M.values, M.IsOther x ∧ ∃ v ∈ (M.value x).operands, M.Denotes v o) ∨
  (∃ fr ∈ s.frames, ∃ v val, fr.registers v = some val ∧ val.object = some o) ∨
  ∃ o' k, (s.memory o' k).object = some o

/-- Known, or among the next `n` allocations. -/
def KnownOrNew (s : RunState V) (n : Nat) (o : MemoryObject V) : Prop :=
  M.Known s o ∨ ∃ m, o = .allocated m ∧ s.allocations.length ≤ m ∧ m < s.allocations.length + n

/-- The frame at position `i` can execute the instruction. -/
structure CanExecute (s : RunState V) (i : Nat) (fr : Frame V) (x : V) : Prop where
  frame : s.frames[i]? = some fr
  mem : x ∈ M.values
  function : M.getFunction x = fr.function

inductive Step : RunState V → RunState V → Prop
  | start {s : RunState V} (function : V) (args : V → Option (RunValue V)) :
      (∀ v val, args v = some val → M.value v = .argument ∧
        ∀ o, val.object = some o → M.Known s o) →
      Step s { s with frames := s.frames ++ [⟨function, args⟩] }
  | leave {s : RunState V} (i : Nat) : Step s { s with frames := s.frames.eraseIdx i }
  | load {s : RunState V} {i : Nat} {fr : Frame V} {x p : V} {o : MemoryObject V} {k : Int} :
      M.CanExecute s i fr x → M.value x = .loadInst p → M.Evaluates fr p ⟨some o, k⟩ →
      Step s
        { s with
          frames := s.frames.set i (fr.assign x (s.memory o k))
          accesses := s.accesses ++ [(x, o, k)] }
  | store {s : RunState V} {i : Nat} {fr : Frame V} {x v p : V} {val : RunValue V}
      {o : MemoryObject V} {k : Int} :
      M.CanExecute s i fr x → M.value x = .storeInst v p → M.Evaluates fr v val →
      M.Evaluates fr p ⟨some o, k⟩ →
      Step s { s with memory := s.write o k val, accesses := s.accesses ++ [(x, o, k)] }
  | cast {s : RunState V} {i : Nat} {fr : Frame V} {x w : V} {val : RunValue V} (k : Int) :
      M.CanExecute s i fr x → M.value x = .castInst w → M.Evaluates fr w val →
      Step s { s with frames := s.frames.set i (fr.assign x ⟨val.object, k⟩) }
  | getElementPtr {s : RunState V} {i : Nat} {fr : Frame V} {x w : V} {indices : List V}
      {val : RunValue V} (k : Int) :
      M.CanExecute s i fr x → M.value x = .getElementPtrInst w indices → M.Evaluates fr w val →
      Step s { s with frames := s.frames.set i (fr.assign x ⟨val.object, k⟩) }
  | allocate {s : RunState V} {i : Nat} {fr : Frame V} {x : V} :
      M.CanExecute s i fr x → M.IsAllocatorCall x →
      Step s
        { s with
          frames := s.frames.set i (fr.assign x ⟨some (.allocated s.allocations.length), 0⟩)
          allocations := s.allocations ++ [x] }
  | allocateNone {s : RunState V} {i : Nat} {fr : Frame V} {x : V} :
      M.CanExecute s i fr x → M.IsAllocatorCall x →
      Step s { s with frames := s.frames.set i (fr.assign x ⟨none, 0⟩) }
  | other {s : RunState V} {i : Nat} {fr : Frame V} {x : V} (val : RunValue V)
      (memory : MemoryObject V → Int → RunValue V) (n : Nat) :
      M.CanExecute s i fr x → M.IsOther x →
      (∀ o, val.object = some o → M.KnownOrNew s n o) →
      (∀ o k, memory o k ≠ s.memory o k → M.KnownOrNew s n o ∧
        ∀ o', (memory o k).object = some o' → M.KnownOrNew s n o') →
      Step s
        { s with
          memory := memory
          frames := s.frames.set i (fr.assign x val)
          allocations := s.allocations ++ List.replicate n x }

/-- The state a run starts in: nothing runs, global variables hold what their initializers
name, and what is outside holds pointers to what is outside. -/
structure Initial (s : RunState V) : Prop where
  frames_eq : s.frames = []
  allocations_eq : s.allocations = []
  accesses_eq : s.accesses = []
  memory : ∀ o' k o, (s.memory o' k).object = some o →
    (∃ v ∈ M.values, o' = .static v ∧ M.InitialisedTo v o) ∨ M.Outside o' ∧ M.Outside o

def Reachable (s : RunState V) : Prop := ∃ s₀, M.Initial s₀ ∧ ReflTransGen M.Step s₀ s

end AllocModule

end Noelle
