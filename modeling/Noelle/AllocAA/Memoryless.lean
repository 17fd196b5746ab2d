import Noelle.AllocAA.Basic

/-!
# AllocAA.Memoryless

`AllocAA::collectMemorylessFunctions`, and the dependences of calls that
`PDGGenerator::edgeIsAlongNonMemoryWritingFunctions` removes because of it.

The scan knows loads, stores, calls and operands that are global values.  What else can access memory
or run other code, an `atomicrmw`, a `cmpxchg`, a `va_arg`, an `invoke` or a `callbr`, takes its
pointer from an argument and is not seen, and `main` may have no body to scan.  A run in which no
recorded function gets there accesses no memory of the callers of one
(`collectMemorylessFunctions_sound`).
-/

namespace Noelle

open List Option

/-- `memorylessFunctionNames`, before any function of the module is recorded. -/
def memorylessFunctionNames : PtrSet String :=
  PtrSet.ofList
    ["sqrt", "sqrtf", "ceil", "floor", "log", "log10", "pow", "exp", "cos", "acos", "sin", "tanh",
      "atoll", "atoi", "atol",
      "_ZSt4fmaxIiiEN9__gnu_cxx11__promote_2IT_T0_NS0_9__promoteIS2_Xsr3std12__is_integerIS2_EE7__valueEE6__typeENS4_IS3_Xsr3std12__is_integerIS3_EE7__valueEE6__typeEE6__typeES2_S3_"]

/-- What the classes `otherInstruction` and `otherTerminator` leave open about memory and calls. -/
inductive OtherEffect (V : Type)
  | atomicRMWInst
  | atomicCmpXchgInst
  | vaArgInst
  | invokeInst (calledOperand : V)
  | callBrInst (calledOperand : V)
  | none

/-- A module with the effects of all its instructions.  Functions that have a name have
different ones. -/
structure EffectModule (V : Type) extends AllocModule V where
  otherEffect : V → OtherEffect V
  /-- `isa<GlobalIndirectSymbol>`: an alias or an ifunc. -/
  isGlobalIndirectSymbol : V → Bool
  function_name : ∀ F G name, name ≠ "" → value F = .function name → value G = .function name → F = G

namespace EffectModule

variable {V : Type} (M : EffectModule V)

/-! ## Instructions -/

/-- `isa<GlobalValue>`. -/
def isGlobalValue (v : V) : Bool :=
  match M.value v with
  | .globalVariable _ | .function _ => true
  | _ => M.isGlobalIndirectSymbol v

/-- `isa<LoadInst>`. -/
def isLoadInst (v : V) : Bool :=
  match M.value v with
  | .loadInst _ => true
  | _ => false

/-- `isa<StoreInst>`. -/
def isStoreInst (v : V) : Bool :=
  match M.value v with
  | .storeInst _ _ => true
  | _ => false

/-- `isa<CallInst>`. -/
def isCallInst (v : V) : Bool :=
  match M.value v with
  | .callInst _ _ => true
  | _ => false

/-- `CallBase::getCalledOperand`, of calls of every kind. -/
def getCalledOperand (v : V) : Option V :=
  match M.value v with
  | .callInst calledOperand _ => some calledOperand
  | .otherTerminator _ =>
      match M.otherEffect v with
      | .invokeInst calledOperand | .callBrInst calledOperand => some calledOperand
      | _ => none
  | _ => none

/-- The instructions with an effect that the scan does not look for. -/
def isUnscanned (v : V) : Bool :=
  match M.value v with
  | .otherInstruction _ =>
      match M.otherEffect v with
      | .atomicRMWInst | .atomicCmpXchgInst | .vaArgInst => true
      | _ => false
  | .otherTerminator _ =>
      match M.otherEffect v with
      | .invokeInst _ | .callBrInst _ => true
      | _ => false
  | _ => false

/-- `isa<Function>`. -/
def isFunction (v : V) : Bool :=
  match M.value v with
  | .function _ => true
  | _ => false

/-- `Value::getName`, of a function. -/
def getName (v : V) : String :=
  match M.value v with
  | .function name => name
  | _ => ""

/-! ## The scan -/

variable [DecidableEq V]

def instructions (F : V) : List V :=
  M.values.elems.filter fun I => M.isInstruction I && decide (M.getFunction I = F)

@[simp] theorem mem_instructions {F I : V} : I ∈ M.instructions F ↔
    I ∈ M.values ∧ M.isInstruction I = true ∧ M.getFunction I = F := by
  simp [instructions]

def isMemorylessInst (I : V) : Bool :=
  !(M.isLoadInst I || M.isStoreInst I || M.isCallInst I) &&
    (M.value I).operands.all fun op => !M.isGlobalValue op

/-- The loops over the instructions of a function. -/
def isMemoryless (F : V) : Bool := (M.instructions F).all M.isMemorylessInst

/-- `AllocAA::collectMemorylessFunctions`. -/
def collectMemorylessFunctions (ord : IterOrder) (CGUnderMain : PtrSet V)
    (memorylessFunctionNames : PtrSet String) : PtrSet String :=
  (ord.visit CGUnderMain.elems).foldl (fun memorylessFunctionNames F =>
    if M.isMemoryless F then memorylessFunctionNames.insert (M.getName F)
    else memorylessFunctionNames) memorylessFunctionNames

/-! ## The dependences that are removed -/

section Dependences

variable (memorylessFunctionNames : PtrSet String)

def isFunctionNonWriting (funcName : String) : Bool :=
  decide (funcName ∈ memorylessFunctionNames) || readOnlyFunctionNames.contains funcName

omit [DecidableEq V] in
def getCallFnName (call : V) : String := (M.calledFunctionName call).getD ""

/-- `PDGGenerator::edgeIsAlongNonMemoryWritingFunctions`. -/
def edgeIsAlongNonMemoryWritingFunctions (isMemoryDependence : Bool) (outgoingT incomingT : V) :
    Bool :=
  if !isMemoryDependence then false
  else if M.isCallInst outgoingT && M.isCallInst incomingT then
    isFunctionNonWriting memorylessFunctionNames (M.getCallFnName outgoingT) &&
      isFunctionNonWriting memorylessFunctionNames (M.getCallFnName incomingT)
  else if !M.isCallInst outgoingT && !M.isCallInst incomingT then false
  else
    let (call, mem) :=
      if M.isCallInst outgoingT then (outgoingT, incomingT) else (incomingT, outgoingT)
    let callName := M.getCallFnName call
    if M.isLoadInst mem && isFunctionNonWriting memorylessFunctionNames callName then true
    else M.isStoreInst mem && decide (callName ∈ memorylessFunctionNames)

end Dependences

end EffectModule

/-! ## Runs -/

/-- What an access touches: an object on the stack of an invocation, or anything else. -/
inductive AccessedObject
  | stackObject (invocation n : Nat)
  | otherObject (n : Nat)
  deriving DecidableEq

/-- An invocation of a function, or of code outside the module, and the instruction that entered
it. -/
structure Invocation (V : Type) where
  function : Option V
  callSite : Option V

/-- The invocations so far, in the order they were entered, and the numbers of those that have not
returned, innermost first. -/
structure ExecState (V : Type) where
  invocations : List (Invocation V)
  stack : List Nat

/-- What one step does, and which instruction of the module does it. -/
inductive ExecLabel (V : Type)
  | access (I : Option V) (o : AccessedObject)
  | enter (I : Option V) (function : Option V)
  | leave

/-- A step, with the state before it. -/
structure ExecEvent (V : Type) where
  state : ExecState V
  label : ExecLabel V

namespace ExecState

variable {V : Type} (s : ExecState V)

def current : Option (Invocation V) := s.stack.head?.bind fun i => s.invocations[i]?

def enter (function callSite : Option V) : ExecState V :=
  ⟨s.invocations ++ [⟨function, callSite⟩], s.invocations.length :: s.stack⟩

/-- Objects on the stack are gone when their invocation has returned. -/
def Live : AccessedObject → Prop
  | .stackObject i _ => i ∈ s.stack
  | .otherObject _ => True

/-- Code outside the module runs. -/
def start (V : Type) : ExecState V := ⟨[⟨none, none⟩], [0]⟩

end ExecState

/-- The object was there before the invocation, or outlives it. -/
def AccessedObject.VisibleToCallers (i : Nat) : AccessedObject → Prop
  | .stackObject k _ => k < i
  | .otherObject _ => True

namespace EffectModule

variable {V : Type} [DecidableEq V] (M : EffectModule V)

/-- The instruction can access memory itself: a call only if it does not call a function (but runs
inline assembly, say). -/
def accessesMemory (I : V) : Bool :=
  match M.getCalledOperand I with
  | some calledOperand => !M.isFunction calledOperand
  | none => M.isLoadInst I || M.isStoreInst I || M.isUnscanned I

/-- A call of a function enters it, and any other call may enter anything. -/
def CanEnter (I : V) (function : Option V) : Prop :=
  ∃ calledOperand, M.getCalledOperand I = some calledOperand ∧
    (M.isFunction calledOperand = true → function = some calledOperand)

/-- Code without a body in the module. -/
def isOutside (function : Option V) : Bool := function.all M.empty

/-- One step of a run.  Steps that neither access memory nor enter or leave code are left out, and
code outside the module does anything. -/
inductive ExecStep : ExecState V → ExecLabel V → ExecState V → Prop
  | access {s : ExecState V} {inv : Invocation V} {F I : V} {o : AccessedObject} :
      s.current = some inv → inv.function = some F → I ∈ M.instructions F →
      M.accessesMemory I = true → s.Live o → ExecStep s (.access (some I) o) s
  | enter {s : ExecState V} {inv : Invocation V} {F I : V} {function : Option V} :
      s.current = some inv → inv.function = some F → I ∈ M.instructions F →
      M.CanEnter I function → ExecStep s (.enter (some I) function) (s.enter function (some I))
  | outsideAccess {s : ExecState V} {inv : Invocation V} {o : AccessedObject} :
      s.current = some inv → M.isOutside inv.function = true → s.Live o →
      ExecStep s (.access none o) s
  | outsideEnter {s : ExecState V} {inv : Invocation V} {F : Option V} :
      s.current = some inv → M.isOutside inv.function = true →
      ExecStep s (.enter none F) (s.enter F none)
  | leave {s : ExecState V} {i : Nat} {stack : List Nat} :
      s.stack = i :: stack → ExecStep s .leave { s with stack }

/-- The runs of the module, with the events so far. -/
inductive ExecRun : List (ExecEvent V) → ExecState V → Prop
  | start : ExecRun [] (ExecState.start V)
  | step {tr : List (ExecEvent V)} {s s' : ExecState V} {l : ExecLabel V} :
      ExecRun tr s → M.ExecStep s l s' → ExecRun (tr ++ [⟨s, l⟩]) s'

/-! ## What the collection promises -/

section Promise

variable (CGUnderMain : PtrSet V)

/-- `collectMemorylessFunctions` inserts the name of the function. -/
def RecordsFunction (F : V) : Prop := F ∈ CGUnderMain ∧ M.isMemoryless F = true

/-- The invocation is one of a recorded function. -/
def RecordsInvocation (inv : Invocation V) : Prop :=
  ∃ F, inv.function = some F ∧ M.RecordsFunction CGUnderMain F

/-- The call goes by a name that is there from the start, and no function of that name is recorded. -/
def CallsBuiltIn (call : V) : Prop :=
  M.isCallInst call = true ∧ M.getCallFnName call ∈ memorylessFunctionNames ∧
    ∀ F, M.RecordsFunction CGUnderMain F → M.getName F ≠ M.getCallFnName call

/-- An access touches no memory that a caller of a recorded function sees while the function
runs. -/
def AccessesNothingVisible (e : ExecEvent V) : Prop :=
  ∀ I o, e.label = .access I o → ∀ i ∈ e.state.stack, ∀ inv, e.state.invocations[i]? = some inv →
    M.RecordsInvocation CGUnderMain inv → ¬ o.VisibleToCallers i

end Promise

/-- An execution of an instruction: of one that accesses memory itself, by the number of the event, or
of a call, by the invocation that it entered. -/
inductive DynamicInst
  | event (n : Nat)
  | invocation (i : Nat)

/-- The event is part of the execution of the instruction, and accesses the object. -/
inductive AccessesFor (tr : List (ExecEvent V)) (I : V) (o : AccessedObject) : DynamicInst → Prop
  | event {n : Nat} {e : ExecEvent V} : tr[n]? = some e → e.label = .access (some I) o →
      AccessesFor tr I o (.event n)
  | invocation {n i : Nat} {e : ExecEvent V} {inv : Invocation V} {J : Option V} :
      tr[n]? = some e → e.label = .access J o → i ∈ e.state.stack →
      e.state.invocations[i]? = some inv → inv.callSite = some I →
      AccessesFor tr I o (.invocation i)

/-- Two executions of the instructions that access the same object. -/
def Conflict (tr : List (ExecEvent V)) (src dst : V) : Prop :=
  ∃ o d₁ d₂, d₁ ≠ d₂ ∧ AccessesFor tr src o d₁ ∧ AccessesFor tr dst o d₂

/-- The collection keeps its promise in the run, and the dependences that are removed for the
recorded functions are none. -/
structure SoundIn (ord : IterOrder) (CGUnderMain : PtrSet V) (tr : List (ExecEvent V)) : Prop where
  accesses : ∀ e ∈ tr, M.AccessesNothingVisible CGUnderMain e
  removed : ∀ src dst, ¬ M.CallsBuiltIn CGUnderMain src → ¬ M.CallsBuiltIn CGUnderMain dst →
    M.edgeIsAlongNonMemoryWritingFunctions
      (M.collectMemorylessFunctions ord CGUnderMain memorylessFunctionNames) true src dst = true →
    ¬ Conflict tr src dst

/-- A recorded function goes where the scan did not look: it accesses memory that its callers see, or
enters code, by an instruction of a kind that is not scanned, or it has no body. -/
def Escapes (CGUnderMain : PtrSet V) (e : ExecEvent V) : Prop :=
  ∃ i inv, e.state.stack.head? = some i ∧ e.state.invocations[i]? = some inv ∧
    M.RecordsInvocation CGUnderMain inv ∧
    match e.label with
    | .access (some I) o => M.isUnscanned I = true ∧ o.VisibleToCallers i
    | .enter (some I) _ => M.isUnscanned I = true
    | .access none _ | .enter none _ => True
    | .leave => False

/-! ## The scan of a recorded function -/

section Scan

variable {M} {CGUnderMain : PtrSet V}
variable {I F call : V} {ord : IterOrder} {names : PtrSet String}

omit [DecidableEq V] in
theorem getCalledOperand_cases {calledOperand : V} (h : M.getCalledOperand I = some calledOperand) :
    M.isCallInst I = true ∨ M.isUnscanned I = true := by
  unfold getCalledOperand at h
  unfold isCallInst isUnscanned
  split at h
  · next hI => exact .inl (by rw [hI])
  · next hI =>
    right
    rw [hI]
    split at h
    · rfl
    · rfl
    · cases h
  · cases h

section

variable (hF : M.isMemoryless F = true) (hI : I ∈ M.instructions F)

include hF hI

theorem isMemorylessInst_of_mem :
    M.isLoadInst I = false ∧ M.isStoreInst I = false ∧ M.isCallInst I = false := by
  have h := all_eq_true.mp hF I hI
  unfold isMemorylessInst at h
  simp only [Bool.and_eq_true, Bool.not_eq_true', Bool.or_eq_false_iff] at h
  exact ⟨h.1.1.1, h.1.1.2, h.1.2⟩

theorem isUnscanned_of_canEnter {function : Option V}
    (h : M.CanEnter I function) : M.isUnscanned I = true := by
  obtain ⟨calledOperand, hcalled, -⟩ := h
  obtain ⟨-, -, hcall⟩ := isMemorylessInst_of_mem hF hI
  rcases getCalledOperand_cases hcalled with h | h
  · rw [hcall] at h
    cases h
  · exact h

theorem isUnscanned_of_accessesMemory (h : M.accessesMemory I = true) : M.isUnscanned I = true := by
  obtain ⟨hload, hstore, hcall⟩ := isMemorylessInst_of_mem hF hI
  unfold accessesMemory at h
  split at h
  · next calledOperand hcalled =>
    rcases getCalledOperand_cases hcalled with h | h
    · rw [hcall] at h
      cases h
    · exact h
  · simpa [hload, hstore] using h

end

omit [DecidableEq V] in
/-- A call that has the name of a function calls it directly. -/
theorem getCalledOperand_of_name (hne : M.getCallFnName call ≠ "")
    (hname : M.getName F = M.getCallFnName call) :
    M.getCalledOperand call = some F ∧ M.isFunction F = true := by
  obtain ⟨calledOperand, hcall, hcallee⟩ : ∃ calledOperand,
      M.getCalledOperand call = some calledOperand ∧
        M.value calledOperand = .function (M.getCallFnName call) := by
    unfold getCallFnName AllocModule.calledFunctionName getCalledOperand at *
    split at hne
    · next calledOperand arguments hcall =>
      simp only [hcall]
      refine ⟨calledOperand, rfl, ?_⟩
      split at hne
      · next name hcallee => simp [hcallee]
      · exact absurd rfl hne
    · exact absurd rfl hne
  have hF : M.value F = .function (M.getCallFnName call) := by
    rw [← hname] at hne ⊢
    unfold getName at *
    split at hne
    · next name hF => rw [hF]
    · exact absurd rfl hne
  rw [M.function_name F calledOperand _ hne hF hcallee]
  exact ⟨hcall, by rw [isFunction, hcallee]⟩

omit [DecidableEq V] in
theorem not_call_of_load_or_store {mem : V} (h : M.isLoadInst mem = true ∨ M.isStoreInst mem = true) :
    M.getCalledOperand mem = none ∧ M.isUnscanned mem = false := by
  unfold isLoadInst isStoreInst at h
  unfold getCalledOperand isUnscanned
  cases hmem : M.value mem <;> simp_all

/-- The names collected are those of the recorded functions. -/
theorem mem_collectMemorylessFunctions {name : String} :
    name ∈ M.collectMemorylessFunctions ord CGUnderMain names ↔
      name ∈ names ∨ ∃ F, M.RecordsFunction CGUnderMain F ∧ M.getName F = name := by
  have hfold : ∀ (l : List V) (names : PtrSet String),
      name ∈ l.foldl (fun names F => if M.isMemoryless F then names.insert (M.getName F) else names)
        names ↔ name ∈ names ∨ ∃ F ∈ l, M.isMemoryless F = true ∧ M.getName F = name := by
    intro l
    induction l with
    | nil => intro names; simp
    | cons F l ih =>
      intro names
      rw [foldl_cons, ih]
      by_cases hF : M.isMemoryless F = true
      · simp only [hF, if_true, PtrSet.mem_insert, exists_mem_cons_iff, true_and]
        tauto
      · simp only [hF, exists_mem_cons_iff]
        tauto
  unfold collectMemorylessFunctions RecordsFunction
  rw [hfold]
  simp only [IterOrder.mem_visit, PtrSet.mem_elems, and_assoc]

omit [DecidableEq V] in
theorem edge_cases {src dst : V}
    (h : M.edgeIsAlongNonMemoryWritingFunctions names true src dst = true) :
    (M.isCallInst src = true ∨ M.isLoadInst src = true ∨ M.isStoreInst src = true) ∧
      (M.isCallInst dst = true ∨ M.isLoadInst dst = true ∨ M.isStoreInst dst = true) ∧
      (M.isCallInst src = true ∨ M.isCallInst dst = true) ∧
      (M.isCallInst src = true → M.getCallFnName src ∈ names) ∧
      (M.isCallInst dst = true → M.getCallFnName dst ∈ names) := by
  have hread : ∀ name, isFunctionNonWriting names name = true ↔ name ∈ names := fun name => by
    simp [isFunctionNonWriting, readOnlyFunctionNames]
  unfold edgeIsAlongNonMemoryWritingFunctions at h
  cases hsrc : M.isCallInst src <;> cases hdst : M.isCallInst dst <;> grind

/-- A call whose dependences are removed, but for no built-in name, is one of a recorded
function. -/
theorem exists_recorded
    (hname : M.getCallFnName call ∈
      M.collectMemorylessFunctions ord CGUnderMain memorylessFunctionNames)
    (hcall : M.isCallInst call = true) (h : ¬ M.CallsBuiltIn CGUnderMain call) :
    ∃ F, M.RecordsFunction CGUnderMain F ∧ M.getName F = M.getCallFnName call := by
  rcases mem_collectMemorylessFunctions.mp hname with hbuiltIn | hrecorded
  · by_contra hnone
    exact h ⟨hcall, hbuiltIn, fun F hF hname => hnone ⟨F, hF, hname⟩⟩
  · exact hrecorded

end Scan

/-! ## Invariant -/

/-- Invocations are numbered in the order they were entered, and a recorded function enters no
code. -/
structure Valid (CGUnderMain : PtrSet V) (s : ExecState V) : Prop where
  entered : ∀ inv ∈ s.invocations, ∀ I, inv.callSite = some I → M.CanEnter I inv.function
  descending : s.stack.Pairwise (· > ·)
  bounded : ∀ i ∈ s.stack, i < s.invocations.length
  innermost : ∀ i ∈ s.stack.tail, ∀ inv, s.invocations[i]? = some inv →
    ¬ M.RecordsInvocation CGUnderMain inv

section Invariant

variable {M} {CGUnderMain : PtrSet V} {s s' : ExecState V} {l : ExecLabel V}

theorem Valid.start : M.Valid CGUnderMain (ExecState.start V) where
  entered inv hinv I hI := by
    rw [mem_singleton.mp hinv] at hI
    cases hI
  descending := pairwise_singleton _ _
  bounded i hi := by simp [mem_singleton.mp hi, ExecState.start]
  innermost i hi := by cases hi

variable {inv : Invocation V} {i : Nat}

omit [DecidableEq V] in
theorem exists_current (h : s.current = some inv) :
    ∃ i, s.stack.head? = some i ∧ s.invocations[i]? = some inv :=
  bind_eq_some_iff.mp h

section

variable (h : M.Valid CGUnderMain s)

include h

/-- Entering code keeps the invariant if the invocation that enters it is none of a recorded
function. -/
theorem Valid.enter (hinv : s.current = some inv) (hrecords : ¬ M.RecordsInvocation CGUnderMain inv)
    {function callSite : Option V} (hcan : ∀ I, callSite = some I → M.CanEnter I function) :
    M.Valid CGUnderMain (s.enter function callSite) where
  entered inv' hinv' I hI := by
    rcases mem_append.mp hinv' with hinv' | hinv'
    · exact h.entered inv' hinv' I hI
    · rw [mem_singleton.mp hinv'] at hI ⊢
      exact hcan I hI
  descending := pairwise_cons.mpr ⟨h.bounded, h.descending⟩
  bounded i hi := by
    rw [ExecState.enter, length_append, length_singleton]
    rcases mem_cons.mp hi with rfl | hi
    · exact Nat.lt_succ_self _
    · exact Nat.lt_succ_of_lt (h.bounded i hi)
  innermost i hi inv' hinv' := by
    have hi : i ∈ s.stack := hi
    have hlt := h.bounded i hi
    replace hinv' : s.invocations[i]? = some inv' := by
      rwa [ExecState.enter, List.getElem?_append_left hlt] at hinv'
    obtain ⟨k, hk, hcurrent⟩ := exists_current hinv
    obtain ⟨stack, hstack⟩ := List.head?_eq_some_iff.mp hk
    by_cases hik : i = k
    · rw [hik, hcurrent] at hinv'
      rwa [← some.inj hinv']
    · refine h.innermost i ?_ inv' hinv'
      rw [hstack] at hi ⊢
      exact (mem_cons.mp hi).resolve_left hik

/-- A step keeps the state of an execution valid, unless it escapes. -/
theorem Valid.step (hstep : M.ExecStep s l s')
    (hescapes : ¬ M.Escapes CGUnderMain ⟨s, l⟩) : M.Valid CGUnderMain s' := by
  cases hstep with
  | access | outsideAccess => exact h
  | enter hcurrent hF hI hcan =>
    refine h.enter hcurrent ?_ fun I hI => by rwa [← some.inj hI]
    rintro ⟨F, hF', hrecords⟩
    obtain rfl := mem_unique hF hF'
    obtain ⟨i, hi, hinv⟩ := exists_current hcurrent
    exact hescapes ⟨i, _, hi, hinv, ⟨_, hF, hrecords⟩, isUnscanned_of_canEnter hrecords.2 hI hcan⟩
  | outsideEnter hcurrent houtside =>
    refine h.enter hcurrent ?_ fun I hI => by cases hI
    intro hrecords
    obtain ⟨i, hi, hinv⟩ := exists_current hcurrent
    exact hescapes ⟨i, _, hi, hinv, hrecords, trivial⟩
  | @leave i stack hstack =>
    refine ⟨h.entered, ?_, fun i hi => h.bounded i ?_, fun i hi => h.innermost i ?_⟩
    · exact (pairwise_cons.mp (hstack ▸ h.descending)).2
    · exact hstack ▸ mem_cons_of_mem _ hi
    · rw [hstack]
      exact mem_of_mem_tail hi

theorem Valid.head_of_records (hi : i ∈ s.stack) (hinv : s.invocations[i]? = some inv)
    (hrecords : M.RecordsInvocation CGUnderMain inv) : s.stack.head? = some i := by
  cases hstack : s.stack with
  | nil =>
    rw [hstack] at hi
    cases hi
  | cons k stack =>
    rw [hstack] at hi
    rcases mem_cons.mp hi with rfl | htail
    · rfl
    · exact absurd hrecords (h.innermost i (by rwa [hstack]) inv hinv)

/-- An access while a recorded function runs is one by the function, to its own stack. -/
theorem Valid.access_own {I : Option V} {o : AccessedObject} (hstep : M.ExecStep s (.access I o) s')
    (hescapes : ¬ M.Escapes CGUnderMain ⟨s, .access I o⟩) (hi : i ∈ s.stack)
    (hinv : s.invocations[i]? = some inv) (hrecords : M.RecordsInvocation CGUnderMain inv) :
    (∃ n, o = .stackObject i n) ∧ ∃ J, I = some J ∧ M.isUnscanned J = true := by
  have hhead := h.head_of_records hi hinv hrecords
  have hcurrent : s.current = some inv := by rw [ExecState.current, hhead, bind_some, hinv]
  cases hstep with
  | outsideAccess => exact absurd ⟨i, inv, hhead, hinv, hrecords, trivial⟩ hescapes
  | @access inv' F J _ hcurrent' hF hJ haccess hlive =>
    obtain rfl := mem_unique hcurrent hcurrent'
    obtain ⟨F', hF', hrecordsF⟩ := id hrecords
    obtain rfl := mem_unique hF hF'
    have hunscanned := isUnscanned_of_accessesMemory hrecordsF.2 hJ haccess
    refine ⟨?_, J, rfl, hunscanned⟩
    cases o with
    | otherObject n => exact absurd ⟨i, inv, hhead, hinv, hrecords, hunscanned, trivial⟩ hescapes
    | stackObject k n =>
      -- The object is no older than the invocation, which is the youngest of those that run.
      have hge : i ≤ k := by
        by_contra hlt
        exact hescapes ⟨i, inv, hhead, hinv, hrecords, hunscanned, Nat.lt_of_not_le hlt⟩
      obtain ⟨stack, hstack⟩ := List.head?_eq_some_iff.mp hhead
      have hk : k ∈ i :: stack := hstack ▸ hlive
      have hle : k ≤ i := by
        rcases mem_cons.mp hk with rfl | hk
        · exact le_rfl
        · exact le_of_lt ((pairwise_cons.mp (hstack ▸ h.descending)).1 k hk)
      exact ⟨n, by rw [Nat.le_antisymm hge hle]⟩

end

/-- A step only adds invocations. -/
theorem ExecStep.invocations_prefix (h : M.ExecStep s l s') : s.invocations <+: s'.invocations := by
  cases h with
  | access | outsideAccess | leave => exact prefix_rfl
  | enter | outsideEnter => exact prefix_append _ _

end Invariant

/-! ## Whole runs -/

section Runs

variable {M} {CGUnderMain : PtrSet V} {tr : List (ExecEvent V)} {s : ExecState V}

/-- In a run that does not escape, the invariant holds at every event, and an invocation is the same
one all along. -/
theorem ExecRun.valid (hrun : M.ExecRun tr s) (h : ∀ e ∈ tr, ¬ M.Escapes CGUnderMain e) :
    M.Valid CGUnderMain s ∧ ∀ e ∈ tr, M.Valid CGUnderMain e.state ∧
      e.state.invocations <+: s.invocations ∧ ∃ s', M.ExecStep e.state e.label s' := by
  induction hrun with
  | start => exact ⟨.start, nofun⟩
  | @step tr s s' l hrun hstep ih =>
    obtain ⟨hs, htr⟩ := ih fun e he => h e (mem_append_left _ he)
    have hlast := h ⟨s, l⟩ (mem_append_right _ (mem_singleton_self _))
    refine ⟨hs.step hstep hlast, fun e he => ?_⟩
    rcases mem_append.mp he with he | he
    · obtain ⟨hvalid, hprefix, hnext⟩ := htr e he
      exact ⟨hvalid, hprefix.trans hstep.invocations_prefix, hnext⟩
    · rw [mem_singleton.mp he]
      exact ⟨hs, hstep.invocations_prefix, s', hstep⟩

variable {e : ExecEvent V} {i : Nat} {inv : Invocation V} {o : AccessedObject} {d : DynamicInst}

section

variable (hrun : M.ExecRun tr s) (h : ∀ e ∈ tr, ¬ M.Escapes CGUnderMain e)

include hrun h

/-- An invocation of a recorded function that a step of the run sees is seen by every step while it
runs. -/
theorem ExecRun.invocation_at {e' : ExecEvent V} (he : e ∈ tr) (he' : e' ∈ tr)
    (hinv : e.state.invocations[i]? = some inv) (hi : i ∈ e'.state.stack) :
    e'.state.invocations[i]? = some inv := by
  have hall := (hrun.valid h).2
  have hfinal : ∀ e ∈ tr, ∀ inv, e.state.invocations[i]? = some inv →
      s.invocations[i]? = some inv := by
    intro e he inv hinv
    obtain ⟨hlt, rfl⟩ := List.getElem?_eq_some_iff.mp hinv
    exact prefix_iff_getElem?.mp (hall e he).2.1 i hlt
  have hlt := (hall e' he').1.bounded i hi
  have hinv' := List.getElem?_eq_getElem hlt
  rw [hinv', ← hfinal e' he' _ hinv', hfinal e he inv hinv]

/-- An access while an invocation of a recorded function runs is one to the stack of the
invocation. -/
theorem ExecRun.access_own (he : e ∈ tr) {I : Option V} (hlabel : e.label = .access I o)
    (hi : i ∈ e.state.stack) (hinv : e.state.invocations[i]? = some inv)
    (hrecords : M.RecordsInvocation CGUnderMain inv) :
    (∃ n, o = .stackObject i n) ∧ ∃ J, I = some J ∧ M.isUnscanned J = true := by
  obtain ⟨hvalid, -, s', hstep⟩ := (hrun.valid h).2 e he
  rw [hlabel] at hstep
  refine hvalid.access_own hstep ?_ hi hinv hrecords
  rw [← hlabel]
  exact h e he

/-- A call of a recorded function accesses only stack objects of its own invocation. -/
theorem ExecRun.accessesFor_call (hnamed : ∀ F, M.RecordsFunction CGUnderMain F → M.getName F ≠ "")
    {call : V}
    (hrecords : ∃ F, M.RecordsFunction CGUnderMain F ∧ M.getName F = M.getCallFnName call)
    (hd : AccessesFor tr call o d) :
    ∃ i n, d = .invocation i ∧ o = .stackObject i n ∧
      ∃ e ∈ tr, ∃ inv, e.state.invocations[i]? = some inv ∧ M.RecordsInvocation CGUnderMain inv := by
  obtain ⟨F, hF, hname⟩ := hrecords
  obtain ⟨hcalled, hfunction⟩ := getCalledOperand_of_name (hname ▸ hnamed F hF) hname
  cases hd with
  | @event n e he hlabel =>
    -- The call of a function accesses no memory itself.
    obtain ⟨-, -, s', hstep⟩ := (hrun.valid h).2 e (mem_of_getElem? he)
    rw [hlabel] at hstep
    cases hstep with
    | access _ _ _ haccess => simp [accessesMemory, hcalled, hfunction] at haccess
  | @invocation n i e inv J he hlabel hi hinv hcallSite =>
    have hmem := mem_of_getElem? he
    obtain ⟨hvalid, -⟩ := (hrun.valid h).2 e hmem
    obtain ⟨calledOperand, hcalled', henters⟩ :=
      hvalid.entered inv (mem_of_getElem? hinv) call hcallSite
    obtain rfl := mem_unique hcalled hcalled'
    have hrecords : M.RecordsInvocation CGUnderMain inv := ⟨F, henters hfunction, hF⟩
    obtain ⟨⟨k, rfl⟩, -⟩ := hrun.access_own h hmem hlabel hi hinv hrecords
    exact ⟨i, k, rfl, rfl, e, hmem, inv, hinv, hrecords⟩

/-- No load or store accesses the stack objects of a recorded invocation. -/
theorem ExecRun.not_accessesFor_mem {mem : V}
    (hmem : M.isLoadInst mem = true ∨ M.isStoreInst mem = true) {k : Nat} (he : e ∈ tr)
    (hinv : e.state.invocations[i]? = some inv) (hrecords : M.RecordsInvocation CGUnderMain inv) :
    ¬ AccessesFor tr mem (.stackObject i k) d := by
  obtain ⟨hcalled, hunscanned⟩ := not_call_of_load_or_store hmem
  intro hd
  cases hd with
  | @event n e' he' hlabel =>
    have he' := mem_of_getElem? he'
    obtain ⟨-, -, s', hstep⟩ := (hrun.valid h).2 e' he'
    rw [hlabel] at hstep
    cases hstep with
    | access _ _ _ _ hlive =>
      obtain ⟨-, J, hJ, hunscanned'⟩ := hrun.access_own h he' hlabel hlive
        (hrun.invocation_at h he he' hinv hlive) hrecords
      cases hJ
      rw [hunscanned] at hunscanned'
      cases hunscanned'
  | @invocation n l e' inv' J he' hlabel hl hinv' hcallSite =>
    obtain ⟨hvalid, -⟩ := (hrun.valid h).2 e' (mem_of_getElem? he')
    obtain ⟨calledOperand, hcalled', -⟩ :=
      hvalid.entered inv' (mem_of_getElem? hinv') mem hcallSite
    rw [hcalled] at hcalled'
    cases hcalled'

end

/-- In a run in which no recorded function gets to where the scan did not look, the recorded
functions access no memory that their callers see, and no dependence is lost, if every recorded
function has a name. -/
theorem collectMemorylessFunctions_sound (ord : IterOrder)
    (hnamed : ∀ F, M.RecordsFunction CGUnderMain F → M.getName F ≠ "") (hrun : M.ExecRun tr s)
    (h : ∀ e ∈ tr, ¬ M.Escapes CGUnderMain e) : M.SoundIn ord CGUnderMain tr where
  accesses e he I o hlabel i hi inv hinv hrecords hvisible := by
    obtain ⟨⟨n, rfl⟩, -⟩ := hrun.access_own h he hlabel hi hinv hrecords
    exact Nat.lt_irrefl i hvisible
  removed src dst hsrc hdst hedge hconflict := by
    obtain ⟨o, d₁, d₂, hne, hd₁, hd₂⟩ := hconflict
    obtain ⟨hsrcKind, hdstKind, hone, hsrcName, hdstName⟩ := edge_cases hedge
    have hcall : ∀ {call d}, M.isCallInst call = true → ¬ M.CallsBuiltIn CGUnderMain call →
        (M.isCallInst call = true → M.getCallFnName call ∈
          M.collectMemorylessFunctions ord CGUnderMain memorylessFunctionNames) →
        AccessesFor tr call o d → _ := fun hcall hbuiltIn hname hd =>
      hrun.accessesFor_call h hnamed (exists_recorded (hname hcall) hcall hbuiltIn) hd
    by_cases hsrcCall : M.isCallInst src = true
    · obtain ⟨i, n, rfl, rfl, e, he, inv, hinv, hrecords⟩ := hcall hsrcCall hsrc hsrcName hd₁
      rcases hdstKind with hdstCall | hmem
      · obtain ⟨k, m, rfl, ho, -⟩ := hcall hdstCall hdst hdstName hd₂
        exact hne (congrArg _ (AccessedObject.stackObject.inj ho).1)
      · exact hrun.not_accessesFor_mem h hmem he hinv hrecords hd₂
    · obtain ⟨i, n, rfl, rfl, e, he, inv, hinv, hrecords⟩ :=
        hcall (hone.resolve_left hsrcCall) hdst hdstName hd₂
      exact hrun.not_accessesFor_mem h (hsrcKind.resolve_left hsrcCall) he hinv hrecords hd₁

end Runs

end EffectModule

/-! ## A function that uses its argument -/

inductive SlotValue
  | main | slot | call | load | exchange
  | f | argument | use
  deriving DecidableEq

def slotValues : PtrSet SlotValue :=
  ⟨[.main, .slot, .call, .load, .exchange, .f, .argument, .use], by decide⟩

theorem mem_slotValues (v : SlotValue) : v ∈ slotValues := by cases v <;> decide

/-- `main` calls `f`, loads from the slot and exchanges its contents; `f` has one instruction, with
the argument as an operand. -/
def slotModule (effect : OtherEffect SlotValue) : EffectModule SlotValue where
  values := slotValues
  value
    | .main => .function "main"
    | .slot => .otherInstruction []
    | .call => .callInst .f [.slot]
    | .load => .loadInst .slot
    | .exchange => .otherInstruction [.slot]
    | .f => .function "f"
    | .argument => .argument
    | .use => .otherInstruction [.argument]
  operand_mem _ _ v _ := mem_slotValues v
  isIntegerTy _ := false
  getFunction
    | .use => .f
    | _ => .main
  empty _ := false
  hasExternalLinkage _ := false
  hasLocalLinkage _ := false
  otherEffect
    | .use => effect
    | .exchange => .atomicRMWInst
    | _ => .none
  isGlobalIndirectSymbol _ := false
  function_name F G name _ hF hG := by cases F <;> cases G <;> grind

def slotCalls : CallRecords SlotValue
  | .main => [(some .call, some .f)]
  | _ => []

/-- The functions that `main` reaches. -/
def slotCGUnderMain : PtrSet SlotValue := ⟨[.f, .main], by decide⟩

/-- The state in which `f` runs. -/
def slotState : ExecState SlotValue :=
  ((ExecState.start SlotValue).enter (some .main) none).enter (some .f) (some .call)

variable (effect : OtherEffect SlotValue)

theorem slotModule_collect :
    AllocAA.collectCGUnderFunctionMain (slotModule effect).toAllocModule slotCalls =
      some slotCGUnderMain :=
  rfl

theorem mem_slotModule_instructions {effect : OtherEffect SlotValue} {F I : SlotValue}
    (h : (slotModule effect).isInstruction I = true) (hF : (slotModule effect).getFunction I = F) :
    I ∈ (slotModule effect).instructions F :=
  ((slotModule effect).mem_instructions).mpr ⟨mem_slotValues I, h, hF⟩

theorem slotModule_start :
    (slotModule effect).ExecRun
      [⟨ExecState.start SlotValue, .enter none (some .main)⟩,
        ⟨(ExecState.start SlotValue).enter (some .main) none, .enter (some .call) (some .f)⟩]
      slotState := by
  have hstart : (slotModule effect).ExecRun [] (ExecState.start SlotValue) := .start
  have hmain := hstart.step (.outsideEnter (F := some .main) rfl rfl)
  exact hmain.step (.enter (F := .main) rfl rfl (mem_slotModule_instructions rfl rfl)
    ⟨.f, rfl, fun _ => rfl⟩)

/-- The run in which `f` returns and `main` loads and exchanges. -/
def slotTrace : List (ExecEvent SlotValue) :=
  [⟨ExecState.start SlotValue, .enter none (some .main)⟩,
    ⟨(ExecState.start SlotValue).enter (some .main) none, .enter (some .call) (some .f)⟩,
    ⟨slotState, .leave⟩,
    ⟨{ slotState with stack := [1, 0] }, .access (some .load) (.stackObject 1 0)⟩,
    ⟨{ slotState with stack := [1, 0] }, .access (some .exchange) (.stackObject 1 0)⟩]

theorem slotTrace_run : (slotModule .none).ExecRun slotTrace { slotState with stack := [1, 0] } := by
  have hleave := (slotModule_start .none).step (.leave rfl)
  have hload := hleave.step (.access (F := .main) (I := .load) (o := .stackObject 1 0) rfl rfl
    (mem_slotModule_instructions rfl rfl) rfl (.head _))
  exact hload.step (.access (F := .main) rfl rfl (mem_slotModule_instructions rfl rfl) rfl
    (.head _))

theorem slotTrace_not_escapes :
    ∀ e ∈ slotTrace, ¬ (slotModule .none).Escapes slotCGUnderMain e := by
  rintro e he ⟨i, inv, hi, hinv, hrecords, hlabel⟩
  simp only [slotTrace, mem_cons, not_mem_nil, or_false] at he
  rcases he with rfl | rfl | rfl | rfl | rfl
  · cases hi
    cases hinv
    obtain ⟨F, hF, -⟩ := hrecords
    cases hF
  · cases hlabel
  · exact hlabel
  · cases hlabel.1
  · -- the exchange is not scanned, but `main` is not recorded
    cases hi
    cases hinv
    obtain ⟨F, hF, -, hmemoryless⟩ := hrecords
    cases hF
    cases hmemoryless

theorem slotCGUnderMain_named : ∀ F,
    (slotModule effect).RecordsFunction slotCGUnderMain F → (slotModule effect).getName F ≠ "" := by
  rintro F ⟨hF, -⟩
  cases F with
  | main => exact (by decide : "main" ≠ "")
  | f => exact (by decide : "f" ≠ "")
  | _ => simp [slotCGUnderMain, ← PtrSet.mem_elems] at hF

/-- The dependence between the call and the load is removed, whatever `f` does with its argument. -/
theorem slotModule_removed :
    (slotModule effect).edgeIsAlongNonMemoryWritingFunctions
      ((slotModule effect).collectMemorylessFunctions .stored slotCGUnderMain
        memorylessFunctionNames) true .call .load = true := by
  have hname : "f" ∈ (slotModule effect).collectMemorylessFunctions .stored slotCGUnderMain
      memorylessFunctionNames :=
    EffectModule.mem_collectMemorylessFunctions.mpr (.inr ⟨.f, ⟨.head _, rfl⟩, rfl⟩)
  generalize (slotModule effect).collectMemorylessFunctions .stored slotCGUnderMain
    memorylessFunctionNames = names at hname
  have hnonWriting : EffectModule.isFunctionNonWriting names "f" = true := by
    rw [EffectModule.isFunctionNonWriting, decide_eq_true hname, Bool.true_or]
  have hcall : (slotModule effect).isCallInst .call = true := rfl
  have hload : (slotModule effect).isCallInst .load = false := rfl
  have hmem : (slotModule effect).isLoadInst .load = true := rfl
  have hcallName : (slotModule effect).getCallFnName .call = "f" := rfl
  simp [EffectModule.edgeIsAlongNonMemoryWritingFunctions, hcall, hload, hmem, hcallName, hnonWriting]

/-- The call and the load are kept apart, as they should be if `f` does nothing, although `main` has an
instruction that is not scanned. -/
theorem collectMemorylessFunctions_sound_unused :
    AllocAA.collectCGUnderFunctionMain (slotModule .none).toAllocModule slotCalls =
        some slotCGUnderMain ∧
      (slotModule .none).edgeIsAlongNonMemoryWritingFunctions
        ((slotModule .none).collectMemorylessFunctions .stored slotCGUnderMain
          memorylessFunctionNames) true .call .load = true ∧
      (slotModule .none).isUnscanned .exchange = true ∧
      (slotModule .none).SoundIn .stored slotCGUnderMain slotTrace :=
  ⟨slotModule_collect .none, slotModule_removed .none, rfl,
    EffectModule.collectMemorylessFunctions_sound .stored (slotCGUnderMain_named .none) slotTrace_run
      slotTrace_not_escapes⟩

/-- An `atomicrmw` through the argument is in the memory of `main`, and is taken not to be. -/
theorem not_sound_atomicRMW :
    AllocAA.collectCGUnderFunctionMain (slotModule .atomicRMWInst).toAllocModule slotCalls =
        some slotCGUnderMain ∧
      (slotModule .atomicRMWInst).RecordsFunction slotCGUnderMain .f ∧
      (slotModule .atomicRMWInst).edgeIsAlongNonMemoryWritingFunctions
        ((slotModule .atomicRMWInst).collectMemorylessFunctions .stored slotCGUnderMain
          memorylessFunctionNames) true .call .load = true ∧
      ∃ tr s, (slotModule .atomicRMWInst).ExecRun tr s ∧
        (∃ e ∈ tr, ¬ (slotModule .atomicRMWInst).AccessesNothingVisible slotCGUnderMain e) ∧
        EffectModule.Conflict tr SlotValue.call SlotValue.load := by
  have huse := (slotModule_start .atomicRMWInst).step (.access (I := .use) (o := .stackObject 1 0)
    rfl rfl (mem_slotModule_instructions rfl rfl) rfl (.tail _ (.head _)))
  have hleave := huse.step (.leave rfl)
  have hload := hleave.step (.access (I := .load) (o := .stackObject 1 0) rfl rfl
    (mem_slotModule_instructions rfl rfl) rfl (.head _))
  have hrecords : (slotModule .atomicRMWInst).RecordsFunction slotCGUnderMain .f :=
    ⟨.head _, rfl⟩
  refine ⟨slotModule_collect _, hrecords, slotModule_removed _, _, _, hload, ?_, ?_⟩
  · refine ⟨⟨slotState, .access (some .use) (.stackObject 1 0)⟩, by simp, fun h => ?_⟩
    exact h _ _ rfl 2 (.head _) _ rfl ⟨.f, rfl, hrecords⟩ Nat.one_lt_two
  · exact ⟨.stackObject 1 0, .invocation 2, .event 4, (fun h => by cases h),
      .invocation (n := 2) rfl rfl (.head _) rfl rfl, .event rfl rfl⟩

end Noelle
