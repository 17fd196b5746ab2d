import Noelle.AllocAA.Classified

/-!
# AllocAA.Soundness

Two accesses that `AllocAA` takes to be into different arrays: the objects they access differ
in every run, provided that the global pointers they go through have local linkage and no
static object that both are initialised to, and that the allocators called for the arrays are
not defined in the module.  The linkage keeps code outside the module from storing to the
pointers; the initializers and the bodies of `malloc` and `calloc` are what the classification
does not look at.
-/

namespace Noelle

open Relation List Option

namespace AllocModule

variable {V : Type} [DecidableEq V] (M : AllocModule V)

/-! ## The objects of an array -/

/-- The instruction accesses an element of what the global variable points to. -/
def AccessesElement (x g : V) : Prop :=
  ∃ p w indices, AllocAA.getMemoryPointerOperand M x = some p ∧
    M.value p = .getElementPtrInst w indices ∧ AllocAA.getMemoryPointerOperand M w = some g

/-- No static object is in the initializers of both global variables. -/
def InitialisedApart (g h : V) : Prop := ∀ o, M.InitialisedTo g o → ¬ M.InitialisedTo h o

/-- The instruction accesses what the call returned, or an element of it. -/
def AccessesResult (x c : V) : Prop :=
  ∃ p, AllocAA.getMemoryPointerOperand M x = some p ∧
    (AllocAA.stripCast M p = c ∨
      ∃ w indices, M.value p = .getElementPtrInst w indices ∧ AllocAA.stripCast M w = c)

/-- Some instruction stores the value to the global variable. -/
def StoredTo (c g : V) : Prop := ∃ st p, M.value st = .storeInst c p ∧ M.Denotes p (.static g)

/-- The result of the call is what the instruction accesses, directly or through a global
pointer. -/
def AllocatesInto (x c : V) : Prop :=
  M.AccessesResult x c ∨ ∃ g, M.AccessesElement x g ∧ M.StoredTo c g

/-- A classified global variable that only the module can name and that gets fresh allocations. -/
structure IsPrivatePointer (g : V) : Prop extends M.IsArrayPointer g where
  hasLocalLinkage : M.hasLocalLinkage g = true
  isAllocatorCall : ∀ c, M.CallsAllocator c → M.StoredTo c g → M.IsAllocatorCall c

/-- The array that the allocations of the call are for: itself, or the global variable that its
one use stores it to. -/
def AllocatesFor (c A : V) : Prop :=
  M.IsAllocatorCall c ∧
    (c = A ∨ ∃ st p, M.users c = [st] ∧ M.value st = .storeInst c p ∧ M.Denotes p (.static A))

/-- The object is one of the array's. -/
def Owns (allocations : List V) (A : V) (o : MemoryObject V) : Prop :=
  (∃ n c, o = .allocated n ∧ allocations[n]? = some c ∧ M.AllocatesFor c A) ∨
    M.InitialisedTo A o

/-- What the instruction computes, if anything, points into the array. -/
inductive PointsInto : V → V → Prop
  | call {c : V} : M.IsAllocatorCall c → PointsInto c c
  | load {x g : V} : AllocAA.getMemoryPointerOperand M x = some g → M.IsPrivatePointer g →
      PointsInto x g
  | cast {x w A : V} : M.value x = .castInst w → PointsInto w A → PointsInto x A
  | getElementPtr {x w A : V} {indices : List V} : M.value x = .getElementPtrInst w indices →
      PointsInto w A → PointsInto x A

/-! ## The invariant -/

/-- The value is no pointer to a private pointer. -/
def Public (val : RunValue V) : Prop :=
  ∀ g, M.IsPrivatePointer g → val.object ≠ some (.static g)

/-- A value that the instruction may compute. -/
structure FitsRegister (allocations : List V) (x : V) (val : RunValue V) : Prop where
  isPublic : M.Public val
  owned : ∀ A, M.PointsInto x A → ∀ o, val.object = some o → M.Owns allocations A o

/-- A value that a cell of the object may hold. -/
structure FitsCell (allocations : List V) (o : MemoryObject V) (val : RunValue V) : Prop where
  isPublic : M.Public val
  owned : ∀ g, M.IsPrivatePointer g → o = .static g → ∀ o', val.object = some o' → M.Owns allocations g o'

structure FitsAccess (allocations : List V) (x : V) (o : MemoryObject V) : Prop where
  mem : x ∈ M.values
  owned : ∀ p A, AllocAA.getMemoryPointerOperand M x = some p → M.PointsInto p A → M.Owns allocations A o
  static : ∀ g, AllocAA.getMemoryPointerOperand M x = some g →
    (M.value g).isGlobalVariable = true → o = .static g

/-- Private pointers are out of reach, and pointers into an array are to objects of its own. -/
structure Confined (s : RunState V) : Prop where
  registers : ∀ fr ∈ s.frames, ∀ x val, fr.registers x = some val → M.FitsRegister s.allocations x val
  memory : ∀ o k, M.FitsCell s.allocations o (s.memory o k)
  accesses : ∀ x o k, (x, o, k) ∈ s.accesses → M.FitsAccess s.allocations x o

variable {M}

omit [DecidableEq V] in
theorem CallsAllocator.exists_callInst {c : V} (h : M.CallsAllocator c) :
    ∃ calledOperand arguments, M.value c = .callInst calledOperand arguments := by
  unfold CallsAllocator calledFunctionName at h
  split at h
  · next calledOperand arguments hv => exact ⟨calledOperand, arguments, hv⟩
  · simp at h

omit [DecidableEq V] in
theorem CallsAllocator.isInstruction {c : V} (h : M.CallsAllocator c) : M.isInstruction c = true := by
  obtain ⟨calledOperand, arguments, hv⟩ := h.exists_callInst
  simp [AllocModule.isInstruction, hv, AllocValue.isInstruction]

theorem PointsInto.isInstruction {x A : V} (h : M.PointsInto x A) : M.isInstruction x = true := by
  cases h with
  | call hc => exact hc.callsAllocator.isInstruction
  | load hp =>
    unfold AllocAA.getMemoryPointerOperand at hp
    split at hp
    · next hv => simp [AllocModule.isInstruction, hv, AllocValue.isInstruction]
    · next hv => simp [AllocModule.isInstruction, hv, AllocValue.isInstruction]
    · cases hp
  | cast hv => simp [AllocModule.isInstruction, hv, AllocValue.isInstruction]
  | getElementPtr hv => simp [AllocModule.isInstruction, hv, AllocValue.isInstruction]

section Monotone

variable {l l' : List V} (hl : l <+: l')

include hl

variable {o : MemoryObject V} {x : V} {val : RunValue V}

theorem Owns.mono {A : V} (h : M.Owns l A o) : M.Owns l' A o := by
  rcases h with ⟨n, c, ho, hn, hc⟩ | h
  · obtain ⟨tail, htail⟩ := hl
    refine .inl ⟨n, c, ho, ?_, hc⟩
    rw [← htail, List.getElem?_append_left (List.getElem?_eq_some_iff.mp hn).1, hn]
  · exact .inr h

theorem FitsRegister.mono (h : M.FitsRegister l x val) :
    M.FitsRegister l' x val :=
  ⟨h.isPublic, fun A hA o ho => (h.owned A hA o ho).mono hl⟩

theorem FitsCell.mono (h : M.FitsCell l o val) :
    M.FitsCell l' o val :=
  ⟨h.isPublic, fun g hg ho o' ho' => (h.owned g hg ho o' ho').mono hl⟩

theorem FitsAccess.mono (h : M.FitsAccess l x o) :
    M.FitsAccess l' x o :=
  ⟨h.mem, fun p A hp hA => (h.owned p A hp hA).mono hl, h.static⟩

end Monotone

theorem Confined.extend {s s' : RunState V} (h : M.Confined s)
    (hs : s.allocations <+: s'.allocations)
    (hregisters : ∀ fr ∈ s'.frames, ∀ x val, fr.registers x = some val →
      (∃ fr₀ ∈ s.frames, fr₀.registers x = some val) ∨ M.FitsRegister s'.allocations x val)
    (hmemory : ∀ o k, s'.memory o k = s.memory o k ∨ M.FitsCell s'.allocations o (s'.memory o k))
    (haccesses : ∀ x o k, (x, o, k) ∈ s'.accesses →
      (x, o, k) ∈ s.accesses ∨ M.FitsAccess s'.allocations x o) : M.Confined s' where
  registers fr hfr x val hval := by
    rcases hregisters fr hfr x val hval with ⟨fr₀, hfr₀, hval⟩ | hfits
    · exact (h.registers fr₀ hfr₀ x val hval).mono hs
    · exact hfits
  memory o k := by
    rcases hmemory o k with heq | hfits
    · exact heq ▸ (h.memory o k).mono hs
    · exact hfits
  accesses x o k hx := by
    rcases haccesses x o k hx with hx | hfits
    · exact (h.accesses x o k hx).mono hs
    · exact hfits

theorem Owns.of_call {l : List V} {c : V} {o : MemoryObject V} (h : M.Owns l c o)
    (hc : M.IsAllocatorCall c) : ∃ n, o = .allocated n ∧ l[n]? = some c := by
  rcases h with ⟨n, c', rfl, hn, -, rfl | ⟨st, p, -, -, val, hval, ho⟩⟩ | ⟨init, hinit, -⟩
  · exact ⟨n, rfl, hn⟩
  · obtain ⟨w, hw, hinst⟩ := hval.object_static ho
    obtain rfl := MemoryObject.static.inj hw
    rw [hc.callsAllocator.isInstruction] at hinst
    cases hinst
  · obtain ⟨calledOperand, arguments, hcall⟩ := hc.callsAllocator.exists_callInst
    simp [hcall] at hinit

/-! ## Operands -/

theorem registers_set_assign {frames : List (Frame V)} {i : Nat} {fr fr' : Frame V} {x y : V}
    {val val' : RunValue V} (hfr : frames[i]? = some fr)
    (hfr' : fr' ∈ frames.set i (fr.assign x val)) (h : fr'.registers y = some val') :
    (∃ fr₀ ∈ frames, fr₀.registers y = some val') ∨ y = x ∧ val' = val := by
  rcases mem_or_eq_of_mem_set hfr' with hfr' | rfl
  · exact .inl ⟨fr', hfr', h⟩
  · by_cases hy : y = x
    · subst hy
      exact .inr ⟨rfl, by simpa [Frame.assign, eq_comm] using h⟩
    · exact .inl ⟨fr, mem_of_getElem? hfr, by simpa [Frame.assign, hy] using h⟩

namespace Confined

variable {s : RunState V} {i : Nat} {fr : Frame V} {x v : V} {val : RunValue V}

/-- An operand that a pointer to a private pointer may be is of a load or of a store of a fresh
allocation. -/
theorem public_operand (h : M.Confined s) (hx : M.CanExecute s i fr x)
    (hinst : M.isInstruction x = true) (hv : v ∈ (M.value x).operands)
    (heval : M.Evaluates fr v val) (huse : ¬ M.IsArrayPointerUse x) : M.Public val := by
  intro g hg ho
  rcases heval with ⟨-, hreg⟩ | hconst
  · exact (h.registers fr (mem_of_getElem? hx.frame) v val hreg).isPublic g hg ho
  · exact huse (hg.use hx.mem hv ⟨val, hconst, ho⟩ (.inl hinst))

variable {o : MemoryObject V} {p : V} {k : Int} {n : Nat}
  {memory : MemoryObject V → Int → RunValue V}

section

variable (h : M.Confined s)

include h

theorem owned_operand (hx : M.CanExecute s i fr x) (heval : M.Evaluates fr v val) {A : V}
    (hA : M.PointsInto v A) (ho : val.object = some o) : M.Owns s.allocations A o := by
  rcases heval with ⟨-, hreg⟩ | hconst
  · exact (h.registers fr (mem_of_getElem? hx.frame) v val hreg).owned A hA o ho
  · have hinst := hA.isInstruction
    rw [hconst.not_instruction.1] at hinst
    cases hinst

theorem fitsAccess (hx : M.CanExecute s i fr x) (hp : AllocAA.getMemoryPointerOperand M x = some p)
    (heval : M.Evaluates fr p ⟨some o, k⟩) : M.FitsAccess s.allocations x o := by
  refine ⟨hx.mem, fun p' A hp' hA => ?_, fun g hg hglobal => ?_⟩
  · obtain rfl : p = p' := mem_unique hp hp'
    exact h.owned_operand hx heval hA rfl
  · obtain rfl : p = g := mem_unique hp hg
    rcases heval with ⟨hinst, -⟩ | hconst
    · revert hglobal hinst
      cases hv : M.value p <;> simp [isInstruction, hv, AllocValue.isInstruction,
        AllocValue.isGlobalVariable]
    · exact Denotes.static_of_globalVariable hglobal ⟨_, hconst, rfl⟩

theorem not_known {g : V} (hg : M.IsPrivatePointer g) :
    ¬ M.KnownOrNew s n (.static g) := by
  rintro (((⟨n, hn⟩ | ⟨v, hv, hlinkage⟩) | ⟨x, hx, hother, v, hv, hdenotes⟩ |
    ⟨fr, hfr, v, val, hval, ho⟩ | ⟨o', k, ho⟩) | ⟨m, hm, -⟩)
  · cases hn
  · obtain rfl := MemoryObject.static.inj hv
    rw [hg.hasLocalLinkage] at hlinkage
    cases hlinkage
  · have hinst : M.isInstruction x = true := by
      revert hother
      unfold IsOther isInstruction
      cases M.value x <;> simp [AllocValue.isInstruction]
    rcases hg.use hx hv hdenotes (.inl hinst) with ⟨p, hp⟩ | ⟨w, p, hp, -⟩ <;>
      simp [IsOther, hp] at hother
  · exact (h.registers fr hfr v val hval).isPublic g hg ho
  · exact (h.memory o' k).isPublic g hg ho
  · cases hm

/-! ## Steps -/

theorem assign (hx : M.CanExecute s i fr x) {allocations : List V}
    (hs : s.allocations <+: allocations)
    {accesses : List (V × MemoryObject V × Int)}
    (hval : M.FitsRegister allocations x val)
    (hmemory : ∀ o k, memory o k = s.memory o k ∨
      M.FitsCell allocations o (memory o k))
    (haccesses : ∀ y o k, (y, o, k) ∈ accesses → (y, o, k) ∈ s.accesses ∨
      M.FitsAccess allocations y o) :
    M.Confined ⟨memory, s.frames.set i (fr.assign x val), allocations, accesses⟩ := by
  refine h.extend hs (fun fr' hfr' y val' hval' => ?_) hmemory haccesses
  rcases registers_set_assign hx.frame hfr' hval' with hold | ⟨rfl, rfl⟩
  · exact .inl hold
  · exact .inr hval

/-- A load keeps the invariant: a cell of a private pointer holds an object of its own. -/
theorem load (hx : M.CanExecute s i fr x) (hv : M.value x = .loadInst p)
    (heval : M.Evaluates fr p ⟨some o, k⟩) :
    M.Confined { s with
      frames := s.frames.set i (fr.assign x (s.memory o k))
      accesses := s.accesses ++ [(x, o, k)] } := by
  have haccess : M.FitsAccess s.allocations x o :=
    h.fitsAccess hx (by simp [AllocAA.getMemoryPointerOperand, hv]) heval
  refine h.assign hx prefix_rfl ⟨(h.memory o k).isPublic, fun A hA o' ho' => ?_⟩
    (fun _ _ => .inl rfl) (fun y o' k' hy => ?_)
  · cases hA with
    | call hc =>
      obtain ⟨calledOperand, arguments, hc⟩ := hc.callsAllocator.exists_callInst
      simp [hv] at hc
    | load hload hg =>
      obtain rfl : p = A := by simpa [AllocAA.getMemoryPointerOperand, hv] using hload
      have ho : o = .static p := haccess.static p (by simp [AllocAA.getMemoryPointerOperand, hv])
        hg.globalVariable
      exact (h.memory o k).owned p hg ho o' ho'
    | cast hcast => simp [hv] at hcast
    | getElementPtr hgep => simp [hv] at hgep
  · rcases mem_append.mp hy with hy | hy
    · exact .inl hy
    · obtain ⟨rfl, rfl, rfl⟩ : y = x ∧ o' = o ∧ k' = k := by simpa using hy
      exact .inr haccess

/-- A store keeps the invariant: what is stored to a private pointer is a fresh allocation that is
used nowhere else. -/
theorem store (hx : M.CanExecute s i fr x) (hv : M.value x = .storeInst v p)
    (hval : M.Evaluates fr v val) (heval : M.Evaluates fr p ⟨some o, k⟩) :
    M.Confined { s with memory := s.write o k val, accesses := s.accesses ++ [(x, o, k)] } := by
  have hinst : M.isInstruction x = true := by
    simp [AllocModule.isInstruction, hv, AllocValue.isInstruction]
  have hvmem : v ∈ (M.value x).operands := by simp [hv, AllocValue.operands]
  have hpmem : p ∈ (M.value x).operands := by simp [hv, AllocValue.operands]
  have hpublic : M.Public val := by
    intro g hg ho
    rcases hval with ⟨-, hreg⟩ | hconst
    · exact (h.registers fr (mem_of_getElem? hx.frame) v val hreg).isPublic g hg ho
    · -- the stored value would be a call
      rcases hg.use hx.mem hvmem ⟨val, hconst, ho⟩ (.inl hinst) with ⟨q, hq⟩ | ⟨w, q, hq, hw, -⟩
      · simp [hv] at hq
      · obtain ⟨rfl, rfl⟩ : v = w ∧ p = q := by simpa [hv] using hq
        have hnot := hconst.not_instruction.1
        rw [hw.isInstruction] at hnot
        cases hnot
  have hcell : M.FitsCell s.allocations o val := by
    refine ⟨hpublic, fun g hg ho o' ho' => ?_⟩
    have hdenotes : M.Denotes p (.static g) := by
      rcases heval with ⟨-, hreg⟩ | hconst
      · exact absurd (congrArg some ho)
          ((h.registers fr (mem_of_getElem? hx.frame) p _ hreg).isPublic g hg)
      · exact ⟨_, hconst, congrArg some ho⟩
    rcases hg.use hx.mem hpmem hdenotes (.inl hinst) with ⟨q, hq⟩ | ⟨w, q, hq, hw, hone⟩
    · simp [hv] at hq
    · obtain ⟨rfl, rfl⟩ : v = w ∧ p = q := by simpa [hv] using hq
      have hfresh := hg.isAllocatorCall v hw ⟨x, p, hv, hdenotes⟩
      obtain ⟨n, rfl, hn⟩ := (h.owned_operand hx hval (PointsInto.call hfresh) ho').of_call hfresh
      obtain ⟨st, hst⟩ := length_eq_one_iff.mp (of_decide_eq_true hone)
      have hxst : x ∈ M.users v := M.mem_users.mpr ⟨hx.mem, hvmem⟩
      obtain rfl : x = st := by simpa [hst] using hxst
      exact .inl ⟨n, v, rfl, hn, hfresh, .inr ⟨x, p, hst, hv, hdenotes⟩⟩
  refine h.extend prefix_rfl (fun fr' hfr' y val' hval' => .inl ⟨fr', hfr', hval'⟩) ?_ ?_
  · intro o' k'
    by_cases ho : o' = o
    · subst ho
      by_cases hk : k' = k
      · subst hk
        exact .inr (by simpa [RunState.write] using hcell)
      · exact .inl (by simp [RunState.write, hk])
    · exact .inl (by simp [RunState.write, ho])
  · intro y o' k' hy
    rcases mem_append.mp hy with hy | hy
    · exact .inl hy
    · obtain ⟨rfl, rfl, rfl⟩ : y = x ∧ o' = o ∧ k' = k := by simpa using hy
      exact .inr (h.fitsAccess hx (by simp [AllocAA.getMemoryPointerOperand, hv]) heval)

/-- A cast or a GEP keeps the object of its pointer. -/
theorem castOrGEP (hx : M.CanExecute s i fr x) {indices : List V}
    (hv : M.value x = .castInst v ∨ M.value x = .getElementPtrInst v indices)
    (heval : M.Evaluates fr v val) (k : Int) :
    M.Confined { s with frames := s.frames.set i (fr.assign x ⟨val.object, k⟩) } := by
  have hpublic : M.Public val := by
    refine h.public_operand hx ?_ ?_ heval ?_
    · rcases hv with hv | hv <;> simp [AllocModule.isInstruction, hv, AllocValue.isInstruction]
    · rcases hv with hv | hv <;> simp [hv, AllocValue.operands]
    · rcases hv with hv | hv <;> simp [IsArrayPointerUse, hv]
  refine h.assign hx prefix_rfl ⟨hpublic, fun A hA o ho => ?_⟩ (fun _ _ => .inl rfl)
    (fun _ _ _ hy => .inl hy)
  have hw : M.PointsInto v A := by
    cases hA with
    | call hc =>
      obtain ⟨calledOperand, arguments, hcall⟩ := hc.callsAllocator.exists_callInst
      simp [hcall] at hv
    | load hload =>
      rcases hv with hv | hv <;> simp [AllocAA.getMemoryPointerOperand, hv] at hload
    | cast hcast hw =>
      obtain rfl : _ = v := by simpa [hcast] using hv
      exact hw
    | getElementPtr hgep hw =>
      obtain ⟨rfl, -⟩ : _ = v ∧ _ := by simpa [hgep] using hv
      exact hw
  exact h.owned_operand hx heval hw ho

theorem allocate (hx : M.CanExecute s i fr x) (hc : M.IsAllocatorCall x) :
    M.Confined { s with
      frames := s.frames.set i (fr.assign x ⟨some (.allocated s.allocations.length), 0⟩)
      allocations := s.allocations ++ [x] } := by
  refine h.assign hx (prefix_append _ _) ⟨fun g _ ho => (by cases ho), fun A hA o ho => ?_⟩
    (fun _ _ => .inl rfl) (fun _ _ _ hy => .inl hy)
  obtain ⟨calledOperand, arguments, hcall⟩ := hc.callsAllocator.exists_callInst
  cases ho
  cases hA with
  | call => exact .inl ⟨_, x, rfl, by simp, hc, .inl rfl⟩
  | load hload => simp [AllocAA.getMemoryPointerOperand, hcall] at hload
  | cast hcast => simp [hcall] at hcast
  | getElementPtr hgep => simp [hcall] at hgep

theorem allocateNone (hx : M.CanExecute s i fr x) :
    M.Confined { s with frames := s.frames.set i (fr.assign x ⟨none, 0⟩) } :=
  h.assign hx prefix_rfl ⟨fun _ _ ho => (by cases ho), fun _ _ _ ho => (by cases ho)⟩
    (fun _ _ => .inl rfl) (fun _ _ _ hy => .inl hy)

theorem public_of_known (hval : ∀ o, val.object = some o → M.KnownOrNew s n o) : M.Public val :=
  fun _ hg ho => h.not_known hg (hval _ ho)

/-- Code that is not spelled out keeps the invariant: it reaches no private pointer. -/
theorem other (hx : M.CanExecute s i fr x) (hother : M.IsOther x)
    (hval : ∀ o, val.object = some o → M.KnownOrNew s n o)
    (hmemory : ∀ o k, memory o k ≠ s.memory o k → M.KnownOrNew s n o ∧
      ∀ o', (memory o k).object = some o' → M.KnownOrNew s n o') :
    M.Confined { s with
      memory := memory
      frames := s.frames.set i (fr.assign x val)
      allocations := s.allocations ++ List.replicate n x } := by
  refine h.assign hx (prefix_append _ _) ⟨h.public_of_known hval, fun A hA => ?_⟩ ?_
    (fun _ _ _ hy => .inl hy)
  · exfalso
    cases hA with
    | call hc =>
      obtain ⟨calledOperand, arguments, hcall⟩ := hc.callsAllocator.exists_callInst
      simp [IsOther, hcall, hc] at hother
    | load hload =>
      unfold AllocAA.getMemoryPointerOperand at hload
      split at hload <;> simp_all [IsOther]
    | cast hcast => simp [IsOther, hcast] at hother
    | getElementPtr hgep => simp [IsOther, hgep] at hother
  · intro o k
    by_cases heq : memory o k = s.memory o k
    · exact .inl heq
    · obtain ⟨ho, hcell⟩ := hmemory o k heq
      refine .inr ⟨h.public_of_known hcell, fun g hg hstatic => ?_⟩
      exact absurd (hstatic ▸ ho) (h.not_known hg)

/-- A step keeps the pointers and accesses where they fit. -/
theorem step {s' : RunState V} (hstep : M.Step s s') : M.Confined s' := by
  cases hstep with
  | start function args hargs =>
    refine h.extend prefix_rfl (fun fr' hfr' y val' hval' => ?_) (fun _ _ => .inl rfl)
      (fun _ _ _ hy => .inl hy)
    rcases mem_append.mp hfr' with hfr' | hfr'
    · exact .inl ⟨fr', hfr', hval'⟩
    · obtain rfl := mem_singleton.mp hfr'
      obtain ⟨harg, hknown⟩ := hargs y val' hval'
      refine .inr ⟨fun g hg ho => h.not_known hg (n := 0) (.inl (hknown _ ho)), fun A hA => ?_⟩
      -- an argument is not computed by an instruction
      have hinst := hA.isInstruction
      simp [AllocModule.isInstruction, harg, AllocValue.isInstruction] at hinst
  | leave i =>
    exact h.extend prefix_rfl
      (fun fr' hfr' _ _ hval' => .inl ⟨fr', mem_of_mem_eraseIdx hfr', hval'⟩)
      (fun _ _ => .inl rfl) (fun _ _ _ hy => .inl hy)
  | load hx hv heval => exact h.load hx hv heval
  | store hx hv hval heval => exact h.store hx hv hval heval
  | cast k hx hv heval => exact h.castOrGEP hx (.inl hv : _ ∨ M.value _ = .getElementPtrInst _ []) heval k
  | getElementPtr k hx hv heval => exact h.castOrGEP hx (.inr hv) heval k
  | allocate hx hc => exact h.allocate hx hc
  | allocateNone hx => exact h.allocateNone hx
  | other val memory n hx hother hval hmemory => exact h.other hx hother hval hmemory

end

/-- At the start every pointer is where it fits. -/
theorem initial (h : M.Initial s) : M.Confined s := by
  have hcell : ∀ g, M.IsPrivatePointer g → ∀ o' k, (s.memory o' k).object ≠ some (.static g) := by
    intro g hg o' k ho
    rcases h.memory o' k _ ho with ⟨v, hv, rfl, init, hinit, hdenotes⟩ | ⟨-, hout⟩
    · have huse := hg.use hv (by simp [hinit, AllocValue.operands]) hdenotes
        (.inr (by simp [hinit, AllocValue.isGlobalVariable]))
      simp [IsArrayPointerUse, hinit] at huse
    · rcases hout with ⟨n, hn⟩ | ⟨v, hv, hlinkage⟩
      · cases hn
      · obtain rfl := MemoryObject.static.inj hv
        simp [hg.hasLocalLinkage] at hlinkage
  refine ⟨by simp [h.frames_eq], fun o k => ⟨fun g hg => hcell g hg o k, ?_⟩,
    by simp [h.accesses_eq]⟩
  rintro g hg rfl o' ho'
  rcases h.memory _ k _ ho' with ⟨v, -, hv, hinit⟩ | ⟨hout, -⟩
  · exact .inr (MemoryObject.static.inj hv ▸ hinit)
  · rcases hout with ⟨n, hn⟩ | ⟨v, hv, hlinkage⟩
    · cases hn
    · obtain rfl := MemoryObject.static.inj hv
      simp [hg.hasLocalLinkage] at hlinkage

theorem reachable (h : M.Reachable s) : M.Confined s := by
  obtain ⟨s₀, h₀, hsteps⟩ := h
  induction hsteps with
  | refl => exact initial h₀
  | tail _ hstep ih => exact ih.step hstep

end Confined

/-! ## Arrays are apart -/

variable {c A B : V} {o : MemoryObject V} {l : List V}

theorem IsArray.not_stored {st p : V} (hc : M.IsArray c) (hst : st ∈ M.users c) :
    M.value st ≠ .storeInst c p := by
  intro hv
  obtain ⟨us, hus, huses⟩ := hc.uses
  obtain ⟨I, hI, hstI⟩ := AllocAA.exists_userInstruction hus hst
  have hself : AllocAA.userInstruction M st = some st := by
    simp [AllocAA.userInstruction, hv, AllocModule.isInstruction, AllocValue.isInstruction]
  obtain rfl : st = I := mem_unique hself hstI
  rcases huses st hI with ⟨w, hw⟩ | ⟨w, indices, hw⟩ <;> simp [hv] at hw

/-- A call allocates for one array only. -/
theorem AllocatesFor.eq (hA : M.IsArray A ∨ M.IsArrayPointer A)
    (hB : M.IsArray B ∨ M.IsArrayPointer B) (hcA : M.AllocatesFor c A)
    (hcB : M.AllocatesFor c B) : A = B := by
  have hlocal : ∀ {A}, M.IsArray A ∨ M.IsArrayPointer A → M.IsAllocatorCall A → M.IsArray A := by
    rintro A (hA | hA) hcall
    · exact hA
    · obtain ⟨calledOperand, arguments, hv⟩ := hcall.callsAllocator.exists_callInst
      simpa [hv, AllocValue.isGlobalVariable] using hA.globalVariable
  have hglobal : ∀ {A}, M.IsArray A ∨ M.IsArrayPointer A → ∀ {p}, M.Denotes p (.static A) →
      M.IsArrayPointer A := by
    rintro A (hA | hA) p ⟨val, hval, ho⟩
    · obtain ⟨w, hw, hinst⟩ := hval.object_static ho
      obtain rfl := MemoryObject.static.inj hw
      rw [hA.callsAllocator.isInstruction] at hinst
      cases hinst
    · exact hA
  obtain ⟨hc, rfl | ⟨st, p, hst, hv, hp⟩⟩ := hcA
  · obtain ⟨-, rfl | ⟨st, p, hst, hv, -⟩⟩ := hcB
    · rfl
    · exact absurd hv ((hlocal hA hc).not_stored (by simp [hst]))
  · obtain ⟨-, rfl | ⟨st', p', hst', hv', hp'⟩⟩ := hcB
    · exact absurd hv ((hlocal hB hc).not_stored (by simp [hst]))
    · obtain rfl : st = st' := by simpa [hst] using hst'
      obtain rfl : p = p' := by simpa [hv] using hv'
      have hmem : p ∈ M.values :=
        M.operand_mem st (M.mem_users.mp (hst ▸ mem_singleton_self st : st ∈ M.users c)).1 p
          (by simp [hv, AllocValue.operands])
      exact ((hglobal hA hp).eq_of_denotes hmem hp hp').symm

omit [DecidableEq V] in
theorem InitialisedTo.exists_static {v : V} (h : M.InitialisedTo v o) :
    ∃ w, o = .static w := by
  obtain ⟨init, -, val, hval, ho⟩ := h
  obtain ⟨w, hw, -⟩ := hval.object_static ho
  exact ⟨w, hw⟩

theorem Owns.initialisedTo (hA : M.IsArray A ∨ M.IsArrayPointer A)
    (hB : M.IsArray B ∨ M.IsArrayPointer B) (hAB : A ≠ B) (hAo : M.Owns l A o)
    (hBo : M.Owns l B o) : M.InitialisedTo A o ∧ M.InitialisedTo B o := by
  rcases hAo with ⟨n, c, rfl, hn, hcA⟩ | hAo
  · rcases hBo with ⟨n', c', hn', hc', hcB⟩ | hBo
    · obtain rfl := MemoryObject.allocated.inj hn'
      obtain rfl : c = c' := mem_unique hn hc'
      exact absurd (hcA.eq hA hB hcB) hAB
    · obtain ⟨w, hw⟩ := hBo.exists_static
      cases hw
  · rcases hBo with ⟨n', c', rfl, -, -⟩ | hBo
    · obtain ⟨w, hw⟩ := hAo.exists_static
      cases hw
    · exact ⟨hAo, hBo⟩

theorem IsArrayPointer.not_owned (hg : M.IsArrayPointer g)
    (hA : M.IsArray A ∨ M.IsArrayPointer A) : ¬ M.Owns l A (.static g) := by
  rintro (⟨n, c, hn, -, -⟩ | ⟨init, hinit, hdenotes⟩)
  · cases hn
  · rcases hA with hA | hA
    · obtain ⟨calledOperand, arguments, hv⟩ := hA.callsAllocator.exists_callInst
      simp [hv] at hinit
    · have huse := hg.use hA.mem (by simp [hinit, AllocValue.operands]) hdenotes
        (.inr (by simp [hinit, AllocValue.isGlobalVariable]))
      simp [IsArrayPointerUse, hinit] at huse

end AllocModule

namespace AllocAA

variable {V : Type} [DecidableEq V] {ord : IterOrder} {M : AllocModule V}
  {callGraph : CallRecords V} {fuel : Nat} {aa : AllocAA V}
variable {v A x : V} {gep : Option V}

theorem stripCast_eq_of_isArrayPointer {g : V} (hg : M.IsArrayPointer g) (hv : v ∈ M.values)
    (h : stripCast M v = g) : v = g := by
  unfold stripCast at h
  split at h
  · next w hw =>
    subst h
    obtain ⟨init, hinit⟩ : ∃ init, M.value w = .globalVariable init := by
      have hglobal := hg.globalVariable
      cases hvw : M.value w <;> simp_all [AllocValue.isGlobalVariable]
    have huse := hg.use hv (v := w) (by simp [hw, AllocValue.operands]) ⟨_, .global hinit, rfl⟩
      (.inl (by simp [AllocModule.isInstruction, hw, AllocValue.isInstruction]))
    simp [AllocModule.IsArrayPointerUse, hw] at huse
  · exact h

theorem pointsInto_of_stripCast (hA : M.IsAllocatorCall A) (h : stripCast M v = A) :
    M.PointsInto v A := by
  have hself := AllocModule.PointsInto.call hA
  unfold stripCast at h
  split at h
  · next w hw =>
    subst h
    exact .cast hw hself
  · exact h ▸ hself

theorem isArray_of_getLocalPrimitiveArray (hcallGraph : callGraph.NameCallee M)
    (hnew : AllocAA.new ord M callGraph fuel = some aa)
    (h : aa.getLocalPrimitiveArray M v = some A) : M.IsArray A ∧ stripCast M v = A := by
  unfold getLocalPrimitiveArray at h
  dsimp only at h
  split at h
  · next hA =>
    cases h
    exact ⟨isArray_of_mem hcallGraph hnew (of_decide_eq_true (Bool.and_eq_true_iff.mp hA).2), rfl⟩
  · cases h

theorem isArrayPointer_of_getGlobalValuePrimitiveArray
    (hnew : AllocAA.new ord M callGraph fuel = some aa) (hv : v ∈ M.values)
    (h : aa.getGlobalValuePrimitiveArray M v = some A) : M.IsArrayPointer A ∧ v = A := by
  unfold getGlobalValuePrimitiveArray at h
  dsimp only at h
  split at h
  · next hA =>
    have hg := isArrayPointer_of_mem hnew hA
    cases h
    exact ⟨hg, stripCast_eq_of_isArrayPointer hg hv rfl⟩
  · cases h

omit [DecidableEq V] in
theorem getMemoryPointerOperand_mem {p : V} (hx : x ∈ M.values)
    (h : getMemoryPointerOperand M x = some p) : p ∈ M.values := by
  refine M.operand_mem x hx p ?_
  unfold getMemoryPointerOperand at h
  split at h <;> simp_all [AllocValue.operands]

/-- The three kinds of access: an element of an allocation, a global pointer, and an element of
what it points to. -/
theorem getPrimitiveArrayAccess_cases (hcallGraph : callGraph.NameCallee M)
    (hnew : AllocAA.new ord M callGraph fuel = some aa) (hx : x ∈ M.values)
    (h : aa.getPrimitiveArrayAccess M x = some (A, gep)) :
    ∃ p, getMemoryPointerOperand M x = some p ∧
      (M.IsArray A ∧ M.AccessesResult x A ∧ (M.IsAllocatorCall A → M.PointsInto p A) ∨
        M.IsArrayPointer A ∧ (p = A ∨ M.AccessesElement x A)) := by
  obtain ⟨p, hp, h⟩ := bind_eq_some_iff.mp h
  have hpmem : p ∈ M.values := getMemoryPointerOperand_mem hx hp
  refine ⟨p, hp, ?_⟩
  cases hdirect : aa.getPrimitiveArray M p with
  | some directAccessArray =>
    simp only [hdirect] at h
    obtain ⟨rfl, -⟩ := Prod.mk.inj (some.inj h)
    rcases or_eq_some_iff.mp hdirect with hlocal | ⟨-, hglobal⟩
    · obtain ⟨hA, hstrip⟩ := isArray_of_getLocalPrimitiveArray hcallGraph hnew hlocal
      exact .inl ⟨hA, ⟨p, hp, .inl hstrip⟩, fun hcall => pointsInto_of_stripCast hcall hstrip⟩
    · obtain ⟨hA, hpA⟩ := isArrayPointer_of_getGlobalValuePrimitiveArray hnew hpmem hglobal
      exact .inr ⟨hA, .inl hpA⟩
  | none =>
    simp only [hdirect] at h
    split at h
    · next gepMemOp indices hgep =>
      have hgepmem : gepMemOp ∈ M.values :=
        M.operand_mem p hpmem gepMemOp (by simp [hgep, AllocValue.operands])
      split at h
      · next localArray hlocal =>
        obtain ⟨rfl, -⟩ := Prod.mk.inj (some.inj h)
        obtain ⟨hA, hstrip⟩ := isArray_of_getLocalPrimitiveArray hcallGraph hnew hlocal
        exact .inl ⟨hA, ⟨p, hp, .inr ⟨gepMemOp, indices, hgep, hstrip⟩⟩,
          fun hcall => .getElementPtr hgep (pointsInto_of_stripCast hcall hstrip)⟩
      · obtain ⟨loadMemOp, hload, h⟩ := bind_eq_some_iff.mp h
        obtain ⟨globalArray, hglobal, h⟩ := bind_eq_some_iff.mp h
        obtain ⟨rfl, -⟩ := Prod.mk.inj (some.inj h)
        obtain ⟨hA, rfl⟩ := isArrayPointer_of_getGlobalValuePrimitiveArray hnew
          (getMemoryPointerOperand_mem hgepmem hload) hglobal
        exact .inr ⟨hA, .inr ⟨p, gepMemOp, indices, hp, hgep, hload⟩⟩
    · cases h

/-- What an access into a classified array accesses: an object of the array, or the global
pointer itself. -/
theorem accessed_cases (hcallGraph : callGraph.NameCallee M)
    (hnew : AllocAA.new ord M callGraph fuel = some aa) {s : RunState V} (hs : M.Confined s)
    {o : MemoryObject V} {k : Int} (hx : (x, o, k) ∈ s.accesses)
    (hlinkage : ∀ g, M.AccessesElement x g → M.hasLocalLinkage g = true)
    (hcalls : ∀ c, M.CallsAllocator c → M.AllocatesInto x c → M.IsAllocatorCall c)
    (h : aa.getPrimitiveArrayAccess M x = some (A, gep)) :
    (M.IsArray A ∨ M.IsArrayPointer A) ∧
      (M.Owns s.allocations A o ∧ (M.IsArray A ∨ M.AccessesElement x A) ∨
        M.IsArrayPointer A ∧ o = .static A) := by
  have haccess := hs.accesses x o k hx
  obtain ⟨p, hp, ⟨hA, hresult, hpoints⟩ | ⟨hA, rfl | helement⟩⟩ :=
    getPrimitiveArrayAccess_cases hcallGraph hnew haccess.mem h
  · have hfresh := hcalls A hA.callsAllocator (.inl hresult)
    exact ⟨.inl hA, .inl ⟨haccess.owned p A hp (hpoints hfresh), .inl hA⟩⟩
  · exact ⟨.inr hA, .inr ⟨hA, haccess.static p hp hA.globalVariable⟩⟩
  · obtain ⟨p', w, indices, hp', hgep, hw⟩ := helement
    obtain rfl : p = p' := mem_unique hp hp'
    have haccesses : M.AccessesElement x A := ⟨p, w, indices, hp, hgep, hw⟩
    have hprivate : M.IsPrivatePointer A := ⟨hA, hlinkage A haccesses,
      fun c hc hstored => hcalls c hc (.inr ⟨A, haccesses, hstored⟩)⟩
    exact ⟨.inr hA, .inl ⟨haccess.owned p A hp (.getElementPtr hgep (.load hw hprivate)),
      .inr haccesses⟩⟩

end AllocAA

namespace AllocModule

variable {V : Type} [DecidableEq V] (M : AllocModule V)

/-- The global pointers whose elements the two instructions access have local linkage, different
ones are not initialised to the same object, and the functions named `malloc` and `calloc` that
were called for what the instructions access are not defined in the module. -/
structure KeptApart (i j : V) : Prop where
  linkage : ∀ g, M.AccessesElement i g ∨ M.AccessesElement j g → M.hasLocalLinkage g = true
  initializers : ∀ g h, g ≠ h → M.AccessesElement i g → M.AccessesElement j h →
    M.InitialisedApart g h
  allocators : ∀ c, M.CallsAllocator c → M.AllocatesInto i c ∨ M.AllocatesInto j c →
    M.IsAllocatorCall c

end AllocModule

namespace AllocAA

variable {V : Type} [DecidableEq V] {ord : IterOrder} {M : AllocModule V}
  {callGraph : CallRecords V} {fuel : Nat} {aa : AllocAA V}

/-- In every run, two accesses into different arrays access different addresses, if the global
pointers that they go through are kept apart. -/
theorem isMemoryAccessIntoDifferentArrays_sound (hcallGraph : callGraph.NameCallee M)
    (hnew : AllocAA.new ord M callGraph fuel = some aa) {i j : V} (hapart : M.KeptApart i j)
    (h : aa.isMemoryAccessIntoDifferentArrays M i j = true) {s : RunState V}
    (hs : M.Reachable s) {a b : MemoryObject V × Int} (ha : (i, a) ∈ s.accesses)
    (hb : (j, b) ∈ s.accesses) : a ≠ b := by
  rintro rfl
  obtain ⟨o, k⟩ := a
  unfold isMemoryAccessIntoDifferentArrays at h
  split at h
  · next A gepA B gepB hA hB =>
    have hAB : A ≠ B := of_decide_eq_true h
    have hconfined := AllocModule.Confined.reachable hs
    obtain ⟨hAarray, hAo⟩ := accessed_cases hcallGraph hnew hconfined ha
      (fun g hg => hapart.linkage g (.inl hg)) (fun c hc hi => hapart.allocators c hc (.inl hi)) hA
    obtain ⟨hBarray, hBo⟩ := accessed_cases hcallGraph hnew hconfined hb
      (fun g hg => hapart.linkage g (.inr hg)) (fun c hc hj => hapart.allocators c hc (.inr hj)) hB
    rcases hAo with ⟨hAo, hAkind⟩ | ⟨hApointer, rfl⟩
    · rcases hBo with ⟨hBo, hBkind⟩ | ⟨hBpointer, rfl⟩
      · obtain ⟨hAinit, hBinit⟩ := hAo.initialisedTo hAarray hBarray hAB hBo
        have helement : ∀ {C x}, M.IsArray C ∨ M.AccessesElement x C → M.InitialisedTo C o →
            M.AccessesElement x C := by
          rintro C x (hC | hC) ⟨init, hinit, -⟩
          · obtain ⟨calledOperand, arguments, hv⟩ := hC.callsAllocator.exists_callInst
            simp [hv] at hinit
          · exact hC
        exact hapart.initializers A B hAB (helement hAkind hAinit) (helement hBkind hBinit) o
          hAinit hBinit
      · exact hBpointer.not_owned hAarray hAo
    · rcases hBo with ⟨hBo, -⟩ | ⟨-, hB⟩
      · exact hApointer.not_owned hBarray hBo
      · exact hAB (MemoryObject.static.inj hB)
  · cases h

end AllocAA

/-! ## Two global pointers that are only loaded -/

inductive TwoPointersValue where
  | main | bufA | bufB | p | q | zero | loadP | loadQ | elementP | elementQ | loadElement
  | storeElement
  deriving DecidableEq

open TwoPointersValue in
/-- `main` loads from the buffer that `p` points to and stores to the one that `q` points to. -/
def twoPointers (bufQ : TwoPointersValue) : AllocModule TwoPointersValue where
  values := PtrSet.ofList [main, bufA, bufB, p, q, zero, loadP, loadQ, elementP, elementQ,
    loadElement, storeElement]
  value
    | main => .function "main"
    | bufA => .globalVariable (some zero)
    | bufB => .globalVariable (some zero)
    | p => .globalVariable (some bufA)
    | q => .globalVariable (some bufQ)
    | zero => .constantData
    | loadP => .loadInst p
    | loadQ => .loadInst q
    | elementP => .getElementPtrInst loadP [zero]
    | elementQ => .getElementPtrInst loadQ [zero]
    | loadElement => .loadInst elementP
    | storeElement => .storeInst zero elementQ
  operand_mem := by
    intro u _ v _
    cases v <;> decide
  isIntegerTy v := decide (v = zero ∨ v = loadElement)
  getFunction _ := main
  empty _ := false
  hasExternalLinkage v := decide (v = main)
  hasLocalLinkage v := decide (v ≠ main)

theorem mem_twoPointers {bufQ v : TwoPointersValue} : v ∈ (twoPointers bufQ).values := by
  cases v <;> simp [twoPointers]

/-- What `AllocAA` finds in `twoPointers`. -/
def twoPointersAA : AllocAA TwoPointersValue where
  CGUnderMain := PtrSet.ofList [.main]
  allocatorCalls := ∅
  primitiveArrayGlobals := PtrSet.ofList [.q, .p]
  primitiveArrayLocals := ∅

theorem twoPointers_new {bufQ : TwoPointersValue} (h : bufQ = .bufA ∨ bufQ = .bufB) :
    AllocAA.new .stored (twoPointers bufQ) (fun _ => []) 8 = some twoPointersAA := by
  rcases h with rfl | rfl <;> rfl

/-- The pointers hold their initializers. -/
def twoPointersStart (bufQ : TwoPointersValue) : RunState TwoPointersValue where
  memory o _ :=
    if o = .static .p then ⟨some (.static .bufA), 0⟩
    else if o = .static .q then ⟨some (.static bufQ), 0⟩
    else ⟨none, 0⟩
  frames := []
  allocations := []
  accesses := []

/-- A run in which both accesses happen. -/
theorem twoPointers_run {bufQ : TwoPointersValue} (h : bufQ = .bufA ∨ bufQ = .bufB) :
    ∃ s, (twoPointers bufQ).Reachable s ∧ (.loadElement, .static .bufA, 0) ∈ s.accesses ∧
      (.storeElement, .static bufQ, 0) ∈ s.accesses := by
  have hbufA : (twoPointers bufQ).Denotes .bufA (.static .bufA) := ⟨_, .global rfl, rfl⟩
  have hbufQ : (twoPointers bufQ).Denotes bufQ (.static bufQ) := by
    rcases h with rfl | rfl <;> exact ⟨_, .global rfl, rfl⟩
  have hinitial : (twoPointers bufQ).Initial (twoPointersStart bufQ) := by
    refine ⟨rfl, rfl, rfl, fun o' k o ho => .inl ?_⟩
    by_cases hp : o' = .static .p
    · obtain rfl : MemoryObject.static .bufA = o := by simpa [twoPointersStart, hp] using ho
      exact ⟨.p, mem_twoPointers, hp, .bufA, rfl, hbufA⟩
    · by_cases hq : o' = .static .q
      · obtain rfl : MemoryObject.static bufQ = o := by simpa [twoPointersStart, hp, hq] using ho
        exact ⟨.q, mem_twoPointers, hq, bufQ, rfl, hbufQ⟩
      · simp [twoPointersStart, hp, hq] at ho
  refine ⟨_, ⟨_, hinitial, ((((((ReflTransGen.refl
    |>.tail (.start .main (fun _ => none) (by simp)))
    |>.tail (.load (i := 0) (x := .loadP) ⟨rfl, mem_twoPointers, rfl⟩ rfl (.inr (.global rfl))))
    |>.tail (.load (i := 0) (x := .loadQ) ⟨rfl, mem_twoPointers, rfl⟩ rfl (.inr (.global rfl))))
    |>.tail (.getElementPtr (i := 0) (x := .elementP) 0 ⟨rfl, mem_twoPointers, rfl⟩ rfl
      (.inl ⟨.inr rfl, rfl⟩)))
    |>.tail (.getElementPtr (i := 0) (x := .elementQ) 0 ⟨rfl, mem_twoPointers, rfl⟩ rfl
      (.inl ⟨.inr rfl, rfl⟩)))
    |>.tail (.load (i := 0) (x := .loadElement) ⟨rfl, mem_twoPointers, rfl⟩ rfl
      (.inl ⟨.inr rfl, rfl⟩)))
    |>.tail (.store (i := 0) (x := .storeElement) ⟨rfl, mem_twoPointers, rfl⟩ rfl
      (.inr (.data 0 rfl)) (.inl ⟨.inr rfl, rfl⟩))⟩, ?_, ?_⟩ <;> simp [twoPointersStart]

/-- Pointers with buffers of their own meet the condition. -/
theorem twoPointers_keptApart : (twoPointers .bufB).KeptApart .loadElement .storeElement := by
  have hload : ∀ {g}, (twoPointers .bufB).AccessesElement .loadElement g → g = .p := by
    rintro g ⟨memOp, w, indices, hmemOp, hgep, hw⟩
    obtain rfl : TwoPointersValue.elementP = memOp := some.inj hmemOp
    obtain ⟨rfl, -⟩ := AllocValue.getElementPtrInst.inj hgep
    exact (some.inj hw).symm
  have hstore : ∀ {g}, (twoPointers .bufB).AccessesElement .storeElement g → g = .q := by
    rintro g ⟨memOp, w, indices, hmemOp, hgep, hw⟩
    obtain rfl : TwoPointersValue.elementQ = memOp := some.inj hmemOp
    obtain ⟨rfl, -⟩ := AllocValue.getElementPtrInst.inj hgep
    exact (some.inj hw).symm
  have hinit : ∀ (v buf : TwoPointersValue) {o}, (twoPointers .bufB).value v =
      .globalVariable (some buf) → ((twoPointers .bufB).value buf).isGlobalVariable = true →
      (twoPointers .bufB).InitialisedTo v o → o = .static buf := by
    rintro v buf o hv hbuf ⟨init, hinit, hdenotes⟩
    obtain rfl : buf = init := by simpa [hv] using hinit
    exact hdenotes.static_of_globalVariable hbuf
  refine ⟨?_, ?_, fun c hc => ?_⟩
  · rintro g (hg | hg)
    · rw [hload hg]; rfl
    · rw [hstore hg]; rfl
  · rintro g h - hg hh o hgo hho
    obtain rfl := hload hg
    obtain rfl := hstore hh
    have hA := hinit .p .bufA rfl rfl hgo
    have hB := hinit .q .bufB rfl rfl hho
    rw [hA] at hB
    cases hB
  · -- nothing is called
    obtain ⟨calledOperand, arguments, hv⟩ := hc.exists_callInst
    cases c <;> cases hv

/-- With one buffer for both pointers, accesses into different arrays meet. -/
theorem twoPointers_sharedBuffer :
    AllocAA.new .stored (twoPointers .bufA) (fun _ => []) 8 = some twoPointersAA ∧
      twoPointersAA.isMemoryAccessIntoDifferentArrays (twoPointers .bufA) .loadElement
        .storeElement = true ∧
      ∃ s, (twoPointers .bufA).Reachable s ∧
        ∃ a, (.loadElement, a) ∈ s.accesses ∧ (.storeElement, a) ∈ s.accesses := by
  obtain ⟨s, hs, hload, hstore⟩ := twoPointers_run (.inl rfl : TwoPointersValue.bufA = _ ∨ _)
  exact ⟨twoPointers_new (.inl rfl), by decide, s, hs, _, hload, hstore⟩

/-- With a buffer for each, they are in a run and do not meet. -/
theorem twoPointers_ownBuffers :
    ∃ s, (twoPointers .bufB).Reachable s ∧
      (TwoPointersValue.loadElement, MemoryObject.static .bufA, (0 : Int)) ∈ s.accesses ∧
      (TwoPointersValue.storeElement, MemoryObject.static .bufB, (0 : Int)) ∈ s.accesses ∧
      (MemoryObject.static .bufA, (0 : Int)) ≠ (MemoryObject.static TwoPointersValue.bufB, 0) := by
  obtain ⟨s, hs, hload, hstore⟩ := twoPointers_run (.inr rfl : TwoPointersValue.bufB = _ ∨ _)
  have hcallGraph : CallRecords.NameCallee (fun _ => []) (twoPointers .bufB) :=
    fun _ _ _ h => (by cases h)
  exact ⟨s, hs, hload, hstore, AllocAA.isMemoryAccessIntoDifferentArrays_sound hcallGraph
    (twoPointers_new (.inr rfl)) twoPointers_keptApart (by decide) hs hload hstore⟩

end Noelle
