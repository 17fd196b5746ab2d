import Noelle.MemoryCloningAnalysis.Basic

/-!
# MemoryCloningAnalysis.Users

What the walk over the users of a stack object finds.

The pointers into the object are the object itself and the casts and GEPs of such pointers.
`identifyStoresAndOtherUsers_spec`: where the walk does not return false, the load instructions
are the users of these pointers that load from them, and the non-storing instructions the users
that are neither loads nor stores.
-/

namespace Noelle

open List

/-- The pointers into an object that the walk follows. -/
inductive ObjectFunction.PointsInto {V B : Type} (fn : ObjectFunction V B) (allocation : V) :
    V → Prop where
  | object : PointsInto fn allocation allocation
  | castInst {p v operand : V} : PointsInto fn allocation p → v ∈ fn.users p →
      fn.kind v = .castInst operand → PointsInto fn allocation v
  | getElementPtrInst {p v : V} {ty : AllocatedType} {indices : List (Option Int)} :
      PointsInto fn allocation p → v ∈ fn.users p →
        fn.kind v = .getElementPtrInst ty indices → PointsInto fn allocation v

namespace ClonableMemoryObject

variable {F V B : Type} {fn : ObjectFunction V B} {allocation : V}

/-! ## The classes of users -/

def isCastOrGEP (fn : ObjectFunction V B) (user : V) : Bool :=
  match fn.kind user with
  | .castInst _ | .getElementPtrInst _ _ => true
  | _ => false

/-- The user of `i` loads from it: a load, or a call of `llvm.memcpy` with it as the source. -/
def isLoadOf [DecidableEq V] (fn : ObjectFunction V B) (i user : V) : Bool :=
  match fn.kind user with
  | .loadInst => true
  | .callInst call =>
      !call.isLifetimeStartOrEnd && !isMemCpyDestination i call && isMemCpySource i call
  | _ => false

/-- The user of `i` is taken for a store to it: a store, or a call of `llvm.memcpy` with it as the
destination.  Which operand of the store `i` is, is not looked at. -/
def isStoringUserOf [DecidableEq V] (fn : ObjectFunction V B) (i user : V) : Bool :=
  match fn.kind user with
  | .storeInst _ => true
  | .callInst call => !call.isLifetimeStartOrEnd && isMemCpyDestination i call
  | _ => false

/-- The user of `i` neither loads from it nor stores: any other call or instruction. -/
def isNonStoringUserOf [DecidableEq V] (fn : ObjectFunction V B) (i user : V) : Bool :=
  match fn.kind user with
  | .callInst call =>
      !call.isLifetimeStartOrEnd && !isMemCpyDestination i call && !isMemCpySource i call
  | .allocaInst | .invokeInst | .otherInstruction => true
  | _ => false

theorem pointsInto_of_isCastOrGEP {p v : V} (hp : fn.PointsInto allocation p) (hv : v ∈ fn.users p)
    (h : isCastOrGEP fn v = true) : fn.PointsInto allocation v := by
  unfold isCastOrGEP at h
  cases hk : fn.kind v with
  | castInst operand => exact .castInst hp hv hk
  | getElementPtrInst ty indices => exact .getElementPtrInst hp hv hk
  | _ => simp [hk] at h

theorem isInstruction_of_isLoadOf [DecidableEq V] {p v : V} (h : isLoadOf fn p v = true) :
    fn.isInstruction v = true := by
  unfold isLoadOf at h
  unfold ObjectFunction.isInstruction
  cases hk : fn.kind v <;> simp_all

theorem isInstruction_of_isNonStoringUserOf [DecidableEq V] {p v : V} (h : isNonStoringUserOf fn p v = true) :
    fn.isInstruction v = true := by
  unfold isNonStoringUserOf at h
  unfold ObjectFunction.isInstruction
  cases hk : fn.kind v <;> simp_all

/-! ## One user -/

section

variable [DecidableEq V] [DecidableEq B] {loop : LoopStructure F B} {DT : DominatorForest B}

/-- What visiting users of `i` adds to the walk. -/
structure Visited (fn : ObjectFunction V B) (i : V) (users : List V) (s s' : UserWalk V) : Prop where
  notReturned : s.returnedFalse = false
  queue : ∀ v, v ∈ s'.allocationUses ↔
    v ∈ s.allocationUses ∨ (v ∈ users ∧ isCastOrGEP fn v = true)
  cast : ∀ v, v ∈ s'.found.castsAndGEPs ↔
    v ∈ s.found.castsAndGEPs ∨ (v ∈ users ∧ isCastOrGEP fn v = true)
  storing : ∀ v, v ∈ s'.found.storingInstructions ↔
    v ∈ s.found.storingInstructions ∨ (v ∈ users ∧ isStoringUserOf fn i v = true)
  load : ∀ v, v ∈ s'.found.loadInstructions ↔
    v ∈ s.found.loadInstructions ∨ (v ∈ users ∧ isLoadOf fn i v = true)
  nonStoring : ∀ v, v ∈ s'.found.nonStoringInstructions ↔
    v ∈ s.found.nonStoringInstructions ∨ (v ∈ users ∧ isNonStoringUserOf fn i v = true)

/-- An accepted user changes nothing in the walk. -/
theorem checkUser_spec {user : V} {s s' : UserWalk V} (h : checkUser fn loop DT user s = some s')
    (hreturned : s'.returnedFalse = false) : s' = s := by
  obtain ⟨isBad, _, rfl⟩ := Option.map_eq_some_iff.mp h
  split at hreturned
  · exact absurd hreturned nofun
  · rename_i hbad
    split at hreturned
    · exact absurd hreturned nofun
    · rename_i hinvoke
      rw [if_neg hbad, if_neg hinvoke]

/-- An accepted user is visited. -/
theorem visitUser_spec {i user : V} {s s' : UserWalk V}
    (h : visitUser fn loop DT i s user = some s') (hreturned : s'.returnedFalse = false) :
    Visited fn i [user] s s' := by
  unfold visitUser at h
  split at h
  · rename_i hs
    cases h
    rw [hs] at hreturned
    exact absurd hreturned nofun
  · rename_i hs
    have hs : s.returnedFalse = false := by simpa using hs
    cases hk : fn.kind user with
    | allocaInst | invokeInst | otherInstruction | storeInst pointerOperand | loadInst =>
        rw [hk] at h
        obtain rfl := checkUser_spec h hreturned
        refine ⟨hs, fun v => ?_, fun v => ?_, fun v => ?_, fun v => ?_, fun v => ?_⟩ <;>
          by_cases hv : v = user <;>
            simp [isCastOrGEP, isStoringUserOf, isLoadOf, isNonStoringUserOf, hv, hk]
    | castInst operand | getElementPtrInst ty indices =>
        rw [hk] at h
        cases h
        refine ⟨hs, fun v => ?_, fun v => ?_, fun v => ?_, fun v => ?_, fun v => ?_⟩ <;>
          by_cases hv : v = user <;>
            simp [isCastOrGEP, isStoringUserOf, isLoadOf, isNonStoringUserOf, hv, hk]
    | noInstruction =>
        rw [hk] at h
        cases h
        exact absurd hreturned nofun
    | callInst call =>
        rw [hk] at h
        by_cases hlifetime : call.isLifetimeStartOrEnd = true
        · simp only [hlifetime, if_true] at h
          cases h
          refine ⟨hs, fun v => ?_, fun v => ?_, fun v => ?_, fun v => ?_, fun v => ?_⟩ <;>
            by_cases hv : v = user <;>
              simp [isCastOrGEP, isStoringUserOf, isLoadOf, isNonStoringUserOf, hv, hk, hlifetime]
        · simp only [hlifetime] at h
          obtain rfl := checkUser_spec h hreturned
          refine ⟨hs, fun v => ?_, fun v => ?_, fun v => ?_, fun v => ?_, fun v => ?_⟩ <;>
            by_cases hv : v = user <;>
              cases hdst : isMemCpyDestination i call <;> cases hsrc : isMemCpySource i call <;>
                simp [isCastOrGEP, isStoringUserOf, isLoadOf, isNonStoringUserOf, addCall, hv, hk, hlifetime, hdst, hsrc]

/-- The accepted users are all visited. -/
theorem visitUsers_spec {i : V} : ∀ {users : List V} {s s' : UserWalk V},
    users.foldlM (visitUser fn loop DT i) s = some s' → s'.returnedFalse = false →
      Visited fn i users s s'
  | [], s, s', h, hreturned => by
      cases h
      refine ⟨hreturned, fun v => ?_, fun v => ?_, fun v => ?_, fun v => ?_, fun v => ?_⟩ <;> simp
  | user :: users, s, s', h, hreturned => by
      rw [foldlM_cons] at h
      obtain ⟨s₁, h₁, h₂⟩ := Option.bind_eq_some_iff.mp h
      have hrest := visitUsers_spec h₂ hreturned
      have hfirst := visitUser_spec h₁ hrest.notReturned
      refine ⟨hfirst.notReturned, fun v => ?_, fun v => ?_, fun v => ?_, fun v => ?_, fun v => ?_⟩
      · rw [hrest.queue, hfirst.queue, mem_singleton, mem_cons]
        tauto
      · rw [hrest.cast, hfirst.cast, mem_singleton, mem_cons]
        tauto
      · rw [hrest.storing, hfirst.storing, mem_singleton, mem_cons]
        tauto
      · rw [hrest.load, hfirst.load, mem_singleton, mem_cons]
        tauto
      · rw [hrest.nonStoring, hfirst.nonStoring, mem_singleton, mem_cons]
        tauto

end

/-! ## The walk -/

/-- The walk between two pointers: the users of the pointers in `done` have been visited. -/
structure Walked [DecidableEq V] (fn : ObjectFunction V B) (allocation : V) (done : V → Prop) (s : UserWalk V) :
    Prop where
  pointsInto : ∀ p, p ∈ s.allocationUses ∨ done p → fn.PointsInto allocation p
  object : allocation ∈ s.allocationUses ∨ done allocation
  closed : ∀ p, done p → ∀ v ∈ fn.users p, isCastOrGEP fn v = true → v ∈ s.allocationUses ∨ done v
  cast : ∀ v, v ∈ s.found.castsAndGEPs ↔ ∃ p, done p ∧ v ∈ fn.users p ∧ isCastOrGEP fn v = true
  storing : ∀ v, v ∈ s.found.storingInstructions ↔
    ∃ p, done p ∧ v ∈ fn.users p ∧ isStoringUserOf fn p v = true
  load : ∀ v, v ∈ s.found.loadInstructions ↔
    ∃ p, done p ∧ v ∈ fn.users p ∧ isLoadOf fn p v = true
  nonStoring : ∀ v, v ∈ s.found.nonStoringInstructions ↔
    ∃ p, done p ∧ v ∈ fn.users p ∧ isNonStoringUserOf fn p v = true

theorem exists_done_or {done : V → Prop} {Q : V → Prop} {i : V} :
    (∃ p, (done p ∨ p = i) ∧ Q p) ↔ (∃ p, done p ∧ Q p) ∨ Q i := by
  constructor
  · rintro ⟨p, hp | rfl, hQ⟩
    · exact .inl ⟨p, hp, hQ⟩
    · exact .inr hQ
  · rintro (⟨p, hp, hQ⟩ | hQ)
    · exact ⟨p, .inl hp, hQ⟩
    · exact ⟨i, .inr rfl, hQ⟩

variable [DecidableEq V]

theorem Walked.done_iff {done : V → Prop} {s : UserWalk V} (h : Walked fn allocation done s)
    (hqueue : s.allocationUses = []) (p : V) : done p ↔ fn.PointsInto allocation p := by
  have hnot : ∀ v, v ∉ s.allocationUses := by simp [hqueue]
  refine ⟨fun hp => h.pointsInto p (.inr hp), fun hp => ?_⟩
  induction hp with
  | object => exact h.object.resolve_left (hnot _)
  | castInst _ hv hk ih =>
      exact (h.closed _ ih _ hv (by simp [isCastOrGEP, hk])).resolve_left (hnot _)
  | getElementPtrInst _ hv hk ih =>
      exact (h.closed _ ih _ hv (by simp [isCastOrGEP, hk])).resolve_left (hnot _)

variable [DecidableEq B] {loop : LoopStructure F B} {DT : DominatorForest B}

/-- One more pointer has all its users visited. -/
theorem Walked.step {done : V → Prop} {s s' : UserWalk V} (h : Walked fn allocation done s)
    (hstep : visitUsers fn loop DT s = some s') (hreturned : s'.returnedFalse = false) :
    ∃ i, Walked fn allocation (fun p => done p ∨ p = i) s' := by
  unfold visitUsers at hstep
  split at hstep
  · exact absurd hstep nofun
  · rename_i i queue hqueue
    have hv := visitUsers_spec hstep hreturned
    have hi : fn.PointsInto allocation i := h.pointsInto i (.inl (by simp [hqueue]))
    have hsplit : ∀ p, p ∈ s.allocationUses ↔ p = i ∨ p ∈ queue := fun p => by
      rw [hqueue, mem_cons]
    refine ⟨i, ⟨fun p hp => ?_, ?_, fun p hp v hvp hcast => ?_, fun v => ?_, fun v => ?_,
      fun v => ?_, fun v => ?_⟩⟩
    · rcases hp with hp | hp | rfl
      · rcases (hv.queue p).mp hp with hp | ⟨hp, hcast⟩
        · exact h.pointsInto p (.inl ((hsplit p).mpr (.inr hp)))
        · exact pointsInto_of_isCastOrGEP hi hp hcast
      · exact h.pointsInto p (.inr hp)
      · exact hi
    · have hobject := h.object
      rw [hsplit] at hobject
      rw [hv.queue]
      tauto
    · rw [hv.queue]
      rcases hp with hp | rfl
      · have hclosed := h.closed p hp v hvp hcast
        rw [hsplit] at hclosed
        tauto
      · exact .inl (.inr ⟨hvp, hcast⟩)
    · rw [hv.cast, exists_done_or]
      exact or_congr_left (h.cast v)
    · rw [hv.storing, exists_done_or]
      exact or_congr_left (h.storing v)
    · rw [hv.load, exists_done_or]
      exact or_congr_left (h.load v)
    · rw [hv.nonStoring, exists_done_or]
      exact or_congr_left (h.nonStoring v)

/-- Every pointer into the object has all its users visited. -/
theorem identifyStoresAndOtherUsers_walked {fuel : Nat} {s : UserWalk V}
    (h : identifyStoresAndOtherUsers fn loop DT allocation fuel = some s)
    (hreturned : s.returnedFalse = false) : Walked fn allocation (fn.PointsInto allocation) s := by
  let I := fun s : UserWalk V => s.returnedFalse = false → ∃ done, Walked fn allocation done s
  have hstart : I { allocationUses := [allocation] } := fun _ => by
    refine ⟨fun _ => False, ⟨fun p hp => ?_, .inl (.head _), nofun, ?_, ?_, ?_, ?_⟩⟩
    · obtain rfl : p = allocation := by simpa using hp
      exact .object
    all_goals simp
  have hend : I s ∧ _ := loopM_preserves I (fun s s' hI hcond hstep hs' => by
    have hs : s.returnedFalse = false := by
      cases hr : s.returnedFalse with
      | false => rfl
      | true => simp [hr] at hcond
    obtain ⟨done, hdone⟩ := hI hs
    obtain ⟨i, hi⟩ := hdone.step hstep hs'
    exact ⟨_, hi⟩) h hstart
  obtain ⟨done, hdone⟩ := hend.1 hreturned
  have hqueue : s.allocationUses = [] := by simpa [hreturned] using hend.2
  obtain rfl : done = fn.PointsInto allocation := funext fun p => propext (hdone.done_iff hqueue p)
  exact hdone

/-- **What the walk finds**: the users of the pointers into the object, by their class. -/
theorem identifyStoresAndOtherUsers_spec {fuel : Nat} {s : UserWalk V}
    (h : identifyStoresAndOtherUsers fn loop DT allocation fuel = some s)
    (hreturned : s.returnedFalse = false) :
    (∀ v, v ∈ s.found.loadInstructions ↔
      ∃ p, fn.PointsInto allocation p ∧ v ∈ fn.users p ∧ isLoadOf fn p v = true) ∧
    ∀ v, v ∈ s.found.nonStoringInstructions ↔
      ∃ p, fn.PointsInto allocation p ∧ v ∈ fn.users p ∧ isNonStoringUserOf fn p v = true :=
  have hwalked := identifyStoresAndOtherUsers_walked h hreturned
  ⟨hwalked.load, hwalked.nonStoring⟩

end ClonableMemoryObject

end Noelle
