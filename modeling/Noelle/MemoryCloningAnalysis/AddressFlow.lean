import Noelle.MemoryCloningAnalysis.Clonable

/-!
# MemoryCloningAnalysis.AddressFlow

Where the address of a stack object goes, and which of its users
`identifyStoresAndOtherUsers` accounts for.

The walk follows casts and GEPs.  A PHI or a select of a pointer into the object is catalogued,
but its own users are not looked at.  A store that uses such a pointer is catalogued as a store
to the object without a look at the operand: it may store the address itself.
-/

namespace Noelle

variable {F V B : Type}

/-- How instructions pass on the addresses that they are given. -/
structure AddressFlow (fn : ObjectFunction V B) where
  /-- The value of the second may be the one of the first: a PHI or a select of it, a load of
  where it was stored, a call that it was passed to. -/
  handsOn : V → V → Prop
  /-- `StoreInst::getValueOperand`. -/
  valueOperand : V → Option V
  /-- The instructions of other classes that read, write or publish what they use: atomic
  operations, returns. -/
  otherAccess : V → Prop
  valueOperand_mem : ∀ v, ∀ p ∈ valueOperand v, v ∈ fn.users p

namespace AddressFlow

variable {fn : ObjectFunction V B} (flow : AddressFlow fn) (allocation : V)

/-- The values that may be pointers into the object. -/
inductive MayPointInto : V → Prop where
  | object : MayPointInto allocation
  | castInst {p v operand : V} : MayPointInto p → v ∈ fn.users p → fn.kind v = .castInst operand →
      MayPointInto v
  | getElementPtrInst {p v : V} {ty : AllocatedType} {indices : List (Option Int)} :
      MayPointInto p → v ∈ fn.users p → fn.kind v = .getElementPtrInst ty indices → MayPointInto v
  | handedOn {p v : V} : MayPointInto p → flow.handsOn p v → MayPointInto v

/-- The instruction may read or write through an address that it uses, or publish it. -/
def Accesses (v : V) : Prop :=
  match fn.kind v with
  | .storeInst _ | .loadInst | .invokeInst => True
  | .callInst call => call.isLifetimeStartOrEnd = false
  | .otherInstruction => flow.otherAccess v
  | .allocaInst | .castInst _ | .getElementPtrInst _ _ | .noInstruction => False

/-- The instruction stores the address of the object somewhere. -/
def StoresAddress (v : V) : Prop :=
  (∃ pointerOperand, fn.kind v = .storeInst pointerOperand) ∧
    ∃ p ∈ flow.valueOperand v, flow.MayPointInto allocation p

end AddressFlow

namespace ClonableMemoryObject

variable {fn : ObjectFunction V B} {flow : AddressFlow fn} {allocation p v : V}

section

variable [DecidableEq V]

theorem class_of_accesses (h : flow.Accesses v) (p : V) :
    isStoringUserOf fn p v = true ∨ isLoadOf fn p v = true ∨ isNonStoringUserOf fn p v = true := by
  unfold AddressFlow.Accesses at h
  unfold isStoringUserOf isLoadOf isNonStoringUserOf
  cases hk : fn.kind v with
  | storeInst pointerOperand => exact .inl rfl
  | loadInst => exact .inr (.inl rfl)
  | invokeInst | otherInstruction => exact .inr (.inr rfl)
  | callInst call =>
      rw [hk] at h
      dsimp only at h
      cases hdst : isMemCpyDestination p call <;> cases hsrc : isMemCpySource p call <;>
        simp [h, hdst, hsrc]
  | allocaInst | castInst operand | getElementPtrInst ty indices | noInstruction =>
      rw [hk] at h
      exact h.elim

/-- The instructions that the walk has catalogued. -/
def Catalogued (found : ObjectUsers V) (v : V) : Prop :=
  v ∈ found.storingInstructions ∨ v ∈ found.loadInstructions ∨ v ∈ found.nonStoringInstructions ∨
    v ∈ found.castsAndGEPs

instance (found : ObjectUsers V) (v : V) : Decidable (Catalogued found v) :=
  inferInstanceAs (Decidable (_ ∨ _))

variable {s : UserWalk V}

theorem Walked.catalogued (h : Walked fn allocation (fn.PointsInto allocation) s)
    (hp : fn.PointsInto allocation p) (hv : v ∈ fn.users p) (haccess : flow.Accesses v) :
    Catalogued s.found v := by
  rcases class_of_accesses haccess p with hstore | hload | hother
  · exact .inl ((h.storing v).mpr ⟨p, hp, hv, hstore⟩)
  · exact .inr (.inl ((h.load v).mpr ⟨p, hp, hv, hload⟩))
  · exact .inr (.inr (.inl ((h.nonStoring v).mpr ⟨p, hp, hv, hother⟩)))

theorem Walked.exists_user (h : Walked fn allocation (fn.PointsInto allocation) s)
    (hv : Catalogued s.found v) : ∃ p, fn.PointsInto allocation p ∧ v ∈ fn.users p := by
  rcases hv with hv | hv | hv | hv
  · obtain ⟨p, hp, hv, _⟩ := (h.storing v).mp hv
    exact ⟨p, hp, hv⟩
  · obtain ⟨p, hp, hv, _⟩ := (h.load v).mp hv
    exact ⟨p, hp, hv⟩
  · obtain ⟨p, hp, hv, _⟩ := (h.nonStoring v).mp hv
    exact ⟨p, hp, hv⟩
  · obtain ⟨p, hp, hv, _⟩ := (h.cast v).mp hv
    exact ⟨p, hp, hv⟩

end

/-! ## What is accounted for -/

variable [DecidableEq V] [DecidableEq B] {loop : LoopStructure F B} {DT : DominatorForest B}

/-- The catalogue of the users of an object is complete, and what it lists as a store is no store
of the address. -/
structure AccountsForUsers (flow : AddressFlow fn) (loop : LoopStructure F B) (allocation : V)
    (found : ObjectUsers V) : Prop where
  catalogued : ∀ p, flow.MayPointInto allocation p → ∀ v ∈ fn.users p,
    fn.isIncluded loop v = true → flow.Accesses v → Catalogued found v
  not_storing : ∀ v, flow.StoresAddress allocation v → v ∉ found.storingInstructions

/-- The users in the loop of a pointer that is no chain of casts and GEPs also use a pointer that
is one, and no store of the address uses such a pointer. -/
structure UsersInReach (flow : AddressFlow fn) (loop : LoopStructure F B) (allocation : V) : Prop where
  reached : ∀ p, flow.MayPointInto allocation p → ¬ fn.PointsInto allocation p →
    ∀ v ∈ fn.users p, fn.isIncluded loop v = true → flow.Accesses v →
      ∃ p', fn.PointsInto allocation p' ∧ v ∈ fn.users p'
  stores : ∀ v, flow.StoresAddress allocation v → ∀ p, fn.PointsInto allocation p → v ∉ fn.users p

/-- **The users of a stack object**: where the walk returns true, it accounts for all users if
and only if it can reach them through casts and GEPs and meets no store of the address. -/
theorem identifyStoresAndOtherUsers_accountsForUsers_iff {fuel : Nat} {s : UserWalk V}
    (h : identifyStoresAndOtherUsers fn loop DT allocation fuel = some s)
    (hreturned : s.returnedFalse = false) (flow : AddressFlow fn) :
    AccountsForUsers flow loop allocation s.found ↔ UsersInReach flow loop allocation := by
  have hwalked := identifyStoresAndOtherUsers_walked h hreturned
  constructor
  · intro hacc
    refine ⟨fun p hp _ v hv hin haccess => ?_, fun v hstores p hp hv => ?_⟩
    · exact hwalked.exists_user (hacc.catalogued p hp v hv hin haccess)
    · obtain ⟨⟨pointerOperand, hk⟩, _⟩ := id hstores
      refine hacc.not_storing v hstores ((hwalked.storing v).mpr ⟨p, hp, hv, ?_⟩)
      rw [isStoringUserOf, hk]
  · intro hreach
    refine ⟨fun p hp v hv hin haccess => ?_, fun v hstores hv => ?_⟩
    · by_cases hpoints : fn.PointsInto allocation p
      · exact hwalked.catalogued hpoints hv haccess
      · obtain ⟨p', hp', hv'⟩ := hreach.reached p hp hpoints v hv hin haccess
        exact hwalked.catalogued hp' hv' haccess
    · obtain ⟨p, hp, hv, _⟩ := (hwalked.storing v).mp hv
      exact hreach.stores v hstores p hp hv

section Escaping

/-- `int n; p = phi(&n, p); *p = 1; q = &n;` in a loop: the PHI `1` of the object `0`, the store `2`
of `5` through it and the store `3` of the address to the global `4`. -/
def escaping : ObjectFunction (Fin 6) Bool where
  kind v :=
    if v.val = 0 then .allocaInst
    else if v.val = 1 then .otherInstruction
    else if v.val = 2 then .storeInst 1
    else if v.val = 3 then .storeInst 4
    else .noInstruction
  users v :=
    if v.val = 0 then [1, 3]
    else if v.val = 1 then [2, 1]
    else if v.val = 4 then [3]
    else if v.val = 5 then [2]
    else []
  getParent v := decide (v.val = 1 ∨ v.val = 2 ∨ v.val = 3)
  instructions inLoop := if inLoop then [1, 2, 3] else [0]
  constantInt _ := none

def escapingFlow : AddressFlow escaping where
  handsOn p v := p = 0 ∧ v = 1
  valueOperand v := if v.val = 2 then some 5 else if v.val = 3 then some 0 else none
  otherAccess _ := False
  valueOperand_mem := by decide

theorem identifyStoresAndOtherUsers_accountsForUsers_iff_escaping :
    ∃ s, identifyStoresAndOtherUsers escaping counterLoop counterDominators 0 2 = some s ∧
      s.returnedFalse = false ∧
      (AccountsForUsers escapingFlow counterLoop 0 s.found ↔ UsersInReach escapingFlow counterLoop 0) := by
  have h : (identifyStoresAndOtherUsers escaping counterLoop counterDominators 0 2).map
      (·.returnedFalse) = some false := by decide
  obtain ⟨s, hs, hreturned⟩ := Option.map_eq_some_iff.mp h
  exact ⟨s, hs, hreturned, identifyStoresAndOtherUsers_accountsForUsers_iff hs hreturned escapingFlow⟩

/-- The store through the PHI is not catalogued, and the store of the address is taken for a store
to the object. -/
theorem identifyStoresAndOtherUsers_escaping :
    ∃ s, identifyStoresAndOtherUsers escaping counterLoop counterDominators 0 2 = some s ∧
      s.returnedFalse = false ∧ escapingFlow.StoresAddress 0 3 ∧ 3 ∈ s.found.storingInstructions ∧
      escapingFlow.Accesses 2 ∧ ¬ Catalogued s.found 2 ∧
      ¬ AccountsForUsers escapingFlow counterLoop 0 s.found := by
  have h : (identifyStoresAndOtherUsers escaping counterLoop counterDominators 0 2).map (fun s =>
      (s.returnedFalse, decide (3 ∈ s.found.storingInstructions),
        decide (Catalogued s.found 2))) =
      some (false, true, false) := by
    decide
  obtain ⟨s, hs, hflags⟩ := Option.map_eq_some_iff.mp h
  have hreturned : s.returnedFalse = false := congrArg Prod.fst hflags
  have hstores : escapingFlow.StoresAddress 0 3 := ⟨⟨4, rfl⟩, 0, rfl, .object⟩
  have hmem := of_decide_eq_true (congrArg (·.2.1) hflags)
  have hnot : ¬ Catalogued s.found 2 := of_decide_eq_false (congrArg (·.2.2) hflags)
  exact ⟨s, hs, hreturned, hstores, hmem, trivial, hnot, fun hacc => hacc.not_storing 3 hstores hmem⟩

end Escaping

end ClonableMemoryObject

end Noelle
