import Noelle.LoopInvariantCodeMotion.Basic

/-!
# LoopInvariantCodeMotion.Invariants

`InvariantManager`: which instructions of a loop are reported invariant.

`LoopStructure::isLoopInvariant` holds of no instruction of the loop, so what is reported is what
the `InvarianceChecker` finds.  It follows the dependences of an instruction recursively; the
recursion ends because the values that are being checked are remembered.
-/

namespace Noelle

namespace InvariantManager

open LoopInvariantCodeMotion

variable {F V B : Type} [DecidableEq V]

/-- The members of `InvarianceChecker` that change. -/
structure InvarianceChecker (V : Type) where
  invariants : PtrSet V := ∅
  notInvariants : PtrSet V := ∅
  dependencyValuesBeingChecked : PtrSet V := ∅

section

variable (ord : IterOrder) (fn : InvariantFunction V B) (l : LoopStructure F B) (ldg : PDG V)

/-- The instructions of `LoopStructure::getInstructions` that are no terminators. -/
def getInstructions : PtrSet V :=
  .ofList (l.bbs.elems.flatMap fun b => fn.code.phis b ++ fn.code.body b)

/-- The instruction is a PHI of the loop. -/
def isPHI (i : V) : Bool := l.bbs.elems.any fun b => decide (i ∈ fn.code.phis b)

/-- Memory allocators and deallocators. -/
def managesMemory (i : MemoryInst) : Bool :=
  PDGGenerator.isAllocator i || PDGGenerator.isReallocator i || PDGGenerator.isDeallocator i

/-- The loop that looks for the one global that all values are loaded from. -/
def loadSameGlobal : List V → Option V → Option V
  | [], singleGlobalLoaded => singleGlobalLoaded
  | incomingValue :: values, singleGlobalLoaded =>
      match fn.loadedGlobal incomingValue with
      | none => none
      | some global =>
          if singleGlobalLoaded = none ∨ singleGlobalLoaded = some global then
            loadSameGlobal values (some global)
          else none

/-- `InvarianceChecker::arePHIIncomingValuesEquivalent`. -/
def arePHIIncomingValuesEquivalent (phi : V) : Bool :=
  let incomingValues := PtrSet.ofList ((fn.code.incoming phi).map (·.2))
  if incomingValues.size = 0 then false
  -- of several values, the first is not all
  else if incomingValues.size = 1 then true
  else (loadSameGlobal fn (ord.visit incomingValues.elems) none).isSome

/-- The checks of `isEvolvingValue` that do not follow dependences. -/
def isKnownToEvolve (st : InvarianceChecker V) (toValue : V) (dep : DGEdge V) : Option Bool :=
  if !isIncluded fn l toValue then some false
  else if fn.inst toValue = .store then some true
  else if managesMemory (fn.inst toValue) then some true
  else if dep.kind.isMemory then some true
  else if isPHI fn l toValue && !arePHIIncomingValuesEquivalent ord fn toValue then some true
  else if toValue ∈ st.invariants then some false
  else if toValue ∈ st.notInvariants then some true
  else none

/-- A PHI is claimed to be invariant while its dependences are checked. -/
def claimPHI (st : InvarianceChecker V) (i : V) : InvarianceChecker V :=
  if isPHI fn l i then { st with invariants := st.invariants.insert i } else st

/-- `InvarianceChecker::isEvolvingValue`. -/
def isEvolvingValue : Nat → Option (InvarianceChecker V) → V → DGEdge V →
    Bool × Option (InvarianceChecker V)
  | fuel + 1, some st, toValue, dep =>
      match isKnownToEvolve ord fn l st toValue dep with
      | some evolves => (evolves, some st)
      | none =>
          let st := claimPHI fn l st toValue
          if toValue ∈ st.dependencyValuesBeingChecked then (true, some st)
          else
            let st := { st with
              dependencyValuesBeingChecked := st.dependencyValuesBeingChecked.insert toValue }
            match (PDG.iterateOverDependencesTo ord ldg toValue dataDependences
              (isEvolvingValue fuel) (some st)).1 with
            | (_, none) => (true, none)
            | (true, some st) => (true, some { st with
                invariants := st.invariants.erase toValue
                notInvariants := st.notInvariants.insert toValue })
            | (false, some st) => (false, some { st with
                invariants := st.invariants.insert toValue })
  | _, _, _, _ => (true, none)

/-- The check of a call to a library function. -/
def callsImpureLibraryFunction : MemoryInst → Bool
  | .call (some callee) _ => callee.empty && !PDGGenerator.isTheLibraryFunctionPure callee
  | _ => false

/-- The body of the loop over the instructions. -/
def checkInvariance (fuel : Nat) (st : InvarianceChecker V) (inst : V) :
    Option (InvarianceChecker V) :=
  if managesMemory (fn.inst inst) then
    some { st with notInvariants := st.notInvariants.insert inst }
  else if isPHI fn l inst && !arePHIIncomingValuesEquivalent ord fn inst then some st
  else if inst ∈ st.invariants then some st
  else if inst ∈ st.notInvariants then some st
  else
    let st := { st with dependencyValuesBeingChecked := PtrSet.insert ∅ inst }
    let st := claimPHI fn l st inst
    match (PDG.iterateOverDependencesTo ord ldg inst dataDependences
      (isEvolvingValue ord fn l ldg fuel) (some st)).1 with
    | (_, none) => none
    | (canEvolve, some st) =>
        if canEvolve || callsImpureLibraryFunction (fn.inst inst) then
          some { st with
            invariants := st.invariants.erase inst
            notInvariants := st.notInvariants.insert inst }
        else some { st with invariants := st.invariants.insert inst }

/-- The invariants that the constructor of `InvariantManager` finds. -/
def findInvariants (fuel : Nat) : Option (PtrSet V) :=
  ((ord.visit (getInstructions fn l).elems).foldlM (checkInvariance ord fn l ldg fuel) {}).map
    InvarianceChecker.invariants

def isLoopInvariant (invariants : PtrSet V) (value : V) : Bool :=
  !isIncluded fn l value || decide (value ∈ invariants)

end

/-! ## The recursion ends -/

section Termination

variable {ord : IterOrder} {fn : InvariantFunction V B} {l : LoopStructure F B} {ldg : PDG V}

theorem mem_getInstructions {i : V} : i ∈ getInstructions fn l ↔ isIncluded fn l i = true := by
  simp [getInstructions, isIncluded, PtrSet.mem_ofList]

variable (fn l) in
/-- The instructions of the loop that are not being checked. -/
def unchecked (st : InvarianceChecker V) : Nat :=
  ((getInstructions fn l).elems.filter fun i =>
    decide (i ∉ st.dependencyValuesBeingChecked)).length

theorem unchecked_le {st st' : InvarianceChecker V}
    (h : ∀ x ∈ st.dependencyValuesBeingChecked, x ∈ st'.dependencyValuesBeingChecked) :
    unchecked fn l st' ≤ unchecked fn l st := by
  refine (List.monotone_filter_right _ fun x hx => ?_).length_le
  simp only [decide_eq_true_eq] at hx ⊢
  exact fun hmem => hx (h x hmem)

theorem unchecked_insert_lt {st : InvarianceChecker V} {i : V} (hi : isIncluded fn l i = true)
    (hnot : i ∉ st.dependencyValuesBeingChecked) :
    unchecked fn l { st with
      dependencyValuesBeingChecked := st.dependencyValuesBeingChecked.insert i } <
      unchecked fn l st := by
  refine length_filter_lt (fun x _ hx => ?_) (mem_getInstructions.mpr hi) (by simpa using hnot)
    (by simp)
  simp only [PtrSet.mem_insert, not_or, decide_eq_true_eq] at hx ⊢
  exact hx.2

/-- The iteration returns if every step does. -/
theorem iterateOverDependencesTo_some {P : InvarianceChecker V → Prop}
    {f : Option (InvarianceChecker V) → V → DGEdge V → Bool × Option (InvarianceChecker V)}
    (hf : ∀ st v e, P st → ∃ b st', f (some st) v e = (b, some st') ∧ P st') {toValue : V}
    {st : InvarianceChecker V} (hst : P st) :
    ∃ b st', (PDG.iterateOverDependencesTo ord ldg toValue dataDependences f (some st)).1 =
      (b, some st') ∧ P st' := by
  have hedges : ∀ (edges : List (DGEdge V)) (st : InvarianceChecker V), P st →
      ∃ b st', PDG.invokePerDependence dataDependences DGEdge.getSrc f edges (some st) =
        (b, some st') ∧ P st' := by
    intro edges
    induction edges with
    | nil => exact fun st hst => ⟨false, st, rfl, hst⟩
    | cons e edges ih =>
      intro st hst
      unfold PDG.invokePerDependence
      split
      · obtain ⟨b, st', heq, hst'⟩ := hf st e.getSrc e hst
        cases b with
        | true => exact ⟨true, st', by simp [heq], hst'⟩
        | false => simpa [heq] using ih st' hst'
      · exact ih st hst
  unfold PDG.iterateOverDependencesTo
  dsimp only
  split
  · exact ⟨false, st, rfl, hst⟩
  · exact hedges _ st hst

theorem isIncluded_of_isKnownToEvolve {st : InvarianceChecker V} {toValue : V} {dep : DGEdge V}
    (h : isKnownToEvolve ord fn l st toValue dep = none) : isIncluded fn l toValue = true := by
  cases hin : isIncluded fn l toValue with
  | true => rfl
  | false => simp [isKnownToEvolve, hin] at h

@[simp] theorem dependencyValuesBeingChecked_claimPHI (st : InvarianceChecker V) (i : V) :
    (claimPHI fn l st i).dependencyValuesBeingChecked = st.dependencyValuesBeingChecked := by
  unfold claimPHI
  split <;> rfl

variable (ord ldg) in
/-- The recursion has an answer if it may be as deep as there are instructions left to check, and
keeps those that are being checked. -/
theorem isEvolvingValue_some : ∀ (fuel : Nat) (st : InvarianceChecker V) (toValue : V)
    (dep : DGEdge V), unchecked fn l st < fuel →
      ∃ b st', isEvolvingValue ord fn l ldg fuel (some st) toValue dep = (b, some st') ∧
        ∀ x ∈ st.dependencyValuesBeingChecked, x ∈ st'.dependencyValuesBeingChecked
  | 0, st, _, _, hfuel => nomatch hfuel
  | fuel + 1, st, toValue, dep, hfuel => by
    unfold isEvolvingValue
    cases hknown : isKnownToEvolve ord fn l st toValue dep with
    | some evolves => exact ⟨evolves, st, rfl, fun _ h => h⟩
    | none =>
    have hin : isIncluded fn l toValue = true := isIncluded_of_isKnownToEvolve hknown
    generalize hst₁ : claimPHI fn l st toValue = st₁
    have hchecked : st₁.dependencyValuesBeingChecked = st.dependencyValuesBeingChecked := by
      rw [← hst₁, dependencyValuesBeingChecked_claimPHI]
    dsimp only
    split
    · exact ⟨true, st₁, rfl, fun x hx => hchecked ▸ hx⟩
    next hnot =>
    have hlt := unchecked_insert_lt hin hnot
    have hle : unchecked fn l st₁ ≤ unchecked fn l st := unchecked_le fun x hx => hchecked ▸ hx
    obtain ⟨b, st', heq, hst'⟩ := @iterateOverDependencesTo_some _ _ ord ldg
      (fun st' => ∀ x ∈ st₁.dependencyValuesBeingChecked.insert toValue,
        x ∈ st'.dependencyValuesBeingChecked)
      (isEvolvingValue ord fn l ldg fuel) (fun st₂ v e hst₂ => by
        have hle₂ : unchecked fn l st₂ ≤ unchecked fn l { st₁ with
            dependencyValuesBeingChecked := st₁.dependencyValuesBeingChecked.insert toValue } :=
          unchecked_le hst₂
        obtain ⟨b, st', heq, hst'⟩ := isEvolvingValue_some fuel st₂ v e (by omega)
        exact ⟨b, st', heq, fun x hx => hst' x (hst₂ x hx)⟩) toValue
      { st₁ with
        dependencyValuesBeingChecked := st₁.dependencyValuesBeingChecked.insert toValue }
      fun x hx => hx
    rw [heq]
    have hkept : ∀ x ∈ st.dependencyValuesBeingChecked, x ∈ st'.dependencyValuesBeingChecked :=
      fun x hx => hst' x (PtrSet.mem_insert.mpr (.inr (hchecked ▸ hx)))
    cases b with
    | true => exact ⟨true, _, rfl, hkept⟩
    | false => exact ⟨false, _, rfl, hkept⟩

theorem checkInvariance_some (ord : IterOrder) (ldg : PDG V) {fuel : Nat}
    (hfuel : (getInstructions fn l).size < fuel) (st : InvarianceChecker V) (inst : V) :
    ∃ st', checkInvariance ord fn l ldg fuel st inst = some st' := by
  have hfuel' : ∀ st : InvarianceChecker V, unchecked fn l st < fuel := fun st =>
    Nat.lt_of_le_of_lt (List.length_filter_le _ _) hfuel
  unfold checkInvariance
  iterate 4
    split
    · exact ⟨_, rfl⟩
  dsimp only
  obtain ⟨b, st', heq, -⟩ := @iterateOverDependencesTo_some _ _ ord ldg (fun _ => True)
    (isEvolvingValue ord fn l ldg fuel) (fun st v e _ => by
      obtain ⟨b, st', heq, -⟩ := isEvolvingValue_some ord ldg fuel st v e (hfuel' st)
      exact ⟨b, st', heq, trivial⟩) inst _ trivial
  rw [heq]
  dsimp only
  split <;> exact ⟨_, rfl⟩

end Termination

end InvariantManager

end Noelle
