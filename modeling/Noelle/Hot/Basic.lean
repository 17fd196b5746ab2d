import Noelle.CallGraph.Basic
import Noelle.Lib.Search

/-!
# Hot.Basic

`Hot`: the totals of functions and call sites that the profiler computes from the invocations of basic
blocks.

Counters are `uint64_t`.  A quotient of two counters that the source takes as `double` is a
parameter.  A computation whose assertion fails has no result, and the recursion over callees has
fuel: one unit for each function is enough.
-/

namespace Noelle

/-- A module with what the profiler reads of it.  An instruction that calls a function uses it. -/
structure HotModule (F I B : Type) extends IRModule F I where
  getParent : I → B
  getEntryBlock : F → B
  /-- `callbr` names no function, but is a `CallBase`. -/
  isCallBrInst : I → Bool
  nodup_instructions : ∀ f, (instructions f).Nodup
  use_of_call : ∀ f ∈ functions, ∀ i ∈ instructions f, ∀ callee ∈ (kind i).getCalledFunction,
    ∃ use ∈ uses callee, use.user = some i

/-- Why there is no result. -/
inductive HotStop
  | assertionFails
  | outOfFuel
  deriving DecidableEq

abbrev FunctionTotals (F : Type) := AList fun _ : F => BitVec 64

abbrev InstructionTotals (I : Type) := AList fun _ : I => BitVec 64

namespace HotModule

variable {F I B : Type} [DecidableEq F]
variable (M : HotModule F I B) (bbInvocations : B → BitVec 64)

/-! ## Invocations -/

/-- `Function::empty`. -/
def empty (f : F) : Bool := (M.instructions f).isEmpty

/-- `isa<CallBase>`. -/
def isCallBase (i : I) : Bool :=
  match M.kind i with
  | .callInst _ | .invokeInst _ => true
  | .otherInst => M.isCallBrInst i

/-- `CallBase::getCalledFunction`. -/
def getCalledFunction (i : I) : Option F := (M.kind i).getCalledFunction

/-- `Hot::getInvocations`, of a function that has a body. -/
def functionInvocations (f : F) : BitVec 64 := bbInvocations (M.getEntryBlock f)

/-- `Hot::hasBeenExecuted`, of a function. -/
def hasFunctionBeenExecuted (f : F) : Bool := decide (M.functionInvocations bbInvocations f ≠ 0)

/-- `Hot::getInvocations`, of an instruction: a call may end the program, so it has no more
invocations than its callee. -/
def getInvocations (i : I) : BitVec 64 :=
  let inv := bbInvocations (M.getParent i)
  match M.getCalledFunction i with
  | none => inv
  | some callee =>
      if M.empty callee then inv
      else
        let calleeInv := M.functionInvocations bbInvocations callee
        if calleeInv < inv then calleeInv else inv

/-- `Hot::hasBeenExecuted`, of an instruction. -/
def hasBeenExecuted (i : I) : Bool := decide (M.getInvocations bbInvocations i ≠ 0)

/-! ## The totals of functions -/

/-- The variables of `Hot::computeTotalInstructions` while it goes over the instructions. -/
structure TotalState (F : Type) where
  evaluationStack : PtrSet F
  functionTotalInstructions : FunctionTotals F
  t : BitVec 64

variable (quotient : BitVec 64 → BitVec 64 → BitVec 64)

/-- `calleeTotalInsts`, for a callee with a body. -/
def calleeTotalInsts (computeTotal : F → PtrSet F × FunctionTotals F →
      Except HotStop (PtrSet F × FunctionTotals F)) (callee : F) (s : TotalState F) :
    Except HotStop (BitVec 64 × PtrSet F × FunctionTotals F) :=
  match s.functionTotalInstructions.lookup callee with
  | some total => .ok (total, s.evaluationStack, s.functionTotalInstructions)
  | none =>
      if callee ∈ s.evaluationStack then .ok (1, s.evaluationStack, s.functionTotalInstructions)
      else do
        let (evaluationStack, totals) ←
          computeTotal callee (s.evaluationStack, s.functionTotalInstructions)
        match totals.lookup callee with
        | some total => .ok (total, evaluationStack, totals)
        | none => .error .assertionFails

/-- The body of the loop over the instructions. -/
def countInst (computeTotal : F → PtrSet F × FunctionTotals F →
      Except HotStop (PtrSet F × FunctionTotals F)) (s : TotalState F) (inst : I) :
    Except HotStop (TotalState F) :=
  if !M.hasBeenExecuted bbInvocations inst then .ok s
  else
    let instructionInvocations := M.getInvocations bbInvocations inst
    let t := s.t + instructionInvocations
    match M.getCalledFunction inst with
    | none => .ok { s with t }
    | some callee =>
        if M.empty callee then .ok { s with t }
        else if !M.hasFunctionBeenExecuted bbInvocations callee then .error .assertionFails
        else if M.functionInvocations bbInvocations callee < instructionInvocations then
          .error .assertionFails
        else do
          let (total, evaluationStack, totals) ← calleeTotalInsts computeTotal callee s
          if total = 0 then .error .assertionFails
          else
            return ⟨evaluationStack, totals,
              t + quotient total (M.functionInvocations bbInvocations callee) *
                instructionInvocations⟩

/-- `Hot::computeTotalInstructions`, of a function. -/
def computeTotalInstructions : Nat → F → PtrSet F × FunctionTotals F →
    Except HotStop (PtrSet F × FunctionTotals F)
  | 0, _, _ => .error .outOfFuel
  | fuel + 1, f, (evaluationStack, totals) =>
      let evaluationStack := evaluationStack.insert f
      if !M.hasFunctionBeenExecuted bbInvocations f then .ok (evaluationStack, totals.insert f 0)
      else do
        let s ← (M.instructions f).foldlM
          (M.countInst bbInvocations quotient (computeTotalInstructions fuel))
          ⟨evaluationStack, totals, 0⟩
        return (s.evaluationStack, s.functionTotalInstructions.insert f s.t)

/-- The first loop of `Hot::computeTotalInstructions`, of a module. -/
def computeFunctionTotals : Except HotStop (FunctionTotals F) :=
  M.functions.elems.foldlM (fun totals f =>
    if M.empty f then .ok totals
    else do
      let (_, totals) ←
        M.computeTotalInstructions bbInvocations quotient M.functions.size f (∅, totals)
      return totals) ∅

/-! ## The recursion over callees ends -/

/-- The computation does not run out of fuel, and what it returns satisfies `P`. -/
def Returns {σ : Type} (P : σ → Prop) : Except HotStop σ → Prop
  | .ok s => P s
  | .error e => e ≠ .outOfFuel

theorem Returns.bind {σ τ : Type} {P : σ → Prop} {Q : τ → Prop} {x : Except HotStop σ}
    {f : σ → Except HotStop τ} (hx : Returns P x) (hf : ∀ s, P s → Returns Q (f s)) :
    Returns Q (x >>= f) := by
  cases x with
  | error e => exact hx
  | ok s => exact hf s hx

theorem Returns.assertionFails {σ : Type} (P : σ → Prop) :
    Returns P (.error .assertionFails) := by
  intro h
  cases h

theorem Returns.foldlM {σ α : Type} {P : σ → Prop} {f : σ → α → Except HotStop σ} :
    ∀ {l : List α} {s : σ}, P s → (∀ s, P s → ∀ a ∈ l, Returns P (f s a)) →
      Returns P (l.foldlM f s)
  | [], _, hs, _ => hs
  | a :: l, s, hs, h => by
    rw [List.foldlM_cons]
    refine (h s hs a (.head _)).bind fun s' hs' => ?_
    exact foldlM hs' fun s hs b hb => h s hs b (.tail _ hb)

section Fuel

variable {M} {bbInvocations} {quotient}

/-- The call reads and extends the stack `stack`. -/
def Extends (stack : PtrSet F) (r : PtrSet F × FunctionTotals F) : Prop := ∀ f ∈ stack, f ∈ r.1

variable
  {computeTotal : F → PtrSet F × FunctionTotals F → Except HotStop (PtrSet F × FunctionTotals F)}
  {s : TotalState F}

theorem calleeTotalInsts_returns {callee : F}
    (h : callee ∉ s.evaluationStack →
      Returns (Extends s.evaluationStack)
        (computeTotal callee (s.evaluationStack, s.functionTotalInstructions))) :
    Returns (fun r => Extends s.evaluationStack r.2) (calleeTotalInsts computeTotal callee s) := by
  unfold calleeTotalInsts
  split
  · exact fun f hf => hf
  · split
    · exact fun f hf => hf
    · next hcallee =>
      refine (h hcallee).bind fun r hr => ?_
      cases hlookup : r.2.lookup callee with
      | none => simpa [hlookup] using Returns.assertionFails _
      | some total =>
        simp only [hlookup]
        exact hr

/-- An instruction is counted if its callees can be. -/
theorem countInst_returns {inst : I}
    (h : ∀ callee ∈ M.getCalledFunction inst, callee ∉ s.evaluationStack →
      Returns (Extends s.evaluationStack)
        (computeTotal callee (s.evaluationStack, s.functionTotalInstructions))) :
    Returns (fun s' => ∀ f ∈ s.evaluationStack, f ∈ s'.evaluationStack)
      (M.countInst bbInvocations quotient computeTotal s inst) := by
  unfold countInst
  split
  · exact fun f hf => hf
  · cases hcallee : M.getCalledFunction inst with
    | none => exact fun f hf => hf
    | some callee =>
      simp only
      split
      · exact fun f hf => hf
      · split
        · exact .assertionFails _
        · split
          · exact .assertionFails _
          · refine (calleeTotalInsts_returns (h callee hcallee)).bind fun r hr => ?_
            split
            · exact .assertionFails _
            · exact hr

/-- With fuel for the functions not on the stack the total is computed. -/
theorem computeTotalInstructions_returns {fuel : Nat} : ∀ {f : F} {stack : PtrSet F}
    {totals : FunctionTotals F}, f ∈ M.functions → f ∉ stack →
    unfound M.functions.elems stack ≤ fuel →
    Returns (Extends stack) (M.computeTotalInstructions bbInvocations quotient fuel f (stack, totals)) := by
  induction fuel with
  | zero =>
    intro f stack totals hf hnew hfuel
    exact absurd (unfound_insert_lt hf hnew) (by omega)
  | succ fuel ih =>
    intro f stack totals hf hnew hfuel
    have hlt := unfound_insert_lt hf hnew
    have hinsert : ∀ g ∈ stack, g ∈ stack.insert f := fun g hg => PtrSet.mem_insert.mpr (.inr hg)
    unfold computeTotalInstructions
    split
    · exact hinsert
    · refine Returns.bind (Returns.foldlM
        (P := fun s : TotalState F => ∀ g ∈ stack.insert f, g ∈ s.evaluationStack)
        (fun g hg => hg) fun s hs inst hinst => ?_) fun s hs g hg => hs g (hinsert g hg)
      have hcount : Returns (fun s' => ∀ g ∈ s.evaluationStack, g ∈ s'.evaluationStack)
          (M.countInst bbInvocations quotient
            (M.computeTotalInstructions bbInvocations quotient fuel) s inst) :=
        countInst_returns fun callee hcallee hnew =>
          ih (M.callee_ok f hf inst hinst callee hcallee) hnew
            ((unfound_mono hs).trans (by omega))
      cases hresult : M.countInst bbInvocations quotient
          (M.computeTotalInstructions bbInvocations quotient fuel) s inst with
      | error e => rwa [hresult] at hcount
      | ok s' =>
        rw [hresult] at hcount
        exact fun g hg => hcount g (hs g hg)

theorem computeFunctionTotals_ne_outOfFuel :
    M.computeFunctionTotals bbInvocations quotient ≠ .error .outOfFuel := by
  have h : Returns (fun _ => True) (M.computeFunctionTotals bbInvocations quotient) := by
    refine Returns.foldlM trivial fun totals _ f hf => ?_
    split
    · trivial
    · refine Returns.bind (computeTotalInstructions_returns hf (PtrSet.not_mem_empty f) ?_)
        fun _ _ => trivial
      exact List.length_filter_le _ _
  intro hresult
  rw [hresult] at h
  exact h rfl

end Fuel

/-! ## The totals of call sites -/

section CallSites

variable [DecidableEq I]

/-- `callerOfF`, if the use is one by a `CallBase`. -/
def callUser (use : FunctionUse I) : Option I := use.user.filter M.isCallBase

/-- The variables of the loop over the uses of a function. -/
structure Distribution (I : Type) where
  instructionTotalInstructions : InstructionTotals I
  totalInstsOfFLeftover : BitVec 64
  callerOfF : Option I

/-- The body of the loop over the uses. -/
def distributeUse (totalInstsOfFPerInvocation : BitVec 64) (s : Distribution I)
    (useOfF : FunctionUse I) : Distribution I :=
  match M.callUser useOfF with
  | none => s
  | some callerOfF =>
      let s := { s with callerOfF := some callerOfF }
      if !M.hasBeenExecuted bbInvocations callerOfF then s
      else
        let calleeTotalInstsFraction :=
          totalInstsOfFPerInvocation * M.getInvocations bbInvocations callerOfF
        { s with
          instructionTotalInstructions :=
            s.instructionTotalInstructions.insert callerOfF (calleeTotalInstsFraction + 1)
          totalInstsOfFLeftover := s.totalInstsOfFLeftover - calleeTotalInstsFraction }

/-- `Hot::getTotalInstructions`, of a function. -/
def getFunctionTotal (totals : FunctionTotals F) (f : F) : BitVec 64 := (totals.lookup f).getD 0

/-- `totalInstsOfFPerInvocation`. -/
def perInvocation (totals : FunctionTotals F) (f : F) : BitVec 64 :=
  getFunctionTotal totals f / M.functionInvocations bbInvocations f

def distributeUses (totals : FunctionTotals F) (f : F) (uses : List (FunctionUse I))
    (entries : InstructionTotals I) : Distribution I :=
  uses.foldl (M.distributeUse bbInvocations (M.perInvocation bbInvocations totals f))
    ⟨entries, getFunctionTotal totals f, none⟩

/-- The leftover goes to the last caller. -/
def addLeftover (s : Distribution I) : InstructionTotals I :=
  match s.callerOfF with
  | some callerOfF =>
      if s.totalInstsOfFLeftover > 0 then
        s.instructionTotalInstructions.insert callerOfF
          ((s.instructionTotalInstructions.lookup callerOfF).getD 0 + s.totalInstsOfFLeftover)
      else s.instructionTotalInstructions
  | none => s.instructionTotalInstructions

/-- The body of the second loop of `Hot::computeTotalInstructions`, of a module. -/
def distribute (totals : FunctionTotals F) (entries : InstructionTotals I) (f : F) :
    InstructionTotals I :=
  if M.empty f then entries
  else if !M.hasFunctionBeenExecuted bbInvocations f then entries
  else addLeftover (M.distributeUses bbInvocations totals f (M.uses f) entries)

/-- `Hot::computeTotalInstructions`, of a module: both loops. -/
def computeModuleTotals : Except HotStop (FunctionTotals F × InstructionTotals I) := do
  let totals ← M.computeFunctionTotals bbInvocations quotient
  return (totals, M.functions.elems.foldl (M.distribute bbInvocations totals) ∅)

/-- `Hot::getTotalInstructions`, of an instruction. -/
def getTotalInstructions (entries : InstructionTotals I) (i : I) : BitVec 64 :=
  (entries.lookup i).getD (M.getInvocations bbInvocations i)

end CallSites

end HotModule

end Noelle
