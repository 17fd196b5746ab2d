import Noelle.Lib.Loop
import Noelle.Lib.Sharing
import Noelle.Privatizer.Basic

/-!
# Privatizer.HeapToStack

Heap allocations that move to the stack: `Privatizer::getLiveMemorySummary` and
`Privatizer::transformH2S`.

The summary is the largest set of candidates that no `free` splits
(`getLiveMemorySummary_isGreatest`).  The transformation takes the candidates one by one while the
stack can hold them, but removes every `free` of the summary: what it may free has all moved exactly
if the stack could hold it (`transformH2S_keepsInStep_iff`).
-/

namespace Noelle

open PtrSet

structure LiveMemorySummary (V : Type) where
  allocable : PtrSet V
  removable : PtrSet V

namespace PrivatizerFunction

variable {V : Type} [DecidableEq V]

/-! ## The summary -/

section Definitions

variable (ord : IterOrder) (f : PrivatizerFunction V)

/-- The pointees of the operand of a `free`. -/
def mayBeFreed (freeInst : V) : PtrSet (Option V) :=
  match f.inst freeInst with
  | .free argOperand => f.getPointees argOperand
  | _ => ∅

/-- The checks of the first loop. -/
def isEligible (heapAllocInst : V) : Bool :=
  (f.inst heapAllocInst).isFixedSizedHeapAllocation && !f.isIncludedInACycle heapAllocInst &&
    !(f.mayEscape heapAllocInst || f.isDestOfMemcpy heapAllocInst)

/-- The first loop. -/
def eligible : PtrSet V := (f.mallocInsts.insertAll f.callocInsts.elems).filter f.isEligible

def mayFreeNonAllocable (allocable : PtrSet V) (mayBeFreed : PtrSet (Option V)) : Bool :=
  mayBeFreed.elems.any fun memobj =>
    match memobj with
    | none => true
    | some heapAlloc => !(f.inst heapAlloc).isCallBase || !decide (heapAlloc ∈ allocable)

/-- The variables of the loop. -/
structure Retraction (V : Type) where
  allocable : PtrSet V
  fixedPoint : Bool

/-- The body of the innermost loop. -/
def retract (s : Retraction V) (allocation : Option V) : Retraction V :=
  match allocation with
  | none => s
  | some heapAllocInst =>
      if (f.inst heapAllocInst).isCallBase = true ∧ heapAllocInst ∈ s.allocable then
        ⟨s.allocable.erase heapAllocInst, false⟩
      else s

/-- The body of the loop over the `free`s. -/
def retractFreed (s : Retraction V) (freeInst : V) : Retraction V :=
  if f.mayFreeNonAllocable s.allocable (f.mayBeFreed freeInst) then
    (ord.visit (f.mayBeFreed freeInst).elems).foldl f.retract s
  else s

/-- The body of the `while` loop. -/
def retractionRound (s : Retraction V) : Retraction V :=
  (ord.visit f.freeInsts.elems).foldl (f.retractFreed ord) ⟨s.allocable, true⟩

/-- `getLiveMemorySummary`, with at most `fuel` rounds. -/
def getLiveMemorySummary (fuel : Nat) : Option (LiveMemorySummary V) := do
  let s ← loopM (fun s : Retraction V => !s.fixedPoint) (fun s => some (f.retractionRound ord s)) fuel
    ⟨f.eligible, false⟩
  let removable := f.freeInsts.filter fun freeInst =>
    !f.mayFreeNonAllocable s.allocable (f.mayBeFreed freeInst)
  return ⟨s.allocable, removable⟩

end Definitions

variable {ord : IterOrder} {f : PrivatizerFunction V}

/-- A `free` of the function may free the object. -/
def MayFree (f : PrivatizerFunction V) (freeInst : V) (memobj : Option V) : Prop :=
  freeInst ∈ f.freeInsts ∧ memobj ∈ f.mayBeFreed freeInst

/-- No `free` may free both a member and something else. -/
def FreedTogether (f : PrivatizerFunction V) (A : Set V) : Prop :=
  ∀ freeInst, ∀ a ∈ A, f.MayFree freeInst (some a) →
    ∀ memobj, f.MayFree freeInst memobj → ∃ a' ∈ A, memobj = some a'

omit [DecidableEq V] in
theorem freedTogether_iff (A : Set V) : f.FreedTogether A ↔ Unsplit f.MayFree (some '' A) := by
  constructor
  · rintro h freeInst _ memobj ha ho ⟨a, hmem, rfl⟩
    obtain ⟨a', ha', rfl⟩ := h freeInst a hmem ha memobj ho
    exact ⟨a', ha', rfl⟩
  · intro h freeInst a hmem ha memobj ho
    obtain ⟨a', ha', heq⟩ := h freeInst (some a) memobj ha ho ⟨a, hmem, rfl⟩
    exact ⟨a', ha', heq.symm⟩

/-! ### Retraction -/

theorem mem_eligible {v : V} (h : v ∈ f.eligible) :
    f.isEligible v = true ∧ (v ∈ f.mallocInsts ∨ v ∈ f.callocInsts) := by
  obtain ⟨hmem, heligible⟩ := mem_filter.mp h
  exact ⟨heligible, mem_insertAll.mp hmem⟩

theorem isCallBase_of_eligible {v : V} (h : v ∈ f.eligible) : (f.inst v).isCallBase = true := by
  rcases (mem_eligible h).2 with hmem | hmem
  all_goals
    have hkind := (mem_filter.mp hmem).2
    cases hinst : f.inst v <;> simp [hinst] at hkind
    rfl

theorem mayFreeNonAllocable_iff {allocable : PtrSet V} (hsub : ∀ v ∈ allocable, v ∈ f.eligible)
    (mayBeFreed : PtrSet (Option V)) : f.mayFreeNonAllocable allocable mayBeFreed = true ↔
      ∃ memobj ∈ mayBeFreed, ∀ v ∈ allocable, memobj ≠ some v := by
  rw [mayFreeNonAllocable, List.any_eq_true]
  refine exists_congr fun memobj => and_congr_right fun _ => ?_
  cases memobj with
  | none => simp
  | some v =>
      rw [Bool.or_eq_true, Bool.not_eq_true', Bool.not_eq_true', decide_eq_false_iff_not]
      constructor
      · rintro (hcall | hout) v' hv' heq
        · cases heq
          exact absurd (hcall.symm.trans (isCallBase_of_eligible (hsub _ hv'))) Bool.false_ne_true
        · exact hout (Option.some.inj heq ▸ hv')
      · exact fun h => .inr fun hmem => h v hmem rfl

/-- What a part of a round does: members go, and if one does, the fixed point has not been reached. -/
structure Shrinks (s s' : Retraction V) : Prop where
  subset : ∀ v ∈ s'.allocable, v ∈ s.allocable
  unchanged : s'.fixedPoint = true → s' = s
  smaller : s.fixedPoint = true → s'.fixedPoint = false → s'.allocable.size < s.allocable.size
  size_le : s'.allocable.size ≤ s.allocable.size

omit [DecidableEq V] in
theorem Shrinks.refl (s : Retraction V) : Shrinks s s :=
  ⟨fun _ h => h, fun _ => rfl, fun h h' => absurd (h'.symm.trans h) Bool.false_ne_true, le_rfl⟩

omit [DecidableEq V] in
theorem Shrinks.trans {s s' s'' : Retraction V} (h : Shrinks s s') (h' : Shrinks s' s'') :
    Shrinks s s'' := by
  refine ⟨fun v hv => h.subset v (h'.subset v hv), fun hfix => ?_, fun hs hs'' => ?_,
    h'.size_le.trans h.size_le⟩
  · obtain rfl := h'.unchanged hfix
    exact h.unchanged hfix
  · cases hs' : s'.fixedPoint with
    | true => exact (h'.smaller hs' hs'').trans_le h.size_le
    | false => exact h'.size_le.trans_lt (h.smaller hs hs')

theorem shrinks_retract (s : Retraction V) (allocation : Option V) :
    Shrinks s (f.retract s allocation) := by
  cases allocation with
  | none => exact .refl s
  | some v =>
      rw [retract]
      split
      · rename_i h
        have hsize : (s.allocable.erase v).size < s.allocable.size :=
          (List.length_erase_of_mem h.2).trans_lt (Nat.sub_lt (List.length_pos_of_mem h.2) Nat.one_pos)
        exact ⟨fun u hu => (mem_erase.mp hu).2, nofun,
          fun _ _ => hsize, hsize.le⟩
      · exact .refl s

omit [DecidableEq V] in
theorem shrinks_foldl {α : Type} {step : Retraction V → α → Retraction V}
    (hstep : ∀ s a, Shrinks s (step s a)) : ∀ (l : List α) (s : Retraction V),
      Shrinks s (l.foldl step s)
  | [], s => .refl s
  | a :: l, s => (hstep s a).trans (shrinks_foldl hstep l (step s a))

theorem shrinks_retractFreed (s : Retraction V) (freeInst : V) :
    Shrinks s (f.retractFreed ord s freeInst) := by
  rw [retractFreed]
  split
  · exact shrinks_foldl shrinks_retract _ s
  · exact .refl s

omit [DecidableEq V] in
/-- A part of a round that has not changed anything has found nothing to retract. -/
theorem eq_of_foldl_fixedPoint {α : Type} {step : Retraction V → α → Retraction V}
    (hstep : ∀ s a, Shrinks s (step s a)) {a : α} : ∀ {l : List α} {s : Retraction V},
      (l.foldl step s).fixedPoint = true → a ∈ l → step s a = s
  | b :: l, s, h, ha => by
      have hrest := (shrinks_foldl hstep l (step s b)).unchanged h
      have hfix : (step s b).fixedPoint = true := by
        rw [List.foldl_cons, hrest] at h
        exact h
      have hb := (hstep s b).unchanged hfix
      cases List.mem_cons.mp ha with
      | inl heq => exact heq ▸ hb
      | inr hmem =>
          rw [List.foldl_cons, hb] at h
          exact eq_of_foldl_fixedPoint hstep h hmem

/-- The candidates between the largest set and the eligible allocations. -/
structure Retracting (f : PrivatizerFunction V) (allocable : PtrSet V) : Prop where
  subset : ∀ v ∈ allocable, v ∈ f.eligible
  largest_le : largestUnsplit f.MayFree (some '' {v | v ∈ f.eligible}) ⊆ some '' {v | v ∈ allocable}

/-- A free that would split its allocations retracts them. -/
theorem Retracting.retractFreed {s : Retraction V} (h : Retracting f s.allocable) {freeInst : V}
    (hfree : freeInst ∈ f.freeInsts) : Retracting f (f.retractFreed ord s freeInst).allocable := by
  rw [PrivatizerFunction.retractFreed]
  split
  · rename_i hnon
    obtain ⟨out, hout, hnot⟩ := (mayFreeNonAllocable_iff h.subset _).mp hnon
    -- everything that the `free` may free shares it with the object outside
    have hshared : ∀ memobj ∈ f.mayBeFreed freeInst,
        memobj ∉ largestUnsplit f.MayFree (some '' {v | v ∈ f.eligible}) := by
      refine fun memobj hmem => notMem_largestUnsplit h.largest_le ⟨hfree, hmem⟩ ⟨hfree, hout⟩ ?_
      rintro ⟨v, hv, heq⟩
      exact hnot v hv heq.symm
    refine foldl_rule f.retract (fun _ s' => Retracting f s'.allocable) h ?_
    intro pre memobj post s' hsplit h'
    have hmem : memobj ∈ f.mayBeFreed freeInst := by
      refine mem_elems.mp (ord.mem_visit.mp ?_)
      rw [hsplit]
      exact List.mem_append_right pre (.head _)
    refine ⟨fun v hv => h'.subset v ((shrinks_retract s' memobj).subset v hv), fun o ho => ?_⟩
    obtain ⟨v, hv, rfl⟩ := h'.largest_le ho
    refine ⟨v, ?_, rfl⟩
    cases memobj with
    | none => exact hv
    | some u =>
        rw [retract]
        split
        · refine mem_erase.mpr ⟨?_, hv⟩
          rintro rfl
          exact hshared _ hmem ho
        · exact hv
  · exact h

theorem Retracting.round {s : Retraction V} (h : Retracting f s.allocable) :
    Retracting f (f.retractionRound ord s).allocable := by
  refine foldl_rule (f.retractFreed ord) (fun _ s' => Retracting f s'.allocable) h ?_
  intro pre freeInst post s' hsplit h'
  refine h'.retractFreed (mem_elems.mp (ord.mem_visit.mp ?_))
  rw [hsplit]
  exact List.mem_append_right pre (.head _)

variable (ord) in
theorem shrinks_round (s : Retraction V) :
    Shrinks ⟨s.allocable, true⟩ (f.retractionRound ord s) :=
  shrinks_foldl shrinks_retractFreed _ _

theorem unsplit_of_fixedPoint {s : Retraction V} (h : Retracting f s.allocable)
    (hfix : (f.retractionRound ord s).fixedPoint = true) :
    Unsplit f.MayFree (some '' {v | v ∈ s.allocable}) := by
  rw [← freedTogether_iff]
  intro freeInst a ha hfree memobj hother
  by_contra hout
  have hnon : f.mayFreeNonAllocable s.allocable (f.mayBeFreed freeInst) = true := by
    refine (mayFreeNonAllocable_iff h.subset _).mpr ⟨memobj, hother.2, fun v hv heq => ?_⟩
    exact hout ⟨v, hv, heq⟩
  have hsame := eq_of_foldl_fixedPoint shrinks_retractFreed hfix
    (ord.mem_visit.mpr (mem_elems.mpr hfree.1))
  rw [PrivatizerFunction.retractFreed, if_pos hnon] at hsame
  have hkept : f.retract ⟨s.allocable, true⟩ (some a) = ⟨s.allocable, true⟩ :=
    eq_of_foldl_fixedPoint shrinks_retract (by rw [hsame])
      (ord.mem_visit.mpr (mem_elems.mpr hfree.2))
  rw [retract, if_pos ⟨isCallBase_of_eligible (h.subset a ha), ha⟩] at hkept
  nomatch congrArg Retraction.fixedPoint hkept

variable (ord) in
/-- The retraction ends, with nothing split. -/
theorem exists_retracted {fuel : Nat} (hfuel : f.eligible.size < fuel) :
    ∃ s, loopM (fun s : Retraction V => !s.fixedPoint) (fun s => some (f.retractionRound ord s)) fuel
        ⟨f.eligible, false⟩ = some s ∧ Retracting f s.allocable ∧
      some '' {v | v ∈ s.allocable} =
        largestUnsplit f.MayFree (some '' {v | v ∈ f.eligible}) := by
  let I : Retraction V → Prop := fun s => Retracting f s.allocable ∧
    (s.fixedPoint = true → Unsplit f.MayFree (some '' {v | v ∈ s.allocable}))
  let measure : Retraction V → Nat := fun s => if s.fixedPoint then 0 else s.allocable.size + 1
  have hbody : ∀ s, I s → (!s.fixedPoint) = true → ∃ s', some (f.retractionRound ord s) = some s' ∧
      I s' ∧ measure s' < measure s := by
    intro s hI hcond
    have hround : Shrinks ⟨s.allocable, true⟩ (f.retractionRound ord s) := shrinks_round ord s
    refine ⟨_, rfl, ⟨hI.1.round, fun hfix => ?_⟩, ?_⟩
    · rw [hround.unchanged hfix]
      exact unsplit_of_fixedPoint hI.1 hfix
    · rw [Bool.not_eq_true'] at hcond
      cases hfix : (f.retractionRound ord s).fixedPoint with
      | true => simp [measure, hfix, hcond]
      | false =>
          have hlt : (f.retractionRound ord s).allocable.size < s.allocable.size :=
            hround.smaller rfl hfix
          simpa [measure, hfix, hcond] using hlt
  have hinit : I ⟨f.eligible, false⟩ :=
    ⟨⟨fun _ h => h, isGreatest_largestUnsplit.1.1⟩, nofun⟩
  obtain ⟨s, hs, ⟨hretracting, hunsplit⟩, hfix⟩ :=
    loopM_rule I measure hbody fuel ⟨f.eligible, false⟩ hinit (Nat.succ_le_of_lt hfuel)
  rw [Bool.not_eq_false'] at hfix
  refine ⟨s, hs, hretracting, eq_largestUnsplit hretracting.largest_le ?_ (hunsplit hfix)⟩
  exact Set.image_mono hretracting.subset

/-- What the summary says, for the largest set of candidates. -/
structure SummaryOk (f : PrivatizerFunction V) (S : LiveMemorySummary V) : Prop where
  subset : ∀ v ∈ S.allocable, v ∈ f.eligible
  freedTogether : f.FreedTogether {v | v ∈ S.allocable}
  mem_removable : ∀ freeInst, freeInst ∈ S.removable ↔ freeInst ∈ f.freeInsts ∧
    ∀ memobj ∈ f.mayBeFreed freeInst, ∃ a ∈ S.allocable, memobj = some a

variable (ord) in
/-- The summary holds the largest unsplit set of allocations. -/
theorem getLiveMemorySummary_spec {fuel : Nat} (hfuel : f.eligible.size < fuel) :
    ∃ S, f.getLiveMemorySummary ord fuel = some S ∧ SummaryOk f S ∧
      some '' {v | v ∈ S.allocable} =
        largestUnsplit f.MayFree (some '' {v | v ∈ f.eligible}) := by
  obtain ⟨s, hs, hretracting, heq⟩ := exists_retracted ord hfuel
  refine ⟨_, by rw [getLiveMemorySummary, hs]; rfl, ⟨hretracting.subset, ?_, fun freeInst => ?_⟩, heq⟩
  · rw [freedTogether_iff]
    exact heq ▸ unsplit_largestUnsplit
  · rw [mem_filter, Bool.not_eq_true', ← Bool.not_eq_true,
      mayFreeNonAllocable_iff hretracting.subset]
    refine and_congr_right fun _ => ?_
    push Not
    rfl

/-- **Candidates for the stack**: whatever the order in which the containers are visited, the summary
has the largest set of eligible allocations that no `free` splits, and the `free`s of which it has
every target. -/
theorem getLiveMemorySummary_isGreatest (f : PrivatizerFunction V) :
    ∃ A R : Set V,
      IsGreatest {A | A ⊆ {v | v ∈ f.eligible} ∧ f.FreedTogether A} A ∧
      (∀ freeInst, freeInst ∈ R ↔ freeInst ∈ f.freeInsts ∧
        ∀ memobj ∈ f.mayBeFreed freeInst, ∃ a ∈ A, memobj = some a) ∧
      ∀ ord fuel, f.eligible.size < fuel → ∃ S, f.getLiveMemorySummary ord fuel = some S ∧
        {v | v ∈ S.allocable} = A ∧ {v | v ∈ S.removable} = R := by
  obtain ⟨S₀, -, hok, hS₀⟩ := getLiveMemorySummary_spec .stored (Nat.lt_succ_self f.eligible.size)
  refine ⟨{v | v ∈ S₀.allocable}, {v | v ∈ S₀.removable}, ⟨⟨hok.subset, hok.freedTogether⟩, ?_⟩,
    hok.mem_removable, fun ord fuel hfuel => ?_⟩
  · intro A hA v hv
    have hlargest := subset_largestUnsplit (Set.image_mono hA.1) ((freedTogether_iff A).mp hA.2)
    rw [← hS₀] at hlargest
    obtain ⟨u, hu, heq⟩ := hlargest ⟨v, hv, rfl⟩
    exact Option.some.inj heq ▸ hu
  · obtain ⟨S, hS, hok', heq⟩ := getLiveMemorySummary_spec ord hfuel
    have hallocable : {v | v ∈ S.allocable} = {v | v ∈ S₀.allocable} :=
      (Option.some_injective V).image_injective (heq.trans hS₀.symm)
    refine ⟨S, hS, hallocable, Set.ext fun freeInst => ?_⟩
    have hmem : ∀ v, v ∈ S.allocable ↔ v ∈ S₀.allocable := fun v => Set.ext_iff.mp hallocable v
    change freeInst ∈ S.removable ↔ freeInst ∈ S₀.removable
    rw [hok.mem_removable, hok'.mem_removable]
    simp only [hmem]

/-! ## The transformation -/

/-- What the loop of `transformH2S` changes. -/
structure H2SState (V : Type) where
  currentF : PrivatizerFunction V
  stackMemoryUsage : BitVec 64
  memSetInsts : List V
  modified : Bool

/-- The uses of the allocation go to an `alloca`, which keeps its name here. -/
def replaceAllocation (f : PrivatizerFunction V) (heapAllocInst : V) (allocationSize : BitVec 64) :
    PrivatizerFunction V :=
  { f with inst := Function.update f.inst heapAllocInst (.allocaInst allocationSize) }

/-- The body of the loop over the candidates. -/
def transformAllocation (s : H2SState V) (heapAllocInst : V) : Option (H2SState V) := do
  let allocationSize ← (s.currentF.inst heapAllocInst).getAllocationSize
  let held := stackCanHoldNewAlloca s.stackMemoryUsage allocationSize
  if !held.1 then return s
  match s.currentF.inst heapAllocInst with
  | .malloc _ =>
      return ⟨s.currentF.replaceAllocation heapAllocInst allocationSize, held.2, s.memSetInsts, true⟩
  | .calloc _ _ =>
      return ⟨s.currentF.replaceAllocation heapAllocInst allocationSize, held.2,
        s.memSetInsts ++ [heapAllocInst], true⟩
  | _ => return { s with stackMemoryUsage := held.2, modified := true }

def transformH2S (ord : IterOrder) (f : PrivatizerFunction V) (stackMemoryUsage : BitVec 64)
    (liveMemSum : LiveMemorySummary V) : Option (H2SState V) := do
  let s ← (ord.visit liveMemSum.allocable.elems).foldlM transformAllocation
    ⟨f, stackMemoryUsage, [], false⟩
  let instructions := s.currentF.instructions.filter fun v => !decide (v ∈ liveMemSum.removable)
  return { s with currentF := { s.currentF with instructions := instructions } }

def usageAfter (f : PrivatizerFunction V) (stackMemoryUsage : BitVec 64) (candidates : List V) :
    BitVec 64 :=
  candidates.foldl (fun usage v =>
    (stackCanHoldNewAlloca usage ((f.inst v).getAllocationSize.getD 0)).2) stackMemoryUsage

/-- The stack can hold the candidate when its turn comes, after those before it. -/
def StackHolds (f : PrivatizerFunction V) (stackMemoryUsage : BitVec 64) (before : List V) (v : V) :
    Prop :=
  (stackCanHoldNewAlloca (f.usageAfter stackMemoryUsage before)
    ((f.inst v).getAllocationSize.getD 0)).1 = true

/-- The allocation of `f` is an `alloca` in `f'`. -/
def Replaced (f f' : PrivatizerFunction V) (v : V) : Prop :=
  (v ∈ f.mallocInsts ∨ v ∈ f.callocInsts) ∧ ∃ allocationSize, f'.inst v = .allocaInst allocationSize

/-- What a removed `free` may free has moved to the stack, what a remaining one may free has not. -/
structure KeepsInStep (f f' : PrivatizerFunction V) : Prop where
  removed : ∀ freeInst ∈ f.freeInsts, freeInst ∉ f'.instructions →
    ∀ memobj ∈ f.mayBeFreed freeInst, ∃ a, memobj = some a ∧ Replaced f f' a
  remaining : ∀ freeInst ∈ f.freeInsts, freeInst ∈ f'.instructions →
    ∀ a, some a ∈ f.mayBeFreed freeInst → ¬ Replaced f f' a

/-- An allocation goes to the stack exactly if the budget allows it. -/
theorem transformAllocation_spec {s : H2SState V} {v : V}
    (hfixed : (s.currentF.inst v).isFixedSizedHeapAllocation = true) :
    ∃ s' allocationSize, transformAllocation s v = some s' ∧
      (s.currentF.inst v).getAllocationSize = some allocationSize ∧
      s'.stackMemoryUsage = (stackCanHoldNewAlloca s.stackMemoryUsage allocationSize).2 ∧
      s'.currentF = if (stackCanHoldNewAlloca s.stackMemoryUsage allocationSize).1 = true
        then s.currentF.replaceAllocation v allocationSize else s.currentF := by
  obtain ⟨allocationSize, hsize⟩ := PrivatizerInst.exists_getAllocationSize hfixed
  unfold transformAllocation
  rw [hsize, Option.bind_eq_bind, Option.bind_some]
  by_cases hheld : (stackCanHoldNewAlloca s.stackMemoryUsage allocationSize).1 = true
  · simp only [hheld, Bool.not_true, Bool.false_eq_true, if_false]
    cases hinst : s.currentF.inst v with
    | malloc size => exact ⟨_, allocationSize, rfl, rfl, rfl, (if_pos hheld).symm⟩
    | calloc elementCount elementSize =>
        exact ⟨_, allocationSize, rfl, rfl, rfl, (if_pos hheld).symm⟩
    | _ =>
        rw [hinst] at hfixed
        nomatch hfixed.symm.symm
  · have husage : (stackCanHoldNewAlloca s.stackMemoryUsage allocationSize).2 =
        s.stackMemoryUsage := by
      unfold stackCanHoldNewAlloca at hheld ⊢
      split at hheld
      · exact absurd rfl hheld
      · rename_i hfull
        rw [if_neg hfull]
    refine ⟨s, allocationSize, ?_, rfl, husage.symm, (if_neg hheld).symm⟩
    simp [hheld]

/-- The state after some candidates: those that the stack could hold have moved. -/
structure Moved (f : PrivatizerFunction V) (stackMemoryUsage : BitVec 64) (before : List V)
    (s : H2SState V) : Prop where
  instructions_eq : s.currentF.instructions = f.instructions
  usage_eq : s.stackMemoryUsage = f.usageAfter stackMemoryUsage before
  inst_eq : ∀ v, v ∉ before → s.currentF.inst v = f.inst v
  alloca_iff : ∀ pre v post, before = pre ++ v :: post →
    ((∃ allocationSize, s.currentF.inst v = .allocaInst allocationSize) ↔
      f.StackHolds stackMemoryUsage pre v)

/-- One more allocation is decided, and the budget is kept. -/
theorem Moved.step {stackMemoryUsage : BitVec 64} {before : List V} {s : H2SState V} {v : V}
    (h : Moved f stackMemoryUsage before s) (hv : v ∉ before) (heligible : v ∈ f.eligible) :
    ∃ s', transformAllocation s v = some s' ∧ Moved f stackMemoryUsage (before ++ [v]) s' := by
  have hfixed : (f.inst v).isFixedSizedHeapAllocation = true := by
    have h := (mem_eligible heligible).1
    rw [isEligible, Bool.and_eq_true, Bool.and_eq_true] at h
    exact h.1.1
  have hinst := h.inst_eq v hv
  obtain ⟨s', allocationSize, hs', hsize, husage, hcurrent⟩ :=
    transformAllocation_spec (s := s) (v := v) (by rw [hinst]; exact hfixed)
  rw [hinst] at hsize
  have hheld : f.StackHolds stackMemoryUsage before v ↔
      (stackCanHoldNewAlloca s.stackMemoryUsage allocationSize).1 = true := by
    rw [StackHolds, h.usage_eq, hsize]
    rfl
  have hother : ∀ u, u ≠ v → s'.currentF.inst u = s.currentF.inst u := by
    intro u hu
    rw [hcurrent]
    split
    · exact Function.update_of_ne hu _ _
    · rfl
  refine ⟨s', hs', ⟨?_, ?_, fun u hu => ?_, fun pre u post hsplit => ?_⟩⟩
  · rw [← h.instructions_eq, hcurrent]
    split <;> rfl
  · rw [husage, h.usage_eq, usageAfter, usageAfter, List.foldl_append, List.foldl_cons,
      List.foldl_nil, hsize]
    rfl
  · rw [List.mem_append, not_or] at hu
    rw [hother u (List.ne_of_not_mem_cons hu.2), h.inst_eq u hu.1]
  · rcases List.eq_nil_or_concat' post with rfl | ⟨post, u', rfl⟩
    · -- the candidate itself
      obtain ⟨rfl, heq⟩ := List.append_inj' hsplit rfl
      obtain rfl := List.singleton_inj.mp heq
      rw [hheld, hcurrent]
      constructor
      · rintro ⟨size, halloca⟩
        by_contra hnot
        rw [if_neg hnot, hinst] at halloca
        rw [halloca] at hfixed
        nomatch hfixed
      · intro hheld
        rw [if_pos hheld]
        exact ⟨allocationSize, Function.update_self _ _ _⟩
    · -- an earlier one
      have hsplit' : before ++ [v] = (pre ++ u :: post) ++ [u'] := by simpa using hsplit
      obtain ⟨hbefore, -⟩ := List.append_inj' hsplit' rfl
      have hne : u ≠ v := by
        rintro rfl
        exact hv (hbefore ▸ List.mem_append_right pre (.head _))
      rw [hother u hne]
      exact h.alloca_iff pre u post hbefore

theorem exists_moved (ord : IterOrder) (stackMemoryUsage : BitVec 64) {allocable : PtrSet V}
    (hsub : ∀ v ∈ allocable, v ∈ f.eligible) :
    ∃ s, (ord.visit allocable.elems).foldlM transformAllocation ⟨f, stackMemoryUsage, [], false⟩ =
      some s ∧ Moved f stackMemoryUsage (ord.visit allocable.elems) s := by
  refine foldlM_rule transformAllocation (Moved f stackMemoryUsage) ⟨rfl, rfl, fun _ _ => rfl, ?_⟩ ?_
  · intro pre v post hsplit
    exact absurd hsplit.symm (List.append_ne_nil_of_right_ne_nil pre (List.cons_ne_nil v post))
  · intro pre v post s hsplit h
    have hnodup := ord.nodup_visit allocable.nodup
    rw [hsplit] at hnodup
    refine h.step (fun hmem => ?_) (hsub v (mem_elems.mp (ord.mem_visit.mp ?_)))
    · exact (List.nodup_append.mp hnodup).2.2 v hmem v (.head _) rfl
    · rw [hsplit]
      exact List.mem_append_right pre (.head _)

theorem summaryOk {fuel : Nat} {S : LiveMemorySummary V}
    (h : f.getLiveMemorySummary ord fuel = some S) : SummaryOk f S := by
  obtain ⟨s, hs, hS⟩ := Option.bind_eq_some_iff.mp h
  have hs' := loopM_mono (Nat.le_max_left fuel (f.eligible.size + 1)) hs
  obtain ⟨S', hS', hok, -⟩ := getLiveMemorySummary_spec ord (f := f)
    (Nat.lt_of_succ_le (Nat.le_max_right fuel (f.eligible.size + 1)))
  have heq : f.getLiveMemorySummary ord (max fuel (f.eligible.size + 1)) = some S :=
    Option.bind_eq_some_iff.mpr ⟨s, hs', hS⟩
  exact Option.mem_unique hS' heq ▸ hok

theorem Moved.replaced_iff {stackMemoryUsage : BitVec 64} {before : List V} {s : H2SState V}
    (h : Moved f stackMemoryUsage before s) (hbefore : ∀ v ∈ before, v ∈ f.eligible) {a : V} :
    Replaced f s.currentF a ↔
      ∃ pre post, before = pre ++ a :: post ∧ f.StackHolds stackMemoryUsage pre a := by
  constructor
  · rintro ⟨hheap, halloca⟩
    by_cases hmem : a ∈ before
    · obtain ⟨pre, post, hsplit⟩ := List.append_of_mem hmem
      exact ⟨pre, post, hsplit, (h.alloca_iff pre a post hsplit).mp halloca⟩
    · -- the others are still calls
      obtain ⟨allocationSize, halloca⟩ := halloca
      rw [h.inst_eq a hmem] at halloca
      rcases hheap with hmalloc | hcalloc
      · simp [mallocInsts, halloca] at hmalloc
      · simp [callocInsts, halloca] at hcalloc
  · rintro ⟨pre, post, hsplit, hholds⟩
    refine ⟨(mem_eligible (hbefore a ?_)).2, (h.alloca_iff pre a post hsplit).mpr hholds⟩
    rw [hsplit]
    exact List.mem_append_right pre (.head _)

/-- `p = malloc(size); free(p);`. -/
def allocateAndFree (size : BitVec 64) : PrivatizerFunction Bool where
  instructions := PtrSet.ofList [false, true]
  inst v := if v then .free false else .malloc (some size)
  isIncludedInACycle _ := false
  mayEscape _ := false
  getPointees v := if v then ∅ else PtrSet.ofList [some false]

/-- **Allocation and free in step**: after the transformation no removed `free` leaves an allocation on
the heap and no remaining one frees one on the stack if and only if the stack could hold every
candidate that a removable `free` may free. -/
theorem transformH2S_keepsInStep_iff {fuel : Nat} {S : LiveMemorySummary V}
    (h : f.getLiveMemorySummary ord fuel = some S) (ord' : IterOrder)
    (stackMemoryUsage : BitVec 64) :
    ∃ s, transformH2S ord' f stackMemoryUsage S = some s ∧
      (KeepsInStep f s.currentF ↔
        ∀ pre a post, ord'.visit S.allocable.elems = pre ++ a :: post →
          (∃ freeInst ∈ S.removable, some a ∈ f.mayBeFreed freeInst) →
            f.StackHolds stackMemoryUsage pre a) := by
  have hok := summaryOk h
  obtain ⟨s, hs, hmoved⟩ := exists_moved ord' stackMemoryUsage hok.subset
  have heligible : ∀ v ∈ ord'.visit S.allocable.elems, v ∈ f.eligible := fun v hv =>
    hok.subset v (mem_elems.mp (ord'.mem_visit.mp hv))
  refine ⟨_, by rw [transformH2S, hs]; rfl, ?_⟩
  dsimp only
  set f' : PrivatizerFunction V := { s.currentF with
    instructions := s.currentF.instructions.filter fun v => !decide (v ∈ S.removable) } with hf'
  have hreplaced : ∀ a, Replaced f f' a ↔ ∃ pre post, ord'.visit S.allocable.elems = pre ++ a :: post ∧
      f.StackHolds stackMemoryUsage pre a := fun a => hmoved.replaced_iff heligible
  have hremoved : ∀ freeInst ∈ f.freeInsts, freeInst ∉ f'.instructions ↔ freeInst ∈ S.removable := by
    intro freeInst hfree
    have hmem : freeInst ∈ f.instructions := (mem_filter.mp hfree).1
    rw [← hmoved.instructions_eq] at hmem
    rw [hf', mem_filter, not_and, Bool.not_eq_true', decide_eq_false_iff_not, not_not]
    exact ⟨fun himp => himp hmem, fun hremovable _ => hremovable⟩
  constructor
  · rintro hstep pre a post hsplit ⟨freeInst, hremovable, hpointee⟩
    have hfree := ((hok.mem_removable freeInst).mp hremovable).1
    obtain ⟨a', heq, hmoved'⟩ :=
      hstep.removed freeInst hfree ((hremoved freeInst hfree).mpr hremovable) _ hpointee
    cases heq
    obtain ⟨allocationSize, halloca⟩ := hmoved'.2
    exact (hmoved.alloca_iff pre a post hsplit).mp ⟨allocationSize, halloca⟩
  · intro hholds
    refine ⟨fun freeInst hfree hnot memobj hmem => ?_, fun freeInst hfree hkept a hpointee => ?_⟩
    · have hremovable := (hremoved freeInst hfree).mp hnot
      obtain ⟨a, ha, rfl⟩ := ((hok.mem_removable freeInst).mp hremovable).2 memobj hmem
      obtain ⟨pre, post, hsplit⟩ := List.append_of_mem (ord'.mem_visit.mpr (mem_elems.mpr ha))
      exact ⟨a, rfl, (hreplaced a).mpr
        ⟨pre, post, hsplit, hholds pre a post hsplit ⟨freeInst, hremovable, hmem⟩⟩⟩
    · rw [hreplaced]
      rintro ⟨pre, post, hsplit, -⟩
      have ha : a ∈ S.allocable := by
        refine mem_elems.mp (ord'.mem_visit.mp ?_)
        rw [hsplit]
        exact List.mem_append_right pre (.head _)
      refine (hremoved freeInst hfree).mpr ((hok.mem_removable freeInst).mpr ⟨hfree, ?_⟩) hkept
      exact fun memobj hmem => hok.freedTogether freeInst a ha ⟨hfree, hpointee⟩ memobj ⟨hfree, hmem⟩

/-- `c = malloc(5 MiB); b = malloc(5 MiB); a = malloc(8); free(a); free(c);`. -/
def allocateThree : PrivatizerFunction Nat where
  instructions := PtrSet.ofList [0, 1, 2, 3, 4]
  inst v :=
    if v = 0 then .malloc (some 8)
    else if v < 3 then .malloc (some (5 * 1024 * 1024))
    else .free (2 * (v - 3))
  isIncludedInACycle _ := false
  mayEscape _ := false
  getPointees v := if v < 3 then PtrSet.ofList [some v] else ∅

/-- The second candidate does not fit, and no `free` is for it; the first and the third one do. -/
theorem transformH2S_keepsInStep_three :
    ∃ S s, allocateThree.getLiveMemorySummary .stored 4 = some S ∧ S.allocable.elems = [2, 1, 0] ∧
      transformH2S .stored allocateThree allocateThree.stackMemoryUsage S = some s ∧
        KeepsInStep allocateThree s.currentF ∧
        ¬ allocateThree.StackHolds allocateThree.stackMemoryUsage [2] 1 := by
  obtain ⟨S, hsummary, hallocable, hremovable⟩ : ∃ S,
      allocateThree.getLiveMemorySummary .stored 4 = some S ∧ S.allocable.elems = [2, 1, 0] ∧
        S.removable.elems = [4, 3] := ⟨_, rfl, rfl, rfl⟩
  obtain ⟨s, hs, hiff⟩ :=
    transformH2S_keepsInStep_iff hsummary .stored allocateThree.stackMemoryUsage
  refine ⟨S, s, hsummary, hallocable, hs, hiff.mpr fun pre a post hsplit hfree => ?_, by
    unfold StackHolds; decide⟩
  change S.allocable.elems = _ at hsplit
  rw [hallocable] at hsplit
  have hnot : ¬ ∃ freeInst ∈ S.removable, some 1 ∈ allocateThree.mayBeFreed freeInst := by
    rintro ⟨v, hv, hmem⟩
    rw [← mem_elems, hremovable] at hv
    revert v
    decide
  -- the candidates one after the other
  rcases pre with _ | ⟨x, _ | ⟨y, _ | ⟨z, pre⟩⟩⟩
  · obtain ⟨rfl, -⟩ : 2 = a ∧ _ = post := by simpa using hsplit
    rfl
  · obtain ⟨-, rfl, -⟩ : 2 = x ∧ 1 = a ∧ _ = post := by simpa using hsplit
    exact absurd hfree hnot
  · obtain ⟨rfl, rfl, rfl, -⟩ : 2 = x ∧ 1 = y ∧ 0 = a ∧ [] = post := by simpa using hsplit
    rfl
  · exact absurd (congrArg List.length hsplit) (by simp)

/-- Eight MiB do not fit: the allocation stays and the `free` goes. -/
theorem transformH2S_loses_free :
    ∃ S s, (allocateAndFree (8 * 1024 * 1024)).getLiveMemorySummary .stored 2 = some S ∧
      transformH2S .stored (allocateAndFree (8 * 1024 * 1024))
        (allocateAndFree (8 * 1024 * 1024)).stackMemoryUsage S = some s ∧
      ¬ KeepsInStep (allocateAndFree (8 * 1024 * 1024)) s.currentF := by
  refine ⟨_, _, rfl, rfl, fun h => ?_⟩
  obtain ⟨a, heq, -, allocationSize, halloca⟩ :=
    h.removed true (by decide) (by decide) (some false) (by decide)
  cases heq
  exact absurd halloca (by simp [allocateAndFree])

end PrivatizerFunction

end Noelle
