import Mathlib.Algebra.BigOperators.Ring.List
import Mathlib.Algebra.Order.BigOperators.Group.List
import Mathlib.Algebra.Order.Group.Nat
import Mathlib.Algebra.Ring.Nat
import Noelle.Hot.Basic

/-!
# Hot.Distribution

How `Hot::computeTotalInstructions` distributes the total of a function among its calls.

Each use of the function by an executed `CallBase` is given a share, whatever the instruction does with
the function, and the rest goes to the last use by a `CallBase`, executed or not.  The total is
distributed without loss exactly if the uses are calls of the function, each by one use
(`computeModuleTotals_distributes_iff`).
-/

namespace Noelle

open List Option

namespace HotModule

variable {F I B : Type} [DecidableEq F] [DecidableEq I]
variable (M : HotModule F I B) (bbInvocations : B → BitVec 64)

/-! ## What is promised -/

/-- A function with a body that has been executed. -/
structure Executed (f : F) : Prop where
  mem : f ∈ M.functions
  nonempty : M.empty f = false
  executed : M.hasFunctionBeenExecuted bbInvocations f = true

/-- The instructions that call the function, and have been executed. -/
def executedCallSites (f : F) : List I :=
  (M.functions.elems.flatMap M.instructions).filter fun i =>
    decide (M.getCalledFunction i = some f) && M.hasBeenExecuted bbInvocations i

/-- A function has as many invocations as its executed call sites have. -/
def InvocationsCover : Prop :=
  ∀ f, M.Executed bbInvocations f →
    ((M.executedCallSites bbInvocations f).map fun i => (M.getInvocations bbInvocations i).toNat).sum ≤
      (M.functionInvocations bbInvocations f).toNat

/-- `calleeTotalInstsFraction`. -/
def fraction (totals : FunctionTotals F) (f : F) (i : I) : BitVec 64 :=
  M.perInvocation bbInvocations totals f * M.getInvocations bbInvocations i

/-- The total of the function is distributed without loss: no subtraction underflows, entries are
written for executed calls of the function only, and in the end they add up. -/
structure DistributesTotal (totals : FunctionTotals F) (entries : InstructionTotals I) (f : F) :
    Prop where
  noUnderflow : ∀ pre useOfF post, M.uses f = pre ++ useOfF :: post →
    ∀ i ∈ M.callUser useOfF, M.hasBeenExecuted bbInvocations i = true →
    M.fraction bbInvocations totals f i ≤
      (M.distributeUses bbInvocations totals f pre ∅).totalInstsOfFLeftover
  recorded : ∀ entries i,
    (M.distribute bbInvocations totals entries f).lookup i ≠ entries.lookup i →
    M.hasBeenExecuted bbInvocations i = true ∧ M.getCalledFunction i = some f
  conserved : M.executedCallSites bbInvocations f ≠ [] →
    ((M.executedCallSites bbInvocations f).map fun i =>
      (M.getTotalInstructions bbInvocations entries i).toNat).sum =
      (getFunctionTotal totals f).toNat + (M.executedCallSites bbInvocations f).length

/-! ## The condition -/

/-- The users of the function that are a `CallBase`, one for each use. -/
def callUsers (f : F) : List I := (M.uses f).filterMap M.callUser

/-- Those that have been executed. -/
def executedUsers (uses : List (FunctionUse I)) : List I :=
  (uses.filterMap M.callUser).filter (M.hasBeenExecuted bbInvocations)

/-- What the shares of some uses add up to, without overflow. -/
def sharesOf (totals : FunctionTotals F) (f : F) (uses : List (FunctionUse I)) : Nat :=
  ((M.executedUsers bbInvocations uses).map fun i =>
    (M.perInvocation bbInvocations totals f).toNat * (M.getInvocations bbInvocations i).toNat).sum

/-- Every executed `CallBase` that uses the function calls it, and by one use, unless the shares are
zero.  The last one was executed, or nothing is left.  A single call site has room for the total
and one more. -/
structure Distributable (totals : FunctionTotals F) (f : F) : Prop where
  calls : ∀ i ∈ M.executedUsers bbInvocations (M.uses f), M.getCalledFunction i = some f
  once : M.perInvocation bbInvocations totals f = 0 ∨
    (M.executedUsers bbInvocations (M.uses f)).Nodup
  last : ∀ i ∈ (M.callUsers f).getLast?, M.hasBeenExecuted bbInvocations i = true ∨
    M.sharesOf bbInvocations totals f (M.uses f) = (getFunctionTotal totals f).toNat
  room : (M.executedCallSites bbInvocations f).length = 1 →
    (getFunctionTotal totals f).toNat + 1 < 2 ^ 64

/-! ## The loop over the uses -/

section Uses

variable {M} {bbInvocations} {totals : FunctionTotals F} {f : F}

variable (M bbInvocations) in
omit [DecidableEq F] in
theorem distributeUse_cases (per : BitVec 64) (s : Distribution I) (useOfF : FunctionUse I) :
    (M.callUser useOfF = none ∧ M.distributeUse bbInvocations per s useOfF = s) ∨
    (∃ i, M.callUser useOfF = some i ∧ M.hasBeenExecuted bbInvocations i = false ∧
      M.distributeUse bbInvocations per s useOfF = { s with callerOfF := some i }) ∨
    ∃ i, M.callUser useOfF = some i ∧ M.hasBeenExecuted bbInvocations i = true ∧
      M.distributeUse bbInvocations per s useOfF =
        ⟨s.instructionTotalInstructions.insert i (per * M.getInvocations bbInvocations i + 1),
          s.totalInstsOfFLeftover - per * M.getInvocations bbInvocations i, some i⟩ := by
  unfold distributeUse
  cases huser : M.callUser useOfF with
  | none => exact .inl ⟨rfl, rfl⟩
  | some i =>
    cases hexecuted : M.hasBeenExecuted bbInvocations i with
    | false => exact .inr (.inl ⟨i, rfl, hexecuted, by simp [hexecuted]⟩)
    | true => exact .inr (.inr ⟨i, rfl, hexecuted, by simp [hexecuted]⟩)

section

omit [DecidableEq F] [DecidableEq I]

theorem executedUsers_append (uses uses' : List (FunctionUse I)) :
    M.executedUsers bbInvocations (uses ++ uses') =
      M.executedUsers bbInvocations uses ++ M.executedUsers bbInvocations uses' := by
  simp [executedUsers]

theorem executedUsers_singleton_of_executed {useOfF : FunctionUse I} {i : I}
    (huser : M.callUser useOfF = some i) (h : M.hasBeenExecuted bbInvocations i = true) :
    M.executedUsers bbInvocations [useOfF] = [i] := by
  simp [executedUsers, huser, h]

theorem executedUsers_singleton_of_not_executed {useOfF : FunctionUse I}
    (h : ∀ i ∈ M.callUser useOfF, M.hasBeenExecuted bbInvocations i = false) :
    M.executedUsers bbInvocations [useOfF] = [] := by
  cases huser : M.callUser useOfF with
  | none => simp [executedUsers, huser]
  | some i => simp [executedUsers, huser, h i huser]

end

section

omit [DecidableEq I]

theorem sharesOf_append (uses uses' : List (FunctionUse I)) :
    M.sharesOf bbInvocations totals f (uses ++ uses') =
      M.sharesOf bbInvocations totals f uses + M.sharesOf bbInvocations totals f uses' := by
  rw [sharesOf, executedUsers_append, map_append, sum_append]
  rfl

theorem sharesOf_singleton_of_executed {useOfF : FunctionUse I} {i : I}
    (huser : M.callUser useOfF = some i) (h : M.hasBeenExecuted bbInvocations i = true) :
    M.sharesOf bbInvocations totals f [useOfF] =
      (M.perInvocation bbInvocations totals f).toNat * (M.getInvocations bbInvocations i).toNat := by
  rw [sharesOf, executedUsers_singleton_of_executed huser h]
  simp

theorem sharesOf_singleton_of_not_executed {useOfF : FunctionUse I}
    (h : ∀ i ∈ M.callUser useOfF, M.hasBeenExecuted bbInvocations i = false) :
    M.sharesOf bbInvocations totals f [useOfF] = 0 := by
  rw [sharesOf, executedUsers_singleton_of_not_executed h]
  rfl

end

theorem distributeUses_concat (uses : List (FunctionUse I)) (useOfF : FunctionUse I)
    (entries : InstructionTotals I) :
    M.distributeUses bbInvocations totals f (uses ++ [useOfF]) entries =
      M.distributeUse bbInvocations (M.perInvocation bbInvocations totals f)
        (M.distributeUses bbInvocations totals f uses entries) useOfF := by
  rw [distributeUses, foldl_append]
  rfl

variable (uses : List (FunctionUse I)) (entries : InstructionTotals I)

theorem distributeUses_callerOfF :
    (M.distributeUses bbInvocations totals f uses entries).callerOfF =
      (uses.filterMap M.callUser).getLast? := by
  induction uses using List.reverseRecOn with
  | nil => rfl
  | append_singleton uses useOfF ih =>
    rw [distributeUses_concat, filterMap_append]
    rcases M.distributeUse_cases bbInvocations (M.perInvocation bbInvocations totals f)
      (M.distributeUses bbInvocations totals f uses entries) useOfF
      with ⟨huser, h⟩ | ⟨i, huser, -, h⟩ | ⟨i, huser, -, h⟩
    · simp [h, ih, huser]
    · simp [h, huser]
    · simp [h, huser]

/-- The last share of a user is its fraction. -/
theorem distributeUses_lookup (i : I) :
    (M.distributeUses bbInvocations totals f uses entries).instructionTotalInstructions.lookup i =
      if i ∈ M.executedUsers bbInvocations uses then
        some (M.fraction bbInvocations totals f i + 1)
      else entries.lookup i := by
  induction uses using List.reverseRecOn with
  | nil => rfl
  | append_singleton uses useOfF ih =>
    rw [distributeUses_concat, executedUsers_append]
    rcases M.distributeUse_cases bbInvocations (M.perInvocation bbInvocations totals f)
      (M.distributeUses bbInvocations totals f uses entries) useOfF
      with ⟨huser, h⟩ | ⟨j, huser, hexecuted, h⟩ | ⟨j, huser, hexecuted, h⟩
    · rw [h, ih, executedUsers_singleton_of_not_executed (by simp [huser]), append_nil]
    · rw [h, ih, executedUsers_singleton_of_not_executed (by simp [huser, hexecuted]),
        append_nil]
    · rw [h, executedUsers_singleton_of_executed huser hexecuted]
      by_cases hij : i = j
      · subst hij
        simp [fraction]
      · simp [AList.lookup_insert_ne hij, ih, hij]

theorem distributeUses_leftover_eq :
    (M.distributeUses bbInvocations totals f uses entries).totalInstsOfFLeftover =
      (M.distributeUses bbInvocations totals f uses ∅).totalInstsOfFLeftover := by
  induction uses using List.reverseRecOn with
  | nil => rfl
  | append_singleton uses useOfF ih =>
    rw [distributeUses_concat, distributeUses_concat]
    unfold distributeUse
    split
    · exact ih
    · simp only
      split
      · exact ih
      · simp only [ih]

omit [DecidableEq I] in
theorem fraction_toNat {i : I}
    (h : (M.perInvocation bbInvocations totals f).toNat * (M.getInvocations bbInvocations i).toNat ≤
      (getFunctionTotal totals f).toNat) :
    (M.fraction bbInvocations totals f i).toNat =
      (M.perInvocation bbInvocations totals f).toNat * (M.getInvocations bbInvocations i).toNat := by
  rw [fraction, BitVec.toNat_mul]
  exact Nat.mod_eq_of_lt (h.trans_lt (getFunctionTotal totals f).isLt)

/-- What is left is the total less the shares. -/
theorem distributeUses_leftover
    (h : M.sharesOf bbInvocations totals f uses ≤ (getFunctionTotal totals f).toNat) :
    (M.distributeUses bbInvocations totals f uses entries).totalInstsOfFLeftover.toNat =
      (getFunctionTotal totals f).toNat - M.sharesOf bbInvocations totals f uses := by
  induction uses using List.reverseRecOn with
  | nil => rfl
  | append_singleton uses useOfF ih =>
    rw [sharesOf_append] at h ⊢
    have hprevious := ih (by omega)
    rw [distributeUses_concat]
    rcases M.distributeUse_cases bbInvocations (M.perInvocation bbInvocations totals f)
      (M.distributeUses bbInvocations totals f uses entries) useOfF
      with ⟨huser, hstep⟩ | ⟨i, huser, hexecuted, hstep⟩ | ⟨i, huser, hexecuted, hstep⟩
    · rw [hstep, hprevious, sharesOf_singleton_of_not_executed (by simp [huser]), Nat.add_zero]
    · rw [hstep, hprevious, sharesOf_singleton_of_not_executed (by simp [huser, hexecuted]),
        Nat.add_zero]
    · rw [sharesOf_singleton_of_executed huser hexecuted] at h ⊢
      have hfraction : (M.fraction bbInvocations totals f i).toNat =
          (M.perInvocation bbInvocations totals f).toNat * (M.getInvocations bbInvocations i).toNat :=
        fraction_toNat (by omega)
      rw [fraction] at hfraction
      rw [hstep, BitVec.toNat_sub_of_le, hprevious, hfraction, Nat.sub_sub]
      rw [BitVec.le_def, hprevious, hfraction]
      omega

/-- No share underflows exactly if those before it leave enough. -/
theorem noUnderflow_iff
    (hshare : ∀ i ∈ M.executedUsers bbInvocations (M.uses f),
      (M.perInvocation bbInvocations totals f).toNat * (M.getInvocations bbInvocations i).toNat ≤
        (getFunctionTotal totals f).toNat) :
    (∀ pre useOfF post, M.uses f = pre ++ useOfF :: post →
      ∀ i ∈ M.callUser useOfF, M.hasBeenExecuted bbInvocations i = true →
      M.fraction bbInvocations totals f i ≤
        (M.distributeUses bbInvocations totals f pre ∅).totalInstsOfFLeftover) ↔
      M.sharesOf bbInvocations totals f (M.uses f) ≤ (getFunctionTotal totals f).toNat := by
  generalize M.uses f = uses at hshare ⊢
  constructor
  · intro h
    induction uses using List.reverseRecOn with
    | nil => exact Nat.zero_le _
    | append_singleton uses useOfF ih =>
      rw [executedUsers_append] at hshare
      have hprevious := ih (fun i hi => hshare i (mem_append_left _ hi))
        fun pre use post huses => h pre use (post ++ [useOfF]) (by simp [huses])
      rw [sharesOf_append]
      by_cases hexecuted : ∃ i ∈ M.callUser useOfF, M.hasBeenExecuted bbInvocations i = true
      · obtain ⟨i, huser, hexecuted⟩ := hexecuted
        have hlast := h uses useOfF [] rfl i huser hexecuted
        have hi := hshare i (mem_append_right _ (by
          rw [executedUsers_singleton_of_executed huser hexecuted]
          exact mem_singleton_self i))
        rw [BitVec.le_def, fraction_toNat hi, distributeUses_leftover uses ∅ hprevious] at hlast
        rw [sharesOf_singleton_of_executed huser hexecuted]
        omega
      · rw [sharesOf_singleton_of_not_executed, Nat.add_zero]
        · exact hprevious
        · intro i hi
          by_contra hne
          exact hexecuted ⟨i, hi, by simpa using hne⟩
  · intro h pre useOfF post huses i huser hexecuted
    have hpre : M.sharesOf bbInvocations totals f pre +
        (M.perInvocation bbInvocations totals f).toNat * (M.getInvocations bbInvocations i).toNat ≤
        (getFunctionTotal totals f).toNat := by
      rw [huses, sharesOf_append, ← singleton_append, sharesOf_append,
        sharesOf_singleton_of_executed huser hexecuted] at h
      omega
    rw [BitVec.le_def, fraction_toNat (by omega), distributeUses_leftover pre ∅ (by omega)]
    omega

end Uses

/-! ## The entries of one function -/

section Entries

variable {M} {bbInvocations} {totals : FunctionTotals F} {f : F}

/-- What is left of the total after the loop over the uses. -/
def leftover (M : HotModule F I B) (bbInvocations : B → BitVec 64) (totals : FunctionTotals F) (f : F) :
    BitVec 64 :=
  (M.distributeUses bbInvocations totals f (M.uses f) ∅).totalInstsOfFLeftover

section

variable (hf : M.Executed bbInvocations f)

include hf

theorem distribute_eq (entries : InstructionTotals I) :
    M.distribute bbInvocations totals entries f =
      addLeftover (M.distributeUses bbInvocations totals f (M.uses f) entries) := by
  rw [distribute, hf.nonempty, hf.executed]
  rfl

/-- The last user also gets what the division leaves over. -/
theorem distribute_lookup_last (entries : InstructionTotals I) {i : I}
    (hi : (M.callUsers f).getLast? = some i) (hleft : M.leftover bbInvocations totals f ≠ 0) :
    (M.distribute bbInvocations totals entries f).lookup i =
      some (((if i ∈ M.executedUsers bbInvocations (M.uses f) then
          some (M.fraction bbInvocations totals f i + 1) else entries.lookup i).getD 0) +
        M.leftover bbInvocations totals f) := by
  have hcaller : (M.distributeUses bbInvocations totals f (M.uses f) entries).callerOfF = some i :=
    (distributeUses_callerOfF _ _).trans hi
  have hpos : (M.distributeUses bbInvocations totals f (M.uses f) entries).totalInstsOfFLeftover > 0 := by
    rw [distributeUses_leftover_eq]
    exact (BitVec.pos_iff_ne_zero _).mpr hleft
  rw [distribute_eq hf, addLeftover, hcaller]
  simp only [if_pos hpos, AList.lookup_insert, distributeUses_lookup]
  rw [distributeUses_leftover_eq]
  rfl

theorem distribute_lookup (entries : InstructionTotals I) {i : I}
    (h : (M.callUsers f).getLast? = some i → M.leftover bbInvocations totals f = 0) :
    (M.distribute bbInvocations totals entries f).lookup i =
      if i ∈ M.executedUsers bbInvocations (M.uses f) then
        some (M.fraction bbInvocations totals f i + 1) else entries.lookup i := by
  rw [distribute_eq hf, addLeftover, ← distributeUses_lookup]
  split
  · next j hj =>
    rw [distributeUses_callerOfF] at hj
    split
    · next hpos =>
      rw [distributeUses_leftover_eq] at hpos
      have hij : i ≠ j := by
        rintro rfl
        exact (BitVec.pos_iff_ne_zero _).mp hpos (h hj)
      rw [AList.lookup_insert_ne hij]
    · rfl
  · rfl

/-- When only executed calls of the function get a share of it. -/
theorem recorded_iff :
    (∀ entries i, (M.distribute bbInvocations totals entries f).lookup i ≠ entries.lookup i →
      M.hasBeenExecuted bbInvocations i = true ∧ M.getCalledFunction i = some f) ↔
      (∀ i ∈ M.executedUsers bbInvocations (M.uses f), M.getCalledFunction i = some f) ∧
        ∀ i ∈ (M.callUsers f).getLast?, M.leftover bbInvocations totals f ≠ 0 →
          M.hasBeenExecuted bbInvocations i = true ∧ M.getCalledFunction i = some f := by
  constructor
  · intro h
    refine ⟨fun i hi => ?_, fun i hi hleft => h ∅ i ?_⟩
    · by_cases hlast : (M.callUsers f).getLast? = some i → M.leftover bbInvocations totals f = 0
      · refine (h ∅ i ?_).2
        rw [distribute_lookup hf ∅ hlast, if_pos hi]
        simp
      · obtain ⟨hi, hleft⟩ := Classical.not_imp.mp hlast
        refine (h ∅ i ?_).2
        rw [distribute_lookup_last hf ∅ hi hleft]
        simp
    · rw [distribute_lookup_last hf ∅ hi hleft]
      simp
  · intro ⟨hcalls, hlast⟩ entries i hne
    by_cases hi : (M.callUsers f).getLast? = some i → M.leftover bbInvocations totals f = 0
    · rw [distribute_lookup hf entries hi] at hne
      by_cases hmem : i ∈ M.executedUsers bbInvocations (M.uses f)
      · exact ⟨(mem_filter.mp hmem).2, hcalls i hmem⟩
      · exact absurd (if_neg hmem) hne
    · obtain ⟨hi, hleft⟩ := Classical.not_imp.mp hi
      exact hlast i hi hleft

end

end Entries

/-! ## The call sites of a function -/

section Sites

variable {M} {bbInvocations} {totals : FunctionTotals F} {f : F}

section

omit [DecidableEq I]

theorem mem_executedCallSites {i : I} : i ∈ M.executedCallSites bbInvocations f ↔
    (∃ g ∈ M.functions, i ∈ M.instructions g) ∧ M.getCalledFunction i = some f ∧
      M.hasBeenExecuted bbInvocations i = true := by
  simp [executedCallSites]

theorem nodup_executedCallSites : (M.executedCallSites bbInvocations f).Nodup := by
  refine List.Nodup.filter _ (nodup_flatMap.mpr ⟨fun g _ => M.nodup_instructions g, ?_⟩)
  refine M.functions.nodup.imp_of_mem fun {g g'} hg hg' hne i hi hi' => hne ?_
  rw [← M.getFunction_eq g hg i hi, M.getFunction_eq g' hg' i hi']

theorem mem_executedUsers_of_site {i : I} (h : i ∈ M.executedCallSites bbInvocations f) :
    i ∈ M.executedUsers bbInvocations (M.uses f) := by
  obtain ⟨⟨g, hg, hi⟩, hcall, hexecuted⟩ := mem_executedCallSites.mp h
  obtain ⟨useOfF, huse, huser⟩ := M.use_of_call g hg i hi f hcall
  refine mem_filter.mpr ⟨mem_filterMap.mpr ⟨useOfF, huse, ?_⟩, hexecuted⟩
  have hbase : M.isCallBase i = true := by
    unfold getCalledFunction at hcall
    unfold isCallBase
    cases hkind : M.kind i with
    | callInst | invokeInst => rfl
    | otherInst =>
      rw [hkind] at hcall
      cases hcall
  rw [callUser, huser, filter_some, if_pos hbase]

theorem mem_site_of_executedUsers (hf : M.Executed bbInvocations f) {i : I}
    (h : i ∈ M.executedUsers bbInvocations (M.uses f)) (hcall : M.getCalledFunction i = some f) :
    i ∈ M.executedCallSites bbInvocations f := by
  obtain ⟨hmem, hexecuted⟩ := mem_filter.mp h
  obtain ⟨useOfF, huse, huser⟩ := mem_filterMap.mp hmem
  have hi : i ∈ useOfF.user := (filter_eq_some_iff.mp huser).1
  obtain ⟨hfunction, hinst, -⟩ := M.use_ok f hf.mem useOfF huse i hi
  exact mem_executedCallSites.mpr ⟨⟨_, hfunction, hinst⟩, hcall, hexecuted⟩

end

/-- The invocations of the call sites, and of the users. -/
def siteInvocations (M : HotModule F I B) (bbInvocations : B → BitVec 64) (f : F) : Nat :=
  ((M.executedCallSites bbInvocations f).map fun i => (M.getInvocations bbInvocations i).toNat).sum

section

omit [DecidableEq I]

theorem sharesOf_eq (uses : List (FunctionUse I)) : M.sharesOf bbInvocations totals f uses =
    (M.perInvocation bbInvocations totals f).toNat * ((M.executedUsers bbInvocations uses).map fun i =>
      (M.getInvocations bbInvocations i).toNat).sum := by
  rw [sharesOf, sum_map_mul_left]

theorem toNat_perInvocation : (M.perInvocation bbInvocations totals f).toNat =
    (getFunctionTotal totals f).toNat / (M.functionInvocations bbInvocations f).toNat :=
  BitVec.toNat_udiv

theorem mul_siteInvocations_le (hcover : M.InvocationsCover bbInvocations)
    (hf : M.Executed bbInvocations f) :
    (M.perInvocation bbInvocations totals f).toNat * M.siteInvocations bbInvocations f ≤
      (getFunctionTotal totals f).toNat := by
  calc _ ≤ (M.perInvocation bbInvocations totals f).toNat *
        (M.functionInvocations bbInvocations f).toNat := Nat.mul_le_mul_left _ (hcover f hf)
    _ ≤ _ := by
      rw [toNat_perInvocation]
      exact Nat.div_mul_le_self _ _

theorem invocations_le_siteInvocations {i : I} (h : i ∈ M.executedCallSites bbInvocations f) :
    (M.getInvocations bbInvocations i).toNat ≤ M.siteInvocations bbInvocations f :=
  le_sum_of_mem (mem_map_of_mem h)

end

omit [DecidableEq F] [DecidableEq I] in
theorem invocations_pos {i : I} (h : M.hasBeenExecuted bbInvocations i = true) :
    0 < (M.getInvocations bbInvocations i).toNat := by
  have hne : M.getInvocations bbInvocations i ≠ 0 := by simpa [hasBeenExecuted] using h
  exact Nat.pos_of_ne_zero fun hzero => hne (BitVec.eq_of_toNat_eq hzero)

omit [DecidableEq I] in
/-- If the users are the call sites, with one use each or no share, they are given the same. -/
theorem sharesOf_eq_sites (hf : M.Executed bbInvocations f)
    (h : M.Distributable bbInvocations totals f) :
    M.sharesOf bbInvocations totals f (M.uses f) =
      (M.perInvocation bbInvocations totals f).toNat * M.siteInvocations bbInvocations f := by
  rw [sharesOf_eq]
  rcases h.once with hzero | hnodup
  · simp [hzero]
  · have hperm : (M.executedUsers bbInvocations (M.uses f)).Perm
        (M.executedCallSites bbInvocations f) :=
      (perm_ext_iff_of_nodup hnodup nodup_executedCallSites).mpr fun i =>
        ⟨fun hi => mem_site_of_executedUsers hf hi (h.calls i hi), mem_executedUsers_of_site⟩
    rw [siteInvocations, (hperm.map _).sum_eq]

omit [DecidableEq I] in
theorem siteInvocations_lt (hnodup : ¬ (M.executedUsers bbInvocations (M.uses f)).Nodup) :
    M.siteInvocations bbInvocations f <
      ((M.executedUsers bbInvocations (M.uses f)).map fun i =>
        (M.getInvocations bbInvocations i).toNat).sum := by
  have hle : (M.executedCallSites bbInvocations f : Multiset I) ≤
      M.executedUsers bbInvocations (M.uses f) :=
    (Multiset.le_iff_subset (Multiset.coe_nodup.mpr nodup_executedCallSites)).mpr
      fun i hi => mem_executedUsers_of_site hi
  obtain ⟨rest, hrest⟩ := Multiset.le_iff_exists_add.mp hle
  induction rest using Quotient.inductionOn with
  | h rest =>
    have hperm : (M.executedUsers bbInvocations (M.uses f)).Perm
        (M.executedCallSites bbInvocations f ++ rest) := Multiset.coe_eq_coe.mp hrest
    cases rest with
    | nil => exact absurd (hperm.nodup_iff.mpr (by simpa using nodup_executedCallSites)) hnodup
    | cons i rest =>
      have hexecuted : M.hasBeenExecuted bbInvocations i = true :=
        (mem_filter.mp (hperm.mem_iff.mpr (by simp))).2
      have hpos := invocations_pos hexecuted
      rw [(hperm.map _).sum_eq, map_append, sum_append, map_cons, sum_cons,
        ← siteInvocations]
      omega

end Sites

/-! ## The entries of a module -/

section Totals

variable {M} {bbInvocations} {totals : FunctionTotals F} {f : F}

theorem distribute_of_not_executed {g : F} (hg : g ∈ M.functions) (h : ¬ M.Executed bbInvocations g)
    (entries : InstructionTotals I) : M.distribute bbInvocations totals entries g = entries := by
  unfold distribute
  cases hempty : M.empty g with
  | true => rfl
  | false =>
    cases hexecuted : M.hasFunctionBeenExecuted bbInvocations g with
    | false => rfl
    | true => exact absurd ⟨hg, hempty, hexecuted⟩ h

/-- What a caller gets beyond its share. -/
def lastShare (M : HotModule F I B) (bbInvocations : B → BitVec 64) (totals : FunctionTotals F) (f : F)
    (i : I) : BitVec 64 :=
  if (M.callUsers f).getLast? = some i then M.leftover bbInvocations totals f else 0

theorem distribute_lookup_user (hf : M.Executed bbInvocations f) (entries : InstructionTotals I) {i : I}
    (hi : i ∈ M.executedUsers bbInvocations (M.uses f)) :
    (M.distribute bbInvocations totals entries f).lookup i =
      some (M.fraction bbInvocations totals f i + 1 + M.lastShare bbInvocations totals f i) := by
  by_cases hlast : (M.callUsers f).getLast? = some i → M.leftover bbInvocations totals f = 0
  · have hzero : M.lastShare bbInvocations totals f i = 0 := ite_eq_right_iff.mpr hlast
    rw [distribute_lookup hf entries hlast, if_pos hi, hzero]
    simp
  · obtain ⟨hlast, hleft⟩ := Classical.not_imp.mp hlast
    rw [distribute_lookup_last hf entries hlast hleft, if_pos hi, lastShare, if_pos hlast]
    rfl

/-- If every function writes entries of its own calls only, no other function touches the entry of
a call. -/
theorem foldl_distribute_lookup
    (hrecorded : ∀ g, M.Executed bbInvocations g → ∀ entries i,
      (M.distribute bbInvocations totals entries g).lookup i ≠ entries.lookup i →
      M.hasBeenExecuted bbInvocations i = true ∧ M.getCalledFunction i = some g)
    {i : I} (hcall : M.getCalledFunction i = some f) : ∀ {l : List F} {entries : InstructionTotals I},
    (∀ g ∈ l, g ∈ M.functions ∧ g ≠ f) →
    (l.foldl (M.distribute bbInvocations totals) entries).lookup i = entries.lookup i
  | [], _, _ => rfl
  | g :: l, entries, h => by
    obtain ⟨hg, hne⟩ := h g (.head _)
    have hstep : (M.distribute bbInvocations totals entries g).lookup i = entries.lookup i := by
      by_cases hexecuted : M.Executed bbInvocations g
      · by_contra hchanged
        have hcallsg := (hrecorded g hexecuted entries i hchanged).2
        exact hne (mem_unique hcallsg hcall)
      · rw [distribute_of_not_executed hg hexecuted]
    rw [foldl_cons, foldl_distribute_lookup hrecorded hcall
      fun g hg => h g (.tail _ hg), hstep]

theorem getTotalInstructions_site
    (hrecorded : ∀ g, M.Executed bbInvocations g → ∀ entries i,
      (M.distribute bbInvocations totals entries g).lookup i ≠ entries.lookup i →
      M.hasBeenExecuted bbInvocations i = true ∧ M.getCalledFunction i = some g)
    (hf : M.Executed bbInvocations f) {i : I} (hi : i ∈ M.executedCallSites bbInvocations f) :
    M.getTotalInstructions bbInvocations
        (M.functions.elems.foldl (M.distribute bbInvocations totals) ∅) i =
      M.fraction bbInvocations totals f i + 1 + M.lastShare bbInvocations totals f i := by
  obtain ⟨pre, post, hsplit⟩ := mem_iff_append.mp hf.mem
  have hnodup : (pre ++ f :: post).Nodup := hsplit ▸ M.functions.nodup
  have hpost : ∀ g ∈ post, g ∈ M.functions ∧ g ≠ f := by
    intro g hg
    refine ⟨?_, fun hgf => ?_⟩
    · rw [← PtrSet.mem_elems, hsplit]
      exact mem_append_right _ (.tail _ hg)
    · exact (nodup_cons.mp (nodup_append.mp hnodup).2.1).1 (hgf ▸ hg)
  rw [getTotalInstructions, hsplit, foldl_append, foldl_cons,
    foldl_distribute_lookup hrecorded (mem_executedCallSites.mp hi).2.1 hpost,
    distribute_lookup_user hf _ (mem_executedUsers_of_site hi)]
  rfl

end Totals

/-! ## Conservation -/

section Conservation

theorem sum_map_ite_eq {α : Type} [DecidableEq α] (o : Option α) (c : Nat) : ∀ {l : List α}, l.Nodup →
    (l.map fun a => if o = some a then c else 0).sum = if ∃ a ∈ l, o = some a then c else 0
  | [], _ => by simp
  | a :: l, h => by
    obtain ⟨ha, hl⟩ := nodup_cons.mp h
    rw [map_cons, sum_cons, sum_map_ite_eq o c hl]
    by_cases hoa : o = some a
    · have hnone : ¬ ∃ b ∈ l, o = some b := by
        rintro ⟨b, hb, hob⟩
        exact ha (mem_unique hoa hob ▸ hb)
      rw [if_pos hoa, if_neg hnone, if_pos ⟨a, mem_cons_self, hoa⟩, Nat.add_zero]
    · rw [if_neg hoa, Nat.zero_add]
      simp [hoa]

variable {M} {bbInvocations} {totals : FunctionTotals F} {f : F}

/-- What a call site is given, without overflow. -/
def siteShare (M : HotModule F I B) (bbInvocations : B → BitVec 64) (totals : FunctionTotals F) (f : F)
    (i : I) : Nat :=
  (M.perInvocation bbInvocations totals f).toNat * (M.getInvocations bbInvocations i).toNat + 1 +
    if (M.callUsers f).getLast? = some i then (M.leftover bbInvocations totals f).toNat else 0

theorem sum_siteShare : ((M.executedCallSites bbInvocations f).map
      (M.siteShare bbInvocations totals f)).sum =
    (M.perInvocation bbInvocations totals f).toNat * M.siteInvocations bbInvocations f +
      (M.executedCallSites bbInvocations f).length +
      if ∃ i ∈ M.executedCallSites bbInvocations f, (M.callUsers f).getLast? = some i then
        (M.leftover bbInvocations totals f).toNat
      else 0 := by
  simp only [← sum_map_ite_eq _ _ nodup_executedCallSites, siteInvocations, ← sum_map_mul_left]
  unfold siteShare
  rw [sum_map_add, sum_map_add, map_const', sum_replicate_nat, Nat.mul_one]

section

variable (hcover : M.InvocationsCover bbInvocations)

include hcover

theorem toNat_entry (hf : M.Executed bbInvocations f) {i : I}
    (hi : i ∈ M.executedCallSites bbInvocations f) :
    (M.fraction bbInvocations totals f i + 1 + M.lastShare bbInvocations totals f i).toNat =
      M.siteShare bbInvocations totals f i % 2 ^ 64 := by
  have hfits : (M.perInvocation bbInvocations totals f).toNat *
      (M.getInvocations bbInvocations i).toNat ≤ (getFunctionTotal totals f).toNat :=
    (Nat.mul_le_mul_left _ (invocations_le_siteInvocations hi)).trans
      (mul_siteInvocations_le hcover hf)
  have hlast : (M.lastShare bbInvocations totals f i).toNat =
      if (M.callUsers f).getLast? = some i then (M.leftover bbInvocations totals f).toNat else 0 := by
    unfold lastShare
    split <;> rfl
  rw [BitVec.toNat_add, BitVec.toNat_add, fraction_toNat hfits, hlast, Nat.mod_add_mod]
  rfl

omit [DecidableEq I] in
theorem share_fits (hf : M.Executed bbInvocations f)
    (hcalls : ∀ i ∈ M.executedUsers bbInvocations (M.uses f), M.getCalledFunction i = some f) :
    ∀ i ∈ M.executedUsers bbInvocations (M.uses f),
      (M.perInvocation bbInvocations totals f).toNat * (M.getInvocations bbInvocations i).toNat ≤
        (getFunctionTotal totals f).toNat := fun i hi =>
  (Nat.mul_le_mul_left _ (invocations_le_siteInvocations
    (mem_site_of_executedUsers hf hi (hcalls i hi)))).trans (mul_siteInvocations_le hcover hf)

/-- A total that is distributed had users to distribute it to. -/
theorem distributable_of_distributesTotal
    (h : ∀ g, M.Executed bbInvocations g → M.DistributesTotal bbInvocations totals
      (M.functions.elems.foldl (M.distribute bbInvocations totals) ∅) g)
    (hf : M.Executed bbInvocations f) : M.Distributable bbInvocations totals f := by
  obtain ⟨hcalls, hlast⟩ := (recorded_iff hf).mp (h f hf).recorded
  have hshares := (noUnderflow_iff (share_fits hcover hf hcalls)).mp (h f hf).noUnderflow
  have hleft : (M.leftover bbInvocations totals f).toNat =
      (getFunctionTotal totals f).toNat - M.sharesOf bbInvocations totals f (M.uses f) :=
    distributeUses_leftover _ ∅ hshares
  have hsum : M.executedCallSites bbInvocations f ≠ [] →
      ((M.executedCallSites bbInvocations f).map fun i =>
        M.siteShare bbInvocations totals f i % 2 ^ 64).sum =
        (getFunctionTotal totals f).toNat + (M.executedCallSites bbInvocations f).length := by
    intro hne
    rw [← (h f hf).conserved hne]
    refine congrArg List.sum (map_congr_left fun i hi => ?_)
    rw [getTotalInstructions_site (fun g hg => (h g hg).recorded) hf hi, toNat_entry hcover hf hi]
  refine ⟨hcalls, ?_, ?_, ?_⟩
  · by_contra hnot
    obtain ⟨hper, hnodup⟩ := not_or.mp hnot
    -- The shares of the second uses are nowhere recorded.
    have hlt := siteInvocations_lt hnodup
    have hne : M.executedCallSites bbInvocations f ≠ [] := by
      intro hnil
      have hempty : M.executedUsers bbInvocations (M.uses f) = [] :=
        eq_nil_iff_forall_not_mem.mpr fun i hi =>
          not_mem_nil (hnil ▸ mem_site_of_executedUsers hf hi (hcalls i hi))
      exact hnodup (hempty ▸ nodup_nil)
    have hle : ((M.executedCallSites bbInvocations f).map fun i =>
        M.siteShare bbInvocations totals f i % 2 ^ 64).sum ≤
        ((M.executedCallSites bbInvocations f).map (M.siteShare bbInvocations totals f)).sum :=
      sum_le_sum fun i _ => Nat.mod_le _ _
    rw [hsum hne, sum_siteShare] at hle
    have hperPos : 0 < (M.perInvocation bbInvocations totals f).toNat :=
      Nat.pos_of_ne_zero fun hzero => hper (BitVec.eq_of_toNat_eq hzero)
    have hmul := Nat.mul_lt_mul_of_pos_left hlt hperPos
    rw [← sharesOf_eq] at hmul
    split at hle <;> omega
  · intro i hi
    by_cases hleftover : M.leftover bbInvocations totals f = 0
    · rw [hleftover] at hleft
      right
      have hzero : (0 : BitVec 64).toNat = 0 := rfl
      omega
    · exact .inl (hlast i hi hleftover).1
  · intro hone
    obtain ⟨i, hi⟩ := length_eq_one_iff.mp hone
    have hsum := hsum (by simp [hi])
    simp only [hi, map_cons, map_nil, sum_cons, sum_nil, Nat.add_zero,
      length_singleton] at hsum
    rw [← hsum]
    exact Nat.mod_lt _ (by decide)

end

omit [DecidableEq I] in
theorem invocations_lt_siteInvocations {i : I} (hi : i ∈ M.executedCallSites bbInvocations f)
    (hlength : (M.executedCallSites bbInvocations f).length ≠ 1) :
    (M.getInvocations bbInvocations i).toNat < M.siteInvocations bbInvocations f := by
  obtain ⟨pre, post, hsplit⟩ := mem_iff_append.mp hi
  have hother : ∃ j ∈ pre ++ post, j ∈ M.executedCallSites bbInvocations f := by
    have hne : pre ++ post ≠ [] := by
      intro hnil
      obtain ⟨rfl, rfl⟩ := append_eq_nil_iff.mp hnil
      exact hlength (congrArg List.length hsplit)
    obtain ⟨j, hj⟩ := exists_mem_of_ne_nil _ hne
    refine ⟨j, hj, ?_⟩
    rw [hsplit]
    exact (mem_append.mp hj).elim (mem_append_left _)
      fun h => mem_append_right _ (.tail _ h)
  obtain ⟨j, hj, hsite⟩ := hother
  have hpos := invocations_pos (mem_executedCallSites.mp hsite).2.2
  have hle : (M.getInvocations bbInvocations j).toNat ≤
      ((pre ++ post).map fun i => (M.getInvocations bbInvocations i).toNat).sum :=
    le_sum_of_mem (mem_map_of_mem hj)
  rw [map_append, sum_append] at hle
  rw [siteInvocations, hsplit, map_append, sum_append, map_cons, sum_cons]
  omega

/-- The share of a call site fits in 64 bits. -/
theorem siteShare_lt (hcover : M.InvocationsCover bbInvocations) (hf : M.Executed bbInvocations f)
    (h : M.Distributable bbInvocations totals f) {i : I}
    (hi : i ∈ M.executedCallSites bbInvocations f) : M.siteShare bbInvocations totals f i < 2 ^ 64 := by
  have hfits : (M.perInvocation bbInvocations totals f).toNat * M.siteInvocations bbInvocations f ≤
      (getFunctionTotal totals f).toNat := mul_siteInvocations_le hcover hf
  have hleft : (M.leftover bbInvocations totals f).toNat = (getFunctionTotal totals f).toNat -
      (M.perInvocation bbInvocations totals f).toNat * M.siteInvocations bbInvocations f := by
    rw [← sharesOf_eq_sites hf h]
    exact distributeUses_leftover _ ∅ ((sharesOf_eq_sites hf h).trans_le hfits)
  have hbound : M.siteShare bbInvocations totals f i ≤
      (M.perInvocation bbInvocations totals f).toNat * (M.getInvocations bbInvocations i).toNat + 1 +
        (M.leftover bbInvocations totals f).toNat := by
    unfold siteShare
    split <;> omega
  by_cases hone : (M.executedCallSites bbInvocations f).length = 1
  · have hroom := h.room hone
    have hle := Nat.mul_le_mul_left (M.perInvocation bbInvocations totals f).toNat
      (invocations_le_siteInvocations hi)
    omega
  · have hlt := invocations_lt_siteInvocations hi hone
    have htotal := (getFunctionTotal totals f).isLt
    rcases Nat.eq_zero_or_pos (M.perInvocation bbInvocations totals f).toNat with hzero | hpos
    · -- No share at all: the total is smaller than the invocations.
      have hinvocations : 0 < (M.functionInvocations bbInvocations f).toNat := by
        refine Nat.pos_of_ne_zero fun hnone => ?_
        have hexecuted := hf.executed
        rw [hasFunctionBeenExecuted, decide_eq_true_eq] at hexecuted
        exact hexecuted (BitVec.eq_of_toNat_eq hnone)
      have hsmall := hzero
      rw [toNat_perInvocation, Nat.div_eq_zero_iff] at hsmall
      have hlt := (M.functionInvocations bbInvocations f).isLt
      rw [hzero] at hbound hleft
      omega
    · have hle := Nat.mul_le_mul_left (M.perInvocation bbInvocations totals f).toNat hlt
      rw [Nat.mul_succ] at hle
      omega

/-- A distributable total is distributed without loss, if no function writes the entries of another
one. -/
theorem distributesTotal_of_distributable (hcover : M.InvocationsCover bbInvocations)
    (hdist : ∀ g, M.Executed bbInvocations g → M.Distributable bbInvocations totals g)
    (hf : M.Executed bbInvocations f) : M.DistributesTotal bbInvocations totals
      (M.functions.elems.foldl (M.distribute bbInvocations totals) ∅) f := by
  have hshares : ∀ {g}, M.Executed bbInvocations g →
      M.sharesOf bbInvocations totals g (M.uses g) ≤ (getFunctionTotal totals g).toNat := by
    intro g hg
    rw [sharesOf_eq_sites hg (hdist g hg)]
    exact mul_siteInvocations_le hcover hg
  have hleft : ∀ {g}, M.Executed bbInvocations g → (M.leftover bbInvocations totals g).toNat =
      (getFunctionTotal totals g).toNat - M.sharesOf bbInvocations totals g (M.uses g) :=
    fun hg => distributeUses_leftover _ ∅ (hshares hg)
  have hlastUser : ∀ {g i}, M.Executed bbInvocations g → (M.callUsers g).getLast? = some i →
      M.leftover bbInvocations totals g ≠ 0 → i ∈ M.executedUsers bbInvocations (M.uses g) := by
    intro g i hg hi hne
    refine mem_filter.mpr ⟨mem_of_getLast? hi, ?_⟩
    refine ((hdist g hg).last i hi).resolve_right fun heq => hne (BitVec.eq_of_toNat_eq ?_)
    rw [hleft hg, heq, Nat.sub_self]
    rfl
  have hrecorded : ∀ g, M.Executed bbInvocations g → ∀ entries i,
      (M.distribute bbInvocations totals entries g).lookup i ≠ entries.lookup i →
      M.hasBeenExecuted bbInvocations i = true ∧ M.getCalledFunction i = some g := by
    intro g hg
    refine (recorded_iff hg).mpr ⟨(hdist g hg).calls, fun i hi hne => ?_⟩
    have hmem := hlastUser hg hi hne
    exact ⟨(mem_filter.mp hmem).2, (hdist g hg).calls i hmem⟩
  refine ⟨(noUnderflow_iff (share_fits hcover hf (hdist f hf).calls)).mpr (hshares hf),
    hrecorded f hf, fun hne => ?_⟩
  have hentries : ((M.executedCallSites bbInvocations f).map fun i =>
      (M.getTotalInstructions bbInvocations
        (M.functions.elems.foldl (M.distribute bbInvocations totals) ∅) i).toNat) =
      (M.executedCallSites bbInvocations f).map (M.siteShare bbInvocations totals f) :=
    map_congr_left fun i hi => by
      rw [getTotalInstructions_site hrecorded hf hi, toNat_entry hcover hf hi,
        Nat.mod_eq_of_lt (siteShare_lt hcover hf (hdist f hf) hi)]
  have hlast : (if ∃ i ∈ M.executedCallSites bbInvocations f, (M.callUsers f).getLast? = some i then
      (M.leftover bbInvocations totals f).toNat else 0) = (M.leftover bbInvocations totals f).toNat := by
    refine ite_eq_left_iff.mpr fun hnone => ?_
    by_contra hzero
    obtain ⟨j, hj⟩ := exists_mem_of_ne_nil _ hne
    have hcall : j ∈ M.callUsers f := (mem_filter.mp (mem_executedUsers_of_site hj)).1
    obtain ⟨i, hi⟩ := isSome_iff_exists.mp
      (List.getLast?_isSome.mpr (ne_nil_of_mem hcall))
    have hmem := hlastUser hf hi fun h => hzero (by rw [h]; rfl)
    exact hnone ⟨i, mem_site_of_executedUsers hf hmem ((hdist f hf).calls i hmem), hi⟩
  rw [hentries, sum_siteShare, hlast, hleft hf, sharesOf_eq_sites hf (hdist f hf)]
  have hfits : (M.perInvocation bbInvocations totals f).toNat * M.siteInvocations bbInvocations f ≤
      (getFunctionTotal totals f).toNat := mul_siteInvocations_le hcover hf
  omega

variable {quotient : BitVec 64 → BitVec 64 → BitVec 64} {entries : InstructionTotals I}

/-- If functions have as many invocations as their call sites, the totals are distributed without loss
exactly if they are distributable. -/
theorem computeModuleTotals_distributes_iff (hcover : M.InvocationsCover bbInvocations)
    (h : M.computeModuleTotals bbInvocations quotient = .ok (totals, entries)) :
    (∀ f, M.Executed bbInvocations f → M.DistributesTotal bbInvocations totals entries f) ↔
      ∀ f, M.Executed bbInvocations f → M.Distributable bbInvocations totals f := by
  obtain rfl : M.functions.elems.foldl (M.distribute bbInvocations totals) ∅ = entries := by
    unfold computeModuleTotals at h
    cases htotals : M.computeFunctionTotals bbInvocations quotient with
    | error e =>
      rw [htotals] at h
      cases h
    | ok totals' =>
      rw [htotals] at h
      cases h
      rfl
  exact ⟨fun h f hf => distributable_of_distributesTotal hcover h hf,
    fun h f hf => distributesTotal_of_distributable hcover h hf⟩

end Conservation

end HotModule

/-! ## A call that was not executed -/

/-- `main` and a function that it calls. -/
inductive ColdFunction
  | main | callee
  deriving DecidableEq

/-- The instructions, each in a block of its own: a branch and two calls of `main`, and two of the
callee. -/
inductive ColdInst
  | branch | call | coldCall
  | first | second
  deriving DecidableEq

namespace ColdInst

/-- The profile: one of the calls was executed twice, and the callee went to its second instruction
once. -/
def invocations : ColdInst → BitVec 64
  | branch => 1
  | call => 2
  | coldCall => 0
  | first => 2
  | second => 1

/-- `Instruction::getFunction`. -/
def getFunction : ColdInst → ColdFunction
  | branch | call | coldCall => .main
  | first | second => .callee

def kind : ColdInst → InstKind ColdFunction
  | call | coldCall => .callInst (some .callee)
  | _ => .otherInst

end ColdInst

namespace ColdFunction

def functions : PtrSet ColdFunction := ⟨[main, callee], by decide⟩

def instructions : ColdFunction → List ColdInst
  | main => [.branch, .call, .coldCall]
  | callee => [.first, .second]

/-- The uses of the callee, with the call that was not executed first or last. -/
def uses (coldFirst : Bool) : ColdFunction → List (FunctionUse ColdInst)
  | main => []
  | callee =>
      if coldFirst then [⟨some .coldCall, true⟩, ⟨some .call, true⟩]
      else [⟨some .call, true⟩, ⟨some .coldCall, true⟩]

end ColdFunction

def coldModule (coldFirst : Bool) : HotModule ColdFunction ColdInst ColdInst where
  functions := ColdFunction.functions
  instructions := ColdFunction.instructions
  kind := ColdInst.kind
  getFunction := ColdInst.getFunction
  uses := ColdFunction.uses coldFirst
  getFunction_eq f _ i hi := by
    cases f <;> simp [ColdFunction.instructions] at hi <;> rcases hi with rfl | rfl | rfl <;> rfl
  use_ok f _ useOfF huse i hi := by
    cases f <;> cases coldFirst <;> simp [ColdFunction.uses] at huse <;>
      rcases huse with rfl | rfl <;> cases hi <;> decide
  callee_ok f _ i _ g _ := by cases g <;> decide
  getParent i := i
  getEntryBlock
    | .main => .branch
    | .callee => .first
  isCallBrInst _ := false
  nodup_instructions f := by cases f <;> decide
  use_of_call f _ i _ g hg := by
    cases i <;> simp [ColdInst.kind, InstKind.getCalledFunction] at hg <;> subst hg <;>
      cases coldFirst <;> simp [ColdFunction.uses]

/-- The totals of the functions: 5, and 3. -/
def coldTotals : FunctionTotals ColdFunction :=
  ((∅ : FunctionTotals ColdFunction).insert .main 5).insert .callee 3

theorem coldModule_totals (coldFirst : Bool) :
    (coldModule coldFirst).computeFunctionTotals ColdInst.invocations (· / ·) = .ok coldTotals := by
  cases coldFirst <;> rfl

def coldEntries (coldFirst : Bool) : InstructionTotals ColdInst :=
  [.main, .callee].foldl ((coldModule coldFirst).distribute ColdInst.invocations coldTotals) ∅

theorem coldModule_computeModuleTotals (coldFirst : Bool) :
    (coldModule coldFirst).computeModuleTotals ColdInst.invocations (· / ·) =
      .ok (coldTotals, coldEntries coldFirst) := by
  rw [HotModule.computeModuleTotals, coldModule_totals]
  rfl

theorem coldModule_cover (coldFirst : Bool) :
    (coldModule coldFirst).InvocationsCover ColdInst.invocations := by
  intro f _
  cases f <;> cases coldFirst <;> decide

/-- If the call that was executed is the last use, it gets what is left. -/
theorem computeModuleTotals_distributes_coldFirst :
    (coldModule true).computeModuleTotals ColdInst.invocations (· / ·) =
        .ok (coldTotals, coldEntries true) ∧
      ∀ f, (coldModule true).Executed ColdInst.invocations f →
        (coldModule true).DistributesTotal ColdInst.invocations coldTotals (coldEntries true) f := by
  refine ⟨coldModule_computeModuleTotals true, (HotModule.computeModuleTotals_distributes_iff
    (coldModule_cover true) (coldModule_computeModuleTotals true)).mpr fun f _ => ?_⟩
  cases f with
  | main => exact ⟨by decide, .inr (by decide), by decide, by decide⟩
  | callee => exact ⟨by decide, .inr (by decide), by decide, by decide⟩

/-- If it is not, the call that was not executed gets what is left. -/
theorem not_distributes_coldLast :
    (coldModule false).InvocationsCover ColdInst.invocations ∧
      (coldModule false).computeModuleTotals ColdInst.invocations (· / ·) =
        .ok (coldTotals, coldEntries false) ∧
      ¬ ∀ f, (coldModule false).Executed ColdInst.invocations f →
        (coldModule false).DistributesTotal ColdInst.invocations coldTotals (coldEntries false) f := by
  refine ⟨coldModule_cover false, coldModule_computeModuleTotals false, fun h => ?_⟩
  have hrecorded := (h .callee ⟨by decide, by decide, by decide⟩).recorded ∅ .coldCall (by decide)
  exact absurd hrecorded.1 (by decide)

end Noelle
