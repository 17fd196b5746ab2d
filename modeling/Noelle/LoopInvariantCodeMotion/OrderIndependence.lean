import Noelle.LoopInvariantCodeMotion.Closure

/-!
# LoopInvariantCodeMotion.OrderIndependence

When the invariants do not depend on the order in which the instructions are visited.

An instruction evolves (`Evolves`) if its dependences lead to one that is not followed, or to a
cycle.  A search gives this answer, whatever was visited before (`Exact`); but whether an
instruction calls a library function that is not pure is checked only where the instructions are
visited.  If a search reaches such a call first, the call is invariant.
-/

namespace Noelle

open PtrSet List Option

namespace InvariantManager

open LoopInvariantCodeMotion Relation

variable {F V B : Type} [DecidableEq V]

section Definitions

variable (ord : IterOrder) (fn : InvariantFunction V B) (l : LoopStructure F B) (ldg : PDG V)

def findInvariantsInOrder (fuel : Nat) (instructions : List V) : Option (PtrSet V) :=
  (instructions.foldlM (checkInvariance ord fn l ldg fuel) {}).map InvarianceChecker.invariants

/-- The instruction has a dependence on the other, which is in the loop. -/
def DependsInLoop (i d : V) : Prop :=
  ∃ e, DependsBy ldg i e ∧ e.getSrc = d ∧ isIncluded fn l d = true

/-- All orders find the same, and nothing in it depends on a call to a library function that is not
pure. -/
def IsOrderIndependent (fuel : Nat) : Prop :=
  ∃ S : V → Prop,
    (∀ instructions : List V, instructions.Perm (getInstructions fn l).elems →
      ∃ invariants, findInvariantsInOrder ord fn l ldg fuel instructions = some invariants ∧
        ∀ i, i ∈ invariants ↔ S i) ∧
    ∀ i, S i → ∀ c, ReflTransGen (DependsInLoop fn l ldg) i c →
      callsImpureLibraryFunction (fn.inst c) = false

/-- The instruction depends on something that is not followed, or on a cycle. -/
inductive Evolves : V → Prop
  | direct {i : V} {e : DGEdge V} : DependsBy ldg i e → isIncluded fn l e.getSrc = true →
      ¬ Followed fn l e.getSrc e → Evolves i
  | cycle {i : V} : TransGen (DependsOn fn l ldg) i i → Evolves i
  | dependence {i d : V} : DependsOn fn l ldg i d → Evolves d → Evolves i

/-- The dependence ends a search. -/
def IsEvolving (toValue : V) (dep : DGEdge V) : Prop :=
  isIncluded fn l toValue = true ∧ (Followed fn l toValue dep → Evolves fn l ldg toValue)

/-- A search that begins at the instruction follows its dependence on the other. -/
def Reaches (i d : V) : Prop :=
  ∃ pre e post, dependencesOf ord ldg i = pre ++ e :: post ∧
    (∀ e' ∈ pre, ¬ IsEvolving fn l ldg e'.getSrc e') ∧ e.getSrc = d ∧ Followed fn l d e

/-- A search can begin at the instruction. -/
structure IsChecked (i : V) : Prop where
  included : isIncluded fn l i = true
  notManagesMemory : managesMemory (fn.inst i) = false
  equivalent : isPHI fn l i = true → EquivalentIncomingValues fn i

end Definitions

variable {ord : IterOrder} {fn : InvariantFunction V B} {l : LoopStructure F B} {ldg : PDG V}

theorem Followed.isChecked {toValue : V} {dep : DGEdge V} (h : Followed fn l toValue dep) :
    IsChecked fn l toValue :=
  ⟨h.included, h.notManagesMemory, h.equivalent⟩

theorem DependsBy.evolves {i : V} {e : DGEdge V} (he : DependsBy ldg i e)
    (h : IsEvolving fn l ldg e.getSrc e) : Evolves fn l ldg i := by
  by_cases hfollowed : Followed fn l e.getSrc e
  · exact .dependence ⟨e, he, rfl, hfollowed⟩ (h.2 hfollowed)
  · exact .direct he h.1 hfollowed

theorem not_evolves {i : V} (h : ∀ e, DependsBy ldg i e → ¬ IsEvolving fn l ldg e.getSrc e) :
    ¬ Evolves fn l ldg i := by
  intro hevolves
  cases hevolves with
  | direct he hin hfollowed => exact h _ he ⟨hin, fun hf => absurd hf hfollowed⟩
  | cycle hcycle =>
    obtain ⟨d, ⟨e, he, rfl, hfollowed⟩, hpath⟩ := TransGen.head'_iff.mp hcycle
    refine h e he ⟨hfollowed.included, fun _ => ?_⟩
    exact .cycle (TransGen.tail' hpath ⟨e, he, rfl, hfollowed⟩)
  | dependence hd hevolves =>
    obtain ⟨e, he, rfl, hfollowed⟩ := hd
    exact h e he ⟨hfollowed.included, fun _ => hevolves⟩

theorem reaches_of_not_evolves {i d : V} (h : ¬ Evolves fn l ldg i)
    (hd : DependsOn fn l ldg i d) : Reaches ord fn l ldg i d := by
  obtain ⟨e, he, hsrc, hfollowed⟩ := hd
  obtain ⟨pre, post, hdeps⟩ := append_of_mem ((mem_dependencesOf ord).mpr he)
  refine ⟨pre, e, post, hdeps, fun e' he' hevolving => h ?_, hsrc, hfollowed⟩
  exact ((mem_dependencesOf ord).mp (by simp [hdeps, he'])).evolves hevolving

/-! ## What a search finds -/

variable (fn l ldg) in
/-- What holds while the instructions on the stack are being checked, if what is `Blocked` is not
invariant for another reason. -/
structure Exact (Blocked : V → Prop) (stack : List V) (st : InvarianceChecker V) : Prop where
  isChecked : ∀ i ∈ st.invariants, IsChecked fn l i
  sound : ∀ i ∈ st.invariants, i ∉ stack → ¬ Evolves fn l ldg i ∧ ¬ Blocked i
  claimed : ∀ i ∈ st.invariants, i ∈ stack → isPHI fn l i = true
  evolves : ∀ i ∈ st.notInvariants, Evolves fn l ldg i ∨ Blocked i
  checked : ∀ i ∈ st.dependencyValuesBeingChecked,
    i ∈ st.invariants ∨ i ∈ st.notInvariants ∨ i ∈ stack
  onStack : ∀ i ∈ stack, i ∈ st.dependencyValuesBeingChecked

namespace Exact

variable {Blocked : V → Prop} {stack : List V} {st : InvarianceChecker V} {i : V}

/-- Checking a value puts it on the stack. -/
theorem push (h : Exact fn l ldg Blocked stack st) (hi : IsChecked fn l i)
    (hnot : i ∉ st.invariants) :
    Exact fn l ldg Blocked (i :: stack) { claimPHI fn l st i with
      dependencyValuesBeingChecked := st.dependencyValuesBeingChecked.insert i } where
  isChecked x hx := by
    rcases mem_invariants_claimPHI.mp hx with hx | ⟨rfl, -⟩
    · exact h.isChecked x hx
    · exact hi
  sound x hx hstack := by
    rw [mem_cons, not_or] at hstack
    have hx := (mem_invariants_claimPHI.mp hx).resolve_right fun hxi => hstack.1 hxi.1
    exact h.sound x hx hstack.2
  claimed x hx hstack := by
    rcases mem_invariants_claimPHI.mp hx with hmem | ⟨rfl, hphi⟩
    · rcases mem_cons.mp hstack with rfl | hstack
      · exact absurd hmem hnot
      · exact h.claimed x hmem hstack
    · exact hphi
  evolves x hx := by
    rw [notInvariants_claimPHI] at hx
    exact h.evolves x hx
  checked x hx := by
    rw [mem_invariants_claimPHI, notInvariants_claimPHI, mem_cons]
    rcases mem_insert.mp hx with rfl | hx
    · exact .inr (.inr (.inl rfl))
    · rcases h.checked x hx with hx | hx | hx
      · exact .inl (.inl hx)
      · exact .inr (.inl hx)
      · exact .inr (.inr (.inr hx))
  onStack x hx := by
    rcases mem_cons.mp hx with rfl | hx
    · exact mem_insert.mpr (.inl rfl)
    · exact mem_insert.mpr (.inr (h.onStack x hx))

/-- A checked value that neither evolves nor is blocked is kept as invariant. -/
theorem keep (h : Exact fn l ldg Blocked (i :: stack) st) (hi : IsChecked fn l i)
    (hstack : i ∉ stack) (hsound : ¬ Evolves fn l ldg i ∧ ¬ Blocked i) :
    Exact fn l ldg Blocked stack { st with invariants := st.invariants.insert i } where
  isChecked x hx := by
    rcases mem_insert.mp hx with rfl | hx
    · exact hi
    · exact h.isChecked x hx
  sound x hx hxstack := by
    by_cases hxi : x = i
    · exact hxi ▸ hsound
    · exact h.sound x ((mem_insert.mp hx).resolve_left hxi) (by simp [hxi, hxstack])
  claimed x hx hxstack := by
    have hx := (mem_insert.mp hx).resolve_left fun hxi => hstack (hxi ▸ hxstack)
    exact h.claimed x hx (.tail i hxstack)
  evolves := h.evolves
  checked x hx := by
    rw [mem_insert]
    rcases h.checked x hx with hx | hx | hx
    · exact .inl (.inr hx)
    · exact .inr (.inl hx)
    · rcases mem_cons.mp hx with rfl | hx
      · exact .inl (.inl rfl)
      · exact .inr (.inr hx)
  onStack x hx := h.onStack x (.tail i hx)

/-- A value that evolves or is blocked is given up. -/
theorem retract (h : Exact fn l ldg Blocked (i :: stack) st)
    (hevolves : Evolves fn l ldg i ∨ Blocked i) :
    Exact fn l ldg Blocked stack { st with
      invariants := st.invariants.erase i
      notInvariants := st.notInvariants.insert i } where
  isChecked x hx := h.isChecked x (mem_erase.mp hx).2
  sound x hx hstack := by
    obtain ⟨hxi, hx⟩ := mem_erase.mp hx
    exact h.sound x hx (by simp [hxi, hstack])
  claimed x hx hstack := h.claimed x (mem_erase.mp hx).2 (.tail i hstack)
  evolves x hx := by
    rcases mem_insert.mp hx with rfl | hx
    · exact hevolves
    · exact h.evolves x hx
  checked x hx := by
    rw [mem_erase, mem_insert]
    by_cases hxi : x = i
    · exact .inr (.inl (.inl hxi))
    · rcases h.checked x hx with hx | hx | hx
      · exact .inl ⟨hxi, hx⟩
      · exact .inr (.inl (.inr hx))
      · exact .inr (.inr ((mem_cons.mp hx).resolve_left hxi))
  onStack x hx := h.onStack x (.tail i hx)

end Exact

theorem mem_or_mem_of_append_cons_eq {α : Type} {pre pre' post post' : List α} {a b : α}
    (h : pre ++ a :: post = pre' ++ b :: post') : a ∈ pre' ∨ b ∈ pre ++ [a] := by
  rcases append_eq_append_iff.mp h with ⟨mid, rfl, hmid⟩ | ⟨mid, rfl, hmid⟩
  · cases mid with
    | nil =>
      obtain ⟨rfl, -⟩ := List.cons.inj hmid
      exact .inr (by simp)
    | cons x mid =>
      obtain ⟨rfl, -⟩ := List.cons.inj hmid
      exact .inl (by simp)
  · cases mid with
    | nil =>
      obtain ⟨rfl, -⟩ := List.cons.inj hmid
      exact .inr (by simp)
    | cons x mid =>
      obtain ⟨rfl, -⟩ := List.cons.inj hmid
      exact .inr (by simp)

variable (fn l ldg) in
/-- What a call of `isEvolvingValue` answers. -/
structure ExactCheck (Blocked : V → Prop) (stack : List V) (st : InvarianceChecker V) (toValue : V)
    (dep : DGEdge V) (evolves : Bool) (st' : InvarianceChecker V) : Prop where
  exact : Exact fn l ldg Blocked stack st'
  kept : ∀ x ∈ st.invariants, x ∈ st'.invariants
  evolves_iff : evolves = true ↔ IsEvolving fn l ldg toValue dep
  invariant : evolves = false → isIncluded fn l toValue = true → toValue ∈ st'.invariants

variable (ord fn l ldg) in
/-- The calls at the depth of the recursion answer whether the value evolves, if nothing on the stack
is left out and what is blocked evolves. -/
def Answers (Blocked : V → Prop) (fuel : Nat) : Prop :=
  ∀ {stack st toValue dep b st'}, Exact fn l ldg Blocked stack st →
    (Followed fn l toValue dep → (∀ s ∈ stack, TransGen (DependsOn fn l ldg) s toValue) ∧
      (Blocked toValue → Evolves fn l ldg toValue)) →
    isEvolvingValue ord fn l ldg fuel (some st) toValue dep = (b, some st') →
      ExactCheck fn l ldg Blocked stack st toValue dep b st'

section Recursion

variable {Blocked : V → Prop} {fuel : Nat} {stack : List V} {st st' : InvarianceChecker V} {i : V}
  {b : Bool}

/-- The loop over the dependences of an instruction answers whether it evolves, and finds what it
reaches. -/
theorem exactDependences (hrec : Answers ord fn l ldg Blocked fuel)
    (hblocked : ∀ c, Reaches ord fn l ldg i c → Blocked c → Evolves fn l ldg c)
    (hst : Exact fn l ldg Blocked (i :: stack) st)
    (hstack : ∀ s ∈ stack, TransGen (DependsOn fn l ldg) s i)
    (h : (PDG.iterateOverDependencesTo ord ldg i dataDependences
      (isEvolvingValue ord fn l ldg fuel) (some st)).1 = (b, some st')) :
    Exact fn l ldg Blocked (i :: stack) st' ∧ (∀ x ∈ st.invariants, x ∈ st'.invariants) ∧
      (b = true ↔ Evolves fn l ldg i) ∧
      ∀ c, Reaches ord fn l ldg i c → ¬ Evolves fn l ldg c → c ∈ st'.invariants := by
  -- a dependence that comes after others that do not evolve
  have hcall : ∀ {pre e post st₁ b st₂}, dependencesOf ord ldg i = pre ++ e :: post →
      (∀ e' ∈ pre, ¬ IsEvolving fn l ldg e'.getSrc e') →
      Exact fn l ldg Blocked (i :: stack) st₁ →
      isEvolvingValue ord fn l ldg fuel (some st₁) e.getSrc e = (b, some st₂) →
        ExactCheck fn l ldg Blocked (i :: stack) st₁ e.getSrc e b st₂ := by
    intro pre e post st₁ b st₂ hdeps hpre hst₁ hf
    refine hrec hst₁ (fun hfollowed => ⟨fun s hs => ?_, ?_⟩) hf
    · have hdep : DependsOn fn l ldg i e.getSrc :=
        ⟨e, (mem_dependencesOf ord).mp (by simp [hdeps]), rfl, hfollowed⟩
      rcases mem_cons.mp hs with rfl | hs
      · exact .single hdep
      · exact (hstack s hs).tail hdep
    · exact hblocked _ ⟨pre, e, post, hdeps, hpre, rfl, hfollowed⟩
  have hrule := iterateOverDependencesTo_rule (fun pre s => ∀ st', s = some st' →
    Exact fn l ldg Blocked (i :: stack) st' ∧ (∀ x ∈ st.invariants, x ∈ st'.invariants) ∧
      ∀ e ∈ pre, ¬ IsEvolving fn l ldg e.getSrc e ∧
        (isIncluded fn l e.getSrc = true → e.getSrc ∈ st'.invariants)) ?_ ?_ h
  · rcases hrule with ⟨rfl, hI⟩ | ⟨rfl, pre, e, post, s₁, hdeps, hI, hf⟩
    · obtain ⟨hexact, hkept, hall⟩ := hI st' rfl
      refine ⟨hexact, hkept, iff_of_false Bool.noConfusion ?_, ?_⟩
      · exact not_evolves fun e he => (hall e ((mem_dependencesOf ord).mpr he)).1
      · rintro c ⟨pre, e, post, hdeps, -, rfl, hfollowed⟩ -
        exact (hall e (by simp [hdeps])).2 hfollowed.included
    · cases s₁ with
      | none => simp at hf
      | some st₁ =>
        obtain ⟨hexact, hkept, hall⟩ := hI st₁ rfl
        have hcheck := hcall hdeps (fun e' he' => (hall e' he').1) hexact hf
        have hevolving := hcheck.evolves_iff.mp rfl
        have he : DependsBy ldg i e := (mem_dependencesOf ord).mp (by simp [hdeps])
        refine ⟨hcheck.exact, fun x hx => hcheck.kept x (hkept x hx),
          iff_of_true rfl (he.evolves hevolving), ?_⟩
        rintro c ⟨pre', e', post', hdeps', hpre', rfl, hfollowed⟩ hc
        -- the search ended after the dependence on `c`
        rcases mem_or_mem_of_append_cons_eq (hdeps'.symm.trans hdeps) with hmem | hmem
        · exact hcheck.kept _ ((hall e' hmem).2 hfollowed.included)
        · rcases mem_append.mp hmem with hmem | hmem
          · exact absurd hevolving (hpre' e hmem)
          · obtain rfl := mem_singleton.mp hmem
            exact absurd (hevolving.2 hfollowed) hc
  · rintro st' ⟨⟩
    exact ⟨hst, fun _ hx => hx, nofun⟩
  · rintro pre e post s s₁ hdeps hI hf st₂ rfl
    cases s with
    | none => simp at hf
    | some st₁ =>
      obtain ⟨hexact, hkept, hall⟩ := hI st₁ rfl
      have hcheck := hcall hdeps (fun e' he' => (hall e' he').1) hexact hf
      refine ⟨hcheck.exact, fun x hx => hcheck.kept x (hkept x hx), fun e' he' => ?_⟩
      rcases mem_append.mp he' with he' | he'
      · exact ⟨(hall e' he').1, fun hin => hcheck.kept _ ((hall e' he').2 hin)⟩
      · obtain rfl := mem_singleton.mp he'
        exact ⟨fun h => Bool.false_ne_true (hcheck.evolves_iff.mpr h), hcheck.invariant rfl⟩

end Recursion

/-- The answer is exactly whether a blocked value is reached. -/
theorem isEvolvingValue_exact {Blocked : V → Prop}
    (hacyclic : ∀ i, isPHI fn l i = true → EquivalentIncomingValues fn i →
      ¬ TransGen (DependsOn fn l ldg) i i)
    (hblocked : ∀ w c, IsChecked fn l w → Reaches ord fn l ldg w c → Blocked c →
      Evolves fn l ldg c) :
    ∀ fuel, Answers ord fn l ldg Blocked fuel
  | 0, _, _, _, _, _, _, _, _, h => by
      simp [isEvolvingValue] at h
  | fuel + 1, stack, st, toValue, dep, b, st', hst, hvalue, h => by
      have hsame : ∀ b, (b = true ↔ IsEvolving fn l ldg toValue dep) →
          (b = false → isIncluded fn l toValue = true → toValue ∈ st.invariants) →
          ExactCheck fn l ldg Blocked stack st toValue dep b st := fun b hb hinv =>
        ⟨hst, fun _ hx => hx, hb, hinv⟩
      unfold isEvolvingValue at h
      by_cases hfollowed : Followed fn l toValue dep
      · obtain ⟨hstack, hblockedValue⟩ := hvalue hfollowed
        have hself : TransGen (DependsOn fn l ldg) toValue toValue → isPHI fn l toValue = false := by
          intro hcycle
          by_contra hphi
          rw [Bool.not_eq_false] at hphi
          exact hacyclic toValue hphi (hfollowed.equivalent hphi) hcycle
        have hevolving : IsEvolving fn l ldg toValue dep ↔ Evolves fn l ldg toValue :=
          ⟨fun h => h.2 hfollowed, fun h => ⟨hfollowed.included, fun _ => h⟩⟩
        rw [isKnownToEvolve_of_followed hfollowed] at h
        by_cases hinv : toValue ∈ st.invariants
        · rw [if_pos hinv] at h
          obtain ⟨rfl, ⟨⟩⟩ := Prod.mk.inj h
          -- no claimed PHI is reached again
          have hnot : toValue ∉ stack := fun hmem => Bool.false_ne_true
            ((hself (hstack toValue hmem)).symm.trans (hst.claimed toValue hinv hmem))
          refine hsame _ (iff_of_false Bool.noConfusion fun hev => ?_) fun _ _ => hinv
          exact (hst.sound toValue hinv hnot).1 (hevolving.mp hev)
        rw [if_neg hinv] at h
        by_cases hnot : toValue ∈ st.notInvariants
        · rw [if_pos hnot] at h
          obtain ⟨rfl, ⟨⟩⟩ := Prod.mk.inj h
          exact hsame _ (iff_of_true rfl
            (hevolving.mpr ((hst.evolves toValue hnot).elim id hblockedValue))) fun heq => Bool.noConfusion heq
        rw [if_neg hnot] at h
        dsimp only at h
        simp only [dependencyValuesBeingChecked_claimPHI] at h
        split at h
        next hchecking =>
          obtain ⟨rfl, ⟨⟩⟩ := Prod.mk.inj h
          have hmem : toValue ∈ stack :=
            ((hst.checked toValue hchecking).resolve_left hinv).resolve_left hnot
          rw [claimPHI, hself (hstack toValue hmem)]
          exact hsame _ (iff_of_true rfl (hevolving.mpr (.cycle (hstack toValue hmem)))) fun heq => Bool.noConfusion heq
        next hchecking =>
          have hnotStack : toValue ∉ stack := fun hmem => hchecking (hst.onStack toValue hmem)
          generalize hloop : (PDG.iterateOverDependencesTo ord ldg toValue dataDependences
            (isEvolvingValue ord fn l ldg fuel) _).1 = out at h
          obtain ⟨stop, _ | st₁⟩ := out
          · cases stop <;> cases h
          obtain ⟨hexact, hkept, hstop, -⟩ :=
            exactDependences (isEvolvingValue_exact hacyclic hblocked fuel)
              (hblocked toValue · hfollowed.isChecked) (hst.push hfollowed.isChecked hinv) hstack
              hloop
          have hkept' : ∀ x ∈ st.invariants, x ∈ st₁.invariants := fun x hx =>
            hkept x (mem_invariants_claimPHI.mpr (.inl hx))
          cases stop with
          | true =>
            obtain ⟨rfl, ⟨⟩⟩ := Prod.mk.inj h
            have hev := hstop.mp rfl
            refine ⟨hexact.retract (.inl hev), fun x hx => ?_,
              iff_of_true rfl (hevolving.mpr hev), fun heq => Bool.noConfusion heq⟩
            exact mem_erase.mpr ⟨fun hxi => hinv (hxi ▸ hx), hkept' x hx⟩
          | false =>
            obtain ⟨rfl, ⟨⟩⟩ := Prod.mk.inj h
            have hev : ¬ Evolves fn l ldg toValue := fun hev => Bool.false_ne_true (hstop.mpr hev)
            exact ⟨hexact.keep hfollowed.isChecked hnotStack ⟨hev, fun hb => hev (hblockedValue hb)⟩,
              fun x hx => mem_insert.mpr (.inr (hkept' x hx)),
              iff_of_false Bool.noConfusion fun h => hev (hevolving.mp h),
              fun _ _ => mem_insert.mpr (.inl rfl)⟩
      · rw [isKnownToEvolve_of_not_followed hfollowed] at h
        obtain ⟨rfl, ⟨⟩⟩ := Prod.mk.inj h
        exact hsame _ ⟨fun hin => ⟨hin, fun h => absurd h hfollowed⟩, fun h => h.1⟩
          fun hfalse htrue => absurd (hfalse.symm.trans htrue) Bool.noConfusion

/-! ## The loop over the instructions -/

theorem Exact.start {Blocked : V → Prop} {st : InvarianceChecker V} {inst : V}
    (hst : Exact fn l ldg Blocked [] st) (hchecked : IsChecked fn l inst)
    (hinv : inst ∉ st.invariants) :
    Exact fn l ldg Blocked [inst] (claimPHI fn l
      { st with dependencyValuesBeingChecked := PtrSet.insert ∅ inst } inst) := by
  have hclear : Exact fn l ldg Blocked [] { st with dependencyValuesBeingChecked := ∅ } :=
    ⟨hst.isChecked, hst.sound, hst.claimed, hst.evolves, fun i hi => absurd hi (not_mem_empty i),
      nofun⟩
  have hpush := hclear.push hchecked hinv
  rw [claimPHI_checking] at hpush ⊢
  exact hpush

variable (fn) in
/-- The instruction is not invariant for what it is itself. -/
def IsBlocked (i : V) : Prop :=
  managesMemory (fn.inst i) = true ∨ callsImpureLibraryFunction (fn.inst i) = true

/-- One check finds exactly the invariants it reaches. -/
theorem checkInvariance_exact
    (hacyclic : ∀ i, isPHI fn l i = true → EquivalentIncomingValues fn i →
      ¬ TransGen (DependsOn fn l ldg) i i)
    (hpure : ∀ w c, IsChecked fn l w → Reaches ord fn l ldg w c →
      callsImpureLibraryFunction (fn.inst c) = true → Evolves fn l ldg c)
    {fuel : Nat} {st st' : InvarianceChecker V} {inst : V} (hin : isIncluded fn l inst = true)
    (hst : Exact fn l ldg (IsBlocked fn) [] st)
    (h : checkInvariance ord fn l ldg fuel st inst = some st') :
    Exact fn l ldg (IsBlocked fn) [] st' ∧ (∀ x ∈ st.invariants, x ∈ st'.invariants) ∧
      (IsChecked fn l inst → ¬ Evolves fn l ldg inst → ¬ IsBlocked fn inst →
        inst ∈ st'.invariants) := by
  have hblocked : ∀ w c, IsChecked fn l w → Reaches ord fn l ldg w c → IsBlocked fn c →
      Evolves fn l ldg c := by
    rintro w c hw hreach (hmanages | himpure)
    · obtain ⟨_, _, _, _, _, _, hfollowed⟩ := hreach
      exact absurd (hfollowed.notManagesMemory.symm.trans hmanages) Bool.noConfusion
    · exact hpure w c hw hreach himpure
  unfold checkInvariance at h
  split at h
  next hmanages =>
    have hst' : Exact fn l ldg (IsBlocked fn) []
        { st with notInvariants := st.notInvariants.insert inst } :=
      ⟨hst.isChecked, hst.sound, hst.claimed, fun i hi => by
        rcases mem_insert.mp hi with rfl | hi
        · exact .inr (.inl hmanages)
        · exact hst.evolves i hi,
        fun i hi => (hst.checked i hi).imp_right fun h => .inl <|
          mem_insert.mpr (.inr (h.resolve_right not_mem_nil)), hst.onStack⟩
    exact some.inj h ▸ ⟨hst', fun _ hx => hx, fun _ _ hno => absurd (.inl hmanages) hno⟩
  next hmanages =>
  split at h
  next hphi =>
    obtain ⟨his, hno⟩ := Bool.and_eq_true_iff.mp hphi
    refine some.inj h ▸ ⟨hst, fun _ hx => hx, fun hchecked _ _ => ?_⟩
    rw [Bool.not_eq_true', ← Bool.not_eq_true, arePHIIncomingValuesEquivalent_iff] at hno
    exact absurd (hchecked.equivalent his) hno
  next hphi =>
  split at h
  next hinv => exact some.inj h ▸ ⟨hst, fun _ hx => hx, fun _ _ _ => hinv⟩
  next hinv =>
  split at h
  next hnot =>
    exact some.inj h ▸ ⟨hst, fun _ hx => hx, fun _ hev hno =>
      ((hst.evolves inst hnot).elim hev hno).elim⟩
  have hchecked : IsChecked fn l inst := by
    refine ⟨hin, by simpa using hmanages, fun his => ?_⟩
    rw [← arePHIIncomingValuesEquivalent_iff ord]
    simpa [his] using hphi
  dsimp only at h
  generalize hloop : (PDG.iterateOverDependencesTo ord ldg inst dataDependences
    (isEvolvingValue ord fn l ldg fuel) _).1 = out at h
  obtain ⟨canEvolve, _ | st₁⟩ := out
  · cases h
  obtain ⟨hexact, hkept, hevolve, -⟩ := exactDependences
    (isEvolvingValue_exact hacyclic hblocked fuel) (hblocked inst · hchecked)
    (hst.start hchecked hinv) (fun _ hs => absurd hs not_mem_nil) hloop
  have hkept' : ∀ x ∈ st.invariants, x ∈ st₁.invariants := fun x hx =>
    hkept x (mem_invariants_claimPHI.mpr (.inl hx))
  dsimp only at h
  split at h
  next hcan =>
    have hev : Evolves fn l ldg inst ∨ IsBlocked fn inst :=
      (Bool.or_eq_true_iff.mp hcan).imp hevolve.mp .inr
    refine some.inj h ▸ ⟨hexact.retract hev, fun x hx => ?_, fun _ hno hno' =>
      (hev.elim hno hno').elim⟩
    exact mem_erase.mpr ⟨fun hxi => hinv (hxi ▸ hx), hkept' x hx⟩
  next hcan =>
    rw [Bool.or_eq_true_iff, not_or] at hcan
    have hev : ¬ Evolves fn l ldg inst := fun h => hcan.1 (hevolve.mpr h)
    have hno : ¬ IsBlocked fn inst := fun h => h.elim hmanages hcan.2
    exact some.inj h ▸ ⟨hexact.keep hchecked not_mem_nil ⟨hev, hno⟩,
      fun x hx => mem_insert.mpr (.inr (hkept' x hx)),
      fun _ _ _ => mem_insert.mpr (.inl rfl)⟩

theorem Exact.empty {Blocked : V → Prop} : Exact fn l ldg Blocked [] ({} : InvarianceChecker V) where
  isChecked i hi := absurd hi (not_mem_empty i)
  sound i hi := absurd hi (not_mem_empty i)
  claimed i hi := absurd hi (not_mem_empty i)
  evolves i hi := absurd hi (not_mem_empty i)
  checked i hi := absurd hi (not_mem_empty i)
  onStack _ hi := nomatch hi

/-- What the search from the first instruction that is visited reaches is invariant, if it does not
evolve. -/
theorem mem_checkInvariance_of_reaches
    (hacyclic : ∀ i, isPHI fn l i = true → EquivalentIncomingValues fn i →
      ¬ TransGen (DependsOn fn l ldg) i i)
    {fuel : Nat} {st' : InvarianceChecker V} {w c : V} (hw : IsChecked fn l w)
    (hreach : Reaches ord fn l ldg w c) (hc : ¬ Evolves fn l ldg c)
    (h : checkInvariance ord fn l ldg fuel {} w = some st') : c ∈ st'.invariants := by
  have hcw : c ≠ w := by
    rintro rfl
    obtain ⟨pre, e, post, hdeps, -, hsrc, hfollowed⟩ := hreach
    exact hc (.cycle (.single
      ⟨e, (mem_dependencesOf ord).mp (by simp [hdeps]), hsrc, hfollowed⟩))
  have hphi : (isPHI fn l w && !arePHIIncomingValuesEquivalent ord fn w) = false := by
    cases his : isPHI fn l w with
    | false => rfl
    | true => simp [(arePHIIncomingValuesEquivalent_iff ord).mpr (hw.equivalent his)]
  unfold checkInvariance at h
  rw [hw.notManagesMemory, hphi, if_neg Bool.false_ne_true, if_neg Bool.false_ne_true,
    if_neg (not_mem_empty w), if_neg (not_mem_empty w)] at h
  dsimp only at h
  generalize hloop : (PDG.iterateOverDependencesTo ord ldg w dataDependences
    (isEvolvingValue ord fn l ldg fuel) _).1 = out at h
  obtain ⟨canEvolve, _ | st₁⟩ := out
  · cases h
  have hrec : Answers ord fn l ldg (fun _ => False) fuel :=
    isEvolvingValue_exact hacyclic (fun _ _ _ _ => False.elim) fuel
  obtain ⟨-, -, -, hfound⟩ := exactDependences hrec (fun _ _ => False.elim)
    (Exact.empty.start hw (not_mem_empty w)) (fun _ hs => absurd hs not_mem_nil) hloop
  have hmem := hfound c hreach hc
  dsimp only at h
  split at h
  · exact some.inj h ▸ mem_erase.mpr ⟨hcw, hmem⟩
  · exact some.inj h ▸ mem_insert.mpr (.inr hmem)

variable (fn l ldg) in
/-- What is found if no search reaches a call that it should not. -/
structure IsInvariant (i : V) : Prop where
  isChecked : IsChecked fn l i
  not_evolves : ¬ Evolves fn l ldg i
  not_blocked : ¬ IsBlocked fn i

theorem IsInvariant.of_dependsInLoop {i d : V}
    (hpure : ∀ w c, IsChecked fn l w → Reaches ord fn l ldg w c →
      callsImpureLibraryFunction (fn.inst c) = true → Evolves fn l ldg c)
    (h : IsInvariant fn l ldg i) (hd : DependsInLoop fn l ldg i d) : IsInvariant fn l ldg d := by
  obtain ⟨e, he, rfl, hin⟩ := hd
  -- a dependence that is not followed would make `i` evolve
  have hfollowed : Followed fn l e.getSrc e := by
    by_contra hno
    exact h.not_evolves (.direct he hin hno)
  have hdep : DependsOn fn l ldg i e.getSrc := ⟨e, he, rfl, hfollowed⟩
  have hev : ¬ Evolves fn l ldg e.getSrc := fun hev => h.not_evolves (.dependence hdep hev)
  refine ⟨hfollowed.isChecked, hev, ?_⟩
  rintro (hmanages | himpure)
  · exact absurd (hfollowed.notManagesMemory.symm.trans hmanages) Bool.noConfusion
  · exact hev (hpure i _ h.isChecked (reaches_of_not_evolves h.not_evolves hdep) himpure)

/-- Two orders find the same invariants. -/
theorem findInvariantsInOrder_eq {fuel : Nat} (hssa : SSAForm fn l ldg)
    (hfuel : (getInstructions fn l).size < fuel)
    (hpure : ∀ w c, IsChecked fn l w → Reaches ord fn l ldg w c →
      callsImpureLibraryFunction (fn.inst c) = true → Evolves fn l ldg c)
    {instructions : List V} (hperm : instructions.Perm (getInstructions fn l).elems) :
    ∃ invariants, findInvariantsInOrder ord fn l ldg fuel instructions = some invariants ∧
      ∀ i, i ∈ invariants ↔ IsInvariant fn l ldg i := by
  obtain ⟨st, hst, hexact, hfound⟩ := foldlM_rule (checkInvariance ord fn l ldg fuel)
    (fun pre st => Exact fn l ldg (IsBlocked fn) [] st ∧ ∀ i ∈ pre, IsInvariant fn l ldg i →
      i ∈ st.invariants)
    (l := instructions) (s := {}) ⟨.empty, nofun⟩
    fun pre inst post st hl hI => by
      obtain ⟨st', h⟩ := checkInvariance_some ord ldg hfuel st inst
      have hin : isIncluded fn l inst = true :=
        mem_getInstructions.mp (hperm.mem_iff.mp (by simp [hl]))
      obtain ⟨hexact, hkept, hinst⟩ := checkInvariance_exact hssa.not_transGen hpure hin hI.1 h
      refine ⟨st', h, hexact, fun i hi hinv => ?_⟩
      rcases mem_append.mp hi with hi | hi
      · exact hkept i (hI.2 i hi hinv)
      · obtain rfl := mem_singleton.mp hi
        exact hinst hinv.isChecked hinv.not_evolves hinv.not_blocked
  refine ⟨st.invariants, by rw [findInvariantsInOrder, hst]; rfl, fun i => ?_⟩
  constructor
  · intro hi
    obtain ⟨hev, hno⟩ := hexact.sound i hi not_mem_nil
    exact ⟨hexact.isChecked i hi, hev, hno⟩
  · intro hinv
    have hmem := hperm.mem_iff.mpr (mem_getInstructions.mpr hinv.isChecked.included)
    exact hfound i hmem hinv

theorem mem_findInvariantsInOrder_of_reaches {fuel : Nat} (hssa : SSAForm fn l ldg) {w c : V}
    (hw : IsChecked fn l w) (hreach : Reaches ord fn l ldg w c) (hc : ¬ Evolves fn l ldg c)
    {instructions : List V} {invariants : PtrSet V}
    (h : findInvariantsInOrder ord fn l ldg fuel (w :: instructions) = some invariants) :
    c ∈ invariants := by
  obtain ⟨st, hst, rfl⟩ := map_eq_some_iff.mp h
  rw [foldlM_cons] at hst
  obtain ⟨st₁, hst₁, hrest⟩ := bind_eq_some_iff.mp hst
  have hfirst : Searching fn l ldg [] st₁ ∧ c ∈ st₁.invariants :=
    ⟨(checkInvariance_searching hssa.not_transGen .empty hst₁).1,
      mem_checkInvariance_of_reaches hssa.not_transGen hw hreach hc hst₁⟩
  have hlast := foldlM_preserves _ (fun st => Searching fn l ldg [] st ∧ c ∈ st.invariants) _ _ _
    (fun _ _ _ _ h hst => by
      obtain ⟨hsearching, hkept⟩ := checkInvariance_searching hssa.not_transGen hst.1 h
      exact ⟨hsearching, hkept c hst.2⟩) hrest hfirst
  exact hlast.2

/-- The invariants do not depend on the order of the instructions, and are free of calls to library
functions that are not pure, if and only if every such call that a search can begin with a
dependence on evolves for another reason. -/
theorem isOrderIndependent_iff (ord : IterOrder) (fn : InvariantFunction V B)
    (l : LoopStructure F B) (ldg : PDG V) {fuel : Nat} (hssa : SSAForm fn l ldg)
    (hfuel : (getInstructions fn l).size < fuel) :
    IsOrderIndependent ord fn l ldg fuel ↔
      ∀ w c, IsChecked fn l w → Reaches ord fn l ldg w c →
        callsImpureLibraryFunction (fn.inst c) = true → Evolves fn l ldg c := by
  constructor
  · rintro ⟨S, hall, hfree⟩ w c hw hreach himpure
    by_contra hc
    -- visit `w` first
    have hperm := (perm_cons_erase (mem_getInstructions.mpr hw.included)).symm
    obtain ⟨invariants, hfind, hmem⟩ := hall _ hperm
    have hfound := mem_findInvariantsInOrder_of_reaches hssa hw hreach hc hfind
    exact Bool.false_ne_true ((hfree c ((hmem c).mp hfound) c .refl).symm.trans himpure)
  · intro hpure
    refine ⟨IsInvariant fn l ldg, fun _ => findInvariantsInOrder_eq hssa hfuel hpure, ?_⟩
    intro i hi c hpath
    have hc : IsInvariant fn l ldg c := by
      induction hpath with
      | refl => exact hi
      | tail _ hstep ih => exact ih.of_dependsInLoop hpure hstep
    exact Bool.eq_false_iff.mpr fun himpure => hc.not_blocked (.inr himpure)

theorem isOrderIndependent_callSinf : SSAForm callSinf callSinfLoop callSinfLDG ∧
    (IsOrderIndependent .stored callSinf callSinfLoop callSinfLDG 4 ↔
      ∀ w c, IsChecked callSinf callSinfLoop w →
        Reaches .stored callSinf callSinfLoop callSinfLDG w c →
          callsImpureLibraryFunction (callSinf.inst c) = true →
            Evolves callSinf callSinfLoop callSinfLDG c) :=
  ⟨callSinf_ssaForm _,
    isOrderIndependent_iff .stored callSinf callSinfLoop callSinfLDG (callSinf_ssaForm _) (by decide)⟩

/-- The call is invariant if its user is visited first. -/
theorem callSinf_orders : SSAForm callSinf callSinfLoop callSinfLDG ∧
    ¬ IsOrderIndependent .stored callSinf callSinfLoop callSinfLDG 4 := by
  refine ⟨callSinf_ssaForm _, ?_⟩
  rintro ⟨S, hall, -⟩
  obtain ⟨found, hfound, hmem⟩ := hall [.call, .phi, .user] (by decide)
  obtain ⟨found', hfound', hmem'⟩ := hall [.user, .phi, .call] (by decide)
  obtain rfl : ∅ = found := some.inj (Eq.trans (by decide) hfound)
  obtain rfl : PtrSet.ofList [.phi, .call, .user] = found' :=
    some.inj (Eq.trans (by decide) hfound')
  exact absurd ((hmem .call).mpr ((hmem' .call).mp (by decide))) (by decide)

end InvariantManager

end Noelle
