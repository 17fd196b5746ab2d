import Noelle.LoopInvariantCodeMotion.Preservation

/-!
# LoopInvariantCodeMotion.Retraction

Is what `hoistInvariantValues` hoists closed under dependences?

The second phase tags an invariant while its conditions are tagged or pending.  When it gives up an
invariant, it also drops what is conditioned to that one, and retracts the tags of these; what is
conditioned to *them* keeps its tag.  `Strands` is this event.  `Supported` is what every run
without it keeps, over any dependence graph, with cycles or without.
-/

namespace Noelle

open Relation List Option

namespace LoopInvariantCodeMotion

variable {F V B : Type} [DecidableEq V] {ord : IterOrder} {fn : InvariantFunction V B}
  {l : LoopStructure F B} {ldg : PDG V} {st st' st₁ : Hoisting V B} {x : V}

/-! ## Giving up an invariant -/

/-- Giving up the invariant drops a condition of a tagged instruction that keeps its tag. -/
def Strands (st : Hoisting V B) (x : V) : Prop :=
  ∃ c ∈ st.instructionsToHoistToPreheader, c ∉ conditionedTo st x ∧
    ∃ conds, st.conditionalHoisting.lookup c = some conds ∧ ∃ b ∈ conds, b ∈ conditionedTo st x

/-- One run over the map that gives up an invariant. -/
def Pass (ord : IterOrder) (st st' : Hoisting V B) : Prop :=
  ∃ st₁ x, givenUp (ord.visit st.conditionalHoisting.entries) st = some (st₁, x) ∧
    st' = removeInvariant st₁ x

/-- No run over the map strands an instruction. -/
def StrandsNothing (ord : IterOrder) (st : Hoisting V B) : Prop :=
  ∀ st', ReflTransGen (Pass ord) st st' → ∀ st₁ x,
    givenUp (ord.visit st'.conditionalHoisting.entries) st' = some (st₁, x) → ¬ Strands st₁ x

/-! ## What is kept -/

variable (ord fn l ldg) in
/-- The tagged instructions have their dependences tagged or pending. -/
structure Supported (st : Hoisting V B) : Prop where
  nodup : st.instructionsToHoistToPreheader.Nodup
  recorded : ∀ c conds, st.conditionalHoisting.lookup c = some conds →
    ∀ d ∈ deps ord fn l ldg c, d ∈ conds
  pending : ∀ c ∈ st.instructionsToHoistToPreheader, deps ord fn l ldg c ≠ [] →
    c ∈ st.conditionalHoisting
  supported : ∀ c ∈ st.instructionsToHoistToPreheader, ∀ d ∈ deps ord fn l ldg c,
    d ∈ st.instructionsToHoistToPreheader ∨ d ∈ st.conditionalHoisting

theorem Supported.push (h : Supported ord fn l ldg st) {conds : PtrSet V}
    (hx : st.conditionalHoisting.lookup x = some conds)
    (hmem : x ∉ st.instructionsToHoistToPreheader)
    (hmet : ∀ d ∈ conds, d ∈ st.instructionsToHoistToPreheader ∨ d ∈ st.conditionalHoisting) :
    Supported ord fn l ldg { st with
      instructionsToHoistToPreheader := st.instructionsToHoistToPreheader ++ [x]
      modified := true } where
  nodup := h.nodup.append (nodup_singleton x) (by simpa using hmem)
  recorded := h.recorded
  pending c hc hdeps := by
    rcases mem_append.mp hc with hc | hc
    · exact h.pending c hc hdeps
    · obtain rfl := mem_singleton.mp hc
      exact AList.lookup_isSome.mp (by rw [hx]; rfl)
  supported c hc d hd := by
    rcases mem_append.mp hc with hc | hc
    · exact (h.supported c hc d hd).imp_left (mem_append_left _)
    · obtain rfl := mem_singleton.mp hc
      exact (hmet d (h.recorded c conds hx d hd)).imp_left (mem_append_left _)

/-- Giving up an instruction that strands none keeps the others supported. -/
theorem Supported.remove (h : Supported ord fn l ldg st)
    (hmem : x ∉ st.instructionsToHoistToPreheader) (hstrands : ¬ Strands st x) :
    Supported ord fn l ldg (removeInvariant st x) where
  nodup := nodup_foldl_erase h.nodup
  recorded c conds hc := by
    rw [lookup_removeInvariant] at hc
    split at hc
    · cases hc
    · exact h.recorded c conds hc
  pending c hc hdeps := by
    obtain ⟨hc, hdel⟩ := (mem_removeInvariant_tagged h.nodup).mp hc
    exact mem_removeInvariant_conditional.mpr
      ⟨⟨fun heq => hmem (heq ▸ hc), hdel⟩, h.pending c hc hdeps⟩
  supported c hc d hd := by
    obtain ⟨hc, hdel⟩ := (mem_removeInvariant_tagged h.nodup).mp hc
    have hne : c ≠ x := fun heq => hmem (heq ▸ hc)
    obtain ⟨conds, hconds⟩ := isSome_iff_exists.mp
      (AList.lookup_isSome.mpr (h.pending c hc (ne_nil_of_mem hd)))
    have hrecorded := h.recorded c conds hconds d hd
    -- neither the invariant nor what goes with it is a condition of what stays
    have hdx : d ≠ x := fun heq => hdel (mem_conditionedTo.mpr ⟨hne, conds, hconds, heq ▸ hrecorded⟩)
    have hddel : d ∉ conditionedTo st x := fun hmem =>
      hstrands ⟨c, hc, hdel, conds, hconds, d, hrecorded, hmem⟩
    rw [mem_removeInvariant_tagged h.nodup, mem_removeInvariant_conditional]
    exact (h.supported c hc d hd).imp (fun hd => ⟨hd, hddel⟩) fun hd => ⟨⟨hdx, hddel⟩, hd⟩

/-! ## The runs over the map -/

/-- Nothing but tags is added, and nothing else changes. -/
structure Within (st₁ st : Hoisting V B) : Prop where
  tagged : ∀ c ∈ st.instructionsToHoistToPreheader,
    c ∈ st₁.instructionsToHoistToPreheader ∨ c ∈ st₁.conditionalHoisting
  conditional : ∀ c ∈ st.conditionalHoisting, c ∈ st₁.conditionalHoisting
  code_eq : st.code = st₁.code
  phisToRemove_eq : st.phisToRemove = st₁.phisToRemove

theorem Within.push (h : Within st₁ st) {conds : PtrSet V}
    (hx : st.conditionalHoisting.lookup x = some conds) : Within st₁ { st with
      instructionsToHoistToPreheader := st.instructionsToHoistToPreheader ++ [x]
      modified := true } where
  tagged c hc := by
    rcases mem_append.mp hc with hc | hc
    · exact h.tagged c hc
    · obtain rfl := mem_singleton.mp hc
      exact .inr (h.conditional _ (AList.lookup_isSome.mp (by rw [hx]; rfl)))
  conditional := h.conditional
  code_eq := h.code_eq
  phisToRemove_eq := h.phisToRemove_eq

theorem Within.remove (h : Within st₁ st) (hnodup : st.instructionsToHoistToPreheader.Nodup) (x : V) :
    Within st₁ (removeInvariant st x) where
  tagged c hc := h.tagged c ((mem_removeInvariant_tagged hnodup).mp hc).1
  conditional c hc := h.conditional c (mem_removeInvariant_conditional.mp hc).2
  code_eq := h.code_eq
  phisToRemove_eq := h.phisToRemove_eq

section Identify

variable {isLoopInvariant : V → Bool} {DS : DominatorQueries V B}

section

variable (h : st.instructionsToHoistToPreheader.Nodup)

include h

end

end Identify

/-! ## What is hoisted -/

variable (ord fn l ldg) in
/-- When what the second phase leaves is closed: the first phase has recorded the dependences of
what it found as conditions, the second one strands nothing, and dependences follow dominance. -/
structure ClosesUnderDependences (DS : DominatorQueries V B) (st : Hoisting V B) : Prop where
  recorded : ∀ c conds, st.conditionalHoisting.lookup c = some conds →
    ∀ d ∈ deps ord fn l ldg c, d ∈ conds
  unconditional : ∀ c ∈ st.instructionsToHoistToPreheader, deps ord fn l ldg c = []
  strandsNothing : StrandsNothing ord st
  ordered : ∀ c, c ∈ st.instructionsToHoistToPreheader ∨ c ∈ st.conditionalHoisting →
    ∀ d ∈ deps ord fn l ldg c, d ≠ c ∧ DS.dominates d c = true

/-- With short chains no step strands an instruction. -/
theorem Conditioned.strandsNothing {isLoopInvariant : V → Bool}
    (hchains : ShortChains ord fn l isLoopInvariant ldg)
    (h : Conditioned ord fn l isLoopInvariant ldg st) : StrandsNothing ord st := by
  have hgiven : ∀ st', Conditioned ord fn l isLoopInvariant ldg st' → ∀ st₁ x,
      givenUp (ord.visit st'.conditionalHoisting.entries) st' = some (st₁, x) →
        Conditioned ord fn l isLoopInvariant ldg st₁ ∧ Unmet st₁ x := fun st' hst' =>
    (checkInvariants_rule (P := Conditioned ord fn l isLoopInvariant ldg)
      (fun _ _ _ hst hx hmem hmet => hst.push hx hmem hmet) _ st' hst'
      (fun p hp => lookup_of_mem_visit ord hp) fun _ _ _ hst hx => hst.remove hchains hx).2.2
  intro st' hreach
  have hst' : Conditioned ord fn l isLoopInvariant ldg st' := by
    induction hreach with
    | refl => exact h
    | tail _ hpass ih =>
        obtain ⟨st₁, x, hst₁, rfl⟩ := hpass
        obtain ⟨hcond, hunmet⟩ := hgiven _ ih st₁ x hst₁
        exact hcond.remove hchains hunmet
  rintro st₁ x hst₁ ⟨c, hc, hdel, conds, hconds, b, hb, hbdel⟩
  obtain ⟨hcond, hunmet⟩ := hgiven st' hst' st₁ x hst₁
  obtain ⟨hbcand, hxb⟩ := hcond.mem_deps_of_mem_conditionedTo hbdel
  obtain ⟨hccand, ⟨-, hsame⟩ | ⟨-, hself⟩⟩ := hcond.conditional c conds hconds
  · exact hcond.not_mem_deps hchains hunmet hccand ((hsame b).mp hb) hbcand hxb
  · exact hdel (hself b hb ▸ hbdel)

theorem ClosesUnderDependences.supported {DS : DominatorQueries V B}
    (h : ClosesUnderDependences ord fn l ldg DS st)
    (hnodup : st.instructionsToHoistToPreheader.Nodup) : Supported ord fn l ldg st where
  nodup := hnodup
  recorded := h.recorded
  pending c hc hdeps := absurd (h.unconditional c hc) hdeps
  supported c hc d hd := by
    rw [h.unconditional c hc] at hd
    cases hd

section Hoist

variable [DecidableEq B] {isLoopInvariant : V → Bool} {preHeader : B}

end Hoist

/-! ## A chain of increments -/

section Increments

end Increments

end LoopInvariantCodeMotion

end Noelle
