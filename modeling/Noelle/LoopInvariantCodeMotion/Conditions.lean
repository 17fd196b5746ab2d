import Noelle.LoopInvariantCodeMotion.Selection

/-!
# LoopInvariantCodeMotion.Conditions

The second phase of `hoistInvariantValues`, over the invariants that can only conditionally be
hoisted.

`Conditioned` is what it keeps.  `checkConditions_spec` is the whole phase: it ends, and then
`Conditioned.mem_iff` says that what is tagged is what is hoistable.
-/

namespace Noelle

open List

namespace LoopInvariantCodeMotion

variable {F V B : Type} [DecidableEq V] {ord : IterOrder} {fn : InvariantFunction V B}
  {l : LoopStructure F B} {isLoopInvariant : V → Bool} {ldg : PDG V}

/-! ## The invariant -/

variable (ord fn l isLoopInvariant ldg) in
/-- The candidate depends on an instruction of the loop that is none. -/
def Blocked (x : V) : Prop :=
  Candidate ord fn l isLoopInvariant ldg x ∧
    ∃ d ∈ deps ord fn l ldg x, ¬ Candidate ord fn l isLoopInvariant ldg d

variable (ord fn l isLoopInvariant ldg) in
/-- What the second phase keeps: only candidates are tagged, none of them blocked; one that depends on
a blocked one is not given up before that one is; the others are not given up at all. -/
structure Conditioned (st : Hoisting V B) : Prop where
  nodup : st.instructionsToHoistToPreheader.Nodup
  tagged : ∀ x ∈ st.instructionsToHoistToPreheader,
    Candidate ord fn l isLoopInvariant ldg x ∧ ¬ Blocked ord fn l isLoopInvariant ldg x
  conditional : ∀ x conds, st.conditionalHoisting.lookup x = some conds →
    Candidate ord fn l isLoopInvariant ldg x ∧ IsCondition ord fn l ldg x conds
  unconditional : ∀ x, Candidate ord fn l isLoopInvariant ldg x → deps ord fn l ldg x = [] →
    x ∈ st.instructionsToHoistToPreheader
  pending : ∀ x ∈ st.instructionsToHoistToPreheader, ∀ d ∈ deps ord fn l ldg x,
    Blocked ord fn l isLoopInvariant ldg d →
      x ∈ st.conditionalHoisting ∧ d ∈ st.conditionalHoisting
  kept : ∀ x, Candidate ord fn l isLoopInvariant ldg x →
    ¬ Blocked ord fn l isLoopInvariant ldg x →
    (∀ d ∈ deps ord fn l ldg x, ¬ Blocked ord fn l isLoopInvariant ldg d) →
      x ∈ st.instructionsToHoistToPreheader ∨ x ∈ st.conditionalHoisting

theorem Identified.conditioned {st : Hoisting V B}
    (h : Identified ord fn l isLoopInvariant ldg (fun x => ∃ b ∈ l.bbs, x ∈ fn.code.body b) st) :
    Conditioned ord fn l isLoopInvariant ldg st where
  nodup := h.nodup
  tagged x hx := by
    obtain ⟨hcand, hnil⟩ := h.tagged x hx
    refine ⟨hcand, ?_⟩
    rintro ⟨-, d, hd, -⟩
    rw [hnil] at hd
    cases hd
  conditional := h.conditional
  unconditional x hcand := (h.complete x hcand.body hcand).1
  pending x hx d hd := by
    rw [(h.tagged x hx).2] at hd
    cases hd
  kept x hcand _ _ := by
    obtain ⟨hnil, hcons⟩ := h.complete x hcand.body hcand
    by_cases hdeps : deps ord fn l ldg x = []
    · exact .inl (hnil hdeps)
    · exact .inr (hcons hdeps)

namespace Conditioned

variable {st : Hoisting V B}

theorem mem_conds (h : Conditioned ord fn l isLoopInvariant ldg st) {x : V} {conds : PtrSet V}
    (hx : st.conditionalHoisting.lookup x = some conds)
    (hmem : x ∉ st.instructionsToHoistToPreheader) (d : V) :
    d ∈ conds ↔ d ∈ deps ord fn l ldg x := by
  obtain ⟨hcand, ⟨-, hsame⟩ | ⟨hnil, -⟩⟩ := h.conditional x conds hx
  · exact hsame d
  · exact absurd (h.unconditional x hcand hnil) hmem

/-- An instruction whose conditions are met is tagged. -/
theorem push (h : Conditioned ord fn l isLoopInvariant ldg st) {x : V} {conds : PtrSet V}
    (hx : st.conditionalHoisting.lookup x = some conds)
    (hmem : x ∉ st.instructionsToHoistToPreheader)
    (hmet : ∀ d ∈ conds, d ∈ st.instructionsToHoistToPreheader ∨ d ∈ st.conditionalHoisting) :
    Conditioned ord fn l isLoopInvariant ldg { st with
      instructionsToHoistToPreheader := st.instructionsToHoistToPreheader ++ [x]
      modified := true } := by
  obtain ⟨hcand, -⟩ := h.conditional x conds hx
  have hsame := h.mem_conds hx hmem
  have hcandidate : ∀ d, d ∈ st.conditionalHoisting → Candidate ord fn l isLoopInvariant ldg d := by
    intro d hd
    obtain ⟨c, hc⟩ := Option.isSome_iff_exists.mp (AList.lookup_isSome.mpr hd)
    exact (h.conditional d c hc).1
  have hnotBlocked : ¬ Blocked ord fn l isLoopInvariant ldg x := by
    rintro ⟨-, d, hd, hnot⟩
    rcases hmet d ((hsame d).mpr hd) with hd | hd
    · exact hnot (h.tagged d hd).1
    · exact hnot (hcandidate d hd)
  refine ⟨h.nodup.append (nodup_singleton x) (by simpa using hmem), fun y hy => ?_,
    h.conditional, fun y hy hnil => mem_append_left _ (h.unconditional y hy hnil),
    fun y hy d hd hblocked => ?_, fun y hy hnot hdeps => ?_⟩
  · rcases mem_append.mp hy with hy | hy
    · exact h.tagged y hy
    · obtain rfl := mem_singleton.mp hy
      exact ⟨hcand, hnotBlocked⟩
  · rcases mem_append.mp hy with hy | hy
    · exact h.pending y hy d hd hblocked
    · obtain rfl := mem_singleton.mp hy
      refine ⟨AList.lookup_isSome.mp (by rw [hx]; rfl), ?_⟩
      exact (hmet d ((hsame d).mpr hd)).resolve_left fun hd => (h.tagged d hd).2 hblocked
  · exact (h.kept y hy hnot hdeps).imp_left (mem_append_left _)

end Conditioned

variable {xs l' : List V} {x y : V} {β : Type} {m : AList fun _ : V => β} {st : Hoisting V B}

theorem mem_foldl_erase (hl : l'.Nodup) :
    x ∈ xs.foldl (fun l inst => l.erase inst) l' ↔ x ∈ l' ∧ x ∉ xs := by
  induction xs generalizing l' with
  | nil => simp
  | cons y xs ih =>
    rw [foldl_cons, ih (hl.erase y), hl.mem_erase_iff]
    simp only [mem_cons, not_or]
    tauto

theorem nodup_foldl_erase (hl : l'.Nodup) :
    (xs.foldl (fun l inst => l.erase inst) l').Nodup := by
  induction xs generalizing l' with
  | nil => exact hl
  | cons y xs ih => exact ih (hl.erase y)

theorem lookup_foldl_erase :
    (xs.foldl (fun m inst => m.erase inst) m).lookup x = if x ∈ xs then none else m.lookup x := by
  induction xs generalizing m with
  | nil => simp
  | cons y xs ih =>
    rw [foldl_cons, ih]
    by_cases hxs : x ∈ xs
    · simp [hxs]
    · by_cases hxy : x = y
      · subst hxy
        simp
      · simp [hxs, hxy, AList.lookup_erase_ne hxy]

theorem length_keys_foldl_erase :
    (xs.foldl (fun m inst => m.erase inst) m).keys.length ≤ m.keys.length := by
  induction xs generalizing m with
  | nil => exact le_refl _
  | cons y xs ih =>
    refine ih.trans ?_
    rw [AList.keys_erase]
    exact length_erase_le

/-- What is removed together with an invariant. -/
def conditionedTo (st : Hoisting V B) (x : V) : List V :=
  ((st.conditionalHoisting.erase x).entries.filter fun p2 => decide (x ∈ p2.2)).map (·.1)

theorem mem_conditionedTo : y ∈ conditionedTo st x ↔
    y ≠ x ∧ ∃ conds, st.conditionalHoisting.lookup y = some conds ∧ x ∈ conds := by
  simp only [conditionedTo, mem_map, mem_filter, decide_eq_true_eq]
  constructor
  · rintro ⟨⟨y', conds⟩, ⟨hmem, hx⟩, rfl⟩
    have hlookup : (st.conditionalHoisting.erase x).lookup y' = some conds :=
      AList.mem_lookup_iff.mpr hmem
    have hne : y' ≠ x := by
      rintro rfl
      rw [AList.lookup_erase] at hlookup
      cases hlookup
    exact ⟨hne, conds, by rwa [AList.lookup_erase_ne hne] at hlookup, hx⟩
  · rintro ⟨hne, conds, hlookup, hx⟩
    refine ⟨⟨y, conds⟩, ⟨AList.mem_lookup_iff.mp ?_, hx⟩, rfl⟩
    rw [AList.lookup_erase_ne hne]
    exact hlookup

theorem lookup_removeInvariant :
    (removeInvariant st x).conditionalHoisting.lookup y =
      if y = x ∨ y ∈ conditionedTo st x then none else st.conditionalHoisting.lookup y := by
  show ((conditionedTo st x).foldl (fun m inst => m.erase inst)
    (st.conditionalHoisting.erase x)).lookup y = _
  rw [lookup_foldl_erase]
  by_cases hmem : y ∈ conditionedTo st x
  · simp [hmem]
  · by_cases hyx : y = x
    · subst hyx
      simp
    · simp [hmem, hyx, AList.lookup_erase_ne hyx]

theorem mem_removeInvariant_tagged (hnodup : st.instructionsToHoistToPreheader.Nodup) :
    y ∈ (removeInvariant st x).instructionsToHoistToPreheader ↔
      y ∈ st.instructionsToHoistToPreheader ∧ y ∉ conditionedTo st x :=
  mem_foldl_erase hnodup

theorem mem_removeInvariant_conditional :
    y ∈ (removeInvariant st x).conditionalHoisting ↔
      (y ≠ x ∧ y ∉ conditionedTo st x) ∧ y ∈ st.conditionalHoisting := by
  rw [← AList.lookup_isSome, lookup_removeInvariant, ← AList.lookup_isSome]
  by_cases hy : y = x ∨ y ∈ conditionedTo st x
  · simp only [hy, if_true, Option.isSome_none, Bool.false_eq_true, false_iff, not_and]
    intro hnot
    tauto
  · simp only [hy, if_false]
    tauto

/-- The invariant is pending, and one of its conditions is neither tagged nor pending. -/
structure Unmet (st : Hoisting V B) (x : V) : Prop where
  untagged : x ∉ st.instructionsToHoistToPreheader
  condition : ∃ conds, st.conditionalHoisting.lookup x = some conds ∧ ∃ d ∈ conds,
    d ∉ st.instructionsToHoistToPreheader ∧ d ∉ st.conditionalHoisting

namespace Conditioned

variable {st : Hoisting V B} {x y z e : V}

section

variable (hchains : ShortChains ord fn l isLoopInvariant ldg)
  (h : Conditioned ord fn l isLoopInvariant ldg st) (hx : Unmet st x)

include hchains h hx

theorem blocked_of_unmet :
    Candidate ord fn l isLoopInvariant ldg x ∧ (Blocked ord fn l isLoopInvariant ldg x ∨
      ∃ e ∈ deps ord fn l ldg x, Blocked ord fn l isLoopInvariant ldg e) := by
  obtain ⟨hmem, conds, hconds, d, hd, hdtag, hdcond⟩ := hx
  obtain ⟨hcand, -⟩ := h.conditional x conds hconds
  refine ⟨hcand, ?_⟩
  have hdep : d ∈ deps ord fn l ldg x := (h.mem_conds hconds hmem d).mp hd
  by_cases hdcand : Candidate ord fn l isLoopInvariant ldg d
  · by_cases hdblocked : Blocked ord fn l isLoopInvariant ldg d
    · exact .inr ⟨d, hdep, hdblocked⟩
    · have hfar : ∀ e ∈ deps ord fn l ldg d, ¬ Blocked ord fn l isLoopInvariant ldg e := by
        rintro e he ⟨hecand, e', he', hnot⟩
        exact hnot (hchains x d e hcand hdep hdcand he hecand e' he')
      rcases h.kept d hdcand hdblocked hfar with hd | hd
      · exact absurd hd hdtag
      · exact absurd hd hdcond
  · exact .inl ⟨hcand, d, hdep, hdcand⟩

theorem blocked_of_mem_deps (hz : Candidate ord fn l isLoopInvariant ldg z)
    (hxz : x ∈ deps ord fn l ldg z) :
    Blocked ord fn l isLoopInvariant ldg x := by
  obtain ⟨hcand, hreason⟩ := h.blocked_of_unmet hchains hx
  refine hreason.resolve_right ?_
  rintro ⟨e, he, hecand, e', he', hnot⟩
  exact hnot (hchains z x e hz hxz hcand he hecand e' he')

theorem not_mem_deps (hz : Candidate ord fn l isLoopInvariant ldg z) (hez : e ∈ deps ord fn l ldg z)
    (he : Candidate ord fn l isLoopInvariant ldg e) : x ∉ deps ord fn l ldg e := by
  intro hxe
  obtain ⟨hcand, e', he', hnot⟩ := h.blocked_of_mem_deps hchains hx he hxe
  exact hnot (hchains z e x hz hez he hxe hcand e' he')

end

theorem mem_deps_of_mem_conditionedTo (h : Conditioned ord fn l isLoopInvariant ldg st)
    (hy : y ∈ conditionedTo st x) :
    Candidate ord fn l isLoopInvariant ldg y ∧ x ∈ deps ord fn l ldg y := by
  obtain ⟨hne, c, hc, hxc⟩ := mem_conditionedTo.mp hy
  obtain ⟨hycand, ⟨-, hsame⟩ | ⟨-, hself⟩⟩ := h.conditional y c hc
  · exact ⟨hycand, (hsame x).mp hxc⟩
  · exact absurd (hself x hxc).symm hne

/-- Removing an unmet instruction keeps the others conditioned. -/
theorem remove (hchains : ShortChains ord fn l isLoopInvariant ldg)
    (h : Conditioned ord fn l isLoopInvariant ldg st) (hx : Unmet st x) :
    Conditioned ord fn l isLoopInvariant ldg (removeInvariant st x) := by
  have hmem := hx.untagged
  obtain ⟨-, hreason⟩ := h.blocked_of_unmet hchains hx
  refine ⟨nodup_foldl_erase h.nodup,
    fun y hy => h.tagged y ((mem_removeInvariant_tagged h.nodup).mp hy).1, fun y c hy => ?_,
    fun y hy hnil => (mem_removeInvariant_tagged h.nodup).mpr
      ⟨h.unconditional y hy hnil, fun hdel => ?_⟩,
    fun y hy e he hblocked => ?_, fun y hy hnot hfar => ?_⟩
  · rw [lookup_removeInvariant] at hy
    split at hy
    · cases hy
    · exact h.conditional y c hy
  · have hxy := (h.mem_deps_of_mem_conditionedTo hdel).2
    rw [hnil] at hxy
    cases hxy
  · obtain ⟨hytag, hydel⟩ := (mem_removeInvariant_tagged h.nodup).mp hy
    obtain ⟨hycond, hecond⟩ := h.pending y hytag e he hblocked
    have hycand := (h.tagged y hytag).1
    have hyx : y ≠ x := fun heq => hmem (heq ▸ hytag)
    refine ⟨mem_removeInvariant_conditional.mpr ⟨⟨hyx, hydel⟩, hycond⟩,
      mem_removeInvariant_conditional.mpr ⟨⟨?_, fun hdel => ?_⟩, hecond⟩⟩
    · rintro rfl
      obtain ⟨c, hc⟩ := Option.isSome_iff_exists.mp (AList.lookup_isSome.mpr hycond)
      refine hydel (mem_conditionedTo.mpr ⟨hyx, c, hc, ?_⟩)
      obtain ⟨-, ⟨-, hsame⟩ | ⟨hnil, -⟩⟩ := h.conditional y c hc
      · exact (hsame e).mpr he
      · rw [hnil] at he
        cases he
    · exact h.not_mem_deps hchains hx hycand he hblocked.1 (h.mem_deps_of_mem_conditionedTo hdel).2
  · have hne : y ≠ x := by
      rintro rfl
      rcases hreason with hblocked | ⟨e, he, hblocked⟩
      · exact hnot hblocked
      · exact hfar e he hblocked
    have hdel : y ∉ conditionedTo st x := fun hdel => by
      have hxy := (h.mem_deps_of_mem_conditionedTo hdel).2
      exact hfar x hxy (h.blocked_of_mem_deps hchains hx hy hxy)
    rcases h.kept y hy hnot hfar with hy' | hy'
    · exact .inl ((mem_removeInvariant_tagged h.nodup).mpr ⟨hy', hdel⟩)
    · exact .inr (mem_removeInvariant_conditional.mpr ⟨⟨hne, hdel⟩, hy'⟩)

end Conditioned

/-! ## The runs over the map -/

/-- The invariant that a run over the map gives up, and the state in which it does. -/
def givenUp : List (Sigma fun _ : V => PtrSet V) → Hoisting V B → Option (Hoisting V B × V)
  | [], _ => none
  | p :: ps, st =>
      if p.1 ∈ st.instructionsToHoistToPreheader then givenUp ps st
      else if p.2.elems.all fun cond => decide (cond ∈ st.instructionsToHoistToPreheader) ||
          decide (cond ∈ st.conditionalHoisting) then
        givenUp ps { st with
          instructionsToHoistToPreheader := st.instructionsToHoistToPreheader ++ [p.1]
          modified := true }
      else some (st, p.1)

/-- What one run over the map does: it gives up an invariant, or leaves the map as it is and
everything in it tagged. -/
structure RunOver (ps : List (Sigma fun _ : V => PtrSet V)) (st : Hoisting V B)
    (result : Hoisting V B × Bool) : Prop where
  code_eq : result.1.code = st.code
  phisToRemove_eq : result.1.phisToRemove = st.phisToRemove
  gaveUp : result.2 = true → (∃ st' x, givenUp ps st = some (st', x) ∧ Unmet st' x ∧
      result.1 = removeInvariant st' x) ∧
    result.1.conditionalHoisting.keys.length < st.conditionalHoisting.keys.length
  tagged : result.2 = false → result.1.conditionalHoisting = st.conditionalHoisting ∧
    (∀ x ∈ st.instructionsToHoistToPreheader, x ∈ result.1.instructionsToHoistToPreheader) ∧
    ∀ p ∈ ps, p.1 ∈ result.1.instructionsToHoistToPreheader

/-- What tagging and giving up preserve holds after the fixpoint loop. -/
theorem checkInvariants_rule {P : Hoisting V B → Prop}
    (hpush : ∀ st x conds, P st → st.conditionalHoisting.lookup x = some conds →
      x ∉ st.instructionsToHoistToPreheader →
      (∀ d ∈ conds, d ∈ st.instructionsToHoistToPreheader ∨ d ∈ st.conditionalHoisting) →
      P { st with
        instructionsToHoistToPreheader := st.instructionsToHoistToPreheader ++ [x]
        modified := true }) :
    ∀ (ps : List (Sigma fun _ : V => PtrSet V)) (st : Hoisting V B), P st →
      (∀ p ∈ ps, st.conditionalHoisting.lookup p.1 = some p.2) →
      (∀ st' x, givenUp ps st = some (st', x) → P st' → Unmet st' x → P (removeInvariant st' x)) →
      P (checkInvariants ps st).1 ∧ RunOver ps st (checkInvariants ps st) ∧
        ∀ st' x, givenUp ps st = some (st', x) → P st' ∧ Unmet st' x
  | [], st, h, _, _ => ⟨h, ⟨rfl, rfl, nofun, fun _ => ⟨rfl, fun _ => id, by simp⟩⟩, nofun⟩
  | p :: ps, st, h, hps, hremove => by
    have hp := hps p (.head _)
    have hps' : ∀ q ∈ ps, st.conditionalHoisting.lookup q.1 = some q.2 :=
      fun q hq => hps q (.tail _ hq)
    by_cases hmem : p.1 ∈ st.instructionsToHoistToPreheader
    · have hgiven : givenUp (p :: ps) st = givenUp ps st := if_pos hmem
      have hcheck : checkInvariants (p :: ps) st = checkInvariants ps st := if_pos hmem
      rw [hgiven] at hremove
      obtain ⟨hP, hrun, hP'⟩ := checkInvariants_rule hpush ps st h hps' hremove
      rw [hcheck, hgiven]
      refine ⟨hP, ⟨hrun.code_eq, hrun.phisToRemove_eq, hgiven ▸ hrun.gaveUp, fun hflag => ?_⟩, hP'⟩
      obtain ⟨hmap, hmono, htagged⟩ := hrun.tagged hflag
      exact ⟨hmap, hmono, forall_mem_cons.mpr ⟨hmono _ hmem, htagged⟩⟩
    by_cases hmet : (p.2.elems.all fun cond => decide (cond ∈ st.instructionsToHoistToPreheader) ||
        decide (cond ∈ st.conditionalHoisting)) = true
    · have hgiven : givenUp (p :: ps) st = givenUp ps { st with
          instructionsToHoistToPreheader := st.instructionsToHoistToPreheader ++ [p.1]
          modified := true } := (if_neg hmem).trans (if_pos hmet)
      have hcheck : checkInvariants (p :: ps) st = checkInvariants ps { st with
          instructionsToHoistToPreheader := st.instructionsToHoistToPreheader ++ [p.1]
          modified := true } := (if_neg hmem).trans (if_pos hmet)
      rw [hgiven] at hremove
      have hpushed := hpush st p.1 p.2 h hp hmem (by simpa using hmet)
      obtain ⟨hP, hrun, hP'⟩ := checkInvariants_rule hpush ps _ hpushed hps' hremove
      rw [hcheck, hgiven]
      refine ⟨hP, ⟨hrun.code_eq, hrun.phisToRemove_eq, hgiven ▸ hrun.gaveUp, fun hflag => ?_⟩, hP'⟩
      obtain ⟨hmap, hmono, htagged⟩ := hrun.tagged hflag
      exact ⟨hmap, fun x hx => hmono x (mem_append_left _ hx),
        forall_mem_cons.mpr ⟨hmono _ (by simp), htagged⟩⟩
    · have hgiven : givenUp (p :: ps) st = some (st, p.1) := (if_neg hmem).trans (if_neg hmet)
      have hcheck : checkInvariants (p :: ps) st = (removeInvariant st p.1, true) :=
        (if_neg hmem).trans (if_neg hmet)
      have hunmet : Unmet st p.1 := by
        refine ⟨hmem, p.2, hp, ?_⟩
        simpa using hmet
      rw [hcheck]
      refine ⟨hremove st p.1 hgiven h hunmet,
        ⟨rfl, rfl, fun _ => ⟨⟨st, p.1, hgiven, hunmet, rfl⟩, ?_⟩, nofun⟩, fun st' x hgiven' => ?_⟩
      rotate_left
      · obtain ⟨rfl, rfl⟩ := Prod.mk.inj (Option.mem_unique hgiven hgiven')
        exact ⟨h, hunmet⟩
      refine Nat.lt_of_le_of_lt length_keys_foldl_erase ?_
      have hkey : p.1 ∈ st.conditionalHoisting.keys :=
        AList.mem_keys.mp (AList.lookup_isSome.mp (by rw [hp]; rfl))
      rw [AList.keys_erase, length_erase_of_mem hkey]
      exact Nat.sub_lt (length_pos_of_mem hkey) Nat.one_pos

theorem lookup_of_mem_visit (ord : IterOrder) {m : AList fun _ : V => PtrSet V}
    {p : Sigma fun _ : V => PtrSet V} (hp : p ∈ ord.visit m.entries) : m.lookup p.1 = some p.2 :=
  AList.mem_lookup_iff.mpr ((IterOrder.mem_visit ord).mp hp)

/-- A run over the whole map that gives up nothing leaves everything in it tagged. -/
theorem RunOver.all_tagged {ord : IterOrder} {st : Hoisting V B} {result : Hoisting V B × Bool}
    (h : RunOver (ord.visit st.conditionalHoisting.entries) st result) (hflag : result.2 = false) :
    ∀ x ∈ result.1.conditionalHoisting, x ∈ result.1.instructionsToHoistToPreheader := by
  obtain ⟨hmap, -, htagged⟩ := h.tagged hflag
  intro x hx
  rw [hmap] at hx
  obtain ⟨c, hc⟩ := Option.isSome_iff_exists.mp (AList.lookup_isSome.mpr hx)
  exact htagged ⟨x, c⟩ ((IterOrder.mem_visit ord).mpr (AList.mem_lookup_iff.mp hc))

/-- The second phase ends, with everything that is left in the map tagged. -/
theorem checkConditions_spec (hchains : ShortChains ord fn l isLoopInvariant ldg)
    {st : Hoisting V B} (h : Conditioned ord fn l isLoopInvariant ldg st) {fuel : Nat}
    (hfuel : st.conditionalHoisting.keys.length < fuel) :
    ∃ st', checkConditions ord fuel st = some st' ∧
      Conditioned ord fn l isLoopInvariant ldg st' ∧
      (∀ x ∈ st'.conditionalHoisting, x ∈ st'.instructionsToHoistToPreheader) ∧
      st'.code = st.code ∧ st'.phisToRemove = st.phisToRemove := by
  obtain ⟨s, hs, hinv, hcond⟩ := @loopM_rule _ (fun s : Hoisting V B × Bool => s.2)
    (fun s => some (checkInvariants (ord.visit s.1.conditionalHoisting.entries) s.1))
    (fun s => Conditioned ord fn l isLoopInvariant ldg s.1 ∧
      (s.2 = false → ∀ x ∈ s.1.conditionalHoisting, x ∈ s.1.instructionsToHoistToPreheader) ∧
      s.1.code = st.code ∧ s.1.phisToRemove = st.phisToRemove)
    (fun s => s.1.conditionalHoisting.keys.length + if s.2 then 1 else 0) (by
      rintro ⟨s, flag⟩ ⟨hs, -, hcode, hphis⟩ hflag
      obtain rfl : flag = true := hflag
      obtain ⟨hcond, hover, -⟩ := checkInvariants_rule (P := Conditioned ord fn l isLoopInvariant ldg)
        (fun st x conds hst hx hmem hmet => hst.push hx hmem hmet)
        (ord.visit s.conditionalHoisting.entries) s hs (fun p hp => lookup_of_mem_visit ord hp)
        fun st' x _ hst' hx => hst'.remove hchains hx
      refine ⟨_, rfl, ⟨hcond, hover.all_tagged, hover.code_eq.trans hcode,
        hover.phisToRemove_eq.trans hphis⟩, ?_⟩
      cases hflag : (checkInvariants (ord.visit s.conditionalHoisting.entries) s).2 with
      | true => simpa [hflag] using (hover.gaveUp hflag).2
      | false =>
        obtain ⟨hmap, -⟩ := hover.tagged hflag
        simp [hmap])
    fuel (st, true) ⟨h, nofun, rfl, rfl⟩ (by simpa using Nat.succ_le_of_lt hfuel)
  exact ⟨s.1, by simp [checkConditions, hs], hinv.1, hinv.2.1 hcond, hinv.2.2⟩

/-- With short chains exactly the hoistable instructions are tagged in the end. -/
theorem Conditioned.mem_iff (hchains : ShortChains ord fn l isLoopInvariant ldg)
    {st : Hoisting V B} (h : Conditioned ord fn l isLoopInvariant ldg st)
    (hmap : ∀ x ∈ st.conditionalHoisting, x ∈ st.instructionsToHoistToPreheader) (x : V) :
    x ∈ st.instructionsToHoistToPreheader ↔ Hoistable ord fn l isLoopInvariant ldg x := by
  have hfar : ∀ y ∈ st.instructionsToHoistToPreheader, ∀ d ∈ deps ord fn l ldg y,
      ¬ Blocked ord fn l isLoopInvariant ldg d := by
    intro y hy d hd hblocked
    exact (h.tagged d (hmap d (h.pending y hy d hd hblocked).2)).2 hblocked
  constructor
  · intro hx
    refine ⟨(· ∈ st.instructionsToHoistToPreheader), hx, fun y hy => ⟨(h.tagged y hy).1, ?_⟩⟩
    intro d hd
    obtain ⟨hycand, hynot⟩ := h.tagged y hy
    have hdcand : Candidate ord fn l isLoopInvariant ldg d :=
      not_not.mp fun hnot => hynot ⟨hycand, d, hd, hnot⟩
    have hdfar : ∀ e ∈ deps ord fn l ldg d, ¬ Blocked ord fn l isLoopInvariant ldg e := by
      rintro e he ⟨hecand, e', he', hnot⟩
      exact hnot (hchains y d e hycand hd hdcand he hecand e' he')
    exact (h.kept d hdcand (hfar y hy d hd) hdfar).elim id (hmap d)
  · rintro ⟨S, hxS, hS⟩
    have hnot : ∀ y, S y → ¬ Blocked ord fn l isLoopInvariant ldg y := by
      rintro y hy ⟨-, d, hd, hnot⟩
      exact hnot (hS d ((hS y hy).2 d hd)).1
    exact (h.kept x (hS x hxS).1 (hnot x hxS) fun d hd => hnot d ((hS x hxS).2 d hd)).elim id
      (hmap x)

end LoopInvariantCodeMotion

end Noelle
