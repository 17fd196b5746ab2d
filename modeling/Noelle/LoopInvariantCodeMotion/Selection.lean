import Noelle.Lib.PHIWebs
import Noelle.LoopInvariantCodeMotion.Basic

/-!
# LoopInvariantCodeMotion.Selection

Which instructions `hoistInvariantValues` hoists.

`Candidate` is an instruction that passes the checks, and `Hoistable` one that depends on nothing
of the loop but candidates, directly or not.  The second phase gives up a candidate together with
the ones that depend on it directly, but not with the ones that depend on those: if no candidate
is that far from an instruction that is none (`ShortChains`), what remains is what is hoistable.
The first phase (`Identified`) finds all candidates.
-/

namespace Noelle

open List

namespace SSACode

variable {V B : Type} [DecidableEq V]

theorem replaceUses_substitute (f : SSACode V B) (replacement : V → V) (x v : V) :
    (f.substitute replacement).replaceUses x v =
      f.substitute fun y => if replacement y = x then v else replacement y := by
  simp [substitute, replaceUses, Function.comp_def]

end SSACode

namespace LoopInvariantCodeMotion

variable {F V B : Type} [DecidableEq V] (ord : IterOrder)
  (fn : InvariantFunction V B) (l : LoopStructure F B) (isLoopInvariant : V → Bool) (ldg : PDG V)

/-! ## Candidates -/

/-- What the instruction depends on in the loop. -/
abbrev deps (i : V) : List V := getSourceDependenceInstructionsFrom ord fn l ldg i

/-- An instruction of the loop, no PHI, that passes the checks. -/
structure Candidate (i : V) : Prop where
  body : ∃ b ∈ l.bbs, i ∈ fn.code.body b
  invariant : isLoopInvariant i = true
  readsOnly : mayWriteToMemory (fn.inst i) = false
  deps : ∀ d ∈ deps ord fn l ldg i, isLoopInvariant d = true

/-- A candidate all of whose dependences in the loop are hoistable. -/
def Hoistable (i : V) : Prop :=
  ∃ S : V → Prop, S i ∧ ∀ j, S j → Candidate ord fn l isLoopInvariant ldg j ∧
    ∀ d ∈ deps ord fn l ldg j, S d

/-- No candidate depends on a candidate that depends on a candidate that depends on an instruction
of the loop that is none. -/
def ShortChains : Prop :=
  ∀ c b a, Candidate ord fn l isLoopInvariant ldg c → b ∈ deps ord fn l ldg c →
    Candidate ord fn l isLoopInvariant ldg b → a ∈ deps ord fn l ldg b →
    Candidate ord fn l isLoopInvariant ldg a →
    ∀ d ∈ deps ord fn l ldg a, Candidate ord fn l isLoopInvariant ldg d

/-- A PHI of the loop whose incoming values are one value; if the loop computes it, then from nothing
else that the loop computes. -/
def IsSinglePHI (phi v : V) : Prop :=
  (∃ b ∈ l.bbs, phi ∈ fn.code.phis b) ∧ (∀ e ∈ fn.code.incoming phi, e.2 = v) ∧
    (isIncluded fn l v = true → Candidate ord fn l isLoopInvariant ldg v ∧ deps ord fn l ldg v = [])

/-- Every PHI that passes the checks has a single incoming value, and depends on nothing else. -/
def SinglePHIs : Prop :=
  ∀ b ∈ l.bbs, ∀ phi ∈ fn.code.phis b,
    (checkInstruction ord fn l isLoopInvariant ldg phi).isSome = true →
      ∃ v, IsSinglePHI ord fn l isLoopInvariant ldg phi v ∧ ∀ d ∈ deps ord fn l ldg phi, d = v

variable {ord fn l isLoopInvariant ldg}

theorem isIncluded_iff {i : V} : isIncluded fn l i = true ↔
    ∃ b ∈ l.bbs, i ∈ fn.code.phis b ∨ i ∈ fn.code.body b := by
  simp [isIncluded]

/-- Only dependences inside the loop are recorded. -/
theorem isIncluded_of_mem_deps {i d : V} (hd : d ∈ deps ord fn l ldg i) :
    isIncluded fn l d = true := by
  have hcollect : ∀ (edges : List (DGEdge V)) (s : List V), (∀ d ∈ s, isIncluded fn l d = true) →
      ∀ d ∈ (PDG.invokePerDependence dataDependences DGEdge.getSrc
        (fun s fromValue _ => (false, if isIncluded fn l fromValue then s ++ [fromValue] else s))
        edges s).2, isIncluded fn l d = true := by
    intro edges
    induction edges with
    | nil => exact fun s hs => hs
    | cons e edges ih =>
      intro s hs
      unfold PDG.invokePerDependence
      split
      · refine ih _ ?_
        split
        · next hsrc =>
          intro d hd
          rcases mem_append.mp hd with hd | hd
          · exact hs d hd
          · exact mem_singleton.mp hd ▸ hsrc
        · exact hs
      · exact ih s hs
  unfold deps getSourceDependenceInstructionsFrom PDG.iterateOverDependencesTo at hd
  dsimp only at hd
  split at hd
  · cases hd
  · exact hcollect _ [] (by simp) d hd

theorem checkDependences_eq_some {l' : List V} {s s' : PtrSet V}
    (hl : ∀ d ∈ l', isIncluded fn l d = true) :
    checkDependences fn l isLoopInvariant l' s = some s' ↔
      (∀ d ∈ l', isLoopInvariant d = true) ∧ s' = s.insertAll l' := by
  induction l' generalizing s with
  | nil => exact ⟨fun h => ⟨by simp, (Option.some.inj h).symm⟩, fun h => congrArg some h.2.symm⟩
  | cons d l' ih =>
    have hd := hl d (.head _)
    have hl' : ∀ d ∈ l', isIncluded fn l d = true := fun d hd => hl d (.tail _ hd)
    cases hinv : isLoopInvariant d with
    | false => simp [checkDependences, hd, hinv]
    | true => simp [checkDependences, hd, hinv, ih hl', PtrSet.insertAll]

/-- An instruction passes the checks if it is a candidate; what is returned are its
dependences. -/
theorem checkInstruction_eq_some {i : V} {s : PtrSet V} :
    checkInstruction ord fn l isLoopInvariant ldg i = some s ↔
      isLoopInvariant i = true ∧ mayWriteToMemory (fn.inst i) = false ∧
        (∀ d ∈ deps ord fn l ldg i, isLoopInvariant d = true) ∧
        s = PtrSet.ofList (deps ord fn l ldg i) := by
  unfold checkInstruction
  cases hinv : isLoopInvariant i with
  | false => simp
  | true =>
    cases hwrite : mayWriteToMemory (fn.inst i) with
    | true => simp
    | false =>
      simp only [Bool.not_true, Bool.false_eq_true, if_false, true_and]
      exact checkDependences_eq_some fun d hd => isIncluded_of_mem_deps hd

theorem candidate_iff_checkInstruction {i : V} (hi : ∃ b ∈ l.bbs, i ∈ fn.code.body b) :
    Candidate ord fn l isLoopInvariant ldg i ↔
      (checkInstruction ord fn l isLoopInvariant ldg i).isSome = true := by
  rw [Option.isSome_iff_exists]
  constructor
  · rintro ⟨-, hinv, hwrite, hdeps⟩
    exact ⟨_, checkInstruction_eq_some.mpr ⟨hinv, hwrite, hdeps, rfl⟩⟩
  · rintro ⟨s, hs⟩
    obtain ⟨hinv, hwrite, hdeps, -⟩ := checkInstruction_eq_some.mp hs
    exact ⟨hi, hinv, hwrite, hdeps⟩

theorem IsSinglePHI.not_phi (hf : ∀ x b c, x ∈ fn.code.phis b → x ∉ fn.code.body c) {phi v : V}
    (h : IsSinglePHI ord fn l isLoopInvariant ldg phi v) {c : B} (hc : c ∈ l.bbs) :
    v ∉ fn.code.phis c := by
  intro hphi
  obtain ⟨⟨b, -, hbody⟩, -⟩ := (h.2.2 (isIncluded_iff.mpr ⟨c, hc, .inl hphi⟩)).1
  exact hf v c b hphi hbody

/-! ## The first phase -/

/-- The conditions that the map may hold for an instruction: its dependences, or itself if it was
tagged for a PHI and has none. -/
def IsCondition (ord : IterOrder) (fn : InvariantFunction V B) (l : LoopStructure F B) (ldg : PDG V)
    (x : V) (conds : PtrSet V) : Prop :=
  (deps ord fn l ldg x ≠ [] ∧ ∀ d, d ∈ conds ↔ d ∈ deps ord fn l ldg x) ∨
    deps ord fn l ldg x = [] ∧ ∀ d ∈ conds, d = x

variable (ord fn l isLoopInvariant ldg) in
/-- What the first phase has found once it has visited the instructions. -/
structure Identified (visited : V → Prop) (st : Hoisting V B) : Prop where
  code : ∃ replacement : V → V, st.code = fn.code.substitute replacement ∧
    (∀ x ∉ st.phisToRemove, replacement x = x) ∧
    ∀ x ∈ st.phisToRemove, IsSinglePHI ord fn l isLoopInvariant ldg x (replacement x)
  tagged : ∀ x ∈ st.instructionsToHoistToPreheader,
    Candidate ord fn l isLoopInvariant ldg x ∧ deps ord fn l ldg x = []
  nodup : st.instructionsToHoistToPreheader.Nodup
  conditional : ∀ x conds, st.conditionalHoisting.lookup x = some conds →
    Candidate ord fn l isLoopInvariant ldg x ∧ IsCondition ord fn l ldg x conds
  complete : ∀ x, visited x → Candidate ord fn l isLoopInvariant ldg x →
    (deps ord fn l ldg x = [] → x ∈ st.instructionsToHoistToPreheader) ∧
      (deps ord fn l ldg x ≠ [] → x ∈ st.conditionalHoisting)

namespace Identified

variable {visited visited' : V → Prop} {st : Hoisting V B}

/-- A candidate is tagged with its conditions. -/
theorem tag (h : Identified ord fn l isLoopInvariant ldg visited st) {i : V} {conds : PtrSet V}
    (hi : Candidate ord fn l isLoopInvariant ldg i) (hconds : IsCondition ord fn l ldg i conds)
    (hvisited : ∀ x, visited' x → visited x ∨
      x = i ∧ (deps ord fn l ldg i = [] → conds.size = 0)) :
    Identified ord fn l isLoopInvariant ldg visited' (tag st i conds) := by
  unfold LoopInvariantCodeMotion.tag
  split
  · next hmem =>
    refine ⟨h.code, h.tagged, h.nodup, h.conditional, fun x hx hcand => ?_⟩
    rcases hvisited x hx with hx | ⟨rfl, -⟩
    · exact h.complete x hx hcand
    · exact ⟨fun _ => hmem, fun hne => absurd (h.tagged x hmem).2 hne⟩
  · next hmem =>
    split
    · next hsize =>
      have hempty : ∀ d, d ∉ conds := fun d hd =>
        not_mem_nil (length_eq_zero_iff.mp hsize ▸ hd : d ∈ ([] : List V))
      have hdeps : deps ord fn l ldg i = [] := by
        rcases hconds with ⟨-, hsame⟩ | ⟨hdeps, -⟩
        · exact eq_nil_iff_forall_not_mem.mpr fun d hd => hempty d ((hsame d).mpr hd)
        · exact hdeps
      refine ⟨h.code, fun x hx => ?_, ?_, h.conditional, fun x hx hcand => ?_⟩
      · rcases mem_append.mp hx with hx | hx
        · exact h.tagged x hx
        · obtain rfl := mem_singleton.mp hx
          exact ⟨hi, hdeps⟩
      · exact h.nodup.append (nodup_singleton i) (by simpa using hmem)
      · rcases hvisited x hx with hx | ⟨rfl, -⟩
        · obtain ⟨hnil, hcons⟩ := h.complete x hx hcand
          exact ⟨fun hd => mem_append_left _ (hnil hd), hcons⟩
        · exact ⟨fun _ => by simp, fun hne => absurd hdeps hne⟩
    · next hsize =>
      refine ⟨h.code, h.tagged, h.nodup, fun x c hx => ?_, fun x hx hcand => ?_⟩
      · by_cases hxi : x = i
        · subst hxi
          obtain rfl : conds = c := by simpa using hx
          exact ⟨hi, hconds⟩
        · exact h.conditional x c (by rwa [AList.lookup_insert_ne hxi] at hx)
      · rcases hvisited x hx with hx | ⟨rfl, hnil⟩
        · obtain ⟨hnil, hcons⟩ := h.complete x hx hcand
          exact ⟨hnil, fun hd => (AList.mem_insert _).mpr (.inr (hcons hd))⟩
        · exact ⟨fun hd => absurd (hnil hd) hsize, fun _ => (AList.mem_insert _).mpr (.inl rfl)⟩

/-- One more instruction is visited. -/
theorem visitInstruction (h : Identified ord fn l isLoopInvariant ldg visited st) {b : B}
    (hb : b ∈ l.bbs) {i : V} (hi : i ∈ fn.code.body b) :
    Identified ord fn l isLoopInvariant ldg (fun x => visited x ∨ x = i)
      (visitInstruction ord fn l isLoopInvariant ldg st i) := by
  unfold LoopInvariantCodeMotion.visitInstruction
  split
  · next hcheck =>
    refine ⟨h.code, h.tagged, h.nodup, h.conditional, fun x hx hcand => ?_⟩
    rcases hx with hx | rfl
    · exact h.complete x hx hcand
    · rw [candidate_iff_checkInstruction hcand.body, hcheck] at hcand
      cases hcand
  · next conds hcheck =>
    obtain ⟨hinv, hwrite, hdeps, rfl⟩ := checkInstruction_eq_some.mp hcheck
    refine h.tag ⟨⟨b, hb, hi⟩, hinv, hwrite, hdeps⟩ ?_ fun x hx => hx.imp_right fun hx => ⟨hx, ?_⟩
    · by_cases hnil : deps ord fn l ldg i = []
      · exact .inr ⟨hnil, fun d hd => by rw [hnil] at hd; cases hd⟩
      · exact .inl ⟨hnil, fun d => PtrSet.mem_ofList⟩
    · intro hnil
      rw [hnil]
      rfl

/-- One more PHI is visited. -/
theorem visitPHI (hsingle : SinglePHIs ord fn l isLoopInvariant ldg) {DS : DominatorQueries V B}
    (hf : ∀ x b c, x ∈ fn.code.phis b → x ∉ fn.code.body c)
    (h : Identified ord fn l isLoopInvariant ldg visited st) {b : B}
    (hb : b ∈ l.bbs) {phi : V} (hphi : phi ∈ fn.code.phis b) :
    Identified ord fn l isLoopInvariant ldg visited
      (visitPHI ord fn l isLoopInvariant ldg DS b st phi) := by
  unfold LoopInvariantCodeMotion.visitPHI
  split
  · exact h
  next conds hcheck =>
  unfold replacePHI
  split
  · exact h
  next value hvalue =>
  obtain ⟨v, hv, hdeps⟩ := hsingle b hb phi hphi (by rw [hcheck]; rfl)
  obtain ⟨replacement, hcode, hkept, hremoved⟩ := h.code
  obtain rfl : value = v := by
    obtain ⟨e, he, rfl⟩ := Option.map_eq_some_iff.mp hvalue
    have hmem := mem_of_find?_eq_some he
    rw [hcode] at hmem
    obtain ⟨e', he', rfl⟩ := mem_map.mp hmem
    rw [hv.2.1 e' he']
    refine hkept v fun hmem => ?_
    obtain ⟨⟨c, hc, hwc⟩, -⟩ := hremoved v hmem
    exact hv.not_phi hf hc hwc
  have hcode' : Identified ord fn l isLoopInvariant ldg visited { st with
      code := st.code.replaceUses phi value
      phisToRemove := st.phisToRemove.insert phi } := by
    refine ⟨⟨fun y => if replacement y = phi then value else replacement y, ?_, ?_, ?_⟩,
      h.tagged, h.nodup, h.conditional, h.complete⟩
    · simp [hcode, SSACode.replaceUses_substitute]
    · intro x hx
      simp only [PtrSet.mem_insert, not_or] at hx
      simp [hkept x hx.2, hx.1]
    · intro x hx
      by_cases hxr : x ∈ st.phisToRemove
      · have hne : replacement x ≠ phi := fun heq => (hremoved x hxr).not_phi hf hb (heq ▸ hphi)
        simpa [hne] using hremoved x hxr
      · obtain rfl : x = phi := (PtrSet.mem_insert.mp hx).resolve_right hxr
        simpa [hkept x hxr] using hv
  split
  · next hincluded =>
    obtain ⟨hcand, hnil⟩ := hv.2.2 hincluded
    obtain ⟨-, -, -, rfl⟩ := checkInstruction_eq_some.mp hcheck
    exact hcode'.tag hcand (.inr ⟨hnil, fun d hd => hdeps d (PtrSet.mem_ofList.mp hd)⟩)
      fun x hx => .inl hx
  · exact hcode'

end Identified

/-- The first phase finds the candidates and their conditions. -/
theorem identified_identify (hsingle : SinglePHIs ord fn l isLoopInvariant ldg)
    (DS : DominatorQueries V B) (hf : ∀ x b c, x ∈ fn.code.phis b → x ∉ fn.code.body c) :
    Identified ord fn l isLoopInvariant ldg (fun x => ∃ b ∈ l.bbs, x ∈ fn.code.body b)
      (identify ord fn l isLoopInvariant ldg DS) := by
  have hstart : Identified ord fn l isLoopInvariant ldg (fun _ => False) { code := fn.code } :=
    ⟨⟨id, (SSACode.substitute_id _).symm, fun _ _ => rfl, by simp⟩, by simp, nodup_nil,
      by simp, by simp⟩
  have hblocks := foldl_rule (visitBlock ord fn l isLoopInvariant ldg DS)
    (fun bs st => Identified ord fn l isLoopInvariant ldg (fun x => ∃ b ∈ bs, x ∈ fn.code.body b) st)
    (l := ord.visit l.bbs.elems) (s := { code := fn.code })
    (by simpa using hstart) (by
      intro bs b post st hsplit hst
      have hb : b ∈ l.bbs := (IterOrder.mem_visit ord).mp (by rw [hsplit]; simp)
      have hphis := foldl_rule (visitPHI ord fn l isLoopInvariant ldg DS b)
        (fun _ st => Identified ord fn l isLoopInvariant ldg
          (fun x => ∃ b ∈ bs, x ∈ fn.code.body b) st)
        (l := fn.code.phis b) hst (by
          intro phis phi rest st hsplit hst
          exact hst.visitPHI hsingle hf hb (by rw [hsplit]; simp))
      have hbody := foldl_rule (visitInstruction ord fn l isLoopInvariant ldg)
        (fun is st => Identified ord fn l isLoopInvariant ldg
          (fun x => (∃ b ∈ bs, x ∈ fn.code.body b) ∨ x ∈ is) st)
        (l := fn.code.body b) (by simpa using hphis) (by
          intro is i rest st hsplit hst
          have hi : i ∈ fn.code.body b := by rw [hsplit]; simp
          simpa [or_assoc] using hst.visitInstruction hb hi)
      have hor : (fun x => (∃ b ∈ bs, x ∈ fn.code.body b) ∨ x ∈ fn.code.body b) =
          fun x => ∃ b' ∈ bs ++ [b], x ∈ fn.code.body b' := by
        funext x
        simp [or_and_right, exists_or]
      exact hor ▸ hbody)
  unfold identify
  simpa using hblocks

end LoopInvariantCodeMotion

end Noelle
