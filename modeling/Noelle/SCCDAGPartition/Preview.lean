import Noelle.SCCDAGPartition.Queries

/-!
# SCCDAGPartition.Preview

What merging two sets would collapse.

The preview intersects the descendants of the one set with the ancestors of the other.  In a
graph without cycles these are the sets between the two, which are exactly those that the
merge puts into the new set.
-/

namespace Noelle

open Relation List

namespace SCCDAGPartition

variable (ord : IterOrder)

/-- `SCCDAGPartitioner::getParentChildPair`. -/
def getParentChildPair (p : SCCDAGPartition) (setA setB : SetPtr) (fuel : Nat) :
    Option (Option (SetPtr × SetPtr)) := do
  if ← p.isAncestor ord setA setB fuel then return some (setA, setB)
  else if ← p.isAncestor ord setB setA fuel then return some (setB, setA)
  else return none

/-- `SCCDAGPartitioner::getOverlap`. -/
def getOverlap (setsA setsB : PtrSet SetPtr) : PtrSet SetPtr :=
  setsA.filter fun set => decide (set ∈ setsB)

/-- `SCCDAGPartitioner::isMergeIntroducingCycle`. -/
def isMergeIntroducingCycle (p : SCCDAGPartition) (setA setB : SetPtr) (fuel : Nat) :
    Option Bool := do
  match ← p.getParentChildPair ord setA setB fuel with
  | none => return false
  | some (parent, child) =>
      let parentDescendants ← p.getDescendants ord parent fuel
      let childAncestors ← p.getAncestors ord child fuel
      return decide ((getOverlap parentDescendants childAncestors).size > 0)

/-- `SCCDAGPartitioner::getCycleIntroducedByMerging`. -/
def getCycleIntroducedByMerging (p : SCCDAGPartition) (setA setB : SetPtr) (fuel : Nat) :
    Option (PtrSet SetPtr) := do
  match ← p.getParentChildPair ord setA setB fuel with
  | none => return PtrSet.ofList [setA, setB]
  | some (parent, child) =>
      let parentDescendants ← p.getDescendants ord parent fuel
      let childAncestors ← p.getAncestors ord child fuel
      return ((getOverlap parentDescendants childAncestors).insert parent).insert child

variable {ord} {U : SccPtr → Prop} {L : SccPtr → SccPtr → Prop} {p p' : SCCDAGPartition}
  {s t : SetPtr} {n m : DGNode SetPtr}

/-- No path leads back to its start. -/
def NoCycle (p : SCCDAGPartition) : Prop := ∀ s, ¬ TransGen p.SetEdge s s

/-- A set on a path between two sets. -/
def Between (p : SCCDAGPartition) (s t k : SetPtr) : Prop :=
  TransGen p.SetEdge s k ∧ TransGen p.SetEdge k t

namespace Between

variable {k : SetPtr}

theorem isSet (h : p.Between s t k) (hc : p.toDG.Clean) : p.IsSet k := by
  obtain ⟨_, _, hedge⟩ := TransGen.tail'_iff.mp h.1
  exact (hedge.isSet hc).2

theorem ne (h : p.Between s t k) (hac : p.NoCycle) : k ≠ s ∧ k ≠ t :=
  ⟨fun heq => hac s (heq ▸ h.1), fun heq => hac t (heq ▸ h.2)⟩

end Between

/-! ## The preview -/

/-- The pair is ordered by the paths between its sets. -/
theorem getParentChildPair_spec (ord : IterOrder) (h : p.toDG.Clean) (hac : p.NoCycle)
    (hs : p.IsSet s) (ht : p.IsSet t) :
    ∃ N, ∀ fuel ≥ N, ∃ pair, p.getParentChildPair ord s t fuel = some pair ∧
      match pair with
      | none => ¬ TransGen p.SetEdge s t ∧ ¬ TransGen p.SetEdge t s
      | some (parent, child) => TransGen p.SetEdge parent child ∧
          ((parent = s ∧ child = t) ∨ (parent = t ∧ child = s)) := by
  obtain ⟨N, hN⟩ := isAncestor_spec ord h ht (s := s) (.inr fun c _ => hac c)
  obtain ⟨M, hM⟩ := isAncestor_spec ord h hs (s := t) (.inr fun c _ => hac c)
  refine ⟨max N M, fun fuel hfuel => ?_⟩
  obtain ⟨answer, hanswer, hiff⟩ := hN fuel (le_of_max_le_left hfuel)
  obtain ⟨answer', hanswer', hiff'⟩ := hM fuel (le_of_max_le_right hfuel)
  unfold getParentChildPair
  rw [hanswer, hanswer']
  cases answer with
  | true => exact ⟨some (s, t), rfl, hiff.mp rfl, .inl ⟨rfl, rfl⟩⟩
  | false =>
      have hst : ¬ TransGen p.SetEdge s t := fun hst => Bool.false_ne_true (hiff.mpr hst)
      cases answer' with
      | true => exact ⟨some (t, s), rfl, hiff'.mp rfl, .inr ⟨rfl, rfl⟩⟩
      | false => exact ⟨none, rfl, hst, fun hts => Bool.false_ne_true (hiff'.mpr hts)⟩

theorem NoCycle.between_iff (hac : p.NoCycle) (hst : TransGen p.SetEdge s t) (k : SetPtr) :
    p.Between s t k ∨ p.Between t s k ↔ p.Between s t k := by
  refine or_iff_left fun hts => ?_
  exact hac s (hst.trans (hts.1.trans hts.2))

/-- The preview holds the two sets and what lies between them. -/
theorem preview_spec (ord : IterOrder) (h : p.toDG.Clean) (hac : p.NoCycle) (hs : p.IsSet s)
    (ht : p.IsSet t) :
    ∃ N, ∀ fuel ≥ N, ∃ cycle introducing,
      p.getCycleIntroducedByMerging ord s t fuel = some cycle ∧
      p.isMergeIntroducingCycle ord s t fuel = some introducing ∧
      (∀ k, k ∈ cycle ↔ k = s ∨ k = t ∨ p.Between s t k ∨ p.Between t s k) ∧
      (introducing = true ↔ ∃ k, p.Between s t k ∨ p.Between t s k) := by
  obtain ⟨N, hN⟩ := getParentChildPair_spec ord h hac hs ht
  refine ⟨max N (p.sets.length + 1), fun fuel hfuel => ?_⟩
  obtain ⟨pair, hpair, hspec⟩ := hN fuel (le_of_max_le_left hfuel)
  unfold getCycleIntroducedByMerging isMergeIntroducingCycle
  rw [hpair]
  match pair, hspec with
  | none, ⟨hst, hts⟩ =>
      have hnone : ∀ k, ¬ (p.Between s t k ∨ p.Between t s k) := by
        rintro k (hk | hk)
        · exact hst (hk.1.trans hk.2)
        · exact hts (hk.1.trans hk.2)
      refine ⟨_, false, rfl, rfl, fun k => ?_, by simpa using hnone⟩
      have hk := hnone k
      simp only [PtrSet.mem_ofList, mem_cons, not_mem_nil, or_false]
      tauto
  | some (parent, child), ⟨hpath, hwhich⟩ =>
      have hlive : p.IsSet parent ∧ p.IsSet child := by
        rcases hwhich with ⟨rfl, rfl⟩ | ⟨rfl, rfl⟩
        · exact ⟨hs, ht⟩
        · exact ⟨ht, hs⟩
      have hfuel' := le_of_max_le_right hfuel
      obtain ⟨descendants, hdesc, hmemd⟩ := getDescendants_spec ord h hlive.1 hfuel'
      obtain ⟨ancestors, hanc, hmema⟩ := getAncestors_spec ord h hlive.2 hfuel'
      have hoverlap : ∀ k, k ∈ getOverlap descendants ancestors ↔ p.Between parent child k := by
        intro k
        rw [getOverlap, PtrSet.mem_filter, decide_eq_true_eq, hmemd, hmema]
        rfl
      have hbetween : ∀ k, p.Between s t k ∨ p.Between t s k ↔ p.Between parent child k := by
        intro k
        rcases hwhich with ⟨rfl, rfl⟩ | ⟨rfl, rfl⟩
        · exact hac.between_iff hpath k
        · rw [or_comm]
          exact hac.between_iff hpath k
      have hends : ∀ k, k = s ∨ k = t ↔ k = child ∨ k = parent := by
        intro k
        rcases hwhich with ⟨rfl, rfl⟩ | ⟨rfl, rfl⟩
        · exact or_comm
        · exact Iff.rfl
      refine ⟨((getOverlap descendants ancestors).insert parent).insert child,
        decide ((getOverlap descendants ancestors).size > 0), ?_, ?_, fun k => ?_, ?_⟩
      · simp [hdesc, hanc]
      · simp [hdesc, hanc]
      · rw [PtrSet.mem_insert, PtrSet.mem_insert, hoverlap, hbetween, ← or_assoc, ← or_assoc, hends]
      · simp only [decide_eq_true_eq, hbetween]
        constructor
        · intro hpos
          obtain ⟨k, hk⟩ := exists_mem_of_length_pos hpos
          exact ⟨k, (hoverlap k).mp hk⟩
        · rintro ⟨k, hk⟩
          exact length_pos_of_mem ((hoverlap k).mpr hk)

/-! ## The merge -/

theorem Inv.exists_holds_of_path (h : Inv U L p) (hn : n ∈ p.allNodes)
    (hpath : (∃ t, TransGen p.SetEdge n.theT t) ∨ ∃ s, TransGen p.SetEdge s n.theT) :
    ∃ a, p.Holds n a := by
  rcases hpath with ⟨t, ht⟩ | ⟨s, hs⟩
  · obtain ⟨k, hedge, _⟩ := TransGen.head'_iff.mp ht
    obtain ⟨m, hm, rfl⟩ := (hedge.isSet h.clean).2
    obtain ⟨a, _, hna, _⟩ := h.parent_of_edge n m ((setEdge_iff h.clean hn hm).mp hedge)
    exact ⟨a, hna⟩
  · obtain ⟨k, _, hedge⟩ := TransGen.tail'_iff.mp hs
    obtain ⟨m, hm, rfl⟩ := (hedge.isSet h.clean).1
    obtain ⟨_, b, _, hnb, _⟩ := h.parent_of_edge m n ((setEdge_iff h.clean hm hn).mp hedge)
    exact ⟨b, hnb⟩

variable {nA nB : DGNode SetPtr} {a b : SccPtr}

/-- A merge takes in what lies between the two sets. -/
theorem Inv.merged_iff (h : Inv U L p) (hac : p.NoCycle) (hA : nA ∈ p.allNodes)
    (hB : nB ∈ p.allNodes) (ha : p.Holds nA a ∨ p.Holds nB a) (hm : m ∈ p.allNodes)
    (hmb : p.Holds m b) :
    collapse (Within U L) (p.Together ⊔ p.Joined (PtrSet.ofList [nA.theT, nB.theT])) a b ↔
      m.theT = nA.theT ∨ m.theT = nB.theT ∨ p.Between nA.theT nB.theT m.theT ∨
        p.Between nB.theT nA.theT m.theT := by
  obtain ⟨n, hn, hna, hwhich⟩ : ∃ n ∈ p.allNodes, p.Holds n a ∧ (n = nA ∨ n = nB) := by
    rcases ha with ha | ha
    · exact ⟨nA, hA, ha, .inl rfl⟩
    · exact ⟨nB, hB, ha, .inr rfl⟩
  have hfilled : ∀ k, p.Filled (PtrSet.ofList [nA.theT, nB.theT]) k ↔
      k ∈ p.allNodes ∧ (k.theT = nA.theT ∨ k.theT = nB.theT) ∧ ∃ a, p.Holds k a := by
    intro k
    simp [Filled]
  have hstart : p.Filled (PtrSet.ofList [nA.theT, nB.theT]) n :=
    (hfilled n).mpr ⟨hn, hwhich.imp (congrArg _) (congrArg _), a, hna⟩
  rw [collapse, h.stronglyConnected_joined_iff _ hn hm hna hmb, stronglyConnected_contract_iff hstart]
  constructor
  · rintro ⟨⟨k, hk, hkm⟩, k', hk', hmk'⟩
    obtain ⟨hkmem, hkset, _⟩ := (hfilled k).mp hk
    obtain ⟨hkmem', hkset', _⟩ := (hfilled k').mp hk'
    have hkm' := (reach_setEdge_iff h.clean hkmem hm).mpr hkm
    have hmk := (reach_setEdge_iff h.clean hm hkmem').mpr hmk'
    rcases reflTransGen_iff_eq_or_transGen.mp hkm' with heq | hpath
    · rw [heq]
      tauto
    · rcases reflTransGen_iff_eq_or_transGen.mp hmk with heq | hpath'
      · rw [← heq]
        tauto
      · -- a path from a set to itself is a cycle
        rcases hkset with hkset | hkset <;> rcases hkset' with hkset' | hkset' <;>
          rw [hkset] at hpath <;> rw [hkset'] at hpath'
        · exact absurd (hpath.trans hpath') (hac _)
        · exact .inr (.inr (.inl ⟨hpath, hpath'⟩))
        · exact .inr (.inr (.inr ⟨hpath, hpath'⟩))
        · exact absurd (hpath.trans hpath') (hac _)
  · have hbetween : ∀ {k k' : DGNode SetPtr}, k ∈ p.allNodes → k' ∈ p.allNodes →
        (k.theT = nA.theT ∨ k.theT = nB.theT) → (k'.theT = nA.theT ∨ k'.theT = nB.theT) →
        p.Between k.theT k'.theT m.theT →
        (∃ k, p.Filled (PtrSet.ofList [nA.theT, nB.theT]) k ∧ ReflTransGen p.Edge k m) ∧
          ∃ k, p.Filled (PtrSet.ofList [nA.theT, nB.theT]) k ∧ ReflTransGen p.Edge m k := by
      rintro k k' hk hk' hset hset' ⟨hkm, hmk⟩
      refine ⟨⟨k, (hfilled k).mpr ⟨hk, hset, ?_⟩, ?_⟩, k', (hfilled k').mpr ⟨hk', hset', ?_⟩, ?_⟩
      · exact h.exists_holds_of_path hk (.inl ⟨_, hkm⟩)
      · exact (reach_setEdge_iff h.clean hk hm).mp hkm.to_reflTransGen
      · exact h.exists_holds_of_path hk' (.inr ⟨_, hmk⟩)
      · exact (reach_setEdge_iff h.clean hm hk').mp hmk.to_reflTransGen
    rintro (heq | heq | hm' | hm')
    · have hself := (hfilled m).mpr ⟨hm, .inl heq, b, hmb⟩
      exact ⟨⟨m, hself, .refl⟩, m, hself, .refl⟩
    · have hself := (hfilled m).mpr ⟨hm, .inr heq, b, hmb⟩
      exact ⟨⟨m, hself, .refl⟩, m, hself, .refl⟩
    · exact hbetween hA hB (.inl rfl) (.inr rfl) hm'
    · exact hbetween hB hA (.inr rfl) (.inl rfl) hm'

/-! ## The agreement -/

def HoldsIn (p : SCCDAGPartition) (set : SetPtr) (a : SccPtr) : Prop :=
  ∃ sccs, p.heap set = some sccs ∧ a ∈ sccs

/-- What the preview promises of the partition after the merge. -/
structure PreviewAgrees (p p' : SCCDAGPartition) (setA setB : SetPtr) (cycle : PtrSet SetPtr)
    (introducing : Bool) : Prop where
  /-- The set that contains the two sets is the union of the previewed sets. -/
  merged_eq : ∀ a, p.HoldsIn setA a ∨ p.HoldsIn setB a → ∃ mergedSet, p'.IsSet mergedSet ∧
    p'.HoldsIn mergedSet a ∧ ∀ b, p'.HoldsIn mergedSet b ↔ ∃ s ∈ cycle, p.HoldsIn s b
  /-- A third set is merged exactly if the preview says so. -/
  introducing_iff : introducing = true ↔ ∃ s, p.IsSet s ∧ s ≠ setA ∧ s ≠ setB ∧
    ∃ a b, (p.HoldsIn setA a ∨ p.HoldsIn setB a) ∧ p.HoldsIn s b ∧ p'.setOfSCC a = p'.setOfSCC b

/-- The previews end and agree with the merge. -/
def PreviewsMerge (ord : IterOrder) (it : SccIterator) (p : SCCDAGPartition) (setA setB : SetPtr) :
    Prop :=
  ∃ N, ∀ fuel ≥ N, ∃ cycle introducing p',
    p.getCycleIntroducedByMerging ord setA setB fuel = some cycle ∧
    p.isMergeIntroducingCycle ord setA setB fuel = some introducing ∧
    p.mergeSetsAndCollapseResultingCycles ord it (PtrSet.ofList [setA, setB]) = some p' ∧
    p.PreviewAgrees p' setA setB cycle introducing

theorem Inv.holds_iff_together (h : Inv U L p) (hn : n ∈ p.allNodes)
    (hna : p.Holds n a) : p.Holds n b ↔ p.Together a b := by
  constructor
  · exact fun hnb => .inr ⟨n, ⟨hn, hna⟩, hn, hnb⟩
  · rintro (rfl | ⟨m, ⟨hm, hma⟩, _, hmb⟩)
    · exact hna
    · exact h.holds_unique m hm n hn a hma hna ▸ hmb

theorem Inv.setOfSCC_eq_iff (h : Inv U L p) (ha : U a) :
    p.setOfSCC a = p.setOfSCC b ↔ p.Together a b := by
  obtain ⟨n, hn, hna, hset⟩ := h.setOfSCC_eq ha
  rw [← h.holds_iff_together hn hna, hset, eq_comm]
  constructor
  · intro heq
    obtain ⟨m, hm, hmn, hmb⟩ := (h.lookup_iff b n.theT).mp heq
    exact h.clean.node_ext hm hn hmn ▸ hmb
  · exact fun hnb => (h.lookup_iff b n.theT).mpr ⟨n, hn, rfl, hnb⟩

theorem Inv.mergePair_together (h : Inv U L p) (hac : p.NoCycle) (ord : IterOrder)
    (it : SccIterator) (hA : nA ∈ p.allNodes) (hB : nB ∈ p.allNodes) :
    ∃ p', p.mergeSetsAndCollapseResultingCycles ord it (PtrSet.ofList [nA.theT, nB.theT]) = some p' ∧
      Inv U L p' ∧ ∀ a b m, p.Holds nA a ∨ p.Holds nB a → m ∈ p.allNodes → p.Holds m b →
        (p'.Together a b ↔ m.theT = nA.theT ∨ m.theT = nB.theT ∨
          p.Between nA.theT nB.theT m.theT ∨ p.Between nB.theT nA.theT m.theT) := by
  obtain ⟨p', hp', h', _, htog⟩ := h.mergeSetsAndCollapse_spec ord it (setsOf_pair hA hB)
  refine ⟨p', hp', h', fun a b m ha hm hmb => ?_⟩
  rw [htog, h.merged_iff hac hA hB ha hm hmb]

/-- The merged set is the union of sets that are exactly those with SCCs together with those of
the two. -/
theorem Inv.exists_mergedSet (h : Inv U L p) (h' : Inv U L p') {cycle : PtrSet SetPtr} (ha : U a)
    (hlive : ∀ s ∈ cycle, p.IsSet s)
    (htogether : ∀ b m, m ∈ p.allNodes → p.Holds m b → (p'.Together a b ↔ m.theT ∈ cycle)) :
    ∃ mergedSet, p'.IsSet mergedSet ∧ p'.HoldsIn mergedSet a ∧
      ∀ b, p'.HoldsIn mergedSet b ↔ ∃ s ∈ cycle, p.HoldsIn s b := by
  obtain ⟨n', hn', hna', _⟩ := h'.setOfSCC_eq ha
  refine ⟨n'.theT, ⟨n', hn', rfl⟩, hna', fun b => ?_⟩
  refine (h'.holds_iff_together hn' hna').trans ⟨fun hab => ?_, ?_⟩
  · have hn'b := (h'.holds_iff_together hn' hna').mpr hab
    obtain ⟨m, hm, hmb⟩ := (h.mem_iff b).mp ((h'.mem_iff b).mpr ⟨n', hn', hn'b⟩)
    exact ⟨m.theT, (htogether b m hm hmb).mp hab, hmb⟩
  · rintro ⟨s, hs, hsb⟩
    obtain ⟨m, hm, rfl⟩ := hlive s hs
    exact (htogether b m hm hsb).mpr hs

/-- **Merge preview**: in a graph without cycles the set that results from merging two sets is
the union of the previewed sets, and the preview tells whether more than the two are merged. -/
theorem preview_agrees {initialSets : List (PtrSet SccPtr)}
    {sccToParentsMap : AList fun _ : SccPtr => PtrSet SccPtr}
    (hdisj : initialSets.Pairwise fun s t => ∀ a ∈ s, a ∉ t)
    (hp : Reachable initialSets sccToParentsMap p) (hac : p.NoCycle) (ord : IterOrder)
    (it : SccIterator) {setA setB : SetPtr} (hA : p.IsSet setA) (hB : p.IsSet setB) :
    p.PreviewsMerge ord it setA setB := by
  have h := hp.inv hdisj
  obtain ⟨N, hN⟩ := preview_spec ord h.clean hac hA hB
  refine ⟨N, fun fuel hfuel => ?_⟩
  obtain ⟨cycle, introducing, hcycle, hintro, hmem, hiff⟩ := hN fuel hfuel
  obtain ⟨nA, hnA, rfl⟩ := hA
  obtain ⟨nB, hnB, rfl⟩ := hB
  obtain ⟨p', hp', h', htog⟩ := h.mergePair_together hac ord it hnA hnB
  have hincluded : ∀ a, p.HoldsIn nA.theT a ∨ p.HoldsIn nB.theT a → Included initialSets a :=
    fun a ha => (h.mem_iff a).mpr (ha.elim (fun ha => ⟨nA, hnA, ha⟩) fun ha => ⟨nB, hnB, ha⟩)
  have htogether : ∀ a b m, p.HoldsIn nA.theT a ∨ p.HoldsIn nB.theT a → m ∈ p.allNodes →
      p.Holds m b → (p'.Together a b ↔ m.theT ∈ cycle) := fun a b m ha hm hmb =>
    (htog a b m ha hm hmb).trans (hmem m.theT).symm
  have hlive : ∀ s ∈ cycle, p.IsSet s := by
    intro s hs
    rcases (hmem s).mp hs with rfl | rfl | hs | hs
    · exact ⟨nA, hnA, rfl⟩
    · exact ⟨nB, hnB, rfl⟩
    · exact hs.isSet h.clean
    · exact hs.isSet h.clean
  refine ⟨cycle, introducing, p', hcycle, hintro, hp', fun a ha => ?_, ?_⟩
  · exact h.exists_mergedSet h' (hincluded a ha) hlive fun b m => htogether a b m ha
  · rw [hiff]
    constructor
    · rintro ⟨k, hk⟩
      have hkcycle : k ∈ cycle := (hmem k).mpr (.inr (.inr hk))
      obtain ⟨m, hm, rfl⟩ := hlive k hkcycle
      have hne : m.theT ≠ nA.theT ∧ m.theT ≠ nB.theT := by
        rcases hk with hk | hk
        · exact hk.ne hac
        · exact (hk.ne hac).symm
      obtain ⟨a, ha⟩ := h.exists_holds_of_path hnA
        (hk.imp (fun hk => ⟨_, hk.1⟩) fun hk => ⟨_, hk.2⟩)
      obtain ⟨b, hmb⟩ := h.exists_holds_of_path hm
        (.inl (hk.elim (fun hk => ⟨_, hk.2⟩) fun hk => ⟨_, hk.2⟩))
      refine ⟨m.theT, ⟨m, hm, rfl⟩, hne.1, hne.2, a, b, .inl ha, hmb, ?_⟩
      rw [h'.setOfSCC_eq_iff (hincluded a (.inl ha)), htogether a b m (.inl ha) hm hmb]
      exact hkcycle
    · rintro ⟨_, ⟨m, hm, rfl⟩, hneA, hneB, a, b, ha, hmb, heq⟩
      rw [h'.setOfSCC_eq_iff (hincluded a ha), htogether a b m ha hm hmb, hmem] at heq
      exact ⟨m.theT, (heq.resolve_left hneA).resolve_left hneB⟩

/-- Joining the ends of a chain. -/
theorem preview_agrees_chain : ∃ p, new .stored 0 chainSets chainParents = some p ∧
    p.PreviewsMerge .stored .saturating 0 2 := by
  have hdisj : chainSets.Pairwise fun s t => ∀ a ∈ s, a ∉ t := by
    change chainSets.Pairwise fun s t => ∀ a ∈ s.elems, a ∉ t.elems
    decide
  obtain ⟨p, hp, _⟩ := new_spec .stored 0 hdisj chainParents
  have hcheck : (new .stored 0 chainSets chainParents).any (fun p =>
      decide (p.IsSet 0) && decide (p.IsSet 2) &&
        p.allEdges.elems.all fun e => decide (e.getSrc < e.getDst)) = true := by
    decide +kernel
  rw [hp, Option.any_some, Bool.and_eq_true, Bool.and_eq_true, decide_eq_true_eq, decide_eq_true_eq,
    all_eq_true] at hcheck
  obtain ⟨⟨h0, h2⟩, hedges⟩ := hcheck
  -- a path goes from lower to higher sets
  have hlt : ∀ s t, TransGen p.SetEdge s t → s < t := by
    intro s t hpath
    induction hpath with
    | single hedge =>
        obtain ⟨e, he, rfl, rfl⟩ := hedge
        exact of_decide_eq_true (hedges e he)
    | tail _ hedge ih =>
        obtain ⟨e, he, rfl, rfl⟩ := hedge
        exact lt_trans ih (of_decide_eq_true (hedges e he))
  exact ⟨p, hp, preview_agrees hdisj (.constructed hp) (fun s hs => lt_irrefl s (hlt s s hs)) .stored
    .saturating h0 h2⟩

end SCCDAGPartition

end Noelle
