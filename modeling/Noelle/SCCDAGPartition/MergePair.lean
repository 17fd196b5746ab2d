import Noelle.SCCDAGPartition.Partitioner

/-!
# SCCDAGPartition.MergePair

Merging a pair of sets and returning the merged set.

`mergePair` looks the merged set up by an SCC that it reads from the first of its arguments,
but the merge deleted that set.  New sets get new pointers, so a deleted set stays deleted
whatever the collapse of the cycles merges after it.
-/

namespace Noelle

open Option

namespace SCCDAGPartition

variable (ord : IterOrder) (it : SccIterator)

/-- `SCCDAGPartitioner::mergePair`, on the partition of the partitioner. -/
def mergePair (p : SCCDAGPartition) (setA setB : SetPtr) : Option (SetPtr × SCCDAGPartition) := do
  let p ← p.mergeSetsAndCollapseResultingCycles ord it (PtrSet.ofList [setA, setB])
  let anySCCInMergedSet ← (ord.visit (← p.heap setA).elems).head?
  let mergedSet ← p.setOfSCC anySCCInMergedSet
  return (mergedSet, p)

/-- `mergePair` returns a set of the partition that has all SCCs of both sets. -/
def ReturnsMergedSet (p : SCCDAGPartition) (setA setB : SetPtr) : Prop :=
  ∃ mergedSet p', p.mergePair ord it setA setB = some (mergedSet, p') ∧
    (∃ n ∈ p'.allNodes, n.theT = mergedSet) ∧ ∃ sccs, p'.heap mergedSet = some sccs ∧
      ∀ set old, set = setA ∨ set = setB → p.heap set = some old → ∀ a ∈ old, a ∈ sccs

variable {ord it} {p p' p'' : SCCDAGPartition}

/-! ## Deleted sets -/

/-- A later state of a partition: new sets come after the old ones. -/
structure Later (p p' : SCCDAGPartition) : Prop where
  nextSet_le : p.nextSet ≤ p'.nextSet
  heap_eq_some : ∀ set sccs, p'.heap set = some sccs →
    p.heap set = some sccs ∨ (p.nextSet ≤ set ∧ set < p'.nextSet)

namespace Later

theorem refl (p : SCCDAGPartition) : Later p p := ⟨le_rfl, fun _ _ => .inl⟩

theorem trans (h : Later p p') (h' : Later p' p'') : Later p p'' where
  nextSet_le := h.nextSet_le.trans h'.nextSet_le
  heap_eq_some := fun set sccs hset => by
    rcases h'.heap_eq_some set sccs hset with hset | ⟨hle, hlt⟩
    · exact (h.heap_eq_some set sccs hset).imp id fun hnew => ⟨hnew.1, hnew.2.trans_le h'.nextSet_le⟩
    · exact .inr ⟨h.nextSet_le.trans hle, hlt⟩

theorem heap_eq_none (h : Later p p') {set : SetPtr} (hlt : set < p.nextSet)
    (hset : p.heap set = none) : p'.heap set = none := by
  cases hset' : p'.heap set with
  | none => rfl
  | some sccs =>
      rcases h.heap_eq_some set sccs hset' with hold | ⟨hle, _⟩
      · rw [hset] at hold
        cases hold
      · exact absurd hlt (Nat.not_lt.mpr hle)

theorem of_eq (hheap : p'.heap = p.heap) (hnext : p'.nextSet = p.nextSet) : Later p p' :=
  ⟨hnext.ge, fun _ _ hset => .inl (hheap ▸ hset)⟩

theorem foldlM {α : Type} {f : SCCDAGPartition → α → Option SCCDAGPartition} {l : List α}
    (hstep : ∀ a p p', f p a = some p' → Later p p') (h : l.foldlM f p = some p') : Later p p' :=
  foldlM_preserves f (Later p) l p p' (fun a _ q q' hq hlater => hlater.trans (hstep a q q' hq)) h
    (refl p)

theorem fetchSetNode (p : SCCDAGPartition) (set : SetPtr) : Later p (p.fetchSetNode set).2 :=
  of_eq rfl rfl

theorem addSet (p : SCCDAGPartition) (sccs : PtrSet SccPtr) : Later p (p.addSet sccs).2 where
  nextSet_le := Nat.le_succ p.nextSet
  heap_eq_some := fun set sccs' hset => by
    by_cases heq : set = p.nextSet
    · exact .inr ⟨heq.ge, heq ▸ Nat.lt_succ_self p.nextSet⟩
    · exact .inl ((Function.update_of_ne heq _ _).symm.trans hset)

theorem addSetEdge {fromNode toNode : DGNode SetPtr} {fromSet toSet : SetPtr}
    (h : p.addSetEdge fromNode toNode fromSet toSet = some p') : Later p p' := by
  unfold SCCDAGPartition.addSetEdge at h
  split at h
  · exact some.inj h ▸ refl p
  · obtain ⟨_, _, rfl⟩ := map_eq_some_iff.mp h
    exact of_eq rfl rfl

end Later

/-! ## Construction -/

theorem addInitialSet_later (p : SCCDAGPartition) (initialSet : PtrSet SccPtr) :
    Later p (addInitialSet ord p initialSet) :=
  (Later.addSet p initialSet).trans (.of_eq rfl rfl)

theorem addEdgesOfSCC_later {x : (_ : SccPtr) × PtrSet SccPtr}
    (h : addEdgesOfSCC ord p x = some p') : Later p p' := by
  unfold addEdgesOfSCC at h
  split at h
  · exact some.inj h ▸ .refl p
  · refine (Later.fetchSetNode p _).trans (Later.foldlM ?_ h)
    intro parent q q' hq
    dsimp only at hq
    split at hq
    · exact some.inj hq ▸ .refl q
    · simp only [bind_eq_bind, bind_eq_some_iff] at hq
      obtain ⟨_, _, _, _, hq⟩ := hq
      exact (Later.fetchSetNode q _).trans (.addSetEdge hq)

/-! ## Merging -/

variable {mergedSet set : SetPtr} {mergedSetNode : DGNode SetPtr} {edge : DGEdge SetPtr}
  {sets : PtrSet SetPtr}

theorem transferIncoming_later (h : transferIncoming ord mergedSet mergedSetNode p edge = some p') :
    Later p p' := by
  simp only [transferIncoming, bind_eq_bind, bind_eq_some_iff] at h
  obtain ⟨merged, _, h⟩ := h
  split at h
  · exact some.inj h ▸ .of_eq rfl rfl
  · obtain ⟨_, _, h⟩ := bind_eq_some_iff.mp h
    exact (Later.fetchSetNode p _).trans (.addSetEdge h)

theorem transferOutgoing_later (h : transferOutgoing ord mergedSet mergedSetNode p edge = some p') :
    Later p p' := by
  simp only [transferOutgoing, bind_eq_bind, bind_eq_some_iff] at h
  obtain ⟨merged, _, h⟩ := h
  split at h
  · exact some.inj h ▸ .of_eq rfl rfl
  · obtain ⟨_, _, h⟩ := bind_eq_some_iff.mp h
    exact (Later.fetchSetNode p _).trans (.addSetEdge h)

theorem transferEdges_later
    (h : transferEdges ord mergedSet mergedSetNode p set = some p') : Later p p' := by
  simp only [transferEdges, bind_eq_bind, bind_eq_some_iff] at h
  obtain ⟨_, _, q, hin, hout⟩ := h
  exact (Later.fetchSetNode p _).trans ((Later.foldlM (fun _ _ _ => transferIncoming_later) hin).trans
    (Later.foldlM (fun _ _ _ => transferOutgoing_later) hout))

/-- Deleting a set frees it. -/
theorem deleteSet_spec (h : deleteSet p set = some p') :
    p'.heap = Function.update p.heap set none ∧ p'.nextSet = p.nextSet := by
  simp only [deleteSet, bind_eq_bind, bind_eq_some_iff] at h
  obtain ⟨_, _, h⟩ := h
  exact some.inj h ▸ ⟨rfl, rfl⟩

theorem deleteSet_later (h : deleteSet p set = some p') : Later p p' := by
  obtain ⟨hheap, hnext⟩ := deleteSet_spec h
  refine ⟨hnext.ge, fun s sccs hs => .inl ?_⟩
  rw [hheap] at hs
  by_cases heq : s = set
  · subst heq
    simp at hs
  · rwa [Function.update_of_ne heq] at hs

theorem deleteSets_heap : ∀ (sets : List SetPtr) (p p' : SCCDAGPartition),
    sets.foldlM deleteSet p = some p' → ∀ s ∈ sets, s < p.nextSet → p'.heap s = none
  | [], _, _, _, s, hs, _ => nomatch hs
  | set :: sets, p, p', h, s, hs, hlt => by
      rw [List.foldlM_cons] at h
      obtain ⟨q, hq, hrest⟩ := bind_eq_some_iff.mp h
      obtain ⟨hheap, hnext⟩ := deleteSet_spec hq
      rcases List.mem_cons.mp hs with rfl | hs
      · have hgone : q.heap s = none := by rw [hheap, Function.update_self]
        exact (Later.foldlM (fun _ _ _ => deleteSet_later) hrest).heap_eq_none (hnext ▸ hlt) hgone
      · exact deleteSets_heap sets q p' hrest s hs (hnext ▸ hlt)

theorem mergeSets_later (h : p.mergeSets ord sets = some p') :
    Later p p' ∧ ∀ s ∈ sets, s < p.nextSet → p'.heap s = none := by
  simp only [mergeSets, bind_eq_bind, bind_eq_some_iff] at h
  obtain ⟨⟨sccs, sccToSetMap⟩, _, q, htransfer, hdelete⟩ := h
  have hadd := Later.addSet { p with sccToSetMap := sccToSetMap } sccs
  have hmap : Later p { p with sccToSetMap := sccToSetMap } := .of_eq rfl rfl
  have hq := (hmap.trans hadd).trans (Later.foldlM (fun _ _ _ => transferEdges_later) htransfer)
  refine ⟨hq.trans (Later.foldlM (fun _ _ _ => deleteSet_later) hdelete), fun s hs hlt => ?_⟩
  exact deleteSets_heap _ q p' hdelete s (ord.mem_visit.mpr hs) (hlt.trans_le hq.nextSet_le)

theorem collectCycles_later {cycles : List (PtrSet SetPtr)}
    (h : p.collectCycles ord it = some (p', cycles)) : Later p p' := by
  simp only [collectCycles, bind_eq_bind, bind_eq_some_iff] at h
  obtain ⟨⟨q, visited, found⟩, hloop, h⟩ := h
  obtain ⟨rfl, rfl⟩ := Prod.mk.inj (some.inj h)
  refine foldlM_preserves _ (fun st => Later p st.1) _ _ _ ?_ hloop (.refl p)
  intro n _ st st' hst hlater
  split at hst
  · exact some.inj hst ▸ hlater
  · obtain ⟨found, _, hst⟩ := bind_eq_some_iff.mp hst
    exact some.inj hst ▸ hlater.trans (.of_eq rfl rfl)

theorem collapseCycles_later (h : p.collapseCycles ord it = some p') : Later p p' := by
  simp only [collapseCycles, bind_eq_bind, bind_eq_some_iff] at h
  obtain ⟨⟨q, cycles⟩, hcollect, hmerge⟩ := h
  refine (collectCycles_later hcollect).trans (Later.foldlM ?_ hmerge)
  intro sets q q' hq
  split at hq
  · exact (mergeSets_later hq).1
  · exact some.inj hq ▸ .refl q

theorem mergeSetsAndCollapse_later
    (h : p.mergeSetsAndCollapseResultingCycles ord it sets = some p') :
    Later p p' ∧ ∀ s ∈ sets, s < p.nextSet → p'.heap s = none := by
  obtain ⟨q, hmerge, hcollapse⟩ := bind_eq_some_iff.mp h
  obtain ⟨hlater, hgone⟩ := mergeSets_later hmerge
  have hlater' := collapseCycles_later hcollapse
  exact ⟨hlater.trans hlater', fun s hs hlt =>
    hlater'.heap_eq_none (hlt.trans_le hlater.nextSet_le) (hgone s hs hlt)⟩

/-! ## mergePair -/

theorem Reachable.lt_nextSet {initialSets : List (PtrSet SccPtr)}
    {sccToParentsMap : AList fun _ : SccPtr => PtrSet SccPtr}
    (h : Reachable initialSets sccToParentsMap p) {sccs : PtrSet SccPtr}
    (hset : p.heap set = some sccs) : set < p.nextSet := by
  suffices hstart : ∃ self, Later (empty self) p by
    obtain ⟨self, hlater⟩ := hstart
    rcases hlater.heap_eq_some set sccs hset with hnone | ⟨_, hlt⟩
    · cases hnone
    · exact hlt
  clear hset
  induction h with
  | @constructed ord self p hp =>
      refine ⟨self, Later.trans ?_ (Later.foldlM (fun _ _ _ => addEdgesOfSCC_later) hp)⟩
      exact foldl_rule (addInitialSet ord) (fun _ q => Later (empty self) q) (.refl _)
        fun _ initialSet _ q _ hq => hq.trans (addInitialSet_later q initialSet)
  | merged _ _ hp' ih =>
      obtain ⟨self, hlater⟩ := ih
      exact ⟨self, hlater.trans (mergeSetsAndCollapse_later hp').1⟩

/-- **Merging a pair**: in every state and for all sets, `mergePair` reads the first of them
after it was deleted. -/
theorem mergePair_reads_deleted {initialSets : List (PtrSet SccPtr)}
    {sccToParentsMap : AList fun _ : SccPtr => PtrSet SccPtr}
    (hp : Reachable initialSets sccToParentsMap p) (ord : IterOrder) (it : SccIterator)
    {setA setB : SetPtr} {sccsA sccsB : PtrSet SccPtr} (hA : p.heap setA = some sccsA)
    (_ : p.heap setB = some sccsB) :
    p.mergePair ord it setA setB = none ∧ ¬ p.ReturnsMergedSet ord it setA setB := by
  have hnone : p.mergePair ord it setA setB = none := by
    unfold mergePair
    cases hmerge : p.mergeSetsAndCollapseResultingCycles ord it (PtrSet.ofList [setA, setB]) with
    | none => rfl
    | some p' =>
        have hgone : p'.heap setA = none := (mergeSetsAndCollapse_later hmerge).2 setA
          (PtrSet.mem_ofList.mpr (.head _)) (hp.lt_nextSet hA)
        simp [hgone]
  refine ⟨hnone, ?_⟩
  rintro ⟨mergedSet, p', hsome, _⟩
  rw [hnone] at hsome
  cases hsome

/-- Merging the sets of `4` and `5` of the sample succeeds, but the set of `4` is gone then. -/
theorem mergePair_sample : ∃ p, new .stored 0 sampleSets sampleParents = some p ∧
    (∃ p', p.mergeSetsAndCollapseResultingCycles .stored .saturating (PtrSet.ofList [2, 3]) =
      some p' ∧ p'.heap 2 = none) ∧
    p.heap 2 ≠ none ∧ p.heap 3 ≠ none ∧ ¬ p.ReturnsMergedSet .stored .saturating 2 3 := by
  obtain ⟨p, hp, _⟩ := new_spec .stored 0 sampleSets_disjoint sampleParents
  have hcheck : (new .stored 0 sampleSets sampleParents).any (fun p =>
      (p.mergeSetsAndCollapseResultingCycles .stored .saturating (PtrSet.ofList [2, 3])).any
        (fun p' => (p'.heap 2).isNone) && (p.heap 2).isSome && (p.heap 3).isSome &&
      (p.mergePair .stored .saturating 2 3).isNone) = true := by decide +kernel
  rw [hp, any_some] at hcheck
  simp only [Bool.and_eq_true, isNone_iff_eq_none, isSome_iff_ne_none] at hcheck
  obtain ⟨⟨⟨hmerge, h2⟩, h3⟩, hnone⟩ := hcheck
  refine ⟨p, hp, ?_, h2, h3, ?_⟩
  · cases hq : p.mergeSetsAndCollapseResultingCycles .stored .saturating (PtrSet.ofList [2, 3]) with
    | none => simp [hq] at hmerge
    | some p' => exact ⟨p', rfl, by simpa [hq] using hmerge⟩
  · rintro ⟨mergedSet, p', hsome, _⟩
    rw [hnone] at hsome
    cases hsome

theorem mergePair_reads_deleted_sample : ∃ p, new .stored 0 sampleSets sampleParents = some p ∧
    p.mergePair .stored .saturating 2 3 = none ∧
      ¬ p.ReturnsMergedSet .stored .saturating 2 3 := by
  obtain ⟨p, hp, _⟩ := new_spec .stored 0 sampleSets_disjoint sampleParents
  have hcheck : (new .stored 0 sampleSets sampleParents).any (fun p =>
      (p.heap 2).isSome && (p.heap 3).isSome) = true := by decide +kernel
  rw [hp, any_some, Bool.and_eq_true] at hcheck
  obtain ⟨sccsA, hA⟩ := isSome_iff_exists.mp hcheck.1
  obtain ⟨sccsB, hB⟩ := isSome_iff_exists.mp hcheck.2
  exact ⟨p, hp, mergePair_reads_deleted (.constructed hp) .stored .saturating hA hB⟩

end SCCDAGPartition

end Noelle
