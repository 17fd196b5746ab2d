import Noelle.Lib.Run
import Noelle.SCCDAGPartition.Collapse

/-!
# SCCDAGPartition.Runs

Runs of a partition: its constructor and then any number of merges, each followed
by a collapse of the cycles it made.
-/

namespace Noelle

open Relation

namespace SCCDAGPartition

def Included (initialSets : List (PtrSet SccPtr)) (a : SccPtr) : Prop := ∃ s ∈ initialSets, a ∈ s

/-- Sets, map and edges agree, and the graph of sets is acyclic. -/
structure Consistent (U : SccPtr → Prop) (L : SccPtr → SccPtr → Prop) (p : SCCDAGPartition) :
    Prop where
  /-- Every included SCC is in exactly one live set, and the map sends it there. -/
  setOfSCC_eq : ∀ a, U a → ∃ n ∈ p.allNodes, p.Holds n a ∧ p.setOfSCC a = some n.theT ∧
    ∀ m ∈ p.allNodes, p.Holds m a → m = n
  /-- Two live sets have exactly one edge if some SCC of the one is a listed parent of
  some SCC of the other, and none otherwise. -/
  edge_iff : ∀ n ∈ p.allNodes, ∀ m ∈ p.allNodes, n ≠ m →
    (p.ParentSet L n m → ∃! e, e ∈ p.allEdges ∧ e.srcNode = n ∧ e.dstNode = m) ∧
    (¬ p.ParentSet L n m → ¬ p.Edge n m)
  /-- No cycle goes through two or more live sets. -/
  acyclic : Acyclic p.Edge

theorem Inv.consistent {U : SccPtr → Prop} {L : SccPtr → SccPtr → Prop} {p : SCCDAGPartition}
    (h : Inv U L p) (hac : Acyclic p.Edge) : Consistent U L p where
  setOfSCC_eq := fun a ha => by
    obtain ⟨n, hn, hna⟩ := (h.mem_iff a).mp ha
    exact ⟨n, hn, hna, (h.lookup_iff a n.theT).mpr ⟨n, hn, rfl, hna⟩,
      fun m hm hma => h.holds_unique m hm n hn a hma hna⟩
  edge_iff := fun n hn m hm hnm => by
    refine ⟨fun hpar => ?_, fun hno hedge => hno (h.parent_of_edge n m hedge)⟩
    obtain ⟨e, he, hs, hd⟩ := h.edge_of_parent n hn m hm hnm hpar
    refine ⟨e, ⟨he, hs, hd⟩, fun e' he' => ?_⟩
    exact h.simple e' he'.1 e he (he'.2.1.trans hs.symm) (he'.2.2.trans hd.symm)
  acyclic := hac

/-- **Partition under merging**: from any partition into disjoint sets, every run of
merges succeeds, and sets, map and edges agree after each of them. -/
theorem consistent_after_each (ord : IterOrder) (it : SccIterator) (self : Nat)
    {initialSets : List (PtrSet SccPtr)} (hdisj : initialSets.Pairwise fun s t => ∀ a ∈ s, a ∉ t)
    (sccToParentsMap : AList fun _ : SccPtr => PtrSet SccPtr) :
    ∃ p, new ord self initialSets sccToParentsMap = some p ∧
      ∀ merges, Calls (mergeSetsAndCollapseResultingCycles ord it) SetsOf p merges →
        AfterEach (mergeSetsAndCollapseResultingCycles ord it)
          (Consistent (Included initialSets) (Listed sccToParentsMap)) p merges := by
  obtain ⟨p, hp, h⟩ := new_spec ord self hdisj sccToParentsMap
  refine ⟨p, hp, fun merges hcalls => AfterEach.of_invariant
    (I := Inv (Included initialSets) (Listed sccToParentsMap)) ?_ h hcalls⟩
  intro q sets hq hsets
  obtain ⟨q', hq', hinv, hac, _⟩ := hq.mergeSetsAndCollapse_spec ord it hsets
  exact ⟨q', hq', hinv, hinv.consistent hac⟩

/-- A cycle of three sets and a set outside it. -/
def sampleSets : List (PtrSet SccPtr) :=
  [PtrSet.ofList [1, 2], PtrSet.ofList [3], PtrSet.ofList [4], PtrSet.ofList [5]]

def sampleParents : AList fun _ : SccPtr => PtrSet SccPtr :=
  List.toAList [⟨3, PtrSet.ofList [1, 9]⟩, ⟨4, PtrSet.ofList [3]⟩, ⟨2, PtrSet.ofList [4, 1]⟩,
    ⟨5, PtrSet.ofList [4]⟩]

theorem sampleSets_disjoint : sampleSets.Pairwise fun s t => ∀ a ∈ s, a ∉ t := by
  change sampleSets.Pairwise fun s t => ∀ a ∈ s.elems, a ∉ t.elems
  decide

/-- Merging the sets of `4` and `5` closes a cycle through `{1, 2}` and `{3}`. -/
theorem consistent_after_each_sample :
    ∃ p, new .stored 0 sampleSets sampleParents = some p ∧
      AfterEach (mergeSetsAndCollapseResultingCycles .stored .saturating)
        (Consistent (Included sampleSets) (Listed sampleParents)) p [PtrSet.ofList [2, 3]] := by
  obtain ⟨p, hp, hruns⟩ :=
    consistent_after_each .stored .saturating 0 sampleSets_disjoint sampleParents
  have hcheck : (new .stored 0 sampleSets sampleParents).any
      (fun p => decide (p.SetsOf (PtrSet.ofList [2, 3]))) = true := by decide +kernel
  rw [hp, Option.any_some, decide_eq_true_eq] at hcheck
  exact ⟨p, hp, hruns _ ⟨hcheck, fun _ _ => trivial⟩⟩

end SCCDAGPartition

end Noelle
