import Noelle.DG.TopLevel
import Noelle.Lib.DepthOrder
import Noelle.SCCDAGPartition.Queries

/-!
# SCCDAGPartition.DepthOrder

The sets of a partition, each after the sets that have an edge to it.

A set waits for all sources of its incoming edges, so a set with an edge to itself waits for
itself and the last assertion fails; the constructor makes such sets.
-/

namespace Noelle

open Relation List

namespace SCCDAGPartition

/-- `SCCDAGPartition::getDepthOrderedSets`, with its assertions. -/
def getDepthOrderedSets (ord : IterOrder) (p : SCCDAGPartition) (fuel : Nat) :
    Option (List SetPtr) := do
  let rootNodes := p.getTopLevelNodes false
  if rootNodes.size = 0 then none
  else
    let depthOrderedSets ← depthOrder (p.parentSets ord) (p.childSets ord)
      ((ord.visit rootNodes.elems).map DGNode.theT) fuel
    if depthOrderedSets.length = p.numNodes then some depthOrderedSets else none

/-- Every set once, after the other sets that have an edge to it. -/
structure IsDepthOrder (p : SCCDAGPartition) (sets : List SetPtr) : Prop where
  nodup : sets.Nodup
  mem_iff : ∀ s, s ∈ sets ↔ p.IsSet s
  parents_before : ∀ pre s post, sets = pre ++ s :: post → ∀ t, t ≠ s → p.SetEdge t s → t ∈ pre

/-- `getDepthOrderedSets` ends with the sets in order. -/
def ListsSetsInOrder (ord : IterOrder) (p : SCCDAGPartition) : Prop :=
  ∃ N, ∀ fuel ≥ N, ∃ sets, p.getDepthOrderedSets ord fuel = some sets ∧ p.IsDepthOrder sets

variable {p : SCCDAGPartition} {l : List SetPtr}

theorem sets_nodup (h : p.toDG.Clean) : p.sets.Nodup :=
  p.allNodes.nodup.map_on fun _ hn _ hm heq => h.node_ext hn hm heq

theorem length_sets (p : SCCDAGPartition) : p.sets.length = p.numNodes := length_map _

theorem mem_roots_iff (ord : IterOrder) (h : p.toDG.Clean) {s : SetPtr} :
    s ∈ (ord.visit (p.getTopLevelNodes false).elems).map DGNode.theT ↔
      p.IsSet s ∧ ∀ t, p.SetEdge t s → t = s := by
  simp only [mem_map, ord.mem_visit, PtrSet.mem_elems, h.toWF.mem_getTopLevelNodes,
    Bool.false_eq_true, false_implies, true_and, false_and, or_false]
  constructor
  · rintro ⟨n, ⟨hn, hnone⟩, rfl⟩
    refine ⟨⟨n, hn, rfl⟩, ?_⟩
    rintro t ⟨e, he, rfl, hdst⟩
    exact congrArg _ (hnone e he (h.node_ext (h.edge_nodes he).2 hn hdst))
  · rintro ⟨⟨n, hn, rfl⟩, hnone⟩
    refine ⟨n, ⟨hn, fun e he hdst => ?_⟩, rfl⟩
    exact h.node_ext (h.edge_nodes he).1 hn (hnone _ ⟨e, he, rfl, congrArg _ hdst⟩)

/-- The traversal lists every set after its parents. -/
theorem traversal_spec (ord : IterOrder) (h : p.toDG.Clean) :
    ∃ N, ∀ fuel ≥ N, ∃ l, depthOrder (p.parentSets ord) (p.childSets ord)
        ((ord.visit (p.getTopLevelNodes false).elems).map DGNode.theT) fuel = some l ∧
      ListedInOrder p.sets p.SetEdge l ∧
      ∀ s ∈ p.sets, (∀ t, p.SetEdge t s → t ∈ l) → s ∈ l := by
  refine depthOrder_spec (parentSets_lists ord h) (childSets_lists ord h) (fun s hs => ?_)
    fun s hs hnone => ?_
  · exact mem_sets.mpr ((mem_roots_iff ord h).mp hs).1
  · exact (mem_roots_iff ord h).mpr ⟨mem_sets.mp hs, fun t ht => absurd ht (hnone t)⟩

theorem getDepthOrderedSets_eq_some_iff {ord : IterOrder} {fuel : Nat} {sets : List SetPtr}
    (hl : depthOrder (p.parentSets ord) (p.childSets ord)
      ((ord.visit (p.getTopLevelNodes false).elems).map DGNode.theT) fuel = some l) :
    p.getDepthOrderedSets ord fuel = some sets ↔
      (p.getTopLevelNodes false).size ≠ 0 ∧ l.length = p.numNodes ∧ l = sets := by
  unfold getDepthOrderedSets
  by_cases hroots : (p.getTopLevelNodes false).size = 0 <;> simp [hroots, hl]

/-- Without edges of sets to themselves, a graph without cycles through two or more sets has
no cycles. -/
theorem not_transGen_setEdge (h : p.toDG.Clean) (hac : Acyclic p.Edge)
    (hirrefl : ∀ s, ¬ p.SetEdge s s) (s : SetPtr) : ¬ TransGen p.SetEdge s s := by
  intro hcycle
  obtain ⟨k, hedge, hpath⟩ := TransGen.head'_iff.mp hcycle
  obtain ⟨⟨n, hn, rfl⟩, m, hm, rfl⟩ := hedge.isSet h
  have hnm : ReflTransGen p.Edge n m := .single ((setEdge_iff h hn hm).mp hedge)
  obtain rfl := hac n m ⟨hnm, (reach_setEdge_iff h hm hn).mp hpath⟩
  exact hirrefl _ hedge

theorem ListsSetsInOrder.not_self {ord : IterOrder} (h : p.ListsSetsInOrder ord)
    (hc : p.toDG.Clean) : (p.getTopLevelNodes false).size ≠ 0 ∧ ∀ s, ¬ p.SetEdge s s := by
  obtain ⟨N, hN⟩ := h
  obtain ⟨M, hM⟩ := traversal_spec ord hc
  obtain ⟨sets, hsets, horder⟩ := hN (max N M) (le_max_left N M)
  obtain ⟨l, hl, hlisted, _⟩ := hM (max N M) (le_max_right N M)
  obtain ⟨hroots, _, rfl⟩ := (getDepthOrderedSets_eq_some_iff hl).mp hsets
  exact ⟨hroots, fun s hself =>
    hlisted.not_self ((horder.mem_iff s).mpr (hself.isSet hc).1) hself⟩

/-- **Depth order**: in a partition without cycles through two or more sets, all sets are listed
in order exactly if there is a set and none has an edge to itself. -/
theorem listsSetsInOrder_iff {initialSets : List (PtrSet SccPtr)}
    {sccToParentsMap : AList fun _ : SccPtr => PtrSet SccPtr}
    (hdisj : initialSets.Pairwise fun s t => ∀ a ∈ s, a ∉ t)
    (hp : Reachable initialSets sccToParentsMap p) (hac : Acyclic p.Edge) (ord : IterOrder) :
    p.ListsSetsInOrder ord ↔ (∃ s, p.IsSet s) ∧ ∀ s, ¬ p.SetEdge s s := by
  have h := (hp.inv hdisj).clean
  constructor
  · intro hlists
    obtain ⟨hroots, hirrefl⟩ := hlists.not_self h
    obtain ⟨root, hroot⟩ := exists_mem_of_length_pos (Nat.pos_of_ne_zero hroots)
    exact ⟨⟨_, root, (PtrSet.mem_filter.mp hroot).1, rfl⟩, hirrefl⟩
  · rintro ⟨⟨s, hs⟩, hirrefl⟩
    obtain ⟨M, hM⟩ := traversal_spec ord h
    refine ⟨M, fun fuel hfuel => ?_⟩
    obtain ⟨l, hl, hlisted, hmaximal⟩ := hM fuel hfuel
    have hall := mem_of_maximal (parentSets_lists ord h) (not_transGen_setEdge h hac hirrefl)
      hmaximal
    have hmem : ∀ s, s ∈ l ↔ p.IsSet s := fun s =>
      ⟨fun hs => mem_sets.mp (hlisted.mem s hs), fun hs => hall s (mem_sets.mpr hs)⟩
    have hperm : l.Perm p.sets := (perm_ext_iff_of_nodup hlisted.nodup (sets_nodup h)).mpr
      fun s => (hmem s).trans mem_sets.symm
    have hlength : l.length = p.numNodes := hperm.length_eq.trans (length_sets p)
    -- the first listed set is a root
    have hroots : (p.getTopLevelNodes false).size ≠ 0 := by
      intro hzero
      have hnil : (p.getTopLevelNodes false).elems = [] := eq_nil_of_length_eq_zero hzero
      have hnone : (ord.visit (p.getTopLevelNodes false).elems).map DGNode.theT = [] := by
        rw [map_eq_nil_iff, eq_nil_iff_forall_not_mem]
        intro n hn
        rw [ord.mem_visit, hnil] at hn
        exact not_mem_nil hn
      rw [hnone, depthOrder, loopM_of_not_cond rfl] at hl
      obtain rfl : [] = l := Option.some.inj hl
      exact not_mem_nil ((hmem s).mpr hs)
    exact ⟨l, (getDepthOrderedSets_eq_some_iff hl).mpr ⟨hroots, hlength, rfl⟩, hlisted.nodup, hmem,
      fun pre s post hsplit t _ ht => hlisted.parents_before pre s post hsplit t ht⟩

theorem dependentSets_acyclic {p : SCCDAGPartition} (h : p.toDG.Clean)
    (hedges : ∀ s t, p.SetEdge s t ↔ s = 0 ∧ t = 0) : Acyclic p.Edge := by
  have hself : ∀ n m, p.Edge n m → n = m := by
    intro n m hnm
    obtain ⟨hn, hm⟩ := h.edge_mem hnm
    obtain ⟨hs, ht⟩ := (hedges n.theT m.theT).mp ((setEdge_iff h hn hm).mpr hnm)
    exact h.node_ext hn hm (hs.trans ht.symm)
  intro n m hnm
  induction hnm.1 with
  | refl => rfl
  | tail hreach hedge ih =>
      obtain rfl := hself _ _ hedge
      exact ih hnm

/-- Two SCCs of one set that depend on each other keep the sets from being listed. -/
theorem dependentSets_not_listed : ∃ p, new .stored 0 dependentSets dependentParents = some p ∧
    Acyclic p.Edge ∧ ¬ p.ListsSetsInOrder .stored := by
  obtain ⟨p, hp, _, hedges⟩ := dependentSets_spec
  have h := ((Reachable.constructed hp).inv dependentSets_disjoint).clean
  refine ⟨p, hp, dependentSets_acyclic h hedges, fun hlists => ?_⟩
  exact (hlists.not_self h).2 0 ((hedges 0 0).mpr ⟨rfl, rfl⟩)

theorem listsSetsInOrder_iff_dependentSets :
    ∃ p, new .stored 0 dependentSets dependentParents = some p ∧
      (p.ListsSetsInOrder .stored ↔ (∃ s, p.IsSet s) ∧ ∀ s, ¬ p.SetEdge s s) := by
  obtain ⟨p, hp, _, hedges⟩ := dependentSets_spec
  have h := ((Reachable.constructed hp).inv dependentSets_disjoint).clean
  exact ⟨p, hp, listsSetsInOrder_iff dependentSets_disjoint (.constructed hp)
    (dependentSets_acyclic h hedges) .stored⟩

end SCCDAGPartition

end Noelle
