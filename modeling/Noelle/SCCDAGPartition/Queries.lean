import Noelle.Lib.Search
import Noelle.SCCDAGPartition.Partitioner

/-!
# SCCDAGPartition.Queries

Ancestors and descendants of the sets of a partition.

`getDescendants` and `getAncestors` record what they found.  `isAncestor` does not, so it relies
on a graph without cycles above its set; the constructor gives an SCC set an edge to itself
when its members depend on each other, which is a cycle already.
-/

namespace Noelle

open Relation

namespace SCCDAGPartition

variable (ord : IterOrder)

/-! ## The queries -/

/-- The sets that the incoming edges of a set come from, as a loop meets the edges.  Only sets
with a node are looked up, which leaves the maps of the graph as they are. -/
def parentSets (p : SCCDAGPartition) (set : SetPtr) : Option (List SetPtr) := do
  let node ← (p.fetchSetNode set).1
  return (ord.visit (p.incomingEdges node).elems).map DGEdge.getSrc

/-- The sets that the outgoing edges of a set go to. -/
def childSets (p : SCCDAGPartition) (set : SetPtr) : Option (List SetPtr) := do
  let node ← (p.fetchSetNode set).1
  return (ord.visit (p.outgoingEdges node).elems).map DGEdge.getDst

/-- `SCCDAGPartitioner::isAncestor`. -/
def isAncestor (p : SCCDAGPartition) (parentTarget target : SetPtr) (fuel : Nat) : Option Bool :=
  searchFor (p.parentSets ord) parentTarget target fuel

/-- `SCCDAGPartitioner::getDescendants`. -/
def getDescendants (p : SCCDAGPartition) (startingSet : SetPtr) (fuel : Nat) :
    Option (PtrSet SetPtr) :=
  searchAll (p.childSets ord) startingSet fuel

/-- `SCCDAGPartitioner::getAncestors`. -/
def getAncestors (p : SCCDAGPartition) (startingSet : SetPtr) (fuel : Nat) :
    Option (PtrSet SetPtr) :=
  searchAll (p.parentSets ord) startingSet fuel

/-! ## The graph over the sets -/

def IsSet (p : SCCDAGPartition) (set : SetPtr) : Prop := ∃ n ∈ p.allNodes, n.theT = set

instance (p : SCCDAGPartition) (set : SetPtr) : Decidable (p.IsSet set) :=
  inferInstanceAs (Decidable (∃ n ∈ p.allNodes.elems, n.theT = set))

def SetEdge (p : SCCDAGPartition) (s t : SetPtr) : Prop :=
  ∃ e ∈ p.allEdges, e.getSrc = s ∧ e.getDst = t

def sets (p : SCCDAGPartition) : List SetPtr := p.allNodes.elems.map DGNode.theT

variable {ord} {p : SCCDAGPartition} {s t : SetPtr} {n m : DGNode SetPtr}

theorem mem_sets : s ∈ p.sets ↔ p.IsSet s := List.mem_map

theorem setEdge_iff (h : p.toDG.Clean) (hn : n ∈ p.allNodes) (hm : m ∈ p.allNodes) :
    p.SetEdge n.theT m.theT ↔ p.Edge n m := by
  constructor
  · rintro ⟨e, he, hsrc, hdst⟩
    obtain ⟨hs, hd⟩ := h.edge_nodes he
    exact ⟨e, he, h.node_ext hs hn hsrc, h.node_ext hd hm hdst⟩
  · rintro ⟨e, he, rfl, rfl⟩
    exact ⟨e, he, rfl, rfl⟩

theorem SetEdge.isSet (h : p.toDG.Clean) (hst : p.SetEdge s t) : p.IsSet s ∧ p.IsSet t := by
  obtain ⟨e, he, rfl, rfl⟩ := hst
  obtain ⟨hs, hd⟩ := h.edge_nodes he
  exact ⟨⟨_, hs, rfl⟩, _, hd, rfl⟩

/-- Paths of sets are paths of nodes. -/
theorem reach_setEdge_iff (h : p.toDG.Clean) (hn : n ∈ p.allNodes) (hm : m ∈ p.allNodes) :
    ReflTransGen p.SetEdge n.theT m.theT ↔ ReflTransGen p.Edge n m := by
  constructor
  · intro hpath
    have hall : ∀ t, ReflTransGen p.SetEdge n.theT t →
        ∃ k ∈ p.allNodes, k.theT = t ∧ ReflTransGen p.Edge n k := by
      intro t ht
      induction ht with
      | refl => exact ⟨n, hn, rfl, .refl⟩
      | tail _ hst ih =>
          obtain ⟨k, hk, rfl, hnk⟩ := ih
          obtain ⟨j, hj, rfl⟩ := (hst.isSet h).2
          exact ⟨j, hj, rfl, hnk.tail ((setEdge_iff h hk hj).mp hst)⟩
    obtain ⟨k, hk, heq, hnk⟩ := hall m.theT hpath
    exact h.node_ext hk hm heq ▸ hnk
  · intro hpath
    induction hpath with
    | refl => exact .refl
    | tail _ hedge ih =>
        obtain ⟨e, he, rfl, rfl⟩ := hedge
        exact (ih (h.edge_nodes he).1).tail ⟨e, he, rfl, rfl⟩

variable (ord : IterOrder)

theorem childSets_lists (h : p.toDG.Clean) :
    Lists p.sets (p.childSets ord) p.SetEdge where
  next_eq_some := by
    intro s hs
    obtain ⟨n, hn, rfl⟩ := mem_sets.mp hs
    refine ⟨_, by rw [childSets, fetchSetNode_eq h hn]; rfl, fun t => ?_⟩
    simp only [List.mem_map, ord.mem_visit, PtrSet.mem_elems, h.mem_outgoing n hn]
    constructor
    · rintro ⟨e, ⟨he, rfl⟩, rfl⟩
      exact ⟨e, he, rfl, rfl⟩
    · rintro ⟨e, he, hsrc, hdst⟩
      exact ⟨e, ⟨he, h.node_ext (h.edge_nodes he).1 hn hsrc⟩, hdst⟩
  closed := fun _ _ _ hst => mem_sets.mpr (hst.isSet h).2

theorem parentSets_lists (h : p.toDG.Clean) :
    Lists p.sets (p.parentSets ord) (Function.swap p.SetEdge) where
  next_eq_some := by
    intro t ht
    obtain ⟨n, hn, rfl⟩ := mem_sets.mp ht
    refine ⟨_, by rw [parentSets, fetchSetNode_eq h hn]; rfl, fun s => ?_⟩
    simp only [List.mem_map, ord.mem_visit, PtrSet.mem_elems, h.mem_incoming n hn]
    constructor
    · rintro ⟨e, ⟨he, rfl⟩, rfl⟩
      exact ⟨e, he, rfl, rfl⟩
    · rintro ⟨e, he, hsrc, hdst⟩
      exact ⟨e, ⟨he, h.node_ext (h.edge_nodes he).2 hn hdst⟩, hsrc⟩
  closed := fun _ _ _ hst => mem_sets.mpr (hst.isSet h).1

/-! ## The answers -/

/-- The descendants are what a path leads to. -/
theorem getDescendants_spec (h : p.toDG.Clean) (hs : p.IsSet s) {fuel : Nat}
    (hfuel : p.sets.length + 1 ≤ fuel) :
    ∃ descendants, p.getDescendants ord s fuel = some descendants ∧
      ∀ t, t ∈ descendants ↔ TransGen p.SetEdge s t :=
  (childSets_lists ord h).searchAll_spec (mem_sets.mpr hs) hfuel

/-- The ancestors are what a path comes from. -/
theorem getAncestors_spec (h : p.toDG.Clean) (ht : p.IsSet t) {fuel : Nat}
    (hfuel : p.sets.length + 1 ≤ fuel) :
    ∃ ancestors, p.getAncestors ord t fuel = some ancestors ∧
      ∀ s, s ∈ ancestors ↔ TransGen p.SetEdge s t := by
  obtain ⟨ancestors, hfound, hiff⟩ :=
    (parentSets_lists ord h).searchAll_spec (mem_sets.mpr ht) hfuel
  exact ⟨ancestors, hfound, fun s => (hiff s).trans transGen_swap⟩

theorem isAncestor_eq_true (h : p.toDG.Clean) (ht : p.IsSet t)
    (hst : TransGen p.SetEdge s t) : ∃ N, ∀ fuel ≥ N, p.isAncestor ord s t fuel = some true :=
  (parentSets_lists ord h).searchFor_eq_true (mem_sets.mpr ht) (transGen_swap.mpr hst)

/-- No cycle leads to the set. -/
def AcyclicAbove (p : SCCDAGPartition) (t : SetPtr) : Prop :=
  ∀ c, ReflTransGen p.SetEdge c t → ¬ TransGen p.SetEdge c c

theorem isAncestor_eq_false (h : p.toDG.Clean) (ht : p.IsSet t) (hst : ¬ TransGen p.SetEdge s t)
    (hacyclic : p.AcyclicAbove t) :
    ∃ N, ∀ fuel ≥ N, p.isAncestor ord s t fuel = some false := by
  refine (parentSets_lists ord h).searchFor_eq_false (mem_sets.mpr ht)
    (fun hts => hst (transGen_swap.mp hts)) fun c hc hcycle => ?_
  exact hacyclic c (reflTransGen_swap.mp hc) (transGen_swap.mp hcycle)

theorem isAncestor_eq_none (h : p.toDG.Clean) (ht : p.IsSet t) (hst : ¬ TransGen p.SetEdge s t)
    (hcycle : ¬ p.AcyclicAbove t) (fuel : Nat) :
    p.isAncestor ord s t fuel = none := by
  unfold AcyclicAbove at hcycle
  push Not at hcycle
  obtain ⟨c, hreach, hround⟩ := hcycle
  exact (parentSets_lists ord h).searchFor_eq_none (mem_sets.mpr ht)
    (fun hts => hst (transGen_swap.mp hts)) (reflTransGen_swap.mpr hreach) (transGen_swap.mpr hround)
    fuel

/-- The answer is right where a path leads or no cycle is above. -/
theorem isAncestor_spec (h : p.toDG.Clean) (ht : p.IsSet t)
    (hcase : TransGen p.SetEdge s t ∨ p.AcyclicAbove t) :
    ∃ N, ∀ fuel ≥ N, ∃ answer, p.isAncestor ord s t fuel = some answer ∧
      (answer = true ↔ TransGen p.SetEdge s t) := by
  by_cases hst : TransGen p.SetEdge s t
  · obtain ⟨N, hN⟩ := isAncestor_eq_true ord h ht hst
    exact ⟨N, fun fuel hfuel => ⟨true, hN fuel hfuel, by simp [hst]⟩⟩
  · obtain ⟨N, hN⟩ := isAncestor_eq_false ord h ht hst (hcase.resolve_left hst)
    exact ⟨N, fun fuel hfuel => ⟨false, hN fuel hfuel, by simp [hst]⟩⟩

/-- `isAncestor` ends with the answer of `getDescendants`. -/
def AncestorAgrees (ord : IterOrder) (p : SCCDAGPartition) (parentTarget target : SetPtr) : Prop :=
  ∃ N, ∀ fuel ≥ N, ∃ descendants, p.getDescendants ord parentTarget fuel = some descendants ∧
    p.isAncestor ord parentTarget target fuel = some (decide (target ∈ descendants))

/-- **Ancestor query**: it ends, and agrees with the descendants, exactly if the one set is an
ancestor of the other one or no cycle leads to the other one. -/
theorem ancestorAgrees_iff {initialSets : List (PtrSet SccPtr)}
    {sccToParentsMap : AList fun _ : SccPtr => PtrSet SccPtr}
    (hdisj : initialSets.Pairwise fun s t => ∀ a ∈ s, a ∉ t)
    (hp : Reachable initialSets sccToParentsMap p) (ord : IterOrder) (hs : p.IsSet s)
    (ht : p.IsSet t) :
    p.AncestorAgrees ord s t ↔ TransGen p.SetEdge s t ∨ p.AcyclicAbove t := by
  have h := (hp.inv hdisj).clean
  constructor
  · rintro ⟨N, hN⟩
    by_contra hnot
    obtain ⟨hst, hcycle⟩ := not_or.mp hnot
    obtain ⟨_, _, hanswer⟩ := hN N le_rfl
    rw [isAncestor_eq_none ord h ht hst hcycle] at hanswer
    cases hanswer
  · intro hcase
    obtain ⟨N, hN⟩ := isAncestor_spec ord h ht hcase
    refine ⟨max N (p.sets.length + 1), fun fuel hfuel => ?_⟩
    obtain ⟨answer, hanswer, hiff⟩ := hN fuel (le_of_max_le_left hfuel)
    obtain ⟨descendants, hdesc, hmem⟩ := getDescendants_spec ord h hs (le_of_max_le_right hfuel)
    refine ⟨descendants, hdesc, hanswer.trans (congrArg some ?_)⟩
    rw [Bool.eq_iff_iff, hiff, decide_eq_true_iff, hmem]

/-- A set of two SCCs that depend on each other, and another set. -/
def dependentSets : List (PtrSet SccPtr) := [PtrSet.ofList [1, 2], PtrSet.ofList [3]]

def dependentParents : AList fun _ : SccPtr => PtrSet SccPtr :=
  List.toAList [⟨2, PtrSet.ofList [1]⟩]

theorem dependentSets_disjoint : dependentSets.Pairwise fun s t => ∀ a ∈ s, a ∉ t := by
  change dependentSets.Pairwise fun s t => ∀ a ∈ s.elems, a ∉ t.elems
  decide

/-- Two sets, of which the first depends on itself. -/
theorem dependentSets_spec : ∃ p, new .stored 0 dependentSets dependentParents = some p ∧
    (∀ s, p.IsSet s ↔ s = 0 ∨ s = 1) ∧ ∀ s t, p.SetEdge s t ↔ s = 0 ∧ t = 0 := by
  obtain ⟨p, hp, _⟩ := new_spec .stored 0 dependentSets_disjoint dependentParents
  have hcheck : (new .stored 0 dependentSets dependentParents).any (fun p =>
      decide (p.sets = [1, 0]) &&
        decide (p.allEdges.elems.map (fun e => (e.getSrc, e.getDst)) = [(0, 0)])) = true := by
    decide +kernel
  rw [hp, Option.any_some, Bool.and_eq_true, decide_eq_true_eq, decide_eq_true_eq] at hcheck
  refine ⟨p, hp, fun s => ?_, fun s t => ?_⟩
  · rw [← mem_sets, hcheck.1]
    simp [or_comm]
  · have hmem : p.SetEdge s t ↔ (s, t) ∈ p.allEdges.elems.map fun e => (e.getSrc, e.getDst) := by
      simp [SetEdge]
    rw [hmem, hcheck.2]
    simp

/-- The query for the other set never ends. -/
theorem isAncestor_dependentSets : ∃ p, new .stored 0 dependentSets dependentParents = some p ∧
    p.IsSet 1 ∧ p.IsSet 0 ∧ (∀ fuel, p.isAncestor .stored 1 0 fuel = none) ∧
      ¬ p.AncestorAgrees .stored 1 0 := by
  obtain ⟨p, hp, hsets, hedges⟩ := dependentSets_spec
  have h := ((Reachable.constructed hp).inv dependentSets_disjoint).clean
  have hpath : ¬ TransGen p.SetEdge 1 0 := by
    intro hpath
    obtain ⟨t, hedge, _⟩ := TransGen.head'_iff.mp hpath
    exact absurd ((hedges 1 t).mp hedge).1 (by decide)
  have hcycle : ¬ p.AcyclicAbove 0 := fun hacyclic =>
    hacyclic 0 .refl (.single ((hedges 0 0).mpr ⟨rfl, rfl⟩))
  have hnone := isAncestor_eq_none .stored h ((hsets 0).mpr (.inl rfl)) hpath hcycle
  refine ⟨p, hp, (hsets 1).mpr (.inr rfl), (hsets 0).mpr (.inl rfl), hnone, ?_⟩
  rintro ⟨N, hN⟩
  obtain ⟨_, _, hanswer⟩ := hN N le_rfl
  rw [hnone] at hanswer
  cases hanswer

theorem ancestorAgrees_iff_dependentSets :
    ∃ p, new .stored 0 dependentSets dependentParents = some p ∧
      (p.AncestorAgrees .stored 0 1 ↔ TransGen p.SetEdge 0 1 ∨ p.AcyclicAbove 1) := by
  obtain ⟨p, hp, hsets, _⟩ := dependentSets_spec
  exact ⟨p, hp, ancestorAgrees_iff dependentSets_disjoint (.constructed hp) .stored
    ((hsets 0).mpr (.inl rfl)) ((hsets 1).mpr (.inr rfl))⟩

end SCCDAGPartition

end Noelle
