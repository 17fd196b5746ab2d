import Noelle.DG.Invariant
import Noelle.Lib.SccIterator

/-!
# DG.GraphTraits

A dependence graph as a relation over its nodes, and the view of it that
`DGGraphWrapper` gives to the enumeration of its SCCs.
-/

namespace Noelle

open Relation

namespace DG

variable {T S : Type}

def Edge (g : DG T S) (n m : DGNode T) : Prop := ∃ e ∈ g.allEdges, e.srcNode = n ∧ e.dstNode = m

/-- An ordered pair of nodes has at most one edge. -/
def Simple (g : DG T S) : Prop :=
  ∀ e ∈ g.allEdges, ∀ e' ∈ g.allEdges, e.srcNode = e'.srcNode → e.dstNode = e'.dstNode → e = e'

variable [DecidableEq T]

/-- The children of a node in `DGGraphWrapper`. -/
def wrappedChildren (g : DG T S) (node : DGNode T) : List (DGNode T) :=
  ((g.outgoingEdges node).elems.map DGEdge.dstNode).filter fun other => decide (other ∈ g.allNodes)

variable {g : DG T S} {n m : DGNode T}

theorem WF.edge_mem (h : g.WF) (hnm : g.Edge n m) : n ∈ g.allNodes ∧ m ∈ g.allNodes := by
  obtain ⟨e, he, rfl, rfl⟩ := hnm
  exact h.edge_nodes he

theorem wrappedChildren_closed (g : DG T S) :
    ∀ a ∈ g.allNodes.elems, ∀ b ∈ g.wrappedChildren a, b ∈ g.allNodes.elems := fun _ _ _ hb =>
  of_decide_eq_true (List.mem_filter.mp hb).2

theorem child_iff (hnodes : ∀ e ∈ g.allEdges, e.dstNode ∈ g.allNodes)
    (hout : ∀ e, e ∈ g.outgoingEdges n ↔ e ∈ g.allEdges ∧ e.srcNode = n) :
    StepRel g.wrappedChildren n m ↔ g.Edge n m := by
  simp only [StepRel, wrappedChildren, List.mem_filter, List.mem_map, PtrSet.mem_elems, hout,
    decide_eq_true_eq]
  constructor
  · rintro ⟨⟨e, ⟨he, hs⟩, hd⟩, _⟩
    exact ⟨e, he, hs, hd⟩
  · rintro ⟨e, he, hs, rfl⟩
    exact ⟨⟨e, ⟨he, hs⟩, rfl⟩, hnodes e he⟩

section

variable (h : g.WF) (hn : n ∈ g.allNodes)

include h hn

theorem WF.reach_mem (hnm : ReflTransGen g.Edge n m) :
    m ∈ g.allNodes := by
  induction hnm with
  | refl => exact hn
  | tail _ hbc _ => exact (h.edge_mem hbc).2

theorem WF.reach_iff :
    ReflTransGen (StepRel g.wrappedChildren) n m ↔ ReflTransGen g.Edge n m := by
  have hstep : ∀ {a b}, a ∈ g.allNodes → (StepRel g.wrappedChildren a b ↔ g.Edge a b) := fun ha =>
    child_iff (fun e he => (h.edge_nodes he).2) (h.mem_outgoing _ ha)
  constructor
  · intro hp
    induction hp with
    | refl => exact .refl
    | tail _ hbc ih => exact ih.tail ((hstep (h.reach_mem hn ih)).mp hbc)
  · intro hp
    induction hp with
    | refl => exact .refl
    | tail hab hbc ih => exact ih.tail ((hstep (h.reach_mem hn hab)).mpr hbc)

theorem WF.stronglyConnected_iff :
    StronglyConnected (StepRel g.wrappedChildren) n m ↔ StronglyConnected g.Edge n m := by
  constructor
  · rintro ⟨hnm, hmn⟩
    have hnm' := (h.reach_iff hn).mp hnm
    exact ⟨hnm', (h.reach_iff (h.reach_mem hn hnm')).mp hmn⟩
  · rintro ⟨hnm, hmn⟩
    exact ⟨(h.reach_iff hn).mpr hnm, (h.reach_iff (h.reach_mem hn hnm)).mpr hmn⟩

theorem WF.mem_fetchEdges {e : DGEdge T} :
    e ∈ g.fetchEdges n m ↔ e ∈ g.allEdges ∧ e.srcNode = n ∧ e.dstNode = m := by
  rw [fetchEdges, PtrSet.mem_filter, h.mem_outgoing n hn, decide_eq_true_eq, and_assoc]

end

end DG

end Noelle
