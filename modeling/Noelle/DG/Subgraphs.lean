import Noelle.DG.TopLevel
import Noelle.Lib.Classes
import Noelle.Lib.Search

/-!
# DG.Subgraphs

The disconnected subgraphs of a dependence graph: `DG::getDisconnectedSubgraphs`.

Every node that no earlier search visited starts a breadth-first search of its own, which
follows dependences in both directions.  What was visited before is a union of whole
components, so the searches do not meet.
-/

namespace Noelle

open Relation PtrSet List

/-- The queue and the visited nodes of a search, and the component it builds. -/
structure SubgraphSearch (T : Type) where
  connectedNodes : List (DGNode T)
  visitedNodes : PtrSet (DGNode T)
  component : PtrSet (DGNode T)

namespace DG

variable {T S : Type} [DecidableEq T]

def checkToVisitNode (s : List (DGNode T) × PtrSet (DGNode T)) (node : DGNode T) :
    List (DGNode T) × PtrSet (DGNode T) :=
  if node ∈ s.2 then s else (s.1 ++ [node], s.2.insert node)

/-- The body of the loop over the queue. -/
def visitConnectedNode (g : DG T S) (ord : IterOrder) (s : SubgraphSearch T) :
    Option (SubgraphSearch T) := do
  let currentNode ← s.connectedNodes.head?
  let next := (ord.visit (g.outgoingEdges currentNode).elems).foldl
    (fun s edge => checkToVisitNode s edge.dstNode) (s.connectedNodes.tail, s.visitedNodes)
  let next := (ord.visit (g.incomingEdges currentNode).elems).foldl
    (fun s edge => checkToVisitNode s edge.srcNode) next
  return ⟨next.1, next.2, s.component.insert currentNode⟩

/-- The body of the loop over the nodes, on the components and the visited nodes. -/
def searchSubgraph (g : DG T S) (ord : IterOrder) (fuel : Nat)
    (s : List (PtrSet (DGNode T)) × PtrSet (DGNode T)) (node : DGNode T) :
    Option (List (PtrSet (DGNode T)) × PtrSet (DGNode T)) :=
  if node ∈ s.2 then some s
  else do
    let found ← loopM (fun s => !s.connectedNodes.isEmpty) (g.visitConnectedNode ord) fuel
      ⟨[node], s.2.insert node, ∅⟩
    return (s.1 ++ [found.component], found.visitedNodes)

def getDisconnectedSubgraphs (g : DG T S) (ord : IterOrder) (fuel : Nat) :
    Option (List (PtrSet (DGNode T))) :=
  ((ord.visit g.allNodes.elems).foldlM (g.searchSubgraph ord fuel) ([], ∅)).map (·.1)

variable {g : DG T S} {n m : DGNode T} {ord : IterOrder}

/-! ## One search -/

/-- The nodes that a search goes to from a node. -/
def neighbours (g : DG T S) (ord : IterOrder) (n : DGNode T) : List (DGNode T) :=
  (ord.visit (g.outgoingEdges n).elems).map DGEdge.dstNode ++
    (ord.visit (g.incomingEdges n).elems).map DGEdge.srcNode

theorem WF.mem_neighbours (h : g.WF) (hn : n ∈ g.allNodes) :
    m ∈ g.neighbours ord n ↔ g.Edge n m ∨ g.Edge m n := by
  simp only [neighbours, mem_append, mem_map, IterOrder.mem_visit, mem_elems,
    h.mem_outgoing n hn, h.mem_incoming n hn, Edge]
  grind

/-- Between two nodes of the queue: what was visited is old, queued or in the component, whose
neighbours were visited. -/
structure Visiting (g : DG T S) (ord : IterOrder) (visited : PtrSet (DGNode T)) (n : DGNode T)
    (s : SubgraphSearch T) : Prop where
  start : n ∈ s.visitedNodes
  reach : ∀ m, m ∈ s.connectedNodes ∨ m ∈ s.component → m ∈ g.allNodes ∧ EqvGen g.Edge n m
  mem_iff : ∀ m, m ∈ s.visitedNodes ↔ m ∈ visited ∨ m ∈ s.connectedNodes ∨ m ∈ s.component
  neighbours : ∀ m ∈ s.component, ∀ k ∈ g.neighbours ord m, k ∈ s.visitedNodes

/-- One more node of the component is visited. -/
theorem Visiting.visitConnectedNode (h : g.WF) {visited : PtrSet (DGNode T)} {s : SubgraphSearch T}
    (hs : g.Visiting ord visited n s) (hcond : (!s.connectedNodes.isEmpty) = true) :
    ∃ s', g.visitConnectedNode ord s = some s' ∧ g.Visiting ord visited n s' ∧
      s'.connectedNodes.length + unfound g.allNodes.elems s'.visitedNodes <
        s.connectedNodes.length + unfound g.allNodes.elems s.visitedNodes := by
  obtain ⟨queue, met, component⟩ := s
  obtain ⟨hstart, hreach, hmet, hdone⟩ := hs
  cases queue with
  | nil => nomatch hcond
  | cons a queue =>
      dsimp only at hreach hmet hdone
      obtain ⟨ha, hna⟩ := hreach a (.inl (.head _))
      have hnext : ∀ k ∈ g.neighbours ord a, k ∈ g.allNodes.elems ∧ EqvGen g.Edge n k := by
        intro k hk
        rcases (h.mem_neighbours ha).mp hk with hedge | hedge
        · exact ⟨(h.edge_mem hedge).2, hna.trans _ _ _ (.rel _ _ hedge)⟩
        · exact ⟨(h.edge_mem hedge).1, hna.trans _ _ _ (.symm _ _ (.rel _ _ hedge))⟩
      obtain ⟨queue', met', hfold, hmet', hqueue', hle⟩ :=
        enqueue_spec queue met fun k hk => (hnext k hk).1
      refine ⟨⟨queue', met', component.insert a⟩, ?_, ⟨(hmet' n).mpr (.inl hstart),
        fun k hk => ?_, fun k => ?_, fun k hk l hl => ?_⟩, ?_⟩
      · rw [DG.neighbours, foldl_append, foldl_map, foldl_map] at hfold
        exact congrArg (fun next : List (DGNode T) × PtrSet (DGNode T) =>
          some (SubgraphSearch.mk next.1 next.2 (component.insert a))) hfold
      · simp only [mem_insert, hqueue', hmet', hmet] at hk
        simp only [mem_elems] at hnext
        grind
      · simp only [mem_insert, hqueue', hmet', hmet]
        grind
      · rcases mem_insert.mp hk with rfl | hk
        · exact (hmet' l).mpr (.inr hl)
        · exact (hmet' l).mpr (.inl (hdone k hk l hl))
      · simp only [length_cons]
        omega

/-- A search visits the component of its start and nothing else. -/
theorem WF.searchSubgraph_spec (ord : IterOrder) (h : g.WF) (hn : n ∈ g.allNodes)
    {visited : PtrSet (DGNode T)} (hclosed : ClosedUnder g.Edge (· ∈ visited)) (hnew : n ∉ visited)
    {fuel : Nat} (hfuel : g.numNodes + 1 ≤ fuel) (components : List (PtrSet (DGNode T))) :
    ∃ C visited', g.searchSubgraph ord fuel (components, visited) n =
        some (components ++ [C], visited') ∧
      (∀ m, m ∈ C ↔ EqvGen g.Edge n m) ∧ ∀ m, m ∈ visited' ↔ m ∈ visited ∨ m ∈ C := by
  obtain ⟨s, hloop, hs, hend⟩ := loopM_rule (g.Visiting ord visited n) _
    (fun s hs => hs.visitConnectedNode h) fuel ⟨[n], visited.insert n, ∅⟩
    ⟨mem_insert.mpr (.inl rfl), fun m hm => by simp_all [EqvGen.refl],
      fun m => by simp [or_comm], by simp⟩
    (by
      have hle : unfound g.allNodes.elems (visited.insert n) ≤ g.numNodes := length_filter_le _ _
      simp only [length_singleton]
      omega)
  have hempty : s.connectedNodes = [] := by simpa using hend
  have hout : ∀ m, EqvGen g.Edge n m → m ∉ visited := fun m hm =>
    mt (hclosed.eqvGen hm).mpr hnew
  have hvisited : ∀ m, m ∈ s.visitedNodes ↔ m ∈ visited ∨ m ∈ s.component := by
    simpa [hempty] using hs.mem_iff
  have hclass : ClosedUnder g.Edge (· ∈ s.component) := by
    have hstep : ∀ a b, a ∈ s.component → g.Edge a b ∨ g.Edge b a → b ∈ s.component := by
      intro a b ha hab
      obtain ⟨hnode, hna⟩ := hs.reach a (.inr ha)
      have hb := (hvisited b).mp (hs.neighbours a ha b ((h.mem_neighbours hnode).mpr hab))
      refine hb.resolve_left fun hold => hout a hna ?_
      exact hab.elim (fun hab => (hclosed a b hab).mpr hold) fun hba => (hclosed b a hba).mp hold
    exact fun a b hab => ⟨fun ha => hstep a b ha (.inl hab), fun hb => hstep b a hb (.inr hab)⟩
  refine ⟨s.component, s.visitedNodes, ?_, ?_, hvisited⟩
  · rw [searchSubgraph, if_neg hnew, hloop]
    rfl
  · exact hclass.eq_class (((hvisited n).mp hs.start).resolve_left hnew) fun m hm =>
      (hs.reach m (.inr hm)).2

/-- **Components**: the subgraphs contain every node of the graph once, and two nodes are in one
subgraph if and only if dependences connect them, whatever their direction. -/
theorem getDisconnectedSubgraphs_components (h : g.WF) (ord : IterOrder) {fuel : Nat}
    (hfuel : g.numNodes + 1 ≤ fuel) :
    ∃ subgraphs, g.getDisconnectedSubgraphs ord fuel = some subgraphs ∧
      (∀ n, n ∈ g.allNodes ↔ ∃ C ∈ subgraphs, n ∈ C) ∧
      subgraphs.Pairwise (fun C D => ∀ n ∈ C, n ∉ D) ∧
      ∀ C ∈ subgraphs, C.elems ≠ [] ∧ ∀ n ∈ C, ∀ m, m ∈ C ↔ EqvGen g.Edge n m := by
  obtain ⟨⟨subgraphs, visited⟩, hfold, hall, hvisited, hdisjoint, hclass⟩ := foldlM_rule
    (g.searchSubgraph ord fuel)
    (fun pre (s : List (PtrSet (DGNode T)) × PtrSet (DGNode T)) => (∀ n ∈ pre, n ∈ s.2) ∧
      (∀ n, n ∈ s.2 ↔ ∃ C ∈ s.1, n ∈ C) ∧ s.1.Pairwise (fun C D => ∀ n ∈ C, n ∉ D) ∧
      ∀ C ∈ s.1, ∃ n ∈ g.allNodes, ∀ m, m ∈ C ↔ EqvGen g.Edge n m)
    (l := ord.visit g.allNodes.elems) (s := ([], ∅)) (by simp) (by
      rintro pre n post ⟨subgraphs, visited⟩ hsplit ⟨hall, hvisited, hdisjoint, hclass⟩
      dsimp only at hall hvisited hdisjoint hclass
      have hn : n ∈ g.allNodes := ord.mem_visit.mp (by rw [hsplit]; simp)
      by_cases hold : n ∈ visited
      · refine ⟨(subgraphs, visited), if_pos hold, fun m hm => ?_, hvisited, hdisjoint, hclass⟩
        rcases mem_append.mp hm with hm | hm
        · exact hall m hm
        · exact mem_singleton.mp hm ▸ hold
      · have hclosed : ClosedUnder g.Edge (· ∈ visited) := fun a b hab => by
          simp only [hvisited]
          refine exists_congr fun C => and_congr_right fun hC => ?_
          obtain ⟨k, -, hk⟩ := hclass C hC
          rw [hk, hk]
          exact ⟨fun hka => hka.trans _ _ _ (.rel _ _ hab),
            fun hkb => hkb.trans _ _ _ (.symm _ _ (.rel _ _ hab))⟩
        obtain ⟨C, visited', hsearch, hC, hvisited'⟩ :=
          h.searchSubgraph_spec ord hn hclosed hold hfuel subgraphs
        have hout : ∀ m ∈ C, m ∉ visited := fun m hm =>
          mt (hclosed.eqvGen ((hC m).mp hm)).mpr hold
        refine ⟨_, hsearch, fun m hm => (hvisited' m).mpr ?_, fun m => ?_, ?_, ?_⟩
        · refine (mem_append.mp hm).imp (hall m) fun heq => (hC m).mpr ?_
          exact (mem_singleton.mp heq).symm ▸ .refl n
        · simp only [hvisited', hvisited, mem_append, mem_singleton, or_and_right, exists_or,
            exists_eq_left]
        · refine pairwise_append.mpr ⟨hdisjoint, pairwise_singleton _ _, fun D hD E hE m hm => ?_⟩
          obtain rfl := mem_singleton.mp hE
          exact fun hmC => hout m hmC ((hvisited m).mpr ⟨D, hD, hm⟩)
        · intro D hD
          rcases mem_append.mp hD with hD | hD
          · exact hclass D hD
          · exact mem_singleton.mp hD ▸ ⟨n, hn, hC⟩)
  have hnodes : ClosedUnder g.Edge (· ∈ g.allNodes) := fun a b hab =>
    iff_of_true (h.edge_mem hab).1 (h.edge_mem hab).2
  refine ⟨subgraphs, by rw [getDisconnectedSubgraphs, hfold]; rfl, fun n => ⟨fun hn => ?_, ?_⟩,
    hdisjoint, fun C hC => ?_⟩
  · exact (hvisited n).mp (hall n (ord.mem_visit.mpr hn))
  · rintro ⟨C, hC, hn⟩
    obtain ⟨k, hk, hiff⟩ := hclass C hC
    exact (hnodes.eqvGen ((hiff n).mp hn)).mp hk
  · obtain ⟨k, -, hiff⟩ := hclass C hC
    refine ⟨ne_nil_of_mem ((hiff k).mpr (.refl k)), fun n hn m => (hiff m).trans ?_⟩
    have hkn := (hiff n).mp hn
    exact ⟨fun hkm => (hkn.symm).trans _ _ _ hkm, fun hnm => hkn.trans _ _ _ hnm⟩

theorem getDisconnectedSubgraphs_components_externalChild :
    ∃ subgraphs, externalChild.getDisconnectedSubgraphs .stored 3 = some subgraphs ∧
      (∀ n, n ∈ externalChild.allNodes ↔ ∃ C ∈ subgraphs, n ∈ C) ∧
      subgraphs.Pairwise (fun C D => ∀ n ∈ C, n ∉ D) ∧
      ∀ C ∈ subgraphs, C.elems ≠ [] ∧ ∀ n ∈ C, ∀ m, m ∈ C ↔ EqvGen externalChild.Edge n m :=
  getDisconnectedSubgraphs_components externalChild_clean.toWF .stored (by decide)

end DG

end Noelle
