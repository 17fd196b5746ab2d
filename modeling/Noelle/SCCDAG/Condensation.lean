import Mathlib.Data.Set.Card
import Noelle.DG.History
import Noelle.SCCDAG.Ordering

/-!
# SCCDAG.Condensation

The SCCDAG of a PDG is the condensation of its dependence relation.

The ordering step at the end of the constructor needs fewer than 65536 SCCs, but
it touches neither nodes nor edges: what is said of the graph here holds of every
PDG, and of the SCCDAG the constructor returns whenever it returns one.
-/

namespace Noelle

open Relation

/-- The classes of values that depend on each other. -/
def PDG.sccClasses {V : Type} (pdg : PDG V) : Set (Set V) :=
  { c | ∃ v, pdg.HasValue v ∧ c = { w | pdg.HasValue w ∧ StronglyConnected pdg.DependsOn v w } }

namespace SCCDAG

variable {V : Type} [DecidableEq V] {subLC : DGEdge V → Bool} {pdg : PDG V}

/-- The SCCDAG `s` is the condensation of `pdg`. -/
structure Condenses (pdg : PDG V) (s : SCCDAG V) : Prop where
  /-- Every value of the PDG is internal to exactly one SCC. -/
  value_unique : ∀ v, pdg.HasValue v → ∃! k, k ∈ s.allNodes ∧ s.Holds k v
  /-- An SCC has values, all of them values of the PDG. -/
  scc_values : ∀ k ∈ s.allNodes, (∃ v, s.Holds k v) ∧ ∀ v, s.Holds k v → pdg.HasValue v
  /-- Two values are in one SCC iff each reaches the other. -/
  same_scc : ∀ v w, pdg.HasValue v → pdg.HasValue w →
    ((∃ k ∈ s.allNodes, s.Holds k v ∧ s.Holds k w) ↔ StronglyConnected pdg.DependsOn v w)
  /-- A node is internal iff one of its values is. -/
  internal_iff : ∀ k ∈ s.allNodes, s.isInternal k.theT = true ↔
    ∃ v, s.Holds k v ∧ pdg.isInternal v = true
  /-- Two SCCs have an edge iff some dependence goes from the one to the other. -/
  edge_iff : ∀ k ∈ s.allNodes, ∀ m ∈ s.allNodes, k ≠ m →
    (s.Edge k m ↔ s.DepBetween pdg.deps k m)
  /-- They have at most one. -/
  edge_unique : ∀ e ∈ s.allEdges, ∀ e' ∈ s.allEdges, e.srcNode = e'.srcNode →
    e.dstNode = e'.dstNode → e = e'
  /-- The sub-edges of an edge are the dependences between its ends, each once. -/
  subEdges_eq : ∀ e ∈ s.allEdges,
    ((s.edgeAttr e).getSubEdges.elems : Multiset (DGEdge V)).map (DGEdge.dep s.nodeStore.edgeAttr) =
      pdg.deps.filter fun d => s.Holds e.srcNode d.src ∧ s.Holds e.dstNode d.dst
  /-- An edge is loop-carried iff one of its sub-edges is. -/
  isLoopCarried_iff : ∀ e ∈ s.allEdges, (s.edgeAttr e).isLoopCarried = true ↔
    ∃ d ∈ pdg.deps, (s.Holds e.srcNode d.src ∧ s.Holds e.dstNode d.dst) ∧ d.isLoopCarried = true
  no_self_edge : ∀ e ∈ s.allEdges, e.srcNode ≠ e.dstNode
  acyclic : Acyclic s.Edge

variable {s s₀ : SCCDAG V}

/-- The graph built is the condensation of the PDG. -/
theorem Built.condenses (h : Built subLC pdg s) : Condenses pdg s where
  value_unique := by
    intro v hv
    obtain ⟨k, hk, hkv⟩ := (h.mem_values v).mp hv
    exact ⟨k, ⟨hk, hkv⟩, fun m hm => h.holds_unique m hm.1 k hk v hm.2 hkv⟩
  scc_values := fun k hk => ⟨h.nonempty k hk, fun v hv => (h.mem_values v).mpr ⟨k, hk, hv⟩⟩
  same_scc := by
    intro v w hv hw
    constructor
    · rintro ⟨k, hk, hkv, hkw⟩
      exact (h.same_scc k hk v hkv w hw).mp hkw
    · intro hvw
      obtain ⟨k, hk, hkv⟩ := (h.mem_values v).mp hv
      exact ⟨k, hk, hkv, (h.same_scc k hk v hkv w hw).mpr hvw⟩
  internal_iff := h.internal_iff
  edge_iff := fun k hk m hm hkm => ⟨h.depBetween_of_edge, fun hdep =>
    h.edge_of_depBetween hk hm hkm hdep fun hback => h.not_twoWay hk hm hkm ⟨hdep, hback⟩⟩
  edge_unique := fun e he e' he' => h.edge_unique he he'
  subEdges_eq := by
    intro e he
    obtain ⟨hs, hd⟩ := h.clean.edge_nodes he
    exact h.subEdges_deps he fun hback =>
      h.not_twoWay hs hd (h.edges.irrefl e he) ⟨h.edges.dep_of_edge e he, hback⟩
  isLoopCarried_iff := by
    intro e he
    obtain ⟨hs, hd⟩ := h.clean.edge_nodes he
    exact h.isLoopCarried_deps he fun hback =>
      h.not_twoWay hs hd (h.edges.irrefl e he) ⟨h.edges.dep_of_edge e he, hback⟩
  no_self_edge := h.edges.irrefl
  acyclic := h.acyclic_deps.mono fun k m hkm => by
    have hdep := h.depBetween_of_edge hkm
    obtain ⟨e, he, rfl, rfl⟩ := hkm
    exact ⟨(h.clean.edge_nodes he).1, (h.clean.edge_nodes he).2, hdep⟩

/-- There are as many nodes as SCCs of the PDG. -/
theorem Built.numNodes_eq (h : Built subLC pdg s) :
    s.numNodes = pdg.sccClasses.ncard := by
  have himage : pdg.sccClasses =
      (fun k => { w | s.Holds k w }) '' (s.allNodes.elems.toFinset : Set (DGNode SccPtr)) := by
    ext c
    simp only [PDG.sccClasses, Set.mem_ofPred_eq, Set.mem_image, List.coe_toFinset, PtrSet.mem_elems]
    have hclass : ∀ k ∈ s.allNodes, ∀ v, s.Holds k v →
        { w | s.Holds k w } = { w | pdg.HasValue w ∧ StronglyConnected pdg.DependsOn v w } := by
      intro k hk v hv
      ext w
      simp only [Set.mem_ofPred_eq]
      constructor
      · intro hw
        have hU := (h.mem_values w).mpr ⟨k, hk, hw⟩
        exact ⟨hU, (h.same_scc k hk v hv w hU).mp hw⟩
      · exact fun ⟨hU, hw⟩ => (h.same_scc k hk v hv w hU).mpr hw
    constructor
    · rintro ⟨v, hv, rfl⟩
      obtain ⟨k, hk, hkv⟩ := (h.mem_values v).mp hv
      exact ⟨k, hk, hclass k hk v hkv⟩
    · rintro ⟨k, hk, rfl⟩
      obtain ⟨v, hv⟩ := h.nonempty k hk
      exact ⟨v, (h.mem_values v).mpr ⟨k, hk, hv⟩, hclass k hk v hv⟩
  have hinj : Set.InjOn (fun k => { w | s.Holds k w })
      (s.allNodes.elems.toFinset : Set (DGNode SccPtr)) := by
    intro k hk m hm heq
    simp only [List.coe_toFinset, Set.mem_ofPred_eq, PtrSet.mem_elems] at hk hm
    obtain ⟨v, hv⟩ := h.nonempty k hk
    have hmv : s.Holds m v := (Set.ext_iff.mp heq v).mp hv
    exact h.holds_unique k hk m hm v hv hmv
  rw [himage, Set.InjOn.ncard_image hinj, Set.ncard_coe_finset,
    List.toFinset_card_of_nodup s.allNodes.nodup]
  rfl

/-! ## The constructor -/

theorem SameGraph.linked {D : Multiset (Dep V)} {U : V → Prop} (hg : SameGraph s₀ s)
    (h : Linked subLC D U s₀) : Linked subLC D U s := by
  obtain ⟨g, sccs, nextScc, map, ordered, dirty, indexes⟩ := s
  obtain ⟨rfl, rfl, rfl, rfl⟩ := hg
  exact
    { clean := h.clean
      scc_lt := h.scc_lt
      scc_self := h.scc_self
      represents := h.represents
      nonempty := h.nonempty
      holds_unique := h.holds_unique
      mem_values := h.mem_values
      dep_values := h.dep_values
      lookup_iff := h.lookup_iff
      edges := h.edges
      exists_edge := h.exists_edge
      mem_subEdges := h.mem_subEdges
      isLoopCarried_iff := h.isLoopCarried_iff }

theorem SameGraph.condenses (hg : SameGraph s₀ s) (h : Condenses pdg s₀) :
    Condenses pdg s := by
  obtain ⟨g, sccs, nextScc, map, ordered, dirty, indexes⟩ := s
  obtain ⟨rfl, rfl, rfl, rfl⟩ := hg
  exact ⟨h.value_unique, h.scc_values, h.same_scc, h.internal_iff, h.edge_iff, h.edge_unique,
    h.subEdges_eq, h.isLoopCarried_iff, h.no_self_edge, h.acyclic⟩

variable (ord : IterOrder) (it : SccIterator)

theorem new_sameGraph {self : Nat} {s₀ s : SCCDAG V}
    (hs₀ : buildGraph ord it subLC pdg self = some s₀) (h : Built subLC pdg s₀)
    (hs : new ord it subLC pdg self = some s) : SameGraph s₀ s ∧ Numbered ord s₀ s := by
  rw [new, hs₀] at hs
  have hclean : ({ s₀ with orderedDirty := true } : SCCDAG V).toDG.Clean := h.clean
  have hnum := computeReachability_numbered ord hclean hs
  obtain ⟨_, _, rfl⟩ := computeReachability_eq ord hs
  exact ⟨⟨rfl, rfl, rfl, rfl⟩, ⟨hnum.lookup_eq, hnum.N_eq, hnum.size_lt⟩⟩

theorem new_eq_some {self : Nat} {s₀ : SCCDAG V}
    (hs₀ : buildGraph ord it subLC pdg self = some s₀) (h : Built subLC pdg s₀)
    (hN : s₀.numNodes < 65536) :
    ∃ s, new ord it subLC pdg self = some s ∧ s.OrderedByPaths := by
  have hclean : ({ s₀ with orderedDirty := true } : SCCDAG V).toDG.Clean := h.clean
  obtain ⟨s, hs, hord⟩ := computeReachability_spec ord hclean hN
  exact ⟨s, by rw [new, hs₀]; exact hs, hord⟩

/-- **Condensation**: the constructor turns every PDG into the graph of its SCCs,
and returns that graph with its ordering if there are fewer than 65536 SCCs. -/
theorem new_condenses (hpdg : PDG.Proper subLC pdg) (self : Nat) :
    (∃ s, buildGraph ord it subLC pdg self = some s ∧ Condenses pdg s) ∧
      (∀ s, new ord it subLC pdg self = some s → Condenses pdg s) ∧
      (pdg.sccClasses.ncard < 65536 → ∃ s, new ord it subLC pdg self = some s) := by
  obtain ⟨s₀, hs₀, h⟩ := buildGraph_spec ord it hpdg self
  refine ⟨⟨s₀, hs₀, h.condenses⟩, fun s hs => ?_, fun hN => ?_⟩
  · exact (new_sameGraph ord it hs₀ h hs).1.condenses h.condenses
  · obtain ⟨s, hs, _⟩ := new_eq_some ord it hs₀ h (by rw [h.numNodes_eq]; exact hN)
    exact ⟨s, hs⟩

/-- A chain of three classes, with a self-dependence, parallel dependences and a
cycle through an external value. -/
def chainHistory : List (DG.Op Nat (DGEdge Nat)) :=
  [.addNode 1 true, .addNode 2 true, .addNode 3 true, .addNode 4 false,
    .addVariableDataDependenceEdge 1 1 .raw, .addVariableDataDependenceEdge 1 2 .raw,
    .addMemoryDataDependenceEdge 1 2 .war true, .addControlDependenceEdge 2 3,
    .addControlDependenceEdge 3 4, .addMemoryDataDependenceEdge 4 3 .raw false]

def chainPdg : PDG Nat :=
  (DG.execute (fun _ => false) (DG.empty 0) chainHistory).getD (DG.empty 0)

theorem chainPdg_proper : PDG.Proper (fun _ => false) chainPdg := by
  have hedges : ∀ e ∈ chainPdg.allEdges.elems, e.kind ≠ .undefinedDependence ∧
      (chainPdg.edgeAttr e).Covers fun _ => false := by decide
  exact PDG.proper_of_clean (DG.clean_of_history _ 0 (by decide)) hedges

theorem new_condenses_chainPdg :
    (∃ s, buildGraph .stored .saturating (fun _ => false) chainPdg 0 = some s ∧
      Condenses chainPdg s) ∧
      (∀ s, new .stored .saturating (fun _ => false) chainPdg 0 = some s → Condenses chainPdg s) ∧
      (chainPdg.sccClasses.ncard < 65536 →
        ∃ s, new .stored .saturating (fun _ => false) chainPdg 0 = some s) :=
  new_condenses .stored .saturating chainPdg_proper 0

end SCCDAG

end Noelle
