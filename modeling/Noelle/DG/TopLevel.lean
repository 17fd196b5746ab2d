import Noelle.DG.GraphTraits
import Noelle.DG.History

/-!
# DG.TopLevel

The nodes of a graph that no other node points to, and those that point to no other
node.

Self-dependences do not count.  With `onlyInternal` set `getTopLevelNodes` also skips the
dependences of external nodes, while `getLeafNodes` looks at internal nodes only but counts
every dependence they have, so it is not what `getTopLevelNodes` finds in the reversed graph.
-/

namespace Noelle

open PtrSet

/-- The dependence in the other direction. -/
def DGEdge.reverse {T : Type} (e : DGEdge T) : DGEdge T :=
  { e with srcNode := e.dstNode, dstNode := e.srcNode }

namespace DG

variable {T S : Type} [DecidableEq T]

def getTopLevelNodes (g : DG T S) (onlyInternal : Bool) : PtrSet (DGNode T) :=
  g.allNodes.filter fun node =>
    !(onlyInternal && g.isExternal node.theT) &&
      (g.incomingEdges node).elems.all fun incomingE =>
        let edgeToSelf := decide (incomingE.srcNode = node)
        let edgeToExternal := onlyInternal && g.isExternal incomingE.getSrc
        edgeToSelf || edgeToExternal

/-- The test of both loops of `getLeafNodes`. -/
def noChildNode (g : DG T S) (node : DGNode T) : Bool :=
  (g.outgoingEdges node).elems.all fun edge => decide (edge.dstNode = node)

/-- `DG::getLeafNodes`.  The internal nodes are read off their map, whose pointers are
dereferenced. -/
def getLeafNodes (g : DG T S) (onlyInternal : Bool) : Option (PtrSet (DGNode T)) :=
  if onlyInternal then do
    let internalNodes ← (g.internalNodeMap.entries.map (·.2)).mapM id
    return PtrSet.ofList (internalNodes.filter g.noChildNode)
  else some (g.allNodes.filter g.noChildNode)

/-- `DG::getNextDepthNodes`: the children of a node that no child has a dependence to. -/
def getNextDepthNodes (g : DG T S) (node : DGNode T) : PtrSet (DGNode T) :=
  let incomingNodes := PtrSet.ofList ((g.outgoingEdges node).elems.map DGEdge.dstNode)
  incomingNodes.filter fun incoming =>
    (g.incomingEdges incoming).elems.all fun incomingE => decide (incomingE.srcNode ∉ incomingNodes)

/-- The graph with all dependences reversed. -/
def reverse (g : DG T S) : DG T S :=
  { g with
    allEdges := PtrSet.ofList (g.allEdges.elems.map DGEdge.reverse)
    outgoingEdges := fun n => PtrSet.ofList ((g.incomingEdges n).elems.map DGEdge.reverse)
    incomingEdges := fun n => PtrSet.ofList ((g.outgoingEdges n).elems.map DGEdge.reverse)
    edgeAttr := fun e => g.edgeAttr e.reverse }

variable {g : DG T S} {n : DGNode T} {onlyInternal : Bool}

/-! ## Reversal -/

theorem mem_map_reverse {s : PtrSet (DGEdge T)} {e : DGEdge T} :
    e ∈ PtrSet.ofList (s.elems.map DGEdge.reverse) ↔ e.reverse ∈ s := by
  rw [mem_ofList, List.mem_map]
  constructor
  · rintro ⟨e, he, rfl⟩
    exact he
  · exact fun he => ⟨e.reverse, he, rfl⟩

theorem mem_reverse_allEdges {e : DGEdge T} : e ∈ g.reverse.allEdges ↔ e.reverse ∈ g.allEdges :=
  mem_map_reverse

theorem WF.reverse (h : g.WF) : g.reverse.WF where
  node_fresh := h.node_fresh
  edge_fresh := fun e he => h.edge_fresh e.reverse (mem_reverse_allEdges.mp he)
  edge_mapped := fun e he => by
    have heq : ∀ t, g.reverse.nodeOf t = g.nodeOf t := fun _ => nodeOf_congr rfl rfl
    rw [heq, heq]
    exact (h.edge_mapped e.reverse (mem_reverse_allEdges.mp he)).symm
  mem_outgoing := fun n hn e => by
    rw [mem_reverse_allEdges]
    exact mem_map_reverse.trans (h.mem_incoming n hn e.reverse)
  mem_incoming := fun n hn e => by
    rw [mem_reverse_allEdges]
    exact mem_map_reverse.trans (h.mem_outgoing n hn e.reverse)
  internal_node := h.internal_node
  external_node := h.external_node
  disjoint := h.disjoint

/-! ## The searches -/

theorem WF.mem_getTopLevelNodes (h : g.WF) : n ∈ g.getTopLevelNodes onlyInternal ↔
    n ∈ g.allNodes ∧ (onlyInternal = true → g.isExternal n.theT = false) ∧
      ∀ e ∈ g.allEdges, e.dstNode = n →
        e.srcNode = n ∨ (onlyInternal = true ∧ g.isExternal e.getSrc = true) := by
  rw [getTopLevelNodes, mem_filter]
  refine and_congr_right fun hn => ?_
  simp only [Bool.and_eq_true, Bool.not_eq_true', List.all_eq_true, mem_elems,
    h.mem_incoming n hn, Bool.or_eq_true, decide_eq_true_eq, and_imp, Bool.and_eq_false_imp]

/-- The leaves are the nodes whose outgoing edges all return to them. -/
theorem WF.getLeafNodes_spec (h : g.WF) (onlyInternal : Bool) :
    ∃ leafNodes, g.getLeafNodes onlyInternal = some leafNodes ∧ ∀ n, n ∈ leafNodes ↔
      n ∈ g.allNodes ∧
      (onlyInternal = true → g.isInternal n.theT = true ∧ g.nodeOf n.theT = some n) ∧
      ∀ e ∈ g.allEdges, e.srcNode = n → e.dstNode = n := by
  have htest : ∀ n ∈ g.allNodes, g.noChildNode n = true ↔
      ∀ e ∈ g.allEdges, e.srcNode = n → e.dstNode = n := fun n hn => by
    simp only [noChildNode, List.all_eq_true, mem_elems, h.mem_outgoing n hn,
      decide_eq_true_eq, and_imp]
  cases onlyInternal with
  | false =>
      refine ⟨_, rfl, fun n => ?_⟩
      rw [mem_filter]
      simpa using fun hn => htest n hn
  | true =>
      obtain ⟨internalNodes, hnodes, hiff⟩ := exists_mapM_id fun p hp =>
        let ⟨n, hn, _⟩ := h.mem_internalPointers.mp hp
        ⟨n, hn⟩
      refine ⟨PtrSet.ofList (internalNodes.filter g.noChildNode), ?_, fun n => ?_⟩
      · rw [getLeafNodes, if_pos rfl, hnodes]
        rfl
      · have hmem : n ∈ internalNodes ↔ g.isInternal n.theT = true ∧ g.nodeOf n.theT = some n := by
          rw [hiff, h.mem_internalPointers]
          exact ⟨fun ⟨m, hm, hrest⟩ => Option.some.inj hm ▸ hrest, fun hn => ⟨n, rfl, hn⟩⟩
        rw [mem_ofList, List.mem_filter, hmem]
        constructor
        · rintro ⟨hin, hleaf⟩
          have hn := (h.nodeOf_mem hin.2).1
          exact ⟨hn, fun _ => hin, (htest n hn).mp hleaf⟩
        · rintro ⟨hn, hin, hleaf⟩
          exact ⟨hin rfl, (htest n hn).mpr hleaf⟩

theorem WF.mem_getNextDepthNodes (h : g.WF) {m : DGNode T} (hn : n ∈ g.allNodes) :
    m ∈ g.getNextDepthNodes n ↔ g.Edge n m ∧ ∀ k, g.Edge n k → ¬ g.Edge k m := by
  have hchild : ∀ k, k ∈ PtrSet.ofList ((g.outgoingEdges n).elems.map DGEdge.dstNode) ↔
      g.Edge n k := fun k => by
    simp only [mem_ofList, List.mem_map, mem_elems, h.mem_outgoing n hn]
    constructor
    · rintro ⟨e, ⟨he, hs⟩, hd⟩
      exact ⟨e, he, hs, hd⟩
    · rintro ⟨e, he, hs, hd⟩
      exact ⟨e, ⟨he, hs⟩, hd⟩
  rw [getNextDepthNodes, mem_filter, hchild]
  refine and_congr_right fun hnm => ?_
  simp only [List.all_eq_true, mem_elems, h.mem_incoming m (h.edge_mem hnm).2,
    decide_eq_true_eq, hchild]
  constructor
  · rintro hall k hnk ⟨e, he, rfl, hd⟩
    exact hall e ⟨he, hd⟩ hnk
  · rintro hall e ⟨he, hd⟩ hnk
    exact hall _ hnk ⟨e, he, rfl, hd⟩

/-! ## Duality -/

/-- `getLeafNodes` returns what `getTopLevelNodes` finds in the reversed graph. -/
def Dual (g : DG T S) (onlyInternal : Bool) : Prop :=
  ∃ leafNodes, g.getLeafNodes onlyInternal = some leafNodes ∧
    ∀ n, n ∈ leafNodes ↔ n ∈ g.reverse.getTopLevelNodes onlyInternal

theorem WF.mem_reverse_getTopLevelNodes (h : g.WF) : n ∈ g.reverse.getTopLevelNodes onlyInternal ↔
    n ∈ g.allNodes ∧ (onlyInternal = true → g.isExternal n.theT = false) ∧
      ∀ e ∈ g.allEdges, e.srcNode = n →
        e.dstNode = n ∨ (onlyInternal = true ∧ g.isExternal e.getDst = true) := by
  rw [h.reverse.mem_getTopLevelNodes]
  refine and_congr_right fun _ => and_congr_right fun _ => ?_
  exact ⟨fun hall e he => hall e.reverse (mem_reverse_allEdges.mpr he),
    fun hall e he => hall e.reverse (mem_reverse_allEdges.mp he)⟩

/-- A node whose value is not external is the node of its value; an external value may have
several nodes. -/
def InternalMapped (g : DG T S) : Prop :=
  ∀ n ∈ g.allNodes, g.isExternal n.theT = false → g.nodeOf n.theT = some n

theorem Clean.internalMapped (h : g.Clean) : g.InternalMapped := fun n hn _ => h.mapped n hn

theorem InternalMapped.isInternal (h : g.InternalMapped) (hn : n ∈ g.allNodes)
    (hex : g.isExternal n.theT = false) : g.isInternal n.theT = true :=
  (isInGraph_iff.mp (isInGraph_of_nodeOf (h n hn hex))).resolve_right (by simp [hex])

/-- **Duality**: leaf nodes are the top-level nodes of the reversed graph unless, with
`onlyInternal` set, some internal node has a dependence to an external node but none to
another internal one. -/
theorem getLeafNodes_dual_iff (h : g.WF) (hmapped : g.InternalMapped) (onlyInternal : Bool) :
    g.Dual onlyInternal ↔
      (onlyInternal = true → ∀ e ∈ g.allEdges, g.isExternal e.getSrc = false →
        g.isExternal e.getDst = true → ∃ e' ∈ g.allEdges, e'.srcNode = e.srcNode ∧
          e'.dstNode ≠ e.srcNode ∧ g.isExternal e'.getDst = false) := by
  obtain ⟨leafNodes, hleaf, hmem⟩ := h.getLeafNodes_spec onlyInternal
  have hdual : g.Dual onlyInternal ↔
      ∀ n, n ∈ leafNodes ↔ n ∈ g.reverse.getTopLevelNodes onlyInternal := by
    constructor
    · rintro ⟨leafNodes', hleaf', hiff⟩
      obtain rfl := Option.mem_unique hleaf hleaf'
      exact hiff
    · exact fun hiff => ⟨leafNodes, hleaf, hiff⟩
  rw [hdual]
  simp only [hmem, h.mem_reverse_getTopLevelNodes]
  constructor
  · rintro hiff rfl e he hsrc hdst
    by_contra hno
    -- every dependence of the source is ignored in the reversed graph
    have hleaf := (hiff e.srcNode).mpr ⟨(h.edge_nodes he).1, fun _ => hsrc, fun e' he' heq => by
      by_cases hself : e'.dstNode = e.srcNode
      · exact .inl hself
      · refine .inr ⟨rfl, ?_⟩
        by_contra hex
        exact hno ⟨e', he', heq, hself, Bool.eq_false_of_not_eq_true hex⟩⟩
    have hself : e.dstNode = e.srcNode := hleaf.2.2 e he rfl
    rw [DGEdge.getDst, hself] at hdst
    exact Bool.false_ne_true (hsrc.symm.trans hdst)
  · intro hcond n
    refine and_congr_right fun hn => ?_
    constructor
    · rintro ⟨hin, hall⟩
      exact ⟨fun ho => Bool.eq_false_of_not_eq_true fun hex =>
        Bool.false_ne_true ((h.disjoint _ (hin ho).1).symm.trans hex), fun e he hs => .inl (hall e he hs)⟩
    · rintro ⟨hex, hall⟩
      refine ⟨fun ho => ⟨hmapped.isInternal hn (hex ho), hmapped n hn (hex ho)⟩, fun e he hs => ?_⟩
      rcases hall e he hs with hself | ⟨ho, hdst⟩
      · exact hself
      · obtain ⟨e', he', heq, hne, hin⟩ := hcond ho e he (by rw [DGEdge.getSrc, hs]; exact hex ho) hdst
        rcases hall e' he' (heq.trans hs) with hself | ⟨_, hout⟩
        · exact absurd (hself.trans hs.symm) hne
        · exact absurd hout (by simp [hin])

/-- An internal value and a dependence to an external one. -/
def externalChildHistory : List (Op Nat Nat) :=
  [.addNode 1 true, .addNode 2 false, .addControlDependenceEdge 1 2]

def externalChild : DG Nat Nat :=
  (execute (fun _ => false) (DG.empty 0) externalChildHistory).getD (DG.empty 0)

theorem externalChild_clean : externalChild.Clean := clean_of_history _ 0 (by decide)

/-- The internal node is no leaf, but nothing internal points to it in the reversed graph. -/
theorem externalChild_not_dual : externalChild.Clean ∧ ¬ externalChild.Dual true := by
  refine ⟨externalChild_clean, ?_⟩
  rintro ⟨leafNodes, hleaf, hiff⟩
  have hnone : externalChild.getLeafNodes true = some ∅ := by decide
  obtain rfl := Option.mem_unique hnone hleaf
  have htop : ⟨0, 0, 1⟩ ∈ externalChild.reverse.getTopLevelNodes true := by decide
  exact not_mem_empty _ ((hiff _).mpr htop)

theorem getLeafNodes_dual_iff_externalChild :
    externalChild.Dual true ↔
      (true = true → ∀ e ∈ externalChild.allEdges, externalChild.isExternal e.getSrc = false →
        externalChild.isExternal e.getDst = true → ∃ e' ∈ externalChild.allEdges,
          e'.srcNode = e.srcNode ∧ e'.dstNode ≠ e.srcNode ∧
            externalChild.isExternal e'.getDst = false) :=
  getLeafNodes_dual_iff externalChild_clean.toWF externalChild_clean.internalMapped true

end DG

end Noelle
