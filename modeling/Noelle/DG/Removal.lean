import Noelle.DG.Invariant

/-!
# DG.Removal

`removeEdge` and `removeNode`.

Both walk over the endpoints of the edges they remove.  A self-edge makes the two
endpoints one node: `removeConnectedEdge` then takes it from the outgoing edges in
the first call and from the incoming ones in the second.  `removeNode` filters the
sets of every neighbour, itself included when it has a self-edge.
-/

namespace Noelle

open Function PtrSet

namespace DG

variable {T S : Type} [DecidableEq T]

/-! ## removeEdge -/

section RemoveEdge

variable {g : DG T S} {e : DGEdge T}

section

variable (h : g.WF) (he : e ∈ g.allEdges)

include h he

/-- Removing an edge changes the two sets of its ends and the edges. -/
theorem WF.removeEdge_eq :
    g.removeEdge e =
      { g with
        outgoingEdges := update g.outgoingEdges e.srcNode
          ((g.outgoingEdges e.srcNode).erase e)
        incomingEdges := update g.incomingEdges e.dstNode
          ((g.incomingEdges e.dstNode).erase e)
        allEdges := g.allEdges.erase e } := by
  obtain ⟨hsrc, hdst⟩ := h.edge_nodes he
  have hout : e ∈ g.outgoingEdges e.srcNode := (h.mem_outgoing _ hsrc e).mpr ⟨he, rfl⟩
  have hfirst : g.removeConnectedEdge e.srcNode e =
      { g with
        outgoingEdges := update g.outgoingEdges e.srcNode
          ((g.outgoingEdges e.srcNode).erase e) } := by
    rw [removeConnectedEdge, if_pos hout]
  have hgone : e ∉ update g.outgoingEdges e.srcNode
      ((g.outgoingEdges e.srcNode).erase e) e.dstNode := by
    by_cases hself : e.dstNode = e.srcNode
    · rw [hself, update_self, mem_erase]
      exact fun hmem => hmem.1 rfl
    · rw [update_of_ne hself, h.mem_outgoing _ hdst]
      exact fun hmem => hself hmem.2.symm
  unfold removeEdge
  rw [hfirst]
  simp only [removeConnectedEdge, if_neg hgone]

theorem WF.removeEdge_outgoing {n : DGNode T} (hn : n ∈ g.allNodes) (x : DGEdge T) :
    x ∈ (g.removeEdge e).outgoingEdges n ↔ x ≠ e ∧ x ∈ g.outgoingEdges n := by
  rw [h.removeEdge_eq he]
  by_cases hns : n = e.srcNode
  · simp [hns]
  · simp only [update_of_ne hns]
    refine ⟨fun hx => ⟨?_, hx⟩, fun hx => hx.2⟩
    rintro rfl
    exact hns ((h.mem_outgoing n hn x).mp hx).2.symm

theorem WF.removeEdge_incoming {n : DGNode T} (hn : n ∈ g.allNodes) (x : DGEdge T) :
    x ∈ (g.removeEdge e).incomingEdges n ↔ x ≠ e ∧ x ∈ g.incomingEdges n := by
  rw [h.removeEdge_eq he]
  by_cases hnd : n = e.dstNode
  · simp [hnd]
  · simp only [update_of_ne hnd]
    refine ⟨fun hx => ⟨?_, hx⟩, fun hx => hx.2⟩
    rintro rfl
    exact hnd ((h.mem_incoming n hn x).mp hx).2.symm

theorem WF.removeEdge_allNodes :
    (g.removeEdge e).allNodes = g.allNodes := by
  rw [h.removeEdge_eq he]

theorem WF.removeEdge_nodeOf (t : T) :
    (g.removeEdge e).nodeOf t = g.nodeOf t := by
  rw [h.removeEdge_eq he]
  exact nodeOf_congr rfl rfl

theorem WF.mem_removeEdge_allEdges {x : DGEdge T} :
    x ∈ (g.removeEdge e).allEdges ↔ x ≠ e ∧ x ∈ g.allEdges := by
  rw [h.removeEdge_eq he]
  exact mem_erase

end

/-- Removing an edge keeps the graph well formed. -/
theorem Clean.removeEdge (h : g.Clean) (he : e ∈ g.allEdges) : (g.removeEdge e).Clean := by
  have hw := h.toWF
  have hmem : ∀ x, x ∈ (g.removeEdge e).allEdges ↔ x ≠ e ∧ x ∈ g.allEdges :=
    fun x => hw.mem_removeEdge_allEdges he
  have hnodes := hw.removeEdge_allNodes he
  have heq := hw.removeEdge_eq he
  refine ⟨⟨?_, ?_, ?_, ?_, ?_, ?_, ?_, ?_⟩, ?_⟩
  · intro n hn
    rw [hnodes] at hn
    rw [heq]
    exact h.node_fresh n hn
  · intro x hx
    have hx' := ((hmem x).mp hx).2
    rw [heq]
    exact h.edge_fresh x hx'
  · intro x hx
    rw [hw.removeEdge_nodeOf he, hw.removeEdge_nodeOf he]
    exact h.edge_mapped x ((hmem x).mp hx).2
  · intro n hn x
    rw [hnodes] at hn
    rw [hw.removeEdge_outgoing he hn, h.mem_outgoing n hn, hmem, and_assoc]
  · intro n hn x
    rw [hnodes] at hn
    rw [hw.removeEdge_incoming he hn, h.mem_incoming n hn, hmem, and_assoc]
  · rw [heq]
    exact h.internal_node
  · rw [heq]
    exact h.external_node
  · rw [heq]
    exact h.disjoint
  · intro n hn
    rw [hnodes] at hn
    rw [hw.removeEdge_nodeOf he]
    exact h.mapped n hn

theorem Clean.foldl_removeEdge : ∀ (l : List (DGEdge T)) {g : DG T S}, g.Clean → l.Nodup →
    (∀ e ∈ l, e ∈ g.allEdges) → (l.foldl DG.removeEdge g).Clean ∧
      (∀ x, x ∈ (l.foldl DG.removeEdge g).allEdges ↔ x ∈ g.allEdges ∧ x ∉ l) ∧
      (l.foldl DG.removeEdge g).edgeAttr = g.edgeAttr ∧
      (l.foldl DG.removeEdge g).internalNodeMap = g.internalNodeMap ∧
      (l.foldl DG.removeEdge g).externalNodeMap = g.externalNodeMap
  | [], g, h, _, _ => ⟨h, fun x => by simp, rfl, rfl, rfl⟩
  | e :: l, g, h, hnodup, hmem => by
      obtain ⟨hnot, hnodup⟩ := List.nodup_cons.mp hnodup
      have he := hmem e (.head _)
      have hall := fun x => h.toWF.mem_removeEdge_allEdges he (x := x)
      obtain ⟨hclean, hedges, hattr, hin, hex⟩ := foldl_removeEdge l (h.removeEdge he) hnodup
        fun x hx => (hall x).mpr ⟨fun heq => hnot (heq ▸ hx), hmem x (.tail e hx)⟩
      have heq := h.toWF.removeEdge_eq he
      refine ⟨hclean, fun x => (hedges x).trans ?_, hattr.trans (by rw [heq]),
        hin.trans (by rw [heq]), hex.trans (by rw [heq])⟩
      rw [hall, List.mem_cons, not_or]
      tauto

end RemoveEdge

/-! ## removeNode -/

section RemoveNode

/-- Only the edge sets of the neighbours change. -/
theorem foldl_removeConnectedNode (node : DGNode T) (ns : List (DGNode T)) (g : DG T S) :
    ∃ out inc, ns.foldl (fun g n => g.removeConnectedNode n node) g =
        { g with outgoingEdges := out, incomingEdges := inc } ∧
      (∀ n x, x ∈ out n ↔ x ∈ g.outgoingEdges n ∧ (n ∈ ns → x.dstNode ≠ node)) ∧
      (∀ n x, x ∈ inc n ↔ x ∈ g.incomingEdges n ∧ (n ∈ ns → x.srcNode ≠ node)) := by
  induction ns generalizing g with
  | nil => exact ⟨g.outgoingEdges, g.incomingEdges, rfl, by simp, by simp⟩
  | cons m ns ih =>
      obtain ⟨out, inc, heq, hout, hinc⟩ := ih (g.removeConnectedNode m node)
      refine ⟨out, inc, ?_, ?_, ?_⟩
      · rw [List.foldl_cons, heq]
        rfl
      · intro n x
        rw [hout]
        by_cases hnm : n = m
        · subst hnm
          simp only [removeConnectedNode, update_self, mem_filter,
            decide_eq_true_eq, List.mem_cons]
          tauto
        · simp only [removeConnectedNode, update_of_ne hnm, List.mem_cons, hnm, false_or]
      · intro n x
        rw [hinc]
        by_cases hnm : n = m
        · subst hnm
          simp only [removeConnectedNode, update_self, mem_filter,
            decide_eq_true_eq, List.mem_cons]
          tauto
        · simp only [removeConnectedNode, update_of_ne hnm, List.mem_cons, hnm, false_or]

theorem foldl_eraseEdges (es : List (DGEdge T)) (g : DG T S) :
    ∃ all, es.foldl (fun g e => { g with allEdges := g.allEdges.erase e }) g =
        { g with allEdges := all } ∧ ∀ x, x ∈ all ↔ x ∈ g.allEdges ∧ x ∉ es := by
  induction es generalizing g with
  | nil => exact ⟨g.allEdges, rfl, by simp⟩
  | cons e es ih =>
      obtain ⟨all, heq, hall⟩ := ih { g with allEdges := g.allEdges.erase e }
      refine ⟨all, ?_, ?_⟩
      · rw [List.foldl_cons, heq]
      · intro x
        rw [hall, mem_erase, List.mem_cons]
        tauto

variable {g : DG T S} {node : DGNode T}

/-- What `removeNode` does to a well-formed graph: the value leaves its map, the
node leaves the node set, and every edge at the node leaves the graph and the
other endpoint. -/
theorem WF.removeNode_spec (h : g.WF) (hnode : node ∈ g.allNodes) :
    ∃ out inc all, g.removeNode node =
        { g.eraseFromMaps node.theT with
          allNodes := g.allNodes.erase node
          allEdges := all
          outgoingEdges := out
          incomingEdges := inc } ∧
      (∀ x, x ∈ all ↔ x ∈ g.allEdges ∧ x.srcNode ≠ node ∧ x.dstNode ≠ node) ∧
      (∀ n ∈ g.allNodes, n ≠ node →
        ∀ x, x ∈ out n ↔ x ∈ g.outgoingEdges n ∧ x.dstNode ≠ node) ∧
      (∀ n ∈ g.allNodes, n ≠ node →
        ∀ x, x ∈ inc n ↔ x ∈ g.incomingEdges n ∧ x.srcNode ≠ node) := by
  let g₁ : DG T S := { g.eraseFromMaps node.theT with allNodes := g.allNodes.erase node }
  have hmaps : ∀ t, (g.eraseFromMaps t).outgoingEdges = g.outgoingEdges ∧
      (g.eraseFromMaps t).incomingEdges = g.incomingEdges ∧
      (g.eraseFromMaps t).allNodes = g.allNodes ∧ (g.eraseFromMaps t).allEdges = g.allEdges := by
    intro t
    unfold eraseFromMaps
    split <;> exact ⟨rfl, rfl, rfl, rfl⟩
  obtain ⟨hmo, hmi, hmn, hme⟩ := hmaps node.theT
  have ho : g₁.outgoingEdges = g.outgoingEdges := hmo
  have hi : g₁.incomingEdges = g.incomingEdges := hmi
  obtain ⟨out₁, inc₁, heq₁, hout₁, hinc₁⟩ := foldl_removeConnectedNode (S := S) node
    ((g₁.incomingEdges node).elems.map DGEdge.srcNode) g₁
  obtain ⟨out₂, inc₂, heq₂, hout₂, hinc₂⟩ := foldl_removeConnectedNode (S := S) node
    ((g₁.outgoingEdges node).elems.map DGEdge.dstNode)
    { g₁ with outgoingEdges := out₁, incomingEdges := inc₁ }
  obtain ⟨all, heq₃, hall⟩ := foldl_eraseEdges (S := S)
    ((g₁.outgoingEdges node).insertAll (g₁.incomingEdges node).elems).elems
    { g₁ with outgoingEdges := out₂, incomingEdges := inc₂ }
  rw [List.foldl_map] at heq₁ heq₂
  refine ⟨out₂, inc₂, all, ?_, ?_, ?_, ?_⟩
  · calc g.removeNode node
        = ((g₁.outgoingEdges node).insertAll (g₁.incomingEdges node).elems).elems.foldl
            (fun g edge => { g with allEdges := g.allEdges.erase edge })
            ((g₁.outgoingEdges node).elems.foldl
              (fun g edge => g.removeConnectedNode edge.dstNode node)
              ((g₁.incomingEdges node).elems.foldl
                (fun g edge => g.removeConnectedNode edge.srcNode node) g₁)) := by
          unfold removeNode
          dsimp only
          rw [hmn]
      _ = _ := by
          rw [heq₁, heq₂, heq₃]
  · intro x
    have hedges : x ∈ ({ g₁ with outgoingEdges := out₂, incomingEdges := inc₂ } : DG T S).allEdges ↔
        x ∈ g.allEdges := by
      rw [← hme]
    rw [hall, hedges, mem_elems, mem_insertAll, mem_elems, ho, hi,
      h.mem_outgoing node hnode, h.mem_incoming node hnode]
    tauto
  · intro n hn hne x
    rw [hout₂]
    simp only [hout₁, List.mem_map, mem_elems]
    rw [ho, hi, h.mem_outgoing n hn]
    constructor
    · rintro ⟨⟨⟨hx, hxs⟩, hfrom⟩, hto⟩
      refine ⟨⟨hx, hxs⟩, fun hxd => ?_⟩
      exact hfrom ⟨x, (h.mem_incoming node hnode x).mpr ⟨hx, hxd⟩, hxs⟩ hxd
    · rintro ⟨hx, hxd⟩
      exact ⟨⟨hx, fun _ => hxd⟩, fun _ => hxd⟩
  · intro n hn hne x
    rw [hinc₂]
    simp only [hinc₁, List.mem_map, mem_elems]
    rw [ho, hi, h.mem_incoming n hn]
    constructor
    · rintro ⟨⟨⟨hx, hxd⟩, hfrom⟩, hto⟩
      refine ⟨⟨hx, hxd⟩, fun hxs => ?_⟩
      exact hto ⟨x, (h.mem_outgoing node hnode x).mpr ⟨hx, hxs⟩, hxd⟩ hxs
    · rintro ⟨hx, hxs⟩
      exact ⟨⟨hx, fun _ => hxs⟩, fun _ => hxs⟩

theorem lookup_eraseFromMaps_ne {t x : T} (hx : x ≠ t) :
    (g.eraseFromMaps t).internalNodeMap.lookup x = g.internalNodeMap.lookup x ∧
      (g.eraseFromMaps t).externalNodeMap.lookup x = g.externalNodeMap.lookup x := by
  unfold eraseFromMaps
  split <;> simp [AList.lookup_erase_ne hx]

theorem WF.lookup_eraseFromMaps_self (h : g.WF) (t : T) :
    (g.eraseFromMaps t).internalNodeMap.lookup t = none ∧
      (g.eraseFromMaps t).externalNodeMap.lookup t = none := by
  unfold eraseFromMaps
  by_cases hi : g.isInternal t = true
  · rw [if_pos hi]
    have he := h.disjoint t hi
    exact ⟨AList.lookup_erase _ _, by simpa [isExternal] using he⟩
  · rw [if_neg hi]
    exact ⟨by simpa [isInternal] using hi, AList.lookup_erase _ _⟩

theorem eraseFromMaps_counters (g : DG T S) (t : T) :
    (g.eraseFromMaps t).self = g.self ∧ (g.eraseFromMaps t).nodeIdCounter = g.nodeIdCounter ∧
      (g.eraseFromMaps t).edgeCounter = g.edgeCounter ∧
      (g.eraseFromMaps t).edgeAttr = g.edgeAttr := by
  unfold eraseFromMaps
  split <;> exact ⟨rfl, rfl, rfl, rfl⟩

section

variable (h : g.WF) (hnode : node ∈ g.allNodes)

include h hnode

theorem WF.mem_removeNode_allNodes {n : DGNode T} :
    n ∈ (g.removeNode node).allNodes ↔ n ≠ node ∧ n ∈ g.allNodes := by
  obtain ⟨out, inc, all, heq, -, -, -⟩ := h.removeNode_spec hnode
  rw [heq]
  exact mem_erase

theorem WF.mem_removeNode_allEdges {x : DGEdge T} :
    x ∈ (g.removeNode node).allEdges ↔
      x ∈ g.allEdges ∧ x.srcNode ≠ node ∧ x.dstNode ≠ node := by
  obtain ⟨out, inc, all, heq, hall, -, -⟩ := h.removeNode_spec hnode
  rw [heq]
  exact hall x

theorem WF.removeNode_edgeAttr :
    (g.removeNode node).edgeAttr = g.edgeAttr := by
  obtain ⟨out, inc, all, heq, -, -, -⟩ := h.removeNode_spec hnode
  rw [heq]
  exact (eraseFromMaps_counters g node.theT).2.2.2

theorem WF.removeNode_nodeOf_ne {t : T}
    (ht : t ≠ node.theT) : (g.removeNode node).nodeOf t = g.nodeOf t := by
  obtain ⟨out, inc, all, heq, -, -, -⟩ := h.removeNode_spec hnode
  obtain ⟨hi, he⟩ := lookup_eraseFromMaps_ne (g := g) ht
  rw [heq]
  exact nodeOf_congr hi he

theorem WF.removeNode_isInternal (t : T) :
    (g.removeNode node).isInternal t = (decide (t ≠ node.theT) && g.isInternal t) := by
  obtain ⟨out, inc, all, heq, -, -, -⟩ := h.removeNode_spec hnode
  rw [heq]
  by_cases ht : t = node.theT
  · subst ht
    simp [isInternal, (h.lookup_eraseFromMaps_self node.theT).1]
  · simp [isInternal, (lookup_eraseFromMaps_ne (g := g) ht).1, ht]

theorem WF.removeNode_isExternal (t : T) :
    (g.removeNode node).isExternal t = (decide (t ≠ node.theT) && g.isExternal t) := by
  obtain ⟨out, inc, all, heq, -, -, -⟩ := h.removeNode_spec hnode
  rw [heq]
  by_cases ht : t = node.theT
  · subst ht
    simp [isExternal, (h.lookup_eraseFromMaps_self node.theT).2]
  · simp [isExternal, (lookup_eraseFromMaps_ne (g := g) ht).2, ht]

end

/-- Removing a node keeps the graph well formed. -/
theorem Clean.removeNode (h : g.Clean) (hnode : node ∈ g.allNodes) : (g.removeNode node).Clean := by
  have hw := h.toWF
  obtain ⟨out, inc, all, heq, hall, hout, hinc⟩ := hw.removeNode_spec hnode
  obtain ⟨hself, hnc, hec, -⟩ := eraseFromMaps_counters g node.theT
  have hnodes : ∀ n, n ∈ (g.removeNode node).allNodes ↔ n ≠ node ∧ n ∈ g.allNodes :=
    fun n => hw.mem_removeNode_allNodes hnode
  have hedges : ∀ x, x ∈ (g.removeNode node).allEdges ↔
      x ∈ g.allEdges ∧ x.srcNode ≠ node ∧ x.dstNode ≠ node :=
    fun x => hw.mem_removeNode_allEdges hnode
  have hvalue : ∀ n ∈ g.allNodes, n ≠ node → n.theT ≠ node.theT := fun n hn hne ht =>
    hne (h.node_ext hn hnode ht)
  have hlive : ∀ x, x ∈ g.allEdges ∧ x.srcNode ≠ node ∧ x.dstNode ≠ node →
      x.getSrc ≠ node.theT ∧ x.getDst ≠ node.theT := fun x hx =>
    ⟨hvalue _ (hw.edge_nodes hx.1).1 hx.2.1, hvalue _ (hw.edge_nodes hx.1).2 hx.2.2⟩
  refine ⟨⟨?_, ?_, ?_, ?_, ?_, ?_, ?_, ?_⟩, ?_⟩
  · intro n hn
    have hfresh := h.node_fresh n ((hnodes n).mp hn).2
    rw [heq]
    exact ⟨hfresh.1.trans hself.symm, hnc ▸ hfresh.2⟩
  · intro x hx
    have hfresh := h.edge_fresh x ((hedges x).mp hx).1
    rw [heq]
    exact ⟨hfresh.1.trans hself.symm, hec ▸ hfresh.2⟩
  · intro x hx
    have hx' := (hedges x).mp hx
    rw [hw.removeNode_nodeOf_ne hnode (hlive x hx').1, hw.removeNode_nodeOf_ne hnode (hlive x hx').2]
    exact h.edge_mapped x hx'.1
  · intro n hn x
    obtain ⟨hne, hn'⟩ := (hnodes n).mp hn
    rw [hedges, heq]
    dsimp only
    rw [hout n hn' hne, h.mem_outgoing n hn']
    constructor
    · rintro ⟨⟨hx, hs⟩, hd⟩
      exact ⟨⟨hx, hs ▸ hne, hd⟩, hs⟩
    · rintro ⟨⟨hx, -, hd⟩, hs⟩
      exact ⟨⟨hx, hs⟩, hd⟩
  · intro n hn x
    obtain ⟨hne, hn'⟩ := (hnodes n).mp hn
    rw [hedges, heq]
    dsimp only
    rw [hinc n hn' hne, h.mem_incoming n hn']
    constructor
    · rintro ⟨⟨hx, hd⟩, hs⟩
      exact ⟨⟨hx, hs, hd ▸ hne⟩, hd⟩
    · rintro ⟨⟨hx, hs, -⟩, hd⟩
      exact ⟨⟨hx, hd⟩, hs⟩
  · intro t p hp
    have ht : t ≠ node.theT := by
      rintro rfl
      rw [heq] at hp
      exact absurd (hp.symm.trans (hw.lookup_eraseFromMaps_self _).1) (by simp)
    rw [heq] at hp
    obtain ⟨n, hn, hpn, hnt⟩ :=
      h.internal_node t p ((lookup_eraseFromMaps_ne (g := g) ht).1.symm.trans hp)
    exact ⟨n, (hnodes n).mpr ⟨fun heq' => ht (heq' ▸ hnt.symm), hn⟩, hpn, hnt⟩
  · intro t p hp
    have ht : t ≠ node.theT := by
      rintro rfl
      rw [heq] at hp
      exact absurd (hp.symm.trans (hw.lookup_eraseFromMaps_self _).2) (by simp)
    rw [heq] at hp
    obtain ⟨n, hn, hpn, hnt⟩ :=
      h.external_node t p ((lookup_eraseFromMaps_ne (g := g) ht).2.symm.trans hp)
    exact ⟨n, (hnodes n).mpr ⟨fun heq' => ht (heq' ▸ hnt.symm), hn⟩, hpn, hnt⟩
  · intro t ht
    rw [hw.removeNode_isInternal hnode] at ht
    rw [hw.removeNode_isExternal hnode]
    simp only [Bool.and_eq_true] at ht
    rw [h.disjoint t ht.2, Bool.and_false]
  · intro n hn
    obtain ⟨hne, hn'⟩ := (hnodes n).mp hn
    rw [hw.removeNode_nodeOf_ne hnode (hvalue n hn' hne)]
    exact h.mapped n hn'

end RemoveNode

end DG

end Noelle
