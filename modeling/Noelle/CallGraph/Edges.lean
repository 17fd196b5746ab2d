import Noelle.CallGraph.Basic
import Noelle.Lib.Run

/-!
# CallGraph.Edges

The edges of a call graph under creation and removal.

A function-function edge is recorded in the maps of its two ends and holds the
sub-edges of the instructions it stands for.  `Fetched` says everything that
`fetchOrCreateEdge` does and `Removed` everything that `removeSubEdge` does; the
invariant is derived from them.
-/

namespace Noelle

open Function PtrSet List

namespace CallGraph

variable {F I : Type} [DecidableEq F] [DecidableEq I]

/-! ## The invariant -/

/-- What holds of the edges between operations. -/
structure EdgesOk (g : CallGraph F I) : Prop where
  outgoing_iff : ∀ n m e, (g.outgoingEdges n).lookup m = some e ↔
    e ∈ g.edges ∧ e.caller = n ∧ e.callee = m
  incoming_iff : ∀ n m e, (g.incomingEdges m).lookup n = some e ↔
    e ∈ g.edges ∧ e.caller = n ∧ e.callee = m
  edge_nodes : ∀ e ∈ g.edges, g.functions.lookup e.caller.f = some e.caller ∧
    g.functions.lookup e.callee.f = some e.callee
  instNode_ok : ∀ i n, g.instructionNodes.lookup i = some n → n.i = i
  edge_fresh : ∀ e ∈ g.edges, e.addr < g.nextAddr
  subEdge_fresh : ∀ e ∈ g.edges, ∀ se ∈ g.getSubEdges e, se.addr < g.nextAddr
  subEdges_ne : ∀ e ∈ g.edges, (g.getSubEdges e).size ≠ 0
  subEdge_callee : ∀ e ∈ g.edges, ∀ se ∈ g.getSubEdges e, se.callee = e.callee
  isMust_iff : ∀ e ∈ g.edges, g.isAMustCall e = true ↔
    ∃ se ∈ g.getSubEdges e, g.subEdgeIsMust se = true

variable {g g' : CallGraph F I} {n m fromNode toNode : CallGraphFunctionNode F}
  {e e' : CallGraphFunctionFunctionEdge F} {se : CallGraphInstructionFunctionEdge F I}
  {callInst : I} {callee : F} {isMust : Bool}

theorem mem_values {map : AList fun _ : CallGraphFunctionNode F => CallGraphFunctionFunctionEdge F} :
    e ∈ PtrSet.ofList (map.entries.map (·.2)) ↔ ∃ n, map.lookup n = some e := by
  simp only [mem_ofList, mem_map]
  constructor
  · rintro ⟨⟨n, e⟩, hmem, rfl⟩
    exact ⟨n, AList.mem_lookup_iff.mpr hmem⟩
  · rintro ⟨n, hn⟩
    exact ⟨⟨n, e⟩, AList.mem_lookup_iff.mp hn, rfl⟩

namespace EdgesOk

theorem mem_getOutgoingEdges (h : EdgesOk g) : e ∈ g.getOutgoingEdges n ↔ e ∈ g.edges ∧ e.caller = n := by
  rw [getOutgoingEdges, mem_values]
  simp only [h.outgoing_iff]
  exact ⟨fun ⟨_, he, hc, _⟩ => ⟨he, hc⟩, fun ⟨he, hc⟩ => ⟨_, he, hc, rfl⟩⟩

theorem mem_getIncomingEdges (h : EdgesOk g) : e ∈ g.getIncomingEdges n ↔ e ∈ g.edges ∧ e.callee = n := by
  rw [getIncomingEdges, mem_values]
  simp only [h.incoming_iff]
  exact ⟨fun ⟨_, he, _, hc⟩ => ⟨he, hc⟩, fun ⟨he, hc⟩ => ⟨_, he, rfl, hc⟩⟩

theorem edge_unique (h : EdgesOk g) (he : e ∈ g.edges) (he' : e' ∈ g.edges)
    (hcaller : e.caller = e'.caller) (hcallee : e.callee = e'.callee) : e = e' := by
  have hlook := (h.outgoing_iff _ _ e).mpr ⟨he, rfl, rfl⟩
  rw [hcaller, hcallee, (h.outgoing_iff _ _ e').mpr ⟨he', rfl, rfl⟩] at hlook
  exact (Option.some.inj hlook).symm

end EdgesOk

/-! ## Creation -/

/-- `g'` is `g` after the sub-edge `se` was added to the edge `e` from `fromNode` to
`toNode`, which is new if there was none. -/
structure Fetched (g : CallGraph F I) (fromNode toNode : CallGraphFunctionNode F) (callInst : I)
    (isMust : Bool) (e : CallGraphFunctionFunctionEdge F)
    (se : CallGraphInstructionFunctionEdge F I) (g' : CallGraph F I) : Prop where
  functions_eq : g'.functions = g.functions
  instNode_ok : ∀ i n, g'.instructionNodes.lookup i = some n → n.i = i
  caller_eq : e.caller = fromNode
  callee_eq : e.callee = toNode
  subEdge_inst : se.caller.i = callInst
  subEdge_callee : se.callee = toNode
  nextAddr_le : g.nextAddr ≤ g'.nextAddr
  edge_lt : e.addr < g'.nextAddr
  subEdge_fresh : g.nextAddr ≤ se.addr ∧ se.addr < g'.nextAddr
  mem_edges : ∀ x, x ∈ g'.edges ↔ x = e ∨ x ∈ g.edges
  existing : ∀ x ∈ g.edges, x.caller = fromNode → x.callee = toNode → x = e
  outgoing_eq : ∀ n m, (g'.outgoingEdges n).lookup m =
    if n = fromNode ∧ m = toNode then some e else (g.outgoingEdges n).lookup m
  incoming_eq : ∀ n m, (g'.incomingEdges m).lookup n =
    if n = fromNode ∧ m = toNode then some e else (g.incomingEdges m).lookup n
  mem_subEdges : ∀ x, x ∈ g'.getSubEdges e ↔ x = se ∨ (e ∈ g.edges ∧ x ∈ g.getSubEdges e)
  isMust_eq : g'.isAMustCall e = true ↔ isMust = true ∨ (e ∈ g.edges ∧ g.isAMustCall e = true)
  attr_eq : ∀ x, x ≠ e → g'.edgeAttr x = g.edgeAttr x
  subEdgeIsMust_eq : ∀ x, g'.subEdgeIsMust x = if x = se then isMust else g.subEdgeIsMust x

/-- What finding or allocating the edge does to `g`. -/
structure FoundEdge (g : CallGraph F I) (fromNode toNode : CallGraphFunctionNode F) (isMust : Bool)
    (e : CallGraphFunctionFunctionEdge F) (g' : CallGraph F I) : Prop where
  functions_eq : g'.functions = g.functions
  instructionNodes_eq : g'.instructionNodes = g.instructionNodes
  subEdgeIsMust_eq : g'.subEdgeIsMust = g.subEdgeIsMust
  caller_eq : e.caller = fromNode
  callee_eq : e.callee = toNode
  nextAddr_le : g.nextAddr ≤ g'.nextAddr
  edge_lt : e.addr < g'.nextAddr
  mem_edges : ∀ x, x ∈ g'.edges ↔ x = e ∨ x ∈ g.edges
  existing : ∀ x ∈ g.edges, x.caller = fromNode → x.callee = toNode → x = e
  outgoing_eq : ∀ n m, (g'.outgoingEdges n).lookup m =
    if n = fromNode ∧ m = toNode then some e else (g.outgoingEdges n).lookup m
  incoming_eq : ∀ n m, (g'.incomingEdges m).lookup n =
    if n = fromNode ∧ m = toNode then some e else (g.incomingEdges m).lookup n
  attr_eq : (e ∈ g.edges ∧ g'.edgeAttr = g.edgeAttr) ∨
    (e ∉ g.edges ∧ g'.edgeAttr = update g.edgeAttr e ⟨isMust, ∅, ∅⟩)

omit [DecidableEq I] in
/-- The edge between two nodes is found, or made if there is none. -/
theorem getOrNewEdge_spec
    (hout : ∀ n m e, (g.outgoingEdges n).lookup m = some e ↔ e ∈ g.edges ∧ e.caller = n ∧ e.callee = m)
    (hinc : ∀ n m e, (g.incomingEdges m).lookup n = some e ↔ e ∈ g.edges ∧ e.caller = n ∧ e.callee = m)
    (hfresh : ∀ e ∈ g.edges, e.addr < g.nextAddr) (fromNode toNode : CallGraphFunctionNode F)
    (isMust : Bool) : ∃ e g', g.getOrNewEdge fromNode toNode isMust = (e, g') ∧
      FoundEdge g fromNode toNode isMust e g' := by
  unfold getOrNewEdge
  cases hedge : g.getEdge fromNode toNode with
  | some e =>
      have hlook : (g.outgoingEdges fromNode).lookup toNode = some e := hedge
      have he := (hout fromNode toNode e).mp hlook
      have hlook' := (hinc fromNode toNode e).mpr he
      refine ⟨e, g, rfl, rfl, rfl, rfl, he.2.1, he.2.2, le_rfl, hfresh e he.1, fun x => ?_,
        fun x hx hc hd => ?_, fun n m => ?_, fun n m => ?_, .inl ⟨he.1, rfl⟩⟩
      · exact ⟨.inr, fun hx => hx.elim (fun heq => heq ▸ he.1) id⟩
      · have hx' := (hout fromNode toNode x).mpr ⟨hx, hc, hd⟩
        exact Option.mem_unique hx' hlook
      · split
        · rename_i heq
          rw [heq.1, heq.2, hlook]
        · rfl
      · split
        · rename_i heq
          rw [heq.1, heq.2, hlook']
        · rfl
  | none =>
      have hnew : (⟨g.nextAddr, fromNode, toNode⟩ : CallGraphFunctionFunctionEdge F) ∉ g.edges :=
        fun hmem => absurd (hfresh _ hmem) (lt_irrefl _)
      have hnone : ∀ x ∈ g.edges, x.caller = fromNode → x.callee = toNode →
          x = ⟨g.nextAddr, fromNode, toNode⟩ := fun x hx hc hd => by
        have hlook : (g.outgoingEdges fromNode).lookup toNode = none := hedge
        rw [(hout fromNode toNode x).mpr ⟨hx, hc, hd⟩] at hlook
        cases hlook
      exact ⟨_, _, rfl, rfl, rfl, rfl, rfl, rfl, Nat.le_succ _, Nat.lt_succ_self _,
        fun x => mem_insert, hnone, fun n m => lookup_update_insert,
        fun n m => lookup_update_insert.trans (if_congr and_comm rfl rfl), .inr ⟨hnew, rfl⟩⟩

omit [DecidableEq F] in
/-- Only the table of instruction nodes and the next address change. -/
theorem fetchOrCreateInstructionNode_spec
    (hok : ∀ i n, g.instructionNodes.lookup i = some n → n.i = i) (callInst : I) :
    ∃ instNode nodes k, g.fetchOrCreateInstructionNode callInst =
        (instNode, { g with instructionNodes := nodes, nextAddr := g.nextAddr + k }) ∧
      instNode.i = callInst ∧ ∀ i n, nodes.lookup i = some n → n.i = i := by
  unfold fetchOrCreateInstructionNode
  cases hlook : g.instructionNodes.lookup callInst with
  | some instNode => exact ⟨instNode, g.instructionNodes, 0, rfl, hok _ _ hlook, hok⟩
  | none =>
      refine ⟨⟨g.nextAddr, callInst⟩, _, 1, rfl, rfl, fun i n hn => ?_⟩
      by_cases hi : i = callInst
      · subst hi
        rw [AList.lookup_insert, Option.some.injEq] at hn
        exact hn ▸ rfl
      · rw [AList.lookup_insert_ne hi] at hn
        exact hok i n hn

/-- A call of a known function gets an edge and a sub-edge. -/
theorem EdgesOk.fetchOrCreateEdge_spec (h : EdgesOk g) (fromNode : CallGraphFunctionNode F)
    (callInst : I) (isMust : Bool) (hcallee : g.functions.lookup callee = some toNode) :
    ∃ e se g', g.fetchOrCreateEdge fromNode callInst callee isMust = some (e, g') ∧
      Fetched g fromNode toNode callInst isMust e se g' := by
  obtain ⟨instNode, nodes, k, hinst, hi, hok⟩ := fetchOrCreateInstructionNode_spec h.instNode_ok callInst
  let se : CallGraphInstructionFunctionEdge F I := ⟨g.nextAddr + k, instNode, toNode⟩
  let g₁ : CallGraph F I :=
    { g with
      instructionNodes := nodes
      nextAddr := g.nextAddr + k + 1
      subEdgeIsMust := update g.subEdgeIsMust se isMust }
  obtain ⟨e, g₂, he, hfound⟩ := getOrNewEdge_spec (g := g₁) h.outgoing_iff h.incoming_iff
    (fun e he => Nat.lt_of_lt_of_le (h.edge_fresh e he) (by change _ ≤ g.nextAddr + k + 1; omega))
    fromNode toNode isMust
  have hse : g.nextAddr ≤ se.addr ∧ se.addr < g₁.nextAddr := ⟨Nat.le_add_right _ _, Nat.lt_succ_self _⟩
  have hle : g.nextAddr ≤ g₁.nextAddr := by change _ ≤ g.nextAddr + k + 1; omega
  let attr := (g₂.edgeAttr e).addSubEdge se
  let g' : CallGraph F I :=
    { g₂ with edgeAttr := update g₂.edgeAttr e (if isMust then attr.setMust else attr) }
  have hattr : g'.edgeAttr e = if isMust then attr.setMust else attr := update_self ..
  have hsubs : (g'.edgeAttr e).subEdges = (g₂.edgeAttr e).subEdges.insert se := by
    rw [hattr]
    cases isMust <;> rfl
  have hmust : (g'.edgeAttr e).isMust = (isMust || (g₂.edgeAttr e).isMust) := by
    rw [hattr]
    cases isMust <;> rfl
  refine ⟨e, se, g', ?_, ?_⟩
  · unfold fetchOrCreateEdge
    simp only [hcallee, hinst, Option.bind_eq_bind, Option.bind_some, newSubEdge]
    have he' := he
    simp only [g₁, se] at he'
    rw [he']
    rfl
  · refine
      { functions_eq := hfound.functions_eq
        instNode_ok := by
          intro i n hn
          have heq : g'.instructionNodes = nodes := hfound.instructionNodes_eq
          exact hok i n (heq ▸ hn)
        caller_eq := hfound.caller_eq
        callee_eq := hfound.callee_eq
        subEdge_inst := hi
        subEdge_callee := rfl
        nextAddr_le := hle.trans hfound.nextAddr_le
        edge_lt := hfound.edge_lt
        subEdge_fresh := ⟨hse.1, Nat.lt_of_lt_of_le hse.2 hfound.nextAddr_le⟩
        mem_edges := hfound.mem_edges
        existing := hfound.existing
        outgoing_eq := hfound.outgoing_eq
        incoming_eq := hfound.incoming_eq
        mem_subEdges := ?_
        isMust_eq := ?_
        attr_eq := ?_
        subEdgeIsMust_eq := ?_ }
    · intro x
      change x ∈ (g'.edgeAttr e).subEdges ↔ _
      rw [hsubs, mem_insert]
      rcases hfound.attr_eq with ⟨hmem, heq⟩ | ⟨hnew, heq⟩
      · rw [heq]
        exact or_congr_right ⟨fun hx => ⟨hmem, hx⟩, And.right⟩
      · rw [heq, update_self]
        exact or_congr_right ⟨fun hx => absurd hx (not_mem_empty x), fun hx => absurd hx.1 hnew⟩
    · change (g'.edgeAttr e).isMust = true ↔ _
      rw [hmust, Bool.or_eq_true]
      rcases hfound.attr_eq with ⟨hmem, heq⟩ | ⟨hnew, heq⟩
      · rw [heq]
        exact or_congr_right ⟨fun hx => ⟨hmem, hx⟩, And.right⟩
      · rw [heq, update_self]
        exact ⟨fun hx => .inl (hx.elim id id), fun hx => hx.imp id fun hx => absurd hx.1 hnew⟩
    · intro x hx
      have hother : g'.edgeAttr x = g₂.edgeAttr x := update_of_ne hx ..
      rw [hother]
      rcases hfound.attr_eq with ⟨_, heq⟩ | ⟨_, heq⟩
      · rw [heq]
      · rw [heq, update_of_ne hx]
    · intro x
      have heq : g'.subEdgeIsMust = g₁.subEdgeIsMust := hfound.subEdgeIsMust_eq
      rw [heq]
      exact update_apply ..

section

variable (hf : Fetched g fromNode toNode callInst isMust e se g')

include hf

theorem Fetched.subEdge_ne (h : EdgesOk g) (he' : e' ∈ g.edges)
    {x : CallGraphInstructionFunctionEdge F I} (hx : x ∈ g.getSubEdges e') :
    x ≠ se := fun heq =>
  absurd (h.subEdge_fresh e' he' x hx) (by rw [heq]; exact Nat.not_lt.mpr hf.subEdge_fresh.1)

theorem Fetched.getSubEdges_eq (hne : e' ≠ e) : g'.getSubEdges e' = g.getSubEdges e' := by
  rw [getSubEdges, hf.attr_eq e' hne]
  rfl

theorem Fetched.lookup_iff {found found' : Option (CallGraphFunctionFunctionEdge F)}
    (hfound : ∀ x, found = some x ↔ x ∈ g.edges ∧ x.caller = n ∧ x.callee = m)
    (heq : found' = if n = fromNode ∧ m = toNode then some e else found)
    (x : CallGraphFunctionFunctionEdge F) :
    found' = some x ↔ x ∈ g'.edges ∧ x.caller = n ∧ x.callee = m := by
  rw [heq, hf.mem_edges]
  split
  · rename_i heq
    rw [heq.1, heq.2, Option.some.injEq]
    constructor
    · rintro rfl
      exact ⟨.inl rfl, hf.caller_eq, hf.callee_eq⟩
    · rintro ⟨rfl | hx, hc, hd⟩
      · rfl
      · exact (hf.existing x hx hc hd).symm
  · rename_i hne
    rw [hfound]
    refine ⟨fun hx => ⟨.inr hx.1, hx.2⟩, fun hx => ⟨hx.1.resolve_left ?_, hx.2⟩⟩
    rintro rfl
    exact hne ⟨hx.2.1.symm.trans hf.caller_eq, hx.2.2.symm.trans hf.callee_eq⟩

end

/-- A fetched edge keeps the invariant of the edges. -/
theorem EdgesOk.of_fetched (h : EdgesOk g) (hf : Fetched g fromNode toNode callInst isMust e se g')
    (hfrom : g.functions.lookup fromNode.f = some fromNode)
    (hto : g.functions.lookup toNode.f = some toNode) : EdgesOk g' where
  outgoing_iff := fun n m => hf.lookup_iff (h.outgoing_iff n m) (hf.outgoing_eq n m)
  incoming_iff := fun n m => hf.lookup_iff (h.incoming_iff n m) (hf.incoming_eq n m)
  edge_nodes := by
    intro x hx
    rw [hf.functions_eq]
    rcases (hf.mem_edges x).mp hx with rfl | hx
    · rw [hf.caller_eq, hf.callee_eq]
      exact ⟨hfrom, hto⟩
    · exact h.edge_nodes x hx
  instNode_ok := hf.instNode_ok
  edge_fresh := by
    intro x hx
    rcases (hf.mem_edges x).mp hx with rfl | hx
    · exact hf.edge_lt
    · exact Nat.lt_of_lt_of_le (h.edge_fresh x hx) hf.nextAddr_le
  subEdge_fresh := by
    intro x hx y hy
    by_cases hxe : x = e
    · subst hxe
      rcases (hf.mem_subEdges y).mp hy with rfl | ⟨hx, hy⟩
      · exact hf.subEdge_fresh.2
      · exact Nat.lt_of_lt_of_le (h.subEdge_fresh x hx y hy) hf.nextAddr_le
    · rw [hf.getSubEdges_eq hxe] at hy
      have hx := ((hf.mem_edges x).mp hx).resolve_left hxe
      exact Nat.lt_of_lt_of_le (h.subEdge_fresh x hx y hy) hf.nextAddr_le
  subEdges_ne := by
    intro x hx
    by_cases hxe : x = e
    · subst hxe
      have hmem : se ∈ (g'.getSubEdges x).elems := (hf.mem_subEdges se).mpr (.inl rfl)
      exact Nat.ne_of_gt (length_pos_of_mem hmem)
    · rw [hf.getSubEdges_eq hxe]
      exact h.subEdges_ne x (((hf.mem_edges x).mp hx).resolve_left hxe)
  subEdge_callee := by
    intro x hx y hy
    by_cases hxe : x = e
    · subst hxe
      rcases (hf.mem_subEdges y).mp hy with rfl | ⟨hx, hy⟩
      · rw [hf.subEdge_callee, hf.callee_eq]
      · exact h.subEdge_callee x hx y hy
    · rw [hf.getSubEdges_eq hxe] at hy
      exact h.subEdge_callee x (((hf.mem_edges x).mp hx).resolve_left hxe) y hy
  isMust_iff := by
    intro x hx
    by_cases hxe : x = e
    · subst hxe
      rw [hf.isMust_eq]
      constructor
      · rintro (hmust | ⟨hx, hmust⟩)
        · exact ⟨se, (hf.mem_subEdges se).mpr (.inl rfl), by rw [hf.subEdgeIsMust_eq, if_pos rfl, hmust]⟩
        · obtain ⟨y, hy, hym⟩ := (h.isMust_iff x hx).mp hmust
          refine ⟨y, (hf.mem_subEdges y).mpr (.inr ⟨hx, hy⟩), ?_⟩
          rw [hf.subEdgeIsMust_eq, if_neg (hf.subEdge_ne h hx hy), hym]
      · rintro ⟨y, hy, hym⟩
        rw [hf.subEdgeIsMust_eq] at hym
        rcases (hf.mem_subEdges y).mp hy with rfl | ⟨hx, hy⟩
        · rw [if_pos rfl] at hym
          exact .inl hym
        · rw [if_neg (hf.subEdge_ne h hx hy)] at hym
          exact .inr ⟨hx, (h.isMust_iff x hx).mpr ⟨y, hy, hym⟩⟩
    · have hx := ((hf.mem_edges x).mp hx).resolve_left hxe
      rw [isAMustCall, hf.attr_eq x hxe, hf.getSubEdges_eq hxe]
      refine (h.isMust_iff x hx).trans (exists_congr fun y => and_congr_right fun hy => ?_)
      rw [hf.subEdgeIsMust_eq, if_neg (hf.subEdge_ne h hx hy)]

/-! ## Removal -/

/-- `g'` is `g` without the sub-edge `se` of the edge `e`, and without `e` if that was
its last one. -/
structure Removed (g : CallGraph F I) (e : CallGraphFunctionFunctionEdge F)
    (se : CallGraphInstructionFunctionEdge F I) (g' : CallGraph F I) : Prop where
  functions_eq : g'.functions = g.functions
  instructionNodes_eq : g'.instructionNodes = g.instructionNodes
  subEdgeIsMust_eq : g'.subEdgeIsMust = g.subEdgeIsMust
  nextAddr_eq : g'.nextAddr = g.nextAddr
  mem_subEdges : ∀ x, x ∈ g'.getSubEdges e ↔ x ≠ se ∧ x ∈ g.getSubEdges e
  isMust_eq : g'.isAMustCall e = true ↔ ∃ x ∈ g'.getSubEdges e, g.subEdgeIsMust x = true
  attr_eq : ∀ x, x ≠ e → g'.edgeAttr x = g.edgeAttr x
  mem_edges : ∀ x, x ∈ g'.edges ↔ x ∈ g.edges ∧ (x = e → (g'.getSubEdges e).size ≠ 0)
  outgoing_eq : ∀ n m, (g'.outgoingEdges n).lookup m =
    if (g'.getSubEdges e).size = 0 ∧ n = e.caller ∧ m = e.callee then none
    else (g.outgoingEdges n).lookup m
  incoming_eq : ∀ n m, (g'.incomingEdges m).lookup n =
    if (g'.getSubEdges e).size = 0 ∧ n = e.caller ∧ m = e.callee then none
    else (g.incomingEdges m).lookup n

/-- An edge is must exactly if a sub-edge left is must. -/
theorem FunctionEdgeAttr.removeSubEdge_spec {a : FunctionEdgeAttr F I}
    {must : CallGraphInstructionFunctionEdge F I → Bool} (hse : se ∈ a.subEdges)
    (hmust : a.isMust = true ↔ ∃ x ∈ a.subEdges, must x = true) :
    ∃ a', a.removeSubEdge must se = some a' ∧ a'.subEdges = a.subEdges.erase se ∧
      (a'.isMust = true ↔ ∃ x ∈ a'.subEdges, must x = true) := by
  unfold FunctionEdgeAttr.removeSubEdge
  rw [if_neg (not_not.mpr hse)]
  cases hm : must se with
  | true =>
      have ha : a.isMust = true := hmust.mpr ⟨se, hse, hm⟩
      cases hany : (a.subEdges.erase se).elems.any must with
      | true =>
          refine ⟨_, by simp [ha, hany]; rfl, rfl, ?_⟩
          simpa [ha] using any_eq_true.mp hany
      | false =>
          refine ⟨_, by simp [ha, hany]; rfl, rfl, ?_⟩
          simpa [FunctionEdgeAttr.unsetMust] using any_eq_false.mp hany
  | false =>
      refine ⟨_, rfl, rfl, hmust.trans ⟨?_, ?_⟩⟩
      · rintro ⟨x, hx, hxm⟩
        exact ⟨x, mem_erase.mpr ⟨fun heq => by simp [heq, hm] at hxm, hx⟩, hxm⟩
      · rintro ⟨x, hx, hxm⟩
        exact ⟨x, (mem_erase.mp hx).2, hxm⟩

/-- A sub-edge of an edge can always be removed. -/
theorem EdgesOk.removeSubEdge_spec (h : EdgesOk g) (he : e ∈ g.edges) (hse : se ∈ g.getSubEdges e) :
    ∃ g', g.removeSubEdge e se = some g' ∧ Removed g e se g' := by
  obtain ⟨a', ha', hsubs, hmust⟩ := FunctionEdgeAttr.removeSubEdge_spec hse (h.isMust_iff e he)
  let g₁ : CallGraph F I := { g with edgeAttr := update g.edgeAttr e a' }
  have hattr : g₁.edgeAttr e = a' := update_self ..
  have hother : ∀ x, x ≠ e → g₁.edgeAttr x = g.edgeAttr x := fun x hx => update_of_ne hx ..
  have hmem : ∀ x, x ∈ a'.subEdges ↔ x ≠ se ∧ x ∈ g.getSubEdges e := fun x => by
    rw [hsubs]
    exact mem_erase
  unfold removeSubEdge
  simp only [he, not_true_eq_false, if_false, ha', Option.bind_eq_bind, Option.bind_some]
  by_cases hsize : a'.subEdges.size = 0
  · rw [if_pos hsize]
    have hout : (g.outgoingEdges e.caller).lookup e.callee = some e :=
      (h.outgoing_iff _ _ e).mpr ⟨he, rfl, rfl⟩
    have hinc : (g.incomingEdges e.callee).lookup e.caller = some e :=
      (h.incoming_iff _ _ e).mpr ⟨he, rfl, rfl⟩
    unfold deleteEdge
    rw [if_neg (not_not.mpr hout), if_neg (not_not.mpr hinc)]
    have hzero : ∀ {g' : CallGraph F I}, g'.edgeAttr = g₁.edgeAttr → (g'.getSubEdges e).size = 0 :=
      fun heq => by rw [getSubEdges, heq, hattr, hsize]
    refine ⟨_, rfl, rfl, rfl, rfl, rfl, ?_, ?_, hother, fun x => ?_, fun n m => ?_, fun n m => ?_⟩
    · intro x
      change x ∈ (g₁.edgeAttr e).subEdges ↔ _
      rw [hattr, hmem]
    · change (g₁.edgeAttr e).isMust = true ↔ ∃ x ∈ (g₁.edgeAttr e).subEdges, _
      rw [hattr]
      exact hmust
    · refine mem_erase.trans ⟨fun hx => ⟨hx.2, fun heq => absurd heq hx.1⟩, fun hx => ⟨?_, hx.1⟩⟩
      exact fun heq => hx.2 heq (hzero rfl)
    · exact lookup_update_erase.trans (if_congr (and_iff_right (hzero rfl)).symm rfl rfl)
    · exact lookup_update_erase.trans
        (if_congr (and_comm.trans (and_iff_right (hzero rfl)).symm) rfl rfl)
  · rw [if_neg hsize]
    have hpos : (g₁.getSubEdges e).size ≠ 0 := by rw [getSubEdges, hattr]; exact hsize
    refine ⟨g₁, rfl, rfl, rfl, rfl, rfl, ?_, ?_, hother, fun x => ?_, fun n m => ?_, fun n m => ?_⟩
    · intro x
      rw [getSubEdges, hattr, hmem]
    · rw [isAMustCall, getSubEdges, hattr]
      exact hmust
    · exact ⟨fun hx => ⟨hx, fun _ => hpos⟩, And.left⟩
    · rw [if_neg fun hx => hpos hx.1]
    · rw [if_neg fun hx => hpos hx.1]

section

omit [DecidableEq I]

theorem Removed.getSubEdges_eq (hr : Removed g e se g') (hne : e' ≠ e) :
    g'.getSubEdges e' = g.getSubEdges e' := by
  rw [getSubEdges, hr.attr_eq e' hne]
  rfl

theorem Removed.getSubEdges_subset (hr : Removed g e se g') {x : CallGraphInstructionFunctionEdge F I}
    (hx : x ∈ g'.getSubEdges e') : x ∈ g.getSubEdges e' := by
  by_cases hne : e' = e
  · subst hne
    exact ((hr.mem_subEdges x).mp hx).2
  · exact hr.getSubEdges_eq hne ▸ hx

theorem Removed.lookup_iff (hr : Removed g e se g')
    {found found' : Option (CallGraphFunctionFunctionEdge F)}
    (hfound : ∀ x, found = some x ↔ x ∈ g.edges ∧ x.caller = n ∧ x.callee = m) (he : e ∈ g.edges)
    (heq : found' = if (g'.getSubEdges e).size = 0 ∧ n = e.caller ∧ m = e.callee then none
      else found) (x : CallGraphFunctionFunctionEdge F) :
    found' = some x ↔ x ∈ g'.edges ∧ x.caller = n ∧ x.callee = m := by
  rw [heq, hr.mem_edges]
  split
  · rename_i hdel
    obtain ⟨hsize, rfl, rfl⟩ := hdel
    -- the only edge between the two nodes is the one that was deleted
    have hxe : ∀ x ∈ g.edges, x.caller = e.caller → x.callee = e.callee → x = e := by
      intro x hx hc hd
      have hlook := (hfound x).mpr ⟨hx, hc, hd⟩
      rw [(hfound e).mpr ⟨he, rfl, rfl⟩] at hlook
      exact (Option.some.inj hlook).symm
    refine ⟨fun hx => (by cases hx), fun ⟨⟨hx, hkeep⟩, hc, hd⟩ => ?_⟩
    exact absurd hsize (hkeep (hxe x hx hc hd))
  · rename_i hkeep
    rw [hfound]
    refine ⟨fun hx => ⟨⟨hx.1, fun heq hsize => hkeep ?_⟩, hx.2⟩, fun hx => ⟨hx.1.1, hx.2⟩⟩
    subst heq
    exact ⟨hsize, hx.2.1.symm, hx.2.2.symm⟩

end

/-- Removing a sub-edge keeps the invariant of the edges. -/
theorem EdgesOk.of_removed (h : EdgesOk g) (hr : Removed g e se g') (he : e ∈ g.edges) :
    EdgesOk g' where
  outgoing_iff := fun n m => hr.lookup_iff (h.outgoing_iff n m) he (hr.outgoing_eq n m)
  incoming_iff := fun n m => hr.lookup_iff (h.incoming_iff n m) he (hr.incoming_eq n m)
  edge_nodes := by
    intro x hx
    rw [hr.functions_eq]
    exact h.edge_nodes x ((hr.mem_edges x).mp hx).1
  instNode_ok := by
    rw [hr.instructionNodes_eq]
    exact h.instNode_ok
  edge_fresh := by
    intro x hx
    rw [hr.nextAddr_eq]
    exact h.edge_fresh x ((hr.mem_edges x).mp hx).1
  subEdge_fresh := by
    intro x hx y hy
    rw [hr.nextAddr_eq]
    exact h.subEdge_fresh x ((hr.mem_edges x).mp hx).1 y (hr.getSubEdges_subset hy)
  subEdges_ne := by
    intro x hx
    obtain ⟨hx, hkeep⟩ := (hr.mem_edges x).mp hx
    by_cases hxe : x = e
    · exact hxe ▸ hkeep hxe
    · rw [hr.getSubEdges_eq hxe]
      exact h.subEdges_ne x hx
  subEdge_callee := fun x hx y hy =>
    h.subEdge_callee x ((hr.mem_edges x).mp hx).1 y (hr.getSubEdges_subset hy)
  isMust_iff := by
    intro x hx
    by_cases hxe : x = e
    · subst hxe
      rw [hr.isMust_eq, hr.subEdgeIsMust_eq]
    · rw [isAMustCall, hr.attr_eq x hxe, hr.getSubEdges_eq hxe, hr.subEdgeIsMust_eq]
      exact h.isMust_iff x ((hr.mem_edges x).mp hx).1

/-! ## Runs -/

/-- The two operations that change edges. -/
inductive EdgeOp (F I : Type) where
  | fetchOrCreateEdge (fromNode : CallGraphFunctionNode F) (callInst : I) (callee : F) (isMust : Bool)
  | removeSubEdge (e : CallGraphFunctionFunctionEdge F) (se : CallGraphInstructionFunctionEdge F I)

def applyOp (g : CallGraph F I) : EdgeOp F I → Option (CallGraph F I)
  | .fetchOrCreateEdge fromNode callInst callee isMust =>
      (g.fetchOrCreateEdge fromNode callInst callee isMust).map (·.2)
  | .removeSubEdge e se => g.removeSubEdge e se

/-- The caller and the callee are functions of the graph, and what is removed is there. -/
def Allowed (g : CallGraph F I) : EdgeOp F I → Prop
  | .fetchOrCreateEdge fromNode _ callee _ =>
      g.functions.lookup fromNode.f = some fromNode ∧ (g.functions.lookup callee).isSome = true
  | .removeSubEdge e se => e ∈ g.edges ∧ se ∈ g.getSubEdges e

instance (g : CallGraph F I) : (op : EdgeOp F I) → Decidable (Allowed g op)
  | .fetchOrCreateEdge _ _ _ _ => inferInstanceAs (Decidable (_ ∧ _))
  | .removeSubEdge _ _ => inferInstanceAs (Decidable (_ ∧ _))

def EdgeOp.InCaller (M : IRModule F I) : EdgeOp F I → Prop
  | .fetchOrCreateEdge fromNode callInst _ _ => M.getFunction callInst = fromNode.f
  | .removeSubEdge _ _ => True

/-- What the edges of a call graph are to its clients. -/
structure EdgeInvariant (g : CallGraph F I) : Prop where
  /-- At most one edge for each ordered pair of function nodes. -/
  edge_unique : ∀ e ∈ g.edges, ∀ e' ∈ g.edges, e.caller = e'.caller → e.callee = e'.callee → e = e'
  /-- An edge is recorded at its caller, at its callee and in the graph, or nowhere. -/
  outgoing_iff : ∀ n e, e ∈ g.getOutgoingEdges n ↔ e ∈ g.edges ∧ e.caller = n
  incoming_iff : ∀ n e, e ∈ g.getIncomingEdges n ↔ e ∈ g.edges ∧ e.callee = n
  edge_nodes : ∀ e ∈ g.edges, e.caller ∈ g.getFunctionNodes ∧ e.callee ∈ g.getFunctionNodes
  /-- An edge has sub-edges, and they go to its callee. -/
  subEdges_ne : ∀ e ∈ g.edges, ∃ se, se ∈ g.getSubEdges e
  subEdge_callee : ∀ e ∈ g.edges, ∀ se ∈ g.getSubEdges e, se.callee = e.callee
  /-- A must edge has a must sub-edge, and conversely. -/
  isMust_iff : ∀ e ∈ g.edges, g.isAMustCall e = true ↔
    ∃ se ∈ g.getSubEdges e, g.subEdgeIsMust se = true

/-- The sub-edges of an edge come from instructions of its caller. -/
def SubEdgesInCaller (M : IRModule F I) (g : CallGraph F I) : Prop :=
  ∀ e ∈ g.edges, ∀ se ∈ g.getSubEdges e, M.getFunction se.caller.i = e.caller.f

omit [DecidableEq I] in
theorem mem_getFunctionNodes : n ∈ g.getFunctionNodes ↔ ∃ f, g.functions.lookup f = some n := by
  simp only [getFunctionNodes, mem_ofList, mem_map]
  constructor
  · rintro ⟨⟨f, n⟩, hmem, rfl⟩
    exact ⟨f, AList.mem_lookup_iff.mpr hmem⟩
  · rintro ⟨f, hf⟩
    exact ⟨⟨f, n⟩, AList.mem_lookup_iff.mp hf, rfl⟩

theorem EdgesOk.edgeInvariant (h : EdgesOk g) : EdgeInvariant g where
  edge_unique := fun _ he _ he' => h.edge_unique he he'
  outgoing_iff := fun _ _ => h.mem_getOutgoingEdges
  incoming_iff := fun _ _ => h.mem_getIncomingEdges
  edge_nodes := fun e he => ⟨mem_getFunctionNodes.mpr ⟨_, (h.edge_nodes e he).1⟩,
    mem_getFunctionNodes.mpr ⟨_, (h.edge_nodes e he).2⟩⟩
  subEdges_ne := fun e he =>
    exists_mem_of_ne_nil _ fun hnil => h.subEdges_ne e he (by rw [PtrSet.size, hnil]; rfl)
  subEdge_callee := h.subEdge_callee
  isMust_iff := h.isMust_iff

/-- A node is the node of its function. -/
def NodesOk (g : CallGraph F I) : Prop := ∀ f n, g.functions.lookup f = some n → n.f = f

/-- What the operations keep. -/
structure OpsOk (g : CallGraph F I) : Prop extends EdgesOk g where
  nodes : NodesOk g

theorem OpsOk.applyOp (h : OpsOk g) {op : EdgeOp F I} (hop : Allowed g op) :
    ∃ g', g.applyOp op = some g' ∧ OpsOk g' := by
  cases op with
  | fetchOrCreateEdge fromNode callInst callee isMust =>
      obtain ⟨hfrom, hsome⟩ := hop
      obtain ⟨toNode, hto⟩ := Option.isSome_iff_exists.mp hsome
      obtain ⟨e, se, g', hg', hf⟩ := h.fetchOrCreateEdge_spec fromNode callInst isMust hto
      refine ⟨g', by rw [CallGraph.applyOp, hg']; rfl, h.of_fetched hf hfrom ?_, ?_⟩
      · rw [h.nodes _ _ hto]
        exact hto
      · rw [NodesOk, hf.functions_eq]
        exact h.nodes
  | removeSubEdge e se =>
      obtain ⟨g', hg', hr⟩ := h.removeSubEdge_spec hop.1 hop.2
      refine ⟨g', hg', h.of_removed hr hop.1, ?_⟩
      rw [NodesOk, hr.functions_eq]
      exact h.nodes

/-- An operation inside a caller keeps the sub-edges in their callers. -/
theorem SubEdgesInCaller.applyOp {M : IRModule F I} (hsubs : SubEdgesInCaller M g) (h : OpsOk g)
    {op : EdgeOp F I} (hop : Allowed g op) (hin : op.InCaller M) (hg' : g.applyOp op = some g') :
    SubEdgesInCaller M g' := by
  cases op with
  | fetchOrCreateEdge fromNode callInst callee isMust =>
      obtain ⟨toNode, hto⟩ := Option.isSome_iff_exists.mp hop.2
      obtain ⟨e, se, g₁, hg₁, hf⟩ := h.fetchOrCreateEdge_spec fromNode callInst isMust hto
      have heq : g₁ = g' := by
        rw [CallGraph.applyOp, hg₁] at hg'
        exact Option.some.inj hg'
      subst heq
      intro x hx y hy
      by_cases hxe : x = e
      · subst hxe
        rcases (hf.mem_subEdges y).mp hy with rfl | ⟨hx, hy⟩
        · rw [hf.subEdge_inst, hf.caller_eq]
          exact hin
        · exact hsubs x hx y hy
      · rw [hf.getSubEdges_eq hxe] at hy
        exact hsubs x (((hf.mem_edges x).mp hx).resolve_left hxe) y hy
  | removeSubEdge e se =>
      obtain ⟨g₁, hg₁, hr⟩ := h.removeSubEdge_spec hop.1 hop.2
      obtain rfl := Option.mem_unique hg₁ hg'
      exact fun x hx y hy => hsubs x ((hr.mem_edges x).mp hx).1 y (hr.getSubEdges_subset hy)

/-! ## Nodes -/

/-- The nodes of some functions and no edges. -/
structure OnlyNodes (fs : List F) (g : CallGraph F I) : Prop where
  nodes : NodesOk g
  lookup_isSome : ∀ f, (g.functions.lookup f).isSome = true ↔ f ∈ fs
  edges_eq : g.edges = ∅
  outgoingEdges_eq : ∀ n, g.outgoingEdges n = ∅
  incomingEdges_eq : ∀ n, g.incomingEdges n = ∅
  instructionNodes_eq : g.instructionNodes = ∅

theorem OnlyNodes.opsOk {fs : List F} (h : OnlyNodes fs g) : OpsOk g where
  outgoing_iff := fun n m e => by simp [h.outgoingEdges_eq, h.edges_eq]
  incoming_iff := fun n m e => by simp [h.incomingEdges_eq, h.edges_eq]
  edge_nodes := fun e he => by simp [h.edges_eq] at he
  instNode_ok := fun i n hn => by simp [h.instructionNodes_eq] at hn
  edge_fresh := fun e he => by simp [h.edges_eq] at he
  subEdge_fresh := fun e he => by simp [h.edges_eq] at he
  subEdges_ne := fun e he => by simp [h.edges_eq] at he
  subEdge_callee := fun e he => by simp [h.edges_eq] at he
  isMust_iff := fun e he => by simp [h.edges_eq] at he
  nodes := h.nodes

omit [DecidableEq I] in
theorem createNodes_onlyNodes (M : IRModule F I) : OnlyNodes M.functions.elems (createNodes M) := by
  refine foldl_rule _ (fun pre g => OnlyNodes pre g) ?_ ?_
  · exact ⟨fun f n hn => by simp [empty] at hn, fun f => by simp [empty], rfl, fun _ => rfl,
      fun _ => rfl, rfl⟩
  · intro pre f post g _ h
    refine ⟨fun f' n hn => ?_, fun f' => ?_, h.edges_eq, h.outgoingEdges_eq, h.incomingEdges_eq,
      h.instructionNodes_eq⟩
    · dsimp only at hn
      by_cases hf : f' = f
      · subst hf
        rw [AList.lookup_insert, Option.some.injEq] at hn
        exact hn ▸ rfl
      · rw [AList.lookup_insert_ne hf] at hn
        exact h.nodes f' n hn
    · dsimp only
      by_cases hf : f' = f
      · subst hf
        simp
      · rw [AList.lookup_insert_ne hf, h.lookup_isSome]
        simp [hf]

/-- **Edges under creation and removal**: no operation of a run on the call graph of a
module fails, and its edges are consistent in every state; if the call instructions
belong to their callers, so do the sub-edges. -/
theorem edges_throughout (M : IRModule F I) {ops : List (EdgeOp F I)}
    (hops : Calls applyOp Allowed (createNodes M) ops) :
    Always applyOp EdgeInvariant (createNodes M) ops ∧
      ((∀ op ∈ ops, op.InCaller M) → Always applyOp (SubEdgesInCaller M) (createNodes M) ops) := by
  have hnodes := createNodes_onlyNodes M
  constructor
  · refine Always.of_invariant (I := OpsOk) (fun _ h => h.edgeInvariant) ?_ hnodes.opsOk hops
    exact fun g op h hop => h.applyOp hop
  · intro hin
    have hstart : SubEdgesInCaller M (createNodes M) := fun e he => by
      rw [hnodes.edges_eq] at he
      exact absurd he (not_mem_empty e)
    refine Always.of_invariant (I := fun g => OpsOk g ∧ SubEdgesInCaller M g) (fun _ h => h.2) ?_
      ⟨hnodes.opsOk, hstart⟩ (hops.and_forall hin)
    rintro g op ⟨h, hsubs⟩ ⟨hop, hopIn⟩
    obtain ⟨g', hg', h'⟩ := h.applyOp hop
    exact ⟨g', hg', h', hsubs.applyOp h hop hopIn hg'⟩

/-- Two functions; the first one calls the second one twice and itself once. -/
def twoFunctions : IRModule Nat Nat where
  functions := ⟨[1, 2], nodup_one_two⟩
  instructions f := if f = 1 then [10, 11, 12] else []
  kind i := if i = 11 then .callInst none else if i = 12 then .callInst (some 1) else .callInst (some 2)
  getFunction _ := 1
  uses f := if f = 1 then [⟨some 12, true⟩] else if f = 2 then [⟨some 10, true⟩] else []
  getFunction_eq := by decide
  use_ok := by decide
  callee_ok := by decide

/-- May and must sub-edges, a self-call, and the removal of the last sub-edge. -/
def twoFunctionsOps : List (EdgeOp Nat Nat) :=
  let one : CallGraphFunctionNode Nat := ⟨0, 1⟩
  let two : CallGraphFunctionNode Nat := ⟨1, 2⟩
  let e : CallGraphFunctionFunctionEdge Nat := ⟨4, one, two⟩
  [.fetchOrCreateEdge one 11 2 false, .fetchOrCreateEdge one 10 2 true,
    .fetchOrCreateEdge one 12 1 true, .removeSubEdge e ⟨6, ⟨5, 10⟩, two⟩,
    .removeSubEdge e ⟨3, ⟨2, 11⟩, two⟩]

theorem edges_throughout_twoFunctions :
    Always applyOp EdgeInvariant (createNodes twoFunctions) twoFunctionsOps ∧
      ((∀ op ∈ twoFunctionsOps, op.InCaller twoFunctions) →
        Always applyOp (SubEdgesInCaller twoFunctions) (createNodes twoFunctions) twoFunctionsOps) :=
  edges_throughout twoFunctions (by decide +kernel)

end CallGraph

end Noelle
