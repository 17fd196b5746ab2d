import Noelle.Lib.Collections

/-!
# LoopNestingGraph

The loop nesting graph: which loop calls which other loop, and through which instructions.

Nodes and edges are heap objects: a pointer with the members that never change.  The members that
change are kept beside them.  An operation whose assertion fails has no result.

`addOutgoingEdge` keys the map of a node by the parent of the edge, which is the node itself, so
`getNestingEdgeTo` finds an edge to another loop never, and the last one created for the node
itself.  The node of the call instruction is assigned to a variable of an inner block, so the
sub-edges have none, and `addSubEdge` drops these.
-/

namespace Noelle

open Function List Option

/-! ## Nodes and edges -/

structure LoopNestingGraphLoopNode (L : Type) where
  addr : Nat
  loop : L
  deriving DecidableEq

structure LoopNestingGraphInstructionNode (I : Type) where
  addr : Nat
  i : I
  deriving DecidableEq

/-- `LoopNestingGraphInstructionLoopEdge`: the sub-edge of one instruction. -/
structure LoopNestingGraphInstructionLoopEdge (L I : Type) where
  addr : Nat
  caller : Option (LoopNestingGraphInstructionNode I)
  child : LoopNestingGraphLoopNode L
  isMust : Bool
  deriving DecidableEq

structure LoopNestingGraphLoopLoopEdge (L : Type) where
  addr : Nat
  parent : LoopNestingGraphLoopNode L
  child : LoopNestingGraphLoopNode L
  deriving DecidableEq

/-- The members of a `LoopNestingGraphLoopNode` that change. -/
structure LoopNodeAttr (L : Type) where
  outgoingEdges : PtrSet (LoopNestingGraphLoopLoopEdge L) := ∅
  incomingEdges : PtrSet (LoopNestingGraphLoopLoopEdge L) := ∅
  outgoingEdgesMap :
    AList fun _ : LoopNestingGraphLoopNode L => LoopNestingGraphLoopLoopEdge L := ∅
  incomingEdgesMap :
    AList fun _ : LoopNestingGraphLoopNode L => LoopNestingGraphLoopLoopEdge L := ∅

/-- The members of a `LoopNestingGraphLoopLoopEdge` that change. -/
structure LoopEdgeAttr (L I : Type) where
  isMust : Bool
  subEdges : PtrSet (LoopNestingGraphInstructionLoopEdge L I) := ∅
  subEdgesMap : AList fun _ : I => LoopNestingGraphInstructionLoopEdge L I := ∅

structure LoopNestingGraph (L I : Type) where
  loops : AList fun _ : L => LoopNestingGraphLoopNode L
  instructionNodes : AList fun _ : I => LoopNestingGraphInstructionNode I
  edges : AList fun _ : LoopNestingGraphLoopNode L => PtrSet (LoopNestingGraphLoopLoopEdge L)
  nodeAttr : LoopNestingGraphLoopNode L → LoopNodeAttr L
  edgeAttr : LoopNestingGraphLoopLoopEdge L → LoopEdgeAttr L I
  nextAddr : Nat

namespace LoopNodeAttr

variable {L : Type} [DecidableEq L]

/-- `LoopNestingGraphLoopNode::addOutgoingEdge`. -/
def addOutgoingEdge (a : LoopNodeAttr L) (edge : LoopNestingGraphLoopLoopEdge L) : LoopNodeAttr L :=
  { a with
    outgoingEdges := a.outgoingEdges.insert edge
    outgoingEdgesMap := a.outgoingEdgesMap.insert edge.parent edge }

/-- `LoopNestingGraphLoopNode::addIncomingEdge`. -/
def addIncomingEdge (a : LoopNodeAttr L) (edge : LoopNestingGraphLoopLoopEdge L) : LoopNodeAttr L :=
  { a with
    incomingEdges := a.incomingEdges.insert edge
    incomingEdgesMap := a.incomingEdgesMap.insert edge.child edge }

end LoopNodeAttr

namespace LoopEdgeAttr

variable {L I : Type} [DecidableEq L] [DecidableEq I]

/-- `LoopNestingGraphLoopLoopEdge::addSubEdge`. -/
def addSubEdge (a : LoopEdgeAttr L I) (subEdge : LoopNestingGraphInstructionLoopEdge L I) :
    LoopEdgeAttr L I :=
  match subEdge.caller with
  | none => a
  | some instNode =>
      { a with
        subEdges := a.subEdges.insert subEdge
        subEdgesMap := a.subEdgesMap.insert instNode.i subEdge }

/-- `LoopNestingGraphEdge::setMust`. -/
def setMust (a : LoopEdgeAttr L I) : LoopEdgeAttr L I := { a with isMust := true }

end LoopEdgeAttr

namespace LoopNestingGraph

variable {L I : Type} [DecidableEq L] [DecidableEq I]

/-- The constructor.  The node of a loop that is listed twice is the last one. -/
def new (loops : List L) : LoopNestingGraph L I :=
  loops.foldl (fun g l =>
    { g with loops := g.loops.insert l ⟨g.nextAddr, l⟩, nextAddr := g.nextAddr + 1 })
    { loops := ∅
      instructionNodes := ∅
      edges := ∅
      nodeAttr := fun _ => {}
      edgeAttr := fun _ => { isMust := false }
      nextAddr := 0 }

def getEdges (g : LoopNestingGraph L I) : PtrSet (LoopNestingGraphLoopLoopEdge L) :=
  PtrSet.ofList (g.edges.entries.flatMap fun p => p.2.elems)

/-- `LoopNestingGraphLoopNode::getNestingEdgeTo`. -/
def getNestingEdgeTo (g : LoopNestingGraph L I) (node callee : LoopNestingGraphLoopNode L) :
    Option (LoopNestingGraphLoopLoopEdge L) :=
  (g.nodeAttr node).outgoingEdgesMap.lookup callee

/-- `instructionNodes[callInst]`, allocated when it is missing. -/
def fetchOrCreateInstructionNode (g : LoopNestingGraph L I) (callInst : I) :
    LoopNestingGraphInstructionNode I × LoopNestingGraph L I :=
  match g.instructionNodes.lookup callInst with
  | some instNode => (instNode, g)
  | none =>
      let instNode := ⟨g.nextAddr, callInst⟩
      (instNode, { g with
        instructionNodes := g.instructionNodes.insert callInst instNode
        nextAddr := g.nextAddr + 1 })

/-- Allocate an edge and record it in the graph and in both ends. -/
def newEdge (g : LoopNestingGraph L I) (fromNode toNode : LoopNestingGraphLoopNode L)
    (isMust : Bool) : LoopNestingGraphLoopLoopEdge L × LoopNestingGraph L I :=
  let edge := ⟨g.nextAddr, fromNode, toNode⟩
  let nodeAttr :=
    update g.nodeAttr fromNode ((g.nodeAttr fromNode).addOutgoingEdge edge)
  (edge, { g with
    edges := g.edges.insert fromNode (((g.edges.lookup fromNode).getD ∅).insert edge)
    nodeAttr := update nodeAttr toNode ((nodeAttr toNode).addIncomingEdge edge)
    edgeAttr := update g.edgeAttr edge { isMust := isMust }
    nextAddr := g.nextAddr + 1 })

def updateEdge (g : LoopNestingGraph L I) (edge : LoopNestingGraphLoopLoopEdge L)
    (f : LoopEdgeAttr L I → LoopEdgeAttr L I) : LoopNestingGraph L I :=
  { g with edgeAttr := update g.edgeAttr edge (f (g.edgeAttr edge)) }

/-- `LoopNestingGraph::fetchOrCreateEdge`.  `instNode` is null: the node of the call instruction
goes to another variable of this name, in the block of the `if`. -/
def fetchOrCreateEdge (g : LoopNestingGraph L I) (fromNode : LoopNestingGraphLoopNode L)
    (callInst : Option I) (child : L) (isMust : Bool) :
    Option (LoopNestingGraphLoopLoopEdge L × LoopNestingGraph L I) := do
  let toNode ← g.loops.lookup child
  let instNode : Option (LoopNestingGraphInstructionNode I) := none
  let g := match callInst with
    | none => g
    | some callInst => (g.fetchOrCreateInstructionNode callInst).2
  let subEdge := ⟨g.nextAddr, instNode, toNode, isMust⟩
  let g := { g with nextAddr := g.nextAddr + 1 }
  match g.getNestingEdgeTo fromNode toNode with
  | none =>
      let (newEdge, g) := g.newEdge fromNode toNode isMust
      return (newEdge, g.updateEdge newEdge fun a => a.addSubEdge subEdge)
  | some existingEdge =>
      let g := if isMust then g.updateEdge existingEdge fun a => a.setMust else g
      return (existingEdge, g.updateEdge existingEdge fun a => a.addSubEdge subEdge)

def createEdge (g : LoopNestingGraph L I) (parent : L) (callInst : Option I) (child : L)
    (isMust : Bool) : Option (LoopNestingGraph L I) := do
  let fromNode ← g.loops.lookup parent
  return (← g.fetchOrCreateEdge fromNode callInst child isMust).2

/-- The arguments of `createEdge` for a call instruction. -/
structure Creation (L I : Type) where
  parent : L
  callInst : I
  child : L
  isMust : Bool
  deriving DecidableEq

/-- Create edges through call instructions. -/
def createEdges (g : LoopNestingGraph L I) (creations : List (Creation L I)) :
    Option (LoopNestingGraph L I) :=
  creations.foldlM (fun g c => g.createEdge c.parent (some c.callInst) c.child c.isMust) g

/-! ## What the edges should be -/

/-- The creations for an ordered pair of loops. -/
def creationsFor (creations : List (Creation L I)) (parent child : L) : List (Creation L I) :=
  creations.filter fun c => decide (c.parent = parent) && decide (c.child = child)

/-- Every pair with a creation has one edge, between the nodes of the two loops and with the
disjunction of the flags, and no other pair has one. -/
structure EdgesRight (creations : List (Creation L I)) (g : LoopNestingGraph L I) : Prop where
  created : ∀ e ∈ g.getEdges, creationsFor creations e.parent.loop e.child.loop ≠ []
  unique : ∀ p c, creationsFor creations p c ≠ [] →
    ∃! e, e ∈ g.getEdges ∧ e.parent.loop = p ∧ e.child.loop = c
  nodes : ∀ e ∈ g.getEdges, g.loops.lookup e.parent.loop = some e.parent ∧
    g.loops.lookup e.child.loop = some e.child
  isMust : ∀ e ∈ g.getEdges, (g.edgeAttr e).isMust =
    (creationsFor creations e.parent.loop e.child.loop).any fun c => c.isMust
  outgoing : ∀ e ∈ g.getEdges, e ∈ (g.nodeAttr e.parent).outgoingEdges
  incoming : ∀ e ∈ g.getEdges, e ∈ (g.nodeAttr e.child).incomingEdges

/-- An edge has one sub-edge for each creation of its pair, with the flag of the creation, and from
the node that the graph holds for the call instruction. -/
structure SubEdgesRight (creations : List (Creation L I)) (g : LoopNestingGraph L I) : Prop where
  creations : ∀ e ∈ g.getEdges,
    ((g.edgeAttr e).subEdges.elems.map fun se => (se.caller.map fun n => n.i, se.isMust)).Perm
      ((creationsFor creations e.parent.loop e.child.loop).map fun c => (some c.callInst, c.isMust))
  caller : ∀ e ∈ g.getEdges, ∀ se ∈ (g.edgeAttr e).subEdges,
    ∃ n, se.caller = some n ∧ g.instructionNodes.lookup n.i = some n

/-! ## What a creation does -/

variable {g : LoopNestingGraph L I} {fromNode toNode : LoopNestingGraphLoopNode L}
  {e : LoopNestingGraphLoopLoopEdge L} {isMust : Bool}

/-- A creation adds a node for the call instruction, and an edge unless `getNestingEdgeTo` has one,
whose flag it raises then. -/
theorem createEdge_cases {parent child : L} (callInst : I) (isMust : Bool)
    (hfrom : g.loops.lookup parent = some fromNode) (hto : g.loops.lookup child = some toNode) :
    ∃ nodes k, g.nextAddr ≤ k ∧
      ((g.getNestingEdgeTo fromNode toNode = none ∧
          g.createEdge parent (some callInst) child isMust =
            some ({ g with instructionNodes := nodes, nextAddr := k }.newEdge fromNode toNode
              isMust).2) ∨
        ∃ e, g.getNestingEdgeTo fromNode toNode = some e ∧
          g.createEdge parent (some callInst) child isMust =
            some ({ g with instructionNodes := nodes, nextAddr := k }.updateEdge e
              fun a => { a with isMust := isMust || a.isMust })) := by
  obtain ⟨nodes, k, hk, hinst⟩ : ∃ nodes k, g.nextAddr ≤ k ∧
      (g.fetchOrCreateInstructionNode callInst).2 =
        { g with instructionNodes := nodes, nextAddr := k } := by
    unfold fetchOrCreateInstructionNode
    split
    · exact ⟨_, _, le_rfl, rfl⟩
    · exact ⟨_, _, Nat.le_succ _, rfl⟩
  -- the sub-edge without a source changes no edge
  have hsub : ∀ (g : LoopNestingGraph L I) (e : LoopNestingGraphLoopLoopEdge L) (addr : Nat),
      g.updateEdge e (fun a => a.addSubEdge ⟨addr, none, toNode, isMust⟩) = g := fun g e addr => by
    simp only [updateEdge, LoopEdgeAttr.addSubEdge, update_eq_self]
  refine ⟨nodes, k + 1, hk.trans (Nat.le_succ k), ?_⟩
  have hedge : ({ g with instructionNodes := nodes, nextAddr := k + 1 } :
      LoopNestingGraph L I).getNestingEdgeTo fromNode toNode = g.getNestingEdgeTo fromNode toNode := rfl
  unfold createEdge fetchOrCreateEdge
  simp only [hfrom, hto, hinst, bind_eq_bind, bind_some, hedge, hsub]
  cases g.getNestingEdgeTo fromNode toNode with
  | none => exact .inl ⟨rfl, rfl⟩
  | some e =>
      refine .inr ⟨e, rfl, ?_⟩
      cases isMust with
      | true => rfl
      | false => simp [updateEdge]

/-! ## Runs -/

/-- The loops have nodes, and no edge has a sub-edge. -/
structure Known (loops : List L) (g : LoopNestingGraph L I) : Prop where
  lookup : ∀ l ∈ loops, ∃ n, g.loops.lookup l = some n
  loop_eq : ∀ l n, g.loops.lookup l = some n → n.loop = l
  noSubEdges : ∀ e, (g.edgeAttr e).subEdges = ∅

omit [DecidableEq I] in
/-- A new graph knows its loops and has no edge. -/
theorem new_spec (loops : List L) : Known loops (new loops : LoopNestingGraph L I) ∧
    (new loops : LoopNestingGraph L I).edges = ∅ ∧
    (new loops : LoopNestingGraph L I).nodeAttr = fun _ => {} := by
  have hloop := foldl_rule
    (fun (g : LoopNestingGraph L I) l =>
      { g with loops := g.loops.insert l ⟨g.nextAddr, l⟩, nextAddr := g.nextAddr + 1 })
    (fun done g => Known done g ∧ g.edges = ∅ ∧ g.nodeAttr = fun _ => {})
    (l := loops)
    (s :=
      { loops := ∅
        instructionNodes := ∅
        edges := ∅
        nodeAttr := fun _ => {}
        edgeAttr := fun _ => { isMust := false }
        nextAddr := 0 })
    ⟨⟨nofun, fun l n hn => by simp at hn, fun _ => rfl⟩, rfl, rfl⟩
    (by
      rintro done l post g - ⟨hknown, hedges, hattr⟩
      refine ⟨⟨fun x hx => ?_, fun x n hn => ?_, hknown.noSubEdges⟩, hedges, hattr⟩
      · by_cases hxl : x = l
        · subst hxl
          exact ⟨_, AList.lookup_insert _⟩
        · rw [AList.lookup_insert_ne hxl]
          refine hknown.lookup x ((mem_append.mp hx).resolve_right fun hmem => ?_)
          exact hxl (mem_singleton.mp hmem)
      · by_cases hxl : x = l
        · subst hxl
          rw [AList.lookup_insert, some.injEq] at hn
          rw [← hn]
        · rw [AList.lookup_insert_ne hxl] at hn
          exact hknown.loop_eq x n hn)
  exact hloop

theorem Known.createEdge {loops : List L} (h : Known loops g) {c : Creation L I}
    (hparent : c.parent ∈ loops) (hchild : c.child ∈ loops) :
    ∃ g', g.createEdge c.parent (some c.callInst) c.child c.isMust = some g' ∧ Known loops g' := by
  obtain ⟨fromNode, hfrom⟩ := h.lookup _ hparent
  obtain ⟨toNode, hto⟩ := h.lookup _ hchild
  obtain ⟨nodes, k, _, ⟨_, hnew⟩ | ⟨e, _, hold⟩⟩ := createEdge_cases c.callInst c.isMust hfrom hto
  · refine ⟨_, hnew, h.lookup, h.loop_eq, fun e => ?_⟩
    change (update g.edgeAttr _ _ e).subEdges = ∅
    rw [update_apply]
    split
    · rfl
    · exact h.noSubEdges e
  · refine ⟨_, hold, h.lookup, h.loop_eq, fun x => ?_⟩
    change (update g.edgeAttr e _ x).subEdges = ∅
    rw [update_apply]
    split
    · exact h.noSubEdges e
    · exact h.noSubEdges x

theorem Known.createEdges {loops : List L} : ∀ {creations : List (Creation L I)}
    {g : LoopNestingGraph L I}, Known loops g →
    (∀ c ∈ creations, c.parent ∈ loops ∧ c.child ∈ loops) →
      ∃ g', g.createEdges creations = some g' ∧ Known loops g'
  | [], g, h, _ => ⟨g, rfl, h⟩
  | c :: creations, g, h, hc => by
      obtain ⟨hparent, hchild⟩ := hc c (.head _)
      obtain ⟨g₁, h₁, hknown⟩ := h.createEdge hparent hchild
      obtain ⟨g', h', hknown'⟩ := hknown.createEdges fun x hx => hc x (.tail c hx)
      refine ⟨g', ?_, hknown'⟩
      rw [LoopNestingGraph.createEdges, foldlM_cons, h₁]
      exact h'

/-! ## The edges without their sub-edges -/

omit [DecidableEq I] in
theorem mem_getEdges : e ∈ g.getEdges ↔ ∃ n s, g.edges.lookup n = some s ∧ e ∈ s := by
  simp only [getEdges, PtrSet.mem_ofList, mem_flatMap, PtrSet.mem_elems]
  constructor
  · rintro ⟨⟨n, s⟩, hs, he⟩
    exact ⟨n, s, AList.mem_lookup_iff.mpr hs, he⟩
  · rintro ⟨n, s, hs, he⟩
    exact ⟨⟨n, s⟩, AList.mem_lookup_iff.mp hs, he⟩

omit [DecidableEq I] in
/-- A new edge is one more edge. -/
theorem mem_newEdge_getEdges : e ∈ (g.newEdge fromNode toNode isMust).2.getEdges ↔
    e ∈ g.getEdges ∨ e = ⟨g.nextAddr, fromNode, toNode⟩ := by
  simp only [mem_getEdges, newEdge]
  constructor
  · rintro ⟨n, s, hs, he⟩
    by_cases hn : n = fromNode
    · subst hn
      rw [AList.lookup_insert, some.injEq] at hs
      subst hs
      rcases PtrSet.mem_insert.mp he with rfl | he
      · exact .inr rfl
      · cases hold : g.edges.lookup n with
        | none => simp [hold] at he
        | some s => exact .inl ⟨n, s, hold, by simpa [hold] using he⟩
    · rw [AList.lookup_insert_ne hn] at hs
      exact .inl ⟨n, s, hs, he⟩
  · rintro (⟨n, s, hs, he⟩ | rfl)
    · by_cases hn : n = fromNode
      · subst hn
        exact ⟨n, _, AList.lookup_insert _, PtrSet.mem_insert.mpr (.inr (by simpa [hs] using he))⟩
      · exact ⟨n, s, by rw [AList.lookup_insert_ne hn, hs], he⟩
    · exact ⟨fromNode, _, AList.lookup_insert _, PtrSet.mem_insert.mpr (.inl rfl)⟩

variable (g fromNode toNode isMust) in
omit [DecidableEq I] in
/-- A new edge leaves its parent and enters its child, and no other set changes. -/
theorem newEdge_nodeAttr (n : LoopNestingGraphLoopNode L) :
    (∀ x, x ∈ ((g.newEdge fromNode toNode isMust).2.nodeAttr n).outgoingEdges ↔
      x ∈ (g.nodeAttr n).outgoingEdges ∨ (n = fromNode ∧ x = ⟨g.nextAddr, fromNode, toNode⟩)) ∧
    (∀ x, x ∈ ((g.newEdge fromNode toNode isMust).2.nodeAttr n).incomingEdges ↔
      x ∈ (g.nodeAttr n).incomingEdges ∨ (n = toNode ∧ x = ⟨g.nextAddr, fromNode, toNode⟩)) ∧
    ∀ m x, ((g.newEdge fromNode toNode isMust).2.nodeAttr n).outgoingEdgesMap.lookup m = some x →
      (n = fromNode ∧ m = fromNode) ∨ (g.nodeAttr n).outgoingEdgesMap.lookup m = some x := by
  have hmap : ((g.newEdge fromNode toNode isMust).2.nodeAttr n).outgoingEdgesMap =
      if n = fromNode then (g.nodeAttr n).outgoingEdgesMap.insert fromNode
        ⟨g.nextAddr, fromNode, toNode⟩ else (g.nodeAttr n).outgoingEdgesMap := by
    by_cases hfrom : n = fromNode <;> by_cases hto : n = toNode <;>
      simp_all [newEdge, update_apply, LoopNodeAttr.addOutgoingEdge,
        LoopNodeAttr.addIncomingEdge]
  refine ⟨fun x => ?_, fun x => ?_, fun m x hx => ?_⟩
  · by_cases hfrom : n = fromNode <;> by_cases hto : n = toNode <;>
      simp_all [newEdge, update_apply, LoopNodeAttr.addOutgoingEdge,
        LoopNodeAttr.addIncomingEdge, or_comm]
  · by_cases hfrom : n = fromNode <;> by_cases hto : n = toNode <;>
      simp_all [newEdge, update_apply, LoopNodeAttr.addOutgoingEdge,
        LoopNodeAttr.addIncomingEdge, or_comm]
  · rw [hmap] at hx
    split at hx
    · next hn =>
      by_cases hm : m = fromNode
      · exact .inl ⟨hn, hm⟩
      · exact .inr (AList.lookup_insert_ne hm ▸ hx)
    · exact .inr hx

/-- The edges of the graph are those of the creations, one for each in their order; the map of a
node has no other key than the node. -/
structure Recorded (creations : List (Creation L I)) (edges : List (LoopNestingGraphLoopLoopEdge L))
    (g : LoopNestingGraph L I) : Prop where
  mem_iff : ∀ e, e ∈ g.getEdges ↔ e ∈ edges
  nodup : edges.Nodup
  addr_lt : ∀ e ∈ edges, e.addr < g.nextAddr
  creations_eq : edges.map (fun e => (e.parent.loop, e.child.loop, (g.edgeAttr e).isMust)) =
    creations.map fun c => (c.parent, c.child, c.isMust)
  nodes : ∀ e ∈ edges, g.loops.lookup e.parent.loop = some e.parent ∧
    g.loops.lookup e.child.loop = some e.child
  outgoing : ∀ e ∈ edges, e ∈ (g.nodeAttr e.parent).outgoingEdges
  incoming : ∀ e ∈ edges, e ∈ (g.nodeAttr e.child).incomingEdges
  keys : ∀ n m e, (g.nodeAttr n).outgoingEdgesMap.lookup m = some e → m = n

section Recorded

variable {loops : List L} {creations : List (Creation L I)} {c : Creation L I}
  {edges : List (LoopNestingGraphLoopLoopEdge L)}

/-- A creation between two loops adds an edge, whatever edges there are. -/
theorem Recorded.createEdge (h : Recorded creations edges g) (hknown : Known loops g)
    (hparent : c.parent ∈ loops) (hchild : c.child ∈ loops) (hdistinct : c.parent ≠ c.child) :
    ∃ g' e, g.createEdge c.parent (some c.callInst) c.child c.isMust = some g' ∧
      Recorded (creations ++ [c]) (edges ++ [e]) g' := by
  obtain ⟨fromNode, hfrom⟩ := hknown.lookup _ hparent
  obtain ⟨toNode, hto⟩ := hknown.lookup _ hchild
  have hfromLoop := hknown.loop_eq _ _ hfrom
  have htoLoop := hknown.loop_eq _ _ hto
  have hne : toNode ≠ fromNode := fun heq => hdistinct (by rw [← hfromLoop, ← htoLoop, heq])
  obtain ⟨nodes, k, hk, ⟨_, hnew⟩ | ⟨e, he, _⟩⟩ := createEdge_cases c.callInst c.isMust hfrom hto
  swap
  · exact absurd (h.keys _ _ _ he) hne
  have hfresh : (⟨k, fromNode, toNode⟩ : LoopNestingGraphLoopLoopEdge L) ∉ edges := fun hmem =>
    absurd (h.addr_lt _ hmem) (Nat.not_lt.mpr hk)
  have hattr := newEdge_nodeAttr { g with instructionNodes := nodes, nextAddr := k } fromNode
    toNode c.isMust
  have hmem : ∀ x, x ∈ edges ++ [⟨k, fromNode, toNode⟩] ↔ x ∈ edges ∨ x = ⟨k, fromNode, toNode⟩ :=
    fun x => by rw [mem_append, mem_singleton]
  refine ⟨_, ⟨k, fromNode, toNode⟩, hnew, fun x => ?_, ?_, fun x hx => ?_, ?_, fun x hx => ?_,
    fun x hx => ?_, fun x hx => ?_, fun n m x hx => ?_⟩
  · rw [hmem, ← h.mem_iff]
    exact mem_newEdge_getEdges
  · exact nodup_append.mpr ⟨h.nodup, nodup_singleton _, fun x hx y hy heq =>
      hfresh (mem_singleton.mp hy ▸ heq ▸ hx)⟩
  · rcases (hmem x).mp hx with hx | rfl
    · exact Nat.lt_succ_of_le ((h.addr_lt x hx).le.trans hk)
    · exact Nat.lt_succ_self k
  · rw [map_append, map_append, ← h.creations_eq]
    refine congrArg₂ _ (map_congr_left fun x hx => ?_) ?_
    · have hx' : x ≠ ⟨k, fromNode, toNode⟩ := fun heq => hfresh (heq ▸ hx)
      simp [newEdge, update_of_ne hx']
    · simp [newEdge, hfromLoop, htoLoop]
  · rcases (hmem x).mp hx with hx | rfl
    · exact h.nodes x hx
    · exact ⟨by rw [hfromLoop]; exact hfrom, by rw [htoLoop]; exact hto⟩
  · refine ((hattr x.parent).1 x).mpr (((hmem x).mp hx).imp (h.outgoing x) ?_)
    rintro rfl
    exact ⟨rfl, rfl⟩
  · refine ((hattr x.child).2.1 x).mpr (((hmem x).mp hx).imp (h.incoming x) ?_)
    rintro rfl
    exact ⟨rfl, rfl⟩
  · rcases (hattr n).2.2 m x hx with ⟨rfl, rfl⟩ | hx
    · rfl
    · exact h.keys n m x hx

section Edges

variable {p q : L} (h : Recorded creations edges g)

include h

omit [DecidableEq I]

/-- The edges lead between the loops of the creations. -/
theorem Recorded.map_loops : edges.map (fun e => (e.parent.loop, e.child.loop)) =
    creations.map fun c => (c.parent, c.child) := by
  have heq := congrArg (List.map fun t => (t.1, t.2.1)) h.creations_eq
  simpa only [List.map_map, Function.comp_def] using heq

theorem Recorded.creationsFor_ne_nil_iff : creationsFor creations p q ≠ [] ↔
    ∃ e ∈ edges, e.parent.loop = p ∧ e.child.loop = q := by
  have hmem := iff_of_eq (congrArg ((p, q) ∈ ·) h.map_loops)
  simp only [List.mem_map, Prod.mk.injEq] at hmem
  rw [hmem]
  simp [creationsFor]

theorem Recorded.exists_isMust_iff {b : Bool} : (∃ e ∈ edges, e.parent.loop = p ∧ e.child.loop = q ∧
    (g.edgeAttr e).isMust = b) ↔ ∃ c ∈ creations, c.parent = p ∧ c.child = q ∧ c.isMust = b := by
  have hmem := iff_of_eq (congrArg ((p, q, b) ∈ ·) h.creations_eq)
  simpa only [List.mem_map, Prod.mk.injEq] using hmem

/-- An edge that is the only one of its pair is must exactly if a creation of the pair is. -/
theorem Recorded.isMust_eq {e : LoopNestingGraphLoopLoopEdge L} (he : e ∈ edges)
    (honly : ∀ e' ∈ edges, e'.parent.loop = e.parent.loop → e'.child.loop = e.child.loop → e' = e) :
    (g.edgeAttr e).isMust =
      (creationsFor creations e.parent.loop e.child.loop).any (·.isMust) := by
  rw [Bool.eq_iff_iff, List.any_eq_true]
  constructor
  · intro htrue
    obtain ⟨c, hc, hp, hq, hb⟩ := h.exists_isMust_iff.mp ⟨e, he, rfl, rfl, htrue⟩
    exact ⟨c, by simp [creationsFor, hc, hp, hq], hb⟩
  · rintro ⟨c, hc, hb⟩
    simp only [creationsFor, List.mem_filter, Bool.and_eq_true, decide_eq_true_eq] at hc
    obtain ⟨e', he', hp, hq, hb'⟩ := h.exists_isMust_iff.mpr ⟨c, hc.1, hc.2.1, hc.2.2, hb⟩
    exact honly e' he' hp hq ▸ hb'

/-- The edges are right exactly if no pair of loops is created twice. -/
theorem Recorded.edgesRight_iff :
    EdgesRight creations g ↔ (creations.map fun c => (c.parent, c.child)).Nodup := by
  rw [← h.map_loops]
  constructor
  · intro hright
    refine h.nodup.map_on fun e he e' he' heq => ?_
    obtain ⟨hp, hq⟩ := Prod.mk.inj heq
    obtain ⟨_, _, hunique⟩ :=
      hright.unique _ _ (h.creationsFor_ne_nil_iff.mpr ⟨e, he, rfl, rfl⟩)
    exact (hunique e ⟨(h.mem_iff e).mpr he, rfl, rfl⟩).trans
      (hunique e' ⟨(h.mem_iff e').mpr he', hp.symm, hq.symm⟩).symm
  · intro hnodup
    have hinj : ∀ e ∈ edges, ∀ e' ∈ edges, e'.parent.loop = e.parent.loop →
        e'.child.loop = e.child.loop → e' = e := fun e he e' he' hp hq =>
      inj_on_of_nodup_map hnodup he' he (Prod.ext hp hq)
    have hedge := fun e he => (h.mem_iff e).mp he
    refine ⟨fun e he => h.creationsFor_ne_nil_iff.mpr ⟨e, hedge e he, rfl, rfl⟩, fun p q hpq => ?_,
      fun e he => h.nodes e (hedge e he), fun e he => h.isMust_eq (hedge e he) (hinj e (hedge e he)),
      fun e he => h.outgoing e (hedge e he), fun e he => h.incoming e (hedge e he)⟩
    obtain ⟨e, he, rfl, rfl⟩ := h.creationsFor_ne_nil_iff.mp hpq
    exact ⟨e, ⟨(h.mem_iff e).mpr he, rfl, rfl⟩, fun e' he' =>
      hinj e he e' (hedge e' he'.1) he'.2.1 he'.2.2⟩

end Edges

/-- Between different loops the edges are right exactly if no ordered pair has two creations. -/
theorem createEdges_edgesRight_iff (hloops : ∀ c ∈ creations, c.parent ∈ loops ∧ c.child ∈ loops)
    (hdistinct : ∀ c ∈ creations, c.parent ≠ c.child) :
    ∃ g, (new loops : LoopNestingGraph L I).createEdges creations = some g ∧
      (EdgesRight creations g ↔ (creations.map fun c => (c.parent, c.child)).Nodup) := by
  obtain ⟨hnew, hedges, hattr⟩ := new_spec (I := I) loops
  obtain ⟨g, hg, _, edges, hrecorded⟩ := foldlM_rule
    (fun (g : LoopNestingGraph L I) c => g.createEdge c.parent (some c.callInst) c.child c.isMust)
    (fun done g => Known loops g ∧ ∃ edges, Recorded done edges g) (l := creations)
    (s := (new loops : LoopNestingGraph L I))
    ⟨hnew, [], fun e => by simp [mem_getEdges, hedges], nodup_nil, by simp, rfl, by simp, by simp,
      by simp, fun n m e he => by simp [hattr] at he⟩
    (by
      rintro done c post g hl ⟨hknown, edges, hrecorded⟩
      have hc : c ∈ creations := by simp [hl]
      obtain ⟨hparent, hchild⟩ := hloops c hc
      obtain ⟨g', e, hg', hrecorded'⟩ :=
        hrecorded.createEdge hknown hparent hchild (hdistinct c hc)
      obtain ⟨g₁, hg₁, hknown'⟩ := hknown.createEdge hparent hchild
      exact ⟨g', hg', mem_unique hg₁ hg' ▸ hknown', _, hrecorded'⟩)
  exact ⟨g, hg, hrecorded.edgesRight_iff⟩

end Recorded

/-- **Edges of the nesting graph**: after creations between loops of the graph the edges and their
sub-edges are right exactly if there was no creation. -/
theorem createEdges_right_iff (loops : List L) (creations : List (Creation L I))
    (hloops : ∀ c ∈ creations, c.parent ∈ loops ∧ c.child ∈ loops) :
    (∃ g, (new loops : LoopNestingGraph L I).createEdges creations = some g ∧
      EdgesRight creations g ∧ SubEdgesRight creations g) ↔ creations = [] := by
  obtain ⟨hnew, hedges, _⟩ := new_spec (I := I) loops
  constructor
  · rintro ⟨g, hg, hright, hsubs⟩
    obtain ⟨g', hg', hknown⟩ := hnew.createEdges hloops
    obtain rfl : g = g' := mem_unique hg hg'
    refine eq_nil_iff_forall_not_mem.mpr fun c hc => ?_
    have hmem : c ∈ creationsFor creations c.parent c.child := by simp [creationsFor, hc]
    obtain ⟨e, ⟨he, hparent, hchild⟩, _⟩ := hright.unique _ _ (ne_nil_of_mem hmem)
    have hperm := hsubs.creations e he
    rw [hknown.noSubEdges e, hparent, hchild] at hperm
    have hnil := map_eq_nil_iff.mp hperm.nil_eq.symm
    exact absurd hmem (hnil ▸ not_mem_nil)
  · rintro rfl
    have hnone : ∀ e, e ∉ (new loops : LoopNestingGraph L I).getEdges := by
      intro e he
      rw [getEdges, hedges] at he
      exact absurd he (PtrSet.not_mem_empty e)
    refine ⟨new loops, rfl, ⟨fun e he => absurd he (hnone e), fun p c hne => absurd rfl hne,
      fun e he => absurd he (hnone e), fun e he => absurd he (hnone e),
      fun e he => absurd he (hnone e), fun e he => absurd he (hnone e)⟩,
      ⟨fun e he => absurd he (hnone e), fun e he => absurd he (hnone e)⟩⟩

/-- A call from one loop to another. -/
theorem createEdges_oneCreation : (∀ c ∈ [(⟨0, 7, 1, true⟩ : Creation Nat Nat)],
      c.parent ∈ [0, 1] ∧ c.child ∈ [0, 1]) ∧
    ((∃ g, (new [0, 1] : LoopNestingGraph Nat Nat).createEdges [⟨0, 7, 1, true⟩] = some g ∧
      EdgesRight [⟨0, 7, 1, true⟩] g ∧ SubEdgesRight [⟨0, 7, 1, true⟩] g) ↔
        [(⟨0, 7, 1, true⟩ : Creation Nat Nat)] = []) :=
  ⟨by decide, createEdges_right_iff [0, 1] [⟨0, 7, 1, true⟩] (by decide)⟩

/-- Two calls from one loop to another make two edges, none of which has a sub-edge. -/
theorem createEdges_twoCreations :
    ∃ g, (new [0, 1] : LoopNestingGraph Nat Nat).createEdges
        [⟨0, 7, 1, false⟩, ⟨0, 8, 1, true⟩] = some g ∧
      g.getEdges.size = 2 ∧ (∀ e ∈ g.getEdges, (g.edgeAttr e).subEdges.size = 0) ∧
      ¬ EdgesRight [⟨0, 7, 1, false⟩, ⟨0, 8, 1, true⟩] g ∧
      ¬ SubEdgesRight [⟨0, 7, 1, false⟩, ⟨0, 8, 1, true⟩] g := by
  refine ⟨_, rfl, by decide, by decide, fun h => ?_, fun h => ?_⟩
  · obtain ⟨e, _, hunique⟩ := h.unique 0 1 (by decide)
    have hfirst := hunique ⟨4, ⟨0, 0⟩, ⟨1, 1⟩⟩ (by decide)
    have hsecond := hunique ⟨7, ⟨0, 0⟩, ⟨1, 1⟩⟩ (by decide)
    exact absurd (hfirst.trans hsecond.symm) (by decide)
  · exact absurd (h.creations ⟨4, ⟨0, 0⟩, ⟨1, 1⟩⟩ (by decide)).length_eq (by decide)

end LoopNestingGraph

end Noelle
