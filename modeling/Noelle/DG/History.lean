import Noelle.DG.Removal

/-!
# DG.History

Every graph that the operations of `DG<T>` build.

A history is a finite sequence of operations, each one applied within its
contract: a value is added once, an edge is added or copied between values in the
graph, and only current nodes and edges are removed.  Every such history runs to
its end and leaves a graph that satisfies `RepInv`, the invariant read off the
three places that record an edge.
-/

namespace Noelle

namespace DG

variable {T S : Type} [DecidableEq T]

/-! ## The representation invariant -/

/-- The node maps and the edge sets of a graph describe the same graph. -/
structure RepInv (g : DG T S) : Prop where
  /-- No value is internal and external. -/
  maps_disjoint : ∀ t, ¬ (g.isInternal t = true ∧ g.isExternal t = true)
  /-- A value in the graph has exactly one node. -/
  one_node : ∀ t, g.isInGraph t = true → ∃! n, n ∈ g.allNodes ∧ n.theT = t
  /-- An internal value is mapped to that node. -/
  internal_node : ∀ t, g.isInternal t = true →
    ∃ n ∈ g.allNodes, g.internalNodeMap.lookup t = some (some n) ∧ n.theT = t
  /-- An external value is mapped to that node. -/
  external_node : ∀ t, g.isExternal t = true →
    ∃ n ∈ g.allNodes, g.externalNodeMap.lookup t = some (some n) ∧ n.theT = t
  /-- Every node stands for a value in the graph. -/
  node_isInGraph : ∀ n ∈ g.allNodes, g.isInGraph n.theT = true
  /-- Both endpoints of an edge are nodes of the graph. -/
  edge_nodes : ∀ e ∈ g.allEdges, e.srcNode ∈ g.allNodes ∧ e.dstNode ∈ g.allNodes
  /-- The edges are the outgoing edges of the nodes. -/
  edges_eq_outgoing : ∀ e, e ∈ g.allEdges ↔ ∃ n ∈ g.allNodes, e ∈ g.outgoingEdges n
  /-- The edges are the incoming edges of the nodes. -/
  edges_eq_incoming : ∀ e, e ∈ g.allEdges ↔ ∃ n ∈ g.allNodes, e ∈ g.incomingEdges n
  /-- A node holds as outgoing exactly the edges that leave it. -/
  outgoing_at : ∀ n ∈ g.allNodes, ∀ e, e ∈ g.outgoingEdges n ↔ e ∈ g.allEdges ∧ e.srcNode = n
  /-- A node holds as incoming exactly the edges that enter it. -/
  incoming_at : ∀ n ∈ g.allNodes, ∀ e, e ∈ g.incomingEdges n ↔ e ∈ g.allEdges ∧ e.dstNode = n

/-- A well-formed graph keeps the invariant of the representation. -/
theorem Clean.repInv {g : DG T S} (h : g.Clean) : g.RepInv where
  maps_disjoint := fun t ht => Bool.false_ne_true ((h.disjoint t ht.1).symm.trans ht.2)
  one_node := by
    intro t ht
    obtain ⟨n, hn⟩ := h.toWF.exists_nodeOf ht
    have hmem := h.toWF.nodeOf_mem hn
    exact ⟨n, hmem, fun m hm => h.node_ext hm.1 hmem.1 (hm.2.trans hmem.2.symm)⟩
  internal_node := by
    intro t ht
    obtain ⟨p, hp⟩ := isInternal_iff.mp ht
    obtain ⟨n, hn, rfl, hnt⟩ := h.internal_node t p hp
    exact ⟨n, hn, hp, hnt⟩
  external_node := by
    intro t ht
    obtain ⟨p, hp⟩ := isExternal_iff.mp ht
    obtain ⟨n, hn, rfl, hnt⟩ := h.external_node t p hp
    exact ⟨n, hn, hp, hnt⟩
  node_isInGraph := fun n hn => isInGraph_of_nodeOf (h.mapped n hn)
  edge_nodes := fun e he => h.toWF.edge_nodes he
  edges_eq_outgoing := by
    intro e
    constructor
    · intro he
      have hsrc := (h.toWF.edge_nodes he).1
      exact ⟨_, hsrc, (h.mem_outgoing _ hsrc e).mpr ⟨he, rfl⟩⟩
    · rintro ⟨n, hn, he⟩
      exact ((h.mem_outgoing n hn e).mp he).1
  edges_eq_incoming := by
    intro e
    constructor
    · intro he
      have hdst := (h.toWF.edge_nodes he).2
      exact ⟨_, hdst, (h.mem_incoming _ hdst e).mpr ⟨he, rfl⟩⟩
    · rintro ⟨n, hn, he⟩
      exact ((h.mem_incoming n hn e).mp he).1
  outgoing_at := h.mem_outgoing
  incoming_at := h.mem_incoming

/-! ## Operations -/

/-- The operations that build a graph. -/
inductive Op (T S : Type)
  | addNode (theT : T) (inclusion : Bool)
  | addVariableDataDependenceEdge (fromT toT : T) (t : DataDependenceType)
  | addMemoryDataDependenceEdge (fromT toT : T) (t : DataDependenceType) (isMust : Bool)
  | addControlDependenceEdge (fromT toT : T)
  | addUndefinedDependenceEdge (fromT toT : T)
  | copyAddEdge (edgeToCopy : DGEdge T) (attr : EdgeAttr S)
  | removeEdge (edge : DGEdge T)
  | removeNode (node : DGNode T)

namespace Op

/-- The contract of an operation: what its caller guarantees. -/
def Ok (g : DG T S) : Op T S → Prop
  | addNode t _ => g.isInGraph t = false
  | addVariableDataDependenceEdge a b _ => g.isInGraph a = true ∧ g.isInGraph b = true
  | addMemoryDataDependenceEdge a b _ _ => g.isInGraph a = true ∧ g.isInGraph b = true
  | addControlDependenceEdge a b => g.isInGraph a = true ∧ g.isInGraph b = true
  | addUndefinedDependenceEdge a b => g.isInGraph a = true ∧ g.isInGraph b = true
  | copyAddEdge e _ => e.kind ≠ .undefinedDependence ∧
      g.isInGraph e.getSrc = true ∧ g.isInGraph e.getDst = true
  | removeEdge e => e ∈ g.allEdges
  | removeNode n => n ∈ g.allNodes

instance (g : DG T S) (op : Op T S) : Decidable (op.Ok g) := by
  cases op <;> unfold Ok <;> infer_instance

/-- Run an operation and drop the pointer it returns. -/
def apply [DecidableEq S] (subLC : S → Bool) (g : DG T S) : Op T S → Option (DG T S)
  | addNode t inclusion => some (g.addNode t inclusion).2
  | addVariableDataDependenceEdge a b t => (g.addVariableDataDependenceEdge a b t).map (·.2)
  | addMemoryDataDependenceEdge a b t isMust =>
      (g.addMemoryDataDependenceEdge a b t isMust).map (·.2)
  | addControlDependenceEdge a b => (g.addControlDependenceEdge a b).map (·.2)
  | addUndefinedDependenceEdge a b => (g.addUndefinedDependenceEdge a b).map (·.2)
  | copyAddEdge e attr => (g.copyAddEdge subLC e attr).map (·.2)
  | removeEdge e => some (g.removeEdge e)
  | removeNode n => some (g.removeNode n)

end Op

theorem Clean.addDependenceEdge {g : DG T S} (h : g.Clean) {a b : T} (ha : g.isInGraph a = true)
    (hb : g.isInGraph b = true) (kind : DependenceKind) (t : Option DataDependenceType)
    (attr : EdgeAttr S) :
    ∃ g', (g.addDependenceEdge a b kind t attr).map (·.2) = some g' ∧ g'.Clean := by
  obtain ⟨na, hna⟩ := h.toWF.exists_nodeOf ha
  obtain ⟨nb, hnb⟩ := h.toWF.exists_nodeOf hb
  rw [addDependenceEdge_eq hna hnb]
  refine ⟨_, rfl, h.insertEdge ?_ ?_⟩
  · rw [(h.toWF.nodeOf_mem hna).2, hna]
  · rw [(h.toWF.nodeOf_mem hnb).2, hnb]

variable [DecidableEq S] (subLC : S → Bool)

/-- One operation: within its contract it succeeds and keeps the graph clean. -/
theorem Clean.apply {g : DG T S} (h : g.Clean) {op : Op T S} (hop : op.Ok g) :
    ∃ g', op.apply subLC g = some g' ∧ g'.Clean := by
  cases op with
  | addNode t inclusion => exact ⟨_, rfl, h.addNode hop⟩
  | addVariableDataDependenceEdge a b t => exact h.addDependenceEdge hop.1 hop.2 _ _ _
  | addMemoryDataDependenceEdge a b t isMust => exact h.addDependenceEdge hop.1 hop.2 _ _ _
  | addControlDependenceEdge a b => exact h.addDependenceEdge hop.1 hop.2 _ _ _
  | addUndefinedDependenceEdge a b => exact h.addDependenceEdge hop.1 hop.2 _ _ _
  | copyAddEdge e attr =>
      have hcopy : g.copyAddEdge subLC e attr =
          g.addDependenceEdge e.getSrc e.getDst e.kind e.dataDepType (attr.copy subLC) := by
        unfold DG.copyAddEdge
        cases hk : e.kind with
        | undefinedDependence => exact absurd hk hop.1
        | controlDependence | variableDependence | mayMemoryDependence | mustMemoryDependence => rfl
      unfold Op.apply
      dsimp only
      rw [hcopy]
      exact h.addDependenceEdge hop.2.1 hop.2.2 _ _ _
  | removeEdge e => exact ⟨_, rfl, h.removeEdge hop⟩
  | removeNode n => exact ⟨_, rfl, h.removeNode hop⟩

/-! ## Histories -/

/-- Every operation of the history is applied within its contract. -/
def Valid : DG T S → List (Op T S) → Prop
  | _, [] => True
  | g, op :: ops => op.Ok g ∧
      match op.apply subLC g with
      | none => True
      | some g' => Valid g' ops

instance decidableValid : (g : DG T S) → (ops : List (Op T S)) → Decidable (Valid subLC g ops)
  | _, [] => inferInstanceAs (Decidable True)
  | g, op :: ops =>
      haveI : Decidable (match op.apply subLC g with
          | none => True
          | some g' => Valid subLC g' ops) :=
        match op.apply subLC g with
        | none => inferInstanceAs (Decidable True)
        | some g' => decidableValid g' ops
      inferInstanceAs (Decidable (_ ∧ _))

/-- Run a history. -/
def execute (g : DG T S) (ops : List (Op T S)) : Option (DG T S) :=
  ops.foldlM (fun g op => op.apply subLC g) g

/-- A history applied within its contracts runs to its end and keeps a clean
graph clean. -/
theorem Clean.execute {g : DG T S} (h : g.Clean) (ops : List (Op T S)) (hv : Valid subLC g ops) :
    ∃ g', execute subLC g ops = some g' ∧ g'.Clean := by
  induction ops generalizing g with
  | nil => exact ⟨g, rfl, h⟩
  | cons op ops ih =>
      obtain ⟨hop, hrest⟩ := hv
      obtain ⟨g₁, hg₁, h₁⟩ := h.apply subLC hop
      rw [hg₁] at hrest
      obtain ⟨g', hg', h'⟩ := ih h₁ hrest
      refine ⟨g', ?_, h'⟩
      unfold DG.execute
      rw [List.foldlM_cons, hg₁]
      exact hg'

/-- The graph of a history from the empty graph is clean. -/
theorem clean_of_history (self : Nat) {ops : List (Op T S)}
    (hv : Valid subLC (DG.empty self) ops) :
    ((execute subLC (DG.empty self) ops).getD (DG.empty self)).Clean := by
  obtain ⟨g, hg, hclean⟩ := (empty_clean self).execute subLC ops hv
  rw [hg]
  exact hclean

/-- **Representation invariant**: every history from the empty graph, applied
within its contracts, runs to its end and leaves maps, node set and edge sets
that describe one graph. -/
theorem execute_empty_repInv (self : Nat) (ops : List (Op T S))
    (hv : Valid subLC (DG.empty self) ops) :
    ∃ g, execute subLC (DG.empty self) ops = some g ∧ g.RepInv := by
  obtain ⟨g, hg, h⟩ := (empty_clean self).execute subLC ops hv
  exact ⟨g, hg, h.repInv⟩

/-- A self-edge, two parallel edges and the removal of one endpoint. -/
def sampleHistory : List (Op Nat Nat) :=
  [.addNode 1 true, .addNode 2 false, .addVariableDataDependenceEdge 1 1 .raw,
    .addMemoryDataDependenceEdge 1 2 .war true, .addMemoryDataDependenceEdge 1 2 .war true,
    .removeEdge ⟨0, 0, ⟨0, 0, 1⟩, ⟨0, 0, 1⟩, .variableDependence, some .raw⟩,
    .addControlDependenceEdge 2 2, .removeNode ⟨0, 1, 2⟩]

theorem execute_sampleHistory_repInv :
    ∃ g, execute (fun _ => false) (DG.empty 0) sampleHistory = some g ∧ g.RepInv :=
  execute_empty_repInv (fun _ => false) 0 sampleHistory (by decide)

end DG

end Noelle
