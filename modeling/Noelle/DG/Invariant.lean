import Noelle.DG.Basic

/-!
# DG.Invariant

The representation invariant of `DG<T>` and its preservation by every operation.

`WF` is what every graph of the program satisfies: allocation counters bound the
identities in use, the node maps hold live nodes of the right value, and an edge
sits in the graph, in its source node and in its destination node and nowhere
else.  `Clean` adds that every node is the one its value is mapped to; the
external nodes of an `SCC` may be duplicated, so an `SCC` is `WF` only.

Each operation comes with the equations that describe its result and one
preservation lemma; later modules use these and never unfold the operation.
-/

namespace Noelle

open Function PtrSet List Option

namespace DG

variable {T S : Type} [DecidableEq T]

/-! ## The invariant -/

/-- Well-formed graphs. -/
structure WF (g : DG T S) : Prop where
  node_fresh : ∀ n ∈ g.allNodes, n.owner = g.self ∧ n.ID < g.nodeIdCounter
  edge_fresh : ∀ e ∈ g.allEdges, e.owner = g.self ∧ e.addr < g.edgeCounter
  edge_mapped : ∀ e ∈ g.allEdges, g.nodeOf e.getSrc = some e.srcNode ∧
    g.nodeOf e.getDst = some e.dstNode
  mem_outgoing : ∀ n ∈ g.allNodes, ∀ e, e ∈ g.outgoingEdges n ↔ e ∈ g.allEdges ∧ e.srcNode = n
  mem_incoming : ∀ n ∈ g.allNodes, ∀ e, e ∈ g.incomingEdges n ↔ e ∈ g.allEdges ∧ e.dstNode = n
  internal_node : ∀ t p, g.internalNodeMap.lookup t = some p →
    ∃ n ∈ g.allNodes, p = some n ∧ n.theT = t
  external_node : ∀ t p, g.externalNodeMap.lookup t = some p →
    ∃ n ∈ g.allNodes, p = some n ∧ n.theT = t
  disjoint : ∀ t, g.isInternal t = true → g.isExternal t = false

/-- Well-formed graphs in which every node is the node of its value. -/
structure Clean (g : DG T S) : Prop extends WF g where
  mapped : ∀ n ∈ g.allNodes, g.nodeOf n.theT = some n

namespace WF

variable {g : DG T S}

theorem nodeOf_mem (h : g.WF) {t : T} {n : DGNode T} (hn : g.nodeOf t = some n) :
    n ∈ g.allNodes ∧ n.theT = t := by
  rw [nodeOf_eq] at hn
  cases hi : g.internalNodeMap.lookup t with
  | some p =>
      rw [hi] at hn
      obtain ⟨m, hm, hpm, ht⟩ := h.internal_node t p hi
      obtain rfl : m = n := mem_unique hpm hn
      exact ⟨hm, ht⟩
  | none =>
      rw [hi] at hn
      cases he : g.externalNodeMap.lookup t with
      | some p =>
          rw [he] at hn
          obtain ⟨m, hm, hpm, ht⟩ := h.external_node t p he
          obtain rfl : m = n := mem_unique hpm hn
          exact ⟨hm, ht⟩
      | none => simp [he] at hn

theorem exists_nodeOf (h : g.WF) {t : T} (ht : g.isInGraph t = true) :
    ∃ n, g.nodeOf t = some n := by
  cases hi : g.internalNodeMap.lookup t with
  | some p =>
      obtain ⟨n, _, hpn, _⟩ := h.internal_node t p hi
      exact ⟨n, by rw [nodeOf_eq, hi, hpn]⟩
  | none =>
      cases he : g.externalNodeMap.lookup t with
      | some p =>
          obtain ⟨n, _, hpn, _⟩ := h.external_node t p he
          exact ⟨n, by rw [nodeOf_eq, hi, he, hpn]; rfl⟩
      | none => simp [isInGraph, isInternal, isExternal, hi, he] at ht

theorem mem_internalPointers (h : g.WF) {p : Option (DGNode T)} :
    p ∈ g.internalNodeMap.entries.map (·.2) ↔
      ∃ n : DGNode T, p = some n ∧ g.isInternal n.theT = true ∧ g.nodeOf n.theT = some n := by
  constructor
  · intro hp
    obtain ⟨⟨t, q⟩, hq, rfl⟩ := mem_map.mp hp
    have hlook := AList.mem_lookup_iff.mpr hq
    obtain ⟨n, _, rfl, rfl⟩ := h.internal_node t q hlook
    exact ⟨n, rfl, isInternal_iff.mpr ⟨_, hlook⟩, by rw [nodeOf_eq, hlook]⟩
  · rintro ⟨n, rfl, hin, hnode⟩
    obtain ⟨q, hq⟩ := isInternal_iff.mp hin
    rw [nodeOf_eq, hq] at hnode
    exact mem_map.mpr ⟨⟨n.theT, q⟩, AList.mem_lookup_iff.mp hq, hnode⟩

theorem edge_nodes (h : g.WF) {e : DGEdge T} (he : e ∈ g.allEdges) :
    e.srcNode ∈ g.allNodes ∧ e.dstNode ∈ g.allNodes :=
  ⟨(h.nodeOf_mem (h.edge_mapped e he).1).1, (h.nodeOf_mem (h.edge_mapped e he).2).1⟩

theorem edge_isInGraph (h : g.WF) {e : DGEdge T} (he : e ∈ g.allEdges) :
    g.isInGraph e.getSrc = true ∧ g.isInGraph e.getDst = true :=
  ⟨isInGraph_of_nodeOf (h.edge_mapped e he).1, isInGraph_of_nodeOf (h.edge_mapped e he).2⟩

theorem withAttr (h : g.WF) (entry : Option (DGNode T)) (attr : DGEdge T → EdgeAttr S) :
    ({ g with entryNode := entry, edgeAttr := attr } : DG T S).WF where
  node_fresh := h.node_fresh
  edge_fresh := h.edge_fresh
  edge_mapped := fun e he => by
    have heq : ∀ t, ({ g with entryNode := entry, edgeAttr := attr } : DG T S).nodeOf t =
        g.nodeOf t := fun _ => nodeOf_congr rfl rfl
    rw [heq, heq]
    exact h.edge_mapped e he
  mem_outgoing := h.mem_outgoing
  mem_incoming := h.mem_incoming
  internal_node := h.internal_node
  external_node := h.external_node
  disjoint := h.disjoint

theorem setEntryNode (h : g.WF) (n : DGNode T) : (g.setEntryNode n).WF :=
  h.withAttr (some n) g.edgeAttr

end WF

theorem Clean.setEdgeAttr {g : DG T S} (h : g.Clean) (attr : DGEdge T → EdgeAttr S) :
    ({ g with edgeAttr := attr } : DG T S).Clean where
  toWF := h.toWF.withAttr g.entryNode attr
  mapped := fun n hn => by
    rw [← h.mapped n hn]
    exact nodeOf_congr rfl rfl

theorem Clean.node_ext {g : DG T S} (h : g.Clean) {n m : DGNode T} (hn : n ∈ g.allNodes)
    (hm : m ∈ g.allNodes) (ht : n.theT = m.theT) : n = m := by
  have hnm := h.mapped n hn
  rw [ht, h.mapped m hm] at hnm
  exact (some.inj hnm).symm

/-! ## The empty graph -/

@[simp] theorem empty_isInternal (self : Nat) (t : T) :
    (empty self : DG T S).isInternal t = false := rfl

@[simp] theorem empty_isExternal (self : Nat) (t : T) :
    (empty self : DG T S).isExternal t = false := rfl

theorem empty_clean (self : Nat) : (empty self : DG T S).Clean where
  node_fresh := fun n hn => absurd hn (not_mem_empty n)
  edge_fresh := fun e he => absurd he (not_mem_empty e)
  edge_mapped := fun e he => absurd he (not_mem_empty e)
  mem_outgoing := fun n hn => absurd hn (not_mem_empty n)
  mem_incoming := fun n hn => absurd hn (not_mem_empty n)
  internal_node := fun t p h => by simp [empty] at h
  external_node := fun t p h => by simp [empty] at h
  disjoint := fun t h => by simp [empty, isInternal] at h
  mapped := fun n hn => absurd hn (not_mem_empty n)

/-! ## addNode -/

section AddNode

variable (g : DG T S) (t : T) (inclusion : Bool)

/-- The node `addNode` allocates. -/
def newNode : DGNode T := ⟨g.self, g.nodeIdCounter, t⟩

omit [DecidableEq T] in
@[simp] theorem newNode_theT : (g.newNode t).theT = t := rfl

theorem addNode_outgoingEdges :
    (g.addNode t inclusion).2.outgoingEdges = update g.outgoingEdges (g.newNode t) ∅ := rfl

theorem addNode_incomingEdges :
    (g.addNode t inclusion).2.incomingEdges = update g.incomingEdges (g.newNode t) ∅ := rfl

@[simp] theorem mem_addNode_allNodes {n : DGNode T} :
    n ∈ (g.addNode t inclusion).2.allNodes ↔ n = g.newNode t ∨ n ∈ g.allNodes :=
  mem_insert

@[simp] theorem addNode_isInternal (x : T) : (g.addNode t inclusion).2.isInternal x =
    ((decide (x = t) && inclusion) || g.isInternal x) := by
  cases inclusion with
  | false => simp [addNode, isInternal]
  | true =>
      by_cases hx : x = t
      · subst hx; simp [addNode, isInternal]
      · simp [addNode, isInternal, AList.lookup_insert_ne hx, hx]

@[simp] theorem addNode_isExternal (x : T) : (g.addNode t inclusion).2.isExternal x =
    ((decide (x = t) && !inclusion) || g.isExternal x) := by
  cases inclusion with
  | true => simp [addNode, isExternal]
  | false =>
      by_cases hx : x = t
      · subst hx; simp [addNode, isExternal]
      · simp [addNode, isExternal, AList.lookup_insert_ne hx, hx]

theorem addNode_nodeOf_ne {x : T} (hx : x ≠ t) :
    (g.addNode t inclusion).2.nodeOf x = g.nodeOf x := by
  apply nodeOf_congr <;> cases inclusion <;> simp [addNode, AList.lookup_insert_ne hx]

/-- The value is mapped to the new node, unless an older internal node hides it. -/
theorem addNode_nodeOf_self (h : inclusion = false → g.isInternal t = false) :
    (g.addNode t inclusion).2.nodeOf t = some (g.newNode t) := by
  rw [nodeOf_eq]
  cases inclusion with
  | true => simp [addNode, newNode]
  | false =>
      have hi : g.internalNodeMap.lookup t = none := by
        simpa [isInternal] using h rfl
      simp [addNode, newNode, hi]

variable {g t inclusion}

theorem WF.newNode_notMem (h : g.WF) : g.newNode t ∉ g.allNodes := fun hn =>
  absurd (h.node_fresh _ hn).2 (lt_irrefl _)

/-- Adding a node keeps the graph well formed if the value is not in the other
map and no edge ends in it. -/
theorem WF.addNode (h : g.WF)
    (hother : if inclusion then g.isExternal t = false else g.isInternal t = false)
    (hedges : ∀ e ∈ g.allEdges, e.getSrc ≠ t ∧ e.getDst ≠ t) :
    (g.addNode t inclusion).2.WF := by
  have hself : ∀ e ∈ g.allEdges, e.srcNode ≠ g.newNode t ∧ e.dstNode ≠ g.newNode t := by
    intro e he
    refine ⟨fun heq => (hedges e he).1 ?_, fun heq => (hedges e he).2 ?_⟩
    · rw [DGEdge.getSrc, heq]; rfl
    · rw [DGEdge.getDst, heq]; rfl
  refine ⟨?_, h.edge_fresh, ?_, ?_, ?_, ?_, ?_, ?_⟩
  · intro n hn
    rcases (mem_addNode_allNodes g t inclusion).mp hn with rfl | hn
    · exact ⟨rfl, Nat.lt_succ_self _⟩
    · exact ⟨(h.node_fresh n hn).1, Nat.lt_succ_of_lt (h.node_fresh n hn).2⟩
  · intro e he
    rw [addNode_nodeOf_ne g t inclusion (hedges e he).1, addNode_nodeOf_ne g t inclusion (hedges e he).2]
    exact h.edge_mapped e he
  · intro n hn e
    rcases (mem_addNode_allNodes g t inclusion).mp hn with rfl | hn
    · rw [addNode_outgoingEdges, update_self]
      exact ⟨fun he => absurd he (not_mem_empty e), fun he => absurd he.2 (hself e he.1).1⟩
    · have hne : n ≠ g.newNode t := fun heq => h.newNode_notMem (heq ▸ hn)
      rw [addNode_outgoingEdges, update_of_ne hne]
      exact h.mem_outgoing n hn e
  · intro n hn e
    rcases (mem_addNode_allNodes g t inclusion).mp hn with rfl | hn
    · rw [addNode_incomingEdges, update_self]
      exact ⟨fun he => absurd he (not_mem_empty e), fun he => absurd he.2 (hself e he.1).2⟩
    · have hne : n ≠ g.newNode t := fun heq => h.newNode_notMem (heq ▸ hn)
      rw [addNode_incomingEdges, update_of_ne hne]
      exact h.mem_incoming n hn e
  · intro x p hp
    by_cases hx : x = t ∧ inclusion = true
    · obtain ⟨rfl, rfl⟩ := hx
      simp only [DG.addNode, if_true, AList.lookup_insert, some.injEq] at hp
      exact ⟨_, (mem_addNode_allNodes g x true).mpr (.inl rfl), hp.symm, rfl⟩
    · have hp' : g.internalNodeMap.lookup x = some p := by
        cases inclusion with
        | false => simpa [DG.addNode] using hp
        | true =>
            have hxt : x ≠ t := fun heq => hx ⟨heq, rfl⟩
            simpa [DG.addNode, AList.lookup_insert_ne hxt] using hp
      obtain ⟨n, hn, hpn, ht⟩ := h.internal_node x p hp'
      exact ⟨n, (mem_addNode_allNodes g t inclusion).mpr (.inr hn), hpn, ht⟩
  · intro x p hp
    by_cases hx : x = t ∧ inclusion = false
    · obtain ⟨rfl, rfl⟩ := hx
      simp only [DG.addNode, Bool.false_eq_true, if_false, AList.lookup_insert,
        some.injEq] at hp
      exact ⟨_, (mem_addNode_allNodes g x false).mpr (.inl rfl), hp.symm, rfl⟩
    · have hp' : g.externalNodeMap.lookup x = some p := by
        cases inclusion with
        | true => simpa [DG.addNode] using hp
        | false =>
            have hxt : x ≠ t := fun heq => hx ⟨heq, rfl⟩
            simpa [DG.addNode, AList.lookup_insert_ne hxt] using hp
      obtain ⟨n, hn, hpn, ht⟩ := h.external_node x p hp'
      exact ⟨n, (mem_addNode_allNodes g t inclusion).mpr (.inr hn), hpn, ht⟩
  · intro x hx
    by_cases hxt : x = t
    · subst hxt
      cases inclusion with
      | true =>
          have hext : g.isExternal x = false := hother
          simp [hext]
      | false =>
          have hint : g.isInternal x = false := hother
          simp [hint] at hx
    · have hx' : g.isInternal x = true := by simpa [hxt] using hx
      simpa [hxt] using h.disjoint x hx'

theorem WF.edge_ne_of_not_isInGraph (h : g.WF) (ht : g.isInGraph t = false) :
    ∀ e ∈ g.allEdges, e.getSrc ≠ t ∧ e.getDst ≠ t := by
  intro e he
  have hin := h.edge_isInGraph he
  refine ⟨fun heq => ?_, fun heq => ?_⟩
  · rw [heq, ht] at hin; exact Bool.false_ne_true hin.1
  · rw [heq, ht] at hin; exact Bool.false_ne_true hin.2

theorem Clean.addNode (h : g.Clean) (ht : g.isInGraph t = false) :
    (g.addNode t inclusion).2.Clean := by
  obtain ⟨hti, hte⟩ : g.isInternal t = false ∧ g.isExternal t = false := by
    simpa [isInGraph] using ht
  refine ⟨h.toWF.addNode ?_ (h.toWF.edge_ne_of_not_isInGraph ht), ?_⟩
  · cases inclusion
    · exact hti
    · exact hte
  · intro n hn
    rcases (mem_addNode_allNodes g t inclusion).mp hn with rfl | hn
    · exact addNode_nodeOf_self g t inclusion fun _ => hti
    · have hne : n.theT ≠ t := by
        intro heq
        have hin := isInGraph_of_nodeOf (h.mapped n hn)
        rw [heq, ht] at hin
        exact Bool.false_ne_true hin
      rw [addNode_nodeOf_ne g t inclusion hne]
      exact h.mapped n hn

theorem addNode_isInGraph {x : T} :
    (g.addNode t inclusion).2.isInGraph x = (decide (x = t) || g.isInGraph x) := by
  unfold isInGraph
  rw [addNode_isInternal, addNode_isExternal]
  cases inclusion <;> simp [Bool.or_left_comm, Bool.or_assoc]

theorem Clean.foldl_addNode : ∀ (l : List T) {g : DG T S}, g.Clean → l.Nodup →
    (∀ t ∈ l, g.isInGraph t = false) →
      (l.foldl (fun g t => (g.addNode t inclusion).2) g).Clean
  | [], _, h, _, _ => h
  | t :: l, g, h, hnodup, hnew => by
      obtain ⟨ht, hnodup⟩ := nodup_cons.mp hnodup
      rw [foldl_cons]
      refine Clean.foldl_addNode l (h.addNode (hnew t (.head _))) hnodup fun x hx => ?_
      rw [addNode_isInGraph, hnew x (mem_cons_of_mem t hx), Bool.or_false]
      exact decide_eq_false fun heq => ht (heq ▸ hx)

end AddNode

/-! ## insertEdge -/

section InsertEdge

variable (g : DG T S) (a b : DGNode T) (kind : DependenceKind) (t : Option DataDependenceType)
  (attr : EdgeAttr S)

/-- The edge `insertEdge` allocates. -/
def newEdge : DGEdge T := ⟨g.self, g.edgeCounter, a, b, kind, t⟩

@[simp] theorem insertEdge_allNodes : (g.insertEdge a b kind t attr).2.allNodes = g.allNodes := rfl

@[simp] theorem insertEdge_nodeOf (x : T) :
    (g.insertEdge a b kind t attr).2.nodeOf x = g.nodeOf x :=
  nodeOf_congr rfl rfl

@[simp] theorem mem_insertEdge_allEdges {e : DGEdge T} :
    e ∈ (g.insertEdge a b kind t attr).2.allEdges ↔ e = g.newEdge a b kind t ∨ e ∈ g.allEdges :=
  mem_insert

@[simp] theorem insertEdge_edgeAttr_self :
    (g.insertEdge a b kind t attr).2.edgeAttr (g.newEdge a b kind t) = attr := by
  simp [insertEdge, newEdge]

variable {g a b kind t attr}

theorem WF.newEdge_notMem (h : g.WF) : g.newEdge a b kind t ∉ g.allEdges := fun he =>
  absurd (h.edge_fresh _ he).2 (lt_irrefl _)

theorem WF.insertEdge_edgeAttr (h : g.WF) {e : DGEdge T} (he : e ∈ g.allEdges) :
    (g.insertEdge a b kind t attr).2.edgeAttr e = g.edgeAttr e := by
  have hne : e ≠ g.newEdge a b kind t := fun heq => h.newEdge_notMem (heq ▸ he)
  exact update_of_ne hne _ _

theorem mem_update_insert {N E : Type} [DecidableEq N] [DecidableEq E] (edges : N → PtrSet E)
    {m n : N} {new e : E} :
    e ∈ update edges m ((edges m).insert new) n ↔ e ∈ edges n ∨ (e = new ∧ m = n) := by
  by_cases hnm : n = m
  · rw [hnm, update_self, mem_insert, or_comm]
    simp
  · rw [update_of_ne hnm]
    simp [Ne.symm hnm]

theorem or_and_eq_iff {N E : Type} {endOf : E → N} {old : Prop} {m n : N} {new e : E}
    (hnew : endOf new = m) :
    (old ∧ endOf e = n) ∨ (e = new ∧ m = n) ↔ (e = new ∨ old) ∧ endOf e = n := by
  constructor
  · rintro (⟨hold, hn⟩ | ⟨rfl, hn⟩)
    · exact ⟨.inr hold, hn⟩
    · exact ⟨.inl rfl, hnew.trans hn⟩
  · rintro ⟨rfl | hold, hn⟩
    · exact .inr ⟨rfl, hnew.symm.trans hn⟩
    · exact .inl ⟨hold, hn⟩

/-- An edge between two nodes of the graph keeps it well formed. -/
theorem WF.insertEdge (h : g.WF) (ha : g.nodeOf a.theT = some a) (hb : g.nodeOf b.theT = some b) :
    (g.insertEdge a b kind t attr).2.WF := by
  refine ⟨h.node_fresh, ?_, ?_, ?_, ?_, h.internal_node, h.external_node, h.disjoint⟩
  · intro e he
    rcases (mem_insertEdge_allEdges g a b kind t attr).mp he with rfl | he
    · exact ⟨rfl, Nat.lt_succ_self _⟩
    · exact ⟨(h.edge_fresh e he).1, Nat.lt_succ_of_lt (h.edge_fresh e he).2⟩
  · intro e he
    rw [insertEdge_nodeOf, insertEdge_nodeOf]
    rcases (mem_insertEdge_allEdges g a b kind t attr).mp he with rfl | he
    · exact ⟨ha, hb⟩
    · exact h.edge_mapped e he
  · intro n hn e
    rw [mem_insertEdge_allEdges]
    exact (mem_update_insert _).trans ((or_congr_left (h.mem_outgoing n hn e)).trans
      (or_and_eq_iff rfl))
  · intro n hn e
    rw [mem_insertEdge_allEdges]
    exact (mem_update_insert _).trans ((or_congr_left (h.mem_incoming n hn e)).trans
      (or_and_eq_iff rfl))

theorem Clean.insertEdge (h : g.Clean) (ha : g.nodeOf a.theT = some a)
    (hb : g.nodeOf b.theT = some b) : (g.insertEdge a b kind t attr).2.Clean :=
  ⟨h.toWF.insertEdge ha hb, fun n hn => by rw [insertEdge_nodeOf]; exact h.mapped n hn⟩

end InsertEdge

end DG

end Noelle
