import Noelle.DG.Removal
import Noelle.SCCDAGPartition.Invariant

/-!
# SCCDAGPartition.Merge

Merging sets of a partition.

`mergeSets` first sends all SCCs to a new set, then transfers the edges of the old
sets, telling by the new map whether the other end of an edge is merged as well,
and deletes the old sets last.  In between the old nodes are still there and still
contain their SCCs; `Merging` is what the transfer relies on.
-/

namespace Noelle

open Function PtrSet

namespace SCCDAGPartition

def SetsOf (p : SCCDAGPartition) (sets : PtrSet SetPtr) : Prop :=
  ∀ s ∈ sets, ∃ n ∈ p.allNodes, n.theT = s

instance (p : SCCDAGPartition) (sets : PtrSet SetPtr) : Decidable (p.SetsOf sets) :=
  inferInstanceAs (Decidable (∀ s ∈ sets.elems, ∃ n ∈ p.allNodes.elems, n.theT = s))

theorem setsOf_pair {p : SCCDAGPartition} {n m : DGNode SetPtr} (hn : n ∈ p.allNodes)
    (hm : m ∈ p.allNodes) : p.SetsOf (PtrSet.ofList [n.theT, m.theT]) := by
  intro s hs
  simp only [mem_ofList, List.mem_cons, List.not_mem_nil, or_false] at hs
  rcases hs with rfl | rfl
  · exact ⟨n, hn, rfl⟩
  · exact ⟨m, hm, rfl⟩

/-! ## The merged set -/

/-- The merged set holds the SCCs of the sets, and they map to it. -/
theorem unionOfSets_spec (ord : IterOrder) {p : SCCDAGPartition} {U : SccPtr → Prop}
    (h : Partitioned U p) (mergedSet : SetPtr) {sets : PtrSet SetPtr} (hsets : p.SetsOf sets) :
    ∃ sccs sccToSetMap, p.unionOfSets ord mergedSet sets = some (sccs, sccToSetMap) ∧
      (∀ a, a ∈ sccs ↔ ∃ n ∈ p.allNodes, n.theT ∈ sets ∧ p.Holds n a) ∧
      ∀ a, sccToSetMap.lookup a = if a ∈ sccs then some mergedSet else p.sccToSetMap.lookup a := by
  obtain ⟨⟨sccs, sccToSetMap⟩, heq, hsccs, hmap⟩ := foldlM_rule
    (fun (st : PtrSet SccPtr × AList fun _ : SccPtr => SetPtr) set => do
      let ofSet := ord.visit (← p.heap set).elems
      return (st.1.insertAll ofSet,
        ofSet.foldl (fun sccToSetMap scc => sccToSetMap.insert scc mergedSet) st.2))
    (fun (pre : List SetPtr) st =>
      (∀ a, a ∈ st.1 ↔ ∃ n ∈ p.allNodes, n.theT ∈ pre ∧ p.Holds n a) ∧
      ∀ a, st.2.lookup a = if a ∈ st.1 then some mergedSet else p.sccToSetMap.lookup a)
    (l := ord.visit sets.elems) (s := (∅, p.sccToSetMap))
    ⟨by simp, by simp⟩
    (by
      rintro pre set post ⟨sccs, sccToSetMap⟩ hsplit ⟨hsccs, hmap⟩
      have hset : set ∈ sets := by
        rw [← mem_elems, ← ord.mem_visit, hsplit]
        simp
      obtain ⟨n, hn, rfl⟩ := hsets set hset
      obtain ⟨ofSet, hof⟩ := h.allocated n hn
      have hholds : ∀ a, p.Holds n a ↔ a ∈ ofSet := by
        intro a
        rw [Holds, hof]
        simp
      refine ⟨_, by rw [hof]; rfl, fun a => ?_, fun a => ?_⟩
      · simp only [mem_insertAll, ord.mem_visit, mem_elems, hsccs, List.mem_append,
          List.mem_singleton, ← hholds]
        constructor
        · rintro (⟨m, hm, hpre, hma⟩ | ha)
          · exact ⟨m, hm, .inl hpre, hma⟩
          · exact ⟨n, hn, .inr rfl, ha⟩
        · rintro ⟨m, hm, hpre | heq, hma⟩
          · exact .inl ⟨m, hm, hpre, hma⟩
          · exact .inr (h.clean.node_ext hm hn heq ▸ hma)
      · simp only [lookup_foldl_insert, hmap, mem_insertAll, ord.mem_visit, mem_elems]
        by_cases ha : a ∈ ofSet
        · simp only [ha, or_true, if_true]
        · simp only [ha, or_false, if_false])
  refine ⟨sccs, sccToSetMap, heq, ?_, hmap⟩
  simpa only [ord.mem_visit, mem_elems] using hsccs

/-! ## The transfer of edges -/

theorem Connects.isMerged_eq {p p' : SCCDAGPartition} {R : DGNode SetPtr → DGNode SetPtr → Prop}
    (h : Connects p R p') (ord : IterOrder) (mergedSet set : SetPtr) :
    p'.isMerged ord mergedSet set = p.isMerged ord mergedSet set := by
  unfold isMerged
  rw [h.heap_eq, h.sccToSetMap_eq]

/-- The state between the allocation of the merged set and the transfer of the edges. -/
structure Merging (ord : IterOrder) (p : SCCDAGPartition) (sets : PtrSet SetPtr)
    (new : DGNode SetPtr) : Prop where
  clean : p.toDG.Clean
  simple : p.toDG.Simple
  new_mem : new ∈ p.allNodes
  new_notMem : new.theT ∉ sets
  src_isMerged : ∀ n m, p.Edge n m →
    p.isMerged ord new.theT n.theT = some (decide (n.theT ∈ sets))
  dst_isMerged : ∀ n m, p.Edge n m →
    p.isMerged ord new.theT m.theT = some (decide (m.theT ∈ sets))

namespace Merging

variable {ord : IterOrder} {p p₁ : SCCDAGPartition} {sets : PtrSet SetPtr} {new : DGNode SetPtr}
  {R : DGNode SetPtr → DGNode SetPtr → Prop}
variable {e : DGEdge SetPtr} {s : DGNode SetPtr}

/-- An incoming edge moves to the merged set. -/
theorem transferIncoming_spec (h : Merging ord p sets new) (hc : Connects p R p₁)
    (he : p.Edge e.srcNode s) :
    ∃ p₂, transferIncoming ord new.theT new p₁ e = some p₂ ∧
      Connects p₁ (fun n m => n.theT ∉ sets ∧ n = e.srcNode ∧ m = new) p₂ := by
  have hmem : e.srcNode ∈ p₁.allNodes := hc.allNodes_eq ▸ (h.clean.edge_mem he).1
  unfold transferIncoming
  simp only [DGEdge.getSrc, fetchSetNode_eq hc.clean hmem, hc.isMerged_eq, h.src_isMerged _ _ he]
  by_cases hset : e.srcNode.theT ∈ sets
  · refine ⟨p₁, by simp [hset], Connects.refl hc.clean hc.simple ?_⟩
    rintro n m ⟨hn, rfl, _⟩
    exact absurd hset hn
  · obtain ⟨p₂, hp₂, h₂⟩ := addSetEdge_spec hc.clean hc.simple hmem
      (hc.allNodes_eq ▸ h.new_mem : new ∈ p₁.allNodes)
    refine ⟨p₂, by simpa [hset] using hp₂, h₂.congr fun n m => ⟨?_, fun hn => hn.2⟩⟩
    rintro ⟨rfl, rfl⟩
    exact ⟨hset, rfl, rfl⟩

/-- An outgoing edge moves to the merged set. -/
theorem transferOutgoing_spec (h : Merging ord p sets new) (hc : Connects p R p₁)
    (he : p.Edge s e.dstNode) :
    ∃ p₂, transferOutgoing ord new.theT new p₁ e = some p₂ ∧
      Connects p₁ (fun n m => m.theT ∉ sets ∧ n = new ∧ m = e.dstNode) p₂ := by
  have hmem : e.dstNode ∈ p₁.allNodes := hc.allNodes_eq ▸ (h.clean.edge_mem he).2
  unfold transferOutgoing
  simp only [DGEdge.getDst, fetchSetNode_eq hc.clean hmem, hc.isMerged_eq, h.dst_isMerged _ _ he]
  by_cases hset : e.dstNode.theT ∈ sets
  · refine ⟨p₁, by simp [hset], Connects.refl hc.clean hc.simple ?_⟩
    rintro n m ⟨hm, _, rfl⟩
    exact absurd hset hm
  · obtain ⟨p₂, hp₂, h₂⟩ := addSetEdge_spec hc.clean hc.simple
      (hc.allNodes_eq ▸ h.new_mem : new ∈ p₁.allNodes) hmem
    refine ⟨p₂, by simpa [hset] using hp₂, h₂.congr fun n m => ⟨?_, fun hm => hm.2⟩⟩
    rintro ⟨rfl, rfl⟩
    exact ⟨hset, rfl, rfl⟩

/-- The pairs that the transfer of the edges of one set connects. -/
def Transferred (p : SCCDAGPartition) (sets : PtrSet SetPtr) (new s n m : DGNode SetPtr) : Prop :=
  (m = new ∧ n.theT ∉ sets ∧ p.Edge n s) ∨ (n = new ∧ m.theT ∉ sets ∧ p.Edge s m)

section

variable (h : Merging ord p sets new) (hc : Connects p R p₁)
  (hR : ∀ n m, R n m → (m = new ∧ n.theT ∉ sets) ∨ (n = new ∧ m.theT ∉ sets))

include h hc hR

theorem edge_old (hs : s.theT ∈ sets) (n : DGNode SetPtr) :
    (p₁.Edge n s ↔ p.Edge n s) ∧ (p₁.Edge s n ↔ p.Edge s n) := by
  have hne : s ≠ new := fun heq => h.new_notMem (heq ▸ hs)
  constructor
  · rw [hc.edge_iff]
    refine or_iff_left fun hr => ?_
    rcases hR n s hr with ⟨heq, _⟩ | ⟨_, hns⟩
    · exact hne heq
    · exact hns hs
  · rw [hc.edge_iff]
    refine or_iff_left fun hr => ?_
    rcases hR s n hr with ⟨_, hns⟩ | ⟨heq, _⟩
    · exact hns hs
    · exact hne heq

/-- The edges of one set move to the merged set. -/
theorem transferEdges_spec (hs : s ∈ p.allNodes) (hset : s.theT ∈ sets) :
    ∃ p₂, transferEdges ord new.theT new p₁ s.theT = some p₂ ∧
      Connects p₁ (Transferred p sets new s) p₂ := by
  have hs₁ : s ∈ p₁.allNodes := hc.allNodes_eq ▸ hs
  -- incoming edges
  obtain ⟨p₂, hp₂, h₂⟩ := Connects.foldlM (l := ord.visit (p₁.incomingEdges s).elems) hc.clean
    hc.simple (Q := fun e n m => n.theT ∉ sets ∧ n = e.srcNode ∧ m = new)
    (f := transferIncoming ord new.theT new) (by
      intro pre e hvisit p' h' _
      obtain ⟨he, rfl⟩ := (hc.clean.mem_incoming s hs₁ e).mp (ord.mem_visit.mp hvisit)
      exact h.transferIncoming_spec (hc.trans h')
        (((h.edge_old hc hR hset e.srcNode).1).mp ⟨e, he, rfl, rfl⟩))
  have hc₂ := hc.trans h₂
  have hR₂ : ∀ n m, (R n m ∨ ∃ e ∈ ord.visit (p₁.incomingEdges s).elems,
      n.theT ∉ sets ∧ n = e.srcNode ∧ m = new) →
      (m = new ∧ n.theT ∉ sets) ∨ (n = new ∧ m.theT ∉ sets) := by
    rintro n m (hr | ⟨_, _, hn, _, hm⟩)
    · exact hR n m hr
    · exact .inl ⟨hm, hn⟩
  -- outgoing edges
  have hs₂ : s ∈ p₂.allNodes := hc₂.allNodes_eq ▸ hs
  obtain ⟨p₃, hp₃, h₃⟩ := Connects.foldlM (l := ord.visit (p₂.outgoingEdges s).elems) hc₂.clean
    hc₂.simple (Q := fun e n m => m.theT ∉ sets ∧ n = new ∧ m = e.dstNode)
    (f := transferOutgoing ord new.theT new) (by
      intro pre e hvisit p' h' _
      obtain ⟨he, rfl⟩ := (hc₂.clean.mem_outgoing s hs₂ e).mp (ord.mem_visit.mp hvisit)
      exact h.transferOutgoing_spec (hc₂.trans h')
        (((h.edge_old hc₂ hR₂ hset e.dstNode).2).mp ⟨e, he, rfl, rfl⟩))
  refine ⟨p₃, ?_, (h₂.trans h₃).congr fun n m => or_congr ?_ ?_⟩
  · simp [transferEdges, fetchSetNode_eq hc.clean hs₁, hp₂, hp₃]
  · rw [← (h.edge_old hc hR hset n).1]
    simp only [ord.mem_visit, mem_elems, hc.clean.mem_incoming s hs₁]
    constructor
    · rintro ⟨e, ⟨he, hd⟩, hn, rfl, hm⟩
      exact ⟨hm, hn, e, he, rfl, hd⟩
    · rintro ⟨hm, hn, e, he, rfl, hd⟩
      exact ⟨e, ⟨he, hd⟩, hn, rfl, hm⟩
  · rw [← (h.edge_old hc₂ hR₂ hset m).2]
    simp only [ord.mem_visit, mem_elems, hc₂.clean.mem_outgoing s hs₂]
    constructor
    · rintro ⟨e, ⟨he, hd⟩, hm, hn, rfl⟩
      exact ⟨hn, hm, e, he, hd, rfl⟩
    · rintro ⟨hn, hm, e, he, hd, rfl⟩
      exact ⟨e, ⟨he, hd⟩, hm, hn, rfl⟩

end

/-- The edges of all the sets move to the merged set. -/
theorem transferAll_spec (h : Merging ord p sets new) (hsets : p.SetsOf sets) :
    ∃ p', (ord.visit sets.elems).foldlM (transferEdges ord new.theT new) p = some p' ∧
      Connects p (fun n m => ∃ s ∈ p.allNodes, s.theT ∈ sets ∧ Transferred p sets new s n m) p' := by
  obtain ⟨p', hp', h'⟩ := Connects.foldlM (l := ord.visit sets.elems) h.clean h.simple
    (Q := fun set n m => ∃ s ∈ p.allNodes, s.theT = set ∧ Transferred p sets new s n m)
    (f := transferEdges ord new.theT new) (by
      intro pre set hset p₁ h₁ _
      have hmem : set ∈ sets := ord.mem_visit.mp hset
      obtain ⟨s, hs, rfl⟩ := hsets set hmem
      obtain ⟨p₂, hp₂, h₂⟩ := h.transferEdges_spec h₁ (by
        rintro n m ⟨_, _, _, _, _, ⟨hm, hn, _⟩ | ⟨hn, hm, _⟩⟩
        · exact .inl ⟨hm, hn⟩
        · exact .inr ⟨hn, hm⟩) hs hmem
      refine ⟨p₂, hp₂, h₂.congr fun n m => ⟨fun ht => ⟨s, hs, rfl, ht⟩, ?_⟩⟩
      rintro ⟨s', hs', heq, ht⟩
      exact h.clean.node_ext hs' hs heq ▸ ht)
  refine ⟨p', hp', h'.congr fun n m => ⟨?_, ?_⟩⟩
  · rintro ⟨_, hset, s, hs, rfl, ht⟩
    exact ⟨s, hs, ord.mem_visit.mp hset, ht⟩
  · rintro ⟨s, hs, hset, ht⟩
    exact ⟨s.theT, ord.mem_visit.mpr hset, s, hs, rfl, ht⟩

end Merging

/-! ## The deletion of the old sets -/

/-- The sets are deleted with their edges. -/
theorem deleteSets_spec : ∀ (sets : List SetPtr) (p : SCCDAGPartition), p.toDG.Clean → sets.Nodup →
    (∀ s ∈ sets, ∃ n ∈ p.allNodes, n.theT = s) →
    ∃ p', sets.foldlM deleteSet p = some p' ∧ p'.toDG.Clean ∧
      (∀ n, n ∈ p'.allNodes ↔ n ∈ p.allNodes ∧ n.theT ∉ sets) ∧
      (∀ e, e ∈ p'.allEdges ↔ e ∈ p.allEdges ∧ e.getSrc ∉ sets ∧ e.getDst ∉ sets) ∧
      (∀ s, s ∉ sets → p'.heap s = p.heap s) ∧ p'.nextSet = p.nextSet ∧
      p'.sccToSetMap = p.sccToSetMap
  | [], p, h, _, _ => ⟨p, rfl, h, by simp, by simp, fun _ _ => rfl, rfl, rfl⟩
  | set :: sets, p, h, hnd, hlive => by
      obtain ⟨hset, hnodup⟩ := List.nodup_cons.mp hnd
      obtain ⟨node, hnode, rfl⟩ := hlive set (.head _)
      set p₁ : SCCDAGPartition := { p with
        toDG := p.removeNode node
        heap := update p.heap node.theT none } with hp₁
      have hdelete : deleteSet p node.theT = some p₁ := by
        simp [deleteSet, fetchSetNode_eq h hnode, hp₁]
      have hnodes₁ : ∀ n, n ∈ p₁.allNodes ↔ n ≠ node ∧ n ∈ p.allNodes := fun n =>
        h.mem_removeNode_allNodes hnode
      have hvalue : ∀ n ∈ p.allNodes, n ≠ node ↔ n.theT ≠ node.theT := fun n hn =>
        not_congr ⟨fun heq => heq ▸ rfl, h.node_ext hn hnode⟩
      obtain ⟨p', hp', hclean, hnodes, hedges, hheap, hnext, hmap⟩ :=
        deleteSets_spec sets p₁ (h.removeNode hnode) hnodup (by
          intro s hs
          obtain ⟨n, hn, rfl⟩ := hlive s (.tail _ hs)
          exact ⟨n, (hnodes₁ n).mpr ⟨fun heq => hset (heq ▸ hs), hn⟩, rfl⟩)
      refine ⟨p', ?_, hclean, fun n => ?_, fun e => ?_, fun s hs => ?_, hnext, hmap⟩
      · rw [List.foldlM_cons, hdelete]
        exact hp'
      · rw [hnodes, hnodes₁, List.mem_cons, not_or]
        constructor
        · rintro ⟨⟨hne, hn⟩, hns⟩
          exact ⟨hn, (hvalue n hn).mp hne, hns⟩
        · rintro ⟨hn, hne, hns⟩
          exact ⟨⟨(hvalue n hn).mpr hne, hn⟩, hns⟩
      · have hmem : e ∈ p₁.allEdges ↔ e ∈ p.allEdges ∧ e.srcNode ≠ node ∧ e.dstNode ≠ node :=
          h.mem_removeNode_allEdges hnode
        rw [hedges, hmem, List.mem_cons, List.mem_cons, not_or, not_or]
        constructor
        · rintro ⟨⟨he, hs, hd⟩, hns, hnd⟩
          obtain ⟨hsrc, hdst⟩ := h.edge_nodes he
          exact ⟨he, ⟨(hvalue _ hsrc).mp hs, hns⟩, (hvalue _ hdst).mp hd, hnd⟩
        · rintro ⟨he, ⟨hs, hns⟩, hd, hnd⟩
          obtain ⟨hsrc, hdst⟩ := h.edge_nodes he
          exact ⟨⟨he, (hvalue _ hsrc).mpr hs, (hvalue _ hdst).mpr hd⟩, hns, hnd⟩
      · rw [List.mem_cons, not_or] at hs
        rw [hheap s hs.2, hp₁]
        exact update_of_ne hs.1 _ _

/-! ## mergeSets -/

/-- The outcome of merging sets into the set of `new`. -/
structure Merged (p : SCCDAGPartition) (sets : PtrSet SetPtr) (new : DGNode SetPtr)
    (p' : SCCDAGPartition) : Prop where
  new_theT : new.theT = p.nextSet
  new_notMem : new.theT ∉ sets
  allNodes_iff : ∀ n, n ∈ p'.allNodes ↔ n = new ∨ (n ∈ p.allNodes ∧ n.theT ∉ sets)
  holds_new : ∀ a, p'.Holds new a ↔ ∃ n ∈ p.allNodes, n.theT ∈ sets ∧ p.Holds n a
  holds_old : ∀ n ∈ p.allNodes, n.theT ∉ sets → ∀ a, p'.Holds n a ↔ p.Holds n a

variable {U : SccPtr → Prop} {L : SccPtr → SccPtr → Prop} {p : SCCDAGPartition}
variable {p' : SCCDAGPartition} {sets : PtrSet SetPtr} {new : DGNode SetPtr}

/-- A merge keeps the partition. -/
theorem Merged.partitioned (hm : Merged p sets new p') (h : Partitioned U p)
    (hclean : p'.toDG.Clean) (hnext : p'.nextSet = p.nextSet + 1)
    (halloc : ∀ n ∈ p'.allNodes, ∃ sccs, p'.heap n.theT = some sccs)
    (hmapNew : ∀ a, p'.Holds new a → p'.sccToSetMap.lookup a = some new.theT)
    (hmapOld : ∀ a, ¬ p'.Holds new a → p'.sccToSetMap.lookup a = p.sccToSetMap.lookup a) :
    Partitioned U p' := by
  have hnew : new ∈ p'.allNodes := (hm.allNodes_iff new).mpr (.inl rfl)
  have hkept : ∀ n ∈ p.allNodes, n.theT ∉ sets → n ∈ p'.allNodes := fun n hn hns =>
    (hm.allNodes_iff n).mpr (.inr ⟨hn, hns⟩)
  -- an SCC of an old set is not in the new one
  have hapart : ∀ n ∈ p.allNodes, n.theT ∉ sets → ∀ a, p.Holds n a → ¬ p'.Holds new a := by
    intro n hn hns a hna hnewa
    obtain ⟨m, hm', hset, hma⟩ := (hm.holds_new a).mp hnewa
    exact hns (h.holds_unique m hm' n hn a hma hna ▸ hset)
  refine ⟨hclean, ?_, halloc, ?_, ?_, ?_⟩
  · intro n hn
    rw [hnext]
    rcases (hm.allNodes_iff n).mp hn with rfl | ⟨hn, _⟩
    · rw [hm.new_theT]
      exact Nat.lt_succ_self _
    · exact Nat.lt_succ_of_lt (h.set_lt n hn)
  · intro n hn m hm' a hna hma
    rcases (hm.allNodes_iff n).mp hn with rfl | ⟨hn, hns⟩ <;>
      rcases (hm.allNodes_iff m).mp hm' with rfl | ⟨hm', hms⟩
    · rfl
    · exact absurd hna (hapart m hm' hms a ((hm.holds_old m hm' hms a).mp hma))
    · exact absurd hma (hapart n hn hns a ((hm.holds_old n hn hns a).mp hna))
    · exact h.holds_unique n hn m hm' a ((hm.holds_old n hn hns a).mp hna)
        ((hm.holds_old m hm' hms a).mp hma)
  · intro a
    rw [h.mem_iff]
    constructor
    · rintro ⟨n, hn, hna⟩
      by_cases hns : n.theT ∈ sets
      · exact ⟨new, hnew, (hm.holds_new a).mpr ⟨n, hn, hns, hna⟩⟩
      · exact ⟨n, hkept n hn hns, (hm.holds_old n hn hns a).mpr hna⟩
    · rintro ⟨n, hn, hna⟩
      rcases (hm.allNodes_iff n).mp hn with rfl | ⟨hn, hns⟩
      · obtain ⟨m, hm', _, hma⟩ := (hm.holds_new a).mp hna
        exact ⟨m, hm', hma⟩
      · exact ⟨n, hn, (hm.holds_old n hn hns a).mp hna⟩
  · intro a set
    by_cases hnewa : p'.Holds new a
    · rw [hmapNew a hnewa]
      constructor
      · exact fun heq => ⟨new, hnew, Option.some.inj heq, hnewa⟩
      · rintro ⟨n, hn, rfl, hna⟩
        rcases (hm.allNodes_iff n).mp hn with rfl | ⟨hn, hns⟩
        · rfl
        · exact absurd hnewa (hapart n hn hns a ((hm.holds_old n hn hns a).mp hna))
    · rw [hmapOld a hnewa, h.lookup_iff]
      constructor
      · rintro ⟨n, hn, hset, hna⟩
        have hns : n.theT ∉ sets := fun hns => hnewa ((hm.holds_new a).mpr ⟨n, hn, hns, hna⟩)
        exact ⟨n, hkept n hn hns, hset, (hm.holds_old n hn hns a).mpr hna⟩
      · rintro ⟨n, hn, hset, hna⟩
        rcases (hm.allNodes_iff n).mp hn with rfl | ⟨hn, hns⟩
        · exact absurd hna hnewa
        · exact ⟨n, hn, hset, (hm.holds_old n hn hns a).mp hna⟩

/-- What a merge does keeps the invariant. -/
theorem Merged.inv
    (hm : Merged p sets new p') (h : Inv U L p) (hpart : Partitioned U p') (hs : p'.toDG.Simple)
    (hedge : ∀ n m, p'.Edge n m ↔ n.theT ∉ sets ∧ m.theT ∉ sets ∧ (p.Edge n m ∨
      ∃ s ∈ p.allNodes, s.theT ∈ sets ∧ Merging.Transferred p sets new s n m)) : Inv U L p' := by
  have hold : ∀ n m, p.Edge n m → n ∈ p.allNodes ∧ m ∈ p.allNodes := fun n m => h.clean.edge_mem
  refine ⟨hpart, hs, ?_, ?_⟩
  · intro n m hnm
    obtain ⟨hns, hms, hnm | ⟨s, hs, hset, ⟨rfl, _, hns'⟩ | ⟨rfl, _, hsm⟩⟩⟩ := (hedge n m).mp hnm
    · obtain ⟨a, b, hna, hmb, hab⟩ := h.parent_of_edge n m hnm
      exact ⟨a, b, (hm.holds_old n (hold n m hnm).1 hns a).mpr hna,
        (hm.holds_old m (hold n m hnm).2 hms b).mpr hmb, hab⟩
    · obtain ⟨a, b, hna, hsb, hab⟩ := h.parent_of_edge n s hns'
      exact ⟨a, b, (hm.holds_old n (hold n s hns').1 hns a).mpr hna,
        (hm.holds_new b).mpr ⟨s, hs, hset, hsb⟩, hab⟩
    · obtain ⟨a, b, hsa, hmb, hab⟩ := h.parent_of_edge s m hsm
      exact ⟨a, b, (hm.holds_new a).mpr ⟨s, hs, hset, hsa⟩,
        (hm.holds_old m (hold s m hsm).2 hms b).mpr hmb, hab⟩
  · rintro n hn m hm' hnm ⟨a, b, hna, hmb, hab⟩
    refine (hedge n m).mpr ?_
    rcases (hm.allNodes_iff n).mp hn with rfl | ⟨hn, hns⟩ <;>
      rcases (hm.allNodes_iff m).mp hm' with rfl | ⟨hm', hms⟩
    · exact absurd rfl hnm
    · obtain ⟨s, hs, hset, hsa⟩ := (hm.holds_new a).mp hna
      have hsm : p.Edge s m := h.edge_of_parent s hs m hm' (fun heq => hms (heq ▸ hset))
        ⟨a, b, hsa, (hm.holds_old m hm' hms b).mp hmb, hab⟩
      exact ⟨hm.new_notMem, hms, .inr ⟨s, hs, hset, .inr ⟨rfl, hms, hsm⟩⟩⟩
    · obtain ⟨s, hs, hset, hsb⟩ := (hm.holds_new b).mp hmb
      have hns' : p.Edge n s := h.edge_of_parent n hn s hs (fun heq => hns (heq ▸ hset))
        ⟨a, b, (hm.holds_old n hn hns a).mp hna, hsb, hab⟩
      exact ⟨hns, hm.new_notMem, .inr ⟨s, hs, hset, .inl ⟨rfl, hns, hns'⟩⟩⟩
    · exact ⟨hns, hms, .inl (h.edge_of_parent n hn m hm' hnm
        ⟨a, b, (hm.holds_old n hn hns a).mp hna, (hm.holds_old m hm' hms b).mp hmb, hab⟩)⟩

/-- The merged set is ready for the edges. -/
theorem Inv.merging (h : Inv U L p) (ord : IterOrder) (hsets : p.SetsOf sets)
    {sccs : PtrSet SccPtr} {sccToSetMap : AList fun _ : SccPtr => SetPtr}
    (hsccs : ∀ a, a ∈ sccs ↔ ∃ n ∈ p.allNodes, n.theT ∈ sets ∧ p.Holds n a)
    (hmap : ∀ a, sccToSetMap.lookup a =
      if a ∈ sccs then some p.nextSet else p.sccToSetMap.lookup a) :
    Merging ord ({ p with sccToSetMap := sccToSetMap }.addSet sccs).2 sets
      (p.toDG.newNode p.nextSet) := by
  have hmerged : ∀ n ∈ p.allNodes, (∃ a, p.Holds n a) →
      isMerged ord ({ p with sccToSetMap := sccToSetMap }.addSet sccs).2 p.nextSet n.theT =
        some (decide (n.theT ∈ sets)) := by
    intro n hn ⟨a, inSet, hheap, ha⟩
    have hlt := h.set_lt n hn
    obtain ⟨first, hfirst, hhead⟩ := ord.exists_head (List.ne_nil_of_mem ha)
    have hholds : p.Holds n first := ⟨inSet, hheap, hfirst⟩
    have hheap' : ({ p with sccToSetMap := sccToSetMap }.addSet sccs).2.heap n.theT = some inSet :=
      (update_of_ne (Nat.ne_of_lt hlt) _ _).trans hheap
    have hmap' : ({ p with sccToSetMap := sccToSetMap }.addSet sccs).2.sccToSetMap.lookup first =
        if first ∈ sccs then some p.nextSet else p.sccToSetMap.lookup first := hmap first
    have hiff : first ∈ sccs ↔ n.theT ∈ sets := by
      rw [hsccs]
      constructor
      · rintro ⟨m, hm, hset, hma⟩
        exact h.holds_unique m hm n hn first hma hholds ▸ hset
      · exact fun hset => ⟨n, hn, hset, hholds⟩
    unfold isMerged
    rw [hheap']
    simp only [Option.bind_eq_bind, Option.bind_some, hhead, hmap']
    by_cases hset : n.theT ∈ sets
    · simp [hiff, hset]
    · have hlookup := (h.lookup_iff first n.theT).mpr ⟨n, hn, rfl, hholds⟩
      simp [hiff, hset, hlookup, Nat.ne_of_lt hlt]
  have hfresh := h.nextSet_notInGraph
  refine ⟨h.clean.addNode hfresh, h.simple, ?_, ?_, ?_, ?_⟩
  · exact (DG.mem_addNode_allNodes ..).mpr (.inl rfl)
  · intro hmem
    obtain ⟨n, hn, heq⟩ := hsets _ hmem
    exact absurd (h.set_lt n hn) (by rw [heq]; exact lt_irrefl _)
  · intro n m hnm
    obtain ⟨a, b, hna, _, _⟩ := h.parent_of_edge n m hnm
    exact hmerged n (h.clean.edge_mem hnm).1 ⟨a, hna⟩
  · intro n m hnm
    obtain ⟨a, b, _, hmb, _⟩ := h.parent_of_edge n m hnm
    exact hmerged m (h.clean.edge_mem hnm).2 ⟨b, hmb⟩

/-- A merge keeps the invariant. -/
theorem Inv.mergeSets_spec (h : Inv U L p) (ord : IterOrder) (hsets : p.SetsOf sets) :
    ∃ p' new, p.mergeSets ord sets = some p' ∧ Inv U L p' ∧ Merged p sets new p' := by
  obtain ⟨sccs, sccToSetMap, hunion, hsccs, hmap⟩ :=
    unionOfSets_spec ord h.toPartitioned p.nextSet hsets
  have hmerging := h.merging ord hsets hsccs hmap
  set p₁ := ({ p with sccToSetMap := sccToSetMap }.addSet sccs).2 with hp₁
  set new := p.toDG.newNode p.nextSet with hnew
  have hnodes₁ : ∀ n, n ∈ p₁.allNodes ↔ n = new ∨ n ∈ p.allNodes := fun n =>
    DG.mem_addNode_allNodes ..
  have hsets₁ : p₁.SetsOf sets := fun s hs =>
    let ⟨n, hn, heq⟩ := hsets s hs
    ⟨n, (hnodes₁ n).mpr (.inr hn), heq⟩
  obtain ⟨p₂, hp₂, hconn⟩ := hmerging.transferAll_spec hsets₁
  obtain ⟨p₃, hp₃, hclean, hnodes, hedges, hheap, hnext, hmap₃⟩ :=
    deleteSets_spec (ord.visit sets.elems) p₂ hconn.clean (ord.nodup_visit sets.nodup) (by
      intro s hs
      obtain ⟨n, hn, heq⟩ := hsets₁ s (ord.mem_visit.mp hs)
      exact ⟨n, hconn.allNodes_eq ▸ hn, heq⟩)
  simp only [ord.mem_visit, mem_elems] at hnodes hedges hheap
  have hallNodes : ∀ n, n ∈ p₃.allNodes ↔ n = new ∨ (n ∈ p.allNodes ∧ n.theT ∉ sets) := by
    intro n
    rw [hnodes, hconn.allNodes_eq, hnodes₁]
    constructor
    · rintro ⟨rfl | hn, hns⟩
      · exact .inl rfl
      · exact .inr ⟨hn, hns⟩
    · rintro (rfl | ⟨hn, hns⟩)
      · exact ⟨.inl rfl, hmerging.new_notMem⟩
      · exact ⟨.inr hn, hns⟩
  have hholdsNew : ∀ a, p₃.Holds new a ↔ ∃ n ∈ p.allNodes, n.theT ∈ sets ∧ p.Holds n a := by
    intro a
    rw [← hsccs, Holds, hheap _ hmerging.new_notMem, hconn.heap_eq]
    simp [hp₁, addSet, hnew]
  have hholdsOld : ∀ n ∈ p.allNodes, n.theT ∉ sets → ∀ a, p₃.Holds n a ↔ p.Holds n a := by
    intro n hn hns a
    have hlt : n.theT ≠ p.nextSet := Nat.ne_of_lt (h.set_lt n hn)
    rw [Holds, hheap _ hns, hconn.heap_eq]
    simp [Holds, hp₁, addSet, update_of_ne hlt]
  have hmerged : Merged p sets new p₃ :=
    ⟨rfl, hmerging.new_notMem, hallNodes, hholdsNew, hholdsOld⟩
  have hlookup : ∀ a, p₃.sccToSetMap.lookup a =
      if a ∈ sccs then some new.theT else p.sccToSetMap.lookup a := by
    intro a
    rw [hmap₃, hconn.sccToSetMap_eq]
    exact hmap a
  have hnewsccs : ∀ a, p₃.Holds new a ↔ a ∈ sccs := fun a => (hholdsNew a).trans (hsccs a).symm
  have hpart : Partitioned U p₃ := by
    refine hmerged.partitioned h.toPartitioned hclean ?_ ?_ ?_ ?_
    · rw [hnext, hconn.nextSet_eq]
      rfl
    · intro n hn
      obtain ⟨hn, hns⟩ := (hnodes n).mp hn
      rw [hheap n.theT hns, hconn.heap_eq]
      rw [hconn.allNodes_eq] at hn
      rcases (hnodes₁ n).mp hn with rfl | hn
      · exact ⟨sccs, update_self ..⟩
      · obtain ⟨inSet, hin⟩ := h.allocated n hn
        exact ⟨inSet, (update_of_ne (Nat.ne_of_lt (h.set_lt n hn)) _ _).trans hin⟩
    · intro a hnewa
      rw [hlookup, if_pos ((hnewsccs a).mp hnewa)]
    · intro a hnewa
      rw [hlookup, if_neg fun ha => hnewa ((hnewsccs a).mpr ha)]
  refine ⟨p₃, new, ?_, hmerged.inv h hpart ?_ fun n m => ?_, hmerged⟩
  · rw [mergeSets, hunion]
    change (List.foldlM (transferEdges ord new.theT new) p₁ (ord.visit sets.elems)).bind _ = _
    rw [hp₂]
    exact hp₃
  · intro e he e' he'
    exact hconn.simple e ((hedges e).mp he).1 e' ((hedges e').mp he').1
  · have hedge₂ : p₂.Edge n m ↔ p.Edge n m ∨
        ∃ s ∈ p.allNodes, s.theT ∈ sets ∧ Merging.Transferred p sets new s n m := by
      refine (hconn.edge_iff n m).trans (or_congr Iff.rfl ⟨?_, ?_⟩)
      · rintro ⟨s, hs, hset, ht⟩
        rcases (hnodes₁ s).mp hs with rfl | hs
        · exact absurd hset hmerging.new_notMem
        · exact ⟨s, hs, hset, ht⟩
      · rintro ⟨s, hs, hset, ht⟩
        exact ⟨s, (hnodes₁ s).mpr (.inr hs), hset, ht⟩
    rw [← hedge₂]
    constructor
    · rintro ⟨e, he, rfl, rfl⟩
      obtain ⟨he, hs, hd⟩ := (hedges e).mp he
      exact ⟨hs, hd, e, he, rfl, rfl⟩
    · rintro ⟨hs, hd, e, he, rfl, rfl⟩
      exact ⟨e, (hedges e).mpr ⟨he, hs, hd⟩, rfl, rfl⟩

end SCCDAGPartition

end Noelle
