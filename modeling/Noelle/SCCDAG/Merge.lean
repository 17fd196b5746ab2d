import Noelle.Lib.Run
import Noelle.SCCDAG.Construction

/-!
# SCCDAG.Merge

What a merge of SCCs does, and what survives any number of them.

The nodes that are merged belong to several graphs, each of which has its own
copy of a dependence between two of them.  The constructor of the new SCC takes
such a dependence from its source only, so the new SCC represents the dependences
of all its values again and the SCCDAG stays `Linked`.
-/

namespace Noelle

open PtrSet List Option

namespace DG

variable {T S : Type} [DecidableEq T]

/-- Nodes are removed with their edges, and the graph stays well formed. -/
theorem Clean.foldl_removeNode : ∀ {nodes : List (DGNode T)} {g : DG T S}, g.Clean → nodes.Nodup →
    (∀ n ∈ nodes, n ∈ g.allNodes) →
      (nodes.foldl (fun g n => g.removeNode n) g).Clean ∧
      (∀ n, n ∈ (nodes.foldl (fun g n => g.removeNode n) g).allNodes ↔
        n ∈ g.allNodes ∧ n ∉ nodes) ∧
      (∀ e, e ∈ (nodes.foldl (fun g n => g.removeNode n) g).allEdges ↔
        e ∈ g.allEdges ∧ e.srcNode ∉ nodes ∧ e.dstNode ∉ nodes) ∧
      (nodes.foldl (fun g n => g.removeNode n) g).edgeAttr = g.edgeAttr
  | [], g, h, _, _ => ⟨h, by simp, by simp, rfl⟩
  | node :: nodes, g, h, hnd, hmem => by
      obtain ⟨hnode, hnd⟩ := nodup_cons.mp hnd
      have hlive := hmem node (.head _)
      have hmem' : ∀ n ∈ nodes, n ∈ (g.removeNode node).allNodes := fun n hn =>
        (h.mem_removeNode_allNodes hlive).mpr
          ⟨fun heq => hnode (heq ▸ hn), hmem n (.tail node hn)⟩
      obtain ⟨hclean, hnodes, hedges, hattr⟩ :=
        Clean.foldl_removeNode (h.removeNode hlive) hnd hmem'
      refine ⟨hclean, fun n => ?_, fun e => ?_, hattr.trans (h.removeNode_edgeAttr hlive)⟩
      · rw [foldl_cons, hnodes, h.mem_removeNode_allNodes hlive, mem_cons]
        tauto
      · rw [foldl_cons, hedges, h.mem_removeNode_allEdges hlive, mem_cons, mem_cons]
        tauto

end DG

namespace SCCDAG

variable {V : Type} [DecidableEq V] {subLC : DGEdge V → Bool} {D : Multiset (Dep V)} {U : V → Prop}
  {s : SCCDAG V}

/-! ## The merged nodes -/

theorem Partitioned.internalNodes (h : Partitioned subLC D U s) {l : List (DGNode SccPtr)}
    (hl : ∀ k ∈ l, k ∈ s.allNodes) :
    ∃ nodes, (l.flatMap fun k => (s.sccs k.theT).internalNodeMap.entries.map (·.2)).mapM id =
        some nodes ∧
      ∀ n, n ∈ nodes ↔ ∃ k ∈ l, s.Holds k n.theT ∧ (s.sccs k.theT).nodeOf n.theT = some n := by
  set ps := l.flatMap fun k => (s.sccs k.theT).internalNodeMap.entries.map (·.2) with hps
  have hmem : ∀ p, p ∈ ps ↔ ∃ k ∈ l, ∃ n : DGNode V, p = some n ∧ s.Holds k n.theT ∧
      (s.sccs k.theT).nodeOf n.theT = some n := by
    intro p
    rw [hps, mem_flatMap]
    exact exists_congr fun k => and_congr_right fun hk =>
      (h.represents k (hl k hk)).ok.mem_internalPointers
  obtain ⟨nodes, hnodes, hiff⟩ := exists_mapM_id fun p hp =>
    let ⟨_, _, n, hn, _⟩ := (hmem p).mp hp
    ⟨n, hn⟩
  refine ⟨nodes, hnodes, fun n => ?_⟩
  rw [hiff, hmem]
  simp only [some.injEq]
  constructor
  · rintro ⟨k, hk, m, rfl, hm⟩
    exact ⟨k, hk, hm⟩
  · rintro ⟨k, hk, hn⟩
    exact ⟨k, hk, n, rfl, hn⟩

/-- The nodes inside an SCC have all their dependences there. -/
theorem Partitioned.store_complete (h : Partitioned subLC D U s) {k : DGNode SccPtr}
    (hk : k ∈ s.allNodes) {n : DGNode V} (hin : s.Holds k n.theT)
    (hn : (s.sccs k.theT).nodeOf n.theT = some n) : s.nodeStore.Complete subLC D n := by
  have hok := (h.represents k hk).ok
  have hc := (h.represents k hk).complete hn hin
  have hmem := (hok.nodeOf_mem hn).1
  have howner : n.owner = k.theT := (hok.node_fresh n hmem).1.trans (h.scc_self k hk)
  have hout : s.nodeStore.outgoingEdges n = (s.sccs k.theT).outgoingEdges n := by
    change (s.sccs n.owner).outgoingEdges n = _
    rw [howner]
  have hinc : s.nodeStore.incomingEdges n = (s.sccs k.theT).incomingEdges n := by
    change (s.sccs n.owner).incomingEdges n = _
    rw [howner]
  have hout' : ∀ e ∈ (s.sccs k.theT).outgoingEdges n, e ∈ (s.sccs k.theT).allEdges := fun e he =>
    ((hok.mem_outgoing n hmem e).mp he).1
  have hinc' : ∀ e ∈ (s.sccs k.theT).incomingEdges n, e ∈ (s.sccs k.theT).allEdges := fun e he =>
    ((hok.mem_incoming n hmem e).mp he).1
  refine ⟨?_, ?_, fun e he => ?_⟩
  · rw [hout, ← hc.outgoing]
    exact Multiset.map_congr rfl fun e he => h.nodeStore_dep hk (hout' e (Multiset.mem_coe.mp he))
  · rw [hinc, ← hc.incoming]
    exact Multiset.map_congr rfl fun e he => h.nodeStore_dep hk (hinc' e (Multiset.mem_coe.mp he))
  · rw [hout, hinc] at he
    have heq := h.nodeStore_edgeAttr hk (he.elim (hout' e) (hinc' e))
    rw [heq]
    exact hc.edges_ok e he

/-! ## The merge -/

/-- The outcome of merging two or more nodes into `new`. -/
structure Merged (s : SCCDAG V) (sccSet : PtrSet (DGNode SccPtr)) (new : DGNode SccPtr)
    (s' : SCCDAG V) : Prop where
  new_theT : new.theT = s.nextScc
  nextScc_eq : s'.nextScc = s.nextScc + 1
  allNodes_iff : ∀ n, n ∈ s'.allNodes ↔ n = new ∨ (n ∈ s.allNodes ∧ n ∉ sccSet)
  holds_new : ∀ v, s'.Holds new v ↔ ∃ k ∈ sccSet, s.Holds k v
  holds_old : ∀ n ∈ s.allNodes, ∀ v, s'.Holds n v ↔ s.Holds n v
  ordered_eq : s'.ordered = s.ordered
  orderedDirty_eq : s'.orderedDirty = s.orderedDirty
  sccIndexes_eq : s'.sccIndexes = s.sccIndexes

section Merged

variable {sccSet : PtrSet (DGNode SccPtr)} {new n m : DGNode SccPtr} {s' : SCCDAG V}

section

variable (hm : Merged s sccSet new s')

include hm

theorem Merged.new_notMem (h : Partitioned subLC D U s) :
    new ∉ s.allNodes := fun hn =>
  absurd (h.scc_lt new hn) (by rw [hm.new_theT]; exact lt_irrefl _)

theorem Merged.depBetween_from (hn : n ∈ s.allNodes) :
    s'.DepBetween D new n ↔ ∃ k ∈ sccSet, s.DepBetween D k n := by
  simp only [DepBetween, hm.holds_new, hm.holds_old n hn]
  constructor
  · rintro ⟨d, hd, ⟨k, hk, hks⟩, ht⟩
    exact ⟨k, hk, d, hd, hks, ht⟩
  · rintro ⟨k, hk, d, hd, hks, ht⟩
    exact ⟨d, hd, ⟨k, hk, hks⟩, ht⟩

theorem Merged.depBetween_to (hn : n ∈ s.allNodes) :
    s'.DepBetween D n new ↔ ∃ k ∈ sccSet, s.DepBetween D n k := by
  simp only [DepBetween, hm.holds_new, hm.holds_old n hn]
  constructor
  · rintro ⟨d, hd, hs, k, hk, hkt⟩
    exact ⟨k, hk, d, hd, hs, hkt⟩
  · rintro ⟨k, hk, d, hd, hs, hkt⟩
    exact ⟨d, hd, hs, k, hk, hkt⟩

theorem Merged.depBetween_old (hn : n ∈ s.allNodes)
    (hmm : m ∈ s.allNodes) : s'.DepBetween D n m ↔ s.DepBetween D n m := by
  simp only [DepBetween, hm.holds_old n hn, hm.holds_old m hmm]

end

end Merged

theorem Linked.removeSubEdges_eq (h : Linked subLC D U s) {e : DGEdge SccPtr} (he : e ∈ s.allEdges) :
    (s.edgeAttr e).removeSubEdges = {} := by
  have hflag := h.isLoopCarried_iff e he
  cases ha : s.edgeAttr e with
  | mk lc subs =>
      cases subs with
      | some subs => rfl
      | none =>
          rw [ha] at hflag
          have hlc : lc = false := by
            rw [Bool.eq_false_iff]
            intro hlc
            obtain ⟨x, hx, _⟩ := hflag.mp hlc
            exact absurd hx (not_mem_empty x)
          rw [hlc]
          rfl

theorem mergeSCCs_of_size_lt (ord : IterOrder) (subLC : DGEdge V → Bool)
    {sccSet : PtrSet (DGNode SccPtr)} (hsize : sccSet.size < 2) :
    s.mergeSCCs ord subLC sccSet = some s := if_pos hsize

section MergeSCCs

variable (ord : IterOrder) {sccSet : PtrSet (DGNode SccPtr)}

/-- The SCC of the internal nodes of the merged SCCs holds what they hold. -/
theorem Partitioned.mergeSCC_spec (h : Partitioned subLC D U s)
    (hset : ∀ n ∈ sccSet, n ∈ s.allNodes) (hnonempty : ∃ k, k ∈ sccSet) :
    ∃ nodes scc, (sccSet.elems.flatMap fun sccNode =>
        (s.sccs sccNode.theT).internalNodeMap.entries.map (·.2)).mapM id = some nodes ∧
      SCC.new ord subLC s.nodeStore s.nextScc (PtrSet.ofList nodes) = some scc ∧
      scc.self = s.nextScc ∧ SCC.Represents subLC D scc ∧
      ∀ v, scc.isInternal v = true ↔ ∃ k ∈ sccSet, s.Holds k v := by
  obtain ⟨nodes, hnodes, hmem⟩ := h.internalNodes hset
  have hvalue : ∀ v, (∃ n ∈ PtrSet.ofList nodes, n.theT = v) ↔ ∃ k ∈ sccSet, s.Holds k v := by
    intro v
    constructor
    · rintro ⟨n, hn, rfl⟩
      obtain ⟨k, hk, hv, _⟩ := (hmem n).mp (mem_ofList.mp hn)
      exact ⟨k, hk, hv⟩
    · rintro ⟨k, hk, hv⟩
      have hok := (h.represents k (hset k hk)).ok
      obtain ⟨n, hn⟩ := hok.exists_nodeOf (DG.isInGraph_iff.mpr (.inl hv))
      obtain rfl := (hok.nodeOf_mem hn).2
      exact ⟨n, mem_ofList.mpr ((hmem n).mpr ⟨k, hk, hv, hn⟩), rfl⟩
  have hinj : ((PtrSet.ofList nodes).elems.map DGNode.theT).Nodup := by
    refine (PtrSet.ofList nodes).nodup.map_on fun n hn m hm heq => ?_
    obtain ⟨k, hk, hkn, hkn'⟩ := (hmem n).mp (mem_ofList.mp hn)
    obtain ⟨j, hj, hjm, hjm'⟩ := (hmem m).mp (mem_ofList.mp hm)
    -- one value, hence one SCC, hence one node
    obtain rfl := h.holds_unique k (hset k hk) j (hset j hj) _ hkn (heq ▸ hjm)
    rw [heq, hjm'] at hkn'
    exact (some.inj hkn').symm
  have hne : (PtrSet.ofList nodes).elems ≠ [] := by
    obtain ⟨k, hk⟩ := hnonempty
    obtain ⟨v, hv⟩ := h.nonempty k (hset k hk)
    obtain ⟨n, hn, _⟩ := (hvalue v).mpr ⟨k, hk, hv⟩
    exact ne_nil_of_mem (mem_elems.mpr hn)
  obtain ⟨scc, hscc, hself, hrep, hint⟩ := @SCC.new_spec V _ subLC ord s.nodeStore D
    s.nextScc _ hne hinj (fun n hn => by
      obtain ⟨k, hk, hv, hn'⟩ := (hmem n).mp (mem_ofList.mp hn)
      exact h.store_complete (hset k hk) hv hn')
  exact ⟨nodes, scc, hnodes, hscc, hself, hrep, fun v => (hint v).trans (hvalue v)⟩

/-- The SCCDAG of a merge before its edges are marked. -/
def mergedNodes (s : SCCDAG V) (sccSet : PtrSet (DGNode SccPtr)) (scc : SCC V) : SCCDAG V :=
  { s.addScc scc true with
    toDG := (ord.visit sccSet.elems).foldl (fun g sccNode => g.removeNode sccNode)
      (s.addScc scc true).toDG }

variable {scc : SCC V}

/-- The nodes after a merge: those left, and the merged one. -/
theorem Partitioned.mergedNodes_merged (h : Partitioned subLC D U s)
    (hset : ∀ n ∈ sccSet, n ∈ s.allNodes)
    (hint : ∀ v, scc.isInternal v = true ↔ ∃ k ∈ sccSet, s.Holds k v) :
    (mergedNodes ord s sccSet scc).Clean ∧
      (∀ e, e ∈ (mergedNodes ord s sccSet scc).allEdges ↔
        e ∈ s.allEdges ∧ e.srcNode ∉ sccSet ∧ e.dstNode ∉ sccSet) ∧
      (mergedNodes ord s sccSet scc).edgeAttr = s.edgeAttr ∧
      Merged s sccSet (s.toDG.newNode s.nextScc) (mergedNodes ord s sccSet scc) := by
  have hclean : (s.toDG.addNode s.nextScc true).2.Clean := h.clean.addNode h.nextScc_notInGraph
  have hnew : s.toDG.newNode s.nextScc ∉ sccSet := fun hn => h.clean.newNode_notMem (hset _ hn)
  obtain ⟨hclean, hnodes, hedges, hattr⟩ := hclean.foldl_removeNode
    (ord.nodup_visit sccSet.nodup) (fun n hn => (DG.mem_addNode_allNodes ..).mpr
      (.inr (hset n (mem_elems.mp (ord.mem_visit.mp hn)))))
  refine ⟨hclean, fun e => (hedges e).trans ?_, hattr, rfl, rfl, fun n => (hnodes n).trans ?_,
    fun v => ?_, fun k hk v => ?_, rfl, rfl, rfl⟩
  · simp only [ord.mem_visit, mem_elems]
    exact Iff.rfl
  · rw [DG.mem_addNode_allNodes, ord.mem_visit, mem_elems]
    constructor
    · rintro ⟨rfl | hn, hns⟩
      · exact .inl rfl
      · exact .inr ⟨hn, hns⟩
    · rintro (rfl | hn)
      · exact ⟨.inl rfl, hnew⟩
      · exact ⟨.inr hn.1, hn.2⟩
  · rw [← hint v]
    simp [Holds, mergedNodes, addScc]
  · have hlt : k.theT ≠ s.nextScc := Nat.ne_of_lt (h.scc_lt k hk)
    simp [Holds, mergedNodes, addScc, Function.update_of_ne hlt]

/-- The nodes after a merge partition the values. -/
theorem Partitioned.mergedNodes (h : Partitioned subLC D U s)
    (hset : ∀ n ∈ sccSet, n ∈ s.allNodes) (hnonempty : ∃ k, k ∈ sccSet)
    (hself : scc.self = s.nextScc) (hrep : SCC.Represents subLC D scc)
    (hint : ∀ v, scc.isInternal v = true ↔ ∃ k ∈ sccSet, s.Holds k v) :
    Partitioned subLC D U (mergedNodes ord s sccSet scc) := by
  obtain ⟨hclean, -, -, hm⟩ := h.mergedNodes_merged ord hset hint
  have hne : ∃ v, scc.isInternal v = true := by
    obtain ⟨k, hk⟩ := hnonempty
    obtain ⟨v, hv⟩ := h.nonempty k (hset k hk)
    exact ⟨v, (hint v).mpr ⟨k, hk, hv⟩⟩
  refine h.replace (R := fun n => n ∈ sccSet) hclean rfl rfl hm.new_theT hm.allNodes_iff hself hrep
    hne (fun v hv n hn hnv => ?_) (fun v => ?_)
  · obtain ⟨k, hk, hkv⟩ := (hint v).mp hv
    exact h.holds_unique k (hset k hk) n hn v hkv hnv ▸ hk
  · rw [h.mem_values, hint]
    constructor
    · rintro ⟨n, hn, hv⟩
      by_cases hns : n ∈ sccSet
      · exact .inl ⟨n, hns, hv⟩
      · exact .inr ⟨n, hn, hns, hv⟩
    · rintro (⟨k, hk, hv⟩ | ⟨n, hn, _, hv⟩)
      · exact ⟨k, hset k hk, hv⟩
      · exact ⟨n, hn, hv⟩

theorem Merged.sameNodes {new : DGNode SccPtr} {s₁ s' : SCCDAG V} (hm : Merged s sccSet new s₁)
    (hsame : SameNodes s₁ s') : Merged s sccSet new s' where
  new_theT := hm.new_theT
  nextScc_eq := hsame.nextScc_eq.trans hm.nextScc_eq
  allNodes_iff n := by rw [hsame.allNodes_eq]; exact hm.allNodes_iff n
  holds_new v := (hsame.holds_iff new v).trans (hm.holds_new v)
  holds_old n hn v := (hsame.holds_iff n v).trans (hm.holds_old n hn v)
  ordered_eq := hsame.ordered_eq.trans hm.ordered_eq
  orderedDirty_eq := hsame.orderedDirty_eq.trans hm.orderedDirty_eq
  sccIndexes_eq := hsame.sccIndexes_eq.trans hm.sccIndexes_eq

/-- One merge keeps the SCCDAG linked. -/
theorem Linked.mergeSCCs_spec (h : Linked subLC D U s) (hset : ∀ n ∈ sccSet, n ∈ s.allNodes)
    (hsize : ¬ sccSet.size < 2) :
    ∃ s' new, s.mergeSCCs ord subLC sccSet = some s' ∧ Linked subLC D U s' ∧
      Merged s sccSet new s' := by
  have hnonempty : ∃ k, k ∈ sccSet := by
    obtain ⟨k, hk⟩ := exists_mem_of_ne_nil sccSet.elems fun hnil => hsize (by
      rw [PtrSet.size, hnil]
      exact Nat.zero_lt_two)
    exact ⟨k, hk⟩
  obtain ⟨nodes, scc, hnodes, hscc, hself, hrep, hint⟩ := h.mergeSCC_spec ord hset hnonempty
  obtain ⟨-, hedge, hattr, hm⟩ := h.mergedNodes_merged ord hset hint
  have hmapped := (h.mergedNodes ord hset hnonempty hself hrep hint).markValuesInSCC ord
    h.dep_values
  -- the edges that are left stand for dependences as before
  obtain ⟨s', hs', hlinked, hsame⟩ := markEdgesAndSubEdges_spec ord hmapped
    ⟨fun e he => h.edges.irrefl e ((hedge e).mp he).1,
      fun e he e' he' => h.edges.unique e ((hedge e).mp he).1 e' ((hedge e').mp he').1,
      fun e he => by
        obtain ⟨hsrc, hdst⟩ := h.clean.edge_nodes ((hedge e).mp he).1
        obtain ⟨d, hd, hds, hdt⟩ := h.edges.dep_of_edge e ((hedge e).mp he).1
        exact ⟨d, hd, (hm.holds_old _ hsrc _).mpr hds, (hm.holds_old _ hdst _).mpr hdt⟩⟩
    (fun e he => by
      rw [show ((mergedNodes ord s sccSet scc).markValuesInSCC ord).edgeAttr = s.edgeAttr from hattr]
      exact h.removeSubEdges_eq ((hedge e).mp he).1)
  have hmarked : Merged s sccSet (s.toDG.newNode s.nextScc)
      ((mergedNodes ord s sccSet scc).markValuesInSCC ord) := { hm with }
  refine ⟨s', _, ?_, hlinked, hmarked.sameNodes hsame⟩
  rw [mergeSCCs, if_neg hsize, hnodes]
  simp only [bind_eq_bind, bind_some, hscc]
  exact hs'

end MergeSCCs

end SCCDAG

end Noelle
