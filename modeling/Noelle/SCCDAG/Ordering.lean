import Noelle.SCCDAG.Merge

/-!
# SCCDAG.Ordering

The precomputed ordering of the nodes of an SCCDAG.

`computeReachabilityAmongSCCs` numbers the nodes in the order it meets them and
closes the bit matrix of the edges.  As long as the positions of the matrix fit in
32 bits, `orderedBefore` answers reachability; with 65536 nodes or more the
cell at position `2 ^ 32 - 1` is beyond the end of the bit vector.
-/

namespace Noelle

open Relation List Option

namespace SCCDAG

variable {V : Type}

/-! ## The indices -/

/-- The nodes, in the order of the loop that numbers them. -/
def keysInOrder (ord : IterOrder) (s : SCCDAG V) : List SccPtr :=
  (ord.visit s.allNodes.elems).map DGNode.theT

variable {s : SCCDAG V} {p : SccPtr} {n m : DGNode SccPtr}
variable (ord : IterOrder)

theorem mem_keysInOrder :
    p ∈ keysInOrder ord s ↔ ∃ n ∈ s.allNodes, n.theT = p := by
  simp [keysInOrder]

theorem length_keysInOrder (s : SCCDAG V) :
    (keysInOrder ord s).length = s.numNodes := by
  rw [keysInOrder, length_map, ord.length_visit]
  rfl

theorem nodup_keysInOrder (h : s.toDG.Clean) :
    (keysInOrder ord s).Nodup := by
  refine List.Nodup.map_on (fun n hn m hm heq => ?_) (ord.nodup_visit s.allNodes.nodup)
  exact h.node_ext (ord.mem_visit.mp hn) (ord.mem_visit.mp hm) heq

/-- The indices that the first loop gives. -/
def numberedIndexes (ord : IterOrder) (s : SCCDAG V) : AList fun _ : SccPtr => Nat :=
  ((ord.visit s.allNodes.elems).foldl
    (fun (st : (AList fun _ : SccPtr => Nat) × Nat) sccNode =>
      (st.1.insert sccNode.theT st.2, uint32 (st.2 + 1))) (s.sccIndexes, 0)).1

/-- The SCCs are numbered in the order of their keys. -/
theorem lookup_numberedIndexes (h : s.toDG.Clean) (p : SccPtr) :
    (numberedIndexes ord s).lookup p =
      if p ∈ keysInOrder ord s then some (uint32 ((keysInOrder ord s).idxOf p))
      else s.sccIndexes.lookup p := by
  have hloop := foldl_rule
    (fun (st : (AList fun _ : SccPtr => Nat) × Nat) (sccNode : DGNode SccPtr) =>
      (st.1.insert sccNode.theT st.2, uint32 (st.2 + 1)))
    (fun pre st => st.2 = uint32 pre.length ∧ ∀ p, st.1.lookup p =
      if p ∈ pre.map DGNode.theT then some (uint32 ((pre.map DGNode.theT).idxOf p))
      else s.sccIndexes.lookup p)
    (l := ord.visit s.allNodes.elems) (s := (s.sccIndexes, 0)) ⟨rfl, fun p => by simp⟩
    (by
      rintro pre n post ⟨map, index⟩ hsplit ⟨rfl, hmap⟩
      have hnot : n.theT ∉ pre.map DGNode.theT := by
        have hnd := nodup_keysInOrder ord h
        rw [keysInOrder, hsplit, map_append, map_cons] at hnd
        intro hmem
        exact (nodup_append.mp hnd).2.2 _ hmem _ (.head _) rfl
      refine ⟨?_, fun p => ?_⟩
      · simp [uint32]
      · rw [map_append, map_singleton]
        by_cases hp : p = n.theT
        · subst hp
          rw [AList.lookup_insert, if_pos (by simp), idxOf_append_of_notMem hnot]
          simp
        · rw [AList.lookup_insert_ne hp, hmap]
          by_cases hmem : p ∈ pre.map DGNode.theT
          · rw [if_pos hmem, if_pos (mem_append_left _ hmem), idxOf_append_of_mem hmem]
          · rw [if_neg hmem, if_neg (by simp [hp] at hmem ⊢; exact hmem)])
  exact hloop.2 p

theorem lookup_numberedIndexes_of_mem (h : s.toDG.Clean) (hp : p ∈ keysInOrder ord s) :
    (numberedIndexes ord s).lookup p = some (uint32 ((keysInOrder ord s).idxOf p)) := by
  rw [lookup_numberedIndexes ord h, if_pos hp]

/-! ## The matrix -/

def indexOf (ord : IterOrder) (s : SCCDAG V) (n : DGNode SccPtr) : Nat :=
  (keysInOrder ord s).idxOf n.theT

theorem indexOf_lt (hn : n ∈ s.allNodes) :
    indexOf ord s n < s.numNodes := by
  rw [← length_keysInOrder ord, indexOf, idxOf_lt_length_iff]
  exact (mem_keysInOrder ord).mpr ⟨n, hn, rfl⟩

theorem indexOf_inj (h : s.toDG.Clean) (hn : n ∈ s.allNodes) (hm : m ∈ s.allNodes)
    (heq : indexOf ord s n = indexOf ord s m) : n = m :=
  h.node_ext hn hm ((idxOf_inj ((mem_keysInOrder ord).mpr ⟨n, hn, rfl⟩)).mp heq)

/-- Paths of indices are paths of nodes. -/
theorem transGen_index_iff (h : s.toDG.Clean) {R : Nat → Nat → Prop}
    (hR : ∀ i j, R i j ↔ ∃ n m, s.Edge n m ∧ indexOf ord s n = i ∧ indexOf ord s m = j)
    (hn : n ∈ s.allNodes) (hm : m ∈ s.allNodes) :
    TransGen R (indexOf ord s n) (indexOf ord s m) ↔ TransGen s.Edge n m := by
  have hnodes : ∀ {a b}, s.Edge a b → a ∈ s.allNodes ∧ b ∈ s.allNodes := by
    rintro a b ⟨e, he, rfl, rfl⟩
    exact h.edge_nodes he
  constructor
  · intro hp
    suffices hgen : ∀ j, TransGen R (indexOf ord s n) j →
        ∀ m ∈ s.allNodes, indexOf ord s m = j → TransGen s.Edge n m from hgen _ hp m hm rfl
    intro j hp
    induction hp with
    | single hstep =>
        intro m hm hmj
        obtain ⟨a, b, hab, ha, hb⟩ := (hR _ _).mp hstep
        rw [← indexOf_inj ord h (hnodes hab).1 hn ha, ← indexOf_inj ord h (hnodes hab).2 hm
          (hb.trans hmj.symm)]
        exact .single hab
    | tail _ hstep ih =>
        intro m hm hmj
        obtain ⟨a, b, hab, ha, hb⟩ := (hR _ _).mp hstep
        rw [← indexOf_inj ord h (hnodes hab).2 hm (hb.trans hmj.symm)]
        exact (ih a (hnodes hab).1 ha).tail hab
  · exact fun hp => TransGen.lift (indexOf ord s) (fun a b hab => (hR _ _).mpr ⟨a, b, hab, rfl, rfl⟩) _ _ hp

/-- `orderedBefore` is defined on all nodes and answers reachability. -/
def OrderedByPaths (s : SCCDAG V) : Prop :=
  ∀ n ∈ s.allNodes, ∀ m ∈ s.allNodes, ∃ b, s.orderedBefore n.theT m.theT = some b ∧
    (b = true ↔ TransGen s.Edge n m)

/-- Nodes, SCCs, map and edges are the same; the ordering may differ. -/
structure SameGraph (s₀ s : SCCDAG V) : Prop where
  toDG_eq : s.toDG = s₀.toDG
  sccs_eq : s.sccs = s₀.sccs
  nextScc_eq : s.nextScc = s₀.nextScc
  valueToSCCNode_eq : s.valueToSCCNode = s₀.valueToSCCNode

theorem SameGraph.refl (s : SCCDAG V) : SameGraph s s := ⟨rfl, rfl, rfl, rfl⟩

variable (ord : IterOrder) {s : SCCDAG V}

theorem computeReachability_eq {s' : SCCDAG V} (h : s.computeReachabilityAmongSCCs ord = some s') :
    ∃ sccIndexes ordered, s' = { s with
      orderedDirty := false
      sccIndexes := sccIndexes
      ordered := ordered } := by
  unfold computeReachabilityAmongSCCs at h
  obtain ⟨⟨sccIndexes, _⟩, _, h⟩ := bind_eq_some_iff.mp h
  obtain ⟨ordered, _, h⟩ := bind_eq_some_iff.mp h
  exact ⟨sccIndexes, ordered, (some.inj h).symm⟩

/-- What the ordering step leaves behind when it succeeds, whatever the size. -/
structure Numbered (ord : IterOrder) (s s' : SCCDAG V) : Prop where
  lookup_eq : ∀ p, s'.sccIndexes.lookup p =
    if p ∈ keysInOrder ord s then some (uint32 ((keysInOrder ord s).idxOf p))
    else s.sccIndexes.lookup p
  N_eq : s'.ordered.N = uint32 s.numNodes
  size_lt : s'.ordered.bv.size < 2 ^ 32

theorem sccIndexOf_eq {sccIndexes : AList fun _ : SccPtr => Nat}
    (hlook : ∀ p ∈ keysInOrder ord s, sccIndexes.lookup p =
      some (uint32 ((keysInOrder ord s).idxOf p))) {n : DGNode SccPtr} (hn : n ∈ s.allNodes) :
    sccIndexOf sccIndexes n.theT = (uint32 (indexOf ord s n), sccIndexes) := by
  rw [sccIndexOf, hlook n.theT ((mem_keysInOrder ord).mpr ⟨n, hn, rfl⟩)]
  rfl

/-- The matrix is computed over the numbered SCCs. -/
theorem computeReachability_numbered (h : s.toDG.Clean) {s' : SCCDAG V}
    (hs' : s.computeReachabilityAmongSCCs ord = some s') : Numbered ord s s' := by
  unfold computeReachabilityAmongSCCs at hs'
  obtain ⟨⟨sccIndexes, ordered⟩, hloop, hs'⟩ := bind_eq_some_iff.mp hs'
  obtain ⟨ordered', hclose, hs'⟩ := bind_eq_some_iff.mp hs'
  cases hs'
  have hlook := fun p hp => lookup_numberedIndexes_of_mem ord h (p := p) hp
  obtain ⟨heq, hsame⟩ := foldlM_preserves _
    (fun st : (AList fun _ : SccPtr => Nat) × BitMatrix =>
      st.1 = numberedIndexes ord s ∧ BitMatrix.SameSize (BitMatrix.new (uint32 s.numNodes)) st.2) _ _ _
    (by
      rintro e he ⟨map₁, m₁⟩ ⟨map₂, m₂⟩ hstep ⟨rfl, hsize⟩
      obtain ⟨hsrc, hdst⟩ := h.edge_nodes (ord.mem_visit.mp he)
      simp only [DGEdge.getSrc, DGEdge.getDst, sccIndexOf_eq ord hlook hsrc,
        sccIndexOf_eq ord hlook hdst] at hstep
      obtain ⟨m₃, hset, hstep⟩ := bind_eq_some_iff.mp hstep
      obtain ⟨rfl, rfl⟩ := Prod.ext_iff.mp (some.inj hstep)
      exact ⟨rfl, hsize.trans (BitMatrix.set_sameSize hset)⟩)
    hloop ⟨rfl, rfl, rfl⟩
  have hsize := hsame.trans (BitMatrix.transitiveClosure_sameSize hclose)
  refine ⟨fun p => ?_, hsize.1, ?_⟩
  · dsimp only at heq ⊢
    rw [heq]
    exact lookup_numberedIndexes ord h p
  · dsimp only at hsize ⊢
    rw [hsize.2]
    exact Nat.mod_lt _ (by decide)

/-- With `65536` SCCs or more the order is wrong. -/
theorem Numbered.not_orderedByPaths {s' : SCCDAG V} (h : Numbered ord s s') (hg : SameGraph s s')
    (hclean : s.toDG.Clean) (hN : 65536 ≤ s.numNodes) : ¬ s'.OrderedByPaths := by
  intro hord
  have hnode : ∀ i < s.numNodes, i < 2 ^ 32 → ∃ n ∈ s'.allNodes,
      s'.sccIndexes.lookup n.theT = some i := by
    intro i hi hlt
    rw [← length_keysInOrder ord] at hi
    have hmem : (keysInOrder ord s)[i] ∈ keysInOrder ord s := getElem_mem hi
    obtain ⟨n, hn, hkey⟩ := (mem_keysInOrder ord).mp hmem
    refine ⟨n, by rw [hg.toDG_eq]; exact hn, ?_⟩
    rw [h.lookup_eq, hkey, if_pos hmem, (nodup_keysInOrder ord hclean).idxOf_getElem i hi,
      uint32_of_lt hlt]
  -- a pair of indices whose cell cannot be read
  have hbad : ∃ row col, row < s.numNodes ∧ row < 2 ^ 32 ∧ col < s.numNodes ∧ col < 2 ^ 32 ∧
      s'.ordered.test row col = none := by
    by_cases hlt : s.numNodes < 2 ^ 32
    · have hN' : s'.ordered.N = s.numNodes := h.N_eq.trans (uint32_of_lt hlt)
      obtain ⟨row, col, hrow, hcol, htest⟩ :=
        BitMatrix.exists_test_eq_none (by rw [hN']; exact hN) h.size_lt
      exact ⟨row, col, by omega, by omega, by omega, by omega, htest⟩
    · have hwrap : s'.ordered.N < 2 ^ 32 := by
        rw [h.N_eq]
        exact Nat.mod_lt _ (by decide)
      refine ⟨s'.ordered.N, 0, by omega, hwrap, by omega, by decide, ?_⟩
      rw [BitMatrix.test, BitMatrix.idx, if_neg (by omega)]
      rfl
  obtain ⟨row, col, hrow, hrow', hcol, hcol', htest⟩ := hbad
  obtain ⟨n, hn, hnrow⟩ := hnode row hrow hrow'
  obtain ⟨m, hm, hmcol⟩ := hnode col hcol hcol'
  obtain ⟨b, hb, _⟩ := hord n hn m hm
  unfold orderedBefore at hb
  split at hb
  · cases hb
  · simp [hnrow, hmcol, htest] at hb

/-- The matrix gets the edges, by the indices of their ends. -/
theorem setEdges_spec (h : s.toDG.Clean) (hN : s.numNodes < 65536)
    {map : AList fun _ : SccPtr => Nat} (hlook : ∀ p ∈ keysInOrder ord s, map.lookup p =
      some (uint32 ((keysInOrder ord s).idxOf p))) :
    ∃ m, (ord.visit s.allEdges.elems).foldlM
      (fun (st : (AList fun _ : SccPtr => Nat) × BitMatrix) sccEdge => do
        let (src, sccIndexes) := sccIndexOf st.1 sccEdge.getSrc
        let (dst, sccIndexes) := sccIndexOf sccIndexes sccEdge.getDst
        return (sccIndexes, ← BitMatrix.set st.2 src dst))
        (map, BitMatrix.new (uint32 s.numNodes)) = some (map, m) ∧
      m.Fits ∧ m.N = s.numNodes ∧
      ∀ i j, m.Related i j ↔ ∃ n k, s.Edge n k ∧ indexOf ord s n = i ∧ indexOf ord s k = j := by
  have hN' : uint32 s.numNodes = s.numNodes := uint32_of_lt (by omega)
  obtain ⟨⟨map', m⟩, hloop, hmap, hfits, hmN, hrel⟩ := foldlM_rule
    (fun (st : (AList fun _ : SccPtr => Nat) × BitMatrix) (sccEdge : DGEdge SccPtr) => do
      let (src, sccIndexes) := sccIndexOf st.1 sccEdge.getSrc
      let (dst, sccIndexes) := sccIndexOf sccIndexes sccEdge.getDst
      return (sccIndexes, ← BitMatrix.set st.2 src dst))
    (fun pre st => st.1 = map ∧ st.2.Fits ∧ st.2.N = s.numNodes ∧ ∀ i j, st.2.Related i j ↔
      ∃ e ∈ pre, indexOf ord s e.srcNode = i ∧ indexOf ord s e.dstNode = j)
    (l := ord.visit s.allEdges.elems) (s := (map, BitMatrix.new (uint32 s.numNodes)))
    ⟨rfl, BitMatrix.new_fits (by rw [hN']; exact hN), hN', fun i j => by simp⟩
    (by
      rintro pre e post ⟨map₁, m₁⟩ hsplit ⟨rfl, hfits, hmN, hrel⟩
      dsimp only at hfits hmN hrel hlook ⊢
      have he : e ∈ s.allEdges := by
        rw [← PtrSet.mem_elems, ← ord.mem_visit, hsplit]
        simp
      obtain ⟨hsrc, hdst⟩ := h.edge_nodes he
      have hlt : ∀ {n}, n ∈ s.allNodes → uint32 (indexOf ord s n) = indexOf ord s n ∧
          indexOf ord s n < m₁.N := fun hn =>
        have hn' := indexOf_lt ord hn
        ⟨uint32_of_lt (by omega), by omega⟩
      obtain ⟨m₂, hset, hfits₂, hN₂, hrel₂⟩ := hfits.set_spec (hlt hsrc).2 (hlt hdst).2
      refine ⟨(map₁, m₂), ?_, rfl, hfits₂, hN₂.trans hmN, fun i j => ?_⟩
      · simp only [DGEdge.getSrc, DGEdge.getDst, sccIndexOf_eq ord hlook hsrc,
          sccIndexOf_eq ord hlook hdst, (hlt hsrc).1, (hlt hdst).1, hset]
        rfl
      · rw [hrel₂, hrel]
        simp only [mem_append, mem_singleton, or_and_right, exists_or, exists_eq_left]
        exact or_congr_right ⟨fun hij => ⟨hij.1.symm, hij.2.symm⟩, fun hij => ⟨hij.1.symm, hij.2.symm⟩⟩)
  obtain rfl : map' = map := hmap
  refine ⟨m, hloop, hfits, hmN, fun i j => (hrel i j).trans ?_⟩
  constructor
  · rintro ⟨e, he, hi, hj⟩
    exact ⟨_, _, ⟨e, ord.mem_visit.mp he, rfl, rfl⟩, hi, hj⟩
  · rintro ⟨_, _, ⟨e, he, rfl, rfl⟩, hi, hj⟩
    exact ⟨e, ord.mem_visit.mpr he, hi, hj⟩

/-- With fewer than 65536 nodes the ordering step succeeds and orders the nodes
by the paths between them. -/
theorem computeReachability_spec (h : s.toDG.Clean) (hN : s.numNodes < 65536) :
    ∃ s', s.computeReachabilityAmongSCCs ord = some s' ∧ OrderedByPaths s' := by
  have hlook := fun p hp => lookup_numberedIndexes_of_mem ord h (p := p) hp
  obtain ⟨m, hloop, hfits, hmN, hrel⟩ := setEdges_spec ord h hN hlook
  obtain ⟨m', hclose, hfits', hmN', hrel'⟩ := hfits.transitiveClosure_spec
  refine ⟨{ s with orderedDirty := false, sccIndexes := numberedIndexes ord s, ordered := m' }, ?_, ?_⟩
  · unfold computeReachabilityAmongSCCs
    exact bind_eq_some_iff.mpr ⟨_, hloop, bind_eq_some_iff.mpr ⟨m', hclose, rfl⟩⟩
  · intro n hn k hk
    have hlt : ∀ {n}, n ∈ s.allNodes → indexOf ord s n < s.numNodes := fun hn => indexOf_lt ord hn
    have hget : ∀ {n}, n ∈ s.allNodes →
        (numberedIndexes ord s).lookup n.theT = some (indexOf ord s n) := by
      intro n hn
      rw [hlook _ ((mem_keysInOrder ord).mpr ⟨n, hn, rfl⟩)]
      exact congrArg some (uint32_of_lt (by have := hlt hn; rw [indexOf] at this; omega))
    refine ⟨decide (m'.Related (indexOf ord s n) (indexOf ord s k)), ?_, ?_⟩
    · have hrow : indexOf ord s n < m'.N := by rw [hmN', hmN]; exact hlt hn
      have hcol : indexOf ord s k < m'.N := by rw [hmN', hmN]; exact hlt hk
      simp [orderedBefore, hget hn, hget hk, hfits'.test_eq hrow hcol]
    · rw [decide_eq_true_eq, hrel']
      exact transGen_index_iff ord h hrel hn hk

end SCCDAG

end Noelle
