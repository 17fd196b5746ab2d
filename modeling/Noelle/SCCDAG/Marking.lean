import Noelle.SCCDAG.Invariant

/-!
# SCCDAG.Marking

`markEdgesAndSubEdges` links the nodes of an SCCDAG.

The loops visit pairs of a node and an external value of its SCC.  `Marking` is
their invariant, with the set `T` of pairs that are done: an edge that was cleared
holds the dependences of the pairs that are done and nothing else.  The lemmas
follow the body of the inner loop: find or create the edge, clear it, fill it.
-/

namespace Noelle

open Function PtrSet

namespace SCCDAG

variable {V : Type} [DecidableEq V]

/-! ## What the loops leave alone -/

/-- Only the edges and their attributes differ. -/
structure SameNodes (s₀ s : SCCDAG V) : Prop where
  sccs_eq : s.sccs = s₀.sccs
  nextScc_eq : s.nextScc = s₀.nextScc
  valueToSCCNode_eq : s.valueToSCCNode = s₀.valueToSCCNode
  ordered_eq : s.ordered = s₀.ordered
  orderedDirty_eq : s.orderedDirty = s₀.orderedDirty
  sccIndexes_eq : s.sccIndexes = s₀.sccIndexes
  allNodes_eq : s.allNodes = s₀.allNodes
  internalNodeMap_eq : s.internalNodeMap = s₀.internalNodeMap
  externalNodeMap_eq : s.externalNodeMap = s₀.externalNodeMap

namespace SameNodes

variable {s₀ s : SCCDAG V}

omit [DecidableEq V] in
theorem refl (s : SCCDAG V) : SameNodes s s := ⟨rfl, rfl, rfl, rfl, rfl, rfl, rfl, rfl, rfl⟩

section

variable (h : SameNodes s₀ s)

include h

omit [DecidableEq V] in
theorem isInternal_eq (p : SccPtr) : s.isInternal p = s₀.isInternal p := by
  rw [DG.isInternal, h.internalNodeMap_eq, DG.isInternal]

theorem holds_iff (n : DGNode SccPtr) (v : V) : s.Holds n v ↔ s₀.Holds n v := by
  rw [Holds, h.sccs_eq, Holds]

theorem depBetween_eq (D : Multiset (Dep V)) :
    s.DepBetween D = s₀.DepBetween D := by
  funext n m
  simp only [DepBetween, h.holds_iff]

theorem crosses_iff (n m : DGNode SccPtr) (x : DGEdge V) :
    s.Crosses n m x ↔ s₀.Crosses n m x := by
  rw [Crosses, h.sccs_eq, h.holds_iff, Crosses]

omit [DecidableEq V] in
theorem nodeStore_eq : s.nodeStore = s₀.nodeStore := by
  rw [nodeStore, h.sccs_eq, nodeStore]

theorem mapped {subLC : DGEdge V → Bool} {D : Multiset (Dep V)} {U : V → Prop}
    (h₀ : Mapped subLC D U s₀) (hclean : s.toDG.Clean) :
    Mapped subLC D U s where
  clean := hclean
  scc_lt := by rw [h.allNodes_eq, h.nextScc_eq]; exact h₀.scc_lt
  scc_self := by rw [h.allNodes_eq, h.sccs_eq]; exact h₀.scc_self
  represents := by rw [h.allNodes_eq, h.sccs_eq]; exact h₀.represents
  nonempty := by simp only [h.allNodes_eq, h.holds_iff]; exact h₀.nonempty
  holds_unique := by simp only [h.allNodes_eq, h.holds_iff]; exact h₀.holds_unique
  mem_values := by simp only [h.allNodes_eq, h.holds_iff]; exact h₀.mem_values
  dep_values := h₀.dep_values
  lookup_iff := by
    simp only [h.allNodes_eq, h.holds_iff, h.valueToSCCNode_eq]
    exact h₀.lookup_iff

end

end SameNodes

/-! ## The map from values to nodes -/

/-- Every value of the graph is mapped to its SCC. -/
theorem Partitioned.markValuesInSCC (ord : IterOrder) {subLC : DGEdge V → Bool}
    {D : Multiset (Dep V)} {U : V → Prop} {s : SCCDAG V} (h : Partitioned subLC D U s)
    (hD : ∀ d ∈ D, U d.src ∧ U d.dst) : Mapped subLC D U (s.markValuesInSCC ord) := by
  have hloop := foldl_rule (fun (map : AList fun _ : V => DGNode SccPtr) sccNode =>
      (ord.visit (s.sccs sccNode.theT).internalNodeMap.entries).foldl
        (fun map instPair => map.insert instPair.1 sccNode) map)
    (fun pre map => ∀ v n, map.lookup v = some n ↔ n ∈ pre ∧ s.Holds n v)
    (l := ord.visit s.allNodes.elems) (s := ∅) (fun v n => by simp)
    (by
      intro pre n post map hsplit hmap
      have hmem : ∀ k ∈ pre ++ [n], k ∈ s.allNodes := by
        intro k hk
        rw [← mem_elems, ← ord.mem_visit, hsplit]
        simp only [List.mem_append, List.mem_cons] at hk ⊢
        tauto
      have hinner := foldl_rule (fun (map : AList fun _ : V => DGNode SccPtr)
          (instPair : (_ : V) × Option (DGNode V)) => map.insert instPair.1 n)
        (fun pre' map' => ∀ v, map'.lookup v = if v ∈ pre'.map (·.1) then some n else map.lookup v)
        (l := ord.visit (s.sccs n.theT).internalNodeMap.entries) (s := map) (fun v => by simp)
        (by
          intro pre' pair post' map' _ hmap' v
          by_cases hv : v = pair.1
          · subst hv
            simp
          · rw [AList.lookup_insert_ne hv, hmap']
            refine if_congr ?_ rfl rfl
            simp [hv])
      have hkeys : ∀ v, v ∈ (ord.visit (s.sccs n.theT).internalNodeMap.entries).map (·.1) ↔
          s.Holds n v := by
        intro v
        rw [Holds, DG.isInternal_iff]
        constructor
        · intro hv
          obtain ⟨⟨w, p⟩, hp, rfl⟩ := List.mem_map.mp hv
          exact ⟨p, AList.mem_lookup_iff.mpr (ord.mem_visit.mp hp)⟩
        · rintro ⟨p, hp⟩
          exact List.mem_map.mpr ⟨⟨v, p⟩, ord.mem_visit.mpr (AList.mem_lookup_iff.mp hp), rfl⟩
      intro v k
      rw [hinner, List.mem_append, List.mem_singleton]
      by_cases hv : s.Holds n v
      · rw [if_pos ((hkeys v).mpr hv), Option.some.injEq]
        constructor
        · rintro rfl
          exact ⟨.inr rfl, hv⟩
        · -- no other node holds the value
          rintro ⟨hk, hkv⟩
          exact h.holds_unique n (hmem n (by simp)) k (hmem k (by simpa using hk)) v hv hkv
      · rw [if_neg fun hmem => hv ((hkeys v).mp hmem), hmap]
        constructor
        · exact fun hk => ⟨.inl hk.1, hk.2⟩
        · rintro ⟨hk | rfl, hkv⟩
          · exact ⟨hk, hkv⟩
          · exact absurd hkv hv)
  refine ⟨⟨h.clean, h.scc_lt, h.scc_self, h.represents, h.nonempty, h.holds_unique, h.mem_values⟩,
    hD, fun v n => ?_⟩
  refine (hloop v n).trans ?_
  rw [ord.mem_visit, mem_elems]
  exact Iff.rfl

/-! ## The invariant of the loops -/

/-- State of the loops of `markEdgesAndSubEdges`, started in `s₀`, when the pairs
in `T` are done. -/
structure Marking (D : Multiset (Dep V)) (s₀ : SCCDAG V) (T : DGNode SccPtr → V → Prop)
    (s : SCCDAG V) (clearedEdges : PtrSet (DGEdge SccPtr)) : Prop where
  same : SameNodes s₀ s
  clean : s.toDG.Clean
  edges : EdgesOk (s₀.DepBetween D) s.toDG
  cleared_mem : ∀ e ∈ clearedEdges, e ∈ s.allEdges
  uncleared : ∀ e ∈ s.allEdges, e ∉ clearedEdges → (s.edgeAttr e).removeSubEdges = {}
  exists_edge : ∀ n ∈ s₀.allNodes, ∀ m ∈ s₀.allNodes, n ≠ m → ∀ x, s₀.Crosses n m x →
    T n x.getDst → ∃ e ∈ clearedEdges, e.Joins n m
  mem_subEdges : ∀ e ∈ clearedEdges, ∀ x, x ∈ (s.edgeAttr e).getSubEdges ↔
    (s₀.Crosses e.srcNode e.dstNode x ∧ T e.srcNode x.getDst) ∨
      (s₀.Crosses e.dstNode e.srcNode x ∧ T e.dstNode x.getDst)
  isLoopCarried_iff : ∀ e ∈ clearedEdges, (s.edgeAttr e).isLoopCarried = true ↔
    ∃ x ∈ (s.edgeAttr e).getSubEdges, (s₀.nodeStore.edgeAttr x).isLoopCarried = true

namespace Marking

variable {subLC : DGEdge V → Bool} {D : Multiset (Dep V)} {U : V → Prop} {s₀ s : SCCDAG V}
  {T T' : DGNode SccPtr → V → Prop} {clearedEdges : PtrSet (DGEdge SccPtr)} {e : DGEdge SccPtr}
  {n m : DGNode SccPtr}

theorem edge_nodes (h : Marking D s₀ T s clearedEdges) (he : e ∈ s.allEdges) :
    e.srcNode ∈ s₀.allNodes ∧ e.dstNode ∈ s₀.allNodes := by
  rw [← h.same.allNodes_eq]
  exact h.clean.edge_nodes he

theorem congr (h : Marking D s₀ T s clearedEdges)
    (hT : ∀ n ∈ s₀.allNodes, ∀ m ∈ s₀.allNodes, n ≠ m → ∀ x, s₀.Crosses n m x →
      (T' n x.getDst ↔ T n x.getDst)) : Marking D s₀ T' s clearedEdges := by
  refine { h with exists_edge := fun n hn m hm hnm x hx hx' => ?_, mem_subEdges := fun e he x => ?_ }
  · exact h.exists_edge n hn m hm hnm x hx ((hT n hn m hm hnm x hx).mp hx')
  · have he' := h.cleared_mem e he
    obtain ⟨hs, hd⟩ := h.edge_nodes he'
    have hne := h.edges.irrefl e he'
    rw [h.mem_subEdges e he x]
    exact or_congr (and_congr_right fun hx => (hT _ hs _ hd hne x hx).symm)
      (and_congr_right fun hx => (hT _ hd _ hs hne.symm x hx).symm)

theorem mem_edgesBetween (h : Marking D s₀ T s clearedEdges) (hn : n ∈ s₀.allNodes) :
    e ∈ s.edgesBetween n m ↔ e ∈ s.allEdges ∧ e.Joins n m := by
  have hn' : n ∈ s.allNodes := h.same.allNodes_eq ▸ hn
  simp only [edgesBetween, mem_insertAll, mem_elems, mem_filter,
    decide_eq_true_eq, h.clean.mem_outgoing n hn', h.clean.mem_incoming n hn', DGEdge.Joins]
  tauto

/-- The edge between two dependent SCCs is found, or made if there is none. -/
theorem findOrAddEdge_spec (ord : IterOrder) (h : Marking D s₀ T s clearedEdges)
    (hn : n ∈ s₀.allNodes) (hm : m ∈ s₀.allNodes) (hnm : n ≠ m) (hdep : s₀.DepBetween D n m) :
    ∃ e s', s.findOrAddEdge ord n m = some (e, s') ∧ Marking D s₀ T s' clearedEdges ∧
      e ∈ s'.allEdges ∧ e.Joins n m := by
  cases hv : (ord.visit (s.edgesBetween n m).elems).head? with
  | some e =>
      have he : e ∈ s.edgesBetween n m := by
        rw [← mem_elems, ← ord.mem_visit]
        exact List.mem_of_head? hv
      obtain ⟨hmem, hjoins⟩ := (h.mem_edgesBetween hn).mp he
      exact ⟨e, s, by rw [findOrAddEdge, hv], h, hmem, hjoins⟩
  | none =>
      have hnone : ∀ e ∈ s.allEdges, ¬ e.Joins n m := by
        intro e he hjoins
        have hmem := (ord.mem_visit).mpr ((h.mem_edgesBetween hn).mpr ⟨he, hjoins⟩)
        rw [List.head?_eq_none_iff.mp hv] at hmem
        exact List.not_mem_nil hmem
      have hnodeOf : ∀ k ∈ s₀.allNodes, s.nodeOf k.theT = some k := fun k hk =>
        h.clean.mapped k (h.same.allNodes_eq ▸ hk)
      have hadd : s.findOrAddEdge ord n m =
          some (s.newEdge n m .undefinedDependence none,
            { s with toDG := (s.toDG.insertEdge n m .undefinedDependence none {}).2 }) := by
        rw [findOrAddEdge, hv]
        dsimp only
        rw [DG.addUndefinedDependenceEdge, DG.addDependenceEdge_eq (hnodeOf n hn) (hnodeOf m hm)]
        rfl
      refine ⟨_, _, hadd, ?_, (DG.mem_insertEdge_allEdges ..).mpr (.inl rfl), .inl ⟨rfl, rfl⟩⟩
      have hold : ∀ e ∈ s.allEdges,
          (s.toDG.insertEdge n m .undefinedDependence none {}).2.edgeAttr e = s.edgeAttr e :=
        fun e he => h.clean.toWF.insertEdge_edgeAttr he
      refine
        { same := { h.same with }
          clean := h.clean.insertEdge (hnodeOf n hn) (hnodeOf m hm)
          edges := ⟨fun e he => ?_, fun e he e' he' hjoins => ?_, fun e he => ?_⟩
          cleared_mem := fun e he => (DG.mem_insertEdge_allEdges ..).mpr (.inr (h.cleared_mem e he))
          uncleared := fun e he hc => ?_
          exists_edge := h.exists_edge
          mem_subEdges := fun e he => ?_
          isLoopCarried_iff := fun e he => ?_ }
      · rcases (DG.mem_insertEdge_allEdges ..).mp he with rfl | he
        · exact hnm
        · exact h.edges.irrefl e he
      · rcases (DG.mem_insertEdge_allEdges ..).mp he with rfl | he <;>
          rcases (DG.mem_insertEdge_allEdges ..).mp he' with rfl | he'
        · rfl
        · exact absurd (DGEdge.joins_ends _) fun hj => hnone e' he' (hj.joins hjoins)
        · exact absurd hjoins (hnone e he)
        · exact h.edges.unique e he e' he' hjoins
      · rcases (DG.mem_insertEdge_allEdges ..).mp he with rfl | he
        · exact hdep
        · exact h.edges.dep_of_edge e he
      · rcases (DG.mem_insertEdge_allEdges ..).mp he with rfl | he
        · rw [DG.insertEdge_edgeAttr_self]
          rfl
        · rw [hold e he]
          exact h.uncleared e he hc
      · rw [hold e (h.cleared_mem e he)]
        exact h.mem_subEdges e he
      · rw [hold e (h.cleared_mem e he)]
        exact h.isLoopCarried_iff e he

/-- The sub-edges of an edge are cleared once. -/
theorem clear (h : Marking D s₀ T s clearedEdges) (he : e ∈ s.allEdges) (hc : e ∉ clearedEdges) :
    Marking D s₀ T (s.removeSubEdges e) (clearedEdges.insert e) := by
  have hself : (s.removeSubEdges e).edgeAttr e = {} :=
    (update_self e _ s.edgeAttr).trans (h.uncleared e he hc)
  have hother : ∀ e', e' ≠ e → (s.removeSubEdges e).edgeAttr e' = s.edgeAttr e' :=
    fun e' hne => update_of_ne hne _ _
  obtain ⟨hs, hd⟩ := h.edge_nodes he
  -- the pairs of a joined pair of nodes would have cleared its edge
  have hnone : ∀ e' ∈ clearedEdges, ¬ e'.Joins e.srcNode e.dstNode := by
    intro e' he' hjoins
    exact hc (h.edges.unique e' (h.cleared_mem e' he') e he hjoins ▸ he')
  refine
    { same := { h.same with }
      clean := h.clean.setEdgeAttr _
      edges := ⟨h.edges.irrefl, h.edges.unique, h.edges.dep_of_edge⟩
      cleared_mem := fun e' he' => ?_
      uncleared := fun e' he' hc' => ?_
      exists_edge := fun n hn m hm hnm x hx hT => ?_
      mem_subEdges := fun e' he' x => ?_
      isLoopCarried_iff := fun e' he' => ?_ }
  · exact (mem_insert.mp he').elim (fun heq => heq ▸ he) (h.cleared_mem e')
  · have hne : e' ≠ e := fun heq => hc' (mem_insert.mpr (.inl heq))
    rw [hother e' hne]
    exact h.uncleared e' he' fun hmem => hc' (mem_insert.mpr (.inr hmem))
  · obtain ⟨e', he', hjoins⟩ := h.exists_edge n hn m hm hnm x hx hT
    exact ⟨e', mem_insert.mpr (.inr he'), hjoins⟩
  · by_cases hee : e' = e
    · subst hee
      rw [hself]
      constructor
      · exact fun hx => absurd hx (not_mem_empty x)
      · rintro (⟨hx, hT⟩ | ⟨hx, hT⟩)
        · obtain ⟨e₂, he₂, hj⟩ := h.exists_edge _ hs _ hd (h.edges.irrefl e' he) x hx hT
          exact absurd hj (hnone e₂ he₂)
        · obtain ⟨e₂, he₂, hj⟩ := h.exists_edge _ hd _ hs (h.edges.irrefl e' he).symm x hx hT
          exact absurd hj.symm (hnone e₂ he₂)
    · rw [hother e' hee]
      exact h.mem_subEdges e' ((mem_insert.mp he').resolve_left hee) x
  · by_cases hee : e' = e
    · subst hee
      rw [hself]
      exact ⟨nofun,
        fun ⟨x, hx, _⟩ => absurd hx (not_mem_empty x)⟩
    · rw [hother e' hee]
      exact h.isLoopCarried_iff e' ((mem_insert.mp he').resolve_left hee)

theorem foldl_addSubEdge (e : DGEdge SccPtr) : ∀ (l : List (DGEdge V)) (s : SCCDAG V),
    ∃ attr, l.foldl (fun s x => s.addSubEdge e x) s =
        { s with edgeAttr := update s.edgeAttr e attr } ∧
      (∀ x, x ∈ attr.getSubEdges ↔ x ∈ (s.edgeAttr e).getSubEdges ∨ x ∈ l) ∧
      (attr.isLoopCarried = true ↔ (s.edgeAttr e).isLoopCarried = true ∨
        ∃ x ∈ l, (s.nodeStore.edgeAttr x).isLoopCarried = true)
  | [], s => ⟨s.edgeAttr e, by simp, by simp, by simp⟩
  | y :: l, s => by
      obtain ⟨attr, heq, hmem, hflag⟩ := foldl_addSubEdge e l (s.addSubEdge e y)
      refine ⟨attr, ?_, fun x => ?_, ?_⟩
      · rw [List.foldl_cons, heq]
        simp [addSubEdge]
      · rw [hmem]
        simp only [addSubEdge, update_self, EdgeAttr.mem_getSubEdges_addSubEdge,
          List.mem_cons]
        tauto
      · have hstore : (s.addSubEdge e y).nodeStore = s.nodeStore := rfl
        rw [hflag, hstore]
        simp only [addSubEdge, update_self, EdgeAttr.addSubEdge, Bool.or_eq_true,
          List.mem_cons, exists_eq_or_imp, or_assoc]

/-- The sub-edges of one external value are put on its edge. -/
theorem fill (h : Marking D s₀ T s clearedEdges) (he : e ∈ clearedEdges) (hn : n ∈ s₀.allNodes)
    (hm : m ∈ s₀.allNodes) (hnm : n ≠ m) (hjoins : e.Joins n m)
    (huniq : ∀ k ∈ s₀.allNodes, ∀ v, s₀.Holds k v → s₀.Holds m v → k = m) {v : V}
    (hv : s₀.Holds m v) {l : List (DGEdge V)}
    (hl : ∀ x, x ∈ l ↔ x ∈ (s₀.sccs n.theT).allEdges ∧ x.getDst = v) :
    Marking D s₀ (fun k w => T k w ∨ (k = n ∧ w = v)) (l.foldl (fun s x => s.addSubEdge e x) s)
      clearedEdges := by
  obtain ⟨attr, heq, hmem, hflag⟩ := foldl_addSubEdge e l s
  have hcross : ∀ x, x ∈ l ↔ s₀.Crosses n m x ∧ x.getDst = v := by
    intro x
    rw [hl, Crosses]
    exact ⟨fun hx => ⟨⟨hx.1, hx.2 ▸ hv⟩, hx.2⟩, fun hx => ⟨hx.1.1, hx.2⟩⟩
  have hother : ∀ e', e' ≠ e → update s.edgeAttr e attr e' = s.edgeAttr e' :=
    fun e' hne => update_of_ne hne _ _
  rw [heq]
  refine
    { same := { h.same with }
      clean := h.clean.setEdgeAttr _
      edges := ⟨h.edges.irrefl, h.edges.unique, h.edges.dep_of_edge⟩
      cleared_mem := h.cleared_mem
      uncleared := fun e' he' hc' => ?_
      exists_edge := fun k hk k' hk' hkk x hx hT => ?_
      mem_subEdges := fun e' he' x => ?_
      isLoopCarried_iff := fun e' he' => ?_ }
  · dsimp only
    rw [hother e' fun heq => hc' (heq ▸ he)]
    exact h.uncleared e' he' hc'
  · rcases hT with hT | ⟨rfl, hxv⟩
    · exact h.exists_edge k hk k' hk' hkk x hx hT
    · -- the value decides the other node
      obtain rfl : k' = m := huniq k' hk' v (hxv ▸ hx.2) hv
      exact ⟨e, he, hjoins⟩
  · by_cases hee : e' = e
    · subst hee
      dsimp only
      rw [update_self, hmem, h.mem_subEdges e' he x, hcross]
      have hne : ∀ {k k' : DGNode SccPtr}, e'.srcNode = k → e'.dstNode = k' → k ≠ k' := by
        rintro _ _ rfl rfl
        exact h.edges.irrefl e' (h.cleared_mem e' he)
      rcases hjoins with ⟨h₁, h₂⟩ | ⟨h₁, h₂⟩
      · have hmn : m ≠ n := hnm.symm
        simp only [h₁, h₂, hmn, false_and, or_false, true_and]
        tauto
      · have hmn : m ≠ n := hnm.symm
        simp only [h₁, h₂, hmn, false_and, or_false, true_and]
        tauto
    · dsimp only
      rw [hother e' hee, h.mem_subEdges e' he' x]
      -- another edge joins other nodes
      have hno : ¬ e'.Joins n m := fun hj =>
        hee (h.edges.unique e' (h.cleared_mem e' he') e (h.cleared_mem e he) (hj.joins hjoins))
      obtain ⟨hs', hd'⟩ := h.edge_nodes (h.cleared_mem e' he')
      refine or_congr (and_congr_right fun hx => ?_) (and_congr_right fun hx => ?_)
      · refine (or_iff_left ?_).symm
        rintro ⟨hsn, hxv⟩
        exact hno (.inl ⟨hsn, huniq _ hd' v (hxv ▸ hx.2) hv⟩)
      · refine (or_iff_left ?_).symm
        rintro ⟨hdn, hxv⟩
        exact hno (.inr ⟨huniq _ hs' v (hxv ▸ hx.2) hv, hdn⟩)
  · by_cases hee : e' = e
    · subst hee
      dsimp only
      rw [update_self, hflag, h.isLoopCarried_iff e' he, h.same.nodeStore_eq]
      simp only [hmem, or_and_right, exists_or]
    · dsimp only
      rw [hother e' hee]
      exact h.isLoopCarried_iff e' he'

/-- The edge for one more external value is marked. -/
theorem markExternalNode_spec (ord : IterOrder) (h₀ : Mapped subLC D U s₀)
    (h : Marking D s₀ T s clearedEdges) (hn : n ∈ s₀.allNodes) {v : V} {p : Option (DGNode V)}
    (hp : ⟨v, p⟩ ∈ (s₀.sccs n.theT).externalNodeMap.entries) :
    ∃ s' clearedEdges', markExternalNode ord n (s, clearedEdges) ⟨v, p⟩ = some (s', clearedEdges') ∧
      Marking D s₀ (fun k w => T k w ∨ (k = n ∧ w = v)) s' clearedEdges' := by
  have hok := (h₀.represents n hn).ok
  have hlook : (s₀.sccs n.theT).externalNodeMap.lookup v = some p := AList.mem_lookup_iff.mpr hp
  have hext : (s₀.sccs n.theT).isExternal v = true := DG.isExternal_iff.mpr ⟨p, hlook⟩
  obtain ⟨stub, hstub, rfl, hstubv⟩ := hok.external_node v p hlook
  have hmapped : (s₀.sccs n.theT).nodeOf v = some stub := by
    have hint : (s₀.sccs n.theT).internalNodeMap.lookup v = none := by
      have := (((h₀.represents n hn).isExternal_iff v).mp hext).1
      simpa [DG.isInternal] using this
    rw [DG.nodeOf_eq, hint, hlook]
    rfl
  -- the edges that end in the stub are the edges that end in its value
  have hincoming : ∀ x, x ∈ ((s₀.sccs n.theT).incomingEdges stub).elems ↔
      x ∈ (s₀.sccs n.theT).allEdges ∧ x.getDst = v := by
    intro x
    rw [mem_elems, hok.mem_incoming stub hstub]
    refine and_congr_right fun hx => ⟨fun hd => ?_, fun hd => ?_⟩
    · rw [DGEdge.getDst, hd, hstubv]
    · have hx' := (hok.edge_mapped x hx).2
      rw [hd, hmapped] at hx'
      exact (Option.some.inj hx').symm
  simp only [markExternalNode, h.same.sccs_eq, h.same.valueToSCCNode_eq, Option.bind_eq_bind,
    Option.bind_some]
  by_cases hdeg : (s₀.sccs n.theT).inDegree stub = 0
  · rw [if_pos hdeg]
    have hnone : ∀ x ∈ (s₀.sccs n.theT).allEdges, x.getDst ≠ v := by
      intro x hx hxv
      have hmem := (hincoming x).mpr ⟨hx, hxv⟩
      rw [List.length_eq_zero_iff.mp hdeg] at hmem
      exact List.not_mem_nil hmem
    refine ⟨s, clearedEdges, rfl, h.congr fun k _ m _ _ x hx => or_iff_left ?_⟩
    rintro ⟨rfl, hxv⟩
    exact hnone x hx.1 hxv
  · rw [if_neg hdeg]
    obtain ⟨m, hm, hvm, hmv, hnm⟩ := h₀.node_of_external hn hext
    have hdep : s₀.DepBetween D n m := by
      obtain ⟨x, hx⟩ := List.exists_mem_of_ne_nil _ fun hnil => hdeg (List.length_eq_zero_iff.mpr hnil)
      obtain ⟨hx', hxv⟩ := (hincoming x).mp hx
      have hcross : s₀.Crosses n m x := ⟨hx', hxv ▸ hmv⟩
      exact ⟨_, (h₀.dep_of_edge hn hx').1, h₀.holds_src hn hm hnm hcross, hcross.2⟩
    have huniq : ∀ k ∈ s₀.allNodes, ∀ v, s₀.Holds k v → s₀.Holds m v → k = m :=
      fun k hk w hkw hmw => h₀.holds_unique k hk m hm w hkw hmw
    obtain ⟨e, s₁, hfind, h₁, he, hjoins⟩ := h.findOrAddEdge_spec ord hn hm hnm hdep
    have hlist : ∀ x, x ∈ ord.visit ((s₀.sccs n.theT).incomingEdges stub).elems ↔
        x ∈ (s₀.sccs n.theT).allEdges ∧ x.getDst = v := fun x => (ord.mem_visit).trans (hincoming x)
    rw [hvm, Option.bind_some, hfind, Option.bind_some]
    by_cases hc : e ∈ clearedEdges
    · refine ⟨_, _, ?_, h₁.fill hc hn hm hnm hjoins huniq hmv hlist⟩
      simp [hc]
    · refine ⟨_, _, ?_, (h₁.clear he hc).fill (mem_insert.mpr (.inl rfl)) hn hm hnm hjoins
        huniq hmv hlist⟩
      simp [hc]

end Marking

/-- `markEdgesAndSubEdges` succeeds and links the nodes, whatever edges there were
between nodes with a dependence. -/
theorem markEdgesAndSubEdges_spec (ord : IterOrder) {subLC : DGEdge V → Bool} {D : Multiset (Dep V)}
    {U : V → Prop} {s₀ : SCCDAG V} (h₀ : Mapped subLC D U s₀)
    (hedges : EdgesOk (s₀.DepBetween D) s₀.toDG)
    (hattr : ∀ e ∈ s₀.allEdges, (s₀.edgeAttr e).removeSubEdges = {}) :
    ∃ s, s₀.markEdgesAndSubEdges ord = some s ∧ Linked subLC D U s ∧ SameNodes s₀ s := by
  have hstart : Marking D s₀ (fun k _ => k ∈ ([] : List (DGNode SccPtr))) s₀ ∅ :=
    { same := .refl s₀
      clean := h₀.clean
      edges := hedges
      cleared_mem := fun e he => absurd he (not_mem_empty e)
      uncleared := fun e he _ => hattr e he
      exists_edge := nofun
      mem_subEdges := fun e he => absurd he (not_mem_empty e)
      isLoopCarried_iff := fun e he => absurd he (not_mem_empty e) }
  obtain ⟨⟨s, clearedEdges⟩, hloop, h⟩ := foldlM_rule
    (fun (st : SCCDAG V × PtrSet (DGEdge SccPtr)) outgoingSCCNode =>
      (ord.visit (st.1.sccs outgoingSCCNode.theT).externalNodeMap.entries).foldlM
        (markExternalNode ord outgoingSCCNode) st)
    (fun pre st => Marking D s₀ (fun k _ => k ∈ pre) st.1 st.2)
    (l := ord.visit s₀.allNodes.elems) (s := (s₀, ∅)) hstart
    (by
      rintro pre n post ⟨s, clearedEdges⟩ hsplit h
      have hn : n ∈ s₀.allNodes := by
        rw [← mem_elems, ← ord.mem_visit, hsplit]
        simp
      have hsccs := h.same.sccs_eq
      dsimp only at hsccs ⊢
      rw [hsccs]
      obtain ⟨⟨s', c'⟩, hinner, h'⟩ := foldlM_rule (markExternalNode ord n)
        (fun pre' st => Marking D s₀ (fun k w => k ∈ pre ∨ (k = n ∧ w ∈ pre'.map (·.1))) st.1 st.2)
        (l := ord.visit (s₀.sccs n.theT).externalNodeMap.entries) (s := (s, clearedEdges))
        (h.congr fun k _ m _ _ x _ => by simp)
        (by
          rintro pre' ⟨v, p⟩ post' ⟨s₁, c₁⟩ hsplit' h₁
          have hp : ⟨v, p⟩ ∈ (s₀.sccs n.theT).externalNodeMap.entries := by
            rw [← ord.mem_visit, hsplit']
            simp
          obtain ⟨s₂, c₂, hstep, h₂⟩ := h₁.markExternalNode_spec ord h₀ hn hp
          refine ⟨(s₂, c₂), hstep, h₂.congr fun k _ m _ _ x _ => ?_⟩
          simp only [List.map_append, List.map_cons, List.map_nil, List.mem_append,
            List.mem_singleton]
          tauto)
      refine ⟨(s', c'), hinner, h'.congr fun k hk m hm hkm x hx => ?_⟩
      rw [List.mem_append, List.mem_singleton]
      refine or_congr_right ⟨?_, And.left⟩
      -- an edge that leaves the SCC ends in one of its external values
      rintro rfl
      refine ⟨rfl, ?_⟩
      have hno : (s₀.sccs k.theT).isInternal x.getDst = false := by
        rw [Bool.eq_false_iff]
        exact fun hin => hkm (h₀.holds_unique k hk m hm _ hin hx.2)
      have hext : (s₀.sccs k.theT).isExternal x.getDst = true :=
        ((h₀.represents k hk).isExternal_iff _).mpr ⟨hno, _, (h₀.dep_of_edge hk hx.1).1,
          .inr ⟨rfl, h₀.holds_src hk hm hkm hx⟩⟩
      obtain ⟨p, hp⟩ := DG.isExternal_iff.mp hext
      exact List.mem_map.mpr ⟨⟨x.getDst, p⟩, ord.mem_visit.mpr (AList.mem_lookup_iff.mp hp), rfl⟩)
  refine ⟨s, by rw [markEdgesAndSubEdges, hloop]; rfl, ?_, h.same⟩
  have hdone : ∀ n ∈ s₀.allNodes, n ∈ ord.visit s₀.allNodes.elems := fun n hn =>
    ord.mem_visit.mpr hn
  -- a dependence between two nodes gave them an edge that was cleared
  have hjoined : ∀ n ∈ s₀.allNodes, ∀ m ∈ s₀.allNodes, n ≠ m → s₀.DepBetween D n m →
      ∃ e ∈ clearedEdges, e.Joins n m := by
    rintro n hn m hm hnm ⟨d, hd, hsrc, hdst⟩
    obtain ⟨x, hx, hxs, hxd⟩ := h₀.edge_of_dep hn hd (.inl hsrc)
    exact h.exists_edge n hn m hm hnm x ⟨hx, hxd ▸ hdst⟩ (hdone n hn)
  have hcleared : ∀ e ∈ s.allEdges, e ∈ clearedEdges := by
    intro e he
    obtain ⟨hs, hd⟩ := h.edge_nodes he
    obtain ⟨e', he', hj⟩ := hjoined _ hs _ hd (h.edges.irrefl e he) (h.edges.dep_of_edge e he)
    exact h.edges.unique e' (h.cleared_mem e' he') e he hj ▸ he'
  refine
    { toMapped := h.same.mapped h₀ h.clean
      edges := by rw [h.same.depBetween_eq]; exact h.edges
      exists_edge := fun n hn m hm hnm hdep => ?_
      mem_subEdges := fun e he x => ?_
      isLoopCarried_iff := fun e he => ?_ }
  · rw [h.same.allNodes_eq] at hn hm
    rw [h.same.depBetween_eq] at hdep
    obtain ⟨e, he, hj⟩ := hjoined n hn m hm hnm hdep
    exact ⟨e, h.cleared_mem e he, hj⟩
  · obtain ⟨hs, hd⟩ := h.edge_nodes he
    rw [h.mem_subEdges e (hcleared e he) x, h.same.crosses_iff, h.same.crosses_iff,
      and_iff_left (hdone _ hs), and_iff_left (hdone _ hd)]
  · rw [h.same.nodeStore_eq]
    exact h.isLoopCarried_iff e (hcleared e he)

end SCCDAG

end Noelle
