import Noelle.SCCDAG.MergeRuns

/-!
# SCCDAG.MergedNodes

The nodes of the SCC that a merge creates.

The constructor of an SCC compares values when it decides which nodes at the other
end of an edge are external, but it collects these nodes and not their values.  The
nodes of a merge come from several SCCs, each of which has its own copy of an external
value, and every copy becomes a node of the new SCC.
-/

namespace Noelle

open PtrSet Option

namespace DG

variable {T S : Type} [DecidableEq T]

theorem fetchNode_allNodes (g : DG T S) (t : T) : (g.fetchNode t).2.allNodes = g.allNodes := by
  unfold fetchNode
  cases g.internalNodeMap.lookup t with
  | some p => rfl
  | none => cases g.externalNodeMap.lookup t <;> rfl

theorem addDependenceEdge_allNodes {g g' : DG T S} {a b : T} {kind : DependenceKind}
    {t : Option DataDependenceType} {attr : EdgeAttr S} {e : DGEdge T}
    (h : g.addDependenceEdge a b kind t attr = some (e, g')) : g'.allNodes = g.allNodes := by
  unfold addDependenceEdge at h
  dsimp only at h
  split at h
  · obtain rfl := congrArg Prod.snd (some.inj h)
    rw [insertEdge_allNodes, fetchNode_allNodes, fetchNode_allNodes]
  · cases h

theorem copyAddEdge_allNodes [DecidableEq S] {g g' : DG T S} {subLC : S → Bool} {e e' : DGEdge T}
    {attr : EdgeAttr S} (h : g.copyAddEdge subLC e attr = some (e', g')) :
    g'.allNodes = g.allNodes := by
  unfold copyAddEdge at h
  split at h
  · cases h
  · exact addDependenceEdge_allNodes h

/-- The values of the nodes, each as often as it has nodes. -/
def nodeValues (g : DG T S) : Multiset T := (g.allNodes.elems : Multiset (DGNode T)).map DGNode.theT

omit [DecidableEq T] in
theorem nodeValues_nodup_iff (g : DG T S) :
    g.nodeValues.Nodup ↔ ∀ n ∈ g.allNodes, ∀ m ∈ g.allNodes, n.theT = m.theT → n = m := by
  rw [nodeValues, Multiset.map_coe, Multiset.coe_nodup, List.nodup_map_iff_inj_on g.allNodes.nodup]
  rfl

end DG

namespace SCC

variable {V : Type} [DecidableEq V] {subLC : DGEdge V → Bool} {store : NodeStore V} {g g' : SCC V}
  {nodes : PtrSet (DGNode V)}

/-- The nodes added have their values, once each. -/
theorem nodeValues_addNodes (ord : IterOrder) (inclusion : Bool)
    (hfresh : ∀ n ∈ g.allNodes, n.ID < g.nodeIdCounter) :
    (∀ n ∈ (addNodes ord inclusion nodes g).allNodes,
        n.ID < (addNodes ord inclusion nodes g).nodeIdCounter) ∧
      (addNodes ord inclusion nodes g).nodeValues =
        g.nodeValues + (nodes.elems : Multiset (DGNode V)).map DGNode.theT := by
  have hloop := foldl_rule (fun (g : SCC V) node => (g.addNode node.theT inclusion).2)
    (fun pre g' => (∀ n ∈ g'.allNodes, n.ID < g'.nodeIdCounter) ∧
      g'.nodeValues = g.nodeValues + (pre : Multiset (DGNode V)).map DGNode.theT)
    (l := ord.visit nodes.elems) (s := g) ⟨hfresh, by simp⟩
    (by
      rintro pre n post g' _ ⟨hlt, hvalues⟩
      refine ⟨fun m hm => ?_, ?_⟩
      · rcases (DG.mem_addNode_allNodes g' n.theT inclusion).mp hm with rfl | hm
        · exact Nat.lt_succ_self _
        · exact Nat.lt_succ_of_lt (hlt m hm)
      · have hnew : g'.newNode n.theT ∉ g'.allNodes := fun hm => lt_irrefl _ (hlt _ hm)
        have hcons : (g'.addNode n.theT inclusion).2.nodeValues = n.theT ::ₘ g'.nodeValues :=
          calc (g'.addNode n.theT inclusion).2.nodeValues
              = (g'.newNode n.theT ::ₘ (g'.allNodes.elems : Multiset (DGNode V))).map DGNode.theT :=
                congrArg _ (coe_insert_of_notMem hnew)
            _ = n.theT ::ₘ g'.nodeValues := Multiset.map_cons ..
        rw [hcons, hvalues, ← Multiset.coe_add, Multiset.map_add, ← add_assoc, Multiset.coe_singleton,
          Multiset.map_singleton, ← Multiset.singleton_add, add_comm])
  rwa [ord.coe_visit] at hloop

theorem copyEdgeUnless_allNodes {skip : SCC V → DGEdge V → Bool} {e : DGEdge V}
    (h : copyEdgeUnless subLC store skip g e = some g') : g'.allNodes = g.allNodes := by
  unfold copyEdgeUnless at h
  split at h
  · rw [some.inj h]
  · obtain ⟨p, hp, rfl⟩ := map_eq_some_iff.mp h
    exact DG.copyAddEdge_allNodes hp

theorem copyEdges_allNodes {skip : SCC V → DGEdge V → Bool} {l : List (DGEdge V)}
    (h : l.foldlM (copyEdgeUnless subLC store skip) g = some g') : g'.allNodes = g.allNodes :=
  foldlM_preserves _ (fun x => x.allNodes = g.allNodes) l g g'
    (fun _ _ _ _ hcopy heq => (copyEdgeUnless_allNodes hcopy).trans heq) h rfl

theorem nodeValues_new {ord : IterOrder} {self : Nat}
    (h : new ord subLC store self nodes = some g) :
    g.nodeValues = (nodes.elems : Multiset (DGNode V)).map DGNode.theT +
      ((externalNodesOf store nodes).elems : Multiset (DGNode V)).map DGNode.theT := by
  obtain ⟨entryNode, _, h⟩ := bind_eq_some_iff.mp h
  obtain ⟨g₁, h₁, h₂⟩ := bind_eq_some_iff.mp h
  set g₀ := addNodes ord false (externalNodesOf store nodes)
    (addNodes ord true nodes (DG.empty self : SCC V)) with hg₀
  have hinternal : g₁.allNodes = g₀.allNodes :=
    foldlM_preserves _ (fun x => x.allNodes = g₀.allNodes) _ _ g₁
      (fun _ _ _ _ hloop heq => (copyEdges_allNodes hloop).trans heq) h₁ rfl
  have hexternal : g.allNodes = g₀.allNodes := by
    refine foldlM_preserves _ (fun x => x.allNodes = g₀.allNodes) _ _ g
      (fun _ _ x x' hloop heq => ?_) h₂ hinternal
    obtain ⟨y, hout, hin⟩ := bind_eq_some_iff.mp hloop
    exact (copyEdges_allNodes hin).trans ((copyEdges_allNodes hout).trans heq)
  obtain ⟨hfresh, hvalues⟩ := @nodeValues_addNodes V _ (DG.empty self) nodes ord true
    fun n hn => absurd hn (not_mem_empty n)
  obtain ⟨_, hvalues'⟩ := @nodeValues_addNodes V _ _ (externalNodesOf store nodes) ord false hfresh
  have hempty : (DG.empty self : SCC V).nodeValues = 0 := rfl
  rw [DG.nodeValues, hexternal, ← DG.nodeValues, hg₀, hvalues', hvalues, hempty, zero_add]

end SCC

namespace SCCDAG

variable {V : Type} [DecidableEq V] {subLC : DGEdge V → Bool} {D : Multiset (Dep V)} {U : V → Prop}
  {s s' : SCCDAG V} {sccSet : PtrSet (DGNode SccPtr)}

/-! ## The SCC of a merge -/

variable {ord : IterOrder} {nodes : List (DGNode V)}

/-- Marking leaves the SCCs as they are. -/
theorem markExternalNode_sccs {n : DGNode SccPtr} {st st' : SCCDAG V × PtrSet (DGEdge SccPtr)}
    {stub : (_ : V) × Option (DGNode V)}
    (h : markExternalNode ord n st stub = some st') : st'.1.sccs = st.1.sccs := by
  obtain ⟨s, cleared⟩ := st
  obtain ⟨incomingNode, _, h⟩ := bind_eq_some_iff.mp h
  split at h
  · rw [← some.inj h]
  · obtain ⟨m, _, h⟩ := bind_eq_some_iff.mp h
    obtain ⟨⟨e, s₁⟩, hedge, h⟩ := bind_eq_some_iff.mp h
    have hsccs : s₁.sccs = s.sccs := by
      unfold findOrAddEdge at hedge
      split at hedge
      · exact congrArg (fun p => p.2.sccs) (some.inj hedge).symm
      · obtain ⟨p, _, hp⟩ := map_eq_some_iff.mp hedge
        exact congrArg (fun p => p.2.sccs) hp.symm
    have hadd : ∀ (l : List (DGEdge V)) (s₂ : SCCDAG V),
        (l.foldl (fun s edge => s.addSubEdge e edge) s₂).sccs = s₂.sccs := fun l s₂ =>
      foldl_rule (fun s edge => addSubEdge s e edge) (fun _ (x : SCCDAG V) => x.sccs = s₂.sccs) rfl
        fun _ _ _ _ _ heq => heq
    by_cases hcleared : e ∈ cleared
    · simp only [hcleared, if_true] at h
      rw [← some.inj h]
      exact (hadd _ _).trans hsccs
    · simp only [hcleared, if_false] at h
      rw [← some.inj h]
      exact (hadd _ _).trans hsccs

theorem markEdgesAndSubEdges_sccs (h : s.markEdgesAndSubEdges ord = some s') :
    s'.sccs = s.sccs := by
  obtain ⟨st, hst, rfl⟩ := map_eq_some_iff.mp h
  refine foldlM_preserves _ (fun x : SCCDAG V × PtrSet (DGEdge SccPtr) => x.1.sccs = s.sccs) _ _ st
    (fun n _ x x' hloop heq => ?_) hst rfl
  exact foldlM_preserves _ (fun y : SCCDAG V × PtrSet (DGEdge SccPtr) => y.1.sccs = s.sccs) _ _ x'
    (fun _ _ _ _ hmark heq => (markExternalNode_sccs hmark).trans heq) hloop heq

theorem mergeSCCs_scc (hsize : ¬ sccSet.size < 2)
    (h : s.mergeSCCs ord subLC sccSet = some s') : ∃ internalNodes,
      (sccSet.elems.flatMap fun k => (s.sccs k.theT).internalNodeMap.entries.map (·.2)).mapM id =
        some internalNodes ∧
      SCC.new ord subLC s.nodeStore s.nextScc (PtrSet.ofList internalNodes) =
        some (s'.sccs s.nextScc) := by
  rw [mergeSCCs, if_neg hsize] at h
  obtain ⟨internalNodes, hnodes, h⟩ := bind_eq_some_iff.mp h
  obtain ⟨scc, hscc, h⟩ := bind_eq_some_iff.mp h
  refine ⟨internalNodes, hnodes, hscc.trans (congrArg some ?_)⟩
  have hupdate : s'.sccs = Function.update s.sccs s.nextScc scc := markEdgesAndSubEdges_sccs h
  rw [hupdate, Function.update_self]

/-! ## External copies -/

/-- The value is external to the SCC of the node. -/
def Stubs (s : SCCDAG V) (n : DGNode SccPtr) (v : V) : Prop := (s.sccs n.theT).isExternal v = true

instance (s : SCCDAG V) (n : DGNode SccPtr) (v : V) : Decidable (s.Stubs n v) :=
  inferInstanceAs (Decidable (_ = true))

/-- Some SCC of the set has the value as an internal one. -/
def HeldBy (s : SCCDAG V) (sccSet : PtrSet (DGNode SccPtr)) (v : V) : Prop :=
  ∃ k ∈ sccSet, s.Holds k v

instance (s : SCCDAG V) (sccSet : PtrSet (DGNode SccPtr)) (v : V) : Decidable (s.HeldBy sccSet v) :=
  inferInstanceAs (Decidable (∃ k ∈ sccSet.elems, s.Holds k v))

/-- No value that stays outside a merge is external to two of the merged SCCs. -/
def NoSharedStub (s : SCCDAG V) (sccSet : PtrSet (DGNode SccPtr)) : Prop :=
  ∀ k ∈ sccSet, ∀ k' ∈ sccSet, k ≠ k' → ∀ v, s.Stubs k v → s.Stubs k' v → s.HeldBy sccSet v

section

variable (h : Partitioned subLC D U s) (hset : s.NodesOf sccSet)
  (hnodes : ∀ n, n ∈ nodes ↔ ∃ k ∈ sccSet, s.Holds k n.theT ∧ (s.sccs k.theT).nodeOf n.theT = some n)

include h hset hnodes

/-- The external nodes a merge finds are the external nodes of the merged SCCs whose
values stay outside. -/
theorem Partitioned.mem_stubs {x : DGNode V} :
    x ∈ SCC.externalNodesOf s.nodeStore (PtrSet.ofList nodes) ↔
      ∃ k ∈ sccSet, (s.sccs k.theT).nodeOf x.theT = some x ∧ s.Stubs k x.theT ∧
        ¬ s.HeldBy sccSet x.theT := by
  have hvalue : ∀ v, (∃ n ∈ PtrSet.ofList nodes, n.theT = v) ↔ s.HeldBy sccSet v := by
    intro v
    constructor
    · rintro ⟨n, hn, rfl⟩
      obtain ⟨k, hk, hv, _⟩ := (hnodes n).mp (mem_ofList.mp hn)
      exact ⟨k, hk, hv⟩
    · rintro ⟨k, hk, hv⟩
      obtain ⟨n, hn⟩ := (h.represents k (hset k hk)).ok.exists_nodeOf (DG.isInGraph_iff.mpr (.inl hv))
      obtain rfl := ((h.represents k (hset k hk)).ok.nodeOf_mem hn).2
      exact ⟨n, mem_ofList.mpr ((hnodes n).mpr ⟨k, hk, hv, hn⟩), rfl⟩
  -- the edges of an internal node are edges of its SCC
  have hstore : ∀ k ∈ sccSet, ∀ n, (s.sccs k.theT).nodeOf n.theT = some n →
      (∀ e, e ∈ s.nodeStore.outgoingEdges n ↔ e ∈ (s.sccs k.theT).allEdges ∧ e.srcNode = n) ∧
      ∀ e, e ∈ s.nodeStore.incomingEdges n ↔ e ∈ (s.sccs k.theT).allEdges ∧ e.dstNode = n := by
    intro k hk n hn
    have hok := (h.represents k (hset k hk)).ok
    have hmem := (hok.nodeOf_mem hn).1
    have howner : n.owner = k.theT := (hok.node_fresh n hmem).1.trans (h.scc_self k (hset k hk))
    refine ⟨fun e => ?_, fun e => ?_⟩
    · simp only [nodeStore, howner, hok.mem_outgoing n hmem]
    · simp only [nodeStore, howner, hok.mem_incoming n hmem]
  have hexternal : ∀ k ∈ sccSet, ∀ v, (s.sccs k.theT).isInGraph v = true → ¬ s.HeldBy sccSet v →
      s.Stubs k v := fun k hk v hin hno =>
    (DG.isInGraph_iff.mp hin).resolve_left fun hv => hno ⟨k, hk, hv⟩
  rw [SCC.mem_externalNodesOf]
  constructor
  · rintro ⟨n, hn, hends⟩
    obtain ⟨k, hk, _, hn'⟩ := (hnodes n).mp (mem_ofList.mp hn)
    have hok := (h.represents k (hset k hk)).ok
    rcases hends with ⟨e, he, hno, rfl⟩ | ⟨e, he, hno, rfl⟩
    · have he' := (((hstore k hk n hn').1 e).mp he).1
      rw [hvalue] at hno
      exact ⟨k, hk, (hok.edge_mapped e he').2, hexternal k hk _ (hok.edge_isInGraph he').2 hno, hno⟩
    · have he' := (((hstore k hk n hn').2 e).mp he).1
      rw [hvalue] at hno
      exact ⟨k, hk, (hok.edge_mapped e he').1, hexternal k hk _ (hok.edge_isInGraph he').1 hno, hno⟩
  · rintro ⟨k, hk, hx, hstub, hno⟩
    have hok := (h.represents k (hset k hk)).ok
    obtain ⟨_, d, hd, hends⟩ := ((h.represents k (hset k hk)).isExternal_iff _).mp hstub
    rcases hends with ⟨hsrc, hin⟩ | ⟨hdst, hin⟩
    · obtain ⟨e, he, hes, hed⟩ := h.edge_of_dep (hset k hk) hd (.inr hin)
      obtain ⟨hms, hmd⟩ := hok.edge_mapped e he
      have hedge : e.srcNode = x := by
        rw [hes, hsrc, hx] at hms
        exact (some.inj hms).symm
      refine ⟨e.dstNode, mem_ofList.mpr ((hnodes _).mpr ⟨k, hk, ?_, hmd⟩), .inr ⟨e, ?_, ?_, hedge⟩⟩
      · exact (congrArg (s.Holds k) hed).mpr hin
      · exact ((hstore k hk e.dstNode hmd).2 e).mpr ⟨he, rfl⟩
      · rw [hvalue, hes, hsrc]
        exact hno
    · obtain ⟨e, he, hes, hed⟩ := h.edge_of_dep (hset k hk) hd (.inl hin)
      obtain ⟨hms, hmd⟩ := hok.edge_mapped e he
      have hedge : e.dstNode = x := by
        rw [hed, hdst, hx] at hmd
        exact (some.inj hmd).symm
      refine ⟨e.srcNode, mem_ofList.mpr ((hnodes _).mpr ⟨k, hk, ?_, hms⟩), .inl ⟨e, ?_, ?_, hedge⟩⟩
      · exact (congrArg (s.Holds k) hes).mpr hin
      · exact ((hstore k hk e.srcNode hms).1 e).mpr ⟨he, rfl⟩
      · rw [hvalue, hed, hdst]
        exact hno

/-- The external nodes of a merge have different values iff no external value is shared. -/
theorem Partitioned.stubs_nodup_iff :
    (((SCC.externalNodesOf s.nodeStore (PtrSet.ofList nodes)).elems : Multiset (DGNode V)).map
      DGNode.theT).Nodup ↔ s.NoSharedStub sccSet := by
  have howner : ∀ k ∈ sccSet, ∀ x, (s.sccs k.theT).nodeOf x.theT = some x → x.owner = k.theT := by
    intro k hk x hx
    have hok := (h.represents k (hset k hk)).ok
    exact (hok.node_fresh x (hok.nodeOf_mem hx).1).1.trans (h.scc_self k (hset k hk))
  rw [Multiset.map_coe, Multiset.coe_nodup, List.nodup_map_iff_inj_on (PtrSet.nodup _)]
  constructor
  · intro hinj k hk k' hk' hne v hv hv'
    by_contra hno
    obtain ⟨x, hx⟩ := (h.represents k (hset k hk)).ok.exists_nodeOf (DG.isInGraph_iff.mpr (.inr hv))
    obtain ⟨y, hy⟩ :=
      (h.represents k' (hset k' hk')).ok.exists_nodeOf (DG.isInGraph_iff.mpr (.inr hv'))
    have hxv := ((h.represents k (hset k hk)).ok.nodeOf_mem hx).2
    have hyv := ((h.represents k' (hset k' hk')).ok.nodeOf_mem hy).2
    have hxy : x = y := hinj x ((h.mem_stubs hset hnodes).mpr ⟨k, hk, hxv ▸ hx, hxv ▸ hv, hxv ▸ hno⟩)
      y ((h.mem_stubs hset hnodes).mpr ⟨k', hk', hyv ▸ hy, hyv ▸ hv', hyv ▸ hno⟩) (hxv.trans hyv.symm)
    have hptr : k.theT = k'.theT := by
      rw [← howner k hk x (hxv ▸ hx), hxy, howner k' hk' y (hyv ▸ hy)]
    exact hne (h.clean.node_ext (hset k hk) (hset k' hk') hptr)
  · intro hno x hx y hy heq
    obtain ⟨k, hk, hxk, hstub, hout⟩ := (h.mem_stubs hset hnodes).mp hx
    obtain ⟨k', hk', hyk, hstub', _⟩ := (h.mem_stubs hset hnodes).mp hy
    by_cases hkk : k = k'
    · subst hkk
      rw [heq, hyk] at hxk
      exact (some.inj hxk).symm
    · exact absurd (hno k hk k' hk' hkk _ hstub (heq ▸ hstub')) hout

end

/-! ## Merges without duplicates -/

/-- The SCC has one node for each of its values, and one edge for each dependence
that touches a value of the merged SCCs. -/
structure MergedWithoutDuplicates (D : Multiset (Dep V)) (s : SCCDAG V)
    (sccSet : PtrSet (DGNode SccPtr)) (scc : SCC V) : Prop where
  isInternal_iff : ∀ v, scc.isInternal v = true ↔ s.HeldBy sccSet v
  isExternal_iff : ∀ v, scc.isExternal v = true ↔
    (∃ k ∈ sccSet, s.Stubs k v) ∧ ¬ s.HeldBy sccSet v
  node_value : ∀ n ∈ scc.allNodes, scc.isInGraph n.theT = true
  node_unique : ∀ v, scc.isInGraph v = true → ∃! n, n ∈ scc.allNodes ∧ n.theT = v
  deps_eq : scc.deps = D.filter fun d => s.HeldBy sccSet d.src ∨ s.HeldBy sccSet d.dst
  edge_nodes : ∀ e ∈ scc.allEdges, e.srcNode ∈ scc.allNodes ∧ e.dstNode ∈ scc.allNodes

theorem Linked.nodeValues_nodup_iff (h : Linked subLC D U s) (ord : IterOrder)
    (hset : s.NodesOf sccSet) (hsize : ¬ sccSet.size < 2)
    (hs' : s.mergeSCCs ord subLC sccSet = some s') :
    (s'.sccs s.nextScc).nodeValues.Nodup ↔ s.NoSharedStub sccSet := by
  obtain ⟨nodes, hnodes, hscc⟩ := mergeSCCs_scc hsize hs'
  obtain ⟨nodes', hnodes', hmem⟩ := h.internalNodes hset
  obtain rfl : nodes = nodes' := mem_unique hnodes hnodes'
  rw [SCC.nodeValues_new hscc, Multiset.nodup_add, ← h.stubs_nodup_iff hset hmem]
  have hinternal : (((PtrSet.ofList nodes).elems : Multiset (DGNode V)).map DGNode.theT).Nodup := by
    refine Multiset.coe_nodup.mpr ((PtrSet.ofList nodes).nodup.map_on fun n hn m hm heq => ?_)
    obtain ⟨k, hk, hkn, hkn'⟩ := (hmem n).mp (mem_ofList.mp hn)
    obtain ⟨j, hj, hjm, hjm'⟩ := (hmem m).mp (mem_ofList.mp hm)
    obtain rfl := h.holds_unique k (hset k hk) j (hset j hj) _ hkn (heq ▸ hjm)
    rw [heq, hjm'] at hkn'
    exact (some.inj hkn').symm
  refine ⟨fun hnodup => hnodup.2.1, fun hnodup => ⟨hinternal, hnodup, ?_⟩⟩
  refine Multiset.disjoint_left.mpr fun hv hv' => ?_
  obtain ⟨n, hn, rfl⟩ := Multiset.mem_map.mp hv
  obtain ⟨x, hx, hxn⟩ := Multiset.mem_map.mp hv'
  obtain ⟨k, hk, hkn, _⟩ := (hmem n).mp (mem_ofList.mp (Multiset.mem_coe.mp hn))
  obtain ⟨_, _, _, _, hno⟩ := (h.mem_stubs hset hmem).mp (Multiset.mem_coe.mp hx)
  exact hno ⟨k, hk, hxn ▸ hkn⟩

theorem Linked.merged_node_value (h : Linked subLC D U s) (ord : IterOrder)
    (hset : s.NodesOf sccSet) (hsize : ¬ sccSet.size < 2)
    (hs' : s.mergeSCCs ord subLC sccSet = some s') {n : DGNode V}
    (hn : n ∈ (s'.sccs s.nextScc).allNodes) :
    s.HeldBy sccSet n.theT ∨ (∃ k ∈ sccSet, s.Stubs k n.theT) ∧ ¬ s.HeldBy sccSet n.theT := by
  obtain ⟨nodes, hnodes, hscc⟩ := mergeSCCs_scc hsize hs'
  obtain ⟨nodes', hnodes', hmem⟩ := h.internalNodes hset
  obtain rfl : nodes = nodes' := mem_unique hnodes hnodes'
  have hvalue : n.theT ∈ (s'.sccs s.nextScc).nodeValues :=
    Multiset.mem_map_of_mem _ (Multiset.mem_coe.mpr hn)
  rw [SCC.nodeValues_new hscc, Multiset.mem_add] at hvalue
  rcases hvalue with hvalue | hvalue
  · obtain ⟨m, hm, heq⟩ := Multiset.mem_map.mp hvalue
    obtain ⟨k, hk, hv, _⟩ := (hmem m).mp (mem_ofList.mp (Multiset.mem_coe.mp hm))
    exact .inl ⟨k, hk, heq ▸ hv⟩
  · obtain ⟨x, hx, heq⟩ := Multiset.mem_map.mp hvalue
    obtain ⟨k, hk, _, hstub, hno⟩ := (h.mem_stubs hset hmem).mp (Multiset.mem_coe.mp hx)
    exact .inr ⟨⟨k, hk, heq ▸ hstub⟩, heq ▸ hno⟩

/-- No value is duplicated unless two merged SCCs share an external one. -/
theorem Linked.mergeSCCs_withoutDuplicates_iff (h : Linked subLC D U s) (ord : IterOrder)
    (hset : s.NodesOf sccSet) (hsize : ¬ sccSet.size < 2) :
    (∃ s', s.mergeSCCs ord subLC sccSet = some s' ∧
      MergedWithoutDuplicates D s sccSet (s'.sccs s.nextScc)) ↔ s.NoSharedStub sccSet := by
  obtain ⟨s', new, hs', h', hm⟩ := h.mergeSCCs_spec ord hset hsize
  have hrep := h'.represents new ((hm.allNodes_iff new).mpr (.inl rfl))
  have hholds := hm.holds_new
  simp only [Holds, hm.new_theT] at hrep hholds
  set scc := s'.sccs s.nextScc with hscc
  have hinternal : ∀ v, scc.isInternal v = true ↔ s.HeldBy sccSet v := hholds
  have hno : ∀ v, scc.isInternal v = false ↔ ¬ s.HeldBy sccSet v := fun v => by
    rw [← hinternal, Bool.not_eq_true]
  -- a value is external if it stays outside and has a dependence with a merged one
  have hexternal : ∀ v, scc.isExternal v = true ↔
      (∃ k ∈ sccSet, s.Stubs k v) ∧ ¬ s.HeldBy sccSet v := by
    intro v
    rw [hrep.isExternal_iff, hno, and_comm]
    refine and_congr_left fun hout => ?_
    simp only [hinternal]
    constructor
    · rintro ⟨d, hd, ⟨hsrc, k, hk, hkv⟩ | ⟨hdst, k, hk, hkv⟩⟩
      · exact ⟨k, hk, ((h.represents k (hset k hk)).isExternal_iff v).mpr
          ⟨Bool.not_eq_true _ ▸ fun hv => hout ⟨k, hk, hv⟩, d, hd, .inl ⟨hsrc, hkv⟩⟩⟩
      · exact ⟨k, hk, ((h.represents k (hset k hk)).isExternal_iff v).mpr
          ⟨Bool.not_eq_true _ ▸ fun hv => hout ⟨k, hk, hv⟩, d, hd, .inr ⟨hdst, hkv⟩⟩⟩
    · rintro ⟨k, hk, hstub⟩
      obtain ⟨_, d, hd, hends⟩ := ((h.represents k (hset k hk)).isExternal_iff v).mp hstub
      exact ⟨d, hd, hends.imp (fun he => ⟨he.1, k, hk, he.2⟩) fun he => ⟨he.1, k, hk, he.2⟩⟩
  rw [← h.nodeValues_nodup_iff ord hset hsize hs', DG.nodeValues_nodup_iff]
  constructor
  · rintro ⟨s₁, hs₁, hmerged⟩ n hn m hm' heq
    obtain rfl : s₁ = s' := mem_unique hs₁ hs'
    exact (hmerged.node_unique m.theT (hmerged.node_value m hm')).unique ⟨hn, heq⟩ ⟨hm', rfl⟩
  · intro hunique
    refine ⟨s', hs', hinternal, hexternal, fun n hn => ?_, fun v hv => ?_, ?_, fun e he => ?_⟩
    · rw [DG.isInGraph_iff, hinternal, hexternal]
      exact h.merged_node_value ord hset hsize hs' hn
    · obtain ⟨n, hn⟩ := hrep.ok.exists_nodeOf hv
      have hnode := hrep.ok.nodeOf_mem hn
      exact ⟨n, hnode, fun m hm' => hunique m hm'.1 n hnode.1 (hm'.2.trans hnode.2.symm)⟩
    · rw [hrep.deps_eq]
      exact Multiset.filter_congr fun d _ => or_congr (hinternal d.src) (hinternal d.dst)
    · obtain ⟨hsrc, hdst⟩ := hrep.ok.edge_mapped e he
      exact ⟨(hrep.ok.nodeOf_mem hsrc).1, (hrep.ok.nodeOf_mem hdst).1⟩

theorem BuiltFrom.linked_of_merges {pdg : PDG V} {it : SccIterator} {self : Nat} {s₀ : SCCDAG V}
    {merges : List (PtrSet (DGNode SccPtr))} (hpdg : PDG.Proper subLC pdg)
    (hs₀ : BuiltFrom ord it subLC pdg self s₀)
    (hmerges : Calls (mergeSCCs ord subLC) NodesOf s₀ merges)
    (hs : merges.foldlM (mergeSCCs ord subLC) s₀ = some s) :
    Linked subLC pdg.deps pdg.HasValue s := by
  obtain ⟨s₁, hs₁, hg⟩ := hs₀
  obtain ⟨s₂, hs₂, hbuilt⟩ := buildGraph_spec ord it hpdg self
  obtain rfl : s₁ = s₂ := mem_unique hs₁ hs₂
  obtain ⟨s', hs', h⟩ := foldlM_of_calls (J := fun s _ => Linked subLC pdg.deps pdg.HasValue s)
    (fun s sccSet _ h hset => by
      by_cases hsize : sccSet.size < 2
      · exact ⟨s, mergeSCCs_of_size_lt ord subLC hsize, h⟩
      · obtain ⟨s', _, hs', h', _⟩ := h.mergeSCCs_spec ord hset hsize
        exact ⟨s', hs', h'⟩) (hg.linked hbuilt.toLinked) hmerges
  exact mem_unique hs' hs ▸ h

/-- **Merging without duplicates**: after any merges of the SCCDAG of a PDG, the next
merge builds an SCC with one node for each value and one edge for each dependence if
and only if no value that stays outside is external to two of the merged SCCs. -/
theorem mergedWithoutDuplicates_iff {pdg : PDG V} (ord : IterOrder) (it : SccIterator) {self : Nat}
    {s₀ : SCCDAG V} {merges : List (PtrSet (DGNode SccPtr))} (hpdg : PDG.Proper subLC pdg)
    (hs₀ : BuiltFrom ord it subLC pdg self s₀)
    (hmerges : Calls (mergeSCCs ord subLC) NodesOf s₀ merges)
    (hs : merges.foldlM (mergeSCCs ord subLC) s₀ = some s)
    (hset : s.NodesOf sccSet) (hsize : 2 ≤ sccSet.size) :
    (∃ s', s.mergeSCCs ord subLC sccSet = some s' ∧
      MergedWithoutDuplicates pdg.deps s sccSet (s'.sccs s.nextScc)) ↔ s.NoSharedStub sccSet :=
  (hs₀.linked_of_merges hpdg hmerges hs).mergeSCCs_withoutDuplicates_iff ord hset
    (Nat.not_lt.mpr hsize)

theorem chainEnds_sharedStub :
    (buildGraph .stored .saturating (fun _ => false) chainPdg 0).any (fun s =>
      decide (s.NodesOf chainEnds ∧ ∃ k ∈ chainEnds.elems, ∃ k' ∈ chainEnds.elems,
        k ≠ k' ∧ s.Stubs k 2 ∧ s.Stubs k' 2 ∧ ¬ s.HeldBy chainEnds 2)) = true := by
  decide +kernel

/-- Merging the ends of the chain gives the middle one two nodes. -/
theorem merge_chainEnds_duplicates : ∃ s s',
    buildGraph .stored .saturating (fun _ => false) chainPdg 0 = some s ∧
      s.NodesOf chainEnds ∧ 2 ≤ chainEnds.size ∧
      s.mergeSCCs .stored (fun _ => false) chainEnds = some s' ∧
      ¬ MergedWithoutDuplicates chainPdg.deps s chainEnds (s'.sccs s.nextScc) := by
  obtain ⟨s, hs, h⟩ := buildGraph_spec .stored .saturating chainPdg_proper 0
  have hcheck := chainEnds_sharedStub
  rw [hs, any_some, decide_eq_true_eq] at hcheck
  obtain ⟨hset, k, hk, k', hk', hne, hstub, hstub', hno⟩ := hcheck
  obtain ⟨s', _, hs', _⟩ := h.mergeSCCs_spec .stored hset (by decide)
  refine ⟨s, s', hs, hset, by decide, hs', fun hmerged => hno ?_⟩
  exact (h.mergeSCCs_withoutDuplicates_iff .stored hset (by decide)).mp ⟨s', hs', hmerged⟩ k hk k' hk'
    hne 2 hstub hstub'

theorem mergedWithoutDuplicates_chainStart : ∃ s,
    buildGraph .stored .saturating (fun _ => false) chainPdg 0 = some s ∧
      ((∃ s', s.mergeSCCs .stored (fun _ => false) chainStart = some s' ∧
        MergedWithoutDuplicates chainPdg.deps s chainStart (s'.sccs s.nextScc)) ↔
          s.NoSharedStub chainStart) := by
  obtain ⟨s, hs, _⟩ := buildGraph_spec .stored .saturating chainPdg_proper 0
  have hcheck : (buildGraph .stored .saturating (fun _ => false) chainPdg 0).any
      (fun s => decide (s.NodesOf chainStart)) = true := by decide +kernel
  rw [hs, any_some, decide_eq_true_eq] at hcheck
  have hnone : Calls (mergeSCCs .stored fun _ => false) NodesOf s [] := trivial
  exact ⟨s, hs, mergedWithoutDuplicates_iff .stored .saturating chainPdg_proper
    ⟨s, hs, .refl s⟩ hnone rfl hcheck (by decide)⟩

end SCCDAG

end Noelle
