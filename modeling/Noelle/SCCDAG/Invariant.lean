import Noelle.DG.Removal
import Noelle.SCC.Spec
import Noelle.SCCDAG.Basic

/-!
# SCCDAG.Invariant

What holds of an SCCDAG between its operations.

`D` is the multiset of dependences and `U` the set of values of the PDG the
SCCDAG was built from.  `Partitioned` is about the nodes: each is an SCC that
represents the dependences of its values, and the values of the nodes partition
`U`.  `Linked` adds the map from values to nodes and the edges.

`markEdgesAndSubEdges` looks for an edge in either direction before it adds one,
so the invariant of the edges is about unordered pairs: two nodes are joined by
at most one edge, and that edge holds the dependences of both directions.
-/

namespace Noelle

/-- The edge joins the two nodes, in one direction or the other. -/
def DGEdge.Joins {T : Type} (e : DGEdge T) (n m : DGNode T) : Prop :=
  (e.srcNode = n ∧ e.dstNode = m) ∨ (e.srcNode = m ∧ e.dstNode = n)

theorem DGEdge.Joins.symm {T : Type} {e : DGEdge T} {n m : DGNode T} (h : e.Joins n m) :
    e.Joins m n := Or.symm h

theorem DGEdge.joins_ends {T : Type} (e : DGEdge T) : e.Joins e.srcNode e.dstNode :=
  .inl ⟨rfl, rfl⟩

theorem DGEdge.Joins.joins {T : Type} {e e' : DGEdge T} {n m : DGNode T} (h : e.Joins n m)
    (h' : e'.Joins n m) : e.Joins e'.srcNode e'.dstNode := by
  rcases h with ⟨rfl, rfl⟩ | ⟨rfl, rfl⟩ <;> rcases h' with ⟨h₁, h₂⟩ | ⟨h₁, h₂⟩ <;>
    simp [DGEdge.Joins, h₁, h₂]

namespace SCCDAG

variable {V : Type} [DecidableEq V]

/-! ## Nodes -/

def Holds (s : SCCDAG V) (n : DGNode SccPtr) (v : V) : Prop := (s.sccs n.theT).isInternal v = true

instance (s : SCCDAG V) (n : DGNode SccPtr) (v : V) : Decidable (s.Holds n v) :=
  inferInstanceAs (Decidable (_ = true))

/-- Some dependence goes from a value of `n` to a value of `m`. -/
def DepBetween (D : Multiset (Dep V)) (s : SCCDAG V) (n m : DGNode SccPtr) : Prop :=
  ∃ d ∈ D, s.Holds n d.src ∧ s.Holds m d.dst

/-- The nodes are SCCs whose values partition `U`. -/
structure Partitioned (subLC : DGEdge V → Bool) (D : Multiset (Dep V)) (U : V → Prop)
    (s : SCCDAG V) : Prop where
  clean : s.toDG.Clean
  scc_lt : ∀ n ∈ s.allNodes, n.theT < s.nextScc
  scc_self : ∀ n ∈ s.allNodes, (s.sccs n.theT).self = n.theT
  represents : ∀ n ∈ s.allNodes, SCC.Represents subLC D (s.sccs n.theT)
  nonempty : ∀ n ∈ s.allNodes, ∃ v, s.Holds n v
  holds_unique : ∀ n ∈ s.allNodes, ∀ m ∈ s.allNodes, ∀ v, s.Holds n v → s.Holds m v → n = m
  mem_values : ∀ v, U v ↔ ∃ n ∈ s.allNodes, s.Holds n v

/-- The dependences are between values of the nodes, and the map from values to
nodes is up to date. -/
structure Mapped (subLC : DGEdge V → Bool) (D : Multiset (Dep V)) (U : V → Prop)
    (s : SCCDAG V) : Prop extends Partitioned subLC D U s where
  dep_values : ∀ d ∈ D, U d.src ∧ U d.dst
  lookup_iff : ∀ v n, s.valueToSCCNode.lookup v = some n ↔ n ∈ s.allNodes ∧ s.Holds n v

section Partitioned

variable {subLC : DGEdge V → Bool} {D : Multiset (Dep V)} {U : V → Prop} {s : SCCDAG V}
  {n m : DGNode SccPtr} {v : V}
variable {x : DGEdge V}

section

variable (h : Partitioned subLC D U s) (hn : n ∈ s.allNodes) (hx : x ∈ (s.sccs n.theT).allEdges)

include h hn hx

theorem Partitioned.edge_owner : x.owner = n.theT :=
  ((h.represents n hn).ok.edge_fresh x hx).1.trans (h.scc_self n hn)

theorem Partitioned.nodeStore_edgeAttr :
    s.nodeStore.edgeAttr x = (s.sccs n.theT).edgeAttr x := by
  change (s.sccs x.owner).edgeAttr x = _
  rw [h.edge_owner hn hx]

theorem Partitioned.nodeStore_dep :
    x.dep s.nodeStore.edgeAttr = x.dep (s.sccs n.theT).edgeAttr := by
  rw [DGEdge.dep, DGEdge.dep, h.nodeStore_edgeAttr hn hx]

theorem Partitioned.dep_of_edge :
    x.dep s.nodeStore.edgeAttr ∈ D ∧ (s.Holds n x.getSrc ∨ s.Holds n x.getDst) := by
  have hmem : x.dep (s.sccs n.theT).edgeAttr ∈ (s.sccs n.theT).deps :=
    Multiset.mem_map_of_mem _ (Multiset.mem_coe.mpr hx)
  rw [(h.represents n hn).deps_eq] at hmem
  rw [h.nodeStore_dep hn hx]
  exact Multiset.mem_filter.mp hmem

end

theorem Partitioned.edge_of_dep (h : Partitioned subLC D U s) (hn : n ∈ s.allNodes) {d : Dep V}
    (hd : d ∈ D) (ht : s.Holds n d.src ∨ s.Holds n d.dst) :
    ∃ x ∈ (s.sccs n.theT).allEdges, x.getSrc = d.src ∧ x.getDst = d.dst := by
  have hmem : d ∈ (s.sccs n.theT).deps := by
    rw [(h.represents n hn).deps_eq]
    exact Multiset.mem_filter.mpr ⟨hd, ht⟩
  obtain ⟨x, hx, rfl⟩ := Multiset.mem_map.mp hmem
  exact ⟨x, Multiset.mem_coe.mp hx, rfl, rfl⟩

/-- The edges of the SCC of `n` that end in a value of `m`. -/
def Crosses (s : SCCDAG V) (n m : DGNode SccPtr) (x : DGEdge V) : Prop :=
  x ∈ (s.sccs n.theT).allEdges ∧ s.Holds m x.getDst

theorem Partitioned.holds_src (h : Partitioned subLC D U s) (hn : n ∈ s.allNodes)
    (hm : m ∈ s.allNodes) (hnm : n ≠ m) (hx : s.Crosses n m x) :
    s.Holds n x.getSrc := by
  refine (h.dep_of_edge hn hx.1).2.resolve_right fun hdst => hnm ?_
  exact h.holds_unique n hn m hm _ hdst hx.2

/-- Replacing some nodes by a new one keeps the partition, if the new SCC has
none of the values of the nodes that stay. -/
theorem Partitioned.replace (h : Partitioned subLC D U s) {U' : V → Prop} {s' : SCCDAG V}
    {R : DGNode SccPtr → Prop} {scc : SCC V} {new : DGNode SccPtr} (hclean : s'.toDG.Clean)
    (hsccs : s'.sccs = Function.update s.sccs s.nextScc scc) (hnext : s'.nextScc = s.nextScc + 1)
    (hnew : new.theT = s.nextScc)
    (hnodes : ∀ n, n ∈ s'.allNodes ↔ n = new ∨ (n ∈ s.allNodes ∧ ¬ R n))
    (hself : scc.self = s.nextScc) (hrep : SCC.Represents subLC D scc)
    (hne : ∃ v, scc.isInternal v = true)
    (hR : ∀ v, scc.isInternal v = true → ∀ n ∈ s.allNodes, s.Holds n v → R n)
    (hU : ∀ v, U' v ↔ scc.isInternal v = true ∨ ∃ n ∈ s.allNodes, ¬ R n ∧ s.Holds n v) :
    Partitioned subLC D U' s' := by
  have hsccNew : s'.sccs new.theT = scc := by rw [hsccs, hnew, Function.update_self]
  have hsccOld : ∀ n ∈ s.allNodes, s'.sccs n.theT = s.sccs n.theT := fun n hn => by
    rw [hsccs, Function.update_of_ne (Nat.ne_of_lt (h.scc_lt n hn))]
  have hholdsNew : ∀ v, s'.Holds new v ↔ scc.isInternal v = true := fun v => by
    rw [Holds, hsccNew]
  have hholdsOld : ∀ n ∈ s.allNodes, ∀ v, s'.Holds n v ↔ s.Holds n v := fun n hn v => by
    rw [Holds, hsccOld n hn, Holds]
  refine ⟨hclean, fun n hn => ?_, fun n hn => ?_, fun n hn => ?_, fun n hn => ?_,
    fun n hn m hm v hnv hmv => ?_, fun v => ?_⟩
  · rw [hnext]
    rcases (hnodes n).mp hn with rfl | ⟨hn, _⟩
    · rw [hnew]
      exact Nat.lt_succ_self _
    · exact Nat.lt_succ_of_lt (h.scc_lt n hn)
  · rcases (hnodes n).mp hn with rfl | ⟨hn, _⟩
    · rw [hsccNew, hself, hnew]
    · rw [hsccOld n hn]
      exact h.scc_self n hn
  · rcases (hnodes n).mp hn with rfl | ⟨hn, _⟩
    · rw [hsccNew]
      exact hrep
    · rw [hsccOld n hn]
      exact h.represents n hn
  · rcases (hnodes n).mp hn with rfl | ⟨hn, _⟩
    · exact hne.imp fun v hv => (hholdsNew v).mpr hv
    · exact (h.nonempty n hn).imp fun v hv => (hholdsOld n hn v).mpr hv
  · rcases (hnodes n).mp hn with rfl | ⟨hn, hnR⟩ <;> rcases (hnodes m).mp hm with rfl | ⟨hm, hmR⟩
    · rfl
    · exact absurd (hR v ((hholdsNew v).mp hnv) m hm ((hholdsOld m hm v).mp hmv)) hmR
    · exact absurd (hR v ((hholdsNew v).mp hmv) n hn ((hholdsOld n hn v).mp hnv)) hnR
    · exact h.holds_unique n hn m hm v ((hholdsOld n hn v).mp hnv) ((hholdsOld m hm v).mp hmv)
  · rw [hU]
    constructor
    · rintro (hv | ⟨n, hn, hnR, hv⟩)
      · exact ⟨new, (hnodes new).mpr (.inl rfl), (hholdsNew v).mpr hv⟩
      · exact ⟨n, (hnodes n).mpr (.inr ⟨hn, hnR⟩), (hholdsOld n hn v).mpr hv⟩
    · rintro ⟨n, hn, hv⟩
      rcases (hnodes n).mp hn with rfl | ⟨hn, hnR⟩
      · exact .inl ((hholdsNew v).mp hv)
      · exact .inr ⟨n, hn, hnR, (hholdsOld n hn v).mp hv⟩

theorem Mapped.node_of_external (h : Mapped subLC D U s) (hn : n ∈ s.allNodes)
    (hv : (s.sccs n.theT).isExternal v = true) :
    ∃ m ∈ s.allNodes, s.valueToSCCNode.lookup v = some m ∧ s.Holds m v ∧ n ≠ m := by
  obtain ⟨hno, d, hd, hends⟩ := ((h.represents n hn).isExternal_iff v).mp hv
  have hU : U v := hends.elim (fun he => he.1 ▸ (h.dep_values d hd).1)
    fun he => he.1 ▸ (h.dep_values d hd).2
  obtain ⟨m, hm, hmv⟩ := (h.mem_values v).mp hU
  refine ⟨m, hm, (h.lookup_iff v m).mpr ⟨hm, hmv⟩, hmv, ?_⟩
  rintro rfl
  exact Bool.false_ne_true (hno.symm.trans hmv)

end Partitioned

/-! ## Edges -/

/-- Edges follow the relation `dep`, and two nodes are joined by at most one. -/
structure EdgesOk (dep : DGNode SccPtr → DGNode SccPtr → Prop) (g : DG SccPtr (DGEdge V)) :
    Prop where
  irrefl : ∀ e ∈ g.allEdges, e.srcNode ≠ e.dstNode
  unique : ∀ e ∈ g.allEdges, ∀ e' ∈ g.allEdges, e.Joins e'.srcNode e'.dstNode → e = e'
  dep_of_edge : ∀ e ∈ g.allEdges, dep e.srcNode e.dstNode

/-- The state of an SCCDAG after its constructor and after every merge. -/
structure Linked (subLC : DGEdge V → Bool) (D : Multiset (Dep V)) (U : V → Prop)
    (s : SCCDAG V) : Prop extends Mapped subLC D U s where
  edges : EdgesOk (s.DepBetween D) s.toDG
  exists_edge : ∀ n ∈ s.allNodes, ∀ m ∈ s.allNodes, n ≠ m → s.DepBetween D n m →
    ∃ e ∈ s.allEdges, e.Joins n m
  mem_subEdges : ∀ e ∈ s.allEdges, ∀ x, x ∈ (s.edgeAttr e).getSubEdges ↔
    s.Crosses e.srcNode e.dstNode x ∨ s.Crosses e.dstNode e.srcNode x
  isLoopCarried_iff : ∀ e ∈ s.allEdges, (s.edgeAttr e).isLoopCarried = true ↔
    ∃ x ∈ (s.edgeAttr e).getSubEdges, (s.nodeStore.edgeAttr x).isLoopCarried = true

/-- Dependences go both ways between two nodes. -/
def TwoWay (D : Multiset (Dep V)) (s : SCCDAG V) (n m : DGNode SccPtr) : Prop :=
  s.DepBetween D n m ∧ s.DepBetween D m n

namespace Linked

variable {subLC : DGEdge V → Bool} {D : Multiset (Dep V)} {U : V → Prop} {s : SCCDAG V}
  {n m : DGNode SccPtr} {e e' : DGEdge SccPtr}

section

variable (h : Linked subLC D U s)

include h

theorem edge_unique (he : e ∈ s.allEdges) (he' : e' ∈ s.allEdges) (hs : e.srcNode = e'.srcNode)
    (hd : e.dstNode = e'.dstNode) : e = e' :=
  h.edges.unique e he e' he' (.inl ⟨hs, hd⟩)

theorem edge_irrefl (n : DGNode SccPtr) : ¬ s.Edge n n := by
  rintro ⟨e, he, hsrc, hdst⟩
  exact h.edges.irrefl e he (hsrc.trans hdst.symm)

theorem depBetween_of_edge (hnm : s.Edge n m) : s.DepBetween D n m := by
  obtain ⟨e, he, rfl, rfl⟩ := hnm
  exact h.edges.dep_of_edge e he

theorem edge_of_depBetween (hn : n ∈ s.allNodes) (hm : m ∈ s.allNodes) (hnm : n ≠ m)
    (hdep : s.DepBetween D n m) (hno : ¬ s.DepBetween D m n) : s.Edge n m := by
  obtain ⟨e, he, ⟨hs, hd⟩ | ⟨hs, hd⟩⟩ := h.exists_edge n hn m hm hnm hdep
  · exact ⟨e, he, hs, hd⟩
  · exact absurd (h.depBetween_of_edge ⟨e, he, hs, hd⟩) hno

/-- Two nodes with dependences in both directions share one edge, so one of the
two directions has none. -/
theorem not_edge_both : ¬ (s.Edge n m ∧ s.Edge m n) := by
  rintro ⟨⟨e, he, rfl, rfl⟩, e', he', hs, hd⟩
  obtain rfl := h.edges.unique e he e' he' (.inr ⟨hd.symm, hs.symm⟩)
  exact h.edges.irrefl e he hs

/-- The sub-edges of an edge are the dependences in its direction, if there are
none in the other one. -/
theorem subEdges_deps (he : e ∈ s.allEdges) (hno : ¬ s.DepBetween D e.dstNode e.srcNode) :
    ((s.edgeAttr e).getSubEdges.elems : Multiset (DGEdge V)).map (DGEdge.dep s.nodeStore.edgeAttr) =
      D.filter fun d => s.Holds e.srcNode d.src ∧ s.Holds e.dstNode d.dst := by
  obtain ⟨hs, hd⟩ := h.clean.edge_nodes he
  have hne := h.edges.irrefl e he
  have hmem : ∀ x, x ∈ (s.edgeAttr e).getSubEdges ↔ s.Crosses e.srcNode e.dstNode x := by
    intro x
    rw [h.mem_subEdges e he x]
    refine or_iff_left fun hx => hno ?_
    exact ⟨_, (h.dep_of_edge hd hx.1).1, h.holds_src hd hs hne.symm hx, hx.2⟩
  have hperm : ((s.edgeAttr e).getSubEdges.elems : Multiset (DGEdge V)) =
      ((s.sccs e.srcNode.theT).allEdges.elems : Multiset (DGEdge V)).filter fun x =>
        s.Holds e.dstNode x.getDst := by
    rw [Multiset.filter_coe, Multiset.coe_eq_coe]
    refine (List.perm_ext_iff_of_nodup (PtrSet.nodup _) ((PtrSet.nodup _).filter _)).mpr fun x => ?_
    rw [PtrSet.mem_elems, hmem, List.mem_filter, PtrSet.mem_elems, decide_eq_true_eq, Crosses]
  have hdep : ∀ x ∈ ((s.sccs e.srcNode.theT).allEdges.elems : Multiset (DGEdge V)).filter fun x =>
      s.Holds e.dstNode x.getDst,
      x.dep s.nodeStore.edgeAttr = x.dep (s.sccs e.srcNode.theT).edgeAttr := fun x hx =>
    h.nodeStore_dep hs (Multiset.mem_coe.mp (Multiset.mem_filter.mp hx).1)
  calc ((s.edgeAttr e).getSubEdges.elems : Multiset (DGEdge V)).map
        (DGEdge.dep s.nodeStore.edgeAttr)
      = (s.sccs e.srcNode.theT).deps.filter fun d => s.Holds e.dstNode d.dst := by
        rw [hperm, Multiset.map_congr rfl hdep, DG.deps, Multiset.filter_map]
        rfl
    _ = D.filter fun d => s.Holds e.srcNode d.src ∧ s.Holds e.dstNode d.dst := by
        rw [(h.represents _ hs).deps_eq, Multiset.filter_filter]
        refine Multiset.filter_congr fun d _ => ?_
        constructor
        · rintro ⟨hdst, hsrc | hsrc⟩
          · exact ⟨hsrc, hdst⟩
          · exact absurd (h.holds_unique _ hs _ hd _ hsrc hdst) hne
        · rintro ⟨hsrc, hdst⟩
          exact ⟨hdst, .inl hsrc⟩

theorem isLoopCarried_deps (he : e ∈ s.allEdges)
    (hno : ¬ s.DepBetween D e.dstNode e.srcNode) : (s.edgeAttr e).isLoopCarried = true ↔
      ∃ d ∈ D, (s.Holds e.srcNode d.src ∧ s.Holds e.dstNode d.dst) ∧ d.isLoopCarried = true := by
  rw [h.isLoopCarried_iff e he]
  have hdeps := h.subEdges_deps he hno
  constructor
  · rintro ⟨x, hx, hlc⟩
    have hmem := Multiset.mem_map_of_mem (DGEdge.dep s.nodeStore.edgeAttr) (Multiset.mem_coe.mpr hx)
    rw [hdeps] at hmem
    exact ⟨_, (Multiset.mem_filter.mp hmem).1, (Multiset.mem_filter.mp hmem).2, hlc⟩
  · rintro ⟨d, hd, hends, hlc⟩
    have hmem : d ∈ D.filter fun d => s.Holds e.srcNode d.src ∧ s.Holds e.dstNode d.dst :=
      Multiset.mem_filter.mpr ⟨hd, hends⟩
    rw [← hdeps] at hmem
    obtain ⟨x, hx, rfl⟩ := Multiset.mem_map.mp hmem
    exact ⟨x, Multiset.mem_coe.mp hx, hlc⟩

end

end Linked

end SCCDAG

end Noelle
