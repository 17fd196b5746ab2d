import Noelle.SCCDAG.MergeRuns

/-!
# SCCDAGNormalizer.Convex

When a merge leaves the SCCDAG acyclic.

An edge stands for dependences, and the one edge between two nodes may hold
dependences of both directions.  A cycle through two nodes is therefore visible in
the dependences only.  Merging nodes of an acyclic SCCDAG leaves it acyclic if and
only if no path of dependences leaves the merged nodes and comes back.
-/

namespace Noelle

open Relation

namespace SCCDAG

variable {V : Type} [DecidableEq V] {subLC : DGEdge V → Bool} {D : Multiset (Dep V)}
  {U : V → Prop} {s s' : SCCDAG V} {n m new : DGNode SccPtr} {sccSet : PtrSet (DGNode SccPtr)}

/-- Some dependence goes from the node `n` to the node `m`. -/
def NodeDep (D : Multiset (Dep V)) (s : SCCDAG V) (n m : DGNode SccPtr) : Prop :=
  n ∈ s.allNodes ∧ m ∈ s.allNodes ∧ s.DepBetween D n m

/-- No cycle goes through two or more nodes, neither along the edges nor along the
dependences that they hold. -/
structure IsDAG (D : Multiset (Dep V)) (s : SCCDAG V) : Prop where
  edges : Acyclic s.Edge
  dependences : Acyclic (NodeDep D s)

theorem Linked.nodeDep_of_edge (h : Linked subLC D U s) (hnm : s.Edge n m) : NodeDep D s n m :=
  ⟨(h.clean.edge_mem hnm).1, (h.clean.edge_mem hnm).2, h.depBetween_of_edge hnm⟩

theorem Linked.isDAG_iff (h : Linked subLC D U s) : IsDAG D s ↔ Acyclic (NodeDep D s) :=
  ⟨IsDAG.dependences, fun hac => ⟨hac.mono fun _ _ => h.nodeDep_of_edge, hac⟩⟩

theorem IsDAG.not_twoWay (h : IsDAG D s) (hn : n ∈ s.allNodes) (hm : m ∈ s.allNodes) (hne : n ≠ m) :
    ¬ s.TwoWay D n m := fun ⟨h₁, h₂⟩ =>
  hne (h.dependences n m ⟨.single ⟨hn, hm, h₁⟩, .single ⟨hm, hn, h₂⟩⟩)

theorem Linked.edge_of_nodeDep (h : Linked subLC D U s) (hdag : IsDAG D s) (hnm : NodeDep D s n m)
    (hne : n ≠ m) : s.Edge n m :=
  h.edge_of_depBetween hnm.1 hnm.2.1 hne hnm.2.2 fun hback =>
    hdag.not_twoWay hnm.1 hnm.2.1 hne ⟨hnm.2.2, hback⟩

/-- No path of dependences leaves the nodes to merge and comes back. -/
def Convex (D : Multiset (Dep V)) (s : SCCDAG V) (sccSet : PtrSet (DGNode SccPtr)) : Prop :=
  2 ≤ sccSet.size → ConvexIn (NodeDep D s) (· ∈ sccSet)

/-- The node of the merged SCCDAG that an old node belongs to. -/
def ClassOf (s : SCCDAG V) (sccSet : PtrSet (DGNode SccPtr)) (new x n : DGNode SccPtr) : Prop :=
  n ∈ s.allNodes ∧ ((n ∈ sccSet ∧ x = new) ∨ (n ∉ sccSet ∧ x = n))

variable {x y : DGNode SccPtr} {v : V}

omit [DecidableEq V] in
theorem ClassOf.unique (hx : ClassOf s sccSet new x n) (hy : ClassOf s sccSet new y n) : x = y := by
  rcases hx.2 with ⟨hn, rfl⟩ | ⟨hn, rfl⟩ <;> rcases hy.2 with ⟨hn', rfl⟩ | ⟨hn', rfl⟩
  · rfl
  · exact absurd hn hn'
  · exact absurd hn' hn
  · rfl

section

variable (hm : Merged s sccSet new s')

include hm

theorem Merged.exists_class (hn : n ∈ s.allNodes) :
    ∃ x ∈ s'.allNodes, ClassOf s sccSet new x n := by
  by_cases hset : n ∈ sccSet
  · exact ⟨new, (hm.allNodes_iff new).mpr (.inl rfl), hn, .inl ⟨hset, rfl⟩⟩
  · exact ⟨n, (hm.allNodes_iff n).mpr (.inr ⟨hn, hset⟩), hn, .inr ⟨hset, rfl⟩⟩

theorem Merged.exists_member (hset : s.NodesOf sccSet) (hne : sccSet.elems ≠ [])
    (hx : x ∈ s'.allNodes) :
    ∃ n, ClassOf s sccSet new x n := by
  rcases (hm.allNodes_iff x).mp hx with rfl | ⟨hx, hxs⟩
  · obtain ⟨k, hk⟩ := List.exists_mem_of_ne_nil _ hne
    exact ⟨k, hset k hk, .inl ⟨hk, rfl⟩⟩
  · exact ⟨x, hx, .inr ⟨hxs, rfl⟩⟩

theorem Merged.holds_class (hx : ClassOf s sccSet new x n) (hv : s.Holds n v) : s'.Holds x v := by
  rcases hx.2 with ⟨hn, rfl⟩ | ⟨_, rfl⟩
  · exact (hm.holds_new v).mpr ⟨n, hn, hv⟩
  · exact (hm.holds_old x hx.1 v).mpr hv

theorem Merged.exists_holds (hset : s.NodesOf sccSet) (hx : x ∈ s'.allNodes) (hv : s'.Holds x v) :
    ∃ n, ClassOf s sccSet new x n ∧ s.Holds n v := by
  rcases (hm.allNodes_iff x).mp hx with rfl | ⟨hx, hxs⟩
  · obtain ⟨k, hk, hkv⟩ := (hm.holds_new v).mp hv
    exact ⟨k, ⟨hset k hk, .inl ⟨hk, rfl⟩⟩, hkv⟩
  · exact ⟨x, ⟨hx, .inr ⟨hxs, rfl⟩⟩, (hm.holds_old x hx v).mp hv⟩

/-- The classes are strongly connected when their members are, with jumps inside the
merged set. -/
theorem Merged.stronglyConnected_iff (hset : s.NodesOf sccSet) (hx : ClassOf s sccSet new x n)
    (hy : ClassOf s sccSet new y m) :
    StronglyConnected (NodeDep D s ⊔ SameClass (ClassOf s sccSet new)) n m ↔
      StronglyConnected (NodeDep D s') x y := by
  refine stronglyConnected_iff_classes (M := ClassOf s sccSet new)
    (fun _ _ _ hx hy => hx.unique hy) ?_ ?_ hx hy
  · rintro x a b ⟨ha, hb, d, hd, hsrc, hdst⟩ hxa
    obtain ⟨z, hz, hzb⟩ := hm.exists_class hb
    obtain ⟨w, hw, hwa⟩ := hm.exists_class ha
    obtain rfl := hwa.unique hxa
    exact ⟨z, hzb, .inr ⟨hw, hz, d, hd, hm.holds_class hxa hsrc, hm.holds_class hzb hdst⟩⟩
  · rintro x y ⟨hx, hy, d, hd, hsrc, hdst⟩ _
    obtain ⟨a, hxa, ha⟩ := hm.exists_holds hset hx hsrc
    obtain ⟨b, hyb, hb⟩ := hm.exists_holds hset hy hdst
    exact ⟨a, b, hxa, hyb, hxa.1, hyb.1, d, hd, ha, hb⟩

end

omit [DecidableEq V] in
/-- A jump inside a class stays where it is or goes through the merged set. -/
theorem sameClass_iff (hnew : new ∉ s.allNodes) (hset : s.NodesOf sccSet) (hn : n ∈ s.allNodes) :
    SameClass (ClassOf s sccSet new) n m ↔ n = m ∨ (n ∈ sccSet ∧ m ∈ sccSet) := by
  constructor
  · rintro ⟨x, ⟨hn, ⟨hns, rfl⟩ | ⟨hns, rfl⟩⟩, hm, ⟨hms, hxm⟩ | ⟨hms, hxm⟩⟩
    · exact .inr ⟨hns, hms⟩
    · exact absurd (hxm ▸ hm) hnew
    · exact absurd (hxm ▸ hn) hnew
    · exact .inl hxm
  · rintro (rfl | ⟨hns, hms⟩)
    · by_cases hns : n ∈ sccSet
      · exact ⟨new, ⟨hn, .inl ⟨hns, rfl⟩⟩, hn, .inl ⟨hns, rfl⟩⟩
      · exact ⟨n, ⟨hn, .inr ⟨hns, rfl⟩⟩, hn, .inr ⟨hns, rfl⟩⟩
    · exact ⟨new, ⟨hn, .inl ⟨hns, rfl⟩⟩, hset m hms, .inl ⟨hms, rfl⟩⟩

/-- Paths after a merge are paths before it that may jump inside the set. -/
theorem reach_classes_iff (hnew : new ∉ s.allNodes) (hset : s.NodesOf sccSet)
    (hn : n ∈ s.allNodes) :
    ReflTransGen (NodeDep D s ⊔ SameClass (ClassOf s sccSet new)) n m ↔
      ReflTransGen (NodeDep D s ⊔ fun a b => a = b ∨ (a ∈ sccSet ∧ b ∈ sccSet)) n m := by
  constructor
  · refine fun hnm => ReflTransGen.mono (fun a b hab => ?_) _ _ hnm
    rcases hab with hdep | ⟨x, hxa, hxb⟩
    · exact .inl hdep
    · exact .inr ((sameClass_iff hnew hset hxa.1).mp ⟨x, hxa, hxb⟩)
  · intro hnm
    have hboth : ReflTransGen (NodeDep D s ⊔ SameClass (ClassOf s sccSet new)) n m ∧
        m ∈ s.allNodes := by
      induction hnm with
      | refl => exact ⟨.refl, hn⟩
      | @tail a b _ hab ih =>
          obtain ⟨hna, ha⟩ := ih
          rcases hab with hdep | hjump
          · exact ⟨hna.tail (.inl hdep), hdep.2.1⟩
          · refine ⟨hna.tail (.inr ((sameClass_iff hnew hset ha).mpr hjump)), ?_⟩
            rcases hjump with rfl | ⟨_, hb⟩
            · exact ha
            · exact hset b hb
    exact hboth.1

/-- A merge leaves a DAG exactly if no path leaves the nodes and returns. -/
theorem Merged.acyclic_iff (hm : Merged s sccSet new s') (hnew : new ∉ s.allNodes)
    (hset : s.NodesOf sccSet) (hne : sccSet.elems ≠ []) :
    Acyclic (NodeDep D s') ↔
      AcyclicModulo (NodeDep D s) fun a b => a = b ∨ (a ∈ sccSet ∧ b ∈ sccSet) := by
  constructor
  · intro hac a b hab
    by_cases ha : a ∈ s.allNodes
    · have hab' : StronglyConnected (NodeDep D s ⊔ SameClass (ClassOf s sccSet new)) a b := by
        have hreach := (reach_classes_iff hnew hset ha).mpr hab.1
        refine ⟨hreach, ?_⟩
        rcases ReflTransGen.cases_tail hreach with rfl | ⟨c, _, hdep | ⟨x, _, hxb⟩⟩
        · exact .refl
        · exact (reach_classes_iff hnew hset hdep.2.1).mpr hab.2
        · exact (reach_classes_iff hnew hset hxb.1).mpr hab.2
      have hb : b ∈ s.allNodes := by
        rcases ReflTransGen.cases_tail hab'.1 with rfl | ⟨c, _, hdep | ⟨x, _, hxb⟩⟩
        · exact ha
        · exact hdep.2.1
        · exact hxb.1
      obtain ⟨x, _, hxa⟩ := hm.exists_class ha
      obtain ⟨y, _, hyb⟩ := hm.exists_class hb
      obtain rfl := hac x y ((hm.stronglyConnected_iff hset hxa hyb).mp hab')
      exact (sameClass_iff hnew hset ha).mp ⟨x, hxa, hyb⟩
    · -- nothing leaves a node that is not in the graph
      have hpath := hab.1
      clear hab
      have hstay : b = a := by
        induction hpath with
        | refl => rfl
        | tail _ hstep ih =>
            rcases hstep with hdep | rfl | ⟨hset', _⟩
            · exact absurd (ih ▸ hdep.1) ha
            · exact ih
            · exact absurd (ih ▸ hset _ hset') ha
      exact .inl hstay.symm
  · intro hmod x y hxy
    by_contra hne'
    have hx : x ∈ s'.allNodes := by
      rcases ReflTransGen.cases_head hxy.1 with rfl | ⟨_, hdep, _⟩
      · exact absurd rfl hne'
      · exact hdep.1
    have hy : y ∈ s'.allNodes := by
      rcases ReflTransGen.cases_head hxy.2 with rfl | ⟨_, hdep, _⟩
      · exact absurd rfl hne'
      · exact hdep.1
    obtain ⟨a, hxa⟩ := hm.exists_member hset hne hx
    obtain ⟨b, hyb⟩ := hm.exists_member hset hne hy
    have hab := (hm.stronglyConnected_iff hset hxa hyb).mpr hxy
    have hab' := hmod a b ⟨(reach_classes_iff hnew hset hxa.1).mp hab.1,
      (reach_classes_iff hnew hset hyb.1).mp hab.2⟩
    obtain ⟨z, hza, hzb⟩ := (sameClass_iff hnew hset hxa.1).mpr hab'
    exact hne' ((hxa.unique hza).trans (hzb.unique hyb))

/-- **One merge**: an acyclic SCCDAG stays acyclic if and only if the merged nodes
are convex. -/
theorem Linked.mergeSCCs_isDAG_iff (h : Linked subLC D U s) (hdag : IsDAG D s) (ord : IterOrder)
    (hset : s.NodesOf sccSet) :
    ∃ s', s.mergeSCCs ord subLC sccSet = some s' ∧ Linked subLC D U s' ∧
      (IsDAG D s' ↔ Convex D s sccSet) := by
  by_cases hsize : sccSet.size < 2
  · exact ⟨s, mergeSCCs_of_size_lt ord subLC hsize, h, iff_of_true hdag fun hle =>
      absurd hsize (Nat.not_lt.mpr hle)⟩
  · obtain ⟨s', new, hs', h', hm⟩ := h.mergeSCCs_spec ord hset hsize
    have hne : sccSet.elems ≠ [] := fun hnil => hsize (by simp [PtrSet.size, hnil])
    have hiff := hm.acyclic_iff (D := D) (hm.new_notMem h.toPartitioned) hset hne
    rw [acyclicModulo_contract_iff hdag.dependences] at hiff
    refine ⟨s', hs', h', h'.isDAG_iff.trans (hiff.trans ?_)⟩
    exact ⟨fun hc _ => hc, fun hc => hc (Nat.le_of_not_lt hsize)⟩

end SCCDAG

end Noelle
