import Noelle.SCCDAG.Condensation

/-!
# SCCDAG.MergeRuns

Runs of an SCCDAG: its constructor and then any number of merges.

A run keeps the SCCDAG linked.  It does not keep the edges exact: two nodes have
one edge even if dependences go both ways between them, and a merge makes such a
pair whenever a path leaves the merged nodes and comes back through one other node.
Nor does it keep the ordering: the new node of a merge is never numbered.
-/

namespace Noelle

open Relation Option

namespace SCCDAG

variable {V : Type} [DecidableEq V] {subLC : DGEdge V → Bool} {pdg : PDG V}

/-- The sets of a run are sets of nodes of the SCCDAG. -/
def NodesOf (s : SCCDAG V) (sccSet : PtrSet (DGNode SccPtr)) : Prop := ∀ n ∈ sccSet, n ∈ s.allNodes

instance (s : SCCDAG V) (sccSet : PtrSet (DGNode SccPtr)) : Decidable (s.NodesOf sccSet) :=
  inferInstanceAs (Decidable (∀ n ∈ sccSet.elems, n ∈ s.allNodes))

/-- `s` is the SCCDAG of `pdg`, with or without its ordering. -/
def BuiltFrom (ord : IterOrder) (it : SccIterator) (subLC : DGEdge V → Bool) (pdg : PDG V)
    (self : Nat) (s : SCCDAG V) : Prop :=
  ∃ s₀, buildGraph ord it subLC pdg self = some s₀ ∧ SameGraph s₀ s

/-! ## Edges -/

/-- Values, edges and sub-edges agree with the dependences `D` over the values `U`. -/
structure Agrees (D : Multiset (Dep V)) (U : V → Prop) (s : SCCDAG V) : Prop where
  /-- Every value is internal to exactly one SCC, and `sccOfValue` returns it. -/
  sccOfValue_eq : ∀ v, U v → ∃ n ∈ s.allNodes, s.Holds n v ∧ s.sccOfValue v = some n.theT ∧
    ∀ m ∈ s.allNodes, s.Holds m v → m = n
  /-- Two nodes have exactly one edge if some dependence goes from the one to the
  other, and none otherwise. -/
  edge_iff : ∀ n ∈ s.allNodes, ∀ m ∈ s.allNodes, n ≠ m →
    (s.DepBetween D n m → ∃! e, e ∈ s.allEdges ∧ e.srcNode = n ∧ e.dstNode = m) ∧
    (¬ s.DepBetween D n m → ¬ s.Edge n m)
  /-- The sub-edges of an edge are the dependences in its direction. -/
  subEdges_eq : ∀ e ∈ s.allEdges,
    ((s.edgeAttr e).getSubEdges.elems : Multiset (DGEdge V)).map (DGEdge.dep s.nodeStore.edgeAttr) =
      D.filter fun d => s.Holds e.srcNode d.src ∧ s.Holds e.dstNode d.dst

variable {D : Multiset (Dep V)} {U : V → Prop} {s : SCCDAG V}

/-- The edges agree with the dependences unless a pair has both directions. -/
theorem Linked.agrees_iff (h : Linked subLC D U s) : Agrees D U s ↔
    ∀ n ∈ s.allNodes, ∀ m ∈ s.allNodes, n ≠ m → ¬ s.TwoWay D n m := by
  constructor
  · rintro ha n hn m hm hnm ⟨h₁, h₂⟩
    obtain ⟨e, ⟨he, hs, hd⟩, _⟩ := (ha.edge_iff n hn m hm hnm).1 h₁
    obtain ⟨e', ⟨he', hs', hd'⟩, _⟩ := (ha.edge_iff m hm n hn hnm.symm).1 h₂
    exact h.not_edge_both ⟨⟨e, he, hs, hd⟩, e', he', hs', hd'⟩
  · intro hno
    refine ⟨fun v hv => ?_, fun n hn m hm hnm => ⟨fun hdep => ?_, fun hdep hedge => ?_⟩, fun e he => ?_⟩
    · obtain ⟨n, hn, hnv⟩ := (h.mem_values v).mp hv
      refine ⟨n, hn, hnv, ?_, fun m hm hmv => h.holds_unique m hm n hn v hmv hnv⟩
      rw [sccOfValue, (h.lookup_iff v n).mpr ⟨hn, hnv⟩]
      rfl
    · obtain ⟨e, he, hs, hd⟩ := h.edge_of_depBetween hn hm hnm hdep fun hback =>
        hno n hn m hm hnm ⟨hdep, hback⟩
      refine ⟨e, ⟨he, hs, hd⟩, fun e' he' => ?_⟩
      exact h.edge_unique he'.1 he (he'.2.1.trans hs.symm) (he'.2.2.trans hd.symm)
    · exact hdep (h.depBetween_of_edge hedge)
    · obtain ⟨hs, hd⟩ := h.clean.edge_nodes he
      exact h.subEdges_deps he fun hback =>
        hno _ hs _ hd (h.edges.irrefl e he) ⟨h.edges.dep_of_edge e he, hback⟩

/-- No node outside the set has dependences both from and to the values that are
merged. -/
def NoDetour (D : Multiset (Dep V)) (s : SCCDAG V) (sccSet : PtrSet (DGNode SccPtr)) : Prop :=
  2 ≤ sccSet.size → ∀ n ∈ s.allNodes, n ∉ sccSet →
    ¬ ((∃ k ∈ sccSet, s.DepBetween D k n) ∧ ∃ k ∈ sccSet, s.DepBetween D n k)

instance (D : Multiset (Dep V)) (s : SCCDAG V) (n m : DGNode SccPtr) :
    Decidable (s.DepBetween D n m) :=
  (Multiset.decidableExistsMultiset : Decidable (∃ d ∈ D, s.Holds n d.src ∧ s.Holds m d.dst))

instance (D : Multiset (Dep V)) (s : SCCDAG V) (sccSet : PtrSet (DGNode SccPtr)) :
    Decidable (NoDetour D s sccSet) :=
  inferInstanceAs (Decidable (2 ≤ sccSet.size → ∀ n ∈ s.allNodes.elems, n ∉ sccSet →
    ¬ ((∃ k ∈ sccSet.elems, s.DepBetween D k n) ∧ ∃ k ∈ sccSet.elems, s.DepBetween D n k)))

/-- One merge: an SCCDAG that agrees with its dependences still does if and only
if there is no detour. -/
theorem Linked.mergeSCCs_agrees_iff (h : Linked subLC D U s) (ha : Agrees D U s) (ord : IterOrder)
    {sccSet : PtrSet (DGNode SccPtr)} (hset : s.NodesOf sccSet) :
    ∃ s', s.mergeSCCs ord subLC sccSet = some s' ∧ Linked subLC D U s' ∧
      (Agrees D U s' ↔ NoDetour D s sccSet) := by
  by_cases hsize : sccSet.size < 2
  · refine ⟨s, mergeSCCs_of_size_lt ord subLC hsize, h, iff_of_true ha fun hle => ?_⟩
    exact absurd hsize (Nat.not_lt.mpr hle)
  · obtain ⟨s', new, hs', h', hm⟩ := h.mergeSCCs_spec ord hset hsize
    have hno := h.agrees_iff.mp ha
    have hnew : new ∈ s'.allNodes := (hm.allNodes_iff new).mpr (.inl rfl)
    have hnewOld : new ∉ s.allNodes := hm.new_notMem h.toPartitioned
    refine ⟨s', hs', h', h'.agrees_iff.trans ⟨fun hno' _ n hn hns => ?_, fun hc n hn m hm' hnm => ?_⟩⟩
    · rw [← hm.depBetween_from hn, ← hm.depBetween_to hn]
      have hn' : n ∈ s'.allNodes := (hm.allNodes_iff n).mpr (.inr ⟨hn, hns⟩)
      exact hno' new hnew n hn' fun heq => hnewOld (heq ▸ hn)
    · have hc' := hc (Nat.le_of_not_lt hsize)
      rcases (hm.allNodes_iff n).mp hn with rfl | ⟨hn, hns⟩ <;>
        rcases (hm.allNodes_iff m).mp hm' with rfl | ⟨hmm, hms⟩
      · exact absurd rfl hnm
      · rw [TwoWay, hm.depBetween_from hmm, hm.depBetween_to hmm]
        exact hc' m hmm hms
      · rw [TwoWay, hm.depBetween_from hn, hm.depBetween_to hn, and_comm]
        exact hc' n hn hns
      · rw [TwoWay, hm.depBetween_old hn hmm, hm.depBetween_old hmm hn]
        exact hno n hn m hmm hnm

/-- **Edges under merging**: in a run of merges from the SCCDAG of a PDG, values,
edges and sub-edges agree with the PDG in every state if and only if no merge has a
detour. -/
theorem agrees_throughout_iff (ord : IterOrder) (it : SccIterator) {self : Nat}
    {merges : List (PtrSet (DGNode SccPtr))} (hpdg : PDG.Proper subLC pdg)
    (hs : BuiltFrom ord it subLC pdg self s)
    (hmerges : Calls (mergeSCCs ord subLC) NodesOf s merges) :
    Always (mergeSCCs ord subLC) (Agrees pdg.deps pdg.HasValue) s merges ↔
      Calls (mergeSCCs ord subLC) (NoDetour pdg.deps) s merges := by
  obtain ⟨s₁, hs₁, hg⟩ := hs
  obtain ⟨s₀, hs₀, h₀⟩ := buildGraph_spec ord it hpdg self
  obtain rfl : s₁ = s₀ := mem_unique hs₁ hs₀
  have h := hg.linked h₀.toLinked
  have hagrees : Agrees pdg.deps pdg.HasValue s := by
    refine h.agrees_iff.mpr fun n hn m hm hnm htwo => ?_
    rw [hg.toDG_eq] at hn hm
    refine h₀.not_twoWay hn hm hnm ?_
    simpa only [TwoWay, DepBetween, Holds, hg.sccs_eq] using htwo
  exact always_iff_calls (I := Linked subLC pdg.deps pdg.HasValue)
    (fun s sccSet h ha hset => h.mergeSCCs_agrees_iff ha ord hset) h hagrees hmerges

/-- The two ends of the chain, which a path through the middle connects. -/
def chainEnds : PtrSet (DGNode SccPtr) := ⟨[⟨0, 0, 0⟩, ⟨0, 2, 2⟩], by decide⟩

theorem chainEnds_detour :
    (buildGraph .stored .saturating (fun _ => false) chainPdg 0).any (fun s =>
      decide (s.NodesOf chainEnds ∧ ¬ NoDetour chainPdg.deps s chainEnds)) = true := by
  decide +kernel

/-- Merging the ends of a chain of three SCCs leaves a dependence each way between
the new node and the middle one, and a single edge for both. -/
theorem merge_chainEnds_not_agrees :
    ∃ s s', buildGraph .stored .saturating (fun _ => false) chainPdg 0 = some s ∧
      s.NodesOf chainEnds ∧ s.mergeSCCs .stored (fun _ => false) chainEnds = some s' ∧
      ¬ Agrees chainPdg.deps chainPdg.HasValue s' := by
  obtain ⟨s, hs, h⟩ := buildGraph_spec .stored .saturating chainPdg_proper 0
  have hcheck := chainEnds_detour
  rw [hs, any_some, decide_eq_true_eq] at hcheck
  have hagrees : Agrees chainPdg.deps chainPdg.HasValue s :=
    h.agrees_iff.mpr fun n hn m hm hnm => h.not_twoWay hn hm hnm
  obtain ⟨s', hs', _, hiff⟩ := h.mergeSCCs_agrees_iff hagrees .stored hcheck.1
  exact ⟨s, s', hs, hcheck.1, hs', fun ha => hcheck.2 (hiff.mp ha)⟩

/-- Merging neighbours of the chain. -/
def chainStart : PtrSet (DGNode SccPtr) := ⟨[⟨0, 1, 1⟩, ⟨0, 2, 2⟩], by decide⟩

theorem agrees_throughout_chainStart : ∃ s,
    buildGraph .stored .saturating (fun _ => false) chainPdg 0 = some s ∧
      (Always (mergeSCCs .stored fun _ => false) (Agrees chainPdg.deps chainPdg.HasValue) s
          [chainStart] ↔
        Calls (mergeSCCs .stored fun _ => false) (NoDetour chainPdg.deps) s [chainStart]) := by
  obtain ⟨s, hs, _⟩ := buildGraph_spec .stored .saturating chainPdg_proper 0
  have hcheck : (buildGraph .stored .saturating (fun _ => false) chainPdg 0).any
      (fun s => decide (s.NodesOf chainStart)) = true := by decide +kernel
  rw [hs, any_some, decide_eq_true_eq] at hcheck
  exact ⟨s, hs, agrees_throughout_iff .stored .saturating chainPdg_proper ⟨s, hs, .refl s⟩
    ⟨hcheck, fun _ _ => trivial⟩⟩

/-! ## Ordering -/

theorem Merged.orderedBefore_new {s s' : SCCDAG V} {sccSet : PtrSet (DGNode SccPtr)}
    {new : DGNode SccPtr} (hm : Merged s sccSet new s')
    (hindex : s.sccIndexes.lookup s.nextScc = none) (p : SccPtr) :
    s'.orderedBefore new.theT p = none := by
  unfold orderedBefore
  split
  · rfl
  · rw [hm.sccIndexes_eq, hm.new_theT, hindex]
    rfl

theorem Merged.not_orderedByPaths {s s' : SCCDAG V} {sccSet : PtrSet (DGNode SccPtr)}
    {new : DGNode SccPtr} (hm : Merged s sccSet new s')
    (hindex : s.sccIndexes.lookup s.nextScc = none) : ¬ s'.OrderedByPaths := by
  intro hord
  have hnew : new ∈ s'.allNodes := (hm.allNodes_iff new).mpr (.inl rfl)
  obtain ⟨b, hb, _⟩ := hord new hnew new hnew
  rw [hm.orderedBefore_new hindex] at hb
  cases hb

theorem lookup_nextScc (ord : IterOrder) (it : SccIterator) {self : Nat} {s₀ s : SCCDAG V}
    (hs₀ : buildGraph ord it subLC pdg self = some s₀) (h₀ : Built subLC pdg s₀)
    (hs : new ord it subLC pdg self = some s) : s.sccIndexes.lookup s.nextScc = none := by
  obtain ⟨hg, hnum⟩ := new_sameGraph ord it hs₀ h₀ hs
  rw [hnum.lookup_eq, if_neg, h₀.no_indexes, AList.lookup_empty]
  intro hmem
  obtain ⟨n, hn, heq⟩ := (mem_keysInOrder ord).mp hmem
  rw [hg.nextScc_eq] at heq
  exact absurd (h₀.scc_lt n hn) (by rw [heq]; exact lt_irrefl _)

/-- **Ordering under merging**: the constructor returns and `orderedBefore` answers
reachability in every state of a run if and only if the PDG has fewer than 65536
SCCs and no merge of the run has two nodes to merge. -/
theorem orderedByPaths_throughout_iff (ord : IterOrder) (it : SccIterator) {self : Nat}
    {merges : List (PtrSet (DGNode SccPtr))} (hpdg : PDG.Proper subLC pdg)
    (hmerges : ∀ s, new ord it subLC pdg self = some s →
      Calls (mergeSCCs ord subLC) NodesOf s merges) :
    (∃ s, new ord it subLC pdg self = some s ∧
        Always (mergeSCCs ord subLC) OrderedByPaths s merges) ↔
      pdg.sccClasses.ncard < 65536 ∧ ∀ sccSet ∈ merges, sccSet.size < 2 := by
  obtain ⟨s₀, hs₀, h₀⟩ := buildGraph_spec ord it hpdg self
  constructor
  · rintro ⟨s, hs, halways⟩
    obtain ⟨hg, hnum⟩ := new_sameGraph ord it hs₀ h₀ hs
    have hN : s₀.numNodes < 65536 := by
      by_contra hle
      exact hnum.not_orderedByPaths ord hg h₀.clean (Nat.le_of_not_lt hle) halways.head
    refine ⟨h₀.numNodes_eq ▸ hN, ?_⟩
    -- the next pointer has no index, and small merges do not change the state
    have hindex := lookup_nextScc ord it hs₀ h₀ hs
    have hlinked := hg.linked h₀.toLinked
    have hcalls := hmerges s hs
    clear hmerges hs
    induction merges with
    | nil => exact nofun
    | cons sccSet merges ih =>
        obtain ⟨_, s', hs', halways'⟩ := halways
        by_cases hsize : sccSet.size < 2
        · have hsame := mergeSCCs_of_size_lt (s := s) ord subLC hsize
          obtain rfl := mem_unique hsame hs'
          intro sccSet' hmem
          rcases List.mem_cons.mp hmem with rfl | hmem
          · exact hsize
          · exact ih halways' (hcalls.2 s hsame) sccSet' hmem
        · obtain ⟨s₁, new, hs₁, _, hm⟩ := hlinked.mergeSCCs_spec ord hcalls.1 hsize
          obtain rfl := mem_unique hs₁ hs'
          exact absurd halways'.head (hm.not_orderedByPaths hindex)
  · rintro ⟨hN, hsize⟩
    obtain ⟨s, hs, hord⟩ := new_eq_some ord it hs₀ h₀ (h₀.numNodes_eq ▸ hN)
    refine ⟨s, hs, ?_⟩
    clear hmerges
    induction merges with
    | nil => exact hord
    | cons sccSet merges ih =>
        have hsame := mergeSCCs_of_size_lt (s := s) ord subLC (hsize sccSet (.head _))
        exact ⟨hord, s, hsame, ih fun sccSet' hmem => hsize sccSet' (.tail _ hmem)⟩

/-- Merging two neighbours of the chain leaves a node without an index. -/
theorem merge_chainStart_not_ordered :
    ∃ s s', new .stored .saturating (fun _ => false) chainPdg 0 = some s ∧ s.NodesOf chainStart ∧
      s.mergeSCCs .stored (fun _ => false) chainStart = some s' ∧
      (∃ n ∈ s'.allNodes, s'.orderedBefore n.theT n.theT = none) ∧ ¬ s'.OrderedByPaths := by
  obtain ⟨s₀, hs₀, h₀⟩ := buildGraph_spec .stored .saturating chainPdg_proper 0
  have hcheck : (buildGraph .stored .saturating (fun _ => false) chainPdg 0).any
      (fun s => decide (s.numNodes < 65536 ∧ s.NodesOf chainStart)) = true := by decide +kernel
  rw [hs₀, any_some, decide_eq_true_eq] at hcheck
  obtain ⟨s, hs, _⟩ := new_eq_some .stored .saturating hs₀ h₀ hcheck.1
  have hg := (new_sameGraph .stored .saturating hs₀ h₀ hs).1
  have hnodes : s.NodesOf chainStart := by
    rw [NodesOf, hg.toDG_eq]
    exact hcheck.2
  obtain ⟨s', k, hs', _, hm⟩ :=
    (hg.linked h₀.toLinked).mergeSCCs_spec .stored hnodes (by decide)
  have hindex := lookup_nextScc .stored .saturating hs₀ h₀ hs
  exact ⟨s, s', hs, hnodes, hs', ⟨k, (hm.allNodes_iff k).mpr (.inl rfl),
    hm.orderedBefore_new hindex k.theT⟩, hm.not_orderedByPaths hindex⟩

theorem orderedByPaths_throughout_chainStart :
    (∃ s, new .stored .saturating (fun _ => false) chainPdg 0 = some s ∧
        Always (mergeSCCs .stored fun _ => false) OrderedByPaths s [chainStart]) ↔
      chainPdg.sccClasses.ncard < 65536 ∧ ∀ sccSet ∈ [chainStart], sccSet.size < 2 := by
  have hcheck : (new .stored .saturating (fun _ => false) chainPdg 0).all
      (fun s => decide (s.NodesOf chainStart)) = true := by decide +kernel
  refine orderedByPaths_throughout_iff .stored .saturating chainPdg_proper fun s hs => ⟨?_, fun _ _ => trivial⟩
  rw [hs, all_some, decide_eq_true_eq] at hcheck
  exact hcheck

end SCCDAG

end Noelle
