import Noelle.SCCDAG.Marking

/-!
# SCCDAG.Construction

The SCCDAG a PDG is turned into is its condensation.

The PDG is traversed from every node that was not visited before, and the
enumeration of its SCCs is only assumed to list the classes of the nodes that its
entry node reaches.  `Building` is the invariant of the two loops: the visited
nodes are a union of classes, and each of these classes has its node.
-/

namespace Noelle

open Relation PtrSet List

namespace PDG

variable {V : Type}

def HasValue (pdg : PDG V) (v : V) : Prop := ∃ n ∈ pdg.allNodes, n.theT = v

/-- Some dependence goes from the one value to the other. -/
def DependsOn (pdg : PDG V) (v w : V) : Prop := ∃ e ∈ pdg.allEdges, e.getSrc = v ∧ e.getDst = w

theorem dependsOn_iff {pdg : PDG V} {v w : V} :
    pdg.DependsOn v w ↔ ∃ d ∈ pdg.deps, d.src = v ∧ d.dst = w := by
  constructor
  · rintro ⟨e, he, rfl, rfl⟩
    exact ⟨_, Multiset.mem_map_of_mem _ (Multiset.mem_coe.mpr he), rfl, rfl⟩
  · rintro ⟨d, hd, rfl, rfl⟩
    obtain ⟨e, he, rfl⟩ := Multiset.mem_map.mp hd
    exact ⟨e, Multiset.mem_coe.mp he, rfl, rfl⟩

end PDG

namespace SCCDAG

variable {V : Type} [DecidableEq V] {subLC : DGEdge V → Bool} {pdg : PDG V}

/-! ## The graph that is traversed -/

/-- The edge relation of the wrapped PDG. -/
abbrev Child (pdg : PDG V) : DGNode V → DGNode V → Prop := StepRel pdg.wrappedChildren

variable {n m : DGNode V} {s : SCCDAG V}

theorem child_iff (hpdg : PDG.Proper subLC pdg) (hn : n ∈ pdg.allNodes) :
    Child pdg n m ↔ pdg.Edge n m :=
  DG.child_iff (fun e he => (hpdg.edge_nodes e he).2) (hpdg.mem_outgoing n hn)

theorem reach_mem (hn : n ∈ pdg.allNodes) (h : ReflTransGen (Child pdg) n m) :
    m ∈ pdg.allNodes := by
  induction h with
  | refl => exact hn
  | tail _ hbc ih => exact DG.wrappedChildren_closed pdg _ ih _ hbc

/-- A path of nodes is a path of their values. -/
theorem reach_iff (hpdg : PDG.Proper subLC pdg) (hn : n ∈ pdg.allNodes) (hm : m ∈ pdg.allNodes) :
    ReflTransGen (Child pdg) n m ↔ ReflTransGen pdg.DependsOn n.theT m.theT := by
  constructor
  · intro h
    induction h with
    | refl => exact .refl
    | @tail b c hab hbc ih =>
        have hb := reach_mem hn hab
        obtain ⟨e, he, rfl, rfl⟩ := (child_iff hpdg hb).mp hbc
        exact (ih hb).tail ⟨e, he, rfl, rfl⟩
  · intro h
    suffices hgen : ∀ v, ReflTransGen pdg.DependsOn n.theT v →
        ∀ m ∈ pdg.allNodes, m.theT = v → ReflTransGen (Child pdg) n m from hgen _ h m hm rfl
    intro v hv
    induction hv with
    | refl =>
        intro k hk hkv
        rw [hpdg.node_ext k hk n hn hkv]
    | tail _ hvw ih =>
        rintro k hk rfl
        obtain ⟨e, he, hs, hd⟩ := hvw
        obtain ⟨hes, hed⟩ := hpdg.edge_nodes e he
        obtain rfl := hpdg.node_ext _ hed k hk hd
        exact (ih _ hes hs).tail ((child_iff hpdg hes).mpr ⟨e, he, rfl, rfl⟩)

/-! ## The nodes -/

/-- State of the loops that add the SCCs. -/
structure Building (subLC : DGEdge V → Bool) (pdg : PDG V) (visited : PtrSet (DGNode V))
    (s : SCCDAG V) : Prop where
  partitioned : Partitioned subLC pdg.deps (fun v => ∃ n ∈ visited, n.theT = v) s
  no_edges : s.allEdges = ∅
  no_indexes : s.sccIndexes = ∅
  visited_mem : ∀ n ∈ visited, n ∈ pdg.allNodes
  visited_closed : ∀ n ∈ visited, ∀ m, StronglyConnected (Child pdg) n m → m ∈ visited
  same_scc : ∀ k ∈ s.allNodes, ∀ n ∈ pdg.allNodes, s.Holds k n.theT → ∀ m ∈ pdg.allNodes,
    (s.Holds k m.theT ↔ StronglyConnected (Child pdg) n m)
  internal_iff : ∀ k ∈ s.allNodes, s.isInternal k.theT = true ↔
    ∃ n ∈ pdg.allNodes, s.Holds k n.theT ∧ pdg.isInternal n.theT = true

theorem Partitioned.nextScc_notInGraph {D : Multiset (Dep V)} {U : V → Prop}
    (h : Partitioned subLC D U s) : s.isInGraph s.nextScc = false := by
  rw [Bool.eq_false_iff]
  intro hin
  obtain ⟨n, hn⟩ := h.clean.exists_nodeOf hin
  obtain ⟨hmem, heq⟩ := h.clean.nodeOf_mem hn
  exact absurd (h.scc_lt n hmem) (by rw [heq]; exact lt_irrefl _)

theorem building_empty (self : Nat) : Building subLC pdg ∅ (empty self : SCCDAG V) where
  partitioned :=
    { clean := DG.empty_clean self
      scc_lt := fun n hn => absurd hn (not_mem_empty n)
      scc_self := fun n hn => absurd hn (not_mem_empty n)
      represents := fun n hn => absurd hn (not_mem_empty n)
      nonempty := fun n hn => absurd hn (not_mem_empty n)
      holds_unique := fun n hn => absurd hn (not_mem_empty n)
      mem_values := fun _ => ⟨fun ⟨n, hn, _⟩ => absurd hn (not_mem_empty n),
        fun ⟨n, hn, _⟩ => absurd hn (not_mem_empty n)⟩ }
  no_edges := rfl
  no_indexes := rfl
  visited_mem := fun n hn => absurd hn (not_mem_empty n)
  visited_closed := fun n hn => absurd hn (not_mem_empty n)
  same_scc := fun n hn => absurd hn (not_mem_empty n)
  internal_iff := fun n hn => absurd hn (not_mem_empty n)

/-- One more component becomes an SCC. -/
theorem Building.addSccNodes (ord : IterOrder) (hpdg : PDG.Proper subLC pdg)
    {visited : PtrSet (DGNode V)} (h : Building subLC pdg visited s) {c : List (DGNode V)}
    {a : DGNode V} (ha : a ∈ pdg.allNodes) (hc : ∀ b, b ∈ c ↔ StronglyConnected (Child pdg) a b) :
    ∃ visited' s', SCCDAG.addSccNodes ord subLC pdg (visited, s) c = some (visited', s') ∧
      Building subLC pdg visited' s' ∧ (∀ n ∈ visited, n ∈ visited') ∧ ∀ n ∈ c, n ∈ visited' := by
  have hcmem : ∀ b ∈ c, b ∈ pdg.allNodes := fun b hb => reach_mem ha ((hc b).mp hb).1
  have hac : a ∈ c := (hc a).mpr (.refl a)
  have hsame : ∀ b ∈ c, ∀ b', StronglyConnected (Child pdg) b b' ↔ b' ∈ c := by
    intro b hb b'
    rw [hc]
    exact ⟨((hc b).mp hb).trans, (((hc b).mp hb).symm).trans⟩
  obtain ⟨first, rest, hcons⟩ := exists_cons_of_ne_nil (ne_nil_of_mem hac)
  have hfirst : first ∈ c := by rw [hcons]; exact .head _
  have hhead : c.head? = some first := by rw [hcons]; rfl
  by_cases hv : first ∈ visited
  · refine ⟨visited, s, by simp [SCCDAG.addSccNodes, hhead, hv], h, fun _ => id, fun n hn => ?_⟩
    exact h.visited_closed first hv n ((hsame first hfirst n).mpr hn)
  · have hfresh : ∀ b ∈ c, b ∉ visited := fun b hb hbv =>
      hv (h.visited_closed b hbv first ((hsame b hb first).mpr hfirst))
    have hnodes : ∀ b, b ∈ PtrSet.ofList c ↔ b ∈ c := fun b => mem_ofList
    obtain ⟨scc, hscc, hself, hrep, hint⟩ := @SCC.new_spec V _ subLC ord pdg.store pdg.deps
      s.nextScc (PtrSet.ofList c)
      (ne_nil_of_mem ((hnodes a).mpr hac))
      ((PtrSet.ofList c).nodup.map_on fun x hx y hy =>
        hpdg.node_ext x (hcmem x ((hnodes x).mp hx)) y (hcmem y ((hnodes y).mp hy)))
      (fun n hn => hpdg.complete (hcmem n ((hnodes n).mp hn)))
    have hintc : ∀ n ∈ pdg.allNodes, scc.isInternal n.theT = true ↔ n ∈ c := by
      intro n hn
      rw [hint]
      constructor
      · rintro ⟨m, hm, hmn⟩
        exact hpdg.node_ext m (hcmem m ((hnodes m).mp hm)) n hn hmn ▸ (hnodes m).mp hm
      · exact fun hn => ⟨n, (hnodes n).mpr hn, rfl⟩
    set incl := (PtrSet.ofList c).elems.any fun node => pdg.isInternal node.theT with hincl
    refine ⟨visited.insertAll (PtrSet.ofList c).elems, s.addScc scc incl, ?_, ?_, ?_, ?_⟩
    · simp [SCCDAG.addSccNodes, hhead, hv, hscc, ← hincl]
    · have hvisited : ∀ n, n ∈ visited.insertAll (PtrSet.ofList c).elems ↔ n ∈ visited ∨ n ∈ c := by
        intro n
        rw [mem_insertAll, mem_elems, hnodes]
      have hnewfresh := h.partitioned.nextScc_notInGraph
      have hallNodes : ∀ n, n ∈ (s.addScc scc incl).allNodes ↔
          n = s.toDG.newNode s.nextScc ∨ n ∈ s.allNodes := fun n => DG.mem_addNode_allNodes ..
      have hholdsNew : ∀ v, (s.addScc scc incl).Holds (s.toDG.newNode s.nextScc) v ↔
          scc.isInternal v = true := by
        intro v
        simp [Holds, addScc]
      have hholdsOld : ∀ k ∈ s.allNodes, ∀ v, (s.addScc scc incl).Holds k v ↔ s.Holds k v := by
        intro k hk v
        have hne : k.theT ≠ s.nextScc := Nat.ne_of_lt (h.partitioned.scc_lt k hk)
        simp [Holds, addScc, Function.update_of_ne hne]
      refine ⟨?_, h.no_edges, h.no_indexes, ?_, ?_, ?_, ?_⟩
      · refine h.partitioned.replace (R := fun _ => False) (h.partitioned.clean.addNode hnewfresh)
          rfl rfl (DG.newNode_theT s.toDG s.nextScc) (fun n => ?_) hself hrep
          ⟨a.theT, (hintc a ha).mpr hac⟩ (fun v hv n hn hnv => ?_) (fun v => ?_)
        · rw [hallNodes]
          simp
        · -- the values of the class were not visited
          obtain ⟨b, hb, rfl⟩ := (hint v).mp hv
          obtain ⟨b', hb', heq⟩ := (h.partitioned.mem_values b.theT).mpr ⟨n, hn, hnv⟩
          have hbc := (hnodes b).mp hb
          have := hpdg.node_ext b' (h.visited_mem b' hb') b (hcmem b hbc) heq
          exact hfresh b hbc (this ▸ hb')
        · simp only [hvisited, or_and_right, exists_or, not_false_eq_true, true_and, hint, hnodes]
          rw [or_comm, ← h.partitioned.mem_values v]
      · intro n hn
        exact ((hvisited n).mp hn).elim (h.visited_mem n) (hcmem n)
      · intro n hn m hnm
        rcases (hvisited n).mp hn with hn | hn
        · exact (hvisited m).mpr (.inl (h.visited_closed n hn m hnm))
        · exact (hvisited m).mpr (.inr ((hsame n hn m).mp hnm))
      · intro k hk n hn hkn m hm
        rcases (hallNodes k).mp hk with rfl | hk
        · rw [hholdsNew, hintc n hn] at hkn
          rw [hholdsNew, hintc m hm, hsame n hkn]
        · rw [hholdsOld k hk] at hkn ⊢
          exact h.same_scc k hk n hn hkn m hm
      · intro k hk
        have hintk : (s.addScc scc incl).isInternal k.theT =
            ((decide (k.theT = s.nextScc) && incl) || s.isInternal k.theT) :=
          DG.addNode_isInternal ..
        rcases (hallNodes k).mp hk with rfl | hk
        · have hold : s.isInternal s.nextScc = false := by
            rw [DG.isInGraph, Bool.or_eq_false_iff] at hnewfresh
            exact hnewfresh.1
          rw [hintk, DG.newNode_theT, hold, Bool.or_false, decide_eq_true rfl, Bool.true_and, hincl,
            any_eq_true]
          constructor
          · rintro ⟨n, hn, hni⟩
            have hnc := (hnodes n).mp hn
            exact ⟨n, hcmem n hnc, (hholdsNew _).mpr ((hintc n (hcmem n hnc)).mpr hnc), hni⟩
          · rintro ⟨n, hn, hkn, hni⟩
            exact ⟨n, (hnodes n).mpr ((hintc n hn).mp ((hholdsNew _).mp hkn)), hni⟩
        · have hne : k.theT ≠ s.nextScc := Nat.ne_of_lt (h.partitioned.scc_lt k hk)
          rw [hintk, decide_eq_false hne, Bool.false_and, Bool.false_or, h.internal_iff k hk]
          exact exists_congr fun n => and_congr_right fun _ =>
            and_congr_left fun _ => (hholdsOld k hk n.theT).symm
    · exact fun n hn => mem_insertAll.mpr (.inl hn)
    · exact fun n hn => mem_insertAll.mpr (.inr ((hnodes n).mpr hn))

/-- Every node of the PDG ends up in an SCC. -/
theorem addAllSccs_spec (ord : IterOrder) (it : SccIterator) (hpdg : PDG.Proper subLC pdg)
    (self : Nat) :
    ∃ s visited, addAllSccs ord it subLC pdg (empty self) = some s ∧
      Building subLC pdg visited s ∧ ∀ n ∈ pdg.allNodes, n ∈ visited := by
  obtain ⟨⟨visited, s⟩, hloop, h, hall⟩ := it.visitAll_rule (DG.wrappedChildren_closed pdg)
    (Building subLC pdg) (fun visited s a c ha hc h => by
      obtain ⟨visited', s', hstep, h', hsub, hcv⟩ := h.addSccNodes ord hpdg ha hc
      exact ⟨(visited', s'), hstep, h', hsub, hcv⟩)
    (fun n hn => (ord.mem_visit).mp hn : ∀ n ∈ ord.visit pdg.allNodes.elems, n ∈ pdg.allNodes.elems)
    (building_empty self)
  rw [SccIterator.visitAll] at hloop
  refine ⟨s, visited, by rw [addAllSccs, hloop]; rfl, h, fun n hn => hall n ?_⟩
  exact ord.mem_visit.mpr hn

/-! ## The graph of SCCs -/

/-- What the constructor leaves behind: a linked SCCDAG whose nodes are the
classes of mutual dependence. -/
structure Built (subLC : DGEdge V → Bool) (pdg : PDG V) (s : SCCDAG V) : Prop
    extends Linked subLC pdg.deps pdg.HasValue s where
  same_scc : ∀ k ∈ s.allNodes, ∀ v, s.Holds k v → ∀ w, pdg.HasValue w →
    (s.Holds k w ↔ StronglyConnected pdg.DependsOn v w)
  internal_iff : ∀ k ∈ s.allNodes, s.isInternal k.theT = true ↔
    ∃ v, s.Holds k v ∧ pdg.isInternal v = true
  no_indexes : s.sccIndexes = ∅

/-- The nodes of the SCCDAG are the SCCs of the PDG. -/
theorem buildGraph_spec (ord : IterOrder) (it : SccIterator) (hpdg : PDG.Proper subLC pdg)
    (self : Nat) : ∃ s, buildGraph ord it subLC pdg self = some s ∧ Built subLC pdg s := by
  obtain ⟨s₀, visited, hs₀, h₀, hall⟩ := addAllSccs_spec ord it hpdg self
  have hvalues : (fun v => ∃ n ∈ visited, n.theT = v) = pdg.HasValue := by
    funext v
    exact propext ⟨fun ⟨n, hn, hv⟩ => ⟨n, h₀.visited_mem n hn, hv⟩,
      fun ⟨n, hn, hv⟩ => ⟨n, hall n hn, hv⟩⟩
  have hpart : Partitioned subLC pdg.deps pdg.HasValue s₀ := hvalues ▸ h₀.partitioned
  have hdeps : ∀ d ∈ pdg.deps, pdg.HasValue d.src ∧ pdg.HasValue d.dst := by
    intro d hd
    obtain ⟨e, he, rfl⟩ := Multiset.mem_map.mp hd
    obtain ⟨hs, ht⟩ := hpdg.edge_nodes e (Multiset.mem_coe.mp he)
    exact ⟨⟨_, hs, rfl⟩, _, ht, rfl⟩
  have hmapped := hpart.markValuesInSCC ord hdeps
  have hnoedge : ∀ e, e ∉ (s₀.markValuesInSCC ord).allEdges := fun e he =>
    not_mem_empty e (h₀.no_edges ▸ he)
  obtain ⟨s, hs, hlinked, hsame⟩ := markEdgesAndSubEdges_spec ord hmapped
    ⟨fun e he => absurd he (hnoedge e), fun e he => absurd he (hnoedge e),
      fun e he => absurd he (hnoedge e)⟩ (fun e he => absurd he (hnoedge e))
  have hnodes : s.allNodes = s₀.allNodes := hsame.allNodes_eq
  have hholds : ∀ k v, s.Holds k v ↔ s₀.Holds k v := hsame.holds_iff
  refine ⟨s, by rw [buildGraph, hs₀]; exact hs, ?_⟩
  refine
    { toLinked := hlinked
      same_scc := ?_
      internal_iff := ?_
      no_indexes := hsame.sccIndexes_eq.trans h₀.no_indexes }
  · intro k hk v hv w ⟨m, hm, hmw⟩
    rw [hnodes] at hk
    rw [hholds] at hv ⊢
    obtain ⟨n, hn, rfl⟩ := (hpart.mem_values v).mpr ⟨k, hk, hv⟩
    subst hmw
    rw [h₀.same_scc k hk n hn hv m hm, StronglyConnected, StronglyConnected, reach_iff hpdg hn hm,
      reach_iff hpdg hm hn]
  · intro k hk
    rw [hnodes] at hk
    refine (hsame.isInternal_eq k.theT).symm ▸ (h₀.internal_iff k hk).trans ?_
    constructor
    · rintro ⟨n, hn, hkn, hi⟩
      exact ⟨n.theT, (hholds k _).mpr hkn, hi⟩
    · rintro ⟨v, hv, hi⟩
      obtain ⟨n, hn, rfl⟩ := (hpart.mem_values v).mpr ⟨k, hk, (hholds k v).mp hv⟩
      exact ⟨n, hn, (hholds k _).mp hv, hi⟩

namespace Built

variable {s : SCCDAG V}

theorem dependsOn_of_depBetween {k m : DGNode SccPtr} (h : s.DepBetween pdg.deps k m) :
    ∃ v w, s.Holds k v ∧ s.Holds m w ∧ pdg.DependsOn v w := by
  obtain ⟨d, hd, hs, ht⟩ := h
  exact ⟨d.src, d.dst, hs, ht, PDG.dependsOn_iff.mpr ⟨d, hd, rfl, rfl⟩⟩

/-- The dependences between the SCCs form no cycle. -/
theorem acyclic_deps (h : Built subLC pdg s) : Acyclic fun k m =>
    k ∈ s.allNodes ∧ m ∈ s.allNodes ∧ s.DepBetween pdg.deps k m := by
  intro k m hkm
  by_contra hne
  have hmem : ∀ {k m}, ReflTransGen (fun k m => k ∈ s.allNodes ∧ m ∈ s.allNodes ∧
      s.DepBetween pdg.deps k m) k m → k ≠ m → k ∈ s.allNodes := by
    intro k m hr hne
    rcases ReflTransGen.cases_head hr with rfl | ⟨_, hstep, _⟩
    · exact absurd rfl hne
    · exact hstep.1
  have hk := hmem hkm.1 hne
  have hm := hmem hkm.2 (Ne.symm hne)
  obtain ⟨v, hv⟩ := h.nonempty k hk
  obtain ⟨w, hw⟩ := h.nonempty m hm
  -- a path over the nodes is a path over the values, and inside a class there are paths
  have hinside : ∀ {v w}, ReflTransGen (pdg.DependsOn ⊔
      SameClass fun k v => k ∈ s.allNodes ∧ s.Holds k v) v w → ReflTransGen pdg.DependsOn v w := by
    intro v w hr
    induction hr with
    | refl => exact .refl
    | tail _ hstep ih =>
        rcases hstep with hstep | ⟨j, ⟨hj, hv⟩, _, hw⟩
        · exact ih.tail hstep
        · exact ih.trans ((h.same_scc j hj _ hv _ ((h.mem_values _).mpr ⟨j, hj, hw⟩)).mp hw).1
  have hpath : ∀ {k m v w}, ReflTransGen (fun k m => k ∈ s.allNodes ∧ m ∈ s.allNodes ∧
      s.DepBetween pdg.deps k m) k m → k ∈ s.allNodes → m ∈ s.allNodes → s.Holds k v →
      s.Holds m w → ReflTransGen pdg.DependsOn v w := by
    intro k m v w hr hk hm hv hw
    refine hinside (reach_of_reach_classes (fun k m hkm _ => ?_) hr ⟨hk, hv⟩ ⟨hm, hw⟩)
    obtain ⟨v, w, hv, hw, hvw⟩ := dependsOn_of_depBetween hkm.2.2
    exact ⟨v, w, ⟨hkm.1, hv⟩, ⟨hkm.2.1, hw⟩, hvw⟩
  have hclass : s.Holds k w := by
    refine (h.same_scc k hk v hv w ((h.mem_values w).mpr ⟨m, hm, hw⟩)).mpr ⟨?_, ?_⟩
    · exact hpath hkm.1 hk hm hv hw
    · exact hpath hkm.2 hm hk hw hv
  exact hne (h.holds_unique k hk m hm w hclass hw)

theorem not_twoWay (h : Built subLC pdg s) {k m : DGNode SccPtr} (hk : k ∈ s.allNodes)
    (hm : m ∈ s.allNodes) (hne : k ≠ m) : ¬ s.TwoWay pdg.deps k m := fun ⟨h₁, h₂⟩ =>
  hne (h.acyclic_deps k m ⟨.single ⟨hk, hm, h₁⟩, .single ⟨hm, hk, h₂⟩⟩)

end Built

end SCCDAG

end Noelle
