import Noelle.SCCDAGPartition.Merge

/-!
# SCCDAGPartition.Collapse

Collapsing the cycles of a partition.

The cycles are the classes of strong connectivity of the graph of sets; all of
them are collected before any is merged, and since they are disjoint a merge leaves
the sets of the others alone.  On the SCCs this is `collapse`: two SCCs are together
afterwards exactly when they reached each other through listed parents and sets.
-/

namespace Noelle

open Relation PtrSet List

namespace SCCDAGPartition

variable {U : SccPtr → Prop} {L : SccPtr → SccPtr → Prop} {p p' : SCCDAGPartition}

/-! ## The partition as a relation over the SCCs -/

/-- Two SCCs are in one set. -/
def Same (p : SCCDAGPartition) : SccPtr → SccPtr → Prop :=
  SameClass fun n a => n ∈ p.allNodes ∧ p.Holds n a

/-- The partition; an SCC that is not included is a class of its own. -/
def Together (p : SCCDAGPartition) (a b : SccPtr) : Prop := a = b ∨ p.Same a b

/-- Listed parents among the included SCCs. -/
def Within (U : SccPtr → Prop) (L : SccPtr → SccPtr → Prop) (a b : SccPtr) : Prop :=
  U a ∧ U b ∧ L a b

def Joined (p : SCCDAGPartition) (sets : PtrSet SetPtr) (a b : SccPtr) : Prop :=
  ∃ n ∈ p.allNodes, ∃ m ∈ p.allNodes, n.theT ∈ sets ∧ m.theT ∈ sets ∧ p.Holds n a ∧ p.Holds m b

/-- The non-empty ones among some sets. -/
def Filled (p : SCCDAGPartition) (sets : PtrSet SetPtr) (n : DGNode SetPtr) : Prop :=
  n ∈ p.allNodes ∧ n.theT ∈ sets ∧ ∃ a, p.Holds n a

theorem Together.symm {a b : SccPtr} (h : p.Together a b) : p.Together b a :=
  h.imp Eq.symm SameClass.symm

theorem reach_sup_together {r : SccPtr → SccPtr → Prop} {a b : SccPtr} :
    ReflTransGen (r ⊔ p.Together) a b ↔ ReflTransGen (r ⊔ p.Same) a b := by
  constructor
  · intro h
    induction h with
    | refl => exact .refl
    | tail _ hbc ih =>
        rcases hbc with hr | rfl | hs
        · exact ih.tail (.inl hr)
        · exact ih
        · exact ih.tail (.inr hs)
  · exact ReflTransGen.mono (fun _ _ h => h.imp id .inr) _ _

namespace Inv

variable {n m : DGNode SetPtr} {a b : SccPtr}

section

variable (h : Inv U L p)

include h

/-- Cycles after joining sets are cycles of the joined nodes. -/
theorem stronglyConnected_joined_iff (sets : PtrSet SetPtr) (hn : n ∈ p.allNodes)
    (hm : m ∈ p.allNodes) (hna : p.Holds n a)
    (hmb : p.Holds m b) : StronglyConnected (Within U L ⊔ (p.Together ⊔ p.Joined sets)) a b ↔
      StronglyConnected (p.Edge ⊔ fun n m => p.Filled sets n ∧ p.Filled sets m) n m := by
  have heq : Within U L ⊔ (p.Together ⊔ p.Joined sets) =
      (Within U L ⊔ p.Joined sets) ⊔ p.Together := by
    rw [sup_comm p.Together, sup_assoc]
  rw [heq, StronglyConnected, reach_sup_together, reach_sup_together]
  refine stronglyConnected_iff_classes (M := fun n a => n ∈ p.allNodes ∧ p.Holds n a) ?_ ?_ ?_
    ⟨hn, hna⟩ ⟨hm, hmb⟩
  · exact fun s t a hs ht => h.holds_unique s hs.1 t ht.1 a hs.2 ht.2
  · rintro s a b (⟨_, hb, hab⟩ | ⟨s', hs', t, ht, hin, hin', hsa', htb⟩) ⟨hs, hsa⟩
    · obtain ⟨t, ht, htb⟩ := (h.mem_iff b).mp hb
      refine ⟨t, ⟨ht, htb⟩, ?_⟩
      by_cases heq : s = t
      · exact .inl heq
      · exact .inr (.inl (h.edge_of_parent s hs t ht heq ⟨a, b, hsa, htb, hab⟩))
    · obtain rfl := h.holds_unique s hs s' hs' a hsa hsa'
      exact ⟨t, ⟨ht, htb⟩, .inr (.inr ⟨⟨hs, hin, a, hsa⟩, ht, hin', b, htb⟩)⟩
  · rintro s t (hst | ⟨⟨hs, hin, a, hsa⟩, ht, hin', b, htb⟩) _
    · obtain ⟨hs, ht⟩ := h.clean.edge_mem hst
      obtain ⟨a, b, hsa, htb, hab⟩ := h.parent_of_edge s t hst
      exact ⟨a, b, ⟨hs, hsa⟩, ⟨ht, htb⟩, .inl ⟨(h.mem_iff a).mpr ⟨s, hs, hsa⟩,
        (h.mem_iff b).mpr ⟨t, ht, htb⟩, hab⟩⟩
    · exact ⟨a, b, ⟨hs, hsa⟩, ⟨ht, htb⟩, .inr ⟨s, hs, t, ht, hin, hin', hsa, htb⟩⟩

theorem stronglyConnected_iff (hn : n ∈ p.allNodes) (hm : m ∈ p.allNodes) (hna : p.Holds n a)
    (hmb : p.Holds m b) :
    StronglyConnected (Within U L ⊔ p.Together) a b ↔ StronglyConnected p.Edge n m := by
  have hjoined : p.Joined ∅ = ⊥ := by
    funext a b
    simp [Joined]
  have hfilled : (fun n m => p.Filled ∅ n ∧ p.Filled ∅ m) = ⊥ := by
    funext n m
    simp [Filled]
  have hiff := h.stronglyConnected_joined_iff ∅ hn hm hna hmb
  rwa [hjoined, hfilled, sup_bot_eq, sup_bot_eq] at hiff

theorem mem_of_reach (hab : ReflTransGen (Within U L ⊔ p.Together) a b) (hne : a ≠ b) : U a := by
  rw [reach_sup_together] at hab
  rcases ReflTransGen.cases_head hab with rfl | ⟨c, ⟨ha, _⟩ | ⟨n, ⟨hn, hna⟩, _⟩, _⟩
  · exact absurd rfl hne
  · exact ha
  · exact (h.mem_iff a).mpr ⟨n, hn, hna⟩

theorem exists_holds (hnm : ReflTransGen p.Edge n m)
    (hne : n ≠ m) : n ∈ p.allNodes ∧ ∃ a, p.Holds n a := by
  rcases ReflTransGen.cases_head hnm with rfl | ⟨k, hnk, _⟩
  · exact absurd rfl hne
  · obtain ⟨a, b, hna, _⟩ := h.parent_of_edge n k hnk
    exact ⟨(h.clean.edge_mem hnk).1, a, hna⟩

theorem collapse_iff (a b : SccPtr) :
    collapse (Within U L) p.Together a b ↔ a = b ∨ ∃ n ∈ p.allNodes, ∃ m ∈ p.allNodes,
      StronglyConnected p.Edge n m ∧ p.Holds n a ∧ p.Holds m b := by
  constructor
  · intro hab
    by_cases heq : a = b
    · exact .inl heq
    · obtain ⟨n, hn, hna⟩ := (h.mem_iff a).mp (h.mem_of_reach hab.1 heq)
      obtain ⟨m, hm, hmb⟩ := (h.mem_iff b).mp (h.mem_of_reach hab.2 (Ne.symm heq))
      exact .inr ⟨n, hn, m, hm, (h.stronglyConnected_iff hn hm hna hmb).mp hab, hna, hmb⟩
  · rintro (rfl | ⟨n, hn, m, hm, hnm, hna, hmb⟩)
    · exact .refl a
    · exact (h.stronglyConnected_iff hn hm hna hmb).mpr hnm

theorem acyclic_iff :
    Acyclic p.Edge ↔ AcyclicModulo (Within U L) p.Together := by
  constructor
  · intro hac a b hab
    rcases (h.collapse_iff a b).mp hab with heq | ⟨n, hn, m, _, hnm, hna, hmb⟩
    · exact .inl heq
    · obtain rfl := hac n m hnm
      exact .inr ⟨n, ⟨hn, hna⟩, hn, hmb⟩
  · intro hac n m hnm
    by_contra hne
    obtain ⟨hn, a, hna⟩ := h.exists_holds hnm.1 hne
    obtain ⟨hm, b, hmb⟩ := h.exists_holds hnm.2 (Ne.symm hne)
    rcases hac a b ((h.stronglyConnected_iff hn hm hna hmb).mpr hnm) with rfl | ⟨k, ⟨hk, hka⟩, _, hkb⟩
    · exact hne (h.holds_unique n hn m hm a hna hmb)
    · exact hne ((h.holds_unique n hn k hk a hna hka).trans (h.holds_unique k hk m hm b hkb hmb))

end

end Inv

/-- A merge joins exactly its sets. -/
theorem Merged.together_eq {sets : PtrSet SetPtr} {new : DGNode SetPtr} (hm : Merged p sets new p') :
    p'.Together = p.Together ⊔ p.Joined sets := by
  funext a b
  refine propext ⟨?_, ?_⟩
  · rintro (rfl | ⟨n, ⟨hn, hna⟩, _, hnb⟩)
    · exact .inl (.inl rfl)
    · rcases (hm.allNodes_iff n).mp hn with rfl | ⟨hn, hns⟩
      · obtain ⟨k, hk, hks, hka⟩ := (hm.holds_new a).mp hna
        obtain ⟨j, hj, hjs, hjb⟩ := (hm.holds_new b).mp hnb
        exact .inr ⟨k, hk, j, hj, hks, hjs, hka, hjb⟩
      · exact .inl (.inr ⟨n, ⟨hn, (hm.holds_old n hn hns a).mp hna⟩, hn,
          (hm.holds_old n hn hns b).mp hnb⟩)
  · have hjoin : ∀ a b, p.Joined sets a b → p'.Together a b := by
      rintro a b ⟨n, hn, m, hm', hns, hms, hna, hmb⟩
      have hnew := (hm.allNodes_iff new).mpr (.inl rfl)
      exact .inr ⟨new, ⟨hnew, (hm.holds_new a).mpr ⟨n, hn, hns, hna⟩⟩, hnew,
        (hm.holds_new b).mpr ⟨m, hm', hms, hmb⟩⟩
    rintro ((rfl | ⟨n, ⟨hn, hna⟩, _, hnb⟩) | hj)
    · exact .inl rfl
    · by_cases hns : n.theT ∈ sets
      · exact hjoin a b ⟨n, hn, n, hn, hns, hns, hna, hnb⟩
      · exact .inr ⟨n, ⟨(hm.allNodes_iff n).mpr (.inr ⟨hn, hns⟩),
          (hm.holds_old n hn hns a).mpr hna⟩, (hm.allNodes_iff n).mpr (.inr ⟨hn, hns⟩),
          (hm.holds_old n hn hns b).mpr hnb⟩
    · exact hjoin a b hj

/-! ## The cycles -/

/-- The sets that were collected so far. -/
structure Collected (p : SCCDAGPartition) (visited : PtrSet SetPtr) (cycles : List (PtrSet SetPtr)) :
    Prop where
  class_of : ∀ c ∈ cycles, ∃ n ∈ p.allNodes, ∀ s, s ∈ c ↔
    ∃ m ∈ p.allNodes, m.theT = s ∧ StronglyConnected p.Edge n m
  covered : ∀ s, s ∈ visited ↔ ∃ c ∈ cycles, s ∈ c
  disjoint : cycles.Pairwise fun c d => ∀ s ∈ c, s ∉ d

/-- One more component is collected. -/
theorem Collected.collectCycle_spec {visited : PtrSet SetPtr} {cycles : List (PtrSet SetPtr)}
    (h : Collected p visited cycles) (hc : p.toDG.Clean) {c : List (DGNode SetPtr)}
    {a : DGNode SetPtr} (ha : a ∈ p.allNodes) (hclass : ∀ b, b ∈ c ↔ StronglyConnected p.Edge a b) :
    ∃ visited' cycles', collectCycle (visited, cycles) c = some (visited', cycles') ∧
      Collected p visited' cycles' ∧ (∀ s ∈ visited, s ∈ visited') ∧
      ∀ n ∈ c, n.theT ∈ visited' := by
  have hmem : ∀ b ∈ c, b ∈ p.allNodes := fun b hb => hc.reach_mem ha ((hclass b).mp hb).1
  have hac : a ∈ c := (hclass a).mpr (.refl a)
  obtain ⟨first, rest, hcons⟩ := exists_cons_of_ne_nil (ne_nil_of_mem hac)
  have hfirst : first ∈ c := by rw [hcons]; exact .head _
  have hhead : c.head? = some first := by rw [hcons]; rfl
  -- a collected class with one of the nodes is the class of all of them
  have hall : ∀ d ∈ cycles, ∀ b ∈ c, b.theT ∈ d → ∀ b' ∈ c, b'.theT ∈ d := by
    intro d hd b hb hbd b' hb'
    obtain ⟨n, _, hdn⟩ := h.class_of d hd
    obtain ⟨m, hm, heq, hnm⟩ := (hdn b.theT).mp hbd
    obtain rfl := hc.node_ext hm (hmem b hb) heq
    have hmb' := ((hclass m).mp hb).symm.trans ((hclass b').mp hb')
    exact (hdn b'.theT).mpr ⟨b', hmem b' hb', rfl, hnm.trans hmb'⟩
  have hsets : ∀ s, s ∈ PtrSet.ofList (c.map DGNode.theT) ↔ ∃ b ∈ c, b.theT = s := by
    simp
  by_cases hv : first.theT ∈ visited
  · refine ⟨visited, cycles, by simp [collectCycle, hhead, hv], h, fun _ => id, fun n hn => ?_⟩
    obtain ⟨d, hd, hfd⟩ := (h.covered _).mp hv
    exact (h.covered _).mpr ⟨d, hd, hall d hd first hfirst hfd n hn⟩
  · refine ⟨visited.insertAll (PtrSet.ofList (c.map DGNode.theT)).elems,
      cycles ++ [PtrSet.ofList (c.map DGNode.theT)], by simp [collectCycle, hhead, hv],
      ⟨?_, ?_, ?_⟩, ?_, ?_⟩
    · intro d hd
      rcases mem_append.mp hd with hd | hd
      · exact h.class_of d hd
      · obtain rfl := mem_singleton.mp hd
        refine ⟨a, ha, fun s => ?_⟩
        rw [hsets]
        constructor
        · rintro ⟨b, hb, rfl⟩
          exact ⟨b, hmem b hb, rfl, (hclass b).mp hb⟩
        · rintro ⟨b, _, rfl, hab⟩
          exact ⟨b, (hclass b).mpr hab, rfl⟩
    · intro s
      rw [mem_insertAll, mem_elems, h.covered]
      simp only [mem_append, mem_singleton, or_and_right, exists_or, exists_eq_left]
    · refine pairwise_append.mpr ⟨h.disjoint, pairwise_singleton _ _, ?_⟩
      intro d hd d' hd' s hsd hsd'
      obtain rfl := mem_singleton.mp hd'
      obtain ⟨b, hb, rfl⟩ := (hsets s).mp hsd'
      exact hv ((h.covered _).mpr ⟨d, hd, hall d hd b hb hsd first hfirst⟩)
    · exact fun s hs => mem_insertAll.mpr (.inl hs)
    · exact fun n hn => mem_insertAll.mpr (.inr ((hsets n.theT).mpr ⟨n, hn, rfl⟩))

/-- The cycles that are collected are the classes of the graph of sets; only the
entry node changes. -/
theorem collectCycles_spec (ord : IterOrder) (it : SccIterator) (hc : p.toDG.Clean) :
    ∃ entry visited cycles,
      p.collectCycles ord it = some ({ p with entryNode := entry }, cycles) ∧
      Collected p visited cycles ∧ ∀ n ∈ p.allNodes, n.theT ∈ visited := by
  obtain ⟨⟨p', visited, cycles⟩, hloop, ⟨entry, rfl⟩, hcol, hall⟩ := foldlM_rule
    (fun (st : SCCDAGPartition × PtrSet SetPtr × List (PtrSet SetPtr)) nodeToVisit => do
      if nodeToVisit.theT ∈ st.2.1 then return (st.1, st.2.1, st.2.2)
      let p := { st.1 with toDG := st.1.setEntryNode nodeToVisit }
      let found ← (it.comps p.allNodes.elems p.wrappedChildren nodeToVisit).foldlM collectCycle
        (st.2.1, st.2.2)
      return (p, found))
    (fun (pre : List (DGNode SetPtr)) st => (∃ entry, st.1 = { p with entryNode := entry }) ∧
      Collected p st.2.1 st.2.2 ∧ ∀ n ∈ pre, n.theT ∈ st.2.1)
    (l := ord.visit p.allNodes.elems) (s := (p, ∅, []))
    ⟨⟨p.entryNode, rfl⟩, ⟨by simp, by simp, List.Pairwise.nil⟩, by simp⟩
    (by
      rintro pre n post ⟨_, visited, cycles⟩ hsplit ⟨⟨entry, rfl⟩, hcol, hpre⟩
      have hn : n ∈ p.allNodes := by
        rw [← mem_elems, ← ord.mem_visit, hsplit]
        simp
      have hextend : ∀ visited' : PtrSet SetPtr, (∀ s ∈ visited, s ∈ visited') →
          n.theT ∈ visited' → ∀ k ∈ pre ++ [n], k.theT ∈ visited' := by
        intro visited' hsub hnv k hk
        rcases mem_append.mp hk with hk | hk
        · exact hsub _ (hpre k hk)
        · exact mem_singleton.mp hk ▸ hnv
      dsimp only at hcol hpre ⊢
      by_cases hv : n.theT ∈ visited
      · exact ⟨_, if_pos hv, ⟨entry, rfl⟩, hcol, hextend visited (fun _ => id) hv⟩
      · obtain ⟨⟨visited', cycles'⟩, hinner, hcol', hsub, hcomps⟩ := foldlM_rule collectCycle
          (fun (pre' : List (List (DGNode SetPtr))) st => Collected p st.1 st.2 ∧
            (∀ s ∈ visited, s ∈ st.1) ∧ ∀ c ∈ pre', ∀ k ∈ c, k.theT ∈ st.1)
          (l := it.comps p.allNodes.elems p.wrappedChildren n) (s := (visited, cycles))
          ⟨hcol, fun _ => id, by simp⟩
          (by
            rintro pre' c post' ⟨visited₁, cycles₁⟩ hsplit' ⟨hcol₁, hsub₁, hcomps₁⟩
            obtain ⟨a, hna, hclass⟩ := it.comp_eq hn (DG.wrappedChildren_closed p.toDG) c
              (by rw [hsplit']; simp)
            have ha := hc.reach_mem hn ((hc.reach_iff hn).mp hna)
            obtain ⟨visited₂, cycles₂, hstep, hcol₂, hsub₂, hc₂⟩ := hcol₁.collectCycle_spec hc ha
              fun b => (hclass b).trans (hc.stronglyConnected_iff ha)
            refine ⟨(visited₂, cycles₂), hstep, hcol₂, fun s hs => hsub₂ s (hsub₁ s hs), ?_⟩
            intro c' hc' k hk
            rcases mem_append.mp hc' with hc' | hc'
            · exact hsub₂ _ (hcomps₁ c' hc' k hk)
            · exact hc₂ k (mem_singleton.mp hc' ▸ hk))
        -- one of the components is the class of the entry node itself
        obtain ⟨c, hmem, hnc⟩ := it.exists_comp hn (DG.wrappedChildren_closed p.toDG) n .refl
        refine ⟨({ p with entryNode := some n }, visited', cycles'), ?_, ⟨some n, rfl⟩, hcol',
          hextend visited' hsub (hcomps c hmem n hnc)⟩
        rw [if_neg hv]
        change (List.foldlM collectCycle (visited, cycles) (it.comps p.allNodes.elems
          p.wrappedChildren n)).bind _ = _
        rw [hinner]
        rfl)
  refine ⟨entry, visited, cycles, ?_, hcol, fun n hn => hall n (ord.mem_visit.mpr hn)⟩
  unfold collectCycles
  exact congrArg (Option.bind · _) hloop

/-! ## The merges -/

theorem Inv.withEntry (h : Inv U L p) (entry : Option (DGNode SetPtr)) :
    Inv U L { p with entryNode := entry } where
  clean := ⟨h.clean.toWF.withAttr entry p.edgeAttr, fun n hn => by
    rw [← h.clean.mapped n hn]
    exact DG.nodeOf_congr rfl rfl⟩
  set_lt := h.set_lt
  allocated := h.allocated
  holds_unique := h.holds_unique
  mem_iff := h.mem_iff
  lookup_iff := h.lookup_iff
  simple := h.simple
  parent_of_edge := h.parent_of_edge
  edge_of_parent := h.edge_of_parent

/-- State of the loop that merges the cycles `done`: the sets of the other cycles
are untouched. -/
structure Collapsing (U : SccPtr → Prop) (L : SccPtr → SccPtr → Prop) (p : SCCDAGPartition)
    (done : List (PtrSet SetPtr)) (q : SCCDAGPartition) : Prop where
  inv : Inv U L q
  untouched : ∀ n ∈ p.allNodes, (∀ c ∈ done, n.theT ∉ c) →
    n ∈ q.allNodes ∧ ∀ a, q.Holds n a ↔ p.Holds n a
  together_iff : ∀ a b, q.Together a b ↔ p.Together a b ∨ ∃ c ∈ done, p.Joined c a b

/-- One more cycle is collapsed. -/
theorem Collapsing.step {done : List (PtrSet SetPtr)} {q : SCCDAGPartition}
    (h : Collapsing U L p done q) (hp : Inv U L p) (ord : IterOrder) {c : PtrSet SetPtr}
    (hsets : p.SetsOf c) (hdisj : ∀ d ∈ done, ∀ s ∈ d, s ∉ c) :
    ∃ q', (if c.size > 1 then q.mergeSets ord c else some q) = some q' ∧
      Collapsing U L p (done ++ [c]) q' := by
  have hlive : ∀ n ∈ p.allNodes, n.theT ∈ c → n ∈ q.allNodes ∧ ∀ a, q.Holds n a ↔ p.Holds n a :=
    fun n hn hnc => h.untouched n hn fun d hd hnd => hdisj d hd _ hnd hnc
  have huntouched : ∀ n ∈ p.allNodes, (∀ d ∈ done ++ [c], n.theT ∉ d) →
      n.theT ∉ c ∧ n ∈ q.allNodes ∧ ∀ a, q.Holds n a ↔ p.Holds n a := fun n hn hno =>
    ⟨hno c (by simp), h.untouched n hn fun d hd => hno d (by simp [hd])⟩
  have hdone : ∀ a b, (∃ d ∈ done ++ [c], p.Joined d a b) ↔
      (∃ d ∈ done, p.Joined d a b) ∨ p.Joined c a b := by
    intro a b
    simp only [mem_append, mem_singleton, or_and_right, exists_or, exists_eq_left]
  by_cases hsize : c.size > 1
  · have hsets' : q.SetsOf c := by
      intro s hs
      obtain ⟨n, hn, rfl⟩ := hsets s hs
      exact ⟨n, (hlive n hn hs).1, rfl⟩
    obtain ⟨q', new, hq', hinv, hm⟩ := h.inv.mergeSets_spec ord hsets'
    have hjoined : ∀ a b, q.Joined c a b ↔ p.Joined c a b := by
      have hback : ∀ n ∈ q.allNodes, n.theT ∈ c → n ∈ p.allNodes := by
        intro n hn hnc
        obtain ⟨m, hm, heq⟩ := hsets _ hnc
        obtain ⟨hmq, _⟩ := hlive m hm (heq ▸ hnc)
        exact h.inv.clean.node_ext hmq hn heq ▸ hm
      intro a b
      constructor
      · rintro ⟨n, hn, m, hm, hnc, hmc, hna, hmb⟩
        have hn' := hback n hn hnc
        have hm' := hback m hm hmc
        exact ⟨n, hn', m, hm', hnc, hmc, ((hlive n hn' hnc).2 a).mp hna,
          ((hlive m hm' hmc).2 b).mp hmb⟩
      · rintro ⟨n, hn, m, hm, hnc, hmc, hna, hmb⟩
        obtain ⟨hnq, hholds⟩ := hlive n hn hnc
        obtain ⟨hmq, hholds'⟩ := hlive m hm hmc
        exact ⟨n, hnq, m, hmq, hnc, hmc, (hholds a).mpr hna, (hholds' b).mpr hmb⟩
    refine ⟨q', (if_pos hsize).trans hq', hinv, fun n hn hno => ?_, fun a b => ?_⟩
    · obtain ⟨hnc, hnq, hholds⟩ := huntouched n hn hno
      exact ⟨(hm.allNodes_iff n).mpr (.inr ⟨hnq, hnc⟩), fun a =>
        (hm.holds_old n hnq hnc a).trans (hholds a)⟩
    · rw [hdone, ← or_assoc, ← h.together_iff, ← hjoined, hm.together_eq]
      rfl
  · -- a set on its own is not merged
    refine ⟨q, if_neg hsize, h.inv, fun n hn hno => (huntouched n hn hno).2, fun a b => ?_⟩
    rw [hdone, ← or_assoc, ← h.together_iff, or_iff_left_of_imp]
    rintro ⟨n, hn, m, hm, hnc, hmc, hna, hmb⟩
    have heq : n.theT = m.theT := eq_of_size_le_one (Nat.le_of_not_lt hsize) hnc hmc
    obtain rfl := hp.clean.node_ext hn hm heq
    exact (h.together_iff a b).mpr (.inl (.inr ⟨n, ⟨hn, hna⟩, hn, hmb⟩))

/-- Exactly the sets of a common cycle come together. -/
theorem Inv.collapseCycles_spec (h : Inv U L p) (ord : IterOrder) (it : SccIterator) :
    ∃ p', p.collapseCycles ord it = some p' ∧ Inv U L p' ∧
      p'.Together = collapse (Within U L) p.Together := by
  obtain ⟨entry, visited, cycles, hcycles, hcol, hall⟩ := collectCycles_spec ord it h.clean
  have hdisj : (ord.visit cycles).Pairwise fun c d => ∀ s ∈ c, s ∉ d :=
    ((ord.visit_perm cycles).pairwise_iff fun hcd s hs hs' => hcd s hs' hs).mpr hcol.disjoint
  have hsets : ∀ c ∈ cycles, p.SetsOf c := by
    intro c hc s hs
    obtain ⟨n, _, hclass⟩ := hcol.class_of c hc
    obtain ⟨m, hm, heq, _⟩ := (hclass s).mp hs
    exact ⟨m, hm, heq⟩
  obtain ⟨p', hp', hcollapsing⟩ := foldlM_rule
    (fun (q : SCCDAGPartition) (setsToMerge : PtrSet SetPtr) =>
      if setsToMerge.size > 1 then q.mergeSets ord setsToMerge else some q)
    (fun done q => Collapsing U L p done q) (l := ord.visit cycles)
    (s := { p with entryNode := entry })
    ⟨h.withEntry entry, fun n hn _ => ⟨hn, fun _ => Iff.rfl⟩, fun a b => by simp; rfl⟩
    (by
      intro done c rest q hsplit hq
      rw [hsplit] at hdisj
      refine hq.step h ord (hsets c (ord.mem_visit.mp (by rw [hsplit]; simp))) fun d hd => ?_
      exact (pairwise_append.mp hdisj).2.2 d hd c (.head _))
  refine ⟨p', ?_, hcollapsing.inv, ?_⟩
  · rw [collapseCycles, hcycles]
    exact hp'
  · funext a b
    apply propext
    rw [hcollapsing.together_iff, h.collapse_iff, Together, or_assoc]
    refine or_congr_right ⟨?_, ?_⟩
    · rintro (⟨n, ⟨hn, hna⟩, _, hnb⟩ | ⟨c, hc, n, hn, m, hm, hnc, hmc, hna, hmb⟩)
      · exact ⟨n, hn, n, hn, .refl n, hna, hnb⟩
      · obtain ⟨k, _, hclass⟩ := hcol.class_of c (ord.mem_visit.mp hc)
        obtain ⟨n', hn', heq, hkn⟩ := (hclass _).mp hnc
        obtain ⟨m', hm', heq', hkm⟩ := (hclass _).mp hmc
        obtain rfl := h.clean.node_ext hn' hn heq
        obtain rfl := h.clean.node_ext hm' hm heq'
        exact ⟨n', hn, m', hm, hkn.symm.trans hkm, hna, hmb⟩
    · rintro ⟨n, hn, m, hm, hnm, hna, hmb⟩
      obtain ⟨c, hc, hnc⟩ := (hcol.covered _).mp (hall n hn)
      obtain ⟨k, _, hclass⟩ := hcol.class_of c hc
      obtain ⟨n', hn', heq, hkn⟩ := (hclass _).mp hnc
      obtain rfl := h.clean.node_ext hn' hn heq
      exact .inr ⟨c, ord.mem_visit.mpr hc, n', hn, m, hm, hnc,
        (hclass _).mpr ⟨m, hm, rfl, hkn.trans hnm⟩, hna, hmb⟩

/-- A merge and its collapse give the least acyclic coarsening. -/
theorem Inv.mergeSetsAndCollapse_spec (h : Inv U L p) (ord : IterOrder) (it : SccIterator)
    {sets : PtrSet SetPtr} (hsets : p.SetsOf sets) :
    ∃ p', p.mergeSetsAndCollapseResultingCycles ord it sets = some p' ∧ Inv U L p' ∧
      Acyclic p'.Edge ∧ p'.Together = collapse (Within U L) (p.Together ⊔ p.Joined sets) := by
  obtain ⟨p₁, new, hp₁, h₁, hm⟩ := h.mergeSets_spec ord hsets
  obtain ⟨p', hp', h', htog⟩ := h₁.collapseCycles_spec ord it
  rw [hm.together_eq] at htog
  refine ⟨p', by simp [mergeSetsAndCollapseResultingCycles, hp₁, hp'], h', ?_, htog⟩
  rw [h'.acyclic_iff, htog]
  exact acyclicModulo_collapse _ _

end SCCDAGPartition

end Noelle
