import Noelle.DG.TopLevel
import Noelle.Lib.Search

/-!
# SCCDAGAttrs.Governance

`SCCDAGAttrs::isLoopGovernedBySCC`.

The search walks down from the top-level SCCs through those that are loop-iteration independent and
collects the first others that it meets.  From an SCC it goes on to the children that no other child
has a dependence to.  A child that is met this way can have ancestors that the walk never sees, and
an SCC with a self-dependence is never met as a child, nor are the other children of such an SCC.
The answers are right exactly in the graphs without either.
-/

namespace Noelle

open Relation List

namespace SCCDAGAttrs

variable {T S : Type} [DecidableEq T]

/-- `isLoopGovernedBySCC`, with `isa<LoopIterationSCC>` of the metadata of an SCC. -/
def isLoopGovernedBySCC (ord : IterOrder) (g : DG T S) (isLoopIterationSCC : T → Bool)
    (fuel : Nat) (governingSCC : T) : Option Bool := do
  let topLevelSCCs ← searchFrontier
    (fun node => some (ord.visit (g.getNextDepthNodes node).elems))
    (fun node => isLoopIterationSCC node.theT) DGNode.theT fuel
    (ord.visit (g.getTopLevelNodes false).elems)
  if topLevelSCCs.size ≠ 1 then return false
  let topLevelSCC ← (ord.visit topLevelSCCs.elems).head?
  return decide (topLevelSCC = governingSCC)

variable (g : DG T S) (independent : T → Bool)

/-- The SCC crosses iterations and no SCC above it does. -/
def IsFirst (n : DGNode T) : Prop :=
  independent n.theT = false ∧
    ∀ a, TransGen g.Edge a n → a ≠ n → independent a.theT = true

/-- The SCC is the only one that crosses iterations without such an SCC above it. -/
def IsOnlyFirst (t : T) : Prop := ∀ n ∈ g.allNodes, IsFirst g independent n ↔ n.theT = t

/-- The walk through independent SCCs leads to the SCC. -/
def IsMet (n : DGNode T) : Prop :=
  ∃ top ∈ g.getTopLevelNodes false, ReflTransGen
    (fun x y => independent x.theT = true ∧ y ∈ g.getNextDepthNodes x) top n

/-- The walk leads to no SCC that crosses iterations but the given one. -/
def MeetsOnly (t : T) : Prop :=
  ∀ n ∈ g.allNodes, independent n.theT = false ∧ IsMet g independent n ↔ n.theT = t

/-- The walk leads to an SCC that crosses iterations and is not the given one. -/
def MeetsAnother (t : T) : Prop :=
  ∃ n ∈ g.allNodes, n.theT ≠ t ∧ independent n.theT = false ∧ IsMet g independent n

/-- An SCC with a self-dependence has no dependence to or from another SCC. -/
def SelfDependencesApart : Prop := ∀ a b, g.Edge a a → g.Edge a b ∨ g.Edge b a → b = a

/-- Where the walk can step from one SCC to another, the first one and what it depends on is all
that the other one depends on. -/
def StepsCover : Prop :=
  ∀ x y, g.Edge x y → (∀ z, g.Edge x z → ¬ g.Edge z y) →
    ∀ a, TransGen g.Edge a y → a = x ∨ TransGen g.Edge a x

def AnswersRight (ord : IterOrder) (t : T) : Prop :=
  ∃ N, ∀ fuel ≥ N, ∃ b, isLoopGovernedBySCC ord g independent fuel t = some b ∧
    (b = true ↔ IsOnlyFirst g independent t)

variable {g independent} {ord : IterOrder} {n m : DGNode T}

/-! ## What is found -/

variable (ord) in
theorem lists_nextDepth (hg : g.Clean) :
    Lists g.allNodes.elems (fun node => some (ord.visit (g.getNextDepthNodes node).elems))
      fun x y => y ∈ g.getNextDepthNodes x where
  next_eq_some _ _ := ⟨_, rfl, fun _ => ord.mem_visit⟩
  closed _ ha _ hab := (hg.edge_mem ((hg.toWF.mem_getNextDepthNodes ha).mp hab).1).2

/-- The walk goes down. -/
theorem reach_of_way (hg : g.Clean) (hn : n ∈ g.allNodes)
    (h : ReflTransGen (fun x y => y ∈ g.getNextDepthNodes x) n m) : ReflTransGen g.Edge n m := by
  induction h with
  | refl => exact .refl
  | @tail x y hx hxy ih =>
      exact ih.tail ((hg.toWF.mem_getNextDepthNodes (hg.toWF.reach_mem hn ih)).mp hxy).1

/-- A walk down an acyclic graph does not come back: a self-dependence is no step of it. -/
theorem nextDepth_acyclic (hg : g.Clean) (hacyclic : Acyclic g.Edge) :
    ∀ a ∈ g.allNodes.elems, ¬ TransGen (fun x y => y ∈ g.getNextDepthNodes x) a a := by
  intro a ha hcycle
  obtain ⟨b, hab, hba⟩ := TransGen.head'_iff.mp hcycle
  obtain ⟨hedge, hno⟩ := (hg.toWF.mem_getNextDepthNodes ha).mp hab
  obtain rfl : a = b :=
    hacyclic a b ⟨.single hedge, reach_of_way hg (hg.edge_mem hedge).2 hba⟩
  exact hno a hedge hedge

variable (independent) in
/-- The walk ends, and the answer is true if it met that SCC only. -/
theorem isLoopGovernedBySCC_spec (ord : IterOrder) (hg : g.Clean) (hacyclic : Acyclic g.Edge)
    {t : T} (ht : ∃ n ∈ g.allNodes, n.theT = t) :
    ∃ N, ∀ fuel ≥ N, ∃ b, isLoopGovernedBySCC ord g independent fuel t = some b ∧
      (b = true ↔ MeetsOnly g independent t) := by
  have htop : ∀ a ∈ ord.visit (g.getTopLevelNodes false).elems, a ∈ g.allNodes.elems := fun a ha =>
    (hg.toWF.mem_getTopLevelNodes.mp (ord.mem_visit.mp ha)).1
  obtain ⟨N, hN⟩ := (lists_nextDepth ord hg).searchFrontier_spec
    (nextDepth_acyclic hg hacyclic) (fun node => independent node.theT) DGNode.theT htop
  refine ⟨N, fun fuel hfuel => ?_⟩
  obtain ⟨found, hfound, hmem⟩ := hN fuel hfuel
  have hlive : ∀ n, IsMet g independent n → n ∈ g.allNodes := by
    rintro n ⟨top, htop, hway⟩
    refine (lists_nextDepth ord hg).reach_mem (hg.toWF.mem_getTopLevelNodes.mp htop).1
      (ReflTransGen.mono (fun _ _ h => h.2) _ _ hway)
  have hmet : ∀ n ∈ g.allNodes,
      n.theT ∈ found ↔ independent n.theT = false ∧ IsMet g independent n := by
    intro n hn
    rw [hmem]
    constructor
    · rintro ⟨a, heq, ha, top, htop, hway⟩
      have hmeet : IsMet g independent a := ⟨top, ord.mem_visit.mp htop, hway⟩
      obtain rfl := hg.node_ext (hlive a hmeet) hn heq
      exact ⟨ha, hmeet⟩
    · rintro ⟨hdependent, top, htop, hway⟩
      exact ⟨n, rfl, hdependent, top, ord.mem_visit.mpr htop, hway⟩
  have hvalue : ∀ u ∈ found, ∃ n ∈ g.allNodes, n.theT = u := by
    intro u hu
    obtain ⟨a, rfl, -, top, htop, hway⟩ := (hmem u).mp hu
    exact ⟨a, hlive a ⟨top, ord.mem_visit.mp htop, hway⟩, rfl⟩
  have honly : MeetsOnly g independent t ↔ ∀ u, u ∈ found ↔ u = t := by
    constructor
    · intro h u
      constructor
      · intro hu
        obtain ⟨n, hn, rfl⟩ := hvalue u hu
        exact (h n hn).mp ((hmet n hn).mp hu)
      · rintro rfl
        obtain ⟨n, hn, rfl⟩ := ht
        exact (hmet n hn).mpr ((h n hn).mpr rfl)
    · intro h n hn
      rw [← hmet n hn]
      exact h n.theT
  rw [honly]
  unfold isLoopGovernedBySCC
  rw [hfound]
  by_cases hsize : found.size = 1
  · obtain ⟨u, hu⟩ : ∃ u, found.elems = [u] := length_eq_one_iff.mp hsize
    have helems : ∀ v, v ∈ found ↔ v = u := fun v => by
      rw [← PtrSet.mem_elems, hu, mem_singleton]
    have hhead : (ord.visit found.elems).head? = some u := by
      obtain ⟨v, hv, hv'⟩ := ord.exists_head (l := found.elems) (by simp [hu])
      rw [hv', (helems v).mp hv]
    refine ⟨decide (u = t), by simp [hsize, hhead], ?_⟩
    rw [decide_eq_true_eq]
    constructor
    · rintro rfl v
      exact helems v
    · exact fun h => (h u).mp ((helems u).mpr rfl)
  · refine ⟨false, by simp [hsize], ⟨nofun, fun h => ?_⟩⟩
    have hle : found.size ≤ 1 := PtrSet.size_le_length (l := [t]) fun u hu =>
      mem_singleton.mpr ((h u).mp hu)
    have hpos : found.size ≠ 0 := fun hzero => by
      have hnil : found.elems = [] := eq_nil_of_length_eq_zero hzero
      have hnone : t ∈ found.elems := (h t).mpr rfl
      rw [hnil] at hnone
      exact not_mem_nil hnone
    exact absurd (Nat.le_antisymm hle (Nat.one_le_iff_ne_zero.mpr hpos)) hsize

variable (independent) in
/-- The answer is right if the walk meets one SCC exactly where one SCC governs. -/
theorem answersRight_iff (ord : IterOrder) (hg : g.Clean) (hacyclic : Acyclic g.Edge) {t : T}
    (ht : ∃ n ∈ g.allNodes, n.theT = t) :
    AnswersRight g independent ord t ↔ (MeetsOnly g independent t ↔ IsOnlyFirst g independent t) := by
  obtain ⟨N, hN⟩ := isLoopGovernedBySCC_spec independent ord hg hacyclic ht
  constructor
  · rintro ⟨N', hN'⟩
    obtain ⟨b, hb, hmeets⟩ := hN (max N N') (le_max_left N N')
    obtain ⟨b', hb', hright⟩ := hN' (max N N') (le_max_right N N')
    obtain rfl : b = b' := Option.mem_unique hb hb'
    exact hmeets.symm.trans hright
  · intro hsame
    refine ⟨N, fun fuel hfuel => ?_⟩
    obtain ⟨b, hb, hmeets⟩ := hN fuel hfuel
    exact ⟨b, hb, hmeets.trans hsame⟩

/-! ## Nothing is missed where self-dependences are apart -/

section Apart

variable (hg : g.Clean) (hacyclic : Acyclic g.Edge) (hapart : SelfDependencesApart g)

include hg hacyclic hapart

/-- One of the SCCs above is above it directly. -/
theorem exists_lowest_parent (hparent : ∃ p, g.Edge p n ∧ p ≠ n) :
    ∃ p, g.Edge p n ∧ p ≠ n ∧ n ∈ g.getNextDepthNodes p := by
  obtain ⟨p, hp, hne⟩ := hparent
  have hnodes : ∀ a, a ∈ g.allNodes → a ∈ g.allNodes.elems := fun a ha => ha
  obtain ⟨low, ⟨hlow, hlown⟩, hmin⟩ := (hacyclic.swap.wellFounded_above hnodes).has_min
    (fun a => g.Edge a.1 n ∧ a.1 ≠ n) ⟨⟨p, (hg.edge_mem hp).1⟩, hp, hne⟩
  refine ⟨low.1, hlow, hlown, (hg.toWF.mem_getNextDepthNodes low.2).mpr ⟨hlow, fun k hk hkn => ?_⟩⟩
  by_cases hself : k = low.1
  · exact hlown (hapart low.1 n (hself ▸ hk) (.inl hlow)).symm
  · by_cases hkself : k = n
    · exact hlown (hapart n low.1 (hkself ▸ hkn) (.inr hlow))
    · exact hmin ⟨k, (hg.edge_mem hk).2⟩ ⟨hkn, hkself⟩ ⟨.single hk, hself⟩

/-- An SCC below independent ones only is met. -/
theorem isMet_of_ancestors (hn : n ∈ g.allNodes)
    (h : ∀ a, TransGen g.Edge a n → a ≠ n → independent a.theT = true) : IsMet g independent n := by
  have hnodes : ∀ a, a ∈ g.allNodes → a ∈ g.allNodes.elems := fun a ha => ha
  suffices hall : ∀ a : { a // a ∈ g.allNodes },
      (∀ b, TransGen g.Edge b a.1 → b ≠ a.1 → independent b.theT = true) →
        IsMet g independent a.1 from
    hall ⟨n, hn⟩ h
  intro a
  induction a using (hacyclic.wellFounded_above hnodes).induction with
  | h a ih =>
      intro ha
      by_cases hparent : ∃ p, g.Edge p a.1 ∧ p ≠ a.1
      · obtain ⟨p, hp, hne, hnext⟩ := exists_lowest_parent hg hacyclic hapart hparent
        obtain ⟨top, htop, hway⟩ := ih ⟨p, (hg.edge_mem hp).1⟩ ⟨.single hp, hne⟩ fun b hb _ =>
          ha b (hb.tail hp) fun heq => hne
            (hacyclic p a.1 ⟨.single hp, heq ▸ hb.to_reflTransGen⟩)
        exact ⟨top, htop, hway.tail ⟨ha p (.single hp) hne, hnext⟩⟩
      · refine ⟨a.1, hg.toWF.mem_getTopLevelNodes.mpr
          ⟨a.2, fun h => absurd h Bool.false_ne_true, fun e he hdst => ?_⟩, .refl⟩
        by_contra hsrc
        exact hparent ⟨_, ⟨e, he, rfl, hdst⟩, fun heq => hsrc (.inl heq)⟩

end Apart

/-- Above every SCC that crosses iterations, or at it, there is one below no other. -/
theorem exists_isFirst (hg : g.Clean) (hacyclic : Acyclic g.Edge) (hn : n ∈ g.allNodes)
    (hdependent : independent n.theT = false) :
    ∃ f ∈ g.allNodes, IsFirst g independent f ∧ ReflTransGen g.Edge f n := by
  have hnodes : ∀ a, a ∈ g.allNodes → a ∈ g.allNodes.elems := fun a ha => ha
  obtain ⟨f, ⟨hfn, hf⟩, hmin⟩ := (hacyclic.wellFounded_above hnodes).has_min
    (fun a => ReflTransGen g.Edge a.1 n ∧ independent a.1.theT = false)
    ⟨⟨n, hn⟩, .refl, hdependent⟩
  refine ⟨f.1, f.2, ⟨hf, fun a ha hne => ?_⟩, hfn⟩
  by_contra hd
  have hmem : a ∈ g.allNodes := by
    obtain ⟨b, hab, -⟩ := TransGen.head'_iff.mp ha
    exact (hg.edge_mem hab).1
  exact hmin ⟨a, hmem⟩ ⟨ha.to_reflTransGen.trans hfn, Bool.eq_false_of_not_eq_true hd⟩ ⟨ha, hne⟩

section Governed

variable (hg : g.Clean) (hacyclic : Acyclic g.Edge) (hapart : SelfDependencesApart g) {t : T}

include hg hacyclic hapart

/-- An SCC that is the only one met governs. -/
theorem MeetsOnly.isOnlyFirst (honly : MeetsOnly g independent t) : IsOnlyFirst g independent t := by
  have hmet : ∀ n ∈ g.allNodes, IsFirst g independent n → n.theT = t := fun n hn hfirst =>
    (honly n hn).mp ⟨hfirst.1, isMet_of_ancestors hg hacyclic hapart hn hfirst.2⟩
  refine fun n hn => ⟨hmet n hn, fun hnt => ⟨((honly n hn).mpr hnt).1, fun a ha hne => ?_⟩⟩
  by_contra hdependent
  have hmem : a ∈ g.allNodes := by
    obtain ⟨b, hab, -⟩ := TransGen.head'_iff.mp ha
    exact (hg.edge_mem hab).1
  -- the first SCC above this ancestor is met too, so it is this one
  obtain ⟨f, hf, hfirst, hfa⟩ :=
    exists_isFirst hg hacyclic hmem (Bool.eq_false_of_not_eq_true hdependent)
  obtain rfl : f = n := hg.node_ext hf hn ((hmet f hf hfirst).trans hnt.symm)
  exact hne (hacyclic a f ⟨ha.to_reflTransGen, hfa⟩)

/-- An SCC that governs is met, so it is the only one met if the walk does not go round it. -/
theorem IsOnlyFirst.meetsOnly_iff (hfirst : IsOnlyFirst g independent t) :
    MeetsOnly g independent t ↔ ¬ MeetsAnother g independent t := by
  constructor
  · rintro honly ⟨n, hn, hne, hmet⟩
    exact hne ((honly n hn).mp hmet)
  · refine fun hno n hn => ⟨fun hmet => ?_, fun hnt => ?_⟩
    · by_contra hne
      exact hno ⟨n, hn, hne, hmet⟩
    · have hn' := (hfirst n hn).mpr hnt
      exact ⟨hn'.1, isMet_of_ancestors hg hacyclic hapart hn hn'.2⟩

end Governed

/-- **Governance without self-dependences**: whatever the walk misses or meets in addition, an SCC
that it says to govern the loop does. -/
theorem isLoopGovernedBySCC_sound (independent : T → Bool) (ord : IterOrder) (hg : g.Clean)
    (hacyclic : Acyclic g.Edge) (hirrefl : ∀ a, ¬ g.Edge a a) {t : T}
    (ht : ∃ n ∈ g.allNodes, n.theT = t) :
    ∃ N, ∀ fuel ≥ N, ∃ b, isLoopGovernedBySCC ord g independent fuel t = some b ∧
      (b = true → IsOnlyFirst g independent t) := by
  obtain ⟨N, hN⟩ := isLoopGovernedBySCC_spec independent ord hg hacyclic ht
  refine ⟨N, fun fuel hfuel => ?_⟩
  obtain ⟨b, hb, hiff⟩ := hN fuel hfuel
  refine ⟨b, hb, fun htrue => (hiff.mp htrue).isOnlyFirst hg hacyclic fun a _ ha _ => ?_⟩
  exact absurd ha (hirrefl a)

/-! ## When the answers are right -/

/-- Where the steps of the walk cover what is above, an SCC is met below independent ones only. -/
theorem IsMet.isFirst (hg : g.Clean) (hcover : StepsCover g) (hmet : IsMet g independent n)
    (hdependent : independent n.theT = false) : IsFirst g independent n := by
  refine ⟨hdependent, ?_⟩
  obtain ⟨top, htop, hway⟩ := hmet
  have htop := hg.toWF.mem_getTopLevelNodes.mp htop
  clear hdependent
  induction hway with
  | refl =>
      -- only the top-level SCC itself is above it
      refine fun a ha hne => absurd ?_ hne
      refine ReflTransGen.head_induction_on ha.to_reflTransGen rfl fun hbc _ hc => ?_
      obtain ⟨e, he, rfl, hdst⟩ := hbc
      exact (htop.2.2 e he (hdst.trans hc)).resolve_right fun h => Bool.false_ne_true h.1
  | @tail x y hx hxy ih =>
      intro a ha hne
      have hxmem : x ∈ g.allNodes := by
        refine (lists_nextDepth .stored hg).reach_mem htop.1 ?_
        exact ReflTransGen.mono (fun _ _ h => h.2) _ _ hx
      obtain ⟨hedge, hno⟩ := (hg.toWF.mem_getNextDepthNodes hxmem).mp hxy.2
      rcases hcover x y hedge hno a ha with rfl | hax
      · exact hxy.1
      · by_cases hself : a = x
        · exact hself ▸ hxy.1
        · exact ih a hax hself

/-- A way to an SCC stays one where the SCCs that it steps from are still independent. -/
theorem way_of_avoids (independent independent' : T → Bool) (hg : g.Clean) {top : DGNode T}
    (htop : top ∈ g.allNodes)
    (hway : ReflTransGen (fun x y => independent x.theT = true ∧ y ∈ g.getNextDepthNodes x) top n)
    (havoids : ∀ x y, g.Edge x y → (∀ k, g.Edge x k → ¬ g.Edge k y) → ReflTransGen g.Edge y n →
      independent x.theT = true → independent' x.theT = true) :
    ReflTransGen (fun x y => independent' x.theT = true ∧ y ∈ g.getNextDepthNodes x) top n := by
  induction hway using ReflTransGen.head_induction_on with
  | refl => exact .refl
  | head hxy hy ih =>
      obtain ⟨hedge, hno⟩ := (hg.toWF.mem_getNextDepthNodes htop).mp hxy.2
      have hmem := (hg.edge_mem hedge).2
      have hdown := reach_of_way hg hmem (ReflTransGen.mono (fun _ _ h => h.2) _ _ hy)
      exact .head ⟨havoids _ _ hedge hno hdown hxy.1, hxy.2⟩ (ih hmem)

section Classifications

variable (hg : g.Clean) (hacyclic : Acyclic g.Edge)
  (hright : ∀ (independent : T → Bool) t, (∃ n ∈ g.allNodes, n.theT = t) →
    (MeetsOnly g independent t ↔ IsOnlyFirst g independent t))

include hg hacyclic hright

omit hacyclic in
/-- If all SCCs but one are independent, that one is met. -/
theorem isMet_alone (hn : n ∈ g.allNodes) : IsMet g (fun t => decide (t ≠ n.theT)) n := by
  have hfirst : IsOnlyFirst g (fun t => decide (t ≠ n.theT)) n.theT := by
    refine fun m hm => ⟨fun h => by simpa using h.1, fun hmn => ?_⟩
    obtain rfl := hg.node_ext hm hn hmn
    refine ⟨by simp, fun a ha hne => decide_eq_true fun heq => hne ?_⟩
    obtain ⟨b, hab, -⟩ := TransGen.head'_iff.mp ha
    exact hg.node_ext (hg.edge_mem hab).1 hn heq
  exact (((hright _ _ ⟨n, hn, rfl⟩).mpr hfirst n hn).mpr rfl).2

/-- If all SCCs but one and one above it are independent, it is not met. -/
theorem not_isMet_below (ham : TransGen g.Edge m n) (hne : m ≠ n) :
    ¬ IsMet g (fun t => decide (t ≠ m.theT ∧ t ≠ n.theT)) n := by
  have hm : m ∈ g.allNodes := by
    obtain ⟨b, hab, -⟩ := TransGen.head'_iff.mp ham
    exact (hg.edge_mem hab).1
  have hn : n ∈ g.allNodes := by
    obtain ⟨b, -, hbn⟩ := TransGen.tail'_iff.mp ham
    exact (hg.edge_mem hbn).2
  have hfirst : IsOnlyFirst g (fun t => decide (t ≠ m.theT ∧ t ≠ n.theT)) m.theT := by
    refine fun k hk => ⟨fun h => ?_, fun hkm => ?_⟩
    · by_contra hkm
      have hkn : k.theT = n.theT := by simpa [hkm] using h.1
      obtain rfl := hg.node_ext hk hn hkn
      simpa using h.2 m ham hne
    · obtain rfl := hg.node_ext hk hm hkm
      refine ⟨by simp, fun a ha hak => decide_eq_true ⟨fun heq => hak ?_, fun heq => hne ?_⟩⟩
      all_goals
        obtain ⟨b, hab, -⟩ := TransGen.head'_iff.mp ha
      · exact hg.node_ext (hg.edge_mem hab).1 hk heq
      · obtain rfl := hg.node_ext (hg.edge_mem hab).1 hn heq
        exact hacyclic k a ⟨ham.to_reflTransGen, ha.to_reflTransGen⟩
  intro hmet
  have heq := ((hright _ _ ⟨m, hm, rfl⟩).mpr hfirst n hn).mp ⟨by simp, hmet⟩
  exact hne (hg.node_ext hm hn heq.symm)

/-- A self-dependence hides what is next to it. -/
theorem selfDependencesApart_of_right : SelfDependencesApart g := by
  intro a b ha hab
  have hamem := (hg.edge_mem ha).1
  by_contra hne
  rcases hab with hab | hba
  · -- the way to `b` steps from no SCC with a self-dependence
    obtain ⟨top, htop, hway⟩ := isMet_alone hg hright (hg.edge_mem hab).2
    have htopmem := (hg.toWF.mem_getTopLevelNodes.mp htop).1
    refine not_isMet_below hg hacyclic hright (.single hab) (fun h => hne h.symm)
      ⟨top, htop, way_of_avoids (fun t => decide (t ≠ b.theT))
        (fun t => decide (t ≠ a.theT ∧ t ≠ b.theT)) hg htopmem hway fun x y hxy hno _ hx => ?_⟩
    refine decide_eq_true ⟨fun heq => ?_, by simpa using hx⟩
    obtain rfl := hg.node_ext (hg.edge_mem hxy).1 hamem heq
    exact hno x ha hxy
  · obtain ⟨top, htop, hway⟩ := isMet_alone hg hright hamem
    have htop := hg.toWF.mem_getTopLevelNodes.mp htop
    rcases ReflTransGen.cases_tail hway with rfl | ⟨x, hx, -, hnext⟩
    · obtain ⟨e, he, rfl, hdst⟩ := hba
      exact hne ((htop.2.2 e he hdst).resolve_right fun h => Bool.false_ne_true h.1)
    · have hxmem : x ∈ g.allNodes :=
        (lists_nextDepth .stored hg).reach_mem htop.1 (ReflTransGen.mono (fun _ _ h => h.2) _ _ hx)
      obtain ⟨hxa, hno⟩ := (hg.toWF.mem_getNextDepthNodes hxmem).mp hnext
      exact hno a hxa ha

/-- A step of the walk that does not cover what is above leads round it. -/
theorem stepsCover_of_right : StepsCover g := by
  intro x y hxy hno a hay
  have hnotxy : x ≠ y := by
    rintro rfl
    exact hno x hxy hxy
  have hne : a ≠ y := by
    rintro rfl
    obtain ⟨b, hab, hba⟩ := TransGen.head'_iff.mp hay
    obtain rfl := hacyclic a b ⟨.single hab, hba⟩
    exact hno a hxy hab
  by_contra hcover
  obtain ⟨hax, hnotax⟩ := not_or.mp hcover
  have ha : a ∈ g.allNodes := by
    obtain ⟨b, hab, -⟩ := TransGen.head'_iff.mp hay
    exact (hg.edge_mem hab).1
  obtain ⟨hx, hy⟩ := hg.edge_mem hxy
  obtain ⟨top, htop, hway⟩ := isMet_alone hg hright hx
  have htopmem := (hg.toWF.mem_getTopLevelNodes.mp htop).1
  have hround := way_of_avoids (fun t => decide (t ≠ x.theT))
    (fun t => decide (t ≠ a.theT ∧ t ≠ y.theT)) hg htopmem hway fun u v huv _ hvx _ => by
      have hu := (hg.edge_mem huv).1
      refine decide_eq_true ⟨fun heq => ?_, fun heq => ?_⟩
      · obtain rfl := hg.node_ext hu ha heq
        exact hnotax (TransGen.head' huv hvx)
      · obtain rfl := hg.node_ext hu hy heq
        exact hnotxy (hacyclic x u ⟨.single hxy, .head huv hvx⟩)
  refine not_isMet_below hg hacyclic hright hay hne ⟨top, htop, hround.tail ⟨?_, ?_⟩⟩
  · exact decide_eq_true ⟨fun heq => hax (hg.node_ext ha hx heq.symm),
      fun heq => hnotxy (hg.node_ext hx hy heq)⟩
  · exact (hg.toWF.mem_getNextDepthNodes hx).mpr ⟨hxy, hno⟩

end Classifications

/-- **Loop governance**: all answers about a graph are right if and only if its self-dependences are
apart and the steps of the walk cover what is above; with the self-dependences apart, an answer
is right if and only if the walk does not go round an SCC that governs. -/
theorem isLoopGovernedBySCC_iff (ord : IterOrder) (hg : g.Clean) (hacyclic : Acyclic g.Edge) :
    ((∀ independent t, (∃ n ∈ g.allNodes, n.theT = t) → AnswersRight g independent ord t) ↔
      SelfDependencesApart g ∧ StepsCover g) ∧
    (SelfDependencesApart g → ∀ independent t, (∃ n ∈ g.allNodes, n.theT = t) →
      (AnswersRight g independent ord t ↔
        (IsOnlyFirst g independent t → ¬ MeetsAnother g independent t))) := by
  have hone : SelfDependencesApart g → ∀ independent t, (∃ n ∈ g.allNodes, n.theT = t) →
      (AnswersRight g independent ord t ↔
        (IsOnlyFirst g independent t → ¬ MeetsAnother g independent t)) := by
    intro hapart independent t ht
    rw [answersRight_iff independent ord hg hacyclic ht]
    constructor
    · exact fun hsame hfirst => (hfirst.meetsOnly_iff hg hacyclic hapart).mp (hsame.mpr hfirst)
    · refine fun hround => ⟨fun honly => honly.isOnlyFirst hg hacyclic hapart, fun hfirst => ?_⟩
      exact (hfirst.meetsOnly_iff hg hacyclic hapart).mpr (hround hfirst)
  refine ⟨⟨fun hall => ?_, ?_⟩, hone⟩
  · have hright : ∀ independent t, (∃ n ∈ g.allNodes, n.theT = t) →
        (MeetsOnly g independent t ↔ IsOnlyFirst g independent t) := fun independent t ht =>
      (answersRight_iff independent ord hg hacyclic ht).mp (hall independent t ht)
    exact ⟨selfDependencesApart_of_right hg hacyclic hright, stepsCover_of_right hg hacyclic hright⟩
  · rintro ⟨hapart, hcover⟩ independent t ht
    refine (hone hapart independent t ht).mpr ?_
    rintro hfirst ⟨n, hn, hne, hdependent, hmet⟩
    exact hne ((hfirst n hn).mp (hmet.isFirst hg hcover hdependent))

/-- An independent SCC 1 and an SCC 2 that crosses iterations, with an SCC 3 that depends on
both. -/
def sharedChildHistory : List (DG.Op Nat Nat) :=
  [.addNode 1 true, .addNode 2 true, .addNode 3 true, .addUndefinedDependenceEdge 1 3,
    .addUndefinedDependenceEdge 2 3]

def sharedChild : DG Nat Nat :=
  (DG.execute (fun _ => false) (DG.empty 0) sharedChildHistory).getD (DG.empty 0)

theorem sharedChild_clean : sharedChild.Clean := DG.clean_of_history _ 0 (by decide)

theorem sharedChild_lt {a b : DGNode Nat} (h : sharedChild.Edge a b) : a.theT < b.theT := by
  obtain ⟨e, he, rfl, rfl⟩ := h
  have hall : ∀ e ∈ sharedChild.allEdges.elems, e.srcNode.theT < e.dstNode.theT := by decide
  exact hall e he

theorem sharedChild_acyclic : Acyclic sharedChild.Edge := by
  refine Acyclic.of_lt (fun n => 3 - n.theT) fun a b hab => ?_
  have hall : ∀ e ∈ sharedChild.allEdges.elems, 3 - e.dstNode.theT < 3 - e.srcNode.theT := by decide
  obtain ⟨e, he, rfl, rfl⟩ := hab
  exact hall e he

theorem isLoopGovernedBySCC_sound_sharedChild : ∃ N, ∀ fuel ≥ N, ∃ b,
    isLoopGovernedBySCC .stored sharedChild (fun t => decide (t ≠ 3)) fuel 3 = some b ∧
      (b = true → IsOnlyFirst sharedChild (fun t => decide (t ≠ 3)) 3) :=
  isLoopGovernedBySCC_sound _ .stored sharedChild_clean sharedChild_acyclic
    (fun _ h => lt_irrefl _ (sharedChild_lt h)) ⟨⟨0, 2, 3⟩, by decide⟩

theorem isLoopGovernedBySCC_sharedChild :
    ((∀ independent t, (∃ n ∈ sharedChild.allNodes, n.theT = t) →
        AnswersRight sharedChild independent .stored t) ↔
      SelfDependencesApart sharedChild ∧ StepsCover sharedChild) ∧
    (SelfDependencesApart sharedChild → ∀ independent t, (∃ n ∈ sharedChild.allNodes, n.theT = t) →
      (AnswersRight sharedChild independent .stored t ↔
        (IsOnlyFirst sharedChild independent t → ¬ MeetsAnother sharedChild independent t))) :=
  isLoopGovernedBySCC_iff .stored sharedChild_clean sharedChild_acyclic

/-- The SCC 2 governs the loop, since the SCC 3 is below it; the walk meets both. -/
theorem sharedChild_not_governed :
    sharedChild.Clean ∧ Acyclic sharedChild.Edge ∧ (∀ a, ¬ sharedChild.Edge a a) ∧
      IsOnlyFirst sharedChild (fun t => decide (t = 1)) 2 ∧
      isLoopGovernedBySCC .stored sharedChild (fun t => decide (t = 1)) 4 2 = some false := by
  refine ⟨sharedChild_clean, sharedChild_acyclic, fun a h => lt_irrefl _ (sharedChild_lt h),
    fun n hn => ?_, by decide +kernel⟩
  have hnodes : ∀ n ∈ sharedChild.allNodes.elems,
      n = ⟨0, 0, 1⟩ ∨ n = ⟨0, 1, 2⟩ ∨ n = ⟨0, 2, 3⟩ := by decide
  have hsources : ∀ e ∈ sharedChild.allEdges.elems, e.dstNode.theT = 3 := by decide
  rcases hnodes n hn with rfl | rfl | rfl
  · exact ⟨fun h => absurd h.1 (by decide), fun h => absurd h (by decide)⟩
  · refine ⟨fun _ => rfl, fun _ => ⟨by decide, fun a ha _ => ?_⟩⟩
    obtain ⟨b, -, e, he, -, hdst⟩ := TransGen.tail'_iff.mp ha
    have hthree := hsources e he
    rw [hdst] at hthree
    exact absurd hthree (by decide)
  · refine ⟨fun h => ?_, fun h => absurd h (by decide)⟩
    have hedge : sharedChild.Edge ⟨0, 1, 2⟩ ⟨0, 2, 3⟩ := by
      have hex : ∃ e ∈ sharedChild.allEdges.elems,
          e.srcNode = ⟨0, 1, 2⟩ ∧ e.dstNode = ⟨0, 2, 3⟩ := by decide
      exact hex
    exact absurd (h.2 ⟨0, 1, 2⟩ (.single hedge) (by decide)) (by decide)

end SCCDAGAttrs

end Noelle
