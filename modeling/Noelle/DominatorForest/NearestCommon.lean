import Noelle.Lib.Ancestors
import Noelle.Lib.Loop
import Noelle.PostDominance

/-!
# DominatorForest.NearestCommon

The nearest common dominator of two nodes.

The search collects the ancestors of the one node and climbs from the other one until it
meets one of them.  Both loops end because parents have more descendants.
-/

namespace Noelle

open Relation Option

namespace DominatorForest

open DominatorNode

variable {B : Type} [DecidableEq B]

/-- `DominatorForest::dominates` of one node: the node and its ancestors. -/
def dominators (T : DominatorForest B) (node : DominatorNode B) (fuel : Nat) : Option (PtrSet B) :=
  (loopM (fun s => s.1.isSome)
    (fun s => s.1.map fun node => (T.getParent node, s.2.insert node.getBlock)) fuel
    (some node, ∅)).map (·.2)

/-- `DominatorForest::findNearestCommonDominator` of nodes. -/
def findNearestCommonDominator (T : DominatorForest B) (node1 node2 : DominatorNode B) (fuel : Nat) :
    Option (Option (DominatorNode B)) := do
  let dominatorsOf2 ← T.dominators node2 fuel
  loopM (fun node => node.any fun node => decide (node.getBlock ∉ dominatorsOf2))
    (fun node => node.map T.getParent) fuel (some node1)

variable {T : DominatorForest B} {n m p c : DominatorNode B}

/-! ## Parents -/

def Parent (T : DominatorForest B) (n p : DominatorNode B) : Prop := p ∈ T.nodes ∧ Child p n

section

omit [DecidableEq B]

theorem WF.parent_functional (h : T.WF) {q : DominatorNode B} (hp : T.Parent n p)
    (hq : T.Parent n q) : p = q :=
  h.parent_unique p hp.1 q hq.1 n hp.2 hq.2

theorem reach_parent_iff (hn : n ∈ T.nodes) :
    ReflTransGen T.Parent n c ↔ c ∈ T.nodes ∧ n ∈ c.descendants := by
  constructor
  · intro h
    induction h with
    | refl => exact ⟨hn, self_mem_descendants n⟩
    | tail _ hp ih =>
        refine ⟨hp.1, descendants_trans ?_ ih.2⟩
        exact mem_descendants.mpr (.inr ⟨_, hp.2, self_mem_descendants _⟩)
  · rintro ⟨hc, hdesc⟩
    have hpath := mem_descendants_iff.mp hdesc
    clear hdesc hn
    induction hpath using ReflTransGen.head_induction_on with
    | refl => exact .refl
    | head hchild _ ih => exact (ih (child_mem_nodes hc hchild)).tail ⟨hc, hchild⟩

theorem not_transGen_parent_self (n : DominatorNode B) : ¬ TransGen T.Parent n n := by
  intro h
  obtain ⟨p, hp, hpn⟩ := TransGen.head'_iff.mp h
  have hdesc := mem_descendants_iff.mp ((reach_parent_iff hp.1).mp hpn).2
  exact not_transGen_self p (TransGen.head' hp.2 hdesc)

end

/-- How far a node can be from the top. -/
def climb (T : DominatorForest B) : Option (DominatorNode B) → Nat
  | none => 0
  | some n => T.nodes.length + 1 - n.descendants.length

omit [DecidableEq B] in
theorem climb_le (n : DominatorNode B) : T.climb (some n) ≤ T.nodes.length := by
  have hpos : 0 < n.descendants.length := List.length_pos_of_mem (self_mem_descendants n)
  show T.nodes.length + 1 - n.descendants.length ≤ T.nodes.length
  omega

theorem WF.climb_getParent_lt (h : T.WF) (hn : n ∈ T.nodes) :
    T.climb (T.getParent n) < T.climb (some n) := by
  have hle := length_descendants_le_nodes hn
  cases hp : T.getParent n with
  | none =>
      show 0 < T.nodes.length + 1 - n.descendants.length
      omega
  | some p =>
      obtain ⟨hp, hchild⟩ := (h.getParent_eq_some_iff hn).mp hp
      have hlt := length_descendants_child hchild
      have hle' := length_descendants_le_nodes hp
      show T.nodes.length + 1 - p.descendants.length < T.nodes.length + 1 - n.descendants.length
      omega

/-! ## The loops -/

/-- The dominators of a node are its ancestors and itself. -/
theorem WF.dominators_spec (h : T.WF) (hn : n ∈ T.nodes) {fuel : Nat}
    (hfuel : T.nodes.length ≤ fuel) :
    ∃ dominators, T.dominators n fuel = some dominators ∧
      ∀ m ∈ T.nodes, m.getBlock ∈ dominators ↔ ReflTransGen T.Parent n m := by
  obtain ⟨⟨cur, ds⟩, hloop, ⟨_, hds⟩, hend⟩ := @loopM_rule (Option (DominatorNode B) × PtrSet B)
    (fun s => s.1.isSome) (fun s => s.1.map fun node => (T.getParent node, s.2.insert node.getBlock))
    (fun s => (∀ x, s.1 = some x → x ∈ T.nodes) ∧ ∀ m ∈ T.nodes, ReflTransGen T.Parent n m ↔
      m.getBlock ∈ s.2 ∨ ∃ x, s.1 = some x ∧ ReflTransGen T.Parent x m)
    (fun s => T.climb s.1)
    (by
      rintro ⟨cur, ds⟩ ⟨hcur, hds⟩ hcond
      obtain ⟨x, rfl⟩ := isSome_iff_exists.mp hcond
      have hx := hcur x rfl
      refine ⟨_, rfl, ⟨fun y hy => ?_, fun m hm => ?_⟩, h.climb_getParent_lt hx⟩
      · exact ((h.getParent_eq_some_iff hx).mp hy).1
      · have hself : m.getBlock = x.getBlock ↔ m = x := ⟨h.node_unique m hm x hx, congrArg _⟩
        have hparent : (∃ y, T.getParent x = some y ∧ ReflTransGen T.Parent y m) ↔
            ∃ y, T.Parent x y ∧ ReflTransGen T.Parent y m :=
          exists_congr fun y => and_congr_left fun _ => h.getParent_eq_some_iff hx
        have hhead : ReflTransGen T.Parent x m ↔
            m = x ∨ ∃ y, T.Parent x y ∧ ReflTransGen T.Parent y m := by
          rw [ReflTransGen.cases_head_iff, eq_comm]
        simp only [PtrSet.mem_insert, hself, hparent, hds m hm, some.injEq, exists_eq_left',
          hhead]
        exact or_left_comm.trans or_assoc.symm)
    fuel (some n, ∅)
    ⟨fun x hx => some.inj hx ▸ hn, fun m _ => by simp⟩ ((climb_le n).trans hfuel)
  refine ⟨ds, map_eq_some_iff.mpr ⟨_, hloop, rfl⟩, fun m hm => ?_⟩
  have hnone : cur = none := by simpa using hend
  rw [hds m hm, hnone]
  simp

/-- The climb from the one node ends at the first ancestor of the other one, or without a node
if they have no common ancestor. -/
theorem WF.findNearestCommonDominator_spec (h : T.WF) (hn : n ∈ T.nodes) (hm : m ∈ T.nodes)
    {fuel : Nat} (hfuel : T.nodes.length ≤ fuel) :
    ∃ result, T.findNearestCommonDominator n m fuel = some result ∧
      (∀ c, result = some c → c ∈ T.nodes ∧ IsNearestCommon T.Parent n m c) ∧
      (result = none → ∀ d, ReflTransGen T.Parent n d → ¬ ReflTransGen T.Parent m d) := by
  obtain ⟨dominatorsOf2, hdominators, hof⟩ := h.dominators_spec hm hfuel
  -- the nodes on the way are no ancestors of the other node
  let Below (x y : DominatorNode B) : Prop := T.Parent x y ∧ ¬ ReflTransGen T.Parent m x
  let I (cur : Option (DominatorNode B)) : Prop :=
    (∀ x, cur = some x → x ∈ T.nodes ∧ ReflTransGen Below n x) ∧
      (cur = none → ∀ d, ReflTransGen T.Parent n d → ¬ ReflTransGen T.Parent m d)
  obtain ⟨result, hloop, ⟨hsome, hnone⟩, hend⟩ := @loopM_rule (Option (DominatorNode B))
    (fun node => node.any fun node => decide (node.getBlock ∉ dominatorsOf2))
    (fun node => node.map T.getParent) I T.climb
    (by
      rintro cur ⟨hcur, _⟩ hcond
      obtain ⟨x, rfl⟩ : ∃ x, cur = some x := by
        cases cur with
        | none => nomatch hcond
        | some x => exact ⟨x, rfl⟩
      obtain ⟨hxmem, hway⟩ := hcur x rfl
      have hnot : ¬ ReflTransGen T.Parent m x := fun hreach =>
        of_decide_eq_true hcond ((hof x hxmem).mpr hreach)
      refine ⟨T.getParent x, rfl, ⟨fun y hy => ?_, fun hroot d hd hmd => ?_⟩,
        h.climb_getParent_lt hxmem⟩
      · have hparent : T.Parent x y := (h.getParent_eq_some_iff hxmem).mp hy
        exact ⟨hparent.1, hway.tail ⟨hparent, hnot⟩⟩
      · -- a common ancestor is above the last node of the way, which has no parent
        rcases (reach_of_climb (r := T.Parent) h.parent_functional hway hd hmd).cases_head with rfl | ⟨y, hy, _⟩
        · exact hnot hmd
        · exact some_ne_none y (((h.getParent_eq_some_iff hxmem).mpr hy).symm.trans hroot))
    fuel (some n)
    ⟨fun x hx => some.inj hx ▸ ⟨hn, .refl⟩, fun hno => absurd hno (some_ne_none n)⟩
    ((climb_le n).trans hfuel)
  refine ⟨result, ?_, fun c hc => ?_, hnone⟩
  · unfold findNearestCommonDominator
    rw [hdominators]
    exact hloop
  · obtain ⟨hcmem, hway⟩ := hsome c hc
    have hfound : c.getBlock ∈ dominatorsOf2 := by simpa [hc] using hend
    exact ⟨hcmem, isNearestCommon_of_climb h.parent_functional ((hof c hcmem).mp hfound) hway⟩

/-! ## The result -/

/-- The node is above both nodes, and the other nodes above both are above it. -/
def IsNearestCommonDominator (T : DominatorForest B) (n m c : DominatorNode B) : Prop :=
  c ∈ T.nodes ∧ n ∈ c.descendants ∧ m ∈ c.descendants ∧
    ∀ d ∈ T.nodes, n ∈ d.descendants → m ∈ d.descendants → c ∈ d.descendants

def SameTree (T : DominatorForest B) (n m : DominatorNode B) : Prop :=
  ∃ root ∈ T.roots, n ∈ root.descendants ∧ m ∈ root.descendants

omit [DecidableEq B] in
theorem isNearestCommonDominator_of_parents (hn : n ∈ T.nodes) (hm : m ∈ T.nodes)
    (hc : c ∈ T.nodes) (h : IsNearestCommon T.Parent n m c) : T.IsNearestCommonDominator n m c := by
  refine ⟨hc, ((reach_parent_iff hn).mp h.left).2, ((reach_parent_iff hm).mp h.right).2, ?_⟩
  intro d hd hnd hmd
  have hreach := h.nearest d ((reach_parent_iff hn).mpr ⟨hd, hnd⟩) ((reach_parent_iff hm).mpr ⟨hd, hmd⟩)
  exact ((reach_parent_iff hc).mp hreach).2

omit [DecidableEq B] in
theorem sameTree_of_common (hd : p ∈ T.nodes) (hn : n ∈ p.descendants) (hm : m ∈ p.descendants) :
    T.SameTree n m := by
  obtain ⟨root, hroot, hp⟩ := mem_descendantsOfAll.mp hd
  exact ⟨root, hroot, descendants_trans hp hn, descendants_trans hp hm⟩

theorem WF.findNearestCommonDominator_eq_none_iff (h : T.WF) (hn : n ∈ T.nodes) (hm : m ∈ T.nodes)
    {fuel : Nat} (hfuel : T.nodes.length ≤ fuel) :
    T.findNearestCommonDominator n m fuel = some none ↔ ¬ T.SameTree n m := by
  obtain ⟨result, hresult, hsome, hnone⟩ := h.findNearestCommonDominator_spec hn hm hfuel
  rw [hresult, some.injEq]
  refine ⟨?_, fun hdiff => ?_⟩
  · rintro hno ⟨root, hroot, hnroot, hmroot⟩
    have hmem := root_mem_nodes hroot
    exact hnone hno root ((reach_parent_iff hn).mpr ⟨hmem, hnroot⟩)
      ((reach_parent_iff hm).mpr ⟨hmem, hmroot⟩)
  · cases result with
    | none => rfl
    | some c =>
        obtain ⟨hc, hnearest⟩ := hsome c rfl
        obtain ⟨_, hnc, hmc, _⟩ := isNearestCommonDominator_of_parents hn hm hc hnearest
        exact absurd (sameTree_of_common hc hnc hmc) hdiff

/-- **Nearest common dominator**: the search ends, for both orders of the nodes with the same
answer: the nearest common dominator, or no node if they are in different trees. -/
theorem findNearestCommonDominator_nearest (h : T.WF) (hn : n ∈ T.nodes) (hm : m ∈ T.nodes) :
    ∃ N, ∀ fuel ≥ N, ∃ result, T.findNearestCommonDominator n m fuel = some result ∧
      T.findNearestCommonDominator m n fuel = some result ∧
      (∀ c, result = some c → T.IsNearestCommonDominator n m c) ∧
      (result = none ↔ ¬ T.SameTree n m) := by
  refine ⟨T.nodes.length, fun fuel hfuel => ?_⟩
  have hnone := h.findNearestCommonDominator_eq_none_iff hn hm hfuel
  have hnone' := h.findNearestCommonDominator_eq_none_iff hm hn hfuel
  obtain ⟨result, hresult, hsome, _⟩ := h.findNearestCommonDominator_spec hn hm hfuel
  obtain ⟨result', hresult', hsome', _⟩ := h.findNearestCommonDominator_spec hm hn hfuel
  rw [hresult, some.injEq] at hnone
  rw [hresult', some.injEq] at hnone'
  refine ⟨result, hresult, ?_, fun c hc =>
    isNearestCommonDominator_of_parents hn hm (hsome c hc).1 (hsome c hc).2, hnone⟩
  have hsame : T.SameTree n m ↔ T.SameTree m n := by
    simp only [SameTree, and_comm]
  have heq : result = result' := by
    cases hr : result with
    | none => exact (hnone'.mpr (hsame.not.mp (hnone.mp hr))).symm
    | some c =>
        cases hr' : result' with
        | none => exact absurd (hnone.mpr (hsame.not.mpr (hnone'.mp hr'))) (hr ▸ some_ne_none c)
        | some c' =>
            rw [(hsome c hr).2.unique not_transGen_parent_self (hsome' c' hr').2.symm]
  rw [heq]
  exact hresult'

end DominatorForest

theorem findNearestCommonDominator_nearest_ifThenDominators :
    ∃ N, ∀ fuel ≥ N, ∃ result,
      ifThenDominators.findNearestCommonDominator (.node 1 []) (.node 2 []) fuel = some result ∧
      ifThenDominators.findNearestCommonDominator (.node 2 []) (.node 1 []) fuel = some result ∧
      (∀ c, result = some c →
        ifThenDominators.IsNearestCommonDominator (.node 1 []) (.node 2 []) c) ∧
      (result = none ↔ ¬ ifThenDominators.SameTree (.node 1 []) (.node 2 [])) :=
  DominatorForest.findNearestCommonDominator_nearest ifThenDominators_spec.wf
    (DominatorNode.mem_descendantsOfAll.mpr ⟨_, .head _, by
      simp [DominatorNode.descendants, DominatorNode.descendantsOfAll]⟩)
    (DominatorNode.mem_descendantsOfAll.mpr ⟨_, .head _, by
      simp [DominatorNode.descendants, DominatorNode.descendantsOfAll]⟩)

end Noelle
