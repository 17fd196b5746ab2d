import Noelle.PostDominance

/-!
# DominatorForest.InstructionOrder

Dominance of instructions.

Instructions of different blocks are compared by their blocks, instructions of one block by
their positions.  In a dominator forest this is an order.  In a post-dominator forest an
instruction does not post-dominate itself, since the search in a block starts at the first
instruction and a hit means that it does not post-dominate the second one.
-/

namespace Noelle

open List

namespace DominatorForest

open DominatorNode

variable {B : Type} [DecidableEq B] {T : DominatorForest B} {f : CFG B} {I J K : Instruction B}
  {a b c : B}

def Covers (T : DominatorForest B) (f : CFG B) (I : Instruction B) : Prop :=
  (∃ n ∈ T.nodes, n.getBlock = I.parent) ∧ I.index < f.size I.parent

/-- The node of the one block is above that of the other. -/
def Above (T : DominatorForest B) (a b : B) : Prop :=
  ∃ n ∈ T.nodes, n.getBlock = a ∧ ∃ m ∈ n.descendants, m.getBlock = b

/-- `dominates` on instructions is a partial order that follows the order of the instructions
in a block, from the last one to the first one for post-dominance, and `strictlyDominates` is
its irreflexive part. -/
structure IsInstructionOrder (T : DominatorForest B) (f : CFG B) : Prop where
  refl : ∀ I, T.Covers f I → T.dominates f I I = some true
  antisymm : ∀ I J, T.Covers f I → T.Covers f J → T.dominates f I J = some true →
    T.dominates f J I = some true → I = J
  trans : ∀ I J K, T.Covers f I → T.Covers f J → T.Covers f K → T.dominates f I J = some true →
    T.dominates f J K = some true → T.dominates f I K = some true
  in_block : ∀ I J, T.Covers f I → T.Covers f J → I.parent = J.parent →
    (T.dominates f I J = some true ↔ if T.post then J.index ≤ I.index else I.index ≤ J.index)
  strict : ∀ I J, T.Covers f I → T.Covers f J →
    (T.strictlyDominates f I J = some true ↔ T.dominates f I J = some true ∧ I ≠ J)

/-! ## Blocks -/

omit [DecidableEq B] in
theorem WF.above_antisymm (h : T.WF) (hab : T.Above a b) (hba : T.Above b a) : a = b := by
  obtain ⟨n, hn, rfl, m, hm, rfl⟩ := hab
  obtain ⟨m', hm', heq, n', hn', heq'⟩ := hba
  obtain rfl := h.node_unique m' hm' m (descendant_mem_nodes hn hm) heq
  obtain rfl := h.node_unique n' (descendant_mem_nodes hm' hn') n hn heq'
  rw [descendants_antisymm hm hn']

omit [DecidableEq B] in
theorem WF.above_trans (h : T.WF) (hab : T.Above a b) (hbc : T.Above b c) : T.Above a c := by
  obtain ⟨n, hn, rfl, m, hm, rfl⟩ := hab
  obtain ⟨m', hm', heq, k, hk, rfl⟩ := hbc
  obtain rfl := h.node_unique m' hm' m (descendant_mem_nodes hn hm) heq
  exact ⟨n, hn, rfl, k, descendants_trans hm hk, rfl⟩

/-- The answer is the order of the forest. -/
theorem WF.dominatesBlock_spec (h : T.WF) (ha : ∃ n ∈ T.nodes, n.getBlock = a)
    (hb : ∃ n ∈ T.nodes, n.getBlock = b) :
    ∃ result, T.dominatesBlock a b = some result ∧ (result = true ↔ T.Above a b) := by
  obtain ⟨n, hn, rfl⟩ := ha
  obtain ⟨m, hm, rfl⟩ := hb
  refine ⟨_, h.dominatesBlock_eq hn hm, (h.dominatesNode_iff hn hm).trans ?_⟩
  constructor
  · exact fun hmem => ⟨n, hn, rfl, m, hmem, rfl⟩
  · rintro ⟨n', hn', heq, m', hm', heq'⟩
    obtain rfl := h.node_unique n' hn' n hn heq
    rwa [← h.node_unique m' (descendant_mem_nodes hn' hm') m hm heq']

/-! ## Instructions -/

theorem Covers.dominates_iff (hI : T.Covers f I) (hJ : T.Covers f J) (heq : I.parent = J.parent) :
    T.dominates f I J = some true ↔ if T.post then J.index < I.index else I.index ≤ J.index := by
  rw [T.dominates_of_parent_eq heq hI.2 hJ.2]
  cases T.post <;> simp

section

variable (h : T.WF) (hI : T.Covers f I) (hJ : T.Covers f J)

include h hI hJ

theorem WF.dominates_iff
    (hne : I.parent ≠ J.parent) : T.dominates f I J = some true ↔ T.Above I.parent J.parent := by
  obtain ⟨result, hresult, hiff⟩ := h.dominatesBlock_spec hI.1 hJ.1
  have heq : T.dominates f I J = some result := (if_neg hne).trans hresult
  rw [heq, Option.some.injEq, hiff]

theorem WF.antisymm (hIJ : T.dominates f I J = some true)
    (hJI : T.dominates f J I = some true) : I = J := by
  by_cases heq : I.parent = J.parent
  · have h₁ := (hI.dominates_iff hJ heq).mp hIJ
    have h₂ := (hJ.dominates_iff hI heq.symm).mp hJI
    cases I
    cases J
    cases hpost : T.post <;> simp_all <;> omega
  · exact absurd (h.above_antisymm ((h.dominates_iff hI hJ heq).mp hIJ)
      ((h.dominates_iff hJ hI (Ne.symm heq)).mp hJI)) heq

/-- The order of instructions is transitive. -/
theorem WF.trans (hK : T.Covers f K) (hIJ : T.dominates f I J = some true)
    (hJK : T.dominates f J K = some true) :
    T.dominates f I K = some true := by
  by_cases h₁ : I.parent = J.parent <;> by_cases h₂ : J.parent = K.parent
  · -- inside one block
    have hpos₁ := (hI.dominates_iff hJ h₁).mp hIJ
    have hpos₂ := (hJ.dominates_iff hK h₂).mp hJK
    refine (hI.dominates_iff hK (h₁.trans h₂)).mpr ?_
    cases hpost : T.post <;> simp_all <;> omega
  · refine (h.dominates_iff hI hK (h₁ ▸ h₂)).mpr ?_
    rw [h₁]
    exact (h.dominates_iff hJ hK h₂).mp hJK
  · refine (h.dominates_iff hI hK (h₂ ▸ h₁)).mpr ?_
    rw [← h₂]
    exact (h.dominates_iff hI hJ h₁).mp hIJ
  · -- the blocks cannot come back to the first one
    have hab := (h.dominates_iff hI hJ h₁).mp hIJ
    have hbc := (h.dominates_iff hJ hK h₂).mp hJK
    have hne : I.parent ≠ K.parent := fun heq => h₁ (h.above_antisymm hab (heq ▸ hbc))
    exact (h.dominates_iff hI hK hne).mpr (h.above_trans hab hbc)

end

/-- **Instruction order**: dominance of instructions is an order, that of the instructions in
each block, exactly in forests that are no post-dominator forests or cover no instruction. -/
theorem isInstructionOrder_iff (h : T.WF) (f : CFG B) :
    T.IsInstructionOrder f ↔ T.post = false ∨ ∀ I, ¬ T.Covers f I := by
  constructor
  · intro horder
    by_contra hnot
    obtain ⟨hpost, hcovered⟩ := not_or.mp hnot
    push Not at hcovered
    obtain ⟨I, hI⟩ := hcovered
    have hself := (hI.dominates_iff hI rfl).mp (horder.refl I hI)
    rw [if_pos (by simpa using hpost)] at hself
    exact absurd hself (lt_irrefl _)
  · rintro (hpost | hnone)
    · have hin : ∀ I J, T.Covers f I → T.Covers f J → I.parent = J.parent →
          (T.dominates f I J = some true ↔ if T.post then J.index ≤ I.index else I.index ≤ J.index) := by
        intro I J hI hJ heq
        rw [hI.dominates_iff hJ heq, hpost]
        rfl
      refine ⟨fun I hI => ?_, fun I J hI hJ => h.antisymm hI hJ, fun I J K hI hJ hK =>
        h.trans hI hJ hK, hin, fun I J _ _ => ?_⟩
      · rw [hin I I hI hI rfl, hpost]
        exact le_rfl
      · unfold strictlyDominates
        by_cases heq : I = J <;> simp [heq]
    · exact ⟨fun I hI => absurd hI (hnone I), fun I _ hI => absurd hI (hnone I),
        fun I _ _ hI => absurd hI (hnone I), fun I _ hI => absurd hI (hnone I),
        fun I _ hI => absurd hI (hnone I)⟩

end DominatorForest

/-- The blocks of a function among those of a tree whose root has no block. -/
def CFG.withNull {B : Type} (f : CFG B) : CFG (Option B) where
  blocks := f.blocks.map some
  size b := b.elim 0 f.size
  successors b := (b.elim [] f.successors).map some
  predecessors b := (b.elim [] f.predecessors).map some
  size_pos := by
    intro o ho
    obtain ⟨b, hb, rfl⟩ := mem_map.mp ho
    exact f.size_pos b hb
  successors_mem := by
    intro o ho p hp
    obtain ⟨b, hb, rfl⟩ := mem_map.mp ho
    obtain ⟨c, hc, rfl⟩ := mem_map.mp hp
    exact mem_map_of_mem (f.successors_mem b hb c hc)
  predecessors_mem := by
    intro o ho p hp
    obtain ⟨c, hc, rfl⟩ := mem_map.mp ho
    obtain ⟨b, hb, rfl⟩ := mem_map.mp hp
    exact mem_map_of_mem (f.predecessors_mem c hc b hb)
  mem_predecessors := by
    intro o ho p hp
    obtain ⟨b, hb, rfl⟩ := mem_map.mp ho
    obtain ⟨c, hc, rfl⟩ := mem_map.mp hp
    show some b ∈ (f.predecessors c).map some ↔ some c ∈ (f.successors b).map some
    simpa using f.mem_predecessors b hb c hc

/-- The first instruction of the last block does not post-dominate itself. -/
theorem ifThenPostDominators_not_isInstructionOrder :
    IsPostDominatorForest ifThenCFG ifThenCFG.IsExit ifThenPostDominators ∧
      ¬ ifThenPostDominators.IsInstructionOrder ifThenCFG.withNull := by
  refine ⟨ifThenPostDominators_spec, fun h => ?_⟩
  have hcovers : ifThenPostDominators.Covers ifThenCFG.withNull ⟨some 2, 0⟩ :=
    ⟨⟨.node (some 2) [.node (some 1) [], .node (some 0) []], by
      simp [DominatorForest.nodes, ifThenPostDominators, DominatorNode.descendantsOfAll,
        DominatorNode.descendants], rfl⟩, by decide⟩
  exact absurd (h.refl _ hcovers) (by decide)

theorem isInstructionOrder_iff_ifThenPostDominators :
    ifThenPostDominators.IsInstructionOrder ifThenCFG.withNull ↔
      ifThenPostDominators.post = false ∨
        ∀ I, ¬ ifThenPostDominators.Covers ifThenCFG.withNull I :=
  DominatorForest.isInstructionOrder_iff ifThenPostDominators_spec.wf ifThenCFG.withNull

end Noelle
