import Noelle.LoopCarriedDependencies.ReachHeader

/-!
# LoopCarriedDependencies.HeaderPhis

Dependences into the PHI nodes of the header of the analysed loop.

Every block of a natural loop reaches the header inside the loop, so the search for the
header succeeds.  The decision then depends on dominance alone: an instruction of the
loop dominates a PHI node of the header only if it stands before it in the header.
-/

namespace Noelle

open Relation List

namespace LoopCarriedDependencies

variable {F V B : Type} [DecidableEq V] [DecidableEq B]

/-! ## The decision -/

variable {f : CFG B} {entry : B} {LS : LoopStructure F B} {ir : SSAFunction V B} {loopNode : LoopTree F B} {DT : DominatorForest B} {U : B → Prop}
  {edge : DGEdge V} {producerI consumerI : Instruction B}

section

variable (hloop : loopNode.IsNatural ir.cfg ir.entry)
  (hDT : IsDominatorForest ir.cfg.Flow ir.entry U DT) (hU : ∀ b ∈ loopNode.getLoop.bbs, U b)

include hloop hDT hU

omit [DecidableEq V] in
/-- An instruction of the loop that dominates an instruction of the header stands in the
header. -/
theorem dominates_header (hproducer : ir.cfg.Contains producerI)
    (hproducerIn : producerI.parent ∈ loopNode.getLoop.bbs) (hconsumer : ir.cfg.Contains consumerI)
    (hconsumerIn : consumerI.parent = loopNode.getLoop.header) :
    ∃ result, DT.dominates ir.cfg producerI consumerI = some result ∧ (result = true ↔
      producerI.parent = loopNode.getLoop.header ∧ producerI.index ≤ consumerI.index) := by
  have hheaderIn : consumerI.parent ∈ loopNode.getLoop.bbs := hconsumerIn ▸ hloop.loop.header_mem
  obtain ⟨result, hresult, hiff⟩ :=
    hDT.dominates_spec (hU _ hproducerIn) (hU _ hheaderIn) hproducer hconsumer
  refine ⟨result, hresult, hiff.trans ?_⟩
  rw [hconsumerIn]
  by_cases hparent : producerI.parent = loopNode.getLoop.header
  · rw [if_pos hparent]
    exact (and_iff_right hparent).symm
  · rw [if_neg hparent]
    refine iff_of_false (fun hdom => hparent ?_) (fun h => hparent h.1)
    have hnatural := (hloop.loop.mem_iff _).mp hproducerIn
    exact hdom.antisymm hnatural.1 hnatural.dominates

omit [DecidableEq V] in
theorem dominates_headerBranch (hconsumer : ir.asInstruction edge.getDst = some consumerI)
    (hconsumerIn : consumerI.parent = loopNode.getLoop.header)
    (hphi : ir.isPHINode edge.getDst = true) :
    DT.dominates ir.cfg (ir.cfg.getTerminator loopNode.getLoop.header) consumerI = some false := by
  have hcontains := ir.contains _ _ hconsumer
  have hblock : loopNode.getLoop.header ∈ ir.cfg.blocks := hconsumerIn ▸ hcontains.1
  obtain ⟨result, hresult, hiff⟩ := dominates_header hloop hDT hU
    (CFG.contains_getTerminator hblock) hloop.loop.header_mem hcontains hconsumerIn
  cases result with
  | false => exact hresult
  | true =>
      have hle := (hiff.mp rfl).2
      have hlt := hcontains.2
      rw [hconsumerIn] at hlt
      refine absurd ?_ (ir.phi_not_terminator _ _ hconsumer hphi)
      cases consumerI with
      | mk parent index =>
          dsimp only [CFG.getTerminator] at *
          rw [Instruction.mk.injEq]
          exact ⟨rfl, by rw [hconsumerIn]; omega⟩

end

/-- The test on a data dependence. -/
theorem isALoopCarriedDependence_variable {fuel : Nat}
    {producerLoop consumerLoop : LoopStructure F B} (hkind : edge.kind = .variableDependence)
    (hproducer : ir.asInstruction edge.getSrc = some producerI)
    (hconsumer : ir.asInstruction edge.getDst = some consumerI)
    (hproducerLoop : loopNode.getInnermostLoopThatContains producerI.parent = some producerLoop)
    (hconsumerLoop : loopNode.getInnermostLoopThatContains consumerI.parent = some consumerLoop) :
    isALoopCarriedDependence ir loopNode DT edge fuel =
      (if producerI = consumerI then some true
        else (DT.dominates ir.cfg producerI consumerI).map (!·)).bind fun isProducerNotBefore =>
      if !isProducerNotBefore then some false
      else
        (canBasicBlockReachHeaderBeforeOther ir.cfg consumerLoop producerI.parent consumerI.parent
          fuel).bind fun canReachHeader =>
        if !canReachHeader then some false
        else
          (DT.dominates ir.cfg consumerI producerI).bind fun isConsumerBefore =>
          if !isConsumerBefore then some true
          else
            (DT.dominates ir.cfg (ir.cfg.getTerminator loopNode.getLoop.getHeader) consumerI).bind
              fun isConsumerBelowHeader =>
                some !(isConsumerBelowHeader && ir.isPHINode edge.getDst) := by
  by_cases heq : producerI = consumerI <;>
    simp [isALoopCarriedDependence, hkind, hproducer, hconsumer, hproducerLoop, hconsumerLoop,
      DependenceKind.isMemory, heq]

/-- A dependence from an instruction of the loop into a PHI node of the header is
reported, unless the source is a PHI node of the header that stands before it. -/
theorem isALoopCarriedDependence_headerPHI (hloop : loopNode.IsNatural ir.cfg ir.entry)
    (hDT : IsDominatorForest ir.cfg.Flow ir.entry U DT) (hU : ∀ b ∈ loopNode.getLoop.bbs, U b)
    (hkind : edge.kind = .variableDependence)
    (hproducer : ir.asInstruction edge.getSrc = some producerI)
    (hproducerIn : producerI.parent ∈ loopNode.getLoop.bbs)
    (hconsumer : ir.asInstruction edge.getDst = some consumerI)
    (hconsumerIn : consumerI.parent = loopNode.getLoop.header)
    (hphi : ir.isPHINode edge.getDst = true) {fuel : Nat}
    (hfuel : ir.cfg.blocks.length + 1 ≤ fuel) :
    isALoopCarriedDependence ir loopNode DT edge fuel = some true ↔
      ¬ (ir.isPHINode edge.getSrc = true ∧ producerI.parent = loopNode.getLoop.header ∧
        producerI.index < consumerI.index) := by
  have hproducerC := ir.contains _ _ hproducer
  have hconsumerC := ir.contains _ _ hconsumer
  have hheaderIn : consumerI.parent ∈ loopNode.getLoop.bbs := hconsumerIn ▸ hloop.loop.header_mem
  obtain ⟨producerLoop, hproducerLoop, -⟩ := LoopTree.getInnermost_spec (P := fun _ => True)
    hproducerIn fun _ _ _ => trivial
  have hconsumerLoop : loopNode.getInnermostLoopThatContains consumerI.parent =
      some loopNode.getLoop := by
    rw [hconsumerIn]
    exact hloop.getInnermost_header
  -- the first comparison: is the producer before the consumer in the header?
  have hbefore : ∃ isProducerNotBefore, (if producerI = consumerI then some true
      else (DT.dominates ir.cfg producerI consumerI).map (!·)) = some isProducerNotBefore ∧
      (isProducerNotBefore = false ↔
        producerI.parent = loopNode.getLoop.header ∧ producerI.index < consumerI.index) := by
    by_cases heq : producerI = consumerI
    · refine ⟨true, if_pos heq, ?_⟩
      simp [heq]
    · obtain ⟨result, hresult, hiff⟩ :=
        dominates_header hloop hDT hU hproducerC hproducerIn hconsumerC hconsumerIn
      refine ⟨!result, by rw [if_neg heq, hresult]; rfl, ?_⟩
      rw [Bool.not_eq_false', hiff]
      refine and_congr_right fun hparent => ⟨fun hle => lt_of_le_of_ne hle fun hindex => heq ?_,
        le_of_lt⟩
      cases producerI
      cases consumerI
      simp_all
  obtain ⟨isProducerNotBefore, hnotBefore, hiff⟩ := hbefore
  have hreach : canBasicBlockReachHeaderBeforeOther ir.cfg loopNode.getLoop producerI.parent
      consumerI.parent fuel = some true := by
    rw [hconsumerIn]
    exact canBasicBlockReachHeaderBeforeOther_header hloop.loop ir.entry_mem hproducerIn hfuel
  obtain ⟨isConsumerBefore, hconsumerBefore, -⟩ :=
    hDT.dominates_spec (hU _ hheaderIn) (hU _ hproducerIn) hconsumerC hproducerC
  have hbranch := dominates_headerBranch hloop hDT hU hconsumer hconsumerIn hphi
  rw [isALoopCarriedDependence_variable hkind hproducer hconsumer hproducerLoop hconsumerLoop,
    hnotBefore]
  cases isProducerNotBefore with
  | false =>
      obtain ⟨hparent, hlt⟩ := hiff.mp rfl
      have hsrcPhi : ir.isPHINode edge.getSrc = true := ir.phis_first _ _ _ _ hconsumer hproducer
        hphi (hparent.trans hconsumerIn.symm) hlt.le
      simp [hsrcPhi, hparent, hlt]
  | true =>
      refine iff_of_true ?_ fun h => Bool.noConfusion (hiff.mpr h.2)
      cases isConsumerBefore with
      | false => simp [hreach, hconsumerBefore]
      | true => simp [hreach, hconsumerBefore, LoopStructure.getHeader, hbranch]

/-! ## Two PHI nodes that swap their values -/

def swapCFG : CFG (Fin 3) where
  blocks := [0, 1, 2]
  size := ![1, 3, 1]
  successors := ![[1], [1, 2], []]
  predecessors := ![[], [0, 1], [1]]
  size_pos := CFG.selfLoop_size_pos
  successors_mem := CFG.selfLoop_successors_mem
  predecessors_mem := CFG.selfLoop_predecessors_mem
  mem_predecessors := CFG.selfLoop_mem_predecessors

/-- The values `0` to `4` are instructions, the others are arguments. -/
def swapInstruction : Fin 7 → Option (Instruction (Fin 3)) :=
  ![some ⟨1, 0⟩, some ⟨1, 1⟩, some ⟨1, 2⟩, some ⟨0, 0⟩, some ⟨2, 0⟩, none, none]

/-- The block `1` starts with `%0 = phi [%5, 0], [%1, 1]` and `%1 = phi [%6, 0], [%0, 1]`. -/
def swapFunction : SSAFunction (Fin 7) (Fin 3) where
  cfg := swapCFG
  entry := 0
  entry_mem := by decide
  asInstruction := swapInstruction
  isPHINode v := decide (v = 0 ∨ v = 1)
  incomingValues := ![[(0, 5), (1, 1)], [(0, 6), (1, 0)], [], [], [], [], []]
  getPointerOperand _ := none
  contains := (by decide : ∀ v, ∀ i ∈ swapInstruction v,
    i.parent ∈ swapCFG.blocks ∧ i.index < swapCFG.size i.parent)
  asInstruction_inj := (by decide : ∀ v w, ∀ i ∈ swapInstruction v, i ∈ swapInstruction w → v = w)
  phis_first v w i j hi hj :=
    (by decide : ∀ v w, ∀ i ∈ swapInstruction v, ∀ j ∈ swapInstruction w,
      decide (v = 0 ∨ v = 1) = true → j.parent = i.parent → j.index ≤ i.index →
        decide (w = 0 ∨ w = 1) = true) v w i hi j hj
  phi_not_terminator := (by decide : ∀ v, ∀ i ∈ swapInstruction v,
    decide (v = 0 ∨ v = 1) = true → i ≠ swapCFG.getTerminator i.parent)

def swapLoop : LoopTree Unit (Fin 3) :=
  .node { self := 0, function := (), header := 1, depth := 1, bbs := ⟨[1], by decide⟩ } []

def swapDominators : DominatorForest (Fin 3) := ⟨[.node 0 [.node 1 [.node 2 []]]], false⟩

def swapEdge (src dst : Fin 7) : DGEdge (Fin 7) where
  owner := 0
  addr := 0
  srcNode := ⟨0, 0, src⟩
  dstNode := ⟨0, 1, dst⟩
  kind := .variableDependence
  dataDepType := some .raw

theorem swapFlow_iff {b c : Fin 3} :
    swapFunction.cfg.Flow b c ↔ (b = 0 ∧ c = 1) ∨ (b = 1 ∧ (c = 1 ∨ c = 2)) := by
  unfold CFG.Flow
  revert b c
  decide

theorem swapPath_avoiding {b : Fin 3} (h : PathAvoiding swapFunction.cfg.Flow 1 0 b) : b = 0 := by
  obtain ⟨_, hpath⟩ := h
  induction hpath with
  | refl => rfl
  | tail _ hyz ih =>
      obtain ⟨hflow, hne⟩ := hyz
      rcases swapFlow_iff.mp hflow with ⟨_, h⟩ | ⟨h, _⟩
      · exact absurd h hne
      · exact absurd (ih.symm.trans h) (by decide)

theorem swapLoop_isNatural : swapLoop.IsNatural swapFunction.cfg swapFunction.entry := by
  have hlatch : IsLatch swapFunction.cfg.Flow swapFunction.entry 1 1 :=
    ⟨swapFlow_iff.mpr (by decide), .refl 1, .single (swapFlow_iff.mpr (by decide))⟩
  refine ⟨⟨by decide, fun b => ⟨fun hb => ?_, fun hb => ?_⟩⟩, fun p hp => .inl ?_⟩
  · have hb1 : b = 1 := mem_singleton.mp hb
    exact hb1 ▸ .header_mem hlatch
  · refine mem_singleton.mpr ?_
    by_contra hne
    have h0 : b ≠ 0 := fun h0 => hb.dominates (h0 ▸ .refl (by decide))
    rcases hb.reach_header.cases_head with heq | ⟨c, ⟨hflow, _⟩, _⟩
    · exact hne heq
    · rcases swapFlow_iff.mp hflow with ⟨h, _⟩ | ⟨h, _⟩
      · exact h0 h
      · exact hne h
  · exact congrArg Prod.fst (mem_singleton.mp hp)

theorem swapBlock_cases : ∀ b : Fin 3, b = 0 ∨ b = 1 ∨ b = 2 := by decide

/-- The dominators of the loop that swaps its two variables. -/
theorem swapDominators_spec : IsDominatorForest swapFunction.cfg.Flow swapFunction.entry
    (fun _ => True) swapDominators := by
  have h01 : swapFunction.cfg.Flow 0 1 := swapFlow_iff.mpr (by decide)
  have h12 : swapFunction.cfg.Flow 1 2 := swapFlow_iff.mpr (by decide)
  have hreach : ∀ b : Fin 3, ReflTransGen swapFunction.cfg.Flow 0 b
    | 0 => .refl
    | 1 => .single h01
    | 2 => .tail (.single h01) h12
  have hnodes : swapDominators.nodes = [.node 0 [.node 1 [.node 2 []]], .node 1 [.node 2 []],
    .node 2 []] := rfl
  constructor
  · rfl
  · intro b
    rw [hnodes]
    refine iff_of_true ?_ trivial
    rcases swapBlock_cases b with rfl | rfl | rfl
    · exact ⟨_, .head _, rfl⟩
    · exact ⟨_, .tail _ (.head _), rfl⟩
    · exact ⟨_, .tail _ (.tail _ (.head _)), rfl⟩
  · exact fun b _ => hreach b
  · intro n hn m hm
    rw [hnodes] at hn hm
    simp only [mem_cons, not_mem_nil, or_false] at hn hm
    rcases hn with rfl | rfl | rfl <;> rcases hm with rfl | rfl | rfl <;>
      simp [DominatorNode.getBlock]
  · intro n hn c hc
    rw [hnodes] at hn
    simp only [mem_cons, not_mem_nil, or_false] at hn
    rcases hn with rfl | rfl | rfl
    · have hc1 : c = .node 1 [.node 2 []] := mem_singleton.mp hc
      subst hc1
      refine ⟨by decide, .entry_left 1, fun d hd hdom => ?_⟩
      rcases swapBlock_cases d with rfl | rfl | rfl
      · exact .refl 0
      · exact absurd rfl hd
      · exact absurd ((PathAvoiding.refl (by decide)).tail h01 (by decide)) hdom
    · have hc2 : c = .node 2 [] := mem_singleton.mp hc
      subst hc2
      refine ⟨by decide, fun hpath => absurd (swapPath_avoiding hpath) (by decide),
        fun d hd _ => ?_⟩
      rcases swapBlock_cases d with rfl | rfl | rfl
      · exact .entry_left 1
      · exact .refl 1
      · exact absurd rfl hd
    · exact absurd hc not_mem_nil
  · intro n hn d _ hdom
    have hn0 : n = .node 0 [.node 1 [.node 2 []]] := mem_singleton.mp hn
    subst hn0
    by_contra hne
    exact hdom (.refl (Ne.symm hne))

/-- The second PHI node receives the first one along the back edge, and the dependence is
not reported as loop-carried. -/
theorem swapEdge_not_carried :
    swapLoop.IsNatural swapFunction.cfg swapFunction.entry ∧
      IsDominatorForest swapFunction.cfg.Flow swapFunction.entry (fun _ => True) swapDominators ∧
      swapFunction.asInstruction 0 = some ⟨1, 0⟩ ∧ swapFunction.asInstruction 1 = some ⟨1, 1⟩ ∧
      swapFunction.isPHINode 0 = true ∧ swapFunction.isPHINode 1 = true ∧
      swapFunction.ReceivesFromLatch swapLoop.getLoop 1 0 ∧
      isALoopCarriedDependence swapFunction swapLoop swapDominators (swapEdge 0 1) 4 =
        some false :=
  ⟨swapLoop_isNatural, swapDominators_spec, rfl, rfl, rfl, rfl,
    ⟨1, by decide, swapFlow_iff.mpr (by decide), by decide⟩, by decide⟩

/-- The dependence in the other direction is reported. -/
theorem swapEdge_carried :
    isALoopCarriedDependence swapFunction swapLoop swapDominators (swapEdge 1 0) 4 = some true :=
  (isALoopCarriedDependence_headerPHI swapLoop_isNatural swapDominators_spec (fun _ _ => trivial)
    rfl rfl (by decide) rfl rfl rfl (by decide)).mpr (by decide)

end LoopCarriedDependencies

end Noelle
