import Noelle.DG.Basic
import Noelle.DominatorForest
import Noelle.Lib.Loop
import Noelle.LoopForest.Natural

/-!
# LoopCarriedDependencies.Basic

Which dependences of a loop are carried by its back edges:
`LoopCarriedDependencies::isALoopCarriedDependence`.

The result is `none` if an assertion fails or the search for the header runs out of
fuel.
-/

namespace Noelle

/-- The values of a function in SSA form, as the analysis asks for them. -/
structure SSAFunction (V B : Type) where
  cfg : CFG B
  entry : B
  entry_mem : entry ∈ cfg.blocks
  /-- `dyn_cast<Instruction>`, with the place of the instruction. -/
  asInstruction : V → Option (Instruction B)
  isPHINode : V → Bool
  /-- `getIncomingBlock` and `getIncomingValue` of a PHI node. -/
  incomingValues : V → List (B × V)
  /-- `getPointerOperand` of a load or a store. -/
  getPointerOperand : V → Option V
  contains : ∀ v i, asInstruction v = some i → cfg.Contains i
  asInstruction_inj : ∀ v w i, asInstruction v = some i → asInstruction w = some i → v = w
  /-- The PHI nodes of a block come first. -/
  phis_first : ∀ v w i j, asInstruction v = some i → asInstruction w = some j → isPHINode v = true →
    j.parent = i.parent → j.index ≤ i.index → isPHINode w = true
  phi_not_terminator : ∀ v i, asInstruction v = some i → isPHINode v = true →
    i ≠ cfg.getTerminator i.parent

/-- The variables of the loop of `canBasicBlockReachHeaderBeforeOther`.  `isHeaderReached`
is the return from inside the loop. -/
structure HeaderSearch (B : Type) where
  queue : List B
  enqueued : PtrSet B
  isJReached : Bool
  isHeaderReached : Bool

/-- The PHI node of the header takes the value along a back edge. -/
def SSAFunction.ReceivesFromLatch {F V B : Type} (ir : SSAFunction V B) (l : LoopStructure F B)
    (phi v : V) : Prop :=
  ∃ latch ∈ l.bbs, ir.cfg.Flow latch l.header ∧ (latch, v) ∈ ir.incomingValues phi

namespace LoopCarriedDependencies

variable {F V B : Type} [DecidableEq V] [DecidableEq B]

/-! ## Reaching the header -/

/-- The body of the loop over the successors. -/
def enqueue (s : HeaderSearch B) (succ : B) : HeaderSearch B :=
  if succ ∈ s.enqueued then s
  else { s with queue := s.queue ++ [succ], enqueued := s.enqueued.insert succ }

/-- The body of the loop over the queue. -/
def searchStep (f : CFG B) (LS : LoopStructure F B) (J : B) (s : HeaderSearch B) :
    Option (HeaderSearch B) :=
  match s.queue with
  | [] => none
  | b :: queue =>
      let s := { s with queue := queue }
      if b = LS.getHeader then some { s with isHeaderReached := true }
      else if b ∈ LS.getLoopExitBasicBlocks f then some s
      else if b = J then some { s with isJReached := true }
      else some ((f.successors b).foldl enqueue s)

def canBasicBlockReachHeaderBeforeOther (f : CFG B) (LS : LoopStructure F B) (I J : B) (fuel : Nat) :
    Option Bool :=
  if !(LS.isIncluded I && LS.isIncluded J) then none
  else if I = J then some true
  else
    (loopM (fun s => !s.queue.isEmpty && !s.isHeaderReached) (searchStep f LS J) fuel
      ⟨[I], PtrSet.ofList [I], false, false⟩).bind fun s =>
        if s.isHeaderReached then some true
        else if s.isJReached then some false
        else none

/-! ## The decision -/

/-- The producer and the consumer access the same memory location in the same iteration. -/
def doTheyTouchTheSameElementInTheSameIteration (ir : SSAFunction V B) (topLoop : LoopStructure F B)
    (producer consumer : V) : Bool :=
  match ir.getPointerOperand producer, ir.getPointerOperand consumer with
  | some producerPointer, some consumerPointer =>
      if producerPointer ≠ consumerPointer then false
      else
        match ir.asInstruction producerPointer with
        | none => false
        | some pointerAsInst => !topLoop.isIncluded pointerAsInst.parent
  | _, _ => false

def isALoopCarriedDependence (ir : SSAFunction V B) (loopNode : LoopTree F B)
    (DT : DominatorForest B) (edge : DGEdge V) (fuel : Nat) : Option Bool :=
  let topLoop := loopNode.getLoop
  let topLoopHeaderBranch := ir.cfg.getTerminator topLoop.getHeader
  match ir.asInstruction edge.getSrc, ir.asInstruction edge.getDst with
  | some producerI, some consumerI =>
      match loopNode.getInnermostLoopThatContains producerI.parent,
        loopNode.getInnermostLoopThatContains consumerI.parent with
      | some producerLoop, some consumerLoop =>
          if edge.kind = .controlDependence && decide (producerLoop.self ≠ topLoop.self) &&
              decide (consumerLoop.self ≠ topLoop.self) then some false
          else if edge.kind.isMemory && !doTheyTouchTheSameElementInTheSameIteration ir topLoop
              edge.getSrc edge.getDst then some true
          else do
            let isProducerNotBefore ← if producerI = consumerI then some true
              else (DT.dominates ir.cfg producerI consumerI).map (!·)
            if !isProducerNotBefore then return false
            if edge.kind ≠ .variableDependence then return true
            let canReachHeader ← canBasicBlockReachHeaderBeforeOther ir.cfg consumerLoop
              producerI.parent consumerI.parent fuel
            if !canReachHeader then return false
            let isConsumerBefore ← DT.dominates ir.cfg consumerI producerI
            if !isConsumerBefore then return true
            let isConsumerBelowHeader ← DT.dominates ir.cfg topLoopHeaderBranch consumerI
            return !(isConsumerBelowHeader && ir.isPHINode edge.getDst)
      | _, _ => some false
  | _, _ => some false

/-! ## The dependences of a loop -/

section OfLoop

variable {S : Type} (ord : IterOrder) (ir : SSAFunction V B) (LS : LoopStructure F B)
  (loopNode : LoopTree F B) (LoopDG : DG V S)

/-- The body of the loop over the edges.  The cast of the consumer to an instruction can
fail. -/
def collectLoopCarried (LCEdges : PtrSet (DGEdge V)) (edge : DGEdge V) :
    Option (PtrSet (DGEdge V)) :=
  if !(LoopDG.edgeAttr edge).isLoopCarried then some LCEdges
  else
    (ir.asInstruction edge.getDst).map fun consumerI =>
      if (loopNode.getInnermostLoopThatContains consumerI.parent).map (·.self) ≠ some LS.self then
        LCEdges
      else LCEdges.insert edge

/-- `getLoopCarriedDependenciesForLoop` of the dependence graph of a loop. -/
def getLoopCarriedDependenciesForLoopInPDG : Option (PtrSet (DGEdge V)) :=
  (ord.visit LoopDG.allEdges.elems).foldlM (collectLoopCarried ir LS loopNode LoopDG) ∅

/-- The loop carries the edge into an instruction of its own. -/
def IsCarriedBy (edge : DGEdge V) : Prop :=
  edge ∈ LoopDG.allEdges ∧ (LoopDG.edgeAttr edge).isLoopCarried = true ∧
    ∃ consumerI, ir.asInstruction edge.getDst = some consumerI ∧
      (loopNode.getInnermostLoopThatContains consumerI.parent).map (·.self) = some LS.self

variable {ir LoopDG}

/-- The edges returned are those that the loop carries. -/
theorem getLoopCarriedDependenciesForLoopInPDG_spec
    (hconsumer : ∀ e ∈ LoopDG.allEdges, (LoopDG.edgeAttr e).isLoopCarried = true →
      ∃ i, ir.asInstruction e.getDst = some i) :
    ∃ LCEdges, getLoopCarriedDependenciesForLoopInPDG ord ir LS loopNode LoopDG = some LCEdges ∧
      ∀ e, e ∈ LCEdges ↔ IsCarriedBy ir LS loopNode LoopDG e := by
  have hrun := foldlM_rule (collectLoopCarried ir LS loopNode LoopDG)
    (fun (pre : List (DGEdge V)) (s : PtrSet (DGEdge V)) =>
      ∀ e, e ∈ s ↔ e ∈ pre ∧ IsCarriedBy ir LS loopNode LoopDG e)
    (l := ord.visit LoopDG.allEdges.elems) (s := ∅) (by simp) ?_
  · obtain ⟨LCEdges, hresult, hmem⟩ := hrun
    refine ⟨LCEdges, hresult, fun e => (hmem e).trans ⟨fun h => h.2, fun h => ⟨?_, h⟩⟩⟩
    exact ord.mem_visit.mpr h.1
  · intro pre e post s hl hs
    have he : e ∈ LoopDG.allEdges := by
      refine ord.mem_visit.mp ?_
      rw [hl]
      exact List.mem_append_right pre (.head _)
    -- the edge is inserted if and only if the loop carries it
    suffices hstep : ∃ s', collectLoopCarried ir LS loopNode LoopDG s e = some s' ∧
        ∀ x, x ∈ s' ↔ x ∈ s ∨ (x = e ∧ IsCarriedBy ir LS loopNode LoopDG e) by
      obtain ⟨s', hs', hmem⟩ := hstep
      refine ⟨s', hs', fun x => (hmem x).trans ?_⟩
      rw [hs, List.mem_append, List.mem_singleton]
      constructor
      · rintro (⟨hpre, hx⟩ | ⟨rfl, hx⟩)
        exacts [⟨.inl hpre, hx⟩, ⟨.inr rfl, hx⟩]
      · rintro ⟨hpre | rfl, hx⟩
        exacts [.inl ⟨hpre, hx⟩, .inr ⟨rfl, hx⟩]
    unfold collectLoopCarried
    cases hlc : (LoopDG.edgeAttr e).isLoopCarried with
    | false =>
        refine ⟨s, rfl, fun x => ⟨.inl, fun h => h.elim id fun hx => ?_⟩⟩
        exact absurd hx.2.2.1 (by simp [hlc])
    | true =>
        obtain ⟨i, hi⟩ := hconsumer e he hlc
        simp only [hi, Bool.not_true, Bool.false_eq_true, if_false, Option.map_some]
        by_cases hin : (loopNode.getInnermostLoopThatContains i.parent).map (·.self) = some LS.self
        · refine ⟨s.insert e, by rw [if_neg (not_not.mpr hin)], fun x => ?_⟩
          rw [PtrSet.mem_insert, or_comm]
          exact or_congr Iff.rfl ⟨fun hx => ⟨hx, he, hlc, i, hi, hin⟩, fun hx => hx.1⟩
        · refine ⟨s, by rw [if_pos hin], fun x => ⟨.inl, fun h => h.elim id ?_⟩⟩
          rintro ⟨-, -, -, j, hj, hjin⟩
          exact absurd (Option.mem_unique hi hj ▸ hjin) hin

end OfLoop

end LoopCarriedDependencies

end Noelle
