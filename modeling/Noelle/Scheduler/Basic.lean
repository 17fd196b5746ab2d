import Noelle.DG.History
import Noelle.IR
import Noelle.Lib.Search
import Noelle.PDG.Queries

/-!
# Scheduler.Basic

`Scheduler`: which instructions can leave their basic block.

Both queries about a block look at the outgoing dependences that stay in it
(`getOutgoingDependencesInParentBasicBlock`).  The lookups that they make in the dependence
graph do not change what a later one answers (`iterateOverDependencesFrom_fetchNode`), so the
graph is not threaded through them.
-/

namespace Noelle

inductive ScheduleDirection
  | up
  | down
  deriving DecidableEq, Repr

/-- A function, with what the scheduler asks of its values and its blocks. -/
structure SchedulerFunction (V B : Type) where
  ir : IR V B
  isBranchInst : V → Bool
  /-- The instructions of a block in their order. -/
  instructions : B → List V
  successors : B → List B
  /-- One entry for each edge into a block. -/
  predecessors : B → List B

namespace SchedulerFunction

variable {V B : Type} (fn : SchedulerFunction V B)

/-- What the verifier of the IR guarantees. -/
structure WF : Prop where
  mem_instructions : ∀ b v, v ∈ fn.instructions b ↔ fn.ir.isInstruction v = true ∧ fn.ir.getParent v = b
  nodup : ∀ b, (fn.instructions b).Nodup
  /-- A block has one terminator and ends in it. -/
  terminator : ∀ b, ∃ body t, fn.instructions b = body ++ [t] ∧ fn.ir.isTerminator t = true ∧
    ∀ v ∈ body, fn.ir.isTerminator v = false

/-- `BasicBlock::getTerminator`. -/
def getTerminator (b : B) : Option V :=
  (fn.instructions b).getLast?.filter fun v => fn.ir.isTerminator v

/-- `BasicBlock::getSinglePredecessor`. -/
def getSinglePredecessor (b : B) : Option B :=
  match fn.predecessors b with
  | [p] => some p
  | _ => none

/-- `d` comes after `i` in the block `b`. -/
def Later (b : B) (i d : V) : Prop :=
  ∃ pre post, fn.instructions b = pre ++ i :: post ∧ d ∈ post

variable {fn}

theorem predecessors_of_getSinglePredecessor {b p : B} (h : fn.getSinglePredecessor b = some p) :
    fn.predecessors b = [p] := by
  unfold getSinglePredecessor at h
  split at h
  · rename_i q hq
    exact Option.some.inj h ▸ hq
  · cases h

end SchedulerFunction

namespace Scheduler

variable {V B : Type} [DecidableEq V] [DecidableEq B] (ord : IterOrder) (fn : SchedulerFunction V B)
  (pdg : PDG V)

def canMoveInstOutOfBasicBlock (i : V) : Bool :=
  if fn.ir.isPHINode i || fn.ir.isTerminator i then false else true

/-- Memory and register dependences. -/
def scheduledDependences : PDG.Filter := ⟨false, true, true⟩

def getOutgoingDependencesInParentBasicBlock (i : V) : PtrSet V :=
  (PDG.iterateOverDependencesFrom ord pdg i scheduledDependences
    (fun outgoingDependences outgoing _ =>
      if !fn.ir.isInstruction outgoing || decide (outgoing = i) ||
          decide (fn.ir.getParent outgoing ≠ fn.ir.getParent i) then (false, outgoingDependences)
      else (false, outgoingDependences.insert outgoing))
    ∅).1.2

/-- A memory or register dependence of the graph. -/
def Dependence (i d : V) : Prop :=
  ∃ e ∈ pdg.allEdges, e.getSrc = i ∧ e.getDst = d ∧ e.kind.isData = true

def DependenceInBlock (i d : V) : Prop :=
  Dependence pdg i d ∧ fn.ir.isInstruction d = true ∧ d ≠ i ∧ fn.ir.getParent d = fn.ir.getParent i

variable {ord fn pdg}

omit [DecidableEq V] [DecidableEq B] in
theorem canMoveInstOutOfBasicBlock_iff {i : V} : canMoveInstOutOfBasicBlock fn i = true ↔
    fn.ir.isPHINode i = false ∧ fn.ir.isTerminator i = false := by
  cases hphi : fn.ir.isPHINode i <;> cases hterm : fn.ir.isTerminator i <;>
    simp [canMoveInstOutOfBasicBlock, hphi, hterm]

omit [DecidableEq V] [DecidableEq B] in
theorem accepts_scheduledDependences (e : DGEdge V) :
    scheduledDependences.accepts e = e.kind.isData := by
  unfold scheduledDependences PDG.Filter.accepts
  cases e.kind <;> rfl

/-! ## Iterations that collect -/

omit [DecidableEq B] in
theorem iterateOverDependencesFrom_fetchNode {σ : Type} (v w : V) (flt : PDG.Filter)
    (f : σ → V → DGEdge V → Bool × σ) (s : σ) :
    (PDG.iterateOverDependencesFrom ord (pdg.fetchNode v).2 w flt f s).1 =
      (PDG.iterateOverDependencesFrom ord pdg w flt f s).1 := by
  by_cases hin : pdg.isInGraph v = true
  · rw [DG.fetchNode_of_isInGraph hin]
  · have hnone : pdg.internalNodeMap.lookup v = none ∧ pdg.externalNodeMap.lookup v = none := by
      simpa [DG.isInGraph, DG.isInternal, DG.isExternal] using hin
    by_cases hw : w = v
    · subst hw
      simp [PDG.iterateOverDependencesFrom, DG.fetchNode, hnone]
    · simp only [PDG.iterateOverDependencesFrom, DG.fetchNode, hnone, AList.lookup_insert_ne hw]
      rcases pdg.internalNodeMap.lookup w with _ | _ | _ <;>
        rcases pdg.externalNodeMap.lookup w with _ | _ | _ <;> rfl

omit [DecidableEq B] in
/-- The function is invoked on every dependence that passes the filter. -/
theorem mem_invokePerDependence (skip : V → Bool) (flt : PDG.Filter) (other : DGEdge V → V) :
    ∀ (edges : List (DGEdge V)) (s : PtrSet V) (v : V),
      v ∈ (PDG.invokePerDependence flt other
        (fun s x _ => if skip x then (false, s) else (false, s.insert x)) edges s).2 ↔
      v ∈ s ∨ ∃ e ∈ edges, flt.accepts e = true ∧ other e = v ∧ skip v = false
  | [], s, v => by simp [PDG.invokePerDependence]
  | e :: edges, s, v => by
      unfold PDG.invokePerDependence
      cases ha : flt.accepts e with
      | false => simpa [ha] using mem_invokePerDependence skip flt other edges s v
      | true =>
          cases hskip : skip (other e) with
          | true =>
              have hne : ¬ (other e = v ∧ skip v = false) := by
                rintro ⟨rfl, hv⟩
                exact absurd (hskip.symm.trans hv) Bool.true_eq_false_eq_False
              simpa [ha, hskip, hne] using mem_invokePerDependence skip flt other edges s v
          | false =>
              have hrest := mem_invokePerDependence skip flt other edges
                (s.insert (other e)) v
              simp only [if_true, Bool.false_eq_true, if_false, hrest, PtrSet.mem_insert,
                List.mem_cons, exists_eq_or_imp, ha, true_and]
              constructor
              · rintro ((rfl | hs) | hex)
                · exact .inr (.inl ⟨rfl, hskip⟩)
                · exact .inl hs
                · exact .inr (.inr hex)
              · rintro (hs | ⟨rfl, _⟩ | hex)
                · exact .inl (.inr hs)
                · exact .inl (.inl rfl)
                · exact .inr hex

/-- The answer holds the dependences inside the block. -/
theorem mem_getOutgoingDependencesInParentBasicBlock (hpdg : pdg.WF) {i d : V} :
    d ∈ getOutgoingDependencesInParentBasicBlock ord fn pdg i ↔ DependenceInBlock fn pdg i d := by
  unfold getOutgoingDependencesInParentBasicBlock PDG.iterateOverDependencesFrom
  cases hn : pdg.nodeOf i with
  | none =>
      rw [show pdg.fetchNode i = (none, (pdg.fetchNode i).2) from Prod.ext hn rfl]
      refine ⟨fun hd => absurd hd (PtrSet.not_mem_empty d), ?_⟩
      rintro ⟨⟨e, he, rfl, _⟩, _⟩
      have hsrc := (hpdg.edge_mapped e he).1
      rw [hn] at hsrc
      cases hsrc
  | some n =>
      obtain ⟨hnode, hvalue⟩ := hpdg.nodeOf_mem hn
      rw [DG.fetchNode_of_isInGraph (DG.isInGraph_of_nodeOf hn), hn]
      refine (mem_invokePerDependence _ _ DGEdge.getDst _ _ _).trans ?_
      simp only [PtrSet.not_mem_empty, false_or, ord.mem_visit, PtrSet.mem_elems,
        hpdg.mem_outgoing n hnode, accepts_scheduledDependences]
      constructor
      · rintro ⟨e, ⟨he, hsrc⟩, hdata, rfl, hskip⟩
        refine ⟨⟨e, he, ?_, rfl, hdata⟩, ?_⟩
        · rw [← hvalue, ← hsrc]
          rfl
        · simpa [and_assoc] using hskip
      · rintro ⟨⟨e, he, hsrc, rfl, hdata⟩, hin, hne, hparent⟩
        refine ⟨e, ⟨he, ?_⟩, hdata, rfl, by simp [hin, hne, hparent]⟩
        have hmapped := (hpdg.edge_mapped e he).1
        rw [hsrc, hn] at hmapped
        exact (Option.some.inj hmapped).symm

/-! ## A block with accesses that may alias -/

/-- A block with a PHI, two accesses `1` and `2` that may alias and a computation `3` that `4`
uses, which branches to a block that returns. -/
def aliasFunction : SchedulerFunction (Fin 7) Bool where
  ir :=
    { kind := fun v =>
        if v = 0 then .phiNode [] else if v = 5 ∨ v = 6 then .terminator else .otherInstruction
      getParent := fun v => decide (v = 6) }
  isBranchInst v := decide (v = 5)
  instructions b := if b then [6] else [0, 1, 2, 3, 4, 5]
  successors b := if b then [] else [true]
  predecessors b := if b then [false] else []

theorem aliasFunction_wf : aliasFunction.WF where
  mem_instructions := by decide
  nodup := by decide
  terminator b := by
    cases b with
    | true => exact ⟨[], 6, rfl, rfl, by decide⟩
    | false => exact ⟨[0, 1, 2, 3, 4], 5, rfl, rfl, by decide⟩

def aliasHistory : List (DG.Op (Fin 7) (DGEdge (Fin 7))) :=
  [.addNode 0 true, .addNode 1 true, .addNode 2 true, .addNode 3 true, .addNode 4 true,
    .addNode 5 true, .addMemoryDataDependenceEdge 1 2 .raw false,
    .addMemoryDataDependenceEdge 2 1 .war false, .addVariableDataDependenceEdge 3 4 .raw]

def aliasGraph : PDG (Fin 7) :=
  (DG.execute (fun _ => false) (DG.empty 0) aliasHistory).getD (DG.empty 0)

theorem aliasGraph_wf : aliasGraph.WF := (DG.clean_of_history _ 0 (by decide)).toWF

end Scheduler

end Noelle
