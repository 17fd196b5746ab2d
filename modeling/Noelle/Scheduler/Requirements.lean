import Noelle.Scheduler.Basic

/-!
# Scheduler.Requirements

`Scheduler::getAllInstsToMoveForSpecifiedInst`.

The loop puts the dependences of an instruction on the worklist and nowhere else: it neither adds
them to the result nor remembers that they were there.  It finds every instruction that cannot
move (`searchUntil`), but otherwise the result is the instruction alone, and with a cycle of
dependences there is none (`movesTogether_iff`).
-/

namespace Noelle

open List

namespace Scheduler

open Relation

variable {V B : Type} [DecidableEq V] [DecidableEq B] (ord : IterOrder) (fn : SchedulerFunction V B)
  (pdg : PDG V)

/-- `Scheduler::getAllInstsToMoveForSpecifiedInst`.  A dependence that cannot move aborts the loop
and drops the worklist. -/
def getAllInstsToMoveForSpecifiedInst (i : V) (direction : ScheduleDirection) (fuel : Nat) :
    Option (PtrSet V) :=
  if direction ≠ .down then some ∅
  else if !canMoveInstOutOfBasicBlock fn i then some ∅
  else do
    let aborted ← searchUntil
      (fun next => some (ord.visit (getOutgoingDependencesInParentBasicBlock ord fn pdg next).elems))
      (fun d => !canMoveInstOutOfBasicBlock fn d) i fuel
    return if aborted then ∅ else PtrSet.ofList [i]

/-- The instruction or one that has to move with it is a PHI or a terminator. -/
def Blocked (i : V) : Prop :=
  ∃ d, ReflTransGen (DependenceInBlock fn pdg) i d ∧ canMoveInstOutOfBasicBlock fn d = false

/-- The query ends with the instruction and what has to move with it, or with nothing if one of
these cannot move. -/
def MovesTogether (i : V) : Prop :=
  ∃ N requirements, (∀ fuel ≥ N,
      getAllInstsToMoveForSpecifiedInst ord fn pdg i .down fuel = some requirements) ∧
    (requirements = ∅ ↔ Blocked fn pdg i) ∧
    (¬ Blocked fn pdg i →
      ∀ d, d ∈ requirements ↔ ReflTransGen (DependenceInBlock fn pdg) i d)

variable {ord fn pdg} {i : V}

/-- The instructions that a search from `i` can meet. -/
def endpoints (pdg : PDG V) (i : V) : List V := i :: pdg.allEdges.elems.map DGEdge.getDst

theorem outgoingDependences_lists (ord : IterOrder) (hpdg : pdg.WF) (i : V) :
    Lists (endpoints pdg i)
      (fun next => some (ord.visit (getOutgoingDependencesInParentBasicBlock ord fn pdg next).elems))
      (DependenceInBlock fn pdg) where
  next_eq_some a _ := ⟨_, rfl, fun b => by
    rw [ord.mem_visit, PtrSet.mem_elems, mem_getOutgoingDependencesInParentBasicBlock hpdg]⟩
  closed := by
    rintro a _ b ⟨⟨e, he, _, rfl, _⟩, _⟩
    exact .tail i (mem_map_of_mem he)

theorem getAllInstsToMoveForSpecifiedInst_eq (hcan : canMoveInstOutOfBasicBlock fn i = true)
    (fuel : Nat) : getAllInstsToMoveForSpecifiedInst ord fn pdg i .down fuel =
      (searchUntil
        (fun next => some (ord.visit
          (getOutgoingDependencesInParentBasicBlock ord fn pdg next).elems))
        (fun d => !canMoveInstOutOfBasicBlock fn d) i fuel).map
          fun aborted => if aborted then ∅ else PtrSet.ofList [i] := by
  simp [getAllInstsToMoveForSpecifiedInst, hcan, Option.bind_eq_bind, Option.map_eq_bind]

theorem eq_empty_of_blocked (ord : IterOrder) (hpdg : pdg.WF) (h : Blocked fn pdg i) : ∃ N, ∀ fuel ≥ N,
    getAllInstsToMoveForSpecifiedInst ord fn pdg i .down fuel = some ∅ := by
  cases hcan : canMoveInstOutOfBasicBlock fn i with
  | false => exact ⟨0, fun fuel _ => by simp [getAllInstsToMoveForSpecifiedInst, hcan]⟩
  | true =>
      obtain ⟨d, hpath, hd⟩ := h
      have hpath' : TransGen (DependenceInBlock fn pdg) i d := by
        refine (reflTransGen_iff_eq_or_transGen.mp hpath).resolve_left ?_
        rintro rfl
        rw [hcan] at hd
        cases hd
      obtain ⟨N, hN⟩ := (outgoingDependences_lists ord hpdg i).searchUntil_eq_true
        (fun d => !canMoveInstOutOfBasicBlock fn d) (.head _) ⟨d, hpath', by simp [hd]⟩
      refine ⟨N, fun fuel hfuel => ?_⟩
      rw [getAllInstsToMoveForSpecifiedInst_eq hcan, hN fuel hfuel]
      rfl

omit [DecidableEq V] [DecidableEq B] in
theorem not_stop_of_not_blocked (h : ¬ Blocked fn pdg i) (d : V)
    (hd : TransGen (DependenceInBlock fn pdg) i d) : (!canMoveInstOutOfBasicBlock fn d) = false := by
  rw [Bool.not_eq_false']
  exact Bool.eq_true_of_not_eq_false fun hfalse => h ⟨d, hd.to_reflTransGen, hfalse⟩

omit [DecidableEq V] [DecidableEq B] in
theorem canMove_of_not_blocked (h : ¬ Blocked fn pdg i) : canMoveInstOutOfBasicBlock fn i = true :=
  Bool.eq_true_of_not_eq_false fun hfalse => h ⟨i, .refl, hfalse⟩

theorem eq_singleton_of_acyclic (ord : IterOrder) (hpdg : pdg.WF) (h : ¬ Blocked fn pdg i)
    (hacyclic : ∀ c, ReflTransGen (DependenceInBlock fn pdg) i c →
      ¬ TransGen (DependenceInBlock fn pdg) c c) : ∃ N, ∀ fuel ≥ N,
    getAllInstsToMoveForSpecifiedInst ord fn pdg i .down fuel = some (PtrSet.ofList [i]) := by
  obtain ⟨N, hN⟩ := (outgoingDependences_lists ord hpdg i).searchUntil_eq_false
    (.head _) (not_stop_of_not_blocked h) hacyclic
  refine ⟨N, fun fuel hfuel => ?_⟩
  rw [getAllInstsToMoveForSpecifiedInst_eq (canMove_of_not_blocked h), hN fuel hfuel]
  rfl

theorem eq_none_of_cycle (hpdg : pdg.WF) (h : ¬ Blocked fn pdg i) {c : V}
    (hreach : ReflTransGen (DependenceInBlock fn pdg) i c)
    (hcycle : TransGen (DependenceInBlock fn pdg) c c) (fuel : Nat) :
    getAllInstsToMoveForSpecifiedInst ord fn pdg i .down fuel = none := by
  rw [getAllInstsToMoveForSpecifiedInst_eq (canMove_of_not_blocked h),
    (outgoingDependences_lists ord hpdg i).searchUntil_eq_none (.head _)
      (not_stop_of_not_blocked h) hreach hcycle]
  rfl

/-- A dependence in the block makes the result wrong if nothing blocks the instruction. -/
theorem not_movesTogether (hpdg : pdg.WF) (hblocked : ¬ Blocked fn pdg i) {d : V}
    (hd : DependenceInBlock fn pdg i d) : ¬ MovesTogether ord fn pdg i := by
  rintro ⟨N, requirements, hresult, -, hmem⟩
  by_cases hacyclic : ∀ c, ReflTransGen (DependenceInBlock fn pdg) i c →
      ¬ TransGen (DependenceInBlock fn pdg) c c
  · obtain ⟨M, hM⟩ := eq_singleton_of_acyclic ord hpdg hblocked hacyclic
    have heq := hresult (max N M) (le_max_left N M)
    rw [hM (max N M) (le_max_right N M)] at heq
    have hd' := (hmem hblocked d).mpr (.single hd)
    rw [← Option.some.inj heq, PtrSet.mem_ofList, mem_singleton] at hd'
    exact hd.2.2.1 hd'
  · simp only [not_forall, not_not] at hacyclic
    obtain ⟨c, hreach, hcycle⟩ := hacyclic
    have heq := hresult N le_rfl
    rw [eq_none_of_cycle hpdg hblocked hreach hcycle N] at heq
    cases heq

/-- **Requirements of an instruction**: they are right exactly if one of them is a PHI or a
terminator, or if there are none. -/
theorem movesTogether_iff (ord : IterOrder) (fn : SchedulerFunction V B) (pdg : PDG V)
    (hpdg : pdg.WF) (i : V) : MovesTogether ord fn pdg i ↔
      Blocked fn pdg i ∨ ∀ d, ¬ DependenceInBlock fn pdg i d := by
  constructor
  · intro h
    by_contra hnot
    obtain ⟨hblocked, hdep⟩ := not_or.mp hnot
    simp only [not_forall, not_not] at hdep
    obtain ⟨d, hd⟩ := hdep
    exact not_movesTogether hpdg hblocked hd h
  · intro h
    by_cases hblocked : Blocked fn pdg i
    · obtain ⟨N, hN⟩ := eq_empty_of_blocked ord hpdg hblocked
      exact ⟨N, ∅, hN, iff_of_true rfl hblocked, fun hnot => absurd hblocked hnot⟩
    · have hnone := h.resolve_left hblocked
      have hself : ∀ d, ReflTransGen (DependenceInBlock fn pdg) i d ↔ d = i := by
        intro d
        refine ⟨fun hpath => ?_, fun heq => heq ▸ .refl⟩
        rcases ReflTransGen.cases_head hpath with heq | ⟨e, he, _⟩
        · exact heq.symm
        · exact absurd he (hnone e)
      have hsingle : PtrSet.ofList [i] ≠ ∅ := fun heq =>
        PtrSet.not_mem_empty i (heq ▸ PtrSet.mem_ofList.mpr (mem_singleton_self i))
      obtain ⟨N, hN⟩ := eq_singleton_of_acyclic ord hpdg hblocked fun c hc hcycle => by
        obtain rfl := (hself c).mp hc
        obtain ⟨e, he, _⟩ := TransGen.head'_iff.mp hcycle
        exact hnone e he
      refine ⟨N, PtrSet.ofList [i], hN, iff_of_false hsingle hblocked, fun _ d => ?_⟩
      rw [hself, PtrSet.mem_ofList, mem_singleton]

/-! ## The block with accesses that may alias -/

theorem aliasFunction_not_blocked {i : Fin 7} (hi : canMoveInstOutOfBasicBlock aliasFunction i = true) :
    ¬ Blocked aliasFunction aliasGraph i := by
  rintro ⟨d, hpath, hd⟩
  have hcan : canMoveInstOutOfBasicBlock aliasFunction d = true := by
    induction hpath with
    | refl => exact hi
    | tail _ hstep _ =>
        obtain ⟨⟨e, he, _, rfl, _⟩, _⟩ := hstep
        exact (by decide : ∀ e ∈ aliasGraph.allEdges.elems,
          canMoveInstOutOfBasicBlock aliasFunction e.getDst = true) e he
  rw [hcan] at hd
  cases hd

theorem aliasFunction_dependence {i d : Fin 7}
    (h : ∃ e ∈ aliasGraph.allEdges.elems, e.getSrc = i ∧ e.getDst = d ∧ e.kind.isData = true)
    (hne : d ≠ i) (hi : i ≠ 6) (hd : d ≠ 6) : DependenceInBlock aliasFunction aliasGraph i d := by
  refine ⟨h, (by decide : ∀ v, aliasFunction.ir.isInstruction v = true) d, hne, ?_⟩
  exact (decide_eq_false hd).trans (decide_eq_false hi).symm

/-- The user `4` of `3` is not in the result, and there is none for `1`. -/
theorem aliasFunction_requirements :
    (¬ MovesTogether .stored aliasFunction aliasGraph 3) ∧
    (¬ MovesTogether .stored aliasFunction aliasGraph 1) :=
  ⟨not_movesTogether aliasGraph_wf (aliasFunction_not_blocked (by decide))
      (aliasFunction_dependence (d := 4) (by decide) (by decide) (by decide) (by decide)),
    not_movesTogether aliasGraph_wf (aliasFunction_not_blocked (by decide))
      (aliasFunction_dependence (d := 2) (by decide) (by decide) (by decide) (by decide))⟩

theorem movesTogether_iff_aliasGraph : aliasGraph.WF ∧
    (MovesTogether .stored aliasFunction aliasGraph 4 ↔
      Blocked aliasFunction aliasGraph 4 ∨ ∀ d, ¬ DependenceInBlock aliasFunction aliasGraph 4 d) :=
  ⟨aliasGraph_wf, movesTogether_iff .stored aliasFunction aliasGraph aliasGraph_wf 4⟩

end Scheduler

end Noelle
