import Noelle.DataFlow.Directions

/-!
# DataFlow.Reachability

The instructions that can be executed after an instruction, as a backward data-flow analysis:
an instruction generates itself and kills nothing.
-/

namespace Noelle

namespace DataFlowEngine

open GenKillAnalysis

variable {B : Type} [DecidableEq B] (f : CFG B) (filter : Instruction B → Bool)
  (pass : Instruction B → Instruction B → Bool)

/-- The instruction, if it passes the filter. -/
def generated (i : Instruction B) : PtrSet (Instruction B) :=
  PtrSet.ofList (if filter i then [i] else [])

/-- The backward analysis in which `IN[succ]` is added to `OUT[i]` where `pass` allows it. -/
def reachabilityAnalysis (fuel : Nat) : Option (Analysis B (Instruction B)) :=
  applyBackward f (computeGEN (generated filter)) (computeKILL fun _ => ∅) (addTransfer outOf)
    (addNeighbourIf pass inOf) fuel

/-- `DataFlowAnalysis::runReachableAnalysis`. -/
def runReachableAnalysis (fuel : Nat) : Option (DataFlowResult B (Instruction B)) :=
  (reachabilityAnalysis f filter (fun _ _ => true) fuel).map (·.df)

variable {f filter pass}

/-- Control passes from `i` to `j` where the analysis follows it. -/
def Passes (f : CFG B) (pass : Instruction B → Instruction B → Bool) (i j : Instruction B) : Prop :=
  f.Succ i j ∧ pass i j = true

def reachabilityProblem (f : CFG B) (filter : Instruction B → Bool)
    (pass : Instruction B → Instruction B → Bool) :
    FlowProblem (Instruction B) (Instruction B) where
  node := f.Contains
  prev i j := Passes f pass j i
  gen i j := j = i ∧ filter i = true
  kill _ _ := False
  prev_node _ _ h := h.1.contains.2

variable {i j : Instruction B} {outs ins : Instruction B → Instruction B → Prop}

omit [DecidableEq B] in
theorem flows_iff (hi : f.Contains i) :
    (reachabilityProblem f filter pass).Flows i j ↔
      Relation.ReflTransGen (Passes f pass) i j ∧ filter j = true := by
  constructor
  · intro h
    induction h with
    | gen _ hg =>
        obtain ⟨rfl, hfilter⟩ := hg
        exact ⟨.refl, hfilter⟩
    | step _ hprev _ _ ih =>
        obtain ⟨hpath, hfilter⟩ := ih hprev.1.contains.2
        exact ⟨.head hprev hpath, hfilter⟩
  · rintro ⟨hpath, hfilter⟩
    induction hpath using Relation.ReflTransGen.head_induction_on with
    | refl => exact .gen hi ⟨rfl, hfilter⟩
    | head hstep _ ih => exact .step hi hstep (ih hstep.1.contains.2) id

/-- The sets computed are the least solution of the equations. -/
theorem reachabilityAnalysis_isLeastSolution (f : CFG B) (filter : Instruction B → Bool)
    (pass : Instruction B → Instruction B → Bool) :
    ∃ N, ∀ fuel ≥ N, ∃ a, reachabilityAnalysis f filter pass fuel = some a ∧
      (reachabilityProblem f filter pass).IsLeastSolution (fun i j => j ∈ a.df.outs i)
        (fun i j => j ∈ a.df.ins i) := by
  have hgen : ∀ i j, j = i ∧ filter i = true ↔ j ∈ generated filter i := fun i j => by
    unfold generated
    rw [PtrSet.mem_ofList]
    split <;> simp [*]
  have hmerges : Merges (backwardCustomization f) pass ⟨computeGEN (generated filter),
      computeKILL fun _ => ∅, fun _ s => s, fun _ s => s, addNeighbourIf pass inOf,
      addTransfer outOf⟩ := ⟨separate_outOf_inOf, rfl, rfl⟩
  obtain ⟨N, hN⟩ := applyGeneralizedForwardAnalysis_spec (walk_backward f) hmerges
    ⟨rfl, rfl, fun _ _ => rfl, fun _ _ => rfl⟩
    (Q := reachabilityProblem f filter pass) (fun _ hi => hi)
    (fun j hj i => and_comm.trans (and_congr_right fun _ => prev_backward hj)) hgen
    fun _ v => (iff_false_intro (PtrSet.not_mem_empty v)).symm
  refine ⟨N, fun fuel hfuel => ?_⟩
  obtain ⟨a, ha, hleast, _⟩ := hN fuel hfuel
  exact ⟨a, ha, hleast⟩

section

variable (h : (reachabilityProblem f filter pass).IsLeastSolution outs ins) (hi : f.Contains i)

include h hi

omit [DecidableEq B] in
theorem entering_iff :
    outs i j ↔ Relation.TransGen (Passes f pass) i j ∧ filter j = true := by
  rw [h.solves.entering i hi j]
  constructor
  · rintro ⟨m, hm, hj⟩
    obtain ⟨hpath, hfilter⟩ := (flows_iff hm.1.contains.2).mp (h.flows hm.1.contains.2 hj)
    exact ⟨.head' hm hpath, hfilter⟩
  · rintro ⟨hpath, hfilter⟩
    obtain ⟨m, hm, hpath⟩ := Relation.TransGen.head'_iff.mp hpath
    exact ⟨m, hm, ((flows_iff hm.1.contains.2).mpr ⟨hpath, hfilter⟩).of_solves h.solves⟩

omit [DecidableEq B] in
theorem leaving_iff : ins i j ↔ outs i j ∨ (j = i ∧ filter i = true) := by
  rw [h.solves.leaving i hi j, or_comm]
  exact or_congr_left (and_iff_left id)

end

/-- `OUT` holds what a path of passing instructions leads to. -/
theorem reachabilityAnalysis_spec (f : CFG B) (filter : Instruction B → Bool)
    (pass : Instruction B → Instruction B → Bool) :
    ∃ N, ∀ fuel ≥ N, ∃ a, reachabilityAnalysis f filter pass fuel = some a ∧
      ∀ i, f.Contains i → ∀ j, j ∈ a.df.outs i ↔
        Relation.TransGen (Passes f pass) i j ∧ filter j = true := by
  obtain ⟨N, hN⟩ := reachabilityAnalysis_isLeastSolution f filter pass
  refine ⟨N, fun fuel hfuel => ?_⟩
  obtain ⟨a, ha, hleast⟩ := hN fuel hfuel
  exact ⟨a, ha, fun i hi j => entering_iff hleast hi⟩

omit [DecidableEq B] in
theorem passes_true (f : CFG B) : Passes f (fun _ _ => true) = f.Succ :=
  funext fun _ => funext fun _ => propext (and_iff_left rfl)

/-- The sets computed are the least solution of the equations. -/
theorem runReachableAnalysis_isLeastSolution (f : CFG B) (filter : Instruction B → Bool) :
    ∃ N, ∀ fuel ≥ N, ∃ dfr, runReachableAnalysis f filter fuel = some dfr ∧
      (reachabilityProblem f filter fun _ _ => true).IsLeastSolution (fun i j => j ∈ dfr.outs i)
        (fun i j => j ∈ dfr.ins i) := by
  obtain ⟨N, hN⟩ := reachabilityAnalysis_isLeastSolution f filter fun _ _ => true
  refine ⟨N, fun fuel hfuel => ?_⟩
  obtain ⟨a, ha, hleast⟩ := hN fuel hfuel
  exact ⟨a.df, Option.map_eq_some_iff.mpr ⟨a, ha, rfl⟩, hleast⟩

/-- `OUT` holds the filtered instructions that a path leads to. -/
theorem runReachableAnalysis_spec (f : CFG B) (filter : Instruction B → Bool) :
    ∃ N, ∀ fuel ≥ N, ∃ dfr, runReachableAnalysis f filter fuel = some dfr ∧
      ∀ i, f.Contains i → ∀ j, j ∈ dfr.outs i ↔ Relation.TransGen f.Succ i j ∧ filter j = true := by
  obtain ⟨N, hN⟩ := runReachableAnalysis_isLeastSolution f filter
  refine ⟨N, fun fuel hfuel => ?_⟩
  obtain ⟨dfr, hdfr, hleast⟩ := hN fuel hfuel
  rw [← passes_true]
  exact ⟨dfr, hdfr, fun i hi j => entering_iff hleast hi⟩

/-- **Reachable instructions**: the analysis terminates, `OUT[i]` is what passes the filter
and can be executed after `i`, and `IN[i]` is that and `i` itself if it passes. -/
theorem runReachableAnalysis_reaches (f : CFG B) (filter : Instruction B → Bool) :
    ∃ N, ∀ fuel ≥ N, ∃ dfr, runReachableAnalysis f filter fuel = some dfr ∧
      ∀ i, f.Contains i → ∀ j,
        (j ∈ dfr.outs i ↔ Relation.TransGen f.Succ i j ∧ filter j = true) ∧
        (j ∈ dfr.ins i ↔ j ∈ dfr.outs i ∨ (j = i ∧ filter i = true)) := by
  obtain ⟨N, hN⟩ := runReachableAnalysis_isLeastSolution f filter
  refine ⟨N, fun fuel hfuel => ?_⟩
  obtain ⟨dfr, hdfr, hleast⟩ := hN fuel hfuel
  rw [← passes_true]
  exact ⟨dfr, hdfr, fun i hi j => ⟨entering_iff hleast hi, leaving_iff hleast hi⟩⟩

end DataFlowEngine

end Noelle
