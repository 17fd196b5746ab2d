import Mathlib.Logic.Basic

/-!
# Lib.GenKill

Data-flow problems with gen and kill sets.

Values enter a node from its predecessors and leave it if the node generates them
or does not kill them.  `Flows` derives the values that leave a node; it is the
least solution of the equations, so a computed solution is the least one as soon
as it is closed under the equations and holds derivable values only
(`isLeastSolution_of_closed`).
-/

namespace Noelle

/-- A data-flow problem over the nodes that satisfy `node`. -/
structure FlowProblem (N V : Type) where
  node : N → Prop
  prev : N → N → Prop
  gen : N → V → Prop
  kill : N → V → Prop
  prev_node : ∀ m n, prev m n → node m

namespace FlowProblem

variable {N V : Type} {P Q : FlowProblem N V} {I O : N → V → Prop}

/-- `I` and `O` solve the equations at every node. -/
structure Solves (P : FlowProblem N V) (I O : N → V → Prop) : Prop where
  entering : ∀ n, P.node n → ∀ v, I n v ↔ ∃ m, P.prev m n ∧ O m v
  leaving : ∀ n, P.node n → ∀ v, O n v ↔ P.gen n v ∨ (I n v ∧ ¬ P.kill n v)

/-- A solution below every other one. -/
structure IsLeastSolution (P : FlowProblem N V) (I O : N → V → Prop) : Prop where
  solves : P.Solves I O
  le : ∀ I' O', P.Solves I' O' → ∀ n, P.node n → ∀ v, (I n v → I' n v) ∧ (O n v → O' n v)

/-- The value leaves the node in every solution. -/
inductive Flows (P : FlowProblem N V) : N → V → Prop
  | gen {n : N} {v : V} : P.node n → P.gen n v → P.Flows n v
  | step {m n : N} {v : V} : P.node n → P.prev m n → P.Flows m v → ¬ P.kill n v → P.Flows n v

/-- The value enters the node in every solution. -/
def Enters (P : FlowProblem N V) (n : N) (v : V) : Prop := ∃ m, P.prev m n ∧ P.Flows m v

theorem Flows.of_solves (h : P.Solves I O) {n : N} {v : V} (hf : P.Flows n v) : O n v := by
  induction hf with
  | gen hn hg => exact (h.leaving _ hn _).mpr (.inl hg)
  | step hn hp _ hk ih =>
      exact (h.leaving _ hn _).mpr (.inr ⟨(h.entering _ hn _).mpr ⟨_, hp, ih⟩, hk⟩)

theorem flows_solves (P : FlowProblem N V) : P.Solves P.Enters P.Flows where
  entering := fun _ _ _ => Iff.rfl
  leaving := fun n hn v => by
    constructor
    · intro hf
      cases hf with
      | gen _ hg => exact .inl hg
      | step _ hp hm hk => exact .inr ⟨⟨_, hp, hm⟩, hk⟩
    · rintro (hg | ⟨⟨m, hp, hm⟩, hk⟩)
      · exact .gen hn hg
      · exact .step hn hp hm hk

theorem Solves.isLeast (h : P.Solves I O) (hO : ∀ n v, P.node n → O n v → P.Flows n v) :
    P.IsLeastSolution I O where
  solves := h
  le := fun I' O' h' n hn v => by
    refine ⟨fun hv => ?_, fun hv => (hO n v hn hv).of_solves h'⟩
    obtain ⟨m, hm, hv⟩ := (h.entering n hn v).mp hv
    exact (h'.entering n hn v).mpr ⟨m, hm, (hO m v (P.prev_node m n hm) hv).of_solves h'⟩

theorem IsLeastSolution.flows (h : P.IsLeastSolution I O) {n : N} (hn : P.node n) {v : V}
    (hv : O n v) : P.Flows n v :=
  (h.le P.Enters P.Flows P.flows_solves n hn v).2 hv

theorem isLeastSolution_of_closed (hI : ∀ n v, P.node n → I n v → P.Enters n v)
    (hO : ∀ n v, P.node n → O n v → P.Flows n v)
    (hprev : ∀ m n v, P.node n → P.prev m n → O m v → I n v)
    (hout : ∀ n v, P.node n → P.gen n v ∨ (I n v ∧ ¬ P.kill n v) → O n v) :
    P.IsLeastSolution I O := by
  have hback : ∀ {n v}, P.Flows n v → O n v := by
    intro n v hf
    induction hf with
    | gen hn hg => exact hout _ _ hn (.inl hg)
    | step hn hp _ hk ih => exact hout _ _ hn (.inr ⟨hprev _ _ _ hn hp ih, hk⟩)
  refine Solves.isLeast ⟨fun n hn v => ⟨fun hv => ?_, fun ⟨m, hp, hv⟩ => hprev m n v hn hp hv⟩,
    fun n hn v => ⟨fun hv => ?_, hout n v hn⟩⟩ hO
  · obtain ⟨m, hp, hf⟩ := hI n v hn hv
    exact ⟨m, hp, hback hf⟩
  · rcases (P.flows_solves.leaving n hn v).mp (hO n v hn hv) with hg | ⟨⟨m, hp, hf⟩, hk⟩
    · exact .inl hg
    · exact .inr ⟨hprev m n v hn hp (hback hf), hk⟩

theorem IsLeastSolution.restrict (h : P.IsLeastSolution I O) (hnode : ∀ n, Q.node n → P.node n)
    (hprev : ∀ n, Q.node n → ∀ m, Q.prev m n ↔ P.prev m n)
    (hgen : ∀ n, Q.node n → ∀ v, Q.gen n v ↔ P.gen n v)
    (hkill : ∀ n, Q.node n → ∀ v, Q.kill n v ↔ P.kill n v) : Q.IsLeastSolution I O := by
  have hflows : ∀ {n v}, P.Flows n v → Q.node n → Q.Flows n v := by
    intro n v hf
    induction hf with
    | gen _ hg => exact fun hn => .gen hn ((hgen _ hn _).mpr hg)
    | step _ hp _ hk ih =>
        intro hn
        have hq := (hprev _ hn _).mpr hp
        exact .step hn hq (ih (Q.prev_node _ _ hq)) fun hk' => hk ((hkill _ hn _).mp hk')
  refine Solves.isLeast ⟨fun n hn v => ?_, fun n hn v => ?_⟩ fun n v hn hv =>
    hflows (h.flows (hnode n hn) hv) hn
  · rw [h.solves.entering n (hnode n hn) v]
    exact exists_congr fun m => and_congr_left fun _ => (hprev n hn m).symm
  · rw [h.solves.leaving n (hnode n hn) v, hgen n hn, hkill n hn]

end FlowProblem

end Noelle
