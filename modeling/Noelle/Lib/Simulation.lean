import Mathlib.Data.Nat.Notation
import Mathlib.Logic.Relation

/-!
# Lib.Simulation

Forward simulations of a system by a deterministic one.

A step is simulated by steps, or by none if the size of the state gets smaller.  Where the first
system stops, so does the second one, unless the state is excused.  Then each end of the second
system is an end of the first one (`Simulates.of_end`).
-/

namespace Noelle

open Relation

/-- `R` relates the states of two systems, step by step. -/
structure Simulates {σ τ : Type} (r : σ → σ → Prop) (q : τ → τ → Prop) (R : σ → τ → Prop)
    (size : σ → ℕ) (excused : σ → Prop) : Prop where
  step : ∀ s s' t, R s t → r s s' → R s' t ∧ size s' < size s ∨ ∃ t', TransGen q t t' ∧ R s' t'
  stops : ∀ s t, R s t → (∀ s', ¬ r s s') → excused s ∨ ∀ t', ¬ q t t'

theorem acc_of_end {α : Type} {r : α → α → Prop} (hr : Relator.RightUnique r) {a e : α}
    (h : ReflTransGen r a e) (he : ∀ b, ¬ r e b) : Acc (fun b a => TransGen r a b) a := by
  induction h using ReflTransGen.head_induction_on with
  | refl =>
    refine .intro _ fun b hb => ?_
    obtain ⟨c, hc, -⟩ := TransGen.head'_iff.mp hb
    exact absurd hc (he c)
  | @head x y hxy _ ih =>
    refine .intro _ fun b hb => ?_
    obtain ⟨c, hc, hcb⟩ := TransGen.head'_iff.mp hb
    obtain rfl := hr hxy hc
    rcases reflTransGen_iff_eq_or_transGen.mp hcb with rfl | hcb
    · exact ih
    · exact ih.inv hcb

theorem reach_end {α : Type} {r : α → α → Prop} (hr : Relator.RightUnique r) {a b e : α}
    (he : ReflTransGen r a e) (hend : ∀ c, ¬ r e c) (hb : ReflTransGen r a b) :
    ReflTransGen r b e := by
  rcases ReflTransGen.total_of_right_unique hr he hb with hback | hon
  · rcases hback.cases_head with rfl | ⟨c, hc, -⟩
    · exact .refl
    · exact absurd hc (hend c)
  · exact hon

namespace Simulates

variable {σ τ : Type} {r : σ → σ → Prop} {q : τ → τ → Prop} {R : σ → τ → Prop} {size : σ → ℕ}
  {excused : σ → Prop} {s s' : σ} {t e : τ}

/-- A whole run is simulated. -/
theorem run (h : Simulates r q R size excused) (hst : R s t) (hrun : ReflTransGen r s s') :
    ∃ t', ReflTransGen q t t' ∧ R s' t' := by
  induction hrun with
  | refl => exact ⟨t, .refl, hst⟩
  | tail _ hstep ih =>
    obtain ⟨t₁, hruns, h₁⟩ := ih
    rcases h.step _ _ t₁ h₁ hstep with ⟨h₂, -⟩ | ⟨t₂, hsteps, h₂⟩
    · exact ⟨t₁, hruns, h₂⟩
    · exact ⟨t₂, hruns.trans hsteps.to_reflTransGen, h₂⟩

/-- When the second system ends, the first one gets to where it ends, or to an excuse, and ends
there. -/
theorem of_end (h : Simulates r q R size excused) (hq : Relator.RightUnique q)
    (hend : ∀ t', ¬ q e t') (hst : R s t) (hsteps : ReflTransGen q t e) :
    ∃ s', ReflTransGen r s s' ∧ (∀ s'', ¬ r s' s'') ∧ (R s' e ∨ excused s') := by
  induction acc_of_end hq hsteps hend generalizing s with
  | intro t _ ih =>
    induction hlen : size s using Nat.strongRecOn generalizing s with
    | _ n ihlen =>
      subst hlen
      by_cases hstep : ∃ s', r s s'
      · obtain ⟨s', hstep⟩ := hstep
        rcases h.step s s' t hst hstep with ⟨hst', hlt⟩ | ⟨t', htrans, hst'⟩
        · obtain ⟨u, hrun, hu⟩ := ihlen _ hlt hst' rfl
          exact ⟨u, .head hstep hrun, hu⟩
        · obtain ⟨u, hrun, hu⟩ := ih t' htrans hst'
            (reach_end hq hsteps hend htrans.to_reflTransGen)
          exact ⟨u, .head hstep hrun, hu⟩
      · have hno : ∀ s', ¬ r s s' := fun s' hs => hstep ⟨s', hs⟩
        refine ⟨s, .refl, hno, ?_⟩
        rcases h.stops s t hst hno with hexcused | hstops
        · exact .inr hexcused
        · rcases hsteps.cases_head with rfl | ⟨c, hc, -⟩
          · exact .inl hst
          · exact absurd hc (hstops c)

end Simulates

end Noelle
