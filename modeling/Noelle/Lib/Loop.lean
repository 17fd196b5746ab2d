import Mathlib.Order.Basic

/-!
# Lib.Loop

While loops with fuel, and their rule of total correctness.

`loopM cond body fuel s` runs `body` as long as `cond` holds.  It returns `none`
if the body fails or the fuel runs out.  `loopM_rule` discharges both at once: an
invariant under which the body succeeds, and a measure that every iteration
decreases and that the fuel bounds.
-/

namespace Noelle

variable {σ : Type}

/-- `while (cond(s)) s = body(s);` for at most `fuel` iterations. -/
def loopM (cond : σ → Bool) (body : σ → Option σ) : Nat → σ → Option σ
  | 0, s => if cond s then none else some s
  | fuel + 1, s => if cond s then (body s).bind (loopM cond body fuel) else some s

variable {cond : σ → Bool} {body : σ → Option σ}

theorem loopM_of_not_cond {s : σ} (h : cond s = false) (fuel : Nat) :
    loopM cond body fuel s = some s := by
  cases fuel <;> simp [loopM, h]

/-- Total correctness: under the invariant the body succeeds and decreases the
measure, so enough fuel ends the loop with the invariant and without the condition. -/
theorem loopM_rule (I : σ → Prop) (measure : σ → Nat)
    (hbody : ∀ s, I s → cond s = true → ∃ s', body s = some s' ∧ I s' ∧ measure s' < measure s) :
    ∀ (fuel : Nat) (s : σ), I s → measure s ≤ fuel →
      ∃ s', loopM cond body fuel s = some s' ∧ I s' ∧ cond s' = false
  | 0, s, hI, hm => by
      cases hc : cond s with
      | false => exact ⟨s, loopM_of_not_cond hc 0, hI, hc⟩
      | true =>
          obtain ⟨s', _, _, hlt⟩ := hbody s hI hc
          exact absurd hlt (by omega)
  | fuel + 1, s, hI, hm => by
      cases hc : cond s with
      | false => exact ⟨s, loopM_of_not_cond hc _, hI, hc⟩
      | true =>
          obtain ⟨s₁, h₁, hI₁, hlt⟩ := hbody s hI hc
          obtain ⟨s', h', hI', hc'⟩ := loopM_rule I measure hbody fuel s₁ hI₁ (by omega)
          refine ⟨s', ?_, hI', hc'⟩
          rw [loopM, if_pos hc, h₁]
          exact h'

theorem loopM_mono : ∀ {fuel fuel' : Nat} {s s' : σ}, fuel ≤ fuel' →
    loopM cond body fuel s = some s' → loopM cond body fuel' s = some s'
  | 0, fuel', s, s', _, h => by
      rw [loopM] at h
      cases hc : cond s with
      | false =>
          rw [loopM_of_not_cond hc]
          simpa [hc] using h
      | true => simp [hc] at h
  | fuel + 1, 0, s, s', hle, h => absurd hle (by omega)
  | fuel + 1, fuel' + 1, s, s', hle, h => by
      rw [loopM] at h ⊢
      cases hc : cond s with
      | false => simpa [hc] using h
      | true =>
          rw [hc, if_pos rfl] at h
          obtain ⟨s₁, h₁, h₂⟩ := Option.bind_eq_some_iff.mp h
          rw [if_pos rfl, h₁]
          exact loopM_mono (Nat.le_of_succ_le_succ hle) h₂

/-- What the body preserves holds after the loop. -/
theorem loopM_preserves (I : σ → Prop)
    (hbody : ∀ s s', I s → cond s = true → body s = some s' → I s') :
    ∀ {fuel : Nat} {s s' : σ}, loopM cond body fuel s = some s' → I s → I s' ∧ cond s' = false
  | 0, s, s', h, hI => by
      rw [loopM] at h
      cases hc : cond s with
      | false =>
          have heq : s = s' := by simpa [hc] using h
          exact heq ▸ ⟨hI, hc⟩
      | true => simp [hc] at h
  | fuel + 1, s, s', h, hI => by
      rw [loopM] at h
      cases hc : cond s with
      | false =>
          have heq : s = s' := by simpa [hc] using h
          exact heq ▸ ⟨hI, hc⟩
      | true =>
          rw [hc, if_pos rfl] at h
          obtain ⟨s₁, h₁, h₂⟩ := Option.bind_eq_some_iff.mp h
          exact loopM_preserves I hbody h₂ (hbody s s₁ hI hc h₁)

theorem loopM_eq_none (I : σ → Prop)
    (hbody : ∀ s, I s → cond s = true ∧ ∀ s', body s = some s' → I s') :
    ∀ (fuel : Nat) (s : σ), I s → loopM cond body fuel s = none
  | 0, s, hI => by rw [loopM, if_pos (hbody s hI).1]
  | fuel + 1, s, hI => by
      rw [loopM, if_pos (hbody s hI).1]
      cases h : body s with
      | none => rfl
      | some s' => exact loopM_eq_none I hbody fuel s' ((hbody s hI).2 s' h)

end Noelle
