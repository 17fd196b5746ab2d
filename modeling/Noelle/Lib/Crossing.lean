import Mathlib.Tactic.Linarith
import Mathlib.Tactic.Ring
import Noelle.Lib.ICmp

/-!
# Lib.Crossing

Loops over an arithmetic progression, and when all its values stay within bounds.

`crossing start step limit` is the first step at which the progression is not below the limit.  A
loop that executes some steps stays in range if and only if it starts there and does not execute
that one (`staysInRange_iff`).  What this means depends on the test that ends the loop, of the values
against a bound that is not above the limit (`staysInRange_iff_of_test`): a test for being at least
the bound never executes it, a test for being above executes it if the bound is the limit and the
progression takes it, and a test for equality ends the loop only if the progression takes the bound.
-/

namespace Noelle

/-- The first step at which `start`, which `step` is added to, is not below the limit. -/
def crossing (start step limit : Int) : Nat := ((limit - start + (step - 1)) / step).toNat

/-- The step `k` is executed: no test up to it leaves the loop. -/
def ExecutedAt (leaves : Nat → Bool) (k : Nat) : Prop := ∀ j ≤ k, leaves j = false

/-- Every step that is executed has a value in the range. -/
def StaysInRange (leaves : Nat → Bool) (start step limit : Int) : Prop :=
  ∀ k, ExecutedAt leaves k → 0 ≤ start + k * step ∧ start + k * step < limit

variable {start step limit bound : Int} {leaves : Nat → Bool}

theorem lt_crossing_iff (hstep : 0 < step) {k : Nat} :
    k < crossing start step limit ↔ start + k * step < limit := by
  have hlt : (k : Int) < (limit - start + (step - 1)) / step ↔ start + k * step < limit := by
    rw [← Int.add_one_le_iff, Int.le_ediv_iff_mul_le hstep, add_mul, one_mul]
    omega
  rw [← hlt, crossing, ← Int.ofNat_lt, Int.toNat_eq_max]
  omega

theorem limit_le_crossing (hstep : 0 < step) :
    limit ≤ start + crossing start step limit * step :=
  not_lt.mp fun h => lt_irrefl _ ((lt_crossing_iff hstep).mpr h)

theorem ExecutedAt.mono {j k : Nat} (h : ExecutedAt leaves k) (hjk : j ≤ k) : ExecutedAt leaves j :=
  fun i hi => h i (hi.trans hjk)

/-- **Staying in range**: the start is in the range, and the step that would reach the limit is not
executed. -/
theorem staysInRange_iff (hstep : 0 ≤ step) :
    StaysInRange leaves start step limit ↔ (ExecutedAt leaves 0 →
      0 ≤ start ∧ start < limit ∧
        (0 < step → ¬ ExecutedAt leaves (crossing start step limit))) := by
  constructor
  · intro h hentered
    have hfirst := h 0 hentered
    simp only [Nat.cast_zero, zero_mul, add_zero] at hfirst
    exact ⟨hfirst.1, hfirst.2, fun hpos hcross =>
      absurd (h _ hcross).2 (not_lt.mpr (limit_le_crossing hpos))⟩
  · intro h k hk
    obtain ⟨hstart, hlimit, hcross⟩ := h (hk.mono (Nat.zero_le k))
    have hnonneg : 0 ≤ (k : Int) * step := Int.mul_nonneg (Int.natCast_nonneg k) hstep
    refine ⟨by omega, ?_⟩
    rcases hstep.eq_or_lt with rfl | hpos
    · rwa [mul_zero, add_zero]
    · refine (lt_crossing_iff hpos).mp (Nat.lt_of_not_le fun hle => ?_)
      exact hcross hpos (hk.mono hle)

theorem staysInRange_iff_of_lt (hstep : 0 ≤ step)
    (hleaves : ∀ k, leaves k = false → start + k * step < limit) :
    StaysInRange leaves start step limit ↔ (ExecutedAt leaves 0 → 0 ≤ start) := by
  refine (staysInRange_iff hstep).trans (forall_congr' fun hentered => ?_)
  have hlimit := hleaves 0 (hentered 0 le_rfl)
  simp only [Nat.cast_zero, zero_mul, add_zero] at hlimit
  refine ⟨fun h => h.1, fun h => ⟨h, hlimit, fun hpos hcross => ?_⟩⟩
  exact absurd (hleaves _ (hcross _ le_rfl)) (not_lt.mpr (limit_le_crossing hpos))

/-- A number of steps after which the progression takes a value that is not before its start. -/
theorem exists_step (hstep : 0 < step) (hle : start ≤ bound) (hdvd : step ∣ bound - start) :
    ∃ k : Nat, start + k * step = bound := by
  obtain ⟨q, hq⟩ := hdvd
  have hnonneg : 0 ≤ q := by
    by_contra hneg
    have hlt := Int.mul_neg_of_pos_of_neg hstep (not_le.mp hneg)
    omega
  refine ⟨q.toNat, ?_⟩
  rw [Int.toNat_of_nonneg hnonneg, mul_comm, ← hq]
  ring

/-- A loop that goes on up to the limit stays in range. -/
theorem staysInRange_iff_of_le_limit (hstep : 0 ≤ step)
    (hleaves : ∀ k, leaves k = false ↔ start + k * step ≤ limit) :
    StaysInRange leaves start step limit ↔
      (ExecutedAt leaves 0 → 0 ≤ start ∧ ¬ step ∣ limit - start) := by
  refine (staysInRange_iff hstep).trans (forall_congr' fun hentered => ?_)
  have hstart := (hleaves 0).mp (hentered 0 le_rfl)
  simp only [Nat.cast_zero, zero_mul, add_zero] at hstart
  constructor
  · rintro ⟨hnonneg, hlt, hcross⟩
    refine ⟨hnonneg, fun hdvd => ?_⟩
    rcases hstep.eq_or_lt with rfl | hpos
    · have hzero := zero_dvd_iff.mp hdvd
      omega
    · -- the step at which the progression takes the limit is executed
      refine hcross hpos fun j hj => ?_
      obtain ⟨k, hk⟩ := exists_step hpos hstart hdvd
      have hle : crossing start step limit ≤ k :=
        Nat.le_of_not_lt fun hlt => absurd ((lt_crossing_iff hpos).mp hlt) (by omega)
      have hmul : (j : Int) * step ≤ k * step :=
        Int.mul_le_mul_of_nonneg_right (Int.ofNat_le.mpr (hj.trans hle)) hstep
      exact (hleaves j).mpr (by omega)
  · rintro ⟨hnonneg, hdvd⟩
    have hne : start ≠ limit := fun heq => hdvd (by simp [heq])
    refine ⟨hnonneg, lt_of_le_of_ne hstart hne, fun hpos hcross => ?_⟩
    have hle := (hleaves _).mp (hcross _ le_rfl)
    have heq := le_antisymm hle (limit_le_crossing hpos)
    exact hdvd ⟨crossing start step limit, by rw [mul_comm]; omega⟩

theorem staysInRange_iff_of_le (hstep : 0 ≤ step) (hbound : bound ≤ limit)
    (hleaves : ∀ k, leaves k = false ↔ start + k * step ≤ bound) :
    StaysInRange leaves start step limit ↔
      (ExecutedAt leaves 0 → 0 ≤ start ∧ ¬ (bound = limit ∧ step ∣ limit - start)) := by
  rcases hbound.eq_or_lt with rfl | hlt
  · rw [staysInRange_iff_of_le_limit hstep hleaves]
    simp only [true_and]
  · rw [staysInRange_iff_of_lt hstep fun k hk => ((hleaves k).mp hk).trans_lt hlt]
    simp only [hlt.ne, false_and, not_false_eq_true, and_true]

/-- A loop that leaves at a bound stays in range. -/
theorem staysInRange_iff_of_eq (hstep : 0 ≤ step) (hbound : bound ≤ limit)
    (hleaves : ∀ k, leaves k = true ↔ start + k * step = bound) :
    StaysInRange leaves start step limit ↔ (ExecutedAt leaves 0 →
      0 ≤ start ∧ start < limit ∧ (0 < step → start ≤ bound ∧ step ∣ bound - start)) := by
  constructor
  · intro h hentered
    obtain ⟨hnonneg, hlt, hcross⟩ := (staysInRange_iff hstep).mp h hentered
    refine ⟨hnonneg, hlt, fun hpos => ?_⟩
    have hleft : ∃ j, leaves j = true := by
      by_contra hnever
      exact hcross hpos fun j _ => by simpa using fun hj => hnever ⟨j, hj⟩
    obtain ⟨j, hj⟩ := hleft
    have heq := (hleaves j).mp hj
    have hmul : 0 ≤ (j : Int) * step := Int.mul_nonneg (Int.natCast_nonneg j) hstep
    exact ⟨by omega, ⟨j, by rw [mul_comm]; omega⟩⟩
  · intro h
    refine (staysInRange_iff hstep).mpr fun hentered => ?_
    obtain ⟨hnonneg, hlt, htaken⟩ := h hentered
    refine ⟨hnonneg, hlt, fun hpos hcross => ?_⟩
    obtain ⟨hle, hdvd⟩ := htaken hpos
    obtain ⟨q, hq⟩ := exists_step hpos hle hdvd
    -- the loop is left at the bound, before the limit or at it
    have hq' : q ≤ crossing start step limit := by
      by_contra hnot
      have hlimit := (lt_crossing_iff hpos).not.mp (lt_irrefl (crossing start step limit))
      have hmul : (crossing start step limit : Int) * step < q * step :=
        Int.mul_lt_mul_of_pos_right (Int.ofNat_lt.mpr (not_le.mp hnot)) hpos
      omega
    have hfalse := hcross q hq'
    rw [(hleaves q).mpr hq] at hfalse
    nomatch hfalse.symm

theorem staysInRange_iff_of_nonneg (hstep : 0 ≤ step)
    (hleaves : ∀ k : Nat, 0 ≤ start + k * step → leaves k = false) :
    StaysInRange leaves start step limit ↔
      (ExecutedAt leaves 0 → 0 ≤ start ∧ start < limit ∧ step = 0) := by
  refine (staysInRange_iff hstep).trans (forall_congr' fun hentered => ?_)
  refine and_congr_right fun hnonneg => and_congr_right fun _ => ?_
  constructor
  · intro hcross
    by_contra hne
    refine hcross (lt_of_le_of_ne hstep (Ne.symm hne)) fun j _ => hleaves j ?_
    exact Int.add_nonneg hnonneg (Int.mul_nonneg (Int.natCast_nonneg j) hstep)
  · intro heq hpos
    exact absurd heq hpos.ne'

/-! ## Tests against a bound -/

/-- What a test of the values against the bound asks of a progression with a first step, for it to stay
in range. -/
def RangeCondition (p : ICmpPredicate) (start step bound limit : Int) : Prop :=
  match p with
  | .sge => 0 ≤ start
  | .sgt => 0 ≤ start ∧ ¬ (bound = limit ∧ step ∣ limit - start)
  | .uge => 0 ≤ bound ∨ (0 ≤ start ∧ start < limit ∧ step = 0)
  | .ugt =>
      if 0 ≤ bound then ¬ (bound = limit ∧ step ∣ limit - start)
      else 0 ≤ start ∧ start < limit ∧ step = 0
  | _ => 0 ≤ start ∧ start < limit ∧ (0 < step → start ≤ bound ∧ step ∣ bound - start)

/-- A loop that is left when the value is at the bound, or past it. -/
def LeavesUpwards (p : ICmpPredicate) : Prop :=
  p = .eq ∨ p = .sge ∨ p = .uge ∨ p = .sgt ∨ p = .ugt

section Tests

open ICmpPredicate

theorem staysInRange_iff_of_uge (hstep : 0 ≤ step) (hbound : bound ≤ limit) :
    StaysInRange (fun k => uge.holdsInt (start + k * step) bound) start step limit ↔
      (ExecutedAt (fun k => uge.holdsInt (start + k * step) bound) 0 →
        RangeCondition .uge start step bound limit) := by
  rcases le_or_gt 0 bound with hnonneg | hneg
  · -- the values that are below the bound are in the range
    refine (staysInRange_iff_of_lt hstep fun k hk => ?_).trans (forall_congr' fun hentered => ?_)
    · simp only [holdsInt, Bool.not_eq_false', unsignedLt_iff] at hk
      omega
    · have hfirst := hentered 0 le_rfl
      simp only [holdsInt, Bool.not_eq_false', unsignedLt_iff, Nat.cast_zero, zero_mul,
        add_zero] at hfirst
      exact iff_of_true (by omega) (.inl hnonneg)
  · refine (staysInRange_iff_of_nonneg hstep fun k hk => ?_).trans (forall_congr' fun _ => ?_)
    · simp only [holdsInt, Bool.not_eq_false', unsignedLt_iff]
      omega
    · simp only [RangeCondition, not_le.mpr hneg, false_or]

/-- A loop that leaves above a bound stays in range. -/
theorem staysInRange_iff_of_ugt (hstep : 0 ≤ step) (hbound : bound ≤ limit) :
    StaysInRange (fun k => ugt.holdsInt (start + k * step) bound) start step limit ↔
      (ExecutedAt (fun k => ugt.holdsInt (start + k * step) bound) 0 →
        RangeCondition .ugt start step bound limit) := by
  rcases le_or_gt 0 bound with hnonneg | hneg
  · rcases le_or_gt 0 start with hstart | hstart
    · refine (staysInRange_iff_of_le hstep hbound fun k => ?_).trans (forall_congr' fun _ => ?_)
      · have hk := Int.mul_nonneg (Int.natCast_nonneg k) hstep
        simp only [holdsInt, ← Bool.not_eq_true, unsignedLt_iff]
        omega
      · simp only [RangeCondition, hnonneg, hstart, if_true, true_and]
    · -- a negative value is above the bound
      have hleft : ¬ ExecutedAt (fun k => ugt.holdsInt (start + k * step) bound) 0 := by
        intro hentered
        have hfirst := hentered 0 le_rfl
        simp only [holdsInt, ← Bool.not_eq_true, unsignedLt_iff, Nat.cast_zero, zero_mul,
          add_zero] at hfirst
        omega
      exact iff_of_true (fun k hk => absurd (hk.mono (Nat.zero_le k)) hleft)
        fun hentered => absurd hentered hleft
  · refine (staysInRange_iff_of_nonneg hstep fun k hk => ?_).trans (forall_congr' fun _ => ?_)
    · simp only [holdsInt, ← Bool.not_eq_true, unsignedLt_iff]
      omega
    · simp only [RangeCondition, not_le.mpr hneg, if_false]

/-- **Staying in range, by the exit test.** -/
theorem staysInRange_iff_of_test {p : ICmpPredicate} (hp : LeavesUpwards p) (hstep : 0 ≤ step)
    (hbound : bound ≤ limit) :
    StaysInRange (fun k => p.holdsInt (start + k * step) bound) start step limit ↔
      (ExecutedAt (fun k => p.holdsInt (start + k * step) bound) 0 →
        RangeCondition p start step bound limit) := by
  rcases hp with rfl | rfl | rfl | rfl | rfl
  · exact staysInRange_iff_of_eq hstep hbound fun k => by simp [holdsInt]
  · refine staysInRange_iff_of_lt hstep fun k hk => ?_
    simp only [holdsInt, decide_eq_false_iff_not] at hk
    omega
  · exact staysInRange_iff_of_uge hstep hbound
  · exact staysInRange_iff_of_le hstep hbound fun k => by simp [holdsInt]
  · exact staysInRange_iff_of_ugt hstep hbound

end Tests

end Noelle
