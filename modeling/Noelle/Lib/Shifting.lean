import Mathlib.Tactic.Ring
import Noelle.Lib.ICmp

/-!
# Lib.Shifting

Comparisons of machine integers after one number is added to both operands.

An equality is kept.  An order is kept if the two sums wrap around or neither of them does, and is
turned around if one of them does (`holds_add_iff`).
-/

namespace Noelle

variable {w : Nat}

theorem toNat_add_cases (a c : BitVec w) :
    (a.uaddOverflow c = false ∧ (a + c).toNat = a.toNat + c.toNat) ∨
      (a.uaddOverflow c = true ∧ (a + c).toNat + 2 ^ w = a.toNat + c.toNat) := by
  have ha := a.isLt
  have hc := c.isLt
  by_cases h : a.toNat + c.toNat < 2 ^ w
  · refine .inl ⟨decide_eq_false (not_le.mpr h), ?_⟩
    rw [BitVec.toNat_add, Nat.mod_eq_of_lt h]
  · refine .inr ⟨decide_eq_true (not_lt.mp h), ?_⟩
    rw [BitVec.toNat_add, Nat.mod_eq_sub_mod (not_lt.mp h), Nat.mod_eq_of_lt (by omega)]
    omega

/-- The signed sum, which wraps around in the direction of the number that is added. -/
theorem toInt_add_cases (a c : BitVec w) :
    (a.saddOverflow c = false ∧ (a + c).toInt = a.toInt + c.toInt) ∨
      (a.saddOverflow c = true ∧ 0 ≤ c.toInt ∧ (a + c).toInt = a.toInt + c.toInt - 2 ^ w) ∨
      (a.saddOverflow c = true ∧ c.toInt < 0 ∧ (a + c).toInt = a.toInt + c.toInt + 2 ^ w) := by
  have hlt := BitVec.toInt_lt (x := a)
  have hle := BitVec.le_toInt a
  have hcases : a.saddOverflow c = false ∨ a.saddOverflow c = true := by
    cases a.saddOverflow c <;> simp
  obtain hfalse | htrue := hcases
  · refine .inl ⟨hfalse, BitVec.toInt_add_of_not_saddOverflow ?_⟩
    rw [hfalse]
    exact Bool.false_ne_true
  · have hsum : (a + c).toInt = (a.toInt + c.toInt).bmod (2 ^ w) := BitVec.toInt_add a c
    have hw : 0 < w := by
      by_contra hzero
      obtain rfl : w = 0 := by omega
      rw [BitVec.eq_nil a, BitVec.eq_nil c] at htrue
      exact absurd htrue (by decide)
    have hpow : (2 : Int) ^ w = 2 ^ (w - 1) * 2 := by
      rw [← pow_succ, Nat.sub_add_cancel hw]
    have hcast : ((2 ^ w : Nat) : Int) = 2 ^ w := by push_cast; rfl
    have hoverflow := htrue
    simp only [BitVec.saddOverflow, Bool.or_eq_true, decide_eq_true_eq] at hoverflow
    have hclt := BitVec.toInt_lt (x := c)
    have hcle := BitVec.le_toInt c
    obtain hhigh | hlow := hoverflow
    · refine .inr (.inl ⟨htrue, by omega, ?_⟩)
      rw [hsum, ← Int.sub_bmod_right, hcast, Int.bmod_eq_of_le_mul_two] <;> rw [hcast] <;> omega
    · refine .inr (.inr ⟨htrue, by omega, ?_⟩)
      rw [hsum, ← Int.add_bmod_right, hcast, Int.bmod_eq_of_le_mul_two] <;> rw [hcast] <;> omega

namespace ICmpPredicate

/-- The sum of the numbers that the operands are read as is not the one that the result is read as. -/
def addWraps : ICmpPredicate → BitVec w → BitVec w → Bool
  | eq, _, _ | ne, _, _ => false
  | ugt, a, c | uge, a, c | ult, a, c | ule, a, c => a.uaddOverflow c
  | sgt, a, c | sge, a, c | slt, a, c | sle, a, c => a.saddOverflow c

variable (a b c : BitVec w)

theorem ult_add_iff :
    ((a + c).ult (b + c) = a.ult b) ↔ (a.uaddOverflow c = b.uaddOverflow c) := by
  have ha := a.isLt
  have hb := b.isLt
  rw [BitVec.ult_eq_decide, BitVec.ult_eq_decide, decide_eq_decide]
  obtain ⟨hwa, hsa⟩ | ⟨hwa, hsa⟩ := toNat_add_cases a c <;>
    obtain ⟨hwb, hsb⟩ | ⟨hwb, hsb⟩ := toNat_add_cases b c <;> rw [hwa, hwb]
  · simp only [iff_true]
    omega
  · simp only [Bool.false_eq_true, iff_false]
    omega
  · simp only [Bool.true_eq_false, iff_false]
    omega
  · simp only [iff_true]
    omega

theorem slt_add_iff :
    ((a + c).slt (b + c) = a.slt b) ↔ (a.saddOverflow c = b.saddOverflow c) := by
  have ha := BitVec.two_mul_toInt_lt (x := a)
  have ha' := BitVec.le_two_mul_toInt (x := a)
  have hb := BitVec.two_mul_toInt_lt (x := b)
  have hb' := BitVec.le_two_mul_toInt (x := b)
  have hsa' := BitVec.two_mul_toInt_lt (x := a + c)
  have hsa'' := BitVec.le_two_mul_toInt (x := a + c)
  have hsb' := BitVec.two_mul_toInt_lt (x := b + c)
  have hsb'' := BitVec.le_two_mul_toInt (x := b + c)
  rw [BitVec.slt_eq_decide, BitVec.slt_eq_decide, decide_eq_decide]
  obtain ⟨hwa, hsa⟩ | ⟨hwa, hca, hsa⟩ | ⟨hwa, hca, hsa⟩ := toInt_add_cases a c <;>
    obtain ⟨hwb, hsb⟩ | ⟨hwb, hcb, hsb⟩ | ⟨hwb, hcb, hsb⟩ := toInt_add_cases b c <;>
    rw [hwa, hwb] <;> simp only [iff_true, Bool.false_eq_true, Bool.true_eq_false, iff_false] <;>
    omega

/-- **Adding to both sides** keeps the result of a comparison of machine integers exactly if both sums
wrap around or neither does. -/
theorem holds_add_iff (p : ICmpPredicate) :
    p.holds (a + c) (b + c) = p.holds a b ↔ p.addWraps a c = p.addWraps b c := by
  cases p with
  | eq | ne => simp [holds, addWraps]
  | ult => exact ult_add_iff a b c
  | ugt => exact (ult_add_iff b a c).trans eq_comm
  | ule =>
      rw [holds, holds, BitVec.ule_eq_not_ult, BitVec.ule_eq_not_ult, Bool.not_inj_iff]
      exact (ult_add_iff b a c).trans eq_comm
  | uge =>
      rw [holds, holds, BitVec.ule_eq_not_ult, BitVec.ule_eq_not_ult, Bool.not_inj_iff]
      exact ult_add_iff a b c
  | slt => exact slt_add_iff a b c
  | sgt => exact (slt_add_iff b a c).trans eq_comm
  | sle =>
      rw [holds, holds, BitVec.sle_eq_not_slt, BitVec.sle_eq_not_slt, Bool.not_inj_iff]
      exact (slt_add_iff b a c).trans eq_comm
  | sge =>
      rw [holds, holds, BitVec.sle_eq_not_slt, BitVec.sle_eq_not_slt, Bool.not_inj_iff]
      exact slt_add_iff a b c

end ICmpPredicate

end Noelle
