import Mathlib.Logic.Basic

/-!
# Lib.ICmp

Comparisons of machine integers, and the first step at which a condition holds.

The ten integer predicates are closed under the negation of the result
(`ICmpPredicate.inverse`) and the exchange of the operands (`ICmpPredicate.swapped`).
A signed and an unsigned order agree on operands with the same sign.  `ICmpPredicate.holdsInt`
compares the integers that the operands are read as.
-/

namespace Noelle

/-! ## Predicates -/

/-- The predicates of integer comparisons. -/
inductive ICmpPredicate where
  | eq | ne | ugt | uge | ult | ule | sgt | sge | slt | sle
  deriving DecidableEq

namespace ICmpPredicate

variable {w : Nat}

/-- The result of a comparison. -/
def holds : ICmpPredicate → BitVec w → BitVec w → Bool
  | eq, a, b => decide (a = b)
  | ne, a, b => decide (a ≠ b)
  | ugt, a, b => b.ult a
  | uge, a, b => b.ule a
  | ult, a, b => a.ult b
  | ule, a, b => a.ule b
  | sgt, a, b => b.slt a
  | sge, a, b => b.sle a
  | slt, a, b => a.slt b
  | sle, a, b => a.sle b

/-- The predicate of the negated result. -/
def inverse : ICmpPredicate → ICmpPredicate
  | eq => ne
  | ne => eq
  | ugt => ule
  | uge => ult
  | ult => uge
  | ule => ugt
  | sgt => sle
  | sge => slt
  | slt => sge
  | sle => sgt

/-- The predicate of the exchanged operands. -/
def swapped : ICmpPredicate → ICmpPredicate
  | eq => eq
  | ne => ne
  | ugt => ult
  | uge => ule
  | ult => ugt
  | ule => uge
  | sgt => slt
  | sge => sle
  | slt => sgt
  | sle => sge

variable (p : ICmpPredicate)

@[simp] theorem swapped_swapped : p.swapped.swapped = p := by
  cases p <;> rfl

theorem holds_inverse (a b : BitVec w) : p.inverse.holds a b = !p.holds a b := by
  cases p <;> simp [inverse, holds, BitVec.ule_eq_not_ult, BitVec.sle_eq_not_slt]

theorem holds_swapped (a b : BitVec w) : p.swapped.holds a b = p.holds b a := by
  cases p <;> simp [swapped, holds, eq_comm]

/-- The signed predicate with the same strictness and direction. -/
def signed : ICmpPredicate → ICmpPredicate
  | ugt => sgt
  | uge => sge
  | ult => slt
  | ule => sle
  | p => p

theorem holds_signed {a b : BitVec w} (h : a.msb = b.msb) :
    p.signed.holds a b = p.holds a b := by
  cases p <;> simp [signed, holds, BitVec.slt_eq_ult_of_msb_eq, BitVec.sle_eq_ule_of_msb_eq, h]

/-! ## Comparisons of integers -/

/-- The unsigned order of signed integers: the negative ones are above the others. -/
def unsignedLt (x y : Int) : Bool :=
  if decide (x < 0) = decide (y < 0) then decide (x < y) else decide (y < 0)

/-- The result of a comparison of machine integers that are read as signed ones. -/
def holdsInt : ICmpPredicate → Int → Int → Bool
  | eq, x, y => decide (x = y)
  | ne, x, y => decide (x ≠ y)
  | ugt, x, y => unsignedLt y x
  | uge, x, y => !unsignedLt x y
  | ult, x, y => unsignedLt x y
  | ule, x, y => !unsignedLt y x
  | sgt, x, y => decide (y < x)
  | sge, x, y => decide (y ≤ x)
  | slt, x, y => decide (x < y)
  | sle, x, y => decide (x ≤ y)

theorem unsignedLt_iff {x y : Int} :
    unsignedLt x y = true ↔ (0 ≤ x ∧ y < 0) ∨ (x < y ∧ (0 ≤ x ∨ y < 0)) := by
  unfold unsignedLt
  by_cases hx : x < 0 <;> by_cases hy : y < 0 <;> simp [hx, hy] <;> omega

theorem holdsInt_inverse (x y : Int) :
    p.inverse.holdsInt x y = !p.holdsInt x y := by
  rw [Bool.eq_iff_iff]
  cases p <;> simp [inverse, holdsInt]

theorem holdsInt_swapped (x y : Int) : p.swapped.holdsInt x y = p.holdsInt y x := by
  cases p <;> simp [swapped, holdsInt, eq_comm]

end ICmpPredicate

/-! ## First steps -/

/-- `n` is the first step at which the condition holds. -/
def FirstAt (c : Nat → Bool) (n : Nat) : Prop := c n = true ∧ ∀ k < n, c k = false

namespace FirstAt

variable {c d : Nat → Bool} {n m : Nat}

theorem congr (h : ∀ k ≤ n, c k = d k) : FirstAt c n ↔ FirstAt d n := by
  unfold FirstAt
  rw [h n (Nat.le_refl n)]
  refine and_congr_right fun _ => forall₂_congr fun k hk => ?_
  rw [h k (Nat.le_of_lt hk)]

theorem le_of_imp (h : ∀ k, d k = true → c k = true) (hn : FirstAt c n) (hm : FirstAt d m) : n ≤ m := by
  refine Nat.le_of_not_lt fun hlt => ?_
  have hfalse := hn.2 m hlt
  rw [h m hm.1] at hfalse
  cases hfalse

theorem of_imp (h : ∀ k, d k = true → c k = true) (hn : FirstAt c n) (hd : d n = true) : FirstAt d n := by
  refine ⟨hd, fun k hk => ?_⟩
  cases hdk : d k with
  | false => rfl
  | true =>
      have hfalse := hn.2 k hk
      rw [h k hdk] at hfalse
      cases hfalse

theorem congr_reached (h : ∀ k, (∀ j < k, c j = false) → c k = d k) : FirstAt c n ↔ FirstAt d n := by
  constructor
  · intro hc
    exact (congr fun k hk => h k fun j hj => hc.2 j (Nat.lt_of_lt_of_le hj hk)).mp hc
  · intro hd
    have hreached : ∀ k ≤ n, ∀ j < k, c j = false := by
      intro k
      induction k with
      | zero => exact fun _ j hj => absurd hj (Nat.not_lt_zero j)
      | succ k ih =>
          intro hk j hj
          rcases Nat.lt_succ_iff_lt_or_eq.mp hj with hlt | rfl
          · exact ih (Nat.le_of_succ_le hk) j hlt
          · rw [h j (ih (Nat.le_of_succ_le hk))]
            exact hd.2 j hk
    exact (congr fun k hk => h k (hreached k hk)).mpr hd

end FirstAt

end Noelle
