import Mathlib.Data.BitVec
import Mathlib.Data.Int.ModEq
import Mathlib.Data.Nat.Prime.Basic
import Mathlib.RingTheory.Coprime.Lemmas

/-!
# Lib.Differences

How far two machine integers are apart when they are computed in the same way from two others.

`DiffersBy p a d x y` says that `x` and `y` differ by `a` times `d` as far as the last `p` bits
tell.  Additions add the factors, multiplications by a number multiply them, and a number with `v`
trailing zeros makes `v` more bits known; truncations and sign extensions forget the bits above
their width.  The two integers are different if the difference is not a multiple of `2 ^ p`.
-/

namespace Noelle

/-! ## Congruences -/

section Congruences

variable {q w : Nat}

theorem toNat_ofNat_modEq (w x : Nat) : (((BitVec.ofNat w x).toNat : Nat) : Int) ≡ x [ZMOD 2 ^ w] := by
  rw [BitVec.toNat_ofNat]
  push_cast
  exact Int.mod_modEq _ _

theorem toNat_add_modEq (x y : BitVec w) :
    (((x + y).toNat : Nat) : Int) ≡ x.toNat + y.toNat [ZMOD 2 ^ w] := by
  rw [BitVec.toNat_add]
  push_cast
  exact Int.mod_modEq _ _

theorem toNat_mul_modEq (x y : BitVec w) :
    (((x * y).toNat : Nat) : Int) ≡ x.toNat * y.toNat [ZMOD 2 ^ w] := by
  rw [BitVec.toNat_mul]
  push_cast
  exact Int.mod_modEq _ _

theorem toNat_sub_modEq (x y : BitVec w) :
    (((x - y).toNat : Nat) : Int) ≡ x.toNat - y.toNat [ZMOD 2 ^ w] := by
  have hsum := toNat_add_modEq (x - y) y
  rw [BitVec.sub_add_cancel] at hsum
  simpa using (hsum.sub_right (y.toNat : Int)).symm

theorem toNat_setWidth_modEq (x : BitVec q) (w : Nat) :
    (((x.setWidth w).toNat : Nat) : Int) ≡ x.toNat [ZMOD 2 ^ w] := by
  rw [BitVec.toNat_setWidth]
  push_cast
  exact Int.mod_modEq _ _

theorem toInt_modEq (x : BitVec w) : x.toInt ≡ x.toNat [ZMOD 2 ^ w] := by
  rw [BitVec.toInt_eq_toNat_bmod]
  have h := @Int.bmod_emod (x.toNat : Int) (2 ^ w)
  push_cast at h
  exact h

theorem toNat_signExtend_modEq (x : BitVec q) {p w : Nat} (hq : p ≤ q) (hw : p ≤ w) :
    (((x.signExtend w).toNat : Nat) : Int) ≡ x.toNat [ZMOD 2 ^ p] := by
  have hresult := (toInt_modEq (x.signExtend w)).of_dvd (pow_dvd_pow 2 hw)
  have hoperand := (toInt_modEq x).of_dvd (pow_dvd_pow 2 hq)
  rw [BitVec.toInt_signExtend] at hresult
  have hbmod := @Int.bmod_emod x.toInt (2 ^ min w q)
  push_cast at hbmod
  have hbmod : Int.bmod x.toInt (2 ^ min w q) ≡ x.toInt [ZMOD 2 ^ p] :=
    Int.ModEq.of_dvd (pow_dvd_pow 2 (le_min hw hq)) hbmod
  exact (hresult.symm.trans hbmod).trans hoperand

theorem toNat_ofNat_add (w x y : Nat) :
    (((BitVec.ofNat w x + BitVec.ofNat w y).toNat : Nat) : Int) ≡ x + y [ZMOD 2 ^ w] :=
  (toNat_add_modEq _ _).trans ((toNat_ofNat_modEq w x).add (toNat_ofNat_modEq w y))

theorem toNat_ofNat_sub (w x y : Nat) :
    (((BitVec.ofNat w x - BitVec.ofNat w y).toNat : Nat) : Int) ≡ x - y [ZMOD 2 ^ w] :=
  (toNat_sub_modEq _ _).trans ((toNat_ofNat_modEq w x).sub (toNat_ofNat_modEq w y))

theorem toNat_ofNat_mul (w x y : Nat) :
    (((BitVec.ofNat w x * BitVec.ofNat w y).toNat : Nat) : Int) ≡ x * y [ZMOD 2 ^ w] :=
  (toNat_mul_modEq _ _).trans ((toNat_ofNat_modEq w x).mul (toNat_ofNat_modEq w y))

end Congruences

/-! ## Differences -/

/-- `x` and `y` differ by `a` times `d`, as far as the last `p` bits tell. -/
def DiffersBy (p : Nat) (a d : Int) (x y : Nat) : Prop := (x : Int) - y ≡ a * d [ZMOD 2 ^ p]

/-- The last `p` bits tell the two integers apart. -/
def TellsApart (p : Nat) (a d : Int) : Prop := ¬ (2 : Int) ^ p ∣ a * d

instance (p : Nat) (a d : Int) : Decidable (TellsApart p a d) := inferInstanceAs (Decidable (¬ _))

namespace DiffersBy

variable {p q w : Nat} {a b d : Int} {x y x' y' : Nat}

theorem refl (p : Nat) (d : Int) (x : Nat) : DiffersBy p 0 d x x := by
  simp [DiffersBy]

theorem mono (h : DiffersBy p a d x y) (hq : q ≤ p) : DiffersBy q a d x y :=
  Int.ModEq.of_dvd (pow_dvd_pow 2 hq) h

theorem ne (h : DiffersBy p a d x y) (hapart : TellsApart p a d) : x ≠ y := by
  rintro rfl
  have hzero : (0 : Int) ≡ a * d [ZMOD 2 ^ p] := by simpa [DiffersBy] using h
  exact hapart (Int.modEq_zero_iff_dvd.mp hzero.symm)

/-- Two integers of `w` bits whose last `w` bits are not told apart are equal. -/
theorem eq_of_not_tellsApart (h : DiffersBy w a d x y) (hnot : ¬ TellsApart w a d)
    (hx : x < 2 ^ w) (hy : y < 2 ^ w) : x = y := by
  have hmod : (x : Int) ≡ y [ZMOD 2 ^ w] := by
    have hzero := Int.ModEq.trans h (Int.modEq_zero_iff_dvd.mpr (not_not.mp hnot))
    simpa using hzero.add_right (y : Int)
  rw [Int.ModEq, Int.emod_eq_of_lt (by omega) (by exact_mod_cast hx),
    Int.emod_eq_of_lt (by omega) (by exact_mod_cast hy)] at hmod
  exact Int.ofNat.inj hmod

/-! ## Operations -/

theorem of_modEq {r s : Int} (h : r - s ≡ a * d [ZMOD 2 ^ p]) (hp : p ≤ w)
    (hx : (x : Int) ≡ r [ZMOD 2 ^ w]) (hy : (y : Int) ≡ s [ZMOD 2 ^ w]) : DiffersBy p a d x y :=
  ((hx.sub hy).of_dvd (pow_dvd_pow 2 hp)).trans h

theorem add (h : DiffersBy p a d x y) (h' : DiffersBy p b d x' y') (hp : p ≤ w) :
    DiffersBy p (a + b) d (BitVec.ofNat w x + BitVec.ofNat w x').toNat
      (BitVec.ofNat w y + BitVec.ofNat w y').toNat := by
  refine of_modEq ?_ hp (toNat_ofNat_add w x x') (toNat_ofNat_add w y y')
  rw [add_sub_add_comm, add_mul]
  exact Int.ModEq.add h h'

theorem sub (h : DiffersBy p a d x y) (h' : DiffersBy p b d x' y') (hp : p ≤ w) :
    DiffersBy p (a - b) d (BitVec.ofNat w x - BitVec.ofNat w x').toNat
      (BitVec.ofNat w y - BitVec.ofNat w y').toNat := by
  refine of_modEq ?_ hp (toNat_ofNat_sub w x x') (toNat_ofNat_sub w y y')
  rw [sub_sub_sub_comm, sub_mul]
  exact Int.ModEq.sub h h'

theorem mul_left {v : Nat} (c : Nat) (h : DiffersBy p a d x y) (hc : 2 ^ v ∣ c) (hq : q ≤ p + v)
    (hw : q ≤ w) : DiffersBy q (c * a) d (BitVec.ofNat w c * BitVec.ofNat w x).toNat
      (BitVec.ofNat w c * BitVec.ofNat w y).toNat := by
  refine of_modEq ?_ hw (toNat_ofNat_mul w c x) (toNat_ofNat_mul w c y)
  obtain ⟨m, rfl⟩ := hc
  have hscaled : (2 : Int) ^ v * ((x : Int) - y) ≡ 2 ^ v * (a * d) [ZMOD 2 ^ v * 2 ^ p] :=
    Int.ModEq.mul_left' h
  rw [← pow_add, Nat.add_comm v p] at hscaled
  have hprod := (hscaled.of_dvd (pow_dvd_pow 2 hq)).mul_left (m : Int)
  have hleft : ((2 ^ v * m : Nat) : Int) * x - ((2 ^ v * m : Nat) : Int) * y =
      m * (2 ^ v * ((x : Int) - y)) := by
    push_cast
    ring
  have hright : ((2 ^ v * m : Nat) : Int) * a * d = m * (2 ^ v * (a * d)) := by
    push_cast
    ring
  rw [hleft, hright]
  exact hprod

theorem setWidth {w' : Nat} (h : DiffersBy p a d x y) (hx : x < 2 ^ w') (hy : y < 2 ^ w')
    (hp : p ≤ w) : DiffersBy p a d ((BitVec.ofNat w' x).setWidth w).toNat
      ((BitVec.ofNat w' y).setWidth w).toNat := by
  refine of_modEq h hp ?_ ?_
  · have hmod := toNat_setWidth_modEq (BitVec.ofNat w' x) w
    rwa [BitVec.toNat_ofNat, Nat.mod_eq_of_lt hx] at hmod
  · have hmod := toNat_setWidth_modEq (BitVec.ofNat w' y) w
    rwa [BitVec.toNat_ofNat, Nat.mod_eq_of_lt hy] at hmod

theorem signExtend {w' : Nat} (h : DiffersBy p a d x y) (hp : p ≤ w) (hp' : p ≤ w') :
    DiffersBy p a d ((BitVec.ofNat w' x).signExtend w).toNat
      ((BitVec.ofNat w' y).signExtend w).toNat := by
  have hmod : ∀ n : Nat, ((((BitVec.ofNat w' n).signExtend w).toNat : Nat) : Int) ≡ n [ZMOD 2 ^ p] :=
    fun n => (toNat_signExtend_modEq _ hp' hp).trans
      ((toNat_ofNat_modEq w' n).of_dvd (pow_dvd_pow 2 hp'))
  exact of_modEq h le_rfl (hmod x) (hmod y)

end DiffersBy

/-- Multiplying by an odd multiple of `2 ^ v` moves the bit that tells the integers apart by `v`. -/
theorem TellsApart.mul {p v m : Nat} {a d : Int} (h : TellsApart p a d) (hm : Odd m) :
    TellsApart (p + v) ((2 ^ v * m : Nat) * a) d := by
  intro hdvd
  have heq : ((2 ^ v * m : Nat) : Int) * a * d = 2 ^ v * (m * (a * d)) := by
    push_cast
    ring
  rw [heq, Nat.add_comm p v, pow_add] at hdvd
  have hdvd := (mul_dvd_mul_iff_left (pow_ne_zero v two_ne_zero)).mp hdvd
  have hcoprime : IsCoprime ((2 : Int) ^ p) m :=
    IsCoprime.pow_left (Nat.isCoprime_iff_coprime.mpr (hm.coprime_two_left))
  exact h (hcoprime.dvd_of_dvd_mul_left hdvd)

end Noelle
