import Mathlib.Data.BitVec
import Mathlib.Tactic.Ring
import Noelle.LoopGoverningIV.Utility

/-!
# LoopGoverningIV.TripCount

`LoopGoverningIVUtility::generateCodeToComputeTheTripCount`.

The emitted code divides the distance between the start value and the exit value by the step, as
unsigned numbers and rounding down.  For a negative step the divisor is at least half of the range
of the type, so the quotient is at most one.
-/

namespace Noelle

variable {V B : Type} [DecidableEq V] [DecidableEq B] {w : Nat}

/-- The distance that the emitted code computes. -/
def LoopGoverningIVUtility.tripCountDelta (attribution : LoopGoverningInductionVariable V B w)
    (startValue lastValue : BitVec w) : BitVec w :=
  if attribution.isStepValuePositive then lastValue - startValue else startValue - lastValue

/-- The value of the code that `generateCodeToComputeTheTripCount` emits. -/
def LoopGoverningIVUtility.generateCodeToComputeTheTripCount
    (attribution : LoopGoverningInductionVariable V B w) (startValue lastValue : BitVec w) :
    BitVec w :=
  tripCountDelta attribution startValue lastValue / attribution.stepValue

/-! ## The loop -/

/-- How a loop uses its header: which value is compared there, and whether the instructions of
the header are the loop body (a do-while loop) or are executed between two executions of it. -/
structure LoopForm where
  comparesUpdatedValue : Bool
  headerIsBody : Bool
  deriving DecidableEq

namespace LoopForm

variable (form : LoopForm)

/-- How many steps the compared value is ahead of the PHI. -/
def lead : Nat := if form.comparesUpdatedValue then 1 else 0

/-- How often the body is executed when the first comparison leaves the loop. -/
def extra : Nat := if form.headerIsBody then 1 else 0

/-- The first value that is compared. -/
def firstCompared (attribution : LoopGoverningInductionVariable V B w) (start : BitVec w) : BitVec w :=
  start + BitVec.ofNat w form.lead * attribution.stepValue

/-- The comparison `N` is the first one that leaves the loop.  The body is then executed
`N + extra` times. -/
def LeavesAt (attribution : LoopGoverningInductionVariable V B w) (start bound : BitVec w)
    (N : Nat) : Prop :=
  FirstAt (originalExit attribution (form.firstCompared attribution start) bound) N

end LoopForm

/-- The first `n` steps do not wrap around, in the given reading of the machine integers. -/
def NoWrapIn (r : BitVec w → Int) (start step : BitVec w) (n : Nat) : Prop :=
  ∀ c ≤ n, r (start + BitVec.ofNat w c * step) = r start + c * step.toInt

/-- The unsigned reading. -/
def unsignedValue (x : BitVec w) : Int := (x.toNat : Int)

/-- The steps do not wrap around in the order of the predicate. -/
def NoWrap : ICmpPredicate → BitVec w → BitVec w → Nat → Prop
  | .eq, start, step, n | .ne, start, step, n =>
      NoWrapIn BitVec.toInt start step n ∨ NoWrapIn unsignedValue start step n
  | .ugt, start, step, n | .uge, start, step, n | .ult, start, step, n | .ule, start, step, n =>
      NoWrapIn unsignedValue start step n
  | .sgt, start, step, n | .sge, start, step, n | .slt, start, step, n | .sle, start, step, n =>
      NoWrapIn BitVec.toInt start step n

/-- When rounding down gives the right number of positive steps: a bound that is taken is a multiple
of the step away, one that ends the loop by being passed makes it go on up to one step further. -/
def RoundingFits (exitPredicate : ICmpPredicate) (s d lead extra : Nat) : Prop :=
  match exitPredicate with
  | .eq => lead = extra
  | .uge | .sge => lead = if s ∣ d then extra else extra + 1
  | _ => lead = extra + 1

/-- When the trip count is right.  With `d` the distance and `s` the step as unsigned numbers: if
the first comparison leaves the loop, `d` is less than one step, or than two if the body is
executed nevertheless.  Otherwise, for a positive step the rounding has to fit the predicate and
the form of the loop; for a negative one the body has to be executed exactly once, and `d` has to
reach `s`. -/
def TripCountFits (attribution : LoopGoverningInductionVariable V B w) (form : LoopForm)
    (start bound : BitVec w) : Prop :=
  let d := (LoopGoverningIVUtility.tripCountDelta attribution start bound).toNat
  let s := attribution.stepValue.toNat
  let exitsAt := originalExit attribution (form.firstCompared attribution start) bound
  if exitsAt 0 then form.extra * s ≤ d ∧ d < (form.extra + 1) * s
  else if attribution.isStepValuePositive then
    RoundingFits attribution.exitPredicate s d form.lead form.extra
  else form.extra = 0 ∧ s ≤ d ∧ exitsAt 1

/-! ## Readings -/

/-- A reading of the machine integers that subtraction respects as long as it does not wrap. -/
structure Reading (r : BitVec w → Int) : Prop where
  injective : ∀ x y, r x = r y → x = y
  toNat_sub : ∀ x y, r y ≤ r x → ((x - y).toNat : Int) = r x - r y

theorem unsignedValue_reading : Reading (unsignedValue : BitVec w → Int) where
  injective x y h := BitVec.eq_of_toNat_eq (Int.ofNat.inj h)
  toNat_sub x y h := by
    have hle : y.toNat ≤ x.toNat := Int.ofNat_le.mp h
    rw [BitVec.toNat_sub_of_le (BitVec.le_def.mpr hle), Int.ofNat_sub hle]
    rfl

theorem toInt_reading : Reading (BitVec.toInt : BitVec w → Int) where
  injective x y h := BitVec.toInt_inj.mp h
  toNat_sub x y h := by
    have hx := x.isLt
    have hy := y.isLt
    rw [BitVec.toInt_eq_toNat_cond, BitVec.toInt_eq_toNat_cond] at h ⊢
    by_cases hle : y.toNat ≤ x.toNat
    · rw [BitVec.toNat_sub_of_le (BitVec.le_def.mpr hle)]
      split_ifs at h ⊢ <;> omega
    · rw [BitVec.toNat_sub, Nat.mod_eq_of_lt (by omega)]
      split_ifs at h ⊢ <;> omega

theorem toNat_eq_of_pos {step : BitVec w} (h : 0 < step.toInt) : (step.toNat : Int) = step.toInt := by
  have hlt := step.isLt
  rw [BitVec.toInt_eq_toNat_cond] at h ⊢
  split_ifs at h ⊢ <;> omega

theorem two_mul_toNat_of_not_pos {step : BitVec w} (hstep : step ≠ 0) (h : ¬ 0 < step.toInt) :
    2 ^ w ≤ 2 * step.toNat := by
  by_contra hlt
  rw [BitVec.toInt_eq_toNat_cond, if_pos (by omega)] at h
  exact hstep (BitVec.eq_of_toNat_eq (by simp; omega))

/-! ## Positive steps -/

section Positive

variable {r : BitVec w → Int} {start bound step : BitVec w} {c n : Nat}

theorem NoWrapIn.value_eq (h : NoWrapIn r start step n) (hc : c ≤ n)
    (hpos : 0 < step.toInt) :
    r (start + BitVec.ofNat w c * step) = r start + ((c * step.toNat : Nat) : Int) := by
  rw [h c hc, ← toNat_eq_of_pos hpos, Int.natCast_mul]

theorem delta_of_eq (hr : Reading r) (h : NoWrapIn r start step n) (hc : c ≤ n)
    (hpos : 0 < step.toInt) (heq : start + BitVec.ofNat w c * step = bound) :
    (bound - start).toNat = c * step.toNat := by
  have hvalue := h.value_eq hc hpos
  rw [heq] at hvalue
  have hdelta := hr.toNat_sub bound start (by omega)
  omega

variable (hr : Reading r) (h : NoWrapIn r start step (c + 1)) (hpos : 0 < step.toInt)

include hr h hpos

theorem delta_of_lt_of_le (hlt : r (start + BitVec.ofNat w c * step) < r bound)
    (hle : r bound ≤ r (start + BitVec.ofNat w (c + 1) * step)) :
    c * step.toNat < (bound - start).toNat ∧ (bound - start).toNat ≤ (c + 1) * step.toNat := by
  rw [h.value_eq (Nat.le_succ c) hpos] at hlt
  rw [h.value_eq le_rfl hpos] at hle
  have hdelta := hr.toNat_sub bound start (by omega)
  omega

theorem delta_of_le_of_lt (hle : r (start + BitVec.ofNat w c * step) ≤ r bound)
    (hlt : r bound < r (start + BitVec.ofNat w (c + 1) * step)) :
    c * step.toNat ≤ (bound - start).toNat ∧ (bound - start).toNat < (c + 1) * step.toNat := by
  rw [h.value_eq (Nat.le_succ c) hpos] at hle
  rw [h.value_eq le_rfl hpos] at hlt
  have hdelta := hr.toNat_sub bound start (by omega)
  omega

end Positive

section Rounding

variable {start bound step : BitVec w} {c n : Nat} {p : ICmpPredicate}

theorem delta_of_eq_of_noWrap (h : NoWrap .eq start step n) (hc : c ≤ n) (hpos : 0 < step.toInt)
    (heq : start + BitVec.ofNat w c * step = bound) : (bound - start).toNat = c * step.toNat :=
  h.elim (fun h => delta_of_eq toInt_reading h hc hpos heq)
    fun h => delta_of_eq unsignedValue_reading h hc hpos heq

theorem div_eq_iff_of_lt_of_le {s d c : Nat} (hs : 0 < s) (hlt : c * s < d) (hle : d ≤ (c + 1) * s)
    (m : Nat) : d / s = m ↔ m = if s ∣ d then c + 1 else c := by
  split_ifs with hdvd
  · obtain ⟨q, rfl⟩ := hdvd
    rw [Nat.mul_comm c s] at hlt
    rw [Nat.mul_comm (c + 1) s] at hle
    have hc := Nat.lt_of_mul_lt_mul_left hlt
    have hq := Nat.le_of_mul_le_mul_left hle hs
    rw [Nat.mul_div_cancel_left q hs]
    omega
  · have hne : d ≠ (c + 1) * s := fun heq => hdvd (heq ▸ Nat.dvd_mul_left s (c + 1))
    rw [Nat.div_eq_of_lt_le hlt.le (Nat.lt_of_le_of_ne hle hne)]
    exact eq_comm

/-- Rounding down after the comparison `n` went on with the loop and the next one left it. -/
theorem roundingFits_iff {lead : Nat} (extra : Nat) (hpos : 0 < step.toInt)
    (haccepted : (LoopGoverningIVUtility.predicatesFor p true).isSome = true)
    (hwrap : NoWrap p start step (n + lead + 1))
    (hexit : p.holds (start + BitVec.ofNat w (n + lead + 1) * step) bound = true)
    (hstay : ∀ k ≤ n, p.holds (start + BitVec.ofNat w (k + lead) * step) bound = false) :
    (bound - start).toNat / step.toNat = n + 1 + extra ↔
      RoundingFits p step.toNat (bound - start).toNat lead extra := by
  have hs : 0 < step.toNat := by
    have heq := toNat_eq_of_pos hpos
    omega
  have hstay' := hstay n le_rfl
  -- the bound is behind the last value, or not before it
  have hge : (n + lead) * step.toNat < (bound - start).toNat ∧
      (bound - start).toNat ≤ (n + lead + 1) * step.toNat →
        ((bound - start).toNat / step.toNat = n + 1 + extra ↔
          lead = if step.toNat ∣ (bound - start).toNat then extra else extra + 1) := by
    rintro ⟨hlt, hle⟩
    rw [div_eq_iff_of_lt_of_le hs hlt hle]
    split_ifs <;> omega
  have hgt : (n + lead) * step.toNat ≤ (bound - start).toNat ∧
      (bound - start).toNat < (n + lead + 1) * step.toNat →
        ((bound - start).toNat / step.toNat = n + 1 + extra ↔ lead = extra + 1) := by
    rintro ⟨hle, hlt⟩
    rw [Nat.div_eq_of_lt_le hle hlt]
    omega
  cases p with
  | eq =>
      have hd := delta_of_eq_of_noWrap hwrap le_rfl hpos (of_decide_eq_true hexit)
      rw [hd, Nat.mul_div_cancel _ hs, RoundingFits]
      omega
  | ne =>
      have hd : ∀ k ≤ n, (bound - start).toNat = (k + lead) * step.toNat := fun k hk =>
        delta_of_eq_of_noWrap hwrap (by omega) hpos (not_not.mp (of_decide_eq_false (hstay k hk)))
      -- one step leaves the bound
      have hn := Nat.eq_of_mul_eq_mul_right hs ((hd n le_rfl).symm.trans (hd 0 (Nat.zero_le n)))
      rw [hd n le_rfl, Nat.mul_div_cancel _ hs]
      change n + lead = n + 1 + extra ↔ lead = extra + 1
      omega
  | uge =>
      exact hge (delta_of_lt_of_le unsignedValue_reading hwrap hpos
        (Int.ofNat_lt.mpr (Nat.lt_of_not_le (of_decide_eq_false hstay')))
        (Int.ofNat_le.mpr (of_decide_eq_true hexit)))
  | sge =>
      exact hge (delta_of_lt_of_le toInt_reading hwrap hpos
        (lt_of_not_ge (of_decide_eq_false hstay')) (of_decide_eq_true hexit))
  | ugt =>
      exact hgt (delta_of_le_of_lt unsignedValue_reading hwrap hpos
        (Int.ofNat_le.mpr (Nat.le_of_not_lt (of_decide_eq_false hstay')))
        (Int.ofNat_lt.mpr (of_decide_eq_true hexit)))
  | sgt =>
      exact hgt (delta_of_le_of_lt toInt_reading hwrap hpos
        (le_of_not_gt (of_decide_eq_false hstay')) (of_decide_eq_true hexit))
  | ult => cases haccepted
  | ule => cases haccepted
  | slt => cases haccepted
  | sle => cases haccepted

end Rounding

/-! ## The trip count -/

omit [DecidableEq V] [DecidableEq B] in
theorem ivAt_firstCompared (attribution : LoopGoverningInductionVariable V B w) (form : LoopForm)
    (start : BitVec w) (k : Nat) : ivAt attribution (form.firstCompared attribution start) k =
      start + BitVec.ofNat w (k + form.lead) * attribution.stepValue := by
  rw [ivAt, LoopForm.firstCompared, BitVec.ofNat_add]
  ring

/-- **Trip count**: for a loop that ends without its induction variable wrapping around, the emitted
code computes how often the body is executed exactly under `TripCountFits`. -/
theorem generateCodeToComputeTheTripCount_iff (attribution : LoopGoverningInductionVariable V B w)
    (form : LoopForm) (start bound : BitVec w) (hstep : attribution.stepValue ≠ 0)
    {u : LoopGoverningIVUtility} (hu : LoopGoverningIVUtility.new attribution = some u) {N : Nat}
    (hN : form.LeavesAt attribution start bound N)
    (hwrap : NoWrap attribution.exitPredicate start attribution.stepValue (N + form.lead)) :
    (LoopGoverningIVUtility.generateCodeToComputeTheTripCount attribution start bound).toNat =
        N + form.extra ↔ TripCountFits attribution form start bound := by
  have hs : 0 < attribution.stepValue.toNat :=
    Nat.pos_of_ne_zero fun hzero => hstep (BitVec.eq_of_toNat_eq (by simp [hzero]))
  obtain ⟨hexit, hstay⟩ := hN
  unfold TripCountFits LoopGoverningIVUtility.generateCodeToComputeTheTripCount
  rw [BitVec.toNat_udiv]
  cases N with
  | zero =>
      rw [if_pos hexit, Nat.zero_add, Nat.div_eq_iff hs, Nat.succ_mul]
      omega
  | succ n =>
      rw [if_neg (by rw [hstay 0 (Nat.succ_pos n)]; exact Bool.false_ne_true)]
      cases hpos : attribution.isStepValuePositive with
      | true =>
          have hdelta : LoopGoverningIVUtility.tripCountDelta attribution start bound =
              bound - start := if_pos hpos
          obtain ⟨⟨nonStrict, strict⟩, hfor, -⟩ := Option.map_eq_some_iff.mp hu
          have haccepted : (LoopGoverningIVUtility.predicatesFor attribution.exitPredicate
              true).isSome = true := by
            rw [hpos] at hfor
            rw [hfor]
            rfl
          have hindex : n + 1 + form.lead = n + form.lead + 1 := by omega
          rw [if_pos rfl, hdelta]
          refine roundingFits_iff form.extra (of_decide_eq_true hpos) haccepted (hindex ▸ hwrap)
            ?_ fun k hk => ?_
          · rw [← hindex, ← ivAt_firstCompared, ← originalExit_eq]
            exact hexit
          · rw [← ivAt_firstCompared, ← originalExit_eq]
            exact hstay k (by omega)
      | false =>
          -- the divisor is at least half of the range, so the quotient is at most one
          have hdelta := (LoopGoverningIVUtility.tripCountDelta attribution start bound).isLt
          have htwo := two_mul_toNat_of_not_pos hstep (of_decide_eq_false hpos)
          rw [if_neg Bool.false_ne_true]
          constructor
          · intro heq
            rw [Nat.div_eq_iff hs] at heq
            have hone : n = 0 ∧ form.extra = 0 := by
              by_contra hnot
              have hmul := Nat.mul_le_mul_right attribution.stepValue.toNat
                (show 2 ≤ n + 1 + form.extra by omega)
              omega
            obtain ⟨rfl, hextra⟩ := hone
            rw [hextra] at heq
            exact ⟨hextra, by omega, hexit⟩
          · rintro ⟨hextra, hle, hsecond⟩
            have hn : n = 0 := by
              by_contra hne
              have hfalse := hstay 1 (by omega)
              rw [hsecond] at hfalse
              cases hfalse
            rw [hn, hextra]
            exact Nat.div_eq_of_lt_le (by omega) (by omega)

/-- A while loop that compares its PHI. -/
def whileForm : LoopForm := ⟨false, false⟩

theorem countByTwo_leavesAt : whileForm.LeavesAt countByTwo 1 5 2 := by
  unfold LoopForm.LeavesAt FirstAt
  decide

theorem generateCodeToComputeTheTripCount_countByTwo : whileForm.LeavesAt countByTwo 1 5 2 ∧
    ((LoopGoverningIVUtility.generateCodeToComputeTheTripCount countByTwo 1 5).toNat =
      2 + whileForm.extra ↔ TripCountFits countByTwo whileForm 1 5) :=
  ⟨countByTwo_leavesAt, generateCodeToComputeTheTripCount_iff countByTwo whileForm 1 5 (by decide)
    rfl countByTwo_leavesAt (.inl (by unfold NoWrapIn; decide))⟩

/-- A loop that counts down to its bound. -/
def countDown : LoopGoverningInductionVariable Nat Nat 8 where
  headerCmp := ⟨.sle, 30, 31⟩
  headerBr := ⟨20, 21⟩
  exitBlock := 20
  valueToCompare := 30
  stepValue := -1
  operands_ne := by decide
  valueToCompare_mem := by decide
  successors_ne := by decide
  exitBlock_mem := by decide

/-- With 0, 2 and 4 the body is entered three times, and the code computes two.  Down from 3 to 0
it is entered three times as well, and the code computes zero. -/
theorem tripCount_wrong :
    (whileForm.LeavesAt whileAtLeast 0 5 3 ∧ NoWrap whileAtLeast.exitPredicate (0 : BitVec 8) 2 3 ∧
      (LoopGoverningIVUtility.generateCodeToComputeTheTripCount whileAtLeast 0 5).toNat = 2) ∧
    whileForm.LeavesAt countDown 3 0 3 ∧ NoWrap countDown.exitPredicate (3 : BitVec 8) (-1) 3 ∧
      (LoopGoverningIVUtility.generateCodeToComputeTheTripCount countDown 3 0).toNat = 0 := by
  refine ⟨⟨?_, ?_, by decide⟩, ?_, ?_, by decide⟩
  · unfold LoopForm.LeavesAt FirstAt
    decide
  · change NoWrapIn BitVec.toInt 0 2 3
    unfold NoWrapIn
    decide
  · unfold LoopForm.LeavesAt FirstAt
    decide
  · change NoWrapIn BitVec.toInt 3 (-1) 3
    unfold NoWrapIn
    decide

end Noelle
