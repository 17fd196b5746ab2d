import Noelle.LoopCarriedVariable.Iterations

/-!
# LoopCarriedVariable.Identities

The constant that a partial result starts from and the operator that partial results are combined
with, as `AccumulatorOpInfo` chooses them from the opcode of an accumulator.

The operator differs from the opcode for `sub` only, whose partial results are added.  The constant
is an identity of the operator for every opcode but `and`, where it is the identity of one bit.
-/

namespace Noelle

open Option

namespace AccumulatorOpInfo

variable {w : Nat}

/-- The constant is a two-sided identity of the operator, and a partial result that the opcode
computes from it combines with a value to what the opcode computes from the value. -/
def CombinesPartialResults (op : Opcode) (w : Nat) : Prop :=
  ∃ accumulate combine : BitVec w → BitVec w → BitVec w, op.integerOp = some accumulate ∧
    (∃ accumOp, accumOpForType op (.integerTy w) = some accumOp ∧
      accumOp.integerOp = some combine) ∧
    (∀ x, combine x (generateIdentityFor op w) = x ∧ combine (generateIdentityFor op w) x = x) ∧
    ∀ (x : BitVec w) (ys : List (BitVec w)),
      combine x (ys.foldl accumulate (generateIdentityFor op w)) = ys.foldl accumulate x ∧
      combine (ys.foldl accumulate (generateIdentityFor op w)) x = ys.foldl accumulate x

theorem combinesPartialResults_of_isReductionOperator (form : BitVec w → BitVec w)
    {op accumOp : Opcode} {accumulate combine : BitVec w → BitVec w → BitVec w}
    (hop : op.integerOp = some accumulate) (haccum : integerReducingOperators op = some accumOp)
    (hcombine : accumOp.integerOp = some combine)
    (hform : ∀ x y, accumulate x y = combine x (form y))
    (hlaws : IsReductionOperator combine (generateIdentityFor op w)) :
    CombinesPartialResults op w := by
  refine ⟨accumulate, combine, hop, ⟨accumOp, haccum, hcombine⟩,
    fun x => ⟨hlaws.identity_right x, hlaws.identity x⟩, fun x ys => ?_⟩
  obtain rfl : accumulate = fun x y => combine x (form y) := funext fun x => funext (hform x)
  have hright := hlaws.foldl_partial_map form x ys
  exact ⟨hright, (hlaws.comm _ _).trans hright⟩

theorem isReductionOperator_of_le {op : Opcode} (hop : op.isReduction = true)
    (hand : op = .and → w ≤ 1) :
    IsReductionOperator (op.combine (w := w)) (generateIdentityFor op w) := by
  cases w with
  | zero => exact ⟨fun _ _ _ => Subsingleton.elim .., fun _ _ => Subsingleton.elim ..,
      fun _ => Subsingleton.elim ..⟩
  | succ n => exact isReductionOperator_combine hop fun h => Nat.le_antisymm (hand h) (by omega)

theorem width_le_one (h : ∀ x : BitVec w, x &&& generateIdentityFor .and w = x) : w ≤ 1 := by
  by_contra hw
  have hbit := congrArg (fun x => x.getLsbD 1) (h (BitVec.allOnes w))
  have hone : (generateIdentityFor .and w).getLsbD 1 = false := by
    rw [generateIdentityFor, opIdentities, BitVec.getLsbD_ofNat]
    exact Bool.and_false _
  have hlost : 1 < w → False := by simpa [hone] using hbit
  exact hlost (by omega)

/-- **Reduction identities**: the constant and the operator fit the opcode at every width, unless
the opcode is `and` on more than one bit. -/
theorem combinesPartialResults_iff (op : Opcode) (w : Nat)
    (hop : (op.integerOp (w := w)).isSome = true) :
    CombinesPartialResults op w ↔ (op = .and → w ≤ 1) := by
  constructor
  · rintro ⟨accumulate, combine, -, ⟨accumOp, haccum, hcombine⟩, hidentity, -⟩ rfl
    obtain rfl : Opcode.and = accumOp := some.inj haccum
    obtain rfl : (· &&& ·) = combine := some.inj hcombine
    exact width_le_one fun x => (hidentity x).1
  · intro hand
    cases op with
    | sub =>
        -- a difference is the sum with the negated operand
        have hadd : Opcode.add.isReduction = true := rfl
        exact combinesPartialResults_of_isReductionOperator (fun y => -y) rfl rfl rfl
          (fun x y => BitVec.sub_eq_add_neg x y)
          (isReductionOperator_of_le hadd fun h => Opcode.noConfusion h)
    | add | mul | and | or | xor =>
        exact combinesPartialResults_of_isReductionOperator id rfl rfl rfl
          (fun _ _ => rfl) (isReductionOperator_of_le rfl hand)
    | _ => nomatch hop

theorem combinesPartialResults_sub_64 :
    CombinesPartialResults .sub 64 ↔ (Opcode.sub = .and → 64 ≤ 1) :=
  combinesPartialResults_iff .sub 64 rfl

/-- The conjunction of 32-bit values started from 1 keeps only the lowest bit. -/
theorem not_combinesPartialResults_and_32 :
    ¬ ∀ (op : Opcode) (w : Nat), (op.integerOp (w := w)).isSome = true →
      CombinesPartialResults op w := by
  intro hall
  obtain ⟨accumulate, combine, -, ⟨accumOp, haccum, hcombine⟩, hidentity, -⟩ := hall .and 32 rfl
  obtain rfl : Opcode.and = accumOp := some.inj haccum
  obtain rfl : (· &&& ·) = combine := some.inj hcombine
  have htwo : (2 : BitVec 32) &&& generateIdentityFor .and 32 = 2 := (hidentity 2).1
  exact absurd htwo (by decide)

end AccumulatorOpInfo

end Noelle
