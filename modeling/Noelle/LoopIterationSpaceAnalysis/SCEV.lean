import Noelle.Lib.ICmp
import Noelle.SCCDAGAttrs.Periodic

/-!
# LoopIterationSpaceAnalysis.SCEV

Scalar evolutions: the expressions that `ScalarEvolution::getSCEV` returns, and their values.

A `SCEV` is well typed: its index is the width of its value.  Equal expressions are one object, so
that a comparison of pointers is one of the expressions.  The value depends on the numbers of the
current iterations of the loops and on the values of the expressions that are not analysed.

`AgreeUpToCasts`: two expressions have the same value in all iterations, as far as the narrower of
them tells.  `SCEV.intValue` reads an expression over the integers: nothing wraps around, and a cast
keeps the value.
-/

namespace Noelle

open Function

/-- The operators of `SCEVNAryExpr` and `SCEVUDivExpr`.  A sum or product of more operands is one of
the first and the sum or product of the others. -/
inductive SCEVOperator where
  | add | mul | udiv | smax | umax | smin | umin
  deriving DecidableEq

/-- `SCEV`, with the width of the value.  A loop is known by its header; a cast that is neither a
truncation nor an extension is one of a pointer. -/
inductive SCEV (V B : Type) : Nat → Type where
  | constant {w : Nat} (value : BitVec w) : SCEV V B w
  | unknown {w : Nat} (value : V) : SCEV V B w
  | castExpr {w' w : Nat} (op : CastOpcode) (operand : SCEV V B w') : SCEV V B w
  | operator {w : Nat} (op : SCEVOperator) (lhs rhs : SCEV V B w) : SCEV V B w
  | addRecExpr {w : Nat} (header : B) (start stepRecurrence : SCEV V B w) : SCEV V B w
  deriving DecidableEq

/-- An expression of any width. -/
abbrev AnySCEV (V B : Type) := (w : Nat) × SCEV V B w

def SCEVOperator.apply {w : Nat} : SCEVOperator → BitVec w → BitVec w → BitVec w
  | add, x, y => x + y
  | mul, x, y => x * y
  | udiv, x, y => x / y
  | smax, x, y => if x.slt y then y else x
  | umax, x, y => if x.ult y then y else x
  | smin, x, y => if x.slt y then x else y
  | umin, x, y => if x.ult y then x else y

/-- The operators on integers. -/
def SCEVOperator.applyInt : SCEVOperator → Int → Int → Int
  | add, x, y => x + y
  | mul, x, y => x * y
  | udiv, x, y => x / y
  | smax, x, y => max x y
  | umax, x, y => if ICmpPredicate.unsignedLt x y then y else x
  | smin, x, y => min x y
  | umin, x, y => if ICmpPredicate.unsignedLt x y then x else y

/-- What the values depend on: the number of the current iteration of each loop, and the values that
are not analysed. -/
structure SCEVEnv (V B : Type) where
  iteration : B → Nat
  unknown : V → Int

namespace SCEV

variable {V B : Type}

section Value

variable [DecidableEq B] (unknown : V → Int)

/-- The value of an expression. -/
def valueAt {w : Nat} : SCEV V B w → (B → Nat) → BitVec w
  | .constant c, _ => c
  | .unknown v, _ => BitVec.ofInt w (unknown v)
  | .castExpr .sext e, k => (e.valueAt k).signExtend w
  | .castExpr _ e, k => (e.valueAt k).setWidth w
  | .operator op lhs rhs, k => op.apply (lhs.valueAt k) (rhs.valueAt k)
  | .addRecExpr header start stepRecurrence, k =>
      -- the value at the entry of the loop and the steps of the earlier iterations
      (List.range (k header)).foldl
        (fun sum j => sum + stepRecurrence.valueAt (update k header j))
        (start.valueAt (update k header 0))

/-- The value of an expression in the current iterations. -/
def eval {w : Nat} (e : SCEV V B w) (env : SCEVEnv V B) : BitVec w :=
  e.valueAt env.unknown env.iteration

/-- The value of an expression as an integer. -/
def intValueAt {w : Nat} : SCEV V B w → (B → Nat) → Int
  | .constant c, _ => c.toInt
  | .unknown v, _ => unknown v
  | .castExpr _ e, k => e.intValueAt k
  | .operator op lhs rhs, k => op.applyInt (lhs.intValueAt k) (rhs.intValueAt k)
  | .addRecExpr header start stepRecurrence, k =>
      (List.range (k header)).foldl
        (fun sum j => sum + stepRecurrence.intValueAt (update k header j))
        (start.intValueAt (update k header 0))

def intValue {w : Nat} (e : SCEV V B w) (env : SCEVEnv V B) : Int :=
  e.intValueAt env.unknown env.iteration

end Value

/-! ## Shapes -/

section Shapes

variable {w : Nat}

/-- `isa<SCEVConstant>`. -/
def isConstant : SCEV V B w → Bool
  | .constant _ => true
  | _ => false

/-- `isa<SCEVAddRecExpr>`. -/
def isAddRecExpr : SCEV V B w → Bool
  | .addRecExpr _ _ _ => true
  | _ => false

/-- `dyn_cast<SCEVConstant>`. -/
def asConstant : SCEV V B w → Option ConstantInt
  | .constant c => some ⟨w, c⟩
  | _ => none

end Shapes

/-- `scevsMatch`: one expression, or constants with the same value.  The outer `none` is the failed
assertion that the value fits into 64 bits. -/
def scevsMatch [DecidableEq V] [DecidableEq B] {w w' : Nat} (scev1 : SCEV V B w)
    (scev2 : SCEV V B w') : Option Bool :=
  if (⟨w, scev1⟩ : AnySCEV V B) = ⟨w', scev2⟩ then some true
  else
    match scev1.asConstant, scev2.asConstant with
    | some scevConstant1, some scevConstant2 => do
        let value1 ← scevConstant1.getSExtValue
        let value2 ← scevConstant2.getSExtValue
        return decide (value1 = value2)
    | _, _ => some false

theorem toInt_getSExtValue {c : ConstantInt} {value : BitVec 64} (h : c.getSExtValue = some value) :
    value.toInt = c.value.toInt := by
  unfold ConstantInt.getSExtValue at h
  split_ifs at h with hfits
  cases h
  exact BitVec.toInt_ofInt_eq_self (by decide) hfits.1 hfits.2

/-! ## Agreement -/

variable [DecidableEq B] {w w' : Nat}

/-- In every iteration of every loop the expressions have the same value, up to a cast to the width
of the other. -/
def AgreeUpToCasts (e : SCEV V B w) (e' : SCEV V B w') : Prop :=
  ∀ env : SCEVEnv V B,
    (e.eval env).setWidth (min w w') = (e'.eval env).setWidth (min w w')

theorem AgreeUpToCasts.refl (e : SCEV V B w) : AgreeUpToCasts e e := fun _ => rfl

theorem AgreeUpToCasts.symm {e : SCEV V B w} {e' : SCEV V B w'} (h : AgreeUpToCasts e e') :
    AgreeUpToCasts e' e := by
  intro env
  rw [Nat.min_comm w' w]
  exact (h env).symm

theorem agreeUpToCasts_constant {c : BitVec w} {c' : BitVec w'} (h : c.toInt = c'.toInt) :
    AgreeUpToCasts (.constant c : SCEV V B w) (.constant c' : SCEV V B w') := by
  intro env
  have hc : c.setWidth (min w w') = BitVec.ofInt (min w w') c.toInt :=
    (BitVec.signExtend_eq_setWidth_of_le c (Nat.min_le_left w w')).symm
  have hc' : c'.setWidth (min w w') = BitVec.ofInt (min w w') c'.toInt :=
    (BitVec.signExtend_eq_setWidth_of_le c' (Nat.min_le_right w w')).symm
  exact hc.trans ((congrArg _ h).trans hc'.symm)

theorem AgreeUpToCasts.addRecExpr {header : B} {start step : SCEV V B w} {start' step' : SCEV V B w'}
    (hstart : AgreeUpToCasts start start') (hstep : AgreeUpToCasts step step') :
    AgreeUpToCasts (.addRecExpr header start step) (.addRecExpr header start' step') := by
  intro env
  -- the sums agree after every iteration
  have hsum : ∀ (l : List Nat) (x : BitVec w) (x' : BitVec w'),
      x.setWidth (min w w') = x'.setWidth (min w w') →
        (l.foldl (fun sum j => sum + step.valueAt env.unknown
          (update env.iteration header j)) x).setWidth (min w w') =
        (l.foldl (fun sum j => sum + step'.valueAt env.unknown
          (update env.iteration header j)) x').setWidth (min w w') := by
    intro l
    induction l with
    | nil => exact fun x x' hx => hx
    | cons j l ih =>
        intro x x' hx
        refine ih _ _ ?_
        rw [BitVec.setWidth_add _ _ (Nat.min_le_left w w'),
          BitVec.setWidth_add _ _ (Nat.min_le_right w w'), hx]
        exact congrArg _ (hstep ⟨update env.iteration header j, env.unknown⟩)
  exact hsum _ _ _ (hstart ⟨update env.iteration header 0, env.unknown⟩)

variable [DecidableEq V]
variable {e : SCEV V B w} {e' : SCEV V B w'}

theorem scevsMatch_cases (h : scevsMatch e e' = some true) :
    (⟨w, e⟩ : AnySCEV V B) = ⟨w', e'⟩ ∨
      ∃ c c', e = .constant c ∧ e' = .constant c' ∧ c.toInt = c'.toInt := by
  unfold scevsMatch at h
  split_ifs at h with heq
  · exact .inl heq
  · cases e with
    | constant c =>
        cases e' with
        | constant c' =>
            obtain ⟨value1, hvalue1, h⟩ := Option.bind_eq_some_iff.mp h
            obtain ⟨value2, hvalue2, h⟩ := Option.bind_eq_some_iff.mp h
            have heq : value1 = value2 := of_decide_eq_true (Option.some.inj h)
            refine .inr ⟨c, c', rfl, rfl, ?_⟩
            rw [← toInt_getSExtValue hvalue1, ← toInt_getSExtValue hvalue2, heq]
        | _ => nomatch h
    | _ => nomatch h

theorem agreeUpToCasts_of_scevsMatch (h : scevsMatch e e' = some true) : AgreeUpToCasts e e' := by
  rcases scevsMatch_cases h with heq | ⟨c, c', rfl, rfl, heq⟩
  · obtain ⟨rfl, heq⟩ := Sigma.mk.inj_iff.mp heq
    rw [eq_of_heq heq]
    exact .refl e'
  · exact agreeUpToCasts_constant heq

/-! ## The integers -/

theorem intValue_of_scevsMatch (h : scevsMatch e e' = some true)
    (env : SCEVEnv V B) : e.intValue env = e'.intValue env := by
  rcases scevsMatch_cases h with heq | ⟨c, c', rfl, rfl, heq⟩
  · obtain ⟨rfl, heq⟩ := Sigma.mk.inj_iff.mp heq
    rw [eq_of_heq heq]
  · exact heq

end SCEV

end Noelle
