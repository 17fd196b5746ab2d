import Mathlib.Data.BitVec
import Mathlib.Tactic.Ring
import Noelle.LoopCarriedVariable.Iterations

/-!
# SCCDAGAttrs.Periodic

`SCCDAGAttrs::checkIfPeriodic` and the closed form that it reports.

The loop-carried dependences of a component are those that start or end in it, so the PHI node
whose initial value is reported need not be the one of the component.  The step of a negation is
computed in 64 bits, and its sign is chosen by the sign of the initial value, although the
difference between the two values of the variable does not depend on it.
-/

namespace Noelle

open Option

structure ConstantInt where
  width : Nat
  value : BitVec width
  deriving DecidableEq

namespace ConstantInt

def isZero (c : ConstantInt) : Bool := decide (c.value = BitVec.ofNat c.width 0)

def isOne (c : ConstantInt) : Bool := decide (c.value = BitVec.ofNat c.width 1)

def isNegative (c : ConstantInt) : Bool := c.value.msb

/-- The value is one of `int64_t`. -/
def FitsInt64 (c : ConstantInt) : Prop := -2 ^ 63 ≤ c.value.toInt ∧ c.value.toInt < 2 ^ 63

instance (c : ConstantInt) : Decidable c.FitsInt64 := inferInstanceAs (Decidable (_ ∧ _))

/-- `getSExtValue`, which asserts that the value fits. -/
def getSExtValue (c : ConstantInt) : Option (BitVec 64) :=
  if c.FitsInt64 then some (BitVec.ofInt 64 c.value.toInt) else none

/-- A constant of `Int64Ty`. -/
def int64 (n : BitVec 64) : ConstantInt := ⟨64, n⟩

/-- A constant read at another width: it is a signed number. -/
def atWidth (c : ConstantInt) (w : Nat) : BitVec w := c.value.signExtend w

end ConstantInt

/-- A well-typed function, with the constants among its values. -/
structure PeriodicFunction (V B : Type) extends EvolutionFunction V B where
  constantInt : V → Option ConstantInt
  constant_kind : ∀ v c, constantInt v = some c → kind v = .noInstruction
  constant_type : ∀ v c, constantInt v = some c → type v = .integerTy c.width
  phi_type : ∀ v incoming, kind v = .phiNode incoming → ∀ p ∈ incoming, type p.2 = type v
  operator_type : ∀ v op a b, kind v = .binaryOperator op a b → type a = type v ∧ type b = type v

/-- The members of `PeriodicVariableSCC`. -/
structure PeriodicVariableSCC (V : Type) where
  initialValue : V
  period : ConstantInt
  step : ConstantInt
  deriving DecidableEq

namespace SCCDAGAttrs

variable {V B : Type} [DecidableEq V] (ord : IterOrder) (fn : PeriodicFunction V B)

/-- The step of a negation: `2 * c * getSExtValue()`, where the product wraps. -/
def negationStep (initialConstantInt : ConstantInt) : Option ConstantInt :=
  let c : Int := if initialConstantInt.isNegative then 1 else -1
  initialConstantInt.getSExtValue.map fun value =>
    .int64 (BitVec.ofInt 64 (2 * c) * value)

/-- The `switch` over the opcode.  The outer `none` is a failed assertion. -/
def checkFromInst (fromInst initialValue : V) : Option (Option (PeriodicVariableSCC V)) :=
  let period := ConstantInt.int64 2
  match fn.kind fromInst with
  | .noInstruction => none
  | .binaryOperator .xor _ fromOperand =>
      match fn.constantInt fromOperand, fn.constantInt initialValue with
      | some fromConstantInt, some initialConstantInt =>
          if initialConstantInt.isZero && fromConstantInt.isOne then
            some (some ⟨initialValue, period, fromConstantInt⟩)
          else some none
      | _, _ => some none
  | .binaryOperator .sub fromOperand _ =>
      match fn.constantInt fromOperand, fn.constantInt initialValue with
      | some fromConstantInt, some initialConstantInt =>
          if fromConstantInt.isZero then
            (negationStep initialConstantInt).map fun step => some ⟨initialValue, period, step⟩
          else some none
      | _, _ => some none
  | _ => some none

/-- The body of the loop for a loop-carried data dependence, which always returns. -/
def checkDependence (edge : DGEdge V) : Option (Option (PeriodicVariableSCC V)) :=
  match fn.kind edge.getDst with
  | .phiNode [(_, value0), (_, value1)] =>
      checkFromInst fn edge.getSrc (if value0 = edge.getSrc then value1 else value0)
  | _ => some none

def checkIfPeriodic (isLoopCarriedDependence : DGEdge V → Bool)
    (sccToLoopCarriedDependencies : Option (PtrSet (DGEdge V))) (scc : SCC V) :
    Option (Option (PeriodicVariableSCC V)) :=
  match sccToLoopCarriedDependencies with
  | none => some none
  | some edges =>
      if scc.numInternalNodes ≠ 2 then some none
      else
        match (ord.visit edges.elems).find? fun edge =>
            isLoopCarriedDependence edge && decide (edge.kind ≠ .controlDependence) with
        | none => some none
        | some edge => checkDependence fn edge

/-! ## Components of two instructions -/

/-- A header PHI node and the instruction that updates it, an `xor` or a `sub` with a constant. -/
structure IsTwoInstructionSCC (scc : SCC V) (phi fromInst initialValue : V) (w : Nat) : Prop where
  internal : ∀ v, scc.isInternal v = true ↔ v = phi ∨ v = fromInst
  type : fn.type phi = .integerTy w
  incoming : ∃ preHeader latch,
    fn.kind phi = .phiNode [(preHeader, initialValue), (latch, fromInst)] ∨
      fn.kind phi = .phiNode [(latch, fromInst), (preHeader, initialValue)]
  /-- The initial value comes from outside. -/
  external : scc.isInternal initialValue = false
  update : ∃ op c, (op = .xor ∨ op = .sub) ∧ (fn.constantInt c).isSome = true ∧
    (fn.kind fromInst = .binaryOperator op phi c ∨ fn.kind fromInst = .binaryOperator op c phi)

/-- The dependences that `collectLoopCarriedDependencies` records for a component: they start or
end in it, and a PHI node depends on its incoming values. -/
structure AreDependencesOf (scc : SCC V) (edges : PtrSet (DGEdge V)) : Prop where
  touches : ∀ e ∈ edges, scc.isInternal e.getSrc = true ∨ scc.isInternal e.getDst = true
  defUse : ∀ e ∈ edges, e.kind ≠ .controlDependence → ∀ incoming,
    fn.kind e.getDst = .phiNode incoming → e.getSrc ∈ incoming.map Prod.snd

variable (isLoopCarriedDependence : DGEdge V → Bool) in
/-- The first loop-carried data dependence, in the order of the iteration. -/
def firstDependence (edges : PtrSet (DGEdge V)) : Option (DGEdge V) :=
  (ord.visit edges.elems).find? fun edge =>
    isLoopCarriedDependence edge && decide (edge.kind ≠ .controlDependence)

/-- What comes into the PHI node at the end of the dependence besides the start of it. -/
def otherIncomingValue (edge : DGEdge V) : Option V :=
  match fn.kind edge.getDst with
  | .phiNode [(_, value0), (_, value1)] => some (if value0 = edge.getSrc then value1 else value0)
  | _ => none

/-- Values of integer type, with the constants among them. -/
def ReadsConstants {w : Nat} (ρ : V → BitVec w) : Prop :=
  ∀ v c, fn.constantInt v = some c → c.width = w → ρ v = c.atWidth w

/-- The value of the update when the PHI node has the value `n`. -/
def updateValue {w : Nat} (phi fromInst : V) (ρ : V → BitVec w) (n : BitVec w) : BitVec w :=
  match fn.kind fromInst with
  | .binaryOperator op a b =>
      match op.integerOp with
      | some f => f (Function.update ρ phi n a) (Function.update ρ phi n b)
      | none => n
  | _ => n

/-- The value of the PHI node in an iteration: the initial value, and then what the update has
made of the value before. -/
def phiValue {w : Nat} (phi fromInst initialValue : V) (ρ : V → BitVec w) : Nat → BitVec w
  | 0 => ρ initialValue
  | i + 1 => updateValue fn phi fromInst ρ (phiValue phi fromInst initialValue ρ i)

/-! ## The step of a negation -/

theorem ofInt_eq_zero_iff {w : Nat} {n : Int} :
    BitVec.ofInt w n = 0 ↔ ((2 ^ w : Nat) : Int) ∣ n := by
  rw [Int.dvd_iff_bmod_eq_zero, ← BitVec.toInt_ofInt]
  exact ⟨fun h => by rw [h]; simp, fun h => BitVec.eq_of_toInt_eq (by rw [h]; simp)⟩

/-- The difference between a value and its negation is `-2` times the value; a constant that is
computed in 64 bits is this difference only for some values. -/
theorem dvd_sum_bmod_iff {w : Nat} {z c : Int} (hz : -2 ^ 63 ≤ z ∧ z < 2 ^ 63)
    (hc : c = if z < 0 then 1 else -1) :
    ((2 ^ w : Nat) : Int) ∣ z + (z + (2 * c * z).bmod (2 ^ 64)) ↔
      (0 ≤ z ∧ (w ≤ 64 ∨ z ≤ 2 ^ 62)) ∨ (z < 0 ∧ w ≤ 64 ∧ ((2 ^ w : Nat) : Int) ∣ 4 * z) := by
  by_cases hw : w ≤ 64
  · -- in at most 64 bits the product does not lose anything
    have hpow : ((2 ^ w : Nat) : Int) ∣ ((2 ^ 64 : Nat) : Int) :=
      Int.natCast_dvd_natCast.mpr (Nat.pow_dvd_pow 2 hw)
    have hwrap : ((2 ^ w : Nat) : Int) ∣ (2 * c * z).bmod (2 ^ 64) - 2 * c * z :=
      hpow.trans Int.dvd_bmod_sub_self
    have hsum : z + (z + (2 * c * z).bmod (2 ^ 64)) =
        (2 * z + 2 * c * z) + ((2 * c * z).bmod (2 ^ 64) - 2 * c * z) := by ring
    rw [hsum, Int.dvd_add_left hwrap]
    by_cases hneg : z < 0
    · rw [if_pos hneg] at hc
      subst hc
      rw [show 2 * z + 2 * 1 * z = 4 * z by ring]
      constructor
      · exact fun h => .inr ⟨hneg, hw, h⟩
      · rintro (⟨h, -⟩ | ⟨-, -, h⟩)
        · exact absurd hneg (not_lt.mpr h)
        · exact h
    · rw [if_neg hneg] at hc
      subst hc
      rw [show 2 * z + 2 * -1 * z = 0 by ring]
      exact ⟨fun _ => .inl ⟨not_lt.mp hneg, .inl hw⟩, fun _ => Int.dvd_zero _⟩
  · -- in more bits the sum is too small to be a multiple other than zero
    have hpow : 2 ^ 65 ≤ 2 ^ w := Nat.pow_le_pow_right (by decide) (by omega)
    have hdef := Int.bmod_def (2 * c * z) (2 ^ 64)
    have hzero : ((2 ^ w : Nat) : Int) ∣ z + (z + (2 * c * z).bmod (2 ^ 64)) ↔
        z + (z + (2 * c * z).bmod (2 ^ 64)) = 0 := by
      refine ⟨fun h => Int.eq_zero_of_dvd_of_natAbs_lt_natAbs h ?_, fun h => h ▸ Int.dvd_zero _⟩
      rw [Int.natAbs_natCast]
      refine lt_of_lt_of_le ?_ hpow
      omega
    rw [hzero]
    by_cases hneg : z < 0
    · rw [if_pos hneg] at hc
      subst hc
      omega
    · rw [if_neg hneg] at hc
      subst hc
      omega

/-- The values whose negation the step leads to: the negative ones are those that have the
negation `3` times themselves. -/
def StepFits {w : Nat} (v : BitVec w) : Prop :=
  (0 ≤ v.toInt ∧ (w ≤ 64 ∨ v.toInt ≤ 2 ^ 62)) ∨ (v.toInt < 0 ∧ w ≤ 64 ∧ 4 * v = 0)

/-- The step leads from a value to its negation exactly if the value is of those. -/
theorem negationStep_iff {c step : ConstantInt} (h : negationStep c = some step) :
    -c.value = c.value + step.atWidth c.width ↔ StepFits c.value := by
  obtain ⟨value, hvalue, rfl⟩ := map_eq_some_iff.mp h
  unfold ConstantInt.getSExtValue at hvalue
  by_cases hfits : c.FitsInt64
  swap
  · exact absurd ((if_neg hfits).symm.trans hvalue) nofun
  obtain rfl := mem_unique (if_pos hfits) hvalue
  obtain ⟨w, v⟩ := c
  have hsign : (if (ConstantInt.mk w v).isNegative then (1 : Int) else -1) =
      if v.toInt < 0 then 1 else -1 := by
    simp [ConstantInt.isNegative, BitVec.msb_eq_toInt]
  have hstep : ConstantInt.atWidth (.int64 (BitVec.ofInt 64 (2 * if (ConstantInt.mk w v).isNegative
      then (1 : Int) else -1) * BitVec.ofInt 64 v.toInt)) w =
      BitVec.ofInt w ((2 * (if v.toInt < 0 then 1 else -1) * v.toInt).bmod (2 ^ 64)) := by
    rw [hsign, ← BitVec.ofInt_mul, ← BitVec.toInt_ofInt]
    rfl
  have hfour : 4 * v = 0 ↔ ((2 ^ w : Nat) : Int) ∣ 4 * v.toInt := by
    rw [← ofInt_eq_zero_iff, BitVec.ofInt_mul, BitVec.ofInt_toInt]
    rfl
  unfold StepFits
  dsimp only
  rw [hstep, neg_eq_iff_add_eq_zero, hfour, ← dvd_sum_bmod_iff hfits rfl, ← ofInt_eq_zero_iff, BitVec.ofInt_add, BitVec.ofInt_add,
    BitVec.ofInt_toInt]

/-! ## The closed form -/

theorem iterate_involutive_iff {w : Nat} {f : BitVec w → BitVec w} (hf : Function.Involutive f)
    (a v s : BitVec w) :
    (∀ i, f^[i] a = v + s * BitVec.ofNat w (i % 2)) ↔ a = v ∧ f a = v + s := by
  constructor
  · intro h
    have h0 : a = v + s * BitVec.ofNat w 0 := h 0
    have h1 : f a = v + s * BitVec.ofNat w 1 := h 1
    exact ⟨by simpa using h0, by simpa using h1⟩
  · rintro ⟨rfl, hstep⟩ i
    rcases Nat.even_or_odd i with hi | hi
    · rw [hf.iterate_even hi, Nat.even_iff.mp hi]
      simp
    · rw [hf.iterate_odd hi, Nat.odd_iff.mp hi, hstep]
      simp

variable {ord fn} {scc : SCC V} {phi fromInst initialValue : V} {w : Nat}
  {isLoopCarriedDependence : DGEdge V → Bool} {edges : PtrSet (DGEdge V)}
  {periodic : PeriodicVariableSCC V}

omit [DecidableEq V] in
/-- What an accepted update looks like. -/
theorem checkFromInst_eq_some (h : checkFromInst fn fromInst initialValue = some (some periodic)) :
    periodic.initialValue = initialValue ∧ periodic.period = .int64 2 ∧
      ∃ v, fn.constantInt initialValue = some v ∧
        ((∃ a b, fn.kind fromInst = .binaryOperator .xor a b ∧
            fn.constantInt b = some periodic.step ∧ v.isZero = true ∧ periodic.step.isOne = true) ∨
          ∃ a b zero, fn.kind fromInst = .binaryOperator .sub a b ∧ fn.constantInt a = some zero ∧
            zero.isZero = true ∧ negationStep v = some periodic.step) := by
  unfold checkFromInst at h
  split at h
  · exact absurd h nofun
  · rename_i a b hkind
    split at h
    · rename_i one v hone hv
      split at h
      · rename_i htest
        obtain rfl := some.inj (some.inj h)
        obtain ⟨hzero, hisOne⟩ := (Bool.and_eq_true _ _).mp htest
        exact ⟨rfl, rfl, v, hv, .inl ⟨a, b, hkind, hone, hzero, hisOne⟩⟩
      · exact absurd h nofun
    · exact absurd h nofun
  · rename_i a b hkind
    split at h
    · rename_i zero v hzero hv
      split at h
      · rename_i htest
        obtain ⟨step, hstep, heq⟩ := map_eq_some_iff.mp h
        cases heq
        exact ⟨rfl, rfl, v, hv, .inr ⟨a, b, zero, hkind, hzero, htest, hstep⟩⟩
      · exact absurd h nofun
    · exact absurd h nofun
  · exact absurd h nofun

section

variable (h : IsTwoInstructionSCC fn scc phi fromInst initialValue w)

include h

theorem IsTwoInstructionSCC.fromInst_type :
    fn.type fromInst = .integerTy w := by
  obtain ⟨preHeader, latch, hkind | hkind⟩ := h.incoming
  · exact (fn.phi_type phi _ hkind (latch, fromInst) (by simp)).trans h.type
  · exact (fn.phi_type phi _ hkind (latch, fromInst) (by simp)).trans h.type

theorem IsTwoInstructionSCC.not_constant :
    fn.constantInt phi = none ∧ fn.constantInt fromInst = none := by
  refine ⟨eq_none_iff_forall_ne_some.mpr fun c hc => ?_,
    eq_none_iff_forall_ne_some.mpr fun c hc => ?_⟩
  · obtain ⟨preHeader, latch, hkind | hkind⟩ := h.incoming <;>
      exact absurd ((fn.constant_kind phi c hc).symm.trans hkind) nofun
  · obtain ⟨op, c', -, -, hkind | hkind⟩ := h.update <;>
      exact absurd ((fn.constant_kind fromInst c hc).symm.trans hkind) nofun

/-- An accepted component is accepted for its first dependence, which is one of its update, with a
constant of its type as the initial value. -/
theorem IsTwoInstructionSCC.accepted
    (hedges : AreDependencesOf fn scc edges)
    (haccept : checkIfPeriodic ord fn isLoopCarriedDependence (some edges) scc =
      some (some periodic)) :
    checkFromInst fn fromInst periodic.initialValue = some (some periodic) ∧
      fn.type periodic.initialValue = .integerTy w ∧
      ∃ edge, firstDependence ord isLoopCarriedDependence edges = some edge ∧
        otherIncomingValue fn edge = some periodic.initialValue := by
  simp only [checkIfPeriodic] at haccept
  split at haccept
  · exact absurd haccept nofun
  split at haccept
  · exact absurd haccept nofun
  rename_i edge hfind
  have hedge : edge ∈ edges := PtrSet.mem_elems.mp (ord.mem_visit.mp (List.mem_of_find?_eq_some hfind))
  have hkind : edge.kind ≠ .controlDependence := by
    have htest := List.find?_some hfind
    exact of_decide_eq_true ((Bool.and_eq_true _ _).mp htest).2
  unfold checkDependence at haccept
  split at haccept
  swap
  · exact absurd haccept nofun
  rename_i block0 value0 block1 value1 hphi
  have hother : periodic.initialValue = if value0 = edge.getSrc then value1 else value0 :=
    (checkFromInst_eq_some haccept).1
  obtain ⟨v, hv, -⟩ := (checkFromInst_eq_some haccept).2.2
  have hoperand : edge.getSrc = value0 ∨ edge.getSrc = value1 := by
    simpa using hedges.defUse edge hedge hkind _ hphi
  have hsrc : edge.getSrc = fromInst := by
    rcases hedges.touches edge hedge with hin | hin
    · rcases (h.internal _).mp hin with heq | heq
      · -- the PHI node itself is no operator
        obtain ⟨-, -, _, -, ⟨a, b, hk, -⟩ | ⟨a, b, _, hk, -⟩⟩ := checkFromInst_eq_some haccept <;>
          rw [heq] at hk <;> obtain ⟨preHeader, latch, hk' | hk'⟩ := h.incoming <;>
          exact absurd (hk.symm.trans hk') nofun
      · exact heq
    · rcases (h.internal _).mp hin with heq | heq
      · by_contra hne
        -- the initial value comes in, so what is checked as the initial value is the update
        have hupdate : (if value0 = edge.getSrc then value1 else value0) = fromInst := by
          rw [heq] at hphi
          obtain ⟨preHeader, latch, hk | hk⟩ := h.incoming
          · have hlist := EvolutionKind.phiNode.inj (hphi.symm.trans hk)
            simp only [List.cons.injEq, Prod.mk.injEq, and_true] at hlist
            obtain ⟨⟨-, rfl⟩, -, rfl⟩ := hlist
            rw [if_pos (hoperand.resolve_right hne).symm]
          · have hlist := EvolutionKind.phiNode.inj (hphi.symm.trans hk)
            simp only [List.cons.injEq, Prod.mk.injEq, and_true] at hlist
            obtain ⟨⟨-, rfl⟩, -, rfl⟩ := hlist
            rw [if_neg fun heq => hne heq.symm]
        rw [hupdate, h.not_constant.2] at hv
        exact absurd hv nofun
      · obtain ⟨op, c, -, -, hk | hk⟩ := h.update <;>
          exact absurd ((heq ▸ hphi).symm.trans hk) nofun
  have hreported : otherIncomingValue fn edge = some periodic.initialValue := by
    unfold otherIncomingValue
    rw [hphi, hother]
  rw [← hother, hsrc] at haccept
  refine ⟨haccept, ?_, edge, hfind, hreported⟩
  -- all incoming values of a PHI node have one type
  have htype : ∀ v, v = value0 ∨ v = value1 → fn.type v = fn.type edge.getDst := by
    rintro v (rfl | rfl)
    · exact fn.phi_type _ _ hphi (block0, v) (by simp)
    · exact fn.phi_type _ _ hphi (block1, v) (by simp)
  have hinitial : periodic.initialValue = value0 ∨ periodic.initialValue = value1 := by
    rw [hother]
    split
    · exact .inr rfl
    · exact .inl rfl
  rw [htype _ hinitial, ← htype _ hoperand, hsrc, h.fromInst_type]

/-- The update adds a constant or negates. -/
theorem IsTwoInstructionSCC.updateValue_eq {ρ : V → BitVec w} (hρ : ReadsConstants fn ρ)
    {op : Opcode} {a b : V} (hkind : fn.kind fromInst = .binaryOperator op a b)
    {f : BitVec w → BitVec w → BitVec w} (hop : op.integerOp = some f) (n : BitVec w) :
    (∀ c, fn.constantInt b = some c →
      c.width = w ∧ updateValue fn phi fromInst ρ n = f n (c.atWidth w)) ∧
    ∀ c, fn.constantInt a = some c →
      c.width = w ∧ updateValue fn phi fromInst ρ n = f (c.atWidth w) n := by
  have hvalue : updateValue fn phi fromInst ρ n =
      f (Function.update ρ phi n a) (Function.update ρ phi n b) := by
    unfold updateValue
    rw [hkind]
    dsimp only
    rw [hop]
  have hconstant : ∀ v c, v = a ∨ v = b → fn.constantInt v = some c →
      c.width = w ∧ Function.update ρ phi n v = c.atWidth w := by
    intro v c hv hc
    have htype : fn.type v = .integerTy w := by
      obtain ⟨ha, hb⟩ := fn.operator_type _ _ _ _ hkind
      rw [← h.fromInst_type]
      rcases hv with rfl | rfl
      · exact ha
      · exact hb
    have hwidth : c.width = w := ValueType.integerTy.inj ((fn.constant_type v c hc).symm.trans htype)
    have hne : v ≠ phi := by
      rintro rfl
      rw [h.not_constant.1] at hc
      exact absurd hc nofun
    exact ⟨hwidth, (Function.update_of_ne hne ..).trans (hρ v c hc hwidth)⟩
  -- one operand is a constant, so the other one is the PHI node
  have hother : ∀ c, (fn.constantInt b = some c → a = phi) ∧ (fn.constantInt a = some c → b = phi) := by
    intro c
    obtain ⟨op', c', -, -, hk | hk⟩ := h.update
    · obtain ⟨-, rfl, rfl⟩ := EvolutionKind.binaryOperator.inj (hkind.symm.trans hk)
      refine ⟨fun _ => rfl, fun hc => ?_⟩
      rw [h.not_constant.1] at hc
      exact absurd hc nofun
    · obtain ⟨-, rfl, rfl⟩ := EvolutionKind.binaryOperator.inj (hkind.symm.trans hk)
      refine ⟨fun hc => ?_, fun _ => rfl⟩
      rw [h.not_constant.1] at hc
      exact absurd hc nofun
  rw [hvalue]
  refine ⟨fun c hc => ?_, fun c hc => ?_⟩
  · obtain ⟨hwidth, hread⟩ := hconstant b c (.inr rfl) hc
    obtain rfl := (hother c).1 hc
    exact ⟨hwidth, by rw [hread, Function.update_self]⟩
  · obtain ⟨hwidth, hread⟩ := hconstant a c (.inl rfl) hc
    obtain rfl := (hother c).2 hc
    exact ⟨hwidth, by rw [hread, Function.update_self]⟩

end

theorem phiValue_eq_iterate (ρ : V → BitVec w) :
    ∀ i, phiValue fn phi fromInst initialValue ρ i =
      (updateValue fn phi fromInst ρ)^[i] (ρ initialValue)
  | 0 => rfl
  | i + 1 => by
      rw [Function.iterate_succ_apply', ← phiValue_eq_iterate ρ i]
      rfl

omit [DecidableEq V] in
theorem atWidth_eq {c : ConstantInt} (h : c.width = w) : ∃ value : BitVec w, c = ⟨w, value⟩ ∧
    c.atWidth w = value := by
  subst h
  exact ⟨c.value, rfl, BitVec.signExtend_eq c.value⟩

/-- `n = phi [-1, preheader], [m, latch]; m = sub 0, n`, on 32 bits. -/
inductive NegatedValue
  | n
  | m
  | minusOne
  | zero
  deriving DecidableEq

/-- The loop that negates its variable. -/
def negated : PeriodicFunction NegatedValue Bool where
  kind
    | .n => .phiNode [(false, .minusOne), (true, .m)]
    | .m => .binaryOperator .sub .zero .n
    | _ => .noInstruction
  type _ := .integerTy 32
  users _ := []
  getParent _ := true
  isReassociable _ := false
  constantInt
    | .minusOne => some ⟨32, -1⟩
    | .zero => some ⟨32, 0⟩
    | _ => none
  constant_kind v c := by cases v <;> simp
  constant_type v c := by
    cases v with
    | minusOne | zero =>
        intro h
        cases h
        rfl
    | _ => exact fun h => absurd h.symm (some_ne_none c)
  phi_type _ _ _ _ _ := rfl
  operator_type _ _ _ _ _ := ⟨rfl, rfl⟩

def negatedSCC : SCC NegatedValue := (((DG.empty 0).addNode .n true).2.addNode .m true).2

def negatedEdges : PtrSet (DGEdge NegatedValue) :=
  PtrSet.ofList [⟨0, 0, ⟨0, 1, .m⟩, ⟨0, 0, .n⟩, .variableDependence, some .raw⟩]

theorem negated_isTwoInstructionSCC : IsTwoInstructionSCC negated negatedSCC .n .m .minusOne 32 where
  internal v := by cases v <;> decide
  type := rfl
  incoming := ⟨false, true, .inl rfl⟩
  external := by decide
  update := ⟨.sub, .zero, .inr rfl, rfl, .inr rfl⟩

theorem negated_areDependencesOf : AreDependencesOf negated negatedSCC negatedEdges := by
  have hall : ∀ e ∈ negatedEdges, e.getSrc = .m ∧ e.getDst = .n := fun e he => by
    rw [List.mem_singleton.mp (PtrSet.mem_ofList.mp he)]
    exact ⟨rfl, rfl⟩
  refine ⟨fun e he => .inl ?_, fun e he _ incoming hphi => ?_⟩
  · rw [(hall e he).1]
    decide
  · rw [(hall e he).2] at hphi
    rw [(hall e he).1, ← EvolutionKind.phiNode.inj hphi]
    exact .tail _ (.head _)

theorem negated_checkIfPeriodic :
    checkIfPeriodic .stored negated (fun _ => true) (some negatedEdges) negatedSCC =
      some (some ⟨.minusOne, .int64 2, .int64 (-2)⟩) := by
  decide +kernel

def negatedValues : NegatedValue → BitVec 32
  | .minusOne => -1
  | _ => 0

theorem negated_readsConstants : ReadsConstants negated negatedValues := by
  intro v c hc _
  cases v with
  | minusOne | zero =>
      cases hc
      decide
  | _ => exact absurd hc.symm (some_ne_none c)

/-- **Periodic variables**: an accepted component has the reported closed form if and only if its
variable starts with what comes from outside at the first dependence and, where it is negated, the
step fits this value. -/
theorem checkIfPeriodic_closedForm_iff
    (h : IsTwoInstructionSCC fn scc phi fromInst initialValue w)
    (hedges : AreDependencesOf fn scc edges)
    (haccept : checkIfPeriodic ord fn isLoopCarriedDependence (some edges) scc =
      some (some periodic)) {ρ : V → BitVec w} (hρ : ReadsConstants fn ρ) :
    (∀ i, phiValue fn phi fromInst initialValue ρ i = ρ periodic.initialValue +
        periodic.step.atWidth w * BitVec.ofNat w (i % periodic.period.value.toNat)) ↔
      (∀ edge other, firstDependence ord isLoopCarriedDependence edges = some edge →
          otherIncomingValue fn edge = some other → ρ initialValue = ρ other) ∧
        (fn.binaryOpcode fromInst = some .xor ∨ StepFits (ρ initialValue)) := by
  obtain ⟨hcheck, htype, edge, hedge, hother⟩ := h.accepted hedges haccept
  have hreported : (∀ edge other, firstDependence ord isLoopCarriedDependence edges = some edge →
      otherIncomingValue fn edge = some other → ρ initialValue = ρ other) ↔
      ρ initialValue = ρ periodic.initialValue := by
    refine ⟨fun hall => hall edge _ hedge hother, fun heq edge' other hedge' hother' => ?_⟩
    obtain rfl := mem_unique hedge hedge'
    obtain rfl := mem_unique hother hother'
    exact heq
  rw [hreported]
  obtain ⟨-, hperiod, c, hc, hshape⟩ := checkFromInst_eq_some hcheck
  have hwidth : c.width = w := ValueType.integerTy.inj ((fn.constant_type _ c hc).symm.trans htype)
  obtain ⟨v, rfl, hv⟩ := atWidth_eq hwidth
  have hread : ρ periodic.initialValue = v := (hρ _ _ hc rfl).trans hv
  have htwo : periodic.period.value.toNat = 2 := by
    rw [hperiod]
    rfl
  simp only [phiValue_eq_iterate, htwo, hread]
  rcases hshape with ⟨a, b, hkind, hb, hzero, hone⟩ | ⟨a, b, zero, hkind, ha, hzero, hstep⟩
  · -- the values alternate between zero and one
    have hupdate : ∀ n, updateValue fn phi fromInst ρ n = n ^^^ periodic.step.atWidth w := fun n =>
      ((h.updateValue_eq hρ hkind rfl n).1 _ hb).2
    have hinvolutive : Function.Involutive (updateValue fn phi fromInst ρ) := fun n => by
      rw [hupdate, hupdate, BitVec.xor_assoc, BitVec.xor_self, BitVec.xor_zero]
    have hv0 : v = BitVec.ofNat w 0 := of_decide_eq_true hzero
    rw [iterate_involutive_iff hinvolutive, hupdate]
    have hopcode : fn.binaryOpcode fromInst = some .xor := by
      unfold EvolutionFunction.binaryOpcode
      rw [hkind]
    constructor
    · exact fun hboth => ⟨hboth.1, .inl hopcode⟩
    · rintro ⟨hinitial, -⟩
      refine ⟨hinitial, ?_⟩
      rw [hinitial, hv0, BitVec.zero_xor, BitVec.zero_add]
  · -- the values alternate between the initial value and its negation
    have hupdate : ∀ n, updateValue fn phi fromInst ρ n = -n := fun n => by
      obtain ⟨hzeroWidth, heq⟩ := (h.updateValue_eq hρ hkind rfl n).2 zero ha
      obtain ⟨value, rfl, hvalue⟩ := atWidth_eq hzeroWidth
      have hvalue0 : value = BitVec.ofNat w 0 := of_decide_eq_true hzero
      rw [heq, hvalue, hvalue0, BitVec.zero_sub]
    have hinvolutive : Function.Involutive (updateValue fn phi fromInst ρ) := fun n => by
      rw [hupdate, hupdate, BitVec.neg_neg]
    have hopcode : fn.binaryOpcode fromInst ≠ some .xor := by
      unfold EvolutionFunction.binaryOpcode
      rw [hkind]
      exact nofun
    rw [iterate_involutive_iff hinvolutive, hupdate]
    refine and_congr_right fun hinitial => ?_
    rw [hinitial, ← negationStep_iff hstep]
    exact ⟨.inr, fun heq => heq.resolve_left hopcode⟩

theorem negated_closedForm_iff :
    (∀ i, phiValue negated .n .m .minusOne negatedValues i = negatedValues .minusOne +
        (ConstantInt.int64 (-2)).atWidth 32 *
          BitVec.ofNat 32 (i % (ConstantInt.int64 2).value.toNat)) ↔
      (∀ edge other, firstDependence .stored (fun _ => true) negatedEdges = some edge →
          otherIncomingValue negated edge = some other → negatedValues .minusOne = negatedValues other) ∧
        (negated.binaryOpcode .m = some .xor ∨ StepFits (negatedValues .minusOne)) :=
  checkIfPeriodic_closedForm_iff negated_isTwoInstructionSCC negated_areDependencesOf
    negated_checkIfPeriodic negated_readsConstants

/-- In the iteration after the first the variable is 1, and not `-3`. -/
theorem negated_not_closedForm :
    IsTwoInstructionSCC negated negatedSCC .n .m .minusOne 32 ∧
      AreDependencesOf negated negatedSCC negatedEdges ∧
      ReadsConstants negated negatedValues ∧
      ∃ periodic, checkIfPeriodic .stored negated (fun _ => true) (some negatedEdges) negatedSCC =
          some (some periodic) ∧
        ¬ ∀ i, phiValue negated .n .m .minusOne negatedValues i =
          negatedValues periodic.initialValue + periodic.step.atWidth 32 *
            BitVec.ofNat 32 (i % periodic.period.value.toNat) := by
  refine ⟨negated_isTwoInstructionSCC, negated_areDependencesOf, negated_readsConstants, _,
    negated_checkIfPeriodic, fun hall => ?_⟩
  exact absurd (hall 1) (by decide)

end SCCDAGAttrs

end Noelle
