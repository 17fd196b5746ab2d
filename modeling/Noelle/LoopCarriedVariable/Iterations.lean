import Noelle.Lib.Assignments
import Noelle.Lib.Splitting
import Noelle.LoopCarriedVariable.Basic

/-!
# LoopCarriedVariable.Iterations

Iterations of the loop of a variable, and what they do to a variable that evolves by one operator.

An iteration is the path it takes: the PHI nodes with the values they select and the instructions
in the order of their execution, up to the PHI nodes of the header.  Values are numbers; integer
operators and casts compute with the bits of their type, any other instruction is some function of
its operands that comes with the path (so loads and calls return what they like).

`UpdatesBy` collects what the updates of a reducible variable look like.  `Tracks` relates a run to
the run that starts from the identity: outside of what depends on the variable they agree, and the
values of the variable differ by one application of the operator.
-/

namespace Noelle

open List

/-! ## Values -/

namespace Opcode

def integerOp {w : Nat} : Opcode → Option (BitVec w → BitVec w → BitVec w)
  | .add => some (· + ·)
  | .sub => some (· - ·)
  | .mul => some (· * ·)
  | .and => some (· &&& ·)
  | .or => some (· ||| ·)
  | .xor => some (· ^^^ ·)
  | _ => none

/-- The operators that variables are reduced with. -/
def isReduction : Opcode → Bool
  | .add | .mul | .and | .or | .xor => true
  | _ => false

/-- The reduction operators on the values of a variable. -/
def combine {w : Nat} (o : Opcode) (a b : BitVec w) : BitVec w :=
  match o.integerOp with
  | some f => f a b
  | none => a

end Opcode

/-- The low bits of a value. -/
abbrev low (W n : Nat) : BitVec W := BitVec.ofNat W n

theorem low_toNat {w W : Nat} (x : BitVec w) : low W x.toNat = x.setWidth W := by
  apply BitVec.eq_of_toNat_eq
  simp

theorem low_ofNat {w W : Nat} (h : W ≤ w) (n : Nat) : (BitVec.ofNat w n).setWidth W = low W n :=
  BitVec.setWidth_ofNat_of_le h n

/-- A reduction operator at a type that is wide enough computes the low bits from the low bits. -/
theorem low_integerOp {w W : Nat} (h : W ≤ w) {o : Opcode} (ho : o.isReduction = true) (a b : Nat) :
    ∃ f : BitVec w → BitVec w → BitVec w, o.integerOp = some f ∧
      low W (f (BitVec.ofNat w a) (BitVec.ofNat w b)).toNat = o.combine (low W a) (low W b) := by
  cases o with
  | add =>
      refine ⟨_, rfl, ?_⟩
      rw [low_toNat, BitVec.setWidth_add _ _ h, low_ofNat h, low_ofNat h]
      rfl
  | mul =>
      refine ⟨_, rfl, ?_⟩
      rw [low_toNat, BitVec.setWidth_mul _ _ h, low_ofNat h, low_ofNat h]
      rfl
  | and =>
      refine ⟨_, rfl, ?_⟩
      rw [low_toNat, BitVec.setWidth_and, low_ofNat h, low_ofNat h]
      rfl
  | or =>
      refine ⟨_, rfl, ?_⟩
      rw [low_toNat, BitVec.setWidth_or, low_ofNat h, low_ofNat h]
      rfl
  | xor =>
      refine ⟨_, rfl, ?_⟩
      rw [low_toNat, BitVec.setWidth_xor, low_ofNat h, low_ofNat h]
      rfl
  | _ => exact absurd ho nofun

theorem setWidth_signExtend {w w' W : Nat} (x : BitVec w') (h : W ≤ w) (h' : W ≤ w') :
    (x.signExtend w).setWidth W = x.setWidth W := by
  ext i hi
  simp [BitVec.getElem_setWidth, BitVec.getElem_signExtend, show i < w by omega,
    show i < w' by omega]

theorem combine_assoc {W : Nat} {o : Opcode} (ho : o.isReduction = true) (a b c : BitVec W) :
    o.combine (o.combine a b) c = o.combine a (o.combine b c) := by
  cases o with
  | add => exact BitVec.add_assoc a b c
  | mul => exact BitVec.mul_assoc a b c
  | and => exact BitVec.and_assoc a b c
  | or => exact BitVec.or_assoc a b c
  | xor => exact BitVec.xor_assoc a b c
  | _ => nomatch ho

theorem combine_comm {W : Nat} {o : Opcode} (ho : o.isReduction = true) (a b : BitVec W) :
    o.combine a b = o.combine b a := by
  cases o with
  | add => exact BitVec.add_comm a b
  | mul => exact BitVec.mul_comm a b
  | and => exact BitVec.and_comm a b
  | or => exact BitVec.or_comm a b
  | xor => exact BitVec.xor_comm a b
  | _ => nomatch ho

theorem combine_self {W : Nat} {o : Opcode} (ho : o = .or ∨ o = .and) (a : BitVec W) :
    o.combine a a = a := by
  rcases ho with rfl | rfl
  · exact BitVec.or_self
  · exact BitVec.and_self

/-- The constants of `AccumulatorOpInfo` are identities, except the one of `and` at more than one
bit. -/
theorem isReductionOperator_combine {W : Nat} {o : Opcode} (ho : o.isReduction = true)
    (hand : o = .and → W = 1) :
    IsReductionOperator (o.combine (w := W)) (AccumulatorOpInfo.generateIdentityFor o W) where
  assoc := combine_assoc ho
  comm := combine_comm ho
  identity a := by
    cases o with
    | add => exact BitVec.zero_add a
    | mul => exact BitVec.one_mul a
    | and =>
        obtain rfl := hand rfl
        exact BitVec.allOnes_and
    | or => exact BitVec.zero_or
    | xor => exact BitVec.zero_xor
    | _ => nomatch ho

/-! ## Iterations -/

/-- A step of an iteration: the PHI nodes of a block take the values selected, all at once, or an
instruction is executed.  The oracle is the value of instructions that are not computed here. -/
inductive IterationStep (V : Type) where
  | phis (selected : V → Option V)
  | execute (v : V) (oracle : List Nat → Nat)

/-- An iteration: its steps, and what the PHI nodes of the header select at its end. -/
structure LoopIteration (V : Type) where
  steps : List (IterationStep V)
  backEdge : V → Option V

namespace EvolutionFunction

variable {V B : Type} (fn : EvolutionFunction V B)

def valueOf (v : V) (oracle : List Nat → Nat) (operands : List Nat) : Nat :=
  match fn.kind v, fn.type v, operands with
  | .binaryOperator op _ _, .integerTy w, [a, b] =>
      match op.integerOp with
      | some f => (f (BitVec.ofNat w a) (BitVec.ofNat w b)).toNat
      | none => oracle operands
  | .castInst op source, .integerTy w, [a] =>
      match op, fn.type source with
      | .trunc, .integerTy w' => ((BitVec.ofNat w' a).setWidth w).toNat
      | .zext, .integerTy w' => ((BitVec.ofNat w' a).setWidth w).toNat
      | .sext, .integerTy w' => ((BitVec.ofNat w' a).signExtend w).toNat
      | _, _ => oracle operands
  | _, _, _ => oracle operands

/-- The PHI nodes read the values they select. -/
def selection (selected : V → Option V) : Assignment V Nat :=
  fun v => (selected v).map fun s => ([s], fun values => values.headD 0)

variable [DecidableEq V]

def assignment : IterationStep V → Assignment V Nat
  | .phis selected => selection selected
  | .execute v oracle => fun n => if n = v then some (fn.operands v, fn.valueOf v oracle) else none

/-- The values before the back edge. -/
def runSteps (steps : List (IterationStep V)) (ρ : V → Nat) : V → Nat :=
  Assignment.runAll (steps.map fn.assignment) ρ

/-- The values when the header starts again. -/
def runIteration (it : LoopIteration V) (ρ : V → Nat) : V → Nat :=
  (selection it.backEdge).run (fn.runSteps it.steps ρ)

def runLoop (its : List (LoopIteration V)) (ρ : V → Nat) : V → Nat :=
  its.foldl (fun ρ it => fn.runIteration it ρ) ρ

def startsOf : List (LoopIteration V) → (V → Nat) → List (LoopIteration V × (V → Nat))
  | [], _ => []
  | it :: its, ρ => (it, ρ) :: startsOf its (fn.runIteration it ρ)

end EvolutionFunction

namespace LoopCarriedVariable

variable {F V B : Type} [DecidableEq V] {fn : EvolutionFunction V B} (x : LoopCarriedVariable F V B fn)

/-- The names whose values may depend on the variable. -/
def Tainted : V → Prop := DependsOn fn.operands fun v => x.isInternal v = true

def assigns : IterationStep V → V → Prop
  | .phis selected, v => (selected v).isSome = true
  | .execute v' _, v => v = v'

/-- A step of an SSA program: PHI nodes select one of their incoming values, and the values of the
variable that an update uses have been computed in the iteration. -/
def StepWellFormed (defined : V → Prop) : IterationStep V → Prop
  | .phis selected => ∀ v s, selected v = some s →
      v ≠ x.declarationValue ∧ fn.isPHINode v = true ∧ s ∈ fn.operands v ∧
        (x.isInternal v = true → x.isInternal s = true → defined s)
  | .execute v _ => fn.isPHINode v = false ∧
      ∀ s ∈ fn.operands v, x.isInternal v = true → x.isInternal s = true → defined s

/-- The names that have been assigned after some steps. -/
def definedAfter (defined : V → Prop) : List (IterationStep V) → V → Prop
  | [] => defined
  | step :: steps => definedAfter (fun v => defined v ∨ assigns step v) steps

/-- The steps of an SSA program. -/
def StepsWellFormed : (V → Prop) → List (IterationStep V) → Prop
  | _, [] => True
  | defined, step :: steps =>
      x.StepWellFormed defined step ∧ StepsWellFormed (fun v => defined v ∨ assigns step v) steps

/-- A path from the header back to it. -/
structure IsIteration (it : LoopIteration V) : Prop where
  steps : x.StepsWellFormed (fun v => v = x.declarationValue) it.steps
  backEdge : ∀ v s, it.backEdge v = some s → fn.isPHINode v = true ∧ s ∈ fn.operands v
  latch : ∃ incoming b s, fn.kind x.declarationValue = .phiNode incoming ∧ (b, s) ∈ incoming ∧
    b ≠ x.preHeader ∧ it.backEdge x.declarationValue = some s ∧
      (x.isInternal s = true → definedAfter (fun v => v = x.declarationValue) it.steps s)

/-! ## Variables that evolve by one operator -/

/-- The updates of the variable: PHI nodes that select among its values, integer casts and one
reduction operator, at types that are wide enough, with values that do not depend on it. -/
structure UpdatesBy (W : Nat) (o : Opcode) : Prop where
  isReduction : o.isReduction = true
  phi : ∀ v, x.isInternal v = true → v ≠ x.declarationValue → fn.isPHINode v = true →
    ∀ s ∈ fn.operands v, x.isInternal s = true
  update : ∀ v, x.isInternal v = true → fn.isPHINode v = false →
    (∃ a b w, fn.kind v = .binaryOperator o a b ∧ fn.type v = .integerTy w ∧ W ≤ w ∧
      ((x.isInternal a = true ∧ x.isInternal b = false) ∨
        (x.isInternal a = false ∧ x.isInternal b = true) ∨
        (x.isInternal a = true ∧ x.isInternal b = true ∧ (o = .or ∨ o = .and)))) ∨
    (∃ c a w w', fn.kind v = .castInst c a ∧ c ≠ .otherCast ∧ fn.type a = .integerTy w' ∧
      fn.type v = .integerTy w ∧ W ≤ w ∧ W ≤ w' ∧ x.isInternal a = true)
  external : ∀ v, x.isInternal v = true → v ≠ x.declarationValue → ∀ s ∈ fn.operands v,
    x.isInternal s = false → ¬ x.Tainted s
  latch : ∀ incoming b s, fn.kind x.declarationValue = .phiNode incoming → (b, s) ∈ incoming →
    b ≠ x.preHeader → x.isInternal s = true

variable {x} {W : Nat} {o : Opcode}

theorem keepsInside_selection {selected : V → Option V}
    (h : ∀ v s, selected v = some s → s ∈ fn.operands v) :
    KeepsInside x.Tainted (EvolutionFunction.selection selected) := by
  intro v reads f hv r hr hD
  obtain ⟨s, hs, hp⟩ := Option.map_eq_some_iff.mp hv
  obtain ⟨rfl, -⟩ := Prod.mk.inj hp
  obtain rfl := mem_singleton.mp hr
  exact hD.read (h v r hs)

theorem keepsInside_assignment {defined : V → Prop} {step : IterationStep V}
    (h : x.StepWellFormed defined step) : KeepsInside x.Tainted (fn.assignment step) := by
  cases step with
  | phis selected => exact keepsInside_selection fun v s hs => (h v s hs).2.2.1
  | execute v oracle =>
      intro n reads f hn r hr hD
      by_cases hnv : n = v
      · subst hnv
        obtain ⟨rfl, -⟩ := Prod.mk.inj (Option.mem_unique (if_pos rfl) hn)
        exact hD.read hr
      · exact absurd ((if_neg hnv).symm.trans hn) nofun

/-- The run from the value `p` of the variable and the run from the identity. -/
structure Tracks (x : LoopCarriedVariable F V B fn) (o : Opcode) (defined : V → Prop) (p : BitVec W)
    (ρ ρ₁ : V → Nat) : Prop where
  agree : AgreeOff x.Tainted ρ ρ₁
  value : ∀ v, x.isInternal v = true → defined v → low W (ρ v) = o.combine p (low W (ρ₁ v))

/-- The operator of an update: each internal operand carries the value `p` once. -/
theorem combine_update {a b c d p : BitVec W} (hop : o.isReduction = true)
    (h : (a = o.combine p c ∧ b = d) ∨ (a = c ∧ b = o.combine p d) ∨
      (a = o.combine p c ∧ b = o.combine p d ∧ (o = .or ∨ o = .and))) :
    o.combine a b = o.combine p (o.combine c d) := by
  rcases h with ⟨rfl, rfl⟩ | ⟨rfl, rfl⟩ | ⟨rfl, rfl, hidem⟩
  · exact combine_assoc hop p c b
  · rw [← combine_assoc hop, combine_comm hop a p, combine_assoc hop]
  · calc o.combine (o.combine p c) (o.combine p d)
        = o.combine p (o.combine c (o.combine p d)) := combine_assoc hop _ _ _
      _ = o.combine p (o.combine (o.combine p d) c) := by rw [combine_comm hop c]
      _ = o.combine (o.combine p p) (o.combine d c) := by
          rw [combine_assoc hop, combine_assoc hop]
      _ = o.combine p (o.combine c d) := by rw [combine_self hidem, combine_comm hop d]

/-- An instruction of the reduction keeps the two runs alike up to the variable. -/
theorem Tracks.execute {defined : V → Prop} {p : BitVec W} {ρ ρ₁ : V → Nat} (hx : x.UpdatesBy W o)
    (h : Tracks x o defined p ρ ρ₁) {v : V} {oracle : List Nat → Nat}
    (hwf : x.StepWellFormed defined (.execute v oracle)) (hv : x.isInternal v = true) :
    low W (fn.valueOf v oracle ((fn.operands v).map ρ)) =
      o.combine p (low W (fn.valueOf v oracle ((fn.operands v).map ρ₁))) := by
  obtain ⟨hphi, hdefined⟩ := hwf
  have hne : v ≠ x.declarationValue := by
    rintro rfl
    exact absurd (x.declaration_isPHINode.symm.trans hphi) nofun
  have hin : ∀ s ∈ fn.operands v, x.isInternal s = true →
      low W (ρ s) = o.combine p (low W (ρ₁ s)) := fun s hs hsi => h.value s hsi (hdefined s hs hv hsi)
  have hout : ∀ s ∈ fn.operands v, x.isInternal s = false → low W (ρ s) = low W (ρ₁ s) :=
    fun s hs hse => congrArg (low W) (h.agree s (hx.external v hv hne s hs hse))
  rcases hx.update v hv hphi with ⟨a, b, w, hkind, htype, hw, hops⟩ |
      ⟨c, a, w, w', hkind, hc, hsource, htype, hw, hw', ha⟩
  · have hoperands : fn.operands v = [a, b] := by simp [EvolutionFunction.operands, hkind]
    have hmem : a ∈ fn.operands v ∧ b ∈ fn.operands v := by simp [hoperands]
    have hvalue : ∀ σ : V → Nat, low W (fn.valueOf v oracle ((fn.operands v).map σ)) =
        o.combine (low W (σ a)) (low W (σ b)) := fun σ => by
      obtain ⟨f, hf, hlow⟩ := low_integerOp hw hx.isReduction (σ a) (σ b)
      rw [← hlow, hoperands]
      simp [EvolutionFunction.valueOf, hkind, htype, hf]
    rw [hvalue, hvalue]
    refine combine_update hx.isReduction ?_
    rcases hops with ⟨hai, hbe⟩ | ⟨hae, hbi⟩ | ⟨hai, hbi, hidem⟩
    · exact .inl ⟨hin a hmem.1 hai, hout b hmem.2 hbe⟩
    · exact .inr (.inl ⟨hout a hmem.1 hae, hin b hmem.2 hbi⟩)
    · exact .inr (.inr ⟨hin a hmem.1 hai, hin b hmem.2 hbi, hidem⟩)
  · have hoperands : fn.operands v = [a] := by simp [EvolutionFunction.operands, hkind]
    have hvalue : ∀ σ : V → Nat, low W (fn.valueOf v oracle ((fn.operands v).map σ)) =
        low W (σ a) := fun σ => by
      rw [hoperands, ← low_ofNat hw' (σ a)]
      cases c with
      | trunc | zext =>
          simp only [EvolutionFunction.valueOf, hkind, htype, hsource, map_cons, map_nil]
          rw [low_toNat, BitVec.setWidth_setWidth_of_le _ hw]
      | sext =>
          simp only [EvolutionFunction.valueOf, hkind, htype, hsource, map_cons, map_nil]
          rw [low_toNat, setWidth_signExtend _ hw hw']
      | otherCast => exact absurd rfl hc
    rw [hvalue, hvalue]
    exact hin a (by simp [hoperands]) ha

/-- A step of an iteration keeps the two runs alike up to the variable. -/
theorem Tracks.step {defined : V → Prop} {p : BitVec W} {ρ ρ₁ : V → Nat} (hx : x.UpdatesBy W o)
    (h : Tracks x o defined p ρ ρ₁) {step : IterationStep V} (hwf : x.StepWellFormed defined step) :
    Tracks x o (fun v => defined v ∨ assigns step v) p ((fn.assignment step).run ρ)
      ((fn.assignment step).run ρ₁) := by
  refine ⟨h.agree.run (keepsInside_assignment hwf), fun v hv hdef => ?_⟩
  cases step with
  | phis selected =>
      cases hs : selected v with
      | none =>
          have hnone : fn.assignment (.phis selected) v = none := by
            simp [EvolutionFunction.assignment, EvolutionFunction.selection, hs]
          rw [Assignment.run_of_none hnone, Assignment.run_of_none hnone]
          exact h.value v hv (hdef.resolve_right (by simp [assigns, hs]))
      | some s =>
          have hsome : fn.assignment (.phis selected) v = some ([s], fun values => values.headD 0) := by
            simp [EvolutionFunction.assignment, EvolutionFunction.selection, hs]
          rw [Assignment.run_of_some hsome, Assignment.run_of_some hsome]
          obtain ⟨hne, hphi, hmem, hdefined⟩ := hwf v s hs
          have hsi := hx.phi v hv hne hphi s hmem
          exact h.value s hsi (hdefined hv hsi)
  | execute v' oracle =>
      by_cases hvv : v = v'
      · subst hvv
        have hsome : fn.assignment (.execute v oracle) v =
            some (fn.operands v, fn.valueOf v oracle) := if_pos rfl
        rw [Assignment.run_of_some hsome, Assignment.run_of_some hsome]
        exact h.execute hx hwf hv
      · have hnone : fn.assignment (.execute v' oracle) v = none := if_neg hvv
        rw [Assignment.run_of_none hnone, Assignment.run_of_none hnone]
        exact h.value v hv (hdef.resolve_right hvv)

/-- An iteration keeps the two runs alike up to the variable. -/
theorem Tracks.runSteps (hx : x.UpdatesBy W o) {p : BitVec W} :
    ∀ {steps : List (IterationStep V)} {defined : V → Prop} {ρ ρ₁ : V → Nat},
      Tracks x o defined p ρ ρ₁ → x.StepsWellFormed defined steps →
        Tracks x o (definedAfter defined steps) p (fn.runSteps steps ρ) (fn.runSteps steps ρ₁)
  | [], _, _, _, h, _ => h
  | step :: steps, defined, ρ, ρ₁, h, hwf => by
      have hrest := Tracks.runSteps hx (h.step hx hwf.1) hwf.2
      exact hrest

/-- **One iteration**: the variable becomes the operator applied to its value and to the value
that the iteration computes from the identity, whatever the values that depend on the variable
were. -/
theorem runIteration_eq (hx : x.UpdatesBy W o) {e : BitVec W}
    (hop : IsReductionOperator (o.combine (w := W)) e) {it : LoopIteration V} (hit : x.IsIteration it)
    {ρ ρ₁ : V → Nat} (hagree : AgreeOff x.Tainted ρ ρ₁) (hρ₁ : low W (ρ₁ x.declarationValue) = e) :
    low W (fn.runIteration it ρ x.declarationValue) =
      o.combine (low W (ρ x.declarationValue))
        (low W (fn.runIteration it ρ₁ x.declarationValue)) := by
  have hstart : Tracks x o (fun v => v = x.declarationValue) (low W (ρ x.declarationValue)) ρ ρ₁ := by
    refine ⟨hagree, ?_⟩
    rintro v - rfl
    rw [hρ₁, hop.identity_right]
  have hend := Tracks.runSteps hx hstart hit.steps
  obtain ⟨incoming, b, s, hkind, hmem, hb, hback, hdefined⟩ := hit.latch
  have hs := hx.latch incoming b s hkind hmem hb
  have hsome : EvolutionFunction.selection it.backEdge x.declarationValue =
      some ([s], fun values => values.headD 0) := by simp [EvolutionFunction.selection, hback]
  unfold EvolutionFunction.runIteration
  rw [Assignment.run_of_some hsome, Assignment.run_of_some hsome]
  exact hend.value s hs (hdefined hs)

end LoopCarriedVariable

end Noelle
