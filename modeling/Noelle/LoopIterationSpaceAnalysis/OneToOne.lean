import Mathlib.Data.Nat.Factorization.Basic
import Noelle.Lib.Differences
import Noelle.Lib.Search
import Noelle.LoopIterationSpaceAnalysis.Basic
import Noelle.SCCDAGAttrs.Periodic

/-!
# LoopIterationSpaceAnalysis.OneToOne

`LoopIterationSpaceAnalysis::isOneToOneFunctionOnIV`.

The walk goes from the derived instruction over the operands down to the instructions of the
induction variable and accepts additions, subtractions, multiplications and casts, whatever they
are applied to.  A product with zero or an even number, a truncation and a difference of two
occurrences can have one value for two values of the induction variable.
-/

namespace Noelle

open List Option

namespace LoopIterationSpaceAnalysis

variable {F V B : Type} [DecidableEq V] [DecidableEq B]

section Walk

variable (fn : PeriodicFunction V B) (loopStructure : LoopStructure F B) (iv : InductionVariable V)

/-- The opcodes that are taken to be one-to-one. -/
def isOneToOneOperation (inst : V) : Bool :=
  match fn.kind inst with
  | .binaryOperator .add _ _ | .binaryOperator .sub _ _ | .binaryOperator .mul _ _ => true
  | .castInst _ _ => true
  | _ => false

/-- The value is an instruction of the loop. -/
def isInLoop (v : V) : Bool :=
  fn.isInstruction v && loopStructure.isIncluded (fn.getParent v)

/-- The queue, the operands that were put into it, and whether the function has returned. -/
structure DerivationWalk (V : Type) where
  derivingInsts : List V
  visited : PtrSet V
  returnedFalse : Bool
  deriving DecidableEq

/-- The body of the loop over the operands. -/
def visitUse (s : DerivationWalk V) (usedValue : V) : DerivationWalk V :=
  if s.returnedFalse then s
  else if (fn.constantInt usedValue).isSome then s
  else if !fn.isInstruction usedValue then { s with returnedFalse := true }
  else if !loopStructure.isIncluded (fn.getParent usedValue) then s
  else if usedValue ∈ s.visited then s
  else { s with
    visited := s.visited.insert usedValue
    derivingInsts := s.derivingInsts ++ [usedValue] }

/-- The body of the loop over the queue. -/
def visitDerivingInst (s : DerivationWalk V) : Option (DerivationWalk V) := do
  let inst ← s.derivingInsts.head?
  let s := { s with derivingInsts := s.derivingInsts.tail }
  return if iv.isIVInstruction inst then s
    else if !isOneToOneOperation fn inst then { s with returnedFalse := true }
    else (fn.operands inst).foldl (visitUse fn loopStructure) s

def isOneToOneFunctionOnIV (derivedInstruction : V) (fuel : Nat) : Option Bool :=
  (loopM (fun s : DerivationWalk V => !s.returnedFalse && !s.derivingInsts.isEmpty)
    (visitDerivingInst fn loopStructure iv) fuel
    ⟨[derivedInstruction], ∅, false⟩).map fun s => !s.returnedFalse

end Walk

/-! ## What the walk checks -/

variable {fn : PeriodicFunction V B} {loopStructure : LoopStructure F B} {iv : InductionVariable V}

/-- The loop over the operands adds the instructions of the loop to the queue, each once. -/
structure UsesVisited (fn : PeriodicFunction V B) (loopStructure : LoopStructure F B) (uses : List V)
    (s s' : DerivationWalk V) : Prop where
  notReturned : s.returnedFalse = false
  visited : ∀ v, v ∈ s.visited → v ∈ s'.visited
  kept : ∀ v, v ∈ s.derivingInsts → v ∈ s'.derivingInsts
  found : ∀ v ∈ uses, fn.constantInt v = none → isInLoop fn loopStructure v = true → v ∈ s'.visited
  queued : ∀ v ∈ s'.visited, v ∈ s.visited ∨ v ∈ s'.derivingInsts

/-- Unless the walk gave up, the value used is visited. -/
theorem visitUse_spec {s : DerivationWalk V} {usedValue : V}
    (h : (visitUse fn loopStructure s usedValue).returnedFalse = false) :
    UsesVisited fn loopStructure [usedValue] s (visitUse fn loopStructure s usedValue) := by
  unfold visitUse at h ⊢
  split_ifs at h ⊢ with hreturned hconst hinst hloop hvisited
  · exact absurd (h.symm.trans hreturned) Bool.false_ne_true
  · refine ⟨h, fun _ hv => hv, fun _ hv => hv, fun v hv hnone _ => ?_, fun _ hv => .inl hv⟩
    rw [mem_singleton.mp hv] at hnone
    exact absurd hnone (ne_none_iff_isSome.mpr hconst)
  · refine ⟨h, fun _ hv => hv, fun _ hv => hv, fun v hv _ hin => ?_, fun _ hv => .inl hv⟩
    rw [mem_singleton.mp hv, isInLoop, Bool.and_eq_true] at hin
    rw [hin.2] at hloop
    exact absurd hloop Bool.false_ne_true
  · exact ⟨h, fun _ hv => hv, fun _ hv => hv,
      fun v hv _ _ => mem_singleton.mp hv ▸ hvisited, fun _ hv => .inl hv⟩
  · refine ⟨h, fun v hv => PtrSet.mem_insert.mpr (.inr hv), fun v hv => mem_append_left _ hv,
      fun v hv _ _ => PtrSet.mem_insert.mpr (.inl (mem_singleton.mp hv)), fun v hv => ?_⟩
    exact (PtrSet.mem_insert.mp hv).elim (fun heq => .inr (by simp [heq])) .inl

/-- Unless the walk gave up, all the values used are visited. -/
theorem visitUses_spec : ∀ {uses : List V} {s : DerivationWalk V},
    (uses.foldl (visitUse fn loopStructure) s).returnedFalse = false →
      UsesVisited fn loopStructure uses s (uses.foldl (visitUse fn loopStructure) s)
  | [], s, h => ⟨h, fun _ hv => hv, fun _ hv => hv, nofun, fun _ hv => .inl hv⟩
  | use :: uses, s, h => by
      have hrest : UsesVisited fn loopStructure uses (visitUse fn loopStructure s use) _ :=
        visitUses_spec h
      have hfirst := visitUse_spec hrest.notReturned
      refine ⟨hfirst.notReturned, fun v hv => hrest.visited v (hfirst.visited v hv),
        fun v hv => hrest.kept v (hfirst.kept v hv), fun v hv hnone hin => ?_, fun v hv => ?_⟩
      · cases mem_cons.mp hv with
        | inl heq =>
            exact hrest.visited v (hfirst.found v (mem_singleton.mpr heq) hnone hin)
        | inr hmem => exact hrest.found v hmem hnone hin
      · cases hrest.queued v hv with
        | inl hold => exact (hfirst.queued v hold).imp_right (hrest.kept v)
        | inr hmem => exact .inr hmem

/-- An instruction that is not one of the variable has an accepted opcode, and its operands in the loop
have been met. -/
def Checked (fn : PeriodicFunction V B) (loopStructure : LoopStructure F B) (iv : InductionVariable V)
    (met : V → Prop) (v : V) : Prop :=
  iv.isIVInstruction v = false → isOneToOneOperation fn v = true ∧
    ∀ u ∈ fn.operands v, fn.constantInt u = none → isInLoop fn loopStructure u = true → met u

theorem Checked.mono {met met' : V → Prop} {v : V} (h : Checked fn loopStructure iv met v)
    (hsub : ∀ u, met u → met' u) : Checked fn loopStructure iv met' v := fun hnot =>
  ⟨(h hnot).1, fun u hu hnone hin => hsub u ((h hnot).2 u hu hnone hin)⟩

/-- The walk in between: what was met is in the queue or has been checked. -/
def Walking (fn : PeriodicFunction V B) (loopStructure : LoopStructure F B)
    (iv : InductionVariable V) (derivedInstruction : V) (s : DerivationWalk V) : Prop :=
  s.returnedFalse = false → ∀ v, v = derivedInstruction ∨ v ∈ s.visited →
    v ∈ s.derivingInsts ∨ Checked fn loopStructure iv (· ∈ s.visited) v

/-- A step keeps the invariant of the walk. -/
theorem Walking.step {derivedInstruction : V} {s s' : DerivationWalk V}
    (h : Walking fn loopStructure iv derivedInstruction s) (hs : s.returnedFalse = false)
    (hstep : visitDerivingInst fn loopStructure iv s = some s') :
    Walking fn loopStructure iv derivedInstruction s' := by
  intro hs' v hv
  have h := h hs
  obtain ⟨inst, hhead, hbody⟩ := bind_eq_some_iff.mp hstep
  have hqueue : s.derivingInsts = inst :: s.derivingInsts.tail := eq_cons_of_mem_head? hhead
  have hsplit : ∀ u, u ∈ s.derivingInsts → u = inst ∨ u ∈ s.derivingInsts.tail := fun u hu =>
    mem_cons.mp (hqueue ▸ hu)
  cases hbody
  split_ifs at hs' hv ⊢ with hiv hop
  · cases h v hv with
    | inl hmem =>
        refine (hsplit v hmem).elim (fun heq => .inr fun hnot => ?_) .inl
        rw [heq, hiv] at hnot
        exact absurd hnot.symm Bool.false_ne_true
    | inr hchecked => exact .inr hchecked
  · have hvisited := visitUses_spec hs'
    have hinst : Checked fn loopStructure iv (· ∈ _) inst := fun _ =>
      ⟨by simpa using hop, hvisited.found⟩
    generalize (fn.operands inst).foldl (visitUse fn loopStructure) _ = s' at hv hvisited hinst ⊢
    have hmet : v = derivedInstruction ∨ v ∈ s.visited →
        v ∈ s'.derivingInsts ∨ Checked fn loopStructure iv (· ∈ s'.visited) v := by
      intro hv
      cases h v hv with
      | inl hmem =>
          exact (hsplit v hmem).elim (fun heq => .inr (heq ▸ hinst))
            fun hmem => .inl (hvisited.kept v hmem)
      | inr hchecked => exact .inr (hchecked.mono hvisited.visited)
    cases hv with
    | inl hderived => exact hmet (.inl hderived)
    | inr hv => exact (hvisited.queued v hv).elim (fun hold => hmet (.inr hold)) .inl

/-- **The walk**: where the function returns true, it has met the derived instruction, and with every
instruction that it checked the operands in the loop. -/
theorem isOneToOneFunctionOnIV_checked {derivedInstruction : V} {fuel : Nat}
    (h : isOneToOneFunctionOnIV fn loopStructure iv derivedInstruction fuel = some true) :
    ∃ met : V → Prop, met derivedInstruction ∧
      ∀ v, met v → Checked fn loopStructure iv met v := by
  obtain ⟨s, hloop, htrue⟩ := map_eq_some_iff.mp h
  have hs : s.returnedFalse = false := by simpa using htrue
  obtain ⟨hwalking, hend⟩ := loopM_preserves (Walking fn loopStructure iv derivedInstruction)
    (fun s s' hI hcond hstep => hI.step (by simp at hcond; exact hcond.1) hstep) hloop
    (fun _ v hv => .inl (by simpa using hv))
  have hempty : s.derivingInsts = [] := by simpa [hs] using hend
  refine ⟨fun v => v = derivedInstruction ∨ v ∈ s.visited, .inl rfl, fun v hv => ?_⟩
  have hchecked := (hwalking hs v hv).resolve_left (by simp [hempty])
  exact hchecked.mono fun u hu => .inr hu

/-! ## Iterations -/

/-- The values in one iteration.  The operators and casts of the loop compute theirs of the values
of their operands. -/
structure IterationValues (fn : PeriodicFunction V B) (loopStructure : LoopStructure F B)
    (values : V → Nat) : Prop where
  constant : ∀ v c, fn.constantInt v = some c → values v = c.value.toNat
  fits : ∀ v w, fn.type v = .integerTy w → values v < 2 ^ w
  computes : ∀ v, isInLoop fn loopStructure v = true → fn.isPHINode v = false →
    ∃ oracle, values v = fn.valueOf v oracle ((fn.operands v).map values)

/-- Two iterations of one execution of the loop: what is not an instruction of the loop has the same
value in both. -/
structure TwoIterations (fn : PeriodicFunction V B) (loopStructure : LoopStructure F B)
    (ρ ρ' : V → Nat) : Prop where
  first : IterationValues fn loopStructure ρ
  second : IterationValues fn loopStructure ρ'
  agree : ∀ v, isInLoop fn loopStructure v = false → ρ v = ρ' v

structure IsOperator (fn : PeriodicFunction V B) (loopStructure : LoopStructure F B) (v : V) (op : Opcode)
    (a b : V) (w : Nat) : Prop where
  inLoop : isInLoop fn loopStructure v = true
  kind : fn.kind v = .binaryOperator op a b
  type : fn.type v = .integerTy w

structure IsIntegerCast (fn : PeriodicFunction V B) (loopStructure : LoopStructure F B) (v : V)
    (op : CastOpcode) (a : V) (w w' : Nat) : Prop where
  inLoop : isInLoop fn loopStructure v = true
  kind : fn.kind v = .castInst op a
  type : fn.type v = .integerTy w
  operandType : fn.type a = .integerTy w'

/-- Values that are the same in every iteration: those from outside the loop and what is computed of
them. -/
inductive IsInvariant (fn : PeriodicFunction V B) (loopStructure : LoopStructure F B) : V → Prop
  | external {v : V} : isInLoop fn loopStructure v = false → IsInvariant fn loopStructure v
  | operator {v a b : V} {op : Opcode} {w : Nat} : IsOperator fn loopStructure v op a b w →
      isOneToOneOperation fn v = true → IsInvariant fn loopStructure a →
        IsInvariant fn loopStructure b → IsInvariant fn loopStructure v
  | castInst {v a : V} {op : CastOpcode} {w w' : Nat} : IsIntegerCast fn loopStructure v op a w w' →
      op ≠ .otherCast → IsInvariant fn loopStructure a → IsInvariant fn loopStructure v

/-! ## The difference of two values -/

/-- The value moves by `a` when the induction variable moves by one, as far as its last `p` bits
tell; `values` are those of the factors. -/
inductive MovesBy (fn : PeriodicFunction V B) (loopStructure : LoopStructure F B)
    (iv : InductionVariable V) (values : V → Nat) : V → Int → Nat → Prop
  | loopEntryPHI {p : Nat} : MovesBy fn loopStructure iv values iv.getLoopEntryPHI 1 p
  | invariant {v : V} {p : Nat} : IsInvariant fn loopStructure v →
      MovesBy fn loopStructure iv values v 0 p
  | forget {v : V} {a : Int} {p q : Nat} : MovesBy fn loopStructure iv values v a p → q ≤ p →
      MovesBy fn loopStructure iv values v a q
  | add {v x y : V} {a b : Int} {w p : Nat} : IsOperator fn loopStructure v .add x y w →
      MovesBy fn loopStructure iv values x a p → MovesBy fn loopStructure iv values y b p → p ≤ w →
        MovesBy fn loopStructure iv values v (a + b) p
  | sub {v x y : V} {a b : Int} {w p : Nat} : IsOperator fn loopStructure v .sub x y w →
      MovesBy fn loopStructure iv values x a p → MovesBy fn loopStructure iv values y b p → p ≤ w →
        MovesBy fn loopStructure iv values v (a - b) p
  | mul_left {v c x : V} {a : Int} {w p q t : Nat} : IsOperator fn loopStructure v .mul c x w →
      IsInvariant fn loopStructure c → MovesBy fn loopStructure iv values x a p →
        2 ^ t ∣ values c → q ≤ p + t → q ≤ w →
          MovesBy fn loopStructure iv values v (values c * a) q
  | mul_right {v c x : V} {a : Int} {w p q t : Nat} : IsOperator fn loopStructure v .mul x c w →
      IsInvariant fn loopStructure c → MovesBy fn loopStructure iv values x a p →
        2 ^ t ∣ values c → q ≤ p + t → q ≤ w →
          MovesBy fn loopStructure iv values v (values c * a) q
  | trunc {v x : V} {a : Int} {w w' p : Nat} : IsIntegerCast fn loopStructure v .trunc x w w' →
      MovesBy fn loopStructure iv values x a p → p ≤ w → MovesBy fn loopStructure iv values v a p
  | zext {v x : V} {a : Int} {w w' p : Nat} : IsIntegerCast fn loopStructure v .zext x w w' →
      MovesBy fn loopStructure iv values x a p → p ≤ w → MovesBy fn loopStructure iv values v a p
  | sext {v x : V} {a : Int} {w w' p : Nat} : IsIntegerCast fn loopStructure v .sext x w w' →
      MovesBy fn loopStructure iv values x a p → p ≤ w → p ≤ w' →
        MovesBy fn loopStructure iv values v a p

section Values

variable {ρ ρ' : V → Nat} {v a b : V} {w w' : Nat}

section

omit [DecidableEq V]

section

variable (hρ : IterationValues fn loopStructure ρ)

include hρ

theorem IterationValues.operator {op : Opcode} (h : IsOperator fn loopStructure v op a b w)
    {f : BitVec w → BitVec w → BitVec w} (hop : op.integerOp = some f) :
    ρ v = (f (BitVec.ofNat w (ρ a)) (BitVec.ofNat w (ρ b))).toNat := by
  have hphi : fn.isPHINode v = false := by simp [EvolutionFunction.isPHINode, h.kind]
  obtain ⟨oracle, hv⟩ := hρ.computes v h.inLoop hphi
  simpa [EvolutionFunction.valueOf, EvolutionFunction.operands, h.kind, h.type, hop] using hv

theorem IterationValues.setWidth {op : CastOpcode} (h : IsIntegerCast fn loopStructure v op a w w')
    (hop : op = .trunc ∨ op = .zext) :
    ρ v = ((BitVec.ofNat w' (ρ a)).setWidth w).toNat := by
  have hphi : fn.isPHINode v = false := by simp [EvolutionFunction.isPHINode, h.kind]
  obtain ⟨oracle, hv⟩ := hρ.computes v h.inLoop hphi
  cases hop with
  | inl heq =>
      subst heq
      simpa [EvolutionFunction.valueOf, EvolutionFunction.operands, h.kind, h.type, h.operandType]
        using hv
  | inr heq =>
      subst heq
      simpa [EvolutionFunction.valueOf, EvolutionFunction.operands, h.kind, h.type, h.operandType]
        using hv

theorem IterationValues.signExtend (h : IsIntegerCast fn loopStructure v .sext a w w') :
    ρ v = ((BitVec.ofNat w' (ρ a)).signExtend w).toNat := by
  have hphi : fn.isPHINode v = false := by simp [EvolutionFunction.isPHINode, h.kind]
  obtain ⟨oracle, hv⟩ := hρ.computes v h.inLoop hphi
  simpa [EvolutionFunction.valueOf, EvolutionFunction.operands, h.kind, h.type, h.operandType]
    using hv

end

/-- The opcodes that the function accepts are those of the additions, subtractions and products. -/
theorem IsOperator.opcode {op : Opcode} (h : IsOperator fn loopStructure v op a b w)
    (haccepted : isOneToOneOperation fn v = true) : op = .add ∨ op = .sub ∨ op = .mul := by
  unfold isOneToOneOperation at haccepted
  rw [h.kind] at haccepted
  cases op <;> simp_all

section

variable (h : TwoIterations fn loopStructure ρ ρ')

include h

theorem TwoIterations.cast_eq {op : CastOpcode} (hcast : IsIntegerCast fn loopStructure v op a w w')
    (hop : op ≠ .otherCast) (heq : ρ a = ρ' a) :
    ρ v = ρ' v := by
  cases op with
  | trunc => rw [h.first.setWidth hcast (.inl rfl), h.second.setWidth hcast (.inl rfl), heq]
  | zext => rw [h.first.setWidth hcast (.inr rfl), h.second.setWidth hcast (.inr rfl), heq]
  | sext => rw [h.first.signExtend hcast, h.second.signExtend hcast, heq]
  | otherCast => exact absurd rfl hop

theorem TwoIterations.operator_eq {op : Opcode} (hop : IsOperator fn loopStructure v op a b w)
    (haccepted : isOneToOneOperation fn v = true) (ha : ρ a = ρ' a)
    (hb : ρ b = ρ' b) : ρ v = ρ' v := by
  rcases hop.opcode haccepted with rfl | rfl | rfl
  · rw [h.first.operator hop rfl, h.second.operator hop rfl, ha, hb]
  · rw [h.first.operator hop rfl, h.second.operator hop rfl, ha, hb]
  · rw [h.first.operator hop rfl, h.second.operator hop rfl, ha, hb]

theorem TwoIterations.invariant_eq (hv : IsInvariant fn loopStructure v) : ρ v = ρ' v := by
  induction hv with
  | external hout => exact h.agree _ hout
  | operator hop haccepted _ _ iha ihb => exact h.operator_eq hop haccepted iha ihb
  | castInst hcast hop _ iha => exact h.cast_eq hcast hop iha

/-- In two iterations a value differs as far as it moved. -/
theorem TwoIterations.differsBy {m : Int} {p : Nat} (hv : MovesBy fn loopStructure iv ρ v m p) :
    DiffersBy p m ((ρ iv.getLoopEntryPHI : Int) - ρ' iv.getLoopEntryPHI) (ρ v) (ρ' v) := by
  induction hv with
  | loopEntryPHI =>
      rw [DiffersBy, one_mul]
  | @invariant v p hv =>
      rw [h.invariant_eq hv]
      exact DiffersBy.refl _ _ _
  | forget _ hq ih => exact ih.mono hq
  | add hop _ _ hp iha ihb =>
      rw [h.first.operator hop rfl, h.second.operator hop rfl]
      exact iha.add ihb hp
  | sub hop _ _ hp iha ihb =>
      rw [h.first.operator hop rfl, h.second.operator hop rfl]
      exact iha.sub ihb hp
  | mul_left hop hc _ hdvd hq hw ih =>
      rw [h.first.operator hop rfl, h.second.operator hop rfl, ← h.invariant_eq hc]
      exact ih.mul_left _ hdvd hq hw
  | mul_right hop hc _ hdvd hq hw ih =>
      rw [h.first.operator hop rfl, h.second.operator hop rfl, ← h.invariant_eq hc,
        mul_comm (BitVec.ofNat _ (ρ _)), mul_comm (BitVec.ofNat _ (ρ' _))]
      exact ih.mul_left _ hdvd hq hw
  | trunc hcast _ hp ih =>
      rw [h.first.setWidth hcast (.inl rfl), h.second.setWidth hcast (.inl rfl)]
      exact ih.setWidth (h.first.fits _ _ hcast.operandType) (h.second.fits _ _ hcast.operandType) hp
  | zext hcast _ hp ih =>
      rw [h.first.setWidth hcast (.inr rfl), h.second.setWidth hcast (.inr rfl)]
      exact ih.setWidth (h.first.fits _ _ hcast.operandType) (h.second.fits _ _ hcast.operandType) hp
  | sext hcast _ hp hp' ih =>
      rw [h.first.signExtend hcast, h.second.signExtend hcast]
      exact ih.signExtend hp hp'

end

end

end Values

/-! ## When the difference is exact -/

/-- Sums, differences, invariant multiples and truncations of the induction variable, which may be
extended by zeros before: nothing is extended after it may have wrapped around. -/
inductive IsLinear (fn : PeriodicFunction V B) (loopStructure : LoopStructure F B)
    (iv : InductionVariable V) : V → Prop
  | loopEntryPHI {w : Nat} : fn.type iv.getLoopEntryPHI = .integerTy w →
      IsLinear fn loopStructure iv iv.getLoopEntryPHI
  | invariant {v : V} : IsInvariant fn loopStructure v → IsLinear fn loopStructure iv v
  | zext {v : V} {w w' : Nat} : IsIntegerCast fn loopStructure v .zext iv.getLoopEntryPHI w w' →
      IsLinear fn loopStructure iv v
  | add {v a b : V} {w : Nat} : IsOperator fn loopStructure v .add a b w →
      IsLinear fn loopStructure iv a → IsLinear fn loopStructure iv b → IsLinear fn loopStructure iv v
  | sub {v a b : V} {w : Nat} : IsOperator fn loopStructure v .sub a b w →
      IsLinear fn loopStructure iv a → IsLinear fn loopStructure iv b → IsLinear fn loopStructure iv v
  | mul_left {v c a : V} {w : Nat} : IsOperator fn loopStructure v .mul c a w →
      IsInvariant fn loopStructure c → IsLinear fn loopStructure iv a → IsLinear fn loopStructure iv v
  | mul_right {v c a : V} {w : Nat} : IsOperator fn loopStructure v .mul a c w →
      IsInvariant fn loopStructure c → IsLinear fn loopStructure iv a → IsLinear fn loopStructure iv v
  | trunc {v a : V} {w w' : Nat} : IsIntegerCast fn loopStructure v .trunc a w w' → w ≤ w' →
      IsLinear fn loopStructure iv a → IsLinear fn loopStructure iv v

/-- Besides that, any operations and integer casts of which one operand varies.  The operators are
restricted by the walk, except those of the induction variable. -/
inductive HasOneVaryingOperand (fn : PeriodicFunction V B) (loopStructure : LoopStructure F B)
    (iv : InductionVariable V) : V → Prop
  | linear {v : V} : IsLinear fn loopStructure iv v → HasOneVaryingOperand fn loopStructure iv v
  | castInst {v a : V} {op : CastOpcode} {w w' : Nat} : IsIntegerCast fn loopStructure v op a w w' →
      op ≠ .otherCast → (iv.isIVInstruction v = true → IsLinear fn loopStructure iv a) →
        HasOneVaryingOperand fn loopStructure iv a → HasOneVaryingOperand fn loopStructure iv v
  | left {v a c : V} {op : Opcode} {w : Nat} : IsOperator fn loopStructure v op a c w →
      iv.isIVInstruction v = false → IsInvariant fn loopStructure c →
        HasOneVaryingOperand fn loopStructure iv a → HasOneVaryingOperand fn loopStructure iv v
  | right {v c a : V} {op : Opcode} {w : Nat} : IsOperator fn loopStructure v op c a w →
      iv.isIVInstruction v = false → IsInvariant fn loopStructure c →
        HasOneVaryingOperand fn loopStructure iv a → HasOneVaryingOperand fn loopStructure iv v

section Exact

variable {ρ ρ' : V → Nat} {v a b : V} {w w' : Nat}

omit [DecidableEq V] in
/-- A linear value moves by the same amount in every iteration. -/
theorem IsLinear.movesBy (h : IsLinear fn loopStructure iv v) (ρ : V → Nat) :
    ∀ w, fn.type v = .integerTy w → ∃ m, MovesBy fn loopStructure iv ρ v m w := by
  induction h with
  | loopEntryPHI _ => exact fun w _ => ⟨1, .loopEntryPHI⟩
  | invariant hv => exact fun w _ => ⟨0, .invariant hv⟩
  | zext hcast =>
      intro w hw
      obtain rfl := ValueType.integerTy.inj (hcast.type.symm.trans hw)
      exact ⟨1, .zext hcast .loopEntryPHI le_rfl⟩
  | add hop _ _ iha ihb =>
      intro w hw
      obtain rfl := ValueType.integerTy.inj (hop.type.symm.trans hw)
      obtain ⟨ha, hb⟩ := fn.operator_type _ _ _ _ hop.kind
      obtain ⟨m, hm⟩ := iha _ (ha.trans hw)
      obtain ⟨n, hn⟩ := ihb _ (hb.trans hw)
      exact ⟨m + n, .add hop hm hn le_rfl⟩
  | sub hop _ _ iha ihb =>
      intro w hw
      obtain rfl := ValueType.integerTy.inj (hop.type.symm.trans hw)
      obtain ⟨ha, hb⟩ := fn.operator_type _ _ _ _ hop.kind
      obtain ⟨m, hm⟩ := iha _ (ha.trans hw)
      obtain ⟨n, hn⟩ := ihb _ (hb.trans hw)
      exact ⟨m - n, .sub hop hm hn le_rfl⟩
  | @mul_left v c x w' hop hc _ ih =>
      intro w hw
      obtain rfl := ValueType.integerTy.inj (hop.type.symm.trans hw)
      obtain ⟨m, hm⟩ := ih _ ((fn.operator_type _ _ _ _ hop.kind).2.trans hw)
      exact ⟨ρ c * m, .mul_left hop hc hm (pow_zero 2 ▸ one_dvd _) le_rfl le_rfl⟩
  | @mul_right v c x w' hop hc _ ih =>
      intro w hw
      obtain rfl := ValueType.integerTy.inj (hop.type.symm.trans hw)
      obtain ⟨m, hm⟩ := ih _ ((fn.operator_type _ _ _ _ hop.kind).1.trans hw)
      exact ⟨ρ c * m, .mul_right hop hc hm (pow_zero 2 ▸ one_dvd _) le_rfl le_rfl⟩
  | trunc hcast hle _ ih =>
      intro w hw
      obtain rfl := ValueType.integerTy.inj (hcast.type.symm.trans hw)
      obtain ⟨m, hm⟩ := ih _ hcast.operandType
      exact ⟨m, .trunc hcast (hm.forget hle) le_rfl⟩

omit [DecidableEq V] in
theorem IsLinear.type_or_invariant (h : IsLinear fn loopStructure iv v) :
    (∃ w, fn.type v = .integerTy w) ∨ IsInvariant fn loopStructure v := by
  cases h with
  | loopEntryPHI hw => exact .inl ⟨_, hw⟩
  | invariant hv => exact .inr hv
  | zext hcast | trunc hcast _ _ => exact .inl ⟨_, hcast.type⟩
  | add hop _ _ | sub hop _ _ | mul_left hop _ _ | mul_right hop _ _ => exact .inl ⟨_, hop.type⟩

/-- The two values of the induction variable tell those of `v` apart: their difference, times what
the value moves by, is not zero in the last bits that are known. -/
def ToldApart (fn : PeriodicFunction V B) (loopStructure : LoopStructure F B)
    (iv : InductionVariable V) (ρ ρ' : V → Nat) (v : V) : Prop :=
  ∃ m p, MovesBy fn loopStructure iv ρ v m p ∧
    TellsApart p m ((ρ iv.getLoopEntryPHI : Int) - ρ' iv.getLoopEntryPHI)

section

omit [DecidableEq V]

section

variable (h : TwoIterations fn loopStructure ρ ρ')

include h

theorem ToldApart.ne (hv : ToldApart fn loopStructure iv ρ ρ' v) : ρ v ≠ ρ' v := by
  obtain ⟨m, p, hmoves, hapart⟩ := hv
  exact (h.differsBy hmoves).ne hapart

theorem TwoIterations.tellsApart {m : Int} (hv : MovesBy fn loopStructure iv ρ v m w)
    (htype : fn.type v = .integerTy w) (hne : ρ v ≠ ρ' v) :
    TellsApart w m ((ρ iv.getLoopEntryPHI : Int) - ρ' iv.getLoopEntryPHI) := by
  by_contra hnot
  exact hne ((h.differsBy hv).eq_of_not_tellsApart hnot (h.first.fits v w htype)
    (h.second.fits v w htype))

theorem ToldApart.exists_le (hv : ToldApart fn loopStructure iv ρ ρ' v)
    (htype : fn.type v = .integerTy w) :
    ∃ m p, p ≤ w ∧ MovesBy fn loopStructure iv ρ v m p ∧
      TellsApart p m ((ρ iv.getLoopEntryPHI : Int) - ρ' iv.getLoopEntryPHI) := by
  have hne := hv.ne h
  obtain ⟨m, p, hmoves, hapart⟩ := hv
  cases Nat.le_total p w with
  | inl hle => exact ⟨m, p, hle, hmoves, hapart⟩
  | inr hle =>
      have hmoves := hmoves.forget hle
      exact ⟨m, w, le_rfl, hmoves, h.tellsApart hmoves htype hne⟩

theorem IsLinear.toldApart (hv : IsLinear fn loopStructure iv v) (hne : ρ v ≠ ρ' v) :
    ToldApart fn loopStructure iv ρ ρ' v := by
  cases hv.type_or_invariant with
  | inl htype =>
      obtain ⟨w, hw⟩ := htype
      obtain ⟨m, hm⟩ := hv.movesBy ρ w hw
      exact ⟨m, w, hm, h.tellsApart hm hw hne⟩
  | inr hinv => exact absurd (h.invariant_eq hinv) hne

theorem ToldApart.castInst (ha : ToldApart fn loopStructure iv ρ ρ' a) {op : CastOpcode}
    (hcast : IsIntegerCast fn loopStructure v op a w w') (hop : op ≠ .otherCast)
    (hne : ρ v ≠ ρ' v) :
    ToldApart fn loopStructure iv ρ ρ' v := by
  obtain ⟨m, p, hp, hmoves, hapart⟩ := ha.exists_le h hcast.operandType
  have hcasts : ∀ q, q ≤ p → q ≤ w → MovesBy fn loopStructure iv ρ v m q := by
    intro q hq hw
    cases op with
    | trunc => exact .trunc hcast (hmoves.forget hq) hw
    | zext => exact .zext hcast (hmoves.forget hq) hw
    | sext => exact .sext hcast (hmoves.forget hq) hw (hq.trans hp)
    | otherCast => exact absurd rfl hop
  cases Nat.le_total p w with
  | inl hle => exact ⟨m, p, hcasts p le_rfl hle, hapart⟩
  | inr hle =>
      have hv := hcasts w hle le_rfl
      exact ⟨m, w, hv, h.tellsApart hv hcast.type hne⟩

theorem ToldApart.mul
    (ha : ToldApart fn loopStructure iv ρ ρ' a) (htype : fn.type v = .integerTy w) {c : Nat}
    (hc : c ≠ 0) (hmul : ∀ m p q t, MovesBy fn loopStructure iv ρ a m p → 2 ^ t ∣ c → q ≤ p + t →
      q ≤ w → MovesBy fn loopStructure iv ρ v (c * m) q)
    (hne : ρ v ≠ ρ' v) : ToldApart fn loopStructure iv ρ ρ' v := by
  obtain ⟨m, p, hmoves, hapart⟩ := ha
  obtain ⟨t, k, hodd, rfl⟩ := Nat.exists_eq_two_pow_mul_odd hc
  have hdvd : 2 ^ t ∣ 2 ^ t * k := Nat.dvd_mul_right _ _
  cases Nat.le_total (p + t) w with
  | inl hle => exact ⟨_, p + t, hmul m p _ t hmoves hdvd le_rfl hle, hapart.mul hodd⟩
  | inr hle =>
      have hv := hmul m p w t hmoves hdvd hle le_rfl
      exact ⟨_, w, hv, h.tellsApart hv htype hne⟩

/-- An accepted operation on a value that is told apart and an invariant, if it has not merged the
two values. -/
theorem ToldApart.left (ha : ToldApart fn loopStructure iv ρ ρ' a) {c : V} {op : Opcode}
    (hop : IsOperator fn loopStructure v op a c w) (haccepted : isOneToOneOperation fn v = true)
    (hc : IsInvariant fn loopStructure c) (hne : ρ v ≠ ρ' v) :
    ToldApart fn loopStructure iv ρ ρ' v := by
  have htype : fn.type a = .integerTy w := (fn.operator_type _ _ _ _ hop.kind).1.trans hop.type
  obtain ⟨m, p, hp, hmoves, hapart⟩ := ha.exists_le h htype
  rcases hop.opcode haccepted with rfl | rfl | rfl
  · exact ⟨_, p, .add hop hmoves (.invariant hc) hp, by rwa [add_zero]⟩
  · exact ⟨_, p, .sub hop hmoves (.invariant hc) hp, by rwa [sub_zero]⟩
  · refine ha.mul h hop.type (fun hzero => hne ?_)
      (fun _ _ _ _ hmoves => MovesBy.mul_right hop hc hmoves) hne
    rw [h.first.operator hop rfl, h.second.operator hop rfl, ← h.invariant_eq hc, hzero]
    simp

theorem ToldApart.right (ha : ToldApart fn loopStructure iv ρ ρ' a) {c : V} {op : Opcode}
    (hop : IsOperator fn loopStructure v op c a w) (haccepted : isOneToOneOperation fn v = true)
    (hc : IsInvariant fn loopStructure c) (hne : ρ v ≠ ρ' v) :
    ToldApart fn loopStructure iv ρ ρ' v := by
  have htype : fn.type a = .integerTy w := (fn.operator_type _ _ _ _ hop.kind).2.trans hop.type
  obtain ⟨m, p, hp, hmoves, hapart⟩ := ha.exists_le h htype
  rcases hop.opcode haccepted with rfl | rfl | rfl
  · exact ⟨_, p, .add hop (.invariant hc) hmoves hp, by rwa [zero_add]⟩
  · refine ⟨_, p, .sub hop (.invariant hc) hmoves hp, ?_⟩
    rwa [TellsApart, zero_sub, neg_mul, dvd_neg]
  · refine ha.mul h hop.type (fun hzero => hne ?_)
      (fun _ _ _ _ hmoves => MovesBy.mul_left hop hc hmoves) hne
    rw [h.first.operator hop rfl, h.second.operator hop rfl, ← h.invariant_eq hc, hzero]
    simp

end

end

/-- One operand that varies tells two iterations apart. -/
theorem HasOneVaryingOperand.toldApart (h : TwoIterations fn loopStructure ρ ρ') {met : V → Prop}
    (hchecked : ∀ v, met v → Checked fn loopStructure iv met v)
    (hv : HasOneVaryingOperand fn loopStructure iv v) (hmet : met v) (hne : ρ v ≠ ρ' v) :
    ToldApart fn loopStructure iv ρ ρ' v := by
  -- the walk goes on to an operand that varies
  have hoperand : ∀ u a, met u → iv.isIVInstruction u = false → a ∈ fn.operands u → ρ a ≠ ρ' a →
      met a := by
    intro u a hu hnot ha hne
    refine (hchecked u hu hnot).2 a ha ?_ ?_
    · by_contra hsome
      obtain ⟨c, hc⟩ := ne_none_iff_exists'.mp hsome
      exact hne ((h.first.constant a c hc).trans (h.second.constant a c hc).symm)
    · by_contra hout
      exact hne (h.agree a (by simpa using hout))
  induction hv with
  | linear hlin => exact hlin.toldApart h hne
  | @castInst v a op w w' hcast hop hlin hone ih =>
      have hne' : ρ a ≠ ρ' a := fun heq => hne (h.cast_eq hcast hop heq)
      refine ToldApart.castInst h ?_ hcast hop hne
      cases hiv : iv.isIVInstruction v with
      | true => exact (hlin hiv).toldApart h hne'
      | false =>
          have hmem : a ∈ fn.operands v := by simp [EvolutionFunction.operands, hcast.kind]
          exact ih (hoperand v a hmet hiv hmem hne') hne'
  | @left v a c op w hop hiv hc hone ih =>
      have haccepted := (hchecked v hmet hiv).1
      have hne' : ρ a ≠ ρ' a := fun heq =>
        hne (h.operator_eq hop haccepted heq (h.invariant_eq hc))
      have hmem : a ∈ fn.operands v := by simp [EvolutionFunction.operands, hop.kind]
      exact (ih (hoperand v a hmet hiv hmem hne') hne').left h hop haccepted hc hne
  | @right v c a op w hop hiv hc hone ih =>
      have haccepted := (hchecked v hmet hiv).1
      have hne' : ρ a ≠ ρ' a := fun heq =>
        hne (h.operator_eq hop haccepted (h.invariant_eq hc) heq)
      have hmem : a ∈ fn.operands v := by simp [EvolutionFunction.operands, hop.kind]
      exact (ih (hoperand v a hmet hiv hmem hne') hne').right h hop haccepted hc hne

end Exact

/-! ## The result -/

/-- `i = phi [0, preheader], [next, latch]; next = add i, 1; product = mul i, factor`, on 8 bits. -/
inductive ScaledValue
  | i
  | next
  | product
  | zero
  | one
  | factor
  deriving DecidableEq

/-- The loop that multiplies its variable by a constant. -/
def scaled (c : BitVec 8) : PeriodicFunction ScaledValue Bool where
  kind
    | .i => .phiNode [(false, .zero), (true, .next)]
    | .next => .binaryOperator .add .i .one
    | .product => .binaryOperator .mul .i .factor
    | _ => .noInstruction
  type _ := .integerTy 8
  users _ := []
  getParent _ := true
  isReassociable _ := false
  constantInt
    | .zero => some ⟨8, 0⟩
    | .one => some ⟨8, 1⟩
    | .factor => some ⟨8, c⟩
    | _ => none
  constant_kind v c := by cases v <;> simp
  constant_type v c' := by
    cases v with
    | zero | one | factor =>
        intro h
        cases h
        rfl
    | _ => exact fun h => absurd h.symm (some_ne_none c')
  phi_type _ _ _ _ _ := rfl
  operator_type _ _ _ _ _ := ⟨rfl, rfl⟩

def scaledLoop : LoopStructure Unit Bool := ⟨0, (), true, 1, PtrSet.ofList [true]⟩

def scaledIV : InductionVariable ScaledValue where
  getLoopEntryPHI := .i
  getAllInstructions := PtrSet.ofList [.i, .next]
  getDerivedSCEVInstructions := PtrSet.ofList [.product]
  loopEntryPHI_mem := by decide

def scaledValues (c n : BitVec 8) : ScaledValue → Nat
  | .i => n.toNat
  | .next => (n + 1).toNat
  | .product => (n * c).toNat
  | .zero => 0
  | .one => 1
  | .factor => c.toNat

theorem scaledValues_iteration (c n : BitVec 8) :
    IterationValues (scaled c) scaledLoop (scaledValues c n) where
  constant v c' h := by
    cases v with
    | zero | one | factor =>
        cases h
        rfl
    | _ => exact absurd h.symm (some_ne_none c')
  fits v w h := by
    obtain rfl := ValueType.integerTy.inj h
    cases v with
    | i | next | product | factor => exact BitVec.isLt _
    | zero | one => simp [scaledValues]
  computes v hin hphi := by
    cases v with
    | next | product =>
        refine ⟨fun _ => 0, ?_⟩
        simp [EvolutionFunction.valueOf, EvolutionFunction.operands, scaled, scaledValues,
          Opcode.integerOp]
    | i => exact absurd hphi.symm Bool.false_ne_true
    | zero | one | factor => exact absurd hin Bool.false_ne_true

theorem scaledValues_twoIterations (c n n' : BitVec 8) :
    TwoIterations (scaled c) scaledLoop (scaledValues c n) (scaledValues c n') where
  first := scaledValues_iteration c n
  second := scaledValues_iteration c n'
  agree v h := by
    cases v with
    | i | next | product => nomatch h.symm
    | zero | one | factor => rfl

/-- Three times the difference of the variable is known modulo the size of its type. -/
theorem timesThree_toldApart :
    ToldApart (scaled 3) scaledLoop scaledIV (scaledValues 3 0) (scaledValues 3 128) .product := by
  have hop : IsOperator (scaled 3) scaledLoop .product .mul .i .factor 8 := ⟨rfl, rfl, rfl⟩
  have hdvd : 2 ^ 0 ∣ scaledValues 3 0 .factor := one_dvd _
  have hphi : MovesBy (scaled 3) scaledLoop scaledIV (scaledValues 3 0) .i 1 8 := .loopEntryPHI
  exact ⟨_, 8, .mul_right hop (.external rfl) hphi hdvd le_rfl le_rfl, by decide⟩

/-- **One-to-one functions of the induction variable**: where the function returns true, the value is
different in two iterations with different values of the induction variable if these tell it apart,
and if each operation has one varying operand only if they do. -/
theorem isOneToOneFunctionOnIV_differs_iff {derivedInstruction : V} {fuel : Nat}
    (htrue : isOneToOneFunctionOnIV fn loopStructure iv derivedInstruction fuel = some true) :
    ∀ ρ ρ', TwoIterations fn loopStructure ρ ρ' → ρ iv.getLoopEntryPHI ≠ ρ' iv.getLoopEntryPHI →
      (ToldApart fn loopStructure iv ρ ρ' derivedInstruction →
        ρ derivedInstruction ≠ ρ' derivedInstruction) ∧
      (HasOneVaryingOperand fn loopStructure iv derivedInstruction →
        ρ derivedInstruction ≠ ρ' derivedInstruction →
          ToldApart fn loopStructure iv ρ ρ' derivedInstruction) := by
  intro ρ ρ' h _
  obtain ⟨met, hmet, hchecked⟩ := isOneToOneFunctionOnIV_checked htrue
  exact ⟨fun hapart => hapart.ne h, fun hone hne => hone.toldApart h hchecked hmet hne⟩

/-- The variable times three. -/
theorem isOneToOneFunctionOnIV_differs_iff_timesThree :
    isOneToOneFunctionOnIV (scaled 3) scaledLoop scaledIV .product 5 = some true ∧
      scaledValues 3 0 .product ≠ scaledValues 3 128 .product :=
  have htrue : isOneToOneFunctionOnIV (scaled 3) scaledLoop scaledIV .product 5 = some true := by
    decide
  ⟨htrue, (isOneToOneFunctionOnIV_differs_iff htrue _ _ (scaledValues_twoIterations 3 0 128)
    (by decide)).1 timesThree_toldApart⟩

/-- The variable times two has one value for zero and half of the range. -/
theorem isOneToOneFunctionOnIV_timesTwo :
    isOneToOneFunctionOnIV (scaled 2) scaledLoop scaledIV .product 5 = some true ∧
      TwoIterations (scaled 2) scaledLoop (scaledValues 2 0) (scaledValues 2 128) ∧
      scaledValues 2 0 .i ≠ scaledValues 2 128 .i ∧
      scaledValues 2 0 .product = scaledValues 2 128 .product :=
  ⟨by decide, scaledValues_twoIterations 2 0 128, by decide, by decide⟩

end LoopIterationSpaceAnalysis

end Noelle
