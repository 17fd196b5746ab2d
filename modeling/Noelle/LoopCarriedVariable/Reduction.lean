import Noelle.LoopCarriedVariable.Iterations

/-!
# LoopCarriedVariable.Reduction

Reducible variables evolve by one associative and commutative operator, and what has to hold
besides the checks for it.

`accepted_spec` is what the checks establish.  They do not look at how often the variable occurs in
an update, at the width of the casts, at loads through the variable, or at values that depend on it
without being in its component; and the identity of `and` is the one of a single bit.
`PlainReduction` excludes these, and `reduction_sound` is the result: an iteration applies the
operator to the variable and to a value that does not depend on it, and the partial results of any
distribution of the iterations combine to the sequential value.
-/

namespace Noelle

open Function List Option

namespace LoopCarriedVariable

variable {F V B : Type} [DecidableEq V] {fn : EvolutionFunction V B}

/-! ## What the checks establish -/

section Checks

omit [DecidableEq V] in
theorem usesOf_eq_nil {p : V → Bool} {v : V} :
    EvolutionUpdate.usesOf fn p v = [] ↔ ∀ s ∈ fn.operands v, p s = false := by
  have hzip : ∀ (l : List V) (n : Nat), (∀ use ∈ l.zipIdx n, p use.1 = false) ↔ ∀ s ∈ l, p s = false := by
    intro l
    induction l with
    | nil => simp
    | cons a l ih =>
        intro n
        rw [zipIdx_cons, forall_mem_cons, forall_mem_cons, ih]
  unfold EvolutionUpdate.usesOf
  rw [map_eq_nil_iff, filter_eq_nil_iff, ← hzip _ 0]
  simp

omit [DecidableEq V] in
theorem isSameOperation_of_commutative {u u' : EvolutionUpdate V}
    (h : u.isTransformablyCommutativeWith fn u' = true) : u.isSameOperation fn u' = true := by
  unfold EvolutionUpdate.isTransformablyCommutativeWith at h
  split at h
  · exact absurd h Bool.false_ne_true
  · exact h

theorem updateInstruction_ofInstruction (scc : SCC V) (v : V) :
    (EvolutionUpdate.ofInstruction fn scc v).updateInstruction = v := by
  unfold EvolutionUpdate.ofInstruction
  split <;> rfl

variable (x : LoopCarriedVariable F V B fn)

def updateOf (v : V) : EvolutionUpdate V :=
  EvolutionUpdate.ofInstruction fn x.sccOfDataAndMemoryVariableValuesOnly v

def IsUpdate (v : V) : Prop :=
  x.isInternal v = true ∧ v ≠ x.declarationValue ∧ fn.isLoadInst v = false ∧ fn.isCastInst v = false

def IsArithmetic (v : V) : Prop :=
  x.IsUpdate v ∧ fn.isPHINode v = false ∧ fn.isSelectInst v = false

variable {x} {ord : IterOrder}

theorem mem_catalogedValues {v : V} : v ∈ x.catalogedValues ord ↔
    x.isInternal v = true ∧ v ≠ x.declarationValue ∧ fn.isLoadInst v = false := by
  unfold catalogedValues isInternal DG.isInternal
  rw [mem_filter, ord.mem_visit, AList.lookup_isSome]
  simp [AList.mem_keys]

theorem mem_variableUpdates {u : EvolutionUpdate V} : u ∈ x.variableUpdates ord ↔
    ∃ v, x.IsUpdate v ∧ x.updateOf v = u := by
  unfold variableUpdates
  rw [List.mem_map]
  refine exists_congr fun v => and_congr_left fun _ => ?_
  rw [List.mem_filter, mem_catalogedValues]
  simp [IsUpdate, and_assoc]

theorem mem_arithmeticUpdates {u : EvolutionUpdate V} : u ∈ x.arithmeticUpdates ord ↔
    ∃ v, x.IsArithmetic v ∧ x.updateOf v = u := by
  unfold arithmeticUpdates
  rw [mem_filter, mem_variableUpdates]
  constructor
  · rintro ⟨⟨v, hv, rfl⟩, hkind⟩
    rw [updateOf, updateInstruction_ofInstruction] at hkind
    exact ⟨v, ⟨hv, by simpa using hkind⟩, rfl⟩
  · rintro ⟨v, ⟨hv, hkind⟩, rfl⟩
    refine ⟨⟨v, hv, rfl⟩, ?_⟩
    rw [updateOf, updateInstruction_ofInstruction]
    simpa using hkind

theorem mem_controlValues_of_select {v condition t f : V} (hv : x.isInternal v = true)
    (hkind : fn.kind v = .selectInst condition t f) :
    condition ∈ x.controlValuesGoverningEvolution ord := by
  obtain ⟨node, hnode, hvalue⟩ : ∃ n ∈ x.sccOfVariableOnly.allNodes, n.theT = v := by
    obtain ⟨p, hp⟩ := isSome_iff_exists.mp (x.data_isInternal v hv)
    obtain ⟨n, hn, _, ht⟩ := x.variable_wf.internal_node v p hp
    exact ⟨n, hn, ht⟩
  unfold controlValuesGoverningEvolution
  rw [mem_flatMap]
  refine ⟨node, (ord.mem_visit).mpr hnode, ?_⟩
  simp [hvalue, hkind]

variable [DecidableEq B] {fuel : Nat}

/-- The checks before the consumers are looked at. -/
structure Accepted (x : LoopCarriedVariable F V B fn) : Prop where
  notOverride : ∀ v, x.IsUpdate v → (x.updateOf v).mayUpdateBeOverride fn = false
  control : ∀ v condition t f, x.isInternal v = true → fn.kind v = .selectInst condition t f →
    x.sccOfVariableOnly.isInternal condition = false
  arithmetic : ∃ v, x.IsArithmetic v
  same : ∀ v w, x.IsArithmetic v → x.IsArithmetic w →
    (x.updateOf v).isSameOperation fn (x.updateOf w) = true

/-- What an accepted variable is made of. -/
theorem accepted_spec (h : x.isEvolutionReducibleAcrossLoopIterations ord fuel = some true) :
    x.Accepted := by
  unfold isEvolutionReducibleAcrossLoopIterations at h
  have hfalse : ¬ (some false = some true) := nofun
  split at h
  · exact absurd h hfalse
  split at h
  · exact absurd h hfalse
  rename_i hcontrol
  split at h
  · exact absurd h hfalse
  rename_i hoverride
  split at h
  · exact absurd h hfalse
  split at h
  · exact absurd h hfalse
  rename_i hnonempty
  split at h
  · exact absurd h hfalse
  rename_i hpairs
  refine ⟨fun v hv => ?_, fun v condition t f hv hkind => ?_, ?_, fun v w hv hw => ?_⟩
  · by_contra hbad
    refine hoverride (any_eq_true.mpr ⟨x.updateOf v, mem_variableUpdates.mpr ⟨v, hv, rfl⟩, ?_⟩)
    simpa using hbad
  · by_contra hbad
    refine hcontrol (any_eq_true.mpr ⟨condition, mem_controlValues_of_select hv hkind, ?_⟩)
    simpa using hbad
  · obtain ⟨u, hu⟩ := exists_mem_of_ne_nil _ (fun hnil => hnonempty (isEmpty_iff.mpr hnil))
    obtain ⟨v, hv, -⟩ := mem_arithmeticUpdates.mp hu
    exact ⟨v, hv⟩
  · by_contra hbad
    refine hpairs (any_eq_true.mpr ⟨x.updateOf v, mem_arithmeticUpdates.mpr ⟨v, hv, rfl⟩,
      any_eq_true.mpr ⟨x.updateOf w, mem_arithmeticUpdates.mpr ⟨w, hw, rfl⟩, ?_⟩⟩)
    rw [Bool.or_eq_true, Bool.not_eq_true', Bool.not_eq_true']
    refine .inl (Bool.eq_false_iff.mpr fun hcomm => hbad ?_)
    exact isSameOperation_of_commutative hcomm

end Checks

/-! ## Accepted variables -/

section Accepted

variable {x : LoopCarriedVariable F V B fn}
variable {v a b : V} {op : Opcode}

theorem isUpdate_of_not_isPHINode (hv : x.isInternal v = true) (hphi : fn.isPHINode v = false)
    (hload : fn.isLoadInst v = false) (hcast : fn.isCastInst v = false) : x.IsUpdate v := by
  refine ⟨hv, ?_, hload, hcast⟩
  rintro rfl
  exact Bool.noConfusion (x.declaration_isPHINode.symm.trans hphi)

/-- No select is accepted: its condition is either external or controls the variable from inside. -/
theorem Accepted.not_select (h : x.Accepted) (hv : x.isInternal v = true) :
    fn.isSelectInst v = false := by
  unfold EvolutionFunction.isSelectInst
  cases hkind : fn.kind v with
  | selectInst condition t f =>
      have hupdate : x.IsUpdate v := isUpdate_of_not_isPHINode hv
        (by simp [EvolutionFunction.isPHINode, hkind])
        (by simp [EvolutionFunction.isLoadInst, hkind])
        (by simp [EvolutionFunction.isCastInst, hkind])
      have hover := h.notOverride v hupdate
      unfold EvolutionUpdate.mayUpdateBeOverride at hover
      rw [updateOf, updateInstruction_ofInstruction, hkind] at hover
      simp only [Bool.not_eq_false', List.isEmpty_iff] at hover
      have huses : EvolutionUpdate.usesOf fn
          (fun w => !x.sccOfDataAndMemoryVariableValuesOnly.isInternal w) v = [] := by
        simpa [EvolutionUpdate.ofInstruction, hkind] using hover
      have hcondition := usesOf_eq_nil.mp huses condition
        (by simp [EvolutionFunction.operands, hkind])
      simp only [Bool.not_eq_false'] at hcondition
      have hin := x.data_isInternal condition hcondition
      exact absurd ((h.control v condition t f hv hkind).symm.trans hin) Bool.false_ne_true
  | _ => rfl

theorem Accepted.phi (h : x.Accepted) (hv : x.isInternal v = true) (hne : v ≠ x.declarationValue)
    (hphi : fn.isPHINode v = true) :
    ∀ s ∈ fn.operands v, x.isInternal s = true := by
  unfold EvolutionFunction.isPHINode at hphi
  cases hkind : fn.kind v with
  | phiNode incoming =>
      have hover := h.notOverride v ⟨hv, hne, by simp [EvolutionFunction.isLoadInst, hkind],
        by simp [EvolutionFunction.isCastInst, hkind]⟩
      unfold EvolutionUpdate.mayUpdateBeOverride at hover
      rw [updateOf, updateInstruction_ofInstruction, hkind] at hover
      simp only [Bool.not_eq_false', List.isEmpty_iff] at hover
      have huses : EvolutionUpdate.usesOf fn
          (fun w => !x.sccOfDataAndMemoryVariableValuesOnly.isInternal w) v = [] := by
        simpa [EvolutionUpdate.ofInstruction, hkind] using hover
      intro s hs
      simpa [isInternal] using usesOf_eq_nil.mp huses s hs
  | _ => simp [hkind] at hphi

theorem Accepted.opcode (h : x.Accepted) (hv : x.IsArithmetic v) :
    ∃ op a b, fn.kind v = .binaryOperator op a b ∧
      (op.isReduction = true ∨ op = .fAdd ∨ op = .fMul) := by
  have hsame := h.same v v hv hv
  unfold EvolutionUpdate.isSameOperation EvolutionUpdate.isBothUpdatesAddOrSub
    EvolutionUpdate.isBothUpdatesMul EvolutionUpdate.isBothUpdatesSameBitwiseLogicalOp
    EvolutionUpdate.isAdd EvolutionUpdate.isMul EvolutionFunction.isBitwiseLogicOp
    EvolutionFunction.binaryOpcode at hsame
  rw [updateOf, updateInstruction_ofInstruction] at hsame
  cases hkind : fn.kind v with
  | binaryOperator op a b =>
      refine ⟨op, a, b, rfl, ?_⟩
      rw [hkind] at hsame
      cases op <;> simp_all [Opcode.isReduction]
  | _ => simp [hkind] at hsame

theorem Accepted.internalOperand (h : x.Accepted) (hv : x.IsArithmetic v)
    (hkind : fn.kind v = .binaryOperator op a b) :
    x.isInternal a = true ∨ x.isInternal b = true := by
  have hover := h.notOverride v hv.1
  unfold EvolutionUpdate.mayUpdateBeOverride at hover
  rw [updateOf, updateInstruction_ofInstruction, hkind] at hover
  by_contra hnone
  rw [not_or, Bool.not_eq_true, Bool.not_eq_true] at hnone
  have huses : EvolutionUpdate.usesOf fn x.sccOfDataAndMemoryVariableValuesOnly.isInternal v = [] := by
    refine usesOf_eq_nil.mpr fun s hs => ?_
    have hs' : s = a ∨ s = b := by simpa [EvolutionFunction.operands, hkind] using hs
    rcases hs' with rfl | rfl
    · exact hnone.1
    · exact hnone.2
  have hempty : (EvolutionUpdate.ofInstruction fn x.sccOfDataAndMemoryVariableValuesOnly
      v).internalValuesUsed = [] := by
    simpa [EvolutionUpdate.ofInstruction, hkind] using huses
  simp [hempty] at hover

theorem Accepted.opcode_eq (h : x.Accepted) {w : V} {op' : Opcode} {a' b' : V}
    (hv : x.IsArithmetic v) (hw : x.IsArithmetic w) (hkind : fn.kind v = .binaryOperator op a b)
    (hkind' : fn.kind w = .binaryOperator op' a' b') (hop : op.isReduction = true)
    (hop' : op'.isReduction = true) : op = op' := by
  have hsame := h.same v w hv hw
  unfold EvolutionUpdate.isSameOperation EvolutionUpdate.isBothUpdatesAddOrSub
    EvolutionUpdate.isBothUpdatesMul EvolutionUpdate.isBothUpdatesSameBitwiseLogicalOp
    EvolutionUpdate.isAdd EvolutionUpdate.isMul EvolutionFunction.isBitwiseLogicOp
    EvolutionFunction.binaryOpcode at hsame
  rw [updateOf, updateOf, updateInstruction_ofInstruction, updateInstruction_ofInstruction, hkind,
    hkind'] at hsame
  cases op <;> first
    | exact absurd hop Bool.false_ne_true
    | (cases op' <;> first
        | rfl
        | exact absurd hop' Bool.false_ne_true
        | simp at hsame)

end Accepted

/-! ## What the checks leave open -/

/-- The variable is a plain reduction: in one iteration it is updated by integer operators on it and
on values that do not depend on it, in no type narrower than its own.  What loads and calls return
is an oracle that comes with the iteration, so it does not depend on the variable. -/
structure PlainReduction (x : LoopCarriedVariable F V B fn) (scc : SCC V) (W : Nat) : Prop where
  /-- Every back edge brings a value of the variable. -/
  latch : ∀ incoming b s, fn.kind x.declarationValue = .phiNode incoming → (b, s) ∈ incoming →
    b ≠ x.preHeader → x.isInternal s = true
  /-- The operators are on integers as wide as the variable or wider. -/
  integer : ∀ v op a b, x.isInternal v = true → fn.kind v = .binaryOperator op a b →
    op ≠ .fAdd ∧ op ≠ .fMul ∧ ∃ w, fn.type v = .integerTy w ∧ W ≤ w
  /-- The casts are between such integers. -/
  cast : ∀ v c a, x.isInternal v = true → fn.kind v = .castInst c a →
    c ≠ .otherCast ∧ ∃ w w', fn.type v = .integerTy w ∧ fn.type a = .integerTy w' ∧ W ≤ w ∧ W ≤ w'
  /-- Nothing is loaded through the variable. -/
  load : ∀ v, x.isInternal v = true → fn.isLoadInst v = false
  /-- An update uses the variable once, or its operator does not count. -/
  once : ∀ v op a b, x.isInternal v = true → fn.kind v = .binaryOperator op a b →
    x.isInternal a = true → x.isInternal b = true → op = .or ∨ op = .and
  /-- The constant for `and` is the identity of one bit. -/
  oneBit : ∀ v a b, x.isInternal v = true → fn.kind v = .binaryOperator .and a b → W = 1
  /-- Other operands are not computed from the variable. -/
  external : ∀ v, x.isInternal v = true → v ≠ x.declarationValue → ∀ s ∈ fn.operands v,
    x.isInternal s = false → ¬ x.Tainted s
  /-- The operators of the component of the loop are updates of the variable. -/
  accumulators : ∀ v ∈ BinaryReductionSCC.collectAccumulators fn scc, x.isInternal v = true

section Soundness

variable {x : LoopCarriedVariable F V B fn} {scc : SCC V} {W : Nat} {ord : IterOrder}

theorem isArithmetic_of_binaryOperator {v : V} {op : Opcode} {a b : V} (hv : x.isInternal v = true)
    (hkind : fn.kind v = .binaryOperator op a b) : x.IsArithmetic v := by
  have hphi : fn.isPHINode v = false := by simp [EvolutionFunction.isPHINode, hkind]
  refine ⟨isUpdate_of_not_isPHINode hv hphi ?_ ?_, hphi, ?_⟩
  · simp [EvolutionFunction.isLoadInst, hkind]
  · simp [EvolutionFunction.isCastInst, hkind]
  · simp [EvolutionFunction.isSelectInst, hkind]

/-- The operation recorded is that of the accumulator, with its identity. -/
theorem reductionOperation_spec (h : x.Accepted) (hplain : x.PlainReduction scc W)
    {reduction : BinaryReductionSCC W}
    (hreduction : BinaryReductionSCC.setBinaryReductionInformation ord fn scc W = some reduction) :
    ∃ o v a b, reduction = ⟨o, AccumulatorOpInfo.generateIdentityFor o W⟩ ∧ o.isReduction = true ∧
      x.IsArithmetic v ∧ fn.kind v = .binaryOperator o a b := by
  obtain ⟨v, hhead, hrest⟩ := bind_eq_some_iff.mp hreduction
  obtain ⟨op, hop, hrest⟩ := bind_eq_some_iff.mp hrest
  obtain ⟨operation, hoperation, hrest⟩ := bind_eq_some_iff.mp hrest
  have hmem : v ∈ BinaryReductionSCC.collectAccumulators fn scc :=
    (ord.mem_visit).mp (mem_of_head? hhead)
  have hv := hplain.accumulators v hmem
  obtain ⟨a, b, hkind⟩ : ∃ a b, fn.kind v = .binaryOperator op a b := by
    unfold EvolutionFunction.binaryOpcode at hop
    cases hk : fn.kind v with
    | binaryOperator op' a b =>
        rw [hk] at hop
        exact ⟨a, b, by rw [some.inj hop]⟩
    | _ => simp [hk] at hop
  have harith := isArithmetic_of_binaryOperator hv hkind
  obtain ⟨op', a', b', hkind', hred⟩ := h.opcode harith
  obtain ⟨rfl, rfl, rfl⟩ : op = op' ∧ a = a' ∧ b = b' := by
    rw [hkind] at hkind'
    exact EvolutionKind.binaryOperator.inj hkind'
  obtain ⟨hfAdd, hfMul, -⟩ := hplain.integer v op a b hv hkind
  have hred : op.isReduction = true := by tauto
  obtain rfl : op = operation := by
    cases op <;> first
      | exact absurd hred Bool.false_ne_true
      | exact some.inj hoperation
  exact ⟨op, v, a, b, (some.inj hrest).symm, hred, harith, hkind⟩

/-- A plain reduction updates its variable by one operation. -/
theorem updatesBy_of_plainReduction (h : x.Accepted) (hplain : x.PlainReduction scc W) {o : Opcode}
    (ho : o.isReduction = true) {v₀ a₀ b₀ : V} (hv₀ : x.IsArithmetic v₀)
    (hkind₀ : fn.kind v₀ = .binaryOperator o a₀ b₀) : x.UpdatesBy W o where
  isReduction := ho
  phi := fun v hv hne hphi => h.phi hv hne hphi
  external := hplain.external
  latch := hplain.latch
  update := fun v hv hphi => by
    cases hcast : fn.isCastInst v with
    | true =>
        right
        unfold EvolutionFunction.isCastInst at hcast
        cases hkind : fn.kind v with
        | castInst c a =>
            obtain ⟨hc, w, w', htype, hsource, hw, hw'⟩ := hplain.cast v c a hv hkind
            exact ⟨c, a, w, w', rfl, hc, hsource, htype, hw, hw', x.cast_operand v c a hv hkind⟩
        | _ => simp [hkind] at hcast
    | false =>
        left
        have hne : v ≠ x.declarationValue := by
          rintro rfl
          exact absurd (x.declaration_isPHINode.symm.trans hphi) nofun
        have harith : x.IsArithmetic v := ⟨⟨hv, hne, hplain.load v hv, hcast⟩, hphi, h.not_select hv⟩
        obtain ⟨op, a, b, hkind, hred⟩ := h.opcode harith
        obtain ⟨hfAdd, hfMul, w, htype, hw⟩ := hplain.integer v op a b hv hkind
        have hred : op.isReduction = true := by tauto
        obtain rfl : op = o := h.opcode_eq harith hv₀ hkind hkind₀ hred ho
        refine ⟨a, b, w, hkind, htype, hw, ?_⟩
        have hsome := h.internalOperand harith hkind
        cases ha : x.isInternal a <;> cases hb : x.isInternal b
        · simp [ha, hb] at hsome
        · exact .inr (.inl ⟨rfl, rfl⟩)
        · exact .inl ⟨rfl, rfl⟩
        · exact .inr (.inr ⟨rfl, rfl, hplain.once v op a b hv hkind ha hb⟩)

/-! ## Partial results -/

/-- The value of the variable after an iteration that starts with the value `p` of it. -/
def valueAfter (x : LoopCarriedVariable F V B fn) (W : Nat) (it : LoopIteration V) (ρ : V → Nat)
    (p : BitVec W) : BitVec W :=
  low W (fn.runIteration it (update ρ x.declarationValue p.toNat) x.declarationValue)

/-- The partial result of a core: its iterations, from the identity. -/
def partialResult (x : LoopCarriedVariable F V B fn) {W : Nat} (e : BitVec W)
    (core : List (LoopIteration V × (V → Nat))) : BitVec W :=
  core.foldl (fun p item => x.valueAfter W item.1 item.2 p) e

theorem low_update (ρ : V → Nat) (p : BitVec W) :
    low W (update ρ x.declarationValue p.toNat x.declarationValue) = p := by
  rw [update_self, low_toNat, BitVec.setWidth_eq]

theorem tainted_declaration : x.Tainted x.declarationValue :=
  DependsOn.of_mem (S := fun v => x.isInternal v = true) x.declaration_isInternal

theorem agreeOff_update {ρ ρ' : V → Nat} (h : AgreeOff x.Tainted ρ ρ') (m n : Nat) :
    AgreeOff x.Tainted (update ρ x.declarationValue m)
      (update ρ' x.declarationValue n) := by
  intro v hv
  have hne : v ≠ x.declarationValue := fun heq => hv (heq ▸ tainted_declaration)
  rw [update_of_ne hne, update_of_ne hne]
  exact h v hv

variable {o : Opcode} {e : BitVec W}

/-- What an iteration makes of the variable: the constant is its result from the identity. -/
theorem valueAfter_eq (hx : x.UpdatesBy W o) (hop : IsReductionOperator (o.combine (w := W)) e)
    {it : LoopIteration V} (hit : x.IsIteration it) {ρ ρ' : V → Nat}
    (hagree : AgreeOff x.Tainted ρ ρ') (p : BitVec W) :
    x.valueAfter W it ρ p = o.combine p (x.valueAfter W it ρ' e) := by
  have heq := runIteration_eq hx hop hit (agreeOff_update hagree p.toNat e.toNat) (low_update ρ' e)
  rw [low_update ρ p] at heq
  exact heq

/-- A loop combines what its iterations compute from the identity, in order. -/
theorem runLoop_eq (hx : x.UpdatesBy W o) (hop : IsReductionOperator (o.combine (w := W)) e) :
    ∀ {its : List (LoopIteration V)} {ρ : V → Nat}, (∀ it ∈ its, x.IsIteration it) →
      low W (fn.runLoop its ρ x.declarationValue) =
        ((fn.startsOf its ρ).map fun item => x.valueAfter W item.1 item.2 e).foldl o.combine
          (low W (ρ x.declarationValue))
  | [], ρ, _ => rfl
  | it :: its, ρ, hits => by
      have hfirst : low W (fn.runIteration it ρ x.declarationValue) =
          o.combine (low W (ρ x.declarationValue)) (x.valueAfter W it ρ e) := by
        have hagree : AgreeOff x.Tainted ρ (update ρ x.declarationValue e.toNat) := by
          intro v hv
          have hne : v ≠ x.declarationValue := fun heq => hv (heq ▸ tainted_declaration)
          rw [update_of_ne hne]
        exact runIteration_eq hx hop (hits it (.head _)) hagree (low_update ρ e)
      have hrest := runLoop_eq hx hop (ρ := fn.runIteration it ρ)
        fun it' hit' => hits it' (.tail it hit')
      rw [hfirst] at hrest
      exact hrest

theorem mem_startsOf : ∀ {its : List (LoopIteration V)} {ρ : V → Nat}
    {item : LoopIteration V × (V → Nat)}, item ∈ fn.startsOf its ρ → item.1 ∈ its
  | [], _, _, h => nomatch h
  | it :: its, ρ, item, h => by
      rcases mem_cons.mp h with rfl | h
      · exact .head _
      · exact .tail it (mem_startsOf h)

theorem partialResult_eq (hx : x.UpdatesBy W o) (hop : IsReductionOperator (o.combine (w := W)) e) :
    ∀ {core : List (LoopIteration V × (V → Nat))} (p : BitVec W),
      (∀ item ∈ core, x.IsIteration item.1) →
        core.foldl (fun p item => x.valueAfter W item.1 item.2 p) p =
          (core.map fun item => x.valueAfter W item.1 item.2 e).foldl o.combine p
  | [], p, _ => rfl
  | item :: core, p, hcore => by
      rw [foldl_cons, map_cons, foldl_cons,
        valueAfter_eq hx hop (hcore item (.head _)) (AgreeOff.refl _ item.2) p]
      exact partialResult_eq hx hop _ fun item' h => hcore item' (.tail item h)

/-- **Reductions are sound**: for an accepted plain reduction the operation is associative and
commutative with the given identity, an iteration applies it to the variable and to a value that
does not depend on the variable, and the partial results of any distribution of the iterations
give the sequential value. -/
theorem reduction_sound [DecidableEq B] {fuel : Nat}
    (h : x.isEvolutionReducibleAcrossLoopIterations ord fuel = some true)
    (hplain : x.PlainReduction scc W) {reduction : BinaryReductionSCC W}
    (hreduction : BinaryReductionSCC.setBinaryReductionInformation ord fn scc W = some reduction) :
    IsReductionOperator (reduction.reductionOperation.combine (w := W)) reduction.identity ∧
      (∀ it, x.IsIteration it → ∀ ρ, ∃ c, ∀ ρ', AgreeOff x.Tainted ρ ρ' → ∀ p,
        x.valueAfter W it ρ' p = reduction.reductionOperation.combine p c) ∧
      ∀ its, (∀ it ∈ its, x.IsIteration it) → ∀ ρ (cores : List (List (LoopIteration V × (V → Nat)))),
        cores.flatten.Perm (fn.startsOf its ρ) →
          (cores.map (x.partialResult reduction.identity)).foldl reduction.reductionOperation.combine
            (low W (ρ x.declarationValue)) = low W (fn.runLoop its ρ x.declarationValue) := by
  have haccepted := accepted_spec h
  obtain ⟨o, v, a, b, rfl, ho, hv, hkind⟩ := reductionOperation_spec haccepted hplain hreduction
  have hx := updatesBy_of_plainReduction haccepted hplain ho hv hkind
  have hop : IsReductionOperator (o.combine (w := W)) (AccumulatorOpInfo.generateIdentityFor o W) := by
    refine isReductionOperator_combine ho fun hand => ?_
    subst hand
    exact hplain.oneBit v a b hv.1.1 hkind
  refine ⟨hop, fun it hit ρ => ?_, fun its hits ρ cores hcores => ?_⟩
  · refine ⟨x.valueAfter W it ρ (AccumulatorOpInfo.generateIdentityFor o W), fun ρ' hagree p => ?_⟩
    exact valueAfter_eq hx hop hit hagree.symm p
  · have hitem : ∀ core ∈ cores, ∀ item ∈ core, x.IsIteration item.1 := fun core hcore item hitem =>
      hits item.1 (mem_startsOf (hcores.subset (mem_flatten.mpr ⟨core, hcore, hitem⟩)))
    have hparts : cores.map (x.partialResult (AccumulatorOpInfo.generateIdentityFor o W)) =
        cores.map fun core => (core.map fun item => x.valueAfter W item.1 item.2
          (AccumulatorOpInfo.generateIdentityFor o W)).foldl o.combine
            (AccumulatorOpInfo.generateIdentityFor o W) :=
      map_congr_left fun core hcore => partialResult_eq hx hop _ (hitem core hcore)
    rw [hparts, hop.foldl_split _ hcores, runLoop_eq hx hop hits]

end Soundness

/-! ## A sum and a doubling -/

section Examples

/-- Values `0` (initial value), `1` (the PHI node), `2` and `3` (additions) and `4` (an argument). -/
def onFive (kind : Fin 5 → EvolutionKind (Fin 5) Bool) : EvolutionFunction (Fin 5) Bool where
  kind := kind
  type _ := .integerTy 32
  users _ := []
  getParent v := decide (v ≠ 0)
  isReassociable _ := false

/-- `for (…) x += y;` -/
def sum : EvolutionFunction (Fin 5) Bool := onFive fun
  | 1 => .phiNode [(false, 0), (true, 2)]
  | 2 => .binaryOperator .add 1 4
  | _ => .noInstruction

/-- `for (…) x = (x + x) + y;` -/
def doubling : EvolutionFunction (Fin 5) Bool := onFive fun
  | 1 => .phiNode [(false, 0), (true, 3)]
  | 2 => .binaryOperator .add 1 1
  | 3 => .binaryOperator .add 2 4
  | _ => .noInstruction

def componentNodes (internal : List (Fin 5)) : SCC (Fin 5) :=
  (internal.foldl (fun g v => (g.addNode v true).2) (DG.empty 0)).addNode 4 false |>.2

def sumNode (v : Fin 5) : DGNode (Fin 5) := ⟨0, if v = 4 then 2 else v - 1, v⟩

def doublingNode (v : Fin 5) : DGNode (Fin 5) := ⟨0, v - 1, v⟩

def withUse (g : SCC (Fin 5)) (src dst : DGNode (Fin 5)) : SCC (Fin 5) :=
  (g.insertEdge src dst .variableDependence (some .raw) {}).2

def sumSCC : SCC (Fin 5) :=
  withUse (withUse (withUse (componentNodes [1, 2]) (sumNode 1) (sumNode 2)) (sumNode 2) (sumNode 1))
    (sumNode 4) (sumNode 2)

def doublingSCC : SCC (Fin 5) :=
  withUse (withUse (withUse (withUse (componentNodes [1, 2, 3]) (doublingNode 1) (doublingNode 2))
    (doublingNode 2) (doublingNode 3)) (doublingNode 3) (doublingNode 1))
    (doublingNode 4) (doublingNode 3)

theorem componentNodes_wf {internal : List (Fin 5)} (hnodup : internal.Nodup)
    (hnew : (internal.foldl (fun g v => (g.addNode v true).2)
      (DG.empty 0 : SCC (Fin 5))).isInGraph 4 = false) : (componentNodes internal).WF :=
  ((DG.Clean.foldl_addNode internal (DG.empty_clean 0) hnodup fun _ _ => rfl).addNode hnew).toWF

theorem withUse_wf {g : SCC (Fin 5)} (h : g.WF) {src dst : DGNode (Fin 5)}
    (hsrc : g.nodeOf src.theT = some src) (hdst : g.nodeOf dst.theT = some dst) :
    (withUse g src dst).WF := h.insertEdge hsrc hdst

theorem sumSCC_wf : sumSCC.WF :=
  withUse_wf (withUse_wf (withUse_wf (componentNodes_wf (by decide) rfl) rfl rfl) rfl rfl) rfl rfl

theorem doublingSCC_wf : doublingSCC.WF :=
  withUse_wf (withUse_wf (withUse_wf (withUse_wf (componentNodes_wf (by decide) rfl) rfl rfl) rfl rfl)
    rfl rfl) rfl rfl

def exampleLoop : LoopStructure Unit Bool := ⟨0, (), true, 1, PtrSet.ofList [true]⟩

def sumVariable : LoopCarriedVariable Unit (Fin 5) Bool sum where
  isValid := true
  outermostLoopOfVariable := exampleLoop
  preHeader := false
  declarationValue := 1
  sccOfVariableOnly := sumSCC
  sccOfDataAndMemoryVariableValuesOnly := sumSCC
  declaration_isPHINode := rfl
  variable_wf := sumSCC_wf
  data_isInternal := fun _ h => h
  declaration_isInternal := rfl
  cast_operand := fun v op operand _ h => by
    have hnot : ∀ v, sum.isCastInst v = false := by decide
    have hcast := hnot v
    simp [EvolutionFunction.isCastInst, h] at hcast

def doublingVariable : LoopCarriedVariable Unit (Fin 5) Bool doubling where
  isValid := true
  outermostLoopOfVariable := exampleLoop
  preHeader := false
  declarationValue := 1
  sccOfVariableOnly := doublingSCC
  sccOfDataAndMemoryVariableValuesOnly := doublingSCC
  declaration_isPHINode := rfl
  variable_wf := doublingSCC_wf
  data_isInternal := fun _ h => h
  declaration_isInternal := rfl
  cast_operand := fun v op operand _ h => by
    have hnot : ∀ v, doubling.isCastInst v = false := by decide
    have hcast := hnot v
    simp [EvolutionFunction.isCastInst, h] at hcast

theorem sumVariable_isInternal {v : Fin 5} (h : sumVariable.isInternal v = true) :
    v = 1 ∨ v = 2 := by
  revert h v
  decide

theorem sum_not_tainted : ¬ sumVariable.Tainted 4 := by
  rintro ⟨i, hi, hpath⟩
  rcases Relation.ReflTransGen.cases_tail hpath with heq | ⟨v, _, hv⟩
  · subst heq
    exact absurd hi (by decide)
  · nomatch hv

/-- The sum is a plain reduction. -/
theorem sum_plainReduction : sumVariable.PlainReduction sumSCC 32 where
  latch := fun incoming b s hkind hmem hb => by
    obtain rfl := EvolutionKind.phiNode.inj hkind
    rcases mem_cons.mp hmem with h | hmem
    · exact absurd (congrArg Prod.fst h) hb
    · obtain ⟨rfl, rfl⟩ := Prod.mk.inj (mem_singleton.mp hmem)
      rfl
  integer := fun v op a b hv hkind => by
    rcases sumVariable_isInternal hv with rfl | rfl
    · exact absurd hkind nofun
    · obtain ⟨rfl, -, -⟩ := EvolutionKind.binaryOperator.inj hkind
      exact ⟨nofun, nofun, 32, rfl, le_rfl⟩
  cast := fun v c a hv hkind => by
    rcases sumVariable_isInternal hv with rfl | rfl <;> exact absurd hkind nofun
  load := fun v hv => by
    rcases sumVariable_isInternal hv with rfl | rfl <;> rfl
  once := fun v op a b hv hkind ha hb => by
    rcases sumVariable_isInternal hv with rfl | rfl
    · exact absurd hkind nofun
    · obtain ⟨-, -, rfl⟩ := EvolutionKind.binaryOperator.inj hkind
      exact absurd hb (by decide)
  oneBit := fun v a b hv hkind => by
    rcases sumVariable_isInternal hv with rfl | rfl <;> exact absurd hkind nofun
  external := fun v hv hne s hs he => by
    rcases sumVariable_isInternal hv with rfl | rfl
    · exact absurd rfl hne
    · have hs' : s = 1 ∨ s = 4 := by simpa [EvolutionFunction.operands, sum, onFive] using hs
      rcases hs' with rfl | rfl
      · exact absurd he (by decide)
      · exact sum_not_tainted
  accumulators := by decide

/-- The sum is reduced by `add` from zero. -/
theorem sum_reduction_sound :
    IsReductionOperator (Opcode.add.combine (w := 32)) 0 ∧
      (∀ it, sumVariable.IsIteration it → ∀ ρ, ∃ c, ∀ ρ', AgreeOff sumVariable.Tainted ρ ρ' → ∀ p,
        sumVariable.valueAfter 32 it ρ' p = Opcode.add.combine p c) ∧
      ∀ its, (∀ it ∈ its, sumVariable.IsIteration it) →
        ∀ ρ (cores : List (List (LoopIteration (Fin 5) × (Fin 5 → Nat)))),
          cores.flatten.Perm (sum.startsOf its ρ) →
            (cores.map (sumVariable.partialResult (0 : BitVec 32))).foldl Opcode.add.combine
              (low 32 (ρ 1)) = low 32 (sum.runLoop its ρ 1) :=
  @reduction_sound _ _ _ _ _ _ _ _ .stored _ 0 (by decide) sum_plainReduction ⟨.add, 0⟩ rfl

def doublingIteration : LoopIteration (Fin 5) where
  steps := [.execute 2 fun _ => 0, .execute 3 fun _ => 0]
  backEdge v := if v = 1 then some 3 else none

theorem doublingIteration_isIteration : doublingVariable.IsIteration doublingIteration where
  steps := by
    refine ⟨⟨rfl, fun s hs _ _ => ?_⟩, ⟨rfl, fun s hs _ hi => ?_⟩, trivial⟩
    · have hs' : s = 1 ∨ s = 1 := by simpa [EvolutionFunction.operands, doubling, onFive] using hs
      exact hs'.elim id id
    · have hs' : s = 2 ∨ s = 4 := by simpa [EvolutionFunction.operands, doubling, onFive] using hs
      rcases hs' with rfl | rfl
      · exact .inr rfl
      · exact absurd hi (by decide)
  backEdge := fun v s h => by
    by_cases hv : v = 1
    · subst hv
      obtain rfl : 3 = s := some.inj h
      exact ⟨rfl, by decide⟩
    · cases (if_neg hv).symm.trans h
  latch := ⟨_, true, 3, rfl, by simp, nofun, rfl, fun _ => .inr rfl⟩

/-- The doubling is accepted, but no associative and commutative operator describes it. -/
theorem not_reducible :
    doublingVariable.isEvolutionReducibleAcrossLoopIterations .stored 0 = some true ∧
      ¬ ∃ op : BitVec 32 → BitVec 32 → BitVec 32, (∀ a b c, op (op a b) c = op a (op b c)) ∧
        (∀ a b, op a b = op b a) ∧ ∀ it, doublingVariable.IsIteration it → ∀ ρ, ∃ c, ∀ p,
          doublingVariable.valueAfter 32 it ρ p = op p c := by
  refine ⟨by decide, ?_⟩
  rintro ⟨op, hassoc, hcomm, hop⟩
  obtain ⟨c₀, h₀⟩ := hop doublingIteration doublingIteration_isIteration fun _ => 0
  obtain ⟨c₁, h₁⟩ := hop doublingIteration doublingIteration_isIteration fun v => if v = 4 then 1 else 0
  -- the iteration with `y = 0` maps 0 to 0 and 1 to 2, the one with `y = 1` maps 0 to 1
  have h00 : op 0 c₀ = 0 := (h₀ 0).symm.trans (by decide)
  have h10 : op 1 c₀ = 2 := (h₀ 1).symm.trans (by decide)
  have h01 : op 0 c₁ = 1 := (h₁ 0).symm.trans (by decide)
  have horder : op (op 0 c₀) c₁ = op (op 0 c₁) c₀ := by
    rw [hassoc, hcomm c₀, ← hassoc]
  rw [h00, h01, h10] at horder
  exact absurd horder (by decide)

end Examples

end LoopCarriedVariable

end Noelle
