import Mathlib.Data.BitVec
import Mathlib.Tactic.Ring
import Noelle.Lib.Collections

/-!
# IVStepperUtility

`IVUtility`: code that steps an induction variable in chunks, for integers and pointers.

The builder makes expressions over the PHIs of the header (`Value`), which a loop evaluates once
in each iteration (`stateAt`).  The chunk counter is the number of the iteration modulo the chunk
size, and its wrapping adds the chunk step (`chunked_stateAt`); the iterations of the cores are
then all iterations, each once (`iterationOf_bijective`).
-/

namespace Noelle

open List

namespace IVUtility

/-- A value of the given width.  A pointer is the number of its address; what the loop does not
change is the value it has. -/
inductive Value (V : Type) (ivWidth chunkWidth : Nat) : Nat → Type
  | ivPHI : Value V ivWidth chunkWidth ivWidth
  | chunkPHI : Value V ivWidth chunkWidth chunkWidth
  /-- Another instruction of the loop. -/
  | inst (v : V) : Value V ivWidth chunkWidth ivWidth
  | invariant {w : Nat} (x : BitVec w) : Value V ivWidth chunkWidth w
  | add {w : Nat} (a b : Value V ivWidth chunkWidth w) : Value V ivWidth chunkWidth w
  | mul {w : Nat} (a b : Value V ivWidth chunkWidth w) : Value V ivWidth chunkWidth w
  | icmpEq {w : Nat} (a b : Value V ivWidth chunkWidth w) : Value V ivWidth chunkWidth 1
  | select {w : Nat} (condition : Value V ivWidth chunkWidth 1)
      (trueValue falseValue : Value V ivWidth chunkWidth w) : Value V ivWidth chunkWidth w
  /-- Truncation, zero extension, and the casts between pointers and integers. -/
  | cast {w : Nat} (a : Value V ivWidth chunkWidth w) (w' : Nat) : Value V ivWidth chunkWidth w'

/-- A `PHINode` of the header: its incoming blocks and values. -/
structure PHINode (B V : Type) (ivWidth chunkWidth w : Nat) where
  incoming : List (B × Value V ivWidth chunkWidth w)

variable {B V : Type} [DecidableEq B] {ivWidth chunkWidth w : Nat}

/-- `PHINode::getBasicBlockIndex` and `getIncomingValue`. -/
def PHINode.getIncomingValueForBlock (phi : PHINode B V ivWidth chunkWidth w) (b : B) :
    Option (Value V ivWidth chunkWidth w) :=
  (phi.incoming.find? fun e => decide (e.1 = b)).map (·.2)

/-- `SelectInst::getCondition`, of a value that has to be a `SelectInst`. -/
def Value.selectCondition : Value V ivWidth chunkWidth w → Option (Value V ivWidth chunkWidth 1)
  | .select condition _ _ => some condition
  | _ => none

/-! ## The builder -/

def createChunkPHI (preheaderB : B) (headerPreds : List B)
    (chunkSize : Value V ivWidth chunkWidth chunkWidth) :
    PHINode B V ivWidth chunkWidth chunkWidth where
  incoming := headerPreds.map fun b =>
    if preheaderB = b then (b, .invariant (BitVec.ofNat chunkWidth 0))
    else
      let chunkIncrement := .add .chunkPHI (.invariant (BitVec.ofNat chunkWidth 1))
      let isChunkCompleted := .icmpEq chunkIncrement chunkSize
      let chunkWrap := .select isChunkCompleted (.invariant (BitVec.ofNat chunkWidth 0)) chunkIncrement
      (b, chunkWrap)

/-- `IVUtility::offsetIVPHI`.  An integer can only be truncated to a type that is not wider. -/
def offsetIVPHI (isPointerTy : Bool) (startValue : Value V ivWidth chunkWidth ivWidth)
    (offsetValue : Value V ivWidth chunkWidth w) : Option (Value V ivWidth chunkWidth ivWidth) :=
  if isPointerTy then some (.cast (.add (.cast startValue w) offsetValue) ivWidth)
  else if w < ivWidth then none
  else some (.add startValue (.cast offsetValue ivWidth))

/-- The body of the loop of `chunkInductionVariablePHI`. -/
def chunkIncoming (isPointerTy : Bool) (preheaderBlock : B)
    (chunkPHI : PHINode B V ivWidth chunkWidth chunkWidth)
    (chunkStepSize : Value V ivWidth chunkWidth w) (e : B × Value V ivWidth chunkWidth ivWidth) :
    Option (B × Value V ivWidth chunkWidth ivWidth) :=
  if preheaderBlock = e.1 then some e
  else do
    let initialLatchValue := e.2
    let isChunkCompleted ← (← chunkPHI.getIncomingValueForBlock e.1).selectCondition
    let ivOffsetByChunk ← offsetIVPHI isPointerTy initialLatchValue chunkStepSize
    return (e.1, .select isChunkCompleted ivOffsetByChunk initialLatchValue)

/-- `IVUtility::chunkInductionVariablePHI`: the PHI after it, and the new values. -/
def chunkInductionVariablePHI (isPointerTy : Bool) (preheaderBlock : B)
    (ivPHI : PHINode B V ivWidth chunkWidth ivWidth)
    (chunkPHI : PHINode B V ivWidth chunkWidth chunkWidth)
    (chunkStepSize : Value V ivWidth chunkWidth w) :
    Option (PHINode B V ivWidth chunkWidth ivWidth × List (Value V ivWidth chunkWidth ivWidth)) := do
  let incoming ← ivPHI.incoming.mapM
    (chunkIncoming isPointerTy preheaderBlock chunkPHI chunkStepSize)
  let chunkedIVValues := (incoming.filter fun e => decide (preheaderBlock ≠ e.1)).map (·.2)
  return (⟨incoming⟩, chunkedIVValues)

/-! ## Iterations -/

/-- The values of the two PHIs in an iteration. -/
structure LoopState (ivWidth chunkWidth : Nat) where
  iv : BitVec ivWidth
  chunk : BitVec chunkWidth
  deriving DecidableEq

/-- What a value is in an iteration, in which the other instructions have the values `inst`. -/
def Value.eval (st : LoopState ivWidth chunkWidth) (inst : V → BitVec ivWidth) :
    {w : Nat} → Value V ivWidth chunkWidth w → BitVec w
  | _, .ivPHI => st.iv
  | _, .chunkPHI => st.chunk
  | _, .inst v => inst v
  | _, .invariant x => x
  | _, .add a b => a.eval st inst + b.eval st inst
  | _, .mul a b => a.eval st inst * b.eval st inst
  | _, .icmpEq a b => BitVec.ofBool (a.eval st inst == b.eval st inst)
  | _, .select c a b => if c.eval st inst = 1#1 then a.eval st inst else b.eval st inst
  | _, .cast a w' => (a.eval st inst).setWidth w'

/-- The PHIs in the iteration `t`, which the latch `latch t` leaves.  The other instructions have
the values `inst t iv` in it. -/
def stateAt (ivPHI : PHINode B V ivWidth chunkWidth ivWidth)
    (chunkPHI : PHINode B V ivWidth chunkWidth chunkWidth) (preheader : B) (latch : Nat → B)
    (inst : Nat → BitVec ivWidth → V → BitVec ivWidth) : Nat → Option (LoopState ivWidth chunkWidth)
  | 0 => do
      let iv ← ivPHI.getIncomingValueForBlock preheader
      let chunk ← chunkPHI.getIncomingValueForBlock preheader
      -- what comes from the preheader depends on no PHI of the header
      return ⟨iv.eval ⟨0, 0⟩ (inst 0 0), chunk.eval ⟨0, 0⟩ (inst 0 0)⟩
  | t + 1 => do
      let st ← stateAt ivPHI chunkPHI preheader latch inst t
      let iv ← ivPHI.getIncomingValueForBlock (latch t)
      let chunk ← chunkPHI.getIncomingValueForBlock (latch t)
      return ⟨iv.eval st (inst t st.iv), chunk.eval st (inst t st.iv)⟩

/-- An induction variable of a loop: it begins with `start`, and every latch adds `step`. -/
structure SteppedIV (preheader : B) (headerPreds : List B)
    (ivPHI : PHINode B V ivWidth chunkWidth ivWidth) (start step : BitVec ivWidth)
    (inst : Nat → BitVec ivWidth → V → BitVec ivWidth) : Prop where
  blocks : ∀ b, b ∈ ivPHI.incoming.map (·.1) ↔ b ∈ headerPreds
  start_eq : ∀ e ∈ ivPHI.incoming, e.1 = preheader → ∀ st values, e.2.eval st values = start
  step_eq : ∀ e ∈ ivPHI.incoming, e.1 ≠ preheader →
    ∀ t iv chunk, e.2.eval ⟨iv, chunk⟩ (inst t iv) = iv + step

/-! ## What the builder makes -/

theorem PHINode.exists_getIncomingValueForBlock {phi : PHINode B V ivWidth chunkWidth w} {b : B}
    (hb : b ∈ phi.incoming.map (·.1)) :
    ∃ e ∈ phi.incoming, e.1 = b ∧ phi.getIncomingValueForBlock b = some e.2 := by
  obtain ⟨e, he, heq⟩ := mem_map.mp hb
  unfold getIncomingValueForBlock
  cases hfind : phi.incoming.find? fun e => decide (e.1 = b) with
  | none => exact absurd (List.find?_eq_none.mp hfind e he) (by simp [heq])
  | some found =>
      refine ⟨found, mem_of_find?_eq_some hfind, ?_, rfl⟩
      simpa using List.find?_some hfind

theorem exists_offsetIVPHI (isPointerTy : Bool) (hw : ivWidth ≤ w)
    (startValue : Value V ivWidth chunkWidth ivWidth) (offsetValue : Value V ivWidth chunkWidth w) :
    ∃ v, offsetIVPHI isPointerTy startValue offsetValue = some v ∧ ∀ st inst,
      v.eval st inst = startValue.eval st inst + (offsetValue.eval st inst).setWidth ivWidth := by
  unfold offsetIVPHI
  cases isPointerTy with
  | true =>
      refine ⟨_, rfl, fun st inst => ?_⟩
      simp only [Value.eval]
      rw [BitVec.setWidth_add _ _ hw, BitVec.setWidth_setWidth_of_le _ hw, BitVec.setWidth_eq]
  | false => exact ⟨_, if_neg (Nat.not_lt.mpr hw), fun st inst => rfl⟩

section Chunks

variable {preheader : B} {headerPreds : List B} {k : BitVec chunkWidth}

theorem ofBool_beq_eq_one (x y : BitVec w) : BitVec.ofBool (x == y) = 1#1 ↔ x = y := by
  cases h : x == y with
  | true => exact iff_of_true rfl (eq_of_beq h)
  | false => exact iff_of_false (by decide) (ne_of_beq_false h)

theorem createChunkPHI_preheader (hpreheader : preheader ∈ headerPreds)
    (chunkSize : Value V ivWidth chunkWidth chunkWidth) :
    (createChunkPHI preheader headerPreds chunkSize).getIncomingValueForBlock preheader =
      some (.invariant (BitVec.ofNat chunkWidth 0)) := by
  obtain ⟨e, he, hblock, hvalue⟩ := (createChunkPHI preheader headerPreds
    chunkSize).exists_getIncomingValueForBlock (b := preheader)
    (mem_map.mpr ⟨_, mem_map_of_mem hpreheader, by rw [if_pos rfl]⟩)
  obtain ⟨b, _, rfl⟩ := mem_map.mp he
  split_ifs at hblock hvalue with heq
  · exact hvalue
  · exact absurd hblock.symm heq

theorem createChunkPHI_latch {latch : B} (hlatch : latch ∈ headerPreds) (hne : latch ≠ preheader)
    (chunkSize : Value V ivWidth chunkWidth chunkWidth) :
    (createChunkPHI preheader headerPreds chunkSize).getIncomingValueForBlock latch =
      some (.select (.icmpEq (.add .chunkPHI (.invariant (BitVec.ofNat chunkWidth 1))) chunkSize)
        (.invariant (BitVec.ofNat chunkWidth 0))
        (.add .chunkPHI (.invariant (BitVec.ofNat chunkWidth 1)))) := by
  obtain ⟨e, he, hblock, hvalue⟩ := (createChunkPHI preheader headerPreds
    chunkSize).exists_getIncomingValueForBlock (b := latch)
    (mem_map.mpr ⟨_, mem_map_of_mem hlatch, by rw [if_neg hne.symm]⟩)
  obtain ⟨b, _, rfl⟩ := mem_map.mp he
  split_ifs at hblock hvalue with heq
  · exact absurd (heq.trans hblock).symm hne
  · exact hvalue

/-- What the chunked PHI has from a block. -/
structure ChunkedIncoming (preheader : B) (chunkSize : Value V ivWidth chunkWidth chunkWidth)
    (chunkStep : BitVec ivWidth) (e e' : B × Value V ivWidth chunkWidth ivWidth) : Prop where
  block_eq : e'.1 = e.1
  preheader_eq : e.1 = preheader → e'.2 = e.2
  latch_eq : e.1 ≠ preheader → ∀ st inst, e'.2.eval st inst =
    if st.chunk + BitVec.ofNat chunkWidth 1 = chunkSize.eval st inst then
      e.2.eval st inst + chunkStep
    else e.2.eval st inst

theorem exists_chunkIncoming (preheader : B) (isPointerTy : Bool) (hw : ivWidth ≤ w)
    (chunkSize : Value V ivWidth chunkWidth chunkWidth) (chunkStep : BitVec w)
    (e : B × Value V ivWidth chunkWidth ivWidth) (he : e.1 ∈ headerPreds) :
    ∃ e', chunkIncoming isPointerTy preheader (createChunkPHI preheader headerPreds chunkSize)
        (.invariant chunkStep) e = some e' ∧
      ChunkedIncoming preheader chunkSize (chunkStep.setWidth ivWidth) e e' := by
  unfold chunkIncoming
  by_cases heq : preheader = e.1
  · exact ⟨e, if_pos heq, rfl, fun _ => rfl, fun hne => absurd heq.symm hne⟩
  · obtain ⟨offset, hoffset, heval⟩ := exists_offsetIVPHI isPointerTy hw e.2
      (.invariant chunkStep)
    refine ⟨(e.1, .select (.icmpEq (.add .chunkPHI (.invariant (BitVec.ofNat chunkWidth 1)))
      chunkSize) offset e.2),
      ?_, rfl, fun heq' => absurd heq'.symm heq, fun _ st inst => ?_⟩
    · simp [heq, createChunkPHI_latch he (Ne.symm heq), Value.selectCondition, hoffset]
    · simp only [Value.eval, heval, ofBool_beq_eq_one]

/-- The PHI of the chunk can be made. -/
theorem exists_chunkInductionVariablePHI (preheader : B) (isPointerTy : Bool) (hw : ivWidth ≤ w)
    {ivPHI : PHINode B V ivWidth chunkWidth ivWidth}
    (hblocks : ∀ b, b ∈ ivPHI.incoming.map (·.1) ↔ b ∈ headerPreds)
    (chunkSize : Value V ivWidth chunkWidth chunkWidth) (chunkStep : BitVec w) :
    ∃ ivPHI' values, chunkInductionVariablePHI isPointerTy preheader ivPHI
        (createChunkPHI preheader headerPreds chunkSize) (.invariant chunkStep) =
          some (ivPHI', values) ∧
      ∀ b ∈ headerPreds, ∃ e ∈ ivPHI.incoming, ∃ e', e.1 = b ∧
        ivPHI'.getIncomingValueForBlock b = some e'.2 ∧
        ChunkedIncoming preheader chunkSize (chunkStep.setWidth ivWidth) e e' := by
  obtain ⟨incoming, hincoming, himage, hsource⟩ := exists_mapM fun e he =>
    exists_chunkIncoming preheader isPointerTy hw chunkSize chunkStep e
      ((hblocks e.1).mp (mem_map_of_mem he))
  refine ⟨⟨incoming⟩, (incoming.filter fun e => decide (preheader ≠ e.1)).map (·.2), ?_,
    fun b hb => ?_⟩
  · unfold chunkInductionVariablePHI
    rw [hincoming]
    rfl
  · obtain ⟨e, he, rfl⟩ := mem_map.mp ((hblocks b).mpr hb)
    obtain ⟨e', he', hchunked⟩ := hsource e he
    have hmem : e.1 ∈ (⟨incoming⟩ : PHINode B V ivWidth chunkWidth ivWidth).incoming.map (·.1) :=
      mem_map.mpr ⟨e', he', hchunked.block_eq⟩
    obtain ⟨x', hx', hblock, hvalue⟩ := PHINode.exists_getIncomingValueForBlock hmem
    obtain ⟨x, hx, hchunked'⟩ := himage x' hx'
    exact ⟨x, hx, x', hchunked'.block_eq.symm.trans hblock, hvalue, hchunked'⟩

/-! ## The iterations of one core -/

variable {ivPHI ivPHI' : PHINode B V ivWidth chunkWidth ivWidth} {start step : BitVec ivWidth}
  {inst : Nat → BitVec ivWidth → V → BitVec ivWidth} {latch : Nat → B}

theorem div_mod_succ_of_eq {t n : Nat} (hn : 1 ≤ n) (h : t % n + 1 = n) :
    (t + 1) / n = t / n + 1 ∧ (t + 1) % n = 0 := by
  have hsplit := Nat.div_add_mod t n
  refine (Nat.div_mod_unique hn).mpr ⟨?_, hn⟩
  rw [Nat.mul_succ]
  omega

theorem div_mod_succ_of_ne {t n : Nat} (hn : 1 ≤ n) (h : t % n + 1 ≠ n) :
    (t + 1) / n = t / n ∧ (t + 1) % n = t % n + 1 := by
  have hsplit := Nat.div_add_mod t n
  have hlt := Nat.mod_lt t hn
  refine (Nat.div_mod_unique hn).mpr ⟨?_, ?_⟩
  · omega
  · omega

/-- The counter is the iteration modulo the chunk size, which has no room to overflow. -/
theorem chunkCounter_succ (hk : 1 ≤ k.toNat) (t : Nat) :
    (BitVec.ofNat chunkWidth (t % k.toNat) + BitVec.ofNat chunkWidth 1 = k ↔
      t % k.toNat + 1 = k.toNat) := by
  have hlt : t % k.toNat + 1 < 2 ^ chunkWidth :=
    Nat.lt_of_le_of_lt (Nat.mod_lt t hk) k.isLt
  rw [← BitVec.ofNat_add, ← BitVec.toNat_inj, BitVec.toNat_ofNat, Nat.mod_eq_of_lt hlt]

/-- What the chunked variable and its counter are after some steps. -/
theorem chunked_stateAt (hiv : SteppedIV preheader headerPreds ivPHI start step inst)
    (hk : 1 ≤ k.toNat) (hpreheader : preheader ∈ headerPreds)
    (hlatch : ∀ t, latch t ∈ headerPreds ∧ latch t ≠ preheader) {chunkStep : BitVec ivWidth}
    (hchunked : ∀ b ∈ headerPreds, ∃ e ∈ ivPHI.incoming, ∃ e', e.1 = b ∧
      ivPHI'.getIncomingValueForBlock b = some e'.2 ∧
      ChunkedIncoming preheader (.invariant k) chunkStep e e') : ∀ t,
    stateAt ivPHI' (createChunkPHI preheader headerPreds (.invariant k)) preheader latch inst t =
      some ⟨start + BitVec.ofNat ivWidth t * step + BitVec.ofNat ivWidth (t / k.toNat) * chunkStep,
        BitVec.ofNat chunkWidth (t % k.toNat)⟩
  | 0 => by
      obtain ⟨e, he, e', hblock, hvalue, hincoming⟩ := hchunked preheader hpreheader
      rw [stateAt, hvalue, createChunkPHI_preheader hpreheader, hincoming.preheader_eq hblock]
      simp [Value.eval, hiv.start_eq e he hblock]
  | t + 1 => by
      obtain ⟨hmem, hne⟩ := hlatch t
      obtain ⟨e, he, e', hblock, hvalue, hincoming⟩ := hchunked (latch t) hmem
      have hne' : e.1 ≠ preheader := hblock ▸ hne
      rw [stateAt, chunked_stateAt hiv hk hpreheader hlatch hchunked t, hvalue,
        createChunkPHI_latch hmem hne]
      simp only [Option.bind_eq_bind, Option.bind_some, Option.pure_def, Option.some.injEq,
        LoopState.mk.injEq, hincoming.latch_eq hne', hiv.step_eq e he hne', Value.eval,
        ofBool_beq_eq_one, chunkCounter_succ hk]
      have hsucc : BitVec.ofNat ivWidth (t + 1) = BitVec.ofNat ivWidth t + BitVec.ofNat ivWidth 1 :=
        BitVec.ofNat_add t 1
      have hone : (BitVec.ofNat ivWidth 1 : BitVec ivWidth) = 1 := rfl
      by_cases hwrap : t % k.toNat + 1 = k.toNat
      · obtain ⟨hdiv, hmod⟩ := div_mod_succ_of_eq hk hwrap
        rw [if_pos hwrap, if_pos hwrap, hdiv, hmod, hsucc, BitVec.ofNat_add, hone]
        exact ⟨by ring, rfl⟩
      · obtain ⟨hdiv, hmod⟩ := div_mod_succ_of_ne hk hwrap
        rw [if_neg hwrap, if_neg hwrap, hdiv, hmod, hsucc, BitVec.ofNat_add, hone]
        exact ⟨by ring, rfl⟩

/-! ## The iterations of all cores -/

/-- The iteration of the loop that is the `t`-th one of the core `j`. -/
def iterationOf (N k j t : Nat) : Nat := j * k + t + t / k * ((N - 1) * k)

theorem iterationOf_eq {N : Nat} (hN : 1 ≤ N) (k j t : Nat) :
    iterationOf N k j t = (t / k * N + j) * k + t % k := by
  obtain ⟨M, rfl⟩ : ∃ M, N = M + 1 := ⟨N - 1, by omega⟩
  have hsplit := Nat.div_add_mod t k
  calc iterationOf (M + 1) k j t = j * k + (k * (t / k) + t % k) + t / k * (M * k) := by
        rw [hsplit, iterationOf, Nat.add_sub_cancel]
    _ = (t / k * (M + 1) + j) * k + t % k := by ring

theorem digits_inj {n a b a' b' : Nat} (hb : b < n) (hb' : b' < n) (h : a * n + b = a' * n + b') :
    a = a' ∧ b = b' := by
  have hdigits : ∀ {q r : Nat}, r < n → (q * n + r) / n = q ∧ (q * n + r) % n = r := fun hr =>
    (Nat.div_mod_unique (Nat.zero_lt_of_lt hr)).mpr ⟨by rw [Nat.mul_comm, Nat.add_comm], hr⟩
  obtain ⟨hdiv, hmod⟩ := hdigits (q := a) hb
  obtain ⟨hdiv', hmod'⟩ := hdigits (q := a') hb'
  exact ⟨hdiv.symm.trans (h ▸ hdiv'), hmod.symm.trans (h ▸ hmod')⟩

theorem iterationOf_bijective {N k : Nat} (hN : 1 ≤ N) (hk : 1 ≤ k) :
    Function.Bijective fun p : Fin N × Nat => iterationOf N k p.1 p.2 := by
  constructor
  · rintro ⟨j, t⟩ ⟨j', t'⟩ heq
    dsimp only at heq
    rw [iterationOf_eq hN, iterationOf_eq hN] at heq
    obtain ⟨hchunk, hmod⟩ := digits_inj (Nat.mod_lt t hk) (Nat.mod_lt t' hk) heq
    obtain ⟨hdiv, hcore⟩ := digits_inj j.isLt j'.isLt hchunk
    have ht : t = t' := by rw [← Nat.div_add_mod t k, ← Nat.div_add_mod t' k, hdiv, hmod]
    rw [Fin.ext hcore, ht]
  · intro n
    refine ⟨(⟨n / k % N, Nat.mod_lt _ hN⟩, n / k / N * k + n % k), ?_⟩
    have hdiv : (n / k / N * k + n % k) / k = n / k / N ∧ (n / k / N * k + n % k) % k = n % k :=
      (Nat.div_mod_unique hk).mpr ⟨by rw [Nat.mul_comm, Nat.add_comm], Nat.mod_lt n hk⟩
    dsimp only
    rw [iterationOf_eq hN, hdiv.1, hdiv.2, Nat.mul_comm (n / k / N), Nat.div_add_mod, Nat.mul_comm,
      Nat.div_add_mod]

/-- **Chunked stepping**: a chunked induction variable has the closed form, and if the chunk step
skips the chunks of the other cores, the cores go through all iterations, each once. -/
theorem chunkInductionVariablePHI_spec (isPointerTy : Bool) (hw : ivWidth ≤ w) (preheader : B)
    (headerPreds : List B) (hpreheader : preheader ∈ headerPreds) (k : BitVec chunkWidth)
    (hk : 1 ≤ k.toNat) (start step : BitVec ivWidth) :
    (∀ (ivPHI : PHINode B V ivWidth chunkWidth ivWidth)
      (inst : Nat → BitVec ivWidth → V → BitVec ivWidth) (latch : Nat → B) (chunkStep : BitVec w),
      SteppedIV preheader headerPreds ivPHI start step inst →
      (∀ t, latch t ∈ headerPreds ∧ latch t ≠ preheader) →
      ∃ ivPHI' values, chunkInductionVariablePHI isPointerTy preheader ivPHI
          (createChunkPHI preheader headerPreds (.invariant k)) (.invariant chunkStep) =
            some (ivPHI', values) ∧
        ∀ t, stateAt ivPHI' (createChunkPHI preheader headerPreds (.invariant k)) preheader latch
            inst t =
          some ⟨start + BitVec.ofNat ivWidth t * step +
              BitVec.ofNat ivWidth (t / k.toNat) * chunkStep.setWidth ivWidth,
            BitVec.ofNat chunkWidth (t % k.toNat)⟩) ∧
    ∀ N : Nat, 1 ≤ N →
      (∀ (ivPHI : Fin N → PHINode B V ivWidth chunkWidth ivWidth)
        (inst : Fin N → Nat → BitVec ivWidth → V → BitVec ivWidth) (latch : Fin N → Nat → B)
        (chunkStep : BitVec w),
        chunkStep.setWidth ivWidth = BitVec.ofNat ivWidth ((N - 1) * k.toNat) * step →
        (∀ j : Fin N, SteppedIV preheader headerPreds (ivPHI j)
          (start + BitVec.ofNat ivWidth (j * k.toNat) * step) step (inst j)) →
        (∀ j t, latch j t ∈ headerPreds ∧ latch j t ≠ preheader) →
        ∀ j, ∃ ivPHI' values, chunkInductionVariablePHI isPointerTy preheader (ivPHI j)
            (createChunkPHI preheader headerPreds (.invariant k)) (.invariant chunkStep) =
              some (ivPHI', values) ∧
          ∀ t, (stateAt ivPHI' (createChunkPHI preheader headerPreds (.invariant k)) preheader
              (latch j) (inst j) t).map (·.iv) =
            some (start + BitVec.ofNat ivWidth (iterationOf N k.toNat j t) * step)) ∧
      Function.Bijective fun p : Fin N × Nat => iterationOf N k.toNat p.1 p.2 := by
  refine ⟨fun ivPHI inst latch chunkStep hiv hlatch => ?_, fun N hN =>
    ⟨fun ivPHI inst latch chunkStep hstep hiv hlatch j => ?_, iterationOf_bijective hN hk⟩⟩
  · obtain ⟨ivPHI', values, hresult, hchunked⟩ := exists_chunkInductionVariablePHI
      preheader isPointerTy hw hiv.blocks (.invariant k) chunkStep
    exact ⟨ivPHI', values, hresult, chunked_stateAt hiv hk hpreheader hlatch hchunked⟩
  · obtain ⟨ivPHI', values, hresult, hchunked⟩ := exists_chunkInductionVariablePHI
      preheader isPointerTy hw (hiv j).blocks (.invariant k) chunkStep
    refine ⟨ivPHI', values, hresult, fun t => ?_⟩
    rw [chunked_stateAt (hiv j) hk hpreheader (hlatch j) hchunked t, hstep]
    refine congrArg some ?_
    rw [iterationOf, BitVec.ofNat_add, BitVec.ofNat_add, BitVec.ofNat_mul (t / k.toNat)]
    ring

/-- A loop with one latch, from `5` in steps of `3`. -/
def byThree : PHINode Nat Unit 8 8 8 :=
  ⟨[(0, .invariant 5#8), (1, .add .ivPHI (.invariant 3#8))]⟩

/-- A variable of 8 bits that starts at 5 and goes up by 3. -/
theorem byThree_steppedIV :
    SteppedIV 0 [0, 1] byThree 5#8 3#8 (fun _ _ _ => 0#8 : Nat → BitVec 8 → Unit → BitVec 8) where
  blocks b := Iff.rfl
  start_eq e he hblock st values := by
    rcases mem_pair.mp he with rfl | rfl
    · rfl
    · cases hblock
  step_eq e he hne t iv chunk := by
    rcases mem_pair.mp he with rfl | rfl
    · exact absurd rfl hne
    · rfl

/-- Two cores with chunks of two iterations: the first one. -/
theorem byThree_chunked :
    (∃ ivPHI' values, chunkInductionVariablePHI false 0 byThree
        (createChunkPHI 0 [0, 1] (.invariant 2#8)) (.invariant 6#8) = some (ivPHI', values) ∧
      ∀ t, stateAt ivPHI' (createChunkPHI 0 [0, 1] (.invariant 2#8)) 0 (fun _ => 1)
          (fun _ _ _ => 0#8) t =
        some ⟨5#8 + BitVec.ofNat 8 t * 3#8 + BitVec.ofNat 8 (t / 2) * 6#8,
          BitVec.ofNat 8 (t % 2)⟩) ∧
    Function.Bijective fun p : Fin 2 × Nat => iterationOf 2 2 p.1 p.2 :=
  have hspec := chunkInductionVariablePHI_spec (V := Unit) (w := 8) false (le_refl 8) 0 [0, 1]
    (by decide) (2#8) (by decide) 5#8 3#8
  ⟨hspec.1 byThree (fun _ _ _ => 0#8) (fun _ => 1) 6#8 byThree_steppedIV fun _ => by decide,
    (hspec.2 2 (by decide)).2⟩

end Chunks

end IVUtility

end Noelle
