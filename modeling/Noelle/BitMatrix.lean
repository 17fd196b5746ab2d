import Noelle.Lib.Collections
import Noelle.Lib.Digraph
import Noelle.Lib.Loop

/-!
# BitMatrix

The square bit matrix behind the ordering of the SCCDAG, and its transitive
closure.

Sizes and positions are 32-bit, so the position of a cell is
`row * N + col` modulo `2 ^ 32`.  An access beyond the underlying bit vector is
undefined (`none`).  A search of the bit vector returns the position as a signed
32-bit number with `-1` for a miss: the size of the vector is below `2 ^ 32`, so
no position has the bit pattern of `-1`, and the conversions in between lose
nothing.
-/

namespace Noelle

open Relation List Option

/-- The value of an unsigned 32-bit expression. -/
def uint32 (n : Nat) : Nat := n % 2 ^ 32

theorem uint32_of_lt {n : Nat} (h : n < 2 ^ 32) : uint32 n = n := Nat.mod_eq_of_lt h

/-! ## Bit vectors -/

/-- `llvm::BitVector`. -/
structure BitVector where
  size : Nat
  bits : Nat → Bool

namespace BitVector

/-- `clear` followed by `resize`: all bits are reset. -/
def resized (n : Nat) : BitVector := ⟨n, fun _ => false⟩

def test (bv : BitVector) (i : Nat) : Option Bool := if i < bv.size then some (bv.bits i) else none

def set (bv : BitVector) (i : Nat) : Option BitVector :=
  if i < bv.size then some { bv with bits := Function.update bv.bits i true } else none

/-- First set bit at `start` or after it. -/
def findFrom (bv : BitVector) (start : Nat) : Option Nat :=
  ((List.range bv.size).drop start).find? bv.bits

def findFirst (bv : BitVector) : Option Nat := bv.findFrom 0

/-- Next set bit after `prev`; the search may start at the end but not beyond it. -/
def findNext (bv : BitVector) (prev : Nat) : Option (Option Nat) :=
  if prev + 1 ≤ bv.size then some (bv.findFrom (prev + 1)) else none

variable {bv : BitVector} {start : Nat}

theorem mem_drop_range {n start i : Nat} :
    i ∈ (List.range n).drop start ↔ start ≤ i ∧ i < n := by
  rw [mem_drop_iff_getElem]
  constructor
  · rintro ⟨k, hk, rfl⟩
    rw [length_range] at hk
    rw [getElem_range]
    omega
  · rintro ⟨hs, hn⟩
    refine ⟨i - start, by rw [length_range]; omega, ?_⟩
    rw [getElem_range]
    omega

theorem findFrom_eq_some {r : Nat} (h : bv.findFrom start = some r) :
    start ≤ r ∧ r < bv.size ∧ bv.bits r = true ∧ ∀ i, start ≤ i → i < r → bv.bits i = false := by
  obtain ⟨hr, pre, post, hsplit, hpre⟩ := List.find?_eq_some_iff_append.mp h
  have hmem : r ∈ (List.range bv.size).drop start := by rw [hsplit]; simp
  obtain ⟨hs, hlt⟩ := mem_drop_range.mp hmem
  refine ⟨hs, hlt, hr, fun i hsi hir => ?_⟩
  have hsorted : ((List.range bv.size).drop start).Pairwise (· < ·) :=
    pairwise_lt_range.sublist (drop_sublist _ _)
  have hi : i ∈ (List.range bv.size).drop start := mem_drop_range.mpr ⟨hsi, by omega⟩
  rw [hsplit] at hi hsorted
  rcases mem_append.mp hi with hi | hi
  · simpa using hpre i hi
  · -- the positions from the hit on are at least as large
    have hle : r ≤ i := by
      rcases mem_cons.mp hi with rfl | hi
      · exact le_refl _
      · exact le_of_lt ((pairwise_cons.mp (pairwise_append.mp hsorted).2.1).1 i hi)
    omega

theorem findFrom_eq_none (h : bv.findFrom start = none) {i : Nat} (hs : start ≤ i)
    (hi : i < bv.size) : bv.bits i = false := by
  have := List.find?_eq_none.mp h i (mem_drop_range.mpr ⟨hs, hi⟩)
  simpa using this

end BitVector

/-! ## The matrix -/

structure BitMatrix where
  N : Nat
  bv : BitVector

namespace BitMatrix

/-- The constructor. -/
def new (n : Nat) : BitMatrix := ⟨n, .resized (uint32 (n * n))⟩

def resize (_ : BitMatrix) (n : Nat) : BitMatrix := new n

/-- `BitMatrix::idx`, with its two assertions. -/
def idx (m : BitMatrix) (row col : Nat) : Option Nat :=
  if row < m.N ∧ col < m.N then some (uint32 (row * m.N + col)) else none

def test (m : BitMatrix) (row col : Nat) : Option Bool :=
  (m.idx row col).bind m.bv.test

def set (m : BitMatrix) (row col : Nat) : Option BitMatrix :=
  (m.idx row col).bind fun i => (m.bv.set i).map fun bv => { m with bv := bv }

/-- The end of `firstSuccessor` and `nextSuccessor`: a hit beyond the row is a miss. -/
def colOf (m : BitMatrix) (row : Nat) (next : Option Nat) : Option Nat :=
  let rowBegin := uint32 (m.N * row)
  let rowEnd := uint32 (rowBegin + m.N)
  match next with
  | none => none
  | some next => if next ≥ rowEnd then none else some (next - rowBegin)

def firstSuccessor (m : BitMatrix) (row : Nat) : Option (Option Nat) :=
  let rowBegin := uint32 (m.N * row)
  let next := if rowBegin = 0 then some m.bv.findFirst else m.bv.findNext (rowBegin - 1)
  next.map (m.colOf row)

def nextSuccessor (m : BitMatrix) (row prev : Nat) : Option (Option Nat) :=
  (m.bv.findNext (uint32 (m.N * row + prev))).map (m.colOf row)

/-- `if (!test(i, k)) { changedI = true; set(i, k); }` -/
def addRelation (m : BitMatrix) (changedI : Bool) (i k : Nat) : Option (BitMatrix × Bool) := do
  if ← m.test i k then return (m, changedI)
  else return (← m.set i k, true)

/-- `for (k = firstSuccessor(row); k != -1; k = nextSuccessor(row, k))` with the
flag `changedI` as the loop's other state; the successors are those of the matrix
the body leaves behind. -/
def forSuccessors (row : Nat) (body : BitMatrix → Bool → Nat → Option (BitMatrix × Bool))
    (m : BitMatrix) (changedI : Bool) : Option (BitMatrix × Bool) := do
  let (m, changedI, _) ← loopM (fun s => s.2.2.isSome)
    (fun (m, changedI, k?) => do
      let k ← k?
      let (m, changedI) ← body m changedI k
      return (m, changedI, ← m.nextSuccessor row k))
    m.N (m, changedI, ← m.firstSuccessor row)
  return (m, changedI)

/-- `row[i] |= row[j]`: the loop over the successors of `j`. -/
def orRow (m : BitMatrix) (changedI : Bool) (i j : Nat) : Option (BitMatrix × Bool) :=
  forSuccessors j (fun m changedI k => m.addRelation changedI i k) m changedI

/-- The loop over the successors of `i`. -/
def closeRow (m : BitMatrix) (i : Nat) : Option (BitMatrix × Bool) :=
  forSuccessors i (fun m changedI j => m.orRow changedI i j) m false

/-- `for p: if (test(p, i)) if (p not in worklist) worklist.push_back(p);` -/
def pushPredecessors (m : BitMatrix) (i : Nat) (worklist : List Nat) : Option (List Nat) :=
  (List.range m.N).foldlM (fun worklist p => do
    if ← m.test p i then
      return if p ∈ worklist then worklist else worklist ++ [p]
    else return worklist) worklist

/-- The body of the worklist loop. -/
def closureStep : BitMatrix × List Nat → Option (BitMatrix × List Nat)
  | (_, []) => none
  | (m, i :: worklist) => do
      let (m, changedI) ← m.closeRow i
      if changedI then return (m, ← m.pushPredecessors i worklist)
      else return (m, worklist)

/-- `BitMatrix::transitiveClosure`.  A row enters the worklist once more for each
cell that is set, which bounds the number of iterations. -/
def transitiveClosure (m : BitMatrix) : Option BitMatrix :=
  (loopM (fun s => !s.2.isEmpty) closureStep (m.N * m.N * (m.N + 1) + m.N)
    (m, List.range m.N)).map (·.1)

/-! ## Cells -/

/-- The relation a matrix depicts. -/
def Related (m : BitMatrix) (i k : Nat) : Prop :=
  i < m.N ∧ k < m.N ∧ m.bv.bits (i * m.N + k) = true

instance (m : BitMatrix) (i k : Nat) : Decidable (m.Related i k) :=
  inferInstanceAs (Decidable (_ ∧ _ ∧ _))

/-- A matrix whose positions do not overflow. -/
structure Fits (m : BitMatrix) : Prop where
  lt : m.N < 65536
  size : m.bv.size = m.N * m.N

variable {m : BitMatrix} {i j k : Nat}

theorem new_fits {n : Nat} (h : n < 65536) : (new n).Fits where
  lt := h
  size := uint32_of_lt (by
    have : n * n ≤ 65535 * 65535 := Nat.mul_le_mul (by omega) (by omega)
    omega)

@[simp] theorem not_related_new {n : Nat} : ¬ (new n).Related i k := fun h => by
  simp [new, BitVector.resized] at h
  exact Bool.false_ne_true h.2.2

theorem pos_lt {n i k : Nat} (hi : i < n) (hk : k < n) : i * n + k < n * n :=
  calc i * n + k < i * n + n := by omega
    _ = (i + 1) * n := by rw [Nat.add_mul, Nat.one_mul]
    _ ≤ n * n := Nat.mul_le_mul_right n hi

theorem pos_inj {n a b i k : Nat} (hb : b < n) (hk : k < n) (h : a * n + b = i * n + k) :
    a = i ∧ b = k := by
  have hn : 0 < n := by omega
  have hmod : b = k := by
    have := congrArg (· % n) h
    simpa [Nat.mod_eq_of_lt hb, Nat.mod_eq_of_lt hk, Nat.add_mod] using this
  subst hmod
  exact ⟨Nat.eq_of_mul_eq_mul_right hn (by omega), rfl⟩

namespace Fits

section

variable (h : m.Fits) (hi : i < m.N) (hk : k < m.N)

include h hi hk

theorem pos_lt : i * m.N + k < 2 ^ 32 := by
  have h₁ := BitMatrix.pos_lt hi hk
  have h₂ : m.N * m.N ≤ 65535 * 65535 := Nat.mul_le_mul (by have := h.lt; omega) (by have := h.lt; omega)
  omega

theorem idx_eq : m.idx i k = some (i * m.N + k) := by
  rw [idx, if_pos ⟨hi, hk⟩, uint32_of_lt (h.pos_lt hi hk)]

theorem test_eq :
    m.test i k = some (decide (m.Related i k)) := by
  rw [test, h.idx_eq hi hk, bind_some, BitVector.test, h.size,
    if_pos (BitMatrix.pos_lt hi hk)]
  simp [Related, hi, hk]

/-- Setting a bit of the matrix adds exactly that relation. -/
theorem set_spec :
    ∃ m', m.set i k = some m' ∧ m'.Fits ∧ m'.N = m.N ∧
      ∀ a b, m'.Related a b ↔ m.Related a b ∨ (a = i ∧ b = k) := by
  refine ⟨{ m with bv := { m.bv with bits := Function.update m.bv.bits (i * m.N + k) true } },
    ?_, ⟨h.lt, h.size⟩, rfl, fun a b => ?_⟩
  · have hlt : i * m.N + k < m.bv.size := h.size.symm ▸ BitMatrix.pos_lt hi hk
    rw [set, h.idx_eq hi hk, bind_some, BitVector.set, if_pos hlt]
    rfl
  · unfold Related
    by_cases hab : a = i ∧ b = k
    · obtain ⟨rfl, rfl⟩ := hab
      simp [hi, hk]
    · simp only [hab, or_false]
      refine and_congr_right fun ha => and_congr_right fun hb => ?_
      rw [Function.update_of_ne fun heq => hab (pos_inj hb hk heq)]

end

end Fits

/-! ## Successors -/

/-- `k?` is the first successor of `i` that is not before `c`. -/
def IsNext (m : BitMatrix) (i c : Nat) : Option Nat → Prop
  | none => ∀ k, c ≤ k → ¬ m.Related i k
  | some k => c ≤ k ∧ m.Related i k ∧ ∀ k', c ≤ k' → k' < k → ¬ m.Related i k'

namespace Fits

section

variable (h : m.Fits) (hi : i < m.N)

include h hi

/-- The next bit of the vector, if it is in the row, is the next column. -/
theorem colOf_findFrom (c : Nat) :
    m.IsNext i c (m.colOf i (m.bv.findFrom (i * m.N + c))) := by
  have hle : (i + 1) * m.N ≤ m.N * m.N := Nat.mul_le_mul_right m.N hi
  have hsq : m.N * m.N ≤ 65535 * 65535 :=
    Nat.mul_le_mul (by have := h.lt; omega) (by have := h.lt; omega)
  have hrow : (i + 1) * m.N = i * m.N + m.N := by rw [Nat.add_mul, Nat.one_mul]
  have hbegin : uint32 (m.N * i) = i * m.N := by
    rw [Nat.mul_comm]
    exact uint32_of_lt (by omega)
  have hend : uint32 (i * m.N + m.N) = i * m.N + m.N := uint32_of_lt (by omega)
  cases hf : m.bv.findFrom (i * m.N + c) with
  | none =>
      rintro k hk ⟨_, hkN, hbit⟩
      have := BitVector.findFrom_eq_none hf (i := i * m.N + k) (by omega) (by rw [h.size]; omega)
      exact Bool.false_ne_true (this.symm.trans hbit)
  | some r =>
      obtain ⟨hs, hsize, hbit, hbefore⟩ := BitVector.findFrom_eq_some hf
      have hno : ∀ k', c ≤ k' → i * m.N + k' < r → ¬ m.Related i k' := by
        rintro k' hk' hlt ⟨_, _, hb⟩
        exact Bool.false_ne_true ((hbefore _ (by omega) hlt).symm.trans hb)
      by_cases hr : r ≥ i * m.N + m.N
      · have hcol : m.colOf i (some r) = none := by
          rw [colOf, hbegin, hend]
          exact if_pos hr
        rw [hcol]
        exact fun k hk hrel => hno k hk (by have := hrel.2.1; omega) hrel
      · have hcol : m.colOf i (some r) = some (r - i * m.N) := by
          rw [colOf, hbegin, hend]
          exact if_neg hr
        rw [hcol]
        have hsum : i * m.N + (r - i * m.N) = r := by omega
        refine ⟨by omega, ⟨hi, by omega, by rw [hsum]; exact hbit⟩, fun k' hk' hlt => ?_⟩
        exact hno k' hk' (by omega)

/-- The first successor is the least related column. -/
theorem firstSuccessor_spec :
    ∃ k?, m.firstSuccessor i = some k? ∧ m.IsNext i 0 k? := by
  have hle : (i + 1) * m.N ≤ m.N * m.N := Nat.mul_le_mul_right m.N hi
  have hrow : (i + 1) * m.N = i * m.N + m.N := by rw [Nat.add_mul, Nat.one_mul]
  have hbegin : uint32 (m.N * i) = i * m.N := by
    rw [Nat.mul_comm]
    exact uint32_of_lt (h.pos_lt (k := 0) hi (by omega))
  refine ⟨_, ?_, h.colOf_findFrom hi 0⟩
  rw [firstSuccessor, hbegin]
  by_cases h0 : i * m.N = 0
  · simp [h0, BitVector.findFirst]
  · have hnext : m.bv.findNext (i * m.N - 1) = some (m.bv.findFrom (i * m.N)) := by
      have hstart : i * m.N - 1 + 1 = i * m.N := by omega
      rw [BitVector.findNext, if_pos (by rw [h.size]; omega), hstart]
    simp [h0, hnext]

/-- The next successor is the least related column after the previous one. -/
theorem nextSuccessor_spec {prev : Nat} (hp : prev < m.N) :
    ∃ k?, m.nextSuccessor i prev = some k? ∧ m.IsNext i (prev + 1) k? := by
  have hlt := BitMatrix.pos_lt hi hp
  have hpos : uint32 (m.N * i + prev) = i * m.N + prev := by
    rw [Nat.mul_comm m.N i]
    exact uint32_of_lt (h.pos_lt hi hp)
  refine ⟨_, ?_, h.colOf_findFrom hi (prev + 1)⟩
  rw [nextSuccessor, hpos, BitVector.findNext, if_pos (by rw [h.size]; omega)]
  rfl

/-- A relation is added, and the flag reports whether it was new. -/
theorem addRelation_spec (hk : k < m.N) (changedI : Bool) :
    ∃ m' changedI', m.addRelation changedI i k = some (m', changedI') ∧ m'.Fits ∧ m'.N = m.N ∧
      (∀ a b, m'.Related a b ↔ m.Related a b ∨ (a = i ∧ b = k)) ∧
      changedI' = (changedI || !decide (m.Related i k)) := by
  by_cases hr : m.Related i k
  · refine ⟨m, changedI, ?_, h, rfl, fun a b => ?_, by simp [hr]⟩
    · simp [addRelation, h.test_eq hi hk, hr]
    · exact ⟨.inl, fun hab => hab.elim id fun ⟨ha, hb⟩ => ha ▸ hb ▸ hr⟩
  · obtain ⟨m', hm', hfits, hN, hrel⟩ := h.set_spec hi hk
    refine ⟨m', true, ?_, hfits, hN, hrel, by simp [hr]⟩
    simp [addRelation, h.test_eq hi hk, hr, hm']

end

end Fits

/-! ## The loops over successors -/

/-- Rule for a loop over the successors of a row: the invariant `I c` says that
the successors before `c` are done. -/
theorem forSuccessors_rule {row N : Nat} (hrow : row < N)
    {body : BitMatrix → Bool → Nat → Option (BitMatrix × Bool)} (I : Nat → BitMatrix → Bool → Prop)
    (hfits : ∀ c m ch, I c m ch → m.Fits ∧ m.N = N)
    (hskip : ∀ c k m ch, I c m ch → c ≤ k →
      (∀ k', c ≤ k' → k' < k → ¬ m.Related row k') → I k m ch)
    (hstep : ∀ k m ch, I k m ch → m.Related row k →
      ∃ m' ch', body m ch k = some (m', ch') ∧ I (k + 1) m' ch')
    {m : BitMatrix} {ch : Bool} (h0 : I 0 m ch) :
    ∃ m' ch', forSuccessors row body m ch = some (m', ch') ∧ I N m' ch' := by
  obtain ⟨hm, hN⟩ := hfits 0 m ch h0
  obtain ⟨k₀, hk₀, hnext₀⟩ := hm.firstSuccessor_spec (hN ▸ hrow)
  obtain ⟨⟨m', ch', k'⟩, hloop, ⟨c, hc, hI, hnext⟩, hend⟩ := @loopM_rule _
    (fun s : BitMatrix × Bool × Option Nat => s.2.2.isSome)
    (fun (m, changedI, k?) => do
      let k ← k?
      let (m, changedI) ← body m changedI k
      return (m, changedI, ← m.nextSuccessor row k))
    (fun s => ∃ c, c ≤ N ∧ I c s.1 s.2.1 ∧ s.1.IsNext row c s.2.2)
    (fun s => match s.2.2 with | none => 0 | some k => N - k) (by
      rintro ⟨m, ch, k?⟩ ⟨c, hc, hI, hnext⟩ hcond
      obtain ⟨k, rfl⟩ := isSome_iff_exists.mp hcond
      obtain ⟨hck, hrel, hbefore⟩ := hnext
      obtain ⟨m', ch', hbody, hI'⟩ := hstep k m ch (hskip c k m ch hI hck hbefore) hrel
      obtain ⟨_, hN₁⟩ := hfits c m ch hI
      obtain ⟨hm', hN'⟩ := hfits _ m' ch' hI'
      have hkN : k < N := hN₁ ▸ hrel.2.1
      obtain ⟨k', hk', hnext'⟩ := hm'.nextSuccessor_spec (hN' ▸ hrow) (hN' ▸ hkN)
      refine ⟨(m', ch', k'), ?_, ⟨k + 1, hkN, hI', hnext'⟩, ?_⟩
      · simp [hbody, hk']
      · cases k' with
        | none => exact Nat.sub_pos_of_lt hkN
        | some k' =>
            have hlt : k + 1 ≤ k' := hnext'.1
            have hk'N : k' < N := hN' ▸ hnext'.2.1.2.1
            simp only
            omega)
    m.N (m, ch, k₀) ⟨0, Nat.zero_le _, h0, hnext₀⟩ (by cases k₀ <;> simp [hN])
  refine ⟨m', ch', ?_, ?_⟩
  · simp only [forSuccessors, hk₀]
    simp only [Option.bind_eq_bind, Option.bind_some, Option.pure_def] at hloop ⊢
    rw [hloop]
    rfl
  · obtain rfl : k' = none := by simpa using hend
    exact hskip c N m' ch' hI hc fun k hk _ => hnext k hk

/-- What the work on row `i` guarantees, from the matrix `m` to the matrix `m'`:
only that row grows, and the flag says whether it did. -/
structure RowGrows (m : BitMatrix) (i : Nat) (m' : BitMatrix) (changedI : Bool) : Prop where
  fits : m'.Fits
  N_eq : m'.N = m.N
  le : ∀ a b, m.Related a b → m'.Related a b
  only : ∀ a b, a ≠ i → m'.Related a b → m.Related a b
  changed : changedI = true → ∃ b, m'.Related i b ∧ ¬ m.Related i b
  unchanged : changedI = false → ∀ a b, m'.Related a b → m.Related a b

namespace RowGrows

variable {m m' m'' : BitMatrix} {i : Nat} {ch ch' : Bool}

theorem refl (h : m.Fits) (i : Nat) : m.RowGrows i m false :=
  ⟨h, rfl, fun _ _ => id, fun _ _ _ => id, fun h => absurd h Bool.false_ne_true, fun _ _ _ => id⟩

/-- One more relation is added to the row. -/
theorem add {k : Nat} (h : m.RowGrows i m' ch) (hi : i < m.N) (hk : k < m.N) :
    ∃ m'' ch', m'.addRelation ch i k = some (m'', ch') ∧ m.RowGrows i m'' ch' ∧
      ∀ a b, m''.Related a b ↔ m'.Related a b ∨ (a = i ∧ b = k) := by
  obtain ⟨m'', ch', hadd, hfits, hN, hrel, hch⟩ :=
    h.fits.addRelation_spec (h.N_eq ▸ hi) (h.N_eq ▸ hk) ch
  refine ⟨m'', ch', hadd, ⟨hfits, hN.trans h.N_eq, ?_, ?_, ?_, ?_⟩, hrel⟩
  · exact fun a b hab => (hrel a b).mpr (.inl (h.le a b hab))
  · intro a b ha hab
    exact ((hrel a b).mp hab).elim (h.only a b ha) fun heq => absurd heq.1 ha
  · intro htrue
    by_cases hold : ch = true
    · obtain ⟨b, hb, hnb⟩ := h.changed hold
      exact ⟨b, (hrel i b).mpr (.inl hb), hnb⟩
    · have hnew : ¬ m'.Related i k := by simpa [hold, htrue] using hch
      exact ⟨k, (hrel i k).mpr (.inr ⟨rfl, rfl⟩), fun hk => hnew (h.le i k hk)⟩
  · intro hfalse a b hab
    rw [hfalse] at hch
    have hboth : ch = false ∧ m'.Related i k := by simpa using hch.symm
    refine h.unchanged hboth.1 a b (((hrel a b).mp hab).elim id ?_)
    rintro ⟨rfl, rfl⟩
    exact hboth.2

end RowGrows

variable {m m' : BitMatrix} {i row : Nat} {ch ch' : Bool} {worklist : List Nat}

/-- Adding one row to another adds exactly its relations. -/
theorem RowGrows.orRow {j : Nat} (h : m.RowGrows i m' ch) (hi : i < m.N) (hj : j < m.N) :
    ∃ m'' ch', m'.orRow ch i j = some (m'', ch') ∧ m.RowGrows i m'' ch' ∧
      ∀ a b, m''.Related a b ↔ m'.Related a b ∨ (a = i ∧ m'.Related j b) := by
  obtain ⟨m'', ch', hloop, hg, hrel⟩ := @forSuccessors_rule j m.N hj
    (fun m changedI k => m.addRelation changedI i k)
    (fun c m'' ch' => m.RowGrows i m'' ch' ∧
      ∀ a b, m''.Related a b ↔ m'.Related a b ∨ (a = i ∧ m'.Related j b ∧ b < c))
    (fun _ _ _ hI => ⟨hI.1.fits, hI.1.N_eq⟩)
    (by
      rintro c k m'' ch' ⟨hg, hrel⟩ hck hno
      refine ⟨hg, fun a b => (hrel a b).trans ?_⟩
      have hout : m'.Related j b → b < k → b < c := by
        intro hjb hbk
        by_contra hcb
        exact hno b (Nat.le_of_not_lt hcb) hbk ((hrel j b).mpr (.inl hjb))
      constructor
      · exact Or.imp id fun ⟨ha, hjb, hb⟩ => ⟨ha, hjb, by omega⟩
      · exact Or.imp id fun ⟨ha, hjb, hb⟩ => ⟨ha, hjb, hout hjb hb⟩)
    (by
      rintro k m'' ch' ⟨hg, hrel⟩ hk
      obtain ⟨m₃, ch₃, hadd, hg₃, hrel₃⟩ := hg.add hi (hg.N_eq ▸ hk.2.1)
      refine ⟨m₃, ch₃, hadd, hg₃, fun a b => ?_⟩
      -- the row that is read is the row that grows only if both are row `i`
      have hjk : m'.Related j k := ((hrel j k).mp hk).elim id fun hr => hr.2.1
      rw [hrel₃, hrel]
      constructor
      · rintro ((hab | ⟨ha, hjb, hb⟩) | ⟨ha, rfl⟩)
        · exact .inl hab
        · exact .inr ⟨ha, hjb, by omega⟩
        · exact .inr ⟨ha, hjk, Nat.lt_succ_self b⟩
      · rintro (hab | ⟨ha, hjb, hb⟩)
        · exact .inl (.inl hab)
        · rcases Nat.lt_succ_iff_lt_or_eq.mp hb with hb | hb
          · exact .inl (.inr ⟨ha, hjb, hb⟩)
          · exact .inr ⟨ha, hb⟩)
    m' ch ⟨h, fun a b => by simp⟩
  refine ⟨m'', ch', hloop, hg, fun a b => (hrel a b).trans (or_congr_right (and_congr_right fun _ => ?_))⟩
  exact ⟨And.left, fun hjb => ⟨hjb, h.N_eq ▸ hjb.2.1⟩⟩

/-- `closeRow` makes row `i` include the rows of all its successors; what it adds
is reachable. -/
theorem Fits.closeRow_spec (h : m.Fits) (hi : i < m.N) :
    ∃ m' ch, m.closeRow i = some (m', ch) ∧ m.RowGrows i m' ch ∧
      (∀ j b, m.Related i j → m.Related j b → m'.Related i b) ∧
      ∀ b, m'.Related i b → TransGen m.Related i b := by
  obtain ⟨m', ch, hloop, hg, hincl, hsound⟩ := @forSuccessors_rule i m.N hi
    (fun m changedI j => m.orRow changedI i j)
    (fun c m' ch => m.RowGrows i m' ch ∧
      (∀ j b, j < c → m.Related i j → m.Related j b → m'.Related i b) ∧
      ∀ b, m'.Related i b → TransGen m.Related i b)
    (fun _ _ _ hI => ⟨hI.1.fits, hI.1.N_eq⟩)
    (by
      rintro c k m' ch ⟨hg, hincl, hsound⟩ hck hno
      refine ⟨hg, fun j b hjk hij hjb => ?_, hsound⟩
      by_cases hjc : j < c
      · exact hincl j b hjc hij hjb
      · exact absurd (hg.le i j hij) (hno j (Nat.le_of_not_lt hjc) hjk))
    (by
      rintro k m' ch ⟨hg, hincl, hsound⟩ hik
      obtain ⟨m'', ch', hor, hg', hrel⟩ := hg.orRow hi (hg.N_eq ▸ hik.2.1)
      refine ⟨m'', ch', hor, hg', fun j b hjk hij hjb => ?_, fun b hb => ?_⟩
      · rcases Nat.lt_succ_iff_lt_or_eq.mp hjk with hj | rfl
        · exact (hrel i b).mpr (.inl (hincl j b hj hij hjb))
        · exact (hrel i b).mpr (.inr ⟨rfl, hg.le j b hjb⟩)
      · rcases (hrel i b).mp hb with hb | ⟨_, hkb⟩
        · exact hsound b hb
        · by_cases hki : k = i
          · exact hsound b (hki ▸ hkb)
          · exact (hsound k hik).tail (hg.only k b hki hkb))
    m false ⟨.refl h i, fun j b hj => absurd hj (Nat.not_lt_zero j), fun b hb => .single hb⟩
  exact ⟨m', ch, hloop, hg, fun j b hij => hincl j b hij.2.1 hij, hsound⟩

/-! ## The worklist -/

/-- The predecessors of the row join the worklist, each once. -/
theorem Fits.pushPredecessors_spec (h : m.Fits) (hi : i < m.N) (hnodup : worklist.Nodup)
    (hlt : ∀ p ∈ worklist, p < m.N) :
    ∃ worklist', m.pushPredecessors i worklist = some worklist' ∧ worklist'.Nodup ∧
      (∀ p ∈ worklist', p < m.N) ∧ (∀ p ∈ worklist, p ∈ worklist') ∧
      ∀ p, m.Related p i → p ∈ worklist' := by
  obtain ⟨w, hw, hnd, hltw, hkeep, hpred⟩ := foldlM_rule
    (fun worklist p => do
      if ← m.test p i then
        return if p ∈ worklist then worklist else worklist ++ [p]
      else return worklist)
    (fun pre w => w.Nodup ∧ (∀ p ∈ w, p < m.N) ∧ (∀ p ∈ worklist, p ∈ w) ∧
      ∀ p ∈ pre, m.Related p i → p ∈ w)
    (l := List.range m.N) (s := worklist)
    ⟨hnodup, hlt, fun _ hp => hp, nofun⟩
    (by
      rintro pre p post w hsplit ⟨hnd, hltw, hkeep, hpred⟩
      have hp : p < m.N := mem_range.mp (by rw [hsplit]; simp)
      by_cases hr : m.Related p i
      · by_cases hmem : p ∈ w
        · refine ⟨w, by simp [h.test_eq hp hi, hr, hmem], hnd, hltw, hkeep, fun q hq hqi => ?_⟩
          rcases mem_append.mp hq with hq | hq
          · exact hpred q hq hqi
          · exact mem_singleton.mp hq ▸ hmem
        · refine ⟨w ++ [p], by simp [h.test_eq hp hi, hr, hmem], ?_, ?_, ?_, ?_⟩
          · exact nodup_append.mpr ⟨hnd, nodup_singleton p,
              fun a ha b hb heq => hmem (mem_singleton.mp hb ▸ heq ▸ ha)⟩
          · intro q hq
            rcases mem_append.mp hq with hq | hq
            · exact hltw q hq
            · exact mem_singleton.mp hq ▸ hp
          · exact fun q hq => mem_append_left _ (hkeep q hq)
          · intro q hq hqi
            rcases mem_append.mp hq with hq | hq
            · exact mem_append_left _ (hpred q hq hqi)
            · exact mem_append_right _ hq
      · refine ⟨w, by simp [h.test_eq hp hi, hr], hnd, hltw, hkeep, fun q hq hqi => ?_⟩
        rcases mem_append.mp hq with hq | hq
        · exact hpred q hq hqi
        · exact absurd (mem_singleton.mp hq ▸ hqi) hr)
  exact ⟨w, hw, hnd, hltw, hkeep, fun p hp => hpred p (mem_range.mpr hp.1) hp⟩

/-- The cells that are not set. -/
def unset (m : BitMatrix) : Finset (Nat × Nat) :=
  (Finset.range m.N ×ˢ Finset.range m.N).filter fun p => ¬ m.Related p.1 p.2

theorem mem_unset {p : Nat × Nat} :
    p ∈ m.unset ↔ (p.1 < m.N ∧ p.2 < m.N) ∧ ¬ m.Related p.1 p.2 := by
  simp [unset]

theorem card_unset_le (m : BitMatrix) : m.unset.card ≤ m.N * m.N := by
  have h := Finset.card_filter_le (Finset.range m.N ×ˢ Finset.range m.N)
    fun p => ¬ m.Related p.1 p.2
  rwa [Finset.card_product, Finset.card_range] at h

theorem RowGrows.card_unset_le (h : m.RowGrows i m' ch) :
    m'.unset.card ≤ m.unset.card := by
  refine Finset.card_le_card fun p hp => ?_
  rw [mem_unset, h.N_eq] at hp
  exact mem_unset.mpr ⟨hp.1, fun hr => hp.2 (h.le _ _ hr)⟩

theorem RowGrows.card_unset_lt (h : m.RowGrows i m' true) :
    m'.unset.card < m.unset.card := by
  obtain ⟨b, hb, hnb⟩ := h.changed rfl
  refine Finset.card_lt_card ⟨fun p hp => ?_, fun hsub => ?_⟩
  · rw [mem_unset, h.N_eq] at hp
    exact mem_unset.mpr ⟨hp.1, fun hr => hp.2 (h.le _ _ hr)⟩
  · have hN := h.N_eq
    have hib : (i, b) ∈ m.unset := mem_unset.mpr ⟨⟨hN ▸ hb.1, hN ▸ hb.2.1⟩, hnb⟩
    exact (mem_unset.mp (hsub hib)).2 hb

/-- Invariant of the worklist loop, from the initial matrix `m₀`: a row that is
not in the worklist includes the rows of its original successors. -/
structure Closing (m₀ m : BitMatrix) (worklist : List Nat) : Prop where
  fits : m.Fits
  N_eq : m.N = m₀.N
  le : ∀ a b, m₀.Related a b → m.Related a b
  sound : ∀ a b, m.Related a b → TransGen m₀.Related a b
  nodup : worklist.Nodup
  lt : ∀ p ∈ worklist, p < m.N
  closed : ∀ p, p ∉ worklist → ∀ j b, m₀.Related p j → m.Related j b → m.Related p b

/-- One iteration keeps the invariant; a row that changed enters the worklist
of its predecessors at the price of a cell that was set. -/
theorem Closing.step {m₀ : BitMatrix} (h : Closing m₀ m (i :: worklist)) :
    ∃ m' worklist', closureStep (m, i :: worklist) = some (m', worklist') ∧
      Closing m₀ m' worklist' ∧
      m'.unset.card * (m₀.N + 1) + worklist'.length <
        m.unset.card * (m₀.N + 1) + (i :: worklist).length := by
  have hi : i < m.N := h.lt i (.head _)
  obtain ⟨hiw, hnodup⟩ := nodup_cons.mp h.nodup
  have hlt : ∀ p ∈ worklist, p < m.N := fun p hp => h.lt p (.tail i hp)
  obtain ⟨m', ch, hclose, hg, hincl, hsound⟩ := h.fits.closeRow_spec hi
  have hle : ∀ a b, m₀.Related a b → m'.Related a b := fun a b hab => hg.le a b (h.le a b hab)
  have hsound' : ∀ a b, m'.Related a b → TransGen m₀.Related a b := by
    intro a b hab
    by_cases hai : a = i
    · subst hai
      exact TransGen.lift' id h.sound _ _ (hsound b hab)
    · exact h.sound a b (hg.only a b hai hab)
  -- the row that was processed is closed over the new matrix
  have hclosed_i : ∀ j b, m₀.Related i j → m'.Related j b → m'.Related i b := by
    intro j b hij hjb
    by_cases hji : j = i
    · exact hji ▸ hjb
    · exact hincl j b (h.le i j hij) (hg.only j b hji hjb)
  -- so is every other row that was closed and does not have it as a successor
  have hclosed : ∀ p, p ≠ i → p ∉ worklist → (∀ b, m₀.Related p i → m'.Related i b → m.Related i b) →
      ∀ j b, m₀.Related p j → m'.Related j b → m'.Related p b := by
    intro p hpi hpw hrow j b hpj hjb
    have hpw' : p ∉ i :: worklist := fun hmem => (mem_cons.mp hmem).elim hpi hpw
    refine hg.le p b (h.closed p hpw' j b hpj ?_)
    by_cases hji : j = i
    · subst hji
      exact hrow b hpj hjb
    · exact hg.only j b hji hjb
  cases ch with
  | false =>
      refine ⟨m', worklist, by simp [closureStep, hclose], ?_, ?_⟩
      · refine ⟨hg.fits, hg.N_eq.trans h.N_eq, hle, hsound', hnodup, ?_, fun p hpw => ?_⟩
        · exact fun p hp => hg.N_eq.symm ▸ hlt p hp
        · by_cases hpi : p = i
          · subst hpi
            exact hclosed_i
          · exact hclosed p hpi hpw fun b _ => hg.unchanged rfl i b
      · have := Nat.mul_le_mul_right (m₀.N + 1) hg.card_unset_le
        rw [length_cons]
        omega
  | true =>
      have hlt' : ∀ p ∈ worklist, p < m'.N := fun p hp => hg.N_eq.symm ▸ hlt p hp
      obtain ⟨w, hw, hnd, hltw, hkeep, hpred⟩ :=
        hg.fits.pushPredecessors_spec (hg.N_eq.symm ▸ hi) hnodup hlt'
      refine ⟨m', w, by simp [closureStep, hclose, hw], ?_, ?_⟩
      · refine ⟨hg.fits, hg.N_eq.trans h.N_eq, hle, hsound', hnd, hltw, fun p hpw => ?_⟩
        by_cases hpi : p = i
        · subst hpi
          exact hclosed_i
        · refine hclosed p hpi (fun hp => hpw (hkeep p hp)) fun b hpi' _ => ?_
          exact absurd (hpred p (hle p i hpi')) hpw
      · have hlen : w.length ≤ m₀.N := by
          have hsub := (subperm_of_subset hnd fun p hp => mem_range.mpr (hltw p hp)).length_le
          rwa [length_range, hg.N_eq, h.N_eq] at hsub
        have := Nat.mul_le_mul_right (m₀.N + 1) (Nat.succ_le_of_lt hg.card_unset_lt)
        rw [Nat.succ_mul] at this
        rw [length_cons]
        omega

/-- `transitiveClosure` ends, and two indices are related afterwards iff there is
a path of one or more steps between them. -/
theorem Fits.transitiveClosure_spec (h : m.Fits) :
    ∃ m', m.transitiveClosure = some m' ∧ m'.Fits ∧ m'.N = m.N ∧
      ∀ a b, m'.Related a b ↔ TransGen m.Related a b := by
  have hstart : Closing m m (List.range m.N) := by
    refine ⟨h, rfl, fun _ _ => id, fun _ _ => .single, nodup_range, ?_, ?_⟩
    · exact fun p hp => mem_range.mp hp
    · exact fun p hp j b hpj => absurd (mem_range.mpr hpj.1) hp
  obtain ⟨⟨m', w⟩, hloop, hinv, hend⟩ := @loopM_rule _
    (fun s : BitMatrix × List Nat => !s.2.isEmpty) closureStep
    (fun s => Closing m s.1 s.2) (fun s => s.1.unset.card * (m.N + 1) + s.2.length)
    (by
      rintro ⟨m₁, worklist⟩ hinv hcond
      cases worklist with
      | nil => simp at hcond
      | cons i worklist =>
          obtain ⟨m₂, w₂, hstep, hinv₂, hlt⟩ := hinv.step
          exact ⟨(m₂, w₂), hstep, hinv₂, hlt⟩)
    (m.N * m.N * (m.N + 1) + m.N) (m, List.range m.N) hstart
    (by
      have := Nat.mul_le_mul_right (m.N + 1) m.card_unset_le
      simp only [length_range]
      omega)
  obtain rfl : w = [] := by simpa using hend
  refine ⟨m', by rw [transitiveClosure, hloop]; rfl, hinv.fits, hinv.N_eq, fun a b =>
    ⟨hinv.sound a b, fun hab => ?_⟩⟩
  induction hab using TransGen.head_induction_on with
  | single hab => exact hinv.le _ _ hab
  | head hac _ ih => exact hinv.closed _ not_mem_nil _ _ hac ih

/-! ## The size -/

/-- The operations change neither the number of rows nor the size of the bit vector. -/
def SameSize (m m' : BitMatrix) : Prop := m'.N = m.N ∧ m'.bv.size = m.bv.size

theorem SameSize.trans {m'' : BitMatrix} (h : SameSize m m') (h' : SameSize m' m'') :
    SameSize m m'' :=
  ⟨h'.1.trans h.1, h'.2.trans h.2⟩

theorem set_sameSize {col : Nat} (h : m.set row col = some m') :
    SameSize m m' := by
  obtain ⟨i, _, h⟩ := bind_eq_some_iff.mp h
  obtain ⟨bv, hbv, rfl⟩ := map_eq_some_iff.mp h
  unfold BitVector.set at hbv
  split at hbv
  · cases hbv
    exact ⟨rfl, rfl⟩
  · cases hbv

theorem addRelation_sameSize {k : Nat}
    (h : m.addRelation ch i k = some (m', ch')) : SameSize m m' := by
  unfold addRelation at h
  obtain ⟨b, _, h⟩ := bind_eq_some_iff.mp h
  cases b with
  | true =>
      obtain ⟨rfl, _⟩ := Prod.ext_iff.mp (some.inj h)
      exact ⟨rfl, rfl⟩
  | false =>
      obtain ⟨m₁, hm₁, h⟩ := bind_eq_some_iff.mp h
      obtain ⟨rfl, _⟩ := Prod.ext_iff.mp (some.inj h)
      exact set_sameSize hm₁

theorem forSuccessors_sameSize {body : BitMatrix → Bool → Nat → Option (BitMatrix × Bool)}
    (hbody : ∀ m ch k m' ch', body m ch k = some (m', ch') → SameSize m m')
    (h : forSuccessors row body m ch = some (m', ch')) : SameSize m m' := by
  unfold forSuccessors at h
  obtain ⟨k₀, _, h⟩ := bind_eq_some_iff.mp h
  obtain ⟨⟨m₁, ch₁, k₁⟩, hloop, h⟩ := bind_eq_some_iff.mp h
  obtain ⟨rfl, rfl⟩ := Prod.ext_iff.mp (some.inj h)
  refine (loopM_preserves (fun s => SameSize m s.1) ?_ hloop ⟨rfl, rfl⟩).1
  rintro ⟨m₁, ch₁, k?⟩ ⟨m₂, ch₂, k₂⟩ hI _ hstep
  obtain ⟨k, _, hstep⟩ := bind_eq_some_iff.mp hstep
  obtain ⟨⟨m₃, ch₃⟩, hb, hstep⟩ := bind_eq_some_iff.mp hstep
  obtain ⟨k₃, _, hstep⟩ := bind_eq_some_iff.mp hstep
  obtain ⟨rfl, _⟩ := Prod.ext_iff.mp (some.inj hstep)
  exact hI.trans (hbody _ _ _ _ _ hb)

/-- A step of the closure keeps the size of the matrix. -/
theorem closureStep_sameSize {w w' : List Nat}
    (h : closureStep (m, w) = some (m', w')) : SameSize m m' := by
  cases w with
  | nil => cases h
  | cons i w =>
      obtain ⟨⟨m₁, ch⟩, hclose, h⟩ := bind_eq_some_iff.mp h
      have hsame : SameSize m m₁ := forSuccessors_sameSize
        (fun _ _ _ _ _ hor => forSuccessors_sameSize
          (fun _ _ _ _ _ hadd => addRelation_sameSize hadd) hor) hclose
      cases ch with
      | false =>
          obtain ⟨rfl, _⟩ := Prod.ext_iff.mp (some.inj h)
          exact hsame
      | true =>
          obtain ⟨w₁, _, h⟩ := bind_eq_some_iff.mp h
          obtain ⟨rfl, _⟩ := Prod.ext_iff.mp (some.inj h)
          exact hsame

theorem transitiveClosure_sameSize (h : m.transitiveClosure = some m') :
    SameSize m m' := by
  obtain ⟨⟨m₁, w⟩, hloop, rfl⟩ := map_eq_some_iff.mp h
  refine (loopM_preserves (fun s => SameSize m s.1) ?_ hloop ⟨rfl, rfl⟩).1
  rintro ⟨m₁, w₁⟩ ⟨m₂, w₂⟩ hI _ hstep
  exact hI.trans (closureStep_sameSize hstep)

theorem exists_test_eq_none (hN : 65536 ≤ m.N) (hsize : m.bv.size < 2 ^ 32) :
    ∃ row col, row < m.N ∧ col < m.N ∧ m.test row col = none := by
  have hrow : (2 ^ 32 - 1) / m.N < m.N := by
    rw [Nat.div_lt_iff_lt_mul (by omega)]
    calc 2 ^ 32 - 1 < 65536 * 65536 := by decide
      _ ≤ m.N * m.N := Nat.mul_le_mul hN hN
  have hcol : (2 ^ 32 - 1) % m.N < m.N := Nat.mod_lt _ (by omega)
  refine ⟨(2 ^ 32 - 1) / m.N, (2 ^ 32 - 1) % m.N, hrow, hcol, ?_⟩
  have hpos : uint32 ((2 ^ 32 - 1) / m.N * m.N + (2 ^ 32 - 1) % m.N) = 2 ^ 32 - 1 := by
    rw [Nat.div_add_mod']
    rfl
  rw [test, idx, if_pos ⟨hrow, hcol⟩, hpos, bind_some, BitVector.test, if_neg (by omega)]

end BitMatrix

end Noelle
