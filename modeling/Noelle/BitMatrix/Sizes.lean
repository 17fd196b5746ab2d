import Noelle.BitMatrix

/-!
# BitMatrix.Sizes

For which sizes the operations of a bit matrix mean what they say.

The size of the bit vector and the position of a cell are both computed in 32 bits.
Below 65536 rows neither wraps, and the cells are separate bits.  From 65536 rows on
the vector has lost its high part, so some cell lies beyond it.
-/

namespace Noelle

open Function Relation Option

namespace BitVector

/-- `reset(unsigned)`. -/
def reset (bv : BitVector) (i : Nat) : Option BitVector :=
  if i < bv.size then some { bv with bits := update bv.bits i false } else none

end BitVector

namespace BitMatrix

/-- `BitMatrix::set` with all its arguments. -/
def setTo (m : BitMatrix) (row col : Nat) (v : Bool) : Option BitMatrix :=
  (m.idx row col).bind fun i =>
    (if v then m.bv.set i else m.bv.reset i).map fun bv => { m with bv := bv }

/-! ## Allocated matrices -/

/-- What every matrix satisfies: the number of rows is a 32-bit number, and the vector
was allocated for it. -/
structure Allocated (m : BitMatrix) : Prop where
  lt : m.N < 2 ^ 32
  size : m.bv.size = uint32 (m.N * m.N)

variable {m m' : BitMatrix} {n row col : Nat} {v : Bool}

theorem new_allocated (h : n < 2 ^ 32) : (new n).Allocated := ⟨h, rfl⟩

theorem resize_allocated (m : BitMatrix) (h : n < 2 ^ 32) : (m.resize n).Allocated := ⟨h, rfl⟩

theorem SameSize.allocated (h : SameSize m m') (hm : m.Allocated) : m'.Allocated :=
  ⟨h.1 ▸ hm.lt, by rw [h.2, h.1, hm.size]⟩

theorem Allocated.fits (h : m.Allocated) (hN : m.N < 65536) : m.Fits where
  lt := hN
  size := by
    have hle : m.N * m.N ≤ 65535 * 65535 := Nat.mul_le_mul (by omega) (by omega)
    rw [h.size, uint32_of_lt (by omega)]

theorem Allocated.size_lt (h : m.Allocated) : m.bv.size < 2 ^ 32 := by
  rw [h.size]
  exact Nat.mod_lt _ (by decide)

/-! ## Cells -/

/-- The cells are separate bits of the vector: every cell has a position inside it,
different cells have different positions, and a write changes the cell it is about and
no other one. -/
structure CellsSeparate (m : BitMatrix) : Prop where
  idx_lt : ∀ row < m.N, ∀ col < m.N, ∃ i, m.idx row col = some i ∧ i < m.bv.size
  idx_inj : ∀ row < m.N, ∀ col < m.N, ∀ row' < m.N, ∀ col' < m.N,
    m.idx row col = m.idx row' col' → row = row' ∧ col = col'
  test_setTo : ∀ row < m.N, ∀ col < m.N, ∀ v, ∃ m', m.setTo row col v = some m' ∧
    ∀ row' < m.N, ∀ col' < m.N,
      m'.test row' col' = if row' = row ∧ col' = col then some v else m.test row' col'

namespace Fits

theorem setTo_eq (h : m.Fits) (hr : row < m.N) (hc : col < m.N) (v : Bool) :
    m.setTo row col v = some { m with
      bv := { m.bv with bits := update m.bv.bits (row * m.N + col) v } } := by
  have hlt : row * m.N + col < m.bv.size := h.size.symm ▸ BitMatrix.pos_lt hr hc
  rw [setTo, h.idx_eq hr hc, bind_some]
  cases v with
  | true => rw [if_pos rfl, BitVector.set, if_pos hlt, map_some]
  | false => rw [if_neg Bool.false_ne_true, BitVector.reset, if_pos hlt, map_some]

theorem test_eq_bit (h : m.Fits) (hr : row < m.N) (hc : col < m.N) :
    m.test row col = some (m.bv.bits (row * m.N + col)) := by
  rw [test, h.idx_eq hr hc, bind_some, BitVector.test, h.size,
    if_pos (BitMatrix.pos_lt hr hc)]

theorem cellsSeparate (h : m.Fits) : m.CellsSeparate where
  idx_lt := fun row hr col hc =>
    ⟨row * m.N + col, h.idx_eq hr hc, h.size.symm ▸ BitMatrix.pos_lt hr hc⟩
  idx_inj := fun row hr col hc row' hr' col' hc' heq => by
    rw [h.idx_eq hr hc, h.idx_eq hr' hc'] at heq
    exact pos_inj hc hc' (some.inj heq)
  test_setTo := fun row hr col hc v => by
    refine ⟨_, h.setTo_eq hr hc v, fun row' hr' col' hc' => ?_⟩
    have hfits : ({ m with bv := { m.bv with
        bits := update m.bv.bits (row * m.N + col) v } } : BitMatrix).Fits :=
      ⟨h.lt, h.size⟩
    rw [hfits.test_eq_bit hr' hc', h.test_eq_bit hr' hc']
    by_cases hcell : row' = row ∧ col' = col
    · rw [if_pos hcell, hcell.1, hcell.2]
      exact congrArg some (update_self ..)
    · rw [if_neg hcell]
      exact congrArg some (update_of_ne (fun heq => hcell (pos_inj hc' hc heq)) ..)

end Fits

theorem CellsSeparate.test_ne_none (h : m.CellsSeparate) (hr : row < m.N) (hc : col < m.N) :
    m.test row col ≠ none := by
  obtain ⟨i, hidx, hlt⟩ := h.idx_lt row hr col hc
  rw [test, hidx, bind_some, BitVector.test, if_pos hlt]
  exact some_ne_none _

theorem Allocated.cellsSeparate_iff (h : m.Allocated) : m.CellsSeparate ↔ m.N < 65536 := by
  refine ⟨fun hsep => ?_, fun hN => (h.fits hN).cellsSeparate⟩
  by_contra hle
  obtain ⟨row, col, hr, hc, hnone⟩ := exists_test_eq_none (Nat.le_of_not_lt hle) h.size_lt
  exact hsep.test_ne_none hr hc hnone

/-- **Indexing**: after a resize to `n` rows the cells are separate bits of the vector
if and only if there are fewer than 65536 rows. -/
theorem resize_cellsSeparate_iff (m : BitMatrix) (h : n < 2 ^ 32) :
    (m.resize n).CellsSeparate ↔ n < 65536 :=
  (m.resize_allocated h).cellsSeparate_iff

/-- With 65536 rows the vector has no bit at all. -/
theorem resize_not_cellsSeparate :
    ((new 1).resize 65536).bv.size = 0 ∧ ((new 1).resize 65536).idx 0 0 = some 0 ∧
      ¬ ((new 1).resize 65536).CellsSeparate := by
  refine ⟨by decide, by decide, fun h => ?_⟩
  exact @CellsSeparate.test_ne_none _ 0 0 h (by decide) (by decide) (by decide)

theorem resize_cellsSeparate_three : ((new 1).resize 3).CellsSeparate ↔ 3 < 65536 :=
  resize_cellsSeparate_iff (new 1) (by decide)

/-! ## Transitive closure -/

/-- The matrix as a graph. -/
def Reads (m : BitMatrix) (i k : Nat) : Prop := m.test i k = some true

theorem Fits.reads_iff (h : m.Fits) (i k : Nat) : m.Reads i k ↔ m.Related i k := by
  by_cases hik : i < m.N ∧ k < m.N
  · rw [Reads, h.test_eq hik.1 hik.2, some.injEq, decide_eq_true_eq]
  · refine iff_of_false (fun hr => ?_) fun hr => hik ⟨hr.1, hr.2.1⟩
    rw [Reads, test, idx, if_neg hik] at hr
    cases hr

/-- `transitiveClosure` ends, and afterwards a cell is set iff the graph of the initial
matrix has a path of one or more edges. -/
def ClosesTransitively (m : BitMatrix) : Prop :=
  ∃ m', m.transitiveClosure = some m' ∧ ∀ i < m.N, ∀ k < m.N,
    ∃ b, m'.test i k = some b ∧ (b = true ↔ TransGen m.Reads i k)

theorem Fits.closesTransitively (h : m.Fits) : m.ClosesTransitively := by
  obtain ⟨m', hm', hfits, hN, hrel⟩ := h.transitiveClosure_spec
  have hreads : m.Reads = m.Related := funext fun i => funext fun k => propext (h.reads_iff i k)
  refine ⟨m', hm', fun i hi k hk => ⟨decide (m'.Related i k), ?_, ?_⟩⟩
  · exact hfits.test_eq (hN.symm ▸ hi) (hN.symm ▸ hk)
  · rw [decide_eq_true_eq, hrel, hreads]

theorem Allocated.not_closesTransitively (h : m.Allocated) (hN : 65536 ≤ m.N) :
    ¬ m.ClosesTransitively := by
  rintro ⟨m', hm', htest⟩
  have hsame := transitiveClosure_sameSize hm'
  obtain ⟨i, k, hi, hk, hnone⟩ :=
    @exists_test_eq_none m' (hsame.1.symm ▸ hN) (hsame.allocated h).size_lt
  obtain ⟨b, hb, _⟩ := htest i (hsame.1 ▸ hi) k (hsame.1 ▸ hk)
  rw [hnone] at hb
  cases hb

/-- **Transitive closure**: the closure of a matrix is computed if and only if it has
fewer than 65536 rows. -/
theorem transitiveClosure_correct_iff (h : m.Allocated) :
    m.ClosesTransitively ↔ m.N < 65536 := by
  refine ⟨fun hc => ?_, fun hN => (h.fits hN).closesTransitively⟩
  by_contra hle
  exact h.not_closesTransitively (Nat.le_of_not_lt hle) hc

/-- The empty graph over 65536 nodes. -/
theorem not_closesTransitively_65536 :
    (new 65536).test 0 0 = none ∧ ¬ (new 65536).ClosesTransitively :=
  ⟨by decide, (new_allocated (by decide)).not_closesTransitively (by decide)⟩

/-- A cycle of two nodes, with an edge to a third one. -/
def cycleMatrix : Option BitMatrix :=
  [(0, 1), (1, 0), (1, 2)].foldlM (fun m cell => m.set cell.1 cell.2) (new 3)

theorem transitiveClosure_correct_three : ∃ m, cycleMatrix = some m ∧ m.test 0 2 = some false ∧
    (m.ClosesTransitively ↔ m.N < 65536) := by
  obtain ⟨m, hm, hallocated, htest⟩ : ∃ m, cycleMatrix = some m ∧ m.Allocated ∧
      m.test 0 2 = some false := ⟨_, rfl, ⟨by decide, by decide⟩, by decide⟩
  exact ⟨m, hm, htest, transitiveClosure_correct_iff hallocated⟩

end BitMatrix

end Noelle
