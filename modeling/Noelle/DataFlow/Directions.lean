import Noelle.DataFlow.Worklist

/-!
# DataFlow.Directions

The forward and the backward analysis.

A backward analysis walks through a block from its terminator to its first
instruction, and visits instructions only.  A forward analysis walks one step too
far: the loop stops when the iterator *is* the end of the block, and the iterator
is incremented before it is used, so the callbacks see the end of the block as
well.  Nothing reads the sets of that position, and both analyses compute the
least solution of their equations.
-/

namespace Noelle

open List

namespace DataFlowEngine

variable {B V : Type}

/-! ## Positions of a block -/

/-- Neighbours in the list of a block are consecutive instructions. -/
theorem pair_infix_range {b : B} {n : Nat} {x y : Instruction B} :
    [x, y] <:+: (List.range n).map (Instruction.mk b) ↔
      ∃ k, k + 1 < n ∧ x = ⟨b, k⟩ ∧ y = ⟨b, k + 1⟩ := by
  rw [infix_iff_getElem?]
  constructor
  · rintro ⟨k, hk, hget⟩
    have hx := hget 0 (by simp)
    have hy := hget 1 (by simp)
    simp only [length_cons, length_nil, length_map, length_range] at hk
    rw [List.getElem?_map, List.getElem?_range (by omega)] at hx hy
    refine ⟨k, by omega, ?_, ?_⟩
    · rw [← Nat.zero_add k]
      exact (Option.some.inj hx).symm
    · rw [Nat.add_comm]
      exact (Option.some.inj hy).symm
  · rintro ⟨k, hk, rfl, rfl⟩
    refine ⟨k, by simp; omega, fun i hi => ?_⟩
    simp only [length_cons, length_nil] at hi
    rw [List.getElem?_map, List.getElem?_range (by omega)]
    rcases (by omega : i = 0 ∨ i = 1) with rfl | rfl
    · simp
    · simp [Nat.add_comm]

theorem nodup_range (b : B) (n : Nat) : ((List.range n).map (Instruction.mk b)).Nodup :=
  List.nodup_range.map fun _ _ h => (Instruction.mk.inj h).2

theorem mem_range {b : B} {n : Nat} {i : Instruction B} :
    i ∈ (List.range n).map (Instruction.mk b) ↔ i.parent = b ∧ i.index < n := by
  rw [mem_map]
  constructor
  · rintro ⟨k, hk, rfl⟩
    exact ⟨rfl, List.mem_range.mp hk⟩
  · rintro ⟨rfl, hk⟩
    exact ⟨i.index, List.mem_range.mpr hk, rfl⟩

/-! ## The walk of each direction -/

/-- The positions that a forward analysis visits, the end of the block among them. -/
def forwardOrder (f : CFG B) (b : B) : List (Instruction B) :=
  (List.range (f.size b + 1)).map (Instruction.mk b)

/-- The positions that a backward analysis visits. -/
def backwardOrder (f : CFG B) (b : B) : List (Instruction B) :=
  ((List.range (f.size b)).map (Instruction.mk b)).reverse

section Walks

variable [DecidableEq B]

/-- The forward walk goes from an instruction to the end of its block. -/
theorem steps_forward (f : CFG B) (b : B) : ∀ (m k : Nat), k + m = f.size b →
    Steps (forwardCustomization f (V := V)) b ⟨b, k⟩ ((List.range' (k + 1) m).map (Instruction.mk b))
  | 0, k, hk => .done (by rw [← Nat.add_zero k, hk]; rfl)
  | m + 1, k, hk => by
      rw [range'_succ, map_cons]
      have hlt : k < f.size b := by omega
      refine .next (fun hend => ?_) (if_pos hlt) (steps_forward f b m (k + 1) (by omega))
      exact absurd (Instruction.mk.inj hend).2 (Nat.ne_of_lt hlt)

/-- The backward walk goes from an instruction to the start of its block. -/
theorem steps_backward (f : CFG B) (b : B) : ∀ k : Nat,
    Steps (backwardCustomization f (V := V)) b ⟨b, k⟩ ((List.range k).map (Instruction.mk b)).reverse
  | 0 => .done rfl
  | k + 1 => by
      rw [range_succ, map_append, reverse_append]
      have hinc : (backwardCustomization f (V := V)).incrementIterator ⟨b, k + 1⟩ = some ⟨b, k⟩ := by
        show (if 0 < k + 1 then some (⟨b, k⟩ : Instruction B) else none) = some ⟨b, k⟩
        exact if_pos (Nat.succ_pos k)
      refine .next (fun hend => ?_) hinc (steps_backward f b k)
      exact absurd (Instruction.mk.inj hend).2 (Nat.succ_ne_zero k)

theorem walk_forward (f : CFG B) : Walk f (forwardCustomization f (V := V)) (forwardOrder f) where
  steps := fun b _ => by
    refine ⟨_, ?_, steps_forward f b (f.size b) 0 (Nat.zero_add _)⟩
    rw [forwardOrder, range_eq_range', range'_succ]
    rfl
  nodup := fun b _ => nodup_range b _
  parent := fun b _ i hi => (mem_range.mp hi).1
  contains_mem := fun i hi => mem_range.mpr ⟨rfl, Nat.lt_succ_of_lt hi.2⟩
  last_mem := fun b _ => mem_range.mpr ⟨rfl, Nat.lt_succ_of_le (Nat.sub_le _ _)⟩
  predecessors_mem := f.predecessors_mem
  successors_mem := f.successors_mem
  mem_successors := fun b hb p hp =>
    (f.mem_predecessors p (f.predecessors_mem b hb p hp) b hb).mp hp
  mem_appendBB := fun l b x => by
    rw [or_comm]
    exact mem_append.trans (or_congr_right mem_singleton)

theorem walk_backward (f : CFG B) :
    Walk f (backwardCustomization f (V := V)) (backwardOrder f) where
  steps := fun b hb => by
    refine ⟨_, ?_, steps_backward f b (f.size b - 1)⟩
    have hpos := f.size_pos b hb
    obtain ⟨n, hn⟩ : ∃ n, f.size b = n + 1 := ⟨f.size b - 1, by omega⟩
    rw [backwardOrder, hn, range_succ, map_append, reverse_append]
    show _ = f.getTerminator b :: _
    rw [CFG.getTerminator, hn]
    rfl
  nodup := fun b _ => nodup_reverse.mpr (nodup_range b _)
  parent := fun b _ i hi => (mem_range.mp (mem_reverse.mp hi)).1
  contains_mem := fun i hi => mem_reverse.mpr (mem_range.mpr ⟨rfl, hi.2⟩)
  last_mem := fun b hb => mem_reverse.mpr (mem_range.mpr ⟨rfl, f.size_pos b hb⟩)
  predecessors_mem := f.successors_mem
  successors_mem := f.predecessors_mem
  mem_successors := fun b hb p hp =>
    (f.mem_predecessors b hb p (f.successors_mem b hb p hp)).mpr hp
  mem_appendBB := fun _ _ _ => mem_cons

end Walks

/-! ## The equations over instructions -/

section Equations

variable (f : CFG B) (gen kill : Instruction B → PtrSet V)

/-- `IN[i]` is the union of `OUT` over the predecessors of `i`, and `OUT[i]` is `GEN[i]`
and what `KILL[i]` leaves of `IN[i]`. -/
def forwardProblem : FlowProblem (Instruction B) V where
  node := f.Contains
  prev := f.Succ
  gen i v := v ∈ gen i
  kill i v := v ∈ kill i
  prev_node _ _ h := h.contains.1

/-- `OUT[i]` is the union of `IN` over the successors of `i`, and `IN[i]` is `GEN[i]`
and what `KILL[i]` leaves of `OUT[i]`. -/
def backwardProblem : FlowProblem (Instruction B) V where
  node := f.Contains
  prev i j := f.Succ j i
  gen i v := v ∈ gen i
  kill i v := v ∈ kill i
  prev_node _ _ h := h.contains.2

variable [DecidableEq B] {f gen kill} {gens kills : Instruction B → PtrSet V}

theorem prev_forward {i j : Instruction B} (hj : f.Contains j) :
    f.Succ i j ↔ Adjacent f (forwardCustomization f (V := V)) (forwardOrder f) i j := by
  constructor
  · rintro ⟨hi, ⟨hlt, rfl⟩ | ⟨hlast, b, hb, rfl⟩⟩
    · exact ⟨i.parent, hi.1, .inl (pair_infix_range.mpr ⟨i.index, by omega, rfl, rfl⟩)⟩
    · have hb' := f.successors_mem _ hi.1 b hb
      refine ⟨b, hb', .inr ⟨rfl, i.parent, (f.mem_predecessors _ hi.1 b hb').mpr hb, ?_⟩⟩
      show i = ⟨i.parent, f.size i.parent - 1⟩
      rw [← hlast, Nat.add_sub_cancel]
  · rintro ⟨b, hb, hij | ⟨rfl, p, hp, rfl⟩⟩
    · obtain ⟨k, _, rfl, rfl⟩ := pair_infix_range.mp hij
      have hlt : k + 1 < f.size b := hj.2
      exact ⟨⟨hb, Nat.lt_of_succ_lt hlt⟩, .inl ⟨hlt, rfl⟩⟩
    · have hp' := f.predecessors_mem b hb p hp
      have hpos := f.size_pos p hp'
      exact ⟨CFG.contains_getTerminator hp', .inr ⟨Nat.sub_add_cancel hpos, b,
        (f.mem_predecessors p hp' b hb).mp hp, rfl⟩⟩

theorem prev_backward {i j : Instruction B} (hj : f.Contains j) :
    f.Succ j i ↔ Adjacent f (backwardCustomization f (V := V)) (backwardOrder f) i j := by
  have hpair : ∀ b x y, [x, y] <:+: backwardOrder f b ↔
      [y, x] <:+: (List.range (f.size b)).map (Instruction.mk b) := fun b x y => by
    rw [backwardOrder, ← reverse_infix, reverse_reverse]
    rfl
  constructor
  · rintro ⟨_, ⟨hlt, rfl⟩ | ⟨hlast, b, hb, rfl⟩⟩
    · exact ⟨j.parent, hj.1, .inl ((hpair _ _ _).mpr
        (pair_infix_range.mpr ⟨j.index, hlt, rfl, rfl⟩))⟩
    · refine ⟨j.parent, hj.1, .inr ⟨?_, b, hb, rfl⟩⟩
      show j = ⟨j.parent, f.size j.parent - 1⟩
      rw [← hlast, Nat.add_sub_cancel]
  · rintro ⟨b, hb, hij | ⟨rfl, p, hp, rfl⟩⟩
    · obtain ⟨k, hk, rfl, rfl⟩ := pair_infix_range.mp ((hpair _ _ _).mp hij)
      exact ⟨hj, .inl ⟨hk, rfl⟩⟩
    · exact ⟨hj, .inr ⟨Nat.sub_add_cancel (f.size_pos b hb), p, hp, rfl⟩⟩

end Equations

/-! ## The analyses -/

open GenKillAnalysis

variable [DecidableEq B] [DecidableEq V] (f : CFG B) (gen kill : Instruction B → PtrSet V)

/-- A gen and kill analysis, forward: `OUT[pred]` is added to `IN[i]`, and `GEN[i]` and
`IN[i]` without `KILL[i]` to `OUT[i]`. -/
def genKillForward (fuel : Nat) : Option (Analysis B V) :=
  applyForward f (computeGEN gen) (computeKILL kill) (fun _ s => s) (fun _ s => s)
    (addNeighbour outOf) (addTransfer inOf) fuel

/-- A gen and kill analysis, backward: `IN[succ]` is added to `OUT[i]`, and `GEN[i]` and
`OUT[i]` without `KILL[i]` to `IN[i]`. -/
def genKillBackward (fuel : Nat) : Option (Analysis B V) :=
  applyBackward f (computeGEN gen) (computeKILL kill) (addTransfer outOf) (addNeighbour inOf) fuel

/-- The forward analysis ends with the least solution.  Callbacks see the instructions
and the end of every block. -/
theorem genKillForward_spec :
    ∃ N, ∀ fuel ≥ N, ∃ a, genKillForward f gen kill fuel = some a ∧
      (forwardProblem f gen kill).IsLeastSolution (fun i v => v ∈ a.df.ins i)
        (fun i v => v ∈ a.df.outs i) ∧
      ∀ i, i ∈ a.invoked ↔ f.Contains i ∨ ∃ b ∈ f.blocks, i = f.endOf b := by
  have hmerges : Merges (forwardCustomization f) (fun _ _ => true) ⟨computeGEN gen,
      computeKILL kill, fun _ s => s, fun _ s => s, addNeighbour outOf, addTransfer inOf⟩ :=
    ⟨separate_inOf_outOf, rfl, rfl⟩
  obtain ⟨N, hN⟩ := applyGeneralizedForwardAnalysis_spec (walk_forward f) hmerges
    ⟨rfl, rfl, fun _ _ => rfl, fun _ _ => rfl⟩
    (Q := forwardProblem f gen kill) (fun _ hi => hi)
    (fun j hj i => (prev_forward hj).trans (and_iff_right rfl).symm) (fun _ _ => .rfl) fun _ _ => .rfl
  refine ⟨N, fun fuel hfuel => ?_⟩
  obtain ⟨a, ha, hleast, hinv⟩ := hN fuel hfuel
  refine ⟨a, ha, hleast, fun i => (hinv i).trans ?_⟩
  constructor
  · rintro ⟨b, hb, hi⟩
    obtain ⟨rfl, hlt⟩ := mem_range.mp hi
    rcases Nat.lt_succ_iff_lt_or_eq.mp hlt with hlt | heq
    · exact .inl ⟨hb, hlt⟩
    · exact .inr ⟨i.parent, hb, by rw [CFG.endOf, ← heq]⟩
  · rintro (hi | ⟨b, hb, rfl⟩)
    · exact ⟨i.parent, hi.1, (walk_forward f (V := V)).contains_mem i hi⟩
    · exact ⟨b, hb, mem_range.mpr ⟨rfl, Nat.lt_succ_self _⟩⟩

/-- The backward analysis ends with the least solution.  Callbacks see the
instructions. -/
theorem genKillBackward_spec :
    ∃ N, ∀ fuel ≥ N, ∃ a, genKillBackward f gen kill fuel = some a ∧
      (backwardProblem f gen kill).IsLeastSolution (fun i v => v ∈ a.df.outs i)
        (fun i v => v ∈ a.df.ins i) ∧
      ∀ i, i ∈ a.invoked ↔ f.Contains i := by
  have hmerges : Merges (backwardCustomization f) (fun _ _ => true) ⟨computeGEN gen,
      computeKILL kill, fun _ s => s, fun _ s => s, addNeighbour inOf, addTransfer outOf⟩ :=
    ⟨separate_outOf_inOf, rfl, rfl⟩
  obtain ⟨N, hN⟩ := applyGeneralizedForwardAnalysis_spec (walk_backward f) hmerges
    ⟨rfl, rfl, fun _ _ => rfl, fun _ _ => rfl⟩
    (Q := backwardProblem f gen kill) (fun _ hi => hi)
    (fun j hj i => (prev_backward hj).trans (and_iff_right rfl).symm) (fun _ _ => .rfl) fun _ _ => .rfl
  refine ⟨N, fun fuel hfuel => ?_⟩
  obtain ⟨a, ha, hleast, hinv⟩ := hN fuel hfuel
  refine ⟨a, ha, hleast, fun i => (hinv i).trans ⟨fun ⟨b, hb, hi⟩ => ?_, fun hi => ?_⟩⟩
  · obtain ⟨rfl, hlt⟩ := mem_range.mp (mem_reverse.mp hi)
    exact ⟨hb, hlt⟩
  · exact ⟨i.parent, hi.1, (walk_backward f (V := V)).contains_mem i hi⟩

/-- A backward gen and kill analysis terminates with the least `IN` and `OUT` sets. -/
theorem genKillBackward_isLeastSolution :
    ∃ N, ∀ fuel ≥ N, ∃ a, genKillBackward f gen kill fuel = some a ∧
      (backwardProblem f gen kill).IsLeastSolution (fun i v => v ∈ a.df.outs i)
        (fun i v => v ∈ a.df.ins i) := by
  obtain ⟨N, hN⟩ := genKillBackward_spec f gen kill
  refine ⟨N, fun fuel hfuel => ?_⟩
  obtain ⟨a, ha, hleast, _⟩ := hN fuel hfuel
  exact ⟨a, ha, hleast⟩

/-- The forward analysis terminates with the least solution, and callbacks are invoked
on instructions of the function only. -/
def ForwardOnInstructions : Prop :=
  ∃ N, ∀ fuel ≥ N, ∃ a, genKillForward f gen kill fuel = some a ∧
    (forwardProblem f gen kill).IsLeastSolution (fun i v => v ∈ a.df.ins i)
      (fun i v => v ∈ a.df.outs i) ∧
    ∀ i ∈ a.invoked, f.Contains i

variable {f gen kill}

theorem ForwardOnInstructions.not_mem_blocks (h : ForwardOnInstructions f gen kill) (b : B) :
    b ∉ f.blocks := by
  intro hb
  obtain ⟨N, hN⟩ := h
  obtain ⟨M, hM⟩ := genKillForward_spec f gen kill
  obtain ⟨a, ha, _, hcontains⟩ := hN (max N M) (le_max_left N M)
  obtain ⟨a', ha', _, hinv⟩ := hM (max N M) (le_max_right N M)
  obtain rfl : a = a' := Option.mem_unique ha ha'
  exact CFG.not_contains_endOf b (hcontains _ ((hinv _).mpr (.inr ⟨b, hb, rfl⟩)))

variable (f gen kill)

/-- The callbacks stay on instructions exactly in functions without blocks. -/
theorem forwardOnInstructions_iff : ForwardOnInstructions f gen kill ↔ f.blocks = [] := by
  constructor
  · exact fun h => eq_nil_iff_forall_not_mem.mpr h.not_mem_blocks
  · intro hnil
    obtain ⟨N, hN⟩ := genKillForward_spec f gen kill
    refine ⟨N, fun fuel hfuel => ?_⟩
    obtain ⟨a, ha, hleast, hinv⟩ := hN fuel hfuel
    refine ⟨a, ha, hleast, fun i hi => ((hinv i).mp hi).resolve_right ?_⟩
    rintro ⟨b, hb, _⟩
    rw [hnil] at hb
    nomatch hb

/-- A function that is one block with one instruction. -/
def returnOnly : CFG Unit where
  blocks := [()]
  size _ := 1
  successors _ := []
  predecessors _ := []
  size_pos _ _ := Nat.one_pos
  successors_mem := CFG.return_successors_mem
  predecessors_mem := CFG.return_successors_mem
  mem_predecessors := CFG.return_mem_predecessors

theorem not_forwardOnInstructions_returnOnly :
    ¬ ForwardOnInstructions returnOnly (fun _ => (∅ : PtrSet Nat)) (fun _ => ∅) :=
  fun h => h.not_mem_blocks () (.head _)

end DataFlowEngine

end Noelle
