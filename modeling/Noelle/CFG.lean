import Mathlib.Data.Fin.VecNotation
import Noelle.Lib.Collections

/-!
# CFG

Control-flow graphs of functions.

A basic block is a list of instructions that ends in its terminator; an
instruction, and a `BasicBlock::iterator`, is a position in such a list.  The
position after the last instruction is the end of the block.  Blocks may be
unreachable, may be their own successor and may occur several times among the
successors or predecessors of a block, whose order is left open.
-/

namespace Noelle

/-- `Instruction *`, and the end of a block. -/
structure Instruction (B : Type) where
  parent : B
  index : Nat
  deriving DecidableEq

/-- `Function *`.  A function without blocks is a declaration. -/
structure CFG (B : Type) where
  blocks : List B
  size : B → Nat
  successors : B → List B
  predecessors : B → List B
  size_pos : ∀ b ∈ blocks, 0 < size b
  successors_mem : ∀ b ∈ blocks, ∀ c ∈ successors b, c ∈ blocks
  predecessors_mem : ∀ c ∈ blocks, ∀ b ∈ predecessors c, b ∈ blocks
  mem_predecessors : ∀ b ∈ blocks, ∀ c ∈ blocks, b ∈ predecessors c ↔ c ∈ successors b

namespace CFG

variable {B : Type} (f : CFG B)

/-- `bb->begin()`. -/
def begin (b : B) : Instruction B := ⟨b, 0⟩

/-- `bb->getTerminator()`. -/
def getTerminator (b : B) : Instruction B := ⟨b, f.size b - 1⟩

/-- `bb->end()`. -/
def endOf (b : B) : Instruction B := ⟨b, f.size b⟩

/-- The instructions in the order of the nested loops over blocks and instructions. -/
def instructions : List (Instruction B) :=
  f.blocks.flatMap fun b => (List.range (f.size b)).map fun k => ⟨b, k⟩

/-- The instruction belongs to the function. -/
def Contains (i : Instruction B) : Prop := i.parent ∈ f.blocks ∧ i.index < f.size i.parent

/-- Control can pass from `i` to `j`: the next instruction, or the first
instruction of a successor block. -/
def Succ (i j : Instruction B) : Prop :=
  f.Contains i ∧
    ((i.index + 1 < f.size i.parent ∧ j = ⟨i.parent, i.index + 1⟩) ∨
      (i.index + 1 = f.size i.parent ∧ ∃ b ∈ f.successors i.parent, j = CFG.begin b))

variable {f}

theorem mem_instructions {i : Instruction B} : i ∈ f.instructions ↔ f.Contains i := by
  simp only [instructions, List.mem_flatMap, List.mem_map, List.mem_range, Contains]
  constructor
  · rintro ⟨b, hb, k, hk, rfl⟩
    exact ⟨hb, hk⟩
  · rintro ⟨hb, hk⟩
    exact ⟨i.parent, hb, i.index, hk, rfl⟩

theorem contains_begin {b : B} (hb : b ∈ f.blocks) : f.Contains (CFG.begin b) := ⟨hb, f.size_pos b hb⟩

theorem contains_getTerminator {b : B} (hb : b ∈ f.blocks) : f.Contains (f.getTerminator b) :=
  ⟨hb, Nat.sub_lt (f.size_pos b hb) Nat.one_pos⟩

theorem not_contains_endOf (b : B) : ¬ f.Contains (f.endOf b) := fun h => absurd h.2 (lt_irrefl _)

theorem Succ.contains {i j : Instruction B} (h : f.Succ i j) : f.Contains i ∧ f.Contains j := by
  obtain ⟨hi, ⟨hlt, rfl⟩ | ⟨_, b, hb, rfl⟩⟩ := h
  · exact ⟨hi, hi.1, hlt⟩
  · exact ⟨hi, contains_begin (f.successors_mem _ hi.1 b hb)⟩

/-! Two graphs that small functions share: a block that returns, and a loop of the block `1`
between its entry `0` and its exit `2`. -/

theorem return_successors_mem : ∀ b ∈ [()], ∀ c ∈ ([] : List Unit), c ∈ [()] := by decide

theorem return_mem_predecessors :
    ∀ b ∈ [()], ∀ c ∈ [()], b ∈ ([] : List Unit) ↔ c ∈ ([] : List Unit) := by decide

theorem selfLoop_size_pos : ∀ b ∈ ([0, 1, 2] : List (Fin 3)), 0 < (![1, 3, 1] : Fin 3 → Nat) b := by
  decide

theorem selfLoop_successors_mem :
    ∀ b ∈ ([0, 1, 2] : List (Fin 3)), ∀ c ∈ (![[1], [1, 2], []] : Fin 3 → List (Fin 3)) b,
      c ∈ ([0, 1, 2] : List (Fin 3)) := by
  decide

theorem selfLoop_predecessors_mem :
    ∀ c ∈ ([0, 1, 2] : List (Fin 3)), ∀ b ∈ (![[], [0, 1], [1]] : Fin 3 → List (Fin 3)) c,
      b ∈ ([0, 1, 2] : List (Fin 3)) := by
  decide

theorem selfLoop_mem_predecessors :
    ∀ b ∈ ([0, 1, 2] : List (Fin 3)), ∀ c ∈ ([0, 1, 2] : List (Fin 3)),
      b ∈ (![[], [0, 1], [1]] : Fin 3 → List (Fin 3)) c ↔
        c ∈ (![[1], [1, 2], []] : Fin 3 → List (Fin 3)) b := by
  decide

end CFG

end Noelle
