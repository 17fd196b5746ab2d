import Noelle.CFG
import Noelle.Lib.Dominance
import Noelle.LoopForest.LoopTree

/-!
# LoopForest.Natural

Loop structures that stand for natural loops of a function.

`LoopStructure` copies LLVM's loops: the blocks are those of the natural loop of the
header, and the exit blocks are the successors outside.
-/

namespace Noelle

open Relation List

variable {F B : Type} [DecidableEq B]

/-- Control can pass from the one block to the other. -/
def CFG.Flow (f : CFG B) (b c : B) : Prop := c ∈ f.successors b

instance CFG.decidableFlow (f : CFG B) : DecidableRel f.Flow := fun b c =>
  inferInstanceAs (Decidable (c ∈ f.successors b))

def LoopStructure.getLoopExitBasicBlocks (f : CFG B) (l : LoopStructure F B) : List B :=
  l.bbs.elems.flatMap fun bb => (f.successors bb).filter fun succ => !l.isIncluded succ

/-- The loop structure of a natural loop of the function. -/
structure IsNaturalLoop (f : CFG B) (entry : B) (l : LoopStructure F B) : Prop where
  header_mem : l.header ∈ l.bbs
  mem_iff : ∀ b, b ∈ l.bbs ↔ NaturalLoop f.Flow entry l.header b

/-- A loop of the function with sub-loops of it. -/
structure LoopTree.IsNatural (f : CFG B) (entry : B) (t : LoopTree F B) : Prop where
  loop : IsNaturalLoop f entry t.getLoop
  subLoops : ∀ p ∈ t.preOrder 1, p.1 = t.getLoop ∨
    (IsNaturalLoop f entry p.1 ∧ p.1.header ∈ t.getLoop.bbs ∧ p.1.header ≠ t.getLoop.header)

variable {f : CFG B} {entry b : B} {l l' : LoopStructure F B} {t : LoopTree F B}

theorem LoopStructure.not_isIncluded_of_exit (h : b ∈ l.getLoopExitBasicBlocks f) : b ∉ l.bbs := by
  unfold getLoopExitBasicBlocks at h
  obtain ⟨bb, _, hb⟩ := mem_flatMap.mp h
  have hnot := (mem_filter.mp hb).2
  simpa [isIncluded] using hnot

omit [DecidableEq B] in
theorem IsNaturalLoop.header_not_mem (h : IsNaturalLoop f entry l) (h' : IsNaturalLoop f entry l')
    (hmem : l'.header ∈ l.bbs) (hne : l'.header ≠ l.header) : l.header ∉ l'.bbs := by
  intro hin
  have hdom := ((h.mem_iff _).mp hmem).dominates
  have hreach := ((h.mem_iff _).mp h.header_mem).1
  exact hne (hdom.antisymm hreach ((h'.mem_iff _).mp hin).dominates).symm

omit [DecidableEq B] in
theorem CFG.mem_blocks_of_reach (hentry : entry ∈ f.blocks) (hb : ReflTransGen f.Flow entry b) :
    b ∈ f.blocks := by
  induction hb with
  | refl => exact hentry
  | tail _ hbc ih => exact f.successors_mem _ ih _ hbc

namespace LoopTree

omit [DecidableEq B] in
theorem preOrder_head (t : LoopTree F B) (n : Nat) :
    ∃ rest, t.preOrder n = (t.getLoop, n) :: rest := by
  cases t with
  | node loop children => exact ⟨_, rfl⟩

/-- What the visit of `getInnermostLoopThatContains` does with a loop. -/
def keepInnermost (b : B) (innerLoop : Option (LoopStructure F B × Nat))
    (p : LoopStructure F B × Nat) : Option (LoopStructure F B × Nat) :=
  if !p.1.isIncluded b then innerLoop
  else
    match innerLoop with
    | none => some (p.1, p.2)
    | some (_, innerLoopLevel) => if innerLoopLevel < p.2 then some (p.1, p.2) else innerLoop

theorem getInnermost_eq (t : LoopTree F B) (b : B) : t.getInnermostLoopThatContains b =
    if !t.getLoop.isIncluded b then none
    else ((t.preOrder 1).foldl (keepInnermost b) none).map (·.1) := rfl

theorem foldl_keepInnermost {P : LoopStructure F B → Prop} :
    ∀ (l : List (LoopStructure F B × Nat)) (best : LoopStructure F B × Nat), P best.1 →
      (∀ p ∈ l, b ∈ p.1.bbs → P p.1) →
      ∃ best', l.foldl (keepInnermost b) (some best) = some best' ∧ P best'.1
  | [], best, hbest, _ => ⟨best, rfl, hbest⟩
  | p :: l, best, hbest, hl => by
      have hrest : ∀ q ∈ l, b ∈ q.1.bbs → P q.1 := fun q hq => hl q (.tail p hq)
      rw [foldl_cons]
      by_cases hin : b ∈ p.1.bbs
      · by_cases hlt : best.2 < p.2
        · have hstep : keepInnermost b (some best) p = some p := by
            simp [keepInnermost, LoopStructure.isIncluded, hin, hlt]
          rw [hstep]
          exact foldl_keepInnermost l p (hl p (.head _) hin) hrest
        · have hstep : keepInnermost b (some best) p = some best := by
            simp [keepInnermost, LoopStructure.isIncluded, hin, hlt]
          rw [hstep]
          exact foldl_keepInnermost l best hbest hrest
      · have hstep : keepInnermost b (some best) p = some best := by
          simp [keepInnermost, LoopStructure.isIncluded, hin]
        rw [hstep]
        exact foldl_keepInnermost l best hbest hrest

/-- A block of the root is in some innermost loop, and a property of all loops that
contain the block holds of it. -/
theorem getInnermost_spec {P : LoopStructure F B → Prop} (hb : b ∈ t.getLoop.bbs)
    (hP : ∀ p ∈ t.preOrder 1, b ∈ p.1.bbs → P p.1) :
    ∃ l, t.getInnermostLoopThatContains b = some l ∧ P l := by
  obtain ⟨rest, hrest⟩ := t.preOrder_head 1
  have hroot : P t.getLoop := hP (t.getLoop, 1) (by rw [hrest]; exact .head _) hb
  obtain ⟨best, hbest, hPbest⟩ := foldl_keepInnermost rest (t.getLoop, 1) hroot
    fun p hp => hP p (by rw [hrest]; exact .tail _ hp)
  have hfirst : keepInnermost b none (t.getLoop, 1) = some (t.getLoop, 1) := by
    simp [keepInnermost, LoopStructure.isIncluded, hb]
  refine ⟨best.1, ?_, hPbest⟩
  rw [getInnermost_eq, hrest, foldl_cons, hfirst, hbest]
  simp [LoopStructure.isIncluded, hb]

theorem IsNatural.getInnermost_header (h : t.IsNatural f entry) :
    t.getInnermostLoopThatContains t.getLoop.header = some t.getLoop := by
  obtain ⟨l, hl, rfl⟩ := getInnermost_spec (P := (· = t.getLoop)) h.loop.header_mem
    fun p hp hmem => (h.subLoops p hp).resolve_right fun ⟨hnat, hin, hne⟩ =>
      h.loop.header_not_mem hnat hin hne hmem
  exact hl

end LoopTree

end Noelle
