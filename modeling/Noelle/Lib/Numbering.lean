import Mathlib.Data.List.AList

/-!
# Lib.Numbering

Keys that are numbered from zero, with a map in each direction.

A numbering grows by fresh keys, which take the next number (`Numbering.insert`); the two maps stay
inverse to each other, and the numbers stay those below the size.
-/

namespace Noelle

variable {α : Type} [DecidableEq α] {toIndex : AList fun _ : α => Nat} {ofIndex : AList fun _ : Nat => α}
  {n : Nat} {a b : α} {i : Nat}

/-- The keys of one map are the values of the other, and the numbers are those below `n`. -/
structure Numbering (toIndex : AList fun _ : α => Nat) (ofIndex : AList fun _ : Nat => α) (n : Nat) :
    Prop where
  inverse : ∀ a i, toIndex.lookup a = some i ↔ ofIndex.lookup i = some a
  lt_iff : ∀ i, (∃ a, ofIndex.lookup i = some a) ↔ i < n

namespace Numbering

theorem empty : Numbering (∅ : AList fun _ : α => Nat) ∅ 0 :=
  ⟨fun a i => by simp, fun i => by simp⟩

section

variable (h : Numbering toIndex ofIndex n)

include h

theorem lt (ha : toIndex.lookup a = some i) : i < n :=
  (h.lt_iff i).mp ⟨a, (h.inverse a i).mp ha⟩

theorem exists_lookup (hi : i < n) :
    ∃ a, toIndex.lookup a = some i := by
  obtain ⟨a, ha⟩ := (h.lt_iff i).mpr hi
  exact ⟨a, (h.inverse a i).mpr ha⟩

theorem injective (ha : toIndex.lookup a = some i) (hb : toIndex.lookup b = some i) : a = b :=
  Option.mem_unique ((h.inverse a i).mp ha) ((h.inverse b i).mp hb)

/-- A new element gets the next number. -/
theorem insert (hfresh : toIndex.lookup a = none) :
    Numbering (toIndex.insert a n) (ofIndex.insert n a) (n + 1) := by
  have hnone : ofIndex.lookup n = none := by
    cases hn : ofIndex.lookup n with
    | none => rfl
    | some b => exact absurd ((h.lt_iff n).mp ⟨b, hn⟩) (lt_irrefl n)
  refine ⟨fun b i => ?_, fun i => ?_⟩
  · by_cases hb : b = a
    · subst hb
      by_cases hi : i = n
      · subst hi
        simp
      · rw [AList.lookup_insert, AList.lookup_insert_ne hi, ← h.inverse, hfresh]
        simp [Ne.symm hi]
    · by_cases hi : i = n
      · subst hi
        rw [AList.lookup_insert, AList.lookup_insert_ne hb, h.inverse, hnone]
        simp [Ne.symm hb]
      · rw [AList.lookup_insert_ne hb, AList.lookup_insert_ne hi, h.inverse]
  · by_cases hi : i = n
    · subst hi
      simp
    · rw [AList.lookup_insert_ne hi, h.lt_iff]
      omega

end

end Numbering

end Noelle
