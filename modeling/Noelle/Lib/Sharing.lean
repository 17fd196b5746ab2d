import Mathlib.Data.Set.Lattice

/-!
# Lib.Sharing

Objects that share users, and the sets of objects that no user splits.

A user relates to the objects that it may use.  A set is `Unsplit` if a user of one of its members
uses nothing outside.  Every set has a largest unsplit subset (`isGreatest_largestUnsplit`): a
retraction of single objects that share a user with one outside ends there
(`eq_largestUnsplit`).
-/

namespace Noelle

variable {J O : Type} (uses : J → O → Prop)

/-- No user of a member uses anything else. -/
def Unsplit (A : Set O) : Prop := ∀ j o o', uses j o → uses j o' → o ∈ A → o' ∈ A

/-- The union of the unsplit subsets. -/
def largestUnsplit (E : Set O) : Set O := {o | ∃ A, A ⊆ E ∧ Unsplit uses A ∧ o ∈ A}

variable {uses} {A E : Set O}

theorem subset_largestUnsplit (hsub : A ⊆ E) (hA : Unsplit uses A) : A ⊆ largestUnsplit uses E :=
  fun _ ho => ⟨A, hsub, hA, ho⟩

theorem unsplit_largestUnsplit : Unsplit uses (largestUnsplit uses E) := by
  intro j o o' ho ho' hmem
  obtain ⟨A, hsub, hA, hoA⟩ := hmem
  exact ⟨A, hsub, hA, hA j o o' ho ho' hoA⟩

theorem isGreatest_largestUnsplit :
    IsGreatest {A | A ⊆ E ∧ Unsplit uses A} (largestUnsplit uses E) := by
  refine ⟨⟨?_, unsplit_largestUnsplit⟩, fun A hA => subset_largestUnsplit hA.1 hA.2⟩
  rintro o ⟨A, hsub, -, ho⟩
  exact hsub ho

theorem notMem_largestUnsplit {j : J} {o o' : O} (hle : largestUnsplit uses E ⊆ A) (ho : uses j o)
    (ho' : uses j o') (hout : o' ∉ A) : o ∉ largestUnsplit uses E :=
  fun hmem => hout (hle (unsplit_largestUnsplit j o o' ho ho' hmem))

/-- A retraction that has nothing left to retract has found the largest unsplit subset. -/
theorem eq_largestUnsplit (hle : largestUnsplit uses E ⊆ A) (hsub : A ⊆ E) (hA : Unsplit uses A) :
    A = largestUnsplit uses E :=
  Set.Subset.antisymm (subset_largestUnsplit hsub hA) hle

end Noelle
