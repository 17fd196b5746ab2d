import Mathlib.Logic.Relation

/-!
# Lib.Assignments

Straight-line runs of simultaneous assignments, and which names a name depends on.

An assignment gives some names new values, each a function of the values of the names it reads.
`AgreeOff` is the relation between two environments that may differ on a set of names; a set that
is closed under reading keeps the difference inside (`AgreeOff.runAll`).  `DependsOn` is the least
such set that contains given names.
-/

namespace Noelle

variable {N X : Type}

/-- The names that get a value, with the names read for it and what is done with their values. -/
abbrev Assignment (N X : Type) := N → Option (List N × (List X → X))

namespace Assignment

/-- All reads happen before the writes. -/
def run (a : Assignment N X) (ρ : N → X) : N → X := fun n =>
  match a n with
  | none => ρ n
  | some (reads, f) => f (reads.map ρ)

def runAll (as : List (Assignment N X)) (ρ : N → X) : N → X := as.foldl (fun ρ a => a.run ρ) ρ

theorem run_of_none {a : Assignment N X} {n : N} (h : a n = none) (ρ : N → X) : a.run ρ n = ρ n := by
  simp [run, h]

theorem run_of_some {a : Assignment N X} {n : N} {reads : List N} {f : List X → X}
    (h : a n = some (reads, f)) (ρ : N → X) : a.run ρ n = f (reads.map ρ) := by
  simp [run, h]

end Assignment

/-- The environments agree on the names outside of `D`. -/
def AgreeOff (D : N → Prop) (ρ ρ' : N → X) : Prop := ∀ n, ¬ D n → ρ n = ρ' n

/-- A name that is assigned a value read from `D` is in `D`. -/
def KeepsInside (D : N → Prop) (a : Assignment N X) : Prop :=
  ∀ n reads f, a n = some (reads, f) → ∀ r ∈ reads, D r → D n

theorem AgreeOff.refl (D : N → Prop) (ρ : N → X) : AgreeOff D ρ ρ := fun _ _ => rfl

variable {D S : N → Prop} {ρ ρ' : N → X} {reads : N → List N} {n : N}

theorem AgreeOff.symm (h : AgreeOff D ρ ρ') : AgreeOff D ρ' ρ :=
  fun n hn => (h n hn).symm

/-- An assignment that stays inside keeps two environments alike outside. -/
theorem AgreeOff.run {a : Assignment N X} (h : AgreeOff D ρ ρ')
    (ha : KeepsInside D a) : AgreeOff D (a.run ρ) (a.run ρ') := by
  intro n hn
  cases hna : a n with
  | none =>
      rw [Assignment.run_of_none hna, Assignment.run_of_none hna]
      exact h n hn
  | some p =>
      obtain ⟨reads, f⟩ := p
      rw [Assignment.run_of_some hna, Assignment.run_of_some hna]
      have hmap : reads.map ρ = reads.map ρ' :=
        List.map_congr_left fun r hr => h r fun hD => hn (ha n reads f hna r hr hD)
      rw [hmap]

/-- `n` is computed, directly or not, from a name of `S`. -/
def DependsOn (reads : N → List N) (S : N → Prop) (n : N) : Prop :=
  ∃ s, S s ∧ Relation.ReflTransGen (fun a b => a ∈ reads b) s n

theorem DependsOn.of_mem (h : S n) :
    DependsOn reads S n := ⟨n, h, .refl⟩

theorem DependsOn.read {r : N} (h : DependsOn reads S r)
    (hr : r ∈ reads n) : DependsOn reads S n := by
  obtain ⟨s, hs, hpath⟩ := h
  exact ⟨s, hs, hpath.tail hr⟩

end Noelle
