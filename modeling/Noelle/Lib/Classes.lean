import Mathlib.Logic.Relation

/-!
# Lib.Classes

Numbering the classes of a generated equivalence.

`Separates U r cls` says that `cls` numbers the classes of the equivalence that `r`
generates, among the elements of `U`.  Renaming the class of one element to that of
another one adds the pair to the generators.
-/

namespace Noelle

open Relation

variable {α β : Type}

/-- A set that `r` neither enters nor leaves. -/
def ClosedUnder (r : α → α → Prop) (C : α → Prop) : Prop := ∀ a b, r a b → (C a ↔ C b)

variable {r : α → α → Prop} {C : α → Prop} {a b : α}

theorem ClosedUnder.eqvGen (h : ClosedUnder r C) (hab : EqvGen r a b) : C a ↔ C b := by
  induction hab with
  | rel a b hr => exact h a b hr
  | refl a => exact Iff.rfl
  | symm a b _ ih => exact ih.symm
  | trans a b c _ _ ih₁ ih₂ => exact ih₁.trans ih₂

theorem ClosedUnder.eq_class (h : ClosedUnder r C) (ha : C a) (hreach : ∀ b, C b → EqvGen r a b)
    (b : α) : C b ↔ EqvGen r a b :=
  ⟨hreach b, fun hab => (h.eqvGen hab).mp ha⟩

theorem eqvGen_congr {s : α → α → Prop} (hrs : ∀ a b, r a b → EqvGen s a b)
    (hsr : ∀ a b, s a b → EqvGen r a b) : EqvGen r a b ↔ EqvGen s a b :=
  ⟨EqvGen.eqvGen_le hrs _ _, EqvGen.eqvGen_le hsr _ _⟩

theorem eqvGen_false : EqvGen (fun _ _ : α => False) a b ↔ a = b := by
  constructor
  · intro hab
    induction hab with
    | rel _ _ h => exact h.elim
    | refl _ => rfl
    | symm _ _ _ ih => exact ih.symm
    | trans _ _ _ _ _ ih₁ ih₂ => exact ih₁.trans ih₂
  · exact fun heq => heq ▸ .refl a

/-- `cls` numbers the classes of the equivalence that `r` generates, among the elements
of `U`. -/
def Separates (U : α → Prop) (r : α → α → Prop) (cls : α → β) : Prop :=
  ∀ a b, U a → U b → (cls a = cls b ↔ EqvGen r a b)

/-- One more generator. -/
def withPair (r : α → α → Prop) (a b : α) : α → α → Prop := fun x y => r x y ∨ (x = a ∧ y = b)

namespace Separates

variable {U : α → Prop} {r : α → α → Prop} {cls : α → β} {a b : α}

theorem of_eq (h : Separates U r cls) (ha : U a) (hb : U b) (hab : cls a = cls b) :
    Separates U (withPair r a b) cls := by
  intro x y hx hy
  rw [h x y hx hy]
  refine eqvGen_congr (fun x y hxy => .rel _ _ (.inl hxy)) ?_
  rintro x y (hxy | ⟨rfl, rfl⟩)
  · exact .rel _ _ hxy
  · exact (h x y ha hb).mp hab

/-- Putting two classes together adds their pair to the relation. -/
theorem merge [DecidableEq β] (h : Separates U r cls) (hr : ∀ x y, r x y → U x ∧ U y) (ha : U a)
    (hb : U b) : Separates U (withPair r a b) fun x => if cls x = cls b then cls a else cls x := by
  have hle : ∀ {x y}, EqvGen r x y → EqvGen (withPair r a b) x y := fun hxy =>
    EqvGen.mono (fun _ _ => .inl) _ _ hxy
  have hpair : EqvGen (withPair r a b) a b := .rel _ _ (.inr ⟨rfl, rfl⟩)
  intro x y hx hy
  constructor
  · intro heq
    by_cases hxb : cls x = cls b <;> by_cases hyb : cls y = cls b <;> simp only [hxb, hyb, if_true,
      if_false] at heq
    · exact hle ((h x y hx hy).mp (hxb.trans hyb.symm))
    · exact ((hle ((h x b hx hb).mp hxb)).trans _ _ _ (hpair.symm _ _)).trans _ _ _
        (hle ((h a y ha hy).mp heq))
    · exact ((hle ((h x a hx ha).mp heq)).trans _ _ _ hpair).trans _ _ _
        (hle ((h b y hb hy).mp hyb.symm))
    · exact hle ((h x y hx hy).mp heq)
  · intro hxy
    clear hx hy
    induction hxy with
    | rel x y hxy =>
        cases hxy with
        | inl hxy =>
            have heq : cls x = cls y := (h x y (hr x y hxy).1 (hr x y hxy).2).mpr (.rel _ _ hxy)
            simp only [heq]
        | inr hxy =>
            obtain ⟨rfl, rfl⟩ := hxy
            simp
    | refl x => rfl
    | symm x y _ ih => exact ih.symm
    | trans x y z _ _ ih₁ ih₂ => exact ih₁.trans ih₂

end Separates

end Noelle
