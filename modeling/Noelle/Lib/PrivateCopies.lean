import Mathlib.Logic.Function.Basic

/-!
# Lib.PrivateCopies

Iterations that share one memory object, and iterations that each work on a copy of it.

An iteration reads and writes locations of the object; what it does next, and the state it
hands to the next iteration, depend on the values it read.  A location remembers who wrote
it: nobody since the run began, an earlier iteration or the current one.  `runShared` runs the
iterations on one object, `runPrivate` gives each of them a new copy.

`runPrivate_eq_runShared` is the reason for privatising an object: if no read takes its value
from an earlier iteration, and the copies hold what the reads of untouched locations expect,
then the two runs read the same values.
-/

namespace Noelle

open Function List

/-! ## Iterations -/

/-- The rest of an iteration: `I` are the instructions, `L` the locations of the object, `X` the
values and `S` what an iteration hands to the next one. -/
inductive Iteration (I L X S : Type) where
  | finish (s : S)
  | read (reader : I) (location : L) (next : X → Iteration I L X S)
  | write (writer : I) (location : L) (value : X) (next : Iteration I L X S)

/-- When the value of a location was written. -/
inductive Origin (I : Type) where
  | entry
  | earlier (writer : I)
  | current (writer : I)

/-- The contents of a location. -/
structure Cell (I X : Type) where
  value : X
  origin : Origin I

/-- A read with the contents it found. -/
structure ReadEvent (I L X : Type) where
  reader : I
  location : L
  cell : Cell I X

namespace Origin

variable {I : Type}

/-- The next iteration starts. -/
def age : Origin I → Origin I
  | entry => entry
  | earlier writer => earlier writer
  | current writer => earlier writer

theorem age_ne_current (o : Origin I) (writer : I) : o.age ≠ current writer := by
  cases o <;> exact nofun

theorem age_eq_entry {o : Origin I} : o.age = entry ↔ o = entry := by
  cases o <;> simp [age]

end Origin

/-- An object in which every location holds its initial value. -/
def untouched {I L X : Type} (contents : L → X) : L → Cell I X := fun l => ⟨contents l, .entry⟩

/-- The object as the next iteration finds it. -/
def ageAll {I L X : Type} (m : L → Cell I X) : L → Cell I X :=
  fun l => ⟨(m l).value, (m l).origin.age⟩

/-- The values of a run: who read which location and what it found there. -/
def observations {I L X : Type} (events : List (ReadEvent I L X)) : List (I × L × X) :=
  events.map fun e => (e.reader, e.location, e.cell.value)

section

variable {I L X S : Type} [DecidableEq L]

/-- Run an iteration: its reads, its result and the object it leaves. -/
def Iteration.run : Iteration I L X S → (L → Cell I X) →
    List (ReadEvent I L X) × S × (L → Cell I X)
  | finish s, m => ([], s, m)
  | read reader l next, m =>
      let (events, result) := (next (m l).value).run m
      (⟨reader, l, m l⟩ :: events, result)
  | write writer l x next, m => next.run (update m l ⟨x, .current writer⟩)

/-- The iterations run one after the other on one object. -/
def runShared : List (S → Iteration I L X S) → S → (L → Cell I X) → List (ReadEvent I L X) × S
  | [], s, _ => ([], s)
  | body :: bodies, s, m =>
      let (events, s, m) := (body s).run m
      let (laterEvents, s) := runShared bodies s (ageAll m)
      (events ++ laterEvents, s)

/-- The iterations run one after the other, each on a copy with the given contents. -/
def runPrivate : List (S → Iteration I L X S) → S → (L → X) → List (ReadEvent I L X) × S
  | [], s, _ => ([], s)
  | body :: bodies, s, copy =>
      let (events, s, _) := (body s).run (untouched copy)
      let (laterEvents, s) := runPrivate bodies s copy
      (events ++ laterEvents, s)

/-! ## What sharing hands on -/

/-- A read that a private copy serves as well: it does not find the value of an earlier
iteration, and where it finds the initial value the copy has it too. -/
def ReadEvent.ServedBy (copy : L → X) (e : ReadEvent I L X) : Prop :=
  match e.cell.origin with
  | .entry => copy e.location = e.cell.value
  | .earlier _ => False
  | .current _ => True

/-- The shared object and the copy during one iteration: what the iteration wrote is in both, the
rest of the copy is as it was. -/
def CopyOf (copy : L → X) (m m' : L → Cell I X) : Prop :=
  ∀ l, match (m l).origin with
    | .current _ => (m' l).value = (m l).value
    | _ => (m' l).value = copy l

variable {copy contents : L → X} {m m' : L → Cell I X}

theorem CopyOf.update (h : CopyOf copy m m') (l : L) (x : X)
    (writer : I) : CopyOf copy (update m l ⟨x, .current writer⟩)
      (update m' l ⟨x, .current writer⟩) := by
  intro k
  by_cases hk : k = l
  · subst hk
    simp
  · simpa [update_of_ne hk] using h k

omit [DecidableEq L] in
theorem CopyOf.read_eq (h : CopyOf copy m m') {reader : I} {l : L}
    (hserved : ReadEvent.ServedBy copy ⟨reader, l, m l⟩) : (m' l).value = (m l).value := by
  have hl := h l
  unfold ReadEvent.ServedBy at hserved
  cases ho : (m l).origin with
  | entry =>
      simp only [ho] at hl hserved
      exact hl.trans hserved
  | earlier writer =>
      simp only [ho] at hserved
  | current writer =>
      simp only [ho] at hl
      exact hl

/-- One iteration: if the copy serves every read, it reads the same values and ends in the same
state. -/
theorem Iteration.run_eq : ∀ (p : Iteration I L X S) {m m' : L → Cell I X},
    CopyOf copy m m' → (∀ e ∈ (p.run m).1, e.ServedBy copy) →
      observations (p.run m').1 = observations (p.run m).1 ∧ (p.run m').2.1 = (p.run m).2.1
  | finish s, m, m', _, _ => ⟨rfl, rfl⟩
  | read reader l next, m, m', h, hserved => by
      have hvalue : (m' l).value = (m l).value := h.read_eq (hserved _ (.head _))
      obtain ⟨hobs, hstate⟩ := Iteration.run_eq (next (m l).value) h
        fun e he => hserved e (.tail _ he)
      simp only [Iteration.run, hvalue]
      refine ⟨?_, hstate⟩
      simp only [observations, map_cons, hvalue] at hobs ⊢
      rw [hobs]
  | write writer l x next, m, m', h, hserved =>
      Iteration.run_eq next (h.update l x writer) hserved

omit [DecidableEq L] in
theorem copyOf_start
    (hm : ∀ l writer, (m l).origin ≠ .current writer) : CopyOf copy m (untouched copy) := by
  intro l
  cases ho : (m l).origin with
  | entry => rfl
  | earlier writer => rfl
  | current writer => exact absurd ho (hm l writer)

/-- **Private copies**: if the copies serve every read of the run on the shared object, the run on
private copies reads the same values and ends in the same state. -/
theorem runPrivate_eq_runShared : ∀ (bodies : List (S → Iteration I L X S)) (s : S)
    (m : L → Cell I X), (∀ l writer, (m l).origin ≠ .current writer) →
      (∀ e ∈ (runShared bodies s m).1, e.ServedBy copy) →
        observations (runPrivate bodies s copy).1 = observations (runShared bodies s m).1 ∧
          (runPrivate bodies s copy).2 = (runShared bodies s m).2
  | [], s, m, _, _ => ⟨rfl, rfl⟩
  | body :: bodies, s, m, hm, hserved => by
      obtain ⟨hobs, hstate⟩ := Iteration.run_eq (body s) (copyOf_start hm)
        fun e he => hserved e (mem_append_left _ he)
      obtain ⟨hobs', hstate'⟩ := runPrivate_eq_runShared bodies ((body s).run m).2.1
        (ageAll ((body s).run m).2.2) (fun l writer => Origin.age_ne_current _ writer)
        fun e he => hserved e (mem_append_right _ he)
      simp only [runPrivate, runShared, hstate]
      refine ⟨?_, hstate'⟩
      simp only [observations, map_append] at hobs hobs' ⊢
      rw [hobs, hobs']

/-! ## Untouched locations -/

/-- A cell still from before the loop holds what it held there. -/
theorem Iteration.run_untouched : ∀ (p : Iteration I L X S) {m : L → Cell I X},
    (∀ l, (m l).origin = .entry → (m l).value = contents l) →
      (∀ e ∈ (p.run m).1, e.cell.origin = .entry → e.cell.value = contents e.location) ∧
        ∀ l, ((p.run m).2.2 l).origin = .entry → ((p.run m).2.2 l).value = contents l
  | finish s, m, h => ⟨nofun, h⟩
  | read reader l next, m, h => by
      obtain ⟨hevents, hafter⟩ := Iteration.run_untouched (next (m l).value) h
      refine ⟨fun e he => ?_, hafter⟩
      rcases mem_cons.mp he with rfl | he
      · exact h l
      · exact hevents e he
  | write writer l x next, m, h => by
      refine Iteration.run_untouched next fun k hk => ?_
      by_cases hkl : k = l
      · subst hkl
        simp at hk
      · rw [update_of_ne hkl] at hk ⊢
        exact h k hk

/-- So it is over all the iterations, which share one memory. -/
theorem runShared_untouched : ∀ (bodies : List (S → Iteration I L X S)) (s : S)
    {m : L → Cell I X}, (∀ l, (m l).origin = .entry → (m l).value = contents l) →
      ∀ e ∈ (runShared bodies s m).1, e.cell.origin = .entry → e.cell.value = contents e.location
  | [], s, m, _, e, he => nomatch he
  | body :: bodies, s, m, h, e, he => by
      obtain ⟨hevents, hafter⟩ := Iteration.run_untouched (body s) h
      rcases mem_append.mp he with he | he
      · exact hevents e he
      · refine runShared_untouched bodies _ (fun l hl => ?_) e he
        exact hafter l (Origin.age_eq_entry.mp hl)

end

end Noelle
