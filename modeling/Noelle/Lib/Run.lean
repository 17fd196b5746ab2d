import Mathlib.Logic.Basic

/-!
# Lib.Run

Runs of a machine whose steps are calls with arguments, and may fail.

`Always step P s calls` says that the whole run succeeds and that `P` holds of its
start and after every call.  `Calls step Q s calls` says that `Q` holds of every
call and the state it is made in, as far as the run gets.  `AfterEach` is `Always`
without the start.  The rules derive the first from the second through an invariant.
-/

namespace Noelle

variable {σ α : Type}

/-- Every call succeeds, and `P` holds in every state of the run. -/
def Always (step : σ → α → Option σ) (P : σ → Prop) : σ → List α → Prop
  | s, [] => P s
  | s, a :: calls => P s ∧ ∃ s', step s a = some s' ∧ Always step P s' calls

/-- Every call succeeds, and `P` holds after each of them. -/
def AfterEach (step : σ → α → Option σ) (P : σ → Prop) : σ → List α → Prop
  | _, [] => True
  | s, a :: calls => ∃ s', step s a = some s' ∧ P s' ∧ AfterEach step P s' calls

/-- Every call satisfies `Q` in the state it is made in. -/
def Calls (step : σ → α → Option σ) (Q : σ → α → Prop) : σ → List α → Prop
  | _, [] => True
  | s, a :: calls => Q s a ∧ ∀ s', step s a = some s' → Calls step Q s' calls

variable {step : σ → α → Option σ} {P I : σ → Prop} {Q C : σ → α → Prop}

/-- Conditions on calls can be run. -/
instance Calls.decidable [∀ s a, Decidable (Q s a)] :
    ∀ (s : σ) (calls : List α), Decidable (Calls step Q s calls)
  | _, [] => isTrue trivial
  | s, a :: calls =>
      match h : step s a with
      | none => decidable_of_iff (Q s a) (by simp [Calls, h])
      | some s' =>
          have := Calls.decidable s' calls
          decidable_of_iff (Q s a ∧ Calls step Q s' calls) (by simp [Calls, h])

theorem Always.head {s : σ} : ∀ {calls : List α}, Always step P s calls → P s
  | [], h => h
  | _ :: _, h => h.1

theorem Calls.and_forall {C : α → Prop} : ∀ {calls : List α} {s : σ}, Calls step Q s calls →
    (∀ a ∈ calls, C a) → Calls step (fun s a => Q s a ∧ C a) s calls
  | [], _, _, _ => trivial
  | a :: _, _, h, hC => ⟨⟨h.1, hC a (.head _)⟩, fun s' hs' =>
      Calls.and_forall (h.2 s' hs') fun b hb => hC b (.tail a hb)⟩

/-- The invariant rule: an invariant that every allowed call keeps, and that
implies `P`. -/
theorem Always.of_invariant (hP : ∀ s, I s → P s)
    (hstep : ∀ s a, I s → Q s a → ∃ s', step s a = some s' ∧ I s') :
    ∀ {calls : List α} {s : σ}, I s → Calls step Q s calls → Always step P s calls
  | [], s, hI, _ => hP s hI
  | a :: calls, s, hI, hQ => by
      obtain ⟨s', hs', hI'⟩ := hstep s a hI hQ.1
      exact ⟨hP s hI, s', hs', Always.of_invariant hP hstep hI' (hQ.2 s' hs')⟩

theorem AfterEach.of_invariant
    (hstep : ∀ s a, I s → Q s a → ∃ s', step s a = some s' ∧ I s' ∧ P s') :
    ∀ {calls : List α} {s : σ}, I s → Calls step Q s calls → AfterEach step P s calls
  | [], _, _, _ => trivial
  | a :: calls, s, hI, hQ => by
      obtain ⟨s', hs', hI', hP⟩ := hstep s a hI hQ.1
      exact ⟨s', hs', hP, AfterEach.of_invariant hstep hI' (hQ.2 s' hs')⟩

/-- A run of calls that all satisfy `Q` succeeds and keeps an invariant that may
depend on the calls that are left. -/
theorem foldlM_of_calls {J : σ → List α → Prop}
    (hstep : ∀ s a calls, J s (a :: calls) → Q s a → ∃ s', step s a = some s' ∧ J s' calls) :
    ∀ {calls : List α} {s : σ}, J s calls → Calls step Q s calls →
      ∃ s', calls.foldlM step s = some s' ∧ J s' []
  | [], s, hJ, _ => ⟨s, rfl, hJ⟩
  | a :: calls, s, hJ, hQ => by
      obtain ⟨s₁, hs₁, hJ₁⟩ := hstep s a calls hJ hQ.1
      obtain ⟨s', hs', hJ'⟩ := foldlM_of_calls hstep hJ₁ (hQ.2 s₁ hs₁)
      refine ⟨s', ?_, hJ'⟩
      rw [List.foldlM_cons, hs₁]
      exact hs'

theorem calls_congr {J : σ → List α → Prop}
    (hiff : ∀ s a calls, J s (a :: calls) → (Q s a ↔ C s a))
    (hstep : ∀ s a calls s', J s (a :: calls) → Q s a → step s a = some s' → J s' calls) :
    ∀ {calls : List α} {s : σ}, J s calls → (Calls step Q s calls ↔ Calls step C s calls)
  | [], _, _ => Iff.rfl
  | a :: calls, s, hJ => by
      have hhead := hiff s a calls hJ
      constructor
      · rintro ⟨hQ, h⟩
        exact ⟨hhead.mp hQ, fun s' hs' =>
          (calls_congr hiff hstep (hstep s a calls s' hJ hQ hs')).mp (h s' hs')⟩
      · rintro ⟨hC, h⟩
        have hQ := hhead.mpr hC
        exact ⟨hQ, fun s' hs' =>
          (calls_congr hiff hstep (hstep s a calls s' hJ hQ hs')).mpr (h s' hs')⟩

/-- The exact rule: if an allowed call keeps the invariant, and keeps `P` if and
only if it satisfies `C`, then `P` holds throughout an allowed run if and only if
all its calls satisfy `C`. -/
theorem always_iff_calls
    (hstep : ∀ s a, I s → P s → Q s a → ∃ s', step s a = some s' ∧ I s' ∧ (P s' ↔ C s a)) :
    ∀ {calls : List α} {s : σ}, I s → P s → Calls step Q s calls →
      (Always step P s calls ↔ Calls step C s calls)
  | [], s, _, hP, _ => iff_of_true hP trivial
  | a :: calls, s, hI, hP, hQ => by
      obtain ⟨s', hs', hI', hiff⟩ := hstep s a hI hP hQ.1
      have hrest : ∀ s₁, step s a = some s₁ → s₁ = s' := fun s₁ h₁ =>
        Option.mem_unique h₁ hs'
      constructor
      · rintro ⟨_, s₁, hs₁, h⟩
        obtain rfl := hrest s₁ hs₁
        refine ⟨hiff.mp h.head, fun s₂ hs₂ => ?_⟩
        obtain rfl := hrest s₂ hs₂
        exact (always_iff_calls hstep hI' h.head (hQ.2 _ hs₂)).mp h
      · rintro ⟨hC, h⟩
        have hP' := hiff.mpr hC
        exact ⟨hP, s', hs', (always_iff_calls hstep hI' hP' (hQ.2 s' hs')).mpr (h s' hs')⟩

end Noelle
