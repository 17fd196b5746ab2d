/-!
# Lib.Inclusion

Inclusion constraints over points-to sets.

A node points to objects, and every object has a node for its contents.  The constraints
are base facts, copies, and copies through the objects that a node points to (loads and
stores).  Whatever an escaping node reaches exchanges its contents with those of one
object that stands for everything unknown.
-/

namespace Noelle

/-- Constraints over the nodes `N` and the objects `O`. -/
structure InclusionConstraints (N O : Type) where
  content : O → N
  unknown : O
  base : N → O → Prop
  copy : N → N → Prop
  /-- The second node takes the contents of the objects of the first. -/
  load : N → N → Prop
  /-- The contents of the objects of the first node take those of the second. -/
  store : N → N → Prop
  escape : N → Prop

/-- The objects that a node points to, directly or through other objects. -/
inductive Reaches {N O : Type} (content : O → N) (σ : N → O → Prop) (n : N) : O → Prop
  | direct {o : O} : σ n o → Reaches content σ n o
  | step {o o' : O} : Reaches content σ n o → σ (content o) o' → Reaches content σ n o'

variable {N O : Type} {K : InclusionConstraints N O} {σ τ : N → O → Prop} {n p : N} {o m : O}

theorem Reaches.mono {content : O → N} (h : ∀ n o, σ n o → τ n o) (hr : Reaches content σ n o) :
    Reaches content τ n o := by
  induction hr with
  | direct ho => exact .direct (h _ _ ho)
  | step _ ho ih => exact .step ih (h _ _ ho)

theorem Reaches.head {content : O → N} (hm : σ n m) (hr : Reaches content σ (content m) o) :
    Reaches content σ n o := by
  induction hr with
  | direct ho => exact .step (.direct hm) ho
  | step _ ho ih => exact .step ih ho

namespace InclusionConstraints

/-- The points-to sets satisfy the constraints. -/
structure Solution (K : InclusionConstraints N O) (σ : N → O → Prop) : Prop where
  base : ∀ n o, K.base n o → σ n o
  copy : ∀ a b, K.copy a b → ∀ o, σ a o → σ b o
  load : ∀ p d, K.load p d → ∀ m, σ p m → ∀ o, σ (K.content m) o → σ d o
  store : ∀ p v, K.store p v → ∀ m, σ p m → ∀ o, σ v o → σ (K.content m) o
  escape_out : ∀ p, K.escape p → ∀ m, Reaches K.content σ p m →
    ∀ o, σ (K.content m) o → σ (K.content K.unknown) o
  escape_in : ∀ p, K.escape p → ∀ m, Reaches K.content σ p m →
    ∀ o, σ (K.content K.unknown) o → σ (K.content m) o

/-- A solution that every solution includes. -/
def IsLeastSolution (K : InclusionConstraints N O) (σ : N → O → Prop) : Prop :=
  K.Solution σ ∧ ∀ τ, K.Solution τ → ∀ n o, σ n o → τ n o

theorem IsLeastSolution.unique (hσ : K.IsLeastSolution σ) (hτ : K.IsLeastSolution τ) :
    σ n o ↔ τ n o :=
  ⟨hσ.2 τ hτ.1 n o, hτ.2 σ hσ.1 n o⟩

/-- What holds in every solution. -/
def least (K : InclusionConstraints N O) (n : N) (o : O) : Prop := ∀ σ, K.Solution σ → σ n o

theorem least_isLeastSolution : K.IsLeastSolution K.least := by
  have hle : ∀ σ, K.Solution σ → ∀ n o, K.least n o → σ n o := fun σ hσ n o h => h σ hσ
  refine ⟨⟨fun n o h σ hσ => hσ.base n o h, fun a b h o ho σ hσ => hσ.copy a b h o (ho σ hσ),
    fun p d h m hm o ho σ hσ => hσ.load p d h m (hm σ hσ) o (ho σ hσ),
    fun p v h m hm o ho σ hσ => hσ.store p v h m (hm σ hσ) o (ho σ hσ),
    fun p h m hm o ho σ hσ => hσ.escape_out p h m (hm.mono (hle σ hσ)) o (ho σ hσ),
    fun p h m hm o ho σ hσ => hσ.escape_in p h m (hm.mono (hle σ hσ)) o (ho σ hσ)⟩, ?_⟩
  exact fun σ hσ n o h => h σ hσ

def withoutEscape (K : InclusionConstraints N O) : InclusionConstraints N O :=
  { K with escape := fun _ => False }

theorem Solution.withoutEscape (h : K.Solution σ) : K.withoutEscape.Solution σ :=
  ⟨h.base, h.copy, h.load, h.store, fun _ hfalse => hfalse.elim, fun _ hfalse => hfalse.elim⟩

/-- In a solution everything that an escaping node reaches is in the unknown set, if the node
itself is copied there. -/
theorem Solution.unknown_of_reaches (h : K.Solution σ) (hp : K.escape p)
    (hcopy : K.copy p (K.content K.unknown)) (hm : Reaches K.content σ p m) :
    σ (K.content K.unknown) m := by
  cases hm with
  | direct ho => exact h.copy _ _ hcopy _ ho
  | step hr ho => exact h.escape_out p hp _ hr _ ho

end InclusionConstraints

end Noelle
