import Noelle.Lib.Digraph

/-!
# Lib.Contraction

Contracting every node with the only neighbour it has on one side.

Nodes of a graph choose, independently of each other, to be contracted with their only
child (`down`) or with their only parent (`up`).  Choices form chains, and a chain never
changes its direction, so that it ends in a root: everything that goes down leaves its
group through the root only, and everything that goes up is entered through it only.  An
edge between two groups is therefore a path between their roots, and the quotient graph
has no cycle that the graph does not have.
-/

namespace Noelle

open Relation

variable {α : Type}

/-- Nodes that are contracted with their only child or with their only parent. -/
structure Choices (r down up : α → α → Prop) : Prop where
  down_edge : ∀ a b, down a b → r a b ∧ a ≠ b
  down_only : ∀ a b k, down a b → r a k → k = a ∨ k = b
  up_edge : ∀ a b, up a b → r b a ∧ a ≠ b
  up_only : ∀ a b k, up a b → r k a → k = a ∨ k = b
  not_both : ∀ a b c, down a b → ¬ up a c

namespace Choices

variable {r down up : α → α → Prop} {a b c : α}

/-- A choice to go up that is not the choice of the parent as well. -/
def Up (down up : α → α → Prop) (a b : α) : Prop := up a b ∧ ¬ down b a

/-- The next node of a chain of choices. -/
def Next (down up : α → α → Prop) (a b : α) : Prop := down a b ∨ Up down up a b

/-- The end of the chain of choices of a node. -/
def Root (down up : α → α → Prop) (a root : α) : Prop :=
  ReflTransGen (Next down up) a root ∧ ∀ b, ¬ Next down up root b

section

variable (h : Choices r down up)

include h

theorem not_up_of_down (hab : down a b) : ¬ Up down up b c := by
  intro hbc
  cases h.up_only b c a hbc.1 (h.down_edge a b hab).1 with
  | inl heq => exact (h.down_edge a b hab).2 heq
  | inr heq => exact hbc.2 (heq ▸ hab)

theorem not_down_of_up (hab : Up down up a b) : ¬ down b c := by
  intro hbc
  cases h.down_only b c a hbc (h.up_edge a b hab.1).1 with
  | inl heq => exact (h.up_edge a b hab.1).2 heq
  | inr heq => exact hab.2 (heq ▸ hbc)

theorem next_unique (hab : Next down up a b) (hac : Next down up a c) :
    b = c := by
  cases hab with
  | inl hab =>
      cases hac with
      | inl hac =>
          exact (h.down_only a c b hac (h.down_edge a b hab).1).resolve_left
            (h.down_edge a b hab).2.symm
      | inr hac => exact absurd hac.1 (h.not_both a b c hab)
  | inr hab =>
      cases hac with
      | inl hac => exact absurd hab.1 (h.not_both a c b hac)
      | inr hac =>
          exact (h.up_only a c b hac.1 (h.up_edge a b hab.1).1).resolve_left
            (h.up_edge a b hab.1).2.symm

theorem root_unique (hb : Root down up a b) (hc : Root down up a c) :
    b = c := by
  obtain ⟨hab, hend⟩ := hb
  induction hab using ReflTransGen.head_induction_on with
  | refl =>
      cases ReflTransGen.cases_head hc.1 with
      | inl heq => exact heq
      | inr hstep =>
          obtain ⟨k, hk, _⟩ := hstep
          exact absurd hk (hend k)
  | @head x y hxy _ ih =>
      cases ReflTransGen.cases_head hc.1 with
      | inl heq => exact absurd (heq ▸ hxy) (hc.2 y)
      | inr hstep =>
          obtain ⟨k, hk, hkc⟩ := hstep
          obtain rfl := h.next_unique hxy hk
          exact ih ⟨hkc, hc.2⟩

/-- A chain of choices keeps its direction. -/
theorem down_or_up (hab : ReflTransGen (Next down up) a b) :
    ReflTransGen down a b ∨ ReflTransGen (Up down up) a b := by
  induction hab with
  | refl => exact .inl .refl
  | @tail b c _ hbc ih =>
      cases ih with
      | inl hdown =>
          cases hbc with
          | inl hbc => exact .inl (hdown.tail hbc)
          | inr hbc =>
              cases ReflTransGen.cases_tail hdown with
              | inl heq => exact .inr (.single (heq ▸ hbc))
              | inr hlast =>
                  obtain ⟨k, _, hkb⟩ := hlast
                  exact absurd hbc (h.not_up_of_down hkb)
      | inr hup =>
          cases hbc with
          | inr hbc => exact .inr (hup.tail hbc)
          | inl hbc =>
              cases ReflTransGen.cases_tail hup with
              | inl heq => exact .inl (.single (heq ▸ hbc))
              | inr hlast =>
                  obtain ⟨k, _, hkb⟩ := hlast
                  exact absurd hbc (h.not_down_of_up hkb)

/-! ## Roots -/

end

/-- A step out of a class goes to a root above its own. -/
theorem leave (h : Choices r down up) (hab : r a b) {x y : α} (hx : Root down up a x)
    (hy : Root down up b y) : x = y ∨ ReflTransGen r x a := by
  cases h.down_or_up hx.1 with
  | inl hdown =>
      cases ReflTransGen.cases_head hdown with
      | inl heq => exact .inr (heq ▸ .refl)
      | inr hfirst =>
          obtain ⟨c, hac, hcx⟩ := hfirst
          left
          cases h.down_only a c b hac hab with
          | inl heq => exact h.root_unique hx (heq ▸ hy)
          | inr heq =>
              exact h.root_unique
                ⟨ReflTransGen.mono (fun _ _ => .inl) _ _ hcx, hx.2⟩ (heq ▸ hy)
  | inr hup =>
      right
      clear hx hy
      induction hup with
      | refl => exact .refl
      | tail _ hstep ih => exact .head (h.up_edge _ _ hstep.1).1 ih

theorem enter (h : Choices r down up) (hab : r a b) {x y : α} (hx : Root down up a x)
    (hy : Root down up b y) : x = y ∨ ReflTransGen r b y := by
  cases h.down_or_up hy.1 with
  | inl hdown =>
      exact .inr (ReflTransGen.mono (fun _ _ hstep => (h.down_edge _ _ hstep).1) _ _ hdown)
  | inr hup =>
      cases ReflTransGen.cases_head hup with
      | inl heq => exact .inr (heq ▸ .refl)
      | inr hfirst =>
          obtain ⟨c, hbc, hcy⟩ := hfirst
          left
          cases h.up_only b c a hbc.1 hab with
          | inl heq => exact h.root_unique (heq ▸ hx) hy
          | inr heq =>
              exact h.root_unique (heq ▸ hx)
                ⟨ReflTransGen.mono (fun _ _ => .inr) _ _ hcy, hy.2⟩

end Choices

/-! ## One class after the other -/

section Classes

variable {r s : α → α → Prop} {C : α → Prop} {sets : List (α → Prop)} {a b x y : α}

/-- One more pair puts two classes together. -/
theorem eqvGen_insert (hs : ∀ x y, s x y ↔ r x y ∨ (x = a ∧ y = b)) :
    EqvGen s x y ↔ EqvGen r x y ∨
      ((EqvGen r x a ∨ EqvGen r x b) ∧ (EqvGen r y a ∨ EqvGen r y b)) := by
  have hmono : ∀ x y, EqvGen r x y → EqvGen s x y :=
    fun x y hxy => hxy.mono fun _ _ hr => (hs _ _).mpr (.inl hr)
  constructor
  · intro hxy
    induction hxy with
    | rel x y hxy =>
        rcases (hs x y).mp hxy with hr | ⟨rfl, rfl⟩
        · exact .inl (.rel _ _ hr)
        · exact .inr ⟨.inl (.refl _), .inr (.refl _)⟩
    | refl x => exact .inl (.refl x)
    | symm x y _ ih =>
        cases ih with
        | inl hxy => exact .inl hxy.symm
        | inr hboth => exact .inr hboth.symm
    | trans x y z _ _ ihxy ihyz =>
        rcases ihxy with hxy | ⟨hx, hy⟩ <;> rcases ihyz with hyz | ⟨hy', hz⟩
        · exact .inl (hxy.trans _ _ _ hyz)
        · exact .inr ⟨hy'.imp (hxy.trans _ _ _) (hxy.trans _ _ _), hz⟩
        · exact .inr ⟨hx, hy.imp (hyz.symm.trans _ _ _) (hyz.symm.trans _ _ _)⟩
        · exact .inr ⟨hx, hz⟩
  · have hjoin : EqvGen s a b := .rel _ _ ((hs a b).mpr (.inr ⟨rfl, rfl⟩))
    -- everything in the two classes is related to `a`
    have htoA : ∀ z, EqvGen r z a ∨ EqvGen r z b → EqvGen s z a := by
      intro z hz
      cases hz with
      | inl hz => exact hmono _ _ hz
      | inr hz => exact (hmono _ _ hz).trans _ _ _ hjoin.symm
    intro hxy
    cases hxy with
    | inl hxy => exact hmono _ _ hxy
    | inr hboth => exact (htoA x hboth.1).trans _ _ _ (htoA y hboth.2).symm

end Classes

end Noelle
