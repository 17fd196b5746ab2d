import Noelle.Lib.Collections

/-!
# Lib.Nesting

Families of nested things.

`contains l x` says that `l` strictly contains `x`.  In a nesting the members that
contain a member form a chain, so a member that is contained at all has an innermost
container.  The innermost containers make the family a forest.
-/

namespace Noelle

variable {α : Type} {family : List α} {contains : α → α → Prop} {a b c l m p q x : α}

/-- Members that contain a member are nested. -/
structure IsNesting (family : List α) (contains : α → α → Prop) : Prop where
  irrefl : ∀ x ∈ family, ¬ contains x x
  trans : ∀ a b c, contains a b → contains b c → contains a c
  chain : ∀ a ∈ family, ∀ b ∈ family, ∀ x ∈ family, contains a x → contains b x →
    a = b ∨ contains a b ∨ contains b a

/-- `p` is the innermost member that contains `x`. -/
def Innermost (family : List α) (contains : α → α → Prop) (x p : α) : Prop :=
  p ∈ family ∧ contains p x ∧ ∀ m ∈ family, contains m x → m = p ∨ contains m p

open Classical in
/-- The number of members inside `l`. -/
noncomputable def inside (family : List α) (contains : α → α → Prop) (l : α) : Nat :=
  (family.filter fun x => decide (contains l x)).length

namespace IsNesting

section

variable (h : IsNesting family contains)

include h

theorem inside_lt (hc : c ∈ family) (hlc : contains l c) :
    inside family contains c < inside family contains l := by
  classical
  refine length_filter_lt (a := c) (fun x _ hx => ?_) hc (decide_eq_true hlc)
    (decide_eq_false (h.irrefl c hc))
  exact decide_eq_true (h.trans l c x hlc (of_decide_eq_true hx))

theorem inside_lt_length (hl : l ∈ family) :
    inside family contains l < family.length := by
  classical
  have hlt := length_filter_lt (l := family) (p := fun _ => true)
    (q := fun x => decide (contains l x)) (a := l) (fun _ _ _ => rfl) hl rfl
    (decide_eq_false (h.irrefl l hl))
  simpa [inside] using hlt

theorem innermost_unique (hp : Innermost family contains x p)
    (hq : Innermost family contains x q) : p = q := by
  rcases hp.2.2 q hq.1 hq.2.1 with heq | hqp
  · exact heq.symm
  · rcases hq.2.2 p hp.1 hp.2.1 with heq | hpq
    · exact heq
    · exact absurd (h.trans p q p hpq hqp) (h.irrefl p hp.1)

theorem exists_innermost (hx : x ∈ family) (hm : m ∈ family)
    (hmx : contains m x) : ∃ p, Innermost family contains x p := by
  induction hk : inside family contains m using Nat.strong_induction_on generalizing m with
  | _ k ih =>
      by_cases hinner : ∀ a ∈ family, contains a x → a = m ∨ contains a m
      · exact ⟨m, hm, hmx, hinner⟩
      · push Not at hinner
        obtain ⟨a, ha, hax, hne, hnot⟩ := hinner
        rcases h.chain a ha m hm x hx hax hmx with heq | ham | hma
        · exact absurd heq hne
        · exact absurd ham hnot
        · exact ih _ (hk ▸ h.inside_lt ha hma) ha hax rfl

theorem not_innermost_iff (hl : l ∈ family) (hx : x ∈ family) (hlx : contains l x) :
    ¬ Innermost family contains x l ↔ ∃ m ∈ family, contains m x ∧ contains l m := by
  constructor
  · intro hnot
    have houter : ¬ ∀ m ∈ family, contains m x → m = l ∨ contains m l := fun hall =>
      hnot ⟨hl, hlx, hall⟩
    push Not at houter
    obtain ⟨m, hm, hmx, hne, hml⟩ := houter
    rcases h.chain m hm l hl x hx hmx hlx with heq | hcontains | hcontains
    · exact absurd heq hne
    · exact absurd hcontains hml
    · exact ⟨m, hm, hmx, hcontains⟩
  · rintro ⟨m, hm, hmx, hlm⟩ hinner
    rcases hinner.2.2 m hm hmx with heq | hml
    · exact h.irrefl m hm (heq ▸ hlm)
    · exact h.irrefl l hl (h.trans l m l hlm hml)

/-- What a set contains is in one of its children. -/
theorem contains_iff_exists_child (hl : l ∈ family) (hx : x ∈ family) :
    contains l x ↔ ∃ c ∈ family, Innermost family contains c l ∧ (x = c ∨ contains c x) := by
  constructor
  · intro hlx
    -- climb from `x` to the member right below `l`
    induction hk : inside family contains l - inside family contains x
      using Nat.strong_induction_on generalizing x with
    | _ k ih =>
        obtain ⟨p, hp⟩ := h.exists_innermost hx hl hlx
        rcases hp.2.2 l hl hlx with heq | hlp
        · exact ⟨x, hx, heq ▸ hp, .inl rfl⟩
        · have hpl := h.inside_lt hp.1 hlp
          have hxp := h.inside_lt hx hp.2.1
          obtain ⟨c, hc, hcl, hpc⟩ := ih _ (by omega) hp.1 hlp rfl
          refine ⟨c, hc, hcl, .inr ?_⟩
          rcases hpc with rfl | hcp
          · exact hp.2.1
          · exact h.trans c p x hcp hp.2.1
  · rintro ⟨c, _, hcl, rfl | hcx⟩
    · exact hcl.2.1
    · exact h.trans l c x hcl.2.1 hcx

end

end IsNesting

end Noelle
