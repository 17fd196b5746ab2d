import Mathlib.Logic.Relation

/-!
# Lib.Ancestors

Forests as parent relations.

`r m p` says that `p` is the parent of `m`, so the ancestors of `m` are what
`TransGen r` relates it to.  A node is spliced out by making its parent the parent of
its children; the ancestors that remain are the old ones.  The nearest common ancestor of
two nodes is where the way up from the one first meets an ancestor of the other.
-/

namespace Noelle

open Relation

variable {α : Type} {r : α → α → Prop} {n m p a : α}

/-- The parent relation without the node `n`, whose children move to its parent. -/
def Splice (r : α → α → Prop) (n m p : α) : Prop :=
  m ≠ n ∧ p ≠ n ∧ (r m p ∨ (r m n ∧ r n p))

/-- Splicing out a node removes it from the ancestor relation and changes nothing else. -/
theorem transGen_splice (hirrefl : ¬ r n n) :
    TransGen (Splice r n) m a ↔ TransGen r m a ∧ m ≠ n ∧ a ≠ n := by
  constructor
  · intro h
    have hstep : ∀ {m p}, Splice r n m p → TransGen r m p := by
      rintro m p ⟨_, _, h | ⟨hm, hn⟩⟩
      · exact .single h
      · exact .tail (.single hm) hn
    induction h with
    | single h => exact ⟨hstep h, h.1, h.2.1⟩
    | tail _ h ih => exact ⟨ih.1.trans (hstep h), ih.2.1, h.2.1⟩
  · rintro ⟨h, hm, ha⟩
    -- a child of `n` starts with the parent of `n`, so both cases go along the chain
    have hboth : (m ≠ n → TransGen (Splice r n) m a) ∧
        (m = n → ∀ k, r k n → k ≠ n → TransGen (Splice r n) k a) := by
      clear hm
      induction h using TransGen.head_induction_on with
      | @single m hma =>
          refine ⟨fun hm => .single ⟨hm, ha, .inl hma⟩, ?_⟩
          rintro rfl k hk hkn
          exact .single ⟨hkn, ha, .inr ⟨hk, hma⟩⟩
      | @head m x hmx _ ih =>
          constructor
          · intro hm
            by_cases hx : x = n
            · exact ih.2 hx m (hx ▸ hmx) hm
            · exact .head ⟨hm, hx, .inl hmx⟩ (ih.1 hx)
          · rintro rfl k hk hkn
            have hx : x ≠ m := fun hx => hirrefl (hx ▸ hmx)
            exact .head ⟨hkn, hx, .inr ⟨hk, hmx⟩⟩ (ih.1 hx)
    exact hboth.1 hm

theorem parent_iff_nearest (hfun : ∀ {m p q}, r m p → r m q → p = q)
    (hacyclic : ∀ m, ¬ TransGen r m m) :
    r m p ↔ TransGen r m p ∧ ∀ a, TransGen r m a → a = p ∨ TransGen r p a := by
  constructor
  · intro h
    refine ⟨.single h, fun a ha => ?_⟩
    obtain ⟨q, hq, hqa⟩ := TransGen.head'_iff.mp ha
    rw [hfun hq h] at hqa
    exact reflTransGen_iff_eq_or_transGen.mp hqa
  · rintro ⟨h, hnearest⟩
    obtain ⟨q, hq, hqp⟩ := TransGen.head'_iff.mp h
    rcases reflTransGen_iff_eq_or_transGen.mp hqp with heq | hqp
    · exact heq ▸ hq
    · rcases hnearest q (.single hq) with heq | hpq
      · exact heq ▸ hq
      · exact absurd (hpq.trans hqp) (hacyclic p)

/-! ## Common ancestors -/

/-- `c` is an ancestor of both nodes or one of them, and below all others that are. -/
structure IsNearestCommon (r : α → α → Prop) (m n c : α) : Prop where
  left : ReflTransGen r m c
  right : ReflTransGen r n c
  nearest : ∀ d, ReflTransGen r m d → ReflTransGen r n d → ReflTransGen r c d

theorem IsNearestCommon.symm {c : α} (h : IsNearestCommon r m n c) : IsNearestCommon r n m c :=
  ⟨h.right, h.left, fun d hn hm => h.nearest d hm hn⟩

theorem IsNearestCommon.unique {c d : α} (hacyclic : ∀ m, ¬ TransGen r m m)
    (hc : IsNearestCommon r m n c) (hd : IsNearestCommon r m n d) : c = d := by
  rcases reflTransGen_iff_eq_or_transGen.mp (hc.nearest d hd.left hd.right) with heq | hcd
  · exact heq.symm
  · rcases reflTransGen_iff_eq_or_transGen.mp (hd.nearest c hc.left hc.right) with heq | hdc
    · exact heq
    · exact absurd (hcd.trans hdc) (hacyclic c)

/-- Common ancestors are above a way up through nodes that are no ancestors of the other
node. -/
theorem reach_of_climb {c d : α} (hfun : ∀ {m p q}, r m p → r m q → p = q)
    (hclimb : ReflTransGen (fun x y => r x y ∧ ¬ ReflTransGen r n x) m c)
    (hm : ReflTransGen r m d) (hn : ReflTransGen r n d) : ReflTransGen r c d := by
  induction hclimb using ReflTransGen.head_induction_on with
  | refl => exact hm
  | head hxy _ ih =>
      rcases hm.cases_head with rfl | ⟨z, hxz, hzd⟩
      · exact absurd hn hxy.2
      · exact ih (hfun hxy.1 hxz ▸ hzd)

theorem isNearestCommon_of_climb {c : α} (hfun : ∀ {m p q}, r m p → r m q → p = q)
    (hright : ReflTransGen r n c)
    (hclimb : ReflTransGen (fun x y => r x y ∧ ¬ ReflTransGen r n x) m c) :
    IsNearestCommon r m n c where
  left := ReflTransGen.mono (fun _ _ => And.left) _ _ hclimb
  right := hright
  nearest := fun _ hm hn => reach_of_climb hfun hclimb hm hn

end Noelle
