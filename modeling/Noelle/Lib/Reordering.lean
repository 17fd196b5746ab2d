import Mathlib.Data.List.Nodup

/-!
# Lib.Reordering

Reorderings of a list that keep the order of dependent elements.

`x` comes before `y` in a list if `[x, y]` is a sublist of it.  Moving one element up past elements
that it does not depend on is such a reordering (`Reorders.moveUp`).  If independent elements
commute, a reordering computes what the list did (`Reorders.foldlM_eq`).
-/

namespace Noelle

open List

variable {α : Type}

/-- `l'` has the elements of `l`, and `x` stays in front of `y` wherever `r x y`. -/
structure Reorders (r : α → α → Prop) (l l' : List α) : Prop where
  perm : l'.Perm l
  order : ∀ x y, r x y → List.Sublist [x, y] l → List.Sublist [x, y] l'

/-! ## Pairs of elements -/

variable {x y a : α} {l : List α}

theorem pair_sublist_append {l' : List α} : List.Sublist [x, y] (l ++ l') ↔
    List.Sublist [x, y] l ∨ (x ∈ l ∧ y ∈ l') ∨ List.Sublist [x, y] l' := by
  constructor
  · intro h
    obtain ⟨l₁, l₂, heq, h₁, h₂⟩ := sublist_append_iff.mp h
    rcases append_eq_cons_iff.mp heq.symm with ⟨rfl, rfl⟩ | ⟨rest, rfl, hrest⟩
    · exact .inr (.inr h₂)
    · rcases append_eq_cons_iff.mp hrest.symm with ⟨rfl, rfl⟩ | ⟨rest', rfl, hrest'⟩
      · exact .inr (.inl ⟨singleton_sublist.mp h₁, singleton_sublist.mp h₂⟩)
      · obtain ⟨rfl, rfl⟩ := append_eq_nil_iff.mp hrest'.symm
        exact .inl h₁
  · rintro (h | ⟨hx, hy⟩ | h)
    · exact h.trans (sublist_append_left l l')
    · exact List.Sublist.append (singleton_sublist.mpr hx) (singleton_sublist.mpr hy)
    · exact h.trans (sublist_append_right l l')

theorem pair_sublist_cons : List.Sublist [x, y] (a :: l) ↔
    (x = a ∧ y ∈ l) ∨ List.Sublist [x, y] l := by
  have h := @pair_sublist_append α x y [a] l
  have hno : ¬ List.Sublist [x, y] [a] := fun h => absurd h.length_le (by simp)
  simpa [hno] using h

theorem not_pair_swap (hl : l.Nodup) (h : List.Sublist [x, y] l) :
    ¬ List.Sublist [y, x] l := by
  induction l with
  | nil => exact absurd h.length_le (by simp)
  | cons a l ih =>
      obtain ⟨ha, hl⟩ := nodup_cons.mp hl
      intro h'
      rcases pair_sublist_cons.mp h with ⟨rfl, hy⟩ | htail <;>
        rcases pair_sublist_cons.mp h' with ⟨rfl, hx⟩ | htail'
      · exact ha hx
      · exact ha (htail'.subset (.tail y (.head _)))
      · exact ha (htail.subset (.tail x (.head _)))
      · exact ih hl htail htail'

theorem pair_or_swap (hx : x ∈ l) (hy : y ∈ l) (hne : x ≠ y) :
    List.Sublist [x, y] l ∨ List.Sublist [y, x] l := by
  induction l with
  | nil => nomatch hx
  | cons a l ih =>
      simp only [pair_sublist_cons]
      rcases mem_cons.mp hx with rfl | hx' <;> rcases mem_cons.mp hy with rfl | hy'
      · exact absurd rfl hne
      · exact .inl (.inl ⟨rfl, hy'⟩)
      · exact .inr (.inl ⟨rfl, hx'⟩)
      · exact (ih hx' hy').imp .inr .inr

theorem sublist_of_cons_sublist {rest front back : List α} (ha : a ∉ front)
    (h : List.Sublist (a :: rest) (front ++ a :: back)) : List.Sublist rest back := by
  induction front with
  | nil => exact cons_sublist_cons.mp h
  | cons b front ih =>
      rw [mem_cons, not_or] at ha
      exact ih ha.2 ((sublist_cons_iff.mp h).resolve_right fun hex => by
        obtain ⟨r, heq, -⟩ := hex
        exact ha.1 (List.cons.inj heq).1)

/-! ## Reorderings -/

namespace Reorders

variable {r : α → α → Prop} {l l' l'' : List α}

theorem refl (l : List α) : Reorders r l l := ⟨List.Perm.refl l, fun _ _ _ h => h⟩

theorem trans (h : Reorders r l l') (h' : Reorders r l' l'') : Reorders r l l'' :=
  ⟨h'.perm.trans h.perm, fun x y hxy hl => h'.order x y hxy (h.order x y hxy hl)⟩

theorem moveUp {front mid back : List α} {a : α} (hmid : ∀ k ∈ mid, ¬ r k a) :
    Reorders r (front ++ (mid ++ a :: back)) (front ++ a :: (mid ++ back)) where
  perm := List.Perm.append_left front perm_middle.symm
  order x y hxy h := by
    have hno : ¬ (x ∈ mid ∧ y = a) := fun hbad => hmid x hbad.1 (hbad.2 ▸ hxy)
    simp only [pair_sublist_append, pair_sublist_cons, mem_append, mem_cons] at h ⊢
    grind

theorem pairwise {R : α → α → Prop} (h : Reorders r l l') (hl : l.Nodup) (hR : l.Pairwise R)
    (hkeep : ∀ x y, x ∈ l → y ∈ l → ¬ R y x → r x y) : l'.Pairwise R := by
  have hl' : l'.Nodup := h.perm.nodup_iff.mpr hl
  refine pairwise_iff_forall_sublist.mpr fun {x y} hxy => ?_
  have hx : x ∈ l := h.perm.mem_iff.mp (hxy.subset (by simp))
  have hy : y ∈ l := h.perm.mem_iff.mp (hxy.subset (by simp))
  have hne : x ≠ y := by
    rintro rfl
    exact not_pair_swap hl' hxy hxy
  rcases pair_or_swap hx hy hne with hl | hl
  · exact pairwise_iff_forall_sublist.mp hR hl
  · by_contra hnot
    exact not_pair_swap hl' hxy (h.order y x (hkeep y x hy hx hnot) hl)

/-! ## Execution -/

section Execution

variable {σ : Type} {step : σ → α → Option σ}

theorem foldlM_middle {a : α} (back : List α) : ∀ {front : List α},
    (∀ k ∈ front, ∀ s, (step s a).bind (fun t => step t k) = (step s k).bind fun t => step t a) →
    ∀ s, (a :: (front ++ back)).foldlM step s = (front ++ a :: back).foldlM step s
  | [], _, _ => rfl
  | k :: front, hcomm, s => by
      have hk := hcomm k (.head _) s
      have ih := foldlM_middle back fun k' hk' => hcomm k' (.tail k hk')
      calc (a :: (k :: front ++ back)).foldlM step s
          = ((step s a).bind fun t => step t k).bind fun t => (front ++ back).foldlM step t := by
            simp [foldlM_cons, Option.bind_assoc]
        _ = ((step s k).bind fun t => step t a).bind fun t => (front ++ back).foldlM step t := by
            rw [hk]
        _ = (step s k).bind fun t => (a :: (front ++ back)).foldlM step t := by
            simp [foldlM_cons, Option.bind_assoc]
        _ = (k :: front ++ a :: back).foldlM step s := by
            rw [funext ih]
            simp [foldlM_cons]

/-- Orders that differ in commuting steps only give the same result. -/
theorem foldlM_eq (h : Reorders r l l') (hl : l.Nodup)
    (hcomm : ∀ x y, List.Sublist [x, y] l → ¬ r x y → ∀ s,
      (step s x).bind (fun t => step t y) = (step s y).bind fun t => step t x) (s : σ) :
    l.foldlM step s = l'.foldlM step s := by
  induction l generalizing l' s with
  | nil => rw [perm_nil.mp h.perm]
  | cons a l ih =>
      obtain ⟨ha, hl'⟩ := nodup_cons.mp hl
      obtain ⟨front, back, rfl⟩ := append_of_mem (h.perm.mem_iff.mpr (.head _))
      have hnodup : (front ++ a :: back).Nodup := h.perm.nodup_iff.mpr hl
      have hperm : (front ++ back).Perm l :=
        (perm_cons a).mp (perm_middle.symm.trans h.perm)
      have hmem : ∀ k, k ∈ front ++ back ↔ k ∈ l := fun k => hperm.mem_iff
      have htail : Reorders r l (front ++ back) := by
        refine ⟨hperm, fun x y hxy hsub => ?_⟩
        have hx : x ≠ a := fun heq => ha (heq ▸ hsub.subset (.head _))
        have hy : y ≠ a := fun heq =>
          ha (heq ▸ hsub.subset (.tail x (.head _)))
        have hpair := h.order x y hxy (hsub.cons a)
        simpa only [pair_sublist_append, pair_sublist_cons, mem_cons, hx, hy, false_and,
          false_or] using hpair
      -- what now comes first does not depend on `a`
      have hfront : ∀ k ∈ front, ¬ r a k := by
        intro k hk hak
        have hafter : List.Sublist [a, k] (front ++ a :: back) :=
          h.order a k hak (pair_sublist_cons.mpr
            (.inl ⟨rfl, (hmem k).mp (mem_append_left back hk)⟩))
        exact not_pair_swap hnodup hafter
          (pair_sublist_append.mpr (.inr (.inl ⟨hk, .head _⟩)))
      rw [← foldlM_middle back fun k hk s => hcomm a k (pair_sublist_cons.mpr
        (.inl ⟨rfl, (hmem k).mp (mem_append_left back hk)⟩)) (hfront k hk) s]
      rw [foldlM_cons, foldlM_cons]
      exact congrArg (step s a).bind (funext fun t =>
        ih htail hl' (fun x y hsub => hcomm x y (hsub.cons a)) t)

end Execution

end Reorders

end Noelle
