import Mathlib.Algebra.Order.BigOperators.Group.Finset
import Mathlib.Tactic.Linarith
import Noelle.LoopInvariantCodeMotion.Basic

/-!
# LoopInvariantCodeMotion.Sorting

The sort of `hoistInvariantValues` in order of dominance.

A swap moves an instruction that dominates another in front of it.  The sum of the positions, each
weighted with the number of dominators of the instruction there, grows with every swap and is
bounded, so the sort ends.
-/

namespace Noelle

open List

namespace LoopInvariantCodeMotion

variable {V B : Type}

/-! ## The weight of a list -/

/-- The dominators of an instruction in a list. -/
def rank (DS : DominatorQueries V B) (l : List V) (x : V) : Nat :=
  (l.filter fun y => DS.dominates y x).length

/-- The weighted sum of the positions. -/
def weight (r : V → Nat) (l : List V) : Nat :=
  ∑ k ∈ Finset.range l.length, k * (l[k]?.elim 0 r)

/-- Dominance is a strict order on the elements of the list. -/
structure IsStrictOn (DS : DominatorQueries V B) (l : List V) : Prop where
  irrefl : ∀ x ∈ l, DS.dominates x x = false
  trans : ∀ x ∈ l, ∀ y ∈ l, ∀ z ∈ l, DS.dominates x y = true → DS.dominates y z = true →
    DS.dominates x z = true

theorem rank_le (DS : DominatorQueries V B) (l : List V) (x : V) : rank DS l x ≤ l.length :=
  length_filter_le _ _

variable {DS : DominatorQueries V B} {l : List V} {x y : V} {r : V → Nat} {n i j fuel : Nat}

theorem IsStrictOn.rank_lt (h : IsStrictOn DS l) (hx : x ∈ l) (hy : y ∈ l)
    (hxy : DS.dominates x y = true) : rank DS l x < rank DS l y :=
  length_filter_lt (fun z hz hzx => h.trans z hz x hx y hy hzx hxy) hx hxy (h.irrefl x hx)

theorem weight_le (hr : ∀ x, r x ≤ n) :
    weight r l ≤ l.length * (l.length * n) := by
  unfold weight
  calc ∑ k ∈ Finset.range l.length, k * (l[k]?.elim 0 r)
      ≤ ∑ _k ∈ Finset.range l.length, l.length * n := by
        refine Finset.sum_le_sum fun k hk => Nat.mul_le_mul (Finset.mem_range.mp hk).le ?_
        cases l[k]? with
        | none => exact Nat.zero_le n
        | some x => exact hr x
    _ = l.length * (l.length * n) := by simp

/-- Swapping two elements into order lowers the weight. -/
theorem weight_lt_swap (hij : i < j) (hx : l[i]? = some x) (hy : l[j]? = some y) (hr : r y < r x) :
    weight r l < weight r ((l.set i y).set j x) := by
  obtain ⟨hi, -⟩ := List.getElem?_eq_some_iff.mp hx
  obtain ⟨hj, -⟩ := List.getElem?_eq_some_iff.mp hy
  have hlen : ((l.set i y).set j x).length = l.length := by simp
  have hi' : ((l.set i y).set j x)[i]? = some y := by
    rw [List.getElem?_set_ne hij.ne', List.getElem?_set_self hi]
  have hj' : ((l.set i y).set j x)[j]? = some x := by
    rw [List.getElem?_set_self (by simpa using hj)]
  have hmem : j ∈ (Finset.range l.length).erase i :=
    Finset.mem_erase.mpr ⟨hij.ne', Finset.mem_range.mpr hj⟩
  -- the other positions keep what they hold
  have hrest : ∑ k ∈ ((Finset.range l.length).erase i).erase j,
        k * (((l.set i y).set j x)[k]?.elim 0 r) =
      ∑ k ∈ ((Finset.range l.length).erase i).erase j, k * (l[k]?.elim 0 r) := by
    refine Finset.sum_congr rfl fun k hk => ?_
    obtain ⟨hkj, hk⟩ := Finset.mem_erase.mp hk
    obtain ⟨hki, -⟩ := Finset.mem_erase.mp hk
    rw [List.getElem?_set_ne hkj.symm, List.getElem?_set_ne hki.symm]
  unfold weight
  rw [hlen, ← Finset.add_sum_erase _ _ (Finset.mem_range.mpr hi), ← Finset.add_sum_erase _ _ hmem,
    ← Finset.add_sum_erase _ _ (Finset.mem_range.mpr hi), ← Finset.add_sum_erase _ _ hmem, hrest,
    hx, hy, hi', hj']
  simp only [Option.elim_some]
  have hswap : i * r x + j * r y < i * r y + j * r x := by nlinarith
  omega

/-! ## Passes -/

theorem mem_positions : (i, j) ∈ positions n ↔ i < j ∧ j < n := by
  simp only [positions, mem_flatMap, mem_range, mem_map, mem_range'_1,
    Prod.mk.injEq]
  constructor
  · rintro ⟨a, ha, b, hb, rfl, rfl⟩
    omega
  · rintro ⟨hij, hj⟩
    exact ⟨i, by omega, j, by omega, rfl, rfl⟩

/-- One comparison: nothing happens, or the smaller rank moves to the front. -/
theorem swapIfDominates_cases (DS : DominatorQueries V B) {s : List V × Bool} :
    swapIfDominates DS s (i, j) = s ∧
        (∀ x y, s.1[i]? = some x → s.1[j]? = some y → DS.dominates y x = false) ∨
      ∃ x y, s.1[i]? = some x ∧ s.1[j]? = some y ∧ DS.dominates y x = true ∧
        swapIfDominates DS s (i, j) = ((s.1.set i y).set j x, false) := by
  unfold swapIfDominates
  split
  · next x y hx hy =>
    dsimp only at hx hy
    cases hdom : DS.dominates y x with
    | true => exact .inr ⟨x, y, hx, hy, hdom, by simp⟩
    | false =>
      refine .inl ⟨by simp, fun x' y' hx' hy' => ?_⟩
      obtain rfl : x = x' := Option.mem_unique hx hx'
      obtain rfl : y = y' := Option.mem_unique hy hy'
      exact hdom
  · next hnone =>
    refine .inl ⟨rfl, fun x y hx hy => ?_⟩
    exact absurd hy (hnone x y hx)

/-- A pass finds the list sorted and leaves it, or adds weight if dominance has a rank. -/
theorem pass_spec (DS : DominatorQueries V B) (r : V → Nat) {l₀ : List V} (hperm : l.Perm l₀) :
    ∃ l' flag, (positions l.length).foldl (swapIfDominates DS) (l, true) = (l', flag) ∧
      l'.Perm l₀ ∧
      (flag = true → l' = l ∧ l.Pairwise fun x y => DS.dominates y x = false) ∧
      ((∀ x ∈ l₀, ∀ y ∈ l₀, DS.dominates x y = true → r x < r y) → flag = false →
        weight r l < weight r l') := by
  have hpass := foldl_rule (swapIfDominates DS)
    (fun visited s => s.1.Perm l₀ ∧
      (s.2 = true → s.1 = l ∧ ∀ i j, (i, j) ∈ visited → ∀ x y, l[i]? = some x → l[j]? = some y →
        DS.dominates y x = false) ∧
      ((∀ x ∈ l₀, ∀ y ∈ l₀, DS.dominates x y = true → r x < r y) → s.2 = false →
        weight r l < weight r s.1))
    (l := positions l.length) (s := (l, true)) ⟨hperm, by simp, fun _ => nofun⟩ (by
      rintro visited ⟨i, j⟩ post ⟨l₁, flag⟩ hsplit ⟨hperm₁, hsorted, hweight⟩
      have hij : i < j := (mem_positions.mp (by rw [hsplit]; simp)).1
      rcases swapIfDominates_cases DS (s := (l₁, flag)) (i := i) (j := j) with
        ⟨heq, hnot⟩ | ⟨x, y, hx, hy, hdom, heq⟩
      · rw [heq]
        refine ⟨hperm₁, fun hflag => ?_, hweight⟩
        obtain ⟨rfl, hvisited⟩ := hsorted hflag
        refine ⟨rfl, fun i' j' hmem => ?_⟩
        rcases mem_append.mp hmem with hmem | hmem
        · exact hvisited i' j' hmem
        · obtain ⟨rfl, rfl⟩ := Prod.mk.inj (mem_singleton.mp hmem)
          exact hnot
      · rw [heq]
        obtain ⟨hi, rfl⟩ := List.getElem?_eq_some_iff.mp hx
        obtain ⟨hj, rfl⟩ := List.getElem?_eq_some_iff.mp hy
        refine ⟨(set_set_perm hi hj).trans hperm₁, nofun, fun hr _ => ?_⟩
        have hle : weight r l ≤ weight r l₁ := by
          cases flag with
          | true =>
            have hl : l₁ = l := (hsorted rfl).1
            rw [hl]
          | false => exact (hweight hr rfl).le
        refine Nat.lt_of_le_of_lt hle (weight_lt_swap hij hx hy ?_)
        exact hr _ (hperm₁.mem_iff.mp (getElem_mem hj)) _
          (hperm₁.mem_iff.mp (getElem_mem hi)) hdom)
  obtain ⟨hperm', hsorted, hweight⟩ := hpass
  refine ⟨_, _, rfl, hperm', fun hflag => ?_, hweight⟩
  obtain ⟨heq, hvisited⟩ := hsorted hflag
  refine ⟨heq, pairwise_iff_getElem.mpr fun i j hi hj hij => ?_⟩
  exact hvisited i j (mem_positions.mpr ⟨hij, hj⟩) _ _ (List.getElem?_eq_getElem hi)
    (List.getElem?_eq_getElem hj)

/-- The sort ends in an order in which nothing dominates what is before it. -/
theorem sortByDominance_spec (DS : DominatorQueries V B) (hstrict : IsStrictOn DS l)
    (hfuel : l.length * (l.length * l.length) < fuel) :
    ∃ l', sortByDominance DS fuel l = some l' ∧ l'.Perm l ∧
      l'.Pairwise fun x y => DS.dominates y x = false := by
  have hbound : ∀ {l' : List V}, l'.Perm l →
      weight (rank DS l) l' ≤ l.length * (l.length * l.length) := by
    intro l' hperm
    rw [← hperm.length_eq]
    exact weight_le fun x => hperm.length_eq ▸ rank_le DS l x
  obtain ⟨s, hs, ⟨hperm, hsorted⟩, hcond⟩ := @loopM_rule _ (fun s : List V × Bool => !s.2)
    (fun s => some ((positions s.1.length).foldl (swapIfDominates DS) (s.1, true)))
    (fun s => s.1.Perm l ∧ (s.2 = true → s.1.Pairwise fun x y => DS.dominates y x = false))
    (fun s => (l.length * (l.length * l.length) - weight (rank DS l) s.1) + if s.2 then 0 else 1)
    (by
      rintro ⟨l₁, flag⟩ ⟨hperm, -⟩ hflag
      obtain rfl : flag = false := by simpa using hflag
      obtain ⟨l', flag', hpass, hperm', hsorted, hweight⟩ := pass_spec DS (rank DS l) hperm
      refine ⟨_, congrArg some hpass, ⟨hperm', fun hflag => ?_⟩, ?_⟩
      · obtain ⟨rfl, hpair⟩ := hsorted hflag
        exact hpair
      · have hle := hbound hperm'
        cases flag' with
        | true =>
          obtain ⟨rfl, -⟩ := hsorted rfl
          simp
        | false =>
          have hlt : weight (rank DS l) l₁ < weight (rank DS l) l' :=
            hweight (fun x hx y hy hxy => hstrict.rank_lt hx hy hxy) rfl
          simp only [Bool.false_eq_true, if_false]
          omega)
    fuel (l, false) ⟨List.Perm.refl l, nofun⟩ (by
      simp only [Bool.false_eq_true, if_false]
      omega)
  exact ⟨s.1, by simp [sortByDominance, hs], hperm, hsorted (by simpa using hcond)⟩

end LoopInvariantCodeMotion

end Noelle
