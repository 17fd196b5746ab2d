import Mathlib.Algebra.Group.Defs
import Mathlib.Data.List.Perm.Basic

/-!
# Lib.Splitting

A fold over an associative and commutative operator with an identity, split into partial folds.

Each part starts from the identity; the partial results are folded into the initial value.  The
parts may take the elements in any order.
-/

namespace Noelle

open List

variable {α ι : Type} {op : α → α → α} {e : α}

/-- The laws that a reduction relies on. -/
structure IsReductionOperator (op : α → α → α) (e : α) : Prop where
  assoc : ∀ a b c, op (op a b) c = op a (op b c)
  comm : ∀ a b, op a b = op b a
  identity : ∀ a, op e a = a

namespace IsReductionOperator

theorem identity_right (h : IsReductionOperator op e) (a : α) : op a e = a := by
  rw [h.comm, h.identity]

theorem foldl_partial (h : IsReductionOperator op e) (a : α) :
    ∀ l : List α, op a (l.foldl op e) = l.foldl op a
  | [] => h.identity_right a
  | b :: l => by
      rw [foldl_cons, foldl_cons, h.identity, ← h.foldl_partial b l, ← h.assoc]
      exact h.foldl_partial (op a b) l

theorem foldl_partial_map (h : IsReductionOperator op e) (c : ι → α) (a : α) (l : List ι) :
    op a (l.foldl (fun x i => op x (c i)) e) = l.foldl (fun x i => op x (c i)) a := by
  have hmap : ∀ b, l.foldl (fun x i => op x (c i)) b = (l.map c).foldl op b := fun _ =>
    foldl_map.symm
  rw [hmap, hmap]
  exact h.foldl_partial a (l.map c)

theorem foldl_partials (h : IsReductionOperator op e) : ∀ (parts : List (List α)) (a : α),
    (parts.map fun part => part.foldl op e).foldl op a = parts.flatten.foldl op a
  | [], a => rfl
  | part :: parts, a => by
      rw [map_cons, foldl_cons, h.foldl_partial, h.foldl_partials parts,
        flatten_cons, foldl_append]

theorem foldl_perm (h : IsReductionOperator op e) {l l' : List α} (hl : l.Perm l') (a : α) :
    l.foldl op a = l'.foldl op a :=
  hl.foldl_eq' (fun x _ y _ z => by rw [h.assoc, h.comm x y, ← h.assoc]) a

/-- **Splitting a reduction**: the parts of any distribution of the indices, each folded from the
identity, give the fold over all indices. -/
theorem foldl_split (h : IsReductionOperator op e) (c : ι → α) {all : List ι}
    {parts : List (List ι)} (hparts : parts.flatten.Perm all) (a : α) :
    (parts.map fun part => (part.map c).foldl op e).foldl op a = (all.map c).foldl op a := by
  have hpart : (parts.map fun part => (part.map c).foldl op e) =
      (parts.map (List.map c)).map fun part => part.foldl op e := by
    rw [map_map]
    rfl
  rw [hpart, h.foldl_partials, ← map_flatten]
  exact h.foldl_perm (hparts.map c) a

end IsReductionOperator

end Noelle
