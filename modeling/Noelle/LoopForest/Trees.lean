import Noelle.LoopForest.Basic

/-!
# LoopForest.Trees

The invariants of loop forests.

In a nested forest the nodes above a node form a path, so every node is in exactly one
tree.
-/

namespace Noelle

open Relation Option

namespace LoopForest

variable {F B : Type} {f : LoopForest F B} {n m p : Nat} {l : LoopStructure F B}

/-! ## Invariants -/

/-- `p` is the parent of the object `n`. -/
def Parent (f : LoopForest F B) (n p : Nat) : Prop :=
  ∃ c, f.heap n = some c ∧ c.parent = some p

/-- The objects form trees: children sets mirror the parents, the trees are the nodes
without parent, and no node is its own ancestor.  Objects past the counter are not
allocated yet. -/
structure Nested (f : LoopForest F B) : Prop where
  mirror : ∀ p c, f.heap p = some c → ∀ n, n ∈ c.children ↔ f.Parent n p
  parent_live : ∀ n p, f.Parent n p → ∃ c, f.heap p = some c
  trees : ∀ n, n ∈ f.trees ↔ ∃ c, f.heap n = some c ∧ c.parent = none
  acyclic : ∀ n, ¬ TransGen f.Parent n n
  fresh : ∀ n, f.nextNode ≤ n → f.heap n = none

theorem parent_iff_of_live {c : LoopTreeNode F B} (hc : f.heap n = some c) :
    f.Parent n p ↔ c.parent = some p :=
  ⟨fun ⟨_, hd, hp⟩ => mem_unique hc hd ▸ hp, fun hp => ⟨c, hc, hp⟩⟩

theorem Parent.unique {q : Nat} (h : f.Parent n p) (h' : f.Parent n q) : p = q := by
  obtain ⟨c, hc, hp⟩ := h
  obtain ⟨d, hd, hq⟩ := h'
  obtain rfl := mem_unique hc hd
  exact mem_unique hp hq

/-- The node and its loop are in the forest. -/
def Holds (f : LoopForest F B) (n : Nat) (l : LoopStructure F B) : Prop :=
  (f.heap n).map (·.loop) = some l

theorem holds_iff : f.Holds n l ↔ ∃ c, f.heap n = some c ∧ c.loop = l := map_eq_some_iff

/-- The maps of the forest know exactly its nodes. -/
structure Registered [DecidableEq F] [DecidableEq B] (f : LoopForest F B) : Prop where
  nodes : ∀ l n, f.nodes.lookup l = some n ↔ f.Holds n l
  headerLoops : ∀ b n, f.headerLoops.lookup b = some n ↔ ∃ l, f.Holds n l ∧ l.header = b

/-! ## Trees of a nested forest -/

theorem Nested.exists_height (h : f.Nested) : ∃ height : Nat → Nat,
    (∀ n p, f.Parent n p → height n < height p) ∧
      ∀ n c, f.heap n = some c → height n < f.nextNode := by
  classical
  have hlt : ∀ n c, f.heap n = some c → n < f.nextNode := fun n c hc => by
    by_contra hle
    simp [h.fresh n (not_lt.mp hle)] at hc
  refine ⟨fun n => ((List.range f.nextNode).filter fun m => decide (TransGen f.Parent m n)).length,
    fun n p hnp => ?_, fun n c hc => ?_⟩
  · obtain ⟨c, hc, -⟩ := id hnp
    refine length_filter_lt (a := n) (fun m _ hm => ?_) (List.mem_range.mpr (hlt n c hc))
      (decide_eq_true (.single hnp)) (decide_eq_false (h.acyclic n))
    exact decide_eq_true (.tail (of_decide_eq_true hm) hnp)
  · have hless := length_filter_lt (l := List.range f.nextNode) (p := fun _ => true)
      (q := fun m => decide (TransGen f.Parent m n)) (a := n) (fun _ _ _ => rfl)
      (List.mem_range.mpr (hlt n c hc)) rfl (decide_eq_false (h.acyclic n))
    simpa using hless

theorem ancestors_chain {a b : Nat} (ha : ReflTransGen f.Parent m a) (hb : ReflTransGen f.Parent m b) :
    ReflTransGen f.Parent a b ∨ ReflTransGen f.Parent b a :=
  ReflTransGen.total_of_right_unique (fun _ _ _ h h' => h.unique h') ha hb

theorem Nested.sibling_disjoint (h : f.Nested) {a b : Nat} (hap : f.Parent a p) (hbp : f.Parent b p)
    (ha : ReflTransGen f.Parent m a) (hb : ReflTransGen f.Parent m b) : a = b := by
  have hcycle : ∀ {a b}, f.Parent a p → f.Parent b p → ReflTransGen f.Parent a b → a = b := by
    intro a b hap hbp hab
    rcases reflTransGen_iff_eq_or_transGen.mp hab with heq | hab
    · exact heq.symm
    · obtain ⟨q, haq, hqb⟩ := TransGen.head'_iff.mp hab
      rw [haq.unique hap] at hqb
      exact absurd (TransGen.tail' hqb hbp) (h.acyclic p)
  exact (ancestors_chain ha hb).elim (hcycle hap hbp) fun hba => (hcycle hbp hap hba).symm

theorem Nested.tree_root (h : f.Nested) (hp : p ∈ f.trees) {a : Nat}
    (ha : ReflTransGen f.Parent p a) : a = p := by
  obtain ⟨c, hc, hroot⟩ := (h.trees p).mp hp
  rcases ha.cases_head with heq | ⟨q, ⟨d, hd, hq⟩, -⟩
  · exact heq.symm
  · obtain rfl := mem_unique hc hd
    simp [hroot] at hq

/-- Every node is below exactly one tree. -/
theorem Nested.existsUnique_tree (h : f.Nested) {c : LoopTreeNode F B} (hc : f.heap n = some c) :
    ∃ tree, (tree ∈ f.trees ∧ ReflTransGen f.Parent n tree) ∧
      ∀ tree', tree' ∈ f.trees → ReflTransGen f.Parent n tree' → tree' = tree := by
  obtain ⟨height, hheight, hbound⟩ := h.exists_height
  have hexists : ∃ tree, tree ∈ f.trees ∧ ReflTransGen f.Parent n tree := by
    induction hk : f.nextNode - height n using Nat.strong_induction_on generalizing n c with
    | _ k ih =>
        cases hparent : c.parent with
        | none => exact ⟨n, (h.trees n).mpr ⟨c, hc, hparent⟩, .refl⟩
        | some p =>
            have hnp : f.Parent n p := ⟨c, hc, hparent⟩
            obtain ⟨d, hd⟩ := h.parent_live n p hnp
            have hlt := hheight n p hnp
            have hp := hbound p d hd
            obtain ⟨tree, htree, hpath⟩ := ih (f.nextNode - height p) (by omega) hd rfl
            exact ⟨tree, htree, .head hnp hpath⟩
  obtain ⟨tree, htree, hpath⟩ := hexists
  refine ⟨tree, ⟨htree, hpath⟩, fun tree' htree' hpath' => ?_⟩
  rcases ancestors_chain hpath hpath' with hup | hup
  · exact h.tree_root htree hup
  · exact (h.tree_root htree' hup).symm

theorem Nested.ancestor_live (h : f.Nested) {a : Nat} (ha : TransGen f.Parent n a) :
    ∃ l, f.Holds a l := by
  obtain ⟨q, -, hqa⟩ := TransGen.tail'_iff.mp ha
  obtain ⟨c, hc⟩ := h.parent_live q a hqa
  exact ⟨c.loop, holds_iff.mpr ⟨c, hc, rfl⟩⟩

end LoopForest

end Noelle
