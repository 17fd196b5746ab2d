import Mathlib.Algebra.Order.BigOperators.Group.List
import Mathlib.Algebra.Order.Group.Nat
import Noelle.Lib.Search

/-!
# Lib.DepthOrder

Listing the nodes of a graph after their parents, with a queue.

A node is listed when it is dequeued after all its parents were listed; then its children are
enqueued.  So a node that waits for several parents is enqueued by each of them, and the last
one finds the others listed.  What is never listed waits for a cycle.
-/

namespace Noelle

open Function Relation List

variable {α : Type} [DecidableEq α]

/-- The body of the loop, on the queue, the listed nodes as a set and as a list. -/
def depthOrderStep (parents children : α → Option (List α)) (s : List α × PtrSet α × List α) :
    Option (List α × PtrSet α × List α) := do
  let a ← s.1.head?
  if a ∈ s.2.1 then return (s.1.tail, s.2)
  if (← parents a).all fun parent => decide (parent ∈ s.2.1) then
    return (s.1.tail ++ (← children a), s.2.1.insert a, s.2.2 ++ [a])
  else return (s.1.tail, s.2)

/-- The nodes that are listed from some roots on. -/
def depthOrder (parents children : α → Option (List α)) (roots : List α) (fuel : Nat) :
    Option (List α) :=
  (loopM (fun s => !s.1.isEmpty) (depthOrderStep parents children) fuel (roots, ∅, [])).map (·.2.2)

variable {nodes roots l : List α} {parents children : α → Option (List α)} {r : α → α → Prop}
  {a : α}

section

omit [DecidableEq α]

/-- Nodes that are listed once each, after all their parents. -/
structure ListedInOrder (nodes : List α) (r : α → α → Prop) (l : List α) : Prop where
  nodup : l.Nodup
  mem : ∀ a ∈ l, a ∈ nodes
  parents_before : ∀ pre a post, l = pre ++ a :: post → ∀ b, r b a → b ∈ pre

section

variable (h : ListedInOrder nodes r l)

include h

theorem ListedInOrder.append (ha : a ∈ nodes) (hnew : a ∉ l)
    (hparents : ∀ b, r b a → b ∈ l) : ListedInOrder nodes r (l ++ [a]) where
  nodup := nodup_append.mpr ⟨h.nodup, nodup_singleton a, fun b hb c hc heq =>
    hnew (mem_singleton.mp hc ▸ heq ▸ hb)⟩
  mem := fun b hb => by
    rcases mem_append.mp hb with hb | hb
    · exact h.mem b hb
    · exact mem_singleton.mp hb ▸ ha
  parents_before := fun pre c post hsplit b hb => by
    rcases eq_nil_or_concat post with rfl | ⟨post, d, rfl⟩
    · obtain ⟨rfl, hac⟩ := append_inj' hsplit rfl
      exact hparents b (singleton_inj.mp hac ▸ hb)
    · rw [concat_eq_append, ← cons_append, ← append_assoc] at hsplit
      exact h.parents_before pre c post (append_inj' hsplit rfl).1 b hb

theorem ListedInOrder.not_self (ha : a ∈ l) : ¬ r a a := by
  intro hself
  obtain ⟨pre, post, hsplit⟩ := append_of_mem ha
  have hpre := h.parents_before pre a post hsplit a hself
  have hnodup := h.nodup
  rw [hsplit, nodup_append] at hnodup
  exact hnodup.2.2 a hpre a (.head _) rfl

theorem ListedInOrder.ancestors_before {pre post : List α} (hsplit : l = pre ++ a :: post) {b : α}
    (hba : TransGen r b a) : b ∈ pre := by
  induction hba using TransGen.head_induction_on with
  | single hba => exact h.parents_before pre a post hsplit _ hba
  | @head b c hbc _ ih =>
      obtain ⟨p, q, rfl⟩ := append_of_mem ih
      have hb : b ∈ p := h.parents_before p c (q ++ a :: post) (by simp [hsplit]) b hbc
      exact mem_append_left _ hb

theorem ListedInOrder.not_transGen_self (ha : a ∈ l) :
    ¬ TransGen r a a := by
  intro hcycle
  obtain ⟨pre, post, hsplit⟩ := append_of_mem ha
  have hpre := h.ancestors_before hsplit hcycle
  have hnodup := h.nodup
  rw [hsplit, nodup_append] at hnodup
  exact hnodup.2.2 a hpre a (.head _) rfl

end

end

/-- A part closed under parents, without a cycle, can be listed in order. -/
theorem exists_listedInOrder {P : α → Prop} (hnodes : ∀ a, P a → a ∈ nodes)
    (hparents : ∀ a, P a → ∀ b, r b a → P b) (hacyclic : ∀ a, P a → ¬ TransGen r a a) :
    ∃ l, ListedInOrder nodes r l ∧ ∀ a, a ∈ l ↔ P a := by
  have hwf := wellFounded_of_acyclic (r := swap r) hnodes fun a ha hcycle =>
    hacyclic a ha (transGen_swap.mp hcycle)
  -- a list of some of them goes on with a least one of the others
  have hlonger : ∀ k l, ListedInOrder nodes r l → (∀ a ∈ l, P a) →
      (nodes.filter fun a => decide (a ∉ l)).length ≤ k →
      ∃ l, ListedInOrder nodes r l ∧ ∀ a, a ∈ l ↔ P a := by
    intro k
    induction k with
    | zero =>
        intro l hl hP hk
        refine ⟨l, hl, fun a => ⟨hP a, fun ha => ?_⟩⟩
        by_contra hnot
        have hmem : a ∈ nodes.filter fun a => decide (a ∉ l) :=
          mem_filter.mpr ⟨hnodes a ha, decide_eq_true hnot⟩
        exact absurd (length_pos_of_mem hmem) (by omega)
    | succ k ih =>
        intro l hl hP hk
        by_cases hall : ∀ a, P a → a ∈ l
        · exact ⟨l, hl, fun a => ⟨hP a, hall a⟩⟩
        · push Not at hall
          obtain ⟨a₀, ha₀, hnot₀⟩ := hall
          obtain ⟨⟨a, ha⟩, hnot, hleast⟩ := hwf.has_min {a | a.1 ∉ l} ⟨⟨a₀, ha₀⟩, hnot₀⟩
          have hbefore : ∀ b, r b a → b ∈ l := fun b hba => by
            by_contra hb
            exact hleast ⟨b, hparents a ha b hba⟩ hb (.single hba)
          refine ih (l ++ [a]) (hl.append (hnodes a ha) hnot hbefore) (fun b hb => ?_) ?_
          · rcases mem_append.mp hb with hb | hb
            · exact hP b hb
            · exact mem_singleton.mp hb ▸ ha
          · have hlt : (nodes.filter fun b => decide (b ∉ l ++ [a])).length <
                (nodes.filter fun b => decide (b ∉ l)).length := by
              refine length_filter_lt (fun b _ hb => ?_) (hnodes a ha) (decide_eq_true hnot) ?_
              · exact decide_eq_true fun hmem =>
                  of_decide_eq_true hb (mem_append_left [a] hmem)
              · exact decide_eq_false (not_not.mpr (mem_append_right l (by simp)))
            omega
  exact hlonger _ [] ⟨nodup_nil, nofun,
    fun pre a post h => absurd h (by simp)⟩ nofun le_rfl

/-- State of the loop: a node that waits for no parent is in the queue. -/
structure Listing (nodes : List α) (r : α → α → Prop) (s : List α × PtrSet α × List α) : Prop where
  ordered : ListedInOrder nodes r s.2.2
  mem_iff : ∀ a, a ∈ s.2.1 ↔ a ∈ s.2.2
  queue : ∀ a ∈ s.1, a ∈ nodes
  waiting : ∀ a ∈ nodes, a ∉ s.2.2 → (∀ b, r b a → b ∈ s.2.2) → a ∈ s.1

/-- All nodes have fewer children than this. -/
def manyChildren (nodes : List α) (children : α → Option (List α)) : Nat :=
  (nodes.map fun a => ((children a).getD []).length).sum + 1

omit [DecidableEq α] in
theorem length_children_lt (ha : a ∈ nodes) (hl : children a = some l) :
    l.length < manyChildren nodes children := by
  refine Nat.lt_succ_of_le (le_sum_of_mem ?_)
  exact mem_map.mpr ⟨a, ha, by rw [hl, Option.getD_some]⟩

/-- A step keeps the listing sound and lowers its measure. -/
theorem Listing.step (hparents : Lists nodes parents (swap r))
    (hchildren : Lists nodes children r) {s : List α × PtrSet α × List α} (h : Listing nodes r s)
    (hcond : (!s.1.isEmpty) = true) :
    ∃ s', depthOrderStep parents children s = some s' ∧ Listing nodes r s' ∧
      s'.1.length + unfound nodes s'.2.1 * manyChildren nodes children <
        s.1.length + unfound nodes s.2.1 * manyChildren nodes children := by
  obtain ⟨queue, encountered, ordered⟩ := s
  cases queue with
  | nil => nomatch hcond
  | cons a queue =>
      obtain ⟨hordered, hmem, hqueue, hwaiting⟩ := h
      dsimp only at hordered hmem hqueue hwaiting
      have ha := hqueue a (.head _)
      have hrest : ∀ b ∈ queue, b ∈ nodes := fun b hb => hqueue b (.tail a hb)
      obtain ⟨ps, hps, hpsiff⟩ := hparents.next_eq_some a ha
      obtain ⟨cs, hcs, hcsiff⟩ := hchildren.next_eq_some a ha
      have hlt : queue.length < (a :: queue).length := Nat.lt_succ_self _
      by_cases hlisted : a ∈ encountered
      · refine ⟨(queue, encountered, ordered), by simp [depthOrderStep, hlisted], ⟨hordered, hmem,
          hrest, fun b hb hnot hbefore => ?_⟩, Nat.add_lt_add_right hlt _⟩
        refine (mem_cons.mp (hwaiting b hb hnot hbefore)).resolve_left fun heq => ?_
        exact hnot (heq ▸ (hmem a).mp hlisted)
      · by_cases hall : ∀ b, r b a → b ∈ ordered
        · have hready : ∀ b ∈ ps, b ∈ encountered := fun b hb =>
            (hmem b).mpr (hall b ((hpsiff b).mp hb))
          have hnew : a ∉ ordered := fun hin => hlisted ((hmem a).mpr hin)
          refine ⟨(queue ++ cs, encountered.insert a, ordered ++ [a]),
            by simp [depthOrderStep, hlisted, hps, hcs, if_pos hready], ⟨hordered.append ha hnew hall,
            fun b => ?_, fun b hb => ?_, fun b hb hnot hbefore => ?_⟩, ?_⟩
          · rw [PtrSet.mem_insert, mem_append, mem_singleton, hmem, or_comm]
          · rcases mem_append.mp hb with hb | hb
            · exact hrest b hb
            · exact hchildren.closed a ha b ((hcsiff b).mp hb)
          · rw [mem_append, not_or, mem_singleton] at hnot
            by_cases hab : r a b
            · exact mem_append_right _ ((hcsiff b).mpr hab)
            · have hold : ∀ c, r c b → c ∈ ordered := fun c hc =>
                (mem_append.mp (hbefore c hc)).resolve_right fun heq =>
                  hab (mem_singleton.mp heq ▸ hc)
              exact mem_append_left _
                ((mem_cons.mp (hwaiting b hb hnot.1 hold)).resolve_left hnot.2)
          · have hfewer := unfound_insert_lt ha hlisted
            have hchild := length_children_lt ha hcs
            have hmul : (unfound nodes (encountered.insert a) + 1) * manyChildren nodes children ≤
                unfound nodes encountered * manyChildren nodes children :=
              Nat.mul_le_mul_right _ hfewer
            rw [Nat.add_mul, Nat.one_mul] at hmul
            simp only [length_append, length_cons]
            omega
        · have hnotready : ¬ ∀ b ∈ ps, b ∈ encountered := fun hready =>
            hall fun b hb => (hmem b).mp (hready b ((hpsiff b).mpr hb))
          refine ⟨(queue, encountered, ordered),
            by simp [depthOrderStep, hlisted, hps, if_neg hnotready], ⟨hordered, hmem, hrest, fun b hb hnot hbefore => ?_⟩, Nat.add_lt_add_right hlt _⟩
          refine (mem_cons.mp (hwaiting b hb hnot hbefore)).resolve_left fun heq => ?_
          exact hall (heq ▸ hbefore)

/-- The traversal lists every element after its parents. -/
theorem depthOrder_spec (hparents : Lists nodes parents (swap r))
    (hchildren : Lists nodes children r) (hroots : ∀ a ∈ roots, a ∈ nodes)
    (horphans : ∀ a ∈ nodes, (∀ b, ¬ r b a) → a ∈ roots) :
    ∃ N, ∀ fuel ≥ N, ∃ l, depthOrder parents children roots fuel = some l ∧
      ListedInOrder nodes r l ∧ ∀ a ∈ nodes, (∀ b, r b a → b ∈ l) → a ∈ l := by
  have hstart : Listing nodes r (roots, ∅, []) :=
    ⟨⟨nodup_nil, nofun, fun pre a post hsplit => by simp at hsplit⟩,
      fun a => iff_of_false (PtrSet.not_mem_empty a) not_mem_nil, hroots,
      fun a ha _ hnone => horphans a ha fun b hb => not_mem_nil (hnone b hb)⟩
  refine ⟨roots.length + unfound nodes ∅ * manyChildren nodes children, fun fuel hfuel => ?_⟩
  obtain ⟨⟨queue, encountered, l⟩, hloop, hend, hempty⟩ := loopM_rule (Listing nodes r)
    (fun s => s.1.length + unfound nodes s.2.1 * manyChildren nodes children)
    (fun _ h => h.step hparents hchildren) fuel (roots, ∅, []) hstart hfuel
  obtain rfl : queue = [] := by simpa using hempty
  refine ⟨l, Option.map_eq_some_iff.mpr ⟨_, hloop, rfl⟩, hend.ordered, fun a ha hbefore => ?_⟩
  by_contra hnot
  exact not_mem_nil (hend.waiting a ha hnot hbefore)

omit [DecidableEq α] in
theorem mem_of_maximal (hparents : Lists nodes parents (swap r))
    (hacyclic : ∀ a, ¬ TransGen r a a)
    (hmaximal : ∀ a ∈ nodes, (∀ b, r b a → b ∈ l) → a ∈ l) : ∀ a ∈ nodes, a ∈ l := by
  have hwf := wellFounded_of_acyclic (P := fun a => a ∈ nodes) (r := swap r)
    (fun _ => id) fun a _ hcycle => hacyclic a (transGen_swap.mp hcycle)
  suffices hall : ∀ a : { a // a ∈ nodes }, a.1 ∈ l from fun a ha => hall ⟨a, ha⟩
  intro a
  induction a using hwf.induction with
  | h a ih =>
      refine hmaximal a.1 a.2 fun b hb => ?_
      exact ih ⟨b, hparents.closed a.1 a.2 b hb⟩ (.single hb)

end Noelle
