import Mathlib.Data.List.Chain
import Noelle.DominatorForest

/-!
# DominatorForest.Certificate

What shows that a tree is the dominator tree of a small graph.

A node dominates its descendants if no edge leads around it to one of them, and nothing else cuts
it off from a child if there are paths to the child that no other block is on all of.  All of this
can be decided.
-/

namespace Noelle

open Relation List

theorem PathAvoiding.of_isChain {α : Type} {r : α → α → Prop} {d c : α} :
    ∀ (path : List α) {a : α}, List.IsChain r (a :: path) → (a :: path).getLast? = some c → a ≠ d →
      d ∉ path → PathAvoiding r d a c
  | [], a, _, hlast, ha, _ => by
      cases hlast
      exact .refl ha
  | b :: path, a, hchain, hlast, ha, hd => by
      obtain ⟨hab, hchain⟩ := isChain_cons_cons.mp hchain
      rw [mem_cons, not_or] at hd
      rw [List.getLast?_cons_cons] at hlast
      exact (of_isChain path hchain hlast (Ne.symm hd.1) hd.2).head hab ha

namespace DominatorForest

variable {B : Type} [DecidableEq B]

/-- A tree with paths from each node to its children. -/
structure IsCertified (r : B → B → Prop) (entry : B) (T : DominatorForest B)
    (paths : B → List (List B)) : Prop where
  post_eq : T.post = false
  roots : T.roots.map DominatorNode.getBlock = [entry]
  nodup : (T.nodes.map DominatorNode.getBlock).Nodup
  /-- The descendants of a node are entered through it. -/
  enclosed : ∀ n ∈ T.nodes, n.getBlock ≠ entry →
    entry ∉ n.descendants.map DominatorNode.getBlock ∧
      ∀ b ∈ n.descendants.map DominatorNode.getBlock, b ≠ n.getBlock → ∀ a, r a b →
        a ∈ n.descendants.map DominatorNode.getBlock
  path : ∀ n ∈ T.nodes, ∀ c ∈ n.getChildren, paths c.getBlock ≠ [] ∧
    ∀ p ∈ paths c.getBlock, List.IsChain r (n.getBlock :: p) ∧
      (n.getBlock :: p).getLast? = some c.getBlock
  /-- Only the child is on all of them. -/
  apart : ∀ n ∈ T.nodes, ∀ c ∈ n.getChildren, ∀ d, (∀ p ∈ paths c.getBlock, d ∈ p) → d = c.getBlock

namespace IsCertified

variable {r : B → B → Prop} {entry : B} {T : DominatorForest B} {paths : B → List (List B)}

omit [DecidableEq B] in
theorem node_unique (h : IsCertified r entry T paths) {n m : DominatorNode B} (hn : n ∈ T.nodes)
    (hm : m ∈ T.nodes) (heq : n.getBlock = m.getBlock) : n = m :=
  inj_on_of_nodup_map h.nodup hn hm heq

omit [DecidableEq B] in
theorem dominates (h : IsCertified r entry T paths) {n m : DominatorNode B} (hn : n ∈ T.nodes)
    (hm : m ∈ n.descendants) : Dominates r entry n.getBlock m.getBlock := by
  by_cases hentry : n.getBlock = entry
  · exact hentry ▸ .entry_left _
  · obtain ⟨hout, hin⟩ := h.enclosed n hn hentry
    rintro ⟨-, hpath⟩
    have hall : ∀ b, ReflTransGen (fun x y => r x y ∧ y ≠ n.getBlock) entry b →
        b ∉ n.descendants.map DominatorNode.getBlock := by
      intro b hb
      induction hb with
      | refl => exact hout
      | tail _ hstep ih => exact fun hmem => ih (hin _ hmem hstep.2 _ hstep.1)
    exact hall _ hpath (mem_map_of_mem hm)

/-- A certified forest is that of the dominators. -/
theorem isDominatorForest (h : IsCertified r entry T paths) {U : B → Prop}
    (hU : ∀ b, U b ↔ b ∈ T.nodes.map DominatorNode.getBlock) : IsDominatorForest r entry U T where
  post_eq := h.post_eq
  mem_iff b := by rw [hU, mem_map]
  reachable b hb := by
    obtain ⟨n, hn, rfl⟩ := mem_map.mp ((hU b).mp hb)
    have hboth : n ∈ T.nodes ∧ ReflTransGen r entry n.getBlock := by
      refine nodes_induct (P := fun n => n ∈ T.nodes ∧ ReflTransGen r entry n.getBlock) ?_ ?_ n hn
      · intro root hroot
        have hmem : root.getBlock ∈ T.roots.map DominatorNode.getBlock := mem_map_of_mem hroot
        rw [h.roots, mem_singleton] at hmem
        exact ⟨root_mem_nodes hroot, hmem ▸ .refl⟩
      · rintro m _ ⟨hm, hreach⟩ c hc
        obtain ⟨hne, hpaths⟩ := h.path m hm c hc
        obtain ⟨p, hp⟩ := exists_mem_of_ne_nil _ hne
        obtain ⟨hchain, hlast⟩ := hpaths p hp
        refine ⟨child_mem_nodes hm hc, hreach.trans ?_⟩
        refine relationReflTransGen_of_exists_isChain_cons p hchain ?_
        rw [List.getLast?_eq_getLast_of_ne_nil (cons_ne_nil _ _)] at hlast
        exact Option.some.inj hlast
    exact hboth.2
  node_unique n hn m hm := h.node_unique hn hm
  idom n hn c hc := by
    have hcn : c ∈ n.descendants :=
      DominatorNode.mem_descendants.mpr (.inr ⟨c, hc, DominatorNode.self_mem_descendants c⟩)
    refine ⟨fun heq => ?_, h.dominates hn hcn, fun d hd hdom hpath => ?_⟩
    · obtain rfl := h.node_unique hn (child_mem_nodes hn hc) heq
      exact absurd (DominatorNode.length_descendants_child hc) (lt_irrefl _)
    · obtain ⟨p, hp, hdp⟩ : ∃ p ∈ paths c.getBlock, d ∉ p := by
        by_contra hall
        push Not at hall
        exact hd (h.apart n hn c hc d hall)
      obtain ⟨hchain, hlast⟩ := (h.path n hn c hc).2 p hp
      exact hdom (hpath.trans (.of_isChain p hchain hlast hpath.target_ne hdp))
  root n hn d _ hdom := by
    have hmem : n.getBlock ∈ T.roots.map DominatorNode.getBlock := mem_map_of_mem hn
    rw [h.roots, mem_singleton] at hmem
    by_contra hne
    rw [hmem] at hdom hne
    exact hdom (.refl (Ne.symm hne))

end IsCertified

end DominatorForest

end Noelle
