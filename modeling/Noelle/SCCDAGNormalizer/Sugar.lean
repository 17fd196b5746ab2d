import Noelle.SCCDAGNormalizer.Normalize

/-!
# SCCDAGNormalizer.Sugar

Grouping syntactic sugar keeps the SCCDAG acyclic, if no edge of it stands for dependences of
both directions.

A single PHI, GEP or cast is grouped with its only child or its only parent.  The groups
are contracted one after the other, each in the SCCDAG that the previous merges left.
What carries over from merge to merge is that the quotient by the groups that are left
is acyclic.
-/

namespace Noelle

open Relation SCCDAG List

namespace SCCDAG

variable {V : Type} [DecidableEq V] {subLC : DGEdge V → Bool} {D : Multiset (Dep V)}
  {U : V → Prop} {s s' : SCCDAG V} {new : DGNode SccPtr} {sccSet : PtrSet (DGNode SccPtr)}
  {groups : List (PtrSet (DGNode SccPtr))}

/-! ## Contracting disjoint groups -/

end SCCDAG

namespace SCCDAGNormalizer

variable {V B : Type} [DecidableEq V] {ord : IterOrder} {subLC : DGEdge V → Bool} {ir : IR V B}
  {D : Multiset (Dep V)} {U : V → Prop} {s : SCCDAG V} {n m k : DGNode SccPtr}

/-! ## The only child and the only parent -/

theorem onlyChild_eq_some (h : Linked subLC D U s) (hn : n ∈ s.allNodes)
    (hchild : onlyChild ord s n = some (some m)) : s.Edge n m ∧ ∀ k, s.Edge n k → k = m := by
  unfold onlyChild at hchild
  by_cases hdeg : s.outDegree n = 1
  · rw [if_pos hdeg] at hchild
    obtain ⟨e, hhead, he, hsrc⟩ := exists_outgoing ord h hn (by omega)
    rw [hhead] at hchild
    obtain rfl := Option.some.inj (Option.some.inj hchild)
    refine ⟨⟨e, he, hsrc, rfl⟩, fun k hk => ?_⟩
    obtain ⟨e', he', hsrc', rfl⟩ := hk
    have hone := PtrSet.eq_of_size_le_one (Nat.le_of_eq hdeg)
      ((h.clean.mem_outgoing n hn e').mpr ⟨he', hsrc'⟩) ((h.clean.mem_outgoing n hn e).mpr ⟨he, hsrc⟩)
    rw [hone]
  · rw [if_neg hdeg] at hchild
    cases hchild

variable (ord ir) in
/-- The neighbour chosen is the only child or the only parent. -/
theorem adjacentNode_eq_some (h : Linked subLC D U s) (hn : n ∈ s.allNodes) {I : V}
    (hadj : adjacentNode ord ir s I n = some (some m)) :
    (s.Edge n m ∧ ∀ k, s.Edge n k → k = m) ∨ (s.Edge m n ∧ ∀ k, s.Edge k n → k = m) := by
  unfold adjacentNode at hadj
  obtain ⟨outgoing, houtgoing, hadj⟩ := Option.bind_eq_some_iff.mp hadj
  have hchild : ∀ {m}, outgoing = some m → s.Edge n m ∧ ∀ k, s.Edge n k → k = m := fun heq =>
    onlyChild_eq_some h hn (houtgoing.trans (congrArg some heq))
  by_cases hdeg : s.inDegree n = 1
  · rw [if_pos hdeg] at hadj
    obtain ⟨e, hhead, he, hdst⟩ := exists_incoming ord h hn (by omega)
    have hparent : s.Edge e.srcNode n ∧ ∀ k, s.Edge k n → k = e.srcNode := by
      refine ⟨⟨e, he, rfl, hdst⟩, fun k hk => ?_⟩
      obtain ⟨e', he', rfl, hdst'⟩ := hk
      rw [PtrSet.eq_of_size_le_one (Nat.le_of_eq hdeg)
        ((h.clean.mem_incoming n hn e').mpr ⟨he', hdst'⟩)
        ((h.clean.mem_incoming n hn e).mpr ⟨he, hdst⟩)]
    rw [hhead] at hadj
    cases houtcase : outgoing with
    | none =>
        rw [houtcase] at hadj
        obtain rfl := Option.some.inj (Option.some.inj hadj)
        exact .inr hparent
    | some dst =>
        rw [houtcase] at hadj
        have hadj' : (if ir.isPHINode I || ir.isCastInst I then e.srcNode else dst) = m :=
          Option.some.inj (Option.some.inj hadj)
        split at hadj'
        · exact .inr (hadj' ▸ hparent)
        · exact .inl (hadj' ▸ hchild houtcase)
  · rw [if_neg hdeg] at hadj
    exact .inl (hchild (Option.some.inj hadj))

/-! ## Choices -/

/-- The pairs that the loop over the SCCs groups. -/
def Chooses (ord : IterOrder) (ir : IR V B) (s : SCCDAG V) : DGNode SccPtr → DGNode SccPtr → Prop :=
  MergeGroups.Asks (syntacticSugarPair ord ir s) (ord.visit s.internalNodeMap.entries)

omit [DecidableEq V] in
theorem syntacticSugarPair_eq_some {pair : (_ : SccPtr) × Option (DGNode SccPtr)}
    (hpair : syntacticSugarPair ord ir s pair = some (some (n, m))) :
    pair.2 = some n ∧ ∃ I, adjacentNode ord ir s I n = some (some m) := by
  unfold syntacticSugarPair at hpair
  dsimp only at hpair
  split at hpair
  · cases hpair
  · obtain ⟨I, hI, hpair⟩ := Option.bind_eq_some_iff.mp hpair
    split at hpair
    · cases hpair
    · obtain ⟨node, hnode, hpair⟩ := Option.bind_eq_some_iff.mp hpair
      obtain ⟨answer, hadj, hpair⟩ := Option.bind_eq_some_iff.mp hpair
      cases answer with
      | none => cases hpair
      | some adjacent =>
          cases hpair
          exact ⟨hnode, I, hadj⟩

section

variable (h : Linked subLC D U s) (hnm : Chooses ord ir s n m)

include h hnm

theorem Chooses.node_mem :
    n ∈ s.allNodes := by
  obtain ⟨pair, hpair, hask⟩ := hnm
  obtain ⟨n', hn', hnode, _⟩ := internalNodePair_spec h hpair
  obtain rfl := Option.mem_unique hnode (syntacticSugarPair_eq_some hask).1
  exact hn'

theorem Chooses.only :
    (s.Edge n m ∧ ∀ k, s.Edge n k → k = m) ∨ (s.Edge m n ∧ ∀ k, s.Edge k n → k = m) := by
  have hn := hnm.node_mem h
  obtain ⟨pair, _, hask⟩ := hnm
  obtain ⟨_, I, hadj⟩ := syntacticSugarPair_eq_some hask
  exact adjacentNode_eq_some ord ir h hn hadj

theorem Chooses.unique (hnk : Chooses ord ir s n k) : m = k := by
  obtain ⟨pair, hpair, hask⟩ := hnm
  obtain ⟨pair', hpair', hask'⟩ := hnk
  obtain ⟨a, _, hnode, hkey⟩ := internalNodePair_spec h hpair
  obtain ⟨b, _, hnode', hkey'⟩ := internalNodePair_spec h hpair'
  have han := Option.mem_unique hnode (syntacticSugarPair_eq_some hask).1
  have hbn := Option.mem_unique hnode' (syntacticSugarPair_eq_some hask').1
  obtain rfl : pair = pair' :=
    Sigma.ext (hkey.symm.trans (han ▸ hbn ▸ hkey')) (heq_of_eq (hnode.trans (han ▸ hbn ▸ hnode'.symm)))
  cases hask.symm.trans hask'
  rfl

end

/-- The choices of the nodes go down or up. -/
theorem choices (h : Linked subLC D U s) (hdag : IsDAG D s) :
    Choices (NodeDep D s) (fun n m => Chooses ord ir s n m ∧ s.Edge n m)
      (fun n m => Chooses ord ir s n m ∧ s.Edge m n) where
  down_edge n m hnm :=
    ⟨h.nodeDep_of_edge hnm.2, fun heq => h.edge_irrefl n (by rw [heq] at hnm ⊢; exact hnm.2)⟩
  down_only n m k hnm hnk := by
    by_cases heq : k = n
    · exact .inl heq
    · refine .inr ?_
      cases hnm.1.only h with
      | inl hchild => exact hchild.2 k (h.edge_of_nodeDep hdag hnk (Ne.symm heq))
      | inr hparent => exact absurd ⟨hnm.2, hparent.1⟩ h.not_edge_both
  up_edge n m hnm :=
    ⟨h.nodeDep_of_edge hnm.2, fun heq => h.edge_irrefl n (by rw [heq] at hnm ⊢; exact hnm.2)⟩
  up_only n m k hnm hkn := by
    by_cases heq : k = n
    · exact .inl heq
    · refine .inr ?_
      cases hnm.1.only h with
      | inl hchild => exact absurd ⟨hchild.1, hnm.2⟩ h.not_edge_both
      | inr hparent => exact hparent.2 k (h.edge_of_nodeDep hdag hkn heq)
  not_both n m k hnm hnk := by
    obtain rfl := hnm.1.unique h hnk.1
    exact h.not_edge_both ⟨hnm.2, hnk.2⟩

end SCCDAGNormalizer

end Noelle
