import Noelle.SCCDAGPartition.Runs

/-!
# SCCDAGPartition.Partitioner

Merging pairs of SCCs in any order.

`mergeAllPairs` takes the pairs in the order of their pointers, which differs from
run to run, and merges and collapses for one pair at a time.  Each step computes
the least acyclic coarsening that joins its pair, so all of them together compute
the least one that joins all pairs, whatever the order.
-/

namespace Noelle

open Relation List

namespace SCCDAGPartition

variable {U : SccPtr → Prop} {L : SccPtr → SccPtr → Prop} {p : SCCDAGPartition}

def PairRel (pairs : List (SccPtr × SccPtr)) (a b : SccPtr) : Prop :=
  (a, b) ∈ pairs ∨ (b, a) ∈ pairs

theorem pairRel_append (pairs : List (SccPtr × SccPtr)) (pair : SccPtr × SccPtr) :
    PairRel (pairs ++ [pair]) = PairRel pairs ⊔ PairRel [pair] := by
  funext a b
  simp only [PairRel, mem_append]
  exact propext or_or_or_comm

theorem together_sup_pairRel_symm (pairs : List (SccPtr × SccPtr)) (a b : SccPtr)
    (h : (p.Together ⊔ PairRel pairs) a b) : (p.Together ⊔ PairRel pairs) b a :=
  h.imp Together.symm Or.symm

theorem Inv.setOfSCC_eq (h : Inv U L p) {a : SccPtr} (ha : U a) :
    ∃ n ∈ p.allNodes, p.Holds n a ∧ p.setOfSCC a = some n.theT := by
  obtain ⟨n, hn, hna⟩ := (h.mem_iff a).mp ha
  exact ⟨n, hn, hna, (h.lookup_iff a n.theT).mpr ⟨n, hn, rfl, hna⟩⟩

/-- Joining two sets is joining an SCC of each. -/
theorem Inv.collapse_joined (h : Inv U L p) {n m : DGNode SetPtr} {a b : SccPtr}
    (hn : n ∈ p.allNodes) (hm : m ∈ p.allNodes) (hna : p.Holds n a) (hmb : p.Holds m b) :
    collapse (Within U L) (p.Together ⊔ p.Joined (PtrSet.ofList [n.theT, m.theT])) =
      collapse (Within U L) (p.Together ⊔ PairRel [(a, b)]) := by
  have hmem : ∀ k ∈ p.allNodes, k.theT ∈ PtrSet.ofList [n.theT, m.theT] ↔ k = n ∨ k = m := by
    intro k hk
    simp only [PtrSet.mem_ofList, mem_cons, not_mem_nil, or_false]
    exact or_congr ⟨h.clean.node_ext hk hn, fun heq => heq ▸ rfl⟩
      ⟨h.clean.node_ext hk hm, fun heq => heq ▸ rfl⟩
  have hsame : ∀ {k : DGNode SetPtr} {x y : SccPtr}, k ∈ p.allNodes → p.Holds k x → p.Holds k y →
      (Within U L ⊔ (p.Together ⊔ PairRel [(a, b)])) x y := fun hk hx hy =>
    .inr (.inl (.inr ⟨_, ⟨hk, hx⟩, hk, hy⟩))
  have hpair : ∀ x y, (x, y) = (a, b) ∨ (y, x) = (a, b) →
      (Within U L ⊔ (p.Together ⊔ PairRel [(a, b)])) x y := fun x y hxy =>
    .inr (.inr (by simpa [PairRel] using hxy))
  -- every SCC of the two sets reaches every other one through the pair
  have hreach : ∀ x y, p.Joined (PtrSet.ofList [n.theT, m.theT]) x y →
      ReflTransGen (Within U L ⊔ (p.Together ⊔ PairRel [(a, b)])) x y := by
    rintro x y ⟨k, hk, j, hj, hks, hjs, hkx, hjy⟩
    rcases (hmem k hk).mp hks with rfl | rfl <;> rcases (hmem j hj).mp hjs with rfl | rfl
    · exact .single (hsame hk hkx hjy)
    · exact ((ReflTransGen.single (hsame hk hkx hna)).tail (hpair a b (.inl rfl))).tail
        (hsame hj hmb hjy)
    · exact ((ReflTransGen.single (hsame hk hkx hmb)).tail (hpair b a (.inr rfl))).tail
        (hsame hj hna hjy)
    · exact .single (hsame hk hkx hjy)
  have hswap : ∀ x y, p.Joined (PtrSet.ofList [n.theT, m.theT]) x y →
      p.Joined (PtrSet.ofList [n.theT, m.theT]) y x := by
    rintro x y ⟨k, hk, j, hj, hks, hjs, hkx, hjy⟩
    exact ⟨j, hj, k, hk, hjs, hks, hjy, hkx⟩
  refine collapse_eq_of_le (sup_le_sup_left ?_ _) (sup_le ?_ ?_)
  · have hn' := (hmem n hn).mpr (.inl rfl)
    have hm' := (hmem m hm).mpr (.inr rfl)
    rintro x y (hxy | hxy) <;> obtain ⟨rfl, rfl⟩ := Prod.mk.inj (mem_singleton.mp hxy)
    · exact ⟨n, hn, m, hm, hn', hm', hna, hmb⟩
    · exact ⟨m, hm, n, hn, hm', hn', hmb, hna⟩
  · exact le_sup_left.trans (le_collapse (together_sup_pairRel_symm [(a, b)]))
  · exact fun x y hxy => ⟨hreach x y hxy, hreach y x (hswap x y hxy)⟩

/-- Merging all the pairs gives their least acyclic coarsening. -/
theorem Inv.mergeAllPairs_spec (h : Inv U L p) (hac : Acyclic p.Edge) (ord : IterOrder)
    (it : SccIterator) {pairs : PtrSet (SccPtr × SccPtr)} (hpairs : ∀ pair ∈ pairs, U pair.1 ∧ U pair.2) :
    ∃ p', p.mergeAllPairs ord it pairs = some p' ∧ Inv U L p' ∧ Acyclic p'.Edge ∧
      p'.Together = collapse (Within U L) (p.Together ⊔ PairRel pairs.elems) := by
  have hstart : p.Together = collapse (Within U L) (p.Together ⊔ PairRel []) := by
    have hnil : p.Together ⊔ PairRel [] = p.Together := by
      funext a b
      simp [PairRel]
    rw [hnil]
    exact le_antisymm (le_collapse fun _ _ => Together.symm) (h.acyclic_iff.mp hac)
  obtain ⟨p', hp', hinv, hac', htog⟩ := foldlM_rule
    (fun (p : SCCDAGPartition) (pair : SccPtr × SccPtr) => do
      let setProducer ← p.setOfSCC pair.1
      let setConsumer ← p.setOfSCC pair.2
      if setProducer = setConsumer then return p
      p.mergeSetsAndCollapseResultingCycles ord it (PtrSet.ofList [setProducer, setConsumer]))
    (fun (pre : List (SccPtr × SccPtr)) q => Inv U L q ∧ Acyclic q.Edge ∧
      q.Together = collapse (Within U L) (p.Together ⊔ PairRel pre))
    (l := ord.visit pairs.elems) (s := p) ⟨h, hac, hstart⟩
    (by
      rintro pre ⟨a, b⟩ post q hsplit ⟨hq, hqac, hqtog⟩
      have hpair : (a, b) ∈ pairs := by
        rw [← PtrSet.mem_elems, ← ord.mem_visit, hsplit]
        simp
      obtain ⟨n, hn, hna, hsetn⟩ := hq.setOfSCC_eq (hpairs _ hpair).1
      obtain ⟨m, hm, hmb, hsetm⟩ := hq.setOfSCC_eq (hpairs _ hpair).2
      simp only [hsetn, hsetm, Option.bind_eq_bind, Option.bind_some]
      rw [pairRel_append, ← sup_assoc]
      by_cases heq : n.theT = m.theT
      · -- the pair is together already
        refine ⟨q, if_pos heq, hq, hqac, ?_⟩
        obtain rfl := hq.clean.node_ext hn hm heq
        have htogether : q.Together a b := .inr ⟨n, ⟨hn, hna⟩, hn, hmb⟩
        rw [hqtog]
        refine (collapse_eq_of_le le_sup_left (sup_le ?_ ?_)).symm
        · exact le_collapse (together_sup_pairRel_symm pre)
        · rw [← hqtog]
          rintro x y (hxy | hxy) <;> obtain ⟨rfl, rfl⟩ := Prod.mk.inj (mem_singleton.mp hxy)
          · exact htogether
          · exact htogether.symm
      · obtain ⟨q', hq', hinv, hac', htog⟩ :=
          hq.mergeSetsAndCollapse_spec ord it (setsOf_pair hn hm)
        refine ⟨q', (if_neg heq).trans hq', hinv, hac', ?_⟩
        calc q'.Together
            = collapse (Within U L) (q.Together ⊔ PairRel [(a, b)]) := by
              rw [htog, hq.collapse_joined hn hm hna hmb]
          _ = collapse (Within U L) (p.Together ⊔ PairRel pre ⊔ PairRel [(a, b)]) := by
              rw [hqtog, collapse_sup_collapse (together_sup_pairRel_symm pre)])
  refine ⟨p', hp', hinv, hac', htog.trans ?_⟩
  congr 2
  funext a b
  simp [PairRel]

/-! ## Order independence -/

/-- A partition that the constructor and any number of merges lead to. -/
inductive Reachable (initialSets : List (PtrSet SccPtr))
    (sccToParentsMap : AList fun _ : SccPtr => PtrSet SccPtr) : SCCDAGPartition → Prop
  | constructed {ord : IterOrder} {self : Nat} {p : SCCDAGPartition} :
      new ord self initialSets sccToParentsMap = some p → Reachable initialSets sccToParentsMap p
  | merged {ord : IterOrder} {it : SccIterator} {p p' : SCCDAGPartition} {sets : PtrSet SetPtr} :
      Reachable initialSets sccToParentsMap p → p.SetsOf sets →
      p.mergeSetsAndCollapseResultingCycles ord it sets = some p' →
      Reachable initialSets sccToParentsMap p'

theorem Reachable.inv {initialSets : List (PtrSet SccPtr)}
    {sccToParentsMap : AList fun _ : SccPtr => PtrSet SccPtr}
    (hdisj : initialSets.Pairwise fun s t => ∀ a ∈ s, a ∉ t)
    (h : Reachable initialSets sccToParentsMap p) :
    Inv (Included initialSets) (Listed sccToParentsMap) p := by
  induction h with
  | @constructed ord self p hp =>
      obtain ⟨p₀, hp₀, hinv⟩ := new_spec ord self hdisj sccToParentsMap
      obtain rfl := Option.mem_unique hp₀ hp
      exact hinv
  | @merged ord it p p' sets _ hsets hp' ih =>
      obtain ⟨p₀, hp₀, hinv, _⟩ := ih.mergeSetsAndCollapse_spec ord it hsets
      obtain rfl := Option.mem_unique hp₀ hp'
      exact hinv

/-- The partitions that `p` refines, that put the members of every pair together and
whose quotient graph has no cycle through two or more classes. -/
def AcyclicCoarsenings (U : SccPtr → Prop) (L : SccPtr → SccPtr → Prop) (p : SCCDAGPartition)
    (pairs : PtrSet (SccPtr × SccPtr)) : Set (SccPtr → SccPtr → Prop) :=
  {f | Equivalence f ∧ p.Together ≤ f ∧ (∀ pair ∈ pairs, f pair.1 pair.2) ∧
    AcyclicModulo (Within U L) f}

theorem isLeast_collapse (U : SccPtr → Prop) (L : SccPtr → SccPtr → Prop) (p : SCCDAGPartition)
    (pairs : PtrSet (SccPtr × SccPtr)) :
    IsLeast (AcyclicCoarsenings U L p pairs)
      (collapse (Within U L) (p.Together ⊔ PairRel pairs.elems)) := by
  have hbelow := le_collapse (r := Within U L) (together_sup_pairRel_symm (p := p) pairs.elems)
  refine ⟨⟨?_, le_sup_left.trans hbelow, ?_, acyclicModulo_collapse _ _⟩, ?_⟩
  · exact ⟨fun a => .refl a, fun h => h.symm, fun h₁ h₂ => h₁.trans h₂⟩
  · exact fun pair hpair => hbelow _ _ (.inr (.inl hpair))
  · rintro f ⟨hequiv, hle, hjoin, hfac⟩
    refine collapse_le hfac (sup_le hle ?_)
    rintro a b (hab | hab)
    · exact hjoin (a, b) hab
    · exact hequiv.symm (hjoin (b, a) hab)

/-- **Order independence**: whatever the order of the pairs, `mergeAllPairs` yields the
finest acyclic coarsening that puts both members of every pair together. -/
theorem mergeAllPairs_isLeast {initialSets : List (PtrSet SccPtr)}
    {sccToParentsMap : AList fun _ : SccPtr => PtrSet SccPtr}
    (hdisj : initialSets.Pairwise fun s t => ∀ a ∈ s, a ∉ t)
    (hp : Reachable initialSets sccToParentsMap p) (hac : Acyclic p.Edge)
    {pairs : PtrSet (SccPtr × SccPtr)}
    (hpairs : ∀ pair ∈ pairs, Included initialSets pair.1 ∧ Included initialSets pair.2) :
    ∃ finest, IsLeast (AcyclicCoarsenings (Included initialSets) (Listed sccToParentsMap) p pairs)
        finest ∧
      ∀ ord it, ∃ p', p.mergeAllPairs ord it pairs = some p' ∧ p'.Together = finest := by
  refine ⟨_, isLeast_collapse _ _ p pairs, fun ord it => ?_⟩
  obtain ⟨p', hp', _, _, htog⟩ := (hp.inv hdisj).mergeAllPairs_spec hac ord it hpairs
  exact ⟨p', hp', htog⟩

/-- A chain of three sets. -/
def chainSets : List (PtrSet SccPtr) := [PtrSet.ofList [1], PtrSet.ofList [2], PtrSet.ofList [3]]

def chainParents : AList fun _ : SccPtr => PtrSet SccPtr :=
  List.toAList [⟨2, PtrSet.ofList [1]⟩, ⟨3, PtrSet.ofList [2]⟩]

def chainPairs : PtrSet (SccPtr × SccPtr) := PtrSet.ofList [(1, 3), (2, 2)]

/-- Joining the ends of a chain puts all of it together. -/
theorem mergeAllPairs_isLeast_chain : ∃ p, new .stored 0 chainSets chainParents = some p ∧
    ∃ finest, IsLeast (AcyclicCoarsenings (Included chainSets) (Listed chainParents) p chainPairs)
        finest ∧
      ∀ ord it, ∃ p', p.mergeAllPairs ord it chainPairs = some p' ∧ p'.Together = finest := by
  have hdisj : chainSets.Pairwise fun s t => ∀ a ∈ s, a ∉ t := by
    change chainSets.Pairwise fun s t => ∀ a ∈ s.elems, a ∉ t.elems
    decide
  obtain ⟨p, hp, _⟩ := new_spec .stored 0 hdisj chainParents
  -- a path only goes from lower to higher sets
  have hcheck : (new .stored 0 chainSets chainParents).any (fun p =>
      p.allEdges.elems.all fun e => decide (e.srcNode.ID < e.dstNode.ID)) = true := by
    decide +kernel
  rw [hp, Option.any_some, all_eq_true] at hcheck
  have hlt : ∀ n m, ReflTransGen p.Edge n m → n.ID ≤ m.ID ∧ (n ≠ m → n.ID < m.ID) := by
    intro n m h
    induction h with
    | refl => exact ⟨le_rfl, fun h => absurd rfl h⟩
    | tail _ hbc ih =>
        obtain ⟨e, he, rfl, rfl⟩ := hbc
        have hstep := of_decide_eq_true (hcheck e he)
        exact ⟨by omega, fun _ => by omega⟩
  have hac : Acyclic p.Edge := by
    intro n m hnm
    by_contra hne
    exact absurd ((hlt n m hnm.1).2 hne) (Nat.not_lt.mpr (hlt m n hnm.2).1)
  refine ⟨p, hp, mergeAllPairs_isLeast hdisj (.constructed hp) hac ?_⟩
  change ∀ pair ∈ chainPairs.elems, (∃ s ∈ chainSets, pair.1 ∈ s.elems) ∧
    ∃ s ∈ chainSets, pair.2 ∈ s.elems
  decide

end SCCDAGPartition

end Noelle
