import Noelle.SCCDAGPartition.Basic

/-!
# SCCDAGPartition.Invariant

The invariant of a partition of SCCs, and how its constructor establishes it.

`Inv U L p` is over the SCCs `U` that were included at the start and the relation
`L` that lists the parents of an SCC: the sets of `p` partition `U`, the map agrees
with them, and the edges are those that `L` induces, each at most once.  The edges
are added one at a time; `Connects` collects what a loop of additions does.
-/

namespace Noelle

open PtrSet List

namespace SCCDAGPartition

/-! ## The invariant -/

def Holds (p : SCCDAGPartition) (n : DGNode SetPtr) (a : SccPtr) : Prop :=
  ∃ sccs, p.heap n.theT = some sccs ∧ a ∈ sccs

/-- Nodes, sets and map, without the edges. -/
structure Partitioned (U : SccPtr → Prop) (p : SCCDAGPartition) : Prop where
  clean : p.toDG.Clean
  set_lt : ∀ n ∈ p.allNodes, n.theT < p.nextSet
  allocated : ∀ n ∈ p.allNodes, ∃ sccs, p.heap n.theT = some sccs
  holds_unique : ∀ n ∈ p.allNodes, ∀ m ∈ p.allNodes, ∀ a, p.Holds n a → p.Holds m a → n = m
  mem_iff : ∀ a, U a ↔ ∃ n ∈ p.allNodes, p.Holds n a
  lookup_iff : ∀ a set, p.sccToSetMap.lookup a = some set ↔
    ∃ n ∈ p.allNodes, n.theT = set ∧ p.Holds n a

/-- Some SCC of the one set is a listed parent of some SCC of the other. -/
def ParentSet (L : SccPtr → SccPtr → Prop) (p : SCCDAGPartition) (n m : DGNode SetPtr) : Prop :=
  ∃ a b, p.Holds n a ∧ p.Holds m b ∧ L a b

/-- The state of a partition after its constructor and after every merge. -/
structure Inv (U : SccPtr → Prop) (L : SccPtr → SccPtr → Prop) (p : SCCDAGPartition) : Prop
    extends Partitioned U p where
  simple : p.toDG.Simple
  parent_of_edge : ∀ n m, p.Edge n m → p.ParentSet L n m
  edge_of_parent : ∀ n ∈ p.allNodes, ∀ m ∈ p.allNodes, n ≠ m → p.ParentSet L n m → p.Edge n m

theorem fetchSetNode_eq {p : SCCDAGPartition} {n : DGNode SetPtr} (h : p.toDG.Clean)
    (hn : n ∈ p.allNodes) : p.fetchSetNode n.theT = (some n, p) := by
  have hnode := h.mapped n hn
  unfold fetchSetNode
  rw [DG.fetchNode_of_isInGraph (DG.isInGraph_of_nodeOf hnode), hnode]

theorem Partitioned.nextSet_notInGraph {U : SccPtr → Prop} {p : SCCDAGPartition}
    (h : Partitioned U p) : p.isInGraph p.nextSet = false := by
  rw [Bool.eq_false_iff]
  intro hin
  obtain ⟨n, hn⟩ := h.clean.exists_nodeOf hin
  obtain ⟨hmem, heq⟩ := h.clean.nodeOf_mem hn
  exact absurd (h.set_lt n hmem) (by rw [heq]; exact lt_irrefl _)

/-! ## Adding edges -/

/-- `p'` is `p` with an edge between any two nodes that `R` relates. -/
structure Connects (p : SCCDAGPartition) (R : DGNode SetPtr → DGNode SetPtr → Prop)
    (p' : SCCDAGPartition) : Prop where
  clean : p'.toDG.Clean
  simple : p'.toDG.Simple
  edge_iff : ∀ n m, p'.Edge n m ↔ p.Edge n m ∨ R n m
  allNodes_eq : p'.allNodes = p.allNodes
  heap_eq : p'.heap = p.heap
  nextSet_eq : p'.nextSet = p.nextSet
  sccToSetMap_eq : p'.sccToSetMap = p.sccToSetMap

namespace Connects

variable {p p' p'' : SCCDAGPartition} {R R' : DGNode SetPtr → DGNode SetPtr → Prop}

theorem refl (hc : p.toDG.Clean) (hs : p.toDG.Simple) (hR : ∀ n m, R n m → p.Edge n m) :
    Connects p R p where
  clean := hc
  simple := hs
  edge_iff := fun n m => (or_iff_left_of_imp (hR n m)).symm
  allNodes_eq := rfl
  heap_eq := rfl
  nextSet_eq := rfl
  sccToSetMap_eq := rfl

section

variable (h : Connects p R p')

include h

theorem trans (h' : Connects p' R' p'') :
    Connects p (fun n m => R n m ∨ R' n m) p'' where
  clean := h'.clean
  simple := h'.simple
  edge_iff := fun n m => by rw [h'.edge_iff, h.edge_iff, or_assoc]
  allNodes_eq := h'.allNodes_eq.trans h.allNodes_eq
  heap_eq := h'.heap_eq.trans h.heap_eq
  nextSet_eq := h'.nextSet_eq.trans h.nextSet_eq
  sccToSetMap_eq := h'.sccToSetMap_eq.trans h.sccToSetMap_eq

theorem congr (hR : ∀ n m, R n m ↔ R' n m) : Connects p R' p' :=
  { h with edge_iff := fun n m => (h.edge_iff n m).trans (or_congr_right (hR n m)) }

theorem holds_iff (n : DGNode SetPtr) (a : SccPtr) :
    p'.Holds n a ↔ p.Holds n a := by
  rw [Holds, h.heap_eq, Holds]

theorem parentSet_iff (L : SccPtr → SccPtr → Prop) (n m : DGNode SetPtr) :
    p'.ParentSet L n m ↔ p.ParentSet L n m := by
  simp only [ParentSet, h.holds_iff]

theorem partitioned {U : SccPtr → Prop} (hp : Partitioned U p) :
    Partitioned U p' where
  clean := h.clean
  set_lt := fun n hn => by
    rw [h.nextSet_eq]
    exact hp.set_lt n (h.allNodes_eq ▸ hn)
  allocated := fun n hn => by
    rw [h.heap_eq]
    exact hp.allocated n (h.allNodes_eq ▸ hn)
  holds_unique := by
    simp only [h.allNodes_eq, h.holds_iff]
    exact hp.holds_unique
  mem_iff := by
    simp only [h.allNodes_eq, h.holds_iff]
    exact hp.mem_iff
  lookup_iff := by
    simp only [h.allNodes_eq, h.holds_iff, h.sccToSetMap_eq]
    exact hp.lookup_iff

end

theorem foldlM {α : Type} {f : SCCDAGPartition → α → Option SCCDAGPartition}
    {Q : α → DGNode SetPtr → DGNode SetPtr → Prop} {l : List α} (hc : p.toDG.Clean)
    (hs : p.toDG.Simple)
    (hstep : ∀ pre : List α, ∀ x ∈ l, ∀ p', Connects p (fun n m => ∃ y ∈ pre, Q y n m) p' →
      (∀ y ∈ pre, y ∈ l) → ∃ p'', f p' x = some p'' ∧ Connects p' (Q x) p'') :
    ∃ p', l.foldlM f p = some p' ∧ Connects p (fun n m => ∃ x ∈ l, Q x n m) p' := by
  refine foldlM_rule f (fun (pre : List α) p' => Connects p (fun n m => ∃ x ∈ pre, Q x n m) p')
    (refl hc hs fun n m ⟨x, hx, _⟩ => nomatch hx) ?_
  intro pre x post p' hsplit h
  obtain ⟨p'', hp'', h'⟩ := hstep pre x (by simp [hsplit]) p' h fun y hy => by simp [hsplit, hy]
  refine ⟨p'', hp'', (h.trans h').congr fun n m => ?_⟩
  simp only [mem_append, mem_singleton]
  constructor
  · rintro (⟨y, hy, hQ⟩ | hQ)
    · exact ⟨y, .inl hy, hQ⟩
    · exact ⟨x, .inr rfl, hQ⟩
  · rintro ⟨y, hy | rfl, hQ⟩
    · exact .inl ⟨y, hy, hQ⟩
    · exact .inr hQ

end Connects

variable {p : SCCDAGPartition} {U : SccPtr → Prop}

/-- An edge is added between the two sets unless there is one. -/
theorem addSetEdge_spec {a b : DGNode SetPtr} (hc : p.toDG.Clean) (hs : p.toDG.Simple)
    (ha : a ∈ p.allNodes) (hb : b ∈ p.allNodes) :
    ∃ p', p.addSetEdge a b a.theT b.theT = some p' ∧
      Connects p (fun n m => n = a ∧ m = b) p' := by
  have hfetch : ∀ e, e ∈ p.fetchEdges a b ↔ e ∈ p.allEdges ∧ e.srcNode = a ∧ e.dstNode = b :=
    fun e => hc.mem_fetchEdges ha
  unfold addSetEdge
  by_cases hsize : (p.fetchEdges a b).size ≠ 0
  · -- the edge is there
    obtain ⟨e, he⟩ := exists_mem_of_length_pos (Nat.pos_of_ne_zero hsize)
    have hedge : p.Edge a b := ⟨e, (hfetch e).mp he⟩
    refine ⟨p, if_pos hsize, Connects.refl hc hs ?_⟩
    rintro n m ⟨rfl, rfl⟩
    exact hedge
  · have hnone : ∀ e ∈ p.allEdges, ¬ (e.srcNode = a ∧ e.dstNode = b) := fun e he hab =>
      hsize (Nat.pos_iff_ne_zero.mp (length_pos_of_mem ((hfetch e).mpr ⟨he, hab⟩)))
    set new := p.toDG.newEdge a b .undefinedDependence none with hnew
    have hmem : ∀ e, e ∈ (p.insertEdge a b .undefinedDependence none {}).2.allEdges ↔
        e = new ∨ e ∈ p.allEdges := fun e => DG.mem_insertEdge_allEdges ..
    refine ⟨{ p with toDG := (p.insertEdge a b .undefinedDependence none {}).2 }, ?_, ?_⟩
    · rw [if_neg hsize, DG.addUndefinedDependenceEdge,
        DG.addDependenceEdge_eq (hc.mapped a ha) (hc.mapped b hb)]
      rfl
    · refine ⟨hc.insertEdge (hc.mapped a ha) (hc.mapped b hb), ?_, fun n m => ?_, rfl, rfl, rfl, rfl⟩
      · intro e he e' he' hsrc hdst
        rcases (hmem e).mp he with rfl | he <;> rcases (hmem e').mp he' with rfl | he'
        · rfl
        · exact absurd ⟨hsrc.symm, hdst.symm⟩ (hnone e' he')
        · exact absurd ⟨hsrc, hdst⟩ (hnone e he)
        · exact hs e he e' he' hsrc hdst
      · constructor
        · rintro ⟨e, he, rfl, rfl⟩
          rcases (hmem e).mp he with rfl | he
          · exact .inr ⟨rfl, rfl⟩
          · exact .inl ⟨e, he, rfl, rfl⟩
        · rintro (⟨e, he, rfl, rfl⟩ | ⟨rfl, rfl⟩)
          · exact ⟨e, (hmem e).mpr (.inr he), rfl, rfl⟩
          · exact ⟨new, (hmem new).mpr (.inl rfl), rfl, rfl⟩

/-! ## Construction -/

def Listed (sccToParentsMap : AList fun _ : SccPtr => PtrSet SccPtr) (a b : SccPtr) : Prop :=
  ∃ parents, sccToParentsMap.lookup b = some parents ∧ a ∈ parents

/-- The first set that lists an SCC gets it. -/
theorem lookup_addInitialSet (set : SetPtr) (a : SccPtr) : ∀ (l : List SccPtr)
    (sccToSetMap : AList fun _ : SccPtr => SetPtr),
    (l.foldl (fun sccToSetMap scc =>
      if (sccToSetMap.lookup scc).isSome then sccToSetMap else sccToSetMap.insert scc set)
      sccToSetMap).lookup a = (sccToSetMap.lookup a).or (if a ∈ l then some set else none)
  | [], sccToSetMap => by simp
  | scc :: l, sccToSetMap => by
      rw [foldl_cons, lookup_addInitialSet set a l]
      by_cases hscc : (sccToSetMap.lookup scc).isSome
      · rw [if_pos hscc]
        by_cases ha : a = scc
        · subst ha
          obtain ⟨old, hold⟩ := Option.isSome_iff_exists.mp hscc
          rw [hold, Option.some_or, Option.some_or]
        · simp only [mem_cons, ha, false_or]
      · rw [if_neg hscc]
        by_cases ha : a = scc
        · subst ha
          have hnone : sccToSetMap.lookup a = none := by simpa using hscc
          simp [hnone]
        · simp only [AList.lookup_insert_ne ha, mem_cons, ha, false_or]

/-- One more initial set has its node. -/
theorem addInitialSet_partitioned (ord : IterOrder) (h : Partitioned U p)
    {initialSet : PtrSet SccPtr} (hnew : ∀ a ∈ initialSet, ¬ U a) :
    Partitioned (fun a => U a ∨ a ∈ initialSet) (addInitialSet ord p initialSet) := by
  set n := p.toDG.newNode p.nextSet with hn
  set p' := addInitialSet ord p initialSet with hp'
  have hnodes : ∀ m, m ∈ p'.allNodes ↔ m = n ∨ m ∈ p.allNodes := fun m =>
    DG.mem_addNode_allNodes ..
  have hholdsNew : ∀ a, p'.Holds n a ↔ a ∈ initialSet := by
    intro a
    simp [Holds, hp', addInitialSet, addSet, hn]
  have hholdsOld : ∀ m ∈ p.allNodes, ∀ a, p'.Holds m a ↔ p.Holds m a := by
    intro m hm a
    have hlt : m.theT ≠ p.nextSet := Nat.ne_of_lt (h.set_lt m hm)
    simp [Holds, hp', addInitialSet, addSet, Function.update_of_ne hlt]
  have hlookup : ∀ a, p'.sccToSetMap.lookup a =
      if a ∈ initialSet then some p.nextSet else p.sccToSetMap.lookup a := by
    intro a
    have heq : p'.sccToSetMap.lookup a = (p.sccToSetMap.lookup a).or
        (if a ∈ ord.visit initialSet.elems then some p.nextSet else none) :=
      lookup_addInitialSet p.nextSet a _ _
    rw [heq, if_congr (ord.mem_visit.trans mem_elems) rfl rfl]
    by_cases ha : a ∈ initialSet
    · have hnone : p.sccToSetMap.lookup a = none := by
        rw [Option.eq_none_iff_forall_ne_some]
        intro set hset
        obtain ⟨m, hm, _, hma⟩ := (h.lookup_iff a set).mp hset
        exact hnew a ha ((h.mem_iff a).mpr ⟨m, hm, hma⟩)
      rw [hnone, Option.none_or, if_pos ha]
    · rw [if_neg ha, if_neg ha, Option.or_none]
  refine ⟨h.clean.addNode h.nextSet_notInGraph, ?_, ?_, ?_, ?_, ?_⟩
  · intro m hm
    rcases (hnodes m).mp hm with rfl | hm
    · exact Nat.lt_succ_self _
    · exact Nat.lt_succ_of_lt (h.set_lt m hm)
  · intro m hm
    rcases (hnodes m).mp hm with rfl | hm
    · exact ⟨initialSet, Function.update_self ..⟩
    · obtain ⟨sccs, hsccs⟩ := h.allocated m hm
      have hlt : m.theT ≠ p.nextSet := Nat.ne_of_lt (h.set_lt m hm)
      exact ⟨sccs, (Function.update_of_ne hlt _ _).trans hsccs⟩
  · intro m hm k hk a hma hka
    rcases (hnodes m).mp hm with rfl | hm <;> rcases (hnodes k).mp hk with rfl | hk
    · rfl
    · exact absurd ((h.mem_iff a).mpr ⟨k, hk, (hholdsOld k hk a).mp hka⟩)
        (hnew a ((hholdsNew a).mp hma))
    · exact absurd ((h.mem_iff a).mpr ⟨m, hm, (hholdsOld m hm a).mp hma⟩)
        (hnew a ((hholdsNew a).mp hka))
    · exact h.holds_unique m hm k hk a ((hholdsOld m hm a).mp hma) ((hholdsOld k hk a).mp hka)
  · intro a
    constructor
    · rintro (ha | ha)
      · obtain ⟨m, hm, hma⟩ := (h.mem_iff a).mp ha
        exact ⟨m, (hnodes m).mpr (.inr hm), (hholdsOld m hm a).mpr hma⟩
      · exact ⟨n, (hnodes n).mpr (.inl rfl), (hholdsNew a).mpr ha⟩
    · rintro ⟨m, hm, hma⟩
      rcases (hnodes m).mp hm with rfl | hm
      · exact .inr ((hholdsNew a).mp hma)
      · exact .inl ((h.mem_iff a).mpr ⟨m, hm, (hholdsOld m hm a).mp hma⟩)
  · intro a set
    rw [hlookup]
    by_cases ha : a ∈ initialSet
    · rw [if_pos ha]
      constructor
      · intro heq
        exact ⟨n, (hnodes n).mpr (.inl rfl), Option.some.inj heq, (hholdsNew a).mpr ha⟩
      · rintro ⟨m, hm, rfl, hma⟩
        rcases (hnodes m).mp hm with rfl | hm
        · rfl
        · exact absurd ((h.mem_iff a).mpr ⟨m, hm, (hholdsOld m hm a).mp hma⟩) (hnew a ha)
    · rw [if_neg ha, h.lookup_iff]
      constructor
      · rintro ⟨m, hm, hset, hma⟩
        exact ⟨m, (hnodes m).mpr (.inr hm), hset, (hholdsOld m hm a).mpr hma⟩
      · rintro ⟨m, hm, hset, hma⟩
        rcases (hnodes m).mp hm with rfl | hm
        · exact absurd ((hholdsNew a).mp hma) ha
        · exact ⟨m, hm, hset, (hholdsOld m hm a).mp hma⟩

theorem empty_partitioned (self : Nat) : Partitioned (fun _ => False) (empty self) where
  clean := DG.empty_clean self
  set_lt := fun n hn => absurd hn (not_mem_empty n)
  allocated := fun n hn => absurd hn (not_mem_empty n)
  holds_unique := fun n hn => absurd hn (not_mem_empty n)
  mem_iff := fun _ => ⟨False.elim, fun ⟨n, hn, _⟩ => absurd hn (not_mem_empty n)⟩
  lookup_iff := fun _ _ => ⟨fun h => by simp [empty] at h,
    fun ⟨n, hn, _⟩ => absurd hn (not_mem_empty n)⟩

/-- The body of the second loop connects the sets of the parents of one SCC to its set. -/
theorem addEdgesOfSCC_spec (ord : IterOrder) (h : Partitioned U p) (hs : p.toDG.Simple)
    (x : (_ : SccPtr) × PtrSet SccPtr) :
    ∃ p', addEdgesOfSCC ord p x = some p' ∧ Connects p (fun n m => n ∈ p.allNodes ∧
      m ∈ p.allNodes ∧ p.Holds m x.1 ∧ ∃ a ∈ x.2, p.Holds n a) p' := by
  unfold addEdgesOfSCC
  cases hself : p.sccToSetMap.lookup x.1 with
  | none =>
      refine ⟨p, rfl, Connects.refl h.clean hs ?_⟩
      rintro n m ⟨_, hm, hmx, _⟩
      rw [(h.lookup_iff _ _).mpr ⟨m, hm, rfl, hmx⟩] at hself
      cases hself
  | some selfSet =>
      obtain ⟨self, hmem, rfl, hx⟩ := (h.lookup_iff _ _).mp hself
      dsimp only
      rw [fetchSetNode_eq h.clean hmem]
      dsimp only
      refine (Connects.foldlM (Q := fun a n m => n ∈ p.allNodes ∧ m = self ∧ p.Holds n a)
        h.clean hs ?_).imp fun p' hp' => ⟨hp'.1, hp'.2.congr fun n m => ?_⟩
      · intro pre a ha p₁ h₁ _
        cases hparent : p₁.sccToSetMap.lookup a with
        | none =>
            refine ⟨p₁, rfl, Connects.refl h₁.clean h₁.simple ?_⟩
            rintro n m ⟨hn, _, hna⟩
            rw [h₁.sccToSetMap_eq, (h.lookup_iff _ _).mpr ⟨n, hn, rfl, hna⟩] at hparent
            cases hparent
        | some parentSet =>
            rw [h₁.sccToSetMap_eq] at hparent
            obtain ⟨parent, hpar, rfl, hpa⟩ := (h.lookup_iff _ _).mp hparent
            have hpar' : parent ∈ p₁.allNodes := h₁.allNodes_eq ▸ hpar
            obtain ⟨p₂, hp₂, h₂⟩ := addSetEdge_spec h₁.clean h₁.simple hpar'
              (h₁.allNodes_eq ▸ hmem : self ∈ p₁.allNodes)
            refine ⟨p₂, ?_, h₂.congr fun n m => ⟨?_, ?_⟩⟩
            · dsimp only
              rw [fetchSetNode_eq h₁.clean hpar']
              exact hp₂
            · rintro ⟨rfl, rfl⟩
              exact ⟨hpar, rfl, hpa⟩
            · rintro ⟨hn, rfl, hna⟩
              exact ⟨h.holds_unique n hn parent hpar a hna hpa, rfl⟩
      · simp only [ord.mem_visit, mem_elems]
        constructor
        · rintro ⟨a, ha, hn, rfl, hna⟩
          exact ⟨hn, hmem, hx, a, ha, hna⟩
        · rintro ⟨hn, hm, hmx, a, ha, hna⟩
          exact ⟨a, ha, hn, h.holds_unique m hm self hmem x.1 hmx hx, hna⟩

/-- The constructor establishes the invariant. -/
theorem new_spec (ord : IterOrder) (self : Nat) {initialSets : List (PtrSet SccPtr)}
    (hdisj : initialSets.Pairwise fun s t => ∀ a ∈ s, a ∉ t)
    (sccToParentsMap : AList fun _ : SccPtr => PtrSet SccPtr) :
    ∃ p, new ord self initialSets sccToParentsMap = some p ∧
      Inv (fun a => ∃ s ∈ initialSets, a ∈ s) (Listed sccToParentsMap) p := by
  have hdisj' : (ord.visit initialSets).Pairwise fun s t => ∀ a ∈ s, a ∉ t :=
    ((ord.visit_perm initialSets).pairwise_iff fun h a ha hb => h a hb ha).mpr hdisj
  obtain ⟨h₀, hnone⟩ := foldl_rule (addInitialSet ord) (l := ord.visit initialSets)
    (s := empty self)
    (fun (pre : List (PtrSet SccPtr)) p => Partitioned (fun a => ∃ s ∈ pre, a ∈ s) p ∧ p.allEdges = ∅)
    ⟨by simpa using empty_partitioned self, rfl⟩
    (by
      rintro pre s post p hsplit ⟨h, hnone⟩
      rw [hsplit] at hdisj'
      have hnew : ∀ a ∈ s, ¬ ∃ t ∈ pre, a ∈ t := by
        rintro a ha ⟨t, ht, hat⟩
        exact (pairwise_append.mp hdisj').2.2 t ht s (.head _) a hat ha
      refine ⟨?_, hnone⟩
      have h' := addInitialSet_partitioned ord h hnew
      simpa [or_and_right, exists_or] using h')
  set p₀ := (ord.visit initialSets).foldl (addInitialSet ord) (empty self) with hp₀
  have hnoedge : ∀ e, e ∉ p₀.allEdges := fun e he => not_mem_empty e (hnone ▸ he)
  obtain ⟨p, hp, hconn⟩ := Connects.foldlM (l := ord.visit sccToParentsMap.entries) h₀.clean
    (fun e he => absurd he (hnoedge e))
    (Q := fun x n m => n ∈ p₀.allNodes ∧ m ∈ p₀.allNodes ∧ p₀.Holds m x.1 ∧ ∃ a ∈ x.2, p₀.Holds n a)
    (f := addEdgesOfSCC ord) (by
      intro pre x hx p₁ h₁ _
      obtain ⟨p₂, hp₂, h₂⟩ := addEdgesOfSCC_spec ord (h₁.partitioned h₀) h₁.simple x
      refine ⟨p₂, hp₂, h₂.congr fun n m => ?_⟩
      simp only [h₁.allNodes_eq, h₁.holds_iff])
  refine ⟨p, hp, ?_⟩
  have hpart := hconn.partitioned h₀
  have hedge : ∀ n m, p.Edge n m ↔ n ∈ p₀.allNodes ∧ m ∈ p₀.allNodes ∧
      p₀.ParentSet (Listed sccToParentsMap) n m := by
    intro n m
    rw [hconn.edge_iff]
    simp only [ord.mem_visit]
    constructor
    · rintro (⟨e, he, _⟩ | ⟨x, hx, hn, hm, hmx, a, ha, hna⟩)
      · exact absurd he (hnoedge e)
      · exact ⟨hn, hm, a, x.1, hna, hmx, x.2, AList.mem_lookup_iff.mpr hx, ha⟩
    · rintro ⟨hn, hm, a, b, hna, hmb, parents, hparents, ha⟩
      exact .inr ⟨⟨b, parents⟩, AList.mem_lookup_iff.mp hparents, hn, hm, hmb, a, ha, hna⟩
  exact
    { toPartitioned := by simpa only [ord.mem_visit] using hpart
      simple := hconn.simple
      parent_of_edge := fun n m hnm =>
        (hconn.parentSet_iff _ n m).mpr ((hedge n m).mp hnm).2.2
      edge_of_parent := fun n hn m hm _ hpar =>
        (hedge n m).mpr ⟨hconn.allNodes_eq ▸ hn, hconn.allNodes_eq ▸ hm,
          (hconn.parentSet_iff _ n m).mp hpar⟩ }

end SCCDAGPartition

end Noelle
