import Noelle.DG.Invariant
import Noelle.PDG.Basic

/-!
# PDG.Queries

The queries of a dependence graph: `fetchNode`, the two iterators over
dependences and `getDependences`.

All of them look their values up with `fetchNode`, which subscripts the external
map.  A query on a value of the graph therefore leaves the graph as it is, while
a query on any other value leaves a null entry behind that makes the value count
as external from then on.  `sameAnswers_runQueries_iff` is the exact statement
over all sequences of queries.
-/

namespace Noelle

open List

namespace PDG

variable {V σ : Type} [DecidableEq V] (ord : IterOrder)

/-! ## The queries -/

/-- Which dependences an iteration includes. -/
structure Filter where
  includeControlDependences : Bool
  includeMemoryDataDependences : Bool
  includeRegisterDataDependences : Bool

/-- The three checks made for each edge. -/
def Filter.accepts (flt : Filter) (edge : DGEdge V) : Bool :=
  if flt.includeControlDependences && decide (edge.kind = .controlDependence) then true
  else if flt.includeMemoryDataDependences && edge.kind.isMemory then true
  else flt.includeRegisterDataDependences && decide (edge.kind = .variableDependence)

/-- Invoke the callback on the accepted edges until it returns true.  The
callback sees the value at the other end and threads a state of its own. -/
def invokePerDependence (flt : Filter) (other : DGEdge V → V)
    (functionToInvoke : σ → V → DGEdge V → Bool × σ) : List (DGEdge V) → σ → Bool × σ
  | [], s => (false, s)
  | edge :: edges, s =>
      if flt.accepts edge then
        let (stop, s) := functionToInvoke s (other edge) edge
        if stop then (true, s) else invokePerDependence flt other functionToInvoke edges s
      else invokePerDependence flt other functionToInvoke edges s

def iterateOverDependencesFrom (g : PDG V) (fromValue : V) (flt : Filter)
    (functionToInvoke : σ → V → DGEdge V → Bool × σ) (s : σ) : (Bool × σ) × PDG V :=
  let (pdgNode, g) := g.fetchNode fromValue
  match pdgNode with
  | none => ((false, s), g)
  | some pdgNode =>
      (invokePerDependence flt DGEdge.getDst functionToInvoke
        (ord.visit (g.outgoingEdges pdgNode).elems) s, g)

def iterateOverDependencesTo (g : PDG V) (toValue : V) (flt : Filter)
    (functionToInvoke : σ → V → DGEdge V → Bool × σ) (s : σ) : (Bool × σ) × PDG V :=
  let (pdgNode, g) := g.fetchNode toValue
  match pdgNode with
  | none => ((false, s), g)
  | some pdgNode =>
      (invokePerDependence flt DGEdge.getSrc functionToInvoke
        (ord.visit (g.incomingEdges pdgNode).elems) s, g)

def getDependences (g : PDG V) (fromT toT : V) : PtrSet (DGEdge V) × PDG V :=
  let (srcNode, g) := g.fetchNode fromT
  let (dstNode, g) := g.fetchNode toT
  match srcNode, dstNode with
  | some srcNode, some dstNode => (g.fetchEdges srcNode dstNode, g)
  | _, _ => (∅, g)

/-- One query, with the arguments it is called with. -/
inductive Query (V σ : Type)
  | fetchNode (v : V)
  | iterateOverDependencesFrom (fromValue : V) (flt : Filter)
      (functionToInvoke : σ → V → DGEdge V → Bool × σ) (s : σ)
  | iterateOverDependencesTo (toValue : V) (flt : Filter)
      (functionToInvoke : σ → V → DGEdge V → Bool × σ) (s : σ)
  | getDependences (fromT toT : V)

namespace Query

def values : Query V σ → List V
  | fetchNode v => [v]
  | iterateOverDependencesFrom v _ _ _ => [v]
  | iterateOverDependencesTo v _ _ _ => [v]
  | getDependences a b => [a, b]

/-- The graph a query leaves behind. -/
def run (g : PDG V) : Query V σ → PDG V
  | fetchNode v => (g.fetchNode v).2
  | iterateOverDependencesFrom v flt f s => (PDG.iterateOverDependencesFrom ord g v flt f s).2
  | iterateOverDependencesTo v flt f s => (PDG.iterateOverDependencesTo ord g v flt f s).2
  | getDependences a b => (PDG.getDependences g a b).2

end Query

def runQueries (g : PDG V) (queries : List (Query V σ)) : PDG V :=
  queries.foldl (fun g q => q.run ord g) g

/-! ## What a query does -/

/-- A query only fetches the nodes of its values. -/
theorem run_eq_foldl_fetchNode (g : PDG V) (q : Query V σ) :
    q.run ord g = q.values.foldl (fun g v => (g.fetchNode v).2) g := by
  cases q with
  | fetchNode v => rfl
  | iterateOverDependencesFrom v flt f s =>
      simp only [Query.run, PDG.iterateOverDependencesFrom, Query.values, List.foldl]
      split <;> rfl
  | iterateOverDependencesTo v flt f s =>
      simp only [Query.run, PDG.iterateOverDependencesTo, Query.values, List.foldl]
      split <;> rfl
  | getDependences a b =>
      simp only [Query.run, PDG.getDependences, Query.values, List.foldl]
      split <;> rfl

omit [DecidableEq V] in
theorem invokePerDependence_filter (flt : Filter) (other : DGEdge V → V)
    (functionToInvoke : σ → V → DGEdge V → Bool × σ) (edges : List (DGEdge V)) (s : σ) :
    invokePerDependence flt other functionToInvoke (edges.filter flt.accepts) s =
      invokePerDependence flt other functionToInvoke edges s := by
  induction edges generalizing s with
  | nil => rfl
  | cons edge edges ih =>
      cases ha : flt.accepts edge with
      | false => simp [invokePerDependence, ha, ih]
      | true => simp [invokePerDependence, ha, ih]

omit [DecidableEq V] in
/-- Invariant rule for an iteration: it went over all accepted edges, or one of them stopped it. -/
theorem invokePerDependence_rule {flt : Filter} {other : DGEdge V → V}
    {functionToInvoke : σ → V → DGEdge V → Bool × σ} (I : List (DGEdge V) → σ → Prop)
    {edges : List (DGEdge V)} {s s' : σ} {stop : Bool} (h0 : I [] s)
    (hstep : ∀ pre edge post s s₁, edges.filter flt.accepts = pre ++ edge :: post → I pre s →
      functionToInvoke s (other edge) edge = (false, s₁) → I (pre ++ [edge]) s₁)
    (h : invokePerDependence flt other functionToInvoke edges s = (stop, s')) :
    (stop = false ∧ I (edges.filter flt.accepts) s') ∨
      (stop = true ∧ ∃ pre edge post s₁, edges.filter flt.accepts = pre ++ edge :: post ∧ I pre s₁ ∧
        functionToInvoke s₁ (other edge) edge = (true, s')) := by
  rw [← invokePerDependence_filter] at h
  have haccepts : ∀ edge ∈ edges.filter flt.accepts, flt.accepts edge = true := fun edge hedge =>
    (mem_filter.mp hedge).2
  generalize edges.filter flt.accepts = l at h hstep haccepts ⊢
  suffices hgo : ∀ post pre s, l = pre ++ post → I pre s →
      invokePerDependence flt other functionToInvoke post s = (stop, s') → _ from
    hgo l [] s rfl h0 h
  intro post
  induction post with
  | nil =>
      intro pre s hl hI h
      rw [append_nil] at hl
      obtain ⟨rfl, rfl⟩ := Prod.mk.inj h
      exact .inl ⟨rfl, hl ▸ hI⟩
  | cons edge post ih =>
      intro pre s hl hI h
      have hedge : flt.accepts edge = true := haccepts edge (by simp [hl])
      cases hf : functionToInvoke s (other edge) edge with
      | mk b s₁ =>
        cases b with
        | true =>
            simp only [invokePerDependence, hedge, hf, if_true] at h
            obtain ⟨rfl, rfl⟩ := Prod.mk.inj h
            exact .inr ⟨rfl, pre, edge, post, s, hl, hI, hf⟩
        | false =>
            simp only [invokePerDependence, hedge, hf, if_true, Bool.false_eq_true, if_false] at h
            exact ih (pre ++ [edge]) s₁ (by simp [hl]) (hstep pre edge post s s₁ hl hI hf) h

/-- Queries only fetch the nodes of their values. -/
theorem runQueries_eq_foldl_fetchNode (g : PDG V) (queries : List (Query V σ)) :
    runQueries ord g queries =
      (queries.flatMap Query.values).foldl (fun g v => (g.fetchNode v).2) g := by
  induction queries generalizing g with
  | nil => rfl
  | cons q queries ih =>
      rw [flatMap_cons, foldl_append, ← run_eq_foldl_fetchNode ord g q, ← ih]
      rfl

theorem isInGraph_fetchNode (g : PDG V) (v x : V) :
    (g.fetchNode v).2.isInGraph x = (decide (x = v) || g.isInGraph x) := by
  by_cases hv : g.isInGraph v = true
  · rw [DG.fetchNode_of_isInGraph hv]
    by_cases hx : x = v
    · simp [hx, hv]
    · simp [hx]
  · have hv' : g.internalNodeMap.lookup v = none ∧ g.externalNodeMap.lookup v = none := by
      simpa [DG.isInGraph, DG.isInternal, DG.isExternal] using hv
    by_cases hx : x = v
    · subst hx
      simp [DG.fetchNode, hv', DG.isInGraph, DG.isExternal]
    · simp [DG.fetchNode, hv', DG.isInGraph, DG.isExternal, DG.isInternal,
        AList.lookup_insert_ne hx, hx]

/-- After a sequence of lookups the values of the graph are the old ones and the
ones looked up. -/
theorem isInGraph_foldl_fetchNode (g : PDG V) (vs : List V) (x : V) :
    (vs.foldl (fun g v => (g.fetchNode v).2) g).isInGraph x =
      (decide (x ∈ vs) || g.isInGraph x) := by
  induction vs generalizing g with
  | nil => simp
  | cons v vs ih =>
      rw [foldl_cons, ih, isInGraph_fetchNode]
      by_cases hx : x = v <;> simp [hx]

theorem foldl_fetchNode_of_isInGraph (g : PDG V) (vs : List V)
    (h : ∀ v ∈ vs, g.isInGraph v = true) : vs.foldl (fun g v => (g.fetchNode v).2) g = g := by
  induction vs with
  | nil => rfl
  | cons v vs ih =>
      rw [foldl_cons, DG.fetchNode_of_isInGraph (h v mem_cons_self)]
      exact ih fun w hw => h w (.tail v hw)

/-! ## Callbacks without a state -/

section Predicates

variable {ord} {g : PDG V} {flt : Filter} {p : V → DGEdge V → Bool}

omit [DecidableEq V] in
theorem invokePerDependence_predicate (other : DGEdge V → V) (edges : List (DGEdge V)) :
    (invokePerDependence flt other (fun (_ : Unit) v d => (p v d, ())) edges ()).1 = true ↔
      ∃ d ∈ edges, flt.accepts d = true ∧ p (other d) d = true := by
  induction edges with
  | nil => simp [invokePerDependence]
  | cons d edges ih =>
      unfold invokePerDependence
      by_cases ha : flt.accepts d = true
      · by_cases hp : p (other d) d = true
        · simp [ha, hp]
        · simpa [ha, hp] using ih
      · simpa [ha] using ih

/-- The answer says whether an accepted dependence meets the predicate. -/
theorem iterateOverDependencesTo_predicate (hg : g.WF) (v : V) :
    (iterateOverDependencesTo ord g v flt (fun (_ : Unit) x d => (p x d, ())) ()).1.1 = true ↔
      ∃ d ∈ g.allEdges, d.getDst = v ∧ flt.accepts d = true ∧ p d.getSrc d = true := by
  unfold iterateOverDependencesTo
  cases hn : g.nodeOf v with
  | none =>
      rw [show g.fetchNode v = (none, (g.fetchNode v).2) from Prod.ext hn rfl]
      refine ⟨nofun, ?_⟩
      rintro ⟨d, hd, rfl, _⟩
      exact absurd ((hg.edge_mapped d hd).2.symm.trans hn) nofun
  | some n =>
      obtain ⟨hnode, hvalue⟩ := hg.nodeOf_mem hn
      rw [DG.fetchNode_of_isInGraph (DG.isInGraph_of_nodeOf hn), hn]
      refine (invokePerDependence_predicate _ _).trans (exists_congr fun d => ?_)
      rw [ord.mem_visit, PtrSet.mem_elems, hg.mem_incoming n hnode]
      constructor
      · rintro ⟨⟨hd, rfl⟩, ha, hp⟩
        exact ⟨hd, hvalue, ha, hp⟩
      · rintro ⟨hd, rfl, ha, hp⟩
        exact ⟨⟨hd, Option.mem_unique (hg.edge_mapped d hd).2 hn⟩, ha, hp⟩

end Predicates

/-! ## Queries do not change the graph they are about -/

/-- Two graphs that no client can tell apart: the same values, nodes and edges,
and the same result of every later construction. -/
structure SameAnswers (ord : IterOrder) (subLC : DGEdge V → Bool) (g g' : PDG V) : Prop where
  isInternal : ∀ v, g'.isInternal v = g.isInternal v
  isExternal : ∀ v, g'.isExternal v = g.isExternal v
  isInGraph : ∀ v, g'.isInGraph v = g.isInGraph v
  numInternalNodes : g'.numInternalNodes = g.numInternalNodes
  numExternalNodes : g'.numExternalNodes = g.numExternalNodes
  allNodes : g'.allNodes = g.allNodes
  allEdges : g'.allEdges = g.allEdges
  fetchOrAddNode : ∀ v inclusion, g'.fetchOrAddNode v inclusion = g.fetchOrAddNode v inclusion
  createSubgraphFromValues : ∀ self values linkToExternal edgesToIgnore,
    createSubgraphFromValues ord subLC g' self values linkToExternal edgesToIgnore =
      createSubgraphFromValues ord subLC g self values linkToExternal edgesToIgnore
  copyNodesIntoNewGraph : ∀ newGraph nodes entry,
    g'.copyNodesIntoNewGraph ord subLC newGraph nodes entry =
      g.copyNodesIntoNewGraph ord subLC newGraph nodes entry
  clone : ∀ self includeExternalNodes,
    clone ord subLC g' self includeExternalNodes = clone ord subLC g self includeExternalNodes

theorem SameAnswers.refl (subLC : DGEdge V → Bool) (g : PDG V) : SameAnswers ord subLC g g :=
  ⟨fun _ => rfl, fun _ => rfl, fun _ => rfl, rfl, rfl, rfl, rfl, fun _ _ => rfl,
    fun _ _ _ _ => rfl, fun _ _ _ => rfl, fun _ _ => rfl⟩

/-- **Queries as observers**: a sequence of queries leaves every answer of the
graph as it was if and only if every value it asks about is in the graph. -/
theorem sameAnswers_runQueries_iff (subLC : DGEdge V → Bool) (g : PDG V)
    (queries : List (Query V σ)) :
    SameAnswers ord subLC g (runQueries ord g queries) ↔
      ∀ q ∈ queries, ∀ v ∈ q.values, g.isInGraph v = true := by
  rw [runQueries_eq_foldl_fetchNode]
  constructor
  · intro h q hq v hv
    have hmem : v ∈ queries.flatMap Query.values := mem_flatMap.mpr ⟨q, hq, hv⟩
    have hin := h.isInGraph v
    rw [isInGraph_foldl_fetchNode, decide_eq_true hmem, Bool.true_or] at hin
    exact hin.symm
  · intro h
    rw [foldl_fetchNode_of_isInGraph]
    · exact SameAnswers.refl ord subLC g
    · intro v hv
      obtain ⟨q, hq, hqv⟩ := mem_flatMap.mp hv
      exact h q hq v hqv

def singletonGraph : PDG Nat := ofValues 0 1 []

/-- After asking for the value `2` the graph with the one value `1` counts `2` as
external, and adding it yields a null pointer. -/
theorem fetchNode_singletonGraph_changes :
    let g := runQueries (σ := Unit) .stored singletonGraph [.fetchNode 2]
    singletonGraph.isExternal 2 = false ∧ g.isExternal 2 = true ∧
      (singletonGraph.fetchOrAddNode 2 true).1 = some ⟨0, 1, 2⟩ ∧
      (g.fetchOrAddNode 2 true).1 = none ∧
      ¬ SameAnswers .stored (fun _ => false) singletonGraph g := by
  refine ⟨by decide, by decide, by decide, by decide, fun h => ?_⟩
  exact absurd (h.isExternal 2) (by decide)

end PDG

end Noelle
