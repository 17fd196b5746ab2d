import Noelle.SCCDAGNormalizer.Decisions

/-!
# SCCDAGNormalizer.Normalize

The normalizer and acyclicity.

Every phase is a run of merges, and the SCCDAG is linked in every state of it.
Nothing restores acyclicity: the SCCDAG stays acyclic from merge to merge exactly
as long as the merged nodes are convex.
-/

namespace Noelle

open SCCDAG List Option

namespace SCCDAGNormalizer

variable {V F B : Type} [DecidableEq V] [DecidableEq F] [DecidableEq B] {ord : IterOrder}
  {subLC : DGEdge V → Bool} {ir : IR V B} {loop : LoopTree F B} {D : Multiset (Dep V)}
  {U : V → Prop} {s s' : SCCDAG V} {item other : MergeItem} {items : List MergeItem}
  {sccSet : PtrSet (DGNode SccPtr)} {new : DGNode SccPtr}

/-! ## One merge -/

/-- No node that the merge is about is one of the set. -/
def Untouched (sccSet : PtrSet (DGNode SccPtr)) : MergeItem → Prop
  | .group sccNodes => ∀ n ∈ sccNodes, n ∉ sccSet
  | .tailCmpBr t => t ∉ sccSet

/-- A merge that does not touch an item leaves it mergeable. -/
theorem ItemOk.of_merged (hitem : ItemOk D s item) (h : Linked subLC D U s)
    (hset : s.NodesOf sccSet) (hm : Merged s sccSet new s') (hun : Untouched sccSet item) :
    ItemOk D s' item := by
  cases item with
  | group sccNodes =>
      exact fun n hn => (hm.allNodes_iff n).mpr (.inr ⟨hitem n hn, hun n hn⟩)
  | tailCmpBr t =>
      have ht : t ∈ s.allNodes := hitem.mem
      have hnew : new ≠ t := fun heq => hm.new_notMem h.toPartitioned (heq ▸ ht)
      refine ⟨(hm.allNodes_iff t).mpr (.inr ⟨ht, hun⟩), ?_, fun k hk hkt hdep => ?_⟩
      · obtain ⟨k, hk, hkt, hdep⟩ := hitem.exists_dep
        by_cases hks : k ∈ sccSet
        · exact ⟨new, (hm.allNodes_iff new).mpr (.inl rfl), hnew,
            (hm.depBetween_from ht).mpr ⟨k, hks, hdep⟩⟩
        · exact ⟨k, (hm.allNodes_iff k).mpr (.inr ⟨hk, hks⟩), hkt,
            (hm.depBetween_old hk ht).mpr hdep⟩
      · rcases (hm.allNodes_iff k).mp hk with rfl | ⟨hk, _⟩
        · obtain ⟨j, hj, hdep'⟩ := (hm.depBetween_to ht).mp hdep
          exact hitem.no_dep j (hset j hj) (fun heq => hun (heq ▸ hj)) hdep'
        · exact hitem.no_dep k hk hkt ((hm.depBetween_old ht hk).mp hdep)

section

variable (h : Linked subLC D U s)

include h

theorem mem_parents {t k : DGNode SccPtr} (ht : t ∈ s.allNodes) :
    k ∈ (s.incomingEdges t).elems.map DGEdge.srcNode ↔ s.Edge k t := by
  simp only [List.mem_map, PtrSet.mem_elems, h.clean.mem_incoming t ht]
  constructor
  · rintro ⟨e, ⟨he, hd⟩, hs⟩
    exact ⟨e, he, hs, hd⟩
  · rintro ⟨e, he, hs, hd⟩
    exact ⟨e, ⟨he, hd⟩, hs⟩

/-- The nodes right in front of a node are its parents without an edge to another one. -/
theorem mem_getPreviousDepthNodes {t k : DGNode SccPtr} (ht : t ∈ s.allNodes) :
    k ∈ s.getPreviousDepthNodes t ↔ s.Edge k t ∧ ∀ m, s.Edge m t → ¬ s.Edge k m := by
  have hmem : ∀ k, k ∈ PtrSet.ofList ((s.incomingEdges t).elems.map DGEdge.srcNode) ↔ s.Edge k t :=
    fun k => PtrSet.mem_ofList.trans (mem_parents h ht)
  constructor
  · intro hk
    obtain ⟨hin, hall⟩ := PtrSet.mem_filter.mp hk
    have hkt := (hmem k).mp hin
    refine ⟨hkt, fun m hmt hkm => ?_⟩
    obtain ⟨e, he, hs, hd⟩ := hkm
    have hout := all_eq_true.mp hall e
      ((h.clean.mem_outgoing k (h.clean.edge_mem hkt).1 e).mpr ⟨he, hs⟩)
    exact of_decide_eq_true hout (hd ▸ (hmem m).mpr hmt)
  · rintro ⟨hkt, hno⟩
    refine PtrSet.mem_filter.mpr ⟨(hmem k).mpr hkt, all_eq_true.mpr fun e he => ?_⟩
    obtain ⟨he, hs⟩ := (h.clean.mem_outgoing k (h.clean.edge_mem hkt).1 e).mp he
    exact decide_eq_true fun hd => hno e.dstNode ((hmem _).mp hd) ⟨e, he, hs, rfl⟩

variable (ord) in
theorem exists_previous (hdag : IsDAG D s) {t : DGNode SccPtr}
    (ht : IsTail D s t) : ∃ k, (ord.visit (s.getPreviousDepthNodes t).elems).head? = some k ∧
      s.Edge k t := by
  obtain ⟨j, hj, hjt, hdep⟩ := ht.exists_dep
  obtain ⟨e, he, hsrc, hdst⟩ := h.edge_of_depBetween hj ht.mem hjt hdep (ht.no_dep j hj hjt)
  have hne : (s.incomingEdges t).elems.map DGEdge.srcNode ≠ [] :=
    ne_nil_of_mem ((mem_parents h ht.mem).mpr ⟨e, he, hsrc, hdst⟩)
  obtain ⟨a, ha, hmax⟩ := hdag.edges.exists_maximal h.edge_irrefl hne
  have hprev : a ∈ s.getPreviousDepthNodes t := (mem_getPreviousDepthNodes h ht.mem).mpr
    ⟨(mem_parents h ht.mem).mp ha, fun m hm => hmax m ((mem_parents h ht.mem).mpr hm)⟩
  obtain ⟨k, hk, hhead⟩ := ord.exists_head (ne_nil_of_mem hprev)
  exact ⟨k, hhead, ((mem_getPreviousDepthNodes h ht.mem).mp hk).1⟩

variable (ord) in
/-- What a merge takes are nodes of the SCCDAG, and none of those that other merges of
its phase are about. -/
theorem nodesToMerge_spec (hdag : IsDAG D s) (hitem : ItemOk D s item) :
    ∃ sccSet, nodesToMerge ord s item = some sccSet ∧ s.NodesOf sccSet ∧
      ∀ other, Apart item other → ItemOk D s other → Untouched sccSet other := by
  cases item with
  | group sccNodes =>
      refine ⟨sccNodes, rfl, hitem, fun other hapart _ => ?_⟩
      cases other with
      | group sccNodes' => exact fun n hn hn' => hapart n hn' hn
      | tailCmpBr t => exact False.elim hapart
  | tailCmpBr t =>
      have htail : IsTail D s t := hitem
      obtain ⟨k, hhead, hedge⟩ := exists_previous ord h hdag htail
      have hk := h.nodeDep_of_edge hedge
      have hmem : ∀ n, n ∈ PtrSet.ofList [t, k] ↔ n = t ∨ n = k := fun n => by simp
      refine ⟨PtrSet.ofList [t, k], by simp [nodesToMerge, hhead], fun n hn => ?_, ?_⟩
      · rcases (hmem n).mp hn with rfl | rfl
        · exact htail.mem
        · exact hk.1
      · intro other hapart hother
        cases other with
        | group sccNodes => exact False.elim hapart
        | tailCmpBr t' =>
            have htail' : IsTail D s t' := hother
            intro hmem'
            rcases (hmem t').mp hmem' with rfl | rfl
            · exact hapart rfl
            · exact htail'.no_dep t htail.mem hapart hk.2.2

variable (ord) in
/-- **One merge of a phase** succeeds and leaves the others pending; the SCCDAG stays
acyclic if and only if the merged nodes are convex. -/
theorem mergeItem_spec (hdag : IsDAG D s) (hpending : Pending D s (item :: items)) :
    ∃ sccSet s', nodesToMerge ord s item = some sccSet ∧ s.mergeSCCs ord subLC sccSet = some s' ∧
      Linked subLC D U s' ∧ (IsDAG D s' ↔ Convex D s sccSet) ∧ Pending D s' items := by
  obtain ⟨sccSet, hset, hnodes, hun⟩ := nodesToMerge_spec ord h hdag
    (hpending.item_ok item (.head _))
  obtain ⟨s', hs', h', hiff⟩ := h.mergeSCCs_isDAG_iff hdag ord hnodes
  obtain ⟨hapart, hrest⟩ := pairwise_cons.mp hpending.apart
  refine ⟨sccSet, s', hset, hs', h', hiff, fun other hmem => ?_, hrest⟩
  have hother := hpending.item_ok other (.tail _ hmem)
  by_cases hsize : sccSet.size < 2
  · obtain rfl := mem_unique (mergeSCCs_of_size_lt ord subLC hsize) hs'
    exact hother
  · obtain ⟨s₁, new, hs₁, _, hm⟩ := h.mergeSCCs_spec ord hnodes hsize
    obtain rfl := mem_unique hs₁ hs'
    exact hother.of_merged h hnodes hm (hun other (hapart other hmem) hother)

end

/-! ## Phases -/

variable (ord subLC ir loop)

/-- The phases, each with what it decides to merge. -/
def phases : List (SCCDAG V → Option (List MergeItem)) :=
  [lcssaPhiGroups ord ir loop, loopCarriedGroups ord ir loop, syntacticSugarGroups ord ir,
    tailCmpBrs ord ir]

def phase (s : SCCDAG V) (decided : SCCDAG V → Option (List MergeItem)) : Option (SCCDAG V) :=
  mergeAll ord subLC decided s

/-- `P` holds of every set of nodes that the phases merge and the SCCDAG it is merged
in, as far as the phases get. -/
def EveryMerge (P : SCCDAG V → PtrSet (DGNode SccPtr) → Prop) (s : SCCDAG V) : Prop :=
  Calls (phase ord subLC) (fun s decided => ∀ items, decided s = some items →
    Calls (mergeItem ord subLC) (fun s item =>
      ∀ sccSet, nodesToMerge ord s item = some sccSet → P s sccSet) s items) s
    (phases ord ir loop)

theorem normalizeInPlace_eq (s : SCCDAG V) :
    normalizeInPlace ord subLC ir loop s = (phases ord ir loop).foldlM (phase ord subLC) s := by
  simp [normalizeInPlace, phases, phase, mergeLCSSAPhis, mergeSingleSyntacticSugarInstrs,
    mergeSCCsWithExternalInterIterationDependencies, mergeBranchesWithoutOutgoingEdges,
    collapseIntroducedCycles]

variable {ord subLC ir loop}

/-- The state in which a phase does its merges. -/
structure Merging (subLC : DGEdge V → Bool) (D : Multiset (Dep V)) (U : V → Prop) (s : SCCDAG V)
    (items : List MergeItem) : Prop where
  linked : Linked subLC D U s
  isDAG : IsDAG D s
  pending : Pending D s items

/-- The state in which the phases that are left start. -/
structure Phasing (subLC : DGEdge V → Bool) (D : Multiset (Dep V)) (U : V → Prop) (s : SCCDAG V)
    (decideds : List (SCCDAG V → Option (List MergeItem))) : Prop where
  linked : Linked subLC D U s
  isDAG : IsDAG D s
  decides : ∀ decided ∈ decideds, ∀ s : SCCDAG V, Linked subLC D U s → IsDAG D s →
    ∃ items, decided s = some items ∧ Pending D s items

/-- The merge succeeds and leaves the SCCDAG acyclic. -/
def StaysDAG (ord : IterOrder) (subLC : DGEdge V → Bool) (D : Multiset (Dep V)) (s : SCCDAG V)
    (sccSet : PtrSet (DGNode SccPtr)) : Prop :=
  ∃ s', s.mergeSCCs ord subLC sccSet = some s' ∧ IsDAG D s'

/-- A merge that leaves a DAG keeps the rest mergeable. -/
theorem Merging.step (h : Merging subLC D U s (item :: items))
    (hstays : ∀ sccSet, nodesToMerge ord s item = some sccSet → StaysDAG ord subLC D s sccSet) :
    ∃ s', mergeItem ord subLC s item = some s' ∧ Merging subLC D U s' items := by
  obtain ⟨sccSet, s', hset, hs', h', _, hpending⟩ := mergeItem_spec ord h.linked h.isDAG
    h.pending
  obtain ⟨s₁, hs₁, hdag⟩ := hstays sccSet hset
  obtain rfl := mem_unique hs₁ hs'
  refine ⟨s₁, ?_, h', hdag, hpending⟩
  rw [mergeItem, hset]
  exact hs'

theorem Merging.stays_iff (h : Merging subLC D U s (item :: items)) :
    (∀ sccSet, nodesToMerge ord s item = some sccSet → StaysDAG ord subLC D s sccSet) ↔
      ∀ sccSet, nodesToMerge ord s item = some sccSet → Convex D s sccSet := by
  obtain ⟨sccSet, s', hset, hs', _, hiff, _⟩ := mergeItem_spec ord h.linked h.isDAG
    h.pending
  have hstays : StaysDAG ord subLC D s sccSet ↔ Convex D s sccSet := by
    rw [← hiff]
    constructor
    · rintro ⟨s₁, hs₁, hdag⟩
      obtain rfl := mem_unique hs₁ hs'
      exact hdag
    · exact fun hdag => ⟨s', hs', hdag⟩
  simp only [hset, some.injEq, forall_eq', hstays]

variable {decided : SCCDAG V → Option (List MergeItem)}
  {decideds : List (SCCDAG V → Option (List MergeItem))}

/-- A phase whose merges leave a DAG keeps the phases after it possible. -/
theorem Phasing.step
    (h : Phasing subLC D U s (decided :: decideds))
    (hstays : ∀ items, decided s = some items → Calls (mergeItem ord subLC) (fun s item =>
      ∀ sccSet, nodesToMerge ord s item = some sccSet → StaysDAG ord subLC D s sccSet) s items) :
    ∃ s', phase ord subLC s decided = some s' ∧ Phasing subLC D U s' decideds := by
  obtain ⟨items, hitems, hpending⟩ := h.decides decided (.head _) s h.linked h.isDAG
  have hmerging : Merging subLC D U s items := ⟨h.linked, h.isDAG, hpending⟩
  obtain ⟨s', hs', hdone⟩ := foldlM_of_calls (J := Merging subLC D U)
    (fun s item items hJ hQ => hJ.step hQ) hmerging (hstays items hitems)
  refine ⟨s', ?_, hdone.linked, hdone.isDAG, fun d hd => h.decides d (.tail _ hd)⟩
  rw [phase, mergeAll, hitems]
  exact hs'

theorem Phasing.stays_iff (h : Phasing subLC D U s (decided :: decideds)) :
    (∀ items, decided s = some items → Calls (mergeItem ord subLC) (fun s item =>
        ∀ sccSet, nodesToMerge ord s item = some sccSet → StaysDAG ord subLC D s sccSet) s items) ↔
      ∀ items, decided s = some items → Calls (mergeItem ord subLC) (fun s item =>
        ∀ sccSet, nodesToMerge ord s item = some sccSet → Convex D s sccSet) s items := by
  obtain ⟨items, hitems, hpending⟩ := h.decides decided (.head _) s h.linked h.isDAG
  have hmerging : Merging subLC D U s items := ⟨h.linked, h.isDAG, hpending⟩
  simp only [hitems, some.injEq, forall_eq']
  refine calls_congr (J := Merging subLC D U) (fun s item items hJ => hJ.stays_iff) ?_ hmerging
  intro s item items s' hJ hQ hs'
  obtain ⟨s₁, hs₁, hJ'⟩ := hJ.step hQ
  exact mem_unique hs₁ hs' ▸ hJ'

theorem phasing_phases (h : Linked subLC D U s) (hdag : IsDAG D s) (hloop : LoopGraph ir loop D U) :
    Phasing subLC D U s (phases ord ir loop) := by
  refine ⟨h, hdag, fun decided hmem s h hdag => ?_⟩
  simp only [phases, mem_cons, not_mem_nil, or_false] at hmem
  rcases hmem with rfl | rfl | rfl | rfl
  · obtain ⟨groups, hgroups, hok⟩ := lcssaPhiGroups_spec ord h hloop
    exact ⟨_, hgroups, hok.pending⟩
  · obtain ⟨groups, hgroups, hok⟩ := loopCarriedGroups_spec ord h hloop
    exact ⟨_, hgroups, hok.pending⟩
  · obtain ⟨groups, hgroups, hok⟩ := syntacticSugarGroups_spec ord ir h
    exact ⟨_, hgroups, hok.pending⟩
  · exact tailCmpBrs_spec h hdag

theorem linked_of_builtFrom {pdg : PDG V} {it : SccIterator} {self : Nat}
    (hpdg : PDG.Proper subLC pdg) (hs : BuiltFrom ord it subLC pdg self s) :
    Linked subLC pdg.deps pdg.HasValue s ∧ IsDAG pdg.deps s := by
  obtain ⟨s₁, hs₁, hg⟩ := hs
  obtain ⟨s₀, hs₀, h₀⟩ := buildGraph_spec ord it hpdg self
  obtain rfl : s₁ = s₀ := mem_unique hs₁ hs₀
  have h := hg.linked h₀.toLinked
  refine ⟨h, h.isDAG_iff.mpr (h₀.acyclic_deps.mono fun n m hnm => ?_)⟩
  simpa only [NodeDep, DepBetween, Holds, hg.toDG_eq, hg.sccs_eq] using hnm

section Normalizer

variable {pdg : PDG V} {it : SccIterator} {self : Nat} (hpdg : PDG.Proper subLC pdg)
  (hs : BuiltFrom ord it subLC pdg self s) (hloop : LoopGraph ir loop pdg.deps pdg.HasValue)

include hpdg hs hloop

/-- Before any merge, it leaves no cycle exactly if what it merges is convex. -/
theorem everyMerge_staysDAG_iff : EveryMerge ord subLC ir loop (StaysDAG ord subLC pdg.deps) s ↔
    EveryMerge ord subLC ir loop (Convex pdg.deps) s := by
  obtain ⟨h, hdag⟩ := linked_of_builtFrom hpdg hs
  refine calls_congr (J := Phasing subLC pdg.deps pdg.HasValue)
    (fun s decided decideds hJ => hJ.stays_iff) ?_ (phasing_phases h hdag hloop)
  intro s decided decideds s' hJ hQ hs'
  obtain ⟨s₁, hs₁, hJ'⟩ := hJ.step hQ
  exact mem_unique hs₁ hs' ▸ hJ'

/-- The normalizer returns an SCCDAG without cycles if every set of nodes that it merges is convex when
its turn comes. -/
theorem normalizeInPlace_isDAG (hconvex : EveryMerge ord subLC ir loop (Convex pdg.deps) s) :
    ∃ s', normalizeInPlace ord subLC ir loop s = some s' ∧ IsDAG pdg.deps s' := by
  obtain ⟨h, hdag⟩ := linked_of_builtFrom hpdg hs
  obtain ⟨s', hs', hdone⟩ := foldlM_of_calls (J := Phasing subLC pdg.deps pdg.HasValue)
    (fun s decided decideds hJ hQ => hJ.step hQ) (phasing_phases h hdag hloop)
    ((everyMerge_staysDAG_iff hpdg hs hloop).mpr hconvex)
  exact ⟨s', by rw [normalizeInPlace_eq]; exact hs', hdone.isDAG⟩

end Normalizer

/-- **The normalizer and acyclicity**: from the SCCDAG of a loop, the normalizer returns
an SCCDAG without cycles, and every merge on the way leaves one, if and only if every
set of nodes that it merges is convex when its turn comes. -/
theorem normalizeInPlace_isDAG_iff {pdg : PDG V} {it : SccIterator} {self : Nat}
    (hpdg : PDG.Proper subLC pdg) (hs : BuiltFrom ord it subLC pdg self s)
    (hloop : LoopGraph ir loop pdg.deps pdg.HasValue) :
    ((∃ s', normalizeInPlace ord subLC ir loop s = some s' ∧ IsDAG pdg.deps s') ∧
        EveryMerge ord subLC ir loop (StaysDAG ord subLC pdg.deps) s) ↔
      EveryMerge ord subLC ir loop (Convex pdg.deps) s := by
  rw [everyMerge_staysDAG_iff hpdg hs hloop]
  exact and_iff_right_of_imp (normalizeInPlace_isDAG hpdg hs hloop)

/-! ## A stencil -/

/-- The body of `for (i) A[i] = (A[i + 1] + 1) * 3`: the load, the addition, the
multiplication and the store.  The store of the next iteration overwrites what the load
read. -/
def stencilHistory : List (DG.Op Nat (DGEdge Nat)) :=
  [.addNode 1 true, .addNode 2 true, .addNode 3 true, .addNode 4 true,
    .addVariableDataDependenceEdge 1 2 .raw, .addVariableDataDependenceEdge 2 3 .raw,
    .addVariableDataDependenceEdge 3 4 .raw, .addMemoryDataDependenceEdge 1 4 .war true]

def stencilPdg : PDG Nat :=
  let pdg : PDG Nat := (DG.execute (fun _ => false) (DG.empty 0) stencilHistory).getD (DG.empty 0)
  { pdg with edgeAttr := fun e => { isLoopCarried := e.kind.isMemory } }

/-- All four are instructions of the one block of the loop. -/
def stencilIr : IR Nat Nat where
  kind v := if v < 5 && 0 < v then .otherInstruction else .noInstruction
  getParent _ := 0

def stencilLoop : LoopTree Nat Nat := .node ⟨0, 0, 0, 1, PtrSet.ofList [0]⟩ []

theorem stencilPdg_proper : PDG.Proper (fun _ => false) stencilPdg := by
  have hstencil : stencilPdg.Clean := (DG.clean_of_history _ 0 (by decide)).setEdgeAttr _
  have hedges : ∀ e ∈ stencilPdg.allEdges.elems, e.kind ≠ .undefinedDependence ∧
      (stencilPdg.edgeAttr e).Covers fun _ => false := by decide
  exact PDG.proper_of_clean hstencil hedges

theorem stencil_loopGraph : LoopGraph stencilIr stencilLoop stencilPdg.deps stencilPdg.HasValue := by
  refine ⟨by decide, fun v hv _ => ?_⟩
  have hvalues : ∀ v < 5, 0 < v → ∃ n ∈ stencilPdg.allNodes.elems, n.theT = v := by decide
  have hrange : v < 5 ∧ 0 < v := by
    by_contra hout
    simp [IR.isInstruction, stencilIr, hout] at hv
  exact hvalues v hrange.1 hrange.2

/-- Three edges in a row that end where they start. -/
def HasTriangle (s : SCCDAG V) : Prop :=
  ∃ e ∈ s.allEdges.elems, ∃ e' ∈ s.allEdges.elems, ∃ e'' ∈ s.allEdges.elems,
    e.dstNode = e'.srcNode ∧ e'.dstNode = e''.srcNode ∧ e''.dstNode = e.srcNode ∧
      e.srcNode ≠ e.dstNode

instance (s : SCCDAG V) : Decidable (HasTriangle s) :=
  inferInstanceAs (Decidable (∃ e ∈ s.allEdges.elems, _))

omit [DecidableEq V] in
theorem HasTriangle.not_acyclic (h : HasTriangle s) : ¬ Acyclic s.Edge := by
  obtain ⟨e, he, e', he', e'', he'', h₁, h₂, h₃, hne⟩ := h
  have hstep : s.Edge e.srcNode e.dstNode := ⟨e, he, rfl, rfl⟩
  have hstep' : s.Edge e.dstNode e'.dstNode := ⟨e', he', h₁.symm, rfl⟩
  have hstep'' : s.Edge e'.dstNode e.srcNode := ⟨e'', he'', h₂.symm, h₃⟩
  exact fun hac => hne (hac _ _ ⟨.single hstep, (Relation.ReflTransGen.single hstep').tail hstep''⟩)

/-- The load and the store are merged, and the chain between them closes a cycle. -/
theorem normalizeInPlace_stencil_not_acyclic :
    ∃ s s', SCCDAG.new .stored .saturating (fun _ => false) stencilPdg 0 = some s ∧
      Acyclic s.Edge ∧ LoopGraph stencilIr stencilLoop stencilPdg.deps stencilPdg.HasValue ∧
      normalizeInPlace .stored (fun _ => false) stencilIr stencilLoop s = some s' ∧
      ¬ Acyclic s'.Edge := by
  have hcheck : (SCCDAG.new .stored .saturating (fun _ => false) stencilPdg 0).any (fun s =>
      (normalizeInPlace .stored (fun _ => false) stencilIr stencilLoop s).any fun s' =>
        decide (HasTriangle s')) = true := by decide +kernel
  obtain ⟨s, hs, hcheck⟩ := (any_eq_true _ _).mp hcheck
  obtain ⟨s', hs', htriangle⟩ := (any_eq_true _ _).mp hcheck
  obtain ⟨s₀, hs₀, h₀⟩ := buildGraph_spec .stored .saturating stencilPdg_proper 0
  have hbuilt : BuiltFrom .stored .saturating (fun _ => false) stencilPdg 0 s :=
    ⟨s₀, hs₀, (new_sameGraph .stored .saturating hs₀ h₀ hs).1⟩
  exact ⟨s, s', hs, (linked_of_builtFrom stencilPdg_proper hbuilt).2.edges, stencil_loopGraph, hs',
    (of_decide_eq_true htriangle).not_acyclic⟩

theorem normalizeInPlace_isDAG_iff_stencil :
    ∃ s, buildGraph .stored .saturating (fun _ => false) stencilPdg 0 = some s ∧
      (((∃ s', normalizeInPlace .stored (fun _ => false) stencilIr stencilLoop s = some s' ∧
            IsDAG stencilPdg.deps s') ∧
          EveryMerge .stored (fun _ => false) stencilIr stencilLoop
            (StaysDAG .stored (fun _ => false) stencilPdg.deps) s) ↔
        EveryMerge .stored (fun _ => false) stencilIr stencilLoop (Convex stencilPdg.deps) s) := by
  obtain ⟨s, hs, _⟩ := buildGraph_spec .stored .saturating stencilPdg_proper 0
  exact ⟨s, hs, normalizeInPlace_isDAG_iff stencilPdg_proper ⟨s, hs, .refl s⟩ stencil_loopGraph⟩

end SCCDAGNormalizer

end Noelle
