import Noelle.DG.History
import Noelle.PDG.Queries
import Noelle.SCCDAG.Construction

/-!
# PDGGenerator.Compare

Comparing two program dependence graphs: `PDGGenerator::comparePDGs`.

The comparison looks for every dependence of the first graph in the second one and
compares the numbers of dependences.  Copies of one dependence are found more than once,
so that surplus copies of the first graph can stand for dependences that only the second
one has.  The lookups go through `fetchNode`, which leaves a null entry behind.
-/

namespace Noelle

open List

namespace PDGGenerator

variable {V : Type} [DecidableEq V] (ord : IterOrder)

/-! ## The comparison -/

/-- The loop of `compareNodes`. -/
def compareNodesFrom (pdg2 : PDG V) : List (DGNode V) → Bool × PDG V
  | [] => (true, pdg2)
  | node :: nodes =>
      match pdg2.fetchNode node.theT with
      | (none, pdg2) => (false, pdg2)
      | (some _, pdg2) => compareNodesFrom pdg2 nodes

def compareNodes (pdg1 pdg2 : PDG V) : Bool × PDG V :=
  if pdg1.numNodes ≠ pdg2.numNodes then (false, pdg2)
  else compareNodesFrom pdg2 (ord.visit pdg1.allNodes.elems)

/-- The conditions on two edges between the same nodes in `compareEdges`. -/
def areEquals (pdg1 pdg2 : PDG V) (edge1 edge2 : DGEdge V) : Bool :=
  decide (edge1.kind = edge2.kind) &&
    decide ((pdg1.edgeAttr edge1).isLoopCarried = (pdg2.edgeAttr edge2).isLoopCarried) &&
    (!edge1.kind.isData || decide (edge1.dataDepType = edge2.dataDepType))

/-- The loop of `compareEdges` with a callback.  The callback prints. -/
def compareEdgesFrom (pdg1 pdg2 : PDG V) : List (DGEdge V) → Bool × PDG V
  | [] => (true, pdg2)
  | edge1 :: edges =>
      let (edgeSet, pdg2) := PDG.getDependences pdg2 edge1.getSrc edge1.getDst
      if edgeSet.elems.any (areEquals pdg1 pdg2 edge1) then compareEdgesFrom pdg1 pdg2 edges
      else (false, pdg2)

/-- `PDGGenerator::compareEdges` with a callback. -/
def compareEdgesWith (pdg1 pdg2 : PDG V) : Bool × PDG V :=
  compareEdgesFrom pdg1 pdg2 (ord.visit pdg1.allEdges.elems)

/-- `PDGGenerator::compareEdges`.  When the numbers differ the two loops run for their
callbacks. -/
def compareEdges (pdg1 pdg2 : PDG V) : Bool × PDG V × PDG V :=
  if pdg1.numEdges ≠ pdg2.numEdges then
    let (_, pdg2) := compareEdgesWith ord pdg1 pdg2
    let (_, pdg1) := compareEdgesWith ord pdg2 pdg1
    (false, pdg1, pdg2)
  else
    let (found, pdg2) := compareEdgesWith ord pdg1 pdg2
    (found, pdg1, pdg2)

/-- `PDGGenerator::comparePDGs`, with the two graphs that it leaves. -/
def comparePDGs (pdg1 pdg2 : PDG V) : Bool × PDG V × PDG V :=
  let (sameNodes, pdg2) := compareNodes ord pdg1 pdg2
  if sameNodes then compareEdges ord pdg1 pdg2 else (false, pdg1, pdg2)

/-! ## What is compared -/

/-- A dependence as it is compared: only data dependences have a type. -/
def compared (d : Dep V) : Dep V :=
  { d with dataDepType := if d.kind.isData then d.dataDepType else none }

omit [DecidableEq V] in
theorem compared_eq_iff {d d' : Dep V} : compared d = compared d' ↔ d.src = d'.src ∧
    d.dst = d'.dst ∧ d.kind = d'.kind ∧ d.isLoopCarried = d'.isLoopCarried ∧
      (d.kind.isData = true → d.dataDepType = d'.dataDepType) := by
  obtain ⟨src, dst, kind, dataDepType, lc⟩ := d
  obtain ⟨src', dst', kind', dataDepType', lc'⟩ := d'
  simp only [compared, Dep.mk.injEq]
  constructor
  · rintro ⟨rfl, rfl, rfl, htype, rfl⟩
    exact ⟨rfl, rfl, rfl, rfl, fun hdata => by simpa [hdata] using htype⟩
  · rintro ⟨rfl, rfl, rfl, rfl, htype⟩
    refine ⟨rfl, rfl, rfl, ?_, rfl⟩
    by_cases hdata : kind.isData = true
    · rw [if_pos hdata, if_pos hdata, htype hdata]
    · rw [if_neg hdata, if_neg hdata]

/-- The dependences of a graph as they are compared. -/
def comparedDeps (pdg : PDG V) : Multiset (Dep V) := pdg.deps.map compared

def SameNodes (pdg1 pdg2 : PDG V) : Prop := ∀ v, pdg1.HasValue v ↔ pdg2.HasValue v

/-- The comparison decides whether the two graphs have the same nodes and, with all their
copies, the same dependences, and it changes neither of them. -/
structure DecidesEquality (pdg1 pdg2 : PDG V) : Prop where
  result_iff : (comparePDGs ord pdg1 pdg2).1 = true ↔
    SameNodes pdg1 pdg2 ∧ comparedDeps pdg1 = comparedDeps pdg2
  unchanged₁ : (comparePDGs ord pdg1 pdg2).2.1 = pdg1
  unchanged₂ : (comparePDGs ord pdg1 pdg2).2.2 = pdg2

/-- A graph with the same number of nodes has all nodes of the first one; and if the nodes
and the numbers of dependences are the same and every dependence of the first graph is one
of the second, then none has more copies in the first graph. -/
structure NoHiddenDifference (pdg1 pdg2 : PDG V) : Prop where
  nodes : pdg1.numNodes = pdg2.numNodes → ∀ v, pdg1.HasValue v → pdg2.HasValue v
  copies : SameNodes pdg1 pdg2 → pdg1.numEdges = pdg2.numEdges →
    (∀ d ∈ comparedDeps pdg1, d ∈ comparedDeps pdg2) →
    ∀ d, (comparedDeps pdg1).count d ≤ (comparedDeps pdg2).count d

/-! ## Nodes -/

variable {ord} {pdg1 pdg2 : PDG V}

theorem isInGraph_iff_hasValue (h : pdg2.Clean) {v : V} :
    pdg2.isInGraph v = true ↔ pdg2.HasValue v := by
  constructor
  · intro hv
    obtain ⟨n, hn⟩ := h.toWF.exists_nodeOf hv
    exact ⟨n, h.toWF.nodeOf_mem hn⟩
  · rintro ⟨n, hn, rfl⟩
    exact DG.isInGraph_of_nodeOf (h.mapped n hn)

theorem fetchNode_of_hasValue (h : pdg2.Clean) {v : V} (hv : pdg2.HasValue v) :
    ∃ n, pdg2.fetchNode v = (some n, pdg2) := by
  have hin := (isInGraph_iff_hasValue h).mpr hv
  obtain ⟨n, hn⟩ := h.toWF.exists_nodeOf hin
  exact ⟨n, by rw [DG.fetchNode_of_isInGraph hin, hn]⟩

theorem fetchNode_of_not_hasValue (h : pdg2.Clean) {v : V} (hv : ¬ pdg2.HasValue v) :
    (pdg2.fetchNode v).1 = none ∧ (pdg2.fetchNode v).2 ≠ pdg2 := by
  have hin : pdg2.isInGraph v = false := by
    rw [← Bool.not_eq_true, isInGraph_iff_hasValue h]
    exact hv
  have hint : pdg2.internalNodeMap.lookup v = none := by
    simpa [DG.isInGraph, DG.isInternal, DG.isExternal] using (Bool.or_eq_false_iff.mp hin).1
  have hext : pdg2.externalNodeMap.lookup v = none := by
    simpa [DG.isInGraph, DG.isInternal, DG.isExternal] using (Bool.or_eq_false_iff.mp hin).2
  unfold DG.fetchNode
  rw [hint, hext]
  refine ⟨rfl, fun heq => ?_⟩
  have hlookup := congrArg (fun g : PDG V => g.externalNodeMap.lookup v) heq
  simp [hext] at hlookup

/-- A value without a node gets one, and the answer is no. -/
theorem compareNodesFrom_spec (h : pdg2.Clean) : ∀ nodes : List (DGNode V),
    ((∀ n ∈ nodes, pdg2.HasValue n.theT) → compareNodesFrom pdg2 nodes = (true, pdg2)) ∧
      (¬ (∀ n ∈ nodes, pdg2.HasValue n.theT) →
        (compareNodesFrom pdg2 nodes).1 = false ∧ (compareNodesFrom pdg2 nodes).2 ≠ pdg2)
  | [] => ⟨fun _ => rfl, fun hnot => absurd nofun hnot⟩
  | node :: nodes => by
      obtain ⟨hall, hnot⟩ := compareNodesFrom_spec h nodes
      by_cases hnode : pdg2.HasValue node.theT
      · obtain ⟨n, hn⟩ := fetchNode_of_hasValue h hnode
        have hstep : compareNodesFrom pdg2 (node :: nodes) = compareNodesFrom pdg2 nodes := by
          rw [compareNodesFrom, hn]
        rw [hstep, forall_mem_cons]
        exact ⟨fun hmem => hall hmem.2, fun hmem => hnot fun hrest => hmem ⟨hnode, hrest⟩⟩
      · obtain ⟨hnone, hchanged⟩ := fetchNode_of_not_hasValue h hnode
        have hstep : compareNodesFrom pdg2 (node :: nodes) = (false, (pdg2.fetchNode node.theT).2) := by
          rw [compareNodesFrom]
          rw [← Prod.eta (pdg2.fetchNode node.theT), hnone]
        rw [hstep]
        exact ⟨fun hmem => absurd (hmem node (.head _)) hnode, fun _ => ⟨rfl, hchanged⟩⟩

/-! ## Dependences -/

theorem hasValue_of_edge (h : pdg1.Clean) {e : DGEdge V} (he : e ∈ pdg1.allEdges) :
    pdg1.HasValue e.getSrc ∧ pdg1.HasValue e.getDst :=
  ⟨⟨_, h.toWF.nodeOf_mem (h.edge_mapped e he).1⟩, ⟨_, h.toWF.nodeOf_mem (h.edge_mapped e he).2⟩⟩

/-- The edges between two values with nodes. -/
theorem getDependences_spec (h : pdg2.Clean) {v w : V} (hv : pdg2.HasValue v)
    (hw : pdg2.HasValue w) : ∃ edgeSet, PDG.getDependences pdg2 v w = (edgeSet, pdg2) ∧
      ∀ e, e ∈ edgeSet ↔ e ∈ pdg2.allEdges ∧ e.getSrc = v ∧ e.getDst = w := by
  obtain ⟨n, hn⟩ := fetchNode_of_hasValue h hv
  obtain ⟨m, hm⟩ := fetchNode_of_hasValue h hw
  have hnode : pdg2.nodeOf v = some n := by rw [DG.nodeOf, hn]
  have hnode' : pdg2.nodeOf w = some m := by rw [DG.nodeOf, hm]
  refine ⟨pdg2.fetchEdges n m, by simp only [PDG.getDependences, hn, hm], fun e => ?_⟩
  rw [DG.fetchEdges, PtrSet.mem_filter, h.mem_outgoing n (h.toWF.nodeOf_mem hnode).1,
    decide_eq_true_eq]
  constructor
  · rintro ⟨⟨he, rfl⟩, rfl⟩
    exact ⟨he, (h.toWF.nodeOf_mem hnode).2, (h.toWF.nodeOf_mem hnode').2⟩
  · rintro ⟨he, rfl, rfl⟩
    obtain ⟨hsrc, hdst⟩ := h.edge_mapped e he
    exact ⟨⟨he, Option.mem_unique hsrc hnode⟩, Option.mem_unique hdst hnode'⟩

omit [DecidableEq V] in
/-- Two edges between the same values are equal for the comparison if and only if they
stand for the same dependence. -/
theorem areEquals_iff {edge1 edge2 : DGEdge V} (hsrc : edge2.getSrc = edge1.getSrc)
    (hdst : edge2.getDst = edge1.getDst) : areEquals pdg1 pdg2 edge1 edge2 = true ↔
      compared (edge1.dep pdg1.edgeAttr) = compared (edge2.dep pdg2.edgeAttr) := by
  rw [compared_eq_iff]
  simp only [areEquals, DGEdge.dep, hsrc, hdst, Bool.and_eq_true, decide_eq_true_eq,
    Bool.or_eq_true, Bool.not_eq_true', true_and]
  constructor
  · rintro ⟨⟨hkind, hlc⟩, htype⟩
    exact ⟨hkind, hlc, fun hdata => htype.resolve_left (by simp [hdata])⟩
  · rintro ⟨hkind, hlc, htype⟩
    refine ⟨⟨hkind, hlc⟩, ?_⟩
    cases hdata : edge1.kind.isData with
    | false => exact .inl rfl
    | true => exact .inr (htype hdata)

/-- The loop finds every dependence of the list or stops at one that is missing. -/
theorem compareEdgesFrom_spec (h₁ : pdg1.Clean) (h₂ : pdg2.Clean)
    (hnodes : ∀ v, pdg1.HasValue v → pdg2.HasValue v) : ∀ edges : List (DGEdge V),
    (∀ e ∈ edges, e ∈ pdg1.allEdges) → ∃ found, compareEdgesFrom pdg1 pdg2 edges = (found, pdg2) ∧
      (found = true ↔ ∀ e ∈ edges, compared (e.dep pdg1.edgeAttr) ∈ comparedDeps pdg2)
  | [], _ => ⟨true, rfl, iff_of_true rfl nofun⟩
  | edge :: edges, hedges => by
      obtain ⟨he, hrest⟩ := forall_mem_cons.mp hedges
      obtain ⟨found, hfound, hiff⟩ := compareEdgesFrom_spec h₁ h₂ hnodes edges hrest
      have hvalues := hasValue_of_edge h₁ he
      obtain ⟨edgeSet, hset, hmem⟩ :=
        getDependences_spec h₂ (hnodes _ hvalues.1) (hnodes _ hvalues.2)
      have hany : edgeSet.elems.any (areEquals pdg1 pdg2 edge) = true ↔
          compared (edge.dep pdg1.edgeAttr) ∈ comparedDeps pdg2 := by
        simp only [any_eq_true, comparedDeps, DG.deps, Multiset.map_map, Multiset.mem_map,
          Multiset.mem_coe, Function.comp_apply, PtrSet.mem_elems, hmem]
        constructor
        · rintro ⟨e, ⟨hmem', hsrc, hdst⟩, heq⟩
          exact ⟨e, hmem', ((areEquals_iff hsrc hdst).mp heq).symm⟩
        · rintro ⟨e, hmem', heq⟩
          have hsrc : e.getSrc = edge.getSrc := congrArg Dep.src heq
          have hdst : e.getDst = edge.getDst := congrArg Dep.dst heq
          exact ⟨e, ⟨hmem', hsrc, hdst⟩, (areEquals_iff hsrc hdst).mpr heq.symm⟩
      rw [compareEdgesFrom, hset, forall_mem_cons]
      dsimp only
      by_cases hmatch : edgeSet.elems.any (areEquals pdg1 pdg2 edge) = true
      · rw [if_pos hmatch]
        exact ⟨found, hfound, hiff.trans ⟨fun hall => ⟨hany.mp hmatch, hall⟩, And.right⟩⟩
      · rw [if_neg hmatch]
        exact ⟨false, rfl, fun hno => Bool.noConfusion hno, fun hall => absurd (hany.mpr hall.1) hmatch⟩

variable (ord) in
/-- The edges agree if every compared dependence is in the other graph. -/
theorem compareEdgesWith_spec (h₁ : pdg1.Clean) (h₂ : pdg2.Clean)
    (hnodes : ∀ v, pdg1.HasValue v → pdg2.HasValue v) :
    ∃ found, compareEdgesWith ord pdg1 pdg2 = (found, pdg2) ∧
      (found = true ↔ ∀ d ∈ comparedDeps pdg1, d ∈ comparedDeps pdg2) := by
  obtain ⟨found, hfound, hiff⟩ := compareEdgesFrom_spec h₁ h₂ hnodes
    (ord.visit pdg1.allEdges.elems) fun e he => ord.mem_visit.mp he
  refine ⟨found, hfound, hiff.trans ⟨fun hall d hd => ?_, fun hall e he => ?_⟩⟩
  · obtain ⟨_, hdep, rfl⟩ := Multiset.mem_map.mp hd
    obtain ⟨e, he, rfl⟩ := Multiset.mem_map.mp hdep
    exact hall e (ord.mem_visit.mpr he)
  · exact hall _ (Multiset.mem_map_of_mem _ (Multiset.mem_map_of_mem _ (ord.mem_visit.mp he)))

/-! ## The answer -/

omit [DecidableEq V] in
theorem card_comparedDeps (pdg : PDG V) : (comparedDeps pdg).card = pdg.numEdges := by
  simp [comparedDeps, DG.deps, DG.numEdges, PtrSet.size]

omit [DecidableEq V] in
theorem mem_values {v : V} : v ∈ pdg1.allNodes.elems.map DGNode.theT ↔ pdg1.HasValue v := by
  simp [PDG.HasValue]

theorem nodup_values (h : pdg1.Clean) : (pdg1.allNodes.elems.map DGNode.theT).Nodup := by
  refine List.Nodup.map_on (fun n hn m hm heq => ?_) pdg1.allNodes.nodup
  have hmapped := h.mapped n hn
  rw [heq, h.mapped m hm] at hmapped
  exact (Option.some.inj hmapped).symm

theorem numNodes_eq (h₁ : pdg1.Clean) (h₂ : pdg2.Clean) (hsame : SameNodes pdg1 pdg2) :
    pdg1.numNodes = pdg2.numNodes := by
  have hperm : (pdg1.allNodes.elems.map DGNode.theT).Perm (pdg2.allNodes.elems.map DGNode.theT) :=
    (perm_ext_iff_of_nodup (nodup_values h₁) (nodup_values h₂)).mpr fun v => by
      rw [mem_values, mem_values, hsame v]
  simpa [DG.numNodes, PtrSet.size] using hperm.length_eq

theorem sameNodes_of_numNodes (h₁ : pdg1.Clean) (hnum : pdg1.numNodes = pdg2.numNodes)
    (hnodes : ∀ v, pdg1.HasValue v → pdg2.HasValue v) : SameNodes pdg1 pdg2 := by
  have hsub : (pdg1.allNodes.elems.map DGNode.theT).Subperm
      (pdg2.allNodes.elems.map DGNode.theT) :=
    subperm_of_subset (nodup_values h₁) fun v hv => mem_values.mpr (hnodes v (mem_values.mp hv))
  have hperm := hsub.perm_of_length_le (by
    rw [length_map, length_map]
    exact Nat.le_of_eq hnum.symm)
  exact fun v => by rw [← mem_values, ← mem_values, hperm.mem_iff]

variable (ord) in
/-- Graphs with other nodes: the answer is no, and a graph changes if a node is looked up
that it does not have. -/
theorem comparePDGs_of_not_sameNodes (h₁ : pdg1.Clean) (h₂ : pdg2.Clean)
    (hsame : ¬ SameNodes pdg1 pdg2) : (comparePDGs ord pdg1 pdg2).1 = false ∧
      (comparePDGs ord pdg1 pdg2).2.1 = pdg1 ∧
      ((comparePDGs ord pdg1 pdg2).2.2 = pdg2 ↔ pdg1.numNodes ≠ pdg2.numNodes) := by
  by_cases hnum : pdg1.numNodes = pdg2.numNodes
  · have hnot : ¬ ∀ n ∈ ord.visit pdg1.allNodes.elems, pdg2.HasValue n.theT := by
      intro hall
      refine hsame (sameNodes_of_numNodes h₁ hnum fun v hv => ?_)
      obtain ⟨n, hn, rfl⟩ := hv
      exact hall n (ord.mem_visit.mpr hn)
    obtain ⟨hfalse, hchanged⟩ := (compareNodesFrom_spec h₂ _).2 hnot
    have hnodes : compareNodes ord pdg1 pdg2 = (false, (compareNodes ord pdg1 pdg2).2) :=
      Prod.ext (by rw [compareNodes, if_neg (not_not.mpr hnum)]; exact hfalse) rfl
    have hchanged' : (compareNodes ord pdg1 pdg2).2 ≠ pdg2 := by
      rw [compareNodes, if_neg (not_not.mpr hnum)]
      exact hchanged
    rw [comparePDGs, hnodes]
    exact ⟨rfl, rfl, iff_of_false hchanged' fun hne => hne hnum⟩
  · have hnodes : compareNodes ord pdg1 pdg2 = (false, pdg2) := if_pos hnum
    rw [comparePDGs, hnodes]
    exact ⟨rfl, rfl, iff_of_true rfl hnum⟩

variable (ord) in
/-- Graphs with the same nodes stay as they are, and the answer is yes if they have the
same number of dependences and all dependences of the first one are found in the second. -/
theorem comparePDGs_of_sameNodes (h₁ : pdg1.Clean) (h₂ : pdg2.Clean)
    (hsame : SameNodes pdg1 pdg2) : ∃ result, comparePDGs ord pdg1 pdg2 = (result, pdg1, pdg2) ∧
      (result = true ↔ pdg1.numEdges = pdg2.numEdges ∧
        ∀ d ∈ comparedDeps pdg1, d ∈ comparedDeps pdg2) := by
  have hnodes : compareNodes ord pdg1 pdg2 = (true, pdg2) := by
    rw [compareNodes, if_neg (not_not.mpr (numNodes_eq h₁ h₂ hsame))]
    exact (compareNodesFrom_spec h₂ _).1 fun n hn =>
      (hsame n.theT).mp ⟨n, ord.mem_visit.mp hn, rfl⟩
  obtain ⟨found, hfound, hiff⟩ := compareEdgesWith_spec ord h₁ h₂ fun v => (hsame v).mp
  obtain ⟨found', hfound', _⟩ := compareEdgesWith_spec ord h₂ h₁ fun v => (hsame v).mpr
  rw [comparePDGs, hnodes]
  dsimp only
  rw [if_pos rfl, compareEdges, hfound]
  dsimp only
  rw [hfound']
  by_cases hnum : pdg1.numEdges = pdg2.numEdges
  · rw [if_neg (not_not.mpr hnum)]
    exact ⟨found, rfl, hiff.trans (and_iff_right hnum).symm⟩
  · rw [if_pos hnum]
    exact ⟨false, rfl, fun hno => Bool.noConfusion hno, fun hboth => absurd hboth.1 hnum⟩

/-- **Comparing two graphs** decides their equality and leaves them as they are if and only
if no difference between them is hidden. -/
theorem comparePDGs_decidesEquality_iff (h₁ : pdg1.Clean) (h₂ : pdg2.Clean) :
    DecidesEquality ord pdg1 pdg2 ↔ NoHiddenDifference pdg1 pdg2 := by
  by_cases hsame : SameNodes pdg1 pdg2
  · obtain ⟨result, hresult, hiff⟩ := comparePDGs_of_sameNodes ord h₁ h₂ hsame
    constructor
    · intro hdecides
      refine ⟨fun _ v => (hsame v).mp, fun _ hnum hsub d => ?_⟩
      have htrue : (comparePDGs ord pdg1 pdg2).1 = true := by
        rw [hresult]
        exact hiff.mpr ⟨hnum, hsub⟩
      rw [(hdecides.result_iff.mp htrue).2]
    · intro hno
      refine ⟨?_, by rw [hresult], by rw [hresult]⟩
      rw [hresult]
      refine hiff.trans ⟨fun hfound => ⟨hsame, ?_⟩, fun heq => ⟨?_, fun d hd => heq.2 ▸ hd⟩⟩
      · -- fewer copies of everything, and as many dependences
        have hle : comparedDeps pdg1 ≤ comparedDeps pdg2 :=
          Multiset.le_iff_count.mpr (hno.copies hsame hfound.1 hfound.2)
        refine Multiset.eq_of_le_of_card_le hle ?_
        rw [card_comparedDeps, card_comparedDeps]
        exact Nat.le_of_eq hfound.1.symm
      · rw [← card_comparedDeps, ← card_comparedDeps, heq.2]
  · obtain ⟨hfalse, hfirst, hsecond⟩ := comparePDGs_of_not_sameNodes ord h₁ h₂ hsame
    constructor
    · intro hdecides
      exact ⟨fun hnum => absurd hnum (hsecond.mp hdecides.unchanged₂), fun h => absurd h hsame⟩
    · intro hno
      have hnum : pdg1.numNodes ≠ pdg2.numNodes := fun hnum =>
        hsame (sameNodes_of_numNodes h₁ hnum (hno.nodes hnum))
      refine ⟨?_, hfirst, hsecond.mpr hnum⟩
      rw [hfalse]
      exact iff_of_false Bool.false_ne_true fun heq => hsame heq.1

/-! ## Surplus copies -/

/-- `y = x + x` and `z = y * 2`: both uses of `x`, and not the use of `y`. -/
def surplusHistory : List (DG.Op Nat (DGEdge Nat)) :=
  [.addNode 1 true, .addNode 2 true, .addNode 3 true, .addVariableDataDependenceEdge 1 2 .raw,
    .addVariableDataDependenceEdge 1 2 .raw]

/-- One use of `x`, and the use of `y`. -/
def missingHistory : List (DG.Op Nat (DGEdge Nat)) :=
  [.addNode 1 true, .addNode 2 true, .addNode 3 true, .addVariableDataDependenceEdge 1 2 .raw,
    .addVariableDataDependenceEdge 2 3 .raw]

def surplusPdg : PDG Nat :=
  (DG.execute (fun _ => false) (DG.empty 0) surplusHistory).getD (DG.empty 0)

def missingPdg : PDG Nat :=
  (DG.execute (fun _ => false) (DG.empty 1) missingHistory).getD (DG.empty 1)

theorem surplusPdg_clean : surplusPdg.Clean := DG.clean_of_history _ 0 (by decide)

theorem missingPdg_clean : missingPdg.Clean := DG.clean_of_history _ 1 (by decide)

/-- The second use of `x` stands for the use of `y` that only the other graph has; the
other way round the difference is found. -/
theorem comparePDGs_surplus : surplusPdg.Clean ∧ missingPdg.Clean ∧
    (comparePDGs .stored surplusPdg missingPdg).1 = true ∧
    (comparePDGs .stored missingPdg surplusPdg).1 = false ∧
    ¬ DecidesEquality .stored surplusPdg missingPdg := by
  have htrue : (comparePDGs .stored surplusPdg missingPdg).1 = true := by decide +kernel
  refine ⟨surplusPdg_clean, missingPdg_clean, htrue, by decide +kernel, fun hdecides => ?_⟩
  have heq := (hdecides.result_iff.mp htrue).2
  have hcount : (comparedDeps surplusPdg).count ⟨1, 2, .variableDependence, some .raw, false⟩ ≠
      (comparedDeps missingPdg).count ⟨1, 2, .variableDependence, some .raw, false⟩ := by
    decide +kernel
  exact hcount (by rw [heq])

theorem comparePDGs_decidesEquality_iff_missing :
    DecidesEquality .stored missingPdg surplusPdg ↔ NoHiddenDifference missingPdg surplusPdg :=
  comparePDGs_decidesEquality_iff missingPdg_clean surplusPdg_clean

end PDGGenerator

end Noelle
