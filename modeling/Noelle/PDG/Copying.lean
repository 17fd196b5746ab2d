import Noelle.PDG.Subgraph

/-!
# PDG.Copying

Copying some nodes of a graph into an empty one.

The copy has a node for the value of each, of the same inclusion, and a copy of every
dependence between two of them.  An undefined dependence cannot be copied, so the copy
exists unless the nodes have one among themselves.
-/

namespace Noelle

open List

namespace DG

variable {T S : Type} [DecidableEq T]

/-- The dependences between two nodes of a set. -/
def inducedEdges (g : DG T S) (nodes : PtrSet (DGNode T)) : List (DGEdge T) :=
  g.allEdges.elems.filter fun e => decide (e.srcNode ∈ nodes ∧ e.dstNode ∈ nodes)

/-- The sub-graph that some nodes induce. -/
structure IsInducedSubgraph (g : DG T S) (nodes : PtrSet (DGNode T)) (entryNode : DGNode T)
    (g' : DG T S) : Prop where
  clean : g'.Clean
  isInternal_iff : ∀ t, g'.isInternal t = true ↔
    (∃ n ∈ nodes, n.theT = t) ∧ g.isInternal t = true
  isExternal_iff : ∀ t, g'.isExternal t = true ↔
    (∃ n ∈ nodes, n.theT = t) ∧ g.isExternal t = true
  entryNode_eq : g'.entryNode = g'.nodeOf entryNode.theT
  contents_eq : g'.contents = (g.inducedEdges nodes : Multiset (DGEdge T)).map g.edgeContents

variable {g g' : DG T S} {nodes : PtrSet (DGNode T)}

theorem mem_inducedEdges {e : DGEdge T} :
    e ∈ g.inducedEdges nodes ↔ e ∈ g.allEdges ∧ e.srcNode ∈ nodes ∧ e.dstNode ∈ nodes := by
  simp [inducedEdges]

/-! ## The nodes -/

/-- The body of the first loop of `copyNodesIntoNewGraph`. -/
def copyNode (g : DG T S) (entryNode : DGNode T) (newGraph : DG T S) (node : DGNode T) : DG T S :=
  let (clonedNode, newGraph) := newGraph.addNode node.theT (g.isInternal node.theT)
  if node.theT = entryNode.theT then newGraph.setEntryNode clonedNode else newGraph

/-- A graph with the copies of some nodes. -/
structure CopiedNodes (g : DG T S) (l : List (DGNode T)) (entryNode : DGNode T) (g' : DG T S) :
    Prop where
  clean : g'.Clean
  isInternal_iff : ∀ t, g'.isInternal t = true ↔ (∃ n ∈ l, n.theT = t) ∧ g.isInternal t = true
  isExternal_iff : ∀ t, g'.isExternal t = true ↔ (∃ n ∈ l, n.theT = t) ∧ g.isExternal t = true
  entryNode_eq : (∃ n ∈ l, n.theT = entryNode.theT) → g'.entryNode = g'.nodeOf entryNode.theT
  contents_eq : g'.contents = 0

/-- One more node is copied. -/
theorem CopiedNodes.copyNode {l : List (DGNode T)} {entryNode n : DGNode T}
    (h : CopiedNodes g l entryNode g') (hg : g.Clean) (hn : n ∈ g.allNodes)
    (hnew : ∀ m ∈ l, m.theT ≠ n.theT) :
    CopiedNodes g (l ++ [n]) entryNode (copyNode g entryNode g' n) := by
  have hin := isInGraph_iff.mp (isInGraph_of_nodeOf (hg.mapped n hn))
  have hout : g'.isInGraph n.theT = false := by
    rw [← Bool.not_eq_true, isInGraph_iff, h.isInternal_iff, h.isExternal_iff]
    rintro (⟨⟨m, hm, heq⟩, _⟩ | ⟨⟨m, hm, heq⟩, _⟩) <;> exact hnew m hm heq
  set g₁ := (g'.addNode n.theT (g.isInternal n.theT)).2 with hg₁
  have hclean : g₁.Clean := h.clean.addNode hout
  -- the entry node is no part of the rest
  have hcopy : ∃ entry, DG.copyNode g entryNode g' n = { g₁ with entryNode := entry } ∧
      ((n.theT = entryNode.theT ∧ entry = some (g'.newNode n.theT)) ∨
        (n.theT ≠ entryNode.theT ∧ entry = g'.entryNode)) := by
    by_cases heq : n.theT = entryNode.theT
    · exact ⟨_, if_pos heq, .inl ⟨heq, rfl⟩⟩
    · exact ⟨g'.entryNode, if_neg heq, .inr ⟨heq, rfl⟩⟩
  obtain ⟨entry, hcopy, hentry⟩ := hcopy
  rw [hcopy]
  have hmem : ∀ t, (∃ m ∈ l ++ [n], m.theT = t) ↔ n.theT = t ∨ ∃ m ∈ l, m.theT = t := by
    intro t
    simp only [mem_append, mem_singleton, or_and_right, exists_or, exists_eq_left, or_comm]
  refine ⟨⟨hclean.toWF.withAttr entry _, fun m hm => ?_⟩, fun t => ?_, fun t => ?_,
    fun hentry' => ?_, h.contents_eq⟩
  · rw [← hclean.mapped m hm]
    exact nodeOf_congr rfl rfl
  · show g₁.isInternal t = true ↔ _
    rw [hmem, hg₁, addNode_isInternal, Bool.or_eq_true, h.isInternal_iff]
    by_cases heq : t = n.theT
    · subst heq
      simp
    · simp [heq, Ne.symm heq]
  · show g₁.isExternal t = true ↔ _
    rw [hmem, hg₁, addNode_isExternal, Bool.or_eq_true, h.isExternal_iff]
    by_cases heq : t = n.theT
    · subst heq
      rcases hin with hin | hex
      · simp [hin, hg.disjoint n.theT hin]
      · cases hi : g.isInternal n.theT with
        | false => simp [hex]
        | true => exact absurd hex (by simp [hg.disjoint n.theT hi])
    · simp [heq, Ne.symm heq]
  · show entry = _
    have hnode : ∀ t, ({ g₁ with entryNode := entry } : DG T S).nodeOf t = g₁.nodeOf t := fun _ =>
      nodeOf_congr rfl rfl
    rw [hnode, hg₁]
    rcases hentry with ⟨heq, rfl⟩ | ⟨hne, rfl⟩
    · rw [← heq, addNode_nodeOf_self]
      intro _
      cases hi : g'.isInternal n.theT with
      | false => rfl
      | true => exact absurd (isInGraph_iff.mpr (.inl hi)) (by simp [hout])
    · rw [addNode_nodeOf_ne _ _ _ (Ne.symm hne)]
      exact h.entryNode_eq (((hmem _).mp hentry').resolve_left hne)

/-- The new graph holds copies of the nodes, and no edge. -/
theorem copyNodes_spec (hg : g.Clean) (entryNode : DGNode T) (self : Nat) {l : List (DGNode T)}
    (hnodup : l.Nodup) (hl : ∀ n ∈ l, n ∈ g.allNodes) :
    CopiedNodes g l entryNode (l.foldl (copyNode g entryNode) (DG.empty self)) := by
  refine foldl_rule (copyNode g entryNode) (fun pre g' => CopiedNodes g pre entryNode g')
    ⟨empty_clean self, by simp, by simp, by simp, rfl⟩ ?_
  intro pre n post g' hsplit h
  have hn : n ∈ g.allNodes := hl n (by simp [hsplit])
  refine h.copyNode hg hn fun m hm heq => ?_
  rw [hsplit] at hnodup
  obtain rfl := hg.node_ext (hl m (by simp [hsplit, hm])) hn heq
  exact (nodup_append.mp hnodup).2.2 m hm m (.head _) rfl

/-! ## The dependences -/

variable [DecidableEq S] (subLC : S → Bool)

/-- The body of the second loop of `copyNodesIntoNewGraph`. -/
def copyInducedEdge (g newGraph : DG T S) (edgeToCopy : DGEdge T) : Option (DG T S) :=
  if newGraph.isInGraph edgeToCopy.getDst then
    (newGraph.copyAddEdge subLC edgeToCopy (g.edgeAttr edgeToCopy)).map (·.2)
  else some newGraph

/-- A graph with the nodes of `g₀`, and the contents of `g₀` and of some copied edges. -/
structure CopiedEdges (g g₀ : DG T S) (l : List (DGEdge T)) (g' : DG T S) : Prop where
  clean : g'.Clean
  isInternal_eq : ∀ t, g'.isInternal t = g₀.isInternal t
  isExternal_eq : ∀ t, g'.isExternal t = g₀.isExternal t
  nodeOf_eq : ∀ t, g'.nodeOf t = g₀.nodeOf t
  entryNode_eq : g'.entryNode = g₀.entryNode
  contents_eq : g'.contents = (l : Multiset (DGEdge T)).map (g.copyContents subLC) + g₀.contents

variable {subLC} {g₀ : DG T S}

theorem CopiedEdges.isInGraph_eq {l : List (DGEdge T)} (h : CopiedEdges subLC g g₀ l g') (t : T) :
    g'.isInGraph t = g₀.isInGraph t := by
  rw [isInGraph, h.isInternal_eq, h.isExternal_eq, isInGraph]

/-- One more edge is copied if both its ends are. -/
theorem CopiedEdges.copyEdge {l : List (DGEdge T)} (h : CopiedEdges subLC g g₀ l g') (e : DGEdge T)
    (hsrc : g₀.isInGraph e.getSrc = true) :
    (g₀.isInGraph e.getDst = true → e.kind = .undefinedDependence →
      copyInducedEdge subLC g g' e = none) ∧
    ((g₀.isInGraph e.getDst = true → e.kind ≠ .undefinedDependence) →
      ∃ g'', copyInducedEdge subLC g g' e = some g'' ∧
        CopiedEdges subLC g g₀ (l ++ [e].filter fun e => g₀.isInGraph e.getDst) g'') := by
  unfold copyInducedEdge
  rw [h.isInGraph_eq]
  refine ⟨fun hdst hundef => ?_, fun hkind => ?_⟩
  · rw [if_pos hdst, copyAddEdge, hundef]
    rfl
  by_cases hdst : g₀.isInGraph e.getDst = true
  · obtain ⟨e', g'', hadd, hclean, hin, hex, hcontents, hnode, hentry⟩ :=
      @Clean.copyAddEdge T S _ _ g' g h.clean subLC e (hkind hdst) ((h.isInGraph_eq _).trans hsrc)
        ((h.isInGraph_eq _).trans hdst)
    refine ⟨g'', by rw [if_pos hdst, hadd]; rfl, hclean, fun t => (hin t).trans (h.isInternal_eq t),
      fun t => (hex t).trans (h.isExternal_eq t), fun t => (hnode t).trans (h.nodeOf_eq t),
      hentry.trans h.entryNode_eq, ?_⟩
    have hfilter : [e].filter (fun e => g₀.isInGraph e.getDst) = [e] := by simp [hdst]
    rw [hcontents, h.contents_eq, hfilter, ← Multiset.coe_add, Multiset.map_add,
      Multiset.coe_singleton, Multiset.map_singleton, ← Multiset.singleton_add, ← add_assoc]
    exact congrArg (· + g₀.contents) (add_comm _ _)
  · have hfilter : [e].filter (fun e => g₀.isInGraph e.getDst) = [] := by simp [hdst]
    rw [if_neg hdst, hfilter, append_nil]
    exact ⟨g', rfl, h⟩

/-- All the edges are copied, unless one has an undefined kind. -/
theorem CopiedEdges.copyEdges (h : CopiedEdges subLC g g₀ [] g₀) {l : List (DGEdge T)}
    (hsrc : ∀ e ∈ l, g₀.isInGraph e.getSrc = true) :
    ((∃ e ∈ l, g₀.isInGraph e.getDst = true ∧ e.kind = .undefinedDependence) →
      l.foldlM (copyInducedEdge subLC g) g₀ = none) ∧
    ((∀ e ∈ l, g₀.isInGraph e.getDst = true → e.kind ≠ .undefinedDependence) →
      ∃ g', l.foldlM (copyInducedEdge subLC g) g₀ = some g' ∧
        CopiedEdges subLC g g₀ (l.filter fun e => g₀.isInGraph e.getDst) g') := by
  have hstep : ∀ pre e post g', l = pre ++ e :: post →
      CopiedEdges subLC g g₀ (pre.filter fun e => g₀.isInGraph e.getDst) g' →
      ¬ (g₀.isInGraph e.getDst = true ∧ e.kind = .undefinedDependence) →
      ∃ g'', copyInducedEdge subLC g g' e = some g'' ∧
        CopiedEdges subLC g g₀ ((pre ++ [e]).filter fun e => g₀.isInGraph e.getDst) g'' := by
    intro pre e post g' hsplit h hgood
    rw [filter_append]
    exact (h.copyEdge e (hsrc e (by simp [hsplit]))).2 fun hdst hundef => hgood ⟨hdst, hundef⟩
  constructor
  · refine foldlM_eq_none _ (fun pre => CopiedEdges subLC g g₀
      (pre.filter fun e => g₀.isInGraph e.getDst)) _ h hstep ?_
    intro pre e post g' hsplit h hbad
    exact (h.copyEdge e (hsrc e (by simp [hsplit]))).1 hbad.1 hbad.2
  · intro hkind
    refine foldlM_rule _ (fun pre => CopiedEdges subLC g g₀
      (pre.filter fun e => g₀.isInGraph e.getDst)) h ?_
    intro pre e post g' hsplit h
    exact hstep pre e post g' hsplit h fun hbad => hkind e (by simp [hsplit]) hbad.1 hbad.2

/-! ## Copying -/

/-- The edges that the second loop looks at. -/
def visitedEdges (ord : IterOrder) (g : DG T S) (nodes : PtrSet (DGNode T)) : List (DGEdge T) :=
  (ord.visit nodes.elems).flatMap fun node => ord.visit (g.outgoingEdges node).elems

theorem copyNodesIntoNewGraph_eq (ord : IterOrder) (subLC : S → Bool) (g : DG T S) (self : Nat)
    (nodes : PtrSet (DGNode T)) (entryNode : DGNode T) :
    g.copyNodesIntoNewGraph ord subLC (DG.empty self) nodes entryNode =
      (visitedEdges ord g nodes).foldlM (copyInducedEdge subLC g)
        ((ord.visit nodes.elems).foldl (copyNode g entryNode) (DG.empty self)) :=
  foldlM_flatMap (fun node => ord.visit (g.outgoingEdges node).elems) (copyInducedEdge subLC g) _ _

section

omit [DecidableEq S]

theorem mem_visitedEdges (hg : g.WF) (hnodes : ∀ n ∈ nodes, n ∈ g.allNodes) (ord : IterOrder)
    {e : DGEdge T} : e ∈ visitedEdges ord g nodes ↔ e ∈ g.allEdges ∧ e.srcNode ∈ nodes := by
  simp only [visitedEdges, mem_flatMap, ord.mem_visit, PtrSet.mem_elems]
  constructor
  · rintro ⟨n, hn, hout⟩
    obtain ⟨he, rfl⟩ := (hg.mem_outgoing n (hnodes n hn) e).mp hout
    exact ⟨he, hn⟩
  · rintro ⟨he, hsrc⟩
    exact ⟨e.srcNode, hsrc, (hg.mem_outgoing _ (hnodes _ hsrc) e).mpr ⟨he, rfl⟩⟩

theorem visitedEdges_nodup (hg : g.WF) (hnodes : ∀ n ∈ nodes, n ∈ g.allNodes) (ord : IterOrder) :
    (visitedEdges ord g nodes).Nodup := by
  refine nodup_flatMap.mpr ⟨fun n _ => ord.nodup_visit (g.outgoingEdges n).nodup, ?_⟩
  refine (ord.nodup_visit nodes.nodup).imp_of_mem fun {n m} hn hm hne e hen hem => ?_
  have hn' := hnodes n (ord.mem_visit.mp hn)
  have hm' := hnodes m (ord.mem_visit.mp hm)
  exact hne (((hg.mem_outgoing n hn' e).mp (ord.mem_visit.mp hen)).2.symm.trans
    ((hg.mem_outgoing m hm' e).mp (ord.mem_visit.mp hem)).2)

theorem CopiedNodes.isInGraph_iff {l : List (DGNode T)} {entryNode : DGNode T}
    (h : CopiedNodes g l entryNode g') (hg : g.Clean) (hl : ∀ n ∈ l, n ∈ g.allNodes) (t : T) :
    g'.isInGraph t = true ↔ ∃ n ∈ l, n.theT = t := by
  rw [DG.isInGraph_iff, h.isInternal_iff, h.isExternal_iff, ← and_or_left, ← DG.isInGraph_iff]
  refine and_iff_left_of_imp ?_
  rintro ⟨n, hn, rfl⟩
  exact isInGraph_of_nodeOf (hg.mapped n (hl n hn))

end

/-- The copy fails exactly on an edge of undefined kind. -/
theorem copyNodesIntoNewGraph_spec (ord : IterOrder) (subLC : S → Bool) (hg : g.Clean) (self : Nat)
    (hnodes : ∀ n ∈ nodes, n ∈ g.allNodes) {entryNode : DGNode T} (hentry : entryNode ∈ nodes) :
    ((∃ e ∈ g.inducedEdges nodes, e.kind = .undefinedDependence) →
      g.copyNodesIntoNewGraph ord subLC (DG.empty self) nodes entryNode = none) ∧
    ((∀ e ∈ g.inducedEdges nodes, e.kind ≠ .undefinedDependence) →
      ∃ g', g.copyNodesIntoNewGraph ord subLC (DG.empty self) nodes entryNode = some g' ∧
        g'.contents = (g.inducedEdges nodes : Multiset (DGEdge T)).map (g.copyContents subLC) ∧
        (g'.contents = (g.inducedEdges nodes : Multiset (DGEdge T)).map g.edgeContents →
          IsInducedSubgraph g nodes entryNode g')) := by
  have hvisit : ∀ n ∈ ord.visit nodes.elems, n ∈ g.allNodes := fun n hn =>
    hnodes n (ord.mem_visit.mp hn)
  have h₀ := copyNodes_spec hg entryNode self (ord.nodup_visit nodes.nodup) hvisit
  rw [copyNodesIntoNewGraph_eq]
  set g₀ := (ord.visit nodes.elems).foldl (copyNode g entryNode) (DG.empty self)
  have hvalue : ∀ n ∈ g.allNodes, g₀.isInGraph n.theT = true ↔ n ∈ nodes := by
    intro n hn
    rw [h₀.isInGraph_iff hg hvisit]
    constructor
    · rintro ⟨m, hm, heq⟩
      exact hg.node_ext (hvisit m hm) hn heq ▸ ord.mem_visit.mp hm
    · exact fun hmem => ⟨n, ord.mem_visit.mpr hmem, rfl⟩
  have hsrc : ∀ e ∈ visitedEdges ord g nodes, g₀.isInGraph e.getSrc = true := fun e he =>
    have ⟨hmem, hs⟩ := (mem_visitedEdges hg.toWF hnodes ord).mp he
    (hvalue _ (hg.edge_nodes hmem).1).mpr hs
  -- the edges that are copied are the induced ones
  have hmem : ∀ e, e ∈ visitedEdges ord g nodes ∧ g₀.isInGraph e.getDst = true ↔
      e ∈ g.inducedEdges nodes := by
    intro e
    rw [mem_visitedEdges hg.toWF hnodes, mem_inducedEdges, and_assoc]
    refine and_congr_right fun he => and_congr_right fun _ => ?_
    exact hvalue _ (hg.edge_nodes he).2
  have hperm : ((visitedEdges ord g nodes).filter fun e => g₀.isInGraph e.getDst).Perm
      (g.inducedEdges nodes) := by
    refine (perm_ext_iff_of_nodup ((visitedEdges_nodup hg.toWF hnodes ord).filter _)
      (g.allEdges.nodup.filter _)).mpr fun e => ?_
    rw [mem_filter, hmem]
    rfl
  have hstart : CopiedEdges subLC g g₀ [] g₀ :=
    ⟨h₀.clean, fun _ => rfl, fun _ => rfl, fun _ => rfl, rfl, by simp⟩
  obtain ⟨hfail, hcopy⟩ := hstart.copyEdges hsrc
  refine ⟨?_, fun hkind => ?_⟩
  · rintro ⟨e, he, hundef⟩
    obtain ⟨hv, hdst⟩ := (hmem e).mpr he
    exact hfail ⟨e, hv, hdst, hundef⟩
  · obtain ⟨g', hg', h⟩ := hcopy fun e hv hdst => hkind e ((hmem e).mp ⟨hv, hdst⟩)
    have hcontents : g'.contents =
        (g.inducedEdges nodes : Multiset (DGEdge T)).map (g.copyContents subLC) := by
      rw [h.contents_eq, h₀.contents_eq, add_zero, Multiset.coe_eq_coe.mpr hperm]
    refine ⟨g', hg', hcontents, fun heq => ⟨h.clean, fun t => ?_, fun t => ?_, ?_, heq⟩⟩
    · rw [h.isInternal_eq, h₀.isInternal_iff]
      simp only [ord.mem_visit, PtrSet.mem_elems]
    · rw [h.isExternal_eq, h₀.isExternal_iff]
      simp only [ord.mem_visit, PtrSet.mem_elems]
    · rw [h.entryNode_eq, h.nodeOf_eq]
      exact h₀.entryNode_eq ⟨entryNode, ord.mem_visit.mpr hentry, rfl⟩

/-- Copying returns the induced sub-graph exactly if every dependence in it can be copied
with its flag. -/
theorem copyNodesIntoNewGraph_correct_iff (ord : IterOrder) (subLC : S → Bool) (hg : g.Clean)
    (self : Nat) (hnodes : ∀ n ∈ nodes, n ∈ g.allNodes) {entryNode : DGNode T}
    (hentry : entryNode ∈ nodes) :
    (∃ g', g.copyNodesIntoNewGraph ord subLC (DG.empty self) nodes entryNode = some g' ∧
        IsInducedSubgraph g nodes entryNode g') ↔
      ∀ e ∈ g.inducedEdges nodes, e.kind ≠ .undefinedDependence ∧ (g.edgeAttr e).Covers subLC := by
  obtain ⟨hfail, hcopy⟩ := copyNodesIntoNewGraph_spec ord subLC hg self hnodes hentry
  constructor
  · rintro ⟨g', hg', hsub⟩
    have hkind : ∀ e ∈ g.inducedEdges nodes, e.kind ≠ .undefinedDependence := fun e he hundef => by
      rw [hfail ⟨e, he, hundef⟩] at hg'
      cases hg'
    obtain ⟨g'', hg'', hcontents, _⟩ := hcopy hkind
    obtain rfl := Option.mem_unique hg' hg''
    have hcovers := covers_of_copyContents_eq (hcontents.symm.trans hsub.contents_eq)
    exact fun e he => ⟨hkind e he, hcovers e he⟩
  · intro hok
    obtain ⟨g', hg', hcontents, hsub⟩ := hcopy fun e he => (hok e he).1
    refine ⟨g', hg', hsub (hcontents.trans ?_)⟩
    exact Multiset.map_congr rfl fun e he =>
      (copyContents_eq_iff subLC g e).mpr (hok e (Multiset.mem_coe.mp he)).2

/-! ## Graphs that are built by adding dependences -/

/-- An operation that copies no dependence from another graph. -/
def Op.Adds : Op T S → Prop
  | .copyAddEdge _ _ => False
  | _ => True

def NoSubEdges (g : DG T S) : Prop := ∀ e ∈ g.allEdges, (g.edgeAttr e).subEdges = none

omit [DecidableEq S] in
theorem NoSubEdges.addDependenceEdge (h : g.NoSubEdges) (hg : g.Clean) {a b : T}
    (ha : g.isInGraph a = true) (hb : g.isInGraph b = true) {kind : DependenceKind}
    {t : Option DataDependenceType}
    (hadd : (g.addDependenceEdge a b kind t {}).map (·.2) = some g') : g'.NoSubEdges := by
  obtain ⟨na, hna⟩ := hg.exists_nodeOf ha
  obtain ⟨nb, hnb⟩ := hg.exists_nodeOf hb
  rw [addDependenceEdge_eq hna hnb] at hadd
  cases hadd
  intro e he
  rcases (mem_insertEdge_allEdges ..).mp he with rfl | he
  · rw [insertEdge_edgeAttr_self]
  · rw [hg.insertEdge_edgeAttr he]
    exact h e he

theorem NoSubEdges.apply (h : g.NoSubEdges) (hg : g.Clean) {op : Op T S} (hok : op.Ok g)
    (hadds : op.Adds) (hop : op.apply subLC g = some g') : g'.NoSubEdges := by
  cases op with
  | addNode t inclusion => exact Option.some.inj hop ▸ h
  | addVariableDataDependenceEdge a b t => exact h.addDependenceEdge hg hok.1 hok.2 hop
  | addMemoryDataDependenceEdge a b t isMust => exact h.addDependenceEdge hg hok.1 hok.2 hop
  | addControlDependenceEdge a b => exact h.addDependenceEdge hg hok.1 hok.2 hop
  | addUndefinedDependenceEdge a b => exact h.addDependenceEdge hg hok.1 hok.2 hop
  | copyAddEdge e attr => exact hadds.elim
  | removeEdge e =>
      cases hop
      intro e' he'
      have hmem := ((hg.mem_removeEdge_allEdges hok).mp he').2
      rw [hg.removeEdge_eq hok]
      exact h e' hmem
  | removeNode n =>
      cases hop
      intro e he
      rw [hg.removeNode_edgeAttr hok]
      exact h e ((hg.mem_removeNode_allEdges hok).mp he).1

theorem NoSubEdges.execute (h : g.NoSubEdges) (hg : g.Clean) {ops : List (Op T S)}
    (hadds : ∀ op ∈ ops, op.Adds) (hv : Valid subLC g ops)
    (hrun : execute subLC g ops = some g') : g'.Clean ∧ g'.NoSubEdges := by
  induction ops generalizing g with
  | nil => exact Option.some.inj hrun ▸ ⟨hg, h⟩
  | cons op ops ih =>
      obtain ⟨hok, hrest⟩ := hv
      obtain ⟨g₁, hg₁, hclean⟩ := hg.apply subLC hok
      rw [hg₁] at hrest
      unfold DG.execute at hrun
      rw [foldlM_cons, hg₁] at hrun
      exact ih (h.apply hg hok (hadds op (.head _)) hg₁) hclean
        (fun op hop => hadds op (.tail _ hop)) hrest hrun

/-- **Copying nodes**: in every graph that is built by adding nodes and dependences,
copying some nodes into an empty graph returns the sub-graph they induce if and only if
no undefined dependence joins two of them. -/
theorem copyNodesIntoNewGraph_induced_iff (ord : IterOrder) (subLC : S → Bool) {self : Nat}
    {ops : List (Op T S)} (hadds : ∀ op ∈ ops, op.Adds) (hv : Valid subLC (DG.empty self) ops)
    (hrun : execute subLC (DG.empty self) ops = some g) (self' : Nat)
    (hnodes : ∀ n ∈ nodes, n ∈ g.allNodes) {entryNode : DGNode T} (hentry : entryNode ∈ nodes) :
    (∃ g', g.copyNodesIntoNewGraph ord subLC (DG.empty self') nodes entryNode = some g' ∧
        IsInducedSubgraph g nodes entryNode g') ↔
      ∀ e ∈ g.allEdges, e.srcNode ∈ nodes → e.dstNode ∈ nodes → e.kind ≠ .undefinedDependence := by
  obtain ⟨hclean, hsubs⟩ := NoSubEdges.execute (fun e he => absurd he (PtrSet.not_mem_empty e))
    (empty_clean self) hadds hv hrun
  rw [copyNodesIntoNewGraph_correct_iff ord subLC hclean self' hnodes hentry]
  simp only [mem_inducedEdges]
  constructor
  · exact fun h e he hsrc hdst => (h e ⟨he, hsrc, hdst⟩).1
  · rintro h e ⟨he, hsrc, hdst⟩
    refine ⟨h e he hsrc hdst, fun s hs => ?_⟩
    rw [EdgeAttr.getSubEdges, hsubs e he] at hs
    exact absurd hs (PtrSet.not_mem_empty s)

/-- Two values and an undefined dependence. -/
def undefinedHistory : List (Op Nat Nat) :=
  [.addNode 1 true, .addNode 2 true, .addUndefinedDependenceEdge 1 2]

def undefinedGraph : DG Nat Nat :=
  (execute (fun _ => false) (DG.empty 0) undefinedHistory).getD (DG.empty 0)

theorem execute_undefinedHistory :
    Valid (fun _ => false) (DG.empty 0) undefinedHistory ∧
      execute (fun _ => false) (DG.empty 0) undefinedHistory = some undefinedGraph := by
  have hv : Valid (fun _ => false) (DG.empty 0) undefinedHistory := by decide
  obtain ⟨g, hg, _⟩ := (empty_clean 0).execute (fun _ => false) undefinedHistory hv
  refine ⟨hv, ?_⟩
  rw [undefinedGraph, hg]
  rfl

/-- An undefined dependence cannot be copied. -/
theorem copyNodesIntoNewGraph_undefinedGraph :
    ¬ ∃ g', undefinedGraph.copyNodesIntoNewGraph .stored (fun _ => false) (DG.empty 1)
        (PtrSet.ofList [⟨0, 0, 1⟩, ⟨0, 1, 2⟩]) ⟨0, 0, 1⟩ = some g' ∧
      IsInducedSubgraph undefinedGraph (PtrSet.ofList [⟨0, 0, 1⟩, ⟨0, 1, 2⟩]) ⟨0, 0, 1⟩ g' := by
  have hnone : (undefinedGraph.copyNodesIntoNewGraph .stored (fun _ => false) (DG.empty 1)
      (PtrSet.ofList [⟨0, 0, 1⟩, ⟨0, 1, 2⟩]) ⟨0, 0, 1⟩).isNone = true := by decide
  rintro ⟨g', hg', _⟩
  rw [hg'] at hnone
  exact Bool.false_ne_true hnone

theorem copyNodesIntoNewGraph_induced_iff_undefinedGraph :
    (∃ g', undefinedGraph.copyNodesIntoNewGraph .stored (fun _ => false) (DG.empty 1)
        (PtrSet.ofList [⟨0, 0, 1⟩]) ⟨0, 0, 1⟩ = some g' ∧
      IsInducedSubgraph undefinedGraph (PtrSet.ofList [⟨0, 0, 1⟩]) ⟨0, 0, 1⟩ g') ↔
      ∀ e ∈ undefinedGraph.allEdges, e.srcNode ∈ PtrSet.ofList [⟨0, 0, 1⟩] →
        e.dstNode ∈ PtrSet.ofList [⟨0, 0, 1⟩] → e.kind ≠ .undefinedDependence := by
  refine copyNodesIntoNewGraph_induced_iff .stored (fun _ => false)  ?_
    execute_undefinedHistory.1 execute_undefinedHistory.2 1 ?_ (by decide)
  · intro op hop
    simp only [undefinedHistory, mem_cons, not_mem_nil, or_false] at hop
    rcases hop with rfl | rfl | rfl <;> trivial
  · show ∀ n ∈ (PtrSet.ofList [(⟨0, 0, 1⟩ : DGNode Nat)]).elems, n ∈ undefinedGraph.allNodes
    decide

end DG

end Noelle
