import Noelle.DG.GraphTraits
import Noelle.DG.History
import Noelle.Lib.Loop

/-!
# SCCDAGAttrs.Ignored

`SCCDAGAttrs::computeSCCDAGWhenSCCsAreIgnored`: the parents of the SCCs of an SCCDAG when some of
the SCCs are left out.

For each SCC the incoming dependences are followed backwards through the SCCs that are ignored.  A
node may be in the queue many times; it is expanded once, so the search ends whatever cycles there
are, and every SCC that comes out of the queue is a parent.
-/

namespace Noelle

open Function PtrSet List

namespace SCCDAGAttrs

variable {T S : Type} [DecidableEq T]

/-- The variables of the search from one SCC. -/
structure ParentSearch (T : Type) where
  nodesToCheck : List (DGNode T)
  analyzed : PtrSet (DGNode T)
  parentsViaClones : T → PtrSet T
  edgesViaClones : T → PtrSet (DGEdge T)

section Definitions

variable (ord : IterOrder) (g : DG T S) (ignoreSCC : T → Bool)

/-- The lambda `addIncomingNodes`. -/
def addIncomingNodes (q : ParentSearch T) (node : DGNode T) : ParentSearch T :=
  let edges := ord.visit (g.incomingEdges node).elems
  let nodes := PtrSet.ofList (edges.map DGEdge.srcNode)
  { q with
    nodesToCheck := q.nodesToCheck ++ ord.visit nodes.elems
    edgesViaClones := update q.edgesViaClones node.theT
      ((q.edgesViaClones node.theT).insertAll edges) }

/-- The body of the `while` loop. -/
def checkNode (childSCC : T) (q : ParentSearch T) : Option (ParentSearch T) :=
  match q.nodesToCheck with
  | [] => none
  | node :: nodesToCheck =>
      let q := { q with
        nodesToCheck := nodesToCheck
        parentsViaClones := update q.parentsViaClones childSCC
          ((q.parentsViaClones childSCC).insert node.theT) }
      if !ignoreSCC node.theT then some q
      else if node ∈ q.analyzed then some q
      else
        let q := addIncomingNodes ord g q node
        some { q with analyzed := q.analyzed.insert node }

/-- The body of the loop over the nodes of the SCCDAG. -/
def searchParents (fuel : Nat) (maps : (T → PtrSet T) × (T → PtrSet (DGEdge T)))
    (childSCCNode : DGNode T) : Option ((T → PtrSet T) × (T → PtrSet (DGEdge T))) :=
  (loopM (fun q : ParentSearch T => !q.nodesToCheck.isEmpty)
    (checkNode ord g ignoreSCC childSCCNode.theT) fuel
    (addIncomingNodes ord g ⟨[], PtrSet.ofList [childSCCNode], maps.1, maps.2⟩ childSCCNode)).map
      fun q => (q.parentsViaClones, q.edgesViaClones)

def computeSCCDAGWhenSCCsAreIgnored (fuel : Nat) :
    Option ((T → PtrSet T) × (T → PtrSet (DGEdge T))) :=
  (ord.visit g.allNodes.elems).foldlM (searchParents ord g ignoreSCC fuel)
    (fun _ => ∅, fun _ => ∅)

end Definitions

/-- A path of one or more dependences through SCCs that are ignored. -/
inductive ViaIgnored (g : DG T S) (ignoreSCC : T → Bool) : DGNode T → DGNode T → Prop
  | edge {p c : DGNode T} : g.Edge p c → ViaIgnored g ignoreSCC p c
  | step {p m c : DGNode T} : g.Edge p m → ignoreSCC m.theT = true → ViaIgnored g ignoreSCC m c →
      ViaIgnored g ignoreSCC p c

variable {ord : IterOrder} {g : DG T S} {ignoreSCC : T → Bool} {q q' : ParentSearch T}
  {child node n : DGNode T}

omit [DecidableEq T] in
theorem ViaIgnored.exists_edge (h : ViaIgnored g ignoreSCC n child) : ∃ m, g.Edge n m := by
  cases h with
  | edge h => exact ⟨_, h⟩
  | step h _ _ => exact ⟨_, h⟩

/-! ## The search from one SCC -/

/-- The incoming dependences of the nodes that were not expanded yet. -/
def unexpanded (g : DG T S) (analyzed : PtrSet (DGNode T)) : Nat :=
  (g.allEdges.elems.filter fun e => decide (e.dstNode ∉ analyzed)).length

theorem unexpanded_insert (h : g.WF) (hnode : node ∈ g.allNodes) (analyzed : PtrSet (DGNode T))
    (hnew : node ∉ analyzed) :
    unexpanded g (analyzed.insert node) + (g.incomingEdges node).size ≤ unexpanded g analyzed := by
  unfold unexpanded
  rw [length_eq_length_filter_add
    (l := g.allEdges.elems.filter fun e => decide (e.dstNode ∉ analyzed))
    fun e => decide (e.dstNode ≠ node), filter_filter, filter_filter]
  refine Nat.add_le_add (List.Sublist.length_le (monotone_filter_right _ fun e he => ?_))
    (size_le_length fun e he => ?_)
  · simp only [mem_insert, not_or, decide_eq_true_eq, Bool.and_eq_true] at he ⊢
    exact he
  · obtain ⟨hedge, rfl⟩ := (h.mem_incoming node hnode e).mp he
    simp only [List.mem_filter, mem_elems, hedge, true_and]
    simp [hnew]

variable (ord) in
/-- The sources of the incoming edges join the queue. -/
theorem addIncomingNodes_spec (h : g.WF) (q : ParentSearch T) (hnode : node ∈ g.allNodes) :
    (addIncomingNodes ord g q node).analyzed = q.analyzed ∧
      (addIncomingNodes ord g q node).parentsViaClones = q.parentsViaClones ∧
      (∀ n, n ∈ (addIncomingNodes ord g q node).nodesToCheck ↔
        n ∈ q.nodesToCheck ∨ g.Edge n node) ∧
      (addIncomingNodes ord g q node).nodesToCheck.length ≤
        q.nodesToCheck.length + (g.incomingEdges node).size := by
  refine ⟨rfl, rfl, fun n => ?_, ?_⟩
  · have hedge : n ∈ PtrSet.ofList ((ord.visit (g.incomingEdges node).elems).map DGEdge.srcNode) ↔
        g.Edge n node := by
      simp only [mem_ofList, mem_map, ord.mem_visit, mem_elems,
        h.mem_incoming node hnode]
      constructor
      · rintro ⟨e, ⟨he, hd⟩, hs⟩
        exact ⟨e, he, hs, hd⟩
      · rintro ⟨e, he, hs, hd⟩
        exact ⟨e, ⟨he, hd⟩, hs⟩
    rw [← hedge]
    exact mem_append.trans (or_congr_right (ord.mem_visit.trans mem_elems))
  · have hsize := size_le_length (s := PtrSet.ofList
      ((ord.visit (g.incomingEdges node).elems).map DGEdge.srcNode)) fun n hn =>
        mem_ofList.mp hn
    rw [length_map, ord.length_visit] at hsize
    refine (length_append ..).trans_le (Nat.add_le_add_left ?_ _)
    rw [ord.length_visit]
    exact hsize

/-- The invariant of the search: the queue and the parents are on paths to the child, and the
sources of dependences of expanded nodes are in the queue or are parents. -/
structure Searching (g : DG T S) (ignoreSCC : T → Bool) (child : DGNode T)
    (parents : T → PtrSet T) (q : ParentSearch T) : Prop where
  queued : ∀ n ∈ q.nodesToCheck, ViaIgnored g ignoreSCC n child
  parent : ∀ t ∈ q.parentsViaClones child.theT, ∃ n ∈ g.allNodes, n.theT = t ∧
    ViaIgnored g ignoreSCC n child
  other : ∀ t, t ≠ child.theT → q.parentsViaClones t = parents t
  start : child ∈ q.analyzed
  expanded : ∀ m ∈ q.analyzed, ∀ n, g.Edge n m →
    n ∈ q.nodesToCheck ∨ n.theT ∈ q.parentsViaClones child.theT
  ignored : ∀ n ∈ g.allNodes, n.theT ∈ q.parentsViaClones child.theT →
    ignoreSCC n.theT = true → n ∈ q.analyzed

/-- A step of the search keeps its invariant. -/
theorem Searching.checkNode {parents : T → PtrSet T} (hg : g.Clean)
    (h : Searching g ignoreSCC child parents q) (hmore : (!q.nodesToCheck.isEmpty) = true) :
    ∃ q', checkNode ord g ignoreSCC child.theT q = some q' ∧
      Searching g ignoreSCC child parents q' ∧
      q'.nodesToCheck.length + unexpanded g q'.analyzed <
        q.nodesToCheck.length + unexpanded g q.analyzed := by
  obtain ⟨queue, analyzed, parentsViaClones, edgesViaClones⟩ := q
  cases queue with
  | nil => exact absurd hmore Bool.false_ne_true
  | cons node queue =>
      have hvia := h.queued node (.head _)
      have hlive : node ∈ g.allNodes := by
        obtain ⟨m, hm⟩ := hvia.exists_edge
        exact (hg.edge_mem hm).1
      -- the node is a parent now
      let found : ParentSearch T := ⟨queue, analyzed, update parentsViaClones child.theT
        ((parentsViaClones child.theT).insert node.theT), edgesViaClones⟩
      have hfound : ∀ t, t ∈ found.parentsViaClones child.theT ↔
          t = node.theT ∨ t ∈ parentsViaClones child.theT := fun t => by
        simp only [found, update_self, mem_insert]
      have hqueued : ∀ n ∈ queue, ViaIgnored g ignoreSCC n child := fun n hn =>
        h.queued n (.tail node hn)
      have hparent : ∀ t ∈ found.parentsViaClones child.theT, ∃ n ∈ g.allNodes, n.theT = t ∧
          ViaIgnored g ignoreSCC n child := fun t ht => by
        rcases (hfound t).mp ht with rfl | ht
        · exact ⟨node, hlive, rfl, hvia⟩
        · exact h.parent t ht
      have hother : ∀ t, t ≠ child.theT → found.parentsViaClones t = parents t := fun t ht =>
        (update_of_ne ht ..).trans (h.other t ht)
      have hexpanded : ∀ m ∈ analyzed, ∀ n, g.Edge n m →
          n ∈ queue ∨ n.theT ∈ found.parentsViaClones child.theT := fun m hm n hnm => by
        rcases h.expanded m hm n hnm with hn | hn
        · rcases mem_cons.mp hn with rfl | hn
          · exact .inr ((hfound _).mpr (.inl rfl))
          · exact .inl hn
        · exact .inr ((hfound _).mpr (.inr hn))
      have hignored : (ignoreSCC node.theT = true → node ∈ analyzed) → ∀ n ∈ g.allNodes,
          n.theT ∈ found.parentsViaClones child.theT → ignoreSCC n.theT = true → n ∈ analyzed :=
        fun hnode n hn ht hi => by
          rcases (hfound _).mp ht with heq | ht
          · obtain rfl := hg.node_ext hn hlive heq
            exact hnode hi
          · exact h.ignored n hn ht hi
      have hskip : (ignoreSCC node.theT = true → node ∈ analyzed) →
          Searching g ignoreSCC child parents found := fun hnode =>
        ⟨hqueued, hparent, hother, h.start, hexpanded, hignored hnode⟩
      have hless : found.nodesToCheck.length + unexpanded g found.analyzed <
          (node :: queue).length + unexpanded g analyzed := by
        simp only [found, length_cons]
        omega
      cases hi : ignoreSCC node.theT with
      | false =>
          refine ⟨found, ?_, hskip fun ht => absurd (hi.symm.trans ht) Bool.false_ne_true, hless⟩
          simp only [SCCDAGAttrs.checkNode, hi, Bool.not_false, if_true, found]
      | true =>
          by_cases hmem : node ∈ analyzed
          · refine ⟨found, ?_, hskip fun _ => hmem, hless⟩
            simp only [SCCDAGAttrs.checkNode, hi, Bool.not_true, Bool.false_eq_true, if_false,
              if_pos hmem, found]
          · obtain ⟨-, hparents, hnodes, hlength⟩ :=
              addIncomingNodes_spec ord hg.toWF found hlive
            let expanded := addIncomingNodes ord g found node
            refine ⟨{ expanded with analyzed := analyzed.insert node }, ?_, ?_, ?_⟩
            · simp only [SCCDAGAttrs.checkNode, hi, Bool.not_true, Bool.false_eq_true, if_false,
                if_neg hmem]
              rfl
            · refine ⟨fun n hn => ?_, hparent, hother, mem_insert.mpr (.inr h.start),
                fun m hm n hnm => ?_, fun n hn ht hin => ?_⟩
              · rcases (hnodes n).mp hn with hn | hn
                · exact hqueued n hn
                · exact .step hn hi hvia
              · rcases mem_insert.mp hm with rfl | hm
                · exact .inl ((hnodes n).mpr (.inr hnm))
                · exact (hexpanded m hm n hnm).imp (fun hn => (hnodes n).mpr (.inl hn)) id
              · rw [mem_insert]
                by_cases heq : n = node
                · exact .inl heq
                · refine .inr (h.ignored n hn ?_ hin)
                  exact ((hfound _).mp ht).resolve_left fun heqT => heq (hg.node_ext hn hlive heqT)
            · have hedges := unexpanded_insert hg.toWF hlive analyzed hmem
              have hlength : expanded.nodesToCheck.length ≤
                  queue.length + (g.incomingEdges node).size := hlength
              change expanded.nodesToCheck.length + unexpanded g (analyzed.insert node) <
                queue.length + 1 + unexpanded g analyzed
              omega

/-- When the queue is empty every path has been followed backwards: the next node is a parent that
is ignored, so it was expanded. -/
theorem Searching.complete {parents : T → PtrSet T} (hg : g.Clean)
    (h : Searching g ignoreSCC child parents q) (hdone : q.nodesToCheck = [])
    (hvia : ViaIgnored g ignoreSCC n child) : n.theT ∈ q.parentsViaClones child.theT := by
  have hexpanded : ∀ m ∈ q.analyzed, ∀ n, g.Edge n m → n.theT ∈ q.parentsViaClones child.theT :=
    fun m hm n hnm => (h.expanded m hm n hnm).resolve_left (hdone ▸ not_mem_nil)
  induction hvia with
  | edge hnc => exact hexpanded _ h.start _ hnc
  | step hnm hi _ ih =>
      exact hexpanded _ (h.ignored _ (hg.edge_mem hnm).2 (ih h hexpanded) hi) _ hnm

variable (ord ignoreSCC) in
/-- The parents are the nodes that reach the child through ignored SCCs. -/
theorem searchParents_spec (hg : g.Clean) (hchild : child ∈ g.allNodes) {fuel : Nat}
    (hfuel : g.numEdges ≤ fuel) (maps : (T → PtrSet T) × (T → PtrSet (DGEdge T)))
    (hmaps : maps.1 child.theT = ∅) :
    ∃ maps', searchParents ord g ignoreSCC fuel maps child = some maps' ∧
      (∀ n ∈ g.allNodes, n.theT ∈ maps'.1 child.theT ↔ ViaIgnored g ignoreSCC n child) ∧
      (∀ t ∈ maps'.1 child.theT, ∃ n ∈ g.allNodes, n.theT = t) ∧
      ∀ t, t ≠ child.theT → maps'.1 t = maps.1 t := by
  let start : ParentSearch T := ⟨[], PtrSet.ofList [child], maps.1, maps.2⟩
  obtain ⟨-, hparents, hnodes, hlength⟩ :=
    addIncomingNodes_spec ord hg.toWF start hchild
  have hmem : ∀ m, m ∈ start.analyzed ↔ m = child := fun m => by simp [start]
  have hempty : ∀ t, t ∉ start.parentsViaClones child.theT := fun t => by
    simp only [start, hmaps]
    exact not_mem_empty t
  have hinit : Searching g ignoreSCC child maps.1 (addIncomingNodes ord g start child) := by
    refine ⟨fun n hn => ?_, fun t ht => absurd ht (hempty t), fun _ _ => rfl,
      (hmem child).mpr rfl, fun m hm n hnm => ?_, fun n _ ht => absurd ht (hempty _)⟩
    · exact .edge (((hnodes n).mp hn).resolve_left not_mem_nil)
    · obtain rfl := (hmem m).mp hm
      exact .inl ((hnodes n).mpr (.inr hnm))
  have hmeasure : (addIncomingNodes ord g start child).nodesToCheck.length +
      unexpanded g (addIncomingNodes ord g start child).analyzed ≤ fuel := by
    have hedges := unexpanded_insert hg.toWF hchild ∅ (not_mem_empty child)
    have hall : unexpanded g ∅ ≤ g.numEdges := length_filter_le ..
    have hanalyzed : unexpanded g (addIncomingNodes ord g start child).analyzed =
        unexpanded g (PtrSet.insert ∅ child) := rfl
    have hnil : start.nodesToCheck.length = 0 := rfl
    omega
  obtain ⟨q, hloop, hq, hend⟩ := loopM_rule (Searching g ignoreSCC child maps.1)
    (fun q => q.nodesToCheck.length + unexpanded g q.analyzed)
    (fun q hq hmore => hq.checkNode hg hmore) fuel _ hinit hmeasure
  have hdone : q.nodesToCheck = [] := by simpa using hend
  refine ⟨(q.parentsViaClones, q.edgesViaClones), ?_, fun n hn => ⟨fun ht => ?_, fun hvia => ?_⟩,
    fun t ht => ?_, hq.other⟩
  · rw [searchParents, hloop]
    rfl
  · obtain ⟨m, hm, heq, hvia⟩ := hq.parent _ ht
    exact hg.node_ext hm hn heq ▸ hvia
  · exact hq.complete hg hdone hvia
  · obtain ⟨n, hn, heq, -⟩ := hq.parent t ht
    exact ⟨n, hn, heq⟩

/-! ## All SCCs -/

/-- **Parents when SCCs are ignored**: the search ends for every graph, with as many iterations for
an SCC as there are dependences, and the parents of an SCC are the SCCs with a path to it through
ignored ones. -/
theorem computeSCCDAGWhenSCCsAreIgnored_spec (hg : g.Clean) {fuel : Nat}
    (hfuel : g.numEdges ≤ fuel) :
    ∃ maps, computeSCCDAGWhenSCCsAreIgnored ord g ignoreSCC fuel = some maps ∧
      (∀ child ∈ g.allNodes, ∀ n ∈ g.allNodes,
        n.theT ∈ maps.1 child.theT ↔ ViaIgnored g ignoreSCC n child) ∧
      ∀ child ∈ g.allNodes, ∀ t ∈ maps.1 child.theT, ∃ n ∈ g.allNodes, n.theT = t := by
  obtain ⟨maps, hmaps, hdone, -⟩ := foldlM_rule (searchParents ord g ignoreSCC fuel)
    (fun (pre : List (DGNode T)) maps =>
      (∀ child ∈ pre, (∀ n ∈ g.allNodes,
          n.theT ∈ maps.1 child.theT ↔ ViaIgnored g ignoreSCC n child) ∧
        ∀ t ∈ maps.1 child.theT, ∃ n ∈ g.allNodes, n.theT = t) ∧
      ∀ child ∈ g.allNodes, child ∉ pre → maps.1 child.theT = ∅)
    (l := ord.visit g.allNodes.elems) (s := (fun _ => ∅, fun _ => ∅))
    ⟨nofun, fun _ _ _ => rfl⟩
    (by
      intro pre child post maps hsplit hI
      obtain ⟨hpre, hrest⟩ := hI
      have hall : ∀ m ∈ pre ++ child :: post, m ∈ g.allNodes := fun m hm =>
        ord.mem_visit.mp (hsplit ▸ hm)
      have hchild : child ∈ g.allNodes :=
        hall child (mem_append_right _ (.head _))
      have hnodup : (pre ++ child :: post).Nodup := hsplit ▸ ord.nodup_visit g.allNodes.nodup
      have hfresh : child ∉ pre := fun hmem =>
        (nodup_append.mp hnodup).2.2 child hmem child (.head _) rfl
      obtain ⟨maps', hmaps', hspec, hnodes, hother⟩ :=
        searchParents_spec ord ignoreSCC hg hchild hfuel maps (hrest child hchild hfresh)
      have hkeep : ∀ m ∈ g.allNodes, m ≠ child → maps'.1 m.theT = maps.1 m.theT := fun m hm hne =>
        hother _ fun heq => hne (hg.node_ext hm hchild heq)
      refine ⟨maps', hmaps', fun m hm => ?_, fun m hm hnot => ?_⟩
      · rcases mem_append.mp hm with hm | hm
        · have hlive : m ∈ g.allNodes := hall m (mem_append_left _ hm)
          rw [hkeep m hlive fun heq => hfresh (heq ▸ hm)]
          exact hpre m hm
        · rw [mem_singleton.mp hm]
          exact ⟨hspec, hnodes⟩
      · rw [mem_append, mem_singleton, not_or] at hnot
        rw [hkeep m hm hnot.2]
        exact hrest m hm hnot.1)
  refine ⟨maps, hmaps, fun child hchild => ?_, fun child hchild => ?_⟩
  · exact (hdone child (ord.mem_visit.mpr hchild)).1
  · exact (hdone child (ord.mem_visit.mpr hchild)).2

/-- Two SCCs that depend on each other, as a merge leaves them. -/
def cycleHistory : List (DG.Op Nat Nat) :=
  [.addNode 1 true, .addNode 2 true, .addUndefinedDependenceEdge 1 2,
    .addUndefinedDependenceEdge 2 1]

def cycle : DG Nat Nat := (DG.execute (fun _ => false) (DG.empty 0) cycleHistory).getD (DG.empty 0)

theorem cycle_clean : cycle.Clean := DG.clean_of_history _ 0 (by decide)

theorem computeSCCDAGWhenSCCsAreIgnored_cycle :
    ∃ maps, computeSCCDAGWhenSCCsAreIgnored .stored cycle (fun t => decide (t = 2)) 2 = some maps ∧
      (∀ child ∈ cycle.allNodes, ∀ n ∈ cycle.allNodes,
        n.theT ∈ maps.1 child.theT ↔ ViaIgnored cycle (fun t => decide (t = 2)) n child) ∧
      ∀ child ∈ cycle.allNodes, ∀ t ∈ maps.1 child.theT, ∃ n ∈ cycle.allNodes, n.theT = t :=
  computeSCCDAGWhenSCCsAreIgnored_spec cycle_clean (by decide)

/-- With the second SCC ignored the first one is its own parent. -/
theorem cycle_own_parent : cycle.Clean ∧ (∀ e ∈ cycle.allEdges, e.srcNode ≠ e.dstNode) ∧
    ∃ maps, computeSCCDAGWhenSCCsAreIgnored .stored cycle (fun t => decide (t = 2)) 2 = some maps ∧
      ¬ ∀ child ∈ cycle.allNodes, ∀ n ∈ cycle.allNodes, n.theT ∈ maps.1 child.theT ↔
        n ≠ child ∧ ViaIgnored cycle (fun t => decide (t = 2)) n child := by
  refine ⟨cycle_clean, by decide, ?_⟩
  have hrun : (computeSCCDAGWhenSCCsAreIgnored .stored cycle (fun t => decide (t = 2)) 2).map
      (fun maps => decide (1 ∈ maps.1 1)) = some true := by
    decide +kernel
  obtain ⟨maps, hmaps, hmem⟩ := Option.map_eq_some_iff.mp hrun
  refine ⟨maps, hmaps, fun hall => ?_⟩
  have hnode : (⟨0, 0, 1⟩ : DGNode Nat) ∈ cycle.allNodes := by decide
  exact ((hall ⟨0, 0, 1⟩ hnode ⟨0, 0, 1⟩ hnode).mp (of_decide_eq_true hmem)).1 rfl

end SCCDAGAttrs

end Noelle
