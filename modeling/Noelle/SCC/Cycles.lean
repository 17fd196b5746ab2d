import Noelle.DG.History
import Noelle.Lib.Loop
import Noelle.Lib.Multigraph
import Noelle.SCC.Spec

/-!
# SCC.Cycles

The search for a cycle in an SCC.

`hasCycle` searches breadth first from every internal node and answers `true` when it
meets a node twice in one search, whether or not a cycle leads there.  It finds every
cycle, but it also answers `true` on a node with two ways in.  `false` means exactly
that the search forest has all the edges (`hasCycle_spec`), which a cycle excludes.
-/

namespace Noelle

open Relation PtrSet List

namespace SCC

variable {V : Type} [DecidableEq V]

/-! ## The search -/

/-- The locals of `hasCycle` and of one of its searches; `return true` sets `cycle`,
and then no loop does anything more. -/
structure CycleSearch (V : Type) where
  nodesChecked : PtrSet (DGNode V) := ∅
  nodesSeen : PtrSet (DGNode V) := ∅
  nodesToVisit : List (DGNode V) := []
  cycle : Bool := false

/-- The dependences a search does not follow. -/
def skips (ignoreControlDep : Bool) (edge : DGEdge V) : Bool :=
  ignoreControlDep && decide (edge.kind = .controlDependence)

/-- The body of the loop over the outgoing edges of a node. -/
def followEdge (ignoreControlDep : Bool) (s : CycleSearch V) (edge : DGEdge V) : CycleSearch V :=
  if s.cycle then s
  else if skips ignoreControlDep edge then s
  else
    let otherNode := edge.dstNode
    if otherNode ∈ s.nodesSeen then { s with cycle := true }
    else if otherNode ∈ s.nodesChecked then s
    else
      { s with
        nodesChecked := s.nodesChecked.insert otherNode
        nodesSeen := s.nodesSeen.insert otherNode
        nodesToVisit := s.nodesToVisit ++ [otherNode] }

variable (ord : IterOrder) (g : SCC V) (ignoreControlDep : Bool)

/-- The body of the `while` loop. -/
def visitFront (s : CycleSearch V) : Option (CycleSearch V) :=
  match s.nodesToVisit with
  | [] => none
  | node :: nodesToVisit =>
      some ((ord.visit (g.outgoingEdges node).elems).foldl (followEdge ignoreControlDep)
        { s with nodesToVisit := nodesToVisit })

/-- The condition of the `while` loop. -/
def searchGoesOn (s : CycleSearch V) : Bool := !s.cycle && !s.nodesToVisit.isEmpty

/-- The body of the loop over the internal nodes.  A search visits a node of the graph
at most once, which bounds its iterations. -/
def searchFrom (s : CycleSearch V) (nodePair : (_ : V) × Option (DGNode V)) :
    Option (CycleSearch V) := do
  if s.cycle then return s
  let node ← nodePair.2
  if node ∈ s.nodesChecked then return s
  loopM searchGoesOn (visitFront ord g ignoreControlDep) g.numNodes
    { nodesChecked := s.nodesChecked.insert node
      nodesSeen := PtrSet.insert ∅ node
      nodesToVisit := [node] }

def hasCycle : Option Bool :=
  ((ord.visit g.internalNodeMap.entries).foldlM (searchFrom ord g ignoreControlDep) {}).map
    (·.cycle)

/-! ## What a search meets -/

/-- The dependences a search follows. -/
def Follows (e : DGEdge V) : Prop := e ∈ g.allEdges ∧ skips ignoreControlDep e = false

/-- A followed dependence from one node to another. -/
abbrev Arrow : DGNode V → DGNode V → Prop :=
  Multigraph.Arrow DGEdge.srcNode DGEdge.dstNode (g.Follows ignoreControlDep)

/-- Followed dependences lead from one node to another. -/
abbrev Reaches : DGNode V → DGNode V → Prop :=
  Multigraph.Reaches DGEdge.srcNode DGEdge.dstNode (g.Follows ignoreControlDep)

def IsInternalNode (n : DGNode V) : Prop := g.internalNodeMap.lookup n.theT = some (some n)

/-- Followed dependences among internal nodes lead from some node back to it. -/
def HasInternalCycle : Prop :=
  ∃ n, TransGen (fun a b => g.IsInternalNode a ∧ g.IsInternalNode b ∧ g.Arrow ignoreControlDep a b)
    n n

/-- The internal nodes in the order the searches start from them. -/
def roots : List (DGNode V) := (ord.visit g.internalNodeMap.entries).filterMap Sigma.snd

/-- Every node is entered by at most one followed dependence from the nodes found by
the same search, and no such dependence enters the first node of a search. -/
def EnteredOnce : Prop :=
  Multigraph.ForestFrom DGEdge.srcNode DGEdge.dstNode (g.Follows ignoreControlDep) (roots ord g)

/-! ## One search -/

section Search

variable {g : SCC V} {ignoreControlDep : Bool} {earlier : List (DGNode V)}
  {root : DGNode V} {Expanded : DGNode V → Prop} {Done : DGEdge V → Prop} {s : CycleSearch V}
  {e : DGEdge V}

/-- A search from `root` that has found no cycle so far.  It has visited the nodes
`Expanded` and met the dependences `Done`. -/
structure Searching (g : SCC V) (ignoreControlDep : Bool) (earlier : List (DGNode V))
    (root : DGNode V) (Expanded : DGNode V → Prop) (Done : DGEdge V → Prop) (s : CycleSearch V) :
    Prop where
  cycle_eq : s.cycle = false
  root_seen : root ∈ s.nodesSeen
  checked_iff : ∀ n, n ∈ s.nodesChecked ↔
    (∃ r ∈ earlier, g.Reaches ignoreControlDep r n) ∨ n ∈ s.nodesSeen
  seen_first : ∀ n ∈ s.nodesSeen, Multigraph.FirstFrom DGEdge.srcNode DGEdge.dstNode
    (g.Follows ignoreControlDep) earlier root n
  seen_mem : ∀ n ∈ s.nodesSeen, n ∈ g.allNodes
  queue_nodup : s.nodesToVisit.Nodup
  queue_seen : ∀ n ∈ s.nodesToVisit, n ∈ s.nodesSeen
  expanded_iff : ∀ n, Expanded n ↔ n ∈ s.nodesSeen ∧ n ∉ s.nodesToVisit
  done_follows : ∀ e, Done e → g.Follows ignoreControlDep e ∧ e.srcNode ∈ s.nodesSeen
  done_dst : ∀ e, Done e → e.dstNode ∈ s.nodesChecked
  entered : ∀ n ∈ s.nodesSeen, n ≠ root → ∃ e, Done e ∧ e.dstNode = n
  once : ∀ e, Done e → e.dstNode ∈ s.nodesSeen → e.dstNode ≠ root ∧
    ∀ e', Done e' → e'.dstNode = e.dstNode → e' = e

/-- A search that may have found a node with two ways in. -/
def SearchedTo (g : SCC V) (ignoreControlDep : Bool) (earlier : List (DGNode V)) (root : DGNode V)
    (Expanded : DGNode V → Prop) (Done : DGEdge V → Prop) (s : CycleSearch V) : Prop :=
  (s.cycle = true ∧ ¬ Multigraph.TreeFrom DGEdge.srcNode DGEdge.dstNode
    (g.Follows ignoreControlDep) earlier root) ∨
    Searching g ignoreControlDep earlier root Expanded Done s

/-- One more edge out of a node is followed. -/
theorem Searching.followEdge (h : Searching g ignoreControlDep earlier root Expanded Done s)
    (hg : g.WF) (he : e ∈ g.allEdges) (hsrc : Expanded e.srcNode) (hnew : ¬ Done e) :
    SearchedTo g ignoreControlDep earlier root Expanded
      (fun e' => Done e' ∨ (e' = e ∧ skips ignoreControlDep e = false))
      (followEdge ignoreControlDep s e) := by
  have hseen := ((h.expanded_iff _).mp hsrc).1
  unfold SCC.followEdge
  rw [if_neg (by simp [h.cycle_eq])]
  by_cases hskip : skips ignoreControlDep e = true
  · -- an ignored dependence
    have hdone : (fun e' => Done e' ∨ (e' = e ∧ skips ignoreControlDep e = false)) = Done := by
      simp [hskip]
    rw [if_pos hskip, hdone]
    exact .inr h
  have hfollows : g.Follows ignoreControlDep e := ⟨he, Bool.eq_false_of_not_eq_true hskip⟩
  have hdone : (fun e' => Done e' ∨ (e' = e ∧ skips ignoreControlDep e = false)) =
      fun e' => Done e' ∨ e' = e := by
    simp [Bool.eq_false_of_not_eq_true hskip]
  rw [if_neg hskip, hdone]
  by_cases hdst : e.dstNode ∈ s.nodesSeen
  · -- the second way into a node
    simp only [hdst, if_true]
    refine .inl ⟨rfl, fun htree => ?_⟩
    obtain ⟨hroot, honce⟩ := htree e hfollows (h.seen_first _ hseen) (h.seen_first _ hdst)
    obtain ⟨e', he', hdst'⟩ := h.entered _ hdst hroot
    obtain ⟨hfollows', hsrc'⟩ := h.done_follows e' he'
    exact hnew (honce e' hfollows' (h.seen_first _ hsrc') hdst' ▸ he')
  simp only [hdst, if_false]
  by_cases hchecked : e.dstNode ∈ s.nodesChecked
  · -- a node of an earlier search
    simp only [hchecked, if_true]
    refine .inr { h with
      done_follows := ?_, done_dst := ?_, entered := ?_, once := ?_ }
    · rintro e' (he' | rfl)
      · exact h.done_follows e' he'
      · exact ⟨hfollows, hseen⟩
    · rintro e' (he' | rfl)
      · exact h.done_dst e' he'
      · exact hchecked
    · exact fun n hn hroot => (h.entered n hn hroot).imp fun e' he' => ⟨.inl he'.1, he'.2⟩
    · rintro e₁ (he₁ | rfl) hdst₁
      · refine ⟨(h.once e₁ he₁ hdst₁).1, ?_⟩
        rintro e₂ (he₂ | rfl) heq
        · exact (h.once e₁ he₁ hdst₁).2 e₂ he₂ heq
        · exact absurd (heq ▸ hdst₁) hdst
      · exact absurd hdst₁ hdst
  · -- a new node
    simp only [hchecked, if_false]
    have hno : ∀ r ∈ earlier, ¬ g.Reaches ignoreControlDep r e.dstNode := fun r hr hreach =>
      hchecked ((h.checked_iff _).mpr (.inl ⟨r, hr, hreach⟩))
    have hqueue : e.dstNode ∉ s.nodesToVisit := fun hq => hdst (h.queue_seen _ hq)
    have hroot : e.dstNode ≠ root := fun heq => hdst (heq ▸ h.root_seen)
    refine .inr
      { cycle_eq := h.cycle_eq
        root_seen := mem_insert.mpr (.inr h.root_seen)
        checked_iff := fun n => ?_
        seen_first := fun n hn => ?_
        seen_mem := fun n hn => ?_
        queue_nodup := ?_
        queue_seen := fun n hn => ?_
        expanded_iff := fun n => ?_
        done_follows := ?_
        done_dst := ?_
        entered := fun n hn hne => ?_
        once := ?_ }
    · rw [mem_insert, mem_insert, h.checked_iff]
      exact or_left_comm
    · rcases mem_insert.mp hn with rfl | hn
      · exact (h.seen_first _ hseen).step (.of_live hfollows) hno
      · exact h.seen_first n hn
    · rcases mem_insert.mp hn with rfl | hn
      · exact (hg.edge_nodes he).2
      · exact h.seen_mem n hn
    · exact nodup_append.mpr ⟨h.queue_nodup, nodup_singleton _, fun a ha b hb heq =>
        hqueue (mem_singleton.mp hb ▸ heq ▸ ha)⟩
    · rw [mem_insert]
      rcases mem_append.mp hn with hn | hn
      · exact .inr (h.queue_seen n hn)
      · exact .inl (mem_singleton.mp hn)
    · rw [h.expanded_iff, mem_insert, mem_append, mem_singleton]
      constructor
      · rintro ⟨hn, hq⟩
        exact ⟨.inr hn, fun hor => hor.elim hq fun heq => hdst (heq ▸ hn)⟩
      · rintro ⟨rfl | hn, hq⟩
        · exact absurd (.inr rfl) hq
        · exact ⟨hn, fun hq' => hq (.inl hq')⟩
    · rintro e' (he' | rfl)
      · exact ⟨(h.done_follows e' he').1, mem_insert.mpr (.inr (h.done_follows e' he').2)⟩
      · exact ⟨hfollows, mem_insert.mpr (.inr hseen)⟩
    · rintro e' (he' | rfl)
      · exact mem_insert.mpr (.inr (h.done_dst e' he'))
      · exact mem_insert.mpr (.inl rfl)
    · rcases mem_insert.mp hn with rfl | hn
      · exact ⟨e, .inr rfl, rfl⟩
      · exact (h.entered n hn hne).imp fun e' he' => ⟨.inl he'.1, he'.2⟩
    · -- no earlier dependence enters the new node
      have hfresh : ∀ e', Done e' → e'.dstNode ≠ e.dstNode := fun e' he' heq =>
        hchecked (heq ▸ h.done_dst e' he')
      rintro e₁ (he₁ | rfl) hdst₁
      · have hdst₁ := (mem_insert.mp hdst₁).resolve_left (hfresh e₁ he₁)
        refine ⟨(h.once e₁ he₁ hdst₁).1, ?_⟩
        rintro e₂ (he₂ | rfl) heq
        · exact (h.once e₁ he₁ hdst₁).2 e₂ he₂ heq
        · exact absurd heq.symm (hfresh e₁ he₁)
      · refine ⟨hroot, ?_⟩
        rintro e₂ (he₂ | rfl) heq
        · exact absurd heq (hfresh e₂ he₂)
        · rfl

/-- Iterations that are left: the nodes not yet met and the queue. -/
def potential (g : SCC V) (s : CycleSearch V) : Nat :=
  (g.allNodes.elems.filter fun n => decide (n ∉ s.nodesChecked)).length + s.nodesToVisit.length

/-- Following an edge does not raise the potential. -/
theorem potential_followEdge (he : e.dstNode ∈ g.allNodes) :
    potential g (followEdge ignoreControlDep s e) ≤ potential g s := by
  unfold followEdge
  split
  · exact le_rfl
  split
  · exact le_rfl
  dsimp only
  split
  · exact le_rfl
  split
  · exact le_rfl
  rename_i hchecked
  have hlt : (g.allNodes.elems.filter fun n => decide (n ∉ s.nodesChecked.insert e.dstNode)).length <
      (g.allNodes.elems.filter fun n => decide (n ∉ s.nodesChecked)).length := by
    refine length_filter_lt (fun n _ hn => ?_) he (decide_eq_true hchecked) (by simp)
    simp only [decide_eq_true_eq, mem_insert, not_or] at hn ⊢
    exact hn.2
  simp only [potential, length_append, length_singleton]
  omega

/-- A step of the search keeps its invariant and lowers its potential. -/
theorem Searching.visitFront (ord : IterOrder) (hg : g.WF) (hqueue : s.nodesToVisit ≠ [])
    (h : Searching g ignoreControlDep earlier root Expanded
      (fun e => g.Follows ignoreControlDep e ∧ Expanded e.srcNode) s) :
    ∃ s', visitFront ord g ignoreControlDep s = some s' ∧ potential g s' < potential g s ∧
      ∃ Expanded', SearchedTo g ignoreControlDep earlier root Expanded'
        (fun e => g.Follows ignoreControlDep e ∧ Expanded' e.srcNode) s' := by
  obtain ⟨node, rest, hcons⟩ := exists_cons_of_ne_nil hqueue
  obtain ⟨hnode, hrest⟩ := nodup_cons.mp (hcons ▸ h.queue_nodup)
  have hmem : node ∈ s.nodesSeen := h.queue_seen node (hcons ▸ (.head _))
  have hnot : ¬ Expanded node := fun hexp =>
    ((h.expanded_iff node).mp hexp).2 (hcons ▸ (.head _))
  have houtgoing : ∀ e, e ∈ ord.visit (g.outgoingEdges node).elems ↔
      e ∈ g.allEdges ∧ e.srcNode = node := fun e => by
    rw [ord.mem_visit, mem_elems, hg.mem_outgoing node (h.seen_mem node hmem)]
  have hstart : Searching g ignoreControlDep earlier root (fun n => Expanded n ∨ n = node)
      (fun e => g.Follows ignoreControlDep e ∧ Expanded e.srcNode)
      { s with nodesToVisit := rest } :=
    { h with
      queue_nodup := hrest
      queue_seen := fun n hn => h.queue_seen n (hcons ▸ mem_cons_of_mem node hn)
      expanded_iff := fun n => by
        rw [h.expanded_iff, hcons, mem_cons, not_or]
        constructor
        · rintro (⟨hn, _, hq⟩ | rfl)
          · exact ⟨hn, hq⟩
          · exact ⟨hmem, hnode⟩
        · rintro ⟨hn, hq⟩
          by_cases heq : n = node
          · exact .inr heq
          · exact .inl ⟨hn, heq, hq⟩ }
  have hnodup : (ord.visit (g.outgoingEdges node).elems).Nodup := ord.nodup_visit (PtrSet.nodup _)
  refine ⟨_, by rw [SCC.visitFront, hcons], ?_, fun n => Expanded n ∨ n = node, ?_⟩
  · have hbound := foldl_rule (SCC.followEdge ignoreControlDep)
      (fun _ s' => potential g s' ≤ potential g { s with nodesToVisit := rest })
      (l := ord.visit (g.outgoingEdges node).elems) le_rfl
      fun pre e post s' hl hle => le_trans (potential_followEdge (hg.edge_nodes
        ((houtgoing e).mp (hl ▸ mem_append_right pre (.head _))).1).2) hle
    refine lt_of_le_of_lt hbound ?_
    simp only [potential, hcons, length_cons]
    omega
  · have hloop := foldl_rule (SCC.followEdge ignoreControlDep)
      (fun pre s' => SearchedTo g ignoreControlDep earlier root (fun n => Expanded n ∨ n = node)
        (fun e => (g.Follows ignoreControlDep e ∧ Expanded e.srcNode) ∨
          (e ∈ pre ∧ skips ignoreControlDep e = false)) s')
      (l := ord.visit (g.outgoingEdges node).elems) (s := { s with nodesToVisit := rest })
      (.inr (by simpa using hstart))
      (by
        intro pre e post s' hl hinv
        obtain ⟨he, hsrc⟩ := (houtgoing e).mp (hl ▸ mem_append_right pre (.head _))
        rcases hinv with ⟨hcycle, hno⟩ | hinv
        · refine .inl ⟨?_, hno⟩
          rw [SCC.followEdge, if_pos hcycle]
          exact hcycle
        have hpre : e ∉ pre := by
          rw [hl] at hnodup
          exact fun hin => (nodup_append.mp hnodup).2.2 e hin e (.head _) rfl
        have hstep := hinv.followEdge hg he (.inr hsrc) (by
          rintro (⟨_, hexp⟩ | ⟨hin, _⟩)
          · exact hnot (hsrc ▸ hexp)
          · exact hpre hin)
        have hdone : ∀ e', (((g.Follows ignoreControlDep e' ∧ Expanded e'.srcNode) ∨
            (e' ∈ pre ∧ skips ignoreControlDep e' = false)) ∨
              (e' = e ∧ skips ignoreControlDep e = false)) ↔
            ((g.Follows ignoreControlDep e' ∧ Expanded e'.srcNode) ∨
              (e' ∈ pre ++ [e] ∧ skips ignoreControlDep e' = false)) := by
          intro e'
          rw [or_assoc, mem_append, mem_singleton, or_and_right]
          refine or_congr_right (or_congr_right (and_congr_right fun heq => ?_))
          rw [heq]
        simpa only [hdone] using hstep)
    have hdone : ∀ e, ((g.Follows ignoreControlDep e ∧ Expanded e.srcNode) ∨
        (e ∈ ord.visit (g.outgoingEdges node).elems ∧ skips ignoreControlDep e = false)) ↔
        (g.Follows ignoreControlDep e ∧ (Expanded e.srcNode ∨ e.srcNode = node)) := by
      intro e
      rw [houtgoing, and_or_left, Follows]
      tauto
    simpa only [hdone] using hloop

/-- A whole search: it ends, and it finds no cycle iff the nodes of its root are a
tree, all of which it has then met. -/
theorem search_spec (ord : IterOrder) (hg : g.WF) (hroot : root ∈ g.allNodes)
    (hchecked : ∀ n, n ∈ s.nodesChecked ↔ ∃ r ∈ earlier, g.Reaches ignoreControlDep r n)
    (hnew : root ∉ s.nodesChecked) :
    ∃ s', loopM searchGoesOn (visitFront ord g ignoreControlDep) g.numNodes
        { nodesChecked := s.nodesChecked.insert root
          nodesSeen := PtrSet.insert ∅ root
          nodesToVisit := [root] } = some s' ∧
      ((s'.cycle = true ∧ ¬ Multigraph.TreeFrom DGEdge.srcNode DGEdge.dstNode
          (g.Follows ignoreControlDep) earlier root) ∨
        (s'.cycle = false ∧ Multigraph.TreeFrom DGEdge.srcNode DGEdge.dstNode
            (g.Follows ignoreControlDep) earlier root ∧
          ∀ n, n ∈ s'.nodesChecked ↔
            ∃ r ∈ earlier ++ [root], g.Reaches ignoreControlDep r n)) := by
  have hseen : ∀ n, n ∈ (PtrSet.insert ∅ root : PtrSet (DGNode V)) ↔ n = root := fun n => by simp
  have hfirst : Multigraph.FirstFrom DGEdge.srcNode DGEdge.dstNode (g.Follows ignoreControlDep)
      earlier root root := ⟨.refl, fun r hr hreach => hnew ((hchecked root).mpr ⟨r, hr, hreach⟩)⟩
  have hstart : Searching g ignoreControlDep earlier root (fun _ => False)
      (fun e => g.Follows ignoreControlDep e ∧ False)
      { nodesChecked := s.nodesChecked.insert root
        nodesSeen := PtrSet.insert ∅ root
        nodesToVisit := [root] } :=
    { cycle_eq := rfl
      root_seen := (hseen root).mpr rfl
      checked_iff := fun n => by rw [mem_insert, hchecked, hseen, or_comm]
      seen_first := fun n hn => (hseen n).mp hn ▸ hfirst
      seen_mem := fun n hn => (hseen n).mp hn ▸ hroot
      queue_nodup := nodup_singleton root
      queue_seen := fun n hn => (hseen n).mpr (mem_singleton.mp hn)
      expanded_iff := fun n => by simp
      done_follows := fun e he => he.2.elim
      done_dst := fun e he => he.2.elim
      entered := fun n hn hne => absurd ((hseen n).mp hn) hne
      once := fun e he => he.2.elim }
  have hpotential : potential g
      { nodesChecked := s.nodesChecked.insert root
        nodesSeen := PtrSet.insert ∅ root
        nodesToVisit := [root] } ≤ g.numNodes := by
    have hlt : (g.allNodes.elems.filter fun n => decide (n ∉ s.nodesChecked.insert root)).length <
        (g.allNodes.elems.filter fun _ => true).length :=
      length_filter_lt (fun _ _ _ => rfl) hroot rfl (by simp)
    rw [filter_true] at hlt
    exact hlt
  have hbody : ∀ s₁, (∃ Expanded, SearchedTo g ignoreControlDep earlier root Expanded
        (fun e => g.Follows ignoreControlDep e ∧ Expanded e.srcNode) s₁) → searchGoesOn s₁ = true →
      ∃ s₂, visitFront ord g ignoreControlDep s₁ = some s₂ ∧
        (∃ Expanded, SearchedTo g ignoreControlDep earlier root Expanded
          (fun e => g.Follows ignoreControlDep e ∧ Expanded e.srcNode) s₂) ∧
        potential g s₂ < potential g s₁ := by
    rintro s₁ ⟨Expanded, ⟨hcycle, _⟩ | hinv⟩ hcond
    · simp [searchGoesOn, hcycle] at hcond
    · have hqueue : s₁.nodesToVisit ≠ [] := fun hnil => by simp [searchGoesOn, hnil] at hcond
      obtain ⟨s₂, hs₂, hlt, hinv₂⟩ := hinv.visitFront ord hg hqueue
      exact ⟨s₂, hs₂, hinv₂, hlt⟩
  obtain ⟨s', hs', hinv, hstop⟩ := loopM_rule _ (potential g) hbody g.numNodes _
    ⟨_, .inr hstart⟩ hpotential
  refine ⟨s', hs', ?_⟩
  obtain ⟨Expanded, hcycle | hinv⟩ := hinv
  · exact .inl hcycle
  -- the queue is empty, so every node that was seen has been visited
  have hempty : s'.nodesToVisit = [] := by
    simpa [searchGoesOn, hinv.cycle_eq] using hstop
  have hexpanded : ∀ n, Expanded n ↔ n ∈ s'.nodesSeen := fun n => by
    rw [hinv.expanded_iff, hempty]
    simp
  have hfound : ∀ n, Multigraph.FirstFrom DGEdge.srcNode DGEdge.dstNode
      (g.Follows ignoreControlDep) earlier root n → n ∈ s'.nodesSeen := by
    rintro n ⟨hreach, hno⟩
    induction hreach with
    | refl => exact hinv.root_seen
    | tail _ hbc ih =>
        obtain ⟨e, he, rfl, rfl⟩ := id hbc
        have hmem := ih (Multigraph.not_reaches_of_reaches hno (.single hbc))
        have hdst := hinv.done_dst e ⟨he, (hexpanded _).mpr hmem⟩
        refine ((hinv.checked_iff _).mp hdst).resolve_left ?_
        rintro ⟨r, hr, hreach⟩
        exact hno r hr hreach
  refine .inr ⟨hinv.cycle_eq, fun e he hsrc hdst => ?_, fun n => ?_⟩
  · obtain ⟨hne, honce⟩ := hinv.once e ⟨he, (hexpanded _).mpr (hfound _ hsrc)⟩ (hfound _ hdst)
    exact ⟨hne, fun e' he' hsrc' heq =>
      honce e' ⟨he', (hexpanded _).mpr (hfound _ hsrc')⟩ heq⟩
  · rw [hinv.checked_iff]
    constructor
    · rintro (⟨r, hr, hreach⟩ | hn)
      · exact ⟨r, mem_append_left _ hr, hreach⟩
      · exact ⟨root, by simp, (hinv.seen_first n hn).1⟩
    · rintro ⟨r, hr, hreach⟩
      by_cases hearlier : ∃ r ∈ earlier, g.Reaches ignoreControlDep r n
      · exact .inl hearlier
      · rcases mem_append.mp hr with hr | hr
        · exact absurd ⟨r, hr, hreach⟩ hearlier
        · obtain rfl := mem_singleton.mp hr
          exact .inr (hfound n ⟨hreach, fun r' hr' hreach' => hearlier ⟨r', hr', hreach'⟩⟩)

end Search

/-! ## All searches -/

section HasCycle

variable {g : SCC V} {ignoreControlDep : Bool} {s : CycleSearch V}

/-- The state after the searches from some roots. -/
def SearchedFrom (g : SCC V) (ignoreControlDep : Bool) (roots : List (DGNode V))
    (s : CycleSearch V) : Prop :=
  (s.cycle = true ∧ ¬ Multigraph.ForestFrom DGEdge.srcNode DGEdge.dstNode
    (g.Follows ignoreControlDep) roots) ∨
  (s.cycle = false ∧ Multigraph.ForestFrom DGEdge.srcNode DGEdge.dstNode
      (g.Follows ignoreControlDep) roots ∧
    ∀ n, n ∈ s.nodesChecked ↔ ∃ r ∈ roots, g.Reaches ignoreControlDep r n)

/-- One more root is searched from. -/
theorem SearchedFrom.searchFrom {roots : List (DGNode V)} {root : DGNode V} {v : V}
    (h : SearchedFrom g ignoreControlDep roots s) (ord : IterOrder) (hg : g.WF)
    (hroot : root ∈ g.allNodes) :
    ∃ s', searchFrom ord g ignoreControlDep s ⟨v, some root⟩ = some s' ∧
      SearchedFrom g ignoreControlDep (roots ++ [root]) s' := by
  rcases h with ⟨hcycle, hno⟩ | ⟨hcycle, hforest, hchecked⟩
  · refine ⟨s, ?_, .inl ⟨hcycle, fun hforest => hno (Multigraph.forestFrom_concat.mp hforest).1⟩⟩
    simp [SCC.searchFrom, hcycle]
  by_cases hmem : root ∈ s.nodesChecked
  · -- what the root reaches, an earlier root reaches
    obtain ⟨r, hr, hreach⟩ := (hchecked root).mp hmem
    refine ⟨s, by simp [SCC.searchFrom, hcycle, hmem], .inr ⟨hcycle,
      Multigraph.forestFrom_concat.mpr ⟨hforest, fun e _ hsrc => ?_⟩, fun n => ?_⟩⟩
    · exact absurd (hreach.trans hsrc.1) (hsrc.2 r hr)
    · rw [hchecked]
      constructor
      · rintro ⟨r', hr', hn⟩
        exact ⟨r', mem_append_left _ hr', hn⟩
      · rintro ⟨r', hr', hn⟩
        rcases mem_append.mp hr' with hr' | hr'
        · exact ⟨r', hr', hn⟩
        · obtain rfl := mem_singleton.mp hr'
          exact ⟨r, hr, hreach.trans hn⟩
  · obtain ⟨s', hs', hresult⟩ := search_spec ord hg hroot hchecked hmem
    refine ⟨s', ?_, ?_⟩
    · simpa [SCC.searchFrom, hcycle, hmem] using hs'
    · rcases hresult with ⟨hcycle', hno⟩ | ⟨hcycle', htree, hchecked'⟩
      · exact .inl ⟨hcycle', fun h => hno (Multigraph.forestFrom_concat.mp h).2⟩
      · exact .inr ⟨hcycle', Multigraph.forestFrom_concat.mpr ⟨hforest, htree⟩, hchecked'⟩

/-- `hasCycle` returns, and it answers `false` exactly if no node is entered twice. -/
theorem hasCycle_spec (ord : IterOrder) (hg : g.WF) (ignoreControlDep : Bool) :
    ∃ b, g.hasCycle ord ignoreControlDep = some b ∧
      (b = false ↔ g.EnteredOnce ord ignoreControlDep) := by
  obtain ⟨s, hs, hresult⟩ := foldlM_rule (searchFrom ord g ignoreControlDep)
    (fun pre s => SearchedFrom g ignoreControlDep (pre.filterMap Sigma.snd) s)
    (l := ord.visit g.internalNodeMap.entries) (s := {})
    (.inr ⟨rfl, fun earlier root later heq => by simp at heq, fun n => by simp⟩)
    (by
      rintro pre ⟨v, p⟩ post s hl hinv
      have hentry : ⟨v, p⟩ ∈ g.internalNodeMap.entries :=
        ord.mem_visit.mp (hl ▸ mem_append_right pre (.head _))
      obtain ⟨root, hroot, rfl, rfl⟩ := hg.internal_node v p (AList.mem_lookup_iff.mpr hentry)
      obtain ⟨s', hs', hinv'⟩ := hinv.searchFrom ord hg hroot
      exact ⟨s', hs', by simpa [filterMap_append] using hinv'⟩)
  refine ⟨s.cycle, by rw [hasCycle, hs]; rfl, ?_⟩
  rcases hresult with ⟨hcycle, hno⟩ | ⟨hcycle, hforest, _⟩
  · exact iff_of_false (by simp [hcycle]) hno
  · exact iff_of_true hcycle hforest

theorem HasInternalCycle.not_enteredOnce (h : g.HasInternalCycle ignoreControlDep)
    (ord : IterOrder) : ¬ g.EnteredOnce ord ignoreControlDep := by
  obtain ⟨n, hcycle⟩ := h
  obtain ⟨m, hm, _⟩ := TransGen.head'_iff.mp hcycle
  have hroot : n ∈ roots ord g :=
    mem_filterMap.mpr ⟨⟨n.theT, some n⟩, ord.mem_visit.mpr (AList.mem_lookup_iff.mp hm.1), rfl⟩
  exact fun hforest => hforest.not_cycle hroot .refl
    (TransGen.mono (fun _ _ hab => hab.2.2) _ _ hcycle)

/-- **Cycle detection**: `hasCycle` answers whether the internal nodes have a cycle if
and only if they have one or no node is entered twice. -/
theorem hasCycle_correct_iff (ord : IterOrder) (hg : g.WF) (ignoreControlDep : Bool) :
    (∃ b, g.hasCycle ord ignoreControlDep = some b ∧
        (b = true ↔ g.HasInternalCycle ignoreControlDep)) ↔
      g.HasInternalCycle ignoreControlDep ∨ g.EnteredOnce ord ignoreControlDep := by
  obtain ⟨b, hb, hfalse⟩ := hasCycle_spec ord hg ignoreControlDep
  constructor
  · rintro ⟨b', hb', htrue⟩
    obtain rfl : b' = b := Option.mem_unique hb' hb
    cases b' with
    | false => exact .inr (hfalse.mp rfl)
    | true => exact .inl (htrue.mp rfl)
  · rintro (hcycle | honce)
    · have htrue : b = true := by
        rw [← Bool.not_eq_false, hfalse]
        exact hcycle.not_enteredOnce ord
      exact ⟨b, hb, iff_of_true htrue hcycle⟩
    · refine ⟨b, hb, iff_of_false (by simp [hfalse.mpr honce]) fun hcycle => ?_⟩
      exact hcycle.not_enteredOnce ord honce

/-- Two data dependences one way and a control dependence back. -/
def parallelHistory : List (DG.Op Nat (DGEdge Nat)) :=
  [.addNode 1 true, .addNode 2 true, .addVariableDataDependenceEdge 1 2 .raw,
    .addMemoryDataDependenceEdge 1 2 .raw true, .addControlDependenceEdge 2 1]

def parallelSCC : SCC Nat :=
  (DG.execute (fun _ => false) (DG.empty 0) parallelHistory).getD (DG.empty 0)

theorem parallelSCC_wf : parallelSCC.WF := (DG.clean_of_history _ 0 (by decide)).toWF

theorem parallelSCC_no_cycle : ¬ parallelSCC.HasInternalCycle true := by
  rintro ⟨n, hcycle⟩
  have hedge : ∀ e ∈ parallelSCC.allEdges.elems, skips true e = false →
      e.getSrc < e.getDst := by decide
  have hlt : ∀ {a b : DGNode Nat}, TransGen (fun a b => parallelSCC.IsInternalNode a ∧
      parallelSCC.IsInternalNode b ∧ parallelSCC.Arrow true a b) a b → a.theT < b.theT := by
    intro a b hab
    induction hab with
    | single h =>
        obtain ⟨_, _, e, he, rfl, rfl⟩ := h
        exact hedge e he.1 he.2
    | tail _ h ih =>
        obtain ⟨_, _, e, he, rfl, rfl⟩ := h
        exact ih.trans (hedge e he.1 he.2)
  exact lt_irrefl _ (hlt hcycle)

/-- Two dependences with the same ends count as a cycle. -/
theorem hasCycle_parallelSCC : parallelSCC.WF ∧
    parallelSCC.hasCycle .reversed true = some true ∧ ¬ parallelSCC.HasInternalCycle true :=
  ⟨parallelSCC_wf, by decide, parallelSCC_no_cycle⟩

theorem hasCycle_correct_iff_parallelSCC :
    (∃ b, parallelSCC.hasCycle .reversed true = some b ∧
        (b = true ↔ parallelSCC.HasInternalCycle true)) ↔
      parallelSCC.HasInternalCycle true ∨ parallelSCC.EnteredOnce .reversed true :=
  hasCycle_correct_iff .reversed parallelSCC_wf true

end HasCycle

end SCC

end Noelle
