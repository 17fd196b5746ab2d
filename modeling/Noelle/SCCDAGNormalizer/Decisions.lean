import Noelle.SCCDAGNormalizer.Convex
import Noelle.SCCDAGNormalizer.Groups

/-!
# SCCDAGNormalizer.Decisions

What the phases decide to merge.

Groups are disjoint sets of nodes, so merging one leaves the others as they are.  A
trailing branch has dependences to no other node and from some other one; no such
node is ever the node in front of another one.
-/

namespace Noelle

open SCCDAG PtrSet List

/-- The dependence graph of a loop: its loop-carried dependences end in instructions, and
every instruction of the loop is one of its values. -/
structure LoopGraph {V F B : Type} [DecidableEq V] [DecidableEq B] (ir : IR V B)
    (loop : LoopTree F B) (D : Multiset (Dep V)) (U : V → Prop) : Prop where
  dst_isInstruction : ∀ d ∈ D, d.isLoopCarried = true → ir.isInstruction d.dst = true
  instruction_mem : ∀ v, ir.isInstruction v = true →
    loop.getLoop.isIncluded (ir.getParent v) = true → U v

namespace SCCDAGNormalizer

variable {V F B : Type} [DecidableEq V] [DecidableEq F] [DecidableEq B] {ord : IterOrder}
  {subLC : DGEdge V → Bool} {ir : IR V B} {loop : LoopTree F B} {D : Multiset (Dep V)}
  {U : V → Prop} {s s' : SCCDAG V} {n : DGNode SccPtr}

/-! ## Pending merges -/

/-- The node is the last one of every path of dependences it is on, and not the only one. -/
structure IsTail (D : Multiset (Dep V)) (s : SCCDAG V) (t : DGNode SccPtr) : Prop where
  mem : t ∈ s.allNodes
  exists_dep : ∃ k ∈ s.allNodes, k ≠ t ∧ s.DepBetween D k t
  no_dep : ∀ k ∈ s.allNodes, k ≠ t → ¬ s.DepBetween D t k

/-- The merge is about nodes of the SCCDAG. -/
def ItemOk (D : Multiset (Dep V)) (s : SCCDAG V) : MergeItem → Prop
  | .group sccNodes => s.NodesOf sccNodes
  | .tailCmpBr t => IsTail D s t

/-- Two merges of one phase that do not get in each other's way. -/
def Apart : MergeItem → MergeItem → Prop
  | .group a, .group b => ∀ n ∈ a, n ∉ b
  | .tailCmpBr t, .tailCmpBr t' => t ≠ t'
  | _, _ => False

/-- The merges of a phase that are left. -/
structure Pending (D : Multiset (Dep V)) (s : SCCDAG V) (items : List MergeItem) : Prop where
  item_ok : ∀ item ∈ items, ItemOk D s item
  apart : items.Pairwise Apart

/-! ## Nodes of values -/

/-- A value of the loop has one SCC, which has a node. -/
theorem sccOfValue_spec (h : Linked subLC D U s) {v : V} (hv : U v) :
    ∃ n ∈ s.allNodes, s.Holds n v ∧ s.sccOfValue v = some n.theT ∧
      fetchSccNode s n.theT = some n := by
  obtain ⟨n, hn, hnv⟩ := (h.mem_values v).mp hv
  refine ⟨n, hn, hnv, ?_, h.clean.mapped n hn⟩
  rw [sccOfValue, (h.lookup_iff v n).mpr ⟨hn, hnv⟩]
  rfl

variable (ord) in
/-- An SCC has a first value. -/
theorem firstInternalValue_spec (h : Linked subLC D U s) (hn : n ∈ s.allNodes) :
    ∃ I, firstInternalValue ord (s.sccs n.theT) = some I := by
  obtain ⟨v, hv⟩ := h.nonempty n hn
  obtain ⟨p, hp⟩ := DG.isInternal_iff.mp hv
  obtain ⟨pair, _, hhead⟩ := ord.exists_head (ne_nil_of_mem (AList.mem_lookup_iff.mp hp))
  exact ⟨pair.1, by rw [firstInternalValue, hhead]; rfl⟩

/-- What `pairOf` answers: nothing, or two nodes of the SCCDAG. -/
def AnswersNodes (s : SCCDAG V) (answer : Option (Option (DGNode SccPtr × DGNode SccPtr))) : Prop :=
  answer = some none ∨ ∃ a b, answer = some (some (a, b)) ∧ a ∈ s.allNodes ∧ b ∈ s.allNodes

/-- Disjoint sets of nodes of the SCCDAG. -/
structure GroupsOk (s : SCCDAG V) (groups : List (PtrSet (DGNode SccPtr))) : Prop where
  nodes : ∀ g ∈ groups, s.NodesOf g
  disjoint : groups.Pairwise fun g g' => ∀ n ∈ g, n ∉ g'

theorem GroupsOk.pending {groups : List (PtrSet (DGNode SccPtr))} (h : GroupsOk s groups) :
    Pending D s (groups.map .group) where
  item_ok item hitem := by
    obtain ⟨g, hg, rfl⟩ := mem_map.mp hitem
    exact h.nodes g hg
  apart := pairwise_map.mpr h.disjoint

variable (ord) in
omit [DecidableEq V] in
theorem groupsOk_of_ok {m : MergeGroups} (h : m.Ok (· ∈ s.allNodes)) :
    GroupsOk s ((ord.visit m.groups.elems).map m.nodes) := by
  have hmem : ∀ g ∈ ord.visit m.groups.elems, g ∈ m.groups := fun g hg =>
    mem_elems.mp (ord.mem_visit.mp hg)
  refine ⟨fun set hset => ?_, ?_⟩
  · obtain ⟨g, hg, rfl⟩ := mem_map.mp hset
    exact h.node_ok g (hmem g hg)
  · refine pairwise_map.mpr ((ord.nodup_visit m.groups.nodup).imp_of_mem ?_)
    intro g g' hg hg' hne n hn hn'
    exact hne (h.group_unique (hmem g hg) (hmem g' hg') hn hn')

variable (ord) in
theorem mergesOf_eq (m : MergeGroups) :
    mergesOf ord m = ((ord.visit m.groups.elems).map m.nodes).map .group := by
  rw [mergesOf, map_map]
  rfl

variable (ord) in
omit [DecidableEq V] in
/-- The groups of found pairs can be merged. -/
theorem groups_spec {α : Type} {l : List α}
    {pairOf : α → Option (Option (DGNode SccPtr × DGNode SccPtr))}
    (hpair : ∀ x ∈ l, AnswersNodes s (pairOf x)) :
    ∃ groups, (MergeGroups.ofPairs pairOf l).map (mergesOf ord) = some (groups.map .group) ∧
      GroupsOk s groups := by
  obtain ⟨m, hm, hok⟩ := MergeGroups.ofPairs_spec (N := (· ∈ s.allNodes)) hpair
  exact ⟨_, by rw [hm, ← mergesOf_eq]; rfl, groupsOk_of_ok ord hok⟩

/-! ## LCSSA PHIs -/

omit [DecidableEq F] in
/-- The search for the pair of an LCSSA PHI answers with nodes. -/
theorem lcssaPhiPair_spec (h : Linked subLC D U s) (hloop : LoopGraph ir loop D U)
    (hn : n ∈ s.allNodes) : AnswersNodes s (lcssaPhiPair ord ir loop s n) := by
  obtain ⟨I, hI⟩ := firstInternalValue_spec ord h hn
  unfold lcssaPhiPair
  by_cases hone : (s.sccs n.theT).numInternalNodes = 1
  · simp only [hone, ne_eq, not_true_eq_false, if_false, hI, Option.bind_eq_bind, Option.bind_some]
    split
    · rename_i incomingI _
      cases hphi : ir.isPHINode incomingI with
      | false => exact .inl (by simp)
      | true =>
          cases hin : loop.getInnermostLoopThatContains (ir.getParent incomingI) with
          | none => exact .inl (by simp)
          | some incomingLoop =>
              have hinst : ir.isInstruction incomingI = true := by
                unfold IR.isPHINode at hphi
                unfold IR.isInstruction
                cases hk : ir.kind incomingI <;> simp_all
              obtain ⟨m, hm, _, hscc, hfetch⟩ := sccOfValue_spec h
                (hloop.instruction_mem incomingI hinst (LoopTree.isIncluded_of_getInnermost hin))
              by_cases hheader : incomingLoop.getHeader = ir.getParent incomingI
              · exact .inr ⟨m, n, by simp [hheader, hscc, hfetch], hm, hn⟩
              · exact .inl (by simp [hheader])
    · exact .inl rfl
  · exact .inl (by simp [hone])

variable (ord) in
omit [DecidableEq F] in
/-- The LCSSA PHIs form groups. -/
theorem lcssaPhiGroups_spec (h : Linked subLC D U s) (hloop : LoopGraph ir loop D U) :
    ∃ groups, lcssaPhiGroups ord ir loop s = some (groups.map .group) ∧ GroupsOk s groups :=
  groups_spec ord fun _ hn =>
    lcssaPhiPair_spec h hloop (mem_elems.mp (ord.mem_visit.mp hn))

/-! ## Loop-carried dependences -/

def IsSccEdge (s : SCCDAG V) (e : DGEdge V) : Prop :=
  ∃ n ∈ s.allNodes, e ∈ (s.sccs n.theT).allEdges

section

variable (h : Linked subLC D U s)

include h

omit [DecidableEq F] in
/-- The test of an edge inside an SCC answers. -/
theorem isOfLoop_spec (hloop : LoopGraph ir loop D U) (hn : n ∈ s.allNodes) (LS : LoopStructure F B)
    {e : DGEdge V} (he : e ∈ (s.sccs n.theT).allEdges) :
    ∃ b, LoopCarriedDependencies.isOfLoop ir LS loop (s.sccs n.theT) e = some b := by
  unfold LoopCarriedDependencies.isOfLoop
  cases hlc : ((s.sccs n.theT).edgeAttr e).isLoopCarried with
  | false => exact ⟨false, rfl⟩
  | true =>
      have hdst : ir.isInstruction e.getDst = true := by
        refine hloop.dst_isInstruction _ (h.dep_of_edge hn he).1 ?_
        rw [h.nodeStore_dep hn he]
        exact hlc
      rw [hdst]
      cases hin : loop.getInnermostLoopThatContains (ir.getParent e.getDst) with
      | none => exact ⟨false, rfl⟩
      | some consumerLoop =>
          by_cases hself : consumerLoop.self = LS.self
          · cases hsrc : ir.isInstruction e.getSrc with
            | false => exact ⟨false, by simp [hself]⟩
            | true => exact ⟨_, by simp [hself]; rfl⟩
          · exact ⟨false, by simp [hself]⟩

variable (ord) in
omit [DecidableEq F] in
/-- The carried edges are edges inside an SCC. -/
theorem getLoopCarriedDependenciesForLoop_spec (hloop : LoopGraph ir loop D U)
    (LS : LoopStructure F B) :
    ∃ LCEdges, LoopCarriedDependencies.getLoopCarriedDependenciesForLoop ord ir LS loop s =
      some LCEdges ∧ ∀ e ∈ LCEdges, IsSccEdge s e := by
  refine foldlM_rule _ (fun _ LCEdges => ∀ e ∈ LCEdges, IsSccEdge s e)
    (fun e he => absurd he (not_mem_empty e)) ?_
  intro pre sccNode post LCEdges hsplit hLC
  have hn : sccNode ∈ s.allNodes :=
    mem_elems.mp (ord.mem_visit.mp (by rw [hsplit]; simp))
  refine foldlM_rule _ (fun _ LCEdges => ∀ e ∈ LCEdges, IsSccEdge s e) hLC ?_
  intro pre' edge post' LCEdges' hsplit' hLC'
  have he : edge ∈ (s.sccs sccNode.theT).allEdges :=
    mem_elems.mp (ord.mem_visit.mp (by rw [hsplit']; simp))
  obtain ⟨b, hb⟩ := isOfLoop_spec h hloop hn LS he
  rw [hb]
  cases b with
  | false => exact ⟨LCEdges', rfl, hLC'⟩
  | true =>
      refine ⟨LCEdges'.insert edge, rfl, fun e hmem => ?_⟩
      cases mem_insert.mp hmem with
      | inl heq => exact heq ▸ ⟨sccNode, hn, he⟩
      | inr hmem => exact hLC' e hmem

variable (ord) in
/-- The carried edges of all the loops are edges inside an SCC. -/
theorem loopCarriedEdges_spec (hloop : LoopGraph ir loop D U) :
    ∃ edges, loopCarriedEdges ord ir loop s = some edges ∧ ∀ e ∈ edges, IsSccEdge s e := by
  refine foldlM_rule _ (fun _ edges => ∀ e ∈ edges, IsSccEdge s e)
    nofun ?_
  intro pre l post edges _ hedges
  obtain ⟨LCEdges, hLC, hmem⟩ := getLoopCarriedDependenciesForLoop_spec ord h hloop l
  refine ⟨edges ++ ord.visit LCEdges.elems, by rw [hLC]; rfl, fun e he => ?_⟩
  cases mem_append.mp he with
  | inl he => exact hedges e he
  | inr he => exact hmem e (mem_elems.mp (ord.mem_visit.mp he))

/-- The search for the ends of a carried edge answers with nodes. -/
theorem loopCarriedPair_spec {e : DGEdge V} (he : IsSccEdge s e) :
    AnswersNodes s (loopCarriedPair s e) := by
  obtain ⟨n, hn, he⟩ := he
  have hvalues := h.dep_values _ (h.dep_of_edge hn he).1
  obtain ⟨k, hk, hkv, hksrc, hkfetch⟩ := sccOfValue_spec h hvalues.1
  obtain ⟨m, hm, hmv, hmdst, hmfetch⟩ := sccOfValue_spec h hvalues.2
  unfold loopCarriedPair
  cases hdata : e.kind.isData with
  | false => exact .inl (by simp)
  | true =>
      have hksrc' : s.sccOfValue e.getSrc = some k.theT := hksrc
      have hmdst' : s.sccOfValue e.getDst = some m.theT := hmdst
      cases hext : (s.sccs k.theT).isExternal e.getDst with
      | false => exact .inl (by simp [hksrc', hext])
      | true =>
          have hne : k.theT ≠ m.theT := by
            intro heq
            have hint : (s.sccs k.theT).isInternal e.getDst = true := by
              rw [heq]
              exact hmv
            rw [(h.represents k hk).ok.disjoint _ hint] at hext
            cases hext
          exact .inr ⟨k, m, by simp [hksrc', hmdst', hext, hne, hkfetch, hmfetch], hk, hm⟩

variable (ord) in
/-- The carried edges form groups. -/
theorem loopCarriedGroups_spec (hloop : LoopGraph ir loop D U) :
    ∃ groups, loopCarriedGroups ord ir loop s = some (groups.map .group) ∧ GroupsOk s groups := by
  obtain ⟨edges, hedges, hmem⟩ := loopCarriedEdges_spec ord h hloop
  obtain ⟨groups, hgroups, hok⟩ := groups_spec ord fun e he => loopCarriedPair_spec h (hmem e he)
  exact ⟨groups, by rw [loopCarriedGroups, hedges]; exact hgroups, hok⟩

/-! ## Syntactic sugar -/

/-- A pair of the internal map is a node and its SCC. -/
theorem internalNodePair_spec {pair : (_ : SccPtr) × Option (DGNode SccPtr)}
    (hpair : pair ∈ ord.visit s.internalNodeMap.entries) :
    ∃ n ∈ s.allNodes, pair.2 = some n ∧ n.theT = pair.1 :=
  h.clean.internal_node pair.1 pair.2 (AList.mem_lookup_iff.mpr (ord.mem_visit.mp hpair))

variable (ord) in
theorem exists_outgoing (hn : n ∈ s.allNodes) (hdeg : 0 < s.outDegree n) :
    ∃ e, (ord.visit (s.outgoingEdges n).elems).head? = some e ∧ e ∈ s.allEdges ∧ e.srcNode = n := by
  obtain ⟨e, he, hhead⟩ := ord.exists_head (ne_nil_of_length_pos hdeg)
  exact ⟨e, hhead, (h.clean.mem_outgoing n hn e).mp he⟩

variable (ord) in
theorem exists_incoming (hn : n ∈ s.allNodes) (hdeg : 0 < s.inDegree n) :
    ∃ e, (ord.visit (s.incomingEdges n).elems).head? = some e ∧ e ∈ s.allEdges ∧ e.dstNode = n := by
  obtain ⟨e, he, hhead⟩ := ord.exists_head (ne_nil_of_length_pos hdeg)
  exact ⟨e, hhead, (h.clean.mem_incoming n hn e).mp he⟩

variable (ord ir) in
omit [DecidableEq B] in
/-- The search for a neighbour answers with a node or none. -/
theorem adjacentNode_spec (hn : n ∈ s.allNodes) (I : V) :
    ∃ answer, adjacentNode ord ir s I n = some answer ∧ ∀ m ∈ answer, m ∈ s.allNodes := by
  have hout : ∃ outgoing, onlyChild ord s n = some outgoing ∧ ∀ m ∈ outgoing, m ∈ s.allNodes := by
    unfold onlyChild
    by_cases hdeg : s.outDegree n = 1
    · obtain ⟨e, hhead, he, _⟩ := exists_outgoing ord h hn (by omega)
      refine ⟨some e.dstNode, by rw [if_pos hdeg, hhead]; rfl, fun m hm => ?_⟩
      exact Option.some.inj hm ▸ (h.clean.edge_nodes he).2
    · exact ⟨none, if_neg hdeg, fun m hm => by cases hm⟩
  obtain ⟨outgoing, houtgoing, hnodes⟩ := hout
  unfold adjacentNode
  rw [houtgoing]
  by_cases hdeg : s.inDegree n = 1
  · obtain ⟨e, hhead, he, _⟩ := exists_incoming ord h hn (by omega)
    have hsrc := (h.clean.edge_nodes he).1
    rw [hhead]
    cases outgoing with
    | none => exact ⟨some e.srcNode, by simp [hdeg], fun m hm => Option.some.inj hm ▸ hsrc⟩
    | some dst =>
        refine ⟨some (if ir.isPHINode I || ir.isCastInst I then e.srcNode else dst),
          by simp [hdeg], fun m hm => ?_⟩
        cases hm
        split
        · exact hsrc
        · exact hnodes dst rfl
  · exact ⟨outgoing, by simp [hdeg], hnodes⟩

variable (ord ir) in
omit [DecidableEq B] in
/-- The search for the user of a cast answers with nodes. -/
theorem syntacticSugarPair_spec {pair : (_ : SccPtr) × Option (DGNode SccPtr)}
    (hpair : pair ∈ ord.visit s.internalNodeMap.entries) :
    AnswersNodes s (syntacticSugarPair ord ir s pair) := by
  obtain ⟨n, hn, hpn, ht⟩ := internalNodePair_spec h hpair
  obtain ⟨I, hI⟩ := firstInternalValue_spec ord h hn
  obtain ⟨answer, hanswer, hnodes⟩ := adjacentNode_spec ord ir h hn I
  unfold syntacticSugarPair
  rw [← ht, hpn]
  by_cases hone : 1 < (s.sccs n.theT).numInternalNodes
  · exact .inl (by simp [hone])
  · simp only [hone, if_false, Option.bind_eq_bind, hI, Option.bind_some]
    cases hsugar : (!ir.isPHINode I && !ir.isGetElementPtrInst I && !ir.isCastInst I) with
    | true => exact .inl rfl
    | false =>
        cases answer with
        | none => exact .inl (by simp [hanswer])
        | some m => exact .inr ⟨n, m, by simp [hanswer], hn, hnodes m rfl⟩

variable (ord ir) in
omit [DecidableEq B] in
/-- The casts and their users form groups. -/
theorem syntacticSugarGroups_spec :
    ∃ groups, syntacticSugarGroups ord ir s = some (groups.map .group) ∧ GroupsOk s groups :=
  groups_spec ord fun _ hpair => syntacticSugarPair_spec ord ir h hpair

/-! ## Trailing compares and branches -/

theorem isTail_of_degrees (hdag : IsDAG D s) (hn : n ∈ s.allNodes) (hin : 0 < s.inDegree n)
    (hout : s.outDegree n = 0) : IsTail D s n := by
  obtain ⟨e, _, he, hdst⟩ := exists_incoming .stored h hn hin
  refine ⟨hn, ⟨e.srcNode, (h.clean.edge_nodes he).1, hdst ▸ h.edges.irrefl e he, ?_⟩, ?_⟩
  · exact hdst ▸ h.edges.dep_of_edge e he
  · intro k hk hkn hdep
    obtain ⟨e', he', hsrc, _⟩ := h.edge_of_depBetween hn hk hkn.symm hdep fun hback =>
      hdag.not_twoWay hn hk hkn.symm ⟨hdep, hback⟩
    have hmem : e' ∈ (s.outgoingEdges n).elems := (h.clean.mem_outgoing n hn e').mpr ⟨he', hsrc⟩
    exact absurd (length_pos_of_mem hmem) (Nat.not_lt.mpr (Nat.le_of_eq hout))

variable (ord ir) in
omit [DecidableEq B] in
/-- A tail has an incoming edge and no outgoing one. -/
theorem isTailCmpBr_spec {pair : (_ : SccPtr) × Option (DGNode SccPtr)}
    (hpair : pair ∈ ord.visit s.internalNodeMap.entries) :
    ∃ b n, isTailCmpBr ir s pair = some b ∧ pair.2 = some n ∧ n.theT = pair.1 ∧
      (b = true → n ∈ s.allNodes ∧ 0 < s.inDegree n ∧ s.outDegree n = 0) := by
  obtain ⟨n, hn, hpn, ht⟩ := internalNodePair_spec h hpair
  unfold isTailCmpBr
  rw [hpn]
  by_cases hdeg : s.inDegree n = 0 ∨ 0 < s.outDegree n
  · refine ⟨false, n, ?_, rfl, ht, fun hb => by cases hb⟩
    simp [hdeg]
  · obtain ⟨hin, hout⟩ := not_or.mp hdeg
    refine ⟨(s.sccs pair.1).internalNodeMap.entries.all fun nodePair =>
        ir.isCmpInst nodePair.1 || (ir.isInstruction nodePair.1 && ir.isTerminator nodePair.1),
      n, ?_, rfl, ht, fun _ => ⟨hn, by omega, by omega⟩⟩
    have hif : (decide (s.inDegree n = 0) || decide (0 < s.outDegree n)) = false := by
      simp [hin, hout]
    simp only [Option.bind_eq_bind, Option.bind_some, hif]
    rfl

variable (ord ir) in
omit [DecidableEq B] in
/-- The tails found are distinct and have no outgoing edge. -/
theorem exists_tails : ∃ tails : List (DGNode SccPtr),
    tailCmpBrs ord ir s = some (tails.map .tailCmpBr) ∧ tails.Nodup ∧
      ∀ t ∈ tails, t ∈ s.allNodes ∧ 0 < s.inDegree t ∧ s.outDegree t = 0 := by
  have hkeys : ((ord.visit s.internalNodeMap.entries).map Sigma.fst).Nodup :=
    ((ord.visit_perm _).map Sigma.fst).nodup_iff.mpr s.internalNodeMap.nodupKeys
  have hloop : ∃ items, tailCmpBrs ord ir s = some items ∧
      ∃ tails : List (DGNode SccPtr), items = tails.map MergeItem.tailCmpBr ∧
        (∀ t ∈ tails, (t ∈ s.allNodes ∧ 0 < s.inDegree t ∧ s.outDegree t = 0) ∧
          t.theT ∈ (ord.visit s.internalNodeMap.entries).map Sigma.fst) ∧ tails.Nodup := by
    refine foldlM_rule _ (fun pre items => ∃ tails : List (DGNode SccPtr),
      items = tails.map MergeItem.tailCmpBr ∧
      (∀ t ∈ tails, (t ∈ s.allNodes ∧ 0 < s.inDegree t ∧ s.outDegree t = 0) ∧
        t.theT ∈ pre.map Sigma.fst) ∧ tails.Nodup)
      ⟨[], rfl, nofun, nodup_nil⟩ ?_
    rintro pre pair post _ hsplit ⟨tails, rfl, htails, hnodup⟩
    obtain ⟨b, n, hb, hpn, ht, htail⟩ := isTailCmpBr_spec ord ir h
      (show pair ∈ ord.visit s.internalNodeMap.entries by rw [hsplit]; simp)
    have hold : ∀ t ∈ tails, (t ∈ s.allNodes ∧ 0 < s.inDegree t ∧ s.outDegree t = 0) ∧
        t.theT ∈ (pre ++ [pair]).map Sigma.fst := fun t hmem =>
      ⟨(htails t hmem).1, by
        rw [map_append]
        exact mem_append_left _ (htails t hmem).2⟩
    rw [hb]
    cases b with
    | false => exact ⟨_, rfl, tails, rfl, hold, hnodup⟩
    | true =>
        refine ⟨_, rfl, tails ++ [n], by simp [hpn], fun t hmem => ?_, ?_⟩
        · cases mem_append.mp hmem with
          | inl hmem => exact hold t hmem
          | inr hmem =>
              obtain rfl := mem_singleton.mp hmem
              exact ⟨htail rfl, by simp [ht]⟩
        · have hfresh : n ∉ tails := by
            intro hmem
            have hpre := (htails n hmem).2
            rw [hsplit, map_append, map_cons, ht.symm] at hkeys
            exact disjoint_of_nodup_append hkeys hpre (.head _)
          exact nodup_append.mpr ⟨hnodup, nodup_singleton n, fun a ha b hb hab =>
            hfresh (mem_singleton.mp hb ▸ hab ▸ ha)⟩
  obtain ⟨items, hitems, tails, rfl, htails, hnodup⟩ := hloop
  exact ⟨tails, hitems, hnodup, fun t ht => (htails t ht).1⟩

omit [DecidableEq B] in
/-- The tails found are pending. -/
theorem tailCmpBrs_spec (hdag : IsDAG D s) :
    ∃ items, tailCmpBrs ord ir s = some items ∧ Pending D s items := by
  obtain ⟨tails, hitems, hnodup, htails⟩ := exists_tails ord ir h
  refine ⟨_, hitems, fun item hmem => ?_, pairwise_map.mpr hnodup⟩
  obtain ⟨t, ht, rfl⟩ := mem_map.mp hmem
  obtain ⟨hn, hin, hout⟩ := htails t ht
  exact isTail_of_degrees h hdag hn hin hout

end

end SCCDAGNormalizer

end Noelle
