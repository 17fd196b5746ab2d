import Mathlib.Algebra.Order.BigOperators.Group.List
import Noelle.Lib.Reordering
import Noelle.SCCDAG.MergedNodes
import Noelle.SCCPartitionScheduler.Basic

/-!
# SCCPartitionScheduler.Squeeze

Squeezing reorders blocks and keeps the order of dependent instructions.

What is hoisted is visited in the order of the block, so the target is always above the instruction
that moves next and the walk up never gets to the beginning of the block.  It stops below everything
that the instruction depends on, which is why a single move is a reordering in the sense of
`Reorders`; the PHIs and the terminator are kept in place by treating them as dependences.
-/

namespace Noelle

open SCCDAG PtrSet List Option

/-- The PHIs of a block come first. -/
def SchedulerFunction.PHIsFirst {V B : Type} (fn : SchedulerFunction V B) : Prop :=
  ∀ b, (fn.instructions b).Pairwise fun i j => fn.ir.isPHINode j = true → fn.ir.isPHINode i = true

namespace SCCPartitionScheduler

variable {V B : Type} [DecidableEq V] [DecidableEq B] {ord : IterOrder}
  {sps : SCCPartitionScheduler V} {fn : SchedulerFunction V B} {subLC : DGEdge V → Bool}
  {D : Multiset (Dep V)} {U : V → Prop} {i : V}

/-! ## What is consumed -/

/-- What `consumedInstructions` can hold. -/
def Consumable (fn : SchedulerFunction V B) (i v : V) : Prop :=
  v ≠ i ∧ fn.ir.isInstruction v = true ∧ fn.ir.getParent v = fn.ir.getParent i

theorem consumeEdge_cases (fn : SchedulerFunction V B) (i : V)
    (st : List (DGNode V) × PtrSet V) (edge : DGEdge V) :
    (Consumable fn i edge.getSrc → edge.getSrc ∈ st.2) ∧ consumeEdge fn i st edge = st ∨
    Consumable fn i edge.getSrc ∧ edge.getSrc ∉ st.2 ∧
      consumeEdge fn i st edge = (st.1 ++ [edge.srcNode], st.2.insert edge.getSrc) := by
  unfold consumeEdge Consumable
  by_cases hself : edge.getSrc = i
  · exact .inl ⟨fun h => absurd hself h.1, by simp [hself]⟩
  · cases hinst : fn.ir.isInstruction edge.getSrc with
    | false => exact .inl ⟨fun h => Bool.noConfusion h.2.1, by simp [hself, hinst]⟩
    | true =>
        by_cases hparent : fn.ir.getParent edge.getSrc = fn.ir.getParent i
        · by_cases hmem : edge.getSrc ∈ st.2
          · exact .inl ⟨fun _ => hmem, by simp [hself, hinst, hparent, hmem]⟩
          · exact .inr ⟨⟨hself, rfl, hparent⟩, hmem, by simp [hself, hinst, hparent, hmem]⟩
        · exact .inl ⟨fun h => absurd h.2.2 hparent, by simp [hself, hinst, hparent]⟩

/-- Between two edges: the queue has nodes of the SCC, and what was consumed is the source of an
edge. -/
structure Consuming (fn : SchedulerFunction V B) (scc : SCC V) (i : V)
    (st : List (DGNode V) × PtrSet V) : Prop where
  nodes : ∀ n ∈ st.1, n ∈ scc.allNodes
  consumed : ∀ v ∈ st.2, Consumable fn i v ∧ ∃ e ∈ scc.allEdges, e.getSrc = v

/-- The values of the SCC that are still to be consumed, and the queue. -/
def remaining (scc : SCC V) (st : List (DGNode V) × PtrSet V) : Nat :=
  st.1.length + unfound (scc.allNodes.elems.map DGNode.theT) st.2

/-- The sources of the edges are consumed. -/
theorem Consuming.edges {scc : SCC V} (hscc : scc.WF) {st : List (DGNode V) × PtrSet V}
    (h : Consuming fn scc i st) {edges : List (DGEdge V)} (hedges : ∀ e ∈ edges, e ∈ scc.allEdges) :
    Consuming fn scc i (edges.foldl (consumeEdge fn i) st) ∧
      (∀ n ∈ st.1, n ∈ (edges.foldl (consumeEdge fn i) st).1) ∧
      (∀ v ∈ st.2, v ∈ (edges.foldl (consumeEdge fn i) st).2) ∧
      (∀ e ∈ edges, Consumable fn i e.getSrc → e.getSrc ∈ (edges.foldl (consumeEdge fn i) st).2) ∧
      remaining scc (edges.foldl (consumeEdge fn i) st) ≤ remaining scc st := by
  refine foldl_rule (consumeEdge fn i) (fun pre st' => Consuming fn scc i st' ∧
    (∀ n ∈ st.1, n ∈ st'.1) ∧ (∀ v ∈ st.2, v ∈ st'.2) ∧
    (∀ e ∈ pre, Consumable fn i e.getSrc → e.getSrc ∈ st'.2) ∧ remaining scc st' ≤ remaining scc st)
    ⟨h, fun _ hn => hn, fun _ hv => hv, nofun, le_rfl⟩ ?_
  rintro pre e post st' hsplit ⟨hst, hqueue, hold, hseen, hle⟩
  have he : e ∈ scc.allEdges := hedges e (by simp [hsplit])
  have hsrc := (hscc.edge_nodes he).1
  rcases consumeEdge_cases fn i st' e with ⟨hskip, heq⟩ | ⟨hcan, hnew, heq⟩
  · rw [heq]
    refine ⟨hst, hqueue, hold, fun e' he' hcan => ?_, hle⟩
    rcases mem_append.mp he' with he' | he'
    · exact hseen e' he' hcan
    · obtain rfl := mem_singleton.mp he'
      exact hskip hcan
  · rw [heq]
    refine ⟨⟨fun n hn => ?_, fun v hv => ?_⟩, fun n hn => mem_append_left _ (hqueue n hn),
      fun v hv => mem_insert.mpr (.inr (hold v hv)), fun e' he' hcan' => ?_, ?_⟩
    · rcases mem_append.mp hn with hn | hn
      · exact hst.nodes n hn
      · exact mem_singleton.mp hn ▸ hsrc
    · rcases mem_insert.mp hv with rfl | hv
      · exact ⟨hcan, e, he, rfl⟩
      · exact hst.consumed v hv
    · rw [mem_insert]
      rcases mem_append.mp he' with he' | he'
      · exact .inr (hseen e' he' hcan')
      · exact .inl (mem_singleton.mp he' ▸ rfl)
    · have hlt := unfound_insert_lt (mem_map_of_mem (f := DGNode.theT) hsrc) hnew
      simp only [remaining, length_append, length_singleton] at hle ⊢
      unfold DGEdge.getSrc at hlt ⊢
      omega

/-- What `collectDependedOnInstructionsWithinBlock` returns for an instruction: others of its block,
among them all on which it depends itself. -/
structure Consumes (fn : SchedulerFunction V B) (D : Multiset (Dep V)) (U : V → Prop) (i : V)
    (consumed : PtrSet V) : Prop where
  consumable : ∀ v ∈ consumed, Consumable fn i v
  value : ∀ v ∈ consumed, U v
  direct : ∀ d ∈ D, d.dst = i → Consumable fn i d.src → d.src ∈ consumed

def searchFuel (s : SCCDAG V) : Nat :=
  (s.allNodes.elems.map fun n => (s.sccs n.theT).allNodes.size).sum + 1

variable {fuel : Nat} {b : B} {pre back : List V} {target : V}

/-- The search ends, with all that the instruction depends on in its block. -/
theorem collectDependedOnInstructionsWithinBlock_spec (ord : IterOrder) (fn : SchedulerFunction V B)
    (h : Linked subLC D U sps.loopSCCDAG) (hi : U i) (hfuel : searchFuel sps.loopSCCDAG ≤ fuel) :
    ∃ consumed, sps.collectDependedOnInstructionsWithinBlock ord fuel fn i = some consumed ∧
      Consumes fn D U i consumed := by
  obtain ⟨k, hk, hholds⟩ := (h.mem_values i).mp hi
  have hscc : sps.loopSCCDAG.sccOfValue i = some k.theT := by
    rw [sccOfValue, (h.lookup_iff i k).mpr ⟨hk, hholds⟩]
    rfl
  have hrep := h.represents k hk
  have hwf : (sps.loopSCCDAG.sccs k.theT).WF := hrep.ok.toWF
  obtain ⟨n, hn⟩ := hwf.exists_nodeOf (t := i) (by
    rw [DG.isInGraph]
    exact Bool.or_eq_true_iff.mpr (.inl hholds))
  obtain ⟨hnode, hvalue⟩ := hwf.nodeOf_mem hn
  have hsize : (sps.loopSCCDAG.sccs k.theT).allNodes.size + 1 ≤ fuel := by
    have hle := le_sum_of_mem
      (mem_map_of_mem (f := fun n => (sps.loopSCCDAG.sccs n.theT).allNodes.size) hk)
    unfold searchFuel at hfuel
    omega
  obtain ⟨⟨queue, consumed⟩, hloop, ⟨hst, hdirect⟩, hend⟩ := @loopM_rule
    (List (DGNode V) × PtrSet V) (fun st => !st.1.isEmpty)
    (consumeNode ord fn (sps.loopSCCDAG.sccs k.theT) i)
    -- the node of the instruction is in the queue or its edges were visited
    (fun st => Consuming fn (sps.loopSCCDAG.sccs k.theT) i st ∧ (n ∈ st.1 ∨
      ∀ e ∈ (sps.loopSCCDAG.sccs k.theT).allEdges, e.dstNode = n → Consumable fn i e.getSrc →
        e.getSrc ∈ st.2))
    (remaining (sps.loopSCCDAG.sccs k.theT))
    (by
      rintro ⟨queue, consumed⟩ ⟨hst, hdirect⟩ hcond
      cases queue with
      | nil => exact absurd hcond Bool.false_ne_true
      | cons m queue =>
          have hm := hst.nodes m (.head _)
          have hincoming : ∀ e, e ∈ ord.visit
              ((sps.loopSCCDAG.sccs k.theT).incomingEdges m).elems ↔
              e ∈ (sps.loopSCCDAG.sccs k.theT).allEdges ∧ e.dstNode = m := fun e => by
            rw [ord.mem_visit, mem_elems, hwf.mem_incoming m hm]
          have htail : Consuming fn (sps.loopSCCDAG.sccs k.theT) i (queue, consumed) :=
            ⟨fun x hx => hst.nodes x (.tail m hx), hst.consumed⟩
          obtain ⟨hst', hqueue, hold, hseen, hle⟩ := htail.edges hwf
            fun e he => ((hincoming e).mp he).1
          refine ⟨_, rfl, ⟨hst', ?_⟩, ?_⟩
          · rcases hdirect with hmem | hdone
            · rcases mem_cons.mp hmem with rfl | hmem
              · exact .inr fun e he hdst => hseen e ((hincoming e).mpr ⟨he, hdst⟩)
              · exact .inl (hqueue n hmem)
            · exact .inr fun e he hdst hcan => hold _ (hdone e he hdst hcan)
          · refine Nat.lt_of_le_of_lt hle ?_
            simp only [remaining, length_cons]
            omega)
    fuel ([n], ∅)
    ⟨⟨fun m hm => mem_singleton.mp hm ▸ hnode, fun v hv => absurd hv (not_mem_empty v)⟩,
      .inl (mem_singleton_self n)⟩
    (by
      have hle : unfound ((sps.loopSCCDAG.sccs k.theT).allNodes.elems.map DGNode.theT) ∅ ≤
          (sps.loopSCCDAG.sccs k.theT).allNodes.size := by
        refine (length_filter_le _ _).trans ?_
        rw [length_map]
        exact le_rfl
      simp only [remaining, length_singleton]
      omega)
  obtain rfl : queue = [] := by simpa using hend
  refine ⟨consumed, ?_, fun v hv => (hst.consumed v hv).1, fun v hv => ?_, fun d hd hdst hcan => ?_⟩
  · simp [collectDependedOnInstructionsWithinBlock, hscc, hn, hloop]
  · obtain ⟨-, e, he, rfl⟩ := hst.consumed v hv
    exact (h.dep_values _ (h.dep_of_edge hk he).1).1
  · obtain ⟨e, he, hsrc, hdst'⟩ := h.edge_of_dep hk hd (.inr (hdst ▸ hholds))
    rw [← hsrc] at hcan ⊢
    refine hdirect.resolve_left not_mem_nil e he ?_ hcan
    have hmapped := (hwf.edge_mapped e he).2
    rw [hdst', hdst, hn] at hmapped
    exact (some.inj hmapped).symm

/-! ## One move -/

omit [DecidableEq B] in
theorem getNextNode_eq (hl : fn.instructions b = pre ++ i :: back)
    (hi : i ∉ pre) : fn.getNextNode b i = back.head? := by
  have hpre : ∀ v ∈ pre, decide (v ≠ i) = true := fun v hv =>
    decide_eq_true fun heq => hi (heq ▸ hv)
  have hdrop : (pre ++ i :: back).dropWhile (fun v => decide (v ≠ i)) = i :: back := by
    rw [dropWhile_append_of_pos hpre]
    simp
  rw [SchedulerFunction.getNextNode, hl, hdrop, tail_cons]

/-- The instruction goes right behind its destination. -/
theorem moveAfter_eq {front mid : List V} {dest : V}
    (hl : fn.instructions b = front ++ dest :: (mid ++ i :: back))
    (hnodup : (fn.instructions b).Nodup) :
    fn.moveAfter b i dest = fn.setInstructions b (front ++ dest :: i :: (mid ++ back)) := by
  have hstay : ∀ l : List V, dest ∉ l →
      l.flatMap (fun v => if v = dest then [v, i] else [v]) = l := fun l hdest => by
    induction l with
    | nil => rfl
    | cons v l ih =>
        rw [mem_cons, not_or] at hdest
        rw [flatMap_cons, if_neg fun heq => hdest.1 heq.symm, ih hdest.2]
        rfl
  have hfilter : ∀ l : List V, i ∉ l → l.filter (fun v => decide (v ≠ i)) = l := fun l hi =>
    filter_eq_self.mpr fun v hv => decide_eq_true fun heq => hi (heq ▸ hv)
  have hdest := (nodup_cons.mp (nodup_middle.mp (hl ▸ hnodup))).1
  have hi : i ∉ (front ++ dest :: mid) ++ back := by
    refine (nodup_cons.mp (nodup_middle.mp ?_)).1
    rw [append_assoc, cons_append, ← hl]
    exact hnodup
  simp only [mem_append, mem_cons, not_or] at hdest hi
  obtain ⟨⟨hifront, hne, himid⟩, hiback⟩ := hi
  obtain ⟨hfront, hmid, -, hback⟩ := hdest
  rw [SchedulerFunction.moveAfter, hl]
  congr 1
  simp only [filter_append, filter_cons, hfilter front hifront, hfilter mid himid,
    hfilter back hiback, flatMap_append, flatMap_cons, hstay front hfront,
    hstay mid hmid, hstay back hback, ne_eq, not_true_eq_false, decide_false, if_false,
    decide_true, if_true, Ne.symm hne, not_false_eq_true, cons_append, nil_append,
    Bool.false_eq_true]

omit [DecidableEq B] in
/-- The walk up from below the target ends at the target or below it, under everything that was
consumed. -/
theorem instructionToHoistTo_eq (back : List V) {consumed : PtrSet V} (hi : i ∉ pre)
    (hconsumed : i ∉ consumed) (htarget : target ∈ pre) :
    ∃ front dest mid, pre = front ++ dest :: mid ∧ (target = dest ∨ target ∈ front) ∧
      (∀ k ∈ mid, k ∉ consumed) ∧
      instructionToHoistTo (pre ++ i :: back) consumed i target = some dest := by
  have hpre : ∀ v ∈ pre, decide (v ≠ i) = true := fun v hv =>
    decide_eq_true fun heq => hi (heq ▸ hv)
  have htake : (pre ++ i :: back).takeWhile (fun v => decide (v ≠ i)) = pre := by
    rw [takeWhile_append_of_pos hpre]
    simp
  have hne : target ≠ i := fun heq => hi (heq ▸ htarget)
  obtain ⟨dest, hdest⟩ : ∃ dest, pre.reverse.find?
      (fun v => decide (target = v) || decide (v ∈ consumed)) = some dest :=
    isSome_iff_exists.mp (List.find?_isSome.mpr
      ⟨target, mem_reverse.mpr htarget, by simp⟩)
  obtain ⟨-, above, below, hsplit, habove⟩ := List.find?_eq_some_iff_append.mp hdest
  have hpre' : pre = below.reverse ++ dest :: above.reverse := by
    rw [← reverse_reverse pre, hsplit]
    simp
  have hskip : ∀ k ∈ above.reverse, target ≠ k ∧ k ∉ consumed := fun k hk => by
    simpa using habove k (mem_reverse.mp hk)
  refine ⟨below.reverse, dest, above.reverse, hpre', ?_, fun k hk => (hskip k hk).2, ?_⟩
  · rw [hpre', mem_append, mem_cons] at htarget
    rcases htarget with hfront | heq | hmid
    · exact .inr hfront
    · exact .inl heq
    · exact absurd rfl (hskip target hmid).1
  · rw [instructionToHoistTo, htake, List.find?_cons_of_neg (by simp [hne, hconsumed]), hdest]

/-- The order that squeezing keeps: of dependent instructions, of PHIs and other instructions, and
of the terminator. -/
def KeepsOrder (fn : SchedulerFunction V B) (D : Multiset (Dep V)) (x y : V) : Prop :=
  (∃ d ∈ D, d.src = x ∧ d.dst = y) ∨ (fn.ir.isPHINode x = true ∧ fn.ir.isPHINode y = false) ∨
    fn.ir.isTerminator y = true

/-- An instruction that can be hoisted in the block. -/
structure Hoistable (fn : SchedulerFunction V B) (U : V → Prop) (b : B) (i : V) : Prop where
  mem : i ∈ fn.instructions b
  value : U i
  noPHI : fn.ir.isPHINode i = false
  noTerminator : fn.ir.isTerminator i = false

/-- An instruction moves up past those it does not depend on. -/
theorem hoistInstructionTowards_spec (ord : IterOrder) (h : Linked subLC D U sps.loopSCCDAG)
    (hfn : fn.WF) (hfuel : searchFuel sps.loopSCCDAG ≤ fuel) (hi : Hoistable fn U b i)
    (hl : fn.instructions b = pre ++ i :: back) (htarget : target = i ∨ target ∈ pre) :
    ∃ front mid, pre = front ++ mid ∧ (mid = [] ∨ target ∈ front) ∧
      (∀ k ∈ mid, ¬ ∃ d ∈ D, d.src = k ∧ d.dst = i) ∧
      sps.hoistInstructionTowards ord fuel fn i target =
        some (fn.setInstructions b (front ++ i :: (mid ++ back))) := by
  have hnodup := nodup_cons.mp (nodup_middle.mp (hl ▸ hfn.nodup b))
  have hipre : i ∉ pre := fun hmem => hnodup.1 (mem_append_left back hmem)
  by_cases heq : target = i
  · refine ⟨pre, [], by simp, .inl rfl, nofun, ?_⟩
    rw [hoistInstructionTowards, if_pos heq, nil_append, ← hl,
      SchedulerFunction.setInstructions, Function.update_eq_self]
    rfl
  · obtain ⟨consumed, hcollect, hspec⟩ :=
      collectDependedOnInstructionsWithinBlock_spec ord fn h hi.value hfuel
    obtain ⟨hinst, hparent⟩ := (hfn.mem_instructions b i).mp hi.mem
    obtain ⟨front, dest, mid, hpre, hreach, hmid, hwalk⟩ := instructionToHoistTo_eq back
      hipre (fun hmem => (hspec.consumable i hmem).1 rfl) (htarget.resolve_left heq)
    refine ⟨front ++ [dest], mid, by simp [hpre], .inr ?_, fun k hk => ?_, ?_⟩
    · rcases hreach with rfl | hmem
      · simp
      · exact mem_append_left _ hmem
    · rintro ⟨d, hd, rfl, rfl⟩
      have hkpre : d.src ∈ pre := hpre ▸ mem_append_right front (.tail dest hk)
      have hkmem : d.src ∈ fn.instructions b := hl ▸ mem_append_left _ hkpre
      obtain ⟨hkinst, hkparent⟩ := (hfn.mem_instructions b d.src).mp hkmem
      exact hmid d.src hk (hspec.direct d hd rfl
        ⟨fun heq => hipre (heq ▸ hkpre), hkinst, hkparent.trans hparent.symm⟩)
    · have hl' : fn.instructions b = front ++ dest :: (mid ++ i :: back) := by simp [hl, hpre]
      have hmove := moveAfter_eq hl' (hfn.nodup b)
      simp only [hoistInstructionTowards, if_neg heq, hcollect, hparent, hl, hwalk, hmove,
        Option.bind_eq_bind, Option.bind_some, Option.pure_def, List.append_assoc,
        List.cons_append, List.nil_append]

/-! ## Many moves -/

/-- `fn'` is `fn` with some blocks in another order that keeps dependent instructions in order. -/
structure Squeezed (D : Multiset (Dep V)) (fn fn' : SchedulerFunction V B) : Prop where
  same : fn' = { fn with instructions := fn'.instructions }
  reorders : ∀ b, Reorders (KeepsOrder fn D) (fn.instructions b) (fn'.instructions b)

namespace Squeezed

variable {fn' fn'' : SchedulerFunction V B}

omit [DecidableEq V] [DecidableEq B]

theorem refl (fn : SchedulerFunction V B) : Squeezed D fn fn :=
  ⟨rfl, fun _ => Reorders.refl _⟩

theorem ir_eq (h : Squeezed D fn fn') : fn'.ir = fn.ir := by rw [h.same]

theorem trans (h : Squeezed D fn fn') (h' : Squeezed D fn' fn'') : Squeezed D fn fn'' := by
  refine ⟨?_, fun b => (h.reorders b).trans ?_⟩
  · rw [h'.same, h.same]
  · have hkeeps : KeepsOrder fn' D = KeepsOrder fn D := by
      unfold KeepsOrder
      rw [h.ir_eq]
    exact hkeeps ▸ h'.reorders b

theorem setInstructions [DecidableEq B] {b : B} {l : List V}
    (h : Reorders (KeepsOrder fn D) (fn.instructions b) l) :
    Squeezed D fn (fn.setInstructions b l) := by
  refine ⟨rfl, fun c => ?_⟩
  by_cases hc : c = b
  · subst hc
    simpa [SchedulerFunction.setInstructions] using h
  · simpa [SchedulerFunction.setInstructions, hc] using Reorders.refl (fn.instructions c)

theorem mem_iff (h : Squeezed D fn fn') {b : B} {v : V} :
    v ∈ fn'.instructions b ↔ v ∈ fn.instructions b := (h.reorders b).perm.mem_iff

/-- Squeezing keeps the function well formed. -/
theorem wf (h : Squeezed D fn fn') (hfn : fn.WF) : fn'.WF := by
  have hir := h.ir_eq
  refine ⟨fun b v => ?_, fun b => ?_, fun b => ?_⟩
  · rw [h.mem_iff, hir]
    exact hfn.mem_instructions b v
  · exact (h.reorders b).perm.nodup_iff.mpr (hfn.nodup b)
  · obtain ⟨body, t, hsplit, hterm, hbody⟩ := hfn.terminator b
    have hfirst : (fn.instructions b).Pairwise fun i _ => fn.ir.isTerminator i = false := by
      rw [hsplit, pairwise_append]
      exact ⟨pairwise_of_forall_mem_list fun i hi _ _ => hbody i hi,
        pairwise_singleton _ _, fun i hi _ _ => hbody i hi⟩
    have hfirst' := (h.reorders b).pairwise (hfn.nodup b) hfirst fun x y _ _ hy =>
      .inr (.inr (Bool.eq_true_of_not_eq_false hy))
    have ht : t ∈ fn'.instructions b := h.mem_iff.mpr (by simp [hsplit])
    obtain ⟨body', t', hsplit'⟩ : ∃ body' t', fn'.instructions b = body' ++ [t'] :=
      ⟨_, _, (dropLast_append_getLast (ne_nil_of_mem ht)).symm⟩
    rw [hsplit', pairwise_append] at hfirst'
    have hbody' : ∀ v ∈ body', fn.ir.isTerminator v = false := fun v hv =>
      hfirst'.2.2 v hv t' (mem_singleton_self t')
    refine ⟨body', t', hsplit', ?_, fun v hv => hir ▸ hbody' v hv⟩
    rw [hsplit', mem_append, mem_singleton] at ht
    rcases ht with ht | rfl
    · exact Bool.noConfusion (hterm.symm.trans (hbody' t ht))
    · exact hir ▸ hterm

theorem phisFirst (h : Squeezed D fn fn') (hfn : fn.WF) (hphis : fn.PHIsFirst) :
    fn'.PHIsFirst := by
  intro b
  rw [h.ir_eq]
  refine (h.reorders b).pairwise (hfn.nodup b) (hphis b) fun x y _ _ hyx => ?_
  rw [Classical.not_imp] at hyx
  exact .inr (.inl ⟨hyx.1, Bool.eq_false_iff.mpr hyx.2⟩)

theorem later (h : Squeezed D fn fn') {b : B} {d : Dep V} (hd : d ∈ D)
    (hlater : fn.Later b d.src d.dst) : fn'.Later b d.src d.dst := by
  obtain ⟨pre, post, hsplit, hpost⟩ := hlater
  have hpair : List.Sublist [d.src, d.dst] (fn.instructions b) := by
    rw [hsplit, pair_sublist_append, pair_sublist_cons]
    exact .inr (.inr (.inl ⟨rfl, hpost⟩))
  have hpair' := (h.reorders b).order d.src d.dst (.inl ⟨d, hd, rfl, rfl⟩) hpair
  obtain ⟨l₁, l₂, hsplit', hsrc, hdst⟩ := cons_sublist_iff.mp hpair'
  obtain ⟨pre', post', rfl⟩ := append_of_mem hsrc
  refine ⟨pre', post' ++ l₂, by simp [hsplit'], mem_append_right _ ?_⟩
  exact singleton_sublist.mp hdst

end Squeezed

/-- What was not reported as a modification is none. -/
structure Reported (D : Multiset (Dep V)) (fn : SchedulerFunction V B) (modified : Bool)
    (st : SchedulerFunction V B × Bool) : Prop where
  squeezed : Squeezed D fn st.1
  unmodified : st.2 = false → modified = false ∧ st.1 = fn

/-- The instructions all move up, and every dependence is kept. -/
theorem hoistNext_foldlM (ord : IterOrder) (h : Linked subLC D U sps.loopSCCDAG) {fuel : Nat}
    (hfuel : searchFuel sps.loopSCCDAG ≤ fuel) {b : B} : ∀ (todo : List V) (st : Squeezing V B),
      st.fn.WF → st.fn.PHIsFirst → (∀ i ∈ todo, Hoistable st.fn U b i) →
      st.fn.ir.isPHINode st.targetInstruction = false →
      todo.head? = some st.targetInstruction ∧ todo.Sublist (st.fn.instructions b) ∨
        (st.targetInstruction :: todo).Sublist (st.fn.instructions b) →
      ∃ st', todo.foldlM (sps.hoistNext ord fuel b) st = some st' ∧
        Reported D st.fn st.modified (st'.fn, st'.modified)
  | [], st, _, _, _, _, _ => ⟨st, rfl, Squeezed.refl st.fn, fun hfalse => ⟨hfalse, rfl⟩⟩
  | i :: todo, st, hfn, hphis, hoist, htarget, hsub => by
      have hi := hoist i (.head _)
      obtain ⟨pre, back, hl⟩ := append_of_mem hi.mem
      have hnodup := hfn.nodup b
      have hnotin := (nodup_cons.mp (nodup_middle.mp (hl ▸ hnodup))).1
      rw [mem_append, not_or] at hnotin
      have htodo : todo.Sublist back := by
        refine sublist_of_cons_sublist hnotin.1 (hl ▸ ?_)
        exact hsub.elim And.right fun hsub => (sublist_cons_self _ _).trans hsub
      have hplace : st.targetInstruction = i ∨ st.targetInstruction ∈ pre := by
        rcases hsub with ⟨hhead, -⟩ | hsub
        · exact .inl (some.inj hhead).symm
        · -- above the instruction, since it stands once in the block
          have hpair : List.Sublist [st.targetInstruction, i] (pre ++ i :: back) :=
            hl ▸ List.Sublist.trans (by simp) hsub
          rw [pair_sublist_append, pair_sublist_cons] at hpair
          rcases hpair with hpair | ⟨hmem, -⟩ | ⟨-, hmem⟩ | hpair
          · exact absurd (hpair.subset (by simp)) hnotin.1
          · exact .inr hmem
          · exact absurd hmem hnotin.2
          · exact absurd (hpair.subset (by simp)) hnotin.2
      obtain ⟨front, mid, rfl, hreach, hcross, hhoist⟩ :=
        hoistInstructionTowards_spec ord h hfn hfuel hi hl hplace
      have hl' : st.fn.instructions b = front ++ (mid ++ i :: back) := by simp [hl]
      have hreorders : Reorders (KeepsOrder st.fn D) (st.fn.instructions b)
          (front ++ i :: (mid ++ back)) := by
        rw [hl']
        refine Reorders.moveUp fun k hk => ?_
        rintro (hdep | ⟨hphi, -⟩ | hterm)
        · exact hcross k hk hdep
        · -- the target is above what is crossed, so this is no PHI
          have hmem := hreach.resolve_left (ne_nil_of_mem hk)
          have hpair : List.Sublist [st.targetInstruction, k] (st.fn.instructions b) := by
            rw [hl', pair_sublist_append]
            exact .inr (.inl ⟨hmem, mem_append_left _ hk⟩)
          have htrue := pairwise_iff_forall_sublist.mp (hphis b) hpair hphi
          exact Bool.noConfusion (htrue.symm.trans htarget)
        · exact Bool.noConfusion (hterm.symm.trans hi.noTerminator)
      have hsqueezed := Squeezed.setInstructions hreorders
      let st₁ : Squeezing V B :=
        { fn := st.fn.setInstructions b (front ++ i :: (mid ++ back))
          targetInstruction := i
          modified := st.modified || decide (st.fn.getNextNode b i ≠
            (st.fn.setInstructions b (front ++ i :: (mid ++ back))).getNextNode b i) }
      have hinstructions : st₁.fn.instructions b = front ++ i :: (mid ++ back) := by
        simp [st₁, SchedulerFunction.setInstructions]
      obtain ⟨st', hrun, hst'⟩ := hoistNext_foldlM ord h hfuel todo st₁ (hsqueezed.wf hfn)
        (hsqueezed.phisFirst hfn hphis)
        (fun j hj => by
          obtain ⟨hmem, hvalue, hphi, hterm⟩ := hoist j (.tail i hj)
          exact ⟨hsqueezed.mem_iff.mpr hmem, hvalue, hphi, hterm⟩)
        hi.noPHI
        (.inr (by
          rw [hinstructions]
          refine List.Sublist.trans ?_ (sublist_append_right front _)
          exact (htodo.trans (sublist_append_right mid back)).cons_cons i))
      refine ⟨st', ?_, hsqueezed.trans hst'.squeezed, fun hfalse => ?_⟩
      · rw [foldlM_cons, hoistNext, hhoist]
        exact hrun
      · obtain ⟨hmodified, heq⟩ := hst'.unmodified hfalse
        simp only [st₁, Bool.or_eq_false_iff, decide_eq_false_iff_not, not_not] at hmodified
        refine ⟨hmodified.1, heq.trans ?_⟩
        have hfront : i ∉ front := fun hmem => hnotin.1 (mem_append_left mid hmem)
        have hnext := hmodified.2
        rw [getNextNode_eq hl hnotin.1, getNextNode_eq (by
          simpa [st₁] using hinstructions) hfront] at hnext
        -- the next instruction is another one if something was crossed
        have hmid : mid = [] := by
          cases mid with
          | nil => rfl
          | cons k mid =>
              have hk : k ∈ back := mem_of_mem_head? (by
                rw [hnext]
                simp)
              have hdisjoint := (nodup_append.mp (hl ▸ hnodup)).2.2
              exact absurd rfl (hdisjoint k (by simp) k (.tail i hk))
        subst hmid
        rw [append_nil] at hl
        simp only [st₁, nil_append, ← hl, SchedulerFunction.setInstructions,
          Function.update_eq_self]

/-! ## Squeezing -/

/-- The sets that are collected from a block. -/
structure Collected (fn : SchedulerFunction V B) (U : V → Prop) (b : B)
    (st : PtrSet V × PtrSet V) : Prop where
  partitionInstructions : ∀ i ∈ st.1, Hoistable fn U b i
  dependedOnInstructions : ∀ i ∈ st.2, Hoistable fn U b i

/-- One more instruction of the block is collected. -/
theorem collectPartitionInstruction_spec (ord : IterOrder) (h : Linked subLC D U sps.loopSCCDAG)
    (hfn : fn.WF) {fuel : Nat} (hfuel : searchFuel sps.loopSCCDAG ≤ fuel) {b : B}
    (partitionToSqueeze : SetPtr) {st : PtrSet V × PtrSet V} (hst : Collected fn U b st)
    (hi : i ∈ fn.instructions b) :
    ∃ st', sps.collectPartitionInstruction ord fuel fn partitionToSqueeze st i = some st' ∧
      Collected fn U b st' := by
  unfold collectPartitionInstruction
  cases hcan : fn.ir.isPHINode i || fn.ir.isTerminator i with
  | true => exact ⟨st, rfl, hst⟩
  | false =>
      by_cases hpartition : sps.getPartition ord i = some partitionToSqueeze
      · obtain ⟨scc, hscc, -⟩ := bind_eq_some_iff.mp hpartition
        obtain ⟨n, hn, -⟩ := map_eq_some_iff.mp hscc
        have hvalue : U i := (h.mem_values i).mpr ⟨n, (h.lookup_iff i n).mp hn⟩
        obtain ⟨consumed, hcollect, hspec⟩ :=
          collectDependedOnInstructionsWithinBlock_spec ord fn h hvalue hfuel
        obtain ⟨hphi, hterm⟩ := Bool.or_eq_false_iff.mp hcan
        obtain ⟨-, hparent⟩ := (hfn.mem_instructions b i).mp hi
        refine ⟨(st.1.insert i, st.2.insertAll ((ord.visit consumed.elems).filter fun d =>
          !(fn.ir.isPHINode d || fn.ir.isTerminator d))), ?_, fun j hj => ?_, fun j hj => ?_⟩
        · simp [hpartition, hcollect]
        · rcases mem_insert.mp hj with rfl | hj
          · exact ⟨hi, hvalue, hphi, hterm⟩
          · exact hst.partitionInstructions j hj
        · rcases mem_insertAll.mp hj with hj | hj
          · exact hst.dependedOnInstructions j hj
          · obtain ⟨hj, hcan'⟩ := mem_filter.mp hj
            have hj := mem_elems.mp (ord.mem_visit.mp hj)
            obtain ⟨-, hinst, hparent'⟩ := hspec.consumable j hj
            rw [Bool.not_eq_true', Bool.or_eq_false_iff] at hcan'
            exact ⟨(hfn.mem_instructions b j).mpr ⟨hinst, hparent'.trans hparent⟩,
              hspec.value j hj, hcan'.1, hcan'.2⟩
      · exact ⟨st, by simp [hpartition], hst⟩

omit [DecidableEq B] in
/-- The instructions to hoist are in the order of the block. -/
theorem orderedInstructionsToHoist_sublist : ∀ (l : List V) (p d : PtrSet V),
    (orderedInstructionsToHoist l p d).Sublist l ∧
      (∀ i ∈ orderedInstructionsToHoist l p d, i ∈ p ∨ i ∈ d) ∧
      ((∃ i ∈ l, i ∈ p) → orderedInstructionsToHoist l p d ≠ [])
  | [], p, d => ⟨List.Sublist.refl [], nofun,
      fun hex => absurd hex (by simp)⟩
  | i :: l, p, d => by
      obtain ⟨hsub, hmem, hne⟩ := orderedInstructionsToHoist_sublist l p d
      obtain ⟨hsub', hmem', -⟩ := orderedInstructionsToHoist_sublist l (p.erase i) d
      rw [orderedInstructionsToHoist]
      by_cases hp : i ∈ p
      · rw [if_pos hp]
        refine ⟨?_, fun j hj => ?_, fun _ => cons_ne_nil _ _⟩
        · split
          · simp
          · exact hsub'.cons_cons i
        · rcases mem_cons.mp hj with rfl | hj
          · exact .inl hp
          · split at hj
            · nomatch hj
            · exact (hmem' j hj).imp_left fun hj => (mem_erase.mp hj).2
      · rw [if_neg hp]
        by_cases hd : i ∈ d
        · rw [if_pos hd]
          refine ⟨?_, fun j hj => ?_, fun _ => cons_ne_nil _ _⟩
          · split
            · simp
            · exact hsub.cons_cons i
          · rcases mem_cons.mp hj with rfl | hj
            · exact .inr hd
            · split at hj
              · nomatch hj
              · exact hmem j hj
        · rw [if_neg hd]
          refine ⟨hsub.cons i, hmem, ?_⟩
          rintro ⟨j, hj, hjp⟩
          rcases mem_cons.mp hj with rfl | hj
          · exact absurd hjp hp
          · exact hne ⟨j, hj, hjp⟩

/-- Squeezing a partition keeps every dependence, and reports any change. -/
theorem squeezePartition_spec (ord : IterOrder) (h : Linked subLC D U sps.loopSCCDAG) {fuel : Nat}
    (hfuel : searchFuel sps.loopSCCDAG ≤ fuel) {b : B} (partitionToSqueeze : SetPtr)
    (modified : Bool) (hfn : fn.WF) (hphis : fn.PHIsFirst) :
    ∃ st', sps.squeezePartition ord fuel b (fn, modified) partitionToSqueeze = some st' ∧
      Reported D fn modified st' := by
  obtain ⟨⟨p, d⟩, hcollect, hcollected⟩ := foldlM_rule
    (sps.collectPartitionInstruction ord fuel fn partitionToSqueeze)
    (fun _ sets => Collected fn U b sets) (l := fn.instructions b) (s := (∅, ∅))
    ⟨fun i hi => absurd hi (not_mem_empty i), fun i hi => absurd hi (not_mem_empty i)⟩
    fun pre i post sets hsplit hsets =>
      collectPartitionInstruction_spec ord h hfn hfuel partitionToSqueeze hsets (by simp [hsplit])
  simp only [squeezePartition, hcollect, bind_eq_bind, bind_some]
  by_cases hsize : p.size < 1
  · exact ⟨(fn, modified), by simp [hsize], Squeezed.refl fn, fun hfalse => ⟨hfalse, rfl⟩⟩
  · obtain ⟨hsub, hmem, hne⟩ := orderedInstructionsToHoist_sublist (fn.instructions b) p d
    obtain ⟨j, hj⟩ : ∃ j, j ∈ p := exists_mem_of_length_pos (by
      unfold PtrSet.size at hsize
      omega)
    have hordered := hne ⟨j, (hcollected.partitionInstructions j hj).mem, hj⟩
    obtain ⟨target, htarget⟩ : ∃ target,
        (orderedInstructionsToHoist (fn.instructions b) p d).head? = some target :=
      ⟨_, List.head?_eq_some_head hordered⟩
    have hoist : ∀ i ∈ orderedInstructionsToHoist (fn.instructions b) p d,
        Hoistable fn U b i := fun i hi =>
      (hmem i hi).elim (hcollected.partitionInstructions i) (hcollected.dependedOnInstructions i)
    obtain ⟨st', hrun, hst'⟩ := hoistNext_foldlM ord h hfuel _
      { fn, targetInstruction := target, modified } hfn hphis hoist
      (hoist target (mem_of_mem_head? htarget)).noPHI (.inl ⟨htarget, hsub⟩)
    refine ⟨(st'.fn, st'.modified), ?_, hst'⟩
    simp [hsize, htarget, hrun]

/-- **Squeezing partitions**: after any merges of the SCCDAG of a loop, whatever the partitions,
`squeezePartitions` returns and permutes the instructions of every block.  PHIs still come first,
the terminator last, and no instruction changes its block (`WF`); each dependence whose source came
first still has it first; and if it reports no modification there is none. -/
theorem squeezePartitions_spec {pdg : PDG V} (ord : IterOrder) (it : SccIterator) {self : Nat}
    {s₀ : SCCDAG V} {merges : List (PtrSet (DGNode SccPtr))} (hpdg : PDG.Proper subLC pdg)
    (hs₀ : BuiltFrom ord it subLC pdg self s₀)
    (hmerges : Calls (mergeSCCs ord subLC) NodesOf s₀ merges)
    (hs : merges.foldlM (mergeSCCs ord subLC) s₀ = some sps.loopSCCDAG)
    (hfn : fn.WF) (hphis : fn.PHIsFirst) :
    ∃ N, ∀ fuel ≥ N, ∃ fn' modified, sps.squeezePartitions ord fuel fn = some (fn', modified) ∧
      fn' = { fn with instructions := fn'.instructions } ∧ fn'.WF ∧ fn'.PHIsFirst ∧
      (∀ b, (fn'.instructions b).Perm (fn.instructions b)) ∧
      (∀ b, ∀ e ∈ pdg.allEdges, fn.Later b e.getSrc e.getDst → fn'.Later b e.getSrc e.getDst) ∧
      (modified = false → fn' = fn) := by
  have h := hs₀.linked_of_merges hpdg hmerges hs
  refine ⟨searchFuel sps.loopSCCDAG, fun fuel hfuel => ?_⟩
  obtain ⟨⟨fn', modified⟩, hrun, hst⟩ := foldlM_rule
    (fun st entry => (ord.visit entry.2.elems).foldlM (sps.squeezePartition ord fuel entry.1) st)
    (fun _ st => Reported pdg.deps fn false st)
    (l := ord.visit (sps.basicBlockToPartitionsMap ord fn).entries) (s := (fn, false))
    ⟨Squeezed.refl fn, fun _ => ⟨rfl, rfl⟩⟩
    fun _ entry _ st _ hst => foldlM_rule (sps.squeezePartition ord fuel entry.1)
      (fun _ st => Reported pdg.deps fn false st) hst fun _ partition _ st _ hst => by
        obtain ⟨st', hstep, hst'⟩ := squeezePartition_spec ord h hfuel (b := entry.1) partition st.2
          (hst.squeezed.wf hfn) (hst.squeezed.phisFirst hfn hphis)
        refine ⟨st', hstep, hst.squeezed.trans hst'.squeezed, fun hfalse => ?_⟩
        obtain ⟨hfalse', heq⟩ := hst'.unmodified hfalse
        obtain ⟨-, heq'⟩ := hst.unmodified hfalse'
        exact ⟨rfl, heq.trans heq'⟩
  refine ⟨fn', modified, hrun, hst.squeezed.same, hst.squeezed.wf hfn,
    hst.squeezed.phisFirst hfn hphis, fun b => (hst.squeezed.reorders b).perm, ?_,
    fun hfalse => (hst.unmodified hfalse).2⟩
  intro b e he hlater
  have hd : e.dep pdg.edgeAttr ∈ pdg.deps := Multiset.mem_map_of_mem _ (Multiset.mem_coe.mpr he)
  exact hst.squeezed.later hd hlater

/-- **Squeezing keeps the meaning**: if an instruction commutes with those below it in its block that
it has no dependence to, every path of blocks computes what it did. -/
theorem squeezePartitions_preserves {pdg : PDG V} (ord : IterOrder) (it : SccIterator) {self : Nat}
    {s₀ : SCCDAG V} {merges : List (PtrSet (DGNode SccPtr))} (hpdg : PDG.Proper subLC pdg)
    (hs₀ : BuiltFrom ord it subLC pdg self s₀)
    (hmerges : Calls (mergeSCCs ord subLC) NodesOf s₀ merges)
    (hs : merges.foldlM (mergeSCCs ord subLC) s₀ = some sps.loopSCCDAG)
    (hfn : fn.WF) (hphis : fn.PHIsFirst) {σ : Type} {step : σ → V → Option σ}
    (hcomm : ∀ b x y, fn.Later b x y → (∀ e ∈ pdg.allEdges, e.getSrc = x → e.getDst ≠ y) →
      (fn.ir.isPHINode x = true → fn.ir.isPHINode y = true) → fn.ir.isTerminator y = false →
      ∀ s, (step s x).bind (fun t => step t y) = (step s y).bind fun t => step t x) :
    ∃ N, ∀ fuel ≥ N, ∃ fn' modified, sps.squeezePartitions ord fuel fn = some (fn', modified) ∧
      ∀ (path : List B) s, path.foldlM (fun s b => (fn'.instructions b).foldlM step s) s =
        path.foldlM (fun s b => (fn.instructions b).foldlM step s) s := by
  have h := hs₀.linked_of_merges hpdg hmerges hs
  refine ⟨searchFuel sps.loopSCCDAG, fun fuel hfuel => ?_⟩
  obtain ⟨⟨fn', modified⟩, hrun, hsqueezed⟩ := foldlM_rule
    (fun st entry => (ord.visit entry.2.elems).foldlM (sps.squeezePartition ord fuel entry.1) st)
    (fun _ st => Squeezed pdg.deps fn st.1)
    (l := ord.visit (sps.basicBlockToPartitionsMap ord fn).entries) (s := (fn, false))
    (Squeezed.refl fn)
    fun _ entry _ st _ hst => foldlM_rule (sps.squeezePartition ord fuel entry.1)
      (fun _ st => Squeezed pdg.deps fn st.1) hst fun _ partition _ st _ hst => by
        obtain ⟨st', hstep, hst'⟩ := squeezePartition_spec ord h hfuel (b := entry.1) partition st.2
          (hst.wf hfn) (hst.phisFirst hfn hphis)
        exact ⟨st', hstep, hst.trans hst'.squeezed⟩
  refine ⟨fn', modified, hrun, fun path s => congrArg (fun run => path.foldlM run s) ?_⟩
  funext s b
  refine ((hsqueezed.reorders b).foldlM_eq (hfn.nodup b) (fun x y hxy hnot => ?_) s).symm
  obtain ⟨l₁, l₂, hsplit, hx, hy⟩ := cons_sublist_iff.mp hxy
  obtain ⟨pre, post, rfl⟩ := append_of_mem hx
  simp only [KeepsOrder, not_or, not_and, Bool.not_eq_false, Bool.not_eq_true] at hnot
  refine hcomm b x y ⟨pre, post ++ l₂, by simp [hsplit], ?_⟩ (fun e he hsrc hdst => ?_) hnot.2.1 hnot.2.2
  · exact mem_append_right _ (singleton_sublist.mp hy)
  · exact hnot.1 ⟨e.dep pdg.edgeAttr, Multiset.mem_map_of_mem _ (Multiset.mem_coe.mpr he), hsrc, hdst⟩

/-- A block with a PHI `5`, the chain `1`, `2` and `3`, which ends it, and `6` in the middle. -/
def chainFunction : SchedulerFunction Nat Unit where
  ir :=
    { kind := fun v =>
        if v = 5 then .phiNode []
        else if v = 3 then .terminator
        else if v = 1 ∨ v = 2 ∨ v = 6 then .otherInstruction else .noInstruction
      getParent := fun _ => () }
  isBranchInst v := decide (v = 3)
  instructions _ := [5, 1, 6, 2, 3]
  successors _ := []
  predecessors _ := []

theorem chainFunction_wf : chainFunction.WF where
  mem_instructions b v := by
    have hinst : chainFunction.ir.isInstruction v = true ↔
        v = 5 ∨ v = 1 ∨ v = 6 ∨ v = 2 ∨ v = 3 := by
      by_cases h5 : v = 5
      · simp [IR.isInstruction, chainFunction, h5]
      · by_cases h3 : v = 3
        · simp [IR.isInstruction, chainFunction, h3]
        · by_cases h : v = 1 ∨ v = 2 ∨ v = 6
          · simp only [IR.isInstruction, chainFunction, h5, h3, h, if_true, if_false, true_iff]
            omega
          · simp only [IR.isInstruction, chainFunction, h5, h3, h, if_false, Bool.false_eq_true,
              false_iff]
            grind
    rw [hinst]
    simp [chainFunction]
  nodup := by decide
  terminator b := ⟨[5, 1, 6, 2], 3, rfl, rfl, by decide⟩

theorem squeezePartitions_chainFunction : ∃ s,
    buildGraph .stored .saturating (fun _ => false) chainPdg 0 = some s ∧
    ∃ N, ∀ fuel ≥ N, ∃ fn' modified,
      squeezePartitions .stored ⟨s, PtrSet.ofList [0], fun _ => PtrSet.ofList [0, 1]⟩ fuel
        chainFunction = some (fn', modified) ∧
      fn' = { chainFunction with instructions := fn'.instructions } ∧ fn'.WF ∧ fn'.PHIsFirst ∧
      (∀ b, (fn'.instructions b).Perm (chainFunction.instructions b)) ∧
      (∀ b, ∀ e ∈ chainPdg.allEdges, chainFunction.Later b e.getSrc e.getDst →
        fn'.Later b e.getSrc e.getDst) ∧
      (modified = false → fn' = chainFunction) := by
  obtain ⟨s, hs, -⟩ := buildGraph_spec .stored .saturating chainPdg_proper 0
  have hnone : Calls (mergeSCCs .stored fun _ => false) NodesOf s [] := trivial
  have hphis : chainFunction.PHIsFirst := by
    unfold SchedulerFunction.PHIsFirst
    decide
  refine ⟨s, hs, ?_⟩
  exact squeezePartitions_spec .stored .saturating chainPdg_proper
    ⟨s, hs, .refl s⟩ hnone rfl chainFunction_wf hphis

/-- The instructions add numbers to a sum. -/
theorem squeezePartitions_preserves_chainFunction : ∃ s,
    buildGraph .stored .saturating (fun _ => false) chainPdg 0 = some s ∧
    ∃ N, ∀ fuel ≥ N, ∃ fn' modified,
      squeezePartitions .stored ⟨s, PtrSet.ofList [0], fun _ => PtrSet.ofList [0, 1]⟩ fuel
        chainFunction = some (fn', modified) ∧
      ∀ (path : List Unit) (sum : Nat),
        path.foldlM (fun t b => (fn'.instructions b).foldlM (fun t v => some (t + v)) t) sum =
          path.foldlM (fun t b => (chainFunction.instructions b).foldlM (fun t v => some (t + v)) t)
            sum := by
  obtain ⟨s, hs, -⟩ := buildGraph_spec .stored .saturating chainPdg_proper 0
  have hnone : Calls (mergeSCCs .stored fun _ => false) NodesOf s [] := trivial
  have hphis : chainFunction.PHIsFirst := by
    unfold SchedulerFunction.PHIsFirst
    decide
  refine ⟨s, hs, ?_⟩
  exact squeezePartitions_preserves .stored .saturating chainPdg_proper ⟨s, hs, .refl s⟩ hnone rfl
    chainFunction_wf hphis fun _ x y _ _ _ _ t => congrArg some (Nat.add_right_comm t x y)

end SCCPartitionScheduler

end Noelle
