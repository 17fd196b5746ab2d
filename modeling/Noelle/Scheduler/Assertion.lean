import Noelle.Lib.Dominance
import Noelle.Scheduler.Prologue

/-!
# Scheduler.Assertion

The assertions of `LoopScheduler::moveInstOutOfPrologueBasicBlock`.

Of two successors of a block one has to be inside the loop and one outside.  The worklist hands a
block over as soon as it has something to move and what it leads to in the prologue has not, so
a block that branches to two blocks of the loop is handed over in some order, unless one of the
two cannot be processed.
-/

namespace Noelle

open Relation List Option

/-- What the loop of `moveInstOutOfPrologueBasicBlock` over the successors finds. -/
structure SuccessorPositions (B : Type) where
  numSuccessorsInside : Nat := 0
  insideBlock : Option B := none
  outsideBlock : Option B := none

namespace LoopScheduler

variable {V B : Type} [DecidableEq V] [DecidableEq B] (ls : LoopScheduler V B)

/-- The body of the loop over the successors.  The loop includes its blocks. -/
def positionSuccessor (p : SuccessorPositions B) (succBB : B) : SuccessorPositions B :=
  if succBB ∈ ls.blocks then
    { p with numSuccessorsInside := p.numSuccessorsInside + 1, insideBlock := some succBB }
  else { p with outsideBlock := some succBB }

def positionSuccessors (parent : B) : SuccessorPositions B :=
  (ls.fn.successors parent).foldl ls.positionSuccessor {}

/-- Where `moveInstOutOfPrologueBasicBlock` moves an instruction of the block and where it clones
it, if no assertion fails. -/
def moveTargets (parent : B) : Option (B × Option B) :=
  match ls.fn.successors parent with
  | [singleSuccessor] => some (singleSuccessor, none)
  | [_, _] =>
      let p := ls.positionSuccessors parent
      if p.numSuccessorsInside = 1 then p.insideBlock.map fun insideBlock =>
        (insideBlock, p.outsideBlock)
      else none
  | _ => none

/-- Exactly one successor is inside the loop, and no assertion fails. -/
def AssertionsHold (parent : B) : Prop :=
  (ls.positionSuccessors parent).numSuccessorsInside = 1 ∧ (ls.moveTargets parent).isSome = true

/-- Both targets of the branch are in the loop. -/
def BranchesInside (b : B) : Prop :=
  ∃ c d, ls.fn.successors b = [c, d] ∧ c ∈ ls.blocks ∧ d ∈ ls.blocks

/-- Control can pass from the one block to the other inside the prologue. -/
def PrologueFlow (b c : B) : Prop := ls.Precedes c b

/-- The block has something to move; the blocks to which it leads in the prologue have not, and
instructions can leave them. -/
structure HasMoves (b : B) : Prop where
  mem : b ∈ ls.prologue
  canLeave : ∀ c, ReflTransGen ls.PrologueFlow b c →
    Scheduler.canMoveAnyInstOutOfBasicBlock ls.fn c = some true
  quiet : ∀ c, TransGen ls.PrologueFlow b c → ls.shrinksPrologueBasicBlock .stored c = some false
  shrinks : ls.shrinksPrologueBasicBlock .stored b = some true

variable {ls} {ord : IterOrder} {st : PrologueSearch B} {entry header b : B}

theorem shrinksPrologueBasicBlock_congr (ord ord' : IterOrder) (hpdg : ls.pdg.WF) (b : B) :
    ls.shrinksPrologueBasicBlock ord b = ls.shrinksPrologueBasicBlock ord' b := by
  unfold shrinksPrologueBasicBlock
  rw [Scheduler.getAllInstsMoveableOutOfBasicBlock_congr ord ord' hpdg]

/-! ## What is handed over -/

theorem Searching.hasMoves (h : Searching ord ls st) (hpdg : ls.pdg.WF) {before : List B}
    (hmodified : st.modified = true) (hshrunk : st.shrunk = before ++ [b]) : ls.HasMoves b := by
  obtain ⟨calls, hcalls, ⟨hfalse, -⟩ | ⟨x, -, heq, -, hx⟩⟩ := h.calls
  · rw [hmodified] at hfalse
    exact Bool.noConfusion hfalse
  obtain ⟨rfl, hbx⟩ := append_inj' (hshrunk.symm.trans heq) rfl
  obtain rfl := singleton_inj.mp hbx
  have hb : b ∈ st.shrunk := hshrunk ▸ mem_append_right before (mem_singleton_self b)
  have hbefore : ∀ c, TransGen ls.PrologueFlow b c → c ∈ before := fun c hc =>
    h.ordered.ancestors_before hshrunk (transGen_swap.mp hc)
  refine ⟨h.ordered.mem b hb, fun c hc => h.canLeave c ?_, fun c hc => ?_, ?_⟩
  · rcases reflTransGen_iff_eq_or_transGen.mp hc with rfl | hc
    · exact hb
    · exact hshrunk ▸ mem_append_left [b] (hbefore c hc)
  · rw [shrinksPrologueBasicBlock_congr .stored ord hpdg]
    exact h.quiet c ((hcalls c).mp (hbefore c hc))
  · rw [shrinksPrologueBasicBlock_congr .stored ord hpdg]
    exact hx

/-- A queue that begins with blocks that have nothing to move, each after its successors in the
prologue, and goes on with one that has. -/
theorem processPrologueLoop_of_ready (hfn : ls.fn.WF) {post : List B}
    (hshrinks : ls.shrinksPrologueBasicBlock ord b = some true) :
    ∀ (pre : List B) (st : PrologueSearch B), st.workList = pre ++ b :: post →
      st.modified = false → st.cannotProcessBlocks = ∅ →
      (∀ p x q, pre ++ [b] = p ++ x :: q →
        Scheduler.canMoveAnyInstOutOfBasicBlock ls.fn x = some true ∧
          ∀ c, ls.Precedes c x → c ∈ st.processedBlocks ∨ c ∈ p) →
      (∀ x ∈ pre, ls.shrinksPrologueBasicBlock ord x = some false) →
      ∃ st', ls.processPrologueLoop ord (pre.length + 1) st = some st' ∧ st'.modified = true ∧
        st'.shrunk = st.shrunk ++ pre ++ [b] := by
  -- a block whose successors in the prologue were processed does not wait
  have hready : ∀ (st : PrologueSearch B) (x : B) (rest : List B), st.workList = x :: rest →
      st.modified = false → st.cannotProcessBlocks = ∅ →
      Scheduler.canMoveAnyInstOutOfBasicBlock ls.fn x = some true →
      (∀ c, ls.Precedes c x → c ∈ st.processedBlocks) → ∀ fuel r,
      ls.shrinksPrologueBasicBlock ord x = some r → ∃ st', ls.processPrologueLoop ord (fuel + 1) st =
          ls.processPrologueLoop ord fuel st' ∧ st'.workList = rest ∧ st'.modified = r ∧
        st'.cannotProcessBlocks = ∅ ∧ st'.shrunk = st.shrunk ++ [x] ∧
        (r = false → st'.processedBlocks = st.processedBlocks.insert x) := by
    intro st x rest hwork hmodified hcannot hleave hprocessed fuel r hr
    obtain ⟨st', hnext, hstep⟩ := processNext_spec ord hfn hwork
    have hloop : ls.processPrologueLoop ord (fuel + 1) st =
        ls.processPrologueLoop ord fuel st' := by
      unfold processPrologueLoop
      rw [loopM, if_pos (by simp [hmodified, hwork]), hnext, bind_some]
    refine ⟨st', hloop, ?_⟩
    cases hstep with
    | cannot _ hexists =>
        obtain ⟨c, -, hc⟩ := hexists hleave
        exact absurd (hcannot ▸ hc) (PtrSet.not_mem_empty c)
    | wait hwaits =>
        have hcheck := of_decide_eq_true ((Bool.and_eq_true _ _).mp hwaits).2
        obtain ⟨c, hc, hin, hnot, -⟩ := exists_of_notReady hcheck
        exact absurd (hprocessed c ⟨hc, hin⟩) hnot
    | shrink _ _ _ hx =>
        obtain rfl := mem_unique hx hr
        exact ⟨rfl, rfl, hcannot, rfl, fun h => Bool.noConfusion h⟩
    | process _ _ _ hx =>
        obtain rfl := mem_unique hx hr
        exact ⟨rfl, hmodified, hcannot, rfl, fun _ => rfl⟩
  intro pre
  induction pre with
  | nil =>
      intro st hwork hmodified hcannot horder _
      obtain ⟨hleave, hprocessed⟩ := horder [] b [] rfl
      obtain ⟨st', hloop, -, htrue, -, hshrunk, -⟩ := hready st b post hwork hmodified hcannot hleave
        (fun c hc => (hprocessed c hc).resolve_right not_mem_nil) 0 true hshrinks
      refine ⟨st', hloop.trans (loopM_of_not_cond (by simp [htrue]) 0), htrue, ?_⟩
      rw [hshrunk, append_nil]
  | cons x pre ih =>
      intro st hwork hmodified hcannot horder hquiet
      obtain ⟨hleave, hprocessed⟩ := horder [] x (pre ++ [b]) rfl
      obtain ⟨st', hloop, hwork', hmodified', hcannot', hshrunk, hset⟩ :=
        hready st x (pre ++ b :: post) hwork hmodified hcannot hleave
          (fun c hc => (hprocessed c hc).resolve_right not_mem_nil) (pre.length + 1) false
          (hquiet x (.head _))
      obtain ⟨st'', hrun, htrue, hshrunk'⟩ := ih st' hwork' hmodified' hcannot' (fun p y q hsplit => by
        obtain ⟨hleave', hbefore⟩ := horder (x :: p) y q (by simp [hsplit])
        refine ⟨hleave', fun c hc => ?_⟩
        rw [hset rfl, PtrSet.mem_insert]
        rcases hbefore c hc with hc | hc
        · exact .inl (.inr hc)
        · exact (mem_cons.mp hc).imp .inl id)
        fun y hy => hquiet y (.tail x hy)
      refine ⟨st'', hloop.trans hrun, htrue, ?_⟩
      rw [hshrunk', hshrunk]
      simp

theorem HasMoves.not_cycle (h : ls.HasMoves b) (hcfg : ls.fn.IsCFG entry)
    (hreach : ∀ b ∈ ls.prologue, ReflTransGen ls.fn.Flow entry b) {c : B}
    (hc : ReflTransGen ls.PrologueFlow b c) : ¬ TransGen ls.PrologueFlow c c := by
  have hmem : c ∈ ls.prologue := by
    rcases hc.cases_tail with rfl | ⟨d, -, hdc⟩
    · exact h.mem
    · exact hdc.2
  intro hcycle
  refine LoopScheduler.not_cycle hcfg (hreach c hmem) ?_
  have hlift : ∀ d, TransGen ls.PrologueFlow c d → TransGen (fun x y => ls.fn.Flow x y ∧
      Scheduler.canMoveAnyInstOutOfBasicBlock ls.fn x = some true) c d := fun d hd => by
    induction hd with
    | single hcd => exact .single ⟨hcd.1, h.canLeave c hc⟩
    | @tail x y hx hxy ih => exact ih.tail ⟨hxy.1, h.canLeave x (hc.trans hx.to_reflTransGen)⟩
  exact hlift c hcycle

/-- A block with moves is handed over in some order. -/
theorem HasMoves.handed_over (h : ls.HasMoves b) (hfn : ls.fn.WF) (hcfg : ls.fn.IsCFG entry)
    (hpdg : ls.pdg.WF) (hreach : ∀ b ∈ ls.prologue, ReflTransGen ls.fn.Flow entry b) :
    ∃ ord fuel st before, ls.processPrologue ord fuel = some st ∧ st.modified = true ∧
      st.shrunk = before ++ [b] := by
  obtain ⟨l, hl, hmem⟩ := exists_listedInOrder (r := ls.Precedes) (P := TransGen ls.PrologueFlow b)
    (fun a ha => by
      obtain ⟨c, -, hca⟩ := TransGen.tail'_iff.mp ha
      exact hca.2)
    (fun a ha c hc => ha.tail hc)
    (fun a ha hcycle => h.not_cycle hcfg hreach ha.to_reflTransGen (transGen_swap.mp hcycle))
  have hb : b ∉ l := fun hb => h.not_cycle hcfg hreach .refl ((hmem b).mp hb)
  let others := ls.prologue.elems.filter fun c => decide (c ∉ l ++ [b])
  have hperm : (l ++ b :: others).Perm ls.prologue.elems := by
    refine (perm_ext_iff_of_nodup ?_ ls.prologue.nodup).mpr fun c => ?_
    · refine nodup_append.mpr ⟨hl.nodup, nodup_cons.mpr ⟨?_, ls.prologue.nodup.filter _⟩, ?_⟩
      · simp [others]
      · rintro c hc d hd rfl
        rcases mem_cons.mp hd with rfl | hd
        · exact hb hc
        · exact of_decide_eq_true (mem_filter.mp hd).2 (mem_append_left [b] hc)
    · simp only [others, mem_append, mem_cons, mem_filter, decide_eq_true_eq,
        not_mem_nil, or_false]
      constructor
      · rintro (hc | rfl | hc)
        · exact hl.mem c hc
        · exact h.mem
        · exact hc.1
      · intro hc
        by_cases hcl : c ∈ l
        · exact .inl hcl
        · by_cases hcb : c = b
          · exact .inr (.inl hcb)
          · exact .inr (.inr ⟨hc, fun hor => hor.elim hcl hcb⟩)
  obtain ⟨ord, hord⟩ := IterOrder.exists_visit_eq hperm
  have hshrinks : ls.shrinksPrologueBasicBlock ord b = some true :=
    (shrinksPrologueBasicBlock_congr ord .stored hpdg b).trans h.shrinks
  obtain ⟨st, hrun, hmodified, hshrunk⟩ := processPrologueLoop_of_ready hfn hshrinks l
    { workList := ord.visit ls.prologue.elems } hord rfl rfl (fun p x q hsplit => by
      rcases eq_nil_or_concat q with rfl | ⟨q, y, rfl⟩
      · obtain ⟨rfl, hbx⟩ := append_inj' hsplit rfl
        obtain rfl := singleton_inj.mp hbx
        exact ⟨h.canLeave b .refl, fun c hc => .inr ((hmem c).mpr (.single hc))⟩
      · rw [concat_eq_append, ← cons_append, ← append_assoc] at hsplit
        have hlx := (append_inj' hsplit rfl).1
        have hx : x ∈ l := hlx ▸ mem_append_right p (.head _)
        exact ⟨h.canLeave x ((hmem x).mp hx).to_reflTransGen,
          fun c hc => .inr (hl.parents_before p x q hlx c hc)⟩)
    fun x hx => (shrinksPrologueBasicBlock_congr ord .stored hpdg x).trans
      (h.quiet x ((hmem x).mp hx))
  exact ⟨ord, l.length + 1, st, l, hrun, hmodified, by rw [hshrunk]; rfl⟩

/-! ## The assertions -/

omit [DecidableEq V] in
/-- The assertions about a block that instructions can leave hold unless both its targets are in
the loop. -/
theorem assertionsHold_iff (hcfg : ls.fn.IsCFG entry)
    (hleave : Scheduler.canMoveAnyInstOutOfBasicBlock ls.fn b = some true)
    (hinside : ∃ c, ls.fn.Flow b c ∧ c ∈ ls.blocks) :
    ls.AssertionsHold b ↔ ¬ ls.BranchesInside b := by
  obtain ⟨⟨t, ht, hbranch⟩, -⟩ := of_canMoveAny hleave
  obtain ⟨x, hx, hxin⟩ := hinside
  unfold AssertionsHold moveTargets positionSuccessors BranchesInside
  rcases hcfg.branch b t ht hbranch with ⟨c, hc⟩ | ⟨c, d, hcd⟩
  · have hc' : c ∈ ls.blocks := by
      have hx : x ∈ ls.fn.successors b := hx
      rw [hc, mem_singleton] at hx
      exact hx ▸ hxin
    simp [hc, positionSuccessor, hc']
  · have hor : c ∈ ls.blocks ∨ d ∈ ls.blocks := by
      have hx : x ∈ ls.fn.successors b := hx
      rw [hcd, mem_cons, mem_singleton] at hx
      rcases hx with rfl | rfl
      · exact .inl hxin
      · exact .inr hxin
    by_cases hc : c ∈ ls.blocks <;> by_cases hd : d ∈ ls.blocks
    · simp [hcd, positionSuccessor, hc, hd]
    · simp [hcd, positionSuccessor, hc, hd]
    · simp [hcd, positionSuccessor, hc, hd]
    · exact absurd hor (by simp [hc, hd])

/-- **The assertions**: whatever the order of the prologue, the block that is handed over has exactly
one successor in the loop, if and only if no block that has moves branches to two blocks of the
loop (or the worklist is not used at all). -/
theorem moveInstOutOfPrologueBasicBlock_assertion_iff {fn : SchedulerFunction V B} {pdg : PDG V}
    {latches blocks : PtrSet B} {postDominates : B → B → Bool} (hfn : fn.WF) (hpdg : pdg.WF)
    (hcfg : fn.IsCFG entry) (hloop : ∀ b, b ∈ blocks ↔ NaturalLoop fn.Flow entry header b)
    (hls : getNewLoopScheduler fn pdg latches blocks postDominates = some ls) :
    (∀ ord fuel st before b, ls.canMoveAnyInstOutOfLoop = true → ls.canQuicklyHandleLoop = true →
      ls.processPrologue ord fuel = some st → st.modified = true → st.shrunk = before ++ [b] →
        ls.AssertionsHold b) ↔
    (ls.canMoveAnyInstOutOfLoop = true → ls.canQuicklyHandleLoop = true →
      ∀ b, ls.HasMoves b → ¬ ls.BranchesInside b) := by
  obtain ⟨rfl, rfl, rfl, -, hprologue⟩ := getNewLoopScheduler_eq_some hls
  have hreach : ∀ b ∈ ls.prologue, ReflTransGen ls.fn.Flow entry b := fun b hb =>
    ((hloop b).mp ((hprologue b).mp hb).1).1
  have hinside : ∀ b ∈ ls.prologue, ∃ c, ls.fn.Flow b c ∧ c ∈ ls.blocks := fun b hb => by
    obtain ⟨c, hbc, hc⟩ := ((hloop b).mp ((hprologue b).mp hb).1).exists_successor
    exact ⟨c, hbc, (hloop c).mpr hc⟩
  constructor
  · intro hall hbody hquick b hb
    obtain ⟨ord, fuel, st, before, hrun, hmodified, hshrunk⟩ := hb.handed_over hfn hcfg hpdg hreach
    exact (assertionsHold_iff hcfg (hb.canLeave b .refl) (hinside b hb.mem)).mp
      (hall ord fuel st before b hbody hquick hrun hmodified hshrunk)
  · intro hnone ord fuel st before b hbody hquick hrun hmodified hshrunk
    obtain ⟨N, hN⟩ := processPrologue_ends ord hfn hcfg hreach
    obtain ⟨st', hrun', hst, -⟩ := hN (max N fuel) (Nat.le_max_left N fuel)
    have hsame : ls.processPrologue ord (max N fuel) = some st :=
      loopM_mono (Nat.le_max_right N fuel) hrun
    obtain rfl := mem_unique hrun' hsame
    have hb := hst.hasMoves hpdg hmodified hshrunk
    exact (assertionsHold_iff hcfg (hb.canLeave b .refl) (hinside b hb.mem)).mpr
      (hnone hbody hquick b hb)

/-- The blocks of the sample form a natural loop. -/
theorem branchyBlocks_isNatural (b : Fin 7) :
    b ∈ branchyBlocks ↔ NaturalLoop branchyFunction.Flow 0 1 b := by
  have hlatch : IsLatch branchyFunction.Flow 0 1 5 := by
    refine ⟨by decide, fun hpath => ?_, branchyBlocks_reachable (by decide)⟩
    have hzero := hpath.mem_of_closed (S := (· = 0)) rfl (by decide)
    exact absurd hzero (by decide)
  have h5 : PathAvoiding branchyFunction.Flow 1 5 5 := .refl (by decide)
  have h4 : PathAvoiding branchyFunction.Flow 1 4 5 := h5.head (by decide) (by decide)
  have h3 : PathAvoiding branchyFunction.Flow 1 3 5 := h5.head (by decide) (by decide)
  have h2 : PathAvoiding branchyFunction.Flow 1 2 5 := h4.head (by decide) (by decide)
  constructor
  · intro hb
    refine ⟨branchyBlocks_reachable hb, 5, hlatch, ?_⟩
    have hmem : b ∈ [1, 2, 3, 4, 5] := PtrSet.mem_ofList.mp hb
    simp only [mem_cons, not_mem_nil, or_false] at hmem
    rcases hmem with rfl | rfl | rfl | rfl | rfl
    · exact .inl rfl
    · exact .inr h2
    · exact .inr h3
    · exact .inr h4
    · exact .inr h5
  · rintro ⟨-, l, hl, hb⟩
    have hl5 : l = 5 := by
      have hor : ∀ l, branchyFunction.Flow l 1 → l = 0 ∨ l = 5 := by decide
      refine (hor l hl.edge).resolve_left ?_
      rintro rfl
      exact hl.dominates (.refl (by decide))
    subst hl5
    by_contra hnot
    rcases hb with rfl | hpath
    · exact hnot (by decide)
    · have hb : ∀ b, b ∉ branchyBlocks → b = 0 ∨ b = 6 := by decide
      have hout := hpath.mem_of_closed (S := fun x => x = 0 ∨ x = 6) (hb b hnot) (by decide)
      exact absurd hout (by decide)

theorem branchyLoop_assertion_iff :
    (∀ ord fuel st before b, branchyLoop.canMoveAnyInstOutOfLoop = true →
      branchyLoop.canQuicklyHandleLoop = true → branchyLoop.processPrologue ord fuel = some st →
      st.modified = true → st.shrunk = before ++ [b] → branchyLoop.AssertionsHold b) ↔
    (branchyLoop.canMoveAnyInstOutOfLoop = true → branchyLoop.canQuicklyHandleLoop = true →
      ∀ b, branchyLoop.HasMoves b → ¬ branchyLoop.BranchesInside b) :=
  moveInstOutOfPrologueBasicBlock_assertion_iff branchyFunction_wf (DG.empty_clean 0).toWF
    branchyFunction_isCFG branchyBlocks_isNatural branchyLoop_eq

/-- The latch post-dominates the blocks from which every path to the exit leads through it. -/
theorem branchyPostDominates_iff : ∀ b ∈ branchyBlocks, branchyPostDominates 5 b = true ↔
    ¬ PathAvoiding branchyFunction.Flow 5 b 6 := by
  have h6 : PathAvoiding branchyFunction.Flow 5 6 6 := .refl (by decide)
  have h2 : PathAvoiding branchyFunction.Flow 5 2 6 := h6.head (by decide) (by decide)
  have h1 : PathAvoiding branchyFunction.Flow 5 1 6 := h2.head (by decide) (by decide)
  intro b hb
  have hmem : b ∈ [1, 2, 3, 4, 5] := PtrSet.mem_ofList.mp hb
  simp only [mem_cons, not_mem_nil, or_false] at hmem
  rcases hmem with rfl | rfl | rfl | rfl | rfl
  · exact iff_of_false (by decide) (not_not.mpr h1)
  · exact iff_of_false (by decide) (not_not.mpr h2)
  · refine iff_of_true (by decide) fun hpath => ?_
    exact absurd (hpath.mem_of_closed (S := (· = 3)) rfl (by decide)) (by decide)
  · refine iff_of_true (by decide) fun hpath => ?_
    exact absurd (hpath.mem_of_closed (S := (· = 4)) rfl (by decide)) (by decide)
  · exact iff_of_true (by decide) fun hpath => hpath.1 rfl

/-- The header is handed over, and both its successors are in the loop. -/
theorem branchyLoop_assertion_fails :
    (∀ b ∈ branchyBlocks, branchyPostDominates 5 b = true ↔
      ¬ PathAvoiding branchyFunction.Flow 5 b 6) ∧
    ¬ ∀ ord fuel st before b, branchyLoop.canMoveAnyInstOutOfLoop = true →
      branchyLoop.canQuicklyHandleLoop = true → branchyLoop.processPrologue ord fuel = some st →
      st.modified = true → st.shrunk = before ++ [b] → branchyLoop.AssertionsHold b := by
  refine ⟨branchyPostDominates_iff, fun hall => ?_⟩
  have hfinal : (branchyLoop.processPrologue .stored 2).map (fun st => (st.modified, st.shrunk)) =
      some (true, [2, 1]) := by decide +kernel
  obtain ⟨st, hrun, heq⟩ := map_eq_some_iff.mp hfinal
  obtain ⟨hmodified, hshrunk⟩ := Prod.mk.inj heq
  have hholds := hall .stored 2 st [2] 1 (by decide) (by decide) hrun hmodified hshrunk
  exact absurd hholds.2 (by decide)

end LoopScheduler

end Noelle
