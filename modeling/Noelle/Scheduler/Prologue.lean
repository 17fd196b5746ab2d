import Mathlib.Data.Fin.VecNotation
import Noelle.Lib.DepthOrder
import Noelle.Scheduler.BasicBlock

/-!
# Scheduler.Prologue

`LoopScheduler::shrinkLoopPrologue`: the order in which it goes through the prologue of a loop.

A block waits at the end of the queue for its successors in the prologue.  Blocks that wait for
each other would be on a cycle that nothing enters (`not_transGen_self_of_single`), so some block
of the queue is always decided before the queue has gone round once.
-/

namespace Noelle

open Relation PtrSet

/-- `LoopScheduler`, with the members that its constructor computes. -/
structure LoopScheduler (V B : Type) where
  fn : SchedulerFunction V B
  pdg : PDG V
  originalLatch : B
  blocks : PtrSet B
  prologue : PtrSet B
  body : PtrSet B

/-- The local variables of `shrinkLoopPrologue`.  `shrunk` is for statements: the blocks that
`shrinkPrologueBasicBlock` was called for, in this order. -/
structure PrologueSearch (B : Type) where
  workList : List B
  processedBlocks : PtrSet B := ∅
  cannotProcessBlocks : PtrSet B := ∅
  modified : Bool := false
  shrunk : List B := []

/-- What the loop over the successors of a block finds. -/
inductive Readiness
  | readyToProcess
  | notReady
  | cannotProcess
  deriving DecidableEq

/-- Control can pass from the one block to the other. -/
def SchedulerFunction.Flow {V B : Type} (fn : SchedulerFunction V B) (b c : B) : Prop :=
  c ∈ fn.successors b

instance SchedulerFunction.decidableFlow {V B : Type} [DecidableEq B] (fn : SchedulerFunction V B) :
    DecidableRel fn.Flow :=
  fun b c => inferInstanceAs (Decidable (c ∈ fn.successors b))

/-- What the verifier of the IR guarantees of the blocks: nothing jumps to the entry, and a branch
has one target or two. -/
structure SchedulerFunction.IsCFG {V B : Type} (fn : SchedulerFunction V B) (entry : B) : Prop where
  mem_predecessors : ∀ b c, b ∈ fn.predecessors c ↔ fn.Flow b c
  entry : fn.predecessors entry = []
  branch : ∀ b t, fn.getTerminator b = some t → fn.isBranchInst t = true →
    (∃ c, fn.successors b = [c]) ∨ ∃ c d, fn.successors b = [c, d]

namespace LoopScheduler

variable {V B : Type} [DecidableEq V] [DecidableEq B]

/-- The constructor.  `postDominates` is `DS->PDT.dominates`; a loop with several latches fails an
assertion. -/
def getNewLoopScheduler (fn : SchedulerFunction V B) (pdg : PDG V) (latches blocks : PtrSet B)
    (postDominates : B → B → Bool) : Option (LoopScheduler V B) :=
  match latches.elems with
  | [originalLatch] =>
      let prologue := blocks.filter fun block => !postDominates originalLatch block
      some
        { fn, pdg, originalLatch, blocks, prologue
          body := blocks.filter fun block => decide (block ∉ prologue) }
  | _ => none

variable (ord : IterOrder) (ls : LoopScheduler V B)

/-- `MaxPrologueSizeToHandle`. -/
def maxPrologueSizeToHandle : Nat := 16

def canMoveAnyInstOutOfLoop : Bool := ls.body.size ≠ 0

def canQuicklyHandleLoop : Bool := !decide (ls.prologue.size > maxPrologueSizeToHandle)

/-- Whether `shrinkPrologueBasicBlock` modifies the function: it does if there are instructions to
move, and leaves the function alone if not. -/
def shrinksPrologueBasicBlock (block : B) : Option Bool := do
  let instructionsToMove ← Scheduler.getAllInstsMoveableOutOfBasicBlock ord ls.fn ls.pdg block .down
  return instructionsToMove.size ≠ 0

/-- The loop over the successors of a block, which both constraints leave. -/
def checkSuccessors (processedBlocks cannotProcessBlocks : PtrSet B) : List B → Readiness
  | [] => .readyToProcess
  | succBB :: successors =>
      if succBB ∈ cannotProcessBlocks then .cannotProcess
      else if succBB ∈ ls.prologue ∧ succBB ∉ processedBlocks then .notReady
      else checkSuccessors processedBlocks cannotProcessBlocks successors

/-- The body of the loop over the worklist. -/
def processNext (st : PrologueSearch B) : Option (PrologueSearch B) := do
  let next ← st.workList.head?
  let st := { st with workList := st.workList.tail }
  if !(← Scheduler.canMoveAnyInstOutOfBasicBlock ls.fn next) then
    return { st with cannotProcessBlocks := st.cannotProcessBlocks.insert next }
  match ls.checkSuccessors st.processedBlocks st.cannotProcessBlocks (ls.fn.successors next) with
  | .cannotProcess => return { st with cannotProcessBlocks := st.cannotProcessBlocks.insert next }
  | .notReady => return { st with workList := st.workList ++ [next] }
  | .readyToProcess =>
      let st := { st with shrunk := st.shrunk ++ [next] }
      if ← ls.shrinksPrologueBasicBlock ord next then return { st with modified := true }
      return { st with processedBlocks := st.processedBlocks.insert next }

/-- The loop over the worklist, which a modification leaves. -/
def processPrologueLoop : Nat → PrologueSearch B → Option (PrologueSearch B) :=
  loopM (fun st => !st.modified && !st.workList.isEmpty) (ls.processNext ord)

/-- The worklist of `shrinkLoopPrologue`. -/
def processPrologue (fuel : Nat) : Option (PrologueSearch B) :=
  ls.processPrologueLoop ord fuel { workList := ord.visit ls.prologue.elems }

/-- `LoopScheduler::shrinkLoopPrologue`, given what `mergePrologueBasicBlocks` reports. -/
def shrinkLoopPrologue (mergePrologueBasicBlocks : Bool) (fuel : Nat) : Option Bool :=
  if !ls.canMoveAnyInstOutOfLoop then some false
  else if !ls.canQuicklyHandleLoop then some mergePrologueBasicBlocks
  else (ls.processPrologue ord fuel).map (·.modified)

/-! ## One block -/

/-- `c` is a successor of `b` in the prologue. -/
def Precedes (c b : B) : Prop := c ∈ ls.fn.successors b ∧ c ∈ ls.prologue

/-- The block goes back to the end of the queue. -/
def waits (processedBlocks cannotProcessBlocks : PtrSet B) (b : B) : Bool :=
  decide (Scheduler.canMoveAnyInstOutOfBasicBlock ls.fn b = some true) &&
    decide (ls.checkSuccessors processedBlocks cannotProcessBlocks (ls.fn.successors b) = .notReady)

/-- What one iteration does with the block at the front. -/
inductive NextStep (st : PrologueSearch B) (next : B) (rest : List B) : PrologueSearch B → Prop
  | cannot : ls.waits st.processedBlocks st.cannotProcessBlocks next = false →
      (Scheduler.canMoveAnyInstOutOfBasicBlock ls.fn next = some true →
        ∃ c, ls.fn.Flow next c ∧ c ∈ st.cannotProcessBlocks) →
      NextStep st next rest
        { st with workList := rest, cannotProcessBlocks := st.cannotProcessBlocks.insert next }
  | wait : ls.waits st.processedBlocks st.cannotProcessBlocks next = true →
      NextStep st next rest { st with workList := rest ++ [next] }
  | shrink : ls.waits st.processedBlocks st.cannotProcessBlocks next = false →
      Scheduler.canMoveAnyInstOutOfBasicBlock ls.fn next = some true →
      (∀ c, ls.Precedes c next → c ∈ st.processedBlocks) →
      ls.shrinksPrologueBasicBlock ord next = some true →
      NextStep st next rest
        { st with workList := rest, shrunk := st.shrunk ++ [next], modified := true }
  | process : ls.waits st.processedBlocks st.cannotProcessBlocks next = false →
      Scheduler.canMoveAnyInstOutOfBasicBlock ls.fn next = some true →
      (∀ c, ls.Precedes c next → c ∈ st.processedBlocks) →
      ls.shrinksPrologueBasicBlock ord next = some false →
      NextStep st next rest
        { st with
          workList := rest, shrunk := st.shrunk ++ [next]
          processedBlocks := st.processedBlocks.insert next }

variable {ord ls} {st st' : PrologueSearch B} {processed cannot : PtrSet B} {b next : B}
  {rest : List B}

section

omit [DecidableEq V]

theorem exists_of_notReady : ∀ {l : List B},
    ls.checkSuccessors processed cannot l = .notReady →
      ∃ c ∈ l, c ∈ ls.prologue ∧ c ∉ processed ∧ c ∉ cannot
  | [], h => nomatch h
  | c :: l, h => by
      unfold checkSuccessors at h
      split at h
      · nomatch h
      · rename_i hc
        split at h
        · rename_i hin
          exact ⟨c, .head _, hin.1, hin.2, hc⟩
        · obtain ⟨d, hd, hrest⟩ := exists_of_notReady h
          exact ⟨d, .tail c hd, hrest⟩

theorem exists_of_cannotProcess : ∀ {l : List B},
    ls.checkSuccessors processed cannot l = .cannotProcess → ∃ c ∈ l, c ∈ cannot
  | [], h => nomatch h
  | c :: l, h => by
      unfold checkSuccessors at h
      split at h
      · rename_i hc
        exact ⟨c, .head _, hc⟩
      · split at h
        · nomatch h
        · obtain ⟨d, hd, hrest⟩ := exists_of_cannotProcess h
          exact ⟨d, .tail c hd, hrest⟩

theorem processed_of_ready : ∀ {l : List B},
    ls.checkSuccessors processed cannot l = .readyToProcess →
      ∀ c ∈ l, c ∈ ls.prologue → c ∈ processed
  | [], _ => nofun
  | d :: l, h => by
      unfold checkSuccessors at h
      split at h
      · nomatch h
      · split at h
        · nomatch h
        · rename_i hd
          intro c hc hin
          rcases List.mem_cons.mp hc with rfl | hc
          · by_contra hnot
            exact hd ⟨hin, hnot⟩
          · exact processed_of_ready h c hc hin

end

omit [DecidableEq V] [DecidableEq B] in
theorem exists_canMoveAny (hfn : ls.fn.WF) (b : B) :
    ∃ r, Scheduler.canMoveAnyInstOutOfBasicBlock ls.fn b = some r := by
  obtain ⟨body, t, hsplit, hterm, -⟩ := hfn.terminator b
  have hterminator : ls.fn.getTerminator b = some t := by
    simp [SchedulerFunction.getTerminator, hsplit, hterm]
  unfold Scheduler.canMoveAnyInstOutOfBasicBlock
  rw [hterminator]
  cases hbranch : ls.fn.isBranchInst t with
  | false => exact ⟨false, by simp [hbranch]⟩
  | true => exact ⟨_, by simp only [Option.bind_eq_bind, Option.bind_some, hbranch]; rfl⟩

theorem exists_shrinks (ord : IterOrder) (hfn : ls.fn.WF) (b : B) :
    ∃ r, ls.shrinksPrologueBasicBlock ord b = some r := by
  obtain ⟨r, hr⟩ := exists_canMoveAny hfn b
  unfold shrinksPrologueBasicBlock Scheduler.getAllInstsMoveableOutOfBasicBlock
  rw [hr]
  cases r <;> exact ⟨_, rfl⟩

/-- The next block of the worklist can always be processed. -/
theorem processNext_spec (ord : IterOrder) (hfn : ls.fn.WF) (hwork : st.workList = next :: rest) :
    ∃ st', ls.processNext ord st = some st' ∧ ls.NextStep ord st next rest st' := by
  obtain ⟨r, hr⟩ := exists_canMoveAny hfn next
  obtain ⟨modified, hmodified⟩ := exists_shrinks ord hfn next
  unfold processNext
  rw [hwork]
  simp only [List.head?_cons, List.tail_cons, Option.bind_eq_bind, Option.bind_some, hr]
  cases r with
  | false => exact ⟨_, rfl, .cannot (by simp [waits, hr]) (by simp [hr])⟩
  | true =>
      cases hcheck : ls.checkSuccessors st.processedBlocks st.cannotProcessBlocks
          (ls.fn.successors next) with
      | cannotProcess =>
          exact ⟨_, rfl, .cannot (by simp [waits, hcheck]) fun _ => exists_of_cannotProcess hcheck⟩
      | notReady => exact ⟨_, rfl, .wait (by simp [waits, hr, hcheck])⟩
      | readyToProcess =>
          have hwaits : ls.waits st.processedBlocks st.cannotProcessBlocks next = false := by
            simp [waits, hcheck]
          have hready : ∀ c, ls.Precedes c next → c ∈ st.processedBlocks := fun c hc =>
            processed_of_ready hcheck c hc.1 hc.2
          simp only [Bool.not_true, Bool.false_eq_true, if_false, hmodified, Option.bind_some]
          cases modified with
          | false => exact ⟨_, rfl, .process hwaits hr hready hmodified⟩
          | true => exact ⟨_, rfl, .shrink hwaits hr hready hmodified⟩

/-! ## The run -/

/-- The state of the loop. -/
structure Searching (ord : IterOrder) (ls : LoopScheduler V B) (st : PrologueSearch B) : Prop where
  nodup : st.workList.Nodup
  mem : ∀ b ∈ st.workList, b ∈ ls.prologue
  processed : ∀ b ∈ st.processedBlocks, b ∉ st.workList ∧ b ∉ st.cannotProcessBlocks
  cannot : ∀ b ∈ st.cannotProcessBlocks, b ∉ st.workList
  decided : st.modified = false → ∀ b ∈ ls.prologue,
    b ∈ st.workList ∨ b ∈ st.processedBlocks ∨ b ∈ st.cannotProcessBlocks
  ordered : ListedInOrder ls.prologue.elems ls.Precedes st.shrunk
  canLeave : ∀ b ∈ st.shrunk, Scheduler.canMoveAnyInstOutOfBasicBlock ls.fn b = some true
  /-- The calls were for the processed blocks, and after a modification for one more. -/
  calls : ∃ calls, (∀ b, b ∈ calls ↔ b ∈ st.processedBlocks) ∧
    ((st.modified = false ∧ st.shrunk = calls) ∨ ∃ b, st.modified = true ∧
      st.shrunk = calls ++ [b] ∧ b ∉ st.cannotProcessBlocks ∧
        ls.shrinksPrologueBasicBlock ord b = some true)
  quiet : ∀ b ∈ st.processedBlocks, ls.shrinksPrologueBasicBlock ord b = some false

theorem searching_start (ord : IterOrder) (ls : LoopScheduler V B) :
    Searching ord ls { workList := ord.visit ls.prologue.elems } where
  nodup := ord.nodup_visit ls.prologue.nodup
  mem _ hb := ord.mem_visit.mp hb
  processed b hb := absurd hb (not_mem_empty b)
  cannot b hb := absurd hb (not_mem_empty b)
  decided _ _ hb := .inl (ord.mem_visit.mpr hb)
  ordered := ⟨List.nodup_nil, nofun,
    fun pre a post h => absurd h (by simp)⟩
  canLeave _ hb := nomatch hb
  calls := ⟨[], fun b => ⟨nofun,
    fun h => absurd h (not_mem_empty b)⟩, .inl ⟨rfl, rfl⟩⟩
  quiet b hb := absurd hb (not_mem_empty b)

/-- No shrunk block is among those that cannot be processed. -/
theorem Searching.shrunk_not_cannot (h : Searching ord ls st) (hb : b ∈ st.shrunk) :
    b ∉ st.cannotProcessBlocks := by
  obtain ⟨calls, hcalls, ⟨-, heq⟩ | ⟨x, -, heq, hx, -⟩⟩ := h.calls
  · exact (h.processed b ((hcalls b).mp (heq ▸ hb))).2
  · rw [heq, List.mem_append, List.mem_singleton] at hb
    rcases hb with hb | rfl
    · exact (h.processed b ((hcalls b).mp hb)).2
    · exact hx

/-- Until something changes, the shrunk blocks are those processed. -/
theorem Searching.mem_shrunk_iff (h : Searching ord ls st) (hmodified : st.modified = false) :
    b ∈ st.shrunk ↔ b ∈ st.processedBlocks := by
  obtain ⟨calls, hcalls, ⟨-, heq⟩ | ⟨x, htrue, -⟩⟩ := h.calls
  · rw [heq]
    exact hcalls b
  · rw [hmodified] at htrue
    cases htrue

/-- A step keeps the invariant of the search. -/
theorem Searching.step (h : Searching ord ls st) (hmodified : st.modified = false)
    (hwork : st.workList = next :: rest) (hstep : ls.NextStep ord st next rest st') :
    Searching ord ls st' := by
  obtain ⟨hnext, hnodup⟩ := List.nodup_cons.mp (hwork ▸ h.nodup)
  have hmem : ∀ b, b ∈ st.workList ↔ b = next ∨ b ∈ rest := fun b => by
    rw [hwork, List.mem_cons]
  have hrest : ∀ b ∈ rest, b ∈ st.workList := fun b hb => (hmem b).mpr (.inr hb)
  have hfront : next ∈ st.workList := (hmem next).mpr (.inl rfl)
  have hfresh : next ∉ st.processedBlocks := fun hp => (h.processed next hp).1 hfront
  have hcan : next ∉ st.cannotProcessBlocks := fun hc => h.cannot next hc hfront
  have hdecided : ∀ b ∈ ls.prologue, b = next ∨ b ∈ rest ∨ b ∈ st.processedBlocks ∨
      b ∈ st.cannotProcessBlocks := fun b hb => by
    rcases h.decided hmodified b hb with hb | hb | hb
    · exact ((hmem b).mp hb).imp_right .inl
    · exact .inr (.inr (.inl hb))
    · exact .inr (.inr (.inr hb))
  obtain ⟨calls, hcalls, ⟨-, heq⟩ | ⟨x, htrue, -⟩⟩ := h.calls
  swap
  · rw [hmodified] at htrue
    cases htrue
  have hshrunk : ∀ b, b ∈ st.shrunk ↔ b ∈ st.processedBlocks := fun b => h.mem_shrunk_iff hmodified
  have happend : (∀ c, ls.Precedes c next → c ∈ st.processedBlocks) →
      ListedInOrder ls.prologue.elems ls.Precedes (st.shrunk ++ [next]) := fun hready =>
    h.ordered.append (h.mem next hfront) (fun hs => hfresh ((hshrunk next).mp hs))
      fun c hc => (hshrunk c).mpr (hready c hc)
  have hcanLeave : Scheduler.canMoveAnyInstOutOfBasicBlock ls.fn next = some true →
      ∀ b ∈ st.shrunk ++ [next], Scheduler.canMoveAnyInstOutOfBasicBlock ls.fn b = some true :=
    fun hnext b hb => by
      rcases List.mem_append.mp hb with hb | hb
      · exact h.canLeave b hb
      · exact List.mem_singleton.mp hb ▸ hnext
  cases hstep with
  | cannot _ _ =>
      refine ⟨hnodup, fun b hb => h.mem b (hrest b hb), fun b hb => ⟨?_, ?_⟩, fun b hb => ?_,
        fun _ b hb => ?_, h.ordered, h.canLeave, ⟨calls, hcalls, .inl ⟨hmodified, heq⟩⟩, h.quiet⟩
      · exact fun hmem' => (h.processed b hb).1 (hrest b hmem')
      · rw [mem_insert]
        rintro (rfl | hc)
        · exact hfresh hb
        · exact (h.processed b hb).2 hc
      · rcases mem_insert.mp hb with rfl | hb
        · exact hnext
        · exact fun hmem' => h.cannot b hb (hrest b hmem')
      · rcases hdecided b hb with rfl | hb | hb | hb
        · exact .inr (.inr (mem_insert.mpr (.inl rfl)))
        · exact .inl hb
        · exact .inr (.inl hb)
        · exact .inr (.inr (mem_insert.mpr (.inr hb)))
  | wait _ =>
      have hsame : ∀ b, b ∈ rest ++ [next] ↔ b ∈ st.workList := fun b => by
        rw [hmem, List.mem_append, List.mem_singleton, or_comm]
      refine ⟨?_, fun b hb => h.mem b ((hsame b).mp hb), fun b hb => ⟨?_, (h.processed b hb).2⟩,
        fun b hb => ?_, fun _ b hb => ?_, h.ordered, h.canLeave,
        ⟨calls, hcalls, .inl ⟨hmodified, heq⟩⟩, h.quiet⟩
      · exact List.nodup_append.mpr ⟨hnodup, List.nodup_singleton next, fun b hb c hc heq' =>
          hnext (List.mem_singleton.mp hc ▸ heq' ▸ hb)⟩
      · exact fun hmem' => (h.processed b hb).1 ((hsame b).mp hmem')
      · exact fun hmem' => h.cannot b hb ((hsame b).mp hmem')
      · exact (h.decided hmodified b hb).imp_left (hsame b).mpr
  | shrink _ hleave hready hshrinks =>
      refine ⟨hnodup, fun b hb => h.mem b (hrest b hb), fun b hb => ⟨?_, (h.processed b hb).2⟩,
        fun b hb => ?_, fun hfalse => Bool.noConfusion hfalse, happend hready, hcanLeave hleave,
        ⟨calls, hcalls, .inr ⟨next, rfl, ?_, hcan, hshrinks⟩⟩, h.quiet⟩
      · exact fun hmem' => (h.processed b hb).1 (hrest b hmem')
      · exact fun hmem' => h.cannot b hb (hrest b hmem')
      · exact congrArg (· ++ [next]) heq
  | process _ hleave hready hquiet =>
      refine ⟨hnodup, fun b hb => h.mem b (hrest b hb), fun b hb => ?_, fun b hb => ?_,
        fun _ b hb => ?_, happend hready, hcanLeave hleave,
        ⟨calls ++ [next], fun b => ?_, .inl ⟨hmodified, congrArg (· ++ [next]) heq⟩⟩,
        fun b hb => ?_⟩
      · rcases mem_insert.mp hb with rfl | hb
        · exact ⟨hnext, hcan⟩
        · exact ⟨fun hmem' => (h.processed b hb).1 (hrest b hmem'), (h.processed b hb).2⟩
      · exact fun hmem' => h.cannot b hb (hrest b hmem')
      · rcases hdecided b hb with rfl | hb | hb | hb
        · exact .inr (.inl (mem_insert.mpr (.inl rfl)))
        · exact .inl hb
        · exact .inr (.inl (mem_insert.mpr (.inr hb)))
        · exact .inr (.inr hb)
      · rw [List.mem_append, List.mem_singleton, mem_insert, hcalls, or_comm]
      · rcases mem_insert.mp hb with rfl | hb
        · exact hquiet
        · exact h.quiet b hb

/-! ## Some block is decided -/

omit [DecidableEq V] [DecidableEq B] in
/-- The terminator of a block that instructions can leave is a branch to blocks without other
predecessors. -/
theorem of_canMoveAny (h : Scheduler.canMoveAnyInstOutOfBasicBlock ls.fn b = some true) :
    (∃ t, ls.fn.getTerminator b = some t ∧ ls.fn.isBranchInst t = true) ∧
      ∀ c, ls.fn.Flow b c → ∃ p, ls.fn.predecessors c = [p] := by
  unfold Scheduler.canMoveAnyInstOutOfBasicBlock at h
  obtain ⟨t, ht, hrest⟩ := Option.bind_eq_some_iff.mp h
  cases hbranch : ls.fn.isBranchInst t with
  | false => simp [hbranch] at hrest
  | true =>
      refine ⟨⟨t, ht, hbranch⟩, fun c hc => ?_⟩
      have hall : (ls.fn.successors b).all
          (fun succBB => (ls.fn.getSinglePredecessor succBB).isSome) = true := by
        simpa [hbranch] using hrest
      obtain ⟨p, hp⟩ := Option.isSome_iff_exists.mp (List.all_eq_true.mp hall c hc)
      exact ⟨p, SchedulerFunction.predecessors_of_getSinglePredecessor hp⟩

variable {entry : B}

omit [DecidableEq V] [DecidableEq B] in
theorem not_cycle (hcfg : ls.fn.IsCFG entry) (hreach : ReflTransGen ls.fn.Flow entry b) :
    ¬ TransGen (fun b c => ls.fn.Flow b c ∧
      Scheduler.canMoveAnyInstOutOfBasicBlock ls.fn b = some true) b b := by
  refine not_transGen_self_of_single (fun _ _ h => h.1) ?_ (fun a ha => ?_) hreach
  · rintro a a' c ⟨hac, hleave⟩ ha'c
    obtain ⟨p, hp⟩ := (of_canMoveAny hleave).2 c hac
    have hmem : ∀ x, ls.fn.Flow x c → x = p := fun x hx => by
      rw [← hcfg.mem_predecessors, hp] at hx
      exact List.mem_singleton.mp hx
    rw [hmem a hac, hmem a' ha'c]
  · rw [← hcfg.mem_predecessors, hcfg.entry] at ha
    nomatch ha

theorem Searching.exists_decided (h : Searching ord ls st) (hcfg : ls.fn.IsCFG entry)
    (hreach : ∀ b ∈ ls.prologue, ReflTransGen ls.fn.Flow entry b) (hmodified : st.modified = false)
    (hne : st.workList ≠ []) :
    ∃ b ∈ st.workList, ls.waits st.processedBlocks st.cannotProcessBlocks b = false := by
  by_contra hall
  push Not at hall
  have hwf := wellFounded_of_acyclic (P := (· ∈ st.workList))
    (fun b (hb : b ∈ st.workList) => hb) fun b hb => not_cycle hcfg (hreach b (h.mem b hb))
  obtain ⟨b₀, hb₀⟩ := List.exists_mem_of_ne_nil _ hne
  obtain ⟨⟨b, hb⟩, -, hleast⟩ := hwf.has_min Set.univ ⟨⟨b₀, hb₀⟩, trivial⟩
  -- `b` waits for a block that waits too
  have hwaits := (Bool.and_eq_true _ _).mp (Bool.eq_true_of_not_eq_false (hall b hb))
  obtain ⟨c, hc, hin, hnot, hnot'⟩ := exists_of_notReady (of_decide_eq_true hwaits.2)
  have hc' : c ∈ st.workList := by
    rcases h.decided hmodified c hin with hc' | hc' | hc'
    · exact hc'
    · exact absurd hc' hnot
    · exact absurd hc' hnot'
  exact hleast ⟨c, hc'⟩ trivial (.single ⟨hc, of_decide_eq_true hwaits.1⟩)

/-- What is left: the blocks of the queue, and those before the first that will be decided. -/
def left (ls : LoopScheduler V B) (st : PrologueSearch B) : Nat :=
  st.workList.length * (ls.prologue.size + 1) +
    st.workList.findIdx fun b => !ls.waits st.processedBlocks st.cannotProcessBlocks b

/-- A step leaves less to do. -/
theorem Searching.left_lt (h : Searching ord ls st) (hcfg : ls.fn.IsCFG entry)
    (hreach : ∀ b ∈ ls.prologue, ReflTransGen ls.fn.Flow entry b) (hmodified : st.modified = false)
    (hwork : st.workList = next :: rest) (hstep : ls.NextStep ord st next rest st') :
    ls.left st' < ls.left st := by
  have hsize : st.workList.length ≤ ls.prologue.size :=
    size_le_length (s := ⟨st.workList, h.nodup⟩) h.mem
  have hlength : st.workList.length = rest.length + 1 := by
    rw [hwork]
    rfl
  -- a queue that is one block shorter
  have hshorter : ∀ p : B → Bool, rest.length * (ls.prologue.size + 1) + rest.findIdx p <
      ls.left st := fun p => by
    have hle : rest.findIdx p ≤ rest.length := List.findIdx_le_length
    unfold left
    rw [hlength, Nat.succ_mul]
    omega
  cases hstep with
  | cannot _ _ => exact hshorter _
  | shrink _ _ _ _ => exact hshorter _
  | process _ _ _ _ => exact hshorter _
  | wait hwaits =>
      obtain ⟨b, hb, hdecided⟩ := h.exists_decided hcfg hreach hmodified (by simp [hwork])
      have hb' : b ∈ rest := by
        rw [hwork, List.mem_cons] at hb
        refine hb.resolve_left fun heq => ?_
        rw [heq, hwaits] at hdecided
        exact Bool.noConfusion hdecided
      let p : B → Bool := fun b => !ls.waits st.processedBlocks st.cannotProcessBlocks b
      have hin : rest.findIdx p < rest.length :=
        List.findIdx_lt_length_of_exists ⟨b, hb', by simp [p, hdecided]⟩
      have hfront : (next :: rest).findIdx p = rest.findIdx p + 1 := by
        rw [List.findIdx_cons]
        simp [p, hwaits]
      have hback : (rest ++ [next]).findIdx p = rest.findIdx p := by
        rw [List.findIdx_append, if_pos hin]
      unfold left
      rw [hwork]
      change _ * _ + (rest ++ [next]).findIdx p < _ * _ + (next :: rest).findIdx p
      rw [hback, hfront, List.length_append, List.length_singleton, List.length_cons]
      omega

/-- The loop ends, with the invariant, and either with a modification or with an empty queue. -/
theorem processPrologue_ends (ord : IterOrder) (hfn : ls.fn.WF) (hcfg : ls.fn.IsCFG entry)
    (hreach : ∀ b ∈ ls.prologue, ReflTransGen ls.fn.Flow entry b) :
    ∃ N, ∀ fuel ≥ N, ∃ st, ls.processPrologue ord fuel = some st ∧ Searching ord ls st ∧
      (st.modified = true ∨ st.workList = []) := by
  refine ⟨ls.left { workList := ord.visit ls.prologue.elems }, fun fuel hfuel => ?_⟩
  obtain ⟨st, hloop, hsearching, hend⟩ := @loopM_rule (PrologueSearch B)
    (fun st => !st.modified && !st.workList.isEmpty) (ls.processNext ord) (Searching ord ls) ls.left
    (fun st hst hcond => by
      obtain ⟨hmodified, hwork⟩ := (Bool.and_eq_true _ _).mp hcond
      have hmodified : st.modified = false := by simpa using hmodified
      cases hl : st.workList with
      | nil => simp [hl] at hwork
      | cons next rest =>
          obtain ⟨st', hnext, hstep⟩ := processNext_spec ord hfn hl
          exact ⟨st', hnext, hst.step hmodified hl hstep,
            hst.left_lt hcfg hreach hmodified hl hstep⟩)
    fuel _ (searching_start ord ls) hfuel
  refine ⟨st, hloop, hsearching, ?_⟩
  cases hm : st.modified with
  | true => exact .inl rfl
  | false => exact .inr (by simpa [hm] using hend)

omit [DecidableEq V] in
theorem getNewLoopScheduler_eq_some {fn : SchedulerFunction V B} {pdg : PDG V}
    {latches blocks : PtrSet B} {postDominates : B → B → Bool}
    (h : getNewLoopScheduler fn pdg latches blocks postDominates = some ls) :
    ls.fn = fn ∧ ls.pdg = pdg ∧ ls.blocks = blocks ∧ latches.elems = [ls.originalLatch] ∧
      ∀ b, b ∈ ls.prologue ↔ b ∈ blocks ∧ postDominates ls.originalLatch b = false := by
  unfold getNewLoopScheduler at h
  split at h
  · rename_i latch hlatch
    cases h
    exact ⟨rfl, rfl, rfl, hlatch, fun b => by simp [mem_filter]⟩
  · cases h

/-- **The worklist of the prologue**: for a loop with one latch whose blocks are reachable it ends.
Every block of the prologue is processed or cannot be processed, not both, unless a modification
ended the search.  Blocks are processed after their successors in the prologue, and none is that
is on a cycle in the prologue or leads in it to a block that cannot be processed. -/
theorem shrinkLoopPrologue_spec (ord : IterOrder) {fn : SchedulerFunction V B} {pdg : PDG V}
    {latches blocks : PtrSet B} {postDominates : B → B → Bool} (hfn : fn.WF)
    (hcfg : fn.IsCFG entry) (hreach : ∀ b ∈ blocks, ReflTransGen fn.Flow entry b)
    (hls : getNewLoopScheduler fn pdg latches blocks postDominates = some ls) :
    ∃ N, ∀ fuel ≥ N, ∃ st, ls.processPrologue ord fuel = some st ∧
      (∀ merged, ∃ r, ls.shrinkLoopPrologue ord merged fuel = some r) ∧
      (st.modified = false → ∀ b ∈ ls.prologue,
        b ∈ st.processedBlocks ∨ b ∈ st.cannotProcessBlocks) ∧
      (∀ b, ¬ (b ∈ st.processedBlocks ∧ b ∈ st.cannotProcessBlocks)) ∧
      (∀ b ∈ st.processedBlocks, b ∈ st.shrunk) ∧
      ∀ before b after, st.shrunk = before ++ b :: after → b ∈ ls.prologue ∧
        (∀ c, fn.Flow b c → c ∈ ls.prologue → c ∈ before) ∧
        ¬ TransGen (fun b c => fn.Flow b c ∧ c ∈ ls.prologue) b b ∧
        ∀ c, ReflTransGen (fun b c => fn.Flow b c ∧ c ∈ ls.prologue) b c →
          Scheduler.canMoveAnyInstOutOfBasicBlock fn c = some true ∧
            c ∉ st.cannotProcessBlocks := by
  obtain ⟨rfl, -, rfl, -, hprologue⟩ := getNewLoopScheduler_eq_some hls
  obtain ⟨N, hN⟩ := processPrologue_ends ord hfn hcfg fun b hb => hreach b ((hprologue b).mp hb).1
  refine ⟨N, fun fuel hfuel => ?_⟩
  obtain ⟨st, hrun, hst, hend⟩ := hN fuel hfuel
  have hcalled : ∀ b ∈ st.processedBlocks, b ∈ st.shrunk := fun b hb => by
    obtain ⟨calls, hcalls, ⟨-, heq⟩ | ⟨x, -, heq, -⟩⟩ := hst.calls
    · exact heq ▸ (hcalls b).mpr hb
    · exact heq ▸ List.mem_append_left _ ((hcalls b).mpr hb)
  refine ⟨st, hrun, fun merged => ?_, fun hmodified b hb => ?_,
    fun b hb => (hst.processed b hb.1).2 hb.2, hcalled, fun before b after hsplit => ?_⟩
  · unfold shrinkLoopPrologue
    split
    · exact ⟨_, rfl⟩
    · split
      · exact ⟨_, rfl⟩
      · exact ⟨st.modified, by rw [hrun]; rfl⟩
  · have hempty := hend.resolve_left (by simp [hmodified])
    rcases hst.decided hmodified b hb with hb | hb
    · rw [hempty] at hb
      nomatch hb
    · exact hb
  · have hb : b ∈ st.shrunk := hsplit ▸ List.mem_append_right before (.head _)
    have hswap : (fun b c => ls.fn.Flow b c ∧ c ∈ ls.prologue) = Function.swap ls.Precedes := rfl
    refine ⟨hst.ordered.mem b hb,
      fun c hc hin => hst.ordered.parents_before before b after hsplit c ⟨hc, hin⟩,
      fun hcycle => ?_, fun c hc => ?_⟩
    · rw [hswap] at hcycle
      exact hst.ordered.not_transGen_self hb (transGen_swap.mp hcycle)
    · rw [hswap] at hc
      have hc' : c ∈ st.shrunk := by
        rcases (reflTransGen_iff_eq_or_transGen.mp hc) with rfl | hc
        · exact hb
        · have hbefore := hst.ordered.ancestors_before hsplit (transGen_swap.mp hc)
          exact hsplit ▸ List.mem_append_left _ hbefore
      exact ⟨hst.canLeave c hc', hst.shrunk_not_cannot hc'⟩

/-- A loop with the header `1`, the latch `5` and the exit `6`.  The header computes `7` and
branches to `2` and `3`; `2` branches to `4` and the exit, and has no other instruction. -/
def branchyFunction : SchedulerFunction (Fin 8) (Fin 7) where
  ir :=
    { kind := fun v => if v = 7 then .otherInstruction else .terminator
      getParent := fun v => if h : v.1 < 7 then ⟨v.1, h⟩ else 1 }
  isBranchInst v := decide (v ≠ 6 ∧ v ≠ 7)
  instructions b := if b = 1 then [7, 1] else [b.castSucc]
  successors := ![[1], [2, 3], [4, 6], [5], [5], [1], []]
  predecessors := ![[], [0, 5], [1], [1], [2], [3, 4], [2]]

theorem branchyFunction_wf : branchyFunction.WF where
  mem_instructions := by decide
  nodup := by decide
  terminator b := by
    by_cases hb : b = 1
    · subst hb
      exact ⟨[7], 1, rfl, rfl, by decide⟩
    · refine ⟨[], b.castSucc, if_neg hb, ?_, by simp⟩
      revert b
      decide

theorem branchyFunction_isCFG : branchyFunction.IsCFG 0 where
  mem_predecessors := by decide
  entry := rfl
  branch := by decide

def branchyBlocks : PtrSet (Fin 7) := PtrSet.ofList [1, 2, 3, 4, 5]

/-- The latch post-dominates `3`, `4` and itself. -/
def branchyPostDominates (a b : Fin 7) : Bool := decide (a = b ∨ (a = 5 ∧ (b = 3 ∨ b = 4)))

theorem branchyBlocks_reachable {b : Fin 7} (hb : b ∈ branchyBlocks) :
    ReflTransGen branchyFunction.Flow 0 b := by
  have h1 : ReflTransGen branchyFunction.Flow 0 1 := .single (by decide)
  have h2 : ReflTransGen branchyFunction.Flow 0 2 := h1.tail (by decide)
  have h3 : ReflTransGen branchyFunction.Flow 0 3 := h1.tail (by decide)
  have h4 : ReflTransGen branchyFunction.Flow 0 4 := h2.tail (by decide)
  have h5 : ReflTransGen branchyFunction.Flow 0 5 := h3.tail (by decide)
  have hmem : b ∈ [1, 2, 3, 4, 5] := mem_ofList.mp hb
  simp only [List.mem_cons, List.not_mem_nil, or_false] at hmem
  rcases hmem with rfl | rfl | rfl | rfl | rfl <;> assumption

def branchyLoop : LoopScheduler (Fin 8) (Fin 7) where
  fn := branchyFunction
  pdg := DG.empty 0
  originalLatch := 5
  blocks := branchyBlocks
  prologue := branchyBlocks.filter fun block => !branchyPostDominates 5 block
  body := branchyBlocks.filter fun block =>
    decide (block ∉ branchyBlocks.filter fun block => !branchyPostDominates 5 block)

theorem branchyLoop_eq : getNewLoopScheduler branchyFunction (DG.empty 0) (PtrSet.ofList [5])
    branchyBlocks branchyPostDominates = some branchyLoop := rfl

theorem branchyLoop_processed : ∃ N, ∀ fuel ≥ N, ∃ st,
    branchyLoop.processPrologue .stored fuel = some st ∧
      ∀ b, ¬ (b ∈ st.processedBlocks ∧ b ∈ st.cannotProcessBlocks) := by
  obtain ⟨N, hN⟩ := shrinkLoopPrologue_spec .stored branchyFunction_wf branchyFunction_isCFG
    (fun b hb => branchyBlocks_reachable hb) branchyLoop_eq
  refine ⟨N, fun fuel hfuel => ?_⟩
  obtain ⟨st, hrun, -, -, hdisjoint, -⟩ := hN fuel hfuel
  exact ⟨st, hrun, hdisjoint⟩

end LoopScheduler

end Noelle
