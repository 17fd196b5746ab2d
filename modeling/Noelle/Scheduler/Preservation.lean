import Noelle.Lib.SunkRuns
import Noelle.Scheduler.Moves

/-!
# Scheduler.Preservation

`LoopScheduler::shrinkPrologueBasicBlock` preserves the loop.

After the moves the operands of the clones are remapped (`MovedOut.remap`), and the function is the
old one with the instructions moved (`Sunk`).  What `getAllInstsMoveableOutOfBasicBlock` returns can
be moved, since the dependence graph has the dependences of the block (`Covers`); so the runs of
the two functions compute the same values.
-/

namespace Noelle

open Relation List Option

namespace LoopScheduler

variable {V B : Type} [DecidableEq V] [DecidableEq B] {ord : IterOrder} {ls : LoopScheduler V B}
  {code code' : SSACode V B} {clone : V → V} {block inside outside b : B} {moved : List V}
  {st : MovingOut V B} {i m x : V}

/-! ## Remapping -/

theorem MovedOut.mem_valuesToEnter
    (h : MovedOut code (sinkingOf code clone block inside outside moved) st) (hm : m ∈ moved)
    (hx : x ∈ st.code.operands m) (hnot : x ∉ moved) : x ∈ valuesToEnter ord st := by
  have hlookup : ∀ y, st.originalToClones.lookup y = if y ∈ moved then some (clone y) else none :=
    h.originalToClones
  have hentry : (⟨m, clone m⟩ : Sigma fun _ : V => V) ∈ st.originalToClones.entries :=
    AList.mem_lookup_iff.mp ((hlookup m).trans (if_pos hm))
  refine PtrSet.mem_ofList.mpr (mem_filter.mpr ⟨mem_flatMap.mpr
    ⟨_, ord.mem_visit.mpr hentry, hx⟩, decide_eq_true fun hin => ?_⟩)
  have hnone := (hlookup x).trans (if_neg hnot)
  exact AList.lookup_eq_none.mp hnone hin

/-- The value that a successor sees for a moved instruction. -/
theorem MovedOut.lookup_enterValues (ord : IterOrder)
    (h : MovedOut code (sinkingOf code clone block inside outside moved) st)
    (hd : Departs code clone block inside outside) (hmoved : ∀ m ∈ moved, m ∈ code.body block)
    (hm : m ∈ moved) (hx : x ∈ st.code.operands (clone m)) :
    (enterValues ord st).lookup x = some (if x ∈ moved then clone x else x) := by
  have hclone : m ∉ moved.map clone := fun hmem => by
    obtain ⟨j, hjm, hj⟩ := mem_map.mp hmem
    exact hd.fresh j (hmoved j hjm) (hj ▸ .body (hmoved m hm))
  have hsame : st.code.operands m = st.code.operands (clone m) :=
    (h.operands m hclone).trans (h.operands_clone m hm).symm
  have hold : st.originalToClones.lookup x = if x ∈ moved then some (clone x) else none :=
    h.originalToClones x
  have hlookup := lookup_foldl_insert (fun v : V => v) x (ord.visit (valuesToEnter ord st).elems)
    st.originalToClones
  refine hlookup.trans ?_
  rw [hold]
  by_cases hxm : x ∈ moved
  · have hnot : x ∉ ord.visit (valuesToEnter ord st).elems := fun hmem => by
      have hfilter := (mem_filter.mp (PtrSet.mem_ofList.mp (ord.mem_visit.mp hmem))).2
      refine of_decide_eq_true hfilter ?_
      by_contra hno
      rw [AList.lookup_eq_none.mpr hno, if_pos hxm] at hold
      cases hold
    rw [if_neg hnot, if_pos hxm, if_pos hxm]
  · have hmem : x ∈ ord.visit (valuesToEnter ord st).elems :=
      ord.mem_visit.mpr (h.mem_valuesToEnter hm (hsame ▸ hx) hxm)
    rw [if_pos hmem, if_neg hxm]

/-- The operands when the clones `done` were remapped. -/
def remappedOperands (f : SSACode V B) (clone : V → V) (moved done : List V) (i : V) : List V :=
  if i ∈ done then (f.operands i).map fun x => if x ∈ moved then clone x else x else f.operands i

/-- The clones refer to the clones. -/
theorem MovedOut.remap (ord : IterOrder)
    (h : MovedOut code (sinkingOf code clone block inside outside moved) st)
    (hd : Departs code clone block inside outside) (hmoved : ∀ m ∈ moved, m ∈ code.body block) :
    ∃ done, remapClonedInstructions ord st =
        some { st.code with operands := remappedOperands st.code clone moved done } ∧
      ∀ i, i ∈ done ↔ i ∈ moved.map clone := by
  have hmem : ∀ c, c ∈ ord.visit st.clones.elems ↔ c ∈ moved.map clone := fun c => by
    rw [ord.mem_visit, PtrSet.mem_elems]
    exact h.clones c
  have hstep : ∀ pre c post code', ord.visit st.clones.elems = pre ++ c :: post →
      code' = { st.code with operands := remappedOperands st.code clone moved pre } →
      ∃ code'', remapInstruction (enterValues ord st) code' c = some code'' ∧
        code'' = { st.code with operands := remappedOperands st.code clone moved (pre ++ [c]) } := by
    rintro pre c post code' hsplit rfl
    obtain ⟨m, hm, rfl⟩ := mem_map.mp ((hmem c).mp
      (hsplit ▸ mem_append_right pre (.head _)))
    have hpre : clone m ∉ pre := fun hmem =>
      (nodup_append.mp (hsplit ▸ ord.nodup_visit st.clones.nodup)).2.2 _ hmem _
        (.head _) rfl
    have hmap : (remappedOperands st.code clone moved pre (clone m)).mapM
        (enterValues ord st).lookup =
          some ((st.code.operands (clone m)).map fun x => if x ∈ moved then clone x else x) := by
      rw [remappedOperands, if_neg hpre]
      exact mapM_eq_some_map fun x hx => h.lookup_enterValues ord hd hmoved hm hx
    refine ⟨_, ?_, rfl⟩
    unfold remapInstruction
    rw [hmap, bind_eq_bind, bind_some]
    refine congrArg (fun operands => some { st.code with operands }) (funext fun i => ?_)
    by_cases hi : i = clone m
    · simp [remappedOperands, hi]
    · simp [remappedOperands, hi]
  have hnil : remappedOperands st.code clone moved [] = st.code.operands :=
    funext fun i => if_neg not_mem_nil
  obtain ⟨code', hrun, rfl⟩ := foldlM_rule (remapInstruction (enterValues ord st))
    (fun pre code' => code' = { st.code with operands := remappedOperands st.code clone moved pre })
    (by rw [hnil]) hstep
  exact ⟨_, hrun, hmem⟩

/-! ## The function that is left -/

theorem kept_of_ne (hf : code.WF) (hmoved : ∀ m ∈ moved, m ∈ code.body block) (hb : b ≠ block) :
    SSACode.kept moved (code.body b) = code.body b := by
  refine filter_eq_self.mpr fun i hi => decide_eq_true fun hm => hb ?_
  exact (SSAPoint.instruction.inj (hf.unique i _ _ (.instruction hi)
    (.instruction (hmoved i hm)))).1

theorem MovedOut.body_eq (h : MovedOut code (sinkingOf code clone block inside outside moved) st)
    (b : B) : st.code.body b = (if b = inside then moved else []) ++
      ((if b = outside then moved.map clone else []) ++ SSACode.kept moved (code.body b)) :=
  h.body b

/-- The instructions moved out are sunk. -/
theorem MovedOut.sunk (h : MovedOut code (sinkingOf code clone block inside outside moved) st)
    (hd : Departs code clone block inside outside) (hmoved : ∀ m ∈ moved, m ∈ code.body block)
    {done : List V} (hdone : ∀ i, i ∈ done ↔ i ∈ moved.map clone) :
    code.Sunk { st.code with operands := remappedOperands st.code clone moved done }
      (sinkingOf code clone block inside outside moved) where
  entry := h.entry
  successors := h.successors
  body_parent := by
    show st.code.body block = SSACode.kept moved (code.body block)
    rw [h.body_eq, if_neg hd.inside_ne_block.symm, if_neg hd.outside_ne_block.symm]
    rfl
  body_inside := by
    show st.code.body inside = moved ++ code.body inside
    rw [h.body_eq, if_pos rfl, if_neg hd.inside_ne_outside,
      kept_of_ne hd.wf hmoved hd.inside_ne_block]
    rfl
  body_outside := by
    show st.code.body outside = moved.map clone ++ code.body outside
    rw [h.body_eq, if_neg hd.inside_ne_outside.symm, if_pos rfl,
      kept_of_ne hd.wf hmoved hd.outside_ne_block]
    rfl
  body := fun b (hb : b ≠ block) (hin : b ≠ inside) (hout : b ≠ outside) => by
    show st.code.body b = code.body b
    rw [h.body_eq, if_neg hin, if_neg hout, kept_of_ne hd.wf hmoved hb]
    rfl
  replaced_inside := fun p hp m hm hlookup => by
    obtain ⟨w, hw, -⟩ := hd.incoming inside (.inl rfl) p hp
    obtain rfl : w = m := by simpa [hw, sinkingOf] using hlookup
    exact (replacementOf_inside clone outside moved hp hw).trans (if_pos hm)
  replaced_outside := fun p hp m hm hlookup => by
    obtain ⟨w, hw, -⟩ := hd.incoming outside (.inr rfl) p hp
    obtain rfl : w = m := by simpa [hw, sinkingOf] using hlookup
    exact (hd.replacementOf_outside moved hp hw).trans (if_pos hm)
  replaced := fun x hne => by
    obtain ⟨w, hwm, hw, hphi⟩ := hd.of_replacementOf_ne hne
    exact ⟨hphi.imp And.left And.left, w, hwm, by simp [hw, sinkingOf]⟩
  phis := h.phis
  incoming := h.incoming
  operands := fun i hi => (if_neg fun hmem => hi ((hdone i).mp hmem)).trans (h.operands i hi)
  operands_clone := fun m hm => by
    refine (if_pos ((hdone _).mpr (List.mem_map_of_mem hm))).trans ?_
    rw [h.operands_clone m hm, List.map_map]
    refine map_congr_left fun x hx => ?_
    obtain ⟨hin, hout⟩ := hd.operands m (hmoved m hm) x hx
    exact congrArg (fun y => if y ∈ moved then clone y else y)
      (replacementOf_other clone moved hin hout)
  terminatorOperands := h.terminatorOperands

/-! ## The block -/

/-- The code is that of the function that the scheduler works on. -/
structure Describes (fn : SchedulerFunction V B) (code : SSACode V B) : Prop where
  instructions : ∀ b, ∃ t, fn.getTerminator b = some t ∧
    fn.instructions b = code.phis b ++ (code.body b ++ [t])
  phi : ∀ b, ∀ p ∈ code.phis b, fn.ir.isPHINode p = true
  successors : code.successors = fn.successors
  incoming : ∀ b, ∀ p ∈ code.phis b,
    ((code.incoming p).map Prod.fst).Perm (fn.predecessors b)

/-- A block of a loop in LCSSA form with a successor in the loop and an exit, which have it as single
predecessor. -/
structure PrologueBlock (ls : LoopScheduler V B) (code : SSACode V B)
    (header block inside outside : B) : Prop where
  fn : ls.fn.WF
  pdg : ls.pdg.WF
  cfg : ls.fn.IsCFG code.entry
  wf : code.WF
  describes : Describes ls.fn code
  loop : ∀ b, b ∈ ls.blocks ↔ NaturalLoop ls.fn.Flow code.entry header b
  lcssa : code.InLCSSA fun b => b ∈ ls.blocks
  mem : block ∈ ls.blocks
  successors : ls.fn.successors block = [inside, outside] ∨
    ls.fn.successors block = [outside, inside]
  inside_mem : inside ∈ ls.blocks
  outside_not_mem : outside ∉ ls.blocks
  single_inside : ls.fn.getSinglePredecessor inside = some block
  single_outside : ls.fn.getSinglePredecessor outside = some block

/-- `Instruction::clone` makes new instructions that do the same. -/
structure ClonesInstructions {Val Mem : Type} (code : SSACode V B)
    (sem : SSASemantics V B Val Mem) (clone : V → V) (block : B) : Prop where
  injective : ∀ i ∈ code.body block, ∀ j ∈ code.body block, clone i = clone j → i = j
  fresh : ∀ i ∈ code.body block, ¬ code.Occurs (clone i)
  exec : ∀ i ∈ code.body block, sem.exec (clone i) = sem.exec i

/-- The dependence graph has the dependences of the block: those on operands, and, in the runs from
`s₀`, those between instructions whose order makes a difference. -/
structure Covers {Val Mem : Type} (ls : LoopScheduler V B) (code : SSACode V B)
    (sem : SSASemantics V B Val Mem) (block : B) (s₀ : SSAState V B Val Mem) : Prop where
  operands : ∀ i ∈ code.body block, ∀ x ∈ code.operands i, x ∈ code.body block →
    Scheduler.Dependence ls.pdg x i
  terminatorOperands : ∀ t, ls.fn.getTerminator block = some t →
    ∀ x ∈ code.terminatorOperands block, x ∈ code.body block → Scheduler.Dependence ls.pdg x t
  memory : ∀ s, ReflTransGen (code.Step sem) s₀ s → s.block = block → ∀ before i rest,
    code.body block = before ++ i :: rest → s.rest = i :: rest → ∀ m ∈ before,
      ¬ Scheduler.Dependence ls.pdg m i →
        SSACode.Commute sem m i (code.operandValues s.registers m) (code.operandValues s.registers i)

omit [DecidableEq V] [DecidableEq B] in
theorem Describes.reaches (h : Describes ls.fn code) (hpath : ReflTransGen ls.fn.Flow code.entry b) :
    code.Reaches (.begin b) := by
  induction hpath with
  | refl => exact .refl
  | @tail c d _ hcd ih =>
      have hend := ReflTransGen.mono (fun _ _ h => h.1) _ _
        (SSACode.reach_in_block (nil_suffix : [] <:+ code.body c))
      exact (ih.trans hend).tail (.jump (h.successors ▸ hcd))

omit [DecidableEq V] [DecidableEq B] in
theorem Describes.flow (h : Describes ls.fn code) {q : SSAPoint V B} (hq : code.Reaches q) :
    ReflTransGen ls.fn.Flow code.entry q.block := by
  induction hq with
  | refl => exact .refl
  | @tail p q _ hpq ih =>
      rcases hpq.block_eq_or_jump with heq | ⟨a, c, rfl, rfl, hc⟩
      · exact heq ▸ ih
      · have hflow : ls.fn.Flow a c := (h.successors ▸ hc : c ∈ ls.fn.successors a)
        exact ih.tail hflow

namespace PrologueBlock

variable {header : B} (h : PrologueBlock ls code header block inside outside)

include h

theorem reaches : code.Reaches (.begin block) :=
  h.describes.reaches ((h.loop block).mp h.mem).1

theorem nodup : (code.body block).Nodup := by
  obtain ⟨t, -, hsplit⟩ := h.describes.instructions block
  have hnodup := nodup_append.mp (hsplit ▸ h.fn.nodup block)
  exact (nodup_append.mp hnodup.2.1).1

theorem mem_successors (c : B) : c ∈ code.successors block ↔ c = inside ∨ c = outside := by
  rw [h.describes.successors]
  rcases h.successors with heq | heq
  · simp [heq]
  · simp [heq, or_comm]

theorem single {c : B} (hc : ls.fn.getSinglePredecessor c = some block) (a : B)
    (ha : c ∈ code.successors a) : a = block := by
  have hflow : ls.fn.Flow a c := (h.describes.successors ▸ ha : c ∈ ls.fn.successors a)
  have hmem := (h.cfg.mem_predecessors a c).mpr hflow
  rw [SchedulerFunction.predecessors_of_getSinglePredecessor hc] at hmem
  exact mem_singleton.mp hmem

theorem not_available_phi {c : B} (hc : c = inside ∨ c = outside) (hx : x ∈ code.phis c)
    {rest : List V} (hrest : rest <:+ code.body block) :
    ¬ code.Available x (SSACode.pointAt block rest) := by
  refine h.wf.phi_not_available h.reaches h.nodup ((h.mem_successors c).mpr hc) ?_ hx hrest
  rcases hc with rfl | rfl
  · exact h.single h.single_inside
  · exact h.single h.single_outside

theorem entered : code.EnteredAt (fun b => b ∈ ls.blocks) header where
  entry_not_mem := fun hmem => by
    have hloop := (h.loop _).mp hmem
    have hheader : header = code.entry :=
      Dominates.antisymm hloop.header_mem'.1 hloop.dominates (.entry_left header)
    obtain ⟨-, l, hl, -⟩ := hloop
    have hpred := (h.cfg.mem_predecessors l code.entry).mpr (hheader ▸ hl.edge)
    rw [h.cfg.entry] at hpred
    nomatch hpred
  enters := fun b c hreach hc hb hcin => by
    by_contra hne
    have hflow : ls.fn.Flow b c := (h.describes.successors ▸ hc : c ∈ ls.fn.successors b)
    exact hb ((h.loop b).mpr (((h.loop c).mp hcin).of_edge hne hflow (h.describes.flow hreach)))

/-- A block of the prologue can give up its instructions. -/
theorem departs {Val Mem : Type} {sem : SSASemantics V B Val Mem}
    (hclone : ClonesInstructions code sem clone block) :
    Departs code clone block inside outside where
  wf := h.wf
  inside_ne_outside := fun heq => h.outside_not_mem (heq ▸ h.inside_mem)
  inside_ne_block := h.wf.ne_of_single h.reaches ((h.mem_successors inside).mpr (.inl rfl))
    (h.single h.single_inside)
  outside_ne_block := fun heq => h.outside_not_mem (heq ▸ h.mem)
  incoming := fun c hc p hp => by
    have hpred : ls.fn.predecessors c = [block] := by
      rcases hc with rfl | rfl
      · exact SchedulerFunction.predecessors_of_getSinglePredecessor h.single_inside
      · exact SchedulerFunction.predecessors_of_getSinglePredecessor h.single_outside
    have hblocks := perm_singleton.mp (hpred ▸ h.describes.incoming c p hp)
    obtain ⟨⟨a, w⟩, he, ha⟩ := map_eq_singleton_iff.mp hblocks
    obtain rfl : a = block := ha
    refine ⟨w, he, ?_⟩
    obtain ⟨w', hw, havail⟩ := h.wf.incoming a c ((h.mem_successors c).mpr hc) p hp
    obtain rfl : w = w' := by simpa [he] using hw
    exact ⟨fun hphi => h.not_available_phi (.inl rfl) hphi nil_suffix havail,
      fun hphi => h.not_available_phi (.inr rfl) hphi nil_suffix havail⟩
  operands := fun i hi x hx => by
    have havail := h.wf.operands block i hi x hx
    obtain ⟨before, rest, hbody⟩ := append_of_mem hi
    have hrest : i :: rest <:+ code.body block := ⟨before, hbody.symm⟩
    exact ⟨fun hphi => h.not_available_phi (.inl rfl) hphi hrest havail,
      fun hphi => h.not_available_phi (.inr rfl) hphi hrest havail⟩
  injective := hclone.injective
  fresh := hclone.fresh

section Moves

variable {Val Mem : Type} {sem : SSASemantics V B Val Mem} {s₀ : SSAState V B Val Mem}
  {moves : PtrSet V}

omit [DecidableEq B] h in
theorem mem_moved {f : SSACode V B} : i ∈ (f.body block).filter (fun i => decide (i ∈ moves)) ↔
    i ∈ f.body block ∧ i ∈ moves := by
  rw [mem_filter, decide_eq_true_eq]

theorem later {before rest : List V} (hbody : code.body block = before ++ i :: rest)
    (hm : m ∈ before) : ls.fn.Later block m i := by
  obtain ⟨t, -, hsplit⟩ := h.describes.instructions block
  obtain ⟨first, mid, rfl⟩ := append_of_mem hm
  refine ⟨code.phis block ++ first, mid ++ i :: (rest ++ [t]), by simp [hsplit, hbody], ?_⟩
  exact mem_append_right mid (.head _)

/-- The instructions chosen can be sunk. -/
theorem sinkable (hcovers : Covers ls code sem block s₀)
    (hmoves : Scheduler.getAllInstsMoveableOutOfBasicBlock ord ls.fn ls.pdg block .down =
      some moves) (clone : V → V) :
    code.Sinkable (fun b => b ∈ ls.blocks) (sinkingOf code clone block inside outside
      ((code.body block).filter fun i => decide (i ∈ moves))) := by
  obtain ⟨hmem, hclosed⟩ := Scheduler.of_getAllInstsMoveableOutOfBasicBlock h.fn h.pdg hmoves
  refine ⟨h.reaches, h.nodup, filter_sublist, h.mem_successors, h.single h.single_inside,
    h.single h.single_outside, h.mem, h.inside_mem, h.outside_not_mem, fun i hi hstays x hx hxm => ?_,
    fun x hx hxm => ?_⟩
  · obtain ⟨hxb, hxmoves⟩ := mem_moved.mp hxm
    obtain ⟨before, rest, hbody⟩ := append_of_mem hi
    have hbefore := h.wf.operand_before h.reaches h.nodup hbody hx hxb
    exact hstays (mem_moved.mpr ⟨hi,
      hclosed x hxmoves i (h.later hbody hbefore) (hcovers.operands i hi x hx hxb)⟩)
  · obtain ⟨hxb, hxmoves⟩ := mem_moved.mp hxm
    obtain ⟨t, ht, hsplit⟩ := h.describes.instructions block
    have hterm : ls.fn.ir.isTerminator t = true := (filter_eq_some_iff.mp ht).2
    have hne : t ≠ x := fun heq => by
      have hfalse := (hmem x hxmoves).2.2
      rw [← heq, hterm] at hfalse
      cases hfalse
    have hlater := Scheduler.later_of_isTerminator h.fn (hmem x hxmoves).1
      (by simp [hsplit]) hne hterm
    have hfalse := (hmem t (hclosed x hxmoves t hlater
      (hcovers.terminatorOperands t ht x hx hxb))).2.2
    rw [hterm] at hfalse
    cases hfalse

theorem delayable (hclone : ClonesInstructions code sem clone block)
    (hcovers : Covers ls code sem block s₀)
    (hmoves : Scheduler.getAllInstsMoveableOutOfBasicBlock ord ls.fn ls.pdg block .down =
      some moves) :
    code.Delayable sem (sinkingOf code clone block inside outside
      ((code.body block).filter fun i => decide (i ∈ moves))) s₀ := by
  obtain ⟨-, hclosed⟩ := Scheduler.of_getAllInstsMoveableOutOfBasicBlock h.fn h.pdg hmoves
  refine ⟨fun m hm => hclone.exec m (mem_moved.mp hm).1,
    fun s hrun hs before i rest hbody hrest hstays m hm hmoved => ?_⟩
  refine hcovers.memory s hrun hs before i rest hbody hrest m hm fun hdep => hstays ?_
  have hi : i ∈ code.body block := by
    rw [show code.body block = before ++ i :: rest from hbody]
    exact mem_append_right before (.head _)
  exact mem_moved.mpr ⟨hi, hclosed m (mem_moved.mp hmoved).2 i (h.later hbody hm) hdep⟩

theorem orderedInstructionsToMove_eq
    (hmoves : Scheduler.getAllInstsMoveableOutOfBasicBlock ord ls.fn ls.pdg block .down =
      some moves) :
    ((ls.fn.instructions block).reverse.filter fun move => decide (move ∈ moves)) =
      ((code.body block).filter fun i => decide (i ∈ moves)).reverse := by
  obtain ⟨hmem, -⟩ := Scheduler.of_getAllInstsMoveableOutOfBasicBlock h.fn h.pdg hmoves
  obtain ⟨t, ht, hsplit⟩ := h.describes.instructions block
  have hphis : ((code.phis block).filter fun i => decide (i ∈ moves)) = [] := by
    refine filter_eq_nil_iff.mpr fun p hp hmoved => ?_
    have hfalse := (hmem p (of_decide_eq_true hmoved)).2.1
    rw [h.describes.phi block p hp] at hfalse
    cases hfalse
  have hterm : ([t].filter fun i => decide (i ∈ moves)) = [] := by
    refine filter_eq_nil_iff.mpr fun p hp hmoved => ?_
    have hfalse := (hmem p (of_decide_eq_true hmoved)).2.2
    rw [mem_singleton.mp hp, (filter_eq_some_iff.mp ht).2] at hfalse
    cases hfalse
  rw [filter_reverse, hsplit, filter_append, filter_append, hphis, hterm,
    nil_append, append_nil]

theorem moveTargets_eq : ls.moveTargets block = some (inside, some outside) := by
  have hin := h.inside_mem
  have hout := h.outside_not_mem
  rcases h.successors with hsucc | hsucc
  · simp [moveTargets, hsucc, positionSuccessors, positionSuccessor, hin, hout]
  · simp [moveTargets, hsucc, positionSuccessors, positionSuccessor, hin, hout]

/-- Shrinking a block sinks its instructions. -/
theorem shrinkPrologueBasicBlock_sunk (ord : IterOrder)
    (hclone : ClonesInstructions code sem clone block)
    (hmoves : Scheduler.getAllInstsMoveableOutOfBasicBlock ord ls.fn ls.pdg block .down =
      some moves) :
    ∃ code', ls.shrinkPrologueBasicBlock ord clone code block =
        some (decide (moves.size ≠ 0), code') ∧
      code.Sunk code' (sinkingOf code clone block inside outside
        ((code.body block).filter fun i => decide (i ∈ moves))) := by
  obtain ⟨hmem, -⟩ := Scheduler.of_getAllInstsMoveableOutOfBasicBlock h.fn h.pdg hmoves
  have hd := h.departs hclone
  unfold shrinkPrologueBasicBlock
  rw [hmoves, bind_eq_bind, bind_some]
  by_cases hsize : moves.size = 0
  · have hnil : (code.body block).filter (fun i => decide (i ∈ moves)) = [] := by
      refine filter_eq_nil_iff.mpr fun i _ hi => ?_
      have hi : i ∈ moves.elems := of_decide_eq_true hi
      rw [length_eq_zero_iff.mp hsize] at hi
      nomatch hi
    have hsunk := (MovedOut.start code clone block inside outside).sunk hd
      nofun (fun i => (Iff.rfl : i ∈ [] ↔ i ∈ [].map clone))
    have hsame : remappedOperands code clone [] [] = code.operands :=
      funext fun i => if_neg not_mem_nil
    rw [hsame] at hsunk
    rw [hnil, if_pos hsize, decide_eq_false (not_not.mpr hsize)]
    exact ⟨code, rfl, hsunk⟩
  · have hbody : ∀ m ∈ (code.body block).filter (fun i => decide (i ∈ moves)),
        m ∈ code.body block := fun m hm => (mem_moved.mp hm).1
    have hparent : ∀ m ∈ (code.body block).filter (fun i => decide (i ∈ moves)),
        ls.fn.ir.getParent m = block := fun m hm =>
      ((h.fn.mem_instructions block m).mp (hmem m (mem_moved.mp hm).2).1).2
    obtain ⟨st, hfold, hst⟩ := foldlM_move ord hd h.moveTargets_eq h.single_inside
      h.single_outside hbody hparent (h.nodup.filter _)
    obtain ⟨done, hremap, hdone⟩ := hst.remap ord hd hbody
    have hmodified : (((ls.fn.instructions block).reverse.filter fun move =>
        decide (move ∈ moves)).isEmpty) = false := by
      obtain ⟨i, hi⟩ := exists_mem_of_ne_nil _ (length_eq_zero_iff.not.mp hsize)
      have hmove : i ∈ (ls.fn.instructions block).reverse.filter fun move =>
          decide (move ∈ moves) :=
        mem_filter.mpr ⟨mem_reverse.mpr (hmem i hi).1, decide_eq_true hi⟩
      exact isEmpty_eq_false_iff.mpr (ne_nil_of_mem hmove)
    refine ⟨_, ?_, hst.sunk hd hbody hdone⟩
    rw [if_neg hsize, decide_eq_true hsize]
    dsimp only
    rw [hmodified, h.orderedInstructionsToMove_eq hmoves, hfold]
    simp only [hremap, Option.bind_eq_bind, Option.bind_some, Option.pure_def]
    rfl

end Moves

end PrologueBlock

/-- **Shrinking a block of the prologue**: the instructions that leave it come first in the successor
in the loop, in their order, and their clones in the exit; clones use clones of what was moved and
the originals otherwise, and PHIs that received a moved instruction are replaced by it or by its
clone (`Sunk`).  Whatever the old function computes, the new one computes too (`SameValues`), and it
returns with the same memory. -/
theorem shrinkPrologueBasicBlock_preserves {Val Mem : Type} {sem : SSASemantics V B Val Mem}
    (ord : IterOrder) {header : B} (h : PrologueBlock ls code header block inside outside)
    (hclone : ClonesInstructions code sem clone block) (hsem : code.Follows sem)
    (hbranch : ∀ vals, (sem.branch block vals).isSome = true) (registers : V → Val) (memory : Mem)
    (hcovers : Covers ls code sem block (code.start registers memory)) {moves : PtrSet V}
    (hmoves : Scheduler.getAllInstsMoveableOutOfBasicBlock ord ls.fn ls.pdg block .down =
      some moves) :
    ∃ code', ls.shrinkPrologueBasicBlock ord clone code block =
        some (decide (moves.size ≠ 0), code') ∧
      code.Sunk code' (sinkingOf code clone block inside outside
        ((code.body block).filter fun i => decide (i ∈ moves))) ∧
      ∀ s, ReflTransGen (code.Step sem) (code.start registers memory) s →
        ∃ t, ReflTransGen (code'.Step sem) (code'.start registers memory) t ∧
          (sinkingOf code clone block inside outside
            ((code.body block).filter fun i => decide (i ∈ moves))).SameValues code code' s t ∧
          (code.Returns sem s → code'.Returns sem t ∧ t.memory = s.memory) := by
  obtain ⟨code', hshrink, hsunk⟩ := h.shrinkPrologueBasicBlock_sunk ord hclone hmoves
  have hd := h.departs hclone
  have hlegal : (sinkingOf code clone block inside outside
      ((code.body block).filter fun i => decide (i ∈ moves))).Legal code code'
        (fun b => b ∈ ls.blocks) header :=
    { wf := h.wf
      sinkable := h.sinkable hcovers hmoves clone
      entered := h.entered
      lcssa := h.lcssa
      fresh := ⟨fun i hi j hj => hd.injective i (mem_of_mem_filter hi) j
          (mem_of_mem_filter hj), fun i hi => hd.fresh i (mem_of_mem_filter hi)⟩
      sunk := hsunk }
  refine ⟨code', hshrink, hsunk, fun s hrun => ?_⟩
  obtain ⟨t, hrun', hmatch⟩ := hlegal.match_of_run (h.delayable hclone hcovers hmoves) hsem hrun
  have hsame := hmatch.sameValues hlegal
  refine ⟨t, hrun', hsame, fun hreturns => hsame.returns (fun hb => ?_) hreturns⟩
  have hsome := hbranch (code.terminatorValues s.registers s.block)
  have hb : s.block = block := hb
  rw [← hb, hreturns.2] at hsome
  exact Bool.noConfusion hsome

/-! ## A loop with two computations in its header -/

inductive ComputingBlock where
  | entry | header | latch | exit
  deriving DecidableEq

inductive ComputingValue where
  | enter | x | y | leave | back | z | ret | xClone | yClone
  deriving DecidableEq

/-- `while (x = 1, y = x + 1, false) {} return y` -/
def computingCode : SSACode ComputingValue ComputingBlock where
  entry := .entry
  phis b := if b = .exit then [.z] else []
  body b := if b = .header then [.x, .y] else []
  incoming v := if v = .z then [(.header, .y)] else []
  operands v := if v = .y then [.x] else []
  terminatorOperands b := if b = .exit then [.z] else []
  successors := fun
    | .entry => [.header]
    | .header => [.latch, .exit]
    | .latch => [.header]
    | .exit => []

def computingFunction : SchedulerFunction ComputingValue ComputingBlock where
  ir :=
    { kind := fun
        | .x | .y => .otherInstruction
        | .z => .phiNode [.y]
        | .xClone | .yClone => .noInstruction
        | _ => .terminator
      getParent := fun
        | .enter => .entry
        | .back => .latch
        | .z | .ret => .exit
        | _ => .header }
  isBranchInst v := decide (v = .enter ∨ v = .leave ∨ v = .back)
  instructions := fun
    | .entry => [.enter]
    | .header => [.x, .y, .leave]
    | .latch => [.back]
    | .exit => [.z, .ret]
  successors := computingCode.successors
  predecessors := fun
    | .entry => []
    | .header => [.entry, .latch]
    | .latch | .exit => [.header]

def computingHistory : List (DG.Op ComputingValue (DGEdge ComputingValue)) :=
  [.addNode .x true, .addNode .y true, .addVariableDataDependenceEdge .x .y .raw]

def computingPDG : PDG ComputingValue :=
  (DG.execute (fun _ => false) (DG.empty 0) computingHistory).getD (DG.empty 0)

def computingLoop : LoopScheduler ComputingValue ComputingBlock where
  fn := computingFunction
  pdg := computingPDG
  originalLatch := .latch
  blocks := PtrSet.ofList [.header, .latch]
  prologue := PtrSet.ofList [.header]
  body := PtrSet.ofList [.latch]

/-- Instructions add their operands and one. -/
def computingSemantics : SSASemantics ComputingValue ComputingBlock Nat Unit where
  exec _ vals m := some (vals.sum + 1, m)
  branch b _ := if b = .header then some .exit else if b = .exit then none else some .header

def computingClone (v : ComputingValue) : ComputingValue := if v = .x then .xClone else .yClone

theorem computingPDG_wf : computingPDG.WF := (DG.clean_of_history _ 0 (by decide)).toWF

theorem computingFunction_wf : computingFunction.WF where
  mem_instructions b v := by cases b <;> cases v <;> decide
  nodup b := by cases b <;> decide
  terminator b := by
    cases b with
    | entry => exact ⟨[], .enter, rfl, rfl, by decide⟩
    | header => exact ⟨[.x, .y], .leave, rfl, rfl, by decide⟩
    | latch => exact ⟨[], .back, rfl, rfl, by decide⟩
    | exit => exact ⟨[.z], .ret, rfl, rfl, by decide⟩

theorem computingFunction_isCFG : computingFunction.IsCFG .entry where
  mem_predecessors b c := by cases b <;> cases c <;> decide
  entry := rfl
  branch b t _ _ := by
    cases b with
    | entry | latch => exact .inl ⟨_, rfl⟩
    | header => exact .inr ⟨_, _, rfl⟩
    | exit =>
        obtain rfl : .ret = t := some.inj ‹_›
        exact absurd ‹computingFunction.isBranchInst .ret = true› (by decide)

theorem computingCode_body {b : ComputingBlock} {i : ComputingValue} (h : i ∈ computingCode.body b) :
    b = .header ∧ (i = .x ∨ i = .y) := by
  revert h
  cases b <;> cases i <;> decide

theorem computingCode_phis {b : ComputingBlock} {i : ComputingValue} (h : i ∈ computingCode.phis b) :
    b = .exit ∧ i = .z := by
  revert h
  cases b <;> cases i <;> decide

/-- The sample program is well formed. -/
theorem computingCode_wf : computingCode.WF where
  unique v d e hd he := by
    cases hd with
    | phi hd =>
        obtain ⟨rfl, rfl⟩ := computingCode_phis hd
        cases he with
        | phi he => rw [(computingCode_phis he).1]
        | instruction he => exact absurd (computingCode_body he).2 (by decide)
    | instruction hd =>
        obtain ⟨rfl, hv⟩ := computingCode_body hd
        cases he with
        | phi he =>
            obtain ⟨-, rfl⟩ := computingCode_phis he
            exact absurd hv (by decide)
        | instruction he => rw [(computingCode_body he).1]
  operands b i hi v hv d hd := by
    obtain ⟨rfl, rfl | rfl⟩ := computingCode_body hi
    · nomatch hv
    · obtain rfl : v = .x := mem_singleton.mp hv
      cases hd with
      | phi hd => exact absurd (computingCode_phis hd).2 (by decide)
      | instruction hd =>
          obtain ⟨rfl, -⟩ := computingCode_body hd
          have hbody : computingCode.body .header = [] ++ .x :: ([] ++ [.y]) := rfl
          exact ⟨fun heq => (by cases heq), SSACode.dominates_in_block (by decide) hbody⟩
  terminatorOperands b v hv d hd := by
    obtain ⟨rfl, rfl⟩ : b = .exit ∧ v = .z := by
      revert hv
      cases b <;> cases v <;> decide
    cases hd with
    | phi hd =>
        obtain ⟨rfl, -⟩ := computingCode_phis hd
        refine ⟨fun heq => (by cases heq), .of_single (fun p hp => ?_) fun heq => by cases heq⟩
        rcases hp.to_terminator with ⟨rfl, -⟩ | ⟨before, i, -, hbody⟩
        · rfl
        · exact absurd (congrArg List.length hbody) (by simp [computingCode])
    | instruction hd => exact absurd (computingCode_body hd).2 (by decide)
  incoming b c hc v hv := by
    obtain ⟨rfl, rfl⟩ := computingCode_phis hv
    obtain rfl : b = .header := by
      revert hc
      cases b <;> decide
    refine ⟨.y, rfl, fun d hd => ?_⟩
    cases hd with
    | phi hd => exact absurd (computingCode_phis hd).2 (by decide)
    | instruction hd =>
        obtain ⟨rfl, -⟩ := computingCode_body hd
        have hbody : computingCode.body .header = [.x] ++ .y :: ([] ++ []) := rfl
        exact ⟨fun heq => (by cases heq), SSACode.dominates_in_block (by decide) hbody⟩
  entry b := by cases b <;> decide

/-- The loop of the sample is a natural loop. -/
theorem computingLoop_isNatural (b : ComputingBlock) : b ∈ computingLoop.blocks ↔
    NaturalLoop computingFunction.Flow .entry .header b := by
  have hentry : ReflTransGen computingFunction.Flow .entry .header :=
    .single (by decide : computingFunction.Flow .entry .header)
  have hlatch : IsLatch computingFunction.Flow .entry .header .latch := by
    refine ⟨by decide, fun hpath => ?_, hentry.tail (by decide)⟩
    have hout := hpath.mem_of_closed (S := (· = .entry)) rfl (by
      rintro y z rfl hyz hz
      revert hyz hz
      cases z <;> decide)
    cases hout
  constructor
  · intro hb
    cases b with
    | entry | exit => exact absurd hb (by decide)
    | header => exact .header_mem hlatch
    | latch => exact .latch_mem hlatch
  · rintro ⟨-, l, hl, hb⟩
    obtain rfl : l = .latch := by
      have hedge := hl.edge
      cases l with
      | entry => exact absurd (PathAvoiding.refl (by decide)) hl.dominates
      | latch => rfl
      | header | exit => exact absurd hedge (by decide)
    rcases hb with rfl | hpath
    · decide
    · cases b with
      | header | latch => decide
      | entry =>
          have hout := hpath.mem_of_closed (S := (· = .entry)) rfl (by
            rintro y z rfl hyz hz
            revert hyz hz
            cases z <;> decide)
          cases hout
      | exit =>
          have hout := hpath.mem_of_closed (S := (· = .exit)) rfl (by
            rintro y z rfl hyz hz
            revert hyz hz
            cases z <;> decide)
          cases hout

/-- The header of the sample is a block of the prologue. -/
theorem computingLoop_prologueBlock :
    PrologueBlock computingLoop computingCode .header .header .latch .exit where
  fn := computingFunction_wf
  pdg := computingPDG_wf
  cfg := computingFunction_isCFG
  wf := computingCode_wf
  describes :=
    { instructions := fun b => by
        cases b with
        | entry => exact ⟨.enter, rfl, rfl⟩
        | header => exact ⟨.leave, rfl, rfl⟩
        | latch => exact ⟨.back, rfl, rfl⟩
        | exit => exact ⟨.ret, rfl, rfl⟩
      phi := fun b p hp => by
        obtain ⟨-, rfl⟩ := computingCode_phis hp
        rfl
      successors := rfl
      incoming := fun b p hp => by
        obtain ⟨rfl, rfl⟩ := computingCode_phis hp
        exact .refl _ }
  loop := computingLoop_isNatural
  lcssa := fun v d q hd hloop _ hq => by
    cases hd with
    | phi hd =>
        obtain ⟨rfl, -⟩ := computingCode_phis hd
        exact absurd hloop (by decide)
    | instruction hd =>
        cases hq with
        | instruction hi _ =>
            obtain ⟨rfl, -⟩ := computingCode_body hi
            exact (computingCode_body hd).1 ▸ hloop
        | @terminator b hv =>
            have hv' := (computingCode_body hd).2
            revert hv hv'
            cases b <;> cases v <;> decide
        | @phi b c p hc hp hv =>
            obtain ⟨rfl, rfl⟩ := computingCode_phis hp
            revert hc
            cases b <;> decide
  mem := by decide
  successors := .inl rfl
  inside_mem := by decide
  outside_not_mem := by decide
  single_inside := rfl
  single_outside := rfl

theorem computingCode_occurs {v : ComputingValue} (h : computingCode.Occurs v) :
    v = .x ∨ v = .y ∨ v = .z := by
  cases h with
  | phi hv => exact .inr (.inr (computingCode_phis hv).2)
  | body hv => exact (computingCode_body hv).2.imp_right .inl
  | @operand b i hi hv =>
      revert hv
      cases i <;> cases v <;> decide
  | @terminatorOperand b hv =>
      revert hv
      cases b <;> cases v <;> decide
  | @incoming b p e hp he hv =>
      obtain ⟨rfl, rfl⟩ := computingCode_phis hp
      obtain rfl := mem_singleton.mp he
      exact .inr (.inl hv.symm)

theorem computingCode_clones :
    ClonesInstructions computingCode computingSemantics computingClone .header where
  injective := by decide
  fresh i hi hoccurs := by
    obtain ⟨-, rfl | rfl⟩ := computingCode_body hi
    · exact absurd (computingCode_occurs hoccurs) (by decide)
    · exact absurd (computingCode_occurs hoccurs) (by decide)
  exec _ _ := rfl

theorem computingPDG_dependence : Scheduler.Dependence computingPDG .x .y := by
  unfold Scheduler.Dependence
  decide +kernel

theorem computingLoop_covers (registers : ComputingValue → Nat) :
    Covers computingLoop computingCode computingSemantics .header
      (computingCode.start registers ()) where
  operands i hi v hv _ := by
    obtain ⟨-, rfl | rfl⟩ := computingCode_body hi
    · nomatch hv
    · obtain rfl : v = .x := mem_singleton.mp hv
      exact computingPDG_dependence
  terminatorOperands t _ v hv := nomatch hv
  memory s _ _ before i rest hbody _ m hm hdep := by
    -- only the first of the two comes before another one
    have hsplit : [.x, .y] = before ++ i :: rest := hbody
    cases before with
    | nil => nomatch hm
    | cons a before =>
        obtain ⟨rfl, hrest⟩ := List.cons.inj hsplit
        cases before with
        | nil =>
            obtain ⟨rfl, -⟩ := List.cons.inj hrest
            obtain rfl := mem_singleton.mp hm
            exact absurd computingPDG_dependence hdep
        | cons c before => exact absurd (congrArg List.length hrest) (by simp)

theorem computingLoop_moves : Scheduler.getAllInstsMoveableOutOfBasicBlock .stored
    computingLoop.fn computingLoop.pdg .header .down = some (PtrSet.ofList [.y, .x]) := by
  decide +kernel

theorem computingCode_follows : computingCode.Follows computingSemantics := by
  intro b vals c h
  have hc : ∀ b c, (if b = ComputingBlock.header then some ComputingBlock.exit
      else if b = .exit then none else some .header) = some c → c ∈ computingCode.successors b := by
    intro b c
    cases b <;> cases c <;> decide
  exact hc b c h

theorem shrinkPrologueBasicBlock_computingLoop :
    ∃ code', computingLoop.shrinkPrologueBasicBlock .stored computingClone computingCode .header =
        some (true, code') ∧
      computingCode.Sunk code' (sinkingOf computingCode computingClone .header .latch .exit
        [.x, .y]) ∧
      ∀ s, ReflTransGen (computingCode.Step computingSemantics)
          (computingCode.start (fun _ => 0) ()) s →
        ∃ t, ReflTransGen (code'.Step computingSemantics) (code'.start (fun _ => 0) ()) t ∧
          (sinkingOf computingCode computingClone .header .latch .exit [.x, .y]).SameValues
            computingCode code' s t ∧
          (computingCode.Returns computingSemantics s →
            code'.Returns computingSemantics t ∧ t.memory = s.memory) :=
  shrinkPrologueBasicBlock_preserves .stored computingLoop_prologueBlock computingCode_clones
    computingCode_follows (fun _ => rfl) (fun _ => 0) () (computingLoop_covers fun _ => 0)
    computingLoop_moves

end LoopScheduler

end Noelle
