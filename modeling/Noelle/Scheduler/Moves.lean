import Noelle.Lib.Sinking
import Noelle.LoopInvariantCodeMotion.Selection
import Noelle.Scheduler.Assertion

/-!
# Scheduler.Moves

`LoopScheduler::shrinkPrologueBasicBlock`: moving instructions out of a block of the prologue.

The instructions leave the block one by one, the last one first, each to the front of the successor
in the loop; a clone goes to the front of the other successor, and PHIs of both that receive the
instruction are folded.  `MovedOut` says what has changed after some of them, and
`MovedOut.move` what one more changes.  The operands of the clones are remapped at the end.
-/

namespace Noelle

open List Option

namespace SSACode

variable {V B : Type} [DecidableEq V] [DecidableEq B] (f : SSACode V B)

/-- `Instruction::moveBefore` the first instruction of `b` that is no PHI. -/
def moveToFront (b : B) (x : V) : SSACode V B :=
  { f with
    body := fun c => (if c = b then [x] else []) ++ (f.body c).filter fun y => decide (y ≠ x) }

/-- `Instruction::clone`, and `insertBefore` the first instruction of `b` that is no PHI. -/
def insertClone (b : B) (x clone : V) : SSACode V B :=
  { f with
    body := fun c => (if c = b then [clone] else []) ++ f.body c
    operands := fun i => if i = clone then f.operands x else f.operands i }

omit [DecidableEq B] in
/-- `PHINode::removeIncomingValue` of the first value; a PHI that becomes empty is deleted. -/
def removeFirstIncoming (phi : V) : SSACode V B :=
  let code := { f with incoming := fun x => if x = phi then (f.incoming x).tail else f.incoming x }
  if (code.incoming phi).isEmpty then code.erasePHI phi else code

end SSACode

/-- Where `shrinkPrologueBasicBlock` stands: the function, `OriginalToClones` and `Clones`. -/
structure MovingOut (V B : Type) where
  code : SSACode V B
  originalToClones : AList fun _ : V => V := ∅
  clones : PtrSet V := ∅

namespace LoopScheduler

variable {V B : Type} [DecidableEq V] [DecidableEq B] (ord : IterOrder) (ls : LoopScheduler V B)
  (clone : V → V)

/-- The PHIs that `resolveSuccessorPHIs` folds: those that receive the moved instruction. -/
def phisToResolve (code : SSACode V B) (moved : V) (succBB : B) : PtrSet V :=
  PtrSet.ofList ((code.phis succBB).filter fun phi =>
    decide ((code.incoming phi).head?.map Prod.snd = some moved))

/-- `LoopScheduler::resolveSuccessorPHIs`; a successor with other predecessors fails an
assertion. -/
def resolveSuccessorPHIs (moved replacement : V) (succBB : B) (code : SSACode V B) :
    Option (SSACode V B) := do
  let _ ← ls.fn.getSinglePredecessor succBB
  return (ord.visit (phisToResolve code moved succBB).elems).foldl
    (fun code phi => (code.replaceUses phi replacement).removeFirstIncoming phi) code

def moveInstIntoSuccessor (i : V) (successor : B) (st : MovingOut V B) :
    Option (MovingOut V B) := do
  let code ← ls.resolveSuccessorPHIs ord i i successor (st.code.moveToFront successor i)
  return { st with code }

def cloneInstIntoSuccessor (i : V) (successor : B) (st : MovingOut V B) :
    Option (MovingOut V B) := do
  let code ← ls.resolveSuccessorPHIs ord i (clone i) successor
    (st.code.insertClone successor i (clone i))
  return {
    code
    originalToClones := st.originalToClones.insert i (clone i)
    clones := st.clones.insert (clone i) }

/-- `LoopScheduler::moveInstOutOfPrologueBasicBlock`, down.  The instruction is in its own block
still. -/
def moveInstOutOfPrologueBasicBlock (st : MovingOut V B) (i : V) : Option (MovingOut V B) := do
  let targets ← ls.moveTargets (ls.fn.ir.getParent i)
  let st ← ls.moveInstIntoSuccessor ord i targets.1 st
  match targets.2 with
  | some outsideBlock => ls.cloneInstIntoSuccessor ord clone i outsideBlock st
  | none => return st

/-- `ValuesToEnter`: the operands of the originals that are not in the map. -/
def valuesToEnter (st : MovingOut V B) : PtrSet V :=
  PtrSet.ofList (((ord.visit st.originalToClones.entries).flatMap fun e =>
    st.code.operands e.1).filter fun operand => decide (operand ∉ st.originalToClones))

/-- The map with the entries that the operands of the originals need. -/
def enterValues (st : MovingOut V B) : AList fun _ : V => V :=
  (ord.visit (valuesToEnter ord st).elems).foldl (fun entries v => entries.insert v v)
    st.originalToClones

/-- `llvm::RemapInstruction`; an operand that is not in the map fails an assertion. -/
def remapInstruction (originalToClones : AList fun _ : V => V) (code : SSACode V B) (i : V) :
    Option (SSACode V B) := do
  let operands ← (code.operands i).mapM originalToClones.lookup
  return { code with operands := fun x => if x = i then operands else code.operands x }

def remapClonedInstructions (st : MovingOut V B) : Option (SSACode V B) :=
  (ord.visit st.clones.elems).foldlM (remapInstruction (enterValues ord st)) st.code

/-- `LoopScheduler::shrinkPrologueBasicBlock`: whether it modified the function, and what is left. -/
def shrinkPrologueBasicBlock (code : SSACode V B) (block : B) : Option (Bool × SSACode V B) := do
  let instructionsToMove ← Scheduler.getAllInstsMoveableOutOfBasicBlock ord ls.fn ls.pdg block .down
  if instructionsToMove.size = 0 then return (false, code)
  let orderedInstructionsToMove :=
    (ls.fn.instructions block).reverse.filter fun move => decide (move ∈ instructionsToMove)
  let st ← orderedInstructionsToMove.foldlM (ls.moveInstOutOfPrologueBasicBlock ord clone) { code }
  let code ← remapClonedInstructions ord st
  return (!orderedInstructionsToMove.isEmpty, code)

end LoopScheduler

/-! ## Folding PHIs -/

namespace SSACode

variable {V B : Type} [DecidableEq V]

theorem resolve_eq_foldPHIs (f : SSACode V B) {phi : V} (replacement : V)
    (hphi : (f.incoming phi).length = 1) :
    (f.replaceUses phi replacement).removeFirstIncoming phi = f.foldPHIs [phi] replacement := by
  obtain ⟨e, he⟩ := length_eq_one_iff.mp hphi
  have hempty : (((f.replaceUses phi replacement).incoming phi).tail).isEmpty = true := by
    simp [replaceUses, he]
  unfold removeFirstIncoming
  rw [if_pos (by simpa using hempty)]
  have hsingle : foldTo [phi] replacement = fun x => if x = phi then replacement else x := by
    funext x
    simp [foldTo]
  simp only [foldPHIs, substitute, replaceUses, erasePHI, mem_singleton, hsingle]
  congr 1
  funext x
  by_cases hx : x = phi
  · simp [hx, he]
  · simp [hx]

/-- The PHIs are replaced and removed. -/
theorem foldl_resolve (replacement : V) : ∀ (phis : List V) (f : SSACode V B), phis.Nodup →
    replacement ∉ phis → (∀ phi ∈ phis, (f.incoming phi).length = 1) →
    phis.foldl (fun code phi => (code.replaceUses phi replacement).removeFirstIncoming phi) f =
      f.foldPHIs phis replacement
  | [], f, _, _, _ => by
      have hnil : foldTo [] replacement = id := funext fun x => foldTo_of_not_mem not_mem_nil
      simp [foldPHIs, hnil]
  | phi :: phis, f, hnodup, hnot, hphis => by
      obtain ⟨hphi, hnodup⟩ := List.nodup_cons.mp hnodup
      rw [mem_cons, not_or] at hnot
      have hlength : ∀ x ∈ phis, ((f.foldPHIs [phi] replacement).incoming x).length = 1 := by
        intro x hx
        have hne : x ≠ phi := fun heq => hphi (heq ▸ hx)
        simpa [foldPHIs, hne] using hphis x (.tail phi hx)
      rw [foldl_cons, resolve_eq_foldPHIs f replacement (hphis phi mem_cons_self),
        foldl_resolve replacement phis _ hnodup hnot.2 hlength]
      have hfold : ∀ x, foldTo phis replacement (foldTo [phi] replacement x) =
          foldTo (phi :: phis) replacement x := by
        intro x
        by_cases hx : x = phi
        · simp [foldTo, hx, hnot.2]
        · simp [foldTo, hx]
      simp only [foldPHIs, substitute, List.map_map, Function.comp_def, hfold, List.filter_filter]
      congr 1
      · funext b
        refine List.filter_congr fun x _ => ?_
        simp [not_or, Bool.and_comm]
      · funext x
        by_cases hx : x = phi
        · by_cases hp : x ∈ phis <;> simp [hx]
        · simp [hx, hfold, Function.comp_def]

end SSACode

/-! ## The replacement of PHIs -/

namespace LoopScheduler

variable {V B : Type} [DecidableEq V] [DecidableEq B]

/-- What replaces a value when the instructions `moved` have left the block: a PHI of a successor
that received one of them is replaced by it, or by its clone. -/
def replacementOf (code : SSACode V B) (clone : V → V) (inside outside : B) (moved : List V)
    (x : V) : V :=
  match (code.incoming x).head? with
  | some e =>
      if e.2 ∈ moved then
        if x ∈ code.phis inside then e.2 else if x ∈ code.phis outside then clone e.2 else x
      else x
  | none => x

/-- The instructions `moved` are moved out of `block`. -/
def sinkingOf (code : SSACode V B) (clone : V → V) (block inside outside : B) (moved : List V) :
    SSACode.Sinking V B where
  moved := moved
  clone := clone
  replacement := replacementOf code clone inside outside moved
  parent := block
  inside := inside
  outside := outside

/-- The successors of the block receive values from it only, and it uses none of their PHIs. -/
structure Departs (code : SSACode V B) (clone : V → V) (block inside outside : B) : Prop where
  wf : code.WF
  inside_ne_outside : inside ≠ outside
  inside_ne_block : inside ≠ block
  outside_ne_block : outside ≠ block
  incoming : ∀ c, c = inside ∨ c = outside → ∀ p ∈ code.phis c, ∃ w,
    code.incoming p = [(block, w)] ∧ w ∉ code.phis inside ∧ w ∉ code.phis outside
  operands : ∀ i ∈ code.body block, ∀ x ∈ code.operands i,
    x ∉ code.phis inside ∧ x ∉ code.phis outside
  injective : ∀ i ∈ code.body block, ∀ j ∈ code.body block, clone i = clone j → i = j
  fresh : ∀ i ∈ code.body block, ¬ code.Occurs (clone i)

variable {code : SSACode V B} {clone : V → V} {block inside outside b : B} {moved : List V}
  {i p w x : V}

section

omit [DecidableEq V]

section

variable (h : Departs code clone block inside outside)

include h

theorem Departs.not_phi (hi : i ∈ code.body block) :
    i ∉ code.phis b := by
  intro hphi
  cases h.wf.unique i _ _ (.instruction hi) (.phi hphi)

theorem Departs.clone_not_phi
    (hi : i ∈ code.body block) : clone i ∉ code.phis b := fun hphi => h.fresh i hi (.phi hphi)

theorem Departs.phi_outside (hp : p ∈ code.phis outside) : p ∉ code.phis inside := fun hin =>
  h.inside_ne_outside (SSAPoint.begin.inj (h.wf.unique p _ _ (.phi hin) (.phi hp)))

end

end

omit [DecidableEq B] in
theorem replacementOf_inside (clone : V → V) (outside : B) (moved : List V)
    (hp : p ∈ code.phis inside) (hw : code.incoming p = [(b, w)]) :
    replacementOf code clone inside outside moved p = if w ∈ moved then w else p := by
  simp [replacementOf, hw, hp]

theorem Departs.replacementOf_outside (h : Departs code clone block inside outside)
    (moved : List V) (hp : p ∈ code.phis outside) (hw : code.incoming p = [(b, w)]) :
    replacementOf code clone inside outside moved p = if w ∈ moved then clone w else p := by
  simp [replacementOf, hw, hp, h.phi_outside hp]

omit [DecidableEq B] in
theorem replacementOf_other (clone : V → V) (moved : List V) (hin : x ∉ code.phis inside)
    (hout : x ∉ code.phis outside) : replacementOf code clone inside outside moved x = x := by
  unfold replacementOf
  cases (code.incoming x).head? with
  | none => rfl
  | some e =>
      dsimp only
      rw [if_neg hin, if_neg hout, ite_self]

section

variable (h : Departs code clone block inside outside)

include h

theorem Departs.of_replacementOf_ne (hne : replacementOf code clone inside outside moved x ≠ x) :
    ∃ w ∈ moved, code.incoming x = [(block, w)] ∧
      (x ∈ code.phis inside ∧ replacementOf code clone inside outside moved x = w ∨
        x ∈ code.phis outside ∧ replacementOf code clone inside outside moved x = clone w) := by
  by_cases hin : x ∈ code.phis inside
  · obtain ⟨w, hw, -⟩ := h.incoming inside (.inl rfl) x hin
    have heq := replacementOf_inside clone outside moved hin hw
    have hwm : w ∈ moved := by
      by_contra hwm
      exact hne (heq.trans (if_neg hwm))
    exact ⟨w, hwm, hw, .inl ⟨hin, heq.trans (if_pos hwm)⟩⟩
  · have hout : x ∈ code.phis outside := by
      by_contra hout
      exact hne (replacementOf_other clone moved hin hout)
    obtain ⟨w, hw, -⟩ := h.incoming outside (.inr rfl) x hout
    have heq := h.replacementOf_outside moved hout hw
    have hwm : w ∈ moved := by
      by_contra hwm
      exact hne (heq.trans (if_neg hwm))
    exact ⟨w, hwm, hw, .inr ⟨hout, heq.trans (if_pos hwm)⟩⟩

theorem Departs.replacementOf_cases (hmoved : ∀ m ∈ moved, m ∈ code.body block) (x : V) :
    replacementOf code clone inside outside moved x = x ∨
      ∀ b, replacementOf code clone inside outside moved x ∉ code.phis b := by
  by_cases heq : replacementOf code clone inside outside moved x = x
  · exact .inl heq
  · obtain ⟨w, hwm, -, ⟨-, hw⟩ | ⟨-, hw⟩⟩ := h.of_replacementOf_ne heq
    · exact .inr fun b => hw ▸ h.not_phi (hmoved w hwm)
    · exact .inr fun b => hw ▸ h.clone_not_phi (hmoved w hwm)

/-- The values replaced after one more move. -/
theorem Departs.replacementOf_cons (hmoved : ∀ m ∈ moved, m ∈ code.body block)
    (hi : i ∈ code.body block) {phisIn phisOut : List V}
    (hphisIn : ∀ p, p ∈ phisIn ↔ p ∈ code.phis inside ∧ code.incoming p = [(block, i)])
    (hphisOut : ∀ p, p ∈ phisOut ↔ p ∈ code.phis outside ∧ code.incoming p = [(block, i)]) (x : V) :
    SSACode.foldTo phisOut (clone i) (SSACode.foldTo phisIn i
      (replacementOf code clone inside outside moved x)) =
      replacementOf code clone inside outside (i :: moved) x := by
  have hin : ∀ {y}, y ∉ code.phis inside → y ∉ phisIn := fun hy hmem => hy ((hphisIn _).mp hmem).1
  have hout : ∀ {y}, y ∉ code.phis outside → y ∉ phisOut := fun hy hmem =>
    hy ((hphisOut _).mp hmem).1
  by_cases heq : replacementOf code clone inside outside moved x = x
  · rw [heq]
    by_cases hxin : x ∈ phisIn
    · obtain ⟨hphi, hw⟩ := (hphisIn x).mp hxin
      rw [SSACode.foldTo_of_mem hxin, SSACode.foldTo_of_not_mem (hout (h.not_phi hi)),
        replacementOf_inside clone outside (i :: moved) hphi hw, if_pos (.head _)]
    · rw [SSACode.foldTo_of_not_mem hxin]
      by_cases hxout : x ∈ phisOut
      · obtain ⟨hphi, hw⟩ := (hphisOut x).mp hxout
        rw [SSACode.foldTo_of_mem hxout, h.replacementOf_outside (i :: moved) hphi hw,
          if_pos (.head _)]
      · -- no PHI that receives the instruction, and none that received an earlier one
        rw [SSACode.foldTo_of_not_mem hxout]
        by_contra hne
        obtain ⟨w, hwm, hw, hphi⟩ := h.of_replacementOf_ne (Ne.symm hne)
        rcases mem_cons.mp hwm with rfl | hwm
        · exact hphi.elim (fun hphi => hxin ((hphisIn x).mpr ⟨hphi.1, hw⟩))
            fun hphi => hxout ((hphisOut x).mpr ⟨hphi.1, hw⟩)
        · rcases hphi with ⟨hphi, -⟩ | ⟨hphi, -⟩
          · rw [replacementOf_inside clone outside moved hphi hw, if_pos hwm] at heq
            exact h.not_phi (hmoved w hwm) (heq ▸ hphi)
          · rw [h.replacementOf_outside moved hphi hw, if_pos hwm] at heq
            exact h.clone_not_phi (hmoved w hwm) (heq ▸ hphi)
  · obtain ⟨w, hwm, hw, ⟨hphi, hold⟩ | ⟨hphi, hold⟩⟩ := h.of_replacementOf_ne heq
    · have hno : ∀ b, w ∉ code.phis b := fun b => h.not_phi (hmoved w hwm)
      rw [hold, SSACode.foldTo_of_not_mem (hin (hno inside)),
        SSACode.foldTo_of_not_mem (hout (hno outside)),
        replacementOf_inside clone outside (i :: moved) hphi hw, if_pos (.tail i hwm)]
    · have hno : ∀ b, clone w ∉ code.phis b := fun b => h.clone_not_phi (hmoved w hwm)
      rw [hold, SSACode.foldTo_of_not_mem (hin (hno inside)),
        SSACode.foldTo_of_not_mem (hout (hno outside)),
        h.replacementOf_outside (i :: moved) hphi hw, if_pos (.tail i hwm)]

end

/-! ## The moves -/

/-- What has changed when the instructions `k.moved` have left the block: the operands of their
clones are still to be remapped. -/
structure MovedOut (code : SSACode V B) (k : SSACode.Sinking V B) (st : MovingOut V B) : Prop where
  entry : st.code.entry = code.entry
  successors : st.code.successors = code.successors
  body : ∀ b, st.code.body b = (if b = k.inside then k.moved else []) ++
    ((if b = k.outside then k.clones else []) ++ SSACode.kept k.moved (code.body b))
  phis : ∀ b, st.code.phis b = (code.phis b).filter fun x => decide (k.replacement x = x)
  incoming : ∀ b, ∀ p ∈ st.code.phis b,
    st.code.incoming p = (code.incoming p).map fun e => (e.1, k.replacement e.2)
  operands : ∀ i, i ∉ k.clones → st.code.operands i = (code.operands i).map k.replacement
  operands_clone : ∀ m ∈ k.moved,
    st.code.operands (k.clone m) = (code.operands m).map k.replacement
  terminatorOperands : ∀ b,
    st.code.terminatorOperands b = (code.terminatorOperands b).map k.replacement
  originalToClones : ∀ x,
    st.originalToClones.lookup x = if x ∈ k.moved then some (k.clone x) else none
  clones : ∀ x, x ∈ st.clones ↔ x ∈ k.clones

variable {ord : IterOrder} {ls : LoopScheduler V B} {st : MovingOut V B} {c : B}

/-- Before the first move nothing has moved. -/
theorem MovedOut.start (code : SSACode V B) (clone : V → V) (block inside outside : B) :
    MovedOut code (sinkingOf code clone block inside outside []) { code } := by
  have hnone : ∀ x, replacementOf code clone inside outside [] x = x := fun x => by
    unfold replacementOf
    cases (code.incoming x).head? with
    | none => rfl
    | some e => exact if_neg not_mem_nil
  have hid : replacementOf code clone inside outside [] = id := funext hnone
  refine ⟨rfl, rfl, fun b => ?_, fun b => ?_, fun b p _ => ?_, fun i _ => ?_,
    nofun, fun b => ?_, fun x => ?_, fun x => Iff.rfl⟩
  · have hkept : SSACode.kept [] (code.body b) = code.body b :=
      filter_eq_self.mpr fun _ _ => decide_eq_true not_mem_nil
    show code.body b = (if b = inside then [] else []) ++ ((if b = outside then [] else []) ++
      SSACode.kept [] (code.body b))
    rw [ite_self, ite_self, hkept]
    rfl
  · simp [sinkingOf, hid]
  · simp [sinkingOf, hid]
  · simp [sinkingOf, hid]
  · simp [sinkingOf, hid]
  · simp [sinkingOf]

section

variable (h : MovedOut code (sinkingOf code clone block inside outside moved) st)
  (hd : Departs code clone block inside outside) (hc : c = inside ∨ c = outside)

include h hd hc

theorem MovedOut.incoming_eq (hp : p ∈ st.code.phis c) : ∃ w, code.incoming p = [(block, w)] ∧
      st.code.incoming p = [(block, w)] ∧ w ∉ code.phis inside ∧ w ∉ code.phis outside := by
  have hp' : p ∈ code.phis c := mem_of_mem_filter (h.phis c ▸ hp)
  obtain ⟨w, hw, hin, hout⟩ := hd.incoming c hc p hp'
  refine ⟨w, hw, ?_, hin, hout⟩
  rw [h.incoming c p hp, hw, map_singleton]
  exact congrArg (fun v => [(block, v)]) (replacementOf_other clone moved hin hout)

theorem MovedOut.received_iff (hnot : i ∉ moved) (p : V) :
    p ∈ st.code.phis c ∧ (st.code.incoming p).head?.map Prod.snd = some i ↔
      p ∈ code.phis c ∧ code.incoming p = [(block, i)] := by
  constructor
  · rintro ⟨hp, hhead⟩
    obtain ⟨w, hw, hst, -⟩ := h.incoming_eq hd hc hp
    rw [hst] at hhead
    obtain rfl : w = i := some.inj hhead
    exact ⟨mem_of_mem_filter (h.phis c ▸ hp), hw⟩
  · rintro ⟨hp, hw⟩
    have hkeep : replacementOf code clone inside outside moved p = p := by
      rcases hc with rfl | rfl
      · rw [replacementOf_inside clone outside moved hp hw, if_neg hnot]
      · rw [hd.replacementOf_outside moved hp hw, if_neg hnot]
    have hmem : p ∈ st.code.phis c := by
      rw [h.phis]
      exact mem_filter.mpr ⟨hp, decide_eq_true hkeep⟩
    obtain ⟨w, hw', hst, -⟩ := h.incoming_eq hd hc hmem
    obtain rfl : w = i := congrArg Prod.snd (singleton_inj.mp (hw'.symm.trans hw))
    exact ⟨hmem, by rw [hst]; rfl⟩

end

omit [DecidableEq B] in
theorem resolveSuccessorPHIs_eq (ord : IterOrder) (f : SSACode V B) (i replacement : V)
    (hpred : ls.fn.getSinglePredecessor c = some b)
    (hone : ∀ p ∈ f.phis c, (f.incoming p).length = 1) (hnot : replacement ∉ f.phis c) :
    ∃ phis, ls.resolveSuccessorPHIs ord i replacement c f = some (f.foldPHIs phis replacement) ∧
      ∀ p, p ∈ phis ↔ p ∈ f.phis c ∧ (f.incoming p).head?.map Prod.snd = some i := by
  have hmem : ∀ p, p ∈ ord.visit (phisToResolve f i c).elems ↔
      p ∈ f.phis c ∧ (f.incoming p).head?.map Prod.snd = some i := fun p => by
    rw [ord.mem_visit, PtrSet.mem_elems, phisToResolve, PtrSet.mem_ofList, mem_filter,
      decide_eq_true_eq]
  refine ⟨ord.visit (phisToResolve f i c).elems, ?_, hmem⟩
  unfold resolveSuccessorPHIs
  rw [hpred, bind_eq_bind, bind_some, SSACode.foldl_resolve]
  · rfl
  · exact ord.nodup_visit (phisToResolve f i c).nodup
  · exact fun h => hnot ((hmem _).mp h).1
  · exact fun p hp => hone p ((hmem p).mp hp).1

/-- The function after one more move, which folds `phisIn` and `phisOut`. -/
def moveOne (f : SSACode V B) (clone : V → V) (inside outside : B) (i : V)
    (phisIn phisOut : List V) : SSACode V B :=
  ((((f.moveToFront inside i).foldPHIs phisIn i).insertClone outside i (clone i)).foldPHIs phisOut
    (clone i))

/-- A move is one step of the model. -/
theorem MovedOut.moveInstOut_eq (ord : IterOrder)
    (h : MovedOut code (sinkingOf code clone block inside outside moved) st)
    (hd : Departs code clone block inside outside)
    (htargets : ls.moveTargets (ls.fn.ir.getParent i) = some (inside, some outside))
    (hpredIn : ls.fn.getSinglePredecessor inside = some block)
    (hpredOut : ls.fn.getSinglePredecessor outside = some block) (hi : i ∈ code.body block)
    (hnot : i ∉ moved) : ∃ phisIn phisOut,
      ls.moveInstOutOfPrologueBasicBlock ord clone st i = some {
        code := moveOne st.code clone inside outside i phisIn phisOut
        originalToClones := st.originalToClones.insert i (clone i)
        clones := st.clones.insert (clone i) } ∧
      (∀ p, p ∈ phisIn ↔ p ∈ code.phis inside ∧ code.incoming p = [(block, i)]) ∧
      ∀ p, p ∈ phisOut ↔ p ∈ code.phis outside ∧ code.incoming p = [(block, i)] := by
  have hold : ∀ {p c}, p ∈ st.code.phis c → p ∈ code.phis c := fun {p c} hp =>
    mem_of_mem_filter (h.phis c ▸ hp)
  obtain ⟨phisIn, hresolve, hphisIn⟩ := resolveSuccessorPHIs_eq ord
    (st.code.moveToFront inside i) i i hpredIn (fun p hp => by
      obtain ⟨w, -, hw, -⟩ := h.incoming_eq hd (.inl rfl) hp
      exact (congrArg List.length hw).trans rfl) fun hp => hd.not_phi hi (hold hp)
  have hphisIn' : ∀ p, p ∈ phisIn ↔ p ∈ code.phis inside ∧ code.incoming p = [(block, i)] :=
    fun p => (hphisIn p).trans (h.received_iff hd (.inl rfl) hnot p)
  -- the PHIs of the other successor are as before
  have hphis : (((st.code.moveToFront inside i).foldPHIs phisIn i).insertClone outside i
      (clone i)).phis outside = st.code.phis outside := by
    refine filter_eq_self.mpr fun p hp => decide_eq_true fun hmem => ?_
    exact hd.phi_outside (hold hp) ((hphisIn' p).mp hmem).1
  have hincoming : ∀ p ∈ st.code.phis outside, (((st.code.moveToFront inside i).foldPHIs phisIn
      i).insertClone outside i (clone i)).incoming p = st.code.incoming p := by
    intro p hp
    have hnotIn : p ∉ phisIn := fun hmem => hd.phi_outside (hold hp) ((hphisIn' p).mp hmem).1
    obtain ⟨w, -, hw, hwin, -⟩ := h.incoming_eq hd (.inr rfl) hp
    have hwIn : w ∉ phisIn := fun hmem => hwin ((hphisIn' w).mp hmem).1
    show (if p ∈ phisIn then [] else (st.code.incoming p).map fun e =>
      (e.1, SSACode.foldTo phisIn i e.2)) = st.code.incoming p
    rw [if_neg hnotIn, hw, map_singleton, SSACode.foldTo_of_not_mem hwIn]
  obtain ⟨phisOut, hresolve', hphisOut⟩ := resolveSuccessorPHIs_eq ord
    (((st.code.moveToFront inside i).foldPHIs phisIn i).insertClone outside i (clone i)) i (clone i)
    hpredOut (fun p hp => by
      rw [hphis] at hp
      obtain ⟨w, -, hw, -⟩ := h.incoming_eq hd (.inr rfl) hp
      rw [hincoming p hp, hw]
      rfl) fun hp => hd.clone_not_phi hi (hold (hphis ▸ hp))
  refine ⟨phisIn, phisOut, ?_, hphisIn', fun p => (hphisOut p).trans ?_⟩
  · unfold moveInstOutOfPrologueBasicBlock moveInstIntoSuccessor cloneInstIntoSuccessor
    simp only [htargets, hresolve, hresolve', Option.bind_eq_bind, Option.bind_some,
      Option.pure_def]
    rfl
  · rw [hphis, ← h.received_iff hd (.inr rfl) hnot p]
    exact and_congr_right fun hp => by rw [hincoming p hp]

/-- What is replaced by an instruction after its move. -/
theorem Departs.replacementOf_cons_eq_iff (h : Departs code clone block inside outside)
    (hmoved : ∀ m ∈ moved, m ∈ code.body block) (hi : i ∈ code.body block) {phisIn phisOut : List V}
    (hphisIn : ∀ p, p ∈ phisIn ↔ p ∈ code.phis inside ∧ code.incoming p = [(block, i)])
    (hphisOut : ∀ p, p ∈ phisOut ↔ p ∈ code.phis outside ∧ code.incoming p = [(block, i)])
    (hx : x ∈ code.phis b) :
    replacementOf code clone inside outside (i :: moved) x = x ↔
      x ∉ phisOut ∧ x ∉ phisIn ∧ replacementOf code clone inside outside moved x = x := by
  have hfold := h.replacementOf_cons hmoved hi hphisIn hphisOut x
  constructor
  · intro heq
    rw [heq] at hfold
    have hold : replacementOf code clone inside outside moved x = x := by
      refine (h.replacementOf_cases hmoved x).resolve_right fun hno => ?_
      rw [SSACode.foldTo_of_not_mem fun hmem => hno inside ((hphisIn _).mp hmem).1,
        SSACode.foldTo_of_not_mem fun hmem => hno outside ((hphisOut _).mp hmem).1] at hfold
      exact hno b (hfold.symm ▸ hx)
    rw [hold] at hfold
    have hin : x ∉ phisIn := fun hmem => by
      rw [SSACode.foldTo_of_mem hmem, SSACode.foldTo_of_not_mem fun hmem' =>
        h.not_phi hi ((hphisOut _).mp hmem').1] at hfold
      exact h.not_phi hi (hfold.symm ▸ hx)
    rw [SSACode.foldTo_of_not_mem hin] at hfold
    refine ⟨fun hmem => ?_, hin, hold⟩
    rw [SSACode.foldTo_of_mem hmem] at hfold
    exact h.clone_not_phi hi (hfold.symm ▸ hx)
  · rintro ⟨hout, hin, hold⟩
    rw [← hfold, hold, SSACode.foldTo_of_not_mem hin, SSACode.foldTo_of_not_mem hout]

section

variable (h : MovedOut code (sinkingOf code clone block inside outside moved) st)
  (hd : Departs code clone block inside outside)

include h hd

/-- The instruction is in both successors, and no longer in the block. -/
theorem moveOne_body (hmoved : ∀ m ∈ moved, m ∈ code.body block) (hi : i ∈ code.body block)
    (hnot : i ∉ moved) {phisIn phisOut : List V} (b : B) :
    (moveOne st.code clone inside outside i phisIn phisOut).body b =
      (if b = inside then i :: moved else []) ++ ((if b = outside then
        (i :: moved).map clone else []) ++ SSACode.kept (i :: moved) (code.body b)) := by
  have hfilter : ∀ {l : List V}, i ∉ l → (l.filter fun y => decide (y ≠ i)) = l := fun hl =>
    filter_eq_self.mpr fun y hy => decide_eq_true fun heq => hl (heq ▸ hy)
  have hclones : i ∉ moved.map clone := fun hmem => by
    obtain ⟨j, hjm, hj⟩ := mem_map.mp hmem
    exact hd.fresh j (hmoved j hjm) (hj ▸ .body hi)
  have hkept : ((SSACode.kept moved (code.body b)).filter fun y => decide (y ≠ i)) =
      SSACode.kept (i :: moved) (code.body b) := by
    unfold SSACode.kept
    rw [List.filter_filter]
    refine filter_congr fun y _ => ?_
    rw [← Bool.decide_and]
    exact decide_eq_decide.mpr (by rw [mem_cons, not_or])
  have hin : i ∉ (if b = inside then moved else []) := by
    split
    · exact hnot
    · exact not_mem_nil
  have hout : i ∉ (if b = outside then moved.map clone else []) := by
    split
    · exact hclones
    · exact not_mem_nil
  have hbody : st.code.body b = (if b = inside then moved else []) ++
    ((if b = outside then moved.map clone else []) ++ SSACode.kept moved (code.body b)) := h.body b
  show (if b = outside then [clone i] else []) ++ ((if b = inside then [i] else []) ++
    (st.code.body b).filter fun y => decide (y ≠ i)) = _
  rw [hbody, filter_append, filter_append, hfilter hin, hfilter hout, hkept]
  by_cases hb : b = inside
  · have hb' : b ≠ outside := fun heq => hd.inside_ne_outside (hb.symm.trans heq)
    simp only [if_pos hb, if_neg hb', nil_append, cons_append]
  · by_cases hb' : b = outside
    · simp only [if_neg hb, if_pos hb', nil_append, map_cons, cons_append]
    · simp only [if_neg hb, if_neg hb', nil_append]

/-- One more instruction moves out of the block. -/
theorem MovedOut.move
    (htargets : ls.moveTargets (ls.fn.ir.getParent i) = some (inside, some outside))
    (hpredIn : ls.fn.getSinglePredecessor inside = some block)
    (hpredOut : ls.fn.getSinglePredecessor outside = some block)
    (hmoved : ∀ m ∈ moved, m ∈ code.body block) (hi : i ∈ code.body block) (hnot : i ∉ moved) :
    ∃ st', ls.moveInstOutOfPrologueBasicBlock ord clone st i = some st' ∧
      MovedOut code (sinkingOf code clone block inside outside (i :: moved)) st' := by
  obtain ⟨phisIn, phisOut, hmove, hphisIn, hphisOut⟩ :=
    h.moveInstOut_eq ord hd htargets hpredIn hpredOut hi hnot
  have hfold := hd.replacementOf_cons hmoved hi hphisIn hphisOut
  have hmap : ∀ l : List V, ((l.map (replacementOf code clone inside outside moved)).map
      (SSACode.foldTo phisIn i)).map (SSACode.foldTo phisOut (clone i)) =
        l.map (replacementOf code clone inside outside (i :: moved)) := fun l => by
    rw [List.map_map, List.map_map]
    exact List.map_congr_left fun x _ => hfold x
  have hphis : ∀ b, ((st.code.phis b).filter fun x => decide (x ∉ phisIn)).filter
      (fun x => decide (x ∉ phisOut)) = (code.phis b).filter fun x =>
        decide (replacementOf code clone inside outside (i :: moved) x = x) := fun b => by
    rw [h.phis, List.filter_filter, List.filter_filter]
    refine List.filter_congr fun x hx => ?_
    rw [← Bool.decide_and, ← Bool.decide_and]
    have hiff := hd.replacementOf_cons_eq_iff hmoved hi hphisIn hphisOut hx
    exact decide_eq_decide.mpr (and_assoc.trans hiff.symm)
  refine ⟨_, hmove, h.entry, h.successors, fun b => ?_, hphis, fun b p hp => ?_, fun x hx => ?_,
    fun m hm => ?_, fun b => ?_, fun x => ?_, fun x => ?_⟩
  · exact moveOne_body h hd hmoved hi hnot b
  · have hp' : p ∈ ((st.code.phis b).filter fun x => decide (x ∉ phisIn)).filter
        fun x => decide (x ∉ phisOut) := hp
    obtain ⟨hp', hout⟩ := mem_filter.mp hp'
    obtain ⟨hp', hin⟩ := mem_filter.mp hp'
    show (if p ∈ phisOut then [] else (if p ∈ phisIn then [] else (st.code.incoming p).map _).map
      _) = _
    rw [if_neg (of_decide_eq_true hout), if_neg (of_decide_eq_true hin), h.incoming b p hp',
      List.map_map, List.map_map]
    exact map_congr_left fun e _ => congrArg (Prod.mk e.1) (hfold e.2)
  · have hx' : x ≠ clone i ∧ x ∉ moved.map clone := by
      simpa [sinkingOf, SSACode.Sinking.clones] using hx
    show ((if x = clone i then (st.code.operands i).map (SSACode.foldTo phisIn i) else
      (st.code.operands x).map (SSACode.foldTo phisIn i))).map _ = _
    rw [if_neg hx'.1, h.operands x hx'.2]
    exact hmap _
  · show ((if clone m = clone i then (st.code.operands i).map (SSACode.foldTo phisIn i) else
      (st.code.operands (clone m)).map (SSACode.foldTo phisIn i))).map _ = _
    rcases mem_cons.mp hm with rfl | hm
    · have hclones : m ∉ moved.map clone := fun hmem => by
        obtain ⟨j, hjm, hj⟩ := mem_map.mp hmem
        exact hd.fresh j (hmoved j hjm) (hj ▸ .body hi)
      rw [if_pos rfl, h.operands m hclones]
      exact hmap _
    · have hne : clone m ≠ clone i := fun heq => hnot (hd.injective m (hmoved m hm) i hi heq ▸ hm)
      have hop := h.operands_clone m hm
      rw [if_neg hne, show st.code.operands (clone m) = _ from hop]
      exact hmap _
  · show ((st.code.terminatorOperands b).map _).map _ = _
    rw [h.terminatorOperands b]
    exact hmap _
  · have hold := h.originalToClones x
    by_cases hx : x = i
    · rw [hx, AList.lookup_insert]
      exact (if_pos (.head _)).symm
    · have hiff : x ∈ moved ↔ x ∈ i :: moved := by rw [mem_cons, or_iff_right hx]
      rw [AList.lookup_insert_ne hx, hold]
      exact if_congr hiff rfl rfl
  · rw [PtrSet.mem_insert, h.clones x]
    simp [sinkingOf, SSACode.Sinking.clones]

end

/-- The instructions all move out, one after the other. -/
theorem foldlM_move (ord : IterOrder) (hd : Departs code clone block inside outside)
    (htargets : ls.moveTargets block = some (inside, some outside))
    (hpredIn : ls.fn.getSinglePredecessor inside = some block)
    (hpredOut : ls.fn.getSinglePredecessor outside = some block)
    (hmoved : ∀ m ∈ moved, m ∈ code.body block)
    (hparent : ∀ m ∈ moved, ls.fn.ir.getParent m = block) (hnodup : moved.Nodup) :
    ∃ st, moved.reverse.foldlM (ls.moveInstOutOfPrologueBasicBlock ord clone) { code } = some st ∧
      MovedOut code (sinkingOf code clone block inside outside moved) st := by
  have hstep : ∀ pre i post st, moved.reverse = pre ++ i :: post →
      MovedOut code (sinkingOf code clone block inside outside pre.reverse) st →
      ∃ st', ls.moveInstOutOfPrologueBasicBlock ord clone st i = some st' ∧
        MovedOut code (sinkingOf code clone block inside outside (pre ++ [i]).reverse) st' := by
    intro pre i post st hsplit hst
    have hmem : ∀ m ∈ pre ++ i :: post, m ∈ moved := fun m hm =>
      mem_reverse.mp (hsplit ▸ hm)
    have hi := hmem i (mem_append_right pre (.head _))
    have hnot : i ∉ pre := fun hpre =>
      (nodup_append.mp (hsplit ▸ nodup_reverse.mpr hnodup)).2.2 i hpre i
        (.head _) rfl
    rw [reverse_append, reverse_singleton, singleton_append]
    exact hst.move hd (by rw [hparent i hi]; exact htargets) hpredIn hpredOut
      (fun m hm => hmoved m (hmem m (mem_append_left _ (mem_reverse.mp hm))))
      (hmoved i hi) fun hm => hnot (mem_reverse.mp hm)
  obtain ⟨st, hfold, hst⟩ := foldlM_rule (ls.moveInstOutOfPrologueBasicBlock ord clone)
    (fun pre st => MovedOut code (sinkingOf code clone block inside outside pre.reverse) st)
    (.start code clone block inside outside) hstep
  rw [reverse_reverse] at hst
  exact ⟨st, hfold, hst⟩

end LoopScheduler

end Noelle
