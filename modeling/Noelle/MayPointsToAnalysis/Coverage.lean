import Noelle.MayPointsToAnalysis.Escape

/-!
# MayPointsToAnalysis.Coverage

What the final points-to sets cover: copies of memory, and pointers that `initPtInfo` has no
rule for.

Both rest on the bounds that hold of every run: it ends in a solution of the base, copy, load
and store constraints, and never goes beyond a solution of all the constraints.
-/

namespace Noelle

open Option

namespace MpaFunction

variable {V : Type} [DecidableEq V] (F : MpaFunction V)

/-- A branch of `initPtInfo` says what the pointer points to, or what is copied to it. -/
def hasRule (ptr : V) : Bool :=
  decide (ptr ∈ F.getAllocations) ||
    match F.value ptr with
    | .phiNode _ => true
    | .selectInst _ _ => true
    | .argument => true
    | .globalVariable => true
    | .callBase .realloc (_ :: _) => true
    | .callBase .userDefined _ => true
    | .callBase .unknown _ => true
    | .constantPointerNull => true
    | _ => false

/-- The instruction loads or stores through the pointer, copies memory through it, or passes it
to an unknown call. -/
inductive Needs (inst ptr : V) : Prop
  | load : F.value inst = .loadInst ptr → Needs inst ptr
  | store {valueOperand : V} : F.value inst = .storeInst valueOperand ptr → Needs inst ptr
  | memCopyTo {src : V} {args : List V} : F.value inst = .callBase .memCopy (ptr :: src :: args) →
      Needs inst ptr
  | memCopyFrom {dst : V} {args : List V} :
      F.value inst = .callBase .memCopy (dst :: ptr :: args) → Needs inst ptr
  | callArgument {argOperands : List V} : ptr ∈ argOperands →
      (F.value inst = .callBase .userDefined argOperands ∨
        F.value inst = .callBase .unknown argOperands) → Needs inst ptr

/-- Pointers without a rule have the unknown object, loads from something apart, and what is
dereferenced or escapes points to something. -/
structure Covers (σ : NodeID V → Option V → Prop) : Prop where
  unknown : ∀ w ∈ F.pointers, F.hasRule (F.strip w) = true ∨
    (∃ p m, F.value (F.strip w) = .loadInst p ∧ σ (F.node p) m) ∨ σ (F.node w) none
  nonempty : ∀ w ∈ F.pointers, ∀ inst ∈ F.instructions, F.Needs inst w →
    F.value (F.strip w) ≠ .constantPointerNull → ∃ o, σ (F.node w) o

variable {F} {w : V} {σ τ : NodeID V → Option V → Prop}

theorem Covers.mono (h : F.Covers σ) (hle : ∀ n o, σ n o → τ n o) : F.Covers τ where
  unknown w hw := (h.unknown w hw).imp_right
    (Or.imp (fun ⟨p, m, hp, hm⟩ => ⟨p, m, hp, hle _ _ hm⟩) (hle _ _))
  nonempty w hw inst hinst hneeds hnull := by
    obtain ⟨o, ho⟩ := h.nonempty w hw inst hinst hneeds hnull
    exact ⟨o, hle _ _ ho⟩

theorem Defines.hasRule {c : MpaConstraint V} (h : F.Defines w c) : F.hasRule w = true := by
  unfold MpaFunction.hasRule
  cases h with
  | base ho =>
      cases ho with
      | allocation h => simp [h]
      | argument h => simp [h]
      | globalVariable h _ => simp [h]
      | call h =>
          obtain ⟨args, h | h⟩ := h <;> simp [h]
  | phi h _ => simp [h]
  | selectTrue h => simp [h]
  | selectFalse h => simp [h]
  | realloc h => simp [h]
  | callResult h =>
      obtain ⟨args, h | h⟩ := h <;> simp [h]

theorem Defines.strip_eq {c : MpaConstraint V} (h : F.Defines w c) : F.strip w = w := by
  cases h with
  | base ho => exact ho.strip_eq
  | callResult h => exact (Pointee.call h).strip_eq
  | phi h _ => exact strip_eq_self (fun p => h ▸ nofun) (fun p => h ▸ nofun)
  | selectTrue h => exact strip_eq_self (fun p => h ▸ nofun) (fun p => h ▸ nofun)
  | selectFalse h => exact strip_eq_self (fun p => h ▸ nofun) (fun p => h ▸ nofun)
  | realloc h => exact strip_eq_self (fun p => h ▸ nofun) (fun p => h ▸ nofun)

/-- A memory copy writes to the pointer. -/
def IsMemcpyTarget (F : MpaFunction V) (ptr : V) : Prop :=
  ∃ w ∈ F.pointers, ∃ u ∈ F.users w, ∃ dst src args,
    F.value u = .callBase .memCopy (dst :: src :: args) ∧ F.node dst = F.node ptr

/-- A pointer without a rule that is no load and that no memory copy writes to has no
constraint: a solution may leave it empty. -/
theorem solution_of_not_hasRule (hrule : F.hasRule (F.strip w) = false)
    (hload : ∀ p, F.value (F.strip w) ≠ .loadInst p) (hcopy : ¬ F.IsMemcpyTarget w) :
    F.constraints.Solution fun n _ => n ≠ F.node w := by
  have hdefines : ∀ w' c, F.Defines w' c → F.node w' ≠ F.node w := fun w' c hdef heq => by
    have heq : w' = F.strip w := hdef.strip_eq.symm.trans (NodeID.ptr.inj heq)
    exact absurd (heq ▸ hdef.hasRule) (by simp [hrule])
  refine ⟨?_, ?_, ?_, fun _ _ _ _ _ _ => nofun, fun _ _ _ _ _ _ => nofun,
    fun _ _ _ _ _ _ => nofun⟩
  · rintro n o (⟨rfl, -⟩ | ⟨w', -, hdef | ⟨u, -, huse⟩⟩)
    · exact nofun
    · cases hdef with
      | base ho => exact hdefines w' _ (.base ho)
    · nomatch huse
  · rintro a b ⟨w', hw', hdef | ⟨u, hu, huse⟩⟩ _ -
    · have hne := hdefines w' _ hdef
      cases hdef <;> exact hne
    · cases huse with
      | memCopy hv => exact fun heq => hcopy ⟨w', hw', u, hu, _, _, _, hv, heq⟩
      | callArgument _ => exact nofun
  · rintro p d ⟨w', -, l, hdef | ⟨u, -, huse⟩, rfl⟩ _ - _ -
    · nomatch hdef
    · cases huse with
      | load hv _ =>
          intro heq
          have hstrip : F.strip l = l := strip_eq_self (fun p => hv ▸ nofun) (fun p => hv ▸ nofun)
          have heq : l = F.strip w := hstrip.symm.trans (NodeID.ptr.inj heq)
          exact hload w' (heq ▸ hv)

end MpaFunction

namespace MpaSummary

variable {V : Type} [DecidableEq V] {ord : IterOrder} {F : MpaFunction V} {s : MpaSummary V}
  {w : V}

/-! ## Memory copies -/

/-- A memory copy makes its target point to what its source points to.  So what is loaded
through the target points to what the objects of the source point to, and what is stored
through it is stored to them. -/
theorem memcpy_copies_pointees {choices : List Nat}
    (hrun : solveWorklist ord F choices = some s) (hempty : s.worklist = []) :
    ∀ w ∈ F.pointers, ∀ u ∈ F.users w, ∀ dst src args,
      F.value u = .callBase .memCopy (dst :: src :: args) →
      ∀ n, s.PointsTo (F.node src) n → s.PointsTo (F.node dst) n ∧
        ∀ p ∈ F.pointers, F.node p = F.node dst → ∀ inst ∈ F.users p,
          (F.value inst = .loadInst p → F.isPointerTy inst = true →
            ∀ o, s.PointsTo (.memobj n) o → s.PointsTo (F.node inst) o) ∧
          ∀ v, F.value inst = .storeInst v p → F.isPointerTy v = true →
            ∀ o, s.PointsTo (F.node v) o → s.PointsTo (.memobj n) o := by
  intro w hw u hu dst src args hcall n hn
  have hσ := solution_of_solveWorklist hrun hempty
  have hdst : s.PointsTo (F.node dst) n :=
    hσ.copy _ _ ⟨w, hw, .inr ⟨u, hu, .memCopy hcall⟩⟩ n hn
  refine ⟨hdst, fun p hp hnode inst hinst => ⟨fun hload hty => ?_, fun v hstore hty => ?_⟩⟩
  · have hgen : F.Generates p (.load (F.node dst) inst) :=
      .inr ⟨inst, hinst, hnode ▸ .load hload hty⟩
    exact hσ.load _ _ ⟨p, hp, inst, hgen, rfl⟩ n hdst
  · have hgen : F.Generates p (.store (F.node dst) inst) :=
      .inr ⟨inst, hinst, hnode ▸ .store hstore hty⟩
    exact hσ.store _ _ ⟨p, hp, inst, v, p, hgen, hstore, rfl⟩ n hdst

/-- `%m = alloca; %n = alloca; store %n, %n; memcpy(%m, %n)`. -/
def copyCell : MpaFunction (Fin 4) where
  value := ![.allocaInst, .allocaInst, .storeInst 1 1, .callBase .memCopy [0, 1]]
  isPointerTy := ![true, true, false, false]
  users := ![[3], [2, 3], [], []]
  args := []
  instructions := [0, 1, 2, 3]
  privatizeCandidate := none
  candidate_global := by simp
  castDepth := 0

theorem copyCell_copies_pointees : ∃ s,
    solveWorklist .stored copyCell (List.replicate 5 0) = some s ∧ s.worklist = [] ∧
      s.PointsTo (copyCell.node 0) (some 1) := by
  have hfinal : (solveWorklist .stored copyCell (List.replicate 5 0)).map (fun s =>
      (s.worklist, decide (s.PointsTo (copyCell.node 1) (some 1)))) = some ([], true) := by
    decide +kernel
  obtain ⟨s, hrun, heq⟩ := map_eq_some_iff.mp hfinal
  obtain ⟨hempty, hsrc⟩ := Prod.mk.inj heq
  refine ⟨s, hrun, hempty, ?_⟩
  exact (memcpy_copies_pointees hrun hempty 1 (by decide +kernel) 3 (by decide +kernel) 0 1 [] rfl
    (some 1) (of_decide_eq_true hsrc)).1

/-- The object of `%n` is not copied into the one of `%m`. -/
theorem copyCell_contents_not_copied : ¬ ∀ choices s,
    solveWorklist .stored copyCell choices = some s → s.worklist = [] →
      ∀ u ∈ copyCell.instructions, ∀ dst src args,
        copyCell.value u = .callBase .memCopy (dst :: src :: args) →
        ∀ m, s.PointsTo (copyCell.node dst) m → ∀ n, s.PointsTo (copyCell.node src) n →
          ∀ o, s.PointsTo (.memobj n) o → s.PointsTo (.memobj m) o := by
  intro hall
  have hfinal : (solveWorklist .stored copyCell (List.replicate 5 0)).map (fun s =>
      (s.worklist, decide (s.PointsTo (copyCell.node 0) (some 0)),
        decide (s.PointsTo (copyCell.node 1) (some 1)),
        decide (s.PointsTo (.memobj (some 1)) (some 1)),
        decide (s.PointsTo (.memobj (some 0)) (some 1)))) = some ([], true, true, true, false) := by
    decide +kernel
  obtain ⟨s, hrun, heq⟩ := map_eq_some_iff.mp hfinal
  simp only [Prod.mk.injEq, decide_eq_true_eq, decide_eq_false_iff_not] at heq
  obtain ⟨hempty, hdst, hsrc, hcontent, hnot⟩ := heq
  exact hnot (hall _ s hrun hempty 3 (by decide +kernel) 0 1 [] rfl (some 0) hdst (some 1) hsrc
    (some 1) hcontent)

/-! ## Pointers without a rule -/

/-- Whatever the order, a pointer that `initPtInfo` has no rule for ends with an empty set, unless
it is a load or a memory copy writes to it. -/
theorem not_pointsTo_of_not_hasRule {choices : List Nat}
    (hrun : solveWorklist ord F choices = some s) (hrule : F.hasRule (F.strip w) = false)
    (hload : ∀ p, F.value (F.strip w) ≠ .loadInst p) (hcopy : ¬ F.IsMemcpyTarget w)
    (o : Option V) : ¬ s.PointsTo (F.node w) o := fun ho =>
  pointsTo_le_solution hrun (MpaFunction.solution_of_not_hasRule hrule hload hcopy) _ o ho rfl

/-- The points-to sets are justified by the base, copy, load and store constraints in the end of
every run.  They cover the pointers without a rule, and what is dereferenced or escapes, if the
least solution of these constraints does, and only if the one of all constraints does, which is
exact for the runs that lose nothing that escapes. -/
theorem solveWorklist_covers_iff {choices : List Nat}
    (hrun : solveWorklist ord F choices = some s) (hempty : s.worklist = []) :
    F.constraints.withoutEscape.Solution s.PointsTo ∧
    (F.Covers F.constraints.withoutEscape.least → F.Covers s.PointsTo) ∧
    (F.Covers s.PointsTo → F.Covers F.constraints.least) ∧
    (EveryStep ord F (PassesEscapesOn F) choices →
      (F.Covers s.PointsTo ↔ F.Covers F.constraints.least)) := by
  have hσ := solution_of_solveWorklist hrun hempty
  have hupper : F.Covers s.PointsTo → F.Covers F.constraints.least := fun h =>
    h.mono (pointsTo_le_solution hrun InclusionConstraints.least_isLeastSolution.1)
  refine ⟨hσ, fun h => h.mono fun n o ho => ho _ hσ, hupper, fun hsteps => ⟨hupper, fun h => ?_⟩⟩
  exact h.mono fun n o ho => ho _ (isLeastSolution_of_passesEscapesOn hsteps hrun hempty).1

theorem storeLoad_covers_iff : ∃ s,
    solveWorklist .stored storeLoad (List.replicate 7 0) = some s ∧ s.worklist = [] ∧
      (storeLoad.Covers s.PointsTo ↔ storeLoad.Covers storeLoad.constraints.least) := by
  have hno : (initPtInfo .stored storeLoad).usedAsFuncArg = ∅ := by decide +kernel
  have hfinal : (solveWorklist .stored storeLoad (List.replicate 7 0)).map (·.worklist) = some [] := by
    decide +kernel
  obtain ⟨s, hrun, hempty⟩ := map_eq_some_iff.mp hfinal
  refine ⟨s, hrun, hempty, (solveWorklist_covers_iff hrun hempty).2.2.2 ?_⟩
  intro pre i post s' n _ hpre _
  have hnone : ∀ p, p ∉ s'.usedAsFuncArg := fun p => by
    rw [(bounded_of_solveWorklist hpre).usedAsFuncArg, hno]
    exact PtrSet.not_mem_empty p
  exact ⟨fun hn => absurd hn (hnone n), fun _ p hp => absurd hp (hnone p)⟩

/-- `%p = inttoptr; %q = alloca; store %q, %p`. -/
def storeInttoptr : MpaFunction (Fin 3) where
  value := ![.other, .allocaInst, .storeInst 1 0]
  isPointerTy := ![true, true, false]
  users := ![[2], [2], []]
  args := []
  instructions := [0, 1, 2]
  privatizeCandidate := none
  candidate_global := by simp
  castDepth := 0

/-- `%p` is dereferenced and ends with an empty set. -/
theorem storeInttoptr_not_covered : ¬ ∀ choices s,
    solveWorklist .stored storeInttoptr choices = some s → s.worklist = [] →
      storeInttoptr.Covers s.PointsTo := by
  intro hall
  have hfinal : (solveWorklist .stored storeInttoptr (List.replicate 2 0)).map (·.worklist) =
      some [] := by decide +kernel
  obtain ⟨s, hrun, hempty⟩ := map_eq_some_iff.mp hfinal
  have hstore : storeInttoptr.value 2 = .storeInst 1 0 := rfl
  obtain ⟨o, ho⟩ := (hall _ s hrun hempty).nonempty 0 (by decide +kernel) 2 (by decide +kernel)
    (.store hstore) (by decide +kernel)
  refine not_pointsTo_of_not_hasRule (w := 0) hrun (by decide +kernel) (fun p => ?_) ?_ o ho
  · exact nofun
  · rintro ⟨w, -, ⟨_ | _ | _ | k, hk⟩, -, dst, src, args, hcall, -⟩
    · nomatch hcall
    · nomatch hcall
    · nomatch hcall
    · omega

end MpaSummary

end Noelle
