import Noelle.CallGraph.Components

/-!
# DeadFunctionEliminator

Deleting the functions that no island of the program needs: `CallGraph::canFunctionEscape` and
`DeadFunctionEliminator::runOnModule`.

What is deleted is described for any decision about escapes (`exists_functionsToDelete`).  The
decision of the call graph is `true` for every function, since its last statement is the same as
those for the uses that let a function escape.  So the pass inlines and deletes nothing, and it is
right exactly about the modules with nothing to delete (`runOnModule_exact_iff`).
-/

namespace Noelle

open List Option

/-- A module with what the pass asks about its functions and about the users of functions. -/
structure ProgramModule (F I : Type) extends IRModule F I where
  isIntrinsic : F → Bool
  isEmpty : F → Bool
  /-- The argument operands of a `CallBase`, with the functions among them. -/
  callArguments : I → Option (List (Option F))
  isStoreInst : I → Bool

namespace CallGraph

variable {F I : Type} [DecidableEq F] [DecidableEq I]

/-- The tests of `canFunctionEscape` for one use. -/
def isEscapingUse (M : ProgramModule F I) (f : F) (use : FunctionUse I) : Bool :=
  match use.user with
  | none => false
  | some userInst =>
      match M.callArguments userInst with
      | some args => args.any fun arg => decide (arg = some f)
      | none => M.isStoreInst userInst

/-- `CallGraph::canFunctionEscape`, whose last statement is `return true`, too. -/
def canFunctionEscape (M : ProgramModule F I) (f : F) : Bool :=
  if (M.uses f).any (isEscapingUse M f) then true else true

omit [DecidableEq I] in
theorem canFunctionEscape_eq_true (M : ProgramModule F I) (f : F) : canFunctionEscape M f = true :=
  ite_self true

end CallGraph

namespace DeadFunctionEliminator

variable {F I : Type} [DecidableEq F] [DecidableEq I]

/-! ## The pass -/

section Pass

variable (M : ProgramModule F I) (pcg : CallGraph F I) (canFunctionEscape : F → Bool)

/-- The body of the loop of the first phase: the call that it inlines, if there is one.  The outer
`none` is a failed assertion or cast. -/
def callToInline (node : CallGraphFunctionNode F) : Option (Option I) :=
  let nodeFunction := node.f
  if M.isEmpty nodeFunction then some none
  else
    match (pcg.getIncomingEdges node).elems with
    | [callingEdge] =>
        if canFunctionEscape nodeFunction then some none
        else
          match (pcg.getSubEdges callingEdge).elems with
          | [callerEdge] =>
              let callerInst := callerEdge.caller.i
              if M.getFunction callerInst = nodeFunction then some none
              else
                match M.kind callerInst with
                | .invokeInst _ | .callInst none => some none
                | .callInst (some calledFunction) =>
                    if calledFunction = nodeFunction then some (some callerInst) else none
                | .otherInst => none
          | _ => some none
    | _ => some none

def liveIslands (islands : Islands F) (entryF : F) (ctors : PtrSet F) : Option (PtrSet Nat) := do
  let entryIsland ← islands.islands.lookup entryF
  let ctorIslands ← ctors.elems.mapM fun ctor => islands.islands.lookup ctor
  return PtrSet.ofList (entryIsland :: ctorIslands)

def functionsToDelete (islands : Islands F) (liveIslands : PtrSet Nat) : List F :=
  M.functions.elems.filter fun f =>
    if M.isIntrinsic f then false
    else if M.isEmpty f then false
    else if (islands.islands.lookup f).any (· ∈ liveIslands) then false
    else !canFunctionEscape f

/-- `runOnModule` with a decision about escapes: whether the module was modified, and the functions
that were deleted. -/
def runOnModuleWith (ord : IterOrder) (fuel : Nat) (inlineSucceeds : I → Bool) (entryF : F)
    (ctors : PtrSet F) : Option (Bool × List F) := do
  let callsToInline ← (ord.visit pcg.getFunctionNodes.elems).mapM (callToInline M pcg canFunctionEscape)
  if callsToInline.any fun callInst => callInst.any inlineSucceeds then return (true, [])
  let islands ← pcg.getIslands ord M.toIRModule fuel
  let liveIslands ← liveIslands islands entryF ctors
  let toDelete := functionsToDelete M canFunctionEscape islands liveIslands
  return (!toDelete.isEmpty, toDelete)

def runOnModule (ord : IterOrder) (fuel : Nat) (inlineSucceeds : I → Bool) (entryF : F)
    (ctors : PtrSet F) : Option (Bool × List F) :=
  runOnModuleWith M pcg (CallGraph.canFunctionEscape M) ord fuel inlineSucceeds entryF ctors

end Pass

/-! ## What is to be deleted -/

section Spec

variable (M : ProgramModule F I) (pcg : CallGraph F I) (entryF : F) (ctors : PtrSet F)

/-- Neither the entry function nor a constructor is in the island of the function. -/
def OutsideLiveIslands (f : F) : Prop :=
  ¬ pcg.Connected M.toIRModule f entryF ∧ ∀ ctor ∈ ctors, ¬ pcg.Connected M.toIRModule f ctor

def OnlyCalled (f : F) : Prop := ∀ use ∈ M.uses f, use.user.isSome = true ∧ use.asCallee = true

/-- A defined function outside the live islands that does not escape. -/
structure IsDead (f : F) : Prop where
  mem : f ∈ M.functions
  not_intrinsic : M.isIntrinsic f = false
  not_empty : M.isEmpty f = false
  outside : OutsideLiveIslands M pcg entryF ctors f
  onlyCalled : OnlyCalled M f

/-- The dead functions are deleted, and no function that is kept uses one. -/
structure DeletesDead (deleted : List F) : Prop where
  mem_iff : ∀ f, f ∈ deleted ↔ IsDead M pcg entryF ctors f
  no_use : ∀ f ∈ deleted, ∀ use ∈ M.uses f, ∀ inst ∈ use.user, M.getFunction inst ∈ deleted

end Spec

/-! ## Islands and deletion -/

section Deletion

variable {M : ProgramModule F I} {pcg : CallGraph F I} {entryF : F} {ctors : PtrSet F}
  {canFunctionEscape : F → Bool}

/-- The functions to delete are decided by the live islands. -/
theorem exists_functionsToDelete (ord : IterOrder) (hok : pcg.OfModule M.toIRModule) {fuel : Nat}
    (hfuel : 2 * pcg.functions.keys.length + 1 ≤ fuel) (hentry : entryF ∈ M.functions)
    (hctors : ∀ ctor ∈ ctors, ctor ∈ M.functions) (canFunctionEscape : F → Bool) :
    ∃ islands live, pcg.getIslands ord M.toIRModule fuel = some islands ∧
      liveIslands islands entryF ctors = some live ∧
      ∀ f, f ∈ functionsToDelete M canFunctionEscape islands live ↔
        f ∈ M.functions ∧ M.isIntrinsic f = false ∧ M.isEmpty f = false ∧
          OutsideLiveIslands M pcg entryF ctors f ∧ canFunctionEscape f = false := by
  obtain ⟨islands, hislands, -, hisSome, hconnected, -⟩ := CallGraph.getIslands_spec ord hok hfuel
  obtain ⟨entryIsland, hentryIsland⟩ := isSome_iff_exists.mp ((hisSome entryF).mpr hentry)
  obtain ⟨ctorIslands, hctorIslands, himage, hsource⟩ := exists_mapM
    (R := fun ctor island => islands.islands.lookup ctor = some island)
    (f := fun ctor => islands.islands.lookup ctor) (l := ctors.elems) fun ctor hctor => by
      obtain ⟨island, hisland⟩ := isSome_iff_exists.mp ((hisSome ctor).mpr (hctors ctor hctor))
      exact ⟨island, hisland, hisland⟩
  refine ⟨islands, PtrSet.ofList (entryIsland :: ctorIslands), hislands, ?_, fun f => ?_⟩
  · rw [liveIslands, hentryIsland, hctorIslands]
    rfl
  rw [functionsToDelete, mem_filter, PtrSet.mem_elems]
  refine and_congr_right fun hf => ?_
  -- the island of a function is live if and only if it is the one of the entry or of a constructor
  have houtside : (islands.islands.lookup f).any
      (· ∈ PtrSet.ofList (entryIsland :: ctorIslands)) = true ↔
        ¬ OutsideLiveIslands M pcg entryF ctors f := by
    obtain ⟨island, hisland⟩ := isSome_iff_exists.mp ((hisSome f).mpr hf)
    have hentryIff : island = entryIsland ↔ pcg.Connected M.toIRModule f entryF := by
      rw [← hconnected f hf entryF hentry, hisland, hentryIsland, some.injEq]
    have hctorIff : island ∈ ctorIslands ↔
        ∃ ctor ∈ ctors, pcg.Connected M.toIRModule f ctor := by
      constructor
      · intro hmem
        obtain ⟨ctor, hctor, hlookup⟩ := himage island hmem
        exact ⟨ctor, hctor,
          (hconnected f hf ctor (hctors ctor hctor)).mp (hisland.trans hlookup.symm)⟩
      · rintro ⟨ctor, hctor, hconn⟩
        obtain ⟨island', hmem, hlookup⟩ := hsource ctor hctor
        have heq := (hconnected f hf ctor (hctors ctor hctor)).mpr hconn
        obtain rfl := mem_unique hisland (heq.trans hlookup)
        exact hmem
    rw [hisland, any_some, decide_eq_true_eq, PtrSet.mem_ofList, mem_cons, hentryIff,
      hctorIff, OutsideLiveIslands, not_and_or, not_not]
    simp only [not_forall, not_not, exists_prop]
  cases hin : (islands.islands.lookup f).any (· ∈ PtrSet.ofList (entryIsland :: ctorIslands)) with
  | false =>
      have hout : OutsideLiveIslands M pcg entryF ctors f := by
        by_contra hno
        exact Bool.false_ne_true (hin.symm.trans (houtside.mpr hno))
      cases M.isIntrinsic f <;> cases M.isEmpty f <;> simp [hout]
  | true =>
      have hno := houtside.mp hin
      cases M.isIntrinsic f <;> cases M.isEmpty f <;> simp [hno]

/-- Deleted are the functions with a body outside the live islands that do not escape. -/
theorem runOnModuleWith_spec (ord : IterOrder) (hok : pcg.OfModule M.toIRModule) {fuel : Nat}
    (hfuel : 2 * pcg.functions.keys.length + 1 ≤ fuel) (hentry : entryF ∈ M.functions)
    (hctors : ∀ ctor ∈ ctors, ctor ∈ M.functions) (canFunctionEscape : F → Bool)
    {inlineSucceeds : I → Bool} (hinline : ∀ node ∈ pcg.getFunctionNodes, ∃ callInst,
      callToInline M pcg canFunctionEscape node = some callInst ∧ callInst.any inlineSucceeds = false) :
    ∃ deleted, runOnModuleWith M pcg canFunctionEscape ord fuel inlineSucceeds entryF ctors =
        some (!deleted.isEmpty, deleted) ∧
      ∀ f, f ∈ deleted ↔ f ∈ M.functions ∧ M.isIntrinsic f = false ∧ M.isEmpty f = false ∧
        OutsideLiveIslands M pcg entryF ctors f ∧ canFunctionEscape f = false := by
  obtain ⟨islands, live, hislands, hlive, hmem⟩ :=
    exists_functionsToDelete ord hok hfuel hentry hctors canFunctionEscape
  obtain ⟨calls, hcalls, himage, -⟩ := exists_mapM
    (R := fun _ (callInst : Option I) => callInst.any inlineSucceeds = false)
    (f := callToInline M pcg canFunctionEscape) (l := ord.visit pcg.getFunctionNodes.elems)
    fun node hnode => hinline node (ord.mem_visit.mp hnode)
  have hnone : (calls.any fun callInst => callInst.any inlineSucceeds) = false := by
    rw [List.any_eq_false]
    intro callInst hcallInst
    obtain ⟨-, -, hno⟩ := himage callInst hcallInst
    exact (Bool.not_eq_true _).mpr hno
  refine ⟨_, ?_, hmem⟩
  refine bind_eq_some_iff.mpr ⟨calls, hcalls, ?_⟩
  rw [hnone, if_neg Bool.false_ne_true]
  exact bind_eq_some_iff.mpr ⟨islands, hislands,
    bind_eq_some_iff.mpr ⟨live, hlive, rfl⟩⟩

omit [DecidableEq I] in
theorem callToInline_of_escape {node : CallGraphFunctionNode F}
    (h : canFunctionEscape node.f = true) : callToInline M pcg canFunctionEscape node = some none := by
  unfold callToInline
  dsimp only
  rw [h]
  split
  · rfl
  · split
    · rfl
    · rfl

/-- The pass as it stands eliminates nothing. -/
theorem runOnModule_spec (ord : IterOrder) (hok : pcg.OfModule M.toIRModule) {fuel : Nat}
    (hfuel : 2 * pcg.functions.keys.length + 1 ≤ fuel) (hentry : entryF ∈ M.functions)
    (hctors : ∀ ctor ∈ ctors, ctor ∈ M.functions) (inlineSucceeds : I → Bool) :
    runOnModule M pcg ord fuel inlineSucceeds entryF ctors = some (false, []) := by
  obtain ⟨deleted, hrun, hmem⟩ := runOnModuleWith_spec ord hok hfuel hentry hctors
    (CallGraph.canFunctionEscape M) fun node _ =>
      ⟨none, callToInline_of_escape (CallGraph.canFunctionEscape_eq_true M node.f), rfl⟩
  have hempty : deleted = [] := eq_nil_iff_forall_not_mem.mpr fun f hf => by
    obtain ⟨-, -, -, -, hno⟩ := (hmem f).mp hf
    exact Bool.false_ne_true (hno.symm.trans (CallGraph.canFunctionEscape_eq_true M f))
  subst hempty
  exact hrun

omit [DecidableEq F] [DecidableEq I] in
theorem deletesDead_nil_iff : DeletesDead M pcg entryF ctors [] ↔
    ∀ f, ¬ IsDead M pcg entryF ctors f := by
  constructor
  · intro h f hf
    exact absurd ((h.mem_iff f).mpr hf) not_mem_nil
  · intro h
    exact ⟨fun f => iff_of_false not_mem_nil (h f), nofun⟩

end Deletion

/-- **Dead functions**: the pass deletes exactly the defined functions outside the islands of the entry
function and of the constructors that do not escape, and leaves no use of them, if and only if there
are no such functions. -/
theorem runOnModule_exact_iff {M : ProgramModule F I} {pcg : CallGraph F I} {entryF : F}
    {ctors : PtrSet F} (ord : IterOrder) (hok : pcg.OfModule M.toIRModule) {fuel : Nat}
    (hfuel : 2 * pcg.functions.keys.length + 1 ≤ fuel) (hentry : entryF ∈ M.functions)
    (hctors : ∀ ctor ∈ ctors, ctor ∈ M.functions) (inlineSucceeds : I → Bool) :
    ∃ modified deleted, runOnModule M pcg ord fuel inlineSucceeds entryF ctors =
        some (modified, deleted) ∧
      (DeletesDead M pcg entryF ctors deleted ↔ ∀ f ∈ M.functions, ¬ IsDead M pcg entryF ctors f) := by
  refine ⟨false, [], runOnModule_spec ord hok hfuel hentry hctors inlineSucceeds, ?_⟩
  rw [deletesDead_nil_iff]
  exact ⟨fun h f _ => h f, fun h f hf => h f hf.mem hf⟩

/-- The module of four functions; the last one has no uses. -/
def addressTakenProgram (isEmpty : Nat → Bool) : ProgramModule Nat Nat where
  toIRModule := CallGraph.addressTaken
  isIntrinsic _ := false
  isEmpty := isEmpty
  callArguments i := if i = 10 then some [] else none
  isStoreInst i := decide (i = 11)

/-- The first function calls the second one and uses the address of the third one. -/
theorem connected_addressTaken : ∀ f ∈ [1, 2, 3],
    CallGraph.addressTakenGraph.Connected CallGraph.addressTaken f 1 := by
  have hcalls : CallGraph.addressTakenGraph.edges.elems.any
      (fun e => decide (e.caller.f = 1) && decide (e.callee.f = 2)) = true := by decide +kernel
  obtain ⟨e, he, hends⟩ := any_eq_true.mp hcalls
  rw [Bool.and_eq_true, decide_eq_true_eq, decide_eq_true_eq] at hends
  intro f hf
  rcases mem_cons.mp hf with rfl | hf
  · exact .refl _
  rcases mem_cons.mp hf with rfl | hf
  · exact .symm _ _ (.rel _ _ (.inl ⟨e, he, hends⟩))
  · obtain rfl := mem_singleton.mp hf
    exact .symm _ _ (.rel _ _ (.inr ⟨by decide, ⟨some 11, false⟩, .head _, rfl, 11, rfl, rfl⟩))

theorem not_connected_addressTaken :
    ¬ CallGraph.addressTakenGraph.Connected CallGraph.addressTaken 4 1 := by
  have hcalls : (CallGraph.addressTakenGraph.edges.elems.all
      fun e => decide (e.caller.f ≠ 4) && decide (e.callee.f ≠ 4)) = true := by decide +kernel
  have huses : CallGraph.addressTaken.uses 4 = [] := rfl
  have hclosed : ClosedUnder (fun a b => CallGraph.addressTakenGraph.CallsFunction a b ∨
      CallGraph.UsesAddress CallGraph.addressTaken a b) (· = 4) := by
    rintro a b (⟨e, he, rfl, rfl⟩ | ⟨-, use, huse, -, i, -, rfl⟩)
    · have hends := all_eq_true.mp hcalls e he
      rw [Bool.and_eq_true, decide_eq_true_eq, decide_eq_true_eq] at hends
      exact iff_of_false hends.1 hends.2
    · refine iff_of_false (show ¬ 1 = 4 by decide) ?_
      rintro rfl
      rw [huses] at huse
      exact not_mem_nil huse
  intro hconn
  exact absurd ((hclosed.eqvGen hconn).mp rfl) (by decide)

theorem one_mem_addressTaken : 1 ∈ CallGraph.addressTaken.functions := by decide

theorem noConstructors : ∀ ctor ∈ (∅ : PtrSet Nat), ctor ∈ CallGraph.addressTaken.functions :=
  fun ctor h => absurd h (PtrSet.not_mem_empty ctor)

/-- The last function is declared only. -/
theorem runOnModule_exact_declaration : ∃ modified deleted,
    runOnModule (addressTakenProgram fun f => decide (f = 4)) CallGraph.addressTakenGraph .stored 9
        (fun _ => false) 1 ∅ = some (modified, deleted) ∧
      DeletesDead (addressTakenProgram fun f => decide (f = 4)) CallGraph.addressTakenGraph 1 ∅ deleted := by
  obtain ⟨modified, deleted, hrun, hiff⟩ :=
    runOnModule_exact_iff (M := addressTakenProgram fun f => decide (f = 4)) .stored
      CallGraph.addressTakenGraph_ofModule (by decide +kernel : _ ≤ 9) one_mem_addressTaken
      noConstructors fun _ => false
  refine ⟨modified, deleted, hrun, hiff.mpr fun f hf hdead => ?_⟩
  have hmem : f ∈ [1, 2, 3, 4] := hf
  rcases mem_append.mp (show f ∈ [1, 2, 3] ++ [4] from hmem) with hf | hf
  · exact hdead.outside.1 (connected_addressTaken f hf)
  · have hempty := hdead.not_empty
    rw [mem_singleton.mp hf] at hempty
    exact Bool.false_ne_true hempty.symm

/-- The last function is defined, and it is not deleted. -/
theorem not_deletesDead_uncalled : ∃ modified deleted,
    runOnModule (addressTakenProgram fun _ => false) CallGraph.addressTakenGraph .stored 9
        (fun _ => false) 1 ∅ = some (modified, deleted) ∧
      ¬ DeletesDead (addressTakenProgram fun _ => false) CallGraph.addressTakenGraph 1 ∅ deleted := by
  have hrun := runOnModule_spec (M := addressTakenProgram fun _ => false) .stored
    CallGraph.addressTakenGraph_ofModule (by decide +kernel : _ ≤ 9) one_mem_addressTaken
    noConstructors fun _ => false
  refine ⟨false, [], hrun, fun hdeletes => deletesDead_nil_iff.mp hdeletes 4 ?_⟩
  refine ⟨by decide, rfl, rfl, ⟨not_connected_addressTaken, fun ctor h => ?_⟩, fun use huse => ?_⟩
  · exact absurd h (PtrSet.not_mem_empty ctor)
  · nomatch huse

end DeadFunctionEliminator

end Noelle
