import Noelle.PDGGenerator.Executions

/-!
# PDGGenerator.Calls

Memory dependences between two calls.

`addEdgeFromFunctionModRef` decides by two mod/ref answers and by whether the first call is
reachable from the second one.  Where the second call may read and write and the first one may
only read, no branch adds the WAR dependence.
-/

namespace Noelle

open Relation

namespace PDGGenerator

variable {B L : Type} [DecidableEq B] {AA : AAResults B} {F : MemoryFunction B}

def HasDependence (edges : List (MemoryDependence B)) (t : DataDependenceType)
    (src dst : Instruction B) : Prop :=
  ∃ e ∈ edges, e.src = src ∧ e.dst = dst ∧ e.type = t

/-- No branch gives up the dependence of two calls.  If the answer for `otherCall` is that it may
read and write, a WAR dependence needs a path back and the answer that `call` may write. -/
structure KeepsCallDependence (AA : AAResults B) (F : MemoryFunction B) (t : DataDependenceType)
    (call otherCall : Instruction B) : Prop where
  call_accesses : canAccessMemory (F.inst call) = true
  otherCall_accesses : canAccessMemory (F.inst otherCall) = true
  not_allocators : ¬ (isAllocator (F.inst call) = true ∧ isAllocator (F.inst otherCall) = true ∧
    isReallocator (F.inst call) = false ∧ isReallocator (F.inst otherCall) = false)
  not_freed : freesAnotherObject AA F call otherCall = false
  war : t = .war → (AA.callInfo otherCall call).isRefSet = true →
    TransGen F.cfg.Succ otherCall call ∧ (AA.callInfo call otherCall).isModSet = true

/-! ## The decision tree -/

/-- What sound answers say of two calls with a dependence of the type. -/
def Answered (t : DataDependenceType) (otherToCall callToOther : ModRefInfo) : Prop :=
  match t with
  | .raw => otherToCall.isRefSet = true ∧ callToOther.isModSet = true
  | .war => otherToCall.isModSet = true ∧ callToOther.isRefSet = true
  | .waw => otherToCall.isModSet = true ∧ callToOther.isModSet = true

variable {call otherCall : Instruction B} {t : DataDependenceType} {reachable : Bool}

omit [DecidableEq B] in
theorem answered {runs : MemoryRun B L → Prop} (hsound : AA.Sound F runs)
    (hcall : (F.inst call).isCall = true) (hother : (F.inst otherCall).isCall = true)
    (hdep : AccessTogether runs t call otherCall) :
    Answered t (AA.callInfo otherCall call) (AA.callInfo call otherCall) := by
  obtain ⟨run, hrun, a, b, hboth, rfl, rfl, hdep⟩ := hdep
  cases t with
  | raw =>
      obtain ⟨x, ha, hb⟩ := hdep
      exact ⟨hsound.call_ref run hrun b a hboth.symm hother hcall x hb ha,
        hsound.call_mod run hrun a b hboth hcall hother x ha (.inl hb)⟩
  | war =>
      obtain ⟨x, ha, hb⟩ := hdep
      exact ⟨hsound.call_mod run hrun b a hboth.symm hother hcall x hb (.inl ha),
        hsound.call_ref run hrun a b hboth hcall hother x ha hb⟩
  | waw =>
      obtain ⟨x, ha, hb⟩ := hdep
      exact ⟨hsound.call_mod run hrun b a hboth.symm hother hcall x hb (.inr ha),
        hsound.call_mod run hrun a b hboth hcall hother x ha (.inr hb)⟩

/-- The types of the edges that the answers of the queries lead to. -/
def typesOfQuery (same : Bool) : Option (ModRefBits × ModRefBits) → List DataDependenceType
  | none => []
  | some (bv, rbv) =>
      if bv.ref && bv.mod then []
      else if bv.ref then [.raw] ++ if same then [.war] else []
      else if bv.mod then
        if rbv.ref && rbv.mod then []
        else if rbv.ref then if same then [] else [.war]
        else if rbv.mod then [.waw]
        else if same then []
        else [.war, .waw]
      else if rbv.ref then []
      else if rbv.mod then if same then [] else [.raw, .waw]
      else if rbv.modRef then [.raw, .waw, .war]
      else if same then []
      else [.raw, .waw]

theorem callEdges_of_guard
    (hguard : (isAllocator (F.inst call) = true ∧ isAllocator (F.inst otherCall) = true ∧
      isReallocator (F.inst call) = false ∧ isReallocator (F.inst otherCall) = false) ∨
      freesAnotherObject AA F call otherCall = true) :
    addEdgeFromFunctionModRef AA [] F call otherCall reachable = [] := by
  unfold addEdgeFromFunctionModRef
  rcases hguard with ⟨h₁, h₂, h₃, h₄⟩ | hfreed
  · rw [if_pos (by simp [h₁, h₂, h₃, h₄])]
  · rw [hfreed, if_pos rfl, ite_self]

theorem types_callEdges
    (hallocators : ¬ (isAllocator (F.inst call) = true ∧ isAllocator (F.inst otherCall) = true ∧
      isReallocator (F.inst call) = false ∧ isReallocator (F.inst otherCall) = false))
    (hfreed : freesAnotherObject AA F call otherCall = false) :
    (addEdgeFromFunctionModRef AA [] F call otherCall reachable).map (·.type) =
      typesOfQuery (decide (otherCall = call)) (queryModRef AA call otherCall reachable) := by
  have hguard : ¬ ((isAllocator (F.inst call) && isAllocator (F.inst otherCall) &&
      !isReallocator (F.inst call) && !isReallocator (F.inst otherCall)) = true) := by
    simpa [and_assoc] using hallocators
  unfold addEdgeFromFunctionModRef
  rw [if_neg hguard, if_neg (by simp [hfreed])]
  cases queryModRef AA call otherCall reachable with
  | none => rfl
  | some query =>
      obtain ⟨⟨ref, mod, modRef⟩, ⟨rref, rmod, rmodRef⟩⟩ := query
      by_cases hsame : otherCall = call <;>
        cases ref <;> cases mod <;> cases rref <;> cases rmod <;> cases rmodRef <;>
          simp [typesOfQuery, unlessDenied, isThereThisMemoryDataDependenceType, hsame]

/-- The tree adds the type that the answers admit, unless it is the WAR type with a second call
that may read and write and the queries do not see that the first one may write. -/
theorem mem_typesOfQuery (hself : otherCall = call → reachable = true)
    (hanswered : Answered t (AA.callInfo otherCall call) (AA.callInfo call otherCall)) :
    t ∈ typesOfQuery (decide (otherCall = call)) (queryModRef AA call otherCall reachable) ↔
      ¬ (t = .war ∧ (AA.callInfo otherCall call).isRefSet = true ∧
        ¬ (reachable = true ∧ (AA.callInfo call otherCall).isModSet = true)) := by
  have hsame : otherCall = call → AA.callInfo otherCall call = AA.callInfo call otherCall := by
    rintro rfl
    rfl
  unfold queryModRef
  revert hanswered hsame hself
  generalize decide_eq : decide (otherCall = call) = same
  rw [← decide_eq_true_iff (p := otherCall = call), decide_eq]
  generalize AA.callInfo otherCall call = otherToCall
  generalize AA.callInfo call otherCall = callToOther
  clear decide_eq
  revert same reachable
  unfold Answered
  cases t <;> cases otherToCall <;> cases callToOther <;> dsimp only <;> decide

/-! ## The edges of two calls -/

theorem hasDependence_iff {ddAnalyses : List (DependenceAnalysis B)}
    {edges : List (MemoryDependence B)}
    (hedges : ∀ e : MemoryDependence B, e ∈ edges ↔
      TransGen F.cfg.Succ e.src e.dst ∧ canAccessMemory (F.inst e.src) = true ∧
        canAccessMemory (F.inst e.dst) = true ∧
        ∃ reachable : Bool, (reachable = true ↔ TransGen F.cfg.Succ e.dst e.src) ∧
          e ∈ edgesOfPair AA ddAnalyses F e.src e.dst reachable) {i j : Instruction B} (hreach : TransGen F.cfg.Succ i j) :
    HasDependence edges t i j ↔ canAccessMemory (F.inst i) = true ∧
      canAccessMemory (F.inst j) = true ∧
      ∃ reachable : Bool, (reachable = true ↔ TransGen F.cfg.Succ j i) ∧
        t ∈ (edgesOfPair AA ddAnalyses F i j reachable).map (·.type) := by
  constructor
  · rintro ⟨e, he, rfl, rfl, rfl⟩
    obtain ⟨-, hi, hj, reachable, hreachable, hpair⟩ := (hedges e).mp he
    exact ⟨hi, hj, reachable, hreachable, List.mem_map.mpr ⟨e, hpair, rfl⟩⟩
  · rintro ⟨hi, hj, reachable, hreachable, ht⟩
    obtain ⟨e, hpair, rfl⟩ := List.mem_map.mp ht
    obtain ⟨rfl, rfl⟩ := allFromTo_edgesOfPair e hpair
    exact ⟨e, (hedges e).mpr ⟨hreach, hi, hj, reachable, hreachable, hpair⟩, rfl, rfl, rfl⟩

theorem edgesOfPair_calls (hcall : (F.inst call).isCall = true)
    (hother : (F.inst otherCall).isCall = true) :
    edgesOfPair AA [] F call otherCall reachable =
      addEdgeFromFunctionModRef AA [] F call otherCall reachable := by
  unfold edgesOfPair
  cases hinst : F.inst call <;> simp [hinst, MemoryInst.isCall] at hcall
  cases hinst' : F.inst otherCall <;> simp [hinst', MemoryInst.isCall] at hother
  rfl

/-- A dependence of two calls that some run makes is in the graph if and only if no branch gives
it up. -/
theorem constructEdges_call_iff (ord : IterOrder) (AA : AAResults B) (F : MemoryFunction B)
    {runs : MemoryRun B L → Prop} (hsound : AA.Sound F runs) {call otherCall : Instruction B}
    (hcall : (F.inst call).isCall = true) (hother : (F.inst otherCall).isCall = true)
    (hreach : TransGen F.cfg.Succ call otherCall) {t : DataDependenceType}
    (hdep : DependsLater runs t call otherCall) :
    ∃ N, ∀ fuel ≥ N, ∃ edges, constructEdgesFromAliasesForFunction ord AA [] F fuel = some edges ∧
      (HasDependence edges t call otherCall ↔ KeepsCallDependence AA F t call otherCall) := by
  obtain ⟨N, hN⟩ := constructEdgesFromAliasesForFunction_spec ord AA [] F
  refine ⟨N, fun fuel hfuel => ?_⟩
  obtain ⟨edges, hrun, hedges⟩ := hN fuel hfuel
  refine ⟨edges, hrun, ?_⟩
  rw [hasDependence_iff hedges hreach]
  simp only [edgesOfPair_calls hcall hother]
  have hanswered := answered hsound hcall hother hdep.together
  by_cases hguard : (isAllocator (F.inst call) = true ∧ isAllocator (F.inst otherCall) = true ∧
      isReallocator (F.inst call) = false ∧ isReallocator (F.inst otherCall) = false) ∨
      freesAnotherObject AA F call otherCall = true
  · refine iff_of_false ?_ fun hkeeps => ?_
    · rintro ⟨-, -, reachable, -, ht⟩
      rw [callEdges_of_guard hguard] at ht
      nomatch ht
    · rcases hguard with hallocators | hfreed
      · exact hkeeps.not_allocators hallocators
      · exact Bool.noConfusion (hfreed.symm.trans hkeeps.not_freed)
  · obtain ⟨hallocators, hfreed⟩ := not_or.mp hguard
    have hfreed : freesAnotherObject AA F call otherCall = false := Bool.eq_false_iff.mpr hfreed
    have htypes : ∀ {reachable : Bool}, (reachable = true ↔ TransGen F.cfg.Succ otherCall call) →
        (t ∈ (addEdgeFromFunctionModRef AA [] F call otherCall reachable).map (·.type) ↔
          (t = .war → (AA.callInfo otherCall call).isRefSet = true →
            TransGen F.cfg.Succ otherCall call ∧
              (AA.callInfo call otherCall).isModSet = true)) := by
      intro reachable hreachable
      have hself : otherCall = call → reachable = true := by
        rintro rfl
        exact hreachable.mpr hreach
      rw [types_callEdges hallocators hfreed, mem_typesOfQuery hself hanswered, hreachable]
      exact ⟨fun h ht href => not_not.mp fun hnot => h ⟨ht, href, hnot⟩,
        fun h ⟨ht, href, hnot⟩ => hnot (h ht href)⟩
    constructor
    · rintro ⟨hcallAccess, hotherAccess, reachable, hreachable, ht⟩
      exact ⟨hcallAccess, hotherAccess, hallocators, hfreed, (htypes hreachable).mp ht⟩
    · intro hkeeps
      classical
      have hreachable : decide (TransGen F.cfg.Succ otherCall call) = true ↔
          TransGen F.cfg.Succ otherCall call := decide_eq_true_iff
      exact ⟨hkeeps.call_accesses, hkeeps.otherCall_accesses, _, hreachable,
        (htypes hreachable).mpr hkeeps.war⟩

/-! ## A call that reads before one that writes -/

def getSetCFG : CFG Unit where
  blocks := [()]
  size _ := 3
  successors _ := []
  predecessors _ := []
  size_pos := by decide
  successors_mem := CFG.return_successors_mem
  predecessors_mem := CFG.return_successors_mem
  mem_predecessors := CFG.return_mem_predecessors

/-- `get(); set(); return`. -/
def getSetFunction : MemoryFunction Unit where
  cfg := getSetCFG
  inst i :=
    if i.index = 0 then .call (some ⟨"get", false⟩) false
    else if i.index = 1 then .call (some ⟨"set", false⟩) false
    else .other

/-- `set` may read and write what `get` accesses, and `get` may read what `set` writes. -/
def getSetAnswers : AAResults Unit where
  callInfo i _ := if i.index = 1 then .ModRef else .Ref
  locationInfo _ _ := .ModRef
  sameLocation _ _ := false
  aliasLocations _ _ := .MayAlias
  aliasFreed _ _ := .MayAlias

/-- `get` reads the location, then `set` writes it. -/
def getSetRuns (run : MemoryRun Unit Unit) : Prop :=
  run = [⟨⟨(), 0⟩, fun _ => True, fun _ => False⟩, ⟨⟨(), 1⟩, fun _ => False, fun _ => True⟩]

theorem getSetRuns_mem {run : MemoryRun Unit Unit} (hrun : getSetRuns run)
    {a b : MemoryAccess Unit Unit} (h : run.Both a b) :
    (a = ⟨⟨(), 0⟩, fun _ => True, fun _ => False⟩ ∧ b = ⟨⟨(), 1⟩, fun _ => False, fun _ => True⟩) ∨
      (a = ⟨⟨(), 1⟩, fun _ => False, fun _ => True⟩ ∧
        b = ⟨⟨(), 0⟩, fun _ => True, fun _ => False⟩) := by
  subst hrun
  have hpair : ∀ {x y u v : MemoryAccess Unit Unit}, [x, y].Sublist [u, v] → x = u ∧ y = v := by
    intro x y u v hsub
    have heq := hsub.eq_of_length rfl
    simp only [List.cons.injEq, and_true] at heq
    exact heq
  rcases h with h | h
  · exact .inl (hpair h)
  · exact .inr (hpair h).symm

theorem getSetAnswers_sound : getSetAnswers.Sound getSetFunction getSetRuns where
  call_ref run hrun a b hboth _ _ x ha hb := by
    rcases getSetRuns_mem hrun hboth with ⟨rfl, rfl⟩ | ⟨rfl, rfl⟩
    · rfl
    · exact absurd ha id
  call_mod run hrun a b hboth _ _ x ha hb := by
    rcases getSetRuns_mem hrun hboth with ⟨rfl, rfl⟩ | ⟨rfl, rfl⟩
    · exact absurd ha id
    · rfl
  location_ref run hrun a b hboth _ _ x ha hb := rfl
  location_mod run hrun a b hboth _ _ x ha hb := rfl

theorem getSet_depends : DependsLater getSetRuns .war ⟨(), 0⟩ ⟨(), 1⟩ :=
  ⟨_, rfl, _, _, List.Sublist.refl _, rfl, rfl, (), trivial, trivial⟩

theorem getSet_reach : TransGen getSetFunction.cfg.Succ ⟨(), 0⟩ ⟨(), 1⟩ :=
  .single ⟨⟨List.mem_singleton.mpr rfl, by decide⟩, .inl ⟨by decide, rfl⟩⟩

/-- The graph misses the WAR dependence of `set` on `get`. -/
theorem getSet_missing :
    getSetAnswers.Sound getSetFunction getSetRuns ∧
      TransGen getSetFunction.cfg.Succ ⟨(), 0⟩ ⟨(), 1⟩ ∧
      DependsLater getSetRuns .war ⟨(), 0⟩ ⟨(), 1⟩ ∧
      ∃ edges, constructEdgesFromAliasesForFunction .stored getSetAnswers [] getSetFunction 10 =
        some edges ∧ ¬ HasDependence edges .war ⟨(), 0⟩ ⟨(), 1⟩ := by
  have hrun : (constructEdgesFromAliasesForFunction .stored getSetAnswers [] getSetFunction 10).map
      (fun edges => decide (∃ e ∈ edges, e.src = ⟨(), 0⟩ ∧ e.dst = ⟨(), 1⟩ ∧ e.type = .war)) =
        some false := by decide +kernel
  obtain ⟨edges, hedges, hmissing⟩ := Option.map_eq_some_iff.mp hrun
  exact ⟨getSetAnswers_sound, getSet_reach, getSet_depends, edges, hedges,
    decide_eq_false_iff_not.mp hmissing⟩

/-- The condition for the dependence of `set` on `get`. -/
theorem getSet_call_iff :
    getSetAnswers.Sound getSetFunction getSetRuns ∧
      DependsLater getSetRuns .war ⟨(), 0⟩ ⟨(), 1⟩ ∧
      ∃ N, ∀ fuel ≥ N, ∃ edges,
        constructEdgesFromAliasesForFunction .stored getSetAnswers [] getSetFunction fuel =
          some edges ∧
        (HasDependence edges .war ⟨(), 0⟩ ⟨(), 1⟩ ↔
          KeepsCallDependence getSetAnswers getSetFunction .war ⟨(), 0⟩ ⟨(), 1⟩) :=
  ⟨getSetAnswers_sound, getSet_depends, constructEdges_call_iff .stored getSetAnswers getSetFunction
    getSetAnswers_sound rfl rfl getSet_reach getSet_depends⟩

end PDGGenerator

end Noelle
