import Noelle.PDGGenerator.Calls

/-!
# PDGGenerator.Locations

Memory dependences between a load or a store and a call.

The edges of both directions come from one mod/ref answer.  Calls that free memory have no edge,
and no edge leads from a load or a store to a call that allocates: the memory that it returns is
new.
-/

namespace Noelle

open Relation List

namespace PDGGenerator

variable {B L : Type} {AA : AAResults B} {F : MemoryFunction B} {call m : Instruction B}
  {t : DataDependenceType}

/-! ## The edges of an answer -/

theorem mem_types_store (hfree : isDeallocator (F.inst call) = false) (addEdgeFromCall : Bool) :
    t ∈ (addEdgeFromFunctionModRefStore AA [] F call m addEdgeFromCall).map (·.type) ↔
      (addEdgeFromCall = true ∨ isAllocator (F.inst call) = false) ∧
        ((t = (if addEdgeFromCall then .war else .raw) ∧
            (AA.locationInfo call m).isRefSet = true) ∨
          (t = .waw ∧ (AA.locationInfo call m).isModSet = true)) := by
  unfold addEdgeFromFunctionModRefStore
  rw [hfree]
  cases addEdgeFromCall <;> cases isAllocator (F.inst call) <;>
    cases AA.locationInfo call m <;>
      simp [bitsOf, unlessDenied, isThereThisMemoryDataDependenceType, ModRefInfo.isRefSet,
        ModRefInfo.isModSet]

theorem mem_types_load (hfree : isDeallocator (F.inst call) = false) (addEdgeFromCall : Bool) :
    t ∈ (addEdgeFromFunctionModRefLoad AA [] F call m addEdgeFromCall).map (·.type) ↔
      (addEdgeFromCall = true ∨ isAllocator (F.inst call) = false) ∧
        t = (if addEdgeFromCall then .raw else .war) ∧
          (AA.locationInfo call m).isModSet = true := by
  unfold addEdgeFromFunctionModRefLoad
  rw [hfree]
  cases addEdgeFromCall <;> cases isAllocator (F.inst call) <;>
    cases (AA.locationInfo call m).isModSet <;>
      simp [unlessDenied, isThereThisMemoryDataDependenceType]

/-! ## The edges of two instructions -/

section Pair

variable [DecidableEq B]

section

variable (hcall : (F.inst call).isCall = true) (hm : (F.inst m).hasLocation = true)
  (hfree : isDeallocator (F.inst call) = false)

include hcall hm hfree

theorem mem_types_fromCall {reachable : Bool} :
    t ∈ (edgesOfPair AA [] F call m reachable).map (·.type) ↔
      (F.inst m = .store ∧ ((t = .war ∧ (AA.locationInfo call m).isRefSet = true) ∨
        (t = .waw ∧ (AA.locationInfo call m).isModSet = true))) ∨
      (F.inst m = .load ∧ t = .raw ∧ (AA.locationInfo call m).isModSet = true) := by
  unfold edgesOfPair canThereBeAMemoryDataDependence
  cases hinst : F.inst call <;> simp only [hinst, MemoryInst.isCall, Bool.false_eq_true] at hcall
  cases hinst' : F.inst m <;>
    simp only [hinst', MemoryInst.hasLocation, Bool.false_eq_true] at hm
  · simpa using @mem_types_load _ AA _ _ _ t hfree true
  · simpa using @mem_types_store _ AA _ _ _ t hfree true

theorem mem_types_toCall {reachable : Bool} :
    t ∈ (edgesOfPair AA [] F m call reachable).map (·.type) ↔
      isAllocator (F.inst call) = false ∧
      ((F.inst m = .store ∧ ((t = .raw ∧ (AA.locationInfo call m).isRefSet = true) ∨
        (t = .waw ∧ (AA.locationInfo call m).isModSet = true))) ∨
      (F.inst m = .load ∧ t = .war ∧ (AA.locationInfo call m).isModSet = true)) := by
  unfold edgesOfPair canThereBeAMemoryDataDependence
  cases hinst : F.inst call <;> simp only [hinst, MemoryInst.isCall, Bool.false_eq_true] at hcall
  cases hinst' : F.inst m <;>
    simp only [hinst', MemoryInst.hasLocation, Bool.false_eq_true] at hm
  · simpa [hinst] using @mem_types_load _ AA _ _ _ t hfree false
  · simpa [hinst] using @mem_types_store _ AA _ _ _ t hfree false

end

end Pair

/-! ## The edges of sound answers -/

section Sound

variable {runs : MemoryRun B L → Prop}

/-- A call and a located access that happen together are answered for. -/
theorem answered_fromCall (hsound : AA.Sound F runs) (hshape : LoadsAndStores F runs)
    (hcall : (F.inst call).isCall = true) (hm : (F.inst m).hasLocation = true)
    (hdep : AccessTogether runs t call m) :
    (F.inst m = .store ∧ ((t = .war ∧ (AA.locationInfo call m).isRefSet = true) ∨
        (t = .waw ∧ (AA.locationInfo call m).isModSet = true))) ∨
      (F.inst m = .load ∧ t = .raw ∧ (AA.locationInfo call m).isModSet = true) := by
  obtain ⟨run, hrun, a, b, hboth, rfl, rfl, hdep⟩ := hdep
  have hb : b ∈ run := hboth.symm.mem
  cases hinst : F.inst b.inst <;> simp only [hinst, MemoryInst.hasLocation, Bool.false_eq_true] at hm
  · have hwrites := hshape.load_writes run hrun b hb hinst
    cases t with
    | raw =>
        obtain ⟨x, ha, hx⟩ := hdep
        exact .inr ⟨rfl, rfl, hsound.location_mod run hrun a b hboth hcall (by rw [hinst]; rfl) x ha
          (.inl hx)⟩
    | war =>
        obtain ⟨x, _, hx⟩ := hdep
        exact absurd hx (hwrites x)
    | waw =>
        obtain ⟨x, _, hx⟩ := hdep
        exact absurd hx (hwrites x)
  · have hreads := hshape.store_reads run hrun b hb hinst
    cases t with
    | raw =>
        obtain ⟨x, _, hx⟩ := hdep
        exact absurd hx (hreads x)
    | war =>
        obtain ⟨x, ha, hx⟩ := hdep
        exact .inl ⟨rfl, .inl ⟨rfl, hsound.location_ref run hrun a b hboth hcall
          (by rw [hinst]; rfl) x ha (.inr hx)⟩⟩
    | waw =>
        obtain ⟨x, ha, hx⟩ := hdep
        exact .inl ⟨rfl, .inr ⟨rfl, hsound.location_mod run hrun a b hboth hcall
          (by rw [hinst]; rfl) x ha (.inr hx)⟩⟩

/-- A dependence of a load or store and a call has its edges, in the directions in which the
graph connects them.  No edge leads to a call that only returns new memory. -/
theorem constructEdges_location [DecidableEq B] (ord : IterOrder) (AA : AAResults B)
    (F : MemoryFunction B) {runs : MemoryRun B L → Prop} (hsound : AA.Sound F runs)
    (hshape : LoadsAndStores F runs) {m call : Instruction B} (hm : (F.inst m).hasLocation = true)
    (hcall : (F.inst call).isCall = true) (haccess : canAccessMemory (F.inst call) = true)
    (hfree : isDeallocator (F.inst call) = false) :
    ∃ N, ∀ fuel ≥ N, ∃ edges, constructEdgesFromAliasesForFunction ord AA [] F fuel = some edges ∧
      (∀ t, AccessTogether runs t call m → TransGen F.cfg.Succ call m →
        HasDependence edges t call m) ∧
      (isAllocator (F.inst call) = false → ∀ t, AccessTogether runs t m call →
        TransGen F.cfg.Succ m call → HasDependence edges t m call) ∧
      (isAllocator (F.inst call) = true → isReallocator (F.inst call) = false →
        ∀ t, ¬ HasDependence edges t m call) := by
  obtain ⟨N, hN⟩ := constructEdgesFromAliasesForFunction_spec ord AA [] F
  refine ⟨N, fun fuel hfuel => ?_⟩
  obtain ⟨edges, hrun, hedges⟩ := hN fuel hfuel
  have hmaccess : canAccessMemory (F.inst m) = true := by
    cases hinst : F.inst m <;> simp [hinst, MemoryInst.hasLocation] at hm <;> rfl
  have hreachable : ∀ i j, ∃ reachable : Bool, (reachable = true ↔ TransGen F.cfg.Succ i j) :=
    fun i j => by
      classical
      exact ⟨_, decide_eq_true_iff⟩
  refine ⟨edges, hrun, fun t hdep hreach => ?_, fun halloc t hdep hreach => ?_,
    fun halloc _ t hdep => ?_⟩
  · obtain ⟨reachable, hiff⟩ := hreachable m call
    exact (hasDependence_iff hedges hreach).mpr ⟨haccess, hmaccess, reachable, hiff,
      (mem_types_fromCall hcall hm hfree).mpr (answered_fromCall hsound hshape hcall hm hdep)⟩
  · obtain ⟨reachable, hiff⟩ := hreachable call m
    have hanswered := answered_fromCall hsound hshape hcall hm hdep.reverse
    refine (hasDependence_iff hedges hreach).mpr ⟨hmaccess, haccess, reachable, hiff,
      (mem_types_toCall hcall hm hfree).mpr ⟨halloc, ?_⟩⟩
    cases t <;> simpa [DataDependenceType.reverse] using hanswered
  · obtain ⟨e, he, rfl, rfl, rfl⟩ := hdep
    have hreach := ((hedges e).mp he).1
    obtain ⟨-, -, reachable, -, ht⟩ := (hasDependence_iff hedges hreach).mp ⟨e, he, rfl, rfl, rfl⟩
    have hnot := ((mem_types_toCall hcall hm hfree).mp ht).1
    exact Bool.noConfusion (halloc.symm.trans hnot)

end Sound

/-! ## A loop that allocates -/

/-- `0 → 1`, `1 → 1` and `1 → 2`; the block `1` has three instructions. -/
def callStoreCFG : CFG (Fin 3) where
  blocks := [0, 1, 2]
  size := ![1, 3, 1]
  successors := ![[1], [1, 2], []]
  predecessors := ![[], [0, 1], [1]]
  size_pos := CFG.selfLoop_size_pos
  successors_mem := CFG.selfLoop_successors_mem
  predecessors_mem := CFG.selfLoop_predecessors_mem
  mem_predecessors := CFG.selfLoop_mem_predecessors

/-- The block `1` calls the function, then it stores. -/
def callStoreFunction (callee : Callee) : MemoryFunction (Fin 3) where
  cfg := callStoreCFG
  inst i :=
    if i = ⟨1, 0⟩ then .call (some callee) false
    else if i = ⟨1, 1⟩ then .store
    else .other

/-- The alias analyses know nothing. -/
def unknownAnswers : AAResults (Fin 3) where
  callInfo _ _ := .ModRef
  locationInfo _ _ := .ModRef
  sameLocation _ _ := false
  aliasLocations _ _ := .MayAlias
  aliasFreed _ _ := .MayAlias

/-- One iteration: the call writes the location, then the store does. -/
def callStoreRuns (run : MemoryRun (Fin 3) Unit) : Prop :=
  run = [⟨⟨1, 0⟩, fun _ => False, fun _ => True⟩, ⟨⟨1, 1⟩, fun _ => False, fun _ => True⟩]

theorem unknownAnswers_sound (F : MemoryFunction (Fin 3)) {runs : MemoryRun (Fin 3) L → Prop} :
    unknownAnswers.Sound F runs :=
  ⟨fun _ _ _ _ _ _ _ _ _ _ => rfl, fun _ _ _ _ _ _ _ _ _ _ => rfl,
    fun _ _ _ _ _ _ _ _ _ _ => rfl, fun _ _ _ _ _ _ _ _ _ _ => rfl⟩

theorem callStore_shape (callee : Callee) :
    LoadsAndStores (callStoreFunction callee) callStoreRuns := by
  constructor
  · rintro run rfl a ha hload x -
    simp only [mem_cons, not_mem_nil, or_false] at ha
    rcases ha with rfl | rfl <;> simp [callStoreFunction] at hload
  · rintro run rfl a ha - x hreads
    simp only [mem_cons, not_mem_nil, or_false] at ha
    rcases ha with rfl | rfl <;> exact hreads

theorem callStore_together : AccessTogether callStoreRuns .waw ⟨1, 1⟩ ⟨1, 0⟩ :=
  ⟨_, rfl, _, _, .inr (List.Sublist.refl _), rfl, rfl, (), trivial, trivial⟩

theorem callStore_reach (callee : Callee) :
    TransGen (callStoreFunction callee).cfg.Succ ⟨1, 1⟩ ⟨1, 0⟩ := by
  have hnext : callStoreCFG.Succ ⟨1, 1⟩ ⟨1, 2⟩ :=
    ⟨⟨by decide, by decide⟩, .inl ⟨by decide, rfl⟩⟩
  have hback : callStoreCFG.Succ ⟨1, 2⟩ ⟨1, 0⟩ :=
    ⟨⟨by decide, by decide⟩, .inr ⟨by decide, 1, by decide, rfl⟩⟩
  exact .tail (.single hnext) hback

/-- `calloc` writes the memory of the store and is reachable from it, but no dependence leads to
it. -/
theorem calloc_independent :
    unknownAnswers.Sound (callStoreFunction ⟨"calloc", true⟩) callStoreRuns ∧
      LoadsAndStores (callStoreFunction ⟨"calloc", true⟩) callStoreRuns ∧
      AccessTogether callStoreRuns .waw ⟨1, 1⟩ ⟨1, 0⟩ ∧
      TransGen (callStoreFunction ⟨"calloc", true⟩).cfg.Succ ⟨1, 1⟩ ⟨1, 0⟩ ∧
      ∃ edges, constructEdgesFromAliasesForFunction .stored unknownAnswers []
          (callStoreFunction ⟨"calloc", true⟩) 20 = some edges ∧
        ¬ HasDependence edges .waw ⟨1, 1⟩ ⟨1, 0⟩ := by
  have hrun : (constructEdgesFromAliasesForFunction .stored unknownAnswers []
      (callStoreFunction ⟨"calloc", true⟩) 20).map (fun edges => decide
        (∃ e ∈ edges, e.src = ⟨1, 1⟩ ∧ e.dst = ⟨1, 0⟩ ∧ e.type = .waw)) = some false := by
    decide +kernel
  obtain ⟨edges, hedges, hmissing⟩ := Option.map_eq_some_iff.mp hrun
  exact ⟨unknownAnswers_sound _, callStore_shape _, callStore_together, callStore_reach _, edges,
    hedges, decide_eq_false_iff_not.mp hmissing⟩

/-- The dependences of a call of another function. -/
theorem callStore_location :
    unknownAnswers.Sound (callStoreFunction ⟨"touch", false⟩) callStoreRuns ∧
      AccessTogether callStoreRuns .waw ⟨1, 1⟩ ⟨1, 0⟩ ∧
      TransGen (callStoreFunction ⟨"touch", false⟩).cfg.Succ ⟨1, 1⟩ ⟨1, 0⟩ ∧
      ∃ N, ∀ fuel ≥ N, ∃ edges, constructEdgesFromAliasesForFunction .stored unknownAnswers []
          (callStoreFunction ⟨"touch", false⟩) fuel = some edges ∧
        HasDependence edges .waw ⟨1, 1⟩ ⟨1, 0⟩ := by
  refine ⟨unknownAnswers_sound _, callStore_together, callStore_reach _, ?_⟩
  have hm : ((callStoreFunction ⟨"touch", false⟩).inst ⟨1, 1⟩).hasLocation = true := rfl
  have hcall : ((callStoreFunction ⟨"touch", false⟩).inst ⟨1, 0⟩).isCall = true := rfl
  obtain ⟨N, hN⟩ := constructEdges_location .stored unknownAnswers
    (callStoreFunction ⟨"touch", false⟩) (unknownAnswers_sound _) (callStore_shape _) hm hcall
    (by decide) (by decide)
  refine ⟨N, fun fuel hfuel => ?_⟩
  obtain ⟨edges, hrun, -, htoCall, -⟩ := hN fuel hfuel
  exact ⟨edges, hrun, htoCall (by decide) .waw callStore_together (callStore_reach _)⟩

end PDGGenerator

end Noelle
