import Noelle.PDGGenerator.Memory

/-!
# PDGGenerator.Executions

The accesses of the runs of a function, alias analyses that are sound for them, and the edges
of the memory phase as edges of pairs of instructions.
-/

namespace Noelle

open Relation List

/-! ## Runs -/

/-- An execution of an instruction, with the locations that it accesses.  Deallocating a
location writes it. -/
structure MemoryAccess (B L : Type) where
  inst : Instruction B
  reads : L → Prop
  writes : L → Prop

/-- A run of a function: its executions of instructions, in their order. -/
abbrev MemoryRun (B L : Type) := List (MemoryAccess B L)

variable {B L : Type}

/-- The accesses of two executions make a dependence of the type, if `a` is the earlier one. -/
def DataDependenceType.Between (t : DataDependenceType) (a b : MemoryAccess B L) : Prop :=
  match t with
  | .raw => ∃ x, a.writes x ∧ b.reads x
  | .war => ∃ x, a.reads x ∧ b.writes x
  | .waw => ∃ x, a.writes x ∧ b.writes x

/-- Two executions of a run. -/
def MemoryRun.Both (run : MemoryRun B L) (a b : MemoryAccess B L) : Prop :=
  [a, b].Sublist run ∨ [b, a].Sublist run

variable {run : MemoryRun B L} {a b : MemoryAccess B L} {runs : MemoryRun B L → Prop}
  {t : DataDependenceType} {i j : Instruction B}

theorem MemoryRun.Both.symm (h : run.Both a b) :
    run.Both b a := Or.symm h

theorem MemoryRun.Both.mem (h : run.Both a b) :
    a ∈ run :=
  h.elim (fun h => h.subset (.head _))
    fun h => h.subset (.tail b (.head _))

/-- In some run, an execution of `i` and a later one of `j` depend. -/
def DependsLater (runs : MemoryRun B L → Prop) (t : DataDependenceType) (i j : Instruction B) :
    Prop :=
  ∃ run, runs run ∧ ∃ a b : MemoryAccess B L, [a, b].Sublist run ∧ a.inst = i ∧ b.inst = j ∧
    t.Between a b

/-- In some run, an execution of `i` and one of `j`, in any order, access a location as in a
dependence. -/
def AccessTogether (runs : MemoryRun B L → Prop) (t : DataDependenceType) (i j : Instruction B) :
    Prop :=
  ∃ run, runs run ∧ ∃ a b : MemoryAccess B L, run.Both a b ∧ a.inst = i ∧ b.inst = j ∧ t.Between a b

theorem DependsLater.together (h : DependsLater runs t i j) : AccessTogether runs t i j := by
  obtain ⟨run, hrun, a, b, hab, hi, hj, hdep⟩ := h
  exact ⟨run, hrun, a, b, .inl hab, hi, hj, hdep⟩

/-- The type of the accesses in the other order. -/
def DataDependenceType.reverse : DataDependenceType → DataDependenceType
  | .raw => .war
  | .war => .raw
  | .waw => .waw

theorem AccessTogether.reverse
    (h : AccessTogether runs t i j) : AccessTogether runs t.reverse j i := by
  obtain ⟨run, hrun, a, b, hboth, hi, hj, hdep⟩ := h
  refine ⟨run, hrun, b, a, hboth.symm, hj, hi, ?_⟩
  cases t <;>
    · obtain ⟨x, ha, hb⟩ := hdep
      exact ⟨x, hb, ha⟩

/-! ## Sound alias analyses -/

def MemoryInst.isCall : MemoryInst → Bool
  | .call _ _ => true
  | _ => false

/-- A load or a store. -/
def MemoryInst.hasLocation : MemoryInst → Bool
  | .load | .store => true
  | _ => false

/-- What the mod/ref answers promise.  A call may read what the other one writes, or write what
it accesses; it may read or write the location of a load or store. -/
structure AAResults.Sound (AA : AAResults B) (F : MemoryFunction B) (runs : MemoryRun B L → Prop) :
    Prop where
  call_ref : ∀ run, runs run → ∀ a b : MemoryAccess B L, run.Both a b →
    (F.inst a.inst).isCall = true → (F.inst b.inst).isCall = true → ∀ x, a.reads x → b.writes x →
      (AA.callInfo a.inst b.inst).isRefSet = true
  call_mod : ∀ run, runs run → ∀ a b : MemoryAccess B L, run.Both a b →
    (F.inst a.inst).isCall = true → (F.inst b.inst).isCall = true → ∀ x, a.writes x →
      b.reads x ∨ b.writes x → (AA.callInfo a.inst b.inst).isModSet = true
  location_ref : ∀ run, runs run → ∀ a b : MemoryAccess B L, run.Both a b →
    (F.inst a.inst).isCall = true → (F.inst b.inst).hasLocation = true → ∀ x, a.reads x →
      b.reads x ∨ b.writes x → (AA.locationInfo a.inst b.inst).isRefSet = true
  location_mod : ∀ run, runs run → ∀ a b : MemoryAccess B L, run.Both a b →
    (F.inst a.inst).isCall = true → (F.inst b.inst).hasLocation = true → ∀ x, a.writes x →
      b.reads x ∨ b.writes x → (AA.locationInfo a.inst b.inst).isModSet = true

/-- Loads do not write and stores do not read. -/
structure LoadsAndStores (F : MemoryFunction B) (runs : MemoryRun B L → Prop) : Prop where
  load_writes : ∀ run, runs run → ∀ a ∈ run, F.inst a.inst = .load → ∀ x, ¬ a.writes x
  store_reads : ∀ run, runs run → ∀ a ∈ run, F.inst a.inst = .store → ∀ x, ¬ a.reads x

/-! ## The edges of a pair -/

namespace PDGGenerator

variable [DecidableEq B] (ord : IterOrder) (AA : AAResults B)
  (ddAnalyses : List (DependenceAnalysis B)) (F : MemoryFunction B)

/-- The edges from `I` to `J`, which is reachable from it. -/
def edgesOfPair (I J : Instruction B) (isIReachableFromJ : Bool) : List (MemoryDependence B) :=
  if !canThereBeAMemoryDataDependence ddAnalyses I J then []
  else
    match F.inst I, F.inst J with
    | .store, .store => addEdgeFromMemoryAlias AA I J .waw
    | .store, .load => addEdgeFromMemoryAlias AA I J .raw
    | .store, .call _ _ => addEdgeFromFunctionModRefStore AA ddAnalyses F J I false
    | .load, .store => addEdgeFromMemoryAlias AA I J .war
    | .load, .call _ _ => addEdgeFromFunctionModRefLoad AA ddAnalyses F J I false
    | .call _ _, .store => addEdgeFromFunctionModRefStore AA ddAnalyses F I J true
    | .call _ _, .load => addEdgeFromFunctionModRefLoad AA ddAnalyses F I J true
    | .call _ _, .call _ _ => addEdgeFromFunctionModRef AA ddAnalyses F I J isIReachableFromJ
    | _, _ => []

variable {ord AA ddAnalyses F}

def AllFromTo (src dst : Instruction B) (edges : List (MemoryDependence B)) : Prop :=
  ∀ e ∈ edges, e.src = src ∧ e.dst = dst

section AllFromTo

omit [DecidableEq B]

variable {src dst : Instruction B} {edges edges' : List (MemoryDependence B)}

@[simp] theorem allFromTo_nil : AllFromTo src dst [] := nofun

@[simp] theorem allFromTo_singleton {t : DataDependenceType} {must : Bool} :
    AllFromTo src dst [⟨src, dst, t, must⟩] := fun e he => by
  obtain rfl := mem_singleton.mp he
  exact ⟨rfl, rfl⟩

theorem AllFromTo.append (h : AllFromTo src dst edges) (h' : AllFromTo src dst edges') :
    AllFromTo src dst (edges ++ edges') := fun e he =>
  (mem_append.mp he).elim (h e) (h' e)

theorem AllFromTo.map_must (h : AllFromTo src dst edges) :
    AllFromTo src dst (edges.map ({ · with must := false })) := fun e he => by
  obtain ⟨x, hx, rfl⟩ := mem_map.mp he
  exact h x hx

@[simp] theorem allFromTo_unlessDenied {t : DataDependenceType} {fromInst toInst : Instruction B} :
    AllFromTo src dst (unlessDenied ddAnalyses t fromInst toInst src dst) := by
  unfold unlessDenied
  dsimp only
  split
  · exact allFromTo_singleton
  · exact allFromTo_nil

end AllFromTo

section

omit [DecidableEq B]

theorem allFromTo_addEdgeFromMemoryAlias {I J : Instruction B} {t : DataDependenceType} :
    AllFromTo I J (addEdgeFromMemoryAlias AA I J t) := by
  unfold addEdgeFromMemoryAlias
  split <;> simp

theorem allFromTo_store {call store : Instruction B} {addEdgeFromCall : Bool} :
    AllFromTo (if addEdgeFromCall then call else store) (if addEdgeFromCall then store else call)
      (addEdgeFromFunctionModRefStore AA ddAnalyses F call store addEdgeFromCall) := by
  unfold addEdgeFromFunctionModRefStore
  by_cases hfree : isDeallocator (F.inst call) = true
  · rw [if_pos hfree]
    exact allFromTo_nil
  · rw [if_neg hfree]
    cases bitsOf (AA.locationInfo call store) with
    | none => exact allFromTo_nil
    | some bv => cases addEdgeFromCall <;> dsimp only <;> refine .append ?_ ?_ <;> split_ifs <;> simp

theorem allFromTo_load {call load : Instruction B} {addEdgeFromCall : Bool} :
    AllFromTo (if addEdgeFromCall then call else load) (if addEdgeFromCall then load else call)
      (addEdgeFromFunctionModRefLoad AA ddAnalyses F call load addEdgeFromCall) := by
  unfold addEdgeFromFunctionModRefLoad
  split_ifs <;> first | exact allFromTo_nil | exact allFromTo_unlessDenied.map_must

end

theorem allFromTo_calls {call otherCall : Instruction B} {reachable : Bool} :
    AllFromTo call otherCall
      (addEdgeFromFunctionModRef AA ddAnalyses F call otherCall reachable) := by
  unfold addEdgeFromFunctionModRef
  split
  · exact allFromTo_nil
  · split
    · exact allFromTo_nil
    · dsimp only
      split
      · exact allFromTo_nil
      · split_ifs <;>
          first
            | exact allFromTo_nil
            | exact allFromTo_unlessDenied
            | exact allFromTo_unlessDenied.append allFromTo_unlessDenied
            | exact allFromTo_unlessDenied.append allFromTo_nil
            | exact (allFromTo_unlessDenied.append allFromTo_unlessDenied).append
                allFromTo_unlessDenied

theorem allFromTo_edgesOfPair {I J : Instruction B} {reachable : Bool} :
    AllFromTo I J (edgesOfPair AA ddAnalyses F I J reachable) := by
  unfold edgesOfPair
  split
  · exact allFromTo_nil
  · split
    all_goals first
      | exact allFromTo_nil
      | exact allFromTo_addEdgeFromMemoryAlias
      | exact @allFromTo_store _ _ _ _ _ _ false
      | exact @allFromTo_store _ _ _ _ _ _ true
      | exact @allFromTo_load _ _ _ _ _ _ false
      | exact @allFromTo_load _ _ _ _ _ _ true
      | exact allFromTo_calls

/-! ## The edges of a function -/

theorem filter_of_canAccessMemory {i : MemoryInst} (h : canAccessMemory i = true) :
    onlyMemoryInstructionFilter i = true := by
  unfold canAccessMemory at h
  cases i <;> simp_all [onlyMemoryInstructionFilter]

theorem isActualCode_of_canAccessMemory {i : MemoryInst} (h : canAccessMemory i = true) :
    isActualCode i = true := by
  unfold canAccessMemory at h
  by_contra hnot
  simp [hnot] at h

/-- The dependences of one instruction. -/
theorem mem_iterateInst {dfr : DataFlowResult B (Instruction B)} {I : Instruction B}
    (hI : canAccessMemory (F.inst I) = true) {e : MemoryDependence B} :
    e ∈ (match F.inst I with
      | .store => iterateInstForStore ord AA ddAnalyses F dfr I
      | .load => iterateInstForLoad ord AA ddAnalyses F dfr I
      | .call _ _ => iterateInstForCall ord AA ddAnalyses F dfr I
      | .other => []) ↔
      ∃ J ∈ dfr.outs I, canAccessMemory (F.inst J) = true ∧
        e ∈ edgesOfPair AA ddAnalyses F I J (decide (I ∈ dfr.outs J)) := by
  have hactual := isActualCode_of_canAccessMemory hI
  -- the loop over `OUT` adds the edges of a pair that can access memory
  have hloop : ∀ body : Instruction B → List (MemoryDependence B),
      (∀ J, body J = if canAccessMemory (F.inst J) = true then
        edgesOfPair AA ddAnalyses F I J (decide (I ∈ dfr.outs J)) else []) →
      (e ∈ (ord.visit (dfr.outs I).elems).flatMap body ↔
        ∃ J ∈ dfr.outs I, canAccessMemory (F.inst J) = true ∧
          e ∈ edgesOfPair AA ddAnalyses F I J (decide (I ∈ dfr.outs J))) := by
    intro body hbody
    simp only [mem_flatMap, ord.mem_visit, PtrSet.mem_elems, hbody]
    refine exists_congr fun J => and_congr_right fun _ => ?_
    split <;> simp [*]
  cases hinst : F.inst I with
  | store =>
      refine hloop _ fun J => ?_
      by_cases hJ : canAccessMemory (F.inst J) = true
      · have hJactual := isActualCode_of_canAccessMemory hJ
        unfold edgesOfPair
        cases hJinst : F.inst J <;> simp_all
      · simp [hJ]
  | load =>
      refine hloop _ fun J => ?_
      by_cases hJ : canAccessMemory (F.inst J) = true
      · unfold edgesOfPair
        cases hJinst : F.inst J <;> simp_all
      · simp [hJ]
  | call callee isLifetimeStartOrEnd =>
      unfold iterateInstForCall
      dsimp only
      rw [hactual, hI]
      refine hloop _ fun J => ?_
      by_cases hJ : canAccessMemory (F.inst J) = true
      · have hJactual := isActualCode_of_canAccessMemory hJ
        unfold edgesOfPair
        cases hJinst : F.inst J <;> simp_all
      · simp [hJ]
  | other => simp [hinst, canAccessMemory, isActualCode] at hI

/-- With enough fuel the memory phase ends, with the edges of the pairs that the graph
connects. -/
theorem constructEdgesFromAliasesForFunction_spec (ord : IterOrder) (AA : AAResults B)
    (ddAnalyses : List (DependenceAnalysis B)) (F : MemoryFunction B) :
    ∃ N, ∀ fuel ≥ N, ∃ edges,
      constructEdgesFromAliasesForFunction ord AA ddAnalyses F fuel = some edges ∧
      ∀ e : MemoryDependence B, e ∈ edges ↔
        TransGen F.cfg.Succ e.src e.dst ∧ canAccessMemory (F.inst e.src) = true ∧
          canAccessMemory (F.inst e.dst) = true ∧
          ∃ reachable : Bool, (reachable = true ↔ TransGen F.cfg.Succ e.dst e.src) ∧
            e ∈ edgesOfPair AA ddAnalyses F e.src e.dst reachable := by
  obtain ⟨N, hN⟩ := DataFlowEngine.runReachableAnalysis_spec F.cfg
    fun i => onlyMemoryInstructionFilter (F.inst i)
  refine ⟨N, fun fuel hfuel => ?_⟩
  obtain ⟨dfr, hdfr, houts⟩ := hN fuel hfuel
  have hrun : constructEdgesFromAliasesForFunction ord AA ddAnalyses F fuel =
      some (F.cfg.instructions.flatMap fun I =>
        if !canAccessMemory (F.inst I) then []
        else
          match F.inst I with
          | .store => iterateInstForStore ord AA ddAnalyses F dfr I
          | .load => iterateInstForLoad ord AA ddAnalyses F dfr I
          | .call _ _ => iterateInstForCall ord AA ddAnalyses F dfr I
          | .other => []) := by
    unfold constructEdgesFromAliasesForFunction
    rw [hdfr]
    rfl
  refine ⟨_, hrun, fun e => ?_⟩
  have hcontains : ∀ {i j}, TransGen F.cfg.Succ i j → F.cfg.Contains i ∧ F.cfg.Contains j := by
    intro i j h
    obtain ⟨_, hfirst, -⟩ := TransGen.head'_iff.mp h
    obtain ⟨_, -, hlast⟩ := TransGen.tail'_iff.mp h
    exact ⟨hfirst.contains.1, hlast.contains.2⟩
  simp only [mem_flatMap, CFG.mem_instructions]
  constructor
  · rintro ⟨I, hI, he⟩
    by_cases haccess : canAccessMemory (F.inst I) = true
    · rw [haccess] at he
      obtain ⟨J, hJ, hJaccess, he⟩ := (mem_iterateInst haccess).mp he
      obtain ⟨rfl, rfl⟩ := allFromTo_edgesOfPair e he
      have hreach := ((houts _ hI _).mp hJ).1
      refine ⟨hreach, haccess, hJaccess, _, ?_, he⟩
      rw [decide_eq_true_eq, houts _ (hcontains hreach).2]
      exact and_iff_left (filter_of_canAccessMemory haccess)
    · simp [haccess] at he
  · rintro ⟨hreach, haccess, hJaccess, reachable, hreachable, he⟩
    refine ⟨e.src, (hcontains hreach).1, ?_⟩
    rw [haccess]
    refine (mem_iterateInst haccess).mpr ⟨e.dst, ?_, hJaccess, ?_⟩
    · exact (houts _ (hcontains hreach).1 _).mpr ⟨hreach, filter_of_canAccessMemory hJaccess⟩
    · have hdecide : decide (e.src ∈ dfr.outs e.dst) = reachable := by
        rw [Bool.eq_iff_iff, hreachable, decide_eq_true_eq, houts _ (hcontains hreach).2]
        exact and_iff_left (filter_of_canAccessMemory haccess)
      rw [hdecide]
      exact he

end PDGGenerator

end Noelle
