import Mathlib.Data.List.Sort
import Noelle.Lib.Numbering
import Noelle.LoopEnvironment.Basic

/-!
# LoopEnvironment.Builder

The slots of an environment: `LoopEnvironmentBuilder`.

The builder numbers the IDs that the environment has when it is built, among them the one of the
exit block variable.  A live-in value that is added later gets the next ID of the environment, which
is the one that the exit block variable had: with several exits, the slots stay unique exactly if no
later value is new (`slotsUnique_iff`).
-/

namespace Noelle

open List Option

/-- The members of `LoopEnvironmentBuilder` before any code is generated.  The maps from indices to
pointers hold null pointers only, so their keys are what is left of them. -/
structure LoopEnvironmentBuilder (Ty : Type) where
  envIDToIndex : AList fun _ : Nat => Nat
  indexToEnvID : AList fun _ : Nat => Nat
  envSize : Nat
  envTypes : List (Option Ty)
  envArrayLength : Nat
  envIndexToVar : PtrSet Nat
  envIndexToReducableVar : PtrSet Nat
  numReducers : Nat
  numberOfUsers : Nat

/-- `Architecture::getCacheLineBytes() / sizeof(int64_t)`. -/
def valuesInCacheLine : Nat := 64 / 8

/-- The order of a `std::set` of numbers. -/
def PtrSet.ascending (s : PtrSet Nat) : List Nat := s.elems.insertionSort (· ≤ ·)

@[simp] theorem PtrSet.mem_ascending {s : PtrSet Nat} {n : Nat} : n ∈ s.ascending ↔ n ∈ s :=
  (perm_insertionSort _ s.elems).mem_iff

theorem PtrSet.nodup_ascending (s : PtrSet Nat) : s.ascending.Nodup :=
  (perm_insertionSort _ s.elems).nodup_iff.mpr s.nodup

/-- Which variables of an environment the builder reduces, and which it skips. -/
structure VariableChoice where
  shouldThisVariableBeReduced : Nat → Bool → Bool
  shouldThisVariableBeSkipped : Nat → Bool → Bool

namespace LoopEnvironmentBuilder

variable {V Ty : Type} [DecidableEq V]

/-! ## The builder -/

/-- The maps between IDs and indices, and the next index. -/
structure IDMaps where
  envIDToIndex : AList fun _ : Nat => Nat
  indexToEnvID : AList fun _ : Nat => Nat
  index : Nat

/-- The body of the loops that number the IDs. -/
def registerID (m : IDMaps) (varID : Nat) : IDMaps :=
  ⟨m.envIDToIndex.insert varID m.index, m.indexToEnvID.insert m.index varID, m.index + 1⟩

/-- `initializeBuilder`; `none` is an ID without a type. -/
def initializeBuilder (varTypes : List (Option Ty)) (singleVarIDs reducableVarIDs : PtrSet Nat)
    (reducerCount numberOfUsers : Nat) : Option (LoopEnvironmentBuilder Ty) := do
  let m := (singleVarIDs.ascending ++ reducableVarIDs.ascending).foldl registerID ⟨∅, ∅, 0⟩
  let envSize := singleVarIDs.size + reducableVarIDs.size
  let envTypes ← (List.range envSize).mapM fun i => varTypes[(m.indexToEnvID.lookup i).getD 0]?
  let indexOf (envID : Nat) : Nat := (m.envIDToIndex.lookup envID).getD 0
  return {
    envIDToIndex := m.envIDToIndex
    indexToEnvID := m.indexToEnvID
    envSize := envSize
    envTypes := envTypes
    envArrayLength := envSize * valuesInCacheLine
    envIndexToVar := PtrSet.ofList (singleVarIDs.ascending.map indexOf)
    envIndexToReducableVar := PtrSet.ofList (reducableVarIDs.ascending.map indexOf)
    numReducers := reducerCount
    numberOfUsers := numberOfUsers }

/-- The IDs that the constructor does not skip, with the answer about their reduction. -/
def idsFor (environment : LoopEnvironment V Ty) (choice : VariableChoice) (reduced : Bool) :
    List Nat :=
  let select (isLiveOut : Bool) (id : Nat) : Bool :=
    !choice.shouldThisVariableBeSkipped id isLiveOut &&
      choice.shouldThisVariableBeReduced id isLiveOut == reduced
  environment.liveInIDs.ascending.filter (select false) ++
    environment.liveOutIDs.ascending.filter (select true)

/-- The constructor for an environment. -/
def new (environment : LoopEnvironment V Ty) (choice : VariableChoice)
    (reducerCount numberOfUsers : Nat) : Option (LoopEnvironmentBuilder Ty) :=
  let nonReducableVars := PtrSet.ofList (idsFor environment choice false)
  let reducableVars := PtrSet.ofList (idsFor environment choice true)
  let nonReducableVars :=
    if 0 ≤ environment.getExitBlockID then nonReducableVars.insert environment.getExitBlockID.toNat
    else nonReducableVars
  initializeBuilder environment.getTypesOfEnvironmentLocations nonReducableVars reducableVars
    reducerCount numberOfUsers

def addVariableToEnvironment (b : LoopEnvironmentBuilder Ty) (varID : Nat) (varType : Option Ty) :
    LoopEnvironmentBuilder Ty :=
  if (b.envIDToIndex.lookup varID).isSome then b
  else
    { b with
      envIDToIndex := b.envIDToIndex.insert varID b.envSize
      indexToEnvID := b.indexToEnvID.insert b.envSize varID
      envSize := b.envSize + 1
      envTypes := b.envTypes ++ [varType]
      envArrayLength := (b.envSize + 1) * valuesInCacheLine
      envIndexToVar := b.envIndexToVar.insert b.envSize }

/-! ## Numbering -/

variable {ids : List Nat} {singleVarIDs reducableVarIDs : PtrSet Nat} {varTypes : List (Option Ty)}
  {reducerCount : Nat} {b : LoopEnvironmentBuilder Ty}

/-- Each id gets the next index, and each index its id. -/
theorem registerIDs_spec (hnodup : ids.Nodup) :
    let m := ids.foldl registerID ⟨∅, ∅, 0⟩
    Numbering m.envIDToIndex m.indexToEnvID m.index ∧ m.index = ids.length ∧
      ∀ id, (∃ i, m.envIDToIndex.lookup id = some i) ↔ id ∈ ids := by
  refine foldl_rule registerID (fun pre m => Numbering m.envIDToIndex m.indexToEnvID m.index ∧
    m.index = pre.length ∧ ∀ id, (∃ i, m.envIDToIndex.lookup id = some i) ↔ id ∈ pre)
    ⟨.empty, rfl, fun id => by simp⟩ ?_
  intro pre id post m hsplit h
  obtain ⟨hnumbering, hindex, hmem⟩ := h
  rw [hsplit] at hnodup
  have hfresh : m.envIDToIndex.lookup id = none := by
    cases hlookup : m.envIDToIndex.lookup id with
    | none => rfl
    | some i =>
        exact absurd rfl ((nodup_append.mp hnodup).2.2 id ((hmem id).mp ⟨i, hlookup⟩) id
          (.head _))
  refine ⟨hnumbering.insert hfresh, by simp [registerID, hindex], fun x => ?_⟩
  rw [mem_append, mem_singleton, ← hmem x]
  by_cases hx : x = id
  · subst hx
    simp [registerID]
  · simp [registerID, AList.lookup_insert_ne hx, hx]

theorem nodup_ascending_append (hdisjoint : ∀ id ∈ singleVarIDs, id ∉ reducableVarIDs) :
    (singleVarIDs.ascending ++ reducableVarIDs.ascending).Nodup := by
  refine nodup_append.mpr ⟨singleVarIDs.nodup_ascending, reducableVarIDs.nodup_ascending, ?_⟩
  rintro id hid id' hid' rfl
  exact hdisjoint id (PtrSet.mem_ascending.mp hid) (PtrSet.mem_ascending.mp hid')

theorem length_ascending_append (singleVarIDs reducableVarIDs : PtrSet Nat) :
    (singleVarIDs.ascending ++ reducableVarIDs.ascending).length =
      singleVarIDs.size + reducableVarIDs.size := by
  rw [length_append, PtrSet.ascending, PtrSet.ascending, length_insertionSort,
    length_insertionSort, PtrSet.size, PtrSet.size]

/-- The builder numbers exactly the ids it is given. -/
theorem initializeBuilder_spec (hdisjoint : ∀ id ∈ singleVarIDs, id ∉ reducableVarIDs)
    (hlt : ∀ id, id ∈ singleVarIDs ∨ id ∈ reducableVarIDs → id < varTypes.length)
    (reducerCount numberOfUsers : Nat) :
    ∃ b, initializeBuilder varTypes singleVarIDs reducableVarIDs reducerCount numberOfUsers = some b ∧
      Numbering b.envIDToIndex b.indexToEnvID b.envSize ∧
      (∀ id, (∃ i, b.envIDToIndex.lookup id = some i) ↔ id ∈ singleVarIDs ∨ id ∈ reducableVarIDs) ∧
      b.envTypes.length = b.envSize ∧
      ∀ id i, b.envIDToIndex.lookup id = some i → b.envTypes[i]? = varTypes[id]? := by
  obtain ⟨hnumbering, hindex, hmem⟩ := registerIDs_spec (nodup_ascending_append hdisjoint)
  rw [hindex, length_ascending_append] at hnumbering
  have hkeys : ∀ id, (∃ i, ((singleVarIDs.ascending ++ reducableVarIDs.ascending).foldl registerID
      ⟨∅, ∅, 0⟩).envIDToIndex.lookup id = some i) ↔ id ∈ singleVarIDs ∨ id ∈ reducableVarIDs :=
    fun id => (hmem id).trans (by simp)
  unfold initializeBuilder
  generalize (singleVarIDs.ascending ++ reducableVarIDs.ascending).foldl registerID ⟨∅, ∅, 0⟩ = m
    at hnumbering hkeys ⊢
  have htypes : ∀ id i, m.envIDToIndex.lookup id = some i →
      varTypes[(m.indexToEnvID.lookup i).getD 0]? = some ((varTypes[id]?).getD none) := by
    intro id i hid
    rw [(hnumbering.inverse id i).mp hid, getD_some,
      List.getElem?_eq_getElem (hlt id ((hkeys id).mp ⟨i, hid⟩)), getD_some]
  have hmap := mapM_eq_some_map
    (f := fun i => varTypes[(m.indexToEnvID.lookup i).getD 0]?)
    (g := fun i => (varTypes[(m.indexToEnvID.lookup i).getD 0]?).getD none)
    (l := List.range (singleVarIDs.size + reducableVarIDs.size)) (by
      intro i hi
      obtain ⟨id, hid⟩ := hnumbering.exists_lookup (mem_range.mp hi)
      rw [htypes id i hid, getD_some])
  refine ⟨_, bind_eq_some_iff.mpr ⟨_, hmap, rfl⟩, hnumbering, hkeys, ?_, fun id i hid => ?_⟩
  · rw [length_map, length_range]
  · have hi := hnumbering.lt hid
    have hlt := hlt id ((hkeys id).mp ⟨i, hid⟩)
    rw [List.getElem?_map, List.getElem?_range hi, map_some, htypes id i hid,
      List.getElem?_eq_getElem hlt]
    rfl

/-- The IDs that a builder reduces have slots, and their indices are reducable ones. -/
structure Reduces (b : LoopEnvironmentBuilder Ty) (ids : List Nat) (reducerCount : Nat) : Prop where
  numbering : Numbering b.envIDToIndex b.indexToEnvID b.envSize
  numReducers_eq : b.numReducers = reducerCount
  exists_index : ∀ id ∈ ids, ∃ i, b.envIDToIndex.lookup id = some i ∧ i ∈ b.envIndexToReducableVar

theorem Reduces.initializeBuilder
    (hdisjoint : ∀ id ∈ singleVarIDs, id ∉ reducableVarIDs) {numberOfUsers : Nat}
    (h : initializeBuilder varTypes singleVarIDs reducableVarIDs reducerCount numberOfUsers = some b) :
    b.Reduces reducableVarIDs.elems reducerCount := by
  have hnodup := nodup_ascending_append hdisjoint
  obtain ⟨hnumbering, hindex, hmem⟩ := registerIDs_spec hnodup
  rw [hindex, length_ascending_append] at hnumbering
  obtain ⟨envTypes, -, hb⟩ := bind_eq_some_iff.mp h
  cases hb
  refine ⟨hnumbering, rfl, fun id hid => ?_⟩
  have hid' := PtrSet.mem_ascending.mpr hid
  obtain ⟨i, hi⟩ := (hmem id).mpr (mem_append_right _ hid')
  refine ⟨i, hi, PtrSet.mem_ofList.mpr (mem_map.mpr ⟨id, hid', ?_⟩)⟩
  rw [hi, getD_some]

/-- The new variable gets the next index. -/
theorem addVariableToEnvironment_spec
    (hnumbering : Numbering b.envIDToIndex b.indexToEnvID b.envSize)
    (hlength : b.envTypes.length = b.envSize) (varID : Nat) (varType : Option Ty) :
    let b' := b.addVariableToEnvironment varID varType
    Numbering b'.envIDToIndex b'.indexToEnvID b'.envSize ∧ b'.envTypes.length = b'.envSize ∧
      (∀ id, (∃ i, b'.envIDToIndex.lookup id = some i) ↔
        id = varID ∨ ∃ i, b.envIDToIndex.lookup id = some i) ∧
      ∀ id i, b'.envIDToIndex.lookup id = some i →
        (b.envIDToIndex.lookup id = some i ∧ b'.envTypes[i]? = b.envTypes[i]?) ∨
          (b.envIDToIndex.lookup varID = none ∧ id = varID ∧ b'.envTypes[i]? = some varType) := by
  intro b'
  cases hlookup : b.envIDToIndex.lookup varID with
  | some j =>
      have heq : b' = b := if_pos (by rw [hlookup]; rfl)
      rw [heq]
      refine ⟨hnumbering, hlength, fun id => ⟨.inr, ?_⟩, fun id i hid => .inl ⟨hid, rfl⟩⟩
      rintro (rfl | hid)
      · exact ⟨j, hlookup⟩
      · exact hid
  | none =>
      have heq : b' = { b with
          envIDToIndex := b.envIDToIndex.insert varID b.envSize
          indexToEnvID := b.indexToEnvID.insert b.envSize varID
          envSize := b.envSize + 1
          envTypes := b.envTypes ++ [varType]
          envArrayLength := (b.envSize + 1) * valuesInCacheLine
          envIndexToVar := b.envIndexToVar.insert b.envSize } :=
        if_neg (by rw [hlookup]; exact Bool.false_ne_true)
      rw [heq]
      refine ⟨hnumbering.insert hlookup, by simp [hlength], fun id => ?_, fun id i hid => ?_⟩
      · by_cases hne : id = varID
        · subst hne
          simp
        · simp [AList.lookup_insert_ne hne, hne]
      · by_cases hne : id = varID
        · subst hne
          rw [AList.lookup_insert] at hid
          cases hid
          exact .inr ⟨rfl, rfl, by simp [← hlength]⟩
        · rw [AList.lookup_insert_ne hne] at hid
          refine .inl ⟨hid, List.getElem?_append_left ?_⟩
          rw [hlength]
          exact hnumbering.lt hid

theorem Reduces.addVariableToEnvironment (h : b.Reduces ids reducerCount) (varID : Nat)
    (varType : Option Ty) :
    (b.addVariableToEnvironment varID varType).Reduces ids reducerCount := by
  unfold LoopEnvironmentBuilder.addVariableToEnvironment
  cases hlookup : b.envIDToIndex.lookup varID with
  | some j => exact h
  | none =>
      refine ⟨h.numbering.insert hlookup, h.numReducers_eq, fun id hid => ?_⟩
      obtain ⟨i, hi, hmem⟩ := h.exists_index id hid
      have hne : id ≠ varID := by
        rintro rfl
        exact some_ne_none i (hi.symm.trans hlookup)
      exact ⟨i, (AList.lookup_insert_ne hne).trans hi, hmem⟩

/-! ## The variables of an environment -/

/-- A producer, or the exit block variable. -/
inductive EnvVariable (V : Type)
  | producer (v : V)
  | exitBlock
  deriving DecidableEq

def idOf (env : LoopEnvironment V Ty) : EnvVariable V → Option Nat
  | .producer v => env.producerIDMap.lookup v
  | .exitBlock => if 0 ≤ env.getExitBlockID then some env.getExitBlockID.toNat else none

/-- The variables that a new builder has: the exit block variable, and what it does not skip. -/
def initiallyInUse (env : LoopEnvironment V Ty) (choice : VariableChoice) : List (EnvVariable V) :=
  let isSkipped (v : V) : Bool :=
    let id := (env.producerIDMap.lookup v).getD 0
    choice.shouldThisVariableBeSkipped id (decide (id ∈ env.liveOutIDs))
  (env.envProducers.filter fun v => !isSkipped v).map .producer ++
    if env.hasExitBlockEnv then [.exitBlock] else []

/-- An environment and its builder, with the variables that have been given to the builder. -/
structure EnvironmentRun (V Ty : Type) where
  environment : LoopEnvironment V Ty
  builder : LoopEnvironmentBuilder Ty
  inUse : List (EnvVariable V)

namespace EnvironmentRun

/-- `addLiveInValue` on the environment, then `addVariableToEnvironment` for its ID. -/
def addLiveIn (r : EnvironmentRun V Ty) (newLiveIn : V × PtrSet V) : EnvironmentRun V Ty :=
  let (newID, environment) := r.environment.addLiveInValue newLiveIn.1 newLiveIn.2
  ⟨environment,
    r.builder.addVariableToEnvironment newID (some (environment.typeOf newLiveIn.1)),
    .producer newLiveIn.1 :: r.inUse⟩

variable (r : EnvironmentRun V Ty)

def slotOf (x : EnvVariable V) : Option Nat :=
  (idOf r.environment x).bind r.builder.envIDToIndex.lookup

/-- The IDs in use are numbered by the slots, with their types, and every variable in use has an ID
and a slot of its own. -/
structure SlotsUnique : Prop where
  numbering : Numbering r.builder.envIDToIndex r.builder.indexToEnvID r.builder.envSize
  types_length : r.builder.envTypes.length = r.builder.envSize
  types_eq : ∀ id i, r.builder.envIDToIndex.lookup id = some i →
    r.builder.envTypes[i]? = some (r.environment.typeOfEnvironmentLocation id)
  inUse_iff : ∀ id, (∃ i, r.builder.envIDToIndex.lookup id = some i) ↔
    ∃ x ∈ r.inUse, idOf r.environment x = some id
  ids_injective : ∀ x y id, idOf r.environment x = some id → idOf r.environment y = some id → x = y
  slots_injective : ∀ x ∈ r.inUse, ∀ y ∈ r.inUse, ∀ i, r.slotOf x = some i → r.slotOf y = some i → x = y
  has_slot : ∀ x ∈ r.inUse, ∃ i, r.slotOf x = some i

end EnvironmentRun

section IDs

variable {env : LoopEnvironment V Ty} {choice : VariableChoice}
variable {id : Nat} {x : EnvVariable V} {reduced : Bool}

theorem idOf_exitBlock_iff :
    idOf env .exitBlock = some id ↔ env.hasExitBlockEnv = true ∧ id = env.envProducers.length := by
  unfold idOf LoopEnvironment.getExitBlockID
  cases env.hasExitBlockEnv <;> simp [eq_comm]

theorem idOf_producer_iff (h : env.WF) {v : V} :
    idOf env (.producer v) = some id ↔ env.envProducers[id]? = some v :=
  h.lookup_iff v id

theorem idOf_injective (h : env.WF) {y : EnvVariable V} (hx : idOf env x = some id)
    (hy : idOf env y = some id) : x = y := by
  have hlt : ∀ v, idOf env (.producer v) = some id → id < env.envProducers.length := fun v hv =>
    (List.getElem?_eq_some_iff.mp ((idOf_producer_iff h).mp hv)).1
  cases x with
  | producer u =>
      cases y with
      | producer v =>
          have heq := ((idOf_producer_iff h).mp hx).symm.trans ((idOf_producer_iff h).mp hy)
          rw [some.inj heq]
      | exitBlock => exact absurd (hlt u hx) ((idOf_exitBlock_iff.mp hy).2 ▸ lt_irrefl _)
  | exitBlock =>
      cases y with
      | producer v => exact absurd (hlt v hy) ((idOf_exitBlock_iff.mp hx).2 ▸ lt_irrefl _)
      | exitBlock => rfl

/-- A numbered environment has one slot for each variable in use. -/
theorem EnvironmentRun.SlotsUnique.of {r : EnvironmentRun V Ty} (h : r.environment.WF)
    (hnumbering : Numbering r.builder.envIDToIndex r.builder.indexToEnvID r.builder.envSize)
    (hlength : r.builder.envTypes.length = r.builder.envSize)
    (htypes : ∀ id i, r.builder.envIDToIndex.lookup id = some i →
      r.builder.envTypes[i]? = some (r.environment.typeOfEnvironmentLocation id))
    (hinUse : ∀ id, (∃ i, r.builder.envIDToIndex.lookup id = some i) ↔
      ∃ x ∈ r.inUse, idOf r.environment x = some id)
    (hid : ∀ x ∈ r.inUse, ∃ id, idOf r.environment x = some id) : r.SlotsUnique := by
  refine ⟨hnumbering, hlength, htypes, hinUse, fun x y id hx hy => idOf_injective h hx hy, ?_, ?_⟩
  · intro x hx y hy i hxi hyi
    obtain ⟨id, hid, hlookup⟩ := bind_eq_some_iff.mp hxi
    obtain ⟨id', hid', hlookup'⟩ := bind_eq_some_iff.mp hyi
    obtain rfl := hnumbering.injective hlookup hlookup'
    exact idOf_injective h hid hid'
  · intro x hx
    obtain ⟨id, hid⟩ := hid x hx
    obtain ⟨i, hi⟩ := (hinUse id).mpr ⟨x, hx, hid⟩
    exact ⟨i, bind_eq_some_iff.mpr ⟨id, hid, hi⟩⟩

/-! ## A new builder -/

omit [DecidableEq V] in
theorem mem_idsFor : id ∈ idsFor env choice reduced ↔
    (id ∈ env.liveInIDs ∧ choice.shouldThisVariableBeSkipped id false = false ∧
      choice.shouldThisVariableBeReduced id false = reduced) ∨
    (id ∈ env.liveOutIDs ∧ choice.shouldThisVariableBeSkipped id true = false ∧
      choice.shouldThisVariableBeReduced id true = reduced) := by
  simp [idsFor]

theorem mem_initiallyInUse : x ∈ initiallyInUse env choice ↔
    (∃ v ∈ env.envProducers, x = .producer v ∧
      choice.shouldThisVariableBeSkipped ((env.producerIDMap.lookup v).getD 0)
        (decide ((env.producerIDMap.lookup v).getD 0 ∈ env.liveOutIDs)) = false) ∨
    (env.hasExitBlockEnv = true ∧ x = .exitBlock) := by
  rw [initiallyInUse, List.mem_append, List.mem_map]
  refine or_congr (exists_congr fun v => ?_) ?_
  · rw [List.mem_filter, Bool.not_eq_true', and_assoc]
    exact and_congr_right fun _ => and_comm.trans (and_congr_left' eq_comm)
  · cases env.hasExitBlockEnv <;> simp

/-- The ids taken are those of the producers that are not skipped. -/
theorem exists_idsFor_iff (h : env.WF) : (∃ reduced, id ∈ idsFor env choice reduced) ↔
    ∃ v ∈ env.envProducers, idOf env (.producer v) = some id ∧
      choice.shouldThisVariableBeSkipped id (decide (id ∈ env.liveOutIDs)) = false := by
  simp only [mem_idsFor]
  constructor
  · rintro ⟨reduced, ⟨hmem, hskip, -⟩ | ⟨hmem, hskip, -⟩⟩
    · have hlt := (h.mem_iff id).mp (.inl hmem)
      have hget := List.getElem?_eq_getElem hlt
      refine ⟨_, getElem_mem hlt, (idOf_producer_iff h).mpr hget, ?_⟩
      rwa [decide_eq_false (h.disjoint id hmem)]
    · have hlt := (h.mem_iff id).mp (.inr hmem)
      have hget := List.getElem?_eq_getElem hlt
      refine ⟨_, getElem_mem hlt, (idOf_producer_iff h).mpr hget, ?_⟩
      rwa [decide_eq_true hmem]
  · rintro ⟨v, -, hv, hskip⟩
    have hlt := (List.getElem?_eq_some_iff.mp ((idOf_producer_iff h).mp hv)).1
    by_cases hout : id ∈ env.liveOutIDs
    · rw [decide_eq_true hout] at hskip
      exact ⟨_, .inr ⟨hout, hskip, rfl⟩⟩
    · rw [decide_eq_false hout] at hskip
      exact ⟨_, .inl ⟨((h.mem_iff id).mpr hlt).resolve_right hout, hskip, rfl⟩⟩

omit [DecidableEq V] in
theorem length_getTypesOfEnvironmentLocations :
    env.getTypesOfEnvironmentLocations.length = env.size := by
  rw [LoopEnvironment.getTypesOfEnvironmentLocations, length_map, length_range]

theorem lt_of_mem_idsFor (h : env.WF) (hid : id ∈ idsFor env choice reduced) :
    id < env.envProducers.length := by
  rcases mem_idsFor.mp hid with hmem | hmem
  · exact (h.mem_iff id).mp (.inl hmem.1)
  · exact (h.mem_iff id).mp (.inr hmem.1)

theorem not_mem_idsFor (h : env.WF) (hid : id ∈ idsFor env choice false) :
    id ∉ idsFor env choice true := by
  intro hid'
  rcases mem_idsFor.mp hid with hmem | hmem <;> rcases mem_idsFor.mp hid' with hmem' | hmem'
  · exact absurd (hmem.2.2.symm.trans hmem'.2.2) Bool.false_ne_true
  · exact h.disjoint id hmem.1 hmem'.1
  · exact h.disjoint id hmem'.1 hmem.1
  · exact absurd (hmem.2.2.symm.trans hmem'.2.2) Bool.false_ne_true

theorem mem_nonReducableVars (env : LoopEnvironment V Ty) (choice : VariableChoice) (id : Nat) :
    id ∈ (if 0 ≤ env.getExitBlockID
      then (PtrSet.ofList (idsFor env choice false)).insert env.getExitBlockID.toNat
      else PtrSet.ofList (idsFor env choice false)) ↔
        id ∈ idsFor env choice false ∨ idOf env .exitBlock = some id := by
  rw [idOf]
  split
  · rw [PtrSet.mem_insert, PtrSet.mem_ofList, some.injEq, or_comm, eq_comm]
  · simp

theorem nonReducableVars_disjoint (h : env.WF) (choice : VariableChoice) : ∀ id ∈ (if 0 ≤ env.getExitBlockID
      then (PtrSet.ofList (idsFor env choice false)).insert env.getExitBlockID.toNat
      else PtrSet.ofList (idsFor env choice false)), id ∉ PtrSet.ofList (idsFor env choice true) := by
  intro id hid hred
  rw [PtrSet.mem_ofList] at hred
  rcases (mem_nonReducableVars env choice id).mp hid with hid | hid
  · exact not_mem_idsFor h hid hred
  · exact (idOf_exitBlock_iff.mp hid).2.not_lt (lt_of_mem_idsFor h hred)

/-- The constructor gives one slot to each variable in use. -/
theorem exists_new_slotsUnique (h : env.WF) (choice : VariableChoice)
    (reducerCount numberOfUsers : Nat) :
    ∃ b, new env choice reducerCount numberOfUsers = some b ∧
      EnvironmentRun.SlotsUnique ⟨env, b, initiallyInUse env choice⟩ := by
  have hsize : env.size = env.envProducers.length + if env.hasExitBlockEnv then 1 else 0 := rfl
  have hsep := nonReducableVars_disjoint h choice
  have hmem := mem_nonReducableVars env choice
  set single : PtrSet Nat := if 0 ≤ env.getExitBlockID
    then (PtrSet.ofList (idsFor env choice false)).insert env.getExitBlockID.toNat
    else PtrSet.ofList (idsFor env choice false) with hsingle
  have hall : ∀ id, id ∈ single ∨ id ∈ PtrSet.ofList (idsFor env choice true) ↔
      (∃ reduced, id ∈ idsFor env choice reduced) ∨ idOf env .exitBlock = some id := by
    intro id
    rw [hmem, PtrSet.mem_ofList, Bool.exists_bool, or_right_comm]
  have hbound : ∀ id, id ∈ single ∨ id ∈ PtrSet.ofList (idsFor env choice true) →
      id < env.getTypesOfEnvironmentLocations.length := by
    intro id hid
    rw [length_getTypesOfEnvironmentLocations, hsize]
    rcases (hall id).mp hid with ⟨_, hid⟩ | hid
    · exact Nat.lt_add_right _ (lt_of_mem_idsFor h hid)
    · obtain ⟨hexit, rfl⟩ := idOf_exitBlock_iff.mp hid
      rw [if_pos hexit]
      exact Nat.lt_succ_self _
  obtain ⟨b, hb, hnumbering, hkeys, hlength, htypes⟩ :=
    initializeBuilder_spec hsep hbound reducerCount numberOfUsers
  refine ⟨b, hb, .of h hnumbering hlength (fun id i hi => ?_) (fun id => ?_) fun x hx => ?_⟩
  · have hid := hbound id ((hkeys id).mp ⟨i, hi⟩)
    rw [htypes id i hi, List.getElem?_eq_getElem hid]
    simp [LoopEnvironment.getTypesOfEnvironmentLocations]
  · rw [hkeys, hall, exists_idsFor_iff h]
    constructor
    · rintro (⟨v, hv, hid, hskip⟩ | hid)
      · refine ⟨.producer v, mem_initiallyInUse.mpr (.inl ⟨v, hv, rfl, ?_⟩), hid⟩
        rwa [show env.producerIDMap.lookup v = some id from hid]
      · exact ⟨.exitBlock, mem_initiallyInUse.mpr (.inr ⟨(idOf_exitBlock_iff.mp hid).1, rfl⟩), hid⟩
    · rintro ⟨x, hx, hid⟩
      rcases mem_initiallyInUse.mp hx with ⟨v, hv, rfl, hskip⟩ | ⟨-, rfl⟩
      · rw [show env.producerIDMap.lookup v = some id from hid] at hskip
        exact .inl ⟨v, hv, hid, hskip⟩
      · exact .inr hid
  · rcases mem_initiallyInUse.mp hx with ⟨v, hv, rfl, -⟩ | ⟨hexit, rfl⟩
    · obtain ⟨i, hi⟩ := mem_iff_getElem?.mp hv
      exact ⟨i, (idOf_producer_iff h).mpr hi⟩
    · exact ⟨_, idOf_exitBlock_iff.mpr ⟨hexit, rfl⟩⟩

theorem Reduces.new (h : env.WF) {reducerCount numberOfUsers : Nat} {b : LoopEnvironmentBuilder Ty}
    (hb : LoopEnvironmentBuilder.new env choice reducerCount numberOfUsers = some b) :
    b.Reduces (idsFor env choice true) reducerCount := by
  have hred := Reduces.initializeBuilder (nonReducableVars_disjoint h choice) hb
  exact ⟨hred.numbering, hred.numReducers_eq, fun id hid =>
    hred.exists_index id (PtrSet.mem_ofList.mpr hid)⟩

end IDs

/-! ## Additions -/

namespace EnvironmentRun

variable {r : EnvironmentRun V Ty} {newLiveIn : V × PtrSet V}
variable {env env' : LoopEnvironment V Ty} {v : V} {x : EnvVariable V} {id : Nat}

theorem idOf_extends (h : env.WF) (h' : env'.WF) (hext : LoopEnvironment.Extends env env' v)
    (hkeeps : env.hasExitBlockEnv = false ∨ v ∈ env.envProducers)
    (hid : idOf env x = some id) : idOf env' x = some id := by
  cases x with
  | producer u =>
      rw [idOf_producer_iff h] at hid
      rw [idOf_producer_iff h', hext.envProducers_eq]
      split
      · exact hid
      · rw [List.getElem?_append_left (List.getElem?_eq_some_iff.mp hid).1]
        exact hid
  | exitBlock =>
      obtain ⟨hexit, rfl⟩ := idOf_exitBlock_iff.mp hid
      have hmem : v ∈ env.envProducers :=
        hkeeps.resolve_left fun hnone => Bool.false_ne_true (hnone.symm.trans hexit)
      rw [idOf_exitBlock_iff, hext.hasExitBlockEnv_eq, hext.envProducers_eq, if_pos hmem]
      exact ⟨hexit, rfl⟩

theorem typeOfEnvironmentLocation_producer (h : env.WF) (hid : idOf env (.producer v) = some id) :
    env.typeOfEnvironmentLocation id = some (env.typeOf v) := by
  rw [LoopEnvironment.typeOfEnvironmentLocation, (idOf_producer_iff h).mp hid]

theorem typeOf_extends (h : env.WF) (h' : env'.WF) (hext : LoopEnvironment.Extends env env' v)
    (hid : idOf env x = some id) (hid' : idOf env' x = some id) :
    env'.typeOfEnvironmentLocation id = env.typeOfEnvironmentLocation id := by
  cases x with
  | producer u =>
      rw [typeOfEnvironmentLocation_producer h hid, typeOfEnvironmentLocation_producer h' hid',
        hext.typeOf_eq]
  | exitBlock =>
      rw [LoopEnvironment.typeOfEnvironmentLocation, LoopEnvironment.typeOfEnvironmentLocation, List.getElem?_eq_none (idOf_exitBlock_iff.mp hid).2.ge,
        List.getElem?_eq_none (idOf_exitBlock_iff.mp hid').2.ge]
      exact hext.exitBlockType_eq

/-- An addition keeps the slots unique. -/
theorem SlotsUnique.addLiveIn (hwf : r.environment.WF) (h : r.SlotsUnique)
    (hkeeps : r.environment.hasExitBlockEnv = false ∨ newLiveIn.1 ∈ r.environment.envProducers) :
    (r.addLiveIn newLiveIn).SlotsUnique := by
  obtain ⟨hwf', hext, hlookup⟩ := hwf.addLiveInValue newLiveIn.1 newLiveIn.2
  obtain ⟨hnumbering, hlength, hkeys, htypes⟩ := addVariableToEnvironment_spec h.numbering
    h.types_length (r.environment.addLiveInValue newLiveIn.1 newLiveIn.2).1
    (some ((r.environment.addLiveInValue newLiveIn.1 newLiveIn.2).2.typeOf newLiveIn.1))
  have hnew : idOf (r.environment.addLiveInValue newLiveIn.1 newLiveIn.2).2 (.producer newLiveIn.1) =
      some (r.environment.addLiveInValue newLiveIn.1 newLiveIn.2).1 := hlookup
  have hold : ∀ {x id}, idOf r.environment x = some id →
      idOf (r.environment.addLiveInValue newLiveIn.1 newLiveIn.2).2 x = some id := fun hid =>
    idOf_extends hwf hwf' hext hkeeps hid
  refine .of hwf' hnumbering hlength (fun id i hid => ?_) (fun id => ?_) fun x hx => ?_
  · rcases htypes id i hid with ⟨hid, heq⟩ | ⟨-, rfl, heq⟩
    · obtain ⟨x, -, hx⟩ := (h.inUse_iff id).mp ⟨i, hid⟩
      refine heq.trans ((h.types_eq id i hid).trans (congrArg some ?_))
      exact (typeOf_extends hwf hwf' hext hx (hold hx)).symm
    · refine heq.trans (congrArg some ?_)
      exact (typeOfEnvironmentLocation_producer hwf' hnew).symm
  · refine (hkeys id).trans ?_
    rw [h.inUse_iff]
    constructor
    · rintro (rfl | ⟨x, hx, hid⟩)
      · exact ⟨_, .head _, hnew⟩
      · exact ⟨x, .tail _ hx, hold hid⟩
    · rintro ⟨x, hx, hid⟩
      rcases mem_cons.mp hx with rfl | hx
      · exact .inl (mem_unique hid hnew)
      · obtain ⟨i, hi⟩ := h.has_slot x hx
        obtain ⟨id', hid', -⟩ := bind_eq_some_iff.mp hi
        obtain rfl := mem_unique (hold hid') hid
        exact .inr ⟨x, hx, hid'⟩
  · rcases mem_cons.mp hx with rfl | hx
    · exact ⟨_, hnew⟩
    · obtain ⟨i, hi⟩ := h.has_slot x hx
      obtain ⟨id, hid, -⟩ := bind_eq_some_iff.mp hi
      exact ⟨id, hold hid⟩

/-- The exit block variable has an ID that was never given to the builder. -/
structure ExitBlockStranded (r : EnvironmentRun V Ty) : Prop where
  hasExitBlockEnv : r.environment.hasExitBlockEnv = true
  exitBlock_mem : .exitBlock ∈ r.inUse
  lt : ∀ id i, r.builder.envIDToIndex.lookup id = some i → id < r.environment.envProducers.length

theorem ExitBlockStranded.not_slotsUnique (h : r.ExitBlockStranded) : ¬ r.SlotsUnique := by
  intro hunique
  obtain ⟨i, hi⟩ := hunique.has_slot .exitBlock h.exitBlock_mem
  obtain ⟨id, hid, hlookup⟩ := bind_eq_some_iff.mp hi
  exact absurd (h.lt id i hlookup) ((idOf_exitBlock_iff.mp hid).2 ▸ lt_irrefl _)

section

variable (hwf : r.environment.WF)

include hwf

theorem ExitBlockStranded.of_addLiveIn
    (hexit : r.environment.hasExitBlockEnv = true) (hmem : .exitBlock ∈ r.inUse)
    (hlt : ∀ id i, r.builder.envIDToIndex.lookup id = some i →
      id < (r.addLiveIn newLiveIn).environment.envProducers.length) :
    (r.addLiveIn newLiveIn).ExitBlockStranded := by
  obtain ⟨hwf', hext, hlookup⟩ := hwf.addLiveInValue newLiveIn.1 newLiveIn.2
  refine ⟨hext.hasExitBlockEnv_eq.trans hexit, .tail _ hmem, fun id i hid => ?_⟩
  have hnew := (List.getElem?_eq_some_iff.mp ((hwf'.lookup_iff _ _).mp hlookup)).1
  unfold addLiveIn LoopEnvironmentBuilder.addVariableToEnvironment at hid
  dsimp only at hid
  split at hid
  · exact hlt id i hid
  · by_cases hne : id = (r.environment.addLiveInValue newLiveIn.1 newLiveIn.2).1
    · exact hne ▸ hnew
    · rw [AList.lookup_insert_ne hne] at hid
      exact hlt id i hid

theorem length_envProducers_addLiveIn :
    (r.addLiveIn newLiveIn).environment.envProducers.length = r.environment.envProducers.length +
      if newLiveIn.1 ∈ r.environment.envProducers then 0 else 1 := by
  obtain ⟨-, hext, -⟩ := hwf.addLiveInValue newLiveIn.1 newLiveIn.2
  refine (congrArg List.length hext.envProducers_eq).trans ?_
  split <;> simp

theorem SlotsUnique.stranded (h : r.SlotsUnique) (hexit : r.environment.hasExitBlockEnv = true)
    (hmem : .exitBlock ∈ r.inUse) (hnew : newLiveIn.1 ∉ r.environment.envProducers) :
    (r.addLiveIn newLiveIn).ExitBlockStranded := by
  refine .of_addLiveIn hwf hexit hmem fun id i hid => ?_
  rw [length_envProducers_addLiveIn hwf, if_neg hnew]
  obtain ⟨x, -, hx⟩ := (h.inUse_iff id).mp ⟨i, hid⟩
  cases x with
  | producer v =>
      exact Nat.lt_succ_of_lt (List.getElem?_eq_some_iff.mp ((idOf_producer_iff hwf).mp hx)).1
  | exitBlock => exact Nat.lt_succ_of_le (idOf_exitBlock_iff.mp hx).2.le

theorem ExitBlockStranded.addLiveIn (h : r.ExitBlockStranded) :
    (r.addLiveIn newLiveIn).ExitBlockStranded := by
  refine .of_addLiveIn hwf h.hasExitBlockEnv h.exitBlock_mem fun id i hid => ?_
  rw [length_envProducers_addLiveIn hwf]
  exact Nat.lt_add_right _ (h.lt id i hid)

theorem wf_addLiveIn : (r.addLiveIn newLiveIn).environment.WF :=
  (hwf.addLiveInValue newLiveIn.1 newLiveIn.2).1

end

/-- No addition gives the exit block its slot back. -/
theorem ExitBlockStranded.run : ∀ (newLiveIns : List (V × PtrSet V)) {r : EnvironmentRun V Ty},
    r.environment.WF → r.ExitBlockStranded → (newLiveIns.foldl EnvironmentRun.addLiveIn r).ExitBlockStranded
  | [], _, _, h => h
  | _ :: newLiveIns, _, hwf, h => ExitBlockStranded.run newLiveIns (wf_addLiveIn hwf) (h.addLiveIn hwf)

/-- Additions keep what is reduced. -/
theorem reduces_run {ids : List Nat} {reducerCount : Nat} : ∀ (newLiveIns : List (V × PtrSet V))
    {r : EnvironmentRun V Ty}, r.builder.Reduces ids reducerCount →
      (newLiveIns.foldl EnvironmentRun.addLiveIn r).builder.Reduces ids reducerCount
  | [], _, h => h
  | _ :: newLiveIns, _, h => reduces_run newLiveIns (h.addVariableToEnvironment _ _)

/-- Additions keep the slots unique unless the exit block has one and a value is new. -/
theorem SlotsUnique.run_iff : ∀ (newLiveIns : List (V × PtrSet V)) {r : EnvironmentRun V Ty},
    r.environment.WF → (r.environment.hasExitBlockEnv = true → .exitBlock ∈ r.inUse) → r.SlotsUnique →
      ((newLiveIns.foldl EnvironmentRun.addLiveIn r).SlotsUnique ↔ r.environment.hasExitBlockEnv = false ∨
        ∀ newLiveIn ∈ newLiveIns, newLiveIn.1 ∈ r.environment.envProducers)
  | [], r, _, _, h => iff_of_true h (.inr nofun)
  | newLiveIn :: newLiveIns, r, hwf, hmem, h => by
      obtain ⟨-, hext, -⟩ := hwf.addLiveInValue newLiveIn.1 newLiveIn.2
      have hexit : (r.addLiveIn newLiveIn).environment.hasExitBlockEnv =
          r.environment.hasExitBlockEnv := hext.hasExitBlockEnv_eq
      have hproducers : (r.addLiveIn newLiveIn).environment.envProducers =
          if newLiveIn.1 ∈ r.environment.envProducers then r.environment.envProducers
          else r.environment.envProducers ++ [newLiveIn.1] := hext.envProducers_eq
      have hmem' : (r.addLiveIn newLiveIn).environment.hasExitBlockEnv = true →
          .exitBlock ∈ (r.addLiveIn newLiveIn).inUse := fun htrue =>
        mem_cons_of_mem _ (hmem (hexit ▸ htrue))
      rw [foldl_cons]
      cases hone : r.environment.hasExitBlockEnv with
      | false =>
          have hrest := run_iff newLiveIns (wf_addLiveIn hwf) hmem' (h.addLiveIn hwf (.inl hone))
          exact iff_of_true (hrest.mpr (.inl (hexit.trans hone))) (.inl rfl)
      | true =>
          by_cases hold : newLiveIn.1 ∈ r.environment.envProducers
          · have hrest := run_iff newLiveIns (wf_addLiveIn hwf) hmem' (h.addLiveIn hwf (.inr hold))
            rw [hrest, hexit, hone, hproducers, if_pos hold, forall_mem_cons, and_iff_right hold]
          · have hstranded := ExitBlockStranded.run newLiveIns (wf_addLiveIn hwf)
              (h.stranded hwf hone (hmem hone) hold)
            refine iff_of_false hstranded.not_slotsUnique ?_
            rintro (hfalse | hall)
            · exact Bool.false_ne_true hfalse.symm
            · exact hold (hall newLiveIn (.head _))

/-- `1` and `2` are computed in the loop and used after it, `1` from the live-in value `0`. -/
def sampleLoop : PDG Nat :=
  let (liveIn, g) := (DG.empty 0 : PDG Nat).addNode 0 false
  let (one, g) := g.addNode 1 true
  let (two, g) := g.addNode 2 true
  let (user, g) := g.addNode 3 false
  let (_, g) := g.insertEdge liveIn one .variableDependence (some .raw) {}
  let (_, g) := g.insertEdge one user .variableDependence (some .raw) {}
  (g.insertEdge two user .variableDependence (some .raw) {}).2

/-- Its environment, with some exits. -/
def sampleEnvironment (exitBlocks : Nat) : Option (LoopEnvironment Nat Unit) :=
  LoopEnvironment.new .stored (fun _ => ()) () sampleLoop exitBlocks ∅

def chooseNothing : VariableChoice := ⟨fun _ _ => false, fun _ _ => false⟩

/-- **Unique slots**: after any additions to the environment and the builder, the variables in use have
IDs and slots of their own, with consistent types, if and only if the loop has one exit or every value
that was added was a producer before. -/
theorem slotsUnique_iff {ord : IterOrder} {typeOf : V → Ty} {exitBlockType : Ty} {loopDG : PDG V}
    {exitBlocks : Nat} {excludeValues : PtrSet V} {env : LoopEnvironment V Ty}
    (h : LoopEnvironment.new ord typeOf exitBlockType loopDG exitBlocks excludeValues = some env)
    (choice : VariableChoice) (reducerCount numberOfUsers : Nat) :
    ∃ b, LoopEnvironmentBuilder.new env choice reducerCount numberOfUsers = some b ∧
      ∀ newLiveIns : List (V × PtrSet V),
        (newLiveIns.foldl addLiveIn ⟨env, b, initiallyInUse env choice⟩).SlotsUnique ↔
          exitBlocks ≤ 1 ∨ ∀ newLiveIn ∈ newLiveIns, env.isProducer newLiveIn.1 = true := by
  obtain ⟨hwf, hexit⟩ := LoopEnvironment.wf_new h
  obtain ⟨b, hb, hunique⟩ := exists_new_slotsUnique hwf choice reducerCount numberOfUsers
  refine ⟨b, hb, fun newLiveIns => ?_⟩
  rw [SlotsUnique.run_iff newLiveIns hwf (fun htrue => mem_initiallyInUse.mpr (.inr ⟨htrue, rfl⟩))
    hunique]
  refine or_congr ?_ (forall₂_congr fun newLiveIn _ => hwf.isProducer_iff.symm)
  rw [← Bool.not_eq_true, hexit, not_lt]

/-- Two new values, and the live-in value with another consumer. -/
def sampleLiveIns : List (Nat × PtrSet Nat) := [(7, ∅), (8, PtrSet.ofList [1, 2]), (0, PtrSet.ofList [2])]

theorem slotsUnique_oneExit : ∃ env b, sampleEnvironment 1 = some env ∧
    LoopEnvironmentBuilder.new env chooseNothing 1 1 = some b ∧
      (sampleLiveIns.foldl EnvironmentRun.addLiveIn
        ⟨env, b, initiallyInUse env chooseNothing⟩).SlotsUnique := by
  obtain ⟨env, henv⟩ : ∃ env, sampleEnvironment 1 = some env := ⟨_, rfl⟩
  obtain ⟨b, hb, hiff⟩ := slotsUnique_iff henv chooseNothing 1 1
  exact ⟨env, b, henv, hb, (hiff sampleLiveIns).mpr (.inl le_rfl)⟩

/-- With two exits a new value takes the ID, and the slot, of the exit block variable. -/
theorem not_slotsUnique_twoExits : ∃ env b, sampleEnvironment 2 = some env ∧
    LoopEnvironmentBuilder.new env chooseNothing 1 1 = some b ∧
      ¬ ([(7, ∅)].foldl EnvironmentRun.addLiveIn
        ⟨env, b, initiallyInUse env chooseNothing⟩).SlotsUnique := by
  refine ⟨_, _, rfl, rfl, fun h => ?_⟩
  obtain ⟨i, hi⟩ := h.has_slot .exitBlock (by decide)
  cases hi

end EnvironmentRun

end LoopEnvironmentBuilder

end Noelle
