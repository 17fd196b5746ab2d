import Mathlib.Data.List.Induction
import Noelle.Lib.Loop
import Noelle.LoopEnvironment.Builder

/-!
# LoopEnvironment.Reduction

The loop that folds the private copies of the reduced variables:
`LoopEnvironmentBuilder::generateEnvVariables` and `reduceLiveOutVariables`.

The generated loop is run: a PHI node, a load and an operation for each variable, matched by their
positions.  The offset of a private copy is a product of 32 bits, which the address takes as a signed
number, while the copies themselves lie at offsets of 64 bits.  So each copy is combined once, and
nothing else is read, exactly for up to `2 ^ 28` threads (`reduceLiveOutVariables_combines_iff`).
-/

namespace Noelle

open List

/-- The arrays on the stack: the environment, and the private copies of a reduced variable. -/
inductive EnvAlloca
  | envArray
  | reduceArrAlloca (id : Nat)
  deriving DecidableEq

/-- The address of an element of 64 bits. -/
structure EnvAddress where
  base : EnvAlloca
  index : Int
  deriving DecidableEq

/-- The pointers that `generateEnvVariables` caches. -/
structure EnvVariables where
  envIndexToVar : AList fun _ : Nat => EnvAddress
  envIndexToReducableVar : AList fun _ : Nat => List EnvAddress
  envIndexToVectorOfReducableVar : AList fun _ : Nat => EnvAlloca

/-- What the code generation reads of a `BinaryReductionSCC`: its operation, and its initial value after
the cast. -/
structure ReductionSCC (D : Type) where
  getReductionOperation : D → D → D
  initialValue : D

inductive BodyValue
  | phiNode (n : Nat)
  | loadedValue (n : Nat)
  | accumulatedValue (n : Nat)
  deriving DecidableEq

structure AccumulatorPHI (Ty D : Type) where
  variableType : Option Ty
  fromBB : D
  fromLoopBody : Option BodyValue

/-- A binary operator. -/
structure BinOp (D : Type) where
  op : D → D → D
  accumVal : BodyValue
  privateCurrentCopy : BodyValue

/-- `ReductionLoopBody`: the PHI nodes, the bases of the loads and the operators, each in its order. -/
structure ReductionLoopBody (Ty D : Type) where
  phis : List (AccumulatorPHI Ty D)
  loads : List EnvAlloca
  binOps : List (BinOp D)

namespace LoopEnvironmentBuilder

variable {Ty D : Type}

/-! ## The pointers -/

def fetchCastedEnvPtr (arr : EnvAlloca) (envIndex : Nat) : EnvAddress :=
  ⟨arr, (envIndex * valuesInCacheLine : Nat)⟩

/-- The body of the loop over the reducable indices.  It counts the reducers with 32 bits, so it ends
for fewer than `2 ^ 32` of them only, which is assumed. -/
def generateReducableVar (numReducers : Nat) (vars : EnvVariables) (envIndex : Nat) : EnvVariables :=
  let reduceArrAlloca := EnvAlloca.reduceArrAlloca envIndex
  { vars with
    envIndexToVectorOfReducableVar :=
      vars.envIndexToVectorOfReducableVar.insert envIndex reduceArrAlloca
    envIndexToReducableVar := vars.envIndexToReducableVar.insert envIndex
      ((List.range numReducers).map (fetchCastedEnvPtr reduceArrAlloca)) }

def generateEnvVariables (b : LoopEnvironmentBuilder Ty) : EnvVariables :=
  let envIndexToVar := b.envIndexToVar.ascending.foldl (fun m envIndex =>
    m.insert envIndex (fetchCastedEnvPtr .envArray envIndex)) (∅ : AList fun _ : Nat => EnvAddress)
  b.envIndexToReducableVar.ascending.foldl (generateReducableVar b.numReducers) ⟨envIndexToVar, ∅, ∅⟩

/-! ## The generated loop -/

/-- The variables of `reduceLiveOutVariables`. -/
structure Emission (Ty D : Type) where
  loopBody : ReductionLoopBody Ty D
  phiNodes : List BodyValue
  loadedValues : List BodyValue
  count : Nat
  envIndexToAccumulatedReducableVar : AList fun _ : Nat => BodyValue

section Emission

variable (b : LoopEnvironmentBuilder Ty) (vars : EnvVariables)

/-- `envIDToIndex[envID]`. -/
def indexOf (envID : Nat) : Nat := (b.envIDToIndex.lookup envID).getD 0

abbrev Reduction (D : Type) := (_ : Nat) × ReductionSCC D

/-- The first loop: a PHI node. -/
def emitPHI (s : Emission Ty D) (envIDInitValue : Reduction D) : Emission Ty D :=
  let variableType := b.envTypes[b.indexOf envIDInitValue.1]?.join
  { s with
    loopBody := { s.loopBody with
      phis := s.loopBody.phis ++ [⟨variableType, envIDInitValue.2.initialValue, none⟩] }
    phiNodes := s.phiNodes ++ [.phiNode s.loopBody.phis.length] }

/-- The second loop: the load of the private copy. -/
def emitLoad (s : Emission Ty D) (envIDInitValue : Reduction D) : Option (Emission Ty D) := do
  let baseAddressOfReducedVar ←
    vars.envIndexToVectorOfReducableVar.lookup (b.indexOf envIDInitValue.1)
  return { s with
    loopBody := { s.loopBody with loads := s.loopBody.loads ++ [baseAddressOfReducedVar] }
    loadedValues := s.loadedValues ++ [.loadedValue s.loopBody.loads.length] }

/-- The third loop: the operator. -/
def emitBinOp (s : Emission Ty D) (envIDInitValue : Reduction D) : Option (Emission Ty D) := do
  let accumVal ← s.phiNodes[s.count]?
  let privateCurrentCopy ← s.loadedValues[s.count]?
  return { s with
    loopBody := { s.loopBody with
      binOps := s.loopBody.binOps ++
        [⟨envIDInitValue.2.getReductionOperation, accumVal, privateCurrentCopy⟩] }
    envIndexToAccumulatedReducableVar := s.envIndexToAccumulatedReducableVar.insert
      (b.indexOf envIDInitValue.1) (.accumulatedValue s.loopBody.binOps.length)
    count := s.count + 1 }

/-- `addIncoming` for the loop body. -/
def addIncoming (phis : List (AccumulatorPHI Ty D)) (phiNode value : BodyValue) :
    List (AccumulatorPHI Ty D) :=
  match phiNode with
  | .phiNode n => phis.modify n fun phi => { phi with fromLoopBody := some value }
  | _ => phis

/-- The fourth loop: the PHI nodes take the values of the previous iteration. -/
def fixPHI (s : Emission Ty D) (envIDInitValue : Reduction D) : Option (Emission Ty D) := do
  let phiNode ← s.phiNodes[s.count]?
  let previousIterationAccumulatorValue ←
    s.envIndexToAccumulatedReducableVar.lookup (b.indexOf envIDInitValue.1)
  return { s with
    loopBody := { s.loopBody with
      phis := addIncoming s.loopBody.phis phiNode previousIterationAccumulatorValue }
    count := s.count + 1 }

/-- `reduceLiveOutVariables`, for the order of one run: the loop, if there is one, and the map of the
accumulated values.  The outer `none` is a missing key. -/
def reduceLiveOutVariables (ord : IterOrder) (reductions : AList fun _ : Nat => ReductionSCC D) :
    Option (Option (ReductionLoopBody Ty D × AList fun _ : Nat => BodyValue)) :=
  if reductions.entries.length = 0 then some none
  else do
    let order := ord.visit reductions.entries
    let s := order.foldl b.emitPHI ⟨⟨[], [], []⟩, [], [], 0, ∅⟩
    let s ← order.foldlM (b.emitLoad vars) { s with count := 0 }
    let s ← order.foldlM b.emitBinOp { s with count := 0 }
    let s ← order.foldlM b.fixPHI { s with count := 0 }
    return some (s.loopBody, s.envIndexToAccumulatedReducableVar)

end Emission

end LoopEnvironmentBuilder

/-! ## The emission -/

namespace LoopEnvironmentBuilder

variable {Ty D : Type} {b : LoopEnvironmentBuilder Ty}

/-- Every reducer has a slot of the reduced variable. -/
theorem lookup_generateEnvVariables {envIndex : Nat} (h : envIndex ∈ b.envIndexToReducableVar) :
    b.generateEnvVariables.envIndexToReducableVar.lookup envIndex =
        some ((List.range b.numReducers).map (fetchCastedEnvPtr (.reduceArrAlloca envIndex))) ∧
      b.generateEnvVariables.envIndexToVectorOfReducableVar.lookup envIndex =
        some (.reduceArrAlloca envIndex) := by
  have hall : ∀ envIndex ∈ b.envIndexToReducableVar.ascending,
      b.generateEnvVariables.envIndexToReducableVar.lookup envIndex =
          some ((List.range b.numReducers).map (fetchCastedEnvPtr (.reduceArrAlloca envIndex))) ∧
        b.generateEnvVariables.envIndexToVectorOfReducableVar.lookup envIndex =
          some (.reduceArrAlloca envIndex) := by
    unfold generateEnvVariables
    refine foldl_rule (generateReducableVar b.numReducers) (fun pre vars => ∀ envIndex ∈ pre,
      vars.envIndexToReducableVar.lookup envIndex =
          some ((List.range b.numReducers).map (fetchCastedEnvPtr (.reduceArrAlloca envIndex))) ∧
        vars.envIndexToVectorOfReducableVar.lookup envIndex = some (.reduceArrAlloca envIndex))
      nofun ?_
    intro pre i post vars _ hI j hj
    by_cases hne : j = i
    · subst hne
      exact ⟨AList.lookup_insert _, AList.lookup_insert _⟩
    · have hmem := (mem_append.mp hj).resolve_right fun h => hne (mem_singleton.mp h)
      exact ⟨(AList.lookup_insert_ne hne).trans (hI j hmem).1,
        (AList.lookup_insert_ne hne).trans (hI j hmem).2⟩
  exact hall envIndex (PtrSet.mem_ascending.mpr h)

variable (b)

/-- The PHI node of a reduction, before its second incoming value. -/
def phiOf (r : Reduction D) : AccumulatorPHI Ty D :=
  ⟨b.envTypes[b.indexOf r.1]?.join, r.2.initialValue, none⟩

/-- The PHI node at position `n`. -/
def fixedPHIOf (n : Nat) (r : Reduction D) : AccumulatorPHI Ty D :=
  { b.phiOf r with fromLoopBody := some (.accumulatedValue n) }

/-- The operator at position `n`. -/
def binOpOf (n : Nat) (r : Reduction D) : BinOp D :=
  ⟨r.2.getReductionOperation, .phiNode n, .loadedValue n⟩

def loopBodyOf (order : List (Reduction D)) : ReductionLoopBody Ty D :=
  ⟨order.mapIdx b.fixedPHIOf, order.map fun r => .reduceArrAlloca (b.indexOf r.1),
    order.mapIdx binOpOf⟩

variable {b} {order : List (Reduction D)}

theorem foldl_emitPHI (order : List (Reduction D)) :
    order.foldl b.emitPHI ⟨⟨[], [], []⟩, [], [], 0, ∅⟩ =
      ⟨⟨order.map b.phiOf, [], []⟩, (List.range order.length).map .phiNode, [], 0, ∅⟩ := by
  refine foldl_rule b.emitPHI (fun pre s => s =
    ⟨⟨pre.map b.phiOf, [], []⟩, (List.range pre.length).map .phiNode, [], 0, ∅⟩) rfl ?_
  rintro pre r post s - rfl
  simp [emitPHI, phiOf, range_succ]

theorem foldlM_emitLoad {vars : EnvVariables} (hvars : ∀ r ∈ order,
      vars.envIndexToVectorOfReducableVar.lookup (b.indexOf r.1) =
        some (.reduceArrAlloca (b.indexOf r.1))) {s : Emission Ty D} (hloads : s.loopBody.loads = [])
    (hvalues : s.loadedValues = []) :
    order.foldlM (b.emitLoad vars) s = some { s with
      loopBody := { s.loopBody with loads := order.map fun r => .reduceArrAlloca (b.indexOf r.1) }
      loadedValues := (List.range order.length).map .loadedValue } := by
  obtain ⟨s', hs', heq⟩ := foldlM_rule (b.emitLoad vars) (fun pre s' => s' = { s with
      loopBody := { s.loopBody with loads := pre.map fun r => .reduceArrAlloca (b.indexOf r.1) }
      loadedValues := (List.range pre.length).map .loadedValue }) (l := order) (s := s) (by
        rw [map_nil, length_nil, range_zero, map_nil, ← hloads, ← hvalues]) (by
      rintro pre r post s' hsplit rfl
      have hlookup := hvars r (hsplit ▸ mem_append_right _ (.head _))
      refine ⟨_, Option.bind_eq_some_iff.mpr ⟨_, hlookup, rfl⟩, ?_⟩
      simp [range_succ])
  rw [hs', heq]

/-- One operation is emitted for each reduced variable. -/
theorem foldlM_emitBinOp (hinj : ∀ r ∈ order, ∀ r' ∈ order, b.indexOf r.1 = b.indexOf r'.1 → r = r')
    (hnodup : order.Nodup) {s : Emission Ty D}
    (hphis : s.phiNodes = (List.range order.length).map .phiNode)
    (hloads : s.loadedValues = (List.range order.length).map .loadedValue)
    (hbinOps : s.loopBody.binOps = []) (hcount : s.count = 0) :
    ∃ map : AList fun _ : Nat => BodyValue, order.foldlM b.emitBinOp s = some { s with
        loopBody := { s.loopBody with binOps := order.mapIdx binOpOf }
        envIndexToAccumulatedReducableVar := map
        count := order.length } ∧
      ∀ n r, order[n]? = some r → map.lookup (b.indexOf r.1) = some (.accumulatedValue n) := by
  obtain ⟨s', hs', map, heq, hmap⟩ := foldlM_rule b.emitBinOp
    (fun pre s' => ∃ map : AList fun _ : Nat => BodyValue, s' = { s with
        loopBody := { s.loopBody with binOps := pre.mapIdx binOpOf }
        envIndexToAccumulatedReducableVar := map
        count := pre.length } ∧
      ∀ n r, pre[n]? = some r → map.lookup (b.indexOf r.1) = some (.accumulatedValue n))
    (l := order) (s := s) ⟨s.envIndexToAccumulatedReducableVar, by
        rw [mapIdx_nil, length_nil, ← hbinOps, ← hcount], fun n r h => by cases h⟩ (by
      rintro pre r post s' hsplit ⟨map, rfl, hmap⟩
      have hlt : pre.length < order.length := by
        rw [hsplit, length_append, length_cons]
        omega
      refine ⟨_, Option.bind_eq_some_iff.mpr ⟨.phiNode pre.length, ?_,
        Option.bind_eq_some_iff.mpr ⟨.loadedValue pre.length, ?_, rfl⟩⟩,
        map.insert (b.indexOf r.1) (.accumulatedValue (pre.mapIdx binOpOf).length), ?_,
        fun n r' hn => ?_⟩
      · rw [hphis, List.getElem?_map, List.getElem?_range hlt, Option.map_some]
      · rw [hloads, List.getElem?_map, List.getElem?_range hlt, Option.map_some]
      · simp [binOpOf, mapIdx_append]
      · rw [List.getElem?_append] at hn
        split at hn
        · have hmem := mem_of_getElem? hn
          have hne : b.indexOf r'.1 ≠ b.indexOf r.1 := by
            intro heq
            have hr := hinj r' (hsplit ▸ mem_append_left _ hmem) r
              (hsplit ▸ mem_append_right _ (.head _)) heq
            rw [hsplit] at hnodup
            exact (nodup_append.mp hnodup).2.2 r' hmem r (.head _) hr
          rw [AList.lookup_insert_ne hne]
          exact hmap n r' hn
        · have hn' : n = pre.length := by
            have := (List.getElem?_eq_some_iff.mp hn).1
            rw [length_singleton] at this
            omega
          subst hn'
          rw [Nat.sub_self] at hn
          cases hn
          rw [AList.lookup_insert, length_mapIdx])
  exact ⟨map, hs'.trans (congrArg some heq), hmap⟩

theorem modify_length {α : Type} (f : α → α) (a : α) (post : List α) : ∀ pre : List α,
    (pre ++ a :: post).modify pre.length f = pre ++ f a :: post
  | [] => rfl
  | x :: pre => by
      rw [cons_append, length_cons, modify_succ_cons, modify_length f a post pre,
        cons_append]

/-- Every PHI gets its accumulated value from the loop. -/
theorem foldlM_fixPHI {s : Emission Ty D}
    (hphiNodes : s.phiNodes = (List.range order.length).map .phiNode)
    (hmap : ∀ n r, order[n]? = some r →
      s.envIndexToAccumulatedReducableVar.lookup (b.indexOf r.1) = some (.accumulatedValue n))
    (hphis : s.loopBody.phis = order.map b.phiOf) (hcount : s.count = 0) :
    order.foldlM b.fixPHI s = some { s with
      loopBody := { s.loopBody with phis := order.mapIdx b.fixedPHIOf }
      count := order.length } := by
  obtain ⟨s', hs', heq⟩ := foldlM_rule b.fixPHI (fun pre s' => s' = { s with
      loopBody := { s.loopBody with
        phis := pre.mapIdx b.fixedPHIOf ++ (order.drop pre.length).map b.phiOf }
      count := pre.length }) (l := order) (s := s) (by
        rw [mapIdx_nil, length_nil, drop_zero, nil_append, ← hphis, ← hcount]) (by
      rintro pre r post s' hsplit rfl
      have hget : order[pre.length]? = some r := by
        rw [hsplit, List.getElem?_append_right le_rfl, Nat.sub_self]
        rfl
      have hlt := (List.getElem?_eq_some_iff.mp hget).1
      have hdrop : order.drop pre.length = r :: post := by rw [hsplit, drop_left]
      have hdrop' : order.drop (pre ++ [r]).length = post := by
        have hsplit' : order = (pre ++ [r]) ++ post := by rw [hsplit, append_cons]
        rw [hsplit', drop_left]
      refine ⟨_, Option.bind_eq_some_iff.mpr ⟨.phiNode pre.length, ?_,
        Option.bind_eq_some_iff.mpr ⟨_, hmap _ _ hget, rfl⟩⟩, ?_⟩
      · rw [hphiNodes, List.getElem?_map, List.getElem?_range hlt, Option.map_some]
      · rw [hdrop, hdrop', map_cons]
        have hmodify := modify_length (fun phi : AccumulatorPHI Ty D =>
          { phi with fromLoopBody := some (.accumulatedValue pre.length) }) (b.phiOf r)
          (post.map b.phiOf) (pre.mapIdx b.fixedPHIOf)
        rw [length_mapIdx] at hmodify
        simp only [addIncoming, hmodify, mapIdx_append, length_append]
        simp [fixedPHIOf])
  rw [hs', heq]
  simp

/-- The generated loop: the positions of the three lists are those of the order, and the map leads to
the values that are accumulated there. -/
theorem reduceLiveOutVariables_spec {ids : List Nat} {reducerCount : Nat}
    (h : b.Reduces ids reducerCount) (ord : IterOrder)
    {reductions : AList fun _ : Nat => ReductionSCC D} (hred : ∀ id ∈ reductions, id ∈ ids)
    (hne : reductions.entries.length ≠ 0) :
    ∃ map, b.reduceLiveOutVariables b.generateEnvVariables ord reductions =
        some (some (b.loopBodyOf (ord.visit reductions.entries), map)) ∧
      ∀ n r, (ord.visit reductions.entries)[n]? = some r →
        map.lookup (b.indexOf r.1) = some (.accumulatedValue n) := by
  have hkeys : (reductions.entries.map Sigma.fst).Nodup := reductions.nodupKeys
  have hid : ∀ r ∈ ord.visit reductions.entries, ∃ i, b.envIDToIndex.lookup r.1 = some i ∧
      i ∈ b.envIndexToReducableVar := fun r hr =>
    h.exists_index r.1 (hred r.1 (mem_map_of_mem (ord.mem_visit.mp hr)))
  have hinj : ∀ r ∈ ord.visit reductions.entries, ∀ r' ∈ ord.visit reductions.entries,
      b.indexOf r.1 = b.indexOf r'.1 → r = r' := by
    intro r hr r' hr' heq
    obtain ⟨i, hi, -⟩ := hid r hr
    obtain ⟨i', hi', -⟩ := hid r' hr'
    rw [indexOf, indexOf, hi, hi', Option.getD_some, Option.getD_some] at heq
    subst heq
    exact inj_on_of_nodup_map hkeys (ord.mem_visit.mp hr) (ord.mem_visit.mp hr')
      (h.numbering.injective hi hi')
  have hvars : ∀ r ∈ ord.visit reductions.entries,
      b.generateEnvVariables.envIndexToVectorOfReducableVar.lookup (b.indexOf r.1) =
        some (.reduceArrAlloca (b.indexOf r.1)) := by
    intro r hr
    obtain ⟨i, hi, hmem⟩ := hid r hr
    rw [indexOf, hi, Option.getD_some]
    exact (lookup_generateEnvVariables hmem).2
  obtain ⟨map, hbinOps, hmap⟩ := foldlM_emitBinOp (b := b) hinj
    (IterOrder.nodup_visit ord (List.Nodup.of_map _ hkeys))
    (s := ⟨⟨(ord.visit reductions.entries).map b.phiOf,
      (ord.visit reductions.entries).map fun r => .reduceArrAlloca (b.indexOf r.1), []⟩,
      (List.range (ord.visit reductions.entries).length).map .phiNode,
      (List.range (ord.visit reductions.entries).length).map .loadedValue, 0, ∅⟩) rfl rfl rfl rfl
  refine ⟨map, ?_, hmap⟩
  rw [reduceLiveOutVariables, if_neg hne]
  dsimp only
  rw [foldl_emitPHI, foldlM_emitLoad hvars rfl rfl, Option.bind_eq_bind, Option.bind_some,
    hbinOps, Option.bind_some, foldlM_fixPHI rfl hmap rfl rfl]
  rfl

end LoopEnvironmentBuilder

/-! ## Runs of the loop -/

namespace ReductionLoopBody

variable {Ty D : Type}

/-- A state at the end of the loop body. -/
structure LoopState (D : Type) where
  IVReductionLoop : BitVec 32
  accumulators : List D
  accumulated : List D
  iterations : Nat
  reads : List EnvAddress
  continueToReduceVariables : Bool

/-- The value that a name stands for. -/
def valueOf (phis loaded accumulated : List D) : BodyValue → Option D
  | .phiNode n => phis[n]?
  | .loadedValue n => loaded[n]?
  | .accumulatedValue n => accumulated[n]?

/-- The address of a load: the product is one of 32 bits and the index is signed. -/
def addressOf (IVReductionLoop : BitVec 32) (base : EnvAlloca) : EnvAddress :=
  ⟨base, (IVReductionLoop * BitVec.ofNat 32 valuesInCacheLine).toInt⟩

variable (loop : ReductionLoopBody Ty D) (mem : EnvAddress → D)
  (numberOfThreadsExecuted : BitVec 32)

/-- One execution of the loop body. -/
def iteration (s : LoopState D) : Option (LoopState D) := do
  let addresses := loop.loads.map (addressOf s.IVReductionLoop)
  let loaded := addresses.map mem
  let accumulated ← loop.binOps.foldlM (fun accumulated binOp => do
    let accumVal ← valueOf s.accumulators loaded accumulated binOp.accumVal
    let privateCurrentCopy ← valueOf s.accumulators loaded accumulated binOp.privateCurrentCopy
    return accumulated ++ [binOp.op accumVal privateCurrentCopy]) []
  let accumulators ← loop.phis.mapM fun phi =>
    phi.fromLoopBody.bind (valueOf s.accumulators loaded accumulated)
  let updatedIVReductionLoop := s.IVReductionLoop + 1
  return ⟨updatedIVReductionLoop, accumulators, accumulated, s.iterations + 1, s.reads ++ addresses,
    updatedIVReductionLoop.slt numberOfThreadsExecuted⟩

/-- The state in which the loop body is entered first. -/
def entry : LoopState D := ⟨0, loop.phis.map (·.fromBB), [], 0, [], true⟩

/-- The loop, for at most `fuel` iterations. -/
def run (fuel : Nat) : Option (LoopState D) :=
  loopM (·.continueToReduceVariables) (loop.iteration mem numberOfThreadsExecuted) fuel loop.entry

/-! ## Iterations -/

section Iterations

variable {b : LoopEnvironmentBuilder Ty} {order : List (LoopEnvironmentBuilder.Reduction D)}
  {mem : EnvAddress → D} {numberOfThreadsExecuted : BitVec 32}

/-- The address that an iteration reads for a reduction. -/
def readOf (b : LoopEnvironmentBuilder Ty) (k : Nat) (r : LoopEnvironmentBuilder.Reduction D) :
    EnvAddress :=
  addressOf (BitVec.ofNat 32 k) (.reduceArrAlloca (b.indexOf r.1))

/-- The value of an accumulator after some iterations. -/
def foldOf (b : LoopEnvironmentBuilder Ty) (mem : EnvAddress → D) (k : Nat)
    (r : LoopEnvironmentBuilder.Reduction D) : D :=
  (((List.range k).map fun i => mem (readOf b i r)).foldl r.2.getReductionOperation r.2.initialValue)

theorem foldOf_succ (b : LoopEnvironmentBuilder Ty) (mem : EnvAddress → D) (k : Nat)
    (r : LoopEnvironmentBuilder.Reduction D) :
    foldOf b mem (k + 1) r = r.2.getReductionOperation (foldOf b mem k r) (mem (readOf b k r)) := by
  rw [foldOf, range_succ, map_append, foldl_append]
  rfl

/-- The operations each combine their PHI with their load. -/
theorem foldlM_binOps (order : List (LoopEnvironmentBuilder.Reduction D)) (A L : LoopEnvironmentBuilder.Reduction D → D) :
    (order.mapIdx LoopEnvironmentBuilder.binOpOf).foldlM (fun accumulated binOp => do
      let accumVal ← valueOf (order.map A) (order.map L) accumulated binOp.accumVal
      let privateCurrentCopy ← valueOf (order.map A) (order.map L) accumulated binOp.privateCurrentCopy
      return accumulated ++ [binOp.op accumVal privateCurrentCopy]) [] =
        some (order.map fun r => r.2.getReductionOperation (A r) (L r)) := by
  have hrule := foldlM_rule (fun accumulated (binOp : BinOp D) => do
      let accumVal ← valueOf (order.map A) (order.map L) accumulated binOp.accumVal
      let privateCurrentCopy ← valueOf (order.map A) (order.map L) accumulated binOp.privateCurrentCopy
      return accumulated ++ [binOp.op accumVal privateCurrentCopy])
    (fun pre accumulated => accumulated =
      (order.take pre.length).map fun r => r.2.getReductionOperation (A r) (L r))
    (l := order.mapIdx LoopEnvironmentBuilder.binOpOf) (s := []) rfl (by
      rintro pre binOp post accumulated hsplit rfl
      have hget : (order.mapIdx LoopEnvironmentBuilder.binOpOf)[pre.length]? = some binOp := by
        rw [hsplit, List.getElem?_append_right le_rfl, Nat.sub_self]
        rfl
      rw [List.getElem?_mapIdx, Option.map_eq_some_iff] at hget
      obtain ⟨r, hr, rfl⟩ := hget
      refine ⟨_, Option.bind_eq_some_iff.mpr ⟨A r, ?_, Option.bind_eq_some_iff.mpr ⟨L r, ?_, rfl⟩⟩, ?_⟩
      · exact (List.getElem?_map ..).trans (congrArg _ hr)
      · exact (List.getElem?_map ..).trans (congrArg _ hr)
      · rw [length_append, length_singleton, take_add_one, hr, map_append]
        rfl)
  obtain ⟨accumulated, hrun, rfl⟩ := hrule
  rw [hrun, length_mapIdx, take_length]

variable {s : LoopState D} {k : Nat}

/-- One iteration: every accumulator is combined with the private copy of its own variable. -/
theorem iteration_loopBodyOf (hk : s.IVReductionLoop = BitVec.ofNat 32 k)
    (hs : s.accumulators = order.map (foldOf b mem k)) :
    (b.loopBodyOf order).iteration mem numberOfThreadsExecuted s =
      some ⟨BitVec.ofNat 32 (k + 1), order.map (foldOf b mem (k + 1)),
        order.map (foldOf b mem (k + 1)), s.iterations + 1, s.reads ++ order.map (readOf b k),
        (BitVec.ofNat 32 (k + 1)).slt numberOfThreadsExecuted⟩ := by
  have haddresses : (b.loopBodyOf order).loads.map (addressOf s.IVReductionLoop) =
      order.map (readOf b k) := by
    rw [hk, LoopEnvironmentBuilder.loopBodyOf, map_map]
    rfl
  have hbinOps := foldlM_binOps order (foldOf b mem k) fun r => mem (readOf b k r)
  simp only [← foldOf_succ] at hbinOps
  have hphis := mapM_mapIdx_eq_some_map (l := order) (g := b.fixedPHIOf)
    (f := fun phi => phi.fromLoopBody.bind (valueOf (order.map (foldOf b mem k))
      (order.map fun r => mem (readOf b k r)) (order.map (foldOf b mem (k + 1)))))
    (h := foldOf b mem (k + 1)) fun n r hr => (List.getElem?_map ..).trans (congrArg _ hr)
  rw [iteration, haddresses, hs, map_map]
  refine Option.bind_eq_some_iff.mpr ⟨_, hbinOps, Option.bind_eq_some_iff.mpr ⟨_, hphis, ?_⟩⟩
  have hIV : s.IVReductionLoop + 1 = BitVec.ofNat 32 (k + 1) := by
    rw [hk]
    exact (BitVec.ofNat_add ..).symm
  rw [hIV]
  rfl

/-- The state after `k` iterations. -/
structure After (b : LoopEnvironmentBuilder Ty) (order : List (LoopEnvironmentBuilder.Reduction D))
    (mem : EnvAddress → D) (k : Nat) (s : LoopState D) : Prop where
  IV_eq : s.IVReductionLoop = BitVec.ofNat 32 k
  accumulators_eq : s.accumulators = order.map (foldOf b mem k)
  accumulated_eq : 0 < k → s.accumulated = order.map (foldOf b mem k)
  iterations_eq : s.iterations = k
  reads_eq : s.reads = (List.range k).flatMap fun i => order.map (readOf b i)

theorem After.entry (b : LoopEnvironmentBuilder Ty)
    (order : List (LoopEnvironmentBuilder.Reduction D)) (mem : EnvAddress → D) :
    After b order mem 0 (b.loopBodyOf order).entry := by
  refine ⟨rfl, ?_, fun h => absurd h (lt_irrefl 0), rfl, rfl⟩
  rw [ReductionLoopBody.entry, LoopEnvironmentBuilder.loopBodyOf]
  refine ext_getElem? fun n => ?_
  simp only [List.getElem?_map, List.getElem?_mapIdx, Option.map_map]
  rfl

theorem After.iteration (h : After b order mem k s) (numberOfThreadsExecuted : BitVec 32) :
    ∃ s', (b.loopBodyOf order).iteration mem numberOfThreadsExecuted s = some s' ∧
      After b order mem (k + 1) s' ∧
      s'.continueToReduceVariables = (BitVec.ofNat 32 (k + 1)).slt numberOfThreadsExecuted := by
  refine ⟨_, iteration_loopBodyOf h.IV_eq h.accumulators_eq,
    ⟨rfl, rfl, fun _ => rfl, congrArg (· + 1) h.iterations_eq, ?_⟩, rfl⟩
  dsimp only
  rw [h.reads_eq, range_succ, flatMap_append, flatMap_singleton]

theorem slt_ofNat {n : BitVec 32} (hk : k < 2 ^ 31) (hn : n.toNat < 2 ^ 31) :
    (BitVec.ofNat 32 k).slt n = decide (k < n.toNat) := by
  have hkInt : (BitVec.ofNat 32 k).toInt = (k : Int) := by
    rw [BitVec.toInt_eq_toNat_of_lt (by rw [BitVec.toNat_ofNat]; omega), BitVec.toNat_ofNat,
      Nat.mod_eq_of_lt (by omega)]
  have hnInt : n.toInt = (n.toNat : Int) := BitVec.toInt_eq_toNat_of_lt (by omega)
  rw [BitVec.slt_eq_decide, hkInt, hnInt]
  exact decide_eq_decide.mpr Int.ofNat_lt

/-- The loop of the reduction ends after one iteration for each executed thread. -/
theorem run_loopBodyOf (b : LoopEnvironmentBuilder Ty)
    (order : List (LoopEnvironmentBuilder.Reduction D)) (mem : EnvAddress → D)
    {numberOfThreadsExecuted : BitVec 32} (hpos : 1 ≤ numberOfThreadsExecuted.toNat)
    (hlt : numberOfThreadsExecuted.toNat < 2 ^ 31) :
    ∃ s, (b.loopBodyOf order).run mem numberOfThreadsExecuted numberOfThreadsExecuted.toNat = some s ∧
      After b order mem numberOfThreadsExecuted.toNat s := by
  obtain ⟨s, hrun, ⟨k, hle, hafter, hcontinue⟩, hstop⟩ := loopM_rule
    (fun s => ∃ k, k ≤ numberOfThreadsExecuted.toNat ∧ After b order mem k s ∧
      s.continueToReduceVariables = decide (k < numberOfThreadsExecuted.toNat))
    (fun s => numberOfThreadsExecuted.toNat - s.iterations)
    (by
      rintro s ⟨k, hle, hafter, hcontinue⟩ hc
      have hk : k < numberOfThreadsExecuted.toNat := of_decide_eq_true (hcontinue.symm.trans hc)
      obtain ⟨s', hs', hafter', hcontinue'⟩ := hafter.iteration numberOfThreadsExecuted
      rw [slt_ofNat (by omega) hlt] at hcontinue'
      refine ⟨s', hs', ⟨k + 1, hk, hafter', hcontinue'⟩, ?_⟩
      rw [hafter.iterations_eq, hafter'.iterations_eq]
      omega)
    numberOfThreadsExecuted.toNat (b.loopBodyOf order).entry
    ⟨0, Nat.zero_le _, .entry b order mem, (decide_eq_true hpos).symm⟩ (Nat.sub_le _ _)
  have hk : ¬ k < numberOfThreadsExecuted.toNat := of_decide_eq_false (hcontinue.symm.trans hstop)
  obtain rfl : k = numberOfThreadsExecuted.toNat := by omega
  exact ⟨s, hrun, hafter⟩

theorem iterations_of_le (hle : 2 ^ 31 ≤ numberOfThreadsExecuted.toNat) {fuel : Nat}
    (hrun : (b.loopBodyOf order).run mem numberOfThreadsExecuted fuel = some s) :
    s.iterations = 1 := by
  obtain ⟨s₁, hs₁, hafter, hcontinue⟩ :=
    (After.entry b order mem).iteration numberOfThreadsExecuted
  have hstop : s₁.continueToReduceVariables = false := by
    have hneg : numberOfThreadsExecuted.toInt < 0 := by
      rw [BitVec.toInt_eq_toNat_cond, if_neg (by omega)]
      have := numberOfThreadsExecuted.isLt
      omega
    rw [hcontinue, BitVec.slt_eq_decide, decide_eq_false_iff_not, not_lt]
    exact hneg.le.trans (by decide)
  cases fuel with
  | zero => cases hrun
  | succ fuel =>
      have hentry : (b.loopBodyOf order).entry.continueToReduceVariables = true := rfl
      rw [run, loopM, if_pos hentry, hs₁, Option.bind_some, loopM_of_not_cond hstop] at hrun
      cases hrun
      exact hafter.iterations_eq

theorem readOf_eq (hk : k < 2 ^ 28) (r : LoopEnvironmentBuilder.Reduction D) :
    readOf b k r =
      LoopEnvironmentBuilder.fetchCastedEnvPtr (.reduceArrAlloca (b.indexOf r.1)) k := by
  have hvalues : valuesInCacheLine = 8 := rfl
  have hmul : (BitVec.ofNat 32 k * BitVec.ofNat 32 valuesInCacheLine).toNat = k * valuesInCacheLine := by
    rw [BitVec.toNat_mul, BitVec.toNat_ofNat, BitVec.toNat_ofNat, hvalues]
    omega
  rw [readOf, addressOf, LoopEnvironmentBuilder.fetchCastedEnvPtr,
    BitVec.toInt_eq_toNat_of_lt (by rw [hmul, hvalues]; omega), hmul]

theorem readOf_ne (k : Nat) (r r' : LoopEnvironmentBuilder.Reduction D) : readOf b (2 ^ 28) r ≠
    LoopEnvironmentBuilder.fetchCastedEnvPtr (.reduceArrAlloca (b.indexOf r'.1)) k := by
  intro heq
  have hindex : (BitVec.ofNat 32 (2 ^ 28) * BitVec.ofNat 32 valuesInCacheLine).toInt =
      ((k * valuesInCacheLine : Nat) : Int) := congrArg EnvAddress.index heq
  have hneg : (BitVec.ofNat 32 (2 ^ 28) * BitVec.ofNat 32 valuesInCacheLine).toInt = -2 ^ 31 := by decide
  rw [hneg] at hindex
  omega

end Iterations

end ReductionLoopBody

namespace LoopEnvironmentBuilder

variable {V Ty D : Type}

/-- The private copies of the executed threads. -/
def privateCopies (b : LoopEnvironmentBuilder Ty) (vars : EnvVariables) (numberOfThreads envID : Nat) :
    Option (List EnvAddress) := do
  let copies ← vars.envIndexToReducableVar.lookup (b.indexOf envID)
  if numberOfThreads ≤ copies.length then some (copies.take numberOfThreads) else none

/-- The loop ends after one iteration for each thread, the value that is accumulated for a variable
folds its own private copies in order, and nothing else is read. -/
def CombinesCopies (b : LoopEnvironmentBuilder Ty) (vars : EnvVariables)
    (reductions : AList fun _ : Nat => ReductionSCC D) (numberOfThreadsExecuted : BitVec 32)
    (loop : ReductionLoopBody Ty D) (accumulated : AList fun _ : Nat => BodyValue) : Prop :=
  ∀ mem : EnvAddress → D, ∃ fuel s, loop.run mem numberOfThreadsExecuted fuel = some s ∧
    s.iterations = numberOfThreadsExecuted.toNat ∧
    (∀ r ∈ reductions.entries, ∃ copies,
      b.privateCopies vars numberOfThreadsExecuted.toNat r.1 = some copies ∧
      (accumulated.lookup (b.indexOf r.1)).bind (ReductionLoopBody.valueOf [] [] s.accumulated) =
        some ((copies.map mem).foldl r.2.getReductionOperation r.2.initialValue)) ∧
    ∀ address ∈ s.reads, ∃ r ∈ reductions.entries, ∃ copies,
      b.privateCopies vars numberOfThreadsExecuted.toNat r.1 = some copies ∧ address ∈ copies

section Combines

variable {b : LoopEnvironmentBuilder Ty} {ids : List Nat} {reducerCount : Nat}

theorem privateCopies_eq (h : b.Reduces ids reducerCount) {envID n : Nat} (hid : envID ∈ ids)
    (hn : n ≤ reducerCount) : b.privateCopies b.generateEnvVariables n envID =
      some ((List.range n).map (fetchCastedEnvPtr (.reduceArrAlloca (b.indexOf envID)))) := by
  obtain ⟨i, hi, hmem⟩ := h.exists_index envID hid
  have hindex : b.indexOf envID = i := by rw [indexOf, hi, Option.getD_some]
  rw [privateCopies, hindex, (lookup_generateEnvVariables hmem).1, h.numReducers_eq,
    Option.bind_eq_bind, Option.bind_some, length_map, length_range, if_pos hn,
    ← map_take, take_range, Nat.min_eq_left hn]

variable {ord : IterOrder} {reductions : AList fun _ : Nat => ReductionSCC D}
  {accumulated : AList fun _ : Nat => BodyValue} {numberOfThreadsExecuted : BitVec 32}

/-- Up to `2 ^ 28` threads every copy is combined once. -/
theorem combinesCopies_of_le (h : b.Reduces ids reducerCount) (hred : ∀ id ∈ reductions, id ∈ ids)
    (hmap : ∀ n r, (ord.visit reductions.entries)[n]? = some r →
      accumulated.lookup (b.indexOf r.1) = some (.accumulatedValue n))
    (hpos : 1 ≤ numberOfThreadsExecuted.toNat) (hle : numberOfThreadsExecuted.toNat ≤ reducerCount)
    (hsmall : numberOfThreadsExecuted.toNat ≤ 2 ^ 28) :
    b.CombinesCopies b.generateEnvVariables reductions numberOfThreadsExecuted
      (b.loopBodyOf (ord.visit reductions.entries)) accumulated := by
  intro mem
  obtain ⟨s, hrun, hafter⟩ := ReductionLoopBody.run_loopBodyOf b
    (ord.visit reductions.entries) mem hpos (by omega)
  have hread : ∀ k < numberOfThreadsExecuted.toNat, ∀ r : Reduction D,
      ReductionLoopBody.readOf b k r =
        fetchCastedEnvPtr (.reduceArrAlloca (b.indexOf r.1)) k := fun k hk r =>
    ReductionLoopBody.readOf_eq (by omega) r
  have hcopies : ∀ r ∈ reductions.entries,
      b.privateCopies b.generateEnvVariables numberOfThreadsExecuted.toNat r.1 =
        some ((List.range numberOfThreadsExecuted.toNat).map
          (fetchCastedEnvPtr (.reduceArrAlloca (b.indexOf r.1)))) := fun r hr =>
    privateCopies_eq h (hred r.1 (mem_map_of_mem hr)) hle
  refine ⟨_, s, hrun, hafter.iterations_eq, fun r hr => ⟨_, hcopies r hr, ?_⟩, fun address ha => ?_⟩
  · obtain ⟨n, hn⟩ := mem_iff_getElem?.mp (ord.mem_visit.mpr hr)
    rw [hmap n r hn, Option.bind_some, ReductionLoopBody.valueOf, hafter.accumulated_eq hpos,
      List.getElem?_map, hn, Option.map_some, ReductionLoopBody.foldOf, map_map]
    have hvalues := map_congr_left (l := List.range numberOfThreadsExecuted.toNat)
      fun k hk => congrArg mem (hread k (mem_range.mp hk) r)
    rw [hvalues]
    rfl
  · rw [hafter.reads_eq] at ha
    obtain ⟨k, hk, ha⟩ := mem_flatMap.mp ha
    obtain ⟨r, hr, rfl⟩ := mem_map.mp ha
    refine ⟨r, ord.mem_visit.mp hr, _, hcopies r (ord.mem_visit.mp hr), mem_map.mpr ⟨k, hk, ?_⟩⟩
    exact (hread k (mem_range.mp hk) r).symm

/-- Above `2 ^ 28` threads a copy is read from a wrapped index. -/
theorem not_combinesCopies (h : b.Reduces ids reducerCount) (hred : ∀ id ∈ reductions, id ∈ ids)
    (hne : reductions.entries.length ≠ 0) (hle : numberOfThreadsExecuted.toNat ≤ reducerCount)
    (hlarge : 2 ^ 28 < numberOfThreadsExecuted.toNat) :
    ¬ b.CombinesCopies b.generateEnvVariables reductions numberOfThreadsExecuted
      (b.loopBodyOf (ord.visit reductions.entries)) accumulated := by
  intro hcombines
  obtain ⟨r, hr⟩ := exists_mem_of_length_pos (Nat.pos_of_ne_zero hne)
  obtain ⟨fuel, s, hrun, hiterations, -, hreads⟩ := hcombines fun _ => r.2.initialValue
  by_cases hlt : numberOfThreadsExecuted.toNat < 2 ^ 31
  · obtain ⟨s', hrun', hafter⟩ := ReductionLoopBody.run_loopBodyOf b
      (ord.visit reductions.entries) (fun _ => r.2.initialValue) (Nat.one_le_of_lt hlarge) hlt
    have hs := loopM_mono (Nat.le_max_left fuel numberOfThreadsExecuted.toNat) hrun
    have hs' := loopM_mono (Nat.le_max_right fuel numberOfThreadsExecuted.toNat) hrun'
    obtain rfl := Option.mem_unique hs hs'
    have hread : ReductionLoopBody.readOf b (2 ^ 28) r ∈ s.reads := by
      rw [hafter.reads_eq]
      exact mem_flatMap.mpr ⟨2 ^ 28, mem_range.mpr hlarge,
        mem_map_of_mem (ord.mem_visit.mpr hr)⟩
    obtain ⟨r', hr', copies, hcopies, hmem⟩ := hreads _ hread
    rw [privateCopies_eq h (hred r'.1 (mem_map_of_mem hr')) hle] at hcopies
    cases hcopies
    obtain ⟨k, -, hk⟩ := mem_map.mp hmem
    exact ReductionLoopBody.readOf_ne k r r' hk.symm
  · have hone := ReductionLoopBody.iterations_of_le (Nat.le_of_not_lt hlt) hrun
    omega

end Combines

section Environment

variable [DecidableEq V]

/-- **The reduction loop**: for the variables that the builder of an environment reduces, after any
additions, the generated loop combines every private copy once, in order, and reads nothing else, if
and only if nothing is reduced or at most `2 ^ 28` threads were executed. -/
theorem reduceLiveOutVariables_combines_iff {ord : IterOrder} {typeOf : V → Ty} {exitBlockType : Ty}
    {loopDG : PDG V} {exitBlocks : Nat} {excludeValues : PtrSet V} {env : LoopEnvironment V Ty}
    (henv : LoopEnvironment.new ord typeOf exitBlockType loopDG exitBlocks excludeValues = some env)
    {choice : VariableChoice} {reducerCount numberOfUsers : Nat} {b₀ : LoopEnvironmentBuilder Ty}
    (hb : LoopEnvironmentBuilder.new env choice reducerCount numberOfUsers = some b₀)
    (newLiveIns : List (V × PtrSet V)) {reductions : AList fun _ : Nat => ReductionSCC D}
    (hred : ∀ id ∈ reductions, id ∈ idsFor env choice true) (ord' : IterOrder)
    {numberOfThreadsExecuted : BitVec 32} (hpos : 1 ≤ numberOfThreadsExecuted.toNat)
    (hle : numberOfThreadsExecuted.toNat ≤ reducerCount) :
    let b := (newLiveIns.foldl EnvironmentRun.addLiveIn ⟨env, b₀, initiallyInUse env choice⟩).builder
    ∃ generated, b.reduceLiveOutVariables b.generateEnvVariables ord' reductions = some generated ∧
      ((∀ loop accumulated, generated = some (loop, accumulated) →
        b.CombinesCopies b.generateEnvVariables reductions numberOfThreadsExecuted loop accumulated) ↔
          reductions.entries.length = 0 ∨ numberOfThreadsExecuted.toNat ≤ 2 ^ 28) := by
  intro b
  have h : b.Reduces (idsFor env choice true) reducerCount :=
    EnvironmentRun.reduces_run newLiveIns (.new (LoopEnvironment.wf_new henv).1 hb)
  by_cases hne : reductions.entries.length = 0
  · refine ⟨none, if_pos hne, iff_of_true (fun loop accumulated hnone => ?_) (.inl hne)⟩
    cases hnone
  · obtain ⟨map, hgenerated, hmap⟩ := reduceLiveOutVariables_spec h ord' hred hne
    refine ⟨_, hgenerated, ?_⟩
    rw [or_iff_right hne]
    constructor
    · intro hcombines
      refine not_lt.mp fun hlarge => ?_
      exact not_combinesCopies h hred hne hle hlarge (hcombines _ _ rfl)
    · intro hsmall loop accumulated heq
      obtain ⟨rfl, rfl⟩ := Prod.mk.inj (Option.some.inj heq)
      exact combinesCopies_of_le h hred hmap hpos hle hsmall

def reduceLiveOuts : VariableChoice := ⟨fun _ isLiveOut => isLiveOut, fun _ _ => false⟩

/-- The sum of the copies of the one live-out variable, and the maximum of those of the other. -/
def sampleReductions : AList fun _ : Nat => ReductionSCC Nat :=
  (AList.singleton 0 ⟨(· + ·), 0⟩).insert 1 ⟨max, 0⟩

theorem mem_idsFor_sampleEnvironment : ∃ env, EnvironmentRun.sampleEnvironment 1 = some env ∧
    ∀ id ∈ sampleReductions, id ∈ idsFor env reduceLiveOuts true :=
  ⟨_, rfl, fun id hid => (by decide : ∀ id ∈ sampleReductions.keys,
    id ∈ idsFor (Option.get (EnvironmentRun.sampleEnvironment 1) rfl) reduceLiveOuts true) id hid⟩

/-- Three threads. -/
theorem reduceLiveOutVariables_combines_three : ∃ env b, EnvironmentRun.sampleEnvironment 1 = some env ∧
    LoopEnvironmentBuilder.new env reduceLiveOuts 4 1 = some b ∧
      ∃ generated, b.reduceLiveOutVariables b.generateEnvVariables .stored sampleReductions = some generated ∧
        ∀ loop accumulated, generated = some (loop, accumulated) →
          b.CombinesCopies b.generateEnvVariables sampleReductions 3 loop accumulated := by
  obtain ⟨env, henv, hred⟩ := mem_idsFor_sampleEnvironment
  obtain ⟨b, hb, -⟩ := exists_new_slotsUnique (LoopEnvironment.wf_new henv).1 reduceLiveOuts 4 1
  obtain ⟨generated, hgenerated, hiff⟩ := reduceLiveOutVariables_combines_iff henv hb [] hred .stored
    (show 1 ≤ (3 : BitVec 32).toNat by decide) (by decide)
  exact ⟨env, b, henv, hb, generated, hgenerated, hiff.mpr (.inr (by decide))⟩

/-- With one thread more than `2 ^ 28` the last read is not one of a private copy. -/
theorem not_combinesCopies_manyThreads : ∃ env b loop accumulated, EnvironmentRun.sampleEnvironment 1 = some env ∧
    LoopEnvironmentBuilder.new env reduceLiveOuts (2 ^ 28 + 1) 1 = some b ∧
      b.reduceLiveOutVariables b.generateEnvVariables .stored sampleReductions =
        some (some (loop, accumulated)) ∧
      ¬ b.CombinesCopies b.generateEnvVariables sampleReductions (BitVec.ofNat 32 (2 ^ 28 + 1)) loop
        accumulated := by
  obtain ⟨env, henv, hred⟩ := mem_idsFor_sampleEnvironment
  have hwf := (LoopEnvironment.wf_new henv).1
  obtain ⟨b, hb, -⟩ := exists_new_slotsUnique hwf reduceLiveOuts (2 ^ 28 + 1) 1
  have h := Reduces.new hwf hb
  obtain ⟨accumulated, hgenerated, -⟩ :=
    reduceLiveOutVariables_spec h .stored hred (Nat.succ_ne_zero 1)
  exact ⟨env, b, _, accumulated, henv, hb, hgenerated,
    not_combinesCopies h hred (Nat.succ_ne_zero 1) (by decide) (by decide)⟩

end Environment

end LoopEnvironmentBuilder

end Noelle
