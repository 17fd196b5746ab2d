import Noelle.PDG.Basic

/-!
# LoopEnvironment.Basic

The environment of a loop: `LoopEnvironment`.

The ID of a producer is its place in the list of producers.  The exit block variable, if there is
one, has the length of the list as its ID, at the time it is asked for.  IDs are counted without
bound here.
-/

namespace Noelle

open List

/-- `LoopEnvironment`, with the types `Ty` of its variables.  A type that was never set is `none`. -/
structure LoopEnvironment (V Ty : Type) where
  typeOf : V → Ty
  envProducers : List V
  producerIDMap : AList fun _ : V => Nat
  liveInIDs : PtrSet Nat
  liveOutIDs : PtrSet Nat
  prodConsumers : V → PtrSet V
  hasExitBlockEnv : Bool
  exitBlockType : Option Ty

namespace LoopEnvironment

variable {V Ty : Type} [DecidableEq V]

/-- The members before the constructor runs. -/
def empty (typeOf : V → Ty) : LoopEnvironment V Ty :=
  ⟨typeOf, [], ∅, ∅, ∅, fun _ => ∅, false, none⟩

section Operations

variable (env : LoopEnvironment V Ty)

def isProducer (producer : V) : Bool := (env.producerIDMap.lookup producer).isSome

/-- `addProducer`: the ID and the environment after it. -/
def addProducer (producer : V) (liveIn : Bool) : Nat × LoopEnvironment V Ty :=
  match env.envProducers.findIdx? fun p => decide (p = producer) with
  | some c => (c, env)
  | none =>
      let nextEnvID := env.envProducers.length
      (nextEnvID, { env with
        envProducers := env.envProducers ++ [producer]
        producerIDMap := env.producerIDMap.insert producer nextEnvID
        liveInIDs := if liveIn then env.liveInIDs.insert nextEnvID else env.liveInIDs
        liveOutIDs := if liveIn then env.liveOutIDs else env.liveOutIDs.insert nextEnvID })

/-- `prodConsumers[producer].insert(...)` for some consumers. -/
def addConsumers (producer : V) (consumers : List V) : LoopEnvironment V Ty :=
  { env with
    prodConsumers := Function.update env.prodConsumers producer
      ((env.prodConsumers producer).insertAll consumers) }

def addLiveInValue (newLiveInValue : V) (consumers : PtrSet V) : Nat × LoopEnvironment V Ty :=
  let (newID, env) := env.addProducer newLiveInValue true
  (newID, env.addConsumers newLiveInValue consumers.elems)

def getExitBlockID : Int := if env.hasExitBlockEnv then env.envProducers.length else -1

def size : Nat := env.envProducers.length + if env.hasExitBlockEnv then 1 else 0

def typeOfEnvironmentLocation (id : Nat) : Option Ty :=
  match env.envProducers[id]? with
  | some producer => some (env.typeOf producer)
  | none => env.exitBlockType

def getTypesOfEnvironmentLocations : List (Option Ty) :=
  (List.range env.size).map env.typeOfEnvironmentLocation

end Operations

/-! ## Construction -/

/-- Neither a memory nor a control dependence. -/
def isVariableEdge (edge : DGEdge V) : Bool :=
  !(edge.kind.isMemory || decide (edge.kind = .controlDependence))

/-- The body of the loop of the constructor over the external nodes. -/
def visitExternalNode (ord : IterOrder) (loopDG : PDG V) (excludeValues : PtrSet V)
    (env : LoopEnvironment V Ty) (externalNode : DGNode V) : LoopEnvironment V Ty :=
  let externalValue := externalNode.theT
  if externalValue ∈ excludeValues then env
  else
    let liveInEdges := (ord.visit (loopDG.outgoingEdges externalNode).elems).filter isVariableEdge
    let env := if liveInEdges.isEmpty then env
      else (env.addLiveInValue externalValue (PtrSet.ofList (liveInEdges.map DGEdge.getDst))).2
    ((ord.visit (loopDG.incomingEdges externalNode).elems).filter isVariableEdge).foldl (fun env edge =>
      let internalValue := edge.getSrc
      let env := if env.isProducer internalValue then env else (env.addProducer internalValue false).2
      env.addConsumers internalValue [externalValue]) env

/-- The constructor; `exitBlockType` is the type of 32 bit integers.  `none` is a null node. -/
def new (ord : IterOrder) (typeOf : V → Ty) (exitBlockType : Ty) (loopDG : PDG V)
    (exitBlocks : Nat) (excludeValues : PtrSet V) : Option (LoopEnvironment V Ty) := do
  let nodes ← (ord.visit loopDG.externalNodeMap.entries).mapM fun nodeI => nodeI.2
  let env := nodes.foldl (visitExternalNode ord loopDG excludeValues) (empty typeOf)
  let hasExitBlockEnv := decide (1 < exitBlocks)
  return { env with
    hasExitBlockEnv := hasExitBlockEnv
    exitBlockType := if hasExitBlockEnv then some exitBlockType else none }

/-! ## IDs -/

/-- Every producer has its place as its ID, and is live-in or live-out but not both. -/
structure WF (env : LoopEnvironment V Ty) : Prop where
  lookup_iff : ∀ v i, env.producerIDMap.lookup v = some i ↔ env.envProducers[i]? = some v
  mem_iff : ∀ i, (i ∈ env.liveInIDs ∨ i ∈ env.liveOutIDs) ↔ i < env.envProducers.length
  disjoint : ∀ i ∈ env.liveInIDs, i ∉ env.liveOutIDs

variable {env : LoopEnvironment V Ty}

theorem wf_empty (typeOf : V → Ty) : (empty typeOf).WF :=
  ⟨fun v i => by simp [empty], fun i => by simp [empty], fun i h => absurd h (by simp [empty])⟩

theorem WF.isProducer_iff (h : env.WF) {v : V} : env.isProducer v = true ↔ v ∈ env.envProducers := by
  rw [isProducer, Option.isSome_iff_exists, mem_iff_getElem?]
  exact exists_congr fun i => h.lookup_iff v i

omit [DecidableEq V] in
theorem getElem?_append_singleton (l : List V) (v : V) (i : Nat) :
    (l ++ [v])[i]? = if i = l.length then some v else l[i]? := by
  rw [List.getElem?_append]
  by_cases hlt : i < l.length
  · rw [if_pos hlt, if_neg hlt.ne]
  · by_cases hi : i = l.length
    · simp [hi]
    · rw [if_neg hlt, if_neg hi, List.getElem?_eq_none (by simp; omega),
        List.getElem?_eq_none (not_lt.mp hlt)]

/-- What a producer that is added does to the others. -/
structure Extends (env env' : LoopEnvironment V Ty) (v : V) : Prop where
  typeOf_eq : env'.typeOf = env.typeOf
  hasExitBlockEnv_eq : env'.hasExitBlockEnv = env.hasExitBlockEnv
  exitBlockType_eq : env'.exitBlockType = env.exitBlockType
  envProducers_eq : env'.envProducers =
    if v ∈ env.envProducers then env.envProducers else env.envProducers ++ [v]

/-- A producer is added once, under its own id. -/
theorem WF.addProducer (h : env.WF) (v : V) (liveIn : Bool) :
    (env.addProducer v liveIn).2.WF ∧ Extends env (env.addProducer v liveIn).2 v ∧
      (env.addProducer v liveIn).2.producerIDMap.lookup v = some (env.addProducer v liveIn).1 := by
  unfold LoopEnvironment.addProducer
  cases hfind : env.envProducers.findIdx? fun p => decide (p = v) with
  | some c =>
      obtain ⟨hc, hv, -⟩ := List.findIdx?_eq_some_iff_getElem.mp hfind
      have hget : env.envProducers[c]? = some v := by
        rw [List.getElem?_eq_getElem hc]
        exact congrArg some (of_decide_eq_true hv)
      exact ⟨h, ⟨rfl, rfl, rfl, (if_pos (mem_of_getElem? hget)).symm⟩, (h.lookup_iff v c).mpr hget⟩
  | none =>
      have hnot : v ∉ env.envProducers := fun hmem => by
        have hne := List.findIdx?_eq_none_iff.mp hfind v hmem
        exact absurd rfl (of_decide_eq_false hne)
      have hlt : ∀ i ∈ env.liveInIDs, i < env.envProducers.length := fun i hi =>
        (h.mem_iff i).mp (.inl hi)
      have hlt' : ∀ i ∈ env.liveOutIDs, i < env.envProducers.length := fun i hi =>
        (h.mem_iff i).mp (.inr hi)
      refine ⟨⟨fun u i => ?_, fun i => ?_, fun i hi hi' => ?_⟩, ⟨rfl, rfl, rfl, (if_neg hnot).symm⟩,
        AList.lookup_insert _⟩
      · rw [getElem?_append_singleton]
        by_cases hu : u = v
        · subst hu
          rw [AList.lookup_insert]
          by_cases hi : i = env.envProducers.length
          · simp [hi]
          · rw [if_neg hi]
            exact iff_of_false (fun heq => hi (Option.some.inj heq).symm) fun heq =>
              hnot (mem_of_getElem? heq)
        · rw [AList.lookup_insert_ne hu, h.lookup_iff]
          by_cases hi : i = env.envProducers.length
          · simp [hi, Ne.symm hu]
          · rw [if_neg hi]
      · rw [length_append, length_singleton]
        cases liveIn with
        | true =>
            change (i ∈ env.liveInIDs.insert _ ∨ i ∈ env.liveOutIDs) ↔ _
            rw [PtrSet.mem_insert, or_assoc, h.mem_iff]
            omega
        | false =>
            change (i ∈ env.liveInIDs ∨ i ∈ env.liveOutIDs.insert _) ↔ _
            rw [PtrSet.mem_insert, or_left_comm, h.mem_iff]
            omega
      · cases liveIn with
        | true =>
            rcases PtrSet.mem_insert.mp hi with rfl | hi
            · exact lt_irrefl _ (hlt' _ hi')
            · exact h.disjoint i hi hi'
        | false =>
            rcases PtrSet.mem_insert.mp hi' with rfl | hi'
            · exact lt_irrefl _ (hlt _ hi)
            · exact h.disjoint i hi hi'

theorem WF.addConsumers (h : env.WF) (v : V) (consumers : List V) :
    (env.addConsumers v consumers).WF :=
  ⟨h.lookup_iff, h.mem_iff, h.disjoint⟩

theorem WF.addLiveInValue (h : env.WF) (v : V) (consumers : PtrSet V) :
    (env.addLiveInValue v consumers).2.WF ∧ Extends env (env.addLiveInValue v consumers).2 v ∧
      (env.addLiveInValue v consumers).2.producerIDMap.lookup v =
        some (env.addLiveInValue v consumers).1 := by
  obtain ⟨hwf, hext, hlookup⟩ := h.addProducer v true
  exact ⟨hwf.addConsumers v consumers.elems,
    ⟨hext.typeOf_eq, hext.hasExitBlockEnv_eq, hext.exitBlockType_eq, hext.envProducers_eq⟩, hlookup⟩

/-- One more external value joins the environment. -/
theorem WF.visitExternalNode (h : env.WF) (ord : IterOrder) (loopDG : PDG V)
    (excludeValues : PtrSet V) (externalNode : DGNode V) :
    (visitExternalNode ord loopDG excludeValues env externalNode).WF := by
  unfold LoopEnvironment.visitExternalNode
  dsimp only
  split
  · exact h
  · have hliveOut : ∀ (edges : List (DGEdge V)) {env : LoopEnvironment V Ty}, env.WF →
        (edges.foldl (fun env edge =>
          let internalValue := edge.getSrc
          let env := if env.isProducer internalValue then env
            else (env.addProducer internalValue false).2
          env.addConsumers internalValue [externalNode.theT]) env).WF := by
      intro edges
      induction edges with
      | nil => exact fun h => h
      | cons edge edges ih =>
          intro env h
          refine ih (WF.addConsumers ?_ _ _)
          split
          · exact h
          · exact (h.addProducer _ false).1
    refine hliveOut _ ?_
    split
    · exact h
    · exact (h.addLiveInValue _ _).1

theorem wf_new {ord : IterOrder} {typeOf : V → Ty} {exitBlockType : Ty} {loopDG : PDG V}
    {exitBlocks : Nat} {excludeValues : PtrSet V}
    (h : new ord typeOf exitBlockType loopDG exitBlocks excludeValues = some env) :
    env.WF ∧ (env.hasExitBlockEnv = true ↔ 1 < exitBlocks) := by
  obtain ⟨nodes, -, h⟩ := Option.bind_eq_some_iff.mp h
  have hwf : (nodes.foldl (LoopEnvironment.visitExternalNode ord loopDG excludeValues)
      (empty typeOf)).WF :=
    foldl_rule _ (fun _ (env : LoopEnvironment V Ty) => env.WF) (wf_empty typeOf) fun _ _ _ _ _ hwf =>
      hwf.visitExternalNode ord loopDG excludeValues _
  cases h
  exact ⟨⟨hwf.lookup_iff, hwf.mem_iff, hwf.disjoint⟩, decide_eq_true_iff⟩

end LoopEnvironment

end Noelle
