import Noelle.MayPointsToAnalysis.Constraints

/-!
# MayPointsToAnalysis.Termination

The solver terminates, whichever node of the worklist it takes: an iteration takes one node,
and pushes a node only for a copy edge, a bit vector or a pointee that is new.
-/

namespace Noelle

open List Option

namespace MpaFunction

variable {V : Type} [DecidableEq V] {F : MpaFunction V} {v w : V} {a b : NodeID V}

def operands (F : MpaFunction V) (v : V) : List V :=
  match F.value v with
  | .phiNode incomingValues => incomingValues
  | .selectInst trueValue falseValue => [trueValue, falseValue]
  | .loadInst pointerOperand => [pointerOperand]
  | .storeInst valueOperand pointerOperand => [valueOperand, pointerOperand]
  | .callBase _ argOperands => argOperands
  | _ => []

/-- The values that the constraints are about. -/
def mentioned (F : MpaFunction V) : List V :=
  F.pointers.elems.flatMap fun w =>
    w :: (F.operands w ++ (F.users w).flatMap fun u => u :: F.operands u)

/-- The nodes that can occur in a copy edge. -/
def nodes (F : MpaFunction V) : List (NodeID V) :=
  (MpaSummary.objects F).map NodeID.memobj ++ F.mentioned.map F.node

theorem node_mem_nodes (h : v ∈ F.mentioned) : F.node v ∈ F.nodes :=
  mem_append_right _ (mem_map_of_mem h)

theorem memobj_mem_nodes {m : Option V} (h : m ∈ MpaSummary.objects F) : .memobj m ∈ F.nodes :=
  mem_append_left _ (mem_map_of_mem h)

theorem unknown_mem_nodes : UnknownMemobjId ∈ F.nodes := memobj_mem_nodes (.head _)

theorem pointer_mem_mentioned (hw : w ∈ F.pointers) : w ∈ F.mentioned :=
  mem_flatMap.mpr ⟨w, hw, .head _⟩

theorem operand_mem_mentioned (hw : w ∈ F.pointers) (h : v ∈ F.operands w) : v ∈ F.mentioned :=
  mem_flatMap.mpr ⟨w, hw, .tail w (mem_append_left _ h)⟩

theorem user_mem_mentioned {u : V} (hw : w ∈ F.pointers) (hu : u ∈ F.users w)
    (h : v = u ∨ v ∈ F.operands u) : v ∈ F.mentioned := by
  refine mem_flatMap.mpr ⟨w, hw, .tail w (mem_append_right _ ?_)⟩
  exact mem_flatMap.mpr ⟨u, hu, mem_cons.mpr h⟩

theorem Generates.copy_mem_nodes (hw : w ∈ F.pointers) (h : F.Generates w (.copy a b)) :
    a ∈ F.nodes ∧ b ∈ F.nodes := by
  have hself : F.node w ∈ F.nodes := node_mem_nodes (pointer_mem_mentioned hw)
  have hoperand : ∀ v, v ∈ F.operands w → F.node v ∈ F.nodes := fun v hv =>
    node_mem_nodes (operand_mem_mentioned hw hv)
  rcases h with hdef | ⟨u, hu, huse⟩
  · cases hdef with
    | phi hv hmem => exact ⟨hoperand _ (by simp [operands, hv, hmem]), hself⟩
    | selectTrue hv => exact ⟨hoperand _ (by simp [operands, hv]), hself⟩
    | selectFalse hv => exact ⟨hoperand _ (by simp [operands, hv]), hself⟩
    | realloc hv => exact ⟨hoperand _ (by simp [operands, hv]), hself⟩
    | callResult _ => exact ⟨unknown_mem_nodes, hself⟩
  · cases huse with
    | memCopy hv =>
        exact ⟨node_mem_nodes (user_mem_mentioned hw hu (.inr (by simp [operands, hv]))),
          node_mem_nodes (user_mem_mentioned hw hu (.inr (by simp [operands, hv])))⟩
    | callArgument _ => exact ⟨hself, unknown_mem_nodes⟩

theorem Pointee.mem_objects {o : Option V} (h : F.Pointee w o) : o ∈ MpaSummary.objects F := by
  cases h with
  | allocation hw => exact .tail _ (mem_map_of_mem hw)
  | _ => exact .head _

end MpaFunction

namespace MpaSummary

variable {V : Type} [DecidableEq V] {ord : IterOrder} {F : MpaFunction V}
  {s s' s₁ s₂ : MpaSummary V} {a b n : NodeID V} {i : Nat}

/-! ## One iteration -/

/-- What one iteration does, which takes the node `n`. -/
structure SolveStep (F : MpaFunction V) (s : MpaSummary V) (i : Nat) (n : NodeID V)
    (s₁ s₂ s' : MpaSummary V) : Prop where
  taken : s.worklist[i]? = some n
  loadStore : Grown (fun _ _ => False) (fun a b => loadEdge F s n a b ∨ storeEdge F s n a b)
    { s with worklist := s.worklist.eraseIdx i } s₁
  funcUsers : Grown fromUnknown (s₁.escapeEdge n) s₁ s₂
  copyEdges : Propagated F n (· ∈ s₂.copyOutEdges n) s₂ s'

theorem KnownObjects.congr (h : KnownObjects F s) (hpts : s'.pointsTo = s.pointsTo) :
    KnownObjects F s' := fun n o ho => h n o (by rwa [pointsTo_iff, ← hpts, ← pointsTo_iff])

variable (ord) in
/-- A step takes any node of the worklist. -/
theorem solveStep_spec (hknown : KnownObjects F s) (hi : s.worklist[i]? = some n) :
    ∃ s₁ s₂ s', s.solveStep ord F i = some s' ∧ SolveStep F s i n s₁ s₂ s' := by
  let s₀ : MpaSummary V := { s with worklist := s.worklist.eraseIdx i }
  let s₁ := s₀.handleLoadStore ord F n
  have hload : Grown _ _ s₀ s₁ := grown_handleLoadStore s₀ n
  obtain ⟨s₂, hs₂, husers⟩ := grown_handleFuncUsers ord (hknown.congr hload.pointsTo) n
  refine ⟨s₁, s₂, s₂.handleCopyEdges ord n, ?_, hi, hload, husers, propagated_handleCopyEdges s₂ n⟩
  unfold solveStep
  rw [hi, bind_eq_bind, bind_some]
  exact congrArg (Option.bind · _) hs₂

/-! ## The run -/

/-- The nodes and objects of a state are those of the function, and the users of the pointers
are the recorded ones. -/
structure Bounded (ord : IterOrder) (F : MpaFunction V) (s : MpaSummary V) : Prop where
  outgoingLoads : s.outgoingLoads = (initPtInfo ord F).outgoingLoads
  incomingStores : s.incomingStores = (initPtInfo ord F).incomingStores
  usedAsFuncArg : s.usedAsFuncArg = (initPtInfo ord F).usedAsFuncArg
  known : KnownObjects F s
  edges : ∀ a b, b ∈ s.copyOutEdges a → a ∈ F.nodes ∧ b ∈ F.nodes

/-- What the solver can still do. -/
def potential (F : MpaFunction V) (s : MpaSummary V) : Nat :=
  missingEdges F.nodes s + missingItems F F.nodes s + s.worklist.length

theorem Bounded.loadEdge_mem_nodes (h : Bounded ord F s)
    (he : loadEdge F s n a b ∨ storeEdge F s n a b) : a ∈ F.nodes ∧ b ∈ F.nodes := by
  obtain ⟨hhas, -⟩ := initPtInfo_spec ord F
  rcases he with ⟨m, hm, rfl, l, hl, rfl⟩ | ⟨m, hm, rfl, st, hst, v, p, hv, rfl⟩
  · refine ⟨F.memobj_mem_nodes (h.known n m hm), ?_⟩
    rw [h.outgoingLoads] at hl
    rcases (hhas (.load n l)).mp hl with hbase | ⟨w, hw, hdef | ⟨u, hu, huse⟩⟩
    · nomatch hbase
    · nomatch hdef
    · cases huse with
      | load _ _ => exact F.node_mem_nodes (F.user_mem_mentioned hw hu (.inl rfl))
  · refine ⟨?_, F.memobj_mem_nodes (h.known n m hm)⟩
    rw [h.incomingStores] at hst
    rcases (hhas (.store n st)).mp hst with hbase | ⟨w, hw, hdef | ⟨u, hu, huse⟩⟩
    · nomatch hbase
    · nomatch hdef
    · cases huse with
      | store _ _ =>
          refine F.node_mem_nodes (F.user_mem_mentioned hw hu (.inr ?_))
          simp [MpaFunction.operands, hv]

theorem escapeEdge_mem_nodes (hknown : KnownObjects F s) (he : s.escapeEdge n a b) :
    a ∈ F.nodes ∧ b ∈ F.nodes := by
  obtain ⟨-, m, hm, ⟨rfl, rfl⟩ | ⟨rfl, rfl⟩⟩ := he
  · exact ⟨F.memobj_mem_nodes (hknown.of_reach hm), F.unknown_mem_nodes⟩
  · exact ⟨F.unknown_mem_nodes, F.memobj_mem_nodes (hknown.of_reach hm)⟩

/-- A step keeps the summary within the values of the function. -/
theorem SolveStep.bounded (h : SolveStep F s i n s₁ s₂ s') (hs : Bounded ord F s) :
    Bounded ord F s' where
  outgoingLoads := h.copyEdges.outgoingLoads.trans (h.funcUsers.outgoingLoads.trans
    (h.loadStore.outgoingLoads.trans hs.outgoingLoads))
  incomingStores := h.copyEdges.incomingStores.trans (h.funcUsers.incomingStores.trans
    (h.loadStore.incomingStores.trans hs.incomingStores))
  usedAsFuncArg := h.copyEdges.usedAsFuncArg.trans (h.funcUsers.usedAsFuncArg.trans
    (h.loadStore.usedAsFuncArg.trans hs.usedAsFuncArg))
  known x o ho := by
    have hpts : s₂.pointsTo = s.pointsTo := h.funcUsers.pointsTo.trans h.loadStore.pointsTo
    rcases (h.copyEdges.pointsTo x o).mp ho with ho | ⟨-, ho⟩ <;>
      exact hs.known.congr hpts _ _ ho
  edges a b hab := by
    rw [h.copyEdges.copyOutEdges] at hab
    rcases (h.funcUsers.edge a b).mp hab with hab | hab
    · rcases (h.loadStore.edge a b).mp hab with hab | hab
      · exact hs.edges a b hab
      · exact hs.loadEdge_mem_nodes hab
    · exact escapeEdge_mem_nodes (hs.known.congr h.loadStore.pointsTo) hab

/-- A step lowers the potential. -/
theorem SolveStep.potential_lt (h : SolveStep F s i n s₁ s₂ s') (hs : Bounded ord F s) :
    potential F s' < potential F s := by
  have hloads := h.loadStore.potential F.nodes fun a b hab => hs.loadEdge_mem_nodes hab
  have husers := h.funcUsers.potential F.nodes fun a b hab =>
    escapeEdge_mem_nodes (hs.known.congr h.loadStore.pointsTo) hab
  have hpts : s₂.pointsTo = s.pointsTo := h.funcUsers.pointsTo.trans h.loadStore.pointsTo
  have hcopies := h.copyEdges.potential F.nodes (fun x hx => by
    rcases (h.funcUsers.edge n x).mp hx with hx | hx
    · rcases (h.loadStore.edge n x).mp hx with hx | hx
      · exact (hs.edges n x hx).2
      · exact (hs.loadEdge_mem_nodes hx).2
    · exact (escapeEdge_mem_nodes (hs.known.congr h.loadStore.pointsTo) hx).2)
    (hs.known.congr hpts)
  have hitems : missingItems F F.nodes s₂ = missingItems F F.nodes s := by
    have hitem : s₂.hasItem = s.hasItem := by
      funext x item
      have hvector : s₂.getPointeeBitVector x = s.getPointeeBitVector x :=
        congrArg (Option.getD · ∅) (congrFun hpts x)
      cases item with
      | none => exact congrArg Option.isSome (congrFun hpts x)
      | some o => exact decide_eq_decide.mpr (hvector ▸ Iff.rfl)
    unfold missingItems
    rw [hitem]
  have hedges : missingEdges F.nodes s' = missingEdges F.nodes s₂ := by
    unfold missingEdges
    rw [h.copyEdges.copyOutEdges]
  have hpop : (s.worklist.eraseIdx i).length + 1 = s.worklist.length := by
    obtain ⟨hi, -⟩ := List.getElem?_eq_some_iff.mp h.taken
    rw [length_eraseIdx_of_lt hi]
    omega
  have hstart : missingEdges F.nodes { s with worklist := s.worklist.eraseIdx i } =
      missingEdges F.nodes s := rfl
  unfold potential
  simp only [hstart] at hloads
  omega

theorem bounded_startWorklist : Bounded ord F (startWorklist ord F) := by
  obtain ⟨hhas, -⟩ := initPtInfo_spec ord F
  refine ⟨rfl, rfl, rfl, fun n o ho => ?_, fun a b hab => ?_⟩
  · rcases (hhas (.base n o)).mp ho with heq | ⟨w, -, hdef | ⟨u, -, huse⟩⟩
    · obtain ⟨-, rfl⟩ := MpaConstraint.base.inj heq
      exact .head _
    · cases hdef with
      | base hp => exact hp.mem_objects
    · nomatch huse
  · rcases (hhas (.copy a b)).mp hab with heq | ⟨w, hw, hgen⟩
    · nomatch heq
    · exact hgen.copy_mem_nodes hw

theorem Bounded.step (hs : Bounded ord F s) (h : s.solveStep ord F i = some s') :
    ∃ n s₁ s₂, SolveStep F s i n s₁ s₂ s' := by
  cases hi : s.worklist[i]? with
  | none =>
      unfold solveStep at h
      rw [hi] at h
      nomatch h
  | some n =>
      obtain ⟨s₁, s₂, s'', hs'', hstep⟩ := solveStep_spec ord hs.known hi
      obtain rfl := mem_unique h hs''
      exact ⟨n, s₁, s₂, hstep⟩

/-- No run of the solver is longer than the potential. -/
theorem bounded_run : ∀ (choices : List Nat) (s : MpaSummary V), Bounded ord F s →
    choices.foldlM (solveStep ord F) s = some s' →
    Bounded ord F s' ∧ choices.length + potential F s' ≤ potential F s
  | [], s, hs, h => by
      cases h
      exact ⟨hs, by simp⟩
  | i :: choices, s, hs, h => by
      rw [foldlM_cons] at h
      obtain ⟨s₁, h₁, h₂⟩ := bind_eq_some_iff.mp h
      obtain ⟨n, _, _, hstep⟩ := hs.step h₁
      obtain ⟨hs', hle⟩ := bounded_run choices s₁ (hstep.bounded hs) h₂
      have hlt := hstep.potential_lt hs
      refine ⟨hs', ?_⟩
      rw [length_cons]
      omega

theorem bounded_of_solveWorklist {choices : List Nat} (h : solveWorklist ord F choices = some s) :
    Bounded ord F s :=
  (bounded_run choices _ bounded_startWorklist h).1

end MpaSummary

end Noelle
