import Noelle.MayPointsToAnalysis.Propagation

/-!
# MayPointsToAnalysis.Constraints

The inclusion constraints of a function, and that `initPtInfo` generates exactly them.
-/

namespace Noelle

open Function PtrSet List

/-- What `initPtInfo` records. -/
inductive MpaConstraint (V : Type)
  | base (n : NodeID V) (o : Option V)
  | copy (src dst : NodeID V)
  | load (ptr : NodeID V) (loadInst : V)
  | store (ptr : NodeID V) (storeInst : V)
  | funcArg (ptr : NodeID V)

/-- The node that has to be visited for the constraint. -/
def MpaConstraint.source {V : Type} : MpaConstraint V → NodeID V
  | base _ _ => UnknownMemobjId
  | copy src _ => src
  | load ptr _ => ptr
  | store ptr _ => ptr
  | funcArg ptr => ptr

namespace MpaFunction

variable {V : Type} [DecidableEq V] (F : MpaFunction V)

def node (v : V) : NodeID V := .ptr (F.strip v)

/-- A call that the analysis treats as unknown. -/
def IsUnknownCall (v : V) : Prop :=
  ∃ argOperands, F.value v = .callBase .userDefined argOperands ∨
    F.value v = .callBase .unknown argOperands

/-- The object that a pointer points to by its definition. -/
inductive Pointee (w : V) : Option V → Prop
  | allocation : w ∈ F.getAllocations → Pointee w (some w)
  | argument : F.value w = .argument → Pointee w none
  | globalVariable : F.value w = .globalVariable → w ∉ F.getAllocations → Pointee w none
  | call : F.IsUnknownCall w → Pointee w none

/-- The constraints of the definition of a pointer. -/
inductive Defines (w : V) : MpaConstraint V → Prop
  | base {o : Option V} : F.Pointee w o → Defines w (.base (F.node w) o)
  | phi {incomingValues : List V} {v : V} : F.value w = .phiNode incomingValues →
      v ∈ incomingValues → Defines w (.copy (F.node v) (F.node w))
  | selectTrue {t f : V} : F.value w = .selectInst t f →
      Defines w (.copy (F.node t) (F.node w))
  | selectFalse {t f : V} : F.value w = .selectInst t f →
      Defines w (.copy (F.node f) (F.node w))
  | realloc {arg : V} {args : List V} : F.value w = .callBase .realloc (arg :: args) →
      Defines w (.copy (F.node arg) (F.node w))
  | callResult : F.IsUnknownCall w → Defines w (.copy UnknownMemobjId (F.node w))

/-- The constraints of a user of a pointer. -/
inductive Uses (w u : V) : MpaConstraint V → Prop
  | load : F.value u = .loadInst w → F.isPointerTy u = true → Uses w u (.load (F.node w) u)
  | store {v : V} : F.value u = .storeInst v w → F.isPointerTy v = true →
      Uses w u (.store (F.node w) u)
  | memCopy {dst src : V} {args : List V} : F.value u = .callBase .memCopy (dst :: src :: args) →
      Uses w u (.copy (F.node src) (F.node dst))
  | callArgument : F.IsUnknownCall u → Uses w u (.copy (F.node w) UnknownMemobjId)
  | funcArg : F.IsUnknownCall u → Uses w u (.funcArg (F.node w))

def Generates (w : V) (c : MpaConstraint V) : Prop :=
  F.Defines w c ∨ ∃ u ∈ F.users w, F.Uses w u c

/-- The inclusion constraints of the function.  The unknown object points to itself. -/
def constraints : InclusionConstraints (NodeID V) (Option V) where
  content := NodeID.memobj
  unknown := none
  base n o := (n = UnknownMemobjId ∧ o = none) ∨ ∃ w ∈ F.pointers, F.Generates w (.base n o)
  copy src dst := ∃ w ∈ F.pointers, F.Generates w (.copy src dst)
  load ptr dst := ∃ w ∈ F.pointers, ∃ l, F.Generates w (.load ptr l) ∧ dst = F.node l
  store ptr src := ∃ w ∈ F.pointers, ∃ st valueOperand pointerOperand,
    F.Generates w (.store ptr st) ∧ F.value st = .storeInst valueOperand pointerOperand ∧
      src = F.node valueOperand
  escape ptr := ∃ w ∈ F.pointers, F.Generates w (.funcArg ptr)

variable {F} {w : V} {o : Option V}

omit [DecidableEq V] in
theorem strip_eq_self (hgep : ∀ p, F.value w ≠ .getElementPtr p)
    (hcast : ∀ p, F.value w ≠ .bitCast p) : F.strip w = w := by
  have hstrip : ∀ n, F.stripN n w = w := fun n => by
    cases n with
    | zero => rfl
    | succ n =>
        unfold stripN
        split
        · exact absurd ‹_› (hgep _)
        · exact absurd ‹_› (hcast _)
        · rfl
  exact hstrip _

theorem value_of_mem_getAllocations (h : w ∈ F.getAllocations) :
    F.value w = .allocaInst ∨ (∃ args, F.value w = .callBase .malloc args) ∨
      (∃ args, F.value w = .callBase .calloc args) ∨ F.value w = .globalVariable := by
  unfold getAllocations at h
  rcases mem_insertAll.mp h with h | h
  · have hinst := (mem_filter.mp (mem_ofList.mp h)).2
    unfold isAllocationInst at hinst
    split at hinst <;> simp_all
  · exact .inr (.inr (.inr (F.candidate_global w (Option.mem_toList.mp h))))

theorem Pointee.strip_eq (h : F.Pointee w o) : F.strip w = w := by
  have hvalue : F.value w = .allocaInst ∨ (∃ t args, F.value w = .callBase t args) ∨
      F.value w = .globalVariable ∨ F.value w = .argument := by
    cases h with
    | allocation h =>
        rcases value_of_mem_getAllocations h with h | ⟨args, h⟩ | ⟨args, h⟩ | h
        · exact .inl h
        · exact .inr (.inl ⟨_, args, h⟩)
        · exact .inr (.inl ⟨_, args, h⟩)
        · exact .inr (.inr (.inl h))
    | argument h => exact .inr (.inr (.inr h))
    | globalVariable h _ => exact .inr (.inr (.inl h))
    | call h =>
        obtain ⟨args, h | h⟩ := h
        · exact .inr (.inl ⟨_, args, h⟩)
        · exact .inr (.inl ⟨_, args, h⟩)
  rcases hvalue with h | ⟨t, args, h⟩ | h | h <;>
    exact strip_eq_self (fun p => h ▸ nofun) (fun p => h ▸ nofun)

/-- A pointer is defined to point to one object only. -/
theorem Pointee.unique {o' : Option V} (h : F.Pointee w o) (h' : F.Pointee w o') : o = o' := by
  have hglobal : w ∈ F.getAllocations → F.value w ≠ .argument ∧ ¬ F.IsUnknownCall w := fun hw => by
    rcases value_of_mem_getAllocations hw with hv | ⟨args, hv⟩ | ⟨args, hv⟩ | hv <;>
      simp [IsUnknownCall, hv]
  cases h with
  | allocation h =>
      cases h' with
      | allocation _ => rfl
      | argument h' => exact absurd h' (hglobal h).1
      | globalVariable _ h' => exact absurd h h'
      | call h' => exact absurd h' (hglobal h).2
  | argument h =>
      cases h' with
      | allocation h' => exact absurd h (hglobal h').1
      | _ => rfl
  | globalVariable _ h =>
      cases h' with
      | allocation h' => exact absurd h' h
      | _ => rfl
  | call h =>
      cases h' with
      | allocation h' => exact absurd h (hglobal h').2
      | _ => rfl

end MpaFunction

namespace MpaSummary

variable {V : Type} [DecidableEq V] {ord : IterOrder} {F : MpaFunction V}
  {s s' s'' : MpaSummary V} {a b n : NodeID V} {o : Option V} {v w : V}

/-! ## What a state records -/

def Has (s : MpaSummary V) : MpaConstraint V → Prop
  | .base n o => s.PointsTo n o
  | .copy src dst => dst ∈ s.copyOutEdges src
  | .load ptr l => l ∈ s.outgoingLoads ptr
  | .store ptr st => st ∈ s.incomingStores ptr
  | .funcArg ptr => ptr ∈ s.usedAsFuncArg

def Knows (s : MpaSummary V) (n : NodeID V) : Prop :=
  n = UnknownMemobjId ∨ ∃ v ∈ s.ptr2nodeId, n = .ptr v

/-- `s'` is `s` with the constraints `new`. -/
structure Recorded (new : MpaConstraint V → Prop) (s s' : MpaSummary V) : Prop where
  ids : ∀ v ∈ s.ptr2nodeId, v ∈ s'.ptr2nodeId
  has : ∀ c, s'.Has c ↔ s.Has c ∨ new c
  source : ∀ c, new c → s'.Knows c.source

omit [DecidableEq V] in
theorem Knows.mono (h : ∀ v ∈ s.ptr2nodeId, v ∈ s'.ptr2nodeId) (hn : s.Knows n) : s'.Knows n :=
  hn.imp_right fun ⟨v, hv, heq⟩ => ⟨v, h v hv, heq⟩

namespace Recorded

variable {new new' : MpaConstraint V → Prop}

section

omit [DecidableEq V]

theorem refl (s : MpaSummary V) : Recorded (fun _ => False) s s :=
  ⟨fun _ => id, fun _ => (or_false _).symm ▸ Iff.rfl, fun _ h => h.elim⟩

theorem congr (h : Recorded new s s') (hnew : ∀ c, new c ↔ new' c) : Recorded new' s s' := by
  have heq : new = new' := funext fun c => propext (hnew c)
  exact heq ▸ h

theorem trans (h : Recorded new s s') (h' : Recorded new' s' s'') :
    Recorded (fun c => new c ∨ new' c) s s'' where
  ids v hv := h'.ids v (h.ids v hv)
  has c := by rw [h'.has, h.has, or_assoc]
  source c hc := hc.elim (fun hc => (h.source c hc).mono h'.ids) (h'.source c)

theorem foldl {α : Type} (f : MpaSummary V → α → MpaSummary V) (newOf : α → MpaConstraint V → Prop) :
    ∀ (l : List α) (s : MpaSummary V), (∀ x ∈ l, ∀ s' : MpaSummary V,
      (∀ v ∈ s.ptr2nodeId, v ∈ s'.ptr2nodeId) → Recorded (newOf x) s' (f s' x)) →
      Recorded (fun c => ∃ x ∈ l, newOf x c) s (l.foldl f s)
  | [], s, _ => (refl s).congr fun c => by simp
  | x :: l, s, h => by
      have hhead := h x (.head _) s fun _ => id
      have htail := foldl f newOf l (f s x) fun y hy s' hids =>
        h y (.tail x hy) s' fun v hv => hids v (hhead.ids v hv)
      exact (hhead.trans htail).congr fun c => by simp

end

end Recorded

theorem recorded_getPtrId (s : MpaSummary V) (v : V) :
    Recorded (fun _ => False) s (s.getPtrId F v).2 := by
  refine ⟨fun w hw => mem_insert.mpr (.inr hw), fun c => ?_, fun _ h => h.elim⟩
  rw [or_false]
  cases c <;> rfl

theorem knows_getPtrId (s : MpaSummary V) (v : V) : (s.getPtrId F v).2.Knows (F.node v) :=
  .inr ⟨F.strip v, mem_insert.mpr (.inl rfl), rfl⟩

theorem recorded_addCopyEdge (b : NodeID V) (h : s.Knows a) :
    Recorded (· = .copy a b) s (s.addCopyEdge a b).2 := by
  refine ⟨fun _ => id, fun c => ?_, fun c hc => hc ▸ h⟩
  cases c with
  | copy x y =>
      rw [show (s.addCopyEdge a b).2.Has (.copy x y) = (y ∈ (s.addCopyEdge a b).2.copyOutEdges x)
        from rfl, mem_addCopyEdge]
      simp [Has]
  | _ => simp [Has, addCopyEdge, PointsTo, getPointeeBitVector]

theorem recorded_copyFrom (s : MpaSummary V) (v : V) (b : NodeID V) :
    Recorded (· = .copy (F.node v) b) s ((s.getPtrId F v).2.addCopyEdge (F.node v) b).2 :=
  ((recorded_getPtrId s v).trans (recorded_addCopyEdge b (knows_getPtrId s v))).congr fun c => by
    simp

theorem mem_update_insert {α β : Type} [DecidableEq α] [DecidableEq β] {f : α → PtrSet β} {x y : α}
    {e e' : β} : e' ∈ update f x ((f x).insert e) y ↔ e' ∈ f y ∨ (y = x ∧ e' = e) := by
  by_cases h : y = x
  · subst h
    simp [or_comm]
  · simp [h]

/-! ## The constraints of a pointer -/

theorem recorded_outgoingLoads (l : V) (h : s.Knows n) :
    Recorded (· = .load n l) s { s with
      outgoingLoads := update s.outgoingLoads n ((s.outgoingLoads n).insert l) } := by
  refine ⟨fun _ => id, fun c => ?_, fun c hc => hc ▸ h⟩
  cases c with
  | load p l' =>
      refine mem_update_insert.trans (or_congr_right ?_)
      simp
  | _ => exact ⟨.inl, fun h => h.elim id nofun⟩

theorem recorded_incomingStores (st : V) (h : s.Knows n) :
    Recorded (· = .store n st) s { s with
      incomingStores := update s.incomingStores n ((s.incomingStores n).insert st) } := by
  refine ⟨fun _ => id, fun c => ?_, fun c hc => hc ▸ h⟩
  cases c with
  | store p st' =>
      refine mem_update_insert.trans (or_congr_right ?_)
      simp
  | _ => exact ⟨.inl, fun h => h.elim id nofun⟩

theorem recorded_usedAsFuncArg (h : s.Knows n) :
    Recorded (· = .funcArg n) s { s with usedAsFuncArg := s.usedAsFuncArg.insert n } := by
  refine ⟨fun _ => id, fun c => ?_, fun c hc => hc ▸ h⟩
  cases c with
  | funcArg p =>
      refine mem_insert.trans ?_
      rw [or_comm, MpaConstraint.funcArg.injEq]
      rfl
  | _ => exact ⟨.inl, fun h => h.elim id nofun⟩

theorem recorded_unknownCall {u : V} (h : s.Knows (F.node w)) (hu : F.IsUnknownCall u) :
    Recorded (F.Uses w u) s
      ({ s with usedAsFuncArg := s.usedAsFuncArg.insert (F.node w) }.addCopyEdge (F.node w)
        UnknownMemobjId).2 := by
  let s₁ : MpaSummary V := { s with usedAsFuncArg := s.usedAsFuncArg.insert (F.node w) }
  refine ((recorded_usedAsFuncArg h).trans
    (recorded_addCopyEdge UnknownMemobjId (s := s₁) h)).congr fun c => ?_
  constructor
  · rintro (rfl | rfl)
    · exact .funcArg hu
    · exact .callArgument hu
  · intro hc
    obtain ⟨args, hv | hv⟩ := hu <;> cases hc <;> simp_all

/-- A user is recorded with the constraints of its use. -/
theorem recorded_recordUser (h : s.Knows (F.node w)) (u : V) :
    Recorded (F.Uses w u) s (recordUser F w (F.node w) s u) := by
  have hnone : (∀ c, ¬ F.Uses w u c) → Recorded (F.Uses w u) s s := fun hno =>
    (Recorded.refl s).congr fun c => ⟨False.elim, hno c⟩
  cases hu : F.value u with
  | loadInst pointerOperand =>
      by_cases hload : (decide (w = pointerOperand) && F.isPointerTy u) = true
      · simp only [recordUser, hu]
        rw [if_pos hload]
        obtain ⟨heq, hty⟩ := (Bool.and_eq_true _ _).mp hload
        have heq := of_decide_eq_true heq
        subst heq
        refine (recorded_outgoingLoads u h).congr fun c => ⟨?_, fun hc => ?_⟩
        · rintro rfl
          exact .load hu hty
        · cases hc <;> simp_all [MpaFunction.IsUnknownCall]
      · simp only [recordUser, hu]
        rw [if_neg hload]
        refine hnone fun c hc => ?_
        cases hc <;> simp_all [MpaFunction.IsUnknownCall]
  | storeInst valueOperand pointerOperand =>
      by_cases hstore : (decide (w = pointerOperand) && F.isPointerTy valueOperand) = true
      · simp only [recordUser, hu]
        rw [if_pos hstore]
        obtain ⟨heq, hty⟩ := (Bool.and_eq_true _ _).mp hstore
        have heq := of_decide_eq_true heq
        subst heq
        refine (recorded_incomingStores u h).congr fun c => ⟨?_, fun hc => ?_⟩
        · rintro rfl
          exact .store hu hty
        · cases hc <;> simp_all [MpaFunction.IsUnknownCall]
      · simp only [recordUser, hu]
        rw [if_neg hstore]
        refine hnone fun c hc => ?_
        cases hc <;> simp_all [MpaFunction.IsUnknownCall]
  | callBase calleeType args =>
      cases calleeType with
      | memCopy =>
          match args with
          | dst :: src :: args =>
              let s₁ := (s.getPtrId F src).2
              let s₂ := (s₁.getPtrId F dst).2
              have hids : Recorded (fun _ => False) s₁ s₂ := recorded_getPtrId s₁ dst
              have hsrc : s₂.Knows (F.node src) := (knows_getPtrId s src).mono hids.ids
              simp only [recordUser, hu]
              refine (((recorded_getPtrId s src).trans hids).trans
                (recorded_addCopyEdge (F.node dst) hsrc)).congr fun c => ⟨?_, fun hc => ?_⟩
              · rintro ((hc | hc) | rfl)
                · exact hc.elim
                · exact hc.elim
                · exact .memCopy hu
              · refine .inr ?_
                cases hc <;> simp_all [MpaFunction.IsUnknownCall]
          | [] | [_] =>
              simp only [recordUser, hu]
              refine hnone fun c hc => ?_
              cases hc <;> simp_all [MpaFunction.IsUnknownCall]
      | userDefined =>
          simp only [recordUser, hu]
          exact recorded_unknownCall h ⟨args, .inl hu⟩
      | unknown =>
          simp only [recordUser, hu]
          exact recorded_unknownCall h ⟨args, .inr hu⟩
      | _ =>
          simp only [recordUser, hu]
          refine hnone fun c hc => ?_
          cases hc <;> simp_all [MpaFunction.IsUnknownCall]
  | _ =>
      simp only [recordUser, hu]
      refine hnone fun c hc => ?_
      cases hc <;> simp_all [MpaFunction.IsUnknownCall]

/-- The pointees of a definition are recorded. -/
theorem has_setPointsTo {pts : PtrSet (Option V)} (hstrip : F.strip w = w)
    (hold : ∀ o, s.PointsTo (.ptr w) o → F.Pointee w o) (hpts : ∀ o, o ∈ pts ↔ F.Pointee w o) :
    Recorded (fun c => ∃ o, F.Pointee w o ∧ c = .base (F.node w) o) s
      (s.setPointsTo (F.node w) pts) := by
  have hnode : F.node w = .ptr w := congrArg NodeID.ptr hstrip
  refine ⟨fun _ => id, fun c => ?_, ?_⟩
  · cases c with
    | base n o =>
        rw [hnode]
        by_cases hn : n = .ptr w
        · subst hn
          have hself : (s.setPointsTo (.ptr w) pts).pointsTo (.ptr w) = some pts :=
            update_self ..
          have hiff : (s.setPointsTo (.ptr w) pts).PointsTo (.ptr w) o ↔ F.Pointee w o := by
            rw [pointsTo_iff, hself, ← hpts]
            simp
          refine hiff.trans ⟨fun h => .inr ⟨o, h, rfl⟩, ?_⟩
          rintro (h | ⟨o', h, heq⟩)
          · exact hold o h
          · exact (MpaConstraint.base.inj heq).2 ▸ h
        · have hother : (s.setPointsTo (.ptr w) pts).pointsTo n = s.pointsTo n :=
            update_of_ne hn ..
          have hiff : (s.setPointsTo (.ptr w) pts).PointsTo n o ↔ s.PointsTo n o := by
            rw [pointsTo_iff, hother, ← pointsTo_iff]
          refine hiff.trans ⟨.inl, ?_⟩
          rintro (h | ⟨o', -, heq⟩)
          · exact h
          · exact absurd (MpaConstraint.base.inj heq).1 hn
    | _ => exact ⟨.inl, fun h => h.elim id fun ⟨_, _, h⟩ => nomatch h⟩
  · rintro c ⟨o, -, rfl⟩
    exact .inl rfl

theorem recorded_onlyPointsTo (hpointee : F.Pointee w o)
    (hold : F.strip w = w → ∀ o, s.PointsTo (.ptr w) o → F.Pointee w o) :
    Recorded (· = .base (F.node w) o) s (s.setPointsTo (F.node w) (onlyPointsTo o)) := by
  refine (has_setPointsTo hpointee.strip_eq (hold hpointee.strip_eq) fun o' => ?_).congr
    fun c => ⟨?_, fun hc => ⟨o, hpointee, hc⟩⟩
  · rw [onlyPointsTo, mem_ofList, mem_singleton]
    exact ⟨fun h => h ▸ hpointee, fun h => h.unique hpointee⟩
  · rintro ⟨o', ho', rfl⟩
    rw [ho'.unique hpointee]

theorem recorded_of_pointee (hpointee : F.Pointee w o)
    (hcopy : ∀ a b, ¬ F.Defines w (.copy a b))
    (hold : F.strip w = w → ∀ o, s.PointsTo (.ptr w) o → F.Pointee w o) :
    Recorded (F.Defines w) s (s.setPointsTo (F.node w) (onlyPointsTo o)) := by
  refine (recorded_onlyPointsTo hpointee hold).congr fun c => ⟨?_, fun hc => ?_⟩
  · rintro rfl
    exact .base hpointee
  · cases c with
    | base n o' =>
        cases hc with
        | base ho => rw [ho.unique hpointee]
    | copy a b => exact absurd hc (hcopy a b)
    | _ => nomatch hc

theorem recorded_callResult (hcall : F.IsUnknownCall w)
    (hold : F.strip w = w → ∀ o, s.PointsTo (.ptr w) o → F.Pointee w o) :
    Recorded (F.Defines w) s
      ((s.setPointsTo (F.node w) (onlyPointsTo none)).addCopyEdge UnknownMemobjId (F.node w)).2 := by
  refine ((recorded_onlyPointsTo (.call hcall) hold).trans
    (recorded_addCopyEdge (F.node w) (.inl rfl))).congr fun c => ⟨?_, fun hc => ?_⟩
  · rintro (rfl | rfl)
    · exact .base (.call hcall)
    · exact .callResult hcall
  · have hpointee : F.Pointee w none := .call hcall
    obtain ⟨args, hv⟩ := hcall
    cases hc with
    | base ho => exact .inl (by rw [ho.unique hpointee])
    | callResult => exact .inr rfl
    | _ => simp_all

/-- A pointer is recorded with the constraints of its definition. -/
theorem recorded_initPointer
    (hold : F.strip w = w → ∀ o, s.PointsTo (.ptr w) o → F.Pointee w o) :
    Recorded (F.Defines w) s (initPointer F s w (F.node w)) := by
  unfold initPointer
  by_cases halloc : w ∈ F.getAllocations
  · rw [if_pos halloc]
    refine recorded_of_pointee (.allocation halloc) (fun a b hc => ?_) hold
    rcases MpaFunction.value_of_mem_getAllocations halloc with hw | ⟨_, hw⟩ | ⟨_, hw⟩ | hw <;>
      cases hc <;> simp_all [MpaFunction.IsUnknownCall]
  · rw [if_neg halloc]
    have hpointee : ∀ o, F.Pointee w o → F.value w = .argument ∨ F.value w = .globalVariable ∨
        F.IsUnknownCall w := fun o ho => by
      cases ho with
      | allocation h => exact absurd h halloc
      | argument h => exact .inl h
      | globalVariable h _ => exact .inr (.inl h)
      | call h => exact .inr (.inr h)
    have hnone : (∀ c, ¬ F.Defines w c) → Recorded (F.Defines w) s s := fun hno =>
      (Recorded.refl s).congr fun c => ⟨False.elim, hno c⟩
    cases hw : F.value w with
    | phiNode incomingValues =>
        refine (Recorded.foldl _ (fun v c => c = .copy (F.node v) (F.node w)) incomingValues s
          fun v _ s₁ _ => recorded_copyFrom s₁ v (F.node w)).congr fun c => ⟨?_, fun hc => ?_⟩
        · rintro ⟨v, hv, rfl⟩
          exact .phi hw hv
        · cases hc with
          | base ho => simpa [hw, MpaFunction.IsUnknownCall] using hpointee _ ho
          | phi hw' hv =>
              obtain rfl := MpaValue.phiNode.inj (hw.symm.trans hw')
              exact ⟨_, hv, rfl⟩
          | _ => simp_all [MpaFunction.IsUnknownCall]
    | selectInst t f =>
        let s₁ := (s.getPtrId F t).2
        let s₂ := (s₁.getPtrId F f).2
        have hids : Recorded (fun _ => False) s₁ s₂ := recorded_getPtrId s₁ f
        have ht : s₂.Knows (F.node t) := (knows_getPtrId s t).mono hids.ids
        have htrue := recorded_addCopyEdge (F.node w) ht
        have hf : (s₂.addCopyEdge (F.node t) (F.node w)).2.Knows (F.node f) :=
          (knows_getPtrId s₁ f).mono htrue.ids
        refine ((((recorded_getPtrId s t).trans hids).trans htrue).trans
          (recorded_addCopyEdge (F.node w) hf)).congr fun c => ⟨?_, fun hc => ?_⟩
        · rintro (((hc | hc) | rfl) | rfl)
          · exact hc.elim
          · exact hc.elim
          · exact .selectTrue hw
          · exact .selectFalse hw
        · cases hc with
          | base ho => simpa [hw, MpaFunction.IsUnknownCall] using hpointee _ ho
          | selectTrue hw' =>
              obtain ⟨rfl, rfl⟩ := MpaValue.selectInst.inj (hw.symm.trans hw')
              exact .inl (.inr rfl)
          | selectFalse hw' =>
              obtain ⟨rfl, rfl⟩ := MpaValue.selectInst.inj (hw.symm.trans hw')
              exact .inr rfl
          | _ => simp_all [MpaFunction.IsUnknownCall]
    | argument =>
        refine recorded_of_pointee (.argument hw) (fun a b hc => ?_) hold
        cases hc <;> simp_all [MpaFunction.IsUnknownCall]
    | globalVariable =>
        refine recorded_of_pointee (.globalVariable hw halloc) (fun a b hc => ?_) hold
        cases hc <;> simp_all [MpaFunction.IsUnknownCall]
    | constantPointerNull =>
        have hno : ∀ c, ¬ F.Defines w c := fun c hc => by
          cases hc with
          | base ho => simpa [hw, MpaFunction.IsUnknownCall] using hpointee _ ho
          | _ => simp_all [MpaFunction.IsUnknownCall]
        have hstrip : F.strip w = w :=
          MpaFunction.strip_eq_self (fun p => hw ▸ nofun) (fun p => hw ▸ nofun)
        refine (has_setPointsTo hstrip (hold hstrip) fun o => ?_).congr fun c => ?_
        · exact ⟨fun h => absurd h (not_mem_empty o), fun h => absurd (.base h) (hno _)⟩
        · exact ⟨fun ⟨o, ho, _⟩ => absurd (.base ho) (hno _), fun hc => absurd hc (hno c)⟩
    | callBase calleeType args =>
        cases calleeType with
        | realloc =>
            cases args with
            | nil =>
                refine hnone fun c hc => ?_
                cases hc with
                | base ho => simpa [hw, MpaFunction.IsUnknownCall] using hpointee _ ho
                | _ => simp_all [MpaFunction.IsUnknownCall]
            | cons arg args =>
                refine (recorded_copyFrom s arg (F.node w)).congr fun c => ⟨?_, fun hc => ?_⟩
                · rintro rfl
                  exact .realloc hw
                · cases hc with
                  | base ho => simpa [hw, MpaFunction.IsUnknownCall] using hpointee _ ho
                  | _ => simp_all [MpaFunction.IsUnknownCall]
        | userDefined => exact recorded_callResult ⟨args, .inl hw⟩ hold
        | unknown => exact recorded_callResult ⟨args, .inr hw⟩ hold
        | _ =>
            refine hnone fun c hc => ?_
            cases hc with
            | base ho => simpa [hw, MpaFunction.IsUnknownCall] using hpointee _ ho
            | _ => simp_all [MpaFunction.IsUnknownCall]
    | _ =>
        refine hnone fun c hc => ?_
        cases hc with
        | base ho => simpa [hw, MpaFunction.IsUnknownCall] using hpointee _ ho
        | _ => simp_all [MpaFunction.IsUnknownCall]

theorem recorded_initPtr
    (hold : F.strip w = w → ∀ o, s.PointsTo (.ptr w) o → F.Pointee w o) :
    Recorded (F.Generates w) s (initPtr F s w) ∧ (initPtr F s w).Knows (F.node w) := by
  let s₁ := (s.getPtrId F w).2
  have hid : Recorded (fun _ => False) s s₁ := recorded_getPtrId s w
  have hdef : Recorded (F.Defines w) s₁ (initPointer F s₁ w (F.node w)) :=
    recorded_initPointer hold
  have huses := Recorded.foldl (recordUser F w (F.node w)) (F.Uses w) (F.users w)
    (initPointer F s₁ w (F.node w)) fun u _ s₂ hids =>
      recorded_recordUser ((knows_getPtrId s w).mono fun v hv => hids v (hdef.ids v hv)) u
  refine ⟨((hid.trans hdef).trans huses).congr fun c => ?_, (knows_getPtrId s w).mono fun v hv => ?_⟩
  · rw [false_or]
    rfl
  · exact huses.ids v (hdef.ids v hv)

variable (ord F) in
/-- The summary starts with the constraints that the pointers generate. -/
theorem initPtInfo_spec :
    (∀ c, (initPtInfo ord F).Has c ↔ c = .base UnknownMemobjId none ∨
      ∃ w ∈ F.pointers, F.Generates w c) ∧
    (∀ w ∈ F.pointers, (initPtInfo ord F).Knows (F.node w)) ∧
    ∀ w ∈ F.pointers, ∀ c, F.Generates w c → (initPtInfo ord F).Knows c.source := by
  let s₀ : MpaSummary V := (clear : MpaSummary V).setPointsTo UnknownMemobjId (onlyPointsTo none)
  have hrule := foldl_rule (initPtr F) (fun (pre : List V) s =>
    (∀ c, s.Has c ↔ c = .base UnknownMemobjId none ∨ ∃ w ∈ pre, F.Generates w c) ∧
    (∀ w ∈ pre, s.Knows (F.node w)) ∧ ∀ w ∈ pre, ∀ c, F.Generates w c → s.Knows c.source)
    (l := ord.visit F.pointers.elems) (s := s₀) ?_ ?_
  · obtain ⟨hhas, hnode, hsource⟩ := hrule
    refine ⟨fun c => (hhas c).trans (or_congr_right ?_), fun w hw => ?_, fun w hw => ?_⟩
    · simp only [ord.mem_visit, mem_elems]
    · exact hnode w (ord.mem_visit.mpr hw)
    · exact hsource w (ord.mem_visit.mpr hw)
  · refine ⟨fun c => ?_, fun w hw => absurd hw not_mem_nil,
      fun w hw => absurd hw not_mem_nil⟩
    have hiff : s₀.Has c ↔ c = .base UnknownMemobjId none := by
      cases c with
      | base n o =>
          by_cases hn : n = UnknownMemobjId
          · subst hn
            have hself : s₀.pointsTo UnknownMemobjId = some (onlyPointsTo none) := by
              simp [s₀, setPointsTo]
            refine pointsTo_iff.trans ?_
            rw [hself]
            simp [onlyPointsTo]
          · have hother : s₀.pointsTo n = none := update_of_ne hn ..
            refine pointsTo_iff.trans ?_
            rw [hother]
            simp [hn]
      | _ =>
          refine ⟨fun h => absurd h (not_mem_empty _), fun h => ?_⟩
          cases h
    rw [hiff]
    simp
  · intro pre w post s _ hI
    obtain ⟨hhas, hnode, hsource⟩ := hI
    -- no other pointer of the prefix has the node of one that points to something itself
    have hold : F.strip w = w → ∀ o, s.PointsTo (.ptr w) o → F.Pointee w o := fun hstrip o ho => by
      rcases (hhas (.base (.ptr w) o)).mp ho with heq | ⟨w', -, hdef | ⟨u, -, huse⟩⟩
      · cases (MpaConstraint.base.inj heq).1
      · generalize hc : MpaConstraint.base (.ptr w) o = c at hdef
        cases hdef with
        | base hp =>
            obtain ⟨hn, rfl⟩ := MpaConstraint.base.inj hc
            have hw : w = F.strip w' := NodeID.ptr.inj hn
            rw [hp.strip_eq] at hw
            exact hw ▸ hp
        | _ => cases hc
      · cases huse
    obtain ⟨hrec, hknows⟩ := recorded_initPtr hold
    refine ⟨fun c => ?_, fun w' hw' => ?_, fun w' hw' c hc => ?_⟩
    · rw [hrec.has, hhas, or_assoc]
      simp only [mem_append, mem_singleton]
      refine or_congr_right ⟨?_, ?_⟩
      · rintro (⟨w', hw', hc⟩ | hc)
        · exact ⟨w', .inl hw', hc⟩
        · exact ⟨w, .inr rfl, hc⟩
      · rintro ⟨w', hw' | rfl, hc⟩
        · exact .inl ⟨w', hw', hc⟩
        · exact .inr hc
    · rcases mem_append.mp hw' with hw' | hw'
      · exact (hnode w' hw').mono hrec.ids
      · exact mem_singleton.mp hw' ▸ hknows
    · rcases mem_append.mp hw' with hw' | hw'
      · exact (hsource w' hw' c hc).mono hrec.ids
      · obtain rfl := mem_singleton.mp hw'
        exact hrec.source c hc

end MpaSummary

end Noelle
