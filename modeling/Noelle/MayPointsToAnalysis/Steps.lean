import Mathlib.Data.List.ProdSigma
import Noelle.MayPointsToAnalysis.Basic

/-!
# MayPointsToAnalysis.Steps

What the handlers of the solver can do.

`handleLoadStore` and `handleFuncUsers` only add copy edges and push nodes; `Grown`
describes that and composes along their loops.  `handleCopyEdges` only passes pointees on
along the copy edges of one node; `Propagated` describes that.  Both bound the pushes by
what is still missing in a finite universe of nodes and objects.
-/

namespace Noelle

open List

namespace MpaSummary

variable {V : Type} [DecidableEq V] {ord : IterOrder} {F : MpaFunction V}
  {s s' s'' : MpaSummary V} {a b n : NodeID V} {m o : Option V}

/-! ## Copy edges -/

/-- The copy edges over `U` that are not there yet. -/
def missingEdges (U : List (NodeID V)) (s : MpaSummary V) : Nat :=
  ((U.product U).filter fun e => decide (e.2 ∉ s.copyOutEdges e.1)).length

/-- `s'` is `s` with the copy edges `new`, and with the sources of the ones that were missing on
the worklist, `exempt` ones apart. -/
structure Grown (exempt : NodeID V → NodeID V → Prop) (new : NodeID V → NodeID V → Prop)
    (s s' : MpaSummary V) : Prop where
  pointsTo : s'.pointsTo = s.pointsTo
  incomingStores : s'.incomingStores = s.incomingStores
  outgoingLoads : s'.outgoingLoads = s.outgoingLoads
  usedAsFuncArg : s'.usedAsFuncArg = s.usedAsFuncArg
  edge : ∀ a b, b ∈ s'.copyOutEdges a ↔ b ∈ s.copyOutEdges a ∨ new a b
  worklist : ∀ a ∈ s.worklist, a ∈ s'.worklist
  pushed : ∀ a b, new a b → b ∈ s.copyOutEdges a ∨ a ∈ s'.worklist ∨ exempt a b
  queued : ∀ x ∈ s'.worklist, x ∈ s.worklist ∨ ∃ a b, new a b ∧ (x = a ∨ x = b)
  potential : ∀ U, (∀ a b, new a b → a ∈ U ∧ b ∈ U) →
    missingEdges U s' + s'.worklist.length ≤ missingEdges U s + s.worklist.length

namespace Grown

variable {exempt : NodeID V → NodeID V → Prop} {new new' : NodeID V → NodeID V → Prop}

theorem refl (s : MpaSummary V) : Grown exempt (fun _ _ => False) s s :=
  ⟨rfl, rfl, rfl, rfl, fun _ _ => (or_false _).symm ▸ Iff.rfl, fun _ => id, fun _ _ h => h.elim,
    fun _ => .inl, fun _ _ => le_rfl⟩

theorem congr (h : Grown exempt new s s') (hnew : ∀ a b, new a b ↔ new' a b) :
    Grown exempt new' s s' := by
  have heq : new = new' := funext fun a => funext fun b => propext (hnew a b)
  exact heq ▸ h

/-- The edges that two growths add. -/
theorem trans (h : Grown exempt new s s') (h' : Grown exempt new' s' s'') :
    Grown exempt (fun a b => new a b ∨ new' a b) s s'' where
  pointsTo := h'.pointsTo.trans h.pointsTo
  incomingStores := h'.incomingStores.trans h.incomingStores
  outgoingLoads := h'.outgoingLoads.trans h.outgoingLoads
  usedAsFuncArg := h'.usedAsFuncArg.trans h.usedAsFuncArg
  edge a b := by rw [h'.edge, h.edge, or_assoc]
  worklist a ha := h'.worklist a (h.worklist a ha)
  pushed a b hab := by
    have hold : new a b → b ∈ s.copyOutEdges a ∨ a ∈ s''.worklist ∨ exempt a b := fun hnew =>
      (h.pushed a b hnew).imp_right (Or.imp_left (h'.worklist a))
    rcases hab with hnew | hnew
    · exact hold hnew
    · rcases h'.pushed a b hnew with hedge | hor
      · rcases (h.edge a b).mp hedge with hedge | hnew
        · exact .inl hedge
        · exact hold hnew
      · exact .inr hor
  queued x hx := by
    rcases h'.queued x hx with hx | ⟨a, b, hab, hor⟩
    · rcases h.queued x hx with hx | ⟨a, b, hab, hor⟩
      · exact .inl hx
      · exact .inr ⟨a, b, .inl hab, hor⟩
    · exact .inr ⟨a, b, .inr hab, hor⟩
  potential U hU := (h'.potential U fun a b hab => hU a b (.inr hab)).trans
    (h.potential U fun a b hab => hU a b (.inl hab))

theorem foldl {α : Type} (f : MpaSummary V → α → MpaSummary V)
    (newOf : α → NodeID V → NodeID V → Prop) :
    ∀ (l : List α) (s : MpaSummary V), (∀ x ∈ l, ∀ s' : MpaSummary V,
      s'.pointsTo = s.pointsTo → s'.incomingStores = s.incomingStores →
      s'.outgoingLoads = s.outgoingLoads → Grown exempt (newOf x) s' (f s' x)) →
      Grown exempt (fun a b => ∃ x ∈ l, newOf x a b) s (l.foldl f s)
  | [], s, _ => (refl s).congr fun a b => by simp
  | x :: l, s, h => by
      have hhead := h x (.head _) s rfl rfl rfl
      have htail := foldl f newOf l (f s x) fun y hy s' hpts hstores hloads =>
        h y (.tail x hy) s' (hpts.trans hhead.pointsTo)
          (hstores.trans hhead.incomingStores) (hloads.trans hhead.outgoingLoads)
      exact (hhead.trans htail).congr fun a b => by simp

end Grown

@[simp] theorem mem_addCopyEdge {x y : NodeID V} :
    y ∈ (s.addCopyEdge a b).2.copyOutEdges x ↔ y ∈ s.copyOutEdges x ∨ (x = a ∧ y = b) := by
  unfold addCopyEdge
  by_cases hx : x = a
  · subst hx
    simp [or_comm]
  · simp [hx]

theorem missingEdges_le {U : List (NodeID V)}
    (h : ∀ a b, b ∈ s.copyOutEdges a → b ∈ s'.copyOutEdges a) :
    missingEdges U s' ≤ missingEdges U s := by
  refine (monotone_filter_right _ fun e he => ?_).length_le
  exact decide_eq_true fun hmem => of_decide_eq_true he (h e.1 e.2 hmem)

theorem missingEdges_lt {U : List (NodeID V)} (ha : a ∈ U) (hb : b ∈ U)
    (h : ∀ a b, b ∈ s.copyOutEdges a → b ∈ s'.copyOutEdges a) (hold : b ∉ s.copyOutEdges a)
    (hnew : b ∈ s'.copyOutEdges a) : missingEdges U s' < missingEdges U s :=
  length_filter_lt (a := (a, b))
    (fun e _ he => decide_eq_true fun hmem => of_decide_eq_true he (h e.1 e.2 hmem))
    (mem_product.mpr ⟨ha, hb⟩) (decide_eq_true hold) (decide_eq_false (not_not.mpr hnew))

/-- A new copy edge queues its source. -/
theorem grown_addCopyEdge_pushIf (s : MpaSummary V) (a b : NodeID V) :
    Grown (fun _ _ => False) (fun x y => x = a ∧ y = b) s
      ((s.addCopyEdge a b).2.pushIf (s.addCopyEdge a b).1 a) := by
  have hedge : ∀ x y, y ∈ ((s.addCopyEdge a b).2.pushIf (s.addCopyEdge a b).1 a).copyOutEdges x ↔
      y ∈ s.copyOutEdges x ∨ (x = a ∧ y = b) := fun x y => by
    rw [← mem_addCopyEdge]
    unfold pushIf
    split <;> rfl
  by_cases hab : b ∈ s.copyOutEdges a
  · have hadded : (s.addCopyEdge a b).1 = false := decide_eq_false (not_not.mpr hab)
    rw [hadded] at hedge ⊢
    refine ⟨rfl, rfl, rfl, rfl, hedge, fun _ => id, ?_, fun _ => .inl, fun U _ => ?_⟩
    · rintro x y ⟨rfl, rfl⟩
      exact .inl hab
    · exact Nat.add_le_add_right (missingEdges_le fun x y h => (hedge x y).mpr (.inl h)) _
  · have hadded : (s.addCopyEdge a b).1 = true := decide_eq_true hab
    rw [hadded] at hedge ⊢
    have hlist : ((s.addCopyEdge a b).2.pushIf true a).worklist = s.worklist ++ [a] := rfl
    refine ⟨rfl, rfl, rfl, rfl, hedge, fun x hx => ?_, ?_, fun x hx => ?_, fun U hU => ?_⟩
    · rw [hlist]
      exact mem_append_left _ hx
    · rintro x y ⟨rfl, rfl⟩
      exact .inr (.inl (hlist ▸ mem_append_right _ (.head _)))
    · rw [hlist, mem_append, mem_singleton] at hx
      exact hx.imp_right fun hx => ⟨a, b, ⟨rfl, rfl⟩, .inl hx⟩
    · obtain ⟨ha, hb⟩ := hU a b ⟨rfl, rfl⟩
      have hlt := missingEdges_lt ha hb (fun x y h => (hedge x y).mpr (.inl h)) hab
        ((hedge a b).mpr (.inr ⟨rfl, rfl⟩))
      rw [hlist, length_append, length_singleton]
      omega

/-- The copy edges that `handleFuncUsers` adds without pushing their sources. -/
def fromUnknown (a b : NodeID V) : Prop := a = UnknownMemobjId ∧ b ≠ UnknownMemobjId

/-- An object exchanges its contents with the unknown one. -/
theorem grown_exchangeWithUnknown (s : MpaSummary V) (m : Option V) :
    Grown fromUnknown (fun x y => (x = .memobj m ∧ y = UnknownMemobjId) ∨
      (x = UnknownMemobjId ∧ y = .memobj m)) s (s.exchangeWithUnknown m) := by
  let s₁ := (s.addCopyEdge (.memobj m) UnknownMemobjId).2
  let s₂ := (s₁.addCopyEdge UnknownMemobjId (.memobj m)).2
  let changed := (s.addCopyEdge (.memobj m) UnknownMemobjId).1 ||
    (s₁.addCopyEdge UnknownMemobjId (.memobj m)).1
  have hstep : s.exchangeWithUnknown m = s₂.pushIf changed (.memobj m) := rfl
  have hedge : ∀ x y, y ∈ (s₂.pushIf changed (.memobj m)).copyOutEdges x ↔
      y ∈ s.copyOutEdges x ∨ (x = .memobj m ∧ y = UnknownMemobjId) ∨
        (x = UnknownMemobjId ∧ y = .memobj m) := fun x y => by
    have hpush : (s₂.pushIf changed (.memobj m)).copyOutEdges = s₂.copyOutEdges := by
      unfold pushIf
      split <;> rfl
    rw [hpush, mem_addCopyEdge, mem_addCopyEdge, or_assoc]
  rw [hstep]
  cases hchanged : changed with
  | false =>
      rw [hchanged] at hedge
      obtain ⟨hout, hin⟩ := Bool.or_eq_false_iff.mp hchanged
      have hout : UnknownMemobjId ∈ s.copyOutEdges (.memobj m) :=
        not_not.mp (of_decide_eq_false hout)
      refine ⟨rfl, rfl, rfl, rfl, hedge, fun _ => id, ?_, fun _ => .inl, fun U _ => ?_⟩
      · rintro x y (⟨rfl, rfl⟩ | ⟨rfl, rfl⟩)
        · exact .inl hout
        · by_cases heq : NodeID.memobj m = UnknownMemobjId
          · rw [heq] at hout ⊢
            exact .inl hout
          · exact .inr (.inr ⟨rfl, heq⟩)
      · exact Nat.add_le_add_right (missingEdges_le fun x y h => (hedge x y).mpr (.inl h)) _
  | true =>
      rw [hchanged] at hedge
      have hlist : (s₂.pushIf true (.memobj m)).worklist = s.worklist ++ [.memobj m] := rfl
      refine ⟨rfl, rfl, rfl, rfl, hedge, fun x hx => ?_, ?_, fun x hx => ?_, fun U hU => ?_⟩
      · rw [hlist]
        exact mem_append_left _ hx
      · rintro x y (⟨rfl, rfl⟩ | ⟨rfl, rfl⟩)
        · exact .inr (.inl (hlist ▸ mem_append_right _ (.head _)))
        · by_cases heq : NodeID.memobj m = UnknownMemobjId
          · refine .inr (.inl ?_)
            rw [hlist, heq]
            exact mem_append_right _ (.head _)
          · exact .inr (.inr ⟨rfl, heq⟩)
      · rw [hlist, mem_append, mem_singleton] at hx
        exact hx.imp_right fun hx => ⟨_, _, .inl ⟨rfl, rfl⟩, .inl hx⟩
      · obtain ⟨hm, hunknown⟩ := hU _ _ (.inl ⟨rfl, rfl⟩)
        have hmono : ∀ x y, y ∈ s.copyOutEdges x → y ∈ (s₂.pushIf true (.memobj m)).copyOutEdges x :=
          fun x y h => (hedge x y).mpr (.inl h)
        have hlt : missingEdges U (s₂.pushIf true (.memobj m)) < missingEdges U s := by
          rcases (Bool.or_eq_true _ _).mp hchanged with hout | hin
          · exact missingEdges_lt hm hunknown hmono (of_decide_eq_true hout)
              ((hedge _ _).mpr (.inr (.inl ⟨rfl, rfl⟩)))
          · refine missingEdges_lt hunknown hm hmono (fun hmem => of_decide_eq_true hin ?_)
              ((hedge _ _).mpr (.inr (.inr ⟨rfl, rfl⟩)))
            exact mem_addCopyEdge.mpr (.inl hmem)
        rw [hlist, length_append, length_singleton]
        omega

/-! ## Loads and stores -/

/-- A load from the pointer, with the object it reads. -/
def loadEdge (F : MpaFunction V) (s : MpaSummary V) (n a b : NodeID V) : Prop :=
  ∃ m ∈ s.getPointeeBitVector n, a = .memobj m ∧ ∃ l ∈ s.outgoingLoads n, b = .ptr (F.strip l)

/-- A store through the pointer, with the object it writes. -/
def storeEdge (F : MpaFunction V) (s : MpaSummary V) (n a b : NodeID V) : Prop :=
  ∃ m ∈ s.getPointeeBitVector n, b = .memobj m ∧ ∃ st ∈ s.incomingStores n,
    ∃ valueOperand pointerOperand, F.value st = .storeInst valueOperand pointerOperand ∧
      a = .ptr (F.strip valueOperand)

theorem grown_getPtrId (s : MpaSummary V) (v : V) :
    Grown (fun _ _ => False) (fun _ _ => False) s (s.getPtrId F v).2 :=
  ⟨rfl, rfl, rfl, rfl, fun _ _ => (or_false _).symm ▸ Iff.rfl, fun _ => id, fun _ _ h => h.elim,
    fun _ => .inl, fun _ _ => le_rfl⟩

/-- The loads and stores of a node add their copy edges. -/
theorem grown_handleLoadStore (s : MpaSummary V) (n : NodeID V) :
    Grown (fun _ _ => False) (fun a b => loadEdge F s n a b ∨ storeEdge F s n a b) s
      (s.handleLoadStore ord F n) := by
  refine (Grown.foldl _ (fun m a b =>
    (∃ l ∈ s.outgoingLoads n, a = .memobj m ∧ b = .ptr (F.strip l)) ∨
      ∃ st ∈ s.incomingStores n, ∃ valueOperand pointerOperand,
        F.value st = .storeInst valueOperand pointerOperand ∧
          a = .ptr (F.strip valueOperand) ∧ b = .memobj m) _ s ?_).congr ?_
  · intro m hm s₁ hpts hstores hloads
    have hload := Grown.foldl (handleLoad F (.memobj m))
      (fun l a b => a = .memobj m ∧ b = .ptr (F.strip l))
      (ord.visit (s₁.outgoingLoads n).elems) s₁ fun l _ s₂ _ _ _ => by
        refine ((grown_getPtrId (F := F) s₂ l).trans (grown_addCopyEdge_pushIf _ _ _)).congr ?_
        exact fun a b => by simp
    let s₃ := (ord.visit (s₁.outgoingLoads n).elems).foldl (handleLoad F (.memobj m)) s₁
    have hstore := Grown.foldl (handleStore F (.memobj m))
      (fun st a b => ∃ valueOperand pointerOperand,
        F.value st = .storeInst valueOperand pointerOperand ∧
          a = .ptr (F.strip valueOperand) ∧ b = .memobj m)
      (ord.visit (s₃.incomingStores n).elems) s₃ fun st _ s₂ _ _ _ => by
        unfold handleStore
        cases hst : F.value st with
        | storeInst valueOperand pointerOperand =>
            refine ((grown_getPtrId (F := F) s₂ valueOperand).trans
              (grown_addCopyEdge_pushIf _ _ _)).congr fun a b => ?_
            simp
        | _ => exact (Grown.refl s₂).congr fun a b => by simp
    refine (hload.trans hstore).congr fun a b => ?_
    rw [show s₃.incomingStores = s.incomingStores from hload.incomingStores.trans hstores, hloads]
    simp only [ord.mem_visit, PtrSet.mem_elems]
  · intro a b
    simp only [ord.mem_visit, PtrSet.mem_elems]
    unfold loadEdge storeEdge
    constructor
    · rintro ⟨m, hm, ⟨l, hl, ha, hb⟩ | ⟨st, hst, v, p, hv, ha, hb⟩⟩
      · exact .inl ⟨m, hm, ha, l, hl, hb⟩
      · exact .inr ⟨m, hm, hb, st, hst, v, p, hv, ha⟩
    · rintro (⟨m, hm, ha, l, hl, hb⟩ | ⟨m, hm, hb, st, hst, v, p, hv, ha⟩)
      · exact ⟨m, hm, .inl ⟨l, hl, ha, hb⟩⟩
      · exact ⟨m, hm, .inr ⟨st, hst, v, p, hv, ha, hb⟩⟩

end MpaSummary

end Noelle
