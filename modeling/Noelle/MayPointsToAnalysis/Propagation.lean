import Noelle.MayPointsToAnalysis.Reachable

/-!
# MayPointsToAnalysis.Propagation

The handler of the copy edges of a node, and one whole iteration of the solver.
-/

namespace Noelle

open List

namespace MpaSummary

variable {V : Type} [DecidableEq V] {ord : IterOrder} {F : MpaFunction V}
  {s s' : MpaSummary V} {a b n x : NodeID V} {m o : Option V}

/-! ## Points-to sets -/

omit [DecidableEq V] in
theorem pointsTo_iff : s.PointsTo n o ↔ ∃ pts, s.pointsTo n = some pts ∧ o ∈ pts := by
  unfold PointsTo getPointeeBitVector
  cases s.pointsTo n with
  | none => simp
  | some pts => simp

/-- The node has a bit vector, or its bit vector has the object. -/
def hasItem (s : MpaSummary V) (n : NodeID V) : Option (Option V) → Bool
  | none => (s.pointsTo n).isSome
  | some o => decide (o ∈ s.getPointeeBitVector n)

/-- What the points-to sets of `U` lack, over the objects of the analysis. -/
def missingItems (F : MpaFunction V) (U : List (NodeID V)) (s : MpaSummary V) : Nat :=
  ((U.product (none :: (objects F).map some)).filter fun i => !s.hasItem i.1 i.2).length

theorem missingItems_lt {U : List (NodeID V)} {i : Option (Option V)} (hn : n ∈ U)
    (hi : i ∈ none :: (objects F).map some)
    (h : ∀ n i, s.hasItem n i = true → s'.hasItem n i = true) (hold : s.hasItem n i = false)
    (hnew : s'.hasItem n i = true) : missingItems F U s' < missingItems F U s := by
  refine length_filter_lt (a := (n, i)) (fun j _ hj => ?_) (mem_product.mpr ⟨hn, hi⟩) ?_ ?_
  · rw [Bool.not_eq_true'] at hj ⊢
    exact Bool.eq_false_iff.mpr fun hs => Bool.eq_false_iff.mp hj (h j.1 j.2 hs)
  · simp [hold]
  · simp [hnew]

/-! ## Copy edges -/

/-- `s'` is `s` with the pointees of `n` given to the nodes of `targets`; what changed is on
the worklist. -/
structure Propagated (F : MpaFunction V) (n : NodeID V) (targets : NodeID V → Prop)
    (s s' : MpaSummary V) : Prop where
  copyOutEdges : s'.copyOutEdges = s.copyOutEdges
  incomingStores : s'.incomingStores = s.incomingStores
  outgoingLoads : s'.outgoingLoads = s.outgoingLoads
  usedAsFuncArg : s'.usedAsFuncArg = s.usedAsFuncArg
  source : s'.pointsTo n = s.pointsTo n
  pointsTo : ∀ x o, s'.PointsTo x o ↔ s.PointsTo x o ∨ (targets x ∧ s.PointsTo n o)
  worklist : ∀ x ∈ s.worklist, x ∈ s'.worklist
  pushed : ∀ x o, s'.PointsTo x o → s.PointsTo x o ∨ x ∈ s'.worklist
  queued : ∀ x ∈ s'.worklist, x ∈ s.worklist ∨ targets x
  potential : ∀ U, (∀ x, targets x → x ∈ U) → KnownObjects F s →
    missingItems F U s' + s'.worklist.length ≤ missingItems F U s + s.worklist.length

namespace Propagated

variable {targets targets' : NodeID V → Prop} {s'' : MpaSummary V}

theorem same (h : ∀ x, targets x → ∀ o, s.PointsTo n o → s.PointsTo x o) :
    Propagated F n targets s s where
  copyOutEdges := rfl
  incomingStores := rfl
  outgoingLoads := rfl
  usedAsFuncArg := rfl
  source := rfl
  pointsTo x o := ⟨.inl, fun hor => hor.elim id fun ⟨hx, ho⟩ => h x hx o ho⟩
  worklist _ := id
  pushed _ _ := .inl
  queued _ := .inl
  potential _ _ _ := le_rfl

/-- Two propagations after each other. -/
theorem trans (h : Propagated F n targets s s') (h' : Propagated F n targets' s' s'') :
    Propagated F n (fun x => targets x ∨ targets' x) s s'' where
  copyOutEdges := h'.copyOutEdges.trans h.copyOutEdges
  incomingStores := h'.incomingStores.trans h.incomingStores
  outgoingLoads := h'.outgoingLoads.trans h.outgoingLoads
  usedAsFuncArg := h'.usedAsFuncArg.trans h.usedAsFuncArg
  source := h'.source.trans h.source
  pointsTo x o := by
    have hsource : s'.PointsTo n o ↔ s.PointsTo n o := by
      rw [pointsTo_iff, pointsTo_iff, h.source]
    rw [h'.pointsTo, h.pointsTo, hsource]
    tauto
  worklist x hx := h'.worklist x (h.worklist x hx)
  pushed x o ho := by
    rcases h'.pushed x o ho with ho | hx
    · exact (h.pushed x o ho).imp_right (h'.worklist x)
    · exact .inr hx
  queued x hx := by
    rcases h'.queued x hx with hx | hx
    · exact (h.queued x hx).imp_right .inl
    · exact .inr (.inr hx)
  potential U hU hknown := by
    have hknown' : KnownObjects F s' := fun x o ho => by
      rcases (h.pointsTo x o).mp ho with ho | ⟨-, ho⟩
      · exact hknown x o ho
      · exact hknown n o ho
    exact (h'.potential U (fun x hx => hU x (.inr hx)) hknown').trans
      (h.potential U (fun x hx => hU x (.inl hx)) hknown)

theorem congr (h : Propagated F n targets s s') (htargets : ∀ x, targets x ↔ targets' x) :
    Propagated F n targets' s s' := by
  have heq : targets = targets' := funext fun x => propext (htargets x)
  exact heq ▸ h

end Propagated

/-- A node whose set grew is queued. -/
theorem propagated_setPointsTo {pts : PtrSet (Option V)} (hne : x ≠ n)
    (hpts : ∀ o, o ∈ pts ↔ s.PointsTo x o ∨ s.PointsTo n o)
    (hgrows : s.pointsTo x = none ∨ ∃ o, s.PointsTo n o ∧ ¬ s.PointsTo x o) :
    Propagated F n (· = x) s { s.setPointsTo x pts with worklist := s.worklist ++ [x] } := by
  let s' : MpaSummary V := { s.setPointsTo x pts with worklist := s.worklist ++ [x] }
  have hself : s'.pointsTo x = some pts := Function.update_self ..
  have hother : ∀ y, y ≠ x → s'.pointsTo y = s.pointsTo y := fun y hy =>
    Function.update_of_ne hy ..
  have hto : ∀ y o, s'.PointsTo y o ↔ s.PointsTo y o ∨ (y = x ∧ s.PointsTo n o) := fun y o => by
    by_cases hy : y = x
    · subst hy
      rw [pointsTo_iff, hself]
      simp [hpts]
    · rw [pointsTo_iff, hother y hy, ← pointsTo_iff]
      simp [hy]
  have hmem : ∀ y, y ∈ s'.worklist ↔ y ∈ s.worklist ∨ y = x := fun y => by
    simp [s', mem_append]
  refine ⟨rfl, rfl, rfl, rfl, hother n (Ne.symm hne), hto, fun y hy => (hmem y).mpr (.inl hy),
    fun y o ho => ?_, fun y hy => (hmem y).mp hy, fun U hU hknown => ?_⟩
  · exact ((hto y o).mp ho).imp_right fun h => (hmem y).mpr (.inr h.1)
  · have hmono : ∀ y i, s.hasItem y i = true → s'.hasItem y i = true := fun y i hi => by
      cases i with
      | none =>
          by_cases hy : y = x
          · subst hy
            simp [hasItem, hself]
          · simpa [hasItem, hother y hy] using hi
      | some o => exact decide_eq_true ((hto y o).mpr (.inl (of_decide_eq_true hi)))
    have hlt : missingItems F U s' < missingItems F U s := by
      rcases hgrows with hnone | ⟨o, ho, hnot⟩
      · exact missingItems_lt (hU x rfl) (.head _) hmono (by simp [hasItem, hnone])
          (by simp [hasItem, hself])
      · refine missingItems_lt (i := some o) (hU x rfl)
          (.tail _ (mem_map_of_mem (hknown n o ho))) hmono
          (decide_eq_false hnot) (decide_eq_true ((hto x o).mpr (.inr ⟨rfl, ho⟩)))
    have hlength : s'.worklist.length = s.worklist.length + 1 := by
      simp [s']
    have hle : missingItems F U s' + s'.worklist.length ≤
        missingItems F U s + s.worklist.length := by omega
    exact hle

/-- The pointees of a node are passed on to another. -/
theorem propagated_unionPts (s : MpaSummary V) (n x : NodeID V) :
    Propagated F n (· = x) s (unionPts n s x) := by
  unfold unionPts
  cases hn : s.pointsTo n with
  | none =>
      refine Propagated.same fun y _ o ho => ?_
      obtain ⟨pts, hpts, -⟩ := pointsTo_iff.mp ho
      exact absurd (hn.symm.trans hpts) (by simp)
  | some src =>
      have hsrc : ∀ o, s.PointsTo n o ↔ o ∈ src := fun o => by
        rw [pointsTo_iff, hn]
        simp
      cases hx : s.pointsTo x with
      | none =>
          have hne : x ≠ n := fun heq => by
            rw [heq, hn] at hx
            exact absurd hx (by simp)
          refine propagated_setPointsTo hne (fun o => ?_) (.inl hx)
          rw [← hsrc, pointsTo_iff (n := x), hx]
          simp
      | some old =>
          have hold : ∀ o, s.PointsTo x o ↔ o ∈ old := fun o => by
            rw [pointsTo_iff, hx]
            simp
          by_cases hall : src.elems.all (· ∈ old) = true
          · simp only [hall, if_true]
            refine Propagated.same fun y hy o ho => ?_
            subst hy
            exact (hold o).mpr (of_decide_eq_true (all_eq_true.mp hall o ((hsrc o).mp ho)))
          · simp only [hall]
            obtain ⟨o, ho, hnot⟩ : ∃ o ∈ src.elems, o ∉ old := by
              by_contra hcon
              push Not at hcon
              exact hall (all_eq_true.mpr fun o ho => decide_eq_true (hcon o ho))
            have hne : x ≠ n := fun heq => by
              rw [heq, hn] at hx
              exact hnot (Option.some.inj hx ▸ ho)
            refine propagated_setPointsTo hne (fun o => ?_)
              (.inr ⟨o, (hsrc o).mpr ho, fun h => hnot ((hold o).mp h)⟩)
            rw [PtrSet.mem_insertAll, PtrSet.mem_elems, hold, hsrc]

theorem propagated_foldl (n : NodeID V) : ∀ (l : List (NodeID V)) (s : MpaSummary V),
    Propagated F n (· ∈ l) s (l.foldl (unionPts n) s)
  | [], _ => Propagated.same nofun
  | x :: l, s => ((propagated_unionPts s n x).trans (propagated_foldl n l _)).congr fun _ =>
      mem_cons.symm

theorem propagated_handleCopyEdges (s : MpaSummary V) (n : NodeID V) :
    Propagated F n (· ∈ s.copyOutEdges n) s (s.handleCopyEdges ord n) :=
  (propagated_foldl n _ s).congr fun x => by rw [ord.mem_visit, PtrSet.mem_elems]

end MpaSummary

end Noelle
