import Mathlib.Data.List.Induction
import Noelle.DG.Basic

/-!
# DG.SubEdges

The loop-carried flag of an edge over the calls that change its sub-edges.

The flag is set when a loop-carried sub-edge is added, and reset when the last sub-edge goes.  A call
of `removeSubEdge` that takes the last loop-carried sub-edge and leaves others does not reset it.
`isLoopCarried_iff`: the flag tells whether a sub-edge is loop-carried as long as this does not happen.
-/

namespace Noelle

open List Option

namespace EdgeAttr

variable {S : Type} [DecidableEq S]

/-- `DGEdge::removeSubEdge`, which aborts if there is no set. -/
def removeSubEdge (a : EdgeAttr S) (s : S) : Option (EdgeAttr S) :=
  match a.subEdges with
  | none => none
  | some subs =>
      let erased : EdgeAttr S := { a with subEdges := some (subs.erase s) }
      if erased.getSubEdges.size = 0 then some erased.removeSubEdges else some erased

inductive SubEdgeCall (S : Type) where
  | addSubEdge (s : S)
  | removeSubEdge (s : S)
  | removeSubEdges
  deriving DecidableEq

/-- One call; the flags of the sub-edges do not change. -/
def call (subLC : S → Bool) (a : EdgeAttr S) : SubEdgeCall S → Option (EdgeAttr S)
  | .addSubEdge s => some (a.addSubEdge s (subLC s))
  | .removeSubEdge s => a.removeSubEdge s
  | .removeSubEdges => some a.removeSubEdges

/-- The calls on an edge that has just been allocated. -/
def afterCalls (subLC : S → Bool) (calls : List (SubEdgeCall S)) : Option (EdgeAttr S) :=
  calls.foldlM (call subLC) {}

/-! ## The flag -/

/-- The flag is set exactly if a sub-edge is loop-carried. -/
def FlagMatches (subLC : S → Bool) (a : EdgeAttr S) : Prop :=
  a.isLoopCarried = true ↔ ∃ s ∈ a.getSubEdges, subLC s = true

/-- Without the sub-edge, another one is loop-carried, or none is left, or the sub-edge did not count. -/
def KeepsFlag (subLC : S → Bool) (a : EdgeAttr S) (s : S) : Prop :=
  s ∈ a.getSubEdges → subLC s = true →
    (∃ s' ∈ a.getSubEdges, s' ≠ s ∧ subLC s' = true) ∨ ∀ s' ∈ a.getSubEdges, s' = s

section Calls

variable {subLC : S → Bool} {a a' : EdgeAttr S} {s : S}

omit [DecidableEq S] in
theorem flagMatches_new : FlagMatches subLC ({} : EdgeAttr S) := by
  simp [FlagMatches, getSubEdges]

theorem FlagMatches.addSubEdge (h : FlagMatches subLC a) (s : S) :
    FlagMatches subLC (a.addSubEdge s (subLC s)) := by
  have hflag : (a.addSubEdge s (subLC s)).isLoopCarried = (a.isLoopCarried || subLC s) := rfl
  rw [FlagMatches, hflag, Bool.or_eq_true, show a.isLoopCarried = true ↔ _ from h]
  simp only [mem_getSubEdges_addSubEdge]
  grind

omit [DecidableEq S] in
theorem flagMatches_removeSubEdges (h : FlagMatches subLC a) : FlagMatches subLC a.removeSubEdges := by
  unfold removeSubEdges
  cases hsubs : a.subEdges with
  | none => exact h
  | some subs => exact flagMatches_new

/-- The flag of the edge is reset exactly when its last sub-edge goes. -/
theorem removeSubEdge_spec (h : a.removeSubEdge s = some a') :
    (∀ x, x ∈ a'.getSubEdges ↔ x ≠ s ∧ x ∈ a.getSubEdges) ∧
      ((∀ x, x ∉ a'.getSubEdges) ∧ a'.isLoopCarried = false ∨
        (∃ x, x ∈ a'.getSubEdges) ∧ a'.isLoopCarried = a.isLoopCarried) := by
  unfold removeSubEdge at h
  cases hsubs : a.subEdges with
  | none =>
      rw [hsubs] at h
      cases h
  | some subs =>
      rw [hsubs] at h
      dsimp only at h
      split_ifs at h with hsize
      · cases h
        have hnone : ∀ x, x ∉ subs.erase s := fun x hx => by
          have hempty : (subs.erase s).elems = [] := length_eq_zero_iff.mp hsize
          rw [← PtrSet.mem_elems, hempty] at hx
          cases hx
        refine ⟨fun x => ?_, .inl ⟨fun x => PtrSet.not_mem_empty x, rfl⟩⟩
        rw [getSubEdges_removeSubEdges, getSubEdges, hsubs, getD_some, ← PtrSet.mem_erase]
        exact iff_of_false (PtrSet.not_mem_empty x) (hnone x)
      · cases h
        refine ⟨fun x => ?_, .inr ⟨exists_mem_of_length_pos (Nat.pos_of_ne_zero hsize), rfl⟩⟩
        rw [getSubEdges, getSubEdges, hsubs, getD_some, getD_some, PtrSet.mem_erase]

/-- Removing a sub-edge keeps the flag right exactly if another loop-carried one is left, or none. -/
theorem FlagMatches.removeSubEdge_iff (h : FlagMatches subLC a) (hcall : a.removeSubEdge s = some a') :
    FlagMatches subLC a' ↔ KeepsFlag subLC a s := by
  obtain ⟨hmem, ⟨hnone, hflag⟩ | ⟨⟨x, hx⟩, hflag⟩⟩ := removeSubEdge_spec hcall
  · refine iff_of_true ?_ fun _ _ => .inr fun s' hs' => ?_
    · rw [FlagMatches, hflag]
      exact iff_of_false Bool.false_ne_true fun ⟨y, hy, _⟩ => hnone y hy
    · by_contra hne
      exact hnone s' ((hmem s').mpr ⟨hne, hs'⟩)
  · rw [FlagMatches, hflag, show a.isLoopCarried = true ↔ _ from h]
    simp only [hmem, and_assoc]
    constructor
    · intro hiff hs hcarried
      obtain ⟨s', hne, hs', hcarried'⟩ := hiff.mp ⟨s, hs, hcarried⟩
      exact .inl ⟨s', hs', hne, hcarried'⟩
    · intro hkeeps
      refine ⟨fun ⟨y, hy, hcarried⟩ => ?_, fun ⟨y, _, hy, hcarried⟩ => ⟨y, hy, hcarried⟩⟩
      by_cases hys : y = s
      · subst hys
        obtain ⟨s', hs', hne, hcarried'⟩ | honly := hkeeps hy hcarried
        · exact ⟨s', hne, hs', hcarried'⟩
        · obtain ⟨hne, hmem⟩ := (hmem x).mp hx
          exact absurd (honly x hmem) hne
      · exact ⟨y, hys, hy, hcarried⟩

/-- The flag matches as long as every removal keeps it. -/
theorem FlagMatches.afterCalls {calls : List (SubEdgeCall S)}
    (hremoved : ∀ pre post s a, calls = pre ++ .removeSubEdge s :: post →
      EdgeAttr.afterCalls subLC pre = some a → KeepsFlag subLC a s) :
    ∀ a, EdgeAttr.afterCalls subLC calls = some a → FlagMatches subLC a := by
  induction calls using List.reverseRecOn with
  | nil =>
      intro a ha
      cases ha
      exact flagMatches_new
  | append_singleton calls c ih =>
      intro a ha
      rw [EdgeAttr.afterCalls, foldlM_append] at ha
      obtain ⟨b, hb, hlast⟩ := bind_eq_some_iff.mp ha
      have hbefore := ih (fun pre post s a' hcalls => hremoved pre (post ++ [c]) s a' (by
        rw [hcalls, append_assoc, cons_append])) b hb
      rw [foldlM_cons] at hlast
      obtain ⟨a', hcall, ha'⟩ := bind_eq_some_iff.mp hlast
      cases ha'
      cases c with
      | addSubEdge s =>
          cases hcall
          exact hbefore.addSubEdge s
      | removeSubEdge s => exact (hbefore.removeSubEdge_iff hcall).mpr (hremoved calls [] s b rfl hb)
      | removeSubEdges =>
          cases hcall
          exact flagMatches_removeSubEdges hbefore

end Calls

/-- **The loop-carried flag**: over all calls it tells whether a sub-edge is loop-carried, exactly if no
call removes the last loop-carried sub-edge and leaves others. -/
theorem isLoopCarried_iff (subLC : S → Bool) (calls : List (SubEdgeCall S)) :
    (∀ pre a, pre <+: calls → afterCalls subLC pre = some a → FlagMatches subLC a) ↔
      ∀ pre post s a, calls = pre ++ .removeSubEdge s :: post →
        afterCalls subLC pre = some a → KeepsFlag subLC a s := by
  constructor
  · intro h pre post s a hcalls ha
    have hbefore := h pre a ⟨_, hcalls.symm⟩ ha
    cases hcall : a.removeSubEdge s with
    | none =>
        -- an edge whose call aborts has no sub-edges
        intro hs
        unfold removeSubEdge at hcall
        cases hsubs : a.subEdges with
        | none =>
            rw [getSubEdges, hsubs] at hs
            cases hs
        | some subs =>
            rw [hsubs] at hcall
            dsimp only at hcall
            split_ifs at hcall
    | some a' =>
        refine (hbefore.removeSubEdge_iff hcall).mp (h (pre ++ [.removeSubEdge s]) a' ⟨post, ?_⟩ ?_)
        · rw [hcalls, append_assoc, singleton_append]
        · rw [afterCalls, foldlM_append]
          refine bind_eq_some_iff.mpr ⟨a, ha, ?_⟩
          rw [foldlM_cons, call, hcall]
          rfl
  · rintro hremoved pre a ⟨post, rfl⟩
    refine FlagMatches.afterCalls (fun pre' post' s a' hcalls => ?_) a
    exact hremoved pre' (post' ++ post) s a' (by rw [hcalls, append_assoc, cons_append])

/-- The flag stays set after the only loop-carried sub-edge of two has been removed. -/
theorem not_flagMatches_removeSubEdge :
    ∃ a, afterCalls (fun s => decide (s = 1)) [.addSubEdge 1, .addSubEdge 2, .removeSubEdge 1] = some a ∧
      ¬ FlagMatches (fun s => decide (s = 1)) a := by
  refine ⟨{ isLoopCarried := true, subEdges := some ⟨[2], nodup_singleton 2⟩ }, rfl, ?_⟩
  intro h
  obtain ⟨s, hs, hcarried⟩ := h.mp rfl
  rw [mem_singleton.mp hs] at hcarried
  exact absurd (of_decide_eq_true hcarried) (by decide)

end EdgeAttr

end Noelle
