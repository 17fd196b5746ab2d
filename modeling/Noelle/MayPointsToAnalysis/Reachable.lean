import Noelle.Lib.Inclusion
import Noelle.MayPointsToAnalysis.Steps

/-!
# MayPointsToAnalysis.Reachable

The objects reachable from a pointer, and the handler of call arguments.
-/

namespace Noelle

open PtrSet List

namespace MpaSummary

variable {V : Type} [DecidableEq V] {ord : IterOrder} {F : MpaFunction V}
  {s s' : MpaSummary V} {n x : NodeID V} {m o : Option V}

def PointsTo (s : MpaSummary V) (n : NodeID V) (o : Option V) : Prop := o ∈ s.getPointeeBitVector n

instance decidablePointsTo : Decidable (s.PointsTo n o) :=
  inferInstanceAs (Decidable (o ∈ s.getPointeeBitVector n))

/-- The object is reachable from the node through the points-to sets. -/
def Reach (s : MpaSummary V) : NodeID V → Option V → Prop := Reaches NodeID.memobj s.PointsTo

def objects (F : MpaFunction V) : List (Option V) := none :: F.getAllocations.elems.map some

/-- The points-to sets hold objects of the analysis. -/
def KnownObjects (F : MpaFunction V) (s : MpaSummary V) : Prop :=
  ∀ n o, s.PointsTo n o → o ∈ objects F

omit [DecidableEq V] in
theorem reach_congr (h : s'.pointsTo = s.pointsTo) : s'.Reach n m ↔ s.Reach n m := by
  have heq : s'.PointsTo = s.PointsTo := by
    unfold PointsTo getPointeeBitVector
    rw [h]
  unfold Reach
  rw [heq]

theorem KnownObjects.of_reach (h : KnownObjects F s) (hr : s.Reach n m) :
    m ∈ objects F := by
  cases hr with
  | direct ho => exact h _ _ ho
  | step _ ho => exact h _ _ ho

/-! ## The search -/

/-- The loop over the pointees of a node marks them, and queues the ones that were not
marked. -/
theorem foldl_visitPointee : ∀ (l : List (Option V)) (q : ReachableSearch V),
    (∀ m, m ∈ (l.foldl visitPointee q).reachable ↔ m ∈ q.reachable ∨ m ∈ l) ∧
    (∀ x, x ∈ (l.foldl visitPointee q).todolist ↔
      x ∈ q.todolist ∨ ∃ m ∈ l, m ∉ q.reachable ∧ x = .memobj m) ∧
    (l.foldl visitPointee q).todolist.length + q.reachable.size =
      q.todolist.length + (l.foldl visitPointee q).reachable.size
  | [], q => by simp
  | m₀ :: l, q => by
      obtain ⟨hreach, htodo, hsize⟩ := foldl_visitPointee l (visitPointee q m₀)
      rw [foldl_cons]
      by_cases hm₀ : m₀ ∈ q.reachable
      · have hq : visitPointee q m₀ = q := if_pos hm₀
        rw [hq] at hreach htodo hsize ⊢
        refine ⟨fun m => ?_, fun x => ?_, hsize⟩
        · rw [hreach, mem_cons]
          exact ⟨Or.imp_right .inr, fun h => h.elim .inl fun h => h.elim
            (fun heq => .inl (heq ▸ hm₀)) .inr⟩
        · rw [htodo]
          refine or_congr_right ⟨fun ⟨m, hm, h⟩ => ⟨m, .tail _ hm, h⟩, ?_⟩
          rintro ⟨m, hm, hnot, hx⟩
          rcases mem_cons.mp hm with rfl | hm
          · exact absurd hm₀ hnot
          · exact ⟨m, hm, hnot, hx⟩
      · have hq : visitPointee q m₀ = ⟨q.reachable.insert m₀, q.todolist ++ [.memobj m₀]⟩ :=
          if_neg hm₀
        rw [hq] at hreach htodo hsize ⊢
        have hinsert : (q.reachable.insert m₀).size = q.reachable.size + 1 :=
          congrArg Multiset.card (coe_insert_of_notMem hm₀)
        refine ⟨fun m => ?_, fun x => ?_, ?_⟩
        · rw [hreach, mem_insert, mem_cons]
          tauto
        · rw [htodo, mem_append, mem_singleton]
          constructor
          · rintro ((hx | hx) | ⟨m, hm, hnot, hx⟩)
            · exact .inl hx
            · exact .inr ⟨m₀, .head _, hm₀, hx⟩
            · refine .inr ⟨m, .tail _ hm, fun h => hnot ?_, hx⟩
              exact mem_insert.mpr (.inr h)
          · rintro (hx | ⟨m, hm, hnot, hx⟩)
            · exact .inl (.inl hx)
            · by_cases heq : m = m₀
              · exact .inl (.inr (heq ▸ hx))
              · refine .inr ⟨m, (mem_cons.mp hm).resolve_left heq, fun h => ?_, hx⟩
                exact (mem_insert.mp h).elim heq hnot
        · rw [length_append, length_singleton, hinsert] at hsize
          omega

/-- The invariant of the search from `n`: a node that it met is queued, or its pointees are
marked. -/
structure Searching (F : MpaFunction V) (s : MpaSummary V) (n : NodeID V) (q : ReachableSearch V) :
    Prop where
  known : ∀ m ∈ q.reachable, m ∈ objects F
  sound : ∀ m ∈ q.reachable, s.Reach n m
  todo : ∀ x ∈ q.todolist, x = n ∨ ∃ m ∈ q.reachable, x = .memobj m
  done : ∀ x, (x = n ∨ ∃ m ∈ q.reachable, x = .memobj m) →
    x ∈ q.todolist ∨ ∀ o, s.PointsTo x o → o ∈ q.reachable

/-- What the search still has to do. -/
def Searching.measure (F : MpaFunction V) (q : ReachableSearch V) : Nat :=
  q.todolist.length + ((objects F).length - q.reachable.size)

theorem reach_of_pointsTo {q : ReachableSearch V} (h : Searching F s n q)
    (hx : x = n ∨ ∃ m ∈ q.reachable, x = .memobj m) (ho : s.PointsTo x o) : s.Reach n o := by
  rcases hx with rfl | ⟨m, hm, rfl⟩
  · exact .direct ho
  · exact .step (h.sound m hm) ho

variable (ord) in
/-- A step of the search keeps its invariant. -/
theorem Searching.visitNode (hknown : KnownObjects F s) {q : ReachableSearch V}
    (h : Searching F s n q) (hnonempty : (!q.todolist.isEmpty) = true) :
    ∃ q', s.visitNode ord q = some q' ∧ Searching F s n q' ∧ measure F q' < measure F q := by
  obtain ⟨reachable, todolist⟩ := q
  cases todolist with
  | nil => exact absurd hnonempty (by simp)
  | cons x rest =>
      let pointees := ord.visit (s.getPointeeBitVector x).elems
      have hpointees : ∀ o, o ∈ pointees ↔ s.PointsTo x o := fun o => ord.mem_visit
      obtain ⟨hreach, htodo, hsize⟩ := foldl_visitPointee pointees ⟨reachable, rest⟩
      let q' := pointees.foldl visitPointee ⟨reachable, rest⟩
      have hfound := h.todo x (.head _)
      have hknown' : ∀ m ∈ q'.reachable, m ∈ objects F := fun m hm =>
        ((hreach m).mp hm).elim (h.known m) fun hm => hknown x m ((hpointees m).mp hm)
      refine ⟨q', rfl, ⟨hknown', fun m hm => ?_, fun y hy => ?_, fun y hy => ?_⟩, ?_⟩
      · exact ((hreach m).mp hm).elim (h.sound m) fun hm =>
          reach_of_pointsTo h hfound ((hpointees m).mp hm)
      · rcases (htodo y).mp hy with hy | ⟨m, hm, -, rfl⟩
        · refine (h.todo y (.tail x hy)).imp_right ?_
          exact fun ⟨m, hm, heq⟩ => ⟨m, (hreach m).mpr (.inl hm), heq⟩
        · exact .inr ⟨m, (hreach m).mpr (.inr hm), rfl⟩
      · -- `x` is done now, and a marked object is old, or was queued when it was marked
        by_cases hyx : y = x
        · subst hyx
          exact .inr fun o ho => (hreach o).mpr (.inr ((hpointees o).mpr ho))
        · have hold : (y = n ∨ ∃ m ∈ reachable, y = .memobj m) →
              y ∈ q'.todolist ∨ ∀ o, s.PointsTo y o → o ∈ q'.reachable := fun hy => by
            rcases h.done y hy with hy | hdone
            · exact .inl ((htodo y).mpr (.inl ((mem_cons.mp hy).resolve_left hyx)))
            · exact .inr fun o ho => (hreach o).mpr (.inl (hdone o ho))
          rcases hy with hy | ⟨m, hm, heq⟩
          · exact hold (.inl hy)
          · by_cases hmem : m ∈ reachable
            · exact hold (.inr ⟨m, hmem, heq⟩)
            · exact .inl ((htodo y).mpr
                (.inr ⟨m, ((hreach m).mp hm).resolve_left hmem, hmem, heq⟩))
      · have hle : q'.reachable.size ≤ (objects F).length := size_le_length hknown'
        have hsize : q'.todolist.length + reachable.size = rest.length + q'.reachable.size := hsize
        have hbefore : measure F ⟨reachable, x :: rest⟩ =
            rest.length + 1 + ((objects F).length - reachable.size) := rfl
        have hafter : measure F q' =
            q'.todolist.length + ((objects F).length - q'.reachable.size) := rfl
        rw [hbefore, hafter]
        omega

variable (ord) in
/-- The set holds exactly the objects that the node reaches. -/
theorem getreachableMemobjIds_spec (hknown : KnownObjects F s) (n : NodeID V) :
    ∃ r, s.getreachableMemobjIds ord F n = some r ∧ ∀ m, m ∈ r ↔ s.Reach n m := by
  have hinit : Searching F s n ⟨∅, [n]⟩ := by
    refine ⟨by simp, by simp, fun x hx => .inl (mem_singleton.mp hx), fun x hx => ?_⟩
    rcases hx with rfl | ⟨m, hm, -⟩
    · exact .inl (.head _)
    · exact absurd hm (not_mem_empty m)
  have hfuel : Searching.measure F ⟨∅, [n]⟩ ≤ F.getAllocations.size + 2 := by
    simp [Searching.measure, objects, PtrSet.size]
    omega
  obtain ⟨q, hq, hI, hend⟩ := loopM_rule (Searching F s n) (Searching.measure F)
    (fun q h hnonempty => Searching.visitNode ord hknown h hnonempty) _ _ hinit hfuel
  have hnil : q.todolist = [] := by simpa using hend
  have hdone : ∀ x, (x = n ∨ ∃ m ∈ q.reachable, x = .memobj m) →
      ∀ o, s.PointsTo x o → o ∈ q.reachable := fun x hx =>
    (hI.done x hx).resolve_left (hnil ▸ not_mem_nil)
  refine ⟨q.reachable, ?_, fun m => ⟨hI.sound m, fun hm => ?_⟩⟩
  · unfold getreachableMemobjIds
    rw [hq]
    rfl
  · induction hm with
    | direct ho => exact hdone n (.inl rfl) _ ho
    | step _ ho ih => exact hdone _ (.inr ⟨_, ih, rfl⟩) _ ho

/-! ## Call arguments -/

/-- An object reachable from the call argument, with the unknown object. -/
def escapeEdge (s : MpaSummary V) (n a b : NodeID V) : Prop :=
  n ∈ s.usedAsFuncArg ∧ ∃ m, s.Reach n m ∧
    ((a = .memobj m ∧ b = UnknownMemobjId) ∨ (a = UnknownMemobjId ∧ b = .memobj m))

variable (ord) in
/-- `handleFuncUsers` adds copy edges between the unknown object and everything reachable. -/
theorem grown_handleFuncUsers (hknown : KnownObjects F s) (n : NodeID V) :
    ∃ s', s.handleFuncUsers ord F n = some s' ∧ Grown fromUnknown (s.escapeEdge n) s s' := by
  unfold handleFuncUsers
  by_cases hn : n ∈ s.usedAsFuncArg
  · obtain ⟨r, hr, hmem⟩ := getreachableMemobjIds_spec ord hknown n
    rw [if_neg (not_not.mpr hn), hr]
    refine ⟨_, rfl, (Grown.foldl exchangeWithUnknown _ _ s fun m _ s₁ _ _ _ =>
      grown_exchangeWithUnknown s₁ m).congr fun a b => ?_⟩
    unfold escapeEdge
    simp only [ord.mem_visit, mem_elems, hmem, hn, true_and]
  · rw [if_pos hn]
    exact ⟨s, rfl, (Grown.refl s).congr fun a b => ⟨False.elim, fun h => absurd h.1 hn⟩⟩

end MpaSummary

end Noelle
