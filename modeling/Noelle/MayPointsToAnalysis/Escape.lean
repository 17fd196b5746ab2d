import Noelle.MayPointsToAnalysis.Solution

/-!
# MayPointsToAnalysis.Escape

The unknown object and what escapes to it.

`handleFuncUsers` searches what is reachable from a call argument once, when the argument is
taken from the worklist, and pushes the objects that it found but not the unknown one.
-/

namespace Noelle

open List Option

namespace MpaSummary

variable {V : Type} [DecidableEq V] {ord : IterOrder} {F : MpaFunction V}
  {s s' s₁ s₂ : MpaSummary V} {a b n p : NodeID V} {m o : Option V} {i : Nat}

/-- The object is the unknown one, or there are copy edges between them. -/
def Exchanges (s : MpaSummary V) (m : Option V) : Prop :=
  m = none ∨ (UnknownMemobjId ∈ s.copyOutEdges (.memobj m) ∧
    .memobj m ∈ s.copyOutEdges UnknownMemobjId)

instance decidableExchanges : Decidable (s.Exchanges m) :=
  inferInstanceAs (Decidable (_ ∨ _))

/-- The object exchanges its contents with the unknown one, and so does what it reaches. -/
def ExchangesAll (s : MpaSummary V) (m : Option V) : Prop :=
  s.Exchanges m ∧ ∀ o, s.Reach (.memobj m) o → s.Exchanges o

/-- The invariant of call arguments: one that is not on the worklist is done. -/
def Escaped (s : MpaSummary V) : Prop :=
  ∀ p ∈ s.usedAsFuncArg, p ∉ s.worklist → ∀ m, s.Reach p m → s.Exchanges m

/-- The pointees of a node are copied into an object that a call argument reaches, when it is
not on the worklist, only if the argument reaches them already or they exchange their contents
with the unknown object. -/
def PointeesAreKnown (F : MpaFunction V) (s : MpaSummary V) (i : Nat) (n : NodeID V) : Prop :=
  n ∉ s.usedAsFuncArg → ∀ p ∈ s.usedAsFuncArg, p ∉ s.worklist.eraseIdx i → ∀ d, s.Reach p d →
    (.memobj d ∈ s.copyOutEdges n ∨ storeEdge F s n n (.memobj d)) →
      ∀ m, s.PointsTo n m → s.Reach p m ∨ s.ExchangesAll m

/-- The iteration loses nothing that escapes. -/
def PassesEscapesOn (F : MpaFunction V) (s : MpaSummary V) (i : Nat) (n : NodeID V) : Prop :=
  UnknownIsPassedOn F s i n ∧ PointeesAreKnown F s i n

omit [DecidableEq V] in
theorem Exchanges.mono (h : ∀ a b, b ∈ s.copyOutEdges a → b ∈ s'.copyOutEdges a)
    (hm : s.Exchanges m) : s'.Exchanges m :=
  hm.imp_right fun ⟨hout, hin⟩ => ⟨h _ _ hout, h _ _ hin⟩

omit [DecidableEq V] in
/-- What an object points to exchanges as well. -/
theorem ExchangesAll.step (h : s.ExchangesAll m) (ho : s.PointsTo (.memobj m) o) :
    s.ExchangesAll o :=
  ⟨h.2 o (.direct ho), fun _ hx => h.2 _ (.head ho hx)⟩

theorem escaped_startWorklist : Escaped (startWorklist ord F) := by
  obtain ⟨hhas, hnode, -⟩ := initPtInfo_spec ord F
  intro p hp hnot
  obtain ⟨w, hw, hdef | ⟨u, -, huse⟩⟩ := ((hhas (.funcArg p)).mp hp).resolve_left nofun
  · nomatch hdef
  · cases huse with
    | funcArg _ => exact absurd ((mem_startWorklist (hnode w hw)).resolve_left nofun) hnot

/-! ## Reachability after an iteration -/

section Iteration

variable (h : SolveStep F s i n s₁ s₂ s')
include h

/-- A new pointee comes from the node taken. -/
theorem SolveStep.pointsTo_cases {x : NodeID V} (ho : s'.PointsTo x o) :
    s.PointsTo x o ∨ (x ∈ s₂.copyOutEdges n ∧ s.PointsTo n o) := by
  have hpts : s₂.pointsTo = s.pointsTo := h.funcUsers.pointsTo.trans h.loadStore.pointsTo
  have hsame : ∀ x, s₂.PointsTo x o ↔ s.PointsTo x o := fun x => by
    rw [pointsTo_iff, hpts, ← pointsTo_iff]
  rw [← hsame, ← hsame]
  exact (h.copyEdges.pointsTo x o).mp ho

/-- What is not queued has no new pointee. -/
theorem SolveStep.pointsTo_of_notMem {x : NodeID V} (hx : x ∉ s'.worklist)
    (ho : s'.PointsTo x o) : s.PointsTo x o := by
  have hpts : s₂.pointsTo = s.pointsTo := h.funcUsers.pointsTo.trans h.loadStore.pointsTo
  have ho₂ := (h.copyEdges.pushed x o ho).resolve_right hx
  rwa [pointsTo_iff, hpts, ← pointsTo_iff] at ho₂

theorem SolveStep.pointsTo_taken (ho : s'.PointsTo n o) : s.PointsTo n o :=
  (h.pointsTo_cases ho).elim id (·.2)

theorem SolveStep.reach_taken (hm : s'.Reach n m) : s.Reach n m := by
  induction hm with
  | direct ho => exact .direct (h.pointsTo_taken ho)
  | step _ ho ih =>
      rcases h.pointsTo_cases ho with ho | ⟨-, ho⟩
      · exact .step ih ho
      · exact .direct ho

/-- What is newly reached was reached by the node taken. -/
theorem SolveStep.reach_cases (hp : p ∉ s'.worklist) (hm : s'.Reach p m) :
    s.Reach p m ∨ s.Reach n m := by
  induction hm with
  | direct ho => exact .inl (.direct (h.pointsTo_of_notMem hp ho))
  | step _ ho ih =>
      rcases h.pointsTo_cases ho with ho | ⟨-, ho⟩
      · exact ih.imp (.step · ho) (.step · ho)
      · exact .inr (.direct ho)

theorem SolveStep.memobj_target {d : Option V} (hn : n ∉ s.usedAsFuncArg)
    (hd : .memobj d ∈ s₂.copyOutEdges n) :
    .memobj d ∈ s.copyOutEdges n ∨ storeEdge F s n n (.memobj d) := by
  rcases (h.funcUsers.edge n _).mp hd with hd | ⟨hn', -⟩
  · rcases (h.loadStore.edge n _).mp hd with hd | ⟨m, -, -, l, -, hl⟩ | hstore
    · exact .inl hd
    · exact absurd hl nofun
    · exact .inr hstore
  · exact absurd (h.loadStore.usedAsFuncArg ▸ hn') hn

/-- What a call argument reaches after a node that is no call argument was taken. -/
theorem SolveStep.reach_known (hn : n ∉ s.usedAsFuncArg) (hknown : PointeesAreKnown F s i n)
    (hp : p ∈ s.usedAsFuncArg) (herase : p ∉ s.worklist.eraseIdx i) (hp' : p ∉ s'.worklist)
    (hm : s'.Reach p m) : s.Reach p m ∨
      (s.ExchangesAll m ∧ ∀ o, s.PointsTo n o → s.Reach p o ∨ s.ExchangesAll o) := by
  induction hm with
  | direct ho => exact .inl (.direct (h.pointsTo_of_notMem hp' ho))
  | step _ ho ih =>
      rcases h.pointsTo_cases ho with ho | ⟨hd, ho⟩
      · exact ih.imp (.step · ho) fun hall => ⟨hall.1.step ho, hall.2⟩
      · have hall := ih.elim
          (fun hr => hknown hn p hp herase _ hr (h.memobj_target hn hd)) (·.2)
        exact (hall _ ho).imp_right fun hex => ⟨hex, hall⟩

/-- A step keeps the invariant of the call arguments. -/
theorem SolveStep.escaped (hknown : PointeesAreKnown F s i n) (hescaped : Escaped s) :
    Escaped s' := by
  intro p hp hp' m hm
  have hp : p ∈ s.usedAsFuncArg := by
    rwa [h.copyEdges.usedAsFuncArg, h.funcUsers.usedAsFuncArg, h.loadStore.usedAsFuncArg] at hp
  have hedges : ∀ a b, b ∈ s₂.copyOutEdges a → b ∈ s'.copyOutEdges a := fun a b hab =>
    h.copyEdges.copyOutEdges ▸ hab
  have hold : ∀ a b, b ∈ s.copyOutEdges a → b ∈ s'.copyOutEdges a := fun a b hab =>
    hedges a b ((h.funcUsers.edge a b).mpr (.inl ((h.loadStore.edge a b).mpr (.inl hab))))
  have hwork : ∀ a ∈ s.worklist.eraseIdx i, a ∈ s'.worklist := fun a ha =>
    h.copyEdges.worklist a (h.funcUsers.worklist a (h.loadStore.worklist a ha))
  -- what a call argument reaches when it is taken
  have htaken : n ∈ s.usedAsFuncArg → ∀ m, s.Reach n m → s'.Exchanges m := fun hn m hm => by
    have hn₁ : n ∈ s₁.usedAsFuncArg := h.loadStore.usedAsFuncArg.symm ▸ hn
    have hm₁ : s₁.Reach n m := (reach_congr h.loadStore.pointsTo).mpr hm
    exact .inr
      ⟨hedges _ _ ((h.funcUsers.edge _ _).mpr (.inr ⟨hn₁, m, hm₁, .inl ⟨rfl, rfl⟩⟩)),
        hedges _ _ ((h.funcUsers.edge _ _).mpr (.inr ⟨hn₁, m, hm₁, .inr ⟨rfl, rfl⟩⟩))⟩
  by_cases hpn : p = n
  · subst hpn
    exact htaken hp m (h.reach_taken hm)
  · have herase : p ∉ s.worklist.eraseIdx i := fun hmem => hp' (hwork p hmem)
    have hbefore : ∀ m, s.Reach p m → s'.Exchanges m := fun m hm =>
      (hescaped p hp (fun hmem => herase (mem_eraseIdx_of_ne h.taken hmem hpn)) m hm).mono hold
    by_cases hn : n ∈ s.usedAsFuncArg
    · exact (h.reach_cases hp' hm).elim (hbefore m) (htaken hn m)
    · exact (h.reach_known hn hknown hp herase hp' hm).elim (hbefore m) fun hall =>
        hall.1.1.mono hold

end Iteration

/-- With an empty worklist the points-to sets satisfy the constraints, what escapes included. -/
theorem Settled.solution_of_escaped (h : Settled F s) (hs : Bounded ord F s) (hescaped : Escaped s)
    (hempty : s.worklist = []) : F.constraints.Solution s.PointsTo := by
  have hapart : SettledApart entersObject F s := h.apart
  have hsolution := hapart.solution hs hempty
  have hexchange : ∀ p, F.constraints.escape p → ∀ m, s.Reach p m →
      ∀ o, s.PointsTo (.memobj m) o ↔ s.PointsTo UnknownMemobjId o := fun p hp m hm o => by
    rcases hescaped p (hs.escape_iff.mp hp) (hempty ▸ not_mem_nil) m hm with rfl | ⟨hout, hin⟩
    · rfl
    · exact ⟨(h.edge _ _ hout).resolve_left (hempty ▸ not_mem_nil) o,
        (h.edge _ _ hin).resolve_left (hempty ▸ not_mem_nil) o⟩
  exact ⟨hsolution.base, hsolution.copy, hsolution.load, hsolution.store,
    fun p hp m hm o => (hexchange p hp m hm o).mp, fun p hp m hm o => (hexchange p hp m hm o).mpr⟩

theorem isLeastSolution_of_passesEscapesOn {choices : List Nat}
    (hsteps : EveryStep ord F (PassesEscapesOn F) choices)
    (hrun : solveWorklist ord F choices = some s) (hempty : s.worklist = []) :
    F.constraints.IsLeastSolution s.PointsTo := by
  refine ⟨?_, fun τ hτ => ?_⟩
  · have hinv : Settled F s ∧ Escaped s := by
      refine solveWorklist_rule (fun s => Settled F s ∧ Escaped s)
        ⟨settled_startWorklist, escaped_startWorklist⟩ ?_ hsteps hrun
      rintro s i n s₁ s₂ s' hs ⟨hunknown, hknown⟩ hstep ⟨hsettled, hescaped⟩
      exact ⟨hstep.settled hs hunknown hsettled, hstep.escaped hknown hescaped⟩
    exact hinv.1.solution_of_escaped (bounded_of_solveWorklist hrun) hinv.2 hempty
  · exact pointsTo_le_solution hrun hτ

/-- If no iteration loses anything that escapes, then in the end every object reachable from a
pointer that is passed to an unknown call is a pointee of the unknown object and has the same
points-to set, and the result does not depend on the order. -/
theorem solveWorklist_escape_closed {choices : List Nat}
    (hsteps : EveryStep ord F (PassesEscapesOn F) choices)
    (hrun : solveWorklist ord F choices = some s) (hempty : s.worklist = []) :
    (∀ w ∈ F.pointers, ∀ u ∈ F.users w, F.IsUnknownCall u → ∀ m, s.Reach (F.node w) m →
      s.PointsTo UnknownMemobjId m ∧
        ∀ o, s.PointsTo UnknownMemobjId o ↔ s.PointsTo (.memobj m) o) ∧
    ∀ (ord' : IterOrder) (choices' : List Nat) (s' : MpaSummary V),
      EveryStep ord' F (PassesEscapesOn F) choices' →
      solveWorklist ord' F choices' = some s' → s'.worklist = [] →
        ∀ n o, s'.PointsTo n o ↔ s.PointsTo n o := by
  have hleast := isLeastSolution_of_passesEscapesOn hsteps hrun hempty
  refine ⟨fun w hw u hu hcall m hm => ?_, fun ord' choices' s' hsteps' hrun' hempty' n o =>
    (isLeastSolution_of_passesEscapesOn hsteps' hrun' hempty').unique hleast⟩
  have hescape : F.constraints.escape (F.node w) := ⟨w, hw, .inr ⟨u, hu, .funcArg hcall⟩⟩
  exact ⟨hleast.1.unknown_of_reaches hescape (copy_of_escape hescape) hm,
    fun o => ⟨hleast.1.escape_in _ hescape m hm o, hleast.1.escape_out _ hescape m hm o⟩⟩

/-- In an iteration of a node that is no call argument nothing is lost if all objects exchange
their contents with the unknown one. -/
theorem passesEscapesOn_of_exchanges (hs : Bounded ord F s) (hn : n ∉ s.usedAsFuncArg)
    (hall : ∀ m ∈ objects F, s.Exchanges m) : PassesEscapesOn F s i n :=
  ⟨fun hn' => absurd hn' hn, fun _ _ _ _ _ _ _ m hm =>
    .inr ⟨hall m (hs.known n m hm), fun o ho => hall o (hs.known.of_reach ho)⟩⟩

/-- `%m = alloca; call g(%m)`. -/
def allocaCall : MpaFunction (Fin 2) where
  value := ![.allocaInst, .callBase .unknown [0]]
  isPointerTy := ![true, false]
  users := ![[1], []]
  args := []
  instructions := [0, 1]
  privatizeCandidate := none
  candidate_global := by simp
  castDepth := 0

/-- A run on a call with an `alloca`, in which no escape is lost. -/
theorem allocaCall_escape_closed : ∃ s,
    solveWorklist .stored allocaCall (List.replicate 4 0) = some s ∧ s.worklist = [] ∧
      ∀ w ∈ allocaCall.pointers, ∀ u ∈ allocaCall.users w, allocaCall.IsUnknownCall u →
        ∀ m, s.Reach (allocaCall.node w) m → s.PointsTo UnknownMemobjId m ∧
          ∀ o, s.PointsTo UnknownMemobjId o ↔ s.PointsTo (.memobj m) o := by
  have hfinal : (solveWorklist .stored allocaCall (List.replicate 4 0)).map (·.worklist) =
      some [] := by decide +kernel
  obtain ⟨s, hrun, hempty⟩ := map_eq_some_iff.mp hfinal
  refine ⟨s, hrun, hempty, (solveWorklist_escape_closed ?_ hrun hempty).1⟩
  have hlater : ∀ k ∈ [1, 2, 3], (solveWorklist .stored allocaCall (List.replicate k 0)).all fun s =>
      s.worklist.head?.all (fun n => decide (n ∉ s.usedAsFuncArg)) &&
        (objects allocaCall).all fun m => decide (s.Exchanges m) := by decide +kernel
  intro pre i post s' n hl hpre hn
  obtain ⟨hlen, hpre', -⟩ := replicate_eq_append_iff.mp hl
  have hmem : i ∈ List.replicate 4 0 := hl ▸ mem_append_right pre (.head _)
  obtain rfl := eq_of_mem_replicate hmem
  rw [length_cons] at hlen
  rw [hpre'] at hpre
  by_cases hzero : pre.length = 0
  · -- the argument itself, with a pointee that is new to the unknown object
    rw [hzero] at hpre
    cases hpre
    have hfirst : (startWorklist .stored allocaCall).worklist[0]? = some (.ptr 0) := by
      decide +kernel
    obtain rfl := mem_unique hn hfirst
    have hqueued : UnknownIsQueued allocaCall (startWorklist .stored allocaCall) 0 (.ptr 0) :=
      .inr (.inl ⟨some 0, by decide +kernel, by decide +kernel⟩)
    exact ⟨fun _ m _ => .inl hqueued, fun hnot => absurd (by decide +kernel) hnot⟩
  · have hk : pre.length ∈ [1, 2, 3] := by
      simp only [mem_cons, not_mem_nil, or_false]
      omega
    have hall := hlater _ hk
    rw [hpre, all_some, Bool.and_eq_true] at hall
    obtain ⟨hnot, hexchange⟩ := hall
    rw [List.head?_eq_getElem?, hn, all_some] at hnot
    refine passesEscapesOn_of_exchanges (bounded_of_solveWorklist hpre) (of_decide_eq_true hnot)
      fun m hm => of_decide_eq_true (all_eq_true.mp hexchange m hm)

/-- `%p = alloca; %q = alloca; store %q, %p; call g(%p)`. -/
def storeCall : MpaFunction (Fin 4) where
  value := ![.allocaInst, .allocaInst, .storeInst 1 0, .callBase .unknown [0]]
  isPointerTy := ![true, true, false, false]
  users := ![[2, 3], [2], [], []]
  args := []
  instructions := [0, 1, 2, 3]
  privatizeCandidate := none
  candidate_global := by simp
  castDepth := 0

/-- `%q` is stored to `%p` after the search from `%p`. -/
theorem storeCall_escape_not_closed : ¬ ∀ choices s,
    solveWorklist .stored storeCall choices = some s → s.worklist = [] →
      ∀ w ∈ storeCall.pointers, ∀ u ∈ storeCall.users w, storeCall.IsUnknownCall u →
        ∀ m, s.Reach (storeCall.node w) m → s.PointsTo UnknownMemobjId m ∧
          ∀ o, s.PointsTo UnknownMemobjId o ↔ s.PointsTo (.memobj m) o := by
  intro hall
  have hfinal : (solveWorklist .stored storeCall (List.replicate 8 0)).map (fun s =>
      (s.worklist, decide (s.PointsTo (.ptr 0) (some 0)), decide (s.PointsTo (.memobj (some 0)) (some 1)),
        decide (s.PointsTo UnknownMemobjId none), decide (s.PointsTo (.memobj (some 1)) none))) =
      some ([], true, true, true, false) := by decide +kernel
  obtain ⟨s, hrun, heq⟩ := map_eq_some_iff.mp hfinal
  simp only [Prod.mk.injEq, decide_eq_true_eq, decide_eq_false_iff_not] at heq
  obtain ⟨hempty, hp, hq, hunknown, hnot⟩ := heq
  have hreach : s.Reach (storeCall.node 0) (some 1) := .step (.direct hp) hq
  obtain ⟨-, hsame⟩ := hall _ s hrun hempty 0 (by decide +kernel) 3 (by decide +kernel)
    ⟨[0], .inr rfl⟩ (some 1) hreach
  exact hnot ((hsame none).mp hunknown)

end MpaSummary

end Noelle
