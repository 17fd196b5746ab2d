import Mathlib.Data.Fin.VecNotation
import Noelle.MayPointsToAnalysis.Termination

/-!
# MayPointsToAnalysis.Solution

What the solver computes.

`Below` bounds a state by a solution of the constraints.  `Settled` is the invariant of the
worklist: a node that is not on it has nothing left to pass on.
-/

namespace Noelle

open List Option

namespace MpaSummary

variable {V : Type} [DecidableEq V] {ord : IterOrder} {F : MpaFunction V}
  {s s' s₁ s₂ : MpaSummary V} {a b n : NodeID V} {m o : Option V} {i : Nat}

/-! ## The recorded constraints -/

section

variable (h : Bounded ord F s)

include h

theorem Bounded.load_iff :
    F.constraints.load n b ↔ ∃ l ∈ s.outgoingLoads n, b = F.node l := by
  obtain ⟨hhas, -⟩ := initPtInfo_spec ord F
  rw [h.outgoingLoads]
  constructor
  · rintro ⟨w, hw, l, hgen, rfl⟩
    exact ⟨l, (hhas (.load n l)).mpr (.inr ⟨w, hw, hgen⟩), rfl⟩
  · rintro ⟨l, hl, rfl⟩
    obtain ⟨w, hw, hgen⟩ := ((hhas (.load n l)).mp hl).resolve_left nofun
    exact ⟨w, hw, l, hgen, rfl⟩

theorem Bounded.store_iff :
    F.constraints.store n a ↔ ∃ st ∈ s.incomingStores n, ∃ valueOperand pointerOperand,
      F.value st = .storeInst valueOperand pointerOperand ∧ a = F.node valueOperand := by
  obtain ⟨hhas, -⟩ := initPtInfo_spec ord F
  rw [h.incomingStores]
  constructor
  · rintro ⟨w, hw, st, v, p, hgen, hv, rfl⟩
    exact ⟨st, (hhas (.store n st)).mpr (.inr ⟨w, hw, hgen⟩), v, p, hv, rfl⟩
  · rintro ⟨st, hst, v, p, hv, rfl⟩
    obtain ⟨w, hw, hgen⟩ := ((hhas (.store n st)).mp hst).resolve_left nofun
    exact ⟨w, hw, st, v, p, hgen, hv, rfl⟩

theorem Bounded.escape_iff : F.constraints.escape n ↔ n ∈ s.usedAsFuncArg := by
  obtain ⟨hhas, -⟩ := initPtInfo_spec ord F
  rw [h.usedAsFuncArg]
  refine Iff.trans ⟨.inr, fun h => h.resolve_left nofun⟩ (hhas (.funcArg n)).symm

theorem Bounded.loadEdge_iff :
    loadEdge F s n a b ↔ ∃ m, s.PointsTo n m ∧ a = .memobj m ∧ F.constraints.load n b :=
  ⟨fun ⟨m, hm, ha, hl⟩ => ⟨m, hm, ha, h.load_iff.mpr hl⟩,
    fun ⟨m, hm, ha, hl⟩ => ⟨m, hm, ha, h.load_iff.mp hl⟩⟩

theorem Bounded.storeEdge_iff :
    storeEdge F s n a b ↔ ∃ m, s.PointsTo n m ∧ b = .memobj m ∧ F.constraints.store n a :=
  ⟨fun ⟨m, hm, hb, hst⟩ => ⟨m, hm, hb, h.store_iff.mpr hst⟩,
    fun ⟨m, hm, hb, hst⟩ => ⟨m, hm, hb, h.store_iff.mp hst⟩⟩

end

theorem copy_startWorklist (h : F.constraints.copy a b) :
    b ∈ (startWorklist ord F).copyOutEdges a :=
  ((initPtInfo_spec ord F).1 (.copy a b)).mpr (.inr h)

theorem pointsTo_startWorklist : (startWorklist ord F).PointsTo n o ↔ F.constraints.base n o := by
  refine ((initPtInfo_spec ord F).1 (.base n o)).trans (or_congr_left ?_)
  rw [MpaConstraint.base.injEq]

/-! ## Runs -/

/-- `P` holds of every iteration: of the state, the place and the node that is taken. -/
def EveryStep (ord : IterOrder) (F : MpaFunction V) (P : MpaSummary V → Nat → NodeID V → Prop)
    (choices : List Nat) : Prop :=
  ∀ pre i post s n, choices = pre ++ i :: post → solveWorklist ord F pre = some s →
    s.worklist[i]? = some n → P s i n

variable {choices : List Nat} {σ : NodeID V → Option V → Prop} {exempt : NodeID V → NodeID V → Prop}

/-- What every step preserves holds of the result. -/
theorem solveWorklist_rule {P : MpaSummary V → Nat → NodeID V → Prop} (J : MpaSummary V → Prop)
    (hinit : J (startWorklist ord F))
    (hstep : ∀ s i n s₁ s₂ s', Bounded ord F s → P s i n → SolveStep F s i n s₁ s₂ s' →
      J s → J s') (hP : EveryStep ord F P choices)
    (h : solveWorklist ord F choices = some s) : J s := by
  have hiter : ∀ pre i post s₀, choices = pre ++ i :: post →
      solveWorklist ord F pre = some s₀ ∧ J s₀ →
      ∃ s', s₀.solveStep ord F i = some s' ∧ solveWorklist ord F (pre ++ [i]) = some s' ∧ J s' := by
    rintro pre i post s₀ hl ⟨hpre, hJ⟩
    have hfold : ∀ l, (pre ++ l).foldlM (solveStep ord F) (startWorklist ord F) =
        l.foldlM (solveStep ord F) s₀ := fun l => by
      rw [foldlM_append]
      exact congrArg (Option.bind · _) hpre
    have hrun : solveWorklist ord F (pre ++ i :: post) = some s := hl ▸ h
    unfold solveWorklist at hrun
    rw [hfold, foldlM_cons] at hrun
    obtain ⟨s', hs', -⟩ := bind_eq_some_iff.mp hrun
    have hbounded := bounded_of_solveWorklist hpre
    obtain ⟨n, s₁, s₂, hsolve⟩ := hbounded.step hs'
    refine ⟨s', hs', (hfold [i]).trans (by simpa using hs'), ?_⟩
    exact hstep s₀ i n s₁ s₂ s' hbounded (hP pre i post s₀ n hl hpre hsolve.taken) hsolve hJ
  obtain ⟨s', hs', -, hJ⟩ := foldlM_rule (solveStep ord F)
    (fun (pre : List Nat) s => solveWorklist ord F pre = some s ∧ J s) ⟨rfl, hinit⟩ hiter
  exact mem_unique h hs' ▸ hJ

/-! ## Nothing but what follows -/

/-- The points-to sets are inside `σ`, and the copy edges are inclusions of `σ`. -/
structure Below (σ : NodeID V → Option V → Prop) (s : MpaSummary V) : Prop where
  pointsTo : ∀ n o, s.PointsTo n o → σ n o
  edge : ∀ a b, b ∈ s.copyOutEdges a → ∀ o, σ a o → σ b o

theorem below_startWorklist
    (hσ : F.constraints.withoutEscape.Solution σ) : Below σ (startWorklist ord F) where
  pointsTo n o ho := hσ.base n o (pointsTo_startWorklist.mp ho)
  edge a b hab := by
    refine hσ.copy a b ?_
    exact (((initPtInfo_spec ord F).1 (.copy a b)).mp hab).resolve_left nofun

/-- A step adds only what follows, when the escape edges do. -/
theorem SolveStep.below (h : SolveStep F s i n s₁ s₂ s') (hs : Bounded ord F s)
    (hσ : F.constraints.withoutEscape.Solution σ)
    (hescape : ∀ a b, s.escapeEdge n a b → ∀ o, σ a o → σ b o) (hbelow : Below σ s) :
    Below σ s' := by
  have hpts₁ : s₁.pointsTo = s.pointsTo := h.loadStore.pointsTo
  have hpts₂ : s₂.pointsTo = s.pointsTo := h.funcUsers.pointsTo.trans hpts₁
  have hsame : ∀ x o, s₂.PointsTo x o ↔ s.PointsTo x o := fun x o => by
    rw [pointsTo_iff, hpts₂, ← pointsTo_iff]
  have hescape₁ : ∀ a b, s₁.escapeEdge n a b → s.escapeEdge n a b := by
    rintro a b ⟨hn, m, hm, hab⟩
    exact ⟨h.loadStore.usedAsFuncArg ▸ hn, m, (reach_congr hpts₁).mp hm, hab⟩
  have hedge : ∀ a b, b ∈ s₂.copyOutEdges a → ∀ o, σ a o → σ b o := fun a b hab => by
    rcases (h.funcUsers.edge a b).mp hab with hab | hab
    · rcases (h.loadStore.edge a b).mp hab with hab | hab | hab
      · exact hbelow.edge a b hab
      · obtain ⟨m, hm, rfl, hload⟩ := hs.loadEdge_iff.mp hab
        exact hσ.load n b hload m (hbelow.pointsTo n m hm)
      · obtain ⟨m, hm, rfl, hstore⟩ := hs.storeEdge_iff.mp hab
        exact hσ.store n a hstore m (hbelow.pointsTo n m hm)
    · exact hescape a b (hescape₁ a b hab)
  refine ⟨fun x o ho => ?_, fun a b hab => hedge a b (h.copyEdges.copyOutEdges ▸ hab)⟩
  rcases (h.copyEdges.pointsTo x o).mp ho with ho | ⟨hx, ho⟩
  · exact hbelow.pointsTo x o ((hsame x o).mp ho)
  · exact hedge n x hx o (hbelow.pointsTo n o ((hsame n o).mp ho))

/-! ## Everything that follows -/

/-- What is not on the worklist is done. -/
structure Settled (F : MpaFunction V) (s : MpaSummary V) : Prop where
  base : ∀ n o, F.constraints.base n o → s.PointsTo n o
  copy : ∀ a b, F.constraints.copy a b → b ∈ s.copyOutEdges a
  edge : ∀ a b, b ∈ s.copyOutEdges a → a ∈ s.worklist ∨ ∀ o, s.PointsTo a o → s.PointsTo b o
  loadStore : ∀ n a b, loadEdge F s n a b ∨ storeEdge F s n a b →
    b ∈ s.copyOutEdges a ∨ n ∈ s.worklist

theorem mem_startWorklist (h : (initPtInfo ord F).Knows n) :
    n = UnknownMemobjId ∨ n ∈ (startWorklist ord F).worklist :=
  h.imp_right fun ⟨_, hv, heq⟩ => heq ▸ mem_map_of_mem (ord.mem_visit.mpr hv)

/-- Everything that is not done is queued at the start. -/
theorem settled_startWorklist : Settled F (startWorklist ord F) := by
  obtain ⟨hhas, hnode, hsource⟩ := initPtInfo_spec ord F
  have hwork : ∀ w ∈ F.pointers, F.node w ∈ (startWorklist ord F).worklist := fun w hw =>
    (mem_startWorklist (hnode w hw)).resolve_left nofun
  refine ⟨fun n o h => pointsTo_startWorklist.mpr h, fun a b h => copy_startWorklist h,
    fun a b hab => ?_, fun n a b hab => ?_⟩
  · obtain ⟨w, hw, hgen⟩ := ((hhas (.copy a b)).mp hab).resolve_left nofun
    rcases mem_startWorklist (hsource w hw _ hgen) with ha | ha
    · -- a copy from the unknown object goes to the result of a call
      have ha : a = UnknownMemobjId := ha
      subst ha
      refine .inr fun o ho => ?_
      have hnone : o = none := by
        rcases pointsTo_startWorklist.mp ho with ⟨-, rfl⟩ | ⟨w', -, hdef | ⟨u, -, huse⟩⟩
        · rfl
        · nomatch hdef
        · nomatch huse
      subst hnone
      rcases hgen with hdef | ⟨u, hu, huse⟩
      · cases hdef with
        | callResult hcall =>
            exact pointsTo_startWorklist.mpr (.inr ⟨w, hw, .inl (.base (.call hcall))⟩)
      · nomatch huse
    · exact .inl ha
  · right
    have hsrc : ∃ w ∈ F.pointers, n = F.node w := by
      rcases hab with ⟨m, -, -, l, hl, -⟩ | ⟨m, -, -, st, hst, -⟩
      · obtain ⟨w, hw, hdef | ⟨u, -, huse⟩⟩ := ((hhas (.load n l)).mp hl).resolve_left nofun
        · nomatch hdef
        · cases huse with
          | load _ _ => exact ⟨w, hw, rfl⟩
      · obtain ⟨w, hw, hdef | ⟨u, -, huse⟩⟩ := ((hhas (.store n st)).mp hst).resolve_left nofun
        · nomatch hdef
        · cases huse with
          | store _ _ => exact ⟨w, hw, rfl⟩
    obtain ⟨w, hw, rfl⟩ := hsrc
    exact hwork w hw

/-- The unknown object will be taken from the worklist again: it is on it, or the iteration
pushes it. -/
def UnknownIsQueued (F : MpaFunction V) (s : MpaSummary V) (i : Nat) (n : NodeID V) : Prop :=
  UnknownMemobjId ∈ s.worklist.eraseIdx i ∨
  (∃ o, s.PointsTo n o ∧ ¬ s.PointsTo UnknownMemobjId o) ∨
  (s.Reach n none ∧ UnknownMemobjId ∉ s.copyOutEdges UnknownMemobjId) ∨
  ∃ b, loadEdge F s n UnknownMemobjId b ∧ b ∉ s.copyOutEdges UnknownMemobjId

/-- A call argument that is handled reaches only objects that have what the unknown object
points to, or get it later. -/
def UnknownIsPassedOn (F : MpaFunction V) (s : MpaSummary V) (i : Nat) (n : NodeID V) : Prop :=
  n ∈ s.usedAsFuncArg → ∀ m, s.Reach n m → UnknownIsQueued F s i n ∨
    .memobj m ∈ s.copyOutEdges UnknownMemobjId ∨
    ∀ o, s.PointsTo UnknownMemobjId o → s.PointsTo (.memobj m) o

omit [DecidableEq V] in
theorem mem_eraseIdx_of_ne {l : List (NodeID V)} (hi : l[i]? = some n) (ha : a ∈ l) (hne : a ≠ n) :
    a ∈ l.eraseIdx i := by
  obtain ⟨j, hj⟩ := mem_iff_getElem?.mp ha
  refine mem_eraseIdx_iff_getElem?.mpr ⟨j, fun heq => hne ?_, hj⟩
  exact mem_unique hj (heq ▸ hi)

theorem copy_of_escape (h : F.constraints.escape n) : F.constraints.copy n UnknownMemobjId := by
  obtain ⟨w, hw, hdef | ⟨u, hu, huse⟩⟩ := h
  · nomatch hdef
  · cases huse with
    | funcArg hcall => exact ⟨w, hw, .inr ⟨u, hu, .callArgument hcall⟩⟩

/-- In the iteration of a call argument the unknown object is pushed as `UnknownIsQueued`
says. -/
theorem SolveStep.unknown_queued (h : SolveStep F s i n s₁ s₂ s') (hs : Bounded ord F s)
    (hsettled : Settled F s) (hn : n ∈ s.usedAsFuncArg) (hq : UnknownIsQueued F s i n) :
    UnknownMemobjId ∈ s'.worklist := by
  have hpts₁ : s₁.pointsTo = s.pointsTo := h.loadStore.pointsTo
  have hpts₂ : s₂.pointsTo = s.pointsTo := h.funcUsers.pointsTo.trans hpts₁
  have hsame : ∀ x o, s₂.PointsTo x o ↔ s.PointsTo x o := fun x o => by
    rw [pointsTo_iff, hpts₂, ← pointsTo_iff]
  have hwork : ∀ a ∈ s₁.worklist, a ∈ s'.worklist := fun a ha =>
    h.copyEdges.worklist a (h.funcUsers.worklist a ha)
  rcases hq with hq | ⟨o, ho, hnot⟩ | ⟨hreach, hmissing⟩ | ⟨b, hload, hmissing⟩
  · exact hwork _ (h.loadStore.worklist _ hq)
  · have hedge : UnknownMemobjId ∈ s₂.copyOutEdges n := by
      refine (h.funcUsers.edge _ _).mpr (.inl ((h.loadStore.edge _ _).mpr (.inl ?_)))
      exact hsettled.copy n _ (copy_of_escape (hs.escape_iff.mpr hn))
    have ho' : s'.PointsTo UnknownMemobjId o :=
      (h.copyEdges.pointsTo _ o).mpr (.inr ⟨hedge, (hsame n o).mpr ho⟩)
    exact (h.copyEdges.pushed _ o ho').resolve_left fun ho₂ => hnot ((hsame _ o).mp ho₂)
  · have hnew : s₁.escapeEdge n UnknownMemobjId UnknownMemobjId :=
      ⟨h.loadStore.usedAsFuncArg.symm ▸ hn, none, (reach_congr hpts₁).mpr hreach, .inl ⟨rfl, rfl⟩⟩
    rcases h.funcUsers.pushed _ _ hnew with hedge | hmem | ⟨-, hne⟩
    · rcases (h.loadStore.edge _ _).mp hedge with hedge | ⟨m, -, -, l, -, hb⟩ |
        ⟨m, -, -, st, -, v, p, -, ha⟩
      · exact absurd hedge hmissing
      · exact absurd hb nofun
      · exact absurd ha nofun
    · exact h.copyEdges.worklist _ hmem
    · exact absurd rfl hne
  · rcases h.loadStore.pushed _ b (.inl hload) with hedge | hmem | hfalse
    · exact absurd hedge hmissing
    · exact hwork _ hmem
    · exact hfalse.elim

/-- What is not on the worklist is done, apart from the copy edges of `exempt`. -/
structure SettledApart (exempt : NodeID V → NodeID V → Prop) (F : MpaFunction V)
    (s : MpaSummary V) : Prop where
  base : ∀ n o, F.constraints.base n o → s.PointsTo n o
  copy : ∀ a b, F.constraints.copy a b → b ∈ s.copyOutEdges a
  edge : ∀ a b, b ∈ s.copyOutEdges a →
    exempt a b ∨ a ∈ s.worklist ∨ ∀ o, s.PointsTo a o → s.PointsTo b o
  loadStore : ∀ n a b, loadEdge F s n a b ∨ storeEdge F s n a b →
    b ∈ s.copyOutEdges a ∨ n ∈ s.worklist

theorem Settled.apart (h : Settled F s) :
    SettledApart exempt F s :=
  ⟨h.base, h.copy, fun a b hab => .inr (h.edge a b hab), h.loadStore⟩

theorem SettledApart.settled (h : SettledApart (fun _ _ => False) F s) : Settled F s :=
  ⟨h.base, h.copy, fun a b hab => (h.edge a b hab).resolve_left id, h.loadStore⟩

/-- An iteration leaves done what was done, if it is done with the objects that a call argument
reaches or they are exempt. -/
theorem SolveStep.settledApart
    (h : SolveStep F s i n s₁ s₂ s') (hs : Bounded ord F s)
    (hescape : n ∈ s.usedAsFuncArg → ∀ m, s.Reach n m → exempt UnknownMemobjId (.memobj m) ∨
      UnknownMemobjId ∈ s'.worklist ∨ .memobj m ∈ s.copyOutEdges UnknownMemobjId ∨
        ∀ o, s.PointsTo UnknownMemobjId o → s.PointsTo (.memobj m) o)
    (hsettled : SettledApart exempt F s) : SettledApart exempt F s' := by
  have hpts₁ : s₁.pointsTo = s.pointsTo := h.loadStore.pointsTo
  have hpts₂ : s₂.pointsTo = s.pointsTo := h.funcUsers.pointsTo.trans hpts₁
  have hsame : ∀ x o, s₂.PointsTo x o ↔ s.PointsTo x o := fun x o => by
    rw [pointsTo_iff, hpts₂, ← pointsTo_iff]
  have hgrow : ∀ x o, s.PointsTo x o → s'.PointsTo x o := fun x o ho =>
    (h.copyEdges.pointsTo x o).mpr (.inl ((hsame x o).mpr ho))
  have hedges : s'.copyOutEdges = s₂.copyOutEdges := h.copyEdges.copyOutEdges
  have hold : ∀ a b, b ∈ s.copyOutEdges a → b ∈ s₂.copyOutEdges a := fun a b hab =>
    (h.funcUsers.edge a b).mpr (.inl ((h.loadStore.edge a b).mpr (.inl hab)))
  have hwork : ∀ a ∈ s₁.worklist, a ∈ s'.worklist := fun a ha =>
    h.copyEdges.worklist a (h.funcUsers.worklist a ha)
  have herase : ∀ a ∈ s.worklist, a ≠ n → a ∈ s'.worklist := fun a ha hne =>
    hwork a (h.loadStore.worklist a (mem_eraseIdx_of_ne h.taken ha hne))
  -- the node that was taken has passed its pointees on
  have hdone : ∀ b, b ∈ s₂.copyOutEdges n → ∀ o, s'.PointsTo n o → s'.PointsTo b o :=
    fun b hb o ho => by
      refine (h.copyEdges.pointsTo b o).mpr (.inr ⟨hb, ?_⟩)
      exact ((h.copyEdges.pointsTo n o).mp ho).elim id (·.2)
  -- an inclusion lasts, unless its source grew, and then it is on the worklist
  have hlast : ∀ a b, (∀ o, s.PointsTo a o → s.PointsTo b o) →
      a ∈ s'.worklist ∨ ∀ o, s'.PointsTo a o → s'.PointsTo b o := fun a b hab => by
    by_cases ha : a ∈ s'.worklist
    · exact .inl ha
    · refine .inr fun o ho => hgrow b o (hab o ?_)
      exact (hsame a o).mp ((h.copyEdges.pushed a o ho).resolve_right ha)
  refine ⟨fun n o hb => hgrow n o (hsettled.base n o hb),
    fun a b hab => hedges ▸ hold a b (hsettled.copy a b hab), fun a b hab => ?_, ?_⟩
  · rw [hedges] at hab
    by_cases han : a = n
    · subst han
      exact .inr (.inr (hdone b hab))
    · have hfrom : b ∈ s.copyOutEdges a → exempt a b ∨ a ∈ s'.worklist ∨
          ∀ o, s'.PointsTo a o → s'.PointsTo b o := fun hab =>
        (hsettled.edge a b hab).imp_right
          (Or.elim · (fun ha => .inl (herase a ha han)) (hlast a b))
      have hfrom₁ : b ∈ s₁.copyOutEdges a → exempt a b ∨ a ∈ s'.worklist ∨
          ∀ o, s'.PointsTo a o → s'.PointsTo b o := fun hab => by
        rcases (h.loadStore.edge a b).mp hab with hab₀ | hnew
        · exact hfrom hab₀
        · rcases h.loadStore.pushed a b hnew with hab₀ | ha | hfalse
          · exact hfrom hab₀
          · exact .inr (.inl (hwork a ha))
          · exact hfalse.elim
      rcases (h.funcUsers.edge a b).mp hab with hab₁ | hnew
      · exact hfrom₁ hab₁
      · rcases h.funcUsers.pushed a b hnew with hab₁ | ha | ⟨rfl, hb⟩
        · exact hfrom₁ hab₁
        · exact .inr (.inl (h.copyEdges.worklist a ha))
        · obtain ⟨hn, m, hm, ⟨-, rfl⟩ | ⟨-, rfl⟩⟩ := hnew
          · exact absurd rfl hb
          · have hn : n ∈ s.usedAsFuncArg := h.loadStore.usedAsFuncArg ▸ hn
            have hm : s.Reach n m := (reach_congr hpts₁).mp hm
            rcases hescape hn m hm with hexempt | hq | hold₀ | hincl
            · exact .inl hexempt
            · exact .inr (.inl hq)
            · exact hfrom hold₀
            · exact .inr (hlast _ _ hincl)
  · intro x a b hab
    by_cases hx : x ∈ s'.worklist
    · exact .inr hx
    · have hback : ∀ m, s'.PointsTo x m → s.PointsTo x m := fun m hm =>
        (hsame x m).mp ((h.copyEdges.pushed x m hm).resolve_right hx)
      have hs' : Bounded ord F s' := h.bounded hs
      have hab : loadEdge F s x a b ∨ storeEdge F s x a b := by
        rcases hab with hab | hab
        · obtain ⟨m, hm, ha, hload⟩ := hs'.loadEdge_iff.mp hab
          exact .inl (hs.loadEdge_iff.mpr ⟨m, hback m hm, ha, hload⟩)
        · obtain ⟨m, hm, hb, hstore⟩ := hs'.storeEdge_iff.mp hab
          exact .inr (hs.storeEdge_iff.mpr ⟨m, hback m hm, hb, hstore⟩)
      rw [hedges]
      by_cases hxn : x = n
      · subst hxn
        exact .inl ((h.funcUsers.edge a b).mpr (.inl ((h.loadStore.edge a b).mpr (.inr hab))))
      · exact (hsettled.loadStore x a b hab).imp (hold a b) fun hw => herase x hw hxn

/-- A step leaves done what is not on the worklist. -/
theorem SolveStep.settled (h : SolveStep F s i n s₁ s₂ s') (hs : Bounded ord F s)
    (hqueued : UnknownIsPassedOn F s i n) (hsettled : Settled F s) : Settled F s' := by
  have hapart : SettledApart (fun _ _ => False) F s' :=
    h.settledApart hs (fun hn m hm => .inr ((hqueued hn m hm).imp_left
      (h.unknown_queued hs hsettled hn))) hsettled.apart
  exact hapart.settled

/-! ## Every run -/

/-- A copy edge from the unknown object to an object, which `handleFuncUsers` may add without
pushing the unknown object. -/
def entersObject (a b : NodeID V) : Prop := a = UnknownMemobjId ∧ ∃ m, b = .memobj m

theorem not_entersObject_of_copy (h : F.constraints.copy a b) : ¬ entersObject a b := by
  rintro ⟨rfl, m, rfl⟩
  obtain ⟨w, -, hdef | ⟨u, -, huse⟩⟩ := h
  · nomatch hdef
  · nomatch huse

/-- With an empty worklist the points-to sets satisfy the base, copy, load and store
constraints. -/
theorem SettledApart.solution (h : SettledApart entersObject F s) (hs : Bounded ord F s)
    (hempty : s.worklist = []) : F.constraints.withoutEscape.Solution s.PointsTo where
  base := h.base
  copy a b hab := ((h.edge a b (h.copy a b hab)).resolve_left
    (not_entersObject_of_copy hab)).resolve_left (hempty ▸ not_mem_nil)
  load p d hload m hm := by
    have hedge := h.loadStore p (.memobj m) d (.inl (hs.loadEdge_iff.mpr ⟨m, hm, rfl, hload⟩))
    obtain ⟨_, _, l, -, rfl⟩ := hload
    have hpointer : ¬ entersObject (.memobj m) (F.node l) := by
      rintro ⟨-, m', hm'⟩
      nomatch hm'
    exact ((h.edge _ _ (hedge.resolve_right (hempty ▸ not_mem_nil))).resolve_left
      hpointer).resolve_left (hempty ▸ not_mem_nil)
  store p v hstore m hm := by
    have hedge := h.loadStore p v (.memobj m) (.inr (hs.storeEdge_iff.mpr ⟨m, hm, rfl, hstore⟩))
    obtain ⟨_, _, st, valueOperand, _, -, -, rfl⟩ := hstore
    have hpointer : ¬ entersObject (F.node valueOperand) (.memobj m) := by
      rintro ⟨hv, -⟩
      nomatch hv
    exact ((h.edge _ _ (hedge.resolve_right (hempty ▸ not_mem_nil))).resolve_left
      hpointer).resolve_left (hempty ▸ not_mem_nil)
  escape_out _ hfalse := hfalse.elim
  escape_in _ hfalse := hfalse.elim

/-- Every run ends in a solution of the base, copy, load and store constraints. -/
theorem solution_of_solveWorklist (hrun : solveWorklist ord F choices = some s)
    (hempty : s.worklist = []) :
    F.constraints.withoutEscape.Solution s.PointsTo := by
  have hsettled : SettledApart entersObject F s := by
    refine solveWorklist_rule (P := fun _ _ _ => True) (SettledApart entersObject F)
      settled_startWorklist.apart ?_ (fun _ _ _ _ _ _ _ _ => trivial) hrun
    intro s i n s₁ s₂ s' hs _ hstep hsettled
    exact hstep.settledApart hs (fun _ m _ => .inl ⟨rfl, m, rfl⟩) hsettled
  exact hsettled.solution (bounded_of_solveWorklist hrun) hempty

theorem pointsTo_le_solution (hrun : solveWorklist ord F choices = some s)
    (hσ : F.constraints.Solution σ) :
    ∀ n o, s.PointsTo n o → σ n o := by
  have hbelow : Below σ s := by
    refine solveWorklist_rule (P := fun _ _ _ => True) (Below σ)
      (below_startWorklist hσ.withoutEscape) ?_ (fun _ _ _ _ _ _ _ _ => trivial) hrun
    intro s i n s₁ s₂ s' hs _ hstep hbelow
    refine hstep.below hs hσ.withoutEscape (fun a b he => ?_) hbelow
    obtain ⟨hn, m, hm, ⟨rfl, rfl⟩ | ⟨rfl, rfl⟩⟩ := he
    · exact hσ.escape_out n (hs.escape_iff.mpr hn) m (hm.mono hbelow.pointsTo)
    · exact hσ.escape_in n (hs.escape_iff.mpr hn) m (hm.mono hbelow.pointsTo)
  exact hbelow.pointsTo

/-! ## Functions without calls -/

/-- Nothing is reachable from the node but the unknown object, if the node is handled as a call
argument. -/
def EscapesNothing (s : MpaSummary V) (_ : Nat) (n : NodeID V) : Prop :=
  n ∈ s.usedAsFuncArg → ∀ m, s.Reach n m → m = none

omit [DecidableEq V] in
/-- The copy edges of a call argument that reaches nothing are from and to the unknown object. -/
theorem EscapesNothing.escapeEdge (h : EscapesNothing s i n) (he : s.escapeEdge n a b) : a = b := by
  obtain ⟨hn, m, hm, hab⟩ := he
  obtain rfl := h hn m hm
  rcases hab with ⟨rfl, rfl⟩ | ⟨rfl, rfl⟩ <;> rfl

/-- `%p = alloca; %q = alloca; store %q, %p; %x = load %p`. -/
def storeLoad : MpaFunction (Fin 4) where
  value := ![.allocaInst, .allocaInst, .storeInst 1 0, .loadInst 0]
  isPointerTy := ![true, true, false, true]
  users := ![[2, 3], [2], [], []]
  args := []
  instructions := [0, 1, 2, 3]
  privatizeCandidate := none
  candidate_global := by simp
  castDepth := 0

end MpaSummary

end Noelle
