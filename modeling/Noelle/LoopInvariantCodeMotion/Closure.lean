import Noelle.LoopInvariantCodeMotion.Invariants

/-!
# LoopInvariantCodeMotion.Closure

What an invariant depends on in the loop is invariant as well.

A PHI is claimed to be invariant while its dependences are checked, and the claim can be given up.
`Searching` is what holds while some instructions are on the stack: the other invariants are
closed under dependences.  What relies on a claim was reached from the PHI, so that in a loop in
SSA form it is nothing that the PHI depends on, and nothing that was found relies on a claim that
is given up (`Searching.retract`).
-/

namespace Noelle

open PtrSet List Option

namespace InvariantManager

open LoopInvariantCodeMotion Relation

variable {F V B : Type} [DecidableEq V]

/-! ## Dependences -/

section Definitions

variable (fn : InvariantFunction V B) (l : LoopStructure F B) (ldg : PDG V)

/-- The incoming values of the PHI are one value, or loads of one global. -/
def EquivalentIncomingValues (phi : V) : Prop :=
  fn.code.incoming phi ≠ [] ∧
    ((∃ v, ∀ e ∈ fn.code.incoming phi, e.2 = v) ∨
      ∃ global, ∀ e ∈ fn.code.incoming phi, fn.loadedGlobal e.2 = some global)

/-- The edge is a data dependence of the instruction. -/
def DependsBy (i : V) (e : DGEdge V) : Prop :=
  ∃ pdgNode, ldg.nodeOf i = some pdgNode ∧ e ∈ ldg.incomingEdges pdgNode ∧
    dataDependences.accepts e = true

/-- A dependence on an instruction of the loop that is followed. -/
structure Followed (toValue : V) (dep : DGEdge V) : Prop where
  included : isIncluded fn l toValue = true
  notStore : fn.inst toValue ≠ .store
  notManagesMemory : managesMemory (fn.inst toValue) = false
  notMemory : dep.kind.isMemory = false
  equivalent : isPHI fn l toValue = true → EquivalentIncomingValues fn toValue

/-- The instruction has a dependence on the other that is followed. -/
def DependsOn (i d : V) : Prop := ∃ e, DependsBy ldg i e ∧ e.getSrc = d ∧ Followed fn l d e

/-- A PHI depends on its incoming values, and if these are equivalent, they are computed without
it. -/
structure SSAForm : Prop where
  incoming : ∀ phi d, isPHI fn l phi = true → DependsOn fn l ldg phi d →
    ∃ e ∈ fn.code.incoming phi, e.2 = d
  acyclic : ∀ phi, isPHI fn l phi = true → EquivalentIncomingValues fn phi →
    ∀ e ∈ fn.code.incoming phi, ¬ ReflTransGen (DependsOn fn l ldg) e.2 phi

/-- All that the instruction depends on in the loop is in the set, with no dependence through
memory and none on a store or on what manages memory. -/
def IsClosedAt (invariants : PtrSet V) (i : V) : Prop :=
  ∀ e, DependsBy ldg i e → isIncluded fn l e.getSrc = true →
    e.getSrc ∈ invariants ∧ Followed fn l e.getSrc e

end Definitions

variable {ord : IterOrder} {fn : InvariantFunction V B} {l : LoopStructure F B} {ldg : PDG V}

def dependencesOf (ord : IterOrder) (ldg : PDG V) (i : V) : List (DGEdge V) :=
  ((ldg.nodeOf i).elim [] fun pdgNode => ord.visit (ldg.incomingEdges pdgNode).elems).filter
    dataDependences.accepts

variable (ord) in
theorem mem_dependencesOf {i : V} {e : DGEdge V} :
    e ∈ dependencesOf ord ldg i ↔ DependsBy ldg i e := by
  unfold dependencesOf DependsBy
  cases ldg.nodeOf i with
  | none => simp
  | some pdgNode => simp [List.mem_filter]

/-- An invariant of the steps holds where the iteration stops. -/
theorem iterateOverDependencesTo_rule {σ : Type} {f : σ → V → DGEdge V → Bool × σ}
    (I : List (DGEdge V) → σ → Prop) {i : V} {s s' : σ} {stop : Bool} (h0 : I [] s)
    (hstep : ∀ pre e post s s₁, dependencesOf ord ldg i = pre ++ e :: post → I pre s →
      f s e.getSrc e = (false, s₁) → I (pre ++ [e]) s₁)
    (h : (PDG.iterateOverDependencesTo ord ldg i dataDependences f s).1 = (stop, s')) :
    (stop = false ∧ I (dependencesOf ord ldg i) s') ∨
      (stop = true ∧ ∃ pre e post s₁, dependencesOf ord ldg i = pre ++ e :: post ∧ I pre s₁ ∧
        f s₁ e.getSrc e = (true, s')) := by
  have hedges : (ldg.fetchNode i).2.incomingEdges = ldg.incomingEdges := by
    unfold DG.fetchNode
    split
    · rfl
    · split <;> rfl
  unfold dependencesOf at hstep ⊢
  unfold PDG.iterateOverDependencesTo at h
  dsimp only at h
  rw [hedges] at h
  unfold DG.nodeOf at hstep ⊢
  cases hn : (ldg.fetchNode i).1 with
  | none =>
    rw [hn] at h
    obtain ⟨rfl, rfl⟩ := Prod.mk.inj h
    exact .inl ⟨rfl, h0⟩
  | some pdgNode =>
    rw [hn] at h hstep
    exact PDG.invokePerDependence_rule I h0 hstep h

/-! ## Equivalent incoming values -/

theorem loadSameGlobal_some {global : V} : ∀ {values : List V},
    (loadSameGlobal fn values (some global)).isSome = true ↔
      ∀ v ∈ values, fn.loadedGlobal v = some global
  | [] => by simp [loadSameGlobal]
  | v :: values => by
      cases hv : fn.loadedGlobal v with
      | none => simp [loadSameGlobal, hv]
      | some g =>
          by_cases hg : g = global
          · subst hg
            simp [loadSameGlobal, hv, loadSameGlobal_some]
          · simp [loadSameGlobal, hv, hg, Ne.symm hg]

theorem loadSameGlobal_none {values : List V} (hvalues : values ≠ []) :
    (loadSameGlobal fn values none).isSome = true ↔
      ∃ global, ∀ v ∈ values, fn.loadedGlobal v = some global := by
  cases values with
  | nil => exact absurd rfl hvalues
  | cons v values =>
    cases hv : fn.loadedGlobal v with
    | none => simp [loadSameGlobal, hv]
    | some g => simp [loadSameGlobal, hv, loadSameGlobal_some]

variable (ord) in
/-- The test answers whether the incoming values are equivalent. -/
theorem arePHIIncomingValuesEquivalent_iff {phi : V} :
    arePHIIncomingValuesEquivalent ord fn phi = true ↔ EquivalentIncomingValues fn phi := by
  unfold arePHIIncomingValuesEquivalent EquivalentIncomingValues
  dsimp only
  have hmem : ∀ v, v ∈ PtrSet.ofList ((fn.code.incoming phi).map (·.2)) ↔
      ∃ e ∈ fn.code.incoming phi, e.2 = v := fun v => by simp
  generalize PtrSet.ofList ((fn.code.incoming phi).map (·.2)) = s at hmem
  have hempty : s.size = 0 ↔ fn.code.incoming phi = [] := by
    rw [PtrSet.size, length_eq_zero_iff, eq_nil_iff_forall_not_mem,
      eq_nil_iff_forall_not_mem]
    constructor
    · exact fun h e he => h e.2 ((hmem e.2).mpr ⟨e, he, rfl⟩)
    · intro h v hv
      obtain ⟨e, he, -⟩ := (hmem v).mp hv
      exact h e he
  split
  next hzero => simp [hempty.mp hzero]
  next hzero =>
  have hne : fn.code.incoming phi ≠ [] := fun h => hzero (hempty.mpr h)
  split
  next hone =>
    obtain ⟨v, hv⟩ := length_eq_one_iff.mp hone
    refine iff_of_true rfl ⟨hne, .inl ⟨v, fun e he => ?_⟩⟩
    exact mem_singleton.mp (hv ▸ (hmem e.2).mpr ⟨e, he, rfl⟩)
  next hone =>
    have hseveral : ¬ ∃ v, ∀ e ∈ fn.code.incoming phi, e.2 = v := by
      rintro ⟨v, hv⟩
      have hle : s.size ≤ [v].length := size_le_length fun w hw => by
        obtain ⟨e, he, rfl⟩ := (hmem w).mp hw
        exact mem_singleton.mpr (hv e he)
      simp only [length_singleton] at hle
      omega
    have helems : ord.visit s.elems ≠ [] := by
      rw [← length_pos_iff, ord.length_visit]
      exact Nat.pos_of_ne_zero hzero
    rw [loadSameGlobal_none helems]
    simp only [ord.mem_visit, mem_elems, hmem]
    constructor
    · rintro ⟨global, h⟩
      exact ⟨hne, .inr ⟨global, fun e he => h e.2 ⟨e, he, rfl⟩⟩⟩
    · intro h
      obtain ⟨global, h⟩ := h.2.resolve_left hseveral
      refine ⟨global, ?_⟩
      rintro v ⟨e, he, hv⟩
      exact hv ▸ h e he

/-! ## The checks that do not follow dependences -/

section Known

variable {st : InvarianceChecker V} {toValue : V} {dep : DGEdge V}

theorem followed_iff (ord : IterOrder) : Followed fn l toValue dep ↔
    isIncluded fn l toValue = true ∧ fn.inst toValue ≠ .store ∧
      managesMemory (fn.inst toValue) = false ∧ dep.kind.isMemory = false ∧
      (isPHI fn l toValue && !arePHIIncomingValuesEquivalent ord fn toValue) = false := by
  have hphi : (isPHI fn l toValue && !arePHIIncomingValuesEquivalent ord fn toValue) = false ↔
      (isPHI fn l toValue = true → EquivalentIncomingValues fn toValue) := by
    rw [← arePHIIncomingValuesEquivalent_iff ord]
    cases isPHI fn l toValue <;> simp
  rw [hphi]
  constructor
  · exact fun h => ⟨h.included, h.notStore, h.notManagesMemory, h.notMemory, h.equivalent⟩
  · rintro ⟨hincluded, hstore, hmemory, hdep, hequivalent⟩
    exact ⟨hincluded, hstore, hmemory, hdep, hequivalent⟩

theorem isKnownToEvolve_of_not_followed (h : ¬ Followed fn l toValue dep) :
    isKnownToEvolve ord fn l st toValue dep = some (isIncluded fn l toValue) := by
  rw [followed_iff ord] at h
  unfold isKnownToEvolve
  cases hin : isIncluded fn l toValue with
  | false => rfl
  | true =>
    by_cases hstore : fn.inst toValue = .store
    · simp [hstore]
    · cases hmanages : managesMemory (fn.inst toValue) with
      | true => simp [hstore]
      | false =>
        cases hmemory : dep.kind.isMemory with
        | true => simp [hstore]
        | false =>
          cases hphi : isPHI fn l toValue && !arePHIIncomingValuesEquivalent ord fn toValue with
          | true => simp [hstore]
          | false => exact absurd ⟨hin, hstore, hmanages, hmemory, hphi⟩ h

theorem isKnownToEvolve_of_followed (h : Followed fn l toValue dep) :
    isKnownToEvolve ord fn l st toValue dep =
      if toValue ∈ st.invariants then some false
      else if toValue ∈ st.notInvariants then some true else none := by
  obtain ⟨hin, hstore, hmanages, hmemory, hphi⟩ := (followed_iff ord).mp h
  simp [isKnownToEvolve, hin, hstore, hmanages, hmemory, hphi]

end Known

/-! ## Claims -/

@[simp] theorem mem_invariants_claimPHI {st : InvarianceChecker V} {i x : V} :
    x ∈ (claimPHI fn l st i).invariants ↔
      x ∈ st.invariants ∨ x = i ∧ isPHI fn l i = true := by
  unfold claimPHI
  split
  next hphi => simp [hphi, or_comm]
  next hphi => simp [hphi]

@[simp] theorem notInvariants_claimPHI (st : InvarianceChecker V) (i : V) :
    (claimPHI fn l st i).notInvariants = st.notInvariants := by
  unfold claimPHI
  split <;> rfl

theorem claimPHI_checking (st : InvarianceChecker V) (checking : PtrSet V) (i : V) :
    claimPHI fn l { st with dependencyValuesBeingChecked := checking } i =
      { claimPHI fn l st i with dependencyValuesBeingChecked := checking } := by
  unfold claimPHI
  split <;> rfl

variable (fn l ldg) in
/-- What holds while the instructions on the stack are being checked. -/
structure Searching (stack : List V) (st : InvarianceChecker V) : Prop where
  equivalent : ∀ i ∈ st.invariants, isPHI fn l i = true → EquivalentIncomingValues fn i
  closed : ∀ i ∈ st.invariants, i ∉ stack → IsClosedAt fn l ldg st.invariants i
  claimed : ∀ i ∈ st.invariants, i ∈ stack → isPHI fn l i = true
  onStack : ∀ i ∈ stack, i ∈ st.dependencyValuesBeingChecked
  checked : ∀ i ∈ st.dependencyValuesBeingChecked, isPHI fn l i = true →
    i ∈ st.invariants ∨ i ∈ st.notInvariants

theorem IsClosedAt.mono {s t : PtrSet V} {i : V} (h : IsClosedAt fn l ldg s i)
    (hst : ∀ x ∈ s, x ∈ t) : IsClosedAt fn l ldg t i := fun e he hin =>
  ⟨hst _ (h e he hin).1, (h e he hin).2⟩

namespace Searching

variable {stack : List V} {st st' : InvarianceChecker V} {i : V}

/-- Checking a value puts it on the stack. -/
theorem push (h : Searching fn l ldg stack st)
    (hequivalent : isPHI fn l i = true → EquivalentIncomingValues fn i) (hi : i ∉ st.invariants) :
    Searching fn l ldg (i :: stack) { claimPHI fn l st i with
      dependencyValuesBeingChecked := st.dependencyValuesBeingChecked.insert i } where
  equivalent x hx hphi := by
    rcases mem_invariants_claimPHI.mp hx with hx | ⟨rfl, -⟩
    · exact h.equivalent x hx hphi
    · exact hequivalent hphi
  closed x hx hstack := by
    rw [mem_cons, not_or] at hstack
    have hx := (mem_invariants_claimPHI.mp hx).resolve_right fun hxi => hstack.1 hxi.1
    exact (h.closed x hx hstack.2).mono fun y hy => mem_invariants_claimPHI.mpr (.inl hy)
  claimed x hx hstack := by
    rcases mem_invariants_claimPHI.mp hx with hmem | ⟨rfl, hphi⟩
    · rcases mem_cons.mp hstack with rfl | hstack
      · exact absurd hmem hi
      · exact h.claimed x hmem hstack
    · exact hphi
  onStack x hx := by
    rcases mem_cons.mp hx with rfl | hx
    · exact mem_insert.mpr (.inl rfl)
    · exact mem_insert.mpr (.inr (h.onStack x hx))
  checked x hx hphi := by
    rw [mem_invariants_claimPHI, notInvariants_claimPHI]
    rcases mem_insert.mp hx with rfl | hx
    · exact .inl (.inr ⟨rfl, hphi⟩)
    · exact (h.checked x hx hphi).imp_left .inl

/-- A value whose dependences are invariant is kept. -/
theorem keep (h : Searching fn l ldg (i :: stack) st)
    (hequivalent : isPHI fn l i = true → EquivalentIncomingValues fn i) (hstack : i ∉ stack)
    (hclosed : IsClosedAt fn l ldg st.invariants i) :
    Searching fn l ldg stack { st with invariants := st.invariants.insert i } where
  equivalent x hx hphi := by
    rcases mem_insert.mp hx with rfl | hx
    · exact hequivalent hphi
    · exact h.equivalent x hx hphi
  closed x hx hxstack := by
    have hmono : ∀ y ∈ st.invariants, y ∈ st.invariants.insert i := fun y hy =>
      mem_insert.mpr (.inr hy)
    by_cases hxi : x = i
    · exact (hxi ▸ hclosed).mono hmono
    · have hx := (mem_insert.mp hx).resolve_left hxi
      exact (h.closed x hx (by simp [hxi, hxstack])).mono hmono
  claimed x hx hxstack := by
    have hx := (mem_insert.mp hx).resolve_left fun hxi => hstack (hxi ▸ hxstack)
    exact h.claimed x hx (.tail i hxstack)
  onStack x hx := h.onStack x (.tail i hx)
  checked x hx hphi := (h.checked x hx hphi).imp_left fun hx => mem_insert.mpr (.inr hx)

theorem retract (h : Searching fn l ldg (i :: stack) st)
    (hfree : ∀ x ∈ st.invariants, x ∉ i :: stack → ∀ e, DependsBy ldg x e →
      isIncluded fn l e.getSrc = true → e.getSrc ≠ i) :
    Searching fn l ldg stack { st with
      invariants := st.invariants.erase i
      notInvariants := st.notInvariants.insert i } where
  equivalent x hx := h.equivalent x (mem_erase.mp hx).2
  closed x hx hstack e he hin := by
    obtain ⟨hxi, hx⟩ := mem_erase.mp hx
    have hxstack : x ∉ i :: stack := by simp [hxi, hstack]
    obtain ⟨hmem, hfollowed⟩ := h.closed x hx hxstack e he hin
    exact ⟨mem_erase.mpr ⟨hfree x hx hxstack e he hin, hmem⟩, hfollowed⟩
  claimed x hx hstack := h.claimed x (mem_erase.mp hx).2 (.tail i hstack)
  onStack x hx := h.onStack x (.tail i hx)
  checked x hx hphi := by
    by_cases hxi : x = i
    · exact .inr (mem_insert.mpr (.inl hxi))
    · exact (h.checked x hx hphi).imp (fun hx => mem_erase.mpr ⟨hxi, hx⟩)
        fun hx => mem_insert.mpr (.inr hx)

/-- What was found since the check of an instruction began does not depend on it, if it is no PHI
that depends on itself. -/
theorem free (h : Searching fn l ldg (i :: stack) st') (hbefore : Searching fn l ldg stack st)
    (hacyclic : isPHI fn l i = true → ¬ TransGen (DependsOn fn l ldg) i i) (hi : i ∉ st.invariants)
    (hreached : ∀ x ∈ st'.invariants,
      x ∈ st.invariants ∨ ReflTransGen (DependsOn fn l ldg) i x) :
    ∀ x ∈ st'.invariants, x ∉ i :: stack → ∀ e, DependsBy ldg x e →
      isIncluded fn l e.getSrc = true → e.getSrc ≠ i := by
  rintro x hx hxstack e he hin rfl
  obtain ⟨hmem, hfollowed⟩ := h.closed x hx hxstack e he hin
  have hphi := h.claimed _ hmem (.head _)
  rw [mem_cons, not_or] at hxstack
  rcases hreached x hx with hx | hreach
  · exact hi (hbefore.closed x hx hxstack.2 e he hin).1
  · exact hacyclic hphi (.tail' hreach ⟨e, he, rfl, hfollowed⟩)

end Searching

/-! ## The recursion -/

variable (fn l ldg) in
/-- What a call of `isEvolvingValue` does. -/
structure Checked (stack : List V) (st : InvarianceChecker V) (toValue : V) (dep : DGEdge V)
    (evolves : Bool) (st' : InvarianceChecker V) : Prop where
  searching : Searching fn l ldg stack st'
  kept : ∀ x ∈ st.invariants, x ∈ st'.invariants
  reached : ∀ x ∈ st'.invariants, x ∈ st.invariants ∨
    Followed fn l toValue dep ∧ ReflTransGen (DependsOn fn l ldg) toValue x
  invariant : evolves = false → isIncluded fn l toValue = true →
    toValue ∈ st'.invariants ∧ Followed fn l toValue dep

variable (fn l ldg) in
/-- What the loop over the dependences of an instruction does. -/
structure CheckedDependences (stack : List V) (st : InvarianceChecker V) (i : V)
    (st' : InvarianceChecker V) : Prop where
  searching : Searching fn l ldg stack st'
  kept : ∀ x ∈ st.invariants, x ∈ st'.invariants
  reached : ∀ x ∈ st'.invariants, x ∈ st.invariants ∨ TransGen (DependsOn fn l ldg) i x

section Recursion

variable {stack : List V} {st st₁ st' : InvarianceChecker V} {i : V} {e : DGEdge V} {b : Bool}

/-- One more dependence is checked. -/
theorem CheckedDependences.step (h : CheckedDependences fn l ldg stack st i st₁)
    (he : DependsBy ldg i e) (hcheck : Checked fn l ldg stack st₁ e.getSrc e b st') :
    CheckedDependences fn l ldg stack st i st' where
  searching := hcheck.searching
  kept x hx := hcheck.kept x (h.kept x hx)
  reached x hx := by
    rcases hcheck.reached x hx with hx | ⟨hfollowed, hreach⟩
    · exact h.reached x hx
    · exact .inr (.head' ⟨e, he, rfl, hfollowed⟩ hreach)

@[simp] theorem isEvolvingValue_none (fuel : Nat) (toValue : V) (dep : DGEdge V) :
    isEvolvingValue ord fn l ldg fuel none toValue dep = (true, none) := by
  cases fuel <;> rfl

/-- The dependences of a value are checked until one evolves. -/
theorem checkedDependences {fuel : Nat}
    (hrec : ∀ {st toValue dep b st'}, Searching fn l ldg stack st →
      isEvolvingValue ord fn l ldg fuel (some st) toValue dep = (b, some st') →
        Checked fn l ldg stack st toValue dep b st')
    (hst : Searching fn l ldg stack st)
    (h : (PDG.iterateOverDependencesTo ord ldg i dataDependences
      (isEvolvingValue ord fn l ldg fuel) (some st)).1 = (b, some st')) :
    CheckedDependences fn l ldg stack st i st' ∧
      (b = false → IsClosedAt fn l ldg st'.invariants i) := by
  have hrule := iterateOverDependencesTo_rule (fun pre s => ∀ st', s = some st' →
    CheckedDependences fn l ldg stack st i st' ∧ ∀ e ∈ pre, isIncluded fn l e.getSrc = true →
      e.getSrc ∈ st'.invariants ∧ Followed fn l e.getSrc e) ?_ ?_ h
  · rcases hrule with ⟨-, hI⟩ | ⟨rfl, pre, e, post, s₁, hdeps, hI, hf⟩
    · obtain ⟨hchecked, hclosed⟩ := hI st' rfl
      exact ⟨hchecked, fun _ e he hin => hclosed e ((mem_dependencesOf ord).mpr he) hin⟩
    · cases s₁ with
      | none => simp at hf
      | some st₁ =>
        have he : e ∈ dependencesOf ord ldg i := by simp [hdeps]
        obtain ⟨hchecked, -⟩ := hI st₁ rfl
        exact ⟨hchecked.step ((mem_dependencesOf ord).mp he) (hrec hchecked.searching hf), fun heq => Bool.noConfusion heq⟩
  · rintro st' ⟨⟩
    exact ⟨⟨hst, fun _ hx => hx, fun _ hx => .inl hx⟩, nofun⟩
  · rintro pre e post s s₁ hdeps hI hf st₂ rfl
    cases s with
    | none => simp at hf
    | some st₁ =>
      have he : e ∈ dependencesOf ord ldg i := by simp [hdeps]
      obtain ⟨hchecked, hclosed⟩ := hI st₁ rfl
      have hcheck := hrec hchecked.searching hf
      refine ⟨hchecked.step ((mem_dependencesOf ord).mp he) hcheck, fun d hd hin => ?_⟩
      rcases mem_append.mp hd with hd | hd
      · obtain ⟨hmem, hfollowed⟩ := hclosed d hd hin
        exact ⟨hcheck.kept _ hmem, hfollowed⟩
      · obtain rfl := mem_singleton.mp hd
        exact hcheck.invariant rfl hin

/-- The check of one value keeps the invariant of the search. -/
theorem Searching.check {fuel : Nat}
    (hacyclic : ∀ i, isPHI fn l i = true → EquivalentIncomingValues fn i →
      ¬ TransGen (DependsOn fn l ldg) i i)
    (hrec : ∀ {stack st toValue dep b st'}, Searching fn l ldg stack st →
      isEvolvingValue ord fn l ldg fuel (some st) toValue dep = (b, some st') →
        Checked fn l ldg stack st toValue dep b st')
    (hst : Searching fn l ldg stack st) (hstack : i ∉ stack) (hi : i ∉ st.invariants)
    (hequivalent : isPHI fn l i = true → EquivalentIncomingValues fn i)
    (h : (PDG.iterateOverDependencesTo ord ldg i dataDependences
      (isEvolvingValue ord fn l ldg fuel) (some { claimPHI fn l st i with
        dependencyValuesBeingChecked := st.dependencyValuesBeingChecked.insert i })).1 =
          (b, some st')) :
    Searching fn l ldg stack { st' with
        invariants := st'.invariants.erase i
        notInvariants := st'.notInvariants.insert i } ∧
      (b = false → Searching fn l ldg stack { st' with invariants := st'.invariants.insert i }) ∧
      (∀ x ∈ st.invariants, x ∈ st'.invariants) ∧
      ∀ x ∈ st'.invariants, x ∈ st.invariants ∨ ReflTransGen (DependsOn fn l ldg) i x := by
  obtain ⟨hchecked, hclosed⟩ := checkedDependences hrec (hst.push hequivalent hi) h
  have hkept : ∀ x ∈ st.invariants, x ∈ st'.invariants := fun x hx =>
    hchecked.kept x (mem_invariants_claimPHI.mpr (.inl hx))
  have hreached : ∀ x ∈ st'.invariants,
      x ∈ st.invariants ∨ ReflTransGen (DependsOn fn l ldg) i x := fun x hx => by
    rcases hchecked.reached x hx with hx | hreach
    · rcases mem_invariants_claimPHI.mp hx with hx | ⟨rfl, -⟩
      · exact .inl hx
      · exact .inr .refl
    · exact .inr hreach.to_reflTransGen
  have hfree := hchecked.searching.free hst (fun hphi => hacyclic i hphi (hequivalent hphi)) hi
    hreached
  exact ⟨hchecked.searching.retract hfree,
    fun hb => hchecked.searching.keep hequivalent hstack (hclosed hb), hkept, hreached⟩

end Recursion

/-- What the check calls invariant depends on nothing that evolves. -/
theorem isEvolvingValue_checked
    (hacyclic : ∀ i, isPHI fn l i = true → EquivalentIncomingValues fn i →
      ¬ TransGen (DependsOn fn l ldg) i i) :
    ∀ (fuel : Nat) {stack : List V} {st : InvarianceChecker V} {toValue : V} {dep : DGEdge V}
      {b : Bool} {st' : InvarianceChecker V}, Searching fn l ldg stack st →
      isEvolvingValue ord fn l ldg fuel (some st) toValue dep = (b, some st') →
        Checked fn l ldg stack st toValue dep b st'
  | 0, _, _, _, _, _, _, _, h => by
      simp [isEvolvingValue] at h
  | fuel + 1, stack, st, toValue, dep, b, st', hst, h => by
      have hsame : ∀ b, (b = false → isIncluded fn l toValue = true →
          toValue ∈ st.invariants ∧ Followed fn l toValue dep) →
          Checked fn l ldg stack st toValue dep b st := fun b hb =>
        ⟨hst, fun _ hx => hx, fun _ hx => .inl hx, hb⟩
      unfold isEvolvingValue at h
      by_cases hfollowed : Followed fn l toValue dep
      · rw [isKnownToEvolve_of_followed hfollowed] at h
        by_cases hinv : toValue ∈ st.invariants
        · rw [if_pos hinv] at h
          obtain ⟨rfl, ⟨⟩⟩ := Prod.mk.inj h
          exact hsame _ fun _ _ => ⟨hinv, hfollowed⟩
        rw [if_neg hinv] at h
        by_cases hnot : toValue ∈ st.notInvariants
        · rw [if_pos hnot] at h
          obtain ⟨rfl, ⟨⟩⟩ := Prod.mk.inj h
          exact hsame _ fun heq => Bool.noConfusion heq
        rw [if_neg hnot] at h
        dsimp only at h
        simp only [dependencyValuesBeingChecked_claimPHI] at h
        split at h
        next hchecking =>
          -- a PHI that is being checked is claimed, so that this is none
          obtain ⟨rfl, ⟨⟩⟩ := Prod.mk.inj h
          have hphi : isPHI fn l toValue = false := by
            by_contra hphi
            rw [Bool.not_eq_false] at hphi
            exact (hst.checked toValue hchecking hphi).elim hinv hnot
          rw [claimPHI, hphi]
          exact hsame _ fun heq => Bool.noConfusion heq
        next hchecking =>
          have hstack : toValue ∉ stack := fun hmem => hchecking (hst.onStack toValue hmem)
          generalize hloop : (PDG.iterateOverDependencesTo ord ldg toValue dataDependences
            (isEvolvingValue ord fn l ldg fuel) _).1 = out at h
          obtain ⟨stop, _ | st₁⟩ := out
          · cases stop <;> cases h
          obtain ⟨hretract, hkeep, hkept, hreached⟩ := hst.check hacyclic
            (isEvolvingValue_checked hacyclic fuel) hstack hinv hfollowed.equivalent hloop
          cases stop with
          | true =>
            obtain ⟨rfl, ⟨⟩⟩ := Prod.mk.inj h
            refine ⟨hretract, fun x hx => ?_, fun x hx => ?_, fun heq => Bool.noConfusion heq⟩
            · exact mem_erase.mpr ⟨fun hxi => hinv (hxi ▸ hx), hkept x hx⟩
            · exact (hreached x (mem_erase.mp hx).2).imp_right fun hx => ⟨hfollowed, hx⟩
          | false =>
            obtain ⟨rfl, ⟨⟩⟩ := Prod.mk.inj h
            refine ⟨hkeep rfl, fun x hx => mem_insert.mpr (.inr (hkept x hx)),
              fun x hx => ?_, fun _ _ => ⟨mem_insert.mpr (.inl rfl), hfollowed⟩⟩
            rcases mem_insert.mp hx with rfl | hx
            · exact .inr ⟨hfollowed, .refl⟩
            · exact (hreached x hx).imp_right fun hx => ⟨hfollowed, hx⟩
      · rw [isKnownToEvolve_of_not_followed hfollowed] at h
        obtain ⟨rfl, ⟨⟩⟩ := Prod.mk.inj h
        exact hsame _ fun hfalse htrue => absurd (hfalse.symm.trans htrue) Bool.noConfusion

/-! ## The loop over the instructions -/

theorem SSAForm.not_transGen (h : SSAForm fn l ldg) (phi : V) (hphi : isPHI fn l phi = true)
    (hequivalent : EquivalentIncomingValues fn phi) :
    ¬ TransGen (DependsOn fn l ldg) phi phi := by
  intro hcycle
  obtain ⟨d, hd, hpath⟩ := TransGen.head'_iff.mp hcycle
  obtain ⟨e, he, rfl⟩ := h.incoming phi d hphi hd
  exact h.acyclic phi hphi hequivalent e he hpath

theorem Searching.empty : Searching fn l ldg [] ({} : InvarianceChecker V) where
  equivalent i hi := absurd hi (not_mem_empty i)
  closed i hi := absurd hi (not_mem_empty i)
  claimed i hi := absurd hi (not_mem_empty i)
  onStack _ hi := nomatch hi
  checked i hi := absurd hi (not_mem_empty i)

theorem Searching.insertNot {st : InvarianceChecker V} (h : Searching fn l ldg [] st) (i : V) :
    Searching fn l ldg [] { st with notInvariants := st.notInvariants.insert i } where
  equivalent := h.equivalent
  closed := h.closed
  claimed _ _ hi := nomatch hi
  onStack _ hi := nomatch hi
  checked x hx hphi := (h.checked x hx hphi).imp_right fun hx => mem_insert.mpr (.inr hx)

/-- The check of one instruction keeps the invariant of the search. -/
theorem checkInvariance_searching
    (hacyclic : ∀ i, isPHI fn l i = true → EquivalentIncomingValues fn i →
      ¬ TransGen (DependsOn fn l ldg) i i)
    {fuel : Nat} {st st' : InvarianceChecker V} {inst : V} (hst : Searching fn l ldg [] st)
    (h : checkInvariance ord fn l ldg fuel st inst = some st') :
    Searching fn l ldg [] st' ∧ ∀ x ∈ st.invariants, x ∈ st'.invariants := by
  unfold checkInvariance at h
  split at h
  · exact some.inj h ▸ ⟨hst.insertNot inst, fun _ hx => hx⟩
  split at h
  · exact some.inj h ▸ ⟨hst, fun _ hx => hx⟩
  next hphi =>
  split at h
  · exact some.inj h ▸ ⟨hst, fun _ hx => hx⟩
  next hinv =>
  split at h
  · exact some.inj h ▸ ⟨hst, fun _ hx => hx⟩
  have hequivalent : isPHI fn l inst = true → EquivalentIncomingValues fn inst := by
    intro his
    rw [← arePHIIncomingValuesEquivalent_iff ord]
    simpa [his] using hphi
  have hclear : Searching fn l ldg [] { st with dependencyValuesBeingChecked := ∅ } :=
    ⟨hst.equivalent, hst.closed, fun _ _ hi => absurd hi not_mem_nil,
      fun _ hi => absurd hi not_mem_nil, fun i hi => absurd hi (not_mem_empty i)⟩
  dsimp only at h
  rw [claimPHI_checking] at h
  generalize hloop : (PDG.iterateOverDependencesTo ord ldg inst dataDependences
    (isEvolvingValue ord fn l ldg fuel) _).1 = out at h
  obtain ⟨canEvolve, _ | st₁⟩ := out
  · cases h
  obtain ⟨hretract, hkeep, hkept, -⟩ := hclear.check hacyclic (isEvolvingValue_checked hacyclic fuel)
    not_mem_nil hinv hequivalent (by rw [claimPHI_checking]; exact hloop)
  dsimp only at h
  split at h
  · refine some.inj h ▸ ⟨hretract, fun x hx => ?_⟩
    exact mem_erase.mpr ⟨fun hxi => hinv (hxi ▸ hx), hkept x hx⟩
  next hevolve =>
    have hno : canEvolve = false := by
      cases canEvolve with
      | false => rfl
      | true => exact absurd rfl hevolve
    exact some.inj h ▸ ⟨hkeep hno, fun x hx => mem_insert.mpr (.inr (hkept x hx))⟩

end InvariantManager

/-! ## A call and its users -/

inductive SinfBlock where
  | entry | header | latch | exit
  deriving DecidableEq

inductive SinfValue where
  | call | phi | user
  deriving DecidableEq

/-- `do { c = sinf(x); p = φ(c); u = p + 1; } while (...)` -/
def callSinf : InvariantFunction SinfValue SinfBlock where
  code :=
    { entry := .entry
      phis := fun b => if b = .latch then [.phi] else []
      body := fun
        | .header => [.call]
        | .latch => [.user]
        | _ => []
      incoming := fun i => if i = .phi then [(.header, .call)] else []
      operands := fun i => if i = .user then [.phi] else []
      terminatorOperands := fun _ => []
      successors := fun
        | .entry => [.header]
        | .header => [.latch]
        | .latch => [.header, .exit]
        | .exit => [] }
  inst i := if i = .call then .call (some ⟨"sinf", true⟩) false else .other
  loadedGlobal _ := none

def callSinfLoop : LoopStructure Unit SinfBlock :=
  ⟨0, (), .header, 1, PtrSet.ofList [.header, .latch]⟩

/-- The dependence graph of the loop: the PHI depends on the call, its user on the PHI, and the call
accesses no memory. -/
def callSinfLDG : PDG SinfValue :=
  let (call, g) := (DG.empty 0 : PDG SinfValue).addNode .call true
  let (phi, g) := g.addNode .phi true
  let (user, g) := g.addNode .user true
  let (_, g) := g.insertEdge call phi .variableDependence (some .raw) {}
  (g.insertEdge phi user .variableDependence (some .raw) {}).2

namespace InvariantManager

open LoopInvariantCodeMotion Relation

theorem callSinf_dependsOn {inst : SinfValue → MemoryInst} {i d : SinfValue}
    (h : DependsOn { callSinf with inst := inst } callSinfLoop callSinfLDG i d) :
    i = .phi ∧ d = .call ∨ i = .user ∧ d = .phi := by
  obtain ⟨e, he, rfl, -⟩ := h
  rw [← mem_dependencesOf .stored] at he
  revert he
  revert e
  cases i <;> decide

/-- Whatever the instructions are. -/
theorem callSinf_ssaForm (inst : SinfValue → MemoryInst) :
    SSAForm { callSinf with inst := inst } callSinfLoop callSinfLDG := by
  have hisPHI : ∀ i, isPHI callSinf callSinfLoop i = true → i = .phi := by
    intro i
    cases i <;> decide
  refine ⟨fun i d hphi hd => ?_, fun i hphi _ e he hpath => ?_⟩
  · obtain rfl := hisPHI i hphi
    rcases callSinf_dependsOn hd with ⟨-, rfl⟩ | ⟨heq, -⟩
    · exact ⟨(.header, .call), mem_singleton_self _, rfl⟩
    · cases heq
  · obtain rfl := hisPHI i hphi
    obtain rfl := mem_singleton.mp he
    rcases hpath.cases_head with heq | ⟨d, hd, -⟩
    · cases heq
    · rcases callSinf_dependsOn hd with ⟨heq, -⟩ | ⟨heq, -⟩ <;> cases heq

end InvariantManager

end Noelle
