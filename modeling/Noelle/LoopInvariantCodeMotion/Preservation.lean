import Noelle.LoopInvariantCodeMotion.Conditions
import Noelle.LoopInvariantCodeMotion.Invariants
import Noelle.LoopInvariantCodeMotion.Sorting

/-!
# LoopInvariantCodeMotion.Preservation

The function that `hoistInvariantValues` leaves computes what the function was.
-/

namespace Noelle

open Relation SSACode List

/-- The dominator tree of the code answers strict dominance of instructions. -/
def DominatorQueries.Correct {V B : Type} (DS : DominatorQueries V B) (f : SSACode V B) : Prop :=
  ∀ b c, ∀ i ∈ f.body b, ∀ j ∈ f.body c, f.Reaches (.instruction c j) →
    (DS.dominates i j = true ↔ SSAPoint.instruction b i ≠ .instruction c j ∧
      Dominates f.Next (.begin f.entry) (.instruction b i) (.instruction c j))

namespace SSACode

variable {V B : Type}

theorem correct_congr {f g : SSACode V B} {DS : DominatorQueries V B} (h : DS.Correct f)
    (hentry : f.entry = g.entry) (hbody : f.body = g.body)
    (hsuccessors : f.successors = g.successors) : DS.Correct g := by
  intro b c i hi j hj hreach
  have hnext := next_congr hbody hsuccessors
  unfold Reaches at hreach
  rw [← hentry, ← hnext] at hreach ⊢
  exact h b c i (hbody ▸ hi) j (hbody ▸ hj) hreach

variable [DecidableEq V] [DecidableEq B]

omit [DecidableEq B] in
theorem foldl_erasePHI (f : SSACode V B) (xs : List V) :
    xs.foldl erasePHI f =
      { f with phis := fun b => (f.phis b).filter fun y => decide (y ∉ xs) } := by
  induction xs generalizing f with
  | nil => simp
  | cons x xs ih =>
    rw [foldl_cons, ih]
    simp [erasePHI, filter_filter, Bool.and_comm]

end SSACode

namespace LoopInvariantCodeMotion

variable {F V B Val Mem : Type} [DecidableEq V] [DecidableEq B]

/-- The instructions are moved, each after the ones before it, unless one is an erased PHI. -/
theorem moveToPreHeader_eq (b : B) {removed : PtrSet V} {xs : List V} (hxs : xs.Nodup)
    (hkept : ∀ x ∈ xs, x ∉ removed) (f : SSACode V B) :
    moveToPreHeader b removed xs f =
      some { f with
        phis := fun c => kept xs (f.phis c)
        body := fun c => kept xs (f.body c) ++ if c = b then xs else [] } := by
  induction xs generalizing f with
  | nil => simp [moveToPreHeader, kept]
  | cons x xs ih =>
    obtain ⟨hx, hxs⟩ := nodup_cons.mp hxs
    obtain ⟨hxremoved, hkept⟩ := forall_mem_cons.mp hkept
    rw [moveToPreHeader, if_neg hxremoved, ih hxs hkept]
    have hbody : ∀ c, kept xs ((f.moveToEnd b x).body c) ++ (if c = b then xs else []) =
        kept (x :: xs) (f.body c) ++ if c = b then x :: xs else [] := by
      intro c
      by_cases hc : c = b
      · simp [moveToEnd, kept, hc, hx, filter_filter, Bool.and_comm]
      · simp [moveToEnd, kept, hc, filter_filter, Bool.and_comm]
    simp only [hbody]
    simp [moveToEnd, kept, filter_filter, Bool.and_comm]

/-- From the given registers and memory, each state of a run of `f` has a state of a run of `g` with
the same memory and the same values at the uses that remain, and the run of `g` traps or returns
only where the run of `f` does. -/
structure Preserves (sem : SSASemantics V B Val Mem) (f g : SSACode V B) (hoisted : List V)
    (registers : V → Val) (memory : Mem) : Prop where
  run : ∀ s, ReflTransGen (f.Step sem) (f.start registers memory) s →
    ∃ t, ReflTransGen (g.Step sem) (g.start registers memory) t ∧ f.SameUses g hoisted s t
  traps : ∀ t, ReflTransGen (g.Step sem) (g.start registers memory) t → g.Traps sem t →
    ∃ s, ReflTransGen (f.Step sem) (f.start registers memory) s ∧ f.Traps sem s ∧
      f.SameUses g hoisted s t
  returns : ∀ t, ReflTransGen (g.Step sem) (g.start registers memory) t → g.Returns sem t →
    ∃ s, ReflTransGen (f.Step sem) (f.start registers memory) s ∧ f.Returns sem s ∧
      f.SameUses g hoisted s t

variable (ord : IterOrder) (fn : InvariantFunction V B) (l : LoopStructure F B) (preHeader : B)
  (isLoopInvariant : V → Bool) (ldg : PDG V) (sem : SSASemantics V B Val Mem)

/-- The dependence graph of the loop: it has the operands of its instructions, has nothing but its
incoming values for a PHI, and has an edge to an instruction from each one that, in the run, changes
what the instruction reads later in the loop. -/
structure DescribesLoop (s₀ : SSAState V B Val Mem) : Prop where
  operands : ∀ b ∈ l.bbs, ∀ i ∈ fn.code.body b, ∀ x ∈ fn.code.operands i,
    isIncluded fn l x = true → x ∈ deps ord fn l ldg i
  incoming : ∀ b ∈ l.bbs, ∀ phi ∈ fn.code.phis b, ∀ d ∈ deps ord fn l ldg phi,
    ∃ e ∈ fn.code.incoming phi, e.2 = d
  memory : ∀ s s' t, ReflTransGen (fn.code.Step sem) s₀ s → s.block ∈ l.bbs →
    fn.code.Step sem s s' → fn.code.LoopRun sem (· ∈ l.bbs) s' t →
    ∀ w rest h rest', s.rest = w :: rest → t.rest = h :: rest' → w ∉ deps ord fn l ldg h →
      (sem.exec h (fn.code.operandValues t.registers h) s'.memory).map Prod.fst =
        (sem.exec h (fn.code.operandValues t.registers h) s.memory).map Prod.fst

/-- Every PHI that passes the checks has a single incoming value, and one that the loop computes is
computed by a candidate, from nothing that the loop computes. -/
def SingleIncoming : Prop :=
  ∀ b ∈ l.bbs, ∀ phi ∈ fn.code.phis b,
    (checkInstruction ord fn l isLoopInvariant ldg phi).isSome = true →
      ∃ v, IsSinglePHI ord fn l isLoopInvariant ldg phi v

/-- The hoistable instructions do not change memory, and whenever the run is at the end of the
preheader they can be computed there. -/
structure SafeToHoist (s₀ : SSAState V B Val Mem) : Prop where
  readsOnly : ∀ h, Hoistable ord fn l isLoopInvariant ldg h →
    ∀ vals m val m', sem.exec h vals m = some (val, m') → m' = m
  computable : ∀ s, ReflTransGen (fn.code.Step sem) s₀ s → AtEnd preHeader s →
    ∃ values : V → Val,
      (∀ x, ¬ Hoistable ord fn l isLoopInvariant ldg x → values x = s.registers x) ∧
      ∀ h, Hoistable ord fn l isLoopInvariant ldg h →
        sem.exec h (fn.code.operandValues values h) s.memory = some (values h, s.memory)

variable {ord fn l preHeader isLoopInvariant ldg sem} {s₀ : SSAState V B Val Mem}
variable {i x : V} {hoisted : List V} {b : B} {DS : DominatorQueries V B}

omit [DecidableEq B] in
theorem Hoistable.deps {d : V} (h : Hoistable ord fn l isLoopInvariant ldg i)
    (hd : d ∈ deps ord fn l ldg i) : Hoistable ord fn l isLoopInvariant ldg d := by
  obtain ⟨S, hi, hS⟩ := h
  exact ⟨S, (hS i hi).2 d hd, hS⟩

omit [DecidableEq B] in
theorem Hoistable.candidate (h : Hoistable ord fn l isLoopInvariant ldg i) :
    Candidate ord fn l isLoopInvariant ldg i := by
  obtain ⟨S, hi, hS⟩ := h
  exact (hS i hi).1

/-- What is safe to hoist computes, without effect, before the loop. -/
theorem SafeToHoist.speculates (hsafe : SafeToHoist ord fn l preHeader isLoopInvariant ldg sem s₀)
    (hldg : DescribesLoop ord fn l ldg sem s₀)
    (hmem : ∀ x, x ∈ hoisted ↔ Hoistable ord fn l isLoopInvariant ldg x) :
    fn.code.Speculates sem (· ∈ l.bbs) preHeader hoisted s₀ where
  readsOnly h hh := hsafe.readsOnly h ((hmem h).mp hh)
  stable s t hrun hend hloop h rest hrest hh := by
    have hsame : ∀ {a}, fn.code.LoopRun sem (· ∈ l.bbs) a t →
        ReflTransGen (fn.code.Step sem) s₀ a → (a.block ∈ l.bbs ∨ AtEnd preHeader a) →
        (sem.exec h (fn.code.operandValues t.registers h) t.memory).map Prod.fst =
          (sem.exec h (fn.code.operandValues t.registers h) a.memory).map Prod.fst := by
      intro a hat
      induction hat using ReflTransGen.head_induction_on with
      | refl => exact fun _ _ => rfl
      | @head a b hab hbt ih =>
        intro hruna hin
        rw [ih (hruna.tail hab.1) (.inl hab.2)]
        have hstep := hab.1
        cases hstep with
        | @instruction w rest₁ val m hrest₁ hexec =>
          have hina : a.block ∈ l.bbs := by
            refine hin.resolve_right fun hend => ?_
            cases hrest₁.symm.trans hend.2
          by_cases hw : w ∈ deps ord fn l ldg h
          · -- what the instruction depends on is hoistable as well, and leaves memory as it is
            obtain rfl := hsafe.readsOnly w (((hmem h).mp hh).deps hw) _ _ _ _ hexec
            rfl
          · exact hldg.memory a _ t hruna hina hab.1 hbt w rest₁ h rest hrest₁ hrest hw
        | jump => rfl
    exact hsame hloop hrun (.inr hend)
  computable s hrun hend := by
    obtain ⟨values, hothers, hvalues⟩ := hsafe.computable s hrun hend
    exact ⟨values, fun x hx => hothers x fun hh => hx ((hmem x).mpr hh),
      fun h hh => hvalues h ((hmem h).mp hh)⟩

/-! ## The instructions -/

omit [DecidableEq B] in
theorem isIncluded_iff_definedAt :
    isIncluded fn l x = true ↔ ∃ d, fn.code.DefinedAt x d ∧ d.block ∈ l.bbs := by
  rw [isIncluded_iff]
  constructor
  · rintro ⟨b, hb, hphi | hbody⟩
    · exact ⟨_, .phi hphi, hb⟩
    · exact ⟨_, .instruction hbody, hb⟩
  · rintro ⟨d, hphi | hbody, hd⟩
    · exact ⟨_, hd, .inl hphi⟩
    · exact ⟨_, hd, .inr hbody⟩

omit [DecidableEq V] in
theorem not_body_of_phi (hf : fn.code.WF) {c : B} (hphi : x ∈ fn.code.phis b) :
    x ∉ fn.code.body c := by
  intro hbody
  cases hf.unique x _ _ (.phi hphi) (.instruction hbody)

omit [DecidableEq V] [DecidableEq B] in
theorem reaches_instruction (hshape : fn.code.LoopShape (· ∈ l.bbs) l.header preHeader)
    (hb : b ∈ l.bbs) (hi : i ∈ fn.code.body b) :
    fn.code.Reaches (.instruction b i) := by
  obtain ⟨before, rest, hbody⟩ := append_of_mem hi
  exact hshape.reaches_point hb (⟨before, hbody.symm⟩ : i :: rest <:+ fn.code.body b)

omit [DecidableEq V] [DecidableEq B] in
theorem isStrictOn (hshape : fn.code.LoopShape (· ∈ l.bbs) l.header preHeader)
    (hDS : DS.Correct fn.code)
    (hbody : ∀ h ∈ hoisted, ∃ b ∈ l.bbs, h ∈ fn.code.body b) : IsStrictOn DS hoisted where
  irrefl x hx := by
    obtain ⟨b, hb, hxb⟩ := hbody x hx
    have hself := hDS b b x hxb x hxb (reaches_instruction hshape hb hxb)
    simpa using hself
  trans x hx y hy z hz hxy hyz := by
    obtain ⟨a, ha, hxa⟩ := hbody x hx
    obtain ⟨b, hb, hyb⟩ := hbody y hy
    obtain ⟨c, hc, hzc⟩ := hbody z hz
    have hreachy := reaches_instruction hshape hb hyb
    have hreachz := reaches_instruction hshape hc hzc
    obtain ⟨hne, hdomxy⟩ := (hDS a b x hxa y hyb hreachy).mp hxy
    obtain ⟨-, hdomyz⟩ := (hDS b c y hyb z hzc hreachz).mp hyz
    refine (hDS a c x hxa z hzc hreachz).mpr ⟨fun heq => ?_, hdomxy.trans hdomyz⟩
    rw [← heq] at hdomyz
    exact hne (Dominates.antisymm hreachy hdomyz hdomxy).symm

/-- The instructions and their order are fit for hoisting. -/
theorem canHoist (hf : fn.code.WF) (hshape : fn.code.LoopShape (· ∈ l.bbs) l.header preHeader)
    (hldg : DescribesLoop ord fn l ldg sem s₀) {replacement : V → V} {removed : PtrSet V}
    (hkept : ∀ x ∉ removed, replacement x = x)
    (hremoved : ∀ x ∈ removed, IsSinglePHI ord fn l isLoopInvariant ldg x (replacement x))
    (hmem : ∀ x, x ∈ hoisted ↔ Hoistable ord fn l isLoopInvariant ldg x) (hDS : DS.Correct fn.code)
    (hsorted : hoisted.Pairwise fun x y => DS.dominates y x = false) :
    fn.code.CanHoist (· ∈ l.bbs) replacement hoisted where
  replaced x hx := by
    have hmemx : x ∈ removed := by
      by_contra hnot
      exact hx (hkept x hnot)
    obtain ⟨⟨b, hb, hphi⟩, hincoming, -⟩ := hremoved x hmemx
    exact ⟨b, hb, hphi, hincoming⟩
  idempotent x := by
    by_cases hx : x ∈ removed
    · refine hkept _ fun hmemx => ?_
      obtain ⟨⟨b, hb, hphi⟩, -⟩ := hremoved _ hmemx
      exact (hremoved x hx).not_phi (fun _ _ _ => not_body_of_phi hf) hb hphi
    · rw [hkept x hx, hkept x hx]
  body h hh := by
    obtain ⟨b, hb, hbody⟩ := ((hmem h).mp hh).candidate.body
    exact ⟨b, hb, hbody⟩
  closed h hh x hx d hd hloop := by
    have hhoist := (hmem h).mp hh
    obtain ⟨b, hb, hbody⟩ := hhoist.candidate.body
    refine (hmem x).mpr (hhoist.deps (hldg.operands b hb h hbody x hx ?_))
    exact isIncluded_iff_definedAt.mpr ⟨d, hd, hloop⟩
  ordered before h after hsplit x hx hxmem := by
    have hhmem : h ∈ hoisted := by rw [hsplit]; simp
    obtain ⟨b, hb, hbody⟩ := ((hmem h).mp hhmem).candidate.body
    obtain ⟨a, ha, hxbody⟩ := ((hmem x).mp hxmem).candidate.body
    obtain ⟨hne, hdom⟩ := hf.operands b h hbody x hx _ (.instruction hxbody)
    rw [hsplit] at hsorted hxmem
    rcases mem_append.mp hxmem with hxmem | hxmem
    · exact hxmem
    rcases mem_cons.mp hxmem with rfl | hxmem
    · exact absurd (hf.unique x _ _ (.instruction hxbody) (.instruction hbody)) hne
    · -- the sort leaves no dominator of an instruction behind it
      have hfalse := rel_of_pairwise_cons (pairwise_append.mp hsorted).2.1 hxmem
      have htrue := (hDS a b x hxbody h hbody (reaches_instruction hshape hb hbody)).mpr ⟨hne, hdom⟩
      cases hfalse.symm.trans htrue

variable (ord preHeader) in
/-- The moves one by one are the hoisting at once. -/
theorem moveToPreHeader_eq_hoist (hf : fn.code.WF) {replacement : V → V} {removed : PtrSet V}
    (hkept : ∀ x ∉ removed, replacement x = x)
    (hremoved : ∀ x ∈ removed, IsSinglePHI ord fn l isLoopInvariant ldg x (replacement x))
    {hoisted : List V} (hnodup : hoisted.Nodup) (hbody : ∀ x ∈ hoisted, ∃ b, x ∈ fn.code.body b) :
    moveToPreHeader preHeader removed hoisted
        ((ord.visit removed.elems).foldl SSACode.erasePHI (fn.code.substitute replacement)) =
      some (fn.code.hoist replacement hoisted preHeader) := by
  have hphis : ∀ y, y ∉ ord.visit removed.elems ↔ replacement y = y := by
    intro y
    rw [IterOrder.mem_visit]
    refine ⟨hkept y, fun heq hmem => ?_⟩
    have hsingle := hremoved y hmem
    obtain ⟨b, hb, hphi⟩ := hsingle.1
    rw [heq] at hsingle
    exact hsingle.not_phi (fun _ _ _ => not_body_of_phi hf) hb hphi
  have hnotPHI : ∀ x ∈ hoisted, ∀ b, x ∉ fn.code.phis b := by
    intro x hx b hphi
    obtain ⟨c, hc⟩ := hbody x hx
    exact not_body_of_phi hf hphi hc
  have hkeptPHIs : ∀ c (p : V → Bool), kept hoisted ((fn.code.phis c).filter p) =
      (fn.code.phis c).filter p := by
    intro c p
    refine filter_eq_self.mpr fun y hy => decide_eq_true fun hmem => ?_
    exact hnotPHI y hmem c (mem_of_mem_filter hy)
  rw [foldl_erasePHI, moveToPreHeader_eq preHeader hnodup fun x hx hmem => ?_]
  · simp only [substitute, SSACode.hoist, hphis, hkeptPHIs]
  · obtain ⟨⟨b, -, hphi⟩, -⟩ := hremoved x hmem
    exact hnotPHI x hx b hphi

theorem SingleIncoming.singlePHIs (hsingle : SingleIncoming ord fn l isLoopInvariant ldg)
    (hldg : DescribesLoop ord fn l ldg sem s₀) : SinglePHIs ord fn l isLoopInvariant ldg := by
  intro b hb phi hphi hcheck
  obtain ⟨v, hv⟩ := hsingle b hb phi hphi hcheck
  refine ⟨v, hv, fun d hd => ?_⟩
  obtain ⟨e, he, rfl⟩ := hldg.incoming b hb phi hphi d hd
  exact hv.2.1 e he

/-! ## The function that is left -/

/-- `hoistInvariantValues` ends, and leaves the code with single PHIs replaced and all that is
hoistable hoisted. -/
theorem hoistInvariantValues_eq (hf : fn.code.WF)
    (hshape : fn.code.LoopShape (· ∈ l.bbs) l.header preHeader)
    {getDominators : SSACode V B → DominatorQueries V B}
    (hDT : ∀ f : SSACode V B, f.entry = fn.code.entry → f.body = fn.code.body →
      f.successors = fn.code.successors → (getDominators f).Correct f)
    (hchains : ShortChains ord fn l isLoopInvariant ldg)
    (hsingle : SingleIncoming ord fn l isLoopInvariant ldg)
    (hldg : DescribesLoop ord fn l ldg sem s₀) :
    ∃ fuel₀, ∀ fuel ≥ fuel₀, ∃ replacement hoisted modified,
      hoistInvariantValues ord fn l preHeader isLoopInvariant ldg getDominators fuel =
        some (fn.code.hoist replacement hoisted preHeader, hoisted, modified) ∧
      fn.code.CanHoist (· ∈ l.bbs) replacement hoisted ∧
      ∀ x, x ∈ hoisted ↔ Hoistable ord fn l isLoopInvariant ldg x := by
  have hid := identified_identify (hsingle.singlePHIs hldg) (getDominators fn.code)
    fun _ _ _ => not_body_of_phi hf
  obtain ⟨replacement, hcode, hkept, hremoved⟩ := hid.code
  have hbody : ∀ x, Hoistable ord fn l isLoopInvariant ldg x → ∃ b ∈ l.bbs, x ∈ fn.code.body b :=
    fun x hx => hx.candidate.body
  -- all instructions of the loop, for the number of those that are sorted
  let body := l.bbs.elems.flatMap fn.code.body
  refine ⟨(identify ord fn l isLoopInvariant ldg (getDominators fn.code)).conditionalHoisting.keys.length
    + body.length * (body.length * body.length) + 1, fun fuel hfuel => ?_⟩
  obtain ⟨st, hst, hcond, hmap, hstcode, hstphis⟩ :=
    checkConditions_spec hchains hid.conditioned (show _ < fuel by omega)
  have hmem := hcond.mem_iff hchains hmap
  have hlength : st.instructionsToHoistToPreheader.length ≤ body.length := by
    refine (hcond.nodup.subperm fun x hx => ?_).length_le
    obtain ⟨b, hb, hxb⟩ := hbody x ((hmem x).mp hx)
    exact mem_flatMap.mpr ⟨b, hb, hxb⟩
  -- the dominator tree of the code without the PHIs
  have hcorrect : (getDominators ((ord.visit st.phisToRemove.elems).foldl SSACode.erasePHI
      st.code)).Correct fn.code := by
    have hDTcode := hDT ((ord.visit st.phisToRemove.elems).foldl SSACode.erasePHI st.code)
    rw [hstcode, hcode, foldl_erasePHI] at hDTcode ⊢
    exact correct_congr (hDTcode rfl rfl rfl) rfl rfl rfl
  obtain ⟨hoisted, hsort, hperm, hsorted⟩ := sortByDominance_spec _
    (isStrictOn hshape hcorrect fun x hx => hbody x ((hmem x).mp hx)) (show _ < fuel by
      have hcube := Nat.mul_le_mul hlength (Nat.mul_le_mul hlength hlength)
      omega)
  have hmem' : ∀ x, x ∈ hoisted ↔ Hoistable ord fn l isLoopInvariant ldg x := by
    intro x
    rw [hperm.mem_iff, hmem x]
  refine ⟨replacement, hoisted,
    st.modified || !st.phisToRemove.elems.isEmpty || !hoisted.isEmpty, ?_,
    canHoist hf hshape hldg hkept hremoved hmem' hcorrect hsorted, hmem'⟩
  have heq := moveToPreHeader_eq_hoist ord preHeader hf hkept hremoved
    (hperm.nodup_iff.mpr hcond.nodup) fun x hx => by
      obtain ⟨b, -, hxb⟩ := hbody x ((hmem' x).mp hx)
      exact ⟨b, hxb⟩
  rw [← hcode, ← hstcode, ← hstphis] at heq
  simp only [hoistInvariantValues, hst, Option.bind_eq_bind, Option.bind_some, hsort, heq]
  rfl

/-- For all that the invariant manager reports: when no candidate depends on an instruction of the
loop that is none from further than two candidates away, every PHI that passes the checks has a
single incoming value, and what is hoistable leaves memory as it is and computes a value wherever
the preheader ends, then the code that is left computes in every run what the code computed. -/
theorem hoistInvariantValues_preserves (sem : SSASemantics V B Val Mem) (registers : V → Val)
    (memory : Mem) (getDominators : SSACode V B → DominatorQueries V B) (hf : fn.code.WF)
    (hsem : fn.code.Follows sem) (hshape : fn.code.LoopShape (· ∈ l.bbs) l.header preHeader)
    (hDT : ∀ f : SSACode V B, f.entry = fn.code.entry → f.body = fn.code.body →
      f.successors = fn.code.successors → (getDominators f).Correct f)
    (hldg : DescribesLoop ord fn l ldg sem (fn.code.start registers memory))
    (hchains : ShortChains ord fn l isLoopInvariant ldg)
    (hsingle : SingleIncoming ord fn l isLoopInvariant ldg)
    (hsafe : SafeToHoist ord fn l preHeader isLoopInvariant ldg sem
      (fn.code.start registers memory)) :
    ∃ fuel₀, ∀ fuel ≥ fuel₀, ∃ code hoisted modified,
      hoistInvariantValues ord fn l preHeader isLoopInvariant ldg getDominators fuel =
        some (code, hoisted, modified) ∧
      Preserves sem fn.code code hoisted registers memory := by
  obtain ⟨fuel₀, heq⟩ := hoistInvariantValues_eq hf hshape hDT hchains hsingle hldg
  refine ⟨fuel₀, fun fuel hfuel => ?_⟩
  obtain ⟨replacement, hoisted, modified, hcode, hmove, hmem⟩ := heq fuel hfuel
  have hspec := hsafe.speculates hldg hmem
  refine ⟨_, hoisted, modified, hcode, ?_, ?_, ?_⟩
  · intro s hrun
    obtain ⟨t, hruns, hmatch⟩ := match_of_run hf hsem hshape hmove registers memory hspec hrun
    exact ⟨t, hruns, hmatch.sameUses hf⟩
  · intro t hrun htraps
    obtain ⟨s, hmatch, hend, -⟩ := match_of_end hf hsem hshape hmove registers memory hspec hrun
      fun _ => htraps.no_step
    exact ⟨s, hmatch.run, hend htraps, hmatch.sameUses hf⟩
  · intro t hrun hreturns
    obtain ⟨s, hmatch, -, hend⟩ := match_of_end hf hsem hshape hmove registers memory hspec hrun
      fun _ => hreturns.no_step
    exact ⟨s, hmatch.run, hend hreturns, hmatch.sameUses hf⟩

end LoopInvariantCodeMotion

/-! ## A division under a condition -/

inductive GuardedBlock where
  | entry | header | body | latch | exit
  deriving DecidableEq

inductive GuardedValue where
  | a | d | c | q
  deriving DecidableEq

/-- `do { if (d) { if (!(a / d)) break; } } while (c)` -/
def guardedDivision : InvariantFunction GuardedValue GuardedBlock where
  code :=
    { entry := .entry
      phis := fun _ => []
      body := fun b => if b = .body then [.q] else []
      incoming := fun _ => []
      operands := fun
        | .q => [.a, .d]
        | _ => []
      terminatorOperands := fun
        | .header => [.d]
        | .body => [.q]
        | .latch => [.c]
        | _ => []
      successors := fun
        | .entry => [.header]
        | .header => [.body, .latch]
        | .body => [.latch, .exit]
        | .latch => [.header, .exit]
        | .exit => [] }
  inst _ := .other
  loadedGlobal _ := none

def guardedLoop : LoopStructure Unit GuardedBlock :=
  ⟨0, (), .header, 1, PtrSet.ofList [.header, .body, .latch]⟩

/-- The dependence graph of the loop: the operands of the division. -/
def guardedLDG : PDG GuardedValue :=
  let (q, g) := (DG.empty 0 : PDG GuardedValue).addNode .q true
  let (a, g) := g.addNode .a false
  let (d, g) := g.addNode .d false
  let (_, g) := g.insertEdge a q .variableDependence (some .raw) {}
  (g.insertEdge d q .variableDependence (some .raw) {}).2

def guardedDominators : DominatorQueries GuardedValue GuardedBlock where
  dominatesBlock b c := decide (b = c ∨ b = .entry ∨ b = .header ∧ c ≠ .entry)
  dominates _ _ := false

/-- The division traps if the divisor is zero. -/
def guardedSemantics : SSASemantics GuardedValue GuardedBlock Int Unit where
  exec
    | .q, [a, d], m => if d = 0 then none else some (a.tdiv d, m)
    | _, _, _ => none
  branch
    | .entry, _ => some .header
    | .header, [d] => some (if d = 0 then .latch else .body)
    | .body, [q] => some (if q = 0 then .exit else .latch)
    | .latch, [c] => some (if c = 0 then .exit else .header)
    | _, _ => none

theorem guardedDivision_body {b : GuardedBlock} {i : GuardedValue}
    (h : i ∈ guardedDivision.code.body b) : b = .body ∧ i = .q := by
  revert h
  cases b <;> cases i <;> decide

theorem guardedDivision_definedAt {x : GuardedValue} {p : SSAPoint GuardedValue GuardedBlock}
    (h : guardedDivision.code.DefinedAt x p) : x = .q ∧ p = .instruction .body .q := by
  cases h with
  | phi hphi => cases hphi
  | instruction hbody =>
    obtain ⟨rfl, rfl⟩ := guardedDivision_body hbody
    exact ⟨rfl, rfl⟩

theorem guardedDivision_wf : guardedDivision.code.WF where
  unique x d e hd he := (guardedDivision_definedAt hd).2.trans (guardedDivision_definedAt he).2.symm
  operands b i hi x hx d hd := by
    obtain ⟨rfl, rfl⟩ := guardedDivision_body hi
    obtain ⟨rfl, -⟩ := guardedDivision_definedAt hd
    exact absurd hx (by decide)
  terminatorOperands b x hx d hd := by
    obtain ⟨rfl, rfl⟩ := guardedDivision_definedAt hd
    obtain rfl : b = .body := by
      revert hx
      cases b <;> decide
    refine ⟨nofun, fun hpath => ?_⟩
    -- the end of the block is reached through the division only
    obtain ⟨hne, hsteps⟩ := hpath
    rcases hsteps.cases_tail with heq | ⟨p, hsteps, hlast⟩
    · cases heq
    · rcases hlast.1.to_terminator with ⟨-, hbody⟩ | ⟨before, i, rfl, hbody⟩
      · cases hbody
      · obtain ⟨-, rfl⟩ := guardedDivision_body (b := .body) (i := i) (by rw [hbody]; simp)
        exact PathAvoiding.target_ne ⟨hne, hsteps⟩ rfl
  incoming _ _ _ _ hphi := nomatch hphi
  entry b := by cases b <;> decide

theorem guardedDivision_follows : guardedDivision.code.Follows guardedSemantics := by
  intro b vals c h
  cases b <;> rcases vals with _ | ⟨x, _ | ⟨y, vals⟩⟩ <;> simp [guardedSemantics] at h <;>
    subst h <;> (try split) <;> decide

theorem guardedDivision_shape :
    guardedDivision.code.LoopShape (· ∈ guardedLoop.bbs) guardedLoop.header .entry where
  header_mem := by decide
  reaches := (ReflTransGen.single (.enter GuardedBlock.entry)).tail
    (.jump (b := GuardedBlock.entry) (by decide))
  preHeader_not_mem := by decide
  entry_not_mem := by decide
  successors_preHeader c := by cases c <;> decide
  enters b c := by cases b <;> cases c <;> decide
  reach b hb := by
    cases b with
    | entry | exit => exact absurd hb (by decide)
    | header => exact .refl
    | body | latch => exact .single (by decide)

/-- The division is reported invariant and hoisted: what is computed only if the divisor is not zero is
then computed before the loop, and traps in a run that returned. -/
theorem guardedDivision_traps :
    guardedDivision.code.WF ∧
      guardedDivision.code.LoopShape (· ∈ guardedLoop.bbs) guardedLoop.header .entry ∧
      ∃ invariants code modified,
        InvariantManager.findInvariants .stored guardedDivision guardedLoop guardedLDG 8 =
          some invariants ∧
        LoopInvariantCodeMotion.hoistInvariantValues .stored guardedDivision guardedLoop .entry
          (InvariantManager.isLoopInvariant guardedDivision guardedLoop invariants) guardedLDG
          (fun _ => guardedDominators) 8 = some (code, [.q], modified) ∧
        (∀ s, ReflTransGen (guardedDivision.code.Step guardedSemantics)
            (guardedDivision.code.start (fun _ => 0) ()) s →
          ¬ guardedDivision.code.Traps guardedSemantics s) ∧
        ∃ t, ReflTransGen (code.Step guardedSemantics) (code.start (fun _ => 0) ()) t ∧
          code.Traps guardedSemantics t := by
  refine ⟨guardedDivision_wf, guardedDivision_shape, PtrSet.ofList [.q], _, true, by decide, rfl,
    fun s hrun => ?_, _, .refl, .q, [], rfl, rfl⟩
  -- from the header to the latch and out of the loop
  refine not_traps_of_returns (t := ⟨GuardedBlock.exit, [], fun _ => 0, ()⟩) ?_ ⟨rfl, rfl⟩ hrun
  exact ((ReflTransGen.single (.jump (c := GuardedBlock.header) rfl rfl)).tail
    (.jump (c := GuardedBlock.latch) rfl rfl)).tail (.jump (c := GuardedBlock.exit) rfl rfl)

open LoopInvariantCodeMotion in
theorem guardedDivision_safe {registers : GuardedValue → Int} (hd : registers .d ≠ 0)
    (reported : GuardedValue → Bool) (hq : reported .q = true) :
    SafeToHoist .stored guardedDivision guardedLoop .entry reported guardedLDG guardedSemantics
      (guardedDivision.code.start registers ()) where
  readsOnly _ _ _ _ _ _ _ := rfl
  computable s hrun hend := by
    have hkept : ∀ x ≠ GuardedValue.q, s.registers x = registers x := fun x hx =>
      registers_of_not_defined_run guardedDivision_follows
        (fun p hp => hx (guardedDivision_definedAt hp).1) (.start registers ()) hrun
    have hdeps : ∀ x, x ∉ deps .stored guardedDivision guardedLoop guardedLDG .q := by decide
    have hhoistable : Hoistable .stored guardedDivision guardedLoop reported guardedLDG .q := by
      refine ⟨(· = .q), rfl, ?_⟩
      rintro _ rfl
      exact ⟨⟨⟨.body, by decide, by decide⟩, hq, rfl, fun x hx => absurd hx (hdeps x)⟩, fun x hx => absurd hx (hdeps x)⟩
    refine ⟨Function.update s.registers .q ((registers .a).tdiv (registers .d)), fun x hx => ?_,
      fun h hh => ?_⟩
    · refine Function.update_of_ne ?_ _ _
      rintro rfl
      exact hx hhoistable
    · obtain ⟨b, -, hb⟩ := hh.candidate.body
      obtain ⟨-, rfl⟩ := guardedDivision_body hb
      simp [guardedSemantics, operandValues, guardedDivision, hkept, hd]

open LoopInvariantCodeMotion in
/-- With another divisor the code that is left computes the same. -/
theorem guardedDivision_preserves :
    ∃ fuel₀, ∀ fuel ≥ fuel₀, ∃ code hoisted modified,
      hoistInvariantValues .stored guardedDivision guardedLoop .entry
          (InvariantManager.isLoopInvariant guardedDivision guardedLoop (PtrSet.ofList [.q]))
          guardedLDG (fun _ => guardedDominators) fuel = some (code, hoisted, modified) ∧
        Preserves guardedSemantics guardedDivision.code code hoisted (fun _ => 2) () := by
  have hbody : ∀ {i : GuardedValue}, (∃ b ∈ guardedLoop.bbs, i ∈ guardedDivision.code.body b) →
      i = .q := fun ⟨_, _, hb⟩ => (guardedDivision_body hb).2
  have hdeps : ∀ x, x ∉ deps .stored guardedDivision guardedLoop guardedLDG .q := by decide
  refine hoistInvariantValues_preserves guardedSemantics (fun _ => 2) () (fun _ => guardedDominators)
    guardedDivision_wf guardedDivision_follows guardedDivision_shape ?_ ?_ ?_ ?_
    (guardedDivision_safe (by decide) _ (by decide))
  · intro f _ hf _ b c i hi j hj _
    rw [hf] at hi hj
    obtain ⟨rfl, rfl⟩ := guardedDivision_body hi
    obtain ⟨rfl, rfl⟩ := guardedDivision_body hj
    simp [guardedDominators]
  · refine ⟨?_, nofun, fun _ _ _ _ _ _ _ _ _ _ _ _ _ _ =>
      rfl⟩
    intro b _ i hi x hx hin
    obtain ⟨rfl, rfl⟩ := guardedDivision_body hi
    revert hx hin
    cases x <;> decide
  · intro i b dep hi hb
    rw [hbody hi.body] at hb
    exact absurd hb (hdeps b)
  · exact nofun

end Noelle
