import Mathlib.Data.List.Induction
import Noelle.Lib.SSA

/-!
# Lib.Hoisting

Moving instructions of a loop to the end of its preheader, and replacing PHIs of the loop by
their one incoming value.

`CanHoist` is what has to hold of the function: what is moved is closed under the operands that
the loop computes, in an order in which operands come first.  `Speculates` is what has to hold of
a run: what is moved reads memory that the loop leaves alone, and computes a value whenever control
reaches the end of the preheader.  Under both, each state of the run of the one function has a
state of the run of the other (`Match`), with the same memory and the same values of what is
available, and the two runs end alike.
-/

namespace Noelle

open Relation List

namespace SSACode

variable {V B Val Mem : Type} [DecidableEq V] [DecidableEq B]

/-! ## The function -/

/-- The instructions that stay. -/
def kept (hoisted : List V) (l : List V) : List V := l.filter fun i => decide (i ∉ hoisted)

/-- PHIs with a replacement are removed, and the hoisted instructions are moved in front of the
terminator of the preheader. -/
def hoist (f : SSACode V B) (replacement : V → V) (hoisted : List V) (preHeader : B) :
    SSACode V B where
  entry := f.entry
  phis b := (f.phis b).filter fun x => decide (replacement x = x)
  body b := kept hoisted (f.body b) ++ if b = preHeader then hoisted else []
  incoming x := (f.incoming x).map fun e => (e.1, replacement e.2)
  operands i := (f.operands i).map replacement
  terminatorOperands b := (f.terminatorOperands b).map replacement
  successors := f.successors

/-- A set of blocks that is entered from its preheader only, at its header. -/
structure LoopShape (f : SSACode V B) (loop : B → Prop) (header preHeader : B) : Prop where
  header_mem : loop header
  reaches : f.Reaches (.begin header)
  preHeader_not_mem : ¬ loop preHeader
  entry_not_mem : ¬ loop f.entry
  successors_preHeader : ∀ c, c ∈ f.successors preHeader ↔ c = header
  enters : ∀ b c, c ∈ f.successors b → ¬ loop b → loop c → b = preHeader
  reach : ∀ b, loop b → ReflTransGen (fun b c => c ∈ f.successors b ∧ loop c) header b

/-- The replaced values are PHIs of the loop with one incoming value; the hoisted instructions are
of the loop, with all that they need of it, in order. -/
structure CanHoist (f : SSACode V B) (loop : B → Prop) (replacement : V → V)
    (hoisted : List V) : Prop where
  replaced : ∀ x, replacement x ≠ x →
    ∃ b, loop b ∧ x ∈ f.phis b ∧ ∀ e ∈ f.incoming x, e.2 = replacement x
  idempotent : ∀ x, replacement (replacement x) = replacement x
  body : ∀ h ∈ hoisted, ∃ b, loop b ∧ h ∈ f.body b
  closed : ∀ h ∈ hoisted, ∀ x ∈ f.operands h, ∀ d, f.DefinedAt x d → loop d.block → x ∈ hoisted
  ordered : ∀ before h after, hoisted = before ++ h :: after →
    ∀ x ∈ f.operands h, x ∈ hoisted → x ∈ before

/-- Steps that lead to states in the loop. -/
def LoopRun (f : SSACode V B) (sem : SSASemantics V B Val Mem) (loop : B → Prop) :
    SSAState V B Val Mem → SSAState V B Val Mem → Prop :=
  ReflTransGen fun s t => f.Step sem s t ∧ loop t.block

/-- Control is at the end of the preheader. -/
def AtEnd (preHeader : B) (s : SSAState V B Val Mem) : Prop := s.block = preHeader ∧ s.rest = []

/-- In the runs from `s₀` the hoisted instructions leave memory as it is, read nothing that the loop
changes, and compute a value when they are executed at the end of the preheader. -/
structure Speculates (f : SSACode V B) (sem : SSASemantics V B Val Mem) (loop : B → Prop)
    (preHeader : B) (hoisted : List V) (s₀ : SSAState V B Val Mem) : Prop where
  readsOnly : ∀ h ∈ hoisted, ∀ vals m val m', sem.exec h vals m = some (val, m') → m' = m
  stable : ∀ s t, ReflTransGen (f.Step sem) s₀ s → AtEnd preHeader s → f.LoopRun sem loop s t →
    ∀ h rest, t.rest = h :: rest → h ∈ hoisted →
      (sem.exec h (f.operandValues t.registers h) t.memory).map Prod.fst =
        (sem.exec h (f.operandValues t.registers h) s.memory).map Prod.fst
  computable : ∀ s, ReflTransGen (f.Step sem) s₀ s → AtEnd preHeader s →
    ∃ values : V → Val, (∀ x ∉ hoisted, values x = s.registers x) ∧
      ∀ h ∈ hoisted, sem.exec h (f.operandValues values h) s.memory = some (values h, s.memory)

@[simp] theorem kept_cons_of_mem {hoisted l : List V} {i : V} (hi : i ∈ hoisted) :
    kept hoisted (i :: l) = kept hoisted l := by
  simp [kept, hi]

@[simp] theorem kept_cons_of_not_mem {hoisted l : List V} {i : V} (hi : i ∉ hoisted) :
    kept hoisted (i :: l) = i :: kept hoisted l := by
  simp [kept, hi]

@[simp] theorem kept_nil {hoisted : List V} : kept hoisted [] = [] := rfl

omit [DecidableEq V] in
theorem lookup_map_snd {V' : Type} {f : V → V'} (l : List (B × V)) (b : B) :
    (l.map fun e => (e.1, f e.2)).lookup b = (l.lookup b).map f := by
  induction l with
  | nil => rfl
  | cons e l ih =>
    by_cases hb : b = e.1
    · subst hb
      rw [map_cons, lookup_cons, lookup_cons, beq_self_eq_true]
      rfl
    · rw [map_cons, lookup_cons, lookup_cons, beq_eq_false_iff_ne.mpr hb]
      exact ih

section Shape

variable {f : SSACode V B} {loop : B → Prop} {header preHeader : B}

/-! ## Paths of the loop -/

section

omit [DecidableEq V] [DecidableEq B]

variable {b : B} {rest : List V} {x : V}

theorem reach_in_block (h : rest <:+ f.body b) :
    ReflTransGen (fun p q => f.Next p q ∧ q.block = b) (.begin b) (pointAt b rest) := by
  obtain ⟨before, hbody⟩ := h
  induction before using List.reverseRecOn generalizing rest with
  | nil =>
    obtain rfl : rest = f.body b := hbody
    exact .single ⟨.enter b, block_pointAt b _⟩
  | append_singleton before i ih =>
    rw [append_assoc, singleton_append] at hbody
    exact (ih hbody).tail ⟨.instruction hbody.symm, block_pointAt b rest⟩

section

variable (hshape : f.LoopShape loop header preHeader)

include hshape

theorem LoopShape.reach_point (hb : loop b) (h : rest <:+ f.body b) :
    ReflTransGen (fun p q => f.Next p q ∧ loop q.block) (.begin header) (pointAt b rest) := by
  have hblock : ∀ {c rest}, loop c → rest <:+ f.body c →
      ReflTransGen (fun p q => f.Next p q ∧ loop q.block) (.begin c) (pointAt c rest) :=
    fun hc hrest => ReflTransGen.mono (fun p q hpq => ⟨hpq.1, hpq.2 ▸ hc⟩) _ _
      (reach_in_block hrest)
  have hbegin : ReflTransGen (fun p q => f.Next p q ∧ loop q.block) (.begin header) (.begin b) := by
    have hpath := hshape.reach b hb
    clear hb h
    have hmem : ∀ {c}, ReflTransGen (fun b c => c ∈ f.successors b ∧ loop c) header c → loop c := by
      intro c hc
      cases hc with
      | refl => exact hshape.header_mem
      | tail _ h => exact h.2
    induction hpath with
    | refl => exact .refl
    | @tail c d hc hcd ih =>
      have hend := hblock (hmem hc) (nil_suffix : [] <:+ f.body c)
      exact (ih.trans hend).tail ⟨.jump hcd.1, hcd.2⟩
  exact hbegin.trans (hblock hb h)

theorem LoopShape.reaches_point (hb : loop b)
    (h : rest <:+ f.body b) : f.Reaches (pointAt b rest) :=
  hshape.reaches.trans (ReflTransGen.mono (fun _ _ hpq => hpq.1) _ _ (hshape.reach_point hb h))

/-- What the loop defines is not available in front of it. -/
theorem LoopShape.not_available {d : SSAPoint V B} (hx : f.DefinedAt x d) (hd : loop d.block)
    (hreach : f.Reaches (.terminator preHeader)) : ¬ f.Available x (.terminator preHeader) := by
  have hpath : ∀ {q}, f.Reaches q →
      (¬ loop q.block ∧ PathAvoiding f.Next d (.begin f.entry) q) ∨
        PathAvoiding f.Next d (.begin f.entry) (.terminator preHeader) := by
    intro q hq
    induction hq with
    | refl =>
      refine .inl ⟨hshape.entry_not_mem, .refl ?_⟩
      rintro rfl
      exact hshape.entry_not_mem hd
    | @tail p q _ hpq ih =>
      rcases ih with ⟨hp, hpath⟩ | hpath
      · by_cases hq : loop q.block
        · -- the path enters the loop
          cases hpq with
          | enter b => exact absurd (block_pointAt b _ ▸ hq) hp
          | @instruction b _ rest _ _ => exact absurd (block_pointAt b rest ▸ hq) hp
          | @jump b c hc =>
            obtain rfl := hshape.enters b c hc hp hq
            exact .inr hpath
        · refine .inl ⟨hq, hpath.tail hpq ?_⟩
          rintro rfl
          exact hq hd
      · exact .inr hpath
  intro havail
  obtain ⟨-, hdom⟩ := havail d hx
  rcases hpath hreach with ⟨-, h⟩ | h <;> exact hdom h

/-- What is available at an instruction of the loop, and not computed in the loop, is available
at the end of the preheader. -/
theorem LoopShape.available_preHeader (hb : loop b) {i : V} (hi : i ∈ f.body b)
    (hx : f.Available x (.instruction b i))
    (hout : ∀ d, f.DefinedAt x d → ¬ loop d.block) : f.Available x (.terminator preHeader) := by
  intro d hd
  refine ⟨hd.ne_terminator preHeader, fun hpath => (hx d hd).2 ?_⟩
  obtain ⟨before, rest, hbody⟩ := append_of_mem hi
  have hloop := hshape.reach_point hb (⟨before, hbody.symm⟩ : i :: rest <:+ f.body b)
  have hheader : PathAvoiding f.Next d (.begin f.entry) (.begin header) :=
    hpath.tail (.jump ((hshape.successors_preHeader header).mpr rfl)) (by
      rintro rfl
      exact hout _ hd hshape.header_mem)
  refine hheader.trans ⟨hheader.target_ne, ReflTransGen.mono (fun p q hpq => ⟨hpq.1, ?_⟩) _ _ hloop⟩
  rintro rfl
  exact hout _ hd hpq.2

end

end

end Shape

/-! ## Replacements -/

namespace CanHoist

variable {f : SSACode V B} {loop : B → Prop} {header preHeader : B} {replacement : V → V}
  {hoisted : List V}

omit [DecidableEq V] in
theorem replacement_hoisted (hf : f.WF) (hmove : f.CanHoist loop replacement hoisted) {h : V}
    (hh : h ∈ hoisted) : replacement h = h := by
  by_contra hne
  obtain ⟨b, -, hphi, -⟩ := hmove.replaced h hne
  obtain ⟨c, -, hbody⟩ := hmove.body h hh
  cases hf.unique h _ _ (.phi hphi) (.instruction hbody)

omit [DecidableEq V] in
/-- No PHI that is computed somewhere else than at the beginning of a block is replaced. -/
theorem replacement_body (hf : f.WF) (hmove : f.CanHoist loop replacement hoisted) {b : B} {i : V}
    (hi : i ∈ f.body b) : replacement i = i := by
  by_contra hne
  obtain ⟨c, -, hphi, -⟩ := hmove.replaced i hne
  cases hf.unique i _ _ (.phi hphi) (.instruction hi)

omit [DecidableEq V] [DecidableEq B] in
theorem replacement_outside (hmove : f.CanHoist loop replacement hoisted) {x : V}
    (hx : ∀ d, f.DefinedAt x d → ¬ loop d.block) : replacement x = x := by
  by_contra hne
  obtain ⟨b, hb, hphi, -⟩ := hmove.replaced x hne
  exact hx _ (.phi hphi) hb

section

omit [DecidableEq V]

theorem operand_cases (hf : f.WF) (hmove : f.CanHoist loop replacement hoisted) {h x : V}
    (hh : h ∈ hoisted) (hx : x ∈ f.operands h) :
    replacement x = x ∧ (x ∈ hoisted ∨ ∀ d, f.DefinedAt x d → ¬ loop d.block) := by
  by_cases hin : ∃ d, f.DefinedAt x d ∧ loop d.block
  · obtain ⟨d, hd, hloop⟩ := hin
    have hmem := hmove.closed h hh x hx d hd hloop
    exact ⟨hmove.replacement_hoisted hf hmem, .inl hmem⟩
  · have hout : ∀ d, f.DefinedAt x d → ¬ loop d.block := fun d hd hloop => hin ⟨d, hd, hloop⟩
    exact ⟨hmove.replacement_outside hout, .inr hout⟩

section

variable (hf : f.WF) (hshape : f.LoopShape loop header preHeader)
  (hmove : f.CanHoist loop replacement hoisted)

include hf hshape hmove

/-- The replacement of a PHI strictly dominates it: it is available at the end of all
predecessors. -/
theorem replacement_dominates {x : V} (hx : replacement x ≠ x) {b : B} (hphi : x ∈ f.phis b)
    (hreach : f.Reaches (.begin b)) {d : SSAPoint V B} (hd : f.DefinedAt (replacement x) d) :
    d ≠ .begin b ∧ Dominates f.Next (.begin f.entry) d (.begin b) := by
  obtain ⟨c, hc, hphic, hincoming⟩ := hmove.replaced x hx
  obtain rfl : b = c := SSAPoint.begin.inj (hf.unique x _ _ (.phi hphi) (.phi hphic))
  have hentry : (SSAPoint.begin b : SSAPoint V B) ≠ .begin f.entry := by
    rintro heq
    exact hshape.entry_not_mem (SSAPoint.begin.inj heq ▸ hc)
  have hpred : ∀ {a}, b ∈ f.successors a → Dominates f.Next (.begin f.entry) d (.terminator a) := by
    intro a ha
    obtain ⟨w, hw, havail⟩ := hf.incoming a b ha x hphi
    obtain ⟨l₁, l₂, hsplit, -⟩ := lookup_eq_some_iff.mp hw
    obtain rfl : w = replacement x := hincoming (a, w) (by simp [hsplit])
    exact (havail d hd).2
  refine ⟨?_, fun hpath => ?_⟩
  · rintro rfl
    obtain ⟨p, hpath, hp⟩ := exists_first hreach hentry
    obtain ⟨a, rfl, ha⟩ := hp.to_begin
    exact hpred ha hpath
  · obtain ⟨p, hp, hlast⟩ : ∃ p, PathAvoiding f.Next d (.begin f.entry) p ∧ f.Next p (.begin b) := by
      obtain ⟨hne, hsteps⟩ := hpath
      cases hsteps with
      | refl => exact absurd rfl hentry
      | tail hsteps hlast => exact ⟨_, ⟨hne, hsteps⟩, hlast.1⟩
    obtain ⟨a, rfl, ha⟩ := hlast.to_begin
    exact hpred ha hp

theorem replacement_not_executed {x : V} (hx : replacement x ≠ x) {p q : SSAPoint V B}
    (hp : f.Reaches p) (hpq : f.Next p q) (havail : f.Available x q) :
    ¬ f.DefinedAt (replacement x) p := by
  intro hdef
  obtain ⟨b, -, hphi, -⟩ := hmove.replaced x hx
  have hreach : f.Reaches (.begin b) :=
    (havail _ (.phi hphi)).2.reach (hp.next hpq)
  obtain ⟨hne, hdom⟩ := hmove.replacement_dominates hf hshape hx hphi hreach hdef
  exact havail.not_executed hp hpq (.phi hphi) hne hdom

end

end

end CanHoist

end SSACode

end Noelle
