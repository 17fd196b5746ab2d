import Noelle.Lib.Hoisting
import Noelle.Lib.Simulation

/-!
# Lib.HoistedRuns

The runs of a function before and after hoisting, side by side.

`Match` relates a state of the one run to a state of the other.  `Match.step` is what a step
preserves: an instruction that was hoisted is a step of the old run only, and the end of the
preheader is where the new run executes what was hoisted.  `match_of_run` and `match_of_end` are the
two directions for whole runs.
-/

namespace Noelle

open Function Relation List

namespace SSACode

variable {V B Val Mem : Type} [DecidableEq V] [DecidableEq B]

/-! ## The relation -/

/-- The run has come through the end of the preheader, and the hoisted instructions have the values
that they have there. -/
def HasHoisted (f : SSACode V B) (sem : SSASemantics V B Val Mem) (loop : B → Prop) (preHeader : B)
    (replacement : V → V) (hoisted : List V) (s₀ s t : SSAState V B Val Mem) : Prop :=
  ∃ s₁, ReflTransGen (f.Step sem) s₀ s₁ ∧ AtEnd preHeader s₁ ∧ f.LoopRun sem loop s₁ s ∧
    ∀ h ∈ hoisted, sem.exec h (f.operandValues (fun x => t.registers (replacement x)) h) s₁.memory =
      some (t.registers h, s₁.memory)

/-- The states agree on the memory and on what is available. -/
structure Agree (f : SSACode V B) (replacement : V → V) (s t : SSAState V B Val Mem) : Prop where
  block : t.block = s.block
  memory : t.memory = s.memory
  values : ∀ x, f.Available x (pointAt s.block s.rest) → t.registers (replacement x) = s.registers x

/-- The new run has just come to where the old run is; at the end of the preheader, what is
hoisted is still to be executed. -/
structure Arrived (f : SSACode V B) (sem : SSASemantics V B Val Mem) (loop : B → Prop)
    (preHeader : B) (replacement : V → V) (hoisted : List V) (s₀ s t : SSAState V B Val Mem) :
    Prop extends f.Agree replacement s t where
  run : ReflTransGen (f.Step sem) s₀ s
  placed : f.Placed s
  rest : t.rest = kept hoisted s.rest ++ if s.block = preHeader then hoisted else []
  inside : loop s.block → f.HasHoisted sem loop preHeader replacement hoisted s₀ s t

/-- The new run is where the old run is; at the end of the preheader, it has executed what is
hoisted. -/
structure Match (f : SSACode V B) (sem : SSASemantics V B Val Mem) (loop : B → Prop)
    (preHeader : B) (replacement : V → V) (hoisted : List V) (s₀ s t : SSAState V B Val Mem) :
    Prop extends f.Agree replacement s t where
  run : ReflTransGen (f.Step sem) s₀ s
  placed : f.Placed s
  rest : t.rest = kept hoisted s.rest ++ if s.block = preHeader ∧ s.rest ≠ [] then hoisted else []
  inside : loop s.block ∨ AtEnd preHeader s →
    f.HasHoisted sem loop preHeader replacement hoisted s₀ s t

variable {f : SSACode V B} {sem : SSASemantics V B Val Mem} {loop : B → Prop}
  {header preHeader : B} {replacement : V → V} {hoisted : List V} {s₀ s s' t : SSAState V B Val Mem}

theorem operandValues_hoist (registers : V → Val) (i : V) :
    (f.hoist replacement hoisted preHeader).operandValues registers i =
      f.operandValues (fun x => registers (replacement x)) i := by
  simp [operandValues, hoist, Function.comp_def]

theorem terminatorValues_hoist (registers : V → Val) (b : B) :
    (f.hoist replacement hoisted preHeader).terminatorValues registers b =
      f.terminatorValues (fun x => registers (replacement x)) b := by
  simp [terminatorValues, hoist, Function.comp_def]

namespace Agree

omit [DecidableEq V]

theorem operandValues (hf : f.WF) (h : f.Agree replacement s t) (hplaced : f.Placed s) {i : V}
    {rest : List V} (hrest : s.rest = i :: rest) :
    f.operandValues (fun x => t.registers (replacement x)) i = f.operandValues s.registers i := by
  refine map_congr_left fun x hx => h.values x ?_
  rw [hrest]
  exact hf.operands s.block i (hplaced.next_instruction hrest).1 x hx

theorem terminatorValues (hf : f.WF) (h : f.Agree replacement s t) (hrest : s.rest = []) :
    f.terminatorValues (fun x => t.registers (replacement x)) s.block =
      f.terminatorValues s.registers s.block := by
  refine map_congr_left fun x hx => h.values x ?_
  rw [hrest]
  exact hf.terminatorOperands s.block x hx

end Agree

theorem HasHoisted.congr (hf : f.WF) (hmove : f.CanHoist loop replacement hoisted)
    {t' : SSAState V B Val Mem}
    (h : f.HasHoisted sem loop preHeader replacement hoisted s₀ s t)
    (hsteps : f.LoopRun sem loop s s')
    (hhoisted : ∀ x ∈ hoisted, t'.registers x = t.registers x)
    (hout : ∀ x, (∀ d, f.DefinedAt x d → ¬ loop d.block) → t'.registers x = t.registers x) :
    f.HasHoisted sem loop preHeader replacement hoisted s₀ s' t' := by
  obtain ⟨s₁, hrun, hend, hloop, hvalues⟩ := h
  refine ⟨s₁, hrun, hend, hloop.trans hsteps, fun i hi => ?_⟩
  have hsame : f.operandValues (fun x => t'.registers (replacement x)) i =
      f.operandValues (fun x => t.registers (replacement x)) i := by
    refine map_congr_left fun x hx => ?_
    obtain ⟨heq, hx | hx⟩ := hmove.operand_cases hf hi hx
    · rw [heq, hhoisted x hx]
    · rw [heq, hout x hx]
  rw [hsame, hhoisted i hi]
  exact hvalues i hi

/-! ## The end of the preheader -/

/-- What is hoisted, executed at the end of the preheader: the registers hold the values, and the
others are as before. -/
theorem run_hoisted (preHeader b : B) (hf : f.WF) (hmove : f.CanHoist loop replacement hoisted)
    {values : V → Val} {m : Mem}
    (hvalues : ∀ h ∈ hoisted, sem.exec h (f.operandValues values h) m = some (values h, m)) :
    ∀ (after before : List V) (registers : V → Val), hoisted = before ++ after →
      (∀ x ∈ before, registers x = values x) →
      (∀ x, (∀ d, f.DefinedAt x d → ¬ loop d.block) → (∃ h ∈ after, x ∈ f.operands h) →
        registers x = values x) →
      ∃ registers', ReflTransGen ((f.hoist replacement hoisted preHeader).Step sem)
          ⟨b, after, registers, m⟩ ⟨b, [], registers', m⟩ ∧
        (∀ x ∈ hoisted, registers' x = values x) ∧
        ∀ x ∉ hoisted, registers' x = registers x
  | [], before, registers, hsplit, hbefore, _ => by
    rw [append_nil] at hsplit
    exact ⟨registers, .refl, fun x hx => hbefore x (hsplit ▸ hx), fun _ _ => rfl⟩
  | h :: after, before, registers, hsplit, hbefore, hout => by
    have hh : h ∈ hoisted := by simp [hsplit]
    have hsame : f.operandValues (fun x => registers (replacement x)) h = f.operandValues values h := by
      refine map_congr_left fun x hx => ?_
      obtain ⟨heq, hxh | hxout⟩ := hmove.operand_cases hf hh hx
      · rw [heq, hbefore x (hmove.ordered before h after hsplit x hx hxh)]
      · rw [heq, hout x hxout ⟨h, mem_cons_self, hx⟩]
    have hstep : (f.hoist replacement hoisted preHeader).Step sem ⟨b, h :: after, registers, m⟩
        ⟨b, after, update registers h (values h), m⟩ := by
      refine .instruction rfl ?_
      rw [operandValues_hoist, hsame]
      exact hvalues h hh
    obtain ⟨c, hc, hbody⟩ := hmove.body h hh
    obtain ⟨registers', hsteps, hin, hother⟩ := run_hoisted preHeader b hf hmove hvalues after
      (before ++ [h])
      (update registers h (values h)) (by simp [hsplit])
      (by
        intro x hx
        by_cases hxh : x = h
        · rw [hxh, update_self]
        · rw [update_of_ne hxh]
          exact hbefore x (by simpa [hxh] using hx))
      (by
        rintro x hxout ⟨h', hh', hx⟩
        have hne : x ≠ h := by
          rintro rfl
          exact hxout _ (.instruction hbody) hc
        rw [update_of_ne hne]
        exact hout x hxout ⟨h', .tail h hh', hx⟩)
    refine ⟨registers', .head hstep hsteps, hin, fun x hx => ?_⟩
    have hne : x ≠ h := by
      rintro rfl
      exact hx hh
    rw [hother x hx, update_of_ne hne]

/-- Having entered the preheader, the hoisted program runs the hoisted instructions. -/
theorem Arrived.settle (hf : f.WF) (hshape : f.LoopShape loop header preHeader)
    (hmove : f.CanHoist loop replacement hoisted)
    (hspec : f.Speculates sem loop preHeader hoisted s₀)
    (h : f.Arrived sem loop preHeader replacement hoisted s₀ s t) :
    ∃ t', ReflTransGen ((f.hoist replacement hoisted preHeader).Step sem) t t' ∧
      f.Match sem loop preHeader replacement hoisted s₀ s t' := by
  by_cases hend : AtEnd preHeader s
  · obtain ⟨hblock, hrest⟩ := hend
    obtain ⟨values, hothers, hvalues⟩ := hspec.computable s h.run ⟨hblock, hrest⟩
    have hreach : f.Reaches (.terminator preHeader) := by
      simpa [hrest, hblock, pointAt] using h.placed.reaches
    have havail : ∀ x, f.Available x (.terminator preHeader) →
        t.registers (replacement x) = s.registers x := by
      intro x hx
      exact h.values x (by simpa [hrest, hblock, pointAt] using hx)
    -- nothing that the loop computes is available
    have hnot : ∀ x, f.Available x (.terminator preHeader) →
        x ∉ hoisted ∧ replacement x = x := by
      intro x hx
      have hout : ∀ d, f.DefinedAt x d → ¬ loop d.block :=
        fun d hd hloop => hshape.not_available hd hloop hreach hx
      refine ⟨fun hmem => ?_, hmove.replacement_outside hout⟩
      obtain ⟨b, hb, hbody⟩ := hmove.body x hmem
      exact hout _ (.instruction hbody) hb
    obtain ⟨registers', hsteps, hin, hother⟩ := run_hoisted preHeader s.block hf hmove
      hvalues hoisted [] t.registers rfl (by simp) (by
        rintro x hxout ⟨i, hi, hx⟩
        obtain ⟨b, hb, hbody⟩ := hmove.body i hi
        have hx' := hshape.available_preHeader hb hbody (hf.operands b i hbody x hx) hxout
        obtain ⟨hnotmem, heq⟩ := hnot x hx'
        rw [hothers x hnotmem, ← havail x hx', heq])
    refine ⟨⟨s.block, [], registers', s.memory⟩, ?_, ⟨rfl, rfl, fun x hx => ?_⟩, h.run, h.placed,
      by simp [hrest], fun _ => ⟨s, h.run, ⟨hblock, hrest⟩, .refl, fun i hi => ?_⟩⟩
    · obtain ⟨tblock, trest, tregisters, tmemory⟩ := t
      obtain rfl : tblock = s.block := h.block
      obtain rfl : tmemory = s.memory := h.memory
      obtain rfl : trest = hoisted := by simpa [hrest, hblock] using h.rest
      exact hsteps
    · have hx' : f.Available x (.terminator preHeader) := by
        simpa [hrest, hblock, pointAt] using hx
      obtain ⟨hnotmem, heq⟩ := hnot x hx'
      rw [← havail x hx', heq]
      exact hother x hnotmem
    · have hsame : f.operandValues (fun x => registers' (replacement x)) i =
          f.operandValues values i := by
        refine map_congr_left fun x hx => ?_
        obtain ⟨heq, hxh | hxout⟩ := hmove.operand_cases hf hi hx
        · rw [heq, hin x hxh]
        · obtain ⟨b, hb, hbody⟩ := hmove.body i hi
          have hx' := hshape.available_preHeader hb hbody (hf.operands b i hbody x hx) hxout
          obtain ⟨hnotmem, -⟩ := hnot x hx'
          rw [heq, hother x hnotmem, hothers x hnotmem, ← havail x hx', heq]
      show sem.exec i (f.operandValues (fun x => registers' (replacement x)) i) s.memory =
        some (registers' i, s.memory)
      rw [hsame, hin i hi]
      exact hvalues i hi
  · refine ⟨t, .refl, h.toAgree, h.run, h.placed, ?_, fun hin => ?_⟩
    · rw [h.rest]
      have hiff : (s.block = preHeader ∧ s.rest ≠ []) ↔ s.block = preHeader :=
        ⟨fun hs => hs.1, fun hs => ⟨hs, fun hrest => hend ⟨hs, hrest⟩⟩⟩
      simp only [hiff]
    · exact h.inside (hin.resolve_right hend)

/-! ## Steps -/

section

variable (hf : f.WF) (hsem : f.Follows sem) (hshape : f.LoopShape loop header preHeader)
  (hmove : f.CanHoist loop replacement hoisted)

include hf hsem hshape hmove

/-- The hoisted program has already run a hoisted instruction. -/
theorem Match.step_hoisted (hspec : f.Speculates sem loop preHeader hoisted s₀)
    (h : f.Match sem loop preHeader replacement hoisted s₀ s t) {i : V} {rest : List V}
    (hrest : s.rest = i :: rest) (hi : i ∈ hoisted) :
    ∃ s', f.Step sem s s' ∧ f.Match sem loop preHeader replacement hoisted s₀ s' t ∧
      s'.rest.length < s.rest.length := by
  obtain ⟨b, hb, hbody⟩ := hmove.body i hi
  have hibody := (h.placed.next_instruction hrest).1
  obtain ⟨hblock, -⟩ : s.block = b ∧ i = i := by
    simpa using hf.unique i _ _ (.instruction hibody) (.instruction hbody)
  subst hblock
  have hinside := h.inside (.inl hb)
  obtain ⟨s₁, hrun, hend, hloop, hvalues⟩ := hinside
  -- the value at the end of the preheader is the value here
  have hvalue : (sem.exec i (f.operandValues s.registers i) s.memory).map Prod.fst =
      some (t.registers i) := by
    rw [hspec.stable s₁ s hrun hend hloop i rest hrest hi,
      ← h.operandValues hf h.placed hrest, hvalues i hi]
    rfl
  obtain ⟨⟨val, m⟩, hexec, rfl⟩ := Option.map_eq_some_iff.mp hvalue
  obtain rfl : m = s.memory := hspec.readsOnly i hi _ _ _ _ hexec
  have hstep := Step.instruction hrest hexec
  refine ⟨_, hstep, ⟨⟨h.block, h.memory, fun x hx => ?_⟩, h.run.tail hstep,
    h.placed.step hsem hstep, ?_, fun hin => ?_⟩, by simp [hrest]⟩
  · by_cases hxi : x = i
    · subst hxi
      rw [hmove.replacement_hoisted hf hi]
      simp
    · have hprev : f.Available x (.instruction s.block i) := by
        refine hx.prev (h.placed.next_instruction hrest).2 fun hdef => ?_
        cases hdef
        exact hxi rfl
      have hold := h.values x (by rw [hrest]; exact hprev)
      simp [hold, hxi]
  · have hne : s.block ≠ preHeader := fun heq => hshape.preHeader_not_mem (heq ▸ hb)
    rw [h.rest, hrest, kept_cons_of_mem hi]
    simp [hne]
  · exact ⟨s₁, hrun, hend, hloop.tail ⟨hstep, hb⟩, hvalues⟩

/-- Both programs run an instruction that stays. -/
theorem Match.step_kept (h : f.Match sem loop preHeader replacement hoisted s₀ s t) {i : V}
    {rest : List V} (hrest : s.rest = i :: rest) (hi : i ∉ hoisted) {val : Val} {m : Mem}
    (hexec : sem.exec i (f.operandValues s.registers i) s.memory = some (val, m)) :
    ∃ t', (f.hoist replacement hoisted preHeader).Step sem t t' ∧
      f.Arrived sem loop preHeader replacement hoisted s₀
        ⟨s.block, rest, update s.registers i val, m⟩ t' := by
  obtain ⟨hibody, hnext⟩ := h.placed.next_instruction hrest
  have hreach : f.Reaches (.instruction s.block i) := by
    simpa [hrest, pointAt] using h.placed.reaches
  have hdef : f.DefinedAt i (.instruction s.block i) := .instruction hibody
  have hstep := Step.instruction hrest hexec
  have htrest : t.rest = i :: (kept hoisted rest ++ if s.block = preHeader then hoisted else []) := by
    rw [h.rest, hrest, kept_cons_of_not_mem hi]
    simp
  refine ⟨⟨t.block, kept hoisted rest ++ if s.block = preHeader then hoisted else [],
    update t.registers i val, m⟩, .instruction htrest ?_,
    ⟨h.block, rfl, fun x hx => ?_⟩, h.run.tail hstep, h.placed.step hsem hstep, rfl,
    fun hloop => ?_⟩
  · rw [operandValues_hoist, h.operandValues hf h.placed hrest, h.memory]
    exact hexec
  · show update t.registers i val (replacement x) = update s.registers i val x
    by_cases hxi : x = i
    · rw [hxi, hmove.replacement_body hf hibody, update_self, update_self]
    · have hprev : f.Available x (.instruction s.block i) := by
        refine hx.prev hnext fun hdef => ?_
        cases hdef
        exact hxi rfl
      have hne : replacement x ≠ i := by
        intro heq
        by_cases hx' : replacement x = x
        · exact hxi (hx'.symm.trans heq)
        · exact hmove.replacement_not_executed hf hshape hx' hreach hnext hx (heq ▸ hdef)
      rw [update_of_ne hne, update_of_ne hxi]
      exact h.values x (by rw [hrest]; exact hprev)
  · refine (h.inside (.inl hloop)).congr hf hmove (.single ⟨hstep, hloop⟩) (fun x hx => ?_)
      (fun x hx => ?_)
    · refine update_of_ne ?_ _ _
      rintro rfl
      exact hi hx
    · refine update_of_ne ?_ _ _
      rintro rfl
      exact hx _ hdef hloop

/-- Both programs jump, the hoisted one through the preheader where it enters the loop. -/
theorem Match.step_jump (h : f.Match sem loop preHeader replacement hoisted s₀ s t)
    (hrest : s.rest = []) {c : B}
    (hbranch : sem.branch s.block (f.terminatorValues s.registers s.block) = some c) :
    ∃ t', (f.hoist replacement hoisted preHeader).Step sem t t' ∧
      f.Arrived sem loop preHeader replacement hoisted s₀
        ⟨c, f.body c, f.assignPhis s.block c s.registers, s.memory⟩ t' := by
  have hsucc := hsem _ _ _ hbranch
  have hreach : f.Reaches (.terminator s.block) := by
    simpa [hrest, pointAt] using h.placed.reaches
  have hbegin : f.Reaches (.begin c) := hreach.next (.jump hsucc)
  have hstep := Step.jump hrest hbranch
  have htrest : t.rest = [] := by simp [h.rest, hrest]
  have hvalues : ∀ x, f.Available x (.terminator s.block) →
      t.registers (replacement x) = s.registers x := by
    intro x hx
    exact h.values x (by rw [hrest]; exact hx)
  -- the PHIs that are assigned are PHIs of the old function
  have hsame : ∀ x, x ∉ f.phis c → (f.hoist replacement hoisted preHeader).assignPhis t.block c
      t.registers x = t.registers x :=
    fun x hx => if_neg fun hmem => hx (mem_filter.mp hmem).1
  refine ⟨⟨c, (f.hoist replacement hoisted preHeader).body c,
    (f.hoist replacement hoisted preHeader).assignPhis t.block c t.registers, t.memory⟩,
    .jump htrest ?_, ⟨rfl, h.memory, fun x hx => ?_⟩, h.run.tail hstep,
    h.placed.step hsem hstep, rfl, fun hloop => ?_⟩
  · rw [terminatorValues_hoist, h.block, h.terminatorValues hf hrest]
    exact hbranch
  · show (f.hoist replacement hoisted preHeader).assignPhis t.block c t.registers (replacement x) =
      f.assignPhis s.block c s.registers x
    by_cases hxc : x ∈ f.phis c
    · obtain ⟨w, hw, hwavail⟩ := hf.incoming s.block c hsucc x hxc
      have hright : f.assignPhis s.block c s.registers x = s.registers w := by
        simp [assignPhis, hxc, hw]
      by_cases hx' : replacement x = x
      · have hleft : (f.hoist replacement hoisted preHeader).assignPhis t.block c t.registers x =
            t.registers (replacement w) := by
          simp [assignPhis, hoist, hxc, hx', lookup_map_snd, hw, h.block]
        rw [hx', hleft, hright, hvalues w hwavail]
      · obtain ⟨b, -, hphi, hincoming⟩ := hmove.replaced x hx'
        obtain ⟨l₁, l₂, hsplit, -⟩ := lookup_eq_some_iff.mp hw
        obtain rfl : w = replacement x := hincoming (s.block, w) (by simp [hsplit])
        have hnot : replacement x ∉ f.phis c := fun hmem =>
          (hmove.replacement_dominates hf hshape hx' hxc hbegin (.phi hmem)).1 rfl
        rw [hsame _ hnot, hright, ← hvalues _ hwavail, hmove.idempotent]
    · have hright : f.assignPhis s.block c s.registers x = s.registers x := if_neg hxc
      have hnotdef : ¬ f.DefinedAt x (.begin c) := by
        rintro ⟨hphi⟩
        exact hxc hphi
      have hprev : f.Available x (.terminator s.block) :=
        (hx.prev (.enter c) hnotdef).prev (.jump hsucc) fun hdef => hdef.ne_terminator _ rfl
      have hnot : replacement x ∉ f.phis c := by
        intro hmem
        by_cases hx' : replacement x = x
        · exact hxc (hx' ▸ hmem)
        · exact hmove.replacement_not_executed hf hshape hx' hbegin (.enter c) hx (.phi hmem)
      rw [hsame _ hnot, hright, hvalues x hprev]
  · have hin : loop s.block ∨ AtEnd preHeader s := by
      by_cases hb : loop s.block
      · exact .inl hb
      · exact .inr ⟨hshape.enters _ _ hsucc hb hloop, hrest⟩
    refine (h.inside hin).congr hf hmove (.single ⟨hstep, hloop⟩) (fun x hx => hsame x ?_)
      (fun x hx => hsame x ?_)
    · intro hphi
      obtain ⟨b, -, hbody⟩ := hmove.body x hx
      cases hf.unique x _ _ (.phi hphi) (.instruction hbody)
    · exact fun hphi => hx _ (.phi hphi) hloop

/-- A step of the program is none or some steps of the hoisted program. -/
theorem Match.step (hspec : f.Speculates sem loop preHeader hoisted s₀)
    (h : f.Match sem loop preHeader replacement hoisted s₀ s t) (hstep : f.Step sem s s') :
    (f.Match sem loop preHeader replacement hoisted s₀ s' t ∧ s'.rest.length < s.rest.length) ∨
      ∃ t', TransGen ((f.hoist replacement hoisted preHeader).Step sem) t t' ∧
        f.Match sem loop preHeader replacement hoisted s₀ s' t' := by
  have hcases : (f.Match sem loop preHeader replacement hoisted s₀ s' t ∧
        s'.rest.length < s.rest.length) ∨
      ∃ t', (f.hoist replacement hoisted preHeader).Step sem t t' ∧
        f.Arrived sem loop preHeader replacement hoisted s₀ s' t' := by
    cases hstep with
    | @instruction i rest val m hrest hexec =>
      by_cases hi : i ∈ hoisted
      · obtain ⟨s'', hstep', hmatch⟩ := h.step_hoisted hf hsem hshape hmove hspec hrest hi
        obtain rfl := Step.deterministic hstep' (.instruction hrest hexec)
        exact .inl hmatch
      · exact .inr (h.step_kept hf hsem hshape hmove hrest hi hexec)
    | jump hrest hbranch => exact .inr (h.step_jump hf hsem hshape hmove hrest hbranch)
  rcases hcases with hmatch | ⟨t', hstep', harrived⟩
  · exact .inl hmatch
  · obtain ⟨t'', hsteps, hmatch⟩ := harrived.settle hf hshape hmove hspec
    exact .inr ⟨t'', .head' hstep' hsteps, hmatch⟩

end

/-! ## Whole runs -/

/-- The states have the same memory and stand at the same place, where what is used next has the same
values in both: the operands of an instruction that stays, the operands of the terminator, and
what the PHIs that stay are assigned. -/
structure SameUses (f g : SSACode V B) (hoisted : List V) (s t : SSAState V B Val Mem) : Prop where
  block : t.block = s.block
  memory : t.memory = s.memory
  instruction : ∀ i rest, s.rest = i :: rest → i ∉ hoisted →
    (∃ rest', t.rest = i :: rest') ∧ g.operandValues t.registers i = f.operandValues s.registers i
  terminator : s.rest = [] →
    t.rest = [] ∧ g.terminatorValues t.registers t.block = f.terminatorValues s.registers s.block
  phis : s.rest = [] → ∀ c ∈ f.successors s.block, ∀ x ∈ g.phis c,
    x ∈ f.phis c ∧ g.assignPhis t.block c t.registers x = f.assignPhis s.block c s.registers x

/-- Matching states give the same operands. -/
theorem Match.sameUses (hf : f.WF) (h : f.Match sem loop preHeader replacement hoisted s₀ s t) :
    f.SameUses (f.hoist replacement hoisted preHeader) hoisted s t where
  block := h.block
  memory := h.memory
  instruction i rest hrest hi := by
    refine ⟨⟨kept hoisted rest ++ if s.block = preHeader ∧ s.rest ≠ [] then hoisted else [], ?_⟩,
      ?_⟩
    · rw [h.rest, hrest, kept_cons_of_not_mem hi, cons_append]
    · rw [operandValues_hoist, h.operandValues hf h.placed hrest]
  terminator hrest := by
    refine ⟨by simp [h.rest, hrest], ?_⟩
    rw [terminatorValues_hoist, h.block, h.terminatorValues hf hrest]
  phis hrest c hc x hx := by
    obtain ⟨hxc, heq⟩ := mem_filter.mp hx
    obtain ⟨w, hw, havail⟩ := hf.incoming s.block c hc x hxc
    refine ⟨hxc, ?_⟩
    have hvalue : t.registers (replacement w) = s.registers w :=
      h.values w (by rw [hrest]; exact havail)
    have heq' : replacement x = x := of_decide_eq_true heq
    simp [assignPhis, hoist, hxc, heq', lookup_map_snd, hw, h.block, hvalue]

theorem Match.ends (hf : f.WF) (hsem : f.Follows sem)
    (hshape : f.LoopShape loop header preHeader) (hmove : f.CanHoist loop replacement hoisted)
    (hspec : f.Speculates sem loop preHeader hoisted s₀)
    (h : f.Match sem loop preHeader replacement hoisted s₀ s t) :
    (f.Traps sem s → (f.hoist replacement hoisted preHeader).Traps sem t) ∧
      (f.Returns sem s → (f.hoist replacement hoisted preHeader).Returns sem t) := by
  constructor
  · rintro htraps
    obtain ⟨i, rest, hrest, hexec⟩ := htraps
    have hi : i ∉ hoisted := by
      intro hi
      obtain ⟨s', hstep, -⟩ := h.step_hoisted hf hsem hshape hmove hspec hrest hi
      exact Traps.no_step ⟨i, rest, hrest, hexec⟩ hstep
    obtain ⟨⟨rest', htrest⟩, hvalues⟩ := (h.sameUses hf).instruction i rest hrest hi
    exact ⟨i, rest', htrest, by rw [hvalues, h.memory]; exact hexec⟩
  · rintro ⟨hrest, hbranch⟩
    obtain ⟨htrest, hvalues⟩ := (h.sameUses hf).terminator hrest
    exact ⟨htrest, by rw [hvalues, h.block]; exact hbranch⟩

/-- The runs start in states that match, once the new one has executed what is hoisted if the
preheader is the entry. -/
theorem Match.start (hf : f.WF) (hshape : f.LoopShape loop header preHeader)
    (hmove : f.CanHoist loop replacement hoisted) (registers : V → Val) (memory : Mem)
    (hspec : f.Speculates sem loop preHeader hoisted (f.start registers memory)) :
    ∃ t, ReflTransGen ((f.hoist replacement hoisted preHeader).Step sem)
        ((f.hoist replacement hoisted preHeader).start registers memory) t ∧
      f.Match sem loop preHeader replacement hoisted (f.start registers memory)
        (f.start registers memory) t := by
  have harrived : f.Arrived sem loop preHeader replacement hoisted (f.start registers memory)
      (f.start registers memory)
      ((f.hoist replacement hoisted preHeader).start registers memory) := by
    refine ⟨⟨rfl, rfl, fun x hx => ?_⟩, .refl, .start registers memory, rfl,
      fun hloop => absurd hloop hshape.entry_not_mem⟩
    by_contra hne
    have hx' : replacement x ≠ x := fun heq => hne (congrArg registers heq)
    obtain ⟨b, hb, hphi, -⟩ := hmove.replaced x hx'
    -- the first point is reached without the beginning of the PHI's block
    have hentry : (SSAPoint.begin f.entry : SSAPoint V B) ≠ .begin b := by
      rintro heq
      exact hshape.entry_not_mem (SSAPoint.begin.inj heq ▸ hb)
    exact (hx _ (.phi hphi)).2 ((PathAvoiding.refl hentry).tail (.enter f.entry)
      (pointAt_ne_begin _ b _))
  exact harrived.settle hf hshape hmove hspec

section

variable (hf : f.WF) (hsem : f.Follows sem) (hshape : f.LoopShape loop header preHeader)
  (hmove : f.CanHoist loop replacement hoisted)

include hf hsem hshape hmove

/-- The hoisted program simulates the program. -/
theorem simulates (hspec : f.Speculates sem loop preHeader hoisted s₀) :
    Simulates (f.Step sem) ((f.hoist replacement hoisted preHeader).Step sem)
      (f.Match sem loop preHeader replacement hoisted s₀) (fun s => s.rest.length)
      fun _ => False where
  step _ _ _ h hstep := h.step hf hsem hshape hmove hspec hstep
  stops s t h hno := by
    refine .inr fun t' ht => ?_
    have hstuck := (step_or_traps_or_returns f sem s).resolve_left fun ⟨s', hs'⟩ => hno s' hs'
    rcases hstuck with htraps | hreturns
    · exact ((h.ends hf hsem hshape hmove hspec).1 htraps).no_step ht
    · exact ((h.ends hf hsem hshape hmove hspec).2 hreturns).no_step ht

/-- A run of the program has a matching run of the hoisted program. -/
theorem match_of_run (registers : V → Val) (memory : Mem)
    (hspec : f.Speculates sem loop preHeader hoisted (f.start registers memory))
    (hrun : ReflTransGen (f.Step sem) (f.start registers memory) s) :
    ∃ t, ReflTransGen ((f.hoist replacement hoisted preHeader).Step sem)
        ((f.hoist replacement hoisted preHeader).start registers memory) t ∧
      f.Match sem loop preHeader replacement hoisted (f.start registers memory) s t := by
  obtain ⟨t₁, hsteps, hstart⟩ := Match.start hf hshape hmove registers memory hspec
  obtain ⟨t, hruns, hmatch⟩ := (simulates hf hsem hshape hmove hspec).run hstart hrun
  exact ⟨t, hsteps.trans hruns, hmatch⟩

theorem match_of_end
    (registers : V → Val) (memory : Mem)
    (hspec : f.Speculates sem loop preHeader hoisted (f.start registers memory))
    (hrun : ReflTransGen ((f.hoist replacement hoisted preHeader).Step sem)
      ((f.hoist replacement hoisted preHeader).start registers memory) t)
    (hend : ∀ t', ¬ (f.hoist replacement hoisted preHeader).Step sem t t') :
    ∃ s, f.Match sem loop preHeader replacement hoisted (f.start registers memory) s t ∧
      ((f.hoist replacement hoisted preHeader).Traps sem t → f.Traps sem s) ∧
      ((f.hoist replacement hoisted preHeader).Returns sem t → f.Returns sem s) := by
  obtain ⟨t₁, hsteps, hstart⟩ := Match.start hf hshape hmove registers memory hspec
  obtain ⟨s, -, hno, hmatch⟩ := (simulates hf hsem hshape hmove hspec).of_end Step.deterministic
    hend hstart (reach_end Step.deterministic hrun hend hsteps)
  have hmatch := hmatch.resolve_right id
  have hends := hmatch.ends hf hsem hshape hmove hspec
  have hstuck := (step_or_traps_or_returns f sem s).resolve_left fun ⟨s', hs'⟩ => hno s' hs'
  refine ⟨s, hmatch, fun htraps => ?_, fun hreturns => ?_⟩
  · exact hstuck.resolve_right fun hreturns => (hends.2 hreturns).not_traps htraps
  · exact hstuck.resolve_left fun htraps => hreturns.not_traps (hends.1 htraps)

end

end SSACode

end Noelle
