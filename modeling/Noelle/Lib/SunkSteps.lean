import Noelle.Lib.Sinking

/-!
# Lib.SunkSteps

A function from which instructions were moved as `Lib.Sinking` describes, step by step.

The new run is where the old run is (`Sinking.Match`).  In the block that is left, it lags behind:
what the moved instructions did to the memory so far is still to be done (`Chain`), and
instructions that stay are executed first, which makes no difference (`Delayable`).
-/

namespace Noelle

open Function Relation List Option

namespace SSACode

variable {V B Val Mem : Type} {f g : SSACode V B} {sem : SSASemantics V B Val Mem}

/-- Instructions that turn one memory into another, with the values that the registers have. -/
inductive Chain (f : SSACode V B) (sem : SSASemantics V B Val Mem) (registers : V → Val) :
    List V → Mem → Mem → Prop
  | nil (m : Mem) : Chain f sem registers [] m m
  | cons {i : V} {l : List V} {m m' m'' : Mem} :
      sem.exec i (f.operandValues registers i) m = some (registers i, m') →
      Chain f sem registers l m' m'' → Chain f sem registers (i :: l) m m''

/-- With these operands the order of the two instructions makes no difference. -/
def Commute (sem : SSASemantics V B Val Mem) (i j : V) (vals vals' : List Val) : Prop :=
  ∀ m, ((sem.exec i vals m).bind fun r => (sem.exec j vals' r.2).map fun r' => (r.1, r'.1, r'.2)) =
    (sem.exec j vals' m).bind fun r' => (sem.exec i vals r'.2).map fun r => (r.1, r'.1, r.2)

variable {registers registers' : V → Val} {l : List V} {m m' m'' : Mem} {i : V}

theorem Chain.snoc (h : f.Chain sem registers l m m')
    (hi : sem.exec i (f.operandValues registers i) m' = some (registers i, m'')) :
    f.Chain sem registers (l ++ [i]) m m'' := by
  induction h with
  | nil => exact .cons hi (.nil _)
  | cons hj _ ih => exact .cons hj (ih hi)

theorem Chain.congr (h : f.Chain sem registers l m m')
    (hsame : ∀ j ∈ l, registers' j = registers j ∧
      f.operandValues registers' j = f.operandValues registers j) :
    f.Chain sem registers' l m m' := by
  induction h with
  | nil => exact .nil _
  | cons hj _ ih =>
      obtain ⟨hvalue, hoperands⟩ := hsame _ (.head _)
      refine .cons ?_ (ih fun j hj => hsame j (.tail _ hj))
      rw [hvalue, hoperands]
      exact hj

theorem Chain.delay (h : f.Chain sem registers l m m') {vals : List Val} {val : Val}
    (hcomm : ∀ j ∈ l, Commute sem j i (f.operandValues registers j) vals)
    (hi : sem.exec i vals m' = some (val, m'')) :
    ∃ m₁, sem.exec i vals m = some (val, m₁) ∧ f.Chain sem registers l m₁ m'' := by
  induction h with
  | nil => exact ⟨m'', hi, .nil _⟩
  | @cons j l m m₂ _ hj _ ih =>
      obtain ⟨m₁, hi₁, hchain⟩ := ih (fun j hj => hcomm j (.tail _ hj)) hi
      have hswap := hcomm j (.head _) m
      simp only [hj, hi₁, bind_some, map_some] at hswap
      obtain ⟨⟨val', m₃⟩, hi₃, hj₃⟩ := bind_eq_some_iff.mp hswap.symm
      obtain ⟨⟨val'', m₄⟩, hj₄, heq⟩ := map_eq_some_iff.mp hj₃
      obtain ⟨rfl, rfl, rfl⟩ : val'' = registers j ∧ val' = val ∧ m₄ = m₁ := by simpa using heq
      exact ⟨m₃, hi₃, .cons hj₄ hchain⟩

/-! ## The values of operands -/

section Operands

variable [DecidableEq V] [DecidableEq B] {loop : B → Prop} {header : B} {k : Sinking V B} {b : B}
  {x : V}

theorem Sunk.operandValues (h : f.Sunk g k) (registers : V → Val) {i : V} (hi : i ∉ k.clones) :
    g.operandValues registers i = f.operandValues (fun x => registers (k.replacement x)) i := by
  simp [SSACode.operandValues, h.operands i hi, Function.comp_def]

theorem Sunk.terminatorValues (h : f.Sunk g k) (registers : V → Val) (b : B) :
    g.terminatorValues registers b =
      f.terminatorValues (fun x => registers (k.replacement x)) b := by
  simp [SSACode.terminatorValues, h.terminatorOperands b, Function.comp_def]

omit [DecidableEq V] in
theorem UsedAt.occurs {q : SSAPoint V B} (h : f.UsedAt x q) : f.Occurs x := by
  cases h with
  | instruction hi hx => exact .operand hi hx
  | terminator hx => exact .terminatorOperand hx
  | phi _ hp hx =>
      obtain ⟨l₁, l₂, hsplit, -⟩ := lookup_eq_some_iff.mp hx
      exact .incoming hp (hsplit ▸ mem_append_right l₁ (.head _)) rfl

omit [DecidableEq V] [DecidableEq B] in
theorem Fresh.not_mem_clones (h : f.Fresh k) (hx : f.Occurs x) : x ∉ k.clones := by
  intro hmem
  obtain ⟨m, hm, rfl⟩ := mem_map.mp hmem
  exact h.not_occurs m hm hx

theorem Sunk.replacement_body (h : f.Sunk g k) (hf : f.WF) (hx : x ∈ f.body b) :
    k.replacement x = x := by
  by_contra hne
  have hphi : ∀ {c : B}, x ∉ f.phis c := fun hphi => by
    cases hf.unique x _ _ (.instruction hx) (.phi hphi)
  exact (h.replaced x hne).1.elim hphi hphi

theorem Sunk.replacement_phi (h : f.Sunk g k) (hf : f.WF) (hx : x ∈ f.phis b)
    (hinside : b ≠ k.inside) (houtside : b ≠ k.outside) : k.replacement x = x := by
  by_contra hne
  have hphi : ∀ {c : B}, x ∈ f.phis c → b = c := fun hphi =>
    SSAPoint.begin.inj (hf.unique x _ _ (.phi hx) (.phi hphi))
  exact (h.replaced x hne).1.elim (fun hp => hinside (hphi hp)) fun hp => houtside (hphi hp)

theorem Sunk.replacement_cases (h : f.Sunk g k) (x : V) :
    k.replacement x = x ∨ k.replacement x ∈ k.moved ∨ k.replacement x ∈ k.clones := by
  by_cases hne : k.replacement x = x
  · exact .inl hne
  · obtain ⟨hphi, m, hm, hlookup⟩ := h.replaced x hne
    rcases hphi with hphi | hphi
    · exact .inr (.inl (h.replaced_inside x hphi m hm hlookup ▸ hm))
    · exact .inr (.inr (h.replaced_outside x hphi m hm hlookup ▸ mem_map_of_mem hm))

omit [DecidableEq V] in
theorem Sinkable.not_moved (h : f.Sinkable loop k) (hf : f.WF) (hb : b ≠ k.parent)
    (hx : x ∈ f.body b) : x ∉ k.moved := by
  intro hm
  have heq := hf.unique x _ _ (.instruction hx) (.instruction (h.sublist.subset hm))
  exact hb (SSAPoint.instruction.inj heq).1

omit [DecidableEq V] in
theorem Sinkable.phi_not_moved (h : f.Sinkable loop k) (hf : f.WF) (hx : x ∈ f.phis b) :
    x ∉ k.moved := by
  intro hm
  cases hf.unique x _ _ (.phi hx) (.instruction (h.sublist.subset hm))

theorem Sinkable.replacement_available (h : f.Sinkable loop k) (hf : f.WF) (hg : f.Sunk g k)
    {rest : List V} (hrest : rest <:+ f.body k.parent)
    (hx : f.Available x (pointAt k.parent rest)) : k.replacement x = x := by
  by_contra hne
  rcases (hg.replaced x hne).1 with hphi | hphi
  · exact hf.phi_not_available h.reaches h.nodup ((h.successors _).mpr (.inl rfl))
      h.single_inside hphi hrest hx
  · exact hf.phi_not_available h.reaches h.nodup ((h.successors _).mpr (.inr rfl))
      h.single_outside hphi hrest hx

end Operands

/-! ## The relation -/

section Runs

variable [DecidableEq V] [DecidableEq B] {loop : B → Prop} {header : B} {k : Sinking V B}
  {s₀ s s' t : SSAState V B Val Mem} {b c : B} {x : V}

/-- The clones do what the instructions do, and where an instruction that stays is executed, it
could as well be executed before the moved instructions that came first. -/
structure Delayable (f : SSACode V B) (sem : SSASemantics V B Val Mem) (k : Sinking V B)
    (s₀ : SSAState V B Val Mem) : Prop where
  clone : ∀ m ∈ k.moved, sem.exec (k.clone m) = sem.exec m
  commute : ∀ s, ReflTransGen (f.Step sem) s₀ s → s.block = k.parent →
    ∀ before i rest, f.body k.parent = before ++ i :: rest → s.rest = i :: rest → i ∉ k.moved →
    ∀ m ∈ before, m ∈ k.moved →
      Commute sem m i (f.operandValues s.registers m) (f.operandValues s.registers i)

/-- `g` is `f` with instructions moved that can be moved. -/
structure Sinking.Legal (f g : SSACode V B) (loop : B → Prop) (header : B) (k : Sinking V B) :
    Prop where
  wf : f.WF
  sinkable : f.Sinkable loop k
  entered : f.EnteredAt loop header
  lcssa : f.InLCSSA loop
  fresh : f.Fresh k
  sunk : f.Sunk g k

/-- The new run is where the old run is. -/
structure Sinking.Match (f g : SSACode V B) (sem : SSASemantics V B Val Mem) (k : Sinking V B)
    (s₀ s t : SSAState V B Val Mem) : Prop where
  run : ReflTransGen (f.Step sem) s₀ s
  placed : f.Placed s
  block : t.block = s.block
  values : ∀ x, x ∉ k.moved → x ∉ k.clones → f.Available x (pointAt s.block s.rest) →
    t.registers (k.replacement x) = s.registers x
  away : s.block ≠ k.parent → t.rest = s.rest ∧ t.memory = s.memory
  /-- The values of what was moved agree, or control has left the loop. -/
  moved : s.block ≠ k.parent → (∀ x ∈ k.moved, t.registers x = s.registers x) ∨
    PathAvoiding f.Next (.begin k.parent) (.begin k.outside) (pointAt s.block s.rest)
  /-- What was executed of the moved instructions is still to be done. -/
  here : s.block = k.parent → t.rest = kept k.moved s.rest ∧
    ∀ before, f.body k.parent = before ++ s.rest →
      f.Chain sem s.registers (before.filter fun i => decide (i ∈ k.moved)) t.memory s.memory
  inside : s.block = k.inside → s.rest = f.body k.inside →
    ∀ x ∈ k.moved, t.registers x = s.registers x
  outside : s.block = k.outside → s.rest = f.body k.outside →
    ∀ x ∈ k.moved, t.registers (k.clone x) = s.registers x

variable {i : V} {rest before : List V} {val : Val} {m : Mem}

omit [DecidableEq V] [DecidableEq B] in
theorem Placed.rest_ne (h : f.Placed s) (hrest : s.rest = i :: rest) :
    rest ≠ f.body s.block := by
  rintro heq
  obtain ⟨before, hsplit⟩ := h.suffix
  have hlen := congrArg List.length hsplit
  rw [hrest, ← heq, length_append, length_cons] at hlen
  omega

section

variable (h : k.Match f g sem s₀ s t) (hk : k.Legal f g loop header)

include h hk

theorem Sinking.Match.value_of_used (hused : f.UsedAt x (pointAt s.block s.rest))
    (hstays : s.block = k.parent → x ∉ k.moved) :
    t.registers (k.replacement x) = s.registers x := by
  by_cases hx : x ∈ k.moved
  · have hne : s.block ≠ k.parent := fun heq => hstays heq hx
    rw [hk.sunk.replacement_body hk.wf (hk.sinkable.sublist.subset hx)]
    exact (h.moved hne).elim (fun hall => hall x hx) fun hpath =>
      absurd hused (hk.sinkable.not_used hk.wf hk.entered hk.lcssa hx hpath)
  · exact h.values x hx (hk.fresh.not_mem_clones hused.occurs) (hk.wf.available_of_used hused)

/-- The next instruction has the same operand values in both runs, unless it was moved. -/
theorem Sinking.Match.operandValues (hrest : s.rest = i :: rest)
    (hstays : s.block = k.parent → i ∉ k.moved) :
    g.operandValues t.registers i = f.operandValues s.registers i := by
  have hi := (h.placed.next_instruction hrest).1
  rw [hk.sunk.operandValues t.registers (hk.fresh.not_mem_clones (.body hi))]
  refine map_congr_left fun x hx => ?_
  refine h.value_of_used hk ?_ fun heq => ?_
  · rw [hrest]
    exact .instruction hi hx
  · exact hk.sinkable.operands i (heq ▸ hi) (hstays heq) x hx

theorem Sinking.Match.terminatorValues (hrest : s.rest = []) :
    g.terminatorValues t.registers t.block = f.terminatorValues s.registers s.block := by
  rw [h.block, hk.sunk.terminatorValues]
  refine map_congr_left fun x hx => ?_
  refine h.value_of_used hk ?_ fun heq => ?_
  · rw [hrest]
    exact .terminator hx
  · exact hk.sinkable.terminatorOperands x (heq ▸ hx)

theorem Sinking.Match.values_update (hrest : s.rest = i :: rest) (hmoved : i ∉ k.moved) (val : Val)
    (hx : x ∉ k.moved) (hxc : x ∉ k.clones) (havail : f.Available x (pointAt s.block rest)) :
    update t.registers i val (k.replacement x) = update s.registers i val x := by
  obtain ⟨hi, hnext⟩ := h.placed.next_instruction hrest
  by_cases hxi : x = i
  · rw [hxi, hk.sunk.replacement_body hk.wf hi, update_self, update_self]
  · have hprev : f.Available x (.instruction s.block i) := by
      refine havail.prev hnext fun hdef => ?_
      cases hdef
      exact hxi rfl
    have hne : k.replacement x ≠ i := by
      rcases hk.sunk.replacement_cases x with heq | hin | hin
      · exact heq.symm ▸ hxi
      · exact fun heq => hmoved (heq ▸ hin)
      · exact fun heq => hk.fresh.not_mem_clones (.body hi) (heq ▸ hin)
    rw [update_of_ne hne, update_of_ne hxi]
    exact h.values x hx hxc (by rw [hrest]; exact hprev)

/-! ## Steps of other blocks -/

/-- An instruction outside the block that is sunk. -/
theorem Sinking.Match.step_instruction (hsem : f.Follows sem) (hb : s.block ≠ k.parent)
    (hrest : s.rest = i :: rest)
    (hexec : sem.exec i (f.operandValues s.registers i) s.memory = some (val, m)) :
    ∃ t', ReflTransGen (g.Step sem) t t' ∧
      k.Match f g sem s₀ ⟨s.block, rest, update s.registers i val, m⟩ t' := by
  obtain ⟨hi, hnext⟩ := h.placed.next_instruction hrest
  have hstep := Step.instruction hrest hexec
  obtain ⟨htrest, htmem⟩ := h.away hb
  have hoperands := h.operandValues hk hrest fun heq => absurd heq hb
  have hmoved : i ∉ k.moved := hk.sinkable.not_moved hk.wf hb hi
  have hshort := h.placed.rest_ne hrest
  refine ⟨⟨t.block, rest, update t.registers i val, m⟩,
    .single (.instruction (htrest.trans hrest) ?_), h.run.tail hstep, h.placed.step hsem hstep,
    h.block, fun x hx hxc havail => ?_, fun _ => ⟨rfl, rfl⟩, fun _ => ?_,
    fun heq => absurd heq hb, fun heq hrest => absurd (heq.symm ▸ hrest) hshort,
    fun heq hrest => absurd (heq.symm ▸ hrest) hshort⟩
  · rw [hoperands, htmem]
    exact hexec
  · exact h.values_update hk hrest hmoved val hx hxc havail
  · refine (h.moved hb).imp (fun hall x hx => ?_) fun hpath => ?_
    · have hne : x ≠ i := fun heq => hmoved (heq ▸ hx)
      show update t.registers i val x = update s.registers i val x
      rw [update_of_ne hne, update_of_ne hne, hall x hx]
    · rw [hrest] at hpath
      exact hpath.tail hnext (pointAt_ne_begin _ _ _)

/-- A jump from a block other than the one that is sunk. -/
theorem Sinking.Match.step_jump (hsem : f.Follows sem) (hb : s.block ≠ k.parent)
    (hrest : s.rest = []) (hbranch : sem.branch s.block (f.terminatorValues s.registers s.block) =
      some c) :
    ∃ t', ReflTransGen (g.Step sem) t t' ∧
      k.Match f g sem s₀ ⟨c, f.body c, f.assignPhis s.block c s.registers, s.memory⟩ t' := by
  have hc := hsem _ _ _ hbranch
  have hstep := Step.jump hrest hbranch
  obtain ⟨htrest, htmem⟩ := h.away hb
  have hinside : c ≠ k.inside := fun heq => hb (hk.sinkable.single_inside _ (heq ▸ hc))
  have houtside : c ≠ k.outside := fun heq => hb (hk.sinkable.single_outside _ (heq ▸ hc))
  have hterm := h.terminatorValues hk hrest
  have hphis : ∀ {x}, x ∈ g.phis c ↔ x ∈ f.phis c := fun {x} => by
    rw [hk.sunk.phis, mem_filter, decide_eq_true_eq]
    exact and_iff_left_of_imp fun hx => hk.sunk.replacement_phi hk.wf hx hinside houtside
  have hstays : ∀ {x}, x ∉ f.phis c →
      g.assignPhis t.block c t.registers x = t.registers x := fun hx =>
    if_neg fun hmem => hx (hphis.mp hmem)
  refine ⟨⟨c, g.body c, g.assignPhis t.block c t.registers, t.memory⟩,
    .single (.jump (htrest.trans hrest) (by rw [hterm, h.block]; exact hbranch)),
    h.run.tail hstep, h.placed.step hsem hstep, rfl, fun x hx hxc havail => ?_, fun hne => ?_,
    fun hne => ?_, fun heq => ?_, fun heq => absurd heq hinside, fun heq => absurd heq houtside⟩
  · show g.assignPhis t.block c t.registers (k.replacement x) = f.assignPhis s.block c s.registers x
    by_cases hphi : x ∈ f.phis c
    · obtain ⟨w, hw, -⟩ := hk.wf.incoming _ _ hc x hphi
      have hvalue := h.value_of_used (x := w) hk
        (by rw [hrest]; exact .phi hc hphi hw) fun heq => absurd heq hb
      rw [hk.sunk.replacement_phi hk.wf hphi hinside houtside, assignPhis, assignPhis,
        if_pos (hphis.mpr hphi), if_pos hphi, h.block, hk.sunk.incoming c x (hphis.mpr hphi),
        lookup_map_snd, hw]
      exact hvalue
    · have hbegin : f.Available x (.begin c) := by
        refine havail.prev (.enter c) fun hdef => ?_
        cases hdef
        exact hphi ‹_›
      have hterminator : f.Available x (.terminator s.block) :=
        hbegin.prev (.jump hc) fun hdef => hdef.ne_terminator s.block rfl
      have hne : k.replacement x ∉ f.phis c := by
        rcases hk.sunk.replacement_cases x with heq | hin | hin
        · exact heq.symm ▸ hphi
        · exact fun hmem => hk.sinkable.phi_not_moved hk.wf hmem hin
        · exact fun hmem => hk.fresh.not_mem_clones (.phi hmem) hin
      rw [hstays hne, assignPhis, if_neg hphi]
      exact h.values x hx hxc (by rw [hrest]; exact hterminator)
  · exact ⟨hk.sunk.body c hne hinside houtside, htmem⟩
  · refine (h.moved hb).imp (fun hall x hx => ?_) fun hpath => ?_
    · have hphi : x ∉ f.phis c := fun hmem => hk.sinkable.phi_not_moved hk.wf hmem hx
      exact (hstays hphi).trans ((hall x hx).trans (if_neg hphi).symm)
    · rw [hrest] at hpath
      have hbegin := hpath.tail (.jump hc) fun heq => hne (SSAPoint.begin.inj heq)
      exact hbegin.tail (.enter c) (pointAt_ne_begin _ _ _)
  · have heq : c = k.parent := heq
    subst heq
    refine ⟨hk.sunk.body_parent, fun before hsplit => ?_⟩
    obtain rfl : before = [] := append_left_eq_self.mp hsplit.symm
    rw [htmem]
    exact .nil _

end

/-! ## Steps of the block -/

section

variable (hf : f.WF) (hreach : f.Reaches (.begin b)) (hnodup : (f.body b).Nodup)
  (hbody : f.body b = before ++ i :: rest)

include hf hreach hnodup hbody

/-- In the block, an instruction changes nothing that the instructions up to it read or computed. -/
theorem WF.operandValues_update {j : V} (hj : j ∈ before ∨ j = i) (registers : V → Val)
    (val : Val) : f.operandValues (update registers i val) j =
      f.operandValues registers j := by
  refine map_congr_left fun x hx => update_of_ne ?_ _ _
  rintro rfl
  have hxb : x ∈ f.body b := by simp [hbody]
  have hnot : x ∉ before := fun hmem =>
    (nodup_cons.mp (nodup_middle.mp (hbody ▸ hnodup))).1 (mem_append_left rest hmem)
  rcases hj with hj | rfl
  · obtain ⟨first, last, rfl⟩ := append_of_mem hj
    have hsplit : f.body b = first ++ j :: (last ++ x :: rest) := by simp [hbody]
    exact hnot (mem_append_left _ (hf.operand_before hreach hnodup hsplit hx hxb))
  · exact hnot (hf.operand_before hreach hnodup hbody hx hxb)

theorem Chain.update {moved : List V} {registers : V → Val} {m' : Mem}
    (h : f.Chain sem registers (before.filter fun j => decide (j ∈ moved)) m m') (val : Val) :
    f.Chain sem (update registers i val) (before.filter fun j => decide (j ∈ moved))
      m m' := by
  refine h.congr fun j hj => ?_
  have hjb : j ∈ before := mem_of_mem_filter hj
  refine ⟨update_of_ne ?_ _ _,
    hf.operandValues_update hreach hnodup hbody (.inl hjb) registers val⟩
  rintro rfl
  exact (nodup_cons.mp (nodup_middle.mp (hbody ▸ hnodup))).1
    (mem_append_left rest hjb)

end

omit [DecidableEq V] [DecidableEq B] in
theorem append_cons_eq_append {l before' : List V} (h : l = before ++ i :: rest)
    (h' : l = before' ++ rest) : before' = before ++ [i] := by
  refine append_cancel_right (h'.symm.trans (h.trans ?_))
  rw [append_assoc, singleton_append]

/-- An instruction that stays is executed by both runs: what is delayed makes no difference. -/
theorem Sinking.Match.step_kept (h : k.Match f g sem s₀ s t) (hk : k.Legal f g loop header)
    (hdelay : f.Delayable sem k s₀) (hsem : f.Follows sem) (hb : s.block = k.parent)
    (hrest : s.rest = i :: rest) (hi : i ∉ k.moved)
    (hexec : sem.exec i (f.operandValues s.registers i) s.memory = some (val, m)) :
    ∃ t', ReflTransGen (g.Step sem) t t' ∧
      k.Match f g sem s₀ ⟨s.block, rest, update s.registers i val, m⟩ t' := by
  have hstep := Step.instruction hrest hexec
  obtain ⟨before, hbody⟩ := h.placed.suffix
  rw [hrest, hb] at hbody
  obtain ⟨htrest, hchain⟩ := h.here hb
  have hchain := hchain before (by rw [hrest, hbody])
  obtain ⟨m₁, hexec₁, hchain₁⟩ := hchain.delay (fun j hj => by
    obtain ⟨hjb, hj⟩ := mem_filter.mp hj
    exact hdelay.commute s h.run hb before i rest hbody.symm hrest hi j hjb
      (of_decide_eq_true hj)) hexec
  have hoperands := h.operandValues hk hrest fun _ => hi
  have hshort := h.placed.rest_ne hrest
  refine ⟨⟨t.block, kept k.moved rest, update t.registers i val, m₁⟩,
    .single (.instruction ?_ (by rw [hoperands]; exact hexec₁)), h.run.tail hstep,
    h.placed.step hsem hstep, h.block, fun x hx hxc havail => ?_, fun hne => absurd hb hne,
    fun hne => absurd hb hne, fun _ => ⟨rfl, fun before' hsplit => ?_⟩,
    fun heq hrest => absurd (heq.symm ▸ hrest) hshort,
    fun heq hrest => absurd (heq.symm ▸ hrest) hshort⟩
  · rw [htrest, hrest, kept_cons_of_not_mem hi]
  · exact h.values_update hk hrest hi val hx hxc havail
  · obtain rfl := append_cons_eq_append hbody.symm hsplit
    rw [filter_append, filter_singleton, decide_eq_false hi, cond_false,
      append_nil]
    exact hchain₁.update hk.wf hk.sinkable.reaches hk.sinkable.nodup hbody.symm val

/-- A moved instruction: the sunk program runs it later. -/
theorem Sinking.Match.step_moved (h : k.Match f g sem s₀ s t) (hk : k.Legal f g loop header)
    (hsem : f.Follows sem) (hb : s.block = k.parent) (hrest : s.rest = i :: rest) (hi : i ∈ k.moved)
    (hexec : sem.exec i (f.operandValues s.registers i) s.memory = some (val, m)) :
    ∃ t', ReflTransGen (g.Step sem) t t' ∧
      k.Match f g sem s₀ ⟨s.block, rest, update s.registers i val, m⟩ t' := by
  have hstep := Step.instruction hrest hexec
  have hnext := (h.placed.next_instruction hrest).2
  obtain ⟨before, hbody⟩ := h.placed.suffix
  rw [hrest, hb] at hbody
  obtain ⟨htrest, hchain⟩ := h.here hb
  have hchain := hchain before (by rw [hrest, hbody])
  have hshort := h.placed.rest_ne hrest
  refine ⟨t, .refl, h.run.tail hstep, h.placed.step hsem hstep, h.block,
    fun x hx hxc havail => ?_, fun hne => absurd hb hne, fun hne => absurd hb hne,
    fun _ => ⟨?_, fun before' hsplit => ?_⟩, fun heq hrest => absurd (heq.symm ▸ hrest) hshort,
    fun heq hrest => absurd (heq.symm ▸ hrest) hshort⟩
  · have hxi : x ≠ i := fun heq => hx (heq ▸ hi)
    have hprev : f.Available x (pointAt s.block s.rest) := by
      rw [hrest]
      refine Available.prev havail hnext fun hdef => ?_
      cases hdef
      exact hxi rfl
    exact (h.values x hx hxc hprev).trans (update_of_ne hxi _ _).symm
  · rw [htrest, hrest, kept_cons_of_mem hi]
  · obtain rfl := append_cons_eq_append hbody.symm hsplit
    rw [filter_append, filter_singleton, decide_eq_true hi, cond_true]
    refine (hchain.update hk.wf hk.sinkable.reaches hk.sinkable.nodup hbody.symm val).snoc ?_
    rw [hk.wf.operandValues_update hk.sinkable.reaches hk.sinkable.nodup hbody.symm (.inr rfl),
      update_self]
    exact hexec

end Runs

end SSACode

end Noelle
