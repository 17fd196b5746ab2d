import Noelle.Lib.SunkSteps

/-!
# Lib.SunkRuns

Runs of a function from which instructions were moved as `Lib.Sinking` describes.

On the edge to a successor the new run executes what was moved under the names that it has there
(`Sinking.Edge`), and has caught up (`Match.jump`).  `match_of_run` is the result for whole runs,
and `SameValues` what it says about values.
-/

namespace Noelle

open Function Relation List

namespace SSACode

variable {V B Val Mem : Type} [DecidableEq V] [DecidableEq B] {f g : SSACode V B}
  {sem : SSASemantics V B Val Mem} {loop : B → Prop} {header : B} {k : Sinking V B}
  {s₀ s s' t : SSAState V B Val Mem} {b c : B} {x : V}

/-! ## The edges to the successors -/

/-- The edge to a successor, where what was moved is executed under the names that it has there. -/
structure Sinking.Edge (f g : SSACode V B) (sem : SSASemantics V B Val Mem) (k : Sinking V B) (c : B)
    (name : V → V) : Prop where
  mem : c ∈ f.successors k.parent
  single : ∀ a, c ∈ f.successors a → a = k.parent
  body : g.body c = k.moved.map name ++ f.body c
  injective : ∀ m ∈ k.moved, ∀ m' ∈ k.moved, name m = name m' → m = m'
  names : ∀ m ∈ k.moved, name m ∈ k.moved ∨ name m ∈ k.clones
  exec : ∀ m ∈ k.moved, sem.exec (name m) = sem.exec m
  operands : ∀ m ∈ k.moved, ∀ registers : V → Val, g.operandValues registers (name m) =
    (f.operands m).map fun x => registers (if x ∈ k.moved then name x else x)
  replaced : ∀ p ∈ f.phis c, ∀ m ∈ k.moved,
    (f.incoming p).lookup k.parent = some m → k.replacement p = name m

variable {i : V} {name : V → V} {after : List V}

omit [DecidableEq V] in
theorem Sinkable.available_operand (h : f.Sinkable loop k) (hf : f.WF) (hi : i ∈ k.moved)
    (hx : x ∈ f.operands i) :
    f.Available x (.instruction k.parent i) ∧ f.Available x (.terminator k.parent) := by
  have hib : i ∈ f.body k.parent := h.sublist.subset hi
  have havail := hf.operands _ i hib x hx
  obtain ⟨before, rest, hbody⟩ := append_of_mem hib
  refine ⟨havail, fun d hd => ⟨hd.ne_terminator _, (havail d hd).2.trans ?_⟩⟩
  exact dominates_terminator h.nodup ⟨before, hbody.symm⟩

theorem Sinkable.replacement_operand (h : f.Sinkable loop k) (hf : f.WF) (hg : f.Sunk g k)
    (hi : i ∈ k.moved) (hx : x ∈ f.operands i) : k.replacement x = x :=
  h.replacement_available hf hg nil_suffix (h.available_operand hf hi hx).2

theorem Sinking.Legal.edge_inside (hk : k.Legal f g loop header) :
    k.Edge f g sem k.inside id where
  mem := (hk.sinkable.successors _).mpr (.inl rfl)
  single := hk.sinkable.single_inside
  body := by rw [map_id]; exact hk.sunk.body_inside
  injective := fun _ _ _ _ heq => heq
  names := fun _ hm => .inl hm
  exec := fun _ _ => rfl
  operands := fun m hm registers => by
    have hbody : m ∈ f.body k.parent := hk.sinkable.sublist.subset hm
    rw [id, hk.sunk.operandValues registers (hk.fresh.not_mem_clones (.body hbody))]
    refine map_congr_left fun x hx => ?_
    rw [hk.sinkable.replacement_operand hk.wf hk.sunk hm hx, id, ite_self]
  replaced := hk.sunk.replaced_inside

theorem Sinking.Legal.edge_outside (hk : k.Legal f g loop header)
    (hclone : ∀ m ∈ k.moved, sem.exec (k.clone m) = sem.exec m) :
    k.Edge f g sem k.outside k.clone where
  mem := (hk.sinkable.successors _).mpr (.inr rfl)
  single := hk.sinkable.single_outside
  body := hk.sunk.body_outside
  injective := hk.fresh.injective
  names := fun _ hm => .inr (List.mem_map_of_mem hm)
  exec := hclone
  operands := fun m hm registers => by
    rw [SSACode.operandValues, hk.sunk.operands_clone m hm, List.map_map]
    rfl
  replaced := hk.sunk.replaced_outside

/-- What a chain of the moved instructions computes is computed under their new names, too. -/
theorem Sinking.Edge.execute (h : k.Edge f g sem c name)
    (hordered : ∀ before j after, k.moved = before ++ j :: after →
      ∀ x ∈ f.operands j, x ∈ k.moved → x ∈ before)
    (hfresh : ∀ j ∈ k.moved, ∀ x ∈ f.operands j, x ∉ k.clones) {values : V → Val} (tail : List V) {m m' : Mem} (hchain : f.Chain sem values after m m') :
    ∀ (before : List V) (registers : V → Val), k.moved = before ++ after →
      (∀ x ∈ before, registers (name x) = values x) →
      (∀ j ∈ k.moved, ∀ x ∈ f.operands j, x ∉ k.moved → registers x = values x) →
      ∃ registers', ReflTransGen (g.Step sem) ⟨c, after.map name ++ tail, registers, m⟩
          ⟨c, tail, registers', m'⟩ ∧
        (∀ x ∈ k.moved, registers' (name x) = values x) ∧
        ∀ x, x ∉ k.moved → x ∉ k.clones → registers' x = registers x := by
  induction hchain with
  | nil m =>
    intro before registers hsplit hbefore _
    rw [append_nil] at hsplit
    exact ⟨registers, .refl, hsplit ▸ hbefore, fun _ _ _ => rfl⟩
  | @cons j after m m₁ m₂ hj _ ih =>
    intro before registers hsplit hbefore hout
    have hjm : j ∈ k.moved := by simp [hsplit]
    -- the operands come first, or were not moved
    have hoperands : g.operandValues registers (name j) = f.operandValues values j := by
      rw [h.operands j hjm registers]
      refine map_congr_left fun x hx => ?_
      by_cases hxm : x ∈ k.moved
      · rw [if_pos hxm]
        exact hbefore x (hordered before j after hsplit x hx hxm)
      · rw [if_neg hxm]
        exact hout j hjm x hx hxm
    have hother : ∀ x, x ∉ k.moved → x ∉ k.clones → x ≠ name j := fun x hx hxc heq =>
      (h.names j hjm).elim (fun hm => hx (heq ▸ hm)) fun hm => hxc (heq ▸ hm)
    have hbefore' : ∀ x ∈ before ++ [j],
        update registers (name j) (values j) (name x) = values x := by
      intro x hx
      rcases mem_append.mp hx with hx | hx
      · have hxm : x ∈ k.moved := hsplit ▸ mem_append_left _ hx
        by_cases hxj : x = j
        · rw [hxj, update_self]
        · rw [update_of_ne fun heq => hxj (h.injective x hxm j hjm heq), hbefore x hx]
      · rw [mem_singleton.mp hx, update_self]
    have hout' : ∀ j' ∈ k.moved, ∀ x ∈ f.operands j', x ∉ k.moved →
        update registers (name j) (values j) x = values x := by
      intro j' hj' x hx hxm
      rw [update_of_ne (hother x hxm (hfresh j' hj' x hx)), hout j' hj' x hx hxm]
    obtain ⟨registers', hrun, hmoved, hsame⟩ :=
      ih (before ++ [j]) _ (by simp [hsplit]) hbefore' hout'
    refine ⟨registers', .head (.instruction rfl ?_) hrun, hmoved, fun x hx hxc => ?_⟩
    · rw [h.exec j hjm, hoperands]
      exact hj
    · rw [hsame x hx hxc, update_of_ne (hother x hx hxc)]

omit [DecidableEq B] in
theorem Sinkable.filter_moved (h : f.Sinkable loop k) :
    ((f.body k.parent).filter fun i => decide (i ∈ k.moved)) = k.moved := by
  have hmoved : (k.moved.filter fun i => decide (i ∈ k.moved)) = k.moved :=
    filter_eq_self.mpr fun i hi => decide_eq_true hi
  have hsub := h.sublist.filter fun i => decide (i ∈ k.moved)
  rw [hmoved] at hsub
  have hperm : k.moved.Perm ((f.body k.parent).filter fun i => decide (i ∈ k.moved)) := by
    refine (perm_ext_iff_of_nodup (h.nodup.sublist h.sublist) (h.nodup.filter _)).mpr ?_
    intro i
    rw [mem_filter, decide_eq_true_eq]
    exact (and_iff_right_of_imp fun hi => h.sublist.subset hi).symm
  exact (hsub.eq_of_length hperm.length_eq).symm

theorem Sinkable.ordered (h : f.Sinkable loop k) (hf : f.WF) {before : List V} {j : V}
    (hsplit : k.moved = before ++ j :: after) (hx : x ∈ f.operands j) (hxm : x ∈ k.moved) :
    x ∈ before := by
  have hjm : j ∈ k.moved := by simp [hsplit]
  obtain ⟨first, last, hbody⟩ := append_of_mem (h.sublist.subset hjm)
  have hxb := hf.operand_before h.reaches h.nodup hbody hx (h.sublist.subset hxm)
  have hnodup := nodup_middle.mp (hsplit ▸ h.nodup.sublist h.sublist)
  have hj := (nodup_cons.mp hnodup).1
  rw [mem_append, not_or] at hj
  have heq := hsplit.symm.trans h.filter_moved.symm
  rw [hbody, filter_append, filter_cons, if_pos (decide_eq_true hjm)] at heq
  rw [((append_cons_inj_of_notMem hj.1 hj.2).mp heq).1]
  exact mem_filter.mpr ⟨hxb, decide_eq_true hxm⟩

omit [DecidableEq V] in
theorem WF.ne_of_single (hf : f.WF) (hreach : f.Reaches (.begin b)) (hc : c ∈ f.successors b)
    (hsingle : ∀ a, c ∈ f.successors a → a = b) : c ≠ b := by
  rintro rfl
  have hentry : c ≠ f.entry := fun heq => hf.entry c (heq ▸ hc)
  obtain ⟨p, hpath, hp⟩ := exists_first hreach fun heq => hentry (SSAPoint.begin.inj heq)
  obtain ⟨a, rfl, ha⟩ := hp.to_begin
  obtain rfl := hsingle a ha
  exact (avoids_block (d := .terminator a) hpath hentry.symm rfl).target_ne rfl

theorem Sinking.Edge.not_phi (he : k.Edge f g sem c name) (hk : k.Legal f g loop header)
    (havail : f.Available x (.terminator k.parent)) :
    x ∉ f.phis c := fun hx =>
  hk.wf.phi_not_available hk.sinkable.reaches hk.sinkable.nodup he.mem he.single hx
    nil_suffix havail

section

variable (h : k.Match f g sem s₀ s t) (hk : k.Legal f g loop header)

include h hk

theorem Sinking.Match.value_at_end (hb : s.block = k.parent) (hrest : s.rest = [])
    (havail : f.Available x (.terminator k.parent)) (hx : x ∉ k.moved)
    (hxc : x ∉ k.clones) : t.registers x = s.registers x := by
  have hvalue := h.values x hx hxc (by rw [hrest, hb]; exact havail)
  rwa [hk.sinkable.replacement_available hk.wf hk.sunk nil_suffix havail] at hvalue

/-- A PHI of the successor has the value that it had: if it received a moved instruction, it is
replaced by the right one. -/
theorem Sinking.Match.value_phi (he : k.Edge f g sem c name) (hb : s.block = k.parent) (hrest : s.rest = [])
    {registers' : V → Val} (hmoved : ∀ x ∈ k.moved, registers' (name x) = s.registers x)
    (hother : ∀ x, x ∉ k.moved → x ∉ k.clones →
      registers' x = g.assignPhis t.block c t.registers x)
    (hx : x ∉ k.moved) (hxc : x ∉ k.clones) (hphi : x ∈ f.phis c) :
    registers' (k.replacement x) = f.assignPhis s.block c s.registers x := by
  obtain ⟨w, hw, havail⟩ := hk.wf.incoming _ _ he.mem x hphi
  rw [assignPhis, if_pos hphi, hb, hw]
  by_cases hwm : w ∈ k.moved
  · rw [he.replaced x hphi w hwm hw]
    exact hmoved w hwm
  · -- the PHI stays, and receives what replaces the old value
    have hkeep : k.replacement x = x := by
      by_contra hne
      obtain ⟨-, m, hm, hlookup⟩ := hk.sunk.replaced x hne
      exact hwm (Option.mem_unique hw hlookup ▸ hm)
    have hmem : x ∈ g.phis c := by
      rw [hk.sunk.phis]
      exact mem_filter.mpr ⟨hphi, decide_eq_true hkeep⟩
    have hwc : w ∉ k.clones := by
      obtain ⟨l₁, l₂, hsplit, -⟩ := lookup_eq_some_iff.mp hw
      exact hk.fresh.not_mem_clones
        (.incoming hphi (hsplit ▸ mem_append_right l₁ (.head _)) rfl)
    rw [hkeep, hother x hx hxc, assignPhis, if_pos hmem, h.block, hb, hk.sunk.incoming c x hmem,
      lookup_map_snd, hw]
    exact h.values w hwm hwc (by rw [hrest, hb]; exact havail)

/-- The jump over an edge to which instructions are sunk. -/
theorem Sinking.Match.jump (he : k.Edge f g sem c name) (hb : s.block = k.parent)
    (hrest : s.rest = [])
    (hbranch : sem.branch s.block (f.terminatorValues s.registers s.block) = some c) :
    ∃ registers', ReflTransGen (g.Step sem) t ⟨c, f.body c, registers', s.memory⟩ ∧
      (∀ x ∈ k.moved, registers' (name x) = f.assignPhis s.block c s.registers x) ∧
      ∀ x, x ∉ k.moved → x ∉ k.clones → f.Available x (pointAt c (f.body c)) →
        registers' (k.replacement x) = f.assignPhis s.block c s.registers x := by
  obtain ⟨htrest, hchain⟩ := h.here hb
  have hchain := hchain (f.body k.parent) (by rw [hrest, append_nil])
  rw [hk.sinkable.filter_moved] at hchain
  rw [hrest] at htrest
  have hstays : ∀ {x}, x ∉ f.phis c → g.assignPhis t.block c t.registers x = t.registers x :=
    fun hx => if_neg fun hmem => hx (mem_of_mem_filter (hk.sunk.phis c ▸ hmem))
  have hstep : g.Step sem t ⟨c, g.body c, g.assignPhis t.block c t.registers, t.memory⟩ :=
    .jump htrest (by rw [h.terminatorValues hk hrest, h.block]; exact hbranch)
  have hfresh : ∀ j ∈ k.moved, ∀ x ∈ f.operands j, x ∉ k.clones := fun j hj x hx =>
    hk.fresh.not_mem_clones (.operand (hk.sinkable.sublist.subset hj) hx)
  have hout : ∀ j ∈ k.moved, ∀ x ∈ f.operands j, x ∉ k.moved →
      g.assignPhis t.block c t.registers x = s.registers x := fun j hj x hx hxm => by
    have havail := (hk.sinkable.available_operand hk.wf hj hx).2
    rw [hstays (he.not_phi hk havail), h.value_at_end hk hb hrest havail hxm (hfresh j hj x hx)]
  obtain ⟨registers', hrun, hmoved, hother⟩ := he.execute
    (fun before j after hsplit x hx hxm => hk.sinkable.ordered hk.wf hsplit hx hxm) hfresh (f.body c)
    hchain [] (g.assignPhis t.block c t.registers) rfl nofun hout
  refine ⟨registers', .head (he.body ▸ hstep) hrun, fun x hx => ?_, fun x hx hxc havail => ?_⟩
  · rw [hmoved x hx]
    exact (if_neg fun hphi => hk.sinkable.phi_not_moved hk.wf hphi hx).symm
  · by_cases hphi : x ∈ f.phis c
    · exact h.value_phi hk he hb hrest hmoved hother hx hxc hphi
    · have hbegin : f.Available x (.begin c) := by
        refine havail.prev (.enter c) fun hdef => ?_
        cases hdef
        exact hphi ‹_›
      have hterm : f.Available x (.terminator k.parent) :=
        hbegin.prev (.jump he.mem) fun hdef => hdef.ne_terminator _ rfl
      rw [hk.sinkable.replacement_available hk.wf hk.sunk nil_suffix hterm, hother x hx hxc,
        hstays hphi, h.value_at_end hk hb hrest hterm hx hxc, assignPhis, if_neg hphi]

end

theorem Sinking.Legal.inside_ne_parent (hk : k.Legal f g loop header) : k.inside ≠ k.parent :=
  hk.wf.ne_of_single hk.sinkable.reaches ((hk.sinkable.successors _).mpr (.inl rfl))
    hk.sinkable.single_inside

theorem Sinking.Legal.outside_ne_parent (hk : k.Legal f g loop header) : k.outside ≠ k.parent :=
  hk.wf.ne_of_single hk.sinkable.reaches ((hk.sinkable.successors _).mpr (.inr rfl))
    hk.sinkable.single_outside

theorem Sinking.Legal.inside_ne_outside (hk : k.Legal f g loop header) : k.inside ≠ k.outside :=
  fun heq => hk.sinkable.outside_not_mem (heq ▸ hk.sinkable.inside_mem)

section

variable (h : k.Match f g sem s₀ s t) (hk : k.Legal f g loop header) (hdelay : f.Delayable sem k s₀)
  (hsem : f.Follows sem)

include h hk hdelay hsem

/-- The jump out of the block whose instructions were moved. -/
theorem Sinking.Match.step_jump_parent (hb : s.block = k.parent) (hrest : s.rest = [])
    (hbranch : sem.branch s.block (f.terminatorValues s.registers s.block) = some c) :
    ∃ t', ReflTransGen (g.Step sem) t t' ∧
      k.Match f g sem s₀ ⟨c, f.body c, f.assignPhis s.block c s.registers, s.memory⟩ t' := by
  have hstep := Step.jump hrest hbranch
  rcases (hk.sinkable.successors c).mp (hb ▸ hsem _ _ _ hbranch) with rfl | rfl
  · obtain ⟨registers', hrun, hmoved, hvalues⟩ := h.jump hk hk.edge_inside hb hrest hbranch
    exact ⟨_, hrun, h.run.tail hstep, h.placed.step hsem hstep, rfl, hvalues,
      fun _ => ⟨rfl, rfl⟩, fun _ => .inl hmoved, fun heq => absurd heq hk.inside_ne_parent,
      fun _ _ => hmoved, fun heq => absurd heq hk.inside_ne_outside⟩
  · obtain ⟨registers', hrun, hmoved, hvalues⟩ :=
      h.jump hk (hk.edge_outside hdelay.clone) hb hrest hbranch
    have hne : (SSAPoint.begin k.outside : SSAPoint V B) ≠ .begin k.parent := fun heq =>
      hk.outside_ne_parent (SSAPoint.begin.inj heq)
    exact ⟨_, hrun, h.run.tail hstep, h.placed.step hsem hstep, rfl, hvalues,
      fun _ => ⟨rfl, rfl⟩, fun _ => .inr ((PathAvoiding.refl hne).tail (.enter _)
        (pointAt_ne_begin _ _ _)), fun heq => absurd heq hk.outside_ne_parent,
      fun heq => absurd heq.symm hk.inside_ne_outside, fun _ _ => hmoved⟩

/-! ## Runs -/

/-- A step of the program is none or some steps of the sunk program. -/
theorem Sinking.Match.step (hstep : f.Step sem s s') :
    ∃ t', ReflTransGen (g.Step sem) t t' ∧ k.Match f g sem s₀ s' t' := by
  cases hstep with
  | @instruction i rest val m hrest hexec =>
    by_cases hb : s.block = k.parent
    · by_cases hi : i ∈ k.moved
      · exact h.step_moved hk hsem hb hrest hi hexec
      · exact h.step_kept hk hdelay hsem hb hrest hi hexec
    · exact h.step_instruction hk hsem hb hrest hexec
  | jump hrest hbranch =>
    by_cases hb : s.block = k.parent
    · exact h.step_jump_parent hk hdelay hsem hb hrest hbranch
    · exact h.step_jump hk hsem hb hrest hbranch

end

/-- The two programs match at the start. -/
theorem Sinking.Match.start (hk : k.Legal f g loop header) (registers : V → Val) (memory : Mem) :
    k.Match f g sem (f.start registers memory) (f.start registers memory)
      (g.start registers memory) := by
  have hinside : f.entry ≠ k.inside := fun heq =>
    hk.wf.entry k.parent (heq ▸ (hk.sinkable.successors _).mpr (.inl rfl))
  have houtside : f.entry ≠ k.outside := fun heq =>
    hk.wf.entry k.parent (heq ▸ (hk.sinkable.successors _).mpr (.inr rfl))
  have hparent : f.entry ≠ k.parent := fun heq =>
    hk.entered.entry_not_mem (heq ▸ hk.sinkable.parent_mem)
  have hnophi : ∀ {x c}, f.Available x (pointAt f.entry (f.body f.entry)) → f.entry ≠ c →
      x ∉ f.phis c := fun {x c} havail hne hphi => by
    have hbegin : (SSAPoint.begin f.entry : SSAPoint V B) ≠ .begin c := fun heq =>
      hne (SSAPoint.begin.inj heq)
    exact (havail _ (.phi hphi)).2
      ((PathAvoiding.refl hbegin).tail (.enter _) (pointAt_ne_begin _ _ _))
  refine ⟨.refl, .start registers memory, hk.sunk.entry, fun x _ _ havail => ?_, fun _ => ⟨?_, rfl⟩,
    fun _ => .inl fun _ _ => rfl, fun heq => absurd heq hparent, fun heq => absurd heq hinside,
    fun heq => absurd heq houtside⟩
  · have hkeep : k.replacement x = x := by
      by_contra hne
      exact (hk.sunk.replaced x hne).1.elim (hnophi havail hinside) (hnophi havail houtside)
    show registers (k.replacement x) = registers x
    rw [hkeep]
  · show g.body g.entry = f.body f.entry
    rw [hk.sunk.entry, hk.sunk.body _ hparent hinside houtside]

/-- A run of the program has a matching run of the sunk program. -/
theorem Sinking.Legal.match_of_run (hk : k.Legal f g loop header) {registers : V → Val}
    {memory : Mem} (hdelay : f.Delayable sem k (f.start registers memory)) (hsem : f.Follows sem)
    (hrun : ReflTransGen (f.Step sem) (f.start registers memory) s) :
    ∃ t, ReflTransGen (g.Step sem) (g.start registers memory) t ∧
      k.Match f g sem (f.start registers memory) s t := by
  induction hrun with
  | refl => exact ⟨_, .refl, .start hk registers memory⟩
  | tail _ hstep ih =>
    obtain ⟨t, hrun, hmatch⟩ := ih
    obtain ⟨t', hsteps, hmatch'⟩ := hmatch.step hk hdelay hsem hstep
    exact ⟨t', hrun.trans hsteps, hmatch'⟩

/-- The new run stands where the old run stands, and computes the same values. -/
structure Sinking.SameValues (f g : SSACode V B) (k : Sinking V B) (s t : SSAState V B Val Mem) :
    Prop where
  block : t.block = s.block
  rest : s.block ≠ k.parent → t.rest = s.rest
  rest_parent : s.block = k.parent → t.rest = kept k.moved s.rest
  memory : s.block ≠ k.parent → t.memory = s.memory
  values : ∀ x, x ∉ k.moved → x ∉ k.clones → f.Available x (pointAt s.block s.rest) →
    t.registers (k.replacement x) = s.registers x
  /-- Where control comes to a successor, what was moved has been executed, under its name or under
  those of the clones. -/
  inside : s.block = k.inside → s.rest = f.body k.inside →
    ∀ x ∈ k.moved, t.registers x = s.registers x
  outside : s.block = k.outside → s.rest = f.body k.outside →
    ∀ x ∈ k.moved, t.registers (k.clone x) = s.registers x
  operandValues : ∀ i rest, s.rest = i :: rest → (s.block = k.parent → i ∉ k.moved) →
    g.operandValues t.registers i = f.operandValues s.registers i
  terminatorValues : s.rest = [] →
    g.terminatorValues t.registers t.block = f.terminatorValues s.registers s.block

theorem Sinking.Match.sameValues (h : k.Match f g sem s₀ s t) (hk : k.Legal f g loop header) :
    k.SameValues f g s t where
  block := h.block
  rest := fun hb => (h.away hb).1
  rest_parent := fun hb => (h.here hb).1
  memory := fun hb => (h.away hb).2
  values := h.values
  inside := h.inside
  outside := h.outside
  operandValues := fun _ _ hrest hstays => h.operandValues hk hrest hstays
  terminatorValues := h.terminatorValues hk

omit [DecidableEq B] in
theorem Sinking.SameValues.returns (h : k.SameValues f g s t) (hb : s.block ≠ k.parent)
    (hreturns : f.Returns sem s) : g.Returns sem t ∧ t.memory = s.memory := by
  obtain ⟨hrest, hbranch⟩ := hreturns
  refine ⟨⟨(h.rest hb).trans hrest, ?_⟩, h.memory hb⟩
  rw [h.terminatorValues hrest, h.block]
  exact hbranch

end SSACode

end Noelle
