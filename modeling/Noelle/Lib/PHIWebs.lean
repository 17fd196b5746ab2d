import Noelle.Lib.HoistedRuns

/-!
# Lib.PHIWebs

Folding PHIs, and webs of PHIs that carry one value.

The incoming values of the PHIs of a web are the value that they carry and each other.  The definition of
this value strictly dominates the web (`IsWeb.dominates`), so that it is not executed while a PHI of the web
is available, and all of them have its value wherever they can be used (`Carries.step`).  Folding the web
leaves a function in SSA form (`IsWeb.wellFormed_foldPHIs`) with the same runs (`IsWeb.runsAlike`).
-/

namespace Noelle

open Function Relation

namespace SSACode

variable {V B : Type}

/-! ## Folding -/

/-- Uses of other values. -/
def substitute (f : SSACode V B) (replacement : V → V) : SSACode V B :=
  { f with
    operands := fun i => (f.operands i).map replacement
    incoming := fun i => (f.incoming i).map fun e => (e.1, replacement e.2)
    terminatorOperands := fun b => (f.terminatorOperands b).map replacement }

@[simp] theorem substitute_id (f : SSACode V B) : f.substitute id = f := by
  simp [substitute]

variable [DecidableEq V]

/-- The replacement of PHIs that are folded. -/
def foldTo (phis : List V) (replacement x : V) : V := if x ∈ phis then replacement else x

/-- All of `phis` are replaced and deleted. -/
def foldPHIs (f : SSACode V B) (phis : List V) (replacement : V) : SSACode V B :=
  { f.substitute (foldTo phis replacement) with
    phis := fun b => (f.phis b).filter fun x => decide (x ∉ phis)
    incoming := fun x => if x ∈ phis then [] else
      (f.incoming x).map fun e => (e.1, foldTo phis replacement e.2) }

theorem foldTo_of_mem {phis : List V} {replacement x : V} (hx : x ∈ phis) :
    foldTo phis replacement x = replacement := if_pos hx

theorem foldTo_of_not_mem {phis : List V} {replacement x : V} (hx : x ∉ phis) :
    foldTo phis replacement x = x := if_neg hx

/-! ## Webs -/

/-- PHIs that get a value from outside, or each other. -/
structure IsWeb (f : SSACode V B) (web : List V) (value : V) : Prop where
  phi : ∀ p ∈ web, ∃ b, p ∈ f.phis b
  incoming : ∀ p ∈ web, ∀ e ∈ f.incoming p, e.2 = value ∨ e.2 ∈ web
  not_mem : value ∉ web

/-- SSA form, where PHIs have predecessors and every block is reached. -/
structure WellFormed [DecidableEq B] (f : SSACode V B) : Prop extends f.WF where
  phis_entry : f.phis f.entry = []
  reaches : ∀ b, f.Reaches (.begin b)

section Webs

variable [DecidableEq B] {f : SSACode V B} {web : List V} {value p : V} {d e q : SSAPoint V B}

section

omit [DecidableEq V]

theorem mem_of_lookup {l : List (B × V)} {b : B} {w : V} (h : l.lookup b = some w) : (b, w) ∈ l := by
  obtain ⟨before, after, rfl, -⟩ := List.lookup_eq_some_iff.mp h
  exact List.mem_append_right before (.head _)

section

variable (hf : f.WellFormed) (h : f.IsWeb web value)

include hf h

theorem IsWeb.definedAt (hp : p ∈ web)
    (he : f.DefinedAt p e) : ∃ b, e = .begin b ∧ p ∈ f.phis b := by
  obtain ⟨b, hb⟩ := h.phi p hp
  exact ⟨b, hf.unique p e _ he (.phi hb), hb⟩

theorem IsWeb.lookup (hp : p ∈ web) {b c : B} (hc : c ∈ f.successors b)
    (hphi : p ∈ f.phis c) : ∃ w, (f.incoming p).lookup b = some w ∧
      f.Available w (.terminator b) ∧ (w = value ∨ w ∈ web) := by
  obtain ⟨w, hw, havail⟩ := hf.incoming b c hc p hphi
  exact ⟨w, hw, havail, h.incoming p hp _ (mem_of_lookup hw)⟩

/-- A path that avoids the definition of the value avoids the web: the first PHI of the web on it would have
no value. -/
theorem IsWeb.avoids (hd : f.DefinedAt value d) (hpath : PathAvoiding f.Next d (.begin f.entry) q) :
    ∀ p ∈ web, ∀ e, f.DefinedAt p e → PathAvoiding f.Next e (.begin f.entry) q := by
  obtain ⟨hne, hsteps⟩ := hpath
  induction hsteps with
  | refl =>
      intro p hp e he
      obtain ⟨b, rfl, hb⟩ := h.definedAt hf hp he
      refine .refl fun heq => ?_
      rw [← SSAPoint.begin.inj heq, hf.phis_entry] at hb
      nomatch hb
  | @tail q q' hsteps hlast ih =>
      intro p hp e he
      refine (ih p hp e he).tail hlast.1 fun heq => ?_
      obtain ⟨c, rfl, hphi⟩ := h.definedAt hf hp he
      obtain ⟨b, rfl, hc⟩ := Next.to_begin (heq ▸ hlast.1)
      obtain ⟨w, -, havail, rfl | hw⟩ := h.lookup hf hp hc hphi
      · exact (havail d hd).2 ⟨hne, hsteps⟩
      · obtain ⟨a, ha⟩ := h.phi w hw
        exact (havail _ (.phi ha)).2 (ih w hw _ (.phi ha))

/-- **Dominance**: the definition of the value strictly dominates the PHIs of the web. -/
theorem IsWeb.dominates (hp : p ∈ web) (he : f.DefinedAt p e) : f.Available value e := by
  intro d hd
  obtain ⟨c, rfl, hphi⟩ := h.definedAt hf hp he
  refine ⟨fun heq => ?_, fun hpath => (h.avoids hf hd hpath p hp _ he).target_ne rfl⟩
  have hentry : (SSAPoint.begin c : SSAPoint V B) ≠ .begin f.entry := fun heq => by
    rw [SSAPoint.begin.inj heq, hf.phis_entry] at hphi
    nomatch hphi
  -- the last point before the PHI is first executed
  obtain ⟨q, hpath, hlast⟩ := exists_first (hf.reaches c) hentry
  rw [← heq] at hpath hlast
  obtain ⟨b, rfl, hc⟩ := Next.to_begin (heq ▸ hlast)
  obtain ⟨w, -, havail, rfl | hw⟩ := h.lookup hf hp hc hphi
  · exact (havail d hd).2 hpath
  · obtain ⟨a, ha⟩ := h.phi w hw
    exact (havail _ (.phi ha)).2 (h.avoids hf hd hpath w hw _ (.phi ha))

theorem IsWeb.available (hp : p ∈ web) (hq : f.Available p q) : f.Available value q := by
  intro d hd
  obtain ⟨c, hphi⟩ := h.phi p hp
  obtain ⟨hne, hdom⟩ := h.dominates hf hp (.phi hphi) d hd
  obtain ⟨-, hpq⟩ := hq _ (.phi hphi)
  refine ⟨fun heq => ?_, hdom.trans hpq⟩
  subst heq
  exact hne (Dominates.antisymm (hf.reaches c) hpq hdom).symm

end

end

/-! ## Runs -/

section Runs

variable {Val Mem : Type} {sem : SSASemantics V B Val Mem} {s s' t t' : SSAState V B Val Mem}

/-- The PHIs of the web have the value that they carry, where they can be used. -/
def Carries (f : SSACode V B) (web : List V) (value : V) (s : SSAState V B Val Mem) : Prop :=
  ∀ p ∈ web, f.Available p (pointAt s.block s.rest) → s.registers p = s.registers value

omit [DecidableEq V] in
theorem IsWeb.carries_start (hf : f.WellFormed) (h : f.IsWeb web value) (registers : V → Val)
    (memory : Mem) : f.Carries web value (f.start registers memory) := by
  intro p hp havail
  obtain ⟨c, hphi⟩ := h.phi p hp
  have hentry : (SSAPoint.begin f.entry : SSAPoint V B) ≠ .begin c := fun heq => by
    rw [← SSAPoint.begin.inj heq, hf.phis_entry] at hphi
    nomatch hphi
  exact absurd ((PathAvoiding.refl hentry).tail (.enter f.entry) (pointAt_ne_begin _ c _))
    (havail _ (.phi hphi)).2

omit [DecidableEq V] in
theorem IsWeb.not_definedAt (hf : f.WellFormed) (h : f.IsWeb web value) (hp : p ∈ web) (hd : f.Reaches d)
    (hnext : f.Next d q) (havail : f.Available p q) (hne : ¬ f.DefinedAt p d) : ¬ f.DefinedAt value d := by
  intro hvalue
  obtain ⟨c, hphi⟩ := h.phi p hp
  refine havail.not_executed hd hnext (.phi hphi) (fun heq => hne (heq ▸ .phi hphi)) ?_
  exact (h.dominates hf hp (.phi hphi) d hvalue).2

/-- **One step**: the PHIs of the web have the value after it. -/
theorem Carries.step (hf : f.WellFormed) (hsem : f.Follows sem) (h : f.IsWeb web value)
    (hplaced : f.Placed s) (hcarries : f.Carries web value s) (hstep : f.Step sem s s') :
    f.Carries web value s' := by
  intro p hp havail
  obtain ⟨c, hphi⟩ := h.phi p hp
  have hreaches := hplaced.reaches
  cases hstep with
  | @instruction i rest val m hrest hexec =>
      have hnext := (hplaced.next_instruction hrest).2
      have hi : f.DefinedAt i (.instruction s.block i) := .instruction (hplaced.next_instruction hrest).1
      have hnot : ¬ f.DefinedAt p (.instruction s.block i) := fun hdef => by
        cases hf.unique p _ _ hdef (.phi hphi)
      rw [hrest] at hreaches
      have hvalue := h.not_definedAt hf hp hreaches hnext havail hnot
      have hold := hcarries p hp (by rw [hrest]; exact havail.prev hnext hnot)
      have hpi : p ≠ i := fun heq => hnot (by rw [heq]; exact hi)
      have hvi : value ≠ i := fun heq => hvalue (by rw [heq]; exact hi)
      dsimp only
      rw [update_of_ne hpi, update_of_ne hvi, hold]
  | @jump c' hrest hbranch =>
      have hc := hsem _ _ _ hbranch
      rw [hrest] at hreaches
      have hbegin := hreaches.next (.jump hc)
      dsimp only
      by_cases hassigned : p ∈ f.phis c'
      · -- the value or another PHI of the web, from before the jump
        obtain ⟨w, hlookup, hwavail, hw⟩ := h.lookup hf hp hc hassigned
        have hvalue : value ∉ f.phis c' := fun hmem =>
          (h.dominates hf hp (.phi hassigned) _ (.phi hmem)).1 rfl
        have hold : s.registers w = s.registers value := by
          obtain rfl | hw := hw
          · rfl
          · exact hcarries w hw (by rw [hrest]; exact hwavail)
        rw [assignPhis, if_pos hassigned, hlookup, assignPhis, if_neg hvalue]
        exact hold
      · have hnot : ¬ f.DefinedAt p (.begin c') := fun hdef => by
          obtain ⟨b, heq, hb⟩ := h.definedAt hf hp hdef
          exact hassigned (SSAPoint.begin.inj heq ▸ hb)
        have hvalue : value ∉ f.phis c' := fun hmem =>
          h.not_definedAt hf hp hbegin (.enter c') havail hnot (.phi hmem)
        have hold := hcarries p hp (by
          rw [hrest]
          exact (havail.prev (.enter c') hnot).prev (.jump hc) fun hdef => hdef.ne_terminator _ rfl)
        rw [assignPhis, if_neg hassigned, assignPhis, if_neg hvalue, hold]

/-- A run of another function is at the same place, with the same memory; the replacement of a value that
can be used there has its value. -/
structure SameAt (f : SSACode V B) (replacement : V → V) (s t : SSAState V B Val Mem) : Prop where
  block : t.block = s.block
  rest : t.rest = s.rest
  memory : t.memory = s.memory
  values : ∀ x, f.Available x (pointAt s.block s.rest) → t.registers (replacement x) = s.registers x

/-- A run of the function without the web: it has all registers but those of the web. -/
structure WithoutWeb (f : SSACode V B) (sem : SSASemantics V B Val Mem) (web : List V) (value : V)
    (s t : SSAState V B Val Mem) : Prop where
  placed : f.Placed s
  carries : f.Carries web value s
  block : t.block = s.block
  rest : t.rest = s.rest
  memory : t.memory = s.memory
  registers : ∀ x, x ∉ web → t.registers x = s.registers x

omit [DecidableEq B] in
theorem WithoutWeb.eval (h : f.WithoutWeb sem web value s t) (hnot : value ∉ web) {x : V}
    (hx : f.Available x (pointAt s.block s.rest)) :
    t.registers (foldTo web value x) = s.registers x := by
  by_cases hmem : x ∈ web
  · rw [foldTo_of_mem hmem, h.registers value hnot, h.carries x hmem hx]
  · rw [foldTo_of_not_mem hmem, h.registers x hmem]

section

variable (hf : f.WellFormed) (hweb : f.IsWeb web value) (h : f.WithoutWeb sem web value s t)

include hf hweb h

theorem WithoutWeb.operandValues {i : V} {rest : List V} (hrest : s.rest = i :: rest) :
    (f.foldPHIs web value).operandValues t.registers i = f.operandValues s.registers i := by
  have heval : ∀ x ∈ f.operands i, t.registers (foldTo web value x) = s.registers x := fun x hx => by
    refine h.eval hweb.not_mem ?_
    rw [hrest]
    exact hf.operands s.block i (h.placed.next_instruction hrest).1 x hx
  rw [SSACode.operandValues, SSACode.operandValues, foldPHIs, substitute, List.map_map]
  exact List.map_congr_left heval

theorem WithoutWeb.terminatorValues (hrest : s.rest = []) :
    (f.foldPHIs web value).terminatorValues t.registers s.block = f.terminatorValues s.registers s.block := by
  have heval : ∀ x ∈ f.terminatorOperands s.block, t.registers (foldTo web value x) = s.registers x :=
    fun x hx => by
      refine h.eval hweb.not_mem ?_
      rw [hrest]
      exact hf.terminatorOperands s.block x hx
  rw [SSACode.terminatorValues, SSACode.terminatorValues, foldPHIs, substitute, List.map_map]
  exact List.map_congr_left heval

theorem WithoutWeb.assignPhis (hrest : s.rest = []) {c : B} (hc : c ∈ f.successors s.block) {x : V}
    (hx : x ∉ web) : (f.foldPHIs web value).assignPhis s.block c t.registers x =
      f.assignPhis s.block c s.registers x := by
  have hphis : x ∈ (f.foldPHIs web value).phis c ↔ x ∈ f.phis c := by
    rw [foldPHIs, List.mem_filter, decide_eq_true_eq]
    exact and_iff_left hx
  by_cases hassigned : x ∈ f.phis c
  · obtain ⟨w, hw, havail⟩ := hf.incoming s.block c hc x hassigned
    have hlookup : ((f.foldPHIs web value).incoming x).lookup s.block = some (foldTo web value w) := by
      have hincoming : (f.foldPHIs web value).incoming x =
          (f.incoming x).map fun e => (e.1, foldTo web value e.2) := if_neg hx
      rw [hincoming, lookup_map_snd, hw]
      rfl
    rw [SSACode.assignPhis, if_pos (hphis.mpr hassigned), hlookup, SSACode.assignPhis, if_pos hassigned, hw]
    exact h.eval hweb.not_mem (by rw [hrest]; exact havail)
  · rw [SSACode.assignPhis, if_neg fun hmem => hassigned (hphis.mp hmem), SSACode.assignPhis,
      if_neg hassigned]
    exact h.registers x hx

end

/-- **Lockstep**: both functions make the same steps. -/
theorem WithoutWeb.step (hf : f.WellFormed) (hsem : f.Follows sem) (hweb : f.IsWeb web value)
    (h : f.WithoutWeb sem web value s t) :
    (∀ s', f.Step sem s s' → ∃ t', (f.foldPHIs web value).Step sem t t' ∧ f.WithoutWeb sem web value s' t') ∧
      ∀ t', (f.foldPHIs web value).Step sem t t' → ∃ s', f.Step sem s s' ∧
        f.WithoutWeb sem web value s' t' := by
  have hinstruction : ∀ {i : V} {rest : List V} (val : Val) (m : Mem), s.rest = i :: rest →
      f.Step sem s ⟨s.block, rest, update s.registers i val, m⟩ →
      f.WithoutWeb sem web value ⟨s.block, rest, update s.registers i val, m⟩
        ⟨t.block, rest, update t.registers i val, m⟩ := fun {i rest} val m hrest hstep => by
    refine ⟨h.placed.step hsem hstep, h.carries.step hf hsem hweb h.placed hstep, h.block, rfl, rfl,
      fun x hx => ?_⟩
    dsimp only
    by_cases heq : x = i
    · rw [heq, update_self, update_self]
    · rw [update_of_ne heq, update_of_ne heq, h.registers x hx]
  have hjump : ∀ {c : B}, s.rest = [] → c ∈ f.successors s.block →
      f.Step sem s ⟨c, f.body c, f.assignPhis s.block c s.registers, s.memory⟩ →
      f.WithoutWeb sem web value ⟨c, f.body c, f.assignPhis s.block c s.registers, s.memory⟩
        ⟨c, f.body c, (f.foldPHIs web value).assignPhis t.block c t.registers, t.memory⟩ :=
    fun {c} hrest hc hstep => by
      refine ⟨h.placed.step hsem hstep, h.carries.step hf hsem hweb h.placed hstep, rfl, rfl, h.memory,
        fun x hx => ?_⟩
      dsimp only
      rw [h.block]
      exact h.assignPhis hf hweb hrest hc hx
  constructor
  · intro s' hstep
    cases hstep with
    | @instruction i rest val m hrest hexec =>
        refine ⟨_, .instruction (h.rest.trans hrest) ?_, hinstruction val m hrest (.instruction hrest hexec)⟩
        rw [h.operandValues hf hweb hrest, h.memory]
        exact hexec
    | @jump c hrest hbranch =>
        refine ⟨_, .jump (h.rest.trans hrest) ?_,
          hjump hrest (hsem _ _ _ hbranch) (.jump hrest hbranch)⟩
        rw [h.block, h.terminatorValues hf hweb hrest]
        exact hbranch
  · intro t' hstep
    cases hstep with
    | @instruction i rest val m hrest hexec =>
        have hrest' := h.rest.symm.trans hrest
        rw [h.operandValues hf hweb hrest', h.memory] at hexec
        exact ⟨_, .instruction hrest' hexec, hinstruction val m hrest' (.instruction hrest' hexec)⟩
    | @jump c hrest hbranch =>
        have hrest' := h.rest.symm.trans hrest
        rw [h.block, h.terminatorValues hf hweb hrest'] at hbranch
        exact ⟨_, .jump hrest' hbranch, hjump hrest' (hsem _ _ _ hbranch) (.jump hrest' hbranch)⟩

end Runs

/-! ## What is left -/

/-- Every run of the one function is one of the other, with the replacements of its values. -/
def RunsAlike (f g : SSACode V B) (replacement : V → V) : Prop :=
  ∀ (Val Mem : Type) (sem : SSASemantics V B Val Mem), f.Follows sem → ∀ registers memory,
    (∀ s, ReflTransGen (f.Step sem) (f.start registers memory) s →
      ∃ t, ReflTransGen (g.Step sem) (g.start registers memory) t ∧ f.SameAt replacement s t) ∧
    ∀ t, ReflTransGen (g.Step sem) (g.start registers memory) t →
      ∃ s, ReflTransGen (f.Step sem) (f.start registers memory) s ∧ f.SameAt replacement s t

/-- The uses are those of the replacements, and the removed PHIs are gone. -/
structure Replaced (f g : SSACode V B) (removed : List V) (replacement : V → V) : Prop where
  entry : g.entry = f.entry
  body : g.body = f.body
  successors : g.successors = f.successors
  phis : ∀ b x, x ∈ g.phis b ↔ x ∈ f.phis b ∧ x ∉ removed
  operands : ∀ i, g.operands i = (f.operands i).map replacement
  incoming : ∀ x, x ∉ removed → g.incoming x = (f.incoming x).map fun e => (e.1, replacement e.2)
  terminatorOperands : ∀ b, g.terminatorOperands b = (f.terminatorOperands b).map replacement
  replacement_not_mem : ∀ x, replacement x ∉ removed
  replacement_of_not_mem : ∀ x, x ∉ removed → replacement x = x

omit [DecidableEq B] in
theorem next_foldPHIs (f : SSACode V B) (web : List V) (value : V) : (f.foldPHIs web value).Next = f.Next :=
  next_congr rfl rfl

variable {x : V} {g : SSACode V B} {Val Mem : Type} {replacement : V → V} {removed : List V}

omit [DecidableEq B] in
theorem definedAt_of_foldPHIs (h : (f.foldPHIs web value).DefinedAt x d) : f.DefinedAt x d := by
  cases h with
  | phi hx => exact .phi (List.mem_filter.mp hx).1
  | instruction hx => exact .instruction hx

section

variable (hf : f.WellFormed) (h : f.IsWeb web value)

include hf h

theorem IsWeb.available_foldTo
    (hx : f.Available x q) : (f.foldPHIs web value).Available (foldTo web value x) q := by
  have havail : f.Available (foldTo web value x) q := by
    by_cases hmem : x ∈ web
    · rw [foldTo_of_mem hmem]
      exact h.available hf hmem hx
    · rw [foldTo_of_not_mem hmem]
      exact hx
  intro d hd
  rw [next_foldPHIs]
  exact havail d (definedAt_of_foldPHIs hd)

/-- **SSA form**: it is kept. -/
theorem IsWeb.wellFormed_foldPHIs :
    (f.foldPHIs web value).WellFormed where
  unique x d e hd he := hf.unique x d e (definedAt_of_foldPHIs hd) (definedAt_of_foldPHIs he)
  operands b i hi x hx := by
    obtain ⟨y, hy, rfl⟩ := List.mem_map.mp hx
    exact h.available_foldTo hf (hf.operands b i hi y hy)
  terminatorOperands b x hx := by
    obtain ⟨y, hy, rfl⟩ := List.mem_map.mp hx
    exact h.available_foldTo hf (hf.terminatorOperands b y hy)
  incoming b c hc x hx := by
    obtain ⟨hphi, hnot⟩ := List.mem_filter.mp hx
    obtain ⟨w, hw, havail⟩ := hf.incoming b c hc x hphi
    have hincoming : (f.foldPHIs web value).incoming x =
        (f.incoming x).map fun e => (e.1, foldTo web value e.2) := if_neg (of_decide_eq_true hnot)
    exact ⟨foldTo web value w, by rw [hincoming, lookup_map_snd, hw]; rfl, h.available_foldTo hf havail⟩
  entry := hf.entry
  phis_entry := by
    have hentry : f.phis (f.foldPHIs web value).entry = [] := hf.phis_entry
    exact List.filter_eq_nil_iff.mpr fun x hx => nomatch (hentry ▸ hx)
  reaches b := by
    unfold Reaches
    rw [next_foldPHIs]
    exact hf.reaches b

/-- **The runs**: all of them are kept. -/
theorem IsWeb.runsAlike :
    f.RunsAlike (f.foldPHIs web value) (foldTo web value) := by
  intro Val Mem sem hsem registers memory
  have hstart : f.WithoutWeb sem web value (f.start registers memory)
      ((f.foldPHIs web value).start registers memory) :=
    ⟨.start registers memory, h.carries_start hf registers memory, rfl, rfl, rfl, fun _ _ => rfl⟩
  have hsame : ∀ {s t : SSAState V B Val Mem}, f.WithoutWeb sem web value s t →
      f.SameAt (foldTo web value) s t := fun hst =>
    ⟨hst.block, hst.rest, hst.memory, fun x hx => hst.eval h.not_mem hx⟩
  constructor
  · intro s hrun
    have hruns : ∃ t, ReflTransGen ((f.foldPHIs web value).Step sem)
        ((f.foldPHIs web value).start registers memory) t ∧ f.WithoutWeb sem web value s t := by
      induction hrun with
      | refl => exact ⟨_, .refl, hstart⟩
      | tail _ hstep ih =>
          obtain ⟨t, hrun, hst⟩ := ih
          obtain ⟨t', hstep', hst'⟩ := (hst.step hf hsem h).1 _ hstep
          exact ⟨t', hrun.tail hstep', hst'⟩
    obtain ⟨t, hrun, hst⟩ := hruns
    exact ⟨t, hrun, hsame hst⟩
  · intro t hrun
    have hruns : ∃ s, ReflTransGen (f.Step sem) (f.start registers memory) s ∧
        f.WithoutWeb sem web value s t := by
      induction hrun with
      | refl => exact ⟨_, .refl, hstart⟩
      | tail _ hstep ih =>
          obtain ⟨s, hrun, hst⟩ := ih
          obtain ⟨s', hstep', hst'⟩ := (hst.step hf hsem h).2 _ hstep
          exact ⟨s', hrun.tail hstep', hst'⟩
    obtain ⟨s, hrun, hst⟩ := hruns
    exact ⟨s, hrun, hsame hst⟩

end

omit [DecidableEq V] [DecidableEq B] in
theorem Follows.congr {sem : SSASemantics V B Val Mem} (hsem : f.Follows sem)
    (hsuccessors : g.successors = f.successors) : g.Follows sem :=
  fun b vals c hc => by
    rw [hsuccessors]
    exact hsem b vals c hc

/-- Two replacements after each other keep the runs alike. -/
theorem RunsAlike.trans {k : SSACode V B} {replacement' : V → V} (h : f.RunsAlike g replacement)
    (h' : g.RunsAlike k replacement') (hsuccessors : g.successors = f.successors)
    (havail : ∀ x q, f.Available x q → g.Available (replacement x) q) :
    f.RunsAlike k (replacement' ∘ replacement) := by
  intro Val Mem sem hsem registers memory
  obtain ⟨hto, hfrom⟩ := h Val Mem sem hsem registers memory
  obtain ⟨hto', hfrom'⟩ := h' Val Mem sem (Follows.congr hsem hsuccessors) registers memory
  have hsame : ∀ {s t u : SSAState V B Val Mem}, f.SameAt replacement s t → g.SameAt replacement' t u →
      f.SameAt (replacement' ∘ replacement) s u := fun hst htu => by
    refine ⟨htu.block.trans hst.block, htu.rest.trans hst.rest, htu.memory.trans hst.memory, fun x hx => ?_⟩
    have hx' := havail x _ hx
    rw [← hst.block, ← hst.rest] at hx'
    exact (htu.values _ hx').trans (hst.values x hx)
  constructor
  · intro s hrun
    obtain ⟨t, hrun', hst⟩ := hto s hrun
    obtain ⟨u, hrun'', htu⟩ := hto' t hrun'
    exact ⟨u, hrun'', hsame hst htu⟩
  · intro u hrun
    obtain ⟨t, hrun', htu⟩ := hfrom' u hrun
    obtain ⟨s, hrun'', hst⟩ := hfrom t hrun'
    exact ⟨s, hrun'', hsame hst htu⟩

omit [DecidableEq V] [DecidableEq B] in
theorem Replaced.refl (f : SSACode V B) : f.Replaced f [] id where
  entry := rfl
  body := rfl
  successors := rfl
  phis b x := by simp
  operands i := (List.map_id _).symm
  incoming x _ := by simp
  terminatorOperands b := (List.map_id _).symm
  replacement_not_mem x := List.not_mem_nil
  replacement_of_not_mem x _ := rfl

omit [DecidableEq V] [DecidableEq B] in
theorem Replaced.congr_mem {removed' : List V} (h : f.Replaced g removed replacement)
    (hmem : ∀ x, x ∈ removed ↔ x ∈ removed') :
    f.Replaced g removed' replacement where
  entry := h.entry
  body := h.body
  successors := h.successors
  phis b x := by rw [h.phis, hmem]
  operands := h.operands
  incoming x hx := h.incoming x fun hmem' => hx ((hmem x).mp hmem')
  terminatorOperands := h.terminatorOperands
  replacement_not_mem x hx := h.replacement_not_mem x ((hmem _).mpr hx)
  replacement_of_not_mem x hx := h.replacement_of_not_mem x fun hmem' => hx ((hmem x).mp hmem')

omit [DecidableEq B] in
/-- One more web is replaced. -/
theorem Replaced.fold (h : f.Replaced g removed replacement) (hweb : g.IsWeb web value)
    (hvalue : value ∉ removed) :
    f.Replaced (g.foldPHIs web value) (web ++ removed) (foldTo web value ∘ replacement) where
  entry := h.entry
  body := h.body
  successors := h.successors
  phis b x := by
    rw [foldPHIs, List.mem_filter, decide_eq_true_eq, h.phis, List.mem_append, not_or]
    tauto
  operands i := by
    have hoperands : (g.foldPHIs web value).operands i = (g.operands i).map (foldTo web value) := rfl
    rw [hoperands, h.operands, List.map_map]
  incoming x hx := by
    rw [List.mem_append, not_or] at hx
    have hincoming : (g.foldPHIs web value).incoming x =
        (g.incoming x).map fun e => (e.1, foldTo web value e.2) := if_neg hx.1
    rw [hincoming, h.incoming x hx.2, List.map_map]
    rfl
  terminatorOperands b := by
    have hoperands : (g.foldPHIs web value).terminatorOperands b =
        (g.terminatorOperands b).map (foldTo web value) := rfl
    rw [hoperands, h.terminatorOperands, List.map_map]
  replacement_not_mem x := by
    rw [List.mem_append, not_or, Function.comp_apply]
    by_cases hx : replacement x ∈ web
    · rw [foldTo_of_mem hx]
      exact ⟨hweb.not_mem, hvalue⟩
    · rw [foldTo_of_not_mem hx]
      exact ⟨hx, h.replacement_not_mem x⟩
  replacement_of_not_mem x hx := by
    rw [List.mem_append, not_or] at hx
    rw [Function.comp_apply, h.replacement_of_not_mem x hx.2, foldTo_of_not_mem hx.1]

/-- **The uses**: where both runs are, what is used next has the same values. -/
theorem Replaced.sameUses {s t : SSAState V B Val Mem} (hf : f.WellFormed)
    (h : f.Replaced g removed replacement) (hplaced : f.Placed s)
    (hst : f.SameAt replacement s t) : f.SameUses g [] s t where
  block := hst.block
  memory := hst.memory
  instruction i rest hrest _ := by
    refine ⟨⟨rest, hst.rest.trans hrest⟩, ?_⟩
    rw [operandValues, operandValues, h.operands, List.map_map]
    refine List.map_congr_left fun x hx => hst.values x ?_
    rw [hrest]
    exact hf.operands s.block i (hplaced.next_instruction hrest).1 x hx
  terminator hrest := by
    refine ⟨hst.rest.trans hrest, ?_⟩
    rw [terminatorValues, terminatorValues, hst.block, h.terminatorOperands, List.map_map]
    refine List.map_congr_left fun x hx => hst.values x ?_
    rw [hrest]
    exact hf.terminatorOperands s.block x hx
  phis hrest c hc x hx := by
    obtain ⟨hphi, hnot⟩ := (h.phis c x).mp hx
    obtain ⟨w, hw, havail⟩ := hf.incoming s.block c hc x hphi
    refine ⟨hphi, ?_⟩
    rw [assignPhis, if_pos hx, hst.block, h.incoming x hnot, lookup_map_snd, hw, assignPhis, if_pos hphi, hw]
    exact hst.values w (by rw [hrest]; exact havail)

end Webs

end SSACode

end Noelle
