import Mathlib.Logic.Function.Basic
import Noelle.Lib.Dominance

/-!
# Lib.SSA

Functions in SSA form, and their runs.

A function is its blocks, the PHIs and the other instructions of each, and the operands of
them and of the terminators.  What instructions compute and where terminators go are
parameters; an instruction that computes nothing traps, and a terminator neither defines a value
nor accesses memory.  A definition is available at a point
that it strictly dominates, and every operand of a well-formed function is available where it
is used.  `Available.of_next` and `Available.not_executed` are what a proof about runs needs
of dominance: a definition that is available after a step was executed by it or available
before, and nothing that it was computed from is executed while it is available.
-/

namespace Noelle

open Relation

/-- The code of a function in SSA form. -/
structure SSACode (V B : Type) where
  entry : B
  phis : B → List V
  /-- The instructions between the PHIs and the terminator. -/
  body : B → List V
  incoming : V → List (B × V)
  operands : V → List V
  terminatorOperands : B → List V
  successors : B → List B

/-- What instructions and terminators do: no value is a trap, no successor is a return. -/
structure SSASemantics (V B Val Mem : Type) where
  exec : V → List Val → Mem → Option (Val × Mem)
  branch : B → List Val → Option B

/-- A state of a run: the instructions of the block that are left to execute, the registers
and the memory. -/
structure SSAState (V B Val Mem : Type) where
  block : B
  rest : List V
  registers : V → Val
  memory : Mem

/-- A point of a function. -/
inductive SSAPoint (V B : Type)
  | begin (b : B)
  | instruction (b : B) (i : V)
  | terminator (b : B)

def SSAPoint.block {V B : Type} : SSAPoint V B → B
  | begin b => b
  | instruction b _ => b
  | terminator b => b

namespace SSACode

variable {V B Val Mem : Type} (f : SSACode V B)

/-! ## Points -/

/-- The point in front of the rest of a block. -/
def pointAt (b : B) : List V → SSAPoint V B
  | [] => .terminator b
  | i :: _ => .instruction b i

/-- Control can pass from the one point to the other. -/
inductive Next : SSAPoint V B → SSAPoint V B → Prop
  | enter (b : B) : Next (.begin b) (pointAt b (f.body b))
  | instruction {b : B} {before rest : List V} {i : V} : f.body b = before ++ i :: rest →
      Next (.instruction b i) (pointAt b rest)
  | jump {b c : B} : c ∈ f.successors b → Next (.terminator b) (.begin c)

/-- The point where the value is computed; PHIs are computed where their block begins. -/
inductive DefinedAt (x : V) : SSAPoint V B → Prop
  | phi {b : B} : x ∈ f.phis b → DefinedAt x (.begin b)
  | instruction {b : B} : x ∈ f.body b → DefinedAt x (.instruction b x)

/-- The point is on a path from the entry. -/
def Reaches (p : SSAPoint V B) : Prop := ReflTransGen f.Next (.begin f.entry) p

/-- The value is computed on every path to the point; what no instruction computes is available
everywhere. -/
def Available (x : V) (p : SSAPoint V B) : Prop :=
  ∀ d, f.DefinedAt x d → d ≠ p ∧ Dominates f.Next (.begin f.entry) d p

/-- The code is in SSA form: values are computed at one point, operands are available,
PHIs have a value for each predecessor, and nothing jumps to the entry. -/
structure WF [DecidableEq B] : Prop where
  unique : ∀ x d e, f.DefinedAt x d → f.DefinedAt x e → d = e
  operands : ∀ b, ∀ i ∈ f.body b, ∀ x ∈ f.operands i, f.Available x (.instruction b i)
  terminatorOperands : ∀ b, ∀ x ∈ f.terminatorOperands b, f.Available x (.terminator b)
  incoming : ∀ b c, c ∈ f.successors b → ∀ x ∈ f.phis c,
    ∃ w, (f.incoming x).lookup b = some w ∧ f.Available w (.terminator b)
  entry : ∀ b, f.entry ∉ f.successors b

variable {f}

@[simp] theorem block_pointAt (b : B) (rest : List V) :
    (pointAt b rest : SSAPoint V B).block = b := by
  cases rest <;> rfl

variable {x : V} {d p q : SSAPoint V B} {b : B}

theorem DefinedAt.ne_terminator (h : f.DefinedAt x d) (b : B) :
    d ≠ .terminator b := by
  cases h <;> exact nofun

theorem Reaches.next (h : f.Reaches p) (hpq : f.Next p q) : f.Reaches q :=
  ReflTransGen.tail h hpq

theorem pointAt_ne_begin (b c : B) (rest : List V) : (pointAt b rest : SSAPoint V B) ≠ .begin c := by
  cases rest <;> exact nofun

theorem Next.to_begin (h : f.Next p (.begin b)) :
    ∃ a, p = .terminator a ∧ b ∈ f.successors a := by
  generalize hq : SSAPoint.begin b = q at h
  cases h with
  | enter c => exact absurd hq.symm (pointAt_ne_begin c b _)
  | @instruction c _ rest _ _ => exact absurd hq.symm (pointAt_ne_begin c b rest)
  | @jump a c hc => exact ⟨a, rfl, SSAPoint.begin.inj hq ▸ hc⟩

theorem pointAt_eq_terminator {c : B} {rest : List V}
    (h : (pointAt b rest : SSAPoint V B) = .terminator c) : b = c ∧ rest = [] := by
  cases rest with
  | nil => exact ⟨SSAPoint.terminator.inj h, rfl⟩
  | cons i rest => cases h

theorem Next.to_terminator (h : f.Next p (.terminator b)) :
    p = .begin b ∧ f.body b = [] ∨ ∃ before i, p = .instruction b i ∧ f.body b = before ++ [i] := by
  generalize hq : SSAPoint.terminator b = q at h
  cases h with
  | enter c =>
    obtain ⟨rfl, hbody⟩ := pointAt_eq_terminator hq.symm
    exact .inl ⟨rfl, hbody⟩
  | @instruction c before rest i hbody =>
    obtain ⟨rfl, rfl⟩ := pointAt_eq_terminator hq.symm
    exact .inr ⟨before, i, rfl, hbody⟩
  | jump => cases hq

theorem Available.of_next (h : f.Available x q) (hpq : f.Next p q)
    (hd : f.DefinedAt x d) : d = p ∨ d ≠ p ∧ Dominates f.Next (.begin f.entry) d p := by
  by_cases hdp : d = p
  · exact .inl hdp
  · obtain ⟨hdq, hdom⟩ := h d hd
    exact .inr ⟨hdp, fun hpath => hdom (hpath.tail hpq hdq.symm)⟩

theorem Available.prev (h : f.Available x q) (hpq : f.Next p q)
    (hx : ¬ f.DefinedAt x p) : f.Available x p := by
  intro d hd
  rcases h.of_next hpq hd with rfl | h
  · exact absurd hd hx
  · exact h

theorem Available.not_executed (hp : f.Reaches p) (hpq : f.Next p q) (h : f.Available x q)
    (hd : f.DefinedAt x d) (hpd : p ≠ d) :
    ¬ Dominates f.Next (.begin f.entry) p d := by
  intro hdom
  rcases h.of_next hpq hd with hdp | ⟨-, hdp⟩
  · exact hpd hdp.symm
  · exact hpd (Dominates.antisymm hp hdom hdp)

theorem next_congr {f g : SSACode V B} (hbody : f.body = g.body)
    (hsuccessors : f.successors = g.successors) : f.Next = g.Next := by
  have hmono : ∀ {f g : SSACode V B}, f.body = g.body → f.successors = g.successors →
      ∀ p q, f.Next p q → g.Next p q := by
    intro f g hbody hsuccessors p q h
    cases h with
    | enter b => exact hbody ▸ .enter b
    | instruction h => exact .instruction (hbody ▸ h)
    | jump h => exact .jump (hsuccessors ▸ h)
  funext p q
  exact propext ⟨hmono hbody hsuccessors p q, hmono hbody.symm hsuccessors.symm p q⟩

/-- A point other than the entry is reached from a point that is reached without it. -/
theorem exists_first {α : Type} {r : α → α → Prop} {entry n : α} (h : ReflTransGen r entry n)
    (hn : n ≠ entry) : ∃ p, PathAvoiding r n entry p ∧ r p n := by
  have hpath : ∀ {c}, ReflTransGen r entry c → PathAvoiding r n entry c ∨
      ∃ p, PathAvoiding r n entry p ∧ r p n := by
    intro c hc
    induction hc with
    | refl => exact .inl (.refl hn.symm)
    | @tail y z _ hyz ih =>
      rcases ih with ih | ih
      · by_cases hz : z = n
        · exact .inr ⟨y, ih, hz ▸ hyz⟩
        · exact .inl (ih.tail hyz hz)
      · exact .inr ih
  rcases hpath h with h | h
  · exact absurd rfl h.target_ne
  · exact h

/-! ## Runs -/

section Runs

variable [DecidableEq V] [DecidableEq B] (f) (sem : SSASemantics V B Val Mem)

/-- The registers after the PHIs of `c`, entered from `b`: all PHIs read the old registers. -/
def assignPhis (b c : B) (registers : V → Val) (x : V) : Val :=
  if x ∈ f.phis c then
    match (f.incoming x).lookup b with
    | some w => registers w
    | none => registers x
  else registers x

/-- The values of the operands of an instruction. -/
def operandValues (registers : V → Val) (i : V) : List Val := (f.operands i).map registers

/-- The values of the operands of a terminator. -/
def terminatorValues (registers : V → Val) (b : B) : List Val :=
  (f.terminatorOperands b).map registers

inductive Step : SSAState V B Val Mem → SSAState V B Val Mem → Prop
  | instruction {s : SSAState V B Val Mem} {i : V} {rest : List V} {val : Val} {m : Mem} :
      s.rest = i :: rest →
      sem.exec i (f.operandValues s.registers i) s.memory = some (val, m) →
      Step s ⟨s.block, rest, Function.update s.registers i val, m⟩
  | jump {s : SSAState V B Val Mem} {c : B} : s.rest = [] →
      sem.branch s.block (f.terminatorValues s.registers s.block) = some c →
      Step s ⟨c, f.body c, f.assignPhis s.block c s.registers, s.memory⟩

/-- The next instruction traps. -/
def Traps (s : SSAState V B Val Mem) : Prop :=
  ∃ i rest, s.rest = i :: rest ∧
    sem.exec i (f.operandValues s.registers i) s.memory = none

/-- The run is over. -/
def Returns (s : SSAState V B Val Mem) : Prop :=
  s.rest = [] ∧ sem.branch s.block (f.terminatorValues s.registers s.block) = none

/-- The state a run starts in, with any registers and memory. -/
def start (registers : V → Val) (memory : Mem) : SSAState V B Val Mem :=
  ⟨f.entry, f.body f.entry, registers, memory⟩

/-- Terminators go to the successors of their block. -/
def Follows : Prop := ∀ b vals c, sem.branch b vals = some c → c ∈ f.successors b

variable {f sem} {s s' t : SSAState V B Val Mem}

/-- A state has at most one next state. -/
theorem Step.deterministic : Relator.RightUnique (f.Step sem) := by
  intro s t u ht hu
  cases ht with
  | instruction hrest hexec =>
    cases hu with
    | instruction hrest' hexec' =>
      obtain ⟨rfl, rfl⟩ := List.cons.inj (hrest.symm.trans hrest')
      obtain ⟨rfl, rfl⟩ := Prod.mk.inj (Option.mem_unique hexec hexec')
      rfl
    | jump hrest' => cases hrest.symm.trans hrest'
  | jump hrest hbranch =>
    cases hu with
    | instruction hrest' => cases hrest.symm.trans hrest'
    | jump _ hbranch' =>
      obtain rfl := Option.mem_unique hbranch hbranch'
      rfl

/-- A state goes on, traps or returns. -/
theorem step_or_traps_or_returns (f : SSACode V B) (sem : SSASemantics V B Val Mem)
    (s : SSAState V B Val Mem) : (∃ s', f.Step sem s s') ∨ f.Traps sem s ∨ f.Returns sem s := by
  cases hrest : s.rest with
  | nil =>
    cases hbranch : sem.branch s.block (f.terminatorValues s.registers s.block) with
    | none => exact .inr (.inr ⟨hrest, hbranch⟩)
    | some c => exact .inl ⟨_, .jump hrest hbranch⟩
  | cons i rest =>
    cases hexec : sem.exec i (f.operandValues s.registers i) s.memory with
    | none => exact .inr (.inl ⟨i, rest, hrest, hexec⟩)
    | some out => exact .inl ⟨_, .instruction hrest hexec⟩

theorem Traps.no_step (h : f.Traps sem s) : ¬ f.Step sem s t := by
  obtain ⟨i, rest, hrest, hexec⟩ := h
  rintro (⟨hrest', hexec'⟩ | ⟨hrest', -⟩)
  · obtain ⟨rfl, -⟩ := List.cons.inj (hrest.symm.trans hrest')
    cases hexec.symm.trans hexec'
  · cases hrest.symm.trans hrest'

theorem Returns.no_step (h : f.Returns sem s) : ¬ f.Step sem s t := by
  obtain ⟨hrest, hbranch⟩ := h
  rintro (⟨hrest', -⟩ | ⟨-, hbranch'⟩)
  · cases hrest.symm.trans hrest'
  · cases hbranch.symm.trans hbranch'

omit [DecidableEq V] [DecidableEq B] in
theorem Returns.not_traps (h : f.Returns sem s) : ¬ f.Traps sem s := by
  rintro ⟨i, rest, hrest, -⟩
  cases hrest.symm.trans h.1

/-- Where a run stands: what is left is the end of a block, at a point on a path from the
entry. -/
structure Placed (f : SSACode V B) (s : SSAState V B Val Mem) : Prop where
  suffix : s.rest <:+ f.body s.block
  reaches : f.Reaches (pointAt s.block s.rest)

omit [DecidableEq V] [DecidableEq B] in
theorem Placed.start (registers : V → Val) (memory : Mem) : f.Placed (f.start registers memory) :=
  ⟨List.suffix_rfl, ReflTransGen.single (.enter f.entry)⟩

omit [DecidableEq V] [DecidableEq B] in
theorem Placed.next_instruction (h : f.Placed s) {i : V} {rest : List V} (hrest : s.rest = i :: rest) :
    i ∈ f.body s.block ∧ f.Next (.instruction s.block i) (pointAt s.block rest) := by
  obtain ⟨before, hbody⟩ := h.suffix
  rw [hrest] at hbody
  exact ⟨by rw [← hbody]; simp, .instruction hbody.symm⟩

/-- A step stays at points that the entry reaches. -/
theorem Placed.step (hsem : f.Follows sem) (h : f.Placed s) (hstep : f.Step sem s s') :
    f.Placed s' := by
  have hreaches := h.reaches
  cases hstep with
  | @instruction i rest _ _ hrest hexec =>
    rw [hrest] at hreaches
    refine ⟨?_, hreaches.next (h.next_instruction hrest).2⟩
    exact (List.suffix_cons i rest).trans (hrest ▸ h.suffix)
  | @jump c hrest hbranch =>
    rw [hrest] at hreaches
    exact ⟨List.suffix_rfl, (hreaches.next (.jump (hsem _ _ _ hbranch))).next (.enter c)⟩

/-- A run stays at points that the entry reaches. -/
theorem Placed.steps (hsem : f.Follows sem) (h : f.Placed s) (hsteps : ReflTransGen (f.Step sem) s s') :
    f.Placed s' := by
  induction hsteps with
  | refl => exact h
  | tail _ hstep ih => exact ih.step hsem hstep

theorem registers_of_not_defined {x : V} (hx : ∀ d, ¬ f.DefinedAt x d) (h : f.Placed s)
    (hstep : f.Step sem s s') : s'.registers x = s.registers x := by
  cases hstep with
  | instruction hrest hexec =>
    refine Function.update_of_ne ?_ _ _
    rintro rfl
    exact hx _ (.instruction (h.next_instruction hrest).1)
  | @jump c hrest hbranch =>
    exact if_neg fun hphi => hx _ (.phi hphi)

/-- A run keeps the registers that no instruction defines. -/
theorem registers_of_not_defined_run (hsem : f.Follows sem) {x : V} (hx : ∀ d, ¬ f.DefinedAt x d)
    (h : f.Placed s) (hrun : ReflTransGen (f.Step sem) s s') : s'.registers x = s.registers x := by
  induction hrun with
  | refl => rfl
  | tail hrun hstep ih =>
    rw [registers_of_not_defined hx (h.steps hsem hrun) hstep, ih]

theorem not_traps_of_returns (hrun : ReflTransGen (f.Step sem) s t) (hreturns : f.Returns sem t)
    (hrun' : ReflTransGen (f.Step sem) s s') : ¬ f.Traps sem s' := by
  intro htraps
  rcases ReflTransGen.total_of_right_unique Step.deterministic hrun hrun' with h | h
  · rcases h.cases_head with rfl | ⟨u, hstep, -⟩
    · exact hreturns.not_traps htraps
    · exact hreturns.no_step hstep
  · rcases h.cases_head with rfl | ⟨u, hstep, -⟩
    · exact hreturns.not_traps htraps
    · exact htraps.no_step hstep

end Runs

end SSACode

end Noelle
