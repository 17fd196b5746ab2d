import Noelle.Lib.Search
import Noelle.Privatizer.Basic

/-!
# Privatizer.UserSummary

`UserSummary`, the users of a global variable.

The users are found by a worklist.  An instruction is entered where it comes up, and for an operator the
instructions that use it are; a constant expression that uses an operator does not come up.
`Visited` holds of the queue and the summary, and `new_spec` says what the constructor ends with.
-/

namespace Noelle

open Function Relation PtrSet List

/-- What the privatizer asks of a user.  A constant that is no constant expression is `otherUser`. -/
inductive SummaryUserKind (F : Type) where
  | instruction (function : F)
  | bitCastOperator
  | otherOperator
  | otherUser
  deriving DecidableEq

namespace SummaryUserKind

variable {F : Type}

/-- `isa<Operator>`, for a user that is no instruction. -/
def isOperator : SummaryUserKind F → Bool
  | bitCastOperator | otherOperator => true
  | instruction _ | otherUser => false

def isInstruction : SummaryUserKind F → Bool
  | instruction _ => true
  | bitCastOperator | otherOperator | otherUser => false

theorem isOperator_of_isInstruction {kind : SummaryUserKind F} (h : kind.isInstruction = true) :
    kind.isOperator = false := by
  cases kind with
  | instruction f => rfl
  | bitCastOperator => cases h
  | otherOperator => cases h
  | otherUser => rfl

end SummaryUserKind

/-- A module with a global variable: the operands and users of its values, and the calls. -/
structure GlobalModule (V F : Type) where
  globalVar : V
  kind : V → SummaryUserKind F
  kind_globalVar : kind globalVar = .otherUser
  operands : V → List V
  users : V → List V
  mem_users : ∀ u v, u ∈ users v ↔ v ∈ operands u
  entryFunction : F
  functions : List F
  /-- The functions with a body that a function may call. -/
  callees : F → List F
  entryFunction_mem : entryFunction ∈ functions
  callees_mem : ∀ f ∈ functions, ∀ f' ∈ callees f, f' ∈ functions

/-- The members of `UserSummary`. -/
structure UserSummary (V F : Type) where
  userFunctions : PtrSet F
  users : F → PtrSet V
  userInsts : F → PtrSet V

variable {V F : Type} [DecidableEq V] [DecidableEq F]

namespace UserSummary

variable (m : GlobalModule V F)

/-! ## Construction -/

def functionsInvokedFrom (fuel : Nat) (caller : F) : Option (PtrSet F) :=
  searchQueue (fun f => some (m.callees f)) fuel (m.callees caller)

def hotFunctions (fuel : Nat) : Option (PtrSet F) :=
  (functionsInvokedFrom m fuel m.entryFunction).map fun hotFuncs => hotFuncs.insert m.entryFunction

/-- The worklist with its flags, the operators that led to an instruction, and the summary. -/
structure State (V F : Type) where
  worklist : List (V × Bool)
  inst2op : V → PtrSet V
  summary : UserSummary V F

def enter (hotFuncs : PtrSet F) (inst2op : V → PtrSet V) (inst : V) (f : F) (direct : Bool)
    (s : UserSummary V F) : UserSummary V F :=
  if f ∈ hotFuncs then
    { userFunctions := s.userFunctions.insert f
      userInsts := update s.userInsts f ((s.userInsts f).insert inst)
      users := update s.users f
        (if direct then (s.users f).insert inst else (s.users f).insertAll (inst2op inst).elems) }
  else s

/-- The loop over the users of an operator. -/
def pushInstructions (op : V) (s : State V F) : State V F :=
  (m.users op).foldl (fun s opUser =>
    if (m.kind opUser).isInstruction then
      { s with
        worklist := s.worklist ++ [(opUser, false)]
        inst2op := update s.inst2op opUser ((s.inst2op opUser).insert op) }
    else s) s

/-- The body of the loop over the worklist. -/
def visit (hotFuncs : PtrSet F) (s : State V F) : Option (State V F) :=
  match s.worklist with
  | [] => none
  | (user, direct) :: worklist =>
      let s : State V F := { s with worklist := worklist }
      match m.kind user with
      | .instruction f => some { s with summary := enter hotFuncs s.inst2op user f direct s.summary }
      | .bitCastOperator | .otherOperator => some (pushInstructions m user s)
      | .otherUser => some s

/-- The constructor. -/
def new (fuel : Nat) : Option (UserSummary V F) := do
  let hotFuncs ← hotFunctions m fuel
  (loopM (fun s : State V F => !s.worklist.isEmpty) (visit m hotFuncs) fuel
    ⟨(m.users m.globalVar).map fun user => (user, true), fun _ => ∅, ⟨∅, fun _ => ∅, fun _ => ∅⟩⟩).map
      (·.summary)

end UserSummary

namespace GlobalModule

variable (m : GlobalModule V F)

/-! ## References -/

def Reachable (f : F) : Prop := ReflTransGen (fun f f' => f' ∈ m.callees f) m.entryFunction f

/-- A value has the variable as an operand, directly or through constant expressions. -/
inductive RefersTo : V → Prop
  | direct {u : V} (h : m.globalVar ∈ m.operands u) : RefersTo u
  | nested {u op : V} (hop : op ∈ m.operands u) (hkind : (m.kind op).isOperator = true)
      (h : RefersTo op) : RefersTo u

def IsDirectOperator (op : V) : Prop := (m.kind op).isOperator = true ∧ m.globalVar ∈ m.operands op

/-- An instruction that uses the variable, or an operator that does. -/
def UsesGlobal (inst : V) : Prop :=
  m.globalVar ∈ m.operands inst ∨ ∃ op ∈ m.operands inst, m.IsDirectOperator op

/-- An operand that refers to the variable through other constant expressions only. -/
def IsNestedOperand (op : V) : Prop :=
  (m.kind op).isOperator = true ∧ m.RefersTo op ∧ m.globalVar ∉ m.operands op

end GlobalModule

/-! ## What the summary has -/

namespace UserSummary

section Construction

variable {m : GlobalModule V F} {hotFuncs : PtrSet F}

omit [DecidableEq V] in
/-- The hot functions are those that the entry function reaches. -/
theorem hotFunctions_spec (m : GlobalModule V F) : ∃ N, ∀ fuel ≥ N,
    ∃ hotFuncs, hotFunctions m fuel = some hotFuncs ∧ ∀ f, f ∈ hotFuncs ↔ m.Reachable f := by
  have hlists : Lists m.functions (fun f => some (m.callees f)) fun f f' => f' ∈ m.callees f :=
    ⟨fun f _ => ⟨_, rfl, fun _ => Iff.rfl⟩, m.callees_mem⟩
  obtain ⟨N, hN⟩ := hlists.searchQueue_spec (m.callees_mem _ m.entryFunction_mem)
  refine ⟨N, fun fuel hfuel => ?_⟩
  obtain ⟨found, hfound, hmem⟩ := hN fuel hfuel
  refine ⟨_, Option.map_eq_some_iff.mpr ⟨found, hfound, rfl⟩, fun f => ?_⟩
  rw [mem_insert, hmem]
  constructor
  · rintro (rfl | ⟨f', hf', hpath⟩)
    · exact .refl
    · exact .head hf' hpath
  · intro hpath
    obtain rfl | ⟨f', hf', hpath⟩ := ReflTransGen.cases_head hpath
    · exact .inl rfl
    · exact .inr ⟨f', hf', hpath⟩

/-- What is in the queue, and what was entered for it when it has left. -/
structure Visited (m : GlobalModule V F) (hotFuncs : PtrSet F) (s : State V F) : Prop where
  direct_mem : ∀ u, (u, true) ∈ s.worklist → m.globalVar ∈ m.operands u
  indirect_mem : ∀ u, (u, false) ∈ s.worklist →
    (m.kind u).isInstruction = true ∧ ∃ op, op ∈ s.inst2op u
  inst2op_mem : ∀ u, ∀ op ∈ s.inst2op u, op ∈ m.operands u ∧ m.IsDirectOperator op
  userInsts_mem : ∀ f, ∀ u ∈ s.summary.userInsts f,
    m.kind u = .instruction f ∧ f ∈ hotFuncs ∧ m.UsesGlobal u ∧ f ∈ s.summary.userFunctions
  userFunctions_mem : ∀ f ∈ s.summary.userFunctions, f ∈ hotFuncs
  users_mem : ∀ f, ∀ u ∈ s.summary.users f,
    (m.kind u = .instruction f ∧ m.globalVar ∈ m.operands u) ∨
      (m.IsDirectOperator u ∧ ∃ inst, m.kind inst = .instruction f ∧ u ∈ m.operands inst)
  direct_entered : ∀ u f, m.kind u = .instruction f → f ∈ hotFuncs → m.globalVar ∈ m.operands u →
    (u, true) ∈ s.worklist ∨ (u ∈ s.summary.userInsts f ∧ u ∈ s.summary.users f)
  operator_entered : ∀ op, m.IsDirectOperator op → (op, true) ∈ s.worklist ∨
    ∀ u f, m.kind u = .instruction f → op ∈ m.operands u → op ∈ s.inst2op u ∧
      ((u, false) ∈ s.worklist ∨
        (f ∈ hotFuncs → u ∈ s.summary.userInsts f ∧ op ∈ s.summary.users f))

omit [DecidableEq V] [DecidableEq F] in
theorem visited_new : Visited m hotFuncs
    ⟨(m.users m.globalVar).map fun user => (user, true), fun _ => ∅, ⟨∅, fun _ => ∅, fun _ => ∅⟩⟩ where
  direct_mem u hu := by
    obtain ⟨v, hv, heq⟩ := mem_map.mp hu
    obtain ⟨rfl, -⟩ := Prod.mk.inj heq
    exact (m.mem_users _ _).mp hv
  indirect_mem u hu := by
    obtain ⟨v, _, heq⟩ := mem_map.mp hu
    exact absurd (Prod.mk.inj heq).2 (by decide)
  inst2op_mem u op hop := absurd hop (not_mem_empty op)
  userInsts_mem f u hu := absurd hu (not_mem_empty u)
  userFunctions_mem f hf := absurd hf (not_mem_empty f)
  users_mem f u hu := absurd hu (not_mem_empty u)
  direct_entered u f _ _ hu := .inl (mem_map.mpr ⟨u, (m.mem_users _ _).mpr hu, rfl⟩)
  operator_entered op hop := .inl (mem_map.mpr ⟨op, (m.mem_users _ _).mpr hop.2, rfl⟩)

/-- How much is left to do: an operator brings its users. -/
def weight (m : GlobalModule V F) (user : V) : Nat :=
  if (m.kind user).isOperator then (m.users user).length + 1 else 1

omit [DecidableEq F] in
/-- Only the operator's user instructions are pushed, and recorded with the operator. -/
theorem pushInstructions_spec (op : V) (s : State V F) :
    (pushInstructions m op s).summary = s.summary ∧
      (∀ p, p ∈ (pushInstructions m op s).worklist ↔ p ∈ s.worklist ∨
        (p.2 = false ∧ op ∈ m.operands p.1 ∧ (m.kind p.1).isInstruction = true)) ∧
      (∀ u x, x ∈ (pushInstructions m op s).inst2op u ↔ x ∈ s.inst2op u ∨
        (x = op ∧ op ∈ m.operands u ∧ (m.kind u).isInstruction = true)) ∧
      ((pushInstructions m op s).worklist.map fun p => weight m p.1).sum ≤
        (s.worklist.map fun p => weight m p.1).sum + (m.users op).length := by
  simp only [← m.mem_users]
  unfold pushInstructions
  refine foldl_rule _ (fun (pre : List V) (s' : State V F) => s'.summary = s.summary ∧
    (∀ p, p ∈ s'.worklist ↔ p ∈ s.worklist ∨
      (p.2 = false ∧ p.1 ∈ pre ∧ (m.kind p.1).isInstruction = true)) ∧
    (∀ u x, x ∈ s'.inst2op u ↔ x ∈ s.inst2op u ∨
      (x = op ∧ u ∈ pre ∧ (m.kind u).isInstruction = true)) ∧
    (s'.worklist.map fun p => weight m p.1).sum ≤
      (s.worklist.map fun p => weight m p.1).sum + pre.length) ⟨rfl, by simp, by simp, by simp⟩ ?_
  rintro pre opUser post s' _ ⟨hsummary, hworklist, hinst2op, hlength⟩
  by_cases hinst : (m.kind opUser).isInstruction = true
  · rw [if_pos hinst]
    refine ⟨hsummary, fun p => ?_, fun u x => ?_, ?_⟩
    · rw [mem_append, hworklist, mem_singleton, mem_append, mem_singleton]
      obtain ⟨u, direct⟩ := p
      grind
    · dsimp only
      by_cases hu : u = opUser
      · subst hu
        rw [update_self, mem_insert, hinst2op]
        grind
      · rw [update_of_ne hu, hinst2op, mem_append, mem_singleton]
        grind
    · have hone : weight m opUser = 1 :=
        if_neg (Bool.eq_false_iff.mp (SummaryUserKind.isOperator_of_isInstruction hinst))
      simp only [map_append, sum_append, map_cons, map_nil, sum_cons,
        sum_nil, length_append, length_singleton, hone]
      omega
  · rw [if_neg hinst]
    refine ⟨hsummary, fun p => ?_, fun u x => ?_, ?_⟩
    · rw [hworklist, mem_append, mem_singleton]
      grind
    · rw [hinst2op, mem_append, mem_singleton]
      grind
    · simp only [length_append, length_singleton]
      omega

variable {f : F} {user : V} {direct : Bool} {worklist : List (V × Bool)} {inst2op : V → PtrSet V}
  {s : UserSummary V F}

omit [DecidableEq V] in
theorem mem_update_iff {sets : F → PtrSet V} {f' : F} {t : PtrSet V} {u : V} {P : Prop}
    (h : u ∈ t ↔ u ∈ sets f ∨ P) :
    u ∈ update sets f t f' ↔ u ∈ sets f' ∨ (f' = f ∧ P) := by
  by_cases hf : f' = f
  · subst hf
    rw [update_self, h]
    simp
  · rw [update_of_ne hf]
    simp [hf]

/-- An instruction is entered only for a hot function. -/
theorem enter_spec (hotFuncs : PtrSet F) (inst2op : V → PtrSet V) (inst : V) (f : F) (direct : Bool)
    (s : UserSummary V F) :
    (∀ f', f' ∈ (enter hotFuncs inst2op inst f direct s).userFunctions ↔
      f' ∈ s.userFunctions ∨ (f ∈ hotFuncs ∧ f' = f)) ∧
      (∀ f' u, u ∈ (enter hotFuncs inst2op inst f direct s).userInsts f' ↔
        u ∈ s.userInsts f' ∨ (f ∈ hotFuncs ∧ f' = f ∧ u = inst)) ∧
      ∀ f' u, u ∈ (enter hotFuncs inst2op inst f direct s).users f' ↔
        u ∈ s.users f' ∨ (f ∈ hotFuncs ∧ f' = f ∧ if direct then u = inst else u ∈ inst2op inst) := by
  unfold enter
  by_cases hf : f ∈ hotFuncs
  · rw [if_pos hf]
    simp only [hf, true_and]
    refine ⟨fun f' => ?_, fun f' u => mem_update_iff ?_, fun f' u => mem_update_iff ?_⟩
    · rw [mem_insert, or_comm]
    · rw [mem_insert, or_comm]
    · cases direct with
      | true => rw [if_pos rfl, if_pos rfl, mem_insert, or_comm]
      | false =>
          rw [if_neg Bool.false_ne_true, if_neg Bool.false_ne_true, mem_insertAll,
            mem_elems]
  · rw [if_neg hf]
    simp only [hf, false_and, or_false, implies_true, and_self]

section

variable (h : Visited m hotFuncs ⟨(user, direct) :: worklist, inst2op, s⟩)

include h

/-- A user that is an instruction is visited. -/
theorem Visited.instruction (hkind : m.kind user = .instruction f) :
    Visited m hotFuncs ⟨worklist, inst2op, enter hotFuncs inst2op user f direct s⟩ := by
  have hinst : (m.kind user).isOperator = false := by rw [hkind]; rfl
  -- what leaves the queue is entered
  have hleft : ∀ u d, (u, d) ∈ (user, direct) :: worklist → (u, d) ∈ worklist ∨ (u = user ∧ d = direct) :=
    fun u d hu => (mem_cons.mp hu).symm.imp_right Prod.mk.inj
  obtain ⟨hfunctions, hinsts, husers⟩ := enter_spec hotFuncs inst2op user f direct s
  have huses : m.UsesGlobal user := by
    cases direct with
    | true => exact .inl (h.direct_mem user (.head _))
    | false =>
        obtain ⟨op, hop⟩ := (h.indirect_mem user (.head _)).2
        exact .inr ⟨op, h.inst2op_mem user op hop⟩
  refine ⟨fun u hu => h.direct_mem u (.tail _ hu),
    fun u hu => h.indirect_mem u (.tail _ hu), h.inst2op_mem, fun f' u hu => ?_,
    fun f' hf' => ?_, fun f' u hu => ?_, fun u f' hu hf' hglobal => ?_, fun op hop => ?_⟩
  · obtain hold | ⟨hf, rfl, rfl⟩ := (hinsts f' u).mp hu
    · obtain ⟨hk, hhot, hglobal, hfun⟩ := h.userInsts_mem f' u hold
      exact ⟨hk, hhot, hglobal, (hfunctions f').mpr (.inl hfun)⟩
    · exact ⟨hkind, hf, huses, (hfunctions f').mpr (.inr ⟨hf, rfl⟩)⟩
  · obtain hold | ⟨hf, rfl⟩ := (hfunctions f').mp hf'
    · exact h.userFunctions_mem f' hold
    · exact hf
  · obtain hold | ⟨-, rfl, hnew⟩ := (husers f' u).mp hu
    · exact h.users_mem f' u hold
    · cases direct with
      | true =>
          obtain rfl : u = user := hnew
          exact .inl ⟨hkind, h.direct_mem u (.head _)⟩
      | false =>
          obtain ⟨hop, hdirect⟩ := h.inst2op_mem user u hnew
          exact .inr ⟨hdirect, user, hkind, hop⟩
  · obtain hmem | ⟨hui, hus⟩ := h.direct_entered u f' hu hf' hglobal
    · obtain hmem | ⟨rfl, hd⟩ := hleft u true hmem
      · exact .inl hmem
      · obtain rfl := SummaryUserKind.instruction.inj (hu.symm.trans hkind)
        exact .inr ⟨(hinsts f' u).mpr (.inr ⟨hf', rfl, rfl⟩),
          (husers f' u).mpr (.inr ⟨hf', rfl, by rw [if_pos hd.symm]⟩)⟩
    · exact .inr ⟨(hinsts f' u).mpr (.inl hui), (husers f' u).mpr (.inl hus)⟩
  · obtain hmem | hentered := h.operator_entered op hop
    · obtain hmem | ⟨rfl, -⟩ := hleft op true hmem
      · exact .inl hmem
      · rw [hop.1] at hinst
        cases hinst
    · refine .inr fun u f' hu hopu => ?_
      obtain ⟨hop2, hmem | hdone⟩ := hentered u f' hu hopu
      · obtain hmem | ⟨rfl, hd⟩ := hleft u false hmem
        · exact ⟨hop2, .inl hmem⟩
        · obtain rfl := SummaryUserKind.instruction.inj (hu.symm.trans hkind)
          refine ⟨hop2, .inr fun hhot => ⟨(hinsts f' u).mpr (.inr ⟨hhot, rfl, rfl⟩),
            (husers f' op).mpr (.inr ⟨hhot, rfl, ?_⟩)⟩⟩
          rw [← hd]
          exact hop2
      · exact ⟨hop2, .inr fun hhot => ⟨(hinsts f' u).mpr (.inl (hdone hhot).1),
          (husers f' op).mpr (.inl (hdone hhot).2)⟩⟩

omit [DecidableEq F] in
/-- A user that is a constant expression is visited. -/
theorem Visited.operator (hkind : (m.kind user).isOperator = true) :
    Visited m hotFuncs (pushInstructions m user ⟨worklist, inst2op, s⟩) := by
  obtain ⟨hsummary, hworklist, hinst2op, -⟩ := pushInstructions_spec (m := m) user ⟨worklist, inst2op, s⟩
  have hdirect : m.IsDirectOperator user := by
    refine ⟨hkind, ?_⟩
    cases direct with
    | true => exact h.direct_mem user (.head _)
    | false =>
        have hinst := SummaryUserKind.isOperator_of_isInstruction (h.indirect_mem user (.head _)).1
        rw [hkind] at hinst
        cases hinst
  have hnoInst : ∀ f, m.kind user ≠ .instruction f := fun f hf => by
    rw [hf] at hkind
    cases hkind
  have hleft : ∀ u d, u ≠ user → (u, d) ∈ (user, direct) :: worklist → (u, d) ∈ worklist :=
    fun u d hne hu => (mem_cons.mp hu).resolve_left fun heq => hne (Prod.mk.inj heq).1
  refine ⟨fun u hu => ?_, fun u hu => ?_, fun u op hop => ?_, ?_, ?_, ?_, fun u f hu hf hglobal => ?_,
    fun op hop => ?_⟩
  · obtain hu | ⟨hd, -⟩ := (hworklist _).mp hu
    · exact h.direct_mem u (.tail _ hu)
    · cases hd
  · obtain hu | ⟨-, hop, hinst⟩ := (hworklist _).mp hu
    · obtain ⟨hinst, op, hop⟩ := h.indirect_mem u (.tail _ hu)
      exact ⟨hinst, op, (hinst2op u op).mpr (.inl hop)⟩
    · exact ⟨hinst, user, (hinst2op u user).mpr (.inr ⟨rfl, hop, hinst⟩)⟩
  · obtain hop | ⟨rfl, hop, -⟩ := (hinst2op u op).mp hop
    · exact h.inst2op_mem u op hop
    · exact ⟨hop, hdirect⟩
  · rw [hsummary]
    exact h.userInsts_mem
  · rw [hsummary]
    exact h.userFunctions_mem
  · rw [hsummary]
    exact h.users_mem
  · rw [hsummary]
    refine (h.direct_entered u f hu hf hglobal).imp_left fun hmem => (hworklist _).mpr (.inl ?_)
    exact hleft u true (fun heq => hnoInst f (heq ▸ hu)) hmem
  · by_cases heq : op = user
    · subst heq
      refine .inr fun u f hu hop' => ?_
      have hinst : (m.kind u).isInstruction = true := by rw [hu]; rfl
      exact ⟨(hinst2op u op).mpr (.inr ⟨rfl, hop', hinst⟩),
        .inl ((hworklist (u, false)).mpr (.inr ⟨rfl, hop', hinst⟩))⟩
    · obtain hmem | hentered := h.operator_entered op hop
      · exact .inl ((hworklist _).mpr (.inl (hleft op true heq hmem)))
      · refine .inr fun u f hu hop' => ?_
        obtain ⟨hop2, hrest⟩ := hentered u f hu hop'
        rw [hsummary]
        refine ⟨(hinst2op u op).mpr (.inl hop2), hrest.imp_left fun hmem => ?_⟩
        exact (hworklist _).mpr (.inl (hleft u false (fun heq => hnoInst f (heq ▸ hu)) hmem))

omit [DecidableEq V] [DecidableEq F] in
theorem Visited.otherUser
    (hkind : m.kind user = .otherUser) : Visited m hotFuncs ⟨worklist, inst2op, s⟩ := by
  have hleft : ∀ u d, m.kind u ≠ .otherUser → (u, d) ∈ (user, direct) :: worklist →
      (u, d) ∈ worklist := fun u d hne hu =>
    (mem_cons.mp hu).resolve_left fun heq => hne ((Prod.mk.inj heq).1 ▸ hkind)
  refine ⟨fun u hu => h.direct_mem u (.tail _ hu),
    fun u hu => h.indirect_mem u (.tail _ hu), h.inst2op_mem, h.userInsts_mem,
    h.userFunctions_mem, h.users_mem, fun u f hu hf hglobal => ?_, fun op hop => ?_⟩
  · exact (h.direct_entered u f hu hf hglobal).imp_left (hleft u true (by rw [hu]; exact nofun))
  · refine (h.operator_entered op hop).imp (hleft op true fun heq => ?_) fun hentered u f hu hop' => ?_
    · have hoperator := hop.1
      rw [heq] at hoperator
      cases hoperator
    · obtain ⟨hop2, hrest⟩ := hentered u f hu hop'
      exact ⟨hop2, hrest.imp_left (hleft u false (by rw [hu]; exact nofun))⟩

end

/-- The body takes the first user from the queue and keeps what is known. -/
theorem Visited.visit {s : State V F} (h : Visited m hotFuncs s) (hne : s.worklist ≠ []) :
    ∃ s', visit m hotFuncs s = some s' ∧ Visited m hotFuncs s' ∧
      (s'.worklist.map fun p => weight m p.1).sum < (s.worklist.map fun p => weight m p.1).sum := by
  obtain ⟨worklist, inst2op, summary⟩ := s
  cases worklist with
  | nil => exact absurd rfl hne
  | cons p worklist =>
      obtain ⟨user, direct⟩ := p
      have hpos : 0 < weight m user := by
        unfold weight
        split <;> omega
      have hlt : (worklist.map fun p => weight m p.1).sum <
          (((user, direct) :: worklist).map fun p => weight m p.1).sum := by
        rw [map_cons, sum_cons]
        exact Nat.lt_add_of_pos_left hpos
      have hop : (m.kind user).isOperator = true →
          (((pushInstructions m user ⟨worklist, inst2op, summary⟩).worklist).map fun p => weight m p.1).sum <
            (((user, direct) :: worklist).map fun p => weight m p.1).sum := fun hkind => by
        refine (pushInstructions_spec user ⟨worklist, inst2op, summary⟩).2.2.2.trans_lt ?_
        have hweight : weight m user = (m.users user).length + 1 := if_pos hkind
        simp only [map_cons, sum_cons, hweight]
        omega
      cases hkind : m.kind user with
      | instruction f =>
          exact ⟨⟨worklist, inst2op, enter hotFuncs inst2op user f direct summary⟩,
            by simp only [UserSummary.visit, hkind], h.instruction hkind, hlt⟩
      | bitCastOperator =>
          have hkind' : (m.kind user).isOperator = true := by rw [hkind]; rfl
          exact ⟨_, by simp only [UserSummary.visit, hkind], h.operator hkind', hop hkind'⟩
      | otherOperator =>
          have hkind' : (m.kind user).isOperator = true := by rw [hkind]; rfl
          exact ⟨_, by simp only [UserSummary.visit, hkind], h.operator hkind', hop hkind'⟩
      | otherUser =>
          exact ⟨⟨worklist, inst2op, summary⟩, by simp only [UserSummary.visit, hkind],
            h.otherUser hkind, hlt⟩

/-- What the summary has of the functions that are reached. -/
structure Summarizes (m : GlobalModule V F) (s : UserSummary V F) : Prop where
  userInsts : ∀ u f, u ∈ s.userInsts f ↔ m.kind u = .instruction f ∧ m.Reachable f ∧ m.UsesGlobal u
  userFunctions : ∀ u f, u ∈ s.userInsts f → f ∈ s.userFunctions
  users : ∀ u f, u ∈ s.users f → m.globalVar ∈ m.operands u
  direct_mem : ∀ u f, m.kind u = .instruction f → m.Reachable f → m.globalVar ∈ m.operands u →
    u ∈ s.users f
  operator_mem : ∀ u f op, m.kind u = .instruction f → m.Reachable f → m.IsDirectOperator op →
    op ∈ m.operands u → op ∈ s.users f

omit [DecidableEq V] [DecidableEq F] in
/-- With the worklist empty the summary is complete. -/
theorem Visited.summarizes {s : State V F} (h : Visited m hotFuncs s) (hempty : s.worklist = [])
    (hhot : ∀ f, f ∈ hotFuncs ↔ m.Reachable f) : Summarizes m s.summary := by
  have hnone : ∀ p, p ∉ s.worklist := fun p hp => not_mem_nil (hempty ▸ hp)
  have hdirect : ∀ u f, m.kind u = .instruction f → m.Reachable f → m.globalVar ∈ m.operands u →
      u ∈ s.summary.userInsts f ∧ u ∈ s.summary.users f := fun u f hu hf hglobal =>
    (h.direct_entered u f hu ((hhot f).mpr hf) hglobal).resolve_left (hnone _)
  have hoperator : ∀ u f op, m.kind u = .instruction f → m.Reachable f → m.IsDirectOperator op →
      op ∈ m.operands u → u ∈ s.summary.userInsts f ∧ op ∈ s.summary.users f :=
    fun u f op hu hf hop hmem =>
      (((h.operator_entered op hop).resolve_left (hnone _) u f hu hmem).2.resolve_left (hnone _))
        ((hhot f).mpr hf)
  refine ⟨fun u f => ⟨fun hu => ?_, ?_⟩, fun u f hu => (h.userInsts_mem f u hu).2.2.2,
    fun u f hu => ?_, fun u f hu hf hglobal => (hdirect u f hu hf hglobal).2,
    fun u f op hu hf hop hmem => (hoperator u f op hu hf hop hmem).2⟩
  · obtain ⟨hkind, hf, huses, -⟩ := h.userInsts_mem f u hu
    exact ⟨hkind, (hhot f).mp hf, huses⟩
  · rintro ⟨hkind, hf, hglobal | ⟨op, hmem, hop⟩⟩
    · exact (hdirect u f hkind hf hglobal).1
    · exact (hoperator u f op hkind hf hop hmem).1
  · obtain ⟨-, hglobal⟩ | ⟨hop, -⟩ := h.users_mem f u hu
    · exact hglobal
    · exact hop.2

/-- The search ends with the summary of the global. -/
theorem new_spec (m : GlobalModule V F) :
    ∃ N, ∀ fuel ≥ N, ∃ s, new m fuel = some s ∧ Summarizes m s := by
  obtain ⟨N, hN⟩ := hotFunctions_spec m
  refine ⟨max N (((m.users m.globalVar).map fun user => (user, true)).map
    fun p => weight m p.1).sum, fun fuel hfuel => ?_⟩
  obtain ⟨hotFuncs, hhotFuncs, hhot⟩ := hN fuel (le_of_max_le_left hfuel)
  have hbody : ∀ s : State V F, Visited m hotFuncs s → (!s.worklist.isEmpty) = true →
      ∃ s', UserSummary.visit m hotFuncs s = some s' ∧ Visited m hotFuncs s' ∧
        (s'.worklist.map fun p => weight m p.1).sum < (s.worklist.map fun p => weight m p.1).sum := by
    intro s hvisited hcond
    refine hvisited.visit fun hnil => ?_
    rw [hnil] at hcond
    cases hcond
  obtain ⟨s, hs, hvisited, hend⟩ := loopM_rule (Visited m hotFuncs)
    (fun s => (s.worklist.map fun p => weight m p.1).sum) hbody fuel _ visited_new
    (le_of_max_le_right hfuel)
  have hempty : s.worklist = [] := isEmpty_iff.mp ((Bool.not_eq_false' _).mp hend)
  refine ⟨s.summary, ?_, hvisited.summarizes hempty hhot⟩
  rw [new, hhotFuncs]
  exact Option.map_eq_some_iff.mpr ⟨s, hs, rfl⟩

end Construction

end UserSummary

end Noelle
