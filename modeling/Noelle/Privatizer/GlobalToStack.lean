import Noelle.Privatizer.UserSummary

/-!
# Privatizer.GlobalToStack

`getPrivatizableFunctions` and `transformG2S`: a global variable becomes one stack object for each function
that uses it.

`userSummary_covers_iff`: all users are found exactly if no instruction refers to the variable through
nested constant expressions only, and after the rewriting no instruction refers to it exactly if none has
such an operand at all.
-/

namespace Noelle

open List Option

/-- What the analyses say of the variable and of the functions that use it. -/
structure GlobalAnalyses (F : Type) where
  isConstant : Bool
  initializedBeforeAllUse : F → Bool
  notPrivatizable : F → Bool
  isDestOfMemcpy : F → Bool
  stackMemoryUsage : F → BitVec 64
  allocationSize : BitVec 64

/-- An operand, after the variable has been replaced. -/
inductive PrivatizedOperand (V F : Type) where
  | value (v : V)
  | allocaInst (f : F)
  | bitCastInst (f : F) (bitCast : V)
  deriving DecidableEq

variable {V F : Type} [DecidableEq V] [DecidableEq F]

namespace UserSummary

variable (m : GlobalModule V F) (a : GlobalAnalyses F)

def mayInvoke (fuel : Nat) (caller callee : F) : Option Bool :=
  (functionsInvokedFrom m fuel caller).map fun invoked => decide (callee ∈ invoked)

/-- `getPrivatizableFunctions`; without a user the assertion fails. -/
def getPrivatizableFunctions (fuel : Nat) : Option (PtrSet F) :=
  if a.isConstant then some ∅
  else do
    let summary ← new m fuel
    let privatizable := summary.userFunctions
    match privatizable.elems with
    | [] => none
    | [currentF] =>
        if ← mayInvoke m fuel currentF currentF then return ∅
        else if !a.initializedBeforeAllUse currentF then return ∅
        else if a.notPrivatizable currentF || a.isDestOfMemcpy currentF then return ∅
        else return privatizable
    | functions =>
        let invoked ← functions.anyM fun funcA => functions.anyM (mayInvoke m fuel funcA)
        if invoked then return ∅
        else if functions.any fun currentF => !a.initializedBeforeAllUse currentF then return ∅
        else if functions.any fun currentF => a.notPrivatizable currentF || a.isDestOfMemcpy currentF then
          return ∅
        else return privatizable

/-! ## The rewriting -/

/-- `instUsers` and `user2insts` of a function. -/
structure UsersToReplace (V : Type) where
  instUsers : PtrSet V
  user2insts : List (V × List V)

/-- The body of the loop over the users of a function; `none` is the unexpected user. -/
def collectUser (currentF : F) (uses : UsersToReplace V) (user : V) : Option (UsersToReplace V) :=
  match m.kind user with
  | .instruction _ => some { uses with instUsers := uses.instUsers.insert user }
  | .bitCastOperator =>
      if (m.users user).all fun userOfBitCast => (m.kind userOfBitCast).isInstruction then
        some { uses with
          user2insts := uses.user2insts ++
            [(user, (m.users user).filter fun inst => m.kind inst = .instruction currentF)] }
      else none
  | .otherOperator | .otherUser => none

/-- An operand of an instruction and what it becomes. -/
structure OperandReplacement (V F : Type) where
  inst : V
  operand : V
  replacement : PrivatizedOperand V F

def replaceUsesOfWith (operands : V → List (PrivatizedOperand V F)) (r : OperandReplacement V F) :
    V → List (PrivatizedOperand V F) :=
  Function.update operands r.inst
    ((operands r.inst).map fun x => if x = .value r.operand then r.replacement else x)

def replacements (currentF : F) (uses : UsersToReplace V) : List (OperandReplacement V F) :=
  uses.instUsers.elems.map (fun inst => ⟨inst, m.globalVar, .allocaInst currentF⟩) ++
    uses.user2insts.flatMap fun p =>
      p.2.map fun inst => ⟨inst, p.1, .bitCastInst currentF p.1⟩

/-- The first loop of `transformG2S` for one function; the outer `none` is a failed assertion. -/
def usersOf (fuel : Nat) (currentF : F) : Option (Option (UsersToReplace V)) :=
  if (stackCanHoldNewAlloca (a.stackMemoryUsage currentF) a.allocationSize).1 then do
    let summary ← new m fuel
    let usersToReplace := summary.users currentF
    if usersToReplace.elems.isEmpty then none
    else return usersToReplace.elems.foldlM (collectUser m currentF) ⟨∅, []⟩
  else some none

/-- The first loop of `transformG2S`; the inner `none` is a function that cannot be rewritten. -/
def collectUses (fuel : Nat) : List F → Option (Option (List (F × UsersToReplace V)))
  | [] => some (some [])
  | currentF :: privatizable => do
      match ← usersOf m a fuel currentF with
      | none => return none
      | some uses => (collectUses fuel privatizable).map (Option.map ((currentF, uses) :: ·))

/-- `transformG2S`: whether the module has changed, and the operands after it. -/
def transformG2S (fuel : Nat) (privatizable : PtrSet F) :
    Option (Bool × (V → List (PrivatizedOperand V F))) := do
  let operands := fun user => (m.operands user).map .value
  match ← collectUses m a fuel privatizable.elems with
  | none => return (false, operands)
  | some uses =>
      return (!uses.isEmpty, (uses.flatMap fun p => replacements m p.1 p.2).foldl replaceUsesOfWith operands)

/-! ## What is replaced -/

variable {m a}

omit [DecidableEq V] [DecidableEq F] in
theorem value_mem_map {l : List V} {v : V} :
    (.value v : PrivatizedOperand V F) ∈ l.map .value ↔ v ∈ l := by
  simp

variable {operands : V → List (PrivatizedOperand V F)} {f : F} {uses : UsersToReplace V}
  {s : UserSummary V F} {fuel : Nat} {privatizable : PtrSet F}

theorem value_mem_replaceUsesOfWith {r : OperandReplacement V F}
    (hr : ∀ w, r.replacement ≠ .value w) (u v : V) :
    .value v ∈ replaceUsesOfWith operands r u ↔
      .value v ∈ operands u ∧ ¬ (r.inst = u ∧ r.operand = v) := by
  unfold replaceUsesOfWith
  by_cases hu : u = r.inst
  · subst hu
    rw [Function.update_self, List.mem_map]
    constructor
    · intro ⟨x, hx, heq⟩
      by_cases hval : x = .value r.operand
      · rw [if_pos hval] at heq
        exact absurd heq (hr v)
      · rw [if_neg hval] at heq
        subst heq
        exact ⟨hx, fun h => hval (congrArg _ h.2.symm)⟩
    · intro ⟨hv, hne⟩
      exact ⟨_, hv, if_neg fun heq => hne ⟨rfl, (PrivatizedOperand.value.inj heq).symm⟩⟩
  · rw [Function.update_of_ne hu]
    exact ⟨fun h => ⟨h, fun h' => hu h'.1.symm⟩, And.left⟩

theorem value_mem_replaceAll : ∀ {rs : List (OperandReplacement V F)}
    {operands : V → List (PrivatizedOperand V F)} (_ : ∀ r ∈ rs, ∀ w, r.replacement ≠ .value w) (u v : V),
    .value v ∈ rs.foldl replaceUsesOfWith operands u ↔
      .value v ∈ operands u ∧ ∀ r ∈ rs, ¬ (r.inst = u ∧ r.operand = v)
  | [], operands, _, u, v => by simp
  | r :: rs, operands, hrs, u, v => by
      rw [foldl_cons, value_mem_replaceAll (fun r' hr' => hrs r' (mem_cons_of_mem r hr')),
        value_mem_replaceUsesOfWith (hrs r (.head _)), forall_mem_cons, and_assoc]

omit [DecidableEq V] [DecidableEq F] in
theorem replacement_ne_value :
    ∀ r ∈ replacements m f uses, ∀ w, r.replacement ≠ .value w := by
  intro r hr w
  obtain hr | hr := mem_append.mp hr
  · obtain ⟨inst, -, rfl⟩ := mem_map.mp hr
    intro heq
    cases heq
  · obtain ⟨p, -, hr⟩ := mem_flatMap.mp hr
    obtain ⟨inst, -, rfl⟩ := mem_map.mp hr
    intro heq
    cases heq

/-- What the loop over the users has collected. -/
structure Collected (m : GlobalModule V F) (f : F) (users : List V) (uses uses' : UsersToReplace V) :
    Prop where
  instUsers_mono : ∀ u ∈ uses.instUsers, u ∈ uses'.instUsers
  user2insts_mono : ∀ p ∈ uses.user2insts, p ∈ uses'.user2insts
  user2insts_mem : ∀ p ∈ uses'.user2insts, p ∈ uses.user2insts ∨
    (p.1 ∈ users ∧ (m.kind p.1).isOperator = true)
  instruction_mem : ∀ u ∈ users, (m.kind u).isInstruction = true → u ∈ uses'.instUsers
  operator_mem : ∀ op ∈ users, (m.kind op).isOperator = true →
    (op, (m.users op).filter fun inst => m.kind inst = .instruction f) ∈ uses'.user2insts

/-- One more user is collected. -/
theorem collected_collectUser {user : V} {uses' : UsersToReplace V}
    (h : collectUser m f uses user = some uses') : Collected m f [user] uses uses' := by
  unfold collectUser at h
  cases hkind : m.kind user with
  | instruction f' =>
      simp only [hkind, some.injEq] at h
      subst h
      refine ⟨fun u hu => PtrSet.mem_insert.mpr (.inr hu), fun p hp => hp, fun p hp => .inl hp,
        fun u hu _ => PtrSet.mem_insert.mpr (.inl (mem_singleton.mp hu)), fun op hop hk => ?_⟩
      rw [mem_singleton.mp hop, hkind] at hk
      cases hk
  | bitCastOperator =>
      simp only [hkind] at h
      obtain ⟨-, h⟩ := ite_none_right_eq_some.mp h
      cases h
      refine ⟨fun u hu => hu, fun p hp => mem_append_left _ hp, fun p hp => ?_, fun u hu hk => ?_,
        fun op hop _ => ?_⟩
      · refine (mem_append.mp hp).imp_right fun hp => ?_
        rw [mem_singleton.mp hp]
        exact ⟨mem_singleton_self user, by rw [hkind]; rfl⟩
      · rw [mem_singleton.mp hu, hkind] at hk
        cases hk
      · rw [mem_singleton.mp hop]
        exact mem_append_right _ (mem_singleton_self _)
  | otherOperator =>
      simp only [hkind] at h
      cases h
  | otherUser =>
      simp only [hkind] at h
      cases h

/-- The users are all collected. -/
theorem collected_foldlM : ∀ {users : List V} {uses uses' : UsersToReplace V},
    users.foldlM (collectUser m f) uses = some uses' → Collected m f users uses uses'
  | [], uses, uses', h => by
      cases h
      exact ⟨fun u hu => hu, fun p hp => hp, fun p hp => .inl hp,
        nofun, nofun⟩
  | user :: users, uses, uses', h => by
      rw [foldlM_cons] at h
      obtain ⟨uses₁, h₁, h₂⟩ := bind_eq_some_iff.mp h
      have hfirst := collected_collectUser h₁
      have hrest := collected_foldlM h₂
      refine ⟨fun u hu => hrest.instUsers_mono u (hfirst.instUsers_mono u hu),
        fun p hp => hrest.user2insts_mono p (hfirst.user2insts_mono p hp), fun p hp => ?_,
        fun u hu hk => ?_, fun op hop hk => ?_⟩
      · obtain hp | ⟨hp, hk⟩ := hrest.user2insts_mem p hp
        · refine (hfirst.user2insts_mem p hp).imp_right fun ⟨hp, hk⟩ => ⟨?_, hk⟩
          exact mem_cons.mpr (.inl (mem_singleton.mp hp))
        · exact .inr ⟨.tail user hp, hk⟩
      · obtain rfl | hu := mem_cons.mp hu
        · exact hrest.instUsers_mono u (hfirst.instruction_mem u (mem_singleton_self u) hk)
        · exact hrest.instruction_mem u hu hk
      · obtain rfl | hop := mem_cons.mp hop
        · exact hrest.user2insts_mono _ (hfirst.operator_mem op (mem_singleton_self op) hk)
        · exact hrest.operator_mem op hop hk

/-- The instructions of a function lose the variable and the operators that use it, and nothing else. -/
theorem usersOf_spec (hs : Summarizes m s) (hnew : new m fuel = some s)
    (h : usersOf m a fuel f = some (some uses)) :
    (∀ r ∈ replacements m f uses, r.operand = m.globalVar ∨ m.IsDirectOperator r.operand) ∧
      ∀ u, m.kind u = .instruction f → m.Reachable f → ∀ v ∈ m.operands u,
        v = m.globalVar ∨ m.IsDirectOperator v →
          ∃ r ∈ replacements m f uses, r.inst = u ∧ r.operand = v := by
  unfold usersOf at h
  split_ifs at h with hstack
  · rw [hnew] at h
    simp only [Option.bind_eq_bind, Option.bind_some, Option.pure_def] at h
    split_ifs at h with hempty
    have hcollected := collected_foldlM (some.inj h)
    refine ⟨fun r hr => ?_, fun u hu hf v hv hwhat => ?_⟩
    · obtain hr | hr := mem_append.mp hr
      · obtain ⟨inst, -, rfl⟩ := mem_map.mp hr
        exact .inl rfl
      · obtain ⟨p, hp, hr⟩ := mem_flatMap.mp hr
        obtain ⟨inst, -, rfl⟩ := mem_map.mp hr
        obtain ⟨hp, hk⟩ := (hcollected.user2insts_mem p hp).resolve_left not_mem_nil
        exact .inr ⟨hk, hs.users _ f hp⟩
    · obtain rfl | hop := hwhat
      · have hmem := hcollected.instruction_mem u (hs.direct_mem u f hu hf hv) (by rw [hu]; rfl)
        exact ⟨_, mem_append_left _ (mem_map_of_mem hmem), rfl, rfl⟩
      · have hmem := hcollected.operator_mem v (hs.operator_mem u f v hu hf hop hv) hop.1
        have huser : u ∈ (m.users v).filter fun inst => m.kind inst = .instruction f :=
          mem_filter.mpr ⟨(m.mem_users u v).mpr hv, decide_eq_true hu⟩
        exact ⟨_, mem_append_right _ (mem_flatMap.mpr ⟨_, hmem, mem_map_of_mem huser⟩),
          rfl, rfl⟩
  · cases some.inj h

/-- The users are collected for every function. -/
theorem collectUses_spec : ∀ {functions : List F} {uses : List (F × UsersToReplace V)},
    collectUses m a fuel functions = some (some uses) →
      (∀ p ∈ uses, usersOf m a fuel p.1 = some (some p.2)) ∧
        ∀ f ∈ functions, ∃ uses', (f, uses') ∈ uses
  | [], uses, h => by
      obtain rfl := some.inj (some.inj h)
      exact ⟨nofun, nofun⟩
  | f :: functions, uses, h => by
      rw [collectUses] at h
      obtain ⟨first, hfirst, h⟩ := bind_eq_some_iff.mp h
      cases first with
      | none => cases some.inj h
      | some first =>
          obtain ⟨rest, hrest, h⟩ := map_eq_some_iff.mp h
          obtain ⟨rest, rfl, rfl⟩ := map_eq_some_iff.mp h
          obtain ⟨hall, hcover⟩ := collectUses_spec hrest
          refine ⟨fun p hp => ?_, fun f' hf' => ?_⟩
          · obtain rfl | hp := mem_cons.mp hp
            · exact hfirst
            · exact hall p hp
          · obtain rfl | hf' := mem_cons.mp hf'
            · exact ⟨first, .head _⟩
            · obtain ⟨uses', huses'⟩ := hcover f' hf'
              exact ⟨uses', .tail _ huses'⟩

/-- Either no function is privatizable or all user functions are. -/
theorem getPrivatizableFunctions_eq (hnew : new m fuel = some s)
    (h : getPrivatizableFunctions m a fuel = some privatizable) :
    privatizable = ∅ ∨ privatizable = s.userFunctions := by
  unfold getPrivatizableFunctions at h
  split_ifs at h with hconst
  · exact .inl (some.inj h).symm
  · rw [hnew] at h
    simp only [Option.bind_eq_bind, Option.bind_some, Option.pure_def] at h
    cases helems : s.userFunctions.elems with
    | nil =>
        simp only [helems] at h
        cases h
    | cons f rest =>
        cases rest with
        | nil =>
            simp only [helems] at h
            obtain ⟨invoked, -, h⟩ := bind_eq_some_iff.mp h
            split_ifs at h
            · exact .inl (some.inj h).symm
            · exact .inl (some.inj h).symm
            · exact .inl (some.inj h).symm
            · exact .inr (some.inj h).symm
        | cons f' rest =>
            simp only [helems] at h
            obtain ⟨invoked, -, h⟩ := bind_eq_some_iff.mp h
            split_ifs at h
            · exact .inl (some.inj h).symm
            · exact .inl (some.inj h).symm
            · exact .inl (some.inj h).symm
            · exact .inr (some.inj h).symm

/-- After the rewriting an instruction has those operands that are neither the variable nor an operator
that uses it. -/
theorem value_mem_transformG2S (hs : Summarizes m s) (hnew : new m fuel = some s)
    (hfunctions : getPrivatizableFunctions m a fuel = some privatizable)
    (h : transformG2S m a fuel privatizable = some (true, operands)) {u : V}
    (hu : m.kind u = .instruction f) (hf : m.Reachable f) (v : V) :
    .value v ∈ operands u ↔ v ∈ m.operands u ∧ v ≠ m.globalVar ∧ ¬ m.IsDirectOperator v := by
  unfold transformG2S at h
  obtain ⟨result, hresult, h⟩ := bind_eq_some_iff.mp h
  cases result with
  | none => cases (Prod.mk.inj (some.inj h)).1
  | some uses =>
      obtain ⟨hchanged, rfl⟩ := Prod.mk.inj (some.inj h)
      obtain ⟨hall, hcover⟩ := collectUses_spec hresult
      have hvalues : ∀ r ∈ uses.flatMap fun p => replacements m p.1 p.2, ∀ w, r.replacement ≠ .value w := by
        intro r hr
        obtain ⟨p, -, hr⟩ := mem_flatMap.mp hr
        exact replacement_ne_value r hr
      rw [value_mem_replaceAll hvalues, value_mem_map]
      refine and_congr_right fun hv => ⟨fun hkept => ?_, fun ⟨hne, hnot⟩ r hr ⟨_, hoperand⟩ => ?_⟩
      · -- the function of an instruction that uses the variable is among the privatizable ones
        have hmem : v = m.globalVar ∨ m.IsDirectOperator v → f ∈ privatizable := fun hwhat => by
          have huses : u ∈ s.userInsts f := (hs.userInsts u f).mpr ⟨hu, hf, hwhat.imp
            (fun heq => by rwa [heq] at hv) fun hop => ⟨v, hv, hop⟩⟩
          obtain rfl | rfl := getPrivatizableFunctions_eq hnew hfunctions
          · obtain rfl : uses = [] := (some.inj (some.inj hresult)).symm
            cases hchanged
          · exact hs.userFunctions u f huses
        have hcontra : ¬ (v = m.globalVar ∨ m.IsDirectOperator v) := fun hwhat => by
          obtain ⟨uses', hmem'⟩ := hcover f (hmem hwhat)
          obtain ⟨r, hr, hinst, hoperand⟩ :=
            (usersOf_spec hs hnew (hall _ hmem')).2 u hu hf v hv hwhat
          exact hkept r (mem_flatMap.mpr ⟨_, hmem', hr⟩) ⟨hinst, hoperand⟩
        exact not_or.mp hcontra
      · obtain ⟨p, hp, hr⟩ := mem_flatMap.mp hr
        exact ((usersOf_spec hs hnew (hall p hp)).1 r hr).elim (fun heq => hne (hoperand ▸ heq))
          fun hop => hnot (hoperand ▸ hop)

/-! ## All users -/

/-- All instructions that refer to the variable are among the users exactly if each uses it, or an operator
that does.  After the rewriting none refers to it exactly if none has it below the operands of an operand. -/
theorem userSummary_covers_iff (m : GlobalModule V F) :
    ∃ N, ∀ fuel ≥ N, ∃ s, new m fuel = some s ∧
      ((∀ u f, m.kind u = .instruction f → m.Reachable f → m.RefersTo u →
          u ∈ s.userInsts f ∧ f ∈ s.userFunctions) ↔
        ∀ u f, m.kind u = .instruction f → m.Reachable f → m.RefersTo u → m.UsesGlobal u) ∧
      ∀ a privatizable operands, getPrivatizableFunctions m a fuel = some privatizable →
        transformG2S m a fuel privatizable = some (true, operands) →
          ((∀ u f, m.kind u = .instruction f → m.Reachable f → ∀ v, .value v ∈ operands u →
              v ≠ m.globalVar ∧ ¬ ((m.kind v).isOperator = true ∧ m.RefersTo v)) ↔
            ∀ u f, m.kind u = .instruction f → m.Reachable f → ∀ v ∈ m.operands u,
              ¬ m.IsNestedOperand v) := by
  obtain ⟨N, hN⟩ := new_spec m
  refine ⟨N, fun fuel hfuel => ?_⟩
  obtain ⟨s, hnew, hs⟩ := hN fuel hfuel
  refine ⟨s, hnew, ⟨fun hcovers u f hu hf href => ?_, fun huses u f hu hf href => ?_⟩,
    fun a privatizable operands hfunctions htransform => ⟨fun hkeeps u f hu hf v hv hnested => ?_,
      fun hnone u f hu hf v hv => ?_⟩⟩
  · exact ((hs.userInsts u f).mp (hcovers u f hu hf href).1).2.2
  · have hmem := (hs.userInsts u f).mpr ⟨hu, hf, huses u f hu hf href⟩
    exact ⟨hmem, hs.userFunctions u f hmem⟩
  · -- a nested operand is not replaced
    have hne : v ≠ m.globalVar := fun heq => by
      have hkind := hnested.1
      rw [heq, m.kind_globalVar] at hkind
      cases hkind
    have hkept := (value_mem_transformG2S hs hnew hfunctions htransform hu hf v).mpr
      ⟨hv, hne, fun hop => hnested.2.2 hop.2⟩
    exact (hkeeps u f hu hf v hkept).2 ⟨hnested.1, hnested.2.1⟩
  · obtain ⟨hmem, hne, hnot⟩ := (value_mem_transformG2S hs hnew hfunctions htransform hu hf v).mp hv
    exact ⟨hne, fun ⟨hkind, href⟩ =>
      hnone u f hu hf v hmem ⟨hkind, href, fun hglobal => hnot ⟨hkind, hglobal⟩⟩⟩

/-- `store i64 1, i64* @g`, and a load of the high byte of `@g` through a `getelementptr` of a `bitcast`. -/
def globalOfNestedUse : GlobalModule (Fin 5) Unit where
  globalVar := 0
  kind v := match v with
    | 0 => .otherUser
    | 2 => .bitCastOperator
    | 3 => .otherOperator
    | _ => .instruction ()
  kind_globalVar := rfl
  operands v := match v with
    | 0 => []
    | 1 => [0]
    | 2 => [0]
    | 3 => [2]
    | 4 => [3]
  users v := match v with
    | 0 => [1, 2]
    | 2 => [3]
    | 3 => [4]
    | _ => []
  mem_users := by decide
  entryFunction := ()
  functions := [()]
  callees _ := []
  entryFunction_mem := mem_singleton_self _
  callees_mem _ _ _ h := nomatch h

def analysesOfNestedUse : GlobalAnalyses Unit where
  isConstant := false
  initializedBeforeAllUse _ := true
  notPrivatizable _ := false
  isDestOfMemcpy _ := false
  stackMemoryUsage _ := 0
  allocationSize := 8

/-- The load is no user, and it keeps the variable when the store goes to the stack. -/
theorem not_covers_nestedUse : ∃ s operands,
    new globalOfNestedUse 9 = some s ∧
      getPrivatizableFunctions globalOfNestedUse analysesOfNestedUse 9 = some s.userFunctions ∧
      transformG2S globalOfNestedUse analysesOfNestedUse 9 s.userFunctions = some (true, operands) ∧
      globalOfNestedUse.kind 4 = .instruction () ∧ globalOfNestedUse.Reachable () ∧
      globalOfNestedUse.RefersTo 4 ∧ 4 ∉ s.userInsts () ∧
      operands 1 = [.allocaInst ()] ∧ operands 4 = [.value 3] ∧
      (globalOfNestedUse.kind 3).isOperator = true ∧ globalOfNestedUse.RefersTo 3 := by
  have hbitCast : globalOfNestedUse.RefersTo 2 := .direct (.head _)
  have hgep : globalOfNestedUse.RefersTo 3 := .nested (.head _) rfl hbitCast
  exact ⟨_, _, rfl, rfl, rfl, rfl, .refl, .nested (.head _) rfl hgep, by decide, rfl, rfl, rfl,
    hgep⟩

end UserSummary

end Noelle
