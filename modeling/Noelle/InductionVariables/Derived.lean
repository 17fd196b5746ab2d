import Mathlib.Order.FixedPoints
import Mathlib.Order.CompletePartialOrder
import Noelle.Lib.Search

/-!
# InductionVariables.Derived

The instructions of an induction variable, and those that are derived from it.

`checkIfDerived` is a depth-first search through the operands of an instruction.  It remembers what it has
checked, and answers no for an instruction that is still being checked.

`derivedSCEVInstructions_eq_least`: whatever the order of the users, the operands and the instructions, the
derived instructions are the least set that the rule of the search defines.
-/

namespace Noelle

open Relation PtrSet

/-- A loop with the SCC of an induction variable. -/
structure IVLoop (V : Type) where
  values : List V
  mem_values : ∀ v, v ∈ values
  isInstruction : V → Bool
  /-- `LoopStructure::isIncluded`. -/
  isIncluded : V → Bool
  isConstantInt : V → Bool
  /-- The instructions of the loop that `InvariantManager` has found invariant. -/
  invariants : V → Bool
  isCastInst : V → Bool
  isSCEVable : V → Bool
  /-- `getSCEV` is a cast, n-ary or unsigned-division expression. -/
  isDerivableSCEV : V → Bool
  operands : V → List V
  users : V → List V
  loopEntryPHI : V
  /-- The variable and control dependences of the loop. -/
  dependence : V → V → Prop
  /-- The sources of the data dependences of a node that are not memory dependences. -/
  incomingData : V → List V
  isInternal : V → Bool
  isInstruction_of_isIncluded : ∀ v, isIncluded v = true → isInstruction v = true
  mem_users : ∀ u v, u ∈ users v ↔ v ∈ operands u
  castInst_operands : ∀ v, isCastInst v = true → ∃ x, operands v = [x]
  incomingData_dependence : ∀ v, ∀ s ∈ incomingData v, dependence s v
  operand_incomingData : ∀ v, isIncluded v = true → ∀ s ∈ operands v, isIncluded s = true →
    s ∈ incomingData v
  isInternal_iff : ∀ v, isInternal v = true ↔
    ReflTransGen dependence v loopEntryPHI ∧ ReflTransGen dependence loopEntryPHI v

namespace IVLoop

variable {V : Type} (l : IVLoop V)

/-- `InvariantManager::isLoopInvariant`. -/
def isLoopInvariant (v : V) : Bool :=
  if !l.isInstruction v then true
  else if !l.isIncluded v then true
  else l.invariants v

variable [DecidableEq V]

/-! ## The instructions of the induction variable -/

/-- What the traversal goes on with. -/
def intermediateValues (v : V) : Option (List V) :=
  some (if l.isIncluded v then (l.incomingData v).filter l.isInternal else [])

/-- `traverseCycleThroughLoopEntryPHIToGetAllIVInstructions`. -/
def getAllInstructions (fuel : Nat) : Option (PtrSet V) :=
  (searchQueue l.intermediateValues fuel [l.loopEntryPHI]).map fun valuesVisited =>
    let allInstructions := valuesVisited.filter l.isIncluded
    allInstructions.insertAll (allInstructions.elems.flatMap fun intermediateValue =>
      (l.users intermediateValue).filter fun user => l.isCastInst user && l.isIncluded user)

/-! ## The derived instructions -/

/-- The derived instructions and those that have been checked. -/
structure DerivedSearch (V : Type) where
  derivedSCEVInstructions : PtrSet V
  checked : PtrSet V

section Search

variable (allInstructions : PtrSet V)

/-- The loop over the operands: `none` inside is an operand that must not be used, and otherwise the answer is
whether an instruction of the induction variable is used. -/
def checkOperands (check : V → DerivedSearch V → Option (Bool × DerivedSearch V)) :
    List V → Bool → DerivedSearch V → Option (Option Bool × DerivedSearch V)
  | [], uses, s => some (some uses, s)
  | usedValue :: operands, uses, s =>
      if l.isConstantInt usedValue then checkOperands check operands uses s
      else if l.isLoopInvariant usedValue then checkOperands check operands uses s
      else if l.isInstruction usedValue then
        if !l.isIncluded usedValue then checkOperands check operands uses s
        else do
          let (isDerivedUse, s) ← check usedValue s
          if decide (usedValue ∈ allInstructions) || isDerivedUse then checkOperands check operands true s
          else return (none, s)
      else some (none, s)

def checkIfDerived : Nat → V → DerivedSearch V → Option (Bool × DerivedSearch V)
  | 0, _, _ => none
  | fuel + 1, I, s =>
      if I ∈ s.derivedSCEVInstructions then some (true, s)
      else if I ∈ s.checked then some (false, s)
      else
        let s := { s with checked := s.checked.insert I }
        if !l.isSCEVable I then some (false, s)
        else if !l.isIncluded I then some (false, s)
        else if !l.isDerivableSCEV I then some (false, s)
        else do
          let (uses, s) ← l.checkOperands allInstructions (checkIfDerived fuel) (l.operands I) false s
          if uses = some true then
            return (true, { s with derivedSCEVInstructions := s.derivedSCEVInstructions.insert I })
          else return (false, s)

/-- The queue, the visited instructions and what the searches have found. -/
structure ConsumerTraversal (V : Type) where
  intermediates : List V
  visited : PtrSet V
  search : DerivedSearch V

/-- The body of the loop over the users. -/
def visitUser (fuel : Nat) (t : ConsumerTraversal V) (userInst : V) : Option (ConsumerTraversal V) :=
  if !l.isInstruction userInst then some t
  else if userInst ∈ t.visited then some t
  else do
    let (derived, search) ← l.checkIfDerived allInstructions fuel userInst t.search
    return {
      intermediates := if derived then t.intermediates ++ [userInst] else t.intermediates
      visited := t.visited.insert userInst
      search := search }

/-- The body of the loop over the queue. -/
def visitConsumers (fuel : Nat) (t : ConsumerTraversal V) : Option (ConsumerTraversal V) :=
  match t.intermediates with
  | [] => none
  | I :: intermediates =>
      (l.users I).foldlM (l.visitUser allInstructions fuel) { t with intermediates := intermediates }

/-- `traverseConsumersOfIVInstructionsToGetAllDerivedSCEVInstructions`. -/
def getDerivedSCEVInstructions (ord : IterOrder) (fuel : Nat) : Option (PtrSet V) :=
  (loopM (fun t : ConsumerTraversal V => !t.intermediates.isEmpty) (l.visitConsumers allInstructions fuel)
    fuel ⟨ord.visit allInstructions.elems, allInstructions, ⟨∅, ∅⟩⟩).map
      fun t => t.search.derivedSCEVInstructions

end Search

/-! ## The least set -/

/-- One step of the rule: an instruction of the loop whose operands are constants, invariants, outside of
the loop, of the induction variable or already derived.  One operand that `counts` is of the last two kinds. -/
def derives (l : IVLoop V) (allInstructions : PtrSet V) (counts : V → Prop) : Set V →o Set V where
  toFun S := {I | l.isIncluded I = true ∧ l.isSCEVable I = true ∧ l.isDerivableSCEV I = true ∧
    (∀ v ∈ l.operands I, l.isConstantInt v = true ∨ l.isLoopInvariant v = true ∨
      l.isIncluded v = false ∨ v ∈ allInstructions ∨ v ∈ S) ∧
    ∃ v ∈ l.operands I, counts v ∧ (v ∈ allInstructions ∨ v ∈ S)}
  monotone' S S' hS I hI := by
    obtain ⟨hincluded, hscev, hderivable, hoperands, v, hv, hcounts, hmem⟩ := hI
    exact ⟨hincluded, hscev, hderivable, fun v hv =>
      (hoperands v hv).imp_right fun h => h.imp_right fun h => h.imp_right fun h => h.imp_right fun h => hS h,
      v, hv, hcounts, hmem.imp_right fun h => hS h⟩

/-- The derived instructions: an operand counts if the search does not pass over it. -/
def leastDerived (l : IVLoop V) (allInstructions : PtrSet V) : Set V :=
  (derives l allInstructions fun v => l.isConstantInt v = false ∧ l.isLoopInvariant v = false).lfp

/-! ## Cycles through the induction variable -/

/-- An intermediate value, and a source of it that belongs to the SCC. -/
def Traverses (l : IVLoop V) (v s : V) : Prop :=
  l.isIncluded v = true ∧ s ∈ l.incomingData v ∧ l.isInternal s = true

/-- What the traversal from the PHI node collects. -/
def IsIntermediate (l : IVLoop V) (v : V) : Prop :=
  l.isIncluded v = true ∧ ReflTransGen l.Traverses l.loopEntryPHI v

/-- An instruction of the induction variable. -/
def IsIVInstruction (l : IVLoop V) (v : V) : Prop :=
  l.IsIntermediate v ∨
    (l.isCastInst v = true ∧ l.isIncluded v = true ∧ ∃ u ∈ l.operands v, l.IsIntermediate u)

/-- An instruction of the loop uses another one. -/
def Uses (l : IVLoop V) (v u : V) : Prop :=
  u ∈ l.operands v ∧ l.isIncluded v = true ∧ l.isIncluded u = true

variable {l}

/-- The set holds exactly the instructions of the variable. -/
theorem getAllInstructions_spec (l : IVLoop V) : ∃ N, ∀ fuel ≥ N, ∃ allInstructions,
    l.getAllInstructions fuel = some allInstructions ∧
      ∀ v, v ∈ allInstructions ↔ l.IsIVInstruction v := by
  have hlists : Lists l.values l.intermediateValues l.Traverses := by
    refine ⟨fun v _ => ⟨_, rfl, fun s => ?_⟩, fun _ _ s _ => l.mem_values s⟩
    by_cases hincluded : l.isIncluded v = true
    · rw [if_pos hincluded, List.mem_filter]
      exact ⟨fun h => ⟨hincluded, h⟩, And.right⟩
    · rw [if_neg hincluded]
      exact ⟨nofun, fun h => absurd h.1 hincluded⟩
  have hqueue : ∀ v ∈ [l.loopEntryPHI], v ∈ l.values := fun v _ => l.mem_values v
  obtain ⟨N, hN⟩ := hlists.searchQueue_spec hqueue
  refine ⟨N, fun fuel hfuel => ?_⟩
  obtain ⟨valuesVisited, hvisited, hmem⟩ := hN fuel hfuel
  have hintermediate : ∀ v, v ∈ valuesVisited.filter l.isIncluded ↔ l.IsIntermediate v := fun v => by
    rw [mem_filter, hmem]
    simp only [List.mem_singleton, exists_eq_left]
    exact and_comm
  refine ⟨_, Option.map_eq_some_iff.mpr ⟨valuesVisited, hvisited, rfl⟩, fun v => ?_⟩
  rw [mem_insertAll, hintermediate, List.mem_flatMap]
  refine or_congr_right ⟨fun ⟨u, hu, hv⟩ => ?_, fun ⟨hcast, hincluded, u, hu, hint⟩ => ?_⟩
  · obtain ⟨huser, hkind⟩ := List.mem_filter.mp hv
    obtain ⟨hcast, hincluded⟩ := Bool.and_eq_true_iff.mp hkind
    exact ⟨hcast, hincluded, u, (l.mem_users v u).mp huser, (hintermediate u).mp hu⟩
  · exact ⟨u, (hintermediate u).mpr hint, List.mem_filter.mpr
      ⟨(l.mem_users v u).mpr hu, Bool.and_eq_true_iff.mpr ⟨hcast, hincluded⟩⟩⟩

section

omit [DecidableEq V]

theorem Uses.dependence {v u : V} (h : l.Uses v u) : l.dependence u v :=
  l.incomingData_dependence v u (l.operand_incomingData v h.2.1 u h.1 h.2.2)

theorem dependence_of_uses {v u : V} (h : ReflTransGen l.Uses v u) : ReflTransGen l.dependence u v :=
  ReflTransGen.mono (fun _ _ huses => Uses.dependence huses) _ _ (ReflTransGen.swap _ _ h)

theorem IsIntermediate.isInternal {v : V} (h : l.IsIntermediate v) : l.isInternal v = true := by
  obtain heq | ⟨u, -, hlast⟩ := ReflTransGen.cases_tail h.2
  · rw [heq]
    exact (l.isInternal_iff _).mpr ⟨.refl, .refl⟩
  · exact hlast.2.2

theorem IsIntermediate.of_cycle {v x : V} (h : l.IsIntermediate v) (hto : ReflTransGen l.Uses v x)
    (hback : ReflTransGen l.Uses x v) : l.IsIntermediate x := by
  induction hto using ReflTransGen.head_induction_on with
  | refl => exact h
  | head huses hrest ih =>
      rename_i v u
      refine ih ?_ (hback.tail huses)
      obtain ⟨hphi, hfrom⟩ := (l.isInternal_iff v).mp h.isInternal
      have hinternal : l.isInternal u = true := (l.isInternal_iff u).mpr
        ⟨.head huses.dependence hphi, hfrom.trans (dependence_of_uses (hrest.trans hback))⟩
      exact ⟨huses.2.2, h.2.tail
        ⟨huses.2.1, l.operand_incomingData v huses.2.1 u huses.1 huses.2.2, hinternal⟩⟩

theorem IsIVInstruction.of_cycle {v x : V} (h : l.IsIVInstruction v) (hto : ReflTransGen l.Uses v x)
    (hback : ReflTransGen l.Uses x v) : l.IsIVInstruction x := by
  obtain h | ⟨hcast, hincluded, u, hu, hint⟩ := h
  · exact .inl (h.of_cycle hto hback)
  · obtain heq | ⟨u', huses, hrest⟩ := ReflTransGen.cases_head hto
    · rw [← heq]
      exact .inr ⟨hcast, hincluded, u, hu, hint⟩
    · -- a cast has one operand
      obtain ⟨y, hy⟩ := l.castInst_operands v hcast
      have hu' := huses.1
      rw [hy, List.mem_singleton] at hu hu'
      subst hu
      subst hu'
      exact .inl (hint.of_cycle hrest (hback.tail huses))

end

/-! ## Cycles in the search -/

/-- The search goes on from an instruction to an operand. -/
def Follows (l : IVLoop V) (v u : V) : Prop :=
  l.Uses v u ∧ l.isConstantInt u = false ∧ l.isLoopInvariant u = false

omit [DecidableEq V] in
theorem Follows.uses {v u : V} (h : ReflTransGen l.Follows v u) : ReflTransGen l.Uses v u :=
  ReflTransGen.mono (fun _ _ hfollows => hfollows.1) _ _ h

omit [DecidableEq V] in
theorem isIncluded_of_not_isLoopInvariant {v : V} (h : l.isLoopInvariant v = false) :
    l.isInstruction v = true ∧ l.isIncluded v = true := by
  unfold isLoopInvariant at h
  split_ifs at h with hinst hincluded
  exact ⟨by simpa using hinst, by simpa using hincluded⟩

section Least

variable {allInstructions : PtrSet V}

section

omit [DecidableEq V]

theorem mem_leastDerived_iff {v : V} : v ∈ leastDerived l allInstructions ↔
    v ∈ derives l allInstructions (fun v => l.isConstantInt v = false ∧ l.isLoopInvariant v = false)
      (leastDerived l allInstructions) := by
  rw [leastDerived, OrderHom.map_lfp]

theorem mem_leastDerived_of_follows {v u : V} (h : v ∈ leastDerived l allInstructions)
    (hfollows : l.Follows v u) (hu : u ∉ allInstructions) : u ∈ leastDerived l allInstructions := by
  obtain ⟨-, -, -, hoperands, -⟩ := mem_leastDerived_iff.mp h
  obtain hconst | hinvariant | hout | hmem | hmem := hoperands u hfollows.1.1
  · rw [hfollows.2.1] at hconst
    cases hconst
  · rw [hfollows.2.2] at hinvariant
    cases hinvariant
  · rw [hfollows.1.2.2] at hout
    cases hout
  · exact absurd hmem hu
  · exact hmem

/-- From a derived instruction the search cannot go on forever without the induction variable. -/
theorem acc_of_mem_leastDerived {v : V} (h : v ∈ leastDerived l allInstructions) :
    v ∈ allInstructions ∨ Acc (fun u v => l.Follows v u ∧ u ∉ allInstructions) v := by
  have hle : leastDerived l allInstructions ≤
      {v | v ∈ allInstructions ∨ Acc (fun u v => l.Follows v u ∧ u ∉ allInstructions) v} := by
    refine OrderHom.lfp_le _ fun v ⟨_, _, _, hoperands, _⟩ => .inr (Acc.intro v fun u ⟨hfollows, hu⟩ => ?_)
    obtain hconst | hinvariant | hout | hmem | hmem := hoperands u hfollows.1.1
    · rw [hfollows.2.1] at hconst
      cases hconst
    · rw [hfollows.2.2] at hinvariant
      cases hinvariant
    · rw [hfollows.1.2.2] at hout
      cases hout
    · exact absurd hmem hu
    · exact hmem.resolve_left hu
  exact hle h

/-- The instructions that are being checked lead to the one at hand.  If that one is no instruction of the
induction variable and goes back to one of them, it is not derived. -/
theorem not_mem_leastDerived_of_cycle (hcycle : ∀ v ∈ allInstructions, ∀ x, ReflTransGen l.Uses v x →
    ReflTransGen l.Uses x v → x ∈ allInstructions) {w x : V} (hx : x ∉ allInstructions)
    (hto : ReflTransGen l.Follows w x) (hback : l.Follows x w) : x ∉ leastDerived l allInstructions := by
  intro hderived
  -- nothing on the way is of the induction variable
  have hfree : ReflTransGen (fun v u => l.Follows v u ∧ u ∉ allInstructions) w x := by
    have hreturn : ReflTransGen l.Follows x w := .single hback
    clear hback
    induction hto using ReflTransGen.head_induction_on with
    | refl => exact .refl
    | head hfollows hrest ih =>
        rename_i v u
        refine .head ⟨hfollows, fun hu => hx ?_⟩ (ih (hreturn.tail hfollows))
        exact hcycle u hu x (Follows.uses hrest) (Follows.uses (hreturn.tail hfollows))
  have hw : w ∉ allInstructions := fun hw =>
    hx (hcycle w hw x (Follows.uses hto) (.single hback.1))
  have hloop : TransGen (fun v u => l.Follows v u ∧ u ∉ allInstructions) x x := .head' ⟨hback, hw⟩ hfree
  have hacc := (acc_of_mem_leastDerived hderived).resolve_left hx
  have hno : ∀ y, Acc (TransGen fun u v => l.Follows v u ∧ u ∉ allInstructions) y →
      ¬ TransGen (fun u v => l.Follows v u ∧ u ∉ allInstructions) y y := fun y hy => by
    induction hy with
    | intro y _ ih => exact fun h => ih y h h
  exact hno x hacc.transGen hloop.swap

end

/-! ## One check -/

/-- What has been found is derived, and what has been checked to the end and is derived has been found. -/
structure Searched (l : IVLoop V) (allInstructions : PtrSet V) (stack : List V) (s : DerivedSearch V) :
    Prop where
  sound : ∀ v ∈ s.derivedSCEVInstructions, v ∈ leastDerived l allInstructions
  complete : ∀ v ∈ s.checked, v ∉ stack → v ∉ allInstructions → v ∈ leastDerived l allInstructions →
    v ∈ s.derivedSCEVInstructions

/-- A later state of the search. -/
structure Extends (s s' : DerivedSearch V) : Prop where
  derived_mono : ∀ v ∈ s.derivedSCEVInstructions, v ∈ s'.derivedSCEVInstructions
  checked_mono : ∀ v ∈ s.checked, v ∈ s'.checked

omit [DecidableEq V] in
theorem Extends.refl (s : DerivedSearch V) : Extends s s := ⟨fun _ h => h, fun _ h => h⟩

variable {s : DerivedSearch V} {I : V} {stack : List V} {t : ConsumerTraversal V} {fuel : Nat}

omit [DecidableEq V] in
theorem Extends.trans {s' s'' : DerivedSearch V} (h : Extends s s') (h' : Extends s' s'') :
    Extends s s'' :=
  ⟨fun v hv => h'.derived_mono v (h.derived_mono v hv), fun v hv => h'.checked_mono v (h.checked_mono v hv)⟩

/-- What a check says: yes for an instruction that has been found, and no only for one that is not derived,
still being checked, or of the induction variable. -/
structure Answers (l : IVLoop V) (allInstructions : PtrSet V) (stack : List V) (I : V) (s : DerivedSearch V)
    (answer : Bool) (s' : DerivedSearch V) : Prop where
  searched : Searched l allInstructions stack s'
  extends_search : Extends s s'
  of_true : answer = true → I ∈ s'.derivedSCEVInstructions
  of_false : answer = false → I ∉ allInstructions → I ∉ leastDerived l allInstructions ∨ I ∈ stack

/-- The check of the operands ends with the answer to each of them. -/
theorem checkOperands_spec {check : V → DerivedSearch V → Option (Bool × DerivedSearch V)} {n : Nat} (hI : l.isIncluded I = true)
    (hcheck : ∀ v s, Searched l allInstructions stack s → l.Follows I v → unfound l.values s.checked < n →
      ∃ answer s', check v s = some (answer, s') ∧ Answers l allInstructions stack v s answer s') :
    ∀ (operands : List V) (uses : Bool) (s : DerivedSearch V), (∀ v ∈ operands, v ∈ l.operands I) →
      Searched l allInstructions stack s → unfound l.values s.checked < n →
      ∃ result s', l.checkOperands allInstructions check operands uses s = some (result, s') ∧
        Searched l allInstructions stack s' ∧ Extends s s' ∧
        (result = none → ∃ v, l.Follows I v ∧ v ∉ allInstructions ∧
          (v ∉ leastDerived l allInstructions ∨ v ∈ stack)) ∧
        ∀ used, result = some used →
          (∀ v ∈ operands, l.Follows I v → v ∈ allInstructions ∨ v ∈ s'.derivedSCEVInstructions) ∧
          (used = true ↔ uses = true ∨ ∃ v ∈ operands, l.Follows I v)
  | [], uses, s, _, hs, _ => by
      refine ⟨some uses, s, rfl, hs, .refl s, fun h => (by cases h), fun used h => ?_⟩
      cases h
      refine ⟨nofun, .inl, fun h => h.resolve_right ?_⟩
      exact fun ⟨v, hv, _⟩ => nomatch hv
  | usedValue :: operands, uses, s, hoperands, hs, hn => by
      have hrest : ∀ v ∈ operands, v ∈ l.operands I := fun v hv => hoperands v (.tail _ hv)
      by_cases hpass : l.isConstantInt usedValue = true ∨ l.isLoopInvariant usedValue = true
      · -- an operand that is passed over
        have hnot : ¬ l.Follows I usedValue := fun h => by
          obtain hconst | hinvariant := hpass
          · rw [h.2.1] at hconst
            cases hconst
          · rw [h.2.2] at hinvariant
            cases hinvariant
        obtain ⟨result, s', hresult, hs', hextends, hnone, hsome⟩ :=
          checkOperands_spec hI hcheck operands uses s hrest hs hn
        refine ⟨result, s', ?_, hs', hextends, hnone, fun used hused => ?_⟩
        · rw [checkOperands]
          split_ifs with hconst hinvariant
          · exact hresult
          · exact hresult
          · exact absurd hpass (not_or.mpr ⟨hconst, hinvariant⟩)
          · exact absurd hpass (not_or.mpr ⟨hconst, hinvariant⟩)
          · exact absurd hpass (not_or.mpr ⟨hconst, hinvariant⟩)
        · obtain ⟨hall, huses⟩ := hsome used hused
          refine ⟨fun v hv hfollows => ?_, huses.trans (or_congr_right ?_)⟩
          · obtain rfl | hv := List.mem_cons.mp hv
            · exact absurd hfollows hnot
            · exact hall v hv hfollows
          · refine ⟨fun ⟨v, hv, h⟩ => ⟨v, .tail _ hv, h⟩, fun ⟨v, hv, h⟩ => ⟨v, ?_, h⟩⟩
            exact (List.mem_cons.mp hv).resolve_left fun heq => hnot (heq ▸ h)
      · obtain ⟨hconst, hinvariant⟩ := not_or.mp hpass
        obtain ⟨hinst, hincluded⟩ := isIncluded_of_not_isLoopInvariant (Bool.eq_false_iff.mpr hinvariant)
        have hfollows : l.Follows I usedValue := ⟨⟨hoperands usedValue (.head _), hI, hincluded⟩,
          Bool.eq_false_iff.mpr hconst, Bool.eq_false_iff.mpr hinvariant⟩
        obtain ⟨answer, s₁, hanswer, hanswers⟩ := hcheck usedValue s hs hfollows hn
        have hunfold : l.checkOperands allInstructions check (usedValue :: operands) uses s =
            if (decide (usedValue ∈ allInstructions) || answer) = true then
              l.checkOperands allInstructions check operands true s₁
            else some (none, s₁) := by
          rw [checkOperands, if_neg hconst, if_neg hinvariant, if_pos hinst, hincluded]
          simp only [Bool.not_true, Bool.false_eq_true, if_false, hanswer, Option.bind_eq_bind,
            Option.bind_some, Option.pure_def]
        rw [hunfold]
        by_cases hgood : (decide (usedValue ∈ allInstructions) || answer) = true
        · rw [if_pos hgood]
          obtain ⟨result, s', hresult, hs', hextends, hnone, hsome⟩ :=
            checkOperands_spec hI hcheck operands true s₁ hrest hanswers.searched
              ((unfound_mono hanswers.extends_search.checked_mono).trans_lt hn)
          refine ⟨result, s', hresult, hs', hanswers.extends_search.trans hextends, hnone,
            fun used hused => ?_⟩
          obtain ⟨hall, huses⟩ := hsome used hused
          refine ⟨fun v hv hfollows' => ?_, ?_⟩
          · obtain rfl | hv := List.mem_cons.mp hv
            · refine (Bool.or_eq_true_iff.mp hgood).imp (fun h => of_decide_eq_true h) fun h => ?_
              exact hextends.derived_mono _ (hanswers.of_true h)
            · exact hall v hv hfollows'
          · exact iff_of_true (huses.mpr (.inl rfl)) (.inr ⟨usedValue, .head _, hfollows⟩)
        · rw [if_neg hgood]
          rw [Bool.or_eq_true, not_or, decide_eq_true_eq, Bool.not_eq_true] at hgood
          exact ⟨none, s₁, rfl, hanswers.searched, hanswers.extends_search,
            fun _ => ⟨usedValue, hfollows, hgood.1, hanswers.of_false hgood.2 hgood.1⟩,
            fun used hused => by cases hused⟩

theorem Searched.push (h : Searched l allInstructions stack s) (I : V) :
    Searched l allInstructions (I :: stack) { s with checked := s.checked.insert I } where
  sound := h.sound
  complete v hv hstack := by
    obtain ⟨hne, hstack⟩ := not_or.mp (fun hmem => hstack (List.mem_cons.mpr hmem))
    exact h.complete v ((mem_insert.mp hv).resolve_left hne) hstack

/-- An instruction that is not derived, or of the induction variable, has been checked to the end. -/
theorem Searched.pop
    (h : Searched l allInstructions (I :: stack) s)
    (hI : I ∉ allInstructions → I ∈ leastDerived l allInstructions → I ∈ s.derivedSCEVInstructions) :
    Searched l allInstructions stack s where
  sound := h.sound
  complete v hv hstack hiv hderived := by
    by_cases heq : v = I
    · exact heq ▸ hI (heq ▸ hiv) (heq ▸ hderived)
    · exact h.complete v hv (fun hmem => (List.mem_cons.mp hmem).elim heq hstack) hiv hderived

theorem Searched.found (h : Searched l allInstructions (I :: stack) s)
    (hI : I ∈ leastDerived l allInstructions) :
    Searched l allInstructions stack
      { s with derivedSCEVInstructions := s.derivedSCEVInstructions.insert I } := by
  refine Searched.pop (I := I) ⟨fun v hv => ?_, fun v hv hstack hiv hderived => ?_⟩ fun _ _ =>
    mem_insert.mpr (.inl rfl)
  · obtain rfl | hv := mem_insert.mp hv
    · exact hI
    · exact h.sound v hv
  · exact mem_insert.mpr (.inr (h.complete v hv hstack hiv hderived))

/-- **One check**: the answer is that of the least set, whatever has been checked before. -/
theorem checkIfDerived_spec (hcycle : ∀ v ∈ allInstructions, ∀ x, ReflTransGen l.Uses v x →
    ReflTransGen l.Uses x v → x ∈ allInstructions) : ∀ (fuel : Nat) (I : V) (stack : List V)
    (s : DerivedSearch V), Searched l allInstructions stack s →
      (∀ w ∈ stack, ReflTransGen l.Follows w I) → unfound l.values s.checked < fuel →
      ∃ answer s', l.checkIfDerived allInstructions fuel I s = some (answer, s') ∧
        Answers l allInstructions stack I s answer s'
  | 0, I, stack, s, _, _, hn => nomatch hn
  | fuel + 1, I, stack, s, hs, hstack, hn => by
      by_cases hfound : I ∈ s.derivedSCEVInstructions
      · refine ⟨true, s, ?_, hs, .refl s, fun _ => hfound, fun h => (by cases h)⟩
        rw [checkIfDerived, if_pos hfound]
      by_cases hchecked : I ∈ s.checked
      · refine ⟨false, s, ?_, hs, .refl s, fun h => (by cases h), fun _ hiv => ?_⟩
        · rw [checkIfDerived, if_neg hfound, if_pos hchecked]
        · by_cases hmem : I ∈ stack
          · exact .inr hmem
          · exact .inl fun hderived => hfound (hs.complete I hchecked hmem hiv hderived)
      have hextends : Extends s { s with checked := s.checked.insert I } :=
        ⟨fun _ h => h, fun _ h => mem_insert.mpr (.inr h)⟩
      have hpush := hs.push I
      have hlt : unfound l.values (s.checked.insert I) < fuel :=
        (unfound_insert_lt (l.mem_values I) hchecked).trans_le (Nat.le_of_lt_succ hn)
      by_cases hkind : l.isSCEVable I = true ∧ l.isIncluded I = true ∧ l.isDerivableSCEV I = true
      · obtain ⟨hscev, hincluded, hderivable⟩ := hkind
        -- the operands are checked while this instruction is
        have hcheck : ∀ v s, Searched l allInstructions (I :: stack) s → l.Follows I v →
            unfound l.values s.checked < fuel → ∃ answer s',
              l.checkIfDerived allInstructions fuel v s = some (answer, s') ∧
                Answers l allInstructions (I :: stack) v s answer s' := by
          intro v s hs hfollows hlt
          refine checkIfDerived_spec hcycle fuel v (I :: stack) s hs (fun w hw => ?_) hlt
          obtain rfl | hw := List.mem_cons.mp hw
          · exact .single hfollows
          · exact (hstack w hw).tail hfollows
        obtain ⟨result, s', hresult, hs', hextends', hnone, hsome⟩ :=
          checkOperands_spec hincluded hcheck (l.operands I) false _ (fun _ h => h) hpush hlt
        have hunfold : l.checkIfDerived allInstructions (fuel + 1) I s =
            if result = some true then some (true,
              { s' with derivedSCEVInstructions := s'.derivedSCEVInstructions.insert I })
            else some (false, s') := by
          rw [checkIfDerived, if_neg hfound, if_neg hchecked]
          simp only [hscev, hincluded, hderivable, Bool.not_true, Bool.false_eq_true, if_false, hresult,
            Option.bind_eq_bind, Option.bind_some, Option.pure_def]
        rw [hunfold]
        by_cases htrue : result = some true
        · rw [if_pos htrue]
          obtain ⟨hall, huses⟩ := hsome true htrue
          have hderived : I ∈ leastDerived l allInstructions := by
            rw [mem_leastDerived_iff]
            have hmem : ∀ v ∈ l.operands I, l.Follows I v →
                v ∈ allInstructions ∨ v ∈ leastDerived l allInstructions := fun v hv hfollows =>
              (hall v hv hfollows).imp_right (hs'.sound v)
            refine ⟨hincluded, hscev, hderivable, fun v hv => ?_, ?_⟩
            · by_cases hconst : l.isConstantInt v = true
              · exact .inl hconst
              · by_cases hinvariant : l.isLoopInvariant v = true
                · exact .inr (.inl hinvariant)
                · have hin := (isIncluded_of_not_isLoopInvariant (Bool.eq_false_iff.mpr hinvariant)).2
                  exact .inr (.inr (.inr (hmem v hv ⟨⟨hv, hincluded, hin⟩,
                    Bool.eq_false_iff.mpr hconst, Bool.eq_false_iff.mpr hinvariant⟩)))
            · obtain ⟨v, hv, hfollows⟩ := (huses.mp rfl).resolve_left Bool.false_ne_true
              exact ⟨v, hv, hfollows.2, hmem v hv hfollows⟩
          have hgrown : Extends s'
              { s' with derivedSCEVInstructions := s'.derivedSCEVInstructions.insert I } :=
            ⟨fun _ h => mem_insert.mpr (.inr h), fun _ h => h⟩
          exact ⟨true, _, rfl, hs'.found hderived, (hextends.trans hextends').trans hgrown,
            fun _ => mem_insert.mpr (.inl rfl), fun h => (by cases h)⟩
        · rw [if_neg htrue]
          have hnot : I ∉ allInstructions → I ∉ leastDerived l allInstructions := fun hiv hderived => by
            cases hres : result with
            | none =>
                obtain ⟨v, hfollows, hv, hv'⟩ := hnone hres
                obtain hv' | hv' := hv'
                · exact hv' (mem_leastDerived_of_follows hderived hfollows hv)
                · -- the operand is still being checked
                  refine not_mem_leastDerived_of_cycle hcycle hiv ?_ hfollows hderived
                  obtain rfl | hv' := List.mem_cons.mp hv'
                  · exact .refl
                  · exact hstack v hv'
            | some used =>
                obtain ⟨-, -, -, -, v, hv, hcounts, -⟩ := mem_leastDerived_iff.mp hderived
                have hin := (isIncluded_of_not_isLoopInvariant hcounts.2).2
                have hused : used = true :=
                  (hsome used hres).2.mpr (.inr ⟨v, hv, ⟨hv, hincluded, hin⟩, hcounts⟩)
                rw [hres, hused] at htrue
                exact htrue rfl
          exact ⟨false, s', rfl, hs'.pop fun hiv hderived => absurd hderived (hnot hiv),
            hextends.trans hextends', fun h => (by cases h), fun _ hiv => .inl (hnot hiv)⟩
      · have hnot : I ∉ leastDerived l allInstructions := fun hderived => by
          obtain ⟨hincluded, hscev, hderivable, -⟩ := mem_leastDerived_iff.mp hderived
          exact hkind ⟨hscev, hincluded, hderivable⟩
        refine ⟨false, _, ?_, hpush.pop fun _ hderived => absurd hderived hnot, hextends,
          fun h => (by cases h), fun _ _ => .inl hnot⟩
        rw [checkIfDerived, if_neg hfound, if_neg hchecked]
        cases hscev : l.isSCEVable I with
        | false => rfl
        | true =>
            cases hincluded : l.isIncluded I with
            | false => rfl
            | true =>
                cases hderivable : l.isDerivableSCEV I with
                | false => rfl
                | true => exact absurd ⟨hscev, hincluded, hderivable⟩ hkind

/-! ## The traversal of the users -/

/-- A derived instruction that was visited has been found, and its users are visited unless it is in the
queue or exempt. -/
structure Traversed (l : IVLoop V) (allInstructions : PtrSet V) (exempt : V → Prop)
    (t : ConsumerTraversal V) : Prop where
  searched : Searched l allInstructions [] t.search
  instruction_visited : ∀ v ∈ allInstructions, v ∈ t.visited
  found : ∀ v ∈ t.visited, v ∉ allInstructions → v ∈ leastDerived l allInstructions →
    v ∈ t.search.derivedSCEVInstructions
  users_visited : ∀ v ∈ t.visited, v ∈ allInstructions ∨ v ∈ leastDerived l allInstructions →
    exempt v ∨ v ∈ t.intermediates ∨ ∀ u ∈ l.users v, l.isInstruction u = true → u ∈ t.visited

/-- What is left to do. -/
def ConsumerTraversal.measure (l : IVLoop V) (t : ConsumerTraversal V) : Nat :=
  t.intermediates.length + unfound l.values t.visited

section

variable
  (hcycle : ∀ v ∈ allInstructions, ∀ x, ReflTransGen l.Uses v x → ReflTransGen l.Uses x v → x ∈ allInstructions)

include hcycle

/-- One more user is visited. -/
theorem Traversed.visitUser {exempt : V → Prop} (h : Traversed l allInstructions exempt t)
    (hfuel : l.values.length < fuel) (userInst : V) :
    ∃ t', l.visitUser allInstructions fuel t userInst = some t' ∧ Traversed l allInstructions exempt t' ∧
      (∀ v ∈ t.visited, v ∈ t'.visited) ∧ (l.isInstruction userInst = true → userInst ∈ t'.visited) ∧
      t'.measure l ≤ t.measure l := by
  by_cases hinst : l.isInstruction userInst = true
  · by_cases hvisited : userInst ∈ t.visited
    · refine ⟨t, ?_, h, fun _ hv => hv, fun _ => hvisited, Nat.le_refl _⟩
      rw [IVLoop.visitUser, hinst, if_pos hvisited]
      rfl
    · have hlt : unfound l.values t.search.checked < fuel :=
        (List.length_filter_le _ _).trans_lt hfuel
      obtain ⟨answer, search, hanswer, hanswers⟩ := checkIfDerived_spec hcycle fuel userInst [] t.search
        h.searched nofun hlt
      have hnew : userInst ∉ allInstructions := fun hmem => hvisited (h.instruction_visited userInst hmem)
      have hyes : userInst ∈ leastDerived l allInstructions → answer = true := fun hderived => by
        by_contra hno
        exact (hanswers.of_false (Bool.eq_false_iff.mpr hno) hnew).elim (fun hnot => hnot hderived)
          List.not_mem_nil
      refine ⟨⟨if answer then t.intermediates ++ [userInst] else t.intermediates,
        t.visited.insert userInst, search⟩, ?_, ⟨hanswers.searched,
        fun v hv => mem_insert.mpr (.inr (h.instruction_visited v hv)), fun v hv hiv hderived => ?_,
        fun v hv hwhat => ?_⟩, fun v hv => mem_insert.mpr (.inr hv),
        fun _ => mem_insert.mpr (.inl rfl), ?_⟩
      · rw [IVLoop.visitUser, hinst, if_neg hvisited]
        simp only [Bool.not_true, Bool.false_eq_true, if_false, hanswer, Option.bind_eq_bind,
          Option.bind_some, Option.pure_def]
      · obtain rfl | hv := mem_insert.mp hv
        · exact hanswers.of_true (hyes hderived)
        · exact hanswers.extends_search.derived_mono v (h.found v hv hiv hderived)
      · obtain rfl | hv := mem_insert.mp hv
        · refine .inr (.inl ?_)
          dsimp only
          rw [if_pos (hyes (hwhat.resolve_left hnew))]
          exact List.mem_append_right _ (List.mem_singleton_self v)
        · refine (h.users_visited v hv hwhat).imp_right fun hrest => hrest.imp (fun hmem => ?_)
            fun husers u hu hu' => mem_insert.mpr (.inr (husers u hu hu'))
          dsimp only
          split_ifs
          · exact List.mem_append_left _ hmem
          · exact hmem
      · have hless := unfound_insert_lt (l.mem_values userInst) hvisited
        have hlength : (if answer = true then t.intermediates ++ [userInst] else t.intermediates).length ≤
            t.intermediates.length + 1 := by
          split_ifs
          · rw [List.length_append, List.length_singleton]
          · exact Nat.le_succ _
        unfold ConsumerTraversal.measure
        dsimp only
        omega
  · refine ⟨t, ?_, h, fun _ hv => hv, fun h => absurd h hinst, Nat.le_refl _⟩
    rw [IVLoop.visitUser, Bool.eq_false_iff.mpr hinst]
    rfl

/-- The users of one more intermediate are visited. -/
theorem Traversed.visitConsumers (h : Traversed l allInstructions (fun _ => False) t)
    (hfuel : l.values.length < fuel) (hne : t.intermediates ≠ []) :
    ∃ t', l.visitConsumers allInstructions fuel t = some t' ∧
      Traversed l allInstructions (fun _ => False) t' ∧ t'.measure l < t.measure l := by
  obtain ⟨intermediates, visited, search⟩ := t
  cases intermediates with
  | nil => exact absurd rfl hne
  | cons I intermediates =>
      have hstart : Traversed l allInstructions (· = I) ⟨intermediates, visited, search⟩ := by
        refine ⟨h.searched, h.instruction_visited, h.found, fun v hv hwhat => ?_⟩
        obtain hmem | husers := (h.users_visited v hv hwhat).resolve_left id
        · exact (List.mem_cons.mp hmem).imp_right .inl
        · exact .inr (.inr husers)
      obtain ⟨t', ht', hdone, husers, hle⟩ := foldlM_rule (l.visitUser allInstructions fuel)
        (fun pre t' => Traversed l allInstructions (· = I) t' ∧
          (∀ u ∈ pre, l.isInstruction u = true → u ∈ t'.visited) ∧
          t'.measure l ≤ (⟨intermediates, visited, search⟩ : ConsumerTraversal V).measure l)
        ⟨hstart, nofun, Nat.le_refl _⟩
        (fun pre user post t₁ _ ⟨ht₁, hpre, hle⟩ => by
          obtain ⟨t₂, ht₂, hnext, hmono, huser, hle₂⟩ := ht₁.visitUser hcycle hfuel user
          refine ⟨t₂, ht₂, hnext, fun u hu hinst => ?_, hle₂.trans hle⟩
          obtain hu | hu := List.mem_append.mp hu
          · exact hmono u (hpre u hu hinst)
          · obtain rfl := List.mem_singleton.mp hu
            exact huser hinst)
      refine ⟨t', ht', ⟨hdone.searched, hdone.instruction_visited, hdone.found, fun v hv hwhat => ?_⟩,
        hle.trans_lt ?_⟩
      · obtain rfl | hrest := hdone.users_visited v hv hwhat
        · exact .inr (.inr husers)
        · exact .inr hrest
      · unfold ConsumerTraversal.measure
        dsimp only
        rw [List.length_cons]
        omega

end

omit [DecidableEq V] in
theorem Traversed.visited_of_mem (h : Traversed l allInstructions (fun _ => False) t)
    (hempty : t.intermediates = []) {v : V}
    (hv : v ∈ leastDerived l allInstructions) : v ∈ t.visited := by
  have hle : leastDerived l allInstructions ≤
      {v | v ∈ leastDerived l allInstructions ∧ v ∈ t.visited} := by
    have hsub : {v | v ∈ leastDerived l allInstructions ∧ v ∈ t.visited} ≤
        leastDerived l allInstructions := fun v hv => hv.1
    refine OrderHom.lfp_le _ fun I hI => ⟨?_, ?_⟩
    · exact mem_leastDerived_iff.mpr ((derives l allInstructions _).monotone hsub hI)
    · obtain ⟨hincluded, -, -, -, v, hv, -, hwhat⟩ := hI
      have hvisited : v ∈ t.visited := hwhat.elim (h.instruction_visited v) And.right
      obtain hmem | husers :=
        (h.users_visited v hvisited (hwhat.imp_right And.left)).resolve_left id
      · rw [hempty] at hmem
        nomatch hmem
      · exact husers I ((l.mem_users I v).mpr hv) (l.isInstruction_of_isIncluded I hincluded)
  exact (hle hv).2

end Least

/-- **Order independence**: both passes end, and whatever the order of the instructions, an instruction that is
none of the induction variable is derived exactly if it is in the least set. -/
theorem derivedSCEVInstructions_eq_least (l : IVLoop V) : ∃ N, ∀ fuel ≥ N, ∃ allInstructions,
    l.getAllInstructions fuel = some allInstructions ∧
      (∀ v, v ∈ allInstructions ↔ l.IsIVInstruction v) ∧
      ∀ ord : IterOrder, ∃ derived, l.getDerivedSCEVInstructions allInstructions ord fuel = some derived ∧
        ∀ I, I ∉ allInstructions → (I ∈ derived ↔ I ∈ leastDerived l allInstructions) := by
  obtain ⟨N, hN⟩ := getAllInstructions_spec l
  refine ⟨max N (2 * l.values.length + 1), fun fuel hfuel => ?_⟩
  obtain ⟨allInstructions, hall, hmem⟩ := hN fuel (le_of_max_le_left hfuel)
  have hlarge : 2 * l.values.length + 1 ≤ fuel := le_of_max_le_right hfuel
  have hcycle : ∀ v ∈ allInstructions, ∀ x, ReflTransGen l.Uses v x → ReflTransGen l.Uses x v →
      x ∈ allInstructions := fun v hv x hto hback =>
    (hmem x).mpr (((hmem v).mp hv).of_cycle hto hback)
  refine ⟨allInstructions, hall, hmem, fun ord => ?_⟩
  have hstart : Traversed l allInstructions (fun _ => False)
      ⟨ord.visit allInstructions.elems, allInstructions, ⟨∅, ∅⟩⟩ :=
    ⟨⟨fun v hv => absurd hv (not_mem_empty v), fun v hv => absurd hv (not_mem_empty v)⟩,
      fun v hv => hv, fun v hv hiv => absurd hv hiv,
      fun v hv _ => .inr (.inl (ord.mem_visit.mpr hv))⟩
  have hmeasure : (⟨ord.visit allInstructions.elems, allInstructions, ⟨∅, ∅⟩⟩ :
      ConsumerTraversal V).measure l ≤ fuel := by
    have hsize : allInstructions.size ≤ l.values.length :=
      size_le_length fun v _ => l.mem_values v
    have hunfound : unfound l.values allInstructions ≤ l.values.length := List.length_filter_le _ _
    have hlength := ord.length_visit allInstructions.elems
    unfold ConsumerTraversal.measure
    unfold PtrSet.size at hsize
    dsimp only
    omega
  have hbody : ∀ t : ConsumerTraversal V, Traversed l allInstructions (fun _ => False) t →
      (!t.intermediates.isEmpty) = true → ∃ t', l.visitConsumers allInstructions fuel t = some t' ∧
        Traversed l allInstructions (fun _ => False) t' ∧ t'.measure l < t.measure l := by
    intro t ht hcond
    refine ht.visitConsumers hcycle (by omega) fun hnil => ?_
    rw [hnil] at hcond
    cases hcond
  obtain ⟨t, ht, hdone, hend⟩ := loopM_rule (Traversed l allInstructions fun _ => False)
    (ConsumerTraversal.measure l) hbody fuel _ hstart hmeasure
  have hempty : t.intermediates = [] := List.isEmpty_iff.mp ((Bool.not_eq_false' _).mp hend)
  refine ⟨t.search.derivedSCEVInstructions, Option.map_eq_some_iff.mpr ⟨t, ht, rfl⟩, fun I hI => ?_⟩
  exact ⟨hdone.searched.sound I, fun hderived =>
    hdone.found I (hdone.visited_of_mem hempty hderived) hI hderived⟩

/-- The dependences of `i = phi [n, i']; switch i; t = n + n; d = t * n; i' = i + t`.  The `switch` decides whether
`t` runs, so `t` is in the SCC. -/
def dependencesOfInvariantStep : List (Fin 6 × Fin 6) :=
  [(0, 2), (0, 3), (1, 2), (1, 4), (2, 0), (3, 1), (3, 2), (3, 4)]

theorem mem_scc_iff (v : Fin 6) : v ∈ [(0 : Fin 6), 1, 2, 3] ↔
    ReflTransGen (fun u v => (u, v) ∈ dependencesOfInvariantStep) v 0 ∧
      ReflTransGen (fun u v => (u, v) ∈ dependencesOfInvariantStep) 0 v := by
  have h03 : ReflTransGen (fun u v => (u, v) ∈ dependencesOfInvariantStep) 0 3 := .single (by decide)
  have h31 : ReflTransGen (fun u v => (u, v) ∈ dependencesOfInvariantStep) 3 1 := .single (by decide)
  have h12 : ReflTransGen (fun u v => (u, v) ∈ dependencesOfInvariantStep) 1 2 := .single (by decide)
  have h20 : ReflTransGen (fun u v => (u, v) ∈ dependencesOfInvariantStep) 2 0 := .single (by decide)
  have hsource : ∀ u v, (u, v) ∈ dependencesOfInvariantStep → u ∈ [(0 : Fin 6), 1, 2, 3] := by decide
  constructor
  · intro hv
    simp only [List.mem_cons, List.not_mem_nil, or_false] at hv
    obtain rfl | rfl | rfl | rfl := hv
    · exact ⟨.refl, .refl⟩
    · exact ⟨h12.trans h20, h03.trans h31⟩
    · exact ⟨h20, (h03.trans h31).trans h12⟩
    · exact ⟨(h31.trans h12).trans h20, h03⟩
  · intro ⟨hto, _⟩
    obtain rfl | ⟨u, hu, -⟩ := ReflTransGen.cases_head hto
    · exact .head _
    · exact hsource v u hu

/-- The loop with these dependences; `n` is an argument. -/
def loopOfInvariantStep : IVLoop (Fin 6) where
  values := [0, 1, 2, 3, 4, 5]
  mem_values := by decide
  isInstruction v := v != 5
  isIncluded v := v != 5
  isConstantInt _ := false
  invariants v := v == 1
  isCastInst _ := false
  isSCEVable v := v != 3
  isDerivableSCEV v := v != 3 && v != 5
  operands v := match v with
    | 0 => [5, 2]
    | 1 => [5, 5]
    | 2 => [0, 1]
    | 3 => [0]
    | 4 => [1, 5]
    | 5 => []
  users v := match v with
    | 0 => [2, 3]
    | 1 => [2, 4]
    | 2 => [0]
    | 5 => [0, 1, 4]
    | _ => []
  loopEntryPHI := 0
  dependence u v := (u, v) ∈ dependencesOfInvariantStep
  incomingData v := match v with
    | 0 => [2]
    | 2 => [0, 1]
    | 3 => [0]
    | 4 => [1]
    | _ => []
  isInternal v := decide (v ∈ [(0 : Fin 6), 1, 2, 3])
  isInstruction_of_isIncluded _ h := h
  mem_users := by decide
  castInst_operands _ h := nomatch h
  incomingData_dependence := by decide
  operand_incomingData := by decide
  isInternal_iff v := decide_eq_true_iff.trans (mem_scc_iff v)

/-- `t` is an instruction of the induction variable and invariant: `d` uses it and is not found. -/
theorem not_derived_of_invariant_step : ∃ allInstructions derived,
    loopOfInvariantStep.getAllInstructions 13 = some allInstructions ∧
      loopOfInvariantStep.getDerivedSCEVInstructions allInstructions .stored 13 = some derived ∧
      4 ∉ allInstructions ∧ 4 ∉ derived ∧
      4 ∈ (derives loopOfInvariantStep allInstructions fun _ => True).lfp := by
  refine ⟨_, _, rfl, rfl, by decide, by decide, ?_⟩
  rw [← OrderHom.map_lfp]
  refine ⟨rfl, rfl, rfl, fun v hv => ?_, 1, .head _, trivial, .inl (by decide)⟩
  obtain rfl | hv := List.mem_cons.mp hv
  · exact .inr (.inr (.inr (.inl (by decide))))
  · obtain rfl := List.mem_singleton.mp hv
    exact .inr (.inl rfl)

end IVLoop

end Noelle
