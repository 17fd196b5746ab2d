import Noelle.Lib.Search
import Noelle.SCCDAGNormalizer.Normalize

/-!
# SCCDAGNormalizer.Tails

The previous node of a trailing branch.

The tails are collected first and merged later.  A tail that waits is still in the SCCDAG
when its turn comes, since no dependence joins two tails and a merge takes, beside the
tail, one of its parents.  Nothing keeps a previous node: a parent with an edge to
another parent is not one, so that parents on a cycle leave none.
-/

namespace Noelle

open Relation SCCDAG List Option

namespace SCCDAGNormalizer

variable {V F B : Type} [DecidableEq V] [DecidableEq F] [DecidableEq B] {ord : IterOrder}
  {subLC : DGEdge V → Bool} {ir : IR V B} {loop : LoopTree F B} {D : Multiset (Dep V)}
  {U : V → Prop} {s s' : SCCDAG V} {t : DGNode SccPtr} {tails : List (DGNode SccPtr)}
  {groups : List (PtrSet (DGNode SccPtr))}

/-! ## The previous node -/

omit [DecidableEq V] in
/-- The tail is in the SCCDAG, and so is what `getPreviousDepthNodes` returns, which is
not empty. -/
structure FindsPrevious (s : SCCDAG V) (t : DGNode SccPtr) : Prop where
  tail_mem : t ∈ s.allNodes
  nonempty : (s.getPreviousDepthNodes t).elems ≠ []
  mem : ∀ k ∈ s.getPreviousDepthNodes t, k ∈ s.allNodes

def ParentEdge (s : SCCDAG V) (t a b : DGNode SccPtr) : Prop := s.Edge a t ∧ s.Edge b t ∧ s.Edge a b

/-- From some parent of the node, going on from parent to parent leads to no cycle. -/
def HasEscape (s : SCCDAG V) (t : DGNode SccPtr) : Prop :=
  ∃ k, s.Edge k t ∧ ∀ j, ReflTransGen (ParentEdge s t) k j → ¬ TransGen (ParentEdge s t) j j

/-- A tail finds a node before it exactly if it has an escape. -/
theorem findsPrevious_iff (h : Linked subLC D U s) (ht : t ∈ s.allNodes) :
    FindsPrevious s t ↔ HasEscape s t := by
  constructor
  · intro hfinds
    obtain ⟨k, hk⟩ := exists_mem_of_ne_nil _ hfinds.nonempty
    obtain ⟨hkt, hno⟩ := (mem_getPreviousDepthNodes h ht).mp hk
    -- the walk does not leave `k`
    have hstay : ∀ j, ReflTransGen (ParentEdge s t) k j → j = k := by
      intro j hkj
      induction hkj with
      | refl => rfl
      | tail _ hstep ih => exact absurd (ih ▸ hstep.2.2) (hno _ hstep.2.1)
    refine ⟨k, hkt, fun j hkj hcycle => ?_⟩
    obtain ⟨b, hjb, _⟩ := TransGen.head'_iff.mp hcycle
    exact hno b hjb.2.1 (hstay j hkj ▸ hjb.2.2)
  · rintro ⟨k, hkt, hno⟩
    obtain ⟨m, hkm, hend⟩ := exists_end_of_no_cycle
      (fun a b hab => (h.clean.edge_mem hab.2.1).1) hno
    have hmt : s.Edge m t := by
      cases ReflTransGen.cases_tail hkm with
      | inl heq => exact heq ▸ hkt
      | inr hlast =>
          obtain ⟨c, _, hcm⟩ := hlast
          exact hcm.2.1
    have hm : m ∈ s.getPreviousDepthNodes t := (mem_getPreviousDepthNodes h ht).mpr
      ⟨hmt, fun b hbt hmb => hend b ⟨hmt, hbt, hmb⟩⟩
    exact ⟨ht, ne_nil_of_mem hm, fun j hj =>
      (h.clean.edge_mem ((mem_getPreviousDepthNodes h ht).mp hj).1).1⟩

/-! ## The tails that are left -/

/-- The tails are in the SCCDAG, and no dependence joins two of them. -/
structure TailsLeft (subLC : DGEdge V → Bool) (D : Multiset (Dep V)) (U : V → Prop) (s : SCCDAG V)
    (tails : List (DGNode SccPtr)) : Prop where
  linked : Linked subLC D U s
  mem : ∀ t ∈ tails, t ∈ s.allNodes
  apart : tails.Pairwise fun t t' => t ≠ t' ∧ ¬ s.DepBetween D t t' ∧ ¬ s.DepBetween D t' t

variable (ord ir) in
omit [DecidableEq B] in
theorem exists_tailsLeft (h : Linked subLC D U s) : ∃ tails,
    tailCmpBrs ord ir s = some (tails.map .tailCmpBr) ∧ TailsLeft subLC D U s tails := by
  obtain ⟨tails, htails, hnodup, hdeg⟩ := exists_tails ord ir h
  refine ⟨tails, htails, h, fun t ht => (hdeg t ht).1, hnodup.imp_of_mem ?_⟩
  intro t t' ht ht' hne
  -- an edge would leave one of the two
  have hnone : ∀ e ∈ s.allEdges, ¬ e.Joins t t' := by
    rintro e he (⟨hsrc, _⟩ | ⟨hsrc, _⟩)
    · have hmem := (h.clean.mem_outgoing t (hdeg t ht).1 e).mpr ⟨he, hsrc⟩
      exact absurd (hdeg t ht).2.2 (Nat.ne_of_gt (length_pos_of_mem hmem))
    · have hmem := (h.clean.mem_outgoing t' (hdeg t' ht').1 e).mpr ⟨he, hsrc⟩
      exact absurd (hdeg t' ht').2.2 (Nat.ne_of_gt (length_pos_of_mem hmem))
  refine ⟨hne, fun hdep => ?_, fun hdep => ?_⟩
  · obtain ⟨e, he, hjoins⟩ := h.exists_edge t (hdeg t ht).1 t' (hdeg t' ht').1 hne hdep
    exact hnone e he hjoins
  · obtain ⟨e, he, hjoins⟩ := h.exists_edge t' (hdeg t' ht').1 t (hdeg t ht).1 hne.symm hdep
    exact hnone e he hjoins.symm

variable (ord) in
/-- A tail that finds the node before it is merged. -/
theorem TailsLeft.step (h : TailsLeft subLC D U s (t :: tails)) (hfinds : FindsPrevious s t) :
    ∃ s', mergeItem ord subLC s (.tailCmpBr t) = some s' ∧ TailsLeft subLC D U s' tails := by
  have ht := h.mem t (.head _)
  obtain ⟨hfirst, hrest⟩ := pairwise_cons.mp h.apart
  obtain ⟨k, hk, hhead⟩ := ord.exists_head hfinds.nonempty
  have hkt := ((mem_getPreviousDepthNodes h.linked ht).mp hk).1
  have hmem : ∀ n, n ∈ PtrSet.ofList [t, k] ↔ n = t ∨ n = k := fun n => by simp
  have hset : s.NodesOf (PtrSet.ofList [t, k]) := fun n hn => by
    cases (hmem n).mp hn with
    | inl heq => exact heq ▸ ht
    | inr heq => exact heq ▸ (h.linked.clean.edge_mem hkt).1
  have hsize : ¬ (PtrSet.ofList [t, k]).size < 2 := by
    intro hlt
    have heq := PtrSet.eq_of_size_le_one (by omega) ((hmem t).mpr (.inl rfl))
      ((hmem k).mpr (.inr rfl))
    exact h.linked.edge_irrefl t (heq ▸ hkt)
  -- a tail is not the previous node of another one
  have hun : ∀ t' ∈ tails, t' ∉ PtrSet.ofList [t, k] := by
    intro t' ht' hmem'
    obtain ⟨hne, _, hback⟩ := hfirst t' ht'
    cases (hmem t').mp hmem' with
    | inl heq => exact hne heq.symm
    | inr heq => exact hback (heq ▸ h.linked.depBetween_of_edge hkt)
  obtain ⟨s', new, hs', hlinked, hm⟩ := h.linked.mergeSCCs_spec ord hset hsize
  refine ⟨s', ?_, hlinked, fun t' ht' => ?_, hrest.imp_of_mem ?_⟩
  · simpa [mergeItem, nodesToMerge, hhead] using hs'
  · exact (hm.allNodes_iff t').mpr
      (.inr ⟨h.mem t' (.tail _ ht'), hun t' ht'⟩)
  · intro a b ha hb hab
    have ha' := h.mem a (.tail _ ha)
    have hb' := h.mem b (.tail _ hb)
    rw [hm.depBetween_old ha' hb', hm.depBetween_old hb' ha']
    exact hab

/-! ## The phases before -/

variable (ord subLC ir loop) in
/-- The phases before `mergeBranchesWithoutOutgoingEdges`. -/
def beforeTails (s : SCCDAG V) : Option (SCCDAG V) := do
  let s ← mergeLCSSAPhis ord subLC ir loop s
  let s ← mergeSCCsWithExternalInterIterationDependencies ord subLC ir loop s
  mergeSingleSyntacticSugarInstrs ord subLC ir s

theorem normalizeInPlace_eq_beforeTails (s : SCCDAG V) : normalizeInPlace ord subLC ir loop s =
    (beforeTails ord subLC ir loop s).bind (mergeBranchesWithoutOutgoingEdges ord subLC ir) := by
  simp [normalizeInPlace, beforeTails, collapseIntroducedCycles, bind_assoc]

variable (ord) in
omit [DecidableEq F] [DecidableEq B] in
/-- The groups are all merged. -/
theorem GroupsOk.mergeAll_spec (h : Linked subLC D U s) (hok : GroupsOk s groups)
    {decided : SCCDAG V → Option (List MergeItem)} (hdecided : decided s = some (groups.map .group)) :
    ∃ s', mergeAll ord subLC decided s = some s' ∧ Linked subLC D U s' := by
  rw [mergeAll, hdecided]
  clear hdecided
  induction groups generalizing s with
  | nil => exact ⟨s, rfl, h⟩
  | cons g groups ih =>
      have hset := hok.nodes g (.head _)
      obtain ⟨hg, hrest⟩ := pairwise_cons.mp hok.disjoint
      have hnodes : ∀ g ∈ groups, s.NodesOf g := fun g hg =>
        hok.nodes g (.tail _ hg)
      have hstep : mergeItem ord subLC s (.group g) = s.mergeSCCs ord subLC g := rfl
      by_cases hsize : g.size < 2
      · obtain ⟨s', hs', h'⟩ := ih h ⟨hnodes, hrest⟩
        refine ⟨s', ?_, h'⟩
        simpa [hstep, mergeSCCs_of_size_lt ord subLC hsize] using hs'
      · obtain ⟨s₁, new, hs₁, h₁, hm⟩ := h.mergeSCCs_spec ord hset hsize
        have hnodes₁ : ∀ g ∈ groups, s₁.NodesOf g := fun g' hg' n hn =>
          (hm.allNodes_iff n).mpr (.inr ⟨hnodes g' hg' n hn, fun hns => hg g' hg' n hns hn⟩)
        obtain ⟨s', hs', h'⟩ := ih h₁ ⟨hnodes₁, hrest⟩
        refine ⟨s', ?_, h'⟩
        simpa [hstep, hs₁] using hs'

variable (ord) in
/-- The phases before the tails end. -/
theorem beforeTails_spec (h : Linked subLC D U s) (hloop : LoopGraph ir loop D U) :
    ∃ s', beforeTails ord subLC ir loop s = some s' ∧ Linked subLC D U s' := by
  obtain ⟨groups₁, hgroups₁, hok₁⟩ := lcssaPhiGroups_spec ord h hloop
  obtain ⟨s₁, hs₁, h₁⟩ := hok₁.mergeAll_spec ord h hgroups₁
  obtain ⟨groups₂, hgroups₂, hok₂⟩ := loopCarriedGroups_spec ord h₁ hloop
  obtain ⟨s₂, hs₂, h₂⟩ := hok₂.mergeAll_spec ord h₁ hgroups₂
  obtain ⟨groups₃, hgroups₃, hok₃⟩ := syntacticSugarGroups_spec ord ir h₂
  obtain ⟨s₃, hs₃, h₃⟩ := hok₃.mergeAll_spec ord h₂ hgroups₃
  refine ⟨s₃, ?_, h₃⟩
  rw [beforeTails, mergeLCSSAPhis, hs₁]
  simp [mergeSCCsWithExternalInterIterationDependencies, mergeSingleSyntacticSugarInstrs, hs₂, hs₃]

/-! ## The run over the tails -/

def mergeTail (ord : IterOrder) (subLC : DGEdge V → Bool) (s : SCCDAG V) (t : DGNode SccPtr) :
    Option (SCCDAG V) :=
  mergeItem ord subLC s (.tailCmpBr t)

omit [DecidableEq B] in
/-- The tails are all merged if each finds the node before it. -/
theorem TailsLeft.mergeBranches_spec (h : TailsLeft subLC D U s tails)
    (htails : tailCmpBrs ord ir s = some (tails.map .tailCmpBr))
    (hfinds : Calls (mergeTail ord subLC) FindsPrevious s tails) :
    ∃ s', mergeBranchesWithoutOutgoingEdges ord subLC ir s = some s' := by
  obtain ⟨s', hs', _⟩ := foldlM_of_calls (J := TailsLeft subLC D U)
    (fun s t tails hJ hQ => hJ.step ord hQ) h hfinds
  refine ⟨s', ?_⟩
  rw [mergeBranchesWithoutOutgoingEdges, mergeAll, htails]
  simpa [foldlM_map, mergeTail] using hs'

/-- **Tails and their previous nodes**: from every SCCDAG, the phases before come to their
end and the tails are collected; when its turn comes, every tail is in the SCCDAG and has a
previous node there if and only if, in every one of these states, some parent of the tail
leads to no cycle of its parents. -/
theorem mergeBranchesWithoutOutgoingEdges_findsPrevious_iff (h : Linked subLC D U s)
    (hloop : LoopGraph ir loop D U) :
    ∃ s' tails, beforeTails ord subLC ir loop s = some s' ∧
      tailCmpBrs ord ir s' = some (tails.map .tailCmpBr) ∧
      (Calls (mergeTail ord subLC) FindsPrevious s' tails ↔
        Calls (mergeTail ord subLC) HasEscape s' tails) := by
  obtain ⟨s', hs', h'⟩ := beforeTails_spec ord h hloop
  obtain ⟨tails, htails, hleft⟩ := exists_tailsLeft ord ir h'
  refine ⟨s', tails, hs', htails, calls_congr (J := TailsLeft subLC D U) ?_ ?_ hleft⟩
  · exact fun s t tails hJ => findsPrevious_iff hJ.linked (hJ.mem t (.head _))
  · intro s t tails s₁ hJ hfinds hs₁
    obtain ⟨s₂, hs₂, hJ'⟩ := hJ.step ord hfinds
    exact mem_unique hs₂ hs₁ ▸ hJ'

/-! ## A switch -/

/-- The body of `for (i) { x = A[i]; y = x + 1; switch (y) { case 0: b = x > 0; c = x > y; } }`:
the load, the addition, the switch and the two comparisons that it controls. -/
def switchHistory : List (DG.Op Nat (DGEdge Nat)) :=
  [.addNode 1 true, .addNode 2 true, .addNode 3 true, .addNode 4 true, .addNode 5 true,
    .addVariableDataDependenceEdge 1 2 .raw, .addVariableDataDependenceEdge 2 3 .raw,
    .addVariableDataDependenceEdge 1 4 .raw, .addVariableDataDependenceEdge 1 5 .raw,
    .addVariableDataDependenceEdge 2 5 .raw, .addControlDependenceEdge 3 4,
    .addControlDependenceEdge 3 5]

def switchPdg : PDG Nat :=
  (DG.execute (fun _ => false) (DG.empty 0) switchHistory).getD (DG.empty 0)

/-- The comparisons are in a block of their own. -/
def switchIr : IR Nat Nat where
  kind v := if v = 3 then .terminator else if v = 4 ∨ v = 5 then .cmpInst
    else if v = 1 ∨ v = 2 then .otherInstruction else .noInstruction
  getParent v := if v < 4 then 0 else 1

def switchLoop : LoopTree Nat Nat := .node ⟨0, 0, 0, 1, PtrSet.ofList [0, 1]⟩ []

theorem switchPdg_proper : PDG.Proper (fun _ => false) switchPdg := by
  have hedges : ∀ e ∈ switchPdg.allEdges.elems, e.kind ≠ .undefinedDependence ∧
      (switchPdg.edgeAttr e).Covers fun _ => false := by decide
  exact PDG.proper_of_clean (DG.clean_of_history _ 0 (by decide)) hedges

theorem switch_loopGraph : LoopGraph switchIr switchLoop switchPdg.deps switchPdg.HasValue := by
  refine ⟨by decide, fun v hv _ => ?_⟩
  have hvalues : ∀ v < 6, 0 < v → ∃ n ∈ switchPdg.allNodes.elems, n.theT = v := by decide
  have hrange : v < 6 ∧ 0 < v := by
    simp only [IR.isInstruction, switchIr] at hv
    by_contra hout
    have hne : v ≠ 1 ∧ v ≠ 2 ∧ v ≠ 3 ∧ v ≠ 4 ∧ v ≠ 5 := by omega
    simp [hne] at hv
  exact hvalues v hrange.1 hrange.2

/-- The first comparison is merged with the load, which closes a cycle with the addition
and the switch; they are the parents of the second comparison. -/
theorem mergeBranchesWithoutOutgoingEdges_switch :
    ∃ s s' tails, SCCDAG.new .stored .saturating (fun _ => false) switchPdg 0 = some s ∧
      LoopGraph switchIr switchLoop switchPdg.deps switchPdg.HasValue ∧
      beforeTails .stored (fun _ => false) switchIr switchLoop s = some s' ∧
      tailCmpBrs .stored switchIr s' = some (tails.map .tailCmpBr) ∧
      ¬ Calls (mergeTail .stored fun _ => false) FindsPrevious s' tails := by
  have hcheck : (SCCDAG.new .stored .saturating (fun _ => false) switchPdg 0).any (fun s =>
      (normalizeInPlace .stored (fun _ => false) switchIr switchLoop s).isNone) = true := by
    decide +kernel
  obtain ⟨s, hs, hnone⟩ := (any_eq_true _ _).mp hcheck
  obtain ⟨s₀, hs₀, h₀⟩ := buildGraph_spec .stored .saturating switchPdg_proper 0
  have h := (linked_of_builtFrom switchPdg_proper
    ⟨s₀, hs₀, (new_sameGraph .stored .saturating hs₀ h₀ hs).1⟩).1
  obtain ⟨s', hs', h'⟩ := beforeTails_spec .stored h switch_loopGraph
  obtain ⟨tails, htails, hleft⟩ := exists_tailsLeft .stored switchIr h'
  refine ⟨s, s', tails, hs, switch_loopGraph, hs', htails, fun hfinds => ?_⟩
  obtain ⟨s'', hs''⟩ := hleft.mergeBranches_spec htails hfinds
  rw [normalizeInPlace_eq_beforeTails, hs', bind_some, hs''] at hnone
  cases hnone

theorem mergeBranchesWithoutOutgoingEdges_findsPrevious_iff_switch :
    ∃ s s' tails, buildGraph .stored .saturating (fun _ => false) switchPdg 0 = some s ∧
      beforeTails .stored (fun _ => false) switchIr switchLoop s = some s' ∧
      tailCmpBrs .stored switchIr s' = some (tails.map .tailCmpBr) ∧
      (Calls (mergeTail .stored fun _ => false) FindsPrevious s' tails ↔
        Calls (mergeTail .stored fun _ => false) HasEscape s' tails) := by
  obtain ⟨s, hs, _⟩ := buildGraph_spec .stored .saturating switchPdg_proper 0
  have hlinked := (linked_of_builtFrom switchPdg_proper ⟨s, hs, .refl s⟩).1
  exact ⟨s, _, _, hs,
    (mergeBranchesWithoutOutgoingEdges_findsPrevious_iff hlinked switch_loopGraph).choose_spec.choose_spec⟩

end SCCDAGNormalizer

end Noelle
