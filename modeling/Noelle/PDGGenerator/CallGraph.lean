import Noelle.CallGraph.Construction

/-!
# PDGGenerator.CallGraph

The refinement of the call graph by registered analyses: `PDGGenerator::getProgramCallGraph`.

For every may sub-edge of an edge the analyses are asked, one after the other, until one of
them knows whether the call reaches the callee.  What they said is kept in two variables of
the loop over the edge: a sub-edge is treated as the sub-edges visited before it were.
-/

namespace Noelle

open Function PtrSet List Option

namespace PDGGenerator

open CallGraph

variable {F I A : Type} [DecidableEq F] [DecidableEq I]

/-! ## The refinement -/

inductive CallStrength where
  | cannotExist
  | mayExist
  | mustExist
  deriving DecidableEq

/-- The registered analyses of the call graph, with `canThisFunctionBeACallee`. -/
structure CallGraphAnalyses (F I A : Type) where
  cgAnalyses : PtrSet A
  canThisFunctionBeACallee : A → I → F → CallStrength

/-- What the loop over the sub-edges of an edge changes. -/
structure SubEdgeState (F I : Type) where
  noelleCG : CallGraph F I
  toDelete : PtrSet (CallGraphInstructionFunctionEdge F I)
  mustSubEdge : Option (CallGraphInstructionFunctionEdge F I)

/-- `setMust` of a sub-edge and of its edge. -/
def setMust (g : CallGraph F I) (outgoingEdge : CallGraphFunctionFunctionEdge F)
    (subedge : CallGraphInstructionFunctionEdge F I) : Option (CallGraph F I) :=
  if outgoingEdge ∉ g.edges ∨ subedge ∉ g.getSubEdges outgoingEdge then none
  else some { g with
    subEdgeIsMust := update g.subEdgeIsMust subedge true
    edgeAttr := update g.edgeAttr outgoingEdge (g.edgeAttr outgoingEdge).setMust }

variable (ord : IterOrder) (an : CallGraphAnalyses F I A)

/-- The loop over the analyses. -/
def queryFrom (outgoingEdge : CallGraphFunctionFunctionEdge F)
    (subedge : CallGraphInstructionFunctionEdge F I) (st : SubEdgeState F I) :
    List A → SubEdgeState F I
  | [] => st
  | cga :: cgas =>
      match an.canThisFunctionBeACallee cga subedge.caller.i outgoingEdge.callee.f with
      | .cannotExist => { st with toDelete := st.toDelete.insert subedge }
      | .mustExist => { st with mustSubEdge := some subedge }
      | .mayExist => queryFrom outgoingEdge subedge st cgas

/-- The end of the body of the loop over the sub-edges. -/
def applyAnswers (outgoingEdge : CallGraphFunctionFunctionEdge F)
    (subedge : CallGraphInstructionFunctionEdge F I) (st : SubEdgeState F I) :
    Option (SubEdgeState F I) := do
  let g ←
    if st.toDelete.size > 0 then
      if st.mustSubEdge.isSome then none else st.noelleCG.removeSubEdge outgoingEdge subedge
    else some st.noelleCG
  let g ← if st.mustSubEdge.isSome then setMust g outgoingEdge subedge else some g
  return { st with noelleCG := g }

/-- The body of the loop over the sub-edges. -/
def refineSubEdge (outgoingEdge : CallGraphFunctionFunctionEdge F) (st : SubEdgeState F I)
    (subedge : CallGraphInstructionFunctionEdge F I) : Option (SubEdgeState F I) :=
  if subedge ∉ st.noelleCG.getSubEdges outgoingEdge then none
  else if st.noelleCG.subEdgeIsMust subedge then some st
  else applyAnswers outgoingEdge subedge
    (queryFrom an outgoingEdge subedge st (ord.visit an.cgAnalyses.elems))

/-- The body of the loop over the outgoing edges of a node. -/
def refineEdge (g : CallGraph F I) (outgoingEdge : CallGraphFunctionFunctionEdge F) :
    Option (CallGraph F I) :=
  if outgoingEdge ∉ g.edges then none
  else ((ord.visit (g.getSubEdges outgoingEdge).elems).foldlM (refineSubEdge ord an outgoingEdge)
    ⟨g, ∅, none⟩).map (·.noelleCG)

/-- `PDGGenerator::getProgramCallGraph` when the call graph has been computed. -/
def getProgramCallGraph (noelleCG : CallGraph F I) : Option (CallGraph F I) :=
  if an.cgAnalyses.size > 0 then
    (ord.visit noelleCG.getFunctionNodes.elems).foldlM (fun g node =>
      (ord.visit (g.getOutgoingEdges node).elems).foldlM (refineEdge ord an) g) noelleCG
  else some noelleCG

/-! ## Answers -/

def CallGraphAnalyses.Answered (strength : CallStrength) (i : I) (f : F) : Prop :=
  ∃ cga ∈ an.cgAnalyses, an.canThisFunctionBeACallee cga i f = strength

/-- No two analyses contradict each other on a call. -/
def CallGraphAnalyses.Consistent : Prop :=
  ∀ i f, ¬ (an.Answered .cannotExist i f ∧ an.Answered .mustExist i f)

instance (strength : CallStrength) (i : I) (f : F) : Decidable (an.Answered strength i f) :=
  inferInstanceAs (Decidable (∃ cga ∈ an.cgAnalyses.elems, _))

/-- The first answer that is not "may". -/
def strengthFrom (i : I) (f : F) : List A → CallStrength
  | [] => .mayExist
  | cga :: cgas =>
      if an.canThisFunctionBeACallee cga i f = .mayExist then strengthFrom i f cgas
      else an.canThisFunctionBeACallee cga i f

variable {ord an} {i : I} {f : F} {g g' : CallGraph F I} {e x : CallGraphFunctionFunctionEdge F}
  {se : CallGraphInstructionFunctionEdge F I} {st st' : SubEdgeState F I} {strength : CallStrength}

theorem queryFrom_eq (cgas : List A) :
    queryFrom an e se st cgas =
      match strengthFrom an se.caller.i e.callee.f cgas with
      | .cannotExist => { st with toDelete := st.toDelete.insert se }
      | .mustExist => { st with mustSubEdge := some se }
      | .mayExist => st := by
  induction cgas with
  | nil => rfl
  | cons cga cgas ih =>
      rw [queryFrom, strengthFrom]
      cases hans : an.canThisFunctionBeACallee cga se.caller.i e.callee.f with
      | mayExist => simpa using ih
      | cannotExist => rfl
      | mustExist => rfl

omit [DecidableEq F] [DecidableEq I] in
theorem strengthFrom_mem {strength : CallStrength} {cgas : List A}
    (h : strengthFrom an i f cgas = strength) (hne : strength ≠ .mayExist) :
    ∃ cga ∈ cgas, an.canThisFunctionBeACallee cga i f = strength := by
  induction cgas with
  | nil => exact absurd h.symm hne
  | cons cga cgas ih =>
      rw [strengthFrom] at h
      split at h
      · obtain ⟨cga', hmem, hans⟩ := ih h
        exact ⟨cga', .tail _ hmem, hans⟩
      · exact ⟨cga, .head _, h⟩

omit [DecidableEq F] [DecidableEq I] in
theorem strengthFrom_ne {cgas : List A}
    (h : ∃ cga ∈ cgas, an.canThisFunctionBeACallee cga i f ≠ .mayExist) :
    strengthFrom an i f cgas ≠ .mayExist := by
  induction cgas with
  | nil =>
      obtain ⟨cga, hmem, _⟩ := h
      nomatch hmem
  | cons cga cgas ih =>
      rw [strengthFrom]
      split
      · rename_i hmay
        obtain ⟨cga', hmem, hans⟩ := h
        rcases mem_cons.mp hmem with rfl | hmem
        · exact absurd hmay hans
        · exact ih ⟨cga', hmem, hans⟩
      · assumption

/-- What the loop over the analyses makes of a call. -/
def callStrength (ord : IterOrder) (an : CallGraphAnalyses F I A)
    (se : CallGraphInstructionFunctionEdge F I) : CallStrength :=
  strengthFrom an se.caller.i se.callee.f (ord.visit an.cgAnalyses.elems)

omit [DecidableEq F] [DecidableEq I] in
/-- Consistent analyses answer alike, in any order. -/
theorem CallGraphAnalyses.Consistent.callStrength_eq_iff (hcons : an.Consistent)
    (hne : strength ≠ .mayExist) :
    callStrength ord an se = strength ↔ an.Answered strength se.caller.i se.callee.f := by
  have hmem : ∀ {strength}, callStrength ord an se = strength → strength ≠ .mayExist →
      an.Answered strength se.caller.i se.callee.f := by
    intro strength h hne
    obtain ⟨cga, hcga, hans⟩ := strengthFrom_mem h hne
    exact ⟨cga, ord.mem_visit.mp hcga, hans⟩
  refine ⟨fun h => hmem h hne, fun hans => ?_⟩
  obtain ⟨cga, hcga, hcga'⟩ := id hans
  have hfirst : callStrength ord an se ≠ .mayExist :=
    strengthFrom_ne ⟨cga, ord.mem_visit.mpr hcga, fun h => hne (hcga'.symm.trans h)⟩
  have hans' := hmem rfl hfirst
  have hno := hcons se.caller.i se.callee.f
  cases hval : callStrength ord an se with
  | mayExist => exact absurd hval hfirst
  | cannotExist =>
      cases strength with
      | cannotExist => rfl
      | mayExist => exact absurd rfl hne
      | mustExist => exact absurd ⟨hval ▸ hans', hans⟩ hno
  | mustExist =>
      cases strength with
      | cannotExist => exact absurd ⟨hans, hval ▸ hans'⟩ hno
      | mayExist => exact absurd rfl hne
      | mustExist => rfl

/-! ## One sub-edge -/

structure OwnsSubEdges (g : CallGraph F I) : Prop extends EdgesOk g where
  subEdge_unique : ∀ e ∈ g.edges, ∀ e' ∈ g.edges, ∀ se ∈ g.getSubEdges e, se ∈ g.getSubEdges e' → e = e'

theorem OwnsSubEdges.of_subEdgesInCaller {M : IRModule F I} (h : EdgesOk g)
    (hsubs : SubEdgesInCaller M g) : OwnsSubEdges g where
  toEdgesOk := h
  subEdge_unique := by
    intro e he e' he' se hse hse'
    have hf : e.caller.f = e'.caller.f := (hsubs e he se hse).symm.trans (hsubs e' he' se hse')
    have hcaller : e.caller = e'.caller := by
      have hlook := (h.edge_nodes e he).1
      rw [hf, (h.edge_nodes e' he').1] at hlook
      exact (some.inj hlook).symm
    exact h.edge_unique he he' hcaller
      ((h.subEdge_callee e he se hse).symm.trans (h.subEdge_callee e' he' se hse'))

/-- `g'` is `g` with changes to the sub-edges `l` of `e` only; `e` is gone if no sub-edge is
left. -/
structure Visited (g : CallGraph F I) (e : CallGraphFunctionFunctionEdge F)
    (l : List (CallGraphInstructionFunctionEdge F I)) (g' : CallGraph F I) : Prop where
  owns : OwnsSubEdges g'
  functions_eq : g'.functions = g.functions
  instructionNodes_eq : g'.instructionNodes = g.instructionNodes
  outgoingEdges_eq : ∀ n, n ≠ e.caller → g'.outgoingEdges n = g.outgoingEdges n
  attr_eq : ∀ x, x ≠ e → g'.edgeAttr x = g.edgeAttr x
  mem_edges : ∀ x, x ∈ g'.edges ↔ x ∈ g.edges ∧ (x = e → ∃ se, se ∈ g'.getSubEdges e)
  mem_of_mem : ∀ se ∈ g'.getSubEdges e, se ∈ g.getSubEdges e
  mem_iff : ∀ se ∉ l, se ∈ g'.getSubEdges e ↔ se ∈ g.getSubEdges e
  must_eq : ∀ se ∉ l, g'.subEdgeIsMust se = g.subEdgeIsMust se

theorem Visited.refl (h : OwnsSubEdges g) (l) : Visited g e l g where
  owns := h
  functions_eq := rfl
  instructionNodes_eq := rfl
  outgoingEdges_eq := fun _ _ => rfl
  attr_eq := fun _ _ => rfl
  mem_edges := fun _ => ⟨fun hx => ⟨hx, fun hxe => h.edgeInvariant.subEdges_ne e (hxe ▸ hx)⟩, And.left⟩
  mem_of_mem := fun _ => id
  mem_iff := fun _ _ => Iff.rfl
  must_eq := fun _ _ => rfl

/-- Sub-edges visited one after the other. -/
theorem Visited.trans {g'' : CallGraph F I} {l l' : List (CallGraphInstructionFunctionEdge F I)}
    (h : Visited g e l g') (h' : Visited g' e l' g'') : Visited g e (l ++ l') g'' where
  owns := h'.owns
  functions_eq := h'.functions_eq.trans h.functions_eq
  instructionNodes_eq := h'.instructionNodes_eq.trans h.instructionNodes_eq
  outgoingEdges_eq := fun n hn => (h'.outgoingEdges_eq n hn).trans (h.outgoingEdges_eq n hn)
  attr_eq := fun x hx => (h'.attr_eq x hx).trans (h.attr_eq x hx)
  mem_edges := by
    intro x
    rw [h'.mem_edges, h.mem_edges]
    constructor
    · exact fun hx => ⟨hx.1.1, hx.2⟩
    · rintro ⟨hx, hleft⟩
      refine ⟨⟨hx, fun hxe => ?_⟩, hleft⟩
      obtain ⟨se, hse⟩ := hleft hxe
      exact ⟨se, h'.mem_of_mem se hse⟩
  mem_of_mem := fun se hse => h.mem_of_mem se (h'.mem_of_mem se hse)
  mem_iff := by
    intro se hse
    rw [mem_append, not_or] at hse
    rw [h'.mem_iff se hse.2, h.mem_iff se hse.1]
  must_eq := by
    intro se hse
    rw [mem_append, not_or] at hse
    rw [h'.must_eq se hse.2, h.must_eq se hse.1]

theorem Visited.mem_edges_of_mem {l : List (CallGraphInstructionFunctionEdge F I)}
    (h : Visited g e l g') (he : e ∈ g.edges) (hse : se ∈ g'.getSubEdges e) : e ∈ g'.edges :=
  (h.mem_edges e).mpr ⟨he, fun _ => ⟨se, hse⟩⟩

theorem removeSubEdge_outgoingEdges (h : g.removeSubEdge e se = some g')
    {n : CallGraphFunctionNode F} (hn : n ≠ e.caller) : g'.outgoingEdges n = g.outgoingEdges n := by
  unfold removeSubEdge deleteEdge at h
  split at h
  · cases h
  · obtain ⟨attr, -, h⟩ := bind_eq_some_iff.mp h
    dsimp only at h
    split at h
    · split at h
      · cases h
      · split at h
        · cases h
        · cases h
          exact update_of_ne hn ..
    · cases h
      rfl

/-- A sub-edge is removed, and the others stay as they are. -/
theorem OwnsSubEdges.removeSubEdge (h : OwnsSubEdges g) (he : e ∈ g.edges)
    (hse : se ∈ g.getSubEdges e) :
    ∃ g', g.removeSubEdge e se = some g' ∧ Visited g e [se] g' ∧ se ∉ g'.getSubEdges e ∧
      g'.subEdgeIsMust = g.subEdgeIsMust := by
  obtain ⟨g', hg', hr⟩ := h.removeSubEdge_spec he hse
  have hleft : (g'.getSubEdges e).size ≠ 0 ↔ ∃ se, se ∈ g'.getSubEdges e := by
    rw [PtrSet.size, ne_eq, length_eq_zero_iff]
    refine ⟨exists_mem_of_ne_nil _, fun h => ?_⟩
    obtain ⟨se', hmem⟩ := h
    exact ne_nil_of_mem hmem
  refine ⟨g', hg', ?_, fun hmem => ((hr.mem_subEdges se).mp hmem).1 rfl, hr.subEdgeIsMust_eq⟩
  exact
    { owns :=
        { toEdgesOk := h.of_removed hr he
          subEdge_unique := fun x hx y hy z hz hz' =>
            h.subEdge_unique x ((hr.mem_edges x).mp hx).1 y ((hr.mem_edges y).mp hy).1 z
              (hr.getSubEdges_subset hz) (hr.getSubEdges_subset hz') }
      functions_eq := hr.functions_eq
      instructionNodes_eq := hr.instructionNodes_eq
      outgoingEdges_eq := fun n hn => removeSubEdge_outgoingEdges hg' hn
      attr_eq := hr.attr_eq
      mem_edges := fun x => by rw [hr.mem_edges, hleft]
      mem_of_mem := fun x hx => hr.getSubEdges_subset hx
      mem_iff := fun x hx => (hr.mem_subEdges x).trans (and_iff_right (ne_of_not_mem_cons hx))
      must_eq := fun x _ => by rw [hr.subEdgeIsMust_eq] }

/-- A sub-edge becomes must, and the others stay as they are. -/
theorem OwnsSubEdges.setMust (h : OwnsSubEdges g) (he : e ∈ g.edges) (hse : se ∈ g.getSubEdges e) :
    ∃ g', PDGGenerator.setMust g e se = some g' ∧ Visited g e [se] g' ∧ se ∈ g'.getSubEdges e ∧
      g'.subEdgeIsMust se = true := by
  let g' : CallGraph F I := { g with
    subEdgeIsMust := update g.subEdgeIsMust se true
    edgeAttr := update g.edgeAttr e (g.edgeAttr e).setMust }
  have hattr : ∀ x, x ≠ e → g'.edgeAttr x = g.edgeAttr x := fun x hx => update_of_ne hx ..
  have hself : g'.edgeAttr e = (g.edgeAttr e).setMust := update_self ..
  have hsubs : ∀ x, g'.getSubEdges x = g.getSubEdges x := by
    intro x
    by_cases hx : x = e
    · rw [hx, getSubEdges, hself]
      rfl
    · rw [getSubEdges, hattr x hx]
      rfl
  have hmust : ∀ x, x ≠ se → g'.subEdgeIsMust x = g.subEdgeIsMust x := fun x hx =>
    update_of_ne hx ..
  have hmustSelf : g'.subEdgeIsMust se = true := update_self ..
  have hok : EdgesOk g' :=
    { outgoing_iff := h.outgoing_iff
      incoming_iff := h.incoming_iff
      edge_nodes := h.edge_nodes
      instNode_ok := h.instNode_ok
      edge_fresh := h.edge_fresh
      subEdge_fresh := fun x hx y hy => h.subEdge_fresh x hx y (hsubs x ▸ hy)
      subEdges_ne := fun x hx => hsubs x ▸ h.subEdges_ne x hx
      subEdge_callee := fun x hx y hy => h.subEdge_callee x hx y (hsubs x ▸ hy)
      isMust_iff := by
        intro x hx
        rw [hsubs]
        by_cases hxe : x = e
        · subst hxe
          rw [isAMustCall, hself]
          exact iff_of_true rfl ⟨se, hse, hmustSelf⟩
        · rw [isAMustCall, hattr x hxe]
          refine (h.isMust_iff x hx).trans (exists_congr fun y => and_congr_right fun hy => ?_)
          rw [hmust y fun hyse => hxe (h.subEdge_unique x hx e he y hy (hyse ▸ hse))] }
  refine ⟨g', if_neg (not_or.mpr ⟨not_not.mpr he, not_not.mpr hse⟩), ?_, hsubs e ▸ hse, hmustSelf⟩
  exact
    { owns :=
        { toEdgesOk := hok
          subEdge_unique := fun x hx y hy z hz hz' =>
            h.subEdge_unique x hx y hy z (hsubs x ▸ hz) (hsubs y ▸ hz') }
      functions_eq := rfl
      instructionNodes_eq := rfl
      outgoingEdges_eq := fun _ _ => rfl
      attr_eq := hattr
      mem_edges := fun x => ⟨fun hx => ⟨hx, fun _ => ⟨se, hsubs e ▸ hse⟩⟩, And.left⟩
      mem_of_mem := fun x hx => hsubs e ▸ hx
      mem_iff := fun x _ => by rw [hsubs]
      must_eq := fun x hx => hmust x (ne_of_not_mem_cons hx) }

/-- The answer that the loop over the sub-edges still holds. -/
def SubEdgeState.Carries (st : SubEdgeState F I) : CallStrength → Prop
  | .cannotExist => 0 < st.toDelete.size
  | .mayExist => False
  | .mustExist => st.mustSubEdge.isSome = true

/-- The analyses know something about the call. -/
def Decided (ord : IterOrder) (an : CallGraphAnalyses F I A) (strength : CallStrength)
    (se : CallGraphInstructionFunctionEdge F I) : Prop :=
  strength ≠ .mayExist ∧ callStrength ord an se = strength

/-- The sub-edge is treated as its call was answered. -/
structure AsAnswered (ord : IterOrder) (an : CallGraphAnalyses F I A) (g : CallGraph F I)
    (e : CallGraphFunctionFunctionEdge F) (g' : CallGraph F I)
    (se : CallGraphInstructionFunctionEdge F I) : Prop where
  mem_iff : se ∈ g'.getSubEdges e ↔
    ¬ (g.subEdgeIsMust se = false ∧ Decided ord an .cannotExist se)
  must_iff : se ∈ g'.getSubEdges e → (g'.subEdgeIsMust se = true ↔
    g.subEdgeIsMust se = true ∨ Decided ord an .mustExist se)

/-- `st'` is `st` after the visit of `se`: what is carried out of it is applied to it. -/
structure Step (ord : IterOrder) (an : CallGraphAnalyses F I A) (e : CallGraphFunctionFunctionEdge F)
    (st : SubEdgeState F I) (se : CallGraphInstructionFunctionEdge F I) (st' : SubEdgeState F I) :
    Prop where
  visited : Visited st.noelleCG e [se] st'.noelleCG
  carries_iff : ∀ strength, st'.Carries strength ↔
    st.Carries strength ∨ (st.noelleCG.subEdgeIsMust se = false ∧ Decided ord an strength se)
  not_both : st.noelleCG.subEdgeIsMust se = false →
    ¬ (st'.Carries .cannotExist ∧ st'.Carries .mustExist)
  mem_iff : se ∈ st'.noelleCG.getSubEdges e ↔
    ¬ (st.noelleCG.subEdgeIsMust se = false ∧ st'.Carries .cannotExist)
  must_iff : se ∈ st'.noelleCG.getSubEdges e → (st'.noelleCG.subEdgeIsMust se = true ↔
    st.noelleCG.subEdgeIsMust se = true ∨ st'.Carries .mustExist)

variable (ord an st) in
theorem carries_queryFrom (hcallee : se.callee = e.callee) :
    (queryFrom an e se st (ord.visit an.cgAnalyses.elems)).noelleCG = st.noelleCG ∧
    ∀ strength, (queryFrom an e se st (ord.visit an.cgAnalyses.elems)).Carries strength ↔
      st.Carries strength ∨ Decided ord an strength se := by
  rw [queryFrom_eq, ← hcallee]
  change _ ∧ ∀ strength, _ ↔ _ ∨ (_ ∧ callStrength ord an se = strength)
  unfold callStrength
  cases strengthFrom an se.caller.i se.callee.f (ord.visit an.cgAnalyses.elems) with
  | cannotExist =>
      refine ⟨rfl, fun strength => ?_⟩
      cases strength with
      | cannotExist =>
          have hmem : se ∈ st.toDelete.insert se := mem_insert.mpr (.inl rfl)
          exact iff_of_true (length_pos_of_mem hmem) (.inr ⟨by decide, rfl⟩)
      | mayExist => simp [SubEdgeState.Carries]
      | mustExist => simp [SubEdgeState.Carries]
  | mayExist =>
      refine ⟨rfl, fun strength => ?_⟩
      cases strength <;> simp
  | mustExist =>
      refine ⟨rfl, fun strength => ?_⟩
      cases strength <;> simp [SubEdgeState.Carries]

variable (ord an) in
/-- A sub-edge is refined, or an assertion on its answers fails. -/
theorem refineSubEdge_spec (h : OwnsSubEdges st.noelleCG) (he : e ∈ st.noelleCG.edges)
    (hse : se ∈ st.noelleCG.getSubEdges e) :
    (refineSubEdge ord an e st se = none ∧ st.noelleCG.subEdgeIsMust se = false ∧
      (st.Carries .cannotExist ∨ Decided ord an .cannotExist se) ∧
      (st.Carries .mustExist ∨ Decided ord an .mustExist se)) ∨
    ∃ st', refineSubEdge ord an e st se = some st' ∧ Step ord an e st se st' := by
  unfold refineSubEdge
  rw [if_neg (not_not.mpr hse)]
  cases hmust : st.noelleCG.subEdgeIsMust se with
  | true =>
      refine .inr ⟨st, if_pos rfl, .refl h _, fun strength => ?_, fun hf => ?_, ?_, fun _ => ?_⟩
      · simp [hmust]
      · rw [hmust] at hf
        cases hf
      · simp [hmust, hse]
      · simp [hmust]
  | false =>
      rw [if_neg Bool.false_ne_true]
      obtain ⟨hg, hcarries⟩ := carries_queryFrom ord an st
        (h.subEdge_callee e he se hse)
      generalize queryFrom an e se st (ord.visit an.cgAnalyses.elems) = st₁ at hg hcarries
      have hiff : ∀ g', (⟨g', st₁.toDelete, st₁.mustSubEdge⟩ : SubEdgeState F I).Carries = st₁.Carries :=
        fun g' => by
          funext strength
          cases strength <;> rfl
      have hmay : ∀ strength, st₁.Carries strength ↔
          st.Carries strength ∨ (st.noelleCG.subEdgeIsMust se = false ∧ Decided ord an strength se) :=
        fun strength => by rw [hcarries, hmust, eq_self_iff_true, true_and]
      have hnone : st₁.mustSubEdge.isSome = false → ¬ st₁.Carries .mustExist := fun hsome hc => by
        rw [SubEdgeState.Carries, hsome] at hc
        cases hc
      unfold applyAnswers
      rw [hg]
      by_cases hcannot : st₁.Carries .cannotExist
      · have hsize : st₁.toDelete.size > 0 := hcannot
        cases hsome : st₁.mustSubEdge.isSome with
        | true =>
            refine .inl ⟨?_, rfl, (hcarries _).mp hcannot, (hcarries _).mp hsome⟩
            rw [if_pos hsize, if_pos rfl]
            rfl
        | false =>
            obtain ⟨g', hg', hvisited, hnot, hkeep⟩ := h.removeSubEdge he hse
            refine .inr ⟨⟨g', st₁.toDelete, st₁.mustSubEdge⟩, ?_, hvisited, ?_, ?_, ?_, ?_⟩
            · rw [if_pos hsize, if_neg Bool.false_ne_true, hg']
              rfl
            · rw [hiff]
              exact hmay
            · rw [hiff]
              exact fun _ hboth => hnone hsome hboth.2
            · rw [hiff]
              exact iff_of_false hnot (not_not.mpr ⟨hmust, hcannot⟩)
            · exact fun hmem => absurd hmem hnot
      · have hsize : ¬ st₁.toDelete.size > 0 := hcannot
        cases hsome : st₁.mustSubEdge.isSome with
        | true =>
            obtain ⟨g', hg', hvisited, hmem, hset⟩ := h.setMust he hse
            refine .inr ⟨⟨g', st₁.toDelete, st₁.mustSubEdge⟩, ?_, hvisited, ?_, ?_, ?_, ?_⟩
            · rw [if_neg hsize]
              change (PDGGenerator.setMust st.noelleCG e se).bind _ = _
              rw [hg']
              rfl
            · rw [hiff]
              exact hmay
            · rw [hiff]
              exact fun _ hboth => hcannot hboth.1
            · rw [hiff]
              exact iff_of_true hmem fun hdel => hcannot hdel.2
            · rw [hiff]
              exact fun _ => iff_of_true hset (.inr hsome)
        | false =>
            refine .inr ⟨⟨st.noelleCG, st₁.toDelete, st₁.mustSubEdge⟩, ?_, .refl h _, ?_, ?_, ?_, ?_⟩
            · rw [if_neg hsize]
              rfl
            · rw [hiff]
              exact hmay
            · rw [hiff]
              exact fun _ hboth => hcannot hboth.1
            · rw [hiff]
              exact iff_of_true hse fun hdel => hcannot hdel.2
            · rw [hiff]
              exact fun _ => ⟨.inl, fun hor => hor.resolve_right (hnone hsome)⟩

/-! ## The sub-edges of an edge -/

variable {l : List (CallGraphInstructionFunctionEdge F I)}

theorem Visited.rest (h : Visited g e [se] g') (hnodup : (se :: l).Nodup)
    (hl : ∀ se' ∈ se :: l, e ∈ g.edges ∧ se' ∈ g.getSubEdges e) :
    ∀ se' ∈ l, (e ∈ g'.edges ∧ se' ∈ g'.getSubEdges e) ∧
      g'.subEdgeIsMust se' = g.subEdgeIsMust se' := by
  intro se' hse'
  have hne : se' ∉ [se] := fun heq =>
    (nodup_cons.mp hnodup).1 (mem_singleton.mp heq ▸ hse')
  obtain ⟨he, hmem⟩ := hl se' (.tail se hse')
  have hmem' := (h.mem_iff se' hne).mpr hmem
  exact ⟨⟨h.mem_edges_of_mem he hmem', hmem'⟩, h.must_eq se' hne⟩

/-- The sub-edges are all visited, each once. -/
theorem refineSubEdges_visited : ∀ {l : List (CallGraphInstructionFunctionEdge F I)}
    {st st' : SubEdgeState F I}, OwnsSubEdges st.noelleCG → l.Nodup →
    (∀ se ∈ l, e ∈ st.noelleCG.edges ∧ se ∈ st.noelleCG.getSubEdges e) →
    l.foldlM (refineSubEdge ord an e) st = some st' → Visited st.noelleCG e l st'.noelleCG
  | [], st, st', h, _, _, hrun => by
      rw [foldlM_nil] at hrun
      cases hrun
      exact .refl h []
  | se :: l, st, st', h, hnodup, hl, hrun => by
      rw [foldlM_cons] at hrun
      obtain ⟨he, hse⟩ := hl se (.head _)
      rcases refineSubEdge_spec ord an h he hse with ⟨hnone, _⟩ | ⟨st₁, hst₁, hstep⟩
      · rw [hnone] at hrun
        cases hrun
      · rw [hst₁] at hrun
        have hrest := hstep.visited.rest hnodup hl
        exact hstep.visited.trans (refineSubEdges_visited hstep.visited.owns hnodup.of_cons
          (fun se' hse' => (hrest se' hse').1) hrun)

/-- A step follows the answers exactly if the flags carried over agree with them. -/
theorem Step.asAnswered_iff (h : Step ord an e st se st') :
    AsAnswered ord an st.noelleCG e st'.noelleCG se ↔ (st.noelleCG.subEdgeIsMust se = false →
      ∀ strength, st.Carries strength → Decided ord an strength se) := by
  cases hmust : st.noelleCG.subEdgeIsMust se with
  | true =>
      refine iff_of_true ⟨h.mem_iff.trans (by simp [hmust]), fun hmem => ?_⟩ (fun hf => by cases hf)
      rw [h.must_iff hmem, hmust]
      exact iff_of_true (.inl rfl) (.inl rfl)
  | false =>
      have hcarries : ∀ strength, st'.Carries strength ↔
          st.Carries strength ∨ Decided ord an strength se := fun strength => by
        rw [h.carries_iff, hmust, eq_self_iff_true, true_and]
      have hmem : se ∈ st'.noelleCG.getSubEdges e ↔ ¬ st'.Carries .cannotExist := by
        rw [h.mem_iff, hmust, eq_self_iff_true, true_and]
      have hmustIff := h.must_iff
      rw [hmust] at hmustIff
      simp only [Bool.false_eq_true, false_or] at hmustIff
      constructor
      · intro hans _ strength hc
        have hc' := (hcarries strength).mpr (.inl hc)
        cases strength with
        | mayExist => exact hc.elim
        | cannotExist =>
            have hnot : se ∉ st'.noelleCG.getSubEdges e := fun hse => hmem.mp hse hc'
            rw [hans.mem_iff, not_not] at hnot
            exact hnot.2
        | mustExist =>
            have hse := hmem.mpr fun hcannot => h.not_both hmust ⟨hcannot, hc'⟩
            refine ((hans.must_iff hse).mp ((hmustIff hse).mpr hc')).resolve_left ?_
            exact Bool.eq_false_iff.mp hmust
      · intro hagree
        have hiff : ∀ strength, st'.Carries strength ↔ Decided ord an strength se := fun strength =>
          (hcarries strength).trans (or_iff_right_of_imp (hagree rfl strength))
        refine ⟨?_, fun hse => ?_⟩
        · rw [hmem, hiff, hmust, eq_self_iff_true, true_and]
        · rw [hmustIff hse, hiff, hmust]
          simp

omit [DecidableEq F] [DecidableEq I] in
theorem Decided.not_both (h : Decided ord an .cannotExist se) : ¬ Decided ord an .mustExist se :=
  fun h' => by
    have heq := h.2.symm.trans h'.2
    cases heq

omit [DecidableEq F] [DecidableEq I] in
theorem AsAnswered.congr {g₁ g₁' : CallGraph F I} (h : AsAnswered ord an g e g' se)
    (hmem : se ∈ g₁'.getSubEdges e ↔ se ∈ g'.getSubEdges e)
    (hmust : g₁.subEdgeIsMust se = g.subEdgeIsMust se)
    (hmust' : g₁'.subEdgeIsMust se = g'.subEdgeIsMust se) : AsAnswered ord an g₁ e g₁' se where
  mem_iff := by rw [hmem, h.mem_iff, hmust]
  must_iff := fun hse => by rw [hmust', h.must_iff (hmem.mp hse), hmust]

variable (ord an) in
/-- When all the sub-edges of an edge are treated as answered. -/
theorem refineSubEdges_iff : ∀ {l : List (CallGraphInstructionFunctionEdge F I)}
    {st : SubEdgeState F I}, OwnsSubEdges st.noelleCG → l.Nodup →
    (∀ se ∈ l, e ∈ st.noelleCG.edges ∧ se ∈ st.noelleCG.getSubEdges e) →
    ((∃ st', l.foldlM (refineSubEdge ord an e) st = some st' ∧
        ∀ se ∈ l, AsAnswered ord an st.noelleCG e st'.noelleCG se) ↔
      (∀ se ∈ l, st.noelleCG.subEdgeIsMust se = false →
        ∀ strength, st.Carries strength → Decided ord an strength se) ∧
      l.Pairwise fun se se' => st.noelleCG.subEdgeIsMust se = false →
        st.noelleCG.subEdgeIsMust se' = false →
        ∀ strength, Decided ord an strength se → Decided ord an strength se')
  | [], st, _, _, _ => iff_of_true ⟨st, rfl, nofun⟩
      ⟨nofun, List.Pairwise.nil⟩
  | se :: l, st, h, hnodup, hl => by
      obtain ⟨he, hse⟩ := hl se (.head _)
      rw [foldlM_cons, forall_mem_cons, pairwise_cons]
      rcases refineSubEdge_spec ord an h he hse with
        ⟨hnone, hmay, hcannot, hmust⟩ | ⟨st₁, hst₁, hstep⟩
      · rw [hnone]
        refine iff_of_false (fun hrun => ?_) fun hagree => ?_
        · obtain ⟨st', hrun, _⟩ := hrun
          cases hrun
        · have hcarried := hagree.1.1 hmay
          exact (hcannot.elim (hcarried _) id).not_both (hmust.elim (hcarried _) id)
      · rw [hst₁]
        have hrest := hstep.visited.rest hnodup hl
        have hl₁ := fun se' hse' => (hrest se' hse').1
        have hsame := fun se' hse' => (hrest se' hse').2
        have hnot := (nodup_cons.mp hnodup).1
        have ih := refineSubEdges_iff hstep.visited.owns hnodup.of_cons hl₁
        -- the sub-edges that follow do not touch the one that was visited
        have hhead : ∀ st', l.foldlM (refineSubEdge ord an e) st₁ = some st' →
            (AsAnswered ord an st.noelleCG e st'.noelleCG se ↔ (st.noelleCG.subEdgeIsMust se = false →
              ∀ strength, st.Carries strength → Decided ord an strength se)) := by
          intro st' hrun
          have hvisited := refineSubEdges_visited hstep.visited.owns hnodup.of_cons hl₁ hrun
          have hmem := hvisited.mem_iff se hnot
          have hmust := hvisited.must_eq se hnot
          rw [← hstep.asAnswered_iff]
          exact ⟨fun hans => hans.congr hmem.symm rfl hmust.symm, fun hans => hans.congr hmem rfl hmust⟩
        constructor
        · rintro ⟨st', hrun, hans⟩
          obtain ⟨hans, htail⟩ := forall_mem_cons.mp hans
          obtain ⟨hcarried, hpair⟩ := ih.mp ⟨st', hrun, fun se' hse' =>
            (htail se' hse').congr Iff.rfl (hsame se' hse') rfl⟩
          have hcarried' : ∀ se' ∈ l, st.noelleCG.subEdgeIsMust se' = false →
              ∀ strength, st₁.Carries strength → Decided ord an strength se' := by
            intro se' hse' hmay
            exact hcarried se' hse' ((hsame se' hse').trans hmay)
          refine ⟨⟨(hhead st' hrun).mp hans, fun se' hse' hmay strength hc => ?_⟩,
            fun se' hse' hmay hmay' strength hdec => ?_, ?_⟩
          · exact hcarried' se' hse' hmay strength ((hstep.carries_iff _).mpr (.inl hc))
          · exact hcarried' se' hse' hmay' strength ((hstep.carries_iff _).mpr (.inr ⟨hmay, hdec⟩))
          · refine hpair.imp_of_mem fun {a b} ha hb hab => ?_
            rw [← hsame a ha, ← hsame b hb]
            exact hab
        · rintro ⟨⟨hagree, hcarried⟩, hfirst, hpair⟩
          have hcarried₁ : ∀ se' ∈ l, st₁.noelleCG.subEdgeIsMust se' = false →
              ∀ strength, st₁.Carries strength → Decided ord an strength se' := by
            intro se' hse' hmay strength hc
            have hmay' := (hsame se' hse').symm.trans hmay
            rcases (hstep.carries_iff _).mp hc with hc | ⟨hmay₀, hdec⟩
            · exact hcarried se' hse' hmay' strength hc
            · exact hfirst se' hse' hmay₀ hmay' strength hdec
          have hpair₁ : l.Pairwise fun se se' => st₁.noelleCG.subEdgeIsMust se = false →
              st₁.noelleCG.subEdgeIsMust se' = false →
              ∀ strength, Decided ord an strength se → Decided ord an strength se' := by
            refine hpair.imp_of_mem fun {a b} ha hb hab => ?_
            rw [hsame a ha, hsame b hb]
            exact hab
          obtain ⟨st', hrun, htail⟩ := ih.mpr ⟨hcarried₁, hpair₁⟩
          refine ⟨st', hrun, forall_mem_cons.mpr ⟨(hhead st' hrun).mpr hagree, ?_⟩⟩
          exact fun se' hse' => (htail se' hse').congr Iff.rfl (hsame se' hse').symm rfl

/-! ## One edge -/

/-- What an analysis knows of the call of a may sub-edge, some analysis knows of the may
sub-edges of the edge that are visited after it. -/
def AnswersLast (ord : IterOrder) (an : CallGraphAnalyses F I A) (g : CallGraph F I)
    (e : CallGraphFunctionFunctionEdge F) : Prop :=
  (ord.visit (g.getSubEdges e).elems).Pairwise fun se se' =>
    g.subEdgeIsMust se = false → g.subEdgeIsMust se' = false → ∀ strength, strength ≠ .mayExist →
      an.Answered strength se.caller.i se.callee.f → an.Answered strength se'.caller.i se'.callee.f

/-- The answers are applied to the sub-edges of `e`, and to nothing else of it. -/
structure EdgeRefined (an : CallGraphAnalyses F I A) (g : CallGraph F I)
    (e : CallGraphFunctionFunctionEdge F) (g' : CallGraph F I) : Prop where
  /-- A may sub-edge is removed iff its call cannot reach its callee. -/
  mem_subEdges : ∀ se, se ∈ g'.getSubEdges e ↔ se ∈ g.getSubEdges e ∧
    ¬ (g.subEdgeIsMust se = false ∧ an.Answered .cannotExist se.caller.i se.callee.f)
  /-- A may sub-edge becomes a must sub-edge iff its call must reach its callee. -/
  subEdgeIsMust_iff : ∀ se ∈ g'.getSubEdges e, (g'.subEdgeIsMust se = true ↔
    g.subEdgeIsMust se = true ∨ an.Answered .mustExist se.caller.i se.callee.f)
  /-- The edge is left while it has sub-edges. -/
  mem_edges : e ∈ g'.edges ↔ ∃ se, se ∈ g'.getSubEdges e
  /-- Without answers nothing changes. -/
  edgeAttr_eq : (∀ se ∈ g.getSubEdges e, g.subEdgeIsMust se = false →
    ∀ strength, strength ≠ .mayExist → ¬ an.Answered strength se.caller.i se.callee.f) →
    g'.edgeAttr e = g.edgeAttr e

/-- Without a definite answer nothing changes. -/
theorem refineSubEdges_of_not_decided (hok : EdgesOk g) (he : e ∈ g.edges)
    (hl : ∀ se ∈ l, se ∈ g.getSubEdges e)
    (hno : ∀ se ∈ l, g.subEdgeIsMust se = false → callStrength ord an se = .mayExist) :
    l.foldlM (refineSubEdge ord an e) ⟨g, ∅, none⟩ = some ⟨g, ∅, none⟩ := by
  induction l with
  | nil => rfl
  | cons se l ih =>
      have hse := hl se (.head _)
      have hhead : refineSubEdge ord an e ⟨g, ∅, none⟩ se = some ⟨g, ∅, none⟩ := by
        unfold refineSubEdge
        rw [if_neg (not_not.mpr hse)]
        cases hmust : g.subEdgeIsMust se with
        | true => rfl
        | false =>
            have hmay := hno se (.head _) hmust
            rw [callStrength, hok.subEdge_callee e he se hse] at hmay
            rw [if_neg Bool.false_ne_true, queryFrom_eq, hmay]
            rfl
      rw [foldlM_cons, hhead]
      exact ih (fun se' hse' => hl se' (.tail se hse'))
        fun se' hse' => hno se' (.tail se hse')

omit [DecidableEq F] [DecidableEq I] in
theorem CallGraphAnalyses.Consistent.decided_iff (hcons : an.Consistent) :
    Decided ord an strength se ↔
      strength ≠ .mayExist ∧ an.Answered strength se.caller.i se.callee.f :=
  and_congr_right fun hne => hcons.callStrength_eq_iff hne

omit [DecidableEq F] [DecidableEq I] in
theorem visit_subEdges (ord : IterOrder) (he : e ∈ g.edges) :
    (ord.visit (g.getSubEdges e).elems).Nodup ∧
      ∀ se ∈ ord.visit (g.getSubEdges e).elems, e ∈ g.edges ∧ se ∈ g.getSubEdges e :=
  ⟨ord.nodup_visit (g.getSubEdges e).nodup, fun _ hse => ⟨he, mem_elems.mp (ord.mem_visit.mp hse)⟩⟩

theorem refineEdge_visited (h : OwnsSubEdges g) (hrun : refineEdge ord an g e = some g') :
    Visited g e (ord.visit (g.getSubEdges e).elems) g' := by
  unfold refineEdge at hrun
  split at hrun
  · cases hrun
  · rename_i he
    obtain ⟨st, hst, rfl⟩ := map_eq_some_iff.mp hrun
    obtain ⟨hnodup, hl⟩ := visit_subEdges ord (not_not.mp he)
    exact refineSubEdges_visited h hnodup hl hst

/-- When an edge is refined as its sub-edges are answered. -/
theorem refineEdge_iff (hcons : an.Consistent) (h : OwnsSubEdges g) (he : e ∈ g.edges) :
    (∃ g', refineEdge ord an g e = some g' ∧ EdgeRefined an g e g') ↔ AnswersLast ord an g e := by
  obtain ⟨hnodup, hl⟩ := visit_subEdges ord he
  have hiff := @refineSubEdges_iff _ _ _ _ _ ord an _ _ ⟨g, ∅, none⟩ h hnodup hl
  have hcarries : ∀ strength, ¬ (⟨g, ∅, none⟩ : SubEdgeState F I).Carries strength := by
    intro strength
    cases strength <;> simp [SubEdgeState.Carries, PtrSet.size]
  have hlast : AnswersLast ord an g e ↔ (ord.visit (g.getSubEdges e).elems).Pairwise fun se se' =>
      g.subEdgeIsMust se = false → g.subEdgeIsMust se' = false →
        ∀ strength, Decided ord an strength se → Decided ord an strength se' := by
    unfold AnswersLast
    simp only [hcons.decided_iff]
    refine ⟨fun hpair => hpair.imp fun hab hmay hmay' strength hdec =>
      ⟨hdec.1, hab hmay hmay' strength hdec.1 hdec.2⟩, fun hpair => hpair.imp ?_⟩
    exact fun hab hmay hmay' strength hne hans => (hab hmay hmay' strength ⟨hne, hans⟩).2
  have hrefine : ∀ st', (ord.visit (g.getSubEdges e).elems).foldlM (refineSubEdge ord an e)
      ⟨g, ∅, none⟩ = some st' → (EdgeRefined an g e st'.noelleCG ↔
        ∀ se ∈ ord.visit (g.getSubEdges e).elems, AsAnswered ord an g e st'.noelleCG se) := by
    intro st' hrun
    have hvisited := refineSubEdges_visited h hnodup hl hrun
    constructor
    · intro href se hse
      have hmem := (hl se hse).2
      refine ⟨?_, fun hleft => ?_⟩
      · rw [href.mem_subEdges, hcons.decided_iff]
        simp [hmem]
      · rw [href.subEdgeIsMust_iff se hleft, hcons.decided_iff]
        simp
    · intro hans
      refine ⟨fun se => ?_, fun se hleft => ?_, ?_, fun hno => ?_⟩
      · constructor
        · intro hleft
          have hmem := hvisited.mem_of_mem se hleft
          have hse := ord.mem_visit.mpr (mem_elems.mpr hmem)
          have hkept := (hans se hse).mem_iff.mp hleft
          rw [hcons.decided_iff] at hkept
          exact ⟨hmem, fun hdel => hkept ⟨hdel.1, by decide, hdel.2⟩⟩
        · rintro ⟨hmem, hkept⟩
          have hse := ord.mem_visit.mpr (mem_elems.mpr hmem)
          rw [(hans se hse).mem_iff, hcons.decided_iff]
          exact fun hdel => hkept ⟨hdel.1, hdel.2.2⟩
      · have hse := ord.mem_visit.mpr (mem_elems.mpr (hvisited.mem_of_mem se hleft))
        rw [(hans se hse).must_iff hleft, hcons.decided_iff]
        simp
      · rw [hvisited.mem_edges]
        exact ⟨fun hmem => hmem.2 rfl, fun hleft => ⟨he, fun _ => hleft⟩⟩
      · have hmay : ∀ se ∈ ord.visit (g.getSubEdges e).elems, g.subEdgeIsMust se = false →
            callStrength ord an se = .mayExist := by
          intro se hse hmust
          by_contra hne
          exact hno se (hl se hse).2 hmust _ hne ((hcons.callStrength_eq_iff hne).mp rfl)
        rw [refineSubEdges_of_not_decided h.toEdgesOk he (fun se hse => (hl se hse).2) hmay] at hrun
        rw [← some.inj hrun]
  rw [hlast]
  constructor
  · rintro ⟨g', hrun, href⟩
    unfold refineEdge at hrun
    rw [if_neg (not_not.mpr he)] at hrun
    obtain ⟨st', hst', rfl⟩ := map_eq_some_iff.mp hrun
    exact (hiff.mp ⟨st', hst', (hrefine st' hst').mp href⟩).2
  · intro hpair
    obtain ⟨st', hst', hans⟩ := hiff.mpr ⟨fun se _ _ strength hc => absurd hc (hcarries strength), hpair⟩
    refine ⟨st'.noelleCG, ?_, (hrefine st' hst').mpr hans⟩
    unfold refineEdge
    rw [if_neg (not_not.mpr he), hst']
    rfl

/-! ## All edges -/

/-- Nothing that is known of `e` changed. -/
structure SameEdge (g : CallGraph F I) (e : CallGraphFunctionFunctionEdge F) (g' : CallGraph F I) :
    Prop where
  attr_eq : g'.edgeAttr e = g.edgeAttr e
  mem_edges : e ∈ g'.edges ↔ e ∈ g.edges
  must_eq : e ∈ g.edges → ∀ se ∈ g.getSubEdges e, g'.subEdgeIsMust se = g.subEdgeIsMust se

section

omit [DecidableEq F] [DecidableEq I]

theorem SameEdge.getSubEdges_eq (h : SameEdge g e g') : g'.getSubEdges e = g.getSubEdges e := by
  rw [getSubEdges, h.attr_eq]
  rfl

theorem SameEdge.symm (h : SameEdge g e g') : SameEdge g' e g where
  attr_eq := h.attr_eq.symm
  mem_edges := h.mem_edges.symm
  must_eq := fun he se hse => (h.must_eq (h.mem_edges.mp he) se (h.getSubEdges_eq ▸ hse)).symm

theorem SameEdge.trans {g'' : CallGraph F I} (h : SameEdge g e g') (h' : SameEdge g' e g'') :
    SameEdge g e g'' where
  attr_eq := h'.attr_eq.trans h.attr_eq
  mem_edges := h'.mem_edges.trans h.mem_edges
  must_eq := fun he se hse =>
    (h'.must_eq (h.mem_edges.mpr he) se (h.getSubEdges_eq ▸ hse)).trans (h.must_eq he se hse)

theorem EdgeRefined.congr_right {g₁ : CallGraph F I} (h : EdgeRefined an g e g₁)
    (hsame : SameEdge g₁ e g') : EdgeRefined an g e g' where
  mem_subEdges := fun se => by rw [hsame.getSubEdges_eq, h.mem_subEdges]
  subEdgeIsMust_iff := by
    intro se hse
    rw [hsame.getSubEdges_eq] at hse
    rw [hsame.must_eq (h.mem_edges.mpr ⟨se, hse⟩) se hse, h.subEdgeIsMust_iff se hse]
  mem_edges := by rw [hsame.mem_edges, hsame.getSubEdges_eq, h.mem_edges]
  edgeAttr_eq := fun hno => hsame.attr_eq.trans (h.edgeAttr_eq hno)

theorem EdgeRefined.congr_left {g₁ : CallGraph F I} (h : EdgeRefined an g e g') (he : e ∈ g.edges)
    (hsame : SameEdge g e g₁) : EdgeRefined an g₁ e g' where
  mem_subEdges := by
    intro se
    rw [h.mem_subEdges, hsame.getSubEdges_eq]
    exact and_congr_right fun hse => by rw [hsame.must_eq he se hse]
  subEdgeIsMust_iff := by
    intro se hse
    rw [h.subEdgeIsMust_iff se hse, hsame.must_eq he se ((h.mem_subEdges se).mp hse).1]
  mem_edges := h.mem_edges
  edgeAttr_eq := by
    intro hno
    rw [hsame.attr_eq]
    refine h.edgeAttr_eq fun se hse hmay => ?_
    exact hno se (hsame.getSubEdges_eq ▸ hse) ((hsame.must_eq he se hse).trans hmay)

theorem AnswersLast.congr (h : AnswersLast ord an g e) (he : e ∈ g.edges) (hsame : SameEdge g e g') :
    AnswersLast ord an g' e := by
  unfold AnswersLast
  rw [hsame.getSubEdges_eq]
  refine h.imp_of_mem fun {a b} ha hb hab => ?_
  rw [hsame.must_eq he a (mem_elems.mp (ord.mem_visit.mp ha)),
    hsame.must_eq he b (mem_elems.mp (ord.mem_visit.mp hb))]
  exact hab

end

/-- `g'` is `g` after visits of the edges `es`. -/
structure EdgesVisited (g : CallGraph F I) (es : List (CallGraphFunctionFunctionEdge F))
    (g' : CallGraph F I) : Prop where
  owns : OwnsSubEdges g'
  functions_eq : g'.functions = g.functions
  instructionNodes_eq : g'.instructionNodes = g.instructionNodes
  mem_of_mem : ∀ x ∈ g'.edges, x ∈ g.edges
  same : ∀ x ∉ es, SameEdge g x g'

theorem Visited.edgesVisited (h : OwnsSubEdges g) (he : e ∈ g.edges) (hl : ∀ se ∈ l, se ∈ g.getSubEdges e)
    (hvisited : Visited g e l g') : EdgesVisited g [e] g' where
  owns := hvisited.owns
  functions_eq := hvisited.functions_eq
  instructionNodes_eq := hvisited.instructionNodes_eq
  mem_of_mem := fun x hx => ((hvisited.mem_edges x).mp hx).1
  same := by
    intro x hx
    have hxe : x ≠ e := fun heq => hx (mem_singleton.mpr heq)
    exact
      { attr_eq := hvisited.attr_eq x hxe
        mem_edges := (hvisited.mem_edges x).trans (and_iff_left fun heq => absurd heq hxe)
        must_eq := fun hxmem se hse => hvisited.must_eq se fun hmem =>
          hxe (h.subEdge_unique x hxmem e he se hse (hl se hmem)) }

theorem EdgesVisited.trans {g'' : CallGraph F I} {es es' : List (CallGraphFunctionFunctionEdge F)}
    (h : EdgesVisited g es g') (h' : EdgesVisited g' es' g'') : EdgesVisited g (es ++ es') g'' where
  owns := h'.owns
  functions_eq := h'.functions_eq.trans h.functions_eq
  instructionNodes_eq := h'.instructionNodes_eq.trans h.instructionNodes_eq
  mem_of_mem := fun x hx => h.mem_of_mem x (h'.mem_of_mem x hx)
  same := by
    intro x hx
    rw [mem_append, not_or] at hx
    exact (h.same x hx.1).trans (h'.same x hx.2)

theorem refineEdge_edgesVisited (h : OwnsSubEdges g) (he : e ∈ g.edges)
    (hrun : refineEdge ord an g e = some g') : EdgesVisited g [e] g' :=
  (refineEdge_visited h hrun).edgesVisited h he fun se hse => ((visit_subEdges ord he).2 se hse).2

theorem refineEdges_visited : ∀ {es : List (CallGraphFunctionFunctionEdge F)} {g : CallGraph F I},
    OwnsSubEdges g → es.Nodup → (∀ e ∈ es, e ∈ g.edges) →
    es.foldlM (refineEdge ord an) g = some g' → EdgesVisited g es g'
  | [], g, h, _, _, hrun => by
      rw [foldlM_nil] at hrun
      cases hrun
      exact ⟨h, rfl, rfl, fun _ => id, fun _ _ => ⟨rfl, Iff.rfl, fun _ _ _ => rfl⟩⟩
  | e :: es, g, h, hnodup, hes, hrun => by
      obtain ⟨hnot, hnodup⟩ := nodup_cons.mp hnodup
      rw [foldlM_cons] at hrun
      obtain ⟨g₁, hg₁, hrun⟩ := bind_eq_some_iff.mp hrun
      have hvisited := refineEdge_edgesVisited h (hes e (.head _)) hg₁
      refine hvisited.trans (refineEdges_visited hvisited.owns hnodup (fun x hx => ?_) hrun)
      have hne : x ∉ [e] := fun heq => hnot (mem_singleton.mp heq ▸ hx)
      exact (hvisited.same x hne).mem_edges.mpr (hes x (.tail e hx))

variable (ord) in
/-- When all the edges are refined as they are answered. -/
theorem refineEdges_iff (hcons : an.Consistent) : ∀ {es : List (CallGraphFunctionFunctionEdge F)}
    {g : CallGraph F I}, OwnsSubEdges g → es.Nodup → (∀ e ∈ es, e ∈ g.edges) →
    ((∃ g', es.foldlM (refineEdge ord an) g = some g' ∧ ∀ e ∈ es, EdgeRefined an g e g') ↔
      ∀ e ∈ es, AnswersLast ord an g e)
  | [], g, _, _, _ => iff_of_true ⟨g, rfl, nofun⟩
      nofun
  | e :: es, g, h, hnodup, hes => by
      obtain ⟨hnot, hnodup⟩ := nodup_cons.mp hnodup
      obtain ⟨he, hes⟩ := forall_mem_cons.mp hes
      rw [forall_mem_cons, ← refineEdge_iff hcons h he, foldlM_cons]
      -- one edge does not touch the others
      have hrest : ∀ {g₁}, refineEdge ord an g e = some g₁ → OwnsSubEdges g₁ ∧
          (∀ x ∈ es, x ∈ g₁.edges) ∧ ∀ x ∈ es, SameEdge g x g₁ := fun hg₁ => by
        have hvisited := refineEdge_edgesVisited h he hg₁
        have hsame : ∀ x ∈ es, SameEdge g x _ := fun x hx => hvisited.same x fun heq =>
          hnot (mem_singleton.mp heq ▸ hx)
        exact ⟨hvisited.owns, fun x hx => (hsame x hx).mem_edges.mpr (hes x hx), hsame⟩
      constructor
      · rintro ⟨g', hrun, href⟩
        obtain ⟨hhead, htail⟩ := forall_mem_cons.mp href
        obtain ⟨g₁, hg₁, hrun⟩ := bind_eq_some_iff.mp hrun
        obtain ⟨howns, hes₁, hsame⟩ := hrest hg₁
        have hvisited := refineEdges_visited howns hnodup hes₁ hrun
        refine ⟨⟨g₁, hg₁, hhead.congr_right (hvisited.same e hnot).symm⟩, fun x hx => ?_⟩
        have hlast := (refineEdges_iff hcons howns hnodup hes₁).mp
          ⟨g', hrun, fun y hy => (htail y hy).congr_left (hes y hy) (hsame y hy)⟩ x hx
        exact hlast.congr (hes₁ x hx) (hsame x hx).symm
      · rintro ⟨⟨g₁, hg₁, hhead⟩, hlast⟩
        obtain ⟨howns, hes₁, hsame⟩ := hrest hg₁
        obtain ⟨g', hrun, htail⟩ := (refineEdges_iff hcons howns hnodup hes₁).mpr
          fun x hx => (hlast x hx).congr (hes x hx) (hsame x hx)
        have hvisited := refineEdges_visited howns hnodup hes₁ hrun
        refine ⟨g', by rw [hg₁]; exact hrun, forall_mem_cons.mpr ⟨?_, fun x hx => ?_⟩⟩
        · exact hhead.congr_right (hvisited.same e hnot)
        · exact (htail x hx).congr_left (hes₁ x hx) (hsame x hx).symm

/-! ## The call graph -/

/-- `g'` is `g` with the answers of the analyses applied, and nothing else changed. -/
structure AnswersApplied (an : CallGraphAnalyses F I A) (g g' : CallGraph F I) : Prop where
  functions_eq : g'.functions = g.functions
  instructionNodes_eq : g'.instructionNodes = g.instructionNodes
  invariant : EdgeInvariant g'
  mem_of_mem : ∀ e ∈ g'.edges, e ∈ g.edges
  refined : ∀ e ∈ g.edges, EdgeRefined an g e g'

/-- The edges in the order of the visits. -/
def visitEdges (ord : IterOrder) (g : CallGraph F I) : List (CallGraphFunctionFunctionEdge F) :=
  (ord.visit g.getFunctionNodes.elems).flatMap fun node => ord.visit (g.getOutgoingEdges node).elems

theorem mem_visitEdges (h : EdgesOk g) : e ∈ visitEdges ord g ↔ e ∈ g.edges := by
  rw [visitEdges, mem_flatMap]
  constructor
  · rintro ⟨node, -, he⟩
    exact (h.mem_getOutgoingEdges.mp (mem_elems.mp (ord.mem_visit.mp he))).1
  · intro he
    refine ⟨e.caller, ord.mem_visit.mpr (h.edgeInvariant.edge_nodes e he).1, ?_⟩
    exact ord.mem_visit.mpr (h.mem_getOutgoingEdges.mpr ⟨he, rfl⟩)

theorem nodup_visitEdges (h : EdgesOk g) : (visitEdges ord g).Nodup := by
  refine nodup_flatMap.mpr ⟨fun node _ => ord.nodup_visit (g.getOutgoingEdges node).nodup, ?_⟩
  refine (ord.nodup_visit g.getFunctionNodes.nodup).imp fun {n m} hne => ?_
  intro e hn hm
  have hcaller := fun {node} (he : e ∈ ord.visit (g.getOutgoingEdges node).elems) =>
    (h.mem_getOutgoingEdges.mp (mem_elems.mp (ord.mem_visit.mp he))).2
  exact hne ((hcaller hn).symm.trans (hcaller hm))

theorem getProgramCallGraph_eq (h : OwnsSubEdges g) (hsize : an.cgAnalyses.size > 0) :
    getProgramCallGraph ord an g = (visitEdges ord g).foldlM (refineEdge ord an) g := by
  unfold getProgramCallGraph
  rw [if_pos hsize]
  refine foldlM_flatMap_of_stable (P := OwnsSubEdges) (ord.nodup_visit g.getFunctionNodes.nodup) h
    (fun _ _ => rfl) ?_
  intro node _ e he s s' hs hrun
  have hvisited := refineEdge_visited hs hrun
  have hcaller := (h.mem_getOutgoingEdges.mp (mem_elems.mp (ord.mem_visit.mp he))).2
  refine ⟨hvisited.owns, fun node' hne => ?_⟩
  rw [getOutgoingEdges, hvisited.outgoingEdges_eq node' fun heq => hne (heq.trans hcaller)]
  rfl

/-- Two functions; the first one has two indirect calls. -/
def twoIndirectCalls : IRModule Nat Nat where
  functions := ⟨[1, 2], nodup_one_two⟩
  instructions f := if f = 1 then [10, 11] else []
  kind _ := .callInst none
  getFunction _ := 1
  uses _ := []
  getFunction_eq := by decide
  use_ok := by decide
  callee_ok := by decide

/-- Both calls may reach the second function. -/
def twoIndirectCallsGraph : CallGraph Nat Nat :=
  (CallGraph.new twoIndirectCalls .stored (fun _ => true) (fun _ => ⟨[2], nodup_singleton 2⟩)).getD CallGraph.empty

/-- The call that is visited first does not reach it. -/
def firstCallCannot : CallGraphAnalyses Nat Nat Nat where
  cgAnalyses := ⟨[0], nodup_zero⟩
  canThisFunctionBeACallee _ i _ := if i = 11 then .cannotExist else .mayExist

theorem twoIndirectCallsGraph_edgesOk : EdgesOk twoIndirectCallsGraph := by
  have hcallees : CalleesOk twoIndirectCalls fun _ => ⟨[2], nodup_singleton 2⟩ := by
    unfold CalleesOk
    decide
  obtain ⟨g, hg, hof⟩ := new_ofModule .stored (fun _ => true) hcallees
  rw [twoIndirectCallsGraph, hg]
  exact hof.toEdgesOk

theorem firstCallCannot_consistent : firstCallCannot.Consistent := by
  rintro i f ⟨-, cga, -, hans⟩
  change (if i = 11 then CallStrength.cannotExist else .mayExist) = .mustExist at hans
  split at hans <;> cases hans

/-- **Call graph refinement**: the answers of analyses that do not contradict each other are
applied exactly, and nothing that was destroyed is used, if and only if the may sub-edges of
an edge that are visited after one with an answer have the same answer. -/
theorem getProgramCallGraph_answersApplied_iff {M : IRModule F I} (h : EdgesOk g)
    (hsubs : SubEdgesInCaller M g) (hcons : an.Consistent) :
    (∃ g', getProgramCallGraph ord an g = some g' ∧ AnswersApplied an g g') ↔
      ∀ e ∈ g.edges, AnswersLast ord an g e := by
  have howns := OwnsSubEdges.of_subEdgesInCaller h hsubs
  by_cases hsize : an.cgAnalyses.size > 0
  · have hmem : ∀ e ∈ visitEdges ord g, e ∈ g.edges := fun _ he => (mem_visitEdges h).mp he
    have hiff := refineEdges_iff ord hcons howns (nodup_visitEdges h) hmem
    rw [getProgramCallGraph_eq howns hsize]
    constructor
    · rintro ⟨g', hrun, happlied⟩ e he
      exact hiff.mp ⟨g', hrun, fun x hx => happlied.refined x (hmem x hx)⟩ e ((mem_visitEdges h).mpr he)
    · intro hlast
      obtain ⟨g', hrun, href⟩ := hiff.mpr fun e he => hlast e (hmem e he)
      have hvisited := refineEdges_visited howns (nodup_visitEdges h) hmem hrun
      exact ⟨g', hrun, hvisited.functions_eq, hvisited.instructionNodes_eq,
        hvisited.owns.edgeInvariant, hvisited.mem_of_mem,
        fun e he => href e ((mem_visitEdges h).mpr he)⟩
  · have hno : ∀ strength i f, ¬ an.Answered strength i f := by
      rintro strength i f ⟨cga, hcga, -⟩
      exact hsize (length_pos_of_mem hcga)
    refine iff_of_true ⟨g, if_neg hsize, rfl, rfl, h.edgeInvariant, fun _ => id, fun e he => ?_⟩ ?_
    · refine ⟨fun se => ?_, fun se _ => ?_, ?_, fun _ => rfl⟩
      · exact (and_iff_left fun hdel => hno _ _ _ hdel.2).symm
      · exact (or_iff_left (hno _ _ _)).symm
      · exact iff_of_true he (h.edgeInvariant.subEdges_ne e he)
    · exact fun e _ => pairwise_of_forall fun se se' _ _ strength _ hans => absurd hans (hno _ _ _)

theorem getProgramCallGraph_answersApplied_iff_twoIndirectCalls :
    (∃ g', getProgramCallGraph .reversed firstCallCannot twoIndirectCallsGraph = some g' ∧
        AnswersApplied firstCallCannot twoIndirectCallsGraph g') ↔
      ∀ e ∈ twoIndirectCallsGraph.edges, AnswersLast .reversed firstCallCannot twoIndirectCallsGraph e :=
  getProgramCallGraph_answersApplied_iff (M := twoIndirectCalls) twoIndirectCallsGraph_edgesOk
    (by unfold SubEdgesInCaller; decide +kernel) firstCallCannot_consistent

/-- The sub-edge that is visited second goes with the first one, and so does the edge. -/
theorem getProgramCallGraph_twoIndirectCalls :
    EdgesOk twoIndirectCallsGraph ∧ SubEdgesInCaller twoIndirectCalls twoIndirectCallsGraph ∧
      firstCallCannot.Consistent ∧
      ¬ ∃ g', getProgramCallGraph .stored firstCallCannot twoIndirectCallsGraph = some g' ∧
        AnswersApplied firstCallCannot twoIndirectCallsGraph g' := by
  refine ⟨twoIndirectCallsGraph_edgesOk, by unfold SubEdgesInCaller; decide +kernel,
    firstCallCannot_consistent, ?_⟩
  rintro ⟨g', hrun, happlied⟩
  have hlost : ∃ e ∈ twoIndirectCallsGraph.edges.elems,
      ∃ se ∈ (twoIndirectCallsGraph.getSubEdges e).elems,
        ¬ firstCallCannot.Answered .cannotExist se.caller.i se.callee.f ∧
        ∀ g' ∈ getProgramCallGraph .stored firstCallCannot twoIndirectCallsGraph,
          se ∉ g'.getSubEdges e := by
    decide +kernel
  obtain ⟨e, he, se, hse, hans, hnot⟩ := hlost
  have hkept := ((happlied.refined e he).mem_subEdges se).mpr ⟨hse, fun hdel => hans hdel.2⟩
  exact hnot g' hrun hkept

end PDGGenerator

end Noelle
