import Noelle.CallGraph.Edges

/-!
# CallGraph.Construction

The call graph of a module: `CallGraph::CallGraph`.

A call of a function by its name is a must edge.  The clients of a call graph only
remove sub-edges that are no must calls, so these edges stay.
-/

namespace Noelle

open List Option

namespace CallGraph

variable {F I : Type} [DecidableEq F] [DecidableEq I]

/-- Some call goes from the function `f` to the function `f'`. -/
def CallsFunction (g : CallGraph F I) (f f' : F) : Prop :=
  ∃ e ∈ g.edges, e.caller.f = f ∧ e.callee.f = f'

/-- Some must call goes from the function `f` to the function `f'`. -/
def MustCalls (g : CallGraph F I) (f f' : F) : Prop :=
  ∃ e ∈ g.edges, e.caller.f = f ∧ e.callee.f = f' ∧ g.isAMustCall e = true

/-- The call graph of a module: a node for every function and a must edge for every call
of a function by its name. -/
structure OfModule (M : IRModule F I) (g : CallGraph F I) : Prop extends OpsOk g where
  functions_iff : ∀ f, (g.functions.lookup f).isSome = true ↔ f ∈ M.functions
  direct : ∀ f ∈ M.functions, ∀ i ∈ M.instructions f, ∀ callee ∈ (M.kind i).getCalledFunction,
    g.MustCalls f callee

variable {g g' g'' : CallGraph F I} {f f' callee : F} {fromNode : CallGraphFunctionNode F}
  {e : CallGraphFunctionFunctionEdge F} {se : CallGraphInstructionFunctionEdge F I}
  {callInst : I} {M : IRModule F I}

omit [DecidableEq F] [DecidableEq I] in
theorem MustCalls.callsFunction (h : g.MustCalls f f') : g.CallsFunction f f' := by
  obtain ⟨e, he, hcaller, hcallee, _⟩ := h
  exact ⟨e, he, hcaller, hcallee⟩

/-- `g'` is `g` with more calls. -/
structure Extends (g g' : CallGraph F I) : Prop extends OpsOk g' where
  functions_eq : g'.functions = g.functions
  mustCalls : ∀ f f', g.MustCalls f f' → g'.MustCalls f f'

theorem Extends.refl (h : OpsOk g) : Extends g g := ⟨h, rfl, fun _ _ => id⟩

theorem Extends.trans (h : Extends g g') (h' : Extends g' g'') : Extends g g'' :=
  ⟨h'.toOpsOk, h'.functions_eq.trans h.functions_eq,
    fun f f' hcall => h'.mustCalls f f' (h.mustCalls f f' hcall)⟩

/-- A call of a known function extends the graph. -/
theorem OpsOk.extends_fetchOrCreateEdge (h : OpsOk g)
    (hfrom : g.functions.lookup fromNode.f = some fromNode)
    (hcallee : (g.functions.lookup callee).isSome = true) (callInst : I) (isMust : Bool) :
    ∃ g', (g.fetchOrCreateEdge fromNode callInst callee isMust).map (·.2) = some g' ∧
      Extends g g' ∧ (isMust = true → g'.MustCalls fromNode.f callee) := by
  obtain ⟨toNode, hto⟩ := isSome_iff_exists.mp hcallee
  obtain ⟨e, se, g', hg', hf⟩ := h.fetchOrCreateEdge_spec fromNode callInst isMust hto
  have hok : OpsOk g' := by
    have hop : Allowed g (.fetchOrCreateEdge fromNode callInst callee isMust) := ⟨hfrom, hcallee⟩
    obtain ⟨g₁, hg₁, hok₁⟩ := h.applyOp hop
    rw [CallGraph.applyOp, hg'] at hg₁
    obtain rfl : g' = g₁ := some.inj hg₁
    exact hok₁
  refine ⟨g', by rw [hg']; rfl, ⟨hok, hf.functions_eq, ?_⟩, fun hmust => ?_⟩
  · rintro a b ⟨x, hx, hcaller, hcallee', hxm⟩
    refine ⟨x, (hf.mem_edges x).mpr (.inr hx), hcaller, hcallee', ?_⟩
    by_cases hxe : x = e
    · subst hxe
      exact hf.isMust_eq.mpr (.inr ⟨hx, hxm⟩)
    · rw [isAMustCall, hf.attr_eq x hxe]
      exact hxm
  · refine ⟨e, (hf.mem_edges e).mpr (.inl rfl), by rw [hf.caller_eq], ?_,
      hf.isMust_eq.mpr (.inl hmust)⟩
    rw [hf.callee_eq, h.nodes _ _ hto]

/-- The callees that an analysis gives for an indirect call are functions of the module. -/
def CalleesOk (M : IRModule F I) (getIndCSCallees : I → PtrSet F) : Prop :=
  ∀ f ∈ M.functions, ∀ i ∈ M.instructions f, ∀ callee ∈ getIndCSCallees i, callee ∈ M.functions

section Constructor

variable (ord : IterOrder) (hasIndCSCallees : I → Bool) {getIndCSCallees : I → PtrSet F}

/-- A call of the module keeps the invariant of the operations. -/
theorem OpsOk.handleCallInstruction (h : OpsOk g)
    (hfunctions : ∀ f, (g.functions.lookup f).isSome = true ↔ f ∈ M.functions)
    (hfrom : g.functions.lookup fromNode.f = some fromNode)
    (hinst : callInst ∈ M.instructions fromNode.f) (hcallees : CalleesOk M getIndCSCallees) :
    ∃ g', CallGraph.handleCallInstruction M ord hasIndCSCallees getIndCSCallees g fromNode callInst =
      some g' ∧ Extends g g' ∧
      ∀ callee ∈ (M.kind callInst).getCalledFunction, g'.MustCalls fromNode.f callee := by
  have hf : fromNode.f ∈ M.functions := (hfunctions _).mp (by rw [hfrom]; rfl)
  have hdirect : ∀ callee ∈ (M.kind callInst).getCalledFunction,
      ∃ g', (g.fetchOrCreateEdge fromNode callInst callee true).map (·.2) = some g' ∧
        Extends g g' ∧ g'.MustCalls fromNode.f callee := fun callee hc => by
    obtain ⟨g', hg', hext, hmust⟩ := h.extends_fetchOrCreateEdge hfrom
      ((hfunctions _).mpr (M.callee_ok _ hf _ hinst callee hc)) callInst true
    exact ⟨g', hg', hext, hmust rfl⟩
  unfold CallGraph.handleCallInstruction
  cases hkind : M.kind callInst with
  | otherInst => exact ⟨g, rfl, .refl h, fun callee hc => by simp [InstKind.getCalledFunction] at hc⟩
  | invokeInst calledFunction =>
      cases calledFunction with
      | none => exact ⟨g, rfl, .refl h, fun callee hc => by simp [InstKind.getCalledFunction] at hc⟩
      | some callee =>
          obtain ⟨g', hg', hext, hmust⟩ := hdirect callee (by rw [hkind]; rfl)
          exact ⟨g', hg', hext, fun callee' hc => some.inj hc ▸ hmust⟩
  | callInst calledFunction =>
      cases calledFunction with
      | some callee =>
          obtain ⟨g', hg', hext, hmust⟩ := hdirect callee (by rw [hkind]; rfl)
          exact ⟨g', hg', hext, fun callee' hc => some.inj hc ▸ hmust⟩
      | none =>
          suffices hloop : ∃ g', (if !hasIndCSCallees callInst then some g else
              (ord.visit (getIndCSCallees callInst).elems).foldlM (fun g callee =>
                (g.fetchOrCreateEdge fromNode callInst callee false).map (·.2)) g) = some g' ∧
              Extends g g' by
            obtain ⟨g', hg', hext⟩ := hloop
            exact ⟨g', hg', hext, fun callee hc => by simp [InstKind.getCalledFunction] at hc⟩
          split
          · exact ⟨g, rfl, .refl h⟩
          · refine foldlM_rule _ (fun _ g' => Extends g g') (.refl h) ?_
            intro pre callee post g₁ hsplit h₁
            have hc : callee ∈ getIndCSCallees callInst :=
              PtrSet.mem_elems.mp (ord.mem_visit.mp (by rw [hsplit]; simp))
            obtain ⟨g₂, hg₂, h₂, _⟩ := h₁.toOpsOk.extends_fetchOrCreateEdge
              (by rw [h₁.functions_eq]; exact hfrom)
              (by rw [h₁.functions_eq]; exact (hfunctions _).mpr (hcallees _ hf _ hinst callee hc))
              callInst false
            exact ⟨g₂, hg₂, h₁.trans h₂⟩

/-- The constructor builds the call graph of the module. -/
theorem new_ofModule (hcallees : CalleesOk M getIndCSCallees) :
    ∃ g, new M ord hasIndCSCallees getIndCSCallees = some g ∧ OfModule M g := by
  have hnodes := createNodes_onlyNodes M
  have hfunctions : ∀ {g : CallGraph F I}, Extends (createNodes M) g →
      ∀ f, (g.functions.lookup f).isSome = true ↔ f ∈ M.functions := fun {g} hext f => by
    rw [hext.functions_eq, hnodes.lookup_isSome]
    exact PtrSet.mem_elems
  obtain ⟨g, hg, hext, hdirect⟩ := foldlM_rule
    (fun g f => do
      let fromNode ← g.functions.lookup f
      (M.instructions f).foldlM (fun g inst =>
        CallGraph.handleCallInstruction M ord hasIndCSCallees getIndCSCallees g fromNode inst) g)
    (fun (pre : List F) g => Extends (createNodes M) g ∧
      ∀ f ∈ pre, ∀ i ∈ M.instructions f, ∀ callee ∈ (M.kind i).getCalledFunction,
        g.MustCalls f callee)
    (l := M.functions.elems) (s := createNodes M)
    ⟨.refl hnodes.opsOk, nofun⟩
    (by
      rintro pre f post g hsplit ⟨hext, hpre⟩
      have hf : f ∈ M.functions := PtrSet.mem_elems.mp (by rw [hsplit]; simp)
      obtain ⟨fromNode, hnode⟩ := isSome_iff_exists.mp ((hfunctions hext f).mpr hf)
      obtain rfl := hext.nodes _ _ hnode
      have hloop : ∃ g', (M.instructions fromNode.f).foldlM (fun g inst =>
            CallGraph.handleCallInstruction M ord hasIndCSCallees getIndCSCallees g fromNode inst) g =
          some g' ∧ Extends g g' ∧ ∀ i ∈ M.instructions fromNode.f,
            ∀ callee ∈ (M.kind i).getCalledFunction, g'.MustCalls fromNode.f callee := by
        refine foldlM_rule _ (fun (pre : List I) g' => Extends g g' ∧ ∀ i ∈ pre,
          ∀ callee ∈ (M.kind i).getCalledFunction, g'.MustCalls fromNode.f callee)
          ⟨.refl hext.toOpsOk, nofun⟩ ?_
        rintro pre i post g₁ hsplit ⟨hext₁, hpre⟩
        obtain ⟨g₂, hg₂, hext₂, hnew⟩ := hext₁.toOpsOk.handleCallInstruction ord hasIndCSCallees
          (hfunctions (hext.trans hext₁)) (by rw [hext₁.functions_eq]; exact hnode)
          (by rw [hsplit]; simp : i ∈ M.instructions fromNode.f) hcallees
        refine ⟨g₂, hg₂, hext₁.trans hext₂, fun i' hi' callee hc => ?_⟩
        rcases mem_append.mp hi' with hi' | hi'
        · exact hext₂.mustCalls _ _ (hpre i' hi' callee hc)
        · obtain rfl := mem_singleton.mp hi'
          exact hnew callee hc
      obtain ⟨g', hg', hext', hnew⟩ := hloop
      refine ⟨g', by simp only [hnode]; exact hg', hext.trans hext', fun f' hf' i hi callee hc => ?_⟩
      rcases mem_append.mp hf' with hf' | hf'
      · exact hext'.mustCalls _ _ (hpre f' hf' i hi callee hc)
      · obtain rfl := mem_singleton.mp hf'
        exact hnew i hi callee hc)
  exact ⟨g, hg, hext.toOpsOk, hfunctions hext, hdirect⟩

end Constructor

/-- A sub-edge that is not must can be removed. -/
theorem OfModule.removeSubEdge (h : OfModule M g) (he : e ∈ g.edges) (hse : se ∈ g.getSubEdges e)
    (hmay : g.subEdgeIsMust se = false) :
    ∃ g', g.removeSubEdge e se = some g' ∧ Removed g e se g' ∧ OfModule M g' := by
  obtain ⟨g', hg', hr⟩ := h.removeSubEdge_spec he hse
  have hok : OpsOk g' := by
    have hop : Allowed g (.removeSubEdge e se) := ⟨he, hse⟩
    obtain ⟨g₁, hg₁, hok₁⟩ := h.toOpsOk.applyOp hop
    exact mem_unique hg' hg₁ ▸ hok₁
  refine ⟨g', hg', hr, hok, fun f => by rw [hr.functions_eq]; exact h.functions_iff f, ?_⟩
  intro f hf i hi callee hc
  obtain ⟨x, hx, hcaller, hcallee, hmust⟩ := h.direct f hf i hi callee hc
  obtain ⟨y, hy, hym⟩ := (h.isMust_iff x hx).mp hmust
  by_cases hxe : x = e
  · subst hxe
    have hyse : y ≠ se := fun heq => by simp [← heq, hym] at hmay
    have hmem := (hr.mem_subEdges y).mpr ⟨hyse, hy⟩
    refine ⟨x, (hr.mem_edges x).mpr ⟨hx, fun _ hsize => ?_⟩, hcaller, hcallee,
      hr.isMust_eq.mpr ⟨y, hmem, hym⟩⟩
    rw [PtrSet.size, length_eq_zero_iff] at hsize
    rw [← PtrSet.mem_elems, hsize] at hmem
    exact absurd hmem not_mem_nil
  · refine ⟨x, (hr.mem_edges x).mpr ⟨hx, fun heq => absurd heq hxe⟩, hcaller, hcallee, ?_⟩
    rw [isAMustCall, hr.attr_eq x hxe]
    exact hmust

end CallGraph

end Noelle
