import Noelle.PDGGenerator.Embedding

/-!
# PDGGenerator.RoundTrip

Reading back a program dependence graph from the metadata of its module.
-/

namespace Noelle

open Function List

namespace PDGGenerator

variable {V F B : Type} [DecidableEq V] [DecidableEq F] [DecidableEq B]

/-! ## What is written -/

/-- The function of `w` is read no later than that of `v`. -/
def ReadBefore (M : PDGModule V F B) (v w : V) : Prop :=
  ∀ f g, M.functionOf v = some f → M.functionOf w = some g →
    g ∈ M.functions.take (M.functions.idxOf f + 1)

/-- The graph has memory dependences that the metadata can hold: they do not lead to later
functions, and sub-edges have the attributes of their edge. -/
structure Embeddable (M : PDGModule V F B) (subLC : DGEdge V → Bool) (pdg : PDG V) : Prop where
  readBefore : ∀ e ∈ pdg.allEdges, e.kind.isMemory = true → ReadBefore M e.getSrc e.getDst
  subEdges_over : SubEdgesOver M pdg
  subEdges_readBefore : ∀ e ∈ pdg.allEdges, e.kind.isMemory = true →
    ∀ s ∈ (pdg.edgeAttr e).getSubEdges, ReadBefore M e.getSrc s.getSrc ∧ ReadBefore M e.getSrc s.getDst
  subEdges_attributes : ∀ e ∈ pdg.allEdges, e.kind.isMemory = true →
    ∀ s ∈ (pdg.edgeAttr e).getSubEdges, s.kind = e.kind ∧ s.dataDepType = e.dataDepType ∧
      subLC s = (pdg.edgeAttr e).isLoopCarried

/-! ## Reading one tuple -/

section Tuple

variable {pdg : PDG V} {IDNodeMap : Metadata → Option V} {idOf : V → Metadata}

/-- The endpoints are in the map, and in the graph. -/
def Known (pdg : PDG V) (IDNodeMap : Metadata → Option V) (idOf : V → Metadata) (v : V) : Prop :=
  IDNodeMap (idOf v) = some v ∧ pdg.isInGraph v = true

/-- Reading an edge gives back what was embedded. -/
theorem constructEdgeFromMetadata_spec (hwf : pdg.WF) {v w : V} (hv : Known pdg IDNodeMap idOf v)
    (hw : Known pdg IDNodeMap idOf w) {e : DGEdge V} (hkind : e.kind.isMemory = true)
    (lc : Bool) (t : DataDependenceType) (rest : List Metadata) :
    ∃ fromNode toNode, fromNode.theT = v ∧ toNode.theT = w ∧
      constructEdgeFromMetadata pdg IDNodeMap
        (.node (attributesOf e lc t.dataDepToString (idOf v) (idOf w) ++ rest)) =
      some ⟨fromNode, toNode, e.kind, some t, lc⟩ := by
  obtain ⟨fromNode, hfrom⟩ := hwf.exists_nodeOf hv.2
  obtain ⟨toNode, hto⟩ := hwf.exists_nodeOf hw.2
  refine ⟨fromNode, toNode, (hwf.nodeOf_mem hfrom).2, (hwf.nodeOf_mem hto).2, ?_⟩
  have hcontrol : decide (e.kind = .controlDependence) = false := by
    cases hk : e.kind <;> first | rfl | simp [hk, DependenceKind.isMemory] at hkind
  have hmust : (if decide (e.kind = .mustMemoryDependence) = true then
      DependenceKind.mustMemoryDependence else .mayMemoryDependence) = e.kind := by
    cases hk : e.kind <;> first | rfl | simp [hk, DependenceKind.isMemory] at hkind
  let m := Metadata.node (attributesOf e lc t.dataDepToString (idOf v) (idOf w) ++ rest)
  have h0 : m.getOperand 0 = some (idOf v) := rfl
  have h1 : m.getOperand 1 = some (idOf w) := rfl
  have h2 : m.isTrueAt 2 = some e.kind.isMemory := Metadata.isTrueAt_ofBool rfl
  have h3 : m.isTrueAt 3 = some (decide (e.kind = .mustMemoryDependence)) :=
    Metadata.isTrueAt_ofBool rfl
  have h4 : m.getString 4 = some t.dataDepToString := Metadata.getString_ofString rfl
  have h5 : m.isTrueAt 5 = some (decide (e.kind = .controlDependence)) :=
    Metadata.isTrueAt_ofBool rfl
  have h6 : m.isTrueAt 6 = some lc := Metadata.isTrueAt_ofBool rfl
  change constructEdgeFromMetadata pdg IDNodeMap m = _
  unfold constructEdgeFromMetadata
  simp only [h0, h1, h2, h3, h4, h5, h6, hv.1, hw.1, hfrom, hto, hkind, hcontrol, hmust,
    DataDependenceType.stringToDataDep_dataDepToString, Option.bind_eq_bind, Option.bind_some,
    Bool.false_eq_true, if_false, if_true, Option.pure_def]

end Tuple

/-! ## Reading one dependence -/

section Edge

variable {M : PDGModule V F B} {P : PDG V} {idOf : V → Metadata} {subLC : DGEdge V → Bool}

omit [DecidableEq V] in
theorem subDependences_eq (subLC : DGEdge V → Bool) (a : EdgeAttr (DGEdge V)) :
    subDependences subLC a =
      (a.getSubEdges.elems : Multiset (DGEdge V)).map fun s => dependenceOf s (subLC s) := by
  unfold subDependences EdgeAttr.getSubEdges
  cases a.subEdges <;> rfl

theorem subDependences_addSubEdge (a : EdgeAttr (DGEdge V)) {x : DGEdge V} {lc : Bool}
    (hx : x ∉ a.getSubEdges) :
    subDependences (update subLC x lc) (a.addSubEdge x lc) =
      {dependenceOf x lc} + subDependences subLC a := by
  have helems : ((a.addSubEdge x lc).getSubEdges.elems : Multiset (DGEdge V)) =
      x ::ₘ (a.getSubEdges.elems : Multiset (DGEdge V)) := PtrSet.coe_insert_of_notMem hx
  rw [subDependences_eq, subDependences_eq, helems, Multiset.map_cons, ← Multiset.singleton_add,
    update_self]
  refine congrArg _ (Multiset.map_congr rfl fun y hy => ?_)
  have hne : y ≠ x := fun heq => hx (heq ▸ Multiset.mem_coe.mp hy)
  rw [update_of_ne hne]

theorem subDependences_copy (a : EdgeAttr (DGEdge V)) :
    subDependences subLC (a.copy subLC) = subDependences subLC a := by
  rw [subDependences_eq, subDependences_eq, Multiset.coe_eq_coe.mpr (PtrSet.perm_of_mem_iff
    (EdgeAttr.mem_getSubEdges_copy subLC a))]

/-- The state that sub-edges are read from, and what reading them adds. -/
structure ReadsSubEdges (s₀ : Reading V) (lc : Bool) (subs : Multiset (Dependence V))
    (attr : EdgeAttr (DGEdge V)) (s : Reading V) : Prop where
  pdg_eq : s.pdg = s₀.pdg
  map_eq : s.IDNodeMap = s₀.IDNodeMap
  allocated_le : s₀.allocated ≤ s.allocated
  subLC_eq : ∀ x, x.addr < s₀.allocated → s.subLC x = s₀.subLC x
  flag : attr.isLoopCarried = lc
  fresh : ∀ x ∈ attr.getSubEdges, x.addr < s.allocated ∧ s.subLC x = lc
  subs_eq : subDependences s.subLC attr = subs

/-- Reading the sub-edges gives back those embedded. -/
theorem readSubEdges_spec (heap : Nat) {s₀ : Reading V} (hwf : s₀.pdg.WF) {e : DGEdge V}
    (hkind : e.kind.isMemory = true) (t : DataDependenceType) (l : List (DGEdge V))
    (hknown : ∀ x ∈ l, Known s₀.pdg s₀.IDNodeMap idOf x.getSrc ∧
      Known s₀.pdg s₀.IDNodeMap idOf x.getDst) :
    ∃ attr s, (l.map (subEdgeTuple P idOf e t)).foldlM (readSubEdge heap)
        ({ isLoopCarried := (P.edgeAttr e).isLoopCarried }, s₀) = some (attr, s) ∧
      ReadsSubEdges s₀ (P.edgeAttr e).isLoopCarried ((l : Multiset (DGEdge V)).map fun x =>
        ⟨x.getSrc, x.getDst, e.kind, some t, (P.edgeAttr e).isLoopCarried⟩) attr s := by
  rw [foldlM_map]
  obtain ⟨⟨attr, s⟩, hrun, h⟩ := foldlM_rule
    (fun (p : EdgeAttr (DGEdge V) × Reading V) x =>
      readSubEdge heap p (subEdgeTuple P idOf e t x))
    (fun (pre : List (DGEdge V)) (p : EdgeAttr (DGEdge V) × Reading V) =>
      ReadsSubEdges s₀ (P.edgeAttr e).isLoopCarried ((pre : Multiset (DGEdge V)).map fun x =>
        ⟨x.getSrc, x.getDst, e.kind, some t, (P.edgeAttr e).isLoopCarried⟩) p.1 p.2)
    (l := l) (s := ({ isLoopCarried := (P.edgeAttr e).isLoopCarried }, s₀))
    ⟨rfl, rfl, le_rfl, fun _ _ => rfl, rfl, fun x hx => absurd hx (PtrSet.not_mem_empty x), rfl⟩
    fun pre x post ⟨attr, s⟩ hl hpre => by
      obtain ⟨hsrc, hdst⟩ := hknown x (by simp [hl])
      obtain ⟨fromNode, toNode, hfrom, hto, hread⟩ := constructEdgeFromMetadata_spec hwf hsrc hdst
        hkind (P.edgeAttr e).isLoopCarried t []
      rw [append_nil] at hread
      let subEdge : DGEdge V := ⟨heap, s.allocated, fromNode, toNode, e.kind, some t⟩
      have hnew : subEdge ∉ attr.getSubEdges := fun hmem =>
        absurd (hpre.fresh subEdge hmem).1 (Nat.lt_irrefl _)
      refine ⟨(attr.addSubEdge subEdge (P.edgeAttr e).isLoopCarried,
        { s with
          allocated := s.allocated + 1
          subLC := update s.subLC subEdge (P.edgeAttr e).isLoopCarried }), ?_,
        hpre.pdg_eq, hpre.map_eq, Nat.le_succ_of_le hpre.allocated_le, fun y hy => ?_, ?_,
        fun y hy => ?_, ?_⟩
      · have hpdg : s.pdg = s₀.pdg := hpre.pdg_eq
        have hmap : s.IDNodeMap = s₀.IDNodeMap := hpre.map_eq
        unfold readSubEdge subEdgeTuple
        simp only [hpdg, hmap, hread, Option.bind_eq_bind, Option.bind_some, Option.pure_def, subEdge]
      · have hne : y ≠ subEdge := by
          rintro rfl
          exact absurd hy (Nat.not_lt.mpr hpre.allocated_le)
        exact (update_of_ne hne _ _).trans (hpre.subLC_eq y hy)
      · change (attr.isLoopCarried || (P.edgeAttr e).isLoopCarried) = _
        rw [hpre.flag, Bool.or_self]
      · rcases (EdgeAttr.mem_getSubEdges_addSubEdge _ _ _ _).mp hy with rfl | hy
        · exact ⟨Nat.lt_succ_self _, update_self ..⟩
        · have hne : y ≠ subEdge := fun heq => hnew (heq ▸ hy)
          exact ⟨Nat.lt_succ_of_lt (hpre.fresh y hy).1,
            (update_of_ne hne _ _).trans (hpre.fresh y hy).2⟩
      · refine (subDependences_addSubEdge attr hnew).trans ?_
        rw [hpre.subs_eq, ← Multiset.coe_add, Multiset.map_add, add_comm]
        simp [dependenceOf, DGEdge.getSrc, DGEdge.getDst, subEdge, hfrom, hto]
  exact ⟨attr, s, hrun, h⟩

/-- A graph that has been read so far. -/
structure ReadSoFar (M : PDGModule V F B) (deps : Multiset (DependenceWithSubs V))
    (s : Reading V) : Prop where
  overModule : OverModule M s.pdg
  dependences : dependences s.subLC s.pdg = deps
  fresh : ∀ e ∈ s.pdg.allEdges, ∀ x ∈ (s.pdg.edgeAttr e).getSubEdges, x.addr < s.allocated

omit [DecidableEq V] in
theorem dependences_congr {g : PDG V} {subLC subLC' : DGEdge V → Bool}
    (h : ∀ e ∈ g.allEdges, ∀ x ∈ (g.edgeAttr e).getSubEdges, subLC x = subLC' x) :
    dependences subLC g = dependences subLC' g := by
  refine Multiset.map_congr rfl fun e he => ?_
  rw [subDependences_eq, subDependences_eq]
  refine congrArg _ (Multiset.map_congr rfl fun x hx => ?_)
  rw [h e (Multiset.mem_coe.mp he) x (Multiset.mem_coe.mp hx)]

omit [DecidableEq F] in
/-- One more edge is read as it was embedded. -/
theorem readEdge_spec (ord : IterOrder) (heap : Nat) {deps : Multiset (DependenceWithSubs V)}
    {s : Reading V} (hs : ReadSoFar M deps s) {e : DGEdge V} (hkind : e.kind.isMemory = true)
    {t : DataDependenceType} (ht : e.dataDepType = some t)
    (hsrc : Known s.pdg s.IDNodeMap idOf e.getSrc) (hdst : Known s.pdg s.IDNodeMap idOf e.getDst)
    (hsubs : ∀ x ∈ (P.edgeAttr e).getSubEdges, Known s.pdg s.IDNodeMap idOf x.getSrc ∧
      Known s.pdg s.IDNodeMap idOf x.getDst ∧ x.kind = e.kind ∧ x.dataDepType = e.dataDepType ∧
        subLC x = (P.edgeAttr e).isLoopCarried) :
    ∃ s', readEdge heap s (edgeTuple ord P idOf e t) = some s' ∧
      ReadSoFar M ({(dependenceOf e (P.edgeAttr e).isLoopCarried,
        subDependences subLC (P.edgeAttr e))} + deps) s' ∧ s'.IDNodeMap = s.IDNodeMap ∧
      ∀ v, s'.pdg.isInGraph v = s.pdg.isInGraph v := by
  obtain ⟨fromNode, toNode, hfrom, hto, hread⟩ := constructEdgeFromMetadata_spec hs.overModule.wf hsrc hdst
    hkind (P.edgeAttr e).isLoopCarried t
    [.node ((ord.visit (P.edgeAttr e).getSubEdges.elems).map (subEdgeTuple P idOf e t))]
  obtain ⟨attr, s₁, hrun₁, h₁⟩ := @readSubEdges_spec _ _ P idOf heap _ hs.overModule.wf _ hkind t
    (ord.visit (P.edgeAttr e).getSubEdges.elems) fun x hx =>
      have hx := hsubs x (ord.mem_visit.mp hx)
      ⟨hx.1, hx.2.1⟩
  have hlc : ∀ x ∈ attr.getSubEdges.elems, s₁.subLC x = (P.edgeAttr e).isLoopCarried :=
    fun x hx => (h₁.fresh x hx).2
  have hflag : (attr.copy s₁.subLC).isLoopCarried = (P.edgeAttr e).isLoopCarried := by
    rw [EdgeAttr.isLoopCarried_copy, h₁.flag]
    cases hcarried : (P.edgeAttr e).isLoopCarried with
    | true => rfl
    | false =>
        rw [Bool.false_or, any_eq_false]
        intro x hx
        rw [hlc x hx, hcarried]
        exact Bool.false_ne_true
  have hsubs₁ : subDependences s₁.subLC (attr.copy s₁.subLC) =
      subDependences subLC (P.edgeAttr e) := by
    rw [subDependences_copy, h₁.subs_eq, subDependences_eq, Multiset.coe_eq_coe.mpr (ord.visit_perm _)]
    refine Multiset.map_congr rfl fun x hx => ?_
    obtain ⟨-, -, hxkind, hxtype, hxlc⟩ := hsubs x (Multiset.mem_coe.mp hx)
    rw [dependenceOf, hxkind, hxtype, hxlc, ht]
  -- the dependences that are there keep their sub-edges
  have hold : dependences s₁.subLC s.pdg = deps := by
    rw [← hs.dependences]
    exact dependences_congr fun x hx y hy => h₁.subLC_eq y (hs.fresh x hx y hy)
  obtain ⟨newEdge, pdg, hadd, hadds, hattr, hattrs, hedges⟩ := @addDependenceEdge_adds
    _ _ s₁.subLC _ _ _ hs.overModule.wf hsrc.2 hdst.2 e.kind (some t) (attr.copy s₁.subLC)
  refine ⟨{ s₁ with pdg }, ?_, ⟨hs.overModule.adds hadds, ?_, fun x hx y hy => ?_⟩, h₁.map_eq,
    hadds.inGraph⟩
  · have hnodes : ∀ m ∈ (ord.visit (P.edgeAttr e).getSubEdges.elems).map (subEdgeTuple P idOf e t),
        m.isMDNode = true := fun m hm => by
      obtain ⟨x, -, rfl⟩ := mem_map.mp hm
      rfl
    have hop : (edgeTuple ord P idOf e t).getOperand 7 =
      some (.node ((ord.visit (P.edgeAttr e).getSubEdges.elems).map (subEdgeTuple P idOf e t))) := rfl
    have hcopy : s.pdg.copyAddEdge s₁.subLC ⟨heap, s₁.allocated, fromNode, toNode, e.kind, some t⟩
        attr = some (newEdge, pdg) := by
      rw [← hadd]
      unfold DG.copyAddEdge DGEdge.getSrc DGEdge.getDst
      rw [hfrom, hto]
      cases hk : e.kind <;> first | rfl | simp [hk, DependenceKind.isMemory] at hkind
    unfold readEdge
    rw [hop]
    unfold edgeTuple
    simp only [hread, Option.bind_eq_bind, Option.bind_some, Option.pure_def,
      filter_eq_self.mpr hnodes, hrun₁, h₁.pdg_eq, hcopy]
  · rw [hadds.dependences, hold, hflag, hsubs₁, dependenceOf, ht]
  · rcases (hedges x).mp hx with rfl | hx
    · rw [hattr] at hy
      exact (h₁.fresh y ((EdgeAttr.mem_getSubEdges_copy _ _ _).mp hy)).1
    · rw [hattrs x hx] at hy
      exact (hs.fresh x hx y hy).trans_le h₁.allocated_le

end Edge

/-! ## Reading the nodes of a function -/

section Nodes

variable {M : PDGModule V F B} {idOf : V → Metadata} {nodeIDMap : V → Option Metadata}
  {md : ModuleMetadata V F} {f : F}

section

omit [DecidableEq V] [DecidableEq F]

section

variable (hids : Numbered M idOf nodeIDMap md)

include hids

theorem update_known {map : Metadata → Option V} {v w : V} (hv : v ∈ M.values) (hw : w ∈ M.values)
    (h : v = w ∨ map (idOf v) = some v) :
    update map (idOf w) (some w) (idOf v) = some v := by
  by_cases heq : v = w
  · rw [heq, update_self]
  · have hne : idOf v ≠ idOf w := fun h => heq (hids.inj v hv w hw h)
    rw [update_of_ne hne]
    exact h.resolve_left heq

/-- The arguments of a function are found again by their numbers. -/
theorem readArguments_spec (hf : f ∈ M.functions) (hbody : (M.body f).isSome = true)
    (hvalue : ∀ v ∈ M.args f, v ∈ M.values) (map : Metadata → Option V) :
    ∃ map', readArguments M.toModuleIR md f map = some map' ∧
      (∀ v ∈ M.values, map (idOf v) = some v → map' (idOf v) = some v) ∧
      ∀ v ∈ M.args f, map' (idOf v) = some v := by
  unfold readArguments
  by_cases hargs : M.args f = []
  · refine ⟨map, ?_, fun _ _ h => h, by simp [hargs]⟩
    cases md.argsId f <;> simp [hargs]
  · obtain ⟨operands, hargsId, hops⟩ := hids.argsId f hf hbody hargs
    rw [hargsId]
    have hmem : ∀ p ∈ (M.args f).zipIdx, (M.args f)[p.2]? = some p.1 := fun p hp =>
      mem_zipIdx_iff_getElem?.mp hp
    obtain ⟨map', hrun, hkeep, hpre⟩ := foldlM_rule (readArgument (.node operands))
      (fun (pre : List (V × Nat)) (map' : Metadata → Option V) =>
        (∀ v ∈ M.values, map (idOf v) = some v → map' (idOf v) = some v) ∧
          ∀ p ∈ pre, map' (idOf p.1) = some p.1)
      (l := (M.args f).zipIdx) (s := map) ⟨fun _ _ h => h, by simp⟩
      fun pre p post map' hl ⟨hkeep, hpre⟩ => by
        have hp := hmem p (by simp [hl])
        have harg := hvalue p.1 (mem_of_getElem? hp)
        have hop : (Metadata.node operands).getOperand p.2 = some (idOf p.1) := hops p.2 p.1 hp
        have hnull : idOf p.1 ≠ .null := fun h => by
          have hnode := hids.isMDNode p.1
          rw [h] at hnode
          nomatch hnode
        refine ⟨update map' (idOf p.1) (some p.1), ?_, fun v hv h => ?_, fun q hq => ?_⟩
        · simp [readArgument, hop, hnull, hids.isMDNode]
        · exact update_known hids hv harg (.inr (hkeep v hv h))
        · rcases mem_append.mp hq with hq | hq
          · have hqvalue := hvalue q.1 (mem_of_getElem? (hmem q (by simp [hl, hq])))
            exact update_known hids hqvalue harg (.inr (hpre q hq))
          · rw [mem_singleton.mp hq]
            exact update_known hids harg harg (.inl rfl)
    refine ⟨map', hrun, hkeep, fun v hv => ?_⟩
    obtain ⟨n, hn⟩ := mem_iff_getElem?.mp hv
    exact hpre (v, n) (mem_zipIdx_iff_getElem?.mpr hn)

/-- The instructions of a function are found again by their numbers. -/
theorem readInstructions_spec (hf : f ∈ M.functions) (hvalue : ∀ v ∈ M.instructions f, v ∈ M.values)
    (map : Metadata → Option V) :
    (∀ v ∈ M.values, map (idOf v) = some v →
      (M.instructions f).foldl (readInstruction md) map (idOf v) = some v) ∧
    ∀ v ∈ M.instructions f, (M.instructions f).foldl (readInstruction md) map (idOf v) = some v := by
  refine foldl_rule (readInstruction md)
    (fun (pre : List V) (map' : Metadata → Option V) =>
      (∀ v ∈ M.values, map (idOf v) = some v → map' (idOf v) = some v) ∧
        ∀ v ∈ pre, map' (idOf v) = some v) ⟨fun _ _ h => h, by simp⟩
    fun pre I post map' hl ⟨hkeep, hpre⟩ => ?_
  have hI : I ∈ M.instructions f := by simp [hl]
  have hIvalue := hvalue I hI
  rw [readInstruction, hids.instId I hIvalue f ((M.instruction_iff I f).mpr ⟨hf, hI⟩)]
  refine ⟨fun v hv h => update_known hids hv hIvalue (.inr (hkeep v hv h)), fun v hv => ?_⟩
  rcases mem_append.mp hv with hv | hv
  · have hvvalue := hvalue v (by simp [hl, hv])
    exact update_known hids hvvalue hIvalue (.inr (hpre v hv))
  · rw [mem_singleton.mp hv]
    exact update_known hids hIvalue hIvalue (.inl rfl)

/-- The values of a function are found again by their numbers. -/
theorem constructNodesFromMetadata_spec (hf : f ∈ M.functions) (map : Metadata → Option V) :
    ∃ map', constructNodesFromMetadata M.toModuleIR md f map = some map' ∧
      (∀ v ∈ M.values, map (idOf v) = some v → map' (idOf v) = some v) ∧
      ∀ v ∈ M.valuesOf f, map' (idOf v) = some v := by
  cases hbody : M.body f with
  | none =>
      refine ⟨map, ?_, fun _ _ h => h, fun v hv => ?_⟩
      · simp [constructNodesFromMetadata, readArguments, hids.argsId_none f hf hbody,
          ModuleIR.instructions, hbody]
      · rw [ModuleIR.valuesOf, hbody] at hv
        exact absurd hv not_mem_nil
  | some body =>
      have hvalue : ∀ v ∈ M.args f ++ M.instructions f, v ∈ M.values := fun v hv =>
        mem_flatMap.mpr ⟨f, hf, by rwa [ModuleIR.valuesOf, hbody]⟩
      obtain ⟨map₁, hrun, hkeep₁, hargs⟩ := readArguments_spec hids hf (by simp [hbody])
        (fun v hv => hvalue v (mem_append_left _ hv)) map
      obtain ⟨hkeep₂, hinsts⟩ := readInstructions_spec hids hf
        (fun v hv => hvalue v (mem_append_right _ hv)) map₁
      refine ⟨_, by rw [constructNodesFromMetadata, hrun]; rfl,
        fun v hv h => hkeep₂ v hv (hkeep₁ v hv h), fun v hv => ?_⟩
      rw [ModuleIR.valuesOf, hbody] at hv
      rcases mem_append.mp hv with hv' | hv'
      · exact hkeep₂ v (hvalue v hv) (hargs v hv')
      · exact hinsts v hv'

end

end

end Nodes

/-! ## Reading the functions -/

section Functions

variable {M : PDGModule V F B} {P : PDG V} {subLC : DGEdge V → Bool} {idOf : V → Metadata}
  {nodeIDMap : V → Option Metadata} {md : ModuleMetadata V F}

/-- An edge of the graph by value. -/
def dependenceIn (subLC : DGEdge V → Bool) (P : PDG V) (e : DGEdge V) : DependenceWithSubs V :=
  (dependenceOf e (P.edgeAttr e).isLoopCarried, subDependences subLC (P.edgeAttr e))

/-- The values of the functions are in the map. -/
def KnowsFunctions (M : PDGModule V F B) (idOf : V → Metadata) (fs : List F)
    (map : Metadata → Option V) : Prop :=
  ∀ f ∈ fs, ∀ v ∈ M.valuesOf f, map (idOf v) = some v

omit [DecidableEq V] in
theorem KnowsFunctions.known {pre post : List F} {f : F} {map : Metadata → Option V}
    (h : KnowsFunctions M idOf (pre ++ [f]) map) (hl : M.functions = pre ++ f :: post) {v w : V}
    (hv : M.functionOf v = some f) (hw : w ∈ M.values) (hread : ReadBefore M v w) :
    map (idOf w) = some w := by
  obtain ⟨g, -, hg, hwg⟩ := PDGModule.exists_function hw
  have hf : f ∉ pre := by
    have hnodup := M.functions_nodup
    rw [hl] at hnodup
    exact fun hf => (nodup_append.mp hnodup).2.2 f hf f (.head _) rfl
  have hidx : M.functions.idxOf f = pre.length := by
    rw [hl, idxOf_append_of_notMem hf, idxOf_cons_self, Nat.add_zero]
  have htake : M.functions.take (pre.length + 1) = pre ++ [f] := by
    rw [hl, take_append]
    simp
  have hmem := hread f g hv hg
  rw [hidx, htake] at hmem
  exact h g hmem w hwg

/-- The edges of one more function are read. -/
theorem readFunction_spec (ord : IterOrder) (heap : Nat) (hP : IsModulePDG M P)
    (hembed : Embeddable M subLC P) (hids : Numbered M idOf nodeIDMap md)
    (hedges : ∀ f ∈ M.functions, ∀ s : Reading V,
      constructEdgesFromMetadata md heap f s = (memoryEdgesOf ord M.toModuleIR P f).foldlM
        (fun s e => readEdge heap s (edgeTuple ord P idOf e (e.dataDepType.getD .raw))) s)
    {pre post : List F} {f : F} (hl : M.functions = pre ++ f :: post)
    {deps : Multiset (DependenceWithSubs V)} {s : Reading V} (hs : ReadSoFar M deps s)
    (hknown : KnowsFunctions M idOf pre s.IDNodeMap) :
    ∃ s', readFunction M.toModuleIR md heap s f = some s' ∧
      ReadSoFar M (((memoryEdgesOf ord M.toModuleIR P f).map (dependenceIn subLC P) : Multiset _) +
        deps) s' ∧ KnowsFunctions M idOf (pre ++ [f]) s'.IDNodeMap := by
  have hf : f ∈ M.functions := by simp [hl]
  obtain ⟨map, hrun, hkeep, hnew⟩ := constructNodesFromMetadata_spec hids hf s.IDNodeMap
  have hknown' : KnowsFunctions M idOf (pre ++ [f]) map := fun g hg v hv => by
    rcases mem_append.mp hg with hg | hg
    · have hgmem : g ∈ M.functions := by simp [hl, hg]
      exact hkeep v (PDGModule.mem_valuesOf hgmem hv).2 (hknown g hg v hv)
    · rw [mem_singleton.mp hg] at hv
      exact hnew v hv
  obtain ⟨s', hrun', hs', hmap'⟩ := foldlM_rule
    (fun (s : Reading V) e => readEdge heap s (edgeTuple ord P idOf e (e.dataDepType.getD .raw)))
    (fun (pre : List (DGEdge V)) (s' : Reading V) =>
      ReadSoFar M ((pre.map (dependenceIn subLC P) : Multiset _) + deps) s' ∧ s'.IDNodeMap = map)
    (l := memoryEdgesOf ord M.toModuleIR P f) (s := { s with IDNodeMap := map })
    ⟨⟨hs.overModule, hs.dependences.trans (zero_add _).symm, hs.fresh⟩, rfl⟩
    fun preE e postE s' hlE ⟨hs', hmap'⟩ => by
      have hmem : e ∈ memoryEdgesOf ord M.toModuleIR P f := by simp [hlE]
      obtain ⟨he, hcond⟩ := mem_filter.mp hmem
      obtain ⟨hkind, hsrcf⟩ := Bool.and_eq_true_iff.mp hcond
      have hsrcf : M.functionOf e.getSrc = some f := of_decide_eq_true hsrcf
      have he := ord.mem_visit.mp he
      obtain ⟨t, ht⟩ := hP.exists_type he hkind
      obtain ⟨hsrc, hdst⟩ := hP.edge_mem he
      have hKnown : ∀ w ∈ M.values, ReadBefore M e.getSrc w →
          Known s'.pdg s'.IDNodeMap idOf w := fun w hw hread =>
        ⟨hmap' ▸ hknown'.known hl hsrcf hw hread, hs'.overModule.inGraph w hw⟩
      have hsrcKnown : Known s'.pdg s'.IDNodeMap idOf e.getSrc := by
        refine ⟨?_, hs'.overModule.inGraph _ hsrc⟩
        rw [hmap']
        exact hknown' f (by simp) _ (PDGModule.mem_valuesOf_of_functionOf hsrc hsrcf)
      obtain ⟨s'', hread, hs'', hmap'', -⟩ := @readEdge_spec _ _ _ _ _ _ P _ subLC ord heap _ _ hs'
        _ hkind _ ht hsrcKnown (hKnown _ hdst (hembed.readBefore e he hkind)) fun x hx => by
          obtain ⟨hx₁, hx₂⟩ := hembed.subEdges_over e he hkind x hx
          obtain ⟨hr₁, hr₂⟩ := hembed.subEdges_readBefore e he hkind x hx
          exact ⟨hKnown _ hx₁ hr₁, hKnown _ hx₂ hr₂, hembed.subEdges_attributes e he hkind x hx⟩
      refine ⟨s'', by simpa [ht] using hread, ?_, hmap''.trans hmap'⟩
      have hcons : ((preE ++ [e]).map (dependenceIn subLC P) : Multiset (DependenceWithSubs V)) =
          {dependenceIn subLC P e} + (preE.map (dependenceIn subLC P) : Multiset _) := by
        rw [map_append, ← Multiset.coe_add, add_comm]
        rfl
      rw [hcons, add_assoc]
      exact hs''
  refine ⟨s', ?_, hs', hmap' ▸ hknown'⟩
  unfold readFunction
  simp only [hrun, Option.bind_eq_bind, Option.bind_some]
  rw [hedges f hf]
  exact hrun'

/-- The edges of all the functions are read. -/
theorem readFunctions_spec (ord : IterOrder) (heap : Nat) (hP : IsModulePDG M P)
    (hembed : Embeddable M subLC P) (hids : Numbered M idOf nodeIDMap md)
    (hedges : ∀ f ∈ M.functions, ∀ s : Reading V,
      constructEdgesFromMetadata md heap f s = (memoryEdgesOf ord M.toModuleIR P f).foldlM
        (fun s e => readEdge heap s (edgeTuple ord P idOf e (e.dataDepType.getD .raw))) s)
    {s : Reading V} (hs : ReadSoFar M 0 s) :
    ∃ s', M.functions.foldlM (readFunction M.toModuleIR md heap) s = some s' ∧
      ReadSoFar M (memoryDependences subLC P) s' := by
  obtain ⟨s', hrun, hs', -⟩ := foldlM_rule (readFunction M.toModuleIR md heap)
    (fun (pre : List F) (s' : Reading V) =>
      ReadSoFar M ((pre.flatMap (memoryEdgesOf ord M.toModuleIR P)).map (dependenceIn subLC P) :
        Multiset _) s' ∧ KnowsFunctions M idOf pre s'.IDNodeMap)
    (l := M.functions) (s := s) ⟨hs, nofun⟩
    fun pre f post s' hl ⟨hs', hknown⟩ => by
      obtain ⟨s'', hrun, hs'', hknown'⟩ :=
        readFunction_spec ord heap hP hembed hids hedges hl hs' hknown
      refine ⟨s'', hrun, ?_, hknown'⟩
      rw [flatMap_append, map_append, ← Multiset.coe_add, add_comm, flatMap_singleton]
      exact hs''
  refine ⟨s', hrun, ?_⟩
  -- every memory dependence starts in one function
  have hperm : (M.functions.flatMap (memoryEdgesOf ord M.toModuleIR P)).Perm
      (P.allEdges.elems.filter fun e => e.kind.isMemory) := by
    have hnodup := ord.nodup_visit P.allEdges.nodup
    refine (perm_ext_iff_of_nodup ?_ (P.allEdges.nodup.filter _)).mpr fun e => ?_
    · refine nodup_flatMap.mpr ⟨fun f _ => hnodup.filter _, ?_⟩
      refine M.functions_nodup.imp fun {f g} hne e hf hg => hne ?_
      simp only [memoryEdgesOf, mem_filter, Bool.and_eq_true, decide_eq_true_eq] at hf hg
      exact Option.mem_unique hf.2.2 hg.2.2
    · simp only [mem_flatMap, memoryEdgesOf, mem_filter, Bool.and_eq_true,
        decide_eq_true_eq, ord.mem_visit]
      constructor
      · rintro ⟨f, -, he, hkind, -⟩
        exact ⟨he, hkind⟩
      · rintro ⟨he, hkind⟩
        obtain ⟨f, hf, hsrc, -⟩ := PDGModule.exists_function (hP.edge_mem he).1
        exact ⟨f, hf, he, hkind, hsrc⟩
  have hmemory : memoryDependences subLC P =
      ((M.functions.flatMap (memoryEdgesOf ord M.toModuleIR P)).map (dependenceIn subLC P) :
        Multiset _) := by
    have hfilter : ((P.allEdges.elems.filter fun e => e.kind.isMemory : List (DGEdge V)) :
        Multiset (DGEdge V)) = (P.allEdges.elems : Multiset (DGEdge V)).filter fun e =>
          e.kind.isMemory = true := by
      rw [Multiset.filter_coe]
      simp
    rw [Multiset.coe_eq_coe.mpr (hperm.map _), ← Multiset.map_coe, hfilter]
    unfold memoryDependences dependences
    rw [Multiset.filter_map]
    rfl
  rw [hmemory]
  exact hs'

end Functions

/-! ## The graph of a module -/

omit [DecidableEq F] in
/-- The graph starts with the nodes of the module and no edge. -/
theorem pdgOfModule_spec (M : PDGModule V F B) (self : Nat) :
    ∃ g, pdgOfModule M.toModuleIR self = some g ∧ OverModule M g ∧ g.allEdges = ∅ := by
  obtain ⟨g, hg, hwf, hnodes, hinternal, -, hedges⟩ : ∃ g : PDG V,
      M.values.foldl (fun g v => (g.addNode v true).2) (DG.empty self) = g ∧ g.WF ∧
        ((g.allNodes.elems : Multiset (DGNode V)).map (·.theT)) = (M.values : Multiset V) ∧
        (∀ v, g.isInternal v = decide (v ∈ M.values)) ∧ (∀ v, g.isExternal v = false) ∧
        g.allEdges = ∅ := ⟨_, rfl, foldl_rule (fun (g : PDG V) v => (g.addNode v true).2)
    (fun (pre : List V) (g : PDG V) => g.WF ∧
      ((g.allNodes.elems : Multiset (DGNode V)).map (·.theT)) = (pre : Multiset V) ∧
      (∀ v, g.isInternal v = decide (v ∈ pre)) ∧ (∀ v, g.isExternal v = false) ∧ g.allEdges = ∅)
    (l := M.values) (s := DG.empty self)
    ⟨(DG.empty_clean self).toWF, rfl, fun v => by simp, fun v => rfl, rfl⟩
    fun pre v post g hl ⟨hwf, hnodes, hinternal, hexternal, hedges⟩ => by
      have hnoedge : ∀ e ∈ g.allEdges, e.getSrc ≠ v ∧ e.getDst ≠ v := fun e he => by
        rw [hedges] at he
        exact absurd he (PtrSet.not_mem_empty e)
      have helems : ((g.addNode v true).2.allNodes.elems : Multiset (DGNode V)) =
          g.newNode v ::ₘ (g.allNodes.elems : Multiset (DGNode V)) :=
        PtrSet.coe_insert_of_notMem hwf.newNode_notMem
      refine ⟨hwf.addNode (hexternal v) hnoedge, ?_, fun w => ?_, fun w => ?_, hedges⟩
      · rw [helems, Multiset.map_cons, hnodes, ← Multiset.coe_add, add_comm]
        rfl
      · rw [DG.addNode_isInternal, hinternal]
        simp [or_comm]
      · rw [DG.addNode_isExternal, hexternal]
        simp⟩
  obtain ⟨body, hbody⟩ := Option.isSome_iff_exists.mp M.main_body
  have hentry : body.value (CFG.begin body.entry) ∈ M.values := by
    refine mem_flatMap.mpr ⟨M.mainF, M.main_mem, ?_⟩
    rw [ModuleIR.valuesOf, ModuleIR.instructions, hbody]
    exact mem_append_right _ (mem_map_of_mem
      (CFG.mem_instructions.mpr (CFG.contains_begin body.entry_mem)))
  obtain ⟨entryNode, hlookup⟩ := DG.isInternal_iff.mp
    ((hinternal _).trans (decide_eq_true hentry))
  refine ⟨{ g with entryNode }, ?_, ⟨hwf.withAttr entryNode g.edgeAttr,
    Multiset.coe_eq_coe.mp hnodes, fun v hv => ?_⟩, hedges⟩
  · unfold pdgOfModule
    simp only [hg, hbody, hlookup, Option.bind_eq_bind, Option.bind_some, Option.pure_def]
  · exact DG.isInGraph_iff.mpr (.inl ((hinternal v).trans (decide_eq_true hv)))

/-! ## The round trip -/

/-- The graph is embedded, and reading it back gives a graph with the same nodes and the same
dependences. -/
def RoundTrips (ord ord' : IterOrder) (M : PDGModule V F B) (P : PDG V) (subLC : DGEdge V → Bool)
    (md : ModuleMetadata V F) (self heap : Nat) : Prop :=
  ∃ md' R subLC', cleanAndEmbedPDGAsMetadata ord M.toModuleIR P md = some md' ∧
    hasPDGAsMetadata md' = true ∧
    constructPDGFromMetadata ord' M.toModuleIR md' self heap = some (R, subLC') ∧ R.WF ∧
    (R.allNodes.elems.map (·.theT)).Perm (P.allNodes.elems.map (·.theT)) ∧
    dependences subLC' R = dependences subLC P

/-- A graph makes the round trip if its variable and control dependences are those of the
program and the metadata can hold its memory dependences. -/
theorem cleanAndEmbedPDGAsMetadata_roundTrips (ord ord' ord₀ : IterOrder) (M : PDGModule V F B)
    (P : PDG V) (subLC : DGEdge V → Bool) (hP : IsModulePDG M P) (hembed : Embeddable M subLC P)
    {self₀ : Nat} {g₀ : PDG V} (hprogram : pdgOfProgram ord₀ M.toModuleIR self₀ = some g₀)
    (hsame : programDependences subLC P = dependences (fun _ => false) g₀)
    (md : ModuleMetadata V F) (self heap : Nat) :
    RoundTrips ord ord' M P subLC md self heap := by
  obtain ⟨idOf, nodeIDMap, md₁, hnodes, hids, hnone, hmodule⟩ := embedNodesAsMetadata_spec ord hP md
  obtain ⟨edges, hedges, hread⟩ := embedEdgesAsMetadata_spec ord hP hembed.subEdges_over
    hids.nodeIDMap md₁ hnone
  let md' : ModuleMetadata V F := { md₁ with edges, modulePdg := some [.ofString "true"] }
  have hrun : cleanAndEmbedPDGAsMetadata ord M.toModuleIR P md = some md' := by
    unfold cleanAndEmbedPDGAsMetadata embedPDGAsMetadata
    simp only [hnodes, hedges, hmodule, Option.bind_eq_bind, Option.bind_some, Option.pure_def]
    rfl
  have hids' : Numbered M idOf nodeIDMap md' :=
    ⟨hids.isMDNode, hids.inj, hids.nodeIDMap, hids.instId, hids.argsId, hids.argsId_none⟩
  -- reading gives the memory dependences
  obtain ⟨g, hg, hover, hempty⟩ := pdgOfModule_spec M self
  have hzero : ∀ {subLC : DGEdge V → Bool} {g : PDG V}, g.allEdges = ∅ → dependences subLC g = 0 :=
    fun h => by
      unfold dependences
      rw [h]
      rfl
  obtain ⟨s, hs, hreads⟩ := @readFunctions_spec _ _ _ _ _ _ _ _ _ _ _ md' ord heap hP hembed hids'
    (fun f hf s => hread f hf (readEdge heap) s)
    ⟨g, fun _ => none, 0, fun _ => false⟩
    ⟨hover, hzero hempty, fun e he => by
      rw [hempty] at he
      exact absurd he (PtrSet.not_mem_empty e)⟩
  -- the program gives the others
  obtain ⟨h₀, hh₀, hover₀, hempty₀⟩ := pdgOfModule_spec M self₀
  have halike : Alike M s.subLC (fun _ => false) (memoryDependences subLC P) 0 s.pdg h₀ := by
    refine ⟨hreads.overModule, hover₀, ?_, ?_, ?_⟩
    · unfold programDependences
      rw [hreads.dependences, hzero hempty₀, memoryDependences, Multiset.filter_zero]
      refine Multiset.filter_eq_nil.mpr fun d hd => ?_
      exact not_not.mpr (Multiset.mem_filter.mp hd).2
    · unfold memoryDependences
      rw [hreads.dependences, memoryDependences, Multiset.filter_filter]
      simp
    · unfold memoryDependences
      rw [hzero hempty₀, Multiset.filter_zero]
  obtain ⟨g₁, h₁, hg₁, hh₁, halike₁⟩ := constructEdgesFromUseDefs_alike ord' ord₀ halike
  obtain ⟨R, h₂, hR, hh₂, halike₂⟩ := constructEdgesFromControl_alike ord' ord₀ halike₁
  obtain rfl : h₂ = g₀ := by
    unfold pdgOfProgram at hprogram
    simp only [hh₀, hh₁, Option.bind_eq_bind, Option.bind_some] at hprogram
    exact Option.mem_unique hh₂ hprogram
  refine ⟨md', R, s.subLC, hrun, rfl, ?_, halike₂.left.wf, halike₂.left.nodes.trans hP.nodes.symm, ?_⟩
  · unfold constructPDGFromMetadata
    simp only [hg, hs, hg₁, hR, Option.bind_eq_bind, Option.bind_some, Option.pure_def]
  · have hprogram₂ : programDependences (fun _ => false) h₂ = dependences (fun _ => false) h₂ := by
      have hsplit := dependences_eq (fun _ => false) h₂
      rw [halike₂.memory_right, zero_add] at hsplit
      exact hsplit.symm
    rw [dependences_eq, dependences_eq subLC P, halike₂.memory_left, halike₂.program, hprogram₂, hsame]

/-! ## Two functions -/

def oneBlock (last : Nat) : CFG Unit where
  blocks := [()]
  size _ := last + 1
  successors _ := []
  predecessors _ := []
  size_pos _ _ := Nat.succ_pos last
  successors_mem := CFG.return_successors_mem
  predecessors_mem := CFG.return_successors_mem
  mem_predecessors := CFG.return_mem_predecessors

/-- The places of the instructions `0`, `1` and `2` of the first function. -/
def firstInstruction : Fin 4 → Option (Instruction Unit) :=
  ![some ⟨(), 0⟩, some ⟨(), 1⟩, some ⟨(), 2⟩, none]

/-- The place of the instruction `3` of the second function. -/
def secondInstruction : Fin 4 → Option (Instruction Unit) := ![none, none, none, some ⟨(), 0⟩]

def firstValue (i : Instruction Unit) : Fin 4 :=
  if i.index = 0 then 0 else if i.index = 1 then 1 else 2

def firstBody : ControlFunction (Fin 4) Unit where
  cfg := oneBlock 2
  entry := ()
  entry_mem := by decide
  asInstruction := firstInstruction
  isPHINode _ := false
  incomingValues _ := []
  getPointerOperand _ := none
  contains := (by decide : ∀ v, ∀ i ∈ firstInstruction v, i.parent ∈ [()] ∧ i.index < 3)
  asInstruction_inj := (by decide : ∀ v w, ∀ i ∈ firstInstruction v,
    i ∈ firstInstruction w → v = w)
  phis_first _ _ _ _ _ _ h := absurd h (by decide)
  phi_not_terminator _ _ _ h := absurd h (by decide)
  value := firstValue
  asInstruction_value i hi :=
    (by decide : ∀ i ∈ (oneBlock 2).instructions,
      firstInstruction (firstValue i) = some i) i (CFG.mem_instructions.mpr hi)
  incoming_mem _ _ h := nomatch h

def secondBody : ControlFunction (Fin 4) Unit where
  cfg := oneBlock 0
  entry := ()
  entry_mem := by decide
  asInstruction := secondInstruction
  isPHINode _ := false
  incomingValues _ := []
  getPointerOperand _ := none
  contains := (by decide : ∀ v, ∀ i ∈ secondInstruction v, i.parent ∈ [()] ∧ i.index < 1)
  asInstruction_inj := (by decide : ∀ v w, ∀ i ∈ secondInstruction v,
    i ∈ secondInstruction w → v = w)
  phis_first _ _ _ _ _ _ h := absurd h (by decide)
  phi_not_terminator _ _ _ h := absurd h (by decide)
  value _ := 3
  asInstruction_value i hi :=
    (by decide : ∀ i ∈ (oneBlock 0).instructions,
      secondInstruction 3 = some i) i (CFG.mem_instructions.mpr hi)
  incoming_mem _ _ h := nomatch h

/-- The two functions without arguments; `2` uses `1`. -/
def twoFunctions : PDGModule (Fin 4) Bool Unit where
  functions := [false, true]
  args _ := []
  body f := some (if f then secondBody else firstBody)
  postDomTree _ := ⟨[.node none [.node (some ()) []]], true⟩
  mainF := false
  users := ![[], [2], [], []]
  valueClass := ![.instruction false, .instruction false, .instruction false, .instruction true]
  functions_nodup := by decide
  values_nodup := by decide
  argument_iff v f n := by
    refine iff_of_false ?_ (by simp)
    revert v
    simp [Fin.forall_fin_succ]
  instruction_iff := by decide
  user_mem := by decide
  postDomTree_mem f F' hF' a b _ := by
    cases f <;> obtain rfl := Option.some.inj hF' <;> exact mem_singleton.mpr rfl
  main_mem := by decide
  main_body := rfl

/-- The node of a value of the graphs below. -/
def nodeOfValue (v : Fin 4) : DGNode (Fin 4) := ⟨0, v, v⟩

def noDependences : PDG (Fin 4) :=
  twoFunctions.values.foldl (fun g v => (g.addNode v true).2) (DG.empty 0)

def withMemoryDependence (g : PDG (Fin 4)) (src dst : Fin 4) (attr : EdgeAttr (DGEdge (Fin 4))) :
    PDG (Fin 4) :=
  (g.insertEdge (nodeOfValue src) (nodeOfValue dst) .mustMemoryDependence (some .raw) attr).2

def subEdge : DGEdge (Fin 4) :=
  ⟨1, 0, nodeOfValue 0, nodeOfValue 1, .mustMemoryDependence, some .raw⟩

/-- The dependence of the use, a loop-carried memory dependence with a sub-edge and a memory
dependence into the first function. -/
def threeDependences : PDG (Fin 4) :=
  withMemoryDependence (withMemoryDependence
    (noDependences.insertEdge (nodeOfValue 1) (nodeOfValue 2) .variableDependence (some .raw) {}).2
    0 1 ⟨true, some (PtrSet.ofList [subEdge])⟩) 3 0 {}

def noMetadata : ModuleMetadata (Fin 4) Bool := ⟨fun _ => none, fun _ => none, fun _ => none, none⟩

theorem noDependences_wf : noDependences.WF :=
  (DG.Clean.foldl_addNode _ (DG.empty_clean 0) (by decide) fun _ _ => rfl).toWF

theorem withMemoryDependence_wf {g : PDG (Fin 4)} (h : g.WF) {src dst : Fin 4}
    {attr : EdgeAttr (DGEdge (Fin 4))} (hsrc : g.nodeOf src = some (nodeOfValue src))
    (hdst : g.nodeOf dst = some (nodeOfValue dst)) : (withMemoryDependence g src dst attr).WF :=
  h.insertEdge hsrc hdst

theorem threeDependences_isModulePDG : IsModulePDG twoFunctions threeDependences where
  wf := withMemoryDependence_wf (withMemoryDependence_wf (noDependences_wf.insertEdge rfl rfl) rfl rfl)
    rfl rfl
  nodes := by decide
  typed := by decide

theorem threeDependences_embeddable :
    Embeddable twoFunctions (fun _ => true) threeDependences where
  readBefore := by
    unfold ReadBefore
    decide
  subEdges_over := by
    unfold SubEdgesOver
    decide
  subEdges_readBefore := by
    unfold ReadBefore
    decide
  subEdges_attributes := by decide

/-- The graph with the three dependences makes the round trip. -/
theorem threeDependences_roundTrips :
    ∃ g₀, pdgOfProgram .stored twoFunctions.toModuleIR 1 = some g₀ ∧
      programDependences (fun _ => true) threeDependences = dependences (fun _ => false) g₀ ∧
      RoundTrips .stored .reversed twoFunctions threeDependences (fun _ => true) noMetadata 2 3 := by
  obtain ⟨g₀, hrun, hsame⟩ : ∃ g₀, pdgOfProgram .stored twoFunctions.toModuleIR 1 = some g₀ ∧
      decide (programDependences (fun _ => true) threeDependences =
        dependences (fun _ => false) g₀) = true := by
    have hrun : (pdgOfProgram .stored twoFunctions.toModuleIR 1).map (fun g₀ =>
        decide (programDependences (fun _ => true) threeDependences =
          dependences (fun _ => false) g₀)) = some true := by decide +kernel
    exact Option.map_eq_some_iff.mp hrun
  have hsame := of_decide_eq_true hsame
  exact ⟨g₀, hrun, hsame, cleanAndEmbedPDGAsMetadata_roundTrips .stored .reversed .stored twoFunctions
    threeDependences (fun _ => true) threeDependences_isModulePDG threeDependences_embeddable hrun
    hsame noMetadata 2 3⟩

/-- The dependences of a graph that is embedded and read back. -/
def readBack (P : PDG (Fin 4)) : Option (Multiset (DependenceWithSubs (Fin 4))) :=
  (cleanAndEmbedPDGAsMetadata .stored twoFunctions.toModuleIR P noMetadata).bind fun md =>
    (constructPDGFromMetadata .stored twoFunctions.toModuleIR md 2 3).map fun p =>
      dependences p.2 p.1

theorem readBack_of_roundTrips {P : PDG (Fin 4)} {subLC : DGEdge (Fin 4) → Bool}
    (h : RoundTrips .stored .stored twoFunctions P subLC noMetadata 2 3) :
    readBack P = some (dependences subLC P) := by
  obtain ⟨md, R, subLC', hembed, -, hread, -, -, hsame⟩ := h
  unfold readBack
  rw [hembed, Option.bind_some, hread, Option.map_some, hsame]

/-- Three graphs that do not make the round trip: the dependence of the use appears, one that leads
to a later function cannot be read, and a sub-edge takes the flag of its edge. -/
theorem not_roundTrips :
    (IsModulePDG twoFunctions noDependences ∧
      ¬ RoundTrips .stored .stored twoFunctions noDependences (fun _ => false) noMetadata 2 3) ∧
    (IsModulePDG twoFunctions (withMemoryDependence noDependences 0 3 {}) ∧
      ¬ RoundTrips .stored .stored twoFunctions (withMemoryDependence noDependences 0 3 {})
        (fun _ => false) noMetadata 2 3) ∧
    IsModulePDG twoFunctions (withMemoryDependence (noDependences.insertEdge (nodeOfValue 1)
        (nodeOfValue 2) .variableDependence (some .raw) {}).2 0 1
          ⟨true, some (PtrSet.ofList [subEdge])⟩) ∧
      ¬ RoundTrips .stored .stored twoFunctions (withMemoryDependence (noDependences.insertEdge
        (nodeOfValue 1) (nodeOfValue 2) .variableDependence (some .raw) {}).2 0 1
          ⟨true, some (PtrSet.ofList [subEdge])⟩) (fun _ => false) noMetadata 2 3 := by
  refine ⟨⟨⟨noDependences_wf, by decide, by decide⟩, fun h => ?_⟩,
    ⟨⟨withMemoryDependence_wf noDependences_wf rfl rfl, by decide, by decide⟩, fun h => ?_⟩,
    ⟨withMemoryDependence_wf (noDependences_wf.insertEdge rfl rfl) rfl rfl, by decide, by decide⟩,
    fun h => ?_⟩
  · exact absurd (readBack_of_roundTrips h) (by decide +kernel)
  · exact absurd (readBack_of_roundTrips h) (by decide +kernel)
  · exact absurd (readBack_of_roundTrips h) (by decide +kernel)

end PDGGenerator

end Noelle
