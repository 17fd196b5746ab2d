import Noelle.PDGGenerator.Metadata

/-!
# PDGGenerator.Dependences

The dependences of a graph by value: `PDGGenerator::constructEdgesFromUseDefs` and
`PDGGenerator::constructEdgesFromControl` add the same ones whatever memory dependences
the graph has.
-/

namespace Noelle

open List

/-- The endpoints and the attributes of a dependence. -/
structure Dependence (V : Type) where
  src : V
  dst : V
  kind : DependenceKind
  dataDepType : Option DataDependenceType
  isLoopCarried : Bool
  deriving DecidableEq

namespace PDGGenerator

variable {V F B : Type}

abbrev DependenceWithSubs (V : Type) := Dependence V × Multiset (Dependence V)

/-- An edge by value. -/
def dependenceOf (e : DGEdge V) (isLoopCarried : Bool) : Dependence V :=
  ⟨e.getSrc, e.getDst, e.kind, e.dataDepType, isLoopCarried⟩

/-- The sub-edges by value. -/
def subDependences (subLC : DGEdge V → Bool) (a : EdgeAttr (DGEdge V)) : Multiset (Dependence V) :=
  match a.subEdges with
  | none => 0
  | some subEdges => (subEdges.elems : Multiset (DGEdge V)).map fun s => dependenceOf s (subLC s)

/-- The dependences of a graph by value. -/
def dependences (subLC : DGEdge V → Bool) (g : PDG V) : Multiset (DependenceWithSubs V) :=
  (g.allEdges.elems : Multiset (DGEdge V)).map fun e =>
    (dependenceOf e (g.edgeAttr e).isLoopCarried, subDependences subLC (g.edgeAttr e))

def memoryDependences (subLC : DGEdge V → Bool) (g : PDG V) : Multiset (DependenceWithSubs V) :=
  (dependences subLC g).filter fun d => d.1.kind.isMemory = true

/-- The variable and control dependences by value. -/
def programDependences (subLC : DGEdge V → Bool) (g : PDG V) : Multiset (DependenceWithSubs V) :=
  (dependences subLC g).filter fun d => ¬ d.1.kind.isMemory = true

theorem dependences_eq (subLC : DGEdge V → Bool) (g : PDG V) :
    dependences subLC g = memoryDependences subLC g + programDependences subLC g :=
  (Multiset.filter_add_not _ _).symm

variable [DecidableEq V]

/-! ## Adding dependences -/

/-- The second graph is the first one with the dependences `added`. -/
structure AddsDependences (subLC : DGEdge V → Bool) (added : Multiset (DependenceWithSubs V))
    (g g' : PDG V) : Prop where
  wf : g'.WF
  nodes : g'.allNodes = g.allNodes
  inGraph : ∀ v, g'.isInGraph v = g.isInGraph v
  dependences : dependences subLC g' = added + dependences subLC g

section Adding

variable {subLC : DGEdge V → Bool} {g g' g'' : PDG V} {v w : V}

theorem AddsDependences.refl (h : g.WF) : AddsDependences subLC 0 g g :=
  ⟨h, rfl, fun _ => rfl, (zero_add _).symm⟩

theorem AddsDependences.trans {added added' : Multiset (DependenceWithSubs V)}
    (h : AddsDependences subLC added g g') (h' : AddsDependences subLC added' g' g'') :
    AddsDependences subLC (added + added') g g'' where
  wf := h'.wf
  nodes := h'.nodes.trans h.nodes
  inGraph v := (h'.inGraph v).trans (h.inGraph v)
  dependences := by rw [h'.dependences, h.dependences, ← add_assoc, add_comm added']

theorem dependences_insertEdge (h : g.WF) (a b : DGNode V) (kind : DependenceKind)
    (t : Option DataDependenceType) (attr : EdgeAttr (DGEdge V)) :
    dependences subLC (g.insertEdge a b kind t attr).2 =
      {(⟨a.theT, b.theT, kind, t, attr.isLoopCarried⟩, subDependences subLC attr)} +
        dependences subLC g := by
  have hedges : ((g.insertEdge a b kind t attr).2.allEdges.elems : Multiset (DGEdge V)) =
      g.newEdge a b kind t ::ₘ (g.allEdges.elems : Multiset (DGEdge V)) :=
    PtrSet.coe_insert_of_notMem h.newEdge_notMem
  unfold dependences
  rw [hedges, Multiset.map_cons, ← Multiset.singleton_add, DG.insertEdge_edgeAttr_self]
  refine congrArg₂ (· + ·) rfl (Multiset.map_congr rfl fun e he => ?_)
  rw [h.insertEdge_edgeAttr he]

theorem addDependenceEdge_adds (h : g.WF) (hv : g.isInGraph v = true) (hw : g.isInGraph w = true)
    (kind : DependenceKind) (t : Option DataDependenceType) (attr : EdgeAttr (DGEdge V)) :
    ∃ e g', g.addDependenceEdge v w kind t attr = some (e, g') ∧
      AddsDependences subLC {(⟨v, w, kind, t, attr.isLoopCarried⟩, subDependences subLC attr)} g g' ∧
      g'.edgeAttr e = attr ∧ (∀ x ∈ g.allEdges, g'.edgeAttr x = g.edgeAttr x) ∧
      ∀ x, x ∈ g'.allEdges ↔ x = e ∨ x ∈ g.allEdges := by
  obtain ⟨nv, hnv⟩ := h.exists_nodeOf hv
  obtain ⟨nw, hnw⟩ := h.exists_nodeOf hw
  obtain ⟨-, rfl⟩ := h.nodeOf_mem hnv
  obtain ⟨-, rfl⟩ := h.nodeOf_mem hnw
  exact ⟨_, _, DG.addDependenceEdge_eq hnv hnw kind t attr, ⟨h.insertEdge hnv hnw, rfl,
    fun _ => rfl, dependences_insertEdge h nv nw kind t attr⟩, DG.insertEdge_edgeAttr_self ..,
    fun x hx => h.insertEdge_edgeAttr hx, fun x => DG.mem_insertEdge_allEdges ..⟩

theorem foldlM_addsDependences {α : Type} (body : PDG V → α → Option (PDG V))
    (added : α → Multiset (DependenceWithSubs V)) {l : List α} (h : g.WF)
    (hbody : ∀ a ∈ l, ∀ g₁ : PDG V, g₁.WF → (∀ v, g₁.isInGraph v = g.isInGraph v) →
      ∃ g₂, body g₁ a = some g₂ ∧ AddsDependences subLC (added a) g₁ g₂) :
    ∃ g', l.foldlM body g = some g' ∧ AddsDependences subLC (l.map added).sum g g' := by
  refine foldlM_rule body
    (fun (pre : List α) g₁ => AddsDependences subLC (pre.map added).sum g g₁)
    (.refl h) fun pre a post g₁ hl hpre => ?_
  obtain ⟨g₂, hrun, hadds⟩ := hbody a (by simp [hl]) g₁ hpre.wf hpre.inGraph
  refine ⟨g₂, hrun, ?_⟩
  rw [map_append, sum_append, map_singleton, sum_singleton]
  exact hpre.trans hadds

end Adding

/-! ## Uses -/

variable [DecidableEq B] {M : PDGModule V F B}

/-- The nodes of the graph are the arguments and instructions of the module. -/
structure OverModule (M : PDGModule V F B) (g : PDG V) : Prop where
  wf : g.WF
  nodes : (g.allNodes.elems.map (·.theT)).Perm M.values
  inGraph : ∀ v ∈ M.values, g.isInGraph v = true

theorem OverModule.adds {subLC : DGEdge V → Bool} {added : Multiset (DependenceWithSubs V)}
    {g g' : PDG V} (h : OverModule M g) (hadds : AddsDependences subLC added g g') :
    OverModule M g' where
  wf := hadds.wf
  nodes := hadds.nodes ▸ h.nodes
  inGraph v hv := (hadds.inGraph v).trans (h.inGraph v hv)

/-- The dependences from a value to its users. -/
def useDependences (M : ModuleIR V F B) (v : V) : Multiset (DependenceWithSubs V) :=
  (((M.users v).filter M.isInstructionOrArgument).map fun user =>
    {((⟨v, user, .variableDependence, some .raw, false⟩ : Dependence V), 0)}).sum

/-- Every use becomes a dependence. -/
theorem constructEdgesFromUseDefs_adds (ord : IterOrder) (subLC : DGEdge V → Bool) {g : PDG V}
    (h : OverModule M g) :
    ∃ g', constructEdgesFromUseDefs ord M.toModuleIR g = some g' ∧
      AddsDependences subLC (M.values.map (useDependences M.toModuleIR)).sum g g' := by
  have hmem : ∀ n ∈ ord.visit g.allNodes.elems, n.theT ∈ M.values := fun n hn =>
    h.nodes.mem_iff.mp (mem_map_of_mem (ord.mem_visit.mp hn))
  obtain ⟨g', hrun, hadds⟩ := @foldlM_addsDependences V _ subLC _ _
    (fun (pdg : PDG V) (node : DGNode V) =>
      ((M.users node.theT).filter M.isInstructionOrArgument).foldlM (fun pdg user =>
        (pdg.addVariableDataDependenceEdge node.theT user .raw).map (·.2)) pdg)
    (fun node => useDependences M.toModuleIR node.theT) (ord.visit g.allNodes.elems) h.wf
    fun n hn g₁ hwf₁ hin₁ => by
      refine foldlM_addsDependences _ _ hwf₁ fun user huser g₂ hwf₂ hin₂ => ?_
      obtain ⟨huser, hclass⟩ := mem_filter.mp huser
      have hv : g₂.isInGraph n.theT = true := by
        rw [hin₂, hin₁]
        exact h.inGraph _ (hmem n hn)
      have hw : g₂.isInGraph user = true := by
        rw [hin₂, hin₁]
        exact h.inGraph _ (M.user_mem _ (hmem n hn) user huser hclass)
      obtain ⟨e, g₃, hrun, hadds, -⟩ := addDependenceEdge_adds hwf₂ hv hw .variableDependence
        (some .raw) {}
      exact ⟨g₃, by rw [DG.addVariableDataDependenceEdge, hrun]; rfl, hadds⟩
  refine ⟨g', hrun, ?_⟩
  have hperm : ((ord.visit g.allNodes.elems).map (·.theT)).Perm M.values :=
    ((ord.visit_perm _).map _).trans h.nodes
  have hsum := (hperm.map (useDependences M.toModuleIR)).sum_eq
  rw [map_map] at hsum
  exact hsum ▸ hadds

/-! ## Control dependences -/

theorem mem_sum_list {α : Type} {a : α} {l : List (Multiset α)} : a ∈ l.sum ↔ ∃ s ∈ l, a ∈ s := by
  induction l with
  | nil => simp
  | cons s l ih => simp [ih]

omit [DecidableEq V] in
theorem controlDependencesOfBlock_contains {body : ControlFunction V B}
    {T : DominatorForest (Option B)} {b : B} {p : Instruction B × Instruction B}
    (hT : ∀ e ∈ T.getDescendants b, e ∈ body.cfg.blocks) (hb : b ∈ body.cfg.blocks)
    (hp : p ∈ controlDependencesOfBlock body T b) :
    body.cfg.Contains p.1 ∧ body.cfg.Contains p.2 := by
  obtain ⟨e, he, hp⟩ := mem_flatMap.mp hp
  obtain ⟨a, ha, hp⟩ := mem_flatMap.mp hp
  have hablock := body.cfg.predecessors_mem e (hT e he) a ha
  dsimp only at hp
  split_ifs at hp
  · exact absurd hp not_mem_nil
  · exact absurd hp not_mem_nil
  · obtain ⟨I, hI, rfl⟩ := mem_map.mp hp
    obtain ⟨rfl, hlt⟩ := mem_instructionsOf.mp hI
    exact ⟨CFG.contains_getTerminator hablock, hb, hlt⟩

section Control

variable {subLC subLC' : DGEdge V → Bool} {g h g' : PDG V}

def controlDependence (src dst : V) : DependenceWithSubs V :=
  (⟨src, dst, .controlDependence, none, false⟩, 0)

omit [DecidableEq V] [DecidableEq B] in
theorem controlEdge_iff {v w : V} : ControlEdge g v w ↔
    ∃ d ∈ programDependences subLC g, d.1.kind = .controlDependence ∧ d.1.src = v ∧ d.1.dst = w := by
  unfold ControlEdge programDependences dependences
  constructor
  · rintro ⟨e, he, hkind, hv, hw⟩
    refine ⟨_, Multiset.mem_filter.mpr ⟨Multiset.mem_map_of_mem _ (Multiset.mem_coe.mpr he), ?_⟩,
      hkind, hv, hw⟩
    simp [dependenceOf, hkind, DependenceKind.isMemory]
  · rintro ⟨d, hd, hkind, hv, hw⟩
    obtain ⟨e, he, rfl⟩ := Multiset.mem_map.mp (Multiset.mem_filter.mp hd).1
    exact ⟨e, Multiset.mem_coe.mp he, hkind, hv, hw⟩

theorem copyControlEdge_adds {v w : V} (hg : g.WF) (hv : g.isInGraph v = true)
    (hw : g.isInGraph w = true) :
    ∃ g', copyControlEdge g v w = some g' ∧
      AddsDependences subLC {controlDependence v w} g g' := by
  obtain ⟨e, g', hrun, hadds, -⟩ := addDependenceEdge_adds hg hv hw .controlDependence none {}
  exact ⟨g', by rw [copyControlEdge, DG.addControlDependenceEdge, hrun]; rfl, hadds⟩

/-- What the body of the loop over PHI nodes adds, by the control dependences before it. -/
def ExtendsPHI (F : ControlFunction V B) (g : PDG V) (phi : Instruction B)
    (added : Multiset (DependenceWithSubs V)) : Prop :=
  ∃ producers current : PtrSet V, (∀ v, v ∈ producers ↔ IncomingProducer F g phi v) ∧
    (∀ v, v ∈ current ↔ ControlEdge g v (F.value phi)) ∧
    added = ((producers.elems.filter fun v => decide (v ∉ current)).map fun v =>
      {controlDependence v (F.value phi)}).sum

theorem ExtendsPHI.unique {F : ControlFunction V B} {phi : Instruction B}
    {added added' : Multiset (DependenceWithSubs V)} (hg : ExtendsPHI F g phi added)
    (hh : ExtendsPHI F h phi added') (hcontrol : ∀ v w, ControlEdge g v w ↔ ControlEdge h v w) :
    added = added' := by
  obtain ⟨producers, current, hproducers, hcurrent, rfl⟩ := hg
  obtain ⟨producers', current', hproducers', hcurrent', rfl⟩ := hh
  have hmem : ∀ v, v ∈ producers ↔ v ∈ producers' := fun v => by
    rw [hproducers, hproducers', IncomingProducer, IncomingProducer]
    simp only [hcontrol]
  have hmem' : ∀ v, v ∈ current ↔ v ∈ current' := fun v => by
    rw [hcurrent, hcurrent', hcontrol]
  simp only [hmem']
  exact (((PtrSet.perm_of_mem_iff hmem).filter _).map _).sum_eq

/-- A PHI gets control dependences only. -/
theorem extendPHI_adds (ord : IterOrder) {F : ControlFunction V B} (hg : g.WF)
    (hnodes : ∀ i, F.cfg.Contains i → g.isInGraph (F.value i) = true) {phi : Instruction B}
    (hphi : F.cfg.Contains phi) :
    ∃ g' added, extendPHI ord F g phi = some g' ∧ AddsDependences subLC added g g' ∧
      ExtendsPHI F g phi added := by
  obtain ⟨producers, hproducers, hmem⟩ := incomingProducers_spec ord hg hnodes phi
  obtain ⟨current, hcurrent, hcurrentMem⟩ := getControlProducers_spec ord hg (hnodes phi hphi)
  unfold extendPHI
  simp only [hproducers, hcurrent, Option.bind_eq_bind, Option.bind_some, Option.pure_def]
  by_cases hsize : producers.size = 0
  · have hempty : producers.elems = [] := length_eq_zero_iff.mp hsize
    exact ⟨g, 0, if_pos hsize, .refl hg, producers, current, hmem, hcurrentMem, by rw [hempty]; rfl⟩
  · rw [if_neg hsize]
    obtain ⟨g', hrun, hadds⟩ := @foldlM_addsDependences V _ subLC _ _
      (fun (pdg : PDG V) producer => if producer ∈ current then some pdg
        else copyControlEdge pdg producer (F.value phi))
      (fun producer => if producer ∈ current then 0 else {controlDependence producer (F.value phi)})
      (ord.visit producers.elems) hg fun producer hproducer g₁ hwf₁ hin₁ => by
        by_cases hin : producer ∈ current
        · exact ⟨g₁, if_pos hin, by rw [if_pos hin]; exact .refl hwf₁⟩
        · rw [if_neg hin, if_neg hin]
          obtain ⟨p, -, -, e, he, -, rfl, -⟩ := (hmem producer).mp (ord.mem_visit.mp hproducer)
          refine copyControlEdge_adds hwf₁ ?_ ?_
          · rw [hin₁]
            exact (hg.edge_isInGraph he).1
          · rw [hin₁]
            exact hnodes phi hphi
    refine ⟨g', _, hrun, hadds, producers, current, hmem, hcurrentMem, ?_⟩
    rw [((ord.visit_perm producers.elems).map _).sum_eq]
    induction producers.elems with
    | nil => rfl
    | cons v l ih =>
        rw [map_cons, sum_cons, filter_cons, ih]
        by_cases hv : v ∈ current
        · simp [hv]
        · simp [hv]

/-- Two graphs over one module with the same variable and control dependences, and their memory
dependences. -/
structure Alike (M : PDGModule V F B) (subLC subLC' : DGEdge V → Bool)
    (memory memory' : Multiset (DependenceWithSubs V)) (g h : PDG V) : Prop where
  left : OverModule M g
  right : OverModule M h
  program : programDependences subLC g = programDependences subLC' h
  memory_left : memoryDependences subLC g = memory
  memory_right : memoryDependences subLC' h = memory'

omit [DecidableEq B] in
theorem AddsDependences.split {added : Multiset (DependenceWithSubs V)}
    (hadds : AddsDependences subLC added g g') (hadded : ∀ d ∈ added, d.1.kind.isMemory = false) :
    programDependences subLC g' = added + programDependences subLC g ∧
      memoryDependences subLC g' = memoryDependences subLC g := by
  unfold programDependences memoryDependences
  rw [hadds.dependences, Multiset.filter_add, Multiset.filter_add]
  constructor
  · rw [Multiset.filter_eq_self.mpr fun d hd => by simp [hadded d hd]]
  · rw [Multiset.filter_eq_nil.mpr fun d hd => by simp [hadded d hd], zero_add]

theorem Alike.adds {memory memory' added : Multiset (DependenceWithSubs V)} {h' : PDG V}
    (halike : Alike M subLC subLC' memory memory' g h) (hg : AddsDependences subLC added g g')
    (hh : AddsDependences subLC' added h h') (hadded : ∀ d ∈ added, d.1.kind.isMemory = false) :
    Alike M subLC subLC' memory memory' g' h' where
  left := halike.left.adds hg
  right := halike.right.adds hh
  program := by rw [(hg.split hadded).1, (hh.split hadded).1, halike.program]
  memory_left := (hg.split hadded).2.trans halike.memory_left
  memory_right := (hh.split hadded).2.trans halike.memory_right

theorem Alike.controlEdge {memory memory' : Multiset (DependenceWithSubs V)}
    (halike : Alike M subLC subLC' memory memory' g h) (v w : V) :
    ControlEdge g v w ↔ ControlEdge h v w := by
  rw [@controlEdge_iff _ subLC, halike.program, ← controlEdge_iff]

theorem constructEdgesFromUseDefs_alike (ord ord' : IterOrder)
    {memory memory' : Multiset (DependenceWithSubs V)}
    (halike : Alike M subLC subLC' memory memory' g h) :
    ∃ g' h', constructEdgesFromUseDefs ord M.toModuleIR g = some g' ∧
      constructEdgesFromUseDefs ord' M.toModuleIR h = some h' ∧
      Alike M subLC subLC' memory memory' g' h' := by
  obtain ⟨g', hg, haddsg⟩ := constructEdgesFromUseDefs_adds ord subLC halike.left
  obtain ⟨h', hh, haddsh⟩ := constructEdgesFromUseDefs_adds ord' subLC' halike.right
  refine ⟨g', h', hg, hh, halike.adds haddsg haddsh fun d hd => ?_⟩
  obtain ⟨s, hs, hd⟩ := (mem_sum_list).mp hd
  obtain ⟨v, -, rfl⟩ := mem_map.mp hs
  obtain ⟨s, hs, hd⟩ := (mem_sum_list).mp hd
  obtain ⟨user, -, rfl⟩ := mem_map.mp hs
  rw [Multiset.mem_singleton.mp hd]
  rfl

/-- Graphs that are alike stay alike in any order. -/
theorem constructEdgesFromControlForFunction_alike (ord ord' : IterOrder)
    {memory memory' : Multiset (DependenceWithSubs V)} {f : F} {body : ControlFunction V B}
    (hf : f ∈ M.functions) (hbody : M.body f = some body)
    (halike : Alike M subLC subLC' memory memory' g h) :
    ∃ g' h', constructEdgesFromControlForFunction ord body (M.postDomTree f) g = some g' ∧
      constructEdgesFromControlForFunction ord' body (M.postDomTree f) h = some h' ∧
      Alike M subLC subLC' memory memory' g' h' := by
  have hvalue : ∀ i, body.cfg.Contains i → body.value i ∈ M.values := fun i hi => by
    refine mem_flatMap.mpr ⟨f, hf, ?_⟩
    rw [ModuleIR.valuesOf, ModuleIR.instructions, hbody]
    exact mem_append_right _ (mem_map_of_mem (CFG.mem_instructions.mpr hi))
  -- the block phase
  have hblocks : ∀ {subLC : DGEdge V → Bool} {g : PDG V}, OverModule M g → ∃ g',
      (body.cfg.blocks.flatMap (controlDependencesOfBlock body (M.postDomTree f))).foldlM
        (fun pdg p => copyControlEdge pdg (body.value p.1) (body.value p.2)) g = some g' ∧
      AddsDependences subLC ((body.cfg.blocks.flatMap
        (controlDependencesOfBlock body (M.postDomTree f))).map fun p =>
          {controlDependence (body.value p.1) (body.value p.2)}).sum g g' := by
    intro subLC g hg
    refine foldlM_addsDependences _ _ hg.wf fun p hp g₁ hwf₁ hin₁ => ?_
    obtain ⟨b, hb, hp⟩ := mem_flatMap.mp hp
    obtain ⟨hsrc, hdst⟩ := controlDependencesOfBlock_contains
      (fun e he => M.postDomTree_mem f body hbody b e he) hb hp
    refine copyControlEdge_adds hwf₁ ?_ ?_
    · rw [hin₁]
      exact hg.inGraph _ (hvalue _ hsrc)
    · rw [hin₁]
      exact hg.inGraph _ (hvalue _ hdst)
  obtain ⟨g₁, hg₁, haddsg⟩ := @hblocks subLC _ halike.left
  obtain ⟨h₁, hh₁, haddsh⟩ := @hblocks subLC' _ halike.right
  have halike₁ := halike.adds haddsg haddsh fun d hd => by
    obtain ⟨s, hs, hd⟩ := mem_sum_list.mp hd
    obtain ⟨p, -, rfl⟩ := mem_map.mp hs
    rw [Multiset.mem_singleton.mp hd]
    rfl
  -- the phase of the PHI nodes
  obtain ⟨g', h', hg', hh', halike'⟩ := foldlM_lockstep (extendPHI ord body) (extendPHI ord' body)
    (Alike M subLC subLC' memory memory') (l := body.cfg.blocks.flatMap (phis body)) halike₁
    fun phi hphi g h halike => by
      obtain ⟨b, hb, hphi⟩ := mem_flatMap.mp hphi
      have hcontains : body.cfg.Contains phi := by
        obtain ⟨rfl, hlt⟩ := mem_instructionsOf.mp ((takeWhile_sublist _).subset hphi)
        exact ⟨hb, hlt⟩
      obtain ⟨g', added, hg, haddsg, hphig⟩ := @extendPHI_adds _ _ _ _ subLC _ ord body halike.left.wf
        (fun i hi => halike.left.inGraph _ (hvalue i hi)) phi hcontains
      obtain ⟨h', added', hh, haddsh, hphih⟩ := @extendPHI_adds _ _ _ _ subLC' _ ord' body
        halike.right.wf (fun i hi => halike.right.inGraph _ (hvalue i hi)) phi hcontains
      obtain rfl := hphig.unique hphih halike.controlEdge
      refine ⟨g', h', hg, hh, halike.adds haddsg haddsh fun d hd => ?_⟩
      obtain ⟨producers, current, -, -, rfl⟩ := hphig
      obtain ⟨s, hs, hd⟩ := mem_sum_list.mp hd
      obtain ⟨v, -, rfl⟩ := mem_map.mp hs
      rw [Multiset.mem_singleton.mp hd]
      rfl
  refine ⟨g', h', ?_, ?_, halike'⟩
  · rw [constructEdgesFromControlForFunction, hg₁]
    exact hg'
  · rw [constructEdgesFromControlForFunction, hh₁]
    exact hh'

theorem constructEdgesFromControl_alike (ord ord' : IterOrder)
    {memory memory' : Multiset (DependenceWithSubs V)}
    (halike : Alike M subLC subLC' memory memory' g h) :
    ∃ g' h', constructEdgesFromControl ord M.toModuleIR g = some g' ∧
      constructEdgesFromControl ord' M.toModuleIR h = some h' ∧
      Alike M subLC subLC' memory memory' g' h' := by
  refine foldlM_lockstep _ _ (Alike M subLC subLC' memory memory') halike
    fun f hf g h halike => ?_
  cases hbody : M.body f with
  | none => exact ⟨g, h, rfl, rfl, halike⟩
  | some body => exact constructEdgesFromControlForFunction_alike ord ord' hf hbody halike

end Control

end PDGGenerator

end Noelle
