import Noelle.DG.Invariant
import Noelle.LoopCarriedDependencies.Basic
import Noelle.PDG.Basic
import Noelle.PostDominance

/-!
# PDGGenerator.ControlDependences

The control dependences of the program dependence graph:
`PDGGenerator::constructEdgesFromControlForFunction`.

A first phase adds the dependences between blocks that the post-dominator tree shows; a second
one reads them back to extend the producers of PHI nodes.  LLVM's post-dominator tree is the
tree of the blocks with the null block as its root.
-/

namespace Noelle

open Relation PtrSet List

/-- A function in SSA form with the pointers of its instructions. -/
structure ControlFunction (V B : Type) extends SSAFunction V B where
  value : Instruction B → V
  asInstruction_value : ∀ i, cfg.Contains i → asInstruction (value i) = some i
  incoming_mem : ∀ v, ∀ p ∈ incomingValues v, p.1 ∈ cfg.blocks

namespace DominatorForest

variable {B : Type} [DecidableEq B] (T : DominatorForest (Option B))

/-- `PostDominatorTree::getDescendants`: the block is one of them. -/
def getDescendants (R : B) : List B :=
  match T.getNode (some R) with
  | none => []
  | some n => n.descendants.filterMap (·.getBlock)

/-- `PostDominatorTree::properlyDominates`: a block that is not in the tree is dominated by
every block. -/
def properlyDominates (a b : B) : Bool :=
  if a = b then false
  else
    match T.getNode (some b), T.getNode (some a) with
    | none, _ => true
    | some _, none => false
    | some nodeB, some nodeA => dominatesNode nodeA nodeB

end DominatorForest

namespace PDGGenerator

variable {V B : Type} [DecidableEq V] [DecidableEq B]

section

variable (ord : IterOrder) (F : ControlFunction V B) (postDomTree : DominatorForest (Option B))

def instructionsOf (f : CFG B) (b : B) : List (Instruction B) :=
  (List.range (f.size b)).map fun k => ⟨b, k⟩

/-- The control dependences into a block: the terminators and the instructions. -/
def controlDependencesOfBlock (b : B) : List (Instruction B × Instruction B) :=
  (postDomTree.getDescendants b).flatMap fun dominatedBB =>
    (F.cfg.predecessors dominatedBB).flatMap fun predBB =>
      let controlTerminator := F.cfg.getTerminator predBB
      if (F.cfg.successors predBB).length = 1 then []
      else if postDomTree.properlyDominates b predBB then []
      else (instructionsOf F.cfg b).map fun I => (controlTerminator, I)

/-- `copyAddEdge` of a control dependence of two values. -/
def copyControlEdge (pdg : PDG V) (src dst : V) : Option (PDG V) :=
  (pdg.addControlDependenceEdge src dst).map (·.2)

def getControlProducers (pdg : PDG V) (v : V) : Option (PtrSet V) :=
  (pdg.nodeOf v).map fun node =>
    PtrSet.ofList ((ord.visit (pdg.incomingEdges node).elems).filterMap fun edge =>
      if edge.kind = .controlDependence then some edge.getSrc else none)

/-- `BasicBlock::phis`. -/
def phis (b : B) : List (Instruction B) :=
  (instructionsOf F.cfg b).takeWhile fun i => F.isPHINode (F.value i)

/-- The incoming value is an instruction of the incoming block. -/
def residesInIncomingBlock (p : B × V) : Bool :=
  match F.asInstruction p.2 with
  | none => false
  | some incomingInst => decide (incomingInst.parent = p.1)

/-- The body of the loop over the incoming values of a PHI node. -/
def addIncomingProducers (pdg : PDG V) (controlProducers : PtrSet V) (p : B × V) :
    Option (PtrSet V) :=
  if residesInIncomingBlock F p then some controlProducers
  else do
    let terminator := F.cfg.getTerminator p.1
    let terminatorControlProducers ← getControlProducers ord pdg (F.value terminator)
    return controlProducers.insertAll (ord.visit terminatorControlProducers.elems)

/-- The body of the loop over the PHI nodes. -/
def extendPHI (pdg : PDG V) (phi : Instruction B) : Option (PDG V) := do
  let controlProducers ← (F.incomingValues (F.value phi)).foldlM (addIncomingProducers ord F pdg) ∅
  if controlProducers.size = 0 then return pdg
  let currentControlProducersOnPHI ← getControlProducers ord pdg (F.value phi)
  (ord.visit controlProducers.elems).foldlM (fun pdg producer =>
    if producer ∈ currentControlProducersOnPHI then some pdg
    else copyControlEdge pdg producer (F.value phi)) pdg

def constructEdgesFromControlForFunction (pdg : PDG V) : Option (PDG V) := do
  let pdg ← (F.cfg.blocks.flatMap (controlDependencesOfBlock F postDomTree)).foldlM
    (fun pdg p => copyControlEdge pdg (F.value p.1) (F.value p.2)) pdg
  (F.cfg.blocks.flatMap (phis F)).foldlM (extendPHI ord F) pdg

end

/-! ## Control dependence -/

/-- There is a path from `a` to `b` whose blocks after `a` are post-dominated by `b`, which does
not strictly post-dominate `a`. -/
def ControlDependent (f : CFG B) (a b : B) : Prop :=
  TransGen (fun x y => f.Flow x y ∧ f.PostDominates f.IsExit b y) a b ∧ ¬ (b ≠ a ∧ f.PostDominates f.IsExit b a)

section Trees

variable {f : CFG B} {T : DominatorForest (Option B)} {a b e : B}

theorem mem_getDescendants (hT : IsPostDominatorForest f f.IsExit T) (hb : b ∈ f.blocks) :
    e ∈ T.getDescendants b ↔ e ∈ f.blocks ∧ f.PostDominates f.IsExit b e := by
  obtain ⟨n, hn, hnb, hget⟩ := hT.getNode hb
  unfold DominatorForest.getDescendants
  rw [hget]
  dsimp only
  rw [mem_filterMap]
  constructor
  · rintro ⟨m, hm, hme⟩
    have hmem : m ∈ T.nodes := by
      obtain ⟨root, hroot, hn⟩ := DominatorNode.mem_descendantsOfAll.mp hn
      exact DominatorNode.mem_descendantsOfAll.mpr
        ⟨root, hroot, DominatorNode.descendants_trans hn hm⟩
    have he := hT.block_mem hmem hme
    exact ⟨he, (hT.mem_descendants hn hnb he).mp ⟨m, hm, hme⟩⟩
  · exact fun ⟨he, hpost⟩ => (hT.mem_descendants hn hnb he).mpr hpost

theorem properlyDominates_iff (hT : IsPostDominatorForest f f.IsExit T) (ha : a ∈ f.blocks)
    (hb : b ∈ f.blocks) : T.properlyDominates a b = true ↔ a ≠ b ∧ f.PostDominates f.IsExit a b := by
  obtain ⟨n, hn, hna, hgeta⟩ := hT.getNode ha
  obtain ⟨m, hm, hmb, hgetb⟩ := hT.getNode hb
  unfold DominatorForest.properlyDominates
  by_cases hab : a = b
  · simp [hab]
  · rw [if_neg hab, hgeta, hgetb]
    simp only [DominatorForest.dominatesNode, any_eq_true, decide_eq_true_eq, hmb]
    rw [hT.mem_descendants hn hna hb]
    exact (and_iff_right hab).symm

omit [DecidableEq B] in
/-- Control dependence by the successors of the branch. -/
theorem controlDependent_iff (hexit : f.ReachesExit f.IsExit) (ha : a ∈ f.blocks) :
    ControlDependent f a b ↔ ∃ e, f.Flow a e ∧ f.PostDominates f.IsExit b e ∧
      (f.successors a).length ≠ 1 ∧ ¬ (b ≠ a ∧ f.PostDominates f.IsExit b a) := by
  constructor
  · rintro ⟨hpath, hnot⟩
    obtain ⟨e, ⟨hflow, hpost⟩, -⟩ := TransGen.head'_iff.mp hpath
    refine ⟨e, hflow, hpost, fun hlen => hnot ?_, hnot⟩
    -- the only successor of `a` is post-dominated by `b`
    have honly : ∀ c, f.Flow a c → f.PostDominates f.IsExit b c := by
      obtain ⟨c, hc⟩ := length_eq_one_iff.mp hlen
      intro d hd
      unfold CFG.Flow at hflow hd
      rw [hc, mem_singleton] at hflow hd
      exact hd ▸ hflow ▸ hpost
    have hax : ¬ f.IsExit a := fun hax => hax.not_flow hflow
    refine ⟨fun hba => ?_, .of_successors hax honly⟩
    obtain ⟨c, hc, hcnot⟩ := hexit.exists_successor ha hax
    exact hcnot (hba ▸ honly c hc)
  · rintro ⟨e, hflow, hpost, -, hnot⟩
    obtain ⟨x, hx, hpath⟩ := hexit e (f.successors_mem a ha e hflow)
    exact ⟨.head' ⟨hflow, hpost⟩ (hpost.reach hx hpath), hnot⟩

end Trees

/-! ## The pairs of the first phase -/

section Pairs

variable {F : ControlFunction V B} {T : DominatorForest (Option B)} {f : CFG B}
  {i t : Instruction B} {b : B}

omit [DecidableEq B] in
theorem mem_instructionsOf : i ∈ instructionsOf f b ↔ i.parent = b ∧ i.index < f.size b := by
  simp only [instructionsOf, mem_map, mem_range]
  constructor
  · rintro ⟨k, hk, rfl⟩
    exact ⟨rfl, hk⟩
  · rintro ⟨rfl, hk⟩
    exact ⟨i.index, hk, rfl⟩

omit [DecidableEq V] in
/-- The pairs collected are the control dependences. -/
theorem mem_controlDependences (hT : IsPostDominatorForest F.cfg F.cfg.IsExit T) :
    (t, i) ∈ F.cfg.blocks.flatMap (controlDependencesOfBlock F T) ↔ F.cfg.Contains i ∧
      ∃ a ∈ F.cfg.blocks, t = F.cfg.getTerminator a ∧ ControlDependent F.cfg a i.parent := by
  have hpair : ∀ b ∈ F.cfg.blocks, (t, i) ∈ controlDependencesOfBlock F T b ↔
      (i.parent = b ∧ i.index < F.cfg.size b) ∧
        ∃ a ∈ F.cfg.blocks, t = F.cfg.getTerminator a ∧ ControlDependent F.cfg a b := by
    intro b hb
    simp only [controlDependencesOfBlock, mem_flatMap, mem_getDescendants hT hb]
    constructor
    · rintro ⟨e, ⟨he, hpost⟩, a, hpred, hmem⟩
      have ha := F.cfg.predecessors_mem e he a hpred
      split_ifs at hmem with hlen hproper
      · nomatch hmem
      · nomatch hmem
      · obtain ⟨j, hj, hji⟩ := mem_map.mp hmem
        obtain ⟨rfl, rfl⟩ := Prod.mk.inj hji
        refine ⟨mem_instructionsOf.mp hj, a, ha, rfl, ?_⟩
        rw [properlyDominates_iff hT hb ha] at hproper
        exact (controlDependent_iff hT.reachesExit ha).mpr
          ⟨e, (F.cfg.mem_predecessors a ha e he).mp hpred, hpost, hlen, hproper⟩
    · rintro ⟨hi, a, ha, rfl, hdep⟩
      obtain ⟨e, hflow, hpost, hlen, hnot⟩ := (controlDependent_iff hT.reachesExit ha).mp hdep
      have he := F.cfg.successors_mem a ha e hflow
      refine ⟨e, ⟨he, hpost⟩, a, (F.cfg.mem_predecessors a ha e he).mpr hflow, ?_⟩
      rw [if_neg hlen, if_neg (by rwa [properlyDominates_iff hT hb ha])]
      exact mem_map.mpr ⟨i, mem_instructionsOf.mpr hi, rfl⟩
  rw [mem_flatMap]
  constructor
  · rintro ⟨b, hb, hmem⟩
    obtain ⟨⟨rfl, hlt⟩, hdep⟩ := (hpair b hb).mp hmem
    exact ⟨⟨hb, hlt⟩, hdep⟩
  · rintro ⟨hi, hdep⟩
    exact ⟨i.parent, hi.1, (hpair _ hi.1).mpr ⟨⟨rfl, hi.2⟩, hdep⟩⟩

end Pairs

/-! ## Adding control dependences -/

/-- The graph has a control dependence. -/
def ControlEdge (pdg : PDG V) (src dst : V) : Prop :=
  ∃ e ∈ pdg.allEdges, e.kind = .controlDependence ∧ e.getSrc = src ∧ e.getDst = dst

/-- The second graph is the first one with some control dependences more. -/
structure AddsControl (edges : V → V → Prop) (pdg pdg' : PDG V) : Prop where
  wf : pdg'.WF
  inGraph : ∀ v, pdg'.isInGraph v = pdg.isInGraph v
  control : ∀ v w, ControlEdge pdg' v w ↔ ControlEdge pdg v w ∨ edges v w

section Adding

variable {pdg : PDG V} {v w : V}

theorem AddsControl.refl (h : pdg.WF) : AddsControl (fun _ _ => False) pdg pdg :=
  ⟨h, fun _ => rfl, fun _ _ => (iff_of_eq (or_false _)).symm⟩

theorem AddsControl.congr {edges edges' : V → V → Prop} {pdg' : PDG V}
    (h : AddsControl edges pdg pdg') (heq : ∀ v w, edges v w ↔ edges' v w) :
    AddsControl edges' pdg pdg' :=
  ⟨h.wf, h.inGraph, fun v w => (h.control v w).trans (or_congr Iff.rfl (heq v w))⟩

theorem AddsControl.trans {edges edges' : V → V → Prop} {pdg' pdg'' : PDG V}
    (h : AddsControl edges pdg pdg') (h' : AddsControl edges' pdg' pdg'') :
    AddsControl (fun v w => edges v w ∨ edges' v w) pdg pdg'' where
  wf := h'.wf
  inGraph v := (h'.inGraph v).trans (h.inGraph v)
  control v w := by rw [h'.control, h.control, or_assoc]

/-- The graph gets one control dependence. -/
theorem copyControlEdge_spec (h : pdg.WF) (hv : pdg.isInGraph v = true)
    (hw : pdg.isInGraph w = true) :
    ∃ pdg', copyControlEdge pdg v w = some pdg' ∧
      AddsControl (fun x y => x = v ∧ y = w) pdg pdg' := by
  obtain ⟨nv, hnv⟩ := h.exists_nodeOf hv
  obtain ⟨nw, hnw⟩ := h.exists_nodeOf hw
  obtain ⟨-, hv'⟩ := h.nodeOf_mem hnv
  obtain ⟨-, hw'⟩ := h.nodeOf_mem hnw
  have hrun : copyControlEdge pdg v w =
      some (pdg.insertEdge nv nw .controlDependence none {}).2 := by
    unfold copyControlEdge DG.addControlDependenceEdge
    rw [DG.addDependenceEdge_eq hnv hnw]
    rfl
  refine ⟨_, hrun, h.insertEdge (hv' ▸ hnv) (hw' ▸ hnw), fun _ => rfl, fun x y => ?_⟩
  unfold ControlEdge
  simp only [DG.mem_insertEdge_allEdges]
  constructor
  · rintro ⟨e, rfl | he, hkind, hx, hy⟩
    · exact .inr ⟨hx.symm.trans hv', hy.symm.trans hw'⟩
    · exact .inl ⟨e, he, hkind, hx, hy⟩
  · rintro (⟨e, he, hkind, hx, hy⟩ | ⟨rfl, rfl⟩)
    · exact ⟨e, .inr he, hkind, hx, hy⟩
    · exact ⟨_, .inl rfl, rfl, hv', hw'⟩

theorem foldlM_adds {α : Type} (body : PDG V → α → Option (PDG V)) (edges : α → V → V → Prop)
    {l : List α} (h : pdg.WF)
    (hbody : ∀ pre a post pdg₁, l = pre ++ a :: post →
      AddsControl (fun v w => ∃ x ∈ pre, edges x v w) pdg pdg₁ →
      ∃ pdg₂, body pdg₁ a = some pdg₂ ∧ AddsControl (edges a) pdg₁ pdg₂) :
    ∃ pdg', l.foldlM body pdg = some pdg' ∧
      AddsControl (fun v w => ∃ x ∈ l, edges x v w) pdg pdg' := by
  refine foldlM_rule body
    (fun (pre : List α) pdg₁ => AddsControl (fun v w => ∃ x ∈ pre, edges x v w) pdg pdg₁)
    ((AddsControl.refl h).congr fun v w => by simp) fun pre a post pdg₁ hl hpre => ?_
  obtain ⟨pdg₂, hrun, hadds⟩ := hbody pre a post pdg₁ hl hpre
  refine ⟨pdg₂, hrun, (hpre.trans hadds).congr fun v w => ?_⟩
  simp [or_and_right, exists_or]

end Adding

/-! ## The producers of PHI nodes -/

section Producers

variable {ord : IterOrder} {F : ControlFunction V B} {pdg : PDG V} {v : V}

/-- The producers are the sources of the control dependences. -/
theorem getControlProducers_spec (ord : IterOrder) (h : pdg.WF) (hv : pdg.isInGraph v = true) :
    ∃ producers, getControlProducers ord pdg v = some producers ∧
      ∀ x, x ∈ producers ↔ ControlEdge pdg x v := by
  obtain ⟨n, hn⟩ := h.exists_nodeOf hv
  obtain ⟨hmem, hnv⟩ := h.nodeOf_mem hn
  unfold getControlProducers
  rw [hn]
  refine ⟨_, rfl, fun x => ?_⟩
  simp only [mem_ofList, mem_filterMap, ord.mem_visit, mem_elems,
    h.mem_incoming n hmem]
  constructor
  · rintro ⟨e, ⟨he, rfl⟩, hx⟩
    split_ifs at hx with hkind
    exact ⟨e, he, hkind, Option.some.inj hx, hnv⟩
  · rintro ⟨e, he, hkind, hx, hdst⟩
    have hmapped := (h.edge_mapped e he).2
    rw [hdst, hn] at hmapped
    refine ⟨e, ⟨he, (Option.some.inj hmapped).symm⟩, ?_⟩
    rw [if_pos hkind, hx]

/-- The terminator of an incoming block in which the incoming value does not reside has the
control producer. -/
def IncomingProducer (F : ControlFunction V B) (pdg : PDG V) (phi : Instruction B) (v : V) : Prop :=
  ∃ p ∈ F.incomingValues (F.value phi), residesInIncomingBlock F p = false ∧
    ControlEdge pdg v (F.value (F.cfg.getTerminator p.1))

/-- The producers of a PHI are those of its incoming instructions. -/
theorem incomingProducers_spec (ord : IterOrder) (h : pdg.WF)
    (hnodes : ∀ i, F.cfg.Contains i → pdg.isInGraph (F.value i) = true) (phi : Instruction B) :
    ∃ producers, (F.incomingValues (F.value phi)).foldlM (addIncomingProducers ord F pdg) ∅ =
      some producers ∧ ∀ v, v ∈ producers ↔ IncomingProducer F pdg phi v := by
  refine foldlM_rule (addIncomingProducers ord F pdg)
    (fun (pre : List (B × V)) producers => ∀ v, v ∈ producers ↔
      ∃ p ∈ pre, residesInIncomingBlock F p = false ∧
        ControlEdge pdg v (F.value (F.cfg.getTerminator p.1)))
    (by simp) fun pre p post producers hl hpre => ?_
  unfold addIncomingProducers
  cases hresides : residesInIncomingBlock F p with
  | true =>
      refine ⟨producers, rfl, fun v => ?_⟩
      simp [hpre, or_and_right, exists_or, hresides]
  | false =>
      have hp : p ∈ F.incomingValues (F.value phi) := by simp [hl]
      obtain ⟨terminatorControlProducers, hrun, hmem⟩ := getControlProducers_spec ord h
        (hnodes _ (CFG.contains_getTerminator (F.incoming_mem _ p hp)))
      refine ⟨producers.insertAll (ord.visit terminatorControlProducers.elems), ?_, fun v => ?_⟩
      · simp [hrun]
      · rw [mem_insertAll, ord.mem_visit, mem_elems, hmem, hpre]
        simp [or_and_right, exists_or, hresides]

/-- A PHI gets the control dependences of its incoming values. -/
theorem extendPHI_spec (ord : IterOrder) (h : pdg.WF)
    (hnodes : ∀ i, F.cfg.Contains i → pdg.isInGraph (F.value i) = true) {phi : Instruction B}
    (hphi : F.cfg.Contains phi) :
    ∃ pdg', extendPHI ord F pdg phi = some pdg' ∧
      AddsControl (fun v w => w = F.value phi ∧ IncomingProducer F pdg phi v) pdg pdg' := by
  obtain ⟨producers, hproducers, hmem⟩ := incomingProducers_spec ord h hnodes phi
  obtain ⟨current, hcurrent, hcurrentMem⟩ := getControlProducers_spec ord h (hnodes phi hphi)
  unfold extendPHI
  simp only [hproducers, hcurrent, Option.bind_eq_bind, Option.bind_some, Option.pure_def]
  by_cases hsize : producers.size = 0
  · rw [if_pos hsize]
    refine ⟨pdg, rfl, (AddsControl.refl h).congr fun v w => ?_⟩
    refine iff_of_false id fun ⟨_, hv⟩ => ?_
    have hv := (hmem v).mpr hv
    have hempty : producers.elems = [] := length_eq_zero_iff.mp hsize
    rw [← mem_elems, hempty] at hv
    nomatch hv
  · rw [if_neg hsize]
    have hstep : ∀ pre producer post pdg₁, ord.visit producers.elems = pre ++ producer :: post →
        AddsControl (fun v w => ∃ x ∈ pre, v = x ∧ w = F.value phi) pdg pdg₁ →
        ∃ pdg₂, (if producer ∈ current then some pdg₁
            else copyControlEdge pdg₁ producer (F.value phi)) = some pdg₂ ∧
          AddsControl (fun v w => v = producer ∧ w = F.value phi) pdg₁ pdg₂ := by
      intro pre producer post pdg₁ hl hpre
      by_cases hin : producer ∈ current
      · refine ⟨pdg₁, if_pos hin, hpre.wf, fun _ => rfl, fun v w => ⟨.inl, ?_⟩⟩
        rintro (hvw | ⟨rfl, rfl⟩)
        · exact hvw
        · exact (hpre.control _ _).mpr (.inl ((hcurrentMem _).mp hin))
      · rw [if_neg hin]
        have hproducer : producer ∈ producers := by
          refine ord.mem_visit.mp ?_
          rw [hl]
          exact mem_append_right pre (.head _)
        obtain ⟨p, -, -, e, he, -, rfl, -⟩ := (hmem producer).mp hproducer
        refine copyControlEdge_spec hpre.wf ?_ ?_
        · rw [hpre.inGraph]
          exact (h.edge_isInGraph he).1
        · rw [hpre.inGraph]
          exact hnodes phi hphi
    obtain ⟨pdg', hrun, hadds⟩ := foldlM_adds (fun pdg producer =>
      if producer ∈ current then some pdg else copyControlEdge pdg producer (F.value phi))
      (fun producer v w => v = producer ∧ w = F.value phi) h hstep
    refine ⟨pdg', hrun, hadds.congr fun v w => ?_⟩
    simp only [ord.mem_visit, mem_elems, hmem]
    constructor
    · rintro ⟨x, hx, rfl, hw⟩
      exact ⟨hw, hx⟩
    · rintro ⟨hw, hv⟩
      exact ⟨v, hv, rfl, hw⟩

end Producers

/-! ## The dependences of a function -/

section Function

variable {F : ControlFunction V B} {T : DominatorForest (Option B)} {i j : Instruction B} {b : B}

section

omit [DecidableEq V] [DecidableEq B]

theorem value_inj (hi : F.cfg.Contains i) (hj : F.cfg.Contains j) (h : F.value i = F.value j) :
    i = j := by
  have hsome := F.asInstruction_value i hi
  rw [h, F.asInstruction_value j hj] at hsome
  exact (Option.some.inj hsome).symm

theorem terminator_not_phi (hb : b ∈ F.cfg.blocks) :
    F.isPHINode (F.value (F.cfg.getTerminator b)) = false := by
  have hcontains := CFG.contains_getTerminator hb
  by_contra hphi
  exact F.phi_not_terminator _ _ (F.asInstruction_value _ hcontains) (Bool.not_eq_false _ ▸ hphi) rfl

/-- The PHIs of a block are its instructions that are PHIs. -/
theorem mem_phis (hb : b ∈ F.cfg.blocks) :
    i ∈ phis F b ↔ (i.parent = b ∧ i.index < F.cfg.size b) ∧ F.isPHINode (F.value i) = true := by
  unfold phis
  constructor
  · intro hi
    exact ⟨mem_instructionsOf.mp ((List.takeWhile_prefix _).subset hi),
      all_eq_true.mp all_takeWhile i hi⟩
  · rintro ⟨⟨rfl, hlt⟩, hphi⟩
    -- the instructions up to the PHI node are PHI nodes
    have hprefix : ∀ j ∈ (List.range (i.index + 1)).map (Instruction.mk i.parent),
        F.isPHINode (F.value j) = true := by
      intro j hj
      obtain ⟨k, hk, rfl⟩ := mem_map.mp hj
      have hle := Nat.le_of_lt_succ (mem_range.mp hk)
      exact F.phis_first _ _ _ _ (F.asInstruction_value i ⟨hb, hlt⟩)
        (F.asInstruction_value ⟨i.parent, k⟩ ⟨hb, hle.trans_lt hlt⟩) hphi rfl hle
    have hsplit : instructionsOf F.cfg i.parent =
        (List.range (i.index + 1)).map (Instruction.mk i.parent) ++
          ((List.range (F.cfg.size i.parent - (i.index + 1))).map (i.index + 1 + ·)).map
            (Instruction.mk i.parent) := by
      unfold instructionsOf
      rw [← map_append, ← range_add, Nat.add_sub_cancel' hlt]
    rw [hsplit, takeWhile_append_of_pos hprefix]
    refine mem_append_left _ (mem_map.mpr ⟨i.index, ?_, rfl⟩)
    exact mem_range.mpr (Nat.lt_succ_self _)

end

/-- The blocks get their control dependences. -/
theorem blockPhase_spec (hT : IsPostDominatorForest F.cfg F.cfg.IsExit T) {pdg : PDG V} (hwf : pdg.WF)
    (hnodes : ∀ i, F.cfg.Contains i → pdg.isInGraph (F.value i) = true) :
    ∃ pdg', (F.cfg.blocks.flatMap (controlDependencesOfBlock F T)).foldlM
        (fun pdg p => copyControlEdge pdg (F.value p.1) (F.value p.2)) pdg = some pdg' ∧
      AddsControl (fun v w => ∃ i, F.cfg.Contains i ∧ w = F.value i ∧ ∃ a ∈ F.cfg.blocks,
        v = F.value (F.cfg.getTerminator a) ∧ ControlDependent F.cfg a i.parent) pdg pdg' := by
  obtain ⟨pdg', hrun, hadds⟩ := foldlM_adds
    (fun pdg (p : Instruction B × Instruction B) => copyControlEdge pdg (F.value p.1) (F.value p.2))
    (fun p v w => v = F.value p.1 ∧ w = F.value p.2)
    (l := F.cfg.blocks.flatMap (controlDependencesOfBlock F T)) hwf (by
      rintro pre ⟨t, i⟩ post pdg₁ hl hpre
      have hmem : (t, i) ∈ F.cfg.blocks.flatMap (controlDependencesOfBlock F T) := by
        rw [hl]
        exact mem_append_right pre (.head _)
      obtain ⟨hi, a, ha, rfl, -⟩ := (mem_controlDependences hT).mp hmem
      refine copyControlEdge_spec hpre.wf ?_ ?_
      · rw [hpre.inGraph]
        exact hnodes _ (CFG.contains_getTerminator ha)
      · rw [hpre.inGraph]
        exact hnodes i hi)
  refine ⟨pdg', hrun, hadds.congr fun v w => ?_⟩
  constructor
  · rintro ⟨⟨t, i⟩, hmem, rfl, rfl⟩
    obtain ⟨hi, a, ha, rfl, hdep⟩ := (mem_controlDependences hT).mp hmem
    exact ⟨i, hi, rfl, a, ha, rfl, hdep⟩
  · rintro ⟨i, hi, rfl, a, ha, rfl, hdep⟩
    exact ⟨(_, i), (mem_controlDependences hT).mpr ⟨hi, a, ha, rfl, hdep⟩, rfl, rfl⟩

/-- The PHIs get those of their incoming values. -/
theorem phiPhase_spec (ord : IterOrder) {pdg : PDG V} (hwf : pdg.WF)
    (hnodes : ∀ i, F.cfg.Contains i → pdg.isInGraph (F.value i) = true) :
    ∃ pdg', (F.cfg.blocks.flatMap (phis F)).foldlM (extendPHI ord F) pdg = some pdg' ∧
      AddsControl (fun v w => ∃ phi, F.cfg.Contains phi ∧ F.isPHINode (F.value phi) = true ∧
        w = F.value phi ∧ IncomingProducer F pdg phi v) pdg pdg' := by
  have hphis : ∀ i, i ∈ F.cfg.blocks.flatMap (phis F) ↔
      F.cfg.Contains i ∧ F.isPHINode (F.value i) = true := by
    intro i
    rw [mem_flatMap]
    constructor
    · rintro ⟨b, hb, hi⟩
      obtain ⟨⟨rfl, hlt⟩, hphi⟩ := (mem_phis hb).mp hi
      exact ⟨⟨hb, hlt⟩, hphi⟩
    · rintro ⟨hi, hphi⟩
      exact ⟨i.parent, hi.1, (mem_phis hi.1).mpr ⟨⟨rfl, hi.2⟩, hphi⟩⟩
  obtain ⟨pdg', hrun, hadds⟩ := foldlM_adds (extendPHI ord F)
    (fun phi v w => w = F.value phi ∧ IncomingProducer F pdg phi v)
    (l := F.cfg.blocks.flatMap (phis F)) hwf (by
      intro pre phi post pdg₁ hl hpre
      have hmem : ∀ x ∈ pre ++ phi :: post, x ∈ F.cfg.blocks.flatMap (phis F) := fun x hx => hl ▸ hx
      obtain ⟨hphi, -⟩ := (hphis phi).mp (hmem phi (mem_append_right pre (.head _)))
      obtain ⟨pdg₂, hrun, hadds⟩ := extendPHI_spec ord hpre.wf
        (fun i hi => (hpre.inGraph _).trans (hnodes i hi)) hphi
      refine ⟨pdg₂, hrun, hadds.congr fun v w => and_congr_right fun _ => ?_⟩
      refine exists_congr fun p => and_congr_right fun hp => and_congr_right fun _ => ?_
      rw [hpre.control]
      refine ⟨fun h => h.resolve_right ?_, .inl⟩
      rintro ⟨x, hx, heq, -⟩
      obtain ⟨hxC, hxphi⟩ := (hphis x).mp (hmem x (mem_append_left _ hx))
      have hblock := F.incoming_mem _ p hp
      rw [← heq, terminator_not_phi hblock] at hxphi
      exact Bool.noConfusion hxphi)
  refine ⟨pdg', hrun, hadds.congr fun v w => ?_⟩
  constructor
  · rintro ⟨phi, hmem, hw⟩
    exact ⟨phi, ((hphis phi).mp hmem).1, ((hphis phi).mp hmem).2, hw⟩
  · rintro ⟨phi, hphi, hkind, hw⟩
    exact ⟨phi, (hphis phi).mpr ⟨hphi, hkind⟩, hw⟩

/-- Control dependences of the function: the classical ones, and the producers that PHI nodes
take over from their incoming blocks. -/
theorem constructEdgesFromControlForFunction_spec (ord : IterOrder) (F : ControlFunction V B)
    (T : DominatorForest (Option B)) (hT : IsPostDominatorForest F.cfg F.cfg.IsExit T) (pdg : PDG V)
    (hwf : pdg.WF) (hnodes : ∀ i, F.cfg.Contains i → pdg.isInGraph (F.value i) = true)
    (hnew : ∀ v i, F.cfg.Contains i → ¬ ControlEdge pdg v (F.value i)) :
    ∃ pdg', constructEdgesFromControlForFunction ord F T pdg = some pdg' ∧
      (∀ i, F.cfg.Contains i → F.isPHINode (F.value i) = false → ∀ a ∈ F.cfg.blocks,
        (ControlEdge pdg' (F.value (F.cfg.getTerminator a)) (F.value i) ↔
          ControlDependent F.cfg a i.parent)) ∧
      ∀ phi, F.cfg.Contains phi → F.isPHINode (F.value phi) = true → ∀ v,
        (ControlEdge pdg' v (F.value phi) ↔
          ControlEdge pdg' v (F.value (F.cfg.getTerminator phi.parent)) ∨
            IncomingProducer F pdg' phi v) := by
  obtain ⟨pdg₁, hrun₁, hblocks⟩ := blockPhase_spec hT hwf hnodes
  obtain ⟨pdg₂, hrun₂, hphis⟩ := phiPhase_spec ord hblocks.wf
    fun i hi => (hblocks.inGraph _).trans (hnodes i hi)
  have hblock : ∀ i, F.cfg.Contains i → ∀ v, ControlEdge pdg₁ v (F.value i) ↔
      ∃ a ∈ F.cfg.blocks, v = F.value (F.cfg.getTerminator a) ∧
        ControlDependent F.cfg a i.parent := by
    intro i hi v
    rw [hblocks.control]
    constructor
    · rintro (hold | ⟨j, hj, heq, hdep⟩)
      · exact absurd hold (hnew v i hi)
      · exact value_inj hi hj heq ▸ hdep
    · exact fun hdep => .inr ⟨i, hi, rfl, hdep⟩
  have hnonphi : ∀ i, F.cfg.Contains i → F.isPHINode (F.value i) = false → ∀ v,
      ControlEdge pdg₂ v (F.value i) ↔ ControlEdge pdg₁ v (F.value i) := by
    intro i hi hkind v
    rw [hphis.control]
    refine ⟨fun h => h.resolve_right ?_, .inl⟩
    rintro ⟨phi, -, hphi, heq, -⟩
    rw [← heq, hkind] at hphi
    exact Bool.noConfusion hphi
  have hterminator : ∀ b ∈ F.cfg.blocks, ∀ v,
      ControlEdge pdg₂ v (F.value (F.cfg.getTerminator b)) ↔
        ControlEdge pdg₁ v (F.value (F.cfg.getTerminator b)) := fun b hb =>
    hnonphi _ (CFG.contains_getTerminator hb) (terminator_not_phi hb)
  refine ⟨pdg₂, ?_, ?_, ?_⟩
  · unfold constructEdgesFromControlForFunction
    rw [hrun₁]
    exact hrun₂
  · intro i hi hkind a ha
    rw [hnonphi i hi hkind, hblock i hi]
    constructor
    · rintro ⟨a', ha', heq, hdep⟩
      have hterm := value_inj (CFG.contains_getTerminator ha) (CFG.contains_getTerminator ha') heq
      have hparent : a = a' := congrArg Instruction.parent hterm
      exact hparent ▸ hdep
    · exact fun hdep => ⟨a, ha, rfl, hdep⟩
  · intro phi hphi hkind v
    have hincoming : IncomingProducer F pdg₂ phi v ↔ IncomingProducer F pdg₁ phi v :=
      exists_congr fun p => and_congr_right fun hp => and_congr_right fun _ =>
        hterminator p.1 (F.incoming_mem _ p hp) v
    rw [hincoming, hterminator _ hphi.1, hphis.control, hblock phi hphi,
      hblock _ (CFG.contains_getTerminator hphi.1)]
    refine or_congr Iff.rfl ?_
    constructor
    · rintro ⟨x, hx, -, heq, hproducer⟩
      exact value_inj hphi hx heq ▸ hproducer
    · exact fun hproducer => ⟨phi, hphi, hkind, rfl, hproducer⟩

end Function

/-! ## A PHI node after a branch -/

/-- The pointers of the instructions of `ifThenCFG`; `5` and `6` are arguments. -/
def ifThenValue (i : Instruction (Fin 3)) : Fin 7 :=
  if i = ⟨0, 0⟩ then 0
  else if i = ⟨0, 1⟩ then 1
  else if i = ⟨1, 0⟩ then 2
  else if i = ⟨2, 0⟩ then 3
  else 4

def ifThenInstruction : Fin 7 → Option (Instruction (Fin 3)) :=
  ![some ⟨0, 0⟩, some ⟨0, 1⟩, some ⟨1, 0⟩, some ⟨2, 0⟩, some ⟨2, 1⟩, none, none]

/-- The block `2` starts with `%3 = phi [%5, 1], [%0, 0]`. -/
def ifThenFunction : ControlFunction (Fin 7) (Fin 3) where
  cfg := ifThenCFG
  entry := 0
  entry_mem := by decide
  asInstruction := ifThenInstruction
  isPHINode v := decide (v = 3)
  incomingValues v := if v = 3 then [(1, 5), (0, 0)] else []
  getPointerOperand _ := none
  contains := (by decide : ∀ v, ∀ i ∈ ifThenInstruction v,
    i.parent ∈ ifThenCFG.blocks ∧ i.index < ifThenCFG.size i.parent)
  asInstruction_inj := (by decide : ∀ v w, ∀ i ∈ ifThenInstruction v,
    i ∈ ifThenInstruction w → v = w)
  phis_first v w i j hi hj :=
    (by decide : ∀ v w, ∀ i ∈ ifThenInstruction v, ∀ j ∈ ifThenInstruction w,
      decide (v = 3) = true → j.parent = i.parent → j.index ≤ i.index →
        decide (w = 3) = true) v w i hi j hj
  phi_not_terminator := (by decide : ∀ v, ∀ i ∈ ifThenInstruction v,
    decide (v = 3) = true → i ≠ ifThenCFG.getTerminator i.parent)
  value := ifThenValue
  asInstruction_value i hi :=
    (by decide : ∀ i ∈ ifThenCFG.instructions, ifThenInstruction (ifThenValue i) = some i) i
      (CFG.mem_instructions.mpr hi)
  incoming_mem v p _ := (by decide : ∀ b : Fin 3, b ∈ ifThenCFG.blocks) p.1

/-- The graph of the instructions, without dependences. -/
def ifThenGraph : PDG (Fin 7) :=
  ([0, 1, 2, 3, 4] : List (Fin 7)).foldl (fun g v => (g.addNode v true).2) (DG.empty 0)

theorem ifThenGraph_wf : ifThenGraph.WF :=
  (DG.Clean.foldl_addNode _ (DG.empty_clean 0) (by decide) fun _ _ => rfl).toWF

/-- The dependences of the function. -/
theorem ifThenFunction_control :
    IsPostDominatorForest ifThenFunction.cfg ifThenFunction.cfg.IsExit ifThenPostDominators ∧
    ∃ pdg', constructEdgesFromControlForFunction .stored ifThenFunction ifThenPostDominators
        ifThenGraph = some pdg' ∧
      (∀ i, ifThenFunction.cfg.Contains i →
        ifThenFunction.isPHINode (ifThenFunction.value i) = false →
        ∀ a ∈ ifThenFunction.cfg.blocks, (ControlEdge pdg'
            (ifThenFunction.value (ifThenFunction.cfg.getTerminator a)) (ifThenFunction.value i) ↔
          ControlDependent ifThenFunction.cfg a i.parent)) ∧
      ∀ phi, ifThenFunction.cfg.Contains phi →
        ifThenFunction.isPHINode (ifThenFunction.value phi) = true → ∀ v,
          (ControlEdge pdg' v (ifThenFunction.value phi) ↔
            ControlEdge pdg' v
                (ifThenFunction.value (ifThenFunction.cfg.getTerminator phi.parent)) ∨
              IncomingProducer ifThenFunction pdg' phi v) :=
  ⟨ifThenPostDominators_spec, constructEdgesFromControlForFunction_spec .stored ifThenFunction
    ifThenPostDominators ifThenPostDominators_spec ifThenGraph ifThenGraph_wf
    (fun i hi => (by decide : ∀ i ∈ ifThenCFG.instructions,
      ifThenGraph.isInGraph (ifThenValue i) = true) i (CFG.mem_instructions.mpr hi))
    fun v i _ ⟨e, he, _⟩ => nomatch he⟩

end PDGGenerator

end Noelle
