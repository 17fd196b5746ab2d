import Noelle.DataFlow.Reachability
import Noelle.LoopCarriedDependencies.HeaderPhis
import Noelle.PDG.Basic

/-!
# LDGGenerator.Affine

Loop-carried memory dependences that the iteration space analysis disproves:
`LDGGenerator::runAffineAnalysis`.

A dependence is kept if its consumer is reachable from its producer in one iteration.  The
reachability analysis does not propagate from an instruction of the header, so that it does
not go on to the next iteration; it also stops there at every step inside the header.  The
iteration space analysis is a parameter.
-/

namespace Noelle

open Relation List Option

namespace LDGGenerator

variable {F V B : Type} [DecidableEq V] [DecidableEq B]

/-- `computeOUT` propagates the data-flow values of the successor. -/
def propagates (loopHeader : B) (_inst succ : Instruction B) : Bool :=
  !decide (succ.parent = loopHeader)

def computeReachabilityFromInstructions (f : CFG B) (loopStructure : LoopStructure F B)
    (fuel : Nat) : Option (DataFlowResult B (Instruction B)) :=
  (DataFlowEngine.reachabilityAnalysis f (fun _ => true) (propagates loopStructure.getHeader)
    fuel).map (·.df)

section

variable (ord : IterOrder) (ir : SSAFunction V B) (loopNode : LoopTree F B)
  (areInstructionsAccessingDisjointMemoryLocationsBetweenIterations :
    Instruction B → Instruction B → Bool)

/-- The body of the loop over the loop-carried dependences. -/
def collectEdgeToRemove (dfr : DataFlowResult B (Instruction B))
    (edgesToRemove : PtrSet (DGEdge V)) (dependency : DGEdge V) : PtrSet (DGEdge V) :=
  if !dependency.kind.isMemory then edgesToRemove
  else
    match ir.asInstruction dependency.getSrc, ir.asInstruction dependency.getDst with
    | some fromInst, some toInst =>
        if toInst ∈ dfr.outs fromInst then edgesToRemove
        else if areInstructionsAccessingDisjointMemoryLocationsBetweenIterations fromInst toInst then
          edgesToRemove.insert dependency
        else edgesToRemove
    | _, _ => edgesToRemove

/-- The body of the loop over the edges to remove. -/
def dropEdge (loopDG : PDG V) (edge : DGEdge V) : PDG V :=
  (loopDG.setLoopCarried edge false).removeEdge edge

def runAffineAnalysis (loopDG : PDG V) (fuel : Nat) : Option (PDG V) := do
  let loopStructure := loopNode.getLoop
  let dfr ← computeReachabilityFromInstructions ir.cfg loopStructure fuel
  let dependencies ← LoopCarriedDependencies.getLoopCarriedDependenciesForLoopInPDG ord ir loopStructure
    loopNode loopDG
  let edgesToRemove := (ord.visit dependencies.elems).foldl (collectEdgeToRemove ir
    areInstructionsAccessingDisjointMemoryLocationsBetweenIterations dfr) ∅
  return (ord.visit edgesToRemove.elems).foldl dropEdge loopDG

end

/-! ## One iteration -/

/-- Control passes from `i` to `j` inside the loop, and does not enter the header from a
latch. -/
structure StepsInIteration (f : CFG B) (entry : B) (l : LoopStructure F B)
    (i j : Instruction B) : Prop where
  succ : f.Succ i j
  src_mem : i.parent ∈ l.bbs
  dst_mem : j.parent ∈ l.bbs
  not_back : ¬ (j = CFG.begin l.header ∧ IsLatch f.Flow entry l.header i.parent)

/-- `j` is reachable from `i` in the same iteration of the loop. -/
def ReachableInIteration (f : CFG B) (entry : B) (l : LoopStructure F B) :
    Instruction B → Instruction B → Prop :=
  TransGen (StepsInIteration f entry l)

variable {f : CFG B} {entry : B} {l : LoopStructure F B} {i j : Instruction B}

section Iteration

omit [DecidableEq V] [DecidableEq B]

theorem isLatch_of_flow (hl : IsNaturalLoop f entry l) {b : B} (hb : b ∈ l.bbs)
    (hflow : f.Flow b l.header) : IsLatch f.Flow entry l.header b := by
  have hnat := (hl.mem_iff b).mp hb
  exact ⟨hflow, hnat.dominates, hnat.1⟩

/-- A step of one iteration reaches the header only inside the header. -/
theorem StepsInIteration.into_header (h : StepsInIteration f entry l i j)
    (hl : IsNaturalLoop f entry l) (hj : j.parent = l.header) :
    i.parent = l.header ∧ i.index + 1 < f.size l.header ∧ j = ⟨l.header, i.index + 1⟩ := by
  obtain ⟨-, ⟨hlt, rfl⟩ | ⟨-, b, hflow, rfl⟩⟩ := h.succ
  · have hi : i.parent = l.header := hj
    rw [← hi]
    exact ⟨rfl, hlt, rfl⟩
  · have hb : b = l.header := hj
    subst hb
    exact absurd ⟨rfl, isLatch_of_flow hl h.src_mem hflow⟩ h.not_back

theorem reach_later (hi : f.Contains i) (hin : i.parent ∈ l.bbs) :
    ∀ k, i.index ≤ k → k < f.size i.parent →
      ReflTransGen (StepsInIteration f entry l) i ⟨i.parent, k⟩ := by
  intro k hk
  induction k, hk using Nat.le_induction with
  | base => exact fun _ => .refl
  | succ k _ ih =>
      intro hlt
      refine (ih (Nat.lt_of_succ_lt hlt)).tail ⟨⟨⟨hi.1, Nat.lt_of_succ_lt hlt⟩, .inl ⟨hlt, rfl⟩⟩,
        hin, hin, fun h => ?_⟩
      exact absurd (congrArg Instruction.index h.1) (Nat.succ_ne_zero k)

theorem reach_successor (hi : f.Contains i) (hin : i.parent ∈ l.bbs) {c : B} (hc : c ∈ l.bbs)
    (hflow : f.Flow i.parent c) (hne : c ≠ l.header) :
    TransGen (StepsInIteration f entry l) i (CFG.begin c) := by
  have hpos := f.size_pos i.parent hi.1
  refine .tail' (reach_later hi hin (f.size i.parent - 1) (Nat.le_sub_one_of_lt hi.2)
    (Nat.sub_lt hpos one_pos)) ⟨⟨CFG.contains_getTerminator hi.1,
      .inr ⟨Nat.sub_add_cancel hpos, c, hflow, rfl⟩⟩, hin, hc, fun h => hne ?_⟩
  exact congrArg Instruction.parent h.1

theorem reach_along {b c : B} (hb : b ∈ f.blocks) (hin : b ∈ l.bbs)
    (hpath : ReflTransGen (fun x y => (f.Flow x y ∧ y ∈ l.bbs) ∧ y ≠ l.header) b c) :
    (c ∈ f.blocks ∧ c ∈ l.bbs) ∧
      ReflTransGen (StepsInIteration f entry l) (CFG.begin b) (CFG.begin c) := by
  induction hpath with
  | refl => exact ⟨⟨hb, hin⟩, .refl⟩
  | @tail c d _ hcd ih =>
      obtain ⟨⟨hc, hcin⟩, hpath⟩ := ih
      obtain ⟨⟨hflow, hdin⟩, hne⟩ := hcd
      have hstep := @reach_successor _ _ _ entry _ _ (CFG.contains_begin hc) hcin _ hdin hflow hne
      exact ⟨⟨f.successors_mem c hc d hflow, hdin⟩, hpath.trans hstep.to_reflTransGen⟩

theorem reachableInIteration_of_header (hl : IsNaturalLoop f entry l) (hi : f.Contains i)
    (hheader : i.parent = l.header) (hj : f.Contains j) (hin : j.parent ∈ l.bbs)
    (hafter : j.parent = l.header → i.index < j.index) : ReachableInIteration f entry l i j := by
  have hiin : i.parent ∈ l.bbs := hheader ▸ hl.header_mem
  by_cases hjh : j.parent = l.header
  · have hlt := hafter hjh
    have hij : i.parent = j.parent := hheader.trans hjh.symm
    have hpath := @reach_later _ _ _ entry _ _ hi hiin j.index hlt.le (hij ▸ hj.2)
    rw [hij] at hpath
    refine (reflTransGen_iff_eq_or_transGen.mp hpath).resolve_left fun heq => ?_
    exact absurd (congrArg Instruction.index heq) (ne_of_gt hlt)
  · obtain ⟨c, hflow, hc, hne, hpath⟩ := ((hl.mem_iff j.parent).mp hin).exists_entered hjh
    have hcin := (hl.mem_iff c).mpr hc
    have hflow : f.Flow i.parent c := hheader ▸ hflow
    have hfirst := @reach_successor _ _ _ entry _ _ hi hiin _ hcin hflow hne
    have hblocks := @reach_along _ _ _ entry _ _ _ (f.successors_mem _ hi.1 c hflow) hcin
      (ReflTransGen.mono (fun _ y hxy => ⟨⟨hxy.1.1, (hl.mem_iff y).mpr hxy.1.2⟩, hxy.2⟩) _ _ hpath)
    have hlast := @reach_later _ _ _ entry _ _ (CFG.contains_begin hj.1) hin j.index
      (Nat.zero_le _) hj.2
    exact hfirst.trans_left (hblocks.2.trans hlast)

theorem ReachableInIteration.after (h : ReachableInIteration f entry l i j)
    (hl : IsNaturalLoop f entry l) (hj : j.parent = l.header) : i.index < j.index := by
  induction h with
  | single hstep =>
      obtain ⟨-, -, rfl⟩ := hstep.into_header hl hj
      exact Nat.lt_succ_self _
  | tail _ hstep ih =>
      obtain ⟨hm, -, rfl⟩ := hstep.into_header hl hj
      exact Nat.lt_succ_of_lt (ih hm)

end Iteration

/-! ## The instructions that the analysis reaches -/

/-- An instruction of the header before its terminator. -/
def IsInsideHeader (f : CFG B) (l : LoopStructure F B) (i : Instruction B) : Prop :=
  i.parent = l.header ∧ i ≠ f.getTerminator l.header

/-- The step that `computeOUT` follows. -/
abbrev Propagates (f : CFG B) (l : LoopStructure F B) : Instruction B → Instruction B → Prop :=
  DataFlowEngine.Passes f (propagates l.getHeader)

section

omit [DecidableEq V]

theorem propagates_iff : Propagates f l i j ↔ f.Succ i j ∧ j.parent ≠ l.header := by
  refine and_congr_right fun _ => ?_
  unfold propagates LoopStructure.getHeader
  rw [Bool.not_eq_true', decide_eq_false_iff_not]

theorem IsInsideHeader.not_propagates (hi : IsInsideHeader f l i) : ¬ TransGen (Propagates f l) i j := by
  intro h
  obtain ⟨m, hstep, -⟩ := TransGen.head'_iff.mp h
  obtain ⟨⟨hcontains, hsucc⟩, hne⟩ := propagates_iff.mp hstep
  obtain ⟨hheader, hterminator⟩ := hi
  rcases hsucc with ⟨-, rfl⟩ | ⟨hlast, -⟩
  · exact hne hheader
  · refine hterminator ?_
    obtain ⟨b, k⟩ := i
    subst hheader
    exact congrArg (Instruction.mk l.header) (Nat.eq_sub_of_add_eq hlast)

theorem ReachableInIteration.propagates (h : ReachableInIteration f entry l i j)
    (hl : IsNaturalLoop f entry l) (hi : ¬ IsInsideHeader f l i) :
    TransGen (Propagates f l) i j := by
  -- from outside the inside of the header a step does not lead into the header
  have hstep : ∀ {x y}, StepsInIteration f entry l x y → ¬ IsInsideHeader f l x →
      Propagates f l x y := by
    intro x y hxy hx
    refine propagates_iff.mpr ⟨hxy.succ, fun hy => hx ?_⟩
    obtain ⟨hheader, hlt, -⟩ := hxy.into_header hl hy
    refine ⟨hheader, fun heq => ?_⟩
    have hindex : x.index = f.size l.header - 1 := congrArg Instruction.index heq
    omega
  induction h with
  | single hxy => exact .single (hstep hxy hi)
  | tail _ hxy ih =>
      refine ih.tail (hstep hxy fun hinside => ?_)
      obtain ⟨_, _, hlast⟩ := TransGen.tail'_iff.mp ih
      exact (propagates_iff.mp hlast).2 hinside.1

end

/-- `OUT` holds what the instruction is propagated to. -/
theorem computeReachabilityFromInstructions_spec (f : CFG B) (l : LoopStructure F B) :
    ∃ N, ∀ fuel ≥ N, ∃ dfr, computeReachabilityFromInstructions f l fuel = some dfr ∧
      ∀ i, f.Contains i → ∀ j, j ∈ dfr.outs i ↔ TransGen (Propagates f l) i j := by
  obtain ⟨N, hN⟩ := DataFlowEngine.reachabilityAnalysis_spec f (fun _ => true)
    (LDGGenerator.propagates l.getHeader)
  refine ⟨N, fun fuel hfuel => ?_⟩
  obtain ⟨a, ha, hspec⟩ := hN fuel hfuel
  refine ⟨a.df, map_eq_some_iff.mpr ⟨a, ha, rfl⟩, fun i hi j => (hspec i hi j).trans ?_⟩
  simp

/-! ## The dependences that the analysis removes -/

variable {ord : IterOrder} {ir : SSAFunction V B} {loopNode : LoopTree F B}
  {disjoint : Instruction B → Instruction B → Bool} {g : PDG V}

omit [DecidableEq B] in
@[simp] theorem dropEdge_allEdges (g : PDG V) (e : DGEdge V) :
    (dropEdge g e).allEdges = g.allEdges.erase e := by
  unfold dropEdge DG.removeEdge DG.removeConnectedEdge DG.setLoopCarried
  dsimp only
  split <;> split <;> rfl

omit [DecidableEq B] in
theorem mem_foldl_dropEdge (edges : List (DGEdge V)) (g : PDG V) (e : DGEdge V) :
    e ∈ (edges.foldl dropEdge g).allEdges ↔ e ∈ g.allEdges ∧ e ∉ edges := by
  induction edges generalizing g with
  | nil => simp
  | cons x edges ih =>
      rw [foldl_cons, ih, dropEdge_allEdges, PtrSet.mem_erase, mem_cons, not_or]
      tauto

/-- The iteration space analysis disproves the dependence and its consumer is not in `OUT` of
its producer. -/
def IsDisproved (ir : SSAFunction V B) (disjoint : Instruction B → Instruction B → Bool)
    (dfr : DataFlowResult B (Instruction B)) (e : DGEdge V) : Prop :=
  e.kind.isMemory = true ∧ ∃ fromInst toInst, ir.asInstruction e.getSrc = some fromInst ∧
    ir.asInstruction e.getDst = some toInst ∧ toInst ∉ dfr.outs fromInst ∧
    disjoint fromInst toInst = true

variable {dfr : DataFlowResult B (Instruction B)} {e : DGEdge V}

/-- An edge is collected if it is disproved. -/
theorem mem_collectEdgeToRemove {edges : PtrSet (DGEdge V)} {dependency : DGEdge V} :
    e ∈ collectEdgeToRemove ir disjoint dfr edges dependency ↔
      e ∈ edges ∨ (e = dependency ∧ IsDisproved ir disjoint dfr e) := by
  have hkeep : ¬ IsDisproved ir disjoint dfr dependency →
      (e ∈ edges ↔ e ∈ edges ∨ (e = dependency ∧ IsDisproved ir disjoint dfr e)) := fun hnot =>
    ⟨.inl, fun h => h.elim id fun ⟨heq, hdis⟩ => absurd (heq ▸ hdis) hnot⟩
  unfold collectEdgeToRemove
  cases hkind : dependency.kind.isMemory with
  | false => exact hkeep fun h => absurd h.1 (by simp [hkind])
  | true =>
      simp only [Bool.not_true, Bool.false_eq_true, if_false]
      cases hsrc : ir.asInstruction dependency.getSrc with
      | none => exact hkeep fun ⟨_, _, _, hs, _⟩ => by simp [hsrc] at hs
      | some fromInst =>
          cases hdst : ir.asInstruction dependency.getDst with
          | none => exact hkeep fun ⟨_, _, _, _, hd, _⟩ => by simp [hdst] at hd
          | some toInst =>
              dsimp only
              split_ifs with hout hdisjoint
              · refine hkeep fun ⟨_, x, y, hs, hd, hnot, _⟩ => hnot ?_
                rw [mem_unique hs hsrc, mem_unique hd hdst]
                exact hout
              · rw [PtrSet.mem_insert, or_comm]
                refine or_congr Iff.rfl ⟨fun heq => ⟨heq, ?_⟩, fun h => h.1⟩
                exact heq ▸ ⟨hkind, fromInst, toInst, hsrc, hdst, hout, hdisjoint⟩
              · refine hkeep fun ⟨_, x, y, hs, hd, _, hdis⟩ => hdisjoint ?_
                rw [← mem_unique hs hsrc, ← mem_unique hd hdst]
                exact hdis

theorem mem_foldl_collectEdgeToRemove (dependencies : List (DGEdge V)) (edges : PtrSet (DGEdge V)) :
    e ∈ dependencies.foldl (collectEdgeToRemove ir disjoint dfr) edges ↔
      e ∈ edges ∨ (e ∈ dependencies ∧ IsDisproved ir disjoint dfr e) := by
  induction dependencies generalizing edges with
  | nil => simp
  | cons d dependencies ih =>
      rw [foldl_cons, ih, mem_collectEdgeToRemove, mem_cons]
      tauto

/-- Exactly the carried dependences that are disproved are removed. -/
theorem runAffineAnalysis_spec (ord : IterOrder) (ir : SSAFunction V B) (loopNode : LoopTree F B)
    (disjoint : Instruction B → Instruction B → Bool) (g : PDG V)
    (hconsumer : ∀ e ∈ g.allEdges, (g.edgeAttr e).isLoopCarried = true →
      ∃ i, ir.asInstruction e.getDst = some i) :
    ∃ N, ∀ fuel ≥ N, ∃ dfr g',
      computeReachabilityFromInstructions ir.cfg loopNode.getLoop fuel = some dfr ∧
      runAffineAnalysis ord ir loopNode disjoint g fuel = some g' ∧
      (∀ i, ir.cfg.Contains i → ∀ j, j ∈ dfr.outs i ↔
        TransGen (Propagates ir.cfg loopNode.getLoop) i j) ∧
      ∀ e, e ∈ g'.allEdges ↔ e ∈ g.allEdges ∧
        ¬ (LoopCarriedDependencies.IsCarriedBy ir loopNode.getLoop loopNode g e ∧
          IsDisproved ir disjoint dfr e) := by
  obtain ⟨N, hN⟩ := computeReachabilityFromInstructions_spec ir.cfg loopNode.getLoop
  obtain ⟨LCEdges, hcarried, hmem⟩ :=
    LoopCarriedDependencies.getLoopCarriedDependenciesForLoopInPDG_spec ord loopNode.getLoop loopNode
      hconsumer
  refine ⟨N, fun fuel hfuel => ?_⟩
  obtain ⟨dfr, hdfr, houts⟩ := hN fuel hfuel
  have hrun : runAffineAnalysis ord ir loopNode disjoint g fuel =
      some ((ord.visit ((ord.visit LCEdges.elems).foldl (collectEdgeToRemove ir disjoint dfr)
        ∅).elems).foldl dropEdge g) := by
    simp only [runAffineAnalysis, hdfr, hcarried, Option.bind_eq_bind, Option.bind_some,
      Option.pure_def]
  refine ⟨dfr, _, hdfr, hrun, houts, fun e => ?_⟩
  · rw [mem_foldl_dropEdge, ord.mem_visit, PtrSet.mem_elems, mem_foldl_collectEdgeToRemove,
      ord.mem_visit, PtrSet.mem_elems, hmem]
    simp

/-! ## Dependences within an iteration -/

/-- A removed dependence does not lead along a path of one iteration. -/
def KeepsIterationDependences (ir : SSAFunction V B) (l : LoopStructure F B) (g g' : PDG V) : Prop :=
  ∀ e ∈ g.allEdges, e ∉ g'.allEdges → ∀ fromInst toInst, ir.asInstruction e.getSrc = some fromInst →
    ir.asInstruction e.getDst = some toInst →
      ¬ ReachableInIteration ir.cfg ir.entry l fromInst toInst

/-- `OUT` holds what an iteration reaches. -/
def ReachesIteration (f : CFG B) (entry : B) (l : LoopStructure F B)
    (dfr : DataFlowResult B (Instruction B)) : Prop :=
  ∀ i j, f.Contains i → i.parent ∈ l.bbs → f.Contains j → j.parent ∈ l.bbs →
    ReachableInIteration f entry l i j → j ∈ dfr.outs i

/-- No disproved dependence goes from inside the header to an instruction behind it. -/
def SparesHeader (ir : SSAFunction V B) (loopNode : LoopTree F B)
    (disjoint : Instruction B → Instruction B → Bool) (g : PDG V) : Prop :=
  ∀ e, LoopCarriedDependencies.IsCarriedBy ir loopNode.getLoop loopNode g e →
    e.kind.isMemory = true → ∀ fromInst toInst, ir.asInstruction e.getSrc = some fromInst →
    ir.asInstruction e.getDst = some toInst → disjoint fromInst toInst = true →
    IsInsideHeader ir.cfg loopNode.getLoop fromInst →
    toInst.parent = loopNode.getLoop.header ∧ toInst.index ≤ fromInst.index

omit [DecidableEq V] in
theorem carriedInto_mem {S : Type} {g : DG V S}
    (h : LoopCarriedDependencies.IsCarriedBy ir loopNode.getLoop loopNode g e)
    (hj : ir.asInstruction e.getDst = some j) : j.parent ∈ loopNode.getLoop.bbs := by
  obtain ⟨-, -, consumerI, hconsumerI, hin⟩ := h
  obtain rfl := mem_unique hconsumerI hj
  obtain ⟨l, hl, -⟩ := map_eq_some_iff.mp hin
  exact decide_eq_true_eq.mp (LoopTree.isIncluded_of_getInnermost hl)

/-- The dependences within an iteration survive if and only if the header is spared, and `OUT`
is complete if and only if the header is its terminator. -/
theorem runAffineAnalysis_keeps_iff (ord : IterOrder) (ir : SSAFunction V B)
    (loopNode : LoopTree F B) (disjoint : Instruction B → Instruction B → Bool) (g : PDG V)
    (hloop : IsNaturalLoop ir.cfg ir.entry loopNode.getLoop)
    (hconsumer : ∀ e ∈ g.allEdges, (g.edgeAttr e).isLoopCarried = true →
      ∃ i, ir.asInstruction e.getDst = some i) :
    ∃ N, ∀ fuel ≥ N, ∃ dfr g',
      computeReachabilityFromInstructions ir.cfg loopNode.getLoop fuel = some dfr ∧
      runAffineAnalysis ord ir loopNode disjoint g fuel = some g' ∧
      (KeepsIterationDependences ir loopNode.getLoop g g' ↔ SparesHeader ir loopNode disjoint g) ∧
      (ReachesIteration ir.cfg ir.entry loopNode.getLoop dfr ↔
        ir.cfg.size loopNode.getLoop.header = 1) := by
  obtain ⟨N, hN⟩ := runAffineAnalysis_spec ord ir loopNode disjoint g hconsumer
  refine ⟨N, fun fuel hfuel => ?_⟩
  obtain ⟨dfr, g', hdfr, hg', houts, hedges⟩ := hN fuel hfuel
  refine ⟨dfr, g', hdfr, hg', ⟨fun hkeeps => ?_, fun hspares => ?_⟩, fun hreaches => ?_,
    fun hsize => ?_⟩
  · intro e hcarried hmemory fromInst toInst hsrc hdst hdisjoint hinside
    by_contra hbehind
    have hcontains := ir.contains _ _ hsrc
    have hnot : toInst ∉ dfr.outs fromInst := fun hout =>
      hinside.not_propagates ((houts _ hcontains _).mp hout)
    have hremoved : e ∉ g'.allEdges := fun hmem => ((hedges e).mp hmem).2
      ⟨hcarried, hmemory, fromInst, toInst, hsrc, hdst, hnot, hdisjoint⟩
    have hreach : ReachableInIteration ir.cfg ir.entry loopNode.getLoop fromInst toInst :=
      reachableInIteration_of_header hloop hcontains hinside.1 (ir.contains _ _ hdst)
        (carriedInto_mem hcarried hdst) fun hheader => not_le.mp fun hle => hbehind ⟨hheader, hle⟩
    exact hkeeps e hcarried.1 hremoved fromInst toInst hsrc hdst hreach
  · intro e he hremoved fromInst toInst hsrc hdst hreach
    have hdropped := not_not.mp fun hnot => hremoved ((hedges e).mpr ⟨he, hnot⟩)
    obtain ⟨hcarried, hmemory, x, y, hx, hy, hout, hdisjoint⟩ := hdropped
    obtain rfl := mem_unique hx hsrc
    obtain rfl := mem_unique hy hdst
    have hinside : IsInsideHeader ir.cfg loopNode.getLoop x := not_not.mp fun hnot =>
      hout ((houts x (ir.contains _ _ hsrc) y).mpr (hreach.propagates hloop hnot))
    obtain ⟨hheader, hle⟩ := hspares e hcarried hmemory x y hsrc hdst hdisjoint hinside
    exact absurd (hreach.after hloop hheader) (not_lt.mpr hle)
  · -- the second instruction of a longer header is not in `OUT` of the first
    have hmem := hloop.header_mem
    have hblock := CFG.mem_blocks_of_reach ir.entry_mem ((hloop.mem_iff _).mp hmem).1
    by_contra hne
    have hpos := ir.cfg.size_pos _ hblock
    have hlt : 1 < ir.cfg.size loopNode.getLoop.header := by omega
    have hfirst := CFG.contains_begin hblock
    have hsecond : ir.cfg.Contains ⟨loopNode.getLoop.header, 1⟩ := ⟨hblock, hlt⟩
    have hreach : ReachableInIteration ir.cfg ir.entry loopNode.getLoop _ _ :=
      reachableInIteration_of_header hloop hfirst rfl hsecond hmem fun _ => one_pos
    have hinside : IsInsideHeader ir.cfg loopNode.getLoop (CFG.begin loopNode.getLoop.header) := by
      refine ⟨rfl, fun heq => ?_⟩
      have hindex : 0 = ir.cfg.size loopNode.getLoop.header - 1 := congrArg Instruction.index heq
      omega
    exact hinside.not_propagates ((houts _ hfirst _).mp (hreaches _ _ hfirst hmem hsecond hmem hreach))
  · intro i j hi _ _ _ hreach
    refine (houts i hi j).mpr (hreach.propagates hloop fun hinside => hinside.2 ?_)
    obtain ⟨hheader, -⟩ := hinside
    have hindex : i.index < 1 := by
      rw [← hsize, ← hheader]
      exact hi.2
    have hlast : i.index = ir.cfg.size loopNode.getLoop.header - 1 := by omega
    exact congrArg₂ Instruction.mk hheader hlast

/-! ## A loop whose header stores and loads -/

/-- `0 → 1`, `1 → 1` and `1 → 2`. -/
def storeLoadCFG : CFG (Fin 3) where
  blocks := [0, 1, 2]
  size := ![1, 7, 1]
  successors := ![[1], [1, 2], []]
  predecessors := ![[], [0, 1], [1]]
  size_pos := by decide
  successors_mem := CFG.selfLoop_successors_mem
  predecessors_mem := CFG.selfLoop_predecessors_mem
  mem_predecessors := CFG.selfLoop_mem_predecessors

/-- The values `0` to `6` are the instructions of the block `1`, the others are arguments. -/
def storeLoadInstruction (v : Fin 9) : Option (Instruction (Fin 3)) :=
  if v.val < 7 then some ⟨1, v.val⟩ else none

/-- The block `1` is `%0 = phi [%8, 0], [%4, 1]`, `%1 = gep %7, %0`, `%2 = store %1`,
`%3 = load %1`, `%4 = add %0`, `%5 = cmp %4` and the branch `%6`. -/
def storeLoadFunction : SSAFunction (Fin 9) (Fin 3) where
  cfg := storeLoadCFG
  entry := 0
  entry_mem := by decide
  asInstruction := storeLoadInstruction
  isPHINode v := decide (v = 0)
  incomingValues v := if v = 0 then [(0, 8), (1, 4)] else []
  getPointerOperand v := if v = 2 ∨ v = 3 then some 1 else none
  contains := (by decide : ∀ v, ∀ i ∈ storeLoadInstruction v,
    i.parent ∈ storeLoadCFG.blocks ∧ i.index < storeLoadCFG.size i.parent)
  asInstruction_inj := (by decide : ∀ v w, ∀ i ∈ storeLoadInstruction v,
    i ∈ storeLoadInstruction w → v = w)
  phis_first v w i j hi hj :=
    (by decide : ∀ v w, ∀ i ∈ storeLoadInstruction v, ∀ j ∈ storeLoadInstruction w,
      decide (v = 0) = true → j.parent = i.parent → j.index ≤ i.index →
        decide (w = 0) = true) v w i hi j hj
  phi_not_terminator := (by decide : ∀ v, ∀ i ∈ storeLoadInstruction v,
    decide (v = 0) = true → i ≠ storeLoadCFG.getTerminator i.parent)

def storeLoadDisjoint (i j : Instruction (Fin 3)) : Bool :=
  decide ((i = ⟨1, 2⟩ ∨ i = ⟨1, 3⟩) ∧ (j = ⟨1, 2⟩ ∨ j = ⟨1, 3⟩))

/-- The dependence of the load on the store. -/
def storeLoadEdge : DGEdge (Fin 9) where
  owner := 0
  addr := 0
  srcNode := ⟨0, 0, 2⟩
  dstNode := ⟨0, 1, 3⟩
  kind := .mustMemoryDependence
  dataDepType := some .raw

def storeLoadGraph : PDG (Fin 9) :=
  let g : PDG (Fin 9) := ((DG.empty 0).addNode 2 true).2
  let g := (g.addNode 3 true).2
  (g.insertEdge ⟨0, 0, 2⟩ ⟨0, 1, 3⟩ .mustMemoryDependence (some .raw) { isLoopCarried := true }).2

theorem storeLoadLoop_isNatural : IsNaturalLoop storeLoadFunction.cfg storeLoadFunction.entry
    LoopCarriedDependencies.swapLoop.getLoop :=
  ⟨LoopCarriedDependencies.swapLoop_isNatural.loop.header_mem,
    LoopCarriedDependencies.swapLoop_isNatural.loop.mem_iff⟩

theorem storeLoadGraph_consumer : ∀ e ∈ storeLoadGraph.allEdges,
    (storeLoadGraph.edgeAttr e).isLoopCarried = true →
      ∃ i, storeLoadFunction.asInstruction e.getDst = some i := by
  intro e he _
  obtain rfl : e = storeLoadEdge := mem_singleton.mp he
  exact ⟨_, rfl⟩

/-- The load reads what the store of the same iteration wrote; their dependence is loop-carried
for the analysis, and it is removed. -/
theorem storeLoadEdge_removed :
    IsNaturalLoop storeLoadFunction.cfg storeLoadFunction.entry
      LoopCarriedDependencies.swapLoop.getLoop ∧
    LoopCarriedDependencies.isALoopCarriedDependence storeLoadFunction
      LoopCarriedDependencies.swapLoop LoopCarriedDependencies.swapDominators storeLoadEdge 4 =
        some true ∧
    ∃ dfr g', computeReachabilityFromInstructions storeLoadFunction.cfg
        LoopCarriedDependencies.swapLoop.getLoop 20 = some dfr ∧
      runAffineAnalysis .stored storeLoadFunction LoopCarriedDependencies.swapLoop storeLoadDisjoint
        storeLoadGraph 20 = some g' ∧
      ¬ KeepsIterationDependences storeLoadFunction LoopCarriedDependencies.swapLoop.getLoop
        storeLoadGraph g' ∧
      ¬ ReachesIteration storeLoadFunction.cfg storeLoadFunction.entry
        LoopCarriedDependencies.swapLoop.getLoop dfr := by
  have hreach : ReachableInIteration storeLoadFunction.cfg storeLoadFunction.entry
      LoopCarriedDependencies.swapLoop.getLoop ⟨1, 2⟩ ⟨1, 3⟩ :=
    .single ⟨⟨⟨by decide, by decide⟩, .inl ⟨by decide, rfl⟩⟩, by decide, by decide,
      fun h => absurd h.1 (by decide)⟩
  have hdfr : (computeReachabilityFromInstructions storeLoadFunction.cfg
      LoopCarriedDependencies.swapLoop.getLoop 20).map
        (fun dfr => decide (⟨1, 3⟩ ∈ dfr.outs ⟨1, 2⟩)) = some false := by decide +kernel
  have hrun : (runAffineAnalysis .stored storeLoadFunction LoopCarriedDependencies.swapLoop
      storeLoadDisjoint storeLoadGraph 20).map
        (fun g' => decide (storeLoadEdge ∈ g'.allEdges)) = some false := by decide +kernel
  obtain ⟨dfr, hdfr, hout⟩ := map_eq_some_iff.mp hdfr
  obtain ⟨g', hg', hremoved⟩ := map_eq_some_iff.mp hrun
  refine ⟨storeLoadLoop_isNatural, by decide, dfr, g', hdfr, hg', fun hkeeps => ?_,
    fun hreaches => ?_⟩
  · exact hkeeps storeLoadEdge (mem_singleton.mpr rfl) (of_decide_eq_false hremoved) ⟨1, 2⟩
      ⟨1, 3⟩ rfl rfl hreach
  · exact of_decide_eq_false hout (hreaches ⟨1, 2⟩ ⟨1, 3⟩ ⟨by decide, by decide⟩ (by decide)
      ⟨by decide, by decide⟩ (by decide) hreach)

/-- The header is not spared. -/
theorem storeLoadGraph_keeps_iff :
    (IsNaturalLoop storeLoadFunction.cfg storeLoadFunction.entry
      LoopCarriedDependencies.swapLoop.getLoop) ∧
    ∃ N, ∀ fuel ≥ N, ∃ dfr g',
      computeReachabilityFromInstructions storeLoadFunction.cfg
        LoopCarriedDependencies.swapLoop.getLoop fuel = some dfr ∧
      runAffineAnalysis .stored storeLoadFunction LoopCarriedDependencies.swapLoop storeLoadDisjoint
        storeLoadGraph fuel = some g' ∧
      (KeepsIterationDependences storeLoadFunction LoopCarriedDependencies.swapLoop.getLoop
          storeLoadGraph g' ↔
        SparesHeader storeLoadFunction LoopCarriedDependencies.swapLoop storeLoadDisjoint
          storeLoadGraph) ∧
      (ReachesIteration storeLoadFunction.cfg storeLoadFunction.entry
          LoopCarriedDependencies.swapLoop.getLoop dfr ↔
        storeLoadFunction.cfg.size LoopCarriedDependencies.swapLoop.getLoop.header = 1) :=
  ⟨storeLoadLoop_isNatural, runAffineAnalysis_keeps_iff .stored storeLoadFunction
    LoopCarriedDependencies.swapLoop storeLoadDisjoint storeLoadGraph storeLoadLoop_isNatural
    storeLoadGraph_consumer⟩

end LDGGenerator

end Noelle
