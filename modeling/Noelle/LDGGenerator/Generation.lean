import Noelle.LoopCarriedDependencies.HeaderPhis
import Noelle.PDG.Subgraph

/-!
# LDGGenerator.Generation

The dependence graph of a loop: `LDGGenerator::generateLoopDependenceGraph`, without the
loop-centric analyses.

The graph is copied from the one of the function.  If PRVGs are non-deterministic, dependences
between calls are removed: those with a call to `rand`, and also those between a call whose callee
is unknown and a call to any function (`generateLoopDependenceGraph_keeps_iff`).
-/

namespace Noelle

open List

namespace LoopCarriedDependencies

variable {F V B S : Type} [DecidableEq V] [DecidableEq B]

def setLoopCarriedDependencies (ord : IterOrder) (ir : SSAFunction V B) (loopNode : LoopTree F B)
    (DS : DominatorForest B) (fuel : Nat) (dgForLoops : DG V S) : Option (DG V S) := do
  guard (dgForLoops.allEdges.elems.all fun edge => !(dgForLoops.edgeAttr edge).isLoopCarried)
  (ord.visit dgForLoops.allEdges.elems).foldlM (fun dg edge => do
    let loop ← isALoopCarriedDependence ir loopNode DS edge fuel
    return if loop then dg.setLoopCarried edge true else dg) dgForLoops

end LoopCarriedDependencies

namespace LDGGenerator

variable {F V B : Type} [DecidableEq V] [DecidableEq B]

/-! ## Generation -/

section

variable (ord : IterOrder) (subLC : DGEdge V → Bool)
  (getCalledFunction : V → Option (Option String))

/-- The tests of the loop that fills `toDelete`.  A value that is not a call has no answer, and the
callee of a call can be unknown. -/
def isPRVGDependence (kind : DependenceKind) (vo vi : V) : Bool :=
  if !kind.isMemory then false
  else
    match getCalledFunction vo, getCalledFunction vi with
    | some voCallee, some viCallee =>
        if viCallee.isNone && voCallee.isNone then false
        else if voCallee.any (· ≠ "rand") && viCallee.any (· ≠ "rand") then false
        else true
    | _, _ => false

/-- The removal of dependences thanks to the compilation options. -/
def removePRVGDependences (loopDG : PDG V) : PDG V :=
  let toDelete := loopDG.allEdges.filter fun edge =>
    isPRVGDependence getCalledFunction edge.kind edge.getSrc edge.getDst
  (ord.visit toDelete.elems).foldl DG.removeEdge loopDG

/-- The graph that `computeSCCDAGWithOnlyVariableAndControlDependences` builds. -/
def withoutMemoryDeps (self : Nat) (loopDG : PDG V) : Option (Option (PDG V)) :=
  let loopInternals := (ord.visit loopDG.internalNodeMap.entries).map (·.1)
  let memDeps := loopDG.allEdges.filter (·.kind.isMemory)
  PDG.createSubgraphFromValues ord subLC loopDG self loopInternals false memDeps

/-- `generateLoopDependenceGraph`; the other two graphs only serve to find the induction variables. -/
def generateLoopDependenceGraph (ir : SSAFunction V B) (loopNode : LoopTree F B)
    (DS : DominatorForest B) (fuel : Nat) (arePRVGsNonDeterministic : Bool)
    (self selfInternal selfWithoutMemory : Nat) (functionDG : PDG V) (l : Loop V) :
    Option (PDG V) := do
  guard (functionDG.allEdges.elems.all fun edge => !(functionDG.edgeAttr edge).isLoopCarried)
  let loopDG ← PDG.createLoopsSubgraph ord subLC functionDG self l
  guard (loopDG.allEdges.elems.all fun edge => !(loopDG.edgeAttr edge).isLoopCarried)
  let loopDG :=
    if arePRVGsNonDeterministic then removePRVGDependences ord getCalledFunction loopDG else loopDG
  let loopInternals := (ord.visit loopDG.internalNodeMap.entries).map (·.1)
  let loopInternalDG ← PDG.createSubgraphFromValues ord subLC loopDG selfInternal loopInternals false ∅
  let loopInternalDG ← loopInternalDG
  let _ ← withoutMemoryDeps ord subLC selfWithoutMemory loopInternalDG
  LoopCarriedDependencies.setLoopCarriedDependencies ord ir loopNode DS fuel loopDG

end

/-! ## What the graph is to keep -/

def Touches (l : Loop V) (edge : DGEdge V) : Prop :=
  edge.getSrc ∈ l.blocks.flatten ∨ edge.getDst ∈ l.blocks.flatten

instance (l : Loop V) : DecidablePred (Touches l) := fun edge => by
  unfold Touches
  infer_instance

/-- A memory dependence between two calls, at least one of which is a direct call to `rand`. -/
def IsRandDependence (getCalledFunction : V → Option (Option String)) (edge : DGEdge V) : Prop :=
  edge.kind.isMemory = true ∧ (getCalledFunction edge.getSrc).isSome = true ∧
    (getCalledFunction edge.getDst).isSome = true ∧
    (getCalledFunction edge.getSrc = some (some "rand") ∨
      getCalledFunction edge.getDst = some (some "rand"))

instance (getCalledFunction : V → Option (Option String)) :
    DecidablePred (IsRandDependence getCalledFunction) := fun edge => by
  unfold IsRandDependence
  infer_instance

/-- A memory dependence between a call whose callee is unknown and a direct call to another function
than `rand`. -/
def IsMixedDependence (getCalledFunction : V → Option (Option String)) (edge : DGEdge V) : Prop :=
  edge.kind.isMemory = true ∧ ∃ name, name ≠ "rand" ∧
    ((getCalledFunction edge.getSrc = some none ∧ getCalledFunction edge.getDst = some (some name)) ∨
      (getCalledFunction edge.getSrc = some (some name) ∧ getCalledFunction edge.getDst = some none))

/-- What an edge says, but for the loop-carried flag. -/
def flagless {S : Type} (c : Dep V × Multiset S) : Dep V × Multiset S :=
  ({ c.1 with isLoopCarried := false }, c.2)

/-- The dependences of the function that the graph of a loop is to have. -/
def keptEdges (getCalledFunction : V → Option (Option String)) (arePRVGsNonDeterministic : Bool)
    (functionDG : PDG V) (l : Loop V) : List (DGEdge V) :=
  functionDG.allEdges.elems.filter fun edge =>
    Touches l edge ∧ ¬ (arePRVGsNonDeterministic = true ∧ IsRandDependence getCalledFunction edge)

/-- The loop dependence graph: the instructions of the loop, the other ends of the dependences that
touch it, and copies of these dependences. -/
structure KeepsDependences (getCalledFunction : V → Option (Option String))
    (arePRVGsNonDeterministic : Bool) (functionDG : PDG V) (l : Loop V) (loopDG : PDG V) :
    Prop where
  clean : loopDG.Clean
  isInternal_iff : ∀ v, loopDG.isInternal v = true ↔ v ∈ l.blocks.flatten
  isExternal_iff : ∀ v, loopDG.isExternal v = true ↔
    v ∉ l.blocks.flatten ∧ ∃ edge ∈ functionDG.allEdges, Touches l edge ∧
      (edge.getSrc = v ∨ edge.getDst = v)
  contents_eq : loopDG.contents.map flagless =
    (keptEdges getCalledFunction arePRVGsNonDeterministic functionDG l : Multiset (DGEdge V)).map
      fun edge => flagless (functionDG.edgeContents edge)

/-- What the generator asserts: no flag is set, the dependences that touch the loop have a kind, and the
analysis can decide which of them the loop carries. -/
structure Checked (subLC : DGEdge V → Bool) (ir : SSAFunction V B) (loopNode : LoopTree F B)
    (DS : DominatorForest B) (fuel : Nat) (functionDG : PDG V) (l : Loop V) : Prop where
  no_flag : ∀ edge ∈ functionDG.allEdges, (functionDG.edgeAttr edge).isLoopCarried = false
  no_subEdge_flag : ∀ edge ∈ functionDG.allEdges, Touches l edge →
    ∀ subEdge ∈ (functionDG.edgeAttr edge).getSubEdges, subLC subEdge = false
  has_kind : ∀ edge ∈ functionDG.allEdges, Touches l edge → edge.kind ≠ .undefinedDependence
  is_decided : ∀ edge ∈ functionDG.allEdges, Touches l edge → ∃ isCarried,
    LoopCarriedDependencies.isALoopCarriedDependence ir loopNode DS edge fuel = some isCarried

/-! ## The steps -/

section Steps

variable {ord : IterOrder} {subLC : DGEdge V → Bool} {functionDG g g' : PDG V} {l : Loop V}
  {getCalledFunction : V → Option (Option String)}
variable {edge : DGEdge V}

omit [DecidableEq V] in
theorem mem_contents (h : edge ∈ g.allEdges) : g.edgeContents edge ∈ g.contents :=
  Multiset.mem_map_of_mem _ (Multiset.mem_coe.mpr h)

theorem exists_of_extracted {values : List V} {edges : List (DGEdge V)}
    (h : PDG.Extracted values edges ((edges : Multiset (DGEdge V)).map (functionDG.copyContents subLC)) g)
    (hedge : edge ∈ g.allEdges) :
    ∃ old ∈ edges, functionDG.copyContents subLC old = g.edgeContents edge := by
  have hmem := mem_contents hedge
  rw [h.contents_eq] at hmem
  obtain ⟨old, hold, heq⟩ := Multiset.mem_map.mp hmem
  exact ⟨old, Multiset.mem_coe.mp hold, heq⟩

omit [DecidableEq V] in
theorem selects_iff :
    PDG.Selects l.blocks.flatten true ∅ edge ↔ Touches l edge := by
  simp [PDG.Selects, Touches]

theorem mem_selected_iff :
    edge ∈ PDG.selected functionDG l.blocks.flatten true ∅ ↔
      edge ∈ functionDG.allEdges ∧ Touches l edge := by
  rw [PDG.mem_selected, selects_iff]

/-- The graph of a loop holds the dependences that touch it. -/
theorem createLoopsSubgraph_spec (ord : IterOrder) (subLC : DGEdge V → Bool) (functionDG : PDG V)
    (self : Nat) (l : Loop V)
    (hkind : ∀ edge ∈ functionDG.allEdges, Touches l edge → edge.kind ≠ .undefinedDependence) :
    ∃ loopDG, PDG.createLoopsSubgraph ord subLC functionDG self l = some loopDG ∧
      PDG.Extracted l.blocks.flatten (PDG.selected functionDG l.blocks.flatten true ∅)
        ((PDG.selected functionDG l.blocks.flatten true ∅ : Multiset (DGEdge V)).map
          (functionDG.copyContents subLC)) loopDG := by
  have hne : l.blocks.flatten ≠ [] := by
    obtain ⟨bb, blocks, hblocks⟩ := exists_cons_of_ne_nil l.blocks_ne_nil
    have hbb := l.block_ne_nil bb (hblocks ▸ (.head _))
    rw [hblocks, flatten_cons]
    exact append_ne_nil_of_left_ne_nil hbb _
  obtain ⟨loopDG, hloopDG, h⟩ := (PDG.createSubgraphFromValues_spec ord subLC functionDG self true ∅ hne
    l.nodup).2 fun edge hedge =>
      hkind edge (mem_selected_iff.mp hedge).1 (mem_selected_iff.mp hedge).2
  rw [← PDG.createLoopsSubgraph_eq, Option.map_eq_some_iff] at hloopDG
  obtain ⟨copy, hcopy, heq⟩ := hloopDG
  obtain rfl := Option.some.inj heq
  exact ⟨copy, hcopy, h⟩

/-- Exactly the dependences with a generator are removed. -/
theorem removePRVGDependences_spec (ord : IterOrder)
    (getCalledFunction : V → Option (Option String)) (h : g.Clean) :
    let g' := removePRVGDependences ord getCalledFunction g
    g'.Clean ∧ (∀ v, g'.isInternal v = g.isInternal v) ∧ (∀ v, g'.isExternal v = g.isExternal v) ∧
      g'.contents = g.contents.filter fun c =>
        isPRVGDependence getCalledFunction c.1.kind c.1.src c.1.dst = false := by
  set toDelete := g.allEdges.filter fun edge =>
    isPRVGDependence getCalledFunction edge.kind edge.getSrc edge.getDst with htoDelete
  have hmem : ∀ edge, edge ∈ ord.visit toDelete.elems ↔ edge ∈ g.allEdges ∧
      isPRVGDependence getCalledFunction edge.kind edge.getSrc edge.getDst = true := fun edge => by
    rw [ord.mem_visit, PtrSet.mem_elems, htoDelete, PtrSet.mem_filter]
  obtain ⟨hclean, hedges, hattr, hin, hex⟩ := DG.Clean.foldl_removeEdge (ord.visit toDelete.elems) h
    (ord.nodup_visit toDelete.nodup) fun edge hedge => ((hmem edge).mp hedge).1
  refine ⟨hclean, fun v => congrArg (fun m => (m.lookup v).isSome) hin,
    fun v => congrArg (fun m => (m.lookup v).isSome) hex, ?_⟩
  have hperm : (removePRVGDependences ord getCalledFunction g).allEdges.elems.Perm
      (g.allEdges.elems.filter fun edge =>
        isPRVGDependence getCalledFunction edge.kind edge.getSrc edge.getDst = false) := by
    refine (perm_ext_iff_of_nodup (PtrSet.nodup _) (g.allEdges.nodup.filter _)).mpr fun edge => ?_
    refine (hedges edge).trans ?_
    rw [hmem, mem_filter, PtrSet.mem_elems, decide_eq_true_eq, not_and, Bool.not_eq_true]
    exact and_congr_right fun hedge => ⟨fun hno => hno hedge, fun hno _ => hno⟩
  have hcontents : (removePRVGDependences ord getCalledFunction g).edgeContents = g.edgeContents := by
    funext edge
    have hattr : (removePRVGDependences ord getCalledFunction g).edgeAttr = g.edgeAttr := hattr
    rw [DG.edgeContents, DG.edgeContents, hattr]
  rw [DG.contents, DG.contents, hcontents, Multiset.coe_eq_coe.mpr hperm, Multiset.filter_map,
    ← Multiset.filter_coe]
  rfl

theorem exists_internalSubgraph (ord : IterOrder) (subLC : DGEdge V → Bool) (self : Nat)
    (edgesToIgnore : PtrSet (DGEdge V)) (hne : ∃ v, g.isInternal v = true)
    (hkind : ∀ edge ∈ g.allEdges, edge.kind ≠ .undefinedDependence) :
    ∃ g', PDG.createSubgraphFromValues ord subLC g self
        ((ord.visit g.internalNodeMap.entries).map (·.1)) false edgesToIgnore = some (some g') ∧
      (∃ v, g'.isInternal v = true) ∧
      ∀ edge ∈ g'.allEdges, edge.kind ≠ .undefinedDependence := by
  obtain ⟨v, hv⟩ := hne
  have hmem : v ∈ (ord.visit g.internalNodeMap.entries).map (·.1) :=
    (PDG.mem_visit_keys ord g.internalNodeMap v).mpr hv
  have hnodup : ((ord.visit g.internalNodeMap.entries).map (·.1)).Nodup :=
    (((ord.visit_perm _).map _).nodup_iff).mpr g.internalNodeMap.nodupKeys
  obtain ⟨g', hg', h⟩ := (PDG.createSubgraphFromValues_spec ord subLC g self false edgesToIgnore
    (ne_nil_of_mem hmem) hnodup).2 fun edge hedge => hkind edge (PDG.mem_selected.mp hedge).1
  refine ⟨g', hg', ⟨v, (h.isInternal_iff v).mpr hmem⟩, fun edge hedge => ?_⟩
  obtain ⟨old, hold, heq⟩ := exists_of_extracted h hedge
  rw [← show old.kind = edge.kind from congrArg (fun c => c.1.kind) heq]
  exact hkind old (PDG.mem_selected.mp hold).1

variable {ir : SSAFunction V B} {loopNode : LoopTree F B} {DS : DominatorForest B} {fuel : Nat}

theorem isALoopCarriedDependence_congr {edge edge' : DGEdge V} (hkind : edge.kind = edge'.kind)
    (hsrc : edge.getSrc = edge'.getSrc) (hdst : edge.getDst = edge'.getDst) :
    LoopCarriedDependencies.isALoopCarriedDependence ir loopNode DS edge fuel =
      LoopCarriedDependencies.isALoopCarriedDependence ir loopNode DS edge' fuel := by
  simp only [LoopCarriedDependencies.isALoopCarriedDependence, hkind, hsrc, hdst]

omit [DecidableEq B] in
theorem flagless_edgeContents_setLoopCarried (g : PDG V) (edge x : DGEdge V) (isLoopCarried : Bool) :
    flagless ((g.setLoopCarried edge isLoopCarried).edgeContents x) = flagless (g.edgeContents x) := by
  by_cases hx : x = edge
  · subst hx
    simp [flagless, DG.edgeContents, DGEdge.dep, DG.setLoopCarried, EdgeAttr.getSubEdges]
  · simp [flagless, DG.edgeContents, DGEdge.dep, DG.setLoopCarried, hx]

/-- Every edge gets the flag that the test answers. -/
theorem setLoopCarriedDependencies_spec (ir : SSAFunction V B) (loopNode : LoopTree F B)
    (DS : DominatorForest B) (fuel : Nat) (ord : IterOrder) (h : g.Clean)
    (hguard : (g.allEdges.elems.all fun edge => !(g.edgeAttr edge).isLoopCarried) = true)
    (hdecided : ∀ edge ∈ g.allEdges, ∃ isCarried,
      LoopCarriedDependencies.isALoopCarriedDependence ir loopNode DS edge fuel = some isCarried) :
    ∃ g', LoopCarriedDependencies.setLoopCarriedDependencies ord ir loopNode DS fuel g = some g' ∧
      g'.Clean ∧ (∀ v, g'.isInternal v = g.isInternal v) ∧ (∀ v, g'.isExternal v = g.isExternal v) ∧
      g'.contents.map flagless = g.contents.map flagless := by
  obtain ⟨g', hg', hclean, hedges, hin, hex, hcontents⟩ := foldlM_rule
    (fun dg edge => do
      let loop ← LoopCarriedDependencies.isALoopCarriedDependence ir loopNode DS edge fuel
      return if loop then dg.setLoopCarried edge true else dg)
    (fun (_ : List (DGEdge V)) (g' : PDG V) => g'.Clean ∧ g'.allEdges = g.allEdges ∧
      (∀ v, g'.isInternal v = g.isInternal v) ∧ (∀ v, g'.isExternal v = g.isExternal v) ∧
      ∀ x, flagless (g'.edgeContents x) = flagless (g.edgeContents x))
    (l := ord.visit g.allEdges.elems) (s := g) ⟨h, rfl, fun _ => rfl, fun _ => rfl, fun _ => rfl⟩ (by
      rintro pre edge post s hsplit ⟨hclean, hedges, hin, hex, hcontents⟩
      have hedge : edge ∈ g.allEdges :=
        ord.mem_visit.mp (hsplit ▸ mem_append_right _ (.head _))
      obtain ⟨isCarried, hcarried⟩ := hdecided edge hedge
      refine ⟨_, Option.bind_eq_some_iff.mpr ⟨isCarried, hcarried, rfl⟩, ?_⟩
      cases isCarried with
      | false => exact ⟨hclean, hedges, hin, hex, hcontents⟩
      | true =>
          exact ⟨hclean.setEdgeAttr _, hedges, hin, hex, fun x =>
            (flagless_edgeContents_setLoopCarried s edge x true).trans (hcontents x)⟩)
  refine ⟨g', ?_, hclean, hin, hex, ?_⟩
  · rw [LoopCarriedDependencies.setLoopCarriedDependencies, hguard]
    exact hg'
  · rw [DG.contents, DG.contents, Multiset.map_map, Multiset.map_map, hedges]
    exact Multiset.map_congr rfl fun x _ => hcontents x

/-- The graph after the dependences of PRVGs were removed, or not. -/
def codeEdges (getCalledFunction : V → Option (Option String)) (arePRVGsNonDeterministic : Bool)
    (functionDG : PDG V) (l : Loop V) : List (DGEdge V) :=
  functionDG.allEdges.elems.filter fun edge => Touches l edge ∧ ¬ (arePRVGsNonDeterministic = true ∧
    isPRVGDependence getCalledFunction edge.kind edge.getSrc edge.getDst = true)

/-- Every dependence of a graph is a copy of one that touches the loop, and none is loop-carried. -/
def CopiesTouching (functionDG : PDG V) (l : Loop V) (g : PDG V) : Prop :=
  ∀ edge ∈ g.allEdges, ∃ old ∈ functionDG.allEdges, Touches l old ∧ edge.kind = old.kind ∧
    edge.getSrc = old.getSrc ∧ edge.getDst = old.getDst ∧ (g.edgeAttr edge).isLoopCarried = false

omit [DecidableEq V] in
theorem CopiesTouching.all_not_loopCarried (h : CopiesTouching functionDG l g) :
    (g.allEdges.elems.all fun edge => !(g.edgeAttr edge).isLoopCarried) = true := by
  rw [all_eq_true]
  intro edge hedge
  obtain ⟨-, -, -, -, -, -, hflag⟩ := h edge hedge
  rw [hflag]
  rfl

/-- The graph before the loop-carried dependences are marked. -/
structure Copied (subLC : DGEdge V → Bool) (getCalledFunction : V → Option (Option String))
    (arePRVGsNonDeterministic : Bool) (functionDG : PDG V) (l : Loop V) (g : PDG V) : Prop where
  clean : g.Clean
  isInternal_iff : ∀ v, g.isInternal v = true ↔ v ∈ l.blocks.flatten
  isExternal_iff : ∀ v, g.isExternal v = true ↔ v ∉ l.blocks.flatten ∧
    ∃ edge ∈ functionDG.allEdges, Touches l edge ∧ (edge.getSrc = v ∨ edge.getDst = v)
  copies : CopiesTouching functionDG l g
  contents_eq : g.contents =
    (codeEdges getCalledFunction arePRVGsNonDeterministic functionDG l : Multiset (DGEdge V)).map
      (functionDG.copyContents subLC)

theorem Checked.createLoopsSubgraph (h : Checked subLC ir loopNode DS fuel functionDG l)
    (ord : IterOrder) (getCalledFunction : V → Option (Option String)) (self : Nat) :
    ∃ loopDG, PDG.createLoopsSubgraph ord subLC functionDG self l = some loopDG ∧
      Copied subLC getCalledFunction false functionDG l loopDG := by
  obtain ⟨loopDG, hloopDG, hex⟩ := createLoopsSubgraph_spec ord subLC functionDG self l h.has_kind
  refine ⟨loopDG, hloopDG, hex.clean, hex.isInternal_iff, fun v => ?_, fun edge hedge => ?_, ?_⟩
  · rw [hex.isExternal_iff]
    simp only [mem_selected_iff, and_assoc]
  · obtain ⟨old, hmem, heq⟩ := exists_of_extracted hex hedge
    obtain ⟨hold, htouches⟩ := mem_selected_iff.mp hmem
    refine ⟨old, hold, htouches, (congrArg (fun c => c.1.kind) heq).symm,
      (congrArg (fun c => c.1.src) heq).symm, (congrArg (fun c => c.1.dst) heq).symm, ?_⟩
    refine (congrArg (fun c => c.1.isLoopCarried) heq).symm.trans ?_
    refine (EdgeAttr.isLoopCarried_copy subLC (functionDG.edgeAttr old)).trans ?_
    rw [h.no_flag old hold, Bool.false_or, any_eq_false]
    exact fun s hs => (Bool.not_eq_true _).mpr (h.no_subEdge_flag old hold htouches s hs)
  · rw [hex.contents_eq]
    refine congrArg _ (Multiset.coe_eq_coe.mpr (.of_eq (filter_congr fun edge _ => ?_)))
    simp [selects_iff]

theorem Copied.removePRVGDependences (h : Copied subLC getCalledFunction false functionDG l g)
    (ord : IterOrder) : Copied subLC getCalledFunction true functionDG l
      (removePRVGDependences ord getCalledFunction g) := by
  obtain ⟨hclean, hin, hex, hcontents⟩ := removePRVGDependences_spec ord getCalledFunction h.clean
  refine ⟨hclean, fun v => ?_, fun v => ?_, fun edge hedge => ?_, ?_⟩
  · rw [hin, h.isInternal_iff]
  · rw [hex, h.isExternal_iff]
  · have hmem := mem_contents hedge
    rw [hcontents] at hmem
    obtain ⟨edge', hedge', heq⟩ := Multiset.mem_map.mp (Multiset.mem_filter.mp hmem).1
    obtain ⟨old, hold, htouches, hkind, hsrc, hdst, hflag⟩ := h.copies edge' (Multiset.mem_coe.mp hedge')
    exact ⟨old, hold, htouches, (congrArg (fun c => c.1.kind) heq).symm.trans hkind,
      (congrArg (fun c => c.1.src) heq).symm.trans hsrc,
      (congrArg (fun c => c.1.dst) heq).symm.trans hdst,
      (congrArg (fun c => c.1.isLoopCarried) heq).symm.trans hflag⟩
  · rw [hcontents, h.contents_eq, Multiset.filter_map, Multiset.filter_coe, codeEdges, codeEdges,
      filter_filter]
    refine congrArg _ (Multiset.coe_eq_coe.mpr (.of_eq (filter_congr fun edge _ => ?_)))
    cases hp : isPRVGDependence getCalledFunction edge.kind edge.getSrc edge.getDst <;>
      simp [DG.copyContents, DGEdge.dep, hp]

theorem Copied.exists_isInternal {arePRVGsNonDeterministic : Bool}
    (h : Copied subLC getCalledFunction arePRVGsNonDeterministic functionDG l g) :
    ∃ v, g.isInternal v = true := by
  obtain ⟨bb, blocks, hblocks⟩ := exists_cons_of_ne_nil l.blocks_ne_nil
  obtain ⟨first, rest, hbb⟩ := exists_cons_of_ne_nil
    (l.block_ne_nil bb (hblocks ▸ (.head _)))
  refine ⟨first, (h.isInternal_iff first).mpr ?_⟩
  rw [hblocks, hbb, flatten_cons, cons_append]
  exact .head _

/-- The graph has the dependences of the loop, up to their flags. -/
theorem generateLoopDependenceGraph_spec (h : Checked subLC ir loopNode DS fuel functionDG l)
    (ord : IterOrder) (getCalledFunction : V → Option (Option String))
    (arePRVGsNonDeterministic : Bool) (self selfInternal selfWithoutMemory : Nat) :
    ∃ loopDG, generateLoopDependenceGraph ord subLC getCalledFunction ir loopNode DS fuel
        arePRVGsNonDeterministic self selfInternal selfWithoutMemory functionDG l = some loopDG ∧
      loopDG.Clean ∧ (∀ v, loopDG.isInternal v = true ↔ v ∈ l.blocks.flatten) ∧
      (∀ v, loopDG.isExternal v = true ↔ v ∉ l.blocks.flatten ∧ ∃ edge ∈ functionDG.allEdges,
        Touches l edge ∧ (edge.getSrc = v ∨ edge.getDst = v)) ∧
      loopDG.contents.map flagless =
        (codeEdges getCalledFunction arePRVGsNonDeterministic functionDG l :
          Multiset (DGEdge V)).map fun edge => flagless (functionDG.edgeContents edge) := by
  obtain ⟨copy, hcopy, hcopied⟩ := h.createLoopsSubgraph ord getCalledFunction self
  obtain ⟨loopDG, hloopDG, hremoved⟩ : ∃ loopDG, loopDG = (if arePRVGsNonDeterministic then
        removePRVGDependences ord getCalledFunction copy else copy) ∧
      Copied subLC getCalledFunction arePRVGsNonDeterministic functionDG l loopDG := by
    cases arePRVGsNonDeterministic with
    | false => exact ⟨_, rfl, hcopied⟩
    | true => exact ⟨_, rfl, hcopied.removePRVGDependences ord⟩
  have hkind : ∀ edge ∈ loopDG.allEdges, edge.kind ≠ .undefinedDependence := fun edge hedge => by
    obtain ⟨old, hold, htouches, hkind, -⟩ := hremoved.copies edge hedge
    exact hkind ▸ h.has_kind old hold htouches
  obtain ⟨internalDG, hinternal, hne, hkind'⟩ :=
    exists_internalSubgraph ord subLC selfInternal ∅ hremoved.exists_isInternal hkind
  obtain ⟨variableDG, hvariable, -⟩ := exists_internalSubgraph ord subLC selfWithoutMemory
    (internalDG.allEdges.filter (·.kind.isMemory)) hne hkind'
  obtain ⟨marked, hmarked, hclean, hin, hex, hcontents⟩ :=
    setLoopCarriedDependencies_spec ir loopNode DS fuel ord hremoved.clean
      hremoved.copies.all_not_loopCarried fun edge hedge => by
        obtain ⟨old, hold, htouches, hkind, hsrc, hdst, -⟩ := hremoved.copies edge hedge
        rw [isALoopCarriedDependence_congr hkind hsrc hdst]
        exact h.is_decided old hold htouches
  have hfirst : (functionDG.allEdges.elems.all fun edge =>
      !(functionDG.edgeAttr edge).isLoopCarried) = true := by
    rw [all_eq_true]
    intro edge hedge
    rw [h.no_flag edge hedge]
    rfl
  refine ⟨marked, ?_, hclean, fun v => ?_, fun v => ?_, ?_⟩
  · rw [generateLoopDependenceGraph, hfirst, hcopy]
    dsimp only [guard, Option.bind_eq_bind, Option.bind_some]
    rw [hcopied.copies.all_not_loopCarried, ← hloopDG, hinternal]
    change ((withoutMemoryDeps ord subLC selfWithoutMemory internalDG).bind fun _ =>
      LoopCarriedDependencies.setLoopCarriedDependencies ord ir loopNode DS fuel loopDG) = some marked
    rw [withoutMemoryDeps, hvariable]
    exact hmarked
  · rw [hin, hremoved.isInternal_iff]
  · rw [hex, hremoved.isExternal_iff]
  · rw [hcontents, hremoved.contents_eq, Multiset.map_map]
    rfl

end Steps

/-! ## The dependences that are lost -/

section Lost

variable {getCalledFunction : V → Option (Option String)} {functionDG : PDG V} {l : Loop V}

omit [DecidableEq V] in
/-- The test accepts the dependences of generators, and mixed ones. -/
theorem isPRVGDependence_iff {edge : DGEdge V} :
    isPRVGDependence getCalledFunction edge.kind edge.getSrc edge.getDst = true ↔
      IsRandDependence getCalledFunction edge ∨ IsMixedDependence getCalledFunction edge := by
  unfold isPRVGDependence IsRandDependence IsMixedDependence
  cases edge.kind.isMemory with
  | false => simp
  | true =>
      cases getCalledFunction edge.getSrc with
      | none => simp
      | some voCallee =>
          cases getCalledFunction edge.getDst with
          | none => simp
          | some viCallee =>
              cases voCallee with
              | none =>
                  cases viCallee with
                  | none => simp
                  | some vi => simp [em]
              | some vo =>
                  cases viCallee with
                  | none => simp [em]
                  | some vi => simp

omit [DecidableEq V] in
theorem IsMixedDependence.not_rand {edge : DGEdge V} (h : IsMixedDependence getCalledFunction edge) :
    ¬ IsRandDependence getCalledFunction edge := by
  obtain ⟨-, name, hname, ⟨hvo, hvi⟩ | ⟨hvo, hvi⟩⟩ := h
  · rintro ⟨-, -, -, hrand | hrand⟩
    · cases hvo.symm.trans hrand
    · exact hname (Option.some.inj (Option.some.inj (hvi.symm.trans hrand)))
  · rintro ⟨-, -, -, hrand | hrand⟩
    · exact hname (Option.some.inj (Option.some.inj (hvo.symm.trans hrand)))
    · cases hvi.symm.trans hrand

/-- The right edges are kept exactly if no touching dependence is mixed. -/
theorem codeEdges_correct_iff (arePRVGsNonDeterministic : Bool) :
    (codeEdges getCalledFunction arePRVGsNonDeterministic functionDG l : Multiset (DGEdge V)).map
        (fun edge => flagless (functionDG.edgeContents edge)) =
      (keptEdges getCalledFunction arePRVGsNonDeterministic functionDG l : Multiset (DGEdge V)).map
        (fun edge => flagless (functionDG.edgeContents edge)) ↔
      arePRVGsNonDeterministic = false ∨
        ∀ edge ∈ functionDG.allEdges, Touches l edge → ¬ IsMixedDependence getCalledFunction edge := by
  constructor
  · intro heq
    cases arePRVGsNonDeterministic with
    | false => exact .inl rfl
    | true =>
        refine .inr fun edge hedge htouches hmixed => ?_
        have hlength := congrArg Multiset.card heq
        rw [Multiset.card_map, Multiset.card_map, Multiset.coe_card, Multiset.coe_card] at hlength
        refine absurd hlength (Nat.ne_of_lt (length_filter_lt (fun e _ he => ?_) hedge ?_ ?_))
        · obtain ⟨he, hno⟩ := of_decide_eq_true he
          exact decide_eq_true ⟨he, fun hrand =>
            hno ⟨rfl, isPRVGDependence_iff.mpr (.inl hrand.2)⟩⟩
        · exact decide_eq_true ⟨htouches, fun hrand => hmixed.not_rand hrand.2⟩
        · exact decide_eq_false fun hno => hno.2 ⟨rfl, isPRVGDependence_iff.mpr (.inr hmixed)⟩
  · intro hcond
    refine congrArg _ (Multiset.coe_eq_coe.mpr (.of_eq (filter_congr fun edge hedge => ?_)))
    refine decide_eq_decide.mpr (and_congr_right fun htouches => not_congr (and_congr_right fun hprvg => ?_))
    rw [isPRVGDependence_iff, or_iff_left]
    rcases hcond with hfalse | hnone
    · exact absurd (hfalse.symm.trans hprvg) Bool.false_ne_true
    · exact hnone edge hedge htouches

end Lost

/-- **Loop dependence graphs**: the generated graph has the instructions of the loop, the other ends of
the dependences that touch it and copies of these dependences, without exactly those of `rand` if PRVGs
are non-deterministic, if and only if PRVGs are deterministic or no memory dependence of the loop is
between a call whose callee is unknown and a direct call to another function than `rand`. -/
theorem generateLoopDependenceGraph_keeps_iff {subLC : DGEdge V → Bool} {ir : SSAFunction V B}
    {loopNode : LoopTree F B} {DS : DominatorForest B} {fuel : Nat} {functionDG : PDG V} {l : Loop V}
    (h : Checked subLC ir loopNode DS fuel functionDG l) (ord : IterOrder)
    (getCalledFunction : V → Option (Option String)) (arePRVGsNonDeterministic : Bool)
    (self selfInternal selfWithoutMemory : Nat) :
    ∃ loopDG, generateLoopDependenceGraph ord subLC getCalledFunction ir loopNode DS fuel
        arePRVGsNonDeterministic self selfInternal selfWithoutMemory functionDG l = some loopDG ∧
      (KeepsDependences getCalledFunction arePRVGsNonDeterministic functionDG l loopDG ↔
        arePRVGsNonDeterministic = false ∨ ∀ edge ∈ functionDG.allEdges, Touches l edge →
          ¬ IsMixedDependence getCalledFunction edge) := by
  obtain ⟨loopDG, hloopDG, hclean, hin, hex, hcontents⟩ := generateLoopDependenceGraph_spec h ord
    getCalledFunction arePRVGsNonDeterministic self selfInternal selfWithoutMemory
  refine ⟨loopDG, hloopDG, ?_⟩
  rw [← codeEdges_correct_iff]
  exact ⟨fun hkeeps => hcontents.symm.trans hkeeps.contents_eq, fun heq =>
    ⟨hclean, hin, hex, hcontents.trans heq⟩⟩

/-! ## Two calls -/

/-- The function of the swap with two calls and a branch in its loop. -/
def callsFunction : SSAFunction (Fin 7) (Fin 3) :=
  { LoopCarriedDependencies.swapFunction with
    isPHINode := fun _ => false
    incomingValues := fun _ => []
    phis_first := nofun
    phi_not_terminator := fun _ _ _ h => nomatch h }

def callsLoop : Loop (Fin 7) :=
  ⟨[[0, 1, 2]], cons_ne_nil _ _, by decide, by decide⟩

/-- A memory dependence between the two calls. -/
def callsPdg : PDG (Fin 7) :=
  let g : PDG (Fin 7) := ((DG.empty 0 : PDG (Fin 7)).addNode 0 true).2
  let g := (g.addNode 1 true).2
  let g := (g.addNode 2 true).2
  ((g.addMemoryDataDependenceEdge 0 1 .raw false).map (·.2)).getD g

/-- The first call is to the function `name`, the callee of the second one is unknown. -/
def callsTo (name : String) : Fin 7 → Option (Option String) :=
  ![some (some name), some none, none, none, none, none, none]

theorem callsPdg_edges {edge : DGEdge (Fin 7)} (h : edge ∈ callsPdg.allEdges) :
    edge = ⟨0, 0, ⟨0, 0, 0⟩, ⟨0, 1, 1⟩, .mayMemoryDependence, some .raw⟩ := by
  have hedges : callsPdg.allEdges.elems =
      [⟨0, 0, ⟨0, 0, 0⟩, ⟨0, 1, 1⟩, .mayMemoryDependence, some .raw⟩] := by decide
  exact mem_singleton.mp (hedges ▸ PtrSet.mem_elems.mpr h)

theorem callsPdg_checked : Checked (fun _ => false) callsFunction LoopCarriedDependencies.swapLoop
    LoopCarriedDependencies.swapDominators 1 callsPdg callsLoop := by
  refine ⟨fun edge hedge => ?_, fun _ _ _ _ _ => rfl, fun edge hedge _ => ?_, fun edge hedge _ => ?_⟩
  · rw [callsPdg_edges hedge]
    decide
  · rw [callsPdg_edges hedge]
    decide
  · rw [callsPdg_edges hedge]
    exact ⟨true, by decide⟩

/-- A dependence between a call to `rand` and a call whose callee is unknown. -/
theorem generateLoopDependenceGraph_keeps_rand : ∃ loopDG,
    generateLoopDependenceGraph .stored (fun _ => false) (callsTo "rand") callsFunction
      LoopCarriedDependencies.swapLoop LoopCarriedDependencies.swapDominators 1 true 1 2 3 callsPdg
      callsLoop = some loopDG ∧ KeepsDependences (callsTo "rand") true callsPdg callsLoop loopDG := by
  obtain ⟨loopDG, hloopDG, hiff⟩ := generateLoopDependenceGraph_keeps_iff callsPdg_checked .stored
    (callsTo "rand") true 1 2 3
  refine ⟨loopDG, hloopDG, hiff.mpr (.inr fun edge hedge _ hmixed => ?_)⟩
  rw [callsPdg_edges hedge] at hmixed
  exact hmixed.not_rand (by decide)

/-- A dependence between a call to another function and a call whose callee is unknown is lost. -/
theorem not_keepsDependences_foo : ∃ loopDG,
    generateLoopDependenceGraph .stored (fun _ => false) (callsTo "foo") callsFunction
      LoopCarriedDependencies.swapLoop LoopCarriedDependencies.swapDominators 1 true 1 2 3 callsPdg
      callsLoop = some loopDG ∧ ¬ KeepsDependences (callsTo "foo") true callsPdg callsLoop loopDG := by
  obtain ⟨loopDG, hloopDG, -, -, -, hcontents⟩ := generateLoopDependenceGraph_spec callsPdg_checked
    .stored (callsTo "foo") true 1 2 3
  refine ⟨loopDG, hloopDG, fun hkeeps => ?_⟩
  rcases codeEdges_correct_iff true |>.mp (hcontents.symm.trans hkeeps.contents_eq) with hfalse | hnone
  · exact Bool.false_ne_true hfalse.symm
  · exact hnone ⟨0, 0, ⟨0, 0, 0⟩, ⟨0, 1, 1⟩, .mayMemoryDependence, some .raw⟩ (by decide) (by decide)
      ⟨rfl, "foo", by decide, .inr ⟨rfl, rfl⟩⟩

end LDGGenerator

end Noelle
