import Noelle.ControlFlowEquivalence.Construction

/-!
# ControlFlowEquivalence.LoopLevel

The constructor of `ControlFlowEquivalence` for a loop.

The sets are created on a walk over the control-flow graph that ends at the exit blocks, which
sees the blocks of the loop.  The blocks are merged on a walk over the dominator tree that ends at
the exit blocks too, but it gets to blocks behind the loop that are below no exit block: those
where several exits join (`Visited`).  They have no set, and merging one fails.
-/

namespace Noelle

open Relation List Option

variable {F B : Type} [DecidableEq B]

namespace ControlFlowEquivalence

/-- The constructor for a loop. -/
def ofLoop (fuel : Nat) (ord : IterOrder) (f : CFG B) (DT : DominatorForest B)
    (PDT : DominatorForest (Option B)) (loops : LoopTree F B) (loopStructure : LoopStructure F B) :
    Option (ControlFlowEquivalence B) :=
  calculateControlFlowEquivalences fuel ord f DT PDT loops (PtrSet.ofList [loopStructure.getHeader])
    (PtrSet.ofList (loopStructure.getLoopExitBasicBlocks f))

section Loop

variable {f : CFG B} {entry : B} {exits : B → Prop} {DT : DominatorForest B}
  {PDT : DominatorForest (Option B)} {loops : LoopTree F B} {l : LoopStructure F B} {b p u v : B}

/-! ## The walk over the control-flow graph -/

theorem mem_exits_iff : b ∈ l.getLoopExitBasicBlocks f ↔ b ∉ l.bbs ∧ ∃ c ∈ l.bbs, f.Flow c b := by
  simp only [LoopStructure.getLoopExitBasicBlocks, LoopStructure.isIncluded, mem_flatMap,
    mem_filter, Bool.not_eq_true', decide_eq_false_iff_not, PtrSet.mem_elems]
  exact ⟨fun ⟨c, hc, hcb, hb⟩ => ⟨hb, c, hc, hcb⟩, fun ⟨hb, c, hc, hcb⟩ => ⟨c, hc, hcb, hb⟩⟩

theorem reach_iff_mem (hl : IsNaturalLoop f entry l) :
    ReflTransGen (FlowUntil f (PtrSet.ofList (l.getLoopExitBasicBlocks f))) l.header b ↔
      b ∈ l.bbs := by
  constructor
  · intro hb
    induction hb with
    | refl => exact hl.header_mem
    | @tail b c _ hbc ih =>
        by_contra hc
        exact hbc.2 (PtrSet.mem_ofList.mpr (mem_exits_iff.mpr ⟨hc, b, ih, hbc.1⟩))
  · intro hb
    refine ReflTransGen.mono ?_ _ _ ((hl.mem_iff b).mp hb).reach_of_header
    rintro x y ⟨hxy, hy⟩
    refine ⟨hxy, fun hend => ?_⟩
    exact l.not_isIncluded_of_exit (PtrSet.mem_ofList.mp hend) ((hl.mem_iff y).mpr hy)

omit [DecidableEq B] in
theorem mem_of_dominates (hl : IsNaturalLoop f entry l) (hp : Dominates f.Flow entry l.header p)
    (hpv : Dominates f.Flow entry p v) (hv : v ∈ l.bbs) : p ∈ l.bbs := by
  by_contra hnot
  -- the way from the header to `v` within the loop does not meet `p`
  have hinside : PathAvoiding f.Flow p l.header v := by
    refine ⟨fun h => hnot (h ▸ hl.header_mem), ?_⟩
    refine ReflTransGen.mono ?_ _ _ ((hl.mem_iff v).mp hv).reach_of_header
    rintro x y ⟨hxy, hy⟩
    exact ⟨hxy, fun h => hnot (h ▸ (hl.mem_iff y).mpr hy)⟩
  by_cases hph : Dominates f.Flow entry p l.header
  · have hreach := ((hl.mem_iff _).mp hl.header_mem).1
    exact hnot (hp.antisymm hreach hph ▸ hl.header_mem)
  · exact hpv ((not_not.mp hph).trans hinside)

/-! ## The walk over the dominator tree -/

/-- The walk gets to the block: it is below the header, and below no exit block that is. -/
structure Visited (f : CFG B) (entry : B) (l : LoopStructure F B) (u : B) : Prop where
  reachable : ReflTransGen f.Flow entry u
  dominates : Dominates f.Flow entry l.header u
  noExit : ∀ e ∈ l.getLoopExitBasicBlocks f, Dominates f.Flow entry l.header e →
    ¬ Dominates f.Flow entry e u

/-- If the block is equivalent to a later one, then it is a block of the loop, and equivalent to a
later block of the loop. -/
def StaysInside (f : CFG B) (entry : B) (exits : B → Prop) (loops : LoopTree F B)
    (l : LoopStructure F B) (u : B) : Prop :=
  ∀ v, ReflTransGen f.Flow entry v → Encloses f entry exits u v → u ≠ v →
    inSameInnermostLoop loops u v = true →
      u ∈ l.bbs ∧ ∃ w ∈ l.bbs, Encloses f entry exits u w ∧ u ≠ w ∧
        inSameInnermostLoop loops u w = true

/-- The walk still gets to the block. -/
def Pending (f : CFG B) (entry : B) (l : LoopStructure F B) (dtWorklist : List (DominatorNode B))
    (u : B) : Prop :=
  ∃ n ∈ dtWorklist, Dominates f.Flow entry n.getBlock u ∧
    ∀ e ∈ l.getLoopExitBasicBlocks f, Dominates f.Flow entry n.getBlock e →
      ¬ Dominates f.Flow entry e u

/-- What holds while the walk goes on. -/
structure WalkInv (f : CFG B) (entry : B) (exits : B → Prop) (DT : DominatorForest B)
    (loops : LoopTree F B) (l : LoopStructure F B) (s : Merging B) : Prop where
  groups : ∃ r, Groups (· ∈ l.bbs) r s.result ∧ ∀ x y, r x y → x ∈ l.bbs ∧ y ∈ l.bbs
  nodes : ∀ n ∈ s.dtWorklist, n ∈ DT.nodes ∧ Dominates f.Flow entry l.header n.getBlock ∧
    ∀ e ∈ l.getLoopExitBasicBlocks f, Dominates f.Flow entry l.header e →
      Dominates f.Flow entry e n.getBlock → e = n.getBlock
  done : ∀ u, Visited f entry l u →
    StaysInside f entry exits loops l u ∨ Pending f entry l s.dtWorklist u

theorem Groups.mergeEquivalenceSets_eq_none {U : B → Prop} {r : B → B → Prop}
    {e : ControlFlowEquivalence B} {x y : B} (ord : IterOrder) (h : Groups U r e)
    (hxy : ¬ (U x ∧ U y)) : e.mergeEquivalenceSets ord x y = none := by
  have hnone : ∀ {b}, ¬ U b → e.bbToEquivalence b = none := fun hb =>
    not_isSome_iff_eq_none.mp (mt (h.isSome_iff _).mp hb)
  by_cases hx : U x
  · have hy : ¬ U y := fun hy => hxy ⟨hx, hy⟩
    cases hxs : e.bbToEquivalence x with
    | none => simp [ControlFlowEquivalence.mergeEquivalenceSets, hxs]
    | some s => simp [ControlFlowEquivalence.mergeEquivalenceSets, hxs, hnone hy]
  · simp [ControlFlowEquivalence.mergeEquivalenceSets, hnone hx]

section Trees

variable (hDT : IsDominatorForest f.Flow entry (ReflTransGen f.Flow entry) DT)
  (hPDT : IsPostDominatorForest f exits PDT) (hentry : entry ∈ f.blocks)
  (hl : IsNaturalLoop f entry l)

variable {d : DominatorNode B} {dtWorklist : List (DominatorNode B)} {fuel : Nat} {s : Merging B}

include hDT in
theorem pending_children (hd : d ∈ DT.nodes) (hu : ReflTransGen f.Flow entry u)
    (h : Pending f entry l (d :: dtWorklist) u) :
    u = d.getBlock ∨ Pending f entry l (dtWorklist ++ d.getChildren) u := by
  obtain ⟨n, hn, hdom, hexit⟩ := h
  rcases mem_cons.mp hn with rfl | hn
  · obtain ⟨m, hm, rfl, -⟩ := hDT.exists_node hu
    rcases DominatorNode.mem_descendants.mp (hDT.descendant_of_dominates hd hm hdom) with rfl | hc
    · exact .inl rfl
    · obtain ⟨c, hc, hmc⟩ := hc
      have hcnodes := DominatorForest.child_mem_nodes hd hc
      refine .inr ⟨c, mem_append_right _ hc, hDT.dominates_descendant hcnodes hmc,
        fun e he hce => hexit e he ?_⟩
      exact (hDT.idom n hd c hc).2.1.trans hce
  · exact .inr ⟨n, mem_append_left _ hn, hdom, hexit⟩

include hDT in
theorem nodes_children {c : DominatorNode B} (hd : d ∈ DT.nodes) (hc : c ∈ d.getChildren)
    (hdom : Dominates f.Flow entry l.header d.getBlock)
    (hexit : ∀ e ∈ l.getLoopExitBasicBlocks f, Dominates f.Flow entry l.header e →
      Dominates f.Flow entry e d.getBlock → e = d.getBlock)
    (hdexit : d.getBlock ∉ l.getLoopExitBasicBlocks f) :
    c ∈ DT.nodes ∧ Dominates f.Flow entry l.header c.getBlock ∧
      ∀ e ∈ l.getLoopExitBasicBlocks f, Dominates f.Flow entry l.header e →
        Dominates f.Flow entry e c.getBlock → e = c.getBlock := by
  obtain ⟨-, hdc, hidom⟩ := hDT.idom d hd c hc
  refine ⟨DominatorForest.child_mem_nodes hd hc, hdom.trans hdc, fun e he hle hec => ?_⟩
  by_contra hne
  exact hdexit (hexit e he hle (hidom e hne hec) ▸ he)

theorem visited_of_nodes (hu : ReflTransGen f.Flow entry d.getBlock)
    (hdom : Dominates f.Flow entry l.header d.getBlock)
    (hexit : ∀ e ∈ l.getLoopExitBasicBlocks f, Dominates f.Flow entry l.header e →
      Dominates f.Flow entry e d.getBlock → e = d.getBlock)
    (hdexit : d.getBlock ∉ l.getLoopExitBasicBlocks f) : Visited f entry l d.getBlock :=
  ⟨hu, hdom, fun e he hle hed => hdexit (hexit e he hle hed ▸ he)⟩

variable (ord : IterOrder)

include hDT hPDT hentry hl in
/-- The step of a loop ends at its exit blocks. -/
theorem mergeNext_loop (hfuel : DT.nodes.length ≤ fuel) {result : ControlFlowEquivalence B}
    (hs : WalkInv f entry exits DT loops l ⟨d :: dtWorklist, result⟩) :
    (d.getBlock ∈ l.getLoopExitBasicBlocks f ∧
      mergeNext fuel ord DT PDT loops (PtrSet.ofList (l.getLoopExitBasicBlocks f))
        ⟨d :: dtWorklist, result⟩ = some ⟨dtWorklist, result⟩) ∨
    d.getBlock ∉ l.getLoopExitBasicBlocks f ∧
      ((StaysInside f entry exits loops l d.getBlock ∧ ∃ r result',
          mergeNext fuel ord DT PDT loops (PtrSet.ofList (l.getLoopExitBasicBlocks f))
            ⟨d :: dtWorklist, result⟩ = some ⟨dtWorklist ++ d.getChildren, result'⟩ ∧
          Groups (· ∈ l.bbs) r result' ∧ ∀ x y, r x y → x ∈ l.bbs ∧ y ∈ l.bbs) ∨
        ¬ StaysInside f entry exits loops l d.getBlock ∧
          mergeNext fuel ord DT PDT loops (PtrSet.ofList (l.getLoopExitBasicBlocks f))
            ⟨d :: dtWorklist, result⟩ = none) := by
  obtain ⟨hd, hdom, -⟩ := hs.nodes d (.head _)
  obtain ⟨r, hgroups, hr⟩ := hs.groups
  by_cases hexit : d.getBlock ∈ l.getLoopExitBasicBlocks f
  · exact .inl ⟨hexit, by simp [mergeNext, hexit]⟩
  refine .inr ⟨hexit, ?_⟩
  obtain ⟨n, partner, hget, hfind, hpartner⟩ :=
    exists_partner loops hDT hPDT hentry hfuel hd
  rcases hpartner with ⟨rfl, hnone⟩ | ⟨p, rfl, hp, hup, hpu, hloop, hfirst⟩
  · refine .inl ⟨fun v hv huv hne hsame => absurd hsame (hnone v hv huv hne), r, result, ?_, hgroups,
      hr⟩
    simp [mergeNext, hexit, hget, hfind]
  · -- the block stays inside if it is merged with a block of the loop
    have hstays : StaysInside f entry exits loops l d.getBlock ↔ d.getBlock ∈ l.bbs ∧ p ∈ l.bbs := by
      constructor
      · intro h
        obtain ⟨hin, w, hw, huw, hne, hsame⟩ := h p hp hup (Ne.symm hpu) hloop
        have hwreach := ((hl.mem_iff w).mp hw).1
        have hpw := hfirst w hwreach huw hne hsame
        exact ⟨hin, mem_of_dominates hl (hdom.trans hup.dominates) hpw.dominates hw⟩
      · exact fun h v _ _ _ _ => ⟨h.1, p, h.2, hup, Ne.symm hpu, hloop⟩
    by_cases hin : d.getBlock ∈ l.bbs ∧ p ∈ l.bbs
    · obtain ⟨result', hmerge, hgroups'⟩ := hgroups.mergeEquivalenceSets ord hr hin.1 hin.2
      refine .inl ⟨hstays.mpr hin, withPair r p d.getBlock, result', ?_, hgroups', ?_⟩
      · simp [mergeNext, hexit, hget, hfind, hmerge]
      · rintro x y (hxy | ⟨rfl, rfl⟩)
        · exact hr x y hxy
        · exact ⟨hin.2, hin.1⟩
    · refine .inr ⟨fun h => hin (hstays.mp h), ?_⟩
      simp [mergeNext, hexit, hget, hfind, hgroups.mergeEquivalenceSets_eq_none ord hin]

include hDT hPDT hentry hl in
/-- A step of the walk over a loop keeps its invariant. -/
theorem WalkInv.next (hfuel : DT.nodes.length ≤ fuel) {s' : Merging B}
    (hs : WalkInv f entry exits DT loops l s) (hne : (!s.dtWorklist.isEmpty) = true)
    (h : mergeNext fuel ord DT PDT loops (PtrSet.ofList (l.getLoopExitBasicBlocks f)) s = some s') :
    WalkInv f entry exits DT loops l s' ∧
      (DominatorNode.descendantsOfAll s'.dtWorklist).length <
        (DominatorNode.descendantsOfAll s.dtWorklist).length := by
  obtain ⟨worklist, result⟩ := s
  cases worklist with
  | nil => exact absurd hne (by simp)
  | cons d dtWorklist =>
  obtain ⟨hd, hdom, hdexit⟩ := hs.nodes d (.head _)
  have hu : ReflTransGen f.Flow entry d.getBlock := (hDT.mem_iff _).mp ⟨d, hd, rfl⟩
  have hrest : ∀ n ∈ dtWorklist, n ∈ d :: dtWorklist := fun n hn => .tail d hn
  have hlength : (DominatorNode.descendantsOfAll (d :: dtWorklist)).length =
      (DominatorNode.descendantsOfAll d.getChildren).length +
        (DominatorNode.descendantsOfAll dtWorklist).length + 1 := by
    rw [DominatorNode.descendantsOfAll, DominatorNode.descendants_eq]
    simp only [length_append, length_cons]
    omega
  rcases mergeNext_loop hDT hPDT hentry hl ord hfuel hs with
    ⟨hexit, hrun⟩ | ⟨hexit, ⟨hstays, r, result', hrun, hgroups, hr⟩ | ⟨-, hrun⟩⟩
  · obtain rfl := mem_unique hrun h
    refine ⟨⟨hs.groups, fun n hn => hs.nodes n (hrest n hn), fun u hvisited => ?_⟩, ?_⟩
    · refine (hs.done u hvisited).imp_right ?_
      rintro ⟨n, hn, hnu, hnexit⟩
      rcases mem_cons.mp hn with rfl | hn
      · exact absurd hnu (hnexit _ hexit (.refl _))
      · exact ⟨n, hn, hnu, hnexit⟩
    · simp only [hlength]
      omega
  · obtain rfl := mem_unique hrun h
    refine ⟨⟨⟨r, hgroups, hr⟩, fun n hn => ?_, fun u hvisited => ?_⟩, ?_⟩
    · rcases mem_append.mp hn with hn | hn
      · exact hs.nodes n (hrest n hn)
      · exact nodes_children hDT hd hn hdom hdexit hexit
    · rcases hs.done u hvisited with hdone | hpending
      · exact .inl hdone
      · rcases pending_children hDT hd hvisited.reachable hpending with rfl | hpending
        · exact .inl hstays
        · exact .inr hpending
    · rw [hlength, DominatorNode.descendantsOfAll_append, length_append]
      omega
  · exact absurd (hrun.symm.trans h) (some_ne_none s').symm

include hDT hPDT hentry hl in
theorem WalkInv.exists_next (hfuel : DT.nodes.length ≤ fuel)
    (hall : ∀ u, Visited f entry l u → StaysInside f entry exits loops l u)
    (hs : WalkInv f entry exits DT loops l s) (hne : (!s.dtWorklist.isEmpty) = true) :
    ∃ s', mergeNext fuel ord DT PDT loops (PtrSet.ofList (l.getLoopExitBasicBlocks f)) s =
      some s' := by
  obtain ⟨worklist, result⟩ := s
  cases worklist with
  | nil => exact absurd hne (by simp)
  | cons d dtWorklist =>
  obtain ⟨hd, hdom, hdexit⟩ := hs.nodes d (.head _)
  have hu : ReflTransGen f.Flow entry d.getBlock := (hDT.mem_iff _).mp ⟨d, hd, rfl⟩
  rcases mergeNext_loop hDT hPDT hentry hl ord hfuel hs with
    ⟨-, hrun⟩ | ⟨hexit, ⟨-, r, result', hrun, -⟩ | ⟨hleaves, -⟩⟩
  · exact ⟨_, hrun⟩
  · exact ⟨_, hrun⟩
  · exact absurd (hall _ (visited_of_nodes hu hdom hdexit hexit)) hleaves

include hl in
theorem WalkInv.start {e : ControlFlowEquivalence B} (hd : d ∈ DT.nodes)
    (hheader : d.getBlock = l.header) (hgroups : Groups (· ∈ l.bbs) (fun _ _ => False) e) :
    WalkInv f entry exits DT loops l ⟨[d], e⟩ where
  groups := ⟨_, hgroups, fun _ _ => False.elim⟩
  nodes n hn := by
    obtain rfl := mem_singleton.mp hn
    refine ⟨hd, hheader ▸ .refl _, fun e _ hle hed => ?_⟩
    rw [hheader] at hed ⊢
    exact (hle.antisymm ((hl.mem_iff _).mp hl.header_mem).1 hed).symm
  done u hu := .inr ⟨d, mem_singleton_self d, hheader ▸ hu.dominates, fun e he hde =>
    hu.noExit e he (hheader ▸ hde)⟩

include hDT hentry hl in
/-- The constructor creates sets for the blocks of the loop, and walks over the dominator tree. -/
theorem ofLoop_eq (PDT : DominatorForest (Option B)) (loops : LoopTree F B) :
    ∃ d ∈ DT.nodes, d.getBlock = l.header ∧ ∃ N, ∀ fuel ≥ N, ∃ e,
      Groups (· ∈ l.bbs) (fun _ _ => False) e ∧
      ofLoop fuel ord f DT PDT loops l = (loopM (fun s => !s.dtWorklist.isEmpty)
        (mergeNext fuel ord DT PDT loops (PtrSet.ofList (l.getLoopExitBasicBlocks f))) fuel
          ⟨[d], e⟩).map (·.result) := by
  have hheaderReach : ReflTransGen f.Flow entry l.header := ((hl.mem_iff _).mp hl.header_mem).1
  have hheaderExit : l.header ∉ PtrSet.ofList (l.getLoopExitBasicBlocks f) := fun h =>
    l.not_isIncluded_of_exit (PtrSet.mem_ofList.mp h) hl.header_mem
  obtain ⟨N, hN⟩ := createTrivialSets_spec ord (CFG.mem_blocks_of_reach hentry hheaderReach)
    hheaderExit
  have hseen : ReflTransGen (FlowUntil f (PtrSet.ofList (l.getLoopExitBasicBlocks f))) l.header =
      (· ∈ l.bbs) := funext fun b => propext (reach_iff_mem hl)
  simp only [hseen] at hN
  obtain ⟨d, hd, hheader, hget⟩ := hDT.exists_node hheaderReach
  have hworklist : (ord.visit (PtrSet.ofList [l.getHeader]).elems).mapM DT.getNode = some [d] := by
    have hperm := ord.visit_perm (PtrSet.ofList [l.getHeader]).elems
    rw [perm_singleton.mp hperm]
    simp [LoopStructure.getHeader, hget]
  refine ⟨d, hd, hheader, N, fun fuel hfuel => ?_⟩
  obtain ⟨e, hcreate, hgroups⟩ := hN fuel hfuel
  refine ⟨e, hgroups, ?_⟩
  rw [ofLoop, calculateControlFlowEquivalences, LoopStructure.getHeader, hcreate,
    bind_eq_bind, bind_some, ← LoopStructure.getHeader, hworklist,
    bind_eq_bind, bind_some, map_eq_bind]
  rfl

include hDT hPDT hentry hl in
theorem staysInside_of_ofLoop (N : Nat)
    (h : ∀ fuel ≥ N, ∃ e, ofLoop fuel ord f DT PDT loops l = some e) (hu : Visited f entry l u) :
    StaysInside f entry exits loops l u := by
  obtain ⟨d, hd, hheader, M, hM⟩ := ofLoop_eq hDT hentry hl ord PDT loops
  have hnodes : DT.nodes.length ≤ max N (max M DT.nodes.length) :=
    (le_max_right _ _).trans (le_max_right _ _)
  obtain ⟨e', hresult⟩ := h (max N (max M DT.nodes.length)) (le_max_left _ _)
  obtain ⟨e, hgroups, hloop⟩ := hM (max N (max M DT.nodes.length))
    ((le_max_left _ _).trans (le_max_right _ _))
  rw [hloop] at hresult
  obtain ⟨s, hs, -⟩ := map_eq_some_iff.mp hresult
  obtain ⟨hinv, hempty⟩ := loopM_preserves (WalkInv f entry exits DT loops l)
    (fun s s' hs hne h => (hs.next hDT hPDT hentry hl ord hnodes hne h).1) hs
    (.start hl hd hheader hgroups)
  have hnil : s.dtWorklist = [] := by simpa using hempty
  refine (hinv.done u hu).resolve_right ?_
  rintro ⟨n, hn, -⟩
  rw [hnil] at hn
  nomatch hn

include hDT hPDT hentry hl in
/-- The constructor for a loop returns, with sets of blocks of the loop for all blocks of the loop,
if and only if every block that the walk over the dominator tree gets to stays inside. -/
theorem ofLoop_iff (ord : IterOrder) (loops : LoopTree F B) :
    (∃ N, ∀ fuel ≥ N, ∃ e, ofLoop fuel ord f DT PDT loops l = some e ∧
      ∀ b ∈ l.bbs, ∃ bbs, e.getEquivalences b = some bbs ∧ ∀ c ∈ bbs, c ∈ l.bbs) ↔
    ∀ u, Visited f entry l u → StaysInside f entry exits loops l u := by
  constructor
  · rintro ⟨N, hN⟩ u hu
    refine staysInside_of_ofLoop hDT hPDT hentry hl ord N (fun fuel hfuel => ?_) hu
    obtain ⟨e, he, -⟩ := hN fuel hfuel
    exact ⟨e, he⟩
  · intro hall
    obtain ⟨d, hd, hheader, N, hN⟩ := ofLoop_eq hDT hentry hl ord PDT loops
    refine ⟨max N DT.nodes.length, fun fuel hfuel => ?_⟩
    have hnodes : DT.nodes.length ≤ fuel := (le_max_right _ _).trans hfuel
    obtain ⟨e, hgroups, hloop⟩ := hN fuel ((le_max_left _ _).trans hfuel)
    have hlen : (DominatorNode.descendantsOfAll [d]).length ≤ fuel := by
      rw [DominatorNode.descendantsOfAll, DominatorNode.descendantsOfAll, append_nil]
      exact (DominatorForest.length_descendants_le_nodes hd).trans hnodes
    obtain ⟨s, hs, hinv, -⟩ := loopM_rule (WalkInv f entry exits DT loops l)
      (fun s => (DominatorNode.descendantsOfAll s.dtWorklist).length)
      (fun s hs hne => by
        obtain ⟨s', h⟩ := hs.exists_next hDT hPDT hentry hl ord hnodes hall hne
        exact ⟨s', h, hs.next hDT hPDT hentry hl ord hnodes hne h⟩)
      fuel _ (.start hl hd hheader hgroups) hlen
    obtain ⟨r, hgroups', -⟩ := hinv.groups
    refine ⟨s.result, by rw [hloop, hs]; rfl, fun b hb => ?_⟩
    obtain ⟨bbs, hbbs, hmem⟩ := hgroups'.getEquivalences hb
    exact ⟨bbs, hbbs, fun c hc => ((hmem c).mp hc).1⟩

end Trees

end Loop

/-! ## Two exits that join -/

/-- A loop of the block `1` with the exits `2` and `3`, which join in `4` before `5`. -/
def joinedExitsCFG : CFG (Fin 6) where
  blocks := [0, 1, 2, 3, 4, 5]
  size := fun _ => 1
  successors := ![[1], [1, 2, 3], [4], [4], [5], []]
  predecessors := ![[], [0, 1], [1], [1], [2, 3], [4]]
  size_pos := fun _ _ => Nat.one_pos
  successors_mem := by decide
  predecessors_mem := by decide
  mem_predecessors := by decide

def joinedExitsLoop : LoopStructure Unit (Fin 6) := ⟨0, (), 1, 1, PtrSet.ofList [1]⟩

def joinedExitsLoops : LoopTree Unit (Fin 6) := .node joinedExitsLoop []

def joinedExitsDominators : DominatorForest (Fin 6) :=
  ⟨[.node 0 [.node 1 [.node 2 [], .node 3 [], .node 4 [.node 5 []]]]], false⟩

def joinedExitsPostDominators : DominatorForest (Option (Fin 6)) :=
  ⟨[.node none [.node (some 5) [.node (some 4) [.node (some 2) [], .node (some 3) [],
    .node (some 1) [.node (some 0) []]]]]], true⟩

theorem joinedExitsDominators_spec : IsDominatorForest joinedExitsCFG.Flow 0
    (ReflTransGen joinedExitsCFG.Flow 0) joinedExitsDominators := by
  have hcertified : DominatorForest.IsCertified joinedExitsCFG.Flow 0 joinedExitsDominators
      fun b => if b = 4 then [[2, 4], [3, 4]] else [[b]] :=
    ⟨rfl, by decide, by decide, by decide, by decide, by decide⟩
  have hforest := hcertified.isDominatorForest (U := fun _ => True) (by decide)
  exact hcertified.isDominatorForest fun b =>
    iff_of_true (hforest.reachable b trivial) (by revert b; decide)

theorem joinedExitsPostDominators_spec :
    IsPostDominatorForest joinedExitsCFG joinedExitsCFG.IsExit joinedExitsPostDominators where
  post_eq := rfl
  tree := by
    have hcertified : DominatorForest.IsCertified (joinedExitsCFG.ExitFlow joinedExitsCFG.IsExit)
        none { joinedExitsPostDominators with post := false } fun b =>
          if b = some 1 then [[some 2, some 1], [some 3, some 1]] else [[b]] :=
      ⟨rfl, by decide, by decide, by decide, by decide, by decide⟩
    exact hcertified.isDominatorForest (by decide)

theorem joinedExitsLoop_isNatural : IsNaturalLoop joinedExitsCFG 0 joinedExitsLoop where
  header_mem := by decide
  mem_iff b := by
    rw [joinedExitsLoop, PtrSet.mem_ofList, mem_singleton]
    constructor
    · rintro rfl
      have hlatch : IsLatch joinedExitsCFG.Flow 0 1 1 :=
        ⟨by decide, .refl 1, .single (by decide : joinedExitsCFG.Flow 0 1)⟩
      exact .header_mem hlatch
    · rintro ⟨-, latch, hlatch, hb⟩
      obtain rfl | rfl : latch = 0 ∨ latch = 1 :=
        (by decide : ∀ b, joinedExitsCFG.Flow b 1 → b = 0 ∨ b = 1) latch hlatch.edge
      · exact absurd (PathAvoiding.refl (by decide)) hlatch.dominates
      · exact hb.resolve_right fun hpath => hpath.target_ne rfl

theorem joinedExits_dominates_iff (a b : Fin 6) : Dominates joinedExitsCFG.Flow 0 a b ↔
    joinedExitsDominators.dominatesBlock a b = some true := by
  have hreach : ∀ c, ReflTransGen joinedExitsCFG.Flow 0 c := fun c =>
    (joinedExitsDominators_spec.mem_iff c).mp
      ((by decide : ∀ c, ∃ n ∈ joinedExitsDominators.nodes, n.getBlock = c) c)
  obtain ⟨result, hresult, hiff⟩ :=
    joinedExitsDominators_spec.dominatesBlock_spec (hreach a) (hreach b)
  rw [← hiff, hresult, some.injEq]

/-- The walk gets to the block where the exits join, which goes on to a block that it dominates. -/
theorem joinedExits_not_staysInside : Visited joinedExitsCFG 0 joinedExitsLoop 4 ∧
    ¬ StaysInside joinedExitsCFG 0 joinedExitsCFG.IsExit joinedExitsLoops joinedExitsLoop 4 := by
  have hreach : ReflTransGen joinedExitsCFG.Flow 0 4 :=
    (joinedExitsDominators_spec.mem_iff 4).mp (by decide)
  refine ⟨⟨hreach, (joinedExits_dominates_iff 1 4).mpr (by decide), fun e he _ => ?_⟩, fun h => ?_⟩
  · rw [joinedExits_dominates_iff]
    exact (by decide : ∀ e ∈ joinedExitsLoop.getLoopExitBasicBlocks joinedExitsCFG,
      ¬ joinedExitsDominators.dominatesBlock e 4 = some true) e he
  · have hencloses : Encloses joinedExitsCFG 0 joinedExitsCFG.IsExit 4 5 := by
      refine ⟨(joinedExits_dominates_iff 4 5).mpr (by decide), ?_⟩
      rintro ⟨x, hx, hpath⟩
      obtain rfl : x = 5 := (by decide : ∀ x, joinedExitsCFG.successors x = [] → x = 5) x hx
      exact hpath.target_ne rfl
    have hflow : joinedExitsCFG.Flow 4 5 := by decide
    exact absurd (h 5 (hreach.tail hflow) hencloses (by decide) (by decide)).1 (by decide)

theorem ofLoop_iff_joinedExits :
    (∃ N, ∀ fuel ≥ N, ∃ e, ofLoop fuel .stored joinedExitsCFG joinedExitsDominators
        joinedExitsPostDominators joinedExitsLoops joinedExitsLoop = some e ∧
      ∀ b ∈ joinedExitsLoop.bbs, ∃ bbs, e.getEquivalences b = some bbs ∧
        ∀ c ∈ bbs, c ∈ joinedExitsLoop.bbs) ↔
    ∀ u, Visited joinedExitsCFG 0 joinedExitsLoop u →
      StaysInside joinedExitsCFG 0 joinedExitsCFG.IsExit joinedExitsLoops joinedExitsLoop u :=
  ofLoop_iff joinedExitsDominators_spec joinedExitsPostDominators_spec (by decide)
    joinedExitsLoop_isNatural .stored joinedExitsLoops

/-- The constructor merges blocks without a set. -/
theorem joinedExits_fails : IsDominatorForest joinedExitsCFG.Flow 0
      (ReflTransGen joinedExitsCFG.Flow 0) joinedExitsDominators ∧
    IsPostDominatorForest joinedExitsCFG joinedExitsCFG.IsExit joinedExitsPostDominators ∧
    IsNaturalLoop joinedExitsCFG 0 joinedExitsLoop ∧
    ¬ ∃ N, ∀ fuel ≥ N, ∃ e, ofLoop fuel .stored joinedExitsCFG joinedExitsDominators
        joinedExitsPostDominators joinedExitsLoops joinedExitsLoop = some e ∧
      ∀ b ∈ joinedExitsLoop.bbs, ∃ bbs, e.getEquivalences b = some bbs ∧
        ∀ c ∈ bbs, c ∈ joinedExitsLoop.bbs := by
  refine ⟨joinedExitsDominators_spec, joinedExitsPostDominators_spec, joinedExitsLoop_isNatural, ?_⟩
  rintro ⟨N, hN⟩
  obtain ⟨hvisited, hleaves⟩ := joinedExits_not_staysInside
  refine hleaves (staysInside_of_ofLoop joinedExitsDominators_spec joinedExitsPostDominators_spec
    (by decide) joinedExitsLoop_isNatural .stored N (fun fuel hfuel => ?_) hvisited)
  obtain ⟨e, he, -⟩ := hN fuel hfuel
  exact ⟨e, he⟩

end ControlFlowEquivalence

end Noelle
