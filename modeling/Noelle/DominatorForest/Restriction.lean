import Noelle.DominatorForest.InstructionOrder

/-!
# DominatorForest.Restriction

The restriction of a forest to some of its blocks.

The kept nodes are cloned with the edges between them.  The constructor does not set the flavour
of the new forest, which is whatever the memory held: blocks and instructions of different
blocks are compared as before, but instructions of one block only if the flavour happens to be
the old one.
-/

namespace Noelle

open Relation List

variable {B : Type} [DecidableEq B]

namespace DominatorNode

mutual

/-- The copy of a node, with the copies of the children that are kept. -/
def clone (keep : B → Bool) : DominatorNode B → DominatorNode B
  | node b children => node b (cloneAll keep children)

/-- The copies of the kept nodes of a list. -/
def cloneAll (keep : B → Bool) : List (DominatorNode B) → List (DominatorNode B)
  | [] => []
  | child :: children =>
      if keep child.getBlock then clone keep child :: cloneAll keep children
      else cloneAll keep children

end

variable {keep : B → Bool} {n m c : DominatorNode B}

omit [DecidableEq B]

@[simp] theorem getBlock_clone (n : DominatorNode B) : (clone keep n).getBlock = n.getBlock := by
  cases n with
  | node b children => rw [clone, getBlock, getBlock]

theorem mem_cloneAll {l : List (DominatorNode B)} :
    m ∈ cloneAll keep l ↔ ∃ n ∈ l, keep n.getBlock = true ∧ clone keep n = m := by
  induction l with
  | nil => simp [cloneAll]
  | cons n l ih =>
      rw [cloneAll]
      by_cases hkeep : keep n.getBlock = true
      · rw [if_pos hkeep, mem_cons, ih, exists_mem_cons_iff, eq_comm]
        exact or_congr_left (and_iff_right hkeep).symm
      · rw [if_neg hkeep, ih, exists_mem_cons_iff]
        exact (or_iff_right fun h => hkeep h.1).symm

theorem child_clone_iff :
    Child (clone keep n) m ↔ ∃ c, Child n c ∧ keep c.getBlock = true ∧ clone keep c = m := by
  cases n with
  | node b children =>
      rw [clone]
      exact mem_cloneAll

theorem mem_descendants_clone (h : m ∈ (clone keep n).descendants) :
    ∃ k ∈ n.descendants, clone keep k = m := by
  refine descendants_induct (clone keep n) (P := fun m => ∃ k ∈ n.descendants, clone keep k = m)
    ⟨n, self_mem_descendants n, rfl⟩ ?_ m h
  rintro _ _ ⟨k, hk, rfl⟩ c' hc'
  obtain ⟨c, hc, _, rfl⟩ := child_clone_iff.mp hc'
  exact ⟨c, descendants_trans hk (mem_descendants.mpr (.inr ⟨c, hc, self_mem_descendants c⟩)), rfl⟩

/-- If all nodes between are kept, the copy of a descendant is a descendant of the copy. -/
theorem clone_mem_descendants (hm : m ∈ n.descendants)
    (hkeep : ∀ k ∈ n.descendants, m ∈ k.descendants → keep k.getBlock = true) :
    clone keep m ∈ (clone keep n).descendants := by
  have hpath := mem_descendants_iff.mp hm
  clear hm
  induction hpath using ReflTransGen.head_induction_on with
  | refl => exact self_mem_descendants _
  | @head n c hchild hcm ih =>
      have hc : ∀ k, k ∈ c.descendants → k ∈ n.descendants := fun k hk =>
        mem_descendants.mpr (.inr ⟨c, hchild, hk⟩)
      have hkept := hkeep c (hc c (self_mem_descendants c)) (mem_descendants_iff.mpr hcm)
      refine mem_descendants.mpr (.inr ⟨clone keep c, ?_, ih fun k hk => hkeep k (hc k hk)⟩)
      exact child_clone_iff.mpr ⟨c, hchild, hkept, rfl⟩

end DominatorNode

namespace DominatorForest

open DominatorNode

def filterNodes (nodes : List (DominatorNode B)) (bbSubset : PtrSet B) : List (DominatorNode B) :=
  nodes.filter fun node => decide (node.getBlock ∈ bbSubset)

/-- `DominatorForest::cloneNodes`: the copies of nodes that are no child of one of the nodes. -/
def cloneNodes (nodesToClone : List (DominatorNode B)) : List (DominatorNode B) :=
  let inNodeMap b := nodesToClone.any fun node => decide (node.getBlock = b)
  let hasParent (node : DominatorNode B) := nodesToClone.any fun parent =>
    parent.getChildren.any fun child => decide (child.getBlock = node.getBlock)
  (nodesToClone.filter fun node => !hasParent node).map (clone inNodeMap)

/-- `DominatorForest(DominatorForest &, std::set<BasicBlock *> &)`.  No constructor on the way
initializes `post`. -/
def ofSubset (DTS : DominatorForest B) (bbSubset : PtrSet B) (uninitialized : Bool) :
    DominatorForest B :=
  ⟨cloneNodes (filterNodes DTS.nodes bbSubset), uninitialized⟩

variable {T : DominatorForest B} {U : PtrSet B} {uninitialized : Bool} {f : CFG B}
  {n m p : DominatorNode B}

/-- A subset of the blocks that contains the blocks between two of its members. -/
structure ConvexSubset (T : DominatorForest B) (U : PtrSet B) : Prop where
  subset : ∀ b ∈ U, ∃ n ∈ T.nodes, n.getBlock = b
  between : ∀ n ∈ T.nodes, ∀ m ∈ n.descendants, ∀ k ∈ m.descendants,
    n.getBlock ∈ U → k.getBlock ∈ U → m.getBlock ∈ U

/-- The forests give the same answers on the blocks of the subset and on their instructions. -/
structure SameAnswers (T T' : DominatorForest B) (U : PtrSet B) (f : CFG B) : Prop where
  dominatesBlock : ∀ a ∈ U, ∀ b ∈ U, T'.dominatesBlock a b = T.dominatesBlock a b
  strictlyDominatesBlock : ∀ a ∈ U, ∀ b ∈ U,
    T'.strictlyDominatesBlock a b = T.strictlyDominatesBlock a b
  dominates : ∀ I J, I.parent ∈ U → J.parent ∈ U → I.index < f.size I.parent →
    J.index < f.size J.parent → T'.dominates f I J = T.dominates f I J
  strictlyDominates : ∀ I J, I.parent ∈ U → J.parent ∈ U → I.index < f.size I.parent →
    J.index < f.size J.parent → T'.strictlyDominates f I J = T.strictlyDominates f I J

/-! ## The nodes of the restriction -/

theorem mem_filterNodes {nodes : List (DominatorNode B)} :
    n ∈ filterNodes nodes U ↔ n ∈ nodes ∧ n.getBlock ∈ U := by
  simp [filterNodes]

/-- The blocks of the kept nodes. -/
def kept (T : DominatorForest B) (U : PtrSet B) (b : B) : Bool :=
  (filterNodes T.nodes U).any fun node => decide (node.getBlock = b)

theorem kept_iff (hn : n ∈ T.nodes) : T.kept U n.getBlock = true ↔ n.getBlock ∈ U := by
  rw [kept, any_eq_true]
  constructor
  · rintro ⟨m, hm, heq⟩
    rw [← of_decide_eq_true heq]
    exact (mem_filterNodes.mp hm).2
  · exact fun hU => ⟨n, mem_filterNodes.mpr ⟨hn, hU⟩, decide_eq_true rfl⟩

/-- The roots of a restriction are the kept nodes without a kept parent. -/
theorem WF.mem_ofSubset_roots (h : T.WF) :
    m ∈ (T.ofSubset U uninitialized).roots ↔ ∃ n ∈ T.nodes, n.getBlock ∈ U ∧
      (∀ p ∈ T.nodes, p.getBlock ∈ U → ¬ Child p n) ∧ clone (T.kept U) n = m := by
  have hparent : ∀ n ∈ T.nodes, ((filterNodes T.nodes U).any fun parent =>
      parent.getChildren.any fun child => decide (child.getBlock = n.getBlock)) = true ↔
        ∃ p ∈ T.nodes, p.getBlock ∈ U ∧ Child p n := by
    intro n hn
    simp only [any_eq_true, mem_filterNodes, decide_eq_true_eq]
    constructor
    · rintro ⟨p, ⟨hp, hU⟩, c, hc, heq⟩
      rw [← h.node_unique c (child_mem_nodes hp hc) n hn heq]
      exact ⟨p, hp, hU, hc⟩
    · rintro ⟨p, hp, hU, hc⟩
      exact ⟨p, ⟨hp, hU⟩, n, hc, rfl⟩
  simp only [ofSubset, cloneNodes, mem_map, mem_filter, mem_filterNodes, Bool.not_eq_true']
  refine exists_congr fun n => ?_
  constructor
  · rintro ⟨⟨⟨hn, hU⟩, hnot⟩, rfl⟩
    refine ⟨hn, hU, fun p hp hpU hc => ?_, rfl⟩
    exact Bool.false_ne_true (hnot.symm.trans ((hparent n hn).mpr ⟨p, hp, hpU, hc⟩))
  · rintro ⟨hn, hU, hnot, rfl⟩
    refine ⟨⟨⟨hn, hU⟩, Bool.eq_false_iff.mpr fun hany => ?_⟩, rfl⟩
    obtain ⟨p, hp, hpU, hc⟩ := (hparent n hn).mp hany
    exact hnot p hp hpU hc

/-- The nodes of a restriction are copies of those kept. -/
theorem WF.mem_ofSubset_nodes (h : T.WF) :
    m ∈ (T.ofSubset U uninitialized).nodes ↔
      ∃ n ∈ T.nodes, n.getBlock ∈ U ∧ clone (T.kept U) n = m := by
  constructor
  · refine nodes_induct (T := T.ofSubset U uninitialized)
      (P := fun m => ∃ n ∈ T.nodes, n.getBlock ∈ U ∧ clone (T.kept U) n = m) ?_ ?_ m
    · intro m hm
      obtain ⟨n, hn, hU, _, heq⟩ := h.mem_ofSubset_roots.mp hm
      exact ⟨n, hn, hU, heq⟩
    · rintro _ _ ⟨p, hp, _, rfl⟩ c' hc'
      obtain ⟨c, hc, hkept, rfl⟩ := child_clone_iff.mp hc'
      have hmem := child_mem_nodes hp hc
      exact ⟨c, hmem, (kept_iff hmem).mp hkept, rfl⟩
  · rintro ⟨n, hn, hU, rfl⟩
    -- on the way down a kept node either starts a tree or follows a kept parent
    have hroot : ∀ n ∈ T.nodes, n.getBlock ∈ U → (∀ p ∈ T.nodes, p.getBlock ∈ U → ¬ Child p n) →
        clone (T.kept U) n ∈ (T.ofSubset U uninitialized).nodes := fun n hn hU hnot =>
      root_mem_nodes (h.mem_ofSubset_roots.mpr ⟨n, hn, hU, hnot, rfl⟩)
    refine nodes_induct (T := T)
      (P := fun n => n.getBlock ∈ U → clone (T.kept U) n ∈ (T.ofSubset U uninitialized).nodes)
      ?_ ?_ n hn hU
    · intro n hn hU
      exact hroot n (root_mem_nodes hn) hU fun p hp _ => h.root_orphan n hn p hp
    · intro p hp ih c hc hU
      have hmem := child_mem_nodes hp hc
      by_cases hpU : p.getBlock ∈ U
      · exact child_mem_nodes (ih hpU) (child_clone_iff.mpr ⟨c, hc, (kept_iff hmem).mpr hU, rfl⟩)
      · refine hroot c hmem hU fun q hq hqU hqc => hpU ?_
        rwa [h.parent_unique p hp q hq c hc hqc]

theorem WF.ofSubset (h : T.WF) : (T.ofSubset U uninitialized).WF := by
  -- a child of a copy that is a copy itself comes from a child
  have hchild : ∀ p ∈ T.nodes, ∀ c ∈ T.nodes,
      Child (clone (T.kept U) p) (clone (T.kept U) c) → Child p c := by
    intro p hp c hc hpc
    obtain ⟨c', hc', _, heq⟩ := child_clone_iff.mp hpc
    have hblock : c'.getBlock = c.getBlock := by simpa using congrArg getBlock heq
    rwa [← h.node_unique c' (child_mem_nodes hp hc') c hc hblock]
  refine ⟨fun n' hn m' hm heq => ?_, fun p' hp q' hq c' hpc hqc => ?_, fun n' hn p' hp hpn => ?_⟩
  · obtain ⟨n, hnmem, _, rfl⟩ := h.mem_ofSubset_nodes.mp hn
    obtain ⟨m, hmmem, _, rfl⟩ := h.mem_ofSubset_nodes.mp hm
    rw [h.node_unique n hnmem m hmmem (by simpa using heq)]
  · obtain ⟨c, hc, _, rfl⟩ := h.mem_ofSubset_nodes.mp (child_mem_nodes hp hpc)
    obtain ⟨p, hpmem, _, rfl⟩ := h.mem_ofSubset_nodes.mp hp
    obtain ⟨q, hqmem, _, rfl⟩ := h.mem_ofSubset_nodes.mp hq
    rw [h.parent_unique p hpmem q hqmem c (hchild p hpmem c hc hpc) (hchild q hqmem c hc hqc)]
  · obtain ⟨n, hnmem, _, hnot, rfl⟩ := h.mem_ofSubset_roots.mp hn
    obtain ⟨p, hpmem, hpU, rfl⟩ := h.mem_ofSubset_nodes.mp hp
    exact hnot p hpmem hpU (hchild p hpmem n hnmem hpn)

theorem WF.clone_mem_descendants_iff (h : T.WF) (hconvex : T.ConvexSubset U) (hn : n ∈ T.nodes)
    (hm : m ∈ T.nodes) (hnU : n.getBlock ∈ U) (hmU : m.getBlock ∈ U) :
    clone (T.kept U) m ∈ (clone (T.kept U) n).descendants ↔ m ∈ n.descendants := by
  constructor
  · intro hdesc
    obtain ⟨k, hk, heq⟩ := mem_descendants_clone hdesc
    have hblock : k.getBlock = m.getBlock := by simpa using congrArg getBlock heq
    rwa [← h.node_unique k (descendant_mem_nodes hn hk) m hm hblock]
  · intro hdesc
    refine clone_mem_descendants hdesc fun k hk hmk => ?_
    exact (kept_iff (descendant_mem_nodes hn hk)).mpr (hconvex.between n hn k hk m hmk hnU hmU)

/-! ## The answers of the restriction -/

theorem WF.ofSubset_dominatesBlock (h : T.WF) (hconvex : T.ConvexSubset U) {a b : B} (ha : a ∈ U)
    (hb : b ∈ U) : (T.ofSubset U uninitialized).dominatesBlock a b = T.dominatesBlock a b := by
  obtain ⟨n, hn, rfl⟩ := hconvex.subset a ha
  obtain ⟨m, hm, rfl⟩ := hconvex.subset b hb
  have hn' : clone (T.kept U) n ∈ (T.ofSubset U uninitialized).nodes :=
    h.mem_ofSubset_nodes.mpr ⟨n, hn, ha, rfl⟩
  have hm' : clone (T.kept U) m ∈ (T.ofSubset U uninitialized).nodes :=
    h.mem_ofSubset_nodes.mpr ⟨m, hm, hb, rfl⟩
  have hrestricted := h.ofSubset.dominatesBlock_eq hn' hm'
  rw [getBlock_clone, getBlock_clone] at hrestricted
  rw [hrestricted, h.dominatesBlock_eq hn hm, Option.some.injEq, Bool.eq_iff_iff,
    h.ofSubset.dominatesNode_iff hn' hm', h.dominatesNode_iff hn hm,
    h.clone_mem_descendants_iff hconvex hn hm ha hb]

theorem WF.ofSubset_dominates (h : T.WF) (hconvex : T.ConvexSubset U) {I J : Instruction B}
    (hI : I.parent ∈ U) (hJ : J.parent ∈ U) (hsame : I.parent = J.parent → uninitialized = T.post) :
    (T.ofSubset U uninitialized).dominates f I J = T.dominates f I J := by
  unfold DominatorForest.dominates
  by_cases heq : I.parent = J.parent
  · have hpost : (T.ofSubset U uninitialized).post = T.post := hsame heq
    rw [if_pos heq, if_pos heq, hpost]
  · rw [if_neg heq, if_neg heq]
    exact h.ofSubset_dominatesBlock hconvex hI hJ

/-- **Restriction**: the restricted forest answers as the forest does, exactly if its flavour
happens to be that of the forest or no block of the subset has an instruction. -/
theorem ofSubset_sameAnswers_iff (h : T.WF) (hconvex : T.ConvexSubset U) (f : CFG B)
    (uninitialized : Bool) :
    T.SameAnswers (T.ofSubset U uninitialized) U f ↔
      uninitialized = T.post ∨ ∀ b ∈ U, f.size b = 0 := by
  constructor
  · intro hsame
    by_contra hnot
    obtain ⟨hpost, hinst⟩ := not_or.mp hnot
    push Not at hinst
    obtain ⟨b, hb, hsize⟩ := hinst
    have hpos : 0 < f.size b := Nat.pos_of_ne_zero hsize
    have hself := hsame.dominates ⟨b, 0⟩ ⟨b, 0⟩ hb hb hpos hpos
    rw [dominates_of_parent_eq _ rfl hpos hpos, dominates_of_parent_eq _ rfl hpos hpos] at hself
    exact hpost (by simpa [DominatorForest.ofSubset] using hself)
  · intro hcase
    have hflavour : ∀ I J : Instruction B, I.parent ∈ U → I.index < f.size I.parent →
        I.parent = J.parent → uninitialized = T.post := by
      intro I J hI hIf _
      rcases hcase with hpost | hempty
      · exact hpost
      · have hzero := hempty _ hI
        omega
    refine ⟨fun a ha b hb => h.ofSubset_dominatesBlock hconvex ha hb, fun a ha b hb => ?_,
      fun I J hI hJ hIf _ => h.ofSubset_dominates hconvex hI hJ (hflavour I J hI hIf),
      fun I J hI hJ hIf _ => ?_⟩
    · unfold DominatorForest.strictlyDominatesBlock
      rw [h.ofSubset_dominatesBlock hconvex ha hb]
    · unfold DominatorForest.strictlyDominates
      rw [h.ofSubset_dominates hconvex hI hJ (hflavour I J hI hIf)]

end DominatorForest

def ifThenBlocks : PtrSet (Option (Fin 3)) := ⟨[some 0, some 1, some 2], by decide⟩

theorem ifThenBlocks_convex : ifThenPostDominators.ConvexSubset ifThenBlocks where
  subset := by decide
  between := by decide

/-- The copy of a post-dominator forest that is taken for a dominator forest. -/
theorem ofSubset_ifThenPostDominators_not_sameAnswers :
    IsPostDominatorForest ifThenCFG ifThenCFG.IsExit ifThenPostDominators ∧
      ifThenPostDominators.ConvexSubset ifThenBlocks ∧
      ¬ ifThenPostDominators.SameAnswers (ifThenPostDominators.ofSubset ifThenBlocks false)
        ifThenBlocks ifThenCFG.withNull := by
  refine ⟨ifThenPostDominators_spec, ifThenBlocks_convex, fun h => ?_⟩
  have hself := h.dominates ⟨some 2, 0⟩ ⟨some 2, 0⟩ (by decide) (by decide) (by decide) (by decide)
  exact absurd hself (by decide)

theorem ofSubset_sameAnswers_iff_ifThenPostDominators :
    ifThenPostDominators.SameAnswers (ifThenPostDominators.ofSubset ifThenBlocks true) ifThenBlocks
        ifThenCFG.withNull ↔
      true = ifThenPostDominators.post ∨ ∀ b ∈ ifThenBlocks, ifThenCFG.withNull.size b = 0 :=
  DominatorForest.ofSubset_sameAnswers_iff ifThenPostDominators_spec.wf ifThenBlocks_convex
    ifThenCFG.withNull true

end Noelle
