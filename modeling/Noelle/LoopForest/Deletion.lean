import Noelle.Lib.Ancestors
import Noelle.LoopForest.Trees

/-!
# LoopForest.Deletion

Destroying nodes of a loop forest.

The destructor splices a node out of the parent relation: its children move to its
parent, or become trees.  So the ancestors of a node that is left are its old ancestors
that are left, for every order in which nodes are destroyed.
-/

namespace Noelle

open Function Relation PtrSet List Option

namespace LoopForest

variable {F B : Type} [DecidableEq F] [DecidableEq B] {ord : IterOrder} {f f' : LoopForest F B}
  {n m p : Nat} {this c : LoopTreeNode F B}

/-! ## The destructor -/

omit [DecidableEq F] [DecidableEq B] in
/-- The children all move to the parent. -/
theorem foldlM_moveToParent {l : List Nat} (hp : f.heap p = some c) (hpl : p ∉ l)
    (hlive : ∀ m ∈ l, ∃ d, f.heap m = some d) :
    ∃ heap', l.foldlM (moveToParent p) f = some { f with heap := heap' } ∧
      ∀ m, heap' m = if m = p then some { c with children := c.children.insertAll l }
        else if m ∈ l then (f.heap m).map fun d => { d with parent := some p } else f.heap m := by
  have hloop : ∃ s, l.foldlM (moveToParent p) f = some s ∧ ∃ heap', s = { f with heap := heap' } ∧
      ∀ m, heap' m = if m = p then some { c with children := c.children.insertAll l }
        else if m ∈ l then (f.heap m).map fun d => { d with parent := some p } else f.heap m := by
    refine foldlM_rule _ (fun (pre : List Nat) s => ∃ heap', s = { f with heap := heap' } ∧
      ∀ m, heap' m = if m = p then some { c with children := c.children.insertAll pre }
        else if m ∈ pre then (f.heap m).map fun d => { d with parent := some p } else f.heap m)
      ⟨f.heap, rfl, fun m => ?_⟩ ?_
    · by_cases hm : m = p <;> simp [hm, hp, PtrSet.insertAll]
    · rintro pre a post s rfl ⟨heap', rfl, hheap⟩
      have hap : a ≠ p := fun h => hpl (by simp [h])
      obtain ⟨d, hd⟩ := hlive a (by simp)
      -- an object that was met before already has the new parent
      have ha : ∃ d', heap' a = some d' ∧ { d' with parent := some p } =
          ({ d with parent := some p } : LoopTreeNode F B) := by
        rw [hheap, if_neg hap, hd]
        by_cases hpre : a ∈ pre <;> simp [hpre]
      obtain ⟨d', ha, hd'⟩ := ha
      have hp' : heap' p = some { c with children := c.children.insertAll pre } := by
        rw [hheap, if_pos rfl]
      refine ⟨_, ?_, update (update heap' a (some { d with parent := some p })) p
        (some { c with children := (c.children.insertAll pre).insert a }), rfl, fun m => ?_⟩
      · simp only [moveToParent, ha, bind_eq_bind, bind_some, setNode, hd', hp',
          update_of_ne hap.symm]
        rfl
      · by_cases hmp : m = p
        · subst hmp
          simp [PtrSet.insertAll]
        · rw [update_of_ne hmp, if_neg hmp]
          by_cases hma : m = a
          · subst hma
            simp [hd]
          · rw [update_of_ne hma, hheap, if_neg hmp]
            simp [hma]
  obtain ⟨s, hs, heap', rfl, hheap⟩ := hloop
  exact ⟨heap', hs, hheap⟩

omit [DecidableEq F] [DecidableEq B] in
/-- The children all become trees. -/
theorem foldlM_promote {l : List Nat} (hnodup : l.Nodup) (htrees : ∀ m ∈ l, m ∉ f.trees)
    (hlive : ∀ m ∈ l, ∃ d, f.heap m = some d) :
    ∃ heap', l.foldlM promote f = some { f with heap := heap', trees := f.trees.insertAll l } ∧
      ∀ m, heap' m = if m ∈ l then (f.heap m).map fun d => { d with parent := none }
        else f.heap m := by
  have hloop : ∃ s, l.foldlM promote f = some s ∧
      ∃ heap', s = { f with heap := heap', trees := f.trees.insertAll l } ∧
      ∀ m, heap' m = if m ∈ l then (f.heap m).map fun d => { d with parent := none }
        else f.heap m := by
    refine foldlM_rule _ (fun (pre : List Nat) s =>
      ∃ heap', s = { f with heap := heap', trees := f.trees.insertAll pre } ∧
      ∀ m, heap' m = if m ∈ pre then (f.heap m).map fun d => { d with parent := none }
        else f.heap m) ⟨f.heap, rfl, fun m => by simp⟩ ?_
    rintro pre a post s rfl ⟨heap', rfl, hheap⟩
    obtain ⟨d, hd⟩ := hlive a (by simp)
    have hapre : a ∉ pre := fun h =>
      (nodup_append.mp hnodup).2.2 a h a (.head _) rfl
    have ha : heap' a = some d := by rw [hheap, if_neg hapre, hd]
    have hatrees : a ∉ f.trees.insertAll pre := fun h =>
      (mem_insertAll.mp h).elim (htrees a (by simp)) hapre
    refine ⟨{ f with
      heap := update heap' a (some { d with parent := none })
      trees := (f.trees.insertAll pre).insert a }, ?_,
      update heap' a (some { d with parent := none }), ?_, fun m => ?_⟩
    · simp only [promote, ha, bind_eq_bind, bind_some, setNode, addTree]
      exact if_neg hatrees
    · simp [PtrSet.insertAll]
    · by_cases hma : m = a
      · subst hma
        simp [hd]
      · rw [update_of_ne hma, hheap]
        simp [hma]
  obtain ⟨s, hs, heap', rfl, hheap⟩ := hloop
  exact ⟨heap', hs, hheap⟩

/-- The objects after one `delete`. -/
structure DeletedHeap (f : LoopForest F B) (n : Nat) (this : LoopTreeNode F B)
    (f' : LoopForest F B) : Prop where
  freed : f'.heap n = none
  dead : ∀ m, f.heap m = none → f'.heap m = none
  live : ∀ m, m ≠ n → ∀ c, f.heap m = some c → ∃ children, f'.heap m =
    some ⟨c.loop, if c.parent = some n then this.parent else c.parent, children⟩ ∧
      ∀ x, x ∈ children ↔ x ≠ n ∧ (x ∈ c.children ∨ (this.parent = some m ∧ x ∈ this.children))
  trees : ∀ m, m ∈ f'.trees ↔ m ≠ n ∧ (m ∈ f.trees ∨ (this.parent = none ∧ m ∈ this.children))
  nextNode : f'.nextNode = f.nextNode
  nodes : f'.nodes = f.nodes
  headerLoops : f'.headerLoops = f.headerLoops

section Destructor

variable (ord)

omit [DecidableEq F] [DecidableEq B]

/-- A set without the node stays as it is. -/
theorem mem_iff_of_kept {s t : PtrSet Nat} {q : Prop} (hs : n ∉ s) (hq : ¬ q) :
    m ∈ s ↔ m ≠ n ∧ (m ∈ s ∨ (q ∧ m ∈ t)) := by
  rw [or_iff_left fun hm => hq hm.1]
  exact (and_iff_right_of_imp fun hm (heq : m = n) => hs (heq ▸ hm)).symm

section

variable (h : f.Nested) (hn : f.heap n = some this)

include h hn

theorem Nested.child_iff (hc : f.heap m = some c) :
    m ∈ this.children ↔ c.parent = some n :=
  (h.mirror n this hn m).trans (parent_iff_of_live hc)

theorem Nested.child_live (hm : m ∈ this.children) :
    ∃ d, f.heap m = some d :=
  ((h.mirror n this hn m).mp hm).imp fun _ hd => hd.1

theorem Nested.not_mem_children : n ∉ this.children :=
  fun hmem => h.acyclic n (.single ((h.mirror n this hn n).mp hmem))

/-- The children of the node take its place in a set. -/
theorem Nested.mem_promoted {s : PtrSet Nat} :
    m ∈ (s.erase n).insertAll (ord.visit this.children.elems) ↔
      m ≠ n ∧ (m ∈ s ∨ m ∈ this.children) := by
  rw [mem_insertAll, mem_erase, ord.mem_visit, mem_elems, and_or_left]
  refine or_congr_right (and_iff_right_of_imp ?_).symm
  rintro hm rfl
  exact h.not_mem_children hn hm

/-- An object that is left after its parent went: only its own parent changed. -/
theorem Nested.moved_live (hc : f.heap m = some c) (q : Option Nat) :
    (if m ∈ ord.visit this.children.elems then (f.heap m).map fun d => { d with parent := q }
      else f.heap m) = some ⟨c.loop, if c.parent = some n then q else c.parent, c.children⟩ := by
  have hmoved : m ∈ ord.visit this.children.elems ↔ c.parent = some n := by
    rw [ord.mem_visit, mem_elems, h.child_iff hn hc]
  rw [hc]
  by_cases hcn : c.parent = some n
  · rw [if_pos (hmoved.mpr hcn), if_pos hcn]
    rfl
  · rw [if_neg fun hmem => hcn (hmoved.mp hmem), if_neg hcn]

/-- The destructor of a node that has a parent moves the children there. -/
theorem deleteNode_heap_child (hparent : this.parent = some p) :
    ∃ f', f.deleteNode ord n = some f' ∧ DeletedHeap f n this f' := by
  have hnp : f.Parent n p := ⟨this, hn, hparent⟩
  obtain ⟨pc, hpc⟩ := h.parent_live n p hnp
  have hpchild : p ∉ ord.visit this.children.elems := fun hmem =>
    h.acyclic n (.tail (.single hnp) ((h.mirror n this hn p).mp (ord.mem_visit.mp hmem)))
  have hnpc : n ∈ pc.children := (h.mirror p pc hpc n).mpr hnp
  let f₁ := f.setNode p { pc with children := pc.children.erase n }
  have hother : ∀ m, m ≠ p → f₁.heap m = f.heap m := fun m hm => update_of_ne hm _ _
  obtain ⟨heap', hfold, hheap⟩ := foldlM_moveToParent
    (f := f₁) (c := { pc with children := pc.children.erase n }) (update_self ..)
    hpchild fun m hm => by
      rw [hother m fun heq => hpchild (heq ▸ hm)]
      exact h.child_live hn (ord.mem_visit.mp hm)
  refine ⟨{ f₁ with heap := update heap' n none }, ?_,
    ⟨update_self .., fun m hm => ?_, fun m hmn c hc => ?_, fun m => ?_, rfl, rfl, rfl⟩⟩
  · simp only [deleteNode, hn, hparent, hpc, hnpc, bind_eq_bind, bind_some,
      not_true_eq_false, if_false, free]
    exact (congrArg (Option.bind · _) hfold).trans rfl
  · show update heap' n none m = none
    by_cases hmn : m = n
    · exact hmn ▸ update_self ..
    · have hmp : m ≠ p := fun heq => by simp [heq, hpc] at hm
      rw [update_of_ne hmn, hheap, if_neg hmp, hother m hmp]
      simp [hm]
  · dsimp only
    rw [update_of_ne hmn, hheap]
    by_cases hmp : m = p
    · subst hmp
      obtain rfl := mem_unique hpc hc
      have hnot : ¬ pc.parent = some n := fun hpn => h.acyclic n
        (.tail (.single hnp) ⟨pc, hpc, hpn⟩)
      refine ⟨_, by rw [if_pos rfl, if_neg hnot], fun x => ?_⟩
      rw [h.mem_promoted ord hn, and_iff_right hparent]
    · have hnc : n ∉ c.children := fun hmem =>
        hmp (((h.mirror m c hc n).mp hmem).unique hnp)
      rw [if_neg hmp, hother m hmp, h.moved_live ord hn hc, hparent]
      exact ⟨_, rfl, fun x => mem_iff_of_kept hnc fun heq => hmp (some.inj heq).symm⟩
  · have hnt : n ∉ f.trees := fun hmem => by
      obtain ⟨d, hd, hdn⟩ := (h.trees n).mp hmem
      obtain rfl := mem_unique hd hn
      simp [hparent] at hdn
    exact mem_iff_of_kept hnt fun hnone => absurd (hparent.symm.trans hnone) (by simp)

/-- The destructor of a root makes every child a tree. -/
theorem deleteNode_heap_tree (hparent : this.parent = none) :
    ∃ f', f.deleteNode ord n = some f' ∧ DeletedHeap f n this f' := by
  have hnt : n ∈ f.trees := (h.trees n).mpr ⟨this, hn, hparent⟩
  let f₁ : LoopForest F B := { f with trees := f.trees.erase n }
  have hnottree : ∀ m ∈ ord.visit this.children.elems, m ∉ f₁.trees := fun m hm hmem => by
    obtain ⟨e, he, hen⟩ := (h.trees m).mp (mem_erase.mp hmem).2
    exact absurd (((h.child_iff hn he).mp (ord.mem_visit.mp hm)).symm.trans hen) (by simp)
  obtain ⟨heap', hfold, hheap⟩ := foldlM_promote (f := f₁)
    (ord.nodup_visit this.children.nodup) hnottree fun m hm => h.child_live hn (ord.mem_visit.mp hm)
  have hleft : ∀ m, m ≠ n → update heap' n none m =
      if m ∈ ord.visit this.children.elems then (f.heap m).map fun d => { d with parent := none }
        else f.heap m := fun m hmn => (update_of_ne hmn _ _).trans (hheap m)
  refine ⟨{ f₁ with
    heap := update heap' n none
    trees := (f.trees.erase n).insertAll (ord.visit this.children.elems) }, ?_,
    ⟨update_self .., fun m hm => ?_, fun m hmn c hc => ?_, fun m => ?_, rfl, rfl, rfl⟩⟩
  · simp only [deleteNode, hn, hparent, removeTree, hnt, bind_eq_bind, bind_some,
      if_true, free]
    exact (congrArg (Option.bind · _) hfold).trans rfl
  · show update heap' n none m = none
    by_cases hmn : m = n
    · exact hmn ▸ update_self ..
    · rw [hleft m hmn]
      simp [hm]
  · have hnc : n ∉ c.children := fun hmem => by
      have hthis := (h.child_iff hc hn).mp hmem
      simp [hparent] at hthis
    dsimp only
    rw [hleft m hmn, h.moved_live ord hn hc, hparent]
    exact ⟨_, rfl, fun x => mem_iff_of_kept hnc (by simp)⟩
  · show m ∈ (f.trees.erase n).insertAll _ ↔ _
    rw [h.mem_promoted ord hn, and_iff_right hparent]

theorem deleteNode_heap :
    ∃ f', f.deleteNode ord n = some f' ∧ DeletedHeap f n this f' := by
  cases hparent : this.parent with
  | some p => exact deleteNode_heap_child ord h hn hparent
  | none => exact deleteNode_heap_tree ord h hn hparent

end

end Destructor

namespace DeletedHeap

omit [DecidableEq F] [DecidableEq B]

theorem of_live (h : DeletedHeap f n this f') {c' : LoopTreeNode F B} (hc' : f'.heap m = some c') :
    m ≠ n ∧ ∃ c, f.heap m = some c ∧ c'.loop = c.loop ∧
      c'.parent = (if c.parent = some n then this.parent else c.parent) ∧
      ∀ x, x ∈ c'.children ↔
        x ≠ n ∧ (x ∈ c.children ∨ (this.parent = some m ∧ x ∈ this.children)) := by
  have hmn : m ≠ n := fun heq => by simp [heq, h.freed] at hc'
  cases hc : f.heap m with
  | none => simp [h.dead m hc] at hc'
  | some c =>
      obtain ⟨children, hm, hmem⟩ := h.live m hmn c hc
      obtain rfl := mem_unique hm hc'
      exact ⟨hmn, c, rfl, rfl, rfl, hmem⟩

theorem parent_iff (h : DeletedHeap f n this f') (hf : f.Nested) (hn : f.heap n = some this) :
    f'.Parent m p ↔ Splice f.Parent n m p := by
  constructor
  · rintro ⟨c', hc', hp⟩
    obtain ⟨hmn, c, hc, -, hparent, -⟩ := h.of_live hc'
    rw [hp] at hparent
    by_cases hcn : c.parent = some n
    · rw [if_pos hcn] at hparent
      have hnp : f.Parent n p := (parent_iff_of_live hn).mpr hparent.symm
      exact ⟨hmn, fun heq => hf.acyclic n (.single (heq ▸ hnp)), .inr ⟨⟨c, hc, hcn⟩, hnp⟩⟩
    · rw [if_neg hcn] at hparent
      exact ⟨hmn, fun heq => hcn (heq ▸ hparent.symm), .inl ⟨c, hc, hparent.symm⟩⟩
  · rintro ⟨hmn, hpn, ⟨c, hc, hcp⟩ | ⟨⟨c, hc, hcn⟩, hnp⟩⟩
    · obtain ⟨children, hm, -⟩ := h.live m hmn c hc
      refine ⟨_, hm, ?_⟩
      have hcn : c.parent ≠ some n := fun hcn => hpn (mem_unique hcp hcn)
      exact (if_neg hcn).trans hcp
    · obtain ⟨children, hm, -⟩ := h.live m hmn c hc
      exact ⟨_, hm, (if_pos hcn).trans ((parent_iff_of_live hn).mp hnp)⟩

/-- Deleting a node keeps the forest nested. -/
theorem nested (h : DeletedHeap f n this f') (hf : f.Nested) (hn : f.heap n = some this) :
    f'.Nested := by
  refine ⟨fun p c' hc' x => ?_, fun m p hmp => ?_, fun m => (h.trees m).trans ?_, fun m hmm => ?_,
    fun m hm => h.dead m (hf.fresh m (h.nextNode ▸ hm))⟩
  · obtain ⟨hpn, c, hc, -, -, hmem⟩ := h.of_live hc'
    rw [hmem, h.parent_iff hf hn, hf.mirror p c hc, hf.mirror n this hn, ← parent_iff_of_live hn]
    unfold Splice
    tauto
  · obtain ⟨-, hpn, hor⟩ := (h.parent_iff hf hn).mp hmp
    have hlive : ∃ c, f.heap p = some c :=
      hor.elim (hf.parent_live m p) fun hnp => hf.parent_live n p hnp.2
    obtain ⟨c, hc⟩ := hlive
    obtain ⟨children, hp, -⟩ := h.live p hpn c hc
    exact ⟨_, hp⟩
  · rw [hf.trees, hf.mirror n this hn]
    constructor
    · rintro ⟨hmn, ⟨c, hc, hroot⟩ | ⟨hroot, c, hc, hcn⟩⟩
      · obtain ⟨children, hm, -⟩ := h.live m hmn c hc
        have hcn : c.parent ≠ some n := fun hcn => by simp [hroot] at hcn
        exact ⟨_, hm, (if_neg hcn).trans hroot⟩
      · obtain ⟨children, hm, -⟩ := h.live m hmn c hc
        exact ⟨_, hm, (if_pos hcn).trans hroot⟩
    · rintro ⟨c', hc', hroot⟩
      obtain ⟨hmn, c, hc, -, hparent, -⟩ := h.of_live hc'
      rw [hroot] at hparent
      by_cases hcn : c.parent = some n
      · exact ⟨hmn, .inr ⟨(hparent.trans (if_pos hcn)).symm, c, hc, hcn⟩⟩
      · exact ⟨hmn, .inl ⟨c, hc, (hparent.trans (if_neg hcn)).symm⟩⟩
  · have hiff : f'.Parent = Splice f.Parent n := by
      funext m p
      exact propext (h.parent_iff hf hn)
    rw [hiff, transGen_splice fun hnn => hf.acyclic n (.single hnn)] at hmm
    exact hf.acyclic m hmm.1

end DeletedHeap

/-! ## Destroying several nodes -/

/-- The forest without the nodes of a list. -/
structure Without (f : LoopForest F B) (deleted : List Nat) (f' : LoopForest F B) : Prop where
  nested : f'.Nested
  heap : ∀ m, (f'.heap m).map (·.loop) = if m ∈ deleted then none else (f.heap m).map (·.loop)
  ancestor : ∀ m a, TransGen f'.Parent m a ↔ TransGen f.Parent m a ∧ m ∉ deleted ∧ a ∉ deleted
  nextNode : f'.nextNode = f.nextNode
  nodes : f'.nodes = f.nodes
  headerLoops : f'.headerLoops = f.headerLoops

variable (ord) in
omit [DecidableEq F] [DecidableEq B] in
/-- Live nodes can be deleted one after the other. -/
theorem foldlM_deleteNode (hf : f.Nested) {toDelete : List Nat} (hnodup : toDelete.Nodup)
    (hlive : ∀ n ∈ toDelete, ∃ c, f.heap n = some c) :
    ∃ f', toDelete.foldlM (deleteNode ord) f = some f' ∧ Without f toDelete f' := by
  refine foldlM_rule _ (fun (pre : List Nat) s => Without f pre s)
    ⟨hf, fun m => by simp, fun m a => by simp, rfl, rfl, rfl⟩ ?_
  rintro pre n post s rfl hs
  have hnpre : n ∉ pre := fun h => (nodup_append.mp hnodup).2.2 n h n (.head _) rfl
  have hn : ∃ this, s.heap n = some this := by
    obtain ⟨c, hc⟩ := hlive n (by simp)
    have hloop := hs.heap n
    rw [if_neg hnpre, hc] at hloop
    obtain ⟨this, hthis, -⟩ := map_eq_some_iff.mp hloop
    exact ⟨this, hthis⟩
  obtain ⟨this, hn⟩ := hn
  obtain ⟨s', hs', hheap⟩ := deleteNode_heap ord hs.nested hn
  refine ⟨s', hs', hheap.nested hs.nested hn, fun m => ?_, fun m a => ?_,
    hheap.nextNode.trans hs.nextNode, hheap.nodes.trans hs.nodes, hheap.headerLoops.trans hs.headerLoops⟩
  · by_cases hmn : m = n
    · simp [hmn, hheap.freed]
    · have hsame : (s'.heap m).map (·.loop) = (s.heap m).map (·.loop) := by
        cases hc : s.heap m with
        | none => rw [hheap.dead m hc]
        | some c =>
            obtain ⟨children, hm, -⟩ := hheap.live m hmn c hc
            rw [hm]
            rfl
      rw [hsame, hs.heap]
      simp [hmn]
  · have hiff : s'.Parent = Splice s.Parent n := by
      funext m p
      exact propext (hheap.parent_iff hs.nested hn)
    rw [hiff, transGen_splice (fun hnn => hs.nested.acyclic n (.single hnn)), hs.ancestor]
    simp only [mem_append, mem_singleton, not_or]
    tauto

end LoopForest

end Noelle
