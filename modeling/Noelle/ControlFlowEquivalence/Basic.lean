import Noelle.ControlFlowEquivalence.Regions
import Noelle.Lib.Loop
import Noelle.Lib.Classes

/-!
# ControlFlowEquivalence.Basic

The sets of control equivalent blocks of a function: `ControlFlowEquivalence`.

The blocks that the start blocks reach get a set of their own each.  Then the dominator tree is
walked from the start blocks, and the set of a block is merged into that of the first block on
its way up the post-dominator tree that is in the same innermost loop.  The way ends where a
parent in the post-dominator tree is no child in the dominator tree.
-/

namespace Noelle

open Function PtrSet

variable {F B : Type} [DecidableEq B]

/-- `ControlFlowEquivalence`.  The pointer of a set is its place in `equivalentBBs`, which
owns it. -/
structure ControlFlowEquivalence (B : Type) where
  equivalentBBs : List (PtrSet B)
  bbToEquivalence : B → Option Nat

namespace ControlFlowEquivalence

/-- No block has a set. -/
def empty : ControlFlowEquivalence B := ⟨[], fun _ => none⟩

/-- `ControlFlowEquivalence::getEquivalences`.  `at` throws where there is no set. -/
def getEquivalences (e : ControlFlowEquivalence B) (bb : B) : Option (PtrSet B) :=
  (e.bbToEquivalence bb).bind fun bbSet => e.equivalentBBs[bbSet]?

def createEquivalenceSet (e : ControlFlowEquivalence B) (singleB : B) : ControlFlowEquivalence B where
  equivalentBBs := e.equivalentBBs ++ [PtrSet.ofList [singleB]]
  bbToEquivalence := update e.bbToEquivalence singleB (some e.equivalentBBs.length)

def mergeEquivalenceSets (ord : IterOrder) (e : ControlFlowEquivalence B) (x y : B) :
    Option (ControlFlowEquivalence B) := do
  let xSet ← e.bbToEquivalence x
  let ySet ← e.bbToEquivalence y
  let xBBs ← e.equivalentBBs[xSet]?
  let yBBs ← e.equivalentBBs[ySet]?
  let equivalentBBs := e.equivalentBBs.set ySet (yBBs.insertAll (ord.visit xBBs.elems))
  let xBBs ← equivalentBBs[xSet]?
  return {
    equivalentBBs
    bbToEquivalence := (ord.visit xBBs.elems).foldl
      (fun bbToEquivalence v => update bbToEquivalence v (bbToEquivalence y))
      e.bbToEquivalence }

/-! ## Trivial equivalence sets -/

/-- The loop over `bbWorklist`. -/
structure Creation (B : Type) where
  bbWorklist : List B
  bbSeen : PtrSet B
  result : ControlFlowEquivalence B

/-- One block of `bbWorklist`. -/
def createNext (f : CFG B) (endBBs : PtrSet B) (s : Creation B) : Option (Creation B) :=
  match s.bbWorklist with
  | [] => none
  | b :: bbWorklist =>
      if b ∈ s.bbSeen then some { s with bbWorklist }
      else if b ∈ endBBs then some { s with bbWorklist }
      else
        some {
          bbWorklist := bbWorklist ++ f.successors b
          bbSeen := s.bbSeen.insert b
          result := s.result.createEquivalenceSet b }

/-- Create trivial equivalence sets. -/
def createTrivialSets (fuel : Nat) (ord : IterOrder) (f : CFG B) (startBBs endBBs : PtrSet B) :
    Option (ControlFlowEquivalence B) :=
  (loopM (fun s => !s.bbWorklist.isEmpty) (createNext f endBBs) fuel
    ⟨ord.visit startBBs.elems, ∅, empty⟩).map (·.result)

/-! ## Merged equivalence sets -/

def childrenBlocks (n : DominatorNode B) : PtrSet B :=
  PtrSet.ofList (n.getChildren.map (·.getBlock))

/-- The two blocks are in no loop, or in the same innermost loop. -/
def inSameInnermostLoop (loops : LoopTree F B) (dtBlock pdtBlock : B) : Bool :=
  let dtBlockLoop := loops.getInnermostLoopThatContains dtBlock
  let pdtBlockLoop := loops.getInnermostLoopThatContains pdtBlock
  let dtBlockInLoop := dtBlockLoop.isSome
  let pdtBlockInLoop := pdtBlockLoop.isSome
  if xor dtBlockInLoop pdtBlockInLoop then false
  else if dtBlockInLoop && pdtBlockInLoop &&
      decide (dtBlockLoop.map (·.self) ≠ pdtBlockLoop.map (·.self)) then false
  else true

/-- The loop over the parents in the post-dominator tree: the block that `dtBlock` is merged
with, if any. -/
def findPartner (DT : DominatorForest B) (PDT : DominatorForest (Option B)) (loops : LoopTree F B)
    (dtBlock : B) : Nat → Option (DominatorNode (Option B)) → PtrSet B → Option (Option B)
  | _, none, _ => some none
  | 0, some _, _ => none
  | fuel + 1, some pdtParentNode, dtChildrenBlocks =>
      match pdtParentNode.getBlock with
      -- the root of the post-dominator tree has the null block, which is no child
      | none => some none
      | some pdtBlock =>
          if pdtBlock ∉ dtChildrenBlocks then some none
          else
            (DT.getNode pdtBlock).bind fun node =>
              if inSameInnermostLoop loops dtBlock pdtBlock then some (some pdtBlock)
              else findPartner DT PDT loops dtBlock fuel (PDT.getParent pdtParentNode)
                (childrenBlocks node)

/-- The loop over `dtWorklist`. -/
structure Merging (B : Type) where
  dtWorklist : List (DominatorNode B)
  result : ControlFlowEquivalence B

/-- One node of `dtWorklist`. -/
def mergeNext (fuel : Nat) (ord : IterOrder) (DT : DominatorForest B)
    (PDT : DominatorForest (Option B)) (loops : LoopTree F B) (endBBs : PtrSet B) (s : Merging B) :
    Option (Merging B) :=
  match s.dtWorklist with
  | [] => none
  | dtNode :: dtWorklist =>
      let dtBlock := dtNode.getBlock
      if dtBlock ∈ endBBs then some { s with dtWorklist }
      else do
        let pdtNode ← PDT.getNode (some dtBlock)
        let partner ←
          findPartner DT PDT loops dtBlock fuel (PDT.getParent pdtNode) (childrenBlocks dtNode)
        let result ←
          match partner with
          | none => some s.result
          | some pdtBlock => s.result.mergeEquivalenceSets ord dtBlock pdtBlock
        return ⟨dtWorklist ++ dtNode.getChildren, result⟩

def calculateControlFlowEquivalences (fuel : Nat) (ord : IterOrder) (f : CFG B)
    (DT : DominatorForest B) (PDT : DominatorForest (Option B)) (loops : LoopTree F B)
    (startBBs endBBs : PtrSet B) : Option (ControlFlowEquivalence B) := do
  let result ← createTrivialSets fuel ord f startBBs endBBs
  let dtWorklist ← (ord.visit startBBs.elems).mapM DT.getNode
  let s ← loopM (fun s => !s.dtWorklist.isEmpty) (mergeNext fuel ord DT PDT loops endBBs) fuel
    ⟨dtWorklist, result⟩
  return s.result

/-- The constructor for a function. -/
def ofFunction (fuel : Nat) (ord : IterOrder) (f : CFG B) (functionEntry : B)
    (DT : DominatorForest B) (PDT : DominatorForest (Option B)) (loops : LoopTree F B) :
    Option (ControlFlowEquivalence B) :=
  calculateControlFlowEquivalences fuel ord f DT PDT loops (PtrSet.ofList [functionEntry]) ∅

/-! ## The sets as classes -/

/-- The blocks of `U` have sets, which number the classes that `r` generates. -/
structure Groups (U : B → Prop) (r : B → B → Prop) (e : ControlFlowEquivalence B) : Prop where
  isSome_iff : ∀ b, (e.bbToEquivalence b).isSome = true ↔ U b
  getElem : ∀ b s, e.bbToEquivalence b = some s →
    ∃ bbs, e.equivalentBBs[s]? = some bbs ∧ ∀ c, c ∈ bbs ↔ e.bbToEquivalence c = some s
  separates : Separates U r e.bbToEquivalence

namespace Groups

variable {U : B → Prop} {r : B → B → Prop} {e : ControlFlowEquivalence B} {b x y : B}

section

omit [DecidableEq B]

theorem exists_set (h : Groups U r e) (hb : U b) : ∃ s bbs, e.bbToEquivalence b = some s ∧
    e.equivalentBBs[s]? = some bbs ∧ ∀ c, c ∈ bbs ↔ e.bbToEquivalence c = some s := by
  obtain ⟨s, hs⟩ := Option.isSome_iff_exists.mp ((h.isSome_iff b).mpr hb)
  obtain ⟨bbs, hbbs, hmem⟩ := h.getElem b s hs
  exact ⟨s, bbs, hs, hbbs, hmem⟩

theorem lt_length (h : Groups U r e) {s : Nat} (hs : e.bbToEquivalence b = some s) :
    s < e.equivalentBBs.length := by
  obtain ⟨bbs, hbbs, _⟩ := h.getElem b s hs
  exact (List.getElem?_eq_some_iff.mp hbbs).1

theorem getEquivalences (h : Groups U r e) (hb : U b) :
    ∃ bbs, e.getEquivalences b = some bbs ∧ ∀ c, c ∈ bbs ↔ U c ∧ Relation.EqvGen r b c := by
  obtain ⟨s, bbs, hs, hbbs, hmem⟩ := h.exists_set hb
  refine ⟨bbs, by rw [ControlFlowEquivalence.getEquivalences, hs, Option.bind_some, hbbs], fun c => ?_⟩
  rw [hmem]
  constructor
  · intro hc
    have hUc := (h.isSome_iff c).mp (Option.isSome_iff_exists.mpr ⟨s, hc⟩)
    exact ⟨hUc, (h.separates b c hb hUc).mp (hs.trans hc.symm)⟩
  · rintro ⟨hUc, hbc⟩
    exact ((h.separates b c hb hUc).mpr hbc).symm.trans hs

theorem getEquivalences_of_mem (h : Groups U r e) {bbs : PtrSet B}
    (hbbs : e.getEquivalences b = some bbs) :
    b ∈ bbs ∧ ∀ c ∈ bbs, e.getEquivalences c = some bbs := by
  obtain ⟨s, hs, hget⟩ := Option.bind_eq_some_iff.mp hbbs
  obtain ⟨bbs', hbbs', hmem⟩ := h.getElem b s hs
  obtain rfl := Option.mem_unique hbbs' hget
  refine ⟨(hmem b).mpr hs, fun c hc => ?_⟩
  rw [ControlFlowEquivalence.getEquivalences, (hmem c).mp hc, Option.bind_some, hget]

theorem getEquivalences_none (h : Groups U r e) (hb : ¬ U b) : e.getEquivalences b = none := by
  have hnone := Option.not_isSome_iff_eq_none.mp (mt (h.isSome_iff b).mp hb)
  rw [ControlFlowEquivalence.getEquivalences, hnone, Option.bind_none]

end

/-- A block without a set gets one of its own. -/
theorem createEquivalenceSet (h : Groups U (fun _ _ => False) e) (hb : ¬ U b) :
    Groups (fun c => c = b ∨ U c) (fun _ _ => False) (e.createEquivalenceSet b) := by
  have hnew : ∀ c, U c → e.bbToEquivalence c ≠ some e.equivalentBBs.length := fun c _ hs =>
    absurd (h.lt_length hs) (Nat.lt_irrefl _)
  have hmap : ∀ c, (e.createEquivalenceSet b).bbToEquivalence c =
      if c = b then some e.equivalentBBs.length else e.bbToEquivalence c := fun c =>
    update_apply ..
  refine ⟨fun c => ?_, fun c s hs => ?_, fun c d hc hd => ?_⟩
  · rw [hmap]
    by_cases hcb : c = b
    · simp [hcb]
    · rw [if_neg hcb, h.isSome_iff]
      simp [hcb]
  · rw [hmap] at hs
    by_cases hcb : c = b
    · rw [if_pos hcb] at hs
      cases hs
      refine ⟨PtrSet.ofList [b], List.getElem?_concat_length, fun d => ?_⟩
      rw [hmap, mem_ofList, List.mem_singleton]
      by_cases hdb : d = b
      · simp [hdb]
      · rw [if_neg hdb]
        exact iff_of_false hdb fun hs => absurd (h.lt_length hs) (Nat.lt_irrefl _)
    · rw [if_neg hcb] at hs
      obtain ⟨bbs, hbbs, hmem⟩ := h.getElem c s hs
      have hlt := h.lt_length hs
      refine ⟨bbs, (List.getElem?_append_left hlt).trans hbbs, fun d => ?_⟩
      rw [hmap, hmem]
      by_cases hdb : d = b
      · rw [if_pos hdb, hdb]
        refine iff_of_false (fun hs => hb ((h.isSome_iff b).mp ?_)) ?_
        · exact Option.isSome_iff_exists.mpr ⟨s, hs⟩
        · exact fun hs => hlt.ne (Option.some.inj hs).symm
      · rw [if_neg hdb]
  · rw [hmap, hmap]
    rw [eqvGen_false]
    rcases hc with rfl | hc <;> rcases hd with rfl | hd
    · simp
    · have hdc : d ≠ c := fun h => hb (h ▸ hd)
      rw [if_pos rfl, if_neg hdc]
      exact iff_of_false (fun h => hnew d hd h.symm) (Ne.symm hdc)
    · have hcd : c ≠ d := fun h => hb (h ▸ hc)
      rw [if_neg hcd, if_pos rfl]
      exact iff_of_false (hnew c hc) hcd
    · have hcb : c ≠ b := fun h => hb (h ▸ hc)
      have hdb : d ≠ b := fun h => hb (h ▸ hd)
      rw [if_neg hcb, if_neg hdb, h.separates c d hc hd, eqvGen_false]

theorem foldl_update {m : B → Option Nat} (l : List B) (y v : B) :
    l.foldl (fun m v => update m v (m y)) m v = if v ∈ l then m y else m v := by
  induction l generalizing m with
  | nil => simp
  | cons x l ih =>
      rw [List.foldl_cons, ih]
      have hy : update m x (m y) y = m y := by
        rw [update_apply]
        split
        · rfl
        · rfl
      rw [hy, update_apply]
      by_cases hvx : v = x
      · simp [hvx]
      · simp [hvx]

/-- Merging the sets of two blocks makes these equivalent. -/
theorem mergeEquivalenceSets (ord : IterOrder) (h : Groups U r e)
    (hr : ∀ x y, r x y → U x ∧ U y) (hx : U x) (hy : U y) :
    ∃ e', e.mergeEquivalenceSets ord x y = some e' ∧ Groups U (withPair r y x) e' := by
  obtain ⟨i, xs, hi, hxs, hxmem⟩ := h.exists_set hx
  obtain ⟨j, ys, hj, hys, hymem⟩ := h.exists_set hy
  have hjlt := h.lt_length hj
  have hnew : (e.equivalentBBs.set j (ys.insertAll (ord.visit xs.elems)))[j]? =
      some (ys.insertAll (ord.visit xs.elems)) := List.getElem?_set_self hjlt
  obtain ⟨xs', hxs', hxmem'⟩ : ∃ xs',
      (e.equivalentBBs.set j (ys.insertAll (ord.visit xs.elems)))[i]? = some xs' ∧
        ∀ c, c ∈ xs' ↔ e.bbToEquivalence c = some i := by
    by_cases hij : i = j
    · subst hij
      refine ⟨_, hnew, fun c => ?_⟩
      rw [mem_insertAll, IterOrder.mem_visit, mem_elems, hxmem, hymem, or_self]
    · exact ⟨xs, (List.getElem?_set_ne (Ne.symm hij)).trans hxs, hxmem⟩
  have hmap : ∀ v, (ord.visit xs'.elems).foldl
      (fun m v => update m v (m y)) e.bbToEquivalence v =
        if e.bbToEquivalence v = e.bbToEquivalence x then e.bbToEquivalence y
        else e.bbToEquivalence v := by
    intro v
    rw [foldl_update, hi]
    simp only [IterOrder.mem_visit, mem_elems, hxmem']
  refine ⟨⟨e.equivalentBBs.set j (ys.insertAll (ord.visit xs.elems)), (ord.visit xs'.elems).foldl
    (fun m v => update m v (m y)) e.bbToEquivalence⟩, ?_, ?_, ?_, ?_⟩
  · simp [ControlFlowEquivalence.mergeEquivalenceSets, hi, hj, hxs, hys, hxs']
  · intro b
    show ((ord.visit xs'.elems).foldl _ e.bbToEquivalence b).isSome = true ↔ _
    rw [hmap]
    split
    · rename_i hb
      rw [← h.isSome_iff b, hb, hi, hj]
      rfl
    · exact h.isSome_iff b
  · intro b s hs
    simp only [hmap] at hs ⊢
    by_cases hsj : s = j
    · subst hsj
      refine ⟨_, hnew, fun c => ?_⟩
      rw [mem_insertAll, IterOrder.mem_visit, mem_elems, hymem, hxmem, hi, hj]
      by_cases hc : e.bbToEquivalence c = some i
      · simp [hc]
      · simp [hc]
    · have hb : e.bbToEquivalence b = some s := by
        by_cases hbi : e.bbToEquivalence b = e.bbToEquivalence x
        · rw [if_pos hbi, hj] at hs
          exact absurd (Option.some.inj hs).symm hsj
        · rwa [if_neg hbi] at hs
      have hsi : s ≠ i := by
        rintro rfl
        rw [if_pos (hb.trans hi.symm), hj] at hs
        exact hsj (Option.some.inj hs).symm
      obtain ⟨bbs, hbbs, hmem⟩ := h.getElem b s hb
      refine ⟨bbs, (List.getElem?_set_ne (Ne.symm hsj)).trans hbbs, fun c => ?_⟩
      rw [hmem, hi, hj]
      by_cases hc : e.bbToEquivalence c = some i
      · rw [if_pos hc, hc]
        exact iff_of_false (fun h => hsi (Option.some.inj h).symm) fun h => hsj (Option.some.inj h).symm
      · rw [if_neg hc]
  · have hmerge := h.separates.merge hr hy hx
    intro b c hb hc
    rw [← hmerge b c hb hc]
    simp only [hmap]

end Groups

end ControlFlowEquivalence

end Noelle
