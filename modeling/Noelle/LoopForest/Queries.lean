import Noelle.LoopForest.Children
import Noelle.LoopForest.Filtering

/-!
# LoopForest.Queries

The innermost and the outermost loop that contain an instruction.

A loop tree looks for both with a pre-order visit of all its nodes, which compares the
levels, and a loop forest for the innermost one with a post-order visit that ends at the
first node with the instruction.  A visit that passes a node without the block leaves what
was found as it is, so only the path down to the innermost loop counts.
-/

namespace Noelle

open Relation List Option

/-- Where instructions and blocks are. -/
structure Placement (I F B : Type) where
  /-- `Instruction::getParent`. -/
  getParent : I → B
  /-- `BasicBlock::getParent`. -/
  function : B → F

/-- `Instruction::getFunction`. -/
def Placement.getFunction {I F B : Type} (p : Placement I F B) (i : I) : F :=
  p.function (p.getParent i)

variable {I F B σ : Type}

namespace LoopTreeNode

/-! ## Visits -/

/-- The loop over the children; a child whose visit was stopped ends it. -/
def visitChildren (visit : Nat → σ → Option (Bool × σ)) : List Nat → σ → Option (Bool × σ)
  | [], s => some (false, s)
  | child :: children, s => do
      let r ← visit child s
      if r.1 then return (true, r.2) else visitChildren visit children r.2

section Visits

variable (ord : IterOrder) (f : LoopForest F B) (funcToInvoke : Nat → Nat → σ → Option (Bool × σ))

/-- `LoopTree::visitPreOrder`, with the variables that the function captures. -/
def visitPreOrder : Nat → Nat → Nat → σ → Option (Bool × σ)
  | 0, _, _, _ => none
  | fuel + 1, n, treeLevel, s => do
      let r ← funcToInvoke n treeLevel s
      if r.1 then return (true, r.2)
      else
        let this ← f.heap n
        visitChildren (fun child => visitPreOrder fuel child (treeLevel + 1))
          (ord.visit this.children.elems) r.2

/-- `LoopTree::visitPostOrder`, with the variables that the function captures. -/
def visitPostOrder : Nat → Nat → Nat → σ → Option (Bool × σ)
  | 0, _, _, _ => none
  | fuel + 1, n, treeLevel, s => do
      let this ← f.heap n
      let r ← visitChildren (fun child => visitPostOrder fuel child (treeLevel + 1))
        (ord.visit this.children.elems) s
      if r.1 then return (true, r.2) else funcToInvoke n treeLevel r.2

end Visits

end LoopTreeNode

/-- `LoopTree::getLoop`. -/
def LoopForest.getLoop (f : LoopForest F B) (n : Nat) : Option (LoopStructure F B) :=
  (f.heap n).map (·.loop)

/-! ## Queries -/

section Queries

variable [DecidableEq F] [DecidableEq B] (ord : IterOrder) (f : LoopForest F B)

namespace LoopTreeNode

/-- The function of the queries of a tree: it keeps the better one of the loop found before,
with its level, and the loop of the node.  Equal levels fail an assertion. -/
def keepBetter (better : Nat → Nat → Bool) (bb : B) (n treeLevel : Nat)
    (found : Option (LoopStructure F B × Nat)) :
    Option (Bool × Option (LoopStructure F B × Nat)) := do
  let nl ← f.getLoop n
  if !nl.isIncluded bb then return (false, found)
  else
    match found with
    | none => return (false, some (nl, treeLevel))
    | some (loop, level) =>
        if treeLevel = level then none
        else if better treeLevel level then return (false, some (nl, treeLevel))
        else return (false, some (loop, level))

/-- The queries of a tree. -/
def getLoopThatContains (better : Nat → Nat → Bool) (fuel n : Nat) (bb : B) :
    Option (Option (LoopStructure F B)) := do
  let loop ← f.getLoop n
  if !loop.isIncluded bb then return none
  else
    let r ← visitPreOrder ord f (keepBetter f better bb) fuel n 1 none
    return r.2.map (·.1)

/-- `LoopTree::getInnermostLoopThatContains` of a block. -/
def getInnermostLoopThatContainsBlock (fuel n : Nat) (bb : B) :
    Option (Option (LoopStructure F B)) :=
  getLoopThatContains ord f (fun treeLevel innerLoopLevel => decide (treeLevel > innerLoopLevel))
    fuel n bb

/-- `LoopTree::getInnermostLoopThatContains` of an instruction. -/
def getInnermostLoopThatContains (p : Placement I F B) (fuel n : Nat) (i : I) :
    Option (Option (LoopStructure F B)) :=
  getInnermostLoopThatContainsBlock ord f fuel n (p.getParent i)

/-- `LoopTree::getOutermostLoopThatContains` of a block. -/
def getOutermostLoopThatContainsBlock (fuel n : Nat) (bb : B) :
    Option (Option (LoopStructure F B)) :=
  getLoopThatContains ord f (fun treeLevel outerLoopLevel => decide (treeLevel < outerLoopLevel))
    fuel n bb

/-- `LoopTree::getOutermostLoopThatContains` of an instruction. -/
def getOutermostLoopThatContains (p : Placement I F B) (fuel n : Nat) (i : I) :
    Option (Option (LoopStructure F B)) :=
  getOutermostLoopThatContainsBlock ord f fuel n (p.getParent i)

/-- The function of the query of a forest: it stops at the first loop with the instruction. -/
def finderFunction (bb : B) (n _treeLevel : Nat) (innermostLoop : Option Nat) :
    Option (Bool × Option Nat) := do
  let loop ← f.getLoop n
  if loop.isIncluded bb then return (true, some n) else return (false, innermostLoop)

end LoopTreeNode

namespace LoopForest

/-- The loop over the trees in `LoopForest::getInnermostLoopThatContains`. -/
def searchTrees (p : Placement I F B) (fuel : Nat) (i : I) : List Nat → Option (Option Nat)
  | [] => some none
  | tree :: trees => do
      let ls ← f.getLoop tree
      if ls.function ≠ p.getFunction i then searchTrees p fuel i trees
      else if !ls.isIncluded (p.getParent i) then searchTrees p fuel i trees
      else
        let r ← LoopTreeNode.visitPostOrder ord f
          (LoopTreeNode.finderFunction f (p.getParent i)) fuel tree 1 none
        -- a null pointer fails an assertion
        let innermostLoop ← r.2
        return some innermostLoop

/-- `LoopForest::getInnermostLoopThatContains` of an instruction. -/
def getInnermostLoopThatContains (p : Placement I F B) (fuel : Nat) (i : I) :
    Option (Option Nat) :=
  f.searchTrees ord p fuel i (ord.visit f.trees.elems)

end LoopForest

end Queries

/-! ## Well nested forests -/

namespace LoopForest

variable {f : LoopForest F B} {n m p : Nat} {b : B} {function : B → F}

/-- The loop of the node contains the block. -/
def Includes (f : LoopForest F B) (n : Nat) (b : B) : Prop := ∃ l, f.Holds n l ∧ b ∈ l.bbs

/-- Children are strictly inside their parent, siblings are disjoint, and so are the trees of
one function.  The blocks of a loop are blocks of its function. -/
structure WellNested (f : LoopForest F B) (function : B → F) : Prop extends f.Nested where
  child_inside : ∀ n p l q, f.Parent n p → f.Holds n l → f.Holds p q → q.StrictlyContains l
  siblings_disjoint : ∀ n m p b, f.Parent n p → f.Parent m p → f.Includes n b → f.Includes m b →
    n = m
  trees_disjoint : ∀ n m l q b, n ∈ f.trees → m ∈ f.trees → f.Holds n l → f.Holds m q →
    l.function = q.function → b ∈ l.bbs → b ∈ q.bbs → n = m
  function_eq : ∀ n l b, f.Holds n l → b ∈ l.bbs → function b = l.function

/-- The innermost of the nodes with the block. -/
structure IsInnermost (f : LoopForest F B) (nodes : Nat → Prop) (b : B) (n : Nat) : Prop where
  mem : nodes n
  includes : f.Includes n b
  inside : ∀ m, nodes m → f.Includes m b → ReflTransGen f.Parent n m

/-- The outermost of the nodes with the block. -/
structure IsOutermost (f : LoopForest F B) (nodes : Nat → Prop) (b : B) (n : Nat) : Prop where
  mem : nodes n
  includes : f.Includes n b
  around : ∀ m, nodes m → f.Includes m b → ReflTransGen f.Parent m n

def Live (f : LoopForest F B) (n : Nat) : Prop := ∃ c, f.heap n = some c

/-- The nodes of the tree of a node. -/
def Below (f : LoopForest F B) (n m : Nat) : Prop := ReflTransGen f.Parent m n

theorem Nested.eq_of_below (h : f.Nested) (hnm : ReflTransGen f.Parent n m)
    (hmn : ReflTransGen f.Parent m n) : n = m := by
  rcases reflTransGen_iff_eq_or_transGen.mp hnm with heq | hup
  · exact heq.symm
  · exact absurd (TransGen.trans_left hup hmn) (h.acyclic n)

variable {c : LoopTreeNode F B} {nodes : Nat → Prop}

theorem live_of_below (hc : f.heap n = some c) (hmn : f.Below n m) :
    ∃ d, f.heap m = some d := by
  rcases ReflTransGen.cases_head hmn with rfl | ⟨_, ⟨d, hd, -⟩, -⟩
  · exact ⟨c, hc⟩
  · exact ⟨d, hd⟩

theorem Nested.visited_child (h : f.Nested) {height : Nat → Nat}
    (hheight : ∀ n p, f.Parent n p → height n < height p) {ord : IterOrder} {fuel a : Nat}
    (hc : f.heap n = some c) (hlt : height n < fuel + 1) (ha : a ∈ ord.visit c.children.elems) :
    f.Parent a n ∧ (∃ d, f.heap a = some d) ∧ height a < fuel := by
  have hparent := (h.mirror n c hc a).mp (ord.mem_visit.mp ha)
  obtain ⟨d, hd, -⟩ := id hparent
  exact ⟨hparent, ⟨d, hd⟩, Nat.lt_of_lt_of_le (hheight a n hparent) (Nat.le_of_lt_succ hlt)⟩

theorem IsInnermost.unique (h : f.Nested) (hn : f.IsInnermost nodes b n)
    (hm : f.IsInnermost nodes b m) : n = m :=
  h.eq_of_below (hn.inside m hm.mem hm.includes) (hm.inside n hn.mem hn.includes)

theorem IsOutermost.unique (h : f.Nested) (hn : f.IsOutermost nodes b n)
    (hm : f.IsOutermost nodes b m) : n = m :=
  h.eq_of_below (hm.around n hn.mem hn.includes) (hn.around m hm.mem hm.includes)

theorem Includes.live (h : f.Includes n b) : f.Live n := by
  obtain ⟨l, hl, -⟩ := h
  obtain ⟨c, hc, -⟩ := holds_iff.mp hl
  exact ⟨c, hc⟩

theorem includes_iff (hc : f.heap n = some c) :
    f.Includes n b ↔ b ∈ c.loop.bbs := by
  constructor
  · rintro ⟨l, hl, hb⟩
    obtain ⟨d, hd, rfl⟩ := holds_iff.mp hl
    rwa [mem_unique hc hd]
  · exact fun hb => ⟨c.loop, holds_iff.mpr ⟨c, hc, rfl⟩, hb⟩

namespace WellNested

section

variable (h : f.WellNested function)

include h

theorem includes_of_below (hm : f.Includes m b)
    (hmn : ReflTransGen f.Parent m n) : f.Includes n b := by
  induction hmn with
  | refl => exact hm
  | tail _ hparent ih =>
      obtain ⟨l, hl, hb⟩ := ih
      obtain ⟨c, hc⟩ := h.parent_live _ _ hparent
      have hq := holds_iff.mpr ⟨c, hc, rfl⟩
      exact ⟨c.loop, hq, (h.child_inside _ _ _ _ hparent hl hq).1 b hb⟩

theorem not_isIncluded_of_below [DecidableEq B] {c : LoopTreeNode F B} (hc : f.heap n = some c)
    (hn : ¬ f.Includes n b) (hm : f.Below n m) :
    ∃ d, f.heap m = some d ∧ d.loop.isIncluded b = false := by
  obtain ⟨d, hd⟩ := live_of_below hc hm
  refine ⟨d, hd, decide_eq_false fun hb => hn ?_⟩
  exact h.includes_of_below ((includes_iff hd).mpr hb) hm

theorem tree_unique (hn : n ∈ f.trees) (hm : m ∈ f.trees) (hbn : f.Includes n b)
    (hbm : f.Includes m b) : n = m := by
  obtain ⟨l, hl, hb⟩ := hbn
  obtain ⟨q, hq, hb'⟩ := hbm
  refine h.trees_disjoint n m l q b hn hm hl hq ?_ hb hb'
  rw [← h.function_eq n l b hl hb, ← h.function_eq m q b hq hb']

theorem isInnermost_self (hn : f.Includes n b)
    (hchild : ∀ a, f.Parent a n → ¬ f.Includes a b) : f.IsInnermost (f.Below n) b n := by
  refine ⟨.refl, hn, fun m hmn hm => ?_⟩
  rcases ReflTransGen.cases_tail hmn with heq | ⟨a, hma, ha⟩
  · exact heq ▸ .refl
  · exact absurd (h.includes_of_below hm hma) (hchild a ha)

theorem isInnermost_of_child {a : Nat} (ha : f.Parent a n)
    (hm : f.IsInnermost (f.Below a) b m) : f.IsInnermost (f.Below n) b m := by
  have han : f.Includes a b := h.includes_of_below hm.includes hm.mem
  refine ⟨hm.mem.tail ha, hm.includes, fun k hkn hk => ?_⟩
  rcases ReflTransGen.cases_tail hkn with heq | ⟨c, hkc, hc⟩
  · exact heq ▸ hm.mem.tail ha
  · have hca : c = a := h.siblings_disjoint c a n b hc ha (h.includes_of_below hk hkc) han
    exact hm.inside k (hca ▸ hkc) hk

theorem children_split (ord : IterOrder) (b : B) {c : LoopTreeNode F B} (hc : f.heap n = some c) :
    ((∀ a ∈ ord.visit c.children.elems, ¬ f.Includes a b) ∧
      ∀ a, f.Parent a n → ¬ f.Includes a b) ∨
    ∃ pre a post, ord.visit c.children.elems = pre ++ a :: post ∧ f.Parent a n ∧
      f.Includes a b ∧ (∀ k ∈ pre, ¬ f.Includes k b) ∧ ∀ k ∈ post, ¬ f.Includes k b := by
  have hmem : ∀ a, a ∈ ord.visit c.children.elems ↔ f.Parent a n := fun a =>
    ord.mem_visit.trans (h.mirror n c hc a)
  by_cases hex : ∃ a ∈ ord.visit c.children.elems, f.Includes a b
  · obtain ⟨a, ha, hab⟩ := hex
    obtain ⟨pre, post, hsplit⟩ := append_of_mem ha
    have hnodup := ord.nodup_visit c.children.nodup
    rw [hsplit] at hnodup
    have hnotin : ∀ k, k ∈ pre ∨ k ∈ post → ¬ f.Includes k b := by
      intro k hk hkb
      have hkn : f.Parent k n := (hmem k).mp (by rw [hsplit]; simp; tauto)
      obtain rfl := h.siblings_disjoint k a n b hkn ((hmem a).mp ha) hkb hab
      have hmid := (nodup_middle.mp hnodup)
      rw [nodup_cons, mem_append] at hmid
      exact hmid.1 hk
    exact .inr ⟨pre, a, post, hsplit, (hmem a).mp ha, hab, fun k hk => hnotin k (.inl hk),
      fun k hk => hnotin k (.inr hk)⟩
  · rw [not_exists] at hex
    exact .inl ⟨fun a ha hab => hex a ⟨ha, hab⟩, fun a ha hab => hex a ⟨(hmem a).mpr ha, hab⟩⟩

theorem exists_tree (hn : f.Includes n b) :
    ∃ tree, tree ∈ f.trees ∧ f.Includes tree b ∧ f.Below tree n := by
  obtain ⟨c, hc⟩ := hn.live
  obtain ⟨tree, ⟨htree, hpath⟩, -⟩ := h.existsUnique_tree hc
  exact ⟨tree, htree, h.includes_of_below hn hpath, hpath⟩

theorem isInnermost_live {tree : Nat} (htree : tree ∈ f.trees)
    (hm : f.IsInnermost (f.Below tree) b m) :
    f.IsInnermost f.Live b m := by
  refine ⟨hm.includes.live, hm.includes, fun k _ hk => ?_⟩
  obtain ⟨tree', htree', hb', hpath⟩ := h.exists_tree hk
  obtain rfl := h.tree_unique htree' htree hb' (h.includes_of_below hm.includes hm.mem)
  exact hm.inside k hpath hk

theorem isOutermost_live {tree : Nat} (htree : tree ∈ f.trees)
    (hb : f.Includes tree b) : f.IsOutermost f.Live b tree := by
  refine ⟨hb.live, hb, fun k _ hk => ?_⟩
  obtain ⟨tree', htree', hb', hpath⟩ := h.exists_tree hk
  exact h.tree_unique htree' htree hb' hb ▸ hpath

end

end WellNested

/-- The answer of a query of a tree: the loop of the node, null if no loop has the block. -/
def Answers (f : LoopForest F B) (nodes : Nat → Prop) (b : B) (isAnswer : Nat → Prop)
    (result : Option (LoopStructure F B)) : Prop :=
  (∀ l, result = some l ↔ ∃ m, isAnswer m ∧ f.Holds m l) ∧
    (result = none ↔ ∀ m, nodes m → ¬ f.Includes m b)

theorem Answers.of_holds {nodes isAnswer : Nat → Prop} {l : LoopStructure F B}
    (hunique : ∀ k, isAnswer k → k = m) (hanswer : isAnswer m) (hl : f.Holds m l) (hmem : nodes m)
    (hb : f.Includes m b) : f.Answers nodes b isAnswer (some l) := by
  refine ⟨fun l' => ⟨fun heq => ⟨m, hanswer, some.inj heq ▸ hl⟩, ?_⟩, ?_⟩
  · rintro ⟨k, hk, hl'⟩
    rw [hunique k hk] at hl'
    exact hl.symm.trans hl'
  · exact iff_of_false (some_ne_none l) fun hnone => hnone m hmem hb

theorem Answers.of_not_includes {isAnswer : Nat → Prop} (h : f.WellNested function)
    (hanswer : ∀ m, isAnswer m → f.Below n m ∧ f.Includes m b) (hn : ¬ f.Includes n b) :
    f.Answers (f.Below n) b isAnswer none := by
  have hnone : ∀ m, f.Below n m → ¬ f.Includes m b := fun m hm hb => hn (h.includes_of_below hb hm)
  refine ⟨fun l => iff_of_false (some_ne_none l).symm ?_, iff_of_true rfl hnone⟩
  rintro ⟨m, hm, -⟩
  exact hnone m (hanswer m hm).1 (hanswer m hm).2

end LoopForest

/-! ## What the visits find -/

namespace LoopTreeNode

variable {visit : Nat → σ → Option (Bool × σ)} {s : σ}

theorem visitChildren_append (l : List Nat) :
    ∀ {pre : List Nat}, (∀ a ∈ pre, visit a s = some (false, s)) →
      visitChildren visit (pre ++ l) s = visitChildren visit l s
  | [], _ => rfl
  | a :: pre, h => by
      rw [cons_append, visitChildren, h a mem_cons_self]
      exact visitChildren_append l fun k hk => h k (.tail a hk)

theorem visitChildren_skip {l : List Nat}
    (h : ∀ a ∈ l, visit a s = some (false, s)) : visitChildren visit l s = some (false, s) := by
  have happend := visitChildren_append [] h
  rwa [append_nil] at happend

section Visits

variable {f : LoopForest F B} {height : Nat → Nat} {funcToInvoke : Nat → Nat → σ → Option (Bool × σ)}
  {n treeLevel : Nat} {s : σ} {c : LoopTreeNode F B}

/-- The function changes nothing at the nodes of a tree whose root is on the level. -/
def Passes (f : LoopForest F B) (funcToInvoke : Nat → Nat → σ → Option (Bool × σ))
    (n treeLevel : Nat) (s : σ) : Prop :=
  ∀ m level, f.Below n m → treeLevel ≤ level → funcToInvoke m level s = some (false, s)

theorem Passes.child (h : Passes f funcToInvoke n treeLevel s) {a : Nat} (ha : f.Parent a n) :
    Passes f funcToInvoke a (treeLevel + 1) s :=
  fun m level hm hle => h m level (hm.tail ha) (by omega)

variable (ord : IterOrder) (h : f.Nested) (hheight : ∀ n p, f.Parent n p → height n < height p)

include h hheight

theorem visitPreOrder_skip : ∀ {fuel n treeLevel : Nat} {c : LoopTreeNode F B},
    f.heap n = some c → height n < fuel → Passes f funcToInvoke n treeLevel s →
      visitPreOrder ord f funcToInvoke fuel n treeLevel s = some (false, s)
  | 0, n, _, _, _, hlt, _ => nomatch hlt
  | fuel + 1, n, treeLevel, c, hc, hlt, hpasses => by
      have hchildren : ∀ a ∈ ord.visit c.children.elems,
          visitPreOrder ord f funcToInvoke fuel a (treeLevel + 1) s = some (false, s) := by
        intro a ha
        obtain ⟨hparent, ⟨d, hd⟩, hlt'⟩ := h.visited_child hheight hc hlt ha
        exact visitPreOrder_skip hd hlt' (hpasses.child hparent)
      rw [visitPreOrder, hpasses n treeLevel .refl le_rfl]
      simp only [bind_eq_bind, bind_some, Bool.false_eq_true, if_false, hc]
      exact visitChildren_skip hchildren

theorem visitPostOrder_skip : ∀ {fuel n treeLevel : Nat} {c : LoopTreeNode F B},
    f.heap n = some c → height n < fuel → Passes f funcToInvoke n treeLevel s →
      visitPostOrder ord f funcToInvoke fuel n treeLevel s = some (false, s)
  | 0, n, _, _, _, hlt, _ => nomatch hlt
  | fuel + 1, n, treeLevel, c, hc, hlt, hpasses => by
      have hchildren : ∀ a ∈ ord.visit c.children.elems,
          visitPostOrder ord f funcToInvoke fuel a (treeLevel + 1) s = some (false, s) := by
        intro a ha
        obtain ⟨hparent, ⟨d, hd⟩, hlt'⟩ := h.visited_child hheight hc hlt ha
        exact visitPostOrder_skip hd hlt' (hpasses.child hparent)
      rw [visitPostOrder, hc]
      simp only [bind_eq_bind, bind_some, visitChildren_skip hchildren,
        Bool.false_eq_true, if_false]
      exact hpasses n treeLevel .refl le_rfl

end Visits

section Functions

variable [DecidableEq B] {f : LoopForest F B} {function : B → F} {height : Nat → Nat} {b : B}
  {better : Nat → Nat → Bool} {n treeLevel : Nat} {l : LoopStructure F B} {c : LoopTreeNode F B}

theorem keepBetter_new (hn : f.Holds n l) (hb : b ∈ l.bbs) {found : Option (LoopStructure F B × Nat)}
    (hfound : ∀ loop level, found = some (loop, level) →
      treeLevel ≠ level ∧ better treeLevel level = true) :
    keepBetter f better b n treeLevel found = some (false, some (l, treeLevel)) := by
  have hloop : f.getLoop n = some l := hn
  cases found with
  | none => simp [keepBetter, hloop, LoopStructure.isIncluded, hb]
  | some q =>
      obtain ⟨loop, level⟩ := q
      obtain ⟨hne, hbetter⟩ := hfound loop level rfl
      simp [keepBetter, hloop, LoopStructure.isIncluded, hb, hne, hbetter]

theorem keepBetter_passes (h : f.WellNested function) (hc : f.heap n = some c)
    (hn : ¬ f.Includes n b) (s : Option (LoopStructure F B × Nat)) :
    Passes f (keepBetter f better b) n treeLevel s := by
  intro m level hm _
  obtain ⟨d, hd, hnot⟩ := h.not_isIncluded_of_below hc hn hm
  simp [keepBetter, LoopForest.getLoop, hd, hnot]

theorem keepBetter_passes_worse (hc : f.heap n = some c) {level : Nat}
    (hworse : ∀ level', treeLevel ≤ level' → level' ≠ level ∧ better level' level = false) :
    Passes f (keepBetter f better b) n treeLevel (some (l, level)) := by
  intro m level' hm hle
  obtain ⟨d, hd⟩ := LoopForest.live_of_below hc hm
  obtain ⟨hne, hbetter⟩ := hworse level' hle
  by_cases hb : d.loop.isIncluded b = true
  · simp [keepBetter, LoopForest.getLoop, hd, hne, hbetter]
  · simp [keepBetter, LoopForest.getLoop, hd, hb]

theorem finderFunction_passes (h : f.WellNested function) (hc : f.heap n = some c)
    (hn : ¬ f.Includes n b) (s : Option Nat) :
    Passes f (finderFunction f b) n treeLevel s := by
  intro m level hm _
  obtain ⟨d, hd, hnot⟩ := h.not_isIncluded_of_below hc hn hm
  simp [finderFunction, LoopForest.getLoop, hd, hnot]

variable (ord : IterOrder) (h : f.WellNested function)
  (hheight : ∀ n p, f.Parent n p → height n < height p)

include h hheight

/-- The visit keeps the deepest loop with the block. -/
theorem visitPreOrder_innermost : ∀ {fuel n : Nat} (treeLevel : Nat)
    (found : Option (LoopStructure F B × Nat)) {c : LoopTreeNode F B},
    f.heap n = some c → height n < fuel → f.Includes n b →
    (∀ loop level, found = some (loop, level) → level < treeLevel) →
      ∃ m l level, visitPreOrder ord f
          (keepBetter f (fun treeLevel level => decide (treeLevel > level)) b) fuel n treeLevel found =
          some (false, some (l, level)) ∧ f.Holds m l ∧ f.IsInnermost (f.Below n) b m
  | 0, n, _, _, _, _, hlt, _, _ => nomatch hlt
  | fuel + 1, n, treeLevel, found, c, hc, hlt, hn, hfound => by
      have hholds : f.Holds n c.loop := LoopForest.holds_iff.mpr ⟨c, hc, rfl⟩
      have hb : b ∈ c.loop.bbs := (LoopForest.includes_iff hc).mp hn
      -- children without the block change nothing
      have hskip : ∀ (s : Option (LoopStructure F B × Nat)), ∀ a ∈ ord.visit c.children.elems,
          ¬ f.Includes a b → visitPreOrder ord f
            (keepBetter f (fun treeLevel level => decide (treeLevel > level)) b) fuel a
            (treeLevel + 1) s = some (false, s) := by
        intro s a ha hab
        obtain ⟨-, ⟨d, hd⟩, hlt'⟩ := h.visited_child hheight hc hlt ha
        exact visitPreOrder_skip ord h.toNested hheight hd hlt' (keepBetter_passes h hd hab s)
      rw [visitPreOrder, keepBetter_new hholds hb fun loop level heq => by
        have hless := hfound loop level heq
        exact ⟨by omega, decide_eq_true hless⟩]
      simp only [bind_eq_bind, bind_some, Bool.false_eq_true, if_false, hc]
      rcases h.children_split ord b hc with ⟨hnone, hparent⟩ |
        ⟨pre, a, post, hsplit, hparent, hab, hpre, hpost⟩
      · refine ⟨n, c.loop, treeLevel, ?_, hholds, h.isInnermost_self hn hparent⟩
        exact visitChildren_skip fun a ha => hskip _ a ha (hnone a ha)
      · have hmem : ∀ k, k ∈ pre ∨ k = a ∨ k ∈ post → k ∈ ord.visit c.children.elems := by
          intro k hk
          rw [hsplit]
          simpa using hk
        obtain ⟨-, ⟨d, hd⟩, hlt'⟩ := h.visited_child hheight hc hlt (hmem a (.inr (.inl rfl)))
        obtain ⟨m, l, level, hvisit, hm, hinnermost⟩ := visitPreOrder_innermost
          (treeLevel + 1) (some (c.loop, treeLevel)) hd hlt' hab
          fun loop level heq => by
            rw [some.injEq, Prod.mk.injEq] at heq
            omega
        refine ⟨m, l, level, ?_, hm, h.isInnermost_of_child hparent hinnermost⟩
        rw [hsplit, visitChildren_append _ fun k hk => hskip _ k (hmem k (.inl hk)) (hpre k hk),
          visitChildren, hvisit]
        simp only [bind_eq_bind, bind_some, Bool.false_eq_true, if_false]
        exact visitChildren_skip fun k hk => hskip _ k (hmem k (.inr (.inr hk))) (hpost k hk)

/-- The visit stops at the innermost loop with the block. -/
theorem visitPostOrder_innermost : ∀ {fuel n : Nat} (treeLevel : Nat) {c : LoopTreeNode F B},
    f.heap n = some c → height n < fuel → f.Includes n b →
      ∃ m, visitPostOrder ord f (finderFunction f b) fuel n treeLevel none = some (true, some m) ∧
        f.IsInnermost (f.Below n) b m
  | 0, n, _, _, _, hlt, _ => nomatch hlt
  | fuel + 1, n, treeLevel, c, hc, hlt, hn => by
      have hb : b ∈ c.loop.bbs := (LoopForest.includes_iff hc).mp hn
      have hskip : ∀ a ∈ ord.visit c.children.elems, ¬ f.Includes a b →
          visitPostOrder ord f (finderFunction f b) fuel a (treeLevel + 1) none =
            some (false, none) := by
        intro a ha hab
        obtain ⟨-, ⟨d, hd⟩, hlt'⟩ := h.visited_child hheight hc hlt ha
        exact visitPostOrder_skip ord h.toNested hheight hd hlt' (finderFunction_passes h hd hab none)
      rw [visitPostOrder, hc]
      simp only [bind_eq_bind, bind_some]
      rcases h.children_split ord b hc with ⟨hnone, hparent⟩ |
        ⟨pre, a, post, hsplit, hparent, hab, hpre, -⟩
      · refine ⟨n, ?_, h.isInnermost_self hn hparent⟩
        rw [visitChildren_skip fun a ha => hskip a ha (hnone a ha)]
        simp [finderFunction, LoopForest.getLoop, hc, LoopStructure.isIncluded, hb]
      · have hmem : ∀ k, k ∈ pre ∨ k = a → k ∈ ord.visit c.children.elems := by
          intro k hk
          rw [hsplit]
          simp only [mem_append, mem_cons]
          tauto
        obtain ⟨-, ⟨d, hd⟩, hlt'⟩ := h.visited_child hheight hc hlt (hmem a (.inr rfl))
        obtain ⟨m, hvisit, hinnermost⟩ := visitPostOrder_innermost
          (treeLevel + 1) hd hlt' hab
        refine ⟨m, ?_, h.isInnermost_of_child hparent hinnermost⟩
        rw [hsplit, visitChildren_append _ fun k hk => hskip k (hmem k (.inl hk)) (hpre k hk),
          visitChildren, hvisit]
        rfl

/-! ## What the queries return -/

omit h hheight in
theorem getLoopThatContains_of_not_includes {fuel : Nat} (hc : f.heap n = some c)
    (hn : ¬ f.Includes n b) : getLoopThatContains ord f better fuel n b = some none := by
  have hloop : f.getLoop n = some c.loop := LoopForest.holds_iff.mpr ⟨c, hc, rfl⟩
  have hb : b ∉ c.loop.bbs := fun hb => hn ((LoopForest.includes_iff hc).mpr hb)
  simp [getLoopThatContains, hloop, LoopStructure.isIncluded, hb]

/-- The answer is the innermost loop below the node with the block. -/
theorem getInnermostLoopThatContainsBlock_spec {fuel : Nat} (hc : f.heap n = some c)
    (hlt : height n < fuel) :
    ∃ result, getInnermostLoopThatContainsBlock ord f fuel n b = some result ∧
      f.Answers (f.Below n) b (f.IsInnermost (f.Below n) b) result := by
  have hloop : f.getLoop n = some c.loop := LoopForest.holds_iff.mpr ⟨c, hc, rfl⟩
  by_cases hn : f.Includes n b
  · have hb := (LoopForest.includes_iff hc).mp hn
    obtain ⟨m, l, level, hvisit, hl, hm⟩ := visitPreOrder_innermost ord h hheight 1 none hc hlt hn
      fun _ _ heq => absurd heq.symm (some_ne_none _)
    refine ⟨some l, ?_, .of_holds (fun k hk => hk.unique h.toNested hm) hm hl hm.mem hm.includes⟩
    simp [getInnermostLoopThatContainsBlock, getLoopThatContains, hloop, LoopStructure.isIncluded,
      hb, hvisit]
  · exact ⟨none, getLoopThatContains_of_not_includes ord hc hn,
      .of_not_includes h (fun m hm => ⟨hm.mem, hm.includes⟩) hn⟩

/-- The answer is the outermost loop below the node with the block. -/
theorem getOutermostLoopThatContainsBlock_spec {fuel : Nat} (hc : f.heap n = some c)
    (hlt : height n < fuel) :
    ∃ result, getOutermostLoopThatContainsBlock ord f fuel n b = some result ∧
      f.Answers (f.Below n) b (f.IsOutermost (f.Below n) b) result := by
  have hloop : f.getLoop n = some c.loop := LoopForest.holds_iff.mpr ⟨c, hc, rfl⟩
  by_cases hn : f.Includes n b
  · have hb := (LoopForest.includes_iff hc).mp hn
    have hm : f.IsOutermost (f.Below n) b n := ⟨.refl, hn, fun m hm _ => hm⟩
    refine ⟨some c.loop, ?_, .of_holds (fun k hk => hk.unique h.toNested hm) hm hloop .refl hn⟩
    obtain ⟨fuel, rfl⟩ : ∃ k, fuel = k + 1 := ⟨fuel - 1, by omega⟩
    have hvisit : visitPreOrder ord f
        (keepBetter f (fun treeLevel level => decide (treeLevel < level)) b) (fuel + 1) n 1 none =
        some (false, some (c.loop, 1)) := by
      rw [visitPreOrder, keepBetter_new hloop hb fun _ _ heq => absurd heq.symm (some_ne_none _)]
      simp only [bind_eq_bind, bind_some, Bool.false_eq_true, if_false, hc]
      refine visitChildren_skip fun a ha => ?_
      obtain ⟨-, ⟨d, hd⟩, hlt'⟩ := h.visited_child hheight hc hlt ha
      -- the levels below the root are greater than 1
      exact visitPreOrder_skip ord h.toNested hheight hd hlt' (keepBetter_passes_worse hd
        fun level' hle => ⟨by omega, decide_eq_false (by omega)⟩)
    simp [getOutermostLoopThatContainsBlock, getLoopThatContains, hloop, LoopStructure.isIncluded,
      hb, hvisit]
  · exact ⟨none, getLoopThatContains_of_not_includes ord hc hn,
      .of_not_includes h (fun m hm => ⟨hm.mem, hm.includes⟩) hn⟩

end Functions

end LoopTreeNode

namespace LoopForest

variable [DecidableEq F] [DecidableEq B] {f : LoopForest F B} {p : Placement I F B}

/-- The answer is the innermost loop in a tree with the instruction, if there is one. -/
theorem searchTrees_spec (ord : IterOrder) (h : f.WellNested p.function) {height : Nat → Nat}
    (hheight : ∀ n p, f.Parent n p → height n < height p) {fuel : Nat}
    (hlt : ∀ n c, f.heap n = some c → height n < fuel) (i : I) :
    ∀ {trees : List Nat}, (∀ tree ∈ trees, f.Live tree) →
      ((∀ tree ∈ trees, ¬ f.Includes tree (p.getParent i)) ∧
        f.searchTrees ord p fuel i trees = some none) ∨
      ∃ tree ∈ trees, f.Includes tree (p.getParent i) ∧ ∃ m,
        f.searchTrees ord p fuel i trees = some (some m) ∧
          f.IsInnermost (f.Below tree) (p.getParent i) m
  | [], _ => .inl ⟨nofun, rfl⟩
  | tree :: trees, hlive => by
      obtain ⟨c, hc⟩ := hlive tree (.head _)
      have hloop : f.getLoop tree = some c.loop := holds_iff.mpr ⟨c, hc, rfl⟩
      by_cases htree : f.Includes tree (p.getParent i)
      · have hb := (includes_iff hc).mp htree
        have hfunction : c.loop.function = p.getFunction i := (h.function_eq tree _ _ hloop hb).symm
        obtain ⟨m, hvisit, hm⟩ := LoopTreeNode.visitPostOrder_innermost ord h hheight 1 hc
          (hlt tree c hc) htree
        refine .inr ⟨tree, .head _, htree, m, ?_, hm⟩
        simp [searchTrees, hloop, hfunction, LoopStructure.isIncluded, hb, hvisit]
      · have hb : p.getParent i ∉ c.loop.bbs := fun hb => htree ((includes_iff hc).mpr hb)
        have hskip : f.searchTrees ord p fuel i (tree :: trees) = f.searchTrees ord p fuel i trees := by
          simp [searchTrees, hloop, LoopStructure.isIncluded, hb]
        rw [hskip]
        rcases searchTrees_spec ord h hheight hlt i fun t ht => hlive t (.tail tree ht)
          with ⟨hnone, hresult⟩ | ⟨t, ht, hrest⟩
        · exact .inl ⟨forall_mem_cons.mpr ⟨htree, hnone⟩, hresult⟩
        · exact .inr ⟨t, .tail tree ht, hrest⟩

/-- The queries of the forest and of its trees return the innermost and outermost loops. -/
structure QueriesAgree (f : LoopForest F B) (ord : IterOrder) (p : Placement I F B) (fuel : Nat)
    (i : I) : Prop where
  forest : ∃ result, f.getInnermostLoopThatContains ord p fuel i = some result ∧
    (∀ m, result = some m ↔ f.IsInnermost f.Live (p.getParent i) m) ∧
    (result = none ↔ ∀ m, f.Live m → ¬ f.Includes m (p.getParent i))
  innermost : ∀ n, f.Live n → ∃ result,
    LoopTreeNode.getInnermostLoopThatContains ord f p fuel n i = some result ∧
      f.Answers (f.Below n) (p.getParent i)
        (f.IsInnermost (f.Below n) (p.getParent i)) result
  outermost : ∀ n, f.Live n → ∃ result,
    LoopTreeNode.getOutermostLoopThatContains ord f p fuel n i = some result ∧
      f.Answers (f.Below n) (p.getParent i)
        (f.IsOutermost (f.Below n) (p.getParent i)) result
  /-- The queries of the tree with the instruction answer for the forest. -/
  containing : ∀ tree ∈ f.trees, f.Includes tree (p.getParent i) → ∃ m innermost outermost,
    f.getInnermostLoopThatContains ord p fuel i = some (some m) ∧ f.Holds m innermost ∧
    LoopTreeNode.getInnermostLoopThatContains ord f p fuel tree i = some (some innermost) ∧
    f.IsInnermost f.Live (p.getParent i) m ∧
    LoopTreeNode.getOutermostLoopThatContains ord f p fuel tree i = some (some outermost) ∧
    f.Holds tree outermost ∧ f.IsOutermost f.Live (p.getParent i) tree

/-- The query of a forest finds no tree with the instruction, or searches the right one. -/
theorem getInnermostLoopThatContains_spec (ord : IterOrder) (h : f.WellNested p.function)
    {fuel : Nat} (hfuel : f.nextNode ≤ fuel) (i : I) :
    ((∀ m, ¬ f.Includes m (p.getParent i)) ∧
      f.getInnermostLoopThatContains ord p fuel i = some none) ∨
    ∃ tree m, tree ∈ f.trees ∧ f.getInnermostLoopThatContains ord p fuel i = some (some m) ∧
      f.IsInnermost (f.Below tree) (p.getParent i) m := by
  obtain ⟨height, hheight, hbound⟩ := h.exists_height
  have hlive : ∀ tree ∈ ord.visit f.trees.elems, f.Live tree := by
    intro tree htree
    obtain ⟨c, hc, -⟩ := (h.trees tree).mp (ord.mem_visit.mp htree)
    exact ⟨c, hc⟩
  rcases searchTrees_spec ord h hheight
    (fun n c hc => Nat.lt_of_lt_of_le (hbound n c hc) hfuel) i hlive with
    ⟨hnone, hresult⟩ | ⟨tree, htree, -, m, hresult, hm⟩
  · refine .inl ⟨fun m hm => ?_, hresult⟩
    obtain ⟨tree, htree, hb, -⟩ := h.exists_tree hm
    exact hnone tree (ord.mem_visit.mpr htree) hb
  · exact .inr ⟨tree, m, ord.mem_visit.mp htree, hresult, hm⟩

/-- The queries agree in every well nested forest. -/
theorem queriesAgree (ord : IterOrder) (h : f.WellNested p.function) {fuel : Nat}
    (hfuel : f.nextNode ≤ fuel) (i : I) : f.QueriesAgree ord p fuel i := by
  obtain ⟨height, hheight, hbound⟩ := h.exists_height
  have hlt : ∀ n c, f.heap n = some c → height n < fuel := fun n c hc =>
    Nat.lt_of_lt_of_le (hbound n c hc) hfuel
  have hinnermost : ∀ n, f.Live n → ∃ result,
      LoopTreeNode.getInnermostLoopThatContains ord f p fuel n i = some result ∧
        f.Answers (f.Below n) (p.getParent i)
          (f.IsInnermost (f.Below n) (p.getParent i)) result := by
    rintro n ⟨c, hc⟩
    exact LoopTreeNode.getInnermostLoopThatContainsBlock_spec ord h hheight hc (hlt n c hc)
  have houtermost : ∀ n, f.Live n → ∃ result,
      LoopTreeNode.getOutermostLoopThatContains ord f p fuel n i = some result ∧
        f.Answers (f.Below n) (p.getParent i)
          (f.IsOutermost (f.Below n) (p.getParent i)) result := by
    rintro n ⟨c, hc⟩
    exact LoopTreeNode.getOutermostLoopThatContainsBlock_spec ord h hheight hc (hlt n c hc)
  refine ⟨?_, hinnermost, houtermost, ?_⟩
  · rcases getInnermostLoopThatContains_spec ord h hfuel i with
      ⟨hnone, hresult⟩ | ⟨tree, m, htree, hresult, hm⟩
    · refine ⟨none, hresult, fun m => iff_of_false (some_ne_none m).symm ?_,
        iff_of_true rfl fun m _ => hnone m⟩
      exact fun hm => hnone m hm.includes
    · have hmlive := h.isInnermost_live htree hm
      refine ⟨some m, hresult, fun k => ?_, iff_of_false (some_ne_none m) fun hnot =>
        hnot m hmlive.mem hm.includes⟩
      rw [some.injEq]
      exact ⟨fun heq => heq ▸ hmlive, fun hk => hmlive.unique h.toNested hk⟩
  · intro tree htree hb
    rcases getInnermostLoopThatContains_spec ord h hfuel i with
      ⟨hnone, -⟩ | ⟨tree', m, htree', hresult, hm⟩
    · exact absurd hb (hnone tree)
    · obtain rfl := h.tree_unique htree' htree (h.includes_of_below hm.includes hm.mem) hb
      obtain ⟨innermost, hholds, -⟩ := id hm.includes
      obtain ⟨outermost, hroot, -⟩ := id hb
      obtain ⟨result, hinner, hanswers, -⟩ := hinnermost _ hb.live
      obtain ⟨result', houter, hanswers', -⟩ := houtermost _ hb.live
      have hout : f.IsOutermost (f.Below tree') (p.getParent i) tree' := ⟨.refl, hb, fun k hk _ => hk⟩
      refine ⟨m, innermost, outermost, hresult, hholds, ?_, h.isInnermost_live htree hm, ?_, hroot,
        h.isOutermost_live htree hb⟩
      · rw [hinner, (hanswers innermost).mpr ⟨m, hm, hholds⟩]
      · rw [houter, (hanswers' outermost).mpr ⟨tree', hout, hroot⟩]

/-! ## After filtering -/

omit [DecidableEq F] [DecidableEq B] in
theorem WellNested.comparable {function : B → F} (h : f.WellNested function) {n m : Nat} {b : B}
    (hn : f.Includes n b) (hm : f.Includes m b) :
    ReflTransGen f.Parent n m ∨ ReflTransGen f.Parent m n := by
  classical
  rcases getInnermostLoopThatContains_spec (p := ⟨id, function⟩) .stored h le_rfl b with
    ⟨hnone, -⟩ | ⟨tree, k, htree, -, hk⟩
  · exact absurd hn (hnone n)
  · have hlive := h.isInnermost_live htree hk
    exact ReflTransGen.total_of_right_unique (fun _ _ _ hp hq => hp.unique hq)
      (hlive.inside n hn.live hn) (hlive.inside m hm.live hm)

omit [DecidableEq F] [DecidableEq B] in
/-- Taking loops out keeps the forest well nested. -/
theorem Without.wellNested {function : B → F} {toDelete : List Nat} {f' : LoopForest F B}
    (hf' : Without f toDelete f') (h : f.WellNested function) : f'.WellNested function := by
  have hholds : ∀ n l, f'.Holds n l ↔ n ∉ toDelete ∧ f.Holds n l := fun n l => by
    unfold Holds
    rw [hf'.heap]
    by_cases hn : n ∈ toDelete <;> simp [hn]
  have hcomparable : ∀ {n m b}, f'.Includes n b → f'.Includes m b →
      n = m ∨ TransGen f'.Parent n m ∨ TransGen f'.Parent m n := by
    rintro n m b ⟨l, hl, hb⟩ ⟨q, hq, hb'⟩
    obtain ⟨hn, hl⟩ := (hholds n l).mp hl
    obtain ⟨hm, hq⟩ := (hholds m q).mp hq
    rw [hf'.ancestor, hf'.ancestor]
    rcases h.comparable ⟨l, hl, hb⟩ ⟨q, hq, hb'⟩ with hpath | hpath <;>
      rcases reflTransGen_iff_eq_or_transGen.mp hpath with heq | hup
    · exact .inl heq.symm
    · exact .inr (.inl ⟨hup, hn, hm⟩)
    · exact .inl heq
    · exact .inr (.inr ⟨hup, hm, hn⟩)
  refine ⟨hf'.nested, fun n p l q hparent hl hq => ?_, fun n m p b hn hm hnb hmb => ?_,
    fun n m l q b hn hm hl hq _ hb hb' => ?_, fun n l b hl => h.function_eq n l b ((hholds n l).mp hl).2⟩
  · obtain ⟨k, hnk, hkp⟩ := TransGen.head'_iff.mp ((hf'.ancestor n p).mp (.single hparent)).1
    obtain ⟨c, hc⟩ := h.parent_live n k hnk
    have hk : f.Holds k c.loop := holds_iff.mpr ⟨c, hc, rfl⟩
    have hsub : ∀ b ∈ c.loop.bbs, b ∈ q.bbs := fun b hb => by
      obtain ⟨q', hq', hb'⟩ := h.includes_of_below ⟨c.loop, hk, hb⟩ hkp
      rwa [mem_unique ((hholds p q).mp hq).2 hq']
    obtain ⟨hin, b, hb, hnot⟩ := h.child_inside n k l _ hnk ((hholds n l).mp hl).2 hk
    exact ⟨fun b hb => hsub b (hin b hb), b, hsub b hb, hnot⟩
  · -- a sibling below the other one would have their parent below itself
    have hnot : ∀ {n m}, f'.Parent n p → f'.Parent m p → ¬ TransGen f'.Parent n m := by
      intro n m hn hm hnm
      obtain ⟨k, hk, hkm⟩ := TransGen.head'_iff.mp hnm
      exact hf'.nested.acyclic p (TransGen.tail' (hk.unique hn ▸ hkm) hm)
    exact (hcomparable hnb hmb).resolve_right fun hup => hup.elim (hnot hn hm) (hnot hm hn)
  · have hroot : ∀ {n m}, n ∈ f'.trees → ¬ TransGen f'.Parent n m := by
      intro n m hn hnm
      obtain ⟨c, hc, hnone⟩ := (hf'.nested.trees n).mp hn
      obtain ⟨k, ⟨d, hd, hk⟩, -⟩ := TransGen.head'_iff.mp hnm
      rw [mem_unique hd hc, hnone] at hk
      exact some_ne_none k hk.symm
    exact (hcomparable ⟨l, hl, hb⟩ ⟨q, hq, hb'⟩).resolve_right fun hup => hup.elim (hroot hn) (hroot hm)

/-- **Filtering, then asking**: the forest is well nested again, and its query returns the
innermost of the kept loops with the instruction, or nothing exactly if there is none. -/
theorem filterOutLoops_innermost (ord : IterOrder) (h : f.WellNested p.function)
    (filter : LoopStructure F B → Bool) {fuel : Nat} (hfuel : f.nextNode ≤ fuel) :
    ∃ f', f.filterOutLoops ord filter fuel = some f' ∧ f'.WellNested p.function ∧
      ∀ i, ∃ result, f'.getInnermostLoopThatContains ord p fuel i = some result ∧
        (∀ m, result = some m ↔
          f.IsInnermost (fun n => ∃ l, f.Holds n l ∧ filter l = false) (p.getParent i) m) ∧
        (result = none ↔
          ∀ m l, f.Holds m l → filter l = false → ¬ f.Includes m (p.getParent i)) := by
  obtain ⟨f', toDelete, hf', hwithout, hmem⟩ := filterOutLoops_spec ord h.toNested filter hfuel
  have hwell := hwithout.wellNested h
  have hholds := (hwithout.filteredTrees h.toNested hmem).holds
  have hincludes : ∀ n b, f'.Includes n b ↔
      (∃ l, f.Holds n l ∧ filter l = false) ∧ f.Includes n b := by
    refine fun n b => ⟨fun ⟨l, hl, hb⟩ => ⟨⟨l, (hholds n l).mp hl⟩, l, ((hholds n l).mp hl).1, hb⟩, ?_⟩
    rintro ⟨⟨l, hl⟩, q, hq, hb⟩
    exact ⟨l, (hholds n l).mpr hl, mem_unique hq hl.1 ▸ hb⟩
  refine ⟨f', hf', hwell, fun i => ?_⟩
  rcases getInnermostLoopThatContains_spec ord hwell (hwithout.nextNode ▸ hfuel) i with
    ⟨hnone, hresult⟩ | ⟨tree, m, htree, hresult, hm⟩
  · exact ⟨none, hresult, fun m => iff_of_false (some_ne_none m).symm fun hm =>
      hnone m ((hincludes m _).mpr ⟨hm.mem, hm.includes⟩), iff_of_true rfl fun m l hl hkept hb =>
      hnone m ((hincludes m _).mpr ⟨⟨l, hl, hkept⟩, hb⟩)⟩
  · have hlive := hwell.isInnermost_live htree hm
    obtain ⟨hkept, hb⟩ := (hincludes m _).mp hm.includes
    have hm' : f.IsInnermost (fun n => ∃ l, f.Holds n l ∧ filter l = false) (p.getParent i) m := by
      refine ⟨hkept, hb, fun k hk hkb => ?_⟩
      have hkb' := (hincludes k _).mpr ⟨hk, hkb⟩
      rcases reflTransGen_iff_eq_or_transGen.mp (hlive.inside k hkb'.live hkb') with rfl | hup
      · exact .refl
      · exact ((hwithout.ancestor m k).mp hup).1.to_reflTransGen
    refine ⟨some m, hresult, fun k => (some_inj).trans
      ⟨fun heq => heq ▸ hm', fun hk => hm'.unique h.toNested hk⟩,
      iff_of_false (some_ne_none m) fun hnone => ?_⟩
    obtain ⟨l, hl, hfilter⟩ := hkept
    exact hnone m l hl hfilter hb

/-! ## The nest of two loops -/

/-- Every instruction is its own block. -/
def nestPlacement : Placement (Fin 3) Unit (Fin 3) := ⟨id, fun _ => ()⟩

theorem nestForest_wellNested : nestForest.WellNested nestPlacement.function where
  toNested := nestForest_nested
  child_inside n p l q hp hl hq := by
    obtain ⟨rfl, rfl⟩ := nestForest_parent_iff.mp hp
    obtain ⟨-, rfl⟩ := (nestForest_holds_iff.mp hl).resolve_left fun h => absurd h.1 (by omega)
    obtain ⟨-, rfl⟩ := (nestForest_holds_iff.mp hq).resolve_right fun h => absurd h.1 (by omega)
    exact ⟨by decide, 1, by decide, by decide⟩
  siblings_disjoint n m p b hn hm _ _ := by
    rw [(nestForest_parent_iff.mp hn).1, (nestForest_parent_iff.mp hm).1]
  trees_disjoint n m l q b hn hm _ _ _ _ _ := by
    rw [mem_singleton.mp hn, mem_singleton.mp hm]
  function_eq _ _ _ _ _ := rfl

/-- The queries agree in the nest. -/
theorem nestForest_queriesAgree : nestForest.QueriesAgree .stored nestPlacement 2 2 :=
  queriesAgree .stored nestForest_wellNested le_rfl 2

theorem filterOutLoops_innermost_nestForest :
    ∃ f', nestForest.filterOutLoops .stored (fun l => decide (l.header = 2)) 2 = some f' ∧
      f'.WellNested nestPlacement.function ∧
      ∀ i, ∃ result, f'.getInnermostLoopThatContains .stored nestPlacement 2 i = some result ∧
        (∀ m, result = some m ↔ nestForest.IsInnermost
          (fun n => ∃ l, nestForest.Holds n l ∧ decide (l.header = 2) = false)
          (nestPlacement.getParent i) m) ∧
        (result = none ↔ ∀ m l, nestForest.Holds m l → decide (l.header = 2) = false →
          ¬ nestForest.Includes m (nestPlacement.getParent i)) :=
  filterOutLoops_innermost .stored nestForest_wellNested _ le_rfl

/-- An instruction of the outer loop only, and one of both. -/
example : nestForest.getInnermostLoopThatContains .stored nestPlacement 2 1 = some (some 0) ∧
    nestForest.getInnermostLoopThatContains .stored nestPlacement 2 2 = some (some 1) :=
  ⟨rfl, rfl⟩

end LoopForest

end Noelle
