import Noelle.CFG
import Noelle.Lib.Dominance

/-!
# DominatorForest

The summaries of the dominator and post-dominator trees: `DominatorForest`.

A forest is a value: LLVM's trees are copied into it and never change.  The pointer of
a node is the block it stands for, since each block has one node.
-/

namespace Noelle

open Relation List

/-- `DominatorNode`: the block and the nodes it dominates immediately. -/
inductive DominatorNode (B : Type) where
  | node (block : B) (children : List (DominatorNode B))

namespace DominatorNode

variable {B : Type}

def getBlock : DominatorNode B → B
  | node b _ => b

def getChildren : DominatorNode B → List (DominatorNode B)
  | node _ children => children

mutual

/-- The nodes that are reached from a node over children. -/
def descendants : DominatorNode B → List (DominatorNode B)
  | node b children => node b children :: descendantsOfAll children

/-- The nodes that are reached from a list of nodes. -/
def descendantsOfAll : List (DominatorNode B) → List (DominatorNode B)
  | [] => []
  | child :: children => descendants child ++ descendantsOfAll children

end

theorem mem_descendantsOfAll {n : DominatorNode B} {l : List (DominatorNode B)} :
    n ∈ descendantsOfAll l ↔ ∃ m ∈ l, n ∈ m.descendants := by
  induction l with
  | nil => simp [descendantsOfAll]
  | cons m l ih => simp [descendantsOfAll, ih]

theorem mem_descendants {n m : DominatorNode B} :
    n ∈ m.descendants ↔ n = m ∨ ∃ c ∈ m.getChildren, n ∈ c.descendants := by
  cases m with
  | node b children =>
      rw [descendants, mem_cons, mem_descendantsOfAll]
      rfl

theorem self_mem_descendants (n : DominatorNode B) : n ∈ n.descendants :=
  mem_descendants.mpr (.inl rfl)

mutual

theorem descendants_induct {P : DominatorNode B → Prop} : ∀ (n : DominatorNode B), P n →
    (∀ p ∈ n.descendants, P p → ∀ c ∈ p.getChildren, P c) → ∀ m ∈ n.descendants, P m
  | node b children, hn, hstep, m, hm => by
      rw [descendants, mem_cons] at hm
      rcases hm with rfl | hm
      · exact hn
      · refine descendantsOfAll_induct children
          (fun c hc => hstep _ (self_mem_descendants _) hn c hc) (fun p hp => hstep p ?_) m hm
        rw [descendants]
        exact .tail _ hp

theorem descendantsOfAll_induct {P : DominatorNode B → Prop} : ∀ (l : List (DominatorNode B)),
    (∀ c ∈ l, P c) → (∀ p ∈ descendantsOfAll l, P p → ∀ c ∈ p.getChildren, P c) →
      ∀ m ∈ descendantsOfAll l, P m
  | [], _, _, m, hm => nomatch hm
  | n :: l, hl, hstep, m, hm => by
      rw [descendantsOfAll, mem_append] at hm
      rcases hm with hm | hm
      · refine descendants_induct n (hl n (.head _)) (fun p hp => hstep p ?_) m hm
        rw [descendantsOfAll]
        exact mem_append_left _ hp
      · refine descendantsOfAll_induct l (fun c hc => hl c (.tail n hc))
          (fun p hp => hstep p ?_) m hm
        rw [descendantsOfAll]
        exact mem_append_right _ hp

end

variable {n m : DominatorNode B}

theorem descendants_trans {k : DominatorNode B} (hm : m ∈ n.descendants)
    (hk : k ∈ m.descendants) : k ∈ n.descendants := by
  refine descendants_induct n (P := fun m => ∀ k ∈ m.descendants, k ∈ n.descendants) (fun _ => id)
    ?_ m hm k hk
  intro p _ hp c hc k hk
  exact hp k (mem_descendants.mpr (.inr ⟨c, hc, hk⟩))

theorem descendants_eq (n : DominatorNode B) :
    n.descendants = n :: descendantsOfAll n.getChildren := by
  cases n with
  | node b children => rfl

theorem descendantsOfAll_append (l l' : List (DominatorNode B)) :
    descendantsOfAll (l ++ l') = descendantsOfAll l ++ descendantsOfAll l' := by
  induction l with
  | nil => rfl
  | cons n l ih => rw [cons_append, descendantsOfAll, descendantsOfAll, ih, append_assoc]

theorem length_descendants_le_all {l : List (DominatorNode B)} (hn : n ∈ l) :
    n.descendants.length ≤ (descendantsOfAll l).length := by
  induction l with
  | nil => nomatch hn
  | cons m l ih =>
      rw [descendantsOfAll, length_append]
      rcases mem_cons.mp hn with rfl | hn
      · exact Nat.le_add_right _ _
      · exact (ih hn).trans (Nat.le_add_left _ _)

theorem length_descendants_child {c : DominatorNode B} (hc : c ∈ n.getChildren) :
    c.descendants.length < n.descendants.length := by
  rw [descendants_eq n, length_cons, Nat.lt_succ_iff]
  exact length_descendants_le_all hc

theorem length_descendants_le (hm : m ∈ n.descendants) :
    m.descendants.length ≤ n.descendants.length :=
  descendants_induct n (P := fun m => m.descendants.length ≤ n.descendants.length) le_rfl
    (fun _ _ hp _ hc => (length_descendants_child hc).le.trans hp) m hm

theorem length_descendants_lt (hm : m ∈ n.descendants) (hne : m ≠ n) :
    m.descendants.length < n.descendants.length := by
  rcases mem_descendants.mp hm with heq | ⟨c, hc, hmc⟩
  · exact absurd heq hne
  · exact (length_descendants_le hmc).trans_lt (length_descendants_child hc)

variable {n m : DominatorNode B}

def Child (p c : DominatorNode B) : Prop := c ∈ p.getChildren

theorem mem_descendants_iff : m ∈ n.descendants ↔ ReflTransGen Child n m := by
  constructor
  · refine descendants_induct n (P := fun m => ReflTransGen Child n m) .refl ?_ m
    exact fun p _ hp c hc => hp.tail hc
  · intro h
    induction h with
    | refl => exact self_mem_descendants n
    | tail _ hc ih => exact descendants_trans ih (mem_descendants.mpr (.inr ⟨_, hc, self_mem_descendants _⟩))

theorem not_transGen_self (n : DominatorNode B) : ¬ TransGen Child n n := by
  intro h
  obtain ⟨c, hc, hcn⟩ := TransGen.head'_iff.mp h
  have hlt := length_descendants_child hc
  have hle := length_descendants_le (mem_descendants_iff.mpr hcn)
  omega

theorem descendants_antisymm (hm : m ∈ n.descendants) (hn : n ∈ m.descendants) : n = m := by
  by_contra hne
  have hlt := length_descendants_lt hm (Ne.symm hne)
  have hle := length_descendants_le hn
  omega

end DominatorNode

structure DominatorForest (B : Type) where
  roots : List (DominatorNode B)
  post : Bool

namespace DominatorForest

variable {B : Type} [DecidableEq B] (T : DominatorForest B)

def nodes : List (DominatorNode B) := DominatorNode.descendantsOfAll T.roots

variable {T} in
omit [DecidableEq B] in
theorem length_descendants_le_nodes {n : DominatorNode B} (hn : n ∈ T.nodes) :
    n.descendants.length ≤ T.nodes.length := by
  obtain ⟨root, hroot, hn⟩ := DominatorNode.mem_descendantsOfAll.mp hn
  exact (DominatorNode.length_descendants_le hn).trans (DominatorNode.length_descendants_le_all hroot)

def getNode (b : B) : Option (DominatorNode B) :=
  T.nodes.find? fun n => decide (n.getBlock = b)

/-- `DominatorNode::getParent`: the node that has the node among its children. -/
def getParent (n : DominatorNode B) : Option (DominatorNode B) :=
  T.nodes.find? fun p => p.getChildren.any fun c => decide (c.getBlock = n.getBlock)

/-- `DominatorForest::dominates` of nodes: a search through the descendants. -/
def dominatesNode (node1 node2 : DominatorNode B) : Bool :=
  node1.descendants.any fun node => decide (node.getBlock = node2.getBlock)

/-- `DominatorForest::dominates` of blocks. -/
def dominatesBlock (B1 B2 : B) : Option Bool := do
  let nodeB1 ← T.getNode B1
  let nodeB2 ← T.getNode B2
  return dominatesNode nodeB1 nodeB2

/-- `DominatorForest::dominates` of instructions.  In one block the search for `J` starts
at `I`. -/
def dominates (f : CFG B) (I J : Instruction B) : Option Bool :=
  if I.parent = J.parent then
    let secondOneIsFound := (List.range' I.index (f.size I.parent - I.index)).any fun firstOne =>
      decide (firstOne = J.index)
    some (if secondOneIsFound then !T.post else T.post)
  else T.dominatesBlock I.parent J.parent

/-- `DominatorForest::strictlyDominates` of instructions. -/
def strictlyDominates (f : CFG B) (I J : Instruction B) : Option Bool :=
  if I = J then some false else T.dominates f I J

/-- `DominatorForest::strictlyDominates` of blocks. -/
def strictlyDominatesBlock (B1 B2 : B) : Option Bool :=
  if B1 = B2 then some false else T.dominatesBlock B1 B2

theorem dominates_of_parent_eq {f : CFG B} {I J : Instruction B} (heq : I.parent = J.parent)
    (hI : I.index < f.size I.parent) (hJ : J.index < f.size J.parent) :
    T.dominates f I J = some (if I.index ≤ J.index then !T.post else T.post) := by
  have hfound : ((List.range' I.index (f.size I.parent - I.index)).any fun firstOne =>
      decide (firstOne = J.index)) = true ↔ I.index ≤ J.index := by
    simp only [any_eq_true, mem_range'_1, decide_eq_true_eq, exists_eq_right]
    rw [← heq] at hJ
    omega
  unfold dominates
  simp only [if_pos heq, hfound]

/-! ## The shape of a forest -/

section Shape

open DominatorNode

variable {T} {n m p q c : DominatorNode B}

/-- One node for each block and at most one parent for each node. -/
structure WF (T : DominatorForest B) : Prop where
  node_unique : ∀ n ∈ T.nodes, ∀ m ∈ T.nodes, n.getBlock = m.getBlock → n = m
  parent_unique : ∀ p ∈ T.nodes, ∀ q ∈ T.nodes, ∀ c, Child p c → Child q c → p = q
  root_orphan : ∀ n ∈ T.roots, ∀ p ∈ T.nodes, ¬ Child p n

section

omit [DecidableEq B]

theorem root_mem_nodes (hn : n ∈ T.roots) : n ∈ T.nodes :=
  mem_descendantsOfAll.mpr ⟨n, hn, self_mem_descendants n⟩

theorem descendant_mem_nodes (hn : n ∈ T.nodes) (hm : m ∈ n.descendants) : m ∈ T.nodes := by
  obtain ⟨root, hroot, hn⟩ := mem_descendantsOfAll.mp hn
  exact mem_descendantsOfAll.mpr ⟨root, hroot, descendants_trans hn hm⟩

theorem child_mem_nodes (hp : p ∈ T.nodes) (hc : Child p c) : c ∈ T.nodes :=
  descendant_mem_nodes hp (mem_descendants.mpr (.inr ⟨c, hc, self_mem_descendants c⟩))

theorem nodes_induct {P : DominatorNode B → Prop} (hroot : ∀ n ∈ T.roots, P n)
    (hchild : ∀ p ∈ T.nodes, P p → ∀ c, Child p c → P c) : ∀ n ∈ T.nodes, P n :=
  descendantsOfAll_induct T.roots hroot hchild

theorem mem_roots_or_child (hn : n ∈ T.nodes) : n ∈ T.roots ∨ ∃ p ∈ T.nodes, Child p n :=
  nodes_induct (P := fun n => n ∈ T.roots ∨ ∃ p ∈ T.nodes, Child p n) (fun _ hroot => .inl hroot)
    (fun p hp _ _ hc => .inr ⟨p, hp, hc⟩) n hn

end

namespace WF

section

variable (h : T.WF) (hn : n ∈ T.nodes)

include h hn

theorem getNode_of_mem : T.getNode n.getBlock = some n := by
  unfold DominatorForest.getNode
  cases hfind : T.nodes.find? fun m => decide (m.getBlock = n.getBlock) with
  | none => simpa using List.find?_eq_none.mp hfind n hn
  | some m =>
      have hm : decide (m.getBlock = n.getBlock) = true :=
        List.find?_some (p := fun m : DominatorNode B => decide (m.getBlock = n.getBlock)) hfind
      rw [h.node_unique m (mem_of_find?_eq_some hfind) n hn (of_decide_eq_true hm)]

/-- The parent of a node is the one whose child it is. -/
theorem getParent_eq_some_iff :
    T.getParent n = some p ↔ p ∈ T.nodes ∧ Child p n := by
  have hparent : ∀ q ∈ T.nodes, (q.getChildren.any fun c => decide (c.getBlock = n.getBlock)) = true ↔
      Child q n := by
    intro q hq
    rw [any_eq_true]
    constructor
    · rintro ⟨c, hc, heq⟩
      rw [← h.node_unique c (child_mem_nodes hq hc) n hn (of_decide_eq_true heq)]
      exact hc
    · exact fun hc => ⟨n, hc, decide_eq_true rfl⟩
  constructor
  · intro hfind
    have hp := mem_of_find?_eq_some hfind
    refine ⟨hp, (hparent p hp).mp ?_⟩
    exact List.find?_some (p := fun q : DominatorNode B =>
      q.getChildren.any fun c => decide (c.getBlock = n.getBlock)) hfind
  · rintro ⟨hp, hc⟩
    cases hfind : T.getParent n with
    | none => exact absurd ((hparent p hp).mpr hc) (List.find?_eq_none.mp hfind p hp)
    | some q =>
        have hq := mem_of_find?_eq_some hfind
        have hqc := (hparent q hq).mp (List.find?_some (p := fun q : DominatorNode B =>
          q.getChildren.any fun c => decide (c.getBlock = n.getBlock)) hfind)
        rw [h.parent_unique q hq p hp n hqc hc]

theorem dominatesNode_iff (hm : m ∈ T.nodes) :
    dominatesNode n m = true ↔ m ∈ n.descendants := by
  rw [dominatesNode, any_eq_true]
  constructor
  · rintro ⟨k, hk, heq⟩
    rw [← h.node_unique k (descendant_mem_nodes hn hk) m hm (of_decide_eq_true heq)]
    exact hk
  · exact fun hmem => ⟨m, hmem, decide_eq_true rfl⟩

theorem dominatesBlock_eq (hm : m ∈ T.nodes) :
    T.dominatesBlock n.getBlock m.getBlock = some (dominatesNode n m) := by
  unfold DominatorForest.dominatesBlock
  rw [h.getNode_of_mem hn, h.getNode_of_mem hm]
  rfl

end

end WF

end Shape

end DominatorForest

/-! ## Dominator trees -/

/-- The forest holds the part of the dominator tree over the blocks `U`. -/
structure IsDominatorForest {B : Type} [DecidableEq B] (r : B → B → Prop) (entry : B)
    (U : B → Prop) (T : DominatorForest B) : Prop where
  post_eq : T.post = false
  mem_iff : ∀ b, (∃ n ∈ T.nodes, n.getBlock = b) ↔ U b
  reachable : ∀ b, U b → ReflTransGen r entry b
  node_unique : ∀ n ∈ T.nodes, ∀ m ∈ T.nodes, n.getBlock = m.getBlock → n = m
  /-- The parent of a node is its immediate dominator. -/
  idom : ∀ n ∈ T.nodes, ∀ c ∈ n.getChildren, n.getBlock ≠ c.getBlock ∧
    Dominates r entry n.getBlock c.getBlock ∧
    ∀ d, d ≠ c.getBlock → Dominates r entry d c.getBlock → Dominates r entry d n.getBlock
  /-- A root has no dominator in the forest. -/
  root : ∀ n ∈ T.roots, ∀ d, U d → Dominates r entry d n.getBlock → d = n.getBlock

namespace IsDominatorForest

variable {B : Type} [DecidableEq B] {r : B → B → Prop} {entry : B} {U : B → Prop}
  {T : DominatorForest B} {n m : DominatorNode B} {a b : B}

section

variable (h : IsDominatorForest r entry U T)

include h

theorem wf : T.WF where
  node_unique := h.node_unique
  parent_unique := fun p hp q hq c hpc hqc => by
    have hidomp := h.idom p hp c hpc
    have hidomq := h.idom q hq c hqc
    have hpq := hidomq.2.2 _ hidomp.1 hidomp.2.1
    have hqp := hidomp.2.2 _ hidomq.1 hidomq.2.1
    have hreach := h.reachable _ ((h.mem_iff _).mp ⟨p, hp, rfl⟩)
    exact h.node_unique p hp q hq (hpq.antisymm hreach hqp)
  root_orphan := fun n hn p hp hpn => by
    have hidom := h.idom p hp n hpn
    exact hidom.1 (h.root n hn _ ((h.mem_iff _).mp ⟨p, hp, rfl⟩) hidom.2.1)

theorem exists_node (hb : U b) :
    ∃ n ∈ T.nodes, n.getBlock = b ∧ T.getNode b = some n := by
  obtain ⟨n, hn, rfl⟩ := (h.mem_iff b).mpr hb
  exact ⟨n, hn, rfl, h.wf.getNode_of_mem hn⟩

theorem dominates_descendant (hn : n ∈ T.nodes)
    (hm : m ∈ n.descendants) : Dominates r entry n.getBlock m.getBlock := by
  have hboth : m ∈ T.nodes ∧ Dominates r entry n.getBlock m.getBlock := by
    refine DominatorNode.descendants_induct n
      (P := fun m => m ∈ T.nodes ∧ Dominates r entry n.getBlock m.getBlock) ⟨hn, .refl _⟩ ?_ m hm
    rintro p _ ⟨hp, hnp⟩ c hc
    exact ⟨DominatorForest.child_mem_nodes hp hc, hnp.trans (h.idom p hp c hc).2.1⟩
  exact hboth.2

theorem descendant_of_dominates (hn : n ∈ T.nodes) (hm : m ∈ T.nodes)
    (hdom : Dominates r entry n.getBlock m.getBlock) : m ∈ n.descendants := by
  refine DominatorNode.descendantsOfAll_induct T.roots
    (P := fun m => m ∈ T.nodes → Dominates r entry n.getBlock m.getBlock → m ∈ n.descendants)
    ?_ ?_ m hm hm hdom
  · intro root hroot hrootmem hdom
    have heq := h.root root hroot n.getBlock ((h.mem_iff _).mp ⟨n, hn, rfl⟩) hdom
    rw [h.node_unique n hn root hrootmem heq]
    exact DominatorNode.self_mem_descendants root
  · intro p hp ih c hc hcmem hdom
    by_cases heq : n.getBlock = c.getBlock
    · rw [h.node_unique n hn c hcmem heq]
      exact DominatorNode.self_mem_descendants c
    · have hpn := ih hp ((h.idom p hp c hc).2.2 _ heq hdom)
      refine DominatorNode.descendants_trans hpn ?_
      exact DominatorNode.mem_descendants.mpr (.inr ⟨c, hc, DominatorNode.self_mem_descendants c⟩)

/-- The answer on two reachable blocks is dominance. -/
theorem dominatesBlock_spec (ha : U a) (hb : U b) :
    ∃ result, T.dominatesBlock a b = some result ∧ (result = true ↔ Dominates r entry a b) := by
  obtain ⟨n, hn, rfl, hgetn⟩ := h.exists_node ha
  obtain ⟨m, hm, rfl, hgetm⟩ := h.exists_node hb
  refine ⟨DominatorForest.dominatesNode n m, h.wf.dominatesBlock_eq hn hm, ?_⟩
  rw [h.wf.dominatesNode_iff hn hm]
  exact ⟨h.dominates_descendant hn, h.descendant_of_dominates hn hm⟩

/-- The answer on instructions is their order in a block, and dominance across blocks. -/
theorem dominates_spec {f : CFG B} {I J : Instruction B} (hI : U I.parent) (hJ : U J.parent)
    (hIf : f.Contains I) (hJf : f.Contains J) :
    ∃ result, T.dominates f I J = some result ∧ (result = true ↔
      if I.parent = J.parent then I.index ≤ J.index else Dominates r entry I.parent J.parent) := by
  by_cases heq : I.parent = J.parent
  · refine ⟨_, T.dominates_of_parent_eq heq hIf.2 hJf.2, ?_⟩
    rw [if_pos heq, h.post_eq]
    split <;> simp_all
  · unfold DominatorForest.dominates
    rw [if_neg heq, if_neg heq]
    exact h.dominatesBlock_spec hI hJ

/-- The parent is the closest strict dominator. -/
theorem getParent_spec (hn : n ∈ T.nodes) {d : B} (hd : U d) (hdn : d ≠ n.getBlock)
    (hdom : Dominates r entry d n.getBlock) :
    ∃ p ∈ T.nodes, T.getParent n = some p ∧ p.getBlock ≠ n.getBlock ∧
      Dominates r entry p.getBlock n.getBlock ∧
      ∀ d, d ≠ n.getBlock → Dominates r entry d n.getBlock → Dominates r entry d p.getBlock := by
  rcases DominatorForest.mem_roots_or_child hn with hroot | ⟨p, hp, hchild⟩
  · exact absurd (h.root n hroot d hd hdom) hdn
  · exact ⟨p, hp, (h.wf.getParent_eq_some_iff hn).mpr ⟨hp, hchild⟩, h.idom p hp n hchild⟩

end

end IsDominatorForest

end Noelle
