import Mathlib.Algebra.Order.BigOperators.Group.List
import Mathlib.Algebra.Order.Group.Nat
import Noelle.ControlFlowEquivalence.Basic

/-!
# ControlFlowEquivalence.Construction

The sets that `ControlFlowEquivalence` builds for a function are the classes of control
equivalent blocks.

The first loop leaves one set for every block that the entry reaches.  The second loop merges
a block with the next block of its chain that is in the same innermost loop: `findPartner`
follows the chain of the blocks that are entered and left together, since there the parent in
the post-dominator tree is a child in the dominator tree.
-/

namespace Noelle

open Relation PtrSet List Option

variable {F B : Type} [DecidableEq B]

/-- One of the blocks dominates the other one, which post-dominates it, and the innermost
loops of the tree that contain them are the same. -/
def ControlEquivalent (f : CFG B) (entry : B) (exits : B → Prop) (loops : LoopTree F B)
    (a b : B) : Prop :=
  (Encloses f entry exits a b ∨ Encloses f entry exits b a) ∧
    (loops.getInnermostLoopThatContains a).map (·.self) =
      (loops.getInnermostLoopThatContains b).map (·.self)

namespace ControlEquivalent

variable {f : CFG B} {entry : B} {exits : B → Prop} {loops : LoopTree F B} {a b c : B}

theorem refl (a : B) : ControlEquivalent f entry exits loops a a := ⟨.inl (.refl a), rfl⟩

theorem symm (h : ControlEquivalent f entry exits loops a b) :
    ControlEquivalent f entry exits loops b a := ⟨h.1.symm, h.2.symm⟩

theorem trans (h : ControlEquivalent f entry exits loops a b)
    (h' : ControlEquivalent f entry exits loops b c) (hexit : f.ReachesExit exits)
    (hentry : entry ∈ f.blocks) (hb : ReflTransGen f.Flow entry b) :
    ControlEquivalent f entry exits loops a c := by
  refine ⟨?_, h.2.trans h'.2⟩
  rcases h.1 with hab | hba <;> rcases h'.1 with hbc | hcb
  · exact .inl (hab.trans hbc)
  · exact hab.of_same_end hcb hb
  · exact hba.of_same_start hbc hexit (CFG.mem_blocks_of_reach hentry hb)
  · exact .inr (hcb.trans hba)

end ControlEquivalent

namespace ControlFlowEquivalence

/-! ## Trivial equivalence sets -/

section Creation

variable {f : CFG B} {entry b : B}

theorem sum_map_add_le {α : Type} {g g' : α → Nat} {l : List α} {a : α} {w : Nat} (ha : a ∈ l)
    (hle : ∀ x, g' x ≤ g x) (hdrop : g' a + w ≤ g a) : (l.map g').sum + w ≤ (l.map g).sum := by
  induction l with
  | nil => nomatch ha
  | cons x l ih =>
      rw [map_cons, map_cons, sum_cons, sum_cons]
      rcases mem_cons.mp ha with rfl | ha
      · have htail : (l.map g').sum ≤ (l.map g).sum := sum_le_sum fun x _ => hle x
        omega
      · have hx := hle x
        have htail := ih ha
        omega

/-- The blocks that blocks not yet seen can still add to the worklist. -/
def unseenSuccessors (f : CFG B) (bbSeen : PtrSet B) : Nat :=
  (f.blocks.map fun b => if b ∈ bbSeen then 0 else (f.successors b).length).sum

theorem unseenSuccessors_insert {bbSeen : PtrSet B} (hb : b ∈ f.blocks) (hnew : b ∉ bbSeen) :
    unseenSuccessors f (bbSeen.insert b) + (f.successors b).length ≤ unseenSuccessors f bbSeen := by
  refine sum_map_add_le hb (fun x => ?_) ?_
  · by_cases hx : x ∈ bbSeen
    · simp [hx]
    · by_cases hxb : x = b
      · simp [hxb]
      · simp [hx, hxb]
  · simp [hnew]

/-- Control can pass from the one block to the other, where the walk does not end. -/
def FlowUntil (f : CFG B) (endBBs : PtrSet B) (b c : B) : Prop := f.Flow b c ∧ c ∉ endBBs

omit [DecidableEq B] in
theorem flowUntil_empty (f : CFG B) : FlowUntil f ∅ = f.Flow := by
  funext b c
  exact propext ⟨fun h => h.1, fun h => ⟨h, not_mem_empty c⟩⟩

/-- The blocks that are seen, and those of the worklist, come from the entry, and no successor
of a seen block is missing. -/
structure CreationInv (f : CFG B) (endBBs : PtrSet B) (entry : B) (s : Creation B) : Prop where
  groups : Groups (· ∈ s.bbSeen) (fun _ _ => False) s.result
  seen : ∀ b ∈ s.bbSeen, ReflTransGen (FlowUntil f endBBs) entry b
  worklist : ∀ b ∈ s.bbWorklist, b ∈ f.blocks ∧
    (b ∉ endBBs → ReflTransGen (FlowUntil f endBBs) entry b)
  entry_mem : entry ∈ s.bbSeen ∨ entry ∈ s.bbWorklist
  closed : ∀ b ∈ s.bbSeen, ∀ c, FlowUntil f endBBs b c → c ∈ s.bbSeen ∨ c ∈ s.bbWorklist

/-- A step keeps the invariant and leaves less to visit. -/
theorem createNext_spec {endBBs : PtrSet B} (hend : entry ∉ endBBs) (s : Creation B)
    (hs : CreationInv f endBBs entry s) (hne : (!s.bbWorklist.isEmpty) = true) :
    ∃ s', createNext f endBBs s = some s' ∧ CreationInv f endBBs entry s' ∧
      s'.bbWorklist.length + unseenSuccessors f s'.bbSeen <
        s.bbWorklist.length + unseenSuccessors f s.bbSeen := by
  obtain ⟨worklist, bbSeen, result⟩ := s
  cases worklist with
  | nil => exact absurd hne (by simp)
  | cons b bbWorklist =>
      have hb := hs.worklist b (.head _)
      -- a block that was seen, or where the walk ends, is left out
      have hskip : (∀ c, c ∈ bbSeen ∨ c ∈ b :: bbWorklist → c ∉ endBBs →
          c ∈ bbSeen ∨ c ∈ bbWorklist) →
          CreationInv f endBBs entry ⟨bbWorklist, bbSeen, result⟩ := fun hleft =>
        ⟨hs.groups, hs.seen, fun c hc => hs.worklist c (.tail b hc),
          hleft entry hs.entry_mem hend, fun c hc d hcd => hleft d (hs.closed c hc d hcd) hcd.2⟩
      by_cases hseen : b ∈ bbSeen
      · refine ⟨⟨bbWorklist, bbSeen, result⟩, by simp [createNext, hseen], hskip fun c hc _ => ?_, ?_⟩
        · rcases hc with h | h
          · exact .inl h
          · rcases mem_cons.mp h with rfl | h
            · exact .inl hseen
            · exact .inr h
        · exact Nat.add_lt_add_right (Nat.lt_succ_self _) _
      by_cases hbend : b ∈ endBBs
      · refine ⟨⟨bbWorklist, bbSeen, result⟩, by simp [createNext, hseen, hbend],
          hskip fun c hc hcend => ?_, ?_⟩
        · refine hc.imp_right fun h => (mem_cons.mp h).resolve_left ?_
          rintro rfl
          exact hcend hbend
        · exact Nat.add_lt_add_right (Nat.lt_succ_self _) _
      · refine ⟨⟨bbWorklist ++ f.successors b, bbSeen.insert b, result.createEquivalenceSet b⟩,
          by simp [createNext, hseen, hbend], ⟨?_, ?_, ?_, ?_, ?_⟩, ?_⟩
        · have hgroups := hs.groups.createEquivalenceSet hseen
          simpa only [mem_insert] using hgroups
        · intro c hc
          rcases mem_insert.mp hc with rfl | hc
          · exact hb.2 hbend
          · exact hs.seen c hc
        · intro c hc
          rcases mem_append.mp hc with hc | hc
          · exact hs.worklist c (.tail b hc)
          · exact ⟨f.successors_mem b hb.1 c hc, fun hcend => (hb.2 hbend).tail ⟨hc, hcend⟩⟩
        · rcases hs.entry_mem with h | h
          · exact .inl (mem_insert.mpr (.inr h))
          · rcases mem_cons.mp h with rfl | h
            · exact .inl (mem_insert.mpr (.inl rfl))
            · exact .inr (mem_append_left _ h)
        · intro c hc d hcd
          rcases mem_insert.mp hc with rfl | hc
          · exact .inr (mem_append_right _ hcd.1)
          · rcases hs.closed c hc d hcd with h | h
            · exact .inl (mem_insert.mpr (.inr h))
            · rcases mem_cons.mp h with rfl | h
              · exact .inl (mem_insert.mpr (.inl rfl))
              · exact .inr (mem_append_left _ h)
        · have hdrop := unseenSuccessors_insert hb.1 hseen
          simp only [length_append, length_cons]
          omega

/-- Every block that the entry reaches on a way that does not end before it gets a set of its
own. -/
theorem createTrivialSets_spec (ord : IterOrder) (hentry : entry ∈ f.blocks) {endBBs : PtrSet B}
    (hend : entry ∉ endBBs) :
    ∃ N, ∀ fuel ≥ N, ∃ e,
      createTrivialSets fuel ord f (PtrSet.ofList [entry]) endBBs = some e ∧
        Groups (ReflTransGen (FlowUntil f endBBs) entry) (fun _ _ => False) e := by
  have hstart : ∀ b, b ∈ ord.visit (PtrSet.ofList [entry]).elems ↔ b = entry := fun b => by
    rw [IterOrder.mem_visit, mem_elems, mem_ofList, mem_singleton]
  let s₀ : Creation B := ⟨ord.visit (PtrSet.ofList [entry]).elems, ∅, empty⟩
  have h₀ : CreationInv f endBBs entry s₀ := by
    refine ⟨⟨fun b => ?_, fun b s h => ?_, fun a _ ha => ?_⟩, ?_, ?_, .inr ((hstart entry).mpr rfl),
      ?_⟩
    · simp [s₀, empty]
    · exact absurd h (some_ne_none s).symm
    · exact absurd ha (not_mem_empty a)
    · exact fun b hb => absurd hb (not_mem_empty b)
    · intro b hb
      rw [(hstart b).mp hb]
      exact ⟨hentry, fun _ => .refl⟩
    · exact fun b hb => absurd hb (not_mem_empty b)
  refine ⟨s₀.bbWorklist.length + unseenSuccessors f s₀.bbSeen, fun fuel hfuel => ?_⟩
  obtain ⟨s, hrun, hs, hempty⟩ := loopM_rule (CreationInv f endBBs entry)
    (fun s => s.bbWorklist.length + unseenSuccessors f s.bbSeen) (createNext_spec hend) fuel s₀ h₀
    hfuel
  have hnil : s.bbWorklist = [] := by simpa using hempty
  have hseen : ∀ b, b ∈ s.bbSeen ↔ ReflTransGen (FlowUntil f endBBs) entry b := by
    refine fun b => ⟨hs.seen b, fun hb => ?_⟩
    induction hb with
    | refl => simpa [hnil] using hs.entry_mem
    | @tail b c _ hbc ih => simpa [hnil] using hs.closed b ih c hbc
  refine ⟨s.result, by rw [createTrivialSets, hrun]; rfl, ?_⟩
  have hgroups := hs.groups
  simpa only [hseen] using hgroups

end Creation

/-! ## The search for a partner -/

theorem inSameInnermostLoop_iff {loops : LoopTree F B} {a b : B} :
    inSameInnermostLoop loops a b = true ↔
      (loops.getInnermostLoopThatContains a).map (·.self) =
        (loops.getInnermostLoopThatContains b).map (·.self) := by
  unfold inSameInnermostLoop
  cases loops.getInnermostLoopThatContains a <;> cases loops.getInnermostLoopThatContains b <;>
    simp

theorem mem_childrenBlocks {n : DominatorNode B} {b : B} :
    b ∈ childrenBlocks n ↔ ∃ c ∈ n.getChildren, c.getBlock = b := by
  simp [childrenBlocks]

section Search

variable {f : CFG B} {entry : B} {exits : B → Prop} {DT : DominatorForest B}
  {PDT : DominatorForest (Option B)} {loops : LoopTree F B} {a b p q u v : B}
  (hDT : IsDominatorForest f.Flow entry (ReflTransGen f.Flow entry) DT)
  (hPDT : IsPostDominatorForest f exits PDT) (hentry : entry ∈ f.blocks)

include hDT hPDT hentry

/-- On the way to a block that is left together with `q`, the parent of `q` in the
post-dominator tree is a child of `q` in the dominator tree. -/
theorem exists_parent (hq : ReflTransGen f.Flow entry q) {n : DominatorNode (Option B)}
    (hn : n ∈ PDT.nodes) (hnq : n.getBlock = some q) {d : DominatorNode B} (hd : d ∈ DT.nodes)
    (hdq : d.getBlock = q) (h : Encloses f entry exits q v) (hqv : q ≠ v)
    (hv : ReflTransGen f.Flow entry v) :
    ∃ m p, PDT.getParent n = some m ∧ m.getBlock = some p ∧ p ∈ childrenBlocks d ∧
      Encloses f entry exits p v := by
  have hexit := hPDT.reachesExit
  have hqblock := CFG.mem_blocks_of_reach hentry hq
  have hvblock := CFG.mem_blocks_of_reach hentry hv
  -- the parent is the immediate post-dominator
  obtain ⟨m, hm, hparent, hmq, hpost, hnext⟩ := hPDT.tree.getParent_spec (d := some v) hn
    (fun b hb => some.inj hb ▸ hvblock) (fun heq => hqv (some.inj (heq.trans hnq)).symm)
    (hnq ▸ (CFG.dominates_exitFlow hqblock).mpr h.postDominates)
  rw [hnq] at hmq hpost hnext
  cases hmb : m.getBlock with
  | none =>
      rw [hmb] at hnext
      have hroot := hnext (some v) (fun heq => hqv (some.inj heq).symm)
        ((CFG.dominates_exitFlow hqblock).mpr h.postDominates)
      exact absurd (PathAvoiding.refl (some_ne_none v).symm) hroot
  | some p =>
      rw [hmb] at hmq hpost hnext
      have hpq : p ≠ q := fun heq => hmq (congrArg some heq)
      have hpostpq : f.PostDominates exits p q := (CFG.dominates_exitFlow hqblock).mp hpost
      have hpblock := hpostpq.mem_blocks hexit hqblock
      have hnextpq : ∀ d, d ≠ q → f.PostDominates exits d q → f.PostDominates exits d p :=
        fun d hd hdq => (CFG.dominates_exitFlow hpblock).mp (hnext (some d)
          (fun heq => hd (some.inj heq)) ((CFG.dominates_exitFlow hqblock).mpr hdq))
      have hpv := h.next_dominates_end hexit hqblock hpostpq hnextpq hqv
      have hdom := h.dominates_next hexit hqblock hv hpostpq hnextpq hqv
      have hidom : ∀ {d}, d ≠ p → Dominates f.Flow entry d p → Dominates f.Flow entry d q :=
        fun hd hdp => h.start_idom_next hexit hqblock hv hpostpq hnextpq hqv hd hdp
      refine ⟨m, p, hparent, hmb, ?_, hpv, hnextpq v (Ne.symm hqv) h.postDominates⟩
      -- hence its parent in the dominator tree is the node of `q`
      obtain ⟨k, hk, hkp, -⟩ := hDT.exists_node (hpv.reach hv)
      rcases DominatorForest.mem_roots_or_child hk with hroot | ⟨j, hj, hchild⟩
      · exact absurd (hDT.root k hroot q hq (hkp.symm ▸ hdom)) fun heq => hpq (heq.trans hkp).symm
      · obtain ⟨hjk, hjdom, hjidom⟩ := hDT.idom j hj k hchild
        rw [hkp] at hjk hjdom hjidom
        have hjq : j.getBlock = q := (hidom hjk hjdom).antisymm ((hDT.mem_iff _).mp ⟨j, hj, rfl⟩)
          (hjidom q (Ne.symm hpq) hdom)
        have hjd : j = d := hDT.node_unique j hj d hd (hjq.trans hdq.symm)
        exact mem_childrenBlocks.mpr ⟨k, hjd ▸ hchild, hkp⟩

theorem encloses_parent {n m : DominatorNode (Option B)} (hnq : n.getBlock = some q) {d : DominatorNode B} (hd : d ∈ DT.nodes) (hdq : d.getBlock = q)
    (hm : PDT.getParent n = some m) (hmp : m.getBlock = some p) (hp : p ∈ childrenBlocks d) :
    m ∈ PDT.nodes ∧ ReflTransGen f.Flow entry p ∧ p ≠ q ∧ Encloses f entry exits q p := by
  have hmem : m ∈ PDT.nodes := mem_of_find?_eq_some hm
  obtain ⟨c, hc, hcp⟩ := mem_childrenBlocks.mp hp
  obtain ⟨hdc, hdom, -⟩ := hDT.idom d hd c hc
  rw [hdq, hcp] at hdc hdom
  have hreach := (hDT.mem_iff p).mp ⟨c, DominatorForest.child_mem_nodes hd hc, hcp⟩
  have hq : ReflTransGen f.Flow entry q := (hDT.mem_iff q).mp ⟨d, hd, hdq⟩
  have hchild := List.find?_some (p := fun m : DominatorNode (Option B) =>
    m.getChildren.any fun c => decide (c.getBlock = n.getBlock)) hm
  obtain ⟨k, hk, hkn⟩ := any_eq_true.mp hchild
  obtain ⟨-, hpost, -⟩ := hPDT.tree.idom m hmem k hk
  rw [hmp, of_decide_eq_true hkn, hnq] at hpost
  exact ⟨hmem, hreach, Ne.symm hdc, hdom,
    (CFG.dominates_exitFlow (CFG.mem_blocks_of_reach hentry hq)).mp hpost⟩

/-- The search from a block `q` of the chain of `u`, when no block up to `q` is in the innermost
loop of `u`. -/
theorem findPartner_spec (fuel : Nat) :
    ∀ {q : B} {n : DominatorNode (Option B)} {d : DominatorNode B}, n ∈ PDT.nodes →
      n.getBlock = some q → d ∈ DT.nodes → d.getBlock = q → Encloses f entry exits u q →
      (∀ v, ReflTransGen f.Flow entry v → Encloses f entry exits u v → u ≠ v →
        inSameInnermostLoop loops u v = true → Encloses f entry exits q v ∧ q ≠ v) →
      d.descendants.length ≤ fuel →
      ∃ partner, findPartner DT PDT loops u fuel (PDT.getParent n) (childrenBlocks d) =
          some partner ∧
        match partner with
        | none => ∀ v, ReflTransGen f.Flow entry v → Encloses f entry exits u v → u ≠ v →
            inSameInnermostLoop loops u v ≠ true
        | some p => ReflTransGen f.Flow entry p ∧ Encloses f entry exits u p ∧ p ≠ u ∧
            inSameInnermostLoop loops u p = true ∧
            ∀ v, ReflTransGen f.Flow entry v → Encloses f entry exits u v → u ≠ v →
              inSameInnermostLoop loops u v = true → Encloses f entry exits p v := by
  induction fuel with
  | zero =>
      intro q n d _ _ _ _ _ _ hfuel
      rw [DominatorNode.descendants_eq] at hfuel
      exact absurd hfuel (by simp)
  | succ fuel ih =>
      intro q n d hn hnq hd hdq huq hrest hfuel
      have hq : ReflTransGen f.Flow entry q := (hDT.mem_iff q).mp ⟨d, hd, hdq⟩
      -- whoever is left to be found goes through the parent
      have hnext : ∀ v, ReflTransGen f.Flow entry v → Encloses f entry exits u v → u ≠ v →
          inSameInnermostLoop loops u v = true → ∃ m p, PDT.getParent n = some m ∧
            m.getBlock = some p ∧ p ∈ childrenBlocks d ∧ Encloses f entry exits p v :=
        fun v hv huv hne hloop =>
          have hqv := hrest v hv huv hne hloop
          exists_parent hDT hPDT hentry hq hn hnq hd hdq hqv.1 hqv.2 hv
      cases hparent : PDT.getParent n with
      | none =>
          refine ⟨none, by rw [findPartner], fun v hv huv hne hloop => ?_⟩
          obtain ⟨m, p, hm, -⟩ := hnext v hv huv hne hloop
          exact absurd (hparent.symm.trans hm) (some_ne_none m).symm
      | some m =>
          cases hmb : m.getBlock with
          | none =>
              refine ⟨none, by rw [findPartner, hmb], fun v hv huv hne hloop => ?_⟩
              obtain ⟨m', p, hm, hmp, -⟩ := hnext v hv huv hne hloop
              obtain rfl := mem_unique hparent hm
              exact absurd (hmb.symm.trans hmp) (some_ne_none p).symm
          | some p =>
              -- the blocks that are left are enclosed by the parent
              have hleft : ∀ v, ReflTransGen f.Flow entry v → Encloses f entry exits u v → u ≠ v →
                  inSameInnermostLoop loops u v = true →
                    p ∈ childrenBlocks d ∧ Encloses f entry exits p v := by
                intro v hv huv hne hloop
                obtain ⟨m', p', hm, hmp, hchild, hpv⟩ := hnext v hv huv hne hloop
                obtain rfl := mem_unique hparent hm
                obtain rfl := mem_unique hmb hmp
                exact ⟨hchild, hpv⟩
              by_cases hchild : p ∈ childrenBlocks d
              · obtain ⟨hmnodes, hp, hpq, hqp⟩ :=
                  encloses_parent hDT hPDT hentry hnq hd hdq hparent hmb hchild
                have hup := huq.trans hqp
                obtain ⟨c, hc, hcp⟩ := mem_childrenBlocks.mp hchild
                have hcnodes := DominatorForest.child_mem_nodes hd hc
                have hget : DT.getNode p = some c := hcp ▸ hDT.wf.getNode_of_mem hcnodes
                have hpu : p ≠ u := fun heq =>
                  hpq (hqp.dominates.antisymm hq (heq ▸ huq.dominates)).symm
                by_cases hloop : inSameInnermostLoop loops u p = true
                · refine ⟨some p, ?_, hp, hup, hpu, hloop, fun v hv huv hne hv' =>
                    (hleft v hv huv hne hv').2⟩
                  simp [findPartner, hmb, hchild, hget, hloop]
                · have hlt := DominatorNode.length_descendants_child hc
                  obtain ⟨partner, hrun, hpartner⟩ := ih hmnodes hmb hcnodes hcp hup
                    (fun v hv huv hne hv' => ⟨(hleft v hv huv hne hv').2, fun heq =>
                      hloop (heq ▸ hv')⟩) (by omega)
                  refine ⟨partner, ?_, hpartner⟩
                  simp [findPartner, hmb, hchild, hget, hloop, hrun]
              · refine ⟨none, by simp [findPartner, hmb, hchild], fun v hv huv hne hloop => ?_⟩
                exact absurd (hleft v hv huv hne hloop).1 hchild

end Search

/-! ## Merged equivalence sets -/

section Merging

variable {f : CFG B} {entry : B} {exits : B → Prop} {DT : DominatorForest B}
  {PDT : DominatorForest (Option B)} {loops : LoopTree F B} {a b p u v : B}

/-- The block has been merged with the next block of its chain. -/
def Merged (f : CFG B) (entry : B) (exits : B → Prop) (loops : LoopTree F B) (r : B → B → Prop)
    (u : B) : Prop :=
  ∀ v, ReflTransGen f.Flow entry v → Encloses f entry exits u v → u ≠ v →
    inSameInnermostLoop loops u v = true → ∃ p, r p u ∧ p ≠ u ∧ Encloses f entry exits p v

/-- Merges relate blocks of a chain. -/
def Partners (f : CFG B) (entry : B) (exits : B → Prop) (loops : LoopTree F B)
    (r : B → B → Prop) : Prop :=
  ∀ p u, r p u → ReflTransGen f.Flow entry p ∧ ReflTransGen f.Flow entry u ∧
    Encloses f entry exits u p ∧ inSameInnermostLoop loops u p = true

/-- The nodes that are not below the worklist are merged. -/
structure MergingInv (f : CFG B) (entry : B) (exits : B → Prop) (DT : DominatorForest B)
    (loops : LoopTree F B) (r : B → B → Prop) (s : Merging B) : Prop where
  groups : Groups (ReflTransGen f.Flow entry) r s.result
  partners : Partners f entry exits loops r
  nodes : ∀ n ∈ s.dtWorklist, n ∈ DT.nodes
  merged : ∀ n ∈ DT.nodes, Merged f entry exits loops r n.getBlock ∨
    n ∈ DominatorNode.descendantsOfAll s.dtWorklist

theorem Merged.mono {r r' : B → B → Prop} (h : Merged f entry exits loops r u)
    (hle : ∀ a b, r a b → r' a b) : Merged f entry exits loops r' u := by
  intro v hv huv hne hloop
  obtain ⟨p, hr, hp⟩ := h v hv huv hne hloop
  exact ⟨p, hle _ _ hr, hp⟩

section Trees

variable (hDT : IsDominatorForest f.Flow entry (ReflTransGen f.Flow entry) DT)
  (hPDT : IsPostDominatorForest f exits PDT) (hentry : entry ∈ f.blocks)

include hDT hPDT hentry

variable {fuel : Nat} {r : B → B → Prop}

variable (loops) in
/-- The search of a node of the dominator tree ends: with no block, or with the first one. -/
theorem exists_partner (hfuel : DT.nodes.length ≤ fuel) {d : DominatorNode B} (hd : d ∈ DT.nodes) :
    ∃ n partner, PDT.getNode (some d.getBlock) = some n ∧
      findPartner DT PDT loops d.getBlock fuel (PDT.getParent n) (childrenBlocks d) = some partner ∧
      ((partner = none ∧ ∀ v, ReflTransGen f.Flow entry v → Encloses f entry exits d.getBlock v →
          d.getBlock ≠ v → inSameInnermostLoop loops d.getBlock v ≠ true) ∨
        ∃ p, partner = some p ∧ ReflTransGen f.Flow entry p ∧ Encloses f entry exits d.getBlock p ∧
          p ≠ d.getBlock ∧ inSameInnermostLoop loops d.getBlock p = true ∧
          ∀ v, ReflTransGen f.Flow entry v → Encloses f entry exits d.getBlock v → d.getBlock ≠ v →
            inSameInnermostLoop loops d.getBlock v = true → Encloses f entry exits p v) := by
  have hu : ReflTransGen f.Flow entry d.getBlock := (hDT.mem_iff _).mp ⟨d, hd, rfl⟩
  obtain ⟨n, hn, hnu, hget⟩ := hPDT.getNode (CFG.mem_blocks_of_reach hentry hu)
  have hlen : d.descendants.length ≤ fuel :=
    (DominatorForest.length_descendants_le_nodes hd).trans hfuel
  obtain ⟨partner, hfind, hpartner⟩ := @findPartner_spec _ _ _ _ _ _ _ _ loops _ hDT hPDT hentry
    fuel _ _ _ hn hnu hd rfl (.refl d.getBlock) (fun v _ huv hne _ => ⟨huv, hne⟩) hlen
  refine ⟨n, partner, hget, hfind, ?_⟩
  cases partner with
  | none => exact .inl ⟨rfl, hpartner⟩
  | some p => exact .inr ⟨p, rfl, hpartner⟩

/-- A merge step keeps the invariant and leaves a smaller worklist. -/
theorem mergeNext_spec (ord : IterOrder) (hfuel : DT.nodes.length ≤ fuel) (s : Merging B)
    (hs : ∃ r, MergingInv f entry exits DT loops r s) (hne : (!s.dtWorklist.isEmpty) = true) :
    ∃ s', mergeNext fuel ord DT PDT loops ∅ s = some s' ∧
      (∃ r, MergingInv f entry exits DT loops r s') ∧
      (DominatorNode.descendantsOfAll s'.dtWorklist).length <
        (DominatorNode.descendantsOfAll s.dtWorklist).length := by
  obtain ⟨r, hs⟩ := hs
  obtain ⟨worklist, result⟩ := s
  cases worklist with
  | nil => exact absurd hne (by simp)
  | cons d dtWorklist =>
      have hd := hs.nodes d (.head _)
      have hu : ReflTransGen f.Flow entry d.getBlock := (hDT.mem_iff _).mp ⟨d, hd, rfl⟩
      obtain ⟨n, partner, hget, hfind, hpartner⟩ :=
        exists_partner loops hDT hPDT hentry hfuel hd
      -- what is left does not depend on the partner
      have hnext : ∀ r' result', mergeNext fuel ord DT PDT loops ∅ ⟨d :: dtWorklist, result⟩ =
          some ⟨dtWorklist ++ d.getChildren, result'⟩ →
          Groups (ReflTransGen f.Flow entry) r' result' → Partners f entry exits loops r' →
          (∀ a b, r a b → r' a b) → Merged f entry exits loops r' d.getBlock →
          ∃ s', mergeNext fuel ord DT PDT loops ∅ ⟨d :: dtWorklist, result⟩ = some s' ∧
            (∃ r, MergingInv f entry exits DT loops r s') ∧
            (DominatorNode.descendantsOfAll s'.dtWorklist).length <
              (DominatorNode.descendantsOfAll (d :: dtWorklist)).length := by
        intro r' result' hrun hgroups hpartners hle hmerged
        refine ⟨_, hrun, ⟨r', hgroups, hpartners, fun m hm => ?_, fun m hm => ?_⟩, ?_⟩
        · rcases mem_append.mp hm with hm | hm
          · exact hs.nodes m (.tail d hm)
          · exact DominatorForest.child_mem_nodes hd hm
        · rcases hs.merged m hm with h | h
          · exact .inl (h.mono hle)
          · rw [DominatorNode.descendantsOfAll, DominatorNode.descendants_eq, cons_append,
              mem_cons, mem_append] at h
            rw [DominatorNode.descendantsOfAll_append, mem_append]
            rcases h with rfl | h | h
            · exact .inl hmerged
            · exact .inr (.inr h)
            · exact .inr (.inl h)
        · rw [DominatorNode.descendantsOfAll_append, DominatorNode.descendantsOfAll,
            DominatorNode.descendants_eq]
          simp only [length_append, length_cons]
          omega
      rcases hpartner with ⟨rfl, hnone⟩ | ⟨p, rfl, hp, hup, hpu, hloop, hrest⟩
      · refine hnext r result ?_ hs.groups hs.partners (fun _ _ => id) fun v hv huv hne hloop => ?_
        · simp [mergeNext, hget, hfind]
        · exact absurd hloop (hnone v hv huv hne)
      · have hrel : ∀ x y, r x y → ReflTransGen f.Flow entry x ∧ ReflTransGen f.Flow entry y :=
          fun x y hxy => ⟨(hs.partners x y hxy).1, (hs.partners x y hxy).2.1⟩
        obtain ⟨result', hmerge, hgroups⟩ := hs.groups.mergeEquivalenceSets ord hrel hu hp
        refine hnext (withPair r p d.getBlock) result' ?_ hgroups ?_ (fun _ _ => .inl)
          fun v hv huv hne hloop => ⟨p, .inr ⟨rfl, rfl⟩, hpu, hrest v hv huv hne hloop⟩
        · simp [mergeNext, hget, hfind, hmerge]
        · rintro x y (hxy | ⟨rfl, rfl⟩)
          · exact hs.partners x y hxy
          · exact ⟨hp, hu, hup, hloop⟩

section

variable (hpartners : Partners f entry exits loops r)

include hpartners

omit hDT in
theorem controlEquivalent_of_eqvGen (huv : EqvGen r u v)
    (hu : ReflTransGen f.Flow entry u) : ControlEquivalent f entry exits loops u v := by
  have hclosed : ClosedUnder r (ReflTransGen f.Flow entry) := fun a b hab =>
    iff_of_true (hpartners a b hab).1 (hpartners a b hab).2.1
  induction huv with
  | rel a b hab =>
      obtain ⟨-, -, hba, hloop⟩ := hpartners a b hab
      exact ⟨.inr hba, (inSameInnermostLoop_iff.mp hloop).symm⟩
  | refl a => exact .refl a
  | symm a b hab ih => exact (ih ((hclosed.eqvGen hab).mpr hu)).symm
  | trans a b c hab _ ih₁ ih₂ =>
      have hb := (hclosed.eqvGen hab).mp hu
      exact (ih₁ hu).trans (ih₂ hb) hPDT.reachesExit hentry hb

omit hPDT hentry in
/-- What a block encloses is merged with it, by induction on the tree below. -/
theorem eqvGen_of_encloses (hmerged : ∀ n ∈ DT.nodes, Merged f entry exits loops r n.getBlock)
    (k : Nat) :
    ∀ n ∈ DT.nodes, n.descendants.length ≤ k → ∀ v, ReflTransGen f.Flow entry v →
      Encloses f entry exits n.getBlock v → inSameInnermostLoop loops n.getBlock v = true →
        EqvGen r n.getBlock v := by
  induction k with
  | zero =>
      intro n _ hlen
      rw [DominatorNode.descendants_eq] at hlen
      exact absurd hlen (by simp)
  | succ k ih =>
      intro n hn hlen v hv huv hloop
      by_cases hne : n.getBlock = v
      · exact hne ▸ .refl _
      · -- the partner is a proper descendant in the dominator tree
        obtain ⟨p, hr, hpn, hpv⟩ := hmerged n hn v hv huv hne hloop
        obtain ⟨hp, -, hnp, hploop⟩ := hpartners p n.getBlock hr
        obtain ⟨m, hm, rfl, -⟩ := hDT.exists_node hp
        have hlt := DominatorNode.length_descendants_lt
          (hDT.descendant_of_dominates hn hm hnp.dominates) fun heq => hpn (heq ▸ rfl)
        have hmloop : inSameInnermostLoop loops m.getBlock v = true :=
          inSameInnermostLoop_iff.mpr ((inSameInnermostLoop_iff.mp hploop).symm.trans
            (inSameInnermostLoop_iff.mp hloop))
        exact ((EqvGen.rel _ _ hr).symm _ _).trans _ _ _ (ih m hm (by omega) v hv hpv hmloop)

theorem eqvGen_iff (hmerged : ∀ n ∈ DT.nodes, Merged f entry exits loops r n.getBlock)
    (hu : ReflTransGen f.Flow entry u) (hv : ReflTransGen f.Flow entry v) :
    EqvGen r u v ↔ ControlEquivalent f entry exits loops u v := by
  refine ⟨fun huv => controlEquivalent_of_eqvGen hPDT hentry hpartners huv hu, ?_⟩
  obtain ⟨n, hn, rfl, -⟩ := hDT.exists_node hu
  obtain ⟨m, hm, rfl, -⟩ := hDT.exists_node hv
  rintro ⟨henc | henc, hloop⟩
  · exact eqvGen_of_encloses hDT hpartners hmerged _ n hn le_rfl _ hv henc
      (inSameInnermostLoop_iff.mpr hloop)
  · exact (eqvGen_of_encloses hDT hpartners hmerged _ m hm le_rfl _ hu henc
      (inSameInnermostLoop_iff.mpr hloop.symm)).symm _ _

end

/-- The sets of a function are the classes of control equivalence of its reachable blocks. -/
theorem ofFunction_spec (ord : IterOrder) (loops : LoopTree F B) :
    ∃ N, ∀ fuel ≥ N, ∃ e, ofFunction fuel ord f entry DT PDT loops = some e ∧
      (∀ b, ¬ ReflTransGen f.Flow entry b → e.getEquivalences b = none) ∧
      (∀ b, ReflTransGen f.Flow entry b → ∃ bbs, e.getEquivalences b = some bbs ∧
        ∀ c, c ∈ bbs ↔
          ReflTransGen f.Flow entry c ∧ ControlEquivalent f entry exits loops b c) ∧
      ∀ b bbs, e.getEquivalences b = some bbs →
        b ∈ bbs ∧ ∀ c ∈ bbs, e.getEquivalences c = some bbs := by
  obtain ⟨N, hN⟩ := createTrivialSets_spec ord hentry (not_mem_empty entry)
  simp only [flowUntil_empty] at hN
  refine ⟨max N DT.nodes.length, fun fuel hfuel => ?_⟩
  obtain ⟨e₀, hcreate, hgroups₀⟩ := hN fuel ((le_max_left _ _).trans hfuel)
  have hnodes : DT.nodes.length ≤ fuel := (le_max_right _ _).trans hfuel
  obtain ⟨d, hd, hdentry, hget⟩ := hDT.exists_node (b := entry) .refl
  have hworklist : (ord.visit (PtrSet.ofList [entry]).elems).mapM DT.getNode = some [d] := by
    have hperm := ord.visit_perm (PtrSet.ofList [entry]).elems
    rw [perm_singleton.mp hperm]
    simp [hget]
  have hinv₀ : MergingInv f entry exits DT loops (fun _ _ => False) ⟨[d], e₀⟩ := by
    refine ⟨hgroups₀, fun p u h => h.elim, fun n hn => ?_, fun n hn => .inr ?_⟩
    · rw [mem_singleton.mp hn]
      exact hd
    · refine DominatorNode.mem_descendantsOfAll.mpr ⟨d, mem_singleton_self d, ?_⟩
      exact hDT.descendant_of_dominates hd hn (hdentry ▸ .entry_left _)
  have hlen : (DominatorNode.descendantsOfAll [d]).length ≤ fuel := by
    rw [DominatorNode.descendantsOfAll, DominatorNode.descendantsOfAll, append_nil]
    exact (DominatorForest.length_descendants_le_nodes hd).trans hnodes
  obtain ⟨s, hrun, ⟨r, hinv⟩, hempty⟩ := loopM_rule
    (fun s => ∃ r, MergingInv f entry exits DT loops r s)
    (fun s => (DominatorNode.descendantsOfAll s.dtWorklist).length)
    (mergeNext_spec hDT hPDT hentry ord hnodes) fuel ⟨[d], e₀⟩ ⟨_, hinv₀⟩ hlen
  have hnil : s.dtWorklist = [] := by simpa using hempty
  have hmerged : ∀ n ∈ DT.nodes, Merged f entry exits loops r n.getBlock := by
    intro n hn
    refine (hinv.merged n hn).resolve_right fun h => ?_
    rw [hnil] at h
    exact absurd h not_mem_nil
  refine ⟨s.result, ?_, fun b hb => hinv.groups.getEquivalences_none hb, fun b hb => ?_,
    fun b bbs hbbs => hinv.groups.getEquivalences_of_mem hbbs⟩
  · simp [ofFunction, calculateControlFlowEquivalences, hcreate, hworklist, hrun]
  · obtain ⟨bbs, hbbs, hmem⟩ := hinv.groups.getEquivalences hb
    refine ⟨bbs, hbbs, fun c => (hmem c).trans (and_congr_right fun hc => ?_)⟩
    exact eqvGen_iff hDT hPDT hentry hinv.partners hmerged hb hc

end Trees

end Merging

/-! ## A branch around a block -/

/-- Loops without a block of the function. -/
def noLoops : LoopTree Unit (Fin 3) := .node ⟨0, (), 0, 1, ∅⟩ []

/-- The blocks around the branch are equivalent. -/
theorem ofFunction_ifThen :
    ∃ N, ∀ fuel ≥ N, ∃ e,
      ofFunction fuel .stored ifThenCFG 0 ifThenDominators ifThenPostDominators noLoops = some e ∧
      (∀ b, ¬ ReflTransGen ifThenCFG.Flow 0 b → e.getEquivalences b = none) ∧
      (∀ b, ReflTransGen ifThenCFG.Flow 0 b → ∃ bbs, e.getEquivalences b = some bbs ∧
        ∀ c, c ∈ bbs ↔ ReflTransGen ifThenCFG.Flow 0 c ∧
          ControlEquivalent ifThenCFG 0 ifThenCFG.IsExit noLoops b c) ∧
      ∀ b bbs, e.getEquivalences b = some bbs →
        b ∈ bbs ∧ ∀ c ∈ bbs, e.getEquivalences c = some bbs :=
  ofFunction_spec ifThenDominators_spec ifThenPostDominators_spec (by decide) .stored noLoops

example : ((ofFunction 10 .stored ifThenCFG 0 ifThenDominators ifThenPostDominators noLoops).bind
    (·.getEquivalences 2)).map (·.elems) = some [0, 2] := by decide +kernel

end ControlFlowEquivalence

end Noelle
