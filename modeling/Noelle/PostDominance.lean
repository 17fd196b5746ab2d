import Mathlib.Data.Fintype.Option
import Noelle.DominatorForest.Certificate
import Noelle.LoopForest.Natural

/-!
# PostDominance

Post-dominance in a control-flow graph, and post-dominator trees.

A block post-dominates another one if it is on every path from there to an exit.  This is
dominance in the reversed graph with a virtual root before the exits; the null block of the
root of LLVM's tree is `none`.  The exits are the blocks without successors, and whatever
blocks LLVM picks in regions that never end.
-/

namespace Noelle

open Relation Option

variable {B : Type}

namespace CFG

/-- The block ends the function. -/
def IsExit (f : CFG B) (b : B) : Prop := f.successors b = []

/-- No path from `e` to an exit avoids `b`. -/
def PostDominates (f : CFG B) (exits : B → Prop) (b e : B) : Prop :=
  ¬ ∃ x, exits x ∧ PathAvoiding f.Flow b e x

def ReachesExit (f : CFG B) (exits : B → Prop) : Prop :=
  ∀ b ∈ f.blocks, ∃ x, exits x ∧ ReflTransGen f.Flow b x

/-- The reversed graph with its virtual root. -/
def ExitFlow (f : CFG B) (exits : B → Prop) : Option B → Option B → Prop
  | none, some x => x ∈ f.blocks ∧ exits x
  | some c, some b => b ∈ f.blocks ∧ f.Flow b c
  | _, none => False

variable {f : CFG B} {exits : B → Prop} {a b c e x : B}

/-! ## Paths to an exit -/

theorem IsExit.not_flow (h : f.IsExit b) : ¬ f.Flow b c := by
  unfold Flow
  rw [h]
  exact List.not_mem_nil

namespace PostDominates

theorem refl (b : B) : f.PostDominates exits b b := fun ⟨_, _, hpath⟩ => hpath.1 rfl

theorem of_flow (h : f.PostDominates exits b e) (he : e ≠ b) (hflow : f.Flow e c) :
    f.PostDominates exits b c := by
  rintro ⟨x, hx, hcb, hpath⟩
  exact h ⟨x, hx, he, .head ⟨hflow, hcb⟩ hpath⟩

theorem of_successors (he : ¬ exits e) (h : ∀ c, f.Flow e c → f.PostDominates exits b c) :
    f.PostDominates exits b e := by
  rintro ⟨x, hx, heb, hpath⟩
  rcases hpath.cases_head with rfl | ⟨c, ⟨hflow, hcb⟩, hpath⟩
  · exact absurd hx he
  · exact h c hflow ⟨x, hx, hcb, hpath⟩

theorem eq_of_exit (h : f.PostDominates exits b x) (hx : exits x) : x = b := by
  by_contra hne
  exact h ⟨x, hx, .refl hne⟩

/-- A block that can end reaches its post-dominators, through blocks that they
post-dominate. -/
theorem reach (h : f.PostDominates exits b e) (hx : exits x) (hpath : ReflTransGen f.Flow e x) :
    ReflTransGen (fun y z => f.Flow y z ∧ f.PostDominates exits b z) e b := by
  induction hpath using ReflTransGen.head_induction_on with
  | refl => rw [h.eq_of_exit hx]
  | @head y z hflow _ ih =>
      by_cases hy : y = b
      · exact hy ▸ .refl
      · exact (ih (h.of_flow hy hflow)).head ⟨hflow, h.of_flow hy hflow⟩

end PostDominates

theorem ReachesExit.exists_successor (hexit : f.ReachesExit exits) (hb : b ∈ f.blocks)
    (hbx : ¬ exits b) : ∃ c, f.Flow b c ∧ ¬ f.PostDominates exits b c := by
  by_contra hnot
  push Not at hnot
  obtain ⟨x, hx, hpath⟩ := hexit b hb
  have hpost : ∀ y, ReflTransGen f.Flow b y → f.PostDominates exits b y := by
    intro y hy
    induction hy with
    | refl => exact .refl b
    | @tail y z _ hflow ih =>
        by_cases hy : y = b
        · exact hnot z (hy ▸ hflow)
        · exact ih.of_flow hy hflow
  rw [(hpost x hpath).eq_of_exit hx] at hx
  exact hbx hx

/-! ## The reversed graph -/

/-- A way to the virtual exit is a way to an exit. -/
theorem pathAvoiding_exitFlow (he : e ∈ f.blocks) :
    PathAvoiding (f.ExitFlow exits) (some b) none (some e) ↔
      ∃ x, exits x ∧ PathAvoiding f.Flow b e x := by
  constructor
  · rintro ⟨-, hpath⟩
    -- every block on the reversed path has a path to an exit
    have hall : ∀ o, ReflTransGen (fun x y => f.ExitFlow exits x y ∧ y ≠ some b) none o →
        ∀ e, o = some e → ∃ x, exits x ∧ PathAvoiding f.Flow b e x := by
      intro o ho
      induction ho with
      | refl => exact fun e h => absurd h (some_ne_none e).symm
      | @tail y z _ hyz ih =>
          rintro e rfl
          have heb : e ≠ b := fun h => hyz.2 (congrArg some h)
          cases y with
          | none => exact ⟨e, hyz.1.2, .refl heb⟩
          | some c =>
              obtain ⟨x, hx, hcb, hpath⟩ := ih c rfl
              exact ⟨x, hx, heb, .head ⟨hyz.1.2, hcb⟩ hpath⟩
    exact hall _ hpath e rfl
  · rintro ⟨x, hx, heb, hpath⟩
    refine ⟨(some_ne_none b).symm, ?_⟩
    induction hpath using ReflTransGen.head_induction_on with
    | refl => exact .single ⟨⟨he, hx⟩, fun h => heb (some.inj h)⟩
    | @head y z hyz _ ih =>
        exact (ih (f.successors_mem y he z hyz.1) hyz.2).tail
          ⟨⟨he, hyz.1⟩, fun h => heb (some.inj h)⟩

theorem dominates_exitFlow (he : e ∈ f.blocks) :
    Dominates (f.ExitFlow exits) none (some b) (some e) ↔ f.PostDominates exits b e :=
  not_congr (pathAvoiding_exitFlow he)

theorem ReachesExit.exitFlow (h : f.ReachesExit exits) (hb : b ∈ f.blocks) :
    ReflTransGen (f.ExitFlow exits) none (some b) := by
  obtain ⟨x, hx, hpath⟩ := h b hb
  induction hpath using ReflTransGen.head_induction_on with
  | refl => exact .single ⟨hb, hx⟩
  | @head y z hflow _ ih => exact (ih (f.successors_mem y hb z hflow)).tail ⟨hb, hflow⟩

namespace PostDominates

theorem mem_blocks (h : f.PostDominates exits b e) (hexit : f.ReachesExit exits)
    (he : e ∈ f.blocks) : b ∈ f.blocks := by
  have hall : ∀ y, ReflTransGen (fun y z => f.Flow y z ∧ f.PostDominates exits b z) e y →
      y ∈ f.blocks := by
    intro y hy
    induction hy with
    | refl => exact he
    | tail _ hyz ih => exact f.successors_mem _ ih _ hyz.1
  obtain ⟨x, hx, hpath⟩ := hexit e he
  exact hall b (h.reach hx hpath)

theorem trans (h : f.PostDominates exits a b) (h' : f.PostDominates exits b e) :
    f.PostDominates exits a e := by
  rintro ⟨x, hx, hpath⟩
  rcases hpath.avoids_or_leaves b with hpath | hpath
  · exact h' ⟨x, hx, hpath⟩
  · exact h ⟨x, hx, hpath⟩

theorem antisymm (h : f.PostDominates exits a b) (h' : f.PostDominates exits b a)
    (hexit : f.ReachesExit exits) (ha : a ∈ f.blocks) : a = b := by
  have hb := h'.mem_blocks hexit ha
  exact some.inj (Dominates.antisymm (hexit.exitFlow ha) ((dominates_exitFlow hb).mpr h)
    ((dominates_exitFlow ha).mpr h'))

theorem total (h : f.PostDominates exits a e) (h' : f.PostDominates exits b e)
    (hexit : f.ReachesExit exits) (he : e ∈ f.blocks) :
    f.PostDominates exits a b ∨ f.PostDominates exits b a :=
  (Dominates.total (hexit.exitFlow he) ((dominates_exitFlow he).mpr h)
    ((dominates_exitFlow he).mpr h')).imp (dominates_exitFlow (h'.mem_blocks hexit he)).mp
      (dominates_exitFlow (h.mem_blocks hexit he)).mp

end PostDominates

end CFG

/-! ## Post-dominator trees -/

/-- The forest is the post-dominator tree of the function. -/
structure IsPostDominatorForest [DecidableEq B] (f : CFG B) (exits : B → Prop) (T : DominatorForest (Option B)) :
    Prop where
  post_eq : T.post = true
  tree : IsDominatorForest (f.ExitFlow exits) none (fun o => ∀ b, o = some b → b ∈ f.blocks)
    { T with post := false }

namespace IsPostDominatorForest

variable [DecidableEq B] {f : CFG B} {exits : B → Prop} {T : DominatorForest (Option B)} {b e : B}

section

variable (h : IsPostDominatorForest f exits T)

include h

theorem wf : T.WF :=
  ⟨h.tree.wf.node_unique, h.tree.wf.parent_unique, h.tree.wf.root_orphan⟩

theorem getNode (hb : b ∈ f.blocks) :
    ∃ n ∈ T.nodes, n.getBlock = some b ∧ T.getNode (some b) = some n :=
  h.tree.exists_node fun _ h => some.inj h ▸ hb

theorem mem_descendants {n : DominatorNode (Option B)} (hn : n ∈ T.nodes)
    (hnb : n.getBlock = some b) (he : e ∈ f.blocks) :
    (∃ m ∈ n.descendants, m.getBlock = some e) ↔ f.PostDominates exits b e := by
  rw [← CFG.dominates_exitFlow he, ← hnb]
  constructor
  · rintro ⟨m, hm, hme⟩
    rw [← hme]
    exact h.tree.dominates_descendant hn hm
  · intro hdom
    obtain ⟨m, hm, hme, -⟩ := h.getNode he
    rw [← hme] at hdom
    exact ⟨m, h.tree.descendant_of_dominates hn hm hdom, hme⟩

theorem block_mem {n : DominatorNode (Option B)} (hn : n ∈ T.nodes)
    (hnb : n.getBlock = some b) : b ∈ f.blocks :=
  (h.tree.mem_iff _).mp ⟨n, hn, rfl⟩ b hnb

theorem reachesExit : f.ReachesExit exits := by
  intro b hb
  have hpath := h.tree.reachable (some b) fun _ h => some.inj h ▸ hb
  have hall : ∀ o, ReflTransGen (f.ExitFlow exits) none o →
      ∀ e, o = some e → ∃ x, exits x ∧ ReflTransGen f.Flow e x := by
    intro o ho
    induction ho with
    | refl => exact fun e h => absurd h (some_ne_none e).symm
    | @tail y z _ hyz ih =>
        rintro e rfl
        cases y with
        | none => exact ⟨e, hyz.2, .refl⟩
        | some c =>
            obtain ⟨x, hx, hpath⟩ := ih c rfl
            exact ⟨x, hx, .head hyz.2 hpath⟩
  exact hall _ hpath b rfl

end

end IsPostDominatorForest

/-! ## Small graphs -/

instance CFG.decidableExitFlow [DecidableEq B] (f : CFG B) : DecidableRel (f.ExitFlow f.IsExit)
  | none, some x => inferInstanceAs (Decidable (x ∈ f.blocks ∧ f.successors x = []))
  | some c, some b => inferInstanceAs (Decidable (b ∈ f.blocks ∧ c ∈ f.successors b))
  | none, none => inferInstanceAs (Decidable False)
  | some _, none => inferInstanceAs (Decidable False)

/-! ## A branch around a block -/

/-- `0 → 1`, `0 → 2` and `1 → 2`; the blocks `0` and `2` have two instructions. -/
def ifThenCFG : CFG (Fin 3) where
  blocks := [0, 1, 2]
  size := ![2, 1, 2]
  successors := ![[1, 2], [2], []]
  predecessors := ![[], [0], [0, 1]]
  size_pos := by decide
  successors_mem := by decide
  predecessors_mem := by decide
  mem_predecessors := by decide

def ifThenPostDominators : DominatorForest (Option (Fin 3)) :=
  ⟨[.node none [.node (some 2) [.node (some 1) [], .node (some 0) []]]], true⟩

/-- The post-dominators of a conditional without else. -/
theorem ifThenPostDominators_spec : IsPostDominatorForest ifThenCFG ifThenCFG.IsExit ifThenPostDominators where
  post_eq := rfl
  tree := by
    have hcertified : DominatorForest.IsCertified (ifThenCFG.ExitFlow ifThenCFG.IsExit) none
        { ifThenPostDominators with post := false } fun b => [[b]] :=
      ⟨rfl, by decide, by decide, by decide, by decide, by decide⟩
    exact hcertified.isDominatorForest (by decide)

def ifThenDominators : DominatorForest (Fin 3) :=
  ⟨[.node 0 [.node 1 [], .node 2 []]], false⟩

/-- The dominators of a conditional without else. -/
theorem ifThenDominators_spec : IsDominatorForest ifThenCFG.Flow 0 (ReflTransGen ifThenCFG.Flow 0)
    ifThenDominators := by
  have hreach : ∀ c, ReflTransGen ifThenCFG.Flow 0 c := fun c =>
    if hc : c = 0 then hc ▸ .refl
    else .single ((by decide : ∀ c : Fin 3, c ≠ 0 → ifThenCFG.Flow 0 c) c hc)
  have hcertified : DominatorForest.IsCertified ifThenCFG.Flow 0 ifThenDominators fun b => [[b]] :=
    ⟨rfl, by decide, by decide, by decide, by decide, by decide⟩
  exact hcertified.isDominatorForest fun b => iff_of_true (hreach b) (by revert b; decide)

end Noelle
