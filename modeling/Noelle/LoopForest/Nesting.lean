import Noelle.Lib.Nesting
import Noelle.LoopForest.Construction
import Noelle.LoopForest.Natural
import Noelle.LoopForest.Trees

/-!
# LoopForest.Nesting

The loops given to the constructor of a loop forest, as a nesting.

The given loops are some natural loops of some functions.  A walk up the dominator tree
from the header of a loop towards the header of a loop around it finds a given loop in
between if and only if the loop around it is not the innermost given one.
-/

namespace Noelle

open Relation

variable {F B : Type}

/-- `l` strictly contains `l'`. -/
def LoopStructure.StrictlyContains (l l' : LoopStructure F B) : Prop :=
  (∀ b ∈ l'.bbs, b ∈ l.bbs) ∧ ∃ b ∈ l.bbs, b ∉ l'.bbs

/-- Natural loops of the functions, with the dominator trees of these functions. -/
structure GivenLoops [DecidableEq B] (body : F → CFG B) (entry : F → B)
    (doms : F → Option (DominatorForest B)) (loops : List (LoopStructure F B)) : Prop where
  nodup : loops.Nodup
  natural : ∀ l ∈ loops, IsNaturalLoop (body l.function) (entry l.function) l
  /-- A header has one loop. -/
  header_inj : ∀ l ∈ loops, ∀ l' ∈ loops, l.header = l'.header → l = l'
  /-- The nesting level counts the loops of the function around the header. -/
  depth_eq_one : ∀ l ∈ loops, l.depth = 1 ↔
    ∀ h, NaturalLoop (body l.function).Flow (entry l.function) h l.header → h = l.header
  entry_mem : ∀ l ∈ loops, entry l.function ∈ (body l.function).blocks
  /-- A block belongs to one function. -/
  blocks_disjoint : ∀ F F' b, b ∈ (body F).blocks → b ∈ (body F').blocks → F = F'
  doms : ∀ l ∈ loops, ∃ DT, doms l.function = some DT ∧
    IsDominatorForest (body l.function).Flow (entry l.function)
      (ReflTransGen (body l.function).Flow (entry l.function)) DT

namespace GivenLoops

variable [DecidableEq B] {body : F → CFG B} {entry : F → B} {doms : F → Option (DominatorForest B)}
  {loops : List (LoopStructure F B)} {l l' m : LoopStructure F B}

section

variable (h : GivenLoops body entry doms loops) (hl : l ∈ loops) (hl' : l' ∈ loops)

include h hl hl'

theorem function_eq {b : B} (hb : b ∈ l.bbs) (hb' : b ∈ l'.bbs) : l.function = l'.function := by
  have hblocks : ∀ m ∈ loops, b ∈ m.bbs → b ∈ (body m.function).blocks := fun m hm hb =>
    CFG.mem_blocks_of_reach (h.entry_mem m hm) (((h.natural m hm).mem_iff b).mp hb).1
  exact h.blocks_disjoint _ _ b (hblocks l hl hb) (hblocks l' hl' hb')

theorem strictlyContains_iff :
    l.StrictlyContains l' ↔ l'.header ∈ l.bbs ∧ l'.header ≠ l.header := by
  have hn := h.natural l hl
  have hn' := h.natural l' hl'
  constructor
  · rintro ⟨hsub, b, hb, hb'⟩
    refine ⟨hsub _ hn'.header_mem, fun heq => hb' ?_⟩
    rw [h.header_inj l' hl' l hl heq]
    exact hb
  · rintro ⟨hmem, hne⟩
    rw [← h.function_eq hl hl' hmem hn'.header_mem] at hn'
    have hheader := (hn.mem_iff _).mp hmem
    have hheader' := (hn'.mem_iff _).mp hn'.header_mem
    refine ⟨fun b hb => (hn.mem_iff b).mpr ?_, l.header, hn.header_mem,
      hn.header_not_mem hn' hmem hne⟩
    exact NaturalLoop.subset_of_dominates hheader.dominates hheader hheader'
      ((hn'.mem_iff b).mp hb)

theorem nested_of_mem {b : B} (hb : b ∈ l.bbs) (hb' : b ∈ l'.bbs) :
    l = l' ∨ l.StrictlyContains l' ∨ l'.StrictlyContains l := by
  have hn := h.natural l hl
  have hn' := h.natural l' hl'
  rw [h.function_eq hl hl' hb hb'] at hn
  by_cases heq : l.header = l'.header
  · exact .inl (h.header_inj l hl l' hl' heq)
  · rcases NaturalLoop.nested ((hn.mem_iff _).mp hb) ((hn'.mem_iff _).mp hb') with
      ⟨-, hsub⟩ | ⟨-, hsub⟩
    · refine .inr (.inl ((h.strictlyContains_iff hl hl').mpr ⟨?_, Ne.symm heq⟩))
      exact (hn.mem_iff _).mpr (hsub _ ((hn'.mem_iff _).mp hn'.header_mem))
    · refine .inr (.inr ((h.strictlyContains_iff hl' hl).mpr ⟨?_, heq⟩))
      exact (hn'.mem_iff _).mpr (hsub _ ((hn.mem_iff _).mp hn.header_mem))

end

theorem isNesting (h : GivenLoops body entry doms loops) :
    IsNesting loops LoopStructure.StrictlyContains where
  irrefl := fun _ _ ⟨_, _, hb, hb'⟩ => hb' hb
  trans := fun _ _ _ ⟨hsub, _⟩ ⟨hsub', b, hb, hb'⟩ =>
    ⟨fun b hb => hsub b (hsub' b hb), b, hsub b hb, hb'⟩
  chain := by
    intro a ha b hb x hx hax hbx
    have hheader := (h.natural x hx).header_mem
    exact h.nested_of_mem ha hb (hax.1 _ hheader) (hbx.1 _ hheader)

end GivenLoops

/-! ## The walk up the dominator tree -/

section Walk

variable [DecidableEq B] {r : B → B → Prop} {entry header : B} {U : B → Prop}
  {T : DominatorForest B} {f : LoopForest F B} {n top : DominatorNode B}

open Classical in
noncomputable def dominatorCount (r : B → B → Prop) (entry : B) (T : DominatorForest B) (b : B) :
    Nat :=
  (T.nodes.filter fun k => decide (Dominates r entry k.getBlock b)).length

variable (header) in
/-- The walk up the dominators stops at the first header that counts. -/
theorem findLoopInBetween_walk (hT : IsDominatorForest r entry U T) (htop : top ∈ T.nodes)
    {Q : B → Prop} (hnone : ∀ b, f.headerLoops.lookup b = none → ¬ Q b)
    (hsome : ∀ b m, f.headerLoops.lookup b = some m →
      ∃ c, f.heap m = some c ∧ (c.loop.isIncluded header = true ↔ Q b)) :
    ∀ {steps : Nat} {n : DominatorNode B}, n ∈ T.nodes →
      Dominates r entry top.getBlock n.getBlock → dominatorCount r entry T n.getBlock ≤ steps →
      ∃ found, f.findLoopInBetween T (some top) header steps (some n) = some found ∧
        (found = true ↔ ∃ d, d ≠ top.getBlock ∧ Dominates r entry top.getBlock d ∧
          Dominates r entry d n.getBlock ∧ Q d)
  | 0, n, hn, _, hcount => by
      classical
      have hself : n ∈ T.nodes.filter fun k => decide (Dominates r entry k.getBlock n.getBlock) :=
        List.mem_filter.mpr ⟨hn, decide_eq_true (.refl _)⟩
      have hpos := List.length_pos_of_mem hself
      unfold dominatorCount at hcount
      exact absurd hcount (by omega)
  | steps + 1, n, hn, hdom, hcount => by
      have hU : ∀ m ∈ T.nodes, U m.getBlock := fun m hm => (hT.mem_iff _).mp ⟨m, hm, rfl⟩
      unfold LoopForest.findLoopInBetween
      by_cases heq : top.getBlock = n.getBlock
      · refine ⟨false, if_pos (congrArg some heq), ?_⟩
        refine iff_of_false Bool.false_ne_true ?_
        rintro ⟨d, hne, htopd, hdn, -⟩
        exact hne (htopd.antisymm (hT.reachable _ (hU top htop)) (heq ▸ hdn)).symm
      · have hskip : ¬ (some top).map (fun m : DominatorNode B => m.getBlock) =
            (some n).map (fun m : DominatorNode B => m.getBlock) := fun h =>
          heq (Option.some.inj h)
        rw [if_neg hskip]
        -- what the walk finds above `n`
        obtain ⟨p, hp, hparent, hpn, hpdom, hidom⟩ := hT.getParent_spec hn (hU top htop) heq hdom
        have hless : dominatorCount r entry T p.getBlock < dominatorCount r entry T n.getBlock := by
          classical
          refine length_filter_lt (a := n) (fun k _ hk => ?_) hn (decide_eq_true (.refl _)) ?_
          · exact decide_eq_true ((of_decide_eq_true hk : Dominates _ _ _ _).trans hpdom)
          · exact decide_eq_false fun hnp =>
              hpn (hpdom.antisymm (hT.reachable _ (hU p hp)) hnp)
        obtain ⟨found, hfound, hiff⟩ := findLoopInBetween_walk hT htop hnone hsome hp
          (hidom _ heq hdom) (Nat.le_of_lt_succ (Nat.lt_of_lt_of_le hless hcount))
        have habove : ¬ Q n.getBlock → ∃ found,
            f.findLoopInBetween T (some top) header steps (T.getParent n) = some found ∧
            (found = true ↔ ∃ d, d ≠ top.getBlock ∧ Dominates r entry top.getBlock d ∧
              Dominates r entry d n.getBlock ∧ Q d) := by
          intro hQ
          refine ⟨found, hparent ▸ hfound, hiff.trans (exists_congr fun d => ?_)⟩
          refine and_congr_right fun _ => and_congr_right fun _ => ?_
          constructor
          · exact fun ⟨hdp, hd⟩ => ⟨hdp.trans hpdom, hd⟩
          · exact fun ⟨hdn, hd⟩ => ⟨hidom d (fun h => hQ (h ▸ hd)) hdn, hd⟩
        dsimp only
        cases hlookup : f.headerLoops.lookup n.getBlock with
        | none => exact habove (hnone _ hlookup)
        | some m =>
            obtain ⟨c, hc, hQ⟩ := hsome _ m hlookup
            dsimp only
            rw [hc]
            dsimp only
            by_cases hin : c.loop.isIncluded header = true
            · refine ⟨true, if_pos hin, iff_of_true rfl ?_⟩
              exact ⟨n.getBlock, Ne.symm heq, hdom, .refl _, hQ.mp hin⟩
            · rw [if_neg hin]
              exact habove fun h => hin (hQ.mpr h)

end Walk

/-- The walk from the header of a loop finds no other loop if and only if the loop it goes
to is the innermost one around it. -/
theorem GivenLoops.findLoopInBetween_spec [DecidableEq F] [DecidableEq B] {body : F → CFG B}
    {entry : F → B} {doms : F → Option (DominatorForest B)} {loops : List (LoopStructure F B)}
    {l l' : LoopStructure F B} {f : LoopForest F B} {DT : DominatorForest B} {steps : Nat}
    (h : GivenLoops body entry doms loops) (hreg : f.Registered)
    (hholds : ∀ l, l ∈ loops ↔ ∃ n, f.Holds n l) (hl : l ∈ loops) (hl' : l' ∈ loops)
    (hcontains : l.StrictlyContains l') (hDT : doms l.function = some DT)
    (hsteps : DT.nodes.length ≤ steps) :
    ∃ sub found, DT.getNode l'.header = some sub ∧
      f.findLoopInBetween DT (DT.getNode l.header) l'.header steps (DT.getParent sub) = some found ∧
      (found = true ↔ ¬ Innermost loops LoopStructure.StrictlyContains l' l) := by
  obtain ⟨DT', hDT', hT⟩ := h.doms l hl
  obtain rfl := Option.mem_unique hDT hDT'
  have hn := h.natural l hl
  -- the headers of the loops around `l'` dominate its header
  have hdominates : ∀ m ∈ loops, ∀ b ∈ m.bbs, (b ∈ l.bbs) →
      Dominates (body l.function).Flow (entry l.function) m.header b := by
    intro m hm b hb hbl
    have hnm := h.natural m hm
    rw [h.function_eq hm hl hb hbl] at hnm
    exact ((hnm.mem_iff b).mp hb).dominates
  have hin : l'.header ∈ l.bbs := hcontains.1 _ (h.natural l' hl').header_mem
  have hne : l'.header ≠ l.header := ((h.strictlyContains_iff hl hl').mp hcontains).2
  have hreach := ((hn.mem_iff _).mp hin).1
  have hreachTop := ((hn.mem_iff _).mp hn.header_mem).1
  obtain ⟨top, htop, htopb, hgettop⟩ := hT.exists_node hreachTop
  obtain ⟨sub, hsub, hsubb, hgetsub⟩ := hT.exists_node hreach
  obtain ⟨p, hp, hparent, hpne, hpdom, hidom⟩ := hT.getParent_spec hsub hreachTop
    (hsubb ▸ hne.symm) (hsubb ▸ hdominates l hl _ hin hin)
  rw [hsubb] at hpne hpdom hidom
  have hcount : dominatorCount (body l.function).Flow (entry l.function) DT p.getBlock ≤ steps :=
    (List.length_filter_le _ _).trans hsteps
  obtain ⟨found, hfound, hiff⟩ := findLoopInBetween_walk l'.header (f := f) hT htop
    (Q := fun b => ∃ m ∈ loops, m.header = b ∧ l'.header ∈ m.bbs)
    (fun b hnone => by
      rintro ⟨m, hm, rfl, -⟩
      obtain ⟨n, hnm⟩ := (hholds m).mp hm
      have hsome := (hreg.headerLoops m.header n).mpr ⟨m, hnm, rfl⟩
      exact Option.some_ne_none n (hsome.symm.trans hnone))
    (fun b n hsome => by
      obtain ⟨m, hnm, rfl⟩ := (hreg.headerLoops b n).mp hsome
      have hm : m ∈ loops := (hholds m).mpr ⟨n, hnm⟩
      obtain ⟨c, hc, rfl⟩ := LoopForest.holds_iff.mp hnm
      refine ⟨c, hc, ?_⟩
      rw [LoopStructure.isIncluded, decide_eq_true_eq]
      refine ⟨fun hmem => ⟨c.loop, hm, rfl, hmem⟩, ?_⟩
      rintro ⟨m', hm', heq, hmem⟩
      exact h.header_inj m' hm' c.loop hm heq ▸ hmem)
    hp (htopb ▸ hidom l.header hne.symm (hdominates l hl _ hin hin)) hcount
  rw [htopb] at hiff
  refine ⟨sub, found, hgetsub, by rw [hgettop, hparent]; exact hfound, hiff.trans ?_⟩
  rw [h.isNesting.not_innermost_iff hl hl' hcontains]
  constructor
  · rintro ⟨_, hdne, hldom, hdp, m, hm, rfl, hmem⟩
    -- the header in between is not the one of `l'`
    have hmne : l'.header ≠ m.header := fun heq =>
      hpne (hpdom.antisymm (hT.reachable _ ((hT.mem_iff _).mp ⟨p, hp, rfl⟩)) (heq ▸ hdp))
    have hml' : m.StrictlyContains l' := (h.strictlyContains_iff hm hl').mpr ⟨hmem, hmne⟩
    refine ⟨m, hm, hml', ?_⟩
    rcases h.isNesting.chain l hl m hm l' hl' hcontains hml' with heq | hlm | hml
    · exact absurd (heq ▸ rfl) hdne
    · exact hlm
    · have hmdom := hdominates m hm l.header (hml.1 _ hn.header_mem) hn.header_mem
      exact absurd (hldom.antisymm hreachTop hmdom).symm hdne
  · rintro ⟨m, hm, hml', hlm⟩
    obtain ⟨hmin, hmne⟩ := (h.strictlyContains_iff hl hm).mp hlm
    obtain ⟨hmem, hmne'⟩ := (h.strictlyContains_iff hm hl').mp hml'
    exact ⟨m.header, hmne, hdominates l hl _ hmin hmin,
      hidom _ hmne'.symm (hdominates m hm _ hmem hin), m, hm, rfl, hmem⟩

end Noelle
