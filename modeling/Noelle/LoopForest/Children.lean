import Noelle.LoopForest.Nesting

/-!
# LoopForest.Children

What the constructor of a loop forest builds.

The node of a given loop is its place in the vector.  A call of `addChildrenToTree`
attaches all given loops inside the loop of its root, each to the innermost given loop
around it.  The constructor starts these calls from the loops of nesting level 1 only, so
loops in none of these become trees, also those that lie inside each other.
-/

namespace Noelle

open Function Relation PtrSet List

namespace LoopForest

variable {F B : Type} [DecidableEq F] [DecidableEq B] {ord : IterOrder}
  {loops : List (LoopStructure F B)} {S S' : LoopStructure F B → Prop}
  {s s' : ForestConstruction F B} {l l' : LoopStructure F B} {n m p : Nat}

/-! ## States of the construction -/

/-- The nodes are allocated, and the loops of `S` are attached to the innermost given loop
around them. -/
structure Attached (loops : List (LoopStructure F B)) (S : LoopStructure F B → Prop)
    (s : ForestConstruction F B) : Prop where
  holds : ∀ n l, s.forest.Holds n l ↔ loops[n]? = some l
  parent : ∀ n p, s.forest.Parent n p ↔ ∃ l q, s.forest.Holds n l ∧ s.forest.Holds p q ∧ S l ∧
    Innermost loops LoopStructure.StrictlyContains l q
  mirror : ∀ p c, s.forest.heap p = some c → ∀ n, n ∈ c.children ↔ s.forest.Parent n p
  trees : ∀ n, n ∈ s.forest.trees ↔ ∃ l, s.forest.Holds n l ∧ l.depth = 1
  potentialTrees : ∀ n, n ∈ s.potentialTrees ↔ ∃ l, s.forest.Holds n l ∧ l.depth ≠ 1 ∧ ¬ S l
  registered : s.forest.Registered
  functionLoops : ∀ F l, l ∈ s.forest.functionLoops F ↔ l ∈ loops ∧ l.function = F
  nextNode : s.forest.nextNode = loops.length

namespace Attached

theorem mem_iff (h : Attached loops S s) : l ∈ loops ↔ ∃ n, s.forest.Holds n l := by
  simp only [h.holds]
  exact mem_iff_getElem?

theorem holds_inj (h : Attached loops S s) (hn : s.forest.Holds n l) (hm : s.forest.Holds m l) :
    n = m :=
  Option.mem_unique ((h.registered.nodes l n).mpr hn) ((h.registered.nodes l m).mpr hm)

theorem congr (h : Attached loops S s) (hS : ∀ l ∈ loops, S l ↔ S' l) : Attached loops S' s where
  holds := h.holds
  parent n p := by
    rw [h.parent]
    refine exists_congr fun l => exists_congr fun q => and_congr_right fun hl => ?_
    rw [hS l (h.mem_iff.mpr ⟨n, hl⟩)]
  mirror := h.mirror
  trees := h.trees
  potentialTrees n := by
    rw [h.potentialTrees]
    refine exists_congr fun l => and_congr_right fun hl => ?_
    rw [hS l (h.mem_iff.mpr ⟨n, hl⟩)]
  registered := h.registered
  functionLoops := h.functionLoops
  nextNode := h.nextNode

end Attached

/-! ## Allocating the nodes -/

theorem addLoop_fields (s : ForestConstruction F B) (l : LoopStructure F B) :
    (addLoop s l).forest.heap =
        update s.forest.heap s.forest.nextNode (some ⟨l, none, ∅⟩) ∧
      (addLoop s l).forest.nextNode = s.forest.nextNode + 1 ∧
      (addLoop s l).forest.nodes = s.forest.nodes.insert l s.forest.nextNode ∧
      (addLoop s l).forest.functionLoops = update s.forest.functionLoops l.function
        ((s.forest.functionLoops l.function).insert l) ∧
      (addLoop s l).forest.headerLoops = s.forest.headerLoops.insert l.header s.forest.nextNode := by
  unfold addLoop
  refine ⟨?_, ?_, ?_, ?_, ?_⟩ <;> split <;> rfl

theorem mem_trees_addLoop : n ∈ (addLoop s l).forest.trees ↔
    n ∈ s.forest.trees ∨ (n = s.forest.nextNode ∧ l.depth = 1) := by
  unfold addLoop
  by_cases hdepth : l.depth = 1
  · simp [hdepth, or_comm]
  · simp [hdepth]

theorem mem_potentialTrees_addLoop : n ∈ (addLoop s l).potentialTrees ↔
    n ∈ s.potentialTrees ∨ (n = s.forest.nextNode ∧ l.depth ≠ 1) := by
  unfold addLoop
  by_cases hdepth : l.depth = 1
  · simp [hdepth]
  · simp [hdepth, or_comm]

/-- One more loop has its node. -/
theorem Attached.addLoop {pre : List (LoopStructure F B)} (h : Attached pre (fun _ => False) s)
    (hl : l ∉ pre) (hheader : ∀ l' ∈ pre, l'.header ≠ l.header) :
    Attached (pre ++ [l]) (fun _ => False) (addLoop s l) := by
  obtain ⟨hheap, hnext, hnodes, hfunction, hheaders⟩ := addLoop_fields s l
  have hn := h.nextNode
  have hnot : ∀ x, ¬ s.forest.Holds s.forest.nextNode x := fun x hx => by
    rw [h.holds, hn] at hx
    simp at hx
  have hholds : ∀ m x, (LoopForest.addLoop s l).forest.Holds m x ↔
      s.forest.Holds m x ∨ (m = s.forest.nextNode ∧ x = l) := fun m x => by
    unfold Holds at hnot ⊢
    rw [hheap]
    by_cases hm : m = s.forest.nextNode
    · subst hm
      rw [update_self]
      refine ⟨fun hx => .inr ⟨rfl, (Option.some.inj hx).symm⟩, ?_⟩
      rintro (hx | ⟨-, rfl⟩)
      · exact absurd hx (hnot x)
      · rfl
    · rw [update_of_ne hm]
      simp [hm]
  have hparent : ∀ m p, ¬ (LoopForest.addLoop s l).forest.Parent m p := by
    rintro m p ⟨c, hc, hp⟩
    rw [hheap] at hc
    by_cases hm : m = s.forest.nextNode
    · rw [hm, update_self] at hc
      cases hc
      exact Option.some_ne_none p hp.symm
    · rw [update_of_ne hm] at hc
      obtain ⟨_, _, _, _, hfalse, _⟩ := (h.parent m p).mp ⟨c, hc, hp⟩
      exact hfalse
  refine ⟨fun m x => ?_, fun m p => ?_, fun p c hc m => ?_, fun m => ?_, fun m => ?_,
    ⟨fun x m => ?_, fun b m => ?_⟩, fun G x => ?_, ?_⟩
  · rw [hholds, h.holds, hn]
    by_cases hm : m < pre.length
    · rw [List.getElem?_append_left hm]
      simp [hm.ne]
    · rw [List.getElem?_append_right (not_lt.mp hm), List.getElem?_eq_none (not_lt.mp hm)]
      by_cases heq : m = pre.length
      · simp [heq, eq_comm]
      · have hlt : 0 < m - pre.length := by omega
        simp [heq, hlt.ne']
  · exact iff_of_false (hparent m p) fun ⟨_, _, _, _, hfalse, _⟩ => hfalse
  · refine iff_of_false (fun hm => ?_) (hparent m p)
    rw [hheap] at hc
    by_cases hp : p = s.forest.nextNode
    · rw [hp, update_self] at hc
      cases hc
      exact not_mem_empty m hm
    · rw [update_of_ne hp] at hc
      obtain ⟨_, _, _, _, hfalse, _⟩ := (h.parent m p).mp ((h.mirror p c hc m).mp hm)
      exact hfalse
  · rw [mem_trees_addLoop, h.trees]
    simp only [hholds, or_and_right, exists_or, and_assoc, exists_and_left, exists_eq_left]
  · rw [mem_potentialTrees_addLoop, h.potentialTrees]
    simp only [hholds, or_and_right, exists_or, and_assoc, exists_and_left, exists_eq_left,
      not_false_eq_true, and_true]
  · rw [hnodes, hholds]
    by_cases hx : x = l
    · subst hx
      have hold : ¬ s.forest.Holds m x := fun hm => hl (h.mem_iff.mpr ⟨m, hm⟩)
      rw [AList.lookup_insert]
      simp [hold, eq_comm]
    · rw [AList.lookup_insert_ne hx, h.registered.nodes]
      simp [hx]
  · rw [hheaders]
    simp only [hholds]
    by_cases hb : b = l.header
    · subst hb
      rw [AList.lookup_insert]
      constructor
      · intro hm
        exact ⟨l, .inr ⟨(Option.some.inj hm).symm, rfl⟩, rfl⟩
      · rintro ⟨x, hx | ⟨rfl, -⟩, hxl⟩
        · exact absurd hxl (hheader x (h.mem_iff.mpr ⟨m, hx⟩))
        · rfl
    · rw [AList.lookup_insert_ne hb, h.registered.headerLoops]
      refine exists_congr fun x => ⟨fun ⟨hx, hxb⟩ => ⟨.inl hx, hxb⟩, ?_⟩
      rintro ⟨hx | ⟨-, rfl⟩, hxb⟩
      · exact ⟨hx, hxb⟩
      · exact absurd hxb.symm hb
  · rw [hfunction]
    by_cases hG : G = l.function
    · subst hG
      rw [update_self, mem_insert, h.functionLoops]
      simp only [mem_append, mem_singleton]
      constructor
      · rintro (rfl | ⟨hx, hxG⟩)
        · exact ⟨.inr rfl, rfl⟩
        · exact ⟨.inl hx, hxG⟩
      · rintro ⟨hx | rfl, hxG⟩
        · exact .inr ⟨hx, hxG⟩
        · exact .inl rfl
    · rw [update_of_ne hG, h.functionLoops]
      simp only [mem_append, mem_singleton]
      refine ⟨fun ⟨hx, hxG⟩ => ⟨.inl hx, hxG⟩, ?_⟩
      rintro ⟨hx | rfl, hxG⟩
      · exact ⟨hx, hxG⟩
      · exact absurd hxG.symm hG
  · rw [hnext, hn, length_append, length_singleton]

/-- Every loop has its node. -/
theorem foldl_addLoop (hnodup : loops.Nodup)
    (hheader : ∀ l ∈ loops, ∀ l' ∈ loops, l.header = l'.header → l = l') :
    Attached loops (fun _ => False) (loops.foldl addLoop ⟨empty, ∅⟩) := by
  refine foldl_rule LoopForest.addLoop (fun (pre : List (LoopStructure F B)) s =>
    Attached pre (fun _ => False) s) ?_ ?_
  · have hparent : ∀ n p, ¬ (empty : LoopForest F B).Parent n p := fun _ _ ⟨_, hc, _⟩ =>
      Option.some_ne_none _ hc.symm
    have hholds : ∀ n l, ¬ (empty : LoopForest F B).Holds n l := fun _ _ hl =>
      Option.some_ne_none _ hl.symm
    exact ⟨fun n l => iff_of_false (hholds n l) (by simp),
      fun n p => iff_of_false (hparent n p) fun ⟨_, _, _, _, hfalse, _⟩ => hfalse,
      fun p c hc => absurd hc.symm (Option.some_ne_none c),
      fun n => iff_of_false (not_mem_empty n) fun ⟨l, hl, _⟩ => hholds n l hl,
      fun n => iff_of_false (not_mem_empty n) fun ⟨l, hl, _⟩ => hholds n l hl,
      ⟨fun l n => iff_of_false (Option.some_ne_none n).symm (hholds n l),
        fun b n => iff_of_false (Option.some_ne_none n).symm fun ⟨l, hl, _⟩ => hholds n l hl⟩,
      fun G l => iff_of_false (not_mem_empty l) fun ⟨hl, _⟩ => not_mem_nil hl, rfl⟩
  · rintro pre l post s rfl h
    have hl : l ∉ pre := fun hmem =>
      (nodup_append.mp hnodup).2.2 l hmem l (.head _) rfl
    refine h.addLoop hl fun l' hl' heq => hl ?_
    rw [← hheader l' (by simp [hl']) l (by simp) heq]
    exact hl'

/-! ## Attaching a child -/

/-- The loop joins the tree of the innermost loop around it. -/
theorem addChild_spec (h : Attached loops S s) (hnest : IsNesting loops LoopStructure.StrictlyContains)
    (hn : s.forest.Holds n l) (hp : s.forest.Holds p l')
    (hinner : Innermost loops LoopStructure.StrictlyContains l l') :
    ∃ f', s.forest.addChild p n = some f' ∧
      Attached loops (fun x => S x ∨ x = l) ⟨f', s.potentialTrees.erase n⟩ := by
  have hne : n ≠ p := by
    rintro rfl
    have heq : l = l' := Option.mem_unique hn hp
    exact hnest.irrefl l' hinner.1 (heq ▸ hinner.2.1)
  obtain ⟨r, hr, rfl⟩ := holds_iff.mp hp
  obtain ⟨this, hthis, rfl⟩ := holds_iff.mp hn
  let heap' := update
    (update s.forest.heap p (some { r with children := r.children.insert n })) n
    (some { this with parent := some p })
  have hheapn : heap' n = some { this with parent := some p } := update_self ..
  have hheapp : heap' p = some { r with children := r.children.insert n } :=
    (update_of_ne hne.symm _ _).trans (update_self ..)
  have hheap : ∀ m, m ≠ n → m ≠ p → heap' m = s.forest.heap m := fun m hmn hmp =>
    (update_of_ne hmn _ _).trans (update_of_ne hmp _ _)
  let f' : LoopForest F B := { s.forest with heap := heap' }
  have hadd : s.forest.addChild p n = some f' := by
    simp only [addChild, hr, Option.bind_eq_bind, Option.bind_some, setNode,
      update_of_ne hne, hthis]
    rfl
  have hholds : ∀ m x, f'.Holds m x ↔ s.forest.Holds m x := fun m x => by
    show (heap' m).map (·.loop) = some x ↔ (s.forest.heap m).map (·.loop) = some x
    by_cases hmn : m = n
    · rw [hmn, hheapn, hthis]
      rfl
    · by_cases hmp : m = p
      · rw [hmp, hheapp, hr]
        rfl
      · rw [hheap m hmn hmp]
  have hparent : ∀ m q, f'.Parent m q ↔ (m = n ∧ q = p) ∨ (m ≠ n ∧ s.forest.Parent m q) := by
    intro m q
    show (∃ c, heap' m = some c ∧ c.parent = some q) ↔ _
    by_cases hmn : m = n
    · rw [hmn, hheapn]
      simp [eq_comm]
    · rw [Parent]
      by_cases hmp : m = p
      · rw [hmp, hheapp, hr]
        simp [hne.symm]
      · rw [hheap m hmn hmp]
        simp [hmn]
  -- a loop that was attached before had the same parent
  have hold : ∀ q, s.forest.Parent n q → q = p := fun q hq => by
    obtain ⟨x, y, hx, hy, -, hxy⟩ := (h.parent n q).mp hq
    obtain rfl := Option.mem_unique hn hx
    rw [hnest.innermost_unique hxy hinner] at hy
    exact h.holds_inj hy hp
  refine ⟨f', hadd, fun m x => (hholds m x).trans (h.holds m x), fun m q => ?_,
    fun q c hc m => ?_, fun m => ?_, fun m => ?_, ⟨fun x m => ?_, fun b m => ?_⟩, h.functionLoops,
    h.nextNode⟩
  · simp only [hholds]
    rw [hparent, h.parent]
    constructor
    · rintro (⟨rfl, rfl⟩ | ⟨-, x, y, hx, hy, hS, hxy⟩)
      · exact ⟨this.loop, r.loop, hn, hp, .inr rfl, hinner⟩
      · exact ⟨x, y, hx, hy, .inl hS, hxy⟩
    · rintro ⟨x, y, hx, hy, hS, hxy⟩
      by_cases hmn : m = n
      · subst hmn
        obtain rfl := Option.mem_unique hn hx
        rw [hnest.innermost_unique hxy hinner] at hy
        exact .inl ⟨rfl, h.holds_inj hy hp⟩
      · refine .inr ⟨hmn, x, y, hx, hy, hS.resolve_right fun heq => hmn ?_, hxy⟩
        exact h.holds_inj (heq ▸ hx) hn
  · rw [hparent]
    change heap' q = some c at hc
    by_cases hqn : q = n
    · rw [hqn, hheapn] at hc
      cases hc
      refine (h.mirror n this hthis m).trans ⟨fun hm => .inr ⟨?_, hqn ▸ hm⟩, ?_⟩
      · rintro rfl
        exact hne (hold m hm)
      · rintro (⟨-, heq⟩ | ⟨-, hm⟩)
        · exact absurd (hqn.symm.trans heq) hne
        · exact hqn ▸ hm
    · by_cases hqp : q = p
      · rw [hqp, hheapp] at hc
        cases hc
        rw [mem_insert, h.mirror p r hr, hqp]
        by_cases hmn : m = n <;> simp [hmn]
      · rw [hheap q hqn hqp] at hc
        rw [h.mirror q c hc]
        refine ⟨fun hm => .inr ⟨?_, hm⟩, ?_⟩
        · rintro rfl
          exact hqp (hold q hm)
        · rintro (⟨-, heq⟩ | ⟨-, hm⟩)
          · exact absurd heq hqp
          · exact hm
  · simp only [hholds]
    exact h.trees m
  · simp only [hholds]
    rw [mem_erase, h.potentialTrees]
    constructor
    · rintro ⟨hmn, x, hx, hdepth, hS⟩
      refine ⟨x, hx, hdepth, not_or.mpr ⟨hS, fun heq => hmn ?_⟩⟩
      exact h.holds_inj (heq ▸ hx) hn
    · rintro ⟨x, hx, hdepth, hnot⟩
      refine ⟨fun hmn => hnot (.inr ?_), x, hx, hdepth, fun hS => hnot (.inl hS)⟩
      subst hmn
      exact Option.mem_unique hx hn
  · rw [hholds]
    exact h.registered.nodes x m
  · simp only [hholds]
    exact h.registered.headerLoops b m

/-! ## The recursion -/

variable {body : F → CFG B} {entry : F → B} {doms : F → Option (DominatorForest B)} {steps : Nat}

variable (ord) in
/-- All the loops inside a loop join its tree. -/
theorem addChildrenToTree_spec (h : GivenLoops body entry doms loops)
    (hsteps : ∀ G DT, doms G = some DT → DT.nodes.length ≤ steps) :
    ∀ {fuel : Nat} {S : LoopStructure F B → Prop} {s : ForestConstruction F B} {n : Nat}
      {l : LoopStructure F B}, Attached loops S s → s.forest.Holds n l →
      inside loops LoopStructure.StrictlyContains l < fuel →
      ∃ s', addChildrenToTree ord doms steps fuel s n = some s' ∧
        Attached loops (fun x => S x ∨ l.StrictlyContains x) s'
  | 0, _, _, _, _, _, _, hlt => nomatch hlt
  | fuel + 1, S, s, n, l, hs, hn, hlt => by
      have hl : l ∈ loops := hs.mem_iff.mpr ⟨n, hn⟩
      obtain ⟨DT, hDT, -⟩ := h.doms l hl
      have hmem : ∀ x, x ∈ ord.visit (s.forest.functionLoops l.function).elems ↔
          x ∈ loops ∧ x.function = l.function := fun x =>
        ord.mem_visit.trans (hs.functionLoops l.function x)
      unfold addChildrenToTree
      rw [hn]
      simp only [Option.bind_eq_bind, Option.bind_some, hDT]
      refine Exists.imp (fun s' hs' => ⟨hs'.1, hs'.2.congr fun x hx => ?_⟩)
        (foldlM_rule _ (fun (pre : List (LoopStructure F B)) s' => Attached loops (fun x => S x ∨
          ∃ c ∈ pre, Innermost loops LoopStructure.StrictlyContains c l ∧
            (x = c ∨ c.StrictlyContains x)) s') (hs.congr fun x _ => by simp) ?_)
      · intro pre a post s' hsplit hI
        obtain ⟨ha, hfunction⟩ := (hmem a).mp (by rw [hsplit]; simp)
        have hn' : s'.forest.Holds n l := (hI.holds n l).mpr ((hs.holds n l).mp hn)
        have hskip : ¬ Innermost loops LoopStructure.StrictlyContains a l →
            Attached loops (fun x => S x ∨ ∃ c ∈ pre ++ [a],
              Innermost loops LoopStructure.StrictlyContains c l ∧
                (x = c ∨ c.StrictlyContains x)) s' := fun hnot => by
          refine hI.congr fun x _ => or_congr_right (exists_congr fun c => ?_)
          rw [mem_append, mem_singleton]
          refine ⟨And.imp_left .inl, ?_⟩
          rintro ⟨hc | rfl, hinner⟩
          · exact ⟨hc, hinner⟩
          · exact absurd hinner.1 hnot
        by_cases hla : l.StrictlyContains a
        · obtain ⟨hin, hne⟩ := (h.strictlyContains_iff hl ha).mp hla
          obtain ⟨sub, found, hsub, hfound, hiff⟩ := h.findLoopInBetween_spec hI.registered
            (fun x => hI.mem_iff) hl ha hla hDT (hsteps _ DT hDT)
          have hincluded : l.isIncluded a.getHeader = true := decide_eq_true hin
          simp only [LoopStructure.getHeader] at hincluded ⊢
          simp only [hne, hincluded, Bool.not_true, Bool.false_eq_true, if_false, hsub, hfound,
            Option.bind_some]
          by_cases hinner : Innermost loops LoopStructure.StrictlyContains a l
          · rw [if_neg fun h => hiff.mp h hinner]
            obtain ⟨c, hc⟩ := hI.mem_iff.mp ha
            rw [(hI.registered.nodes a c).mpr hc, Option.bind_some]
            obtain ⟨f', hf', hattached⟩ := addChild_spec hI h.isNesting hc hn' hinner
            rw [hf', Option.bind_some]
            have hless := h.isNesting.inside_lt ha hla
            have hfuel : inside loops LoopStructure.StrictlyContains a < fuel := by omega
            obtain ⟨s'', hs'', hfinal⟩ := addChildrenToTree_spec h hsteps hattached
              ((hattached.holds c a).mpr ((hI.holds c a).mp hc)) hfuel
            refine ⟨s'', hs'', hfinal.congr fun x hx => ?_⟩
            simp only [mem_append, mem_singleton, or_and_right, exists_or,
              exists_eq_left, hinner, true_and, or_assoc]
          · rw [if_pos (hiff.mpr hinner)]
            exact ⟨s', rfl, hskip hinner⟩
        · refine ⟨s', ?_, hskip fun hinner => hla hinner.2.1⟩
          by_cases heq : a.getHeader = l.getHeader
          · exact if_pos heq
          · rw [if_neg heq]
            refine if_pos ?_
            have hin : a.getHeader ∉ l.bbs := fun hin =>
              hla ((h.strictlyContains_iff hl ha).mpr ⟨hin, heq⟩)
            simpa [LoopStructure.isIncluded] using hin
      · rw [h.isNesting.contains_iff_exists_child hl hx]
        refine or_congr_right (exists_congr fun c => ?_)
        rw [hmem]
        refine ⟨And.imp_left And.left, fun hx => ?_⟩
        obtain ⟨hc, hinner⟩ := hx
        refine ⟨⟨hc, ?_⟩, hinner⟩
        have hheader := (h.natural c hc).header_mem
        exact h.function_eq hc hl hheader (hinner.1.2.1.1 _ hheader)

/-! ## The constructor -/

/-- What the constructor builds. -/
structure Constructed (loops : List (LoopStructure F B)) (f : LoopForest F B) : Prop where
  nested : f.Nested
  registered : f.Registered
  holds : ∀ n l, f.Holds n l ↔ loops[n]? = some l
  /-- The parent of a loop is the innermost given loop around it, if some loop around it has
  nesting level 1. -/
  parent : ∀ n p, f.Parent n p ↔ ∃ l q, f.Holds n l ∧ f.Holds p q ∧
    (∃ m ∈ loops, m.depth = 1 ∧ m.StrictlyContains l) ∧
    Innermost loops LoopStructure.StrictlyContains l q

omit [DecidableEq F] in
theorem depth_ne_one (h : GivenLoops body entry doms loops) (hl : l ∈ loops) (hm : l' ∈ loops)
    (hcontains : l'.StrictlyContains l) : l.depth ≠ 1 := by
  intro hdepth
  obtain ⟨hin, hne⟩ := (h.strictlyContains_iff hm hl).mp hcontains
  have hnatural := h.natural l' hm
  rw [h.function_eq hm hl hin (h.natural l hl).header_mem] at hnatural
  exact hne ((h.depth_eq_one l hl).mp hdepth l'.header ((hnatural.mem_iff _).mp hin)).symm

/-- The forest of attached loops nests as the loops do. -/
theorem Attached.nested (h : Attached loops S s) (hnest : IsNesting loops LoopStructure.StrictlyContains)
    (hS : ∀ l ∈ loops, S l → ∃ m ∈ loops, m.StrictlyContains l)
    (hdepth : ∀ l ∈ loops, S l → l.depth ≠ 1) {trees : PtrSet Nat}
    (htrees : ∀ n, n ∈ trees ↔ n ∈ s.forest.trees ∨ n ∈ s.potentialTrees) :
    ({ s.forest with trees := trees } : LoopForest F B).Nested := by
  have hancestor : ∀ n a, TransGen s.forest.Parent n a → ∃ l q, s.forest.Holds n l ∧
      s.forest.Holds a q ∧ q.StrictlyContains l := by
    intro n a ha
    induction ha with
    | single hp =>
        obtain ⟨l, q, hl, hq, -, hinner⟩ := (h.parent _ _).mp hp
        exact ⟨l, q, hl, hq, hinner.2.1⟩
    | tail _ hp ih =>
        obtain ⟨l, q, hl, hq, hlq⟩ := ih
        obtain ⟨q', r, hq', hr, -, hinner⟩ := (h.parent _ _).mp hp
        obtain rfl := Option.mem_unique hq hq'
        exact ⟨l, r, hl, hr, hnest.trans r q l hinner.2.1 hlq⟩
  refine ⟨h.mirror, fun n p hp => ?_, fun n => ?_, fun n hn => ?_, fun n hn => ?_⟩
  · obtain ⟨-, q, -, hq, -⟩ := (h.parent n p).mp hp
    obtain ⟨c, hc, -⟩ := holds_iff.mp hq
    exact ⟨c, hc⟩
  · rw [htrees, h.trees, h.potentialTrees]
    have hroot : ∀ c, s.forest.heap n = some c → (c.parent = none ↔ ¬ S c.loop) := by
      intro c hc
      have hn : s.forest.Holds n c.loop := holds_iff.mpr ⟨c, hc, rfl⟩
      have hmem : c.loop ∈ loops := h.mem_iff.mpr ⟨n, hn⟩
      constructor
      · intro hnone hSl
        obtain ⟨m, hm, hcontains⟩ := hS _ hmem hSl
        obtain ⟨q, hinner⟩ := hnest.exists_innermost hmem hm hcontains
        obtain ⟨p, hp⟩ := h.mem_iff.mp hinner.1
        obtain ⟨d, hd, hdp⟩ := (h.parent n p).mpr ⟨c.loop, q, hn, hp, hSl, hinner⟩
        obtain rfl := Option.mem_unique hc hd
        exact Option.some_ne_none p (hdp.symm.trans hnone)
      · intro hSl
        by_contra hsome
        obtain ⟨p, hp⟩ := Option.ne_none_iff_exists'.mp hsome
        obtain ⟨l, -, hl, -, hSl', -⟩ := (h.parent n p).mp ⟨c, hc, hp⟩
        obtain rfl := Option.mem_unique hn hl
        exact hSl hSl'
    constructor
    · rintro (⟨l, hl, hone⟩ | ⟨l, hl, -, hSl⟩)
      · obtain ⟨c, hc, rfl⟩ := holds_iff.mp hl
        exact ⟨c, hc, (hroot c hc).mpr fun hSl => hdepth _ (h.mem_iff.mpr ⟨n, hl⟩) hSl hone⟩
      · obtain ⟨c, hc, rfl⟩ := holds_iff.mp hl
        exact ⟨c, hc, (hroot c hc).mpr hSl⟩
    · rintro ⟨c, hc, hnone⟩
      have hl : s.forest.Holds n c.loop := holds_iff.mpr ⟨c, hc, rfl⟩
      by_cases hone : c.loop.depth = 1
      · exact .inl ⟨c.loop, hl, hone⟩
      · exact .inr ⟨c.loop, hl, hone, (hroot c hc).mp hnone⟩
  · obtain ⟨l, q, hl, hq, hcontains⟩ := hancestor n n hn
    obtain rfl := Option.mem_unique hl hq
    exact hnest.irrefl l (h.mem_iff.mpr ⟨n, hl⟩) hcontains
  · cases hc : s.forest.heap n with
    | none => rfl
    | some c =>
        have hl := (h.holds n c.loop).mp (holds_iff.mpr ⟨c, hc, rfl⟩)
        have hlt := (List.getElem?_eq_some_iff.mp hl).1
        have hle : s.forest.nextNode ≤ n := hn
        rw [h.nextNode] at hle
        omega

variable (ord) in
/-- The forest is built of all the loops. -/
theorem construct_spec (h : GivenLoops body entry doms loops)
    (hsteps : ∀ G DT, doms G = some DT → DT.nodes.length ≤ steps) {fuel : Nat}
    (hfuel : loops.length ≤ fuel) :
    ∃ f, construct ord loops doms steps fuel = some f ∧ Constructed loops f := by
  have hinit := foldl_addLoop h.nodup h.header_inj
  set s₀ := loops.foldl addLoop ⟨empty, ∅⟩ with hs₀
  have hroots : ∃ s, (ord.visit s₀.forest.trees.elems).foldlM
      (addChildrenToTree ord doms steps fuel) s₀ = some s ∧ Attached loops (fun x =>
        ∃ t ∈ ord.visit s₀.forest.trees.elems, ∃ m, loops[t]? = some m ∧ m.StrictlyContains x) s := by
    refine foldlM_rule _ (fun (pre : List Nat) s => Attached loops (fun x =>
      ∃ t ∈ pre, ∃ m, loops[t]? = some m ∧ m.StrictlyContains x) s)
      (hinit.congr fun x _ => by simp) ?_
    intro pre t post s hsplit hs
    have ht : t ∈ s₀.forest.trees := ord.mem_visit.mp (hsplit ▸ by simp)
    obtain ⟨m, hm, -⟩ := (hinit.trees t).mp ht
    have hget := (hinit.holds t m).mp hm
    have hmem : m ∈ loops := mem_of_getElem? hget
    obtain ⟨s', hs', hfinal⟩ := addChildrenToTree_spec ord h hsteps hs
      ((hs.holds t m).mpr hget) (Nat.lt_of_lt_of_le (h.isNesting.inside_lt_length hmem) hfuel)
    refine ⟨s', hs', hfinal.congr fun x _ => ?_⟩
    simp only [mem_append, mem_singleton, or_and_right, exists_or, exists_eq_left, hget,
      Option.some.injEq, exists_eq_left']
  obtain ⟨s, hs, hattached⟩ := hroots
  have hfinal : Attached loops (fun x => ∃ m ∈ loops, m.depth = 1 ∧ m.StrictlyContains x) s := by
    refine hattached.congr fun x _ => ?_
    simp only [ord.mem_visit, mem_elems, hinit.trees, hinit.holds]
    constructor
    · rintro ⟨t, ⟨m, hm, hdepth⟩, m', hm', hcontains⟩
      obtain rfl := Option.mem_unique hm hm'
      exact ⟨m, mem_of_getElem? hm, hdepth, hcontains⟩
    · rintro ⟨m, hm, hdepth, hcontains⟩
      obtain ⟨t, ht⟩ := mem_iff_getElem?.mp hm
      exact ⟨t, ⟨m, ht, hdepth⟩, m, ht, hcontains⟩
  refine ⟨{ s.forest with
    trees := s.forest.trees.insertAll (ord.visit s.potentialTrees.elems) }, ?_, ?_⟩
  · unfold construct
    simp only [Option.bind_eq_bind, ← hs₀, hs, Option.bind_some]
    rfl
  · refine ⟨hfinal.nested h.isNesting ?_ ?_ fun n => ?_,
      ⟨hfinal.registered.nodes, hfinal.registered.headerLoops⟩, hfinal.holds, hfinal.parent⟩
    · rintro l _ ⟨m, hm, _, hcontains⟩
      exact ⟨m, hm, hcontains⟩
    · rintro l hl ⟨m, hm, _, hcontains⟩
      exact depth_ne_one h hl hm hcontains
    · rw [mem_insertAll, ord.mem_visit, mem_elems]

/-- What the constructor should build. -/
structure NestingForest (loops : List (LoopStructure F B)) (f : LoopForest F B) : Prop where
  nested : f.Nested
  given : ∀ n l, f.Holds n l → l ∈ loops
  node : ∀ l ∈ loops, ∃ n, f.Holds n l ∧ ∀ m, f.Holds m l → m = n
  tree : ∀ n l, f.Holds n l → ∃ tree, (tree ∈ f.trees ∧ ReflTransGen f.Parent n tree) ∧
    ∀ tree', tree' ∈ f.trees → ReflTransGen f.Parent n tree' → tree' = tree
  parent : ∀ n p l q, f.Holds n l → f.Holds p q →
    (f.Parent n p ↔ Innermost loops LoopStructure.StrictlyContains l q)
  root : ∀ n l, f.Holds n l → (n ∈ f.trees ↔ ∀ m ∈ loops, ¬ m.StrictlyContains l)

/-- The forest is right if and only if every given loop inside a given loop is also inside a
given loop of nesting level 1. -/
theorem construct_correct_iff (h : GivenLoops body entry doms loops)
    (hsteps : ∀ G DT, doms G = some DT → DT.nodes.length ≤ steps) {fuel : Nat}
    (hfuel : loops.length ≤ fuel) :
    (∃ f, construct ord loops doms steps fuel = some f ∧ NestingForest loops f) ↔
      ∀ l ∈ loops, (∃ m ∈ loops, m.StrictlyContains l) →
        ∃ m ∈ loops, m.depth = 1 ∧ m.StrictlyContains l := by
  obtain ⟨f, hf, hbuilt⟩ := construct_spec ord h hsteps hfuel
  have hnode : ∀ l ∈ loops, ∃ n, f.Holds n l := fun l hl => by
    obtain ⟨n, hn⟩ := mem_iff_getElem?.mp hl
    exact ⟨n, (hbuilt.holds n l).mpr hn⟩
  constructor
  · rintro ⟨f', hf', hright⟩ l hl ⟨m, hm, hcontains⟩
    obtain rfl := Option.mem_unique hf hf'
    obtain ⟨q, hinner⟩ := h.isNesting.exists_innermost hl hm hcontains
    obtain ⟨n, hn⟩ := hnode l hl
    obtain ⟨p, hp⟩ := hnode q hinner.1
    obtain ⟨l', -, hl', -, hroot, -⟩ :=
      (hbuilt.parent n p).mp ((hright.parent n p l q hn hp).mpr hinner)
    obtain rfl := Option.mem_unique hn hl'
    exact hroot
  · intro hcovered
    have hmem : ∀ n l, f.Holds n l → l ∈ loops := fun n l hn =>
      mem_of_getElem? ((hbuilt.holds n l).mp hn)
    have hparent : ∀ n p l q, f.Holds n l → f.Holds p q →
        (f.Parent n p ↔ Innermost loops LoopStructure.StrictlyContains l q) := by
      intro n p l q hn hp
      rw [hbuilt.parent]
      constructor
      · rintro ⟨l', q', hl', hq', -, hinner⟩
        obtain rfl := Option.mem_unique hn hl'
        obtain rfl := Option.mem_unique hp hq'
        exact hinner
      · exact fun hinner =>
          ⟨l, q, hn, hp, hcovered l (hmem n l hn) ⟨q, hinner.1, hinner.2.1⟩, hinner⟩
    refine ⟨f, hf, hbuilt.nested, hmem, fun l hl => ?_, fun n l hn => ?_, hparent, fun n l hn => ?_⟩
    · obtain ⟨n, hn⟩ := hnode l hl
      refine ⟨n, hn, fun m hm => ?_⟩
      have hlookup := (hbuilt.registered.nodes l m).mpr hm
      exact Option.mem_unique hlookup ((hbuilt.registered.nodes l n).mpr hn)
    · obtain ⟨c, hc, -⟩ := holds_iff.mp hn
      exact hbuilt.nested.existsUnique_tree hc
    · obtain ⟨c, hc, rfl⟩ := holds_iff.mp hn
      rw [hbuilt.nested.trees]
      constructor
      · rintro ⟨d, hd, hnone⟩ m hm hcontains
        obtain rfl := Option.mem_unique hc hd
        obtain ⟨q, hinner⟩ := h.isNesting.exists_innermost (hmem n _ hn) hm hcontains
        obtain ⟨p, hp⟩ := hnode q hinner.1
        obtain ⟨e, he, hparent'⟩ := (hparent n p _ q hn hp).mpr hinner
        obtain rfl := Option.mem_unique hc he
        exact Option.some_ne_none p (hparent'.symm.trans hnone)
      · intro hroot
        refine ⟨c, hc, ?_⟩
        by_contra hsome
        obtain ⟨p, hp⟩ := Option.ne_none_iff_exists'.mp hsome
        obtain ⟨l, q, hl, -, ⟨m, hm, -, hcontains⟩, -⟩ := (hbuilt.parent n p).mp ⟨c, hc, hp⟩
        obtain rfl := Option.mem_unique hn hl
        exact hroot m hm hcontains

/-! ## Three loops inside each other -/

/-- `0 → 1 → 2 → 3`, with edges from `3` back to `1`, `2` and `3`. -/
def chainCFG : CFG (Fin 4) where
  blocks := [0, 1, 2, 3]
  size _ := 1
  successors := ![[1], [2], [3], [1, 2, 3]]
  predecessors := ![[], [0, 3], [1, 3], [2, 3]]
  size_pos := by decide
  successors_mem := by decide
  predecessors_mem := by decide
  mem_predecessors := by decide

def chainLoop (header : Fin 4) : LoopStructure Unit (Fin 4) where
  self := header
  function := ()
  header := header
  depth := header
  bbs := ⟨[1, 2, 3].drop (header - 1), by revert header; decide⟩

def chainDominators : DominatorForest (Fin 4) := ⟨[.node 0 [.node 1 [.node 2 [.node 3 []]]]], false⟩

theorem chainFlow_iff {b c : Fin 4} :
    chainCFG.Flow b c ↔ c.val = b.val + 1 ∨ (b = 3 ∧ c ≠ 0) := by
  unfold CFG.Flow
  revert b c
  decide

theorem chain_path {d a : Fin 4} {k : Nat} (hk : k < 4) (hak : a.val ≤ k)
    (hd : d < a ∨ k < d.val) : PathAvoiding chainCFG.Flow d a ⟨k, hk⟩ := by
  induction k, hak using Nat.le_induction with
  | base => exact .refl (by omega)
  | succ k hak ih =>
      refine (ih (by omega) (by omega)).tail (chainFlow_iff.mpr (.inl rfl)) fun heq => ?_
      have hval : k + 1 = d.val := congrArg Fin.val heq
      omega

theorem chain_reach : ∀ (b : Fin 4), ReflTransGen chainCFG.Flow 0 b
  | ⟨0, _⟩ => .refl
  | ⟨k + 1, hk⟩ => (chain_reach ⟨k, by omega⟩).tail (chainFlow_iff.mpr (.inl rfl))

theorem chainDominates_iff {d b : Fin 4} : Dominates chainCFG.Flow 0 d b ↔ d ≤ b := by
  constructor
  · intro hdom
    by_contra hlt
    exact hdom (chain_path b.isLt (Nat.zero_le _) (.inr (not_le.mp hlt)))
  · rintro hle ⟨hne, hpath⟩
    have hbelow : b < d := by
      induction hpath with
      | refl => omega
      | @tail y z _ hyz ih =>
          rcases chainFlow_iff.mp hyz.1 with hz | ⟨rfl, -⟩
          · have hzd := hyz.2
            omega
          · omega
    omega

theorem chainNaturalLoop_iff {h b : Fin 4} :
    NaturalLoop chainCFG.Flow 0 h b ↔ h ≠ 0 ∧ h ≤ b := by
  constructor
  · intro hb
    refine ⟨?_, chainDominates_iff.mp hb.dominates⟩
    rintro rfl
    obtain ⟨-, l, hl, -⟩ := hb
    rcases chainFlow_iff.mp hl.edge with hval | ⟨-, hne⟩
    · exact absurd hval (by simp)
    · exact hne rfl
  · rintro ⟨hne, hle⟩
    have hlatch : IsLatch chainCFG.Flow 0 h 3 := ⟨chainFlow_iff.mpr (.inr ⟨rfl, hne⟩),
      chainDominates_iff.mpr (by omega), chain_reach 3⟩
    refine ⟨chain_reach b, 3, hlatch, ?_⟩
    by_cases heq : b = h
    · exact .inl heq
    · exact .inr (chain_path (k := 3) (by omega) (by omega) (.inl (by omega)))

/-- The dominators of the chain of nested loops. -/
theorem chainDominators_spec :
    IsDominatorForest chainCFG.Flow 0 (ReflTransGen chainCFG.Flow 0) chainDominators := by
  have hnodes : chainDominators.nodes = [.node 0 [.node 1 [.node 2 [.node 3 []]]],
    .node 1 [.node 2 [.node 3 []]], .node 2 [.node 3 []], .node 3 []] := rfl
  refine ⟨rfl, fun b => iff_of_true ?_ (chain_reach b), fun b _ => chain_reach b,
    fun n hn m hm => ?_, fun n hn c hc => ?_, fun n hn d _ hdom => ?_⟩
  · rw [hnodes]
    match b with
    | 0 => exact ⟨_, .head _, rfl⟩
    | 1 => exact ⟨_, .tail _ (.head _), rfl⟩
    | 2 => exact ⟨_, .tail _ (.tail _ (.head _)), rfl⟩
    | 3 => exact ⟨_, .tail _ (.tail _ (.tail _ (.head _))), rfl⟩
  · rw [hnodes] at hn hm
    simp only [mem_cons, not_mem_nil, or_false] at hn hm
    rcases hn with rfl | rfl | rfl | rfl <;> rcases hm with rfl | rfl | rfl | rfl <;>
      simp [DominatorNode.getBlock]
  · simp only [chainDominates_iff]
    rw [hnodes] at hn
    simp only [mem_cons, not_mem_nil, or_false] at hn
    rcases hn with rfl | rfl | rfl | rfl
    · obtain rfl := mem_singleton.mp hc
      decide
    · obtain rfl := mem_singleton.mp hc
      decide
    · obtain rfl := mem_singleton.mp hc
      decide
    · exact absurd hc not_mem_nil
  · obtain rfl := mem_singleton.mp hn
    exact Fin.le_zero_iff.mp (chainDominates_iff.mp hdom)

/-- Any loops of the chain are given as the forest wants them. -/
theorem chain_given {headers : List (Fin 4)} (hnodup : headers.Nodup) (h0 : 0 ∉ headers) :
    GivenLoops (fun _ => chainCFG) (fun _ => 0) (fun _ => some chainDominators)
      (headers.map chainLoop) := by
  have hne : ∀ l ∈ headers.map chainLoop, ∃ header, header ≠ 0 ∧ l = chainLoop header := by
    intro l hl
    obtain ⟨header, hmem, rfl⟩ := mem_map.mp hl
    exact ⟨header, fun heq => h0 (heq ▸ hmem), rfl⟩
  have hinj : ∀ a b : Fin 4, (chainLoop a).header = (chainLoop b).header → chainLoop a = chainLoop b :=
    fun a b heq => congrArg chainLoop heq
  refine ⟨hnodup.map fun a b heq => congrArg LoopStructure.header heq, fun l hl => ?_,
    fun l hl l' hl' heq => ?_, fun l hl => ?_, fun _ _ => .head _, fun _ _ _ _ _ => rfl,
    fun _ _ => ⟨chainDominators, rfl, chainDominators_spec⟩⟩
  · obtain ⟨header, hheader, rfl⟩ := hne l hl
    have hmem : ∀ h : Fin 4, h ≠ 0 → ∀ b, b ∈ (chainLoop h).bbs ↔ h ≠ 0 ∧ h ≤ b := by decide
    exact ⟨(hmem header hheader _).mpr ⟨hheader, le_rfl⟩,
      fun b => (hmem header hheader b).trans chainNaturalLoop_iff.symm⟩
  · obtain ⟨a, -, rfl⟩ := hne l hl
    obtain ⟨b, -, rfl⟩ := hne l' hl'
    exact hinj a b heq
  · obtain ⟨header, hheader, rfl⟩ := hne l hl
    simp only [chainNaturalLoop_iff]
    clear hl
    revert header
    decide

theorem chain_covered : ∀ l ∈ [1, 2, 3].map chainLoop,
    (∃ m ∈ [1, 2, 3].map chainLoop, m.StrictlyContains l) →
      ∃ m ∈ [1, 2, 3].map chainLoop, m.depth = 1 ∧ m.StrictlyContains l := by
  rintro l hl ⟨m, hm, -, b, hb, hnot⟩
  have hsub : ∀ h ∈ [1, 2, 3], ∀ b ∈ (chainLoop h).bbs, b ∈ (chainLoop 1).bbs := by decide
  obtain ⟨h, hh, rfl⟩ := mem_map.mp hl
  obtain ⟨h', hh', rfl⟩ := mem_map.mp hm
  have hne : h ≠ 1 := fun heq => hnot (heq ▸ hsub h' hh' b hb)
  refine ⟨chainLoop 1, mem_map.mpr ⟨1, by decide, rfl⟩, rfl, hsub h hh, 1, by decide, ?_⟩
  clear hnot hl
  revert h
  decide

theorem chain_all : ∃ f, construct .stored ([1, 2, 3].map chainLoop)
    (fun _ => some chainDominators) 4 3 = some f ∧ NestingForest ([1, 2, 3].map chainLoop) f :=
  (construct_correct_iff (chain_given (by decide) (by decide))
    (fun _ _ hDT => (Option.some.inj hDT) ▸ le_rfl) le_rfl).mpr chain_covered

/-- Without the outermost loop, the loop of `3` becomes a tree next to the loop of `2`
that contains it. -/
theorem chain_dropped : GivenLoops (fun _ => chainCFG) (fun _ => 0) (fun _ => some chainDominators)
      ([2, 3].map chainLoop) ∧ (chainLoop 2).StrictlyContains (chainLoop 3) ∧
    ∃ f, construct .stored ([2, 3].map chainLoop) (fun _ => some chainDominators) 4 2 = some f ∧
      f.Holds 1 (chainLoop 3) ∧ 1 ∈ f.trees :=
  ⟨chain_given (by decide) (by decide), ⟨by decide, 2, by decide, by decide⟩, _, rfl, rfl,
    by decide⟩

end LoopForest

end Noelle
