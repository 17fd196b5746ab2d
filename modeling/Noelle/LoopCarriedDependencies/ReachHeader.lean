import Noelle.LoopCarriedDependencies.Basic

/-!
# LoopCarriedDependencies.ReachHeader

The search of `canBasicBlockReachHeaderBeforeOther`.

The search is over blocks.  It goes on from every block of the loop but the header and the
destination, so it ends without the header exactly if every way to the header goes through
the destination.  It answers at once for two instructions of one block, and for an
instruction of the header: its block is the header that the search looks for.
-/

namespace Noelle

open Relation PtrSet List

namespace LoopCarriedDependencies

variable {F B : Type} [DecidableEq B] {f : CFG B} {entry : B} {LS : LoopStructure F B}
  {s s' : HeaderSearch B} {I J b c : B}

/-! ## Paths to the header -/

/-- The blocks that control goes through from the end of the block `b` to the next
execution of the header, inside the loop. -/
structure PathToHeader (f : CFG B) (LS : LoopStructure F B) (b : B) (blocks : List B) : Prop where
  steps : List.IsChain f.Flow (b :: (blocks ++ [LS.header]))
  inLoop : ∀ c ∈ blocks, c ∈ LS.bbs ∧ c ≠ LS.header

/-- What is executed after `I` on the way includes `J`. -/
def GoesThrough (I J : Instruction B) (blocks : List B) : Prop :=
  (J.parent = I.parent ∧ I.index < J.index) ∨ J.parent ∈ blocks

/-- A step of the search from a block that it goes on from. -/
def GoesOn (f : CFG B) (LS : LoopStructure F B) (J b c : B) : Prop :=
  f.Flow b c ∧ b ∈ LS.bbs ∧ b ≠ LS.header ∧ b ≠ J

omit [DecidableEq B] in
/-- Going on to the header is a path in the loop that avoids `J`. -/
theorem exists_path_iff : ReflTransGen (GoesOn f LS J) c LS.header ↔ c = LS.header ∨
    (c ∈ LS.bbs ∧ c ≠ LS.header ∧ c ≠ J ∧ ∃ blocks, PathToHeader f LS c blocks ∧ J ∉ blocks) := by
  constructor
  · intro hpath
    induction hpath using ReflTransGen.head_induction_on with
    | refl => exact .inl rfl
    | @head c d hstep _ ih =>
        obtain ⟨hflow, hc, hne, hJ⟩ := hstep
        refine .inr ⟨hc, hne, hJ, ?_⟩
        rcases ih with rfl | ⟨hd, hdne, hdJ, blocks, hblocks, hfree⟩
        · exact ⟨[], ⟨by simpa using hflow, nofun⟩,
            not_mem_nil⟩
        · refine ⟨d :: blocks, ⟨?_, fun x hx => ?_⟩, ?_⟩
          · exact isChain_cons_cons.mpr ⟨hflow, hblocks.steps⟩
          · cases mem_cons.mp hx with
            | inl heq => exact heq ▸ ⟨hd, hdne⟩
            | inr hx => exact hblocks.inLoop x hx
          · exact fun hmem => (mem_cons.mp hmem).elim (fun heq => hdJ heq.symm) hfree
  · rintro (rfl | ⟨hc, hne, hJ, blocks, hblocks, hfree⟩)
    · exact .refl
    · induction blocks generalizing c with
      | nil =>
          have hflow : f.Flow c LS.header := by simpa using hblocks.steps
          exact .single ⟨hflow, hc, hne, hJ⟩
      | cons d blocks ih =>
          obtain ⟨hflow, hsteps⟩ := isChain_cons_cons.mp hblocks.steps
          obtain ⟨hd, hdne⟩ := hblocks.inLoop d (.head _)
          have hdJ : d ≠ J := fun heq => hfree (heq ▸ (.head _))
          exact .head ⟨hflow, hc, hne, hJ⟩ (ih hd hdne hdJ
            ⟨hsteps, fun x hx => hblocks.inLoop x (.tail d hx)⟩
            fun hmem => hfree (.tail d hmem))

/-! ## The search for the header -/

/-- A block that was taken off the queue passed its successors on, unless the search stops
there. -/
structure Searching (f : CFG B) (LS : LoopStructure F B) (I J : B) (s : HeaderSearch B) : Prop where
  start : I ∈ s.enqueued
  queue_mem : ∀ b ∈ s.queue, b ∈ s.enqueued
  blocks : ∀ b ∈ s.enqueued, b ∈ f.blocks
  expanded : s.isHeaderReached = false → ∀ b ∈ s.enqueued, b ∈ s.queue ∨
    (b ≠ LS.header ∧ (b ∈ LS.getLoopExitBasicBlocks f ∨ b = J ∨
      ∀ c ∈ f.successors b, c ∈ s.enqueued))

/-- Blocks not yet enqueued, and blocks in the queue. -/
def searchMeasure (f : CFG B) (s : HeaderSearch B) : Nat :=
  (f.blocks.filter fun b => decide (b ∉ s.enqueued)).length + s.queue.length

/-- The blocks not enqueued yet join the queue, and the measure does not grow. -/
theorem foldl_enqueue_spec : ∀ (l : List B), (∀ c ∈ l, c ∈ f.blocks) → ∀ (s : HeaderSearch B),
    (∀ b, b ∈ (l.foldl enqueue s).enqueued ↔ b ∈ s.enqueued ∨ b ∈ l) ∧
      (∀ b, b ∈ (l.foldl enqueue s).queue ↔ b ∈ s.queue ∨ (b ∈ l ∧ b ∉ s.enqueued)) ∧
      (l.foldl enqueue s).isHeaderReached = s.isHeaderReached ∧
      searchMeasure f (l.foldl enqueue s) ≤ searchMeasure f s
  | [], _, s => ⟨by simp, by simp, rfl, le_rfl⟩
  | c :: l, hl, s => by
      obtain ⟨henq, hqueue, hreached, hle⟩ :=
        foldl_enqueue_spec l (fun d hd => hl d (.tail c hd)) (enqueue s c)
      rw [foldl_cons]
      by_cases hc : c ∈ s.enqueued
      · have hstep : enqueue s c = s := if_pos hc
        rw [hstep] at henq hqueue hreached hle ⊢
        refine ⟨fun b => (henq b).trans ?_, fun b => (hqueue b).trans ?_, hreached, hle⟩
        · rw [mem_cons]
          refine ⟨fun h => h.imp_right .inr, ?_⟩
          rintro (h | rfl | h)
          exacts [.inl h, .inl hc, .inr h]
        · rw [mem_cons]
          refine or_congr Iff.rfl (and_congr_left fun hb => ⟨.inr, ?_⟩)
          rintro (rfl | h)
          exacts [absurd hc hb, h]
      · have hstep : enqueue s c =
            { s with queue := s.queue ++ [c], enqueued := s.enqueued.insert c } := if_neg hc
        rw [hstep] at henq hqueue hreached hle ⊢
        refine ⟨fun b => (henq b).trans ?_, fun b => (hqueue b).trans ?_, hreached, hle.trans ?_⟩
        · rw [mem_insert, mem_cons]
          tauto
        · rw [mem_append, mem_singleton, mem_insert, mem_cons]
          constructor
          · rintro ((h | rfl) | ⟨h, hb⟩)
            · exact .inl h
            · exact .inr ⟨.inl rfl, hc⟩
            · exact .inr ⟨.inr h, fun hmem => hb (.inr hmem)⟩
          · rintro (h | ⟨rfl | h, hb⟩)
            · exact .inl (.inl h)
            · exact .inl (.inr rfl)
            · by_cases hbc : b = c
              · exact .inl (.inr hbc)
              · exact .inr ⟨h, not_or.mpr ⟨hbc, hb⟩⟩
        · have hlt := length_filter_lt (l := f.blocks)
            (p := fun b => decide (b ∉ s.enqueued))
            (q := fun b => decide (b ∉ s.enqueued.insert c)) (a := c)
            (fun b _ hb => by
              rw [decide_eq_true_eq] at hb ⊢
              exact fun hmem => hb (mem_insert.mpr (.inr hmem)))
            (hl c (.head _)) (decide_eq_true hc)
            (decide_eq_false (not_not.mpr (mem_insert.mpr (.inl rfl))))
          simp only [searchMeasure, length_append, length_singleton]
          omega

/-- A step keeps the invariant of the search and lowers its measure. -/
theorem Searching.step (h : Searching f LS I J s) (hqueue : s.queue ≠ []) :
    ∃ s', searchStep f LS J s = some s' ∧ Searching f LS I J s' ∧
      searchMeasure f s' < searchMeasure f s := by
  obtain ⟨b, queue, hcons⟩ := exists_cons_of_ne_nil hqueue
  have hb : b ∈ s.enqueued := h.queue_mem b (by rw [hcons]; exact .head _)
  have hmem : ∀ c ∈ queue, c ∈ s.enqueued := fun c hc =>
    h.queue_mem c (by rw [hcons]; exact .tail b hc)
  let s₁ : HeaderSearch B := { s with queue := queue }
  have hlt : searchMeasure f s₁ < searchMeasure f s := by
    simp only [searchMeasure, hcons, length_cons, s₁]
    omega
  -- the search goes on without the block `b`
  have hdrop : ∀ t : HeaderSearch B, t.enqueued = s.enqueued → t.queue = queue →
      (t.isHeaderReached = false → s.isHeaderReached = false ∧ b ≠ LS.header ∧
        (b ∈ LS.getLoopExitBasicBlocks f ∨ b = J)) → Searching f LS I J t := by
    intro t henq hq hstop
    refine ⟨henq ▸ h.start, fun c hc => ?_, henq ▸ h.blocks, fun hreached c hc => ?_⟩
    · rw [henq]
      exact hmem c (hq ▸ hc)
    · obtain ⟨hsreached, hne, hor⟩ := hstop hreached
      rw [henq] at hc ⊢
      rw [hq]
      by_cases hcb : c = b
      · subst hcb
        exact .inr ⟨hne, hor.imp_right .inl⟩
      · rcases h.expanded hsreached c hc with hc | hc
        · rw [hcons] at hc
          exact .inl ((mem_cons.mp hc).resolve_left hcb)
        · exact .inr hc
  unfold searchStep
  rw [hcons]
  dsimp only
  by_cases hheader : b = LS.getHeader
  · exact ⟨_, if_pos hheader, hdrop _ rfl rfl fun hreached => (Bool.noConfusion hreached), hlt⟩
  · rw [if_neg hheader]
    by_cases hexit : b ∈ LS.getLoopExitBasicBlocks f
    · rw [if_pos hexit]
      exact ⟨_, rfl, hdrop _ rfl rfl fun hreached => ⟨hreached, hheader, .inl hexit⟩, hlt⟩
    · rw [if_neg hexit]
      by_cases hJ : b = J
      · rw [if_pos hJ]
        exact ⟨_, rfl, hdrop _ rfl rfl fun hreached => ⟨hreached, hheader, .inr hJ⟩, hlt⟩
      · rw [if_neg hJ]
        have hsucc : ∀ c ∈ f.successors b, c ∈ f.blocks := f.successors_mem b (h.blocks b hb)
        obtain ⟨henq, hq, hreached, hle⟩ := foldl_enqueue_spec (f.successors b) hsucc s₁
        refine ⟨_, rfl, ⟨(henq I).mpr (.inl h.start), fun c hc => ?_, fun c hc => ?_,
          fun hnot c hc => ?_⟩, Nat.lt_of_le_of_lt hle hlt⟩
        · rcases (hq c).mp hc with hc | hc
          · exact (henq c).mpr (.inl (hmem c hc))
          · exact (henq c).mpr (.inr hc.1)
        · exact ((henq c).mp hc).elim (h.blocks c) (hsucc c)
        · rw [hreached] at hnot
          by_cases hcb : c = b
          · subst hcb
            exact .inr ⟨hheader, .inr (.inr fun d hd => (henq d).mpr (.inr hd))⟩
          · by_cases hold : c ∈ s.enqueued
            · rcases h.expanded hnot c hold with hcq | ⟨hne, hor⟩
              · rw [hcons] at hcq
                exact .inl ((hq c).mpr (.inl ((mem_cons.mp hcq).resolve_left hcb)))
              · refine .inr ⟨hne, hor.imp_right (Or.imp_right fun hall d hd => ?_)⟩
                exact (henq d).mpr (.inl (hall d hd))
            · have hcs := ((henq c).mp hc).resolve_left hold
              exact .inl ((hq c).mpr (.inr ⟨hcs, hold⟩))

/-- What was found so far: the enqueued blocks are those that the search goes on to. -/
structure Found (f : CFG B) (LS : LoopStructure F B) (I J : B) (s : HeaderSearch B) : Prop where
  reached : ∀ b ∈ s.enqueued, ReflTransGen (GoesOn f LS J) I b
  header : s.isHeaderReached = true → LS.header ∈ s.enqueued
  destination : s.isHeaderReached = false → J ∈ s.enqueued → J ∈ s.queue ∨ s.isJReached = true

theorem mem_or_exit (hI : I ∈ LS.bbs) (hb : ReflTransGen (GoesOn f LS J) I b) :
    b ∈ LS.bbs ∨ b ∈ LS.getLoopExitBasicBlocks f := by
  cases ReflTransGen.cases_tail hb with
  | inl heq => exact .inl (heq ▸ hI)
  | inr hlast =>
      obtain ⟨c, _, hflow, hc, _⟩ := hlast
      by_cases hin : b ∈ LS.bbs
      · exact .inl hin
      · refine .inr (mem_flatMap.mpr ⟨c, hc, mem_filter.mpr ⟨hflow, ?_⟩⟩)
        simp [LoopStructure.isIncluded, hin]

/-- A step keeps every path found so far. -/
theorem Found.step (h : Searching f LS I J s) (hf : Found f LS I J s) (hI : I ∈ LS.bbs)
    (hJ : J ∈ LS.bbs) (hgoing : s.isHeaderReached = false) (hs' : searchStep f LS J s = some s') :
    Found f LS I J s' := by
  unfold searchStep at hs'
  cases hcons : s.queue with
  | nil =>
      rw [hcons] at hs'
      cases hs'
  | cons b queue =>
      have hb : b ∈ s.enqueued := h.queue_mem b (by rw [hcons]; exact .head _)
      -- the destination is still in the queue unless it is the block that was taken off
      have hdest : b ≠ J → J ∈ s.enqueued → J ∈ queue ∨ s.isJReached = true := by
        intro hbJ hmem
        refine (hf.destination hgoing hmem).imp_left fun hq => ?_
        rw [hcons] at hq
        exact (mem_cons.mp hq).resolve_left (Ne.symm hbJ)
      rw [hcons] at hs'
      dsimp only at hs'
      by_cases hheader : b = LS.getHeader
      · rw [if_pos hheader] at hs'
        cases hs'
        have hmem : LS.header ∈ s.enqueued := by
          have heq : b = LS.header := hheader
          exact heq ▸ hb
        exact ⟨hf.reached, fun _ => hmem, fun hnot => Bool.noConfusion hnot⟩
      · rw [if_neg hheader] at hs'
        by_cases hexit : b ∈ LS.getLoopExitBasicBlocks f
        · rw [if_pos hexit] at hs'
          cases hs'
          have hbJ : b ≠ J := fun heq => LoopStructure.not_isIncluded_of_exit hexit (heq ▸ hJ)
          exact ⟨hf.reached, hf.header, fun _ => hdest hbJ⟩
        · rw [if_neg hexit] at hs'
          by_cases hbJ : b = J
          · rw [if_pos hbJ] at hs'
            cases hs'
            exact ⟨hf.reached, hf.header, fun _ _ => .inr rfl⟩
          · rw [if_neg hbJ] at hs'
            cases hs'
            have hin := (mem_or_exit hI (hf.reached b hb)).resolve_right hexit
            obtain ⟨henq, hq, hreached, _⟩ := foldl_enqueue_spec (f.successors b)
              (f.successors_mem b (h.blocks b hb)) { s with queue := queue }
            have hJreached : ∀ (l : List B) (s : HeaderSearch B),
                (l.foldl enqueue s).isJReached = s.isJReached := by
              intro l
              induction l with
              | nil => exact fun s => rfl
              | cons c l ih =>
                  intro s
                  rw [foldl_cons, ih, enqueue]
                  split <;> rfl
            refine ⟨fun c hc => ?_, fun hheader' => ?_, fun _ hmem => ?_⟩
            · cases (henq c).mp hc with
              | inl hold => exact hf.reached c hold
              | inr hsucc => exact (hf.reached b hb).tail ⟨hsucc, hin, hheader, hbJ⟩
            · rw [hreached, hgoing] at hheader'
              cases hheader'
            · rw [hJreached]
              by_cases hold : J ∈ s.enqueued
              · exact (hdest hbJ hold).imp_left fun hmem => (hq J).mpr (.inl hmem)
              · exact .inl ((hq J).mpr (.inr ⟨((henq J).mp hmem).resolve_left hold, hold⟩))

/-- The search: the assertions hold, and the header is reached exactly if the search gets
to it from the first block. -/
theorem canBasicBlockReachHeaderBeforeOther_of_ne (hLS : IsNaturalLoop f entry LS)
    (hentry : entry ∈ f.blocks) (hI : I ∈ LS.bbs) (hJ : J ∈ LS.bbs) (hIJ : I ≠ J) {fuel : Nat}
    (hfuel : f.blocks.length + 1 ≤ fuel) :
    ∃ result, canBasicBlockReachHeaderBeforeOther f LS I J fuel = some result ∧
      (result = true ↔ ReflTransGen (GoesOn f LS J) I LS.header) := by
  have hblocks : I ∈ f.blocks := CFG.mem_blocks_of_reach hentry ((hLS.mem_iff I).mp hI).1
  unfold canBasicBlockReachHeaderBeforeOther
  rw [if_neg (by simp [LoopStructure.isIncluded, hI, hJ]), if_neg hIJ]
  let s₀ : HeaderSearch B := ⟨[I], PtrSet.ofList [I], false, false⟩
  have honly : ∀ b ∈ s₀.enqueued, b = I := fun b hb =>
    mem_singleton.mp (mem_ofList.mp hb)
  have h₀ : Searching f LS I J s₀ := by
    refine ⟨mem_ofList.mpr (.head _), fun b hb => mem_ofList.mpr hb,
      fun b hb => honly b hb ▸ hblocks, fun _ b hb => .inl ?_⟩
    rw [honly b hb]
    exact .head _
  have hf₀ : Found f LS I J s₀ := ⟨fun b hb => honly b hb ▸ .refl, fun hnot => Bool.noConfusion hnot,
    fun _ hmem => absurd (honly J hmem) (Ne.symm hIJ)⟩
  have hmeasure : searchMeasure f s₀ ≤ fuel := by
    have hle := length_filter_le (fun b => decide (b ∉ s₀.enqueued)) f.blocks
    simp only [searchMeasure, s₀, length_singleton] at hle ⊢
    omega
  obtain ⟨s, hs, ⟨h, hf⟩, hend⟩ : ∃ s,
      loopM (fun s => !s.queue.isEmpty && !s.isHeaderReached) (searchStep f LS J) fuel s₀ = some s ∧
        (Searching f LS I J s ∧ Found f LS I J s) ∧
        (!s.queue.isEmpty && !s.isHeaderReached) = false := by
    refine loopM_rule (fun s => Searching f LS I J s ∧ Found f LS I J s) (searchMeasure f)
      (fun s h hc => ?_) fuel s₀ ⟨h₀, hf₀⟩ hmeasure
    have hgoing : s.isHeaderReached = false := by simp at hc; exact hc.2
    obtain ⟨s', hs', h', hlt⟩ := h.1.step fun hnil => by simp [hnil] at hc
    exact ⟨s', hs', ⟨h', h.2.step h.1 hI hJ hgoing hs'⟩, hlt⟩
  rw [hs, Option.bind_some]
  cases hreached : s.isHeaderReached with
  | true => exact ⟨true, rfl, fun _ => hf.reached _ (hf.header hreached), fun _ => rfl⟩
  | false =>
      have hnil : s.queue = [] := by simpa [hreached] using hend
      have hclosed : ∀ b ∈ s.enqueued, b ≠ LS.header ∧
          (b ∈ LS.bbs → b ≠ J → ∀ c ∈ f.successors b, c ∈ s.enqueued) := fun b hb => by
        rcases h.expanded hreached b hb with hq | ⟨hne, hor⟩
        · rw [hnil] at hq
          exact absurd hq not_mem_nil
        · refine ⟨hne, fun hin hbJ => ?_⟩
          rcases hor with hexit | rfl | hall
          · exact absurd hin (LoopStructure.not_isIncluded_of_exit hexit)
          · exact absurd rfl hbJ
          · exact hall
      have hnot : ¬ ReflTransGen (GoesOn f LS J) I LS.header := by
        intro hpath
        have hmem : ∀ b, ReflTransGen (GoesOn f LS J) I b → b ∈ s.enqueued := by
          intro b hb
          induction hb with
          | refl => exact h.start
          | tail _ hstep ih => exact (hclosed _ ih).2 hstep.2.1 hstep.2.2.2 _ hstep.1
        exact (hclosed _ (hmem _ hpath)).1 rfl
      -- the path to the header inside the loop comes to the destination
      have hJmem : J ∈ s.enqueued := by
        by_contra hJnot
        have hpath : ∀ b, ReflTransGen
            (fun x y => f.Flow x y ∧ NaturalLoop f.Flow entry LS.header y) I b →
            b ∈ s.enqueued ∧ b ∈ LS.bbs := by
          intro b hb
          induction hb with
          | refl => exact ⟨h.start, hI⟩
          | tail _ hyz ih =>
              refine ⟨(hclosed _ ih.1).2 ih.2 (fun heq => hJnot (heq ▸ ih.1)) _ hyz.1, ?_⟩
              exact (hLS.mem_iff _).mpr hyz.2
        exact (hclosed _ (hpath _ ((hLS.mem_iff I).mp hI).reach_header).1).1 rfl
      have hJreached : s.isJReached = true := (hf.destination hreached hJmem).resolve_left fun hq => by
        rw [hnil] at hq
        exact absurd hq not_mem_nil
      exact ⟨false, by simp [hJreached], fun hf => Bool.noConfusion hf, fun hpath => absurd hpath hnot⟩

theorem canBasicBlockReachHeaderBeforeOther_header (hLS : IsNaturalLoop f entry LS)
    (hentry : entry ∈ f.blocks) (hI : I ∈ LS.bbs) {fuel : Nat} (hfuel : f.blocks.length + 1 ≤ fuel) :
    canBasicBlockReachHeaderBeforeOther f LS I LS.header fuel = some true := by
  by_cases hIJ : I = LS.header
  · unfold canBasicBlockReachHeaderBeforeOther
    rw [if_neg (by simp [LoopStructure.isIncluded, hI, hLS.header_mem]), if_pos hIJ]
  · obtain ⟨result, hresult, hiff⟩ := canBasicBlockReachHeaderBeforeOther_of_ne hLS hentry hI
      hLS.header_mem hIJ hfuel
    -- the search goes on from every block but the header
    have hpath : ∀ b, ReflTransGen (fun x y => f.Flow x y ∧ NaturalLoop f.Flow entry LS.header y) b
        LS.header → b ∈ LS.bbs → ReflTransGen (GoesOn f LS LS.header) b LS.header := by
      intro b hb
      induction hb using ReflTransGen.head_induction_on with
      | refl => exact fun _ => .refl
      | @head x y hstep _ ih =>
          intro hx
          by_cases hxh : x = LS.header
          · exact hxh ▸ .refl
          · exact .head ⟨hstep.1, hx, hxh, hxh⟩ (ih ((hLS.mem_iff y).mpr hstep.2))
    rw [hresult, hiff.mpr (hpath I ((hLS.mem_iff I).mp hI).reach_header hI)]

/-- **Reaching the header first**: for two instructions of a natural loop the assertions
hold, and the answer is no exactly if the first one is in another block than the second one
and not in the header, and every path from it to the next execution of the header goes
through the second one. -/
theorem canBasicBlockReachHeaderBeforeOther_iff (hLS : IsNaturalLoop f entry LS)
    (hentry : entry ∈ f.blocks) {I J : Instruction B} (hI : I.parent ∈ LS.bbs)
    (hJ : J.parent ∈ LS.bbs) {fuel : Nat} (hfuel : f.blocks.length + 1 ≤ fuel) :
    ∃ result, canBasicBlockReachHeaderBeforeOther f LS I.parent J.parent fuel = some result ∧
      (result = false ↔ I.parent ≠ J.parent ∧ I.parent ≠ LS.header ∧
        ∀ blocks, PathToHeader f LS I.parent blocks → GoesThrough I J blocks) := by
  by_cases hIJ : I.parent = J.parent
  · refine ⟨true, ?_, fun hnot => Bool.noConfusion hnot, fun hne => absurd hIJ hne.1⟩
    unfold canBasicBlockReachHeaderBeforeOther
    rw [if_neg (by simp [LoopStructure.isIncluded, hI, hJ]), if_pos hIJ]
  · obtain ⟨result, hresult, hiff⟩ :=
      canBasicBlockReachHeaderBeforeOther_of_ne hLS hentry hI hJ hIJ hfuel
    refine ⟨result, hresult, ?_⟩
    rw [← Bool.not_eq_true, hiff, exists_path_iff]
    have hthrough : ∀ blocks, GoesThrough I J blocks ↔ J.parent ∈ blocks := fun blocks =>
      or_iff_right fun hsame => hIJ hsame.1.symm
    simp only [hthrough, not_or, not_and, not_exists, not_not]
    exact ⟨fun h => ⟨hIJ, h.1, fun blocks => h.2 hI h.1 hIJ blocks⟩,
      fun h => ⟨h.2.1, fun _ _ _ blocks => h.2.2 blocks⟩⟩

/-! ## A loop of two blocks -/

/-- `0 → 1`, `1 → 2` and `2 → 1`, with two instructions in every block. -/
def twoBlockCFG : CFG (Fin 3) where
  blocks := [0, 1, 2]
  size := fun _ => 2
  successors := ![[1], [2], [1]]
  predecessors := ![[], [0, 2], [1]]
  size_pos := by decide
  successors_mem := by decide
  predecessors_mem := by decide
  mem_predecessors := by decide

def twoBlockLoop : LoopStructure Unit (Fin 3) := ⟨0, (), 1, 1, PtrSet.ofList [1, 2]⟩

theorem twoBlockLoop_isNatural : IsNaturalLoop twoBlockCFG 0 twoBlockLoop where
  header_mem := by decide
  mem_iff b := by
    have hlatch : IsLatch twoBlockCFG.Flow 0 1 2 := by
      have hreach : ReflTransGen twoBlockCFG.Flow 0 2 :=
        .head (by decide : twoBlockCFG.Flow 0 1) (.single (by decide : twoBlockCFG.Flow 1 2))
      refine ⟨by decide, ?_, hreach⟩
      rintro ⟨-, hpath⟩
      -- nothing but the header follows the entry
      cases ReflTransGen.cases_head hpath with
      | inl heq => cases heq
      | inr hstep =>
          obtain ⟨c, hc, _⟩ := hstep
          exact hc.2 ((by decide : ∀ c, twoBlockCFG.Flow 0 c → c = 1) c hc.1)
    rw [twoBlockLoop, mem_ofList]
    constructor
    · intro hb
      obtain rfl | rfl : b = 1 ∨ b = 2 := by simpa using hb
      · exact .header_mem hlatch
      · exact .latch_mem hlatch
    · intro hb
      have hne : b ≠ 0 := fun heq => (heq ▸ hb.dominates) (.refl (by decide))
      revert hne
      clear hb hlatch
      revert b
      decide

/-- The store of the latch before its branch, and the store of the header before the block
behind it: every path goes through the second instruction, and the answer is yes. -/
theorem canBasicBlockReachHeaderBeforeOther_twoBlockLoop :
    IsNaturalLoop twoBlockCFG 0 twoBlockLoop ∧
      (canBasicBlockReachHeaderBeforeOther twoBlockCFG twoBlockLoop 2 2 4 = some true ∧
        ∀ blocks, PathToHeader twoBlockCFG twoBlockLoop 2 blocks →
          GoesThrough (B := Fin 3) ⟨2, 0⟩ ⟨2, 1⟩ blocks) ∧
      (canBasicBlockReachHeaderBeforeOther twoBlockCFG twoBlockLoop 1 2 4 = some true ∧
        ∀ blocks, PathToHeader twoBlockCFG twoBlockLoop 1 blocks →
          GoesThrough (B := Fin 3) ⟨1, 0⟩ ⟨2, 0⟩ blocks) := by
  refine ⟨twoBlockLoop_isNatural, ⟨by decide, fun blocks _ => .inl ⟨rfl, Nat.one_pos⟩⟩,
    by decide, fun blocks hblocks => .inr ?_⟩
  have hnext : ∀ c, twoBlockCFG.Flow 1 c → c = 2 := by decide
  cases blocks with
  | nil =>
      have hflow : twoBlockCFG.Flow 1 twoBlockLoop.header := by simpa using hblocks.steps
      exact absurd (hnext _ hflow) (by decide)
  | cons c blocks =>
      obtain ⟨hflow, _⟩ := isChain_cons_cons.mp hblocks.steps
      exact hnext c hflow ▸ (.head _)

theorem canBasicBlockReachHeaderBeforeOther_iff_twoBlockLoop :
    ∃ result, canBasicBlockReachHeaderBeforeOther twoBlockCFG twoBlockLoop 2 1 4 = some result ∧
      (result = false ↔ (2 : Fin 3) ≠ 1 ∧ (2 : Fin 3) ≠ 1 ∧
        ∀ blocks, PathToHeader twoBlockCFG twoBlockLoop 2 blocks →
          GoesThrough (B := Fin 3) ⟨2, 0⟩ ⟨1, 0⟩ blocks) :=
  canBasicBlockReachHeaderBeforeOther_iff (I := ⟨2, 0⟩) (J := ⟨1, 0⟩) twoBlockLoop_isNatural
    (by decide) (by decide) (by decide) (by decide)

end LoopCarriedDependencies

end Noelle
