import Noelle.Scheduler.Basic

/-!
# Scheduler.BasicBlock

`Scheduler::getAllInstsMoveableOutOfBasicBlock`.

One pass goes through the block from its terminator up and consults the decisions made so far
(`Decided`).  A dependence on an earlier instruction of the block is ignored unless that is a
PHI, which is why the result is the largest set that is closed under the dependences on later
instructions and has none on a PHI.
-/

namespace Noelle

open PtrSet List

namespace Scheduler

variable {V B : Type} [DecidableEq V] [DecidableEq B] (ord : IterOrder) (fn : SchedulerFunction V B)
  (pdg : PDG V)

/-- The first two constraints.  A block without a terminator has a null one, which `isa` does not
accept. -/
def canMoveAnyInstOutOfBasicBlock (block : B) : Option Bool := do
  let blockTerminator ← fn.getTerminator block
  if !fn.isBranchInst blockTerminator then return false
  return (fn.successors block).all fun succBB => (fn.getSinglePredecessor succBB).isSome

/-- `Keeps` and `Moves`. -/
structure Moving (V : Type) where
  keeps : PtrSet V := ∅
  moves : PtrSet V := ∅

/-- An iteration of the loop over the worklist. -/
def decideNext (st : Moving V) (next : V) : Moving V :=
  if !canMoveInstOutOfBasicBlock fn next then { st with keeps := st.keeps.insert next }
  else
    let outgoing := ord.visit (getOutgoingDependencesInParentBasicBlock ord fn pdg next).elems
    let shouldKeep := outgoing.any fun d =>
      !canMoveInstOutOfBasicBlock fn d || decide (d ∈ st.keeps)
    if shouldKeep then { st with keeps := st.keeps.insert next }
    else { st with moves := st.moves.insert next }

/-- `Scheduler::getAllInstsMoveableOutOfBasicBlock`.  The worklist is the block in reverse. -/
def getAllInstsMoveableOutOfBasicBlock (block : B) (direction : ScheduleDirection) :
    Option (PtrSet V) :=
  if direction ≠ .down then some ∅
  else do
    if !(← canMoveAnyInstOutOfBasicBlock fn block) then return ∅
    return ((fn.instructions block).reverse.foldl (decideNext ord fn pdg) {}).moves

variable {ord fn pdg} {block : B}

/-- An instruction stays that cannot move, and one with a dependence on such an instruction or on
one that stays. -/
def Stays (fn : SchedulerFunction V B) (pdg : PDG V) (keeps : PtrSet V) (i : V) : Prop :=
  canMoveInstOutOfBasicBlock fn i = false ∨
    ∃ d, DependenceInBlock fn pdg i d ∧ (canMoveInstOutOfBasicBlock fn d = false ∨ d ∈ keeps)

/-- An instruction is kept or moved. -/
theorem decideNext_cases (ord : IterOrder) (fn : SchedulerFunction V B) (hpdg : pdg.WF) (st : Moving V) (i : V) :
    (Stays fn pdg st.keeps i ∧ decideNext ord fn pdg st i = ⟨st.keeps.insert i, st.moves⟩) ∨
    (¬ Stays fn pdg st.keeps i ∧ decideNext ord fn pdg st i = ⟨st.keeps, st.moves.insert i⟩) := by
  have hany : ((ord.visit (getOutgoingDependencesInParentBasicBlock ord fn pdg i).elems).any fun d =>
      !canMoveInstOutOfBasicBlock fn d || decide (d ∈ st.keeps)) = true ↔
      ∃ d, DependenceInBlock fn pdg i d ∧
        (canMoveInstOutOfBasicBlock fn d = false ∨ d ∈ st.keeps) := by
    simp only [any_eq_true, ord.mem_visit, mem_elems, Bool.or_eq_true,
      mem_getOutgoingDependencesInParentBasicBlock hpdg, Bool.not_eq_true', decide_eq_true_eq]
  unfold decideNext
  cases hcan : canMoveInstOutOfBasicBlock fn i with
  | false => exact .inl ⟨.inl hcan, rfl⟩
  | true =>
      by_cases hkeep : ∃ d, DependenceInBlock fn pdg i d ∧
          (canMoveInstOutOfBasicBlock fn d = false ∨ d ∈ st.keeps)
      · refine .inl ⟨.inr hkeep, ?_⟩
        dsimp only
        rw [if_neg (by simp), if_pos (hany.mpr hkeep)]
      · refine .inr ⟨?_, ?_⟩
        · rintro (hfalse | hkeep')
          · rw [hcan] at hfalse
            cases hfalse
          · exact hkeep hkeep'
        · dsimp only
          rw [if_neg (by simp), if_neg fun h => hkeep (hany.mp h)]

theorem getAllInstsMoveableOutOfBasicBlock_congr (ord ord' : IterOrder) (hpdg : pdg.WF) (block : B)
    (direction : ScheduleDirection) :
    getAllInstsMoveableOutOfBasicBlock ord fn pdg block direction =
      getAllInstsMoveableOutOfBasicBlock ord' fn pdg block direction := by
  have hsame : decideNext ord fn pdg = decideNext ord' fn pdg := by
    funext st i
    rcases decideNext_cases ord fn hpdg st i with ⟨h, heq⟩ | ⟨h, heq⟩ <;>
      rcases decideNext_cases ord' fn hpdg st i with ⟨h', heq'⟩ | ⟨h', heq'⟩
    · rw [heq, heq']
    · exact absurd h h'
    · exact absurd h' h
    · rw [heq, heq']
  unfold getAllInstsMoveableOutOfBasicBlock
  rw [hsame]

/-- A set of instructions of the block that could leave it: it has no PHIs and terminators, with a
member the later instructions that depend on it, and no member on which a PHI depends. -/
structure Movable (fn : SchedulerFunction V B) (pdg : PDG V) (block : B) (S : Set V) : Prop where
  mem : ∀ i ∈ S, i ∈ fn.instructions block
  noPHI : ∀ i ∈ S, fn.ir.isPHINode i = false
  noTerminator : ∀ i ∈ S, fn.ir.isTerminator i = false
  closed : ∀ i ∈ S, ∀ d, fn.Later block i d → Dependence pdg i d → d ∈ S
  phi : ∀ i ∈ S, ∀ d ∈ fn.instructions block, Dependence pdg i d → fn.ir.isPHINode d = false

/-- After the instructions `done`, in the reverse order of the block. -/
structure Decided (fn : SchedulerFunction V B) (pdg : PDG V) (block : B) (done : List V)
    (st : Moving V) : Prop where
  keeps_mem : ∀ i ∈ st.keeps, i ∈ done
  moves_mem : ∀ i ∈ st.moves, i ∈ done
  decided : ∀ i ∈ done, i ∈ st.keeps ∨ i ∈ st.moves
  disjoint : ∀ i ∈ st.keeps, i ∉ st.moves
  movable : ∀ i ∈ st.moves, canMoveInstOutOfBasicBlock fn i = true
  closed : ∀ i ∈ st.moves, ∀ d, fn.Later block i d → DependenceInBlock fn pdg i d → d ∈ st.moves
  maximal : ∀ S, Movable fn pdg block S → ∀ i ∈ done, i ∈ S → i ∈ st.moves

/-! ## The order of a block -/

variable {post done : List V} {i d : V} {st : Moving V}

omit [DecidableEq V] [DecidableEq B] in
theorem later_iff (hfn : fn.WF) {pre : List V}
    (hsplit : fn.instructions block = pre ++ i :: post) : fn.Later block i d ↔ d ∈ post := by
  refine ⟨?_, fun hd => ⟨pre, post, hsplit, hd⟩⟩
  rintro ⟨pre', post', hsplit', hd⟩
  -- in both splits the instruction stands neither before nor behind itself
  have hsides : ∀ {l l' : List V}, fn.instructions block = l ++ i :: l' → i ∉ l ∧ i ∉ l' := by
    intro l l' heq
    have hnodup := nodup_append.mp (heq ▸ hfn.nodup block)
    exact ⟨fun hmem => hnodup.2.2 i hmem i (.head _) rfl, (nodup_cons.mp hnodup.2.1).1⟩
  have hsame := (append_cons_inj_of_notMem (hsides hsplit').1 (hsides hsplit').2).mp
    (hsplit'.symm.trans hsplit)
  exact hsame.2.2 ▸ hd

omit [DecidableEq V] [DecidableEq B] in
theorem later_of_isTerminator (hfn : fn.WF) (hi : i ∈ fn.instructions block)
    (hd : d ∈ fn.instructions block) (hne : d ≠ i) (hterm : fn.ir.isTerminator d = true) :
    fn.Later block i d := by
  obtain ⟨body, t, hsplit, _, hbody⟩ := hfn.terminator block
  have hd' : d = t := by
    rw [hsplit, mem_append, mem_singleton] at hd
    refine hd.resolve_left fun hmem => ?_
    rw [hbody d hmem] at hterm
    cases hterm
  have hi' : i ∈ body := by
    rw [hsplit, mem_append, mem_singleton, ← hd'] at hi
    exact hi.resolve_right fun heq => hne heq.symm
  obtain ⟨pre, post, hbody'⟩ := append_of_mem hi'
  refine ⟨pre, post ++ [t], by simp [hsplit, hbody'], ?_⟩
  rw [hd']
  exact mem_append_right post (mem_singleton_self t)

/-! ## The pass -/

omit [DecidableEq V] [DecidableEq B] in
/-- What can be moved is not kept. -/
theorem Movable.not_stays (hfn : fn.WF) {S : Set V} (hS : Movable fn pdg block S)
    (hst : Decided fn pdg block done st) (hi : i ∈ S)
    (hdone : ∀ d ∈ done, fn.Later block i d) : ¬ Stays fn pdg st.keeps i := by
  have hblock := hS.mem i hi
  have hparent : fn.ir.getParent i = block := ((hfn.mem_instructions block i).mp hblock).2
  have hterm : ∀ d, fn.Later block i d → Dependence pdg i d → fn.ir.isTerminator d = false :=
    fun d hlater hdep => hS.noTerminator d (hS.closed i hi d hlater hdep)
  rintro (hcan | ⟨d, ⟨hdep, hinst, hne, hsame⟩, hcan | hkeep⟩)
  · have htrue := canMoveInstOutOfBasicBlock_iff.mpr ⟨hS.noPHI i hi, hS.noTerminator i hi⟩
    rw [htrue] at hcan
    cases hcan
  · have hd : d ∈ fn.instructions block :=
      (hfn.mem_instructions block d).mpr ⟨hinst, hsame.trans hparent⟩
    cases ht : fn.ir.isTerminator d with
    | true =>
        have hfalse := hterm d (later_of_isTerminator hfn hblock hd hne ht) hdep
        rw [ht] at hfalse
        cases hfalse
    | false =>
        rw [canMoveInstOutOfBasicBlock_iff.mpr ⟨hS.phi i hi d hd hdep, ht⟩] at hcan
        cases hcan
  · have hd := hst.keeps_mem d hkeep
    exact hst.disjoint d hkeep
      (hst.maximal S hS d hd (hS.closed i hi d (hdone d hd) hdep))

/-- One more instruction of the block is decided. -/
theorem Decided.step (hfn : fn.WF) (hpdg : pdg.WF) (hst : Decided fn pdg block done st)
    (hsplit : (fn.instructions block).reverse = done ++ i :: post) :
    Decided fn pdg block (done ++ [i]) (decideNext ord fn pdg st i) := by
  have horder : fn.instructions block = post.reverse ++ i :: done.reverse := by
    rw [← reverse_reverse (fn.instructions block), hsplit]
    simp
  have hlater : ∀ d, fn.Later block i d ↔ d ∈ done := fun d =>
    (later_iff hfn horder).trans mem_reverse
  have hfresh : i ∉ done := fun hmem =>
    (nodup_append.mp (hsplit ▸ nodup_reverse.mpr (hfn.nodup block))).2.2 i hmem i
      (.head _) rfl
  have hmem : ∀ {d : V}, d ∈ done → d ∈ done ++ [i] := fun hd => mem_append_left [i] hd
  have hnew : i ∈ done ++ [i] := mem_append_right done (mem_singleton_self i)
  have hcases : ∀ d ∈ done ++ [i], d ∈ done ∨ d = i := fun d hd => by simpa using hd
  rcases decideNext_cases ord fn hpdg st i with ⟨hstays, heq⟩ | ⟨hmoves, heq⟩
  · rw [heq]
    refine ⟨?_, fun d hd => hmem (hst.moves_mem d hd), ?_, ?_, hst.movable, hst.closed, ?_⟩
    · intro d hd
      rcases mem_insert.mp hd with rfl | hd
      · exact hnew
      · exact hmem (hst.keeps_mem d hd)
    · intro d hd
      rcases hcases d hd with hd | rfl
      · exact (hst.decided d hd).imp_left fun h => mem_insert.mpr (.inr h)
      · exact .inl (mem_insert.mpr (.inl rfl))
    · intro d hd
      rcases mem_insert.mp hd with rfl | hd
      · exact fun hmove => hfresh (hst.moves_mem d hmove)
      · exact hst.disjoint d hd
    · intro S hS d hd hdS
      rcases hcases d hd with hd | rfl
      · exact hst.maximal S hS d hd hdS
      · exact absurd hstays (hS.not_stays hfn hst hdS fun e he => (hlater e).mpr he)
  · rw [heq]
    have hcan : canMoveInstOutOfBasicBlock fn i = true :=
      Bool.eq_true_of_not_eq_false fun hfalse => hmoves (.inl hfalse)
    refine ⟨fun d hd => hmem (hst.keeps_mem d hd), ?_, ?_, ?_, ?_, ?_, ?_⟩
    · intro d hd
      rcases mem_insert.mp hd with rfl | hd
      · exact hnew
      · exact hmem (hst.moves_mem d hd)
    · intro d hd
      rcases hcases d hd with hd | rfl
      · exact (hst.decided d hd).imp_right fun h => mem_insert.mpr (.inr h)
      · exact .inr (mem_insert.mpr (.inl rfl))
    · intro d hd hmove
      rcases mem_insert.mp hmove with rfl | hmove
      · exact hfresh (hst.keeps_mem d hd)
      · exact hst.disjoint d hd hmove
    · intro d hd
      rcases mem_insert.mp hd with rfl | hd
      · exact hcan
      · exact hst.movable d hd
    · intro d hd e hle hdep
      refine mem_insert.mpr (.inr ?_)
      rcases mem_insert.mp hd with rfl | hd
      · refine (hst.decided e ((hlater e).mp hle)).resolve_left fun hkeep => ?_
        exact hmoves (.inr ⟨e, hdep, .inr hkeep⟩)
      · exact hst.closed d hd e hle hdep
    · intro S hS d hd hdS
      refine mem_insert.mpr ?_
      rcases hcases d hd with hd | rfl
      · exact .inr (hst.maximal S hS d hd hdS)
      · exact .inl rfl

theorem decided_foldl (ord : IterOrder) (hfn : fn.WF) (hpdg : pdg.WF) (block : B) :
    Decided fn pdg block (fn.instructions block).reverse
      ((fn.instructions block).reverse.foldl (decideNext ord fn pdg) {}) :=
  foldl_rule (decideNext ord fn pdg) (Decided fn pdg block)
    ⟨fun _ h => h, fun _ h => h, nofun,
      fun i h => absurd h (not_mem_empty i), fun i h => absurd h (not_mem_empty i),
      fun i h => absurd h (not_mem_empty i), nofun⟩
    fun _ _ _ _ hsplit hst => hst.step hfn hpdg hsplit

omit [DecidableEq V] [DecidableEq B] in
theorem Decided.closed_later (hfn : fn.WF)
    (hst : Decided fn pdg block (fn.instructions block).reverse st) (hi : i ∈ st.moves)
    (hlater : fn.Later block i d) (hdep : Dependence pdg i d) : d ∈ st.moves := by
  have hmem := mem_reverse.mp (hst.moves_mem i hi)
  have hlater' := hlater
  obtain ⟨pre, post, hsplit, hd⟩ := hlater'
  have hd' : d ∈ fn.instructions block := by
    rw [hsplit]
    exact mem_append_right pre (.tail i hd)
  obtain ⟨_, hparent⟩ := (hfn.mem_instructions block i).mp hmem
  obtain ⟨hinst, hparent'⟩ := (hfn.mem_instructions block d).mp hd'
  refine hst.closed i hi d hlater ⟨hdep, hinst, ?_, hparent'.trans hparent.symm⟩
  rintro rfl
  have hnodup := (nodup_append.mp (hsplit ▸ hfn.nodup block)).2.1
  exact (nodup_cons.mp hnodup).1 hd

/-- What is returned are instructions of the block, closed under the dependences on later ones. -/
theorem of_getAllInstsMoveableOutOfBasicBlock (hfn : fn.WF) (hpdg : pdg.WF) {moves : PtrSet V}
    (h : getAllInstsMoveableOutOfBasicBlock ord fn pdg block .down = some moves) :
    (∀ i ∈ moves, i ∈ fn.instructions block ∧ fn.ir.isPHINode i = false ∧
      fn.ir.isTerminator i = false) ∧
    ∀ i ∈ moves, ∀ d, fn.Later block i d → Dependence pdg i d → d ∈ moves := by
  unfold getAllInstsMoveableOutOfBasicBlock at h
  rw [if_neg (by decide)] at h
  obtain ⟨r, -, h⟩ := Option.bind_eq_some_iff.mp h
  cases r with
  | false =>
      obtain rfl : ∅ = moves := Option.some.inj h
      exact ⟨fun i hi => absurd hi (not_mem_empty i),
        fun i hi => absurd hi (not_mem_empty i)⟩
  | true =>
      cases h
      have hst := decided_foldl ord hfn hpdg block
      exact ⟨fun i hi => ⟨mem_reverse.mp (hst.moves_mem i hi),
        canMoveInstOutOfBasicBlock_iff.mp (hst.movable i hi)⟩,
        fun i hi d hlater hdep => hst.closed_later hfn hi hlater hdep⟩

/-- A block that ends in a branch to blocks that have no other predecessor. -/
structure EndsInPrivateBranch (fn : SchedulerFunction V B) (block : B) : Prop where
  branch : ∀ t, fn.getTerminator block = some t → fn.isBranchInst t = true
  private_successors : ∀ succBB ∈ fn.successors block, fn.getSinglePredecessor succBB = some block

/-- **Movable instructions**: of a block that ends in a branch to blocks without other predecessors
the largest movable set is returned.  If only terminators have other dependences than memory and
register ones, the result is closed under all dependences on later instructions. -/
theorem getAllInstsMoveableOutOfBasicBlock_spec (ord : IterOrder) (fn : SchedulerFunction V B)
    (pdg : PDG V) (block : B) (hfn : fn.WF) (hpdg : pdg.WF) (hblock : EndsInPrivateBranch fn block) :
    ∃ moves, getAllInstsMoveableOutOfBasicBlock ord fn pdg block .down = some moves ∧
      (∀ i ∈ moves, i ∈ fn.instructions block ∧ fn.ir.isPHINode i = false ∧
        fn.ir.isTerminator i = false) ∧
      (∀ i ∈ moves, ∀ d, fn.Later block i d → Dependence pdg i d → d ∈ moves) ∧
      ((∀ e ∈ pdg.allEdges, e.kind.isData = false → fn.ir.isTerminator e.getSrc = true) →
        ∀ e ∈ pdg.allEdges, e.getSrc ∈ moves → fn.Later block e.getSrc e.getDst →
          e.getDst ∈ moves) ∧
      ∀ S, Movable fn pdg block S → ∀ i ∈ S, i ∈ moves := by
  have hst := decided_foldl ord hfn hpdg block
  have hmem : ∀ i ∈ ((fn.instructions block).reverse.foldl (decideNext ord fn pdg) {}).moves,
      i ∈ fn.instructions block := fun i hi => mem_reverse.mp (hst.moves_mem i hi)
  have hcan := fun i hi => canMoveInstOutOfBasicBlock_iff.mp (hst.movable i hi)
  have hclosed : ∀ i ∈ ((fn.instructions block).reverse.foldl (decideNext ord fn pdg) {}).moves,
      ∀ d, fn.Later block i d → Dependence pdg i d →
        d ∈ ((fn.instructions block).reverse.foldl (decideNext ord fn pdg) {}).moves :=
    fun i hi d hlater hdep => hst.closed_later hfn hi hlater hdep
  refine ⟨_, ?_, fun i hi => ⟨hmem i hi, hcan i hi⟩, hclosed, ?_, ?_⟩
  · obtain ⟨body, t, hsplit, hterm, _⟩ := hfn.terminator block
    have hterminator : fn.getTerminator block = some t := by
      simp [SchedulerFunction.getTerminator, hsplit, hterm]
    have hall : (fn.successors block).all
        (fun succBB => (fn.getSinglePredecessor succBB).isSome) = true :=
      all_eq_true.mpr fun succBB hsucc => by rw [hblock.private_successors succBB hsucc]; rfl
    simp [getAllInstsMoveableOutOfBasicBlock, canMoveAnyInstOutOfBasicBlock, hterminator,
      hblock.branch t hterminator, hall]
  · intro hterm e he hi hlater
    refine hclosed _ hi _ hlater ⟨e, he, rfl, rfl, Bool.eq_true_of_not_eq_false fun hdata => ?_⟩
    have htrue := hterm e he hdata
    rw [(hcan _ hi).2] at htrue
    cases htrue
  · exact fun S hS i hi => hst.maximal S hS i (mem_reverse.mpr (hS.mem i hi)) hi

/-- All instructions between the PHI and the branch can move. -/
theorem aliasFunction_moveable :
    aliasFunction.WF ∧ aliasGraph.WF ∧ EndsInPrivateBranch aliasFunction false ∧
    ∃ moves, getAllInstsMoveableOutOfBasicBlock .stored aliasFunction aliasGraph false .down =
        some moves ∧
      (∀ i ∈ moves, i ∈ aliasFunction.instructions false ∧ aliasFunction.ir.isPHINode i = false ∧
        aliasFunction.ir.isTerminator i = false) ∧
      (∀ i ∈ moves, ∀ d, aliasFunction.Later false i d → Dependence aliasGraph i d → d ∈ moves) ∧
      ((∀ e ∈ aliasGraph.allEdges, e.kind.isData = false →
          aliasFunction.ir.isTerminator e.getSrc = true) →
        ∀ e ∈ aliasGraph.allEdges, e.getSrc ∈ moves →
          aliasFunction.Later false e.getSrc e.getDst → e.getDst ∈ moves) ∧
      ∀ S, Movable aliasFunction aliasGraph false S → ∀ i ∈ S, i ∈ moves :=
  have hblock : EndsInPrivateBranch aliasFunction false := ⟨by decide, by decide⟩
  ⟨aliasFunction_wf, aliasGraph_wf, hblock, getAllInstsMoveableOutOfBasicBlock_spec .stored
    aliasFunction aliasGraph false aliasFunction_wf aliasGraph_wf hblock⟩

end Scheduler

end Noelle
