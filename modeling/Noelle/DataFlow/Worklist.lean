import Mathlib.Algebra.Order.BigOperators.Group.List
import Mathlib.Algebra.Order.Group.Nat
import Noelle.DataFlow.Basic
import Noelle.Lib.GenKill

/-!
# DataFlow.Worklist

The worklist algorithm computes the least solution of its gen and kill problem.

The algorithm is the same for both directions, so its correctness is stated for any
customization that walks through the blocks: `Walk` lists the positions it visits
in a block, from the first instruction to the end iterator.  Only the block whose
turn it is changes; a block outside the worklist has seen the current sets of its
predecessors (`Progress`).  Every iteration either makes the set of a first
instruction grow, or is the first one of its block, or shortens the worklist.
-/

namespace Noelle

open Function PtrSet

namespace DataFlowEngine

variable {B V : Type}

/-! ## Walks -/

/-- The loop over the rest of a block goes from `i` through the positions of the list. -/
inductive Steps (c : Customization B V) (b : B) : Instruction B → List (Instruction B) → Prop
  | done {i : Instruction B} : i = c.getEndIterator b → Steps c b i []
  | next {i j : Instruction B} {l : List (Instruction B)} : i ≠ c.getEndIterator b →
      c.incrementIterator i = some j → Steps c b j l → Steps c b i (j :: l)

/-- `order b` lists the positions that are visited in the block `b`. -/
structure Walk (f : CFG B) (c : Customization B V) (order : B → List (Instruction B)) : Prop where
  steps : ∀ b ∈ f.blocks, ∃ rest, order b = c.getFirstInstruction b :: rest ∧
    Steps c b (c.getFirstInstruction b) rest
  nodup : ∀ b ∈ f.blocks, (order b).Nodup
  parent : ∀ b ∈ f.blocks, ∀ i ∈ order b, i.parent = b
  contains_mem : ∀ i, f.Contains i → i ∈ order i.parent
  last_mem : ∀ b ∈ f.blocks, c.getLastInstruction b ∈ order b
  predecessors_mem : ∀ b ∈ f.blocks, ∀ p ∈ c.getPredecessors b, p ∈ f.blocks
  successors_mem : ∀ b ∈ f.blocks, ∀ s ∈ c.getSuccessors b, s ∈ f.blocks
  mem_successors : ∀ b ∈ f.blocks, ∀ p ∈ c.getPredecessors b, b ∈ c.getSuccessors p
  mem_appendBB : ∀ l b x, x ∈ c.appendBB l b ↔ x = b ∨ x ∈ l

variable {f : CFG B} {c : Customization B V} {order : B → List (Instruction B)}

/-- Positions that follow each other along the walk of a block, or the last instruction of a
predecessor and the first one of a block. -/
def Adjacent (f : CFG B) (c : Customization B V) (order : B → List (Instruction B))
    (i j : Instruction B) : Prop :=
  ∃ b ∈ f.blocks, [i, j] <:+: order b ∨
    (j = c.getFirstInstruction b ∧ ∃ p ∈ c.getPredecessors b, i = c.getLastInstruction p)

theorem Adjacent.node (hw : Walk f c order) {i j : Instruction B} (h : Adjacent f c order i j) :
    ∃ b ∈ f.blocks, i ∈ order b := by
  obtain ⟨b, hb, hij | ⟨_, p, hp, rfl⟩⟩ := h
  · exact ⟨b, hb, hij.subset (.head _)⟩
  · exact ⟨p, hw.predecessors_mem b hb p hp, hw.last_mem p (hw.predecessors_mem b hb p hp)⟩

/-- The problem that the algorithm solves: values flow between adjacent positions, where the
analysis lets them pass. -/
def problem (hw : Walk f c order) (pass : Instruction B → Instruction B → Bool)
    (gens kills : Instruction B → PtrSet V) : FlowProblem (Instruction B) V where
  node i := ∃ b ∈ f.blocks, i ∈ order b
  prev i j := pass j i = true ∧ Adjacent f c order i j
  gen i v := v ∈ gens i
  kill i v := v ∈ kills i
  prev_node _ _ h := h.2.node hw

/-! ## What a part of the algorithm does -/

variable {a : Analysis B V}

/-- `IN[i]` of the algorithm. -/
abbrev ins (c : Customization B V) (a : Analysis B V) (i : Instruction B) : PtrSet V :=
  c.getInSetOfInst.get a.df i

/-- `OUT[i]` of the algorithm. -/
abbrev outs (c : Customization B V) (a : Analysis B V) (i : Instruction B) : PtrSet V :=
  c.getOutSetOfInst.get a.df i

/-- What `OUT[i]` must hold. -/
def Transfer (c : Customization B V) (a : Analysis B V) (i : Instruction B) (v : V) : Prop :=
  v ∈ a.df.gens i ∨ (v ∈ ins c a i ∧ v ∉ a.df.kills i)

/-- From `a` to `a'` only sets of the positions `S` grow. -/
structure Changes (c : Customization B V) (S : Instruction B → Prop) (a a' : Analysis B V) : Prop where
  gens_eq : a'.df.gens = a.df.gens
  kills_eq : a'.df.kills = a.df.kills
  ins_le : ∀ i v, v ∈ ins c a i → v ∈ ins c a' i
  outs_le : ∀ i v, v ∈ outs c a i → v ∈ outs c a' i
  ins_eq : ∀ i, ¬ S i → ins c a' i = ins c a i
  outs_eq : ∀ i, ¬ S i → outs c a' i = outs c a i
  invoked_le : ∀ i ∈ a.invoked, i ∈ a'.invoked

namespace Changes

variable {S S' : Instruction B → Prop} {a' a'' : Analysis B V}

theorem refl (S : Instruction B → Prop) (a : Analysis B V) : Changes c S a a :=
  ⟨rfl, rfl, fun _ _ => id, fun _ _ => id, fun _ _ => rfl, fun _ _ => rfl, fun _ => id⟩

theorem trans (h : Changes c S a a') (h' : Changes c S a' a'') : Changes c S a a'' where
  gens_eq := h'.gens_eq.trans h.gens_eq
  kills_eq := h'.kills_eq.trans h.kills_eq
  ins_le := fun i v hv => h'.ins_le i v (h.ins_le i v hv)
  outs_le := fun i v hv => h'.outs_le i v (h.outs_le i v hv)
  ins_eq := fun i hi => (h'.ins_eq i hi).trans (h.ins_eq i hi)
  outs_eq := fun i hi => (h'.outs_eq i hi).trans (h.outs_eq i hi)
  invoked_le := fun i hi => h'.invoked_le i (h.invoked_le i hi)

theorem mono (h : Changes c S a a') (hS : ∀ i, S i → S' i) : Changes c S' a a' :=
  { h with
    ins_eq := fun i hi => h.ins_eq i fun hs => hi (hS i hs)
    outs_eq := fun i hi => h.outs_eq i fun hs => hi (hS i hs) }

theorem transfer_iff (h : Changes c S a a') {i : Instruction B} (hi : ¬ S i) (v : V) :
    Transfer c a' i v ↔ Transfer c a i v := by
  rw [Transfer, Transfer, h.gens_eq, h.kills_eq, h.ins_eq i hi]

end Changes

/-! ## Callbacks -/

variable [DecidableEq B]

/-- The references to the two sets of an instruction are to different sets. -/
structure Separate (inS outS : SetOfInst B V) : Prop where
  in_put : ∀ df i s, inS.get (inS.put df i s) = update (inS.get df) i s
  out_put : ∀ df i s, outS.get (outS.put df i s) = update (outS.get df) i s
  in_put_out : ∀ df i s, inS.get (outS.put df i s) = inS.get df
  out_put_in : ∀ df i s, outS.get (inS.put df i s) = outS.get df
  in_gens : ∀ df i s, (inS.put df i s).gens = df.gens
  in_kills : ∀ df i s, (inS.put df i s).kills = df.kills
  out_gens : ∀ df i s, (outS.put df i s).gens = df.gens
  out_kills : ∀ df i s, (outS.put df i s).kills = df.kills
  in_empty : ∀ df, (df.ins = fun _ => ∅) → (df.outs = fun _ => ∅) → inS.get df = fun _ => ∅
  out_empty : ∀ df, (df.ins = fun _ => ∅) → (df.outs = fun _ => ∅) → outS.get df = fun _ => ∅

theorem separate_inOf_outOf : Separate (inOf : SetOfInst B V) outOf :=
  ⟨fun _ _ _ => rfl, fun _ _ _ => rfl, fun _ _ _ => rfl, fun _ _ _ => rfl, fun _ _ _ => rfl,
    fun _ _ _ => rfl, fun _ _ _ => rfl, fun _ _ _ => rfl, fun _ h _ => h, fun _ _ h => h⟩

theorem separate_outOf_inOf : Separate (outOf : SetOfInst B V) inOf :=
  ⟨fun _ _ _ => rfl, fun _ _ _ => rfl, fun _ _ _ => rfl, fun _ _ _ => rfl, fun _ _ _ => rfl,
    fun _ _ _ => rfl, fun _ _ _ => rfl, fun _ _ _ => rfl, fun _ _ h => h, fun _ h _ => h⟩

variable [DecidableEq V]

/-- The callbacks of a gen and kill analysis in the terms of the algorithm, where values flow
between neighbours that `pass`. -/
structure Merges (c : Customization B V) (pass : Instruction B → Instruction B → Bool)
    (cb : Callbacks B V) : Prop where
  separate : Separate c.getInSetOfInst c.getOutSetOfInst
  computeIN_eq : cb.computeIN = GenKillAnalysis.addNeighbourIf pass c.getOutSetOfInst
  computeOUT_eq : cb.computeOUT = GenKillAnalysis.addTransfer c.getInSetOfInst

variable {cb : Callbacks B V} {pass : Instruction B → Instruction B → Bool}

namespace Merges

section

variable (h : Merges c pass cb)

include h

theorem ins_invokeIN (i p : Instruction B) :
    ins c (invokeIN c cb i p a) = update (ins c a) i
      (if pass i p then (ins c a i).insertAll (outs c a p).elems else ins c a i) := by
  unfold ins invokeIN
  rw [h.separate.in_put, h.computeIN_eq]
  rfl

@[simp] theorem outs_invokeIN (i p : Instruction B) :
    outs c (invokeIN c cb i p a) = outs c a :=
  h.separate.out_put_in ..

@[simp] theorem ins_invokeOUT (i : Instruction B) :
    ins c (invokeOUT c cb i a) = ins c a :=
  h.separate.in_put_out ..

theorem mem_ins_invokeIN {i p j : Instruction B} {v : V} :
    v ∈ ins c (invokeIN c cb i p a) j ↔
      v ∈ ins c a j ∨ (j = i ∧ pass i p = true ∧ v ∈ outs c a p) := by
  rw [h.ins_invokeIN]
  by_cases hj : j = i
  · subst hj
    rw [update_self]
    by_cases hpass : pass j p = true
    · rw [if_pos hpass, mem_insertAll, mem_elems]
      simp [hpass]
    · rw [if_neg hpass]
      simp [hpass]
  · rw [update_of_ne hj]
    simp [hj]

theorem mem_outs_invokeOUT {i j : Instruction B} {v : V} :
    v ∈ outs c (invokeOUT c cb i a) j ↔ v ∈ outs c a j ∨ (j = i ∧ Transfer c a i v) := by
  unfold outs invokeOUT
  rw [h.separate.out_put, h.computeOUT_eq]
  by_cases hj : j = i
  · subst hj
    rw [update_self, GenKillAnalysis.addTransfer, mem_insertAll,
      mem_insertAll, mem_elems, mem_elems, mem_filter,
      decide_eq_true_eq, or_assoc]
    exact or_congr_right ⟨fun h => ⟨rfl, h⟩, fun h => h.2⟩
  · rw [update_of_ne hj]
    simp [hj]

theorem outs_invokeOUT_of_ne {i j : Instruction B} (hj : j ≠ i) :
    outs c (invokeOUT c cb i a) j = outs c a j := by
  unfold outs invokeOUT
  rw [h.separate.out_put, update_of_ne hj]

end

end Merges

namespace Changes

theorem invokeIN (h : Merges c pass cb) (i p : Instruction B) :
    Changes c (· = i) a (invokeIN c cb i p a) where
  gens_eq := h.separate.in_gens ..
  kills_eq := h.separate.in_kills ..
  ins_le := fun j v hv => h.mem_ins_invokeIN.mpr (.inl hv)
  outs_le := fun j v hv => by rwa [h.outs_invokeIN]
  ins_eq := fun j hj => by rw [h.ins_invokeIN, update_of_ne hj]
  outs_eq := fun j _ => by rw [h.outs_invokeIN]
  invoked_le := fun j hj => .tail _ (.tail _ hj)

theorem invokeOUT (h : Merges c pass cb) (i : Instruction B) :
    Changes c (· = i) a (invokeOUT c cb i a) where
  gens_eq := h.separate.out_gens ..
  kills_eq := h.separate.out_kills ..
  ins_le := fun j v hv => by rwa [h.ins_invokeOUT]
  outs_le := fun j v hv => h.mem_outs_invokeOUT.mpr (.inl hv)
  ins_eq := fun j _ => by rw [h.ins_invokeOUT]
  outs_eq := fun j hj => h.outs_invokeOUT_of_ne hj
  invoked_le := fun j hj => .tail _ hj

end Changes

/-- The sets hold derivable values only, and callbacks were invoked on visited
positions only. -/
structure Sound (c : Customization B V) (P : FlowProblem (Instruction B) V)
    (gens kills : Instruction B → PtrSet V) (a : Analysis B V) : Prop where
  gens_eq : a.df.gens = gens
  kills_eq : a.df.kills = kills
  ins_enters : ∀ i v, v ∈ ins c a i → P.Enters i v
  outs_flows : ∀ i v, v ∈ outs c a i → P.Flows i v
  invoked_node : ∀ i ∈ a.invoked, P.node i

section Sound

variable {gens kills : Instruction B → PtrSet V} {hw : Walk f c order}

theorem Sound.invokeIN (hs : Sound c (problem hw pass gens kills) gens kills a) (h : Merges c pass cb)
    {i p : Instruction B} (hi : (problem hw pass gens kills).node i)
    (hp : Adjacent f c order p i) :
    Sound c (problem hw pass gens kills) gens kills (invokeIN c cb i p a) where
  gens_eq := ((Changes.invokeIN h i p).gens_eq).trans hs.gens_eq
  kills_eq := ((Changes.invokeIN h i p).kills_eq).trans hs.kills_eq
  ins_enters := fun j v hv => by
    rcases h.mem_ins_invokeIN.mp hv with hv | ⟨rfl, hpass, hvp⟩
    · exact hs.ins_enters j v hv
    · exact ⟨p, ⟨hpass, hp⟩, hs.outs_flows p v hvp⟩
  outs_flows := fun j v hv => by
    rw [h.outs_invokeIN] at hv
    exact hs.outs_flows j v hv
  invoked_node := fun j hj => by
    rcases List.mem_cons.mp hj with rfl | hj
    · exact hi
    · rcases List.mem_cons.mp hj with rfl | hj
      · exact hp.node hw
      · exact hs.invoked_node j hj

theorem Sound.invokeOUT (hs : Sound c (problem hw pass gens kills) gens kills a) (h : Merges c pass cb)
    {i : Instruction B} (hi : (problem hw pass gens kills).node i) :
    Sound c (problem hw pass gens kills) gens kills (invokeOUT c cb i a) where
  gens_eq := ((Changes.invokeOUT h i).gens_eq).trans hs.gens_eq
  kills_eq := ((Changes.invokeOUT h i).kills_eq).trans hs.kills_eq
  ins_enters := fun j v hv => by
    rw [h.ins_invokeOUT] at hv
    exact hs.ins_enters j v hv
  outs_flows := fun j v hv => by
    rcases h.mem_outs_invokeOUT.mp hv with hv | ⟨rfl, hg | ⟨hvi, hk⟩⟩
    · exact hs.outs_flows j v hv
    · exact .gen hi (hs.gens_eq ▸ hg)
    · obtain ⟨p, hp, hf⟩ := hs.ins_enters j v hvi
      exact .step hi hp hf fun hk' => hk (hs.kills_eq ▸ hk')
  invoked_node := fun j hj => by
    rcases List.mem_cons.mp hj with rfl | hj
    · exact hi
    · exact hs.invoked_node j hj

end Sound

/-! ## One block -/

/-- The sets along a list of positions are closed under the equations. -/
structure ClosedAlong (c : Customization B V) (pass : Instruction B → Instruction B → Bool)
    (l : List (Instruction B)) (a : Analysis B V) : Prop where
  flow : ∀ x y, [x, y] <:+: l → pass y x = true → ∀ v ∈ outs c a x, v ∈ ins c a y
  transfer : ∀ x ∈ l, ∀ v, Transfer c a x v → v ∈ outs c a x

omit [DecidableEq B] [DecidableEq V] in
theorem ClosedAlong.of_changes {S : Instruction B → Prop} {a' : Analysis B V}
    {l : List (Instruction B)} (h : ClosedAlong c pass l a) (hc : Changes c S a a')
    (hl : ∀ x ∈ l, ¬ S x) : ClosedAlong c pass l a' where
  flow := fun x y hxy hpass v hv => by
    have hx : x ∈ l := hxy.subset (.head _)
    have hy : y ∈ l := hxy.subset (.tail _ (.head _))
    rw [hc.outs_eq x (hl x hx)] at hv
    rw [hc.ins_eq y (hl y hy)]
    exact h.flow x y hxy hpass v hv
  transfer := fun x hx v hv => by
    rw [hc.outs_eq x (hl x hx)]
    exact h.transfer x hx v ((hc.transfer_iff (hl x hx) v).mp hv)

theorem Merges.transfer_invokeOUT (h : Merges c pass cb) {i : Instruction B} {v : V}
    (hv : Transfer c (invokeOUT c cb i a) i v) : v ∈ outs c (invokeOUT c cb i a) i := by
  have hc := Changes.invokeOUT (a := a) h i
  rw [Transfer, hc.gens_eq, hc.kills_eq, h.ins_invokeOUT] at hv
  exact h.mem_outs_invokeOUT.mpr (.inr ⟨rfl, hv⟩)

section Block

variable {gens kills : Instruction B → PtrSet V} {hw : Walk f c order}

/-- Merging the predecessors into an instruction keeps the sets sound. -/
theorem gather_spec (h : Merges c pass cb) {i : Instruction B} (hi : (problem hw pass gens kills).node i) :
    ∀ {ps : List B} {a : Analysis B V}, Sound c (problem hw pass gens kills) gens kills a →
    (∀ p ∈ ps, Adjacent f c order (c.getLastInstruction p) i) →
    ∃ a', ps.foldl (fun a p => invokeIN c cb i (c.getLastInstruction p) a) a = a' ∧
      Sound c (problem hw pass gens kills) gens kills a' ∧ Changes c (· = i) a a' ∧
      outs c a' = outs c a ∧ ∀ p ∈ ps, pass i (c.getLastInstruction p) = true →
        ∀ v ∈ outs c a (c.getLastInstruction p), v ∈ ins c a' i
  | [], a, hs, _ => ⟨a, rfl, hs, .refl _ a, rfl, nofun⟩
  | p :: ps, a, hs, hps => by
      have hs₁ := hs.invokeIN h hi (hps p (.head _))
      have hc₁ := Changes.invokeIN (a := a) h i (c.getLastInstruction p)
      obtain ⟨a', ha', hs', hc', houts, hin⟩ :=
        gather_spec h hi hs₁ fun q hq => hps q (.tail _ hq)
      rw [h.outs_invokeIN] at houts hin
      refine ⟨a', ha', hs', hc₁.trans hc', houts, fun q hq hpass v hv => ?_⟩
      rcases List.mem_cons.mp hq with rfl | hq
      · exact hc'.ins_le i v (h.mem_ins_invokeIN.mpr (.inr ⟨rfl, hpass, hv⟩))
      · exact hin q hq hpass v hv

/-- The walk along a block keeps the sets sound and closes them along it. -/
theorem propagate_spec (h : Merges c pass cb) {b : B} {i : Instruction B} {l : List (Instruction B)}
    (hsteps : Steps c b i l) : ∀ {a : Analysis B V} {fuel : Nat},
    Sound c (problem hw pass gens kills) gens kills a → l.length ≤ fuel → (i :: l).Nodup →
    (∀ x y, [x, y] <:+: i :: l → Adjacent f c order x y) →
    (∀ x ∈ l, (problem hw pass gens kills).node x) → (∀ v, Transfer c a i v → v ∈ outs c a i) →
    ∃ e p a', loopM (fun st => decide (st.1 ≠ c.getEndIterator b)) (propagateStep c cb) fuel
        (i, i, a) = some (e, p, a') ∧
      Sound c (problem hw pass gens kills) gens kills a' ∧ Changes c (· ∈ l) a a' ∧
      ClosedAlong c pass (i :: l) a' ∧ ∀ x ∈ l, x ∈ a'.invoked := by
  induction hsteps with
  | @done i hend =>
      intro a fuel hs _ _ _ _ htr
      refine ⟨i, i, a, loopM_of_not_cond (by simp [hend]) fuel, hs, .refl _ a, ⟨?_, ?_⟩, by simp⟩
      · intro x y hxy
        exact absurd hxy.length_le (by simp)
      · intro x hx
        obtain rfl := List.mem_singleton.mp hx
        exact htr
  | @next i j l hne hinc hsteps ih =>
      intro a fuel hs hfuel hnd hprev hnode htr
      obtain ⟨fuel, rfl⟩ : ∃ n, fuel = n + 1 := ⟨fuel - 1, by simp at hfuel; omega⟩
      obtain ⟨hil, hnd'⟩ := List.nodup_cons.mp hnd
      obtain ⟨hjl, _⟩ := List.nodup_cons.mp hnd'
      have hij : i ≠ j := fun heq => hil (heq ▸ (.head _))
      have hil' : i ∉ l := fun hi => hil (.tail _ hi)
      -- the step to `j`
      set a₁ := invokeOUT c cb j (invokeIN c cb j i a) with ha₁
      have hj := hnode j (.head _)
      have hs₁ : Sound c (problem hw pass gens kills) gens kills a₁ :=
        (hs.invokeIN h hj (hprev i j ⟨[], l, rfl⟩)).invokeOUT h hj
      have hc₁ : Changes c (· = j) a a₁ := (Changes.invokeIN h j i).trans (Changes.invokeOUT h j)
      obtain ⟨e, p, a', hloop, hs', hc', hclosed, hinv⟩ := @ih a₁ fuel hs₁
        (by simpa using hfuel) hnd' (fun x y hxy => hprev x y (hxy.trans (List.suffix_cons i _).isInfix))
        (fun x hx => hnode x (.tail _ hx)) (fun v => h.transfer_invokeOUT)
      have hc : Changes c (· ∈ j :: l) a a' :=
        (hc₁.mono fun x hx => hx ▸ (.head _)).trans
          (hc'.mono fun x hx => .tail _ hx)
      refine ⟨e, p, a', ?_, hs', hc, ⟨?_, ?_⟩, ?_⟩
      · rw [loopM, if_pos (by simpa using hne)]
        simpa [propagateStep, hinc] using hloop
      · intro x y hxy hpass v hv
        rcases List.infix_cons_iff.mp hxy with hpre | hxy
        · -- the step itself
          obtain ⟨hxi, hpre⟩ := List.cons_prefix_cons.mp hpre
          obtain ⟨hyj, _⟩ := List.cons_prefix_cons.mp hpre
          rw [hxi, hc.outs_eq i hil] at hv
          rw [hxi, hyj] at hpass
          rw [hyj]
          refine hc'.ins_le j v ?_
          rw [ha₁, h.ins_invokeOUT]
          exact h.mem_ins_invokeIN.mpr (.inr ⟨rfl, hpass, hv⟩)
        · exact hclosed.flow x y hxy hpass v hv
      · intro x hx
        rcases List.mem_cons.mp hx with rfl | hx
        · intro v hv
          rw [hc.outs_eq x hil]
          exact htr v ((hc.transfer_iff hil v).mp hv)
        · exact hclosed.transfer x hx
      · intro x hx
        rcases List.mem_cons.mp hx with rfl | hx
        · exact hc'.invoked_le x (.head _)
        · exact hinv x hx

end Block

/-! ## The main loop -/

/-- The invariant of the main loop. -/
structure Progress (hw : Walk f c order) (pass : Instruction B → Instruction B → Bool)
    (gens kills : Instruction B → PtrSet V) (s : WorkState B V) : Prop where
  sound : Sound c (problem hw pass gens kills) gens kills s.analysis
  work_mem : ∀ b ∈ s.workingList, b ∈ f.blocks
  once_mem : ∀ b ∈ s.computedOnce, b ∈ f.blocks
  closed : ∀ b ∈ s.computedOnce, ClosedAlong c pass (order b) s.analysis
  visited : ∀ b ∈ s.computedOnce, ∀ i ∈ order b, i ∈ s.analysis.invoked
  /-- A block that waits for nothing was computed, from the current sets of its
  predecessors. -/
  pending : ∀ b ∈ f.blocks, b ∈ s.workingList ∨ (b ∈ s.computedOnce ∧ ∀ p ∈ c.getPredecessors b,
    pass (c.getFirstInstruction b) (c.getLastInstruction p) = true →
      ∀ v ∈ outs c s.analysis (c.getLastInstruction p),
        v ∈ ins c s.analysis (c.getFirstInstruction b))

/-- How much a block can still do: be computed a first time, and let the set of its
first instruction grow. -/
def potential (c : Customization B V) (U : List V) (s : WorkState B V) (b : B) : Nat :=
  (if b ∈ s.computedOnce then 0 else 1) +
    (U.length - (outs c s.analysis (c.getFirstInstruction b)).size)

/-- Blocks that are appended at a time. -/
def fanOut (f : CFG B) (c : Customization B V) : Nat :=
  (f.blocks.map fun b => (c.getSuccessors b).length).sum

def workMeasure (f : CFG B) (c : Customization B V) (U : List V) (s : WorkState B V) : Nat :=
  (f.blocks.map (potential c U s)).sum * (fanOut f c + 1) + s.workingList.length

section MainLoop

variable {gens kills : Instruction B → PtrSet V} {hw : Walk f c order} {U : List V}
  {s s' : WorkState B V}

omit [DecidableEq V] in
theorem sum_potential_lt (hle : ∀ b ∈ f.blocks, potential c U s' b ≤ potential c U s b) {b : B}
    (hb : b ∈ f.blocks) (hlt : potential c U s' b < potential c U s b) :
    (f.blocks.map (potential c U s')).sum < (f.blocks.map (potential c U s)).sum :=
  List.sum_lt_sum _ _ hle ⟨b, hb, hlt⟩

section

omit [DecidableEq B] [DecidableEq V]

theorem length_successors_le {b : B} (hb : b ∈ f.blocks) :
    (c.getSuccessors b).length ≤ fanOut f c :=
  List.single_le_sum (fun _ _ => Nat.zero_le _) _ (List.mem_map_of_mem hb)

theorem flows_mem (hU : ∀ i v, v ∈ gens i → v ∈ U) {i : Instruction B} {v : V}
    (h : (problem hw pass gens kills).Flows i v) : v ∈ U := by
  induction h with
  | gen _ hg => exact hU _ _ hg
  | step _ _ _ _ ih => exact ih

theorem Sound.size_le (hs : Sound c (problem hw pass gens kills) gens kills a)
    (hU : ∀ i v, v ∈ gens i → v ∈ U) (i : Instruction B) : (outs c a i).size ≤ U.length :=
  size_le_length fun v hv => flows_mem hU (hs.outs_flows i v hv)

end

variable {b : B} {rest : List B} {a₂ : Analysis B V} {fuel : Nat}

/-- The first instruction of a block is brought up to date. -/
theorem head_spec (h : Merges c pass cb) (hb : b ∈ f.blocks)
    (hs : Sound c (problem hw pass gens kills) gens kills a) :
    ∃ a₁ a₂, (c.getPredecessors b).foldl (fun a p =>
        invokeIN c cb (c.getFirstInstruction b) (c.getLastInstruction p) a) a = a₁ ∧
      a₂ = invokeOUT c cb (c.getFirstInstruction b) a₁ ∧ outs c a₁ = outs c a ∧
      Sound c (problem hw pass gens kills) gens kills a₂ ∧ Changes c (· = c.getFirstInstruction b) a a₂ ∧
      (∀ v, Transfer c a₂ (c.getFirstInstruction b) v → v ∈ outs c a₂ (c.getFirstInstruction b)) ∧
      c.getFirstInstruction b ∈ a₂.invoked ∧
      ∀ p ∈ c.getPredecessors b,
        pass (c.getFirstInstruction b) (c.getLastInstruction p) = true →
          ∀ v ∈ outs c a (c.getLastInstruction p), v ∈ ins c a₂ (c.getFirstInstruction b) := by
  obtain ⟨rest, horder, _⟩ := hw.steps b hb
  have hfirst : (problem hw pass gens kills).node (c.getFirstInstruction b) :=
    ⟨b, hb, by rw [horder]; exact .head _⟩
  obtain ⟨a₁, ha₁, hs₁, hc₁, houts, hin⟩ := gather_spec h hfirst hs
    fun p hp => ⟨b, hb, .inr ⟨rfl, p, hp, rfl⟩⟩
  refine ⟨a₁, _, ha₁, rfl, houts, hs₁.invokeOUT h hfirst, hc₁.trans (Changes.invokeOUT h _),
    fun v => h.transfer_invokeOUT, .head _, fun p hp hpass v hv => ?_⟩
  rw [h.ins_invokeOUT]
  exact hin p hp hpass v hv

section

variable (hp : Progress hw pass gens kills s)

include hp

omit [DecidableEq V] in
/-- A block that changed queues its neighbours again. -/
theorem Progress.changed
    (hU : ∀ i v, v ∈ gens i → v ∈ U) (hwork : s.workingList = b :: rest)
    {a' : Analysis B V} (hs' : Sound c (problem hw pass gens kills) gens kills a')
    (hhead : Changes c (· = c.getFirstInstruction b) s.analysis a₂)
    (hgather : ∀ p ∈ c.getPredecessors b,
      pass (c.getFirstInstruction b) (c.getLastInstruction p) = true →
        ∀ v ∈ outs c s.analysis (c.getLastInstruction p), v ∈ ins c a₂ (c.getFirstInstruction b))
    {l : List (Instruction B)} (horder : order b = c.getFirstInstruction b :: l)
    (htail : Changes c (· ∈ l) a₂ a') (hclosed : ClosedAlong c pass (order b) a')
    (hvisited : ∀ i ∈ order b, i ∈ a'.invoked)
    (hchanged : b ∉ s.computedOnce ∨ (outs c a₂ (c.getFirstInstruction b)).size ≠
      (outs c s.analysis (c.getFirstInstruction b)).size) :
    Progress hw pass gens kills
        ⟨rest ++ c.getSuccessors b, s.computedOnce.insert b, a'⟩ ∧
      workMeasure f c U ⟨rest ++ c.getSuccessors b, s.computedOnce.insert b, a'⟩ <
        workMeasure f c U s := by
  have hb : b ∈ f.blocks := hp.work_mem b (by rw [hwork]; exact .head _)
  have hfirst : c.getFirstInstruction b ∉ l := by
    have hnd := hw.nodup b hb
    rw [horder] at hnd
    exact (List.nodup_cons.mp hnd).1
  have hc : Changes c (· ∈ order b) s.analysis a' := by
    rw [horder]
    exact (hhead.mono fun i hi => hi ▸ (.head _)).trans
      (htail.mono fun i hi => .tail _ hi)
  have hother : ∀ b' ∈ f.blocks, b' ≠ b → ∀ i ∈ order b', i ∉ order b := fun b' hb' hne i hi hi' =>
    hne ((hw.parent b' hb' i hi).symm.trans (hw.parent b hb i hi'))
  have hfirstOf : ∀ b' ∈ f.blocks, c.getFirstInstruction b' ∈ order b' := by
    intro b' hb'
    obtain ⟨l', hl', _⟩ := hw.steps b' hb'
    rw [hl']
    exact .head _
  constructor
  · refine ⟨hs', ?_, ?_, ?_, ?_, ?_⟩
    · intro b' hb'
      rcases List.mem_append.mp hb' with hb' | hb'
      · exact hp.work_mem b' (by rw [hwork]; exact .tail _ hb')
      · exact hw.successors_mem b hb b' hb'
    · intro b' hb'
      rcases mem_insert.mp hb' with rfl | hb'
      · exact hb
      · exact hp.once_mem b' hb'
    · intro b' hb'
      by_cases heq : b' = b
      · exact heq ▸ hclosed
      · have honce := (mem_insert.mp hb').resolve_left heq
        exact (hp.closed b' honce).of_changes hc (hother b' (hp.once_mem b' honce) heq)
    · intro b' hb' i hi
      rcases mem_insert.mp hb' with rfl | honce
      · exact hvisited i hi
      · exact hc.invoked_le i (hp.visited b' honce i hi)
    · intro b' hb'
      by_cases hsucc : b' ∈ c.getSuccessors b
      · exact .inl (List.mem_append.mpr (.inr hsucc))
      · -- no predecessor of the block has changed
        have hlast : ∀ p ∈ c.getPredecessors b',
            outs c a' (c.getLastInstruction p) = outs c s.analysis (c.getLastInstruction p) := by
          intro p hpp
          have hne : p ≠ b := fun heq => hsucc (heq ▸ hw.mem_successors b' hb' p hpp)
          have hpb := hw.predecessors_mem b' hb' p hpp
          exact hc.outs_eq _ (hother p hpb hne _ (hw.last_mem p hpb))
        by_cases heq : b' = b
        · refine .inr ⟨mem_insert.mpr (.inl heq), fun p hpp hpass v hv => ?_⟩
          rw [hlast p hpp] at hv
          subst heq
          rw [htail.ins_eq _ hfirst]
          exact hgather p hpp hpass v hv
        · rcases hp.pending b' hb' with hmem | ⟨honce, hpre⟩
          · rw [hwork] at hmem
            exact .inl (List.mem_append.mpr (.inl ((List.mem_cons.mp hmem).resolve_left heq)))
          · refine .inr ⟨mem_insert.mpr (.inr honce), fun p hpp hpass v hv => ?_⟩
            rw [hlast p hpp] at hv
            rw [hc.ins_eq _ (hother b' hb' heq _ (hfirstOf b' hb'))]
            exact hpre p hpp hpass v hv
  · have honce : ∀ b', (if b' ∈ s.computedOnce.insert b then 0 else 1) ≤
        (if b' ∈ s.computedOnce then 0 else 1) := by
      intro b'
      by_cases hb' : b' ∈ s.computedOnce
      · simp [hb', mem_insert]
      · rw [if_neg hb']
        split <;> omega
    have hgrow : ∀ i, (outs c s.analysis i).size ≤ (outs c a' i).size := fun i =>
      size_le_length (hc.outs_le i)
    have hsum := @sum_potential_lt B V f c _ U s
      ⟨rest ++ c.getSuccessors b, s.computedOnce.insert b, a'⟩
      (fun b' _ => by
        have h₁ := honce b'
        have h₂ := hgrow (c.getFirstInstruction b')
        simp only [potential]
        omega) b hb (by
        have h₂ := hgrow (c.getFirstInstruction b)
        have h₃ := hs'.size_le hU (c.getFirstInstruction b)
        have h₄ : (if b ∈ s.computedOnce.insert b then 0 else 1) = 0 :=
          if_pos (mem_insert.mpr (.inl rfl))
        have h₅ := htail.outs_eq _ hfirst
        simp only [potential, h₄]
        rcases hchanged with hnew | hsize
        · rw [if_neg hnew]
          omega
        · rw [← h₅] at hsize
          split <;> omega)
    have hsucc := length_successors_le (c := c) hb
    have hmul := Nat.mul_le_mul_right (fanOut f c + 1) (Nat.succ_le_of_lt hsum)
    rw [Nat.succ_mul] at hmul
    simp only [workMeasure, hwork, List.length_append, List.length_cons]
    omega

omit [DecidableEq V] in
/-- A block that did not change leaves the worklist. -/
theorem Progress.unchanged
    (hwork : s.workingList = b :: rest)
    (hs₂ : Sound c (problem hw pass gens kills) gens kills a₂)
    (hhead : Changes c (· = c.getFirstInstruction b) s.analysis a₂)
    (hgather : ∀ p ∈ c.getPredecessors b,
      pass (c.getFirstInstruction b) (c.getLastInstruction p) = true →
        ∀ v ∈ outs c s.analysis (c.getLastInstruction p), v ∈ ins c a₂ (c.getFirstInstruction b))
    (htransfer : ∀ v, Transfer c a₂ (c.getFirstInstruction b) v →
      v ∈ outs c a₂ (c.getFirstInstruction b))
    (honce : b ∈ s.computedOnce) (hsize : (outs c a₂ (c.getFirstInstruction b)).size =
      (outs c s.analysis (c.getFirstInstruction b)).size) :
    Progress hw pass gens kills { s with workingList := rest, analysis := a₂ } ∧
      workMeasure f c U { s with workingList := rest, analysis := a₂ } < workMeasure f c U s := by
  have houts : ∀ i v, v ∈ outs c a₂ i → v ∈ outs c s.analysis i := by
    intro i v hv
    by_cases hi : i = c.getFirstInstruction b
    · subst hi
      exact mem_of_size_le (hhead.outs_le _) hsize.le hv
    · rwa [hhead.outs_eq i hi] at hv
  have hmem : ∀ b', b' ∈ s.workingList → b' = b ∨ b' ∈ rest := fun b' hb' => by
    rw [hwork] at hb'
    exact List.mem_cons.mp hb'
  constructor
  · refine ⟨hs₂, ?_, hp.once_mem, fun b' hb' => ⟨?_, ?_⟩, ?_, ?_⟩
    · exact fun b' hb' => hp.work_mem b' (by rw [hwork]; exact .tail _ hb')
    · intro x y hxy hpass v hv
      exact hhead.ins_le y v ((hp.closed b' hb').flow x y hxy hpass v (houts x v hv))
    · intro x hx v hv
      by_cases hxf : x = c.getFirstInstruction b
      · subst hxf
        exact htransfer v hv
      · exact hhead.outs_le x v
          ((hp.closed b' hb').transfer x hx v ((hhead.transfer_iff hxf v).mp hv))
    · exact fun b' hb' i hi => hhead.invoked_le i (hp.visited b' hb' i hi)
    · intro b' hb'
      rcases hp.pending b' hb' with hwl | ⟨hb'once, hpre⟩
      · rcases hmem b' hwl with rfl | hrest
        · exact .inr ⟨honce, fun p hpp hpass v hv => hgather p hpp hpass v (houts _ v hv)⟩
        · exact .inl hrest
      · exact .inr ⟨hb'once, fun p hpp hpass v hv =>
          hhead.ins_le _ v (hpre p hpp hpass v (houts _ v hv))⟩
  · have hpot : potential c U { s with workingList := rest, analysis := a₂ } = potential c U s := by
      funext b'
      simp only [potential]
      by_cases hf : c.getFirstInstruction b' = c.getFirstInstruction b
      · rw [hf, hsize]
      · rw [hhead.outs_eq _ hf]
    simp only [workMeasure, hpot, hwork, List.length_cons]
    omega

/-- Processing a block lowers the measure of what is left to do. -/
theorem Progress.processBlock_spec (h : Merges c pass cb) (hU : ∀ i v, v ∈ gens i → v ∈ U)
    (hfuel : ∀ b ∈ f.blocks, (order b).length ≤ fuel) (hwork : s.workingList.isEmpty = false) :
    ∃ s', processBlock c cb fuel s = some s' ∧ Progress hw pass gens kills s' ∧
      workMeasure f c U s' < workMeasure f c U s := by
  obtain ⟨b, rest, hcons⟩ := List.exists_cons_of_ne_nil
    (fun hnil => by simp [hnil] at hwork : s.workingList ≠ [])
  have hb : b ∈ f.blocks := hp.work_mem b (by rw [hcons]; exact .head _)
  obtain ⟨a₁, a₂, ha₁, ha₂, houts₁, hs₂, hhead, htransfer, hfirst, hgather⟩ := head_spec h hb hp.sound
  obtain ⟨l, horder, hsteps⟩ := hw.steps b hb
  by_cases hchanged : b ∉ s.computedOnce ∨ (outs c a₂ (c.getFirstInstruction b)).size ≠
      (outs c s.analysis (c.getFirstInstruction b)).size
  · have hadj : ∀ x y, [x, y] <:+: c.getFirstInstruction b :: l →
        Adjacent f c order x y := fun x y hxy => ⟨b, hb, .inl (horder ▸ hxy)⟩
    have hnode : ∀ x ∈ l, (problem hw pass gens kills).node x := fun x hx =>
      ⟨b, hb, by rw [horder]; exact .tail _ hx⟩
    have hlength : l.length ≤ fuel := by
      have hle := hfuel b hb
      rw [horder, List.length_cons] at hle
      omega
    obtain ⟨e, p, a', hloop, hs', htail, hclosed, hinv⟩ := propagate_spec h hsteps hs₂ hlength
      (horder ▸ hw.nodup b hb) hadj hnode htransfer
    refine ⟨_, ?_, hp.changed hU hcons hs' hhead hgather horder htail (horder ▸ hclosed) ?_ hchanged⟩
    · simp only [processBlock, hcons]
      rw [ha₁, ← ha₂, if_pos (by rw [← houts₁] at hchanged; exact hchanged), hloop]
      rfl
    · intro i hi
      rw [horder] at hi
      rcases List.mem_cons.mp hi with rfl | hi
      · exact htail.invoked_le _ hfirst
      · exact hinv i hi
  · have hno := hchanged
    rw [not_or, not_not, not_not] at hno
    refine ⟨_, ?_, hp.unchanged hcons hs₂ hhead hgather htransfer hno.1 hno.2⟩
    simp only [processBlock, hcons]
    rw [ha₁, ← ha₂, if_neg (by rw [← houts₁] at hchanged; exact hchanged)]
    rfl

/-- The worklist runs empty. -/
theorem Progress.loop_spec (h : Merges c pass cb) (hU : ∀ i v, v ∈ gens i → v ∈ U)
    (hfuel : ∀ b ∈ f.blocks, (order b).length ≤ fuel) (hmeasure : workMeasure f c U s ≤ fuel) :
    ∃ s', loopM (fun s => !s.workingList.isEmpty) (processBlock c cb fuel) fuel s = some s' ∧
      Progress hw pass gens kills s' ∧ s'.workingList = [] := by
  have hbody : ∀ s : WorkState B V, Progress hw pass gens kills s → (!s.workingList.isEmpty) = true →
      ∃ s', processBlock c cb fuel s = some s' ∧ Progress hw pass gens kills s' ∧
        workMeasure f c U s' < workMeasure f c U s := fun s hp hwork =>
    hp.processBlock_spec h hU hfuel (by simpa using hwork)
  obtain ⟨s', hs', hp', hdone⟩ := loopM_rule _ _ hbody fuel s hp hmeasure
  exact ⟨s', hs', hp', by simpa using hdone⟩

omit [DecidableEq B] [DecidableEq V] in
theorem Progress.isLeastSolution (hdone : s.workingList = []) :
    (problem hw pass gens kills).IsLeastSolution (fun i v => v ∈ ins c s.analysis i)
      (fun i v => v ∈ outs c s.analysis i) := by
  have hall : ∀ b ∈ f.blocks, b ∈ s.computedOnce ∧ ∀ p ∈ c.getPredecessors b,
      pass (c.getFirstInstruction b) (c.getLastInstruction p) = true →
        ∀ v ∈ outs c s.analysis (c.getLastInstruction p),
          v ∈ ins c s.analysis (c.getFirstInstruction b) := fun b hb =>
    (hp.pending b hb).resolve_left fun hmem => by
      rw [hdone] at hmem
      exact List.not_mem_nil hmem
  refine FlowProblem.isLeastSolution_of_closed (fun i v _ => hp.sound.ins_enters i v)
    (fun i v _ => hp.sound.outs_flows i v) ?_ ?_
  · rintro i j v _ ⟨hpass, b, hb, hij | ⟨rfl, p, hpp, rfl⟩⟩ hv
    · exact (hp.closed b (hall b hb).1).flow i j hij hpass v hv
    · exact (hall b hb).2 p hpp hpass v hv
  · rintro i v ⟨b, hb, hi⟩ hv
    refine (hp.closed b (hall b hb).1).transfer i hi v ?_
    rw [Transfer, hp.sound.gens_eq, hp.sound.kills_eq]
    exact hv

omit [DecidableEq B] [DecidableEq V] in
theorem Progress.mem_invoked_iff (hdone : s.workingList = [])
    (i : Instruction B) : i ∈ s.analysis.invoked ↔ ∃ b ∈ f.blocks, i ∈ order b := by
  refine ⟨hp.sound.invoked_node i, fun ⟨b, hb, hi⟩ => ?_⟩
  rcases hp.pending b hb with hmem | ⟨honce, _⟩
  · rw [hdone] at hmem
    nomatch hmem
  · exact hp.visited b honce i hi

end

end MainLoop

/-! ## The whole analysis -/

/-- The callbacks of the analysis with the sets `gen` and `kill` and empty initial sets. -/
structure GenKill (gen kill : Instruction B → PtrSet V) (cb : Callbacks B V) : Prop where
  computeGEN_eq : cb.computeGEN = GenKillAnalysis.computeGEN gen
  computeKILL_eq : cb.computeKILL = GenKillAnalysis.computeKILL kill
  initializeIN_eq : ∀ i s, cb.initializeIN i s = s
  initializeOUT_eq : ∀ i s, cb.initializeOUT i s = s

section Analysis

variable {gen kill : Instruction B → PtrSet V}

/-- All the sets start empty. -/
theorem initializeSets_spec (hcb : GenKill gen kill cb) :
    (initializeSets f cb).df = ⟨fun _ => ∅, fun _ => ∅, fun _ => ∅, fun _ => ∅⟩ ∧
      ∀ i ∈ (initializeSets f cb).invoked, f.Contains i := by
  refine foldl_rule _ (fun _ (a : Analysis B V) =>
    a.df = ⟨fun _ => ∅, fun _ => ∅, fun _ => ∅, fun _ => ∅⟩ ∧ ∀ i ∈ a.invoked, f.Contains i)
    ⟨rfl, nofun⟩ ?_
  rintro pre i post a hsplit ⟨hdf, hinv⟩
  have hi : f.Contains i := CFG.mem_instructions.mp (by rw [hsplit]; simp)
  constructor
  · simp only [hcb.initializeIN_eq, hcb.initializeOUT_eq, update_eq_self]
    exact hdf
  · intro j hj
    rcases List.mem_cons.mp hj with rfl | hj
    · exact hi
    · exact hinv j hj

/-- `GEN` and `KILL` are those of the problem, and the other sets stay empty. -/
theorem computeGENAndKILL_spec (hcb : GenKill gen kill cb) {a : Analysis B V}
    (hdf : a.df = ⟨fun _ => ∅, fun _ => ∅, fun _ => ∅, fun _ => ∅⟩)
    (hinv : ∀ i ∈ a.invoked, f.Contains i) :
    ((computeGENAndKILL f cb a).df.ins = fun _ => ∅) ∧
      ((computeGENAndKILL f cb a).df.outs = fun _ => ∅) ∧
      (∀ i v, v ∈ (computeGENAndKILL f cb a).df.gens i ↔ f.Contains i ∧ v ∈ gen i) ∧
      (∀ i v, v ∈ (computeGENAndKILL f cb a).df.kills i ↔ f.Contains i ∧ v ∈ kill i) ∧
      ∀ i ∈ (computeGENAndKILL f cb a).invoked, f.Contains i := by
  have hloop := foldl_rule (l := f.instructions) (s := a) (fun (a : Analysis B V) i =>
      ({ df := cb.computeKILL i (cb.computeGEN i a.df), invoked := i :: a.invoked } : Analysis B V))
    (fun pre a => (a.df.ins = fun _ => ∅) ∧ (a.df.outs = fun _ => ∅) ∧
      (∀ i v, v ∈ a.df.gens i ↔ i ∈ pre ∧ v ∈ gen i) ∧
      (∀ i v, v ∈ a.df.kills i ↔ i ∈ pre ∧ v ∈ kill i) ∧ ∀ i ∈ a.invoked, f.Contains i)
    (by rw [hdf]; exact ⟨rfl, rfl, by simp, by simp, hinv⟩)
    (by
      rintro pre i post a hsplit ⟨hins, houts, hgens, hkills, hinv⟩
      have hi : f.Contains i := CFG.mem_instructions.mp (by rw [hsplit]; simp)
      rw [hcb.computeGEN_eq, hcb.computeKILL_eq]
      refine ⟨hins, houts, fun j v => ?_, fun j v => ?_, fun j hj => ?_⟩
      · simp only [GenKillAnalysis.computeKILL, GenKillAnalysis.computeGEN]
        by_cases hj : j = i
        · subst hj
          simp only [update_self, mem_insertAll, mem_elems, hgens,
            List.mem_append, List.mem_singleton]
          tauto
        · simp only [update_of_ne hj, hgens, List.mem_append, List.mem_singleton, hj,
            or_false]
      · simp only [GenKillAnalysis.computeKILL, GenKillAnalysis.computeGEN]
        by_cases hj : j = i
        · subst hj
          simp only [update_self, mem_insertAll, mem_elems, hkills,
            List.mem_append, List.mem_singleton]
          tauto
        · simp only [update_of_ne hj, hkills, List.mem_append, List.mem_singleton, hj,
            or_false]
      · rcases List.mem_cons.mp hj with rfl | hj
        · exact hi
        · exact hinv j hj)
  simp only [CFG.mem_instructions] at hloop
  exact hloop

/-- The analysis solves every problem over the instructions with its edges and sets. -/
theorem applyGeneralizedForwardAnalysis_spec (hw : Walk f c order) (h : Merges c pass cb)
    (hcb : GenKill gen kill cb) {Q : FlowProblem (Instruction B) V}
    (hnode : ∀ i, Q.node i → f.Contains i)
    (hprev : ∀ i, Q.node i → ∀ j, Q.prev j i ↔ pass i j = true ∧ Adjacent f c order j i)
    (hgen : ∀ i v, Q.gen i v ↔ v ∈ gen i) (hkill : ∀ i v, Q.kill i v ↔ v ∈ kill i) :
    ∃ N, ∀ fuel ≥ N, ∃ a, applyGeneralizedForwardAnalysis f c cb fuel = some a ∧
      Q.IsLeastSolution (fun i v => v ∈ ins c a i) (fun i v => v ∈ outs c a i) ∧
      ∀ i, i ∈ a.invoked ↔ ∃ b ∈ f.blocks, i ∈ order b := by
  obtain ⟨hdf, hinv⟩ := initializeSets_spec (f := f) hcb
  obtain ⟨hins, houts, hgens, hkills, hinv⟩ := computeGENAndKILL_spec hcb hdf hinv
  set a₀ := computeGENAndKILL f cb (initializeSets f cb) with ha₀
  set s₀ : WorkState B V :=
    { workingList := f.blocks.foldl c.appendBB [], computedOnce := ∅, analysis := a₀ } with hs₀
  have hempty : ∀ i v, v ∉ ins c a₀ i ∧ v ∉ outs c a₀ i := by
    intro i v
    rw [ins, outs, h.separate.in_empty a₀.df hins houts, h.separate.out_empty a₀.df hins houts]
    exact ⟨not_mem_empty v, not_mem_empty v⟩
  have hwork : ∀ b, b ∈ s₀.workingList ↔ b ∈ f.blocks := by
    intro b
    have hloop := foldl_rule (l := f.blocks) (s := []) c.appendBB
      (fun pre l => b ∈ l ↔ b ∈ pre) (by simp) (by
        intro pre x post l _ hl
        rw [hw.mem_appendBB, hl, List.mem_append, List.mem_singleton, or_comm])
    exact hloop
  have hp : Progress hw pass a₀.df.gens a₀.df.kills s₀ :=
    { sound :=
        { gens_eq := rfl
          kills_eq := rfl
          ins_enters := fun i v hv => absurd hv (hempty i v).1
          outs_flows := fun i v hv => absurd hv (hempty i v).2
          invoked_node := fun i hi => ⟨i.parent, (hinv i hi).1, hw.contains_mem i (hinv i hi)⟩ }
      work_mem := fun b hb => (hwork b).mp hb
      once_mem := fun b hb => absurd hb (not_mem_empty b)
      closed := fun b hb => absurd hb (not_mem_empty b)
      visited := fun b hb => absurd hb (not_mem_empty b)
      pending := fun b hb => .inl ((hwork b).mpr hb) }
  have hU : ∀ i v, v ∈ a₀.df.gens i → v ∈ f.instructions.flatMap fun i => (gen i).elems := by
    intro i v hv
    obtain ⟨hi, hv⟩ := (hgens i v).mp hv
    exact List.mem_flatMap.mpr ⟨i, CFG.mem_instructions.mpr hi, hv⟩
  refine ⟨workMeasure f c (f.instructions.flatMap fun i => (gen i).elems) s₀ +
    (f.blocks.map fun b => (order b).length).sum, fun fuel hfuel => ?_⟩
  have hlen : ∀ b ∈ f.blocks, (order b).length ≤ fuel := by
    intro b hb
    have hle : (order b).length ≤ (f.blocks.map fun b => (order b).length).sum :=
      List.single_le_sum (fun _ _ => Nat.zero_le _) _ (List.mem_map_of_mem hb)
    omega
  obtain ⟨s', hs', hp', hdone⟩ := hp.loop_spec h hU hlen (by omega)
  refine ⟨s'.analysis, ?_, (hp'.isLeastSolution hdone).restrict (fun i hi => ⟨i.parent,
    (hnode i hi).1, hw.contains_mem i (hnode i hi)⟩) hprev (fun i hi v => ?_) (fun i hi v => ?_),
    hp'.mem_invoked_iff hdone⟩
  · rw [applyGeneralizedForwardAnalysis, ← ha₀]
    exact congrArg (Option.bind · _) hs'
  · exact (hgen i v).trans ((hgens i v).trans (and_iff_right (hnode i hi))).symm
  · exact (hkill i v).trans ((hkills i v).trans (and_iff_right (hnode i hi))).symm

end Analysis

end DataFlowEngine

end Noelle
