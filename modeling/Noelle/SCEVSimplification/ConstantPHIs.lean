import Noelle.Lib.PHIWebs
import Noelle.Lib.Search

/-!
# SCEVSimplification.ConstantPHIs

`simplifyConstantPHIs`: PHIs that only pass on the live-in value of a header PHI.

A web is collected backwards from a header PHI, and its uses are replaced by the live-in value.
`simplifyConstantPHIs_preserves`: what is left is in SSA form, has no use of a removed PHI, and makes the
same steps with the same values at every use.
-/

namespace Noelle

open Relation PtrSet List Option

variable {V B : Type} [DecidableEq V] [DecidableEq B]

/-- A function with its PHIs. -/
structure PHIFunction (V B : Type) where
  code : SSACode V B
  phiNodes : List V
  mem_phiNodes : ∀ x, x ∈ phiNodes ↔ ∃ b, x ∈ code.phis b

namespace SCEVSimplification

/-! ## The pass -/

/-- The traversal from a header PHI. -/
structure PHITraversal (V : Type) where
  dependentTraversal : List V
  phiCycle : PtrSet V
  isPHIPropagation : Bool

/-- The loop over the incoming values of a PHI; `none` is a value that is not propagated. -/
def visitIncoming (phiNodes : List V) (liveInValue : V) :
    List V → List V × PtrSet V → Option (List V × PtrSet V)
  | [], s => some s
  | incomingValue :: values, (dependentTraversal, phiCycle) =>
      if liveInValue = incomingValue then visitIncoming phiNodes liveInValue values (dependentTraversal, phiCycle)
      else if incomingValue ∈ phiNodes then
        if incomingValue ∈ phiCycle then
          visitIncoming phiNodes liveInValue values (dependentTraversal, phiCycle)
        else
          visitIncoming phiNodes liveInValue values
            (dependentTraversal ++ [incomingValue], phiCycle.insert incomingValue)
      else none

/-- The body of the loop over the queue. -/
def visitPHI (phiNodes : List V) (liveInValue : V) (code : SSACode V B) (t : PHITraversal V) :
    Option (PHITraversal V) :=
  match t.dependentTraversal with
  | [] => none
  | dependentPHI :: dependentTraversal =>
      match visitIncoming phiNodes liveInValue ((code.incoming dependentPHI).map (·.2))
        (dependentTraversal, t.phiCycle) with
      | none => some { t with isPHIPropagation := false }
      | some (dependentTraversal, phiCycle) =>
          some { t with dependentTraversal := dependentTraversal, phiCycle := phiCycle }

/-- What depends on a header PHI backwards. -/
def collectCycle (phiNodes : List V) (fuel : Nat) (liveInValue : V) (code : SSACode V B) (headerPHI : V) :
    Option (PHITraversal V) :=
  loopM (fun t : PHITraversal V => t.isPHIPropagation && !t.dependentTraversal.isEmpty)
    (visitPHI phiNodes liveInValue code) fuel ⟨[headerPHI], PtrSet.insert ∅ headerPHI, true⟩

/-- The second check. -/
def isConstantPropagation (phiNodes : List V) (liveInValue : V) (code : SSACode V B) (phiCycle : PtrSet V) :
    Bool :=
  phiCycle.elems.all fun phi => (code.incoming phi).all fun e =>
    decide (liveInValue = e.2) || (decide (e.2 ∈ phiNodes) && decide (e.2 ∈ phiCycle))

/-- The uses of a PHI of the cycle by other than its PHIs. -/
def replaceNonCycleUses (phiCycle : PtrSet V) (liveInValue : V) (code : SSACode V B) (phi : V) :
    SSACode V B :=
  let replace := fun x => if x = phi then liveInValue else x
  { code with
    operands := fun i => (code.operands i).map replace
    incoming := fun x => if x ∈ phiCycle then code.incoming x
      else (code.incoming x).map fun e => (e.1, replace e.2)
    terminatorOperands := fun b => (code.terminatorOperands b).map replace }

/-- `PHINode::eraseFromParent`, without the incoming values. -/
def deletePHIs (code : SSACode V B) (phis : List V) : SSACode V B :=
  { code with
    phis := fun b => (code.phis b).filter fun x => decide (x ∉ phis)
    incoming := fun x => if x ∈ phis then [] else code.incoming x }

/-- The function as modified so far, and the PHIs that are gone. -/
structure PHISimplification (V B : Type) where
  code : SSACode V B
  removedPHIs : PtrSet V
  modified : Bool

/-- The body of the loop over the header PHIs. -/
def simplifyHeaderPHI (ord : IterOrder) (phiNodes : List V) (preHeader : B) (fuel : Nat)
    (st : PHISimplification V B) (headerPHI : V) : Option (PHISimplification V B) :=
  if headerPHI ∈ st.removedPHIs then some st
  else do
    let liveInValue ← (st.code.incoming headerPHI).lookup preHeader
    let t ← collectCycle phiNodes fuel liveInValue st.code headerPHI
    if !t.isPHIPropagation then return st
    else if !isConstantPropagation phiNodes liveInValue st.code t.phiCycle then return st
    else
      let code := (ord.visit t.phiCycle.elems).foldl (replaceNonCycleUses t.phiCycle liveInValue) st.code
      let deleted := (ord.visit t.phiCycle.elems).filter fun phi => decide (phi ∉ st.removedPHIs)
      return ⟨deletePHIs code deleted, st.removedPHIs.insertAll deleted, true⟩

def simplifyConstantPHIs (ord : IterOrder) (fn : PHIFunction V B) (header preHeader : B) (fuel : Nat) :
    Option (PHISimplification V B) :=
  (ord.visit (PtrSet.ofList (fn.code.phis header)).elems).foldlM
    (simplifyHeaderPHI ord fn.phiNodes preHeader fuel) ⟨fn.code, ∅, false⟩

/-! ## The removal of a web -/

variable {liveInValue headerPHI : V} {phiNodes : List V} {fuel : Nat} {f : SSACode V B}
  {replacement : V → V} {loop : B → Prop} {header preHeader : B}

omit [DecidableEq B] in
/-- Only uses outside the cycle are replaced. -/
theorem foldl_replaceNonCycleUses (phiCycle : PtrSet V) : ∀ (phis : List V)
    (code : SSACode V B), liveInValue ∉ phis →
    phis.foldl (replaceNonCycleUses phiCycle liveInValue) code =
      { code with
        operands := fun i => (code.operands i).map (SSACode.foldTo phis liveInValue)
        incoming := fun x => if x ∈ phiCycle then code.incoming x
          else (code.incoming x).map fun e => (e.1, SSACode.foldTo phis liveInValue e.2)
        terminatorOperands := fun b => (code.terminatorOperands b).map (SSACode.foldTo phis liveInValue) }
  | [], code, _ => by
      have hnil : SSACode.foldTo [] liveInValue = id :=
        funext fun x => SSACode.foldTo_of_not_mem not_mem_nil
      simp [hnil]
  | phi :: phis, code, hnot => by
      rw [List.mem_cons, not_or] at hnot
      have hfold : ∀ x, SSACode.foldTo phis liveInValue (if x = phi then liveInValue else x) =
          SSACode.foldTo (phi :: phis) liveInValue x := fun x => by
        by_cases hx : x = phi
        · simp [SSACode.foldTo, hx, hnot.2]
        · simp [SSACode.foldTo, hx]
      rw [foldl_cons, foldl_replaceNonCycleUses phiCycle phis _ hnot.2]
      simp only [replaceNonCycleUses, List.map_map, Function.comp_def, hfold]
      congr 1
      funext x
      by_cases hx : x ∈ phiCycle
      · rw [if_pos hx, if_pos hx, if_pos hx]
      · rw [if_neg hx, if_neg hx, if_neg hx, List.map_map]
        simp only [Function.comp_def, hfold]

omit [DecidableEq B] in
theorem deletePHIs_eq_foldPHIs {phiCycle : PtrSet V} {phis : List V}
    (hphis : ∀ x, x ∈ phis ↔ x ∈ phiCycle) (hnot : liveInValue ∉ phiCycle) (code : SSACode V B) :
    deletePHIs (phis.foldl (replaceNonCycleUses phiCycle liveInValue) code) phis =
      code.foldPHIs phis liveInValue := by
  rw [foldl_replaceNonCycleUses phiCycle phis code fun hmem => hnot ((hphis _).mp hmem)]
  unfold deletePHIs SSACode.foldPHIs SSACode.substitute
  dsimp only
  congr 1
  funext x
  by_cases hx : x ∈ phis
  · rw [if_pos hx, if_pos hx]
  · rw [if_neg hx, if_neg hx, if_neg fun hmem => hx ((hphis x).mpr hmem)]

/-! ## The traversal -/

omit [DecidableEq B] in
/-- The PHIs among the incoming values join the cycle and the queue. -/
theorem visitIncoming_spec : ∀ {values queue queue' : List V}
    {cycle cycle' : PtrSet V},
    visitIncoming phiNodes liveInValue values (queue, cycle) = some (queue', cycle') →
      (∀ x ∈ cycle, x ∈ cycle') ∧
      (∀ x ∈ cycle', x ∈ cycle ∨ (x ∈ values ∧ x ∈ phiNodes ∧ x ≠ liveInValue)) ∧
      (∀ x ∈ queue', x ∈ queue ∨ x ∈ cycle') ∧
      queue'.length + unfound phiNodes cycle' ≤ queue.length + unfound phiNodes cycle
  | [], queue, queue', cycle, cycle', h => by
      obtain ⟨rfl, rfl⟩ := Prod.mk.inj (some.inj h)
      exact ⟨fun _ hx => hx, fun _ hx => .inl hx, fun _ hx => .inl hx, Nat.le_refl _⟩
  | incomingValue :: values, queue, queue', cycle, cycle', h => by
      have hlater : (∀ x ∈ cycle', x ∈ cycle ∨ (x ∈ values ∧ x ∈ phiNodes ∧ x ≠ liveInValue)) →
          ∀ x ∈ cycle', x ∈ cycle ∨ (x ∈ incomingValue :: values ∧ x ∈ phiNodes ∧ x ≠ liveInValue) :=
        fun hcycle x hx => (hcycle x hx).imp_right fun ⟨hmem, hrest⟩ => ⟨.tail _ hmem, hrest⟩
      rw [visitIncoming] at h
      split_ifs at h with heq hphi hmem
      · obtain ⟨hmono, hcycle, hqueue, hle⟩ := visitIncoming_spec h
        exact ⟨hmono, hlater hcycle, hqueue, hle⟩
      · obtain ⟨hmono, hcycle, hqueue, hle⟩ := visitIncoming_spec h
        exact ⟨hmono, hlater hcycle, hqueue, hle⟩
      · obtain ⟨hmono, hcycle, hqueue, hle⟩ := visitIncoming_spec h
        refine ⟨fun x hx => hmono x (mem_insert.mpr (.inr hx)), fun x hx => ?_, fun x hx => ?_, ?_⟩
        · obtain hx | ⟨hmem, hrest⟩ := hcycle x hx
          · obtain rfl | hx := mem_insert.mp hx
            · exact .inr ⟨.head _, hphi, Ne.symm heq⟩
            · exact .inl hx
          · exact .inr ⟨.tail _ hmem, hrest⟩
        · obtain hx | hx := hqueue x hx
          · obtain hx | hx := mem_append.mp hx
            · exact .inl hx
            · rw [mem_singleton.mp hx]
              exact .inr (hmono _ (mem_insert.mpr (.inl rfl)))
          · exact .inr hx
        · have hlt := unfound_insert_lt hphi hmem
          rw [length_append, length_singleton] at hle
          omega

/-- What is collected has a property, and the live-in value is not collected. -/
structure Collected (P : V → Prop) (liveInValue : V) (t : PHITraversal V) : Prop where
  not_mem : liveInValue ∉ t.phiCycle
  queue_mem : ∀ x ∈ t.dependentTraversal, x ∈ t.phiCycle
  property : ∀ x ∈ t.phiCycle, P x

omit [DecidableEq B] in
/-- The traversal ends, and keeps what goes from a PHI to the PHIs that flow into it. -/
theorem collectCycle_spec {code : SSACode V B} {P : V → Prop}
    (hin : ∀ p, P p → ∀ e ∈ code.incoming p, e.2 ∈ phiNodes → P e.2) (hphi : P headerPHI)
    (hne : headerPHI ≠ liveInValue) (hfuel : phiNodes.length + 2 ≤ fuel) :
    ∃ t, collectCycle phiNodes fuel liveInValue code headerPHI = some t ∧ Collected P liveInValue t := by
  have hstart : Collected P liveInValue ⟨[headerPHI], PtrSet.insert ∅ headerPHI, true⟩ := by
    have hmem : ∀ x, x ∈ PtrSet.insert ∅ headerPHI ↔ x = headerPHI := fun x => by
      rw [mem_insert]
      exact or_iff_left (not_mem_empty x)
    refine ⟨fun h => hne ((hmem _).mp h).symm, fun x hx => (hmem x).mpr (mem_singleton.mp hx),
      fun x hx => ?_⟩
    rw [(hmem x).mp hx]
    exact hphi
  have hbody : ∀ t : PHITraversal V, Collected P liveInValue t →
      (t.isPHIPropagation && !t.dependentTraversal.isEmpty) = true →
      ∃ t', visitPHI phiNodes liveInValue code t = some t' ∧ Collected P liveInValue t' ∧
        (if t'.isPHIPropagation then t'.dependentTraversal.length + unfound phiNodes t'.phiCycle + 1 else 0) <
          if t.isPHIPropagation then t.dependentTraversal.length + unfound phiNodes t.phiCycle + 1 else 0 := by
    intro ⟨queue, cycle, propagates⟩ ht hcond
    obtain ⟨hpropagates, hne⟩ := Bool.and_eq_true_iff.mp hcond
    obtain rfl : propagates = true := hpropagates
    cases queue with
    | nil => cases hne
    | cons p queue =>
        cases hvisit : visitIncoming phiNodes liveInValue ((code.incoming p).map (·.2)) (queue, cycle) with
        | none =>
            refine ⟨⟨p :: queue, cycle, false⟩, by simp only [visitPHI, hvisit], ⟨ht.not_mem, ht.queue_mem, ht.property⟩, ?_⟩
            rw [if_neg Bool.false_ne_true, if_pos rfl]
            exact Nat.succ_pos _
        | some s =>
            obtain ⟨queue', cycle'⟩ := s
            obtain ⟨hmono, hcycle, hqueue, hle⟩ := visitIncoming_spec hvisit
            refine ⟨⟨queue', cycle', true⟩, by simp only [visitPHI, hvisit], ⟨fun hmem => ?_, fun x hx => ?_,
              fun x hx => ?_⟩, ?_⟩
            · exact (hcycle _ hmem).elim ht.not_mem fun h => h.2.2 rfl
            · exact (hqueue x hx).elim (fun h => hmono x (ht.queue_mem x (.tail p h))) id
            · obtain hx | ⟨hvalue, hnode, -⟩ := hcycle x hx
              · exact ht.property x hx
              · obtain ⟨e, he, rfl⟩ := mem_map.mp hvalue
                exact hin p (ht.property p (ht.queue_mem p (.head _))) e he hnode
            · rw [if_pos rfl, if_pos rfl]
              simp only [length_cons]
              omega
  obtain ⟨t, ht, hcollected, -⟩ := loopM_rule (Collected P liveInValue) _ hbody fuel _ hstart (by
    have hle : unfound phiNodes (PtrSet.insert ∅ headerPHI) ≤ phiNodes.length := length_filter_le _ _
    rw [if_pos rfl]
    simp only [length_singleton]
    omega)
  exact ⟨t, ht, hcollected⟩

/-! ## The header PHIs -/

/-- A PHI that is reached backwards from a PHI of the header. -/
inductive InWeb (f : SSACode V B) (header : B) : V → Prop
  | header {x : V} : x ∈ f.phis header → InWeb f header x
  | incoming {p : V} {e : B × V} {b : B} : InWeb f header p → e ∈ f.incoming p → e.2 ∈ f.phis b →
      InWeb f header e.2

/-- What the pass has left of the function: the PHIs that are gone, and those that replace them, are
reached from the header. -/
structure Simplified (f : SSACode V B) (header : B) (st : PHISimplification V B)
    (replacement : V → V) : Prop where
  web : ∀ x ∈ st.removedPHIs, InWeb f header x
  replacement_web : ∀ x ∈ st.removedPHIs, ∀ b, replacement x ∈ f.phis b →
    InWeb f header (replacement x)
  replaced : f.Replaced st.code st.removedPHIs.elems replacement
  wellFormed : st.code.WellFormed
  runsAlike : f.RunsAlike st.code replacement
  available : ∀ x q, f.Available x q → st.code.Available (replacement x) q

theorem Simplified.start (hf : f.WellFormed) : Simplified f header ⟨f, ∅, false⟩ id :=
  ⟨fun x hx => absurd hx (not_mem_empty x), fun x hx => absurd hx (not_mem_empty x),
    .refl f, hf, fun _ _ _ _ _ _ => ⟨fun s hs => ⟨s, hs, rfl, rfl, rfl, fun _ _ => rfl⟩,
    fun t ht => ⟨t, ht, rfl, rfl, rfl, fun _ _ => rfl⟩⟩, fun _ _ h => h⟩

omit [DecidableEq V] in
theorem liveInValue_ne {g : SSACode V B} {removed : List V} (hf : f.WellFormed)
    (hshape : f.LoopShape loop header preHeader) (h : f.Replaced g removed replacement)
    (hphi : headerPHI ∈ g.phis header)
    (havail : g.Available liveInValue (.terminator preHeader)) : headerPHI ≠ liveInValue := by
  rintro rfl
  have hphi' := ((h.phis header headerPHI).mp hphi).1
  have hnext : g.Next = f.Next := SSACode.next_congr h.body h.successors
  have hreach : f.Reaches (.terminator preHeader) := by
    have hblock := SSACode.reach_in_block (f := f) (b := preHeader) nil_suffix
    exact (hf.reaches preHeader).trans (ReflTransGen.mono (fun _ _ hpq => hpq.1) _ _ hblock)
  refine hshape.not_available (.phi hphi') hshape.header_mem hreach fun d hd => ?_
  obtain rfl := hf.unique headerPHI d _ hd (.phi hphi')
  obtain ⟨hne, hdom⟩ := havail _ (.phi hphi)
  rw [hnext, h.entry] at hdom
  exact ⟨hne, hdom⟩

/-- The web of one more header PHI is simplified. -/
theorem Simplified.simplifyHeaderPHI (ord : IterOrder) {fn : PHIFunction V B}
    (hf : fn.code.WellFormed) (hshape : fn.code.LoopShape loop header preHeader)
    (hfuel : fn.phiNodes.length + 2 ≤ fuel) {st : PHISimplification V B}
    (h : Simplified fn.code header st replacement) (hphi : headerPHI ∈ fn.code.phis header) :
    ∃ st' replacement', simplifyHeaderPHI ord fn.phiNodes preHeader fuel st headerPHI = some st' ∧
      Simplified fn.code header st' replacement' := by
  unfold SCEVSimplification.simplifyHeaderPHI
  by_cases hremoved : headerPHI ∈ st.removedPHIs
  · exact ⟨st, replacement, if_pos hremoved, h⟩
  rw [if_neg hremoved]
  have hphi' : headerPHI ∈ st.code.phis header := (h.replaced.phis header headerPHI).mpr ⟨hphi, hremoved⟩
  have hedge : header ∈ st.code.successors preHeader := by
    rw [h.replaced.successors]
    exact (hshape.successors_preHeader header).mpr rfl
  obtain ⟨liveInValue, hliveIn, havail⟩ := h.wellFormed.incoming preHeader header hedge headerPHI hphi'
  -- a PHI that is left gets no removed value
  have hincoming : ∀ p, (∃ b, p ∈ st.code.phis b) → ∀ e ∈ st.code.incoming p, e.2 ∉ st.removedPHIs := by
    intro p ⟨b, hb⟩ e he
    rw [h.replaced.incoming p ((h.replaced.phis b p).mp hb).2] at he
    obtain ⟨e', -, rfl⟩ := mem_map.mp he
    exact h.replaced.replacement_not_mem e'.2
  -- a PHI that flows into one of a web is of a web, also if it replaces one that is gone
  have hreached : ∀ p, (∃ b, p ∈ st.code.phis b) ∧ InWeb fn.code header p →
      ∀ e ∈ st.code.incoming p, ∀ b, e.2 ∈ fn.code.phis b → InWeb fn.code header e.2 := by
    rintro p ⟨⟨c, hc⟩, hp⟩ e he b hb
    rw [h.replaced.incoming p ((h.replaced.phis c p).mp hc).2] at he
    obtain ⟨e', he', rfl⟩ := mem_map.mp he
    by_cases hmem : e'.2 ∈ st.removedPHIs
    · exact h.replacement_web _ hmem b hb
    · have heq : replacement e'.2 = e'.2 := h.replaced.replacement_of_not_mem _ hmem
      rw [heq] at hb ⊢
      exact .incoming hp he' hb
  have hin : ∀ p, (∃ b, p ∈ st.code.phis b) ∧ InWeb fn.code header p → ∀ e ∈ st.code.incoming p,
      e.2 ∈ fn.phiNodes → (∃ b, e.2 ∈ st.code.phis b) ∧ InWeb fn.code header e.2 := by
    intro p hp e he hnode
    obtain ⟨b, hb⟩ := (fn.mem_phiNodes e.2).mp hnode
    exact ⟨⟨b, (h.replaced.phis b e.2).mpr ⟨hb, hincoming p hp.1 e he⟩⟩, hreached p hp e he b hb⟩
  have hheader : (∃ b, headerPHI ∈ st.code.phis b) ∧ InWeb fn.code header headerPHI :=
    ⟨⟨header, hphi'⟩, .header hphi⟩
  obtain ⟨t, ht, hcollected⟩ := collectCycle_spec hin hheader
    (liveInValue_ne hf hshape h.replaced hphi' havail) hfuel
  simp only [hliveIn, ht, Option.bind_eq_bind, Option.bind_some, Option.pure_def]
  by_cases hpropagates : t.isPHIPropagation = true
  · by_cases hconstant : isConstantPropagation fn.phiNodes liveInValue st.code t.phiCycle = true
    · have hvisit : ∀ x, x ∈ ord.visit t.phiCycle.elems ↔ x ∈ t.phiCycle := fun x => ord.mem_visit
      have hkeep : (ord.visit t.phiCycle.elems).filter (fun phi => decide (phi ∉ st.removedPHIs)) =
          ord.visit t.phiCycle.elems := filter_eq_self.mpr fun x hx => by
        obtain ⟨b, hb⟩ := (hcollected.property x ((hvisit x).mp hx)).1
        exact decide_eq_true ((h.replaced.phis b x).mp hb).2
      have hweb : st.code.IsWeb (ord.visit t.phiCycle.elems) liveInValue := by
        refine ⟨fun p hp => (hcollected.property p ((hvisit p).mp hp)).1, fun p hp e he => ?_,
          fun hmem => hcollected.not_mem ((hvisit _).mp hmem)⟩
        have hentry := all_eq_true.mp (all_eq_true.mp hconstant p ((hvisit p).mp hp)) e he
        obtain heq | hmem := Bool.or_eq_true_iff.mp hentry
        · exact .inl (of_decide_eq_true heq).symm
        · exact .inr ((hvisit _).mpr (of_decide_eq_true (Bool.and_eq_true_iff.mp hmem).2))
      have hvalue : liveInValue ∉ st.removedPHIs.elems :=
        hincoming headerPHI ⟨header, hphi'⟩ _ (SSACode.mem_of_lookup hliveIn)
      simp only [hpropagates, hconstant, hkeep, Bool.not_true, Bool.false_eq_true, if_false]
      rw [deletePHIs_eq_foldPHIs hvisit hcollected.not_mem]
      refine ⟨_, SSACode.foldTo (ord.visit t.phiCycle.elems) liveInValue ∘ replacement, rfl,
        fun x hx => ?_, fun x hx b hb => ?_, (h.replaced.fold hweb hvalue).congr_mem fun x => ?_, hweb.wellFormed_foldPHIs h.wellFormed,
        h.runsAlike.trans (hweb.runsAlike h.wellFormed) h.replaced.successors h.available,
        fun x q hx => hweb.available_foldTo h.wellFormed (h.available x q hx)⟩
      · rcases mem_insertAll.mp hx with hx | hx
        · exact h.web x hx
        · exact (hcollected.property x ((hvisit x).mp hx)).2
      · by_cases hcycle : replacement x ∈ ord.visit t.phiCycle.elems
        · simp only [Function.comp_apply, SSACode.foldTo, if_pos hcycle] at hb ⊢
          exact hreached headerPHI hheader _ (SSACode.mem_of_lookup hliveIn) b hb
        · simp only [Function.comp_apply, SSACode.foldTo, if_neg hcycle] at hb ⊢
          rcases mem_insertAll.mp hx with hx | hx
          · exact h.replacement_web x hx b hb
          · obtain ⟨c, hc⟩ := (hcollected.property x ((hvisit x).mp hx)).1
            rw [h.replaced.replacement_of_not_mem x ((h.replaced.phis c x).mp hc).2] at hcycle
            exact absurd hx hcycle
      · rw [mem_append, mem_elems, mem_elems, mem_insertAll, or_comm]
    · simp only [hpropagates, Bool.eq_false_iff.mpr hconstant, Bool.not_true, Bool.false_eq_true, if_false,
        Bool.not_false, if_true]
      exact ⟨st, replacement, rfl, h⟩
  · simp only [Bool.eq_false_iff.mpr hpropagates, Bool.not_false, if_true]
    exact ⟨st, replacement, rfl, h⟩

/-- **Constant PHIs**: for every order of the PHIs the pass ends.  What is removed are PHIs of the webs;
every use of a removed PHI is one of its replacement, which is available there; the other PHIs are left;
and the two functions make the same steps, with the same values at every use. -/
theorem simplifyConstantPHIs_preserves (ord : IterOrder) (fn : PHIFunction V B) {loop : B → Prop}
    {header preHeader : B} (hf : fn.code.WellFormed) (hshape : fn.code.LoopShape loop header preHeader) :
    ∃ N, ∀ fuel ≥ N, ∃ st replacement, simplifyConstantPHIs ord fn header preHeader fuel = some st ∧
      (∀ x ∈ st.removedPHIs, InWeb fn.code header x) ∧
      fn.code.Replaced st.code st.removedPHIs.elems replacement ∧ st.code.WellFormed ∧
      ∀ (Val Mem : Type) (sem : SSASemantics V B Val Mem), fn.code.Follows sem → ∀ registers memory,
        (∀ s, ReflTransGen (fn.code.Step sem) (fn.code.start registers memory) s →
          ∃ t, ReflTransGen (st.code.Step sem) (st.code.start registers memory) t ∧
            fn.code.SameAt replacement s t ∧ fn.code.SameUses st.code [] s t) ∧
        ∀ t, ReflTransGen (st.code.Step sem) (st.code.start registers memory) t →
          ∃ s, ReflTransGen (fn.code.Step sem) (fn.code.start registers memory) s ∧
            fn.code.SameAt replacement s t ∧ fn.code.SameUses st.code [] s t := by
  refine ⟨fn.phiNodes.length + 2, fun fuel hfuel => ?_⟩
  obtain ⟨st, hst, replacement, h⟩ := foldlM_rule (simplifyHeaderPHI ord fn.phiNodes preHeader fuel)
    (fun _ st => ∃ replacement, Simplified fn.code header st replacement) ⟨id, Simplified.start hf⟩
    (l := ord.visit (PtrSet.ofList (fn.code.phis header)).elems)
    fun pre headerPHI post st hl ⟨replacement, h⟩ => by
      have hmem : headerPHI ∈ ord.visit (PtrSet.ofList (fn.code.phis header)).elems := by
        rw [hl]
        exact mem_append_right pre (.head _)
      have hphi : headerPHI ∈ fn.code.phis header := mem_ofList.mp (ord.mem_visit.mp hmem)
      obtain ⟨st', replacement', hst', h'⟩ := h.simplifyHeaderPHI ord hf hshape hfuel hphi
      exact ⟨st', hst', replacement', h'⟩
  refine ⟨st, replacement, hst, h.web, h.replaced, h.wellFormed, fun Val Mem sem hsem registers memory => ?_⟩
  obtain ⟨hto, hfrom⟩ := h.runsAlike Val Mem sem hsem registers memory
  have hplaced : ∀ {s}, ReflTransGen (fn.code.Step sem) (fn.code.start registers memory) s →
      fn.code.Placed s := fun hrun => SSACode.Placed.steps hsem (.start registers memory) hrun
  constructor
  · intro s hrun
    obtain ⟨t, hrun', hsame⟩ := hto s hrun
    exact ⟨t, hrun', hsame, h.replaced.sameUses hf (hplaced hrun) hsame⟩
  · intro t hrun
    obtain ⟨s, hrun', hsame⟩ := hfrom t hrun
    exact ⟨s, hrun', hsame, h.replaced.sameUses hf (hplaced hrun') hsame⟩

inductive SelfLoopBlock
  | entry | loop | exit
  deriving DecidableEq

/-- A PHI that passes on `x`. -/
inductive SelfLoopValue
  | x | phi
  deriving DecidableEq

/-- The loop leaves on its PHI. -/
def selfLoop : PHIFunction SelfLoopValue SelfLoopBlock where
  code :=
    { entry := .entry
      phis := fun b => if b = .loop then [.phi] else []
      body := fun _ => []
      incoming := fun v => if v = .phi then [(.entry, .x), (.loop, .phi)] else []
      operands := fun _ => []
      terminatorOperands := fun b => if b = .loop then [.phi] else []
      successors := fun
        | .entry => [.loop]
        | .loop => [.loop, .exit]
        | .exit => [] }
  phiNodes := [.phi]
  mem_phiNodes v := by
    constructor
    · intro hv
      rw [mem_singleton.mp hv]
      exact ⟨.loop, by decide⟩
    · rintro ⟨b, hb⟩
      revert hb
      cases b <;> cases v <;> decide

theorem selfLoop_definedAt {v : SelfLoopValue} {d : SSAPoint SelfLoopValue SelfLoopBlock}
    (h : selfLoop.code.DefinedAt v d) : v = .phi ∧ d = .begin .loop := by
  cases h with
  | @phi b hb =>
      obtain ⟨rfl, rfl⟩ : v = .phi ∧ b = .loop := by
        revert hb
        cases b <;> cases v <;> decide
      exact ⟨rfl, rfl⟩
  | instruction hbody => cases hbody

theorem selfLoop_available : selfLoop.code.Available .phi (.terminator .loop) := by
  intro d hd
  obtain ⟨-, rfl⟩ := selfLoop_definedAt hd
  refine ⟨fun heq => (by cases heq), .of_single (fun q hq => ?_) fun heq => by cases heq⟩
  obtain ⟨rfl, -⟩ | ⟨before, i, -, hbody⟩ := hq.to_terminator
  · rfl
  · exact absurd (congrArg List.length hbody) (by simp [selfLoop])

theorem selfLoop_reaches (b : SelfLoopBlock) : selfLoop.code.Reaches (.begin b) := by
  have hloop : selfLoop.code.Reaches (.begin .loop) :=
    (ReflTransGen.single (.enter SelfLoopBlock.entry)).tail (.jump (b := SelfLoopBlock.entry) (by decide))
  cases b with
  | entry => exact .refl
  | loop => exact hloop
  | exit => exact (hloop.tail (.enter SelfLoopBlock.loop)).tail (.jump (b := SelfLoopBlock.loop) (by decide))

theorem selfLoop_wellFormed : selfLoop.code.WellFormed where
  unique v d e hd he := (selfLoop_definedAt hd).2.trans (selfLoop_definedAt he).2.symm
  operands b i hi := nomatch hi
  terminatorOperands b v hv := by
    obtain ⟨rfl, rfl⟩ : b = .loop ∧ v = .phi := by
      revert hv
      cases b <;> cases v <;> decide
    exact selfLoop_available
  incoming b c hc v hv := by
    obtain ⟨rfl, hd⟩ := selfLoop_definedAt (.phi hv)
    obtain rfl := SSAPoint.begin.inj hd
    cases b with
    | entry =>
        refine ⟨.x, rfl, fun d hd => ?_⟩
        exact absurd (selfLoop_definedAt hd).1 (by decide)
    | loop => exact ⟨.phi, rfl, selfLoop_available⟩
    | exit => nomatch hc
  entry b := by cases b <;> decide
  phis_entry := rfl
  reaches := selfLoop_reaches

theorem selfLoop_shape : selfLoop.code.LoopShape (· = .loop) .loop .entry where
  header_mem := rfl
  reaches := selfLoop_reaches .loop
  preHeader_not_mem := by decide
  entry_not_mem := by decide
  successors_preHeader c := by cases c <;> decide
  enters b c := by cases b <;> cases c <;> decide
  reach b hb := hb ▸ .refl

/-- The PHI of the loop is replaced by what it gets from the preheader. -/
theorem simplifyConstantPHIs_selfLoop :
    ∃ N, ∀ fuel ≥ N, ∃ st replacement, simplifyConstantPHIs .stored selfLoop .loop .entry fuel = some st ∧
      (∀ p ∈ st.removedPHIs, InWeb selfLoop.code .loop p) ∧
      selfLoop.code.Replaced st.code st.removedPHIs.elems replacement ∧ st.code.WellFormed ∧
      ∀ (Val Mem : Type) (sem : SSASemantics SelfLoopValue SelfLoopBlock Val Mem),
        selfLoop.code.Follows sem → ∀ registers memory,
        (∀ s, ReflTransGen (selfLoop.code.Step sem) (selfLoop.code.start registers memory) s →
          ∃ t, ReflTransGen (st.code.Step sem) (st.code.start registers memory) t ∧
            selfLoop.code.SameAt replacement s t ∧ selfLoop.code.SameUses st.code [] s t) ∧
        ∀ t, ReflTransGen (st.code.Step sem) (st.code.start registers memory) t →
          ∃ s, ReflTransGen (selfLoop.code.Step sem) (selfLoop.code.start registers memory) s ∧
            selfLoop.code.SameAt replacement s t ∧ selfLoop.code.SameUses st.code [] s t :=
  simplifyConstantPHIs_preserves .stored selfLoop selfLoop_wellFormed selfLoop_shape

end SCEVSimplification

end Noelle
