import Noelle.Lib.Collections
import Noelle.Lib.Digraph

/-!
# Lib.SccIterator

Enumeration of the strongly connected components that a node of a finite graph
reaches.

`SccIterator` is the contract of such an enumeration: from an entry node it
lists components, each one the full class of some reachable node, and every
reachable node is in one of them.  The order of the components and of the nodes
inside a component is left open.  `SccIterator.saturating` meets the contract by
saturating node sets under the successor function.
-/

namespace Noelle

open Relation List

variable {α : Type}

def StepRel (succ : α → List α) (a b : α) : Prop := b ∈ succ a

/-! ## The contract -/

/-- An enumeration of strongly connected components.  `nodes` lists the nodes
of the graph and must be closed under `succ`. -/
structure SccIterator where
  comps : {α : Type} → [DecidableEq α] → (nodes : List α) → (succ : α → List α) →
    (entry : α) → List (List α)
  /-- A listed component is the class of a node that the entry reaches. -/
  comp_eq : ∀ {α : Type} [DecidableEq α] {nodes : List α} {succ : α → List α} {entry : α},
    entry ∈ nodes → (∀ a ∈ nodes, ∀ b ∈ succ a, b ∈ nodes) →
    ∀ c ∈ comps nodes succ entry, ∃ a, ReflTransGen (StepRel succ) entry a ∧
      ∀ b, b ∈ c ↔ StronglyConnected (StepRel succ) a b
  /-- Every node that the entry reaches is in a listed component. -/
  exists_comp : ∀ {α : Type} [DecidableEq α] {nodes : List α} {succ : α → List α} {entry : α},
    entry ∈ nodes → (∀ a ∈ nodes, ∀ b ∈ succ a, b ∈ nodes) →
    ∀ a, ReflTransGen (StepRel succ) entry a → ∃ c ∈ comps nodes succ entry, a ∈ c

/-! ## Visiting all components -/

section VisitAll

variable [DecidableEq α] {σ : Type} {nodes : List α} {succ : α → List α}

/-- Enumerate the components from every node of `order` that was not visited before. -/
def SccIterator.visitAll (it : SccIterator) (nodes : List α) (succ : α → List α)
    (body : PtrSet α × σ → List α → Option (PtrSet α × σ)) (order : List α) (st : PtrSet α × σ) :
    Option (PtrSet α × σ) :=
  order.foldlM (fun st n =>
    if n ∈ st.1 then some st else (it.comps nodes succ n).foldlM body st) st

variable (hsucc : ∀ a ∈ nodes, ∀ b ∈ succ a, b ∈ nodes)
include hsucc

omit [DecidableEq α] in
theorem mem_of_reach {a b : α} (ha : a ∈ nodes) (h : ReflTransGen (StepRel succ) a b) :
    b ∈ nodes := by
  induction h with
  | refl => exact ha
  | tail _ hbc ih => exact hsucc _ ih _ hbc

/-- If the body visits the component it is given and keeps `P`, the loops visit all
nodes and keep `P`. -/
theorem SccIterator.visitAll_rule (it : SccIterator) (P : PtrSet α → σ → Prop)
    {body : PtrSet α × σ → List α → Option (PtrSet α × σ)}
    (hbody : ∀ visited s a c, a ∈ nodes → (∀ b, b ∈ c ↔ StronglyConnected (StepRel succ) a b) →
      P visited s → ∃ st, body (visited, s) c = some st ∧ P st.1 st.2 ∧
        (∀ n ∈ visited, n ∈ st.1) ∧ ∀ n ∈ c, n ∈ st.1)
    {order : List α} (horder : ∀ n ∈ order, n ∈ nodes) {s : σ} (hs : P ∅ s) :
    ∃ st, it.visitAll nodes succ body order (∅, s) = some st ∧ P st.1 st.2 ∧
      ∀ n ∈ order, n ∈ st.1 := by
  refine foldlM_rule _ (fun pre (st : PtrSet α × σ) => P st.1 st.2 ∧ ∀ n ∈ pre, n ∈ st.1)
    ⟨hs, nofun⟩ ?_
  rintro pre n post ⟨visited, s₁⟩ hsplit ⟨h, hpre⟩
  have hn : n ∈ nodes := horder n (by rw [hsplit]; simp)
  have hextend : ∀ visited' : PtrSet α, (∀ k ∈ visited, k ∈ visited') → n ∈ visited' →
      ∀ k ∈ pre ++ [n], k ∈ visited' := by
    intro visited' hsub hnv k hk
    rcases mem_append.mp hk with hk | hk
    · exact hsub k (hpre k hk)
    · exact mem_singleton.mp hk ▸ hnv
  by_cases hv : n ∈ visited
  · exact ⟨(visited, s₁), if_pos hv, h, hextend visited (fun _ => id) hv⟩
  · obtain ⟨st, hinner, h', hsub, hcomps⟩ := foldlM_rule body
      (fun pre' st => P st.1 st.2 ∧ (∀ k ∈ visited, k ∈ st.1) ∧ ∀ c ∈ pre', ∀ k ∈ c, k ∈ st.1)
      (l := it.comps nodes succ n) (s := (visited, s₁))
      ⟨h, fun _ => id, nofun⟩
      (by
        rintro pre' c post' ⟨visited₁, s₁⟩ hsplit' ⟨h₁, hsub₁, hcomps₁⟩
        obtain ⟨a, hna, hc⟩ := it.comp_eq hn hsucc c (by rw [hsplit']; simp)
        obtain ⟨st, hstep, h₂, hsub₂, hc₂⟩ :=
          hbody visited₁ s₁ a c (mem_of_reach hsucc hn hna) hc h₁
        refine ⟨st, hstep, h₂, fun k hk => hsub₂ k (hsub₁ k hk), fun c' hc' k hk => ?_⟩
        rcases mem_append.mp hc' with hc' | hc'
        · exact hsub₂ k (hcomps₁ c' hc' k hk)
        · exact hc₂ k (mem_singleton.mp hc' ▸ hk))
    -- one of the components is the class of the entry node itself
    obtain ⟨c, hc, hnc⟩ := it.exists_comp hn hsucc n .refl
    exact ⟨st, (if_neg hv).trans hinner, h', hextend st.1 hsub (hcomps c hc n hnc)⟩

end VisitAll

/-! ## Saturation -/

section Saturation

variable [DecidableEq α] {succ : α → List α}

/-- Add the successors of all elements, `n` times. -/
def saturate (succ : α → List α) : Nat → PtrSet α → PtrSet α
  | 0, s => s
  | n + 1, s => saturate succ n (s.insertAll (s.elems.flatMap succ))

variable {n : Nat} {s : PtrSet α} {b a : α} {nodes : List α}

theorem reach_of_mem_saturate (h : b ∈ saturate succ n s) :
    ∃ a ∈ s, ReflTransGen (StepRel succ) a b := by
  induction n generalizing s with
  | zero => exact ⟨b, h, .refl⟩
  | succ n ih =>
      obtain ⟨a, ha, hab⟩ := ih h
      rcases PtrSet.mem_insertAll.mp ha with ha | ha
      · exact ⟨a, ha, hab⟩
      · obtain ⟨x, hx, hxa⟩ := mem_flatMap.mp ha
        exact ⟨x, hx, .head hxa hab⟩

theorem subset_saturate (h : a ∈ s) : a ∈ saturate succ n s := by
  induction n generalizing s with
  | zero => exact h
  | succ n ih => exact ih (PtrSet.mem_insertAll.mpr (.inl h))

omit [DecidableEq α] in
theorem mem_of_reach_of_closed (hs : ∀ a ∈ s, ∀ b ∈ succ a, b ∈ s) (ha : a ∈ s)
    (h : ReflTransGen (StepRel succ) a b) : b ∈ s := by
  induction h with
  | refl => exact ha
  | tail _ hbc ih => exact hs _ ih _ hbc

theorem mem_of_mem_saturate_of_closed (hs : ∀ a ∈ s, ∀ b ∈ succ a, b ∈ s)
    (h : b ∈ saturate succ n s) : b ∈ s := by
  obtain ⟨a, ha, hab⟩ := reach_of_mem_saturate h
  exact mem_of_reach_of_closed hs ha hab

/-- Saturating as often as there are nodes left outside yields a closed set:
each round before the last adds a node. -/
theorem saturate_closed (hsucc : ∀ a ∈ nodes, ∀ b ∈ succ a, b ∈ nodes) (hs : ∀ a ∈ s, a ∈ nodes)
    (hn : nodes.length ≤ s.size + n) :
    ∀ a ∈ saturate succ n s, ∀ b ∈ succ a, b ∈ saturate succ n s := by
  induction n generalizing s with
  | zero =>
      intro a ha b hb
      have hperm : s.elems.Perm nodes :=
        (subperm_of_subset s.nodup hs).perm_of_length_le hn
      exact hperm.mem_iff.mpr (hsucc a (hs a ha) b hb)
  | succ n ih =>
      by_cases hclosed : ∀ a ∈ s, ∀ b ∈ succ a, b ∈ s
      · intro a ha b hb
        exact subset_saturate (hclosed a (mem_of_mem_saturate_of_closed hclosed ha) b hb)
      · push Not at hclosed
        obtain ⟨a, ha, b, hb, hbs⟩ := hclosed
        have hmem : ∀ x ∈ s.insertAll (s.elems.flatMap succ), x ∈ nodes := by
          intro x hx
          rcases PtrSet.mem_insertAll.mp hx with hx | hx
          · exact hs x hx
          · obtain ⟨y, hy, hyx⟩ := mem_flatMap.mp hx
            exact hsucc y (hs y hy) x hyx
        have hgrow : (b :: s.elems).length ≤ (s.insertAll (s.elems.flatMap succ)).elems.length := by
          apply List.Subperm.length_le
          apply subperm_of_subset (nodup_cons.mpr ⟨hbs, s.nodup⟩)
          intro x hx
          apply PtrSet.mem_insertAll.mpr
          rcases mem_cons.mp hx with rfl | hx
          · exact .inr (mem_flatMap.mpr ⟨a, ha, hb⟩)
          · exact .inl hx
        refine ih hmem ?_
        rw [length_cons] at hgrow
        unfold PtrSet.size at hn ⊢
        omega

/-- The nodes that `a` reaches. -/
def reachSet (nodes : List α) (succ : α → List α) (a : α) : PtrSet α :=
  saturate succ nodes.length (PtrSet.ofList [a])

theorem mem_reachSet (hsucc : ∀ a ∈ nodes, ∀ b ∈ succ a, b ∈ nodes) (ha : a ∈ nodes)
    (b : α) : b ∈ reachSet nodes succ a ↔ ReflTransGen (StepRel succ) a b := by
  constructor
  · intro h
    obtain ⟨x, hx, hxb⟩ := reach_of_mem_saturate h
    have hxa : x = a := by simpa using hx
    exact hxa ▸ hxb
  · intro h
    have hstart : ∀ x ∈ PtrSet.ofList [a], x ∈ nodes := by
      intro x hx
      have hxa : x = a := by simpa using hx
      exact hxa ▸ ha
    have hlen : nodes.length ≤ (PtrSet.ofList [a]).size + nodes.length := Nat.le_add_left _ _
    exact mem_of_reach_of_closed (saturate_closed hsucc hstart hlen)
      (subset_saturate (by simp)) h

/-- The class of `a` among the nodes that `entry` reaches. -/
def sccOf (nodes : List α) (succ : α → List α) (entry a : α) : List α :=
  (reachSet nodes succ entry).elems.filter fun b =>
    decide (b ∈ reachSet nodes succ a) && decide (a ∈ reachSet nodes succ b)

theorem mem_sccOf (hsucc : ∀ a ∈ nodes, ∀ b ∈ succ a, b ∈ nodes) {entry : α}
    (hentry : entry ∈ nodes) (ha : ReflTransGen (StepRel succ) entry a) :
    b ∈ sccOf nodes succ entry a ↔ StronglyConnected (StepRel succ) a b := by
  have hin : ∀ x, ReflTransGen (StepRel succ) entry x → x ∈ nodes := by
    intro x hx
    induction hx with
    | refl => exact hentry
    | tail _ hbc ih => exact hsucc _ ih _ hbc
  simp only [sccOf, mem_filter, PtrSet.mem_elems, Bool.and_eq_true, decide_eq_true_eq,
    mem_reachSet hsucc hentry, mem_reachSet hsucc (hin a ha)]
  constructor
  · rintro ⟨hb, hab, hba⟩
    exact ⟨hab, (mem_reachSet hsucc (hin b hb) a).mp hba⟩
  · rintro ⟨hab, hba⟩
    have hb := ha.trans hab
    exact ⟨hb, hab, (mem_reachSet hsucc (hin b hb) a).mpr hba⟩

end Saturation

def SccIterator.saturating : SccIterator where
  comps nodes succ entry :=
    ((reachSet nodes succ entry).elems.map (sccOf nodes succ entry)).dedup
  comp_eq := by
    intro α _ nodes succ entry hentry hsucc c hc
    obtain ⟨a, ha, rfl⟩ := mem_map.mp (mem_dedup.mp hc)
    have hreach := (mem_reachSet hsucc hentry a).mp ha
    exact ⟨a, hreach, fun b => mem_sccOf hsucc hentry hreach⟩
  exists_comp := by
    intro α _ nodes succ entry hentry hsucc a ha
    refine ⟨sccOf nodes succ entry a, ?_, (mem_sccOf hsucc hentry ha).mpr (.refl a)⟩
    exact mem_dedup.mpr (mem_map.mpr ⟨a, (mem_reachSet hsucc hentry a).mpr ha, rfl⟩)

end Noelle
