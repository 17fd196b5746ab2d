import Mathlib.Data.Set.Finite.Basic
import Mathlib.Order.WellFounded
import Noelle.Lib.Collections
import Noelle.Lib.Loop

/-!
# Lib.Search

Searches of a graph with a queue.

`next` lists the successors of a node.  `searchAll` records what it found and ends on every
finite graph.  `searchQueue` starts from several nodes and records a node when it leaves the queue.
`searchUntil` looks for a node that stops it and records nothing: it finds one if there is a path,
whatever cycles there are, since it goes through the nodes level by level; without a path it ends
exactly if it meets no cycle.  `searchFor` looks for one node.  `searchFrontier` goes on through some of
the nodes and collects the others that it meets; it remembers nothing either.
-/

namespace Noelle

open Relation PtrSet List

variable {α : Type}

section Definitions

variable [DecidableEq α] (next : α → Option (List α))

/-- Everything that one or more steps lead to; new nodes go to the end of the queue. -/
def searchAll (start : α) (fuel : Nat) : Option (PtrSet α) :=
  (loopM (fun s : List α × PtrSet α => !s.1.isEmpty)
    (fun s => do
      let a ← s.1.head?
      return (← next a).foldl (fun s b => if b ∈ s.2 then s else (s.1 ++ [b], s.2.insert b))
        (s.1.tail, s.2))
    fuel ([start], ∅)).map (·.2)

/-- The nodes of a queue and everything that steps lead to from them; a node is recorded when it leaves
the queue. -/
def searchQueue (fuel : Nat) (queue : List α) : Option (PtrSet α) :=
  (loopM (fun s : List α × PtrSet α => !s.1.isEmpty)
    (fun s => do
      let a ← s.1.head?
      if a ∈ s.2 then return (s.1.tail, s.2)
      else return (s.1.tail ++ (← next a), s.2.insert a))
    fuel (queue, ∅)).map (·.2)

/-- The loop of `searchUntil`, on the queue and whether a successor stopped it. -/
def searchUntilLoop (stop : α → Bool) : Nat → List α × Bool → Option (List α × Bool) :=
  loopM (fun s => !s.2 && !s.1.isEmpty) fun s => do
    let a ← s.1.head?
    let successors ← next a
    return if successors.any stop then (s.1.tail, true) else (s.1.tail ++ successors, false)

/-- Whether one or more steps lead to a node that stops the search; all nodes go to the end of
the queue. -/
def searchUntil (stop : α → Bool) (start : α) (fuel : Nat) : Option Bool :=
  (searchUntilLoop next stop fuel ([start], false)).map (·.2)

/-- The loop of `searchFor`, on the queue and whether the target was found. -/
def searchForLoop (target : α) : Nat → List α × Bool → Option (List α × Bool) :=
  loopM (fun s => !s.2 && !s.1.isEmpty) fun s => do
    let a ← s.1.head?
    let successors ← next a
    return if target ∈ successors then (s.1.tail, true) else (s.1.tail ++ successors, false)

/-- Whether one or more steps lead to the target; all nodes go to the end of the queue. -/
def searchFor (target start : α) (fuel : Nat) : Option Bool :=
  (searchForLoop next target fuel ([start], false)).map (·.2)

/-- The values of the nodes at which a search ends that goes on through the nodes `through`. -/
def searchFrontier {β : Type} [DecidableEq β] (through : α → Bool) (value : α → β) (fuel : Nat)
    (queue : List α) : Option (PtrSet β) :=
  (loopM (fun s : List α × PtrSet β => !s.1.isEmpty)
    (fun s => do
      let a ← s.1.head?
      if through a then return (s.1.tail ++ (← next a), s.2)
      else return (s.1.tail, s.2.insert (value a)))
    fuel (queue, ∅)).map (·.2)

end Definitions

/-- `next` lists the successors along `r` of the nodes, which are among the nodes again. -/
structure Lists (nodes : List α) (next : α → Option (List α)) (r : α → α → Prop) : Prop where
  next_eq_some : ∀ a ∈ nodes, ∃ l, next a = some l ∧ ∀ b, b ∈ l ↔ r a b
  closed : ∀ a ∈ nodes, ∀ b, r a b → b ∈ nodes

variable {nodes : List α} {next : α → Option (List α)} {r : α → α → Prop} {start target : α}

/-- Among finitely many nodes without cycles one can go along `r` only finitely often. -/
theorem wellFounded_of_acyclic {P : α → Prop} (hfinite : ∀ a, P a → a ∈ nodes)
    (hacyclic : ∀ a, P a → ¬ TransGen r a a) :
    WellFounded fun a b : { a // P a } => TransGen r b.1 a.1 := by
  have hfinite : Finite { a // P a } := (finite_toSet nodes).subset hfinite
  have hirrefl : Std.Irrefl fun a b : { a // P a } => TransGen r b.1 a.1 :=
    ⟨fun a => hacyclic a.1 a.2⟩
  have htrans : IsTrans { a // P a } fun a b => TransGen r b.1 a.1 :=
    ⟨fun _ _ _ hab hbc => hbc.trans hab⟩
  exact Finite.wellFounded_of_trans_of_irrefl _

/-- A walk among finitely many nodes that comes to no cycle comes to an end. -/
theorem exists_end_of_no_cycle (hnodes : ∀ a b, r a b → b ∈ nodes) {a : α}
    (hacyclic : ∀ b, ReflTransGen r a b → ¬ TransGen r b b) :
    ∃ b, ReflTransGen r a b ∧ ∀ c, ¬ r b c := by
  have hfinite : ∀ b, ReflTransGen r a b → b ∈ a :: nodes := by
    intro b hab
    cases ReflTransGen.cases_tail hab with
    | inl heq => exact heq ▸ (.head _)
    | inr hlast =>
        obtain ⟨c, _, hcb⟩ := hlast
        exact .tail _ (hnodes c b hcb)
  obtain ⟨b, -, hend⟩ := (wellFounded_of_acyclic hfinite hacyclic).has_min Set.univ
    ⟨⟨a, .refl⟩, trivial⟩
  exact ⟨b.1, b.2, fun c hbc => hend ⟨c, b.2.tail hbc⟩ trivial (.single hbc)⟩

/-- Nothing that the entry reaches is on a cycle whose nodes have no other predecessor than the one
on the cycle, since the entry has no predecessor. -/
theorem not_transGen_self_of_single {s : α → α → Prop} {entry a : α} (hsub : ∀ a b, s a b → r a b)
    (hsingle : ∀ a a' b, s a b → r a' b → a' = a) (hentry : ∀ a, ¬ r a entry)
    (hreach : ReflTransGen r entry a) : ¬ TransGen s a a := by
  induction hreach with
  | refl =>
      intro hcycle
      obtain ⟨b, -, hb⟩ := TransGen.tail'_iff.mp hcycle
      exact hentry b (hsub b entry hb)
  | @tail a b _ hab ih =>
      intro hcycle
      -- the cycle comes to `b` from `a` too
      obtain ⟨c, hbc, hcb⟩ := TransGen.tail'_iff.mp hcycle
      obtain rfl := hsingle c a b hcb hab
      exact ih (.head' hcb hbc)

theorem Lists.reach_mem (h : Lists nodes next r) (hstart : start ∈ nodes) {a : α}
    (ha : ReflTransGen r start a) : a ∈ nodes := by
  induction ha with
  | refl => exact hstart
  | tail _ hab ih => exact h.closed _ ih _ hab

/-! ## Recording what was found -/

section SearchAll

variable [DecidableEq α]

/-- The nodes that were not found yet. -/
def unfound (nodes : List α) (found : PtrSet α) : Nat :=
  (nodes.filter fun a => decide (a ∉ found)).length

variable {found : PtrSet α} {a : α} {l : List α}

theorem unfound_insert_lt (ha : a ∈ nodes) (hnew : a ∉ found) :
    unfound nodes (found.insert a) < unfound nodes found := by
  refine length_filter_lt (fun b _ hb => ?_) ha (by simpa using hnew) (by simp)
  simp only [mem_insert, decide_eq_true_eq] at hb ⊢
  exact fun hmem => hb (.inr hmem)

theorem unfound_mono {found' : PtrSet α} (h : ∀ a ∈ found, a ∈ found') :
    unfound nodes found' ≤ unfound nodes found := by
  refine (List.Sublist.length_le (monotone_filter_right nodes fun a ha => ?_))
  rw [decide_eq_true_eq] at ha ⊢
  exact fun hmem => ha (h a hmem)

/-- What was not found yet joins the queue, and the measure does not grow. -/
theorem enqueue_spec (queue : List α) (found : PtrSet α) (hl : ∀ a ∈ l, a ∈ nodes) :
    ∃ queue' found', l.foldl (fun s b => if b ∈ s.2 then s else (s.1 ++ [b], s.2.insert b))
        (queue, found) = (queue', found') ∧
      (∀ a, a ∈ found' ↔ a ∈ found ∨ a ∈ l) ∧
      (∀ a, a ∈ queue' ↔ a ∈ queue ∨ (a ∈ found' ∧ a ∉ found)) ∧
      queue'.length + unfound nodes found' ≤ queue.length + unfound nodes found := by
  have hloop := foldl_rule (fun s b => if b ∈ s.2 then s else (s.1 ++ [b], s.2.insert b))
    (fun (pre : List α) s => (∀ a, a ∈ s.2 ↔ a ∈ found ∨ a ∈ pre) ∧
      (∀ a, a ∈ s.1 ↔ a ∈ queue ∨ (a ∈ s.2 ∧ a ∉ found)) ∧
      s.1.length + unfound nodes s.2 ≤ queue.length + unfound nodes found)
    (l := l) (s := (queue, found)) ⟨by simp, by simp, le_rfl⟩
    (by
      rintro pre b post ⟨queue', found'⟩ hsplit ⟨hfound, hqueue, hle⟩
      have hb : b ∈ nodes := hl b (by simp [hsplit])
      dsimp only at hfound hqueue hle ⊢
      by_cases hmem : b ∈ found'
      · rw [if_pos hmem]
        refine ⟨fun a => ?_, hqueue, hle⟩
        rw [hfound, mem_append, mem_singleton, ← or_assoc, ← hfound]
        exact (or_iff_left_of_imp fun heq => heq ▸ hmem).symm
      · have hlt := unfound_insert_lt hb hmem
        have hold : b ∉ found := fun hmem' => hmem ((hfound b).mpr (.inl hmem'))
        rw [if_neg hmem]
        refine ⟨fun a => ?_, fun a => ?_, ?_⟩
        · simp only [mem_insert, hfound, mem_append, mem_singleton]
          tauto
        · simp only [mem_insert, hqueue, mem_append, mem_singleton]
          by_cases heq : a = b
          · simp [heq, hold]
          · simp [heq]
        · simp only [length_append, length_singleton]
          omega)
  exact ⟨_, _, rfl, hloop⟩

/-- The search finds exactly what a path leads to. -/
theorem Lists.searchAll_spec (h : Lists nodes next r) (hstart : start ∈ nodes) {fuel : Nat}
    (hfuel : nodes.length + 1 ≤ fuel) :
    ∃ found, searchAll next start fuel = some found ∧ ∀ a, a ∈ found ↔ TransGen r start a := by
  obtain ⟨⟨queue, found⟩, hloop, ⟨_, hfound, hdone⟩, hend⟩ := @loopM_rule (List α × PtrSet α)
    (fun s => !s.1.isEmpty)
    (fun s => do
      let a ← s.1.head?
      return (← next a).foldl (fun s b => if b ∈ s.2 then s else (s.1 ++ [b], s.2.insert b))
        (s.1.tail, s.2))
    -- a node that was met is enqueued or all its successors are found
    (fun s => (∀ a ∈ s.1, ReflTransGen r start a) ∧ (∀ a ∈ s.2, TransGen r start a) ∧
      ∀ a, a = start ∨ a ∈ s.2 → a ∈ s.1 ∨ ∀ b, r a b → b ∈ s.2)
    (fun s => s.1.length + unfound nodes s.2)
    (by
      rintro ⟨queue, found⟩ ⟨hqueue, hfound, hmet⟩ hcond
      cases queue with
      | nil => nomatch hcond
      | cons a queue =>
          have hreach := hqueue a (.head _)
          obtain ⟨l, hl, hsucc⟩ := h.next_eq_some a (h.reach_mem hstart hreach)
          have hnodes : ∀ b ∈ l, b ∈ nodes := fun b hb =>
            h.closed a (h.reach_mem hstart hreach) b ((hsucc b).mp hb)
          obtain ⟨queue', found', hfold, hfound', hqueue', hle⟩ := enqueue_spec queue found hnodes
          have hnew : ∀ b ∈ found', TransGen r start b := by
            intro b hb
            rcases (hfound' b).mp hb with hb | hb
            · exact hfound b hb
            · exact TransGen.tail' hreach ((hsucc b).mp hb)
          refine ⟨(queue', found'), ?_, ⟨fun b hb => ?_, hnew, fun b hb => ?_⟩, ?_⟩
          · simp [hl, hfold]
          · rcases (hqueue' b).mp hb with hb | ⟨hb, _⟩
            · exact hqueue b (.tail a hb)
            · exact (hnew b hb).to_reflTransGen
          · by_cases hold : b = start ∨ b ∈ found
            · rcases hmet b hold with hb | hb
              · rcases mem_cons.mp hb with rfl | hb
                · exact .inr fun c hc => (hfound' c).mpr (.inr ((hsucc c).mpr hc))
                · exact .inl ((hqueue' b).mpr (.inl hb))
              · exact .inr fun c hc => (hfound' c).mpr (.inl (hb c hc))
            · have hb' := hb.resolve_left fun heq => hold (.inl heq)
              exact .inl ((hqueue' b).mpr (.inr ⟨hb', fun hmem => hold (.inr hmem)⟩))
          · simp only [length_cons]
            omega)
    fuel ([start], ∅)
    ⟨fun a ha => mem_singleton.mp ha ▸ .refl, fun a ha => absurd ha (not_mem_empty a),
      fun a ha => .inl (by simpa using ha)⟩
    (by
      have hle : unfound nodes ∅ ≤ nodes.length := length_filter_le _ _
      simp only [length_singleton]
      omega)
  obtain rfl : queue = [] := by simpa using hend
  refine ⟨found, Option.map_eq_some_iff.mpr ⟨_, hloop, rfl⟩, fun a => ⟨hfound a, fun hpath => ?_⟩⟩
  have hsucc : ∀ a, a = start ∨ a ∈ found → ∀ b, r a b → b ∈ found := fun a ha =>
    (hdone a ha).resolve_left not_mem_nil
  induction hpath with
  | single hab => exact hsucc start (.inl rfl) _ hab
  | tail _ hbc ih => exact hsucc _ (.inr ih) _ hbc

/-- The successors of the nodes that were not recorded yet, and these nodes. -/
def unrecorded (next : α → Option (List α)) (found : PtrSet α) : List α → Nat
  | [] => 0
  | a :: nodes =>
      (if a ∈ found then 0 else ((next a).getD []).length + 1) + unrecorded next found nodes

theorem unrecorded_insert_le_self (next : α → Option (List α)) (found : PtrSet α) (a : α) :
    ∀ nodes, unrecorded next (found.insert a) nodes ≤ unrecorded next found nodes
  | [] => Nat.le_refl 0
  | b :: nodes => by
      have hrest := unrecorded_insert_le_self next found a nodes
      unfold unrecorded
      by_cases hb : b ∈ found
      · rw [if_pos hb, if_pos (mem_insert.mpr (.inr hb))]
        omega
      · rw [if_neg hb]
        split_ifs <;> omega

theorem unrecorded_insert_le (hnew : a ∉ found) (hl : next a = some l) : ∀ {nodes}, a ∈ nodes →
      unrecorded next (found.insert a) nodes + (l.length + 1) ≤ unrecorded next found nodes
  | [], ha => nomatch ha
  | b :: nodes, ha => by
      have hle := unrecorded_insert_le_self next found a nodes
      unfold unrecorded
      by_cases hba : b = a
      · subst hba
        rw [if_pos (mem_insert.mpr (.inl rfl)), if_neg hnew, hl, Option.getD_some]
        omega
      · have hrest := unrecorded_insert_le hnew hl (mem_of_ne_of_mem (Ne.symm hba) ha)
        by_cases hb : b ∈ found
        · rw [if_pos hb, if_pos (mem_insert.mpr (.inr hb))]
          omega
        · rw [if_neg hb, if_neg (by simp [hba, hb])]
          omega

/-- The search finds exactly what a path from the queue leads to. -/
theorem Lists.searchQueue_spec (h : Lists nodes next r) {queue : List α}
    (hqueue : ∀ a ∈ queue, a ∈ nodes) :
    ∃ N, ∀ fuel ≥ N, ∃ found, searchQueue next fuel queue = some found ∧
      ∀ a, a ∈ found ↔ ∃ s ∈ queue, ReflTransGen r s a := by
  refine ⟨queue.length + unrecorded next ∅ nodes, fun fuel hfuel => ?_⟩
  obtain ⟨⟨rest, found⟩, hloop, ⟨-, hstart, hfound, hdone⟩, hend⟩ := @loopM_rule (List α × PtrSet α)
    (fun s => !s.1.isEmpty)
    (fun s => do
      let a ← s.1.head?
      if a ∈ s.2 then return (s.1.tail, s.2)
      else return (s.1.tail ++ (← next a), s.2.insert a))
    -- what was recorded has its successors recorded or in the queue
    (fun s => (∀ a ∈ s.1, a ∈ nodes ∧ ∃ q ∈ queue, ReflTransGen r q a) ∧
      (∀ a ∈ queue, a ∈ s.1 ∨ a ∈ s.2) ∧ (∀ a ∈ s.2, ∃ q ∈ queue, ReflTransGen r q a) ∧
        ∀ a ∈ s.2, ∀ b, r a b → b ∈ s.1 ∨ b ∈ s.2)
    (fun s => s.1.length + unrecorded next s.2 nodes)
    (by
      rintro ⟨rest, found⟩ ⟨hrest, hstart, hfound, hdone⟩ hcond
      cases rest with
      | nil => nomatch hcond
      | cons a rest =>
          dsimp only at hrest hstart hfound hdone ⊢
          obtain ⟨hnode, q, hq, hreach⟩ := hrest a (.head _)
          have hleft : ∀ b, b ∈ a :: rest ∨ b ∈ found → b ≠ a → b ∈ rest ∨ b ∈ found := fun b hb hba =>
            hb.imp_left (mem_of_ne_of_mem hba)
          by_cases ha : a ∈ found
          · refine ⟨(rest, found), by simp [ha], ⟨fun b hb => hrest b (.tail a hb),
              fun b hb => ?_, hfound, fun b hb c hbc => ?_⟩, by simp⟩
            · by_cases hba : b = a
              · exact .inr (hba ▸ ha)
              · exact hleft b (hstart b hb) hba
            · by_cases hca : c = a
              · exact .inr (hca ▸ ha)
              · exact hleft c (hdone b hb c hbc) hca
          · obtain ⟨l, hl, hsucc⟩ := h.next_eq_some a hnode
            have hnew : ∀ b, b ∈ a :: rest ∨ b ∈ found → b ∈ rest ++ l ∨ b ∈ found.insert a := by
              intro b hb
              by_cases hba : b = a
              · exact .inr (mem_insert.mpr (.inl hba))
              · exact (hleft b hb hba).imp (mem_append_left l)
                  fun hb => mem_insert.mpr (.inr hb)
            refine ⟨(rest ++ l, found.insert a), by simp [ha, hl], ⟨fun b hb => ?_,
              fun b hb => hnew b (hstart b hb), fun b hb => ?_, fun b hb c hbc => ?_⟩, ?_⟩
            · rcases mem_append.mp hb with hb | hb
              · exact hrest b (.tail a hb)
              · have hab := (hsucc b).mp hb
                exact ⟨h.closed a hnode b hab, q, hq, hreach.tail hab⟩
            · rcases mem_insert.mp hb with rfl | hb
              · exact ⟨q, hq, hreach⟩
              · exact hfound b hb
            · rcases mem_insert.mp hb with rfl | hb
              · exact .inl (mem_append_right rest ((hsucc c).mpr hbc))
              · exact hnew c (hdone b hb c hbc)
            · have hle := unrecorded_insert_le ha hl hnode
              simp only [length_append, length_cons]
              omega)
    fuel (queue, ∅)
    ⟨fun a ha => ⟨hqueue a ha, a, ha, .refl⟩, fun a ha => .inl ha,
      fun a ha => absurd ha (not_mem_empty a), fun a ha => absurd ha (not_mem_empty a)⟩
    hfuel
  obtain rfl : rest = [] := by simpa using hend
  refine ⟨found, Option.map_eq_some_iff.mpr ⟨_, hloop, rfl⟩, fun a => ⟨hfound a, ?_⟩⟩
  rintro ⟨q, hq, hpath⟩
  induction hpath with
  | refl => exact (hstart q hq).resolve_left not_mem_nil
  | tail _ hbc ih => exact (hdone _ ih _ hbc).resolve_left not_mem_nil

end SearchAll

/-! ## Recording nothing -/

/-- The nodes that `n` steps lead to from the nodes of a list, once for each way. -/
def level (next : α → Option (List α)) : Nat → List α → List α
  | 0, l => l
  | n + 1, l => level next n (l.flatMap fun a => (next a).getD [])

theorem level_succ (next : α → Option (List α)) : ∀ (n : Nat) (l : List α),
    level next (n + 1) l = (level next n l).flatMap fun a => (next a).getD []
  | 0, _ => rfl
  | n + 1, l => level_succ next n (l.flatMap fun a => (next a).getD [])

theorem level_eq_flatMap (next : α → Option (List α)) : ∀ (n : Nat) (l : List α),
    level next n l = l.flatMap fun a => level next n [a]
  | 0, l => (flatMap_singleton' l).symm
  | n + 1, l => by
      have hsingle : ∀ a, level next (n + 1) [a] =
          ((next a).getD []).flatMap fun b => level next n [b] := fun a => by
        rw [level, flatMap_singleton, level_eq_flatMap next n]
      rw [level, level_eq_flatMap next n, flatMap_assoc]
      simp only [hsingle]

theorem level_eq_nil_of_le {l : List α} {n m : Nat} (hle : n ≤ m) (h : level next n l = []) :
    level next m l = [] := by
  induction m, hle using Nat.le_induction with
  | base => exact h
  | succ m _ ih => rw [level_succ, ih, flatMap_nil]

namespace Lists

theorem mem_getD_iff (h : Lists nodes next r) {a b : α} (ha : a ∈ nodes) :
    b ∈ (next a).getD [] ↔ r a b := by
  obtain ⟨l, hl, hiff⟩ := h.next_eq_some a ha
  rw [hl]
  exact hiff b

theorem reach_of_mem_level (h : Lists nodes next r) (hstart : start ∈ nodes) :
    ∀ {n : Nat} {a : α}, a ∈ level next n [start] → ReflTransGen r start a
  | 0, a, ha => mem_singleton.mp ha ▸ .refl
  | n + 1, a, ha => by
      rw [level_succ, mem_flatMap] at ha
      obtain ⟨b, hb, hab⟩ := ha
      have hreach := h.reach_of_mem_level hstart hb
      exact hreach.tail ((h.mem_getD_iff (h.reach_mem hstart hreach)).mp hab)

theorem exists_mem_level (h : Lists nodes next r) (hstart : start ∈ nodes) {a : α}
    (ha : ReflTransGen r start a) : ∃ n, a ∈ level next n [start] := by
  induction ha with
  | refl => exact ⟨0, mem_singleton_self start⟩
  | tail hreach hab ih =>
      obtain ⟨n, hn⟩ := ih
      refine ⟨n + 1, ?_⟩
      rw [level_succ, mem_flatMap]
      exact ⟨_, hn, (h.mem_getD_iff (h.reach_mem hstart hreach)).mpr hab⟩

/-- Without a cycle the levels run out. -/
theorem exists_level_eq_nil (h : Lists nodes next r) (hstart : start ∈ nodes)
    (hacyclic : ∀ c, ReflTransGen r start c → ¬ TransGen r c c) :
    ∃ n, level next n [start] = [] := by
  have hwf := wellFounded_of_acyclic (fun a ha => h.reach_mem hstart ha) hacyclic
  suffices hall : ∀ a : { a // ReflTransGen r start a }, ∃ n, level next n [a.1] = [] from
    hall ⟨start, .refl⟩
  intro a
  induction a using hwf.induction with
  | h a ih =>
      -- one bound for all successors
      have hbound : ∀ l : List α, (∀ b ∈ l, r a.1 b) → ∃ n, ∀ b ∈ l, level next n [b] = [] := by
        intro l hl
        induction l with
        | nil => exact ⟨0, nofun⟩
        | cons b l ihl =>
            have hab := hl b (.head _)
            obtain ⟨n, hn⟩ := ih ⟨b, a.2.tail hab⟩ (.single hab)
            obtain ⟨m, hm⟩ := ihl fun c hc => hl c (.tail b hc)
            refine ⟨max n m, fun c hc => ?_⟩
            rcases mem_cons.mp hc with rfl | hc
            · exact level_eq_nil_of_le (le_max_left n m) hn
            · exact level_eq_nil_of_le (le_max_right n m) (hm c hc)
      obtain ⟨n, hn⟩ := hbound ((next a.1).getD []) fun b hb =>
        (h.mem_getD_iff (h.reach_mem hstart a.2)).mp hb
      refine ⟨n + 1, ?_⟩
      rw [level, flatMap_singleton, level_eq_flatMap, flatMap_eq_nil_iff]
      exact hn

variable {stop : α → Bool}

theorem searchUntilLoop_append (h : Lists nodes next r) : ∀ {l : List α},
    (∀ a ∈ l, a ∈ nodes ∧ ∀ b, r a b → stop b = false) → ∀ (queue : List α) (fuel : Nat),
      searchUntilLoop next stop (l.length + fuel) (l ++ queue, false) =
        searchUntilLoop next stop fuel (queue ++ l.flatMap fun a => (next a).getD [], false)
  | [], _, queue, fuel => by simp
  | a :: l, hl, queue, fuel => by
      obtain ⟨ha, hnot⟩ := hl a (.head _)
      obtain ⟨successors, hnext, hiff⟩ := h.next_eq_some a ha
      have hskip : ¬ ∃ b ∈ successors, stop b = true := by
        rintro ⟨b, hb, hstop⟩
        rw [hnot b ((hiff b).mp hb)] at hstop
        cases hstop
      have hrest := h.searchUntilLoop_append (fun b hb => hl b (.tail a hb))
        (queue ++ successors) fuel
      have hlen : (a :: l).length + fuel = (l.length + fuel) + 1 := by
        rw [length_cons]
        omega
      rw [hlen, flatMap_cons, hnext, Option.getD_some, ← append_assoc, ← hrest]
      rw [searchUntilLoop, loopM]
      simp [hnext, hskip]

theorem searchUntilLoop_found (h : Lists nodes next r) : ∀ {l : List α}, (∀ a ∈ l, a ∈ nodes) →
    (∃ a ∈ l, ∃ b, r a b ∧ stop b = true) → ∀ (queue : List α) {fuel : Nat}, l.length ≤ fuel →
      ∃ queue', searchUntilLoop next stop fuel (l ++ queue, false) = some (queue', true)
  | [], _, ⟨_, ha, _⟩, _, _, _ => nomatch ha
  | a :: l, hl, hex, queue, fuel, hfuel => by
      obtain ⟨fuel, rfl⟩ : ∃ k, fuel = k + 1 := ⟨fuel - 1, by rw [length_cons] at hfuel; omega⟩
      obtain ⟨successors, hnext, hiff⟩ := h.next_eq_some a (hl a (.head _))
      rw [searchUntilLoop, loopM]
      by_cases hany : successors.any stop = true
      · refine ⟨l ++ queue, ?_⟩
        simp only [cons_append, isEmpty_cons, Bool.not_false, Bool.and_self, if_true,
          List.head?_cons, Option.bind_eq_bind, Option.bind_some, hnext, if_pos hany, tail_cons]
        exact loopM_of_not_cond rfl fuel
      · obtain ⟨b, hb, c, hbc, hc⟩ := hex
        have hbl : b ∈ l := (mem_cons.mp hb).resolve_left fun heq =>
          hany (any_eq_true.mpr ⟨c, (hiff c).mpr (heq ▸ hbc), hc⟩)
        obtain ⟨queue', hfound⟩ := h.searchUntilLoop_found
          (fun c hc => hl c (.tail a hc)) ⟨b, hbl, c, hbc, hc⟩ (queue ++ successors)
          (Nat.le_of_succ_le_succ hfuel)
        refine ⟨queue', ?_⟩
        rw [← hfound, ← append_assoc]
        rw [any_eq_true] at hany
        simp [hnext, hany, searchUntilLoop]

theorem searchUntilLoop_level (h : Lists nodes next r) (hstart : start ∈ nodes) :
    ∀ {n : Nat}, (∀ i < n, ∀ a ∈ level next i [start], ∀ b, r a b → stop b = false) →
      ∃ N, ∀ fuel, searchUntilLoop next stop (N + fuel) ([start], false) =
        searchUntilLoop next stop fuel (level next n [start], false)
  | 0, _ => ⟨0, fun fuel => by rw [Nat.zero_add]; rfl⟩
  | n + 1, hnot => by
      obtain ⟨N, hN⟩ := h.searchUntilLoop_level hstart (n := n) fun i hi => hnot i (by omega)
      refine ⟨N + (level next n [start]).length, fun fuel => ?_⟩
      have hlevel := h.searchUntilLoop_append (l := level next n [start]) (fun a ha =>
        ⟨h.reach_mem hstart (h.reach_of_mem_level hstart ha), hnot n (Nat.lt_succ_self n) a ha⟩) [] fuel
      rw [append_nil, nil_append, ← level_succ] at hlevel
      rw [Nat.add_assoc, hN, hlevel]

/-- A search with something to find finds it. -/
theorem searchUntil_eq_true (h : Lists nodes next r) (stop : α → Bool) (hstart : start ∈ nodes)
    (hpath : ∃ b, TransGen r start b ∧ stop b = true) :
    ∃ N, ∀ fuel ≥ N, searchUntil next stop start fuel = some true := by
  classical
  have hex : ∃ n, ∃ a ∈ level next n [start], ∃ b, r a b ∧ stop b = true := by
    obtain ⟨b, hpath, hstop⟩ := hpath
    obtain ⟨a, hreach, hab⟩ := TransGen.tail'_iff.mp hpath
    obtain ⟨n, hn⟩ := h.exists_mem_level hstart hreach
    exact ⟨n, a, hn, b, hab, hstop⟩
  have hfirst : ∀ i < Nat.find hex, ∀ a ∈ level next i [start], ∀ b, r a b → stop b = false := by
    intro i hi a ha b hab
    exact Bool.eq_false_iff.mpr fun hstop => Nat.find_min hex hi ⟨a, ha, b, hab, hstop⟩
  obtain ⟨N, hN⟩ := h.searchUntilLoop_level hstart hfirst
  refine ⟨N + (level next (Nat.find hex) [start]).length, fun fuel hfuel => ?_⟩
  obtain ⟨extra, rfl⟩ := Nat.exists_eq_add_of_le hfuel
  have hlevel : ∀ a ∈ level next (Nat.find hex) [start], a ∈ nodes := fun a ha =>
    h.reach_mem hstart (h.reach_of_mem_level hstart ha)
  obtain ⟨queue, hfound⟩ := h.searchUntilLoop_found hlevel (Nat.find_spec hex) []
    (Nat.le_add_right _ extra)
  rw [append_nil] at hfound
  rw [searchUntil, Nat.add_assoc, hN, hfound]
  rfl

theorem searchUntil_eq_false (h : Lists nodes next r) (hstart : start ∈ nodes)
    (hno : ∀ b, TransGen r start b → stop b = false)
    (hacyclic : ∀ c, ReflTransGen r start c → ¬ TransGen r c c) :
    ∃ N, ∀ fuel ≥ N, searchUntil next stop start fuel = some false := by
  obtain ⟨n, hn⟩ := h.exists_level_eq_nil hstart hacyclic
  have hnever : ∀ i < n, ∀ a ∈ level next i [start], ∀ b, r a b → stop b = false :=
    fun i _ a ha b hab => hno b (TransGen.tail' (h.reach_of_mem_level hstart ha) hab)
  obtain ⟨N, hN⟩ := h.searchUntilLoop_level hstart hnever
  refine ⟨N, fun fuel hfuel => ?_⟩
  obtain ⟨extra, rfl⟩ := Nat.exists_eq_add_of_le hfuel
  rw [searchUntil, hN, hn, searchUntilLoop, loopM_of_not_cond rfl]
  rfl

/-- A search that nothing stops does not end if it gets to a cycle. -/
theorem searchUntil_eq_none (h : Lists nodes next r) (hstart : start ∈ nodes)
    (hno : ∀ b, TransGen r start b → stop b = false) {c : α} (hreach : ReflTransGen r start c)
    (hcycle : TransGen r c c) (fuel : Nat) : searchUntil next stop start fuel = none := by
  -- some node in the queue leads to the cycle
  have hloop : searchUntilLoop next stop fuel ([start], false) = none := by
    refine loopM_eq_none (fun s => s.2 = false ∧ (∀ a ∈ s.1, ReflTransGen r start a) ∧
      ∃ a ∈ s.1, ReflTransGen r a c) ?_ fuel ([start], false)
      ⟨rfl, fun a ha => mem_singleton.mp ha ▸ .refl, start, mem_singleton_self start, hreach⟩
    rintro ⟨queue, found⟩ ⟨rfl, hqueue, a, ha, hac⟩
    cases queue with
    | nil => nomatch ha
    | cons b queue =>
        refine ⟨rfl, fun s' hs' => ?_⟩
        have hb := hqueue b (.head _)
        obtain ⟨successors, hnext, hiff⟩ := h.next_eq_some b (h.reach_mem hstart hb)
        have hskip : ¬ successors.any stop = true := by
          rw [any_eq_true]
          rintro ⟨d, hd, hstop⟩
          rw [hno d (TransGen.tail' hb ((hiff d).mp hd))] at hstop
          cases hstop
        simp only [List.head?_cons, Option.bind_eq_bind, Option.bind_some, hnext, if_neg hskip,
          tail_cons, Option.pure_def, Option.some.injEq] at hs'
        subst hs'
        refine ⟨rfl, fun d hd => ?_, ?_⟩
        · rcases mem_append.mp hd with hd | hd
          · exact hqueue d (.tail b hd)
          · exact hb.tail ((hiff d).mp hd)
        · rcases mem_cons.mp ha with rfl | ha
          · have hround : TransGen r a c := TransGen.trans_right hac hcycle
            obtain ⟨d, had, hdc⟩ := TransGen.head'_iff.mp hround
            exact ⟨d, mem_append_right _ ((hiff d).mpr had), hdc⟩
          · exact ⟨a, mem_append_left _ ha, hac⟩
  rw [searchUntil, hloop]
  rfl

/-! One node stops `searchFor`. -/

variable [DecidableEq α]

theorem searchFor_eq_searchUntil (target start : α) (fuel : Nat) :
    searchFor next target start fuel = searchUntil next (fun b => decide (b = target)) start fuel := by
  have hany : ∀ l : List α, (l.any fun b => decide (b = target)) = decide (target ∈ l) := fun l => by
    rw [Bool.eq_iff_iff, any_eq_true, decide_eq_true_iff]
    simp
  simp only [searchFor, searchForLoop, searchUntil, searchUntilLoop, hany, decide_eq_true_eq]

theorem searchFor_eq_true (h : Lists nodes next r) (hstart : start ∈ nodes)
    (hpath : TransGen r start target) :
    ∃ N, ∀ fuel ≥ N, searchFor next target start fuel = some true := by
  simp only [searchFor_eq_searchUntil]
  exact h.searchUntil_eq_true _ hstart ⟨target, hpath, decide_eq_true rfl⟩

theorem not_stop_of_no_path (hno : ¬ TransGen r start target) (b : α) (hb : TransGen r start b) :
    decide (b = target) = false :=
  decide_eq_false fun heq => hno (heq ▸ hb)

theorem searchFor_eq_false (h : Lists nodes next r) (hstart : start ∈ nodes)
    (hno : ¬ TransGen r start target) (hacyclic : ∀ c, ReflTransGen r start c → ¬ TransGen r c c) :
    ∃ N, ∀ fuel ≥ N, searchFor next target start fuel = some false := by
  simp only [searchFor_eq_searchUntil]
  exact h.searchUntil_eq_false hstart (not_stop_of_no_path hno) hacyclic

theorem searchFor_eq_none (h : Lists nodes next r) (hstart : start ∈ nodes)
    (hno : ¬ TransGen r start target) {c : α} (hreach : ReflTransGen r start c)
    (hcycle : TransGen r c c) (fuel : Nat) : searchFor next target start fuel = none := by
  rw [searchFor_eq_searchUntil]
  exact h.searchUntil_eq_none hstart (not_stop_of_no_path hno) hreach hcycle fuel

/-! ## Ending at some nodes -/

omit [DecidableEq α] in
/-- Without a cycle every element weighs more than its successors together. -/
theorem exists_weight (h : Lists nodes next r) (hacyclic : ∀ a ∈ nodes, ¬ TransGen r a a) :
    ∃ weight : α → Nat, ∀ a ∈ nodes, ∀ l, next a = some l → (l.map weight).sum < weight a := by
  classical
  have hwf := wellFounded_of_acyclic (P := (· ∈ nodes)) (fun a ha => ha) hacyclic
  let weight : { a // a ∈ nodes } → Nat := hwf.fix fun a ih =>
    1 + (((next a.1).getD []).map fun b =>
      if hb : ∃ hmem : b ∈ nodes, r a.1 b then ih ⟨b, hb.1⟩ (.single hb.2) else 0).sum
  refine ⟨fun a => if ha : a ∈ nodes then weight ⟨a, ha⟩ else 0, fun a ha l hl => ?_⟩
  obtain ⟨l', hl', hsucc⟩ := h.next_eq_some a ha
  obtain rfl := Option.mem_unique hl hl'
  have heq : weight ⟨a, ha⟩ = 1 + (((next a).getD []).map fun b =>
      if hb : ∃ hmem : b ∈ nodes, r a b then weight ⟨b, hb.1⟩ else 0).sum := hwf.fix_eq _ _
  have hsame : (l.map fun b => if hb : b ∈ nodes then weight ⟨b, hb⟩ else 0) =
      ((next a).getD []).map fun b =>
        if hb : ∃ hmem : b ∈ nodes, r a b then weight ⟨b, hb.1⟩ else 0 := by
    rw [hl, Option.getD_some]
    refine map_congr_left fun b hb => ?_
    have hab := (hsucc b).mp hb
    have hmem := h.closed a ha b hab
    rw [dif_pos hmem, dif_pos ⟨hmem, hab⟩]
  rw [hsame]
  dsimp only
  rw [dif_pos ha, heq]
  omega

omit [DecidableEq α] in
/-- The search finds the first elements on a path that it does not go through. -/
theorem searchFrontier_spec {β : Type} [DecidableEq β] (h : Lists nodes next r)
    (hacyclic : ∀ a ∈ nodes, ¬ TransGen r a a) (through : α → Bool) (value : α → β)
    {queue : List α} (hqueue : ∀ a ∈ queue, a ∈ nodes) :
    ∃ N, ∀ fuel ≥ N, ∃ found, searchFrontier next through value fuel queue = some found ∧
      ∀ t, t ∈ found ↔ ∃ a, value a = t ∧ through a = false ∧
        ∃ s ∈ queue, ReflTransGen (fun x y => through x = true ∧ r x y) s a := by
  obtain ⟨weight, hweight⟩ := h.exists_weight hacyclic
  refine ⟨(queue.map weight).sum, fun fuel hfuel => ?_⟩
  obtain ⟨⟨rest, found⟩, hloop, ⟨-, hsound, hcomplete⟩, hend⟩ := @loopM_rule (List α × PtrSet β)
    (fun s => !s.1.isEmpty)
    (fun s => do
      let a ← s.1.head?
      if through a then return (s.1.tail ++ (← next a), s.2)
      else return (s.1.tail, s.2.insert (value a)))
    -- the way to a node that was not collected goes on from the queue
    (fun s => (∀ a ∈ s.1, a ∈ nodes ∧
        ∃ b ∈ queue, ReflTransGen (fun x y => through x = true ∧ r x y) b a) ∧
      (∀ t ∈ s.2, ∃ a, value a = t ∧ through a = false ∧
        ∃ b ∈ queue, ReflTransGen (fun x y => through x = true ∧ r x y) b a) ∧
      ∀ a, through a = false → (∃ b ∈ queue, ReflTransGen (fun x y => through x = true ∧ r x y) b a) →
        value a ∈ s.2 ∨ ∃ b ∈ s.1, ReflTransGen (fun x y => through x = true ∧ r x y) b a)
    (fun s => (s.1.map weight).sum)
    (by
      rintro ⟨rest, found⟩ ⟨hrest, hsound, hcomplete⟩ hcond
      cases rest with
      | nil => nomatch hcond
      | cons a rest =>
          obtain ⟨ha, hreached⟩ := hrest a (.head _)
          have hrest' : ∀ b ∈ rest, b ∈ nodes ∧
              ∃ c ∈ queue, ReflTransGen (fun x y => through x = true ∧ r x y) c b := fun b hb =>
            hrest b (.tail a hb)
          obtain ⟨l, hl, hsucc⟩ := h.next_eq_some a ha
          have hless := hweight a ha l hl
          cases hthrough : through a with
          | true =>
              refine ⟨(rest ++ l, found), ?_, ⟨fun b hb => ?_, hsound, fun b hb hway => ?_⟩, ?_⟩
              · simp [hthrough, hl]
              · rcases mem_append.mp hb with hb | hb
                · exact hrest' b hb
                · have hab := (hsucc b).mp hb
                  obtain ⟨c, hc, hca⟩ := hreached
                  exact ⟨h.closed a ha b hab, c, hc, hca.tail ⟨hthrough, hab⟩⟩
              · rcases hcomplete b hb hway with hmem | ⟨c, hc, hcb⟩
                · exact .inl hmem
                · rcases mem_cons.mp hc with rfl | hc
                  · rcases hcb.cases_head with rfl | ⟨d, ⟨-, hcd⟩, hdb⟩
                    · exact absurd (hthrough.symm.trans hb) nofun
                    · exact .inr ⟨d, mem_append_right _ ((hsucc d).mpr hcd), hdb⟩
                  · exact .inr ⟨c, mem_append_left _ hc, hcb⟩
              · simp only [map_append, sum_append, map_cons, sum_cons]
                omega
          | false =>
              refine ⟨(rest, found.insert (value a)), ?_, ⟨hrest', fun t ht => ?_,
                fun b hb hway => ?_⟩, ?_⟩
              · simp [hthrough]
              · rcases mem_insert.mp ht with rfl | ht
                · exact ⟨a, rfl, hthrough, hreached⟩
                · exact hsound t ht
              · rcases hcomplete b hb hway with hmem | ⟨c, hc, hcb⟩
                · exact .inl (mem_insert.mpr (.inr hmem))
                · rcases mem_cons.mp hc with rfl | hc
                  · rcases hcb.cases_head with rfl | ⟨d, ⟨hc, -⟩, -⟩
                    · exact .inl (mem_insert.mpr (.inl rfl))
                    · exact absurd (hthrough.symm.trans hc) nofun
                  · exact .inr ⟨c, hc, hcb⟩
              · simp only [map_cons, sum_cons]
                omega)
    fuel (queue, ∅)
    ⟨fun a ha => ⟨hqueue a ha, a, ha, .refl⟩, fun t ht => absurd ht (not_mem_empty t),
      fun a _ hway => .inr hway⟩
    hfuel
  obtain rfl : rest = [] := by simpa using hend
  refine ⟨found, Option.map_eq_some_iff.mpr ⟨_, hloop, rfl⟩, fun t => ⟨hsound t, ?_⟩⟩
  rintro ⟨a, rfl, ha, hway⟩
  exact (hcomplete a ha hway).resolve_right fun hex => by simp at hex

end Lists

end Noelle
