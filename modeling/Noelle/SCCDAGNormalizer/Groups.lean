import Noelle.Lib.Contraction
import Noelle.SCCDAGNormalizer.Basic

/-!
# SCCDAGNormalizer.Groups

The groups of `MergeGroups` are disjoint sets of the nodes that were merged.  Two nodes
are in one group if and only if a chain of merged pairs connects them, whatever the order of the
merges (`mergeAll_groups`).
-/

namespace Noelle

open Function Relation PtrSet List

namespace MergeGroups

variable {N : DGNode SccPtr → Prop} {m : MergeGroups} {a b n : DGNode SccPtr} {g : Nat}

/-- The map leads every node to its group, and nodes satisfy `N`. -/
structure Ok (N : DGNode SccPtr → Prop) (m : MergeGroups) : Prop where
  lookup_iff : ∀ n g, m.sccToGroupMap.lookup n = some g ↔ g ∈ m.groups ∧ n ∈ m.nodes g
  fresh : ∀ g ∈ m.groups, g < m.nextGroup
  node_ok : ∀ g ∈ m.groups, ∀ n ∈ m.nodes g, N n

theorem empty_ok : Ok N empty where
  lookup_iff := fun n g => by simp [empty]
  fresh := fun g hg => absurd hg (not_mem_empty g)
  node_ok := fun g hg => absurd hg (not_mem_empty g)

variable {g' : Nat} {α : Type} {l : List α}
  {pairOf : α → Option (Option (DGNode SccPtr × DGNode SccPtr))}

theorem Ok.group_unique (h : Ok N m) (hg : g ∈ m.groups) (hg' : g' ∈ m.groups) (hn : n ∈ m.nodes g)
    (hn' : n ∈ m.nodes g') : g = g' := by
  have hlook := (h.lookup_iff n g).mpr ⟨hg, hn⟩
  rw [(h.lookup_iff n g').mpr ⟨hg', hn'⟩] at hlook
  exact (Option.some.inj hlook).symm

/-- A node without a group joins one. -/
theorem Ok.insertNode (h : Ok N m) (hg : g ∈ m.groups) (hnone : m.sccToGroupMap.lookup a = none)
    (ha : N a) : Ok N { m with
      nodes := update m.nodes g ((m.nodes g).insert a)
      sccToGroupMap := m.sccToGroupMap.insert a g } := by
  have hno : ∀ g' ∈ m.groups, a ∉ m.nodes g' := fun g' hg' hmem => by
    have hlook := (h.lookup_iff a g').mpr ⟨hg', hmem⟩
    rw [hnone] at hlook
    cases hlook
  refine ⟨fun n g' => ?_, h.fresh, fun g' hg' n hn => ?_⟩
  · by_cases hna : n = a
    · subst hna
      simp only [AList.lookup_insert, Option.some.injEq]
      constructor
      · rintro rfl
        rw [update_self]
        exact ⟨hg, mem_insert.mpr (.inl rfl)⟩
      · rintro ⟨hg', hmem⟩
        by_contra hne
        rw [update_of_ne (Ne.symm hne)] at hmem
        exact hno g' hg' hmem
    · simp only [AList.lookup_insert_ne hna, h.lookup_iff]
      by_cases hgg : g' = g
      · subst hgg
        simp [hna]
      · rw [update_of_ne hgg]
  · dsimp only at hn
    by_cases hgg : g' = g
    · subst hgg
      rw [update_self] at hn
      rcases mem_insert.mp hn with rfl | hn
      · exact ha
      · exact h.node_ok g' hg n hn
    · rw [update_of_ne hgg] at hn
      exact h.node_ok g' hg' n hn

/-- Two groups become one. -/
theorem Ok.union (h : Ok N m) (hg : g ∈ m.groups) (hg' : g' ∈ m.groups) (hne : g ≠ g') :
    Ok N { m with
      nodes := update m.nodes g ((m.nodes g).insertAll (m.nodes g').elems)
      sccToGroupMap := (m.nodes g').elems.foldl
        (fun sccToGroupMap node => sccToGroupMap.insert node g) m.sccToGroupMap
      groups := m.groups.erase g' } := by
  refine ⟨fun n k => ?_, fun k hk => h.fresh k (mem_erase.mp hk).2, fun k hk n hn => ?_⟩
  · simp only [lookup_foldl_insert, mem_elems, mem_erase]
    by_cases hn : n ∈ m.nodes g'
    · rw [if_pos hn, Option.some.injEq]
      constructor
      · rintro rfl
        rw [update_self]
        exact ⟨⟨hne, hg⟩, mem_insertAll.mpr (.inr hn)⟩
      · rintro ⟨⟨hkg, hk⟩, hmem⟩
        by_contra hkne
        rw [update_of_ne (Ne.symm hkne)] at hmem
        exact hkg (h.group_unique hk hg' hmem hn)
    · rw [if_neg hn, h.lookup_iff]
      by_cases hkg : k = g
      · subst hkg
        rw [update_self, mem_insertAll, mem_elems]
        exact ⟨fun hk => ⟨⟨hne, hk.1⟩, .inl hk.2⟩,
          fun hk => ⟨hk.1.2, hk.2.resolve_right hn⟩⟩
      · rw [update_of_ne hkg]
        exact ⟨fun hk => ⟨⟨fun heq => hn (heq ▸ hk.2), hk.1⟩, hk.2⟩, fun hk => ⟨hk.1.2, hk.2⟩⟩
  · have hk' := (mem_erase.mp hk).2
    dsimp only at hn
    by_cases hkg : k = g
    · subst hkg
      rw [update_self] at hn
      rcases mem_insertAll.mp hn with hn | hn
      · exact h.node_ok k hg n hn
      · exact h.node_ok g' hg' n hn
    · rw [update_of_ne hkg] at hn
      exact h.node_ok k hk' n hn

/-- Two nodes without a group get one. -/
theorem Ok.newGroup (h : Ok N m) (hna : m.sccToGroupMap.lookup a = none)
    (hnb : m.sccToGroupMap.lookup b = none) (ha : N a) (hb : N b) :
    Ok N { nodes := update m.nodes m.nextGroup (PtrSet.ofList [a, b])
           groups := m.groups.insert m.nextGroup
           sccToGroupMap := (m.sccToGroupMap.insert a m.nextGroup).insert b m.nextGroup
           nextGroup := m.nextGroup + 1 } := by
  have hold : ∀ g ∈ m.groups, g ≠ m.nextGroup := fun g hg => Nat.ne_of_lt (h.fresh g hg)
  have hfresh : m.nextGroup ∉ m.groups := fun hmem => hold _ hmem rfl
  refine ⟨fun n k => ?_, fun k hk => ?_, fun k hk n hn => ?_⟩
  · have hlook : ((m.sccToGroupMap.insert a m.nextGroup).insert b m.nextGroup).lookup n =
        if n = a ∨ n = b then some m.nextGroup else m.sccToGroupMap.lookup n := by
      by_cases hnb' : n = b
      · subst hnb'
        simp
      · rw [AList.lookup_insert_ne hnb']
        by_cases hna' : n = a
        · subst hna'
          simp
        · simp [AList.lookup_insert_ne hna', hna', hnb']
    dsimp only
    rw [hlook]
    by_cases hn : n = a ∨ n = b
    · rw [if_pos hn, Option.some.injEq]
      constructor
      · rintro rfl
        rw [update_self]
        exact ⟨mem_insert.mpr (.inl rfl), mem_ofList.mpr (by simpa using hn)⟩
      · rintro ⟨hk, hmem⟩
        by_contra hkne
        have hk' := (mem_insert.mp hk).resolve_left (Ne.symm hkne)
        rw [update_of_ne (Ne.symm hkne)] at hmem
        have hlook' := (h.lookup_iff n k).mpr ⟨hk', hmem⟩
        rcases hn with rfl | rfl
        · rw [hna] at hlook'
          cases hlook'
        · rw [hnb] at hlook'
          cases hlook'
    · rw [if_neg hn, h.lookup_iff]
      by_cases hkn : k = m.nextGroup
      · subst hkn
        rw [update_self]
        refine ⟨fun hk => absurd hk.1 hfresh, fun hk => absurd ?_ hn⟩
        simpa using mem_ofList.mp hk.2
      · rw [update_of_ne hkn, mem_insert]
        simp [hkn]
  · rcases mem_insert.mp hk with rfl | hk
    · exact Nat.lt_succ_self _
    · exact Nat.lt_succ_of_lt (h.fresh k hk)
  · dsimp only at hn
    by_cases hkn : k = m.nextGroup
    · subst hkn
      rw [update_self, mem_ofList] at hn
      rcases mem_cons.mp hn with rfl | hn
      · exact ha
      · exact mem_singleton.mp hn ▸ hb
    · rw [update_of_ne hkn] at hn
      exact h.node_ok k ((mem_insert.mp hk).resolve_left hkn) n hn

/-- A merge keeps the groups consistent. -/
theorem Ok.merge (h : Ok N m) (ha : N a) (hb : N b) : Ok N (m.merge a b) := by
  unfold MergeGroups.merge
  cases hla : m.sccToGroupMap.lookup a with
  | some g =>
      obtain ⟨hg, _⟩ := (h.lookup_iff a g).mp hla
      cases hlb : m.sccToGroupMap.lookup b with
      | some g' =>
          obtain ⟨hg', _⟩ := (h.lookup_iff b g').mp hlb
          by_cases heq : g = g'
          · dsimp only
            rw [if_pos heq]
            exact h
          · dsimp only
            rw [if_neg heq]
            exact h.union hg hg' heq
      | none => exact h.insertNode hg hlb hb
  | none =>
      cases hlb : m.sccToGroupMap.lookup b with
      | some g' =>
          obtain ⟨hg', _⟩ := (h.lookup_iff b g').mp hlb
          exact h.insertNode hg' hla ha
      | none => exact h.newGroup hla hlb ha hb

/-- The groups of answered pairs hold only such ends. -/
theorem ofPairs_spec
    (hpair : ∀ x ∈ l, pairOf x = some none ∨ ∃ a b, pairOf x = some (some (a, b)) ∧ N a ∧ N b) :
    ∃ m, ofPairs pairOf l = some m ∧ Ok N m := by
  refine foldlM_rule _ (fun _ m => Ok N m) empty_ok ?_
  intro pre x post m hsplit hm
  have hx : x ∈ l := by rw [hsplit]; simp
  rcases hpair x hx with hnone | ⟨a, b, hsome, ha, hb⟩
  · exact ⟨m, by rw [hnone]; rfl, hm⟩
  · exact ⟨m.merge a b, by rw [hsome]; rfl, hm.merge ha hb⟩

/-! ## Nodes of one group -/

/-- The two nodes are in one group, or are one node. -/
def SameGroup (m : MergeGroups) (a b : DGNode SccPtr) : Prop :=
  a = b ∨ ∃ g, m.sccToGroupMap.lookup a = some g ∧ m.sccToGroupMap.lookup b = some g

theorem SameGroup.symm (h : m.SameGroup a b) : m.SameGroup b a := by
  rcases h with rfl | ⟨g, ha, hb⟩
  · exact .inl rfl
  · exact .inr ⟨g, hb, ha⟩

theorem SameGroup.trans {c : DGNode SccPtr} (hab : m.SameGroup a b) (hbc : m.SameGroup b c) :
    m.SameGroup a c := by
  rcases hab with rfl | ⟨g, ha, hb⟩
  · exact hbc
  · rcases hbc with rfl | ⟨g', hb', hc⟩
    · exact .inr ⟨g, ha, hb⟩
    · rw [hb] at hb'
      exact .inr ⟨g, ha, Option.some.inj hb' ▸ hc⟩

theorem sameGroup_iff_of_some (ha : m.sccToGroupMap.lookup a = some g) :
    m.SameGroup n a ↔ m.sccToGroupMap.lookup n = some g := by
  constructor
  · rintro (rfl | ⟨g', hn, ha'⟩)
    · exact ha
    · rw [ha] at ha'
      exact Option.some.inj ha' ▸ hn
  · exact fun hn => .inr ⟨g, hn, ha⟩

theorem sameGroup_iff_of_none (ha : m.sccToGroupMap.lookup a = none) :
    m.SameGroup n a ↔ n = a := by
  constructor
  · rintro (rfl | ⟨g, _, ha'⟩)
    · rfl
    · rw [ha] at ha'
      cases ha'
  · exact .inl

/-- A merge puts the groups of two nodes together. -/
theorem Ok.lookup_merge (h : Ok N m) (a b : DGNode SccPtr) : ∃ g,
    (∀ n, ((m.SameGroup n a ∨ m.SameGroup n b) → (m.merge a b).sccToGroupMap.lookup n = some g) ∧
      (¬ (m.SameGroup n a ∨ m.SameGroup n b) →
        (m.merge a b).sccToGroupMap.lookup n = m.sccToGroupMap.lookup n)) ∧
    ∀ n, m.sccToGroupMap.lookup n = some g → m.SameGroup n a ∨ m.SameGroup n b := by
  unfold MergeGroups.merge
  cases hla : m.sccToGroupMap.lookup a with
  | some g =>
      simp only [sameGroup_iff_of_some hla]
      refine ⟨g, fun n => ?_, fun n hn => .inl hn⟩
      cases hlb : m.sccToGroupMap.lookup b with
      | some g' =>
          simp only [sameGroup_iff_of_some hlb]
          by_cases heq : g = g'
          · simp only [heq, if_true, or_self, imp_self, implies_true, and_self]
          · simp only [heq, if_false, lookup_foldl_insert, mem_elems]
            have hmem : n ∈ m.nodes g' ↔ m.sccToGroupMap.lookup n = some g' :=
              ⟨fun hn => (h.lookup_iff n g').mpr ⟨((h.lookup_iff b g').mp hlb).1, hn⟩,
                fun hn => ((h.lookup_iff n g').mp hn).2⟩
            by_cases hn : n ∈ m.nodes g'
            · simp [hn, hmem.mp hn]
            · simp [hn, mt hmem.mpr hn]
      | none =>
          simp only [sameGroup_iff_of_none hlb]
          by_cases hn : n = b
          · subst hn
            simp
          · simp [hn, AList.lookup_insert_ne hn]
  | none =>
      simp only [sameGroup_iff_of_none hla]
      cases hlb : m.sccToGroupMap.lookup b with
      | some g' =>
          simp only [sameGroup_iff_of_some hlb]
          refine ⟨g', fun n => ?_, fun n hn => .inr hn⟩
          by_cases hn : n = a
          · subst hn
            simp
          · simp [hn, AList.lookup_insert_ne hn]
      | none =>
          simp only [sameGroup_iff_of_none hlb]
          refine ⟨m.nextGroup, fun n => ?_, fun n hn => ?_⟩
          · by_cases hnb : n = b
            · subst hnb
              simp
            · rw [AList.lookup_insert_ne hnb]
              by_cases hna : n = a
              · subst hna
                simp
              · simp [hna, hnb, AList.lookup_insert_ne hna]
          · exact absurd (h.fresh _ ((h.lookup_iff n _).mp hn).1) (Nat.lt_irrefl _)

/-- A merge adds its pair to the grouping. -/
theorem Ok.sameGroup_merge (h : Ok N m) {x y : DGNode SccPtr} : (m.merge a b).SameGroup x y ↔
    m.SameGroup x y ∨
      ((m.SameGroup x a ∨ m.SameGroup x b) ∧ (m.SameGroup y a ∨ m.SameGroup y b)) := by
  obtain ⟨g, hlookup, hold⟩ := h.lookup_merge a b
  constructor
  · rintro (rfl | ⟨k, hx, hy⟩)
    · exact .inl (.inl rfl)
    · by_cases hjx : m.SameGroup x a ∨ m.SameGroup x b <;>
        by_cases hjy : m.SameGroup y a ∨ m.SameGroup y b
      · exact .inr ⟨hjx, hjy⟩
      · rw [(hlookup x).1 hjx] at hx
        rw [(hlookup y).2 hjy, ← Option.some.inj hx] at hy
        exact absurd (hold y hy) hjy
      · rw [(hlookup y).1 hjy] at hy
        rw [(hlookup x).2 hjx, ← Option.some.inj hy] at hx
        exact absurd (hold x hx) hjx
      · rw [(hlookup x).2 hjx] at hx
        rw [(hlookup y).2 hjy] at hy
        exact .inl (.inr ⟨k, hx, hy⟩)
  · rintro (hxy | ⟨hx, hy⟩)
    · by_cases hjx : m.SameGroup x a ∨ m.SameGroup x b
      · have hjy : m.SameGroup y a ∨ m.SameGroup y b := hjx.imp hxy.symm.trans hxy.symm.trans
        exact .inr ⟨g, (hlookup x).1 hjx, (hlookup y).1 hjy⟩
      · have hjy : ¬ (m.SameGroup y a ∨ m.SameGroup y b) :=
          fun hjy => hjx (hjy.imp hxy.trans hxy.trans)
        cases hxy with
        | inl heq => exact .inl heq
        | inr hg =>
            obtain ⟨k, hkx, hky⟩ := hg
            exact .inr ⟨k, ((hlookup x).2 hjx).trans hkx, ((hlookup y).2 hjy).trans hky⟩
    · exact .inr ⟨g, (hlookup x).1 hx, (hlookup y).1 hy⟩

theorem sameGroup_empty_iff {r : DGNode SccPtr → DGNode SccPtr → Prop} (hr : ∀ x y, ¬ r x y) :
    empty.SameGroup a b ↔ EqvGen r a b := by
  constructor
  · rintro (rfl | ⟨g, hg, _⟩)
    · exact .refl _
    · cases hg
  · intro hab
    left
    induction hab with
    | rel x y hxy => exact absurd hxy (hr x y)
    | refl x => rfl
    | symm x y _ ih => exact ih.symm
    | trans x y z _ _ ihxy ihyz => exact ihxy.trans ihyz

/-- Some element of the list asks for the pair. -/
def Asks {α : Type} (pairOf : α → Option (Option (DGNode SccPtr × DGNode SccPtr))) (l : List α)
    (a b : DGNode SccPtr) : Prop :=
  ∃ x ∈ l, pairOf x = some (some (a, b))

/-- The calls of `merge`, one after the other. -/
def mergeAll (calls : List (DGNode SccPtr × DGNode SccPtr)) : MergeGroups :=
  calls.foldl (fun m call => m.merge call.1 call.2) empty

/-- The node is one of a pair. -/
def Occurs (calls : List (DGNode SccPtr × DGNode SccPtr)) (n : DGNode SccPtr) : Prop :=
  ∃ call ∈ calls, n = call.1 ∨ n = call.2

section Calls

variable {calls : List (DGNode SccPtr × DGNode SccPtr)}

theorem occurs_append {call : DGNode SccPtr × DGNode SccPtr} :
    Occurs (calls ++ [call]) n ↔ Occurs calls n ∨ n = call.1 ∨ n = call.2 := by
  simp [Occurs, or_and_right, exists_or]

theorem Ok.isSome_lookup_merge (h : Ok N m) :
    ((m.merge a b).sccToGroupMap.lookup n).isSome = true ↔
      (m.sccToGroupMap.lookup n).isSome = true ∨ n = a ∨ n = b := by
  obtain ⟨g, hlookup, _⟩ := h.lookup_merge a b
  constructor
  · intro hsome
    by_cases hjoined : m.SameGroup n a ∨ m.SameGroup n b
    · obtain (rfl | ⟨k, hk, _⟩) | (rfl | ⟨k, hk, _⟩) := hjoined
      · exact .inr (.inl rfl)
      · exact .inl (by rw [hk]; rfl)
      · exact .inr (.inr rfl)
      · exact .inl (by rw [hk]; rfl)
    · rw [(hlookup n).2 hjoined] at hsome
      exact .inl hsome
  · intro hsome
    by_cases hjoined : m.SameGroup n a ∨ m.SameGroup n b
    · rw [(hlookup n).1 hjoined]
      rfl
    · rw [(hlookup n).2 hjoined]
      obtain hsome | rfl | rfl := hsome
      · exact hsome
      · exact absurd (.inl (.inl rfl)) hjoined
      · exact absurd (.inr (.inl rfl)) hjoined

/-- What the merges keep: the groups hold the nodes that occurred, and join what the pairs
connect. -/
structure Tracks (calls : List (DGNode SccPtr × DGNode SccPtr)) (m : MergeGroups) : Prop where
  ok : Ok (fun _ => True) m
  isSome_lookup : ∀ n, (m.sccToGroupMap.lookup n).isSome = true ↔ Occurs calls n
  sameGroup_iff : ∀ a b, m.SameGroup a b ↔ EqvGen (fun x y => (x, y) ∈ calls) a b

theorem tracks_empty : Tracks [] empty where
  ok := empty_ok
  isSome_lookup := fun n => by simp [empty, Occurs]
  sameGroup_iff := fun a b => sameGroup_empty_iff fun x y => not_mem_nil

theorem Tracks.merge (h : Tracks calls m) (call : DGNode SccPtr × DGNode SccPtr) :
    Tracks (calls ++ [call]) (m.merge call.1 call.2) where
  ok := h.ok.merge trivial trivial
  isSome_lookup := fun n => by
    rw [h.ok.isSome_lookup_merge, h.isSome_lookup, occurs_append]
  sameGroup_iff := fun a b => by
    have hpair : ∀ x y, (x, y) ∈ calls ++ [call] ↔ (x, y) ∈ calls ∨ (x = call.1 ∧ y = call.2) := by
      intro x y
      rw [mem_append, mem_singleton, Prod.ext_iff]
    rw [h.ok.sameGroup_merge, eqvGen_insert hpair]
    simp only [h.sameGroup_iff]

theorem tracks_mergeAll (calls : List (DGNode SccPtr × DGNode SccPtr)) :
    Tracks calls (mergeAll calls) :=
  foldl_rule _ Tracks tracks_empty fun _ call _ _ _ h => h.merge call

/-- A walk in both directions stays in a class. -/
theorem transGen_symmGen_iff {r : DGNode SccPtr → DGNode SccPtr → Prop} :
    TransGen (SymmGen r) a b ↔ EqvGen r a b ∧ ∃ c, SymmGen r a c := by
  have hback : ∀ {x y}, TransGen (SymmGen r) x y → TransGen (SymmGen r) y x :=
    fun hxy => TransGen.stdSymm.symm _ _ hxy
  constructor
  · intro hab
    refine ⟨?_, ?_⟩
    · have hstep : ∀ x y, SymmGen r x y → EqvGen r x y := by
        rintro x y (hxy | hyx)
        · exact .rel _ _ hxy
        · exact .symm _ _ (.rel _ _ hyx)
      induction hab with
      | single h => exact hstep _ _ h
      | tail _ h ih => exact .trans _ _ _ ih (hstep _ _ h)
    · obtain ⟨c, hac, _⟩ := TransGen.head'_iff.mp hab
      exact ⟨c, hac⟩
  · rintro ⟨hab, c, hac⟩
    have hchain : a = b ∨ TransGen (SymmGen r) a b := by
      clear hac
      induction hab with
      | rel x y hxy => exact .inr (.single (.inl hxy))
      | refl x => exact .inl rfl
      | symm x y _ ih => exact ih.imp Eq.symm hback
      | trans x y z _ _ ihxy ihyz =>
          obtain rfl | hxy := ihxy
          · exact ihyz
          · obtain rfl | hyz := ihyz
            · exact .inr hxy
            · exact .inr (hxy.trans hyz)
    obtain rfl | hab := hchain
    · exact .tail (.single hac) hac.symm
    · exact hab

end Calls

/-- **Merge groups**: after any merges the groups are disjoint, two nodes are in one group exactly
if a chain of merged pairs connects them, and the map leads exactly the nodes that occurred in a pair
to the group that has them, which has not been deleted. -/
theorem mergeAll_groups (calls : List (DGNode SccPtr × DGNode SccPtr)) :
    (∀ g ∈ (mergeAll calls).groups, ∀ g' ∈ (mergeAll calls).groups, g ≠ g' →
      ∀ n ∈ (mergeAll calls).nodes g, n ∉ (mergeAll calls).nodes g') ∧
    (∀ a b, (∃ g ∈ (mergeAll calls).groups,
        a ∈ (mergeAll calls).nodes g ∧ b ∈ (mergeAll calls).nodes g) ↔
      TransGen (SymmGen fun x y => (x, y) ∈ calls) a b) ∧
    (∀ n, (∃ g, (mergeAll calls).sccToGroupMap.lookup n = some g) ↔ Occurs calls n) ∧
    ∀ n g, (mergeAll calls).sccToGroupMap.lookup n = some g →
      g ∈ (mergeAll calls).groups ∧ n ∈ (mergeAll calls).nodes g := by
  have htracks := tracks_mergeAll calls
  have hoccurs : ∀ n, (∃ g, (mergeAll calls).sccToGroupMap.lookup n = some g) ↔ Occurs calls n :=
    fun n => Option.isSome_iff_exists.symm.trans (htracks.isSome_lookup n)
  refine ⟨?_, fun a b => ?_, hoccurs, fun n g => (htracks.ok.lookup_iff n g).mp⟩
  · intro g hg g' hg' hne n hn hn'
    exact hne (htracks.ok.group_unique hg hg' hn hn')
  · have hpaired : (∃ c, SymmGen (fun x y => (x, y) ∈ calls) a c) ↔ Occurs calls a := by
      constructor
      · rintro ⟨c, hac | hca⟩
        · exact ⟨(a, c), hac, .inl rfl⟩
        · exact ⟨(c, a), hca, .inr rfl⟩
      · rintro ⟨call, hcall, rfl | rfl⟩
        · exact ⟨call.2, .inl hcall⟩
        · exact ⟨call.1, .inr hcall⟩
    rw [transGen_symmGen_iff, hpaired, ← htracks.sameGroup_iff, ← hoccurs]
    constructor
    · rintro ⟨g, hg, ha, hb⟩
      have hlook := (htracks.ok.lookup_iff a g).mpr ⟨hg, ha⟩
      exact ⟨.inr ⟨g, hlook, (htracks.ok.lookup_iff b g).mpr ⟨hg, hb⟩⟩, g, hlook⟩
    · rintro ⟨rfl | ⟨g, ha, hb⟩, k, hk⟩
      · obtain ⟨hg, ha⟩ := (htracks.ok.lookup_iff a k).mp hk
        exact ⟨k, hg, ha, ha⟩
      · obtain ⟨hg, ha⟩ := (htracks.ok.lookup_iff a g).mp ha
        exact ⟨g, hg, ha, ((htracks.ok.lookup_iff b g).mp hb).2⟩

end MergeGroups

end Noelle
