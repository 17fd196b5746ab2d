import Noelle.LoopForest.Deletion

/-!
# LoopForest.Filtering

Filtering a loop forest: `Noelle::filterOutLoops`.

The visits meet every node once, so the filtered nodes are destroyed once each and the
trees that are left are right.  But the destructor of a node does not unregister it from
the maps of the forest: `LoopForest::getNode` still finds a destroyed node, and
`LoopForest::~LoopForest` destroys it again.
-/

namespace Noelle

open Relation List

/-- A loop that collects duplicate-free lists without common elements. -/
theorem foldlM_append_spec {α β : Type} (g : α → Option (List β)) (R : α → β → Prop) {l : List α}
    (hl : l.Nodup) (hg : ∀ a ∈ l, ∃ r, g a = some r ∧ r.Nodup ∧ ∀ b, b ∈ r ↔ R a b)
    (hdisjoint : ∀ a ∈ l, ∀ a' ∈ l, ∀ b, R a b → R a' b → a = a') :
    ∃ r, l.foldlM (fun met a => (g a).map (met ++ ·)) [] = some r ∧ r.Nodup ∧
      ∀ b, b ∈ r ↔ ∃ a ∈ l, R a b := by
  refine foldlM_rule _ (fun (pre : List α) (r : List β) => r.Nodup ∧ ∀ b, b ∈ r ↔ ∃ a ∈ pre, R a b)
    ⟨nodup_nil, by simp⟩ ?_
  rintro pre a post met rfl ⟨hmet, hmem⟩
  obtain ⟨r, hr, hnodup, hriff⟩ := hg a (by simp)
  have hapre : a ∉ pre := fun h => (nodup_append.mp hl).2.2 a h a (.head _) rfl
  refine ⟨met ++ r, by rw [hr]; rfl, hmet.append hnodup fun b hb hb' => ?_, fun b => ?_⟩
  · obtain ⟨a', ha', hR⟩ := (hmem b).mp hb
    have heq := hdisjoint a' (by simp [ha']) a (by simp) b hR ((hriff b).mp hb')
    exact hapre (heq ▸ ha')
  · rw [mem_append, hmem, hriff]
    simp only [mem_append, mem_singleton]
    constructor
    · rintro (⟨a', ha', hR⟩ | hR)
      · exact ⟨a', .inl ha', hR⟩
      · exact ⟨a, .inr rfl, hR⟩
    · rintro ⟨a', ha' | rfl, hR⟩
      · exact .inl ⟨a', ha', hR⟩
      · exact .inr hR

namespace LoopForest

variable {F B : Type} {ord : IterOrder} {f f' : LoopForest F B} {n m p : Nat}

/-! ## Visits -/

variable (ord) in
/-- The visit lists every node below, once. -/
theorem visitPreOrder_spec (h : f.Nested) {height : Nat → Nat}
    (hheight : ∀ n p, f.Parent n p → height n < height p) :
    ∀ {fuel : Nat} {n : Nat} {c : LoopTreeNode F B}, f.heap n = some c → height n < fuel →
      ∃ l, f.visitPreOrder ord fuel n = some l ∧ l.Nodup ∧
        ∀ m, m ∈ l ↔ ReflTransGen f.Parent m n
  | 0, n, c, _, hlt => nomatch hlt
  | fuel + 1, n, c, hc, hlt => by
      have hchild : ∀ m, m ∈ ord.visit c.children.elems ↔ f.Parent m n := fun m =>
        ord.mem_visit.trans (h.mirror n c hc m)
      obtain ⟨below, hbelow, hnodup, hmem⟩ := foldlM_append_spec (f.visitPreOrder ord fuel)
        (fun child m => ReflTransGen f.Parent m child) (ord.nodup_visit c.children.nodup)
        (fun child hchild' => by
          have hparent := (hchild child).mp hchild'
          obtain ⟨d, hd, -⟩ := id hparent
          exact visitPreOrder_spec h hheight hd
            (Nat.lt_of_lt_of_le (hheight child n hparent) (Nat.le_of_lt_succ hlt)))
        (fun a ha b hb m => h.sibling_disjoint ((hchild a).mp ha) ((hchild b).mp hb))
      have hiff : ∀ m, m ∈ below ↔ TransGen f.Parent m n := fun m => by
        rw [hmem, TransGen.tail'_iff]
        exact ⟨fun ⟨a, ha, hma⟩ => ⟨a, hma, (hchild a).mp ha⟩,
          fun ⟨a, hma, ha⟩ => ⟨a, (hchild a).mpr ha, hma⟩⟩
      refine ⟨n :: below, ?_, ?_, fun m => ?_⟩
      · have hbody : (fun met child => do return met ++ (← f.visitPreOrder ord fuel child)) =
            fun (met : List Nat) child => (f.visitPreOrder ord fuel child).map (met ++ ·) := by
          funext met child
          cases f.visitPreOrder ord fuel child <;> rfl
        rw [visitPreOrder, hc]
        simp only [Option.bind_eq_bind, Option.bind_some] at hbody ⊢
        rw [hbody, hbelow]
        rfl
      · exact nodup_cons.mpr ⟨fun hn => h.acyclic n ((hiff n).mp hn), hnodup⟩
      · rw [mem_cons, hiff, reflTransGen_iff_eq_or_transGen]
        exact or_congr_left eq_comm

/-! ## Filtering -/

/-- `p` is the nearest ancestor of `n` that the filter keeps. -/
def NearestKept (f : LoopForest F B) (filter : LoopStructure F B → Bool) (n p : Nat) : Prop :=
  TransGen f.Parent n p ∧ (∀ l, f.Holds p l → filter l = false) ∧
    ∀ a, TransGen f.Parent n a → (∀ l, f.Holds a l → filter l = false) →
      a = p ∨ TransGen f.Parent p a

/-- The trees after filtering: the kept loops, with the nearest kept ancestors as parents. -/
structure FilteredTrees (f : LoopForest F B) (filter : LoopStructure F B → Bool)
    (f' : LoopForest F B) : Prop where
  nested : f'.Nested
  holds : ∀ n l, f'.Holds n l ↔ f.Holds n l ∧ filter l = false
  parent : ∀ n l p, f'.Holds n l → (f'.Parent n p ↔ f.NearestKept filter n p)
  root : ∀ n l, f'.Holds n l → (n ∈ f'.trees ↔ ¬ ∃ p, f.NearestKept filter n p)

theorem isFiltered_eq (filter : LoopStructure F B → Bool) {l : LoopStructure F B}
    (h : f.Holds n l) : f.isFiltered filter n = filter l := by
  obtain ⟨c, hc, rfl⟩ := holds_iff.mp h
  simp [isFiltered, hc]

variable (ord) in
/-- Exactly the loops that the filter selects are taken out. -/
theorem filterOutLoops_spec (h : f.Nested) (filter : LoopStructure F B → Bool) {fuel : Nat}
    (hfuel : f.nextNode ≤ fuel) :
    ∃ f' toDelete, f.filterOutLoops ord filter fuel = some f' ∧ Without f toDelete f' ∧
      ∀ n l, f.Holds n l → (n ∈ toDelete ↔ filter l = true) := by
  obtain ⟨height, hheight, hbound⟩ := h.exists_height
  have htree : ∀ tree ∈ ord.visit f.trees.elems, ∃ c, f.heap tree = some c := fun tree ht => by
    obtain ⟨c, hc, -⟩ := (h.trees tree).mp (ord.mem_visit.mp ht)
    exact ⟨c, hc⟩
  obtain ⟨toDelete, hdelete, hnodup, hmem⟩ := foldlM_append_spec
    (fun tree => (f.visitPreOrder ord fuel tree).map (List.filter (f.isFiltered filter)))
    (fun tree m => ReflTransGen f.Parent m tree ∧ f.isFiltered filter m = true)
    (ord.nodup_visit f.trees.nodup)
    (fun tree ht => by
      obtain ⟨c, hc⟩ := htree tree ht
      obtain ⟨l, hl, hlnodup, hlmem⟩ := visitPreOrder_spec ord h hheight hc
        (Nat.lt_of_lt_of_le (hbound tree c hc) hfuel)
      exact ⟨_, by rw [hl]; rfl, hlnodup.filter _, fun m => by rw [mem_filter, hlmem]⟩)
    (fun a ha b hb m hma hmb => by
      rcases ancestors_chain hma.1 hmb.1 with hab | hba
      · exact (h.tree_root (ord.mem_visit.mp ha) hab).symm
      · exact h.tree_root (ord.mem_visit.mp hb) hba)
  have hfiltered : ∀ n, f.isFiltered filter n = true → ∃ c, f.heap n = some c := fun n hn => by
    unfold isFiltered at hn
    cases hc : f.heap n with
    | none => simp [hc] at hn
    | some c => exact ⟨c, rfl⟩
  obtain ⟨f', hf', hwithout⟩ := foldlM_deleteNode ord h hnodup fun n hn => by
    obtain ⟨_, _, _, hn⟩ := (hmem n).mp hn
    exact hfiltered n hn
  refine ⟨f', toDelete, ?_, hwithout, fun n l hl => ?_⟩
  · have hbody : (fun toDelete tree => do
        return toDelete ++ (← f.visitPreOrder ord fuel tree).filter (f.isFiltered filter)) =
        fun (toDelete : List Nat) tree =>
          ((f.visitPreOrder ord fuel tree).map (List.filter (f.isFiltered filter))).map
            (toDelete ++ ·) := by
      funext toDelete tree
      cases f.visitPreOrder ord fuel tree <;> rfl
    unfold filterOutLoops
    rw [hbody, hdelete]
    exact hf'
  · rw [hmem, ← isFiltered_eq filter hl]
    constructor
    · rintro ⟨_, _, _, hn⟩
      exact hn
    · intro hn
      obtain ⟨c, hc, -⟩ := holds_iff.mp hl
      obtain ⟨tree, ⟨ht, hpath⟩, -⟩ := h.existsUnique_tree hc
      exact ⟨tree, ord.mem_visit.mpr ht, hpath, hn⟩

/-- What is left is the forest of the loops that the filter keeps. -/
theorem Without.filteredTrees {toDelete : List Nat} {filter : LoopStructure F B → Bool}
    (h : f.Nested) (hf' : Without f toDelete f')
    (hmem : ∀ n l, f.Holds n l → (n ∈ toDelete ↔ filter l = true)) :
    f.FilteredTrees filter f' := by
  have hkept : ∀ a l, f.Holds a l → (a ∉ toDelete ↔ ∀ l, f.Holds a l → filter l = false) := by
    intro a l hl
    rw [hmem a l hl, Bool.not_eq_true]
    refine ⟨fun hfalse l' hl' => ?_, fun hall => hall l hl⟩
    rw [← Option.mem_unique hl hl']
    exact hfalse
  have hholds : ∀ n l, f'.Holds n l ↔ f.Holds n l ∧ filter l = false := fun n l => by
    unfold Holds
    rw [hf'.heap]
    by_cases hn : n ∈ toDelete
    · rw [if_pos hn]
      refine iff_of_false (by simp) fun ⟨hl, hfalse⟩ => ?_
      simp [(hmem n l hl).mp hn] at hfalse
    · rw [if_neg hn]
      refine ⟨fun hl => ⟨hl, ?_⟩, And.left⟩
      exact Bool.not_eq_true _ ▸ fun htrue => hn ((hmem n l hl).mpr htrue)
  have hparent : ∀ n l p, f'.Holds n l → (f'.Parent n p ↔ f.NearestKept filter n p) := by
    intro n l p hl
    have hn : n ∉ toDelete := fun hn => by
      obtain ⟨hfl, hfalse⟩ := (hholds n l).mp hl
      simp [(hmem n l hfl).mp hn] at hfalse
    have hanc : ∀ a, TransGen f'.Parent n a ↔
        TransGen f.Parent n a ∧ ∀ l, f.Holds a l → filter l = false := fun a => by
      rw [hf'.ancestor]
      refine and_congr_right fun ha => ?_
      obtain ⟨l', hl'⟩ := h.ancestor_live ha
      rw [and_iff_right hn, hkept a l' hl']
    rw [parent_iff_nearest (fun hp hq => hp.unique hq) hf'.nested.acyclic, hanc, and_assoc]
    refine and_congr_right fun hnp => and_congr_right fun hp => ?_
    obtain ⟨lp, hlp⟩ := h.ancestor_live hnp
    have hpkept : p ∉ toDelete := (hkept p lp hlp).mpr hp
    constructor
    · intro hall a hna ha
      refine (hall a ((hanc a).mpr ⟨hna, ha⟩)).imp_right fun hpa => ?_
      exact ((hf'.ancestor p a).mp hpa).1
    · intro hall a hna
      obtain ⟨hna, ha⟩ := (hanc a).mp hna
      obtain ⟨la, hla⟩ := h.ancestor_live hna
      refine (hall a hna ha).imp_right fun hpa => (hf'.ancestor p a).mpr ⟨hpa, hpkept, ?_⟩
      exact (hkept a la hla).mpr ha
  refine ⟨hf'.nested, hholds, hparent, fun n l hl => ?_⟩
  obtain ⟨c, hc, -⟩ := holds_iff.mp hl
  have hroot : n ∈ f'.trees ↔ c.parent = none := by
    rw [hf'.nested.trees]
    refine ⟨fun ⟨d, hd, hdnone⟩ => ?_, fun hnone => ⟨c, hc, hnone⟩⟩
    exact Option.mem_unique hd hc ▸ hdnone
  have hnone : c.parent = none ↔ ¬ ∃ p, f'.Parent n p := by
    rw [Option.eq_none_iff_forall_ne_some, not_exists]
    refine forall_congr' fun p => not_congr ⟨fun hp => ⟨c, hc, hp⟩, fun ⟨d, hd, hp⟩ => ?_⟩
    exact Option.mem_unique hd hc ▸ hp
  rw [hroot, hnone, exists_congr fun p => hparent n l p hl]

/-! ## Destroying the forest -/

section Registered

variable [DecidableEq F] [DecidableEq B]

/-- What filtering should establish. -/
structure FilteredForest (f : LoopForest F B)
    (filter : LoopStructure F B → Bool) (f' : LoopForest F B) : Prop where
  trees : f.FilteredTrees filter f'
  getNode_removed : ∀ n l, f.Holds n l → filter l = true → f'.getNode l = none
  getNode_kept : ∀ n l, f.Holds n l → filter l = false → f'.getNode l = some n
  /-- The destructor of the forest destroys each node, and none of them twice. -/
  destroy : ∀ ord, ∃ f'', f'.destroy ord = some f'' ∧ ∀ n, f''.heap n = none

theorem mem_nodePointers : n ∈ ord.visit (f.nodes.entries.map (·.2)) ↔
    ∃ l, f.nodes.lookup l = some n := by
  rw [ord.mem_visit, mem_map]
  constructor
  · rintro ⟨⟨l, n⟩, hmem, rfl⟩
    exact ⟨l, AList.mem_lookup_iff.mpr hmem⟩
  · rintro ⟨l, hl⟩
    exact ⟨⟨l, n⟩, AList.mem_lookup_iff.mp hl, rfl⟩

/-- The destructor frees every node once. -/
theorem destroy_spec (h : f.Nested) (hreg : f.Registered) :
    ∃ f'', f.destroy ord = some f'' ∧ ∀ n, f''.heap n = none := by
  have hnodup : (ord.visit (f.nodes.entries.map (·.2))).Nodup := by
    refine ord.nodup_visit (List.Nodup.map_on ?_ f.nodes.nodupKeys.nodup)
    rintro ⟨l, n⟩ hl ⟨l', n'⟩ hl' rfl
    have hn := (hreg.nodes l n).mp (AList.mem_lookup_iff.mpr hl)
    have hn' := (hreg.nodes l' n).mp (AList.mem_lookup_iff.mpr hl')
    rw [Option.mem_unique hn hn']
  obtain ⟨f'', hf'', hwithout⟩ := foldlM_deleteNode ord h hnodup fun n hn => by
    obtain ⟨l, hl⟩ := mem_nodePointers.mp hn
    obtain ⟨c, hc, -⟩ := holds_iff.mp ((hreg.nodes l n).mp hl)
    exact ⟨c, hc⟩
  refine ⟨f'', hf'', fun n => ?_⟩
  have hnone : (f''.heap n).map (·.loop) = none := by
    rw [hwithout.heap]
    by_cases hn : n ∈ ord.visit (f.nodes.entries.map (·.2))
    · exact if_pos hn
    · rw [if_neg hn]
      cases hc : f.heap n with
      | none => rfl
      | some c =>
          have hl : f.Holds n c.loop := holds_iff.mpr ⟨c, hc, rfl⟩
          exact absurd (mem_nodePointers.mpr ⟨c.loop, (hreg.nodes c.loop n).mpr hl⟩) hn
  exact Option.map_eq_none_iff.mp hnone

/-- Filtering is right if and only if nothing is filtered out: the maps keep the destroyed
nodes. -/
theorem filterOutLoops_correct_iff (h : f.Nested) (hreg : f.Registered)
    (filter : LoopStructure F B → Bool) {fuel : Nat} (hfuel : f.nextNode ≤ fuel) :
    (∃ f', f.filterOutLoops ord filter fuel = some f' ∧ f.FilteredForest filter f') ↔
      ∀ n l, f.Holds n l → filter l = false := by
  obtain ⟨f', toDelete, hf', hwithout, hmem⟩ := filterOutLoops_spec ord h filter hfuel
  constructor
  · rintro ⟨f₁, hf₁, hright⟩ n l hl
    obtain rfl := Option.mem_unique hf' hf₁
    by_contra htrue
    have hnone := hright.getNode_removed n l hl (Bool.not_eq_false _ ▸ htrue)
    have hsome : f.headerLoops.lookup l.header = some n := (hreg.headerLoops _ n).mpr ⟨l, hl, rfl⟩
    rw [← hwithout.headerLoops] at hsome
    exact absurd (hnone.symm.trans hsome) (Option.some_ne_none n).symm
  · intro hkeep
    have htrees := hwithout.filteredTrees h hmem
    have hholds : ∀ n l, f'.Holds n l ↔ f.Holds n l := fun n l =>
      (htrees.holds n l).trans (and_iff_left_of_imp (hkeep n l))
    have hreg' : f'.Registered := by
      refine ⟨fun l n => ?_, fun b n => ?_⟩
      · rw [hwithout.nodes, hreg.nodes, hholds]
      · rw [hwithout.headerLoops, hreg.headerLoops]
        simp only [hholds]
    refine ⟨f', hf', htrees, fun n l hl htrue => ?_, fun n l hl _ => ?_, fun ord =>
      destroy_spec hwithout.nested hreg'⟩
    · exact absurd htrue (by simp [hkeep n l hl])
    · exact (hreg'.headerLoops _ n).mpr ⟨l, (hholds n l).mpr hl, rfl⟩

end Registered

/-! ## A nest of two loops -/

/-- A loop of the blocks `header`, …, `2`. -/
def nestLoop (header : Fin 3) : LoopStructure Unit (Fin 3) where
  self := header
  function := ()
  header := header
  depth := header
  bbs := ⟨[1, 2].drop (header - 1), by revert header; decide⟩

/-- The loop of the block `1` with the loop of the block `2` inside. -/
def nestForest : LoopForest Unit (Fin 3) where
  heap
    | 0 => some ⟨nestLoop 1, none, ⟨[1], by decide⟩⟩
    | 1 => some ⟨nestLoop 2, some 0, ∅⟩
    | _ => none
  nextNode := 2
  nodes := (AList.insert (nestLoop 1) 0 ∅).insert (nestLoop 2) 1
  functionLoops _ := ⟨[nestLoop 1, nestLoop 2], by decide⟩
  headerLoops := (AList.insert 1 0 ∅).insert 2 1
  trees := ⟨[0], nodup_zero⟩

theorem nestForest_parent_iff : nestForest.Parent n p ↔ n = 1 ∧ p = 0 := by
  constructor
  · rintro ⟨c, hc, hp⟩
    match n, hc with
    | 0, hc => simp [← Option.some.inj hc] at hp
    | 1, hc =>
        rw [← Option.some.inj hc] at hp
        exact ⟨rfl, (Option.some.inj hp).symm⟩
  · rintro ⟨rfl, rfl⟩
    exact ⟨_, rfl, rfl⟩

theorem nestForest_holds_iff {l : LoopStructure Unit (Fin 3)} :
    nestForest.Holds n l ↔ (n = 0 ∧ l = nestLoop 1) ∨ (n = 1 ∧ l = nestLoop 2) := by
  match n with
  | 0 => simp [Holds, nestForest, eq_comm]
  | 1 => simp [Holds, nestForest, eq_comm]
  | n + 2 => simp [Holds, nestForest]

/-- The sample forest is nested. -/
theorem nestForest_nested : nestForest.Nested where
  mirror p c hc n := by
    rw [nestForest_parent_iff]
    match p, hc with
    | 0, hc =>
        rw [← Option.some.inj hc]
        simp [← PtrSet.mem_elems]
    | 1, hc =>
        rw [← Option.some.inj hc]
        simp
  parent_live n p h := by
    obtain ⟨-, rfl⟩ := nestForest_parent_iff.mp h
    exact ⟨_, rfl⟩
  trees n := by
    match n with
    | 0 => exact iff_of_true (by decide) ⟨_, rfl, rfl⟩
    | 1 =>
        refine iff_of_false (by decide) fun ⟨c, hc, hnone⟩ => ?_
        rw [← Option.some.inj hc] at hnone
        exact Option.some_ne_none 0 hnone
    | n + 2 =>
        refine iff_of_false (fun h => ?_) fun ⟨c, hc, _⟩ => Option.some_ne_none c hc.symm
        exact absurd (mem_singleton.mp h) (by omega)
  acyclic n h := by
    obtain ⟨q, hnq, -⟩ := TransGen.head'_iff.mp h
    obtain ⟨q', -, hqn⟩ := TransGen.tail'_iff.mp h
    have h1 := (nestForest_parent_iff.mp hnq).1
    have h0 := (nestForest_parent_iff.mp hqn).2
    omega
  fresh n h := by
    match n, h with
    | n + 2, _ => rfl

/-- The maps of the sample forest know its nodes. -/
theorem nestForest_registered : nestForest.Registered where
  nodes l n := by
    rw [nestForest_holds_iff]
    unfold nestForest
    dsimp only
    by_cases h2 : l = nestLoop 2
    · rw [h2, AList.lookup_insert]
      have hne : nestLoop 2 ≠ nestLoop 1 := by decide
      simp [hne, eq_comm]
    · rw [AList.lookup_insert_ne h2]
      by_cases h1 : l = nestLoop 1
      · rw [h1, AList.lookup_insert]
        have hne : nestLoop 1 ≠ nestLoop 2 := by decide
        simp [hne, eq_comm]
      · rw [AList.lookup_insert_ne h1]
        simp [h1, h2]
  headerLoops b n := by
    simp only [nestForest_holds_iff]
    unfold nestForest
    dsimp only
    match b with
    | 0 =>
        rw [AList.lookup_insert_ne (by decide), AList.lookup_insert_ne (by decide)]
        refine iff_of_false (Option.some_ne_none n).symm ?_
        rintro ⟨l, ⟨-, rfl⟩ | ⟨-, rfl⟩, h⟩ <;> exact absurd h (by decide)
    | 1 =>
        rw [AList.lookup_insert_ne (by decide), AList.lookup_insert]
        constructor
        · intro h
          exact ⟨nestLoop 1, .inl ⟨(Option.some.inj h).symm, rfl⟩, rfl⟩
        · rintro ⟨l, ⟨rfl, -⟩ | ⟨-, rfl⟩, h⟩
          · rfl
          · exact absurd h (by decide)
    | 2 =>
        rw [AList.lookup_insert]
        constructor
        · intro h
          exact ⟨nestLoop 2, .inr ⟨(Option.some.inj h).symm, rfl⟩, rfl⟩
        · rintro ⟨l, ⟨-, rfl⟩ | ⟨rfl, -⟩, h⟩
          · exact absurd h (by decide)
          · rfl

/-- Nothing is filtered out of the nest. -/
theorem nestForest_keep : ∃ f', nestForest.filterOutLoops .stored (fun _ => false) 2 = some f' ∧
    nestForest.FilteredForest (fun _ => false) f' :=
  (filterOutLoops_correct_iff nestForest_nested nestForest_registered _ le_rfl).mpr
    fun _ _ _ => rfl

/-- After the inner loop was filtered out, the forest still finds it, and its own destructor
destroys it a second time. -/
theorem nestForest_filtered : nestForest.Nested ∧ nestForest.Registered ∧
    ∃ f', nestForest.filterOutLoops .stored (fun l => decide (l.header = 2)) 2 = some f' ∧
      (f'.heap 1).isNone = true ∧ f'.getNode (nestLoop 2) = some 1 ∧
      (f'.destroy .stored).isNone = true :=
  ⟨nestForest_nested, nestForest_registered, _, rfl, rfl, by decide, by decide⟩

end LoopForest

end Noelle
