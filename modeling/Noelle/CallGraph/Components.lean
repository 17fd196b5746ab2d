import Noelle.CallGraph.Construction
import Noelle.CallGraph.Islands

/-!
# CallGraph.Components

The islands of a call graph are its connected components.

While one island is explored it holds functions connected to its first one, and a
function of it has all its neighbours in it unless its node is on the stack.  Merging
islands along the uses of addresses adds pairs to the generated equivalence, one use
after the other.
-/

namespace Noelle

open Function Relation PtrSet List

namespace CallGraph

variable {F I : Type} [DecidableEq F] [DecidableEq I]

/-- Some instruction of `f` uses the address of `f'`. -/
def UsesAddress (M : IRModule F I) (f f' : F) : Prop :=
  f' ∈ M.functions ∧ ∃ use ∈ M.uses f', use.asCallee = false ∧ ∃ i ∈ use.user, M.getFunction i = f

/-- The function has a node in the island. -/
def InIsland (s : Islands F) (island : Nat) (f : F) : Prop :=
  ((s.functions island).lookup f).isSome = true

instance (s : Islands F) (island : Nat) (f : F) : Decidable (InIsland s island f) :=
  inferInstanceAs (Decidable (_ = true))

/-- The map and the islands agree, and islands are the classes of `R` among the
functions `V`. -/
structure IslandsOk (V : F → Prop) (R : F → F → Prop) (s : Islands F) : Prop where
  lookup_iff : ∀ f i, s.islands.lookup f = some i ↔ i ∈ s.live ∧ InIsland s i f
  isSome_iff : ∀ f, (s.islands.lookup f).isSome = true ↔ V f
  separates : Separates V R s.islands.lookup
  fresh : ∀ i ∈ s.live, i < s.nextAddr

variable {g : CallGraph F I} {ord : IterOrder} {s₀ s s' s'' : IslandSearch F} {root f : F}
  {island : Nat} {node : CallGraphFunctionNode F} {e : CallGraphFunctionFunctionEdge F}

/-! ## Exploring one island -/

/-- The island `island` of `root` is being explored, after the islands of `s₀`. -/
structure Exploring (g : CallGraph F I) (s₀ : IslandSearch F) (root : F) (island : Nat)
    (s : IslandSearch F) : Prop where
  root_mem : InIsland s.toIslands island root
  reach : ∀ f, InIsland s.toIslands island f → EqvGen g.CallsFunction root f
  has_node : ∀ f, InIsland s.toIslands island f → (g.functions.lookup f).isSome = true
  visited_iff : ∀ f, f ∈ s.visited ↔ f ∈ s₀.visited ∨ InIsland s.toIslands island f
  islands_eq : ∀ f, s.islands.lookup f =
    if InIsland s.toIslands island f then some island else s₀.islands.lookup f
  functions_eq : ∀ i, i ≠ island → s.functions i = s₀.functions i
  mem_live : ∀ i, i ∈ s.live ↔ i = island ∨ i ∈ s₀.live
  nextAddr_lt : island < s.nextAddr
  todos_ok : ∀ n ∈ s.todos, g.functions.lookup n.f = some n ∧ InIsland s.toIslands island n.f

/-- From `s` to `s'` the island grew, and new functions are on the stack. -/
structure Grows (island : Nat) (s s' : IslandSearch F) : Prop where
  mono : ∀ f, InIsland s.toIslands island f → InIsland s'.toIslands island f
  todos_mono : ∀ n ∈ s.todos, n ∈ s'.todos
  new : ∀ f, InIsland s'.toIslands island f →
    InIsland s.toIslands island f ∨ ∃ n ∈ s'.todos, n.f = f

theorem Grows.refl (island : Nat) (s : IslandSearch F) : Grows island s s :=
  ⟨fun _ => id, fun _ => id, fun _ => .inl⟩

theorem Grows.trans (h : Grows island s s') (h' : Grows island s' s'') : Grows island s s'' where
  mono := fun f hf => h'.mono f (h.mono f hf)
  todos_mono := fun n hn => h'.todos_mono n (h.todos_mono n hn)
  new := fun f hf => by
    rcases h'.new f hf with hf | hnew
    · rcases h.new f hf with hf | ⟨n, hn, hnf⟩
      · exact .inl hf
      · exact .inr ⟨n, h'.todos_mono n hn, hnf⟩
    · exact .inr hnew

/-- Functions outside the island count twice, nodes on the stack once. -/
def searchMeasure (g : CallGraph F I) (island : Nat) (s : IslandSearch F) : Nat :=
  2 * (g.functions.keys.filter fun f => decide (¬ InIsland s.toIslands island f)).length +
    s.todos.length

theorem inIsland_addToIsland :
    InIsland (addToIsland s f island).toIslands island root ↔
      root = f ∨ InIsland s.toIslands island root := by
  have heq : (addToIsland s f island).functions island =
      (s.functions island).insert f ⟨s.nextAddr, f⟩ := update_self ..
  unfold InIsland
  rw [heq]
  by_cases hf : root = f
  · subst hf
    simp
  · simp [AList.lookup_insert_ne hf, hf]

omit [DecidableEq I] in
/-- A function is visited once and joins the island. -/
theorem Exploring.visitEnd (h : Exploring g s₀ root island s)
    (hclosed : ClosedUnder g.CallsFunction (· ∈ s₀.visited)) (hroot : root ∉ s₀.visited)
    (hnode : g.functions.lookup node.f = some node) (hreach : EqvGen g.CallsFunction root node.f) :
    ∃ s', CallGraph.visitEnd island s node = some s' ∧ Exploring g s₀ root island s' ∧
      Grows island s s' ∧ InIsland s'.toIslands island node.f ∧
      searchMeasure g island s' ≤ searchMeasure g island s := by
  unfold CallGraph.visitEnd
  by_cases hin : InIsland s.toIslands island node.f
  · exact ⟨s, if_pos hin, h, .refl island s, hin, le_rfl⟩
  · have hvisited : node.f ∉ s.visited := fun hmem =>
      ((h.visited_iff _).mp hmem).elim (fun hold => hroot ((hclosed.eqvGen hreach).mpr hold)) hin
    let s' : IslandSearch F := { addToIsland s node.f island with todos := node :: s.todos }
    have hmem : ∀ f, InIsland s'.toIslands island f ↔ f = node.f ∨ InIsland s.toIslands island f :=
      fun f => inIsland_addToIsland
    refine ⟨s', by rw [if_neg (by exact hin), if_neg hvisited], ?_, ?_, (hmem _).mpr (.inl rfl), ?_⟩
    · refine
        { root_mem := (hmem _).mpr (.inr h.root_mem)
          reach := ?_
          has_node := ?_
          visited_iff := ?_
          islands_eq := ?_
          functions_eq := ?_
          mem_live := h.mem_live
          nextAddr_lt := Nat.lt_succ_of_lt h.nextAddr_lt
          todos_ok := ?_ }
      · intro f hf
        rcases (hmem f).mp hf with rfl | hf
        · exact hreach
        · exact h.reach f hf
      · intro f hf
        rcases (hmem f).mp hf with rfl | hf
        · rw [hnode]
          rfl
        · exact h.has_node f hf
      · intro f
        rw [hmem, or_left_comm, ← h.visited_iff]
        exact mem_insert
      · intro f
        change (s.islands.insert node.f island).lookup f = _
        by_cases hf : f = node.f
        · subst hf
          rw [AList.lookup_insert, if_pos ((hmem _).mpr (.inl rfl))]
        · rw [AList.lookup_insert_ne hf, h.islands_eq]
          exact if_congr ((hmem f).trans (or_iff_right hf)).symm rfl rfl
      · intro i hi
        exact (update_of_ne hi ..).trans (h.functions_eq i hi)
      · intro n hn
        rcases mem_cons.mp hn with rfl | hn
        · exact ⟨hnode, (hmem _).mpr (.inl rfl)⟩
        · exact ⟨(h.todos_ok n hn).1, (hmem _).mpr (.inr (h.todos_ok n hn).2)⟩
    · refine ⟨fun f hf => (hmem f).mpr (.inr hf), fun n hn => .tail _ hn,
        fun f hf => ?_⟩
      rcases (hmem f).mp hf with rfl | hf
      · exact .inr ⟨node, .head _, rfl⟩
      · exact .inl hf
    · have hlt := length_filter_lt (l := g.functions.keys)
        (p := fun f => decide (¬ InIsland s.toIslands island f))
        (q := fun f => decide (¬ InIsland s'.toIslands island f)) (a := node.f)
        (fun f _ hf => by
          rw [decide_eq_true_eq] at hf ⊢
          exact fun hin' => hf ((hmem f).mpr (.inr hin')))
        (AList.mem_keys.mp (AList.lookup_isSome.mp (by rw [hnode]; rfl)))
        (decide_eq_true hin) (decide_eq_false (not_not.mpr ((hmem _).mpr (.inl rfl))))
      have hlen : s'.todos.length = s.todos.length + 1 := rfl
      unfold searchMeasure
      omega

/-- Every edge of the node of `f` ends in the island. -/
def Explored (g : CallGraph F I) (island : Nat) (s : IslandSearch F) (f : F) : Prop :=
  ∀ f', g.CallsFunction f f' ∨ g.CallsFunction f' f → InIsland s.toIslands island f'

/-- A function of the island is explored or has its node on the stack. -/
def Frontier (g : CallGraph F I) (island : Nat) (s : IslandSearch F) : Prop :=
  ∀ f, InIsland s.toIslands island f → (∃ n ∈ s.todos, n.f = f) ∨ Explored g island s f

section

variable (h : Exploring g s₀ root island s) (hok : OpsOk g) (hfrontier : Frontier g island s)
  (hclosed : ClosedUnder g.CallsFunction (· ∈ s₀.visited)) (hroot : root ∉ s₀.visited)

include h hok hfrontier hclosed hroot

variable (ord) in
/-- A step of the search from a root keeps its invariant. -/
theorem Exploring.visitNode (htodos : s.todos ≠ []) :
    ∃ s', CallGraph.visitNode g ord island s = some s' ∧ Exploring g s₀ root island s' ∧
      Frontier g island s' ∧ searchMeasure g island s' < searchMeasure g island s := by
  obtain ⟨n, todos, hstack⟩ := exists_cons_of_ne_nil htodos
  obtain ⟨hnode, hin⟩ := h.todos_ok n (by rw [hstack]; exact .head _)
  let s₁ : IslandSearch F := { s with todos := todos }
  have h₁ : Exploring g s₀ root island s₁ :=
    { h with todos_ok := fun m hm => h.todos_ok m (by rw [hstack]; exact .tail _ hm) }
  have hmeasure : searchMeasure g island s₁ + 1 = searchMeasure g island s := by
    unfold searchMeasure
    rw [hstack]
    rfl
  have hedge : ∀ e, e ∈ (g.getEdges n).elems ↔ e ∈ g.edges ∧ (e.caller = n ∨ e.callee = n) := by
    intro e
    rw [mem_elems, getEdges, mem_insertAll, mem_elems,
      hok.mem_getIncomingEdges, hok.mem_getOutgoingEdges]
    tauto
  have hloop : ∃ s', (ord.visit (g.getEdges n).elems).foldlM (visitEdge island) s₁ = some s' ∧
      Exploring g s₀ root island s' ∧ Grows island s₁ s' ∧
      searchMeasure g island s' ≤ searchMeasure g island s₁ ∧
      ∀ e ∈ ord.visit (g.getEdges n).elems, InIsland s'.toIslands island e.caller.f ∧
        InIsland s'.toIslands island e.callee.f := by
    refine foldlM_rule _ (fun (pre : List (CallGraphFunctionFunctionEdge F)) s' =>
      Exploring g s₀ root island s' ∧ Grows island s₁ s' ∧
      searchMeasure g island s' ≤ searchMeasure g island s₁ ∧
      ∀ e ∈ pre, InIsland s'.toIslands island e.caller.f ∧ InIsland s'.toIslands island e.callee.f)
      ⟨h₁, .refl island s₁, le_rfl, nofun⟩ ?_
    rintro pre e post s₂ hsplit ⟨h₂, hgrow₂, hle₂, hpre⟩
    obtain ⟨he, hends⟩ := (hedge e).mp (ord.mem_visit.mp (by rw [hsplit]; simp))
    have hnodes := hok.edge_nodes e he
    have hcall : EqvGen g.CallsFunction e.caller.f e.callee.f := .rel _ _ ⟨e, he, rfl, rfl⟩
    -- both ends are connected to the root through the current node
    have hcurrent := h.reach n.f hin
    have hcaller : EqvGen g.CallsFunction root e.caller.f := by
      rcases hends with rfl | rfl
      · exact hcurrent
      · exact hcurrent.trans _ _ _ (hcall.symm _ _)
    have hcallee : EqvGen g.CallsFunction root e.callee.f := hcaller.trans _ _ _ hcall
    obtain ⟨s₃, hs₃, h₃, hgrow₃, hin₃, hle₃⟩ := h₂.visitEnd hclosed hroot hnodes.2 hcallee
    obtain ⟨s₄, hs₄, h₄, hgrow₄, hin₄, hle₄⟩ := h₃.visitEnd hclosed hroot hnodes.1 hcaller
    refine ⟨s₄, by rw [visitEdge, hs₃]; exact hs₄, h₄, (hgrow₂.trans hgrow₃).trans hgrow₄,
      (hle₄.trans hle₃).trans hle₂, fun e' he' => ?_⟩
    rcases mem_append.mp he' with he' | he'
    · have hold := hpre e' he'
      exact ⟨hgrow₄.mono _ (hgrow₃.mono _ hold.1), hgrow₄.mono _ (hgrow₃.mono _ hold.2)⟩
    · obtain rfl := mem_singleton.mp he'
      exact ⟨hin₄, hgrow₄.mono _ hin₃⟩
  obtain ⟨s', hs', h', hgrow, hle, hends⟩ := hloop
  refine ⟨s', ?_, h', fun f hf => ?_, by omega⟩
  · unfold CallGraph.visitNode
    rw [hstack]
    simp only [getFunctionNode, hnode, ne_eq, not_true_eq_false, if_false]
    exact hs'
  · rcases hgrow.new f hf with hf | hnew
    · rcases hfrontier f hf with ⟨m, hm, rfl⟩ | hexp
      · rw [hstack] at hm
        rcases mem_cons.mp hm with rfl | hm
        · -- the current node: its edges have just been visited
          right
          rintro f' (⟨e, he, hcaller, rfl⟩ | ⟨e, he, rfl, hcallee⟩)
          · have hend : e.caller = m := by
              have hnodes := (hok.edge_nodes e he).1
              rw [hcaller, hnode] at hnodes
              exact (Option.some.inj hnodes).symm
            exact (hends e (ord.mem_visit.mpr ((hedge e).mpr ⟨he, .inl hend⟩))).2
          · have hend : e.callee = m := by
              have hnodes := (hok.edge_nodes e he).2
              rw [hcallee, hnode] at hnodes
              exact (Option.some.inj hnodes).symm
            exact (hends e (ord.mem_visit.mpr ((hedge e).mpr ⟨he, .inr hend⟩))).1
        · exact .inl ⟨m, hgrow.todos_mono m hm, rfl⟩
      · exact .inr fun f' hf' => hgrow.mono f' (hexp f' hf')
    · exact .inl hnew

variable (ord) in
theorem Exploring.loop {fuel : Nat} (hfuel : searchMeasure g island s ≤ fuel) :
    ∃ s', loopM (fun s => !s.todos.isEmpty) (CallGraph.visitNode g ord island) fuel s = some s' ∧
      Exploring g s₀ root island s' ∧
      ∀ f, InIsland s'.toIslands island f ↔ EqvGen g.CallsFunction root f := by
  have hloop : ∃ s', loopM (fun s => !s.todos.isEmpty) (CallGraph.visitNode g ord island) fuel s =
      some s' ∧ (Exploring g s₀ root island s' ∧ Frontier g island s') ∧
      (!s'.todos.isEmpty) = false := by
    refine loopM_rule (fun s => Exploring g s₀ root island s ∧ Frontier g island s)
      (searchMeasure g island) (fun s hI hc => ?_) fuel s ⟨h, hfrontier⟩ hfuel
    have htodos : s.todos ≠ [] := by simpa using hc
    obtain ⟨s', hs', h', hfrontier', hlt⟩ := hI.1.visitNode ord hok hI.2 hclosed hroot htodos
    exact ⟨s', hs', ⟨h', hfrontier'⟩, hlt⟩
  obtain ⟨s', hs', ⟨h', hfrontier'⟩, hempty⟩ := hloop
  have hnil : s'.todos = [] := by simpa using hempty
  have hexplored : ∀ f, InIsland s'.toIslands island f → Explored g island s' f := fun f hf =>
    (hfrontier' f hf).resolve_left fun ⟨n, hn, _⟩ => by simp [hnil] at hn
  have hclass : ClosedUnder g.CallsFunction (InIsland s'.toIslands island) := fun a b hab =>
    ⟨fun ha => hexplored a ha b (.inl hab), fun hb => hexplored b hb a (.inr hab)⟩
  exact ⟨s', hs', h', hclass.eq_class h'.root_mem h'.reach⟩

end

/-- The loop over the functions: the visited functions are in the islands of their
classes. -/
structure Searching (g : CallGraph F I) (s : IslandSearch F) : Prop where
  islandsOk : IslandsOk (· ∈ s.visited) g.CallsFunction s.toIslands
  closed : ClosedUnder g.CallsFunction (· ∈ s.visited)
  has_node : ∀ f ∈ s.visited, (g.functions.lookup f).isSome = true

omit [DecidableEq I] in
/-- An island that is a whole class completes the search from its root. -/
theorem Exploring.searching (h : Exploring g s₀ root island s) (h₀ : Searching g s₀)
    (hroot : root ∉ s₀.visited) (hnew : island = s₀.nextAddr)
    (hclass : ∀ f, InIsland s.toIslands island f ↔ EqvGen g.CallsFunction root f) :
    Searching g s := by
  have hdisjoint : ∀ f, InIsland s.toIslands island f → f ∉ s₀.visited := fun f hf hmem =>
    hroot ((h₀.closed.eqvGen ((hclass f).mp hf)).mpr hmem)
  have hne : ∀ i ∈ s₀.live, i ≠ island := fun i hi heq => by
    have := h₀.islandsOk.fresh i hi
    omega
  have hsame : ∀ i ∈ s₀.live, ∀ f, InIsland s.toIslands i f ↔ InIsland s₀.toIslands i f :=
    fun i hi f => by
      unfold InIsland
      rw [h.functions_eq i (hne i hi)]
  have hlook : ∀ f, f ∈ s₀.visited → ∃ i ∈ s₀.live, s.islands.lookup f = some i ∧
      s₀.islands.lookup f = some i := fun f hf => by
    obtain ⟨i, hi⟩ := Option.isSome_iff_exists.mp ((h₀.islandsOk.isSome_iff f).mpr hf)
    refine ⟨i, ((h₀.islandsOk.lookup_iff f i).mp hi).1, ?_, hi⟩
    rw [h.islands_eq, if_neg fun hin => hdisjoint f hin hf, hi]
  refine ⟨⟨fun f i => ?_, fun f => ?_, fun a b ha hb => ?_, fun i hi => ?_⟩, fun a b hab => ?_,
    fun f hf => ?_⟩
  · rw [h.islands_eq]
    by_cases hin : InIsland s.toIslands island f
    · rw [if_pos hin, Option.some.injEq]
      constructor
      · rintro rfl
        exact ⟨(h.mem_live _).mpr (.inl rfl), hin⟩
      · rintro ⟨hi, hif⟩
        rcases (h.mem_live i).mp hi with rfl | hi
        · rfl
        · -- an older island holds only visited functions
          have hold := (h₀.islandsOk.lookup_iff f i).mpr ⟨hi, (hsame i hi f).mp hif⟩
          exact absurd ((h₀.islandsOk.isSome_iff f).mp (by rw [hold]; rfl)) (hdisjoint f hin)
    · rw [if_neg hin, h₀.islandsOk.lookup_iff, h.mem_live]
      constructor
      · rintro ⟨hi, hif⟩
        exact ⟨.inr hi, (hsame i hi f).mpr hif⟩
      · rintro ⟨rfl | hi, hif⟩
        · exact absurd hif hin
        · exact ⟨hi, (hsame i hi f).mp hif⟩
  · rw [h.islands_eq, h.visited_iff, ← h₀.islandsOk.isSome_iff]
    by_cases hin : InIsland s.toIslands island f <;> simp [hin]
  · change s.islands.lookup a = s.islands.lookup b ↔ _
    rcases (h.visited_iff a).mp ha with ha | ha <;> rcases (h.visited_iff b).mp hb with hb | hb
    · obtain ⟨i, _, hi, hi₀⟩ := hlook a ha
      obtain ⟨j, _, hj, hj₀⟩ := hlook b hb
      have hold : s₀.islands.lookup a = s₀.islands.lookup b ↔ EqvGen g.CallsFunction a b :=
        h₀.islandsOk.separates a b ha hb
      rw [← hold, hi, hj, hi₀, hj₀]
    · obtain ⟨i, hi, hia, _⟩ := hlook a ha
      rw [hia, h.islands_eq, if_pos hb, Option.some.injEq]
      exact iff_of_false (hne i hi) fun hab => hdisjoint b hb ((h₀.closed.eqvGen hab).mp ha)
    · obtain ⟨i, hi, hib, _⟩ := hlook b hb
      rw [hib, h.islands_eq, if_pos ha, Option.some.injEq]
      exact iff_of_false (hne i hi).symm fun hab => hdisjoint a ha ((h₀.closed.eqvGen hab).mpr hb)
    · rw [h.islands_eq, h.islands_eq, if_pos ha, if_pos hb]
      exact iff_of_true rfl ((((hclass a).mp ha).symm _ _).trans _ _ _ ((hclass b).mp hb))
  · have hlt := h.nextAddr_lt
    rcases (h.mem_live i).mp hi with rfl | hi
    · exact hlt
    · have := h₀.islandsOk.fresh i hi
      omega
  · change a ∈ s.visited ↔ b ∈ s.visited
    rw [h.visited_iff, h.visited_iff, hclass, hclass]
    refine or_congr (h₀.closed a b hab) ?_
    exact ⟨fun ha => ha.trans _ _ _ (.rel _ _ hab),
      fun hb => hb.trans _ _ _ (.symm _ _ (.rel _ _ hab))⟩
  · exact ((h.visited_iff f).mp hf).elim (h₀.has_node f) (h.has_node f)

variable (ord) in
/-- The search from a root ends, with the root visited. -/
theorem Searching.exploreFrom (h : Searching g s) (hok : OpsOk g) {fuel : Nat}
    (hfuel : 2 * g.functions.keys.length + 1 ≤ fuel)
    {fPair : (_ : F) × CallGraphFunctionNode F} (hpair : fPair ∈ g.functions.entries) :
    ∃ s', CallGraph.exploreFrom g ord fuel s fPair = some s' ∧ Searching g s' ∧
      fPair.1 ∈ s'.visited ∧ ∀ f ∈ s.visited, f ∈ s'.visited := by
  have hlook : g.functions.lookup fPair.1 = some fPair.2 := AList.mem_lookup_iff.mpr hpair
  unfold CallGraph.exploreFrom
  by_cases hvisited : fPair.1 ∈ s.visited
  · exact ⟨s, if_pos hvisited, h, hvisited, fun _ => id⟩
  · have hf : fPair.2.f = fPair.1 := hok.nodes _ _ hlook
    let s₁ : IslandSearch F :=
      { addToIsland (newIsland s).2 fPair.1 s.nextAddr with todos := [fPair.2] }
    have hmem : ∀ f, InIsland s₁.toIslands s.nextAddr f ↔ f = fPair.1 := fun f => by
      have hempty : ¬ InIsland (newIsland s).2.toIslands s.nextAddr f := by
        have heq : (newIsland s).2.functions s.nextAddr = ∅ := update_self ..
        unfold InIsland
        rw [heq]
        simp
      exact inIsland_addToIsland.trans (or_iff_left hempty)
    have h₁ : Exploring g s fPair.1 s.nextAddr s₁ :=
      { root_mem := (hmem _).mpr rfl
        reach := fun f hf' => (hmem f).mp hf' ▸ EqvGen.refl _
        has_node := fun f hf' => by
          rw [(hmem f).mp hf', hlook]
          rfl
        visited_iff := fun f => by
          rw [hmem, or_comm]
          exact mem_insert
        islands_eq := fun f => by
          change (s.islands.insert fPair.1 s.nextAddr).lookup f = _
          by_cases hff : f = fPair.1
          · subst hff
            rw [AList.lookup_insert, if_pos ((hmem _).mpr rfl)]
          · rw [AList.lookup_insert_ne hff, if_neg (mt (hmem f).mp hff)]
        functions_eq := fun i hi =>
          (update_of_ne hi ..).trans (update_of_ne hi ..)
        mem_live := fun i => mem_insert
        nextAddr_lt := by
          change s.nextAddr < s.nextAddr + 1 + 1
          omega
        todos_ok := fun n hn => by
          rw [mem_singleton.mp hn, hf]
          exact ⟨hlook, (hmem _).mpr rfl⟩ }
    have hfrontier : Frontier g s.nextAddr s₁ := fun f hf' =>
      .inl ⟨fPair.2, mem_singleton.mpr rfl, hf.trans ((hmem f).mp hf').symm⟩
    have hmeasure : searchMeasure g s.nextAddr s₁ ≤ fuel := by
      have hle := length_filter_le
        (fun f => decide (¬ InIsland s₁.toIslands s.nextAddr f)) g.functions.keys
      have hlen : s₁.todos.length = 1 := rfl
      unfold searchMeasure
      omega
    obtain ⟨s', hs', h', hclass⟩ := h₁.loop ord hok hfrontier h.closed hvisited hmeasure
    rw [if_neg hvisited]
    exact ⟨s', hs', h'.searching h hvisited rfl hclass,
      (h'.visited_iff _).mpr (.inr h'.root_mem),
      fun f hf' => (h'.visited_iff f).mpr (.inl hf')⟩

variable (ord) in
/-- The search ends with one island for each component of the calls. -/
theorem identifyCallGraphIslandsByCallInstructions_spec (hok : OpsOk g) {fuel : Nat}
    (hfuel : 2 * g.functions.keys.length + 1 ≤ fuel) :
    ∃ s, identifyCallGraphIslandsByCallInstructions g ord fuel = some s ∧
      IslandsOk (fun f => (g.functions.lookup f).isSome = true) g.CallsFunction s.toIslands := by
  obtain ⟨s, hs, hsearch, hall⟩ := foldlM_rule (CallGraph.exploreFrom g ord fuel)
    (fun (pre : List ((_ : F) × CallGraphFunctionNode F)) s =>
      Searching g s ∧ ∀ p ∈ pre, p.1 ∈ s.visited)
    (l := ord.visit g.functions.entries)
    (s := { islands := ∅, functions := fun _ => ∅, live := ∅, nextAddr := g.nextAddr, visited := ∅,
            todos := [] })
    ⟨⟨⟨fun f i => by simp, fun f => by simp, fun a b ha => absurd ha (not_mem_empty a),
      fun i hi => absurd hi (not_mem_empty i)⟩, fun a b _ => by simp,
      fun f hf => absurd hf (not_mem_empty f)⟩, nofun⟩
    (by
      rintro pre p post s hsplit ⟨hsearch, hpre⟩
      have hp : p ∈ g.functions.entries := ord.mem_visit.mp (by rw [hsplit]; simp)
      obtain ⟨s', hs', hsearch', hmem, hmono⟩ := hsearch.exploreFrom ord hok hfuel hp
      refine ⟨s', hs', hsearch', fun q hq => ?_⟩
      rcases mem_append.mp hq with hq | hq
      · exact hmono _ (hpre q hq)
      · rw [mem_singleton.mp hq]
        exact hmem)
  have hvisited : ∀ f, f ∈ s.visited ↔ (g.functions.lookup f).isSome = true := fun f => by
    refine ⟨hsearch.has_node f, fun hf => ?_⟩
    obtain ⟨n, hn⟩ := Option.isSome_iff_exists.mp hf
    exact hall ⟨f, n⟩ (ord.mem_visit.mpr (AList.mem_lookup_iff.mp hn))
  have hislands := hsearch.islandsOk
  simp only [hvisited] at hislands
  exact ⟨s, hs, hislands⟩

/-! ## Merging islands -/

section Merging

variable {M : IRModule F I} {V : F → Prop} {R : F → F → Prop} {t t' : Islands F} {f₁ f₂ : F}
  {i₁ i₂ : Nat}

/-- `t'` is `t` after the functions of the island `i₁` were moved to the island `i₂`. -/
structure Moved (t : Islands F) (i₁ i₂ : Nat) (t' : Islands F) : Prop where
  lookup_eq : ∀ f, t'.islands.lookup f =
    if InIsland t i₁ f then some i₂ else t.islands.lookup f
  inIsland_iff : ∀ i f, InIsland t' i f ↔
    i ≠ i₁ ∧ (InIsland t i f ∨ (i = i₂ ∧ InIsland t i₁ f))
  mem_live : ∀ i, i ∈ t'.live ↔ i ≠ i₁ ∧ i ∈ t.live
  nextAddr_eq : t'.nextAddr = t.nextAddr

variable (ord) in
omit [DecidableEq I] in
/-- The functions of one island all move to the other. -/
theorem moveIsland_spec (hne : i₁ ≠ i₂) : Moved t i₁ i₂ (moveIsland ord t i₁ i₂) := by
  let step := fun (s : Islands F) (pair : (_ : F) × CallGraphFunctionNode F) =>
    { s with
      functions := update s.functions i₂ ((s.functions i₂).insert pair.1 pair.2)
      islands := s.islands.insert pair.1 i₂ }
  let t₁ := (ord.visit (t.functions i₁).entries).foldl step t
  have hfold : (∀ f, t₁.islands.lookup f = if f ∈ (ord.visit (t.functions i₁).entries).map (·.1)
      then some i₂ else t.islands.lookup f) ∧
      (∀ f, InIsland t₁ i₂ f ↔
        f ∈ (ord.visit (t.functions i₁).entries).map (·.1) ∨ InIsland t i₂ f) ∧
      (∀ i, i ≠ i₂ → t₁.functions i = t.functions i) ∧ t₁.live = t.live ∧
      t₁.nextAddr = t.nextAddr := by
    refine foldl_rule step (fun (pre : List ((_ : F) × CallGraphFunctionNode F)) s =>
      (∀ f, s.islands.lookup f = if f ∈ pre.map (·.1) then some i₂ else t.islands.lookup f) ∧
      (∀ f, InIsland s i₂ f ↔ f ∈ pre.map (·.1) ∨ InIsland t i₂ f) ∧
      (∀ i, i ≠ i₂ → s.functions i = t.functions i) ∧ s.live = t.live ∧
      s.nextAddr = t.nextAddr) ⟨fun f => by simp, fun f => by simp, fun _ _ => rfl, rfl, rfl⟩ ?_
    rintro pre p post s - ⟨hlook, hin, hfun, hlive, hnext⟩
    refine ⟨fun f => ?_, fun f => ?_, fun i hi => ?_, hlive, hnext⟩
    · change (s.islands.insert p.1 i₂).lookup f = _
      by_cases hf : f = p.1
      · subst hf
        simp
      · rw [AList.lookup_insert_ne hf, hlook]
        exact if_congr (by simp [hf]) rfl rfl
    · have heq : (step s p).functions i₂ = (s.functions i₂).insert p.1 p.2 :=
        update_self ..
      have hstep : InIsland (step s p) i₂ f ↔ f = p.1 ∨ InIsland s i₂ f := by
        unfold InIsland
        rw [heq]
        by_cases hf : f = p.1
        · subst hf
          simp
        · simp [AList.lookup_insert_ne hf, hf]
      rw [hstep, hin]
      simp [or_comm, or_left_comm]
    · exact (update_of_ne hi ..).trans (hfun i hi)
  obtain ⟨hlook, hin, hfun, hlive, hnext⟩ := hfold
  have hkeys : ∀ f, f ∈ (ord.visit (t.functions i₁).entries).map (·.1) ↔ InIsland t i₁ f := by
    intro f
    have hmem : InIsland t i₁ f ↔ f ∈ (t.functions i₁).entries.map (·.1) := AList.lookup_isSome
    simp only [hmem, mem_map, ord.mem_visit]
  refine ⟨fun f => ?_, fun i f => ?_, fun i => ?_, hnext⟩
  · exact (hlook f).trans (if_congr (hkeys f) rfl rfl)
  · by_cases hi₁ : i = i₁
    · subst hi₁
      have heq : (moveIsland ord t i i₂).functions i = ∅ := update_self ..
      unfold InIsland
      rw [heq]
      simp
    · have heq : (moveIsland ord t i₁ i₂).functions i = t₁.functions i := update_of_ne hi₁ ..
      by_cases hi₂ : i = i₂
      · subst hi₂
        have hiff := hin f
        rw [hkeys] at hiff
        unfold InIsland at hiff ⊢
        rw [heq, hiff]
        simp [hi₁, or_comm]
      · unfold InIsland
        rw [heq, hfun i hi₂]
        simp [hi₁, hi₂]
  · change i ∈ t₁.live.erase i₁ ↔ _
    rw [hlive]
    exact mem_erase

/-- Moving an island joins the classes of two functions. -/
theorem IslandsOk.of_moved (h : IslandsOk V R t) (hR : ∀ a b, R a b → V a ∧ V b)
    (hf₁ : t.islands.lookup f₁ = some i₁) (hf₂ : t.islands.lookup f₂ = some i₂) (hne : i₁ ≠ i₂)
    (hmoved : Moved t i₁ i₂ t') : IslandsOk V (withPair R f₂ f₁) t' := by
  have hlive₁ := ((h.lookup_iff _ _).mp hf₁).1
  have hlive₂ := ((h.lookup_iff _ _).mp hf₂).1
  have hin : ∀ f, InIsland t i₁ f ↔ t.islands.lookup f = some i₁ := fun f =>
    ⟨fun hf => (h.lookup_iff f i₁).mpr ⟨hlive₁, hf⟩, fun hf => ((h.lookup_iff f i₁).mp hf).2⟩
  refine ⟨fun f i => ?_, fun f => ?_, ?_, fun i hi => ?_⟩
  · rw [hmoved.lookup_eq, hmoved.mem_live, hmoved.inIsland_iff]
    by_cases hf : InIsland t i₁ f
    · rw [if_pos hf, Option.some.injEq]
      constructor
      · rintro rfl
        exact ⟨⟨hne.symm, hlive₂⟩, hne.symm, .inr ⟨rfl, hf⟩⟩
      · rintro ⟨⟨hi, hlive⟩, -, hif | ⟨rfl, -⟩⟩
        · -- the function is in one old island only
          have heq := (h.lookup_iff f i).mpr ⟨hlive, hif⟩
          rw [(hin f).mp hf, Option.some.injEq] at heq
          exact absurd heq.symm hi
        · rfl
    · rw [if_neg hf, h.lookup_iff]
      constructor
      · rintro ⟨hlive, hif⟩
        have hi : i ≠ i₁ := fun heq => hf (heq ▸ hif)
        exact ⟨⟨hi, hlive⟩, hi, .inl hif⟩
      · rintro ⟨⟨_, hlive⟩, -, hif | ⟨-, hif⟩⟩
        · exact ⟨hlive, hif⟩
        · exact absurd hif hf
  · rw [hmoved.lookup_eq, ← h.isSome_iff]
    by_cases hf : InIsland t i₁ f
    · simp [hf, (hin f).mp hf]
    · simp [hf]
  · have hV : ∀ {f i}, t.islands.lookup f = some i → V f := fun {f i} hf =>
      (h.isSome_iff f).mp (by rw [hf]; rfl)
    have hmerge := h.separates.merge hR (hV hf₂) (hV hf₁)
    intro a b ha hb
    have hab := hmerge a b ha hb
    change t'.islands.lookup a = t'.islands.lookup b ↔ _
    rw [← hab, hmoved.lookup_eq, hmoved.lookup_eq, hf₁, hf₂]
    simp only [hin]
  · rw [hmoved.nextAddr_eq]
    exact h.fresh i ((hmoved.mem_live i).mp hi).2

/-- Two functions are connected by calls and by uses of addresses. -/
def Connected (g : CallGraph F I) (M : IRModule F I) : F → F → Prop :=
  EqvGen fun a b => g.CallsFunction a b ∨ UsesAddress M a b

/-- The islands between two uses: the calls are generators, and every generator
connects. -/
structure Merged (g : CallGraph F I) (M : IRModule F I) (R : F → F → Prop) (t : Islands F) :
    Prop where
  islandsOk : IslandsOk (· ∈ M.functions) R t
  mem : ∀ a b, R a b → a ∈ M.functions ∧ b ∈ M.functions
  calls : ∀ a b, g.CallsFunction a b → R a b
  connected : ∀ a b, R a b → Connected g M a b

/-- The user of the use is in the class of `f`. -/
def UseHandled (M : IRModule F I) (R : F → F → Prop) (f : F) (use : FunctionUse I) : Prop :=
  ∀ i ∈ use.user, EqvGen R f (M.getFunction i)

variable (ord) in
/-- A use that is not the callee of a call is a use of the address, a call of `f` is an
edge of the call graph. -/
theorem OfModule.handleUse (hok : OfModule M g) (h : Merged g M R t) (hf : f ∈ M.functions)
    {use : FunctionUse I} (huse : use ∈ M.uses f) :
    ∃ R' t', CallGraph.handleUse ord M f t use = some t' ∧ Merged g M R' t' ∧
      (∀ a b, R a b → R' a b) ∧ UseHandled M R' f use := by
  unfold CallGraph.handleUse
  cases huser : use.user with
  | none => exact ⟨R, t, rfl, h, fun _ _ => id, fun i hi => by simp [huser] at hi⟩
  | some inst =>
      obtain ⟨hinstF, hinst, hcallee⟩ := M.use_ok f hf use huse inst huser
      by_cases hcall : isCallOf M f inst = true
      · have hkind : (M.kind inst).getCalledFunction = some f := by
          unfold isCallOf at hcall
          split at hcall <;> simp_all [InstKind.getCalledFunction]
        refine ⟨R, t, by simp [hcall], h, fun _ _ => id, fun i hi => ?_⟩
        obtain rfl : inst = i := Option.mem_unique huser hi
        exact .symm _ _ (.rel _ _ (h.calls _ _ (hok.direct _ hinstF _ hinst f hkind).callsFunction))
      · have haddress : UsesAddress M (M.getFunction inst) f := by
          refine ⟨hf, use, huse, ?_, inst, huser, rfl⟩
          cases hc : use.asCallee with
          | false => rfl
          | true =>
              have hkind := hcallee hc
              exact absurd (by cases hk : M.kind inst <;> simp_all [isCallOf, InstKind.getCalledFunction])
                hcall
        obtain ⟨i₁, hi₁⟩ := Option.isSome_iff_exists.mp ((h.islandsOk.isSome_iff _).mpr hinstF)
        obtain ⟨i₂, hi₂⟩ := Option.isSome_iff_exists.mp ((h.islandsOk.isSome_iff _).mpr hf)
        have hconn : Connected g M f (M.getFunction inst) := .symm _ _ (.rel _ _ (.inr haddress))
        have hmem : ∀ a b, withPair R f (M.getFunction inst) a b →
            a ∈ M.functions ∧ b ∈ M.functions := by
          rintro a b (hab | ⟨rfl, rfl⟩)
          · exact h.mem a b hab
          · exact ⟨hf, hinstF⟩
        have hle : ∀ a b, withPair R f (M.getFunction inst) a b → Connected g M a b := by
          rintro a b (hab | ⟨rfl, rfl⟩)
          · exact h.connected a b hab
          · exact hconn
        have hhandled : UseHandled M (withPair R f (M.getFunction inst)) f use := fun i hi => by
          obtain rfl : inst = i := Option.mem_unique huser hi
          exact .rel _ _ (.inr ⟨rfl, rfl⟩)
        have hcalls : ∀ a b, g.CallsFunction a b → withPair R f (M.getFunction inst) a b :=
          fun a b hab => .inl (h.calls a b hab)
        by_cases heq : i₁ = i₂
        · refine ⟨_, t, by simp [hcall, hi₁, hi₂, heq], ⟨⟨h.islandsOk.lookup_iff,
            h.islandsOk.isSome_iff, ?_, h.islandsOk.fresh⟩, hmem, hcalls, hle⟩,
            fun _ _ => .inl, hhandled⟩
          exact h.islandsOk.separates.of_eq hf hinstF (hi₂.trans (heq ▸ hi₁.symm))
        · have hlive₁ := ((h.islandsOk.lookup_iff _ _).mp hi₁).1
          have hlive₂ := ((h.islandsOk.lookup_iff _ _).mp hi₂).1
          exact ⟨_, moveIsland ord t i₁ i₂, by simp [hcall, hi₁, hi₂, heq, hlive₁, hlive₂],
            ⟨h.islandsOk.of_moved h.mem hi₁ hi₂ heq (moveIsland_spec ord heq), hmem, hcalls, hle⟩,
            fun _ _ => .inl, hhandled⟩

variable (ord) in
/-- Every use of every function of the module is handled. -/
theorem OfModule.mergeCallGraphIslandsForEscapedFunctions (hok : OfModule M g)
    (h : Merged g M R t) :
    ∃ R' t', CallGraph.mergeCallGraphIslandsForEscapedFunctions g ord M t = some t' ∧
      Merged g M R' t' ∧ ∀ f ∈ M.functions, ∀ use ∈ M.uses f, UseHandled M R' f use := by
  have huses : ∀ (p : (_ : F) × CallGraphFunctionNode F) R t, p.1 ∈ M.functions → Merged g M R t →
      ∃ t', (M.uses p.1).foldlM (CallGraph.handleUse ord M p.1) t = some t' ∧
        ∃ R', Merged g M R' t' ∧ (∀ a b, R a b → R' a b) ∧
          ∀ use ∈ M.uses p.1, UseHandled M R' p.1 use := by
    intro p R t hp ht
    refine foldlM_rule _ (fun (pre : List (FunctionUse I)) t' => ∃ R', Merged g M R' t' ∧
      (∀ a b, R a b → R' a b) ∧ ∀ use ∈ pre, UseHandled M R' p.1 use)
      ⟨R, ht, fun _ _ => id, nofun⟩ ?_
    rintro pre use post t₁ hsplit ⟨R₁, h₁, hle₁, hpre⟩
    obtain ⟨R₂, t₂, ht₂, h₂, hle₂, huse⟩ :=
      hok.handleUse ord h₁ hp (by rw [hsplit]; simp : use ∈ M.uses p.1)
    refine ⟨t₂, ht₂, R₂, h₂, fun a b hab => hle₂ a b (hle₁ a b hab), fun use' huse' i hi => ?_⟩
    rcases mem_append.mp huse' with huse' | huse'
    · exact EqvGen.mono hle₂ _ _ (hpre use' huse' i hi)
    · rw [mem_singleton.mp huse'] at hi
      exact huse i hi
  obtain ⟨t', ht', R', h', hall⟩ := foldlM_rule
    (fun t (p : (_ : F) × CallGraphFunctionNode F) =>
      (M.uses p.1).foldlM (CallGraph.handleUse ord M p.1) t)
    (fun pre t' => ∃ R', Merged g M R' t' ∧
      ∀ p ∈ pre, ∀ use ∈ M.uses p.1, UseHandled M R' p.1 use)
    (l := ord.visit g.functions.entries) (s := t)
    ⟨R, h, nofun⟩
    (by
      rintro pre p post t₁ hsplit ⟨R₁, h₁, hpre⟩
      have hp : p ∈ g.functions.entries := ord.mem_visit.mp (by rw [hsplit]; simp)
      have hpF : p.1 ∈ M.functions := (hok.functions_iff p.1).mp
        (by rw [AList.mem_lookup_iff.mpr hp]; rfl)
      obtain ⟨t₂, ht₂, R₂, h₂, hle, huse⟩ := huses p R₁ t₁ hpF h₁
      refine ⟨t₂, ht₂, R₂, h₂, fun q hq use hqu i hi => ?_⟩
      rcases mem_append.mp hq with hq | hq
      · exact EqvGen.mono hle _ _ (hpre q hq use hqu i hi)
      · obtain rfl := mem_singleton.mp hq
        exact huse use hqu i hi)
  refine ⟨R', t', ht', h', fun f hf => ?_⟩
  obtain ⟨n, hn⟩ := Option.isSome_iff_exists.mp ((hok.functions_iff f).mpr hf)
  exact hall ⟨f, n⟩ (ord.mem_visit.mpr (AList.mem_lookup_iff.mp hn))

omit [DecidableEq I] in
theorem Merged.eqvGen_iff (h : Merged g M R t)
    (hall : ∀ f ∈ M.functions, ∀ use ∈ M.uses f, UseHandled M R f use) (a b : F) :
    EqvGen R a b ↔ Connected g M a b := by
  refine eqvGen_congr h.connected ?_
  rintro a b (hab | ⟨hb, use, huse, _, i, hi, rfl⟩)
  · exact .rel _ _ (h.calls a b hab)
  · exact (hall b hb use huse i hi).symm _ _

end Merging

/-- Two functions have the same island exactly if they are connected. -/
theorem getIslands_spec (ord : IterOrder) {M : IRModule F I} (hok : OfModule M g) {fuel : Nat}
    (hfuel : 2 * g.functions.keys.length + 1 ≤ fuel) :
    ∃ r, g.getIslands ord M fuel = some r ∧
      (∀ f i, r.islands.lookup f = some i ↔ i ∈ r.live ∧ InIsland r i f) ∧
      (∀ f, (r.islands.lookup f).isSome = true ↔ f ∈ M.functions) ∧
      (∀ a ∈ M.functions, ∀ b ∈ M.functions,
        r.islands.lookup a = r.islands.lookup b ↔ Connected g M a b) ∧
      ∀ a b, Connected g M a b → (a ∈ M.functions ↔ b ∈ M.functions) := by
  obtain ⟨s, hs, hislands⟩ := identifyCallGraphIslandsByCallInstructions_spec ord hok.toOpsOk hfuel
  simp only [hok.functions_iff] at hislands
  have hnode : ∀ n : CallGraphFunctionNode F, g.functions.lookup n.f = some n → n.f ∈ M.functions :=
    fun n hn => (hok.functions_iff _).mp (by rw [hn]; rfl)
  have hstart : Merged g M g.CallsFunction s.toIslands := by
    refine ⟨hislands, ?_, fun a b => id, fun a b hab => .rel _ _ (.inl hab)⟩
    rintro a b ⟨e, he, rfl, rfl⟩
    exact ⟨hnode _ (hok.edge_nodes e he).1, hnode _ (hok.edge_nodes e he).2⟩
  obtain ⟨R, r, hr, hmerged, hall⟩ := hok.mergeCallGraphIslandsForEscapedFunctions ord hstart
  have hiff := hmerged.eqvGen_iff hall
  have hclosed : ClosedUnder R (· ∈ M.functions) := fun a b hab =>
    iff_of_true (hmerged.mem a b hab).1 (hmerged.mem a b hab).2
  refine ⟨r, by rw [getIslands, hs]; exact hr, hmerged.islandsOk.lookup_iff,
    hmerged.islandsOk.isSome_iff, fun a ha b hb => ?_, fun a b hab => ?_⟩
  · exact (hmerged.islandsOk.separates a b ha hb).trans (hiff a b)
  · exact hclosed.eqvGen ((hiff a b).mpr hab)

/-- **Islands of a call graph**: with enough fuel the islands are computed; the functions
of the module are the mapped ones, each is in the island it is mapped to, and this island
holds the functions that are connected to it. -/
theorem getIslands_components (ord : IterOrder) {M : IRModule F I} (hok : OfModule M g) {fuel : Nat}
    (hfuel : 2 * g.functions.keys.length + 1 ≤ fuel) :
    ∃ r, g.getIslands ord M fuel = some r ∧
      (∀ f, (r.islands.lookup f).isSome = true ↔ f ∈ M.functions) ∧
      ∀ f island, r.islands.lookup f = some island →
        island ∈ r.live ∧ InIsland r island f ∧
          ∀ f', InIsland r island f' ↔ Connected g M f f' := by
  obtain ⟨r, hr, hlookup, hisSome, hconnected, hclosed⟩ := getIslands_spec ord hok hfuel
  refine ⟨r, hr, hisSome, fun f island hf => ?_⟩
  obtain ⟨hlive, hin⟩ := (hlookup f island).mp hf
  have hfM : f ∈ M.functions := (hisSome f).mp (by rw [hf]; rfl)
  refine ⟨hlive, hin, fun f' => ⟨fun hin' => ?_, fun hconn => ?_⟩⟩
  · have hf' := (hlookup f' island).mpr ⟨hlive, hin'⟩
    exact (hconnected f hfM f' ((hisSome f').mp (by rw [hf']; rfl))).mp (hf.trans hf'.symm)
  · have heq := (hconnected f hfM f' ((hclosed f f' hconn).mp hfM)).mpr hconn
    exact ((hlookup f' island).mp (heq.symm.trans hf)).2

/-- **Refinement**: however many sub-edges of calls that may happen are removed, the graph still has
its direct calls, and functions of one island were in one island before. -/
theorem getIslands_refined (ord ord' : IterOrder) {M : IRModule F I} (hok : OfModule M g)
    {removals : List (CallGraphFunctionFunctionEdge F × CallGraphInstructionFunctionEdge F I)}
    (hremovals : Calls (fun g c => g.removeSubEdge c.1 c.2)
      (fun g c => c.1 ∈ g.edges ∧ c.2 ∈ g.getSubEdges c.1 ∧ g.subEdgeIsMust c.2 = false) g removals)
    {fuel : Nat} (hfuel : 2 * g.functions.keys.length + 1 ≤ fuel) :
    ∃ g' r r', removals.foldlM (fun g c => g.removeSubEdge c.1 c.2) g = some g' ∧ OfModule M g' ∧
      g.getIslands ord M fuel = some r ∧ g'.getIslands ord' M fuel = some r' ∧
      ∀ a ∈ M.functions, ∀ b ∈ M.functions,
        r'.islands.lookup a = r'.islands.lookup b → r.islands.lookup a = r.islands.lookup b := by
  obtain ⟨g', hg', hok', hfunctions, hcalls⟩ := foldlM_of_calls
    (J := fun g' _ => OfModule M g' ∧ g'.functions = g.functions ∧
      ∀ a b, g'.CallsFunction a b → g.CallsFunction a b)
    (by
      rintro s c _ ⟨hs, hfunctions, hcalls⟩ ⟨he, hse, hmay⟩
      obtain ⟨s', hs', hr, hok'⟩ := hs.removeSubEdge he hse hmay
      refine ⟨s', hs', hok', hr.functions_eq.trans hfunctions, ?_⟩
      rintro a b ⟨e, he, hab⟩
      exact hcalls a b ⟨e, ((hr.mem_edges e).mp he).1, hab⟩)
    ⟨hok, rfl, fun _ _ => id⟩ hremovals
  obtain ⟨r, hr, -, -, hislands, -⟩ := getIslands_spec ord hok hfuel
  obtain ⟨r', hr', -, -, hislands', -⟩ := getIslands_spec ord' hok' (hfunctions ▸ hfuel)
  refine ⟨g', r, r', hg', hok', hr, hr', fun a ha b hb hab => (hislands a ha b hb).mpr ?_⟩
  exact EqvGen.mono (fun a b => Or.imp_left (hcalls a b)) _ _ ((hislands' a ha b hb).mp hab)

/-- The indirect call of the first function may reach the second one, which it also calls. -/
def twoFunctionsGraph : CallGraph Nat Nat :=
  (new twoFunctions .stored (fun _ => true) fun _ => PtrSet.insert ∅ 2).getD empty

theorem twoFunctionsGraph_ofModule : OfModule twoFunctions twoFunctionsGraph := by
  have hcallees : CalleesOk twoFunctions fun _ => PtrSet.insert ∅ 2 := by
    unfold CalleesOk
    decide
  obtain ⟨g, hg, hok⟩ := new_ofModule .stored (fun _ => true) hcallees
  rw [twoFunctionsGraph, hg]
  exact hok

theorem getIslands_refined_twoFunctions :
    ∃ g' r r', [(⟨4, ⟨0, 1⟩, ⟨1, 2⟩⟩, ⟨6, ⟨5, 11⟩, ⟨1, 2⟩⟩)].foldlM
        (fun g c => g.removeSubEdge c.1 c.2) twoFunctionsGraph = some g' ∧
      OfModule twoFunctions g' ∧ twoFunctionsGraph.getIslands .stored twoFunctions 5 = some r ∧
      g'.getIslands .reversed twoFunctions 5 = some r' ∧
      ∀ a ∈ twoFunctions.functions, ∀ b ∈ twoFunctions.functions,
        r'.islands.lookup a = r'.islands.lookup b → r.islands.lookup a = r.islands.lookup b :=
  getIslands_refined .stored .reversed twoFunctionsGraph_ofModule (by decide +kernel) (by decide +kernel)

/-- Four functions: the first one calls the second one and stores the address of the
third one. -/
def addressTaken : IRModule Nat Nat where
  functions := ⟨[1, 2, 3, 4], by decide⟩
  instructions f := if f = 1 then [10, 11] else []
  kind i := if i = 10 then .callInst (some 2) else .otherInst
  getFunction _ := 1
  uses f := if f = 2 then [⟨some 10, true⟩] else if f = 3 then [⟨some 11, false⟩] else []
  getFunction_eq := by decide
  use_ok := by decide
  callee_ok := by decide

def addressTakenGraph : CallGraph Nat Nat :=
  (new addressTaken .stored (fun _ => false) fun _ => ∅).getD empty

theorem addressTakenGraph_ofModule : OfModule addressTaken addressTakenGraph := by
  have hcallees : CalleesOk addressTaken fun _ => ∅ := fun _ _ _ _ callee hc =>
    absurd hc (not_mem_empty callee)
  obtain ⟨g, hg, hok⟩ := new_ofModule .stored (fun _ => false) hcallees
  rw [addressTakenGraph, hg]
  exact hok

theorem getIslands_components_addressTaken :
    ∃ r, addressTakenGraph.getIslands .stored addressTaken 9 = some r ∧
      (∀ f, (r.islands.lookup f).isSome = true ↔ f ∈ addressTaken.functions) ∧
      ∀ f island, r.islands.lookup f = some island →
        island ∈ r.live ∧ InIsland r island f ∧
          ∀ f', InIsland r island f' ↔ Connected addressTakenGraph addressTaken f f' :=
  getIslands_components .stored addressTakenGraph_ofModule (by decide +kernel)

/-- The functions 1, 2 and 3 are in one island. -/
example : ((addressTakenGraph.getIslands .stored addressTaken 9).map fun r =>
    [1, 2, 3, 4].map fun f => decide (r.islands.lookup f = r.islands.lookup 1)) =
      some [true, true, true, false] := by
  decide +kernel

end CallGraph

end Noelle
