import Noelle.CallGraph.Construction
import Noelle.CallGraph.SCCCAG

/-!
# CallGraph.Condensation

The SCCCAG of a call graph is its condensation.

`Building` is the invariant of the loops that create the nodes: the visited function
nodes are a union of components, and each of these components has its node.  `Linking`
is the invariant of the loops that create the edges: the edges and their sub-edges
are those of the call edges that were handled.
-/

namespace Noelle

open Function Relation PtrSet List

namespace CallGraph

variable {F I : Type} [DecidableEq F] [DecidableEq I] {cg : CallGraph F I}
  {n m : CallGraphFunctionNode F}

def CallEdge (cg : CallGraph F I) (n m : CallGraphFunctionNode F) : Prop :=
  ∃ e ∈ cg.edges, e.caller = n ∧ e.callee = m

section

variable (h : EdgesOk cg)

include h

theorem EdgesOk.child_iff : StepRel cg.wrappedChildren n m ↔ cg.CallEdge n m := by
  simp only [StepRel, wrappedChildren, mem_map, mem_elems, h.mem_getOutgoingEdges]
  constructor
  · rintro ⟨e, ⟨he, hn⟩, hm⟩
    exact ⟨e, he, hn, hm⟩
  · rintro ⟨e, he, hn, hm⟩
    exact ⟨e, ⟨he, hn⟩, hm⟩

/-- A step of the search is a call. -/
theorem EdgesOk.stepRel_eq : StepRel cg.wrappedChildren = cg.CallEdge := by
  funext n m
  exact propext h.child_iff

theorem EdgesOk.callEdge_mem (hnm : cg.CallEdge n m) :
    n ∈ cg.getFunctionNodes ∧ m ∈ cg.getFunctionNodes := by
  obtain ⟨e, he, rfl, rfl⟩ := hnm
  exact ⟨(h.edgeInvariant.edge_nodes e he).1, (h.edgeInvariant.edge_nodes e he).2⟩

theorem EdgesOk.reach_mem (hn : n ∈ cg.getFunctionNodes)
    (hnm : ReflTransGen cg.CallEdge n m) : m ∈ cg.getFunctionNodes := by
  induction hnm with
  | refl => exact hn
  | tail _ hbc _ => exact (h.callEdge_mem hbc).2

theorem EdgesOk.children_closed : ∀ a ∈ cg.getFunctionNodes.elems,
    ∀ b ∈ cg.wrappedChildren a, b ∈ cg.getFunctionNodes.elems := fun _ _ _ hb =>
  (h.callEdge_mem (h.child_iff.mp hb)).2

theorem EdgesOk.wrapped : cg.wrapped = true :=
  all_eq_true.mpr fun a ha => all_eq_true.mpr fun b hb =>
    decide_eq_true (h.children_closed a ha b hb)

end

end CallGraph

namespace SCCCAG

open CallGraph

variable {F I : Type} [DecidableEq F] [DecidableEq I] {cg : CallGraph F I} {s s' : SCCCAG F}
  {visited : PtrSet (CallGraphFunctionNode F)} {n m : CallGraphFunctionNode F}
  {A B : SCCCAGNode F} {x : CallGraphFunctionFunctionEdge F}

/-! ## Nodes -/

/-- The node stands for the component of its function nodes. -/
structure IsComponent (cg : CallGraph F I) (A : SCCCAGNode F) : Prop where
  nonempty : ∃ n ∈ cg.getFunctionNodes, A.Holds n
  holds_iff : ∀ n, A.Holds n → ∀ m, A.Holds m ↔ StronglyConnected cg.CallEdge n m
  /-- A plain node is a single function that does not call itself. -/
  isAnSCC_iff : A.isAnSCC = false ↔ ∃ n, (∀ m, A.Holds m ↔ m = n) ∧ ¬ cg.CallEdge n n

/-- The function nodes in `visited` have their SCCCAG nodes. -/
structure Building (cg : CallGraph F I) (visited : PtrSet (CallGraphFunctionNode F))
    (s : SCCCAG F) : Prop where
  components : ∀ A ∈ s.nodes, IsComponent cg A
  getNode_iff : ∀ n A, s.getNode n = some A ↔ A ∈ s.nodes ∧ A.Holds n
  isSome_iff : ∀ n, (s.getNode n).isSome = true ↔ n ∈ visited
  visited_closed : ∀ n ∈ visited, ∀ m, StronglyConnected cg.CallEdge n m → m ∈ visited
  fresh : ∀ A ∈ s.nodes, A.getID < s.currentID
  edges_eq : s.edges = ∅
  outgoingEdges_eq : s.outgoingEdges = fun _ => ∅
  incomingEdges_eq : s.incomingEdges = fun _ => ∅

/-- `s'` is `s` with one more node, for the function nodes in `c`. -/
structure Added (s : SCCCAG F) (c : List (CallGraphFunctionNode F)) (A : SCCCAGNode F)
    (s' : SCCCAG F) : Prop where
  getID_eq : A.getID = s.currentID
  currentID_eq : s'.currentID = s.currentID + 1
  mem_nodes : ∀ B, B ∈ s'.nodes ↔ B = A ∨ B ∈ s.nodes
  holds_iff : ∀ n, A.Holds n ↔ n ∈ c
  getNode_eq : ∀ n, s'.getNode n = if n ∈ c then some A else s.getNode n
  edges_eq : s'.edges = s.edges
  outgoingEdges_eq : s'.outgoingEdges = s.outgoingEdges
  incomingEdges_eq : s'.incomingEdges = s.incomingEdges

omit [DecidableEq I] in
/-- One more component has its node. -/
theorem Building.of_added (h : Building cg visited s) {c : List (CallGraphFunctionNode F)}
    (hadded : Added s c A s') (hA : IsComponent cg A) (hfresh : ∀ n ∈ c, n ∉ visited) :
    Building cg (visited.insertAll c) s' where
  components := by
    intro B hB
    rcases (hadded.mem_nodes B).mp hB with rfl | hB
    · exact hA
    · exact h.components B hB
  getNode_iff := by
    intro n B
    rw [hadded.getNode_eq, hadded.mem_nodes]
    by_cases hn : n ∈ c
    · rw [if_pos hn, Option.some.injEq]
      constructor
      · rintro rfl
        exact ⟨.inl rfl, (hadded.holds_iff n).mpr hn⟩
      · rintro ⟨rfl | hB, hholds⟩
        · rfl
        · -- an older node holds only visited function nodes
          have hold := (h.getNode_iff n B).mpr ⟨hB, hholds⟩
          exact absurd ((h.isSome_iff n).mp (by rw [hold]; rfl)) (hfresh n hn)
    · rw [if_neg hn, h.getNode_iff]
      constructor
      · rintro ⟨hB, hholds⟩
        exact ⟨.inr hB, hholds⟩
      · rintro ⟨rfl | hB, hholds⟩
        · exact absurd ((hadded.holds_iff n).mp hholds) hn
        · exact ⟨hB, hholds⟩
  isSome_iff := by
    intro n
    rw [hadded.getNode_eq, mem_insertAll, ← h.isSome_iff]
    by_cases hn : n ∈ c <;> simp [hn]
  visited_closed := by
    intro n hn m hnm
    rcases mem_insertAll.mp hn with hn | hn
    · exact mem_insertAll.mpr (.inl (h.visited_closed n hn m hnm))
    · have hm := (hA.holds_iff n ((hadded.holds_iff n).mpr hn) m).mpr hnm
      exact mem_insertAll.mpr (.inr ((hadded.holds_iff m).mp hm))
  fresh := by
    intro B hB
    rw [hadded.currentID_eq]
    rcases (hadded.mem_nodes B).mp hB with rfl | hB
    · rw [hadded.getID_eq]
      exact Nat.lt_succ_self _
    · exact Nat.lt_succ_of_lt (h.fresh B hB)
  edges_eq := hadded.edges_eq.trans h.edges_eq
  outgoingEdges_eq := hadded.outgoingEdges_eq.trans h.outgoingEdges_eq
  incomingEdges_eq := hadded.incomingEdges_eq.trans h.incomingEdges_eq

omit [DecidableEq I] in
theorem addFunction_added {c : List (CallGraphFunctionNode F)} (hc : ∀ b, b ∈ c ↔ b = n) :
    Added s c (.function s.currentID n) (s.addFunction n) where
  getID_eq := rfl
  currentID_eq := rfl
  mem_nodes := fun _ => mem_insert
  holds_iff := fun b => (hc b).symm
  getNode_eq := by
    intro b
    change (s.fromCGNodeToSCC.insert n (.function s.currentID n)).lookup b = _
    by_cases hb : b = n
    · subst hb
      rw [AList.lookup_insert, if_pos ((hc b).mpr rfl)]
    · rw [AList.lookup_insert_ne hb, if_neg fun hmem => hb ((hc b).mp hmem), getNode]
  edges_eq := rfl
  outgoingEdges_eq := rfl
  incomingEdges_eq := rfl

variable (ord : IterOrder)

omit [DecidableEq I] in
theorem addSCC_added (nodes : PtrSet (CallGraphFunctionNode F)) :
    Added s nodes.elems (.scc s.currentID nodes) (s.addSCC ord nodes) where
  getID_eq := rfl
  currentID_eq := rfl
  mem_nodes := fun _ => mem_insert
  holds_iff := fun _ => Iff.rfl
  getNode_eq := fun b => (lookup_foldl_insert _ b _ _).trans (if_congr ord.mem_visit rfl rfl)
  edges_eq := rfl
  outgoingEdges_eq := rfl
  incomingEdges_eq := rfl

theorem isSCC_iff (hok : EdgesOk cg) (nodes : PtrSet (CallGraphFunctionNode F))
    (n : CallGraphFunctionNode F) :
    isSCC cg nodes n = true ↔ 1 < nodes.size ∨ cg.CallEdge n n := by
  rw [isSCC, Bool.or_eq_true, decide_eq_true_eq, any_eq_true]
  refine or_congr Iff.rfl ?_
  simp only [mem_elems, hok.mem_getOutgoingEdges, decide_eq_true_eq]
  constructor
  · rintro ⟨e, ⟨he, hn⟩, hm⟩
    exact ⟨e, he, hn, hm⟩
  · rintro ⟨e, he, hn, hm⟩
    exact ⟨e, ⟨he, hn⟩, hm⟩

/-- The body of the inner loop adds the node of one component, unless it is there. -/
theorem Building.addComponent (h : Building cg visited s) (hok : EdgesOk cg)
    {c : List (CallGraphFunctionNode F)} {a : CallGraphFunctionNode F}
    (ha : a ∈ cg.getFunctionNodes) (hc : ∀ b, b ∈ c ↔ StronglyConnected cg.CallEdge a b) :
    ∃ st, SCCCAG.addComponent ord cg (visited, s) c = some st ∧ Building cg st.1 st.2 ∧
      (∀ n ∈ visited, n ∈ st.1) ∧ ∀ n ∈ c, n ∈ st.1 := by
  have hac : a ∈ c := (hc a).mpr (.refl a)
  have hsame : ∀ b ∈ c, ∀ b', b' ∈ c ↔ StronglyConnected cg.CallEdge b b' := fun b hb b' => by
    rw [hc]
    exact ⟨(((hc b).mp hb).symm).trans, ((hc b).mp hb).trans⟩
  obtain ⟨first, rest, hcons⟩ := exists_cons_of_ne_nil (ne_nil_of_mem hac)
  have hfirst : first ∈ c := by rw [hcons]; exact .head _
  have hhead : c.head? = some first := by rw [hcons]; rfl
  unfold SCCCAG.addComponent
  simp only [hhead, Option.bind_eq_bind, Option.bind_some]
  by_cases hv : first ∈ visited
  · refine ⟨(visited, s), if_pos hv, h, fun _ => id, fun n hn => ?_⟩
    exact h.visited_closed first hv n ((hsame first hfirst n).mp hn)
  · have hfresh : ∀ b ∈ c, b ∉ visited := fun b hb hbv =>
      hv (h.visited_closed b hbv first ((hsame b hb first).mp hfirst))
    have hmem : ∀ b, b ∈ (PtrSet.ofList c).elems ↔ b ∈ c := fun b => mem_ofList
    obtain ⟨single, hsingle, hget⟩ :=
      ord.exists_head (ne_nil_of_mem ((hmem a).mpr hac))
    rw [hmem] at hsingle
    have hscc := isSCC_iff hok (PtrSet.ofList c) single
    have hfresh' : ∀ b ∈ (PtrSet.ofList c).elems, b ∉ visited := fun b hb => hfresh b ((hmem b).mp hb)
    have hvisited : ∀ n ∈ c, n ∈ visited.insertAll (PtrSet.ofList c).elems := fun n hn =>
      mem_insertAll.mpr (.inr ((hmem n).mpr hn))
    have hholds : ∀ n, n ∈ (PtrSet.ofList c).elems → ∀ m, m ∈ (PtrSet.ofList c).elems ↔
        StronglyConnected cg.CallEdge n m := fun n hn m => by
      rw [hmem]
      exact hsame n ((hmem n).mp hn) m
    simp only [hv, if_false, hget, Option.bind_some]
    by_cases hisSCC : isSCC cg (PtrSet.ofList c) single = true
    · refine ⟨_, if_pos hisSCC, h.of_added (addSCC_added ord _) ⟨⟨a, ha, (hmem a).mpr hac⟩, hholds, ?_⟩
        hfresh', fun n hn => mem_insertAll.mpr (.inl hn), hvisited⟩
      refine iff_of_false (by simp [SCCCAGNode.isAnSCC]) ?_
      rintro ⟨n, hn, hself⟩
      rcases hscc.mp hisSCC with hsize | hcall
      · have hle := size_le_length (l := [n]) fun b hb => mem_singleton.mpr ((hn b).mp hb)
        rw [length_singleton] at hle
        omega
      · rw [(hn single).mp ((hmem single).mpr hsingle)] at hcall
        exact hself hcall
    · have hnot := mt hscc.mpr hisSCC
      have honly : ∀ b, b ∈ (PtrSet.ofList c).elems ↔ b = single := fun b =>
        ⟨fun hb => eq_of_size_le_one (by omega) hb ((hmem single).mpr hsingle),
          fun hb => hb ▸ (hmem single).mpr hsingle⟩
      refine ⟨_, if_neg hisSCC, h.of_added (addFunction_added honly)
        ⟨⟨a, ha, (honly a).mp ((hmem a).mpr hac)⟩, fun n hn m => ?_, iff_of_true rfl
          ⟨single, fun _ => Iff.rfl, fun hcall => hnot (.inr hcall)⟩⟩
        hfresh', fun n hn => mem_insertAll.mpr (.inl hn), hvisited⟩
      exact (honly m).symm.trans (hholds n ((honly n).mpr hn) m)

/-- Every function node ends up in exactly one node of the condensation. -/
theorem createNodes_spec (it : SccIterator) (hok : EdgesOk cg) (currentID : Nat) :
    ∃ s visited, createNodes ord cg it (empty currentID) = some s ∧ Building cg visited s ∧
      ∀ n, n ∈ visited ↔ n ∈ cg.getFunctionNodes := by
  have hstart : Building cg ∅ (empty currentID) :=
    { components := fun A hA => absurd hA (not_mem_empty A)
      getNode_iff := fun n A => by simp [getNode, empty]
      isSome_iff := fun n => by simp [getNode, empty]
      visited_closed := fun n hn => absurd hn (not_mem_empty n)
      fresh := fun A hA => absurd hA (not_mem_empty A)
      edges_eq := rfl
      outgoingEdges_eq := rfl
      incomingEdges_eq := rfl }
  have hbody : ∀ visited s a c, a ∈ cg.getFunctionNodes.elems →
      (∀ b, b ∈ c ↔ StronglyConnected (StepRel cg.wrappedChildren) a b) → Building cg visited s →
      ∃ st, SCCCAG.addComponent ord cg (visited, s) c = some st ∧ Building cg st.1 st.2 ∧
        (∀ n ∈ visited, n ∈ st.1) ∧ ∀ n ∈ c, n ∈ st.1 := by
    intro visited s a c ha hc h
    rw [hok.stepRel_eq] at hc
    exact h.addComponent ord hok ha hc
  obtain ⟨⟨visited, s⟩, hloop, h, hall⟩ := it.visitAll_rule hok.children_closed (Building cg) hbody
    (fun n hn => ord.mem_visit.mp hn : ∀ n ∈ ord.visit cg.getFunctionNodes.elems, _) hstart
  refine ⟨s, visited, ?_, h, fun n => ⟨fun hn => ?_, fun hn => hall n (ord.mem_visit.mpr hn)⟩⟩
  · rw [SccIterator.visitAll] at hloop
    rw [createNodes, if_neg (by simp [hok.wrapped]), hloop]
    rfl
  · obtain ⟨A, hA⟩ := Option.isSome_iff_exists.mp ((h.isSome_iff n).mpr hn)
    obtain ⟨hAmem, hAn⟩ := (h.getNode_iff n A).mp hA
    obtain ⟨m, hm, hAm⟩ := (h.components A hAmem).nonempty
    exact hok.reach_mem hm (((h.components A hAmem).holds_iff m hAm n).mp hAn).1

/-! ## Edges -/

/-- The edges of `s` are those of the call edges in `D`, over the nodes of `s₀`. -/
structure Linking (s₀ : SCCCAG F) (D : CallGraphFunctionFunctionEdge F → Prop) (s : SCCCAG F) :
    Prop where
  fromCGNodeToSCC_eq : s.fromCGNodeToSCC = s₀.fromCGNodeToSCC
  nodes_eq : s.nodes = s₀.nodes
  outgoing : Records SCCCAGEdge.f SCCCAGEdge.t s.edges s.outgoingEdges
  incoming : Records SCCCAGEdge.t SCCCAGEdge.f s.edges s.incomingEdges
  edge_iff : ∀ A B, (∃ e ∈ s.edges, e.f = A ∧ e.t = B) ↔
    ∃ x, D x ∧ s₀.getNode x.caller = some A ∧ s₀.getNode x.callee = some B
  mem_subEdges : ∀ e ∈ s.edges, ∀ x, x ∈ s.subEdges e ↔
    D x ∧ s₀.getNode x.caller = some e.f ∧ s₀.getNode x.callee = some e.t
  fresh : ∀ e ∈ s.edges, e.addr < s.nextAddr

variable {s₀ : SCCCAG F} {D : CallGraphFunctionFunctionEdge F → Prop} {e : SCCCAGEdge F}

theorem Linking.congr {D' : CallGraphFunctionFunctionEdge F → Prop} (h : Linking s₀ D s)
    (hD : ∀ x, D x ↔ D' x) : Linking s₀ D' s := by
  have heq : D = D' := funext fun x => propext (hD x)
  exact heq ▸ h

/-- `s'` is `s` with the edge `e` from `A` to `B`, which is new if there was none. -/
structure Prepared (s : SCCCAG F) (A B : SCCCAGNode F) (e : SCCCAGEdge F) (s' : SCCCAG F) :
    Prop where
  fromCGNodeToSCC_eq : s'.fromCGNodeToSCC = s.fromCGNodeToSCC
  nodes_eq : s'.nodes = s.nodes
  outgoing : Records SCCCAGEdge.f SCCCAGEdge.t s'.edges s'.outgoingEdges
  incoming : Records SCCCAGEdge.t SCCCAGEdge.f s'.edges s'.incomingEdges
  f_eq : e.f = A
  t_eq : e.t = B
  mem_edges : ∀ x, x ∈ s'.edges ↔ x = e ∨ x ∈ s.edges
  mem_subEdges : ∀ x, x ∈ s'.subEdges e ↔ e ∈ s.edges ∧ x ∈ s.subEdges e
  subEdges_eq : ∀ x ∈ s.edges, s'.subEdges x = s.subEdges x
  fresh : ∀ x ∈ s'.edges, x.addr < s'.nextAddr

omit [DecidableEq I] in
/-- An edge between two nodes can always be had. -/
theorem Linking.addEdge (h : Linking s₀ D s) (A B : SCCCAGNode F) :
    ∃ e s', s.addEdge A B = some s' ∧ Prepared s A B e s' := by
  unfold SCCCAG.addEdge
  cases hlook : (s.outgoingEdges A).lookup B with
  | some e =>
      obtain ⟨he, hf, ht⟩ := (h.outgoing A B e).mp hlook
      refine ⟨e, s, by simp, rfl, rfl, h.outgoing, h.incoming, hf, ht, fun x => ?_, fun x => ?_,
        fun _ _ => rfl, h.fresh⟩
      · refine ⟨.inr, ?_⟩
        rintro (rfl | hx)
        · exact he
        · exact hx
      · exact (and_iff_right he).symm
  | none =>
      let e : SCCCAGEdge F := ⟨s.nextAddr, A, B⟩
      have hinc : (s.incomingEdges B).lookup A = none := by
        cases hinc : (s.incomingEdges B).lookup A with
        | none => rfl
        | some x =>
            obtain ⟨hx, ht, hf⟩ := (h.incoming B A x).mp hinc
            rw [(h.outgoing A B x).mpr ⟨hx, hf, ht⟩] at hlook
            cases hlook
      have hnew : e ∉ s.edges := fun hmem => absurd (h.fresh e hmem) (lt_irrefl _)
      let s' : SCCCAG F := { s with
        edges := s.edges.insert e
        outgoingEdges := update s.outgoingEdges A ((s.outgoingEdges A).insert B e)
        incomingEdges := update s.incomingEdges B ((s.incomingEdges B).insert A e)
        subEdges := update s.subEdges e ∅
        nextAddr := s.nextAddr + 1 }
      have hs' : s.newEdge A B = some s' := by
        simp only [newEdge, hlook, hinc, Option.isSome_none, Bool.false_eq_true, if_false]
        rfl
      refine ⟨e, s', by simpa using hs', rfl, rfl, h.outgoing.insert (e := e) hlook,
        h.incoming.insert (e := e) hinc, rfl, rfl, fun x => mem_insert, fun x => ?_,
        fun x hx => ?_, fun x hx => ?_⟩
      · have heq : s'.subEdges e = ∅ := update_self ..
        rw [heq]
        exact iff_of_false (not_mem_empty x) fun hx => hnew hx.1
      · exact update_of_ne (fun heq : x = e => hnew (heq ▸ hx)) ..
      · rcases mem_insert.mp hx with rfl | hx
        · exact Nat.lt_succ_self _
        · exact Nat.lt_succ_of_lt (h.fresh x hx)

omit [DecidableEq I] in
/-- One more call has its edge between the components. -/
theorem Linking.linkTo (h : Linking s₀ D s) (hA : s₀.getNode x.caller = some A)
    (hB : s₀.getNode x.callee = some B) :
    ∃ s', s.linkTo A B x = some s' ∧ Linking s₀ (fun y => D y ∨ y = x) s' := by
  obtain ⟨e, s₁, hs₁, hprep⟩ := h.addEdge A B
  have he : e ∈ s₁.edges := (hprep.mem_edges e).mpr (.inl rfl)
  have hlook : (s₁.outgoingEdges A).lookup B = some e :=
    (hprep.outgoing A B e).mpr ⟨he, hprep.f_eq, hprep.t_eq⟩
  let s' : SCCCAG F :=
    { s₁ with subEdges := update s₁.subEdges e ((s₁.subEdges e).insert x) }
  refine ⟨s', ?_, hprep.fromCGNodeToSCC_eq.trans h.fromCGNodeToSCC_eq,
    hprep.nodes_eq.trans h.nodes_eq, hprep.outgoing, hprep.incoming, fun A' B' => ?_,
    fun e' he' y => ?_, hprep.fresh⟩
  · unfold SCCCAG.linkTo
    rw [hs₁]
    simp only [Option.bind_eq_bind, Option.bind_some, hlook]
    rfl
  · have hold := h.edge_iff A' B'
    constructor
    · rintro ⟨e', he', rfl, rfl⟩
      rcases (hprep.mem_edges e').mp he' with rfl | he'
      · exact ⟨x, .inr rfl, by rw [hprep.f_eq, hA], by rw [hprep.t_eq, hB]⟩
      · obtain ⟨y, hy, hcaller, hcallee⟩ := hold.mp ⟨e', he', rfl, rfl⟩
        exact ⟨y, .inl hy, hcaller, hcallee⟩
    · rintro ⟨y, hy | rfl, hcaller, hcallee⟩
      · obtain ⟨e', he', hf, ht⟩ := hold.mpr ⟨y, hy, hcaller, hcallee⟩
        exact ⟨e', (hprep.mem_edges e').mpr (.inr he'), hf, ht⟩
      · exact ⟨e, he, hprep.f_eq.trans (Option.mem_unique hA hcaller),
          hprep.t_eq.trans (Option.mem_unique hB hcallee)⟩
  · by_cases heq : e' = e
    · subst heq
      have hsubs : s'.subEdges e' = (s₁.subEdges e').insert x := update_self ..
      rw [hsubs, mem_insert, hprep.mem_subEdges, hprep.f_eq, hprep.t_eq]
      constructor
      · rintro (rfl | ⟨hmem, hy⟩)
        · exact ⟨.inr rfl, hA, hB⟩
        · have hold := (h.mem_subEdges e' hmem y).mp hy
          rw [hprep.f_eq, hprep.t_eq] at hold
          exact ⟨.inl hold.1, hold.2⟩
      · rintro ⟨hy | rfl, hcaller, hcallee⟩
        · -- the edge was there before
          obtain ⟨e'', he'', hf, ht⟩ := (h.edge_iff A B).mpr ⟨y, hy, hcaller, hcallee⟩
          have heq : e'' = e' := hprep.outgoing.unique ((hprep.mem_edges e'').mpr (.inr he'')) he'
            (hf.trans hprep.f_eq.symm) (ht.trans hprep.t_eq.symm)
          subst heq
          refine .inr ⟨he'', (h.mem_subEdges e'' he'' y).mpr ⟨hy, ?_, ?_⟩⟩
          · rw [hf]
            exact hcaller
          · rw [ht]
            exact hcallee
        · exact .inl rfl
    · have hold := ((hprep.mem_edges e').mp he').resolve_left heq
      have hsubs : s'.subEdges e' = s₁.subEdges e' := update_of_ne heq ..
      rw [hsubs, hprep.subEdges_eq e' hold, h.mem_subEdges e' hold]
      refine and_congr_left fun hends => (or_iff_left ?_).symm
      rintro rfl
      refine heq (hprep.outgoing.unique he' he ?_ ?_)
      · exact (Option.mem_unique hends.1 hA).trans hprep.f_eq.symm
      · exact (Option.mem_unique hends.2 hB).trans hprep.t_eq.symm

theorem Linking.loop (h : Linking s₀ D s)
    (step : SCCCAG F → CallGraphFunctionFunctionEdge F → Option (SCCCAG F))
    (Cross : CallGraphFunctionFunctionEdge F → Prop) {l : List (CallGraphFunctionFunctionEdge F)}
    (hstep : ∀ x ∈ l, ∀ D s, Linking s₀ D s →
      ∃ s', step s x = some s' ∧ Linking s₀ (fun y => D y ∨ (y = x ∧ Cross y)) s') :
    ∃ s', l.foldlM step s = some s' ∧ Linking s₀ (fun y => D y ∨ (y ∈ l ∧ Cross y)) s' := by
  refine foldlM_rule step (fun pre s' => Linking s₀ (fun y => D y ∨ (y ∈ pre ∧ Cross y)) s')
    (h.congr fun y => by simp) ?_
  intro pre x post s₁ hsplit h₁
  obtain ⟨s', hs', h'⟩ := hstep x (by rw [hsplit]; simp) _ s₁ h₁
  refine ⟨s', hs', h'.congr fun y => ?_⟩
  rw [or_assoc, mem_append, mem_singleton, or_and_right]

/-- A call edge between distinct nodes. -/
def Crossing (s₀ : SCCCAG F) (x : CallGraphFunctionFunctionEdge F) : Prop :=
  s₀.getNode x.caller ≠ s₀.getNode x.callee

/-- The calls out of a component all have their edges. -/
theorem Linking.createEdgesOf (h : Linking s₀ D s) (hok : EdgesOk cg) (h₀ : Building cg visited s₀)
    (hall : ∀ n, n ∈ visited ↔ n ∈ cg.getFunctionNodes) (hA : A ∈ s₀.nodes) :
    ∃ s', SCCCAG.createEdgesOf ord cg s A = some s' ∧
      Linking s₀ (fun x => D x ∨ (x ∈ cg.edges ∧ A.Holds x.caller ∧ Crossing s₀ x)) s' := by
  have hnode : ∀ x ∈ cg.edges, ∃ B, s₀.getNode x.callee = some B := fun x hx =>
    Option.isSome_iff_exists.mp ((h₀.isSome_iff _).mpr ((hall _).mpr
      (hok.edgeInvariant.edge_nodes x hx).2))
  have hget : ∀ {D s}, Linking s₀ D s → ∀ n, s.getNode n = s₀.getNode n := fun h n => by
    rw [getNode, h.fromCGNodeToSCC_eq, getNode]
  have hedges : ∀ n x, x ∈ ord.visit (cg.getOutgoingEdges n).elems ↔ x ∈ cg.edges ∧ x.caller = n :=
    fun n x => ord.mem_visit.trans hok.mem_getOutgoingEdges
  cases A with
  | function ID n =>
      obtain ⟨s', hs', h'⟩ := h.loop (l := ord.visit (cg.getOutgoingEdges n).elems)
        (fun s outgoingEdge => do
          let dstSCCNode ← s.getNode outgoingEdge.callee
          s.linkTo (.function ID n) dstSCCNode outgoingEdge) (Crossing s₀) (by
        intro x hx D s h
        obtain ⟨hxe, hxn⟩ := (hedges n x).mp hx
        obtain ⟨B, hB⟩ := hnode x hxe
        have hA' : s₀.getNode x.caller = some (.function ID n) := (h₀.getNode_iff _ _).mpr ⟨hA, hxn⟩
        -- a plain node does not call itself
        have hcross : Crossing s₀ x := fun heq => by
          rw [hA'] at heq
          have hself := ((h₀.getNode_iff _ _).mp heq.symm).2
          obtain ⟨m, hm, hnot⟩ := (h₀.components _ hA).isAnSCC_iff.mp rfl
          have hnm : n = m := (hm n).mp rfl
          exact hnot ⟨x, hxe, hxn.trans hnm, hself.trans hnm⟩
        obtain ⟨s', hs', h'⟩ := h.linkTo hA' hB
        refine ⟨s', ?_, h'.congr fun y => or_congr Iff.rfl ?_⟩
        · simp only [hget h, hB]
          exact hs'
        · exact ⟨fun heq => ⟨heq, heq ▸ hcross⟩, fun hy => hy.1⟩)
      refine ⟨s', hs', h'.congr fun y => or_congr Iff.rfl ?_⟩
      rw [hedges, and_assoc]
      exact Iff.rfl
  | scc ID nodes =>
      refine foldlM_rule _ (fun (pre : List (CallGraphFunctionNode F)) s' =>
        Linking s₀ (fun x => D x ∨ (x ∈ cg.edges ∧ x.caller ∈ pre ∧ Crossing s₀ x)) s')
        (l := ord.visit nodes.elems) (h.congr fun x => by simp) ?_ |>.imp fun s' hs' => ⟨hs'.1, ?_⟩
      · intro pre n post s₁ hsplit h₁
        have hn : n ∈ nodes := mem_elems.mp (ord.mem_visit.mp (by rw [hsplit]; simp))
        have hA' : s₀.getNode n = some (.scc ID nodes) := (h₀.getNode_iff _ _).mpr ⟨hA, hn⟩
        obtain ⟨s', hs', h'⟩ := h₁.loop (l := ord.visit (cg.getOutgoingEdges n).elems)
          (fun s outgoingEdge => do
            let dstSCCNode ← s.getNode outgoingEdge.callee
            if dstSCCNode = .scc ID nodes then return s
            else s.linkTo (.scc ID nodes) dstSCCNode outgoingEdge) (Crossing s₀) (by
          intro x hx D s h
          obtain ⟨hxe, rfl⟩ := (hedges n x).mp hx
          obtain ⟨B, hB⟩ := hnode x hxe
          by_cases heq : B = .scc ID nodes
          · refine ⟨s, by simp [hget h, hB, heq], h.congr fun y => (or_iff_left ?_).symm⟩
            rintro ⟨rfl, hcross⟩
            exact hcross (by rw [hA', hB, heq])
          · obtain ⟨s', hs', h'⟩ := h.linkTo hA' hB
            refine ⟨s', ?_, h'.congr fun y => or_congr Iff.rfl ⟨?_, fun hy => hy.1⟩⟩
            · simp only [hget h, hB, Option.bind_eq_bind, Option.bind_some, heq, if_false]
              exact hs'
            · rintro rfl
              exact ⟨rfl, fun hcross => heq (Option.some.inj
                (hB.symm.trans (hcross.symm.trans hA')))⟩)
        refine ⟨s', hs', h'.congr fun y => ?_⟩
        rw [hedges, mem_append, mem_singleton]
        tauto
      · refine hs'.2.congr fun x => or_congr Iff.rfl (and_congr_right fun _ => and_congr_left fun _ => ?_)
        exact ord.mem_visit

/-- Exactly the calls between two components become edges. -/
theorem createEdges_spec (hok : EdgesOk cg) (h₀ : Building cg visited s₀)
    (hall : ∀ n, n ∈ visited ↔ n ∈ cg.getFunctionNodes) :
    ∃ s, createEdges ord cg s₀ = some s ∧
      Linking s₀ (fun x => x ∈ cg.edges ∧ Crossing s₀ x) s := by
  have hempty : Linking s₀ (fun _ => False) s₀ := by
    refine ⟨rfl, rfl, ?_, ?_, fun A B => ?_, fun e he => ?_, fun e he => ?_⟩
    · rw [h₀.edges_eq, h₀.outgoingEdges_eq]
      exact .empty
    · rw [h₀.edges_eq, h₀.incomingEdges_eq]
      exact .empty
    · simp [h₀.edges_eq]
    · simp [h₀.edges_eq] at he
    · simp [h₀.edges_eq] at he
  obtain ⟨s, hs, hlink⟩ := foldlM_rule (SCCCAG.createEdgesOf ord cg)
    (fun (pre : List (SCCCAGNode F)) s =>
      Linking s₀ (fun x => x ∈ cg.edges ∧ (∃ A ∈ pre, A.Holds x.caller) ∧ Crossing s₀ x) s)
    (l := ord.visit s₀.nodes.elems) (s := s₀) (hempty.congr fun x => by simp) (by
      intro pre A post s hsplit h
      have hA : A ∈ s₀.nodes := mem_elems.mp (ord.mem_visit.mp (by rw [hsplit]; simp))
      obtain ⟨s', hs', h'⟩ := h.createEdgesOf ord hok h₀ hall hA
      refine ⟨s', hs', h'.congr fun x => ?_⟩
      simp only [mem_append, mem_singleton, or_and_right, exists_or, exists_eq_left]
      exact and_or_left.symm)
  refine ⟨s, hs, hlink.congr fun x => and_congr_right fun hx => and_iff_right ?_⟩
  obtain ⟨A, hA⟩ := Option.isSome_iff_exists.mp ((h₀.isSome_iff _).mpr ((hall _).mpr
    (hok.edgeInvariant.edge_nodes x hx).1))
  obtain ⟨hAmem, hAx⟩ := (h₀.getNode_iff _ A).mp hA
  exact ⟨A, ord.mem_visit.mpr hAmem, hAx⟩

/-! ## The condensation -/

/-- Some edge goes from the one node to the other. -/
def Edge (s : SCCCAG F) (A B : SCCCAGNode F) : Prop := ∃ e ∈ s.edges, e.f = A ∧ e.t = B

/-- The SCCCAG is the condensation of the call graph. -/
structure IsCondensation (cg : CallGraph F I) (s : SCCCAG F) : Prop where
  /-- Every function node has one node, which is the one that holds it. -/
  isSome_iff : ∀ n, (s.getNode n).isSome = true ↔ n ∈ cg.getFunctionNodes
  getNode_iff : ∀ n A, s.getNode n = some A ↔ A ∈ s.nodes ∧ A.Holds n
  /-- Nodes are strongly connected components, plain ones single functions without a
  self-call. -/
  components : ∀ A ∈ s.nodes, IsComponent cg A
  /-- The edges are those of the calls between distinct components. -/
  edge_iff : ∀ A B, s.Edge A B ↔
    A ∈ s.nodes ∧ B ∈ s.nodes ∧ A ≠ B ∧ ∃ n m, A.Holds n ∧ B.Holds m ∧ cg.CallEdge n m
  outgoing : Records SCCCAGEdge.f SCCCAGEdge.t s.edges s.outgoingEdges
  incoming : Records SCCCAGEdge.t SCCCAGEdge.f s.edges s.incomingEdges
  /-- Every such call contributes its edge. -/
  mem_subEdges : ∀ e ∈ s.edges, ∀ x, x ∈ s.subEdges e ↔
    x ∈ cg.edges ∧ e.f.Holds x.caller ∧ e.t.Holds x.callee
  /-- No path leads back to its start. -/
  acyclic : ∀ A, ¬ TransGen s.Edge A A

omit [DecidableEq I] in
/-- Edges between distinct components form no cycle. -/
theorem acyclic_of_components (hcomp : ∀ A ∈ s.nodes, IsComponent cg A)
    (hunique : ∀ n A B, A ∈ s.nodes → B ∈ s.nodes → A.Holds n → B.Holds n → A = B)
    (hedge : ∀ A B, s.Edge A B → A ∈ s.nodes ∧ B ∈ s.nodes ∧ A ≠ B ∧
      ∃ n m, A.Holds n ∧ B.Holds m ∧ cg.CallEdge n m) (A : SCCCAGNode F) :
    ¬ TransGen s.Edge A A := by
  have hac : Acyclic s.Edge := by
    intro A B hAB
    by_contra hne
    have hmem : ∀ {A B}, ReflTransGen s.Edge A B → A ≠ B → A ∈ s.nodes := fun {A B} h hne => by
      cases h.cases_head with
      | inl heq => exact absurd heq hne
      | inr h => exact (hedge _ _ h.choose_spec.1).1
    have hA := hmem hAB.1 hne
    have hB := hmem hAB.2 (Ne.symm hne)
    obtain ⟨n, _, hn⟩ := (hcomp A hA).nonempty
    obtain ⟨m, _, hm⟩ := (hcomp B hB).nonempty
    -- a path over components is a path over their function nodes
    have hreach : ∀ {A B n m}, ReflTransGen s.Edge A B → A ∈ s.nodes → A.Holds n → B.Holds m →
        ReflTransGen cg.CallEdge n m := by
      intro A B n m hpath hA hn hm
      have hlift := reach_of_reach_classes (M := fun A n => A ∈ s.nodes ∧ A.Holds n)
        (E := cg.CallEdge) (fun A B hAB _ => by
          obtain ⟨hA, hB, _, n, m, hn, hm, hnm⟩ := hedge A B hAB
          exact ⟨n, m, ⟨hA, hn⟩, ⟨hB, hm⟩, hnm⟩) hpath ⟨hA, hn⟩ ⟨?_, hm⟩
      · clear hn hm
        induction hlift with
        | refl => exact .refl
        | tail _ hbc ih =>
            rcases hbc with hbc | ⟨C, ⟨hC, hb⟩, _, hc⟩
            · exact ih.tail hbc
            · exact ih.trans (((hcomp C hC).holds_iff _ hb _).mp hc).1
      · cases hpath.cases_tail with
        | inl heq => exact heq ▸ hA
        | inr h => exact (hedge _ _ h.choose_spec.2).2.1
    have hnm : StronglyConnected cg.CallEdge n m :=
      ⟨hreach hAB.1 hA hn hm, hreach hAB.2 hB hm hn⟩
    exact hne (hunique m A B hA hB (((hcomp A hA).holds_iff n hn m).mpr hnm) hm)
  exact hac.not_transGen_self (fun A hAA => (hedge A A hAA).2.2.1 rfl) A

/-- **The SCCCAG of a call graph**: the constructor builds its condensation. -/
theorem new_isCondensation (it : SccIterator) (hok : EdgesOk cg) (currentID : Nat) :
    ∃ s, new ord cg it currentID = some s ∧ IsCondensation cg s := by
  obtain ⟨s₀, visited, hs₀, h₀, hall⟩ := createNodes_spec ord it hok currentID
  obtain ⟨s, hs, h⟩ := createEdges_spec ord hok h₀ hall
  have hget : ∀ n A, s.getNode n = some A ↔ A ∈ s.nodes ∧ A.Holds n := fun n A => by
    rw [getNode, h.fromCGNodeToSCC_eq, h.nodes_eq]
    exact h₀.getNode_iff n A
  have hget₀ : ∀ n, s₀.getNode n = s.getNode n := fun n => by
    rw [getNode, getNode, h.fromCGNodeToSCC_eq]
  have hcomp : ∀ A ∈ s.nodes, IsComponent cg A := by
    rw [h.nodes_eq]
    exact h₀.components
  have hedge : ∀ A B, s.Edge A B ↔
      A ∈ s.nodes ∧ B ∈ s.nodes ∧ A ≠ B ∧ ∃ n m, A.Holds n ∧ B.Holds m ∧ cg.CallEdge n m := by
    intro A B
    rw [Edge, h.edge_iff]
    simp only [Crossing, hget₀]
    constructor
    · rintro ⟨x, ⟨hx, hcross⟩, hA, hB⟩
      refine ⟨((hget _ _).mp hA).1, ((hget _ _).mp hB).1, fun heq => hcross ?_, x.caller, x.callee,
        ((hget _ _).mp hA).2, ((hget _ _).mp hB).2, x, hx, rfl, rfl⟩
      rw [hA, hB, heq]
    · rintro ⟨hA, hB, hne, _, _, hn, hm, x, hx, rfl, rfl⟩
      have hA' := (hget x.caller A).mpr ⟨hA, hn⟩
      have hB' := (hget x.callee B).mpr ⟨hB, hm⟩
      refine ⟨x, ⟨hx, fun heq => hne ?_⟩, hA', hB'⟩
      exact Option.mem_unique hA' (heq.trans hB')
  have hunique : ∀ n A B, A ∈ s.nodes → B ∈ s.nodes → A.Holds n → B.Holds n → A = B :=
    fun n A B hA hB hnA hnB => Option.some.inj
      (((hget n A).mpr ⟨hA, hnA⟩).symm.trans ((hget n B).mpr ⟨hB, hnB⟩))
  refine ⟨s, by rw [new, hs₀]; exact hs, fun n => ?_, hget, hcomp, hedge, h.outgoing, h.incoming,
    fun e he x => ?_, acyclic_of_components hcomp hunique fun A B => (hedge A B).mp⟩
  · rw [← hget₀, h₀.isSome_iff, hall]
  · obtain ⟨hA, hB, hne, _⟩ := (hedge e.f e.t).mp ⟨e, he, rfl, rfl⟩
    rw [h.mem_subEdges e he, hget₀, hget₀, Crossing, hget₀, hget₀, hget, hget, and_iff_right hA,
      and_iff_right hB, and_assoc]
    refine and_congr_right fun _ => and_iff_right_of_imp fun hends heq => hne ?_
    rw [(hget _ _).mpr ⟨hA, hends.1⟩, (hget _ _).mpr ⟨hB, hends.2⟩] at heq
    exact Option.some.inj heq

/-- Four functions: two that call each other, one that calls itself and the first one,
and one without calls. -/
def recursion : IRModule Nat Nat where
  functions := ⟨[1, 2, 3, 4], (nodup_range' 1 : (List.range' 1 4).Nodup)⟩
  instructions f := if f = 1 then [10] else if f = 2 then [20] else if f = 3 then [30, 31] else []
  kind i := .callInst (some (if i = 10 then 2 else if i = 30 then 3 else 1))
  getFunction i := if i = 10 then 1 else if i = 20 then 2 else 3
  uses f :=
    if f = 1 then [⟨some 20, true⟩, ⟨some 31, true⟩] else if f = 2 then [⟨some 10, true⟩]
    else if f = 3 then [⟨some 30, true⟩] else []
  getFunction_eq := by decide
  use_ok := by decide
  callee_ok := by decide

def recursionGraph : CallGraph Nat Nat :=
  (CallGraph.new recursion .stored (fun _ => false) fun _ => ∅).getD CallGraph.empty

theorem recursionGraph_edgesOk : EdgesOk recursionGraph := by
  have hcallees : CalleesOk recursion fun _ => ∅ := fun _ _ _ _ callee hc =>
    absurd hc (not_mem_empty callee)
  obtain ⟨g, hg, hok⟩ := new_ofModule .stored (fun _ => false) hcallees
  rw [recursionGraph, hg]
  exact hok.toEdgesOk

theorem new_isCondensation_recursion :
    ∃ s, new .stored recursionGraph .saturating 0 = some s ∧ IsCondensation recursionGraph s :=
  new_isCondensation .stored .saturating recursionGraph_edgesOk 0

/-- Two SCCs and a plain function. -/
example : ((new .stored recursionGraph .saturating 0).map fun s =>
    (s.nodes.elems.map SCCCAGNode.isAnSCC, s.edges.size)) = some ([false, true, true], 1) := by
  decide +kernel

end SCCCAG

end Noelle
