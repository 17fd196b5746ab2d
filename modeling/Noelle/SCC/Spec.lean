import Mathlib.Algebra.BigOperators.Group.List.Basic
import Mathlib.Algebra.Order.Group.Multiset
import Noelle.DG.Invariant
import Noelle.SCC.Basic

/-!
# SCC.Spec

What the constructor of an SCC computes.

A `Dep` is a dependence as data: its two values, its kind and its flag, without
the identity of the edge that carries it.  Copying an edge keeps its `Dep`, so the
contents of a graph are the multiset of its dependences.  `SCC.new_spec` says that
the SCC of some nodes holds exactly the dependences that touch their values, each
as often as the nodes have it.
-/

namespace Noelle

open PtrSet

/-! ## Dependences -/

/-- A dependence. -/
structure Dep (T : Type) where
  src : T
  dst : T
  kind : DependenceKind
  dataDepType : Option DataDependenceType
  isLoopCarried : Bool
  deriving DecidableEq

/-- The dependence an edge stands for. -/
def DGEdge.dep {T S : Type} (attr : DGEdge T → EdgeAttr S) (e : DGEdge T) : Dep T :=
  ⟨e.getSrc, e.getDst, e.kind, e.dataDepType, (attr e).isLoopCarried⟩

/-- The dependences of a graph. -/
def DG.deps {T S : Type} (g : DG T S) : Multiset (Dep T) :=
  (g.allEdges.elems : Multiset (DGEdge T)).map (DGEdge.dep g.edgeAttr)

namespace EdgeAttr

variable {S : Type}

/-- The flag of an edge covers those of its sub-edges. -/
def Covers (subLC : S → Bool) (a : EdgeAttr S) : Prop :=
  ∀ s ∈ a.getSubEdges, subLC s = true → a.isLoopCarried = true

instance [DecidableEq S] (subLC : S → Bool) (a : EdgeAttr S) : Decidable (a.Covers subLC) :=
  inferInstanceAs (Decidable (∀ s ∈ a.getSubEdges.elems, subLC s = true → a.isLoopCarried = true))

theorem covers_of_no_subEdges (subLC : S → Bool) (lc : Bool) :
    Covers subLC { isLoopCarried := lc } := fun s hs => absurd hs (not_mem_empty s)

variable [DecidableEq S]

/-- The copy of an edge keeps its flag. -/
theorem copy_spec {subLC : S → Bool} {a : EdgeAttr S} (h : a.Covers subLC) :
    (a.copy subLC).isLoopCarried = a.isLoopCarried ∧ (a.copy subLC).Covers subLC := by
  unfold copy
  cases hsubs : a.subEdges with
  | none => exact ⟨rfl, covers_of_no_subEdges subLC _⟩
  | some subs =>
      have hcov : ∀ s ∈ subs, subLC s = true → a.isLoopCarried = true := by
        intro s hs
        exact h s (by rw [getSubEdges, hsubs]; exact hs)
      have hloop := foldl_rule (fun c s => c.addSubEdge s (subLC s))
        (fun pre c => c.isLoopCarried = a.isLoopCarried ∧ ∀ s ∈ c.getSubEdges, s ∈ pre)
        (l := subs.elems) (s := ({ isLoopCarried := a.isLoopCarried } : EdgeAttr S))
        ⟨rfl, fun s hs => absurd hs (not_mem_empty s)⟩
        (by
          rintro pre s post c hsplit ⟨hflag, hmem⟩
          have hs : s ∈ subs := by
            rw [← mem_elems, hsplit]
            simp
          refine ⟨?_, fun x hx => ?_⟩
          · cases hlc : subLC s with
            | false => simp [addSubEdge, hflag]
            | true => simp [addSubEdge, hcov s hs hlc]
          · rcases (mem_getSubEdges_addSubEdge c s x (subLC s)).mp hx with rfl | hx
            · simp
            · exact List.mem_append_left _ (hmem x hx))
      refine ⟨hloop.1, fun s hs hlc => ?_⟩
      rw [hloop.1]
      exact hcov s (hloop.2 s hs) hlc

end EdgeAttr

/-! ## Complete nodes -/

namespace NodeStore

variable {V : Type} [DecidableEq V]

/-- The edges of a node are the dependences of `D` that start or end in its value. -/
structure Complete (store : NodeStore V) (subLC : DGEdge V → Bool) (D : Multiset (Dep V))
    (n : DGNode V) : Prop where
  outgoing : ((store.outgoingEdges n).elems : Multiset (DGEdge V)).map (DGEdge.dep store.edgeAttr) =
    D.filter fun d => d.src = n.theT
  incoming : ((store.incomingEdges n).elems : Multiset (DGEdge V)).map (DGEdge.dep store.edgeAttr) =
    D.filter fun d => d.dst = n.theT
  edges_ok : ∀ e, e ∈ store.outgoingEdges n ∨ e ∈ store.incomingEdges n →
    e.kind ≠ .undefinedDependence ∧ (store.edgeAttr e).Covers subLC

namespace Complete

variable {store : NodeStore V} {subLC : DGEdge V → Bool} {D : Multiset (Dep V)} {n : DGNode V}

omit [DecidableEq V] in
theorem exists_edge_iff {edges : PtrSet (DGEdge V)} {p : Dep V → Prop} [DecidablePred p]
    (h : (edges.elems : Multiset (DGEdge V)).map (DGEdge.dep store.edgeAttr) = D.filter p) {d : Dep V} :
    (∃ e ∈ edges, e.dep store.edgeAttr = d) ↔ d ∈ D ∧ p d := by
  rw [← Multiset.mem_filter, ← h, Multiset.mem_map]
  rfl

section

variable (h : store.Complete subLC D n)

include h

theorem mem_outgoing {e : DGEdge V}
    (he : e ∈ store.outgoingEdges n) : e.dep store.edgeAttr ∈ D ∧ e.getSrc = n.theT :=
  (exists_edge_iff h.outgoing).mp ⟨e, he, rfl⟩

theorem mem_incoming {e : DGEdge V}
    (he : e ∈ store.incomingEdges n) : e.dep store.edgeAttr ∈ D ∧ e.getDst = n.theT :=
  (exists_edge_iff h.incoming).mp ⟨e, he, rfl⟩

theorem exists_outgoing {d : Dep V} (hd : d ∈ D)
    (hsrc : d.src = n.theT) : ∃ e ∈ store.outgoingEdges n, e.dep store.edgeAttr = d :=
  (exists_edge_iff h.outgoing).mpr ⟨hd, hsrc⟩

theorem exists_incoming {d : Dep V} (hd : d ∈ D)
    (hdst : d.dst = n.theT) : ∃ e ∈ store.incomingEdges n, e.dep store.edgeAttr = d :=
  (exists_edge_iff h.incoming).mpr ⟨hd, hdst⟩

end

end Complete

end NodeStore

/-! ## Copied edges -/

namespace SCC

variable {V : Type} [DecidableEq V] {subLC : DGEdge V → Bool}

/-- A graph the copy operations can read and produce: well formed, without
undefined dependences, and with flags that cover the sub-edges. -/
structure Ok (subLC : DGEdge V → Bool) (g : SCC V) : Prop extends g.WF where
  kind_ne : ∀ e ∈ g.allEdges, e.kind ≠ .undefinedDependence
  covers : ∀ e ∈ g.allEdges, (g.edgeAttr e).Covers subLC

/-- `g'` is `g` with the dependences `ds` added between existing nodes. -/
structure Copied (subLC : DGEdge V → Bool) (g : SCC V) (ds : Multiset (Dep V)) (g' : SCC V) :
    Prop where
  ok : Ok subLC g'
  self_eq : g'.self = g.self
  internalNodeMap_eq : g'.internalNodeMap = g.internalNodeMap
  externalNodeMap_eq : g'.externalNodeMap = g.externalNodeMap
  deps_eq : g'.deps = g.deps + ds

namespace Copied

variable {g g' g'' : SCC V} {ds ds' : Multiset (Dep V)}

theorem refl (h : Ok subLC g) : Copied subLC g 0 g := ⟨h, rfl, rfl, rfl, (add_zero _).symm⟩

section

variable (h : Copied subLC g ds g')

include h

theorem trans (h' : Copied subLC g' ds' g'') :
    Copied subLC g (ds + ds') g'' where
  ok := h'.ok
  self_eq := h'.self_eq.trans h.self_eq
  internalNodeMap_eq := h'.internalNodeMap_eq.trans h.internalNodeMap_eq
  externalNodeMap_eq := h'.externalNodeMap_eq.trans h.externalNodeMap_eq
  deps_eq := by rw [h'.deps_eq, h.deps_eq, add_assoc]

theorem isInternal_eq (v : V) : g'.isInternal v = g.isInternal v := by
  rw [DG.isInternal, h.internalNodeMap_eq, DG.isInternal]

theorem isExternal_eq (v : V) : g'.isExternal v = g.isExternal v := by
  rw [DG.isExternal, h.externalNodeMap_eq, DG.isExternal]

theorem isInGraph_eq (v : V) : g'.isInGraph v = g.isInGraph v := by
  rw [DG.isInGraph, h.isInternal_eq, h.isExternal_eq, DG.isInGraph]

end

end Copied

/-- The edge is copied between the values of its ends. -/
theorem copyAddEdge_copied {g : SCC V} (h : Ok subLC g) {attr : DGEdge V → EdgeAttr (DGEdge V)}
    {e : DGEdge V} (hkind : e.kind ≠ .undefinedDependence) (hcov : (attr e).Covers subLC)
    (hsrc : g.isInGraph e.getSrc = true) (hdst : g.isInGraph e.getDst = true) :
    ∃ e' g', g.copyAddEdge subLC e (attr e) = some (e', g') ∧
      Copied subLC g {e.dep attr} g' := by
  obtain ⟨a, ha⟩ := h.exists_nodeOf hsrc
  obtain ⟨b, hb⟩ := h.exists_nodeOf hdst
  have hta : a.theT = e.getSrc := (h.nodeOf_mem ha).2
  have htb : b.theT = e.getDst := (h.nodeOf_mem hb).2
  obtain ⟨hflag, hcov'⟩ := EdgeAttr.copy_spec hcov
  have hcopy : g.copyAddEdge subLC e (attr e) =
      some (g.insertEdge a b e.kind e.dataDepType ((attr e).copy subLC)) := by
    rw [← DG.addDependenceEdge_eq ha hb]
    unfold DG.copyAddEdge
    cases hk : e.kind with
    | undefinedDependence => exact absurd hk hkind
    | _ => rfl
  have hwf : (g.insertEdge a b e.kind e.dataDepType ((attr e).copy subLC)).2.WF :=
    h.toWF.insertEdge (by rw [hta]; exact ha) (by rw [htb]; exact hb)
  refine ⟨g.newEdge a b e.kind e.dataDepType,
    (g.insertEdge a b e.kind e.dataDepType ((attr e).copy subLC)).2, hcopy,
    { ok := { toWF := hwf, kind_ne := ?_, covers := ?_ }, self_eq := rfl,
      internalNodeMap_eq := rfl, externalNodeMap_eq := rfl, deps_eq := ?_ }⟩
  · intro x hx
    rcases (DG.mem_insertEdge_allEdges ..).mp hx with rfl | hx
    · exact hkind
    · exact h.kind_ne x hx
  · intro x hx
    rcases (DG.mem_insertEdge_allEdges ..).mp hx with rfl | hx
    · rw [DG.insertEdge_edgeAttr_self]
      exact hcov'
    · rw [h.toWF.insertEdge_edgeAttr hx]
      exact h.covers x hx
  · have hedges : ((g.insertEdge a b e.kind e.dataDepType ((attr e).copy subLC)).2.allEdges.elems :
        Multiset (DGEdge V)) =
          g.newEdge a b e.kind e.dataDepType ::ₘ (g.allEdges.elems : Multiset (DGEdge V)) :=
      coe_insert_of_notMem h.toWF.newEdge_notMem
    have hnew : (g.newEdge a b e.kind e.dataDepType).dep
        (g.insertEdge a b e.kind e.dataDepType ((attr e).copy subLC)).2.edgeAttr = e.dep attr := by
      unfold DGEdge.dep
      rw [DG.insertEdge_edgeAttr_self, hflag]
      simp only [DG.newEdge, DGEdge.getSrc, DGEdge.getDst] at hta htb ⊢
      rw [hta, htb]
    have hold : (g.allEdges.elems : Multiset (DGEdge V)).map (DGEdge.dep
        (g.insertEdge a b e.kind e.dataDepType ((attr e).copy subLC)).2.edgeAttr) = g.deps := by
      refine Multiset.map_congr rfl fun x hx => ?_
      unfold DGEdge.dep
      rw [h.toWF.insertEdge_edgeAttr (mem_elems.mp (Multiset.mem_coe.mp hx))]
    rw [DG.deps, hedges, Multiset.map_cons, hnew, hold, add_comm, Multiset.singleton_add]

/-! ## The loops -/

theorem filter_add_disjoint {α : Type} {p q : α → Prop} [DecidablePred p] [DecidablePred q]
    {s : Multiset α} (h : ∀ a ∈ s, p a → ¬ q a) :
    s.filter p + s.filter q = s.filter fun a => p a ∨ q a := by
  have hnil : s.filter (fun a => p a ∧ q a) = 0 :=
    Multiset.filter_eq_nil.mpr fun a ha hpq => h a ha hpq.1 hpq.2
  rw [Multiset.filter_add_filter, hnil, add_zero]

/-- Splitting a multiset by a key: the keys are distinct, so nothing is counted twice. -/
theorem sum_filter_key {α β : Type} [DecidableEq β] (key : α → β) (p : α → Prop) [DecidablePred p]
    (s : Multiset α) : ∀ {ks : List β}, ks.Nodup →
      (ks.map fun k => s.filter fun a => key a = k ∧ p a).sum =
        s.filter fun a => key a ∈ ks ∧ p a
  | [], _ => by simp
  | k :: ks, h => by
      obtain ⟨hk, hks⟩ := List.nodup_cons.mp h
      have hdisj : ∀ a ∈ s, (key a = k ∧ p a) → ¬ (key a ∈ ks ∧ p a) :=
        fun a _ h₁ h₂ => hk (h₁.1 ▸ h₂.1)
      rw [List.map_cons, List.sum_cons, sum_filter_key key p s hks, filter_add_disjoint hdisj]
      refine Multiset.filter_congr fun a _ => ?_
      rw [List.mem_cons]
      tauto

omit [DecidableEq V] in
theorem filter_touching {D : Multiset (Dep V)} {inI exI : V → Bool}
    (h : ∀ d ∈ D, inI d.src = true → (exI d.dst = false ↔ inI d.dst = true)) :
    (D.filter fun d => inI d.src = true ∧ exI d.dst = false) +
        ((D.filter fun d => inI d.src = true ∧ inI d.dst = false) +
          D.filter fun d => inI d.dst = true ∧ inI d.src = false) =
      D.filter fun d => inI d.src = true ∨ inI d.dst = true := by
  have hfirst : (D.filter fun d => inI d.src = true ∧ exI d.dst = false) =
      D.filter fun d => inI d.src = true ∧ inI d.dst = true :=
    Multiset.filter_congr fun d hd => and_congr_right (h d hd)
  have hdisj₁ : ∀ d ∈ D, (inI d.src = true ∧ inI d.dst = false) →
      ¬ (inI d.dst = true ∧ inI d.src = false) :=
    fun d _ h₁ h₂ => Bool.false_ne_true (h₂.2.symm.trans h₁.1)
  have hdisj₂ : ∀ d ∈ D, (inI d.src = true ∧ inI d.dst = true) →
      ¬ ((inI d.src = true ∧ inI d.dst = false) ∨ (inI d.dst = true ∧ inI d.src = false)) := by
    rintro d _ ⟨hs, ht⟩ (⟨_, h₂⟩ | ⟨_, h₂⟩)
    · exact Bool.false_ne_true (h₂.symm.trans ht)
    · exact Bool.false_ne_true (h₂.symm.trans hs)
  rw [hfirst, filter_add_disjoint hdisj₁, filter_add_disjoint hdisj₂]
  refine Multiset.filter_congr fun d _ => ?_
  cases inI d.src <;> cases inI d.dst <;> simp

/-- The edges that are not skipped are copied. -/
theorem copyEdges_copied {store : NodeStore V} {skip : SCC V → DGEdge V → Bool} {g : SCC V}
    (h : Ok subLC g) (hskip : ∀ g' ds, Copied subLC g ds g' → ∀ e, skip g' e = skip g e)
    {l : List (DGEdge V)}
    (hl : ∀ e ∈ l, skip g e = false → e.kind ≠ .undefinedDependence ∧
      (store.edgeAttr e).Covers subLC ∧ g.isInGraph e.getSrc = true ∧ g.isInGraph e.getDst = true) :
    ∃ g', l.foldlM (copyEdgeUnless subLC store skip) g = some g' ∧
      Copied subLC g (((l : Multiset (DGEdge V)).filter fun e => skip g e = false).map
        (DGEdge.dep store.edgeAttr)) g' := by
  refine foldlM_rule (copyEdgeUnless subLC store skip) (fun pre g' => Copied subLC g
    (((pre : Multiset (DGEdge V)).filter fun e => skip g e = false).map
      (DGEdge.dep store.edgeAttr)) g') (Copied.refl h) ?_
  intro pre e post g₁ hsplit hcop
  have he : e ∈ l := by rw [hsplit]; simp
  have happ : ((pre ++ [e] : List (DGEdge V)) : Multiset (DGEdge V)) = pre + {e} := by
    rw [← Multiset.coe_add, Multiset.coe_singleton]
  rw [copyEdgeUnless, hskip g₁ _ hcop e, happ, Multiset.filter_add]
  cases hse : skip g e with
  | true =>
      refine ⟨g₁, rfl, ?_⟩
      simpa [Multiset.filter_singleton, hse] using hcop
  | false =>
      obtain ⟨hkind, hcov, hsrc, hdst⟩ := hl e he hse
      obtain ⟨e', g₂, hcopy, hcop₂⟩ := @copyAddEdge_copied V _ subLC _ hcop.ok store.edgeAttr e
        hkind hcov
        (by rw [hcop.isInGraph_eq]; exact hsrc) (by rw [hcop.isInGraph_eq]; exact hdst)
      refine ⟨g₂, by simp [hcopy], ?_⟩
      simpa [Multiset.filter_singleton, hse] using hcop.trans hcop₂

theorem copyNodes_copied {f : SCC V → DGNode V → Option (SCC V)} {g : SCC V} (h : Ok subLC g)
    (F : DGNode V → Multiset (Dep V)) {nodes : List (DGNode V)}
    (hf : ∀ n ∈ nodes, ∀ g₁ ds, Copied subLC g ds g₁ →
      ∃ g₂, f g₁ n = some g₂ ∧ Copied subLC g₁ (F n) g₂) :
    ∃ g', nodes.foldlM f g = some g' ∧ Copied subLC g (nodes.map F).sum g' := by
  refine foldlM_rule f (fun pre g' => Copied subLC g (pre.map F).sum g') (Copied.refl h) ?_
  intro pre n post g₁ hsplit hcop
  obtain ⟨g₂, hg₂, hcop₂⟩ := hf n (by rw [hsplit]; simp) g₁ _ hcop
  refine ⟨g₂, hg₂, ?_⟩
  rw [List.map_append, List.sum_append, List.map_singleton, List.sum_singleton]
  exact hcop.trans hcop₂

/-- The nodes are added on their side, without any edge. -/
theorem addNodes_spec (ord : IterOrder) {inclusion : Bool} {nodes : PtrSet (DGNode V)} {g : SCC V}
    (h : g.WF) (hedges : g.allEdges = ∅)
    (hother : ∀ n ∈ nodes, if inclusion then g.isExternal n.theT = false
      else g.isInternal n.theT = false) :
    (addNodes ord inclusion nodes g).WF ∧ (addNodes ord inclusion nodes g).allEdges = ∅ ∧
      (addNodes ord inclusion nodes g).self = g.self ∧
      (∀ v, (addNodes ord inclusion nodes g).isInternal v = true ↔
        g.isInternal v = true ∨ (inclusion = true ∧ ∃ n ∈ nodes, n.theT = v)) ∧
      ∀ v, (addNodes ord inclusion nodes g).isExternal v = true ↔
        g.isExternal v = true ∨ (inclusion = false ∧ ∃ n ∈ nodes, n.theT = v) := by
  have hloop := foldl_rule (fun (g : SCC V) node => (g.addNode node.theT inclusion).2)
    (fun pre g' => g'.WF ∧ g'.allEdges = ∅ ∧ g'.self = g.self ∧
      (∀ v, g'.isInternal v = true ↔
        g.isInternal v = true ∨ (inclusion = true ∧ ∃ n ∈ pre, n.theT = v)) ∧
      ∀ v, g'.isExternal v = true ↔
        g.isExternal v = true ∨ (inclusion = false ∧ ∃ n ∈ pre, n.theT = v))
    (l := ord.visit nodes.elems) (s := g)
    ⟨h, hedges, rfl, fun v => by simp, fun v => by simp⟩
    (by
      rintro pre n post g' hsplit ⟨hwf, hempty, hself, hint, hext⟩
      have hn : n ∈ nodes := by
        rw [← mem_elems, ← ord.mem_visit, hsplit]
        simp
      have hmem : ∀ v, (∃ m ∈ pre ++ [n], m.theT = v) ↔ v = n.theT ∨ ∃ m ∈ pre, m.theT = v := by
        intro v
        simp [or_and_right, exists_or, eq_comm, or_comm]
      refine ⟨hwf.addNode ?_ ?_, hempty, hself, fun v => ?_, fun v => ?_⟩
      · have hold := hother n hn
        cases inclusion with
        | true =>
            have heq : g'.isExternal n.theT = g.isExternal n.theT := by
              rw [Bool.eq_iff_iff, hext]
              simp
            exact heq.trans hold
        | false =>
            have heq : g'.isInternal n.theT = g.isInternal n.theT := by
              rw [Bool.eq_iff_iff, hint]
              simp
            exact heq.trans hold
      · intro e he
        rw [hempty] at he
        exact absurd he (not_mem_empty e)
      · rw [hmem, DG.addNode_isInternal, Bool.or_eq_true, hint]
        cases inclusion <;> simp [or_left_comm]
      · rw [hmem, DG.addNode_isExternal, Bool.or_eq_true, hext]
        cases inclusion <;> simp; tauto)
  simpa [addNodes] using hloop

/-! ## The constructor -/

/-- The SCC `g` holds every dependence of `D` that touches its values, and the
other ends of these as external values. -/
structure Represents (subLC : DGEdge V → Bool) (D : Multiset (Dep V)) (g : SCC V) : Prop where
  ok : Ok subLC g
  deps_eq : g.deps = D.filter fun d => g.isInternal d.src = true ∨ g.isInternal d.dst = true
  isExternal_iff : ∀ v, g.isExternal v = true ↔ g.isInternal v = false ∧
    ∃ d ∈ D, (d.src = v ∧ g.isInternal d.dst = true) ∨ (d.dst = v ∧ g.isInternal d.src = true)

/-- The external nodes are the other ends of edges across the set. -/
theorem mem_externalNodesOf {store : NodeStore V} {nodes : PtrSet (DGNode V)} {x : DGNode V} :
    x ∈ externalNodesOf store nodes ↔ ∃ n ∈ nodes,
      (∃ e ∈ store.outgoingEdges n, (¬ ∃ m ∈ nodes, m.theT = e.getDst) ∧ e.dstNode = x) ∨
      (∃ e ∈ store.incomingEdges n, (¬ ∃ m ∈ nodes, m.theT = e.getSrc) ∧ e.srcNode = x) := by
  have hvalues : ∀ v, v ∈ PtrSet.ofList (nodes.elems.map DGNode.theT) ↔ ∃ m ∈ nodes, m.theT = v := by
    intro v
    simp
  have hloop := foldl_rule (fun (externalNodes : PtrSet (DGNode V)) node =>
      let dsts := (store.outgoingEdges node).filter fun edge =>
        decide (edge.getDst ∉ PtrSet.ofList (nodes.elems.map DGNode.theT))
      let srcs := (store.incomingEdges node).filter fun edge =>
        decide (edge.getSrc ∉ PtrSet.ofList (nodes.elems.map DGNode.theT))
      (externalNodes.insertAll (dsts.elems.map DGEdge.dstNode)).insertAll
        (srcs.elems.map DGEdge.srcNode))
    (fun pre ext => ∀ x, x ∈ ext ↔ ∃ n ∈ pre,
      (∃ e ∈ store.outgoingEdges n, (¬ ∃ m ∈ nodes, m.theT = e.getDst) ∧ e.dstNode = x) ∨
      (∃ e ∈ store.incomingEdges n, (¬ ∃ m ∈ nodes, m.theT = e.getSrc) ∧ e.srcNode = x))
    (l := nodes.elems) (s := ∅) (fun x => by simp)
    (by
      intro pre n post ext _ hinv x
      simp only [mem_insertAll, List.mem_map, mem_elems, mem_filter,
        decide_eq_true_eq, hvalues, hinv, List.mem_append, List.mem_singleton, or_and_right,
        exists_or, exists_eq_left, and_assoc, or_assoc])
  exact hloop x

section New

variable (ord : IterOrder) {store : NodeStore V} {D : Multiset (Dep V)} {self : Nat}
  {nodes : PtrSet (DGNode V)}

/-- The nodes of a merged SCC: the values inside, and those they depend on or feed. -/
theorem skeleton_spec (hcomplete : ∀ n ∈ nodes, store.Complete subLC D n) :
    ∃ g, g = addNodes ord false (externalNodesOf store nodes)
        (addNodes ord true nodes (DG.empty self : SCC V)) ∧
      g.WF ∧ g.allEdges = ∅ ∧ g.self = self ∧
      (∀ v, g.isInternal v = true ↔ ∃ n ∈ nodes, n.theT = v) ∧
      ∀ v, g.isExternal v = true ↔ g.isInternal v = false ∧
        ∃ d ∈ D, (d.src = v ∧ g.isInternal d.dst = true) ∨ (d.dst = v ∧ g.isInternal d.src = true) := by
  obtain ⟨hwf₁, hedges₁, hself₁, hint₁, hext₁⟩ := @addNodes_spec V _ ord true nodes _
    (DG.empty_clean self : (DG.empty self : SCC V).Clean).toWF rfl
    (fun n _ => DG.empty_isExternal self n.theT)
  set g₁ := addNodes ord true nodes (DG.empty self : SCC V)
  have hnodes : ∀ v, g₁.isInternal v = true ↔ ∃ n ∈ nodes, n.theT = v := by
    intro v
    rw [hint₁, DG.empty_isInternal]
    simp
  have hnoext : ∀ v, ¬ g₁.isExternal v = true := by
    intro v
    rw [hext₁, DG.empty_isExternal]
    simp
  have hstub : ∀ x ∈ externalNodesOf store nodes, g₁.isInternal x.theT = false := by
    intro x hx
    rw [Bool.eq_false_iff, Ne, hnodes]
    obtain ⟨n, _, ⟨e, _, hno, rfl⟩ | ⟨e, _, hno, rfl⟩⟩ := mem_externalNodesOf.mp hx
    · exact hno
    · exact hno
  obtain ⟨hwf₂, hedges₂, hself₂, hint₂, hext₂⟩ := @addNodes_spec V _ ord false
    (externalNodesOf store nodes) _ hwf₁ hedges₁ hstub
  set g₂ := addNodes ord false (externalNodesOf store nodes) g₁
  have hint : ∀ v, g₂.isInternal v = true ↔ ∃ n ∈ nodes, n.theT = v := by
    intro v
    rw [hint₂, hnodes]
    simp
  refine ⟨g₂, rfl, hwf₂, hedges₂, hself₂.trans hself₁, hint, fun v => ?_⟩
  have hextv : g₂.isExternal v = true ↔ ∃ x ∈ externalNodesOf store nodes, x.theT = v := by
    rw [hext₂]
    simp [hnoext]
  rw [hextv, Bool.eq_false_iff, Ne, hint]
  constructor
  · rintro ⟨x, hx, rfl⟩
    obtain ⟨n, hn, ⟨e, he, hno, rfl⟩ | ⟨e, he, hno, rfl⟩⟩ := mem_externalNodesOf.mp hx
    · obtain ⟨hd, hsrc⟩ := (hcomplete n hn).mem_outgoing he
      exact ⟨hno, _, hd, .inr ⟨rfl, (hint _).mpr ⟨n, hn, hsrc.symm⟩⟩⟩
    · obtain ⟨hd, hdst⟩ := (hcomplete n hn).mem_incoming he
      exact ⟨hno, _, hd, .inl ⟨rfl, (hint _).mpr ⟨n, hn, hdst.symm⟩⟩⟩
  · rintro ⟨hno, d, hd, ⟨rfl, hin⟩ | ⟨rfl, hin⟩⟩
    · obtain ⟨n, hn, hnt⟩ := (hint _).mp hin
      obtain ⟨e, he, rfl⟩ := (hcomplete n hn).exists_incoming hd hnt.symm
      exact ⟨e.srcNode, mem_externalNodesOf.mpr ⟨n, hn, .inr ⟨e, he, hno, rfl⟩⟩, rfl⟩
    · obtain ⟨n, hn, hnt⟩ := (hint _).mp hin
      obtain ⟨e, he, rfl⟩ := (hcomplete n hn).exists_outgoing hd hnt.symm
      exact ⟨e.dstNode, mem_externalNodesOf.mpr ⟨n, hn, .inl ⟨e, he, hno, rfl⟩⟩, rfl⟩

/-- The edges of one side are copied. -/
theorem copySide_copied {g : SCC V} (h : Ok subLC g) {edges : PtrSet (DGEdge V)}
    {p : Dep V → Prop} [DecidablePred p]
    (hdeps : (edges.elems : Multiset (DGEdge V)).map (DGEdge.dep store.edgeAttr) = D.filter p)
    (hok : ∀ e ∈ edges, e.kind ≠ .undefinedDependence ∧ (store.edgeAttr e).Covers subLC)
    {skip : SCC V → DGEdge V → Bool} {q : Dep V → Bool}
    (hskip : ∀ g' ds, Copied subLC g ds g' → ∀ e, skip g' e = q (e.dep store.edgeAttr))
    (hin : ∀ d ∈ D, p d → q d = false → g.isInGraph d.src = true ∧ g.isInGraph d.dst = true) :
    ∃ g', (ord.visit edges.elems).foldlM (copyEdgeUnless subLC store skip) g = some g' ∧
      Copied subLC g (D.filter fun d => p d ∧ q d = false) g' := by
  have hskip₀ : ∀ e, skip g e = q (e.dep store.edgeAttr) := hskip g 0 (.refl h)
  obtain ⟨g', hloop, hcop⟩ := @copyEdges_copied V _ subLC store skip g h
    (fun g' ds hcop e => (hskip g' ds hcop e).trans (hskip₀ e).symm) (ord.visit edges.elems)
    (fun e he hse => by
      have he' : e ∈ edges := mem_elems.mp ((ord.mem_visit).mp he)
      have hmem : e.dep store.edgeAttr ∈ D.filter p := by
        rw [← hdeps]
        exact Multiset.mem_map_of_mem _ (Multiset.mem_coe.mpr he')
      obtain ⟨hd, hp⟩ := Multiset.mem_filter.mp hmem
      exact ⟨(hok e he').1, (hok e he').2, hin _ hd hp ((hskip₀ e).symm.trans hse)⟩)
  refine ⟨g', hloop, ?_⟩
  have hfilter : ((edges.elems : Multiset (DGEdge V)).filter fun e => skip g e = false).map
      (DGEdge.dep store.edgeAttr) = D.filter fun d => p d ∧ q d = false := by
    calc ((edges.elems : Multiset (DGEdge V)).filter fun e => skip g e = false).map
          (DGEdge.dep store.edgeAttr)
        = ((edges.elems : Multiset (DGEdge V)).filter
            ((fun d => q d = false) ∘ DGEdge.dep store.edgeAttr)).map
              (DGEdge.dep store.edgeAttr) := by
          refine congrArg _ (Multiset.filter_congr fun e _ => ?_)
          rw [hskip₀, Function.comp_apply]
      _ = (D.filter p).filter fun d => q d = false := by rw [← Multiset.filter_map, hdeps]
      _ = D.filter fun d => p d ∧ q d = false := by
          rw [Multiset.filter_filter]
          exact Multiset.filter_congr fun d _ => And.comm
  rwa [ord.coe_visit, hfilter] at hcop

/-- The SCC of complete nodes with distinct values exists and represents the
dependences that touch these values. -/
theorem new_spec (hne : nodes.elems ≠ []) (hinj : (nodes.elems.map DGNode.theT).Nodup)
    (hcomplete : ∀ n ∈ nodes, store.Complete subLC D n) :
    ∃ g, new ord subLC store self nodes = some g ∧ g.self = self ∧ Represents subLC D g ∧
      ∀ v, g.isInternal v = true ↔ ∃ n ∈ nodes, n.theT = v := by
  obtain ⟨g₂, hg₂, hwf, hedges, hself, hint, hext⟩ :=
    @skeleton_spec V _ subLC ord store D self nodes hcomplete
  -- the entry node
  obtain ⟨n₀, hn₀⟩ := List.exists_mem_of_ne_nil _ hne
  obtain ⟨p, hp⟩ := DG.isInternal_iff.mp ((hint n₀.theT).mpr ⟨n₀, hn₀, rfl⟩)
  obtain ⟨x₀, hx₀, _, _⟩ := hwf.internal_node _ p hp
  obtain ⟨entryNode, _, hentry⟩ := ord.exists_head (List.ne_nil_of_mem (mem_elems.mpr hx₀))
  set g₃ := g₂.setEntryNode entryNode with hg₃
  have hnoedge : ∀ e, e ∉ g₂.allEdges := fun e he => not_mem_empty e (hedges ▸ he)
  have hok₃ : Ok subLC g₃ :=
    { toWF := hwf.setEntryNode entryNode
      kind_ne := fun e he => absurd he (hnoedge e)
      covers := fun e he => absurd he (hnoedge e) }
  have hdeps₃ : g₃.deps = 0 := by
    have hnil : g₃.allEdges = ∅ := hedges
    rw [DG.deps, hnil]
    rfl
  have hint₃ : ∀ v, g₃.isInternal v = g₂.isInternal v := fun _ => rfl
  have hext₃ : ∀ v, g₃.isExternal v = g₂.isExternal v := fun _ => rfl
  -- both ends of a dependence that touches an internal value are in the graph
  have hgraph : ∀ d ∈ D, g₂.isInternal d.src = true ∨ g₂.isInternal d.dst = true →
      g₃.isInGraph d.src = true ∧ g₃.isInGraph d.dst = true := by
    intro d hd htouch
    simp only [DG.isInGraph_iff, hint₃, hext₃, hext]
    by_cases hs : g₂.isInternal d.src = true <;> by_cases ht : g₂.isInternal d.dst = true
    · exact ⟨.inl hs, .inl ht⟩
    · exact ⟨.inl hs, .inr ⟨by simpa using ht, d, hd, .inr ⟨rfl, hs⟩⟩⟩
    · exact ⟨.inr ⟨by simpa using hs, d, hd, .inl ⟨rfl, ht⟩⟩, .inl ht⟩
    · exact absurd htouch (by simp [hs, ht])
  have hnode : ∀ n ∈ ord.visit nodes.elems, n ∈ nodes := fun n hn =>
    mem_elems.mp (ord.mem_visit.mp hn)
  have hintn : ∀ n ∈ nodes, g₂.isInternal n.theT = true := fun n hn => (hint _).mpr ⟨n, hn, rfl⟩
  -- internal edges
  obtain ⟨g₄, hloop₄, hcop₄⟩ := copyNodes_copied hok₃
    (f := fun g node => (ord.visit (store.outgoingEdges node).elems).foldlM
      (copyEdgeUnless subLC store fun g edge => g.isExternal edge.getDst) g)
    (fun n => D.filter fun d => d.src = n.theT ∧ g₂.isExternal d.dst = false)
    (fun n (hn : n ∈ ord.visit nodes.elems) g' ds hcop => by
      have hc := hcomplete n (hnode n hn)
      refine copySide_copied ord hcop.ok hc.outgoing (fun e he => hc.edges_ok e (.inl he))
        (q := fun d => g₂.isExternal d.dst) (fun g'' ds' hcop' e => ?_) (fun d hd hsrc _ => ?_)
      · rw [(hcop.trans hcop').isExternal_eq]
        rfl
      · rw [hcop.isInGraph_eq, hcop.isInGraph_eq]
        exact hgraph d hd (.inl (hsrc ▸ hintn n (hnode n hn))))
  -- external edges
  obtain ⟨g₅, hloop₅, hcop₅⟩ := copyNodes_copied hcop₄.ok
    (f := fun g node => do
      let g ← (ord.visit (store.outgoingEdges node).elems).foldlM
        (copyEdgeUnless subLC store fun g edge => g.isInternal edge.getDst) g
      (ord.visit (store.incomingEdges node).elems).foldlM
        (copyEdgeUnless subLC store fun g edge => g.isInternal edge.getSrc) g)
    (fun n => (D.filter fun d => d.src = n.theT ∧ g₂.isInternal d.dst = false) +
      D.filter fun d => d.dst = n.theT ∧ g₂.isInternal d.src = false)
    (fun n (hn : n ∈ ord.visit nodes.elems) g' ds hcop => by
      have hc := hcomplete n (hnode n hn)
      have hcop₃ := hcop₄.trans hcop
      obtain ⟨g'', hout, hcop'⟩ := copySide_copied ord hcop.ok hc.outgoing
        (fun e he => hc.edges_ok e (.inl he)) (q := fun d => g₂.isInternal d.dst)
        (fun g'' ds' hcop' e => show g''.isInternal e.getDst = g₂.isInternal e.getDst by
          rw [(hcop₃.trans hcop').isInternal_eq]
          rfl)
        (fun d hd hsrc _ => by
          rw [hcop₃.isInGraph_eq, hcop₃.isInGraph_eq]
          exact hgraph d hd (.inl (hsrc ▸ hintn n (hnode n hn))))
      have hcop₃' := hcop₃.trans hcop'
      obtain ⟨g₆, hin, hcop''⟩ := copySide_copied ord hcop'.ok hc.incoming
        (fun e he => hc.edges_ok e (.inr he)) (q := fun d => g₂.isInternal d.src)
        (fun g'' ds' hcop' e => show g''.isInternal e.getSrc = g₂.isInternal e.getSrc by
          rw [(hcop₃'.trans hcop').isInternal_eq]
          rfl)
        (fun d hd hdst _ => by
          rw [hcop₃'.isInGraph_eq, hcop₃'.isInGraph_eq]
          exact hgraph d hd (.inr (hdst ▸ hintn n (hnode n hn))))
      exact ⟨g₆, by rw [hout]; exact hin, hcop'.trans hcop''⟩)
  have hcop := hcop₄.trans hcop₅
  refine ⟨g₅, ?_, hcop.self_eq.trans hself, ⟨hcop.ok, ?_, fun v => ?_⟩, fun v => ?_⟩
  · simp only [new, copyNodesAndEdges, ← hg₂]
    exact Option.bind_eq_some_iff.mpr ⟨entryNode, hentry,
      Option.bind_eq_some_iff.mpr ⟨g₄, hloop₄, hloop₅⟩⟩
  · have hkeys : ((ord.visit nodes.elems).map DGNode.theT).Nodup :=
      ((ord.visit_perm nodes.elems).map DGNode.theT).nodup_iff.mpr hinj
    have hkey : ∀ v, v ∈ (ord.visit nodes.elems).map DGNode.theT ↔ g₂.isInternal v = true := by
      intro v
      rw [hint]
      simp
    have hsum : ∀ (key : Dep V → V) (p : Dep V → Prop) [DecidablePred p],
        ((ord.visit nodes.elems).map fun n => D.filter fun d => key d = n.theT ∧ p d).sum =
          D.filter fun d => g₂.isInternal (key d) = true ∧ p d := by
      intro key p _
      have := sum_filter_key key p D hkeys
      rw [List.map_map] at this
      refine this.trans (Multiset.filter_congr fun d _ => ?_)
      rw [hkey]
    rw [hcop.deps_eq, hdeps₃, zero_add, List.sum_map_add,
      hsum Dep.src fun d => g₂.isExternal d.dst = false,
      hsum Dep.src fun d => g₂.isInternal d.dst = false,
      hsum Dep.dst fun d => g₂.isInternal d.src = false]
    simp only [hcop.isInternal_eq, hint₃]
    refine filter_touching fun d hd hs => ⟨fun he => ?_, fun ht => ?_⟩
    · have hin := (hgraph d hd (.inl hs)).2
      rw [DG.isInGraph_iff, hint₃, hext₃, he] at hin
      simpa using hin
    · exact hwf.disjoint d.dst ht
  · simp only [hcop.isExternal_eq, hcop.isInternal_eq]
    exact hext v
  · rw [hcop.isInternal_eq]
    exact hint v

end New

/-! ## Where complete nodes come from -/

/-- A node whose edge sets hold the edges of its value, in a graph with all
dependences of that value. -/
theorem store_complete {g : DG V (DGEdge V)} {D : Multiset (Dep V)} {n : DGNode V}
    (hout : ∀ e, e ∈ g.outgoingEdges n ↔ e ∈ g.allEdges ∧ e.getSrc = n.theT)
    (hinc : ∀ e, e ∈ g.incomingEdges n ↔ e ∈ g.allEdges ∧ e.getDst = n.theT)
    (hok : ∀ e ∈ g.allEdges, e.kind ≠ .undefinedDependence ∧ (g.edgeAttr e).Covers subLC)
    (hsrc : (g.deps.filter fun d => d.src = n.theT) = D.filter fun d => d.src = n.theT)
    (hdst : (g.deps.filter fun d => d.dst = n.theT) = D.filter fun d => d.dst = n.theT) :
    g.store.Complete subLC D n := by
  have hfilter : ∀ (s : PtrSet (DGEdge V)) (key : Dep V → V),
      (∀ e, e ∈ s ↔ e ∈ g.allEdges ∧ key (e.dep g.edgeAttr) = n.theT) →
      (s.elems : Multiset (DGEdge V)).map (DGEdge.dep g.edgeAttr) =
        g.deps.filter fun d => key d = n.theT := by
    intro s key hs
    have hperm : (s.elems : Multiset (DGEdge V)) =
        (g.allEdges.elems : Multiset (DGEdge V)).filter fun e =>
          key (e.dep g.edgeAttr) = n.theT := by
      rw [Multiset.filter_coe, Multiset.coe_eq_coe]
      refine (List.perm_ext_iff_of_nodup s.nodup (g.allEdges.nodup.filter _)).mpr fun e => ?_
      rw [mem_elems, hs, List.mem_filter, mem_elems, decide_eq_true_eq]
    rw [hperm, DG.deps, Multiset.filter_map]
    rfl
  refine ⟨(hfilter _ Dep.src hout).trans hsrc, (hfilter _ Dep.dst hinc).trans hdst, fun e he => hok e ?_⟩
  exact he.elim (fun h => ((hout e).mp h).1) fun h => ((hinc e).mp h).1

theorem Represents.complete {D : Multiset (Dep V)} {g : SCC V} (h : Represents subLC D g) {v : V}
    {n : DGNode V} (hn : g.nodeOf v = some n) (hv : g.isInternal v = true) :
    g.store.Complete subLC D n := by
  obtain ⟨hmem, hnv⟩ := h.ok.nodeOf_mem hn
  have hkey : ∀ m, g.nodeOf m.theT = some m → (m = n ↔ m.theT = n.theT) := by
    refine fun m hm => ⟨congrArg _, fun heq => ?_⟩
    rw [heq, hnv, hn] at hm
    exact (Option.some.inj hm).symm
  refine store_complete (fun e => ?_) (fun e => ?_)
    (fun e he => ⟨h.ok.kind_ne e he, h.ok.covers e he⟩) ?_ ?_
  · rw [h.ok.mem_outgoing n hmem]
    exact and_congr_right fun he => hkey e.srcNode (h.ok.edge_mapped e he).1
  · rw [h.ok.mem_incoming n hmem]
    exact and_congr_right fun he => hkey e.dstNode (h.ok.edge_mapped e he).2
  · rw [h.deps_eq, Multiset.filter_filter, hnv]
    exact Multiset.filter_congr fun d _ => and_iff_left_of_imp fun hs => .inl (hs ▸ hv)
  · rw [h.deps_eq, Multiset.filter_filter, hnv]
    exact Multiset.filter_congr fun d _ => and_iff_left_of_imp fun ht => .inr (ht ▸ hv)

end SCC

/-! ## Dependence graphs -/

namespace PDG

variable {V : Type} [DecidableEq V] {subLC : DGEdge V → Bool}

/-- The dependence graphs an SCCDAG is built from: one node for each value, edges
recorded at their ends, and only control, variable and memory dependences. -/
structure Proper (subLC : DGEdge V → Bool) (pdg : PDG V) : Prop where
  node_ext : ∀ n ∈ pdg.allNodes, ∀ m ∈ pdg.allNodes, n.theT = m.theT → n = m
  edge_nodes : ∀ e ∈ pdg.allEdges, e.srcNode ∈ pdg.allNodes ∧ e.dstNode ∈ pdg.allNodes
  mem_outgoing : ∀ n ∈ pdg.allNodes, ∀ e, e ∈ pdg.outgoingEdges n ↔ e ∈ pdg.allEdges ∧ e.srcNode = n
  mem_incoming : ∀ n ∈ pdg.allNodes, ∀ e, e ∈ pdg.incomingEdges n ↔ e ∈ pdg.allEdges ∧ e.dstNode = n
  edge_ok : ∀ e ∈ pdg.allEdges, e.kind ≠ .undefinedDependence ∧ (pdg.edgeAttr e).Covers subLC

theorem proper_of_clean {pdg : PDG V} (h : pdg.Clean)
    (hedges : ∀ e ∈ pdg.allEdges, e.kind ≠ .undefinedDependence ∧ (pdg.edgeAttr e).Covers subLC) :
    Proper subLC pdg where
  node_ext := fun _ hn _ hm heq => h.node_ext hn hm heq
  edge_nodes := fun _ he => h.edge_nodes he
  mem_outgoing := h.mem_outgoing
  mem_incoming := h.mem_incoming
  edge_ok := hedges

theorem Proper.complete {pdg : PDG V} (h : Proper subLC pdg) {n : DGNode V} (hn : n ∈ pdg.allNodes) :
    pdg.store.Complete subLC pdg.deps n := by
  refine SCC.store_complete (fun e => ?_) (fun e => ?_) h.edge_ok rfl rfl
  · rw [h.mem_outgoing n hn]
    exact and_congr_right fun he =>
      ⟨congrArg _, h.node_ext _ (h.edge_nodes e he).1 n hn⟩
  · rw [h.mem_incoming n hn]
    exact and_congr_right fun he =>
      ⟨congrArg _, h.node_ext _ (h.edge_nodes e he).2 n hn⟩

end PDG

end Noelle
