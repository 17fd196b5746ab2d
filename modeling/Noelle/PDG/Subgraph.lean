import Noelle.DG.History
import Noelle.SCC.Spec

/-!
# PDG.Subgraph

Extracting a graph from some values of a PDG, and cloning a PDG.

Extraction copies the dependences that touch the values and adds their other ends as
external nodes.  A copy has the data of the original but for two cases: an undefined
dependence cannot be copied, and a copy is loop-carried as soon as a sub-edge is,
whatever the flag of the original says.  `clone` passes the external values in the
list of values, so they are internal to the clone.
-/

namespace Noelle

open List

namespace DG

variable {T S : Type}

/-- What an edge says: its dependence and its sub-edges. -/
def edgeContents (g : DG T S) (e : DGEdge T) : Dep T × Multiset S :=
  (e.dep g.edgeAttr, ((g.edgeAttr e).getSubEdges.elems : Multiset S))

/-- What the edges of a graph say. -/
def contents (g : DG T S) : Multiset (Dep T × Multiset S) :=
  (g.allEdges.elems : Multiset (DGEdge T)).map g.edgeContents

/-- What a copy of an edge says. -/
def copyContents [DecidableEq S] (subLC : S → Bool) (g : DG T S) (e : DGEdge T) :
    Dep T × Multiset S :=
  ({ e.dep g.edgeAttr with isLoopCarried := ((g.edgeAttr e).copy subLC).isLoopCarried },
    ((g.edgeAttr e).getSubEdges.elems : Multiset S))

theorem copyContents_eq_iff [DecidableEq S] (subLC : S → Bool) (g : DG T S) (e : DGEdge T) :
    copyContents subLC g e = g.edgeContents e ↔ (g.edgeAttr e).Covers subLC := by
  have hflag : copyContents subLC g e = g.edgeContents e ↔
      ((g.edgeAttr e).copy subLC).isLoopCarried = (g.edgeAttr e).isLoopCarried := by
    simp [copyContents, edgeContents, DGEdge.dep]
  rw [hflag]
  constructor
  · intro heq s hs hlc
    rw [← heq, EdgeAttr.isLoopCarried_copy, Bool.or_eq_true, any_eq_true]
    exact .inr ⟨s, hs, hlc⟩
  · exact fun h => (EdgeAttr.copy_spec h).1

/-- Copies that say together what the edges say together, say each what its edge says. -/
theorem covers_of_copyContents_eq [DecidableEq S] {subLC : S → Bool} {g : DG T S}
    {l : List (DGEdge T)} (h : (l : Multiset (DGEdge T)).map (g.copyContents subLC) =
      (l : Multiset (DGEdge T)).map g.edgeContents) :
    ∀ e ∈ l, (g.edgeAttr e).Covers subLC := by
  intro e he
  by_contra hno
  have hcount := congrArg (Multiset.countP fun c => c.1.isLoopCarried = true) h
  rw [Multiset.countP_map, Multiset.countP_map, Multiset.filter_coe, Multiset.filter_coe,
    Multiset.coe_card, Multiset.coe_card] at hcount
  -- the copy has the flag of a sub-edge that the edge lacks
  obtain ⟨s, hs, hlc, hflag⟩ : ∃ s ∈ (g.edgeAttr e).getSubEdges, subLC s = true ∧
      (g.edgeAttr e).isLoopCarried = false := by
    simpa [EdgeAttr.Covers] using hno
  have hcopied : ∀ e, (g.copyContents subLC e).1.isLoopCarried =
      ((g.edgeAttr e).isLoopCarried || (g.edgeAttr e).getSubEdges.elems.any subLC) := fun e =>
    EdgeAttr.isLoopCarried_copy subLC (g.edgeAttr e)
  have hlt := @length_filter_lt _
    (fun e => decide ((g.copyContents subLC e).1.isLoopCarried = true))
    (fun e => decide ((g.edgeContents e).1.isLoopCarried = true)) l
    (fun e' _ he' => by
      have he' : (g.edgeAttr e').isLoopCarried = true := of_decide_eq_true he'
      rw [hcopied, he']
      rfl)
    e he
    (by
      rw [hcopied, decide_eq_true_eq, Bool.or_eq_true, any_eq_true]
      exact .inr ⟨s, hs, hlc⟩)
    (by simp [edgeContents, DGEdge.dep, hflag])
  omega

variable [DecidableEq T]

theorem WF.contents_insertEdge {g : DG T S} (h : g.WF) (a b : DGNode T) (kind : DependenceKind)
    (t : Option DataDependenceType) (attr : EdgeAttr S) :
    (g.insertEdge a b kind t attr).2.contents =
      (⟨a.theT, b.theT, kind, t, attr.isLoopCarried⟩,
        (attr.getSubEdges.elems : Multiset S)) ::ₘ g.contents := by
  have hedges : ((g.insertEdge a b kind t attr).2.allEdges.elems : Multiset (DGEdge T)) =
      g.newEdge a b kind t ::ₘ (g.allEdges.elems : Multiset (DGEdge T)) :=
    PtrSet.coe_insert_of_notMem h.newEdge_notMem
  have hold : (g.allEdges.elems : Multiset (DGEdge T)).map
      (g.insertEdge a b kind t attr).2.edgeContents = g.contents := by
    refine Multiset.map_congr rfl fun e he => ?_
    have he : e ∈ g.allEdges := Multiset.mem_coe.mp he
    simp only [edgeContents, DGEdge.dep, h.insertEdge_edgeAttr he]
  rw [contents, hedges, Multiset.map_cons, hold]
  simp only [edgeContents, DGEdge.dep, insertEdge_edgeAttr_self]
  rfl

theorem WF.copyAddEdge_eq [DecidableEq S] {g : DG T S} (h : g.WF) (subLC : S → Bool)
    {e : DGEdge T} (hkind : e.kind ≠ .undefinedDependence) (hsrc : g.isInGraph e.getSrc = true)
    (hdst : g.isInGraph e.getDst = true) (attr : EdgeAttr S) :
    ∃ a b, g.nodeOf e.getSrc = some a ∧ g.nodeOf e.getDst = some b ∧
      g.copyAddEdge subLC e attr = some (g.insertEdge a b e.kind e.dataDepType (attr.copy subLC)) := by
  obtain ⟨a, ha⟩ := h.exists_nodeOf hsrc
  obtain ⟨b, hb⟩ := h.exists_nodeOf hdst
  refine ⟨a, b, ha, hb, ?_⟩
  rw [← addDependenceEdge_eq ha hb]
  unfold DG.copyAddEdge
  cases hk : e.kind with
  | undefinedDependence => exact absurd hk hkind
  | _ => rfl

theorem Clean.copyAddEdge [DecidableEq S] {g g₀ : DG T S} (h : g.Clean) (subLC : S → Bool)
    {e : DGEdge T} (hkind : e.kind ≠ .undefinedDependence) (hsrc : g.isInGraph e.getSrc = true)
    (hdst : g.isInGraph e.getDst = true) :
    ∃ e' g', g.copyAddEdge subLC e (g₀.edgeAttr e) = some (e', g') ∧ g'.Clean ∧
      (∀ v, g'.isInternal v = g.isInternal v) ∧ (∀ v, g'.isExternal v = g.isExternal v) ∧
      g'.contents = copyContents subLC g₀ e ::ₘ g.contents ∧
      (∀ v, g'.nodeOf v = g.nodeOf v) ∧ g'.entryNode = g.entryNode := by
  obtain ⟨a, b, ha, hb, hcopy⟩ := h.copyAddEdge_eq subLC hkind hsrc hdst (g₀.edgeAttr e)
  have hta := (h.nodeOf_mem ha).2
  have htb := (h.nodeOf_mem hb).2
  refine ⟨_, _, hcopy, h.insertEdge (by rw [hta, ha]) (by rw [htb, hb]),
    fun v => rfl, fun v => rfl, ?_, fun v => insertEdge_nodeOf .., rfl⟩
  have hsubs : (((g₀.edgeAttr e).copy subLC).getSubEdges.elems : Multiset S) =
      ((g₀.edgeAttr e).getSubEdges.elems : Multiset S) :=
    Multiset.coe_eq_coe.mpr (PtrSet.perm_of_mem_iff fun x => EdgeAttr.mem_getSubEdges_copy ..)
  show (g.insertEdge a b e.kind e.dataDepType ((g₀.edgeAttr e).copy subLC)).2.contents = _
  rw [h.contents_insertEdge, hta, htb, hsubs]
  rfl

/-- A value without a node gets one on its side. -/
theorem Clean.fetchOrAddNode {g : DG T S} (h : g.Clean) (v : T) :
    (g.fetchOrAddNode v (g.isInternal v)).2.Clean ∧
      (∀ w, (g.fetchOrAddNode v (g.isInternal v)).2.isInternal w = g.isInternal w) ∧
      (∀ w, (g.fetchOrAddNode v (g.isInternal v)).2.isExternal w = true ↔
        g.isExternal w = true ∨ (w = v ∧ g.isInternal v = false)) ∧
      (g.fetchOrAddNode v (g.isInternal v)).2.contents = g.contents := by
  by_cases hin : g.isInGraph v = true
  · have heq : (g.fetchOrAddNode v (g.isInternal v)).2 = g := by
      rw [DG.fetchOrAddNode, if_pos hin, fetchNode_of_isInGraph hin]
    rw [heq]
    refine ⟨h, fun _ => rfl, fun w => ⟨.inl, ?_⟩, rfl⟩
    rintro (hw | ⟨rfl, hno⟩)
    · exact hw
    · exact (isInGraph_iff.mp hin).resolve_left (by simp [hno])
  · have hno : g.isInternal v = false := by
      cases hi : g.isInternal v with
      | false => rfl
      | true => exact absurd (isInGraph_iff.mpr (.inl hi)) hin
    have heq : (g.fetchOrAddNode v (g.isInternal v)).2 = (g.addNode v false).2 := by
      rw [DG.fetchOrAddNode, if_neg hin, hno]
    rw [heq]
    refine ⟨h.addNode (Bool.eq_false_of_not_eq_true hin), fun w => by simp, fun w => ?_, rfl⟩
    rw [addNode_isExternal]
    simp [hno, or_comm]

end DG

namespace PDG

variable {V : Type} [DecidableEq V]

/-! ## Extraction -/

/-- The dependences an extraction is asked for. -/
def Selects (values : List V) (linkToExternal : Bool) (edgesToIgnore : PtrSet (DGEdge V))
    (e : DGEdge V) : Prop :=
  e ∉ edgesToIgnore ∧
    if linkToExternal then e.getSrc ∈ values ∨ e.getDst ∈ values
    else e.getSrc ∈ values ∧ e.getDst ∈ values

instance (values : List V) (linkToExternal : Bool) (edgesToIgnore : PtrSet (DGEdge V)) :
    DecidablePred (Selects values linkToExternal edgesToIgnore) := fun e => by
  unfold Selects
  infer_instance

/-- A graph with internal nodes for the values, external ones for the other ends of
some edges, and the given contents. -/
structure Extracted (values : List V) (edges : List (DGEdge V))
    (contents : Multiset (Dep V × Multiset (DGEdge V))) (g : PDG V) : Prop where
  clean : g.Clean
  isInternal_iff : ∀ v, g.isInternal v = true ↔ v ∈ values
  isExternal_iff : ∀ v, g.isExternal v = true ↔
    v ∉ values ∧ ∃ e ∈ edges, e.getSrc = v ∨ e.getDst = v
  contents_eq : g.contents = contents

/-- The new graph holds the values, and no edge. -/
theorem ofValues_extracted (self : Nat) {first : V} {values : List V}
    (hnodup : (first :: values).Nodup) :
    Extracted (first :: values) [] 0 (ofValues self first values) := by
  set l := first :: values with hl
  have hclean : (l.foldl (fun (g : PDG V) v => (g.addNode v true).2) (DG.empty self)).Clean :=
    (DG.empty_clean self).foldl_addNode l hnodup fun _ _ => rfl
  have hloop := foldl_rule (fun (g : PDG V) v => (g.addNode v true).2)
    (fun pre g => (∀ v, g.isInternal v = true ↔ v ∈ pre) ∧ (∀ v, g.isExternal v = false) ∧
      g.contents = 0) (l := l) (s := DG.empty self)
    ⟨fun v => by simp, fun v => rfl, rfl⟩
    (by
      rintro pre v post g _ ⟨hin, hex, hcontents⟩
      refine ⟨fun w => ?_, fun w => ?_, hcontents⟩
      · rw [DG.addNode_isInternal, mem_append, mem_singleton, ← hin w]
        simp [or_comm]
      · rw [DG.addNode_isExternal, hex]
        simp)
  exact
    { clean :=
        { toWF := hclean.toWF.withAttr _ _
          mapped := fun n hn => by
            rw [← hclean.mapped n hn]
            exact DG.nodeOf_congr rfl rfl }
      isInternal_iff := hloop.1
      isExternal_iff := fun v => by
        have hno : (ofValues self first values).isExternal v = false := hloop.2.1 v
        simp [hno]
      contents_eq := hloop.2.2 }

variable {subLC : DGEdge V → Bool} {g g' : PDG V} {values : List V} {linkToExternal : Bool}
  {edgesToIgnore : PtrSet (DGEdge V)}

/-- One more edge is copied if it is selected. -/
theorem Extracted.copyEdge {edges : List (DGEdge V)} (e : DGEdge V)
    (h : Extracted values edges ((edges : Multiset (DGEdge V)).map (g.copyContents subLC)) g')
    (linkToExternal : Bool) (edgesToIgnore : PtrSet (DGEdge V)) :
    (Selects values linkToExternal edgesToIgnore e → e.kind = .undefinedDependence →
      copyEdgeInto subLC g linkToExternal edgesToIgnore g' e = none) ∧
    ((Selects values linkToExternal edgesToIgnore e → e.kind ≠ .undefinedDependence) →
      ∃ g'', copyEdgeInto subLC g linkToExternal edgesToIgnore g' e = some g'' ∧
        Extracted values (edges ++ [e].filter (Selects values linkToExternal edgesToIgnore))
          (((edges ++ [e].filter (Selects values linkToExternal edgesToIgnore) :
            List (DGEdge V)) : Multiset (DGEdge V)).map (g.copyContents subLC)) g'') := by
  -- the tests at the start of the body
  have hskip : ¬ Selects values linkToExternal edgesToIgnore e →
      copyEdgeInto subLC g linkToExternal edgesToIgnore g' e = some g' := by
    intro hno
    unfold PDG.copyEdgeInto
    by_cases hignore : e ∈ edgesToIgnore
    · rw [if_pos hignore]
    rw [if_neg hignore]
    simp only [Selects, hignore, not_false_eq_true, true_and, ← h.isInternal_iff] at hno
    cases hs : g'.isInternal e.getSrc <;> cases hd : g'.isInternal e.getDst <;>
      cases linkToExternal <;> simp_all
  have hcopy : Selects values linkToExternal edgesToIgnore e →
      copyEdgeInto subLC g linkToExternal edgesToIgnore g' e =
        ((((g'.fetchOrAddNode e.getSrc (g'.isInternal e.getSrc)).2.fetchOrAddNode e.getDst
          (g'.isInternal e.getDst)).2.copyAddEdge subLC e (g.edgeAttr e)).map (·.2)) := by
    rintro ⟨hignore, hends⟩
    unfold PDG.copyEdgeInto
    rw [if_neg hignore]
    simp only [← h.isInternal_iff] at hends
    cases hs : g'.isInternal e.getSrc <;> cases hd : g'.isInternal e.getDst <;>
      cases linkToExternal <;> simp_all
  refine ⟨fun hsel hkind => ?_, fun hkind => ?_⟩
  · rw [hcopy hsel, DG.copyAddEdge, hkind]
    rfl
  by_cases hsel : Selects values linkToExternal edgesToIgnore e
  · obtain ⟨hclean₁, hin₁, hex₁, hcontents₁⟩ := h.clean.fetchOrAddNode e.getSrc
    set g₁ := (g'.fetchOrAddNode e.getSrc (g'.isInternal e.getSrc)).2
    obtain ⟨hclean₂, hin₂, hex₂, hcontents₂⟩ := hclean₁.fetchOrAddNode e.getDst
    rw [hin₁] at hclean₂ hin₂ hex₂ hcontents₂
    set g₂ := (g₁.fetchOrAddNode e.getDst (g'.isInternal e.getDst)).2
    have hexternal : ∀ w, g₂.isExternal w = true ↔ g'.isExternal w = true ∨
        (w = e.getSrc ∧ g'.isInternal e.getSrc = false) ∨
        (w = e.getDst ∧ g'.isInternal e.getDst = false) := fun w => by
      rw [hex₂, hex₁, or_assoc]
    have hgraph : ∀ w, w = e.getSrc ∨ w = e.getDst → g₂.isInGraph w = true := by
      intro w hw
      rw [DG.isInGraph_iff, hin₂, hin₁, hexternal]
      cases hi : g'.isInternal w with
      | true => exact .inl rfl
      | false =>
          rcases hw with rfl | rfl
          · exact .inr (.inr (.inl ⟨rfl, hi⟩))
          · exact .inr (.inr (.inr ⟨rfl, hi⟩))
    obtain ⟨e', g'', hadd, hclean, hin, hex, hcontents, _⟩ := @DG.Clean.copyAddEdge V (DGEdge V) _ _ g₂ g
      hclean₂ subLC e (hkind hsel) (hgraph _ (.inl rfl)) (hgraph _ (.inr rfl))
    refine ⟨g'', by rw [hcopy hsel, hadd]; rfl, ?_⟩
    have hfilter : [e].filter (Selects values linkToExternal edgesToIgnore) = [e] := by simp [hsel]
    rw [hfilter]
    have hno : ∀ v, g'.isInternal v = false ↔ v ∉ values := fun v => by
      rw [← h.isInternal_iff, Bool.not_eq_true]
    refine ⟨hclean, fun v => ?_, fun v => ?_, ?_⟩
    · rw [hin, hin₂, hin₁, h.isInternal_iff]
    · rw [hex, hexternal, h.isExternal_iff, hno, hno]
      simp only [mem_append, mem_singleton]
      constructor
      · rintro (⟨hv, e₁, he₁, hends⟩ | ⟨rfl, hv⟩ | ⟨rfl, hv⟩)
        · exact ⟨hv, e₁, .inl he₁, hends⟩
        · exact ⟨hv, e, .inr rfl, .inl rfl⟩
        · exact ⟨hv, e, .inr rfl, .inr rfl⟩
      · rintro ⟨hv, e₁, he₁ | rfl, hends⟩
        · exact .inl ⟨hv, e₁, he₁, hends⟩
        · rcases hends with rfl | rfl
          · exact .inr (.inl ⟨rfl, hv⟩)
          · exact .inr (.inr ⟨rfl, hv⟩)
    · rw [hcontents, hcontents₂, hcontents₁, h.contents_eq, ← Multiset.coe_add, Multiset.map_add,
        Multiset.coe_singleton, Multiset.map_singleton, ← Multiset.singleton_add, add_comm]
  · have hfilter : [e].filter (Selects values linkToExternal edgesToIgnore) = [] := by simp [hsel]
    rw [hfilter, append_nil]
    exact ⟨g', hskip hsel, h⟩

/-- The selected edges are copied, unless one has an undefined kind. -/
theorem Extracted.copyEdges (h : Extracted values [] 0 g') (linkToExternal : Bool)
    (edgesToIgnore : PtrSet (DGEdge V)) (l : List (DGEdge V)) :
    ((∃ e ∈ l, Selects values linkToExternal edgesToIgnore e ∧ e.kind = .undefinedDependence) →
      l.foldlM (copyEdgeInto subLC g linkToExternal edgesToIgnore) g' = none) ∧
    ((∀ e ∈ l, Selects values linkToExternal edgesToIgnore e → e.kind ≠ .undefinedDependence) →
      ∃ g'', l.foldlM (copyEdgeInto subLC g linkToExternal edgesToIgnore) g' = some g'' ∧
        Extracted values (l.filter (Selects values linkToExternal edgesToIgnore))
          ((l.filter (Selects values linkToExternal edgesToIgnore) : Multiset (DGEdge V)).map
            (g.copyContents subLC)) g'') := by
  have hstep : ∀ pre e post g', l = pre ++ e :: post →
      Extracted values (pre.filter (Selects values linkToExternal edgesToIgnore))
        ((pre.filter (Selects values linkToExternal edgesToIgnore) : Multiset (DGEdge V)).map
          (g.copyContents subLC)) g' →
      ¬ (Selects values linkToExternal edgesToIgnore e ∧ e.kind = .undefinedDependence) →
      ∃ g'', copyEdgeInto subLC g linkToExternal edgesToIgnore g' e = some g'' ∧
        Extracted values ((pre ++ [e]).filter (Selects values linkToExternal edgesToIgnore))
          (((pre ++ [e]).filter (Selects values linkToExternal edgesToIgnore) :
            Multiset (DGEdge V)).map (g.copyContents subLC)) g'' := by
    intro pre e post g' _ h hgood
    rw [filter_append]
    exact (h.copyEdge e linkToExternal edgesToIgnore).2 fun hsel hundef => hgood ⟨hsel, hundef⟩
  constructor
  · refine foldlM_eq_none _ (fun pre => Extracted values
      (pre.filter (Selects values linkToExternal edgesToIgnore))
      ((pre.filter (Selects values linkToExternal edgesToIgnore) : Multiset (DGEdge V)).map
        (g.copyContents subLC))) _ h hstep ?_
    intro pre e post g' _ h hbad
    exact (h.copyEdge e linkToExternal edgesToIgnore).1 hbad.1 hbad.2
  · intro hkind
    refine foldlM_rule _ (fun pre => Extracted values
      (pre.filter (Selects values linkToExternal edgesToIgnore))
      ((pre.filter (Selects values linkToExternal edgesToIgnore) : Multiset (DGEdge V)).map
        (g.copyContents subLC))) h ?_
    intro pre e post g' hsplit h
    exact hstep pre e post g' hsplit h fun hbad => hkind e (by simp [hsplit]) hbad.1 hbad.2

/-- The edges that are selected, in the order of the graph. -/
def selected (g : PDG V) (values : List V) (linkToExternal : Bool)
    (edgesToIgnore : PtrSet (DGEdge V)) : List (DGEdge V) :=
  g.allEdges.elems.filter (Selects values linkToExternal edgesToIgnore)

theorem mem_selected {e : DGEdge V} : e ∈ selected g values linkToExternal edgesToIgnore ↔
    e ∈ g.allEdges ∧ Selects values linkToExternal edgesToIgnore e := by
  simp [selected]

/-- The subgraph fails exactly on a selected edge of undefined kind. -/
theorem createSubgraphFromValues_spec (ord : IterOrder) (subLC : DGEdge V → Bool) (g : PDG V)
    (self : Nat) (linkToExternal : Bool) (edgesToIgnore : PtrSet (DGEdge V))
    (hne : values ≠ []) (hnodup : values.Nodup) :
    ((∃ e ∈ selected g values linkToExternal edgesToIgnore, e.kind = .undefinedDependence) →
      createSubgraphFromValues ord subLC g self values linkToExternal edgesToIgnore = none) ∧
    ((∀ e ∈ selected g values linkToExternal edgesToIgnore, e.kind ≠ .undefinedDependence) →
      ∃ g', createSubgraphFromValues ord subLC g self values linkToExternal edgesToIgnore =
          some (some g') ∧
        Extracted values (selected g values linkToExternal edgesToIgnore)
          ((selected g values linkToExternal edgesToIgnore : Multiset (DGEdge V)).map
            (g.copyContents subLC)) g') := by
  obtain ⟨first, rest, rfl⟩ := exists_cons_of_ne_nil hne
  obtain ⟨hfail, hcopy⟩ := @Extracted.copyEdges V _ subLC g (ofValues self first rest) (first :: rest)
    (ofValues_extracted self hnodup) linkToExternal edgesToIgnore (ord.visit g.allEdges.elems)
  refine ⟨?_, fun hkind => ?_⟩
  · rintro ⟨e, he, hundef⟩
    obtain ⟨he, hsel⟩ := mem_selected.mp he
    rw [createSubgraphFromValues, copyEdgesInto, hfail ⟨e, ord.mem_visit.mpr he, hsel, hundef⟩]
    rfl
  · obtain ⟨g', hg', h⟩ := hcopy fun e he hsel =>
      hkind e (mem_selected.mpr ⟨ord.mem_visit.mp he, hsel⟩)
    have hperm : ((ord.visit g.allEdges.elems).filter
        (Selects (first :: rest) linkToExternal edgesToIgnore)).Perm
          (selected g (first :: rest) linkToExternal edgesToIgnore) :=
      (ord.visit_perm _).filter _
    refine ⟨g', by rw [createSubgraphFromValues, copyEdgesInto, hg']; rfl, h.clean,
      h.isInternal_iff, fun v => ?_, ?_⟩
    · rw [h.isExternal_iff]
      simp only [hperm.mem_iff]
    · rw [h.contents_eq, Multiset.coe_eq_coe.mpr hperm]

theorem createLoopsSubgraph_eq (ord : IterOrder) (subLC : DGEdge V → Bool) (g : PDG V) (self : Nat)
    (loop : Loop V) : (createLoopsSubgraph ord subLC g self loop).map some =
      createSubgraphFromValues ord subLC g self loop.blocks.flatten true ∅ := by
  obtain ⟨bb, blocks, hblocks⟩ := exists_cons_of_ne_nil loop.blocks_ne_nil
  obtain ⟨first, rest, hbb⟩ := exists_cons_of_ne_nil
    (loop.block_ne_nil bb (hblocks ▸ (.head _)))
  subst hbb
  have hflatten : loop.blocks.flatten = first :: (rest ++ blocks.flatten) := by
    rw [hblocks, flatten_cons, cons_append]
  have hofLoop : ofLoop self loop = ofValues self first (rest ++ blocks.flatten) := by
    rw [ofLoop, ofValues, ← hflatten, foldl_flatten, hblocks]
    rfl
  rw [createLoopsSubgraph, hofLoop, hflatten]
  rfl

variable {ord : IterOrder} {self : Nat} {g g' : PDG V}

theorem createSubgraphFromValues_eq_some (hne : values ≠ [])
    (hnodup : values.Nodup)
    (h : createSubgraphFromValues ord subLC g self values linkToExternal edgesToIgnore =
      some (some g')) :
    (∀ e ∈ selected g values linkToExternal edgesToIgnore, e.kind ≠ .undefinedDependence) ∧
      Extracted values (selected g values linkToExternal edgesToIgnore)
        ((selected g values linkToExternal edgesToIgnore : Multiset (DGEdge V)).map
          (g.copyContents subLC)) g' := by
  obtain ⟨hfail, hcopy⟩ :=
    createSubgraphFromValues_spec ord subLC g self linkToExternal edgesToIgnore hne hnodup
  have hkind : ∀ e ∈ selected g values linkToExternal edgesToIgnore,
      e.kind ≠ .undefinedDependence := fun e he hundef => by
    rw [hfail ⟨e, he, hundef⟩] at h
    cases h
  obtain ⟨g'', hg'', hex⟩ := hcopy hkind
  obtain rfl : g'' = g' := Option.some.inj (Option.some.inj (hg''.symm.trans h))
  exact ⟨hkind, hex⟩

/-- The graph that an extraction is to return. -/
def IsSubgraph (g : PDG V) (values : List V) (linkToExternal : Bool)
    (edgesToIgnore : PtrSet (DGEdge V)) (g' : PDG V) : Prop :=
  Extracted values (selected g values linkToExternal edgesToIgnore)
    ((selected g values linkToExternal edgesToIgnore : Multiset (DGEdge V)).map g.edgeContents) g'

theorem exists_isSubgraph (ord : IterOrder) (g : PDG V) (self : Nat) (linkToExternal : Bool)
    (edgesToIgnore : PtrSet (DGEdge V)) (hne : values ≠ []) (hnodup : values.Nodup)
    (hok : ∀ e ∈ selected g values linkToExternal edgesToIgnore,
      e.kind ≠ .undefinedDependence ∧ (g.edgeAttr e).Covers subLC) :
    ∃ g', createSubgraphFromValues ord subLC g self values linkToExternal edgesToIgnore =
      some (some g') ∧ IsSubgraph g values linkToExternal edgesToIgnore g' := by
  obtain ⟨g', hg', h⟩ := (createSubgraphFromValues_spec ord subLC g self linkToExternal
    edgesToIgnore hne hnodup).2 fun e he => (hok e he).1
  refine ⟨g', hg', h.clean, h.isInternal_iff, h.isExternal_iff, h.contents_eq.trans ?_⟩
  refine Multiset.map_congr rfl fun e he => (DG.copyContents_eq_iff subLC g e).mpr ?_
  exact (hok e (Multiset.mem_coe.mp he)).2

/-- **Sub-graph extraction**: an extraction returns the sub-graph it is asked for if
and only if the selected dependences are not undefined and the flag of each covers its
sub-edges. -/
theorem createSubgraphFromValues_correct_iff (ord : IterOrder) (subLC : DGEdge V → Bool)
    (g : PDG V) (self : Nat) (linkToExternal : Bool) (edgesToIgnore : PtrSet (DGEdge V))
    (hne : values ≠ []) (hnodup : values.Nodup) :
    (∃ g', createSubgraphFromValues ord subLC g self values linkToExternal edgesToIgnore =
        some (some g') ∧ IsSubgraph g values linkToExternal edgesToIgnore g') ↔
      ∀ e ∈ g.allEdges, Selects values linkToExternal edgesToIgnore e →
        e.kind ≠ .undefinedDependence ∧ (g.edgeAttr e).Covers subLC := by
  constructor
  · rintro ⟨g', hg', hsub⟩ e he hsel
    obtain ⟨hkind, h⟩ := createSubgraphFromValues_eq_some hne hnodup hg'
    have hmem := mem_selected.mpr ⟨he, hsel⟩
    exact ⟨hkind e hmem, DG.covers_of_copyContents_eq (h.contents_eq.symm.trans hsub.contents_eq) e hmem⟩
  · intro hok
    exact exists_isSubgraph ord g self linkToExternal edgesToIgnore hne hnodup fun e he =>
      hok e (mem_selected.mp he).1 (mem_selected.mp he).2

def carriedEdge : DGEdge Nat := ⟨9, 0, ⟨9, 0, 1⟩, ⟨9, 1, 2⟩, .controlDependence, none⟩

/-- A dependence with a loop-carried sub-edge. -/
def clearedHistory : List (DG.Op Nat (DGEdge Nat)) :=
  [.addNode 1 true, .addNode 2 true,
    .copyAddEdge carriedEdge { subEdges := some ⟨[carriedEdge], nodup_singleton _⟩ }]

def clearedPdg : PDG Nat :=
  ((DG.execute (fun e => decide (e = carriedEdge)) (DG.empty 0) clearedHistory).getD
    (DG.empty 0)).setLoopCarried ⟨0, 0, ⟨0, 0, 1⟩, ⟨0, 1, 2⟩, .controlDependence, none⟩ false

/-- Extraction sets a cleared flag again. -/
theorem createSubgraphFromValues_clearedPdg :
    ¬ ∃ g', createSubgraphFromValues .stored (fun e => decide (e = carriedEdge)) clearedPdg 1 [1, 2]
      true ∅ = some (some g') ∧ IsSubgraph clearedPdg [1, 2] true ∅ g' := by
  rintro ⟨g', hg', hsub⟩
  obtain ⟨_, h⟩ := createSubgraphFromValues_eq_some (cons_ne_nil 1 [2]) (by decide) hg'
  have hcovers := DG.covers_of_copyContents_eq (h.contents_eq.symm.trans hsub.contents_eq)
  exact absurd hcovers (by decide)

theorem createSubgraphFromValues_correct_iff_clearedPdg :
    (∃ g', createSubgraphFromValues .stored (fun _ => false) clearedPdg 1 [1] true ∅ =
        some (some g') ∧ IsSubgraph clearedPdg [1] true ∅ g') ↔
      ∀ e ∈ clearedPdg.allEdges, Selects [1] true ∅ e →
        e.kind ≠ .undefinedDependence ∧ (clearedPdg.edgeAttr e).Covers fun _ => false :=
  createSubgraphFromValues_correct_iff .stored (fun _ => false) clearedPdg 1 true ∅
    (cons_ne_nil 1 []) (nodup_singleton 1)

/-! ## Cloning -/

/-- Two extractions with the same outcome. -/
def SameOutcome (r r' : Option (Option (PDG V))) : Prop :=
  match r, r' with
  | none, none => True
  | some none, some none => True
  | some (some g), some (some g') =>
      (∀ v, g'.isInternal v = g.isInternal v) ∧ (∀ v, g'.isExternal v = g.isExternal v) ∧
        g'.contents = g.contents
  | _, _ => False

/-- A graph that answers as another one does. -/
structure IsClone (ord : IterOrder) (subLC : DGEdge V → Bool) (g g' : PDG V) : Prop where
  isInternal_eq : ∀ v, g'.isInternal v = g.isInternal v
  isExternal_eq : ∀ v, g'.isExternal v = g.isExternal v
  contents_eq : g'.contents = g.contents
  extraction : ∀ self values linkToExternal, values.Nodup →
    SameOutcome (createSubgraphFromValues ord subLC g self values linkToExternal ∅)
      (createSubgraphFromValues ord subLC g' self values linkToExternal ∅)

/-- The dependences an extraction that ignores no edge is asked for. -/
def SelectsDep (values : List V) (linkToExternal : Bool) (d : Dep V) : Prop :=
  if linkToExternal then d.src ∈ values ∨ d.dst ∈ values else d.src ∈ values ∧ d.dst ∈ values

instance (values : List V) (linkToExternal : Bool) : DecidablePred (SelectsDep values linkToExternal) :=
  fun d => by
    unfold SelectsDep
    infer_instance

theorem selected_contents (g : PDG V) (values : List V) (linkToExternal : Bool) :
    (selected g values linkToExternal ∅ : Multiset (DGEdge V)).map g.edgeContents =
      g.contents.filter fun c => SelectsDep values linkToExternal c.1 := by
  rw [DG.contents, Multiset.filter_map, selected, ← Multiset.filter_coe]
  refine congrArg _ (Multiset.filter_congr fun e _ => ?_)
  simp [Selects, SelectsDep, DG.edgeContents, DGEdge.dep]

omit [DecidableEq V] in
theorem copyable_congr (h : g'.contents = g.contents)
    (hok : ∀ e ∈ g.allEdges, e.kind ≠ .undefinedDependence ∧ (g.edgeAttr e).Covers subLC) :
    ∀ e ∈ g'.allEdges, e.kind ≠ .undefinedDependence ∧ (g'.edgeAttr e).Covers subLC := by
  intro e' he'
  have hmem : g'.edgeContents e' ∈ g.contents := by
    rw [← h]
    exact Multiset.mem_map_of_mem _ (Multiset.mem_coe.mpr he')
  obtain ⟨e, he, heq⟩ := Multiset.mem_map.mp hmem
  obtain ⟨hkind, hcovers⟩ := hok e (Multiset.mem_coe.mp he)
  obtain ⟨hdep, hsubs⟩ := Prod.ext_iff.mp heq
  have hflag : (g.edgeAttr e).isLoopCarried = (g'.edgeAttr e').isLoopCarried :=
    congrArg Dep.isLoopCarried hdep
  refine ⟨fun hundef => hkind ((congrArg Dep.kind hdep).trans hundef), fun s hs hlc => ?_⟩
  have hperm : (g.edgeAttr e).getSubEdges.elems.Perm (g'.edgeAttr e').getSubEdges.elems :=
    Multiset.coe_eq_coe.mp hsubs
  have hs' : s ∈ (g.edgeAttr e).getSubEdges := hperm.mem_iff.mpr hs
  rw [← hflag]
  exact hcovers s hs' hlc

/-- Graphs with the same contents have the same subgraphs. -/
theorem sameOutcome_of_contents_eq (ord : IterOrder) (h : g'.contents = g.contents)
    (hok : ∀ e ∈ g.allEdges, e.kind ≠ .undefinedDependence ∧ (g.edgeAttr e).Covers subLC)
    (self : Nat) (values : List V) (linkToExternal : Bool) (hnodup : values.Nodup) :
    SameOutcome (createSubgraphFromValues ord subLC g self values linkToExternal ∅)
      (createSubgraphFromValues ord subLC g' self values linkToExternal ∅) := by
  cases values with
  | nil => trivial
  | cons first rest =>
      obtain ⟨g₁, hg₁, h₁⟩ :=
        exists_isSubgraph ord g self linkToExternal ∅ (cons_ne_nil first rest) hnodup
          fun e he => hok e (mem_selected.mp he).1
      obtain ⟨g₂, hg₂, h₂⟩ :=
        exists_isSubgraph ord g' self linkToExternal ∅ (cons_ne_nil first rest) hnodup
          fun e he => copyable_congr h hok e (mem_selected.mp he).1
      have hcontents : g₂.contents = g₁.contents := by
        rw [h₂.contents_eq, h₁.contents_eq, selected_contents, selected_contents, h]
      -- the external values are the other ends of the copies
      have hends : ∀ {g g₁ : PDG V}, IsSubgraph g (first :: rest) linkToExternal ∅ g₁ → ∀ v,
          (∃ e ∈ selected g (first :: rest) linkToExternal ∅, e.getSrc = v ∨ e.getDst = v) ↔
            ∃ c ∈ g₁.contents, c.1.src = v ∨ c.1.dst = v := by
        intro g g₁ h v
        rw [h.contents_eq]
        constructor
        · rintro ⟨e, he, hv⟩
          exact ⟨_, Multiset.mem_map_of_mem _ (Multiset.mem_coe.mpr he), hv⟩
        · rintro ⟨c, hc, hv⟩
          obtain ⟨e, he, rfl⟩ := Multiset.mem_map.mp hc
          exact ⟨e, Multiset.mem_coe.mp he, hv⟩
      rw [hg₁, hg₂]
      refine ⟨fun v => ?_, fun v => ?_, hcontents⟩
      · rw [Bool.eq_iff_iff, h₂.isInternal_iff, h₁.isInternal_iff]
      · rw [Bool.eq_iff_iff, h₂.isExternal_iff, h₁.isExternal_iff, hends h₁, hends h₂, hcontents]

/-- The values `clone` collects. -/
def clonedValues (ord : IterOrder) (g : PDG V) : List V :=
  (ord.visit g.internalNodeMap.entries).map (·.1) ++ (ord.visit g.externalNodeMap.entries).map (·.1)

omit [DecidableEq V] in
theorem mem_visit_keys [DecidableEq V] (ord : IterOrder) (map : AList fun _ : V => Option (DGNode V))
    (v : V) : v ∈ (ord.visit map.entries).map (·.1) ↔ (map.lookup v).isSome = true := by
  rw [((ord.visit_perm map.entries).map _).mem_iff, AList.lookup_isSome]
  exact Iff.rfl

theorem mem_clonedValues (ord : IterOrder) (g : PDG V) (v : V) :
    v ∈ clonedValues ord g ↔ g.isInGraph v = true := by
  rw [clonedValues, mem_append, mem_visit_keys, mem_visit_keys, DG.isInGraph_iff]
  rfl

theorem clonedValues_ne_nil (ord : IterOrder) (hne : ∃ v, g.isInternal v = true) :
    clonedValues ord g ≠ [] := by
  obtain ⟨v, hv⟩ := hne
  exact ne_nil_of_mem ((mem_clonedValues ord g v).mpr (DG.isInGraph_iff.mpr (.inl hv)))

theorem clonedValues_nodup (ord : IterOrder) (hg : g.WF) :
    (clonedValues ord g).Nodup := by
  have hkeys : ∀ map : AList fun _ : V => Option (DGNode V),
      ((ord.visit map.entries).map (·.1)).Nodup := fun map =>
    (((ord.visit_perm map.entries).map _).nodup_iff).mpr map.nodupKeys
  refine nodup_append.mpr ⟨hkeys _, hkeys _, fun v hv w hw heq => ?_⟩
  subst heq
  have hin := (mem_visit_keys ord _ v).mp hv
  exact Bool.false_ne_true ((hg.disjoint v hin).symm.trans ((mem_visit_keys ord _ v).mp hw))

theorem selected_clonedValues (ord : IterOrder) (hg : g.WF) :
    selected g (clonedValues ord g) true ∅ = g.allEdges.elems := by
  refine filter_eq_self.mpr fun e he => ?_
  have hsrc := (hg.edge_isInGraph (PtrSet.mem_elems.mp he)).1
  simp [Selects, mem_clonedValues, hsrc]

theorem isInternal_clone (hg : g.WF) (hne : ∃ v, g.isInternal v = true)
    (h : clone ord subLC g self true = some (some g')) (v : V) :
    g'.isInternal v = g.isInGraph v := by
  have hclone : createSubgraphFromValues ord subLC g self (clonedValues ord g) true ∅ =
      some (some g') := h
  obtain ⟨_, hex⟩ := createSubgraphFromValues_eq_some (clonedValues_ne_nil ord hne)
    (clonedValues_nodup ord hg) hclone
  rw [Bool.eq_iff_iff, hex.isInternal_iff, mem_clonedValues]

/-- **Cloning**: a clone with the external nodes answers as the original does if and only
if there is no external value and every dependence can be copied with its flag. -/
theorem clone_correct_iff (ord : IterOrder) (subLC : DGEdge V → Bool) {g : PDG V} (hg : g.WF)
    (hne : ∃ v, g.isInternal v = true) (self : Nat) :
    (∃ g', clone ord subLC g self true = some (some g') ∧ IsClone ord subLC g g') ↔
      (∀ v, g.isExternal v = false) ∧
        ∀ e ∈ g.allEdges, e.kind ≠ .undefinedDependence ∧ (g.edgeAttr e).Covers subLC := by
  have hvalues := clonedValues_ne_nil ord hne
  have hnodup := clonedValues_nodup ord hg
  constructor
  · rintro ⟨g', hg', hclone⟩
    have hg'' : createSubgraphFromValues ord subLC g self (clonedValues ord g) true ∅ =
        some (some g') := hg'
    obtain ⟨hkind, h⟩ := createSubgraphFromValues_eq_some hvalues hnodup hg''
    rw [selected_clonedValues ord hg] at hkind h
    refine ⟨fun v => ?_, fun e he => ⟨hkind e he, ?_⟩⟩
    · cases hex : g.isExternal v with
      | false => rfl
      | true =>
          -- the value is internal to the clone, so it would be internal and external
          have hin : g.isInternal v = true := by
            rw [← hclone.isInternal_eq, isInternal_clone hg hne hg', DG.isInGraph_iff]
            exact .inr hex
          exact absurd hex (by simp [hg.disjoint v hin])
    · exact DG.covers_of_copyContents_eq (h.contents_eq.symm.trans hclone.contents_eq) e he
  · rintro ⟨hexternal, hok⟩
    obtain ⟨g', hg', h⟩ := exists_isSubgraph ord g self true ∅ hvalues hnodup fun e he =>
      hok e (mem_selected.mp he).1
    have hcontents : g'.contents = g.contents := by
      rw [h.contents_eq, selected_clonedValues ord hg]
      rfl
    refine ⟨g', hg', fun v => ?_, fun v => ?_, hcontents,
      sameOutcome_of_contents_eq ord hcontents hok⟩
    · rw [isInternal_clone hg hne hg', DG.isInGraph, hexternal, Bool.or_false]
    · rw [hexternal, ← Bool.not_eq_true, h.isExternal_iff]
      rintro ⟨hv, e, he, hends⟩
      obtain ⟨hsrc, hdst⟩ := hg.edge_isInGraph (mem_selected.mp he).1
      rcases hends with rfl | rfl
      · exact hv ((mem_clonedValues ord g _).mpr hsrc)
      · exact hv ((mem_clonedValues ord g _).mpr hdst)

/-- A value and a control dependence to an external one. -/
def externalHistory : List (DG.Op Nat (DGEdge Nat)) :=
  [.addNode 1 true, .addNode 2 false, .addControlDependenceEdge 1 2]

def externalPdg : PDG Nat :=
  (DG.execute (fun _ => false) (DG.empty 0) externalHistory).getD (DG.empty 0)

theorem externalPdg_wf : externalPdg.WF := (DG.clean_of_history _ 0 (by decide)).toWF

/-- The external value is internal to the clone. -/
theorem clone_externalPdg : externalPdg.WF ∧ externalPdg.isInternal 1 = true ∧
    ¬ ∃ g', clone .stored (fun _ => false) externalPdg 1 true = some (some g') ∧
      IsClone .stored (fun _ => false) externalPdg g' := by
  refine ⟨externalPdg_wf, by decide, ?_⟩
  rintro ⟨g', hg', hclone⟩
  have hin := isInternal_clone externalPdg_wf ⟨1, by decide⟩ hg' 2
  rw [hclone.isInternal_eq] at hin
  exact absurd hin (by decide)

theorem clone_correct_iff_externalPdg :
    (∃ g', clone .stored (fun _ => false) externalPdg 1 true = some (some g') ∧
        IsClone .stored (fun _ => false) externalPdg g') ↔
      (∀ v, externalPdg.isExternal v = false) ∧ ∀ e ∈ externalPdg.allEdges,
        e.kind ≠ .undefinedDependence ∧ (externalPdg.edgeAttr e).Covers fun _ => false :=
  clone_correct_iff .stored (fun _ => false) externalPdg_wf ⟨1, by decide⟩ 1

end PDG

end Noelle
