import Noelle.PDGGenerator.Dependences

/-!
# PDGGenerator.Embedding

What `embedPDGAsMetadata` leaves in the module: a number for every node, noted where the reader
looks for it, and the tuples of the memory dependences in the function of their source.
-/

namespace Noelle

open Function List Option

namespace PDGGenerator

variable {V F B : Type} [DecidableEq V] [DecidableEq F] [DecidableEq B]

/-! ## Module graphs -/

namespace PDGModule

variable {M : PDGModule V F B} {v : V} {f : F}

section

omit [DecidableEq V] [DecidableEq F]

theorem mem_valuesOf (hf : f ∈ M.functions) (hv : v ∈ M.valuesOf f) :
    M.functionOf v = some f ∧ v ∈ M.values := by
  refine ⟨?_, mem_flatMap.mpr ⟨f, hf, hv⟩⟩
  unfold ModuleIR.valuesOf at hv
  cases hbody : M.body f with
  | none => simp [hbody] at hv
  | some body =>
      rw [hbody] at hv
      rcases mem_append.mp hv with hv | hv
      · obtain ⟨n, hn⟩ := mem_iff_getElem?.mp hv
        rw [ModuleIR.functionOf, (M.argument_iff v f n).mpr ⟨hf, hn⟩]
      · rw [ModuleIR.functionOf, (M.instruction_iff v f).mpr ⟨hf, hv⟩]

theorem exists_function (hv : v ∈ M.values) :
    ∃ f ∈ M.functions, M.functionOf v = some f ∧ v ∈ M.valuesOf f := by
  obtain ⟨f, hf, hv⟩ := mem_flatMap.mp hv
  exact ⟨f, hf, (mem_valuesOf hf hv).1, hv⟩

theorem mem_valuesOf_of_functionOf (hv : v ∈ M.values) (hf : M.functionOf v = some f) :
    v ∈ M.valuesOf f := by
  obtain ⟨f', -, hf', hv⟩ := exists_function hv
  rwa [mem_unique hf hf']

end

end PDGModule

/-- A program dependence graph of a module: its nodes are the arguments and instructions, and
data dependences have a data type. -/
structure IsModulePDG (M : PDGModule V F B) (pdg : PDG V) : Prop where
  wf : pdg.WF
  nodes : (pdg.allNodes.elems.map (·.theT)).Perm M.values
  typed : ∀ e ∈ pdg.allEdges, e.kind.isData = true → e.dataDepType.isSome = true

variable {M : PDGModule V F B} {pdg : PDG V} {e : DGEdge V} {n : Nat}
  {ids : AList fun _ : Nat => Metadata}

omit [DecidableEq F] in
theorem IsModulePDG.edge_mem (h : IsModulePDG M pdg)
    (he : e ∈ pdg.allEdges) : e.getSrc ∈ M.values ∧ e.getDst ∈ M.values := by
  obtain ⟨hsrc, hdst⟩ := h.wf.edge_nodes he
  exact ⟨h.nodes.mem_iff.mp (mem_map_of_mem hsrc), h.nodes.mem_iff.mp (mem_map_of_mem hdst)⟩

theorem isData_of_isMemory {kind : DependenceKind} (h : kind.isMemory = true) :
    kind.isData = true := by
  cases kind <;> first | rfl | exact absurd h (by decide)

omit [DecidableEq F] in
theorem IsModulePDG.exists_type (h : IsModulePDG M pdg) (he : e ∈ pdg.allEdges)
    (hkind : e.kind.isMemory = true) :
    ∃ t, e.dataDepType = some t :=
  isSome_iff_exists.mp (h.typed e he (isData_of_isMemory hkind))

/-! ## Numbers -/

/-- The values have different numbers, noted in the metadata. -/
structure Numbered (M : PDGModule V F B) (idOf : V → Metadata) (nodeIDMap : V → Option Metadata)
    (md : ModuleMetadata V F) : Prop where
  isMDNode : ∀ v, (idOf v).isMDNode = true
  inj : ∀ v ∈ M.values, ∀ w ∈ M.values, idOf v = idOf w → v = w
  nodeIDMap : ∀ v ∈ M.values, nodeIDMap v = some (idOf v)
  instId : ∀ v ∈ M.values, ∀ f, M.valueClass v = .instruction f → md.instId v = some (idOf v)
  argsId : ∀ f ∈ M.functions, (M.body f).isSome = true → M.args f ≠ [] →
    ∃ operands, md.argsId f = some (.node operands) ∧
      ∀ (n : Nat) v, (M.args f)[n]? = some v → operands[n]? = some (idOf v)
  argsId_none : ∀ f ∈ M.functions, M.body f = none → md.argsId f = none

theorem lt_argsBound {l : List Nat} (h : n ∈ l) :
    n < l.foldr (fun argNo n => max (argNo + 1) n) 0 := by
  induction l with
  | nil => nomatch h
  | cons m l ih =>
      rw [foldr_cons]
      rcases mem_cons.mp h with rfl | h
      · exact lt_max_of_lt_left (Nat.lt_succ_self n)
      · exact lt_max_of_lt_right (ih h)

theorem argsVec_getElem? {m : Metadata}
    (h : ids.lookup n = some m) : (argsVec ids)[n]? = some m := by
  have hkey : n ∈ ids.keys := by
    rw [← AList.mem_keys]
    exact AList.lookup_isSome.mp (by rw [h]; rfl)
  rw [argsVec, List.getElem?_map, List.getElem?_range (lt_argsBound hkey), map_some, h]
  rfl

/-- The values that the loop has numbered. -/
structure NumberedSoFar (M : PDGModule V F B) (idOf : V → Metadata) (pre : List V)
    (s : NodeIDs V F) : Prop where
  i_eq : s.i = pre.length
  nodeIDMap : ∀ v ∈ pre, s.nodeIDMap v = some (idOf v)
  instId : ∀ v ∈ pre, ∀ f, M.valueClass v = .instruction f → s.instId v = some (idOf v)
  args : ∀ v ∈ pre, ∀ f n, M.valueClass v = .argument f n →
    (s.functionArgsIDMap f).lookup n = some (idOf v)
  args_mem : ∀ f n m, (s.functionArgsIDMap f).lookup n = some m →
    ∃ v ∈ pre, M.valueClass v = .argument f n

/-- One more node gets its number. -/
theorem embedNode_spec {idOf : V → Metadata} {pre : List V} {v : V} {s : NodeIDs V F}
    (h : NumberedSoFar M idOf pre s) (hv : v ∉ pre)
    (hid : idOf v = .node [.constantInt pre.length]) :
    NumberedSoFar M idOf (pre ++ [v]) (embedNode M.toModuleIR s v) := by
  have hne : ∀ w ∈ pre, w ≠ v := fun w hw heq => hv (heq ▸ hw)
  have hm : Metadata.node [.constantInt s.i] = idOf v := by rw [hid, h.i_eq]
  refine ⟨by simp [embedNode, h.i_eq], fun w hw => ?_, fun w hw f hclass => ?_,
    fun w hw f n hclass => ?_, fun f n m hlookup => ?_⟩
  · rcases mem_append.mp hw with hw | hw
    · simp [embedNode, update_of_ne (hne w hw), h.nodeIDMap w hw]
    · obtain rfl := mem_singleton.mp hw
      simp [embedNode, hm]
  · rcases mem_append.mp hw with hw | hw
    · have hold := h.instId w hw f hclass
      unfold embedNode
      cases M.valueClass v <;> simp [update_of_ne (hne w hw), hold]
    · obtain rfl := mem_singleton.mp hw
      simp [embedNode, hclass, hm]
  · rcases mem_append.mp hw with hw | hw
    · have hold := h.args w hw f n hclass
      unfold embedNode
      cases hclassv : M.valueClass v with
      | argument parent argNo =>
          -- two arguments have different places
          have hplace : ¬ (f = parent ∧ n = argNo) := by
            rintro ⟨rfl, rfl⟩
            obtain ⟨-, hw'⟩ := (M.argument_iff w f n).mp hclass
            obtain ⟨-, hv'⟩ := (M.argument_iff v f n).mp hclassv
            exact hne w hw (mem_unique hw' hv')
          by_cases hf : f = parent
          · subst hf
            have hn : n ≠ argNo := fun hn => hplace ⟨rfl, hn⟩
            simp [AList.lookup_insert_ne hn, hold]
          · simp [update_of_ne hf, hold]
      | instruction function => exact hold
      | other => exact hold
    · obtain rfl := mem_singleton.mp hw
      simp [embedNode, hclass, hm]
  · unfold embedNode at hlookup
    cases hclass : M.valueClass v with
    | argument parent argNo =>
        rw [hclass] at hlookup
        by_cases hplace : f = parent ∧ n = argNo
        · obtain ⟨rfl, rfl⟩ := hplace
          exact ⟨v, by simp, hclass⟩
        · have hold : (s.functionArgsIDMap f).lookup n = some m := by
            by_cases hf : f = parent
            · subst hf
              have hn : n ≠ argNo := fun hn => hplace ⟨rfl, hn⟩
              simpa [AList.lookup_insert_ne hn] using hlookup
            · simpa [update_of_ne hf] using hlookup
          obtain ⟨w, hw, hwclass⟩ := h.args_mem f n m hold
          exact ⟨w, mem_append_left _ hw, hwclass⟩
    | instruction function =>
        rw [hclass] at hlookup
        obtain ⟨w, hw, hwclass⟩ := h.args_mem f n m hlookup
        exact ⟨w, mem_append_left _ hw, hwclass⟩
    | other =>
        rw [hclass] at hlookup
        obtain ⟨w, hw, hwclass⟩ := h.args_mem f n m hlookup
        exact ⟨w, List.mem_append_left _ hw, hwclass⟩

theorem entries_isEmpty_iff :
    ids.entries.isEmpty = true ↔ ∀ n, ids.lookup n = none := by
  rw [List.isEmpty_iff]
  constructor
  · intro hempty n
    refine AList.lookup_eq_none.mpr fun hn => ?_
    rw [AList.mem_keys, AList.keys, hempty] at hn
    nomatch hn
  · intro hnone
    refine eq_nil_iff_forall_not_mem.mpr fun p hp => ?_
    have hlookup : p.2 ∈ ids.lookup p.1 := AList.mem_lookup_iff.mpr hp
    rw [hnone] at hlookup
    exact absurd hlookup (not_mem_none _)

/-- Every value of the module gets a number of its own. -/
theorem embedNodesAsMetadata_spec (ord : IterOrder) (h : IsModulePDG M pdg)
    (md : ModuleMetadata V F) :
    ∃ idOf nodeIDMap md',
      embedNodesAsMetadata ord M.toModuleIR pdg (cleanPDGMetadata M.toModuleIR md) =
        (nodeIDMap, md') ∧
      Numbered M idOf nodeIDMap md' ∧ (∀ f ∈ M.functions, md'.edges f = none) ∧
      md'.modulePdg = none := by
  let l := ord.visit (PtrSet.ofList (pdg.allNodes.elems.map (·.theT))).elems
  have hmem : ∀ v, v ∈ l ↔ v ∈ M.values := fun v => by
    rw [ord.mem_visit, PtrSet.mem_elems, PtrSet.mem_ofList, h.nodes.mem_iff]
  have hnodup : l.Nodup := ord.nodup_visit (PtrSet.nodup _)
  let idOf : V → Metadata := fun v => .node [.constantInt (l.idxOf v)]
  obtain ⟨s, hs, hrun⟩ : ∃ s, l.foldl (embedNode M.toModuleIR)
      ⟨0, fun _ => none, fun _ => ∅, (cleanPDGMetadata M.toModuleIR md).instId⟩ = s ∧
      NumberedSoFar M idOf l s := by
    refine ⟨_, rfl, foldl_rule (embedNode M.toModuleIR)
      (fun (pre : List V) s => NumberedSoFar M idOf pre s)
      ⟨rfl, by simp, by simp, by simp, by simp⟩ fun pre v post s hl hpre => ?_⟩
    have hv : v ∉ pre := by
      rw [hl] at hnodup
      exact fun hv => (nodup_append.mp hnodup).2.2 v hv v (.head _) rfl
    refine embedNode_spec hpre hv ?_
    have hidx : l.idxOf v = pre.length := by
      rw [hl, idxOf_append_of_notMem hv, idxOf_cons_self, Nat.add_zero]
    simp [idOf, hidx]
  have heq : embedNodesAsMetadata ord M.toModuleIR pdg (cleanPDGMetadata M.toModuleIR md) =
      (s.nodeIDMap, { cleanPDGMetadata M.toModuleIR md with
        instId := s.instId
        argsId := fun f =>
          if (s.functionArgsIDMap f).entries.isEmpty then (cleanPDGMetadata M.toModuleIR md).argsId f
          else some (.node (argsVec (s.functionArgsIDMap f))) }) := by
    rw [← hs]
    rfl
  refine ⟨idOf, _, _, heq, ⟨fun _ => rfl, fun v hv w _ heq => ?_, fun v hv => ?_,
    fun v hv f hclass => ?_, fun f hf hbody hargs => ?_, fun f hf hbody => ?_⟩, fun f hf => ?_, rfl⟩
  · have hidx : l.idxOf v = l.idxOf w := by simpa [idOf] using heq
    exact (idxOf_inj ((hmem v).mpr hv)).mp hidx
  · exact hrun.nodeIDMap v ((hmem v).mpr hv)
  · exact hrun.instId v ((hmem v).mpr hv) f hclass
  · have hvalue : ∀ (n : Nat) v, (M.args f)[n]? = some v →
        (s.functionArgsIDMap f).lookup n = some (idOf v) := fun n v hn => by
      have hv : v ∈ M.values := by
        refine mem_flatMap.mpr ⟨f, hf, ?_⟩
        obtain ⟨body, hbody⟩ := isSome_iff_exists.mp hbody
        rw [ModuleIR.valuesOf, hbody]
        exact mem_append_left _ (mem_of_getElem? hn)
      exact hrun.args v ((hmem v).mpr hv) f n ((M.argument_iff v f n).mpr ⟨hf, hn⟩)
    refine ⟨_, if_neg fun hempty => ?_, fun n v hn => argsVec_getElem? (hvalue n v hn)⟩
    obtain ⟨v, hv⟩ := exists_mem_of_ne_nil _ hargs
    obtain ⟨n, hn⟩ := mem_iff_getElem?.mp hv
    exact absurd ((entries_isEmpty_iff.mp hempty n).symm.trans (hvalue n v hn))
      (some_ne_none _).symm
  · have hempty : (s.functionArgsIDMap f).entries.isEmpty = true := by
      refine entries_isEmpty_iff.mpr fun n => ?_
      by_contra hne
      obtain ⟨m, hm⟩ := ne_none_iff_exists'.mp hne
      obtain ⟨v, hv, hclass⟩ := hrun.args_mem f n m hm
      have hvf := PDGModule.mem_valuesOf_of_functionOf (f := f) ((hmem v).mp hv) (by
        rw [ModuleIR.functionOf, hclass])
      rw [ModuleIR.valuesOf, hbody] at hvf
      exact absurd hvf not_mem_nil
    exact (if_pos hempty).trans (if_pos hf)
  · exact if_pos hf

/-! ## Tuples -/

section Tuples

variable (ord : IterOrder) (pdg : PDG V) (idOf : V → Metadata)

def subEdgeTuple (e : DGEdge V) (t : DataDependenceType) (subEdge : DGEdge V) : Metadata :=
  .node (attributesOf e (pdg.edgeAttr e).isLoopCarried t.dataDepToString (idOf subEdge.getSrc)
    (idOf subEdge.getDst))

def edgeTuple (e : DGEdge V) (t : DataDependenceType) : Metadata :=
  .node (attributesOf e (pdg.edgeAttr e).isLoopCarried t.dataDepToString (idOf e.getSrc)
    (idOf e.getDst) ++
      [.node ((ord.visit (pdg.edgeAttr e).getSubEdges.elems).map (subEdgeTuple pdg idOf e t))])

end Tuples

/-- The endpoints of the sub-edges of memory dependences are values of the module. -/
def SubEdgesOver (M : PDGModule V F B) (pdg : PDG V) : Prop :=
  ∀ e ∈ pdg.allEdges, e.kind.isMemory = true → ∀ s ∈ (pdg.edgeAttr e).getSubEdges,
    s.getSrc ∈ M.values ∧ s.getDst ∈ M.values

variable {M : PDGModule V F B} {pdg : PDG V} {idOf : V → Metadata} {nodeIDMap : V → Option Metadata}

omit [DecidableEq F] in
theorem getEdgeMetadata_eq (ord : IterOrder) (h : IsModulePDG M pdg) (hsubs : SubEdgesOver M pdg)
    (hids : ∀ v ∈ M.values, nodeIDMap v = some (idOf v)) {e : DGEdge V} (he : e ∈ pdg.allEdges)
    (hkind : e.kind.isMemory = true) {t : DataDependenceType} (ht : e.dataDepType = some t) :
    getEdgeMetadata ord pdg nodeIDMap e = some (edgeTuple ord pdg idOf e t) := by
  obtain ⟨hsrc, hdst⟩ := h.edge_mem he
  have htype : dataDepTypeString e = some t.dataDepToString := by
    rw [dataDepTypeString, if_pos (isData_of_isMemory hkind), ht, map_some]
  have hsubs' : (ord.visit (pdg.edgeAttr e).getSubEdges.elems).map (fun subEdge =>
      Metadata.node (attributesOf e (pdg.edgeAttr e).isLoopCarried t.dataDepToString
        ((nodeIDMap subEdge.getSrc).getD .null) ((nodeIDMap subEdge.getDst).getD .null))) =
      (ord.visit (pdg.edgeAttr e).getSubEdges.elems).map (subEdgeTuple pdg idOf e t) := by
    refine map_congr_left fun s hs => ?_
    obtain ⟨hs₁, hs₂⟩ := hsubs e he hkind s (ord.mem_visit.mp hs)
    rw [hids _ hs₁, hids _ hs₂]
    rfl
  unfold getEdgeMetadata getSubEdgesMetadata
  simp only [htype, hsubs', hids _ hsrc, hids _ hdst, bind_eq_bind, bind_some,
    Option.pure_def, Option.getD_some]
  rfl

/-- The memory dependences that start in a function, in the order in which they are written. -/
def memoryEdgesOf (ord : IterOrder) (M : ModuleIR V F B) (pdg : PDG V) (f : F) : List (DGEdge V) :=
  (ord.visit pdg.allEdges.elems).filter fun e =>
    e.kind.isMemory && decide (M.functionOf e.getSrc = some f)

/-- Embedding the edges writes the tuples of the memory dependences to the functions of their
sources. -/
theorem embedEdgesAsMetadata_spec (ord : IterOrder) (h : IsModulePDG M pdg)
    (hsubs : SubEdgesOver M pdg) (hids : ∀ v ∈ M.values, nodeIDMap v = some (idOf v))
    (md : ModuleMetadata V F) (hmd : ∀ f ∈ M.functions, md.edges f = none) :
    ∃ edges, embedEdgesAsMetadata ord M.toModuleIR pdg nodeIDMap md = some { md with edges } ∧
      ∀ f ∈ M.functions, ∀ {σ : Type} (body : σ → Metadata → Option σ) (s : σ),
        (match edges f with
          | some (.node operands) => (operands.filter Metadata.isMDNode).foldlM body s
          | _ => some s) =
        (memoryEdgesOf ord M.toModuleIR pdg f).foldlM
          (fun s e => body s (edgeTuple ord pdg idOf e (e.dataDepType.getD .raw))) s := by
  let tuple := fun e : DGEdge V => edgeTuple ord pdg idOf e (e.dataDepType.getD .raw)
  obtain ⟨functionEdgesMap, hrun, hmap⟩ := foldlM_rule (embedEdge ord M.toModuleIR pdg nodeIDMap)
    (fun (pre : List (DGEdge V)) (functionEdgesMap : F → List Metadata) =>
      ∀ f, functionEdgesMap f = (pre.filter fun e =>
        e.kind.isMemory && decide (M.functionOf e.getSrc = some f)).map tuple)
    (l := ord.visit pdg.allEdges.elems) (s := fun _ => []) (by simp)
    fun pre e post functionEdgesMap hl hpre => by
      have he : e ∈ pdg.allEdges := ord.mem_visit.mp (by rw [hl]; simp)
      unfold embedEdge
      cases hkind : e.kind.isMemory with
      | false =>
          refine ⟨functionEdgesMap, rfl, fun f => ?_⟩
          rw [hpre]
          simp [hkind]
      | true =>
          obtain ⟨t, ht⟩ := h.exists_type he hkind
          obtain ⟨f, -, hf, -⟩ := PDGModule.exists_function (h.edge_mem he).1
          have htuple : tuple e = edgeTuple ord pdg idOf e t := by simp [tuple, ht]
          refine ⟨update functionEdgesMap f (functionEdgesMap f ++ [tuple e]), ?_, fun f' => ?_⟩
          · simp [getEdgeMetadata_eq ord h hsubs hids he hkind ht, hf, htuple]
          · rw [update_apply]
            by_cases hff : f' = f
            · subst hff
              simp [hpre, hkind, hf]
            · have hff' : f ≠ f' := Ne.symm hff
              simp [hff, hpre, hkind, hf, hff']
  refine ⟨_, by rw [embedEdgesAsMetadata, hrun]; rfl, fun f hf σ body s => ?_⟩
  have hedges : functionEdgesMap f = (memoryEdgesOf ord M.toModuleIR pdg f).map tuple := hmap f
  have hfilter : (functionEdgesMap f).filter Metadata.isMDNode = functionEdgesMap f := by
    refine filter_eq_self.mpr fun m hm => ?_
    rw [hedges] at hm
    obtain ⟨e, -, rfl⟩ := mem_map.mp hm
    rfl
  have hfold : (functionEdgesMap f).foldlM body s =
      (memoryEdgesOf ord M.toModuleIR pdg f).foldlM (fun s e => body s (tuple e)) s := by
    rw [hedges, foldlM_map]
  by_cases hempty : (functionEdgesMap f).isEmpty = true
  · rw [← hfold, isEmpty_iff.mp hempty]
    simp [hmd f hf]
  · simp only [hempty, Bool.false_eq_true, if_false, hfilter]
    exact hfold

end PDGGenerator

end Noelle
