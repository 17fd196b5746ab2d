import Noelle.AllocAA.Runs

/-!
# AllocAA.Classified

What the constructor of `AllocAA` has checked of a global pointer and of an allocation that it
classifies, and what follows for the values of the module that name the global pointer: only
loads, and stores of fresh allocations, have such a value as an operand.
-/

namespace Noelle

open List Option

def CallRecords.NameCallee {V : Type} (callGraph : CallRecords V) (M : AllocModule V) : Prop :=
  ∀ caller v F, (some v, some F) ∈ callGraph caller →
    ∀ calledOperand arguments, M.value v = .callInst calledOperand arguments → calledOperand = F

namespace AllocAA

/-! ## Users -/

section Lists

variable {V : Type}

theorem allOf_eq_some_true {p : V → Option Bool} {l : List V} :
    allOf p l = some true ↔ ∀ v ∈ l, p v = some true := by
  induction l with
  | nil => simp [allOf]
  | cons v l ih =>
    cases hv : p v with
    | none => simp [allOf, hv]
    | some b => cases b <;> simp [allOf, hv, ih]

theorem exists_of_mapM {f : V → Option V} {l l' : List V} (h : l.mapM f = some l') {v : V}
    (hv : v ∈ l) : ∃ I ∈ l', f v = some I := by
  induction l generalizing l' with
  | nil => cases hv
  | cons w l ih =>
    rw [mapM_cons] at h
    obtain ⟨I, hI, h⟩ := bind_eq_some_iff.mp h
    obtain ⟨tail, htail, h⟩ := bind_eq_some_iff.mp h
    obtain rfl : I :: tail = l' := by simpa using h
    rcases mem_cons.mp hv with rfl | hv
    · exact ⟨I, .head _, hI⟩
    · obtain ⟨J, hJ, hvJ⟩ := ih htail hv
      exact ⟨J, .tail I hJ, hvJ⟩

end Lists

variable {V : Type} [DecidableEq V] {ord : IterOrder} {M : AllocModule V}

theorem userInstruction_cases {u I : V} (h : userInstruction M u = some I) :
    M.isInstruction I = true ∧ (I = u ∨ M.users u = [I] ∧
      ∃ v, M.value u = .bitCastOperator v ∨ M.value u = .zExtOperator v) := by
  unfold userInstruction at h
  split at h
  · next v hv =>
    obtain ⟨hinst, hone⟩ := singleUser_eq_some M h
    exact ⟨hinst, .inr ⟨hone, v, .inl hv⟩⟩
  · next v hv =>
    obtain ⟨hinst, hone⟩ := singleUser_eq_some M h
    exact ⟨hinst, .inr ⟨hone, v, .inr hv⟩⟩
  · split at h <;> simp_all

theorem exists_userInstruction {v u : V} {us : PtrSet V}
    (h : collectUserInstructions M v = some us) (hu : u ∈ M.users v) :
    ∃ I ∈ us, userInstruction M u = some I := by
  obtain ⟨l, hl, rfl⟩ := map_eq_some_iff.mp h
  obtain ⟨I, hI, huI⟩ := exists_of_mapM hl hu
  exact ⟨I, PtrSet.mem_ofList.mpr hI, huI⟩

/-! ## Classification -/

end AllocAA

namespace AllocModule

variable {V : Type} [DecidableEq V] (M : AllocModule V)

/-- The instruction loads from a global pointer, or stores what an allocator returned to it and
is used nowhere else. -/
def IsArrayPointerUse (I : V) : Prop :=
  (∃ p, M.value I = .loadInst p) ∨
    ∃ v p, M.value I = .storeInst v p ∧ M.CallsAllocator v ∧ M.hasOneUse v = true

/-- A global variable that is used as a pointer to arrays. -/
structure IsArrayPointer (g : V) : Prop where
  mem : g ∈ M.values
  globalVariable : (M.value g).isGlobalVariable = true
  uses : ∃ us, AllocAA.collectUserInstructions M g = some us ∧ ∀ I ∈ us, M.IsArrayPointerUse I

/-- A call of an allocator whose result is used by casts and GEPs. -/
structure IsArray (c : V) : Prop where
  callsAllocator : M.CallsAllocator c
  uses : ∃ us, AllocAA.collectUserInstructions M c = some us ∧
    ∀ I ∈ us, (∃ w, M.value I = .castInst w) ∨ ∃ w indices, M.value I = .getElementPtrInst w indices

end AllocModule

namespace AllocAA

variable {V : Type} [DecidableEq V] {ord : IterOrder} {M : AllocModule V}
variable {fuel : Nat} {us CGUnderMain st st' : PtrSet V} {c : V}

theorem isArrayPointerUse_of_isPrimitiveArrayPointer
    (h : isPrimitiveArrayPointer ord M fuel us = some true) :
    ∀ I ∈ us, M.IsArrayPointerUse I := by
  intro I hI
  have hbody := allOf_eq_some_true.mp h I (IterOrder.mem_visit ord |>.mpr hI)
  split at hbody
  · next v p hv =>
    have hb := some.inj hbody
    rw [Bool.and_eq_true] at hb
    exact .inr ⟨v, p, hv, hb⟩
  · next p hv => exact .inl ⟨p, hv⟩
  · simp at hbody

theorem castOrGEP_of_isPrimitiveArray (h : isPrimitiveArray ord M fuel us = some true) :
    ∀ I ∈ us, (∃ w, M.value I = .castInst w) ∨
      ∃ w indices, M.value I = .getElementPtrInst w indices := by
  intro I hI
  cases fuel with
  | zero => simp [isPrimitiveArray] at h
  | succ fuel =>
    have hbody := allOf_eq_some_true.mp h I (IterOrder.mem_visit ord |>.mpr hI)
    split at hbody
    · next w hv => exact .inl ⟨w, hv⟩
    · next w indices hv => exact .inr ⟨w, indices, hv⟩
    · simp [readOnlyFunctionNames] at hbody
    · simp at hbody

theorem classifyGlobal_cases {g : V} (h : classifyGlobal ord M fuel CGUnderMain st g = some st') :
    st' = st ∨ st' = st.insert g ∧
      ∃ us, collectUserInstructions M g = some us ∧ ∀ I ∈ us, M.IsArrayPointerUse I := by
  unfold classifyGlobal at h
  split at h
  · exact .inl (some.inj h).symm
  split at h
  · exact .inl (some.inj h).symm
  split at h
  · exact .inl (some.inj h).symm
  next us hus =>
  dsimp only at h
  split at h
  · exact .inl (some.inj h).symm
  obtain ⟨b, hb, h⟩ := bind_eq_some_iff.mp h
  cases b with
  | false => exact .inl (some.inj h).symm
  | true =>
    exact .inr ⟨(some.inj h).symm, us, hus, isArrayPointerUse_of_isPrimitiveArrayPointer hb⟩

theorem classifyCall_cases (h : classifyCall ord M fuel st c = some st') :
    st' = st ∨ st' = st.insert c ∧ ∃ us, collectUserInstructions M c = some us ∧
      ∀ I ∈ us, (∃ w, M.value I = .castInst w) ∨
        ∃ w indices, M.value I = .getElementPtrInst w indices := by
  unfold classifyCall at h
  split at h
  · exact .inl (some.inj h).symm
  next us hus =>
  obtain ⟨b, hb, h⟩ := bind_eq_some_iff.mp h
  cases b with
  | false => exact .inl (some.inj h).symm
  | true =>
    exact .inr ⟨(some.inj h).symm, us, hus, castOrGEP_of_isPrimitiveArray hb⟩

/-- Every collected call is a call of an allocator. -/
theorem callsAllocator_of_mem_collectAllocations {callGraph : CallRecords V}
    (hcallGraph : callGraph.NameCallee M)
    (hc : c ∈ collectAllocations ord M callGraph CGUnderMain) : M.CallsAllocator c := by
  have hcall : ∀ caller, ∀ calls : PtrSet V, (∀ c ∈ calls, M.CallsAllocator c) →
      ∀ c ∈ (callGraph caller).foldl (collectCall M (M.values.elems.filter fun v =>
        allocatorFunctionNames.any fun allocName => decide (M.value v = .function allocName)))
        calls, M.CallsAllocator c := by
    intro caller calls hcalls
    refine foldl_rule _ (fun _ calls => ∀ c ∈ calls, M.CallsAllocator c) hcalls ?_
    intro _ callRecord _ calls hl hcalls
    unfold collectCall
    split
    · next v F =>
      split
      · next hF =>
        split
        · next calledOperand arguments hv =>
          intro c hc
          rcases PtrSet.mem_insert.mp hc with rfl | hc
          · obtain rfl := hcallGraph caller c F (by rw [hl]; simp) calledOperand arguments hv
            obtain ⟨name, hname, hvF⟩ := any_eq_true.mp (mem_filter.mp hF).2
            have hcalled : M.calledFunctionName c = some name := by
              simp [AllocModule.calledFunctionName, hv, of_decide_eq_true hvF]
            rw [AllocModule.CallsAllocator, hcalled]
            simpa using hname
          · exact hcalls c hc
        · exact hcalls
      · exact hcalls
    · exact hcalls
  refine foldl_rule _ (fun _ (calls : PtrSet V) => ∀ c ∈ calls, M.CallsAllocator c)
    (by simp) ?_ c hc
  intro _ caller _ calls _ hcalls
  exact hcall caller calls hcalls

variable {callGraph : CallRecords V} {fuel : Nat} {aa : AllocAA V}

theorem isArrayPointer_of_mem (hnew : AllocAA.new ord M callGraph fuel = some aa) {g : V}
    (hg : g ∈ aa.primitiveArrayGlobals) : M.IsArrayPointer g := by
  obtain ⟨CGUnderMain, -, hnew⟩ := bind_eq_some_iff.mp hnew
  obtain ⟨globals, hglobals, hnew⟩ := bind_eq_some_iff.mp hnew
  obtain ⟨locals, -, hnew⟩ := bind_eq_some_iff.mp hnew
  cases hnew
  refine foldlM_preserves _ (fun st : PtrSet V => ∀ g ∈ st, M.IsArrayPointer g) _ _ _ ?_ hglobals
    (by simp) g hg
  intro v hv st st' hst hmem g hg
  obtain ⟨hvmem, hglobal⟩ := mem_filter.mp hv
  rcases classifyGlobal_cases hst with rfl | ⟨rfl, hus⟩
  · exact hmem g hg
  · rcases PtrSet.mem_insert.mp hg with rfl | hg
    · exact ⟨hvmem, hglobal, hus⟩
    · exact hmem g hg

theorem isArray_of_mem (hcallGraph : callGraph.NameCallee M)
    (hnew : AllocAA.new ord M callGraph fuel = some aa) {c : V}
    (hc : c ∈ aa.primitiveArrayLocals) : M.IsArray c := by
  obtain ⟨CGUnderMain, -, hnew⟩ := bind_eq_some_iff.mp hnew
  obtain ⟨globals, -, hnew⟩ := bind_eq_some_iff.mp hnew
  obtain ⟨locals, hlocals, hnew⟩ := bind_eq_some_iff.mp hnew
  cases hnew
  refine foldlM_preserves _ (fun st : PtrSet V => ∀ c ∈ st, M.IsArray c) _ _ _ ?_ hlocals
    (by simp) c hc
  intro v hv st st' hst hmem c hc
  rcases classifyCall_cases hst with rfl | ⟨rfl, hus⟩
  · exact hmem c hc
  · rcases PtrSet.mem_insert.mp hc with rfl | hc
    · exact ⟨callsAllocator_of_mem_collectAllocations hcallGraph
        (IterOrder.mem_visit ord |>.mp hv), hus⟩
    · exact hmem c hc

end AllocAA

/-! ## Values that name a classified global pointer -/

namespace AllocModule

section Constants

variable {V : Type} {M : AllocModule V} {g : V}
variable {o : MemoryObject V} {v : V} {val : RunValue V}

theorem Denotes.static_of_globalVariable (hg : (M.value g).isGlobalVariable = true)
    (h : M.Denotes g o) : o = .static g := by
  obtain ⟨val, hval, ho⟩ := h
  cases hval <;> simp_all [AllocValue.isGlobalVariable]

/-- A constant made from a pointer into an object has a part that is the object's name. -/
theorem ConstantValue.object_static (h : M.ConstantValue v val) (ho : val.object = some o) :
    ∃ w, o = .static w ∧ M.isInstruction w = false := by
  induction h with
  | @global v _ hv =>
    exact ⟨v, (some.inj ho).symm, by simp [isInstruction, hv, AllocValue.isInstruction]⟩
  | @function v _ hv =>
    exact ⟨v, (some.inj ho).symm, by simp [isInstruction, hv, AllocValue.isInstruction]⟩
  | data => cases ho
  | bitCast _ _ ih => exact ih ho
  | zExt _ _ _ ih => exact ih ho
  | other _ _ _ _ ih => exact ih ho
  | number => cases ho

theorem ConstantValue.not_instruction (h : M.ConstantValue v val) :
    M.isInstruction v = false ∧ M.value v ≠ .argument := by
  cases h <;> simp_all [isInstruction, AllocValue.isInstruction]

end Constants

namespace IsArrayPointer

variable {V : Type} [DecidableEq V] {M : AllocModule V} {g : V}

/-- The values that name a classified global variable: itself, and constant casts of it that one
instruction uses. -/
theorem denotes (hg : M.IsArrayPointer g) {v : V} {val : RunValue V}
    (h : M.ConstantValue v val) (hv : v ∈ M.values) (ho : val.object = some (.static g)) :
    v = g ∨ (M.value v = .bitCastOperator g ∨ M.value v = .zExtOperator g) ∧
      ∃ I, M.users v = [I] ∧ M.isInstruction I = true ∧ M.IsArrayPointerUse I := by
  obtain ⟨us, hus, huses⟩ := hg.uses
  -- a constant over `w` is neither an instruction nor the one user of a cast
  have hpart : ∀ {v w : V}, v ∈ M.values → w ∈ (M.value v).operands →
      M.isInstruction v = false →
      (w = g ∨ (M.value w = .bitCastOperator g ∨ M.value w = .zExtOperator g) ∧
        ∃ I, M.users w = [I] ∧ M.isInstruction I = true ∧ M.IsArrayPointerUse I) →
      (M.value v = .bitCastOperator g ∨ M.value v = .zExtOperator g) ∧
        ∃ I, M.users v = [I] ∧ M.isInstruction I = true ∧ M.IsArrayPointerUse I := by
    rintro v w hv hw hinst (rfl | ⟨-, I, hI, hIinst, -⟩)
    · obtain ⟨I, hI, huI⟩ := AllocAA.exists_userInstruction hus (M.mem_users.mpr ⟨hv, hw⟩)
      obtain ⟨hIinst, rfl | ⟨hone, w', hcast⟩⟩ := AllocAA.userInstruction_cases huI
      · rw [hinst] at hIinst
        cases hIinst
      · obtain rfl : w = w' := by
          rcases hcast with hcast | hcast <;> simpa [hcast, AllocValue.operands] using hw
        exact ⟨hcast, I, hone, hIinst, huses I hI⟩
    · have hvI : v ∈ M.users w := M.mem_users.mpr ⟨hv, hw⟩
      rw [hI, mem_singleton] at hvI
      rw [hvI, hIinst] at hinst
      cases hinst
  induction h with
  | @global v _ _ => exact .inl (MemoryObject.static.inj (some.inj ho))
  | @function v _ _ => exact .inl (MemoryObject.static.inj (some.inj ho))
  | data => cases ho
  | @bitCast v w _ hvw hw ih =>
    have hmem : w ∈ (M.value v).operands := by simp [hvw, AllocValue.operands]
    exact .inr (hpart hv hmem (by simp [isInstruction, hvw, AllocValue.isInstruction])
      (ih (M.operand_mem v hv w hmem) ho))
  | @zExt v w _ _ hvw hw ih =>
    have hmem : w ∈ (M.value v).operands := by simp [hvw, AllocValue.operands]
    exact .inr (hpart hv hmem (by simp [isInstruction, hvw, AllocValue.isInstruction])
      (ih (M.operand_mem v hv w hmem) ho))
  | @other v w _ _ _ hvw hwl hw ih =>
    have hmem : w ∈ (M.value v).operands := by simpa [hvw, AllocValue.operands] using hwl
    exact .inr (hpart hv hmem (by simp [isInstruction, hvw, AllocValue.isInstruction])
      (ih (M.operand_mem v hv w hmem) ho))
  | number => cases ho

theorem eq_of_denotes (hg : M.IsArrayPointer g) {h v : V} (hv : v ∈ M.values)
    (hvg : M.Denotes v (.static g)) (hvh : M.Denotes v (.static h)) : h = g := by
  obtain ⟨val, hval, ho⟩ := hvg
  have hsame : M.Denotes g (.static h) := by
    rcases hg.denotes hval hv ho with rfl | ⟨hcast | hcast, -⟩
    · exact hvh
    all_goals
      obtain ⟨valh, hvalh, hoh⟩ := hvh
      cases hvalh <;> simp_all
      exact ⟨_, by assumption, hoh⟩
  exact MemoryObject.static.inj (hsame.static_of_globalVariable hg.globalVariable)

/-- Only loads, and stores of fresh allocations, name a classified global variable; no
initializer does. -/
theorem use (hg : M.IsArrayPointer g) {u v : V} (hu : u ∈ M.values)
    (hv : v ∈ (M.value u).operands) (h : M.Denotes v (.static g))
    (hinst : M.isInstruction u = true ∨ (M.value u).isGlobalVariable = true) :
    M.IsArrayPointerUse u := by
  obtain ⟨val, hval, ho⟩ := h
  have huser : u ∈ M.users v := M.mem_users.mpr ⟨hu, hv⟩
  rcases hg.denotes hval (M.operand_mem u hu v hv) ho with rfl | ⟨-, I, hI, -, huse⟩
  · obtain ⟨us, hus, huses⟩ := hg.uses
    obtain ⟨I, hI, huI⟩ := AllocAA.exists_userInstruction hus huser
    obtain ⟨-, rfl | ⟨-, w, hw⟩⟩ := AllocAA.userInstruction_cases huI
    · exact huses I hI
    · -- a constant cast is neither
      rcases hw with hw | hw <;>
        simp [isInstruction, hw, AllocValue.isInstruction, AllocValue.isGlobalVariable] at hinst
  · rw [hI, mem_singleton] at huser
    exact huser ▸ huse

end IsArrayPointer

end AllocModule

end Noelle
