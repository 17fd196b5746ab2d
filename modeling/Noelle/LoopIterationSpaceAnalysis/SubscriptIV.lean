import Noelle.LoopIterationSpaceAnalysis.Basic
import Noelle.LoopIterationSpaceAnalysis.SCEV

/-!
# LoopIterationSpaceAnalysis.SubscriptIV

`LoopIterationSpaceAnalysis::indexIVInstructionSCEVs` and the match of a subscript with an
instruction of an induction variable, `findCorrespondingIVForSubscript`.

A subscript that is not among the indexed expressions is compared with the recurrences among them.
The search also ends at the first entry that is not a recurrence, and returns an instruction of it
although nothing has been compared.
-/

namespace Noelle

open List Option

/-- Instructions by their expressions. -/
abbrev SCEVInstructions (V B : Type) := List (AnySCEV V B × PtrSet V)

namespace LoopIterationSpaceAnalysis

variable {F V B : Type} [DecidableEq V] [DecidableEq B]

section Index

/-- An instruction is added to the set of its expression, which is created if it is the first. -/
def insertInstruction (m : SCEVInstructions V B) (scev : AnySCEV V B) (inst : V) :
    SCEVInstructions V B :=
  if m.any fun e => decide (e.1 = scev) then
    m.map fun e => if e.1 = scev then (e.1, e.2.insert inst) else e
  else m ++ [(scev, PtrSet.ofList [inst])]

/-- What the constructor indexes. -/
structure IVIndex (V B : Type) where
  ivInstructionsBySCEV : SCEVInstructions V B
  derivedInstructionsFromIVsBySCEV : SCEVInstructions V B
  ivsByInstruction : List (V × InductionVariable V)

/-- `ivsByInstruction.insert`, which keeps an entry that exists. -/
def insertIV (m : List (V × InductionVariable V)) (inst : V) (iv : InductionVariable V) :
    List (V × InductionVariable V) :=
  if m.any fun p => decide (p.1 = inst) then m else m ++ [(inst, iv)]

/-- `ivsByInstruction.at`. -/
def ivOf (m : List (V × InductionVariable V)) (inst : V) : Option (InductionVariable V) :=
  (m.find? fun p => decide (p.1 = inst)).map (·.2)

variable (ord : IterOrder) (getSCEV : V → Option (AnySCEV V B)) (loops : List (LoopStructure F B))
  (getInductionVariables : LoopStructure F B → List (InductionVariable V))

def indexIVInstruction (iv : InductionVariable V) (index : IVIndex V B) (inst : V) : IVIndex V B :=
  match getSCEV inst with
  | none => index
  | some scev => { index with
      ivInstructionsBySCEV := insertInstruction index.ivInstructionsBySCEV scev inst
      ivsByInstruction := insertIV index.ivsByInstruction inst iv }

def indexDerivedInstruction (iv : InductionVariable V) (index : IVIndex V B) (inst : V) :
    IVIndex V B :=
  match getSCEV inst with
  | none => index
  | some scev => { index with
      derivedInstructionsFromIVsBySCEV :=
        insertInstruction index.derivedInstructionsFromIVsBySCEV scev inst
      ivsByInstruction := insertIV index.ivsByInstruction inst iv }

def indexIV (index : IVIndex V B) (iv : InductionVariable V) : IVIndex V B :=
  (ord.visit iv.getDerivedSCEVInstructions.elems).foldl (indexDerivedInstruction getSCEV iv)
    ((ord.visit iv.getAllInstructions.elems).foldl (indexIVInstruction getSCEV iv) index)

def indexIVInstructionSCEVs : IVIndex V B :=
  (ord.visit loops).foldl
    (fun index loop => (ord.visit (getInductionVariables loop)).foldl (indexIV ord getSCEV) index)
    ⟨[], [], []⟩

end Index

section Find

variable (ord : IterOrder)

/-- Whether the search for a recurrence returns at an entry.  Only the recurrences are compared. -/
def returnsAt (subscriptSCEV otherSCEV : AnySCEV V B) : Option Bool :=
  match subscriptSCEV.2, otherSCEV.2 with
  | .addRecExpr loopHeader start step, .addRecExpr otherHeader otherStart otherStep =>
      if otherHeader ≠ loopHeader then some false
      else do
        if !(← start.scevsMatch otherStart) then return false
        step.scevsMatch otherStep
  | _, _ => some true

def findEntry (subscriptSCEV : AnySCEV V B) :
    SCEVInstructions V B → Option (Option (AnySCEV V B × PtrSet V))
  | [] => some none
  | scevInstPair :: rest => do
      if ← returnsAt subscriptSCEV scevInstPair.1 then return some scevInstPair
      findEntry subscriptSCEV rest

def findInstructionInLoopForSCEV (scevToInstMap : SCEVInstructions V B)
    (subscriptSCEV : AnySCEV V B) : Option (Option V) :=
  match scevToInstMap.find? fun e => decide (e.1 = subscriptSCEV) with
  | some e => (ord.visit e.2.elems).head?.map some
  | none =>
      if subscriptSCEV.2.isAddRecExpr then do
        match ← findEntry subscriptSCEV (ord.visit scevToInstMap) with
        | some e => (ord.visit e.2.elems).head?.map some
        | none => return none
      else some none

def findCorrespondingIVForSubscript (index : IVIndex V B) (subscriptSCEV : AnySCEV V B) :
    Option (Option (V × InductionVariable V)) :=
  if subscriptSCEV.2.isConstant then some none
  else do
    match ← findInstructionInLoopForSCEV ord index.ivInstructionsBySCEV subscriptSCEV with
    | some ivInst => do
        let iv ← ivOf index.ivsByInstruction ivInst
        return some (ivInst, iv)
    | none =>
        match ← findInstructionInLoopForSCEV ord index.derivedInstructionsFromIVsBySCEV
            subscriptSCEV with
        | some derivedInst => do
            let derivingIV ← ivOf index.ivsByInstruction derivedInst
            return some (derivedInst, derivingIV)
        | none => return none

end Find

/-! ## The index -/

section Valid

variable {getSCEV : V → Option (AnySCEV V B)} {known : InductionVariable V → Prop}
variable {m : SCEVInstructions V B} {scev : AnySCEV V B} {inst : V}
  {ivs : List (V × InductionVariable V)}

theorem mem_insertInstruction {e : AnySCEV V B × PtrSet V} (h : e ∈ insertInstruction m scev inst) :
    e ∈ m ∨ (e.1 = scev ∧ inst ∈ e.2 ∧ ∀ i ∈ e.2, i = inst ∨ ∃ e' ∈ m, e'.1 = scev ∧ i ∈ e'.2) := by
  unfold insertInstruction at h
  split_ifs at h with hany
  · obtain ⟨e', he', rfl⟩ := mem_map.mp h
    split_ifs with hscev
    · exact .inr ⟨hscev, PtrSet.mem_insert.mpr (.inl rfl),
        fun i hi => (PtrSet.mem_insert.mp hi).imp_right fun hmem => ⟨e', he', hscev, hmem⟩⟩
    · exact .inl he'
  · cases mem_append.mp h with
    | inl hold => exact .inl hold
    | inr hnew =>
        obtain rfl := mem_singleton.mp hnew
        refine .inr ⟨rfl, by simp, fun i hi => .inl (by simpa using hi)⟩

theorem ivOf_insertIV (m : List (V × InductionVariable V)) (inst : V) (iv : InductionVariable V) :
    (∃ iv', ivOf (insertIV m inst iv) inst = some iv') ∧
      ∀ i iv', ivOf m i = some iv' → ivOf (insertIV m inst iv) i = some iv' := by
  unfold insertIV ivOf
  split_ifs with hany
  · obtain ⟨p, hp, hinst⟩ := any_eq_true.mp hany
    have hsome : (m.find? fun p => decide (p.1 = inst)).isSome = true :=
      List.find?_isSome.mpr ⟨p, hp, hinst⟩
    obtain ⟨p', hp'⟩ := isSome_iff_exists.mp hsome
    exact ⟨⟨p'.2, by simp [hp']⟩, fun _ _ h => h⟩
  · refine ⟨?_, fun i iv' h => ?_⟩
    · cases hfind : m.find? fun p => decide (p.1 = inst) with
      | none => exact ⟨iv, by simp [List.find?_append, hfind]⟩
      | some p => exact ⟨p.2, by simp [List.find?_append, hfind]⟩
    · obtain ⟨p, hp, rfl⟩ := map_eq_some_iff.mp h
      simp [List.find?_append, hp]

/-- The instructions stand under their expressions, no set is empty, and each instruction has an
induction variable. -/
structure IsGrouped (getSCEV : V → Option (AnySCEV V B)) (ivs : List (V × InductionVariable V))
    (m : SCEVInstructions V B) : Prop where
  nonempty : ∀ e ∈ m, e.2.elems ≠ []
  getSCEV_eq : ∀ e ∈ m, ∀ inst ∈ e.2, getSCEV inst = some e.1
  ivOf_eq : ∀ e ∈ m, ∀ inst ∈ e.2, ∃ iv, ivOf ivs inst = some iv

/-- The entries of the index: an instruction has an induction variable that it belongs to. -/
structure IVIndex.Valid (getSCEV : V → Option (AnySCEV V B)) (known : InductionVariable V → Prop)
    (index : IVIndex V B) : Prop where
  ivInstructions : IsGrouped getSCEV index.ivsByInstruction index.ivInstructionsBySCEV
  derivedInstructions :
    IsGrouped getSCEV index.ivsByInstruction index.derivedInstructionsFromIVsBySCEV
  belongs : ∀ p ∈ index.ivsByInstruction, known p.2 ∧
    (p.1 ∈ p.2.getAllInstructions ∨ p.1 ∈ p.2.getDerivedSCEVInstructions)

omit [DecidableEq B] in
theorem isGrouped_insertIV (h : IsGrouped getSCEV ivs m) (inst : V) (iv : InductionVariable V) :
    IsGrouped getSCEV (insertIV ivs inst iv) m where
  nonempty := h.nonempty
  getSCEV_eq := h.getSCEV_eq
  ivOf_eq e he i hi := by
    obtain ⟨iv', hiv'⟩ := h.ivOf_eq e he i hi
    exact ⟨iv', (ivOf_insertIV ivs inst iv).2 i iv' hiv'⟩

/-- One more instruction is grouped by its expression. -/
theorem isGrouped_insertInstruction (h : IsGrouped getSCEV ivs m) (hscev : getSCEV inst = some scev)
    (iv : InductionVariable V) :
    IsGrouped getSCEV (insertIV ivs inst iv) (insertInstruction m scev inst) where
  nonempty e he := by
    cases mem_insertInstruction he with
    | inl hold => exact h.nonempty e hold
    | inr hnew => exact ne_nil_of_mem hnew.2.1
  getSCEV_eq e he i hi := by
    cases mem_insertInstruction he with
    | inl hold => exact h.getSCEV_eq e hold i hi
    | inr hnew =>
        obtain ⟨rfl, -, hmem⟩ := hnew
        cases hmem i hi with
        | inl heq => exact heq ▸ hscev
        | inr hold =>
            obtain ⟨e', he', heq, hi'⟩ := hold
            exact heq ▸ h.getSCEV_eq e' he' i hi'
  ivOf_eq e he i hi := by
    obtain ⟨hself, hother⟩ := ivOf_insertIV ivs inst iv
    have hold : ∀ e' ∈ m, i ∈ e'.2 → ∃ iv', ivOf (insertIV ivs inst iv) i =
        some iv' := by
      intro e' he' hi'
      obtain ⟨iv', hiv'⟩ := h.ivOf_eq e' he' i hi'
      exact ⟨iv', hother i iv' hiv'⟩
    cases mem_insertInstruction he with
    | inl hmem => exact hold e hmem hi
    | inr hnew =>
        cases hnew.2.2 i hi with
        | inl heq => exact heq ▸ hself
        | inr hmem =>
            obtain ⟨e', he', -, hi'⟩ := hmem
            exact hold e' he' hi'

theorem belongs_insertIV
    (h : ∀ p ∈ ivs, known p.2 ∧
      (p.1 ∈ p.2.getAllInstructions ∨ p.1 ∈ p.2.getDerivedSCEVInstructions)) {iv : InductionVariable V} (hiv : known iv)
    (hinst : inst ∈ iv.getAllInstructions ∨ inst ∈ iv.getDerivedSCEVInstructions) :
    ∀ p ∈ insertIV ivs inst iv, known p.2 ∧
      (p.1 ∈ p.2.getAllInstructions ∨ p.1 ∈ p.2.getDerivedSCEVInstructions) := by
  intro p hp
  unfold insertIV at hp
  split_ifs at hp
  · exact h p hp
  · cases mem_append.mp hp with
    | inl hold => exact h p hold
    | inr hnew =>
        obtain rfl := mem_singleton.mp hnew
        exact ⟨hiv, hinst⟩

variable {iv : InductionVariable V} {index : IVIndex V B}

theorem valid_indexIVInstruction (h : index.Valid getSCEV known) (hiv : known iv) {inst : V}
    (hinst : inst ∈ iv.getAllInstructions) :
    (indexIVInstruction getSCEV iv index inst).Valid getSCEV known := by
  unfold indexIVInstruction
  split
  · exact h
  · next scev hscev =>
      exact ⟨isGrouped_insertInstruction h.ivInstructions hscev iv,
        isGrouped_insertIV h.derivedInstructions inst iv,
        belongs_insertIV h.belongs hiv (.inl hinst)⟩

theorem valid_indexDerivedInstruction (h : index.Valid getSCEV known) (hiv : known iv)
    {inst : V} (hinst : inst ∈ iv.getDerivedSCEVInstructions) :
    (indexDerivedInstruction getSCEV iv index inst).Valid getSCEV known := by
  unfold indexDerivedInstruction
  split
  · exact h
  · next scev hscev =>
      exact ⟨isGrouped_insertIV h.ivInstructions inst iv,
        isGrouped_insertInstruction h.derivedInstructions hscev iv,
        belongs_insertIV h.belongs hiv (.inr hinst)⟩

theorem indexIVInstructionSCEVs_valid (ord : IterOrder) (getSCEV : V → Option (AnySCEV V B))
    (loops : List (LoopStructure F B))
    (getInductionVariables : LoopStructure F B → List (InductionVariable V)) :
    (indexIVInstructionSCEVs ord getSCEV loops getInductionVariables).Valid getSCEV
      fun iv => ∃ loop ∈ loops, iv ∈ getInductionVariables loop := by
  unfold indexIVInstructionSCEVs
  refine List.foldlRecOn (ord.visit loops) _ ⟨⟨nofun, nofun, nofun⟩, ⟨nofun, nofun, nofun⟩, nofun⟩
    fun index h loop hloop => ?_
  refine List.foldlRecOn _ _ h fun index h iv hiv => ?_
  have hknown : ∃ loop ∈ loops, iv ∈ getInductionVariables loop :=
    ⟨loop, ord.mem_visit.mp hloop, ord.mem_visit.mp hiv⟩
  unfold indexIV
  refine List.foldlRecOn _ _ (List.foldlRecOn _ _ h fun index h inst hinst => ?_)
    fun index h inst hinst => ?_
  · exact valid_indexIVInstruction h hknown (ord.mem_visit.mp hinst)
  · exact valid_indexDerivedInstruction h hknown (ord.mem_visit.mp hinst)

end Valid

/-! ## The search -/

section Search

variable {ord : IterOrder} {m : SCEVInstructions V B} {subscriptSCEV : AnySCEV V B}

/-- The subscript itself is among the expressions. -/
def HasEntry (m : SCEVInstructions V B) (subscriptSCEV : AnySCEV V B) : Prop :=
  ∃ e ∈ m, e.1 = subscriptSCEV

/-- An entry that is not a recurrence, and that the visit reaches before the search returns, has the
value of the subscript. -/
def OthersAgree (ord : IterOrder) (m : SCEVInstructions V B) (subscriptSCEV : AnySCEV V B) : Prop :=
  ∀ pre e post, ord.visit m = pre ++ e :: post →
    (∀ e' ∈ pre, returnsAt subscriptSCEV e'.1 = some false) → e.1.2.isAddRecExpr = false →
      e.1.2.AgreeUpToCasts subscriptSCEV.2

/-- When the search does not return at an entry with another value. -/
def SearchAgrees (ord : IterOrder) (m : SCEVInstructions V B) (subscriptSCEV : AnySCEV V B) : Prop :=
  HasEntry m subscriptSCEV ∨ subscriptSCEV.2.isAddRecExpr = false ∨ OthersAgree ord m subscriptSCEV

/-- When the search finds nothing. -/
def FindsNothing (m : SCEVInstructions V B) (subscriptSCEV : AnySCEV V B) : Prop :=
  ¬ HasEntry m subscriptSCEV ∧ (subscriptSCEV.2.isAddRecExpr = true →
    ∀ e ∈ m, returnsAt subscriptSCEV e.1 = some false)

variable {otherSCEV : AnySCEV V B} {e : AnySCEV V B × PtrSet V} {pre : SCEVInstructions V B}
  {result : Option V}

theorem agreeUpToCasts_of_returnsAt (hsubscript : subscriptSCEV.2.isAddRecExpr = true)
    (hother : otherSCEV.2.isAddRecExpr = true) (h : returnsAt subscriptSCEV otherSCEV = some true) :
    otherSCEV.2.AgreeUpToCasts subscriptSCEV.2 := by
  obtain ⟨w, e⟩ := subscriptSCEV
  obtain ⟨w', e'⟩ := otherSCEV
  cases e with
  | addRecExpr loopHeader start step =>
      cases e' with
      | addRecExpr otherHeader otherStart otherStep =>
          dsimp only [returnsAt] at h
          split_ifs at h with hheader
          · nomatch h
          · obtain rfl := not_not.mp hheader
            obtain ⟨b, hstart, h⟩ := bind_eq_some_iff.mp h
            cases b with
            | false => nomatch h
            | true =>
                exact (SCEV.AgreeUpToCasts.addRecExpr (SCEV.agreeUpToCasts_of_scevsMatch hstart)
                  (SCEV.agreeUpToCasts_of_scevsMatch h)).symm
      | _ => nomatch hother
  | _ => nomatch hsubscript

theorem findEntry_eq_some : ∀ {l : SCEVInstructions V B},
    findEntry subscriptSCEV l = some (some e) → ∃ pre post, l = pre ++ e :: post ∧
      (∀ e' ∈ pre, returnsAt subscriptSCEV e'.1 = some false) ∧
        returnsAt subscriptSCEV e.1 = some true
  | [], h => nomatch h
  | e' :: l, h => by
      obtain ⟨b, hb, h⟩ := bind_eq_some_iff.mp h
      cases b with
      | true =>
          obtain rfl := some.inj (some.inj h)
          exact ⟨[], l, rfl, nofun, hb⟩
      | false =>
          obtain ⟨pre, post, rfl, hpre, he⟩ := findEntry_eq_some (l := l) h
          refine ⟨e' :: pre, post, rfl, fun e'' he'' => ?_, he⟩
          exact (mem_cons.mp he'').elim (fun heq => heq ▸ hb) (hpre e'')

theorem findEntry_eq_none : ∀ {l : SCEVInstructions V B},
    findEntry subscriptSCEV l = some none → ∀ e ∈ l, returnsAt subscriptSCEV e.1 = some false
  | [], _ => nofun
  | e' :: l, h => by
      obtain ⟨b, hb, h⟩ := bind_eq_some_iff.mp h
      cases b with
      | true => exact absurd (some.inj h) nofun
      | false =>
          have hrest := findEntry_eq_none (l := l) h
          exact fun e he => (mem_cons.mp he).elim (fun heq => heq ▸ hb) (hrest e)

theorem findEntry_append {l : SCEVInstructions V B}
    (hpre : ∀ e ∈ pre, returnsAt subscriptSCEV e.1 = some false) :
    findEntry subscriptSCEV (pre ++ l) = findEntry subscriptSCEV l := by
  induction pre with
  | nil => rfl
  | cons e pre ih =>
      rw [cons_append, findEntry, hpre e mem_cons_self]
      exact ih fun e' he' => hpre e' (.tail e he')

theorem returnsAt_of_not_isAddRecExpr (hother : otherSCEV.2.isAddRecExpr = false) :
    returnsAt subscriptSCEV otherSCEV = some true := by
  obtain ⟨w, e⟩ := subscriptSCEV
  obtain ⟨w', e'⟩ := otherSCEV
  cases e' with
  | addRecExpr _ _ _ => nomatch hother.symm
  | _ => cases e <;> rfl

theorem find?_eq_none_of_not_hasEntry (h : ¬ HasEntry m subscriptSCEV) :
    (m.find? fun e => decide (e.1 = subscriptSCEV)) = none :=
  List.find?_eq_none.mpr fun e he heq => h ⟨e, he, of_decide_eq_true heq⟩

omit [DecidableEq V] [DecidableEq B] in
theorem mem_of_head?_visit (h : (ord.visit e.2.elems).head?.map some = some result) :
    ∃ inst ∈ e.2, result = some inst := by
  obtain ⟨inst, hinst, rfl⟩ := map_eq_some_iff.mp h
  exact ⟨inst, ord.mem_visit.mp (mem_of_head? hinst), rfl⟩

/-- **What a search returns**: an instruction of the entry for the subscript, nothing if there is none
and it is not a recurrence, and otherwise an instruction of the entry at which the loop returns. -/
theorem findInstruction_cases (h : findInstructionInLoopForSCEV ord m subscriptSCEV = some result) :
    (∃ e ∈ m, e.1 = subscriptSCEV ∧ ∃ inst ∈ e.2, result = some inst) ∨
      (¬ HasEntry m subscriptSCEV ∧
        ((subscriptSCEV.2.isAddRecExpr = false ∧ result = none) ∨
          (subscriptSCEV.2.isAddRecExpr = true ∧
            ((findEntry subscriptSCEV (ord.visit m) = some none ∧ result = none) ∨
              ∃ e, findEntry subscriptSCEV (ord.visit m) = some (some e) ∧
                ∃ inst ∈ e.2, result = some inst)))) := by
  unfold findInstructionInLoopForSCEV at h
  cases hfind : m.find? fun e => decide (e.1 = subscriptSCEV) with
  | some e =>
      rw [hfind] at h
      have hkey : decide (e.1 = subscriptSCEV) = true := by simpa using List.find?_some hfind
      exact .inl ⟨e, mem_of_find?_eq_some hfind, of_decide_eq_true hkey, mem_of_head?_visit h⟩
  | none =>
      rw [hfind] at h
      have hno : ¬ HasEntry m subscriptSCEV := by
        rintro ⟨e, he, heq⟩
        exact List.find?_eq_none.mp hfind e he (decide_eq_true heq)
      refine .inr ⟨hno, ?_⟩
      cases hrec : subscriptSCEV.2.isAddRecExpr with
      | false =>
          rw [hrec] at h
          exact .inl ⟨rfl, (some.inj h).symm⟩
      | true =>
          rw [hrec] at h
          obtain ⟨found, hfound, h⟩ := bind_eq_some_iff.mp h
          refine .inr ⟨rfl, ?_⟩
          cases found with
          | none => exact .inl ⟨hfound, (some.inj h).symm⟩
          | some e => exact .inr ⟨e, hfound, mem_of_head?_visit h⟩

theorem FindsNothing.findInstruction (h : FindsNothing m subscriptSCEV) (ord : IterOrder) :
    findInstructionInLoopForSCEV ord m subscriptSCEV = some none := by
  unfold findInstructionInLoopForSCEV
  rw [find?_eq_none_of_not_hasEntry h.1]
  cases hrec : subscriptSCEV.2.isAddRecExpr with
  | false => rfl
  | true =>
      have hvisit : ∀ e ∈ ord.visit m, returnsAt subscriptSCEV e.1 = some false := fun e he =>
        h.2 hrec e (ord.mem_visit.mp he)
      have hnone := findEntry_append (l := []) hvisit
      rw [append_nil] at hnone
      simp [hnone, findEntry]

theorem findInstruction_of_other {post : SCEVInstructions V B} (h : ¬ HasEntry m subscriptSCEV)
    (hrec : subscriptSCEV.2.isAddRecExpr = true) (hvisit : ord.visit m = pre ++ e :: post)
    (hpre : ∀ e' ∈ pre, returnsAt subscriptSCEV e'.1 = some false)
    (hother : e.1.2.isAddRecExpr = false) (hne : e.2.elems ≠ []) :
    ∃ inst ∈ e.2, findInstructionInLoopForSCEV ord m subscriptSCEV = some (some inst) := by
  obtain ⟨inst, hinst, hhead⟩ := ord.exists_head hne
  refine ⟨inst, hinst, ?_⟩
  have hfind : findEntry subscriptSCEV (ord.visit m) = some (some e) := by
    rw [hvisit, findEntry_append hpre, findEntry, returnsAt_of_not_isAddRecExpr hother]
    rfl
  unfold findInstructionInLoopForSCEV
  rw [find?_eq_none_of_not_hasEntry h]
  simp [hrec, hfind, hhead]

theorem SearchAgrees.exists_entry {inst : V}
    (h : findInstructionInLoopForSCEV ord m subscriptSCEV = some (some inst)) :
    ∃ e ∈ m, inst ∈ e.2 ∧
      (SearchAgrees ord m subscriptSCEV → e.1.2.AgreeUpToCasts subscriptSCEV.2) := by
  rcases findInstruction_cases h with ⟨e, he, rfl, inst', hinst, heq⟩ |
    ⟨hno, ⟨-, heq⟩ | ⟨hrec, ⟨-, heq⟩ | ⟨e, hfound, inst', hinst, heq⟩⟩⟩
  · exact ⟨e, he, some.inj heq ▸ hinst, fun _ => .refl _⟩
  · exact absurd heq nofun
  · exact absurd heq nofun
  · obtain ⟨pre, post, hvisit, hpre, hreturns⟩ := findEntry_eq_some hfound
    have he : e ∈ m := ord.mem_visit.mp (hvisit ▸ by simp)
    refine ⟨e, he, some.inj heq ▸ hinst, fun hagrees => ?_⟩
    cases hother : e.1.2.isAddRecExpr with
    | true => exact agreeUpToCasts_of_returnsAt hrec hother hreturns
    | false =>
        rcases hagrees with hhas | hnot | hothers
        · exact absurd hhas hno
        · exact absurd (hnot.symm.trans hrec) Bool.false_ne_true
        · exact hothers pre e post hvisit hpre hother

end Search

/-! ## The result -/

section Result

variable {ord : IterOrder} {getSCEV : V → Option (AnySCEV V B)} {known : InductionVariable V → Prop}
  {index : IVIndex V B} {subscriptSCEV : AnySCEV V B}

/-- The instruction belongs to the induction variable, and its expression has the value of the
subscript in every iteration. -/
structure Corresponds (getSCEV : V → Option (AnySCEV V B)) (known : InductionVariable V → Prop)
    (subscriptSCEV : AnySCEV V B) (inst : V) (iv : InductionVariable V) : Prop where
  known : known iv
  belongs : inst ∈ iv.getAllInstructions ∨ inst ∈ iv.getDerivedSCEVInstructions
  agrees : ∃ scev, getSCEV inst = some scev ∧ scev.2.AgreeUpToCasts subscriptSCEV.2

/-- The first of the two searches that finds something agrees with the subscript. -/
def SearchesAgree (ord : IterOrder) (index : IVIndex V B) (subscriptSCEV : AnySCEV V B) : Prop :=
  SearchAgrees ord index.ivInstructionsBySCEV subscriptSCEV ∧
    (FindsNothing index.ivInstructionsBySCEV subscriptSCEV →
      SearchAgrees ord index.derivedInstructionsFromIVsBySCEV subscriptSCEV)

variable {inst : V} {iv : InductionVariable V} {m : SCEVInstructions V B}

omit [DecidableEq B] in
theorem IVIndex.Valid.belongs_of_ivOf (h : index.Valid getSCEV known)
    (hiv : ivOf index.ivsByInstruction inst = some iv) :
    known iv ∧ (inst ∈ iv.getAllInstructions ∨ inst ∈ iv.getDerivedSCEVInstructions) := by
  obtain ⟨p, hp, rfl⟩ := map_eq_some_iff.mp hiv
  have hkey : decide (p.1 = inst) = true := by simpa using List.find?_some hp
  exact of_decide_eq_true hkey ▸ h.belongs p (mem_of_find?_eq_some hp)

/-- Where the variable of a subscript was found. -/
theorem findCorrespondingIV_cases
    (h : findCorrespondingIVForSubscript ord index subscriptSCEV = some (some (inst, iv))) :
    subscriptSCEV.2.isConstant = false ∧ ivOf index.ivsByInstruction inst = some iv ∧
      (findInstructionInLoopForSCEV ord index.ivInstructionsBySCEV subscriptSCEV = some (some inst) ∨
        (findInstructionInLoopForSCEV ord index.ivInstructionsBySCEV subscriptSCEV = some none ∧
          findInstructionInLoopForSCEV ord index.derivedInstructionsFromIVsBySCEV subscriptSCEV =
            some (some inst))) := by
  unfold findCorrespondingIVForSubscript at h
  split_ifs at h with hconst
  · exact absurd (some.inj h) nofun
  · refine ⟨by simpa using hconst, ?_⟩
    obtain ⟨ivInst, hiv, h⟩ := bind_eq_some_iff.mp h
    cases ivInst with
    | some ivInst =>
        obtain ⟨iv', hiv', h⟩ := bind_eq_some_iff.mp h
        obtain ⟨rfl, rfl⟩ := Prod.mk.inj (some.inj (some.inj h))
        exact ⟨hiv', .inl hiv⟩
    | none =>
        obtain ⟨derivedInst, hderived, h⟩ := bind_eq_some_iff.mp h
        cases derivedInst with
        | some derivedInst =>
            obtain ⟨iv', hiv', h⟩ := bind_eq_some_iff.mp h
            obtain ⟨rfl, rfl⟩ := Prod.mk.inj (some.inj (some.inj h))
            exact ⟨hiv', .inr ⟨hiv, hderived⟩⟩
        | none => exact absurd (some.inj h) nofun

theorem findCorrespondingIV_of_iv
    (hconst : subscriptSCEV.2.isConstant = false)
    (hfind : findInstructionInLoopForSCEV ord index.ivInstructionsBySCEV subscriptSCEV =
      some (some inst)) (hiv : ivOf index.ivsByInstruction inst = some iv) :
    findCorrespondingIVForSubscript ord index subscriptSCEV = some (some (inst, iv)) := by
  simp [findCorrespondingIVForSubscript, hconst, hfind, hiv]

theorem findCorrespondingIV_of_derived
    (hconst : subscriptSCEV.2.isConstant = false)
    (hnone : findInstructionInLoopForSCEV ord index.ivInstructionsBySCEV subscriptSCEV = some none)
    (hfind : findInstructionInLoopForSCEV ord index.derivedInstructionsFromIVsBySCEV subscriptSCEV =
      some (some inst)) (hiv : ivOf index.ivsByInstruction inst = some iv) :
    findCorrespondingIVForSubscript ord index subscriptSCEV = some (some (inst, iv)) := by
  simp [findCorrespondingIVForSubscript, hconst, hnone, hfind, hiv]

theorem findsNothing_of_findInstruction
    (h : findInstructionInLoopForSCEV ord m subscriptSCEV = some none) :
    FindsNothing m subscriptSCEV := by
  rcases findInstruction_cases h with ⟨_, _, _, _, _, heq⟩ |
    ⟨hno, ⟨hrec, -⟩ | ⟨-, ⟨hnone, -⟩ | ⟨_, _, _, _, heq⟩⟩⟩
  · exact absurd heq nofun
  · exact ⟨hno, fun htrue => absurd (hrec.symm.trans htrue) Bool.false_ne_true⟩
  · exact ⟨hno, fun _ e he => findEntry_eq_none hnone e (ord.mem_visit.mpr he)⟩
  · exact absurd heq nofun

theorem SearchesAgree.corresponds (hvalid : index.Valid getSCEV known)
    (hagree : SearchesAgree ord index subscriptSCEV)
    (h : findCorrespondingIVForSubscript ord index subscriptSCEV = some (some (inst, iv))) :
    Corresponds getSCEV known subscriptSCEV inst iv := by
  obtain ⟨-, hiv, hfound⟩ := findCorrespondingIV_cases h
  obtain ⟨hknown, hbelongs⟩ := hvalid.belongs_of_ivOf hiv
  rcases hfound with hfound | ⟨hnone, hfound⟩
  · obtain ⟨e, he, hinst, hvalue⟩ := SearchAgrees.exists_entry hfound
    exact ⟨hknown, hbelongs, e.1, hvalid.ivInstructions.getSCEV_eq e he inst hinst, hvalue hagree.1⟩
  · obtain ⟨e, he, hinst, hvalue⟩ := SearchAgrees.exists_entry hfound
    exact ⟨hknown, hbelongs, e.1, hvalid.derivedInstructions.getSCEV_eq e he inst hinst,
      hvalue (hagree.2 (findsNothing_of_findInstruction hnone))⟩

theorem searchAgrees_of_results
    (hgrouped : IsGrouped getSCEV index.ivsByInstruction m)
    (h : ∀ inst iv, findInstructionInLoopForSCEV ord m subscriptSCEV = some (some inst) →
      ivOf index.ivsByInstruction inst = some iv →
        ∃ scev, getSCEV inst = some scev ∧ scev.2.AgreeUpToCasts subscriptSCEV.2) :
    SearchAgrees ord m subscriptSCEV := by
  by_cases hhas : HasEntry m subscriptSCEV
  · exact .inl hhas
  · cases hrec : subscriptSCEV.2.isAddRecExpr with
    | false => exact .inr (.inl hrec)
    | true =>
        refine .inr (.inr fun pre e post hvisit hpre hother => ?_)
        have he : e ∈ m := ord.mem_visit.mp (hvisit ▸ by simp)
        obtain ⟨inst, hinst, hfind⟩ :=
          findInstruction_of_other hhas hrec hvisit hpre hother (hgrouped.nonempty e he)
        obtain ⟨iv, hiv⟩ := hgrouped.ivOf_eq e he inst hinst
        obtain ⟨scev, hscev, hagrees⟩ := h inst iv hfind hiv
        obtain rfl := mem_unique (hgrouped.getSCEV_eq e he inst hinst) hscev
        exact hagrees

/-- **Subscripts and induction variables**: every instruction that is returned belongs to the induction
variable returned with it and has the value of the subscript in all iterations, up to casts, if and
only if the subscript is constant or the searches end at no entry with another value. -/
theorem findCorrespondingIVForSubscript_corresponds_iff (ord : IterOrder)
    (getSCEV : V → Option (AnySCEV V B)) (loops : List (LoopStructure F B))
    (getInductionVariables : LoopStructure F B → List (InductionVariable V))
    (subscriptSCEV : AnySCEV V B) :
    let index := indexIVInstructionSCEVs ord getSCEV loops getInductionVariables
    (∀ inst iv, findCorrespondingIVForSubscript ord index subscriptSCEV = some (some (inst, iv)) →
        Corresponds getSCEV (fun iv => ∃ loop ∈ loops, iv ∈ getInductionVariables loop) subscriptSCEV
          inst iv) ↔
      subscriptSCEV.2.isConstant = true ∨ SearchesAgree ord index subscriptSCEV := by
  intro index
  have hvalid := indexIVInstructionSCEVs_valid ord getSCEV loops getInductionVariables
  constructor
  · intro h
    cases hconst : subscriptSCEV.2.isConstant with
    | true => exact .inl rfl
    | false =>
        refine .inr ⟨searchAgrees_of_results hvalid.ivInstructions fun inst iv hfind hiv =>
          (h inst iv (findCorrespondingIV_of_iv hconst hfind hiv)).agrees, fun hnothing => ?_⟩
        exact searchAgrees_of_results hvalid.derivedInstructions fun inst iv hfind hiv =>
          (h inst iv (findCorrespondingIV_of_derived hconst (hnothing.findInstruction ord) hfind
            hiv)).agrees
  · rintro (hconst | hagree) inst iv h
    · exact absurd ((findCorrespondingIV_cases h).1.symm.trans hconst) Bool.false_ne_true
    · exact hagree.corresponds hvalid h

end Result

/-- `i = phi [0, preheader], [i + 1, latch]; wide = sext i`. -/
inductive ExtendedIV
  | i
  | wide
  deriving DecidableEq

def extendedLoop : LoopStructure Unit Bool := ⟨0, (), true, 1, PtrSet.ofList [true]⟩

def extendedIV : InductionVariable ExtendedIV where
  getLoopEntryPHI := .i
  getAllInstructions := PtrSet.ofList [.i, .wide]
  getDerivedSCEVInstructions := ∅
  loopEntryPHI_mem := by decide

/-- The extension of a variable that may wrap around is not a recurrence. -/
def extendedSCEV : ExtendedIV → Option (AnySCEV ExtendedIV Bool)
  | .i => some ⟨32, .addRecExpr true (.constant 0) (.constant 1)⟩
  | .wide => some ⟨64, .castExpr .sext (.addRecExpr (w := 32) true (.constant 0) (.constant 1))⟩

/-- The subscript `2 * k + 5` in the iteration `k`. -/
def steppedSubscript : AnySCEV ExtendedIV Bool := ⟨64, .addRecExpr true (.constant 5) (.constant 2)⟩

/-- The extension of `i` is returned for `2 * k + 5`. -/
theorem findCorrespondingIVForSubscript_extended :
    findCorrespondingIVForSubscript .stored
        (indexIVInstructionSCEVs .stored extendedSCEV [extendedLoop] fun _ => [extendedIV])
        steppedSubscript = some (some (.wide, extendedIV)) ∧
      ¬ ∃ scev, extendedSCEV .wide = some scev ∧ scev.2.AgreeUpToCasts steppedSubscript.2 := by
  refine ⟨rfl, ?_⟩
  rintro ⟨scev, hscev, hagrees⟩
  cases hscev
  have hfirst := hagrees ⟨fun _ => 0, fun _ => 0⟩
  exact absurd hfirst (by decide)

end LoopIterationSpaceAnalysis

end Noelle
