import Noelle.Lib.PrivateCopies
import Noelle.MemoryCloningAnalysis.Users

/-!
# MemoryCloningAnalysis.Clonable

What `isClonable` says about the iterations of the loop.

A private copy of the object for each iteration serves every read of the loop if and only if no
iteration reads what an earlier one wrote and the copies start with what the loop finds
(`privateCopiesPreserveReads_iff`).  The analysis looks for the first only at the loads: a call
that gets a pointer into the object, or any other instruction that is not a load of it, is never
asked about, although the check for values from outside the loop does ask.
`carriesNothing_iff` is the exact condition.
-/

namespace Noelle

open List Option

namespace ClonableMemoryObject

variable {F V B : Type} [DecidableEq V] [DecidableEq B]

/-! ## Dependences of a loop -/

section Dependences

variable (fn : ObjectFunction V B) (loop : LoopStructure F B) (ldg : PDG V)

def InLoop (v : V) : Prop := fn.isInstruction v = true ∧ fn.isIncluded loop v = true

def OutsideLoop (v : V) : Prop := fn.isInstruction v = true ∧ fn.isIncluded loop v = false

/-- A RAW memory dependence of `j` on `i`. -/
def IsMemoryRAW (ldg : PDG V) (i j : V) (d : DGEdge V) : Prop :=
  d ∈ ldg.allEdges ∧ d.kind.isMemory = true ∧ d.dataDepType = some .raw ∧ d.getSrc = i ∧
    d.getDst = j

/-- `j` reads through memory what `i` wrote in an earlier iteration. -/
def CarriesRAW (i j : V) : Prop :=
  InLoop fn loop i ∧ InLoop fn loop j ∧
    ∃ d, IsMemoryRAW ldg i j d ∧ (ldg.edgeAttr d).isLoopCarried = true

/-- `j` reads in the loop what `o` wrote outside. -/
def EntersByRAW (o j : V) : Prop :=
  OutsideLoop fn loop o ∧ InLoop fn loop j ∧ ∃ d, IsMemoryRAW ldg o j d

/-- `v` loads from the object through a pointer that the walk follows. -/
def LoadsObject (allocation v : V) : Prop :=
  ∃ p, fn.PointsInto allocation p ∧ v ∈ fn.users p ∧ isLoadOf fn p v = true

/-- `v` uses such a pointer, but neither to load nor to store. -/
def UsesObjectOtherwise (allocation v : V) : Prop :=
  ∃ p, fn.PointsInto allocation p ∧ v ∈ fn.users p ∧ isNonStoringUserOf fn p v = true

end Dependences

/-! ## Private copies -/

/-- An execution of a loop, from one entry to the exit, as the bytes of the object see it.
`beforeLoop` is the last write to a byte before this entry, also by an earlier execution of the
loop; a byte that was never written has no defined value. -/
structure LoopExecution (V : Type) where
  State : Type
  iterations : List (State → Iteration V Nat (Option UInt8) State)
  start : State
  beforeLoop : Nat → Option (V × UInt8)

namespace LoopExecution

variable (x : LoopExecution V)

/-- The bytes of the object when the loop starts. -/
def contents (offset : Nat) : Option UInt8 := (x.beforeLoop offset).map (·.2)

def onObject : List (ReadEvent V Nat (Option UInt8)) × x.State :=
  runShared x.iterations x.start (untouched x.contents)

/-- The bytes of a private copy when an iteration starts. -/
def copied (needInitialization : Bool) : Nat → Option UInt8 :=
  if needInitialization then x.contents else fun _ => none

/-- The execution in which each iteration has its own copy. -/
def onCopies (needInitialization : Bool) : List (ReadEvent V Nat (Option UInt8)) × x.State :=
  runPrivate x.iterations x.start (x.copied needInitialization)

end LoopExecution

section Executions

variable (fn : ObjectFunction V B) (loop : LoopStructure F B) (ldg : PDG V) (accesses : V → Prop)

/-- The dependence graph has the dependences of the execution: of a read on the write of an
earlier iteration and on the write before this entry of the loop. -/
structure Covers (x : LoopExecution V) : Prop where
  earlier : ∀ e ∈ x.onObject.1, ∀ i, e.cell.origin = .earlier i →
    accesses i ∧ accesses e.reader ∧ CarriesRAW fn loop ldg i e.reader
  entry : ∀ e ∈ x.onObject.1, e.cell.origin = .entry → ∀ o b, x.beforeLoop e.location = some (o, b) →
    accesses o ∧ accesses e.reader ∧ EntersByRAW fn loop ldg o e.reader

/-- Private copies change no value that is read in the loop and no result of the loop. -/
def PrivateCopiesPreserveReads (needInitialization : Bool) : Prop :=
  ∀ x : LoopExecution V, Covers fn loop ldg accesses x →
    observations (x.onCopies needInitialization).1 = observations x.onObject.1 ∧
      (x.onCopies needInitialization).2 = x.onObject.2

/-- No loop-carried RAW memory dependence connects two instructions that access the object. -/
def CarriesNothing : Prop :=
  ∀ i j, accesses i → accesses j → ¬ CarriesRAW fn loop ldg i j

/-- Where the loop reads what was written before it, the copies are initialised. -/
def InitialisedWhereRead (needInitialization : Bool) : Prop :=
  needInitialization = true ∨ ∀ o j, accesses o → accesses j → ¬ EntersByRAW fn loop ldg o j

variable {fn loop ldg accesses}
variable {needInitialization : Bool}

omit [DecidableEq V] in
/-- Private copies keep every read if nothing is carried. -/
theorem preserveReads_of_carriesNothing (hcarried : CarriesNothing fn loop ldg accesses)
    (hinit : InitialisedWhereRead fn loop ldg accesses needInitialization) :
    PrivateCopiesPreserveReads fn loop ldg accesses needInitialization := by
  intro x hx
  refine runPrivate_eq_runShared x.iterations x.start (untouched x.contents)
    (fun l writer => nofun) fun e he => ?_
  unfold ReadEvent.ServedBy
  cases ho : e.cell.origin with
  | current writer => trivial
  | earlier writer =>
      obtain ⟨hi, hj, hedge⟩ := hx.earlier e he writer ho
      exact hcarried _ _ hi hj hedge
  | entry =>
      have hvalue : e.cell.value = x.contents e.location :=
        runShared_untouched x.iterations x.start (fun _ _ => rfl) e he ho
      change x.copied needInitialization e.location = e.cell.value
      rw [hvalue]
      rcases hinit with rfl | hinit
      · rfl
      · cases hb : x.beforeLoop e.location with
        | none =>
            cases needInitialization <;> simp [LoopExecution.copied, LoopExecution.contents, hb]
        | some write =>
            obtain ⟨ho, hj, hedge⟩ := hx.entry e he ho write.1 write.2 hb
            exact absurd hedge (hinit _ _ ho hj)

/-- Two iterations: the first one writes a byte, the second one reads it. -/
def writeThenRead (i j : V) : LoopExecution V where
  State := Unit
  iterations := [fun _ => .write i 0 (some 1) (.finish ()), fun _ => .read j 0 fun _ => .finish ()]
  start := ()
  beforeLoop := fun _ => none

/-- One iteration that reads a byte written before the loop. -/
def readOnce (o j : V) : LoopExecution V where
  State := Unit
  iterations := [fun _ => .read j 0 fun _ => .finish ()]
  start := ()
  beforeLoop := fun _ => some (o, 1)

omit [DecidableEq V] in
/-- The two conditions are necessary: what the graph allows, some execution does. -/
theorem carriesNothing_of_preserveReads
    (h : PrivateCopiesPreserveReads fn loop ldg accesses needInitialization) :
    CarriesNothing fn loop ldg accesses ∧
      InitialisedWhereRead fn loop ldg accesses needInitialization := by
  constructor
  · intro i j hi hj hedge
    have hcovers : Covers fn loop ldg accesses (writeThenRead i j) := by
      refine ⟨fun e he writer ho => ?_, fun e he ho o b hb => absurd hb nofun⟩
      obtain rfl := mem_singleton.mp he
      obtain rfl : i = writer := Origin.earlier.inj ho
      exact ⟨hi, hj, hedge⟩
    have hreads : [(j, 0, (writeThenRead i j).copied needInitialization 0)] = [(j, 0, some 1)] :=
      (h _ hcovers).1
    have hnone : (writeThenRead i j).copied needInitialization 0 = none := by
      cases needInitialization <;> rfl
    rw [hnone] at hreads
    simp at hreads
  · cases needInitialization with
    | true => exact .inl rfl
    | false =>
        refine .inr fun o j ho hj hedge => ?_
        have hcovers : Covers fn loop ldg accesses (readOnce o j) := by
          refine ⟨fun e he writer horigin => ?_, fun e he horigin o' b hb => ?_⟩
          · obtain rfl := mem_singleton.mp he
            exact absurd horigin nofun
          · obtain rfl := mem_singleton.mp he
            obtain rfl : o = o' := congrArg Prod.fst (some.inj hb)
            exact ⟨ho, hj, hedge⟩
        have hreads : [(j, 0, (none : Option UInt8))] = [(j, 0, some 1)] := (h _ hcovers).1
        simp at hreads

omit [DecidableEq V] in
/-- **When private copies are sound**: exactly if no RAW is carried between the iterations and the
copies are initialised where the loop reads what was written before it. -/
theorem privateCopiesPreserveReads_iff :
    PrivateCopiesPreserveReads fn loop ldg accesses needInitialization ↔
      CarriesNothing fn loop ldg accesses ∧
        InitialisedWhereRead fn loop ldg accesses needInitialization :=
  ⟨carriesNothing_of_preserveReads, fun h => preserveReads_of_carriesNothing h.1 h.2⟩

end Executions

/-! ## What the checks find -/

section Checks

variable {ord : IterOrder} {fn : ObjectFunction V B} {loop : LoopStructure F B}
  {DT : DominatorForest B} {ldg : PDG V} {found : ObjectUsers V} {insts : PtrSet V}

theorem anyDependenceTo_iff (hldg : ldg.WF) {inst : V} {functor : V → DGEdge V → Bool} :
    anyDependenceTo ord ldg inst functor = true ↔
      ∃ d ∈ ldg.allEdges, d.getDst = inst ∧ d.kind.isMemory = true ∧ functor d.getSrc d = true := by
  refine (PDG.iterateOverDependencesTo_predicate hldg inst).trans (exists_congr fun d => ?_)
  simp [PDG.Filter.accepts, memoryDependences]

theorem isThereRAWBetweenTo_iff (hldg : ldg.WF) (hinsts : ∀ j ∈ insts, fn.isInstruction j = true) :
    isThereRAWThroughMemoryBetweenLoopIterationsTo ord fn loop ldg insts = true ↔
      ∃ i, ∃ j ∈ insts, CarriesRAW fn loop ldg i j := by
  unfold isThereRAWThroughMemoryBetweenLoopIterationsTo isLoopCarriedRAWWithin
  simp only [List.any_eq_true, ord.mem_visit, PtrSet.mem_elems, Bool.and_eq_true,
    anyDependenceTo_iff hldg]
  constructor
  · rintro ⟨j, hj, hin, d, hd, hdst, hmem, hf⟩
    refine ⟨d.getSrc, j, hj, ?_, ⟨hinsts j hj, hin⟩, d, ⟨hd, hmem, ?_, rfl, hdst⟩, ?_⟩ <;>
      simp_all [InLoop]
  · rintro ⟨i, j, hj, ⟨hinst, hi⟩, hin, d, ⟨hd, hmem, hraw, rfl, hdst⟩, hcarried⟩
    exact ⟨j, hj, hin.2, d, hd, hdst, hmem, by simp [hinst, hi, hraw, hcarried]⟩

theorem isThereRAWFromOutsideTo_iff (hldg : ldg.WF)
    (hinsts : ∀ j ∈ insts, fn.isInstruction j = true) :
    isThereRAWThroughMemoryFromOutsideToLoopTo ord fn loop ldg insts = true ↔
      ∃ o, ∃ j ∈ insts, EntersByRAW fn loop ldg o j := by
  unfold isThereRAWThroughMemoryFromOutsideToLoopTo isRAWWithOutside
  simp only [List.any_eq_true, ord.mem_visit, PtrSet.mem_elems, Bool.and_eq_true,
    anyDependenceTo_iff hldg]
  constructor
  · rintro ⟨j, hj, hin, d, hd, hdst, hmem, hf⟩
    refine ⟨d.getSrc, j, hj, ?_, ⟨hinsts j hj, hin⟩, d, hd, hmem, ?_, rfl, hdst⟩ <;>
      simp_all [OutsideLoop]
  · rintro ⟨o, j, hj, ⟨hinst, ho⟩, hin, d, hd, hmem, hraw, rfl, hdst⟩
    exact ⟨j, hj, hin.2, d, hd, hdst, hmem, by simp [hinst, ho, hraw]⟩

variable {object : StackObject V} {self out : ClonableMemoryObject V}

/-- The override sets make no object clonable: they are only looked at if code outside the loop
reads the object, and this is checked once more after them. -/
theorem decideByOverrideSets_eq (h : decideByOverrideSets ord fn loop DT ldg object self = some out)
    (hscope : self.isScopeWithinLoop = false)
    (hread : isThereRAWThroughMemoryFromLoopToOutside ord fn loop ldg self.found = true) :
    out = self := by
  unfold decideByOverrideSets at h
  split at h
  · exact (some.inj h).symm
  · obtain ⟨overrideSets, _, h⟩ := bind_eq_some_iff.mp h
    rw [if_neg (by simp [hscope])] at h
    obtain ⟨covered, _, rfl⟩ := map_eq_some_iff.mp h
    rw [if_pos (by simp [hread])]

/-- A clonable object has no carried flow inside the loop, and is initialised if it needs it. -/
theorem decideClonable_spec (h : decideClonable ord fn loop DT ldg object self = some out)
    (hself : self.isClonable = false) (hinit : self.needInitialization = false)
    (hclonable : out.isClonable = true) :
    isThereRAWThroughMemoryBetweenLoopIterations ord fn loop ldg self.found = false ∧
      out.needInitialization = (!self.isScopeWithinLoop &&
        isThereRAWThroughMemoryFromOutsideToLoop ord fn loop ldg self.found) := by
  have hnot : out ≠ self := by
    rintro rfl
    exact absurd (hself.symm.trans hclonable) Bool.false_ne_true
  unfold decideClonable at h
  dsimp only at h
  split at h
  · exact absurd (some.inj h).symm hnot
  split at h
  · exact absurd (some.inj h).symm hnot
  rename_i hraw
  refine ⟨Bool.eq_false_iff.mpr hraw, ?_⟩
  split at h
  · rename_i hscope
    cases h
    simp [hscope, hinit]
  rename_i hscope
  split at h
  · split at h
    · rename_i houtside
      cases h
      simp only [Bool.not_eq_true'] at houtside
      simp [houtside, hinit]
    · rename_i houtside
      cases h
      simp only [Bool.not_eq_true', Bool.not_eq_false] at houtside
      simp [hscope, houtside]
  · rename_i hread
    simp only [Bool.not_eq_true', Bool.not_eq_false] at hread
    exact absurd (decideByOverrideSets_eq h (Bool.eq_false_iff.mpr hscope) hread) hnot

/-- **What `isClonable` rules out**: RAW dependences of loads on earlier iterations.  The copies
are initialised if the scope of the object is not the loop and a load or another use in the loop
reads a value from outside. -/
theorem ofObject_spec (hldg : ldg.WF) {fuel : Nat}
    (h : ofObject ord fn loop DT ldg object fuel = some out) (hclonable : out.isClonable = true) :
    (∀ i j, CarriesRAW fn loop ldg i j → ¬ LoadsObject fn object.allocation j) ∧
      (out.needInitialization = true ↔ setObjectScope fn loop object.allocation = false ∧
        ∃ o j, EntersByRAW fn loop ldg o j ∧
          (LoadsObject fn object.allocation j ∨ UsesObjectOtherwise fn object.allocation j)) := by
  obtain ⟨walk, hwalk, h⟩ := bind_eq_some_iff.mp h
  split at h
  · cases h
    cases hclonable
  rename_i hreturned
  obtain ⟨hload, hother⟩ := identifyStoresAndOtherUsers_spec hwalk (Bool.eq_false_iff.mpr hreturned)
  obtain ⟨hraw, hinit⟩ := decideClonable_spec h rfl rfl hclonable
  have hloads : ∀ j ∈ walk.found.loadInstructions, fn.isInstruction j = true := fun j hj => by
    obtain ⟨p, _, _, hp⟩ := (hload j).mp hj
    exact isInstruction_of_isLoadOf hp
  have hothers : ∀ j ∈ walk.found.nonStoringInstructions, fn.isInstruction j = true := fun j hj => by
    obtain ⟨p, _, _, hp⟩ := (hother j).mp hj
    exact isInstruction_of_isNonStoringUserOf hp
  constructor
  · intro i j hedge hj
    have hfound : isThereRAWThroughMemoryBetweenLoopIterations ord fn loop ldg walk.found = true :=
      (isThereRAWBetweenTo_iff hldg hloads).mpr ⟨i, j, (hload j).mpr hj, hedge⟩
    cases hraw.symm.trans hfound
  · rw [hinit, Bool.and_eq_true, Bool.not_eq_true']
    refine and_congr_right fun _ => ?_
    unfold isThereRAWThroughMemoryFromOutsideToLoop
    rw [Bool.or_eq_true, isThereRAWFromOutsideTo_iff hldg hloads,
      isThereRAWFromOutsideTo_iff hldg hothers, ← exists_or]
    refine exists_congr fun o => ?_
    constructor
    · rintro (⟨j, hj, hedge⟩ | ⟨j, hj, hedge⟩)
      · exact ⟨j, hedge, .inl ((hload j).mp hj)⟩
      · exact ⟨j, hedge, .inr ((hother j).mp hj)⟩
    · rintro ⟨j, hedge, hj | hj⟩
      · exact .inl ⟨j, (hload j).mpr hj, hedge⟩
      · exact .inr ⟨j, (hother j).mpr hj, hedge⟩

/-- **When a clonable object carries nothing across iterations**: no RAW is carried and private
copies change no value that is read in the loop, if and only if the carried RAW dependences
between the instructions that access the object all end at its loads, and the ones that enter the
loop come with no lifetime call in the loop and with one that ends at a load or another use. -/
theorem carriesNothing_iff (hldg : ldg.WF) {object : StackObject V} {fuel : Nat}
    {out : ClonableMemoryObject V} (h : ofObject ord fn loop DT ldg object fuel = some out)
    (hclonable : out.isClonable = true) (accesses : V → Prop) :
    (CarriesNothing fn loop ldg accesses ∧
        PrivateCopiesPreserveReads fn loop ldg accesses out.needInitialization) ↔
      (∀ i j, accesses i → accesses j → CarriesRAW fn loop ldg i j →
        LoadsObject fn object.allocation j) ∧
      (∀ o j, accesses o → accesses j → EntersByRAW fn loop ldg o j →
        setObjectScope fn loop object.allocation = false ∧
          ∃ o' j', EntersByRAW fn loop ldg o' j' ∧
            (LoadsObject fn object.allocation j' ∨ UsesObjectOtherwise fn object.allocation j')) := by
  obtain ⟨hload, hinit⟩ := ofObject_spec hldg h hclonable
  rw [privateCopiesPreserveReads_iff, and_self_left, ← hinit]
  refine and_congr ?_ ?_
  · refine forall₄_congr fun i j hi hj => ⟨fun hnot hedge => absurd hedge hnot, fun hall hedge => ?_⟩
    exact hload i j hedge (hall hedge)
  · constructor
    · rintro (hyes | hnone) o j ho hj hedge
      · exact hyes
      · exact absurd hedge (hnone o j ho hj)
    · intro hall
      by_cases hyes : out.needInitialization = true
      · exact .inl hyes
      · exact .inr fun o j ho hj hedge => hyes (hall o j ho hj hedge)

end Checks

/-! ## A counter -/

section Counter

/-- `int n = 0; while (…) bump(&n);`: the object `0` and the store `1` are in the entry block, the
call `2` is in the loop. -/
def counter : ObjectFunction (Fin 3) Bool where
  kind
    | 0 => .allocaInst
    | 1 => .storeInst 0
    | 2 => .callInst ⟨[0], false, some "bump"⟩
  users
    | 0 => [1, 2]
    | _ => []
  getParent v := decide (v = 2)
  instructions inLoop := if inLoop then [2] else [0, 1]
  constantInt _ := none

def counterObject : StackObject (Fin 3) := ⟨0, .integerTy 32, 32⟩

def counterLoop : LoopStructure Unit Bool := ⟨0, (), true, 1, PtrSet.ofList [true]⟩

def counterDominators : DominatorForest Bool := ⟨[.node false [.node true []]], false⟩

def counterNodes : PDG (Fin 3) :=
  [2, 1].foldl (fun g v => (g.addNode v (decide (v = 2))).2) (DG.empty 0)

/-- The call reads what the store has written, and what it has written itself one iteration
earlier. -/
def counterDependences : PDG (Fin 3) :=
  ((counterNodes.insertEdge ⟨0, 1, 1⟩ ⟨0, 0, 2⟩ .mayMemoryDependence (some .raw) {}).2.insertEdge
    ⟨0, 0, 2⟩ ⟨0, 0, 2⟩ .mayMemoryDependence (some .raw) ⟨true, none⟩).2

theorem counterDependences_wf : counterDependences.WF := by
  have hnodes : counterNodes.Clean :=
    ((DG.empty_clean 0).addNode rfl).addNode rfl
  exact (hnodes.toWF.insertEdge rfl rfl).insertEdge rfl rfl

theorem counter_carriesRAW : CarriesRAW counter counterLoop counterDependences 2 2 := by
  refine ⟨⟨rfl, rfl⟩, ⟨rfl, rfl⟩,
    ⟨0, 1, ⟨0, 0, 2⟩, ⟨0, 0, 2⟩, .mayMemoryDependence, some .raw⟩, ⟨?_, rfl, rfl, rfl, rfl⟩, ?_⟩
  · decide
  · decide

theorem counter_isClonable : ∃ out, ofObject .stored counter counterLoop counterDominators
    counterDependences counterObject 2 = some out ∧ out.isClonable = true ∧
      out.needInitialization = true := by
  have h : (ofObject .stored counter counterLoop counterDominators counterDependences counterObject
      2).map (fun out => (out.isClonable, out.needInitialization)) = some (true, true) := by decide
  obtain ⟨out, hout, hflags⟩ := map_eq_some_iff.mp h
  exact ⟨out, hout, congrArg Prod.fst hflags, congrArg Prod.snd hflags⟩

/-- The counter is clonable although the call reads what it wrote an iteration earlier; with a
copy for each iteration it reads another value. -/
theorem not_carriesNothing : ∃ out, ofObject .stored counter counterLoop counterDominators
    counterDependences counterObject 2 = some out ∧ out.isClonable = true ∧
      ¬ CarriesNothing counter counterLoop counterDependences (fun v => v ∈ counter.users 0) ∧
      ¬ PrivateCopiesPreserveReads counter counterLoop counterDependences
        (fun v => v ∈ counter.users 0) out.needInitialization := by
  obtain ⟨out, hout, hclonable, _⟩ := counter_isClonable
  have hnot : ¬ CarriesNothing counter counterLoop counterDependences
      (fun v => v ∈ counter.users 0) := fun h => h 2 2 (by decide) (by decide) counter_carriesRAW
  exact ⟨out, hout, hclonable, hnot, fun h => hnot (privateCopiesPreserveReads_iff.mp h).1⟩

/-- The condition of `carriesNothing_iff` at the counter. -/
theorem carriesNothing_iff_counter : ∃ out, ofObject .stored counter counterLoop counterDominators
    counterDependences counterObject 2 = some out ∧ out.isClonable = true ∧
      ((CarriesNothing counter counterLoop counterDependences (fun v => v ∈ counter.users 0) ∧
        PrivateCopiesPreserveReads counter counterLoop counterDependences
          (fun v => v ∈ counter.users 0) out.needInitialization) ↔
        (∀ i j, i ∈ counter.users 0 → j ∈ counter.users 0 →
          CarriesRAW counter counterLoop counterDependences i j → LoadsObject counter 0 j) ∧
        (∀ o j, o ∈ counter.users 0 → j ∈ counter.users 0 →
          EntersByRAW counter counterLoop counterDependences o j →
            setObjectScope counter counterLoop 0 = false ∧
              ∃ o' j', EntersByRAW counter counterLoop counterDependences o' j' ∧
                (LoadsObject counter 0 j' ∨ UsesObjectOtherwise counter 0 j'))) := by
  obtain ⟨out, hout, hclonable, _⟩ := counter_isClonable
  exact ⟨out, hout, hclonable, carriesNothing_iff counterDependences_wf hout hclonable _⟩

end Counter

end ClonableMemoryObject

end Noelle
