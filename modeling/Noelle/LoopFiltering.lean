import Mathlib.Data.List.Induction
import Noelle.Lib.Collections
import Noelle.Lib.Loop
import Noelle.Lib.StringStream

/-!
# LoopFiltering

The file that selects loops, which the autotuner writes and `Noelle` reads.

A row has ten numbers and ends with a newline.  The reader takes the numbers one by one
together with the character behind each, so after a row it stands at the start of the next
one.  It starts a further row if any character is left, also a newline: then no number is
read and the variables that should hold them have no value of their own.
-/

namespace Noelle

open StringStream List Option

/-! ## The file -/

/-- A row: the identifier of a loop and the nine values of its configuration. -/
structure FilterRow where
  loopID : UInt32
  shouldBeParallelized : UInt32
  unrollFactor : UInt32
  peelFactor : UInt32
  technique : UInt32
  cores : UInt32
  DOALLChunkFactor : UInt32
  skipped : UInt32 × UInt32 × UInt32
  deriving DecidableEq

/-- `str` of a number. -/
def strOf (n : UInt32) : List Char := Nat.toDigits 10 n.toNat

namespace FilterRow

/-- The values after the identifier. -/
def elems (row : FilterRow) : List UInt32 :=
  [row.shouldBeParallelized, row.unrollFactor, row.peelFactor, row.technique, row.cores,
    row.DOALLChunkFactor, row.skipped.1, row.skipped.2.1, row.skipped.2.2]

def line (row : FilterRow) : List Char :=
  strOf row.loopID ++ (row.elems.flatMap fun elem => ' ' :: strOf elem) ++ ['\n']

end FilterRow

def writeConfFile (conf : List FilterRow) : List Char := conf.flatMap FilterRow.line

/-! ## The reader -/

/-- The members of `Noelle` about the selected loops. -/
structure LoopSelection where
  filterFileName : Option String
  hasReadFilterFile : Bool
  loopThreads : AList fun _ : UInt32 => UInt32
  techniquesToDisable : AList fun _ : UInt32 => UInt32
  DOALLChunkSize : AList fun _ : UInt32 => UInt32

namespace LoopSelection

/-- The members after `Noelle::Noelle`, with the name in the environment. -/
def init (filterFileName : Option String) : LoopSelection := ⟨filterFileName, false, ∅, ∅, ∅⟩

/-- The three tables at one loop. -/
def set (s : LoopSelection) (loopID threads technique chunkSize : UInt32) : LoopSelection :=
  { s with
    loopThreads := s.loopThreads.insert loopID threads
    techniquesToDisable := s.techniquesToDisable.insert loopID technique
    DOALLChunkSize := s.DOALLChunkSize.insert loopID chunkSize }

def skipSeparator (stream : StringStream) : StringStream :=
  let peekChar := stream.peek
  if peekChar.1 = some ' ' ∨ peekChar.1 = some '\n' then peekChar.2.ignore else peekChar.2

/-- `Noelle::fetchTheNextValue`; the variable holds `currentValueRead` before it is written. -/
def fetchTheNextValue (currentValueRead : UInt32) (stream : StringStream) : UInt32 × StringStream :=
  let r := (skipSeparator stream).readUnsigned (2 ^ 32 - 1)
  ((r.1.map UInt32.ofNat).getD currentValueRead, skipSeparator r.2)

/-- The values of the ten variables of a row when they are not written.  The stream fails
then and the row is the last one, so one choice does for all rows. -/
abbrev Uninitialised := Fin 10 → UInt32

/-- What the loop of `Noelle::checkToGetLoopFilteringInfo` changes. -/
structure Reading where
  filterLoops : Bool
  indexString : StringStream
  selection : LoopSelection

/-- The condition of the loop. -/
def moreRows (r : Reading) : Bool := r.indexString.peek.1.isSome

/-- The body of the loop. -/
def readRow (uninitialised : Uninitialised) (r : Reading) : Option Reading := do
  let maxValue : UInt32 := UInt32.ofNat (2 ^ 32 - 1)
  let loopID := fetchTheNextValue (uninitialised 0) r.indexString.peek.2
  let shouldBeParallelized := fetchTheNextValue (uninitialised 1) loopID.2
  if shouldBeParallelized.1 ≠ 0 ∧ shouldBeParallelized.1 ≠ 1 then none
  else
    let unrollFactor := fetchTheNextValue (uninitialised 2) shouldBeParallelized.2
    if unrollFactor.1 = maxValue then none
    else
      let peelFactor := fetchTheNextValue (uninitialised 3) unrollFactor.2
      if peelFactor.1 = maxValue then none
      else
        let technique := fetchTheNextValue (uninitialised 4) peelFactor.2
        let cores := fetchTheNextValue (uninitialised 5) technique.2
        let DOALLChunkFactor := fetchTheNextValue (uninitialised 6) cores.2
        let skip := fetchTheNextValue (uninitialised 7) DOALLChunkFactor.2
        let skip := fetchTheNextValue (uninitialised 8) skip.2
        let skip := fetchTheNextValue (uninitialised 9) skip.2
        let selection :=
          if shouldBeParallelized.1 ≠ 0 ∧ 2 ≤ cores.1 then
            r.selection.set loopID.1 cores.1 technique.1 (DOALLChunkFactor.1 + 1)
          else r.selection.set loopID.1 1 0 1
        return ⟨true, skip.2, selection⟩

/-- `Noelle::checkToGetLoopFilteringInfo`; `file` is the text of a file that can be opened. -/
def checkToGetLoopFilteringInfo (uninitialised : Uninitialised) (file : String → Option (List Char))
    (fuel : Nat) (s : LoopSelection) : Option (Bool × LoopSelection) :=
  match s.filterFileName with
  | none => some (false, s)
  | some filterFileName =>
      if s.hasReadFilterFile then some (true, s)
      else do
        let fileAsString ← file filterFileName
        let r ← loopM moreRows (readRow uninitialised) fuel ⟨false, ofText fileAsString, s⟩
        return (r.filterLoops, { r.selection with hasReadFilterFile := true })

end LoopSelection

/-- The rows that the assertion and the aborts of the reader let pass. -/
structure FilterRow.Accepted (row : FilterRow) : Prop where
  shouldBeParallelized : row.shouldBeParallelized = 0 ∨ row.shouldBeParallelized = 1
  unrollFactor : row.unrollFactor ≠ UInt32.ofNat (2 ^ 32 - 1)
  peelFactor : row.peelFactor ≠ UInt32.ofNat (2 ^ 32 - 1)

instance (row : FilterRow) : Decidable row.Accepted :=
  decidable_of_iff ((row.shouldBeParallelized = 0 ∨ row.shouldBeParallelized = 1) ∧
      row.unrollFactor ≠ UInt32.ofNat (2 ^ 32 - 1) ∧ row.peelFactor ≠ UInt32.ofNat (2 ^ 32 - 1))
    ⟨fun h => ⟨h.1, h.2.1, h.2.2⟩, fun h => ⟨h.1, h.2, h.3⟩⟩

def FilterRow.Enabled (row : FilterRow) : Prop := row.shouldBeParallelized ≠ 0 ∧ 2 ≤ row.cores

instance (row : FilterRow) : Decidable row.Enabled :=
  inferInstanceAs (Decidable (row.shouldBeParallelized ≠ 0 ∧ 2 ≤ row.cores))

namespace LoopSelection

def store (s : LoopSelection) (row : FilterRow) : LoopSelection :=
  if row.Enabled then s.set row.loopID row.cores row.technique (row.DOALLChunkFactor + 1)
  else s.set row.loopID 1 0 1

/-! ## Reading one number -/

variable {uninitialised : Uninitialised} {row : FilterRow} {rows : List FilterRow} {l : List Char}
  {s : LoopSelection}

theorem strOf_ne_nil (n : UInt32) : strOf n ≠ [] := Nat.toDigits_ne_nil

theorem isDigit_of_mem_strOf {n : UInt32} {c : Char} (hc : c ∈ strOf n) : c.isDigit = true :=
  Nat.isDigit_of_mem_toDigits (by decide) (by decide) hc

theorem skipSeparator_strOf (n : UInt32) (l : List Char) :
    skipSeparator (ofText (strOf n ++ l)) = ofText (strOf n ++ l) := by
  cases htext : strOf n with
  | nil => exact absurd htext (strOf_ne_nil n)
  | cons d ds =>
      have hd := isDigit_of_mem_strOf (n := n) (c := d) (by rw [htext]; exact .head _)
      have hspace : d ≠ ' ' := fun heq => absurd (heq ▸ hd) (by decide)
      have hnewline : d ≠ '\n' := fun heq => absurd (heq ▸ hd) (by decide)
      simp [skipSeparator, hspace, hnewline]

theorem fetchTheNextValue_strOf (currentValueRead n : UInt32) {sep : Char}
    (hsep : sep = ' ' ∨ sep = '\n') (l : List Char) :
    fetchTheNextValue currentValueRead (ofText (strOf n ++ sep :: l)) = (n, ofText l) := by
  have hdigit : sep.isDigit = false := by
    rcases hsep with rfl | rfl <;> decide
  have hmax : n.toNat ≤ 2 ^ 32 - 1 := Nat.le_sub_one_of_lt n.toNat_lt
  have hread := readUnsigned_toDigits (l := l) hmax hdigit
  have hskip : skipSeparator (ofText (sep :: l)) = ofText l := by
    rcases hsep with rfl | rfl <;> rfl
  rw [fetchTheNextValue, skipSeparator_strOf, strOf, hread]
  simp [hskip]

theorem fetchTheNextValue_of_fail (currentValueRead : UInt32) (stream : StringStream)
    (h : stream.fail = true) :
    fetchTheNextValue currentValueRead stream = (currentValueRead, stream) := by
  have hskip : skipSeparator stream = stream := by simp [skipSeparator, peek_of_fail h]
  simp [fetchTheNextValue, hskip, readUnsigned_of_fail h]

/-! ## Reading one row -/

/-- The ten numbers that the body of the loop fetches. -/
def fetchRow (uninitialised : Uninitialised) (stream : StringStream) : FilterRow × StringStream :=
  let loopID := fetchTheNextValue (uninitialised 0) stream
  let shouldBeParallelized := fetchTheNextValue (uninitialised 1) loopID.2
  let unrollFactor := fetchTheNextValue (uninitialised 2) shouldBeParallelized.2
  let peelFactor := fetchTheNextValue (uninitialised 3) unrollFactor.2
  let technique := fetchTheNextValue (uninitialised 4) peelFactor.2
  let cores := fetchTheNextValue (uninitialised 5) technique.2
  let DOALLChunkFactor := fetchTheNextValue (uninitialised 6) cores.2
  let first := fetchTheNextValue (uninitialised 7) DOALLChunkFactor.2
  let second := fetchTheNextValue (uninitialised 8) first.2
  let third := fetchTheNextValue (uninitialised 9) second.2
  (⟨loopID.1, shouldBeParallelized.1, unrollFactor.1, peelFactor.1, technique.1, cores.1,
    DOALLChunkFactor.1, first.1, second.1, third.1⟩, third.2)

/-- A row is stored if it is accepted, and reading stops if not. -/
theorem readRow_eq {r : Reading} {row : FilterRow} {stream : StringStream}
    (h : fetchRow uninitialised r.indexString.peek.2 = (row, stream)) :
    readRow uninitialised r =
      if row.Accepted then some ⟨true, stream, r.selection.store row⟩ else none := by
  obtain ⟨rfl, rfl⟩ := Prod.mk.inj h
  dsimp only [readRow]
  generalize fetchTheNextValue (uninitialised 0) r.indexString.peek.2 = loopID
  generalize fetchTheNextValue (uninitialised 1) loopID.2 = shouldBeParallelized
  generalize fetchTheNextValue (uninitialised 2) shouldBeParallelized.2 = unrollFactor
  generalize fetchTheNextValue (uninitialised 3) unrollFactor.2 = peelFactor
  by_cases hflag : shouldBeParallelized.1 ≠ 0 ∧ shouldBeParallelized.1 ≠ 1
  · rw [if_pos hflag, if_neg fun h => h.shouldBeParallelized.elim hflag.1 hflag.2]
  rw [if_neg hflag]
  by_cases hunroll : unrollFactor.1 = UInt32.ofNat (2 ^ 32 - 1)
  · rw [if_pos hunroll, if_neg fun h => h.unrollFactor hunroll]
  rw [if_neg hunroll]
  by_cases hpeel : peelFactor.1 = UInt32.ofNat (2 ^ 32 - 1)
  · rw [if_pos hpeel, if_neg fun h => h.peelFactor hpeel]
  rw [if_neg hpeel]
  have hflag' : shouldBeParallelized.1 = 0 ∨ shouldBeParallelized.1 = 1 := by tauto
  exact (if_pos ⟨hflag', hunroll, hpeel⟩).symm

theorem fetchRow_line (row : FilterRow) (l : List Char) :
    fetchRow uninitialised (ofText (row.line ++ l)) = (row, ofText l) := by
  have hline : row.line ++ l = strOf row.loopID ++ ' ' :: (strOf row.shouldBeParallelized ++
      ' ' :: (strOf row.unrollFactor ++ ' ' :: (strOf row.peelFactor ++ ' ' :: (strOf row.technique ++
      ' ' :: (strOf row.cores ++ ' ' :: (strOf row.DOALLChunkFactor ++ ' ' :: (strOf row.skipped.1 ++
      ' ' :: (strOf row.skipped.2.1 ++ ' ' :: (strOf row.skipped.2.2 ++ '\n' :: l))))))))) := by
    simp [FilterRow.line, FilterRow.elems]
  have hspace := fun currentValueRead n l =>
    fetchTheNextValue_strOf currentValueRead n (.inl (rfl : ' ' = ' ')) l
  have hnewline := fun currentValueRead n l =>
    fetchTheNextValue_strOf currentValueRead n (.inr (rfl : '\n' = '\n')) l
  rw [hline, fetchRow]
  simp only [hspace, hnewline]

def unwrittenRow (uninitialised : Uninitialised) : FilterRow :=
  ⟨uninitialised 0, uninitialised 1, uninitialised 2, uninitialised 3, uninitialised 4,
    uninitialised 5, uninitialised 6, uninitialised 7, uninitialised 8, uninitialised 9⟩

theorem fetchRow_newlines (k : Nat) :
    fetchRow uninitialised (ofText (List.replicate (k + 1) '\n')) =
      (unwrittenRow uninitialised, ⟨[], true, true⟩) := by
  have hread := readUnsigned_spaces (l := List.replicate k '\n') (2 ^ 32 - 1)
    fun c hc => by rw [eq_of_mem_replicate hc]; rfl
  have hfirst : ∀ currentValueRead, fetchTheNextValue currentValueRead
      (ofText (List.replicate (k + 1) '\n')) = (currentValueRead, ⟨[], true, true⟩) := by
    intro currentValueRead
    have hskip : skipSeparator (ofText (List.replicate (k + 1) '\n')) =
        ofText (List.replicate k '\n') := rfl
    rw [fetchTheNextValue, hskip, hread]
    rfl
  have hrest := fun currentValueRead =>
    fetchTheNextValue_of_fail currentValueRead ⟨[], true, true⟩ rfl
  rw [fetchRow]
  simp only [hfirst, hrest]
  rfl

/-! ## Reading all rows -/

theorem writeConfFile_cons (row : FilterRow) (rows : List FilterRow) (l : List Char) :
    writeConfFile (row :: rows) ++ l = row.line ++ (writeConfFile rows ++ l) := by
  rw [writeConfFile, flatMap_cons, append_assoc]
  rfl

theorem line_ne_nil (row : FilterRow) : row.line ≠ [] := by
  simp [FilterRow.line]

theorem readRow_line (uninitialised : Uninitialised) (b : Bool) (row : FilterRow) (l : List Char)
    (s : LoopSelection) :
    moreRows ⟨b, ofText (row.line ++ l), s⟩ = true ∧
      readRow uninitialised ⟨b, ofText (row.line ++ l), s⟩ =
        if row.Accepted then some ⟨true, ofText l, s.store row⟩ else none := by
  have hne : row.line ++ l ≠ [] := append_ne_nil_of_left_ne_nil (line_ne_nil row) l
  have hpeek := peek_ofText hne
  refine ⟨?_, ?_⟩
  · rw [moreRows, hpeek, isSome_head?]
    simpa using hne
  · exact readRow_eq (by rw [hpeek, fetchRow_line])

theorem loopM_readRow (fuel : Nat) (l : List Char) : ∀ {rows : List FilterRow},
    (∀ row ∈ rows, row.Accepted) → ∀ (b : Bool) (s : LoopSelection),
      loopM moreRows (readRow uninitialised) (rows.length + fuel)
          ⟨b, ofText (writeConfFile rows ++ l), s⟩ =
        loopM moreRows (readRow uninitialised) fuel
          ⟨b || !rows.isEmpty, ofText l, rows.foldl store s⟩
  | [], _, b, s => by simp [writeConfFile]
  | row :: rows, h, b, s => by
      have hrow := h row (.head _)
      obtain ⟨hmore, hread⟩ := readRow_line uninitialised b row
        (writeConfFile rows ++ l) s
      have hlen : (row :: rows).length + fuel = (rows.length + fuel) + 1 := by
        rw [length_cons]
        omega
      rw [hlen, writeConfFile_cons, loopM, if_pos hmore, hread, if_pos hrow, bind_some,
        loopM_readRow fuel l (fun row hrow => h row (.tail _ hrow))]
      simp

theorem loopM_readRow_eq_none (l : List Char) : ∀ {rows : List FilterRow},
    (¬ ∀ row ∈ rows, row.Accepted) → ∀ (fuel : Nat) (b : Bool) (s : LoopSelection),
      loopM moreRows (readRow uninitialised) fuel ⟨b, ofText (writeConfFile rows ++ l), s⟩ = none
  | [], h, _, _, _ => absurd nofun h
  | row :: rows, h, fuel, b, s => by
      obtain ⟨hmore, hread⟩ := readRow_line uninitialised b row
        (writeConfFile rows ++ l) s
      rw [writeConfFile_cons]
      cases fuel with
      | zero => rw [loopM, if_pos hmore]
      | succ fuel =>
          rw [loopM, if_pos hmore, hread]
          by_cases hrow : row.Accepted
          · rw [if_pos hrow, bind_some]
            refine loopM_readRow_eq_none l (fun hall => h ?_) fuel true _
            exact forall_mem_cons.mpr ⟨hrow, hall⟩
          · rw [if_neg hrow, bind_none]

theorem loopM_end (fuel : Nat) (b : Bool) (s : LoopSelection) :
    loopM moreRows (readRow uninitialised) fuel ⟨b, ofText [], s⟩ = some ⟨b, ofText [], s⟩ :=
  loopM_of_not_cond rfl fuel

theorem loopM_newlines (k fuel : Nat) (b : Bool) (s : LoopSelection) :
    loopM moreRows (readRow uninitialised) (fuel + 1) ⟨b, ofText (List.replicate (k + 1) '\n'), s⟩ =
      if (unwrittenRow uninitialised).Accepted then
        some ⟨true, ⟨[], true, true⟩, s.store (unwrittenRow uninitialised)⟩
      else none := by
  have hmore : moreRows ⟨b, ofText (List.replicate (k + 1) '\n'), s⟩ = true := rfl
  have hpeek : (ofText (List.replicate (k + 1) '\n')).peek.2 =
      ofText (List.replicate (k + 1) '\n') := rfl
  rw [loopM, if_pos hmore, readRow_eq (by rw [hpeek, fetchRow_newlines])]
  split_ifs
  · exact loopM_of_not_cond rfl fuel
  · rfl

/-! ## The tables -/

/-- The row of a loop: the last one with its identifier. -/
def rowOf (rows : List FilterRow) (loopID : UInt32) : Option FilterRow :=
  rows.reverse.find? fun row => decide (row.loopID = loopID)

/-- The chunk size of the loop is a 32-bit number. -/
def ChunkFits (rows : List FilterRow) (id : UInt32) : Prop :=
  ∀ row, rowOf rows id = some row → row.Enabled → row.DOALLChunkFactor ≠ UInt32.ofNat (2 ^ 32 - 1)

/-- The tables hold the parameters of the rows and nothing else: the cores, the techniques to
disable and one more than the chunk factor for the loops to parallelize, and 1, 0 and 1 for the
other loops.  Of the chunk sizes only those of `chunked` are fixed. -/
structure IsTable (s : LoopSelection) (rows : List FilterRow) (chunked : UInt32 → Prop) : Prop where
  loopThreads : ∀ id, (s.loopThreads.lookup id).map UInt32.toNat =
    (rowOf rows id).map fun row => if row.Enabled then row.cores.toNat else 1
  techniquesToDisable : ∀ id, (s.techniquesToDisable.lookup id).map UInt32.toNat =
    (rowOf rows id).map fun row => if row.Enabled then row.technique.toNat else 0
  DOALLChunkSize : ∀ id, chunked id → (s.DOALLChunkSize.lookup id).map UInt32.toNat =
    (rowOf rows id).map fun row => if row.Enabled then row.DOALLChunkFactor.toNat + 1 else 1
  chunkEntries : ∀ id, (s.DOALLChunkSize.lookup id).isSome = (rowOf rows id).isSome

theorem rowOf_append (rows : List FilterRow) (row : FilterRow) (id : UInt32) :
    rowOf (rows ++ [row]) id = if row.loopID = id then some row else rowOf rows id := by
  rw [rowOf, reverse_append, reverse_singleton, singleton_append, List.find?_cons]
  by_cases h : row.loopID = id
  · simp [h]
  · simp [h, rowOf]

theorem store_tables (s : LoopSelection) (row : FilterRow) :
    (s.store row).loopThreads =
        s.loopThreads.insert row.loopID (if row.Enabled then row.cores else 1) ∧
      (s.store row).techniquesToDisable =
        s.techniquesToDisable.insert row.loopID (if row.Enabled then row.technique else 0) ∧
      (s.store row).DOALLChunkSize = s.DOALLChunkSize.insert row.loopID
        (if row.Enabled then row.DOALLChunkFactor + 1 else 1) := by
  unfold store
  split_ifs <;> exact ⟨rfl, rfl, rfl⟩

theorem lookup_foldl_store (name : Option String) (rows : List FilterRow) (id : UInt32) :
    let s := rows.foldl store (init name)
    s.loopThreads.lookup id = (rowOf rows id).map (fun row => if row.Enabled then row.cores else 1) ∧
      s.techniquesToDisable.lookup id =
        (rowOf rows id).map (fun row => if row.Enabled then row.technique else 0) ∧
      s.DOALLChunkSize.lookup id =
        (rowOf rows id).map (fun row => if row.Enabled then row.DOALLChunkFactor + 1 else 1) := by
  induction rows using List.reverseRecOn with
  | nil => exact ⟨rfl, rfl, rfl⟩
  | append_singleton rows row ih =>
      obtain ⟨hthreads, htechnique, hchunk⟩ := ih
      obtain ⟨hthreads', htechnique', hchunk'⟩ := store_tables (rows.foldl store (init name)) row
      dsimp only
      rw [foldl_append, foldl_cons, foldl_nil, hthreads', htechnique', hchunk',
        rowOf_append]
      by_cases h : row.loopID = id
      · simp [h]
      · have hne : id ≠ row.loopID := fun heq => h heq.symm
        rw [AList.lookup_insert_ne hne, AList.lookup_insert_ne hne, AList.lookup_insert_ne hne,
          if_neg h]
        exact ⟨hthreads, htechnique, hchunk⟩

theorem toNat_add_one_eq_iff (c : UInt32) :
    (c + 1).toNat = c.toNat + 1 ↔ c ≠ UInt32.ofNat (2 ^ 32 - 1) := by
  have hlt := c.toNat_lt
  have hadd : (c + 1).toNat = (c.toNat + 1) % 2 ^ 32 := UInt32.toNat_add c 1
  have hmax : (UInt32.ofNat (2 ^ 32 - 1)).toNat = 2 ^ 32 - 1 := by decide
  rw [hadd, Ne, ← UInt32.toNat_inj, hmax]
  omega

/-- The table holds the rows stored. -/
theorem isTable_foldl_store (name : Option String) (rows : List FilterRow) :
    IsTable { rows.foldl store (init name) with hasReadFilterFile := true } rows
      (ChunkFits rows) := by
  have hlookup := lookup_foldl_store name rows
  dsimp only at hlookup
  refine ⟨fun id => ?_, fun id => ?_, fun id hfits => ?_, fun id => ?_⟩
  · dsimp only
    rw [(hlookup id).1, Option.map_map]
    exact map_congr fun row _ => by
      simp only [Function.comp_apply, apply_ite UInt32.toNat]
      rfl
  · dsimp only
    rw [(hlookup id).2.1, Option.map_map]
    exact map_congr fun row _ => by
      simp only [Function.comp_apply, apply_ite UInt32.toNat]
      rfl
  · dsimp only
    rw [(hlookup id).2.2, Option.map_map]
    refine map_congr fun row hrow => ?_
    by_cases henabled : row.Enabled
    · simp only [Function.comp_apply, if_pos henabled]
      exact (toNat_add_one_eq_iff _).mpr (hfits row hrow henabled)
    · simp only [Function.comp_apply, if_neg henabled]
      rfl
  · dsimp only
    rw [(hlookup id).2.2, isSome_map]

theorem isTable_foldl_store_iff (name : Option String) (rows : List FilterRow) :
    IsTable { rows.foldl store (init name) with hasReadFilterFile := true } rows (fun _ => True) ↔
      ∀ id, ChunkFits rows id := by
  constructor
  · intro h id row hrow henabled
    have hchunk := h.DOALLChunkSize id trivial
    have hlookup := (lookup_foldl_store name rows id).2.2
    dsimp only at hchunk hlookup
    rw [hlookup, hrow, map_some, map_some, map_some, if_pos henabled,
      if_pos henabled, some.injEq] at hchunk
    exact (toNat_add_one_eq_iff _).mp hchunk
  · intro h
    have htable := isTable_foldl_store name rows
    exact ⟨htable.1, htable.2, fun id _ => htable.3 id (h id), htable.4⟩

/-! ## Reading a file back -/

section RoundTrip

variable {file : String → Option (List Char)} {name : String}

theorem filterFileName_foldl_store (rows : List FilterRow) (s : LoopSelection) :
    (rows.foldl store s).filterFileName = s.filterFileName := by
  induction rows generalizing s with
  | nil => rfl
  | cons row rows ih =>
      rw [foldl_cons, ih, store]
      split_ifs <;> rfl

theorem checkToGetLoopFilteringInfo_init {text : List Char} (hfile : file name = some text)
    (fuel : Nat) :
    checkToGetLoopFilteringInfo uninitialised file fuel (init (some name)) =
      (loopM moreRows (readRow uninitialised) fuel ⟨false, ofText text, init (some name)⟩).map
        fun r => (r.filterLoops, { r.selection with hasReadFilterFile := true }) := by
  simp only [checkToGetLoopFilteringInfo, init, hfile, Bool.false_eq_true, if_false,
    bind_eq_bind, bind_some]
  cases loopM moreRows (readRow uninitialised) fuel
    ⟨false, ofText text, ⟨some name, false, ∅, ∅, ∅⟩⟩ <;> rfl

theorem read_writeConfFile (hfile : file name = some (writeConfFile rows))
    (hrows : ∀ row ∈ rows, row.Accepted) {fuel : Nat} (hfuel : rows.length ≤ fuel) :
    checkToGetLoopFilteringInfo uninitialised file fuel (init (some name)) =
      some (!rows.isEmpty,
        { rows.foldl store (init (some name)) with hasReadFilterFile := true }) := by
  obtain ⟨extra, rfl⟩ := Nat.exists_eq_add_of_le hfuel
  rw [← append_nil (writeConfFile rows)] at hfile
  rw [checkToGetLoopFilteringInfo_init hfile, loopM_readRow extra [] hrows, loopM_end, Bool.false_or]
  rfl

theorem read_writeConfFile_eq_none {l : List Char} (hfile : file name = some (writeConfFile rows ++ l))
    (hrows : ¬ ∀ row ∈ rows, row.Accepted) (fuel : Nat) :
    checkToGetLoopFilteringInfo uninitialised file fuel (init (some name)) = none := by
  rw [checkToGetLoopFilteringInfo_init hfile, loopM_readRow_eq_none l hrows]
  rfl

theorem checkToGetLoopFilteringInfo_again (rows : List FilterRow) (fuel : Nat) :
    checkToGetLoopFilteringInfo uninitialised file fuel
        { rows.foldl store (init (some name)) with hasReadFilterFile := true } =
      some (true, { rows.foldl store (init (some name)) with hasReadFilterFile := true }) := by
  simp [checkToGetLoopFilteringInfo, filterFileName_foldl_store, init]

/-- The rows are read back from their text with further newlines, whatever the variables hold
that are not written, and a second call returns the same. -/
def RoundTrip (rows : List FilterRow) (newlines : Nat) : Prop :=
  ∀ (uninitialised : Uninitialised) (file : String → Option (List Char)) (name : String),
    file name = some (writeConfFile rows ++ List.replicate newlines '\n') →
      ∃ steps, ∀ fuel ≥ steps, ∃ answer s,
        checkToGetLoopFilteringInfo uninitialised file fuel (init (some name)) = some (answer, s) ∧
          IsTable s rows (fun _ => True) ∧
          checkToGetLoopFilteringInfo uninitialised file fuel s = some (answer, s)

theorem not_roundTrip_newlines (rows : List FilterRow) (k : Nat) : ¬ RoundTrip rows (k + 1) := by
  intro h
  obtain ⟨steps, hsteps⟩ := h (fun _ => 2)
    (fun _ => some (writeConfFile rows ++ List.replicate (k + 1) '\n')) "" rfl
  obtain ⟨answer, s, hread, -⟩ := hsteps (rows.length + (steps + 1)) (by omega)
  by_cases hrows : ∀ row ∈ rows, row.Accepted
  · have hunwritten : ¬ (unwrittenRow fun _ => 2).Accepted := by decide
    rw [checkToGetLoopFilteringInfo_init rfl, loopM_readRow _ _ hrows, loopM_newlines,
      if_neg hunwritten] at hread
    cases hread
  · rw [read_writeConfFile_eq_none rfl hrows] at hread
    cases hread

/-- When the rows written are read back. -/
theorem roundTrip_iff (rows : List FilterRow) (newlines : Nat) :
    RoundTrip rows newlines ↔ newlines = 0 ∧ rows ≠ [] ∧ (∀ row ∈ rows, row.Accepted) ∧
      ∀ id, ChunkFits rows id := by
  cases newlines with
  | succ k => exact iff_of_false (not_roundTrip_newlines rows k) fun h => Nat.succ_ne_zero k h.1
  | zero =>
      rw [RoundTrip, replicate_zero, append_nil, and_iff_right rfl]
      constructor
      · intro h
        obtain ⟨steps, hsteps⟩ := h (fun _ => 0) (fun _ => some (writeConfFile rows)) "" rfl
        obtain ⟨answer, s, hread, htable, hagain⟩ := hsteps (rows.length + steps) (by omega)
        have hrows : ∀ row ∈ rows, row.Accepted := by
          by_contra hrows
          rw [read_writeConfFile_eq_none (l := []) (by rw [append_nil]) hrows] at hread
          cases hread
        rw [read_writeConfFile rfl hrows (by omega), some.injEq, Prod.mk.injEq] at hread
        obtain ⟨rfl, rfl⟩ := hread
        rw [checkToGetLoopFilteringInfo_again, some.injEq, Prod.mk.injEq] at hagain
        refine ⟨fun hnil => ?_, hrows, (isTable_foldl_store_iff _ rows).mp htable⟩
        rw [hnil] at hagain
        exact absurd hagain.1 (by decide)
      · rintro ⟨hne, hrows, hfits⟩ uninitialised file name hfile
        refine ⟨rows.length, fun fuel hfuel => ⟨true, _, ?_,
          (isTable_foldl_store_iff (some name) rows).mpr hfits,
          checkToGetLoopFilteringInfo_again rows fuel⟩⟩
        have hempty : rows.isEmpty = false := isEmpty_eq_false_iff.mpr hne
        rw [read_writeConfFile hfile hrows hfuel, hempty]
        rfl

/-- Reading what was written, without further newlines. -/
theorem writeConfFile_read_back (rows : List FilterRow) (uninitialised : Uninitialised)
    (file : String → Option (List Char)) (name : String)
    (hfile : file name = some (writeConfFile rows)) :
    ((¬ ∀ row ∈ rows, row.Accepted) → ∀ fuel,
      checkToGetLoopFilteringInfo uninitialised file fuel (init (some name)) = none) ∧
    ((∀ row ∈ rows, row.Accepted) → ∀ fuel ≥ rows.length, ∃ answer s,
      checkToGetLoopFilteringInfo uninitialised file fuel (init (some name)) = some (answer, s) ∧
        IsTable s rows (ChunkFits rows) ∧
        (rows ≠ [] → ∀ fuel',
          checkToGetLoopFilteringInfo uninitialised file fuel' s = some (answer, s))) := by
  constructor
  · intro hrows fuel
    exact read_writeConfFile_eq_none (l := []) (by rw [hfile, append_nil]) hrows fuel
  · intro hrows fuel hfuel
    refine ⟨_, _, read_writeConfFile hfile hrows hfuel, isTable_foldl_store _ rows, ?_⟩
    intro hne fuel'
    have hempty : rows.isEmpty = false := isEmpty_eq_false_iff.mpr hne
    rw [checkToGetLoopFilteringInfo_again, hempty]
    rfl

end RoundTrip

/-! ## Sample rows -/

/-- The loop 7 with four cores. -/
def sampleRow : FilterRow := ⟨7, 1, 0, 0, 2, 4, 15, 0, 0, 0⟩

/-- Two rows of the loop 7, the last of which is not parallelized, and one of the loop 9. -/
def sampleRows : List FilterRow :=
  [sampleRow, { sampleRow with loopID := 9, unrollFactor := 3 },
    { sampleRow with shouldBeParallelized := 0, cores := 8 }]

/-- The file of the rows is read back. -/
theorem sampleRow_read_back :
    (∀ row ∈ sampleRows, row.Accepted) ∧
    ∃ answer s, checkToGetLoopFilteringInfo (fun _ => 0) (fun _ => some (writeConfFile sampleRows)) 3
        (init (some "INDEX_FILE")) = some (answer, s) ∧
      IsTable s sampleRows (ChunkFits sampleRows) := by
  have haccepted : ∀ row ∈ sampleRows, row.Accepted := by decide
  obtain ⟨answer, s, hread, htable, -⟩ := (writeConfFile_read_back sampleRows (fun _ => 0)
    (fun _ => some (writeConfFile sampleRows)) "INDEX_FILE" rfl).2 haccepted 3 le_rfl
  exact ⟨haccepted, answer, s, hread, htable⟩

/-- A row with the flag 2 stops the program; a row before a further newline, and no rows at all,
are not read back either. -/
theorem sampleRow_not_roundTrip : ¬ RoundTrip [{ sampleRow with shouldBeParallelized := 2 }] 0 ∧
    ¬ RoundTrip [sampleRow] 1 ∧ ¬ RoundTrip [] 0 := by
  refine ⟨fun h => ?_, not_roundTrip_newlines _ 0, fun h => ?_⟩
  · exact absurd ((roundTrip_iff _ 0).mp h).2.2.1 (by decide)
  · exact ((roundTrip_iff _ 0).mp h).2.1 rfl

end LoopSelection

end Noelle
