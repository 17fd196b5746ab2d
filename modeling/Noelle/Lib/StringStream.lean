import Mathlib.Data.List.TakeWhile

/-!
# Lib.StringStream

Input from a string stream.

A stream is the text that is left, with the bits for the end of the text and for a failed
read.  Once one of them is set, nothing is read any more: a read that does not succeed leaves
its variable as it was.
-/

namespace Noelle

open List

/-- An input stream over a text. -/
structure StringStream where
  buffer : List Char
  eof : Bool
  fail : Bool
  deriving DecidableEq

namespace StringStream

/-- A stream at the start of a text. -/
def ofText (text : List Char) : StringStream := ⟨text, false, false⟩

/-- The white space of the classic locale. -/
def isSpace (c : Char) : Bool := c ∈ [' ', '\t', '\n', '\x0b', '\x0c', '\x0d']

/-- `peek`; there is no character at the end. -/
def peek (s : StringStream) : Option Char × StringStream :=
  if s.eof || s.fail then (none, { s with fail := true })
  else
    match s.buffer with
    | [] => (none, { s with eof := true })
    | c :: _ => (some c, s)

/-- `ignore` of one character. -/
def ignore (s : StringStream) : StringStream :=
  if s.eof || s.fail then { s with fail := true }
  else
    match s.buffer with
    | [] => { s with eof := true }
    | _ :: buffer => { s with buffer := buffer }

/-- The sign of a number, and what follows it. -/
def readSign : List Char → Bool × List Char
  | '-' :: l => (true, l)
  | '+' :: l => (false, l)
  | l => (false, l)

/-- `>>` of an unsigned number of at most `max`, with the value it writes if it writes one.  A
number that is too large writes `max`, a text that is no number writes 0, and both fail. -/
def readUnsigned (max : Nat) (s : StringStream) : Option Nat × StringStream :=
  if s.eof || s.fail then (none, { s with fail := true })
  else
    match s.buffer.dropWhile isSpace with
    | [] => (none, ⟨[], true, true⟩)
    | c :: l =>
        let number := readSign (c :: l)
        let digits := number.2.takeWhile Char.isDigit
        let rest := number.2.dropWhile Char.isDigit
        let value := Nat.ofDigitChars 10 digits 0
        if digits.isEmpty then (some 0, ⟨rest, rest.isEmpty, true⟩)
        else if max < value then (some max, ⟨rest, rest.isEmpty, true⟩)
        else (some (if number.1 then (max + 1 - value) % (max + 1) else value),
          ⟨rest, rest.isEmpty, false⟩)

variable {s : StringStream} {c : Char} {l : List Char} {n : Nat}

/-! ## Streams that can be read -/

@[simp] theorem peek_ofText_cons : (ofText (c :: l)).peek = (some c, ofText (c :: l)) := rfl

theorem peek_ofText (h : l ≠ []) : (ofText l).peek = (l.head?, ofText l) := by
  cases l with
  | nil => exact absurd rfl h
  | cons c l => rfl

@[simp] theorem peek_ofText_nil : (ofText []).peek = (none, ⟨[], true, false⟩) := rfl

@[simp] theorem ignore_ofText_cons : (ofText (c :: l)).ignore = ofText l := rfl

theorem isSpace_of_isDigit (h : c.isDigit = true) : isSpace c = false := by
  refine decide_eq_false fun hmem => ?_
  simp only [mem_cons, not_mem_nil, or_false] at hmem
  rcases hmem with rfl | rfl | rfl | rfl | rfl | rfl <;> exact absurd h (by decide)

theorem readSign_of_isDigit (h : c.isDigit = true) : readSign (c :: l) = (false, c :: l) := by
  unfold readSign
  split
  · next heq =>
      rw [(List.cons.inj heq).1] at h
      exact absurd h (by decide)
  · next heq =>
      rw [(List.cons.inj heq).1] at h
      exact absurd h (by decide)
  · rfl

/-- The digits of a number are read back. -/
theorem readUnsigned_toDigits {max : Nat} (hn : n ≤ max) (hc : c.isDigit = false) :
    (ofText (Nat.toDigits 10 n ++ c :: l)).readUnsigned max = (some n, ofText (c :: l)) := by
  have hdigits : ∀ d ∈ Nat.toDigits 10 n, d.isDigit = true := fun d hd =>
    Nat.isDigit_of_mem_toDigits (by decide) (by decide) hd
  have htake : (Nat.toDigits 10 n ++ c :: l).takeWhile Char.isDigit = Nat.toDigits 10 n := by
    rw [takeWhile_append_of_pos hdigits, takeWhile_cons_of_neg (by simp [hc]),
      append_nil]
  have hdrop : (Nat.toDigits 10 n ++ c :: l).dropWhile Char.isDigit = c :: l := by
    rw [dropWhile_append_of_pos hdigits, dropWhile_cons_of_neg (by simp [hc])]
  have hvalue : Nat.ofDigitChars 10 (Nat.toDigits 10 n) 0 = n := Nat.ofDigitChars_ten_toDigits
  cases htext : Nat.toDigits 10 n with
  | nil => exact absurd htext Nat.toDigits_ne_nil
  | cons d ds =>
      have hd := hdigits d (by rw [htext]; exact .head _)
      rw [htext] at htake hdrop hvalue
      rw [cons_append] at htake hdrop ⊢
      have hskip : (d :: (ds ++ c :: l)).dropWhile isSpace = d :: (ds ++ c :: l) :=
        dropWhile_cons_of_neg (by simp [isSpace_of_isDigit hd])
      simp [readUnsigned, ofText, hskip, readSign_of_isDigit hd, htake, hdrop, hvalue,
        Nat.not_lt.mpr hn]

theorem readUnsigned_spaces (max : Nat) (h : ∀ c ∈ l, isSpace c = true) :
    (ofText l).readUnsigned max = (none, ⟨[], true, true⟩) := by
  have hdrop : l.dropWhile isSpace = [] := dropWhile_eq_nil_iff.mpr h
  simp [readUnsigned, ofText, hdrop]

/-! ## Streams that failed -/

theorem peek_of_fail (h : s.fail = true) : s.peek = (none, s) := by
  cases s
  simp_all [peek]

theorem readUnsigned_of_fail {max : Nat} (h : s.fail = true) : s.readUnsigned max = (none, s) := by
  cases s
  simp_all [readUnsigned]

end StringStream

end Noelle
