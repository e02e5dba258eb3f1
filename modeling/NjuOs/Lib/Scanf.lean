import Mathlib.Data.List.Basic
import NjuOs.Lib.Stdio

/-!
`fscanf`, as the C standard describes it.

A format is a list of directives. Each reads from the front of the input; the
first one that fails ends the call, and what was assigned up to there is the
result. `scanf_int`, `scanf_literal` and the like are the rules for an input whose
front is known.
-/

namespace NjuOs.Lib

/-! ### Characters -/

/-- `isspace` -/
def isSpace (c : UInt8) : Bool := c = 0x20 || (0x09 ≤ c && c ≤ 0x0D)

def isDecimalDigit (c : UInt8) : Bool := 0x30 ≤ c && c ≤ 0x39

/-- The number that some digits spell. -/
def digitsValue (digits : Bytes) : Nat := digits.foldl (fun n c => 10 * n + (c.toNat - 0x30)) 0

/-- `%d` -/
def decimalInt (n : Int) : Bytes := if n < 0 then 0x2D :: decimal n.natAbs else decimal n.natAbs

/-! ### Formats -/

namespace Scanf

inductive Directive where
  /-- White space, which matches any amount of it. -/
  | blank
  | literal (c : UInt8)
  /-- `%d` -/
  | int
  /-- `%[`..`]` -/
  | set (p : UInt8 → Bool)
  /-- `%c` -/
  | char

inductive Item where
  | int (n : Int)
  | text (chars : Bytes)
  | char (c : UInt8)
deriving DecidableEq, Repr

/-- Digits behind a sign. -/
def readDigits (negative : Bool) (input : Bytes) : Option (List Item × Bytes) :=
  let digits := input.takeWhile isDecimalDigit
  if digits = [] then none
  else
    let n : Int := digitsValue digits
    some ([.int (if negative then -n else n)], input.dropWhile isDecimalDigit)

/-- What a directive assigns, and the input behind what it reads. -/
def Directive.read : Directive → Bytes → Option (List Item × Bytes)
  | .blank, input => some ([], input.dropWhile isSpace)
  | .literal c, input =>
      match input with
      | b :: input => if b = c then some ([], input) else none
      | [] => none
  | .int, input =>
      match input.dropWhile isSpace with
      | c :: input =>
          if c = 0x2D then readDigits true input
          else if c = 0x2B then readDigits false input
          else readDigits false (c :: input)
      | [] => none
  | .set p, input =>
      let chars := input.takeWhile p
      if chars = [] then none else some ([.text chars], input.dropWhile p)
  | .char, input =>
      match input with
      | c :: input => some ([.char c], input)
      | [] => none

end Scanf

open Scanf

/-- The items that a call assigns. -/
def scanf : List Directive → Bytes → List Item
  | [], _ => []
  | directive :: directives, input =>
      match directive.read input with
      | some (items, rest) => items ++ scanf directives rest
      | none => []

/-! ### Decimal numbers -/

section Decimal

theorem isDecimalDigit_of_mem {n : Nat} {c : UInt8} (h : c ∈ decimal n) :
    isDecimalDigit c = true := by
  obtain ⟨hlower, hupper⟩ := decimal_digit h
  rw [isDecimalDigit, Bool.and_eq_true, decide_eq_true_eq, decide_eq_true_eq]
  exact ⟨UInt8.le_iff_toNat_le.mpr hlower, UInt8.le_iff_toNat_le.mpr hupper⟩

theorem digitsValue_decimal (n : Nat) : digitsValue (decimal n) = n := by
  rw [digitsValue, decimal, List.foldl_map]
  refine Eq.trans ?_ (@Nat.ofDigitChars_ten_toDigits n)
  rw [Nat.ofDigitChars_eq_foldl]
  apply List.foldl_ext
  intro sum c hc
  rw [(toNat_digit hc).1]
  rfl

theorem decimal_ne_nil (n : Nat) : decimal n ≠ [] := by
  rw [decimal, Ne, List.map_eq_nil_iff]
  exact Nat.toDigits_ne_nil

/-- Some characters and the first one that is not of their kind. -/
theorem takeWhile_append {p : UInt8 → Bool} {front : Bytes} (hfront : ∀ b ∈ front, p b = true)
    {c : UInt8} (hc : p c = false) (rest : Bytes) :
    (front ++ c :: rest).takeWhile p = front ∧ (front ++ c :: rest).dropWhile p = c :: rest := by
  rw [List.takeWhile_append_of_pos hfront, List.dropWhile_append_of_pos hfront]
  simp [hc]

theorem readDigits_decimal (negative : Bool) (n : Nat) {c : UInt8}
    (hc : isDecimalDigit c = false) (rest : Bytes) :
    readDigits negative (decimal n ++ c :: rest) =
      some ([.int (if negative then -n else n)], c :: rest) := by
  obtain ⟨htake, hdrop⟩ := takeWhile_append (fun b hb => isDecimalDigit_of_mem hb) hc rest
  rw [readDigits, htake, hdrop]
  simp only [if_neg (decimal_ne_nil n), digitsValue_decimal]

/-- The first character of a number is no white space, and no digit is a sign. -/
theorem head_decimal (n : Nat) : ∃ c cs, decimal n = c :: cs ∧ isSpace c = false ∧
    c ≠ 0x2D ∧ c ≠ 0x2B := by
  obtain ⟨c, cs, hcs⟩ := List.exists_cons_of_ne_nil (decimal_ne_nil n)
  obtain ⟨hlower, hupper⟩ := decimal_digit (hcs ▸ List.mem_cons_self : c ∈ decimal n)
  refine ⟨c, cs, hcs, ?_, ?_, ?_⟩
  · have hblank : c ≠ 0x20 := by
      rintro rfl
      exact absurd hlower (by decide)
    have hcontrol : ¬ c ≤ 0x0D := by
      rw [UInt8.le_iff_toNat_le]
      exact fun hle => absurd (hlower.trans hle) (by decide)
    simp [isSpace, hblank, hcontrol]
  · rintro rfl
    exact absurd hlower (by decide)
  · rintro rfl
    exact absurd hlower (by decide)

end Decimal

/-! ### Reading -/

section Reading

variable {directives : List Directive} {c : UInt8}

theorem scanf_literal (c : UInt8) (rest : Bytes) :
    scanf (.literal c :: directives) (c :: rest) = scanf directives rest := by
  simp [scanf, Directive.read]

theorem scanf_char (c : UInt8) (rest : Bytes) :
    scanf (.char :: directives) (c :: rest) = .char c :: scanf directives rest := by
  simp [scanf, Directive.read]

theorem scanf_blank {b : UInt8} (hb : isSpace b = true) (hc : isSpace c = false) (rest : Bytes) :
    scanf (.blank :: directives) (b :: c :: rest) = scanf directives (c :: rest) := by
  simp [scanf, Directive.read, hb, hc]

theorem scanf_set {p : UInt8 → Bool} {chars : Bytes} (hne : chars ≠ [])
    (hchars : ∀ b ∈ chars, p b = true) (hc : p c = false) (rest : Bytes) :
    scanf (.set p :: directives) (chars ++ c :: rest) =
      .text chars :: scanf directives (c :: rest) := by
  obtain ⟨htake, hdrop⟩ := takeWhile_append hchars hc rest
  simp [scanf, Directive.read, htake, hdrop, hne]

/-- A set needs one character at least. -/
theorem scanf_set_none {p : UInt8 → Bool} (hc : p c = false) (rest : Bytes) :
    scanf (.set p :: directives) (c :: rest) = [] := by
  simp [scanf, Directive.read, hc]

/-- A number is read back. -/
theorem scanf_int (n : Int) (hc : isDecimalDigit c = false) (rest : Bytes) :
    scanf (.int :: directives) (decimalInt n ++ c :: rest) =
      .int n :: scanf directives (c :: rest) := by
  rw [scanf, Directive.read, decimalInt]
  split_ifs with hneg
  · have hblank : isSpace 0x2D = false := by decide
    have habs : -(n.natAbs : Int) = n := by omega
    rw [List.cons_append, List.dropWhile_cons_of_neg (by simp [hblank])]
    simp only [readDigits_decimal true n.natAbs hc, if_true, habs, List.singleton_append]
  · obtain ⟨digit, digits, hdigits, hblank, hminus, hplus⟩ := head_decimal n.natAbs
    have habs : (n.natAbs : Int) = n := by omega
    have hread := readDigits_decimal false n.natAbs hc rest
    rw [hdigits, List.cons_append] at hread
    rw [hdigits, List.cons_append, List.dropWhile_cons_of_neg (by simp [hblank])]
    simp only [if_neg hminus, if_neg hplus, hread, habs, List.singleton_append]
    rfl

/-- A number begins with a digit or a minus. -/
theorem head_decimalInt (n : Int) : ∃ b bs, decimalInt n = b :: bs ∧ isSpace b = false := by
  rw [decimalInt]
  split_ifs
  · exact ⟨0x2D, _, rfl, by decide⟩
  · obtain ⟨b, bs, hbs, hblank, -⟩ := head_decimal n.natAbs
    exact ⟨b, bs, hbs, hblank⟩

theorem scanf_blank_int {b : UInt8} (hb : isSpace b = true) (n : Int)
    (hc : isDecimalDigit c = false) (rest : Bytes) :
    scanf (.blank :: .int :: directives) (b :: (decimalInt n ++ c :: rest)) =
      .int n :: scanf directives (c :: rest) := by
  obtain ⟨digit, digits, hdigits, hblank⟩ := head_decimalInt n
  have hint := @scanf_int directives c n hc rest
  rw [hdigits, List.cons_append] at hint ⊢
  rw [scanf_blank hb hblank, hint]

end Reading

end NjuOs.Lib
