import Mathlib.Data.Nat.Digits.Lemmas
import Mathlib.Tactic.IntervalCases
import Sbpfs.Wire.Head

/-!
# Numbers on the wire

The client writes numbers with `sprintf`, the control node reads them with `int()`. What a
decimal format writes is read back, with leading zeros or without; what `%04x` writes is
read as decimal.
-/
namespace Sbpfs.Wire.Number

open Sbpfs.Wire.Head

/-! ## Writing -/

def digitChar (d : Nat) : UInt8 := if d < 10 then UInt8.ofNat (0x30 + d) else UInt8.ofNat (0x57 + d)

/-- The digits of `n`, the most significant first. -/
def numeral (base n : Nat) : Str :=
  if n = 0 then [0x30] else (Nat.digits base n).reverse.map digitChar

def zeroPad (width : Nat) (s : Str) : Str := List.replicate (width - s.length) 0x30 ++ s

/-- `%0<width>d`; without a width it is `%d` or `%lld`. The sign counts for the width. -/
def decimal (width : Nat) (z : Int) : Str :=
  if z < 0 then 0x2d :: zeroPad (width - 1) (numeral 10 z.natAbs)
  else zeroPad width (numeral 10 z.natAbs)

/-- `%0<width>x`. -/
def hex (width n : Nat) : Str := zeroPad width (numeral 16 n)

/-! ## Reading -/

def isDigit (c : UInt8) : Bool := 0x30 ≤ c && c ≤ 0x39

/-- The number that the digits of `s` make behind those that made `acc`. -/
def digitsValue : Nat → Str → Option Nat
  | acc, [] => some acc
  | acc, c :: s => if isDigit c then digitsValue (10 * acc + (c.toNat - 0x30)) s else none

/-- `s.strip()`. -/
def strip (s : Str) : Str := ((s.dropWhile isSpace).reverse.dropWhile isSpace).reverse

def unsigned (s : Str) : Option Nat := if s = [] then none else digitsValue 0 s

/-- Python's `int(s)`, `none` for a ValueError. -/
def pyInt (s : Str) : Option Int :=
  match strip s with
  | 0x2d :: s => (unsigned s).map fun n : Nat => -(n : Int)
  | 0x2b :: s => (unsigned s).map Int.ofNat
  | s => (unsigned s).map Int.ofNat

/-- The digits at the start of `s`. -/
def leadingValue (s : Str) : Nat := (digitsValue 0 (s.takeWhile isDigit)).getD 0

/-- A long long keeps to its range. -/
def saturate (z : Int) : Int := max (-2 ^ 63) (min z (2 ^ 63 - 1))

/-- C's `atoll`: blanks, a sign, digits; what follows is not looked at. -/
def atoll (s : Str) : Int :=
  match s.dropWhile isSpace with
  | 0x2d :: s => saturate (-(leadingValue s : Int))
  | 0x2b :: s => saturate (leadingValue s)
  | s => saturate (leadingValue s)

/-! ## Reading what was written -/

theorem digitChar_lt {d : Nat} (h : d < 10) :
    isDigit (digitChar d) = true ∧ (digitChar d).toNat - 0x30 = d := by
  unfold digitChar
  rw [if_pos h]
  interval_cases d <;> decide

theorem digitsValue_append (acc : Nat) (s t : Str) :
    digitsValue acc (s ++ t) = (digitsValue acc s).bind fun v => digitsValue v t := by
  induction s generalizing acc with
  | nil => rfl
  | cons c s ih =>
    rw [List.cons_append, digitsValue, digitsValue]
    split
    · exact ih _
    · rfl

theorem digitsValue_digits (ds : List Nat) (hds : ∀ d ∈ ds, d < 10) :
    digitsValue 0 (ds.reverse.map digitChar) = some (Nat.ofDigits 10 ds) := by
  induction ds with
  | nil => rfl
  | cons d ds ih =>
    have hd := digitChar_lt (hds d (List.mem_cons_self ..))
    rw [List.reverse_cons, List.map_append, digitsValue_append,
      ih fun d hd => hds d (List.mem_cons_of_mem _ hd)]
    simp only [List.map_cons, List.map_nil, Option.bind_some, digitsValue, if_pos hd.1, hd.2,
      Nat.ofDigits_cons]
    congr 1
    omega

theorem digitsValue_numeral (n : Nat) : digitsValue 0 (numeral 10 n) = some n := by
  unfold numeral
  split
  · rename_i h
    rw [h]
    rfl
  · rw [digitsValue_digits _ fun d hd => Nat.digits_lt_base (by omega) hd, Nat.ofDigits_digits]

theorem digitsValue_zeroPad (width : Nat) (s : Str) :
    digitsValue 0 (zeroPad width s) = digitsValue 0 s := by
  have hzeros : ∀ k, digitsValue 0 (List.replicate k 0x30) = some 0 := by
    intro k
    induction k with
    | zero => rfl
    | succ k ih =>
      rw [List.replicate_succ, digitsValue, if_pos (by decide)]
      exact ih
  rw [zeroPad, digitsValue_append, hzeros]
  rfl

/-- A numeral is made of digits. -/
theorem numeral_digits {n : Nat} : ∀ c ∈ numeral 10 n, isDigit c = true := by
  intro c hc
  unfold numeral at hc
  split at hc
  · rw [List.mem_singleton.mp hc]
    decide
  · obtain ⟨d, hd, rfl⟩ := List.mem_map.mp hc
    exact (digitChar_lt (Nat.digits_lt_base (by omega) (List.mem_reverse.mp hd))).1

theorem numeral_ne (base n : Nat) : numeral base n ≠ [] := by
  unfold numeral
  split
  · exact List.cons_ne_nil _ _
  · rename_i h
    intro hnil
    have hdigits : Nat.digits base n = [] := by simpa using hnil
    exact h (Nat.digits_eq_nil_iff_eq_zero.mp hdigits)

theorem zeroPad_digits {width : Nat} {s : Str} (hs : ∀ c ∈ s, isDigit c = true) :
    ∀ c ∈ zeroPad width s, isDigit c = true := by
  intro c hc
  rcases List.mem_append.mp hc with hc | hc
  · rw [List.eq_of_mem_replicate hc]
    decide
  · exact hs c hc

theorem not_space_of_digit {c : UInt8} (h : isDigit c = true) : isSpace c = false := by
  simp only [isDigit, Bool.and_eq_true, decide_eq_true_eq] at h
  simp only [isSpace, Bool.or_eq_false_iff, decide_eq_false_iff_not, Bool.and_eq_false_iff]
  have h1 := UInt8.le_iff_toNat_le.mp h.1
  have h2 := UInt8.le_iff_toNat_le.mp h.2
  simp only [UInt8.reduceToNat] at h1 h2
  refine ⟨fun hc => ?_, .inr fun hc => ?_⟩
  · rw [hc] at h1
    exact absurd h1 (by decide)
  · have h3 := UInt8.le_iff_toNat_le.mp hc
    simp only [UInt8.reduceToNat] at h3
    omega

theorem dropWhile_of_head {s : Str} (h : ∀ c ∈ s.head?, isSpace c = false) :
    s.dropWhile isSpace = s := by
  cases s with
  | nil => rfl
  | cons c s => rw [List.dropWhile_cons_of_neg (by simp [h c rfl])]

/-- Nothing is cut off a text whose ends are not blank. -/
theorem strip_of_ends {s : Str} (hhead : ∀ c ∈ s.head?, isSpace c = false)
    (hlast : ∀ c ∈ s.getLast?, isSpace c = false) : strip s = s := by
  have hrev : ∀ c ∈ s.reverse.head?, isSpace c = false := by
    rw [List.head?_reverse]
    exact hlast
  rw [strip, dropWhile_of_head hhead, dropWhile_of_head hrev, List.reverse_reverse]

theorem pyInt_digits {s : Str} (hs : ∀ c ∈ s, isDigit c = true) (hne : s ≠ []) :
    pyInt s = (digitsValue 0 s).map Int.ofNat := by
  have hstrip : strip s = s :=
    strip_of_ends (fun c hc => not_space_of_digit (hs c (List.mem_of_head? hc)))
      fun c hc => not_space_of_digit (hs c (List.mem_of_getLast? hc))
  unfold pyInt
  rw [hstrip]
  split
  · exact absurd (hs 0x2d (List.mem_cons_self ..)) (by decide)
  · exact absurd (hs 0x2b (List.mem_cons_self ..)) (by decide)
  · rw [unsigned, if_neg hne]

theorem pyInt_minus {s : Str} (hs : ∀ c ∈ s, isDigit c = true) (hne : s ≠ []) :
    pyInt (0x2d :: s) = (digitsValue 0 s).map fun n : Nat => -(n : Int) := by
  have hstrip : strip (0x2d :: s) = 0x2d :: s := by
    refine strip_of_ends (fun c hc => ?_) fun c hc => ?_
    · cases hc
      decide
    · rw [List.getLast?_cons_of_ne_nil hne] at hc
      exact not_space_of_digit (hs c (List.mem_of_getLast? hc))
  have hvalue : unsigned s = digitsValue 0 s := if_neg hne
  unfold pyInt
  rw [hstrip]
  exact congrArg (Option.map _) hvalue

theorem zeroPad_ne {width : Nat} {s : Str} (h : s ≠ []) : zeroPad width s ≠ [] := by
  simp [zeroPad, h]

/-- `int()` reads back what a decimal format has written. -/
theorem pyInt_decimal (width : Nat) (z : Int) : pyInt (decimal width z) = some z := by
  have hne := numeral_ne 10 z.natAbs
  unfold decimal
  split
  · rw [pyInt_minus (zeroPad_digits numeral_digits) (zeroPad_ne hne), digitsValue_zeroPad,
      digitsValue_numeral, Option.map_some]
    congr 1
    omega
  · rw [pyInt_digits (zeroPad_digits numeral_digits) (zeroPad_ne hne), digitsValue_zeroPad,
      digitsValue_numeral, Option.map_some]
    congr 1
    exact Int.natAbs_of_nonneg (by omega)

/-- Of the modes that fit a byte, `int()` reads back just the ones with one decimal digit
from what `%04x` has written. -/
theorem pyInt_hex : ∀ n < 256, pyInt (hex 4 n) = some (n : Int) ↔ n < 10 := by decide +kernel

theorem takeWhile_digits {s : Str} (hs : ∀ c ∈ s, isDigit c = true) : s.takeWhile isDigit = s := by
  induction s with
  | nil => rfl
  | cons c s ih =>
    rw [List.takeWhile_cons_of_pos (hs c (List.mem_cons_self ..)),
      ih fun c hc => hs c (List.mem_cons_of_mem _ hc)]

theorem decimal_nat (n : Nat) : decimal 0 (n : Int) = numeral 10 n := by
  have hnot : ¬ (n : Int) < 0 := by omega
  rw [decimal, if_neg hnot, zeroPad, Nat.zero_sub]
  rfl

theorem leadingValue_numeral (n : Nat) : leadingValue (numeral 10 n) = n := by
  rw [leadingValue, takeWhile_digits numeral_digits, digitsValue_numeral]
  rfl

/-- `atoll` reads back what `%lld` has written of a number in range. -/
theorem atoll_decimal {n : Nat} (h : n < 2 ^ 63) : atoll (decimal 0 (n : Int)) = n := by
  have hdigits := @numeral_digits n
  have hskip : (numeral 10 n).dropWhile isSpace = numeral 10 n :=
    dropWhile_of_head fun c hc => not_space_of_digit (hdigits c (List.mem_of_head? hc))
  rw [decimal_nat]
  unfold atoll
  rw [hskip]
  split
  · rename_i hs
    rw [hs] at hdigits
    exact absurd (hdigits 0x2d (List.mem_cons_self ..)) (by decide)
  · rename_i hs
    rw [hs] at hdigits
    exact absurd (hdigits 0x2b (List.mem_cons_self ..)) (by decide)
  · rw [leadingValue_numeral, saturate]
    omega

/-- The same with a sign. -/
theorem atoll_decimal_int {z : Int} (h : -2 ^ 63 ≤ z) (h' : z < 2 ^ 63) :
    atoll (decimal 0 z) = z := by
  by_cases hz : z < 0
  · have htext : decimal 0 z = 0x2d :: numeral 10 z.natAbs := by
      rw [decimal, if_pos hz, zeroPad, Nat.zero_sub]
      rfl
    have hskip : (0x2d :: numeral 10 z.natAbs).dropWhile isSpace = 0x2d :: numeral 10 z.natAbs :=
      dropWhile_of_head fun c hc => by
        cases hc
        decide
    have hvalue : atoll (0x2d :: numeral 10 z.natAbs)
        = saturate (-(leadingValue (numeral 10 z.natAbs) : Int)) := by
      unfold atoll
      rw [hskip]
      rfl
    rw [htext, hvalue, leadingValue_numeral, saturate]
    omega
  · obtain ⟨n, rfl⟩ := Int.eq_ofNat_of_zero_le (Int.not_lt.mp hz)
    exact atoll_decimal (by omega)

theorem numeral_length {n k : Nat} (hk : 0 < k) (h : n < 10 ^ k) : (numeral 10 n).length ≤ k := by
  unfold numeral
  split
  · exact hk
  · rw [List.length_map, List.length_reverse]
    exact (Nat.digits_length_le_iff (by omega) n).mpr h

end Sbpfs.Wire.Number
