import Mathlib.Data.List.Basic
import Mathlib.Tactic.Common
import Mathlib.Algebra.Order.Ring.Nat

/-!
# Numbers as strings of bytes

Little-endian fields of fixed width, and the pieces of a string made of pieces of one length.
-/
namespace Sbpfs.Lib.Pack

/-- The number in a field. -/
def ofLE : List UInt8 → Nat
  | [] => 0
  | c :: s => c.toNat + 256 * ofLE s

/-- The field of `n` bytes with the number `v`. -/
def toLE : Nat → Nat → List UInt8
  | 0, _ => []
  | n + 1, v => UInt8.ofNat (v % 256) :: toLE n (v / 256)

@[simp] theorem length_toLE (n v : Nat) : (toLE n v).length = n := by
  induction n generalizing v with
  | zero => rfl
  | succ n ih =>
    rw [toLE, List.length_cons, ih]

/-- Unpacked and packed again, a field is what it was. -/
theorem toLE_ofLE (s : List UInt8) : toLE s.length (ofLE s) = s := by
  induction s with
  | nil => rfl
  | cons c s ih =>
    have hc : c.toNat < 256 := c.toNat_lt
    have hlow : (c.toNat + 256 * ofLE s) % 256 = c.toNat := by omega
    have hhigh : (c.toNat + 256 * ofLE s) / 256 = ofLE s := by omega
    rw [List.length_cons, ofLE, toLE, hlow, hhigh, ih, UInt8.ofNat_toNat]

/-- A field holds its number up to the width of the field. -/
theorem ofLE_toLE (n v : Nat) : ofLE (toLE n v) = v % 256 ^ n := by
  induction n generalizing v with
  | zero =>
    rw [pow_zero, Nat.mod_one]
    rfl
  | succ n ih =>
    rw [toLE, ofLE, ih, UInt8.toNat_ofNat_of_lt' (Nat.mod_lt _ (by decide)), pow_succ',
      Nat.mod_mul]

theorem toLE_zero (n : Nat) : toLE n 0 = List.replicate n 0 := by
  induction n with
  | zero => rfl
  | succ n ih =>
    rw [toLE, Nat.zero_div, ih, List.replicate_succ]
    rfl

/-! ## Pieces -/

variable {α : Type}

/-- The `n` elements from `off` on. -/
def slice (s : List α) (off n : Nat) : List α := (s.drop off).take n

theorem length_slice {s : List α} {off n : Nat} (h : off + n ≤ s.length) :
    (slice s off n).length = n := by
  unfold slice
  rw [List.length_take, List.length_drop]
  omega

theorem slice_add (s : List α) (off m k : Nat) :
    slice s off (m + k) = slice s off m ++ slice s (off + m) k := by
  unfold slice
  rw [List.take_add, List.drop_drop]

/-- A field that lies in the first part. -/
theorem slice_append_left {s t : List α} {off n : Nat} (h : off + n ≤ s.length) :
    slice (s ++ t) off n = slice s off n := by
  unfold slice
  rw [List.drop_append_of_le_length (by omega),
    List.take_append_of_le_length (by rw [List.length_drop]; omega)]

theorem slice_append_right {s t : List α} {off n : Nat} (h : s.length ≤ off) :
    slice (s ++ t) off n = slice t (off - s.length) n := by
  unfold slice
  rw [List.drop_append, List.drop_eq_nil_of_le h, List.nil_append]

/-- The first field, all of its width. -/
theorem slice_append_self (s t : List α) : slice (s ++ t) 0 s.length = s := by
  unfold slice
  rw [List.drop_zero, List.take_left]

/-- Piece `i` of pieces of length `m`. -/
theorem slice_flatten {pieces : List (List α)} {m : Nat} (h : ∀ p ∈ pieces, p.length = m) {i : Nat}
    {p : List α} (hp : pieces[i]? = some p) : slice pieces.flatten (m * i) m = p := by
  induction pieces generalizing i with
  | nil => cases hp
  | cons q pieces ih =>
    have hq : q.length = m := h q (List.mem_cons_self ..)
    rw [List.flatten_cons]
    cases i with
    | zero =>
      cases hp
      rw [Nat.mul_zero, ← hq, slice_append_self]
    | succ i =>
      rw [slice_append_right (by rw [hq, Nat.mul_succ]; omega), hq, Nat.mul_succ,
        Nat.add_sub_cancel]
      exact ih (fun p hp => h p (List.mem_cons_of_mem _ hp)) hp

theorem length_flatten {pieces : List (List α)} {m : Nat} (h : ∀ p ∈ pieces, p.length = m) :
    pieces.flatten.length = m * pieces.length := by
  induction pieces with
  | nil => rfl
  | cons q pieces ih =>
    rw [List.flatten_cons, List.length_append, h q (List.mem_cons_self ..),
      ih fun p hp => h p (List.mem_cons_of_mem _ hp), List.length_cons, Nat.mul_succ]
    omega

end Sbpfs.Lib.Pack
