import Mathlib.Tactic.Common
import Mathlib.Tactic.Ring
import Mathlib.Algebra.Order.Ring.Nat

/-!
# Byte memories and little-endian fields

A byte memory is a total function from offsets to bytes. Fields are read and
written at an offset with a width in bytes; blocks are copied with `blit`. The
lemmas say which reads see which writes.
-/
namespace Sbpfs.Lib.Memory

abbrev Bytes := Nat → UInt8

/-- Byte `k` of the little-endian form of `v`. -/
def leByte (v k : Nat) : UInt8 := UInt8.ofNat (v / 256 ^ k)

def getLE (b : Bytes) (off : Nat) : Nat → Nat
  | 0 => 0
  | n + 1 => (b off).toNat + 256 * getLE b (off + 1) n

def putLE (b : Bytes) (off n v : Nat) : Bytes :=
  fun i => if off ≤ i ∧ i < off + n then leByte v (i - off) else b i

/-- Copy `n` bytes of `src` from `soff` over `dst` at `doff`. -/
def blit (dst : Bytes) (doff : Nat) (src : Bytes) (soff n : Nat) : Bytes :=
  fun i => if doff ≤ i ∧ i < doff + n then src (soff + (i - doff)) else dst i

/-- The two memories hold the same bytes on `[off, off + n)`. -/
def Agree (b b' : Bytes) (off n : Nat) : Prop :=
  ∀ i, off ≤ i → i < off + n → b i = b' i

theorem Agree.mono {b b' : Bytes} {off n off' n' : Nat} (h : Agree b b' off n)
    (hl : off ≤ off') (hu : off' + n' ≤ off + n) : Agree b b' off' n' :=
  fun i h1 h2 => h i (by omega) (by omega)

theorem Agree.symm {b b' : Bytes} {off n : Nat} (h : Agree b b' off n) : Agree b' b off n :=
  fun i h1 h2 => (h i h1 h2).symm

theorem Agree.trans {b b' b'' : Bytes} {off n : Nat} (h : Agree b b' off n)
    (h' : Agree b' b'' off n) : Agree b b'' off n :=
  fun i h1 h2 => (h i h1 h2).trans (h' i h1 h2)

theorem Agree.refl (b : Bytes) (off n : Nat) : Agree b b off n := fun _ _ _ => rfl

theorem getLE_congr {b b' : Bytes} {off n : Nat} (h : Agree b b' off n) :
    getLE b off n = getLE b' off n := by
  induction n generalizing off with
  | zero => rfl
  | succ n ih =>
    rw [getLE, getLE, h off (by omega) (by omega), ih (h.mono (by omega) (by omega))]

theorem getLE_lt (b : Bytes) (off n : Nat) : getLE b off n < 256 ^ n := by
  induction n generalizing off with
  | zero => simp [getLE]
  | succ n ih =>
    have hb : (b off).toNat < 256 := (b off).toNat_lt
    have ht := ih (off + 1)
    rw [getLE, pow_succ]
    omega

theorem leByte_succ (v k : Nat) : leByte v (k + 1) = leByte (v / 256) k := by
  unfold leByte
  rw [pow_succ, Nat.mul_comm, Nat.div_div_eq_div_mul]

theorem leByte_zero_toNat (v : Nat) : (leByte v 0).toNat = v % 256 := by
  simp [leByte]

/-- A field whose bytes are the little-endian form of `v` reads as `v`. -/
theorem getLE_of_leByte {b : Bytes} {off n v : Nat}
    (h : ∀ k, k < n → b (off + k) = leByte v k) : getLE b off n = v % 256 ^ n := by
  induction n generalizing off v with
  | zero => simp [getLE, Nat.mod_one]
  | succ n ih =>
    have hhead : b off = leByte v 0 := h 0 (by omega)
    have htail : ∀ k, k < n → b (off + 1 + k) = leByte (v / 256) k := by
      intro k hk
      rw [← leByte_succ, ← h (k + 1) (by omega)]
      congr 1
      omega
    rw [getLE, hhead, leByte_zero_toNat, ih htail, pow_succ, Nat.mul_comm (256 ^ n),
      Nat.mod_mul]

theorem getLE_putLE_same (b : Bytes) (off n v : Nat) :
    getLE (putLE b off n v) off n = v % 256 ^ n := by
  apply getLE_of_leByte
  intro k hk
  unfold putLE
  rw [if_pos (by omega)]
  congr 1
  omega

/-- The value written is read back when it fits the field. -/
theorem getLE_putLE {b : Bytes} {off n v : Nat} (hv : v < 256 ^ n) :
    getLE (putLE b off n v) off n = v := by
  rw [getLE_putLE_same, Nat.mod_eq_of_lt hv]

theorem putLE_outside {b : Bytes} {off n v i : Nat} (h : i < off ∨ off + n ≤ i) :
    putLE b off n v i = b i := by
  unfold putLE
  rw [if_neg (by omega)]

theorem putLE_agree {b : Bytes} {off n v off' n' : Nat} (h : off' + n' ≤ off ∨ off + n ≤ off') :
    Agree (putLE b off n v) b off' n' :=
  fun i h1 h2 => putLE_outside (by omega)

theorem getLE_putLE_ne {b : Bytes} {off n v off' n' : Nat}
    (h : off' + n' ≤ off ∨ off + n ≤ off') :
    getLE (putLE b off n v) off' n' = getLE b off' n' :=
  getLE_congr (putLE_agree h)

theorem blit_inside {dst src : Bytes} {doff soff n i : Nat} (h : doff ≤ i) (h' : i < doff + n) :
    blit dst doff src soff n i = src (soff + (i - doff)) := by
  unfold blit
  rw [if_pos ⟨h, h'⟩]

theorem blit_outside {dst src : Bytes} {doff soff n i : Nat} (h : i < doff ∨ doff + n ≤ i) :
    blit dst doff src soff n i = dst i := by
  unfold blit
  rw [if_neg (by omega)]

theorem blit_agree_outside {dst src : Bytes} {doff soff n off' n' : Nat}
    (h : off' + n' ≤ doff ∨ doff + n ≤ off') : Agree (blit dst doff src soff n) dst off' n' :=
  fun i h1 h2 => blit_outside (by omega)

theorem getLE_blit_outside {dst src : Bytes} {doff soff n off' n' : Nat}
    (h : off' + n' ≤ doff ∨ doff + n ≤ off') :
    getLE (blit dst doff src soff n) off' n' = getLE dst off' n' :=
  getLE_congr (blit_agree_outside h)

/-- Fields whose bytes agree are equal, wherever they lie. -/
theorem getLE_shift {b b' : Bytes} {off off' n : Nat}
    (h : ∀ k, k < n → b (off + k) = b' (off' + k)) : getLE b off n = getLE b' off' n := by
  induction n generalizing off off' with
  | zero => rfl
  | succ n ih =>
    rw [getLE, getLE, show b off = b' off' from h 0 (by omega), ih]
    intro k hk
    rw [show off + 1 + k = off + (k + 1) from by omega,
      show off' + 1 + k = off' + (k + 1) from by omega]
    exact h (k + 1) (by omega)

/-- A field inside the copied block is the field of the source. -/
theorem getLE_blit_inside {dst src : Bytes} {doff soff n off' n' : Nat} (h : doff ≤ off')
    (h' : off' + n' ≤ doff + n) :
    getLE (blit dst doff src soff n) off' n' = getLE src (soff + (off' - doff)) n' := by
  refine getLE_shift fun k hk => ?_
  rw [blit_inside (by omega) (by omega)]
  congr 1
  omega

/-- Copying through a scratch block copies the source. -/
theorem blit_through (dst tmp src : Bytes) (doff soff n : Nat) :
    blit dst doff (blit tmp 0 src soff n) 0 n = blit dst doff src soff n := by
  funext i
  by_cases h : doff ≤ i ∧ i < doff + n
  · rw [blit_inside h.1 h.2, blit_inside h.1 h.2, blit_inside (by omega) (by omega)]
    congr 1
    omega
  · rw [blit_outside (by omega), blit_outside (by omega)]

/-- The bytes of a field are those of the number it holds. -/
theorem leByte_getLE {b : Bytes} {off n k : Nat} (h : k < n) :
    leByte (getLE b off n) k = b (off + k) := by
  induction n generalizing off k with
  | zero => exact absurd h (Nat.not_lt_zero k)
  | succ n ih =>
    have hb : (b off).toNat < 256 := (b off).toNat_lt
    rw [getLE]
    cases k with
    | zero =>
      refine UInt8.toNat_inj.mp ?_
      rw [leByte_zero_toNat, Nat.add_zero off]
      omega
    | succ k =>
      have hdiv : ((b off).toNat + 256 * getLE b (off + 1) n) / 256
        = getLE b (off + 1) n := by omega
      rw [leByte_succ, hdiv, ih (Nat.lt_of_succ_lt_succ h)]
      congr 1
      omega

/-- Storing what a field holds already changes nothing. -/
theorem putLE_getLE {b b' : Bytes} {off n : Nat} (h : Agree b b' off n) :
    putLE b off n (getLE b' off n) = b := by
  funext i
  unfold putLE
  by_cases hi : off ≤ i ∧ i < off + n
  · rw [if_pos hi, leByte_getLE (by omega), h i hi.1 hi.2]
    congr 1
    omega
  · rw [if_neg hi]

theorem putLE_byte (b : Bytes) (off : Nat) (v : UInt8) : putLE b off 1 v.toNat off = v := by
  unfold putLE
  rw [if_pos (by omega), Nat.sub_self]
  simp [leByte]

end Sbpfs.Lib.Memory
