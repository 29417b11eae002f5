import Mathlib.Data.Nat.Count
import Sbpfs.Cfs.FatSpec

/-!
# When the search for a free slot ends

The writers look for a free slot, ask `extend` for the doubled image when there is none, and
look again, whatever `extend` has answered. The FAT need not be in order: behind the last usable
sector there may be anything.
-/
namespace Sbpfs.Cfs.FatLaws

open Sbpfs.Lib.Program Sbpfs.Lib.Memory
open Sbpfs.Cfs.Layout Sbpfs.Cfs.Rules Sbpfs.Cfs.Fat Sbpfs.Cfs.FatSpec

/-- The usable sectors of an image of `size` bytes. -/
def fatNumOf (size : Nat) : Nat := size / 512 - 1 - (4 * (size / 512) + 511) / 512

/-- The slots as the image will have them after it has grown. -/
def grownFat (dt : Dtree) : Nat → Nat := fun i => if i < dt.slots then dt.fat i else FREESEC

/-- A size that doubling makes of the initial one. -/
structure Doubled (dt : Dtree) : Prop where
  sized : Sized dt
  size : ∃ e, dt.dtSize = INIT_MAX * 2 ^ e

/-- An image of `size` bytes grown from `dt` has a free slot at or behind `base`. -/
def FreeAt (dt : Dtree) (base size : Nat) : Prop :=
  ∃ k, base ≤ k ∧ k < fatNumOf size ∧ grownFat dt k = FREESEC

/-- How many of the next `m` calls of `malloc` in `extend` succeed. -/
def successes (env : Env) (m : Nat) : Nat := Nat.count (fun i => (env.heap .extend i).isSome) m

variable {w w' : World} {dt : Dtree} {base k n : Nat}

theorem fatNum_eq (h : Sized dt) : dt.sb.fatNum = fatNumOf dt.dtSize := by
  have he := h.exact
  have hf := h.fatSec
  unfold fatNumOf
  omega

/-- Doubling stops at 2^31 bytes. -/
theorem Doubled.le (h : Doubled dt) : dt.dtSize ≤ 2 ^ 31 := by
  obtain ⟨e, he⟩ := h.size
  have hlt := h.sized.lt
  have hexp : e ≤ 16 := by
    by_contra hgt
    have : 2 ^ 17 ≤ 2 ^ e := Nat.pow_le_pow_right (by decide) (by omega)
    simp only [INIT_MAX] at he
    omega
  have : 2 ^ e ≤ 2 ^ 16 := Nat.pow_le_pow_right (by decide) hexp
  simp only [INIT_MAX] at he
  omega

/-- A slot that is in use on the image stays as it is. -/
theorem grownFat_of_lt (h : Sized dt) (hk : k < dt.sb.fatNum) : grownFat dt k = dt.fat k :=
  if_pos (hk.trans h.fatNum_lt_slots)

theorem successes_pop (env : Env) (m : Nat) :
    successes env (m + 1)
      = successes (env.pop .extend) m + if (env.heap .extend 0).isSome then 1 else 0 :=
  Nat.count_succ' _ m

/-! ## One round -/

/-- The image that `extend` makes of `dt` in the block `junk` of twice the size. -/
def doubledImage (dt : Dtree) (junk : Bytes) : Dtree :=
  let newsize := dt.dtSize * 2
  let totSecNum := u32 (newsize / BYTSPERSEC)
  let fatSize := u32 (totSecNum * 4)
  grownImage dt newsize fatSize (u32 (fatSize + BYTSPERSEC - 1) / BYTSPERSEC) totSecNum junk

/-- What `extend` does. -/
theorem extend_eq (newsize : Nat) (w : World) :
    extend newsize w
      = if w.dt.dtSize ≥ newsize then .ok (1, w)
        else match w.env.heap .extend 0 with
          | none => .ok (-9, { w with env := w.env.pop .extend })
          | some junk =>
            let totSecNum := u32 (newsize / BYTSPERSEC)
            let fatSize := u32 (totSecNum * 4)
            .ok (0, { w with
              env := w.env.pop .extend
              dt := grownImage w.dt newsize fatSize (u32 (fatSize + BYTSPERSEC - 1) / BYTSPERSEC)
                totSecNum junk }) := by
  have hget : getDt w = .ok (w.dt, w) := rfl
  unfold extend
  rw [bind_run hget]
  by_cases hsize : w.dt.dtSize ≥ newsize
  · rw [if_pos hsize, if_pos hsize]
    rfl
  · rw [if_neg hsize, if_neg hsize]
    cases hm : w.env.heap .extend 0 with
    | none =>
      have hfull : malloc .extend newsize w = .ok (none, { w with env := w.env.pop .extend }) := by
        show Except.ok ((w.env.heap .extend 0).map _, _) = _
        rw [hm]
        rfl
      rw [bind_run hfull]
      rfl
    | some junk =>
      have hblock : malloc .extend newsize w
          = .ok (some ⟨newsize, junk⟩, { w with env := w.env.pop .extend }) := by
        show Except.ok ((w.env.heap .extend 0).map _, _) = _
        rw [hm]
        rfl
      rw [bind_run hblock]
      rfl

/-- The doubled size is 0 in 32 bits, so `extend` has nothing to do. -/
theorem extend_at_limit (h : w.dt.dtSize = 2 ^ 31) :
    extend (u32 (w.dt.dtSize * 2)) w = .ok (1, w) := by
  have hzero : u32 (w.dt.dtSize * 2) = 0 := by
    rw [h]
    rfl
  rw [hzero, extend_eq, if_pos (Nat.zero_le _)]

/-- Below the limit `extend` asks for the doubled size. -/
theorem extend_below (hpos : 0 < w.dt.dtSize) (hlt : w.dt.dtSize < 2 ^ 31) :
    extend (u32 (w.dt.dtSize * 2)) w
      = match w.env.heap .extend 0 with
        | none => .ok (-9, { w with env := w.env.pop .extend })
        | some junk =>
          .ok (0, { w with env := w.env.pop .extend, dt := doubledImage w.dt junk }) := by
  have hexact : u32 (w.dt.dtSize * 2) = w.dt.dtSize * 2 := Nat.mod_eq_of_lt (by omega)
  have hmore : ¬ w.dt.dtSize ≥ w.dt.dtSize * 2 := by omega
  rw [hexact, extend_eq, if_neg hmore]
  rfl

theorem doubledImage_doubled (h : Doubled dt) (hlt : dt.dtSize < 2 ^ 31) (junk : Bytes) :
    Doubled (doubledImage dt junk) ∧ (doubledImage dt junk).dtSize = dt.dtSize * 2
      ∧ grownFat (doubledImage dt junk) = grownFat dt := by
  obtain ⟨e, he⟩ := h.size
  have hexact := h.sized.exact
  have hsec : dt.dtSize * 2 = dt.dtSize / 512 * 2 * 512 := by omega
  have hsize : (doubledImage dt junk).dtSize = dt.dtSize * 2 := Nat.mod_eq_of_lt (by omega)
  have hgrown := grown_sized h.sized (N := dt.dtSize / 512 * 2) (by omega) (by omega) junk
  rw [← hsec] at hgrown
  have hslots : dt.slots ≤ (doubledImage dt junk).slots := by
    have h1 := h.sized.fatSec
    have h2 := hgrown.1.fatSec
    have h3 : (doubledImage dt junk).sb.fatSecNum
        = (4 * ((doubledImage dt junk).dtSize / 512) + 511) / 512 := h2
    simp only [Dtree.slots, BYTSPERSEC]
    omega
  refine ⟨⟨hgrown.1, e + 1, ?_⟩, hsize, ?_⟩
  · rw [hsize, he, pow_succ, Nat.mul_assoc]
  · funext i
    by_cases hi : i < dt.slots
    · exact if_pos (hi.trans_le hslots)
    · by_cases hi' : i < (doubledImage dt junk).slots
      · exact (if_pos hi').trans rfl
      · exact (if_neg hi').trans (if_neg hi).symm

/-- One round of the search. -/
theorem findSlot_succ (base n : Nat) (w : World) :
    findSlot base (n + 1) w
      = match nextFreeFat base w.dt.fat w.dt.sb.fatNum with
        | some next => .ok (next, w)
        | none => (extend (u32 (w.dt.dtSize * 2)) >>= fun _ => findSlot base n) w := by
  show (match nextFreeFat base w.dt.fat w.dt.sb.fatNum with
    | some next => (pure next : CM Nat)
    | none => extend (u32 (w.dt.dtSize * 2)) >>= fun _ => findSlot base n) w = _
  cases nextFreeFat base w.dt.fat w.dt.sb.fatNum <;> rfl

/-- What the search returns at once is a free slot of the image as it is. -/
theorem freeAt_of_some (h : Sized w.dt)
    (hfound : nextFreeFat base w.dt.fat w.dt.sb.fatNum = some k) :
    FreeAt w.dt base w.dt.dtSize := by
  obtain ⟨hbase, hlt, hfree, -⟩ := nextFreeFat_some hfound
  exact ⟨k, hbase, fatNum_eq h ▸ hlt, (grownFat_of_lt h hlt).trans hfree⟩

theorem not_freeAt_of_none (h : Sized w.dt)
    (hnone : nextFreeFat base w.dt.fat w.dt.sb.fatNum = none) :
    ¬ FreeAt w.dt base w.dt.dtSize := by
  intro hfree
  obtain ⟨k, hbase, hlt, hk⟩ := hfree
  rw [← fatNum_eq h] at hlt
  rw [grownFat_of_lt h hlt] at hk
  exact nextFreeFatFrom_none hnone k hbase (by omega) hk

/-! ## The whole search -/

/-- Enough of the allocations succeed for the image to grow to a size with a free slot. -/
def Settles (w : World) (base : Nat) : Prop :=
  ∃ j m, w.dt.dtSize * 2 ^ j ≤ 2 ^ 31 ∧ FreeAt w.dt base (w.dt.dtSize * 2 ^ j)
    ∧ j ≤ successes w.env m

/-- A search that returns has found what it needs. The induction is on its rounds. -/
theorem settles_of_ok (h : Doubled w.dt) (hok : findSlot base n w = .ok (k, w')) :
    Settles w base := by
  induction n generalizing w with
  | zero => cases hok
  | succ n ih =>
    have hsmall := h.le
    have hexact := h.sized.exact
    rw [findSlot_succ] at hok
    cases hfound : nextFreeFat base w.dt.fat w.dt.sb.fatNum with
    | some next =>
      refine ⟨0, 0, ?_, ?_, Nat.zero_le _⟩
      · rwa [pow_zero, Nat.mul_one]
      · rw [pow_zero, Nat.mul_one]
        exact freeAt_of_some h.sized hfound
    | none =>
      rw [hfound] at hok
      obtain ⟨r, w₁, hext, hrest⟩ := bind_ok.mp hok
      rcases Nat.lt_or_eq_of_le hsmall with hlt | hlimit
      · rw [extend_below (by omega) hlt] at hext
        cases hm : w.env.heap .extend 0 with
        | none =>
          rw [hm] at hext
          cases hext
          obtain ⟨j, m, hsize, hfree, hcount⟩ :=
            ih (w := { w with env := w.env.pop .extend }) h hrest
          refine ⟨j, m + 1, hsize, hfree, ?_⟩
          rw [successes_pop]
          exact Nat.le_add_right_of_le hcount
        | some junk =>
          rw [hm] at hext
          cases hext
          obtain ⟨hdoubled, hdouble, hfat⟩ := doubledImage_doubled h hlt junk
          obtain ⟨j, m, hsize, hfree, hcount⟩ := ih hdoubled hrest
          have hpow : (doubledImage w.dt junk).dtSize * 2 ^ j = w.dt.dtSize * 2 ^ (j + 1) := by
            rw [hdouble, Nat.mul_assoc, ← pow_succ']
          refine ⟨j + 1, m + 1, ?_, ?_, ?_⟩
          · rw [← hpow]
            exact hsize
          · obtain ⟨i, hbase, hi, hzero⟩ := hfree
            exact ⟨i, hbase, hpow ▸ hi, hfat ▸ hzero⟩
          · rw [successes_pop, hm]
            exact Nat.succ_le_succ hcount
      · rw [extend_at_limit hlimit] at hext
        cases hext
        exact ih h hrest

/-- A search that has what it needs returns. The induction is on the allocations. -/
theorem ok_of_settles {j m : Nat} (h : Doubled w.dt) (hsize : w.dt.dtSize * 2 ^ j ≤ 2 ^ 31)
    (hfree : FreeAt w.dt base (w.dt.dtSize * 2 ^ j)) (hcount : j ≤ successes w.env m) :
    ∃ n k w', findSlot base n w = .ok (k, w') ∧ base ≤ k ∧ k < w'.dt.sb.fatNum
      ∧ w'.dt.fat k = FREESEC := by
  induction m generalizing w j with
  | zero =>
    obtain rfl : j = 0 := Nat.le_zero.mp hcount
    rw [pow_zero, Nat.mul_one] at hfree
    cases hfound : nextFreeFat base w.dt.fat w.dt.sb.fatNum with
    | some next =>
      obtain ⟨hbase, hlt, hzero, -⟩ := nextFreeFat_some hfound
      refine ⟨1, next, w, ?_, hbase, hlt, hzero⟩
      rw [findSlot_succ, hfound]
    | none => exact absurd hfree (not_freeAt_of_none h.sized hfound)
  | succ m ih =>
    have hexact := h.sized.exact
    cases hfound : nextFreeFat base w.dt.fat w.dt.sb.fatNum with
    | some next =>
      obtain ⟨hbase, hlt, hzero, -⟩ := nextFreeFat_some hfound
      refine ⟨1, next, w, ?_, hbase, hlt, hzero⟩
      rw [findSlot_succ, hfound]
    | none =>
      cases j with
      | zero =>
        rw [pow_zero, Nat.mul_one] at hfree
        exact absurd hfree (not_freeAt_of_none h.sized hfound)
      | succ j =>
        have hpos : 0 < 2 ^ j := Nat.two_pow_pos j
        have hlt : w.dt.dtSize < 2 ^ 31 := by
          rw [pow_succ', ← Nat.mul_assoc] at hsize
          have : w.dt.dtSize * 2 ≤ w.dt.dtSize * 2 * 2 ^ j := Nat.le_mul_of_pos_right _ hpos
          omega
        rw [successes_pop] at hcount
        cases hm : w.env.heap .extend 0 with
        | none =>
          rw [hm] at hcount
          obtain ⟨n, k, w', hok, hslot⟩ :=
            ih (w := { w with env := w.env.pop .extend }) h hsize hfree hcount
          refine ⟨n + 1, k, w', ?_, hslot⟩
          rw [findSlot_succ, hfound]
          refine bind_ok.mpr ⟨-9, { w with env := w.env.pop .extend }, ?_, hok⟩
          rw [extend_below (by omega) hlt, hm]
        | some junk =>
          rw [hm] at hcount
          obtain ⟨hdoubled, hdouble, hfat⟩ := doubledImage_doubled h hlt junk
          have hpow : (doubledImage w.dt junk).dtSize * 2 ^ j = w.dt.dtSize * 2 ^ (j + 1) := by
            rw [hdouble, Nat.mul_assoc, ← pow_succ']
          have hfree' : FreeAt (doubledImage w.dt junk) base
              ((doubledImage w.dt junk).dtSize * 2 ^ j) := by
            obtain ⟨i, hbase, hi, hzero⟩ := hfree
            exact ⟨i, hbase, hpow.symm ▸ hi, hfat.symm ▸ hzero⟩
          obtain ⟨n, k, w', hok, hslot⟩ :=
            ih (w := { w with env := w.env.pop .extend, dt := doubledImage w.dt junk }) hdoubled
              (hpow ▸ hsize) hfree' (Nat.le_of_succ_le_succ hcount)
          refine ⟨n + 1, k, w', ?_, hslot⟩
          rw [findSlot_succ, hfound]
          refine bind_ok.mpr
            ⟨0, { w with env := w.env.pop .extend, dt := doubledImage w.dt junk }, ?_, hok⟩
          rw [extend_below (by omega) hlt, hm]

/-- The search ends, and then with a free slot, just when the image has one or can grow to a
size up to 2^31 bytes that has one with the allocations that succeed. -/
theorem findSlot_ends_iff (h : Doubled w.dt) :
    (∃ n k w', findSlot base n w = .ok (k, w') ∧ base ≤ k ∧ k < w'.dt.sb.fatNum
      ∧ w'.dt.fat k = FREESEC) ↔ Settles w base := by
  constructor
  · intro hends
    obtain ⟨n, k, w', hok, -⟩ := hends
    exact settles_of_ok h hok
  · intro hsettles
    obtain ⟨j, m, hsize, hfree, hcount⟩ := hsettles
    exact ok_of_settles h hsize hfree hcount

/-- An image of `size` bytes that has the given FAT, with a heap that answers as given. -/
def diskOf (size : Nat) (fat : Nat → Nat) (heap : Nat → Option Bytes) : World where
  dt := {
    sb := ⟨size / 512, (4 * (size / 512) + 511) / 512, fatNumOf size, 0⟩
    fat := fat
    data := fun _ _ => 0
    dtSize := size }
  ipIndex := 0
  env := { now := 0, fuel := 0, heap := fun _ => heap, stray := fun _ => 0 }

/-- A full disk of the initial size and a heap that fails once: the search takes the first slot
of the grown image. -/
theorem findSlot_ends_grown :
    ∃ n k w', findSlot 0 n (diskOf INIT_MAX (fun i => if i < 62 then ENDSEC else FREESEC)
        fun i => if i = 0 then none else some fun _ => 0) = .ok (k, w')
      ∧ 0 ≤ k ∧ k < w'.dt.sb.fatNum ∧ w'.dt.fat k = FREESEC := by
  have hsettles : Settles (diskOf INIT_MAX (fun i => if i < 62 then ENDSEC else FREESEC)
      fun i => if i = 0 then none else some fun _ => 0) 0 :=
    ⟨1, 2, by decide, ⟨62, by decide, by decide, by decide⟩, by decide⟩
  exact (findSlot_ends_iff ⟨⟨by decide, by decide, by decide⟩, 0, rfl⟩).mpr hsettles

/-- Without a free slot and without a larger image the search is where it was. -/
theorem findSlot_stuck {w : World} {r : Int} (hfull : ∀ i, w.dt.fat i ≠ FREESEC)
    (hext : extend (u32 (w.dt.dtSize * 2)) w = .ok (r, w)) (n : Nat) :
    findSlot base n w = .error .hang := by
  induction n with
  | zero => rfl
  | succ n ih =>
    rw [findSlot_succ]
    cases hfound : nextFreeFat base w.dt.fat w.dt.sb.fatNum with
    | some next => exact absurd (nextFreeFat_some hfound).2.2.1 (hfull next)
    | none =>
      show (extend (u32 (w.dt.dtSize * 2)) w >>= fun p => findSlot base n p.2) = _
      rw [hext]
      exact ih

/-- A full disk on which the search goes on for ever: one of the initial size when there is no
memory, and one of 2^31 bytes whatever memory there is. -/
theorem findSlot_never_ends :
    (∀ n, findSlot 0 n (diskOf INIT_MAX (fun _ => ENDSEC) fun _ => none) = .error .hang) ∧
      ∀ n, findSlot 0 n (diskOf (2 ^ 31) (fun _ => ENDSEC) fun _ => some fun _ => 0)
        = .error .hang := by
  constructor
  · refine findSlot_stuck (fun _ => (by decide : ENDSEC ≠ FREESEC)) (r := -9) ?_
    have hpop : (diskOf INIT_MAX (fun _ => ENDSEC) fun _ => none).env.pop .extend
        = (diskOf INIT_MAX (fun _ => ENDSEC) fun _ => none).env := by
      simp [Env.pop, diskOf]
    rw [extend_below (by decide) (by decide), hpop]
    rfl
  · exact findSlot_stuck (fun _ => (by decide : ENDSEC ≠ FREESEC)) (extend_at_limit rfl)

end Sbpfs.Cfs.FatLaws
