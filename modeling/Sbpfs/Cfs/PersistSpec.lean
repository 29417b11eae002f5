import Sbpfs.Cfs.Mkfs
import Sbpfs.Cfs.Persist

/-!
# A saved image holds what the disk held

A disk holds the same tree after its image has been grown, and after the image has been
saved and mounted again.
-/
namespace Sbpfs.Cfs.PersistSpec

open Sbpfs.Lib.Program Sbpfs.Lib.Memory Sbpfs.Lib.Chain
open Sbpfs.Cfs.Layout Sbpfs.Cfs.Rules Sbpfs.Cfs.FatSpec Sbpfs.Cfs.FileSpec Sbpfs.Cfs.DiskStore
open Sbpfs.Cfs.Persist Sbpfs.Spec.FileTree

variable {dt dt' : Dtree} {fs : Fs} {chain : Nat → List Nat}

/-- A disk with the same slots and the same bytes in the old sectors holds the same tree. -/
theorem Store.transfer (h : Store dt fs chain) (hs : Sized dt')
    (hnum : dt.sb.fatNum ≤ dt'.sb.fatNum) (hfat : dt'.fat = dt.fat)
    (hdata : ∀ k, k < dt.sb.fatNum → Agree (dt'.data k) (dt.data k) 0 512) :
    Store dt' fs chain where
  sized := hs
  topFree := fun i hi => by
    rw [hfat]
    exact h.topFree i (hnum.trans hi)
  usable := h.usable.trans_le hnum
  reserved := by
    rw [hfat]
    exact h.reserved
  rootEntry := by
    have hagree := hdata 0 h.usable
    have hname : entryName (dt'.data 0) 0 = entryName (dt.data 0) 0 :=
      getLE_congr (hagree.mono (by omega) (by omega))
    have hfb : entryFb (dt'.data 0) 0 = entryFb (dt.data 0) 0 :=
      getLE_congr (hagree.mono (by omega) (by omega))
    have htype : entryType (dt'.data 0) 0 = entryType (dt.data 0) 0 :=
      hagree 12 (by omega) (by omega)
    rw [← h.rootEntry, entryAt, entryAt, hname, hfb, htype]
  obj := fun fb o ho => by
    have hat := h.obj fb o ho
    refine ⟨hat.head, hat.linked.congr fun c _ => by rw [hfat], hat.pos,
      fun c hc => (hat.lt c hc).trans_le hnum, ?_⟩
    have hpos := hat.length_pos
    refine hat.holds.congr (fun j _ hj => ?_) hat.holds.extent_le (by omega)
    have hj' : j / 512 < (chain fb).length := by omega
    have hmem : (chain fb)[j / 512] ∈ chain fb := List.getElem_mem hj'
    rw [imageOf, imageOf, List.getElem?_eq_getElem hj', Option.getD_some]
    exact hdata _ (hat.lt _ hmem) _ (Nat.zero_le _) (by omega)
  disjoint := h.disjoint
  owned := fun i hi hf => by
    rw [hfat] at hf
    exact h.owned i hi hf

theorem Store.grows (h : Store dt fs chain) (hg : Grows dt dt') : Store dt' fs chain :=
  Store.transfer h hg.sized hg.fatNum_le hg.fat fun k hk => by
    rw [hg.data k hk]
    exact Agree.refl _ _ _

/-- Every slot of a stored disk fits four bytes. -/
theorem Store.fat_lt (h : Store dt fs chain) (i : Nat) : dt.fat i < 2 ^ 32 := by
  by_cases hi : i = 0
  · rw [hi, h.reserved]
    decide
  by_cases hf : dt.fat i = FREESEC
  · rw [hf]
    decide
  obtain ⟨fb, o, ho, hm⟩ := h.owned i hi hf
  have hat := h.obj fb o ho
  rcases hat.linked.next_mem hm with he | hn
  · rw [he]
    decide
  · have hlt := hat.lt _ hn
    have hnum := h.sized.fatNum_lt
    omega

/-! ## The fields of a saved image -/

section Saved

variable {b : Bytes}

/-- The fields of the superblock read back from the image. -/
theorem sb_saved (hs : Sized dt) (hm : dt.sb.maxBlockNum < 2 ^ 64)
    (hb : ∀ i, i < dt.dtSize → b i = dtBuf dt i) :
    getLE b 24 4 = dt.sb.fatSecNum ∧ getLE b 28 4 = dt.sb.fatNum ∧
      getLE b 32 8 = dt.sb.maxBlockNum := by
  have he := hs.exact
  have hlt := hs.lt
  have hsec : dt.sb.fatSecNum < 256 ^ 4 := by
    have h256 : (256 : Nat) ^ 4 = 2 ^ 32 := by decide
    omega
  have hnum : dt.sb.fatNum < 256 ^ 4 := by
    have h256 : (256 : Nat) ^ 4 = 2 ^ 32 := by decide
    omega
  have hagree : Agree b (sbBytes dt.sb) 0 512 := by
    intro i _ hi
    rw [hb i (by omega)]
    exact if_pos (by omega)
  refine ⟨?_, ?_, ?_⟩
  · rw [getLE_congr (hagree.mono (by omega) (by omega)), sbBytes, getLE_putLE_ne (by omega),
      getLE_putLE_ne (by omega), getLE_putLE hsec]
  · rw [getLE_congr (hagree.mono (by omega) (by omega)), sbBytes, getLE_putLE_ne (by omega),
      getLE_putLE hnum]
  · rw [getLE_congr (hagree.mono (by omega) (by omega)), sbBytes, getLE_putLE hm]

theorem fat_saved (hs : Sized dt) (hb : ∀ i, i < dt.dtSize → b i = dtBuf dt i) {i : Nat}
    (hi : i < dt.slots) (hfat : dt.fat i < 2 ^ 32) : getLE b (512 + 4 * i) 4 = dt.fat i := by
  have he := hs.exact
  have hi' : 4 * i + 4 ≤ dt.sb.fatSecNum * 512 := by
    simp only [Dtree.slots, BYTSPERSEC] at hi
    omega
  have hbytes : ∀ k, k < 4 → b (512 + 4 * i + k) = leByte (dt.fat i) k := by
    intro k hk
    have hlow : ¬ 512 + 4 * i + k < 512 := by omega
    have hhigh : 512 + 4 * i + k < 512 + dt.sb.fatSecNum * 512 := by omega
    have hslot : (512 + 4 * i + k - 512) / 4 = i := by omega
    have hbyte : (512 + 4 * i + k - 512) % 4 = k := by omega
    rw [hb _ (by omega)]
    simp only [dtBuf, BYTSPERSEC]
    rw [if_neg hlow, if_pos hhigh, hslot, hbyte]
  rw [getLE_of_leByte hbytes]
  exact Nat.mod_eq_of_lt hfat

theorem data_saved (hs : Sized dt) (hb : ∀ i, i < dt.dtSize → b i = dtBuf dt i) {k j : Nat}
    (hk : k < dt.sb.fatNum) (hj : j < 512) :
    b (512 + dt.sb.fatSecNum * 512 + k * 512 + j) = dt.data k j := by
  have he := hs.exact
  have hk' : k * 512 + 512 ≤ dt.sb.fatNum * 512 := by omega
  have hlow : ¬ 512 + dt.sb.fatSecNum * 512 + k * 512 + j < 512 := by omega
  have hhigh : ¬ 512 + dt.sb.fatSecNum * 512 + k * 512 + j < 512 + dt.sb.fatSecNum * 512 := by omega
  have hoff : 512 + dt.sb.fatSecNum * 512 + k * 512 + j - 512 - dt.sb.fatSecNum * 512
    = k * 512 + j := by
    omega
  have hdiv : (k * 512 + j) / 512 = k := by omega
  have hmod : (k * 512 + j) % 512 = j := by omega
  rw [hb _ (by omega)]
  simp only [dtBuf, BYTSPERSEC]
  rw [if_neg hlow, if_neg hhigh, hoff, hdiv, hmod]

/-- A mounted image holds the tree of the disk it was saved from. -/
theorem mounted_saved (h : Store dt fs chain) (hm : dt.sb.maxBlockNum < 2 ^ 64)
    (hb : ∀ i, i < dt.dtSize → b i = dtBuf dt i) :
    Store (mounted b dt.dtSize) fs chain ∧
      (mounted b dt.dtSize).sb.maxBlockNum = dt.sb.maxBlockNum := by
  obtain ⟨hsec, hnum, hmax⟩ := sb_saved h.sized hm hb
  refine ⟨?_, hmax⟩
  refine Store.transfer h ⟨?_, ?_, h.sized.lt⟩ ?_ ?_ ?_
  · change dt.dtSize = 512 * (1 + getLE b 24 4 + getLE b 28 4)
    rw [hsec, hnum]
    exact h.sized.exact
  · change getLE b 24 4 = _
    rw [hsec]
    exact h.sized.fatSec
  · change dt.sb.fatNum ≤ getLE b 28 4
    rw [hnum]
  · funext i
    change (if i < getLE b 24 4 * BYTSPERSEC / 4 then getLE b (BYTSPERSEC + 4 * i) 4 else FREESEC)
      = dt.fat i
    rw [hsec]
    change (if i < dt.slots then _ else _) = _
    by_cases hi : i < dt.slots
    · rw [if_pos hi]
      exact fat_saved h.sized hb hi (Store.fat_lt h i)
    · rw [if_neg hi]
      exact (h.topFree i (h.sized.fatNum_lt_slots.le.trans (not_lt.mp hi))).symm
  · intro k hk j _ hj
    change b (BYTSPERSEC + getLE b 24 4 * BYTSPERSEC + k * BYTSPERSEC + j) = _
    rw [hsec]
    exact data_saved h.sized hb hk (by omega)

end Saved

/-! ## Saving and loading -/

/-- What a successful `save_disk` leaves in a file that was no longer than the image. -/
theorem saveDisk_ok {old file : Saved} {ret : Option Nat} {inode : Bool}
    (h : saveDisk dt old ret inode = (file, 0)) (hold : old.size ≤ dt.dtSize) :
    file.size = dt.dtSize ∧ ∀ i, i < dt.dtSize → file.bytes i = dtBuf dt i := by
  unfold saveDisk saveFile at h
  cases ret with
  | none => simp at h
  | some n =>
    by_cases hn : n = dt.dtSize
    · subst hn
      cases inode with
      | false => simp at h
      | true =>
        simp only [if_true, if_false, Prod.mk.injEq, and_true, lt_irrefl] at h
        subst h
        refine ⟨Nat.max_eq_right hold, fun i hi => ?_⟩
        have hin : i < 0 + dt.dtSize := by omega
        dsimp only
        rw [blit_inside (Nat.zero_le _) hin, Nat.zero_add, Nat.sub_zero]
    · simp [hn] at h

/-- A buffer size that can be doubled is doubled. -/
theorem u32_double {k : Nat} (hk : k < 32) (h : u32 (2 ^ k * 2) ≠ 0) :
    k + 1 < 32 ∧ u32 (2 ^ k * 2) = 2 ^ (k + 1) := by
  rw [← pow_succ] at h ⊢
  have hk' : k + 1 < 32 := by
    by_contra hnot
    obtain rfl : k = 31 := by omega
    exact h (by decide)
  exact ⟨hk', Nat.mod_eq_of_lt (Nat.pow_lt_pow_right (by omega) hk')⟩

/-- The loop of `load_file` reads on to the end of the file. The size of the buffer is a
power of two all along. -/
theorem loadLoop_ok {file : Saved} {n size k : Nat} {w w' : World} {r : Option Nat}
    (hmem : Env.Succeeds w.env .load) (hle : size ≤ file.size) (hk : k < 32) (hroom : size < 2 ^ k)
    (h : loadLoop file n size (2 ^ k) w = .ok (r, w')) :
    r = some file.size ∧ w'.ipIndex = w.ipIndex := by
  induction n generalizing size k w with
  | zero => cases h
  | succ n ih =>
    rw [loadLoop] at h
    by_cases hzero : min (file.size - size) (2 ^ k - size) = 0
    · rw [if_pos hzero] at h
      obtain ⟨rfl, rfl⟩ := pure_ok.mp h
      have hsize : size = file.size := by omega
      exact ⟨by rw [hsize], rfl⟩
    rw [if_neg hzero] at h
    by_cases hfull : size + min (file.size - size) (2 ^ k - size) = 2 ^ k
    · rw [if_pos hfull] at h
      by_cases hwrap : u32 (2 ^ k * 2) = 0
      · rw [if_pos hwrap] at h
        cases h
      rw [if_neg hwrap] at h
      obtain ⟨hk', hdouble⟩ := u32_double hk hwrap
      have hroom' : size + min (file.size - size) (2 ^ k - size) < 2 ^ (k + 1) := by
        rw [hfull]
        exact Nat.pow_lt_pow_right (by omega) (Nat.lt_succ_self k)
      obtain ⟨m, w₁, hm, h⟩ := bind_ok.mp h
      cases hm
      cases hget : w.env.heap .load 0 with
      | none => exact absurd hget (hmem 0)
      | some junk =>
        rw [hget, hdouble] at h
        exact ih (w := { w with env := w.env.pop .load }) (hmem.later (Later.pop _ _)) (by omega)
          hk' hroom' h
    · rw [if_neg hfull] at h
      exact ih hmem (by omega) hk (by omega) h

theorem loadFile_ok {file : Saved} {w w' : World} {r : Option Nat}
    (hmem : Env.Succeeds w.env .load) (h : loadFile file w = .ok (r, w')) :
    r = some file.size ∧ w'.ipIndex = w.ipIndex := by
  unfold loadFile at h
  obtain ⟨m, w₁, hm, h⟩ := bind_ok.mp h
  cases hm
  cases hget : w.env.heap .load 0 with
  | none => exact absurd hget (hmem 0)
  | some junk =>
    rw [hget] at h
    obtain ⟨w₂, w₃, hw, h⟩ := bind_ok.mp h
    cases hw
    exact loadLoop_ok (w := { w with env := w.env.pop .load }) (k := 15)
      (hmem.later (Later.pop _ _)) (Nat.zero_le _) (by decide) (by decide) h

/-- A disk that could be mounted is the one in the file. -/
theorem openDisk_ok {file : Saved} {w w' : World} (hmem : Env.Succeeds w.env .load)
    (h : openDisk (some file) w = .ok (true, w')) :
    w'.dt = mounted file.bytes file.size ∧ w'.ipIndex = w.ipIndex := by
  unfold openDisk at h
  obtain ⟨m, w₁, hm, h⟩ := bind_ok.mp h
  cases hm
  cases hget : w.env.heap .mount 0 with
  | none =>
    rw [hget] at h
    obtain ⟨hb, -⟩ := pure_ok.mp h
    cases hb
  | some junk =>
    rw [hget] at h
    obtain ⟨size, w₂, hload, h⟩ := bind_ok.mp h
    obtain ⟨rfl, hip⟩ := loadFile_ok (hmem.later (Later.pop _ _)) hload
    obtain ⟨m, w₃, hm, h⟩ := bind_ok.mp h
    cases hm
    cases hget : w₂.env.heap .inode 0 with
    | none =>
      rw [hget] at h
      obtain ⟨hb, -⟩ := pure_ok.mp h
      cases hb
    | some junk =>
      rw [hget] at h
      cases h
      exact ⟨rfl, hip⟩

end Sbpfs.Cfs.PersistSpec
