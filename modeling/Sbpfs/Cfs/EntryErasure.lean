import Sbpfs.Cfs.Edit

/-!
# Taking one entry out of a directory image

What `do_remove_entry` leaves of any directory image: the records without the one, in their
order, over the same name pool. The block it copies ends sixteen bytes behind the image, so
whether it stays inside the buffer depends on the room behind `flen`.
-/
namespace Sbpfs.Cfs.EntryErasure

open Sbpfs.Lib.Program Sbpfs.Lib.Memory Sbpfs.Cfs.Layout Sbpfs.Cfs.Namespace Sbpfs.Cfs.Image
open Sbpfs.Cfs.Edit

/-- The buffer of `n` sectors holds a directory image with `count` entries. -/
structure DirBuf (pdata : Buf) (n count : Nat) : Prop where
  size : pdata.size = 512 * n
  strbase : metaStrbase pdata.bytes = 16 * count
  flen : metaFlen pdata.bytes = 64 + 16 * count + metaStrlen pdata.bytes
  le : metaFlen pdata.bytes ≤ 512 * n

/-- The entries of the image, each as its sixteen bytes. -/
def entryBytes (b : Bytes) : List (List UInt8) :=
  (List.range (metaStrbase b / entrySize)).map fun i =>
    (List.range entrySize).map fun j => b (entryOff i + j)

/-- The bytes of the name pool. -/
def namePool (b : Bytes) : List UInt8 :=
  (List.range (metaStrlen b)).map fun j => b (metaSize + metaStrbase b + j)

/-- The offset leads to this name, which ends inside the pool. -/
def Resolves (b : Bytes) (off : Nat) (name : CStr) : Prop :=
  off + name.length < metaStrlen b ∧ strEq b (metaSize + metaStrbase b + off) name = true

/-- `b'` is the image `b` without its entry `i`. -/
structure Without (b b' : Bytes) (i : Nat) : Prop where
  strbase : metaStrbase b' = metaStrbase b - entrySize
  flen : metaFlen b' = metaFlen b - entrySize
  entries : entryBytes b' = (entryBytes b).eraseIdx i
  pool : namePool b' = namePool b
  names : ∀ off name, Resolves b' off name ↔ Resolves b off name

/-- The call returns, so it wrote inside its buffers only, and its result does not depend on
what lies behind the buffer; it leaves the table without the entry, or as it was if there is
no memory. -/
def ErasesInside (w : World) (pdata : Buf) (i : Nat) : Prop :=
  ∃ r b' w', doRemoveEntry pdata (entryOff i) w = .ok ((r, b'), w') ∧
    (∀ other, Agree other pdata.bytes 0 pdata.size →
      ∃ b'', doRemoveEntry ⟨pdata.size, other⟩ (entryOff i) w = .ok ((r, b''), w') ∧
        Agree b''.bytes b'.bytes 0 pdata.size) ∧
    ((r = -9 ∧ w.env.heap .tail 0 = none ∧ b' = pdata) ∨
      (r = 0 ∧ b'.size = pdata.size ∧ Without pdata.bytes b'.bytes i))

section Image

variable {pdata : Buf} {n count i : Nat} (h : DirBuf pdata n count) (hi : i < count) (now : Nat)

/-- What `do_remove_entry` leaves of the bytes of `pdata`. -/
abbrev leftover (pdata : Buf) (i now : Nat) : Bytes :=
  removed pdata.bytes (entryOff i) (metaFlen pdata.bytes) (metaStrbase pdata.bytes) now

theorem leftover_strbase (pdata : Buf) (i now : Nat) :
    metaStrbase (leftover pdata i now) = metaStrbase pdata.bytes - 16 := by
  have hlt : metaStrbase pdata.bytes < 256 ^ 8 := getLE_lt _ _ _
  exact removed_strbase (by omega)

theorem leftover_strlen (pdata : Buf) (i now : Nat) :
    metaStrlen (leftover pdata i now) = metaStrlen pdata.bytes := by
  have hoff : entryOff i = 64 + 16 * i := rfl
  exact removed_strlen (by omega)

include h hi

/-- The records in front of the one removed keep their place, those behind it move up. -/
theorem leftover_record {k j : Nat} (hk : k < count - 1) (hj : j < 16) :
    leftover pdata i now (entryOff k + j)
      = pdata.bytes (entryOff (if k < i then k else k + 1) + j) := by
  have hoff : ∀ m, entryOff m = 64 + 16 * m := fun _ => rfl
  have hflen := h.flen
  by_cases hki : k < i
  · rw [if_pos hki]
    refine removed_before ?_ ?_
    · rw [hoff]
      omega
    · rw [hoff, hoff]
      omega
  · rw [if_neg hki, leftover, removed_behind (by rw [hoff]; omega) (by rw [hoff, hoff]; omega)
      (by rw [hoff]; omega)]
    exact congrArg pdata.bytes (by rw [hoff, hoff]; omega)

/-- The pool moves up as a whole. -/
theorem leftover_pool {j : Nat} (hj : j < metaStrlen pdata.bytes) :
    leftover pdata i now (metaSize + metaStrbase (leftover pdata i now) + j)
      = pdata.bytes (metaSize + metaStrbase pdata.bytes + j) := by
  have hoff : entryOff i = 64 + 16 * i := rfl
  have hflen := h.flen
  have hbase := h.strbase
  rw [leftover_strbase, leftover, removed_behind (by omega) (by simp only [metaSize]; omega)
    (by simp only [metaSize]; omega)]
  exact congrArg pdata.bytes (by simp only [metaSize]; omega)

theorem leftover_entries :
    entryBytes (leftover pdata i now) = (entryBytes pdata.bytes).eraseIdx i := by
  have hn : metaStrbase pdata.bytes / entrySize = count := by
    rw [h.strbase]
    simp
  have hn' : metaStrbase (leftover pdata i now) / entrySize = count - 1 := by
    rw [leftover_strbase, h.strbase]
    simp only [entrySize]
    omega
  have hl : ((entryBytes pdata.bytes).eraseIdx i).length = count - 1 := by
    rw [List.length_eraseIdx_of_lt (by simpa [entryBytes, hn] using hi)]
    simp [entryBytes, hn]
  refine List.ext_getElem (by rw [hl]; simp [entryBytes, hn']) fun k hk _ => ?_
  have hk' : k < count - 1 := by simpa [entryBytes, hn'] using hk
  rw [List.getElem_eraseIdx]
  by_cases hki : k < i
  · rw [dif_pos hki]
    simp only [entryBytes, List.getElem_map, List.getElem_range]
    refine List.map_congr_left fun j hj => ?_
    rw [leftover_record h hi now hk' (List.mem_range.mp hj), if_pos hki]
  · rw [dif_neg hki]
    simp only [entryBytes, List.getElem_map, List.getElem_range]
    refine List.map_congr_left fun j hj => ?_
    rw [leftover_record h hi now hk' (List.mem_range.mp hj), if_neg hki]

theorem leftover_names (off : Nat) (name : CStr) :
    Resolves (leftover pdata i now) off name ↔ Resolves pdata.bytes off name := by
  unfold Resolves
  rw [leftover_strlen]
  refine and_congr_right fun hlt => ?_
  have hstr : strEq (leftover pdata i now) (metaSize + metaStrbase (leftover pdata i now) + off)
      name
      = strEq pdata.bytes (metaSize + metaStrbase pdata.bytes + off) name := by
    refine strEq_congr fun k hk => ?_
    have hbyte := leftover_pool h hi now (show off + k < metaStrlen pdata.bytes by omega)
    rwa [← Nat.add_assoc, ← Nat.add_assoc] at hbyte
  rw [hstr]

theorem leftover_without : Without pdata.bytes (leftover pdata i now) i := by
  have hflt : metaFlen pdata.bytes < 256 ^ 8 := getLE_lt _ _ _
  refine ⟨leftover_strbase _ _ _, removed_flen (by omega), leftover_entries h hi now, ?_,
    leftover_names h hi now⟩
  unfold namePool
  rw [leftover_strlen]
  exact List.map_congr_left fun j hj => leftover_pool h hi now (List.mem_range.mp hj)

/-- The run on this buffer and on every other whose header is the same. -/
theorem doRemoveEntry_leaves (w : World) {other : Bytes} (ha : Agree other pdata.bytes 0 64) :
    doRemoveEntry ⟨pdata.size, other⟩ (entryOff i) w = .ok
      (if (w.env.heap .tail 0).isNone then (-9, ⟨pdata.size, other⟩)
        else (0, ⟨pdata.size, leftover ⟨pdata.size, other⟩ i w.env.now⟩),
        { w with env := w.env.pop .tail }) := by
  have hoff : entryOff i = 64 + 16 * i := rfl
  have hflen : metaFlen other = metaFlen pdata.bytes := getLE_congr (ha.mono (by omega) (by omega))
  have hbase : metaStrbase other = metaStrbase pdata.bytes :=
    getLE_congr (ha.mono (by omega) (by omega))
  have h1 := h.flen
  have h2 := h.strbase
  have h3 := h.le
  have h4 := h.size
  have hoff' : entryOff i + 16 ≤ metaFlen (Buf.mk pdata.size other).bytes := by
    simp only
    omega
  exact doRemoveEntry_run w (by omega) hoff' (by simp only; omega) (by simp only; omega)

/-- Where sixteen bytes are left behind the image, nothing behind the buffer is read. -/
theorem leftover_agree {other : Bytes} (ha : Agree other pdata.bytes 0 pdata.size)
    (hroom : metaFlen pdata.bytes + 16 ≤ pdata.size) :
    Agree (leftover ⟨pdata.size, other⟩ i now) (leftover pdata i now) 0 pdata.size := by
  have hoff : entryOff i = 64 + 16 * i := rfl
  have h1 := h.flen
  have hflen : metaFlen other = metaFlen pdata.bytes := getLE_congr (ha.mono (by omega) (by omega))
  have hbase : metaStrbase other = metaStrbase pdata.bytes :=
    getLE_congr (ha.mono (by omega) (by omega))
  intro k _ hk
  have hold : other k = pdata.bytes k := ha k (Nat.zero_le _) hk
  have hcopied : blit other (entryOff i) other (entryOff i + 16) (metaFlen pdata.bytes
      - entryOff i) k
      = blit pdata.bytes (entryOff i) pdata.bytes (entryOff i + 16)
        (metaFlen pdata.bytes - entryOff i) k := by
    unfold blit
    split
    · exact ha _ (Nat.zero_le _) (by omega)
    · exact hold
  simp only [leftover, removed, hflen, hbase, putLE, hcopied]

/-- Without that room the byte behind the buffer ends up in its last sixteen bytes. -/
theorem leftover_stray {other : Bytes} (ha : Agree other pdata.bytes 0 64)
    (hfull : pdata.size < metaFlen pdata.bytes + 16) :
    leftover ⟨pdata.size, other⟩ i now (pdata.size - 16) = other pdata.size := by
  have hoff : entryOff i = 64 + 16 * i := rfl
  have hflen : metaFlen other = metaFlen pdata.bytes := getLE_congr (ha.mono (by omega) (by omega))
  have h1 := h.flen
  have h3 := h.le
  have h4 := h.size
  rw [leftover, removed_behind (by omega) (by omega) (by simp only; omega)]
  exact congrArg other (by omega)

theorem not_erasesInside (w : World) (hmem : (w.env.heap .tail 0).isSome)
    (hfull : pdata.size < metaFlen pdata.bytes + 16) : ¬ ErasesInside w pdata i := by
  rintro ⟨r, b', w', hrun, hother, -⟩
  have h1 := h.flen
  have h3 := h.le
  have h4 := h.size
  have hnone : (w.env.heap .tail 0).isNone = false := by
    rw [Option.isNone_eq_false_iff]
    exact hmem
  -- one more in the byte behind the buffer is one more in the result
  obtain ⟨other, hdef⟩ : ∃ other : Bytes, other = fun k =>
    if k = pdata.size then pdata.bytes k + 1 else pdata.bytes k := ⟨_, rfl⟩
  have ha : Agree other pdata.bytes 0 pdata.size := by
    intro k _ hk
    rw [hdef]
    exact if_neg (by omega)
  have hhead : Agree other pdata.bytes 0 64 := ha.mono (Nat.le_refl _) (by omega)
  obtain ⟨b'', hrun', hsame⟩ := hother other ha
  rw [doRemoveEntry_leaves h hi w hhead, hnone] at hrun'
  rw [show pdata = ⟨pdata.size, pdata.bytes⟩ from rfl,
    doRemoveEntry_leaves h hi w (Agree.refl _ 0 64), hnone] at hrun
  cases hrun
  cases hrun'
  have heq := hsame (pdata.size - 16) (Nat.zero_le _) (by omega)
  simp only [leftover_stray h hi _ hhead hfull,
    leftover_stray h hi _ (Agree.refl _ 0 64) hfull] at heq
  rw [hdef] at heq
  simp at heq

end Image

/-- A world in which every allocation succeeds. -/
def plenty : World :=
  ⟨⟨⟨0, 0, 0, 0⟩, fun _ => 0, fun _ _ => 0, 0⟩, 0, ⟨0, 0, fun _ _ => some fun _ => 0, fun _ => 0⟩⟩

/-- `do_remove_entry` stays inside the buffer and takes out that entry only, in every world,
exactly if sixteen bytes are left behind the image. -/
theorem erasesInside_iff {pdata : Buf} {n count i : Nat} (h : DirBuf pdata n count)
    (hi : i < count) :
    (∀ w, ErasesInside w pdata i) ↔ metaFlen pdata.bytes + 16 ≤ 512 * n := by
  rw [← h.size]
  constructor
  · intro hall
    by_contra hfull
    exact not_erasesInside h hi plenty rfl (by omega) (hall plenty)
  · intro hroom w
    have h1 := h.flen
    have hhead : ∀ {other}, Agree other pdata.bytes 0 pdata.size → Agree other pdata.bytes 0 64 :=
      fun ha => ha.mono (Nat.le_refl _) (by omega)
    have hrun := fun {other} (ha : Agree other pdata.bytes 0 pdata.size) =>
      doRemoveEntry_leaves h hi w (hhead ha)
    have hself := hrun (Agree.refl _ 0 pdata.size)
    cases hm : w.env.heap .tail 0 with
    | none =>
      simp only [hm, Option.isNone_none, if_true] at hrun hself
      exact ⟨-9, pdata, _, hself, fun other ha => ⟨_, hrun ha, ha⟩, .inl ⟨rfl, hm, rfl⟩⟩
    | some junk =>
      simp only [hm, Option.isNone_some, Bool.false_eq_true, if_false] at hrun hself
      exact ⟨0, _, _, hself, fun other ha => ⟨_, hrun ha, leftover_agree h hi _ ha hroom⟩,
        .inr ⟨rfl, rfl, leftover_without h hi _⟩⟩

/-- A directory of one sector with `.` and `..` and `plen` bytes of pool. -/
def dotsDir (plen : Nat) : Buf where
  size := 512
  bytes :=
    let names : Bytes := fun i => if i = 76 then 1 else if i = 80 then 2 else if i = 92 then 1 else
      if i = 96 then 0x2e else if i = 98 then 0x2e else if i = 99 then 0x2e else 0
    putLE (putLE (putLE names 8 8 (96 + plen)) 40 8 32) 48 8 plen

theorem dotsDir_roomy :
    DirBuf (dotsDir 5) 1 2 ∧ 1 < 2 ∧ ∀ w, ErasesInside w (dotsDir 5) 1 := by
  have h : DirBuf (dotsDir 5) 1 2 := by
    refine ⟨rfl, ?_, ?_, ?_⟩ <;> decide
  exact ⟨h, by decide, (erasesInside_iff h (by decide)).mpr (by decide)⟩

/-- Where the pool fills the sector, the second entry cannot be taken out without reading
behind the buffer. -/
theorem dotsDir_full : DirBuf (dotsDir 416) 1 2 ∧ ¬ ErasesInside plenty (dotsDir 416) 1 := by
  have h : DirBuf (dotsDir 416) 1 2 := by
    refine ⟨rfl, ?_, ?_, ?_⟩ <;> decide
  exact ⟨h, not_erasesInside h (by decide) plenty rfl (by decide)⟩

end Sbpfs.Cfs.EntryErasure
