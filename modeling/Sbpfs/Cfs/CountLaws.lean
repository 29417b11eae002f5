import Sbpfs.Cfs.DataSpec

/-!
# The block counts of `c_read` and `c_write`

Both functions count the blocks of a range with a u64 difference that wraps when the range
lies inside one block, divide the wrapped value and truncate it to an int. For every file
whose records fit its sectors the result is the mathematical count, the reply fits the buffer
of the wrappers, and the records looked at are records of the file.
-/
namespace Sbpfs.Cfs.CountLaws

open Sbpfs.Lib.Program Sbpfs.Lib.Memory Sbpfs.Cfs.Layout Sbpfs.Cfs.File Sbpfs.Cfs.Data
open Sbpfs.Cfs.Rules (readSector_run readSector_fault)
open Sbpfs.Cfs.Image Sbpfs.Cfs.BlockSpec Sbpfs.Cfs.DataSpec

attribute [local irreducible] blocksFor

/-- The header of a regular file: a record for each block of 16 MB, and sectors that hold the
header and the records. -/
structure RegularFile (b : Bytes) : Prop where
  strbase : metaStrbase b = blockSize * blocksFor (metaFlen b)
  fits : metaSize + metaStrbase b ≤ u32 (metaBlocks b * BYTSPERSEC)

/-- `newblocknum`, as `c_write` computes it. -/
def newBlocks (flen offset length : Nat) : Int :=
  s32 (u64Sub (upDiv (u64 (offset + length)) BLOCKSIZE) (upDiv flen BLOCKSIZE))

/-- `oldblocknum`, as `c_write` computes it. -/
def oldBlocks (flen offset length : Nat) : Nat :=
  u64OfInt (rangeBlocks offset length - newBlocks flen offset length)

/-- The first `n` records from the block of `offset` on are records of the file. -/
def Indexed (b : Bytes) (offset n : Nat) : Prop :=
  ∀ i < n, offset / BLOCKSIZE + i < metaStrbase b / blockSize

/-- `blocknum` is the number of blocks the range touches, and at most the size of the reply
buffer that the wrapper made for a request of `asked` bytes. -/
structure CountedRange (offset length asked : Nat) : Prop where
  count : rangeBlocks offset length
    = ((offset + length + BLOCKSIZE - 1) / BLOCKSIZE : Nat) - (offset / BLOCKSIZE : Nat)
  cap : rangeBlocks offset length ≤ (asked / BLOCKSIZE + 2 : Nat)

/-- The numbers `c_read` works with once it has clamped a length `asked` to `length`. -/
structure CountedRead (b : Bytes) (offset length asked : Nat) : Prop where
  range : CountedRange offset length asked
  indexed : Indexed b offset (rangeBlocks offset length).toNat

/-- The numbers `c_write` works with: `oldblocknum` does not wrap. -/
structure CountedWrite (b : Bytes) (offset length : Nat) : Prop where
  range : CountedRange offset length length
  new : newBlocks (metaFlen b) offset length ≤ rangeBlocks offset length
  old : (oldBlocks (metaFlen b) offset length : Int)
    = rangeBlocks offset length - newBlocks (metaFlen b) offset length
  indexed : newBlocks (metaFlen b) offset length ≤ 0 →
    Indexed b offset (rangeBlocks offset length).toNat
  indexed_old : 0 < newBlocks (metaFlen b) offset length →
    Indexed b offset (oldBlocks (metaFlen b) offset length)

/-- A call that returned a count filled that many entries, and one that was given a larger
reply buffer than `cap` does the same. -/
structure Replies (call : Nat → CM (Int × List SendBlock)) (cap : Nat) (n : Int)
    (w : World) : Prop where
  entries : ∀ r segs w', call cap w = .ok ((r, segs), w') →
    r = -9 ∨ (r = n ∧ (segs.length : Int) = n)
  room : ∀ cap', cap ≤ cap' → call cap' w = call cap w

section Numbers

theorem flen_bound {flen strbase size : Nat} (hbase : strbase = 32 * ((flen + 16777215) / 16777216))
    (hfits : 64 + strbase ≤ size) (hsize : size < 4294967296) : flen ≤ 2251799813685248 := by
  omega

variable {b : Bytes} (h : RegularFile b)

include h

/-- What fits the sectors of an image is far from the largest counts. -/
theorem RegularFile.flen_le : metaFlen b ≤ MAX_END := by
  have hlt : u32 (metaBlocks b * BYTSPERSEC) < 4294967296 := Nat.mod_lt _ (by decide)
  have hmax : 2251799813685248 ≤ MAX_END := by decide
  have hbase := h.strbase
  rw [blocksFor_eq] at hbase
  exact (flen_bound hbase h.fits hlt).trans hmax

theorem RegularFile.records : metaStrbase b / blockSize = blocksFor (metaFlen b) := by
  have hbase := h.strbase
  simp only [blockSize] at hbase ⊢
  omega

omit h

theorem countedRange {offset length asked : Nat} (hend : offset + length ≤ MAX_END)
    (hle : length ≤ asked) : CountedRange offset length asked := by
  have hnat := rangeBlocks_nat hend
  have hroom := rangeBlocks_cap offset length
  have hdiv : length / BLOCKSIZE ≤ asked / BLOCKSIZE := Nat.div_le_div_right hle
  refine ⟨?_, ?_⟩
  · have hup : offset + length + BLOCKSIZE - 1 = offset + length + 16777215 := by
      simp only [BLOCKSIZE]
      omega
    rw [rangeBlocks_eq hend, blocksFor_eq, hup]
  · rw [hnat]
    exact Int.ofNat_le.mpr (by omega)

include h

/-- `c_read` looks at records of the file only. -/
theorem indexed_read {offset length : Nat} (hend : offset + length ≤ metaFlen b) :
    Indexed b offset (rangeBlocks offset length).toNat := by
  have hmax : metaFlen b ≤ MAX_END := h.flen_le
  have hmono : blocksFor (offset + length) ≤ blocksFor (metaFlen b) := blocksFor_mono hend
  intro i hi
  rw [rangeBlocks_nat (hend.trans hmax), Int.toNat_natCast] at hi
  rw [h.records]
  omega

theorem countedWrite {offset length : Nat} (hoff : offset ≤ metaFlen b)
    (hend : offset + length ≤ MAX_END) : CountedWrite b offset length := by
  have hmax : metaFlen b ≤ MAX_END := h.flen_le
  have hnew : newBlocks (metaFlen b) offset length
      = (blocksFor (offset + length) : Int) - blocksFor (metaFlen b) := by
    have hsum : u64 (offset + length) = offset + length :=
      Nat.mod_eq_of_lt (hend.trans_lt MAX_END_lt)
    unfold newBlocks
    rw [hsum, upDiv_blocks hend, upDiv_blocks hmax,
      s32_sub (blocksFor_max hend) (blocksFor_max hmax)]
  have hnat := rangeBlocks_nat hend
  have hfirst : offset / BLOCKSIZE ≤ blocksFor (offset + length) := firstBlock_le (by omega)
  have hfirst' : offset / BLOCKSIZE ≤ blocksFor (metaFlen b) := firstBlock_le hoff
  have hle : newBlocks (metaFlen b) offset length ≤ rangeBlocks offset length := by
    rw [hnew, hnat]
    omega
  have hold : oldBlocks (metaFlen b) offset length
    = blocksFor (metaFlen b) - offset / BLOCKSIZE := by
    have hsub : rangeBlocks offset length - newBlocks (metaFlen b) offset length
        = ((blocksFor (metaFlen b) - offset / BLOCKSIZE : Nat) : Int) := by
      rw [hnew, hnat]
      omega
    have hlt := blocksFor_max hmax
    unfold oldBlocks
    rw [hsub]
    exact u64OfInt_nat ((Nat.sub_le _ _).trans_lt (by omega))
  refine ⟨countedRange hend (Nat.le_refl _), hle, ?_, fun hnone i hi => ?_, fun _ i hi => ?_⟩
  · rw [hold, hnew, hnat]
    omega
  · rw [hnew] at hnone
    rw [hnat, Int.toNat_natCast] at hi
    rw [h.records]
    omega
  · rw [hold] at hi
    rw [h.records]
    omega

end Numbers

section Runs

variable {w : World} {fb : UInt32} {offset length : UInt64}
  (h : RegularFile (w.dt.data (sectorOf fb.toNat)))
  (hoff : offset.toNat ≤ metaFlen (w.dt.data (sectorOf fb.toNat)))

/-- The last loop of `c_write` fills one entry for each new block. -/
theorem newSegments_length {len n : Nat} {ips : List Nat} {buf buf' : Buf} {segs : List SendBlock}
    {w w' : World} (hrun : newSegments len ips n buf w = .ok ((buf', segs), w')) :
    segs.length = n := by
  induction n generalizing buf buf' segs w w' with
  | zero =>
    cases hrun
    rfl
  | succ n ih =>
    unfold newSegments at hrun
    obtain ⟨⟨num, ip⟩, w₁, -, hrun⟩ := bind_ok.mp hrun
    obtain ⟨b₁, w₂, -, hrun⟩ := bind_ok.mp hrun
    obtain ⟨b₂, w₃, -, hrun⟩ := bind_ok.mp hrun
    obtain ⟨b₃, w₄, -, hrun⟩ := bind_ok.mp hrun
    obtain ⟨b₄, w₅, -, hrun⟩ := bind_ok.mp hrun
    obtain ⟨b₅, w₆, -, hrun⟩ := bind_ok.mp hrun
    obtain ⟨b₆, w₇, -, hrun⟩ := bind_ok.mp hrun
    obtain ⟨b₇, w₈, -, hrun⟩ := bind_ok.mp hrun
    obtain ⟨b₈, w₉, -, hrun⟩ := bind_ok.mp hrun
    obtain ⟨⟨b₉, rest⟩, w₁₀, htail, hrun⟩ := bind_ok.mp hrun
    cases hrun
    rw [List.length_cons, ih htail]

section Branch

variable {b : Bytes} {start len : Nat} {buf : Buf} {ips : List Nat} (hc : CountedWrite b start len)

include hc

/-- The branch that fills the reply fills `blocknum` entries. -/
theorem writeRecords_length {cap : Nat} {buf' : Buf} {segs : List SendBlock} {w w' : World}
    (hrun : writeRecords buf start len (rangeBlocks start len) (newBlocks (metaFlen b) start len)
      ips cap w = .ok ((buf', segs), w')) :
    segs.length = (rangeBlocks start len).toNat := by
  have hdef : u64OfInt (rangeBlocks start len - newBlocks (metaFlen b) start len)
      = oldBlocks (metaFlen b) start len := rfl
  have hold := hc.old
  have hnew := hc.new
  unfold writeRecords at hrun
  by_cases hnone : newBlocks (metaFlen b) start len ≤ 0
  · rw [if_pos hnone] at hrun
    by_cases hfits : (rangeBlocks start len).toNat ≤ cap
    · rw [if_pos hfits] at hrun
      obtain ⟨b₁, w₁, -, hrun⟩ := bind_ok.mp hrun
      cases hrun
      rw [List.length_map, List.length_range]
    · rw [if_neg hfits] at hrun
      cases hrun
  · rw [if_neg hnone] at hrun
    simp only [hdef] at hrun
    by_cases hfits : oldBlocks (metaFlen b) start len + (newBlocks (metaFlen b) start len).toNat
      ≤ cap
    · rw [if_pos hfits] at hrun
      obtain ⟨⟨b₁, new⟩, w₁, hloop, hrun⟩ := bind_ok.mp hrun
      cases hrun
      rw [List.length_append, List.length_map, List.length_range, newSegments_length hloop]
      omega
    · rw [if_neg hfits] at hrun
      cases hrun

/-- It makes no difference how much larger the reply buffer is. -/
theorem writeRecords_room {cap : Nat} (hcap : len / BLOCKSIZE + 2 ≤ cap) :
    writeRecords buf start len (rangeBlocks start len) (newBlocks (metaFlen b) start len) ips cap
      = writeRecords buf start len (rangeBlocks start len) (newBlocks (metaFlen b) start len) ips
          (len / BLOCKSIZE + 2) := by
  have hdef : u64OfInt (rangeBlocks start len - newBlocks (metaFlen b) start len)
      = oldBlocks (metaFlen b) start len := rfl
  have hold := hc.old
  have hnew := hc.new
  have hmax := hc.range.cap
  unfold writeRecords
  simp only [hdef]
  by_cases hnone : newBlocks (metaFlen b) start len ≤ 0
  · have hfits : ∀ n, len / BLOCKSIZE + 2 ≤ n → (rangeBlocks start len).toNat ≤ n :=
      fun n hn => by omega
    rw [if_pos hnone, if_pos hnone, if_pos (hfits _ hcap), if_pos (hfits _ (Nat.le_refl _))]
  · have hfits : ∀ n, len / BLOCKSIZE + 2 ≤ n →
        oldBlocks (metaFlen b) start len + (newBlocks (metaFlen b) start len).toNat ≤ n :=
      fun n hn => by omega
    rw [if_neg hnone, if_neg hnone, if_pos (hfits _ hcap), if_pos (hfits _ (Nat.le_refl _))]

end Branch

include h hoff

theorem cRead_replies :
    Replies (cRead fb offset length) (length.toNat / BLOCKSIZE + 2)
      (rangeBlocks offset.toNat
        (readLen (metaFlen (w.dt.data (sectorOf fb.toNat))) offset.toNat length.toNat)) w := by
  obtain ⟨n, hn⟩ : ∃ n, readLen (metaFlen (w.dt.data (sectorOf fb.toNat))) offset.toNat
    length.toNat = n := ⟨_, rfl⟩
  have hend : offset.toNat + n ≤ MAX_END := hn ▸ (readLen_le hoff).trans h.flen_le
  have hle : n ≤ length.toNat := hn ▸ readLen_le_length _ _ _
  have hcounted := (countedRange hend hle).cap
  have hnat := rangeBlocks_nat hend
  rw [hn]
  by_cases hi : sectorOf fb.toNat < w.dt.dataSecs
  · have hread := readSector_run hi
    have hnot : ¬ metaFlen (w.dt.data (sectorOf fb.toNat)) < offset.toNat := by omega
    have hfits : ∀ cap, length.toNat / BLOCKSIZE + 2 ≤ cap →
      (rangeBlocks offset.toNat n).toNat ≤ cap :=
      fun cap hcap => by omega
    constructor
    · intro r segs w' hrun
      unfold cRead at hrun
      rw [bind_run hread] at hrun
      simp only [if_neg hnot] at hrun
      rw [← readLen, hn] at hrun
      obtain ⟨buf, w₁, hm, hrun⟩ := bind_ok.mp hrun
      cases buf with
      | none =>
        cases hrun
        exact .inl rfl
      | some buf =>
        obtain ⟨buf', w₂, hfile, hrun⟩ := bind_ok.mp hrun
        rw [if_pos (hfits _ (Nat.le_refl _))] at hrun
        cases hrun
        refine .inr ⟨rfl, ?_⟩
        rw [List.length_map, List.length_range, hnat, Int.toNat_natCast]
    · intro cap' hcap
      unfold cRead
      rw [bind_run hread, bind_run hread]
      simp only [if_neg hnot]
      rw [← readLen, hn]
      simp only [if_pos (hfits _ hcap), if_pos (hfits _ (Nat.le_refl _))]
  · have hfault := readSector_fault hi
    constructor
    · intro r segs w' hrun
      unfold cRead at hrun
      rw [bind_fault hfault] at hrun
      cases hrun
    · intro cap' _
      unfold cRead
      rw [bind_fault hfault, bind_fault hfault]

theorem cWrite_replies (ips : List Nat) (hend : offset.toNat + length.toNat ≤ MAX_END) :
    Replies (cWrite fb offset length ips) (length.toNat / BLOCKSIZE + 2)
      (rangeBlocks offset.toNat length.toNat) w := by
  have hc := countedWrite h hoff hend
  have hnat := rangeBlocks_nat hend
  have hdef : s32 (u64Sub (upDiv (u64 (offset.toNat + length.toNat)) BLOCKSIZE)
      (upDiv (metaFlen (w.dt.data (sectorOf fb.toNat))) BLOCKSIZE))
        = newBlocks (metaFlen (w.dt.data (sectorOf fb.toNat))) offset.toNat length.toNat := rfl
  by_cases hi : sectorOf fb.toNat < w.dt.dataSecs
  · have hread := readSector_run hi
    have hnot : ¬ metaFlen (w.dt.data (sectorOf fb.toNat)) < offset.toNat := by omega
    constructor
    · intro r segs w' hrun
      unfold cWrite at hrun
      rw [bind_run hread] at hrun
      simp only [if_neg hnot, hdef] at hrun
      obtain ⟨buf, w₁, hm, hrun⟩ := bind_ok.mp hrun
      cases buf with
      | none =>
        cases hrun
        exact .inl rfl
      | some buf =>
        obtain ⟨b₁, w₂, -, hrun⟩ := bind_ok.mp hrun
        obtain ⟨⟨b₂, segs'⟩, w₃, hbranch, hrun⟩ := bind_ok.mp hrun
        obtain ⟨b₃, w₄, -, hrun⟩ := bind_ok.mp hrun
        obtain ⟨now, w₅, -, hrun⟩ := bind_ok.mp hrun
        obtain ⟨b₄, w₆, -, hrun⟩ := bind_ok.mp hrun
        obtain ⟨b₅, w₇, -, hrun⟩ := bind_ok.mp hrun
        obtain ⟨_, w₈, -, hrun⟩ := bind_ok.mp hrun
        cases hrun
        refine .inr ⟨rfl, ?_⟩
        rw [writeRecords_length hc hbranch, hnat, Int.toNat_natCast]
    · intro cap' hcap
      unfold cWrite
      rw [bind_run hread, bind_run hread]
      simp only [if_neg hnot, hdef, writeRecords_room hc hcap]
  · have hfault := readSector_fault hi
    constructor
    · intro r segs w' hrun
      unfold cWrite at hrun
      rw [bind_fault hfault] at hrun
      cases hrun
    · intro cap' _
      unfold cWrite
      rw [bind_fault hfault, bind_fault hfault]

end Runs

/-- Wrap-around never spoils the counts: for every regular file, every offset in it and every
length, the numbers of `c_read` (its length clamped to the file) and of `c_write` are the
mathematical ones, the reply fits the wrapper's buffer and only records of the file are read. -/
theorem counts_exact {w : World} {fb : UInt32} {offset length : UInt64} {ips : List Nat}
    (h : RegularFile (w.dt.data (sectorOf fb.toNat)))
    (hoff : offset.toNat ≤ metaFlen (w.dt.data (sectorOf fb.toNat))) :
    (CountedRead (w.dt.data (sectorOf fb.toNat)) offset.toNat
        (readLen (metaFlen (w.dt.data (sectorOf fb.toNat))) offset.toNat length.toNat)
        length.toNat ∧
      Replies (cRead fb offset length) (length.toNat / BLOCKSIZE + 2)
        (rangeBlocks offset.toNat
          (readLen (metaFlen (w.dt.data (sectorOf fb.toNat))) offset.toNat length.toNat)) w) ∧
    (offset.toNat + length.toNat < 2 ^ 54 →
      CountedWrite (w.dt.data (sectorOf fb.toNat)) offset.toNat length.toNat ∧
      Replies (cWrite fb offset length ips) (length.toNat / BLOCKSIZE + 2)
        (rangeBlocks offset.toNat length.toNat) w) := by
  constructor
  · have hend : offset.toNat + readLen (metaFlen (w.dt.data (sectorOf fb.toNat))) offset.toNat
        length.toNat ≤ metaFlen (w.dt.data (sectorOf fb.toNat)) := readLen_le hoff
    have hrange := countedRange (hend.trans h.flen_le)
      (readLen_le_length (metaFlen (w.dt.data (sectorOf fb.toNat))) offset.toNat length.toNat)
    exact ⟨⟨hrange, indexed_read h hend⟩, cRead_replies h hoff⟩
  · intro hlt
    have hmax : 18014398509481984 ≤ MAX_END := by decide
    have hend : offset.toNat + length.toNat ≤ MAX_END := by
      refine le_trans ?_ hmax
      omega
    exact ⟨countedWrite h hoff hend, cWrite_replies h hoff ips hend⟩

/-- The header of a file of twenty bytes in one sector. -/
def shortHeader : Bytes := putLE (putLE (putLE (fun _ => 0) 8 8 20) 40 8 32) 56 4 1

/-- A disk with that file in its sector 0. -/
def shortFile : World :=
  ⟨⟨⟨4, 1, 2, 0⟩, fun i => if i = 0 then ENDSEC else 0, fun _ => shortHeader, 2048⟩, 0,
    ⟨7, 200, fun _ _ => some fun _ => 0, fun _ => 0⟩⟩

/-- A range inside one block, where the u64 difference wraps. -/
theorem counts_exact_short :
    CountedRead shortHeader 5 (readLen (metaFlen shortHeader) 5 7) 7 ∧
      CountedWrite shortHeader 5 7 ∧
      Replies (cWrite 0 5 7 [3]) (7 / BLOCKSIZE + 2) (rangeBlocks 5 7) shortFile := by
  have hfile : RegularFile (shortFile.dt.data (sectorOf (0 : UInt32).toNat)) := by
    refine ⟨?_, ?_⟩
    · rw [blocksFor_eq]
      decide
    · decide
  have hoff : (5 : UInt64).toNat ≤ metaFlen (shortFile.dt.data (sectorOf (0 : UInt32).toNat)) := by
    decide
  obtain ⟨hread, hwrite⟩ := @counts_exact shortFile 0 5 7 [3] hfile hoff
  exact ⟨hread.1, hwrite (by decide)⟩

end Sbpfs.Cfs.CountLaws
