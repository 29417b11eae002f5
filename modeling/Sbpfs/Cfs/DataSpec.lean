import Sbpfs.Cfs.BlockSpec
import Sbpfs.Cfs.NamespaceSpec

/-!
# `c_read` and `c_write`

Both functions cut a range of a file into entries, one for each block. `c_read` leaves
the disk alone; `c_write` gives the file a new length and appends the records of the
blocks it allocated.
-/
namespace Sbpfs.Cfs.DataSpec

open Sbpfs.Lib.Program Sbpfs.Lib.Memory Sbpfs.Lib.Chain
open Sbpfs.Cfs.Layout Sbpfs.Cfs.Rules Sbpfs.Cfs.FatSpec Sbpfs.Cfs.FileSpec
open Sbpfs.Cfs.Lookup Sbpfs.Cfs.Data Sbpfs.Cfs.Image Sbpfs.Cfs.DiskStore
open Sbpfs.Cfs.LookupSpec Sbpfs.Cfs.ObjectSpec Sbpfs.Cfs.BlockSpec
open Sbpfs.Spec.FileTree

attribute [local irreducible] wpOr blocksFor

variable {fs : Fs} {chain : Nat → List Nat} {w : World} {H : Prop}

/-! ## The entries of a reply -/

/-- The entry of a reply about the block of the record `r`. -/
def sendRec (r : Rec) (offset length : Nat) : SendBlock := ⟨r.num, offset, length, r.ip⟩

/-- The length of the last entry of a range that ends at `stop`. -/
def tailLen (stop : Nat) : Nat := if stop % BLOCKSIZE ≠ 0 then stop % BLOCKSIZE else BLOCKSIZE

/-- The first length both functions send when more than one block is touched. -/
def headLen (offset : Nat) : Nat := u32 (u64Sub BLOCKSIZE offset)

/-- Where entry `i` of `n` lies in its block, and how long it is. -/
def cut (offset length n i : Nat) : Nat × Nat :=
  if n = 1 then (offset % BLOCKSIZE, u32 length)
  else if i = 0 then (offset % BLOCKSIZE, headLen offset)
  else if i = n - 1 then (0, tailLen (u64 (offset + length)))
  else (0, BLOCKSIZE)

/-- The reply about a range within the existing blocks. -/
def entries (recs : List Rec) (offset length n : Nat) : List SendBlock :=
  (List.range n).map fun i =>
    sendRec ((recs[offset / BLOCKSIZE + i]?).getD ⟨0, []⟩) (cut offset length n i).1
      (cut offset length n i).2

/-- The entries about existing blocks in front of new ones. -/
def oldEntries (recs : List Rec) (offset : Nat) : List SendBlock :=
  (List.range (recs.length - offset / BLOCKSIZE)).map fun i =>
    sendRec ((recs[offset / BLOCKSIZE + i]?).getD ⟨0, []⟩)
      (if i = 0 then offset % BLOCKSIZE else 0) (if i = 0 then headLen offset else BLOCKSIZE)

/-- The entries about new blocks: the last length is computed from the length of the range. -/
def newEntries (length : Nat) : List Rec → List SendBlock
  | [] => []
  | r :: rs => sendRec r 0 (if rs = [] then tailLen length else BLOCKSIZE) :: newEntries length rs

theorem sendAt_record {img : Bytes} {j offset length : Nat} {r : Rec}
    (h : recAt img (blockOff j) = r) : sendAt img (blockOff j) offset length
      = sendRec r offset length := by
  rw [← h]
  rfl

section Records

variable {img : Bytes} {n len : Nat} {recs : List Rec}

theorem segment_entry (hf : FileImage img n len recs) {offset length k i : Nat}
    (hi : offset / BLOCKSIZE + i < recs.length) :
    Data.segment img offset length k i
      = sendRec ((recs[offset / BLOCKSIZE + i]?).getD ⟨0, []⟩) (cut offset length k i).1
          (cut offset length k i).2 := by
  have hrec : recAt img (blockOff (offset / BLOCKSIZE + i))
      = (recs[offset / BLOCKSIZE + i]?).getD ⟨0, []⟩ := by
    rw [List.getElem?_eq_getElem hi, Option.getD_some]
    exact hf.record _ _ (List.getElem?_eq_getElem hi)
  unfold Data.segment cut
  split
  · exact sendAt_record hrec
  split
  · exact sendAt_record hrec
  split
  · exact sendAt_record hrec
  · exact sendAt_record hrec

theorem oldSegment_entry (hf : FileImage img n len recs) {offset i : Nat}
    (hi : offset / BLOCKSIZE + i < recs.length) :
    oldSegment img offset i
      = sendRec ((recs[offset / BLOCKSIZE + i]?).getD ⟨0, []⟩)
          (if i = 0 then offset % BLOCKSIZE else 0)
          (if i = 0 then headLen offset else BLOCKSIZE) := by
  have hrec : recAt img (blockOff (offset / BLOCKSIZE + i))
      = (recs[offset / BLOCKSIZE + i]?).getD ⟨0, []⟩ := by
    rw [List.getElem?_eq_getElem hi, Option.getD_some]
    exact hf.record _ _ (List.getElem?_eq_getElem hi)
  unfold oldSegment
  by_cases h0 : i = 0
  · rw [if_pos h0, if_pos h0, if_pos h0]
    exact sendAt_record hrec
  · rw [if_neg h0, if_neg h0, if_neg h0]
    exact sendAt_record hrec

theorem segments_eq (hf : FileImage img n len recs) {offset length k : Nat}
    (hk : offset / BLOCKSIZE + k ≤ recs.length) :
    (List.range k).map (Data.segment img offset length k) = entries recs offset length k := by
  refine List.map_congr_left fun i hi => segment_entry hf ?_
  have := List.mem_range.mp hi
  omega

theorem oldSegments_eq (hf : FileImage img n len recs) (offset : Nat) :
    (List.range (recs.length - offset / BLOCKSIZE)).map (oldSegment img offset)
      = oldEntries recs offset := by
  refine List.map_congr_left fun i hi => oldSegment_entry hf ?_
  have := List.mem_range.mp hi
  omega

end Records

/-! ## Reading -/

/-- How many bytes of a file of length `flen` a read of `length` at `offset` covers. -/
def readLen (flen offset length : Nat) : Nat :=
  if length < flen - offset then length else flen - offset

/-- What `c_read` answers about a file of length `flen` with the records `recs`. -/
def ReadReply (flen : Nat) (recs : List Rec) (offset length : Nat) (r : Int × List SendBlock) :
    Prop :=
  if flen < offset then r = (-1, [])
  else
    let k := blocksFor (offset + readLen flen offset length) - offset / BLOCKSIZE
    r = ((k : Int), entries recs offset (readLen flen offset length) k)

theorem readLen_le {flen offset length : Nat} (h : offset ≤ flen) :
    offset + readLen flen offset length ≤ flen := by
  unfold readLen
  split <;> omega

theorem readLen_le_length (flen offset length : Nat) : readLen flen offset length ≤ length := by
  unfold readLen
  split <;> omega

/-- The number of entries of a range is the number of blocks it touches. -/
theorem rangeBlocks_nat {offset length : Nat} (h : offset + length ≤ MAX_END) :
    rangeBlocks offset length = (blocksFor (offset + length) - offset / BLOCKSIZE : Nat) := by
  have hle : offset / BLOCKSIZE ≤ blocksFor (offset + length) := firstBlock_le (by omega)
  rw [rangeBlocks_eq h]
  omega

theorem wp_cRead {fb : UInt32} {offset length : UInt64} {cap uid len : Nat}
    {flags : UInt8} {recs : List Rec} (hst : Store w.dt fs chain)
    (ho : fs fb.toNat = some ⟨uid, flags, .file len recs⟩) (hlen : len ≤ MAX_END)
    (hcap : length.toNat / BLOCKSIZE + 2 ≤ cap) (hH : H ∨ Ample w.env) :
    wpOr H (cRead fb offset length cap)
      (fun r w' => Same w w' ∧ (r = (-9, []) ∧ OutOfMemory w.env ∨
        ReadReply len recs offset.toNat length.toNat r)) w := by
  have hat := hst.obj _ _ ho
  have hfile : FileImage (imageOf w.dt.data (chain fb.toNat)) (chain fb.toNat).length len recs :=
    hat.holds.node
  have hflen : metaFlen (w.dt.data fb.toNat) = len :=
    (hat.header_field (by omega)).trans hfile.flen
  unfold cRead
  simp only [wp_bind, wp_readSector, hst.sized.sectorOf hat.head_lt, hst.sized.dataSecs, hflen,
    wp_ite, wp_pure, wp_malloc, hat.buffer_size hst.sized]
  refine ⟨hat.head_lt, ?_⟩
  by_cases hoff : len < offset.toNat
  · rw [if_pos hoff]
    refine ⟨Same.refl w, .inr ?_⟩
    unfold ReadReply
    rw [if_pos hoff]
  rw [if_neg hoff]
  cases hm : w.env.heap .records 0 with
  | none => exact (wp_pure _ _ _).mpr ⟨Same.pop w _, .inl ⟨rfl, outOfMemory_of_none hm⟩⟩
  | some junk =>
    simp only [Option.map_some]
    refine wp_call (wp_readObj (w := { w with env := w.env.pop .records }) hst.sized hat
      (Nat.le_refl _) (hH.imp_right fun h => h.later (Later.pop _ _))) ?_
    rintro buf w₁ ⟨rfl, -, hholds, -⟩
    have himg : FileImage buf.bytes (chain fb.toNat).length len recs := hholds.node
    have hle : offset.toNat + readLen len offset.toNat length.toNat ≤ len := readLen_le (by omega)
    have hn : rangeBlocks offset.toNat (readLen len offset.toNat length.toNat)
        = (blocksFor (offset.toNat + readLen len offset.toNat length.toNat)
            - offset.toNat / BLOCKSIZE : Nat) := rangeBlocks_nat (by omega)
    have hroom := rangeBlocks_cap offset.toNat (readLen len offset.toNat length.toNat)
    have hsmall : readLen len offset.toNat length.toNat / BLOCKSIZE ≤ length.toNat / BLOCKSIZE :=
      Nat.div_le_div_right (readLen_le_length _ _ _)
    have hrecs : blocksFor (offset.toNat + readLen len offset.toNat length.toNat)
      ≤ recs.length := by
      rw [himg.count]
      exact blocksFor_mono hle
    have hfirst : offset.toNat / BLOCKSIZE
        ≤ blocksFor (offset.toNat + readLen len offset.toNat length.toNat) :=
      firstBlock_le (by omega)
    rw [show (if length.toNat < len - offset.toNat then length.toNat else len - offset.toNat)
      = readLen len offset.toNat length.toNat from rfl]
    simp only [hn, Int.toNat_natCast]
    rw [if_pos (by omega)]
    refine (wp_pure _ _ _).mpr ⟨Same.pop w _, .inr ?_⟩
    unfold ReadReply
    rw [if_neg hoff]
    have hk : offset.toNat / BLOCKSIZE
        + (blocksFor (offset.toNat + readLen len offset.toNat length.toNat)
            - offset.toNat / BLOCKSIZE) ≤ recs.length := by
      rw [Nat.add_sub_cancel' hfirst]
      exact hrecs
    rw [segments_eq himg hk]

/-! ## Recorded lengths -/

/-- The length of the block, as record `i` has it. -/
def lengthAt (b : Bytes) (i : Nat) : Nat := blockLength b (blockOff i)

theorem tailLen_lt (n : Nat) : tailLen n < 2 ^ 32 := by
  unfold tailLen
  simp only [BLOCKSIZE]
  split <;> omega

theorem lengthAt_putLength (b : Bytes) (i j v : Nat) :
    lengthAt (putLE b (blockOff j + 12) 4 v) i = if i = j then u32 v else lengthAt b i := by
  have hi : blockOff i = 64 + 32 * i := rfl
  have hj : blockOff j = 64 + 32 * j := rfl
  unfold lengthAt blockLength
  by_cases h : i = j
  · subst h
    rw [if_pos rfl]
    exact getLE_putLE_same _ _ _ _
  · rw [if_neg h, hi, hj, getLE_putLE_ne (by omega)]

theorem lengthAt_congr {b b' : Bytes} {lo n i : Nat} (h : Agree b b' lo n) (hlo : lo ≤ 64 + 32 * i)
    (hn : 96 + 32 * i ≤ lo + n) : lengthAt b i = lengthAt b' i := by
  have hi : blockOff i = 64 + 32 * i := rfl
  unfold lengthAt blockLength
  rw [hi]
  exact getLE_congr (h.mono (by omega) (by omega))

/-! ## New records -/

/-- The record at `off` as the last loop of `c_write` assigns it. -/
def putRec (b : Bytes) (off num len : Nat) (ip : List Nat) : Bytes :=
  let b := blit b off (fun _ => 0) 0 blockSize
  let b := putLE b off 8 num
  let b := putLE b (off + 12) 4 len
  let b := putLE b (off + 16) 4 ((ip[0]?).getD 0)
  let b := putLE b (off + 20) 4 ((ip[1]?).getD 0)
  let b := putLE b (off + 24) 4 ((ip[2]?).getD 0)
  putLE b (off + 28) 1 1

theorem putRec_outside {b : Bytes} {off num len i : Nat} {ip : List Nat}
    (h : i < off ∨ off + 32 ≤ i) : putRec b off num len ip i = b i := by
  simp (disch := omega) only [putRec, putLE_outside, blit_outside, blockSize]

theorem putRec_agree {b : Bytes} {off num len off' n : Nat} {ip : List Nat}
    (h : off' + n ≤ off ∨ off + 32 ≤ off') : Agree (putRec b off num len ip) b off' n :=
  fun _ _ _ => putRec_outside (by omega)

theorem recAt_putRec (b : Bytes) (off num len : Nat) (ip : List Nat) :
    recAt (putRec b off num len ip) off = storedRec num ip := by
  have hnum : blockNum (putRec b off num len ip) off = u64 num := by
    simp (disch := omega) only [putRec, blockNum, getLE_putLE_ne]
    exact getLE_putLE_same _ _ _ _
  have h0 : blockIp (putRec b off num len ip) off 0 = u32 ((ip[0]?).getD 0) := by
    simp (disch := omega) only [putRec, blockIp, getLE_putLE_ne, Nat.mul_zero, Nat.add_zero]
    exact getLE_putLE_same _ _ _ _
  have h1 : blockIp (putRec b off num len ip) off 1 = u32 ((ip[1]?).getD 0) := by
    simp (disch := omega) only [putRec, blockIp, getLE_putLE_ne, Nat.mul_one]
    exact getLE_putLE_same _ _ _ _
  have h2 : blockIp (putRec b off num len ip) off 2 = u32 ((ip[2]?).getD 0) := by
    simp (disch := omega) only [putRec, blockIp, getLE_putLE_ne]
    exact getLE_putLE_same _ _ _ _
  simp only [recAt, storedRec, hnum, h0, h1, h2]

theorem lengthAt_putRec (b : Bytes) (m num len : Nat) (ip : List Nat) :
    lengthAt (putRec b (64 + 32 * m) num len ip) m = u32 len := by
  have hm : blockOff m = 64 + 32 * m := rfl
  unfold lengthAt blockLength putRec
  rw [hm]
  simp (disch := omega) only [getLE_putLE_ne]
  exact getLE_putLE_same _ _ _ _

/-- Records of `news` follow the first `m` records of a buffer. -/
structure Extended (m : Nat) (news : List Rec) (b b' : Buf) : Prop where
  size : b'.size = b.size
  strbase : metaStrbase b'.bytes = 32 * (m + news.length)
  header : Agree b'.bytes b.bytes 0 40
  rest : Agree b'.bytes b.bytes 48 (16 + 32 * m)
  record : ∀ i r, news[i]? = some r → recAt b'.bytes (blockOff (m + i)) = r

theorem recAt_congr {b b' : Bytes} {off : Nat} (h : Agree b b' off 32) :
    recAt b off = recAt b' off := by
  have hf : ∀ o m, off ≤ o → o + m ≤ off + 32 → getLE b o m = getLE b' o m :=
    fun o m hl hu => getLE_congr (h.mono hl hu)
  simp only [recAt, blockNum, blockIp]
  rw [hf off 8 (by omega) (by omega), hf _ 4 (by omega) (by omega), hf _ 4 (by omega) (by omega),
    hf _ 4 (by omega) (by omega)]

/-- One more record in front of the others. -/
theorem Extended.cons {m : Nat} {news : List Rec} {r : Rec} {b b₁ b' : Buf}
    (h : Extended (m + 1) news b₁ b')
    (hsize : b₁.size = b.size) (hheader : Agree b₁.bytes b.bytes 0 40)
    (hrest : Agree b₁.bytes b.bytes 48 (16 + 32 * m)) (hr : recAt b₁.bytes (blockOff m) = r) :
    Extended m (r :: news) b b' where
  size := h.size.trans hsize
  strbase := by
    rw [h.strbase, List.length_cons]
    omega
  header := h.header.trans hheader
  rest := (h.rest.mono (Nat.le_refl _) (by omega)).trans hrest
  record := by
    intro i r' hi
    cases i with
    | zero =>
      cases hi
      have hoff : blockOff m = 64 + 32 * m := rfl
      rw [Nat.add_zero, ← hr]
      exact recAt_congr (h.rest.mono (by omega) (by omega))
    | succ i =>
      have := h.record i r' hi
      rwa [show m + (i + 1) = m + 1 + i from by omega]

theorem wp_newSegments {length m n : Nat} {ips : List Nat} {buf : Buf} (hips : ips ≠ [])
    (hbase : metaStrbase buf.bytes = 32 * m) (hroom : 64 + 32 * (m + n) ≤ buf.size)
    (hsmall : m + n < 2 ^ 32) :
    wpOr H (newSegments length ips n buf)
      (fun r w' => ∃ news, Allocated ips n w news w' ∧ Extended m news buf r.1 ∧
        r.2 = newEntries length news ∧ ∀ i < n, lengthAt r.1.bytes (m + i)
          = if i + 1 = n then tailLen length else BLOCKSIZE) w := by
  induction n generalizing m buf w with
  | zero =>
    refine (wp_pure _ _ _).mpr ⟨[], Allocated.nil ips w, ⟨rfl, hbase, Agree.refl _ _ _,
      Agree.refl _ _ _, fun i r hi => ?_⟩, rfl, fun i hi => absurd hi (Nat.not_lt_zero i)⟩
    simp at hi
  | succ n ih =>
    rw [newSegments]
    refine wp_call (wp_allocBlock hips) ?_
    rintro ⟨num, ip⟩ w₁ ⟨hnum, hlen, hc, hmax, haddr⟩
    have hoff : metaSize + metaStrbase buf.bytes = 64 + 32 * m := by rw [hbase]
    simp only [hoff, wp_bind, wp_copyIn, wp_store, wp_pure, blockSize]
    have hput : ∀ len, putLE (putLE (putLE (putLE (putLE (putLE (blit buf.bytes (64 + 32 * m)
        (fun _ => 0) 0 32) (64 + 32 * m) 8 num) (64 + 32 * m + 12) 4 len) (64 + 32 * m + 16) 4
        ((ip[0]?).getD 0)) (64 + 32 * m + 20) 4 ((ip[1]?).getD 0)) (64 + 32 * m + 24) 4
        ((ip[2]?).getD 0)) (64 + 32 * m + 28) 1 1 = putRec buf.bytes (64 + 32 * m) num len ip :=
      fun _ => rfl
    simp only [hput]
    refine ⟨by omega, by omega, by omega, by omega, by omega, by omega, by omega, by omega, ?_⟩
    generalize hl : (if n = 0 then if length % BLOCKSIZE ≠ 0 then length % BLOCKSIZE else BLOCKSIZE
      else BLOCKSIZE) = l
    have hbase₁ : metaStrbase (putRec buf.bytes (64 + 32 * m) num l ip) = 32 * m := by
      rw [← hbase]
      exact getLE_congr (putRec_agree (by omega))
    rw [hbase₁, show u64 (32 * m + 32) = 32 * (m + 1) from by unfold u64; omega]
    refine wp_mono (ih (m := m + 1) (getLE_putLE (by omega)) (by change _ ≤ buf.size; omega)
      (by omega)) ?_
    rintro ⟨b', segs⟩ w' ⟨news, halloc, hext, hsegs, hlengths⟩
    have hnews : news.length = n := halloc.length
    refine ⟨storedRec num ip :: news, halloc.cons hc hnum hmax haddr, hext.cons rfl ?_ ?_ ?_, ?_,
      fun i hi => ?_⟩
    · exact (putLE_agree (by omega)).trans (putRec_agree (by omega))
    · exact (putLE_agree (by omega)).trans (putRec_agree (by omega))
    · exact (recAt_congr (putLE_agree (by simp only [blockOff, metaSize, blockSize]; omega))).trans
        (recAt_putRec ..)
    · have hnil : news = [] ↔ n = 0 := by rw [← hnews, List.length_eq_zero_iff]
      have hsend : sendAt (putRec buf.bytes (64 + 32 * m) num l ip) (64 + 32 * m) 0 l
          = sendRec (storedRec num ip) 0 l :=
        sendAt_record (j := m) (recAt_putRec ..)
      rw [newEntries, ← hsegs, hsend, ← hl]
      simp only [hnil]
      rfl
    · cases i with
      | zero =>
        have hkept : lengthAt b'.bytes m = lengthAt (putRec buf.bytes (64 + 32 * m) num l ip) m :=
          (lengthAt_congr hext.rest (by omega) (by omega)).trans
            (lengthAt_congr (n := 32) (putLE_agree (by omega)) (Nat.le_refl _) (by omega))
        have hstored : l = if 0 + 1 = n + 1 then tailLen length else BLOCKSIZE := by
          rw [← hl]
          simp only [Nat.add_right_cancel_iff, eq_comm (a := 0), tailLen]
        have hlt : l < 2 ^ 32 := by
          rw [hstored]
          split
          · exact tailLen_lt _
          · decide
        show lengthAt b'.bytes m = _
        rw [hkept, lengthAt_putRec, u32, Nat.mod_eq_of_lt hlt]
        exact hstored
      | succ i =>
        have hrest := hlengths i (by omega)
        rw [show m + (i + 1) = m + 1 + i by omega, hrest]
        simp only [Nat.add_right_cancel_iff]

/-! ## Writing -/

/-- The buffer `b'` has the records `recs` where `b` may have had others. -/
structure Filled (recs : List Rec) (b b' : Buf) : Prop where
  size : b'.size = b.size
  strbase : metaStrbase b'.bytes = 32 * recs.length
  header : Agree b'.bytes b.bytes 0 40
  rest : Agree b'.bytes b.bytes 48 16
  record : ∀ i r, recs[i]? = some r → recAt b'.bytes (blockOff i) = r

/-- The length of a record is no part of what the disk says about the block. -/
theorem recAt_putLE_length (b : Bytes) (i j v : Nat) :
    recAt (putLE b (blockOff j + 12) 4 v) (blockOff i) = recAt b (blockOff i) := by
  have hi : blockOff i = 64 + 32 * i := rfl
  have hj : blockOff j = 64 + 32 * j := rfl
  simp (disch := omega) only [recAt, blockNum, blockIp, hi, hj, getLE_putLE_ne]

section Branches

variable {buf : Buf} {n len : Nat} {recs : List Rec}

theorem Filled.same (hf : FileImage buf.bytes n len recs) : Filled recs buf buf :=
  ⟨rfl, hf.strbase, Agree.refl _ _ _, Agree.refl _ _ _, hf.record⟩

theorem Filled.putLength (hf : FileImage buf.bytes n len recs) (j v : Nat) :
    Filled recs buf ⟨buf.size, putLE buf.bytes (blockOff j + 12) 4 v⟩ := by
  have hj : blockOff j = 64 + 32 * j := rfl
  refine ⟨rfl, ?_, putLE_agree (by omega), putLE_agree (by omega), fun i r hi => ?_⟩
  · rw [← hf.strbase]
    exact getLE_putLE_ne (by omega)
  · rw [← hf.record i r hi]
    exact recAt_putLE_length ..

theorem segment_last {b : Bytes} {offset length k : Nat} (hk : 1 < k) :
    (Data.segment b offset length k (k - 1)).length = tailLen (u64 (offset + length)) := by
  unfold Data.segment tailLen
  rw [if_neg (Nat.ne_of_gt hk), if_neg (Nat.sub_ne_zero_of_lt hk), if_pos rfl]
  simp only [sendAt]

/-- Storing the larger of two lengths. -/
theorem u32_larger {a b : Nat} (ha : a < 2 ^ 32) (hb : b < 2 ^ 32) :
    u32 (if a < b then b else a) = max b a := by
  unfold u32
  by_cases h : a < b
  · rw [if_pos h, Nat.mod_eq_of_lt hb, Nat.max_eq_left h.le]
  · rw [if_neg h, Nat.mod_eq_of_lt ha, Nat.max_eq_right (Nat.le_of_not_lt h)]

/-- The first branch on a range of `k` blocks that starts in block `first`. -/
theorem wp_storeLengths (hf : FileImage buf.bytes n len recs) {offset length k : Nat}
    (hk : offset / BLOCKSIZE + k ≤ recs.length) (hend : offset + length ≤ MAX_END)
    (hroom : 64 + 32 * recs.length ≤ buf.size) :
    wpOr H (storeLengths buf offset length k)
      (fun b' w' => w' = w ∧ Filled recs buf b' ∧ ∀ i, lengthAt b'.bytes i =
        if i + 1 ≠ offset / BLOCKSIZE + k ∨ k = 0 then lengthAt buf.bytes i
        else if k = 1 then u32 (offset + length)
        else max (lengthAt buf.bytes i) (tailLen (offset + length))) w := by
  have hoff : ∀ j, j < recs.length → blockOff j + 12 + 4 ≤ buf.size := by
    intro j hj
    simp only [blockOff, metaSize, blockSize]
    omega
  have hsum : u64 (offset + length) = offset + length := Nat.mod_eq_of_lt (hend.trans_lt MAX_END_lt)
  unfold storeLengths
  by_cases h1 : k = 1
  · subst h1
    rw [if_pos rfl]
    refine (wp_store ..).mpr ⟨hoff _ (by omega), rfl, Filled.putLength hf _ _, fun i => ?_⟩
    have hu : u32 (u32 (offset + length)) = u32 (offset + length) := Nat.mod_mod _ _
    rw [lengthAt_putLength, Nat.add_comm length, hsum, hu]
    by_cases hi : i = offset / BLOCKSIZE
    · rw [if_pos hi, if_neg (by omega), if_pos rfl]
    · rw [if_neg hi, if_pos (by omega)]
  rw [if_neg h1]
  by_cases h0 : k = 0
  · rw [if_pos h0]
    refine (wp_pure _ _ _).mpr ⟨rfl, Filled.same hf, fun i => ?_⟩
    rw [if_pos (.inr h0)]
  · rw [if_neg h0]
    refine (wp_store ..).mpr ⟨hoff _ (by omega), rfl, Filled.putLength hf _ _, fun i => ?_⟩
    have hlast : blockLength buf.bytes (blockOff (offset / BLOCKSIZE + (k - 1)))
      = lengthAt buf.bytes (offset / BLOCKSIZE + (k - 1)) := rfl
    have hold : lengthAt buf.bytes (offset / BLOCKSIZE + (k - 1)) < 2 ^ 32 := getLE_lt _ _ 4
    rw [lengthAt_putLength, segment_last (by omega), hsum, hlast, u32_larger (tailLen_lt _) hold]
    by_cases hi : i = offset / BLOCKSIZE + (k - 1)
    · rw [if_pos hi, if_neg (by omega), if_neg h1, hi]
    · rw [if_neg hi, if_pos (by omega)]

theorem Extended.filled {news : List Rec} {b' : Buf} (hf : FileImage buf.bytes n len recs)
    (h : Extended recs.length news buf b') : Filled (recs ++ news) buf b' where
  size := h.size
  strbase := by rw [h.strbase, List.length_append]
  header := h.header
  rest := h.rest.mono (Nat.le_refl _) (by omega)
  record := by
    intro i r hi
    by_cases hlt : i < recs.length
    · rw [List.getElem?_append_left hlt] at hi
      rw [← hf.record i r hi]
      refine recAt_congr (h.rest.mono ?_ ?_) <;>
      · simp only [blockOff, metaSize, blockSize]
        omega
    · rw [List.getElem?_append_right (by omega)] at hi
      have := h.record _ r hi
      rwa [show recs.length + (i - recs.length) = i from by omega] at this

end Branches

/-- The number of blocks a write that ends at `stop` adds to `m` records. -/
def growth (m stop : Nat) : Nat := blocksFor stop - m

/-- The reply of a write. -/
def writeEntries (recs news : List Rec) (offset length : Nat) : List SendBlock :=
  if blocksFor (offset + length) ≤ recs.length then
    entries recs offset length (blocksFor (offset + length) - offset / BLOCKSIZE)
  else oldEntries recs offset ++ newEntries length news

/-- The length that `c_write` leaves in record `i` of a file that had `m` records. -/
def newLength (m offset length i old : Nat) : Nat :=
  if blocksFor (offset + length) ≤ m then
    if i + 1 ≠ blocksFor (offset + length) ∨
      blocksFor (offset + length) ≤ offset / BLOCKSIZE then old
    else if blocksFor (offset + length) = offset / BLOCKSIZE + 1 then u32 (offset + length)
    else max old (tailLen (offset + length))
  else if i < m then old
  else if i + 1 = blocksFor (offset + length) then tailLen length
  else BLOCKSIZE

/-- The records of a file that had `m` of them have the lengths that a write leaves. -/
def Relengthed (m offset length : Nat) (b b' : Bytes) : Prop :=
  ∀ i < m + growth m (offset + length), lengthAt b' i = newLength m offset length i (lengthAt b i)

/-- The length of a new record does not depend on what stood there. -/
theorem newLength_new {m offset length i old old' : Nat} (hm : m ≤ i)
    (hi : i < m + growth m (offset + length)) :
    newLength m offset length i old = newLength m offset length i old' := by
  unfold growth at hi
  have hgrow : ¬ blocksFor (offset + length) ≤ m := by omega
  unfold newLength
  simp only [if_neg hgrow, if_neg (Nat.not_lt.mpr hm)]

theorem u64OfInt_nat {m : Nat} (h : m < 2 ^ 64) : u64OfInt (m : Int) = m := by
  unfold u64OfInt
  rw [Int.emod_eq_of_lt (by omega) (by omega), Int.toNat_natCast]

theorem wp_writeRecords {buf : Buf} {n len offset length cap : Nat} {recs : List Rec}
    {ips : List Nat} (hf : FileImage buf.bytes n len recs) (hlen : len ≤ MAX_END)
    (hoff : offset ≤ len) (hend : offset + length ≤ MAX_END) (hips : ips ≠ [])
    (hcap : length / BLOCKSIZE + 2 ≤ cap) (hold : 64 + 32 * recs.length ≤ buf.size)
    (hnew : 64 + 32 * blocksFor (offset + length) ≤ buf.size) :
    wpOr H (writeRecords buf offset length
        (blocksFor (offset + length) - offset / BLOCKSIZE : Nat)
        ((blocksFor (offset + length) : Int) - blocksFor len) ips cap)
      (fun r w' => ∃ news, Allocated ips (growth recs.length (offset + length)) w news w' ∧
        Filled (recs ++ news) buf r.1 ∧ r.2 = writeEntries recs news offset length ∧
        Relengthed recs.length offset length buf.bytes r.1.bytes) w := by
  have hcount : recs.length = blocksFor len := hf.count
  have hroom := rangeBlocks_cap offset length
  have hfirst : offset / BLOCKSIZE ≤ blocksFor (offset + length) := firstBlock_le (by omega)
  have hfirst' : offset / BLOCKSIZE ≤ blocksFor len := firstBlock_le hoff
  have hmax : blocksFor (offset + length) < 2 ^ 31 := blocksFor_max hend
  have hmax' : blocksFor len < 2 ^ 31 := blocksFor_max hlen
  unfold writeRecords
  by_cases hgrow : blocksFor (offset + length) ≤ blocksFor len
  · have hk : offset / BLOCKSIZE + (blocksFor (offset + length) - offset / BLOCKSIZE)
        ≤ recs.length := by omega
    have hnone : (blocksFor (offset + length) : Int) - blocksFor len ≤ 0 := by omega
    have hfits : blocksFor (offset + length) - offset / BLOCKSIZE ≤ cap := by omega
    rw [if_pos hnone]
    simp only [Int.toNat_natCast]
    rw [if_pos hfits, wp_bind]
    refine wp_mono (wp_storeLengths hf hk hend hold) ?_
    rintro b' w₁ ⟨rfl, hfill, hlengths⟩
    have hzero : growth recs.length (offset + length) = 0 := by
      unfold growth
      omega
    refine (wp_pure _ _ _).mpr ⟨[], ?_, ?_, ?_, fun i _ => ?_⟩
    · rw [hzero]
      exact Allocated.nil ips _
    · rw [List.append_nil]
      exact hfill
    · unfold writeEntries
      rw [if_pos (by omega), segments_eq hf hk]
    · have hsum : offset / BLOCKSIZE + (blocksFor (offset + length) - offset / BLOCKSIZE)
          = blocksFor (offset + length) := Nat.add_sub_cancel' hfirst
      have hone : blocksFor (offset + length) - offset / BLOCKSIZE = 1
          ↔ blocksFor (offset + length) = offset / BLOCKSIZE + 1 := by omega
      unfold newLength
      rw [if_pos (hgrow.trans_eq hcount.symm), hlengths i]
      simp only [hsum, hone, Nat.sub_eq_zero_iff_le]
  · have hk : (blocksFor (offset + length) - offset / BLOCKSIZE : Nat)
        - ((blocksFor (offset + length) : Int) - blocksFor len)
          = (recs.length - offset / BLOCKSIZE : Nat) := by omega
    have hu : u64OfInt ((recs.length - offset / BLOCKSIZE : Nat) : Int)
        = recs.length - offset / BLOCKSIZE := by
      exact u64OfInt_nat ((Nat.sub_le _ _).trans_lt (by omega))
    have hn : ((blocksFor (offset + length) : Int) - blocksFor len).toNat
        = growth recs.length (offset + length) := by
      rw [← hcount]
      exact Int.toNat_sub _ _
    have hgr : growth recs.length (offset + length) = blocksFor (offset + length) - recs.length :=
      rfl
    have hsome : ¬ (blocksFor (offset + length) : Int) - blocksFor len ≤ 0 := by omega
    have hfits : recs.length - offset / BLOCKSIZE + growth recs.length (offset + length) ≤ cap := by
      omega
    have hsize : 64 + 32 * (recs.length + growth recs.length (offset + length)) ≤ buf.size := by
      omega
    rw [if_neg hsome]
    simp only [hk, hu, hn]
    rw [if_pos hfits, wp_bind]
    refine wp_mono (wp_newSegments hips hf.strbase hsize (by omega)) ?_
    rintro ⟨b', segs⟩ w₁ ⟨news, halloc, hext, hsegs, hlengths⟩
    refine (wp_pure _ _ _).mpr ⟨news, halloc, hext.filled hf, ?_, fun i hi => ?_⟩
    · unfold writeEntries
      rw [if_neg (by omega), oldSegments_eq hf, ← hsegs]
    · unfold newLength
      rw [if_neg (by omega)]
      by_cases hlt : i < recs.length
      · rw [if_pos hlt]
        exact lengthAt_congr hext.rest (by omega) (by omega)
      · have hnew := hlengths (i - recs.length) (by omega)
        have hlast : i - recs.length + 1 = growth recs.length (offset + length)
            ↔ i + 1 = blocksFor (offset + length) := by omega
        rw [Nat.add_sub_cancel' (Nat.le_of_not_lt hlt)] at hnew
        rw [if_neg hlt, hnew]
        simp only [hlast]

/-- The header fields `c_write` assigns at last. -/
def finishHeader (b : Bytes) (newsize now sectors : Nat) : Bytes :=
  putLE (putLE (putLE b 8 8 newsize) 32 8 now) 56 4 sectors

theorem lengthAt_finishHeader (b : Bytes) (newsize now sectors i : Nat) :
    lengthAt (finishHeader b newsize now sectors) i = lengthAt b i := by
  have hi : blockOff i = 64 + 32 * i := rfl
  unfold lengthAt blockLength finishHeader
  rw [hi]
  simp (disch := omega) only [getLE_putLE_ne]

/-- The sectors a file with `m` records takes. -/
def fileSectors (m : Nat) : Nat := (64 + 32 * m + 511) / 512

theorem Filled.holds {buf b' : Buf} {n fb uid len len' now : Nat} {flags : UInt8}
    {recs recs' : List Rec} (h : Filled recs' buf b')
    (ho : Holds buf.bytes n fb ⟨uid, flags, .file len recs⟩) (hlen : len' < 2 ^ 64)
    (hcount : recs'.length = blocksFor len') (hmax : recs'.length < 2 ^ 31) :
    Holds (finishHeader b'.bytes len' now (fileSectors recs'.length)) (fileSectors recs'.length) fb
      ⟨uid, flags, .file len' recs'⟩ where
  uid := by
    rw [← ho.uid]
    simp (disch := omega) only [finishHeader, metaUid, getLE_putLE_ne]
    exact getLE_congr (h.header.mono (by omega) (by omega))
  flags := by
    rw [← ho.flags]
    simp (disch := omega) only [finishHeader, metaFlags, putLE_outside]
    exact h.rest 60 (by omega) (by omega)
  blocks := getLE_putLE (by unfold fileSectors; omega)
  node := by
    refine ⟨?_, ?_, rfl, hcount, fun i r hi => ?_⟩
    · simp (disch := omega) only [finishHeader, metaFlen, getLE_putLE_ne]
      exact getLE_putLE hlen
    · rw [← h.strbase]
      simp (disch := omega) only [finishHeader, metaStrbase, getLE_putLE_ne]
    · rw [← h.record i r hi]
      have hoff : blockOff i = 64 + 32 * i := rfl
      refine recAt_congr ?_
      exact ((putLE_agree (by omega)).trans (putLE_agree (by omega))).trans (putLE_agree (by omega))

/-- The counters are no part of what the disk stores. -/
theorem Store.counted {w' : World} (h : Store w.dt fs chain) (hc : Counted w w') :
    Store w'.dt fs chain where
  sized := by
    refine ⟨?_, ?_, ?_⟩
    · rw [hc.dtSize, hc.fatSecNum, hc.fatNum]
      exact h.sized.exact
    · rw [hc.dtSize, hc.fatSecNum]
      exact h.sized.fatSec
    · rw [hc.dtSize]
      exact h.sized.lt
  topFree := by
    intro i hi
    rw [hc.fat]
    rw [hc.fatNum] at hi
    exact h.topFree i hi
  usable := by
    rw [hc.fatNum]
    exact h.usable
  reserved := by
    rw [hc.fat]
    exact h.reserved
  rootEntry := by
    rw [hc.data]
    exact h.rootEntry
  obj := fun m o hm => (h.obj m o hm).frame (by rw [hc.fatNum]) (fun c _ => by rw [hc.fat])
    (fun c _ => by rw [hc.data])
  disjoint := h.disjoint
  owned := fun i hi hfat => by
    rw [hc.fat] at hfat
    exact h.owned i hi hfat

/-- The state and the reply after a write of `length` bytes at `offset` to the file at `fb`
with the length `len` and the records `recs`: the blocks allocated have the records `news`. -/
structure Wrote (fs : Fs) (chain : Nat → List Nat) (fb uid : Nat) (flags : UInt8) (len : Nat)
    (recs : List Rec) (offset length : Nat) (ips : List Nat) (w : World)
    (r : Int × List SendBlock) (w' : World) (news : List Rec) (w₁ : World) (cs : List Nat) :
    Prop where
  alloc : Allocated ips (growth recs.length (offset + length)) w news w₁
  count : (recs ++ news).length = blocksFor (max len (offset + length))
  rewritten : Rewritten fs chain fb ⟨uid, flags, .file (max len (offset + length)) (recs ++ news)⟩
    w₁ w' cs
  reply : r = (((blocksFor (offset + length) - offset / BLOCKSIZE : Nat) : Int),
    writeEntries recs news offset length)

theorem blocksFor_max_eq {len stop m : Nat} (h : m = blocksFor len) :
    m + growth m stop = blocksFor (max len stop) := by
  unfold growth
  rcases Nat.le_total len stop with hle | hle
  · have := blocksFor_mono hle
    rw [Nat.max_eq_right hle]
    omega
  · have := blocksFor_mono hle
    rw [Nat.max_eq_left hle]
    omega

/-- Room for the records of a file that reaches to `stop`. -/
def RoomToWrite (dt : Dtree) (chain : Nat → List Nat) (fb stop : Nat) : Prop :=
  Spare (freed dt (chain fb)) fb (fileSectors (blocksFor stop) - 1)

/-- What `c_write` does, down to the lengths in the records. -/
theorem wp_cWrite_lengths {fb : UInt32} {offset length : UInt64} {cap uid len : Nat}
    {ips : List Nat} {flags : UInt8} {recs : List Rec} (hst : Store w.dt fs chain)
    (ho : fs fb.toNat = some ⟨uid, flags, .file len recs⟩) (hlen : len ≤ MAX_END)
    (hend : offset.toNat ≤ len → offset.toNat + length.toNat ≤ MAX_END) (hips : ips ≠ [])
    (hcap : length.toNat / BLOCKSIZE + 2 ≤ cap)
    (hH : H ∨ (Ample w.env ∧ (offset.toNat ≤ len →
      RoomToWrite w.dt chain fb.toNat (max len (offset.toNat + length.toNat))))) :
    wpOr H (cWrite fb offset length ips cap)
      (fun r w' => (Same w w' ∧ (r = (-9, []) ∧ w.env.heap .records 0 = none ∨
          len < offset.toNat ∧ r = (-1, []))) ∨
        (offset.toNat ≤ len ∧ ∃ news w₁ cs, Wrote fs chain fb.toNat uid flags len recs offset.toNat
          length.toNat ips w r w' news w₁ cs ∧ Relengthed recs.length offset.toNat length.toNat
            (imageOf w.dt.data (chain fb.toNat)) (imageOf w'.dt.data cs))) w := by
  have hat := hst.obj _ _ ho
  have hfile : FileImage (imageOf w.dt.data (chain fb.toNat)) (chain fb.toNat).length len recs :=
    hat.holds.node
  have hflen : metaFlen (w.dt.data fb.toNat) = len :=
    (hat.header_field (by omega)).trans hfile.flen
  unfold cWrite
  simp only [wp_bind, wp_readSector, hst.sized.sectorOf hat.head_lt, hst.sized.dataSecs, hflen,
    wp_ite, wp_pure, wp_malloc, hat.buffer_size hst.sized]
  refine ⟨hat.head_lt, ?_⟩
  by_cases hoff : len < offset.toNat
  · rw [if_pos hoff]
    exact .inl ⟨Same.refl w, .inr ⟨hoff, trivial⟩⟩
  rw [if_neg hoff]
  cases hm : w.env.heap .records 0 with
  | none => exact (wp_pure _ _ _).mpr (.inl ⟨Same.pop w _, .inl ⟨rfl, rfl⟩⟩)
  | some junk =>
    have hend' := hend (by omega)
    have hsum : u64 (offset.toNat + length.toNat) = offset.toNat + length.toNat := by
      exact Nat.mod_eq_of_lt (hend'.trans_lt MAX_END_lt)
    have hup : upDiv (offset.toNat + length.toNat) BLOCKSIZE
        = blocksFor (offset.toNat + length.toNat) := upDiv_blocks hend'
    have hup' : upDiv len BLOCKSIZE = blocksFor len := upDiv_blocks hlen
    simp only [Option.map_some, hsum, hup, hup', s32_sub (blocksFor_max hend') (blocksFor_max hlen),
      rangeBlocks_nat hend', metaSize, blockSize]
    have hmax : blocksFor (offset.toNat + length.toNat) < 2 ^ 31 := blocksFor_max hend'
    have hbuf : u64 (64 + blocksFor (offset.toNat + length.toNat) * 32)
        = 64 + 32 * blocksFor (offset.toNat + length.toNat) := by
      unfold u64
      omega
    rw [hbuf]
    generalize hS : (if 64 + 32 * blocksFor (offset.toNat + length.toNat)
      > 512 * (chain fb.toNat).length then 64 + 32 * blocksFor (offset.toNat + length.toNat)
      else 512 * (chain fb.toNat).length) = S
    have hchain : 512 * (chain fb.toNat).length ≤ S := by
      rw [← hS]
      split <;> omega
    have hroom : 64 + 32 * blocksFor (offset.toNat + length.toNat) ≤ S := by
      rw [← hS]
      split <;> omega
    refine wp_call (wp_readObj (w := { w with env := w.env.pop .records }) hst.sized hat hchain
      (hH.imp_right fun h => h.1.later (Later.pop _ _))) ?_
    rintro buf w₁ ⟨rfl, hsize, hholds, hread⟩
    have himg : FileImage buf.bytes (chain fb.toNat).length len recs := hholds.node
    have hsectors := himg.sectors
    change buf.size = S at hsize
    refine wp_call (wp_writeRecords himg hlen (by omega) hend' hips hcap (by omega) (by omega)) ?_
    rintro ⟨b', segs⟩ w₁ ⟨news, halloc, hfill, hsegs, hlengths⟩
    have hcount : (recs ++ news).length
        = blocksFor (max len (offset.toNat + length.toNat)) := by
      rw [List.length_append, halloc.length]
      exact blocksFor_max_eq himg.count
    have hnewlen : max len (offset.toNat + length.toNat) ≤ MAX_END := Nat.max_le.mpr ⟨hlen, hend'⟩
    have hmaxrecs : (recs ++ news).length < 2 ^ 31 := by
      rw [hcount]
      exact blocksFor_max hnewlen
    have hlen64 : max len (offset.toNat + length.toNat) < 2 ^ 64 := hnewlen.trans_lt MAX_END_lt
    have hfits : 64 + 32 * (recs ++ news).length ≤ b'.size := by
      rw [hfill.size, hsize, List.length_append, halloc.length]
      unfold growth
      omega
    have hst₁ : Store w₁.dt fs chain :=
      Store.counted (w := { w with env := w.env.pop .records }) hst halloc.counted
    have hdata : 64 + metaStrbase b'.bytes = 64 + 32 * (recs ++ news).length := by
      rw [hfill.strbase]
    have hnewsize : (if len < offset.toNat + length.toNat then offset.toNat + length.toNat else len)
        = max len (offset.toNat + length.toNat) := by
      split <;> omega
    simp only [wp_bind, wp_store, wp_getNow, wp_pure, hnewsize]
    refine ⟨by omega, by omega, by omega, ?_⟩
    have hbase : 64 + metaStrbase (putLE (putLE b'.bytes 8 8
        (max len (offset.toNat + length.toNat))) 32 8 w₁.env.now)
          = 64 + 32 * (recs ++ news).length := by
      rw [← hdata]
      unfold metaStrbase
      rw [getLE_putLE_ne (by omega), getLE_putLE_ne (by omega)]
    have hblocks : u32 (upDiv (u64 (64 + 32 * (recs ++ news).length)) BYTSPERSEC)
        = fileSectors (recs ++ news).length := by
      simp only [u32, upDiv, u64, BYTSPERSEC, fileSectors]
      omega
    rw [hbase, hblocks]
    have hholds' : Holds (finishHeader b'.bytes (max len (offset.toNat + length.toNat)) w₁.env.now
        (fileSectors (recs ++ news).length)) (fileSectors (recs ++ news).length) fb.toNat
        ⟨uid, flags, .file (max len (offset.toNat + length.toNat)) (recs ++ news)⟩ :=
      hfill.holds hholds hlen64 hcount hmaxrecs
    have hbase' : u64 (64 + metaStrbase (putLE (putLE (putLE b'.bytes 8 8
        (max len (offset.toNat + length.toNat))) 32 8 w₁.env.now) 56 4
          (fileSectors (recs ++ news).length))) = 64 + 32 * (recs ++ news).length := by
      have hfield : metaStrbase (putLE (putLE (putLE b'.bytes 8 8
          (max len (offset.toNat + length.toNat))) 32 8 w₁.env.now) 56 4
            (fileSectors (recs ++ news).length)) = 32 * (recs ++ news).length := by
        unfold metaStrbase at hbase ⊢
        rw [getLE_putLE_ne (by omega)]
        omega
      rw [hfield]
      unfold u64
      omega
    rw [hbase']
    have hroom : H ∨ (Ample w₁.env ∧ Spare (freed w₁.dt (chain fb.toNat)) fb.toNat
        (fileSectors (recs ++ news).length - 1)) := by
      refine hH.imp_right fun h => ⟨h.1.later ((Later.pop _ _).trans halloc.counted.later), ?_⟩
      rw [hcount]
      refine (h.2 (by omega)).mono (fun c hc => ?_) fun c hc => ?_
      · simp only [freed, halloc.counted.fat]
        exact hc
      · exact hc.imp_left fun hlt => by rw [show (freed w₁.dt (chain fb.toNat)).sb.fatNum
          = w.dt.sb.fatNum from halloc.counted.fatNum]; exact hlt
    refine wp_mono (wp_writeObj_image hst₁ ho hholds' (by omega) (Nat.le_refl _) (by omega) hroom)
      ?_
    rintro _ w' ⟨cs, hrew, -, himage⟩
    refine .inr ⟨by omega, news, w₁, cs, ⟨halloc.after (Same.pop w _), hcount, hrew, ?_⟩,
      fun i hi => ?_⟩
    · exact congrArg _ hsegs
    -- the records are read into the buffer, and written from it with another header
    have hnews : (recs ++ news).length
      = recs.length + growth recs.length (offset.toNat + length.toNat) := by
      rw [List.length_append, halloc.length]
    have hbytes : 64 + 32 * (recs ++ news).length ≤ 512 * fileSectors (recs ++ news).length := by
      unfold fileSectors
      omega
    have hfinish : lengthAt (imageOf w'.dt.data cs) i = lengthAt b'.bytes i :=
      (lengthAt_congr himage (by omega) (by omega)).trans (lengthAt_finishHeader ..)
    rw [hfinish, hlengths i hi]
    by_cases hold : i < recs.length
    · rw [lengthAt_congr hread (by omega) (by omega)]
    · exact newLength_new (Nat.le_of_not_lt hold) hi

theorem wp_cWrite {fb : UInt32} {offset length : UInt64} {cap uid len : Nat} {ips : List Nat}
    {flags : UInt8} {recs : List Rec} (hst : Store w.dt fs chain)
    (ho : fs fb.toNat = some ⟨uid, flags, .file len recs⟩) (hlen : len ≤ MAX_END)
    (hend : offset.toNat ≤ len → offset.toNat + length.toNat ≤ MAX_END) (hips : ips ≠ [])
    (hcap : length.toNat / BLOCKSIZE + 2 ≤ cap)
    (hH : H ∨ (Ample w.env ∧ (offset.toNat ≤ len →
      RoomToWrite w.dt chain fb.toNat (max len (offset.toNat + length.toNat))))) :
    wpOr H (cWrite fb offset length ips cap)
      (fun r w' => (Same w w' ∧ (r = (-9, []) ∧ OutOfMemory w.env ∨
          len < offset.toNat ∧ r = (-1, []))) ∨
        (offset.toNat ≤ len ∧ ∃ news w₁ cs, Wrote fs chain fb.toNat uid flags len recs offset.toNat
          length.toNat ips w r w' news w₁ cs)) w :=
  wp_mono (wp_cWrite_lengths hst ho hlen hend hips hcap hH) fun _ _ h =>
    h.imp (fun ⟨hs, hr⟩ => ⟨hs, hr.imp_left fun ⟨hr, hm⟩ => ⟨hr, outOfMemory_of_none hm⟩⟩)
      fun ⟨hoff, news, w₁, cs, hw, _⟩ => ⟨hoff, news, w₁, cs, hw⟩

end Sbpfs.Cfs.DataSpec
