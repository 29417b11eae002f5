import Sbpfs.Cfs.RemovalLaws
import Sbpfs.Lib.Tiling

/-!
# The entries of a read or a write

What the replies of `c_read` and `c_write` are for: they name the blocks a range touches,
in order, and cut the range along them. The first length is computed from the offset in
the file where the offset in the block is meant, and the last length of a write that adds
blocks from the length of the range where its end is meant; the theorems say exactly when
that makes no difference.
-/
namespace Sbpfs.Cfs.TilingLaws

open Sbpfs.Lib.Program Sbpfs.Lib.Memory Sbpfs.Lib.Tiling
open Sbpfs.Cfs.Layout Sbpfs.Cfs.Rules Sbpfs.Cfs.FatSpec Sbpfs.Cfs.File Sbpfs.Cfs.FileSpec
    Sbpfs.Cfs.Data
open Sbpfs.Cfs.Namespace Sbpfs.Cfs.Image Sbpfs.Cfs.DiskStore Sbpfs.Cfs.LookupSpec
open Sbpfs.Cfs.ObjectSpec Sbpfs.Cfs.NamespaceSpec Sbpfs.Cfs.BlockSpec Sbpfs.Cfs.DataSpec
open Sbpfs.Cfs.ChainLaws Sbpfs.Cfs.Invariants Sbpfs.Cfs.NamespaceLaws Sbpfs.Cfs.RemovalLaws
open Sbpfs.Spec.FileTree
open Sbpfs.Cfs.DiskView (chainOf chainOf_eq)

variable {fs : Fs} {chain : Nat → List Nat} {w : World} {recs news : List Rec}

/-! ## What a reply is for -/

/-- The block records of the file at `fb`, read off the disk. -/
def blockList (dt : Dtree) (fb : Nat) : List Rec :=
  let b := imageOf dt.data (chainOf dt fb)
  (List.range (metaStrbase b / blockSize)).map fun i => recAt b (blockOff i)

theorem blockList_eq {dt : Dtree} {fb uid len : Nat} {flags : UInt8} (hst : Store dt fs chain)
    (ho : fs fb = some ⟨uid, flags, .file len recs⟩) : blockList dt fb = recs := by
  have hat := hst.obj fb _ ho
  have hfile : FileImage (imageOf dt.data (chain fb)) (chain fb).length len recs := hat.holds.node
  have hcount : metaStrbase (imageOf dt.data (chain fb)) / blockSize = recs.length := by
    rw [hfile.strbase]
    simp only [blockSize]
    omega
  unfold blockList
  rw [chainOf_eq hst.sized hat]
  apply List.ext_getElem?
  intro i
  simp only [hcount, List.getElem?_map]
  by_cases hi : i < recs.length
  · rw [List.getElem?_range hi, Option.map_some, List.getElem?_eq_getElem hi]
    exact congrArg some (hfile.record i _ (List.getElem?_eq_getElem hi))
  · rw [List.getElem?_eq_none (by simpa using hi), List.getElem?_eq_none (by omega)]
    rfl

/-- The block list of a file has room on a disk below 4 GB. -/
theorem file_len_le {dt : Dtree} {fb uid len : Nat} {flags : UInt8} (hst : Store dt fs chain)
    (ho : fs fb = some ⟨uid, flags, .file len recs⟩) : len ≤ MAX_END := by
  have hat := hst.obj fb _ ho
  have hfile : FileImage (imageOf dt.data (chain fb)) (chain fb).length len recs := hat.holds.node
  have hlen : (chain fb).length < 2 ^ 23 := (hat.length_le hst.sized).trans_lt hst.sized.fatNum_lt
  have hsectors := hfile.sectors
  have hcount := hfile.count
  simp only [blocksFor_eq] at hcount
  simp only [MAX_END, BLOCKSIZE]
  omega

/-- Offset and length of the entries. -/
def pieces (es : List SendBlock) : List (Nat × Nat) := es.map fun e => (e.offset, e.length)

/-- The reply `r` cuts the range of `length` bytes at `offset` along the blocks of `recs`. -/
structure TilesRange (recs : List Rec) (offset length : Nat) (r : Int × List SendBlock) : Prop where
  count : r.1 = r.2.length
  blocks : ∀ i e, r.2[i]? = some e →
    ∃ b, recs[offset / BLOCKSIZE + i]? = some b ∧ e.blockNum = b.num ∧ e.ip = b.ip
  within : ∀ e ∈ r.2, e.offset + e.length ≤ BLOCKSIZE
  tiles : Tiles BLOCKSIZE (offset / BLOCKSIZE) offset (offset + length) (pieces r.2)
  sum : (r.2.map SendBlock.length).sum = length

theorem tilesRange_iff {offset length : Nat} {r : Int × List SendBlock} (hcount : r.1 = r.2.length)
    (hblocks : ∀ i e, r.2[i]? = some e →
      ∃ b, recs[offset / BLOCKSIZE + i]? = some b ∧ e.blockNum = b.num ∧ e.ip = b.ip) :
    TilesRange recs offset length r ↔
      Tiles BLOCKSIZE (offset / BLOCKSIZE) offset (offset + length) (pieces r.2) := by
  constructor
  · exact fun h => h.tiles
  · intro h
    have hsum : (pieces r.2).map Prod.snd = r.2.map SendBlock.length := by
      unfold pieces
      rw [List.map_map]
      rfl
    refine ⟨hcount, hblocks, fun e he => h.within _ (List.mem_map_of_mem he), h, ?_⟩
    have htotal := h.sum
    rw [hsum] at htotal
    omega

/-! ## The pieces of a reply -/

theorem headLen_right (offset : Nat) (h : offset < 2 ^ 64) :
    offset % BLOCKSIZE + headLen offset = BLOCKSIZE ↔ offset / BLOCKSIZE % 256 = 0 := by
  simp only [headLen, u32, u64Sub, BLOCKSIZE]
  omega

theorem tailLen_le (stop : Nat) : tailLen stop ≤ BLOCKSIZE := by
  unfold tailLen
  split
  · exact (Nat.mod_lt _ (by decide)).le
  · exact Nat.le_refl _

theorem pieces_single (offset length : Nat) :
    pieces (entries recs offset length 1) = [(offset % BLOCKSIZE, u32 length)] := rfl

theorem pieces_entries (offset length n : Nat) :
    pieces (entries recs offset length (n + 2)) = (offset % BLOCKSIZE, headLen offset) ::
      (List.replicate n (0, BLOCKSIZE) ++ [(0, tailLen (u64 (offset + length)))]) := by
  unfold pieces entries
  rw [List.map_map]
  refine map_range_ends rfl (fun i hi => ?_) ?_
  · simp only [Function.comp, sendRec, cut]
    rw [if_neg (by omega), if_neg (by omega), if_neg (by omega)]
  · simp only [Function.comp, sendRec, cut]
    rw [if_neg (by omega), if_neg (by omega), if_pos (by omega)]

theorem pieces_old {offset n : Nat} (h : recs.length - offset / BLOCKSIZE = n + 1) :
    pieces (oldEntries recs offset)
      = (offset % BLOCKSIZE, headLen offset) :: List.replicate n (0, BLOCKSIZE) := by
  unfold pieces oldEntries
  rw [List.map_map, h]
  exact map_range_head rfl fun i _ => rfl

theorem pieces_new {length n : Nat} (h : news.length = n + 1) :
    pieces (newEntries length news) = List.replicate n (0, BLOCKSIZE) ++ [(0, tailLen length)] := by
  induction news generalizing n with
  | nil => cases h
  | cons r rs ih =>
    cases rs with
    | nil =>
      obtain rfl : n = 0 := by simpa using h.symm
      rfl
    | cons r' rs =>
      obtain ⟨m, rfl⟩ : ∃ m, n = m + 1 := ⟨rs.length, by simpa using h.symm⟩
      have htail := ih (n := m) (by simpa using h)
      unfold pieces at htail ⊢
      rw [newEntries, List.map_cons, htail, List.replicate_succ, List.cons_append]
      rfl

theorem entries_blocks {offset length n : Nat} (hn : offset / BLOCKSIZE + n ≤ recs.length) (i : Nat)
    (e : SendBlock) (he : (entries recs offset length n)[i]? = some e) :
    ∃ b, recs[offset / BLOCKSIZE + i]? = some b ∧ e.blockNum = b.num ∧ e.ip = b.ip := by
  unfold entries at he
  rw [List.getElem?_map, Option.map_eq_some_iff] at he
  obtain ⟨j, hj, rfl⟩ := he
  obtain ⟨hi, rfl⟩ := List.getElem?_eq_some_iff.mp hj
  rw [List.getElem_range, List.getElem?_eq_getElem (by simp at hi; omega)]
  exact ⟨_, rfl, rfl, rfl⟩

theorem entries_length (offset length n : Nat) : (entries recs offset length n).length = n := by
  unfold entries
  rw [List.length_map, List.length_range]

/-- The range lies in one block, or starts in a block whose number is a multiple of 256. -/
def HeadAligned (offset stop : Nat) : Prop :=
  blocksFor stop ≤ offset / BLOCKSIZE + 1 ∨ offset / BLOCKSIZE % 256 = 0

/-- When a reply about existing blocks cuts its range. -/
theorem entries_tile_iff {offset length : Nat} (hend : offset + length ≤ MAX_END) :
    Tiles BLOCKSIZE (offset / BLOCKSIZE) offset (offset + length)
        (pieces (entries recs offset length (blocksFor (offset + length) - offset / BLOCKSIZE))) ↔
      HeadAligned offset (offset + length) := by
  have hmax := MAX_END_lt
  have hfirst : offset / BLOCKSIZE ≤ blocksFor (offset + length) := firstBlock_le (by omega)
  have hstop : u64 (offset + length) = offset + length := Nat.mod_eq_of_lt (by omega)
  have hblocks := blocksFor_eq (offset + length)
  have hhead := headLen_right offset (by omega)
  have htail := tailLen_le (offset + length)
  unfold HeadAligned
  obtain ⟨n, hn⟩ : ∃ n, blocksFor (offset + length) = offset / BLOCKSIZE + n :=
    ⟨_, (Nat.add_sub_cancel' hfirst).symm⟩
  rw [hn, Nat.add_sub_cancel_left]
  match n with
  | 0 =>
    constructor
    · exact fun _ => .inl (by omega)
    · intro _
      show offset = offset + length
      simp only [BLOCKSIZE] at hn
      omega
  | 1 =>
    rw [pieces_single, tiles_single]
    constructor
    · exact fun _ => .inl (by omega)
    · intro _
      simp only [u32, BLOCKSIZE] at hn ⊢
      omega
  | n + 2 =>
    rw [pieces_entries, tiles_across, hstop]
    constructor
    · exact fun h => .inr (hhead.mp h.2.1)
    · intro h
      refine ⟨?_, hhead.mpr (h.resolve_left (by omega)), htail, ?_⟩
      · simp only [BLOCKSIZE]
        omega
      · simp only [tailLen, BLOCKSIZE] at hn ⊢
        split <;> omega

/-! ## Reading -/

theorem read_tiles_iff {fb : UInt32} {cap uid len : Nat} {flags : UInt8}
    (hst : Store w.dt fs chain) (ho : fs fb.toNat = some ⟨uid, flags, .file len recs⟩)
    {offset length : UInt64} (hoff : offset.toNat ≤ len) (hcap : length.toNat / BLOCKSIZE + 2 ≤ cap)
    {r : Int × List SendBlock} {w' : World} (hrun : cRead fb offset length cap w = .ok (r, w'))
    (hr : r ≠ (-9, [])) :
    TilesRange (blockList w.dt fb.toNat) offset.toNat (min length.toNat (len - offset.toNat)) r ↔
      HeadAligned offset.toNat (offset.toNat + min length.toNat (len - offset.toNat)) := by
  have hlen := file_len_le hst ho
  have hread : readLen len offset.toNat length.toNat = min length.toNat (len - offset.toNat) := by
    unfold readLen
    split <;> omega
  have hstop : offset.toNat + min length.toNat (len - offset.toNat) ≤ len := by omega
  obtain ⟨-, ⟨hoom, -⟩ | hreply⟩ :=
    wp_ok (wp_cRead (H := True) hst ho hlen hcap (.inl trivial)) hrun
  · exact absurd hoom hr
  unfold ReadReply at hreply
  rw [if_neg (by omega), hread] at hreply
  subst hreply
  have hfile : recs.length = blocksFor len :=
    (show FileImage _ _ len recs from (hst.obj _ _ ho).holds.node).count
  have hfirst : offset.toNat / BLOCKSIZE
      ≤ blocksFor (offset.toNat + min length.toNat (len - offset.toNat)) := firstBlock_le (by omega)
  have hmono := blocksFor_mono hstop
  rw [blockList_eq hst ho, tilesRange_iff (by rw [entries_length]) (entries_blocks (by omega))]
  exact entries_tile_iff (by omega)

theorem read_returns {fb : UInt32} {cap uid len : Nat} {flags : UInt8}
    (hst : Store w.dt fs chain) (ho : fs fb.toNat = some ⟨uid, flags, .file len recs⟩)
    {offset length : UInt64} (hoff : offset.toNat ≤ len) (hcap : length.toNat / BLOCKSIZE + 2 ≤ cap)
    (hample : Ample w.env) :
    ∃ r w', cRead fb offset length cap w = .ok (r, w') ∧ r ≠ (-9, []) := by
  obtain ⟨r, w', hrun, -, ⟨-, s, hs⟩ | hreply⟩ :=
    wp_returns (wp_cRead (H := False) hst ho (file_len_le hst ho) hcap (.inr hample))
  · exact absurd (hample.heap s) hs
  refine ⟨r, w', hrun, fun hr => ?_⟩
  unfold ReadReply at hreply
  rw [if_neg (by omega), hr] at hreply
  have hneg := congrArg Prod.fst hreply
  simp only at hneg
  omega

/-- The reply of `c_read` cuts the clamped range exactly when the range is head-aligned. -/
theorem cRead_tiles_iff {fb : UInt32} {cap uid len : Nat} {flags : UInt8}
    (hst : Store w.dt fs chain) (ho : fs fb.toNat = some ⟨uid, flags, .file len recs⟩)
    (offset length : UInt64) (hoff : offset.toNat ≤ len)
    (hcap : length.toNat / BLOCKSIZE + 2 ≤ cap) :
    (∀ r w', cRead fb offset length cap w = .ok (r, w') → r ≠ (-9, []) →
      (TilesRange (blockList w.dt fb.toNat) offset.toNat (min length.toNat (len - offset.toNat)) r ↔
        HeadAligned offset.toNat (offset.toNat + min length.toNat (len - offset.toNat)))) ∧
    (Ample w.env → ∃ r w', cRead fb offset length cap w = .ok (r, w') ∧ r ≠ (-9, [])) :=
  ⟨fun _ _ hrun hr => read_tiles_iff hst ho hoff hcap hrun hr,
    fun hample => read_returns hst ho hoff hcap hample⟩

/-! ## A disk with one file -/

/-- A world whose disk holds a file of `len` bytes at `fb`. -/
structure FileWorld (fs : Fs) (chain : Nat → List Nat) (fb : UInt32) (len : Nat) (w : World) :
    Prop where
  store : Store w.dt fs chain
  file : ∃ uid flags recs, fs fb.toNat = some ⟨uid, flags, .file len recs⟩
  ample : Ample w.env

/-- A new file. -/
theorem exists_fileWorld : ∃ w fs chain fb, FileWorld fs chain fb 0 w := by
  obtain ⟨_, hfresh⟩ := exists_freshWorld
  obtain ⟨-, w, fs, chain, fb, -, hw⟩ := cOpen_made hfresh
  have hat := hw.wellFormed.store.obj fb _ hw.object
  have hfb : fb < 2 ^ 23 := hat.head_lt.trans hw.wellFormed.store.sized.fatNum_lt
  have heq : (UInt32.ofNat fb).toNat = fb := UInt32.toNat_ofNat_of_lt' (by
    simp only [UInt32.size]
    omega)
  exact ⟨w, fs, chain, UInt32.ofNat fb, hw.wellFormed.store,
    ⟨_, _, _, (congrArg fs heq).trans hw.object⟩, hw.ample⟩

/-- A file of at most fourteen blocks needs no second sector. -/
theorem room_first {dt : Dtree} {fb stop : Nat} (h : stop ≤ 14 * BLOCKSIZE) :
    RoomToWrite dt chain fb stop := by
  have hone : fileSectors (blocksFor stop) - 1 = 0 := by
    simp only [fileSectors, blocksFor_eq, BLOCKSIZE] at h ⊢
    omega
  unfold RoomToWrite
  rw [hone]
  exact Spare.zero _ _

/-! ## Writing -/

/-- A write within the blocks of a file of `len` bytes is head-aligned; one that adds blocks
starts on a block boundary, and starts at the first new block or in a block whose number is
a multiple of 256. -/
def WriteAligned (len offset stop : Nat) : Prop :=
  if blocksFor stop ≤ blocksFor len then HeadAligned offset stop
  else offset % BLOCKSIZE = 0 ∧
    (blocksFor len ≤ offset / BLOCKSIZE ∨ offset / BLOCKSIZE % 256 = 0)

/-- When a reply about old and new blocks cuts its range. -/
theorem grown_tile_iff {offset length len g : Nat} (hend : offset + length ≤ MAX_END)
    (hpos : 1 ≤ length) (hoff : offset ≤ len) (hcount : recs.length = blocksFor len)
    (hnews : news.length = g + 1) (hgrow : blocksFor (offset + length) = recs.length + (g + 1)) :
    Tiles BLOCKSIZE (offset / BLOCKSIZE) offset (offset + length)
        (pieces (oldEntries recs offset ++ newEntries length news)) ↔
      offset % BLOCKSIZE = 0 ∧
        (blocksFor len ≤ offset / BLOCKSIZE ∨ offset / BLOCKSIZE % 256 = 0) := by
  have hmax := MAX_END_lt
  have hfirst : offset / BLOCKSIZE ≤ blocksFor len := firstBlock_le hoff
  have hblocks := blocksFor_eq (offset + length)
  have hblocks' := blocksFor_eq len
  have hhead := headLen_right offset (by omega)
  have htail := tailLen_le length
  have hlast : offset + length = (recs.length + g) * BLOCKSIZE + tailLen length ↔
      offset % BLOCKSIZE = 0 := by
    simp only [tailLen, BLOCKSIZE] at hgrow ⊢
    split <;> omega
  have happend : pieces (oldEntries recs offset ++ newEntries length news)
      = pieces (oldEntries recs offset) ++ pieces (newEntries length news) := List.map_append
  rw [happend, pieces_new hnews]
  obtain ⟨n, hn⟩ : ∃ n, recs.length = offset / BLOCKSIZE + n :=
    ⟨_, (Nat.add_sub_cancel' (hcount ▸ hfirst)).symm⟩
  cases n with
  | zero =>
    have hnone : oldEntries recs offset = [] := by
      unfold oldEntries
      rw [hn, Nat.add_zero, Nat.sub_self]
      rfl
    rw [hnone, show pieces ([] : List SendBlock) = [] from rfl, List.nil_append, tiles_whole]
    rw [hn, Nat.add_zero] at hlast
    constructor
    · exact fun h => ⟨hlast.mp h.2.2, .inl (by omega)⟩
    · rintro ⟨halign, -⟩
      refine ⟨?_, htail, hlast.mpr halign⟩
      simp only [BLOCKSIZE] at halign ⊢
      omega
  | succ n =>
    have hjoin : List.replicate n (0, BLOCKSIZE)
          ++ (List.replicate g (0, BLOCKSIZE) ++ [(0, tailLen length)])
        = List.replicate (n + g) (0, BLOCKSIZE) ++ [(0, tailLen length)] := by
      rw [← List.append_assoc, List.replicate_append_replicate]
    have hblock : (offset / BLOCKSIZE + 1 + (n + g)) * BLOCKSIZE
        = (recs.length + g) * BLOCKSIZE := by
      rw [hn]
      exact congrArg (· * BLOCKSIZE) (by omega)
    rw [pieces_old (n := n) (by omega), List.cons_append, hjoin, tiles_across, hblock, hlast, hhead]
    constructor
    · rintro ⟨-, hmult, -, halign⟩
      exact ⟨halign, .inr hmult⟩
    · rintro ⟨halign, hmult⟩
      have hmult' : offset / BLOCKSIZE % 256 = 0 := hmult.resolve_left (by omega)
      exact ⟨Nat.div_add_mod' _ _, hmult', htail, halign⟩

theorem newEntries_blocks {length : Nat} (i : Nat) (e : SendBlock)
    (he : (newEntries length news)[i]? = some e) :
    ∃ b, news[i]? = some b ∧ e.blockNum = b.num ∧ e.ip = b.ip := by
  induction news generalizing i with
  | nil => simp [newEntries] at he
  | cons r rs ih =>
    cases i with
    | zero =>
      simp only [newEntries, List.getElem?_cons_zero, Option.some.injEq] at he
      subst he
      exact ⟨r, rfl, rfl, rfl⟩
    | succ i =>
      rw [newEntries, List.getElem?_cons_succ] at he
      rw [List.getElem?_cons_succ]
      exact ih i he

theorem newEntries_length (length : Nat) : (newEntries length news).length = news.length := by
  induction news with
  | nil => rfl
  | cons r rs ih => rw [newEntries, List.length_cons, ih, List.length_cons]

theorem oldEntries_length (offset : Nat) :
    (oldEntries recs offset).length = recs.length - offset / BLOCKSIZE := by
  unfold oldEntries
  rw [List.length_map, List.length_range]

theorem oldEntries_blocks {offset : Nat} (i : Nat) (e : SendBlock)
    (he : (oldEntries recs offset)[i]? = some e) :
    ∃ b, recs[offset / BLOCKSIZE + i]? = some b ∧ e.blockNum = b.num ∧ e.ip = b.ip := by
  unfold oldEntries at he
  rw [List.getElem?_map, Option.map_eq_some_iff] at he
  obtain ⟨j, hj, rfl⟩ := he
  obtain ⟨hi, rfl⟩ := List.getElem?_eq_some_iff.mp hj
  rw [List.length_range] at hi
  rw [List.getElem_range, List.getElem?_eq_getElem (by omega)]
  exact ⟨_, rfl, rfl, rfl⟩

/-- The entries of a write are about the blocks it touches, old and new. -/
theorem writeEntries_blocks {offset length : Nat} (hfirst : offset / BLOCKSIZE ≤ recs.length)
    (i : Nat) (e : SendBlock) (he : (writeEntries recs news offset length)[i]? = some e) :
    ∃ b, (recs ++ news)[offset / BLOCKSIZE + i]? = some b ∧ e.blockNum = b.num ∧ e.ip = b.ip := by
  unfold writeEntries at he
  have hold : ∀ {b}, recs[offset / BLOCKSIZE + i]? = some b →
      (recs ++ news)[offset / BLOCKSIZE + i]? = some b := by
    intro b hb
    obtain ⟨hi, -⟩ := List.getElem?_eq_some_iff.mp hb
    rw [List.getElem?_append_left hi]
    exact hb
  split at he
  · rename_i hle
    obtain ⟨b, hb, hnum⟩ := entries_blocks (by omega) i e he
    exact ⟨b, hold hb, hnum⟩
  · rw [List.getElem?_append, oldEntries_length] at he
    split at he
    · obtain ⟨b, hb, hnum⟩ := oldEntries_blocks i e he
      exact ⟨b, hold hb, hnum⟩
    · obtain ⟨b, hb, hnum⟩ := newEntries_blocks _ e he
      refine ⟨b, ?_, hnum⟩
      rw [List.getElem?_append_right (by omega), ← hb]
      exact congrArg (news[·]?) (by omega)

theorem writeEntries_length {offset length : Nat} (hfirst : offset / BLOCKSIZE ≤ recs.length)
    (hnews : news.length = growth recs.length (offset + length)) :
    (writeEntries recs news offset length).length
      = blocksFor (offset + length) - offset / BLOCKSIZE := by
  unfold writeEntries
  split
  · exact entries_length _ _ _
  · rw [List.length_append, oldEntries_length, newEntries_length, hnews, growth]
    omega

/-- When the entries of a write cut its range. -/
theorem writeEntries_tile_iff {offset length len : Nat} (hend : offset + length ≤ MAX_END)
    (hpos : 1 ≤ length) (hoff : offset ≤ len) (hcount : recs.length = blocksFor len)
    (hnews : news.length = growth recs.length (offset + length)) :
    Tiles BLOCKSIZE (offset / BLOCKSIZE) offset (offset + length)
        (pieces (writeEntries recs news offset length)) ↔
        WriteAligned len offset (offset + length) := by
  unfold WriteAligned writeEntries
  rw [hcount]
  split
  · exact entries_tile_iff hend
  · unfold growth at hnews
    obtain ⟨g, hg⟩ : ∃ g, blocksFor (offset + length) = recs.length + (g + 1) :=
      ⟨blocksFor (offset + length) - recs.length - 1, by omega⟩
    exact grown_tile_iff hend hpos hoff hcount (by omega) hg

theorem write_tiles_iff {fb : UInt32} {cap uid len : Nat} {flags : UInt8}
    (hst : Store w.dt fs chain) (ho : fs fb.toNat = some ⟨uid, flags, .file len recs⟩)
    {offset length : UInt64} {ips : List Nat} (hoff : offset.toNat ≤ len) (hpos : 1 ≤ length.toNat)
    (hend : offset.toNat + length.toNat < 2 ^ 54) (hips : ips ≠ [])
    (hcap : length.toNat / BLOCKSIZE + 2 ≤ cap) {r : Int × List SendBlock} {w' : World}
    (hrun : cWrite fb offset length ips cap w = .ok (r, w')) (hr : r ≠ (-9, [])) :
    TilesRange (blockList w'.dt fb.toNat) offset.toNat length.toNat r ↔
      WriteAligned len offset.toNat (offset.toNat + length.toNat) := by
  have hend' : offset.toNat + length.toNat ≤ MAX_END := hend.le.trans (by decide)
  have hcount : recs.length = blocksFor len :=
    (show FileImage _ _ len recs from (hst.obj _ _ ho).holds.node).count
  have hfirst : offset.toNat / BLOCKSIZE ≤ recs.length := hcount ▸ firstBlock_le hoff
  rcases wp_ok (wp_cWrite (H := True) hst ho (file_len_le hst ho) (fun _ => hend') hips hcap
    (.inl trivial)) hrun with ⟨-, ⟨hoom, -⟩ | ⟨hlt, -⟩⟩ | ⟨-, news, w₁, cs, hw⟩
  · exact absurd hoom hr
  · omega
  have hnews : news.length = growth recs.length (offset.toNat + length.toNat) := hw.alloc.length
  rw [hw.reply, blockList_eq hw.rewritten.store (Function.update_self _ _ _),
    tilesRange_iff (by rw [writeEntries_length hfirst hnews]) (writeEntries_blocks hfirst)]
  exact writeEntries_tile_iff hend' hpos hoff hcount hnews

theorem write_returns {fb : UInt32} {cap uid len : Nat} {flags : UInt8}
    (hst : Store w.dt fs chain) (ho : fs fb.toNat = some ⟨uid, flags, .file len recs⟩)
    {offset length : UInt64} {ips : List Nat} (hoff : offset.toNat ≤ len)
    (hend : offset.toNat + length.toNat < 2 ^ 54) (hips : ips ≠ [])
    (hcap : length.toNat / BLOCKSIZE + 2 ≤ cap) (hample : Ample w.env)
    (hroom : RoomToWrite w.dt chain fb.toNat (max len (offset.toNat + length.toNat))) :
    ∃ r w', cWrite fb offset length ips cap w = .ok (r, w') ∧ r ≠ (-9, []) := by
  have hend' : offset.toNat + length.toNat ≤ MAX_END := hend.le.trans (by decide)
  obtain ⟨r, w', hrun, hout⟩ := wp_returns (wp_cWrite (H := False) hst ho (file_len_le hst ho)
    (fun _ => hend') hips hcap (.inr ⟨hample, fun _ => hroom⟩))
  refine ⟨r, w', hrun, ?_⟩
  rcases hout with ⟨-, ⟨-, s, hs⟩ | ⟨hlt, -⟩⟩ | ⟨-, news, w₁, cs, hw⟩
  · exact absurd (hample.heap s) hs
  · omega
  intro hr
  have hneg := congrArg Prod.fst (hr.symm.trans hw.reply)
  simp only at hneg
  omega

/-- The reply of `c_write` cuts the range exactly when the write is aligned. -/
theorem cWrite_tiles_iff {fb : UInt32} {cap uid len : Nat} {flags : UInt8}
    (hst : Store w.dt fs chain) (ho : fs fb.toNat = some ⟨uid, flags, .file len recs⟩)
    (offset length : UInt64) (ips : List Nat) (hoff : offset.toNat ≤ len)
    (hpos : 1 ≤ length.toNat) (hend : offset.toNat + length.toNat < 2 ^ 54) (hips : ips ≠ [])
    (hcap : length.toNat / BLOCKSIZE + 2 ≤ cap) :
    (∀ r w', cWrite fb offset length ips cap w = .ok (r, w') → r ≠ (-9, []) →
      (TilesRange (blockList w'.dt fb.toNat) offset.toNat length.toNat r ↔
        WriteAligned len offset.toNat (offset.toNat + length.toNat))) ∧
    (Ample w.env → RoomToWrite w.dt chain fb.toNat (max len (offset.toNat + length.toNat)) →
      ∃ r w', cWrite fb offset length ips cap w = .ok (r, w') ∧ r ≠ (-9, [])) :=
  ⟨fun _ _ hrun hr => write_tiles_iff hst ho hoff hpos hend hips hcap hrun hr,
    fun hample hroom => write_returns hst ho hoff hend hips hcap hample hroom⟩

theorem FileWorld.write {fb : UInt32} {len : Nat} (h : FileWorld fs chain fb len w)
    (offset length : UInt64) (hoff : offset.toNat ≤ len) (hlen : len ≤ 14 * BLOCKSIZE)
    (hend : offset.toNat + length.toNat ≤ 14 * BLOCKSIZE) :
    ∃ r w' fs' chain', cWrite fb offset length [1] (length.toNat / BLOCKSIZE + 2) w = .ok (r, w') ∧
      FileWorld fs' chain' fb (max len (offset.toNat + length.toNat)) w' := by
  obtain ⟨uid, flags, recs, ho⟩ := h.file
  have hmax : (14 * BLOCKSIZE : Nat) ≤ MAX_END := by decide
  obtain ⟨r, w', hrun, hout⟩ := wp_returns
    (m := cWrite fb offset length [1] (length.toNat / BLOCKSIZE + 2))
    (wp_cWrite h.store ho (by omega) (fun _ => by omega) (List.cons_ne_nil _ _) (Nat.le_refl _)
    (.inr ⟨h.ample, fun _ => room_first (by omega)⟩))
  refine ⟨r, w', ?_⟩
  rcases hout with ⟨-, ⟨-, s, hs⟩ | ⟨hlt, -⟩⟩ | ⟨-, news, w₁, cs, hw⟩
  · exact absurd (h.ample.heap s) hs
  · omega
  · exact ⟨_, _, hrun, hw.rewritten.store, ⟨uid, flags, _, Function.update_self _ _ _⟩,
      h.ample.later (hw.alloc.counted.later.trans hw.rewritten.later)⟩

/-- The first byte of a new file. -/
theorem cWrite_tiles_first : ∃ w fs chain fb r w', FileWorld fs chain fb 0 w ∧
    cWrite fb 0 1 [1] 2 w = .ok (r, w') ∧ TilesRange (blockList w'.dt fb.toNat) 0 1 r := by
  obtain ⟨w, fs, chain, fb, hw⟩ := exists_fileWorld
  obtain ⟨uid, flags, recs, ho⟩ := hw.file
  obtain ⟨hiff, hruns⟩ := cWrite_tiles_iff hw.store ho 0 1 [1]
    (Nat.le_refl _) (by decide) (by decide) (by decide) (Nat.le_refl 2)
  obtain ⟨r, w', hrun, hr⟩ := hruns hw.ample (room_first (by decide))
  refine ⟨w, fs, chain, fb, r, w', hw, hrun, (hiff r w' hrun hr).mpr ?_⟩
  exact (if_neg (by decide)).mpr ⟨by decide, .inl (by decide)⟩

/-- A file of one byte and sixteen megabytes behind it: the second entry is a whole block. -/
theorem cWrite_tiles_fails : ∃ w fs chain fb r w', FileWorld fs chain fb 1 w ∧
    cWrite fb 1 16777216 [1] 3 w = .ok (r, w') ∧ r ≠ (-9, []) ∧
      ¬ TilesRange (blockList w'.dt fb.toNat) 1 16777216 r := by
  obtain ⟨_, _, _, fb, hnew⟩ := exists_fileWorld
  obtain ⟨_, w, fs, chain, -, hw⟩ := hnew.write 0 1 (Nat.le_refl _)
    (by decide) (by decide)
  change FileWorld fs chain fb 1 w at hw
  obtain ⟨uid, flags, recs, ho⟩ := hw.file
  obtain ⟨r, w', hrun, hr⟩ : ∃ r w', cWrite fb 1 16777216 [1] 3 w = .ok (r, w') ∧ r ≠ (-9, []) :=
    write_returns hw.store ho (Nat.le_refl _) (by decide) (by decide) (Nat.le_refl 3) hw.ample
      (room_first (by decide))
  refine ⟨w, fs, chain, fb, r, w', hw, hrun, hr, fun htiles => ?_⟩
  have halign := (write_tiles_iff hw.store ho (Nat.le_refl _) (by decide) (by decide) (by decide)
    (Nat.le_refl 3) hrun hr).mp htiles
  unfold WriteAligned at halign
  rw [if_neg (by decide)] at halign
  exact absurd halign.1 (by decide)

/-! ## Reading what was written -/

/-- One byte of a file of one byte. -/
theorem cRead_tiles_first : ∃ w fs chain fb r w', FileWorld fs chain fb 1 w ∧
    cRead fb 0 1 2 w = .ok (r, w') ∧ TilesRange (blockList w.dt fb.toNat) 0 1 r := by
  obtain ⟨_, _, _, fb, hnew⟩ := exists_fileWorld
  obtain ⟨_, w, fs, chain, -, hw⟩ := hnew.write 0 1 (Nat.le_refl _)
    (by decide) (by decide)
  change FileWorld fs chain fb 1 w at hw
  obtain ⟨uid, flags, recs, ho⟩ := hw.file
  obtain ⟨hiff, hruns⟩ := cRead_tiles_iff hw.store ho 0 1 (Nat.zero_le _)
    (Nat.le_refl 2)
  obtain ⟨r, w', hrun, hr⟩ := hruns hw.ample
  exact ⟨w, fs, chain, fb, r, w', hw, hrun, (hiff r w' hrun hr).mpr (.inl (by decide))⟩

/-- The last two of three blocks: the first entry is empty. -/
theorem cRead_tiles_fails : ∃ w fs chain fb r w', FileWorld fs chain fb 50331648 w ∧
    cRead fb 16777216 33554432 4 w = .ok (r, w') ∧ r ≠ (-9, []) ∧
      ¬ TilesRange (blockList w.dt fb.toNat) 16777216 33554432 r := by
  obtain ⟨_, _, _, fb, hnew⟩ := exists_fileWorld
  obtain ⟨_, w, fs, chain, -, hw⟩ := hnew.write 0 50331648 (Nat.le_refl _)
    (by decide) (by decide)
  change FileWorld fs chain fb 50331648 w at hw
  obtain ⟨uid, flags, recs, ho⟩ := hw.file
  obtain ⟨r, w', hrun, hr⟩ : ∃ r w', cRead fb 16777216 33554432 4 w = .ok (r, w') ∧ r ≠ (-9, []) :=
    read_returns hw.store ho (by decide) (Nat.le_refl 4) hw.ample
  refine ⟨w, fs, chain, fb, r, w', hw, hrun, hr, fun htiles => ?_⟩
  rcases (read_tiles_iff hw.store ho (by decide) (Nat.le_refl 4) hrun hr).mp
    htiles with hone | hmult
  · exact absurd hone (by decide)
  · exact absurd hmult (by decide)

end Sbpfs.Cfs.TilingLaws
