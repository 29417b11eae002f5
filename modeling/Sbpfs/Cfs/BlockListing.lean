import Sbpfs.Cfs.BlockNumbers
import Sbpfs.Cfs.EntrySpec

/-!
# Listing the blocks of a path

`c_getblocknum` and `c_getblocks` take what the path names for a file. On a directory the table
is read as block records, and the loop over it is left only when the table ends with a record.
-/
namespace Sbpfs.Cfs.BlockListing

open Sbpfs.Lib.Program Sbpfs.Lib.Memory
open Sbpfs.Cfs.Layout Sbpfs.Cfs.Rules Sbpfs.Cfs.File Sbpfs.Cfs.FileSpec Sbpfs.Cfs.Lookup
open Sbpfs.Cfs.Image Sbpfs.Cfs.DiskStore Sbpfs.Cfs.LookupSpec Sbpfs.Cfs.DiskView Sbpfs.Cfs.Query
open Sbpfs.Cfs.EntrySpec Sbpfs.Cfs.BlockNumbers Sbpfs.Spec.FileTree Sbpfs.Spec.Resolve

/-- The path names the object at `fb`, of that type. -/
def Names (dt : Dtree) (path : CStr) (type : UInt8) (fb : Nat) : Prop :=
  ∃ d e, named (entries dt) path = some (d, e) ∧ e.type = type ∧ e.fb = fb

section Stored

variable {fs : Fs} {chain : Nat → List Nat} {w : World} {path : CStr} {d : Nat} {e : Ent} {o : Obj}

theorem names_iff {dt : Dtree} (hst : Store dt fs chain) (ht : Tree fs)
    (hq : named fs.ents path = some (d, e)) (type : UInt8) (fb : Nat) :
    Names dt path type fb ↔ e.type = type ∧ fb = e.fb := by
  unfold Names
  rw [named_agree hst ht, hq]
  constructor
  · intro h
    obtain ⟨d', e', h, htype, hfb⟩ := h
    cases h
    exact ⟨htype, hfb.symm⟩
  · intro h
    exact ⟨d, e, rfl, h.1, h.2.symm⟩

theorem not_names {dt : Dtree} (hst : Store dt fs chain) (ht : Tree fs)
    (hq : named fs.ents path = none) (type : UInt8) (fb : Nat) : ¬ Names dt path type fb := by
  intro h
  obtain ⟨d, e, h, -⟩ := h
  rw [named_agree hst ht, hq] at h
  cases h

/-- The bytes of the table of an object. -/
def tableSize (o : Obj) (fb : Nat) : Nat :=
  match o.node with
  | .file _ recs => 32 * recs.length
  | .dir p kids => 16 * (table fb p kids).length

theorem strbase_eq {fb n : Nat} {img : Bytes} (h : Holds img n fb o) :
    metaStrbase img = tableSize o fb := by
  obtain ⟨uid, flags, node⟩ := o
  cases node with
  | file len recs =>
    have hfile : FileImage img n len recs := h.node
    exact hfile.strbase
  | dir p kids =>
    have hdir : DirImage img n (table fb p kids) := h.node
    exact hdir.strbase

/-- A table fits in the sectors of its object. -/
theorem tableSize_le {fb n : Nat} {img : Bytes} (h : Holds img n fb o) :
    64 + tableSize o fb ≤ 512 * n := by
  obtain ⟨uid, flags, node⟩ := o
  cases node with
  | file len recs =>
    have hfile : FileImage img n len recs := h.node
    have hsectors := hfile.sectors
    show 64 + 32 * recs.length ≤ 512 * n
    omega
  | dir p kids =>
    have hdir : DirImage img n (table fb p kids) := h.node
    have hle := hdir.le
    show 64 + 16 * (table fb p kids).length ≤ 512 * n
    omega

/-- The number of records fits an int. -/
theorem s32_records (hst : Store w.dt fs chain) {fb : Nat} (ho : fs fb = some o) :
    s32 (tableSize o fb / blockSize) = ((tableSize o fb / 32 : Nat) : Int) := by
  have hat := hst.obj fb o ho
  have hsize := tableSize_le hat.holds
  have hlen := hat.length_le hst.sized
  have hnum := hst.sized.fatNum_lt
  simp only [blockSize]
  unfold s32
  rw [Nat.mod_eq_of_lt (by omega), if_pos (by omega)]

theorem blockNums_length (hst : Store w.dt fs chain) {fb : Nat} (ho : fs fb = some o) :
    (blockNums w.dt fb).length = tableSize o fb / 32 := by
  have hat := hst.obj fb o ho
  unfold blockNums
  rw [chainOf_eq hst.sized hat, List.length_map, List.length_range, strbase_eq hat.holds]

theorem findObject_run (hst : Store w.dt fs chain) (ht : Tree fs) (hmem : Ample w.env)
    (path : CStr) :
    ∃ w', findObject path w = .ok (match named fs.ents path with
      | none => .error (-1)
      | some (_, e) => .ok e.fb, w') ∧ Same w w' := by
  obtain ⟨r, w', hrun, hsame, hr⟩ := findOfile_run hst ht hmem path
  refine ⟨w', ?_, hsame⟩
  rw [findObject_eq]
  refine bind_ok.mpr ⟨r, w', hrun, ?_⟩
  cases hq : named fs.ents path with
  | none =>
    rw [hq] at hr
    rw [hr]
    rfl
  | some q =>
    rw [hq] at hr
    obtain ⟨p, rfl, hon⟩ := hr
    show Except.ok (Except.ok p.fb, w') = _
    rw [(hon.fields hst).1]

/-- What names nothing has no blocks to list. -/
theorem getblocks_missing (hst : Store w.dt fs chain) (ht : Tree fs) (hmem : Ample w.env)
    (hq : named fs.ents path = none) (cap : Nat) :
    ∃ w', cGetblocknum path w = .ok (-1, w') ∧ cGetblocks path cap w = .ok ((-1, []), w')
      ∧ Same w w' := by
  obtain ⟨w', hrun, hsame⟩ := findObject_run hst ht hmem path
  rw [hq] at hrun
  exact ⟨w', bind_ok.mpr ⟨_, w', hrun, rfl⟩, bind_ok.mpr ⟨_, w', hrun, rfl⟩, hsame⟩

/-- The header and the sectors of a live object can be read. -/
theorem reads_object (hst : Store w.dt fs chain) (hmem : Ample w.env) (site : AllocSite)
    {fb : Nat} (ho : fs fb = some o) :
    readSector fb w = .ok (w.dt.data fb, w) ∧ metaStrbase (w.dt.data fb) = tableSize o fb ∧
      ∃ junk buf w', malloc site (u32 (metaBlocks (w.dt.data fb) * BYTSPERSEC)) w
          = .ok (some junk, w') ∧ Same w w' ∧ doReadfile fb junk w' = .ok (buf, w') ∧
        Agree buf.bytes (imageOf w.dt.data (chain fb)) 0 (512 * (chain fb).length) := by
  have hat := hst.obj fb o ho
  have hsec : sectorOf fb = fb := hst.sized.sectorOf hat.head_lt
  refine ⟨?_, (hat.header_field (by omega)).trans (strbase_eq hat.holds), ?_⟩
  · obtain ⟨b, w', hrun, rfl, rfl⟩ := wp_returns (m := readSector fb)
      (Q := fun b w' => b = w.dt.data fb ∧ w' = w) (s := w) (by
        rw [wp_readSector, hsec, hst.sized.dataSecs]
        exact ⟨hat.head_lt, rfl, rfl⟩)
    exact hrun
  · obtain ⟨zero, hzero⟩ := Option.ne_none_iff_exists'.mp (hmem.heap site 0)
    have hmalloc : malloc site (u32 (metaBlocks (w.dt.data fb) * BYTSPERSEC)) w
        = .ok (some ⟨512 * (chain fb).length, zero⟩, { w with env := w.env.pop site }) := by
      rw [hat.buffer_size hst.sized]
      show Except.ok ((w.env.heap site 0).map (Buf.mk _), _) = _
      rw [hzero]
      rfl
    obtain ⟨buf, w', hrun, rfl, -, -, hagree⟩ := wp_returns (wp_readObj (H := False)
      (w := { w with env := w.env.pop site }) hst.sized hat
      (b := ⟨512 * (chain fb).length, zero⟩) (Nat.le_refl _)
      (.inr (hmem.later (Later.pop _ _))))
    exact ⟨_, buf, _, hmalloc, Same.pop w _, hrun, hagree⟩

section Named

variable (hst : Store w.dt fs chain) (ht : Tree fs) (hmem : Ample w.env)
  (hq : named fs.ents path = some (d, e)) (ho : fs e.fb = some o)

include hst ht hmem hq ho

/-- The number of records of 32 bytes in the table, whatever it holds. -/
theorem cGetblocknum_named :
    ∃ w', cGetblocknum path w = .ok (((tableSize o e.fb / 32 : Nat) : Int), w') ∧ Same w w' := by
  obtain ⟨w', hrun, hsame⟩ := findObject_run hst ht hmem path
  rw [hq] at hrun
  have hst' : Store w'.dt fs chain := by rw [hsame.dt]; exact hst
  obtain ⟨hread, hbase, -⟩ := reads_object hst' (hmem.later hsame.later) .records ho
  refine ⟨w', ?_, hsame⟩
  unfold cGetblocknum
  rw [bind_run hrun]
  dsimp only
  rw [bind_run hread, hbase, s32_records hst ho]
  rfl

/-- What `c_getblocks` comes to. -/
theorem cGetblocks_eq (cap : Nat) :
    ∃ w' buf, Same w w' ∧ Agree buf (imageOf w.dt.data (chain e.fb)) 0 (512 * (chain e.fb).length) ∧
      cGetblocks path cap w = (do
        let l ← blockNumbers buf (tableSize o e.fb) cap
        return (s32 l.length, l)) w' := by
  obtain ⟨w₁, hrun, hsame⟩ := findObject_run hst ht hmem path
  rw [hq] at hrun
  have hst₁ : Store w₁.dt fs chain := by rw [hsame.dt]; exact hst
  obtain ⟨hread, hbase, junk, buf, w₂, hmalloc, hsame₂, hload, hagree⟩ :=
    reads_object hst₁ (hmem.later hsame.later) .records ho
  rw [hsame.dt] at hagree
  refine ⟨w₂, buf.bytes, hsame.trans hsame₂, hagree, ?_⟩
  unfold cGetblocks
  rw [bind_run hrun]
  dsimp only
  rw [bind_run hread, bind_run hmalloc]
  dsimp only
  rw [bind_run hload, hbase]

/-- The numbers are listed where the table ends with a record. -/
theorem cGetblocks_named {cap : Nat} (hdiv : tableSize o e.fb % 32 = 0)
    (hcap : tableSize o e.fb / 32 ≤ cap) :
    ∃ w', cGetblocks path cap w
      = .ok ((((tableSize o e.fb / 32 : Nat) : Int), blockNums w.dt e.fb), w') ∧ Same w w' := by
  obtain ⟨w', buf, hsame, hagree, heq⟩ := cGetblocks_eq hst ht hmem hq ho cap
  have hat := hst.obj e.fb o ho
  have hnums : (List.range (tableSize o e.fb / blockSize)).map (fun i => blockNum buf (blockOff i))
      = blockNums w.dt e.fb := by
    unfold blockNums
    rw [chainOf_eq hst.sized hat]
    dsimp only
    rw [strbase_eq hat.holds]
    refine List.map_congr_left fun i hi => ?_
    have hlt := List.mem_range.mp hi
    have hsize := tableSize_le hat.holds
    refine getLE_congr (hagree.mono (Nat.zero_le _) ?_)
    simp only [blockOff, metaSize, blockSize] at hlt ⊢
    omega
  refine ⟨w', ?_, hsame⟩
  rw [heq, blockNumbers, if_pos ⟨hdiv, hcap⟩, pure_bind, List.length_map, List.length_range, hnums,
    s32_records hst ho]
  rfl

/-- Elsewhere the loop runs out of the buffers. -/
theorem cGetblocks_stops {cap : Nat} (hdiv : tableSize o e.fb % 32 ≠ 0) :
    cGetblocks path cap w = .error .fault := by
  obtain ⟨w', buf, -, -, heq⟩ := cGetblocks_eq hst ht hmem hq ho cap
  rw [heq, blockNumbers, if_neg fun h => hdiv h.1]
  rfl

end Named

end Stored

end Sbpfs.Cfs.BlockListing
