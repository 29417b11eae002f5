import Sbpfs.Cnode.LostFiles
import Sbpfs.Cfs.TilingLaws

/-!
# What a read is answered with

The entries of `c_read` behind `__flit_read`, where memory is ample and all users that have a block
of the range have addresses.
-/
namespace Sbpfs.Cnode.Reading

open Sbpfs.Lib.Program Sbpfs.Lib.Raise
open Sbpfs.Cfs.Layout (BLOCKSIZE World)
open Sbpfs.Cfs.Rules Sbpfs.Cfs.Image Sbpfs.Cfs.DiskStore Sbpfs.Cfs.Data Sbpfs.Cfs.DataSpec
open Sbpfs.Cfs.BlockSpec Sbpfs.Cfs.Calls
open Sbpfs.Cfs.TilingLaws (file_len_le entries_blocks entries_length)
open Sbpfs.Spec.FileTree
open Sbpfs.Wire.Head Sbpfs.Wire.Number
open Sbpfs.Cnode Sbpfs.Cnode.Pool Sbpfs.Cnode.Libcfs Sbpfs.Cnode.DTree
open Sbpfs.Cnode.ReplyLaws Sbpfs.Cnode.LostFiles

/-! ## The filter -/

theorem sieve_maps {n n' : CtrlNode} (hb : n'.blockmap = n.blockmap) (hi : n'.ipmap = n.ipmap)
    (b : SendBlock) : sieve n' b = sieve n b := by
  unfold sieve
  rw [hb, hi]

/-! ## The library -/

section Library

variable {fs : Fs} {chain : Nat → List Nat} {u len : Nat} {fl : UInt8} {recs : List Rec}

/-- The entries for a range of a file of `len` bytes. -/
def readEntries (recs : List Rec) (len offset length : Nat) : List SendBlock :=
  entries recs offset (readLen len offset length)
    (blocksFor (offset + readLen len offset length) - offset / BLOCKSIZE)

theorem readEntries_length (recs : List Rec) (len offset length : Nat) :
    (readEntries recs len offset length).length
      = blocksFor (offset + readLen len offset length) - offset / BLOCKSIZE := entries_length ..

/-- The entries are about the blocks of the range, one after the other. -/
theorem readEntries_blocks {offset length j : Nat} {b : SendBlock}
    (hcount : recs.length = blocksFor len)
    (hoff : offset ≤ len) (hb : (readEntries recs len offset length)[j]? = some b) :
    ∃ r, recs[offset / BLOCKSIZE + j]? = some r ∧ b.blockNum = r.num ∧ b.ip = r.ip ∧
      offset / BLOCKSIZE + j < blocksFor (offset + readLen len offset length) := by
  have hstop := blocksFor_mono (@readLen_le len offset length hoff)
  have hfirst := firstBlock_le (Nat.le_add_right offset (readLen len offset length))
  have hj := (List.getElem?_eq_some_iff.mp hb).1
  rw [readEntries_length] at hj
  obtain ⟨r, hr, hnum, hip⟩ := entries_blocks (by rw [hcount]; omega) j b hb
  exact ⟨r, hr, hnum, hip, by omega⟩

theorem cRead_run {w : World} {fb : UInt32} (offset length : UInt64) (hst : Store w.dt fs chain)
    (ho : fs fb.toNat = some ⟨u, fl, .file len recs⟩) (hmem : Ample w.env)
    (hoff : offset.toNat ≤ len) :
    ∃ w', cRead fb offset length (replyCap length) w
      = .ok ((((readEntries recs len offset.toNat length.toNat).length : Nat),
        readEntries recs len offset.toNat length.toNat), w') := by
  obtain ⟨q, w', hrun, -, hreply⟩ := wp_returns (wp_cRead (H := False) hst ho (file_len_le hst ho)
    (Nat.le_refl (replyCap length)) (.inr hmem))
  rcases hreply with ⟨-, site, hsite⟩ | hreply
  · exact absurd (hmem.heap site) hsite
  unfold ReadReply at hreply
  rw [if_neg (Nat.not_lt.mpr hoff)] at hreply
  dsimp only at hreply
  refine ⟨w', ?_⟩
  unfold readEntries
  rw [entries_length, hrun, hreply]

end Library

/-! ## The method -/

section Method

variable {fs : Fs} {chain : Nat → List Nat} {u len : Nat} {fl : UInt8} {recs : List Rec}
    {n : CtrlNode}
  {fd offset length : Str} {uid k o l : Int} {file : FileDes}

/-- The number stands for a file that may be read. -/
structure MayRead (n : CtrlNode) (uid k : Int) (file : FileDes) : Prop where
  found : CtrlNode.getFile n uid k = some file
  type : file.type = Pool.S_FIL
  may : mayUse file SBP_O_RDONLY = true

/-- The wrapper gets the entries, or nothing where there are none. -/
theorem wrapCRead_run (uid o l : Int) (hst : Store n.world.dt fs chain)
    (ho : fs (argI file.fb).toNat = some ⟨u, fl, .file len recs⟩) (hmem : Ample n.world.env)
    (hoff : (argK o).toNat ≤ len) : ∃ n', wrapCRead file.fb o l uid n
      = .ok (.ok (if readEntries recs len (argK o).toNat (argK l).toNat = [] then none
        else some (readEntries recs len (argK o).toNat (argK l).toNat)), n') ∧
      n'.blockmap = n.blockmap ∧ n'.ipmap = n.ipmap := by
  obtain ⟨w, hroom, hsame⟩ := replyRoom_run hmem (replyCap (argK l)) 32
  have hst' : Store w.dt fs chain := by
    rw [hsame.dt]
    exact hst
  obtain ⟨w', hrun⟩ := cRead_run (argK o) (argK l) hst' ho (hmem.later hsame.later) hoff
  refine ⟨{ n with
    world := w'
    calls := .read (argI file.fb) (argK o) (argK l) (argI uid) :: n.calls }, ?_, rfl, rfl⟩
  have hsome : someBlocks (((readEntries recs len (argK o).toNat (argK l).toNat).length : Nat),
      readEntries recs len (argK o).toNat (argK l).toNat)
        = if readEntries recs len (argK o).toNat (argK l).toNat = [] then none
          else some (readEntries recs len (argK o).toNat (argK l).toNat) := by
    unfold someBlocks
    cases readEntries recs len (argK o).toNat (argK l).toNat with
    | nil => rfl
    | cons b blocks => rw [if_neg (by rw [List.length_cons]; omega), if_neg (List.cons_ne_nil _ _)]
  unfold wrapCRead
  rw [bind_step (inC_run hroom), ← hsome]
  exact (bind_step rfl _).trans ((bind_step (inC_run hrun) _).trans rfl)

/-- A read of the file is answered with its entries behind the filter. -/
theorem read_run (hfd : pyInt fd = some k) (ho : pyInt offset = some o) (hl : pyInt length = some l)
    (hmay : MayRead n uid k file) (hst : Store n.world.dt fs chain)
    (hfile : fs (argI file.fb).toNat = some ⟨u, fl, .file len recs⟩) (hmem : Ample n.world.env)
    (hoff : (argK o).toNat ≤ len) (hne : readEntries recs len (argK o).toNat (argK l).toNat ≠ [])
    (hloc : ∀ b ∈ readEntries recs len (argK o).toNat (argK l).toNat, Located n b.blockNum) :
    ∃ n', DTree.read fd offset length uid n = .ok (.ok
      ((readEntries recs len (argK o).toNat (argK l).toNat).map (sieve n)), n') := by
  obtain ⟨n', hwrap, hblocks, hips⟩ := wrapCRead_run uid o l hst hfile hmem hoff
  rw [if_neg hne] at hwrap
  have hloc' : ∀ b ∈ readEntries recs len (argK o).toNat (argK l).toNat, Located n' b.blockNum := by
    unfold Located at hloc ⊢
    rw [hblocks, hips]
    exact hloc
  have hflit := flitRead_located hloc'
  refine ⟨n', ?_⟩
  unfold DTree.read
  rw [bind_step (int_some hfd _), bind_step (int_some ho _), bind_step (int_some hl _),
    bind_step (findFile_some hmay.found hmay.type), if_neg (by rw [hmay.may]; decide),
      bind_step hwrap]
  refine hflit.trans ?_
  rw [show sieve n' = sieve n from funext (sieve_maps hblocks hips)]

/-- Where there is nothing to list the read fails. -/
theorem read_none (hfd : pyInt fd = some k) (ho : pyInt offset = some o)
    (hl : pyInt length = some l)
    (hmay : MayRead n uid k file) (hst : Store n.world.dt fs chain)
    (hfile : fs (argI file.fb).toNat = some ⟨u, fl, .file len recs⟩) (hmem : Ample n.world.env)
    (hoff : (argK o).toNat ≤ len) (hnil : readEntries recs len (argK o).toNat (argK l).toNat = []) :
    ∃ e n', DTree.read fd offset length uid n = .ok (.error e, n') := by
  obtain ⟨n', hwrap, -⟩ := wrapCRead_run uid o l hst hfile hmem hoff
  rw [if_pos hnil] at hwrap
  have hrun : DTree.read fd offset length uid n = raiseDTree "ReadError" "ReadError" n' := by
    unfold DTree.read
    rw [bind_step (int_some hfd _), bind_step (int_some ho _), bind_step (int_some hl _),
      bind_step (findFile_some hmay.found hmay.type), if_neg (by rw [hmay.may]; decide),
      bind_step hwrap]
  exact ⟨_, n', hrun.trans rfl⟩

/-- A read that is answered was allowed to be made, and all blocks that it lists are known. -/
theorem read_returns {data : List SendBlock} {n' : CtrlNode} (hfd : pyInt fd = some k)
    (ho : pyInt offset = some o) (hl : pyInt length = some l)
    (hget : CtrlNode.getFile n uid k = some file)
    (htype : file.type = Pool.S_FIL) (hst : Store n.world.dt fs chain)
    (hfile : fs (argI file.fb).toNat = some ⟨u, fl, .file len recs⟩) (hmem : Ample n.world.env)
    (hoff : (argK o).toNat ≤ len) (h : DTree.read fd offset length uid n = .ok (.ok data, n')) :
    mayUse file SBP_O_RDONLY = true ∧
      data = (readEntries recs len (argK o).toNat (argK l).toNat).map (sieve n) ∧
      ∀ b ∈ readEntries recs len (argK o).toNat (argK l).toNat, Located n b.blockNum := by
  have hmay : mayUse file SBP_O_RDONLY = true := by
    by_contra hno
    unfold DTree.read at h
    rw [bind_step (int_some hfd _), bind_step (int_some ho _), bind_step (int_some hl _),
      bind_step (findFile_some hget htype),
        if_pos (by rw [Bool.not_eq_true] at hno; rw [hno]; rfl)] at h
    cases h
  have hmayRead : MayRead n uid k file := ⟨hget, htype, hmay⟩
  have hne : readEntries recs len (argK o).toNat (argK l).toNat ≠ [] := by
    intro hnil
    obtain ⟨e, n₁, hnone⟩ := read_none hfd ho hl hmayRead hst hfile hmem hoff hnil
    cases hnone.symm.trans h
  have hloc : ∀ b ∈ readEntries recs len (argK o).toNat (argK l).toNat, Located n b.blockNum := by
    obtain ⟨n₁, hwrap, hblocks, hips⟩ := wrapCRead_run uid o l hst hfile hmem hoff
    rw [if_neg hne] at hwrap
    unfold DTree.read at h
    rw [bind_step (int_some hfd _), bind_step (int_some ho _), bind_step (int_some hl _),
      bind_step (findFile_some hget htype), if_neg (by rw [hmay]; decide), bind_step hwrap] at h
    change flitRead (readEntries recs len (argK o).toNat (argK l).toNat) n₁ = _ at h
    by_contra hno
    simp only [not_forall] at hno
    obtain ⟨b, hb, hnot⟩ := hno
    have hnot₁ : ¬ Located n₁ b.blockNum := by
      unfold Located at hnot ⊢
      rw [hblocks, hips]
      exact hnot
    cases (flitRead_missing ⟨b, hb, hnot₁⟩).symm.trans h
  obtain ⟨n₁, hrun⟩ := read_run hfd ho hl hmayRead hst hfile hmem hoff hne hloc
  cases hrun.symm.trans h
  exact ⟨hmay, rfl, hloc⟩

end Method

end Sbpfs.Cnode.Reading
