import Sbpfs.Cfs.DirectoryListing
import Sbpfs.Cfs.HalfDone
import Sbpfs.Cfs.MoveSpec
import Sbpfs.Cfs.NamespaceLaws
import Sbpfs.Cfs.QuerySpec
import Sbpfs.Cfs.TilingLaws

/-!
# Calls that come back

On a disk that holds a file tree, with memory enough, a call of the library returns when there
is room for what it adds. A move has to keep in the tables it has read as well, and the
calls that take a first sector only look at the header there before they walk the chain.
-/
namespace Sbpfs.Cfs.Totality

open Sbpfs.Lib.Program Sbpfs.Lib.Memory Sbpfs.Lib.Chain
open Sbpfs.Cfs.Layout Sbpfs.Cfs.Rules Sbpfs.Cfs.FatSpec Sbpfs.Cfs.File Sbpfs.Cfs.FileSpec
open Sbpfs.Cfs.Namespace Sbpfs.Cfs.Data Sbpfs.Cfs.Query Sbpfs.Cfs.Image Sbpfs.Cfs.DiskStore
open Sbpfs.Cfs.LookupSpec Sbpfs.Cfs.Edit Sbpfs.Cfs.ObjectSpec Sbpfs.Cfs.BlockSpec
open Sbpfs.Cfs.EntrySpec Sbpfs.Cfs.NamespaceSpec Sbpfs.Cfs.MoveSpec Sbpfs.Cfs.DataSpec
open Sbpfs.Cfs.HeaderSpec Sbpfs.Cfs.QuerySpec
open Sbpfs.Cfs.BlockListing Sbpfs.Cfs.TilingLaws Sbpfs.Cfs.ChainLaws Sbpfs.Cfs.NamespaceLaws
open Sbpfs.Cfs.DiskView (Live live_iff)
open Sbpfs.Spec.FileTree Sbpfs.Spec.Resolve

-- the rules are used by name; a program is never evaluated
attribute [local irreducible] wpOr

variable {fs : Fs} {chain : Nat → List Nat} {w : World} {path : CStr} {uid : UInt32}

/-! ## Names -/

section Names

variable (hw : WellFormed w.dt fs chain) (hmem : Ample w.env)

include hw hmem

theorem cMkdir_terminates
    (hroom : ∀ d name, mkdirPlan (view fs) path uid = .ok (d, name) → RoomFor w.dt chain d name) :
    Terminates (cMkdir path uid) w :=
  .of_wp (wp_cMkdir hw.store hw.tree uid
    (fun d name hp => roomFor_name_lt hw.store.sized (hroom d name hp))
    (fun _ _ _ => hmem.heap _ 0) (.inr ⟨hmem, hroom⟩))

theorem cOpen_terminates {oflags mode : UInt8}
    (hroom : ∀ d name, openPlan (view fs) path uid = .ok (d, name, none) →
      RoomFor w.dt chain d name) : Terminates (cOpen path oflags mode uid) w :=
  .of_wp (wp_cOpen hw.store hw.tree oflags mode uid
    (fun d name hp => roomFor_name_lt hw.store.sized (hroom d name hp))
    (fun _ _ _ _ => hmem.heap _ 0) (.inr ⟨hmem, hroom⟩))

theorem cRemove_terminates : Terminates (cRemove path uid) w :=
  .of_wp (wp_cRemove hw.store hw.tree path uid (fun _ _ _ => hmem.heap _ 0)
    (.inr ⟨hmem, hw.ordered⟩))

/-- A directory is removed through any entry that names it, its own included. -/
theorem cRmdir_terminates : Terminates (cRmdir path uid) w := by
  have hend : wpOr False (cRmdir path uid) (fun _ _ => True) w := by
    refine wp_cRmdir_until hw.store hw.tree path uid (fun _ _ _ _ => trivial)
      (fun _ _ _ _ => trivial) (fun d e ouid flags p kids i pdata w₁ _ _ hspot hempty => ?_)
      (.inr hmem)
    have hst₁ : Store w₁.dt fs chain := by rw [hspot.same.dt]; exact hw.store
    have hmem₁ : Ample w₁.env := hmem.later hspot.same.later
    by_cases hself : e.fb = d
    · exact wp_mono (wp_dropEntry_self hst₁ hspot.dir hspot.entry hself hspot.holds hspot.room
        (hmem₁.heap _ 0) (.inr ⟨hmem₁, hw.ordered⟩)) fun _ _ _ => trivial
    obtain ⟨j, rfl, hj⟩ := kid_of_empty hw.tree hspot.dir hspot.entry hempty hself
    obtain ⟨euid, eflags, ep, hoe⟩ := hempty
    exact wp_mono (wp_dropEntry hst₁ hw.tree hspot.dir hj (kids_of_dir hoe) hspot.holds hspot.room
      (hmem₁.heap _ 0) (.inr ⟨hmem₁, hw.ordered⟩)) fun _ _ _ => trivial
  exact .of_wp hend

theorem cChown_terminates {newuid : UInt32} : Terminates (cChown path newuid uid) w :=
  .of_wp (wp_cChown hw.store hw.tree path newuid uid (.inr hmem))

theorem cChmod_terminates {mode : UInt8} : Terminates (cChmod path mode uid) w :=
  .of_wp (wp_cChmod hw.store hw.tree path mode uid (.inr hmem))

theorem cOpendir_terminates (entnum : Nat) : Terminates (cOpendir path uid entnum) w :=
  .of_wp (wp_cOpendir hw.store hw.tree path uid entnum (.inr hmem))

theorem cStat_terminates : Terminates (cStat path uid) w := by
  obtain ⟨w₁, hfind, hsame⟩ := findObject_run hw.store hw.tree hmem path
  unfold cStat
  rw [Terminates, bind_run hfind]
  cases hq : named fs.ents path with
  | none => exact ⟨_, rfl⟩
  | some q =>
    obtain ⟨d, e⟩ := q
    obtain ⟨o, ho, -⟩ := named_typed hw.tree hq
    have hst₁ : Store w₁.dt fs chain := by rw [hsame.dt]; exact hw.store
    obtain ⟨hread, -⟩ := reads_object hst₁ (hmem.later hsame.later) .table ho
    dsimp only
    rw [bind_run hread]
    split <;> exact ⟨_, rfl⟩

end Names

/-! ## Moves -/

/-- A move returns unless the name it copies does not fit. -/
theorem cMove_terminates (hw : WellFormed w.dt fs chain) (hmem : Ample w.env)
    {srcpath dstpath : CStr} (hfits : ∀ s d e name,
      movePlan (view fs) srcpath dstpath uid = .ok (s, d, e, name) → MoveFits w.dt chain s d name) :
    Terminates (cMove srcpath dstpath uid) w := by
  have hmove : wpOr False (cMove srcpath dstpath uid) (fun _ _ => True) w := by
    cases hplan : movePlan (view fs) srcpath dstpath uid with
    | error c =>
      exact wp_mono (wp_cMove_refused hw.store hw.tree hplan (.inr hmem)) fun _ _ _ => trivial
    | ok p =>
      obtain ⟨s, d, e, name⟩ := p
      have hfit := hfits s d e name hplan
      exact wp_mono (wp_cMove_elsewhere hw.store hw.tree hplan (hfit.copyFits hmem)
        (.inr ⟨hmem, hw.ordered, hfit⟩)) fun _ _ _ => trivial
  exact .of_wp hmove

/-! ## Calls with a first sector -/

/-- The chain from `fb` on fits the buffer that the header at `fb` asks for. -/
def Legible (dt : Dtree) (fb : Nat) : Prop :=
  ∃ cs, Linked dt.fat ENDSEC (fb :: cs) ∧ (∀ c ∈ fb :: cs, c < dt.sb.fatNum) ∧
    (fb :: cs).length ≤ metaBlocks (dt.data fb) ∧ metaBlocks (dt.data fb) < 2 ^ 23

theorem legible_object {fb : Nat} {o : Obj} (hst : Store w.dt fs chain) (ho : fs fb = some o) :
    Legible w.dt fb := by
  have hat := hst.obj fb o ho
  have hblocks : metaBlocks (w.dt.data fb) = (chain fb).length :=
    (hat.header_field (by omega)).trans hat.holds.blocks
  have hlen := (hat.length_le hst.sized).trans_lt hst.sized.fatNum_lt
  obtain ⟨rest, hrest⟩ := hat.cons
  refine ⟨rest, ?_, ?_, ?_, by omega⟩
  · rw [← hrest]
    exact hat.linked
  · rw [← hrest]
    exact hat.lt
  · rw [← hrest, hblocks]

/-- The number is behind the table that the header at `fb` describes, or the table can be read. -/
def Listable (dt : Dtree) (fb : Nat) (entnum : UInt64) : Prop :=
  (sectorOf fb < dt.dataSecs ∧
    metaStrbase (dt.data (sectorOf fb)) ≤ u64 (entnum.toNat * entrySize)) ∨ Legible dt fb

/-- The offset is behind the file that the header at `fb` describes. -/
def Behind (dt : Dtree) (fb : UInt32) (offset : UInt64) : Prop :=
  sectorOf fb.toNat < dt.dataSecs ∧ metaFlen (dt.data (sectorOf fb.toNat)) < offset.toNat

/-- The file there is one, the end of the range has a block number, and there is room for its
records. -/
structure Extends (dt : Dtree) (chain : Nat → List Nat) (fb : UInt32) (offset length : UInt64) :
    Prop where
  live : Live dt fb.toNat S_FIL
  stop : offset.toNat + length.toNat ≤ MAX_END
  room : RoomToWrite dt chain fb.toNat
    (max (metaFlen (dt.data fb.toNat)) (offset.toNat + length.toNat))

section Sectors

variable {fb : UInt32} (hw : WellFormed w.dt fs chain) (hmem : Ample w.env)

include hw hmem

theorem cReaddir_terminates {entnum : UInt64} (h : Listable w.dt fb.toNat entnum) :
    Terminates (cReaddir fb entnum) w := by
  have hs := hw.store.sized
  have hread : wpOr False (cReaddir fb entnum) (fun _ _ => True) w := by
    unfold cReaddir
    simp only [wp_bind, wp_readSector, wp_ite, wp_pure]
    rcases h with ⟨hin, hbehind⟩ | ⟨cs, hlink, hlt, hlen, hblocks⟩
    · exact ⟨hin, by rw [if_pos hbehind]; trivial⟩
    have hfb := hlt fb.toNat (List.mem_cons_self ..)
    rw [hs.sectorOf hfb, hs.dataSecs]
    refine ⟨hfb, ?_⟩
    split
    · trivial
    obtain ⟨junk, hjunk⟩ := Option.ne_none_iff_exists'.mp (hmem.heap .table 0)
    have hsize : u32 (metaBlocks (w.dt.data fb.toNat) * BYTSPERSEC)
        = 512 * metaBlocks (w.dt.data fb.toNat) := by
      simp only [BYTSPERSEC, u32]
      omega
    rw [wp_malloc, hjunk]
    dsimp only [Option.map_some]
    refine wp_call (wp_doReadfile (w := { w with env := w.env.pop .table }) hs hlink hlt ?_
      (by omega) (.inr ((hlen.trans_lt hblocks).trans hmem.fuel))) fun _ _ _ =>
        (wp_pure _ _ _).mpr trivial
    simp only [hsize]
    omega
  exact .of_wp hread

theorem cRead_terminates {offset length : UInt64} {cap : Nat}
    (hcap : length.toNat / BLOCKSIZE + 2 ≤ cap)
    (h : Behind w.dt fb offset ∨ Live w.dt fb.toNat S_FIL) :
    Terminates (cRead fb offset length cap) w := by
  rcases h with ⟨hin, hbehind⟩ | hlive
  · refine ⟨((-1, []), w), ?_⟩
    unfold cRead
    rw [bind_run (readSector_run hin)]
    dsimp only
    rw [if_pos hbehind]
    rfl
  · obtain ⟨⟨u, fl, node⟩, ho, htype⟩ := (live_iff hw.store hw.tree _ _).mp hlive
    cases node with
    | dir p kids => cases htype
    | file len recs =>
        exact .of_wp (wp_cRead hw.store ho (file_len_le hw.store ho) hcap (.inr hmem))

theorem cWrite_terminates {offset length : UInt64} {ips : List Nat} {cap : Nat} (hips : ips ≠ [])
    (hcap : length.toNat / BLOCKSIZE + 2 ≤ cap)
    (h : Behind w.dt fb offset ∨ Extends w.dt chain fb offset length) :
    Terminates (cWrite fb offset length ips cap) w := by
  rcases h with ⟨hin, hbehind⟩ | hext
  · refine ⟨((-1, []), w), ?_⟩
    unfold cWrite
    rw [bind_run (readSector_run hin)]
    dsimp only
    rw [if_pos hbehind]
    rfl
  · obtain ⟨⟨u, fl, node⟩, ho, htype⟩ := (live_iff hw.store hw.tree _ _).mp hext.live
    cases node with
    | dir p kids => cases htype
    | file len recs =>
      have hflen : metaFlen (w.dt.data fb.toNat) = len := by
        have hat := hw.store.obj _ _ ho
        have hfile : FileImage (imageOf w.dt.data (chain fb.toNat))
          (chain fb.toNat).length len recs :=
          hat.holds.node
        exact (hat.header_field (by omega)).trans hfile.flen
      have hroom := hext.room
      rw [hflen] at hroom
      exact .of_wp (wp_cWrite hw.store ho (file_len_le hw.store ho) (fun _ => hext.stop) hips hcap
        (.inr ⟨hmem, fun _ => hroom⟩))

end Sectors

end Sbpfs.Cfs.Totality
