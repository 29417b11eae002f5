import Sbpfs.Lib.Raise
import Sbpfs.Cfs.Query
import Sbpfs.Cfs.DataSpec
import Sbpfs.Cfs.ObjectSpec

/-!
# What the reading functions do

Whatever the disk holds, the functions that only read it leave it as it is: what they
consume are allocation outcomes. Where the disk holds a file tree, `c_opendir` returns the
first sector of what the path names, be it a directory or not.
-/
namespace Sbpfs.Cfs.QuerySpec

open Sbpfs.Lib.Program Sbpfs.Lib.Raise Sbpfs.Lib.Memory
open Sbpfs.Cfs.Layout Sbpfs.Cfs.Rules Sbpfs.Cfs.File Sbpfs.Cfs.Lookup Sbpfs.Cfs.Data
open Sbpfs.Cfs.Image Sbpfs.Cfs.DiskStore Sbpfs.Cfs.LookupSpec Sbpfs.Cfs.ObjectSpec Sbpfs.Cfs.Query
open Sbpfs.Spec.FileTree Sbpfs.Spec.Resolve

instance : Std.Refl Same := ⟨Same.refl⟩

instance : IsTrans World Same := ⟨fun _ _ _ => Same.trans⟩

/-! ## Reading leaves the disk alone -/

theorem keeps_malloc (s : AllocSite) (n : Nat) : Keeps Same (malloc s n) := by
  constructor
  intro w w' b h
  cases h
  exact Same.pop w s

theorem keeps_readSector (fb : Nat) : Keeps Same (readSector fb) := by
  apply keeps_bind (keeps_bind keeps_get fun _ => keeps_pure _)
  exact fun _ => keeps_ite (keeps_pure _) keeps_fault

theorem keeps_readFat (i : Nat) : Keeps Same (readFat i) := by
  apply keeps_bind (keeps_bind keeps_get fun _ => keeps_pure _)
  exact fun _ => keeps_ite (keeps_pure _) keeps_fault

theorem keeps_copyIn (b : Buf) (doff : Nat) (src : Bytes) (soff n : Nat) :
    Keeps Same (b.copyIn doff src soff n) := keeps_ite (keeps_pure _) keeps_fault

theorem keeps_doReadfileLoop (n fatNum i : Nat) (data : Buf) :
    Keeps Same (doReadfileLoop n fatNum i data) := by
  induction n generalizing fatNum i data with
  | zero => exact keeps_hang
  | succ n ih =>
    rw [doReadfileLoop]
    apply keeps_ite (keeps_pure _)
    exact keeps_bind (keeps_readSector _) fun _ => keeps_bind (keeps_copyIn _ _ _ _ _) fun _ =>
      keeps_bind (keeps_readFat _) fun _ => ih _ _ _

theorem keeps_doReadfile (fb : Nat) (data : Buf) : Keeps Same (doReadfile fb data) :=
  keeps_bind keeps_get fun _ => keeps_doReadfileLoop _ _ _ _

theorem keeps_findEntryFrom (pdata : Bytes) (name : CStr) (n i : Nat) :
    Keeps Same (findEntryFrom pdata name n i) := by
  induction n generalizing i with
  | zero => exact keeps_ite (keeps_pure _) keeps_fault
  | succ n ih => exact keeps_ite (keeps_pure _) (keeps_ite (keeps_pure _) (ih _))

theorem keeps_findEntryByName (pdata : Bytes) (name : CStr) :
    Keeps Same (findEntryByName pdata name) := keeps_findEntryFrom _ _ _ _

theorem keeps_cFindEntry (n base : Nat) (path : CStr) : Keeps Same (cFindEntry n base path) := by
  induction n generalizing base path with
  | zero => exact keeps_hang
  | succ n ih =>
    rw [cFindEntry]
    apply keeps_bind (keeps_readSector _)
    intro fmeta
    apply keeps_bind (keeps_malloc _ _)
    intro buf
    cases buf with
    | none => exact keeps_pure _
    | some buf =>
      apply keeps_bind (keeps_doReadfile _ _)
      intro buf
      split
      · apply keeps_bind (keeps_findEntryByName _ _)
        intro p
        cases p <;> exact keeps_pure _
      · apply keeps_bind (keeps_findEntryByName _ _)
        intro p
        cases p with
        | none => exact keeps_pure _
        | some p => exact keeps_ite (ih _ _) (keeps_pure _)

theorem keeps_cLookup (path : CStr) : Keeps Same (cLookup path) :=
  keeps_bind (keeps_readSector _) fun _ => keeps_ite (keeps_pure _) (keeps_cFindEntry _ _ _)

theorem keeps_findObject (path : CStr) : Keeps Same (findObject path) := by
  unfold findObject
  split
  · exact keeps_pure _
  apply keeps_bind (keeps_cLookup _)
  intro parent
  cases parent with
  | error ret => exact keeps_pure _
  | ok parent =>
    apply keeps_ite (keeps_pure _)
    apply keeps_bind (keeps_readSector _)
    intro pmeta
    apply keeps_bind (keeps_malloc _ _)
    intro pdata
    cases pdata with
    | none => exact keeps_pure _
    | some pdata =>
      apply keeps_bind (keeps_doReadfile _ _)
      intro pdata
      apply keeps_bind (keeps_findEntryByName _ _)
      intro ofile
      cases ofile <;> exact keeps_pure _

theorem keeps_cGetblocknum (path : CStr) : Keeps Same (cGetblocknum path) := by
  apply keeps_bind (keeps_findObject path)
  intro fb
  cases fb with
  | error ret => exact keeps_pure _
  | ok fb => exact keeps_bind (keeps_readSector _) fun _ => keeps_pure _

theorem keeps_cGetblocks (path : CStr) (cap : Nat) : Keeps Same (cGetblocks path cap) := by
  apply keeps_bind (keeps_findObject path)
  intro fb
  cases fb with
  | error ret => exact keeps_pure _
  | ok fb =>
    apply keeps_bind (keeps_readSector _)
    intro fmeta
    apply keeps_bind (keeps_malloc _ _)
    intro buf
    cases buf with
    | none => exact keeps_pure _
    | some buf =>
      apply keeps_bind (keeps_doReadfile _ _)
      intro buf
      exact keeps_bind (keeps_ite (keeps_pure _) keeps_fault) fun _ => keeps_pure _

theorem keeps_cStat (path : CStr) (uid : UInt32) : Keeps Same (cStat path uid) := by
  apply keeps_bind (keeps_findObject path)
  intro fb
  cases fb with
  | error ret => exact keeps_pure _
  | ok fb =>
    exact keeps_bind (keeps_readSector _) fun _ => keeps_ite (keeps_pure _) (keeps_pure _)

theorem keeps_cOpendir (path : CStr) (uid : UInt32) (entnum : Nat) :
    Keeps Same (cOpendir path uid entnum) := by
  apply keeps_bind (keeps_cLookup path)
  intro entry
  cases entry with
  | error ret => exact keeps_pure _
  | ok entry =>
    exact keeps_bind (keeps_readSector _) fun _ => keeps_ite (keeps_pure _) (keeps_pure _)

theorem keeps_cReaddir (fb : UInt32) (entnum : UInt64) : Keeps Same (cReaddir fb entnum) := by
  apply keeps_bind (keeps_readSector _)
  intro fmeta
  apply keeps_ite (keeps_pure _)
  apply keeps_bind (keeps_malloc _ _)
  intro buf
  cases buf with
  | none => exact keeps_pure _
  | some buf => exact keeps_bind (keeps_doReadfile _ _) fun _ => keeps_pure _

theorem keeps_cRead (fb : UInt32) (offset length : UInt64) (cap : Nat) :
    Keeps Same (cRead fb offset length cap) := by
  apply keeps_bind (keeps_readSector _)
  intro fmeta
  apply keeps_ite (keeps_pure _)
  apply keeps_bind (keeps_malloc _ _)
  intro buf
  cases buf with
  | none => exact keeps_pure _
  | some buf =>
    exact keeps_bind (keeps_doReadfile _ _) fun _ => keeps_ite (keeps_pure _) keeps_fault

/-! ## `c_opendir` on a file tree -/

section Opendir

variable {fs : Fs} {chain : Nat → List Nat} {w : World} {H : Prop}

/-- What `c_opendir` returns: an error, or the first sector of what the path names and the
reader may read. -/
def Opened (fs : Fs) (path : CStr) (uid : UInt32) (r : Int × Nat) : Prop :=
  r.1 = -1 ∨ r.1 = -4 ∨
    ∃ e o, resolve fs.ents path = some e ∧ fs e.fb = some o ∧ r.1 = e.fb ∧ perm uid o R ≠ 0

theorem wp_cOpendir (hst : Store w.dt fs chain) (ht : Tree fs) (path : CStr) (uid : UInt32)
    (entnum : Nat) (hH : H ∨ Ample w.env) :
    wpOr H (cOpendir path uid entnum) (fun r w' => Same w w' ∧ Opened fs path uid r) w := by
  unfold cOpendir
  apply wp_call (wp_cLookup hst ht path hH)
  intro r w' hr
  obtain ⟨hs, hpost⟩ := hr
  rcases hpost with ⟨rfl, -⟩ | hpost
  · exact (wp_pure _ _ _).mpr ⟨hs, .inl rfl⟩
  cases hpath : resolve fs.ents path with
  | none =>
    rw [hpath] at hpost
    dsimp only at hpost
    subst hpost
    exact (wp_pure _ _ _).mpr ⟨hs, .inl rfl⟩
  | some e =>
    rw [hpath] at hpost
    obtain ⟨p, rfl, hfb, -⟩ := hpost
    obtain ⟨o, ho, -⟩ := resolve_typed ht hpath
    have hat := hst.obj e.fb o ho
    have hlt := hat.head_lt
    have hsec : sectorOf e.fb = e.fb := hst.sized.sectorOf hlt
    have hnum := hst.sized.fatNum_lt
    simp only [wp_bind, wp_readSector, wp_ite, wp_pure, hfb, hs.dt, hsec]
    refine ⟨?_, ?_⟩
    · rw [hst.sized.dataSecs]
      exact hlt
    · rw [header_perm hat]
      split
      · exact ⟨hs, .inr (.inl rfl)⟩
      · rename_i hperm
        have hs32 : s32 e.fb = e.fb := by
          unfold s32
          rw [Nat.mod_eq_of_lt (by omega), if_pos (by omega)]
        exact ⟨hs, .inr (.inr ⟨e, o, hpath, ho, hs32, hperm⟩)⟩

end Opendir

end Sbpfs.Cfs.QuerySpec
