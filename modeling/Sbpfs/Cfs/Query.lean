import Sbpfs.Cfs.Lookup

/-! The functions that only read the disk: `c_getblocknum`, `c_getblocks`, `c_stat`,
`c_opendir` and `c_readdir`. -/
namespace Sbpfs.Cfs.Query

open Sbpfs.Lib.Program Sbpfs.Lib.Memory Sbpfs.Cfs.Layout Sbpfs.Cfs.File Sbpfs.Cfs.Lookup

@[simp] abbrev MAX_FILENAME : Nat := 256

/-- The part `c_getblocknum`, `c_getblocks` and `c_stat` share: the first sector in the entry
of that path. -/
def findObject (path : CStr) : CM (Except Int Nat) :=
  match getFilenameFromPath path with
  | none => return .error (-1)
  | some (path, filename) => do
    match ← cLookup path with
    | .error _ => return .error (-1)
    | .ok parent =>
      if parent.type ≠ S_DIR then return .error (-1)
      else
        let pmeta ← readSector parent.fb
        match ← malloc .table (u32 (metaBlocks pmeta * BYTSPERSEC)) with
        | none => return .error (-9)
        | some pdata =>
          let pdata ← doReadfile parent.fb pdata
          match ← findEntryByName pdata.bytes filename with
          | none => return .error (-1)
          | some ofile => return .ok (entryFb pdata.bytes (entryOff ofile))

/-- Whatever the object is, its table counts as block records. -/
def cGetblocknum (path : CStr) : CM Int := do
  match ← findObject path with
  | .error ret => return ret
  | .ok fb =>
    let fmeta ← readSector fb
    return s32 (metaStrbase fmeta / blockSize)

/-- The loop of `c_getblocks`. The pointer is compared with the end by `!=`, so a table that
is not a whole number of records is left behind, and `l` has room for `cap` numbers only. -/
def blockNumbers (buf : Bytes) (strbase cap : Nat) : CM (List Nat) :=
  if strbase % blockSize = 0 ∧ strbase / blockSize ≤ cap then
    return (List.range (strbase / blockSize)).map fun i => blockNum buf (blockOff i)
  else fault

def cGetblocks (path : CStr) (cap : Nat) : CM (Int × List Nat) := do
  match ← findObject path with
  | .error ret => return (ret, [])
  | .ok fb =>
    let fmeta ← readSector fb
    match ← malloc .records (u32 (metaBlocks fmeta * BYTSPERSEC)) with
    | none => return (-9, [])
    | some buf =>
      let buf ← doReadfile fb buf
      let l ← blockNumbers buf.bytes (metaStrbase fmeta) cap
      return (s32 l.length, l)

/-- `stat_t`. -/
structure Stat where
  size : Nat
  atime : Nat
  mtime : Nat
  ctime : Nat
  owner : Nat
  mode : UInt8
  deriving DecidableEq, Repr

def statOf (fmeta : Bytes) : Stat where
  size := metaFlen fmeta
  atime := getLE fmeta 24 8
  mtime := getLE fmeta 32 8
  ctime := getLE fmeta 16 8
  owner := metaUid fmeta
  mode := metaFlags fmeta

def cStat (path : CStr) (uid : UInt32) : CM (Int × Option Stat) := do
  match ← findObject path with
  | .error ret => return (ret, none)
  | .ok fb =>
    let fmeta ← readSector fb
    if permissionCheck uid fmeta R = 0 then return (-4, none)
    else return (0, some (statOf fmeta))

/-- The entry's type is not looked at. `*entnum` is what it was unless the call succeeds. -/
def cOpendir (path : CStr) (uid : UInt32) (entnum : Nat) : CM (Int × Nat) := do
  match ← cLookup path with
  | .error _ => return (-1, entnum)
  | .ok entry =>
    let fmeta ← readSector entry.fb
    if permissionCheck uid fmeta R = 0 then return (-4, entnum)
    else return (s32 entry.fb, metaStrbase fmeta / entrySize)

/-- The string at `off` that `strncpy` with a buffer of `n` bytes leaves, the last of them NUL. -/
def strncpy (b : Bytes) (n off : Nat) : List UInt8 :=
  ((List.range (n - 1)).map fun i => b (off + i)).takeWhile (· ≠ 0)

def cReaddir (fb : UInt32) (entnum : UInt64) : CM (Int × Option (List UInt8 × UInt8)) := do
  let fmeta ← readSector fb.toNat
  if u64 (entnum.toNat * entrySize) ≥ metaStrbase fmeta then return (-1, none)
  else
    match ← malloc .table (u32 (metaBlocks fmeta * BYTSPERSEC)) with
    | none => return (-9, none)
    | some buf =>
      let buf ← doReadfile fb.toNat buf
      let ptr := metaSize + u64 (entnum.toNat * entrySize)
      let pool := metaSize + metaStrbase fmeta
      return (0, some (strncpy buf.bytes MAX_FILENAME (pool + entryName buf.bytes ptr),
        entryType buf.bytes ptr))

end Sbpfs.Cfs.Query
