import Sbpfs.Cfs.Lookup

/-! The operations on names: `c_mkdir`, `c_rmdir`, `c_open`, `c_remove`, `c_move`, and the
two that change an object's header, `c_chown` and `c_chmod`. -/
namespace Sbpfs.Cfs.Namespace

open Sbpfs.Lib.Program Sbpfs.Lib.Memory Sbpfs.Cfs.Layout Sbpfs.Cfs.Fat Sbpfs.Cfs.File
open Sbpfs.Cfs.Lookup

/-- The part `c_open` and `c_mkdir` share: `buf`, of `newsize` bytes, becomes the table
`pdata` with one more entry, whose object `init` makes. -/
def spliceEntry (pdata pmeta : Bytes) (buf : Buf) (newsize : Nat) (name : CStr) (type : UInt8)
    (init : CM (Option Nat)) : CM (Buf × Option Nat) := do
  let strbase := metaStrbase pmeta
  let strlen := metaStrlen pmeta
  let entry := metaSize + strbase
  let buf ← buf.copyIn 0 pdata 0 (metaSize + strbase)
  let buf ← buf.store entry 8 strlen
  let buf ← buf.store (entry + 12) 1 type.toNat
  let fb ← init
  let buf ← match fb with
    | some fb => buf.store (entry + 8) 4 fb
    | none => pure buf
  let buf ← buf.store 40 8 (u64 (metaStrbase buf.bytes + entrySize))
  let base := metaSize + metaStrbase buf.bytes
  let buf ← buf.copyIn base pdata (metaSize + strbase) strlen
  let buf ← buf.copyIn (base + strlen) (strBytes name) 0 (name.length + 1)
  let buf ← buf.store 48 8 (u64 (metaStrlen buf.bytes + name.length + 1))
  let buf ← buf.store 8 8 newsize
  let buf ← buf.store 56 4 (u32 (u64 (newsize + BYTSPERSEC - 1) / BYTSPERSEC))
  return (buf, fb)

def cMkdir (path : CStr) (uid : UInt32) : CM Int :=
  match getFilenameFromPath path with
  | none => return 1
  | some (path, dirname) => do
    match ← cLookup path with
    | .error ret => return ret
    | .ok parent =>
      if parent.type ≠ S_DIR then return 2
      else
        let pmeta ← readSector parent.fb
        if permissionCheck uid pmeta W = 0 then return 4
        else
          match ← malloc .table (u32 (metaBlocks pmeta * BYTSPERSEC)) with
          | none => return -9
          | some pdata =>
            let pdata ← doReadfile parent.fb pdata
            match ← findEntryByName pdata.bytes dirname with
            | some _ => return 3
            | none =>
              let newsize := u64 (metaFlen pmeta + dirname.length + 1 + entrySize)
              match ← malloc .image newsize with
              | none => return -9
              | some buf =>
                let buf : Buf :=
                  { buf with bytes := fun i => if i < newsize then 0 else buf.bytes i }
                let (buf, _) ← spliceEntry pdata.bytes pmeta buf newsize dirname S_DIR
                  (initdir uid (some parent.fb))
                let buf ← buf.store 4 4 (u32 (metaCount buf.bytes + 1))
                doWritefile parent.fb buf.bytes newsize
                return 0

def cOpen (path : CStr) (oflags mode : UInt8) (uid : UInt32) : CM Int :=
  match getFilenameFromPath path with
  | none => return -1
  | some (path, filename) => do
    match ← cLookup path with
    | .error _ => return -1
    | .ok parent =>
      if parent.type ≠ S_DIR then return -1
      else
        let pmeta ← readSector parent.fb
        let wcheck := permissionCheck uid pmeta W
        let rcheck := permissionCheck uid pmeta R
        if ¬ ((wcheck ≠ 0 ∧ oflags ||| SBP_O_WRONLY ≠ 0) ∨
              (rcheck ≠ 0 ∧ oflags ||| SBP_O_RDONLY ≠ 0) ∨
              (wcheck ≠ 0 ∧ rcheck ≠ 0 ∧ oflags ||| SBP_O_RDWR ≠ 0)) then return -4
        else
          match ← malloc .table (u32 (metaBlocks pmeta * BYTSPERSEC)) with
          | none => return -9
          | some pdata =>
            let pdata ← doReadfile parent.fb pdata
            match ← findEntryByName pdata.bytes filename with
            | none =>
              if oflags ||| SBP_O_CREAT ≠ 0 then
                let newsize := u64 (metaFlen pmeta + entrySize + filename.length + 1)
                match ← malloc .image newsize with
                | none => return -9
                | some buf =>
                  let (buf, _) ← spliceEntry pdata.bytes pmeta buf newsize filename S_FIL
                    (initfile uid mode)
                  doWritefile parent.fb buf.bytes newsize
                  return s32 (entryFb buf.bytes (metaSize + metaStrbase pmeta))
              else return -1
            | some ofile =>
              if entryType pdata.bytes (entryOff ofile) = S_DIR then return -2
              else return s32 (entryFb pdata.bytes (entryOff ofile))

/-- `entry` is a byte offset into `pdata`. The block moved is measured from the entry but
starts behind it, so its last bytes can come from behind the table. -/
def doRemoveEntry (pdata : Buf) (entry : Nat) : CM (Int × Buf) := do
  let now ← getNow
  let tmpsize := u64Sub (metaFlen pdata.bytes) entry
  match ← malloc .tail tmpsize with
  | none => return (-9, pdata)
  | some tmp =>
    let tmp ← tmp.copyIn 0 pdata.bytes (entry + entrySize) tmpsize
    let pdata ← pdata.copyIn entry tmp.bytes 0 tmpsize
    let pdata ← pdata.store 40 8 (u64Sub (metaStrbase pdata.bytes) entrySize)
    let pdata ← pdata.store 32 8 now
    let pdata ← pdata.store 8 8 (u64Sub (metaFlen pdata.bytes) entrySize)
    return (0, pdata)

/-- The end that `c_remove` and `c_rmdir` share: free the object's chain, take its entry
out of the table and write the table back. -/
def dropEntry (parent : Nat) (pdata : Buf) (entry : Nat) : CM Int := do
  let pdata ← pdata.store 4 4 (u32Sub (metaCount pdata.bytes) 1)
  resetFat (entryFb pdata.bytes entry)
  let (ret, pdata) ← doRemoveEntry pdata entry
  if ret ≠ 0 then return ret
  else
    doWritefile parent pdata.bytes (metaFlen pdata.bytes)
    return 0

def cRemove (path : CStr) (uid : UInt32) : CM Int :=
  match getFilenameFromPath path with
  | none => return 1
  | some (path, filename) => do
    match ← cLookup path with
    | .error ret => return ret
    | .ok parent =>
      if parent.type ≠ S_DIR then return 1
      else
        let pmeta ← readSector parent.fb
        if permissionCheck uid pmeta W = 0 then return 4
        else
          match ← malloc .table (u32 (metaBlocks pmeta * BYTSPERSEC)) with
          | none => return -9
          | some pdata =>
            let pdata ← doReadfile parent.fb pdata
            match ← findEntryByName pdata.bytes filename with
            | none => return 1
            | some entry =>
              if entryType pdata.bytes (entryOff entry) = S_DIR then return 2
              else
                let _ ← readSector (entryFb pdata.bytes (entryOff entry))
                dropEntry parent.fb pdata (entryOff entry)

def isDirEmpty (fmeta : Bytes) : Bool := !(metaStrbase fmeta > 2 * entrySize)

def cRmdir (path : CStr) (uid : UInt32) : CM Int :=
  match getFilenameFromPath path with
  | none => return 1
  | some (path, dirname) => do
    match ← cLookup path with
    | .error ret => return ret
    | .ok parent =>
      if parent.type ≠ S_DIR then return 1
      else
        let pmeta ← readSector parent.fb
        if permissionCheck uid pmeta W = 0 then return 4
        else
          match ← malloc .table (u32 (metaBlocks pmeta * BYTSPERSEC)) with
          | none => return -9
          | some pdata =>
            let pdata ← doReadfile parent.fb pdata
            match ← findEntryByName pdata.bytes dirname with
            | none => return 1
            | some rmdirent =>
              if entryType pdata.bytes (entryOff rmdirent) ≠ S_DIR then return 2
              else
                let fb := entryFb pdata.bytes (entryOff rmdirent)
                let fmeta ← readSector fb
                match ← malloc .image (u32 (metaBlocks fmeta * BYTSPERSEC)) with
                | none => return -9
                | some buf =>
                  let _ ← doReadfile fb buf
                  if !isDirEmpty fmeta then return 3
                  else dropEntry parent.fb pdata (entryOff rmdirent)

/-- The rename inside one directory. -/
def moveSame (parent : Nat) (spdata : Buf) (srcent : Nat) (dstname : CStr) : CM Int := do
  let now ← getNow
  let spdata ← spdata.store 32 8 now
  let spdata ← spdata.copyIn (metaStrlen spdata.bytes) (strBytes dstname) 0 (dstname.length + 1)
  let spdata ← spdata.store (entryOff srcent) 8 (metaStrlen spdata.bytes)
  let spdata ← spdata.store 48 8 (u64 (metaStrlen spdata.bytes + dstname.length + 1))
  let spdata ← spdata.store 8 8 (u64 (metaFlen spdata.bytes + dstname.length + 1))
  doWritefile parent spdata.bytes (metaFlen spdata.bytes)
  return 0

/-- The move from one directory to another. -/
def moveAcross (sparent dparent : Nat) (spdata dpdata : Buf) (srcent : Nat) (dstname : CStr) :
    CM Int := do
  let poolLen := metaStrlen dpdata.bytes
  match ← malloc .pool poolLen with
  | none => fault
  | some tmp =>
    let tmp ← tmp.copyIn 0 dpdata.bytes (metaSize + metaStrbase dpdata.bytes) poolLen
    let dpdata ← dpdata.copyIn (metaSize + metaStrbase dpdata.bytes) spdata.bytes
      (entryOff srcent) entrySize
    let dpdata ← dpdata.store 40 8 (u64 (metaStrbase dpdata.bytes + entrySize))
    let dpdata ← dpdata.copyIn (metaSize + metaStrbase dpdata.bytes) tmp.bytes 0
      (metaStrlen dpdata.bytes)
    let dpdata ← dpdata.copyIn (metaSize + metaStrbase dpdata.bytes + metaStrlen dpdata.bytes)
      (strBytes dstname) 0 (dstname.length + 1)
    let dpdata ← dpdata.store 48 8 (u64 (metaStrlen dpdata.bytes + dstname.length + 1))
    let (_, spdata) ← doRemoveEntry spdata (entryOff srcent)
    if entryType spdata.bytes (entryOff srcent) = S_DIR then
      let dpdata ← dpdata.store 4 4 (u32 (metaCount dpdata.bytes + 1))
      let spdata ← spdata.store 4 4 (u32Sub (metaCount spdata.bytes) 1)
      doWritefile sparent spdata.bytes (metaFlen spdata.bytes)
      doWritefile dparent dpdata.bytes (metaFlen dpdata.bytes)
      return 0
    else
      doWritefile sparent spdata.bytes (metaFlen spdata.bytes)
      doWritefile dparent dpdata.bytes (metaFlen dpdata.bytes)
      return 0

def cMove (srcpath dstpath : CStr) (uid : UInt32) : CM Int :=
  match getFilenameFromPath srcpath with
  | none => return 1
  | some (srcpath, srcname) =>
    match getFilenameFromPath dstpath with
    | none => return 1
    | some (dstpath, dstname) => do
      match ← cLookup srcpath with
      | .error ret => return ret
      | .ok sparent =>
        if sparent.type ≠ S_DIR then return 1
        else
          match ← cLookup dstpath with
          | .error ret => return ret
          | .ok dparent =>
            if dparent.type ≠ S_DIR then return 1
            else
              let spmeta ← readSector sparent.fb
              let dpmeta ← readSector dparent.fb
              if permissionCheck uid spmeta W = 0 ∨ permissionCheck uid dpmeta W = 0 then return 4
              else
                match ← malloc .table (u32 (u32 (metaBlocks spmeta + 1) * BYTSPERSEC)) with
                | none => return -9
                | some spdata =>
                  let spdata ← doReadfile sparent.fb spdata
                  match ← findEntryByName spdata.bytes srcname with
                  | none => return 1
                  | some srcent =>
                    match ← malloc .dstTable (u32 (u32 (metaBlocks dpmeta + 1) * BYTSPERSEC)) with
                    | none => return -9
                    | some dpdata =>
                      let dpdata ← doReadfile dparent.fb dpdata
                      match ← findEntryByName dpdata.bytes dstname with
                      | some _ => return 2
                      | none =>
                        let _ ← readSector (entryFb spdata.bytes (entryOff srcent))
                        if sparent.fb = dparent.fb then
                          moveSame sparent.fb spdata srcent dstname
                        else moveAcross sparent.fb dparent.fb spdata dpdata srcent dstname

def cChown (path : CStr) (newuid uid : UInt32) : CM Int := do
  match ← cLookup path with
  | .error ret => return ret
  | .ok entry =>
    let fmeta ← readSector entry.fb
    let olduid := metaUid fmeta
    if ¬ ownCheck uid olduid then return 4
    else if olduid = newuid.toNat then return 0
    else if uid ≠ 0 then return 4
    else
      writeSector entry.fb (putLE fmeta 0 4 newuid.toNat) 0 metaSize
      return 0

def cChmod (path : CStr) (mode : UInt8) (uid : UInt32) : CM Int := do
  match ← cLookup path with
  | .error ret => return ret
  | .ok entry =>
    let fmeta ← readSector entry.fb
    if ¬ ownCheck uid (metaUid fmeta) then return 4
    else
      let flags := (metaFlags fmeta &&& ~~~S_ALL) ||| mode
      writeSector entry.fb (putLE fmeta 60 1 flags.toNat) 0 metaSize
      return 0

end Sbpfs.Cfs.Namespace
