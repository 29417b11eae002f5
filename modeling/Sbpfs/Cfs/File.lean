import Sbpfs.Cfs.Fat

/-! Reading and writing the sector chain of an object, and making new objects. -/
namespace Sbpfs.Cfs.File

open Sbpfs.Lib.Program Sbpfs.Lib.Memory Sbpfs.Cfs.Layout Sbpfs.Cfs.Fat

def doReadfileLoop : Nat → Nat → Nat → Buf → CM Buf
  | 0, _, _, _ => hang
  | n + 1, fatNum, i, data =>
    if fatNum = ENDSEC then return data
    else do
      let sec ← readSector fatNum
      let data ← data.copyIn (u32 (i * BYTSPERSEC)) sec 0 BYTSPERSEC
      let next ← readFat fatNum
      doReadfileLoop n next (u32 (i + 1)) data

def doReadfile (fb : Nat) (data : Buf) : CM Buf := do
  doReadfileLoop (← get).env.fuel fb 0 data

/-- The `for` that `do_writefile`, `initfile` and `initdir` share, with `n` of the sectors
still to be written: sector `i` of the image goes to `fatIndex`. -/
def writeChain (image : Bytes) : Nat → Nat → Nat → Nat → CM Unit
  | 0, _, _, _ => return ()
  | n + 1, i, fatIndex, size => do
    let len := if size < BYTSPERSEC then size else BYTSPERSEC
    writeSector fatIndex image (i * BYTSPERSEC) len
    writeFat fatIndex ENDSEC
    if n = 0 then return ()
    else do
      let next ← findFreeSlot fatIndex
      writeFat fatIndex next
      writeChain image n (i + 1) next (u64Sub size BYTSPERSEC)

def doWritefile (fb : Nat) (data : Bytes) (size : Nat) : CM Unit := do
  resetFat fb
  writeChain data (metaBlocks data) 0 fb size

/-- A zeroed `file_meta_t` with the fields that `initfile` and `initdir` assign. -/
def newMeta (uid now count flen strbase strlen blocks : Nat) (flags : UInt8) : Bytes :=
  let m : Bytes := fun _ => 0
  let m := putLE m 0 4 uid
  let m := putLE m 4 4 count
  let m := putLE m 8 8 flen
  let m := putLE m 16 8 now
  let m := putLE m 24 8 now
  let m := putLE m 32 8 now
  let m := putLE m 40 8 strbase
  let m := putLE m 48 8 strlen
  let m := putLE m 56 4 blocks
  putLE m 60 1 flags.toNat

/-- The assignments to one `file_entry_t`. -/
def putEntry (b : Bytes) (off name fb : Nat) (type : UInt8) : Bytes :=
  putLE (putLE (putLE b off 8 name) (off + 8) 4 fb) (off + 12) 1 type.toNat

/-- Makes an empty file; the value is the `fb` stored in its entry, `none` on -9. -/
def initfile (uid : UInt32) (mode : UInt8) : CM (Option Nat) := do
  match ← malloc .initfile metaSize with
  | none => return none
  | some _ =>
    let fatIndex ← findFreeSlot 0
    let now ← getNow
    let image := newMeta uid.toNat now 1 0 0 0 1 mode
    writeChain image 1 0 fatIndex metaSize
    return some fatIndex

/-- The name pool of a new directory, `".\0..\0"`. -/
def dotPool : List UInt8 := [0x2e, 0, 0x2e, 0x2e, 0]

def initdirSize : Nat := metaSize + 2 * entrySize + 5

def initdirImage (uid now fb parent : Nat) : Bytes :=
  let m := newMeta uid now 3 initdirSize (2 * entrySize) 5 1 INITMODE
  let m := blit m (entryOff 2) (fun i => (dotPool[i]?).getD 0) 0 5
  let m := putEntry m (entryOff 0) 0 fb S_DIR
  putEntry m (entryOff 1) 2 parent S_DIR

/-- Makes a directory below `parent`, or its own parent when `parent` is the new entry
itself (`none`); the value is the `fb` stored in its entry, `none` on -9. -/
def initdir (uid : UInt32) (parent : Option Nat) : CM (Option Nat) := do
  match ← malloc .initdir initdirSize with
  | none => return none
  | some _ =>
    let fatIndex ← findFreeSlot 0
    let now ← getNow
    let image := initdirImage uid.toNat now fatIndex (parent.getD fatIndex)
    writeChain image 1 0 fatIndex initdirSize
    return some fatIndex

/-- `do_mkcfs` on the buffer `open_disk` has just allocated. -/
def doMkcfs : CM Unit := do
  let totSecNum := INIT_MAX / BYTSPERSEC
  let fatSize := totSecNum * 4
  let fatSecNum := (fatSize + BYTSPERSEC - 1) / BYTSPERSEC
  modifyDt fun dt => { dt with
    sb := ⟨totSecNum, fatSecNum, (INIT_MAX - fatSize - BYTSPERSEC) / BYTSPERSEC, 0⟩
    fat := fun i => if i = 0 then ENDSEC else FREESEC
    dtSize := INIT_MAX }
  let fb ← initdir 0 none
  writeSector 0 (putEntry (fun _ => 0) 0 0 (fb.getD 0) S_DIR) 0 entrySize

end Sbpfs.Cfs.File
