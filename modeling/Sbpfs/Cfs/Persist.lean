import Sbpfs.Cfs.Data

/-!
# Saving the image and mounting it again

`save_disk` writes the one buffer of the image over the old file, `open_disk` reads a
file into a buffer that is doubled whenever it is full, and formats a new disk where
there is nothing to read.
-/
namespace Sbpfs.Cfs.Persist

open Sbpfs.Lib.Program Sbpfs.Lib.Memory
open Sbpfs.Cfs.Layout Sbpfs.Cfs.File

/-- A file of the host: its length and its bytes. -/
structure Saved where
  size : Nat
  bytes : Bytes

/-- `sb_t` in its sector; the name in front of the fields is never read. -/
def sbBytes (sb : Sb) : Bytes :=
  putLE (putLE (putLE (putLE (putLE (fun _ => 0) 16 4 BYTSPERSEC) 20 4 sb.totSecNum)
    24 4 sb.fatSecNum) 28 4 sb.fatNum) 32 8 sb.maxBlockNum

/-- `dt->dt_buf`. -/
def dtBuf (dt : Dtree) : Bytes := fun i =>
  if i < BYTSPERSEC then sbBytes dt.sb i
  else if i < BYTSPERSEC + dt.sb.fatSecNum * BYTSPERSEC then
    leByte (dt.fat ((i - BYTSPERSEC) / 4)) ((i - BYTSPERSEC) % 4)
  else
    let j := i - BYTSPERSEC - dt.sb.fatSecNum * BYTSPERSEC
    dt.data (j / BYTSPERSEC) (j % BYTSPERSEC)

/-- `save_file`: `none` when the file cannot be opened, else what `write` returns. The file
is not truncated. -/
def saveFile (buf : Bytes) (size : Nat) (old : Saved) : Option Nat → Saved × Int
  | none => (old, -1)
  | some ret =>
    (⟨max old.size ret, blit old.bytes 0 buf 0 ret⟩, if ret = size then 0 else -1)

/-- `save_disk`; `inode` is the outcome for the buffer that is only carried along. -/
def saveDisk (dt : Dtree) (old : Saved) (ret : Option Nat) (inode : Bool) : Saved × Int :=
  let (file, r) := saveFile (dtBuf dt) dt.dtSize old ret
  if r < 0 then (file, -1)
  else if inode then (file, 0) else (file, -1)

/-- The loop of `load_file`. A doubling to nothing frees the buffer, which is then freed
once more. -/
def loadLoop (file : Saved) : Nat → Nat → Nat → CM (Option Nat)
  | 0, _, _ => hang
  | n + 1, size, max =>
    let ret := min (file.size - size) (max - size)
    if ret = 0 then return some size
    else if size + ret = max then
      if u32 (max * 2) = 0 then fault
      else do
        match ← malloc .load (u32 (max * 2)) with
        | none => return none
        | some _ => loadLoop file n (size + ret) (u32 (max * 2))
    else loadLoop file n (size + ret) max

/-- `load_file`: the size read, `none` for NULL. -/
def loadFile (file : Saved) : CM (Option Nat) := do
  match ← malloc .load INIT_MAX with
  | none => return none
  | some _ => loadLoop file (← get).env.fuel 0 INIT_MAX

/-- The structure behind the pointers into a buffer of `size` bytes. -/
def mounted (b : Bytes) (size : Nat) : Dtree where
  sb := ⟨getLE b 20 4, getLE b 24 4, getLE b 28 4, getLE b 32 8⟩
  fat := fun i =>
    if i < getLE b 24 4 * BYTSPERSEC / 4 then getLE b (BYTSPERSEC + 4 * i) 4 else FREESEC
  data := fun k j => b (BYTSPERSEC + getLE b 24 4 * BYTSPERSEC + k * BYTSPERSEC + j)
  dtSize := size

/-- `open_disk` in a new process, `false` for NULL. -/
def openDisk (file : Option Saved) : CM Bool := do
  match ← malloc .mount 72 with
  | none => return false
  | some _ =>
    let size ← match file with
      | none => pure none
      | some file => loadFile file
    match file, size with
    | some file, some size => do
      match ← malloc .inode INIT_MAX with
      | none => return false
      | some _ =>
        modifyDt fun _ => mounted file.bytes size
        return true
    | _, _ => do
      match ← malloc .load INIT_MAX with
      | none => return false
      | some buf =>
        match ← malloc .inode INIT_MAX with
        | none => return false
        | some _ =>
          modifyDt fun _ => mounted buf.bytes INIT_MAX
          doMkcfs
          return true

end Sbpfs.Cfs.Persist
