import Sbpfs.Cfs.Layout

/-! The FAT of the disk image: freeing a chain, finding a free slot, growing the image. -/
namespace Sbpfs.Cfs.Fat

open Sbpfs.Lib.Program Sbpfs.Lib.Memory Sbpfs.Cfs.Layout

/-- The `while` of `reset_fat`, entered with `fat_num`. -/
def resetFatLoop : Nat → Nat → CM Unit
  | 0, _ => hang
  | n + 1, fatNum =>
    if fatNum = ENDSEC then return ()
    else do
      let next ← readFat fatNum
      writeFat fatNum FREESEC
      resetFatLoop n next

def resetFat (fb : Nat) : CM Unit := do
  resetFatLoop (← get).env.fuel fb

def nextFreeFatFrom (fat : Nat → Nat) : Nat → Nat → Option Nat
  | 0, _ => none
  | n + 1, i => if fat i = FREESEC then some i else nextFreeFatFrom fat n (i + 1)

/-- `none` is the source's `-1`. -/
def nextFreeFat (base : Nat) (fat : Nat → Nat) (fatNum : Nat) : Option Nat :=
  nextFreeFatFrom fat (fatNum - base) base

/-- The grown image: the old FAT sectors, zeroed new ones, the old data bytes, and
whatever the new block held behind them. -/
def grownImage (dt : Dtree) (newsize fatSize fatSecNum totSecNum : Nat) (junk : Bytes) : Dtree :=
  let oldLen := dt.dtSize - BYTSPERSEC - dt.sb.fatSecNum * BYTSPERSEC
  { sb := { dt.sb with
      totSecNum := totSecNum
      fatSecNum := fatSecNum
      fatNum := u32 (u64Sub (u64Sub newsize fatSize) BYTSPERSEC / BYTSPERSEC) }
    fat := fun i => if i < dt.slots then dt.fat i else FREESEC
    data := fun k =>
      if (k + 1) * BYTSPERSEC ≤ oldLen then dt.data k
      else fun j =>
        if k * BYTSPERSEC + j < oldLen then dt.data k j
        else junk (BYTSPERSEC + fatSecNum * BYTSPERSEC + k * BYTSPERSEC + j)
    dtSize := u32 newsize }

def extend (newsize : Nat) : CM Int := do
  let dt ← getDt
  let totSecNum := u32 (newsize / BYTSPERSEC)
  let fatSize := u32 (totSecNum * 4)
  let fatSecNum := u32 (fatSize + BYTSPERSEC - 1) / BYTSPERSEC
  if dt.dtSize ≥ newsize then return 1
  else
    match ← malloc .extend newsize with
    | none => return -9
    | some buf =>
      modifyDt fun dt => grownImage dt newsize fatSize fatSecNum totSecNum buf.bytes
      return 0

/-- The `do { next_free_fat .. extend .. } while (1)` of the three writers. -/
def findSlot (base : Nat) : Nat → CM Nat
  | 0 => hang
  | n + 1 => do
    let dt ← getDt
    match nextFreeFat base dt.fat dt.sb.fatNum with
    | some next => return next
    | none =>
      let _ ← extend (u32 (dt.dtSize * 2))
      findSlot base n

def findFreeSlot (base : Nat) : CM Nat := do
  findSlot base (← get).env.fuel

end Sbpfs.Cfs.Fat
