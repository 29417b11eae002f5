import Sbpfs.Lib.Memory
import Sbpfs.Libc.Request

/-!
# The blocks of a data node

A block is a file whose path is made of the block's number. The numbers of all blocks are kept
twice, in the rows of `blocklist` and in the records of a file. Reading and writing an open file
and seeking in it go through; whether a file is opened is chosen for every call.
-/
namespace Sbpfs.Dnode.Blockman

open Sbpfs.Lib.Program Sbpfs.Lib.Memory
open Sbpfs.Wire.Head Sbpfs.Wire.Number Sbpfs.Libc.Request

@[simp] abbrev MAX_BLOCKSIZE : Nat := 6400
@[simp] abbrev BLOCKNAME : Nat := 64
@[simp] abbrev FILEMAXSIZE : Nat := 1024 * 1024 * 16

def ROOTPATH : Str := ascii "/home/hhf/blocks/"
def BLOCKLISTPATH : Str := ascii "/home/hhf/blocklist"

structure File where
  size : Nat
  bytes : Bytes

/-- What the process finds. `slack` bytes behind a small array of a function belong to nothing
else, `stray` is what memory holds that was not assigned. The coming calls of `fopen`, `malloc`
and `send` succeed or not. -/
structure Env where
  slack : Nat
  stray : Bytes
  opens : Nat → Bool
  mallocs : Nat → Bool
  sends : Nat → Bool

structure DNode where
  files : Str → Option File
  blocklist : Bytes
  blolist : Nat → UInt64
  bnum : UInt64
  env : Env

abbrev DM (α : Type) := Prog DNode α

/-! ## Files -/

def setFile (path : Str) (f : File) : DM Unit :=
  modify fun d => { d with files := Function.update d.files path (some f) }

/-- The outcome of the next `fopen`. -/
def nextOpen : DM Bool := do
  let d ← get
  set { d with env := { d.env with opens := fun k => d.env.opens (k + 1) } }
  return d.env.opens 0

/-- `fopen` with the mode `rb` or `rb+`, `none` for NULL. -/
def fopen (path : Str) : DM (Option File) := do
  let ok ← nextOpen
  let d ← get
  return if ok then d.files path else none

/-- `fopen` with the mode `wb` or `wb+`. -/
def fopenNew (path : Str) : DM Bool := do
  if ← nextOpen then
    setFile path ⟨0, fun _ => 0⟩
    return true
  else return false

/-- How many of `length` bytes at `offset` a `fread` gets. -/
def File.avail (f : File) (offset length : Nat) : Nat := min length (f.size - offset)

/-- `fwrite` of `n` bytes at `offset`; what is skipped behind the end is filled with zeros. -/
def File.splice (f : File) (offset n : Nat) (data : Bytes) : File :=
  if n = 0 then f
  else ⟨max f.size (offset + n),
    blit (fun i => if i < f.size then f.bytes i else 0) offset data 0 n⟩

/-- The bytes of `s`, and `rest` behind them. -/
def memOf (s : Str) (rest : Bytes) : Bytes := fun i => (s[i]?).getD (rest i)

/-- `sprintf` into an array of `size` bytes. -/
def sprintf (size : Nat) (text : Str) : DM Str := do
  let d ← get
  if text.length + 1 ≤ size + d.env.slack then return text else fault

/-! ## Paths -/

/-- The texts for both formats, `%d` and `%lld`. -/
def flagnum (blocknum : UInt64) : Str := decimal 0 ((blocknum % 100).toNat : Int)
def numText (blocknum : UInt64) : Str := decimal 0 (s64 blocknum.toNat)

/-- `path` as `getpath` leaves it. -/
def pathOf (blocknum : UInt64) : Str := ROOTPATH ++ flagnum blocknum ++ [0x2f] ++ numText blocknum

/-- The array `p` has room for one character. -/
def getpath (blocknum : UInt64) : DM Str := do
  let p ← sprintf 2 (flagnum blocknum)
  let q ← sprintf 2 (numText blocknum)
  return ROOTPATH ++ p ++ [0x2f] ++ q

/-- The directory is made if it is not there. -/
def blockdir (blocknum : UInt64) : DM Unit := do
  let _ ← sprintf 2 (flagnum blocknum)
  return ()

/-! ## The list of blocks -/

/-- The C string at `off` if it ends within `n` bytes. -/
def textFrom (b : Bytes) : Nat → Nat → Option Str
  | 0, _ => none
  | n + 1, off => if b off = 0 then some [] else (textFrom b n (off + 1)).map (b off :: ·)

/-- The C string in row `i` of `blocklist`, which has `BLOCKNAME` rows of `MAX_BLOCKSIZE` bytes. -/
def row (b : Bytes) (i : Nat) : DM Str :=
  match textFrom b (BLOCKNAME * MAX_BLOCKSIZE - i * MAX_BLOCKSIZE) (i * MAX_BLOCKSIZE) with
  | some text => return text
  | none => fault

/-- `strcpy` into row `i`. -/
def setRow (i : Nat) (s : Str) : DM Unit :=
  if i * MAX_BLOCKSIZE + s.length + 1 ≤ BLOCKNAME * MAX_BLOCKSIZE then
    modify fun d => { d with
      blocklist := blit d.blocklist (i * MAX_BLOCKSIZE) (memOf s fun _ => 0) 0 (s.length + 1) }
  else fault

/-- The end of `addlist` and `deletelist`: the count goes to the front of the list file and 64
bytes to record `i`, `none` for bytes outside of `blocklist`. A NULL from `fopen` is not noticed. -/
def storeList (i : Int) (name : Option Bytes) : DM Int := do
  match ← fopen BLOCKLISTPATH with
  | none => fault
  | some blist =>
    let d ← get
    let numc ← sprintf 4 (decimal 0 (s64 d.bnum.toNat))
    let blist := blist.splice 0 4 (memOf (numc ++ [0]) d.env.stray)
    setFile BLOCKLISTPATH blist
    if i * BLOCKNAME < -2 ^ 31 then fault
    else if i < 0 then return -1
    else
      match name with
      | none => fault
      | some name =>
        setFile BLOCKLISTPATH (blist.splice (i.toNat * BLOCKNAME) BLOCKNAME name)
        return 0

/-- The record is written from the array `p`, whatever lies behind it. -/
def addlist (blocknum : UInt64) : DM Int := do
  let p ← sprintf 2 (numText blocknum)
  let d ← get
  setRow d.bnum.toNat p
  modify fun d => { d with bnum := d.bnum + 1 }
  let d ← get
  storeList d.bnum.toNat (some (memOf (p ++ [0]) d.env.stray))

/-- The loop of `deletelist` at `i`; `delnum` is the last row that held `p`. -/
def deleteRows (p : Str) : Nat → Nat → Int → DM Int
  | 0, _, _ => hang
  | n + 1, i, delnum => do
    let d ← get
    if i < d.bnum.toNat then
      if (← row d.blocklist i) = p then
        setRow i (← row d.blocklist (d.bnum.toNat - 1))
        set { (← get) with bnum := d.bnum - 1 }
        deleteRows p n (i + 1) i
      else deleteRows p n (i + 1) delnum
    else return delnum

/-- `delnum` is not assigned before the loop. -/
def deletelist (blocknum : UInt64) : DM Int := do
  let p ← sprintf 2 (numText blocknum)
  let d ← get
  let delnum ← deleteRows p (d.bnum.toNat + 1) 0 (Cfs.Layout.s32 (getLE d.env.stray 0 4))
  let d ← get
  storeList (delnum + 1)
    (if 0 ≤ delnum ∧ delnum.toNat * MAX_BLOCKSIZE + BLOCKNAME ≤ BLOCKNAME * MAX_BLOCKSIZE then
      some fun k => d.blocklist (delnum.toNat * MAX_BLOCKSIZE + k)
    else none)

/-- An array of `n` bytes after an `fread` into it; behind the end of the file it stays as it is. -/
def freadText (f : File) (offset n : Nat) (array : Bytes) : Str :=
  (List.range n).map fun k => if offset + k < f.size then f.bytes (offset + k) else array k

/-- The loop of `getlist` at `i`; `temp` is what the round before has left. -/
def listRows (blist : File) : Nat → Nat → Bytes → DM Unit
  | 0, _, _ => hang
  | n + 1, i, temp => do
    let d ← get
    if i < d.bnum.toNat then
      let text := freadText blist ((i + 1) * BLOCKNAME) BLOCKNAME temp
      if 0 ∉ text ∨ MAX_BLOCKSIZE ≤ i then fault
      else
        let name := text.takeWhile (· ≠ 0)
        setRow i name
        modify fun d => { d with
          blolist := Function.update d.blolist i (UInt64.ofNat (Cfs.Layout.u64OfInt (atoll name))) }
        listRows blist n (i + 1) (memOf text temp)
    else return ()

/-- The count is read from an array of four bytes. -/
def getlist : DM UInt64 := do
  match ← fopen BLOCKLISTPATH with
  | none => fault
  | some blist =>
    let d ← get
    let numc := freadText blist 0 4 d.env.stray
    if 0 ∉ numc then fault
    else
      modify fun d => { d with
        bnum := UInt64.ofNat
          (Cfs.Layout.u64OfInt (Cfs.Layout.s32 (Cfs.Layout.u64OfInt (atoll numc)))) }
      let d ← get
      listRows blist (d.bnum.toNat + 1) 0 d.env.stray
      return d.bnum

def initlist : DM Unit := do
  let d ← get
  if (d.files BLOCKLISTPATH).isSome then
    let _ ← getlist
    return ()
  else if ← fopenNew BLOCKLISTPATH then
    setFile BLOCKLISTPATH ⟨6401 * 64, fun _ => 0⟩
  else fault

/-! ## Blocks -/

/-- The bytes of `databuf` that the block does not reach stay as they are. -/
def readblock (blocknum : UInt64) (offset length : UInt32) (databuf : Bytes) :
    DM (Int × Bytes) := do
  let path ← getpath blocknum
  match ← fopen path with
  | none => return (-1, databuf)
  | some block =>
    return (0, blit databuf 0 block.bytes offset.toNat (block.avail offset.toNat length.toNat))

/-- A file of zeros; a NULL from `fopen` is not noticed. -/
def createblock (blocknum : UInt64) : DM Int := do
  blockdir blocknum
  let path ← getpath blocknum
  if ← fopenNew path then
    setFile path ⟨FILEMAXSIZE, fun _ => 0⟩
    let _ ← addlist blocknum
    return 0
  else fault

/-- The write to an open block of the first `length` bytes of the memory `data`. -/
def storeBlock (path : Str) (block : File) (offset length : UInt32) (data : Str) : DM Int :=
  if length.toNat ≤ data.length then do
    setFile path (block.splice offset.toNat length.toNat (memOf data fun _ => 0))
    return 0
  else fault

def writeblock (blocknum : UInt64) (offset length : UInt32) (data : Str) : DM Int := do
  let path ← getpath blocknum
  match ← fopen path with
  | some block => storeBlock path block offset length data
  | none =>
    let _ ← createblock blocknum
    match ← fopen path with
    | some block => storeBlock path block offset length data
    | none => return -1

def deleteblock (blocknum : UInt64) : DM Int := do
  let path ← getpath blocknum
  if (← fopen path).isSome then
    modify fun d => { d with files := Function.update d.files path none }
  let _ ← deletelist blocknum
  return 0

end Sbpfs.Dnode.Blockman
