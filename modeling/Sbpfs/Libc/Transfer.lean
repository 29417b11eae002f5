import Sbpfs.Lib.Pack
import Sbpfs.Libc.Recv
import Sbpfs.Libc.Table

/-!
# Reading and writing files

`sbp_read`, `sbp_write` and `sbp_seek`. The control node answers a request with the blocks that a
range lies in; then the data nodes of each block are asked one after another, all of them for a
write, the first one that answers for a read. How messages get to the other parties and back is
a parameter.
-/
namespace Sbpfs.Libc.Transfer

open Sbpfs.Lib.Program Sbpfs.Lib.Pack
open Sbpfs.Cfs.Layout (s32 u64OfInt)
open Sbpfs.Wire.Head Sbpfs.Wire.Number Sbpfs.Libc.Request Sbpfs.Libc.Recv Sbpfs.Libc.Table

@[simp] abbrev REDUNDANCY : Nat := 2

/-- `struct block_entry`. -/
structure BlockEntry where
  blockId : UInt64
  offsetInBlock : UInt32
  lengthInBlock : UInt32
  dNodes : Fin (REDUNDANCY + 1) → UInt32
  deriving DecidableEq

/-- `sizeof(struct block_entry)`. -/
@[simp] abbrev entrySize : Nat := 32

/-- Entry `i` of the data of a reply. -/
def blockEntryAt (data : Str) (i : Nat) : BlockEntry :=
  let d := slice data (entrySize * i) entrySize
  ⟨.ofNat (ofLE (slice d 0 8)), .ofNat (ofLE (slice d 8 4)), .ofNat (ofLE (slice d 12 4)),
    fun j => .ofNat (ofLE (slice d (16 + 4 * j) 4))⟩

/-- A message: the title and the entries of its head, and the data behind it. -/
structure Answer where
  title : Str
  entrys : List HeadEntry
  data : Str
  deriving DecidableEq, Repr

def Answer.saysOk (a : Answer) : Bool := titleSaysOk a.title
def Answer.saysErr (a : Answer) : Bool := titleSaysErr a.title

/-- The other parties. `control` is a request to the control node. A request to a data node is
made in two steps: `connect` up to the head being sent, and `transfer` from there on, with the
entries of the head and the data. Whatever goes wrong before an answer is decoded is `none`. -/
structure Link (σ : Type) where
  control : (method : String) → (args : List Str) → Prog σ (Option Answer)
  connect : UInt32 → Prog σ Bool
  transfer : UInt32 → List HeadEntry → Str → Prog σ (Option Answer)

variable {σ : Type}

/-- A computation without a state. -/
def check {α : Type} (r : Except Stop α) : Prog σ α := fun s =>
  match r with
  | .ok a => .ok (a, s)
  | .error e => .error e

/-! ## One block -/

/-- The entries of a request to a data node. -/
def blockEntrys (l : Login) (authCode : Str) (method : String) (ent : BlockEntry)
    (contentLen : Str) : Except Stop (List HeadEntry) := do
  let usr ← prepareRequest l
  return usr ++ [⟨AUTH_CODE, authCode⟩, ⟨METHOD, ascii method⟩, ⟨ARGC, ascii "3"⟩] ++
    argEntries [decimal 0 (s64 ent.blockId.toNat), decimal 0 (s32 ent.offsetInBlock.toNat),
      decimal 0 (s32 ent.lengthInBlock.toNat)] ++ [⟨CONTENT_LEN, contentLen⟩]

section Blocks

variable (net : Link σ) (l : Login) (authCode : Str)

/-- What `write_block` makes of the answer; a title that is neither of the two gives 0. -/
def writeReply (ent : BlockEntry) : Option Answer → Int
  | none => -1
  | some a => if a.saysOk then ent.lengthInBlock.toNat else if a.saysErr then -1 else 0

/-- `write_block` with the data at `ptr` of `buf`. `sbp_send` takes a `send` of no bytes for an
error. -/
def writeBlock (buf : Str) (ent : BlockEntry) (j : Fin (REDUNDANCY + 1)) (ptr : Nat) :
    Prog σ Int := do
  let length := ent.lengthInBlock.toNat
  let entrys ← check (blockEntrys l authCode "WRITE" ent (decimal 0 (s32 length)))
  if ← net.connect (ent.dNodes j) then
    let data := slice buf ptr length
    if data.length = length then
      let a ← net.transfer (ent.dNodes j) entrys data
      return if length = 0 then -1 else writeReply ent a
    else fault
  else return -1

/-- What `read_block` makes of the answer, and the bytes it copies. -/
def readReply (ent : BlockEntry) : Option Answer → Except Stop (Int × Str)
  | none => .ok (-1, [])
  | some a =>
    if a.saysOk then
      match valueOf a.entrys CONTENT_LEN with
      | none => .ok (-1, [])
      | some value =>
        let contentL := u64OfInt (atoll value)
        if contentL ≠ ent.lengthInBlock.toNat then .ok (-1, [])
        else if contentL ≤ a.data.length then .ok (contentL, a.data.take contentL)
        else .error .fault
    else if a.saysErr then .ok (-1, [])
    else .ok (0, [])

/-- `read_block` into `buf` at `ptr`. -/
def readBlock (ent : BlockEntry) (j : Fin (REDUNDANCY + 1)) (ptr : Nat) (buf : Str) :
    Prog σ (Int × Str) := do
  let entrys ← check (blockEntrys l authCode "READ" ent (ascii "0"))
  if ← net.connect (ent.dNodes j) then
    let a ← net.transfer (ent.dNodes j) entrys []
    let (ret, data) ← check (readReply ent a)
    if data.length ≤ buf.length - ptr then return (ret, overwrite buf ptr data) else fault
  else return (-1, buf)

end Blocks

/-! ## Lists of blocks -/

/-- The inner loop of `write_blocks`: `k` requests succeeded of the `l` to nodes whose address is
not 0. -/
def writeReplicas (write : Fin (REDUNDANCY + 1) → Prog σ Int) (ent : BlockEntry) :
    List (Fin (REDUNDANCY + 1)) → (k l : Nat) → Prog σ (Nat × Nat)
  | [], k, l => return (k, l)
  | j :: js, k, l =>
    if ent.dNodes j ≠ 0 then do
      let recLen ← write j
      writeReplicas write ent js (if recLen ≥ ent.lengthInBlock.toNat then k + 1 else k) (l + 1)
    else writeReplicas write ent js k l

/-- `write_blocks` with `buf_ptr` behind the blocks that are done. -/
def writeBlocks (write : BlockEntry → Fin (REDUNDANCY + 1) → Nat → Prog σ Int) :
    List BlockEntry → (bufPtr : Nat) → Prog σ Int
  | [], bufPtr => return bufPtr
  | ent :: ents, bufPtr => do
    let (k, l) ← writeReplicas (fun j => write ent j bufPtr) ent
      (List.finRange (REDUNDANCY + 1)) 0 0
    if k = l then writeBlocks write ents (bufPtr + ent.lengthInBlock.toNat) else return -1

/-- The inner loop of `read_blocks`, which ends with the first node that delivers the block. -/
def readReplicas (read : Fin (REDUNDANCY + 1) → Str → Prog σ (Int × Str)) (ent : BlockEntry) :
    List (Fin (REDUNDANCY + 1)) → Str → Prog σ (Bool × Str)
  | [], buf => return (false, buf)
  | j :: js, buf =>
    if ent.dNodes j ≠ 0 then do
      let (recLen, buf) ← read j buf
      if recLen ≥ ent.lengthInBlock.toNat then return (true, buf) else readReplicas read ent js buf
    else readReplicas read ent js buf

def readBlocks (read : BlockEntry → Fin (REDUNDANCY + 1) → Nat → Str → Prog σ (Int × Str)) :
    List BlockEntry → (bufPtr : Nat) → Str → Prog σ (Int × Str)
  | [], bufPtr, buf => return (bufPtr, buf)
  | ent :: ents, bufPtr, buf => do
    let (k, buf) ← readReplicas (fun j => read ent j bufPtr) ent
      (List.finRange (REDUNDANCY + 1)) buf
    if k then readBlocks read ents (bufPtr + ent.lengthInBlock.toNat) buf else return (-1, buf)

/-! ## Files -/

section Files

variable (net : Link σ) (l : Login)

/-- The block entries of a reply, as many as its length announces; `none` for an error. -/
def blockEntries (a : Answer) : Except Stop (Option (List BlockEntry)) :=
  if a.saysOk then
    match valueOf a.entrys CONTENT_LEN with
    | none => .ok none
    | some value =>
      let contentL := u64OfInt (atoll value)
      if contentL % entrySize ≠ 0 then .ok none
      else if contentL ≤ a.data.length then
        .ok (some ((List.range (contentL / entrySize)).map (blockEntryAt a.data)))
      else .error .fault
  else .ok none

/-- The request of `sbp_read_or_write` to the control node. -/
def askBlocks (d : FileDesc) (len : UInt64) (method : String) :
    Prog σ (Option (List BlockEntry)) := do
  let _ ← check (prepareRequest l)
  match ← net.control method [decimal 0 (s64 d.serverFd.toNat), decimal 0 (s64 d.offset.toNat),
      decimal 0 (s64 len.toNat)] with
  | none => return none
  | some a => check (blockEntries a)

/-- The descriptor after `ret` bytes were transferred. -/
def advance (d : FileDesc) (ret : Int) : FileDesc :=
  if ret ≥ 0 then { d with offset := d.offset + UInt64.ofNat ret.toNat } else d

/-- `sbp_read_or_write` for a write of `len` bytes of `buf`. -/
def writeFile (d : FileDesc) (buf : Str) (len : UInt64) : Prog σ (Int × FileDesc) := do
  match ← askBlocks net l d len "WRITE" with
  | none => return (-1, d)
  | some ents =>
    let ret ← writeBlocks (writeBlock net l d.authCode buf) ents 0
    return (ret, advance d ret)

/-- `sbp_read_or_write` for a read of `len` bytes into `buf`. -/
def readFile (d : FileDesc) (buf : Str) (len : UInt64) : Prog σ (Int × Str × FileDesc) := do
  match ← askBlocks net l d len "READ" with
  | none => return (-1, buf, d)
  | some ents =>
    let (ret, buf) ← readBlocks (readBlock net l d.authCode) ents 0 buf
    return (ret, buf, advance d ret)

/-- The slot of a descriptor number. -/
def slot (fds : Fds) (fd : Int) : Prog σ (Option FileDesc) :=
  if fd ≥ MAX_FILE_OPEN then fault else return fds fd.toNat

/-- The slot is not checked before its type is. -/
def sbpRead (fds : Fds) (fd : Int) (buf : Str) (len : UInt64) : Prog σ (Int × Str × Fds) :=
  if fd < 0 then return (-1, buf, fds)
  else do
    match ← slot fds fd with
    | none => fault
    | some d =>
      if d.type = T_FILE then
        let (ret, buf, d) ← readFile net l d buf len
        return (ret, buf, setSlot fds fd.toNat (some d))
      else return (-1, buf, fds)

def sbpWrite (fds : Fds) (fd : Int) (buf : Str) (len : UInt64) : Prog σ (Int × Fds) :=
  if fd < 0 then return (-1, fds)
  else do
    match ← slot fds fd with
    | none => return (-1, fds)
    | some d =>
      if d.type = T_FILE then
        let (ret, d) ← writeFile net l d buf len
        return (ret, setSlot fds fd.toNat (some d))
      else return (-1, fds)

/-- The sum is unsigned, and looked at as a signed one. -/
def sbpSeek (fds : Fds) (fd : Int) (offset : Int) : Prog σ (Int × Fds) :=
  if fd < 0 then return (-1, fds)
  else do
    match ← slot fds fd with
    | none => return (-1, fds)
    | some d =>
      let sum := d.offset + UInt64.ofNat (u64OfInt offset)
      if s64 sum.toNat < 0 then return (-1, fds)
      else return (0, setSlot fds fd.toNat (some { d with offset := sum }))

end Files

end Sbpfs.Libc.Transfer
