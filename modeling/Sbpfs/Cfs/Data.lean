import Sbpfs.Cfs.Lookup

/-! The block lists of files: `alloc_block`, `c_read`, `c_write` and `c_getblocks`. -/
namespace Sbpfs.Cfs.Data

open Sbpfs.Lib.Program Sbpfs.Lib.Memory Sbpfs.Cfs.Layout Sbpfs.Cfs.Fat Sbpfs.Cfs.File
open Sbpfs.Cfs.Lookup

/-- The fields of a `sendblock_t` that are assigned. -/
structure SendBlock where
  blockNum : Nat
  offset : Nat
  length : Nat
  ip : List Nat
  deriving DecidableEq, Repr

def upDiv (a b : Nat) : Nat := u64 (a + b - 1) / b

/-- `(i++) % max`; the counter wraps like the machine's int. -/
def genIpIndex (max : Nat) : CM Int := do
  let w ← get
  if max = 0 then fault
  else
    set { w with ipIndex := s32 ((w.ipIndex + 1) % 2 ^ 32).toNat }
    return w.ipIndex.tmod max

/-- `ips[gen_ip_index(max)]`. -/
def nextIp (ips : List Nat) : CM Nat := do
  let k ← genIpIndex ips.length
  let w ← get
  if 0 ≤ k then return (ips[k.toNat]?).getD (w.env.stray k)
  else return w.env.stray k

/-- The rest of the loop of `alloc_block` once `ip[0]` is `first`. -/
def allocIps (ips : List Nat) (first : Nat) : Nat → CM (List Nat)
  | 0 => return []
  | n + 1 => do
    let ip ← nextIp ips
    if ip = first then return List.replicate (n + 1) 0
    else return ip :: (← allocIps ips first n)

/-- The new record: its number and its addresses; `offset` is 0 and `flags` is EXIST. -/
def allocBlock (ips : List Nat) : CM (Nat × List Nat) := do
  let first ← nextIp ips
  let rest ← allocIps ips first (NR_COPY - 1)
  let dt ← getDt
  modifyDt fun dt => { dt with sb := { dt.sb with maxBlockNum := u64 (dt.sb.maxBlockNum + 1) } }
  return (dt.sb.maxBlockNum, first :: rest)

/-- The record at `off` as the reply carries it. -/
def sendAt (buf : Bytes) (off offset length : Nat) : SendBlock :=
  ⟨blockNum buf off, offset, length, [blockIp buf off 0, blockIp buf off 1, blockIp buf off 2]⟩

/-- Entry `i` of a reply about existing blocks, as `c_read` and the first branch of
`c_write` fill it. -/
def segment (buf : Bytes) (offset length blocknum i : Nat) : SendBlock :=
  let off := blockOff (offset / BLOCKSIZE + i)
  if blocknum = 1 then sendAt buf off (offset % BLOCKSIZE) (u32 length)
  else if i = 0 then sendAt buf off (offset % BLOCKSIZE) (u32 (u64Sub BLOCKSIZE offset))
  else if i = blocknum - 1 then
    sendAt buf off 0 (if u64 (offset + length) % BLOCKSIZE ≠ 0
      then u64 (offset + length) % BLOCKSIZE else BLOCKSIZE)
  else sendAt buf off 0 BLOCKSIZE

/-- The number of blocks a range touches, as both functions compute it. -/
def rangeBlocks (offset length : Nat) : Int :=
  let offset_1 := u64 (upDiv offset BLOCKSIZE * BLOCKSIZE)
  let length_1 := u64 (length + offset) / BLOCKSIZE * BLOCKSIZE
  let blocknum := s32 (u64Sub length_1 offset_1 / BLOCKSIZE)
  let blocknum := if offset ≠ offset_1 then blocknum + 1 else blocknum
  if u64 (offset + length) ≠ length_1 then blocknum + 1 else blocknum

/-- `cap` is the number of entries the caller's reply buffer holds. -/
def cRead (fb : UInt32) (offset length : UInt64) (cap : Nat) : CM (Int × List SendBlock) := do
  let offset := offset.toNat
  let length := length.toNat
  let fmeta ← readSector fb.toNat
  let flen := metaFlen fmeta
  if flen < offset then return (-1, [])
  else
    let length := if length < flen - offset then length else flen - offset
    match ← malloc .records (u32 (metaBlocks fmeta * BYTSPERSEC)) with
    | none => return (-9, [])
    | some buf =>
      let buf ← doReadfile fb.toNat buf
      let blocknum := rangeBlocks offset length
      if blocknum.toNat ≤ cap then
        return (blocknum,
          (List.range blocknum.toNat).map (segment buf.bytes offset length blocknum.toNat))
      else fault

/-- The writes of the first branch of `c_write` to the records: the length of the only
block, or the larger length of the last. -/
def storeLengths (buf : Buf) (offset length blocknum : Nat) : CM Buf :=
  if blocknum = 1 then
    buf.store (blockOff (offset / BLOCKSIZE) + 12) 4 (u32 (u64 (length + offset)))
  else if blocknum = 0 then return buf
  else
    let off := blockOff (offset / BLOCKSIZE + (blocknum - 1))
    let len := (segment buf.bytes offset length blocknum (blocknum - 1)).length
    buf.store (off + 12) 4
      (if len < blockLength buf.bytes off then blockLength buf.bytes off else len)

/-- Entry `i` for a block that exists, in the second branch of `c_write`. -/
def oldSegment (buf : Bytes) (offset i : Nat) : SendBlock :=
  let off := blockOff (offset / BLOCKSIZE + i)
  if i = 0 then sendAt buf off (offset % BLOCKSIZE) (u32 (u64Sub BLOCKSIZE offset))
  else sendAt buf off 0 BLOCKSIZE

/-- The last loop of `c_write`, with `n` blocks still to be allocated. -/
def newSegments (length : Nat) (ips : List Nat) : Nat → Buf → CM (Buf × List SendBlock)
  | 0, buf => return (buf, [])
  | n + 1, buf => do
    let off := metaSize + metaStrbase buf.bytes
    let (num, ip) ← allocBlock ips
    let len := if n = 0 then (if length % BLOCKSIZE ≠ 0 then length % BLOCKSIZE else BLOCKSIZE)
      else BLOCKSIZE
    let buf ← buf.copyIn off (fun _ => 0) 0 blockSize
    let buf ← buf.store off 8 num
    let buf ← buf.store (off + 12) 4 len
    let buf ← buf.store (off + 16) 4 ((ip[0]?).getD 0)
    let buf ← buf.store (off + 20) 4 ((ip[1]?).getD 0)
    let buf ← buf.store (off + 24) 4 ((ip[2]?).getD 0)
    let buf ← buf.store (off + 28) 1 1
    let seg := sendAt buf.bytes off 0 len
    let buf ← buf.store 40 8 (u64 (metaStrbase buf.bytes + blockSize))
    let (buf, segs) ← newSegments length ips n buf
    return (buf, seg :: segs)

/-- The branch of `c_write` on the number of new blocks. -/
def writeRecords (buf : Buf) (offset length : Nat) (blocknum newblocknum : Int) (ips : List Nat)
    (cap : Nat) : CM (Buf × List SendBlock) :=
  if newblocknum ≤ 0 then
    if blocknum.toNat ≤ cap then do
      let segs := (List.range blocknum.toNat).map
        (segment buf.bytes offset length blocknum.toNat)
      let buf ← storeLengths buf offset length blocknum.toNat
      pure (buf, segs)
    else fault
  else
    let oldblocknum := u64OfInt (blocknum - newblocknum)
    if oldblocknum + newblocknum.toNat ≤ cap then do
      let old := (List.range oldblocknum).map (oldSegment buf.bytes offset)
      let (buf, new) ← newSegments length ips newblocknum.toNat buf
      pure (buf, old ++ new)
    else fault

def cWrite (fb : UInt32) (offset length : UInt64) (ips : List Nat) (cap : Nat) :
    CM (Int × List SendBlock) := do
  let offset := offset.toNat
  let length := length.toNat
  let fmeta ← readSector fb.toNat
  let flen := metaFlen fmeta
  let newsize := if flen < u64 (offset + length) then u64 (offset + length) else flen
  if flen < offset then return (-1, [])
  else
    let bufsize_1 := u64 (metaSize + upDiv (u64 (offset + length)) BLOCKSIZE * blockSize)
    let bufsize_2 := u32 (metaBlocks fmeta * BYTSPERSEC)
    match ← malloc .records (if bufsize_1 > bufsize_2 then bufsize_1 else bufsize_2) with
    | none => return (-9, [])
    | some buf =>
      let buf ← doReadfile fb.toNat buf
      let blocknum := rangeBlocks offset length
      let newblocknum :=
        s32 (u64Sub (upDiv (u64 (offset + length)) BLOCKSIZE) (upDiv flen BLOCKSIZE))
      let (buf, segs) ← writeRecords buf offset length blocknum newblocknum ips cap
      let buf ← buf.store 8 8 newsize
      let buf ← buf.store 32 8 (← getNow)
      let buf ← buf.store 56 4 (u32 (upDiv (u64 (metaSize + metaStrbase buf.bytes)) BYTSPERSEC))
      doWritefile fb.toNat buf.bytes (u64 (metaSize + metaStrbase buf.bytes))
      return (blocknum, segs)

end Sbpfs.Cfs.Data
