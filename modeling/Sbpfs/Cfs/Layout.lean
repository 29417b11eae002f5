import Sbpfs.Lib.Program
import Sbpfs.Lib.Memory

/-!
# The control node's disk image and the C heap around it

The image is one buffer: superblock, FAT, data sectors. It is kept as these three
parts, the data area sector by sector. A heap block is a byte memory with a size;
reading past its end gives unspecified bytes, writing past its end is a fault.
What the C library decides (the outcome and the old contents of every allocation,
the clock) is read from an environment.
-/
namespace Sbpfs.Cfs.Layout

open Sbpfs.Lib.Program Sbpfs.Lib.Memory

@[simp] abbrev NR_COPY : Nat := 3
abbrev BLOCKSIZE : Nat := 16777216
@[simp] abbrev BYTSPERSEC : Nat := 512
@[simp] abbrev INIT_MAX : Nat := 32768

abbrev S_DIR : UInt8 := 0x1
abbrev S_FIL : UInt8 := 0x2

abbrev S_IRD : UInt8 := 0x8
abbrev S_IWR : UInt8 := 0x4
abbrev S_ORD : UInt8 := 0x2
abbrev S_OWR : UInt8 := 0x1
abbrev S_ALL : UInt8 := (S_IRD ||| S_IWR) ||| (S_ORD ||| S_OWR)
abbrev INITMODE : UInt8 := (S_IRD ||| S_IWR) ||| S_ORD

abbrev SBP_O_RDONLY : UInt8 := 0x01
abbrev SBP_O_WRONLY : UInt8 := 0x02
abbrev SBP_O_RDWR : UInt8 := 0x04
abbrev SBP_O_CREAT : UInt8 := 0x08

@[simp] abbrev FREESEC : Nat := 0
abbrev ENDSEC : Nat := 0xFFFFFFFF

/-! ## Machine integers -/

def u32 (n : Nat) : Nat := n % 2 ^ 32
def u64 (n : Nat) : Nat := n % 2 ^ 64

/-- `a - b` on unsigned long long. -/
def u64Sub (a b : Nat) : Nat := (a + 2 ^ 64 - b) % 2 ^ 64

/-- `a - b` on unsigned int. -/
def u32Sub (a b : Nat) : Nat := (a + 2 ^ 32 - b) % 2 ^ 32

/-- Conversion of an unsigned value to int. -/
def s32 (n : Nat) : Int :=
  if n % 2 ^ 32 < 2 ^ 31 then (n % 2 ^ 32 : Nat) else (n % 2 ^ 32 : Nat) - 2 ^ 32

/-- Conversion of an int to unsigned long long. -/
def u64OfInt (z : Int) : Nat := (z % 2 ^ 64).toNat

/-! ## Fields of the on-disk structures -/

/-- `sizeof(file_meta_t)`, `sizeof(file_entry_t)`, `sizeof(file_block_t)`. -/
@[simp] abbrev metaSize : Nat := 64
@[simp] abbrev entrySize : Nat := 16
@[simp] abbrev blockSize : Nat := 32

def metaUid (b : Bytes) : Nat := getLE b 0 4
def metaCount (b : Bytes) : Nat := getLE b 4 4
def metaFlen (b : Bytes) : Nat := getLE b 8 8
def metaStrbase (b : Bytes) : Nat := getLE b 40 8
def metaStrlen (b : Bytes) : Nat := getLE b 48 8
def metaBlocks (b : Bytes) : Nat := getLE b 56 4
def metaFlags (b : Bytes) : UInt8 := b 60

/-- Byte offset of entry `i` of a directory, and of record `i` of a file. -/
def entryOff (i : Nat) : Nat := metaSize + entrySize * i
def blockOff (i : Nat) : Nat := metaSize + blockSize * i

def entryName (b : Bytes) (off : Nat) : Nat := getLE b off 8
def entryFb (b : Bytes) (off : Nat) : Nat := getLE b (off + 8) 4
def entryType (b : Bytes) (off : Nat) : UInt8 := b (off + 12)

/-- A `file_entry_t` by value; the reserved bytes are never read. -/
structure FileEntry where
  name : Nat
  fb : Nat
  type : UInt8
  deriving DecidableEq, Repr

def entryAt (b : Bytes) (off : Nat) : FileEntry :=
  ⟨entryName b off, entryFb b off, entryType b off⟩

def blockNum (b : Bytes) (off : Nat) : Nat := getLE b off 8
def blockLength (b : Bytes) (off : Nat) : Nat := getLE b (off + 12) 4
def blockIp (b : Bytes) (off j : Nat) : Nat := getLE b (off + 16 + 4 * j) 4

/-! ## C strings -/

/-- A character of a C string: any byte but NUL. -/
abbrev CChar := { c : UInt8 // c ≠ 0 }

abbrev CStr := List CChar

def slash : CChar := ⟨0x2f, by decide⟩
def dot : CChar := ⟨0x2e, by decide⟩

/-- The names `"."` and `".."`. -/
def dotName : CStr := [dot]
def dotdotName : CStr := [dot, dot]

/-- `strcmp(s, name) == 0` for the string at offset `off`. -/
def strEq (b : Bytes) : Nat → CStr → Bool
  | off, [] => b off == 0
  | off, c :: cs => b off == c.val && strEq b (off + 1) cs

/-- The bytes of `name` with the terminating NUL, as `strcpy` reads them. -/
def strBytes (name : CStr) : Bytes := fun i => (name[i]?.map Subtype.val).getD 0

/-! ## State -/

/-- `sb_t`; `bytsPerSec` is `BYTSPERSEC` from `open_disk` on. -/
structure Sb where
  totSecNum : Nat
  fatSecNum : Nat
  fatNum : Nat
  maxBlockNum : Nat

/-- `dtree_t`. The FAT has a slot for every four bytes of its sectors. -/
structure Dtree where
  sb : Sb
  fat : Nat → Nat
  data : Nat → Bytes
  dtSize : Nat

def Dtree.slots (dt : Dtree) : Nat := dt.sb.fatSecNum * BYTSPERSEC / 4

/-- Whole sectors of the image behind the superblock and the FAT. -/
def Dtree.dataSecs (dt : Dtree) : Nat :=
  (dt.dtSize - BYTSPERSEC - dt.sb.fatSecNum * BYTSPERSEC) / BYTSPERSEC

/-- The places of the source that call `malloc`. -/
inductive AllocSite where
  | lookup
  | table
  | dstTable
  | image
  | tail
  | pool
  | records
  | reply
  | initfile
  | initdir
  | extend
  | mount
  | load
  | inode
  | path
  deriving DecidableEq, Repr

/-- What the C library answers: `heap s k` is the outcome of the next but `k` allocation
at `s` (`none` for NULL, else the block's old contents), `now` the clock, `stray` what is
found outside of every block. A loop that is not left within `fuel` rounds counts as one
that never ends. -/
structure Env where
  now : Nat
  fuel : Nat
  heap : AllocSite → Nat → Option Bytes
  stray : Int → Nat

/-- The control node's C state: the mounted disk and the counter of `gen_ip_index`. -/
structure World where
  dt : Dtree
  ipIndex : Int
  env : Env

abbrev CM (α : Type) := Prog World α

structure Buf where
  size : Nat
  bytes : Bytes

def Env.pop (e : Env) (s : AllocSite) : Env :=
  { e with heap := fun t k => if t = s then e.heap t (k + 1) else e.heap t k }

def malloc (s : AllocSite) (size : Nat) : CM (Option Buf) := do
  let w ← get
  set { w with env := w.env.pop s }
  return (w.env.heap s 0).map (Buf.mk size)

/-- `memcpy` into a heap block. -/
def Buf.copyIn (b : Buf) (doff : Nat) (src : Bytes) (soff n : Nat) : CM Buf :=
  if doff + n ≤ b.size then return { b with bytes := blit b.bytes doff src soff n } else fault

/-- Assignment to a field of a structure in a heap block. -/
def Buf.store (b : Buf) (off n v : Nat) : CM Buf :=
  if off + n ≤ b.size then return { b with bytes := putLE b.bytes off n v } else fault

def getDt : CM Dtree := return (← get).dt

def getNow : CM Nat := return (← get).env.now

def modifyDt (f : Dtree → Dtree) : CM Unit := modify fun w => { w with dt := f w.dt }

/-- The sector that `dt->data + fb*bytsPerSec` points to; the product is an unsigned int. -/
def sectorOf (fb : Nat) : Nat := u32 (fb * BYTSPERSEC) / BYTSPERSEC

/-- The bytes at `dt->data + fb*bytsPerSec`. -/
def readSector (fb : Nat) : CM Bytes := do
  let dt ← getDt
  if sectorOf fb < dt.dataSecs then return dt.data (sectorOf fb) else fault

/-- `memcpy(dt->data + fb*bytsPerSec, src + soff, n)` for at most a sector. -/
def writeSector (fb : Nat) (src : Bytes) (soff n : Nat) : CM Unit := do
  let dt ← getDt
  if sectorOf fb < dt.dataSecs then
    modifyDt fun dt => { dt with
      data := fun k => if k = sectorOf fb then blit (dt.data k) 0 src soff n else dt.data k }
  else fault

def readFat (i : Nat) : CM Nat := do
  let dt ← getDt
  if i < dt.slots then return dt.fat i else fault

def writeFat (i v : Nat) : CM Unit := do
  let dt ← getDt
  if i < dt.slots then
    modifyDt fun dt => { dt with fat := fun k => if k = i then v else dt.fat k }
  else fault

end Sbpfs.Cfs.Layout
