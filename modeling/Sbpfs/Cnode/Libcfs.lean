import Sbpfs.Lib.Raise
import Sbpfs.Cfs.Calls
import Sbpfs.Cfs.Query
import Sbpfs.Wire.Number
import Sbpfs.Cnode.Pool

/-!
# The library as Python sees it

`libcfs.c` makes the C functions callable from Python: it converts the arguments, copies
paths into blocks of their own, provides the reply buffers and converts the results. The
state of the control node is the object `DTree` with the C state behind it; the calls into
the library are kept beside it.
-/
namespace Sbpfs.Cnode.Libcfs

open Sbpfs.Lib.Program Sbpfs.Lib.Raise
open Sbpfs.Cfs.Layout Sbpfs.Cfs.Namespace Sbpfs.Cfs.Data Sbpfs.Cfs.Query Sbpfs.Cfs.Calls
open Sbpfs.Wire.Head Sbpfs.Wire.Number
open Sbpfs.Cnode.Pool

/-- A C function, with the arguments it is called with. -/
inductive LibCall where
  | getblocks (path : CStr)
  | openFile (path : CStr) (oflags mode : UInt8) (uid : UInt32)
  | stat (path : CStr) (uid : UInt32)
  | read (fb : UInt32) (offset length : UInt64) (uid : UInt32)
  | write (fb : UInt32) (offset length : UInt64) (ips : List UInt32) (uid : UInt32)
  | opendir (path : CStr) (uid : UInt32)
  | readdir (fb : UInt32) (entnum : UInt64) (uid : UInt32)
  | move (srcpath dstpath : CStr) (uid : UInt32)
  | remove (path : CStr) (uid : UInt32)
  | chown (path : CStr) (newuid uid : UInt32)
  | chmod (path : CStr) (mode : UInt8) (uid : UInt32)
  | rmdir (path : CStr) (uid : UInt32)
  | mkdir (path : CStr) (uid : UInt32)
  deriving DecidableEq, Repr

/-- `DTree`, and the C state behind `diskp`. `calls` are the calls into the library so far,
the last one first. -/
structure CtrlNode where
  world : World
  fds : Map Int FdPool
  ipmap : Map Str Str
  ips : Str
  blockmap : Map Nat (Finset Str)
  calls : List LibCall

/-- A Python exception; a `DTreeError` with its `type` and `msg`. -/
inductive Exc where
  | dtree (type msg : Str)
  | typeError (msg : Str)
  | valueError
  | keyError
  | overflowError
  | memoryError
  | unboundLocalError
  deriving DecidableEq, Repr

abbrev Py (α : Type) := Raising Exc CtrlNode α

/-! ## Converting arguments -/

/-- The C string of a text without NUL. -/
def cstrOf : Str → Option CStr
  | [] => some []
  | c :: s => if h : c = 0 then none else (cstrOf s).map fun s => ⟨c, h⟩ :: s

/-- The format `s` for argument `i`. -/
def argS (i : Nat) (s : Str) : Py CStr :=
  match cstrOf s with
  | some s => return s
  | none => raise (.typeError (ascii "argument " ++ numeral 10 i ++
      ascii " must be string without null bytes, not str"))

/-- The format `b`. -/
def argB (z : Int) : Py UInt8 :=
  if 0 ≤ z ∧ z ≤ 255 then return UInt8.ofNat z.toNat else raise .overflowError

/-- The formats `I` and `K`, which look at the low bits only. -/
def argI (z : Int) : UInt32 := UInt32.ofNat (z % 2 ^ 32).toNat
def argK (z : Int) : UInt64 := UInt64.ofNat (z % 2 ^ 64).toNat

/-! ## Calling -/

def inC {α : Type} (m : CM α) : Py α := onPart CtrlNode.world (fun w n => { n with world := w }) m

def record (c : LibCall) : Py Unit := modifyState fun n => { n with calls := c :: n.calls }

/-- A call with the copy of a path; without memory for it the value is `null`. -/
def withPath {α : Type} (path : CStr) (null : α) (c : LibCall) (m : CM α) : Py α := do
  match ← inC (malloc .path (path.length + 1)) with
  | none => return null
  | some _ =>
    record c
    inC m

/-- `malloc` of a reply buffer for `n` entries: what it has room for. -/
def replyRoom (n size : Nat) : CM Nat := do
  match ← malloc .reply (n * size) with
  | none => return 0
  | some _ => return n

/-- Both calls of `wrap_c_getblocks`; `none` is None. -/
def getblocks (path : CStr) : CM (Option (List Nat)) := do
  let ret ← cGetblocknum path
  if ret < 0 then return none
  else if ret = 0 then return some []
  else
    let cap ← replyRoom ret.toNat 8
    let (ret, l) ← cGetblocks path cap
    if ret ≤ 0 then return none else return some (l.take ret.toNat)

def wrapCGetblocks (path : Str) : Py (Option (List Nat)) := do
  let path ← argS 2 path
  withPath path none (.getblocks path) (getblocks path)

def wrapCOpen (path : Str) (oflags mode uid : Int) : Py Int := do
  let path ← argS 2 path
  let oflags ← argB oflags
  let mode ← argB mode
  let uid := argI uid
  withPath path (-1) (.openFile path oflags mode uid) (cOpen path oflags mode uid)

def wrapCStat (path : Str) (uid : Int) : Py (Option Stat) := do
  let path ← argS 2 path
  let uid := argI uid
  withPath path none (.stat path uid) (do
    let (ret, st) ← cStat path uid
    if ret ≠ 0 then return none else return st)

/-- The entries of a reply, None when the C function's value is not positive. -/
def someBlocks (q : Int × List SendBlock) : Option (List SendBlock) :=
  if q.1 ≤ 0 then none else some q.2

def wrapCRead (fb offset length uid : Int) : Py (Option (List SendBlock)) := do
  let fb := argI fb
  let offset := argK offset
  let length := argK length
  let cap ← inC (replyRoom (replyCap length) 32)
  record (.read fb offset length (argI uid))
  let q ← inC (cRead fb offset length cap)
  return someBlocks q

/-- The loop of `iptoi` with the characters `tmp` since the last dot. -/
def iptoiLoop : Str → Str → Int → UInt32
  | s, tmp, n =>
    if tmp.length ≥ 4 then 0
    else
      let next := (n * 256 + atoll tmp) % 2 ^ 32
      match s with
      | [] => UInt32.ofNat next.toNat
      | c :: s =>
        if c = 0x0a then UInt32.ofNat next.toNat
        else if c = 0x2e then iptoiLoop s [] next
        else iptoiLoop s (tmp ++ [c]) n

def iptoi (s : Str) : UInt32 := iptoiLoop s [] 0

/-- The addresses between the commas, the last one first. -/
def parseIps (s : Str) : List UInt32 := ((s.splitOn 0x2c).map iptoi).reverse

def wrapCWrite (fb offset length : Int) (ips : Str) (uid : Int) :
    Py (Option (List SendBlock)) := do
  let fb := argI fb
  let offset := argK offset
  let length := argK length
  let tmp ← argS 5 ips
  match ← inC (malloc .path (tmp.length + 1)) with
  | none => return none
  | some _ =>
    let ips := parseIps ips
    match ← inC (malloc .path (ips.length * 4)) with
    | none => return none
    | some _ =>
      let cap ← inC (replyRoom (replyCap length) 32)
      record (.write fb offset length ips (argI uid))
      let q ← inC (cWrite fb offset length (ips.map UInt32.toNat) cap)
      return someBlocks q

/-- `entnum` is what the stack held unless the call succeeds. -/
def wrapCOpendir (path : Str) (uid : Int) : Py (Option (Int × Int)) := do
  let path ← argS 2 path
  let uid := argI uid
  let n ← getState
  withPath path none (.opendir path uid) (do
    let (ret, entnum) ← cOpendir path uid (n.world.env.stray 0)
    -- the format `l` takes the number for a signed one
    return some (ret, Int.bmod entnum (2 ^ 64)))

def wrapCReaddir (fb entnum uid : Int) : Py (Option (Str × Int)) := do
  let fb := argI fb
  let entnum := argK entnum
  record (.readdir fb entnum (argI uid))
  let (ret, found) ← inC (cReaddir fb entnum)
  if ret ≠ 0 then return none else return found.map fun q => (q.1, (q.2.toNat : Int))

/-- The copies of both paths are made unchecked. -/
def copyPaths (path1 path2 : CStr) : CM Unit := do
  let b1 ← malloc .path (path1.length + 1)
  let b2 ← malloc .path (path2.length + 1)
  if b1.isSome ∧ b2.isSome then return () else fault

def wrapCMove (srcpath dstpath : Str) (uid : Int) : Py Int := do
  let path1 ← argS 2 srcpath
  let path2 ← argS 3 dstpath
  let uid := argI uid
  inC (copyPaths path1 path2)
  record (.move path1 path2 uid)
  inC (cMove path1 path2 uid)

def wrapCRemove (path : Str) (uid : Int) : Py Int := do
  let path ← argS 2 path
  let uid := argI uid
  withPath path (-1) (.remove path uid) (cRemove path uid)

def wrapCChown (path : Str) (newuid uid : Int) : Py Int := do
  let path ← argS 2 path
  let newuid := argI newuid
  let uid := argI uid
  withPath path (-1) (.chown path newuid uid) (cChown path newuid uid)

def wrapCChmod (path : Str) (mode uid : Int) : Py Int := do
  let path ← argS 2 path
  let mode ← argB mode
  let uid := argI uid
  withPath path (-1) (.chmod path mode uid) (cChmod path mode uid)

def wrapCRmdir (path : Str) (uid : Int) : Py Int := do
  let path ← argS 2 path
  let uid := argI uid
  withPath path (-1) (.rmdir path uid) (cRmdir path uid)

def wrapCMkdir (path : Str) (uid : Int) : Py Int := do
  let path ← argS 2 path
  let uid := argI uid
  withPath path (-1) (.mkdir path uid) (cMkdir path uid)

end Sbpfs.Cnode.Libcfs
