import Sbpfs.Libc.Request

/-!
# The descriptor table of the client

`sbp_open`, `sbp_opendir`, `sbp_close` and `sbp_closedir` on the array `fds`. What the server
answers and whether the allocations succeed is chosen for every call.
-/
namespace Sbpfs.Libc.Table

open Sbpfs.Lib.Program Sbpfs.Cfs.Layout
open Sbpfs.Wire.Head Sbpfs.Wire.Number Sbpfs.Libc.Request

@[simp] abbrev MAX_FILE_OPEN : Nat := 4096
@[simp] abbrev AUTH_CODE_LEN : Nat := 32

def T_DIR : UInt8 := 0x01
def T_FILE : UInt8 := 0x02

def REQUEST_OK : Str := ascii "SBPFS/1.0 OK"
def REQUEST_ERR : Str := ascii "SBPFS/1.0 ERROR"
def AUTH_CODE : Str := ascii "Auth-Code"
def FILE_DESC : Str := ascii "FD"
def DIR_FD : Str := ascii "DirFD"
def DIR_ENT_NUM : Str := ascii "DirEntryNum"

/-- `struct sbp_filedesc`. -/
structure FileDesc where
  serverFd : UInt64
  offset : UInt64
  oflag : UInt32
  length : UInt64
  type : UInt8
  filename : CStr
  authCode : Str
  deriving DecidableEq

/-- After `bzero`. -/
def FileDesc.zero : FileDesc := ⟨0, 0, 0, 0, 0, [], []⟩

/-- The array `fds`; only the first `MAX_FILE_OPEN` slots are part of it. -/
abbrev Fds := Nat → Option FileDesc

def setSlot (fds : Fds) (i : Nat) (d : Option FileDesc) : Fds := fun k => if k = i then d else fds k

/-- The loop of `get_slot` at `i`. -/
def getSlotFrom (fds : Fds) : Nat → Nat → Option Nat
  | 0, _ => none
  | n + 1, i => if fds i = none then some i else getSlotFrom fds n (i + 1)

/-- `none` is the source's -1. -/
def getSlot (fds : Fds) : Option Nat := getSlotFrom fds MAX_FILE_OPEN 0

/-- A result of `get_slot` as the int it is. -/
def slotFd (slot : Option Nat) : Int :=
  match slot with
  | some i => i
  | none => -1

/-- How the request of a call went: whether `sbp_getUandP` got its memory, and the decoded reply
unless an error came before it. -/
structure Exchange where
  prepared : Bool
  reply : Option SbpfsHead

/-- Whether a title begins with `REQUEST_OK` or `REQUEST_ERR`. -/
def titleSaysOk (title : Str) : Bool := REQUEST_OK.isPrefixOf title
def titleSaysErr (title : Str) : Bool := REQUEST_ERR.isPrefixOf title

def saysOk (head : SbpfsHead) : Bool := titleSaysOk head.title
def saysErr (head : SbpfsHead) : Bool := titleSaysErr head.title

def u64OfText (s : Str) : UInt64 := UInt64.ofNat (u64OfInt (atoll s))

/-- On success the slot is left as it is. -/
def sbpClose (l : Login) (x : Exchange) (fd : Int) (fds : Fds) : Except Stop (Int × Fds) :=
  if fd < 0 then .ok (-1, fds)
  else if fd ≥ MAX_FILE_OPEN then .error .fault
  else
    match fds fd.toNat with
    | none => .ok (-1, fds)
    | some d =>
      if x.prepared = false then .ok (-1, fds)
      else do
        let freed := setSlot fds fd.toNat none
        match ← Request.sbpClose l d.serverFd with
        | none => return (-1, freed)
        | some _ =>
          match x.reply with
          | none => return (-1, freed)
          | some head => if saysOk head then return (0, fds) else return (-1, freed)

def sbpClosedir (l : Login) (x : Exchange) (dirfd : Int) (fds : Fds) : Except Stop (Int × Fds) :=
  if dirfd < 0 then .ok (-1, fds)
  else if dirfd ≥ MAX_FILE_OPEN then .error .fault
  else
    match fds dirfd.toNat with
    | none => .ok (-1, fds)
    | some d =>
      if d.type ≠ T_DIR then .ok (-1, fds)
      else if x.prepared = false then .ok (-1, fds)
      else do
        let freed := setSlot fds dirfd.toNat none
        match ← Request.sbpClosedir l d.serverFd with
        | none => return (-1, freed)
        | some _ =>
          match x.reply with
          | none => return (-1, freed)
          | some head => if saysOk head then return (0, freed) else return (-1, freed)

/-- What a call that opens is answered: its own request, its two allocations, and the request of
the close on its error exit. -/
structure Answers where
  opening : Exchange
  fdMem : Bool
  nameMem : Bool
  closing : Exchange

/-- The block for the name of a new descriptor has `sizeof(size_t)` bytes. -/
@[simp] abbrev nameSize : Nat := 8

/-- The exit `err_exit4` with the descriptor `d` in the slot. -/
def openFailed (close : Exchange → Int → Fds → Except Stop (Int × Fds)) (a : Answers) (fd : Int)
    (fds : Fds) : Except Stop (Int × Fds) := do
  let (_, fds) ← close a.closing fd fds
  return (-1, fds)

/-- The part of `sbp_open` behind a reply that says OK. -/
def openOk (l : Login) (a : Answers) (head : SbpfsHead) (filename : CStr) (oflag : UInt32)
    (fds : Fds) : Except Stop (Int × Fds) :=
  match getSlot fds with
  | none => .error .fault
  | some fd =>
    if a.fdMem = false then .ok (-1, setSlot fds fd none)
    else
      let fail (d : FileDesc) := openFailed (sbpClose l) a fd (setSlot fds fd (some d))
      if a.nameMem = false then fail .zero
      else if filename.length + 1 > nameSize then .error .fault
      else
        let d := { FileDesc.zero with filename := filename, oflag := oflag, type := T_FILE }
        match getHeadEntryValue head FILE_DESC with
        | none => fail d
        | some fdS =>
          let d := { d with serverFd := u64OfText fdS }
          match getHeadEntryValue head AUTH_CODE with
          | none => fail d
          | some authCode =>
            if authCode.length > AUTH_CODE_LEN then fail d
            else .ok (fd, setSlot fds fd (some { d with authCode := authCode }))

/-- A reply with another title ends in `err_exit4`, too, where the slot is still free. -/
def sbpOpen (l : Login) (a : Answers) (filename : CStr) (oflag : UInt32) (mode : UInt16)
    (fds : Fds) : Except Stop (Int × Fds) :=
  if a.opening.prepared = false then .ok (-1, fds)
  else do
    match ← Request.sbpOpen l filename oflag mode with
    | none => return (-1, fds)
    | some _ =>
      match a.opening.reply with
      | none => return (-1, fds)
      | some head =>
        if saysOk head then openOk l a head filename oflag fds
        else if saysErr head then return (-1, fds)
        else openFailed (sbpClose l) a (slotFd (getSlot fds)) fds

/-- The part of `sbp_opendir` behind a reply that says OK. The type is assigned behind the
allocation of the name. -/
def opendirOk (l : Login) (a : Answers) (head : SbpfsHead) (filename : CStr) (fds : Fds) :
    Except Stop (Int × Fds) :=
  match getSlot fds with
  | none => .error .fault
  | some fd =>
    if a.fdMem = false then .ok (-1, setSlot fds fd none)
    else
      let fail (d : FileDesc) := openFailed (sbpClosedir l) a fd (setSlot fds fd (some d))
      if a.nameMem = false then fail .zero
      else if filename.length + 1 > nameSize then .error .fault
      else
        let d := { FileDesc.zero with filename := filename, type := T_DIR }
        match getHeadEntryValue head DIR_FD with
        | none => fail d
        | some fdS =>
          let d := { d with serverFd := u64OfText fdS }
          match getHeadEntryValue head DIR_ENT_NUM with
          | none => fail d
          | some num => .ok (fd, setSlot fds fd (some { d with length := u64OfText num }))

def sbpOpendir (l : Login) (a : Answers) (filename : CStr) (fds : Fds) : Except Stop (Int × Fds) :=
  if a.opening.prepared = false then .ok (-1, fds)
  else do
    match ← Request.sbpOpendir l filename with
    | none => return (-1, fds)
    | some _ =>
      match a.opening.reply with
      | none => return (-1, fds)
      | some head =>
        if saysOk head then opendirOk l a head filename fds
        else if saysErr head then return (-1, fds)
        else openFailed (sbpClosedir l) a (slotFd (getSlot fds)) fds

/-! ## Sequences of calls -/

inductive Call where
  | openFile (filename : CStr) (oflag : UInt32) (mode : UInt16) (a : Answers)
  | opendir (filename : CStr) (a : Answers)
  | close (fd : Int) (x : Exchange)
  | closedir (dirfd : Int) (x : Exchange)

def Call.run (l : Login) : Call → Fds → Except Stop (Int × Fds)
  | .openFile filename oflag mode a, fds => sbpOpen l a filename oflag mode fds
  | .opendir filename a, fds => sbpOpendir l a filename fds
  | .close fd x, fds => sbpClose l x fd fds
  | .closedir dirfd x, fds => sbpClosedir l x dirfd fds

end Sbpfs.Libc.Table
