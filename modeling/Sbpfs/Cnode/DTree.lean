import Mathlib.Data.Int.Bitwise
import Sbpfs.Cnode.Libcfs

/-!
# `DTree`

The methods of `DTree` with the arguments as `Connection` hands them on: the texts of the
message, and the user's number.
-/
namespace Sbpfs.Cnode.DTree

open Sbpfs.Lib.Raise
open Sbpfs.Cfs.Layout Sbpfs.Cfs.Data Sbpfs.Cfs.Query
open Sbpfs.Wire.Head Sbpfs.Wire.Number
open Sbpfs.Cnode.Pool Sbpfs.Cnode.Libcfs

abbrev SBP_O_RDONLY : Int := 0x01
abbrev SBP_O_WRONLY : Int := 0x02
abbrev SBP_O_RDWR : Int := 0x04

/-- `int(s)`. -/
def int (s : Str) : Py Int :=
  match pyInt s with
  | some z => return z
  | none => raise .valueError

/-- `'.'`-separated, the high byte first. -/
def long2ip (lint : Nat) : Str :=
  List.intercalate [0x2e] ([lint / 2 ^ 24 % 256, lint / 2 ^ 16 % 256, lint / 2 ^ 8 % 256,
    lint % 256].map (numeral 10))

def raiseDTree {α : Type} (type msg : String) : Py α := raise (.dtree (ascii type) (ascii msg))

/-- The error with the text of a number behind its message. -/
def raiseWith {α : Type} (type msg : String) (z : Int) : Py α :=
  raise (.dtree (ascii type) (ascii msg ++ decimal 0 z))

/-! ## Descriptors -/

/-- `__gen_fd`. -/
def genFd (file : FileDes) (uid : Int) : Py Int := do
  let n ← getState
  let fdp := (n.fds.lookup uid).getD .empty
  modifyState fun n => { n with fds := n.fds.insert uid (fdp.gen file).2 }
  return (fdp.gen file).1

/-- `__des_fd`. -/
def desFd (fd uid : Int) : Py Unit := do
  let n ← getState
  match n.fds.lookup uid with
  | none => raise .keyError
  | some fdp =>
    match fdp.des fd with
    | none => raiseWith "CloseError" "Not such fd: " fd
    | some fdp =>
      modifyState fun n =>
        { n with fds := if fdp.isEmpty then n.fds.erase uid else n.fds.insert uid fdp }

/-- `get_file` in the user's pool; None without a pool. -/
def CtrlNode.getFile (n : CtrlNode) (uid fd : Int) : Option FileDes :=
  (n.fds.lookup uid).bind fun fdp => fdp.getFile fd

/-- The file of a descriptor of the given type; a user without a pool, a number that is not
in use and the wrong type raise the same error. -/
def findFile (fd uid type : Int) (errType msg : String) : Py FileDes := do
  let n ← getState
  match CtrlNode.getFile n uid fd with
  | none => raiseWith errType msg fd
  | some file => if file.type ≠ type then raiseWith errType msg fd else return file

/-! ## Where blocks are -/

/-- `__is_block_exists`. -/
def isBlockExists (n : CtrlNode) (block : Nat) : Bool :=
  match n.blockmap.lookup block with
  | none => false
  | some users => decide (∃ user ∈ users, (n.ipmap.lookup user).isSome)

/-- One round of the loop of `__flit_read`: addresses that no user with the block has become 0. -/
def flitBlock (b : SendBlock) : Py SendBlock := do
  let n ← getState
  match n.blockmap.lookup b.blockNum with
  | none => raise .keyError
  | some users =>
    if ∀ user ∈ users, (n.ipmap.lookup user).isSome then
      return { b with ip := b.ip.map fun ip =>
        if ∃ user ∈ users, n.ipmap.lookup user = some (long2ip ip) then ip else 0 }
    else raise .keyError

/-- `__flit_read`. -/
def flitRead : List SendBlock → Py (List SendBlock)
  | [] => return []
  | b :: data => do
    let b ← flitBlock b
    let ret ← flitRead data
    return b :: ret

/-- `order` is the order in which the interpreter lists the keys of `ipmap`. -/
def addBlockInfo (order : List Str) (l : List Nat) (user ip : Str) : Py Unit :=
  modifyState fun n =>
    let blockmap := l.foldl (fun m block =>
      m.insert block (insert user ((m.lookup block).getD ∅))) n.blockmap
    let ipmap := n.ipmap.insert user ip
    { n with
      blockmap := blockmap
      ipmap := ipmap
      ips := List.intercalate [0x2c] (order.filterMap fun key => ipmap.lookup key) }

def dropUser (user : Str) : Py Unit := modifyState fun n => { n with ipmap := n.ipmap.erase user }

/-- None, False or True. -/
def isFileLost (path : Str) : Py (Option Bool) := do
  match ← wrapCGetblocks path with
  | none => return none
  | some l =>
    let n ← getState
    return some (l.any fun block => !isBlockExists n block)

/-! ## Files -/

/-- The part of `open` that makes the `FileDes`. A lost file is not reported: the error's
message is formatted with `%d`. -/
def openDes (path oflags mode : Str) (uid : Int) : Py FileDes := do
  if (← isFileLost path) = some true then
    raise (.typeError (ascii "%d format: a number is required, not str"))
  else
    let oflags ← int oflags
    let mode ← int mode
    let fb ← wrapCOpen path oflags mode uid
    if fb = -1 then raiseDTree "OpenError" "No such file"
    else if fb = -2 then raiseDTree "OpenError" "Cannot open a directory"
    else if fb = -4 then raiseDTree "PermissionError" "Permission denied"
    else if fb < 0 then raiseDTree "OpenError" "Unknown error"
    else return ⟨fb, oflags, S_FIL⟩

def openFile (path oflags mode : Str) (uid : Int) : Py Int := do
  let file ← openDes path oflags mode uid
  genFd file uid

/-- `file.mode & flag or file.mode & SBP_O_RDWR`. -/
def mayUse (file : FileDes) (flag : Int) : Bool :=
  Int.land file.mode flag ≠ 0 || Int.land file.mode SBP_O_RDWR ≠ 0

def read (fd offset length : Str) (uid : Int) : Py (List SendBlock) := do
  let fd ← int fd
  let offset ← int offset
  let length ← int length
  let file ← findFile fd uid S_FIL "ReadError" "Not such fd: "
  if !mayUse file SBP_O_RDONLY then raiseWith "ModeError" "Can not read. mode=" file.mode
  else
    match ← wrapCRead file.fb offset length uid with
    | none => raiseDTree "ReadError" "ReadError"
    | some data => flitRead data

def write (fd offset length : Str) (uid : Int) : Py (List SendBlock) := do
  let fd ← int fd
  let offset ← int offset
  let length ← int length
  let n ← getState
  if n.ips = [] then raiseDTree "NoDataNodeError" "Not data node connect to server"
  else
    let file ← findFile fd uid S_FIL "WriteError" "Not such fd: "
    if !mayUse file SBP_O_WRONLY then raiseWith "ModeError" "Can not write. mode=" file.mode
    else
      match ← wrapCWrite file.fb offset length n.ips uid with
      | none => raiseDTree "WriteError" "WriteError"
      | some data => return data

def stat (path : Str) (uid : Int) : Py Stat := do
  match ← wrapCStat path uid with
  | none => raiseDTree "StatError" "No such file or directory"
  | some data => return data

def close (fd : Str) (uid : Int) : Py Unit := do
  let fd ← int fd
  let _ ← findFile fd uid S_FIL "CloseError" "Not such fd: "
  desFd fd uid

/-! ## Directories -/

/-- The part of `opendir` that makes the `FileDes`. -/
def opendirDes (path : Str) (uid : Int) : Py (FileDes × Int) := do
  match ← wrapCOpendir path uid with
  | none => raiseDTree "FatalError" "Server Error"
  | some (fb, entnum) =>
    if fb = -1 then raiseDTree "OpenDirError" "No such directory"
    else if fb = -4 then raiseDTree "PermissionError" "Permission denied"
    else if fb < 0 then raiseDTree "OpenDirError" "Unknown error"
    else return (⟨fb, 0, S_DIR⟩, entnum)

def opendir (path : Str) (uid : Int) : Py (Int × Int) := do
  let (file, entnum) ← opendirDes path uid
  let fd ← genFd file uid
  return (fd, entnum)

def readdir (dd entnum : Str) (uid : Int) : Py (Str × Int) := do
  let dd ← int dd
  let entnum ← int entnum
  let file ← findFile dd uid S_DIR "ReadDirError" "Not such dirfd: "
  match ← wrapCReaddir file.fb entnum uid with
  | none => raiseDTree "ReadDirError" "ReadDirError"
  | some ret => return ret

def closedir (dd : Str) (uid : Int) : Py Unit := do
  let dd ← int dd
  let _ ← findFile dd uid S_DIR "CloseDirError" "Not such dirfd: "
  desFd dd uid

/-! ## Names and headers -/

/-- The checks of a C function's value: the errors by value, then a server error. -/
def checkRet (ret : Int) (errors : List (Int × String × String)) : Py Unit :=
  match errors.find? fun e => e.1 = ret with
  | some (_, type, msg) => raiseDTree type msg
  | none => if ret < 0 then raiseDTree "FatalError" "Server Error" else return ()

def denied : Int × String × String := (4, "PermissionError", "Permission denied")

def move (dst src : Str) (uid : Int) : Py Unit := do
  let ret ← wrapCMove dst src uid
  checkRet ret [(1, "MoveError", "No such file or directory"),
    (2, "MoveError", "destination exists"), denied]

def remove (path : Str) (uid : Int) : Py Unit := do
  let ret ← wrapCRemove path uid
  checkRet ret [(1, "RemoveError", "No such file or directory"),
    (2, "RemoveError", "Is a directory"), denied]

def chown (path : Str) (newuid uid : Int) : Py Unit := do
  let ret ← wrapCChown path newuid uid
  checkRet ret [(1, "ChownError", "No such file or directory"), denied]

def chmod (path mode : Str) (uid : Int) : Py Unit := do
  let mode ← int mode
  let ret ← wrapCChmod path mode uid
  checkRet ret [(1, "ChmodError", "No such file or directory"), denied]

def mkdir (path : Str) (uid : Int) : Py Unit := do
  let ret ← wrapCMkdir path uid
  checkRet ret [(1, "MkdirError", "No such file or directory"),
    (2, "MkdirError", "No such file or directory"), (3, "MkdirError", "File exists"), denied]

def rmdir (path : Str) (uid : Int) : Py Unit := do
  let ret ← wrapCRmdir path uid
  checkRet ret [(1, "RmdirError", "No such file or directory"),
    (2, "RmdirError", "Not a directory"), (3, "RmdirError", "Directory not empty"), denied]

end Sbpfs.Cnode.DTree
