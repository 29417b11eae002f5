import Sbpfs.Cfs.Layout
import Sbpfs.Wire.Number

/-!
# The requests of the client library

Each API function builds one message for the control node: the user's name and password, the
method, the number of arguments, the arguments as text, and an empty body.
-/
namespace Sbpfs.Libc.Request

open Sbpfs.Lib.Program Sbpfs.Cfs.Layout Sbpfs.Wire.Head Sbpfs.Wire.Number

@[simp] abbrev MAX_USERNAME_LEN : Nat := 16
@[simp] abbrev TRAN_USERNAME_LEN : Nat := 16 + 7
@[simp] abbrev MAX_PASSWORD_LEN : Nat := 32

def PROTOCOL : Str := ascii "SBPFS/1.0"
def CONTENT_LEN : Str := ascii "Content-Length"
def USER : Str := ascii "User"
def PASS : Str := ascii "Password"
def METHOD : Str := ascii "Method"
def ARGC : Str := ascii "Argc"

/-- The bytes of a C string. -/
def bytesOf (s : CStr) : Str := s.map Subtype.val

/-- Conversion of an unsigned long long to long long. -/
def s64 (n : Nat) : Int :=
  if n % 2 ^ 64 < 2 ^ 63 then (n % 2 ^ 64 : Nat) else (n % 2 ^ 64 : Nat) - 2 ^ 64

/-- `sbp_user` and `sbp_pass`, as `sbp_login` lets them be set. -/
structure Login where
  usr : CStr
  pass : CStr
  usrLen : usr.length ≤ MAX_USERNAME_LEN
  passLen : pass.length ≤ MAX_PASSWORD_LEN

/-- `sbp_login`, `none` for -1. -/
def sbpLogin (username password : CStr) : Option Login :=
  if h : username.length ≤ MAX_USERNAME_LEN ∧ password.length ≤ MAX_PASSWORD_LEN then
    some ⟨username, password, h.1, h.2⟩
  else none

/-- A C string literal. -/
def text (s : String) : CStr :=
  (ascii s).filterMap fun c => if h : c ≠ 0 then some ⟨c, h⟩ else none

/-- The user of a process that has not called `sbp_login`. -/
def anonymous : Login := ⟨text "anonymous", [], by decide, by decide⟩

/-- The entries of `SBP_PREPARE_REQUEST`; `tran_usr` has no room for a NUL behind the longest
names. -/
def prepareRequest (l : Login) : Except Stop (List HeadEntry) :=
  let tranUsr := ascii "Client_" ++ bytesOf l.usr
  if tranUsr.length + 1 ≤ TRAN_USERNAME_LEN then .ok [⟨USER, tranUsr⟩, ⟨PASS, bytesOf l.pass⟩]
  else .error .fault

/-- `Arg0`, `Arg1` and so on. -/
def argName (i : Nat) : Str := ascii "Arg" ++ numeral 10 i

def argEntries (args : List Str) : List HeadEntry := args.mapIdx fun i a => ⟨argName i, a⟩

/-- The message made of `SBP_PREPARE_REQUEST`, the `mkent` lines and `make_head`. -/
def request (l : Login) (method argc : String) (args : List Str) : Except Stop (Option Str) := do
  let usr ← prepareRequest l
  return makeHead PROTOCOL (usr ++ [⟨METHOD, ascii method⟩, ⟨ARGC, ascii argc⟩] ++
    argEntries args ++ [⟨CONTENT_LEN, ascii "0"⟩])

/-! ## The API functions -/

def sbpOpen (l : Login) (filename : CStr) (oflag : UInt32) (mode : UInt16) :=
  request l "OPEN" "3"
    [bytesOf filename, decimal 8 (s32 oflag.toNat), decimal 4 (mode.toNat : Int)]

def sbpStat (l : Login) (filename : CStr) := request l "STAT" "1" [bytesOf filename]

def sbpClose (l : Login) (serverFd : UInt64) :=
  request l "CLOSE" "1" [decimal 0 (s64 serverFd.toNat)]

def sbpOpendir (l : Login) (filename : CStr) := request l "OPENDIR" "1" [bytesOf filename]

def sbpClosedir (l : Login) (serverFd : UInt64) :=
  request l "CLOSEDIR" "1" [decimal 0 (s64 serverFd.toNat)]

def sbpReaddir (l : Login) (serverFd offset : UInt64) :=
  request l "READDIR" "2" [decimal 0 (s64 serverFd.toNat), decimal 0 (s64 offset.toNat)]

def sbpMkdir (l : Login) (filename : CStr) := request l "MKDIR" "1" [bytesOf filename]

def sbpRmdir (l : Login) (filename : CStr) := request l "RMDIR" "1" [bytesOf filename]

def sbpReadOrWrite (l : Login) (serverFd offset len : UInt64) (method : String) :=
  request l method "3" [decimal 0 (s64 serverFd.toNat), decimal 0 (s64 offset.toNat),
    decimal 0 (s64 len.toNat)]

def sbpRead (l : Login) (serverFd offset len : UInt64) :=
  sbpReadOrWrite l serverFd offset len "READ"

def sbpWrite (l : Login) (serverFd offset len : UInt64) :=
  sbpReadOrWrite l serverFd offset len "WRITE"

def sbpMove (l : Login) (dst src : CStr) := request l "MOVE" "2" [bytesOf dst, bytesOf src]

def sbpRemove (l : Login) (filename : CStr) := request l "REMOVE" "1" [bytesOf filename]

/-- The mode is written in hexadecimal. -/
def sbpChmod (l : Login) (filename : CStr) (mode : UInt16) :=
  request l "CHMOD" "2" [bytesOf filename, hex 4 mode.toNat]

def sbpChown (l : Login) (filename newowner : CStr) :=
  request l "CHOWN" "2" [bytesOf filename, bytesOf newowner]

end Sbpfs.Libc.Request
