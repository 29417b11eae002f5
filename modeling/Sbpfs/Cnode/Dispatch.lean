import Sbpfs.Cnode.Connection
import Sbpfs.Cnode.Ops
import Sbpfs.Cnode.Users
import Sbpfs.Libc.Request

/-!
# Serving a client

What `Connection` does with the message of a client: the user is checked, the method and
its arguments are taken from the head, and the method of `DTree` is called; what it returns
or raises goes back in a reply. A request may be answered more than once, and exceptions
that no clause names end the connection.
-/
namespace Sbpfs.Cnode.Dispatch

open Sbpfs.Lib.Program Sbpfs.Lib.Raise
open Sbpfs.Wire.Head Sbpfs.Wire.Number Sbpfs.Libc.Request
open Sbpfs.Cnode.Pool Sbpfs.Cnode.Libcfs Sbpfs.Cnode.Ops
open Sbpfs.Cnode.Users (UsersInfo)

/-! ## Replies -/

/-- A reply; `data` is what the bytes behind the head are made of. -/
structure Reply where
  statusline : Str
  fields : Dict
  data : Value
  deriving DecidableEq

/-- A connection: the node behind it, and the replies sent so far. -/
structure Conn where
  node : CtrlNode
  sent : List Reply

abbrev Serve (α : Type) := Raising Exc Conn α

def send (r : Reply) : Serve Unit := modifyState fun c => { c with sent := c.sent ++ [r] }

def MAX_FILENAME : Nat := 256

/-- The bytes of the data: `sendblock_t`s, a `stat_t`, or the type and the name of an entry. -/
def dataLen : Value → Nat
  | .blocks data => 32 * data.length
  | .stat _ => 64
  | .entry _ _ => 1 + MAX_FILENAME
  | _ => 0

def senderr (type detail : Str) : Serve Unit :=
  send ⟨ascii "SBPFS/1.0 ERROR", [(ascii "User", ascii "CNode_0"),
    (ascii "Content-Length", ascii "0"), (ascii "Error-Type", type),
    (ascii "Error-Detail", detail)], .none⟩

/-- The reply with what a method returned. -/
def okWith (d : Dict) (data : Value) : Reply :=
  ⟨ascii "SBPFS/1.0 OK", d ++ [(ascii "User", ascii "CNode_0"),
    (ascii "Content-Length", decimal 0 (dataLen data))], data⟩

def sendrep (d : Dict) (data : Value) : Serve Unit := send (okWith d data)

def sendok : Serve Unit := sendrep [] .none

/-! ## The methods -/

/-- A call of a method of `DTree`. -/
def onDTree {α : Type} (m : Py α) : Serve α := within Conn.node (fun n c => { c with node := n }) m

/-- `except DTreeError as e`. -/
def exceptDTree (m : Serve Unit) : Serve Unit :=
  rescue m fun
    | .dtree type msg => some (senderr type msg)
    | _ => none

/-- A method of `DTree`, and the reply with what it returned. -/
def answer {α : Type} (m : Py α) (rep : α → Serve Unit) : Serve Unit :=
  exceptDTree (onDTree m >>= rep)

def genericDoMethod (m : Py Unit) : Serve Unit := answer m fun _ => sendok

section Methods

variable (users : UsersInfo) (uid : Int)

def read (fd offset length : Str) : Serve Unit :=
  answer (DTree.read fd offset length uid) fun data => sendrep [] (.blocks data)

def readdir (dd en : Str) : Serve Unit :=
  answer (DTree.readdir dd en uid) fun q => sendrep [] (.entry q.1 q.2)

def write (fd offset length : Str) : Serve Unit :=
  answer (DTree.write fd offset length uid) fun data => sendrep [] (.blocks data)

def remove (filename : Str) : Serve Unit := genericDoMethod (DTree.remove filename uid)

def move (dst src : Str) : Serve Unit := genericDoMethod (DTree.move dst src uid)

def mkdir (dirname : Str) : Serve Unit := genericDoMethod (DTree.mkdir dirname uid)

def rmdir (dirname : Str) : Serve Unit := genericDoMethod (DTree.rmdir dirname uid)

def openFile (filename oflags mode : Str) : Serve Unit :=
  answer (DTree.openFile filename oflags mode uid) fun fd =>
    sendrep [(ascii "FD", decimal 0 fd), (ascii "Auth-Code", List.replicate 32 0x78)] .none

def opendir (dirname : Str) : Serve Unit :=
  answer (DTree.opendir dirname uid) fun q =>
    sendrep [(ascii "DirFD", decimal 0 q.1), (ascii "DirEntryNum", decimal 0 q.2)] .none

def close (fd : Str) : Serve Unit := genericDoMethod (DTree.close fd uid)

def closedir (dd : Str) : Serve Unit := genericDoMethod (DTree.closedir dd uid)

def chown (filename username : Str) : Serve Unit :=
  match UsersInfo.findUid users username with
  | none => senderr (ascii "InvalidUser") (ascii "invalid user: " ++ username)
  | some newuid => genericDoMethod (DTree.chown filename newuid uid)

def chmod (filename mode : Str) : Serve Unit := genericDoMethod (DTree.chmod filename mode uid)

def stat (filename : Str) : Serve Unit :=
  answer (DTree.stat filename uid) fun data => sendrep [] (.stat data)

end Methods

inductive Method where
  | read | readdir | write | remove | move | mkdir | rmdir | openFile | opendir | close | closedir
  | chown | chmod | stat
  deriving DecidableEq, Repr

/-- `do_method`. -/
def methods : List (Str × Method) :=
  [(ascii "READ", .read), (ascii "READDIR", .readdir), (ascii "WRITE", .write),
    (ascii "REMOVE", .remove), (ascii "MOVE", .move), (ascii "MKDIR", .mkdir),
    (ascii "RMDIR", .rmdir), (ascii "OPEN", .openFile), (ascii "OPENDIR", .opendir),
    (ascii "CLOSE", .close), (ascii "CLOSEDIR", .closedir), (ascii "CHOWN", .chown),
    (ascii "CHMOD", .chmod), (ascii "STAT", .stat)]

def doMethod (method : Str) : Option Method := (methods.find? fun q => q.1 = method).map Prod.snd

/-- The name of the method in messages, and how many arguments it takes. -/
def Method.signature : Method → String × Nat
  | .read => ("__read", 3)
  | .readdir => ("__readdir", 2)
  | .write => ("__write", 3)
  | .remove => ("__remove", 1)
  | .move => ("__move", 2)
  | .mkdir => ("__mkdir", 1)
  | .rmdir => ("__rmdir", 1)
  | .openFile => ("__open", 3)
  | .opendir => ("__opendir", 1)
  | .close => ("__close", 1)
  | .closedir => ("__closedir", 1)
  | .chown => ("__chown", 2)
  | .chmod => ("__chmod", 2)
  | .stat => ("__stat", 1)

/-- The interpreter's message counts `self`. -/
def arityError (m : Method) (given : Nat) : Exc :=
  .typeError (ascii m.signature.1 ++ ascii "() takes exactly " ++ numeral 10 (m.signature.2 + 1) ++
    ascii " arguments (" ++ numeral 10 (given + 1) ++ ascii " given)")

/-- `do_method[method](*args)`. -/
def invoke (users : UsersInfo) (uid : Int) (m : Method) (args : List Str) : Serve Unit :=
  match m, args with
  | .read, [fd, offset, length] => read uid fd offset length
  | .readdir, [dd, en] => readdir uid dd en
  | .write, [fd, offset, length] => write uid fd offset length
  | .remove, [filename] => remove uid filename
  | .move, [dst, src] => move uid dst src
  | .mkdir, [dirname] => mkdir uid dirname
  | .rmdir, [dirname] => rmdir uid dirname
  | .openFile, [filename, oflags, mode] => openFile uid filename oflags mode
  | .opendir, [dirname] => opendir uid dirname
  | .close, [fd] => close uid fd
  | .closedir, [dd] => closedir uid dd
  | .chown, [filename, username] => chown users uid filename username
  | .chmod, [filename, mode] => chmod uid filename mode
  | .stat, [filename] => stat uid filename
  | m, args => raise (arityError m args.length)

/-! ## Requests -/

/-- `except TypeError as e` and `except ValueError as e`. -/
def exceptArguments (m : Serve Unit) : Serve Unit :=
  rescue m fun
    | .typeError msg => some (senderr (ascii "ArguementError") msg)
    | .valueError => some (senderr (ascii "ArguementError") (ascii "Wrong type"))
    | _ => none

def checkMissingKey (head : Dict) (key type detail : Str) : Serve Bool :=
  if head.hasKey key then return false
  else do
    senderr type detail
    return true

/-- `range(0, argc)`. The interpreter has memory for a list of `room` numbers. -/
def range (room : Nat) (argc : Int) : Serve (List Nat) :=
  if 2 ^ 63 ≤ argc then raise .overflowError
  else if room < argc then raise .memoryError
  else return List.range argc.toNat

/-- The loop over the arguments, `none` once one is missing. -/
def collectArgs (head : Dict) : List Nat → Serve (Option (List Str))
  | [] => return some []
  | i :: is => do
    if ← checkMissingKey head (argName i) (ascii "No" ++ argName i ++ ascii "Error")
        (ascii "Missing arguement " ++ numeral 10 i) then return none
    else
      let args ← collectArgs head is
      return args.map fun args => (head.get (argName i)).getD [] :: args

/-- `__handle_client` from the method on. A method that is not in the table is looked up all
the same. -/
def serveMethod (users : UsersInfo) (uid : Int) (method : Str) (args : List Str) : Serve Unit :=
  match doMethod method with
  | none => do
    senderr (ascii "MethodError") (ascii "No Such Method: " ++ method)
    exceptArguments (raise .keyError)
  | some m => exceptArguments (invoke users uid m args)

/-- `__handle_client` behind the check of the user. An `Argc` that is no number is reported,
and then missing. -/
def serveRequest (users : UsersInfo) (room : Nat) (uid : Int) (head : Dict) : Serve Unit := do
  if ← checkMissingKey head METHOD (ascii "NoMethodError") (ascii "No Method") then return ()
  else if ← checkMissingKey head ARGC (ascii "NoArgcError") (ascii "No Argc") then return ()
  else
    match pyInt ((head.get ARGC).getD []) with
    | none => do
      senderr (ascii "TypeError") (ascii "Expect Argc to be an integer")
      raise .unboundLocalError
    | some argc => do
      let is ← range room argc
      match ← collectArgs head is with
      | none => return ()
      | some args => serveMethod users uid ((head.get METHOD).getD []) args

/-- `__handle_client`. A user without a number is unknown, and fails the check. -/
def handleClient (users : UsersInfo) (room : Nat) (username password : Str) (head : Dict) :
    Serve Unit :=
  if UsersInfo.check users username password then
    match UsersInfo.findUid users username with
    | none => return ()
    | some uid => serveRequest users room uid head
  else senderr (ascii "LoginError") (ascii "Username or password not correct")

end Sbpfs.Cnode.Dispatch
