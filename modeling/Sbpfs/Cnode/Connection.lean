import Sbpfs.Wire.Head
import Sbpfs.Wire.Number

/-! A connection to the control node: reading a message and choosing who handles it. -/
namespace Sbpfs.Cnode.Message

open Sbpfs.Lib.Search Sbpfs.Wire.Head

/-- `buffer.split('\r\n\r\n', 1)` for a buffer that holds the end of a head: the head and the
body. -/
def splitMessage (buffer : Str) : Str × Str :=
  match splitN headerFlag 1 buffer with
  | head :: body :: _ => (head, body)
  | _ => (buffer, [])

/-- The fields of the message in the buffer. -/
def readFields (buffer : Str) : Option Dict := parseHead (splitMessage buffer).1

end Sbpfs.Cnode.Message

namespace Sbpfs.Cnode.Connection

open Sbpfs.Lib.Search Sbpfs.Wire.Head Sbpfs.Wire.Number Sbpfs.Cnode.Message

def VERSION : Str := ascii "SBPFS/1.0"

def clientPrefix : Str := ascii "Client_"
def dnodePrefix : Str := ascii "DNode_"

/-- Why a message is not handled. -/
inductive Refusal
  | senderr (type detail : Str)
  | closed
  | assertion
  deriving DecidableEq, Repr

/-- `Connection.__readmsg`: `buffer` is what was received when the end of the head showed up,
`rest` what the peer sends behind it. -/
def readmsg (buffer rest : Str) : Except Refusal (Dict × Str) :=
  let data := (splitMessage buffer).2
  match readFields buffer with
  | none => .error (.senderr (ascii "SyntaxError") (ascii "Head error"))
  | some d =>
    let protocol := (d.get (ascii "Protocol")).getD []
    if protocol ≠ VERSION then
      .error (.senderr (ascii "ProtocolError") (ascii "Unknown Protocal: " ++ protocol))
    else
      match d.get (ascii "Content-Length") with
      | some length =>
        match pyInt length with
        | none =>
          .error (.senderr (ascii "TypeError") (ascii "Expect Content-Length to be an integer"))
        | some conlen =>
          if (data.length : Int) < conlen then
            if (data ++ rest).length < conlen then .error .closed
            else .ok (d, (data ++ rest).take conlen.toNat)
          else .ok (d, data)
      | none => if data = [] then .ok (d, data) else .error .assertion

/-- `s.replace(old, '')`. -/
def remove (old s : Str) : Str := (split old s).flatten

/-- Who handles a message. -/
inductive Handler
  | client (user password : Str) (head : Dict) (data : Str)
  | dnode (head : Dict) (data : Str)
  | unknown (head : Dict) (data : Str)
  deriving DecidableEq, Repr

/-- The choice `Connection.run` makes on a message. -/
def handler (head : Dict) (data : Str) : Except Refusal Handler :=
  match head.get (ascii "User") with
  | none => .error (.senderr (ascii "NoUserError") (ascii "No User Name"))
  | some user =>
    if clientPrefix <+: user then
      match head.get (ascii "Password") with
      | none => .error (.senderr (ascii "NoPasswordError") (ascii "No Password"))
      | some password => .ok (.client (remove clientPrefix user) password head data)
    else if dnodePrefix <+: user then .ok (.dnode head data)
    else .ok (.unknown head data)

/-- `Connection.run` up to the call of the handler. -/
def run (buffer rest : Str) : Except Refusal Handler := do
  let msg ← readmsg buffer rest
  handler msg.1 msg.2

end Sbpfs.Cnode.Connection
