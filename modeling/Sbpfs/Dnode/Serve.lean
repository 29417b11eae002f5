import Sbpfs.Dnode.Blockman
import Sbpfs.Libc.Transfer

/-!
# Serving a request for a block

`serve` and `process_req` of the data node. A request is taken apart into a `list_entry`, the
block is read or written, and what is to be sent goes out in messages of a head and data.
-/
namespace Sbpfs.Dnode.Serve

open Sbpfs.Lib.Program
open Sbpfs.Cfs.Layout (u32 u64OfInt s32)
open Sbpfs.Wire.Head Sbpfs.Wire.Number Sbpfs.Libc.Request
open Sbpfs.Libc.Table (REQUEST_OK REQUEST_ERR)
open Sbpfs.Libc.Transfer Sbpfs.Dnode.Blockman

def ERR_TYPE : Str := ascii "Error-Type"
def ERR_DETAIL : Str := ascii "Error-Detail"

structure ListEntry where
  req : UInt32
  offset : UInt32
  length : UInt32
  blockNum : UInt64
  dataLength : UInt64
  data : Str
  deriving DecidableEq

/-- A connection: the node, and the messages sent so far. -/
structure Conn where
  node : DNode
  sent : List Answer

abbrev SM (α : Type) := Prog Conn α

/-- A part of the work that is done on the node alone. -/
def onNode {α : Type} (m : DM α) : SM α := focus Conn.node (fun d c => { c with node := d }) m

/-- The outcome of the next `malloc`. -/
def nextMalloc : DM Bool := do
  let d ← get
  set { d with env := { d.env with mallocs := fun k => d.env.mallocs (k + 1) } }
  return d.env.mallocs 0

def nextSend : DM Bool := do
  let d ← get
  set { d with env := { d.env with sends := fun k => d.env.sends (k + 1) } }
  return d.env.sends 0

/-- `make_head`, which allocates the head, and the `sbp_send` of it; few entries always have room in
a head. -/
def sendHead : SM Bool := do
  if ← onNode nextMalloc then onNode nextSend else return false

/-- The head and, if it has gone out, the data. -/
def sendHeadData : SM Bool := do
  if ← sendHead then onNode nextSend else return false

/-- A message is sent when all its parts have gone out; a head alone is none. -/
def sendMessage (parts : SM Bool) (a : Answer) : SM Unit := do
  if ← parts then
    modify fun c => { c with sent := c.sent ++ [a] }
  else return ()

def sendErr (errType errDetail : String) : SM Unit :=
  sendMessage sendHead ⟨REQUEST_ERR, [⟨ERR_TYPE, ascii errType⟩, ⟨ERR_DETAIL, ascii errDetail⟩,
    ⟨CONTENT_LEN, ascii "0"⟩], []⟩

/-- The branch for READ. -/
def processRead (ent : ListEntry) : SM Unit := do
  if ← onNode nextMalloc then
    let c ← get
    let (succeed, data) ← onNode (readblock ent.blockNum ent.offset ent.length c.node.env.stray)
    if succeed < 0 then sendErr "read_block" "cannot read block"
    else
      sendMessage sendHeadData ⟨REQUEST_OK, [⟨CONTENT_LEN, decimal 0 (s32 ent.length.toNat)⟩],
        (List.range ent.length.toNat).map data⟩
  else return ()

/-- The branch for WRITE. After a failure the head is made from a variable that was not
assigned. -/
def processWrite (ent : ListEntry) : SM Unit := do
  let succeed ← onNode (writeblock ent.blockNum ent.offset ent.length ent.data)
  if succeed < 0 then
    sendErr "write_block" "cannot write block"
    fault
  else sendMessage sendHead ⟨REQUEST_OK, [⟨CONTENT_LEN, ascii "0"⟩], []⟩

/-- The branch for Copy is never answered. -/
def processCopy (ent : ListEntry) : SM Unit := do
  let _ ← onNode (writeblock ent.blockNum ent.offset ent.length ent.data)
  return ()

def processReq (ent : ListEntry) : SM Unit :=
  if ent.req = 1 then processRead ent
  else if ent.req = 2 then processWrite ent
  else if ent.req = 3 then processCopy ent
  else return ()

/-- `ent->req` for a method. -/
def reqOf (method : Str) : Option UInt32 :=
  if method = ascii "READ" then some 1
  else if method = ascii "WRITE" then some 2
  else if method = ascii "Copy" then some 3
  else none

/-- C's `atoi`, assigned to an unsigned int. -/
def atou (s : Str) : UInt32 := UInt32.ofNat (u32 (u64OfInt (atoll s)))

/-- C's `atoll`, assigned to an unsigned long long. -/
def atoull (s : Str) : UInt64 := UInt64.ofNat (u64OfInt (atoll s))

/-- The `list_entry` of a request with the given entries; `data` is the memory behind the head. -/
def entryOf (entrys : List HeadEntry) (data : Str) : Option ListEntry := do
  let req ← (valueOf entrys METHOD).bind reqOf
  let blockNumS ← valueOf entrys (argName 0)
  let offsetS ← valueOf entrys (argName 1)
  let lengthS ← valueOf entrys (argName 2)
  let contentLenS ← valueOf entrys CONTENT_LEN
  return {
    req := req
    offset := atou offsetS
    length := atou lengthS
    blockNum := atoull blockNumS
    dataLength := if req = 1 then 0 else atoull contentLenS
    data := if req = 1 then [] else data }

/-- `serve` behind `decode_head`. -/
def serveFields (entrys : List HeadEntry) (data : Str) : SM Unit :=
  match entryOf entrys data with
  | none => return ()
  | some ent => processReq ent

/-- `serve` with what `sbp_recv` has received, `none` for its -1. `mem` is the outcome of the
allocation in `decode_head`. -/
def serve (mem : Bool) (received : Option Str) : SM Unit :=
  match received with
  | none => return ()
  | some recBuf =>
    if cstr recBuf 0 = [] then return ()
    else fun c =>
      match decodeHead mem recBuf with
      | .error e => .error e
      | .ok none => .ok ((), c)
      | .ok (some head) => serveFields head.strings (recBuf.drop head.headLen) c

end Sbpfs.Dnode.Serve
