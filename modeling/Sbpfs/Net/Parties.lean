import Sbpfs.Cnode.Replicas
import Sbpfs.Dnode.Serve

/-!
# Client, control node and data nodes

The library of a client linked with the control node and the data nodes. The control node hears
every request and is heard; a data node may not be reached, and its answer may be lost.
-/
namespace Sbpfs.Net.Parties

open Sbpfs.Lib.Program
open Sbpfs.Wire.Head Sbpfs.Libc.Transfer
open Sbpfs.Cnode.Libcfs Sbpfs.Cnode.Dispatch Sbpfs.Cnode.Replicas
open Sbpfs.Dnode.Blockman Sbpfs.Dnode.Serve
open Sbpfs.Cnode.Users (UsersInfo)

/-- What becomes of a request to a data node. -/
inductive Fate where
  | refused
  | served (heard : Bool)
  deriving DecidableEq, Repr

/-- The data nodes by their addresses, `none` for one that has run into undefined behaviour or
that there is not, and the fates of the coming requests. -/
structure Cluster where
  ctrl : CtrlNode
  nodes : UInt32 → Option DNode
  fates : Nat → Fate

/-- The bytes of a list of `sendblock_t`s. -/
def blockBytes (blocks : List Cfs.Data.SendBlock) : Str :=
  (blocks.map fun b => pack b (List.replicate 4 0)).flatten

/-- A reply of the control node as it is received. Only lists of blocks are asked for here. -/
def answerOf (r : Reply) : Answer :=
  ⟨r.statusline, r.fields.map fun f => ⟨f.1, f.2⟩,
    match r.data with
    | .blocks data => blockBytes data
    | _ => []⟩

/-- A request of the user `uid`; the first reply is what is heard. -/
def control (users : UsersInfo) (uid : Int) (method : String) (args : List Str) :
    Prog Cluster (Option Answer) := fun s =>
  match serveMethod users uid (ascii method) args ⟨s.ctrl, []⟩ with
  | .ok (_, c) => .ok (c.sent.head?.map answerOf, { s with ctrl := c.node })
  | .error e => .error e

/-- The fates of the requests behind the next one. -/
def Cluster.next (s : Cluster) : Cluster := { s with fates := fun k => s.fates (k + 1) }

def Cluster.setNode (s : Cluster) (a : UInt32) (d : Option DNode) : Cluster :=
  { s with nodes := Function.update s.nodes a d }

/-- A connection that is refused ends the request. -/
def connect (a : UInt32) : Prog Cluster Bool := fun s =>
  if s.fates 0 = .refused ∨ s.nodes a = none then .ok (false, s.next) else .ok (true, s)

/-- The data node finds a NUL behind the data. -/
def transfer (a : UInt32) (entrys : List HeadEntry) (data : Str) : Prog Cluster (Option Answer) :=
  fun s =>
  match s.nodes a with
  | none => .ok (none, s.next)
  | some d =>
    match serveFields entrys (data ++ [0]) ⟨d, []⟩ with
    | .ok (_, c) => .ok (if s.fates 0 = .served true then c.sent.head? else none,
        (s.setNode a (some c.node)).next)
    | .error _ => .ok (none, (s.setNode a none).next)

def netLink (users : UsersInfo) (uid : Int) : Link Cluster := ⟨control users uid, connect, transfer⟩

end Sbpfs.Net.Parties
