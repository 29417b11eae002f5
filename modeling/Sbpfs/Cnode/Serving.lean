import Sbpfs.Lib.Pack
import Sbpfs.Cnode.Fragments
import Sbpfs.Cnode.ReplyLaws

/-!
# Serving a connection

`Connection.run` with what `recv` returns, up to the end of the connection: a client's request, a
report of a data node, or neither. Whatever the bytes are, the node behind the connection goes as
one call of `DTree` goes, or not at all.
-/
namespace Sbpfs.Cnode.Serving

open Sbpfs.Lib.Program Sbpfs.Lib.Raise Sbpfs.Lib.Pack
open Sbpfs.Wire.Head Sbpfs.Wire.Number Sbpfs.Libc.Request
open Sbpfs.Cnode.Libcfs Sbpfs.Cnode.Ops Sbpfs.Cnode.Connection
open Sbpfs.Cnode.Dispatch (Conn Serve Reply Method senderr sendok sendrep send
  onDTree doMethod answer genericDoMethod exceptDTree exceptArguments invoke
    serveMethod serveRequest
  handleClient collectArgs checkMissingKey)
open Sbpfs.Cnode.ReplyLaws
open Sbpfs.Cnode.Users (UsersInfo)

/-! ## The handler of a data node -/

/-- How a connection ends by an exception: one that a method has raised, or one of its own. -/
inductive ConnExc where
  | raised (e : Exc)
  | structError
  | assertionError
  deriving DecidableEq, Repr

abbrev Handling (α : Type) := Raising ConnExc Conn α

/-- A part that raises what methods raise. -/
def inServe {α : Type} (m : Serve α) : Handling α := fun c =>
  match m c with
  | .ok (.ok a, c) => .ok (.ok a, c)
  | .ok (.error e, c) => .ok (.error (.raised e), c)
  | .error stop => .error stop

def BLOCK_NUM : Str := ascii "BlockNum"

/-- The first `k` unsigned long longs of the data. -/
def numbersIn (k : Nat) (data : Str) : List Nat :=
  (List.range k).map fun i => ofLE (slice data (8 * i) 8)

/-- `struct.unpack('Q'*blocknum, data)`. The interpreter has memory for a format of `room`
characters; a negative number makes an empty one. -/
def unpackNumbers (room : Nat) (blocknum : Int) (data : Str) : Except ConnExc (List Nat) :=
  if blocknum < -2 ^ 63 ∨ 2 ^ 63 ≤ blocknum then .error (.raised .overflowError)
  else if room < blocknum then .error (.raised .memoryError)
  else if data.length = 8 * blocknum.toNat then .ok (numbersIn blocknum.toNat data)
  else .error .structError

section Handlers

variable (order : List Str) (room : Nat) (addr : Str)

/-- `__handle_dnode`. A `BlockNum` that is no number is reported, and then missing. -/
def handleDnode (head : Dict) (data : Str) : Handling Unit := do
  if ← inServe (checkMissingKey head BLOCK_NUM (ascii "NoBlockNumError")
    (ascii "Content-Length")) then
    return ()
  else
    match pyInt ((head.get BLOCK_NUM).getD []) with
    | none => do
      inServe (senderr (ascii "TypeError") (ascii "BLockNum is not an integer"))
      raise (.raised .unboundLocalError)
    | some blocknum =>
      let user := Connection.remove dnodePrefix ((head.get USER).getD [])
      match unpackNumbers room blocknum data with
      | .error e => raise e
      | .ok l => do
        inServe (onDTree (DTree.addBlockInfo order l user addr))
        inServe sendok

def handleUnknown : Handling Unit :=
  inServe (senderr (ascii "UserNameError") (ascii "Unknown user"))

variable (users : UsersInfo)

/-- The handler that is chosen for a message. -/
def handle : Handler → Handling Unit
  | .client user password head _ => inServe (handleClient users room user password head)
  | .dnode head data => handleDnode order room addr head data
  | .unknown _ _ => handleUnknown

/-- What becomes of a message that is not handled. -/
def refuse : Refusal → Handling Unit
  | .senderr type detail => inServe (senderr type detail)
  | .closed => return ()
  | .assertion => raise .assertionError

/-- `Connection.run` on the pieces that `recv` returns. The interpreter lists the keys of `ipmap`
in the given order once the data node is entered. -/
def serveConnection (chunks : List Str) : Handling Unit :=
  match readmsgFrom chunks with
  | .error r => refuse r
  | .ok (head, data) =>
    match handler head data with
    | .error r => refuse r
    | .ok h => handle order room addr users h

/-! ## The call a message comes down to -/

/-- The call that the request of the user `uid` makes. -/
def requestOp (uid : Int) (head : Dict) : Option Op := do
  let method ← head.get METHOD
  let argc ← head.get ARGC
  let z ← pyInt argc
  if z < 2 ^ 63 ∧ z ≤ room then
    let args ← argsOf head (List.range z.toNat)
    let m ← doMethod method
    opOf users uid m args
  else none

/-- The call that a client's message makes: the password is checked first. -/
def clientOp (user password : Str) (head : Dict) : Option Op :=
  if UsersInfo.check users user password then
    (UsersInfo.findUid users user).bind fun uid => requestOp room users uid head
  else none

/-- The numbers that a data node's message holds. -/
def reported (head : Dict) (data : Str) : Option (List Nat) := do
  let text ← head.get BLOCK_NUM
  let blocknum ← pyInt text
  (unpackNumbers room blocknum data).toOption

/-- The data node as it is entered. -/
def dnodeName (head : Dict) : Str := Connection.remove dnodePrefix ((head.get USER).getD [])

def handlerOp : Handler → Option Op
  | .client user password head _ => clientOp room users user password head
  | .dnode head data =>
      (reported room head data).map fun l => .addBlockInfo order l (dnodeName head) addr
  | .unknown _ _ => none

/-- The message in the pieces, if it gets to a handler. -/
def messageOf (chunks : List Str) : Option Handler :=
  (readmsgFrom chunks).toOption.bind fun q => (handler q.1 q.2).toOption

/-- The call that the message in the pieces makes. -/
def connectionOp (chunks : List Str) : Option Op :=
  (messageOf chunks).bind (handlerOp order room addr users)

end Handlers

/-! ## The node behind a connection -/

/-- The node as a run leaves it. -/
def nodeOf {ε α : Type} (q : Except Stop (Except ε α × Conn)) : Except Stop CtrlNode :=
  q.map fun p => p.2.node

/-- The node as the call leaves it, and as it is without one. -/
def called (op : Option Op) (n : CtrlNode) : Except Stop CtrlNode :=
  op.elim (.ok n) fun op => (op.run n).map Prod.snd

section Follow

variable {ε α β : Type} {c : Conn}

/-- Replies leave the node alone. -/
structure Replies (m : Raising ε Conn α) : Prop where
  node : ∀ c, nodeOf (m c) = .ok c.node

theorem replies_send (r : Reply) : Replies (send r) := ⟨fun _ => rfl⟩

theorem replies_senderr (type detail : Str) : Replies (senderr type detail) := replies_send _

theorem replies_sendrep (d : Dict) (data : Value) : Replies (sendrep d data) := replies_send _

theorem replies_raise (e : ε) : Replies (raise e : Raising ε Conn α) := ⟨fun _ => rfl⟩

theorem replies_pure (a : α) : Replies (pure a : Raising ε Conn α) := ⟨fun _ => rfl⟩

theorem nodeOf_bind {m : Raising ε Conn α} {f : α → Raising ε Conn β} (h : ∀ a, Replies (f a)) :
    nodeOf ((m >>= f) c) = nodeOf (m c) := by
  cases hm : m c with
  | error stop =>
    rw [bind_stop hm]
    rfl
  | ok q =>
    obtain ⟨r, c'⟩ := q
    cases r with
    | error e =>
      rw [bind_raise hm]
      rfl
    | ok a =>
      rw [bind_step hm]
      exact (h a).node c'

theorem replies_bind {m : Raising ε Conn α} {f : α → Raising ε Conn β} (hm : Replies m)
    (h : ∀ a, Replies (f a)) : Replies (m >>= f) :=
  ⟨fun c => (nodeOf_bind h).trans (hm.node c)⟩

theorem nodeOf_rescue {m : Raising ε Conn α} {h : ε → Option (Raising ε Conn α)}
    (hh : ∀ e k, h e = some k → Replies k) : nodeOf (rescue m h c) = nodeOf (m c) := by
  cases hm : m c with
  | error stop => rw [rescue_stop hm]
  | ok q =>
    obtain ⟨r, c'⟩ := q
    cases r with
    | ok a => rw [rescue_returns hm]
    | error e =>
      cases he : h e with
      | none => rw [rescue_raise hm he]
      | some k =>
        rw [rescue_handled hm he]
        exact (hh e k he).node c'

theorem nodeOf_exceptArguments (m : Serve Unit) : nodeOf (exceptArguments m c) = nodeOf (m c) := by
  refine nodeOf_rescue fun e k he => ?_
  cases e with
  | typeError msg =>
    cases he
    exact replies_senderr _ _
  | valueError =>
    cases he
    exact replies_senderr _ _
  | _ => cases he

theorem nodeOf_inServe (m : Serve α) : nodeOf (inServe m c) = nodeOf (m c) := by
  unfold inServe
  rcases m c with stop | ⟨e | a, c'⟩ <;> rfl

theorem replies_inServe {m : Serve α} (h : Replies m) : Replies (inServe m) :=
  ⟨fun c => (nodeOf_inServe m).trans (h.node c)⟩

/-- A method of `DTree` and its reply. -/
theorem nodeOf_answer {m : Py α} {rep : α → Serve Unit} (hrep : ∀ a, Replies (rep a))
    (f : α → Value) :
    nodeOf (answer m rep c) = ((f <$> m : Py Value) c.node).map Prod.snd := by
  have hanswer : nodeOf (answer m rep c) = nodeOf (onDTree m c) := by
    refine (nodeOf_rescue fun e k he => ?_).trans (nodeOf_bind hrep)
    cases e with
    | dtree type msg =>
      cases he
      exact replies_senderr _ _
    | _ => cases he
  rw [hanswer]
  unfold onDTree
  cases hm : m c.node with
  | error stop =>
    have hmap : (f <$> m : Py Value) c.node = .error stop := bind_stop hm _
    rw [within_stop hm, hmap]
    rfl
  | ok q =>
    obtain ⟨r, n'⟩ := q
    rw [within_run hm]
    cases r with
    | error e =>
      have hmap : (f <$> m : Py Value) c.node = .ok (.error e, n') := bind_raise hm _
      rw [hmap]
      rfl
    | ok a =>
      have hmap : (f <$> m : Py Value) c.node = .ok (.ok (f a), n') := bind_step hm _
      rw [hmap]
      rfl

theorem nodeOf_generic {m : Py Unit} :
    nodeOf (genericDoMethod m c) = (((fun _ => Value.none) <$> m : Py Value) c.node).map Prod.snd :=
  nodeOf_answer (fun _ => replies_sendrep _ _) _

variable {users : UsersInfo} {uid : Int}

theorem nodeOf_chown {filename username : Str} :
    nodeOf (Dispatch.chown users uid filename username c)
    = called ((UsersInfo.findUid users username).map fun newuid =>
      .chown filename newuid uid) c.node := by
  unfold Dispatch.chown
  cases UsersInfo.findUid users username with
  | none => rfl
  | some newuid => exact nodeOf_generic

/-- A method with its arguments. -/
theorem nodeOf_invoke (m : Method) (args : List Str) :
    nodeOf (invoke users uid m args c) = called (opOf users uid m args) c.node := by
  fun_cases invoke users uid m args
  · exact nodeOf_answer (fun _ => replies_sendrep _ _) _
  · exact nodeOf_answer (fun _ => replies_sendrep _ _) _
  · exact nodeOf_answer (fun _ => replies_sendrep _ _) _
  · exact nodeOf_generic
  · exact nodeOf_generic
  · exact nodeOf_generic
  · exact nodeOf_generic
  · exact nodeOf_answer (fun _ => replies_sendrep _ _) _
  · exact nodeOf_answer (fun _ => replies_sendrep _ _) _
  · exact nodeOf_generic
  · exact nodeOf_generic
  · exact nodeOf_chown
  · exact nodeOf_generic
  · exact nodeOf_answer (fun _ => replies_sendrep _ _) _
  · -- the patterns of the call are those of the method
    unfold opOf
    split
    all_goals first | rfl | (exfalso; solve_by_elim [rfl])

/-! ## The node behind a request -/

theorem replies_checkMissingKey (head : Dict) (key type detail : Str) :
    Replies (checkMissingKey head key type detail) := by
  unfold checkMissingKey
  split
  · exact replies_pure _
  · exact replies_bind (replies_senderr _ _) fun _ => replies_pure _

theorem replies_collectArgs (head : Dict) (is : List Nat) : Replies (collectArgs head is) := by
  induction is with
  | nil => exact replies_pure _
  | cons i is ih =>
    refine replies_bind (replies_checkMissingKey _ _ _ _) fun missing => ?_
    cases missing with
    | true => exact replies_pure _
    | false => exact replies_bind ih fun _ => replies_pure _

theorem nodeOf_serveMethod (method : Str) (args : List Str) :
    nodeOf (serveMethod users uid method args c)
      = called ((doMethod method).bind fun m => opOf users uid m args) c.node := by
  unfold serveMethod
  cases doMethod method with
  | none =>
    refine (replies_bind (replies_senderr _ _) fun _ => ⟨fun c => ?_⟩).node c
    rw [nodeOf_exceptArguments]
    rfl
  | some m => exact (nodeOf_exceptArguments _).trans (nodeOf_invoke m args)

variable {room : Nat} {head : Dict}

/-- Where counting up to the number of arguments raises an exception, nothing is served. -/
theorem nodeOf_range_raise {z : Int} {e : Exc} {f : List Nat → Serve Unit}
    (h : Dispatch.range room z = raise e) :
    nodeOf ((Dispatch.range room z >>= f) c) = .ok c.node := by
  rw [h, bind_raise (raise_run e c)]
  rfl

theorem nodeOf_serveRequest : nodeOf (serveRequest users room uid head c)
    = called (requestOp room users uid head) c.node := by
  unfold serveRequest requestOp
  have hmissing : ∀ {key type detail : Str} {m : Serve Unit}, head.get key = none →
      nodeOf ((checkMissingKey head key type detail >>= fun b =>
        if b = true then return () else m) c) = .ok c.node := by
    intro key type detail m hget
    obtain ⟨v, hv, -⟩ | ⟨-, c', hrun, -⟩ := checkMissingKey_run head key type detail c
    · cases hget.symm.trans hv
    · have hnode := (replies_checkMissingKey head key type detail).node c
      rw [bind_step hrun]
      rw [hrun] at hnode
      exact hnode
  have hthere : ∀ {key v type detail : Str} {m : Serve Unit}, head.get key = some v →
      (checkMissingKey head key type detail >>= fun b => if b = true then return () else m) c
      = m c := by
    intro key v type detail m hget
    obtain ⟨-, -, hrun⟩ | ⟨hnone, -⟩ := checkMissingKey_run head key type detail c
    · rw [bind_step hrun]
      rfl
    · cases hget.symm.trans hnone
  cases hmethod : head.get METHOD with
  | none => exact hmissing hmethod
  | some method =>
    rw [hthere hmethod]
    cases hargc : head.get ARGC with
    | none => exact hmissing hargc
    | some argc =>
      rw [hthere hargc]
      simp only [Option.getD_some, Option.bind_eq_bind, Option.bind_some]
      cases hz : pyInt argc with
      | none => rfl
      | some z =>
        simp only [Option.bind_some]
        by_cases hbig : 2 ^ 63 ≤ z
        · rw [if_neg fun h => absurd h.1 (Int.not_lt.mpr hbig), nodeOf_range_raise (if_pos hbig)]
          rfl
        by_cases hroom : (room : Int) < z
        · rw [if_neg fun h => absurd h.2 (Int.not_le.mpr hroom), nodeOf_range_raise
            ((if_neg hbig).trans (if_pos hroom))]
          rfl
        rw [if_pos ⟨Int.not_le.mp hbig, Int.not_lt.mp hroom⟩]
        have hrange : Dispatch.range room z c = .ok (.ok (List.range z.toNat), c) := by
          unfold Dispatch.range
          rw [if_neg hbig, if_neg hroom]
          rfl
        rw [bind_step hrange]
        obtain ⟨args, hargs, hrun⟩ | ⟨hargs, c', hrun, -⟩ :=
          collectArgs_run head (List.range z.toNat) c
        · rw [bind_step hrun, hargs]
          exact nodeOf_serveMethod method args
        · have hnode := (replies_collectArgs head (List.range z.toNat)).node c
          rw [bind_step hrun, hargs]
          rw [hrun] at hnode
          exact hnode

theorem nodeOf_handleClient {user password : Str} :
    nodeOf (handleClient users room user password head c)
      = called (clientOp room users user password head) c.node := by
  unfold handleClient clientOp
  by_cases hcheck : UsersInfo.check users user password = true
  · rw [if_pos hcheck, if_pos hcheck]
    cases UsersInfo.findUid users user with
    | none => rfl
    | some uid => exact nodeOf_serveRequest
  · rw [if_neg hcheck, if_neg hcheck]
    rfl

/-- A report that is accepted is answered with OK. -/
theorem handleDnode_accepted {order : List Str} {addr data : Str} {l : List Nat}
    (h : reported room head data = some l) :
    ∃ n', DTree.addBlockInfo order l (dnodeName head) addr c.node = .ok (.ok (), n') ∧
      handleDnode order room addr head data c
        = .ok (.ok (), ⟨n', c.sent ++ [⟨ascii "SBPFS/1.0 OK", [(USER, ascii "CNode_0"),
          (CONTENT_LEN, ascii "0")], .none⟩]⟩) := by
  obtain ⟨text, hget, hrest⟩ := Option.bind_eq_some_iff.mp h
  obtain ⟨blocknum, hint, hunpack⟩ := Option.bind_eq_some_iff.mp hrest
  obtain ⟨-, -, hthere⟩ | ⟨hnone, -⟩ := checkMissingKey_run head BLOCK_NUM (ascii "NoBlockNumError")
    (ascii "Content-Length") c
  swap
  · cases hget.symm.trans hnone
  refine ⟨_, rfl, ?_⟩
  have hcheck : inServe (checkMissingKey head BLOCK_NUM (ascii "NoBlockNumError")
      (ascii "Content-Length")) c = .ok (.ok false, c) := by
    unfold inServe
    rw [hthere]
  unfold handleDnode
  rw [bind_step hcheck, hget, Option.getD_some, hint]
  cases hl : unpackNumbers room blocknum data with
  | error e =>
    rw [hl] at hunpack
    cases hunpack
  | ok l' =>
    rw [hl] at hunpack
    cases hunpack
    rw [if_neg (by decide)]
    dsimp only
    rw [hl]
    rfl

/-- A report that is not accepted changes nothing. -/
theorem handleDnode_rejected {order : List Str} {addr data : Str}
    (h : reported room head data = none) :
    nodeOf (handleDnode order room addr head data c) = .ok c.node := by
  refine (replies_bind (replies_inServe (replies_checkMissingKey _ _ _ _)) fun missing => ?_).node c
  cases missing with
  | true => exact replies_pure _
  | false =>
    rw [if_neg (by decide)]
    cases hint : pyInt ((head.get BLOCK_NUM).getD []) with
    | none => exact replies_bind (replies_inServe (replies_senderr _ _)) fun _ => replies_raise _
    | some blocknum =>
      dsimp only
      cases hl : unpackNumbers room blocknum data with
      | error e => exact replies_raise e
      | ok l =>
        exfalso
        unfold reported at h
        cases hget : head.get BLOCK_NUM with
        | none =>
          rw [hget] at hint
          have hempty : pyInt [] = none := by decide
          cases hempty.symm.trans hint
        | some text =>
          rw [hget, Option.getD_some] at hint
          rw [hget] at h
          simp only [Option.bind_eq_bind, Option.bind_some, hint, hl] at h
          cases h

theorem nodeOf_handle (order : List Str) (addr : Str) (h : Handler) :
    nodeOf (handle order room addr users h c)
      = called (handlerOp order room addr users h) c.node := by
  cases h with
  | client user password head data => exact (nodeOf_inServe _).trans nodeOf_handleClient
  | dnode head data =>
    unfold handle handlerOp
    dsimp only
    cases hr : reported room head data with
    | none => exact handleDnode_rejected hr
    | some l =>
      obtain ⟨n', hadd, hrun⟩ := @handleDnode_accepted c room head order addr data l hr
      rw [hrun]
      cases hadd
      rfl
  | unknown head data => exact (replies_inServe (replies_senderr _ _)).node c

theorem replies_refuse (r : Refusal) : Replies (refuse r) := by
  cases r with
  | senderr type detail => exact replies_inServe (replies_senderr _ _)
  | closed => exact replies_pure _
  | assertion => exact replies_raise _

/-- Whatever bytes come in, in whatever pieces: the node goes as the call goes that the message
makes, and stays as it is where there is no such call. -/
theorem serveConnection_node (order : List Str) (room : Nat) (addr : Str) (users : UsersInfo)
    (chunks : List Str) (c : Conn) : nodeOf (serveConnection order room addr users chunks c)
      = called (connectionOp order room addr users chunks) c.node := by
  unfold serveConnection connectionOp messageOf
  cases readmsgFrom chunks with
  | error r => exact (replies_refuse r).node c
  | ok q =>
    obtain ⟨head, data⟩ := q
    dsimp only [Except.toOption, Option.bind_some]
    cases handler head data with
    | error r => exact (replies_refuse r).node c
    | ok h => exact nodeOf_handle order addr h

end Follow

end Sbpfs.Cnode.Serving
