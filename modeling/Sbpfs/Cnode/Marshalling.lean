import Sbpfs.Cnode.LibCalls
import Sbpfs.Cnode.RequestFields
import Sbpfs.Cfs.MoveLaws

/-!
# From the client to the library

A call of the client library is sent as text, read by the control node and handed through
`DTree` to a function of the C library. The function is called with what the client was
called with, except for a mode, which is written in one base and read in another, and for
the two paths of a move, which change places.
-/
namespace Sbpfs.Cnode.Marshalling

open Sbpfs.Lib.Program Sbpfs.Lib.Raise Sbpfs.Lib.Search
open Sbpfs.Cfs.Layout (CStr CM World s32)
open Sbpfs.Cfs.Lookup (W)
open Sbpfs.Cfs.Rules Sbpfs.Cfs.LookupSpec Sbpfs.Cfs.Mkfs Sbpfs.Cfs.ChainLaws
open Sbpfs.Cfs.Namespace Sbpfs.Cfs.NamespaceSpec Sbpfs.Cfs.HeaderSpec
open Sbpfs.Spec.FileTree Sbpfs.Spec.Resolve
open Sbpfs.Wire.Head Sbpfs.Wire.HeadSpec Sbpfs.Wire.Number Sbpfs.Libc.Request Sbpfs.Libc.RequestSpec
open Sbpfs.Cnode.Message Sbpfs.Cnode.FieldSpec Sbpfs.Cnode.Connection Sbpfs.Cnode.LoginLaws
open Sbpfs.Cnode.Pool Sbpfs.Cnode.Libcfs Sbpfs.Cnode.DTree Sbpfs.Cnode.Dispatch
open Sbpfs.Cnode.Ops (startedNode)
open Sbpfs.Cnode.ReplyLaws Sbpfs.Cnode.LibCalls Sbpfs.Cnode.RequestFields
open Sbpfs.Cnode.Users (UserInfo UsersInfo)

/-! ## Calls of the client library -/

/-- A call of the client library; a descriptor is the number that the control node handed
out for it. -/
inductive ApiCall where
  | openFile (filename : CStr) (oflag : UInt32) (mode : UInt16)
  | chmod (filename : CStr) (mode : UInt16)
  | chown (filename newowner : CStr)
  | move (dst src : CStr)
  | remove (filename : CStr)
  | mkdir (filename : CStr)
  | rmdir (filename : CStr)
  | opendir (filename : CStr)
  | readdir (serverFd offset : UInt64)
  | read (serverFd offset len : UInt64)
  | write (serverFd offset len : UInt64)

def ApiCall.send (l : Login) : ApiCall → Except Stop (Option Str)
  | .openFile filename oflag mode => sbpOpen l filename oflag mode
  | .chmod filename mode => sbpChmod l filename mode
  | .chown filename newowner => sbpChown l filename newowner
  | .move dst src => sbpMove l dst src
  | .remove filename => sbpRemove l filename
  | .mkdir filename => sbpMkdir l filename
  | .rmdir filename => sbpRmdir l filename
  | .opendir filename => sbpOpendir l filename
  | .readdir serverFd offset => sbpReaddir l serverFd offset
  | .read serverFd offset len => sbpRead l serverFd offset len
  | .write serverFd offset len => sbpWrite l serverFd offset len

/-- Strings are single lines, modes and flags are below 256, offsets and lengths below 2^63. -/
def ApiCall.InRange : ApiCall → Prop
  | .openFile filename oflag mode =>
    Free crlf (bytesOf filename) ∧ oflag.toNat < 256 ∧ mode.toNat < 256
  | .chmod filename mode => Free crlf (bytesOf filename) ∧ mode.toNat < 256
  | .chown filename newowner => Free crlf (bytesOf filename) ∧ Free crlf (bytesOf newowner)
  | .move dst src => Free crlf (bytesOf dst) ∧ Free crlf (bytesOf src)
  | .remove filename => Free crlf (bytesOf filename)
  | .mkdir filename => Free crlf (bytesOf filename)
  | .rmdir filename => Free crlf (bytesOf filename)
  | .opendir filename => Free crlf (bytesOf filename)
  | .readdir _ offset => offset.toNat < 2 ^ 63
  | .read _ offset len => offset.toNat < 2 ^ 63 ∧ len.toNat < 2 ^ 63
  | .write _ offset len => offset.toNat < 2 ^ 63 ∧ len.toNat < 2 ^ 63

/-- The file of a descriptor that the client knows by its number. -/
def fileOf (n : CtrlNode) (uid : Int) (serverFd : UInt64) : Option FileDes :=
  CtrlNode.getFile n uid (s64 serverFd.toNat)

/-- The function of the C library that the call is for, with its arguments; none without a
file behind the descriptor, nor for an owner who is not known. -/
def ApiCall.wanted (users : UsersInfo) (n : CtrlNode) (uid : Int) : ApiCall → Option LibCall
  | .openFile filename oflag mode =>
    some (.openFile filename (UInt8.ofNat oflag.toNat) (UInt8.ofNat mode.toNat) (argI uid))
  | .chmod filename mode => some (.chmod filename (UInt8.ofNat mode.toNat) (argI uid))
  | .chown filename newowner =>
    (UsersInfo.findUid users (bytesOf newowner)).map fun newuid =>
      .chown filename (argI newuid) (argI uid)
  | .move dst src => some (.move src dst (argI uid))
  | .remove filename => some (.remove filename (argI uid))
  | .mkdir filename => some (.mkdir filename (argI uid))
  | .rmdir filename => some (.rmdir filename (argI uid))
  | .opendir filename => some (.opendir filename (argI uid))
  | .readdir serverFd offset => (fileOf n uid serverFd).map fun file =>
      .readdir (argI file.fb) offset (argI uid)
  | .read serverFd offset len => (fileOf n uid serverFd).map fun file =>
      .read (argI file.fb) offset len (argI uid)
  | .write serverFd offset len => (fileOf n uid serverFd).map fun file =>
      .write (argI file.fb) offset len (parseIps n.ips) (argI uid)

/-- Nothing stands in the way of the call: there is memory for the copies of paths and
addresses, an opened file is not reported lost, and a descriptor is one of the right type. -/
def ApiCall.Ready (n : CtrlNode) (uid : Int) : ApiCall → Prop
  | .openFile filename _ _ => Env.Succeeds n.world.env .path ∧
      ∃ lost t, isFileLost (bytesOf filename) n = .ok (.ok lost, t) ∧ lost ≠ some true
  | .readdir serverFd _ => ∀ file, fileOf n uid serverFd = some file → file.type = Pool.S_DIR
  | .read serverFd _ _ => ∀ file, fileOf n uid serverFd = some file →
      file.type = Pool.S_FIL ∧ mayUse file SBP_O_RDONLY = true
  | .write serverFd _ _ => (∀ file, fileOf n uid serverFd = some file →
      file.type = Pool.S_FIL ∧ mayUse file SBP_O_WRONLY = true) ∧ n.ips ≠ [] ∧
      (cstrOf n.ips).isSome ∧ Env.Succeeds n.world.env .path
  | _ => Env.Succeeds n.world.env .path

/-- What may be called on account of the call: the function it is for, and before a file is
opened the look for lost blocks. -/
def ApiCall.Asked (users : UsersInfo) (n : CtrlNode) (uid : Int) (call : ApiCall) (d : LibCall) :
    Prop :=
  call.wanted users n uid = some d ∨
    ∃ filename oflag mode, call = .openFile filename oflag mode ∧ d = .getblocks filename

/-- The handler calls nothing else, and calls the function where nothing stands in the way;
it stops only if the function does. -/
structure Delivered (users : UsersInfo) (n : CtrlNode) (uid : Int) (call : ApiCall)
    (m : Serve Unit) : Prop where
  only : ∀ r c, m ⟨n, []⟩ = .ok (r, c) → Called (call.Asked users n uid) n c.node
  reach : ∀ d, call.wanted users n uid = some d → call.Ready n uid →
    (∃ r c, m ⟨n, []⟩ = .ok (r, c) ∧ ∃ new, c.node.calls = new ++ n.calls ∧ d ∈ new) ∨
      ∃ e w, m ⟨n, []⟩ = .error e ∧ Same n.world w ∧ LibCall.Stops d w e

/-- The request is built, in whatever pieces it arrives the control node takes its sender for
the user, and for a user that is known it is delivered. `room` is the length of a list that
the interpreter has memory for. -/
def Faithful (l : Login) (call : ApiCall) : Prop :=
  ∃ msg, call.send l = .ok (some msg) ∧
    ∀ buffer rest, buffer ++ rest = msg → ¬ Free headerFlag buffer →
      ∃ head data, run buffer rest = .ok (.client (bytesOf l.usr) (bytesOf l.pass) head data) ∧
        ∀ users n uid room, UsersInfo.check users (bytesOf l.usr) (bytesOf l.pass) = true →
          UsersInfo.findUid users (bytesOf l.usr) = some uid → 3 ≤ room →
          Delivered users n uid call
            (handleClient users room (bytesOf l.usr) (bytesOf l.pass) head)

/-- The mode reads the same in both bases, and the two paths may change places. -/
def ApiCall.Kept : ApiCall → Prop
  | .chmod _ mode => mode.toNat < 10
  | .move dst src => dst = src
  | _ => True

/-! ## The fields of a request -/

def ApiCall.method : ApiCall → String
  | .openFile .. => "OPEN"
  | .chmod .. => "CHMOD"
  | .chown .. => "CHOWN"
  | .move .. => "MOVE"
  | .remove .. => "REMOVE"
  | .mkdir .. => "MKDIR"
  | .rmdir .. => "RMDIR"
  | .opendir .. => "OPENDIR"
  | .readdir .. => "READDIR"
  | .read .. => "READ"
  | .write .. => "WRITE"

def ApiCall.args : ApiCall → List Str
  | .openFile filename oflag mode =>
    [bytesOf filename, decimal 8 (s32 oflag.toNat), decimal 4 (mode.toNat : Int)]
  | .chmod filename mode => [bytesOf filename, hex 4 mode.toNat]
  | .chown filename newowner => [bytesOf filename, bytesOf newowner]
  | .move dst src => [bytesOf dst, bytesOf src]
  | .remove filename => [bytesOf filename]
  | .mkdir filename => [bytesOf filename]
  | .rmdir filename => [bytesOf filename]
  | .opendir filename => [bytesOf filename]
  | .readdir serverFd offset => [decimal 0 (s64 serverFd.toNat), decimal 0 (s64 offset.toNat)]
  | .read serverFd offset len =>
    [decimal 0 (s64 serverFd.toNat), decimal 0 (s64 offset.toNat), decimal 0 (s64 len.toNat)]
  | .write serverFd offset len =>
    [decimal 0 (s64 serverFd.toNat), decimal 0 (s64 offset.toNat), decimal 0 (s64 len.toNat)]

def ApiCall.argc : ApiCall → String
  | .openFile .. => "3"
  | .chmod .. => "2"
  | .chown .. => "2"
  | .move .. => "2"
  | .remove .. => "1"
  | .mkdir .. => "1"
  | .rmdir .. => "1"
  | .opendir .. => "1"
  | .readdir .. => "2"
  | .read .. => "3"
  | .write .. => "3"

theorem send_eq (call : ApiCall) (l : Login) :
    call.send l = request l call.method call.argc call.args := by
  cases call <;> rfl

/-! ## What a request is dispatched to -/

def ApiCall.kind : ApiCall → Dispatch.Method
  | .openFile .. => .openFile
  | .chmod .. => .chmod
  | .chown .. => .chown
  | .move .. => .move
  | .remove .. => .remove
  | .mkdir .. => .mkdir
  | .rmdir .. => .rmdir
  | .opendir .. => .opendir
  | .readdir .. => .readdir
  | .read .. => .read
  | .write .. => .write

section Requests

variable (call : ApiCall)

theorem doMethod_kind : doMethod (ascii call.method) = some call.kind := by
  cases call <;>
  · simp only [ApiCall.method, ApiCall.kind]
    decide

theorem pyInt_argc : pyInt (ascii call.argc) = some (call.args.length : Int) := by
  cases call <;>
  · simp only [ApiCall.argc, ApiCall.args, List.length_cons, List.length_nil]
    decide

theorem args_length : call.args.length ≤ 3 := by
  cases call <;> simp [ApiCall.args]

theorem method_free : Free crlf (ascii call.method) := by
  cases call <;>
  · simp only [ApiCall.method]
    decide

theorem argc_free : Free crlf (ascii call.argc) := by
  cases call <;>
  · simp only [ApiCall.argc]
    decide

theorem args_free {call : ApiCall} (h : call.InRange) : ∀ a ∈ call.args, Free crlf a := by
  cases call with
  | openFile filename oflag mode =>
    simpa [ApiCall.args] using ⟨h.1, decimal_free _ _, decimal_free _ _⟩
  | chmod filename mode => simpa [ApiCall.args] using ⟨h.1, hex_free _ _⟩
  | chown filename newowner => simpa [ApiCall.args] using ⟨h.1, h.2⟩
  | move dst src => simpa [ApiCall.args] using ⟨h.1, h.2⟩
  | remove filename => simpa [ApiCall.args, ApiCall.InRange] using h
  | mkdir filename => simpa [ApiCall.args, ApiCall.InRange] using h
  | rmdir filename => simpa [ApiCall.args, ApiCall.InRange] using h
  | opendir filename => simpa [ApiCall.args, ApiCall.InRange] using h
  | readdir serverFd offset => simpa [ApiCall.args] using ⟨decimal_free _ _, decimal_free _ _⟩
  | read serverFd offset len =>
    simpa [ApiCall.args] using ⟨decimal_free _ _, decimal_free _ _, decimal_free _ _⟩
  | write serverFd offset len =>
    simpa [ApiCall.args] using ⟨decimal_free _ _, decimal_free _ _, decimal_free _ _⟩

/-- The request of a known user gets to the method it names, with the arguments it was sent
with. -/
theorem handleClient_run {users : UsersInfo} {uid : Int} {room : Nat} (l : Login)
    (hcheck : UsersInfo.check users (bytesOf l.usr) (bytesOf l.pass) = true)
    (hfind : UsersInfo.findUid users (bytesOf l.usr) = some uid) (hroom : 3 ≤ room) (c : Conn) :
    handleClient users room (bytesOf l.usr) (bytesOf l.pass)
        (requestFields l call.method call.argc call.args) c
      = exceptArguments (invoke users uid call.kind call.args) c := by
  have hlen := args_length call
  unfold handleClient
  rw [if_pos hcheck, hfind]
  show serveRequest users room uid (requestFields l call.method call.argc call.args) c = _
  rw [serveRequest_run c (requestFields_method l _ _ _) (requestFields_argc l _ _ _)
    (pyInt_argc call) (by omega) (by omega) (requestFields_args l _ _ _)]
  unfold serveMethod
  rw [doMethod_kind call]

end Requests

/-! ## Replies -/

/-- The program comes back, and leaves the node alone. -/
def Aside (m : Serve Unit) : Prop := ∀ c, ∃ r c', m c = .ok (r, c') ∧ c'.node = c.node

section Aside

variable {m : Serve Unit} {c c' : Conn} {r : Except Exc Unit}

theorem aside_senderr (type detail : Str) : Aside (senderr type detail) :=
  fun _ => ⟨_, _, rfl, rfl⟩

theorem aside_sendrep (d : Dict) (data : Ops.Value) : Aside (sendrep d data) :=
  fun _ => ⟨_, _, rfl, rfl⟩

theorem rescue_aside {h : Exc → Option (Serve Unit)} (hm : m c = .ok (r, c'))
    (hh : ∀ e k, h e = some k → Aside k) :
    ∃ r' c'', rescue m h c = .ok (r', c'') ∧ c''.node = c'.node := by
  cases r with
  | ok a => exact ⟨_, c', rescue_returns hm, rfl⟩
  | error e =>
    cases he : h e with
    | none => exact ⟨_, c', rescue_raise hm he, rfl⟩
    | some k =>
      obtain ⟨r', c'', hrun, hnode⟩ := hh e k he c'
      exact ⟨r', c'', (rescue_handled hm he).trans hrun, hnode⟩

theorem exceptArguments_aside (hm : m c = .ok (r, c')) :
    ∃ r' c'', exceptArguments m c = .ok (r', c'') ∧ c''.node = c'.node := by
  apply rescue_aside hm
  intro e k hk
  cases e with
  | typeError msg =>
    cases hk
    exact aside_senderr _ _
  | valueError =>
    cases hk
    exact aside_senderr _ _
  | _ => cases hk

theorem exceptDTree_aside (hm : m c = .ok (r, c')) :
    ∃ r' c'', exceptDTree m c = .ok (r', c'') ∧ c''.node = c'.node := by
  apply rescue_aside hm
  intro e k hk
  cases e with
  | dtree type msg =>
    cases hk
    exact aside_senderr _ _
  | _ => cases hk

variable {α : Type} {p : Py α} {rep : α → Serve Unit}

/-- A method of `DTree` leaves its state behind, whatever is sent for what it returned. -/
theorem answer_run {n' : CtrlNode} {q : Except Exc α} (hp : p c.node = .ok (q, n'))
    (hrep : ∀ a, Aside (rep a)) :
    ∃ r' c', exceptArguments (answer p rep) c = .ok (r', c') ∧ c'.node = n' := by
  have hcall : onDTree p c = .ok (q, { c with node := n' }) := within_run hp
  have hbody : ∃ r' c', (onDTree p >>= rep) c = .ok (r', c') ∧ c'.node = n' := by
    cases q with
    | error e => exact ⟨_, _, bind_raise hcall rep, rfl⟩
    | ok a =>
      obtain ⟨r', c', hrun, hnode⟩ := hrep a { c with node := n' }
      exact ⟨r', c', (bind_step hcall rep).trans hrun, hnode⟩
  obtain ⟨r₁, c₁, h₁, hnode₁⟩ := hbody
  obtain ⟨r₂, c₂, h₂, hnode₂⟩ := exceptDTree_aside h₁
  obtain ⟨r₃, c₃, h₃, hnode₃⟩ := exceptArguments_aside h₂
  exact ⟨r₃, c₃, h₃, hnode₃.trans (hnode₂.trans hnode₁)⟩

theorem answer_stop {e : Stop} (hp : p c.node = .error e) :
    exceptArguments (answer p rep) c = .error e :=
  rescue_stop (rescue_stop (bind_stop (within_stop hp) rep))

end Aside

/-! ## Delivery -/

section Delivered

variable {users : UsersInfo} {n : CtrlNode} {uid : Int} {call : ApiCall}

theorem delivered_congr {m m' : Serve Unit} (h : m ⟨n, []⟩ = m' ⟨n, []⟩) :
    Delivered users n uid call m ↔ Delivered users n uid call m' := by
  constructor <;>
  · rintro ⟨honly, hreach⟩
    constructor
    · simpa only [h] using honly
    · simpa only [h] using hreach

/-- Where no function is wanted, none is called. -/
theorem delivered_none {m : Serve Unit} (hnone : call.wanted users n uid = none)
    (h : ∃ r c, m ⟨n, []⟩ = .ok (r, c) ∧ c.node.calls = n.calls) :
    Delivered users n uid call m := by
  constructor
  · intro r c hrun
    obtain ⟨r', c', hrun', hcalls⟩ := h
    cases hrun'.symm.trans hrun
    exact called_of_eq hcalls
  · intro d hd
    rw [hnone] at hd
    cases hd

/-- A method of `DTree` that makes the call delivers it. -/
theorem delivered_answer {α : Type} {p : Py α} {rep : α → Serve Unit} {d : LibCall}
    (hrep : ∀ a, Aside (rep a)) (hd : call.wanted users n uid = some d)
    (hp : Calling (call.Asked users n uid) d (call.Ready n uid) p n) :
    Delivered users n uid call (exceptArguments (answer p rep)) := by
  constructor
  · intro r c hrun
    cases hpn : p n with
    | error e =>
      cases (answer_stop (c := ⟨n, []⟩) hpn).symm.trans hrun
    | ok q =>
      obtain ⟨r', c', hrun', hnode⟩ := answer_run (c := ⟨n, []⟩) hpn hrep
      cases hrun'.symm.trans hrun
      rw [hnode]
      exact hp.only _ _ hpn
  · intro d' hd' hready
    cases hd.symm.trans hd'
    rcases hp.reach hready with ⟨r, n', hpn, hnew⟩ | ⟨e, w, hpn, hsame, hstop⟩
    · obtain ⟨r', c', hrun, hnode⟩ := answer_run (c := ⟨n, []⟩) hpn hrep
      refine .inl ⟨r', c', hrun, ?_⟩
      rw [hnode]
      exact hnew
    · exact .inr ⟨e, w, answer_stop hpn, hsame, hstop⟩

theorem delivered_nothing {α : Type} {p : Py α} {rep : α → Serve Unit} (hrep : ∀ a, Aside (rep a))
    (hnone : call.wanted users n uid = none)
    (hp : ∃ r n', p n = .ok (r, n') ∧ n'.calls = n.calls) :
    Delivered users n uid call (exceptArguments (answer p rep)) := by
  obtain ⟨q, n', hrun, hcalls⟩ := hp
  obtain ⟨r, c, hc, rfl⟩ := answer_run (c := ⟨n, []⟩) hrun hrep
  exact delivered_none hnone ⟨r, c, hc, hcalls⟩

/-- A path that is asked for by the client reaches the library. -/
theorem delivered_path {c : LibCall} {lc : CStr → LibCall} {m : CStr → CM Int}
    {errors : List (Int × String × String)} {filename : CStr} (hc : lc filename = c)
    (hd : call.wanted users n uid = some c)
    (hready : call.Ready n uid → Env.Succeeds n.world.env .path)
    (hstop : ∀ w e, m filename w = .error e → LibCall.Stops c w e) :
    Delivered users n uid call (exceptArguments (genericDoMethod
      ((argS 2 (bytesOf filename) >>= fun p => withPath p (-1) (lc p) (m p)) >>= fun ret =>
        checkRet ret errors))) := by
  apply delivered_answer (fun _ => aside_sendrep _ _) hd
  exact (calling_pathMethod (cstrOf_bytesOf filename) hc (.inl hd) hstop).weaken hready

theorem raises_unknown {serverFd : UInt64} (errType msg : String) (type : Int)
    (h : fileOf n uid serverFd = none) :
    ∃ e, findFile (s64 serverFd.toNat) uid type errType msg n = .ok (.error e, n) :=
  findFile_raises n fun _ hfile => nomatch h.symm.trans hfile

/-- A call that is kept is delivered. -/
theorem delivered_kept (users : UsersInfo) (n : CtrlNode) (uid : Int) (hrange : call.InRange)
    (hkept : call.Kept) :
    Delivered users n uid call (exceptArguments (invoke users uid call.kind call.args)) := by
  cases call with
  | openFile filename oflag mode =>
    obtain ⟨-, ho, hm⟩ := hrange
    have hoflag : pyInt (decimal 8 (s32 oflag.toNat)) = some (oflag.toNat : Int) := by
      rw [pyInt_decimal, s32_small ho]
    have hmode : pyInt (decimal 4 (mode.toNat : Int)) = some (mode.toNat : Int) :=
      pyInt_decimal 4 _
    apply delivered_answer (fun _ => aside_sendrep _ _) rfl
    exact calling_openFile (cstrOf_bytesOf filename) hoflag hmode ⟨isByte_nat ho, isByte_nat hm⟩
      (.inl rfl) (.inr ⟨filename, oflag, mode, rfl, rfl⟩)
  | chmod filename mode =>
    obtain ⟨-, hm⟩ := hrange
    have hmode : pyInt (hex 4 mode.toNat) = some (mode.toNat : Int) := (pyInt_hex _ hm).mpr hkept
    apply delivered_answer (fun _ => aside_sendrep _ _) rfl
    exact calling_chmod (cstrOf_bytesOf filename) hmode (isByte_nat hm) (.inl rfl)
  | chown filename newowner =>
    show Delivered users n uid _
      (exceptArguments (Dispatch.chown users uid (bytesOf filename) (bytesOf newowner)))
    unfold Dispatch.chown
    cases hfind : UsersInfo.findUid users (bytesOf newowner) with
    | none =>
      apply delivered_none
      · show (UsersInfo.findUid users (bytesOf newowner)).map _ = none
        rw [hfind]
        rfl
      · exact ⟨_, _, rescue_returns rfl, rfl⟩
    | some newuid =>
      have hd : (ApiCall.chown filename newowner).wanted users n uid
          = some (.chown filename (argI newuid) (argI uid)) := by
        show (UsersInfo.findUid users (bytesOf newowner)).map _ = _
        rw [hfind]
        rfl
      exact delivered_path rfl hd id fun _ _ h => h
  | move dst src =>
    obtain rfl : dst = src := hkept
    apply delivered_answer (fun _ => aside_sendrep _ _) rfl
    exact calling_move (cstrOf_bytesOf dst) (cstrOf_bytesOf dst) (.inl rfl)
  | remove filename => exact delivered_path rfl rfl id fun _ _ h => h
  | mkdir filename => exact delivered_path rfl rfl id fun _ _ h => h
  | rmdir filename => exact delivered_path rfl rfl id fun _ _ h => h
  | opendir filename =>
    apply delivered_answer (fun _ => aside_sendrep _ _) rfl
    exact calling_opendir (cstrOf_bytesOf filename) (.inl rfl)
  | readdir serverFd offset =>
    have hk := pyInt_decimal 0 (s64 serverFd.toNat)
    have ho := pyInt_decimal 0 (s64 offset.toNat)
    cases hfile : fileOf n uid serverFd with
    | none =>
      apply delivered_nothing (fun _ => aside_sendrep _ _)
        (by simp only [ApiCall.wanted, hfile, Option.map_none])
      obtain ⟨e, he⟩ := raises_unknown "ReadDirError" "Not such dirfd: " Pool.S_DIR hfile
      refine ⟨.error e, n, ?_, rfl⟩
      exact (bind_step (int_some hk n) _).trans
        ((bind_step (int_some ho n) _).trans (bind_raise he _))
    | some file =>
      have hd : (ApiCall.readdir serverFd offset).wanted users n uid
          = some (.readdir (argI file.fb) (argK (s64 offset.toNat)) (argI uid)) := by
        simp only [ApiCall.wanted, hfile, Option.map_some, argK_s64]
      apply delivered_answer (fun _ => aside_sendrep _ _) hd
      exact (calling_readdir hk ho hfile (.inl hd)).weaken fun h => ⟨h file hfile, trivial⟩
  | read serverFd offset len =>
    have hk := pyInt_decimal 0 (s64 serverFd.toNat)
    have ho := pyInt_decimal 0 (s64 offset.toNat)
    have hl := pyInt_decimal 0 (s64 len.toNat)
    cases hfile : fileOf n uid serverFd with
    | none =>
      apply delivered_nothing (fun _ => aside_sendrep _ _)
        (by simp only [ApiCall.wanted, hfile, Option.map_none])
      obtain ⟨e, he⟩ := raises_unknown "ReadError" "Not such fd: " Pool.S_FIL hfile
      refine ⟨.error e, n, ?_, rfl⟩
      exact (bind_step (int_some hk n) _).trans ((bind_step (int_some ho n) _).trans
        ((bind_step (int_some hl n) _).trans (bind_raise he _)))
    | some file =>
      have hd : (ApiCall.read serverFd offset len).wanted users n uid = some (.read
          (argI file.fb) (argK (s64 offset.toNat)) (argK (s64 len.toNat)) (argI uid)) := by
        simp only [ApiCall.wanted, hfile, Option.map_some, argK_s64]
      apply delivered_answer (fun _ => aside_sendrep _ _) hd
      exact (calling_read hk ho hl hfile (.inl hd)).weaken fun h => h file hfile
  | write serverFd offset len =>
    have hk := pyInt_decimal 0 (s64 serverFd.toNat)
    have ho := pyInt_decimal 0 (s64 offset.toNat)
    have hl := pyInt_decimal 0 (s64 len.toNat)
    cases hfile : fileOf n uid serverFd with
    | none =>
      apply delivered_nothing (fun _ => aside_sendrep _ _)
        (by simp only [ApiCall.wanted, hfile, Option.map_none])
      obtain ⟨e, he⟩ := raises_unknown "WriteError" "Not such fd: " Pool.S_FIL hfile
      by_cases hips : n.ips = []
      · refine ⟨.error (.dtree (ascii "NoDataNodeError") (ascii "Not data node connect to server")),
          n, ?_, rfl⟩
        refine (bind_step (int_some hk n) _).trans ((bind_step (int_some ho n) _).trans
          ((bind_step (int_some hl n) _).trans ((bind_step (getState_run n) _).trans ?_)))
        rw [if_pos hips]
        rfl
      · refine ⟨.error e, n, ?_, rfl⟩
        refine (bind_step (int_some hk n) _).trans ((bind_step (int_some ho n) _).trans
          ((bind_step (int_some hl n) _).trans ((bind_step (getState_run n) _).trans ?_)))
        rw [if_neg hips]
        exact bind_raise he _
    | some file =>
      have hd : (ApiCall.write serverFd offset len).wanted users n uid = some (.write
          (argI file.fb) (argK (s64 offset.toNat)) (argK (s64 len.toNat)) (parseIps n.ips)
          (argI uid)) := by
        simp only [ApiCall.wanted, hfile, Option.map_some, argK_s64]
      apply delivered_answer (fun _ => aside_sendrep _ _) hd
      refine (calling_write hk ho hl hfile (.inl hd)).weaken fun h => ?_
      obtain ⟨hfit, hips, hstr, hmem⟩ := h
      exact ⟨hips, (hfit file hfile).1, (hfit file hfile).2, hstr, hmem⟩

end Delivered

/-! ## Calls that are not kept -/

section Fresh

variable {w : World}

/-- On a fresh disk only the owner of the root may move anything. -/
theorem fresh_movePlan (src dst : CStr) :
    ∃ code, movePlan (view freshFs) src dst (argI 1000) = .error code := by
  unfold movePlan
  cases hsrc : target (view freshFs) src 1 1 with
  | error code => exact ⟨code, rfl⟩
  | ok q =>
    obtain ⟨d, name⟩ := q
    dsimp only
    cases target (view freshFs) dst 1 1 with
    | error code => exact ⟨code, rfl⟩
    | ok q' =>
      have hroot : d = rootFb := by
        obtain ⟨_, _, _, _, ho⟩ := target_dir freshFs_tree hsrc
        exact (freshFs_some ho).1
      have hmay : (view freshFs).may (argI 1000) d W = 0 := by
        rw [hroot, view_may freshFs_root]
        decide
      exact ⟨4, if_pos (.inl hmay)⟩

theorem cMove_fresh (hw : FreshWorld w) (src dst : CStr) :
    ∃ q, cMove src dst (argI 1000) w = .ok q := by
  obtain ⟨code, hplan⟩ := fresh_movePlan src dst
  obtain ⟨r, w', hrun, -⟩ := wp_returns
    (wp_cMove_refused (H := False) hw.1.store hw.1.tree hplan (.inr hw.2))
  exact ⟨_, hrun⟩

theorem cChmod_fresh (hw : FreshWorld w) (path : CStr) (mode : UInt8) (uid : UInt32) :
    ∃ q, cChmod path mode uid w = .ok q := by
  obtain ⟨r, w', hrun, -⟩ := wp_returns
    (wp_cChmod (H := False) hw.1.store hw.1.tree path mode uid (.inr hw.2))
  exact ⟨_, hrun⟩

theorem FreshWorld.same {w' : World} (hw : FreshWorld w) (hs : Same w w') : FreshWorld w' := by
  refine ⟨?_, hw.2.later hs.later⟩
  rw [hs.dt]
  exact hw.1

end Fresh

section Kept

variable {users : UsersInfo} {n : CtrlNode} {call : ApiCall}

/-- A method that makes no call but `c` does not deliver another. -/
theorem wanted_of_delivered {α : Type} {p : Py α} {rep : α → Serve Unit} {d : LibCall} {uid : Int}
    {P : LibCall → Prop} (hrep : ∀ a, Aside (rep a))
    (h : Delivered users n uid call (exceptArguments (answer p rep)))
    (hd : call.wanted users n uid = some d) (hready : call.Ready n uid)
    (hcalls : ∀ r n', p n = .ok (r, n') → Called P n n')
    (hback : ∀ w e, Same n.world w → ¬ LibCall.Stops d w e) : P d := by
  rcases h.reach d hd hready with ⟨r, c, hrun, new, hnew, hmem⟩ | ⟨e, w, -, hsame, hstop⟩
  swap
  · exact absurd hstop (hback w e hsame)
  cases hpn : p n with
  | error e => cases (answer_stop (c := ⟨n, []⟩) hpn).symm.trans hrun
  | ok q =>
    obtain ⟨r', c', hrun', hnode⟩ := answer_run (c := ⟨n, []⟩) hpn hrep
    cases hrun'.symm.trans hrun
    obtain ⟨new', hnew', hP⟩ := hcalls _ _ hpn
    rw [hnode, hnew'] at hnew
    rw [← List.append_cancel_right hnew] at hmem
    exact hP d hmem

/-- The values of a mode's text. -/
theorem pyInt_hex_byte : ∀ m < 256, ∀ z, pyInt (hex 4 m) = some z → IsByte z := by
  have hall : ∀ m < 256, ∀ z ∈ pyInt (hex 4 m), 0 ≤ z ∧ z ≤ 255 := by decide +kernel
  exact fun m hm z hz => hall m hm z hz

/-- On a fresh disk a call of an ordinary user that is delivered is kept. -/
theorem kept_of_delivered (hw : FreshWorld n.world) (hrange : call.InRange)
    (h : Delivered users n 1000 call (exceptArguments (invoke users 1000 call.kind call.args))) :
    call.Kept := by
  have hmem : Env.Succeeds n.world.env .path := hw.2.heap .path
  cases call with
  | chmod filename mode =>
    obtain ⟨-, hm⟩ := hrange
    have hd := wanted_of_delivered (P := fun d => ∃ z, pyInt (hex 4 mode.toNat) = some z ∧
      d = .chmod filename (UInt8.ofNat z.toNat) (argI 1000)) (fun _ => aside_sendrep _ _) h rfl hmem
      ?_ ?_
    · obtain ⟨z, hz, heq⟩ := hd
      have hbyte : 0 ≤ z ∧ z ≤ 255 := pyInt_hex_byte _ hm z hz
      have hval : mode.toNat = z.toNat := by
        injection heq with _ hmode _
        have hnat := congrArg UInt8.toNat hmode
        simp only [UInt8.toNat_ofNat'] at hnat
        omega
      refine (pyInt_hex _ hm).mp (hz.trans ?_)
      rw [hval, Int.toNat_of_nonneg hbyte.1]
    · intro r n' hrun
      cases hz : pyInt (hex 4 mode.toNat) with
      | none =>
        have hraise : DTree.chmod (bytesOf filename) (hex 4 mode.toNat) 1000 n = .ok (_, n) :=
          bind_raise (int_none hz n) _
        cases hraise.symm.trans hrun
        exact called_refl _ n
      | some z =>
        exact (calling_chmod (cstrOf_bytesOf filename) hz (pyInt_hex_byte _ hm z hz)
          ⟨z, rfl, rfl⟩).only r n' hrun
    · intro w e hs hstop
      obtain ⟨q, hq⟩ := cChmod_fresh (FreshWorld.same hw hs) filename (UInt8.ofNat mode.toNat)
        (argI 1000)
      cases hq.symm.trans hstop
  | move dst src =>
    have hd := wanted_of_delivered (P := fun d => d = .move dst src (argI 1000))
      (fun _ => aside_sendrep _ _) h rfl hmem ?_ ?_
    · exact (LibCall.move.inj hd).1.symm
    · exact (calling_move (P := fun d => d = .move dst src (argI 1000)) (cstrOf_bytesOf dst)
        (cstrOf_bytesOf src) rfl).only
    · intro w e hs hstop
      obtain ⟨q, hq⟩ := cMove_fresh (FreshWorld.same hw hs) src dst
      cases hq.symm.trans hstop
  | _ => trivial

end Kept

/-! ## The whole way -/

section Faithful

variable {l : Login} {call : ApiCall}

/-- The message of a call is read whole. -/
theorem call_msg (hl : OneLine l) (hrange : call.InRange) (hfit : Fits l) : ∃ msg,
    call.send l = .ok (some msg) ∧ ¬ Free headerFlag msg ∧
      readFields msg = some (requestFields l call.method call.argc call.args) := by
  have hlen := args_length call
  refine ⟨_, (send_eq call l).trans (request_msg hfit _ _ (by omega)), message_flag l _ _ _, ?_⟩
  exact readFields_all hl (method_free call) (argc_free call) (args_free hrange)

theorem identified_of_faithful (h : Faithful l call) : Identified l.usr l.pass (call.send l) := by
  obtain ⟨msg, hmsg, hrun⟩ := h
  refine ⟨msg, hmsg, fun buffer rest hsplit hflag => ?_⟩
  obtain ⟨head, data, hclient, -⟩ := hrun buffer rest hsplit hflag
  exact ⟨head, data, hclient⟩

theorem identified_call (hl : OneLine l) (hrange : call.InRange) :
    Identified l.usr l.pass (call.send l) ↔ Unaltered l.usr := by
  have hlen := args_length call
  rw [send_eq]
  exact identified_iff hl (method_free call) (argc_free call) (args_free hrange) (by omega)

/-- The user of the login, and no other. -/
def usersOf (l : Login) : UsersInfo where
  users := (∅ : Pool.Map Str UserInfo).insert (bytesOf l.usr) ⟨1000, bytesOf l.usr, bytesOf l.pass⟩
  ucount := 1000

theorem usersOf_known (l : Login) :
    UsersInfo.check (usersOf l) (bytesOf l.usr) (bytesOf l.pass) = true ∧
      UsersInfo.findUid (usersOf l) (bytesOf l.usr) = some 1000 := by
  unfold UsersInfo.check UsersInfo.findUid usersOf
  rw [AList.lookup_insert]
  exact ⟨by simp, rfl⟩

/-- A call that gets through is kept, and its user is sent unaltered. -/
theorem kept_of_faithful (hl : OneLine l) (hrange : call.InRange) (h : Faithful l call) :
    Unaltered l.usr ∧ call.Kept := by
  have hun := (identified_call hl hrange).mp (identified_of_faithful h)
  refine ⟨hun, ?_⟩
  obtain ⟨w, hw⟩ := exists_freshWorld
  obtain ⟨msg, hmsg, hflag, hread⟩ := call_msg hl hrange hun.1
  obtain ⟨msg', hmsg', hrun⟩ := h
  cases hmsg.symm.trans hmsg'
  obtain ⟨head, data, hclient, hdeliver⟩ := hrun msg [] (List.append_nil _) hflag
  obtain ⟨hread', -⟩ := run_client_inv hclient
  cases hread.symm.trans hread'
  obtain ⟨hcheck, hfind⟩ := usersOf_known l
  have hd := hdeliver (usersOf l) (startedNode w) 1000 3 hcheck hfind (Nat.le_refl _)
  have hworld : FreshWorld (startedNode w).world := hw
  apply kept_of_delivered hworld hrange
  exact (delivered_congr (handleClient_run call l hcheck hfind (Nat.le_refl _) _)).mp hd

/-- A call gets through as it was made exactly when the user's name is sent unaltered and the
call is kept: a mode that looks the same in both bases, a move of a file to itself, and all
calls but these two. -/
theorem faithful_iff (hl : OneLine l) (hrange : call.InRange) :
    Faithful l call ↔ Unaltered l.usr ∧ call.Kept := by
  refine ⟨kept_of_faithful hl hrange, fun ⟨hun, hkept⟩ => ?_⟩
  obtain ⟨msg, hmsg, -, hread⟩ := call_msg hl hrange hun.1
  obtain ⟨msg', hmsg', hrun⟩ := (identified_call hl hrange).mpr hun
  cases hmsg.symm.trans hmsg'
  refine ⟨msg, hmsg, fun buffer rest hsplit hflag => ?_⟩
  obtain ⟨head, data, hclient⟩ := hrun buffer rest hsplit hflag
  refine ⟨head, data, hclient, fun users n uid room hcheck hfind hroom => ?_⟩
  obtain ⟨hread', -⟩ := run_client_inv hclient
  rw [← readFields_received hflag rest, hsplit] at hread'
  cases hread.symm.trans hread'
  exact (delivered_congr (handleClient_run call l hcheck hfind hroom _)).mpr
    (delivered_kept users n uid hrange hkept)

/-- A directory made by the user `a`. -/
theorem faithful_mkdir : ∃ l, sbpLogin (text "a") [] = some l ∧
    Faithful l (.mkdir (text "/a")) := by
  have hl : OneLine ⟨text "a", [], by decide, by decide⟩ := ⟨by decide, by decide⟩
  have hrange : ApiCall.InRange (.mkdir (text "/a")) :=
    (by decide : Free crlf (bytesOf (text "/a")))
  exact ⟨⟨text "a", [], by decide, by decide⟩, rfl,
    (faithful_iff hl hrange).mpr ⟨⟨by decide, by decide⟩, trivial⟩⟩

/-- The mode `10` in hexadecimal is another one in decimal, and a move goes the other way. -/
theorem unfaithful_chmod_move : ∃ l, sbpLogin (text "a") [] = some l ∧
    ¬ Faithful l (.chmod (text "/a") 16) ∧ ¬ Faithful l (.move (text "/b") (text "/a")) := by
  have hl : OneLine ⟨text "a", [], by decide, by decide⟩ := ⟨by decide, by decide⟩
  refine ⟨⟨text "a", [], by decide, by decide⟩, rfl, fun h => ?_, fun h => ?_⟩
  · have hrange : ApiCall.InRange (.chmod (text "/a") 16) := ⟨by decide, by decide⟩
    exact absurd (kept_of_faithful hl hrange h).2 (by decide : ¬ (16 : UInt16).toNat < 10)
  · have hrange : ApiCall.InRange (.move (text "/b") (text "/a")) := ⟨by decide, by decide⟩
    exact absurd (kept_of_faithful hl hrange h).2 (by decide : text "/b" ≠ text "/a")

end Faithful

end Sbpfs.Cnode.Marshalling
