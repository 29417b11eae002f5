import Sbpfs.Cnode.Homes
import Sbpfs.Cnode.Replicas
import Sbpfs.Cnode.Serving

/-!
# Runs of connections

The control node serves one connection after another, with whatever bytes come in from wherever;
the source starts a thread for each, and what threads do to each other is left out. Such a run is
a run of the calls of `DTree` that its messages make; who is not logged in holds no descriptor and
leaves the disk alone, and the maps are those of the reports that came in.
-/
namespace Sbpfs.Cnode.ConnectionRuns

open Sbpfs.Lib.Program Sbpfs.Lib.Raise Sbpfs.Lib.Run
open Sbpfs.Cfs.Layout (Env)
open Sbpfs.Wire.Head Sbpfs.Wire.Number Sbpfs.Libc.Request
open Sbpfs.Cnode.Libcfs Sbpfs.Cnode.DTree Sbpfs.Cnode.Ops Sbpfs.Cnode.Connection
open Sbpfs.Cnode.Dispatch (Conn Method doMethod)
open Sbpfs.Cnode.ReplyLaws (opOf argsOf Located rootOnly)
open Sbpfs.Cnode.Descriptors Sbpfs.Cnode.Homes Sbpfs.Cnode.Replicas Sbpfs.Cnode.Serving
open Sbpfs.Cnode.Users (UsersInfo)

/-! ## Connections -/

/-- A connection: where it comes from, what `recv` returns, and what the interpreter and the C
library answer during it. -/
structure Peer where
  addr : Str
  chunks : List Str
  order : List Str
  room : Nat
  env : Env

/-- The call that its message makes. -/
def Peer.op (users : UsersInfo) (p : Peer) : Option Op :=
  connectionOp p.order p.room p.addr users p.chunks

def Peer.turn (users : UsersInfo) (p : Peer) : Option Turn := (p.op users).map fun op => ⟨op, p.env⟩

/-- Its message is that of a client who gives a user's name and password; `uid` is the user. -/
def Peer.Authenticates (users : UsersInfo) (p : Peer) (uid : Int) : Prop :=
  ∃ user password head data, messageOf p.chunks = some (.client user password head data) ∧
    UsersInfo.check users user password = true ∧ UsersInfo.findUid users user = some uid

/-- The numbers in a data node's message, and its name. -/
def reportIn (room : Nat) : Handler → Option (List Nat × Str)
  | .dnode head data => (reported room head data).map fun l => (l, dnodeName head)
  | _ => none

def Peer.reports (p : Peer) : Option (List Nat × Str) := (messageOf p.chunks).bind (reportIn p.room)

def Peer.event (p : Peer) : Option Event :=
  p.reports.map fun q => .report p.order q.1 q.2 p.addr

/-- The node, and the connections it has served. -/
structure Site where
  node : CtrlNode
  served : List Peer

/-- A connection that has come to its end, by an exception or without one. -/
def ConnStep (users : UsersInfo) (s : Site) (p : Peer) (s' : Site) : Prop :=
  (∀ op ∈ p.op users, op.Allowed s.node) ∧ ∃ r c,
    serveConnection p.order p.room p.addr users p.chunks ⟨CtrlNode.answering s.node p.env, []⟩
      = .ok (r, c) ∧ s' = ⟨c.node, s.served ++ [p]⟩

def Booted (n₀ : CtrlNode) (s : Site) : Prop := Started n₀ ∧ s = ⟨n₀, []⟩

/-! ## What a message may ask for -/

section Messages

variable {users : UsersInfo} {uid : Int} {room : Nat} {head : Dict} {p : Peer} {op : Op}

theorem opOf_user {m : Method} {args : List Str} (h : opOf users uid m args = some op) :
    Op.user op = some uid ∧ Silent op := by
  unfold opOf at h
  split at h
  case h_12 =>
    obtain ⟨newuid, -, rfl⟩ := Option.map_eq_some_iff.mp h
    exact ⟨rfl, trivial⟩
  all_goals
    cases h
    try exact ⟨rfl, trivial⟩

theorem requestOp_user (h : requestOp room users uid head = some op) :
    Op.user op = some uid ∧ Silent op := by
  unfold requestOp at h
  simp only [Option.bind_eq_bind, Option.bind_eq_some_iff] at h
  obtain ⟨method, -, argc, -, z, -, h⟩ := h
  split at h
  · simp only [Option.bind_eq_some_iff] at h
    obtain ⟨args, -, m, -, h⟩ := h
    exact opOf_user h
  · cases h

/-- A call is made for the user who has given his password, or it is a report. -/
theorem op_cases (h : p.op users = some op) :
    (∃ uid, p.Authenticates users uid ∧ Op.user op = some uid ∧ Silent op ∧ p.reports = none) ∨
      ∃ l user, p.reports = some (l, user) ∧ op = .addBlockInfo p.order l user p.addr := by
  obtain ⟨hd, hmessage, hop⟩ := Option.bind_eq_some_iff.mp h
  unfold Peer.reports
  rw [hmessage]
  cases hd with
  | client user password head data =>
    change clientOp p.room users user password head = some op at hop
    unfold clientOp at hop
    split at hop
    · rename_i hcheck
      obtain ⟨uid, hfind, hrequest⟩ := Option.bind_eq_some_iff.mp hop
      obtain ⟨huser, hsilent⟩ := requestOp_user hrequest
      exact .inl ⟨uid, ⟨user, password, head, data, hmessage, hcheck, hfind⟩, huser, hsilent, rfl⟩
    · cases hop
  | dnode head data =>
    obtain ⟨l, hl, rfl⟩ := Option.map_eq_some_iff.mp hop
    refine .inr ⟨l, dnodeName head, ?_, rfl⟩
    change (reported p.room head data).map _ = _
    rw [hl]
    rfl
  | unknown head data => cases hop

/-- Without a call nothing is reported. -/
theorem reports_none (h : p.op users = none) : p.reports = none := by
  unfold Peer.op connectionOp at h
  unfold Peer.reports
  cases hmessage : messageOf p.chunks with
  | none => rfl
  | some hd =>
    rw [hmessage] at h
    cases hd with
    | dnode head data =>
      change (reported p.room head data).map _ = none at h
      change (reported p.room head data).map _ = none
      rw [Option.map_eq_none_iff] at h ⊢
      exact h
    | _ => rfl

end Messages

/-! ## Runs -/

section Runs

variable {users : UsersInfo} {n₀ : CtrlNode} {s s' : Site} {p : Peer}

/-- The node behind a connection: one call, or the node as it was. -/
theorem step_node (h : ConnStep users s p s') : s'.served = s.served ++ [p] ∧
    ((p.op users = none ∧ s'.node = CtrlNode.answering s.node p.env) ∨
      ∃ op r, p.op users = some op ∧ Ends s.node ⟨op, p.env⟩ r s'.node) := by
  obtain ⟨hallowed, r, c, hrun, rfl⟩ := h
  refine ⟨rfl, ?_⟩
  have hnode := serveConnection_node p.order p.room p.addr users p.chunks
    ⟨CtrlNode.answering s.node p.env, []⟩
  rw [hrun] at hnode
  change Except.ok c.node = called (p.op users) _ at hnode
  cases hop : p.op users with
  | none =>
    rw [hop] at hnode
    exact .inl ⟨rfl, Except.ok.inj hnode⟩
  | some op =>
    rw [hop] at hnode
    change Except.ok c.node = (op.run (CtrlNode.answering s.node p.env)).map Prod.snd at hnode
    cases hq : op.run (CtrlNode.answering s.node p.env) with
    | error stop =>
      rw [hq] at hnode
      cases hnode
    | ok q =>
      rw [hq] at hnode
      obtain ⟨r', n'⟩ := q
      obtain rfl : c.node = n' := Except.ok.inj hnode
      exact .inr ⟨op, r', rfl, hallowed op hop, hq⟩

theorem execOps_snoc {as : List Turn} {a : Turn} {n n₁ n' : CtrlNode}
    {rs : List (Except Exc Value)} {r : Except Exc Value} (h : execOps as n = some (rs, n₁))
    (hends : Ends n₁ a r n') : execOps (as ++ [a]) n = some (rs ++ [r], n') := by
  induction as generalizing n rs with
  | nil =>
    cases h
    rw [List.nil_append, execOps, if_pos hends.1, hends.2]
    rfl
  | cons b as ih =>
    obtain ⟨r', rs', n₂, rfl, hfirst, hrest⟩ := execOps_cons h
    have htail := ih hrest
    rw [List.cons_append, execOps, if_pos hfirst.1, hfirst.2]
    dsimp only
    rw [htail]
    rfl

/-- A run of connections is a run of the calls that their messages make, whatever the bytes. -/
theorem connections_refine (h : Reach (Booted n₀) (ConnStep users) s) :
    ∃ rs n e, execOps (s.served.filterMap (Peer.turn users)) n₀ = some (rs, n) ∧
      s.node = CtrlNode.answering n e := by
  induction h with
  | init hbooted =>
    obtain ⟨-, rfl⟩ := hbooted
    exact ⟨[], n₀, n₀.world.env, rfl, rfl⟩
  | @step s s' p _ hstep ih =>
    obtain ⟨rs, n, e, hexec, hnode⟩ := ih
    obtain ⟨hserved, hcase⟩ := step_node hstep
    rw [hserved, List.filterMap_append]
    rcases hcase with ⟨hop, hnode'⟩ | ⟨op, r, hop, hends⟩
    · have hturn : [p].filterMap (Peer.turn users) = [] := by
        simp [Peer.turn, hop]
      rw [hturn, List.append_nil]
      refine ⟨rs, n, p.env, hexec, ?_⟩
      rw [hnode', hnode]
      rfl
    · have hturn : [p].filterMap (Peer.turn users) = [⟨op, p.env⟩] := by
        simp [Peer.turn, hop]
      have hends' : Ends n ⟨op, p.env⟩ r s'.node := by
        rw [hnode] at hends
        exact hends
      rw [hturn]
      exact ⟨rs ++ [r], s'.node, s'.node.world.env, execOps_snoc hexec hends', rfl⟩

/-- Nobody else's descriptors are touched. -/
theorem pools_step (hp : Partitioned s.node) (h : ConnStep users s p s') : Partitioned s'.node ∧
    ∀ u, ¬ p.Authenticates users u → ∀ k,
      CtrlNode.getFile s'.node u k = CtrlNode.getFile s.node u k := by
  obtain ⟨-, ⟨-, hnode⟩ | ⟨op, r, hop, hends⟩⟩ := step_node h
  · rw [hnode]
    exact ⟨hp, fun u _ k => rfl⟩
  · have hsound : PoolsSound ⟨s.node, CtrlNode.getFile s.node⟩ := ⟨hp, fun _ _ => rfl⟩
    refine ⟨(poolsSound_step hsound ⟨r, hends, rfl⟩ : PoolsSound ⟨s'.node, _⟩).partition,
      fun u hu k => (callSound hsound hends).isolated u (fun huser => ?_) k⟩
    rcases op_cases hop with ⟨uid, hauth, huid, -⟩ | ⟨l, name, -, rfl⟩
    · rw [huid] at huser
      exact hu (Option.some.inj huser ▸ hauth)
    · cases huser

/-- A message that is nobody's leaves the disk alone. -/
theorem disk_step (h : ConnStep users s p s') (hnone : ∀ u, ¬ p.Authenticates users u) :
    s'.node.world.dt = s.node.world.dt ∧ s'.node.calls = s.node.calls := by
  obtain ⟨-, ⟨-, hnode⟩ | ⟨op, r, hop, -, hrun⟩⟩ := step_node h
  · rw [hnode]
    exact ⟨rfl, rfl⟩
  · rcases op_cases hop with ⟨uid, hauth, -⟩ | ⟨l, name, -, rfl⟩
    · exact absurd hauth (hnone uid)
    · obtain ⟨n', served⟩ := s'
      cases hrun
      exact ⟨rfl, rfl⟩

theorem partitioned_run (h : Reach (Booted n₀) (ConnStep users) s) : Partitioned s.node := by
  refine h.inv (I := fun s => Partitioned s.node) (fun s hs => ?_)
    fun s p s' hp hstep => (pools_step hp hstep).1
  obtain ⟨hstarted, rfl⟩ := hs
  intro uid q hq
  rw [hstarted.fds] at hq
  cases hq

/-- In every run of connections, who has not given a user's name and password holds no descriptor of
that user; and as long as nobody has given any, no function of the C library is called and the disk
is as it was. -/
theorem connections_authenticated (h : Reach (Booted n₀) (ConnStep users) s) :
    (∀ u, (∀ p ∈ s.served, ¬ p.Authenticates users u) → ∀ k, CtrlNode.getFile s.node u k = none) ∧
      ((∀ p ∈ s.served, ∀ u, ¬ p.Authenticates users u) →
        s.node.world.dt = n₀.world.dt ∧ s.node.calls = []) := by
  induction h with
  | init hbooted =>
    obtain ⟨hstarted, rfl⟩ := hbooted
    refine ⟨fun u _ k => ?_, fun _ => ⟨rfl, hstarted.calls⟩⟩
    unfold CtrlNode.getFile
    rw [hstarted.fds]
    rfl
  | @step s s' p hreach hstep ih =>
    obtain ⟨hserved, -⟩ := step_node hstep
    obtain ⟨hpools, hdisk⟩ := ih
    have hbefore : ∀ {P : Peer → Prop}, (∀ q ∈ s'.served, P q) → (∀ q ∈ s.served, P q) ∧ P p := by
      intro P hall
      rw [hserved] at hall
      exact ⟨fun q hq => hall q (List.mem_append_left _ hq),
        hall p (List.mem_append_right _ (List.mem_singleton_self p))⟩
    refine ⟨fun u hu k => ?_, fun hall => ?_⟩
    · obtain ⟨hold, hnew⟩ := hbefore hu
      rw [(pools_step (partitioned_run hreach) hstep).2 u hnew k]
      exact hpools u hold k
    · obtain ⟨hold, hnew⟩ := hbefore hall
      obtain ⟨hdt, hcalls⟩ := disk_step hstep hnew
      rw [hdt, hcalls]
      exact hdisk hold

/-! ## Reports -/

/-- The reports that came in, the last one first. -/
def Site.told (s : Site) : List Event := (s.served.filterMap Peer.event).reverse

/-- The maps are those of the reports. -/
def Told (s : Site) : Prop := ∃ n, History s.told n ∧ SameMaps n s.node

theorem told_step (h : Told s) (hstep : ConnStep users s p s') : Told s' := by
  obtain ⟨n, hhist, hsame⟩ := h
  obtain ⟨hserved, hcase⟩ := step_node hstep
  have htold : s'.told = (p.event).toList ++ s.told := by
    unfold Site.told
    rw [hserved, List.filterMap_append, List.reverse_append]
    cases hevent : p.event with
    | none => simp [hevent]
    | some e => simp [hevent]
  unfold Told
  rw [htold]
  rcases hcase with ⟨hop, hnode⟩ | ⟨op, r, hop, hallowed, hrun⟩
  · have hnone : p.event = none := by
      unfold Peer.event
      rw [reports_none hop]
      rfl
    rw [hnone, hnode]
    exact ⟨n, hhist, hsame.ipmap, hsame.ips, hsame.blockmap⟩
  · rcases op_cases hop with ⟨uid, -, -, hsilent, hnone⟩ | ⟨l, user, hreports, rfl⟩
    · have hevent : p.event = none := by
        unfold Peer.event
        rw [hnone]
        rfl
      have hmaps : SameMaps (CtrlNode.answering s.node p.env) s'.node :=
        (sameMaps_run hsilent).rel hrun
      rw [hevent]
      exact ⟨n, hhist, hmaps.ipmap.trans hsame.ipmap, hmaps.ips.trans hsame.ips,
        hmaps.blockmap.trans hsame.blockmap⟩
    · have hevent : p.event = some (.report p.order l user p.addr) := by
        unfold Peer.event
        rw [hreports]
        rfl
      have hperm : p.order.Perm (n.ipmap.insert user p.addr).keys := by
        rw [← hsame.ipmap]
        exact hallowed
      obtain ⟨n₁, hrun₁, hipmap, hips, hblocks⟩ := report_run p.order l user p.addr n
      obtain ⟨n₂, hrun₂, hipmap', hips', hblocks'⟩ :=
        report_run p.order l user p.addr (CtrlNode.answering s.node p.env)
      obtain rfl : s'.node = n₂ := by
        have hsecond : (Op.addBlockInfo p.order l user p.addr).run (CtrlNode.answering s.node p.env)
            = .ok (.ok .none, n₂) := bind_step hrun₂ _
        rw [hsecond] at hrun
        exact (congrArg Prod.snd (Except.ok.inj hrun)).symm
      have hmap : s'.node.ipmap = n₁.ipmap := by
        rw [hipmap', hipmap]
        exact congrArg _ hsame.ipmap
      rw [hevent]
      have hcall : History (.report p.order l user p.addr :: s.told) n₁ :=
        .call (e := .report p.order l user p.addr) hhist hperm hrun₁
      refine ⟨n₁, hcall, hmap, ?_, ?_⟩
      · rw [hips', hips, hmap]
      · have hold : (CtrlNode.answering s.node p.env).blockmap = n.blockmap := hsame.blockmap
        rw [hblocks', hblocks, hold]

theorem told_run (h : Reach (Booted n₀) (ConnStep users) s) : Told s := by
  refine h.inv (I := Told) (fun s hs => ?_) fun s p s' ht hstep => told_step ht hstep
  obtain ⟨hstarted, rfl⟩ := hs
  exact ⟨n₀, .start hstarted.blockmap hstarted.ipmap hstarted.ips, rfl, rfl, rfl⟩

/-- The address that the data node came from last. -/
def lastAddress (ps : List Peer) (user : Str) : Option Str :=
  (ps.reverse.find? fun p => p.reports.any fun q => user = q.2).map Peer.addr

theorem address_told (ps : List Peer) (user : Str) :
    address (ps.filterMap Peer.event).reverse user = lastAddress ps user := by
  unfold lastAddress
  rw [← List.filterMap_reverse]
  induction ps.reverse with
  | nil => rfl
  | cons p qs ih =>
    unfold Peer.event at ih ⊢
    rw [List.filterMap_cons, List.find?_cons]
    cases hreports : p.reports with
    | none => exact ih
    | some q =>
      simp only [Option.map_some, Option.any_some, address]
      by_cases hu : user = q.2
      · simp [hu]
      · simpa [hu] using ih

/-- The data node has reported the block. -/
def ReportedIn (ps : List Peer) (block : Nat) (user : Str) : Prop :=
  ∃ p ∈ ps, ∃ l, p.reports = some (l, user) ∧ block ∈ l

theorem reported_told (ps : List Peer) (block : Nat) (user : Str) :
    Reported (ps.filterMap Peer.event).reverse block user ↔ ReportedIn ps block user := by
  unfold Reported ReportedIn
  constructor
  · rintro ⟨order, l, ip, hmem, hb⟩
    obtain ⟨p, hp, hevent⟩ := List.mem_filterMap.mp (List.mem_reverse.mp hmem)
    obtain ⟨q, hq, heq⟩ := Option.map_eq_some_iff.mp hevent
    cases heq
    exact ⟨p, hp, q.1, hq, hb⟩
  · rintro ⟨p, hp, l, hl, hb⟩
    refine ⟨p.order, l, p.addr, List.mem_reverse.mpr (List.mem_filterMap.mpr ⟨p, hp, ?_⟩), hb⟩
    unfold Peer.event
    rw [hl]
    rfl

/-- Who has reported a block has an address. -/
theorem lastAddress_isSome {ps : List Peer} {block : Nat} {user : Str}
    (h : ReportedIn ps block user) :
    (lastAddress ps user).isSome := by
  obtain ⟨p, hp, l, hl, -⟩ := h
  unfold lastAddress
  rw [Option.isSome_map, List.find?_isSome]
  refine ⟨p, List.mem_reverse.mpr hp, ?_⟩
  rw [hl]
  simp

/-- In every run of connections the control node knows of each block the data nodes that have
reported it, each under the address it came from last, and hands out just these addresses; a block
that has been reported is never forgotten. -/
theorem reports_run (h : Reach (Booted n₀) (ConnStep users) s) :
    (∀ block user, user ∈ (s.node.blockmap.lookup block).getD ∅ ↔ ReportedIn s.served block user) ∧
      (∀ user, s.node.ipmap.lookup user = lastAddress s.served user) ∧
      (∀ block, Located s.node block ↔ ∃ user, ReportedIn s.served block user) ∧
      IpsExact s.node := by
  obtain ⟨n, hhist, hsame⟩ := told_run h
  have haddress : ∀ user, n.ipmap.lookup user = lastAddress s.served user :=
    fun user => (address_eq hhist user).trans (address_told _ _)
  have hstale : ∀ ps : List Peer, ¬ Stale (ps.filterMap Peer.event).reverse := by
    intro ps
    rw [← List.filterMap_reverse]
    induction ps.reverse with
    | nil => exact fun h => h
    | cons p qs ih =>
      rw [List.filterMap_cons]
      unfold Peer.event at ih ⊢
      cases p.reports with
      | none => exact ih
      | some q => exact fun h => h
  refine ⟨fun block user => ?_, fun user => ?_, fun block => ?_, ?_⟩
  · rw [hsame.blockmap, reported_iff hhist]
    exact reported_told _ _ _
  · rw [hsame.ipmap, haddress]
  · have hlocated : Located s.node block ↔ Located n block := by
      unfold Located
      rw [hsame.blockmap, hsame.ipmap]
    rw [hlocated, located_iff hhist]
    unfold Known
    simp only [reported_told, Site.told]
    constructor
    · exact fun hk => hk.1
    · refine fun hr => ⟨hr, fun user hu => ?_⟩
      rw [address_told]
      exact lastAddress_isSome hu
  · obtain ⟨order, hperm, hips⟩ := ips_exact hhist (hstale s.served)
    refine ⟨order, ?_, ?_⟩
    · rw [hsame.ipmap]
      exact hperm
    · rw [hsame.ips, hsame.ipmap]
      exact hips

end Runs

/-! ## A run of three connections -/

/-- The connections one after another. -/
def servePeers (users : UsersInfo) : List Peer → Site → Option Site
  | [], s => some s
  | p :: ps, s =>
    if ∀ op ∈ p.op users, op.Allowed s.node then
      match serveConnection p.order p.room p.addr users p.chunks
        ⟨CtrlNode.answering s.node p.env, []⟩ with
      | .ok (_, c) => servePeers users ps ⟨c.node, s.served ++ [p]⟩
      | .error _ => none
    else none

theorem reach_servePeers {users : UsersInfo} {n₀ : CtrlNode} {ps : List Peer} {s s' : Site}
    (hs : Reach (Booted n₀) (ConnStep users) s) (h : servePeers users ps s = some s') :
    Reach (Booted n₀) (ConnStep users) s' ∧ s'.served = s.served ++ ps := by
  induction ps generalizing s with
  | nil =>
    cases h
    exact ⟨hs, (List.append_nil _).symm⟩
  | cons p ps ih =>
    rw [servePeers] at h
    split at h
    · rename_i hallowed
      split at h
      · rename_i r c hrun
        obtain ⟨hreach, hserved⟩ := ih (hs.step ⟨hallowed, r, c, hrun, rfl⟩) h
        exact ⟨hreach, hserved.trans (List.append_assoc ..)⟩
      · cases h
    · cases h

/-- A report in two pieces, a login that fails, and the root directory opened. -/
def visitors : List Peer :=
  [⟨addrD, [ascii "SBPFS/1.0\r\nUser: DNode_d\r\nBlockNum: 1\r\nContent-Length: 8\r\n\r\n",
      [7, 0, 0, 0, 0, 0, 0, 0]], [nodeD], 8, Cfs.Invariants.calm⟩,
    ⟨ascii "5.6.7.8",
      [ascii ("SBPFS/1.0\r\nUser: Client_root\r\nPassword: x\r\nMethod: MKDIR\r\n" ++
      "Argc: 1\r\nArg0: /b\r\nContent-Length: 0\r\n\r\n")], [], 8, Cfs.Invariants.calm⟩,
    ⟨ascii "5.6.7.8",
      [ascii ("SBPFS/1.0\r\nUser: Client_root\r\nPassword: secret\r\nMethod: OPENDIR\r\n" ++
      "Argc: 1\r\nArg0: /\r\nContent-Length: 0\r\n\r\n")], [], 8, Cfs.Invariants.calm⟩]

/-- A control node that has just started serves the first `k` of them. -/
theorem reach_visitors {k : Nat}
    (hrun : (bootNode.bind fun n => servePeers rootOnly (visitors.take k) ⟨n, []⟩).isSome = true) :
    ∃ (n₀ : CtrlNode) (s : Site), Reach (Booted n₀) (ConnStep rootOnly) s ∧ s.served
      = visitors.take k := by
  obtain ⟨s, hs⟩ := Option.isSome_iff_exists.mp hrun
  obtain ⟨n₀, hboot, hserve⟩ := Option.bind_eq_some_iff.mp hs
  have hstart : Reach (Booted n₀) (ConnStep rootOnly) ⟨n₀, []⟩ :=
    .init ⟨(bootNode_fresh hboot).1, rfl⟩
  obtain ⟨hreach, hserved⟩ := reach_servePeers hstart hserve
  exact ⟨n₀, s, hreach, hserved⟩

theorem connections_refine_visitors :
    ∃ (n₀ : CtrlNode) (s : Site) (rs : _) (n : CtrlNode) (e : Env),
    s.served = visitors ∧
    execOps (s.served.filterMap (Peer.turn rootOnly)) n₀ = some (rs, n) ∧
      s.node = CtrlNode.answering n e := by
  obtain ⟨n₀, s, hreach, hserved⟩ := reach_visitors (k := 3) (by decide +kernel)
  obtain ⟨rs, n, e, hexec, hnode⟩ := connections_refine hreach
  exact ⟨n₀, s, rs, n, e, hserved, hexec, hnode⟩

/-- The handler of a client lets the message pass. -/
def admits (users : UsersInfo) : Handler → Bool
  | .client user password _ _ => UsersInfo.check users user password
  | _ => false

theorem admits_of_authenticates {users : UsersInfo} {p : Peer} {uid : Int}
    (h : p.Authenticates users uid) : (messageOf p.chunks).any (admits users) = true := by
  obtain ⟨user, password, head, data, hmessage, hcheck, -⟩ := h
  rw [hmessage]
  exact hcheck

/-- The first two have not logged in. -/
theorem connections_authenticated_visitors : ∃ (n₀ : CtrlNode) (s : Site),
    s.served = visitors.take 2 ∧ (∀ k, CtrlNode.getFile s.node 0 k = none) ∧
    s.node.world.dt = n₀.world.dt ∧ s.node.calls = [] := by
  obtain ⟨n₀, s, hreach, hserved⟩ := reach_visitors (k := 2) (by decide +kernel)
  have hnone : ∀ p ∈ s.served, ∀ u, ¬ p.Authenticates rootOnly u := by
    intro p hp u hauth
    have hrefused : (visitors.take 2).all (fun p => !(messageOf p.chunks).any (admits rootOnly))
      = true := by
      decide +kernel
    rw [hserved] at hp
    have hp' := List.all_eq_true.mp hrefused p hp
    rw [admits_of_authenticates hauth] at hp'
    cases hp'
  obtain ⟨hpools, hdisk⟩ := connections_authenticated hreach
  exact ⟨n₀, s, hserved, hpools 0 fun p hp => hnone p hp 0, hdisk hnone⟩

theorem reports_run_visitors :
    ∃ (n₀ : CtrlNode) (s : Site), Reach (Booted n₀) (ConnStep rootOnly) s ∧
    s.served = visitors ∧ s.node.ipmap.lookup nodeD = some addrD ∧ Located s.node 7 := by
  obtain ⟨n₀, s, hreach, hserved⟩ := reach_visitors (k := 3) (by decide +kernel)
  obtain ⟨-, haddress, hlocated, -⟩ := reports_run hreach
  have hlast : lastAddress visitors nodeD = some addrD := by decide +kernel
  have hfirst : (visitors.head?.bind Peer.reports).any (fun q => q == ([7], nodeD)) = true := by
    decide +kernel
  obtain ⟨p, hp, hreports⟩ : ∃ p ∈ visitors, p.reports = some ([7], nodeD) := by
    obtain ⟨q, hq, heq⟩ := Option.any_eq_true _ _ |>.mp hfirst
    obtain ⟨p, hp, hreports⟩ := Option.bind_eq_some_iff.mp hq
    exact ⟨p, List.mem_of_mem_head? hp, hreports.trans (congrArg some (eq_of_beq heq))⟩
  refine ⟨n₀, s, hreach, hserved, ?_, ?_⟩
  · rw [haddress, hserved]
    exact hlast
  · refine (hlocated 7).mpr ⟨nodeD, p, ?_, [7], hreports, List.mem_singleton_self 7⟩
    rw [hserved]
    exact hp

end Sbpfs.Cnode.ConnectionRuns
