import Sbpfs.Net.FileArray
import Sbpfs.Net.Replies

/-!
# The client's calls with their messages

`sbp_stat`, `sbp_readdir`, `sbp_read` and `sbp_write` do with messages what they do when the reply
of the control node is handed over.
-/
namespace Sbpfs.Net.Carried

open Sbpfs.Lib.Program Sbpfs.Lib.Raise Sbpfs.Lib.Run Sbpfs.Lib.Search Sbpfs.Lib.Pack
open Sbpfs.Cfs.Layout (CStr u64OfInt)
open Sbpfs.Cfs.Query (statOf)
open Sbpfs.Cfs.Rules
open Sbpfs.Cfs.DataSpec (u64OfInt_nat)
open Sbpfs.Cfs.ChainLaws (vast vast_ample)
open Sbpfs.Wire.Head Sbpfs.Wire.HeadSpec Sbpfs.Wire.Number
open Sbpfs.Libc.Request Sbpfs.Libc.RequestSpec Sbpfs.Libc.Recv
open Sbpfs.Libc.Table (Fds FileDesc T_FILE)
open Sbpfs.Libc.Transfer Sbpfs.Libc.Directory
open Sbpfs.Cnode Sbpfs.Cnode.RequestFields Sbpfs.Cnode.Libcfs Sbpfs.Cnode.Ops Sbpfs.Cnode.ReplyLaws
open Sbpfs.Cnode.Frame Sbpfs.Cnode.DiskSteps
open Sbpfs.Cnode.Dispatch (exceptArguments serveMethod)
open Sbpfs.Cnode.OpenObjects (pathA)
open Sbpfs.Cnode.Descriptors (Session Begun SessionStep runOps reach_runOps)
open Sbpfs.Dnode.BlockStore (freshNode)
open Sbpfs.Net.Parties Sbpfs.Net.Granting Sbpfs.Net.FailedWrites Sbpfs.Net.Queries
    Sbpfs.Net.Messages
open Sbpfs.Net.Replies
open Sbpfs.Net.Contents (serve_read)
open Sbpfs.Net.FileArray (siteA)
open Sbpfs.Cnode.Users (UsersInfo)

/-! ## What the client makes of the replies -/

section Client

variable {σ α : Type} {a b : Answer} {s : σ} {l : Login}

theorem saysOk_same (h : Same a b) : a.saysOk = b.saysOk := by
  unfold Answer.saysOk
  rw [h.title]

theorem number_same (h : Same a b) :
    u64OfInt (atoll (decimal 0 (b.data.length : Int))) = b.data.length := by
  have hsize := h.size
  rw [atoll_decimal (by omega)]
  exact u64OfInt_nat (by omega)

theorem announced_same (h : Same a b) (size : Nat) : announced a size = announced b size := by
  unfold announced
  rw [saysOk_same h, h.valueOf, h.length]
  by_cases hsize : b.data.length = size
  · subst hsize
    rw [h.data]
    simp
  · simp only [number_same h, ne_eq, hsize, not_false_eq_true, if_true]

theorem blockEntries_same (h : Same a b) : blockEntries a = blockEntries b := by
  unfold blockEntries
  rw [saysOk_same h, h.valueOf, h.length]
  have hlonger : b.data.length ≤ (b.data ++ [0]).length := by
    rw [List.length_append]
    omega
  simp only [number_same h, h.data, if_pos hlonger, if_pos (Nat.le_refl b.data.length)]
  by_cases hwhole : b.data.length % entrySize = 0
  · have hentries : (List.range (b.data.length / entrySize)).map (blockEntryAt (b.data ++ [0]))
        = (List.range (b.data.length / entrySize)).map (blockEntryAt b.data) := by
      apply List.map_congr_left
      intro i hi
      have hlt := List.mem_range.mp hi
      simp only [entrySize] at hlt hwhole
      unfold blockEntryAt
      rw [slice_append_left (by simp only [entrySize]; omega)]
    rw [hentries]
  · simp only [ne_eq, hwhole, not_false_eq_true, if_true]

/-- A program goes on alike behind calls that agree. -/
theorem bind_agree {m m' : Prog σ (Option Answer)} {f : Option Answer → Prog σ α}
    (h : Agree (m s) (m' s))
    (hf : ∀ a b, Same a b → f (some a) = f (some b)) : (m >>= f) s = (m' >>= f) s := by
  change (m s >>= fun p => f p.1 p.2) = (m' s >>= fun p => f p.1 p.2)
  rcases h with ⟨a, b, t, hm, hm', hrel⟩ | ⟨e, hm, hm'⟩
  · rw [hm, hm']
    cases hrel with
    | none => rfl
    | some hsame => exact congrArg (fun g => g t) (hf _ _ hsame)
  · rw [hm, hm']

theorem sbpStat_agree {control other : String → List Str → Prog σ (Option Answer)} {path : CStr}
    (h : Agree (control "STAT" [bytesOf path] s) (other "STAT" [bytesOf path] s)) :
    Libc.Directory.sbpStat control l path s = Libc.Directory.sbpStat other l path s := by
  unfold Libc.Directory.sbpStat
  cases hprep : prepareRequest l with
  | error e => rfl
  | ok usr =>
    have hcheck : check (.ok usr) s = .ok (usr, s) := rfl
    rw [bind_run hcheck, bind_run hcheck]
    refine bind_agree h fun a b hsame => ?_
    dsimp only
    rw [announced_same hsame]

/-- A descriptor is looked up before anything is asked. -/
theorem slot_cases (fds : Fds) (fd : Int) (s : σ) :
    slot fds fd s = .ok (fds fd.toNat, s) ∨ slot fds fd s = .error .fault := by
  unfold slot
  split
  · exact .inr rfl
  · exact .inl rfl

theorem sbpReaddir_agree {control other : String → List Str → Prog σ (Option Answer)} {fds : Fds}
    {dirfd : Int} (h : ∀ d, fds dirfd.toNat = some d →
      Agree (control "READDIR" [decimal 0 (s64 d.serverFd.toNat), decimal 0 (s64 d.offset.toNat)] s)
        (other "READDIR" [decimal 0 (s64 d.serverFd.toNat), decimal 0 (s64 d.offset.toNat)] s)) :
    Libc.Directory.sbpReaddir control l fds dirfd s
      = Libc.Directory.sbpReaddir other l fds dirfd s := by
  unfold Libc.Directory.sbpReaddir
  by_cases hneg : dirfd < 0
  · rw [if_pos hneg, if_pos hneg]
  rw [if_neg hneg, if_neg hneg]
  rcases slot_cases fds dirfd s with hslot | hfault
  · rw [bind_run hslot, bind_run hslot]
    cases hd : fds dirfd.toNat with
    | none => rfl
    | some d =>
      dsimp only
      cases hprep : prepareRequest l with
      | error e => rfl
      | ok usr =>
        have hcheck : check (.ok usr) s = .ok (usr, s) := rfl
        rw [bind_run hcheck, bind_run hcheck]
        refine bind_agree (h d hd) fun a b hsame => ?_
        dsimp only
        rw [announced_same hsame]
  · change (slot fds dirfd s >>= _) = (slot fds dirfd s >>= _)
    rw [hfault]
    rfl

section Links

variable {net net' : Link σ} {d : FileDesc} {fds : Fds} {fd : Int} {buf : Str} {len : UInt64}

theorem readFile_alike (hconnect : net.connect = net'.connect)
    (htransfer : net.transfer = net'.transfer)
    (h : askBlocks net l d len "READ" s = askBlocks net' l d len "READ" s) :
    readFile net l d buf len s = readFile net' l d buf len s := by
  obtain ⟨control, connect, transfer⟩ := net
  obtain ⟨control', connect', transfer'⟩ := net'
  cases hconnect
  cases htransfer
  unfold readFile
  change (askBlocks _ l d len "READ" s >>= _) = (askBlocks _ l d len "READ" s >>= _)
  rw [h]
  rfl

theorem writeFile_alike (hconnect : net.connect = net'.connect)
    (htransfer : net.transfer = net'.transfer)
    (h : askBlocks net l d len "WRITE" s = askBlocks net' l d len "WRITE" s) :
    writeFile net l d buf len s = writeFile net' l d buf len s := by
  obtain ⟨control, connect, transfer⟩ := net
  obtain ⟨control', connect', transfer'⟩ := net'
  cases hconnect
  cases htransfer
  unfold writeFile
  change (askBlocks _ l d len "WRITE" s >>= _) = (askBlocks _ l d len "WRITE" s >>= _)
  rw [h]
  rfl

theorem sbpRead_alike (hconnect : net.connect = net'.connect)
    (htransfer : net.transfer = net'.transfer)
    (h : ∀ d, fds fd.toNat = some d → askBlocks net l d len "READ" s
      = askBlocks net' l d len "READ" s) :
    Libc.Transfer.sbpRead net l fds fd buf len s
      = Libc.Transfer.sbpRead net' l fds fd buf len s := by
  unfold Libc.Transfer.sbpRead
  by_cases hneg : fd < 0
  · rw [if_pos hneg, if_pos hneg]
  rw [if_neg hneg, if_neg hneg]
  rcases slot_cases fds fd s with hslot | hfault
  · rw [bind_run hslot, bind_run hslot]
    cases hd : fds fd.toNat with
    | none => rfl
    | some d =>
      dsimp only
      by_cases htype : d.type = T_FILE
      · rw [if_pos htype, if_pos htype]
        change (readFile net l d buf len s >>= _) = (readFile net' l d buf len s >>= _)
        rw [readFile_alike hconnect htransfer (h d hd)]
      · rw [if_neg htype, if_neg htype]
  · change (slot fds fd s >>= _) = (slot fds fd s >>= _)
    rw [hfault]
    rfl

theorem sbpWrite_alike (hconnect : net.connect = net'.connect)
    (htransfer : net.transfer = net'.transfer)
    (h : ∀ d, fds fd.toNat = some d → askBlocks net l d len "WRITE" s
      = askBlocks net' l d len "WRITE" s) :
    Libc.Transfer.sbpWrite net l fds fd buf len s
      = Libc.Transfer.sbpWrite net' l fds fd buf len s := by
  unfold Libc.Transfer.sbpWrite
  by_cases hneg : fd < 0
  · rw [if_pos hneg, if_pos hneg]
  rw [if_neg hneg, if_neg hneg]
  rcases slot_cases fds fd s with hslot | hfault
  · rw [bind_run hslot, bind_run hslot]
    cases hd : fds fd.toNat with
    | none => rfl
    | some d =>
      dsimp only
      by_cases htype : d.type = T_FILE
      · rw [if_pos htype, if_pos htype]
        change (writeFile net l d buf len s >>= _) = (writeFile net' l d buf len s >>= _)
        rw [writeFile_alike hconnect htransfer (h d hd)]
      · rw [if_neg htype, if_neg htype]
  · change (slot fds fd s >>= _) = (slot fds fd s >>= _)
    rw [hfault]
    rfl

end Links

end Client

/-! ## The calls of the client -/

/-- A step of the control node, as one of the cluster. -/
def onCtrl {α : Type} (m : Prog CtrlNode α) : Prog Cluster α := fun s =>
  match m s.ctrl with
  | .ok (a, n) => .ok (a, { s with ctrl := n })
  | .error e => .error e

/-- The link on which the control node is asked with messages. -/
def messageLink (p : Passage) (users : UsersInfo) (stray : Str) (l : Login) : Link Cluster :=
  ⟨fun method args => onCtrl (p.control users stray l method args), connect, transfer⟩

/-- The arguments of `READ` and `WRITE`. -/
def blockArgs (d : FileDesc) (len : UInt64) : List Str :=
  [decimal 0 (s64 d.serverFd.toNat), decimal 0 (s64 d.offset.toNat), decimal 0 (s64 len.toNat)]

section Carried

variable {p : Passage} {users : UsersInfo} {uid : Int} {l : Login} {stray : Str} {method : String}
  {m : Py (List Cfs.Data.SendBlock)} {d : FileDesc} {buf : Str} {len : UInt64}
  {s : Cluster} {fds : Fds}
  {fd : Int}

theorem blockArgs_free (d : FileDesc) (len : UInt64) : ∀ a ∈ blockArgs d len, Free crlf a := by
  intro a ha
  simp only [blockArgs, List.mem_cons, List.not_mem_nil, or_false] at ha
  rcases ha with rfl | rfl | rfl <;> exact decimal_free 0 _

theorem askBlocks_asked {net : Link Cluster} {answer : Option Answer} {t : Cluster} (hfit : Fits l)
    (h : net.control method (blockArgs d len) s = .ok (answer, t)) :
    askBlocks net l d len method s = check (answer.elim (.ok none) blockEntries) t := by
  unfold askBlocks
  rw [prepareRequest_eq hfit, bind_run (show check (.ok _) s = .ok (_, s) from rfl)]
  change (net.control method (blockArgs d len) >>= _) s = _
  rw [bind_run h]
  cases answer <;> rfl

theorem askBlocks_stops {net : Link Cluster} {e : Stop} (hfit : Fits l)
    (h : net.control method (blockArgs d len) s = .error e) :
    askBlocks net l d len method s = .error e := by
  unfold askBlocks
  rw [prepareRequest_eq hfit, bind_run (show check (.ok _) s = .ok (_, s) from rfl)]
  change (net.control method (blockArgs d len) s >>= _) = _
  rw [h]
  rfl

/-- The client gets the block entries that it gets when the reply is handed over. -/
theorem askBlocks_carried (h : Known users uid l) (hroom : 3 ≤ p.room) (hheard : p.heard = true)
    (hmethod : Free crlf (ascii method))
    (hserve : serveMethod users uid (ascii method) (blockArgs d len)
      = exceptArguments (Dispatch.answer m repBlocks))
    (hplain : PlainReplies users uid method (blockArgs d len) s.ctrl)
    (htrust : Trusts p users uid stray method (blockArgs d len) s.ctrl) :
    askBlocks (messageLink p users stray l) l d len method s
      = askBlocks (netLink users uid) l d len method s := by
  have hfit : Fits l := h.unaltered.1
  have hagree := control_agrees h hmethod (blockArgs_free d len) (Nat.le_refl 3) hroom hplain htrust
  rw [hheard] at hagree
  cases hcall : serveMethod users uid (ascii method) (blockArgs d len) ⟨s.ctrl, []⟩ with
  | error e =>
    have hask : ask users uid true stray method (blockArgs d len) s.ctrl = .error e := by
      unfold ask
      rw [hcall]
    have hnet : (netLink users uid).control method (blockArgs d len) s = .error e := by
      change Parties.control users uid method (blockArgs d len) s = _
      unfold Parties.control
      rw [hcall]
    have hlink : (messageLink p users stray l).control method (blockArgs d len) s = .error e := by
      rcases hagree with ⟨-, b, n', -, hok, -⟩ | ⟨e', hcontrol, herror⟩
      · cases hask.symm.trans hok
      · cases hask.symm.trans herror
        change onCtrl (p.control users stray l method (blockArgs d len)) s = _
        unfold onCtrl
        rw [hcontrol]
    rw [askBlocks_stops hfit hlink, askBlocks_stops hfit hnet]
  | ok q =>
    obtain ⟨q, c⟩ := q
    have hask : ask users uid true stray method (blockArgs d len) s.ctrl
        = .ok (c.sent.head?.map (heardOf stray), c.node) := by
      unfold ask
      rw [hcall]
      rfl
    have hnet : (netLink users uid).control method (blockArgs d len) s
        = .ok (c.sent.head?.map answerOf, { s with ctrl := c.node }) := by
      change Parties.control users uid method (blockArgs d len) s = _
      unfold Parties.control
      rw [hcall]
    rcases hagree with ⟨a, b, n', hcontrol, hok, hrel⟩ | ⟨e', -, herror⟩
    · cases hask.symm.trans hok
      have hlink : (messageLink p users stray l).control method (blockArgs d len) s
          = .ok (a, { s with ctrl := c.node }) := by
        change onCtrl (p.control users stray l method (blockArgs d len)) s = _
        unfold onCtrl
        rw [hcontrol]
      rw [askBlocks_asked hfit hlink, askBlocks_asked hfit hnet]
      congr 1
      -- a list of blocks is read as it is, and what says ERROR is not read at all
      rcases @sent_answer _ users uid method _ m Value.blocks (fun _ => []) _ _ _ hserve hcall with
        hsent | ⟨data, -, -, hsent⟩ | ⟨-, -, t, -, -, hsent⟩
      · rw [hsent] at hrel ⊢
        cases hrel
        rfl
      · rw [hsent] at hrel ⊢
        cases hrel with
        | some hsame => exact blockEntries_same hsame
      · rw [hsent] at hrel ⊢
        cases hrel with
        | some hsame => exact blockEntries_same hsame
    · cases hask.symm.trans herror

theorem s64_small (k : UInt64) : (s64 k.toNat).natAbs < 10 ^ 20 := by
  have hlt := k.toNat_lt
  unfold s64
  split <;> omega

/-- The arguments of `READDIR`. -/
def entryArgs (d : FileDesc) : List Str :=
  [decimal 0 (s64 d.serverFd.toNat), decimal 0 (s64 d.offset.toNat)]

theorem stat_carried {path : CStr} {n : CtrlNode} (h : Known users uid l) (hroom : 1 ≤ p.room)
    (hpath : Free crlf (bytesOf path)) (htrust : Trusts p users uid stray "STAT" [bytesOf path] n) :
    Libc.Directory.sbpStat (p.control users stray l) l path n
      = Libc.Directory.sbpStat (ask users uid p.heard stray) l path n := by
  refine sbpStat_agree (control_agrees h (by decide) (fun a ha => ?_) (by simp) ?_
    (plain_stat _) htrust)
  · exact List.mem_singleton.mp ha ▸ hpath
  · rwa [List.length_singleton]

theorem readdir_carried {dirfd : Int} {n : CtrlNode} (h : Known users uid l) (hroom : 2 ≤ p.room)
    (htrust : ∀ d, fds dirfd.toNat = some d → Trusts p users uid stray "READDIR" (entryArgs d) n) :
    Libc.Directory.sbpReaddir (p.control users stray l) l fds dirfd n
      = Libc.Directory.sbpReaddir (ask users uid p.heard stray) l fds dirfd n := by
  refine sbpReaddir_agree fun d hd => ?_
  refine control_agrees h (by decide) (fun a ha => ?_) (by simp) hroom
    (plain_readdir (s64_small _) _)
    (htrust d hd)
  simp only [List.mem_cons, List.not_mem_nil, or_false] at ha
  rcases ha with rfl | rfl <;> exact decimal_free 0 _

theorem read_carried (h : Known users uid l) (hroom : 3 ≤ p.room) (hheard : p.heard = true)
    (hmodes : ByteModes s.ctrl)
    (htrust : ∀ d, fds fd.toNat = some d →
      Trusts p users uid stray "READ" (blockArgs d len) s.ctrl) :
    Libc.Transfer.sbpRead (messageLink p users stray l) l fds fd buf len s
      = Libc.Transfer.sbpRead (netLink users uid) l fds fd buf len s :=
  sbpRead_alike rfl rfl fun d hd => askBlocks_carried h hroom hheard (by decide) (serve_read _ _ _)
    (plain_read (s64_small _) hmodes) (htrust d hd)

theorem write_carried (h : Known users uid l) (hroom : 3 ≤ p.room) (hheard : p.heard = true)
    (hmodes : ByteModes s.ctrl)
    (htrust : ∀ d, fds fd.toNat = some d →
      Trusts p users uid stray "WRITE" (blockArgs d len) s.ctrl) :
    Libc.Transfer.sbpWrite (messageLink p users stray l) l fds fd buf len s
      = Libc.Transfer.sbpWrite (netLink users uid) l fds fd buf len s :=
  sbpWrite_alike rfl rfl fun d hd =>
    askBlocks_carried h hroom hheard (by decide) (serve_write _ _ _)
    (plain_write (s64_small _) hmodes) (htrust d hd)

/-- Whatever pieces the request and the reply come in and whatever order the fields have, the
client's calls with their messages do what they do when the reply is handed over: looking at headers
and listing directories at any control node, reading and writing at one that a run of calls has led
to. -/
theorem calls_carried {t : Session} (h : Known users uid l) (hroom : 3 ≤ p.room)
    (hreach : Reach Begun SessionStep t) :
    (∀ path n, Free crlf (bytesOf path) → Trusts p users uid stray "STAT" [bytesOf path] n →
      Libc.Directory.sbpStat (p.control users stray l) l path n
        = Libc.Directory.sbpStat (ask users uid p.heard stray) l path n) ∧
    (∀ fds dirfd n,
      (∀ d, fds dirfd.toNat = some d → Trusts p users uid stray "READDIR" (entryArgs d) n) →
      Libc.Directory.sbpReaddir (p.control users stray l) l fds dirfd n
        = Libc.Directory.sbpReaddir (ask users uid p.heard stray) l fds dirfd n) ∧
    (p.heard = true → ∀ fds fd buf len s e, s.ctrl = CtrlNode.answering t.node e →
      ((∀ d, fds fd.toNat = some d → Trusts p users uid stray "READ" (blockArgs d len) s.ctrl) →
        Libc.Transfer.sbpRead (messageLink p users stray l) l fds fd buf len s
          = Libc.Transfer.sbpRead (netLink users uid) l fds fd buf len s) ∧
      ((∀ d, fds fd.toNat = some d → Trusts p users uid stray "WRITE" (blockArgs d len) s.ctrl) →
        Libc.Transfer.sbpWrite (messageLink p users stray l) l fds fd buf len s
          = Libc.Transfer.sbpWrite (netLink users uid) l fds fd buf len s)) := by
  refine ⟨fun path n => stat_carried h (by omega), fun fds dirfd n => readdir_carried h (by omega),
    fun hheard fds fd buf len s e hs => ?_⟩
  have hmodes : ByteModes s.ctrl := hs ▸ byteModes_run hreach
  exact ⟨read_carried h hroom hheard hmodes, write_carried h hroom hheard hmodes⟩

/-- A client that hears the reply gets the header of what the path names, if it may read it, and
NULL if not, whatever becomes of the messages on the way. Nothing changes by that. -/
theorem stat_exact {path : CStr} {n : CtrlNode} (h : Known users uid l) (hroom : 1 ≤ p.room)
    (hheard : p.heard = true) (hhold : NodeHolding n) (hmem : Ample n.world.env)
    (hpath : Free crlf (bytesOf path)) (htrust : Trusts p users uid stray "STAT" [bytesOf path] n) :
    ∃ r n', Libc.Directory.sbpStat (p.control users stray l) l path n = .ok (r, n') ∧ Quiet n n' ∧
      OnlyC n n' ∧ r.map statRead = (shownHeader n.world.dt path (argI uid)).map statOf := by
  rw [stat_carried h hroom hpath htrust, hheard]
  exact stat_asked hhold hmem h.unaltered.1 path

end Carried

/-! ## A file and its header, byte by byte -/

/-- A stream that comes byte by byte. -/
def bytewise : Pieces where
  val s := s.map fun c => [c]
  property s := by
    refine ⟨?_, fun c hc => ?_⟩
    · rw [← List.flatMap_def, List.flatMap_singleton']
    · obtain ⟨x, -, rfl⟩ := List.mem_map.mp hc
      exact List.cons_ne_nil _ _

/-- Both messages come byte by byte, the fields of the reply in the reverse order, and the buffer is
new. -/
def slowly : Passage where
  order := []
  room := 3
  addr := []
  there := bytewise
  listed := ⟨List.reverse, List.reverse_perm⟩
  heard := true
  back := bytewise
  stale := ⟨List.replicate BUF_SIZE 0, List.length_replicate⟩

theorem slowly_clean : 0x0a ∉ slowly.stale.val := fun h =>
  absurd (List.eq_of_mem_replicate h) (by decide)

/-- The control node that knows the user without a name. -/
def nameless : UsersInfo := .load [ascii ":0:"]

theorem known_caller : Known nameless 0 caller :=
  ⟨⟨by decide, by decide⟩, ⟨by decide, by decide⟩, by decide +kernel, by decide +kernel⟩

/-- The header of a new file is looked at, -/
theorem stat_exact_slowly : ∃ n r n', (shownHeader n.world.dt pathA (argI 0)).isSome ∧
    Libc.Directory.sbpStat (slowly.control nameless [] caller) caller pathA n = .ok (r, n') ∧
    r.map statRead = (shownHeader n.world.dt pathA (argI 0)).map statOf := by
  have hrun : ((runOps openedA).any fun q => (shownHeader q.2.world.dt pathA (argI 0)).isSome)
    = true := by
    decide +kernel
  simp only [Option.any_eq_true, Prod.exists] at hrun
  obtain ⟨_, n, hops, hshown⟩ := hrun
  have hhold : DiskSteps.NodeHolding n := openedA_holding hops
  obtain ⟨r, n', hstat, -, -, hread⟩ := @stat_exact slowly nameless 0 caller [] pathA
    (CtrlNode.answering n vast) known_caller (by decide) rfl hhold vast_ample
    (by decide +kernel) (trusts_plain (plain_stat _) (.inl slowly_clean))
  exact ⟨CtrlNode.answering n vast, r, n', hshown, hstat, hread⟩

/-- and then a byte is written to the file. -/
theorem calls_carried_slowly : ∃ n s,
    ((Libc.Directory.sbpStat (slowly.control nameless [] caller) caller pathA n).toOption.any
      fun q => q.1.isSome) = true ∧
    ((Libc.Transfer.sbpWrite (messageLink slowly nameless [] caller) caller callerFds
      0 (ascii "x") 1
      s).toOption.any fun q => q.1.1 == 1) = true := by
  have hrun : ((runOps openedA).any fun q =>
      ((Libc.Directory.sbpStat (ask nameless 0 true []) caller pathA
        (CtrlNode.answering q.2 vast)).toOption.any fun q => q.1.isSome) &&
      ((Libc.Transfer.sbpWrite (netLink nameless 0) caller callerFds 0 (ascii "x") 1
        (siteA q.2 freshNode)).toOption.any fun q => q.1.1 == 1)) = true := by
    decide +kernel
  simp only [Option.any_eq_true, Prod.exists] at hrun
  obtain ⟨_, n, hops, hall⟩ := hrun
  obtain ⟨hstat, hwrite⟩ := (Bool.and_eq_true _ _).mp hall
  obtain ⟨t, rfl, hreach⟩ := reach_runOps hops
  have hfree : Free crlf (bytesOf pathA) := by decide +kernel
  obtain ⟨hstats, -, htransfers⟩ :=
    @calls_carried slowly nameless 0 caller [] t known_caller (Nat.le_refl 3) hreach
  refine ⟨CtrlNode.answering t.node vast, siteA t.node freshNode, ?_, ?_⟩
  · rw [hstats pathA _ hfree (trusts_plain (plain_stat _) (.inl slowly_clean))]
    exact hstat
  · have hmodes : ByteModes (siteA t.node freshNode).ctrl := byteModes_run hreach
    rw [(htransfers rfl callerFds 0 (ascii "x") 1 (siteA t.node freshNode) vast rfl).2 fun d _ =>
      trusts_plain (plain_write (s64_small _) hmodes) (.inl slowly_clean)]
    exact hwrite

end Sbpfs.Net.Carried
