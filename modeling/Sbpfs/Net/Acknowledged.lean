import Sbpfs.Cnode.Homes
import Sbpfs.Cnode.Reading
import Sbpfs.Cnode.Replicas
import Sbpfs.Dnode.BlockStore
import Sbpfs.Dnode.Serve
import Sbpfs.Net.FailedWrites

/-!
# Acknowledged blocks

A data node that has stored a segment tells the client so, and not the control node: that one
learns of the block by a report. The calls of `DTree` and the requests to the data nodes are
made in any order; what the data nodes have acknowledged and what has been reported is told from
what was done.
-/
namespace Sbpfs.Net.Acknowledged

open Sbpfs.Lib.Raise Sbpfs.Lib.Run
open Sbpfs.Lib.Program (toOption_some)
open Sbpfs.Cfs.Layout (BLOCKSIZE S_FIL Env CStr World metaFlen)
open Sbpfs.Cfs.Rules Sbpfs.Cfs.Image Sbpfs.Cfs.DiskStore Sbpfs.Cfs.Data Sbpfs.Cfs.DataSpec
open Sbpfs.Cfs.BlockSpec Sbpfs.Cfs.Calls Sbpfs.Cfs.RunSpec Sbpfs.Cfs.EntrySpec
open Sbpfs.Cfs.BlockListing
open Sbpfs.Cfs.BlockNumbers (blockNums blockNums_eq)
open Sbpfs.Cfs.DiskView (Live live_file)
open Sbpfs.Cfs.FileHeaders (file_header)
open Sbpfs.Cfs.Invariants (calm)
open Sbpfs.Cfs.TilingLaws (blockList blockList_eq)
open Sbpfs.Spec.FileTree
open Sbpfs.Wire.Head Sbpfs.Wire.Number Sbpfs.Libc.Request Sbpfs.Libc.Table Sbpfs.Libc.Transfer
open Sbpfs.Cnode Sbpfs.Cnode.Pool Sbpfs.Cnode.Libcfs Sbpfs.Cnode.DTree Sbpfs.Cnode.Ops
open Sbpfs.Cnode.Frame Sbpfs.Cnode.Descriptors Sbpfs.Cnode.OpenObjects Sbpfs.Cnode.DiskSteps
open Sbpfs.Cnode.ReplyLaws Sbpfs.Cnode.Replicas
open Sbpfs.Cnode.LostFiles Sbpfs.Cnode.Homes Sbpfs.Cnode.Reading
open Sbpfs.Dnode.Blockman (DNode)
open Sbpfs.Dnode.Serve
open Sbpfs.Dnode.BlockStore (freshNode)
open Sbpfs.Net.FailedWrites (openedA)

/-! ## The parties -/

/-- The control node and the data nodes by their addresses, the blocks that data nodes have
acknowledged, and the reports and the drops, the last one first. -/
structure Site where
  ctrl : CtrlNode
  nodes : UInt32 → Option DNode
  kept : List (UInt32 × UInt64)
  told : List Event

inductive Act where
  | call (a : Turn)
  | serve (a : UInt32) (entrys : List HeadEntry) (data : Str)

/-- The report or the drop that a call is. -/
def note (op : Op) (told : List Event) : List Event :=
  match op with
  | .addBlockInfo order l user ip => .report order l user ip :: told
  | .dropUser user => .drop user :: told
  | _ => told

/-- The OK for a WRITE. -/
def okWrite : Answer := ⟨REQUEST_OK, [⟨CONTENT_LEN, ascii "0"⟩], []⟩

/-- The block of a WRITE that the node at `a` has answered with OK. -/
def acknowledged (a : UInt32) (entrys : List HeadEntry) (data : Str) (sent : List Answer) :
    List (UInt32 × UInt64) :=
  ((entryOf entrys data).filter fun ent => ent.req = 2 ∧ sent = [okWrite]).toList.map
    fun ent => (a, ent.blockNum)

inductive Moves (s : Site) : Act → Site → Prop
  | call {a : Turn} {r : Except Exc Value} {n' : CtrlNode} (ends : Ends s.ctrl a r n') :
      Moves s (.call a) { s with ctrl := n', told := note a.op s.told }
  | serve {a : UInt32} {entrys : List HeadEntry} {data : Str} {d : DNode} {u : Unit} {c : Conn}
      (node : s.nodes a = some d) (run : serveFields entrys data ⟨d, []⟩ = .ok (u, c)) :
      Moves s (.serve a entrys data) { s with
        nodes := Function.update s.nodes a (some c.node)
        kept := acknowledged a entrys data c.sent ++ s.kept }

/-- The control node has just started, and nothing has been acknowledged. -/
structure Begun (s : Site) : Prop where
  started : Started s.ctrl
  homed : NodeHomed s.ctrl
  kept : s.kept = []
  told : s.told = []

/-- The library is called where it does not spoil the image, the counter of `gen_ip_index` stays
in its range, and data nodes report from addresses. -/
def SoundAct (s : Site) : Act → Prop
  | .call a => SoundTurn s.ctrl a ∧ CounterFits s.ctrl a.op ∧ Homes.Op.Addressed a.op
  | .serve .. => True

def SoundMove (s : Site) (a : Act) (s' : Site) : Prop := Moves s a s' ∧ SoundAct s a

/-! ## What a reader may expect -/

/-- Every data node that is to keep the block has acknowledged it. -/
def Acked (s : Site) (r : Rec) : Prop :=
  ∀ ip ∈ r.ip, ip ≠ 0 → (UInt32.ofNat ip, UInt64.ofNat r.num) ∈ s.kept

/-- A read of acknowledged blocks of a file that is there, through a descriptor that may be read.
The range starts in the file and touches a block of it. -/
structure AckedRange (s : Site) (fd offset length : Str) (uid k o l : Int) (file : FileDes) :
    Prop where
  fd_eq : pyInt fd = some k
  offset_eq : pyInt offset = some o
  length_eq : pyInt length = some l
  found : CtrlNode.getFile s.ctrl uid k = some file
  type : file.type = Pool.S_FIL
  may : mayUse file SBP_O_RDONLY = true
  live : Live s.ctrl.world.dt (argI file.fb).toNat S_FIL
  start : (argK o).toNat ≤ metaFlen (s.ctrl.world.dt.data (argI file.fb).toNat)
  touches : (argK o).toNat / BLOCKSIZE < blocksFor ((argK o).toNat
    + readLen (metaFlen (s.ctrl.world.dt.data (argI file.fb).toNat)) (argK o).toNat (argK l).toNat)
  acked : ∀ i r, (argK o).toNat / BLOCKSIZE ≤ i → i < blocksFor ((argK o).toNat + (argK l).toNat) →
    (blockList s.ctrl.world.dt (argI file.fb).toNat)[i]? = some r → Acked s r

/-- There is an entry for each block that the read touches, and each has an address. -/
def Answered (s : Site) (o l : Int) (file : FileDes) (data : List SendBlock) : Prop :=
  data.length = blocksFor ((argK o).toNat + readLen
    (metaFlen (s.ctrl.world.dt.data (argI file.fb).toNat)) (argK o).toNat (argK l).toNat)
      - (argK o).toNat / BLOCKSIZE ∧
  ∀ b ∈ data, ∃ ip ∈ b.ip, ip ≠ 0

/-- Acknowledged files are not lost, and reads of acknowledged blocks return data nodes. -/
structure Readable (s : Site) : Prop where
  opens : ∀ e path fb, Ample e → Names s.ctrl.world.dt path S_FIL fb →
    (∀ r ∈ blockList s.ctrl.world.dt fb, Acked s r) →
    ∃ n', isFileLost (bytesOf path) (CtrlNode.answering s.ctrl e) = .ok (.ok (some false), n')
  reads : ∀ e fd offset length uid k o l file, Ample e →
    AckedRange s fd offset length uid k o l file →
    ∃ data n', Cnode.DTree.read fd offset length uid (CtrlNode.answering s.ctrl e)
      = .ok (.ok data, n') ∧ Answered s o l file data

/-- Whoever has acknowledged a block has reported it under the address, and none of those who have
reported it has been dropped. -/
def Settled (s : Site) : Prop :=
  ∀ p ∈ s.kept, Known s.told p.2.toNat ∧ Keeps s.told p.2.toNat p.1.toNat

/-! ## The maps and the reports -/

/-- The maps are what the reports and the drops have made of them. -/
def Follows (told : List Event) (n : CtrlNode) : Prop := ∃ n₀, History told n₀ ∧ SameMaps n₀ n

section Maps

variable {told : List Event} {n n' : CtrlNode} {a : Turn} {r : Except Exc Value}

theorem follows_started (h : Started n) : Follows [] n :=
  ⟨n, .start h.blockmap h.ipmap h.ips, ⟨rfl, rfl, rfl⟩⟩

theorem follows_turn (h : Follows told n) (hends : Ends n a r n') :
    Follows (note a.op told) n' := by
  obtain ⟨n₀, hhist, hsame⟩ := h
  obtain ⟨op, e⟩ := a
  by_cases hs : Silent op
  · have hnote : note op told = told := by
      cases op with
      | addBlockInfo order l user ip => exact hs.elim
      | dropUser user => exact hs.elim
      | _ => rfl
    have hrun : SameMaps (CtrlNode.answering n e) n' := (sameMaps_run hs).rel hends.2
    dsimp only
    rw [hnote]
    exact ⟨n₀, hhist, ⟨hrun.ipmap.trans hsame.ipmap, hrun.ips.trans hsame.ips,
      hrun.blockmap.trans hsame.blockmap⟩⟩
  cases op with
  | addBlockInfo order l user ip =>
    obtain ⟨hallow, hrun⟩ := hends
    cases hrun
    have hallow' : order.Perm (n₀.ipmap.insert user ip).keys := by
      rw [← hsame.ipmap]
      exact hallow
    obtain ⟨n₁, hrun₁, -⟩ := report_run order l user ip n₀
    cases hrun₁
    refine ⟨_, .call (e := .report order l user ip) hhist hallow' rfl, ⟨?_, ?_, ?_⟩⟩
    · exact congrArg (AList.insert user ip) hsame.ipmap
    · exact congrArg (fun m : Map Str Str => List.intercalate [0x2c]
        (order.filterMap fun key => (m.insert user ip).lookup key)) hsame.ipmap
    · exact congrArg (fun m : Map Nat (Finset Str) => l.foldl (fun m block =>
        m.insert block (insert user ((m.lookup block).getD ∅))) m) hsame.blockmap
  | dropUser user =>
    obtain ⟨-, hrun⟩ := hends
    cases hrun
    exact ⟨_, .call (e := .drop user) hhist trivial rfl,
      ⟨congrArg (AList.erase user) hsame.ipmap, hsame.ips, hsame.blockmap⟩⟩
  | _ => exact absurd trivial hs

theorem follows_located (h : Follows told n) {block : Nat} (hk : Known told block) :
    Located n block := by
  obtain ⟨n₀, hhist, hsame⟩ := h
  have hloc := (located_iff hhist block).mpr hk
  unfold Located at hloc ⊢
  rw [hsame.blockmap, hsame.ipmap]
  exact hloc

theorem follows_keeps (h : Follows told n) {block ip : Nat} {users : Finset Str}
    (hu : n.blockmap.lookup block = some users) (hk : Keeps told block ip) :
    ∃ user ∈ users, n.ipmap.lookup user = some (long2ip ip) := by
  obtain ⟨n₀, hhist, hsame⟩ := h
  obtain ⟨user, hreported, haddress⟩ := hk
  have hmem := (reported_iff hhist block user).mpr hreported
  rw [← hsame.blockmap, hu] at hmem
  refine ⟨user, hmem, ?_⟩
  rw [hsame.ipmap, address_eq hhist]
  exact haddress

theorem follows_maps (h : Follows told n) (hs : SameMaps n n') : Follows told n' := by
  obtain ⟨n₀, hhist, hsame⟩ := h
  exact ⟨n₀, hhist, Trans.trans hsame hs⟩

/-- The block is known, and one of its addresses is that of a node that has it. -/
def Findable (told : List Event) (b : SendBlock) : Prop :=
  Known told b.blockNum ∧ ∃ ip ∈ b.ip, ip ≠ 0 ∧ Keeps told b.blockNum ip

/-- The filter leaves a node of a block that can be found. -/
theorem sieve_finds {b : SendBlock} (h : Follows told n) (hb : Findable told b) :
    ∃ ip ∈ (sieve n b).ip, ip ≠ 0 := by
  obtain ⟨hknown, ip, hip, hne, hkeeps⟩ := hb
  obtain ⟨users, hu, -⟩ := follows_located h hknown
  have hfound := follows_keeps h hu hkeeps
  refine ⟨ip, List.mem_map.mpr ⟨ip, hip, if_pos ?_⟩, hne⟩
  rw [hu]
  exact hfound

theorem findable_held {block ip : Nat} (h : Follows told n) (hknown : Known told block)
    (hkeeps : Keeps told block ip) : Held n block := by
  obtain ⟨users, hu, -⟩ := follows_located h hknown
  obtain ⟨user, huser, hip⟩ := follows_keeps h hu hkeeps
  refine ⟨users, hu, user, huser, ?_⟩
  rw [hip]
  rfl

end Maps

/-! ## The disk -/

/-- What holds of the three parties together. -/
structure Consistent (s : Site) : Prop where
  homed : NodeHomed s.ctrl
  addressed : Addressed s.ctrl
  follows : Follows s.told s.ctrl

section Records

variable {s : Site} {fs : Fs} {chain : Nat → List Nat} {fb u len : Nat} {fl : UInt8}
    {recs : List Rec}

/-- An acknowledged block of a file is findable once all is settled. -/
theorem acked_findable (hs : Settled s) (hst : Store s.ctrl.world.dt fs chain) (hh : Homed fs)
    (ho : fs fb = some ⟨u, fl, .file len recs⟩) {r : Rec} (hr : r ∈ recs) (ha : Acked s r) :
    Known s.told r.num ∧ ∃ ip ∈ r.ip, ip ≠ 0 ∧ Keeps s.told r.num ip := by
  obtain ⟨ip, hip, hne⟩ := hh fb u fl len recs ho r hr
  obtain ⟨hnum, hips⟩ := rec_fits hst ho hr
  obtain ⟨hknown, hkeeps⟩ := hs _ (ha ip hip hne)
  dsimp only at hknown hkeeps
  rw [UInt64.toNat_ofNat_of_lt' hnum] at hknown hkeeps
  rw [UInt32.toNat_ofNat_of_lt' (hips ip hip)] at hkeeps
  exact ⟨hknown, ip, hip, hne, hkeeps⟩

/-- What a path names is in the tree. -/
theorem names_file {path : CStr} (hst : Store s.ctrl.world.dt fs chain) (ht : Tree fs)
    (h : Names s.ctrl.world.dt path S_FIL fb) : ∃ d e u fl len recs,
      named fs.ents path = some (d, e) ∧ e.fb = fb ∧ fs e.fb = some ⟨u, fl, .file len recs⟩ := by
  obtain ⟨d, e, hq, htype, hfb⟩ := h
  rw [named_agree hst ht] at hq
  obtain ⟨⟨u, fl, node⟩, ho, htyped⟩ := named_typed ht hq
  cases node with
  | file len recs => exact ⟨d, e, u, fl, len, recs, hq, hfb, ho⟩
  | dir p kids =>
    rcases htyped with ⟨hdir, -⟩ | ⟨-, hfile⟩
    · rw [htype] at hdir
      cases hdir
    · exact absurd trivial hfile

/-- No block of an acknowledged file is missed. -/
theorem acked_held (hc : Consistent s) (hs : Settled s) (hst : Store s.ctrl.world.dt fs chain)
    (hh : Homed fs) (ho : fs fb = some ⟨u, fl, .file len recs⟩) {r : Rec} (hr : r ∈ recs)
    (ha : Acked s r) : Held s.ctrl r.num := by
  obtain ⟨hknown, ip, -, -, hkeeps⟩ := acked_findable hs hst hh ho hr ha
  exact findable_held hc.follows hknown hkeeps

theorem opens_acked (hc : Consistent s) (hs : Settled s) {e : Env} {path : CStr} (hmem : Ample e)
    (hnames : Names s.ctrl.world.dt path S_FIL fb)
    (hall : ∀ r ∈ blockList s.ctrl.world.dt fb, Acked s r) :
    ∃ n', isFileLost (bytesOf path) (CtrlNode.answering s.ctrl e) = .ok (.ok (some false), n') := by
  obtain ⟨fs, chain, hst, ht, -, hh⟩ := hc.homed
  obtain ⟨d, ent, u, fl, len, recs, hq, rfl, ho⟩ := names_file hst ht hnames
  rw [blockList_eq hst ho] at hall
  have hst' : Store (asked (CtrlNode.answering s.ctrl e)).dt fs chain := hst
  have hmem' : Ample (asked (CtrlNode.answering s.ctrl e)).env := hmem.later (Later.pop _ _)
  obtain ⟨w, hrun⟩ := getblocks_some hst' ht hmem' hq ho (Nat.mul_mod_right 32 recs.length)
  obtain ⟨n', hlost⟩ := isFileLost_run (n := CtrlNode.answering s.ctrl e) hmem hrun
  have hno : ¬ ∃ block ∈ blockNums s.ctrl.world.dt ent.fb,
      ¬ Held (CtrlNode.answering s.ctrl e) block := by
    intro h
    obtain ⟨block, hblock, hnot⟩ := h
    rw [blockNums_eq hst ho] at hblock
    obtain ⟨r, hr, rfl⟩ := List.mem_map.mp hblock
    exact hnot (acked_held hc hs hst hh ho hr (hall r hr))
  have hverdict : verdict (CtrlNode.answering s.ctrl e)
      (some (blockNums s.ctrl.world.dt ent.fb)) = some false := by
    refine congrArg some ?_
    rw [← Bool.not_eq_true, any_lost_iff]
    exact hno
  refine ⟨n', hlost.trans ?_⟩
  exact congrArg (fun b => Except.ok (Except.ok b, n')) hverdict

theorem reads_acked (hc : Consistent s) (hs : Settled s) {e : Env} {fd offset length : Str}
    {uid k o l : Int} {file : FileDes} (hmem : Ample e)
    (h : AckedRange s fd offset length uid k o l file) :
    ∃ data n', Cnode.DTree.read fd offset length uid (CtrlNode.answering s.ctrl e)
      = .ok (.ok data, n') ∧ Answered s o l file data := by
  obtain ⟨fs, chain, hst, ht, -, hh⟩ := hc.homed
  obtain ⟨u, fl, len, recs, ho⟩ := live_file hst ht h.live
  have hlen : metaFlen (s.ctrl.world.dt.data (argI file.fb).toNat) = len := (file_header hst ho).1
  have hstart := h.start
  have htouch := h.touches
  have hacked := h.acked
  rw [hlen] at hstart htouch
  rw [blockList_eq hst ho] at hacked
  have hfile : FileImage _ _ len recs := (hst.obj _ _ ho).holds.node
  have hrange := blocksFor_mono (Nat.add_le_add_left
    (readLen_le_length len (argK o).toNat (argK l).toNat) (argK o).toNat)
  have hfind : ∀ b ∈ readEntries recs len (argK o).toNat (argK l).toNat, Findable s.told b := by
    intro b hb
    obtain ⟨j, hj⟩ := List.getElem?_of_mem hb
    obtain ⟨r, hr, hnum, hip, hstop⟩ := readEntries_blocks hfile.count hstart hj
    obtain ⟨hknown, ip, hmem, hne, hkeeps⟩ := acked_findable hs hst hh ho
      (List.mem_of_getElem? hr) (hacked _ r (Nat.le_add_right _ _) (hstop.trans_le hrange) hr)
    unfold Findable
    rw [hnum, hip]
    exact ⟨hknown, ip, hmem, hne, hkeeps⟩
  have hcount := readEntries_length recs len (argK o).toNat (argK l).toNat
  have hne : readEntries recs len (argK o).toNat (argK l).toNat ≠ [] := by
    intro hnil
    rw [hnil, List.length_nil] at hcount
    omega
  have hfollows : Follows s.told (CtrlNode.answering s.ctrl e) :=
    follows_maps hc.follows ⟨rfl, rfl, rfl⟩
  have hmay : MayRead (CtrlNode.answering s.ctrl e) uid k file := ⟨h.found, h.type, h.may⟩
  have hst' : Store (CtrlNode.answering s.ctrl e).world.dt fs chain := hst
  obtain ⟨n', hrun⟩ := read_run h.fd_eq h.offset_eq h.length_eq hmay hst' ho hmem hstart hne
    fun b hb => follows_located hfollows (hfind b hb).1
  refine ⟨_, n', hrun, ?_, fun b hb => ?_⟩
  · rw [hlen, List.length_map]
    exact hcount
  · obtain ⟨b, hmem, rfl⟩ := List.mem_map.mp hb
    exact sieve_finds hfollows (hfind b hmem)

end Records

/-! ## Runs -/

theorem consistent_begun {s : Site} (h : Begun s) : Consistent s where
  homed := h.homed
  addressed := addressed_started h.started
  follows := by
    rw [h.told]
    exact follows_started h.started

theorem consistent_step {s s' : Site} {a : Act} (h : Consistent s) (hs : SoundMove s a s') :
    Consistent s' := by
  obtain ⟨hmove, hsound⟩ := hs
  cases hmove with
  | call ends =>
    obtain ⟨hturn, hfits, haddr⟩ := hsound
    exact ⟨homed_turn h.homed h.addressed ends hturn hfits, addressed_turn h.addressed ends haddr,
      follows_turn h.follows ends⟩
  | serve node run => exact ⟨h.homed, h.addressed, h.follows⟩

/-- Over every run, what has been acknowledged is readable once it has been reported. -/
theorem acknowledged_run {s : Site} (h : Reach Begun SoundMove s) (hs : Settled s) :
    Readable s := by
  have hc : Consistent s :=
    h.inv (fun _ hb => consistent_begun hb) fun _ _ _ hi hm => consistent_step hi hm
  exact ⟨fun _ _ _ hmem hnames hall => opens_acked hc hs hmem hnames hall,
    fun _ _ _ _ _ _ _ _ _ hmem hr => reads_acked hc hs hmem hr⟩

/-! ## A block of one byte -/

/-- A byte for the file that `openedA` leaves open. -/
def byteA : Op := .write (ascii "0") (ascii "0") (ascii "1") 0

/-- The request that the client sends to `d` then. -/
def storeByte : List HeadEntry := [⟨METHOD, ascii "WRITE"⟩, ⟨argName 0, ascii "0"⟩,
  ⟨argName 1, ascii "0"⟩, ⟨argName 2, ascii "1"⟩, ⟨CONTENT_LEN, ascii "1"⟩]

/-- The address of `d`. -/
def homeD : UInt32 := 0x01020304

theorem isAddress_addrD : IsAddress addrD := ⟨⟨1, 2, 3, 4⟩, by decide, by decide⟩

/-- A call of the node is a move of the parties. -/
theorem call_next (s : Site) {a : Turn} {r : Except Exc Value} {n' : CtrlNode}
    (hends : Ends s.ctrl a r n') (hs : SoundAct s (.call a)) :
    ∃ s', s'.ctrl = n' ∧ s'.nodes = s.nodes ∧ s'.kept = s.kept ∧ s'.told = note a.op s.told ∧
      SoundMove s (.call a) s' :=
  ⟨{ s with ctrl := n', told := note a.op s.told }, rfl, rfl, rfl, rfl, .call hends, hs⟩

/-- So is a request to a data node. -/
theorem serve_next (s : Site) {a : UInt32} {entrys : List HeadEntry} {data : Str} {d : DNode}
    {u : Unit} {c : Conn} (hnode : s.nodes a = some d)
    (hrun : serveFields entrys data ⟨d, []⟩ = .ok (u, c)) :
    ∃ s', s'.ctrl = s.ctrl ∧ s'.kept = acknowledged a entrys data c.sent ++ s.kept ∧
      s'.told = s.told ∧ SoundMove s (.serve a entrys data) s' :=
  ⟨{ s with
      nodes := Function.update s.nodes a (some c.node)
      kept := acknowledged a entrys data c.sent ++ s.kept },
    rfl, rfl, rfl, .serve hnode hrun, trivial⟩

theorem counterFits_other {n : CtrlNode} {op : Op}
    (h : ∀ fd offset length uid, op ≠ .write fd offset length uid) : CounterFits n op := by
  intro fb offset length ips hcall
  obtain ⟨fd, o, l, uid, hop⟩ := Homes.libCall_isWrite hcall
  exact absurd hop (h fd o l uid)

/-- The node at `homeD` has acknowledged the block, and has not reported it. -/
structure Unreported (s : Site) : Prop where
  run : Reach Begun SoundMove s
  told : s.told = [.report [nodeD] [] nodeD addrD]
  kept : s.kept = [(homeD, 0)]
  keys : s.ctrl.ipmap.keys = [nodeD]
  names : Names s.ctrl.world.dt pathA S_FIL 2
  blocks : blockList s.ctrl.world.dt 2 = [⟨0, [0x01020304, 0, 0]⟩]
  lost : ∃ n', isFileLost (bytesOf pathA) (CtrlNode.answering s.ctrl Cfs.ChainLaws.vast)
    = .ok (.ok (some true), n')

/-- A data node at `homeD`. -/
def oneNode (a : UInt32) : Option DNode := if a = homeD then some freshNode else none

theorem exists_unreported : ∃ s, Unreported s := by
  have hrun : ((runOps openedA).any fun q =>
      decide (⟨[⟨0x61, by decide⟩], 2, Cfs.Layout.S_FIL⟩ ∈ Cfs.DiskView.entries q.2.world.dt 1) &&
        Cfs.Layout.entryFb (q.2.world.dt.data 0) 0 == 1 &&
        Cfs.Layout.entryType (q.2.world.dt.data 0) 0 == Cfs.Layout.S_DIR &&
        CtrlNode.getFile q.2 0 0 == some ⟨2, 4, Pool.S_FIL⟩ && q.2.world.ipIndex == 0 &&
        metaFlen (q.2.world.dt.data 2) == 0 &&
        (execOps [⟨byteA, calm⟩] q.2).any fun q => decide (q.2.ipmap.keys = [nodeD]) &&
          (named (Cfs.DiskView.entries q.2.world.dt) pathA).map (fun p => (p.2.type, p.2.fb))
            == some (Cfs.Layout.S_FIL, 2) &&
          blockList q.2.world.dt 2 == [⟨0, [0x01020304, 0, 0]⟩] &&
          (isFileLost (bytesOf pathA) (CtrlNode.answering q.2 Cfs.ChainLaws.vast)).toOption.any
            fun p => p.1.toOption == some (some true)) = true := by
    decide +kernel
  have hserve : ((serveFields storeByte (ascii "x" ++ [0]) ⟨freshNode, []⟩).toOption.any fun p =>
      p.2.sent == [okWrite]) = true := by
    decide +kernel
  simp only [Option.any_eq_true, Bool.and_eq_true, beq_iff_eq, decide_eq_true_eq, Prod.exists]
    at hrun hserve
  obtain ⟨rs, n₂, hops, ⟨⟨⟨⟨⟨hmem, hfb⟩, htype⟩, hget⟩, hindex⟩, hlen⟩, rs', n₃, hexec',
    ⟨⟨⟨hkeys, hnamed⟩, hblocks⟩, r, n', hlost, hr⟩⟩ := hrun
  obtain ⟨u, c, hok, hsent⟩ := hserve
  obtain ⟨n₀, hboot, hexec⟩ := Option.bind_eq_some_iff.mp hops
  obtain ⟨r₁, _, n₁, -, hends₁, hrest⟩ := execOps_cons hexec
  obtain ⟨r₂, _, _, -, hends₂, hnil⟩ := execOps_cons hrest
  cases hnil
  obtain ⟨r₃, _, _, -, hends₃, hnil⟩ := execOps_cons hexec'
  cases hnil
  have h0 : Reach Begun SoundMove ⟨n₀, oneNode, [], []⟩ :=
    .init ⟨(bootNode_fresh hboot).1, homed_boot hboot, rfl, rfl⟩
  have hopen : SoundTurn n₀ ⟨.openFile pathA (ascii "4") (ascii "15") 0, calm⟩ :=
    soundTurn_open cstrOf_pathA (by decide : pyInt (ascii "4") = some 4)
      (by decide : pyInt (ascii "15") = some 15) (by decide)
  obtain ⟨s₁, rfl, hnodes₁, hkept₁, htold₁, hmove₁⟩ := call_next ⟨n₀, oneNode, [], []⟩ hends₁
    ⟨hopen, counterFits_other (by rintro _ _ _ _ ⟨⟩), trivial⟩
  have hreport : SoundTurn s₁.ctrl ⟨.addBlockInfo [nodeD] [] nodeD addrD, calm⟩ := by
    rintro c ⟨⟩
  obtain ⟨s₂, rfl, hnodes₂, hkept₂, htold₂, hmove₂⟩ := call_next s₁ hends₂
    ⟨hreport, counterFits_other (by rintro _ _ _ _ ⟨⟩), isAddress_addrD⟩
  have hcall : libCall s₂.ctrl byteA = some (.write 2 0 1 (parseIps s₂.ctrl.ips)) :=
    DiskSteps.libCall_write (by decide : pyInt (ascii "0") = some 0)
      (by decide : pyInt (ascii "0") = some 0) (by decide : pyInt (ascii "1") = some 1) hget
  have hwrite : SoundAct s₂ (.call ⟨byteA, calm⟩) := by
    refine ⟨fun c hc => ?_, fun fb offset length ips hc => ?_, trivial⟩
    · cases hcall.symm.trans hc
      exact .inr ⟨live_inRoot hfb htype hmem, by decide⟩
    · cases hcall.symm.trans hc
      change metaFlen (s₂.ctrl.world.dt.data (2 : UInt32).toNat) = 0 at hlen
      rw [hindex, hlen]
      exact ⟨le_refl 0, by decide⟩
  obtain ⟨s₃, rfl, hnodes₃, hkept₃, htold₃, hmove₃⟩ := call_next s₂ hends₃ hwrite
  have hnode : s₃.nodes homeD = some freshNode := by
    rw [hnodes₃, hnodes₂, hnodes₁]
    rfl
  obtain ⟨s₄, hctrl, hkept₄, htold₄, hmove₄⟩ := serve_next s₃ hnode (toOption_some hok)
  refine ⟨s₄, (((h0.step hmove₁).step hmove₂).step hmove₃).step hmove₄, ?_, ?_, ?_, ?_, ?_, ?_⟩
  · rw [htold₄, htold₃, htold₂, htold₁]
    rfl
  · rw [hkept₄, hkept₃, hkept₂, hkept₁, hsent]
    rfl
  · rw [hctrl]
    exact hkeys
  · rw [hctrl]
    obtain ⟨p, hp, he⟩ := Option.map_eq_some_iff.mp hnamed
    exact ⟨p.1, p.2, hp, congrArg Prod.fst he, congrArg Prod.snd he⟩
  · rw [hctrl]
    exact hblocks
  · rw [hctrl]
    exact ⟨n',
      (toOption_some hlost).trans (congrArg (fun q => Except.ok (q, n')) (toOption_some hr))⟩

/-- A block is acknowledged, and the file is lost. -/
theorem unreported_lost : ∃ s, Reach Begun SoundMove s ∧ ¬ Readable s := by
  obtain ⟨s, h⟩ := exists_unreported
  refine ⟨s, h.run, fun hr => ?_⟩
  have hacked : ∀ r ∈ blockList s.ctrl.world.dt 2, Acked s r := by
    rw [h.blocks]
    intro r hr ip hip hne
    obtain rfl := List.mem_singleton.mp hr
    rw [h.kept]
    have hhome : ip = 0x01020304 := by simpa [hne] using hip
    rw [hhome]
    exact List.mem_singleton_self _
  obtain ⟨n', hlost⟩ := h.lost
  obtain ⟨n₁, hfound⟩ := hr.opens _ _ _ Cfs.ChainLaws.vast_ample h.names hacked
  cases hlost.symm.trans hfound

/-- The node reports the block, and it can be read. -/
theorem acknowledged_run_report : ∃ s, Reach Begun SoundMove s ∧ s.kept = [(homeD, 0)] ∧
    Settled s ∧ Readable s := by
  obtain ⟨s, h⟩ := exists_unreported
  obtain ⟨n', hrun, -⟩ := report_run [nodeD] [0] nodeD addrD (CtrlNode.answering s.ctrl calm)
  have hallow : [nodeD].Perm (s.ctrl.ipmap.insert nodeD addrD).keys := by
    rw [AList.keys_insert, h.keys]
    decide
  have hends : Ends s.ctrl ⟨.addBlockInfo [nodeD] [0] nodeD addrD, calm⟩ (.ok .none) n' := by
    refine ⟨hallow, ?_⟩
    cases hrun
    rfl
  have hsound : SoundTurn s.ctrl ⟨.addBlockInfo [nodeD] [0] nodeD addrD, calm⟩ := by
    rintro c ⟨⟩
  obtain ⟨s', -, -, hkept, htold, hmove⟩ := call_next s hends
    ⟨hsound, counterFits_other (by rintro _ _ _ _ ⟨⟩), isAddress_addrD⟩
  have hs : Settled s' := by
    intro p hp
    rw [hkept, h.kept] at hp
    obtain rfl := List.mem_singleton.mp hp
    rw [htold, h.told]
    refine ⟨⟨⟨nodeD, ?_⟩, fun user hu => ?_⟩, nodeD, ?_, by decide⟩
    · exact ⟨[nodeD], [0], addrD, List.mem_cons_self .., List.mem_singleton_self _⟩
    · obtain ⟨order, l, ip, hmem, -⟩ := hu
      rcases List.mem_cons.mp hmem with he | hmem
      · cases he
        decide
      · cases List.mem_singleton.mp hmem
        decide
    · exact ⟨[nodeD], [0], addrD, List.mem_cons_self .., List.mem_singleton_self _⟩
  exact ⟨s', h.run.step hmove, hkept.trans h.kept, hs, acknowledged_run (h.run.step hmove) hs⟩

end Sbpfs.Net.Acknowledged
