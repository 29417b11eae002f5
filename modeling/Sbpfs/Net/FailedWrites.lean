import Sbpfs.Cnode.OpenObjects
import Sbpfs.Net.Copies
import Sbpfs.Net.Granting

/-!
# What a failed write leaves behind

The control node has changed the file before the first data node is asked, and nobody takes that
back. The data nodes have stored the segments in front of the block where the transfer ended, and
only of this block some have stored more than others.
-/
namespace Sbpfs.Net.FailedWrites

open Sbpfs.Lib.Program
open Sbpfs.Cfs.Layout (BLOCKSIZE metaFlen)
open Sbpfs.Cfs.Rules Sbpfs.Cfs.Data Sbpfs.Cfs.DataSpec Sbpfs.Cfs.BlockSpec
open Sbpfs.Spec.FileTree
open Sbpfs.Wire.Head Sbpfs.Wire.Number Sbpfs.Libc.Request Sbpfs.Libc.Table Sbpfs.Libc.Transfer
open Sbpfs.Libc.TransferSpec
open Sbpfs.Cnode Sbpfs.Cnode.Libcfs Sbpfs.Cnode.Dispatch Sbpfs.Cnode.DTree Sbpfs.Cnode.Ops
open Sbpfs.Cnode.Descriptors Sbpfs.Cnode.DiskSteps Sbpfs.Cnode.OpenObjects
open Sbpfs.Cfs.Invariants (calm)
open Sbpfs.Cfs.DiskView (live_file)
open Sbpfs.Cfs.FileHeaders (file_header)
open Sbpfs.Dnode.Blockman Sbpfs.Dnode.BlockSpec
open Sbpfs.Dnode.BlockStore (Willing freshNode)
open Sbpfs.Net.Parties Sbpfs.Net.TransferSteps Sbpfs.Net.Copies Sbpfs.Net.Granting
open Sbpfs.Cnode.Users (UsersInfo)

/-- The block `r` is to be kept by the node at `a`. -/
def Replica (r : Rec) (a : UInt32) : Prop := a ≠ 0 ∧ ∃ ip ∈ r.ip, a = .ofNat ip

/-- The number of `r` is that of no other block in `recs`. -/
def Alone (recs : List Rec) (r : Rec) : Prop :=
  ∀ r' ∈ recs, UInt64.ofNat r'.num = .ofNat r.num → r' = r

/-- Two nodes that had the same file for a block have the same file for it. -/
def StaysSame (b : UInt64) (a a' : UInt32) (s s' : Cluster) : Prop :=
  ∀ d₁ d₂ d₁' d₂', s.nodes a = some d₁ → s.nodes a' = some d₂ → s'.nodes a = some d₁' →
    s'.nodes a' = some d₂' → Willing d₁ → Willing d₂ → block d₁ b = block d₂ b →
    block d₁' b = block d₂' b

/-- What has become of the file at `fb`, of the length `flen` and with the blocks `recs`: nothing;
or the control node has made it ready for the range, and the data nodes have stored the segments up
to one that is not stored by all of its nodes. -/
inductive Aftermath (d : FileDesc) (buf : Str) (len : UInt64) (fb flen : Nat) (recs : List Rec)
    (s s' : Cluster) : Prop
  | untouched (file : fileAt s'.ctrl fb = fileAt s.ctrl fb) (nodes : s'.nodes = s.nodes) :
      Aftermath d buf len fb flen recs s s'
  | halted (news : List Rec) (pre : List BlockEntry) (ent : BlockEntry) (post : List BlockEntry)
      (file : fileAt s'.ctrl fb = (max flen (d.offset.toNat + len.toNat), recs ++ news))
      (segments : (writeEntries recs news d.offset.toNat len.toNat).map toEntry
        = pre ++ ent :: post)
      (stored : ∀ a, ∃ n ≤ copies ent a, Takes a (segmentsAt buf a pre 0 ++
        List.replicate n (ent, segmentData buf ent (lengths pre))) s s')
      (replicas : ∀ r ∈ recs ++ news, Alone (recs ++ news) r → ent.blockId ≠ .ofNat r.num →
        ∀ a a', Replica r a → Replica r a' → StaysSame (.ofNat r.num) a a' s s') :
      Aftermath d buf len fb flen recs s s'

section Entries

variable {recs news : List Rec} {r : Rec} {a : UInt32}

/-- An entry of a block names all nodes of the block. -/
theorem copies_pos {b : SendBlock} (hip : b.ip = r.ip) (hshape : r.ip.length = 3)
    (h : Replica r a) :
    0 < copies (toEntry b) a := by
  obtain ⟨hne, ip, hmem, rfl⟩ := h
  obtain ⟨i, hi, rfl⟩ := List.getElem_of_mem hmem
  rw [hshape] at hi
  have hnode : (toEntry b).dNodes ⟨i, hi⟩ = .ofNat r.ip[i] := by
    unfold toEntry
    dsimp only
    rw [hip, List.getElem?_eq_getElem (by omega)]
    rfl
  refine List.countP_pos_iff.mpr ⟨⟨i, hi⟩, List.mem_finRange _, ?_⟩
  rw [hnode]
  simpa using hne

end Entries

section Writes

variable {users : UsersInfo} {uid : Int} {l : Login} {fds fds' : Fds} {fd : Int} {buf : Str}
    {len : UInt64}
  {d d' : FileDesc} {fb flen : Nat} {recs : List Rec} {s s' : Cluster}

theorem serve_write (fd offset length : Str) :
    serveMethod users uid (ascii "WRITE") [fd, offset, length]
    = exceptArguments (answer (Cnode.DTree.write fd offset length uid) repBlocks) := by
  have hfind : doMethod (ascii "WRITE") = some .write := by decide
  unfold serveMethod
  rw [hfind]
  rfl

theorem writeFile_failed (hopen : Opened s.ctrl uid (s64 d.serverFd.toNat) fb flen recs)
    (hend : d.offset.toNat ≤ flen → d.offset.toNat + len.toNat ≤ MAX_END)
    (h : writeFile (netLink users uid) l d buf len s = .ok ((-1, d'), s')) :
    Aftermath d buf len fb flen recs s s' := by
  obtain ⟨-, ents, s₁, hask, hrest⟩ := writeFile_done h
  obtain ⟨q, n', hwrite, rfl, hr⟩ := askBlocks_done (serve_write _ _ _) hask
  rcases write_wrote hopen hend hwrite with ⟨⟨e, rfl⟩, hfile⟩ | ⟨news, hfile, hle, rfl, hsend⟩
  · rcases hr with ⟨-, rfl⟩ | ⟨data, hdata, -⟩
    · rcases hrest with ⟨-, -, rfl⟩ | ⟨es, hes, -⟩
      · exact .untouched hfile rfl
      · cases hes
    · cases hdata
  rcases hr with ⟨⟨e, he⟩, -⟩ | ⟨data, hdata, hr⟩
  · cases he
  cases hdata
  rw [hr hsend] at hrest
  rcases hrest with ⟨hnone, -⟩ | ⟨es, hes, hblocks⟩
  · cases hnone
  cases hes
  rcases writeBlocks_done hblocks with ⟨hneg, -⟩ | ⟨-, pre, ent, post, hsegments, hhalted⟩
  · omega
  obtain ⟨hctrl, htakes⟩ := halted_takes hhalted
  rw [Nat.zero_add] at htakes
  have hstored : ∀ a, ∃ n ≤ copies ent a, Takes a (segmentsAt buf a pre 0 ++
      List.replicate n (ent, segmentData buf ent (lengths pre))) s s' := htakes
  have hfirst : d.offset.toNat / BLOCKSIZE ≤ recs.length := hopen.first hle
  refine .halted news pre ent post (hctrl ▸ hfile) hsegments hstored
    fun r hr halone hne a a' ha ha' => ?_
  have halike : ∀ e ∈ pre, e.blockId = .ofNat r.num → Alike e a a' := by
    intro e he hnum
    have hmem : e ∈ (writeEntries recs news d.offset.toNat len.toNat).map toEntry := by
      rw [hsegments]
      exact List.mem_append_left _ he
    obtain ⟨b, hb, rfl⟩ := List.mem_map.mp hmem
    obtain ⟨r', hr', hnum', hip⟩ := writeEntries_rec hfirst hb
    obtain rfl : r' = r := halone r' hr' (hnum' ▸ hnum)
    have hshape : r'.ip.length = 3 := hip ▸ hsend.shape b hb
    exact iff_of_true (copies_pos hip hshape ha) (copies_pos hip hshape ha')
  obtain ⟨n, -, hn⟩ := hstored a
  obtain ⟨n₁, -, hn₁⟩ := hstored a'
  intro d₁ d₂ d₁' d₂' h₁ h₂ h₁' h₂' hw₁ hw₂ hsame
  exact takes_same hn hn₁ hne halike h₁ h₂ h₁' h₂' hw₁ hw₂ hsame

/-- What is left of a write for which -1 is returned. -/
theorem failedWrite_aftermath (hd : fds fd.toNat = some d)
    (hopen : Opened s.ctrl uid (s64 d.serverFd.toNat) fb flen recs)
    (hend : d.offset.toNat ≤ flen → d.offset.toNat + len.toNat ≤ MAX_END)
    (h : Libc.Transfer.sbpWrite (netLink users uid) l fds fd buf len s = .ok ((-1, fds'), s')) :
    Aftermath d buf len fb flen recs s s' := by
  unfold Libc.Transfer.sbpWrite at h
  split at h
  · cases h
    exact .untouched rfl rfl
  obtain ⟨slot, s₁, hslot, hrest⟩ := bind_ok.mp h
  unfold Libc.Transfer.slot at hslot
  split at hslot
  · cases hslot
  obtain ⟨rfl, rfl⟩ := pure_ok.mp hslot
  rw [hd] at hrest
  dsimp only at hrest
  split at hrest
  · obtain ⟨⟨ret, d'⟩, s₂, hfile, hret⟩ := bind_ok.mp hrest
    obtain ⟨hpair, rfl⟩ := pure_ok.mp hret
    obtain rfl : ret = -1 := congrArg Prod.fst hpair
    exact writeFile_failed hopen hend hfile
  · obtain ⟨-, rfl⟩ := pure_ok.mp hrest
    exact .untouched rfl rfl

end Writes

/-! ## A data node that cannot be reached -/

/-- The file `/a` is made by the user 0 and stays open, and a data node has reported. -/
def openedA : List Op := [.openFile (ascii "/a") (ascii "4") (ascii "15") 0,
  .addBlockInfo [ascii "d"] [] (ascii "d") (ascii "1.2.3.4")]

def caller : Login := ⟨[], [], Nat.zero_le _, Nat.zero_le _⟩

/-- The descriptors of a client that has opened `/a`. -/
def callerFds : Fds := fun i => if i = 0 then some { FileDesc.zero with type := T_FILE } else none

/-- The control node without data nodes that could be reached. -/
def deserted (n : CtrlNode) : Cluster := ⟨n, fun _ => none, fun _ => .refused⟩

/-- The data node serves its requests, and its replies get lost. -/
def unheard (n : CtrlNode) : Cluster :=
  ⟨n, fun a => if a = 0x01020304 then some freshNode else none, fun _ => .served false⟩

/-- A write of one byte to the new file. -/
def writeByte (s : Cluster) : Except Stop ((Int × Fds) × Cluster) :=
  Libc.Transfer.sbpWrite (netLink .empty 0) caller callerFds 0 (ascii "x") 1 s

/-- The disk holds a file tree when `/a` has been made. -/
theorem makesA_holding {n n' : CtrlNode} {r : Except Exc Value} (h : NodeHolding n)
    (hends : Ends n ⟨.openFile (ascii "/a") (ascii "4") (ascii "15") 0, calm⟩ r n') :
    NodeHolding n' :=
  nodeHolding_turn h hends (soundTurn_open cstrOf_pathA (by decide : pyInt (ascii "4") = some 4)
    (by decide : pyInt (ascii "15") = some 15) (by decide))

theorem openedA_holding {rs : List (Except Exc Value)} {n : CtrlNode}
    (h : runOps openedA = some (rs, n)) :
    NodeHolding n := by
  obtain ⟨n₀, hboot, hexec⟩ := Option.bind_eq_some_iff.mp h
  obtain ⟨r₁, _, n₁, -, hends₁, hrest⟩ := execOps_cons hexec
  obtain ⟨r₂, _, _, -, hends₂, hnil⟩ := execOps_cons hrest
  cases hnil
  refine nodeHolding_turn (makesA_holding (mounted_boot hboot).2 hends₁) hends₂ ?_
  rintro c ⟨⟩

/-- The new file is empty, and the user 0 has it open. -/
def showsEmpty (n : CtrlNode) : Bool :=
  decide (⟨(cstrOf (ascii "a")).getD [], 2, Cfs.Layout.S_FIL⟩
    ∈ Cfs.DiskView.entries n.world.dt 1) &&
    Cfs.Layout.entryFb (n.world.dt.data 0) 0 == 1 &&
    Cfs.Layout.entryType (n.world.dt.data 0) 0 == Cfs.Layout.S_DIR &&
    CtrlNode.getFile n 0 0 == some ⟨2, 4, Pool.S_FIL⟩ && metaFlen (n.world.dt.data 2) == 0

theorem showsEmpty_opened {rs : List (Except Exc Value)} {n : CtrlNode}
    (hops : runOps openedA = some (rs, n)) (h : showsEmpty n = true) :
    ∃ recs, Opened n 0 0 2 0 recs := by
  simp only [showsEmpty, Bool.and_eq_true, beq_iff_eq, decide_eq_true_eq] at h
  obtain ⟨⟨⟨⟨hmem, hfb⟩, htype⟩, hget⟩, hlen⟩ := h
  obtain ⟨fs, chain, hst, ht, -⟩ := openedA_holding hops
  obtain ⟨owner, flags, len, recs, ho⟩ := live_file hst ht (live_inRoot hfb htype hmem)
  obtain rfl : len = 0 := (file_header hst ho).1.symm.trans hlen
  refine ⟨recs, fun file hfile => ?_, fs, chain, owner, flags, hst, ho⟩
  rw [Option.some.inj (hfile.symm.trans hget)]
  decide

/-- The data node has stored the byte, for which -1 is returned. -/
theorem failedWrite_aftermath_byte : ∃ n recs fds' s', Opened n 0 0 2 0 recs ∧
    writeByte (unheard n) = .ok ((-1, fds'), s') ∧
    ((s'.nodes 0x01020304).bind fun d => (block d 0).map fun f => f.bytes 0) = some 0x78 ∧
    Aftermath { FileDesc.zero with type := T_FILE } (ascii "x") 1 2 0 recs (unheard n) s' := by
  have hrun : ((runOps openedA).any fun q => showsEmpty q.2 &&
      (writeByte (unheard q.2)).toOption.any fun p => p.1.1 == -1 &&
        ((p.2.nodes 0x01020304).bind fun d => (block d 0).map fun f => f.bytes 0) == some 0x78)
          = true := by
    decide +kernel
  simp only [Option.any_eq_true, Bool.and_eq_true, beq_iff_eq, Prod.exists] at hrun
  obtain ⟨_, n, hops, hshows, r, fds', s', hwrite, hneg, hbyte⟩ := hrun
  obtain rfl : r = -1 := hneg
  obtain ⟨recs, hopen⟩ := showsEmpty_opened hops hshows
  have hstep := toOption_some hwrite
  exact ⟨n, recs, fds', s', hopen, hstep, hbyte,
    failedWrite_aftermath rfl hopen (fun _ => by decide) hstep⟩

/-- A write that no data node has heard of has made the file longer. -/
theorem failed_write_grows : ∃ n recs fds' s', Opened n 0 0 2 0 recs ∧
    Libc.Transfer.sbpWrite (netLink .empty 0) caller callerFds 0 (ascii "x") 1 (deserted n)
      = .ok ((-1, fds'), s') ∧ fileAt s'.ctrl 2 ≠ fileAt n 2 := by
  have hrun : ((runOps openedA).any fun q => showsEmpty q.2 &&
      (writeByte (deserted q.2)).toOption.any fun p => p.1.1 == -1 &&
        metaFlen (p.2.ctrl.world.dt.data 2) == 1) = true := by
    decide +kernel
  simp only [Option.any_eq_true, Bool.and_eq_true, beq_iff_eq, Prod.exists] at hrun
  obtain ⟨_, n, hops, hshows, r, fds', s', hwrite, hneg, hlen⟩ := hrun
  obtain rfl : r = -1 := hneg
  obtain ⟨recs, hopen⟩ := showsEmpty_opened hops hshows
  refine ⟨n, recs, fds', s', hopen, toOption_some hwrite, fun hsame => ?_⟩
  obtain ⟨fs, chain, owner, flags, hst, ho⟩ := hopen.disk
  have hlen' : (fileAt s'.ctrl 2).1 = 1 := hlen
  rw [hsame, fileAt_eq hst ho] at hlen'
  cases hlen'

end Sbpfs.Net.FailedWrites
