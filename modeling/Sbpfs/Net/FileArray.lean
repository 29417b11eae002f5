import Sbpfs.Cfs.ChainLaws
import Sbpfs.Net.Acknowledged
import Sbpfs.Net.Contents

/-!
# The file as an array of bytes

What a read through the open file returns, against the bytes last written: the control node lists
the blocks of the range, nodes that have them deliver, and the client joins what they deliver.
-/
namespace Sbpfs.Net.FileArray

open Sbpfs.Lib.Program Sbpfs.Lib.Run Sbpfs.Lib.Pack Sbpfs.Lib.Tiling
open Sbpfs.Cfs.Layout (BLOCKSIZE S_FIL metaFlen)
open Sbpfs.Cfs.Rules Sbpfs.Cfs.Image Sbpfs.Cfs.Data Sbpfs.Cfs.DataSpec Sbpfs.Cfs.BlockSpec
open Sbpfs.Cfs.TilingLaws
open Sbpfs.Cfs.ChainLaws (vast)
open Sbpfs.Cfs.DiskView (Live live_file)
open Sbpfs.Cfs.FileHeaders (file_header)
open Sbpfs.Cfs.Invariants (calm)
open Sbpfs.Spec.FileTree
open Sbpfs.Wire.Head Sbpfs.Wire.Number Sbpfs.Libc.Request Sbpfs.Libc.Table
open Sbpfs.Libc.Recv (overwrite)
open Sbpfs.Libc.Transfer Sbpfs.Libc.TransferSpec Sbpfs.Libc.TransferLaws
open Sbpfs.Cnode Sbpfs.Cnode.Pool Sbpfs.Cnode.Libcfs Sbpfs.Cnode.DTree Sbpfs.Cnode.Ops
open Sbpfs.Cnode.Descriptors (runOps)
open Sbpfs.Cnode.DiskSteps Sbpfs.Cnode.OpenObjects Sbpfs.Cnode.Replicas Sbpfs.Cnode.ReplyLaws
open Sbpfs.Cnode.RequestFields Sbpfs.Cnode.LostFiles Sbpfs.Cnode.Reading
open Sbpfs.Cnode.Homes (rec_fits)
open Sbpfs.Dnode.Blockman Sbpfs.Dnode.BlockSpec
open Sbpfs.Dnode.BlockStore (Willing freshNode)
open Sbpfs.Net.Parties Sbpfs.Net.Granting Sbpfs.Net.FailedWrites Sbpfs.Net.Mirror
    Sbpfs.Net.ReadSteps
open Sbpfs.Net.Contents
open Sbpfs.Net.Acknowledged (homeD)

/-- The bytes that a read of `len` bytes is to return. -/
def expected (s : Session) (d : FileDesc) (len : UInt64) : Str :=
  slice s.content d.offset.toNat len.toNat

/-- Users with known addresses have reported the block, one of them from an address that the
block is to be kept at. -/
def Registered (n : CtrlNode) (r : Rec) : Prop :=
  ∃ users, n.blockmap.lookup r.num = some users ∧ (∀ user ∈ users, (n.ipmap.lookup user).isSome) ∧
    ∃ user ∈ users, ∃ ip ∈ r.ip, ip ≠ 0 ∧ n.ipmap.lookup user = some (long2ip ip)

/-- What `P` says of the blocks that a read of `len` bytes touches. -/
def OnBlocks (s : Session) (d : FileDesc) (file : FileDes) (len : UInt64) (P : Rec → Prop) : Prop :=
  ∀ i r, d.offset.toNat / BLOCKSIZE ≤ i →
    i < blocksFor (d.offset.toNat + (expected s d len).length) →
    (blockList s.cluster.ctrl.world.dt (argI file.fb).toNat)[i]? = some r → P r

/-- A read that starts in the file. The file may be read, and its blocks are registered. -/
structure FileRead (c : Client) (s : Session) (d : FileDesc) (file : FileDes)
    (len : UInt64) : Prop where
  openAs : OpenAs c s d file
  may : mayUse file SBP_O_RDONLY = true
  start : d.offset.toNat ≤ s.content.length
  registered : OnBlocks s d file len (Registered s.cluster.ctrl)

/-- The read lies in one block or starts in a block whose number is a multiple of 256. -/
structure SoundRead (c : Client) (s : Session) (d : FileDesc) (file : FileDes) (len : UInt64) : Prop
    extends FileRead c s d file len where
  aligned : HeadAligned d.offset.toNat (d.offset.toNat + (expected s d len).length)

/-- Every message is delivered, and the nodes of the blocks can answer. -/
structure AllAnswer (s : Session) (d : FileDesc) (file : FileDes) (len : UInt64) : Prop where
  served : Served s.cluster
  able : OnBlocks s d file len fun r => ∀ a, Replica r a →
    ∃ node, s.cluster.nodes a = some node ∧ Able node (.ofNat r.num)

/-- What a read returns are the bytes last written; it returns them where all data nodes answer and
there is a block to ask for. -/
def Exact (c : Client) (s : Session) : Prop :=
  ∀ d file buf len, SoundRead c s d file len →
    (∀ r buf' fds' t, Libc.Transfer.sbpRead (netLink c.users c.uid) c.login s.fds c.fd
      buf len s.cluster
      = .ok ((r, buf', fds'), t) → 0 ≤ r →
        r = (expected s d len).length ∧ buf' = overwrite buf 0 (expected s d len)) ∧
    (AllAnswer s d file len → (expected s d len).length ≤ buf.length →
      d.offset.toNat / BLOCKSIZE < blocksFor (d.offset.toNat + (expected s d len).length) →
        ∃ fds' t, Libc.Transfer.sbpRead (netLink c.users c.uid) c.login s.fds c.fd buf len s.cluster
          = .ok (((expected s d len).length, overwrite buf 0 (expected s d len), fds'), t))

section Returned

variable {n : CtrlNode} {recs : List Rec} {content : Str} {b : SendBlock} {r : Rec}

/-- The filter leaves nodes of the block, and no others. -/
theorem replica_sieve {j : Fin (REDUNDANCY + 1)} (hip : b.ip = r.ip)
    (h : (toEntry (sieve n b)).dNodes j ≠ 0) : Replica r ((toEntry (sieve n b)).dNodes j) := by
  refine ⟨h, ?_⟩
  change UInt32.ofNat (((sieve n b).ip[j.val]?).getD 0) ≠ 0 at h
  change ∃ ip ∈ r.ip, UInt32.ofNat (((sieve n b).ip[j.val]?).getD 0) = .ofNat ip
  cases hj : (sieve n b).ip[j.val]? with
  | none =>
    rw [hj] at h
    exact absurd rfl h
  | some v =>
    rw [hj, Option.getD_some] at h
    rw [Option.getD_some]
    obtain ⟨ip, hmem, rfl⟩ := List.mem_map.mp (List.mem_of_getElem? hj)
    split at h
    · exact ⟨ip, hip ▸ hmem, by rw [if_pos ‹_›]⟩
    · exact absurd rfl h

/-- A registered block keeps a node. -/
theorem hasNode_sieve (hreg : Registered n r) (hnum : b.blockNum = r.num) (hip : b.ip = r.ip)
    (hshape : r.ip.length = 3) (hfits : ∀ ip ∈ r.ip, ip < 2 ^ 32) :
    HasNode (toEntry (sieve n b)) := by
  obtain ⟨users, husers, -, user, huser, ip, hmem, hne, haddr⟩ := hreg
  obtain ⟨i, hi, rfl⟩ := List.getElem_of_mem hmem
  have hlt := hfits _ hmem
  rw [hshape] at hi
  refine ⟨⟨i, hi⟩, ?_⟩
  change UInt32.ofNat (((sieve n b).ip[i]?).getD 0) ≠ 0
  have hkeep : (sieve n b).ip[i]? = some r.ip[i] := by
    unfold sieve
    rw [List.getElem?_map, hip, List.getElem?_eq_getElem (by omega), Option.map_some, hnum, husers,
      Option.getD_some, if_pos ⟨user, huser, haddr⟩]
  rw [hkeep, Option.getD_some]
  intro hzero
  have hnat := congrArg UInt32.toNat hzero
  rw [UInt32.toNat_ofNat_of_lt' hlt] at hnat
  exact hne hnat

end Returned

section Reads

variable {c : Client} {s : Session} {d : FileDesc} {file : FileDes} {len : UInt64} {recs : List Rec}

theorem expected_length (s : Session) (d : FileDesc) (len : UInt64) : (expected s d len).length
    = readLen s.content.length d.offset.toNat len.toNat := by
  unfold expected slice readLen
  rw [List.length_take, List.length_drop]
  split <;> omega

/-- A range that ends behind the file ends with the file. -/
theorem expected_slice (s : Session) (d : FileDesc) (len : UInt64) :
    slice s.content d.offset.toNat (expected s d len).length = expected s d len := by
  unfold expected slice
  rw [List.take_eq_take_iff, List.length_take]
  omega

/-- The range ends in the file. -/
theorem FileRead.stop (h : FileRead c s d file len) :
    d.offset.toNat + (expected s d len).length ≤ s.content.length := by
  rw [expected_length]
  exact readLen_le h.start

/-- The entries that a read is answered with, before the filter. -/
def rangeEntries (s : Session) (d : FileDesc) (len : UInt64) (recs : List Rec) : List SendBlock :=
  readEntries recs s.content.length d.offset.toNat len.toNat

/-- The entries as the client gets them. -/
def granted (s : Session) (d : FileDesc) (len : UInt64) (recs : List Rec) : List BlockEntry :=
  ((rangeEntries s d len recs).map (sieve s.cluster.ctrl)).map toEntry

/-- The entries are about the blocks that the read touches, one after the other. -/
theorem entries_records (h : FileRead c s d file len)
    (hfile : FileThere s.cluster.ctrl (argI file.fb).toNat s.content.length recs) {j : Nat}
    {b : SendBlock}
    (hb : (rangeEntries s d len recs)[j]? = some b) :
    ∃ r, recs[d.offset.toNat / BLOCKSIZE + j]? = some r ∧ b.blockNum = r.num ∧ b.ip = r.ip ∧
      d.offset.toNat / BLOCKSIZE + j < blocksFor (d.offset.toNat + (expected s d len).length) := by
  rw [expected_length]
  exact readEntries_blocks hfile.count h.start hb

/-- What is asked of the blocks that the read touches holds of the block of an entry. -/
theorem entries_touched (h : FileRead c s d file len)
    (hfile : FileThere s.cluster.ctrl (argI file.fb).toNat s.content.length recs) {P : Rec → Prop}
    (hP : OnBlocks s d file len P) {j : Nat} {b : SendBlock}
    (hb : (rangeEntries s d len recs)[j]? = some b) :
    ∃ r ∈ recs, b.blockNum = r.num ∧ b.ip = r.ip ∧ P r := by
  obtain ⟨fs, chain, owner, flags, hst, ho⟩ := hfile.disk
  obtain ⟨r, hr, hnum, hip, hlt⟩ := entries_records h hfile hb
  refine ⟨r, List.mem_of_getElem? hr, hnum, hip, hP _ r (Nat.le_add_right _ _) hlt ?_⟩
  rw [blockList_eq hst ho]
  exact hr

/-- The control node grants the read. -/
theorem read_granted (h : FileRead c s d file len) (hhold : Holding c s)
    (hfile : FileThere s.cluster.ctrl (argI file.fb).toNat s.content.length recs)
    (hne : rangeEntries s d len recs ≠ []) :
    ∃ n', askBlocks (netLink c.users c.uid) c.login d len "READ" s.cluster
      = .ok (some (granted s d len recs), { s.cluster with ctrl := n' }) := by
  obtain ⟨fs, chain, owner, flags, hst, ho⟩ := hfile.disk
  have hmay : MayRead s.cluster.ctrl c.uid (s64 d.serverFd.toNat) file :=
    ⟨h.openAs.found, h.openAs.fileType, h.may⟩
  have hlocated : ∀ b ∈ rangeEntries s d len recs, Located s.cluster.ctrl b.blockNum := by
    intro b hb
    obtain ⟨j, hj⟩ := List.getElem?_of_mem hb
    obtain ⟨r, -, hnum, -, users, husers, hall, -⟩ := entries_touched h hfile h.registered hj
    exact ⟨users, hnum ▸ husers, hall⟩
  have hoff : argK (s64 d.offset.toNat) = d.offset := argK_s64 _
  have hlen : argK (s64 len.toNat) = len := argK_s64 _
  obtain ⟨n', hrun⟩ := read_run (pyInt_decimal 0 _) (pyInt_decimal 0 (s64 d.offset.toNat))
    (pyInt_decimal 0 (s64 len.toNat)) hmay hst ho hhold.memory (hoff.symm ▸ h.start)
    (by rw [hoff, hlen]; exact hne) (by rw [hoff, hlen]; exact hlocated)
  rw [hoff, hlen] at hrun
  refine ⟨n', askBlocks_run hhold.fits (serve_read _ _ _) hrun ⟨fun b hb => ?_, ?_⟩⟩
  · obtain ⟨b, hb', rfl⟩ := List.mem_map.mp hb
    obtain ⟨j, hj⟩ := List.getElem?_of_mem hb'
    obtain ⟨r, hr, -, hip, -⟩ := entries_touched h hfile h.registered hj
    change (b.ip.map _).length = 3
    rw [List.length_map, hip]
    exact rec_shape hst ho hr
  · have hle := file_len_le hst ho
    have hread := @readLen_le s.content.length d.offset.toNat len.toNat h.start
    unfold rangeEntries
    rw [List.length_map, readEntries_length]
    exact (Nat.sub_le _ _).trans_lt ((blocksFor_max (hread.trans hle)).trans (by decide))

/-- Without an entry the read is refused. -/
theorem read_refused {ents : Option (List BlockEntry)} {t : Cluster} (h : FileRead c s d file len)
    (hhold : Holding c s)
    (hfile : FileThere s.cluster.ctrl (argI file.fb).toNat s.content.length recs)
    (hnil : rangeEntries s d len recs = [])
    (hask : askBlocks (netLink c.users c.uid) c.login d len "READ" s.cluster = .ok (ents, t)) :
    ents = none := by
  obtain ⟨fs, chain, owner, flags, hst, ho⟩ := hfile.disk
  have hoff : argK (s64 d.offset.toNat) = d.offset := argK_s64 _
  have hlen : argK (s64 len.toNat) = len := argK_s64 _
  obtain ⟨e, n', hnone⟩ := read_none (pyInt_decimal 0 _) (pyInt_decimal 0 (s64 d.offset.toNat))
    (pyInt_decimal 0 (s64 len.toNat)) ⟨h.openAs.found, h.openAs.fileType, h.may⟩ hst ho hhold.memory
    (hoff.symm ▸ h.start) (by rw [hoff, hlen]; exact hnil)
  obtain ⟨q, n₁, hcall, -, hents⟩ := askBlocks_done (serve_read _ _ _) hask
  cases hnone.symm.trans hcall
  rcases hents with ⟨-, hents⟩ | ⟨data, hdata, -⟩
  · exact hents
  · cases hdata

/-- The blocks of the entries are there, and nodes that can answer are asked for them. -/
theorem granted_answerable (h : FileRead c s d file len) (hall : AllAnswer s d file len)
    (hfile : FileThere s.cluster.ctrl (argI file.fb).toNat s.content.length recs)
    (hm : Mirrors recs s.content s.cluster.nodes)
    (hreads : Listed (ReadsAt recs s.content) (d.offset.toNat / BLOCKSIZE) (granted s d len recs))
    {e : BlockEntry} (he : e ∈ granted s d len recs) : Answerable s.cluster e := by
  obtain ⟨fs, chain, owner, flags, hst, ho⟩ := hfile.disk
  obtain ⟨j, hj⟩ := List.getElem?_of_mem he
  have hread := hreads j e hj
  unfold granted at hj
  rw [List.map_map, List.getElem?_map, Option.map_eq_some_iff] at hj
  obtain ⟨b, hb, rfl⟩ := hj
  obtain ⟨-, -, -, -, hlt⟩ := entries_records h hfile hb
  have hboth : OnBlocks s d file len fun r => Registered s.cluster.ctrl r ∧ ∀ a, Replica r a →
      ∃ node, s.cluster.nodes a = some node ∧ Able node (.ofNat r.num) :=
    fun i r hlow hhigh hr => ⟨h.registered i r hlow hhigh hr, hall.able i r hlow hhigh hr⟩
  obtain ⟨r, hr, hnum, hip, hreg, hable⟩ := entries_touched h hfile hboth hb
  refine ⟨hasNode_sieve hreg hnum hip (rec_shape hst ho hr) (rec_fits hst ho hr).2, fun i hi => ?_⟩
  obtain ⟨node, hnode, hable⟩ := hable _ (replica_sieve hip hi)
  have hinside : (d.offset.toNat / BLOCKSIZE + j) * BLOCKSIZE < s.content.length := by
    have hstop := h.stop
    simp only [blocksFor_eq, BLOCKSIZE] at hlt ⊢
    omega
  obtain ⟨f, hf⟩ := block_there hm hread hinside hi hnode
  have hid : (toEntry (sieve s.cluster.ctrl b)).blockId = .ofNat r.num := congrArg UInt64.ofNat hnum
  exact ⟨node, f, hnode, hid ▸ hable, hf⟩

/-- A read that all nodes answer comes back with what the entries are about. -/
theorem read_served {buf : Str} (h : FileRead c s d file len) (hall : AllAnswer s d file len)
    (hhold : Holding c s)
    (hfile : FileThere s.cluster.ctrl (argI file.fb).toNat s.content.length recs)
    (hm : Mirrors recs s.content s.cluster.nodes) (hne : rangeEntries s d len recs ≠ [])
    (hreads : Listed (ReadsAt recs s.content) (d.offset.toNat / BLOCKSIZE) (granted s d len recs))
    (hroom : lengths (granted s d len recs) ≤ buf.length) :
    ∃ fds' t, Libc.Transfer.sbpRead (netLink c.users c.uid) c.login s.fds c.fd buf len s.cluster
      = .ok (((lengths (granted s d len recs) : Nat), overwrite buf 0
        (gathered s.content (d.offset.toNat / BLOCKSIZE) (granted s d len recs)), fds'), t) := by
  obtain ⟨n', hgranted⟩ := read_granted h hhold hfile hne
  have hserved : Served { s.cluster with ctrl := n' } := hall.served
  have hanswer : ∀ e ∈ granted s d len recs, Answerable { s.cluster with ctrl := n' } e :=
    fun e he => granted_answerable h hall hfile hm hreads he
  have hthere : Mirrors recs s.content ({ s.cluster with ctrl := n' } : Cluster).nodes := hm
  obtain ⟨t, hblocks⟩ := readBlocks_served c.users c.uid d.authCode buf 0 hhold.fits hserved hanswer
    hthere hreads (by omega)
  rw [Nat.zero_add] at hblocks
  refine ⟨setSlot s.fds c.fd.toNat (some (advance d (lengths (granted s d len recs)))), t, ?_⟩
  rw [sbpRead_eq hhold.number h.openAs.slot h.openAs.type, bind_run (readFile_run hgranted hblocks)]
  rfl

/-! ## Reads along the blocks -/

theorem entries_tiles (h : SoundRead c s d file len)
    (hfile : FileThere s.cluster.ctrl (argI file.fb).toNat s.content.length recs) :
    Tiles BLOCKSIZE (d.offset.toNat / BLOCKSIZE) d.offset.toNat
      (d.offset.toNat + (expected s d len).length) (pieces (rangeEntries s d len recs)) := by
  obtain ⟨fs, chain, owner, flags, hst, ho⟩ := hfile.disk
  have hstop := h.stop.trans (file_len_le hst ho)
  have haligned := h.aligned
  rw [expected_length] at hstop haligned ⊢
  exact (entries_tile_iff hstop).mpr haligned

theorem granted_tiles (h : SoundRead c s d file len)
    (hfile : FileThere s.cluster.ctrl (argI file.fb).toNat s.content.length recs) :
    Tiles BLOCKSIZE (d.offset.toNat / BLOCKSIZE) d.offset.toNat
      (d.offset.toNat + (expected s d len).length) ((granted s d len recs).map cutOf) := by
  have ht := entries_tiles h hfile
  rw [← cuts_toEntry ht.within] at ht
  have hsame : (granted s d len recs).map cutOf
    = ((rangeEntries s d len recs).map toEntry).map cutOf := by
    unfold granted
    rw [List.map_map, List.map_map, List.map_map]
    rfl
  rw [hsame]
  exact ht

theorem granted_reads (h : SoundRead c s d file len)
    (hfile : FileThere s.cluster.ctrl (argI file.fb).toNat s.content.length recs) :
    Listed (ReadsAt recs s.content) (d.offset.toNat / BLOCKSIZE) (granted s d len recs) := by
  intro j e he
  obtain ⟨hin, hstop⟩ := listed_tiles (granted_tiles h hfile) j e he
  unfold granted at he
  rw [List.map_map, List.getElem?_map, Option.map_eq_some_iff] at he
  obtain ⟨b, hb, rfl⟩ := he
  obtain ⟨r, hr, hnum, hip, -⟩ := entries_records h.toFileRead hfile hb
  exact ⟨r, hr, congrArg UInt64.ofNat hnum, fun j' hj' => replica_sieve hip hj', hin,
    hstop.trans h.stop⟩

/-- What comes back are the bytes of the file. -/
theorem read_exact {buf buf' : Str} {d' : FileDesc} {r : Int} {t : Cluster}
    (h : SoundRead c s d file len)
    (hhold : Holding c s)
    (hfile : FileThere s.cluster.ctrl (argI file.fb).toNat s.content.length recs)
    (hm : Mirrors recs s.content s.cluster.nodes)
    (hrun : readFile (netLink c.users c.uid) c.login d buf len s.cluster = .ok ((r, buf', d'), t))
    (hr : 0 ≤ r) : r = (expected s d len).length ∧ buf' = overwrite buf 0 (expected s d len) := by
  obtain ⟨-, ents, s₁, hask, hcase⟩ := readFile_done hrun
  rcases hcase with ⟨-, rfl, -⟩ | ⟨es, rfl, hblocks⟩
  · omega
  have hne : rangeEntries s d len recs ≠ [] := by
    intro hnil
    cases read_refused h.toFileRead hhold hfile hnil hask
  obtain ⟨n', hgranted⟩ := read_granted h.toFileRead hhold hfile hne
  cases hask.symm.trans hgranted
  have htiles := granted_tiles h hfile
  have hlen := lengths_tiles htiles
  rcases readBlocks_done (Nat.zero_le _) hblocks with ⟨datas, hall, hret, -, hbuf⟩ | ⟨hneg, -⟩
  · obtain ⟨-, hflat⟩ := allFetched_content hall hm (granted_reads h hfile)
    refine ⟨by omega, ?_⟩
    rw [hbuf, hflat, gathered_tiles htiles, Nat.add_sub_cancel_left, expected_slice]
  · omega

/-- Where the bytes stand in the blocks, reads along the blocks return them. -/
theorem holding_exact (h : Holding c s) : Exact c s := by
  obtain ⟨d, file, recs, hopen, hfile, hm⟩ := h.file
  intro d₁ file₁ buf len hs
  obtain rfl : d₁ = d := Option.some.inj (hs.openAs.slot.symm.trans hopen.slot)
  obtain rfl : file₁ = file := Option.some.inj (hs.openAs.found.symm.trans hopen.found)
  refine ⟨fun r buf' fds' t hrun hr => ?_, fun hall hroom htouch => ?_⟩
  · obtain ⟨d', hread, -⟩ := sbpRead_done h.number hopen.slot hopen.type hrun
    exact read_exact hs h hfile hm hread hr
  · have hne : rangeEntries s d₁ len recs ≠ [] := by
      intro hnil
      have hcount := congrArg List.length hnil
      unfold rangeEntries at hcount
      rw [readEntries_length, ← expected_length, List.length_nil] at hcount
      omega
    have htiles := granted_tiles hs hfile
    have hlen : lengths (granted s d₁ len recs) = (expected s d₁ len).length := by
      have hsum := lengths_tiles htiles
      omega
    have hread := read_served hs.toFileRead hall h hfile hm hne (granted_reads hs hfile)
      (hlen.symm ▸ hroom)
    rw [gathered_tiles htiles, Nat.add_sub_cancel_left, expected_slice, hlen] at hread
    exact hread

end Reads

/-- In every run whose writes cut their ranges along the blocks, reads along the blocks return the
bytes last written. -/
theorem contents_run {c : Client} {s : Session} (h : Reach (Holding c) (SoundStep c) s) :
    Exact c s :=
  holding_exact (h.inv (fun _ h0 => h0) fun _ _ _ hinv hstep => holding_step hinv hstep)

/-! ## Files that are there -/

/-- The root has a file `a` of `len` bytes with the blocks `recs`, and the user 0 has it open. -/
def showsFile (n : CtrlNode) (len : Nat) (recs : List Rec) : Bool :=
  decide (⟨(cstrOf (ascii "a")).getD [], 2, S_FIL⟩ ∈ Cfs.DiskView.entries n.world.dt 1) &&
    Cfs.Layout.entryFb (n.world.dt.data 0) 0 == 1 &&
    Cfs.Layout.entryType (n.world.dt.data 0) 0 == Cfs.Layout.S_DIR &&
    CtrlNode.getFile n 0 0 == some ⟨2, 4, Pool.S_FIL⟩ &&
    metaFlen (n.world.dt.data 2) == len && blockList n.world.dt 2 == recs

/-- The client with `callerFds`. -/
def clientA : Client := ⟨.empty, 0, caller, 0⟩

/-- The control node, with memory enough, and `d` at `homeD`; nothing gets lost. -/
def siteA (n : CtrlNode) (d : DNode) : Cluster :=
  ⟨CtrlNode.answering n vast, fun a => if a = homeD then some d else none, fun _ => .served true⟩

section Sites

variable {n : CtrlNode} {d : DNode} {len : Nat} {recs : List Rec} {content : Str}

theorem showsFile_live (h : showsFile n len recs = true) : Live n.world.dt 2 S_FIL ∧
    CtrlNode.getFile n 0 0 = some ⟨2, 4, Pool.S_FIL⟩ := by
  simp only [showsFile, Bool.and_eq_true, beq_iff_eq, decide_eq_true_eq] at h
  obtain ⟨⟨⟨⟨⟨hmem, hfb⟩, htype⟩, hget⟩, -⟩, -⟩ := h
  exact ⟨live_inRoot hfb htype hmem, hget⟩

theorem showsFile_there (hn : NodeHolding n) (h : showsFile n len recs = true)
    (honce : (recs.map Rec.num).Nodup) (hbelow : ∀ r ∈ recs, r.num < n.world.dt.sb.maxBlockNum) :
    FileThere n 2 len recs := by
  obtain ⟨fs, chain, hst, ht, -⟩ := hn
  obtain ⟨owner, flags, len', recs', ho⟩ := live_file hst ht (showsFile_live h).1
  simp only [showsFile, Bool.and_eq_true, beq_iff_eq] at h
  obtain ⟨⟨-, hlen⟩, hrecs⟩ := h
  obtain rfl : len' = len := (file_header hst ho).1.symm.trans hlen
  obtain rfl : recs' = recs := (blockList_eq hst ho).symm.trans hrecs
  exact ⟨⟨fs, chain, owner, flags, hst, ho⟩, honce, hbelow⟩

theorem siteA_node {a : UInt32} {d' : DNode} (h : (siteA n d).nodes a = some d') :
    a = homeD ∧ d' = d := by
  unfold siteA at h
  dsimp only at h
  split at h
  · exact ⟨‹_›, (Option.some.inj h).symm⟩
  · cases h

theorem fileThere_siteA (h : FileThere n 2 len recs) : FileThere (siteA n d).ctrl 2 len recs :=
  ⟨h.disk, h.once, h.below⟩

/-- The file is open at both ends. -/
theorem holding_siteA {fds : Fds} {e : FileDesc} (hslot : fds 0 = some e) (htype : e.type = T_FILE)
    (hserver : e.serverFd = 0) (hfile : FileThere n 2 content.length recs)
    (hget : CtrlNode.getFile n 0 0 = some ⟨2, 4, Pool.S_FIL⟩) (hw : Willing d)
    (hm : Mirrors recs content (siteA n d).nodes) : Holding clientA ⟨siteA n d, fds, content⟩ where
  fits := (by decide : [].length < MAX_USERNAME_LEN)
  number := by decide
  memory := Cfs.ChainLaws.vast_ample
  willing := by
    intro a d' hd
    rw [(siteA_node hd).2]
    exact hw
  file := by
    refine ⟨e, ⟨2, 4, Pool.S_FIL⟩, recs, ⟨hslot, htype, ?_, rfl⟩, fileThere_siteA hfile, hm⟩
    rw [hserver]
    exact hget

end Sites

/-! ## A file of one byte -/

theorem registered_homeD {n : CtrlNode} {num : Nat} (hblock : n.blockmap.lookup num = some {nodeD})
    (haddr : n.ipmap.lookup nodeD = some addrD) : Registered n ⟨num, [0x01020304, 0, 0]⟩ := by
  refine ⟨{nodeD}, hblock, fun user hu => ?_, nodeD, Finset.mem_singleton_self _, 0x01020304,
    List.mem_cons_self .., by decide, haddr⟩
  rw [Finset.mem_singleton.mp hu, haddr]
  rfl

/-- A byte is written, reported and read. -/
theorem contents_run_byte : ∃ s d file, Reach (Holding clientA) (SoundStep clientA) s ∧
    s.content = ascii "x" ∧ SoundRead clientA s d file 1 ∧ expected s d 1 = ascii "x" ∧
    Exact clientA s := by
  have hrun : ((runOps openedA).any fun q => showsFile q.2 0 [] &&
      q.2.world.dt.sb.maxBlockNum == 0 &&
      (Libc.Transfer.sbpWrite (netLink .empty 0) caller callerFds 0 (ascii "x") 1
        (siteA q.2 freshNode)).toOption.any fun p => p.1.1 == 1 &&
          (sbpSeek p.1.2 0 (-1) p.2).toOption.any fun v =>
            ((v.1.2 0).any fun d => d.offset == 0 && d.serverFd == 0 && d.type == T_FILE) &&
              ((Event.report [nodeD] [0] nodeD addrD).run v.2.ctrl).toOption.any fun u =>
                u.1.isOk && CtrlNode.getFile u.2 0 0 == some ⟨2, 4, Pool.S_FIL⟩ &&
                  blockList u.2.world.dt 2 == [⟨0, [0x01020304, 0, 0]⟩] &&
                  decide (u.2.blockmap.lookup 0 = some {nodeD}) &&
                  u.2.ipmap.lookup nodeD == some addrD) = true := by
    decide +kernel
  simp only [Option.any_eq_true, Bool.and_eq_true, beq_iff_eq, decide_eq_true_eq,
    Prod.exists] at hrun
  obtain ⟨_, n, hops, ⟨hshows, hmax⟩, r, fds₁, t₁, hwrite, hr, r', fds₂, t₂, hseek,
    ⟨d, hslot, ⟨hoffset, hserver⟩, htype⟩, q, n', hreport, ⟨⟨⟨hq, hget⟩, hblocks⟩, hblock⟩,
      haddr⟩ := hrun
  obtain rfl : r = 1 := hr
  have hempty : FileThere n 2 0 [] := showsFile_there (openedA_holding hops) hshows List.nodup_nil
    fun r hr => absurd hr List.not_mem_nil
  have hmirrors : Mirrors [] [] (siteA n freshNode).nodes := fun i x r a d hx => nomatch hx
  have h0 : Holding clientA ⟨siteA n freshNode, callerFds, []⟩ :=
    holding_siteA rfl rfl rfl hempty (showsFile_live hshows).2 (fun k => rfl) hmirrors
  have h₁ : SoundStep clientA ⟨siteA n freshNode, callerFds, []⟩ (.write (ascii "x") 1)
      ⟨t₁, fds₁, ascii "x"⟩ := by
    have hstep := Step.write (c := clientA) (s := ⟨siteA n freshNode, callerFds, []⟩)
      (toOption_some hwrite) fun hneg => absurd hneg (by decide)
    refine ⟨hstep, fun d₀ hd₀ => ?_⟩
    obtain rfl := Option.some.inj hd₀
    refine ⟨Nat.le_refl 0, by decide, by decide, ?_, ?_⟩
    · change WriteAligned 0 0 1
      unfold WriteAligned
      rw [if_neg (by decide)]
      exact ⟨rfl, .inl (by decide)⟩
    · change n.world.dt.sb.maxBlockNum + growth (blocksFor 0) 1 < 2 ^ 64
      rw [hmax]
      decide
  have h₂ : SoundStep clientA ⟨t₁, fds₁, ascii "x"⟩ (.seek (-1)) ⟨t₂, fds₂, ascii "x"⟩ :=
    ⟨.seek (toOption_some hseek), trivial⟩
  have h₃ : SoundStep clientA ⟨t₂, fds₂, ascii "x"⟩ (.notice (.report [nodeD] [0] nodeD addrD))
      ⟨{ t₂ with ctrl := n' }, fds₂, ascii "x"⟩ := by
    cases q with
    | error e => cases hq
    | ok u => exact ⟨.notice (toOption_some hreport), trivial⟩
  have hreach := (((Reach.init h0).step h₁).step h₂).step h₃
  have hbytes : expected ⟨{ t₂ with ctrl := n' }, fds₂, ascii "x"⟩ d 1 = ascii "x" := by
    unfold expected
    dsimp only
    rw [hoffset]
    decide
  refine ⟨_, d, ⟨2, 4, Pool.S_FIL⟩, hreach, rfl,
    ⟨⟨⟨hslot, htype, ?_, rfl⟩, rfl, ?_, ?_⟩, ?_⟩, hbytes,
    contents_run hreach⟩
  · rw [hserver]
    exact hget
  · rw [hoffset]
    exact Nat.zero_le _
  · intro i r hlow hhigh hrec
    rw [hbytes, hoffset] at hhigh
    have hfirst : i < 1 := hhigh
    obtain rfl : i = 0 := by omega
    change (blockList n'.world.dt 2)[0]? = some r at hrec
    rw [hblocks] at hrec
    obtain rfl := Option.some.inj hrec
    exact registered_homeD hblock haddr
  · rw [hbytes, hoffset]
    exact .inl (by decide)

/-! ## A file of three blocks -/

def three : List Rec := [⟨0, [0x01020304, 0, 0]⟩, ⟨1, [0x01020304, 0, 0]⟩, ⟨2, [0x01020304, 0, 0]⟩]

/-- The file gets two whole blocks and a byte, and the node reports them. -/
def wide : List Turn := [⟨.write (ascii "0") (ascii "0") (ascii "33554433") 0, calm⟩,
  ⟨.addBlockInfo [nodeD] [0, 1, 2] nodeD addrD, calm⟩]

def bytesA : Str := List.replicate 33554433 0x61

/-- A data node that has the blocks. -/
def wideNode : DNode :=
  { freshNode with
    files := fun p =>
      if p = pathOf 0 ∨ p = pathOf 1 then some ⟨BLOCKSIZE, fun _ => 0x61⟩
      else if p = pathOf 2 then some ⟨1, fun _ => 0x61⟩
      else freshNode.files p }

/-- The client's descriptor, at the second block. -/
def secondBlock : FileDesc := { FileDesc.zero with type := T_FILE, offset := 16777216 }

theorem mirrors_wide {n : CtrlNode} : Mirrors three bytesA (siteA n wideNode).nodes := by
  intro i x r a d hx hr hrep hd
  obtain ⟨-, rfl⟩ := siteA_node hd
  obtain ⟨hi, rfl⟩ := List.getElem?_eq_some_iff.mp hx
  have hlen : bytesA.length = 33554433 := List.length_replicate
  have hbyte : bytesA[i] = 0x61 := List.getElem_replicate _
  rw [hbyte]
  rw [hlen] at hi
  have hblock : i / BLOCKSIZE = 0 ∨ i / BLOCKSIZE = 1 ∨ i / BLOCKSIZE = 2 ∧ i % BLOCKSIZE = 0 := by
    dsimp only [BLOCKSIZE]
    omega
  have hmod : i % BLOCKSIZE < BLOCKSIZE := Nat.mod_lt _ (by decide)
  rcases hblock with h | h | ⟨h, hzero⟩
  · rw [h] at hr
    obtain rfl := Option.some.inj hr
    exact byteOf_some.mpr ⟨hmod, rfl⟩
  · rw [h] at hr
    obtain rfl := Option.some.inj hr
    exact byteOf_some.mpr ⟨hmod, rfl⟩
  · rw [h] at hr
    obtain rfl := Option.some.inj hr
    rw [hzero]
    exact byteOf_some.mpr ⟨Nat.zero_lt_one, rfl⟩

theorem wide_holding {n₀ n : CtrlNode} {rs : List (Except Exc Value)} (h : NodeHolding n₀)
    (hshows : showsFile n₀ 0 [] = true) (hexec : execOps wide n₀ = some (rs, n)) :
    NodeHolding n := by
  obtain ⟨r₁, _, n₁, -, hends₁, hrest⟩ := execOps_cons hexec
  obtain ⟨r₂, _, _, -, hends₂, hnil⟩ := execOps_cons hrest
  cases hnil
  obtain ⟨hlive, hget⟩ := showsFile_live hshows
  have hcall : libCall n₀ (.write (ascii "0") (ascii "0") (ascii "33554433") 0)
      = some (.write 2 0 33554433 (parseIps n₀.ips)) :=
    libCall_write (by decide : pyInt (ascii "0") = some 0) (by decide : pyInt (ascii "0") = some 0)
      (by decide : pyInt (ascii "33554433") = some 33554433) hget
  refine nodeHolding_turn (nodeHolding_turn h hends₁ fun c hc => ?_) hends₂ ?_
  · cases hcall.symm.trans hc
    exact .inr ⟨hlive, by decide⟩
  · rintro c ⟨⟩

theorem replica_homeD {num : Nat} {a : UInt32} (h : Replica ⟨num, [0x01020304, 0, 0]⟩ a) :
    a = homeD := by
  obtain ⟨hne, ip, hip, rfl⟩ := h
  have hhome : ip = 0x01020304 := by
    by_contra hno
    have hzero : ip = 0 := by simpa [hno] using hip
    exact hne (hzero ▸ rfl)
  rw [hhome]
  rfl

/-- The file has the three blocks, and the node knows the last two. -/
structure Widened (n : CtrlNode) : Prop where
  there : FileThere n 2 bytesA.length three
  found : CtrlNode.getFile n 0 0 = some ⟨2, 4, Pool.S_FIL⟩
  blocks : ∀ i ∈ [1, 2], n.blockmap.lookup i = some {nodeD}
  address : n.ipmap.lookup nodeD = some addrD

theorem length_bytesA : bytesA.length = 33554433 := List.length_replicate

theorem exists_widened : ∃ n, Widened n := by
  have hrun : ((runOps openedA).any fun q => showsFile q.2 0 [] &&
      (execOps wide q.2).any fun v => showsFile v.2 33554433 three &&
      v.2.world.dt.sb.maxBlockNum == 3 &&
        [1, 2].all (fun i => v.2.blockmap.lookup i == some {nodeD}) &&
        v.2.ipmap.lookup nodeD == some addrD) = true := by
    decide +kernel
  simp only [Option.any_eq_true, Bool.and_eq_true, beq_iff_eq, Prod.exists,
    List.all_eq_true] at hrun
  obtain ⟨_, n₀, hops, hshows₀, _, n, hexec, ⟨⟨hshows, hmax⟩, hblocks⟩, haddr⟩ := hrun
  have hbelow : ∀ r ∈ three, r.num < n.world.dt.sb.maxBlockNum := by
    rw [hmax]
    decide
  refine ⟨n, ?_, (showsFile_live hshows).2, hblocks, haddr⟩
  rw [length_bytesA]
  exact showsFile_there (wide_holding (openedA_holding hops) hshows₀ hexec) hshows
    (by decide) hbelow

/-- The client has moved to the second block. -/
def wideSession (n : CtrlNode) : Session :=
  ⟨siteA n wideNode, setSlot callerFds 0 (some secondBlock), bytesA⟩

section Wide

variable {n : CtrlNode}

theorem expected_wide : (expected (wideSession n) secondBlock 16777217).length = 16777217 := by
  rw [expected_length]
  change readLen bytesA.length 16777216 16777217 = _
  rw [length_bytesA]
  decide

/-- The second and the third block are touched. -/
theorem onBlocks_wide (h : Widened n) {P : Rec → Prop} (h₁ : P ⟨1, [0x01020304, 0, 0]⟩)
    (h₂ : P ⟨2, [0x01020304, 0, 0]⟩) :
    OnBlocks (wideSession n) secondBlock ⟨2, 4, Pool.S_FIL⟩ 16777217 P := by
  intro i r hlow hhigh hrec
  obtain ⟨fs, chain, owner, flags, hst, ho⟩ := h.there.disk
  rw [expected_wide] at hhigh
  change (blockList n.world.dt 2)[i]? = some r at hrec
  rw [blockList_eq hst ho] at hrec
  have hone : 1 ≤ i := hlow
  have htwo : i < 3 := hhigh
  obtain rfl | rfl : i = 1 ∨ i = 2 := by omega
  · obtain rfl := Option.some.inj hrec
    exact h₁
  · obtain rfl := Option.some.inj hrec
    exact h₂

theorem fileRead_wide (h : Widened n) :
    FileRead clientA (wideSession n) secondBlock ⟨2, 4, Pool.S_FIL⟩ 16777217 where
  openAs := ⟨rfl, rfl, h.found, rfl⟩
  may := rfl
  start := by
    change 16777216 ≤ bytesA.length
    rw [length_bytesA]
    decide
  registered := onBlocks_wide h (registered_homeD (h.blocks 1 (by decide)) h.address)
    (registered_homeD (h.blocks 2 (by decide)) h.address)

theorem able_wide {num : Nat} (hfits : TextFits wideNode (.ofNat num)) {a : UInt32}
    (ha : Replica ⟨num, [0x01020304, 0, 0]⟩ a) :
    ∃ node, (siteA n wideNode).nodes a = some node ∧ Able node (.ofNat num) :=
  ⟨wideNode, if_pos (replica_homeD ha), fun _ => rfl, fun _ => rfl, fun _ => rfl, hfits⟩

theorem allAnswer_wide (h : Widened n) :
    AllAnswer (wideSession n) secondBlock ⟨2, 4, Pool.S_FIL⟩ 16777217 where
  served := fun k => rfl
  able := onBlocks_wide h (fun a ha => able_wide ⟨by decide, by decide⟩ ha)
    fun a ha => able_wide ⟨by decide, by decide⟩ ha

/-- The entry for the second block has no bytes, the one for the third block has its only one. -/
theorem entries_wide : rangeEntries (wideSession n) secondBlock 16777217 three
    = [⟨1, 0, 0, [0x01020304, 0, 0]⟩, ⟨2, 0, 1, [0x01020304, 0, 0]⟩] := by
  unfold rangeEntries
  rw [show (wideSession n).content.length = 33554433 from length_bytesA]
  decide

theorem reads_wide : Listed (ReadsAt three bytesA) (secondBlock.offset.toNat / BLOCKSIZE)
    (granted (wideSession n) secondBlock 16777217 three) := by
  unfold granted
  rw [entries_wide]
  intro j e he
  have hsecond : 1 * 16777216 + 0 + 0 ≤ bytesA.length := by
    rw [length_bytesA]
    decide
  have hthird : 2 * 16777216 + 0 + 1 ≤ bytesA.length := by
    rw [length_bytesA]
  cases j with
  | zero =>
    obtain rfl := Option.some.inj he
    exact ⟨_, rfl, rfl, fun i hi => replica_sieve rfl hi, (by decide : 0 + 0 ≤ BLOCKSIZE), hsecond⟩
  | succ j =>
    cases j with
    | zero =>
      obtain rfl := Option.some.inj he
      exact ⟨_, rfl, rfl, fun i hi => replica_sieve rfl hi, (by decide : 0 + 1 ≤ BLOCKSIZE), hthird⟩
    | succ j => cases he

end Wide

/-- The client moves to the second block and reads it with the third one: a single byte comes
back. -/
theorem split_read_short : ∃ s d file buf fds' buf' t, Reach (Holding clientA) (Step clientA) s ∧
    FileRead clientA s d file 16777217 ∧ AllAnswer s d file 16777217 ∧
    (expected s d 16777217).length = 16777217 ∧ buf.length = 16777217 ∧
    Libc.Transfer.sbpRead (netLink clientA.users clientA.uid) clientA.login s.fds
      clientA.fd buf 16777217
      s.cluster = .ok ((1, buf', fds'), t) := by
  obtain ⟨n, hn⟩ := exists_widened
  have h0 : Holding clientA ⟨siteA n wideNode, callerFds, bytesA⟩ :=
    holding_siteA rfl rfl rfl hn.there hn.found (fun k => rfl) mirrors_wide
  have hseek : Step clientA ⟨siteA n wideNode, callerFds, bytesA⟩ (.seek 16777216)
    (wideSession n) :=
    .seek (r := 0) rfl
  have hhold : Holding clientA (wideSession n) := holding_step h0 ⟨hseek, trivial⟩
  have hne : rangeEntries (wideSession n) secondBlock 16777217 three ≠ [] := by
    rw [entries_wide]
    exact List.cons_ne_nil _ _
  have hbytes : lengths (granted (wideSession n) secondBlock 16777217 three) = 1 := by
    unfold granted
    rw [entries_wide]
    rfl
  have hbuf : (List.replicate 16777217 (0 : UInt8)).length = 16777217 := List.length_replicate
  have hroom : lengths (granted (wideSession n) secondBlock 16777217 three)
      ≤ (List.replicate 16777217 (0 : UInt8)).length := by
    rw [hbytes, hbuf]
    decide
  obtain ⟨fds', t, hread⟩ := read_served (fileRead_wide hn) (allAnswer_wide hn) hhold
    (fileThere_siteA hn.there) mirrors_wide hne reads_wide hroom
  rw [hbytes] at hread
  exact ⟨wideSession n, secondBlock, _, _, fds', _, t, (Reach.init h0).step hseek, fileRead_wide hn,
    allAnswer_wide hn, expected_wide, hbuf, hread⟩

end Sbpfs.Net.FileArray
