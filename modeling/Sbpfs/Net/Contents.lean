import Sbpfs.Cfs.BlockNumbers
import Sbpfs.Cnode.Homes
import Sbpfs.Cnode.Reading
import Sbpfs.Net.ReadSteps

/-!
# The contents of a file

A client writes, reads and seeks through one open file, and data nodes report to the control node
in between. What a read returns is compared with an array of bytes that is updated where a write
says that it has written.
-/
namespace Sbpfs.Net.Contents

open Sbpfs.Lib.Program Sbpfs.Lib.Raise Sbpfs.Lib.Pack Sbpfs.Lib.Tiling
open Sbpfs.Cfs.Layout (BLOCKSIZE)
open Sbpfs.Cfs.Rules Sbpfs.Cfs.Image Sbpfs.Cfs.Data Sbpfs.Cfs.DiskStore Sbpfs.Cfs.DataSpec
open Sbpfs.Cfs.BlockSpec
open Sbpfs.Cfs.LookupSpec (Same)
open Sbpfs.Cfs.TilingLaws
open Sbpfs.Spec.FileTree
open Sbpfs.Wire.Head Sbpfs.Wire.Number Sbpfs.Libc.Request Sbpfs.Libc.RequestSpec Sbpfs.Libc.Table
open Sbpfs.Libc.Recv (overwrite)
open Sbpfs.Libc.Transfer Sbpfs.Libc.TransferSpec Sbpfs.Libc.TransferLaws
open Sbpfs.Cnode Sbpfs.Cnode.Pool Sbpfs.Cnode.Libcfs Sbpfs.Cnode.DTree Sbpfs.Cnode.Dispatch
open Sbpfs.Cnode.Frame Sbpfs.Cnode.DiskSteps Sbpfs.Cnode.Replicas Sbpfs.Cnode.ReplyLaws
open Sbpfs.Cnode.Descriptors (getFile_onlyC)
open Sbpfs.Cnode.RequestFields Sbpfs.Cnode.Homes Sbpfs.Cnode.Reading
open Sbpfs.Dnode.Blockman Sbpfs.Dnode.BlockSpec
open Sbpfs.Net.Parties Sbpfs.Net.TransferSteps Sbpfs.Net.Copies Sbpfs.Net.Granting
open Sbpfs.Net.FailedWrites Sbpfs.Net.Mirror Sbpfs.Net.ReadSteps
open Sbpfs.Cnode.Users (UsersInfo)

/-! ## Calls through one open file -/

/-- A user's process, and the number of the descriptor that it has open. -/
structure Client where
  users : UsersInfo
  uid : Int
  login : Login
  fd : Int

/-- The parties, the client's descriptors, and the bytes last written to the file. -/
structure Session where
  cluster : Cluster
  fds : Fds
  content : Str

inductive Call where
  | seek (offset : Int)
  | write (buf : Str) (len : UInt64)
  | read (buf : Str) (len : UInt64)
  | notice (e : Event)

/-- The position in the file. -/
def Session.pos (c : Client) (s : Session) : Nat :=
  ((s.fds c.fd.toNat).map fun d => d.offset.toNat).getD 0

/-- The control node grants nothing for a write of `len` bytes. -/
def Refused (c : Client) (s : Session) (len : UInt64) : Prop :=
  ∃ d t, s.fds c.fd.toNat = some d ∧
    askBlocks (netLink c.users c.uid) c.login d len "WRITE" s.cluster = .ok (none, t)

/-- The bytes last written, after a write at `pos` has returned `r`. -/
def written (content : Str) (pos : Nat) (buf : Str) (r : Int) : Str :=
  if r < 0 then content else overwrite content pos (buf.take r.toNat)

/-- A call that comes back. All data nodes that a write asks answer with OK: a write of some bytes
fails only where the control node refuses it. -/
inductive Step (c : Client) (s : Session) : Call → Session → Prop
  | seek {offset r : Int} {fds' : Fds} {t : Cluster}
      (run : sbpSeek s.fds c.fd offset s.cluster = .ok ((r, fds'), t)) :
      Step c s (.seek offset) ⟨t, fds', s.content⟩
  | write {buf : Str} {len : UInt64} {r : Int} {fds' : Fds} {t : Cluster}
      (run : Libc.Transfer.sbpWrite (netLink c.users c.uid) c.login s.fds c.fd buf len s.cluster
        = .ok ((r, fds'), t))
      (answered : r < 0 → len.toNat = 0 ∨ Refused c s len) :
      Step c s (.write buf len) ⟨t, fds', written s.content (s.pos c) buf r⟩
  | read {buf buf' : Str} {len : UInt64} {r : Int} {fds' : Fds} {t : Cluster}
      (run : Libc.Transfer.sbpRead (netLink c.users c.uid) c.login s.fds c.fd buf len s.cluster
        = .ok ((r, buf', fds'), t)) :
      Step c s (.read buf len) ⟨t, fds', s.content⟩
  | notice {e : Event} {n' : CtrlNode} (run : e.run s.cluster.ctrl = .ok (.ok (), n')) :
      Step c s (.notice e) ⟨{ s.cluster with ctrl := n' }, s.fds, s.content⟩

/-! ## The file -/

/-- The file at `fb` of the control node's disk, with its length and its blocks. -/
structure FileThere (n : CtrlNode) (fb len : Nat) (recs : List Rec) : Prop where
  disk : ∃ fs chain owner flags, Store n.world.dt fs chain ∧ fs fb
    = some ⟨owner, flags, .file len recs⟩
  once : (recs.map Rec.num).Nodup
  below : ∀ r ∈ recs, r.num < n.world.dt.sb.maxBlockNum

/-- The descriptor of the client, and the file it stands for at the control node. -/
structure OpenAs (c : Client) (s : Session) (d : FileDesc) (file : FileDes) : Prop where
  slot : s.fds c.fd.toNat = some d
  type : d.type = T_FILE
  found : CtrlNode.getFile s.cluster.ctrl c.uid (s64 d.serverFd.toNat) = some file
  fileType : file.type = Pool.S_FIL

/-- The file is open at both ends, and its bytes stand in its blocks. Memory is ample at the control
node, and the data nodes open the files that are there. -/
structure Holding (c : Client) (s : Session) : Prop where
  fits : Fits c.login
  number : 0 ≤ c.fd ∧ c.fd < MAX_FILE_OPEN
  memory : Ample s.cluster.ctrl.world.env
  willing : AllWilling s.cluster.nodes
  file : ∃ d file recs, OpenAs c s d file ∧
    FileThere s.cluster.ctrl (argI file.fb).toNat s.content.length recs ∧
    Mirrors recs s.content s.cluster.nodes

section Files

variable {n n' : CtrlNode} {fb len : Nat} {recs news : List Rec}

theorem FileThere.count (h : FileThere n fb len recs) : recs.length = blocksFor len := by
  obtain ⟨fs, chain, owner, flags, hst, ho⟩ := h.disk
  exact (show FileImage _ _ len recs from (hst.obj _ _ ho).holds.node).count

theorem FileThere.room (h : FileThere n fb len recs) : len ≤ recs.length * BLOCKSIZE := by
  have hcount := h.count
  simp only [blocksFor_eq, BLOCKSIZE] at hcount ⊢
  omega

theorem FileThere.apart (h : FileThere n fb len recs) : Apart recs := by
  obtain ⟨fs, chain, owner, flags, hst, ho⟩ := h.disk
  intro i j r r' hr hr' heq
  have hnum := congrArg UInt64.toNat heq
  rw [UInt64.toNat_ofNat_of_lt' (rec_fits hst ho (List.mem_of_getElem? hr)).1,
    UInt64.toNat_ofNat_of_lt' (rec_fits hst ho (List.mem_of_getElem? hr')).1] at hnum
  obtain ⟨hi, rfl⟩ := List.getElem?_eq_some_iff.mp hr
  obtain ⟨hj, rfl⟩ := List.getElem?_eq_some_iff.mp hr'
  have hi' : i < (recs.map Rec.num).length := by rw [List.length_map]; exact hi
  have hj' : j < (recs.map Rec.num).length := by rw [List.length_map]; exact hj
  have hsame : (recs.map Rec.num)[i] = (recs.map Rec.num)[j] := by
    rw [List.getElem_map, List.getElem_map]
    exact hnum
  exact h.once.getElem_inj_iff.mp hsame

theorem FileThere.quiet (h : FileThere n fb len recs) (hq : Quiet n n') :
    FileThere n' fb len recs := by
  have hdt : n'.world.dt = n.world.dt := hq.dt
  exact ⟨hdt ▸ h.disk, h.once, hdt ▸ h.below⟩

theorem FileThere.opened {uid k : Int} {file : FileDes}
    (h : FileThere n (argI file.fb).toNat len recs)
    (hget : CtrlNode.getFile n uid k = some file) :
    Opened n uid k (argI file.fb).toNat len recs := by
  refine ⟨fun file' hfile => ?_, h.disk⟩
  rw [Option.some.inj (hfile.symm.trans hget)]

/-- A granted write makes the file ready. -/
theorem FileThere.wrote {fs : Fs} {chain : Nat → List Nat} {owner offset length : Nat}
    {flags : UInt8}
    {ips : List Nat} {w w₁ : Cfs.Layout.World} {r : Int × List SendBlock} {cs : List Nat}
    (h : FileThere n fb len recs) (hsame : Same n.world w)
    (hw : Wrote fs chain fb owner flags len recs offset length ips w r n'.world news w₁ cs)
    (hfits : n.world.dt.sb.maxBlockNum + growth recs.length (offset + length) < 2 ^ 64) :
    FileThere n' fb (max len (offset + length)) (recs ++ news) := by
  have hdt : w.dt.sb.maxBlockNum = n.world.dt.sb.maxBlockNum :=
    congrArg (fun dt => dt.sb.maxBlockNum) hsame.dt
  rw [← hdt] at hfits
  have hmax : n'.world.dt.sb.maxBlockNum = n.world.dt.sb.maxBlockNum + news.length := by
    rw [hw.rewritten.maxBlockNum, hw.alloc.maxBlockNum hfits, hw.alloc.length, hdt]
  have hnums := Cfs.BlockNumbers.news_nums (hw.alloc.nums hfits)
  rw [hdt] at hnums
  refine ⟨⟨_, _, owner, flags, hw.rewritten.store, Function.update_self _ _ _⟩, ?_, fun r hr => ?_⟩
  · rw [List.map_append, hnums, List.nodup_append']
    refine ⟨h.once, List.nodup_range', fun k hk hk' => ?_⟩
    obtain ⟨r, hr, rfl⟩ := List.mem_map.mp hk
    have hlow := h.below r hr
    rw [List.mem_range'_1] at hk'
    omega
  · rw [hmax]
    rcases List.mem_append.mp hr with hr | hr
    · have hlow := h.below r hr
      omega
    · have hmem := List.mem_map_of_mem (f := Rec.num) hr
      rw [hnums, List.mem_range'_1] at hmem
      exact hmem.2

end Files

/-! ## The entries of a reply -/

section Entries

variable {recs news : List Rec} {data : List SendBlock} {b start stop : Nat}

theorem cuts_toEntry (hin : ∀ p ∈ pieces data, p.1 + p.2 ≤ BLOCKSIZE) :
    (data.map toEntry).map cutOf = pieces data := by
  unfold pieces at hin ⊢
  rw [List.map_map]
  refine List.map_congr_left fun e he => ?_
  have hle := hin _ (List.mem_map_of_mem he)
  dsimp only [BLOCKSIZE] at hle
  refine Prod.ext ?_ ?_
  · exact UInt32.toNat_ofNat_of_lt' (show e.offset < UInt32.size by simp only [UInt32.size]; omega)
  · exact UInt32.toNat_ofNat_of_lt' (show e.length < UInt32.size by simp only [UInt32.size]; omega)

theorem lengths_cuts (es : List BlockEntry) : lengths es = ((es.map cutOf).map Prod.snd).sum := by
  unfold lengths cutOf
  rw [List.map_map]
  rfl

/-- Entries that cut a range are as long as the range, and keep to it. -/
theorem lengths_tiles {es : List BlockEntry} (ht : Tiles BLOCKSIZE b start stop (es.map cutOf)) :
    start + lengths es = stop := by
  rw [lengths_cuts]
  exact ht.sum

theorem listed_tiles {es : List BlockEntry} (ht : Tiles BLOCKSIZE b start stop (es.map cutOf)) :
    Listed (fun i e => e.offsetInBlock.toNat + e.lengthInBlock.toNat ≤ BLOCKSIZE ∧
      i * BLOCKSIZE + e.offsetInBlock.toNat + e.lengthInBlock.toNat ≤ stop) b es := by
  induction es generalizing b start with
  | nil => exact fun j e he => nomatch he
  | cons e es ih =>
    obtain ⟨hstart, hin, htail⟩ := ht
    change b * BLOCKSIZE + e.offsetInBlock.toNat = start at hstart
    change Tiles BLOCKSIZE (b + 1) (start + e.lengthInBlock.toNat) stop (es.map cutOf) at htail
    have hle : start + e.lengthInBlock.toNat ≤ stop := htail.sum ▸ Nat.le_add_right _ _
    intro j e' he'
    cases j with
    | zero =>
      obtain rfl := Option.some.inj he'
      refine ⟨hin, ?_⟩
      rw [Nat.add_zero, hstart]
      exact hle
    | succ j =>
      have hrest := ih htail j e' he'
      rw [Nat.add_right_comm] at hrest
      exact hrest

/-- The entries of a write reach all nodes of the blocks. -/
theorem listed_reaches {offset length : Nat} (hfirst : offset / BLOCKSIZE ≤ recs.length)
    (hshape : ∀ e ∈ writeEntries recs news offset length, e.ip.length = 3) :
    Listed (Reaches (recs ++ news)) (offset / BLOCKSIZE)
      ((writeEntries recs news offset length).map toEntry) := by
  intro j e he
  rw [List.getElem?_map, Option.map_eq_some_iff] at he
  obtain ⟨b, hb, rfl⟩ := he
  obtain ⟨r, hr, hnum, hip⟩ := writeEntries_blocks hfirst j b hb
  have hthree : r.ip.length = 3 := hip ▸ hshape b (List.mem_of_getElem? hb)
  exact ⟨r, hr, congrArg UInt64.ofNat hnum, fun a ha => copies_pos hip hthree ha⟩

end Entries

/-! ## Writing -/

/-- How long an array of bytes gets when `bytes` are written to it at `pos`. -/
theorem length_written {content bytes : Str} {pos : Nat} (h : pos ≤ content.length) :
    (overwrite content pos bytes).length = max content.length (pos + bytes.length) := by
  unfold overwrite
  rw [List.length_append, List.length_append, List.length_take, List.length_drop]
  omega

section Writes

variable {c : Client} {s : Session} {t : Cluster} {file : FileDes} {recs : List Rec}
    {d d' : FileDesc}
  {buf : Str} {len : UInt64} {r : Int}

/-- What holds of the file once a call has left it with the bytes `content`. -/
structure After (c : Client) (s : Session) (file : FileDes) (content : Str)
    (t : Cluster) : Prop where
  willing : AllWilling t.nodes
  later : Later s.cluster.ctrl.world.env t.ctrl.world.env
  onlyC : OnlyC s.cluster.ctrl t.ctrl
  file : ∃ recs, FileThere t.ctrl (argI file.fb).toNat content.length recs ∧
    Mirrors recs content t.nodes

/-- The write leaves the counter of blocks in its field. -/
def CounterFits (n : CtrlNode) (len stop : Nat) : Prop :=
  n.world.dt.sb.maxBlockNum + growth (blocksFor len) stop < 2 ^ 64

/-- A write that keeps to the condition starts in the file, has its bytes, and cuts its range along
the blocks; the counter of the blocks does not wrap. -/
def SoundWrite (s : Session) (d : FileDesc) (buf : Str) (len : UInt64) : Prop :=
  d.offset.toNat ≤ s.content.length ∧ len.toNat ≤ buf.length ∧
    d.offset.toNat + len.toNat ≤ MAX_END ∧
    WriteAligned s.content.length d.offset.toNat (d.offset.toNat + len.toNat) ∧
    CounterFits s.cluster.ctrl s.content.length (d.offset.toNat + len.toNat)

/-- The entries of such a write cut its range. -/
theorem SoundWrite.tiles {news : List Rec} (hs : SoundWrite s d buf len)
    (hcount : recs.length = blocksFor s.content.length)
    (hnews : news.length = growth recs.length (d.offset.toNat + len.toNat)) :
    Tiles BLOCKSIZE (d.offset.toNat / BLOCKSIZE) d.offset.toNat (d.offset.toNat + len.toNat)
      (((writeEntries recs news d.offset.toNat len.toNat).map toEntry).map cutOf) := by
  obtain ⟨hstart, -, hstop, haligned, -⟩ := hs
  have htiles : Tiles BLOCKSIZE (d.offset.toNat / BLOCKSIZE) d.offset.toNat
      (d.offset.toNat + len.toNat)
      (pieces (writeEntries recs news d.offset.toNat len.toNat)) := by
    by_cases hzero : len.toNat = 0
    · have hle : blocksFor (d.offset.toNat + len.toNat) ≤ blocksFor s.content.length :=
        blocksFor_mono (by omega)
      unfold WriteAligned at haligned
      rw [if_pos hle] at haligned
      unfold writeEntries
      rw [if_pos (hcount ▸ hle)]
      exact (entries_tile_iff hstop).mpr haligned
    · exact (writeEntries_tile_iff hstop (by omega) hstart hcount hnews).mpr haligned
  rw [← cuts_toEntry htiles.within] at htiles
  exact htiles

/-- A write of no bytes that ends early leaves the nodes with segments of no bytes. -/
theorem halted_empty {es pre post : List BlockEntry} {ent : BlockEntry} {s₁ : Cluster}
    {authCode : Str}
    (hlen : lengths es = 0) (hes : es = pre ++ ent :: post)
    (h : Halted (writeBlock (netLink c.users c.uid) c.login authCode buf) pre ent 0 s₁ t)
    (a : UInt32) :
    ∃ l, Takes a l s₁ t ∧ ∀ q ∈ l, q.1.lengthInBlock.toNat = 0 := by
  have hall : ∀ e ∈ pre ++ ent :: post, e.lengthInBlock.toNat = 0 := by
    rw [hes] at hlen
    exact fun e he => List.sum_eq_zero_iff_forall_eq_nat.mp hlen _ (List.mem_map_of_mem he)
  obtain ⟨n, -, hn⟩ := (halted_takes h).2 a
  refine ⟨_, hn, fun q hq => hall _ ?_⟩
  rcases List.mem_append.mp hq with hq | hq
  · exact List.mem_append_left _ (mem_segmentsAt hq)
  · rw [(List.mem_replicate.mp hq).2]
    exact List.mem_append_right _ (List.mem_cons_self ..)

/-- What a write that was granted leaves at the data nodes. -/
theorem blocks_written {news : List Rec} {s₁ : Cluster} (hs : SoundWrite s d buf len)
    (hw : AllWilling s.cluster.nodes) (hm : Mirrors recs s.content s.cluster.nodes)
    (hcount : recs.length = blocksFor s.content.length)
    (hnews : news.length = growth recs.length (d.offset.toNat + len.toNat))
    (hap : Apart (recs ++ news))
    (hsend : Sendable (writeEntries recs news d.offset.toNat len.toNat))
    (hnodes : s₁.nodes = s.cluster.nodes)
    (hblocks : writeBlocks (writeBlock (netLink c.users c.uid) c.login d.authCode buf)
      ((writeEntries recs news d.offset.toNat len.toNat).map toEntry) 0 s₁ = .ok (r, t))
    (hr : r < 0 → len.toNat = 0) :
    t.ctrl = s₁.ctrl ∧ AllWilling t.nodes ∧ (r < 0 ∨ r = len.toNat) ∧
      Mirrors (recs ++ news) (overwrite s.content d.offset.toNat (buf.take len.toNat)) t.nodes := by
  have htiles := hs.tiles hcount hnews
  have hlen := lengths_tiles htiles
  obtain ⟨hstart, hbytes, -, -, -⟩ := hs
  have hfirst : d.offset.toNat / BLOCKSIZE ≤ recs.length := hcount ▸ firstBlock_le hstart
  have hroom : s.content.length ≤ recs.length * BLOCKSIZE := by
    simp only [blocksFor_eq, BLOCKSIZE] at hcount ⊢
    omega
  rw [← hnodes] at hw hm
  rcases writeBlocks_done hblocks with ⟨hret, hwritten⟩ | ⟨hneg, pre, ent, post, hes, hhalted⟩
  · obtain ⟨hctrl, htakes⟩ := written_takes hwritten
    refine ⟨hctrl, takes_willing hw fun a => ⟨_, htakes a⟩, .inr (by omega), ?_⟩
    exact mirrors_written hm hw hap (listed_reaches hfirst hsend.shape) htiles hstart
      hbytes hroom htakes
  · -- only a write of no bytes ends early
    have hzero : len.toNat = 0 := hr (by omega)
    have htake := halted_empty (by omega) hes hhalted
    have hnone : news = [] := by
      have hmono := blocksFor_mono (show d.offset.toNat + len.toNat ≤ s.content.length by omega)
      unfold growth at hnews
      exact List.length_eq_zero_iff.mp (by omega)
    refine ⟨(halted_takes hhalted).1, takes_willing hw fun a => ?_, .inl (by omega), ?_⟩
    · obtain ⟨l, hl, -⟩ := htake a
      exact ⟨l, hl⟩
    · rw [hnone, List.append_nil, hzero, List.take_zero, overwrite_nil]
      exact mirrors_empty hm hw htake

theorem writeFile_after (hopen : OpenAs c s d file)
    (hfile : FileThere s.cluster.ctrl (argI file.fb).toNat s.content.length recs)
    (hm : Mirrors recs s.content s.cluster.nodes) (hw : AllWilling s.cluster.nodes)
    (hs : SoundWrite s d buf len) (hanswered : r < 0 → len.toNat = 0 ∨ Refused c s len)
    (h : writeFile (netLink c.users c.uid) c.login d buf len s.cluster = .ok ((r, d'), t)) :
    d' = advance d r ∧ After c s file (written s.content d.offset.toNat buf r) t := by
  obtain ⟨hd', ents, s₁, hask, hcase⟩ := writeFile_done h
  refine ⟨hd', ?_⟩
  obtain ⟨q, n', hcall, rfl, hents⟩ := askBlocks_done (serve_write _ _ _) hask
  have honly : OnlyC s.cluster.ctrl n' := (stays_write _ _ _ _).rel hcall
  have hsame : written s.content d.offset.toNat buf (-1) = s.content := if_pos (by decide)
  obtain ⟨hstart, hbytes, hstop, -, hcounter⟩ := id hs
  rcases write_granted (hfile.opened hopen.found) (fun _ => hstop) hcall with ⟨hquiet, e, rfl⟩ |
    ⟨-, fs, chain, owner, flags, ips, w, reply, news, w₁, cs, hsamew, hwrote, hq⟩
  · -- the control node has refused
    rcases hents with ⟨-, rfl⟩ | ⟨data, hdata, -⟩
    · rcases hcase with ⟨-, rfl, rfl⟩ | ⟨es, hes, -⟩
      · rw [hsame]
        exact ⟨hw, hquiet.later, honly, recs, hfile.quiet hquiet, hm⟩
      · cases hes
    · cases hdata
  have hfits : s.cluster.ctrl.world.dt.sb.maxBlockNum
      + growth recs.length (d.offset.toNat + len.toNat) < 2 ^ 64 := hfile.count ▸ hcounter
  have hfile' : FileThere n' (argI file.fb).toNat
      (max s.content.length (d.offset.toNat + len.toNat)) (recs ++ news) :=
    hfile.wrote hsamew hwrote hfits
  have hlater : Later s.cluster.ctrl.world.env n'.world.env :=
    hsamew.later.trans (hwrote.alloc.counted.later.trans hwrote.rewritten.later)
  rcases hq with ⟨rfl, hsend⟩ | ⟨⟨e, rfl⟩, rfl, hzero⟩
  · rcases hents with ⟨⟨e, he⟩, -⟩ | ⟨data, hdata, hents⟩
    · cases he
    cases hdata
    obtain rfl := hents hsend
    rcases hcase with ⟨hnone, -⟩ | ⟨es, hes, hblocks⟩
    · cases hnone
    cases hes
    have hr : r < 0 → len.toNat = 0 := by
      intro hneg
      rcases hanswered hneg with hzero | ⟨d₁, t₁, hslot, hrefused⟩
      · exact hzero
      · obtain rfl := Option.some.inj (hopen.slot.symm.trans hslot)
        cases hrefused.symm.trans hask
    have hnodes : ({ s.cluster with ctrl := n' } : Cluster).nodes = s.cluster.nodes := rfl
    obtain ⟨hctrl, hwilling, hret, hmirrors⟩ := blocks_written hs hw hm hfile.count
      hwrote.alloc.length
      hfile'.apart hsend hnodes hblocks hr
    have hcontent : written s.content d.offset.toNat buf r
        = overwrite s.content d.offset.toNat (buf.take len.toNat) := by
      unfold written
      split
      · rename_i hneg
        rw [hr hneg, List.take_zero, overwrite_nil]
      · rw [hret.resolve_left ‹_›, Int.toNat_natCast]
    have hlen : (overwrite s.content d.offset.toNat (buf.take len.toNat)).length
        = max s.content.length (d.offset.toNat + len.toNat) := by
      rw [length_written hstart, List.length_take_of_le hbytes]
    refine ⟨hwilling, ?_, ?_, recs ++ news, ?_, ?_⟩
    · rw [hctrl]
      exact hlater
    · rw [hctrl]
      exact honly
    · rw [hctrl, hcontent, hlen]
      exact hfile'
    · rw [hcontent]
      exact hmirrors
  · -- nothing was to be written
    rcases hents with ⟨-, rfl⟩ | ⟨data, hdata, -⟩
    · rcases hcase with ⟨-, rfl, rfl⟩ | ⟨es, hes, -⟩
      · rw [hzero, Nat.add_zero, Nat.max_eq_left hstart, List.append_nil] at hfile'
        rw [hsame]
        exact ⟨hw, hlater, honly, recs, hfile', hm⟩
      · cases hes
    · cases hdata

end Writes

/-! ## Reading -/

section Reads

variable {c : Client} {s : Session} {t : Cluster} {file : FileDes} {recs : List Rec}
    {d d' : FileDesc}
  {buf buf' : Str} {len : UInt64} {r : Int}

theorem serve_read {users : UsersInfo} {uid : Int} (fd offset length : Str) :
    serveMethod users uid (ascii "READ") [fd, offset, length]
      = exceptArguments (answer (Cnode.DTree.read fd offset length uid) repBlocks) := by
  have hfind : doMethod (ascii "READ") = some .read := by decide
  unfold serveMethod
  rw [hfind]
  rfl

/-- A read leaves the file as it is, whatever comes of it. -/
theorem readFile_after (hfile : FileThere s.cluster.ctrl (argI file.fb).toNat s.content.length recs)
    (hm : Mirrors recs s.content s.cluster.nodes) (hw : AllWilling s.cluster.nodes)
    (h : readFile (netLink c.users c.uid) c.login d buf len s.cluster = .ok ((r, buf', d'), t)) :
    d' = advance d r ∧ After c s file s.content t := by
  obtain ⟨hd', ents, s₁, hask, hcase⟩ := readFile_done h
  refine ⟨hd', ?_⟩
  obtain ⟨q, n', hcall, rfl, -⟩ := askBlocks_done (serve_read _ _ _) hask
  have hread : Unwritten { s.cluster with ctrl := n' } t := by
    rcases hcase with ⟨-, -, -, rfl⟩ | ⟨es, -, hblocks⟩
    · exact Unwritten.refl _
    · exact readBlocks_unwritten hblocks
  have hquiet : Quiet s.cluster.ctrl n' := (quiet_read _ _ _ _).rel hcall
  have honly : OnlyC s.cluster.ctrl n' := (stays_read _ _ _ _).rel hcall
  refine ⟨hread.willing hw, ?_, ?_, recs, ?_, hread.mirrors hm⟩
  · rw [hread.ctrl]
    exact hquiet.later
  · rw [hread.ctrl]
    exact honly
  · rw [hread.ctrl]
    exact hfile.quiet hquiet

end Reads

/-! ## Runs -/

/-- What is asked of a call that comes back: a write keeps to the condition. -/
def SoundCall (c : Client) (s : Session) : Call → Prop
  | .write buf len => ∀ d, s.fds c.fd.toNat = some d → SoundWrite s d buf len
  | _ => True

def SoundStep (c : Client) (s : Session) (a : Call) (s' : Session) : Prop :=
  Step c s a s' ∧ SoundCall c s a

section Steps

variable {c : Client} {s s' : Session} {a : Call} {t : Cluster} {fds' : Fds} {content : Str}
  {d d' : FileDesc} {file : FileDes}

/-- The descriptor stands for the same file as before. -/
theorem Holding.after (h : Holding c s) (hopen : OpenAs c s d file) (ha : After c s file content t)
    (hslot : fds' c.fd.toNat = some d') (htype : d'.type = d.type)
    (hserver : d'.serverFd = d.serverFd) :
    Holding c ⟨t, fds', content⟩ := by
  obtain ⟨recs, hfile, hm⟩ := ha.file
  refine ⟨h.fits, h.number, h.memory.later ha.later, ha.willing, d', file, recs,
    ⟨hslot, htype.trans hopen.type, ?_, hopen.fileType⟩, hfile, hm⟩
  rw [hserver]
  exact (getFile_onlyC ha.onlyC _ _).trans hopen.found

/-- Reports and drops leave the disk and the open files alone. -/
theorem event_after {e : Event} {n n' : CtrlNode} (h : e.run n = .ok (.ok (), n')) :
    n'.world = n.world ∧ n'.fds = n.fds := by
  cases e with
  | report order l user ip =>
    cases h
    exact ⟨rfl, rfl⟩
  | drop user =>
    cases h
    exact ⟨rfl, rfl⟩

theorem holding_step (h : Holding c s) (hs : SoundStep c s a s') : Holding c s' := by
  obtain ⟨hstep, hsound⟩ := hs
  obtain ⟨d, file, recs, hopen, hfile, hm⟩ := h.file
  cases hstep with
  | seek run =>
    obtain ⟨rfl, sum, hslot⟩ := sbpSeek_done h.number hopen.slot run
    exact h.after hopen ⟨h.willing, Later.refl _, Std.Refl.refl _, recs, hfile, hm⟩ hslot rfl rfl
  | write run answered =>
    obtain ⟨d', hwrite, rfl⟩ := sbpWrite_done h.number hopen.slot hopen.type run
    have hpos : s.pos c = d.offset.toNat := by
      unfold Session.pos
      rw [hopen.slot]
      rfl
    obtain ⟨rfl, hafter⟩ :=
      writeFile_after hopen hfile hm h.willing (hsound d hopen.slot) answered hwrite
    rw [hpos]
    exact h.after hopen hafter (if_pos rfl) (advance_same _ _).1 (advance_same _ _).2
  | read run =>
    obtain ⟨d', hread, rfl⟩ := sbpRead_done h.number hopen.slot hopen.type run
    obtain ⟨rfl, hafter⟩ := readFile_after hfile hm h.willing hread
    exact h.after hopen hafter (if_pos rfl) (advance_same _ _).1 (advance_same _ _).2
  | notice run =>
    obtain ⟨hworld, hfds⟩ := event_after run
    refine ⟨h.fits, h.number, ?_, h.willing, d, file, recs,
      ⟨hopen.slot, hopen.type, ?_, hopen.fileType⟩,
      ?_, hm⟩
    · exact (congrArg Cfs.Layout.World.env hworld).symm ▸ h.memory
    · have hget := hopen.found
      unfold CtrlNode.getFile at hget ⊢
      rw [hfds]
      exact hget
    · exact hfile.quiet (show Same s.cluster.ctrl.world _ from hworld ▸ Same.refl _)

end Steps

end Sbpfs.Net.Contents
