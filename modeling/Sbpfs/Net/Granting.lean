import Sbpfs.Cfs.FileHeaders
import Sbpfs.Cfs.TilingLaws
import Sbpfs.Cnode.RequestFields
import Sbpfs.Libc.RequestSpec
import Sbpfs.Libc.TransferSpec
import Sbpfs.Net.Parties

/-!
# What the control node grants

The reply to the request for a write as the client decodes it, and what has become of the file by
then. The file has its new length and its new blocks before a byte is sent to a data node.
-/
namespace Sbpfs.Net.Granting

open Sbpfs.Lib.Program Sbpfs.Lib.Raise Sbpfs.Lib.Pack
open Sbpfs.Cfs.Layout (u64OfInt BLOCKSIZE metaFlen)
open Sbpfs.Cfs.FileSpec (imageOf)
open Sbpfs.Cfs.FileHeaders (file_header)
open Sbpfs.Cfs.Image (blocksFor FileImage)
open Sbpfs.Cfs.Rules Sbpfs.Cfs.Data Sbpfs.Cfs.DiskStore Sbpfs.Cfs.DataSpec Sbpfs.Cfs.BlockSpec
open Sbpfs.Cfs.LookupSpec (Same)
open Sbpfs.Cfs.TilingLaws
open Sbpfs.Spec.FileTree
open Sbpfs.Wire.Head Sbpfs.Wire.Number Sbpfs.Libc.Request Sbpfs.Libc.Table Sbpfs.Libc.Transfer
open Sbpfs.Libc.RequestSpec Sbpfs.Libc.TransferSpec
open Sbpfs.Cnode.Pool Sbpfs.Cnode.Libcfs Sbpfs.Cnode.DTree Sbpfs.Cnode.Ops Sbpfs.Cnode.Dispatch
open Sbpfs.Cnode.ReplyLaws Sbpfs.Cnode.DiskSteps Sbpfs.Cnode.Replicas Sbpfs.Cnode.RequestFields
open Sbpfs.Net.Parties
open Sbpfs.Cnode.Users (UsersInfo)

/-! ## The blocks in a reply -/

/-- The `block_entry` that the client makes of a `sendblock_t`. -/
def toEntry (b : SendBlock) : BlockEntry :=
  ⟨.ofNat b.blockNum, .ofNat b.offset, .ofNat b.length, fun j => .ofNat ((b.ip[j.val]?).getD 0)⟩

/-- The blocks of a reply can be sent: each has three addresses, and they are not too many. -/
structure Sendable (data : List SendBlock) : Prop where
  shape : ∀ b ∈ data, b.ip.length = 3
  count : data.length < 2 ^ 57

theorem field64 (v : Nat) : UInt64.ofNat (ofLE (toLE 8 v)) = .ofNat v := by
  rw [ofLE_toLE]
  exact UInt64.ofNat_mod_size

theorem field32 (v : Nat) : UInt32.ofNat (ofLE (toLE 4 v)) = .ofNat v := by
  rw [ofLE_toLE]
  exact UInt32.ofNat_mod_size

section Decoding

variable {data : List SendBlock}

theorem width_blockBytes (h : ∀ b ∈ data, b.ip.length = 3) :
    ∀ p ∈ data.map fun b => pack b (List.replicate 4 0), p.length = 32 := by
  intro p hp
  obtain ⟨b, hb, rfl⟩ := List.mem_map.mp hp
  obtain ⟨a₀, a₁, a₂, hip⟩ := List.length_eq_three.mp (h b hb)
  unfold pack
  rw [hip]
  rfl

theorem length_blockBytes (h : ∀ b ∈ data, b.ip.length = 3) :
    (blockBytes data).length = 32 * data.length := by
  unfold blockBytes
  rw [length_flatten (width_blockBytes h), List.length_map]

theorem blockEntryAt_blockBytes (h : ∀ b ∈ data, b.ip.length = 3) {i : Nat} {b : SendBlock}
    (hb : data[i]? = some b) : blockEntryAt (blockBytes data) i = toEntry b := by
  have hslice : slice (blockBytes data) (entrySize * i) entrySize
    = pack b (List.replicate 4 0) := by
    refine slice_flatten (width_blockBytes h) ?_
    rw [List.getElem?_map, hb]
    rfl
  obtain ⟨a₀, a₁, a₂, hip⟩ := List.length_eq_three.mp (h b (List.mem_of_getElem? hb))
  obtain ⟨num, offset, length, ip⟩ := b
  change ip = _ at hip
  subst hip
  unfold blockEntryAt
  rw [hslice]
  show BlockEntry.mk (.ofNat (ofLE (toLE 8 num))) (.ofNat (ofLE (toLE 4 offset)))
    (.ofNat (ofLE (toLE 4 length))) _ = _
  rw [field64, field32, field32]
  refine congrArg _ (funext fun j => ?_)
  match j with
  | 0 => exact field32 a₀
  | 1 => exact field32 a₁
  | 2 => exact field32 a₂

/-- The client gets the blocks that were sent. -/
theorem blockEntries_okWith (h : Sendable data) :
    blockEntries (answerOf (okWith [] (.blocks data))) = .ok (some (data.map toEntry)) := by
  have hcount := h.count
  have hvalue : valueOf (answerOf (okWith [] (.blocks data))).entrys CONTENT_LEN
      = some (decimal 0 ((32 * data.length : Nat) : Int)) := rfl
  have hlen : u64OfInt (atoll (decimal 0 ((32 * data.length : Nat) : Int))) = 32 * data.length := by
    rw [atoll_decimal (by omega)]
    exact u64OfInt_nat (by omega)
  have hbytes : (answerOf (okWith [] (.blocks data))).data = blockBytes data := rfl
  have hok : (answerOf (okWith [] (.blocks data))).saysOk = true := by
    show REQUEST_OK.isPrefixOf (ascii "SBPFS/1.0 OK") = true
    decide
  have hdiv : 32 * data.length / entrySize = data.length := Nat.mul_div_cancel_left _ (by decide)
  unfold blockEntries
  rw [if_pos hok, hvalue]
  dsimp only
  rw [hlen, if_neg (not_not.mpr (Nat.mul_mod_right ..)), hbytes,
    if_pos (Nat.le_of_eq (length_blockBytes h.shape).symm), hdiv]
  congr 2
  apply List.ext_getElem?
  intro i
  rw [List.getElem?_map, List.getElem?_map]
  by_cases hi : i < data.length
  · rw [List.getElem?_range hi, List.getElem?_eq_getElem hi]
    exact congrArg some (blockEntryAt_blockBytes h.shape (List.getElem?_eq_getElem hi))
  · rw [List.getElem?_eq_none (Nat.le_of_not_lt hi),
      List.getElem?_eq_none (by rw [List.length_range]; omega)]
    rfl

end Decoding

/-! ## The replies to a request -/

section Replies

variable {α : Type} {c c' : Conn}

/-- What is raised is reported, or nothing is sent. -/
theorem raised_done {e : Exc} {r : Except Exc Unit}
    (h : exceptArguments (exceptDTree (raise e)) c = .ok (r, c')) : c'.node = c.node ∧
      (c'.sent = c.sent ∨ ∃ reply, c'.sent = c.sent ++ [reply] ∧
        reply.statusline = ascii "SBPFS/1.0 ERROR") := by
  by_cases hcaught : Caught e
  · cases e with
    | dtree type msg =>
      cases h
      exact ⟨rfl, .inr ⟨_, rfl, rfl⟩⟩
    | typeError msg =>
      cases h
      exact ⟨rfl, .inr ⟨_, rfl, rfl⟩⟩
    | valueError =>
      cases h
      exact ⟨rfl, .inr ⟨_, rfl, rfl⟩⟩
    | keyError => exact hcaught.elim
    | overflowError => exact hcaught.elim
    | memoryError => exact hcaught.elim
    | unboundLocalError => exact hcaught.elim
  · rw [escaped hcaught] at h
    cases h
    exact ⟨rfl, .inl rfl⟩

/-- What `read` and `write` send. -/
def repBlocks (data : List SendBlock) : Serve Unit := sendrep [] (.blocks data)

/-- A call that returns blocks is answered with them. -/
theorem blocks_done {m : Py (List SendBlock)} {r : Except Exc Unit}
    (h : exceptArguments (answer m repBlocks) c = .ok (r, c')) :
    ∃ q, m c.node = .ok (q, c'.node) ∧
      ((∃ data, q = .ok data ∧ c'.sent = c.sent ++ [okWith [] (.blocks data)]) ∨
        (∃ e, q = .error e) ∧ (c'.sent = c.sent ∨ ∃ reply, c'.sent = c.sent ++ [reply] ∧
          reply.statusline = ascii "SBPFS/1.0 ERROR")) := by
  cases hm : m c.node with
  | error stop =>
    have hstop : exceptArguments (answer m repBlocks) c = .error stop :=
      rescue_stop (rescue_stop (bind_stop (within_stop hm) repBlocks))
    cases h.symm.trans hstop
  | ok p =>
    obtain ⟨q, n'⟩ := p
    have hcall : onDTree m c = .ok (q, { c with node := n' }) := within_run hm
    cases q with
    | ok data =>
      have hbody : (onDTree m >>= repBlocks) c
          = .ok (.ok (), ⟨n', c.sent ++ [okWith [] (.blocks data)]⟩) := bind_step hcall repBlocks
      have hrun : exceptArguments (answer m repBlocks) c
          = .ok (.ok (), ⟨n', c.sent ++ [okWith [] (.blocks data)]⟩) :=
            rescue_returns (rescue_returns hbody)
      cases h.symm.trans hrun
      exact ⟨_, rfl, .inl ⟨data, rfl, rfl⟩⟩
    | error e =>
      have hbody : (onDTree m >>= repBlocks) c = (raise e : Serve Unit) { c with node := n' } :=
        bind_raise hcall repBlocks
      have heq : exceptArguments (answer m repBlocks) c
          = exceptArguments (exceptDTree (raise e)) { c with node := n' } :=
        rescued_congr (rescued_congr hbody)
      obtain ⟨hnode, hsent⟩ := raised_done (heq.symm.trans h)
      refine ⟨.error e, ?_, .inr ⟨⟨e, rfl⟩, hsent⟩⟩
      rw [hnode]

end Replies

/-! ## The request of the client -/

section Asking

variable {users : UsersInfo} {uid : Int} {l : Login} {d : FileDesc} {len : UInt64} {s s' : Cluster}

/-- The method is called once. The client gets its blocks, or nothing where it has raised. -/
theorem askBlocks_done {method : String} {m : Py (List SendBlock)} {r : Option (List BlockEntry)}
    (hserve : serveMethod users uid (ascii method) [decimal 0 (s64 d.serverFd.toNat),
      decimal 0 (s64 d.offset.toNat), decimal 0 (s64 len.toNat)]
        = exceptArguments (answer m repBlocks))
    (h : askBlocks (netLink users uid) l d len method s = .ok (r, s')) :
    ∃ q n', m s.ctrl = .ok (q, n') ∧ s' = { s with ctrl := n' } ∧
      ((∃ e, q = .error e) ∧ r = none ∨
        ∃ data, q = .ok data ∧ (Sendable data → r = some (data.map toEntry))) := by
  obtain ⟨es, s₁, hcheck, h₁⟩ := bind_ok.mp h
  obtain ⟨-, rfl⟩ := check_done hcheck
  obtain ⟨a, s₂, hcontrol, h₂⟩ := bind_ok.mp h₁
  change Parties.control users uid method _ s₁ = _ at hcontrol
  unfold Parties.control at hcontrol
  rw [hserve] at hcontrol
  cases hrun : exceptArguments (answer m repBlocks) ⟨s₁.ctrl, []⟩ with
  | error e =>
    rw [hrun] at hcontrol
    cases hcontrol
  | ok p =>
    obtain ⟨u, c⟩ := p
    rw [hrun] at hcontrol
    cases hcontrol
    obtain ⟨q, hm, hcase⟩ := blocks_done hrun
    refine ⟨q, c.node, hm, ?_⟩
    rcases hcase with ⟨data, rfl, hsent⟩ | ⟨herr, hsent | ⟨reply, hsent, hline⟩⟩
    · change c.sent = [okWith [] (.blocks data)] at hsent
      rw [hsent] at h₂
      obtain ⟨hentries, rfl⟩ := check_done h₂
      refine ⟨rfl, .inr ⟨data, rfl, fun hdata => ?_⟩⟩
      rw [blockEntries_okWith hdata] at hentries
      exact (Except.ok.inj hentries).symm
    · change c.sent = [] at hsent
      rw [hsent] at h₂
      cases h₂
      exact ⟨rfl, .inl ⟨herr, rfl⟩⟩
    · change c.sent = [reply] at hsent
      rw [hsent] at h₂
      obtain ⟨hentries, rfl⟩ := check_done h₂
      have hnot : (answerOf reply).saysOk = false := by
        show REQUEST_OK.isPrefixOf reply.statusline = false
        rw [hline]
        decide
      unfold blockEntries at hentries
      rw [hnot] at hentries
      exact ⟨rfl, .inl ⟨herr, (Except.ok.inj hentries).symm⟩⟩

/-- A call that returns blocks gets them to the client. -/
theorem askBlocks_run {method : String} {m : Py (List SendBlock)} {data : List SendBlock}
    {n' : CtrlNode}
    (hfit : Fits l)
    (hserve : serveMethod users uid (ascii method) [decimal 0 (s64 d.serverFd.toNat),
      decimal 0 (s64 d.offset.toNat), decimal 0 (s64 len.toNat)]
        = exceptArguments (answer m repBlocks))
    (h : m s.ctrl = .ok (.ok data, n')) (hdata : Sendable data) :
    askBlocks (netLink users uid) l d len method s
      = .ok (some (data.map toEntry), { s with ctrl := n' }) := by
  have hcheck := congrArg (fun r => check r s) (prepareRequest_eq hfit)
  have hcall : onDTree m ⟨s.ctrl, []⟩ = .ok (.ok data, ⟨n', []⟩) := within_run h
  have hbody : (onDTree m >>= repBlocks) ⟨s.ctrl, []⟩
    = .ok (.ok (), ⟨n', [okWith [] (.blocks data)]⟩) :=
    bind_step hcall repBlocks
  have hcontrol : Parties.control users uid method [decimal 0 (s64 d.serverFd.toNat),
      decimal 0 (s64 d.offset.toNat), decimal 0 (s64 len.toNat)] s
        = .ok (some (answerOf (okWith [] (.blocks data))), { s with ctrl := n' }) := by
    unfold Parties.control
    rw [hserve, show exceptArguments (answer m repBlocks) ⟨s.ctrl, []⟩ = _ from
      rescue_returns (rescue_returns hbody)]
    rfl
  unfold askBlocks
  rw [bind_run (hcheck.trans rfl), bind_run (show (netLink users uid).control method _ s
    = _ from hcontrol)]
  dsimp only
  rw [blockEntries_okWith hdata]
  rfl

end Asking

/-! ## The file -/

/-- Length and blocks of the file at `fb`, as they are on the control node's disk. -/
def fileAt (n : CtrlNode) (fb : Nat) : Nat × List Rec :=
  (metaFlen (n.world.dt.data fb), blockList n.world.dt fb)

/-- The number stands for an open file at `fb` with the length `len` and the blocks `recs`. -/
structure Opened (n : CtrlNode) (uid k : Int) (fb len : Nat) (recs : List Rec) : Prop where
  named : ∀ file, CtrlNode.getFile n uid k = some file → (argI file.fb).toNat = fb
  disk : ∃ fs chain owner flags, Store n.world.dt fs chain ∧ fs fb
    = some ⟨owner, flags, .file len recs⟩

theorem Opened.first {n : CtrlNode} {uid k : Int} {fb len offset : Nat} {recs : List Rec}
    (h : Opened n uid k fb len recs) (hle : offset ≤ len) : offset / BLOCKSIZE ≤ recs.length := by
  obtain ⟨fs, chain, owner, flags, hst, ho⟩ := h.disk
  have hcount : recs.length = blocksFor len :=
    (show FileImage _ _ len recs from (hst.obj _ _ ho).holds.node).count
  exact hcount ▸ firstBlock_le hle

section Blocks

variable {recs news : List Rec} {fs : Fs} {chain : Nat → List Nat} {n n' : CtrlNode} {fb len : Nat}

theorem fileAt_eq {owner : Nat} {flags : UInt8} (hst : Store n.world.dt fs chain)
    (ho : fs fb = some ⟨owner, flags, .file len recs⟩) : fileAt n fb = (len, recs) :=
  Prod.ext (file_header hst ho).1 (blockList_eq hst ho)

theorem fileAt_quiet (h : Quiet n n') (fb : Nat) : fileAt n' fb = fileAt n fb := by
  unfold fileAt
  rw [h.dt]

/-- The records of a file have three addresses. -/
theorem rec_shape {dt : Cfs.Layout.Dtree} {owner : Nat} {flags : UInt8} (hst : Store dt fs chain)
    (ho : fs fb = some ⟨owner, flags, .file len recs⟩) {r : Rec} (hr : r ∈ recs) :
    r.ip.length = 3 := by
  have hat := hst.obj fb _ ho
  have hfile : FileImage (imageOf dt.data (chain fb)) (chain fb).length len recs := hat.holds.node
  obtain ⟨i, hi, rfl⟩ := List.getElem_of_mem hr
  rw [← hfile.record i _ (List.getElem?_eq_getElem hi)]
  rfl

/-- Each entry of a write is about one of the file's blocks. -/
theorem writeEntries_rec {offset length : Nat} (hfirst : offset / BLOCKSIZE ≤ recs.length)
    {b : SendBlock} (hb : b ∈ writeEntries recs news offset length) :
    ∃ r ∈ recs ++ news, b.blockNum = r.num ∧ b.ip = r.ip := by
  obtain ⟨i, hi⟩ := List.getElem?_of_mem hb
  obtain ⟨r, hr, heq⟩ := writeEntries_blocks hfirst i b hi
  exact ⟨r, List.mem_of_getElem? hr, heq⟩

end Blocks

/-- What becomes of a write at the control node: it is refused before the disk is changed, or
`c_write` has made the file ready for the range. Then its entries are the reply, unless there is
nothing to write. -/
theorem write_granted {n n' : CtrlNode} {uid : Int} {fd : UInt64} {offset length : UInt64}
    {fb len : Nat}
    {recs : List Rec} {q : Except Exc (List SendBlock)}
    (hopen : Opened n uid (s64 fd.toNat) fb len recs)
    (hend : offset.toNat ≤ len → offset.toNat + length.toNat ≤ MAX_END)
    (h : Cnode.DTree.write (decimal 0 (s64 fd.toNat)) (decimal 0 (s64 offset.toNat))
      (decimal 0 (s64 length.toNat)) uid n = .ok (q, n')) :
    (Quiet n n' ∧ ∃ e, q = .error e) ∨ offset.toNat ≤ len ∧
    ∃ fs chain owner flags ips w r news w₁ cs,
      Same n.world w ∧ Wrote fs chain fb owner flags len recs offset.toNat length.toNat
        ips w r n'.world
        news w₁ cs ∧
      (q = .ok (writeEntries recs news offset.toNat length.toNat) ∧
          Sendable (writeEntries recs news offset.toNat length.toNat) ∨
        (∃ e, q = .error e) ∧ news = [] ∧ length.toNat = 0) := by
  obtain ⟨fs, chain, owner, flags, hst, ho⟩ := hopen.disk
  rcases write_done h with ⟨hquiet, hno⟩ |
    ⟨k, o, l, file, cap, r, w, hk, hoff, hl, hget, -, -, -, hcap, hsame, hrun, hq⟩
  · refine .inl ⟨hquiet, ?_⟩
    cases q with
    | error e => exact ⟨e, rfl⟩
    | ok data => exact absurd rfl (hno data)
  obtain rfl : s64 fd.toNat = k := Option.some.inj ((pyInt_decimal 0 _).symm.trans hk)
  obtain rfl : s64 offset.toNat = o := Option.some.inj ((pyInt_decimal 0 _).symm.trans hoff)
  obtain rfl : s64 length.toNat = l := Option.some.inj ((pyInt_decimal 0 _).symm.trans hl)
  obtain rfl := hopen.named file hget
  rw [argK_s64] at hcap
  rw [argK_s64, argK_s64] at hrun
  have hst' : Store w.dt fs chain := hsame.dt ▸ hst
  have herror : someBlocks r = none → ∃ e, q = .error e := by
    intro hnone
    cases q with
    | error e => exact ⟨e, rfl⟩
    | ok data =>
      rw [hnone] at hq
      cases hq
  have hne : (parseIps n.ips).map UInt32.toNat ≠ [] := by
    rw [Ne, List.map_eq_nil_iff]
    exact parseIps_ne_nil _
  rcases wp_ok (wp_cWrite (H := True) hst' ho (file_len_le hst ho) hend hne (Nat.le_refl _)
    (.inl trivial)) (cWrite_cap hcap hrun) with ⟨hsame', hr⟩ | ⟨hle, news, w₁, cs, hw⟩
  · refine .inl ⟨hsame.trans hsame', herror ?_⟩
    rcases hr with ⟨rfl, -⟩ | ⟨-, rfl⟩
    · rfl
    · rfl
  refine .inr ⟨hle, fs, chain, owner, flags, _, w, r, news, w₁, cs, hsame, hw, ?_⟩
  have hfirst : offset.toNat / BLOCKSIZE ≤ recs.length := hopen.first hle
  by_cases hnone : blocksFor (offset.toNat + length.toNat) ≤ offset.toNat / BLOCKSIZE
  · -- nothing is asked for, and nothing is changed
    have hzero : length.toNat = 0 := by
      simp only [blocksFor_eq, BLOCKSIZE] at hnone
      omega
    have hnews : news = [] := by
      have hlen := hw.alloc.length
      unfold growth at hlen
      exact List.length_eq_zero_iff.mp (by omega)
    refine .inr ⟨herror ?_, hnews, hzero⟩
    rw [hw.reply]
    exact if_pos (by omega)
  · have hreply : someBlocks r = some (writeEntries recs news offset.toNat length.toNat) := by
      rw [hw.reply]
      exact if_neg (by omega)
    refine .inl ⟨?_, ?_, ?_⟩
    · rw [hreply] at hq
      cases q with
      | error e => cases hq
      | ok data => exact congrArg Except.ok (Option.some.inj hq).symm
    · intro b hb
      obtain ⟨r, hr, -, hip⟩ := writeEntries_rec hfirst hb
      rw [hip]
      rcases List.mem_append.mp hr with hr | hr
      · exact rec_shape hst ho hr
      · exact hw.alloc.shape r hr
    · rw [writeEntries_length hfirst hw.alloc.length]
      exact (Nat.sub_le _ _).trans_lt ((blocksFor_max (hend hle)).trans (by decide))

/-- A write changes the file for the range as soon as it is granted. -/
theorem write_wrote {n n' : CtrlNode} {uid : Int} {fd : UInt64} {offset length : UInt64}
    {fb len : Nat}
    {recs : List Rec} {q : Except Exc (List SendBlock)}
    (hopen : Opened n uid (s64 fd.toNat) fb len recs)
    (hend : offset.toNat ≤ len → offset.toNat + length.toNat ≤ MAX_END)
    (h : Cnode.DTree.write (decimal 0 (s64 fd.toNat)) (decimal 0 (s64 offset.toNat))
      (decimal 0 (s64 length.toNat)) uid n = .ok (q, n')) :
    ((∃ e, q = .error e) ∧ fileAt n' fb = fileAt n fb) ∨
      ∃ news, fileAt n' fb = (max len (offset.toNat + length.toNat), recs ++ news) ∧
        offset.toNat ≤ len ∧ q = .ok (writeEntries recs news offset.toNat length.toNat) ∧
        Sendable (writeEntries recs news offset.toNat length.toNat) := by
  rcases write_granted hopen hend h with ⟨hquiet, herr⟩ |
    ⟨hle, fs, chain, owner, flags, ips, w, r, news, w₁, cs, -, hw, hq⟩
  · exact .inl ⟨herr, fileAt_quiet hquiet fb⟩
  have hfile : fileAt n' fb = (max len (offset.toNat + length.toNat), recs ++ news) :=
    fileAt_eq hw.rewritten.store (Function.update_self _ _ _)
  rcases hq with ⟨hq, hsend⟩ | ⟨herr, hnews, hzero⟩
  · exact .inr ⟨news, hfile, hle, hq, hsend⟩
  · obtain ⟨fs', chain', owner', flags', hst, ho⟩ := hopen.disk
    refine .inl ⟨herr, ?_⟩
    rw [hfile, fileAt_eq hst ho, hnews, hzero, List.append_nil, Nat.add_zero, Nat.max_eq_left hle]

end Sbpfs.Net.Granting
