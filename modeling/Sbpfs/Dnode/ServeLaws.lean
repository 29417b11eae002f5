import Sbpfs.Libc.FramingLaws
import Sbpfs.Dnode.BlockStore

/-!
# The requests of a data node

What a request to write puts into its block, and what a request is answered. The length written
is an argument of the request, the length received another of its fields: where the first is
larger, memory behind the message is stored.
-/
namespace Sbpfs.Dnode.ServeLaws

open Sbpfs.Lib.Program Sbpfs.Lib.Memory Sbpfs.Lib.Search Sbpfs.Lib.Raise
open Sbpfs.Cfs.Layout (s32)
open Sbpfs.Wire.Head Sbpfs.Wire.Number Sbpfs.Libc.Request Sbpfs.Libc.Recv
open Sbpfs.Libc.Table (REQUEST_OK REQUEST_ERR)
open Sbpfs.Libc.Transfer Sbpfs.Libc.FramingLaws
open Sbpfs.Dnode.Blockman Sbpfs.Dnode.Serve Sbpfs.Dnode.BlockSpec Sbpfs.Dnode.BlockStore

/-! ## Requests to write -/

/-- What `sbp_recv` has received is accepted by `serve` as a request to write; `body` is what came
behind its head. -/
structure Accepted (mem : Bool) (recBuf : Str) (ent : ListEntry) (body : Str) : Prop where
  received : ∃ memR stale chunks n, sbpRecv memR stale chunks = .ok (some (recBuf, n))
  text : cstr recBuf 0 ≠ []
  decoded : ∃ head, decodeHead mem recBuf = .ok (some head) ∧
    entryOf head.strings (recBuf.drop head.headLen) = some ent ∧
    body = (recBuf.drop head.headLen).dropLast
  writes : ent.req = 2 ∨ ent.req = 3

/-- The file of a block is there and opened. -/
def Found (d : DNode) (b : UInt64) : Prop := d.env.opens 0 = true ∧ (block d b).isSome

section Write

variable {d : DNode} {b : UInt64} {offset length : UInt32} {data : Str}

theorem found_iff :
    Found d b ↔ ∃ f, (if d.env.opens 0 then d.files (pathOf b) else none) = some f := by
  unfold Found block
  cases d.env.opens 0
  · simp
  · simp [Option.isSome_iff_exists]

/-- The node once a block has been made for a write. -/
def remade (d : DNode) (b : UInt64) (f : File) : DNode := added (blanked (opened d) b) b f

theorem remade_block {f : File} (ht : TextFits d b) (hc : CanCreate (opened d) b f) :
    (remade d b f).files (pathOf b) = some blank :=
  (createblock_done (createblock_run (d := opened d) ⟨ht.flag, ht.num⟩ hc)).1

theorem writeblock_remade {f : File} (ht : TextFits d b) (hn : ¬ Found d b)
    (hc : CanCreate (opened d) b f) :
    writeblock b offset length data d = if d.env.opens 3 then
        storeBlock (pathOf b) blank offset length data (opened (remade d b f))
      else .ok (-1, opened (remade d b f)) := by
  have hnone : (if d.env.opens 0 then d.files (pathOf b) else none) = none := by
    by_contra hne
    exact hn (found_iff.mpr (Option.ne_none_iff_exists'.mp hne))
  have hcreate : createblock b (opened d) = .ok (0, remade d b f) :=
    createblock_run ⟨ht.flag, ht.num⟩ hc
  have hopens : (remade d b f).env.opens 0 = d.env.opens 3 := rfl
  unfold writeblock
  rw [bind_run (getpath_run ht), bind_run (fopen_run ..), hnone]
  dsimp only
  rw [bind_run hcreate, bind_run (fopen_run ..), hopens, remade_block ht hc]
  cases d.env.opens 3 <;> rfl

end Write

section Accepted

variable {mem : Bool} {recBuf body : Str} {ent : ListEntry}

/-- `sbp_recv` puts a NUL behind the message. -/
theorem received_nul {memR : Bool} {stale : { s : Str // s.length = BUF_SIZE }} {chunks : List Str}
    {n : Nat} (h : sbpRecv memR stale chunks = .ok (some (recBuf, n))) :
    ∃ msg, recBuf = msg ++ [0] := by
  unfold sbpRecv at h
  cases hhead : recvHead (stale.val ++ [0]) 0 chunks with
  | error e =>
    rw [hhead] at h
    cases h
  | ok left? =>
    rw [hhead] at h
    cases left? with
    | none => cases h
    | some left =>
      obtain ⟨buf, receivedLen, missingBytes, rest⟩ := left
      cases memR with
      | false => cases h
      | true =>
        simp only [if_true, bind, Except.bind, pure, Except.pure] at h
        split at h
        · cases h
        · cases h
          exact ⟨_, rfl⟩

theorem decodeHead_mem {head : SbpfsHead} (h : decodeHead mem recBuf = .ok (some head)) :
    mem = true := by
  cases mem
  · exfalso
    unfold decodeHead at h
    split at h <;> cases h
  · rfl

/-- What is found in the text in front of a NUL ends in front of it. -/
theorem find_nul {msg : Str} {e : Nat} (h : find headerFlag (cstr (msg ++ [0]) 0) = some e) :
    e + headerFlag.length ≤ msg.length := by
  have hin := find_length h
  have htext : (cstr (msg ++ [0]) 0).length ≤ msg.length := by
    unfold cstr
    rw [List.drop_zero, List.takeWhile_append]
    split
    · simp
    · exact (List.takeWhile_sublist _).length_le
  omega

/-- The text grows if other bytes stand in the place of the NUL. -/
theorem cstr_behind (msg rest : Str) :
    ∃ more, cstr (msg ++ rest) 0 = cstr (msg ++ [0]) 0 ++ more := by
  unfold cstr
  rw [List.drop_zero, List.drop_zero, List.takeWhile_append, List.takeWhile_append]
  split
  · exact ⟨rest.takeWhile (· ≠ 0), by simp⟩
  · exact ⟨[], (List.append_nil _).symm⟩

/-- What `serve` hands to `process_req`: the body and the NUL behind it. -/
theorem Accepted.data (h : Accepted mem recBuf ent body) : ent.data = body ++ [0] := by
  obtain ⟨memR, stale, chunks, n, hrecv⟩ := h.received
  obtain ⟨head, hdec, hent, hbody⟩ := h.decoded
  obtain ⟨msg, rfl⟩ := received_nul hrecv
  have hmem : mem = true := decodeHead_mem hdec
  subst hmem
  obtain ⟨e, hfind, hlen, -⟩ := decodeHead_cut hdec
  have hle : head.headLen ≤ msg.length := by
    rw [hlen]
    exact find_nul hfind
  have hdrop : (msg ++ [0]).drop head.headLen = msg.drop head.headLen ++ [0] :=
    List.drop_append_of_le_length hle
  have hdata : ent.data = (msg ++ [0]).drop head.headLen := by
    unfold entryOf at hent
    simp only [Option.bind_eq_bind, Option.bind_eq_some_iff, Option.pure_def,
      Option.some.injEq] at hent
    obtain ⟨req, -, num, -, off, -, len, -, con, -, rfl⟩ := hent
    have hreq : ¬ req = 1 := by
      rcases h.writes with hw | hw
      · rw [show req = 2 from hw]
        decide
      · rw [show req = 3 from hw]
        decide
    exact if_neg hreq
  rw [hdata, hbody, hdrop, List.dropLast_concat]

variable {d : DNode}

end Accepted

/-- A request to write three bytes to the block 5, with a text for the length. -/
def writeMessage (len : String) : Str :=
  ascii "SBPFS/1.0\r\nMethod: WRITE\r\nArg0: 5\r\nArg1: 0\r\nArg2: " ++ ascii len ++
    ascii "\r\nContent-Length: 3\r\n\r\nabc"

/-- The request that is made of it. -/
def writeEntry (len : UInt32) : ListEntry := ⟨2, 0, len, 5, 3, ascii "abc" ++ [0]⟩

/-- `decode_head` accepts what was received as a request to read or write, with all arguments. -/
structure Requested (mem : Bool) (recBuf : Str) (ent : ListEntry) : Prop where
  decoded : ∃ head, decodeHead mem recBuf = .ok (some head) ∧
    entryOf head.strings (recBuf.drop head.headLen) = some ent
  asks : ent.req = 1 ∨ ent.req = 2

/-- What the block operation of a request returns, and the bytes it reads. -/
inductive Outcome (ent : ListEntry) (d : DNode) : Int → Bytes → DNode → Prop
  | read {r : Int} {data : Bytes} {d' : DNode} (req : ent.req = 1)
      (run : readblock ent.blockNum ent.offset ent.length d.env.stray (malloced d)
        = .ok ((r, data), d')) : Outcome ent d r data d'
  | write {r : Int} {d' : DNode} (req : ent.req = 2)
      (run : writeblock ent.blockNum ent.offset ent.length ent.data d = .ok (r, d')) :
      Outcome ent d r (fun _ => 0) d'

/-- A reply that says how the operation went, with the bytes of a block that was read. -/
def TruthfulReply (ent : ListEntry) (r : Int) (data : Bytes) (a : Answer) : Prop :=
  if r < 0 then a.title = REQUEST_ERR
  else a.title = REQUEST_OK ∧
    a.data = if ent.req = 1 then (List.range ent.length.toNat).map data else []

/-- The request is served to the end with one reply, and that a truthful one. -/
def AnsweredOnce (run : SM Unit) (ent : ListEntry) (r : Int) (data : Bytes) (c : Conn) : Prop :=
  ∃ a c', run c = .ok ((), c') ∧ c'.sent = c.sent ++ [a] ∧ TruthfulReply ent r data a

section Answer

variable {mem : Bool} {recBuf : Str} {ent : ListEntry} {c : Conn} {r : Int} {data : Bytes}
  {d' : DNode}

theorem serve_requested (h : Requested mem recBuf ent) (c : Conn) :
    serve mem (some recBuf) c = processReq ent c := by
  obtain ⟨head, hdec, hent⟩ := h.decoded
  have htext : cstr recBuf 0 ≠ [] := by
    intro hnil
    have hnone : strstr recBuf 0 headerFlag = none := by
      unfold strstr
      rw [hnil]
      rfl
    unfold decodeHead at hdec
    rw [hnone] at hdec
    cases hdec
  unfold serve
  simp only [if_neg htext, hdec]
  unfold serveFields
  rw [hent]

/-- The last message of a program is the only one exactly if all its parts go out. -/
theorem sendMessage_answers {run : SM Unit} {parts : SM Bool} {ok : Bool} {a : Answer} {t : Conn}
    {e : DNode} (hrun : run c = sendMessage parts a t) (hsent : t.sent = c.sent)
    (hparts : parts t = .ok (ok, { t with node := e })) (ht : TruthfulReply ent r data a) :
    AnsweredOnce run ent r data c ↔ ok = true := by
  have hmsg := sendMessage_run hparts a
  rw [hsent] at hmsg
  constructor
  · rintro ⟨a', c', hdone, hone, -⟩
    rw [hrun, hmsg] at hdone
    cases hdone
    by_contra hno
    rw [if_neg hno] at hone
    simp at hone
  · intro hyes
    rw [if_pos hyes] at hmsg
    exact ⟨a, _, hrun.trans hmsg, rfl, ht⟩

theorem keeps_readblock (b : UInt64) (offset length : UInt32) (databuf : Bytes) :
    Keeps OnlyOpens (readblock b offset length databuf) := by
  apply keeps_bind (keeps_getpath b)
  intro path
  apply keeps_bind (keeps_fopen path)
  intro f
  cases f with
  | none => exact keeps_pure _
  | some f => exact keeps_pure _

theorem sends_later {d d' : DNode} (h : OnlyOpens d d') :
    d'.env.sends = d.env.sends ∧ d'.env.mallocs = d.env.mallocs := by
  obtain ⟨k, hk⟩ := h
  rw [hk]
  exact ⟨rfl, rfl⟩

/-- A read that has got its buffer, with what `readblock` returns. -/
theorem processRead_buffered (hm : c.node.env.mallocs 0 = true)
    (hrun : readblock ent.blockNum ent.offset ent.length c.node.env.stray (malloced c.node)
      = .ok ((r, data), d')) :
    processRead ent c = (if r < 0 then sendErr "read_block" "cannot read block"
      else sendMessage sendHeadData ⟨REQUEST_OK, [⟨CONTENT_LEN, decimal 0 (s32 ent.length.toNat)⟩],
        (List.range ent.length.toNat).map data⟩) { c with node := d' } := by
  have hblock : onNode (readblock ent.blockNum ent.offset ent.length
      (Conn.node { c with node := malloced c.node }).env.stray) { c with node := malloced c.node }
        = .ok ((r, data), { c with node := d' }) := focus_run hrun
  unfold processRead
  rw [bind_run (onNode_run (nextMalloc_run c.node)), if_pos hm,
    bind_run (show (get : SM Conn) _ = .ok (_, _) from rfl), bind_run hblock]

theorem answered_read (hreq : ent.req = 1)
    (hrun : readblock ent.blockNum ent.offset ent.length c.node.env.stray (malloced c.node)
      = .ok ((r, data), d')) :
    AnsweredOnce (processReq ent) ent r data c ↔ c.node.env.mallocs 0 = true ∧
      c.node.env.mallocs 1 = true ∧ c.node.env.sends 0 = true ∧
        (0 ≤ r → c.node.env.sends 1 = true) := by
  obtain ⟨hsends, hmallocs⟩ := sends_later ((keeps_readblock _ _ _ _).rel hrun)
  have hmake : d'.env.mallocs 0 = c.node.env.mallocs 1 := congrFun hmallocs 0
  have hsend : ∀ k, d'.env.sends k = c.node.env.sends k := fun k => congrFun hsends k
  have hproc : processReq ent c = processRead ent c := by
    unfold processReq
    rw [if_pos hreq]
  cases hm : c.node.env.mallocs 0 with
  | false =>
    have hquiet : processRead ent c = .ok ((), { c with node := malloced c.node }) := by
      unfold processRead
      rw [bind_run (onNode_run (nextMalloc_run c.node)), hm]
      rfl
    refine ⟨fun h => ?_, fun h => absurd h.1 (by decide)⟩
    obtain ⟨a, c', hdone, hone, -⟩ := h
    rw [hproc, hquiet] at hdone
    cases hdone
    simp at hone
  | true =>
    have hread := hproc.trans (processRead_buffered hm hrun)
    by_cases hneg : r < 0
    · rw [if_pos hneg] at hread
      have htrue : TruthfulReply ent r data ⟨REQUEST_ERR, [⟨ERR_TYPE, ascii "read_block"⟩,
          ⟨ERR_DETAIL, ascii "cannot read block"⟩, ⟨CONTENT_LEN, ascii "0"⟩], []⟩ := by
        unfold TruthfulReply
        rw [if_pos hneg]
      rw [sendMessage_answers hread rfl (sendHead_run _) htrue, Bool.and_eq_true, hmake, hsend]
      exact ⟨fun h => ⟨rfl, h.1, h.2, fun hpos => absurd hpos (by omega)⟩,
        fun h => ⟨h.2.1, h.2.2.1⟩⟩
    · rw [if_neg hneg] at hread
      obtain ⟨e, hparts, -⟩ := sendHeadData_run { c with node := d' }
      have htrue : TruthfulReply ent r data ⟨REQUEST_OK,
          [⟨CONTENT_LEN, decimal 0 (s32 ent.length.toNat)⟩],
          (List.range ent.length.toNat).map data⟩ := by
        unfold TruthfulReply
        rw [if_neg hneg, if_pos hreq]
        exact ⟨rfl, rfl⟩
      rw [sendMessage_answers hread rfl hparts htrue, Bool.and_eq_true,
        Bool.and_eq_true, hmake, hsend,
        hsend]
      exact ⟨fun h => ⟨rfl, h.1.1, h.1.2, fun _ => h.2⟩,
        fun h => ⟨⟨h.2.1, h.2.2.1⟩, h.2.2.2 (by omega)⟩⟩

/-- After a write that failed the node goes on with a head that was never made. -/
theorem not_answered_write (hreq : ent.req = 2)
    (hrun : writeblock ent.blockNum ent.offset ent.length ent.data c.node = .ok (r, d'))
    (hneg : r < 0) : ¬ AnsweredOnce (processReq ent) ent r data c := by
  have hblock : onNode (writeblock ent.blockNum ent.offset ent.length ent.data) c
      = .ok (r, { c with node := d' }) := focus_run hrun
  rintro ⟨a, c', hdone, -⟩
  have hproc : processReq ent c = processWrite ent c := by
    unfold processReq
    rw [if_neg (by rw [hreq]; decide), if_pos hreq]
  rw [hproc] at hdone
  unfold processWrite at hdone
  rw [bind_run hblock, if_pos hneg] at hdone
  unfold sendErr at hdone
  rw [bind_run (sendMessage_run (sendHead_run { c with node := d' }) ⟨REQUEST_ERR,
    [⟨ERR_TYPE, ascii "write_block"⟩, ⟨ERR_DETAIL, ascii "cannot write block"⟩,
      ⟨CONTENT_LEN, ascii "0"⟩], []⟩)] at hdone
  cases hdone

theorem answered_write (hreq : ent.req = 2)
    (hrun : writeblock ent.blockNum ent.offset ent.length ent.data c.node = .ok (r, d'))
    (hpos : 0 ≤ r) : AnsweredOnce (processReq ent) ent r data c ↔
      c.node.env.mallocs 0 = true ∧ c.node.env.sends 0 = true := by
  obtain ⟨hsends, hmallocs⟩ := sends_later ((keeps_writeblock _ _ _ _).rel hrun)
  have hblock : onNode (writeblock ent.blockNum ent.offset ent.length ent.data) c
      = .ok (r, { c with node := d' }) := focus_run hrun
  have hnot : ¬ ent.req = 1 := by
    rw [hreq]
    decide
  have hwrite : processReq ent c
      = sendMessage sendHead ⟨REQUEST_OK, [⟨CONTENT_LEN, ascii "0"⟩],
        []⟩ { c with node := d' } := by
    unfold processReq processWrite
    rw [if_neg hnot, if_pos hreq, bind_run hblock, if_neg (by omega)]
  have htrue : TruthfulReply ent r data ⟨REQUEST_OK, [⟨CONTENT_LEN, ascii "0"⟩], []⟩ := by
    unfold TruthfulReply
    rw [if_neg (by omega), if_neg hnot]
    exact ⟨rfl, rfl⟩
  rw [sendMessage_answers hwrite rfl (sendHead_run _) htrue, Bool.and_eq_true]
  dsimp only
  rw [hsends, hmallocs]

/-- A request is answered once and truthfully exactly if the buffer of a read and the head of the
reply can be allocated, a write succeeds, and the head, and behind it the data of a block, can be
sent. -/
theorem answeredOnce_iff (h : Requested mem recBuf ent) (ho : Outcome ent c.node r data d') :
    AnsweredOnce (serve mem (some recBuf)) ent r data c ↔ c.node.env.mallocs 0 = true ∧
      c.node.env.sends 0 = true ∧ (ent.req = 2 → 0 ≤ r) ∧
        (ent.req = 1 → c.node.env.mallocs 1 = true ∧ (0 ≤ r → c.node.env.sends 1 = true)) := by
  have hserve : AnsweredOnce (serve mem (some recBuf)) ent r data c ↔
      AnsweredOnce (processReq ent) ent r data c := by
    unfold AnsweredOnce
    rw [serve_requested h]
  rw [hserve]
  cases ho with
  | read hreq hrun =>
    have hnot : ¬ ent.req = 2 := by
      rw [hreq]
      decide
    rw [answered_read hreq hrun]
    exact ⟨fun hc => ⟨hc.1, hc.2.2.1, fun hw => absurd hw hnot, fun _ => ⟨hc.2.1, hc.2.2.2⟩⟩,
      fun hc => ⟨hc.1, (hc.2.2.2 hreq).1, hc.2.1, (hc.2.2.2 hreq).2⟩⟩
  | write hreq hrun =>
    have hnot : ¬ ent.req = 1 := by
      rw [hreq]
      decide
    by_cases hpos : 0 ≤ r
    · rw [answered_write hreq hrun hpos]
      exact ⟨fun hs => ⟨hs.1, hs.2, fun _ => hpos, fun hr => absurd hr hnot⟩,
        fun hc => ⟨hc.1, hc.2.1⟩⟩
    · exact iff_of_false (not_answered_write hreq hrun (by omega)) fun hc => hpos (hc.2.2.1 hreq)

end Answer

/-- A request to read three bytes of the block 5. -/
def readMessage : Str :=
  ascii "SBPFS/1.0\r\nMethod: READ\r\nArg0: 5\r\nArg1: 0\r\nArg2: 3\r\nContent-Length: 0\r\n\r\n"

/-- A block that is not there is reported. -/
theorem answeredOnce_absent :
    AnsweredOnce (serve true (some (readMessage ++ [0]))) ⟨1, 0, 3, 5, 0, []⟩ (-1)
      freshNode.env.stray ⟨freshNode, []⟩ := by
  have hreq : Requested true (readMessage ++ [0]) ⟨1, 0, 3, 5, 0, []⟩ :=
    ⟨⟨headOf (readMessage ++ [0]), by decide +kernel⟩, .inl rfl⟩
  have hout : Outcome ⟨1, 0, 3, 5, 0, []⟩ freshNode (-1) freshNode.env.stray
      (opened (malloced freshNode)) := .read rfl rfl
  exact (answeredOnce_iff (c := ⟨freshNode, []⟩) hreq hout).mpr
    ⟨rfl, rfl, fun hw => absurd hw (by decide), fun _ => ⟨rfl, fun _ => rfl⟩⟩

/-- A node on which the file of a block that was just made cannot be opened. -/
def busyNode : DNode :=
  { freshNode with env := { freshNode.env with opens := fun k => k != 3 } }

/-- The write fails, and what is sent behind the error is made of nothing. -/
theorem not_answeredOnce_busy :
    Requested true (writeMessage "3" ++ [0]) (writeEntry 3) ∧
      ∃ d', Outcome (writeEntry 3) busyNode (-1) (fun _ => 0) d' ∧
        ¬ AnsweredOnce (serve true (some (writeMessage "3" ++ [0]))) (writeEntry 3) (-1)
          (fun _ => 0) ⟨busyNode, []⟩ := by
  have hreq : Requested true (writeMessage "3" ++ [0]) (writeEntry 3) :=
    ⟨⟨headOf (writeMessage "3" ++ [0]), by decide +kernel⟩, .inr rfl⟩
  have hlist : (blanked (opened busyNode) 5).files BLOCKLISTPATH
      = some ⟨6401 * 64, fun _ => 0⟩ := by
    show Function.update freshNode.files (pathOf 5) (some blank) BLOCKLISTPATH = _
    rw [Function.update_of_ne (pathOf_ne_list 5).symm]
    rfl
  have hroom : Room (blanked (opened busyNode) 5) 5 ⟨6401 * 64, fun _ => 0⟩ := by
    refine ⟨?_, rfl, hlist, ?_⟩ <;> decide
  have hnone : ¬ Found busyNode 5 := fun hf => absurd hf.2 (by decide)
  have hrun : writeblock (writeEntry 3).blockNum (writeEntry 3).offset (writeEntry 3).length
      (writeEntry 3).data busyNode
        = .ok (-1, opened (remade busyNode 5 ⟨6401 * 64, fun _ => 0⟩)) := by
    rw [show (writeEntry 3).blockNum = 5 from rfl,
      writeblock_remade ⟨by decide, by decide⟩ hnone ⟨rfl, hroom⟩, if_neg (by decide)]
  have hno : ¬ AnsweredOnce (processReq (writeEntry 3)) (writeEntry 3) (-1) (fun _ => 0)
      ⟨busyNode, []⟩ :=
    @not_answered_write (writeEntry 3) ⟨busyNode, []⟩ (-1) (fun _ => 0) _ rfl hrun (by decide)
  refine ⟨hreq, _, .write rfl hrun, fun h => hno ?_⟩
  unfold AnsweredOnce at h ⊢
  rwa [serve_requested hreq] at h

end Sbpfs.Dnode.ServeLaws
