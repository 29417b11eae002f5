import Sbpfs.Dnode.ServeLaws
import Sbpfs.Libc.TransferLaws
import Sbpfs.Net.Mirror

/-!
# Reading blocks from data nodes

What a request for a block does: the data nodes keep what they have, and what is delivered are the
bytes of the block's file. A node that is able to answer does.
-/
namespace Sbpfs.Net.ReadSteps

open Sbpfs.Lib.Program Sbpfs.Lib.Memory Sbpfs.Lib.Pack
open Sbpfs.Cfs.Layout (BLOCKSIZE s32 u64OfInt)
open Sbpfs.Cfs.DataSpec (u64OfInt_nat)
open Sbpfs.Cfs.NamespaceSpec (s32_of_lt)
open Sbpfs.Spec.FileTree (Rec)
open Sbpfs.Wire.Head Sbpfs.Wire.Number Sbpfs.Libc.Request Sbpfs.Libc.RequestSpec Sbpfs.Libc.Table
open Sbpfs.Libc.Recv (overwrite)
open Sbpfs.Libc.Transfer Sbpfs.Libc.TransferSpec Sbpfs.Libc.TransferLaws
open Sbpfs.Dnode.Blockman Sbpfs.Dnode.Serve Sbpfs.Dnode.BlockSpec
open Sbpfs.Dnode.BlockStore (Willing)
open Sbpfs.Dnode.ServeLaws (processRead_buffered)
open Sbpfs.Net.Parties Sbpfs.Net.TransferSteps Sbpfs.Net.FailedWrites Sbpfs.Net.Mirror
open Sbpfs.Cnode.Users (UsersInfo)

/-! ## A node that is asked for a block -/

/-- The node has its files, and has used up some outcomes of the system. -/
structure Looked (d d' : DNode) : Prop where
  files : d'.files = d.files
  env : ∃ i j k : Nat, d'.env = { d.env with
    opens := fun n => d.env.opens (n + i)
    mallocs := fun n => d.env.mallocs (n + j)
    sends := fun n => d.env.sends (n + k) }

/-- The answer with the bytes of a block. -/
def okRead (length : UInt32) (data : Str) : Answer :=
  ⟨REQUEST_OK, [⟨CONTENT_LEN, decimal 0 (s32 length.toNat)⟩], data⟩

/-- The answer of a node that has not got the block. -/
def errRead : Answer :=
  ⟨REQUEST_ERR, [⟨ERR_TYPE, ascii "read_block"⟩, ⟨ERR_DETAIL, ascii "cannot read block"⟩,
    ⟨CONTENT_LEN, ascii "0"⟩], []⟩

/-- What a read of the file `f` puts into the buffer for it. -/
def readBytes (stray : Bytes) (f : File) (offset length : Nat) : Str :=
  (List.range length).map (blit stray 0 f.bytes offset (f.avail offset length))

theorem Looked.refl (d : DNode) : Looked d d := ⟨rfl, 0, 0, 0, rfl⟩

theorem Looked.trans {d d₁ d' : DNode} (h : Looked d d₁) (h' : Looked d₁ d') : Looked d d' := by
  obtain ⟨i, j, k, henv⟩ := h.env
  obtain ⟨i', j', k', henv'⟩ := h'.env
  refine ⟨h'.files.trans h.files, i' + i, j' + j, k' + k, ?_⟩
  rw [henv', henv]
  simp only [Nat.add_assoc]

theorem looked_used {d d' : DNode} (h : Used d d') : Looked d d' := by
  obtain ⟨j, k, rfl⟩ := h
  exact ⟨rfl, 0, j, k, rfl⟩

/-- A message on a connection over which nothing has gone yet. -/
theorem sendMessage_looked {parts : SM Bool} {a : Answer} {c c' : Conn} {u : Unit}
    (hparts : ∃ ok d', parts c = .ok (ok, { c with node := d' }) ∧ Used c.node d')
    (h : sendMessage parts a c = .ok (u, c')) :
    Looked c.node c'.node ∧ (c.sent = [] → ∀ a', c'.sent.head? = some a' → a' = a) := by
  obtain ⟨ok, d', hrun, hused⟩ := hparts
  rw [sendMessage_run hrun] at h
  cases h
  refine ⟨looked_used hused, fun hnil a' ha => ?_⟩
  cases ok with
  | true =>
    rw [if_pos rfl, hnil] at ha
    exact (Option.some.inj ha).symm
  | false =>
    rw [if_neg (by decide), hnil] at ha
    cases ha

theorem Looked.willing {d d' : DNode} (h : Looked d d') (hd : Willing d) : Willing d' := by
  obtain ⟨i, j, k, henv⟩ := h.env
  intro n
  rw [henv]
  exact hd (n + i)

theorem Looked.block {d d' : DNode} (h : Looked d d') (b : UInt64) : block d' b = block d b :=
  congrFun h.files (pathOf b)

section Serving

variable {ent : ListEntry} {d : DNode}

/-- The file that the next `fopen` of a block gets. -/
def found (d : DNode) (b : UInt64) : Option File := if d.env.opens 0 then block d b else none

theorem readblock_eq {b : UInt64} (ht : TextFits d b) (offset length : UInt32) (databuf : Bytes) :
    readblock b offset length databuf d = .ok ((found d b).elim (-1, databuf) fun f =>
      (0, blit databuf 0 f.bytes offset.toNat (f.avail offset.toNat length.toNat)), opened d) := by
  unfold readblock
  rw [bind_run (getpath_run ht), bind_run (fopen_run _ _)]
  change _ = Except.ok (Option.elim (if d.env.opens 0 then d.files (pathOf b) else none) _ _, _)
  cases (if d.env.opens 0 then d.files (pathOf b) else none) with
  | none => rfl
  | some f => rfl

/-- The branch for READ once the buffer is there and the path is made. -/
theorem processRead_eq (hm : d.env.mallocs 0 = true) (ht : TextFits d ent.blockNum) :
    processRead ent ⟨d, []⟩ = (found d ent.blockNum).elim (sendMessage sendHead errRead)
      (fun f => sendMessage sendHeadData
        (okRead ent.length (readBytes d.env.stray f ent.offset.toNat ent.length.toNat)))
      ⟨opened (malloced d), []⟩ := by
  have hread := readblock_eq (d := malloced d) (b := ent.blockNum) ⟨ht.flag, ht.num⟩ ent.offset
    ent.length d.env.stray
  cases hf : found (malloced d) ent.blockNum with
  | none =>
    rw [hf] at hread
    rw [processRead_buffered (c := ⟨d, []⟩) hm hread, show found d ent.blockNum = none from hf]
    rfl
  | some f =>
    rw [hf] at hread
    rw [processRead_buffered (c := ⟨d, []⟩) hm hread, show found d ent.blockNum = some f from hf]
    rfl

/-- Whatever comes of a READ, the node keeps its files; it answers with the bytes of the block, with
an error, or not at all. -/
theorem processRead_done {u : Unit} {c : Conn} (h : processRead ent ⟨d, []⟩ = .ok (u, c)) :
    Looked d c.node ∧ ∀ a, c.sent.head? = some a → a = errRead ∨ ∃ f,
      block d ent.blockNum = some f ∧
      a = okRead ent.length (readBytes d.env.stray f ent.offset.toNat ent.length.toNat) := by
  cases hm : d.env.mallocs 0 with
  | false =>
    unfold processRead at h
    rw [bind_run (onNode_run (c := ⟨d, []⟩) (nextMalloc_run d)), hm] at h
    cases h
    exact ⟨⟨rfl, 0, 1, 0, rfl⟩, fun a ha => nomatch ha⟩
  | true =>
    have ht : TextFits d ent.blockNum := by
      by_contra hno
      have hno' : ¬ TextFits (malloced d) ent.blockNum := fun ht => hno ⟨ht.flag, ht.num⟩
      have hfault : onNode (readblock ent.blockNum ent.offset ent.length (malloced d).env.stray)
          ⟨malloced d, []⟩ = .error .fault := by
        refine focus_stop ?_
        unfold readblock
        rw [bind_fault (getpath_fault hno')]
      unfold processRead at h
      rw [bind_run (onNode_run (c := ⟨d, []⟩) (nextMalloc_run d)), hm, if_pos rfl,
        bind_run (show (get : SM Conn) _ = .ok (_, _) from rfl), bind_fault hfault] at h
      cases h
    have hlooked : Looked d (opened (malloced d)) := ⟨rfl, 1, 1, 0, rfl⟩
    rw [processRead_eq hm ht] at h
    cases hf : found d ent.blockNum with
    | none =>
      rw [hf] at h
      obtain ⟨hnode, hsent⟩ := sendMessage_looked
        ⟨_, _, sendHead_run ⟨opened (malloced d), []⟩, used_headed _⟩ h
      exact ⟨hlooked.trans hnode, fun a ha => .inl (hsent rfl a ha)⟩
    | some f =>
      rw [hf] at h
      obtain ⟨d', hparts, hused⟩ := sendHeadData_run ⟨opened (malloced d), []⟩
      obtain ⟨hnode, hsent⟩ := sendMessage_looked ⟨_, _, hparts, hused⟩ h
      refine ⟨hlooked.trans hnode, fun a ha => .inr ⟨f, ?_, hsent rfl a ha⟩⟩
      unfold found at hf
      split at hf
      · exact hf
      · cases hf

/-- Nothing keeps the node from answering requests for the block. -/
structure Able (d : DNode) (b : UInt64) : Prop where
  opens : ∀ k, d.env.opens k = true
  mallocs : ∀ k, d.env.mallocs k = true
  sends : ∀ k, d.env.sends k = true
  fits : TextFits d b

theorem Looked.able {d' : DNode} {b : UInt64} (h : Looked d d') (ha : Able d b) : Able d' b := by
  obtain ⟨i, j, k, henv⟩ := h.env
  refine ⟨fun n => ?_, fun n => ?_, fun n => ?_, ⟨?_, ?_⟩⟩
  · rw [henv]
    exact ha.opens (n + i)
  · rw [henv]
    exact ha.mallocs (n + j)
  · rw [henv]
    exact ha.sends (n + k)
  · rw [henv]
    exact ha.fits.flag
  · rw [henv]
    exact ha.fits.num

theorem processRead_run {f : File} (ha : Able d ent.blockNum) (hf : block d ent.blockNum = some f) :
    ∃ d', processRead ent ⟨d, []⟩ = .ok ((), ⟨d', [okRead ent.length (readBytes d.env.stray f
      ent.offset.toNat ent.length.toNat)]⟩) ∧ Looked d d' := by
  obtain ⟨d', hparts, hused⟩ := sendHeadData_run ⟨opened (malloced d), []⟩
  have hall : ((opened (malloced d)).env.mallocs 0 && (opened (malloced d)).env.sends 0 &&
      (opened (malloced d)).env.sends 1) = true := by
    rw [Bool.and_eq_true, Bool.and_eq_true]
    exact ⟨⟨ha.mallocs 1, ha.sends 0⟩, ha.sends 1⟩
  have hlooked : Looked d (opened (malloced d)) := ⟨rfl, 1, 1, 0, rfl⟩
  refine ⟨d', ?_, hlooked.trans (looked_used hused)⟩
  have hfound : found d ent.blockNum = some f := (if_pos (ha.opens 0)).trans hf
  rw [processRead_eq (ha.mallocs 0) ha.fits, hfound, Option.elim_some, sendMessage_run hparts,
    if_pos hall]
  rfl

end Serving

/-! ## The bytes of a block -/

/-- The entry is about the block `i`, names nodes of it only, and keeps to the bytes that there
are. -/
def ReadsAt (recs : List Rec) (content : Str) (i : Nat) (e : BlockEntry) : Prop :=
  ∃ r, recs[i]? = some r ∧ e.blockId = .ofNat r.num ∧
    (∀ j, e.dNodes j ≠ 0 → Replica r (e.dNodes j)) ∧
    e.offsetInBlock.toNat + e.lengthInBlock.toNat ≤ BLOCKSIZE ∧
    i * BLOCKSIZE + e.offsetInBlock.toNat + e.lengthInBlock.toNat ≤ content.length

section Content

variable {recs : List Rec} {content : Str} {nodes : UInt32 → Option DNode}
    {e : BlockEntry} {i : Nat}

theorem readBytes_content {stray : Bytes} {f : File} {offset start length : Nat}
    (hin : ∀ k < length, byteOf (some f) (offset + k) = content[start + k]?)
    (hlen : start + length ≤ content.length) :
    readBytes stray f offset length = slice content start length := by
  have hbyte : ∀ k < length, offset + k < f.size ∧ content[start + k]?
    = some (f.bytes (offset + k)) := by
    intro k hk
    have hx := hin k hk
    rw [List.getElem?_eq_getElem (by omega)] at hx ⊢
    obtain ⟨hsize, hval⟩ := byteOf_some.mp hx
    exact ⟨hsize, congrArg some hval.symm⟩
  have havail : f.avail offset length = length := by
    unfold File.avail
    by_cases hzero : length = 0
    · omega
    · have hlast := (hbyte (length - 1) (by omega)).1
      omega
  apply List.ext_getElem?
  intro k
  unfold readBytes slice
  rw [List.getElem?_map, havail]
  by_cases hk : k < length
  · rw [List.getElem?_range hk, List.getElem?_take_of_lt hk, List.getElem?_drop, (hbyte k hk).2,
      Option.map_some]
    unfold blit
    rw [if_pos (by omega), Nat.sub_zero]
  · rw [List.getElem?_eq_none (by rw [List.length_range]; omega),
      List.getElem?_eq_none (by rw [List.length_take]; omega)]
    rfl

/-- A node of the block gives the bytes that belong there. -/
theorem block_content {stray : Bytes} {j : Fin (REDUNDANCY + 1)} {d : DNode} {f : File}
    (h : Mirrors recs content nodes) (hr : ReadsAt recs content i e) (hj : e.dNodes j ≠ 0)
    (hd : nodes (e.dNodes j) = some d) (hf : block d e.blockId = some f) :
    readBytes stray f e.offsetInBlock.toNat e.lengthInBlock.toNat
      = slice content (i * BLOCKSIZE + e.offsetInBlock.toNat) e.lengthInBlock.toNat := by
  obtain ⟨r, hrec, hid, hnodes, hin, hend⟩ := hr
  refine readBytes_content (fun k hk => ?_) hend
  have hpos : (i * BLOCKSIZE + e.offsetInBlock.toNat + k) / BLOCKSIZE = i ∧
      (i * BLOCKSIZE + e.offsetInBlock.toNat + k) % BLOCKSIZE = e.offsetInBlock.toNat + k := by
    dsimp only [BLOCKSIZE] at hin ⊢
    omega
  have hx := List.getElem?_eq_getElem
    (show i * BLOCKSIZE + e.offsetInBlock.toNat + k < content.length by omega)
  have hbyte := h _ _ r _ d hx (by rw [hpos.1]; exact hrec) (hnodes j hj) hd
  rw [hx, ← hbyte, hpos.2, ← hid, hf]

/-- A node of a block with bytes has a file for it. -/
theorem block_there {j : Fin (REDUNDANCY + 1)} {d : DNode} (h : Mirrors recs content nodes)
    (hr : ReadsAt recs content i e) (hi : i * BLOCKSIZE < content.length) (hj : e.dNodes j ≠ 0)
    (hd : nodes (e.dNodes j) = some d) : ∃ f, block d e.blockId = some f := by
  obtain ⟨r, hrec, hid, hnodes, -⟩ := hr
  have hpos : i * BLOCKSIZE / BLOCKSIZE = i := Nat.mul_div_cancel _ (by decide)
  have hbyte :=
    h _ _ r _ d (List.getElem?_eq_getElem hi) (by rw [hpos]; exact hrec) (hnodes j hj) hd
  rw [← hid] at hbyte
  cases hf : block d e.blockId with
  | none =>
    rw [hf] at hbyte
    cases hbyte
  | some f => exact ⟨f, rfl⟩

end Content

/-! ## A request of the client -/

/-- Nothing is written: the nodes that are left have looked at their files at most. -/
structure Unwritten (s s' : Cluster) : Prop where
  ctrl : s'.ctrl = s.ctrl
  nodes : ∀ a d', s'.nodes a = some d' → ∃ d, s.nodes a = some d ∧ Looked d d'

theorem Unwritten.refl (s : Cluster) : Unwritten s s := ⟨rfl, fun _ d' h => ⟨d', h, Looked.refl _⟩⟩

theorem Unwritten.trans {s s₁ s' : Cluster} (h : Unwritten s s₁) (h' : Unwritten s₁ s') :
    Unwritten s s' := by
  refine ⟨h'.ctrl.trans h.ctrl, fun a d' hd' => ?_⟩
  obtain ⟨d₁, hd₁, hl'⟩ := h'.nodes a d' hd'
  obtain ⟨d, hd, hl⟩ := h.nodes a d₁ hd₁
  exact ⟨d, hd, hl.trans hl'⟩

theorem Unwritten.mirrors {recs : List Rec} {content : Str} {s s' : Cluster} (h : Unwritten s s')
    (hm : Mirrors recs content s.nodes) : Mirrors recs content s'.nodes := by
  intro i x r a d' hx hr hrep hd'
  obtain ⟨d, hd, hl⟩ := h.nodes a d' hd'
  rw [hl.block]
  exact hm i x r a d hx hr hrep hd

theorem Unwritten.willing {s s' : Cluster} (h : Unwritten s s') (hw : AllWilling s.nodes) :
    AllWilling s'.nodes := by
  intro a d' hd'
  obtain ⟨d, hd, hl⟩ := h.nodes a d' hd'
  exact hl.willing (hw a d hd)

theorem serveFields_read {l : Login} {authCode contentLen data : Str} {e : BlockEntry}
    {entrys : List HeadEntry} (h : blockEntrys l authCode "READ" e contentLen = .ok entrys) :
    serveFields entrys data
      = processRead ⟨1, e.offsetInBlock, e.lengthInBlock, e.blockId, 0, []⟩ := by
  unfold serveFields
  rw [entryOf_request h (by decide : reqOf (ascii "READ") = some 1)]
  rfl

section Asking

variable {users : UsersInfo} {uid : Int} {l : Login} {authCode buf : Str} {e : BlockEntry}
  {j : Fin (REDUNDANCY + 1)} {s s' : Cluster}

/-- What is delivered are the bytes of the block's file. -/
theorem delivers_read {stray : Bytes} {d : DNode} {a : Answer} {data : Str}
    (ha : a = errRead ∨ ∃ f, block d e.blockId = some f ∧ a = okRead e.lengthInBlock
      (readBytes stray f e.offsetInBlock.toNat e.lengthInBlock.toNat))
    (h : Delivers e (some a) data) : ∃ f, block d e.blockId = some f ∧
      data = readBytes stray f e.offsetInBlock.toNat e.lengthInBlock.toNat := by
  rcases ha with rfl | ⟨f, hf, rfl⟩
  · cases h with
    | ok title => exact absurd title (by decide)
    | empty _ notErr => exact absurd notErr (by decide)
  · refine ⟨f, hf, ?_⟩
    have hok : (okRead e.lengthInBlock (readBytes stray f e.offsetInBlock.toNat
        e.lengthInBlock.toNat)).saysOk = true := by
      show REQUEST_OK.isPrefixOf REQUEST_OK = true
      decide
    cases h with
    | ok =>
      refine List.take_of_length_le ?_
      unfold okRead readBytes
      rw [List.length_map, List.length_range]
    | empty notOk => cases hok.symm.trans notOk

theorem askRead_done {a : Option Answer}
    (h : askNode (netLink users uid) l authCode "READ" (ascii "0") [] e j s = .ok (a, s')) :
    Unwritten s s' ∧ ∀ data, Delivers e a data → ∃ d f, s.nodes (e.dNodes j) = some d ∧
      block d e.blockId = some f ∧
      data = readBytes d.env.stray f e.offsetInBlock.toNat e.lengthInBlock.toNat := by
  obtain ⟨entrys, s₁, hcheck, h₁⟩ := bind_ok.mp h
  obtain ⟨hentrys, rfl⟩ := check_done hcheck
  obtain ⟨ok, s₂, hconnect, h₂⟩ := bind_ok.mp h₁
  change connect (e.dNodes j) s₁ = _ at hconnect
  unfold connect at hconnect
  split at hconnect
  · cases hconnect
    cases h₂
    exact ⟨⟨rfl, fun _ d' hd' => ⟨d', hd', Looked.refl _⟩⟩, fun data hdel => nomatch hdel⟩
  rename_i hup
  cases hconnect
  rw [if_pos rfl] at h₂
  change transfer (e.dNodes j) entrys [] _ = _ at h₂
  unfold transfer at h₂
  cases hnode : s₁.nodes (e.dNodes j) with
  | none => exact absurd (.inr hnode) hup
  | some d =>
    rw [hnode, serveFields_read hentrys] at h₂
    dsimp only at h₂
    cases hserve : processRead ⟨1, e.offsetInBlock, e.lengthInBlock, e.blockId, 0, []⟩ ⟨d, []⟩ with
    | error stop =>
      rw [hserve] at h₂
      cases h₂
      refine ⟨⟨rfl, fun a d' hd' => ?_⟩, fun data hdel => nomatch hdel⟩
      change Function.update s₁.nodes (e.dNodes j) none a = some d' at hd'
      by_cases ha : a = e.dNodes j
      · rw [ha, Function.update_self] at hd'
        cases hd'
      · rw [Function.update_of_ne ha] at hd'
        exact ⟨d', hd', Looked.refl _⟩
    | ok q =>
      obtain ⟨hlooked, hsent⟩ := processRead_done hserve
      rw [hserve] at h₂
      cases h₂
      refine ⟨⟨rfl, fun a d' hd' => ?_⟩, fun data hdel => ?_⟩
      · change Function.update s₁.nodes (e.dNodes j) (some q.2.node) a = some d' at hd'
        by_cases ha : a = e.dNodes j
        · rw [ha, Function.update_self] at hd'
          obtain rfl := Option.some.inj hd'
          exact ⟨d, ha ▸ hnode, hlooked⟩
        · rw [Function.update_of_ne ha] at hd'
          exact ⟨d', hd', Looked.refl _⟩
      · split at hdel
        · cases hhead : q.2.sent.head? with
          | none =>
            rw [hhead] at hdel
            cases hdel
          | some a =>
            rw [hhead] at hdel
            obtain ⟨f, hf, hdata⟩ := delivers_read (hsent a hhead) hdel
            exact ⟨d, f, rfl, hf, hdata⟩
        · cases hdel

/-- Whatever comes of it, the requests for blocks write nothing. -/
theorem readReplicas_unwritten {js : List (Fin (REDUNDANCY + 1))} {ptr : Nat}
    {k : Bool} {buf' : Str}
    (h : readReplicas (fun j => readBlock (netLink users uid) l authCode e j ptr) e js buf s
      = .ok ((k, buf'), s')) : Unwritten s s' := by
  induction js generalizing buf s with
  | nil =>
    cases h
    exact Unwritten.refl _
  | cons j js ih =>
    rw [readReplicas] at h
    split at h
    · obtain ⟨⟨r, buf₁⟩, s₁, hread, hrest⟩ := bind_ok.mp h
      obtain ⟨a, data, hask, -⟩ := readBlock_run hread
      have hstep := (askRead_done hask).1
      dsimp only at hrest
      split at hrest
      · cases hrest
        exact hstep
      · exact hstep.trans (ih hrest)
    · exact ih h

theorem readBlocks_unwritten {es : List BlockEntry} {ptr : Nat} {r : Int} {buf' : Str}
    (h : readBlocks (readBlock (netLink users uid) l authCode) es ptr buf s = .ok ((r, buf'), s')) :
    Unwritten s s' := by
  induction es generalizing ptr buf s with
  | nil =>
    cases h
    exact Unwritten.refl _
  | cons e es ih =>
    obtain ⟨⟨k, buf₁⟩, s₁, hreplicas, hrest⟩ := bind_ok.mp h
    have hstep := readReplicas_unwritten hreplicas
    dsimp only at hrest
    split at hrest
    · exact hstep.trans (ih hrest)
    · cases hrest
      exact hstep

/-- A block that was delivered has the bytes that belong there. -/
theorem fetched_content {recs : List Rec} {content : Str} {i : Nat}
    {js : List (Fin (REDUNDANCY + 1))}
    {o : Option Str} (h : Fetched (netLink users uid) l authCode e js o s s')
    (hm : Mirrors recs content s.nodes) (hr : ReadsAt recs content i e) :
    Unwritten s s' ∧ ∀ data, o = some data →
      data = slice content (i * BLOCKSIZE + e.offsetInBlock.toNat) e.lengthInBlock.toNat := by
  induction h with
  | nil => exact ⟨Unwritten.refl _, fun data hdata => nomatch hdata⟩
  | skip zero rest ih => exact ih hm
  | miss node heard fails rest ih =>
    have hstep := (askRead_done heard).1
    obtain ⟨hrest, hdata⟩ := ih (hstep.mirrors hm)
    exact ⟨hstep.trans hrest, hdata⟩
  | hit node heard delivers =>
    obtain ⟨hstep, hdel⟩ := askRead_done heard
    refine ⟨hstep, fun data hdata => ?_⟩
    cases hdata
    obtain ⟨d, f, hd, hf, rfl⟩ := hdel _ delivers
    exact block_content hm hr node hd hf

theorem allFetched_content {recs : List Rec} {content : Str} {b : Nat} {es : List BlockEntry}
    {datas : List Str} (h : AllFetched (netLink users uid) l authCode es datas s s')
    (hm : Mirrors recs content s.nodes) (hl : Listed (ReadsAt recs content) b es) :
    Unwritten s s' ∧ datas.flatten = gathered content b es := by
  induction h generalizing b with
  | nil => exact ⟨Unwritten.refl _, rfl⟩
  | cons block rest ih =>
    obtain ⟨hr, hl⟩ := listed_cons hl
    obtain ⟨hstep, hdata⟩ := fetched_content block hm hr
    obtain ⟨hrest, hflat⟩ := ih (hstep.mirrors hm) hl
    refine ⟨hstep.trans hrest, ?_⟩
    rw [List.flatten_cons, hflat, hdata _ rfl]
    rfl

end Asking

/-! ## Requests that are answered -/

/-- Every request gets to its node, and every answer back. -/
def Served (s : Cluster) : Prop := ∀ k, s.fates k = .served true

/-- The nodes have looked at their files, and are all there. -/
structure Attended (s s' : Cluster) : Prop where
  unwritten : Unwritten s s'
  alive : ∀ a d, s.nodes a = some d → ∃ d', s'.nodes a = some d' ∧ Looked d d'
  served : Served s → Served s'

/-- The entry names a node, and all nodes that it names can answer. -/
def Answerable (s : Cluster) (e : BlockEntry) : Prop :=
  HasNode e ∧ ∀ j, e.dNodes j ≠ 0 → ∃ d f, s.nodes (e.dNodes j) = some d ∧ Able d e.blockId ∧
    block d e.blockId = some f

theorem Attended.refl (s : Cluster) : Attended s s :=
  ⟨Unwritten.refl s, fun _ d h => ⟨d, h, Looked.refl _⟩, id⟩

theorem Attended.trans {s s₁ s' : Cluster} (h : Attended s s₁) (h' : Attended s₁ s') :
    Attended s s' := by
  refine ⟨h.unwritten.trans h'.unwritten, fun a d hd => ?_, fun hs => h'.served (h.served hs)⟩
  obtain ⟨d₁, hd₁, hl⟩ := h.alive a d hd
  obtain ⟨d', hd', hl'⟩ := h'.alive a d₁ hd₁
  exact ⟨d', hd', hl.trans hl'⟩

theorem Attended.answerable {s s' : Cluster} {e : BlockEntry} (h : Attended s s')
    (ha : Answerable s e) : Answerable s' e := by
  refine ⟨ha.1, fun j hj => ?_⟩
  obtain ⟨d, f, hd, hable, hf⟩ := ha.2 j hj
  obtain ⟨d', hd', hl⟩ := h.alive _ d hd
  exact ⟨d', f, hd', hl.able hable, (hl.block _).trans hf⟩

section Answering

variable (users : UsersInfo) (uid : Int) (authCode buf : Str) (ptr : Nat) {l : Login}
    {e : BlockEntry}
  {j : Fin (REDUNDANCY + 1)} {s : Cluster}

theorem blockEntrys_run (hfit : Fits l) (e : BlockEntry) (method : String) (contentLen : Str) :
    ∃ entrys, blockEntrys l authCode method e contentLen = .ok entrys := by
  unfold blockEntrys
  rw [prepareRequest_eq hfit]
  exact ⟨_, rfl⟩

theorem readReply_okRead {data : Str} (hdata : data.length = e.lengthInBlock.toNat)
    (hlen : e.lengthInBlock.toNat ≤ BLOCKSIZE) :
    readReply e (some (okRead e.lengthInBlock data))
      = .ok ((e.lengthInBlock.toNat : Int), data) := by
  have hok : (okRead e.lengthInBlock data).saysOk = true := by
    show REQUEST_OK.isPrefixOf REQUEST_OK = true
    decide
  have hvalue : valueOf (okRead e.lengthInBlock data).entrys CONTENT_LEN
      = some (decimal 0 (s32 e.lengthInBlock.toNat)) := rfl
  have hnum : u64OfInt (atoll (decimal 0 (s32 e.lengthInBlock.toNat))) = e.lengthInBlock.toNat := by
    dsimp only [BLOCKSIZE] at hlen
    rw [s32_of_lt (by omega), atoll_decimal (by omega)]
    exact u64OfInt_nat (by omega)
  have hbytes : (okRead e.lengthInBlock data).data = data := rfl
  unfold readReply
  dsimp only
  rw [if_pos hok, hvalue]
  dsimp only
  rw [hnum, if_neg (not_not.mpr rfl), hbytes, if_pos (Nat.le_of_eq hdata.symm),
    List.take_of_length_le (Nat.le_of_eq hdata)]

/-- A node that can answer delivers the block. -/
theorem readBlock_served {d : DNode} {f : File} (hfit : Fits l) (hs : Served s)
    (hd : s.nodes (e.dNodes j) = some d) (ha : Able d e.blockId) (hf : block d e.blockId = some f)
    (hlen : e.lengthInBlock.toNat ≤ BLOCKSIZE) (hroom : ptr + e.lengthInBlock.toNat ≤ buf.length) :
    ∃ s', readBlock (netLink users uid) l authCode e j ptr buf s = .ok ((e.lengthInBlock.toNat,
      overwrite buf ptr (readBytes d.env.stray f e.offsetInBlock.toNat e.lengthInBlock.toNat)), s')
        ∧
      Attended s s' := by
  obtain ⟨entrys, hentrys⟩ := blockEntrys_run authCode hfit e "READ" (ascii "0")
  obtain ⟨d', hserve, hlooked⟩ := @processRead_run ⟨1, e.offsetInBlock, e.lengthInBlock, e.blockId,
    0, []⟩ _ _ ha hf
  have hdata : (readBytes d.env.stray f e.offsetInBlock.toNat e.lengthInBlock.toNat).length
      = e.lengthInBlock.toNat := by
    unfold readBytes
    rw [List.length_map, List.length_range]
  have hcheck : check (blockEntrys l authCode "READ" e (ascii "0")) s = .ok (entrys, s) := by
    rw [hentrys]
    rfl
  have hconnect : connect (e.dNodes j) s = .ok (true, s) := by
    unfold connect
    rw [if_neg]
    rintro (hrefused | hnone)
    · cases (hs 0).symm.trans hrefused
    · cases hd.symm.trans hnone
  have htransfer : transfer (e.dNodes j) entrys [] s = .ok (some (okRead e.lengthInBlock
      (readBytes d.env.stray f e.offsetInBlock.toNat e.lengthInBlock.toNat)),
      (s.setNode (e.dNodes j) (some d')).next) := by
    unfold transfer
    rw [hd, serveFields_read hentrys]
    dsimp only
    rw [hserve]
    dsimp only
    rw [hs 0, if_pos rfl]
    rfl
  refine ⟨(s.setNode (e.dNodes j) (some d')).next, ?_, ?_⟩
  · have hreply := readReply_okRead hdata hlen
    unfold readBlock
    rw [bind_run hcheck, bind_run (show (netLink users uid).connect (e.dNodes j) s
      = _ from hconnect),
      if_pos rfl, bind_run (show (netLink users uid).transfer (e.dNodes j) entrys [] s
        = _ from htransfer),
      hreply, bind_run (show check (.ok _) _ = .ok (_, _) from rfl)]
    dsimp only
    rw [if_pos (by omega)]
    rfl
  · refine ⟨⟨rfl, fun a d₁ hd₁ => ?_⟩, fun a d₁ hd₁ => ?_, fun hs k => hs (k + 1)⟩
    · change Function.update s.nodes (e.dNodes j) (some d') a = some d₁ at hd₁
      by_cases hj : a = e.dNodes j
      · rw [hj, Function.update_self] at hd₁
        obtain rfl := Option.some.inj hd₁
        exact ⟨d, hj ▸ hd, hlooked⟩
      · rw [Function.update_of_ne hj] at hd₁
        exact ⟨d₁, hd₁, Looked.refl _⟩
    · change ∃ d₂, Function.update s.nodes (e.dNodes j) (some d') a = some d₂ ∧ _
      by_cases hj : a = e.dNodes j
      · obtain rfl := Option.some.inj (hd.symm.trans (hj ▸ hd₁))
        rw [hj, Function.update_self]
        exact ⟨d', rfl, hlooked⟩
      · rw [Function.update_of_ne hj]
        exact ⟨d₁, hd₁, Looked.refl _⟩

/-- The first node that is named delivers the block. -/
theorem readReplicas_served {recs : List Rec} {content : Str} {i : Nat}
    {js : List (Fin (REDUNDANCY + 1))} (hfit : Fits l) (hs : Served s) (ha : Answerable s e)
    (hm : Mirrors recs content s.nodes) (hr : ReadsAt recs content i e)
    (hnode : ∃ j ∈ js, e.dNodes j ≠ 0)
    (hroom : ptr + e.lengthInBlock.toNat ≤ buf.length) :
    ∃ s', readReplicas (fun j => readBlock (netLink users uid) l authCode e j ptr) e js buf s
      = .ok ((true, overwrite buf ptr (slice content (i * BLOCKSIZE + e.offsetInBlock.toNat)
        e.lengthInBlock.toNat)), s') ∧ Attended s s' := by
  have hin : e.lengthInBlock.toNat ≤ BLOCKSIZE := by
    obtain ⟨r, -, -, -, hin, -⟩ := hr
    omega
  induction js with
  | nil =>
    obtain ⟨j, hj, -⟩ := hnode
    cases hj
  | cons j js ih =>
    rw [readReplicas]
    by_cases hj : e.dNodes j = 0
    · rw [if_neg (not_not.mpr hj)]
      obtain ⟨j', hmem, hne⟩ := hnode
      refine ih ⟨j', ?_, hne⟩
      rcases List.mem_cons.mp hmem with rfl | hmem
      · exact absurd hj hne
      · exact hmem
    · obtain ⟨d, f, hd, hable, hf⟩ := ha.2 j hj
      obtain ⟨s', hread, hatt⟩ :=
        readBlock_served users uid authCode buf ptr hfit hs hd hable hf hin hroom
      refine ⟨s', ?_, hatt⟩
      rw [if_pos hj, bind_run hread]
      dsimp only
      rw [if_pos (Int.le_refl _), block_content hm hr hj hd hf]
      rfl

theorem slice_length {content : Str} {recs : List Rec} {i : Nat} (hr : ReadsAt recs content i e) :
    (slice content (i * BLOCKSIZE + e.offsetInBlock.toNat) e.lengthInBlock.toNat).length
      = e.lengthInBlock.toNat := by
  obtain ⟨r, -, -, -, -, hend⟩ := hr
  exact length_slice hend

/-- All blocks are delivered, and the nodes can answer again. -/
theorem readBlocks_attended {recs : List Rec} {content : Str} {b : Nat} {es : List BlockEntry}
    (hfit : Fits l) (hs : Served s) (ha : ∀ e ∈ es, Answerable s e)
    (hm : Mirrors recs content s.nodes)
    (hl : Listed (ReadsAt recs content) b es) (hroom : ptr + lengths es ≤ buf.length) :
    ∃ s', readBlocks (readBlock (netLink users uid) l authCode) es ptr buf s
      = .ok ((((ptr + lengths es : Nat) : Int), overwrite buf ptr (gathered content b es)), s') ∧
      Attended s s' := by
  induction es generalizing b ptr buf s with
  | nil => exact ⟨s, by rw [readBlocks, gathered, overwrite_nil]; rfl, Attended.refl s⟩
  | cons e es ih =>
    obtain ⟨hr, hl⟩ := listed_cons hl
    rw [lengths_cons] at hroom
    have hlen := slice_length hr
    have hanswer := ha e (List.mem_cons_self ..)
    have hnode : ∃ j ∈ List.finRange (REDUNDANCY + 1), e.dNodes j ≠ 0 := by
      obtain ⟨j, hj⟩ := hanswer.1
      exact ⟨j, List.mem_finRange j, hj⟩
    obtain ⟨s₁, hreplicas, hatt⟩ :=
      readReplicas_served users uid authCode buf ptr hfit hs hanswer hm hr hnode (by omega)
    have hfits : ptr + (slice content (b * BLOCKSIZE + e.offsetInBlock.toNat)
        e.lengthInBlock.toNat).length ≤ buf.length := by omega
    have hanswers : ∀ e' ∈ es, Answerable s₁ e' :=
      fun e' he' => hatt.answerable (ha e' (List.mem_cons_of_mem _ he'))
    obtain ⟨s', hrest, hatt'⟩ :=
      ih (overwrite buf ptr (slice content (b * BLOCKSIZE + e.offsetInBlock.toNat)
        e.lengthInBlock.toNat)) (ptr + e.lengthInBlock.toNat) (hatt.served hs) hanswers
        (hatt.unwritten.mirrors hm) hl (by rw [length_overwrite hfits]; omega)
    refine ⟨s', ?_, hatt.trans hatt'⟩
    rw [readBlocks, bind_run hreplicas]
    dsimp only
    rw [if_pos rfl, hrest, lengths_cons, Nat.add_assoc]
    have hjoin := @overwrite_overwrite buf _ (gathered content (b + 1) es) ptr hfits
    rw [hlen] at hjoin
    rw [hjoin]
    rfl

theorem readBlocks_served {recs : List Rec} {content : Str} {b : Nat} {es : List BlockEntry}
    (hfit : Fits l) (hs : Served s) (ha : ∀ e ∈ es, Answerable s e)
    (hm : Mirrors recs content s.nodes)
    (hl : Listed (ReadsAt recs content) b es) (hroom : ptr + lengths es ≤ buf.length) :
    ∃ s', readBlocks (readBlock (netLink users uid) l authCode) es ptr buf s
      = .ok ((((ptr + lengths es : Nat) : Int), overwrite buf ptr (gathered content b es)),
        s') := by
  obtain ⟨s', hrun, -⟩ := readBlocks_attended users uid authCode buf ptr hfit hs ha hm hl hroom
  exact ⟨s', hrun⟩

end Answering

end Sbpfs.Net.ReadSteps
