import Sbpfs.Cnode.ConnectionRuns
import Sbpfs.Cnode.LoginLaws
import Sbpfs.Dnode.Report
import Sbpfs.Libc.RecvSpec

/-!
# A report from one end to the other

What a data node sends of its list, in whatever pieces the control node receives it: a report that
has gone out whole is entered as it stands, one that was cut off is as good as none.
-/
namespace Sbpfs.Net.Reporting

open Sbpfs.Libc
open Sbpfs.Lib.Program Sbpfs.Lib.Search Sbpfs.Lib.Pack Sbpfs.Lib.Run Sbpfs.Lib.Raise
open Sbpfs.Wire.Head Sbpfs.Wire.Number Sbpfs.Wire.HeadSpec Sbpfs.Libc.Request
open Sbpfs.Libc.Table (REQUEST_OK)
open Sbpfs.Cnode.Connection Sbpfs.Cnode.Serving Sbpfs.Cnode.ConnectionRuns Sbpfs.Cnode.Message
open Sbpfs.Cnode.Libcfs Sbpfs.Cnode.DTree Sbpfs.Cnode.Ops
open Sbpfs.Cnode.Dispatch (Conn okWith)
open Sbpfs.Dnode.Blockman Sbpfs.Dnode.BlockSpec Sbpfs.Dnode.ListSpec Sbpfs.Dnode.BlockList
open Sbpfs.Dnode.Report
open Sbpfs.Cnode.Users (UsersInfo)

/-- A name for a data node: it fits its array, and neither a line end nor the mark that the control
node takes away is in it. -/
structure Dname (dname : Str) : Prop where
  fits : dname.length < 32
  nul : 0 ∉ dname
  line : Free crlf dname
  mark : Free dnodePrefix dname

/-- The fields that the control node reads. -/
def listFields (dname : Str) (n : Nat) : Dict :=
  [(ascii "Protocol", PROTOCOL), (CONTENT_LEN, decimal 0 ((8 * n : Nat) : Int)),
    (USER, dnodePrefix ++ dname), (BLOCK_NUM, decimal 0 (n : Int))]

section Messages

variable {dname : Str} {n : Nat} {numbers : List UInt64} {chunks : List Str}

/-! ## The head -/

theorem decimal_sound (n : Nat) : Free crlf (decimal 0 (n : Int)) ∧ 0 ∉ decimal 0 (n : Int) := by
  rw [decimal_nat]
  refine ⟨RecvSpec.numeral_free n, fun h => ?_⟩
  exact absurd (numeral_digits _ h) (by decide)

theorem entryOk_of {name value : Str} (hname : Free colon name ∧ Free crlf name ∧
    name ≠ ascii "Protocol" ∧ name ≠ ascii "Response" ∧ 0 ∉ name)
    (hvalue : Free crlf value ∧ 0 ∉ value) : EntryOk ⟨name, value⟩ :=
  ⟨hname.1, hname.2.1, hname.2.2.1, hname.2.2.2.1, hvalue.1, hname.2.2.2.2, hvalue.2⟩

theorem listEntries_ok (h : Dname dname) : ∀ e ∈ listEntries dname n, EntryOk e := by
  have huser : Free crlf (ascii "DNode_" ++ dname) ∧ 0 ∉ ascii "DNode_" ++ dname := by
    constructor
    · refine free_append (by decide) h.line fun hs => ?_
      exact absurd hs.1 (by decide)
    · rw [List.mem_append, not_or]
      exact ⟨by decide, h.nul⟩
  intro e he
  simp only [listEntries, List.mem_cons, List.not_mem_nil, or_false] at he
  rcases he with rfl | rfl | rfl
  · exact entryOk_of (by decide) (decimal_sound (8 * n))
  · exact entryOk_of (by decide) huser
  · exact entryOk_of (by decide) (decimal_sound n)

/-- The head as the control node takes it apart. -/
theorem listHead_parsed (h : Dname dname) (n : Nat) :
    ∃ head, listHead dname n = head ++ headerFlag ∧
    parseHead head = some (listFields dname n) ∧
    ∀ t, find headerFlag (listHead dname n ++ t) = some head.length := by
  have hentries : ∀ e ∈ listEntries dname n, EntryOk e := listEntries_ok h
  have htitle : TitleOk PROTOCOL := ⟨by decide, by decide, by decide⟩
  have hnames : ((listEntries dname n).map HeadEntry.name).Nodup := by
    change [CONTENT_LEN, USER, ascii "BlockNum"].Nodup
    decide
  obtain ⟨head, hhead, hparse⟩ : ∃ head, listHead dname n = head ++ crlf ++ crlf ∧
      parseHead head = some (fields PROTOCOL (listEntries dname n)) :=
    ⟨_, head_lines _ _, parseHead_lines htitle hentries hnames⟩
  refine ⟨head, ?_, hparse, fun t => ?_⟩
  · rw [hhead, List.append_assoc, headerFlag_eq]
  · have hend := @find_headerFlag PROTOCOL t _ htitle.line hentries
    have hlen : head.length = PROTOCOL.length + (entryLines (listEntries dname n)).length := by
      have hsame := congrArg List.length hhead
      unfold listHead at hsame
      simp only [List.length_append] at hsame
      omega
    rw [hlen, ← hend]
    unfold listHead
    simp only [List.append_assoc]

/-! ## The numbers -/

theorem pieces_length (numbers : List UInt64) :
    ∀ p ∈ numbers.map fun b => toLE 8 b.toNat, p.length = 8 := by
  intro p hp
  obtain ⟨b, -, rfl⟩ := List.mem_map.mp hp
  exact length_toLE 8 _

theorem numberBytes_eq (numbers : List UInt64) :
    numberBytes numbers = (numbers.map fun b => toLE 8 b.toNat).flatten := List.flatMap_def ..

theorem length_numberBytes (numbers : List UInt64) :
    (numberBytes numbers).length = 8 * numbers.length := by
  rw [numberBytes_eq, length_flatten (pieces_length numbers), List.length_map]

theorem numbersIn_bytes (numbers : List UInt64) :
    numbersIn numbers.length (numberBytes numbers) = numbers.map UInt64.toNat := by
  apply List.ext_getElem
  · unfold numbersIn
    simp
  · intro i hi hi'
    rw [List.length_map] at hi'
    have hslice : slice (numberBytes numbers) (8 * i) 8 = toLE 8 numbers[i].toNat := by
      have hpiece : (numbers.map fun b => toLE 8 b.toNat)[i]? = some (toLE 8 numbers[i].toNat) := by
        rw [List.getElem?_map, List.getElem?_eq_getElem hi', Option.map_some]
      rw [numberBytes_eq, slice_flatten (pieces_length numbers) hpiece]
    have hlt := numbers[i].toNat_lt
    simp only [numbersIn, List.getElem_map, List.getElem_range]
    rw [hslice, ofLE_toLE]
    exact Nat.mod_eq_of_lt (hlt.trans_eq (by decide))

/-- The numbers are unpacked as they were packed. -/
theorem unpackNumbers_bytes {room : Nat} (hroom : numbers.length ≤ room)
    (hlen : numbers.length < 2 ^ 63) :
    unpackNumbers room (numbers.length : Int) (numberBytes numbers)
      = .ok (numbers.map UInt64.toNat) := by
  unfold unpackNumbers
  rw [if_neg (by omega), if_neg (by omega), Int.toNat_natCast, if_pos (length_numberBytes numbers),
    numbersIn_bytes]

/-! ## The message -/

/-- The mark in front of a name is taken away. -/
theorem dnodeName_fields (h : Dname dname) : dnodeName (listFields dname n) = dname := by
  have hne : dnodePrefix ≠ [] := by decide
  have hfront := split_append hne (by decide : Borderless dnodePrefix) [] dname
  rw [List.nil_append, split_free hne (free_nil hne), split_free hne h.mark] at hfront
  have huser : ((listFields dname n).get USER).getD [] = dnodePrefix ++ dname := rfl
  unfold dnodeName Sbpfs.Cnode.Connection.remove
  rw [huser, hfront]
  simp

theorem handler_fields (data : Str) :
    handler (listFields dname n) data = .ok (.dnode (listFields dname n) data) := by
  have huser : (listFields dname n).get (ascii "User") = some (dnodePrefix ++ dname) := rfl
  have hclient : ¬ clientPrefix <+: dnodePrefix ++ dname := by
    have hshape : clientPrefix = 0x43 :: clientPrefix.tail := rfl
    have hshape' : dnodePrefix ++ dname = 0x44 :: (dnodePrefix.tail ++ dname) := rfl
    rw [hshape, hshape', List.cons_prefix_cons]
    exact fun hp => absurd hp.1 (by decide)
  unfold handler
  rw [huser]
  dsimp only
  rw [if_neg hclient, if_pos (List.prefix_append ..)]

/-- Once the head has come, the message is read if the numbers come, in whatever pieces. -/
theorem readmsg_body {got : Str} (h : Dname dname) (hne : ∀ s ∈ chunks, s ≠ [])
    (hflat : chunks.flatten = listHead dname n ++ got) (hgot : got.length ≤ 8 * n) :
    readmsgFrom chunks
      = if got.length < 8 * n then .error .closed else .ok (listFields dname n, got) := by
  obtain ⟨head, hhead, hparse, hfind⟩ := listHead_parsed h n
  have hfirst : find headerFlag chunks.flatten = some head.length := hflat ▸ hfind got
  obtain ⟨k, hread, hreach, -⟩ := readHead_of_find hfirst (List.nil_append chunks.flatten).symm hne
  simp only [List.nil_append] at hread hreach
  have hstream : (chunks.take k).flatten ++ (chunks.drop k).flatten = chunks.flatten := by
    rw [← List.flatten_append, List.take_append_drop]
  -- what came with the head
  obtain ⟨data, hdata⟩ : head ++ headerFlag <+: (chunks.take k).flatten := by
    refine List.prefix_of_prefix_length_le ⟨_, rfl⟩ ⟨_, hstream.trans (hhead ▸ hflat)⟩ ?_
    rw [List.length_append]
    exact hreach
  have hbody : data ++ (chunks.drop k).flatten = got := by
    rw [hflat, hhead, ← hdata, List.append_assoc] at hstream
    exact List.append_cancel_left hstream
  have hsplit : splitMessage (chunks.take k).flatten = (head, data) := by
    refine splitMessage_of_find ?_ hdata.symm
    obtain ⟨j, hj⟩ := Option.isSome_iff_exists.mp ((find_flag_iff hfirst hstream.symm).mpr hreach)
    have hlong := find_append_right hj (chunks.drop k).flatten
    rw [hstream, hfirst] at hlong
    rw [hj, hlong]
  have hfields : readFields (chunks.take k).flatten = some (listFields dname n) := by
    show parseHead (splitMessage _).1 = _
    rw [hsplit]
    exact hparse
  have hprotocol : ((listFields dname n).get (ascii "Protocol")).getD [] = VERSION := rfl
  have hlength : (listFields dname n).get (ascii "Content-Length")
      = some (decimal 0 ((8 * n : Nat) : Int)) := rfl
  rw [readmsgFrom_eq (fun s hs => hne s (List.mem_of_mem_drop hs)) hread]
  unfold readmsg
  rw [hsplit, hfields]
  dsimp only
  rw [hprotocol, if_neg (fun hv => hv rfl), hlength]
  dsimp only
  rw [pyInt_decimal]
  dsimp only
  rw [hbody]
  have hlens := congrArg List.length hbody
  rw [List.length_append] at hlens
  by_cases hless : data.length < 8 * n
  · rw [if_pos (by omega)]
    by_cases hshort : got.length < 8 * n
    · rw [if_pos (by omega), if_pos hshort]
    · rw [if_neg (by omega), if_neg hshort, Int.toNat_natCast, List.take_of_length_le hgot]
  · have hnil : (chunks.drop k).flatten = [] := List.length_eq_zero_iff.mp (by omega)
    rw [if_neg (by omega), if_neg (by omega), ← hbody, hnil, List.append_nil]

theorem readmsg_whole (h : Dname dname) (hne : ∀ s ∈ chunks, s ≠ [])
    (hcut : chunks.flatten = listMessage dname numbers) :
    readmsgFrom chunks = .ok (listFields dname numbers.length, numberBytes numbers) := by
  have hlen := length_numberBytes numbers
  rw [readmsg_body h hne hcut hlen.le, if_neg (by omega)]

/-- Without the end of a head nothing is read. -/
theorem readHead_none {buffer : Str} (hne : ∀ s ∈ chunks, s ≠ [])
    (h : find headerFlag (buffer ++ chunks.flatten) = none) : readHead buffer chunks = none := by
  induction chunks generalizing buffer with
  | nil =>
    rw [List.flatten_nil, List.append_nil] at h
    rw [readHead, h]
    rfl
  | cons s chunks ih =>
    have hbuffer : find headerFlag buffer = none := by
      cases hfind : find headerFlag buffer with
      | none => rfl
      | some i =>
        have hlong := find_append_right hfind (s :: chunks).flatten
        cases h.symm.trans hlong
    rw [List.flatten_cons, ← List.append_assoc] at h
    have hs : s ≠ [] := hne s (List.mem_cons_self ..)
    rw [readHead, hbuffer, if_neg (by decide), if_neg hs]
    exact ih (fun t ht => hne t (List.mem_cons_of_mem _ ht)) h

/-- A message that is cut off is given up when the connection ends. -/
theorem readmsg_cut (h : Dname dname) (hne : ∀ s ∈ chunks, s ≠ [])
    (hfront : chunks.flatten <+: listMessage dname numbers)
    (hcut : chunks.flatten ≠ listMessage dname numbers) : readmsgFrom chunks = .error .closed := by
  obtain ⟨head, hhead, -, hfind⟩ := listHead_parsed h numbers.length
  obtain ⟨tail, htail⟩ := hfront
  cases hflag : find headerFlag chunks.flatten with
  | none =>
    have hnone : readHead [] chunks = none := readHead_none hne (by rwa [List.nil_append])
    unfold readmsgFrom
    rw [hnone]
  | some i =>
    have hi : i = head.length := by
      have hlong := find_append_right hflag tail
      rw [htail, listMessage, hfind] at hlong
      exact (Option.some.inj hlong).symm
    -- the head has come, and not all of the numbers
    obtain ⟨got, hgot⟩ : listHead dname numbers.length <+: chunks.flatten := by
      refine List.prefix_of_prefix_length_le ⟨_, rfl⟩ ⟨tail, htail⟩ ?_
      rw [hhead, List.length_append, ← hi]
      exact find_length hflag
    have hbody : got ++ tail = numberBytes numbers := by
      rw [← hgot, listMessage, List.append_assoc] at htail
      exact List.append_cancel_left htail
    have hpos : 0 < tail.length := by
      refine List.length_pos_iff.mpr fun hnil => hcut ?_
      rw [← htail, hnil, List.append_nil]
    have hlens := congrArg List.length hbody
    rw [length_numberBytes, List.length_append] at hlens
    rw [readmsg_body h hne hgot.symm (by omega), if_pos (by omega)]

/-! ## What becomes of it -/

variable {order : List Str} {room : Nat} {addr : Str} {users : UsersInfo} {c : Conn}

theorem reported_fields (hroom : numbers.length ≤ room) (hlen : numbers.length < 2 ^ 63) :
    reported room (listFields dname numbers.length) (numberBytes numbers)
      = some (numbers.map UInt64.toNat) := by
  have hget : (listFields dname numbers.length).get BLOCK_NUM
      = some (decimal 0 (numbers.length : Int)) := rfl
  unfold reported
  rw [hget]
  simp only [Option.bind_eq_bind, Option.bind_some, pyInt_decimal, unpackNumbers_bytes hroom hlen]
  rfl

/-- The control node enters the numbers under the name and the address, and says so. -/
structure Entered (users : UsersInfo) (p : Peer) (l : List Nat) (dname : Str)
    (c : Conn) : Prop where
  reports : p.reports = some (l, dname)
  served : ∃ n', addBlockInfo p.order l dname p.addr c.node = .ok (.ok (), n') ∧
    serveConnection p.order p.room p.addr users p.chunks c
      = .ok (.ok (), ⟨n', c.sent ++ [okWith [] .none]⟩)

/-- The control node does nothing, and says nothing. -/
structure Ignored (users : UsersInfo) (p : Peer) (c : Conn) : Prop where
  reports : p.reports = none
  served : serveConnection p.order p.room p.addr users p.chunks c = .ok (.ok (), c)

variable {p : Peer}

theorem entered_whole (h : Dname dname) (hne : ∀ s ∈ p.chunks, s ≠ [])
    (hcut : p.chunks.flatten = listMessage dname numbers) (hroom : numbers.length ≤ p.room)
    (hlen : numbers.length < 2 ^ 63) (c : Conn) :
    Entered users p (numbers.map UInt64.toNat) dname c := by
  have hread := readmsg_whole h hne hcut
  have hreported : reported p.room (listFields dname numbers.length) (numberBytes numbers)
      = some (numbers.map UInt64.toNat) := reported_fields hroom hlen
  have hname : dnodeName (listFields dname numbers.length) = dname := dnodeName_fields h
  have hmessage : messageOf p.chunks
      = some (.dnode (listFields dname numbers.length) (numberBytes numbers)) := by
    unfold messageOf
    rw [hread]
    simp only [Except.toOption, Option.bind_some, handler_fields]
  constructor
  · unfold Peer.reports
    rw [hmessage, Option.bind_some]
    change (reported p.room _ _).map _ = _
    rw [hreported, Option.map_some, hname]
  · obtain ⟨n', hadd, hrun⟩ := @handleDnode_accepted c _ _ p.order p.addr _ _ hreported
    rw [hname] at hadd
    refine ⟨n', hadd, ?_⟩
    unfold serveConnection
    rw [hread]
    dsimp only
    rw [handler_fields]
    exact hrun

theorem ignored_cut (h : Dname dname) (hne : ∀ s ∈ p.chunks, s ≠ [])
    (hfront : p.chunks.flatten <+: listMessage dname numbers)
    (hcut : p.chunks.flatten ≠ listMessage dname numbers) (c : Conn) : Ignored users p c := by
  have hread := readmsg_cut h hne hfront hcut
  constructor
  · unfold Peer.reports messageOf
    rw [hread]
    rfl
  · unfold serveConnection
    rw [hread]
    rfl

/-- What the control node makes of what a data node has sent, in whatever pieces it comes. -/
theorem sent_registers {r : Bool} {out : Str} (h : Dname dname) (hsent : Sent dname numbers r out)
    (hlen : numbers.length < 2 ^ 63) (users : UsersInfo) (p : Peer)
    (hne : ∀ s ∈ p.chunks, s ≠ []) (hcut : p.chunks.flatten = out)
    (hroom : numbers.length ≤ p.room) (c : Conn) :
    (out = listMessage dname numbers → Entered users p (numbers.map UInt64.toNat) dname c) ∧
      (out ≠ listMessage dname numbers → Ignored users p c) := by
  subst hcut
  exact ⟨fun hwhole => entered_whole h hne hwhole hroom hlen c,
    fun hpart => ignored_cut h hne hsent.front hpart c⟩

/-- The report of one block, which the data nodes have a function for and never send: the control
node would enter the block. -/
theorem success_registers {d : DNode} (hname : Dname dname) (cut : Nat) (b : UInt64) :
    ∃ r c', sendSuccess cut dname b ⟨d, []⟩ = .ok (r, c') ∧ Used d c'.node ∧
      Sent dname [b] r c'.out ∧
      ∀ (users : UsersInfo) (p : Peer), (∀ s ∈ p.chunks, s ≠ []) →
        p.chunks.flatten = c'.out → 1 ≤ p.room → ∀ c,
          (c'.out = listMessage dname [b] → Entered users p [b.toNat] dname c) ∧
            (c'.out ≠ listMessage dname [b] → Ignored users p c) := by
  obtain ⟨r, c', hrun, honly, hsent⟩ := sendSuccess_run cut b hname.fits
  exact ⟨r, c', hrun, honly, hsent, fun users p hne hcut hroom c =>
    sent_registers hname hsent (by simp) users p hne hcut hroom c⟩

/-- The data node is told so, in whatever order the fields of the reply come. -/
theorem getReply_ok {fields : Dict} (h : fields.Perm (okWith [] .none).fields) :
    getReply true (some (genHead (okWith [] .none).statusline fields ++ [0])) = .ok true := by
  have hentries : ∀ e ∈ entries fields, EntryOk e := by
    intro e he
    obtain ⟨f, hf, rfl⟩ := List.mem_map.mp he
    have hmem : f ∈ [(USER, ascii "CNode_0"), (CONTENT_LEN, ascii "0")] := h.subset hf
    simp only [List.mem_cons, List.not_mem_nil, or_false] at hmem
    rcases hmem with rfl | rfl
    · exact entryOk_of (by decide) (by decide)
    · exact entryOk_of (by decide) (by decide)
  have htitle : TitleOk (okWith [] .none).statusline := ⟨by decide, by decide, by decide⟩
  have hroom : (entries fields).length ≤ MAX_ENTRY_IN_HEAD := by
    unfold entries
    rw [List.length_map, h.length_eq]
    decide
  obtain ⟨head, hdecode, hheadTitle, -, -⟩ := @decodeHead_bytes _ [0] _ htitle hentries hroom
  have htext : cstr (genHead (okWith [] .none).statusline fields ++ [0]) 0 ≠ [] := by
    rw [genHead_eq, cstr_head (head_nul htitle hentries)]
    intro hnil
    have hlen := congrArg List.length hnil
    simp only [List.length_append, List.length_nil] at hlen
    have hline : crlf.length = 2 := rfl
    omega
  rw [← genHead_eq] at hdecode
  unfold getReply
  dsimp only
  rw [if_neg htext, hdecode]
  change Except.ok (decide (head.title = REQUEST_OK)) = _
  rw [hheadTitle]
  rfl

/-- A data node that is started again after any run of calls, whatever its memory holds, has the
lists that it had, and reports just the blocks that are listed, each of them once. The control node
enters a report that has gone out whole, in whatever pieces it comes in, and says so; one that was
cut off it ignores. -/
theorem restart_registers {s : Session} {d d₁ : DNode} (h : Reach Fresh FittingStep s)
    (hnode : s.node = some d) (hfiles : d₁.files = d.files)
    (ho : d₁.env.opens 0 = true ∧ d₁.env.opens 1 = true) (hname : Dname dname) (cut : Nat) :
    ∃ r c' numbers, start cut dname ⟨d₁, []⟩ = .ok (r, c') ∧ Lists ⟨some c'.node, s.listed⟩ ∧
      numbers.Nodup ∧ numbers.toFinset = s.listed ∧ Sent dname numbers r c'.out ∧
      (∀ (users : UsersInfo) (p : Peer), (∀ s ∈ p.chunks, s ≠ []) →
        p.chunks.flatten = c'.out → s.listed.card ≤ p.room → ∀ c,
          (c'.out = listMessage dname numbers → Entered users p (numbers.map UInt64.toNat) dname c)
          ∧
            (c'.out ≠ listMessage dname numbers → Ignored users p c)) ∧
      ∀ fields : Dict, fields.Perm (okWith [] .none).fields →
        getReply true (some (genHead (okWith [] .none).statusline fields ++ [0])) = .ok true := by
  obtain ⟨d', n, num, hnode', hlisting, hlisted⟩ := lists_run h
  obtain rfl : d = d' := Option.some.inj (hnode.symm.trans hnode')
  obtain ⟨r, c', hrun, hlisting', hsent⟩ :=
    start_run cut ((onFile_of_listing hlisting).files hfiles) ho hname.fits
  have hnodup : (numbersOf n num).Nodup := by
    refine List.Nodup.map_on (fun i hi j hj hij => ?_) List.nodup_range
    exact hlisting.distinct i (List.mem_range.mp hi) j (List.mem_range.mp hj) hij
  have hset : (numbersOf n num).toFinset = s.listed := by
    rw [hlisted]
    ext b
    simp [numbersOf]
  have hcard : (numbersOf n num).length = s.listed.card := by
    rw [← hset, List.toFinset_card_of_nodup hnodup]
  have hsmall : (numbersOf n num).length < 2 ^ 63 := by
    have hfits := hlisting.fits
    simp only [BLOCKNAME] at hfits
    rw [length_numbersOf]
    omega
  refine ⟨r, c', numbersOf n num, hrun, ⟨c'.node, n, num, rfl, hlisting', hlisted⟩, hnodup, hset,
    hsent, fun users p hne hcut hroom c => ?_, fun fields => getReply_ok⟩
  exact sent_registers hname hsent hsmall users p hne hcut (hcard.trans_le hroom) c

/-- A node with two blocks, started again by a process that has just begun. -/
theorem restart_registers_haha :
    ∃ (s : Session) (d₁ : DNode) (r : Bool) (c' : Link) (numbers : List UInt64),
    s.listed.card = 2 ∧ d₁.bnum = 0 ∧ start 5 (ascii "haha") ⟨d₁, []⟩ = .ok (r, c') ∧
      numbers.toFinset = s.listed ∧ Sent (ascii "haha") numbers r c'.out := by
  obtain ⟨d, hreach, hcalm⟩ := @reach_numbers 2 (by decide)
  have hname : Dname (ascii "haha") := ⟨by decide, by decide, by decide, by decide⟩
  let d₁ : DNode := { d with blocklist := fun _ => 0, blolist := fun _ => 0, bnum := 0 }
  obtain ⟨r, c', numbers, hrun, -, -, hset, hsent, -⟩ :=
    @restart_registers _ _ d d₁ hreach rfl rfl ⟨hcalm.willing 0, hcalm.willing 1⟩ hname 5
  exact ⟨_, d₁, r, c', numbers, numbers_card (by decide), rfl, hrun, hset, hsent⟩

end Messages

end Sbpfs.Net.Reporting
