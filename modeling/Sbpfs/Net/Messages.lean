import Sbpfs.Cnode.Serving
import Sbpfs.Libc.RecvSpec
import Sbpfs.Net.Queries

/-!
# Requests and replies as bytes

A call of the client library with its messages: the request goes out as `make_head` writes it,
arrives in pieces at a `Connection` of the control node, and the bytes of the reply come back in
pieces, into a buffer that is not empty. What the client makes of them is the reply that `ask` hands
over. -/
namespace Sbpfs.Net.Messages

open Sbpfs.Lib.Program Sbpfs.Lib.Search
open Sbpfs.Wire.Head Sbpfs.Wire.HeadSpec Sbpfs.Wire.Number
open Sbpfs.Libc.Request Sbpfs.Libc.RequestSpec Sbpfs.Libc.Recv Sbpfs.Libc.RecvSpec
    Sbpfs.Libc.Transfer
open Sbpfs.Cnode.Message Sbpfs.Cnode.Connection Sbpfs.Cnode.LoginLaws Sbpfs.Cnode.RequestFields
open Sbpfs.Cnode.Libcfs Sbpfs.Cnode.ReplyLaws Sbpfs.Cnode.Serving
open Sbpfs.Cnode.Dispatch (Conn Reply dataLen serveMethod handleClient)
open Sbpfs.Net.Queries
open Sbpfs.Cnode.Users (UsersInfo)

/-! ## Replies that can be taken apart -/

/-- A reply that a client finds its way about in: fields of different names, none but the length of
the data has the words that `get_missing_len` looks for, and the head has room in the buffer. -/
structure Plain (r : Reply) : Prop where
  title : TitleOk r.statusline
  fields : ∀ e ∈ entries r.fields, EntryOk e
  names : (r.fields.map Prod.fst).Nodup
  few : r.fields.length ≤ MAX_ENTRY_IN_HEAD
  length : (CONTENT_LEN, decimal 0 (dataLen r.data : Int)) ∈ r.fields
  titleWords : Free CONTENT_LEN r.statusline
  words : ∀ e ∈ entries r.fields, e.name ≠ CONTENT_LEN → Free CONTENT_LEN (entryLine e)
  fits : (genHead r.statusline r.fields).length ≤ BUF_SIZE
  size : dataLen r.data < 2 ^ 62
  data : ∀ stray, (dataBytes stray r.data).length = dataLen r.data

section Heads

variable {title stray : Str} {d d' : Dict} {r : Reply}

theorem free_line {p q : Str} (hp : Free CONTENT_LEN p) (hq : Free CONTENT_LEN q) :
    Free CONTENT_LEN (p ++ crlf ++ q) := by
  have hlf : Free CONTENT_LEN (0x0a :: q) := free_append_cons (p := []) (by decide) (by decide) hq
  have hcr : Free CONTENT_LEN (p ++ 0x0d :: (0x0a :: q)) := free_append_cons (by decide) hp hlf
  rwa [List.append_assoc]

theorem entryLines_free {es : List HeadEntry} (h : ∀ e ∈ es, Free CONTENT_LEN (entryLine e)) :
    Free CONTENT_LEN (entryLines es) := by
  induction es with
  | nil => exact free_nil (by decide)
  | cons e es ih =>
    have hrest := ih fun e he => h e (List.mem_cons_of_mem _ he)
    have hline := free_line (h e (List.mem_cons_self ..)) hrest
    simpa [entryLines] using hline

theorem entries_perm (h : d.Perm d') : (entries d).Perm (entries d') := h.map _

theorem length_genHead_perm (h : d.Perm d') :
    (genHead title d).length = (genHead title d').length := by
  have hlines : (entryLines (entries d)).length = (entryLines (entries d')).length :=
    ((entries_perm h).flatMap_right _).length_eq
  rw [genHead_eq, genHead_eq]
  simp only [List.length_append, hlines]

/-- In whatever order the fields are listed, the head carries the length of the data. -/
theorem Plain.framed (h : Plain r) (hd : d.Perm r.fields) (stray : Str) :
    Framed (genHead r.statusline d) (dataBytes stray r.data) := by
  have hes : ∀ e ∈ entries d, EntryOk e := fun e he => h.fields e ((entries_perm hd).subset he)
  have hfits := h.fits
  rw [← length_genHead_perm hd] at hfits
  obtain ⟨pre, post, hsplit⟩ := List.append_of_mem (hd.symm.subset h.length)
  have hnodup : (d.map Prod.fst).Nodup := (hd.map Prod.fst).nodup_iff.mpr h.names
  -- the lines in front of the length do not have the words
  have hfront : Free CONTENT_LEN (r.statusline ++ crlf ++ entryLines (entries pre)) := by
    refine free_line h.titleWords (entryLines_free fun e he => ?_)
    have hmem : e ∈ entries d := by
      rw [hsplit]
      simp only [entries, List.map_append, List.mem_append]
      exact .inl he
    refine h.words e ((entries_perm hd).subset hmem) fun hname => ?_
    obtain ⟨f, hf, rfl⟩ := List.mem_map.mp he
    rw [hsplit, List.map_append, List.map_cons, List.nodup_append] at hnodup
    exact hnodup.2.2 _ (List.mem_map_of_mem hf) _ (List.mem_cons_self ..) hname
  have hhead : genHead r.statusline d = r.statusline ++ crlf ++ entryLines (entries pre) ++
      (CONTENT_LEN ++ colon ++ decimal 0 ((dataBytes stray r.data).length : Int) ++ crlf ++
        (entryLines (entries post) ++ crlf)) := by
    rw [genHead_eq, hsplit, h.data]
    simp [entries, entryLines, entryLine]
  have hlen : (genHead r.statusline d).length
      = r.statusline.length + (entryLines (entries d)).length + 4 := by
    rw [genHead_eq]
    simp only [List.length_append]
    have hcrlf : crlf.length = 2 := rfl
    omega
  refine ⟨hfits, ?_, ?_, ⟨_, _, ?_, hhead⟩, ?_⟩
  · rw [genHead_eq]
    exact head_nul h.title hes
  · have hend := @find_headerFlag r.statusline [] _ h.title.line hes
    rw [List.append_nil, ← List.append_assoc, ← genHead_eq] at hend
    rw [hend, hlen, Nat.add_sub_cancel]
  · rw [hhead]
    simp only [List.append_assoc _ colon, List.append_assoc CONTENT_LEN]
    rw [← List.append_assoc _ CONTENT_LEN]
    exact find_append (by decide) hfront
  · have hsize := h.size
    have hdata := h.data stray
    simp only [BUF_SIZE] at hfits
    omega

end Heads

/-! ## The way there -/

/-- A user that the control node knows under this number, with the password that is sent. -/
structure Known (users : UsersInfo) (uid : Int) (l : Login) : Prop where
  line : OneLine l
  unaltered : Unaltered l.usr
  check : UsersInfo.check users (bytesOf l.usr) (bytesOf l.pass) = true
  uid : UsersInfo.findUid users (bytesOf l.usr) = some uid

section Requests

variable {users : UsersInfo} {uid : Int} {l : Login} {method argc : String} {args : List Str}
  {chunks : List Str} {msg : Str} {room : Nat}

theorem handler_client {head head' : Dict} {data data' user password : Str}
    (h : handler head data = .ok (.client user password head' data')) :
    head = head' ∧ data = data' := by
  unfold handler at h
  cases huser : head.get (ascii "User") with
  | none =>
    rw [huser] at h
    cases h
  | some u =>
    rw [huser] at h
    dsimp only at h
    by_cases hclient : clientPrefix <+: u
    · rw [if_pos hclient] at h
      cases hpass : head.get (ascii "Password") with
      | none =>
        rw [hpass] at h
        cases h
      | some w =>
        rw [hpass] at h
        cases h
        exact ⟨rfl, rfl⟩
    · rw [if_neg hclient] at h
      split at h <;> cases h

/-- A request in pieces is read as it was written. -/
theorem readmsgFrom_request (hl : OneLine l) (hun : Unaltered l.usr)
    (hmethod : Free crlf (ascii method))
    (hargc : Free crlf (ascii argc)) (hargs : ∀ a ∈ args, Free crlf a) (hfew : args.length ≤ 27)
    (hne : ∀ c ∈ chunks, c ≠ []) (hcut : request l method argc args = .ok (some chunks.flatten)) :
    ∃ data, readmsgFrom chunks = .ok (requestFields l method argc args, data) ∧
      handler (requestFields l method argc args) data
        = .ok (.client (bytesOf l.usr) (bytesOf l.pass)
          (requestFields l method argc args) data) := by
  obtain ⟨msg, hmsg, hclient⟩ := (identified_iff hl hmethod hargc hargs hfew).mpr hun
  obtain rfl := Option.some.inj (Except.ok.inj (hcut.symm.trans hmsg))
  have hbytes := hcut.symm.trans (request_msg hun.1 method argc hfew)
  have hflatten := Option.some.inj (Except.ok.inj hbytes)
  have hflag : ¬ Free headerFlag chunks.flatten := hflatten ▸ message_flag l method argc args
  obtain ⟨i, hfind⟩ := Option.ne_none_iff_exists'.mp (mt (find_eq_none (by decide)).mp hflag)
  obtain ⟨k, hread, hlong, -⟩ := readHead_of_find hfind (List.nil_append chunks.flatten).symm hne
  simp only [List.nil_append] at hread hlong
  have hsplit : (chunks.take k).flatten ++ (chunks.drop k).flatten = chunks.flatten := by
    rw [← List.flatten_append, List.take_append_drop]
  have hflag' : ¬ Free headerFlag (chunks.take k).flatten := by
    have hsome := (find_flag_iff hfind hsplit.symm).mpr hlong
    obtain ⟨j, hj⟩ := Option.isSome_iff_exists.mp hsome
    intro hfree
    rw [(find_eq_none (by decide)).mpr hfree] at hj
    cases hj
  obtain ⟨head, data, hrun⟩ := hclient _ _ hsplit hflag'
  obtain ⟨hfields, -⟩ := run_client_inv hrun
  obtain rfl : head = requestFields l method argc args := by
    rw [← readFields_received hflag' (chunks.drop k).flatten, hsplit, hflatten,
      readFields_all hl hmethod hargc hargs] at hfields
    exact (Option.some.inj hfields).symm
  have hfrom := readmsgFrom_eq (fun s hs => hne s (List.mem_of_mem_drop hs)) hread
  unfold run at hrun
  cases hmessage : readmsg (chunks.take k).flatten (chunks.drop k).flatten with
  | error e =>
    rw [hmessage] at hrun
    cases hrun
  | ok m =>
    rw [hmessage] at hrun hfrom
    have hhandler : handler m.1 m.2 = .ok (.client (bytesOf l.usr) (bytesOf l.pass)
        (requestFields l method argc args) data) := hrun
    obtain ⟨hhead, hdata⟩ := handler_client hhandler
    rw [hhead, hdata] at hhandler
    exact ⟨data, hfrom.trans (congrArg Except.ok (Prod.ext hhead hdata)), hhandler⟩

/-- The control node serves the request of a user it knows as the call of the method that it is. -/
theorem serveConnection_request {order : List Str} {addr : Str} (h : Known users uid l)
    (hmethod : Free crlf (ascii method)) (hargc : Free crlf (ascii argc))
    (hargs : ∀ a ∈ args, Free crlf a)
    (hnum : pyInt (ascii argc) = some (args.length : Int)) (hfew : args.length ≤ 27)
    (hroom : args.length ≤ room) (hne : ∀ c ∈ chunks, c ≠ [])
    (hcut : request l method argc args = .ok (some chunks.flatten)) (c : Conn) :
    serveConnection order room addr users chunks c
      = inServe (serveMethod users uid (ascii method) args) c := by
  obtain ⟨data, hread, hhandler⟩ :=
    readmsgFrom_request h.line h.unaltered hmethod hargc hargs hfew hne hcut
  have hserve := @serveRequest_run users room uid _ _ _ _ args c
    (requestFields_method l method argc args)
    (requestFields_argc l method argc args) hnum (by omega) (by omega)
    (by rw [Int.toNat_natCast]; exact requestFields_args l method argc args)
  unfold serveConnection
  rw [hread]
  dsimp only
  rw [hhandler]
  change inServe (handleClient users room (bytesOf l.usr) (bytesOf l.pass) _) c = _
  unfold handleClient inServe
  rw [if_pos h.check, h.uid]
  dsimp only
  rw [hserve]

end Requests

/-! ## The way back -/

/-- `SBP_SEND_AND_PROCESS_REPLY` from `sbp_recv` on, with what `recv` returns; `none` for its error
exits. The data begin behind the head. -/
def processReply (stale : { s : Str // s.length = BUF_SIZE }) (pieces : List Str) :
    Except Stop (Option Answer) := do
  match ← sbpRecv true stale pieces with
  | none => return none
  | some (recData, _) =>
    if cstr recData 0 = [] then return none
    else
      let head ← decodeHead true recData
      return head.map fun head => ⟨head.title, head.strings, recData.drop head.headLen⟩

/-- What is received for a reply: the entries come in another order, and behind the data there is
the NUL of `sbp_recv`. -/
structure Same (a b : Answer) : Prop where
  title : a.title = b.title
  entrys : a.entrys.Perm b.entrys
  names : (b.entrys.map HeadEntry.name).Nodup
  length : valueOf b.entrys CONTENT_LEN = some (decimal 0 (b.data.length : Int))
  size : b.data.length < 2 ^ 62
  data : a.data = b.data ++ [0]

section Replies

variable {stray : Str} {stale : { s : Str // s.length = BUF_SIZE }} {pieces : List Str} {r : Reply}
  {d : Dict}

theorem valueOf_iff {es : List HeadEntry} (h : (es.map HeadEntry.name).Nodup) {name value : Str} :
    valueOf es name = some value ↔ ⟨name, value⟩ ∈ es := by
  unfold valueOf
  constructor
  · intro hv
    obtain ⟨e, hfind, rfl⟩ := Option.map_eq_some_iff.mp hv
    have hname : e.name = name := by simpa using List.find?_some hfind
    exact hname ▸ List.mem_of_find?_eq_some hfind
  · intro hmem
    induction es with
    | nil => cases hmem
    | cons e es ih =>
      rw [List.map_cons, List.nodup_cons] at h
      rcases List.mem_cons.mp hmem with rfl | hmem
      · rw [List.find?_cons_of_pos (by simp)]
        rfl
      · have hne : e.name ≠ name := fun heq => h.1 (heq ▸ List.mem_map_of_mem hmem)
        rw [List.find?_cons_of_neg (by simpa using hne)]
        exact ih h.2 hmem

/-- Every entry is found under its name, wherever it is. -/
theorem Same.valueOf {a b : Answer} (h : Same a b) (name : Str) :
    valueOf a.entrys name = valueOf b.entrys name := by
  have hnames : (a.entrys.map HeadEntry.name).Nodup :=
    (h.entrys.map HeadEntry.name).nodup_iff.mpr h.names
  apply Option.ext
  intro value
  rw [valueOf_iff hnames, valueOf_iff h.names]
  exact h.entrys.mem_iff

theorem sbpRecv_trusted (hne : ∀ c ∈ pieces, c ≠ [])
    (h : Trusted pieces.flatten stale (stops 0 pieces)) :
    sbpRecv true stale pieces = .ok (some (pieces.flatten ++ [0], pieces.flatten.length + 1)) := by
  have hrecv := (@recvHead_whole _ stale _ _ hne (Nat.zero_le _) (Nat.zero_lt_succ 4095)
    (List.drop_zero (l := pieces.flatten))).mpr h
  rw [List.take_zero, List.nil_append, List.drop_zero] at hrecv
  rw [sbpRecv_eq]
  exact hrecv

/-- In a buffer without a line feed no head ends before that of the message does. -/
theorem trusted_clean {head body : Str} (h : Framed head body) (hclean : 0x0a ∉ stale.val)
    (hcut : pieces.flatten = head ++ body) : Trusted (head ++ body) stale (stops 0 pieces) := by
  refine (h.trusted_iff stale hcut).mpr fun pre n post _ hn _ => .inl fun q hq => ?_
  have htake : (head ++ body).take n = head.take n := List.take_append_of_le_length hn.le
  have hnul : 0 ∉ head.take n := fun hmem => h.nul (List.mem_of_mem_take hmem)
  have hlf : 0x0a ∉ ((stale.val ++ [0]).drop n).takeWhile (· ≠ 0) := by
    intro hmem
    have hin := List.mem_of_mem_drop ((List.takeWhile_prefix _).subset hmem)
    rcases List.mem_append.mp hin with hin | hin
    · exact hclean hin
    · exact absurd (List.mem_singleton.mp hin) (by decide)
  have htext : textAt (head ++ body) stale n
      = head.take n ++ ((stale.val ++ [0]).drop n).takeWhile (· ≠ 0) := by
    unfold textAt
    rw [htake, cstr_head hnul]
  have hnone : find headerFlag (textAt (head ++ body) stale n) = none := by
    refine (find_eq_none (by decide)).mpr fun hin => ?_
    rw [htext] at hin
    have hfront : headerFlag <:+: head.take n := @infix_of_append _ [0x0d, 0x0a, 0x0d] _ _ _ hlf hin
    obtain ⟨i, hi⟩ := Option.ne_none_iff_exists'.mp fun hno =>
      (find_eq_none (by decide)).mp hno hfront
    have hlong := find_append_right hi (head.drop n)
    rw [List.take_append_drop, h.ending] at hlong
    cases hlong
    have hlen := find_length hi
    have hflag : headerFlag.length = 4 := rfl
    rw [List.length_take] at hlen
    omega
  unfold announcement at hq
  rw [hnone] at hq
  cases hq

/-- Nor does it matter what was in the buffer when the head comes in one piece. -/
theorem trusted_whole {head body c : Str} {cs : List Str} (h : Framed head body)
    (hpiece : head.length ≤ c.length) (hcut : (c :: cs).flatten = head ++ body) :
    Trusted (head ++ body) stale (stops 0 (c :: cs)) := by
  have hfits := h.fits
  have hlen := congrArg List.length hcut
  rw [List.flatten_cons, List.length_append] at hlen
  rw [stops, trusted_cons]
  exact .inl (h.announces stale (by omega) (by omega))

/-- A plain reply that comes whole is read for what it is. -/
theorem processReply_plain (h : Plain r) (hd : d.Perm r.fields) (hne : ∀ c ∈ pieces, c ≠ [])
    (hcut : pieces.flatten = genHead r.statusline d ++ dataBytes stray r.data)
    (htrust : Trusted pieces.flatten stale (stops 0 pieces)) :
    ∃ a, processReply stale pieces = .ok (some a) ∧ Same a (heardOf stray r) := by
  have hes : ∀ e ∈ entries d, EntryOk e := fun e he => h.fields e ((entries_perm hd).subset he)
  have hfew : (entries d).length ≤ MAX_ENTRY_IN_HEAD := by
    rw [(entries_perm hd).length_eq]
    exact (List.length_map _).trans_le h.few
  obtain ⟨head, hdecode, htitle, hstrings, hlen⟩ :=
    @decodeHead_bytes _ (dataBytes stray r.data ++ [0]) _ h.title hes hfew
  rw [← genHead_eq] at hdecode hlen
  have hwhole : pieces.flatten ++ [0]
      = genHead r.statusline d ++ (dataBytes stray r.data ++ [0]) := by
    rw [hcut, List.append_assoc]
  have htext : cstr (pieces.flatten ++ [0]) 0 ≠ [] := by
    have hframed := h.framed hd stray
    rw [hwhole, cstr_head hframed.nul]
    intro hnil
    have hnone := find_length hframed.ending
    have hflag : headerFlag.length = 4 := rfl
    rw [(List.append_eq_nil_iff.mp hnil).1] at hnone
    simp only [List.length_nil] at hnone
    omega
  refine ⟨⟨head.title, head.strings, (pieces.flatten ++ [0]).drop head.headLen⟩, ?_, ?_⟩
  · unfold processReply
    rw [sbpRecv_trusted hne htrust]
    change (if cstr (pieces.flatten ++ [0]) 0 = [] then _ else _) = _
    rw [if_neg htext, hwhole, hdecode]
    rfl
  · have hnames : ((heardOf stray r).entrys.map HeadEntry.name).Nodup := by
      change ((r.fields.map fun f => (⟨f.1, f.2⟩ : HeadEntry)).map HeadEntry.name).Nodup
      rw [List.map_map]
      exact h.names
    refine ⟨htitle, ?_, hnames, (valueOf_iff hnames).mpr ?_, ?_, ?_⟩
    · change head.strings.Perm (entries r.fields)
      rw [hstrings]
      exact entries_perm hd
    · change _ ∈ r.fields.map fun f => (⟨f.1, f.2⟩ : HeadEntry)
      have hmem := List.mem_map_of_mem (f := fun f : Str × Str => (⟨f.1, f.2⟩ : HeadEntry)) h.length
      change (⟨CONTENT_LEN, decimal 0 ((dataBytes stray r.data).length : Int)⟩ : HeadEntry) ∈ _
      rwa [h.data]
    · exact (h.data stray).trans_lt h.size
    · change (pieces.flatten ++ [0]).drop head.headLen = dataBytes stray r.data ++ [0]
      rw [hwhole, hlen, List.drop_left]

end Replies

/-! ## A call with its messages -/

/-- The ways to cut a stream. -/
abbrev Pieces := { cut : Str → List Str // ∀ s, (cut s).flatten = s ∧ ∀ c ∈ cut s, c ≠ [] }

/-- What befalls the messages of a call: the pieces in which the request comes, the order in which
the interpreter lists the fields of a reply, the pieces in which the reply comes, and what the
buffer of the client holds before. The connection may be broken before the reply. -/
structure Passage where
  order : List Str
  room : Nat
  addr : Str
  there : Pieces
  listed : { list : Dict → Dict // ∀ d, (list d).Perm d }
  heard : Bool
  back : Pieces
  stale : { s : Str // s.length = BUF_SIZE }

namespace Passage

variable (p : Passage)

/-- The bytes of a reply. -/
def bytes (stray : Str) (r : Reply) : Str :=
  genHead r.statusline (p.listed.val r.fields) ++ dataBytes stray r.data

/-- What `recv` returns at the client. -/
def incoming (stray : Str) (sent : List Reply) : List Str :=
  if p.heard then p.back.val (sent.flatMap (p.bytes stray)) else []

/-- A request of the user to the control node, with the number of its arguments. -/
def control (users : UsersInfo) (stray : Str) (l : Login) (method : String) (args : List Str) :
    Prog CtrlNode (Option Answer) := fun n => do
  match ← request l method (toString args.length) args with
  | none => return (none, n)
  | some msg =>
    let (_, c) ← serveConnection p.order p.room p.addr users (p.there.val msg) ⟨n, []⟩
    let answer ← processReply p.stale (p.incoming stray c.sent)
    return (answer, c.node)

/-- The first text in the buffer that announces a message announces this reply. -/
def Trusting (stray : Str) (r : Reply) : Prop :=
  Trusted (p.bytes stray r) p.stale (stops 0 (p.back.val (p.bytes stray r)))

end Passage

/-- Both come to the same, up to the way the reply is written down. -/
def Agree {σ : Type} (q q' : Except Stop (Option Answer × σ)) : Prop :=
  (∃ a b s, q = .ok (a, s) ∧ q' = .ok (b, s) ∧ Option.Rel Same a b) ∨ ∃ e, q
  = .error e ∧ q' = .error e

section Calls

variable {p : Passage} {users : UsersInfo} {uid : Int} {l : Login} {method : String}
    {args : List Str}
  {stray : Str} {n : CtrlNode}

theorem argc_read {k : Nat} (h : k ≤ 3) :
    Free crlf (ascii (toString k)) ∧ pyInt (ascii (toString k)) = some (k : Int) := by
  have hall : ∀ k : Fin 4, Free crlf (ascii (toString k.val)) ∧
      pyInt (ascii (toString k.val)) = some (k.val : Int) := by
    decide
  exact hall ⟨k, Nat.lt_succ_of_le h⟩

/-- Nothing is made of a connection that is closed without a reply. -/
theorem processReply_nil (stale : { s : Str // s.length = BUF_SIZE }) :
    processReply stale [] = .ok none :=
  rfl

theorem pieces_nil (cut : Pieces) : cut.val [] = [] := by
  obtain ⟨hflatten, hne⟩ := cut.property []
  exact List.eq_nil_iff_forall_not_mem.mpr fun c hc =>
    hne c hc (List.flatten_eq_nil_iff.mp hflatten c hc)

/-- The replies to a call of a method: none, or one that can be taken apart. -/
def PlainReplies (users : UsersInfo) (uid : Int) (method : String) (args : List Str)
    (n : CtrlNode) :
    Prop :=
  ∀ q c, serveMethod users uid (ascii method) args ⟨n, []⟩ = .ok (q, c) →
    c.sent = [] ∨ ∃ r, c.sent = [r] ∧ Plain r

/-- The client trusts the right text of the replies. -/
def Trusts (p : Passage) (users : UsersInfo) (uid : Int) (stray : Str) (method : String)
    (args : List Str)
    (n : CtrlNode) : Prop :=
  ∀ q c, serveMethod users uid (ascii method) args ⟨n, []⟩ = .ok (q, c) → ∀ r ∈ c.sent,
    p.Trusting stray r

/-- Without a line feed in the client's buffer, and with pieces that do not cut heads, all replies
that can be taken apart are trusted. -/
theorem trusts_plain (hplain : PlainReplies users uid method args n)
    (h : 0x0a ∉ p.stale.val ∨ ∀ r, ∃ c cs, p.back.val (p.bytes stray r) = c :: cs ∧
      (genHead r.statusline (p.listed.val r.fields)).length ≤ c.length) :
    Trusts p users uid stray method args n := by
  intro q c hcall r hr
  have hplain : Plain r := by
    rcases hplain q c hcall with hnone | ⟨r', hone, hr'⟩
    · rw [hnone] at hr
      cases hr
    · rw [hone] at hr
      exact List.mem_singleton.mp hr ▸ hr'
  have hframed := hplain.framed (p.listed.property r.fields) stray
  obtain ⟨hback, -⟩ := p.back.property (p.bytes stray r)
  rcases h with hclean | hwhole
  · exact trusted_clean hframed hclean hback
  · obtain ⟨c, cs, hpieces, hlen⟩ := hwhole r
    unfold Passage.Trusting
    rw [hpieces] at hback ⊢
    exact trusted_whole hframed hlen hback

/-- The call with its messages does what the call does that hands over the reply itself. -/
theorem control_agrees (h : Known users uid l) (hmethod : Free crlf (ascii method))
    (hargs : ∀ a ∈ args, Free crlf a) (hfew : args.length ≤ 3) (hroom : args.length ≤ p.room)
    (hplain : PlainReplies users uid method args n)
    (htrust : Trusts p users uid stray method args n) :
    Agree (p.control users stray l method args n) (ask users uid p.heard stray method args n) := by
  obtain ⟨hargc, hnum⟩ := argc_read hfew
  have hmsg := @request_msg l h.unaltered.1 method (toString args.length) args (by omega)
  generalize PROTOCOL ++ crlf ++ entryLines (requestEntries l method (toString args.length) args) ++
    crlf
    = msg at hmsg
  obtain ⟨hflatten, hne⟩ := p.there.property msg
  have hserved := @serveConnection_request users uid l method (toString args.length) args
    (p.there.val msg)
    p.room p.order p.addr h hmethod hargc hargs hnum (by omega) hroom hne
      (by rw [hflatten, hmsg]) ⟨n, []⟩
  have hcontrol : p.control users stray l method args n = (do
      let (_, c) ← inServe (serveMethod users uid (ascii method) args) ⟨n, []⟩
      let answer ← processReply p.stale (p.incoming stray c.sent)
      return (answer, c.node)) := by
    unfold Passage.control
    rw [hmsg, ← hserved]
    rfl
  rw [hcontrol]
  unfold ask
  cases hcall : serveMethod users uid (ascii method) args ⟨n, []⟩ with
  | error e =>
    refine .inr ⟨e, ?_, rfl⟩
    unfold inServe
    rw [hcall]
    rfl
  | ok q =>
    obtain ⟨q, c⟩ := q
    have hrun : ∃ q', inServe (serveMethod users uid (ascii method) args) ⟨n, []⟩
      = .ok (q', c) := by
      unfold inServe
      rw [hcall]
      cases q <;> exact ⟨_, rfl⟩
    obtain ⟨q', hrun⟩ := hrun
    rw [hrun]
    dsimp only
    have hread : ∃ answer, processReply p.stale (p.incoming stray c.sent) = .ok answer ∧
        Option.Rel Same answer (if p.heard then c.sent.head?.map (heardOf stray) else none) := by
      unfold Passage.incoming
      cases p.heard with
      | false => exact ⟨none, processReply_nil _, .none⟩
      | true =>
        rw [if_pos rfl, if_pos rfl]
        have hmine := htrust q c hcall
        rcases hplain q c hcall with hnone | ⟨r, hone, hr⟩
        · rw [hnone, List.flatMap_nil, pieces_nil]
          exact ⟨none, processReply_nil _, .none⟩
        · rw [hone, List.flatMap_singleton]
          obtain ⟨hback, hpieces⟩ := p.back.property (p.bytes stray r)
          obtain ⟨a, hanswer, hsame⟩ := @processReply_plain stray p.stale _ r
            (p.listed.val r.fields) hr
            (p.listed.property r.fields) hpieces hback
            (by rw [hback]; exact hmine r (hone ▸ List.mem_singleton_self r))
          exact ⟨some a, hanswer, .some hsame⟩
    obtain ⟨answer, hanswer, hrel⟩ := hread
    refine .inl ⟨answer, _, c.node, ?_, rfl, hrel⟩
    change (processReply p.stale (p.incoming stray c.sent) >>= fun answer => pure (answer, c.node))
      = _
    rw [hanswer]
    rfl

end Calls

end Sbpfs.Net.Messages
