import Sbpfs.Cfs.DirectoryListing
import Sbpfs.Cnode.LostFiles
import Sbpfs.Cnode.OpenObjects
import Sbpfs.Libc.Directory
import Sbpfs.Net.FailedWrites

/-!
# Queries to the control node

The replies to `OPENDIR`, `READDIR` and `STAT` as bytes, and what the client makes of them. The type
and the name of an entry are packed as `B256s`, a header goes out as the `stat_t` that it is.
-/
namespace Sbpfs.Net.Queries

open Sbpfs.Lib.Program Sbpfs.Lib.Raise Sbpfs.Lib.Pack Sbpfs.Lib.Memory
open Sbpfs.Cfs.Layout (CStr CM Dtree World metaUid metaFlags metaFlen)
open Sbpfs.Cfs.Query hiding MAX_FILENAME
open Sbpfs.Cfs.Lookup (R permissionCheck)
open Sbpfs.Cfs.DataSpec (u64OfInt_nat)
open Sbpfs.Cfs.Rules Sbpfs.Cfs.DiskStore Sbpfs.Cfs.DirectoryListing
open Sbpfs.Cfs.BlockListing Sbpfs.Cfs.EntrySpec Sbpfs.Cfs.DiskView Sbpfs.Cfs.LookupSpec
open Sbpfs.Cfs.QuerySpec Sbpfs.Cfs.ObjectSpec
open Sbpfs.Spec.FileTree Sbpfs.Spec.Resolve
open Sbpfs.Wire.Head Sbpfs.Wire.Number Sbpfs.Libc.Request Sbpfs.Libc.RequestSpec Sbpfs.Libc.Table
open Sbpfs.Libc.Transfer Sbpfs.Libc.Directory
open Sbpfs.Cnode Sbpfs.Cnode.Pool Sbpfs.Cnode.Libcfs Sbpfs.Cnode.DTree Sbpfs.Cnode.Ops
open Sbpfs.Cnode.Dispatch Sbpfs.Cnode.ReplyLaws Sbpfs.Cnode.RequestFields Sbpfs.Cnode.LostFiles
open Sbpfs.Cnode.Frame Sbpfs.Cnode.DiskSteps
open Sbpfs.Net.Parties Sbpfs.Net.Granting Sbpfs.Net.FailedWrites
open Sbpfs.Cnode.Users (UsersInfo)

/-! ## Replies as bytes -/

/-- `struct.pack('B256s', type, name)`: the name is cut, or filled up with NULs. -/
def entryBytes (name : Str) (type : Int) : Str :=
  .ofNat type.toNat :: (name ++ List.replicate MAX_FILENAME 0).take MAX_FILENAME

/-- A `stat_t`; `stray` is what the stack held in the place of `reserver`. -/
def statBytes (st : Cfs.Query.Stat) (stray : Str) : Str :=
  toLE 8 st.size ++ toLE 8 st.atime ++ toLE 8 st.mtime ++ toLE 8 st.ctime ++ toLE 4 st.owner ++
    st.mode :: (stray ++ List.replicate 27 0).take 27

def dataBytes (stray : Str) : Value → Str
  | .blocks data => blockBytes data
  | .stat data => statBytes data stray
  | .entry name type => entryBytes name type
  | _ => []

def heardOf (stray : Str) (r : Reply) : Answer :=
  ⟨r.statusline, r.fields.map fun f => ⟨f.1, f.2⟩, dataBytes stray r.data⟩

/-- A request of the user `uid` to the control node, whose reply may get lost. The arguments are
taken for what the request says: where one of them has a line end, it does not (`control` of
`Messages`). -/
def ask (users : UsersInfo) (uid : Int) (heard : Bool) (stray : Str) (method : String)
    (args : List Str) :
    Prog CtrlNode (Option Answer) := fun n =>
  match serveMethod users uid (ascii method) args ⟨n, []⟩ with
  | .ok (_, c) => .ok (if heard then c.sent.head?.map (heardOf stray) else none, c.node)
  | .error e => .error e

section Bytes

variable {name stray : Str} {type : Int} {st : Cfs.Query.Stat} {k : UInt64}

theorem length_entryBytes (name : Str) (type : Int) :
    (entryBytes name type).length = direntSize := by
  unfold entryBytes
  rw [List.length_cons, List.length_take, List.length_append, List.length_replicate]
  simp only [MAX_FILENAME, direntSize]
  omega

theorem length_statBytes (st : Cfs.Query.Stat) (stray : Str) :
    (statBytes st stray).length = statSize := by
  unfold statBytes
  simp only [List.length_append, List.length_cons, length_toLE, List.length_take,
    List.length_replicate,
    statSize]
  omega

/-- The client gets the entry; the name may not have a NUL, and is as long as the buffer at most. -/
theorem direntAt_entryBytes (hfree : ∀ c ∈ name, c ≠ 0) (hlen : name.length ≤ MAX_FILENAME) :
    (direntAt (entryBytes name type) k).type = .ofNat type.toNat ∧
      (direntAt (entryBytes name type) k).text = name ∧
      (direntAt (entryBytes name type) k).offset = k := by
  refine ⟨rfl, ?_, rfl⟩
  have hname : (direntAt (entryBytes name type) k).name
      = name ++ List.replicate (MAX_FILENAME - name.length) 0 := by
    change (((name ++ List.replicate MAX_FILENAME 0).take MAX_FILENAME)).take MAX_FILENAME = _
    rw [List.take_take, Nat.min_self, List.take_append, List.take_of_length_le hlen,
      List.take_replicate,
      Nat.min_eq_left (Nat.sub_le _ _)]
  unfold Dirent.text
  rw [hname, List.takeWhile_append_of_pos fun c hc => by simpa using hfree c hc,
    List.takeWhile_replicate]
  simp

theorem filestatAt_statBytes (st : Cfs.Query.Stat) (stray : Str) :
    (filestatAt (statBytes st stray)).size = .ofNat st.size ∧
      (filestatAt (statBytes st stray)).atime = .ofNat st.atime ∧
      (filestatAt (statBytes st stray)).mtime = .ofNat st.mtime ∧
      (filestatAt (statBytes st stray)).ctime = .ofNat st.ctime ∧
      (filestatAt (statBytes st stray)).owner = .ofNat st.owner ∧
      (filestatAt (statBytes st stray)).mode = st.mode :=
  ⟨field64 _, field64 _, field64 _, field64 _, field32 _, rfl⟩

end Bytes

/-! ## One request -/

section Requests

variable {α : Type} {users : UsersInfo} {uid : Int} {heard : Bool} {stray : Str} {method : String}
  {args : List Str} {m : Py α} {rep : α → Value} {d : α → Dict} {n n' : CtrlNode}

/-- The method is called once. What it returns is heard, or nothing that says OK. -/
theorem ask_done {answer : Option Answer}
    (hserve : serveMethod users uid (ascii method) args
      = exceptArguments (Dispatch.answer m fun a => sendrep (d a) (rep a)))
    (h : ask users uid heard stray method args n = .ok (answer, n')) :
    ∃ q, m n = .ok (q, n') ∧
      ((∃ a, q = .ok a ∧ answer
        = if heard then some (heardOf stray (okWith (d a) (rep a))) else none) ∨
        (∃ e, q = .error e) ∧ ∀ a, answer = some a → a.saysOk = false) := by
  unfold ask at h
  rw [hserve] at h
  cases hm : m n with
  | error stop =>
    have hstop : exceptArguments (Dispatch.answer m fun a => sendrep (d a) (rep a)) ⟨n, []⟩
      = .error stop :=
      rescue_stop (rescue_stop (bind_stop (within_stop hm) _))
    rw [hstop] at h
    cases h
  | ok p =>
    obtain ⟨q, n₁⟩ := p
    have hcall : onDTree m ⟨n, []⟩ = .ok (q, ⟨n₁, []⟩) := within_run hm
    cases q with
    | ok a =>
      have hbody : (onDTree m >>= fun a => sendrep (d a) (rep a)) ⟨n, []⟩
          = .ok (.ok (), ⟨n₁, [okWith (d a) (rep a)]⟩) := bind_step hcall _
      rw [show exceptArguments (Dispatch.answer m fun a => sendrep (d a) (rep a)) ⟨n, []⟩ = _ from
        rescue_returns (rescue_returns hbody)] at h
      cases h
      exact ⟨_, rfl, .inl ⟨a, rfl, rfl⟩⟩
    | error e =>
      have hbody : (onDTree m >>= fun a => sendrep (d a) (rep a)) ⟨n, []⟩
          = (raise e : Serve Unit) ⟨n₁, []⟩ := bind_raise hcall _
      have heq : exceptArguments (Dispatch.answer m fun a => sendrep (d a) (rep a)) ⟨n, []⟩
          = exceptArguments (exceptDTree (raise e)) ⟨n₁, []⟩ := rescued_congr (rescued_congr hbody)
      rw [heq] at h
      cases hraise : exceptArguments (exceptDTree (raise e)) ⟨n₁, []⟩ with
      | error stop =>
        rw [hraise] at h
        cases h
      | ok r =>
        obtain ⟨r, c⟩ := r
        rw [hraise] at h
        cases h
        obtain ⟨hnode, hsent⟩ := raised_done hraise
        refine ⟨.error e, by rw [hnode], .inr ⟨⟨e, rfl⟩, fun a ha => ?_⟩⟩
        cases heard with
        | false => cases ha
        | true =>
          rw [if_pos rfl] at ha
          rcases hsent with hsent | ⟨reply, hsent, hline⟩
          · rw [hsent] at ha
            cases ha
          · rw [hsent] at ha
            cases ha
            show REQUEST_OK.isPrefixOf reply.statusline = false
            rw [hline]
            decide

theorem ask_run {q : Except Exc α}
    (hserve : serveMethod users uid (ascii method) args
      = exceptArguments (Dispatch.answer m fun a => sendrep (d a) (rep a)))
    (h : m n = .ok (q, n')) :
    ∃ answer, ask users uid heard stray method args n = .ok (answer, n') := by
  have hcall : onDTree m ⟨n, []⟩ = .ok (q, ⟨n', []⟩) := within_run h
  have hbody : ∃ r c, exceptArguments (Dispatch.answer m fun a => sendrep (d a) (rep a)) ⟨n, []⟩
      = .ok (r, c) ∧ c.node = n' := by
    cases q with
    | ok a => exact ⟨_, _, rescue_returns (rescue_returns (bind_step hcall _)), rfl⟩
    | error e =>
      have heq : exceptArguments (Dispatch.answer m fun a => sendrep (d a) (rep a)) ⟨n, []⟩
          = exceptArguments (exceptDTree (raise e)) ⟨n', []⟩ :=
        rescued_congr (rescued_congr (bind_raise hcall _))
      by_cases hcaught : Caught e
      · rw [heq]
        cases e with
        | dtree type msg => exact ⟨_, _, rfl, rfl⟩
        | typeError msg => exact ⟨_, _, rfl, rfl⟩
        | valueError => exact ⟨_, _, rfl, rfl⟩
        | keyError => exact hcaught.elim
        | overflowError => exact hcaught.elim
        | memoryError => exact hcaught.elim
        | unboundLocalError => exact hcaught.elim
      · rw [heq, escaped hcaught]
        exact ⟨_, _, rfl, rfl⟩
  obtain ⟨r, c, hrun, rfl⟩ := hbody
  unfold ask
  rw [hserve, hrun]
  exact ⟨_, rfl⟩

/-- The client takes the data of a reply that has as many bytes as it expects. -/
theorem announced_okWith {size : Nat} {data : Value} (hlen : dataLen data = size)
    (hbytes : (dataBytes stray data).length = size) (hsize : size < 2 ^ 31) :
    announced (heardOf stray (okWith [] data)) size = .ok (some (dataBytes stray data)) := by
  have hvalue : valueOf (heardOf stray (okWith [] data)).entrys CONTENT_LEN
      = some (decimal 0 (dataLen data : Nat)) := rfl
  refine announced_run ?_ hvalue ?_ hbytes
  · show REQUEST_OK.isPrefixOf (ascii "SBPFS/1.0 OK") = true
    decide
  · rw [atoll_decimal (by omega), hlen]
    exact u64OfInt_nat (by omega)

theorem announced_entry (name : Str) (type : Int) :
    announced (heardOf stray (okWith [] (.entry name type))) direntSize
      = .ok (some (entryBytes name type)) :=
  @announced_okWith stray direntSize (.entry name type) rfl
    (length_entryBytes name type) (by decide)

theorem announced_stat (st : Cfs.Query.Stat) :
    announced (heardOf stray (okWith [] (.stat st))) statSize = .ok (some (statBytes st stray)) :=
  @announced_okWith stray statSize (.stat st) rfl (length_statBytes st stray) (by decide)

theorem announced_err {a : Answer} {size : Nat} (h : a.saysOk = false) :
    announced a size = .ok none := by
  unfold announced
  rw [h]
  rfl

end Requests

/-! ## An entry of a directory -/

section Entries

variable {fs : Fs} {chain : Nat → List Nat} {u p fb : Nat} {fl : UInt8} {kids : List Ent}
    {n n' : CtrlNode}
  {users : UsersInfo} {uid : Int} {heard : Bool} {stray : Str} {file : FileDes} {l : Login}
  {fds fds' : Fds}
  {dirfd : Int} {d : FileDesc}

theorem serve_readdir (dd en : Str) : serveMethod users uid (ascii "READDIR") [dd, en]
    = exceptArguments (Dispatch.answer (DTree.readdir dd en uid) fun q =>
        sendrep [] (Value.entry q.1 q.2)) := by
  have hfind : doMethod (ascii "READDIR") = some .readdir := by decide
  unfold serveMethod
  rw [hfind]
  rfl

/-- A directory open at the control node: the number, and the object that it stands for. -/
structure DirAt (n : CtrlNode) (uid k : Int) (fb p : Nat) (kids : List Ent) : Prop where
  found : ∃ file, CtrlNode.getFile n uid k = some file ∧ file.type = Pool.S_DIR ∧
    (argI file.fb).toNat = fb
  disk : ∃ fs chain u fl, Store n.world.dt fs chain ∧ fs fb = some ⟨u, fl, .dir p kids⟩

/-- `readdir` with a number of an open directory, as far as the table goes. -/
theorem readdir_run {k : UInt64} (h : DirAt n uid (s64 d.serverFd.toNat) fb p kids)
    (hmem : Ample n.world.env) (hk : k.toNat < 2 ^ 60) :
    ∃ q n', DTree.readdir (decimal 0 (s64 d.serverFd.toNat)) (decimal 0 (s64 k.toNat)) uid n
        = .ok (q, n') ∧
      (((table fb p kids)[k.toNat]? = none ∧ ∃ err, q = .error err) ∨ ∃ e,
        (table fb p kids)[k.toNat]? = some e ∧ q = .ok ((shown e).1, (e.type.toNat : Int))) := by
  obtain ⟨file, hget, htype, rfl⟩ := h.found
  obtain ⟨fs, chain, u, fl, hst, ho⟩ := h.disk
  have hkeep : argK (s64 k.toNat) = k := argK_s64 _
  obtain ⟨w, hcall⟩ := cReaddir_run hst hmem ho k
  rw [Nat.mod_eq_of_lt hk] at hcall
  generalize hn₁ : ({ n with
    calls := .readdir (argI file.fb) k (argI uid) :: n.calls } : CtrlNode) = n₁
  have hworld : n₁.world = n.world := by rw [← hn₁]
  have hinC := inC_run (n := n₁) (hworld ▸ hcall)
  have hwrap : wrapCReaddir file.fb (s64 k.toNat) uid n = .ok (.ok
      (((table (argI file.fb).toNat p kids)[k.toNat]?).map fun e =>
        ((shown e).1, (e.type.toNat : Int))),
      { n₁ with world := w }) := by
    unfold wrapCReaddir
    dsimp only
    rw [hkeep, bind_step (show record (.readdir (argI file.fb) k (argI uid)) n
      = .ok (.ok (), n₁) from hn₁ ▸ rfl), bind_step hinC]
    cases (table (argI file.fb).toNat p kids)[k.toNat]? with
    | none => rfl
    | some e => rfl
  have hrun : DTree.readdir (decimal 0 (s64 d.serverFd.toNat)) (decimal 0 (s64 k.toNat)) uid n
      = (((table (argI file.fb).toNat p kids)[k.toNat]?).elim
        (raiseDTree "ReadDirError" "ReadDirError")
        fun e => return ((shown e).1, (e.type.toNat : Int)) : Py (Str × Int)) { n₁ with world :=
          w } := by
    unfold DTree.readdir
    rw [bind_step (int_some (pyInt_decimal 0 _) _), bind_step (int_some (pyInt_decimal 0 _) _),
      bind_step (findFile_some hget htype), bind_step hwrap]
    cases (table (argI file.fb).toNat p kids)[k.toNat]? with
    | none => rfl
    | some e => rfl
  rw [hrun]
  cases (table (argI file.fb).toNat p kids)[k.toNat]? with
  | none => exact ⟨_, _, rfl, .inl ⟨rfl, _, rfl⟩⟩
  | some e => exact ⟨_, _, rfl, .inr ⟨e, rfl, rfl⟩⟩

theorem shown_free (e : Ent) : ∀ c ∈ (shown e).1, c ≠ 0 := by
  intro c hc
  obtain ⟨x, -, rfl⟩ := List.mem_map.mp (List.mem_of_mem_take hc)
  exact x.property

theorem shown_short (e : Ent) : (shown e).1.length ≤ Dispatch.MAX_FILENAME :=
  (List.length_take_le _ _).trans (by decide)

/-- What comes of a `sbp_readdir`: the entry at the position of the descriptor, which moves on, or
NULL behind the last entry and where the reply gets lost. -/
theorem sbpReaddir_asked {e : Option Dirent} (h : DirAt n uid (s64 d.serverFd.toNat) fb p kids)
    (hmem : Ample n.world.env) (hk : d.offset.toNat < 2 ^ 60)
    (hn : 0 ≤ dirfd ∧ dirfd < MAX_FILE_OPEN)
    (hslot : fds dirfd.toNat = some d)
    (hrun : sbpReaddir (ask users uid heard stray) l fds dirfd n = .ok ((e, fds'), n')) :
    Quiet n n' ∧ OnlyC n n' ∧
      ((e = none ∧ fds' = fds ∧ (heard = true → (table fb p kids)[d.offset.toNat]? = none)) ∨
        ∃ x ent, e = some x ∧ (table fb p kids)[d.offset.toNat]? = some ent ∧
          x.reading = shown ent ∧
          x.offset = d.offset ∧
          fds' = setSlot fds dirfd.toNat (some { d with offset := d.offset + 1 })) := by
  obtain ⟨answer, hask, hcase⟩ := sbpReaddir_done hn hslot hrun
  obtain ⟨q, hcall, hq⟩ := ask_done (serve_readdir _ _) hask
  obtain ⟨q', n₁, hcall', hq'⟩ := readdir_run (k := d.offset) h hmem hk
  cases hcall.symm.trans hcall'
  refine ⟨(quiet_readdir _ _ _).rel hcall, (stays_readdir _ _ _).rel hcall, ?_⟩
  rcases hcase with ⟨rfl, rfl, hnone⟩ | ⟨a, data, rfl, hdata, rfl, rfl⟩
  · refine .inl ⟨rfl, rfl, ?_⟩
    rintro rfl
    rcases hq' with ⟨hout, -⟩ | ⟨ent, hent, rfl⟩
    · exact hout
    · -- a reply with an entry is taken
      rcases hq with ⟨v, hv, rfl⟩ | ⟨⟨err, herr⟩, -⟩
      · cases hv
        have htaken := hnone _ (if_pos rfl)
        rw [announced_entry] at htaken
        cases htaken
      · cases herr
  · rcases hq with ⟨v, rfl, ha⟩ | ⟨-, hno⟩
    · rcases hq' with ⟨-, err, herr⟩ | ⟨ent, hent, hv⟩
      · cases herr
      cases hv
      cases heard with
      | false => cases ha
      | true =>
        cases ha
        rw [announced_entry] at hdata
        cases hdata
        obtain ⟨htype, htext, hoff⟩ := @direntAt_entryBytes (shown ent).1
          (ent.type.toNat : Int) d.offset
          (shown_free ent) (shown_short ent)
        refine .inr ⟨_, ent, rfl, hent, Prod.ext htext ?_, hoff, rfl⟩
        change (direntAt (entryBytes (shown ent).1 ent.type.toNat) d.offset).type = ent.type
        rw [htype, Int.toNat_natCast, UInt8.ofNat_toNat]
    · have hdata' : announced a direntSize = .ok none := announced_err (hno a rfl)
      cases hdata.symm.trans hdata'

theorem sbpReaddir_returns (h : DirAt n uid (s64 d.serverFd.toNat) fb p kids)
    (hmem : Ample n.world.env)
    (hk : d.offset.toNat < 2 ^ 60) (hn : 0 ≤ dirfd ∧ dirfd < MAX_FILE_OPEN)
    (hslot : fds dirfd.toNat = some d) (hfit : Fits l) :
    ∃ e fds' n', sbpReaddir (ask users uid heard stray) l fds dirfd n = .ok ((e, fds'), n') := by
  obtain ⟨q, n₁, hcall, -⟩ := readdir_run (k := d.offset) h hmem hk
  obtain ⟨answer, hask⟩ :=
    @ask_run _ users uid heard stray _ _ _ _ _ n n₁ q (serve_readdir _ _) hcall
  have hreply : ∀ a, answer = some a → ∃ data, announced a direntSize = .ok data := by
    rintro a rfl
    obtain ⟨q', -, ⟨v, -, ha⟩ | ⟨-, hno⟩⟩ := ask_done (serve_readdir _ _) hask
    · cases heard with
      | false => cases ha
      | true =>
        cases ha
        exact ⟨_, announced_entry _ _⟩
    · exact ⟨_, announced_err (hno a rfl)⟩
  obtain ⟨e, fds', hrun⟩ := sbpReaddir_run hn hslot (prepareRequest_eq hfit) hask hreply
  exact ⟨e, fds', n₁, hrun⟩

end Entries

/-! ## The header of an object -/

/-- What a user may see of what a path names: its header, which is the first sector. -/
def shownHeader (dt : Dtree) (path : CStr) (uid : UInt32) : Option Bytes :=
  (named (entries dt) path).bind fun q =>
    if (diskView dt).may uid q.2.fb R = 0 then none else some (dt.data q.2.fb)

/-- What the client read, as the library's own `stat_t`. -/
def statRead (st : Filestat) : Cfs.Query.Stat where
  size := st.size.toNat
  atime := st.atime.toNat
  mtime := st.mtime.toNat
  ctime := st.ctime.toNat
  owner := st.owner.toNat
  mode := st.mode

section Headers

variable {fs : Fs} {chain : Nat → List Nat} {n : CtrlNode} {users : UsersInfo}
    {uid : Int} {stray : Str}
  {l : Login} {path : CStr}

theorem serve_stat (filename : Str) : serveMethod users uid (ascii "STAT") [filename]
    = exceptArguments (Dispatch.answer (DTree.stat filename uid) fun q =>
      sendrep [] (Value.stat q)) := by
  have hfind : doMethod (ascii "STAT") = some .stat := by decide
  unfold serveMethod
  rw [hfind]
  rfl

/-- The fields of a header go through the reply as they are. -/
theorem statRead_statBytes (fmeta : Bytes) (stray : Str) :
    statRead (filestatAt (statBytes (statOf fmeta) stray)) = statOf fmeta := by
  obtain ⟨hsize, hatime, hmtime, hctime, howner, hmode⟩ := filestatAt_statBytes (statOf fmeta) stray
  have hwide : ∀ off, (UInt64.ofNat (getLE fmeta off 8)).toNat = getLE fmeta off 8 := fun off =>
    UInt64.toNat_ofNat_of_lt' (getLE_lt fmeta off 8)
  have hword : (UInt32.ofNat (getLE fmeta 0 4)).toNat = getLE fmeta 0 4 :=
    UInt32.toNat_ofNat_of_lt' (getLE_lt fmeta 0 4)
  unfold statRead
  rw [hsize, hatime, hmtime, hctime, howner, hmode]
  simp only [statOf, metaFlen, metaUid, hwide, hword]

/-- `c_stat` finds what the path names, and looks at its permissions only. -/
theorem cStat_run {w : World} (hst : Store w.dt fs chain) (ht : Tree fs) (hmem : Ample w.env)
    (path : CStr) (uid : UInt32) :
    ∃ ret st w', cStat path uid w = .ok ((ret, st), w') ∧
      (if ret ≠ 0 then none else st) = (shownHeader w.dt path uid).map statOf := by
  obtain ⟨w', hfind, hsame⟩ := findObject_run hst ht hmem path
  unfold cStat shownHeader
  rw [bind_run hfind, named_agree hst ht path]
  cases hq : named fs.ents path with
  | none => exact ⟨_, _, _, rfl, rfl⟩
  | some q =>
    obtain ⟨d, e⟩ := q
    obtain ⟨o, ho, -⟩ := named_typed ht hq
    have hst' : Store w'.dt fs chain := hsame.dt ▸ hst
    have hread := (reads_object hst' (hmem.later hsame.later) .table ho).1
    dsimp only [Option.bind_some]
    rw [bind_run hread, hsame.dt]
    have hview : (diskView w.dt).may uid e.fb R = permissionCheck uid (w.dt.data e.fb) R := rfl
    rw [hview]
    by_cases hmay : permissionCheck uid (w.dt.data e.fb) R = 0
    · rw [if_pos hmay, if_pos hmay]
      exact ⟨_, _, _, rfl, rfl⟩
    · rw [if_neg hmay, if_neg hmay]
      exact ⟨_, _, _, rfl, rfl⟩

/-- `stat` at the control node, which raises where there is nothing to be seen. -/
theorem stat_run (h : NodeHolding n) (hmem : Ample n.world.env) (path : CStr) (uid : Int) :
    ∃ q n', DTree.stat (bytesOf path) uid n = .ok (q, n') ∧
      (shownHeader n.world.dt path (argI uid)).map statOf = q.toOption := by
  obtain ⟨fs, chain, hst, ht, -⟩ := h
  have hsame : Same n.world (asked n) := asked_same n
  obtain ⟨ret, st, w, hcall, hshown⟩ :=
    cStat_run (hsame.dt ▸ hst) ht (hmem.later hsame.later) path (argI uid)
  rw [hsame.dt] at hshown
  have hbody : (cStat path (argI uid) >>= fun q =>
      (if q.1 ≠ 0 then pure none else pure q.2 : CM (Option Cfs.Query.Stat))) (asked n)
        = .ok (if ret ≠ 0 then none else st, w) := by
    rw [bind_run hcall]
    dsimp only
    by_cases hret : ret ≠ 0
    · rw [if_pos hret, if_pos hret]
      rfl
    · rw [if_neg hret, if_neg hret]
      rfl
  have hwrap : wrapCStat (bytesOf path) uid n = .ok (.ok (if ret ≠ 0 then none else st), { n with
      world := w
      calls := .stat path (argI uid) :: n.calls }) := by
    unfold wrapCStat
    rw [bind_step (argS_some (cstrOf_bytesOf path) n), withPath_run hmem]
    exact inC_run hbody
  unfold DTree.stat
  rw [bind_step hwrap, hshown.symm]
  cases (if ret ≠ 0 then none else st : Option Cfs.Query.Stat) with
  | none => exact ⟨_, _, rfl, rfl⟩
  | some data => exact ⟨_, _, rfl, rfl⟩

/-- A client to which the reply is handed over reads the header of what the path names, if it may
see it. -/
theorem stat_asked (h : NodeHolding n) (hmem : Ample n.world.env) (hfit : Fits l) (path : CStr) :
    ∃ r n', sbpStat (ask users uid true stray) l path n = .ok (r, n') ∧ Quiet n n' ∧ OnlyC n n' ∧
      r.map statRead = (shownHeader n.world.dt path (argI uid)).map statOf := by
  obtain ⟨q, n', hcall, hshown⟩ := stat_run h hmem path uid
  obtain ⟨answer, hask⟩ := @ask_run _ users uid true stray _ _ _ _ _ n n' q (serve_stat _) hcall
  obtain ⟨q', hcall', hanswer⟩ := ask_done (serve_stat _) hask
  cases hcall.symm.trans hcall'
  have hfields : ∀ {data}, (shownHeader n.world.dt path (argI uid)).map statOf = some data →
      statRead (filestatAt (statBytes data stray)) = data := by
    intro data hdata
    obtain ⟨fmeta, -, rfl⟩ := Option.map_eq_some_iff.mp hdata
    exact statRead_statBytes fmeta stray
  rw [hshown]
  have hquiet : Quiet n n' := (quiet_stat _ _).rel hcall
  have honly : OnlyC n n' := (stays_stat _ _).rel hcall
  rcases hanswer with ⟨data, rfl, rfl⟩ | ⟨⟨e, rfl⟩, hno⟩
  · -- the data of the reply are a `stat_t`
    have hrun := sbpStat_run (prepareRequest_eq hfit) hask
      (fun a ha => by cases ha; exact announced_stat data) nofun
    exact ⟨_, n', hrun, hquiet, honly, congrArg some (hfields hshown)⟩
  · have hrun :=
      sbpStat_run (prepareRequest_eq hfit) hask (fun a ha => announced_err (hno a ha)) fun _ => rfl
    exact ⟨_, n', hrun, hquiet, honly, rfl⟩

end Headers

end Sbpfs.Net.Queries
