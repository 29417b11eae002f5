import Sbpfs.Cfs.BlockNumbers
import Sbpfs.Net.Listing
import Sbpfs.Net.FileCopy

/-!
# Clients that share a cluster

Processes read and write their open files by turns, on the same file or on different ones, while
other clients make, remove, list and write files of their own, and data nodes get lost under
their writes. The blocks of two files have different numbers, so that what is written
to one file stays out of the others.
-/
namespace Sbpfs.Net.Isolation

open Sbpfs.Lib.Program Sbpfs.Lib.Run Sbpfs.Lib.Raise
open Sbpfs.Cfs.Layout (S_FIL BLOCKSIZE metaFlen metaUid metaFlags)
open Sbpfs.Cfs.Rules Sbpfs.Cfs.Image Sbpfs.Cfs.Data Sbpfs.Cfs.DiskStore Sbpfs.Cfs.DataSpec
open Sbpfs.Cfs.BlockSpec
open Sbpfs.Cfs.RunSpec (Effect Bounded)
open Sbpfs.Cfs.BlockNumbers (Numbered numbered_effect counts_booted)
open Sbpfs.Cfs.DiskView (Live live_iff live_file)
open Sbpfs.Cfs.FileHeaders (file_header)
open Sbpfs.Cfs.LookupSpec (Same)
open Sbpfs.Cfs.TilingLaws (WriteAligned)
open Sbpfs.Spec.FileTree
open Sbpfs.Wire.Head Sbpfs.Wire.Number Sbpfs.Libc.RequestSpec
open Sbpfs.Libc.Table (FileDesc Fds T_FILE MAX_FILE_OPEN setSlot)
open Sbpfs.Libc.Request (Login s64)
open Sbpfs.Dnode.Blockman Sbpfs.Dnode.BlockSpec
open Sbpfs.Libc.Transfer Sbpfs.Libc.TransferSpec Sbpfs.Libc.TransferLaws
open Sbpfs.Cnode Sbpfs.Cnode.Pool Sbpfs.Cnode.Libcfs Sbpfs.Cnode.DTree Sbpfs.Cnode.Ops
open Sbpfs.Cnode.Dispatch Sbpfs.Cnode.Frame Sbpfs.Cnode.DiskSteps Sbpfs.Cnode.ReplyLaws
open Sbpfs.Cnode.Descriptors (Partitioned runOps bootNode bootNode_fresh)
open Sbpfs.Cnode.Replicas (nodeD addrD)
open Sbpfs.Dnode.BlockStore (freshNode)
open Sbpfs.Cnode.OpenObjects
open Sbpfs.Cnode.RequestFields
open Sbpfs.Cnode.Homes (rec_fits)
open Sbpfs.Net.Parties Sbpfs.Net.TransferSteps Sbpfs.Net.Copies Sbpfs.Net.Granting
open Sbpfs.Net.FailedWrites Sbpfs.Net.Mirror Sbpfs.Net.ReadSteps Sbpfs.Net.Contents
open Sbpfs.Net.FileArray
open Sbpfs.Net.Listing (getFile_kept fits_caller cstrOf_pathB)
open Sbpfs.Net.FileCopy (pos_slot)
open Sbpfs.Cnode.Users (UsersInfo)

/-! ## The disk -/

/-- The disk of the control node holds the tree, and no two blocks of it have the same number. -/
structure Disk (n : CtrlNode) (fs : Fs) : Prop where
  store : ∃ chain, Store n.world.dt fs chain
  tree : Tree fs
  bounded : Bounded fs
  numbered : Numbered fs n.world.dt.sb.maxBlockNum
  counter : n.world.dt.sb.maxBlockNum < 2 ^ 64

/-- A write leaves the counter of blocks in its field. -/
def CounterKept (n : CtrlNode) (op : Op) : Prop :=
  ∀ c, libCall n op = some c → Cfs.BlockNumbers.CounterFits n.world.dt c

section Disks

variable {n n' : CtrlNode} {fs : Fs} {a : Turn} {r : Except Exc Value} {fb owner len : Nat}
    {flags : UInt8}
  {recs : List Rec}

theorem getFile_fds (h : n'.fds = n.fds) (uid k : Int) :
    CtrlNode.getFile n' uid k = CtrlNode.getFile n uid k := by
  unfold CtrlNode.getFile
  rw [h]

theorem Disk.same (h : Disk n fs) (hdt : n'.world.dt = n.world.dt) : Disk n' fs := by
  obtain ⟨hst, ht, hb, hnum, hm⟩ := h
  exact ⟨hdt ▸ hst, ht, hb, hdt ▸ hnum, hdt ▸ hm⟩

theorem Disk.there (h : Disk n fs) (ho : fs fb = some ⟨owner, flags, .file len recs⟩) :
    FileThere n fb len recs := by
  obtain ⟨chain, hst⟩ := h.store
  exact ⟨⟨fs, chain, owner, flags, hst, ho⟩, h.numbered.once ho,
    fun r hr => h.numbered.below ho _ (List.mem_map_of_mem hr)⟩

/-- The header and the block list say what the tree says. -/
theorem Disk.fileAt (h : Disk n fs) (ho : fs fb = some ⟨owner, flags, .file len recs⟩) :
    Granting.fileAt n fb = (len, recs) := by
  obtain ⟨chain, hst⟩ := h.store
  exact fileAt_eq hst ho

/-- and so do the owner and the permission bits. -/
theorem Disk.header (h : Disk n fs) (ho : fs fb = some ⟨owner, flags, .file len recs⟩) :
    metaUid (n.world.dt.data fb) = owner ∧ metaFlags (n.world.dt.data fb) = flags := by
  obtain ⟨chain, hst⟩ := h.store
  have hat := hst.obj fb _ ho
  exact ⟨(hat.header_field (by omega)).trans hat.holds.uid,
    (hat.header (by omega)).trans hat.holds.flags⟩

theorem fileThere_at (h : FileThere n fb len recs) : fileAt n fb = (len, recs) := by
  obtain ⟨fs, chain, owner, flags, hst, ho⟩ := h.disk
  exact fileAt_eq hst ho

/-- What a call makes of the tree. -/
theorem Disk.turn (h : Disk n fs) (hends : Ends n a r n') (hs : SoundTurn n a)
    (hc : CounterKept n a.op) : ∃ fs', Disk n' fs' ∧
      (fs' = fs ∨ ∃ c ret m', libCall n a.op = some c ∧
        Effect fs n.world.dt.sb.maxBlockNum c ret fs' m') := by
  obtain ⟨⟨chain, hst⟩, ht, hb, hnum, hm⟩ := id h
  rcases turn_explained hst ht hb hends hs with hdt | ⟨c, ret, fs', chain', hcall, hst', he⟩
  · exact ⟨fs, h.same hdt, .inl rfl⟩
  obtain ⟨hnum', hm'⟩ :=
    numbered_effect he ht hnum hm fun fb offset length ips u fl len recs heq ho => by
    subst heq
    have hfits : n.world.dt.sb.maxBlockNum + (blocksFor (offset.toNat + length.toNat)
        - blocksFor (metaFlen (n.world.dt.data fb.toNat))) < 2 ^ 64 := hc _ hcall
    rw [(file_header hst ho).1, ← (h.there ho).count] at hfits
    exact hfits
  exact ⟨fs', ⟨⟨chain', hst'⟩, he.tree ht, he.bounded hb, hnum', hm'⟩, .inr ⟨c, ret, _, hcall, he⟩⟩

/-- A file that a call neither takes away nor writes keeps its length and its blocks. -/
theorem effect_spares {fs' : Fs} {m m' : Nat} {c : Cfs.Calls.Call} {ret : Int}
    (he : Effect fs m c ret fs' m')
    (ht : Tree fs) (ho : fs fb = some ⟨owner, flags, .file len recs⟩) (hthere : fs' fb ≠ none)
    (hw : ∀ k offset length ips, c = .write k offset length ips → k.toNat ≠ fb) :
    ∃ owner' flags', fs' fb = some ⟨owner', flags', .file len recs⟩ := by
  by_cases hwrite : ∃ k offset length ips, c = .write k offset length ips
  · obtain ⟨k, offset, length, ips, rfl⟩ := hwrite
    have hne : fb ≠ k.toNat := (hw k offset length ips rfl).symm
    cases he with
    | same => exact ⟨owner, flags, ho⟩
    | write obj =>
      rw [Function.update_of_ne hne]
      exact ⟨owner, flags, ho⟩
  rcases he.change ht ho with ⟨hnone, -⟩ | ⟨o', ho', hchange⟩
  · exact absurd hnone hthere
  obtain ⟨owner', flags', node⟩ := o'
  obtain ⟨len', recs', hnode⟩ := hchange.file len recs rfl
  cases hnode
  have hc : ∀ k offset length ips, c ≠ .write k offset length ips :=
    fun k offset length ips heq => hwrite ⟨k, offset, length, ips, heq⟩
  rcases he.fileFrom ht hc ho' with ⟨u, fl, hold⟩ | ⟨hnone, -⟩
  · cases ho.symm.trans hold
    exact ⟨owner', flags', ho'⟩
  · cases ho.symm.trans hnone

end Disks

/-! ## Files in the blocks of the data nodes -/

/-- The tree has a file at `fb`, and the bytes `content` stand in its blocks. -/
def KeptAt (fs : Fs) (nodes : UInt32 → Option DNode) (fb : Nat) (content : Str) : Prop :=
  ∃ owner flags recs, fs fb = some ⟨owner, flags, .file content.length recs⟩ ∧
    Mirrors recs content nodes

theorem put_others {b : UInt64} {l : List (BlockEntry × Str)} (h : ∀ q ∈ l, q.1.blockId ≠ b)
    (f : Option File) : l.foldl (put b) f = f := by
  induction l generalizing f with
  | nil => rfl
  | cons q l ih =>
    rw [List.foldl_cons, put_other (h q (List.mem_cons_self ..)) f]
    exact ih (fun q' hq' => h q' (List.mem_cons_of_mem _ hq')) f

/-- Each data node that is left holds of the blocks in the list what it held. -/
def Unstirred (recs : List Rec) (nodes nodes' : UInt32 → Option DNode) : Prop :=
  ∀ a d', nodes' a = some d' → ∃ d, nodes a = some d ∧
    ∀ r ∈ recs, block d' (.ofNat r.num) = block d (.ofNat r.num)

theorem Unstirred.refl (recs : List Rec) (nodes : UInt32 → Option DNode) :
    Unstirred recs nodes nodes :=
  fun _ d' hd' => ⟨d', hd', fun _ _ => rfl⟩

theorem Unstirred.mirrors {recs : List Rec} {content : Str} {nodes nodes' : UInt32 → Option DNode}
    (h : Unstirred recs nodes nodes') (hm : Mirrors recs content nodes) :
    Mirrors recs content nodes' := by
  intro i x r a d' hx hr hrep hd'
  obtain ⟨d, hd, hblocks⟩ := h a d' hd'
  rw [hblocks r (List.mem_of_getElem? hr)]
  exact hm i x r a d hx hr hrep hd

/-- Segments of other blocks leave a file alone. -/
theorem unstirred_takes {recs : List Rec} {s s' : Cluster} (hw : AllWilling s.nodes)
    (htake : ∀ a, ∃ l, Takes a l s s' ∧ ∀ q ∈ l, ∀ r ∈ recs, q.1.blockId ≠ .ofNat r.num) :
    Unstirred recs s.nodes s'.nodes := by
  intro a d' hd'
  obtain ⟨l, htakes, hl⟩ := htake a
  obtain ⟨d, hd, hstores⟩ := htakes d' hd'
  refine ⟨d, hd, fun r hr => ?_⟩
  rw [(stores_put hstores (hw a d hd)).1]
  exact put_others (fun q hq => hl q hq r hr) _

/-! ## A call on one file -/

/-- What a call leaves that writes to the file at `fb` at most. -/
structure Beside (fb : Nat) (fs fs' : Fs) (s t : Cluster) : Prop where
  disk : Disk t.ctrl fs'
  willing : AllWilling t.nodes
  later : Later s.ctrl.world.env t.ctrl.world.env
  fds : t.ctrl.fds = s.ctrl.fds
  file : ∀ {owner flags len recs}, fs fb = some ⟨owner, flags, .file len recs⟩ →
    ∃ owner' flags' len' recs', fs' fb = some ⟨owner', flags', .file len' recs'⟩
  others : ∀ k, k ≠ fb → fs' k = fs k
  blocks : ∀ {k owner flags len recs}, k ≠ fb → fs k = some ⟨owner, flags, .file len recs⟩ →
    Unstirred recs s.nodes t.nodes

theorem Beside.kept {fb k : Nat} {fs fs' : Fs} {s t : Cluster} {content : Str}
    (h : Beside fb fs fs' s t)
    (hk : k ≠ fb) : KeptAt fs s.nodes k content → KeptAt fs' t.nodes k content := by
  rintro ⟨owner, flags, recs, ho, hm⟩
  exact ⟨owner, flags, recs, (h.others k hk).trans ho, (h.blocks hk ho).mirrors hm⟩

/-- What a write has made of the disk before its blocks are sent. -/
structure Extended (fb : Nat) (fs fs' : Fs) (n n' : CtrlNode) (recs : List Rec)
    (q : Except Exc (List SendBlock)) : Prop where
  disk : Disk n' fs'
  later : Later n.world.env n'.world.env
  fds : n'.fds = n.fds
  file : ∃ owner flags len, fs' fb = some ⟨owner, flags, .file len recs⟩
  others : ∀ k, k ≠ fb → fs' k = fs k
  listed : ∀ data, q = .ok data → Sendable data ∧ ∀ b ∈ data, ∃ r ∈ recs, b.blockNum = r.num

section Writes

variable {n n' : CtrlNode} {fs : Fs} {uid : Int} {file : FileDes} {owner flen : Nat} {flags : UInt8}
  {recs : List Rec} {s t : Cluster} {users : UsersInfo} {l : Login} {d d' : FileDesc} {buf : Str}
  {len : UInt64} {r : Int}

theorem write_extends {fd offset length : UInt64} {q : Except Exc (List SendBlock)} (h : Disk n fs)
    (hget : CtrlNode.getFile n uid (s64 fd.toNat) = some file)
    (ho : fs (argI file.fb).toNat = some ⟨owner, flags, .file flen recs⟩)
    (hend : offset.toNat + length.toNat ≤ MAX_END)
    (hfits : n.world.dt.sb.maxBlockNum + growth recs.length (offset.toNat + length.toNat) < 2 ^ 64)
    (hcall : Cnode.DTree.write (decimal 0 (s64 fd.toNat)) (decimal 0 (s64 offset.toNat))
      (decimal 0 (s64 length.toNat)) uid n = .ok (q, n')) :
    ∃ fs' recs', Extended (argI file.fb).toNat fs fs' n n' recs' q := by
  obtain ⟨chain, hst⟩ := h.store
  have hlive : Live n.world.dt (argI file.fb).toNat S_FIL :=
    (live_iff hst h.tree _ _).mpr ⟨_, ho, rfl⟩
  -- the call as one of the calls on the control node
  have hrun : ∃ v, (Op.write (decimal 0 (s64 fd.toNat)) (decimal 0 (s64 offset.toNat))
      (decimal 0 (s64 length.toNat)) uid).run n = .ok (v, n') := by
    cases q with
    | ok data => exact ⟨_, bind_step hcall _⟩
    | error e => exact ⟨_, bind_raise hcall _⟩
  obtain ⟨v, hv⟩ := hrun
  have hends : Ends n ⟨.write (decimal 0 (s64 fd.toNat)) (decimal 0 (s64 offset.toNat))
      (decimal 0 (s64 length.toNat)) uid, n.world.env⟩ v n' := ⟨trivial, hv⟩
  have hlib := libCall_write (pyInt_decimal 0 _) (pyInt_decimal 0 (s64 offset.toNat))
    (pyInt_decimal 0 (s64 length.toNat)) hget
  rw [argK_s64, argK_s64] at hlib
  have hsound : SoundTurn n ⟨.write (decimal 0 (s64 fd.toNat)) (decimal 0 (s64 offset.toNat))
      (decimal 0 (s64 length.toNat)) uid, n.world.env⟩ := by
    intro c hc
    cases hlib.symm.trans hc
    exact .inr ⟨hlive, hend⟩
  have hcounter : CounterKept n (.write (decimal 0 (s64 fd.toNat)) (decimal 0 (s64 offset.toNat))
      (decimal 0 (s64 length.toNat)) uid) := by
    intro c hc
    cases hlib.symm.trans hc
    dsimp only [Cfs.BlockNumbers.CounterFits]
    rw [(file_header hst ho).1, ← (h.there ho).count]
    exact hfits
  obtain ⟨fs', hdisk, hfs⟩ := h.turn hends hsound hcounter
  have hfile : (∃ len' recs', fs' (argI file.fb).toNat = some ⟨owner, flags, .file len' recs'⟩) ∧
      ∀ k, k ≠ (argI file.fb).toNat → fs' k = fs k := by
    rcases hfs with rfl | ⟨c, ret, m', hc, he⟩
    · exact ⟨⟨_, _, ho⟩, fun k _ => rfl⟩
    · cases hlib.symm.trans hc
      cases he with
      | same => exact ⟨⟨_, _, ho⟩, fun k _ => rfl⟩
      | write obj =>
        cases ho.symm.trans obj
        exact ⟨⟨_, _, Function.update_self ..⟩, fun k hk => Function.update_of_ne hk ..⟩
  obtain ⟨⟨len', recs', ho'⟩, hothers⟩ := hfile
  have honly : OnlyC n n' := (stays_write _ _ _ _).rel hcall
  have hopen : Opened n uid (s64 fd.toNat) (argI file.fb).toNat flen recs :=
    (h.there ho).opened hget
  refine ⟨fs', recs', hdisk, ?_, honly.fds, ⟨_, _, _, ho'⟩, hothers, ?_⟩
  · rcases write_granted hopen (fun _ => hend) hcall with ⟨hquiet, -⟩ |
      ⟨-, _, _, _, _, _, w, _, _, w₁, _, hsame, hw, -⟩
    · exact hquiet.later
    · exact hsame.later.trans (hw.alloc.counted.later.trans hw.rewritten.later)
  · rintro data rfl
    rcases write_wrote hopen (fun _ => hend) hcall with ⟨⟨e, he⟩, -⟩ | ⟨news, hat, hle, hq, hsend⟩
    · cases he
    cases hq
    cases (hdisk.fileAt ho').symm.trans hat
    refine ⟨hsend, fun b hb => ?_⟩
    obtain ⟨r, hr, hnum, -⟩ := writeEntries_rec (hopen.first hle) hb
    exact ⟨r, hr, hnum⟩

/-- Wherever a write ends, the other files are as they were. -/
theorem writeFile_beside (h : Disk s.ctrl fs) (hw : AllWilling s.nodes)
    (hget : CtrlNode.getFile s.ctrl uid (s64 d.serverFd.toNat) = some file)
    (ho : fs (argI file.fb).toNat = some ⟨owner, flags, .file flen recs⟩)
    (hend : d.offset.toNat + len.toNat ≤ MAX_END)
    (hfits : s.ctrl.world.dt.sb.maxBlockNum + growth recs.length (d.offset.toNat + len.toNat)
      < 2 ^ 64)
    (hrun : writeFile (netLink users uid) l d buf len s = .ok ((r, d'), t)) :
    ∃ fs', Beside (argI file.fb).toNat fs fs' s t := by
  obtain ⟨-, ents, s₁, hask, hcase⟩ := writeFile_done hrun
  obtain ⟨q, n', hcall, rfl, hents⟩ := askBlocks_done (serve_write _ _ _) hask
  obtain ⟨fs', recs', hext⟩ := write_extends h hget ho hend hfits hcall
  obtain ⟨owner', flags', len', ho'⟩ := hext.file
  -- the nodes are given segments of the blocks of this file only
  have htake : t.ctrl = n' ∧ ∀ a, ∃ l, Takes a l { s with ctrl := n' } t ∧
      ∀ q ∈ l, ∃ r ∈ recs', q.1.blockId = .ofNat r.num := by
    rcases hcase with ⟨-, -, rfl⟩ | ⟨es, rfl, hblocks⟩
    · exact ⟨rfl, fun a => ⟨[], Takes.refl a _, fun q hq => nomatch hq⟩⟩
    rcases hents with ⟨-, hnone⟩ | ⟨data, hdata, hents⟩
    · cases hnone
    obtain ⟨hsend, hlisted⟩ := hext.listed data hdata
    obtain rfl := Option.some.inj (hents hsend)
    have hmem : ∀ e ∈ data.map toEntry, ∃ r ∈ recs', e.blockId = .ofNat r.num := by
      intro e he
      obtain ⟨b, hb, rfl⟩ := List.mem_map.mp he
      obtain ⟨r, hr, hnum⟩ := hlisted b hb
      exact ⟨r, hr, congrArg UInt64.ofNat hnum⟩
    rcases writeBlocks_done hblocks with ⟨-, hwritten⟩ | ⟨-, pre, ent, post, hes, hhalted⟩
    · obtain ⟨hctrl, htakes⟩ := written_takes hwritten
      exact ⟨hctrl, fun a => ⟨_, htakes a, fun q hq => hmem _ (mem_segmentsAt hq)⟩⟩
    · obtain ⟨hctrl, htakes⟩ := halted_takes hhalted
      refine ⟨hctrl, fun a => ?_⟩
      obtain ⟨k, -, hk⟩ := htakes a
      refine ⟨_, hk, fun q hq => hmem _ ?_⟩
      rw [hes]
      rcases List.mem_append.mp hq with hq | hq
      · exact List.mem_append_left _ (mem_segmentsAt hq)
      · rw [(List.mem_replicate.mp hq).2]
        exact List.mem_append_right _ (List.mem_cons_self ..)
  obtain ⟨hctrl, htake⟩ := htake
  refine ⟨fs', hctrl ▸ hext.disk, ?_, hctrl ▸ hext.later, hctrl ▸ hext.fds,
    fun _ => ⟨owner', flags', len', recs', ho'⟩, hext.others, ?_⟩
  · refine takes_willing (s := { s with ctrl := n' }) hw fun a => ?_
    obtain ⟨l, hl, -⟩ := htake a
    exact ⟨l, hl⟩
  · intro k owner₁ flags₁ len₁ recs₁ hk ho₁
    rw [← hext.others k hk] at ho₁
    refine unstirred_takes (s := { s with ctrl := n' }) hw fun a => ?_
    obtain ⟨l, hl, hids⟩ := htake a
    refine ⟨l, hl, fun q hq r hr heq => ?_⟩
    obtain ⟨r', hr', hid⟩ := hids q hq
    have hnum := congrArg UInt64.toNat (hid.symm.trans heq)
    obtain ⟨chain', hst'⟩ := hext.disk.store
    rw [UInt64.toNat_ofNat_of_lt' (rec_fits hst' ho' hr').1,
      UInt64.toNat_ofNat_of_lt' (rec_fits hst' ho₁ hr).1] at hnum
    have hmem : r.num ∈ recs'.map Rec.num := hnum ▸ List.mem_map_of_mem hr'
    exact hext.disk.numbered.apart ho' ho₁ hk.symm hmem (List.mem_map_of_mem hr)

end Writes

section Reads

variable {fs : Fs} {s t : Cluster} {users : UsersInfo} {uid : Int} {l : Login}
    {fds fds' : Fds} {fd : Int}
  {d d' : FileDesc} {buf buf' : Str} {len : UInt64} {r : Int}

/-- What a call leaves that writes to no file. -/
structure Untouched (fs : Fs) (s t : Cluster) : Prop where
  disk : Disk t.ctrl fs
  willing : AllWilling t.nodes
  later : Later s.ctrl.world.env t.ctrl.world.env
  fds : t.ctrl.fds = s.ctrl.fds
  blocks : ∀ recs, Unstirred recs s.nodes t.nodes

theorem Untouched.refl (h : Disk s.ctrl fs) (hw : AllWilling s.nodes) : Untouched fs s s :=
  ⟨h, hw, Later.refl _, rfl, fun recs => Unstirred.refl recs _⟩

theorem Untouched.beside (h : Untouched fs s t) (fb : Nat) : Beside fb fs fs s t :=
  ⟨h.disk, h.willing, h.later, h.fds, fun ho => ⟨_, _, _, _, ho⟩, fun _ _ => rfl,
    fun _ _ => h.blocks _⟩

theorem Untouched.kept {k : Nat} {content : Str} (h : Untouched fs s t) :
    KeptAt fs s.nodes k content → KeptAt fs t.nodes k content := by
  rintro ⟨owner, flags, recs, ho, hm⟩
  exact ⟨owner, flags, recs, ho, (h.blocks recs).mirrors hm⟩

theorem readFile_untouched (h : Disk s.ctrl fs) (hw : AllWilling s.nodes)
    (hrun : readFile (netLink users uid) l d buf len s = .ok ((r, buf', d'), t)) :
    Untouched fs s t := by
  obtain ⟨-, ents, s₁, hask, hcase⟩ := readFile_done hrun
  obtain ⟨q, n', hcall, rfl, -⟩ := askBlocks_done (serve_read _ _ _) hask
  have hread : Unwritten { s with ctrl := n' } t := by
    rcases hcase with ⟨-, -, -, rfl⟩ | ⟨es, -, hblocks⟩
    · exact Unwritten.refl _
    · exact readBlocks_unwritten hblocks
  have hquiet : Quiet s.ctrl n' := (quiet_read _ _ _ _).rel hcall
  have honly : OnlyC s.ctrl n' := (stays_read _ _ _ _).rel hcall
  have hctrl : t.ctrl = n' := hread.ctrl
  refine ⟨?_, hread.willing hw, ?_, ?_, ?_⟩
  · rw [hctrl]
    exact h.same hquiet.dt
  · rw [hctrl]
    exact hquiet.later
  · rw [hctrl]
    exact honly.fds
  · intro recs a d' hd'
    obtain ⟨d, hd, hlooked⟩ := hread.nodes a d' hd'
    exact ⟨d, hd, fun r _ => hlooked.block _⟩

/-- A read with any descriptor of any client. -/
theorem sbpRead_untouched (h : Disk s.ctrl fs) (hw : AllWilling s.nodes)
    (hrun : Libc.Transfer.sbpRead (netLink users uid) l fds fd buf len s
      = .ok ((r, buf', fds'), t)) :
    Untouched fs s t := by
  unfold Libc.Transfer.sbpRead at hrun
  split at hrun
  · cases hrun
    exact Untouched.refl h hw
  obtain ⟨slot, s₁, hslot, hrest⟩ := bind_ok.mp hrun
  unfold Libc.Transfer.slot at hslot
  split at hslot
  · cases hslot
  obtain ⟨rfl, rfl⟩ := pure_ok.mp hslot
  cases hd : fds fd.toNat with
  | none =>
    rw [hd] at hrest
    cases hrest
  | some d =>
    rw [hd] at hrest
    dsimp only at hrest
    split at hrest
    · obtain ⟨⟨ret, buf₁, d'⟩, s₂, hfile, hret⟩ := bind_ok.mp hrest
      cases hret
      exact readFile_untouched h hw hfile
    · cases hrest
      exact Untouched.refl h hw

end Reads

/-! ## Processes and their open files -/

/-- The processes with their users, and the descriptors that they have open: the process of each,
its number there, and the first block of its file. -/
structure Handles (ι π : Type) where
  users : UsersInfo
  uid : π → Int
  login : π → Login
  fits : ∀ p, Fits (login p)
  proc : ι → π
  fd : ι → Int
  range : ∀ i, 0 ≤ fd i ∧ fd i < MAX_FILE_OPEN
  file : ι → Nat

/-- The parties, the descriptors of each process, and the bytes last written to each file. -/
structure Shared (π : Type) where
  cluster : Cluster
  fds : π → Fds
  contents : Nat → Str

variable {ι π : Type}

def Handles.client (H : Handles ι π) (i : ι) : Client :=
  ⟨H.users, H.uid (H.proc i), H.login (H.proc i), H.fd i⟩

/-- The cluster as a process sees it that uses one of its descriptors. -/
def Shared.session (s : Shared π) (H : Handles ι π) (i : ι) : Session :=
  ⟨s.cluster, s.fds (H.proc i), s.contents (H.file i)⟩

/-- A write to a file that is there and that none of the descriptors stands for. Nothing is asked of
what becomes of it. -/
structure Elsewhere (H : Handles ι π) (s : Shared π) (c : Client) (fds : Fds) (len : UInt64)
    (d : FileDesc) (file : FileDes) : Prop where
  range : 0 ≤ c.fd ∧ c.fd < MAX_FILE_OPEN
  slot : fds c.fd.toNat = some d
  type : d.type = T_FILE
  found : CtrlNode.getFile s.cluster.ctrl c.uid (s64 d.serverFd.toNat) = some file
  live : Live s.cluster.ctrl.world.dt (argI file.fb).toNat S_FIL
  apart : ∀ i, H.file i ≠ (argI file.fb).toNat
  stop : d.offset.toNat + len.toNat ≤ MAX_END
  fits : Cfs.BlockNumbers.CounterFits s.cluster.ctrl.world.dt
    (.write (argI file.fb) d.offset len [])

/-- A call on the control node that leaves the files there, as they are, and their numbers open. -/
structure Sparing (H : Handles ι π) (s : Shared π) (a : Turn) (n' : CtrlNode) : Prop where
  sound : SoundTurn s.cluster.ctrl a
  fits : CounterKept s.cluster.ctrl a.op
  kept : ∀ i, ¬ Takes s.cluster.ctrl a.op (H.file i)
  unwritten : ∀ fb offset length ips, libCall s.cluster.ctrl a.op
    = some (.write fb offset length ips) →
    ∀ i, fb.toNat ≠ H.file i
  opened : ∀ i d, s.fds (H.proc i) (H.fd i).toNat = some d →
    CtrlNode.getFile n' (H.uid (H.proc i)) (s64 d.serverFd.toNat) ≠ none

inductive Move (ι : Type) where
  | own (i : ι) (a : Call)
  | write (c : Client) (buf : Str) (len : UInt64)
  | read (c : Client) (buf : Str) (len : UInt64)
  | call (a : Turn)

/-- One of the descriptors is used, another client reads or writes, or another call is served. -/
inductive Step [DecidableEq π] (H : Handles ι π) (s : Shared π) : Move ι → Shared π → Prop
  | own {i : ι} {a : Call} {s₁ : Session} (run : SoundStep (H.client i) (s.session H i) a s₁) :
      Step H s (.own i a) ⟨s₁.cluster, Function.update s.fds (H.proc i) s₁.fds,
        Function.update s.contents (H.file i) s₁.content⟩
  | write {c : Client} {fds fds' : Fds} {buf : Str} {len : UInt64} {d : FileDesc}
      {file : FileDes} {r : Int}
      {t : Cluster} (elsewhere : Elsewhere H s c fds len d file)
      (run : Libc.Transfer.sbpWrite (netLink c.users c.uid) c.login fds c.fd buf len s.cluster
        = .ok ((r, fds'), t)) : Step H s (.write c buf len) ⟨t, s.fds, s.contents⟩
  | read {c : Client} {fds fds' : Fds} {buf buf' : Str} {len : UInt64} {r : Int} {t : Cluster}
      (run : Libc.Transfer.sbpRead (netLink c.users c.uid) c.login fds c.fd buf len s.cluster
        = .ok ((r, buf', fds'), t)) : Step H s (.read c buf len) ⟨t, s.fds, s.contents⟩
  | call {a : Turn} {n' : CtrlNode} {e : Cfs.Layout.Env} {fds' : π →
      Fds} (run : OpStep s.cluster.ctrl a n')
      (sparing : Sparing H s a n') (memory : Ample e)
      (slots : ∀ i, fds' (H.proc i) (H.fd i).toNat = s.fds (H.proc i) (H.fd i).toNat) :
      Step H s (.call a) ⟨{ s.cluster with ctrl := CtrlNode.answering n' e }, fds', s.contents⟩

/-- Each descriptor is open at both ends, and the bytes last written to its file stand in the
blocks. -/
structure Coherent (H : Handles ι π) (s : Shared π) : Prop where
  disk : ∃ fs, Disk s.cluster.ctrl fs ∧
    ∀ i, KeptAt fs s.cluster.nodes (H.file i) (s.contents (H.file i))
  memory : Ample s.cluster.ctrl.world.env
  willing : AllWilling s.cluster.nodes
  pools : Partitioned s.cluster.ctrl
  opened : ∀ i, ∃ d file, OpenAs (H.client i) (s.session H i) d file ∧
    (argI file.fb).toNat = H.file i

/-! ## Steps -/

/-- A call through the descriptor `k` leaves the others alone, and it open for the same. -/
structure Steady (k : Nat) (fds fds' : Fds) : Prop where
  others : ∀ j, j ≠ k → fds' j = fds j
  slot : ∀ d, fds k = some d → ∃ d', fds' k = some d' ∧ d'.type = d.type ∧ d'.serverFd = d.serverFd

theorem Steady.refl (k : Nat) (fds : Fds) : Steady k fds fds :=
  ⟨fun _ _ => rfl, fun d h => ⟨d, h, rfl, rfl⟩⟩

theorem steady_setSlot {fds : Fds} {k : Nat} {d d' : FileDesc} (hslot : fds k = some d)
    (htype : d'.type = d.type) (hserver : d'.serverFd = d.serverFd) :
    Steady k fds (setSlot fds k (some d')) := by
  unfold setSlot
  refine ⟨fun j hj => if_neg hj, fun e he => ?_⟩
  obtain rfl := Option.some.inj (hslot.symm.trans he)
  exact ⟨d', if_pos rfl, htype, hserver⟩

theorem Steady.same {k : Nat} {fds fds' : Fds} (h : Steady k fds fds') (j : Nat) (d : FileDesc)
    (hd : fds j = some d) :
    ∃ d', fds' j = some d' ∧ d'.type = d.type ∧ d'.serverFd = d.serverFd := by
  by_cases hj : j = k
  · subst hj
    exact h.slot d hd
  · exact ⟨d, (h.others j hj).trans hd, rfl, rfl⟩

theorem steady_seek {σ : Type} {st st' : σ} {fds fds' : Fds} {fd offset r : Int} {d : FileDesc}
    (hn : 0 ≤ fd ∧ fd < MAX_FILE_OPEN) (hslot : fds fd.toNat = some d)
    (h : sbpSeek fds fd offset st = .ok ((r, fds'), st')) : Steady fd.toNat fds fds' := by
  unfold sbpSeek at h
  rw [if_neg (by omega), bind_run (slot_run hn hslot)] at h
  dsimp only at h
  split at h
  · cases h
    exact Steady.refl _ _
  · cases h
    exact steady_setSlot hslot rfl rfl

section Steps

variable {H : Handles ι π} {s s' : Shared π} {fs fs' : Fs} {i : ι} {t : Cluster}

theorem Coherent.holding (h : Coherent H s) (i : ι) : Holding (H.client i) (s.session H i) := by
  obtain ⟨fs, hdisk, hkept⟩ := h.disk
  obtain ⟨d, file, hopen, hfb⟩ := h.opened i
  obtain ⟨owner, flags, recs, ho, hm⟩ := hkept i
  refine ⟨H.fits _, H.range i, h.memory, h.willing, d, file, recs, hopen, ?_, hm⟩
  rw [hfb]
  exact hdisk.there ho

/-- What is asked of the parties, and of each file, after a step. -/
theorem Coherent.moved (h : Coherent H s) {fds' : π → Fds} {contents' : Nat → Str}
    (hdisk : Disk t.ctrl fs') (hwilling : AllWilling t.nodes)
    (hlater : Later s.cluster.ctrl.world.env t.ctrl.world.env)
    (hfds : t.ctrl.fds = s.cluster.ctrl.fds)
    (hkept : ∀ i, KeptAt fs' t.nodes (H.file i) (contents' (H.file i)))
    (hslots : ∀ i k d, s.fds (H.proc i) k = some d →
      ∃ d', fds' (H.proc i) k = some d' ∧ d'.type = d.type ∧ d'.serverFd = d.serverFd) :
        Coherent H ⟨t, fds', contents'⟩ := by
  refine ⟨⟨fs', hdisk, hkept⟩, h.memory.later hlater, hwilling, ?_, fun i => ?_⟩
  · intro u p hp
    rw [hfds] at hp
    exact h.pools u p hp
  · obtain ⟨d, file, hopen, hfb⟩ := h.opened i
    obtain ⟨d', hslot, htype, hserver⟩ := hslots i _ d hopen.slot
    refine ⟨d', file, ⟨hslot, htype.trans hopen.type, ?_, hopen.fileType⟩, hfb⟩
    rw [hserver]
    exact (getFile_fds hfds _ _).trans hopen.found

/-- What a call through a descriptor does to its file, and to the others. -/
theorem own_call (h : Coherent H s) (hdisk : Disk s.cluster.ctrl fs)
    (hkept : KeptAt fs s.cluster.nodes (H.file i) (s.contents (H.file i))) {a : Call} {s₁ : Session}
    (hs : SoundStep (H.client i) (s.session H i) a s₁) :
    ∃ fs', Beside (H.file i) fs fs' s.cluster s₁.cluster ∧
      KeptAt fs' s₁.cluster.nodes (H.file i) s₁.content ∧
      Steady (H.fd i).toNat (s.fds (H.proc i)) s₁.fds := by
  obtain ⟨hstep, hsound⟩ := hs
  obtain ⟨d, file, hopen, hfb⟩ := h.opened i
  obtain ⟨owner, flags, recs, ho, hm⟩ := id hkept
  have hslot : s.fds (H.proc i) (H.fd i).toNat = some d := hopen.slot
  cases hstep with
  | seek run =>
    obtain ⟨rfl, -⟩ := sbpSeek_done (H.range i) hopen.slot run
    exact ⟨fs, (Untouched.refl hdisk h.willing).beside _, hkept, steady_seek (H.range i) hslot run⟩
  | @write buf len r fds' t run answered =>
    obtain ⟨d', hwrite, rfl⟩ := sbpWrite_done (H.range i) hopen.slot hopen.type run
    have hat : fs (argI file.fb).toNat
        = some ⟨owner, flags, .file (s.contents (H.file i)).length recs⟩ := by
      rw [hfb]
      exact ho
    have hthere := hdisk.there hat
    have hw : SoundWrite (s.session H i) d buf len := hsound d hopen.slot
    have hfits : s.cluster.ctrl.world.dt.sb.maxBlockNum
        + growth recs.length (d.offset.toNat + len.toNat) < 2 ^ 64 := by
      rw [hthere.count]
      exact hw.2.2.2.2
    have hpos : (s.session H i).pos (H.client i) = d.offset.toNat := pos_slot hopen.slot
    obtain ⟨fs', hbeside⟩ := writeFile_beside hdisk h.willing hopen.found hat hw.2.2.1 hfits hwrite
    obtain ⟨rfl, hafter⟩ := writeFile_after hopen hthere hm h.willing hw answered hwrite
    obtain ⟨recs', hthere', hm'⟩ := hafter.file
    obtain ⟨owner', flags', len', recs₁, ho'⟩ := hbeside.file hat
    cases (hbeside.disk.fileAt ho').symm.trans (fileThere_at hthere')
    rw [hfb] at hbeside ho'
    refine ⟨fs', hbeside, ⟨owner', flags', recs', ?_, ?_⟩, ?_⟩
    · rw [hpos]
      exact ho'
    · rw [hpos]
      exact hm'
    · exact steady_setSlot hslot (advance_same _ _).1 (advance_same _ _).2
  | read run =>
    obtain ⟨d', hread, rfl⟩ := sbpRead_done (H.range i) hopen.slot hopen.type run
    have huntouched := readFile_untouched hdisk h.willing hread
    obtain ⟨rfl, -⟩ := readFile_done hread
    exact ⟨fs, huntouched.beside _, huntouched.kept hkept,
      steady_setSlot hslot (advance_same _ _).1 (advance_same _ _).2⟩
  | notice run =>
    obtain ⟨hworld, hfds⟩ := event_after run
    rename_i e n'
    have hsame : Untouched fs s.cluster { s.cluster with ctrl := n' } := by
      refine ⟨hdisk.same (congrArg Cfs.Layout.World.dt hworld), h.willing, ?_, hfds,
        fun recs => Unstirred.refl recs _⟩
      exact (congrArg Cfs.Layout.World.env hworld).symm ▸ Later.refl _
    exact ⟨fs, hsame.beside _, hkept, Steady.refl _ _⟩

/-- A write elsewhere leaves the files of the descriptors alone. -/
theorem elsewhere_beside (h : Coherent H s) (hdisk : Disk s.cluster.ctrl fs) {c : Client}
    {fds fds' : Fds}
    {buf : Str} {len : UInt64} {d : FileDesc} {file : FileDes} {r : Int}
    (helse : Elsewhere H s c fds len d file)
    (hrun : Libc.Transfer.sbpWrite (netLink c.users c.uid) c.login fds c.fd buf len s.cluster
      = .ok ((r, fds'), t)) : ∃ fs', Beside (argI file.fb).toNat fs fs' s.cluster t := by
  obtain ⟨chain, hst⟩ := hdisk.store
  obtain ⟨owner, flags, flen, recs, ho⟩ := live_file hst hdisk.tree helse.live
  obtain ⟨d', hwrite, -⟩ := sbpWrite_done helse.range helse.slot helse.type hrun
  have hfits := helse.fits
  dsimp only [Cfs.BlockNumbers.CounterFits] at hfits
  rw [(file_header hst ho).1, ← (hdisk.there ho).count] at hfits
  exact writeFile_beside hdisk h.willing helse.found ho helse.stop hfits hwrite

/-- A call of others leaves the files their lengths and their blocks. -/
theorem sparing_files (hdisk : Disk s.cluster.ctrl fs) {a : Turn} {r : Except Exc Value}
    {n' : CtrlNode}
    (hends : Ends s.cluster.ctrl a r n') (hsparing : Sparing H s a n') : ∃ fs', Disk n' fs' ∧
      ∀ i {owner flags len recs}, fs (H.file i) = some ⟨owner, flags, .file len recs⟩ →
        ∃ owner' flags', fs' (H.file i) = some ⟨owner', flags', .file len recs⟩ := by
  obtain ⟨fs', hdisk', hfs⟩ := hdisk.turn hends hsparing.sound hsparing.fits
  refine ⟨fs', hdisk', fun i owner flags len recs ho => ?_⟩
  rcases hfs with rfl | ⟨c, ret, m', hcall, he⟩
  · exact ⟨owner, flags, ho⟩
  have hthere : fs' (H.file i) ≠ none := by
    obtain ⟨chain, hst⟩ := hdisk.store
    obtain ⟨chain', hst'⟩ := hdisk'.store
    have hlive := live_turn ⟨fs, chain, hst, hdisk.tree, hdisk.bounded⟩ hends hsparing.sound
      ((live_iff hst hdisk.tree _ _).mpr ⟨_, ho, rfl⟩) (hsparing.kept i)
    obtain ⟨o, ho', -⟩ := (live_iff hst' hdisk'.tree _ _).mp hlive
    rw [ho']
    exact Option.some_ne_none o
  exact effect_spares he hdisk.tree ho hthere
    fun k offset length ips heq => hsparing.unwritten k offset length ips (heq ▸ hcall) i

/-- The number of a descriptor stands for the same after another call. -/
theorem Coherent.found (h : Coherent H s) {a : Turn} {r : Except Exc Value} {n' : CtrlNode}
    (hends : Ends s.cluster.ctrl a r n') (hsparing : Sparing H s a n') {d : FileDesc}
    {file : FileDes}
    (hopen : OpenAs (H.client i) (s.session H i) d file) :
    CtrlNode.getFile n' (H.uid (H.proc i)) (s64 d.serverFd.toNat) = some file :=
  getFile_kept h.pools hends hopen.found (hsparing.opened i d hopen.slot)

theorem coherent_step [DecidableEq π] {m : Move ι} (h : Coherent H s) (hs : Step H s m s') :
    Coherent H s' := by
  obtain ⟨fs, hdisk, hkept⟩ := h.disk
  cases hs with
  | @own i a s₁ run =>
    obtain ⟨fs', hbeside, hown, hsteady⟩ := own_call h hdisk (hkept i) run
    refine h.moved hbeside.disk hbeside.willing hbeside.later hbeside.fds (fun j => ?_) fun j => ?_
    · -- another descriptor may stand for the same file
      by_cases hfile : H.file j = H.file i
      · rw [hfile, Function.update_self]
        exact hown
      · rw [Function.update_of_ne hfile]
        exact hbeside.kept hfile (hkept j)
    · by_cases hproc : H.proc j = H.proc i
      · rw [hproc, Function.update_self]
        exact hsteady.same
      · rw [Function.update_of_ne hproc]
        exact fun k d hk => ⟨d, hk, rfl, rfl⟩
  | write elsewhere run =>
    obtain ⟨fs', hbeside⟩ := elsewhere_beside h hdisk elsewhere run
    exact h.moved hbeside.disk hbeside.willing hbeside.later hbeside.fds
      (fun i => hbeside.kept (elsewhere.apart i) (hkept i)) fun i k d hk => ⟨d, hk, rfl, rfl⟩
  | read run =>
    have huntouched := sbpRead_untouched hdisk h.willing run
    exact h.moved huntouched.disk huntouched.willing huntouched.later huntouched.fds
      (fun i => huntouched.kept (hkept i)) fun i k d hk => ⟨d, hk, rfl, rfl⟩
  | @call a n' e fds' run sparing memory slots =>
    obtain ⟨r, hends⟩ := run
    obtain ⟨fs', hdisk', hfiles⟩ := sparing_files hdisk hends sparing
    have hpools : Partitioned n' := partitioned_turn h.pools hends
    refine ⟨⟨fs', hdisk'.same rfl, fun i => ?_⟩, memory, h.willing, hpools, fun i => ?_⟩
    · obtain ⟨owner, flags, recs, ho, hm⟩ := hkept i
      obtain ⟨owner', flags', ho'⟩ := hfiles i ho
      exact ⟨owner', flags', recs, ho', hm⟩
    · obtain ⟨d, file, hopen, hfb⟩ := h.opened i
      exact ⟨d, file, ⟨(slots i).trans hopen.slot, hopen.type, h.found hends sparing hopen,
        hopen.fileType⟩, hfb⟩

/-! ## What a move leaves of the files it is not about -/

/-- The move is a call through a descriptor of the same file. -/
def Move.uses (H : Handles ι π) (i : ι) : Move ι → Prop
  | .own j _ => H.file j = H.file i
  | _ => False

/-- The file, its blocks on the data nodes that are left, and the descriptor with the number at the
control node. Owner and permission bits are those that another call served may change. -/
structure Spared (H : Handles ι π) (i : ι) (m : Move ι) (s s' : Shared π) : Prop where
  lists : fileAt s'.cluster.ctrl (H.file i) = fileAt s.cluster.ctrl (H.file i)
  header : (∀ a, m ≠ .call a) →
    metaUid (s'.cluster.ctrl.world.dt.data (H.file i))
      = metaUid (s.cluster.ctrl.world.dt.data (H.file i)) ∧
      metaFlags (s'.cluster.ctrl.world.dt.data (H.file i))
        = metaFlags (s.cluster.ctrl.world.dt.data (H.file i))
  blocks : Unstirred (fileAt s.cluster.ctrl (H.file i)).2 s.cluster.nodes s'.cluster.nodes
  content : s'.contents (H.file i) = s.contents (H.file i)
  slot : s'.fds (H.proc i) (H.fd i).toNat = s.fds (H.proc i) (H.fd i).toNat
  found : ∀ d, s.fds (H.proc i) (H.fd i).toNat = some d →
    CtrlNode.getFile s'.cluster.ctrl (H.uid (H.proc i)) (s64 d.serverFd.toNat)
      = CtrlNode.getFile s.cluster.ctrl (H.uid (H.proc i)) (s64 d.serverFd.toNat)

/-- Calls that write to another file at most. -/
theorem Beside.spared {m : Move ι} {fb : Nat} {content : Str} {fds' : π → Fds}
    {contents' : Nat → Str}
    (hbeside : Beside fb fs fs' s.cluster t) (hdisk : Disk s.cluster.ctrl fs) (hfb : H.file i ≠ fb)
    (hkept : KeptAt fs s.cluster.nodes (H.file i) content)
    (hcontent : contents' (H.file i) = s.contents (H.file i))
    (hslot : fds' (H.proc i) (H.fd i).toNat = s.fds (H.proc i) (H.fd i).toNat) :
    Spared H i m s ⟨t, fds', contents'⟩ := by
  obtain ⟨owner, flags, recs, ho, -⟩ := hkept
  have ho' : fs' (H.file i) = some ⟨owner, flags, .file content.length recs⟩ :=
    (hbeside.others _ hfb).trans ho
  have hat := hdisk.fileAt ho
  obtain ⟨huid, hflags⟩ := hdisk.header ho
  obtain ⟨huid', hflags'⟩ := hbeside.disk.header ho'
  refine ⟨(hbeside.disk.fileAt ho').trans hat.symm,
    fun _ => ⟨huid'.trans huid.symm, hflags'.trans hflags.symm⟩,
    ?_, hcontent, hslot, fun d _ => getFile_fds hbeside.fds _ _⟩
  rw [hat]
  exact hbeside.blocks hfb ho

/-- Descriptors of different files are different ones. -/
theorem Coherent.distinct (h : Coherent H s) {j : ι} (hfile : H.file j ≠ H.file i)
    (hproc : H.proc j = H.proc i) : (H.fd j).toNat ≠ (H.fd i).toNat := by
  intro hfd
  obtain ⟨d, file, hopen, hfb⟩ := h.opened i
  obtain ⟨d', file', hopen', hfb'⟩ := h.opened j
  have hslot : s.fds (H.proc i) (H.fd i).toNat = some d := hopen.slot
  have hslot' : s.fds (H.proc j) (H.fd j).toNat = some d' := hopen'.slot
  rw [hproc, hfd] at hslot'
  cases hslot.symm.trans hslot'
  have hfound : CtrlNode.getFile s.cluster.ctrl (H.uid (H.proc i)) (s64 d.serverFd.toNat)
    = some file := hopen.found
  have hfound' : CtrlNode.getFile s.cluster.ctrl (H.uid (H.proc j)) (s64 d.serverFd.toNat)
    = some file' := hopen'.found
  rw [hproc] at hfound'
  cases hfound.symm.trans hfound'
  exact hfile (hfb'.symm.trans hfb)

theorem step_spares [DecidableEq π] {m : Move ι} (h : Coherent H s) (hs : Step H s m s')
    (huses : ¬ m.uses H i) : Spared H i m s s' := by
  obtain ⟨fs, hdisk, hkept⟩ := h.disk
  cases hs with
  | @own j a s₁ run =>
    obtain ⟨fs', hbeside, -, hsteady⟩ := own_call h hdisk (hkept j) run
    have hfile : H.file i ≠ H.file j := Ne.symm huses
    refine hbeside.spared hdisk hfile (hkept i) (Function.update_of_ne hfile ..) ?_
    by_cases hproc : H.proc i = H.proc j
    · have hfd := h.distinct hfile hproc
      rw [hproc, Function.update_self]
      exact hsteady.others _ hfd
    · rw [Function.update_of_ne hproc]
  | write elsewhere run =>
    obtain ⟨fs', hbeside⟩ := elsewhere_beside h hdisk elsewhere run
    exact hbeside.spared hdisk (elsewhere.apart i) (hkept i) rfl rfl
  | read run =>
    have huntouched := sbpRead_untouched hdisk h.willing run
    exact (huntouched.beside _).spared hdisk (Nat.succ_ne_self (H.file i)).symm (hkept i) rfl rfl
  | call run sparing memory slots =>
    obtain ⟨r, hends⟩ := run
    obtain ⟨fs', hdisk', hfiles⟩ := sparing_files hdisk hends sparing
    obtain ⟨owner, flags, recs, ho, -⟩ := hkept i
    obtain ⟨owner', flags', ho'⟩ := hfiles i ho
    refine ⟨((hdisk'.same rfl).fileAt ho').trans (hdisk.fileAt ho).symm,
      fun hcall => absurd rfl (hcall _),
      Unstirred.refl _ _, rfl, slots i, fun d hd => ?_⟩
    obtain ⟨d', file, hopen, -⟩ := h.opened i
    obtain rfl := Option.some.inj (hopen.slot.symm.trans hd)
    exact (h.found hends sparing hopen).trans hopen.found.symm

theorem coherent_run [DecidableEq π] (h : Reach (Coherent H) (Step H) s) : Coherent H s :=
  h.inv (fun _ h0 => h0) fun _ _ _ hinv hstep => coherent_step hinv hstep

/-- Whatever else is done to the cluster, in whatever order, what a read returns are the bytes that
have been written last to its file. A next move that is no call on this file leaves it alone. -/
theorem isolation_run [DecidableEq π] (h : Reach (Coherent H) (Step H) s) (i : ι) :
    Exact (H.client i) (s.session H i) ∧
      ∀ {m s'}, Step H s m s' → ¬ m.uses H i → Spared H i m s s' :=
  ⟨holding_exact ((coherent_run h).holding i), step_spares (coherent_run h)⟩

end Steps

/-! ## Two files that are written by turns -/

theorem disk_boot {n : CtrlNode} (h : bootNode = some n) : ∃ fs, Disk n fs := by
  obtain ⟨hm, fs, chain, hst, ht, hb, hnum⟩ := counts_booted (s := ⟨n.world.dt, n.world.ipIndex⟩)
    (bootNode_fresh h).2
  exact ⟨fs, ⟨chain, hst⟩, ht, hb, hnum, hm⟩

/-- Files that are there and have not been written to. -/
theorem coherent_empty {H : Handles ι π} {fs : Fs} {c : Cluster} {fds : π → Fds}
    (hdisk : Disk c.ctrl fs)
    (hmem : Ample c.ctrl.world.env) (hw : AllWilling c.nodes) (hpools : Partitioned c.ctrl)
    (hfiles : ∀ i, Live c.ctrl.world.dt (H.file i) S_FIL ∧
      metaFlen (c.ctrl.world.dt.data (H.file i)) = 0)
    (hopen : ∀ i, ∃ d file, OpenAs (H.client i) (Shared.session ⟨c, fds, fun _ => []⟩ H i) d file ∧
      (argI file.fb).toNat = H.file i) : Coherent H ⟨c, fds, fun _ => []⟩ := by
  refine ⟨⟨fs, hdisk, fun i => ?_⟩, hmem, hw, hpools, hopen⟩
  obtain ⟨chain, hst⟩ := hdisk.store
  obtain ⟨hlive, hlen⟩ := hfiles i
  obtain ⟨owner, flags, len, recs, ho⟩ := live_file hst hdisk.tree hlive
  obtain rfl : len = 0 := (file_header hst ho).1.symm.trans hlen
  exact ⟨owner, flags, recs, ho, fun j x r a d hx => nomatch hx⟩

/-- The files `/a` and `/b` are made and stay open, and a data node has reported. -/
def openedAB : List Op := [.openFile (ascii "/a") (ascii "4") (ascii "15") 0,
  .openFile (ascii "/b") (ascii "4") (ascii "15") 0, .addBlockInfo [nodeD] [] nodeD addrD]

theorem counterKept_open {n : CtrlNode} {path oflags mode : Str} {uid : Int} :
    CounterKept n (.openFile path oflags mode uid) := by
  intro c hc
  simp only [libCall, Option.bind_eq_bind, Option.bind_eq_some_iff, Option.pure_def,
    Option.some.injEq] at hc
  obtain ⟨_, -, _, -, _, -, rfl⟩ := hc
  trivial

theorem openedAB_disk {rs : List (Except Exc Value)} {n : CtrlNode}
    (h : runOps openedAB = some (rs, n)) :
    (∃ fs, Disk n fs) ∧ Partitioned n := by
  obtain ⟨n₀, hboot, hexec⟩ := Option.bind_eq_some_iff.mp h
  obtain ⟨r₁, _, n₁, -, hends₁, hrest⟩ := execOps_cons hexec
  obtain ⟨r₂, _, n₂, -, hends₂, hrest⟩ := execOps_cons hrest
  obtain ⟨r₃, _, _, -, hends₃, hnil⟩ := execOps_cons hrest
  cases hnil
  have hmode : pyInt (ascii "4") = some 4 ∧ pyInt (ascii "15") = some 15 := by decide
  obtain ⟨fs₀, hdisk₀⟩ := disk_boot hboot
  obtain ⟨fs₁, hdisk₁, -⟩ := hdisk₀.turn hends₁
    (soundTurn_open cstrOf_pathA hmode.1 hmode.2 (by decide)) counterKept_open
  obtain ⟨fs₂, hdisk₂, -⟩ := hdisk₁.turn hends₂
    (soundTurn_open cstrOf_pathB hmode.1 hmode.2 (by decide)) counterKept_open
  obtain ⟨fs₃, hdisk₃, -⟩ := hdisk₂.turn hends₃ (fun c hc => nomatch hc) fun c hc => nomatch hc
  have hpools₀ := partitioned_started (mounted_boot hboot).1
  exact ⟨⟨fs₃, hdisk₃⟩,
    partitioned_turn (partitioned_turn (partitioned_turn hpools₀ hends₁) hends₂) hends₃⟩

theorem range_first : (0 : Int) ≤ 0 ∧ (0 : Int) < MAX_FILE_OPEN := by decide

/-- Two processes of the user 0, one with `/a` open and one with `/b`. -/
def pair : Handles Bool Bool where
  users := .empty
  uid _ := 0
  login _ := caller
  fits _ := fits_caller
  proc b := b
  fd _ := 0
  range _ := range_first
  file b := if b then 3 else 2

def pairDesc (b : Bool) : FileDesc :=
  { FileDesc.zero with type := T_FILE, serverFd := if b then 1 else 0 }

def pairFds (b : Bool) : Fds := fun i => if i = 0 then some (pairDesc b) else none

/-- The two files are there and empty, and the user 0 has them open. -/
def showsPair (n : CtrlNode) : Bool :=
  decide (⟨(cstrOf (ascii "a")).getD [], 2, S_FIL⟩ ∈ Cfs.DiskView.entries n.world.dt 1) &&
    decide (⟨(cstrOf (ascii "b")).getD [], 3, S_FIL⟩ ∈ Cfs.DiskView.entries n.world.dt 1) &&
    Cfs.Layout.entryFb (n.world.dt.data 0) 0 == 1 &&
    Cfs.Layout.entryType (n.world.dt.data 0) 0 == Cfs.Layout.S_DIR &&
    CtrlNode.getFile n 0 0 == some ⟨2, 4, Pool.S_FIL⟩ && CtrlNode.getFile n 0 1 == some ⟨3, 4,
      Pool.S_FIL⟩ &&
    metaFlen (n.world.dt.data 2) == 0 && metaFlen (n.world.dt.data 3) == 0

theorem pair_coherent {n : CtrlNode} {rs : List (Except Exc Value)}
    (h : runOps openedAB = some (rs, n))
    (hshows : showsPair n = true) : Coherent pair ⟨siteA n freshNode, pairFds, fun _ => []⟩ := by
  simp only [showsPair, Bool.and_eq_true, beq_iff_eq, decide_eq_true_eq] at hshows
  obtain ⟨⟨⟨⟨⟨⟨⟨hmemA, hmemB⟩, hfb⟩, htype⟩, hgetA⟩, hgetB⟩, hlenA⟩, hlenB⟩ := hshows
  obtain ⟨⟨fs, hdisk⟩, hpools⟩ := openedAB_disk h
  have hvast : Ample (siteA n freshNode).ctrl.world.env := Cfs.ChainLaws.vast_ample
  have hpools' : Partitioned (siteA n freshNode).ctrl := hpools
  have hdisk' : Disk (siteA n freshNode).ctrl fs := hdisk.same rfl
  refine coherent_empty hdisk' hvast (fun a d hd => ?_) hpools' (fun b => ?_) fun b => ?_
  · rw [(siteA_node hd).2]
    exact fun k => rfl
  · cases b with
    | false => exact ⟨live_inRoot hfb htype hmemA, hlenA⟩
    | true => exact ⟨live_inRoot hfb htype hmemB, hlenB⟩
  · cases b with
    | false => exact ⟨pairDesc false, _, ⟨rfl, rfl, hgetA, rfl⟩, rfl⟩
    | true => exact ⟨pairDesc true, _, ⟨rfl, rfl, hgetB, rfl⟩, rfl⟩

/-- A process writes a byte to its file, which is empty. -/
theorem step_first {s : Shared Bool} {b : Bool} {t : Cluster} {fds' : Fds} {byte : UInt8}
    (hrun : Libc.Transfer.sbpWrite (netLink .empty 0) caller (s.fds b) 0 [byte] 1 s.cluster
      = .ok ((1, fds'), t)) (hslot : s.fds b 0 = some (pairDesc b))
    (hempty : s.contents (pair.file b) = []) (hmax : s.cluster.ctrl.world.dt.sb.maxBlockNum ≤ 1) :
    Step pair s (.own b (.write [byte] 1))
      ⟨t, Function.update s.fds b fds', Function.update s.contents (pair.file b) [byte]⟩ := by
  have hpos : (s.session pair b).pos (pair.client b) = 0 := (pos_slot hslot).trans rfl
  have hcontent : (s.session pair b).content = [] := hempty
  have hbytes : written (s.session pair b).content ((s.session pair b).pos (pair.client b)) [byte] 1
      = [byte] := by
    rw [hpos, hcontent]
    rfl
  have hwrite := Contents.Step.write (c := pair.client b) (s := s.session pair b) hrun
    fun hneg => absurd hneg (by decide)
  rw [hbytes] at hwrite
  refine .own (i := b) ⟨hwrite, fun d hd => ?_⟩
  obtain rfl := Option.some.inj (hslot.symm.trans hd)
  unfold SoundWrite
  rw [hcontent]
  have hend : 0 + 1 ≤ MAX_END := by decide
  refine ⟨Nat.le_refl 0, Nat.le_refl 1, hend, ?_, ?_⟩
  · change WriteAligned 0 0 1
    unfold WriteAligned
    rw [if_neg (by decide)]
    exact ⟨rfl, .inl (by decide)⟩
  · change s.cluster.ctrl.world.dt.sb.maxBlockNum + growth (blocksFor 0) 1 < 2 ^ 64
    have hgrowth : growth (blocksFor 0) 1 = 1 := by decide
    omega

/-- Each process writes a byte to its file, and the second write leaves the first file alone. -/
theorem isolation_run_pair : ∃ s s', Reach (Coherent pair) (Step pair) s ∧
    Step pair s (.own true (.write (ascii "y") 1)) s' ∧ s'.contents 2 = ascii "x" ∧
    s'.contents 3 = ascii "y" ∧ Spared pair false (.own true (.write (ascii "y") 1)) s s' ∧
    ∀ b, Exact (pair.client b) (s'.session pair b) := by
  have hrun : ((runOps openedAB).any fun q => showsPair q.2 && q.2.world.dt.sb.maxBlockNum == 0 &&
      (Libc.Transfer.sbpWrite (netLink .empty 0) caller (pairFds false) 0 (ascii "x") 1
        (siteA q.2 freshNode)).toOption.any fun p => p.1.1 == 1 &&
          p.2.ctrl.world.dt.sb.maxBlockNum == 1 &&
          (Libc.Transfer.sbpWrite (netLink .empty 0) caller (pairFds true) 0 (ascii "y") 1
            p.2).toOption.any fun v => v.1.1 == 1) = true := by
    decide +kernel
  simp only [Option.any_eq_true, Bool.and_eq_true, beq_iff_eq, Prod.exists] at hrun
  obtain ⟨_, n, hops, ⟨hshows, hmax⟩, r₁, fds₁, t₁, hwrite₁, ⟨hr₁, hmax₁⟩, r₂, fds₂, t₂,
    hwrite₂, hr₂⟩ := hrun
  obtain rfl : r₁ = 1 := hr₁
  obtain rfl : r₂ = 1 := hr₂
  have hlow : (siteA n freshNode).ctrl.world.dt.sb.maxBlockNum ≤ 1 := hmax.trans_le (Nat.zero_le 1)
  have hfirst := step_first (s := ⟨siteA n freshNode, pairFds, fun _ => []⟩) (b := false)
    (toOption_some hwrite₁) rfl rfl hlow
  have hsecond := step_first
    (s := ⟨t₁, Function.update pairFds false fds₁,
      Function.update (fun _ => []) (pair.file false) [0x78]⟩)
    (b := true) (toOption_some hwrite₂) rfl rfl hmax₁.le
  have hreach := (Reach.init (pair_coherent hops hshows)).step hfirst
  have hspared := (isolation_run hreach false).2 hsecond (by unfold Move.uses; decide)
  exact ⟨_, _, hreach, hsecond, rfl, rfl, hspared,
    fun b => (isolation_run (hreach.step hsecond) b).1⟩

end Sbpfs.Net.Isolation
