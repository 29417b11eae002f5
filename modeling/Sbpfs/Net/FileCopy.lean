import Sbpfs.Net.FileArray

/-!
# Copying files

`put` and `get`, which copy a local file to an open file and back in pieces of a megabyte. A piece
lies in one block, so its entries always cut its range. Neither of the two looks at what a write or
a read returns: a piece that is refused is missing, and those behind it move up.
-/
namespace Sbpfs.Net.FileCopy

open Sbpfs.Lib.Program Sbpfs.Lib.Pack
open Sbpfs.Cfs.Layout (BLOCKSIZE metaFlen)
open Sbpfs.Cfs.Rules Sbpfs.Cfs.Image Sbpfs.Cfs.Data Sbpfs.Cfs.DataSpec Sbpfs.Cfs.BlockSpec
open Sbpfs.Cfs.TilingLaws
open Sbpfs.Wire.Head Sbpfs.Wire.Number Sbpfs.Libc.Request Sbpfs.Libc.Table
open Sbpfs.Libc.Recv (overwrite)
open Sbpfs.Libc.Transfer Sbpfs.Libc.TransferSpec Sbpfs.Libc.TransferLaws
open Sbpfs.Cfs.FileHeaders (file_header)
open Sbpfs.Cfs.Invariants (calm)
open Sbpfs.Spec.FileTree
open Sbpfs.Cnode Sbpfs.Cnode.Ops Sbpfs.Cnode.OpenObjects Sbpfs.Cnode.Pool Sbpfs.Cnode.Libcfs
open Sbpfs.Cnode.DTree Sbpfs.Cnode.Frame Sbpfs.Cnode.DiskSteps Sbpfs.Cnode.RequestFields
open Sbpfs.Cnode.Replicas
open Sbpfs.Cnode.Reading Sbpfs.Cnode.Homes
open Sbpfs.Cnode.ReplyLaws (sieve Located)
open Sbpfs.Cnode.Descriptors (getFile_onlyC runOps)
open Sbpfs.Dnode.Blockman Sbpfs.Dnode.BlockSpec
open Sbpfs.Dnode.BlockStore (freshNode)
open Sbpfs.Net.Parties Sbpfs.Net.Granting Sbpfs.Net.FailedWrites Sbpfs.Net.Mirror
open Sbpfs.Net.ReadSteps Sbpfs.Net.Contents Sbpfs.Net.FileArray
open Sbpfs.Net.Acknowledged (byteA)

@[simp] abbrev bufsize : Nat := 1024 * 1024

/-! ## Putting a file -/

/-- The rounds of the loop of `put`: what is written, and the rest of the local file, `none` after
"Error occur". -/
def putRounds : Nat → Str → List Str × Option Str
  | 0, rest => ([], some rest)
  | n + 1, rest =>
    if rest.take bufsize ≠ [] ∧ (rest.take bufsize).length = bufsize then
      (rest.take bufsize :: (putRounds n (rest.drop bufsize)).1,
        (putRounds n (rest.drop bufsize)).2)
    else ([], none)

/-- What `put` writes, piece by piece. `length` is the size it has asked for, `bytes` is what it
reads from the local file then. -/
def putPieces (length : Nat) (bytes : Str) : List Str :=
  match putRounds (length / bufsize) bytes with
  | (pieces, none) => pieces
  | (pieces, some rest) =>
    let r := rest.take (length % bufsize)
    if length % bufsize ≠ 0 ∧ r ≠ [] ∧ r.length = length % bufsize then pieces ++ [r] else pieces

/-- The writes of `put` and what they return, with reports in between. All data nodes that a write
asks answer with OK; only the control node refuses. -/
inductive Writes (c : Client) : List Str → Session → List Int → Session → Prop
  | nil {s : Session} : Writes c [] s [] s
  | write {piece : Str} {pieces : List Str} {s s' : Session} {r : Int} {rs : List Int} {fds' : Fds}
      {t : Cluster}
      (run : Libc.Transfer.sbpWrite (netLink c.users c.uid) c.login s.fds c.fd piece
        (.ofNat piece.length)
        s.cluster = .ok ((r, fds'), t))
      (answered : r < 0 → Refused c s (.ofNat piece.length))
      (counter : CounterFits s.cluster.ctrl s.content.length (s.pos c + piece.length))
      (rest : Writes c pieces ⟨t, fds', written s.content (s.pos c) piece r⟩ rs s') :
      Writes c (piece :: pieces) s (r :: rs) s'
  | notice {pieces : List Str} {s s' : Session} {rs : List Int} {e : Event} {n' : CtrlNode}
      (run : e.run s.cluster.ctrl = .ok (.ok (), n'))
      (rest : Writes c pieces ⟨{ s.cluster with ctrl := n' }, s.fds, s.content⟩ rs s') :
      Writes c pieces s rs s'

/-- The pieces whose writes have not failed. -/
def kept : List Str → List Int → Str
  | piece :: pieces, r :: rs => if r < 0 then kept pieces rs else piece ++ kept pieces rs
  | _, _ => []

/-- Sizes of pieces as long as the buffer; only the last one may be shorter. -/
def Chunked : List Nat → Prop
  | [] => True
  | n :: ns => 0 < n ∧ n ≤ bufsize ∧ (ns ≠ [] → n = bufsize) ∧ Chunked ns

section Pieces

variable {n : Nat} {rest : Str}

theorem putRounds_chunked (n : Nat) (rest : Str) :
    ∀ piece ∈ (putRounds n rest).1, piece.length = bufsize := by
  induction n generalizing rest with
  | zero => exact fun piece h => nomatch h
  | succ n ih =>
    intro piece h
    unfold putRounds at h
    split at h
    · rename_i hfull
      rcases List.mem_cons.mp h with rfl | h
      · exact hfull.2
      · exact ih _ piece h
    · cases h

theorem chunked_full {ns : List Nat} (h : ∀ n ∈ ns, n = bufsize) : Chunked ns := by
  induction ns with
  | nil => trivial
  | cons n ns ih =>
    have hn := h n (List.mem_cons_self ..)
    refine ⟨?_, Nat.le_of_eq hn, fun _ => hn, ih fun k hk => h k (List.mem_cons_of_mem _ hk)⟩
    simp only [bufsize] at hn
    omega

theorem chunked_concat {ns : List Nat} {last : Nat} (h : ∀ n ∈ ns, n = bufsize) (hpos : 0 < last)
    (hlast : last ≤ bufsize) : Chunked (ns ++ [last]) := by
  induction ns with
  | nil => exact ⟨hpos, hlast, fun hne => absurd rfl hne, trivial⟩
  | cons n ns ih =>
    have hn := h n (List.mem_cons_self ..)
    refine ⟨?_, Nat.le_of_eq hn, fun _ => hn, ih fun k hk => h k (List.mem_cons_of_mem _ hk)⟩
    simp only [bufsize] at hn
    omega

theorem sizes_full {pieces : List Str} (h : ∀ piece ∈ pieces, piece.length = bufsize) :
    ∀ n ∈ pieces.map List.length, n = bufsize := by
  intro n hn
  obtain ⟨piece, hpiece, rfl⟩ := List.mem_map.mp hn
  exact h piece hpiece

theorem putPieces_chunked (length : Nat) (bytes : Str) :
    Chunked ((putPieces length bytes).map List.length) := by
  have hrounds := putRounds_chunked (length / bufsize) bytes
  unfold putPieces
  split
  · rename_i pieces h
    rw [h] at hrounds
    exact chunked_full (sizes_full hrounds)
  · rename_i pieces rest h
    rw [h] at hrounds
    dsimp only
    split
    · rename_i hlast
      obtain ⟨-, hne, hlen⟩ := hlast
      have hmod : length % bufsize < bufsize := Nat.mod_lt _ (by decide)
      rw [List.map_append]
      exact chunked_concat (sizes_full hrounds) (List.length_pos_iff.mpr hne) (by omega)
    · exact chunked_full (sizes_full hrounds)

/-- As long as the local file lasts, the rounds take it apart. -/
theorem putRounds_done (h : n * bufsize ≤ rest.length) :
    (putRounds n rest).2 = some (rest.drop (n * bufsize)) ∧
      (putRounds n rest).1.flatten = rest.take (n * bufsize) := by
  induction n generalizing rest with
  | zero =>
    rw [Nat.zero_mul, List.drop_zero, List.take_zero]
    exact ⟨rfl, rfl⟩
  | succ n ih =>
    rw [Nat.succ_mul] at h ⊢
    have hlen : (rest.take bufsize).length = bufsize := List.length_take_of_le (by omega)
    have hfull : rest.take bufsize ≠ [] ∧ (rest.take bufsize).length = bufsize := by
      refine ⟨fun hnil => ?_, hlen⟩
      rw [hnil, List.length_nil] at hlen
      exact absurd hlen (by decide)
    have hleft : n * bufsize ≤ (rest.drop bufsize).length := by
      rw [List.length_drop]
      exact Nat.le_sub_of_add_le h
    obtain ⟨hrest, hpieces⟩ := @ih (rest.drop bufsize) hleft
    unfold putRounds
    rw [if_pos hfull]
    dsimp only
    constructor
    · rw [hrest, List.drop_drop, Nat.add_comm]
    · rw [List.flatten_cons, hpieces, Nat.add_comm, List.take_add]

/-- A local file that has the size that was asked for is written whole. -/
theorem putPieces_flatten (bytes : Str) : (putPieces bytes.length bytes).flatten = bytes := by
  have hle : bytes.length / bufsize * bufsize ≤ bytes.length := Nat.div_mul_le_self _ _
  obtain ⟨hrest, hpieces⟩ := putRounds_done hle
  have hlen : (bytes.drop (bytes.length / bufsize * bufsize)).length = bytes.length % bufsize := by
    have hdiv := Nat.div_add_mod' bytes.length bufsize
    rw [List.length_drop]
    omega
  have hall := List.take_append_drop (bytes.length / bufsize * bufsize) bytes
  generalize hq : putRounds (bytes.length / bufsize) bytes = q at hrest hpieces
  obtain ⟨pieces, left⟩ := q
  dsimp only at hrest hpieces
  subst hrest
  unfold putPieces
  rw [hq]
  dsimp only
  rw [← hlen, List.take_length]
  by_cases hnil : bytes.drop (bytes.length / bufsize * bufsize) = []
  · rw [if_neg fun h => h.2.1 hnil, hpieces]
    rw [hnil, List.append_nil] at hall
    exact hall
  · rw [if_pos ⟨fun hz => hnil (List.length_eq_zero_iff.mp hz), hnil, rfl⟩,
      List.flatten_append, hpieces,
      List.flatten_singleton]
    exact hall

theorem putRounds_prefix (n : Nat) (rest : Str) :
    (putRounds n rest).1.flatten ++ (putRounds n rest).2.getD [] <+: rest := by
  induction n generalizing rest with
  | zero => exact List.prefix_refl rest
  | succ n ih =>
    unfold putRounds
    split
    · have hall := List.prefix_append_right_inj (rest.take bufsize) |>.mpr (ih (rest.drop bufsize))
      rw [List.take_append_drop] at hall
      rwa [List.flatten_cons, List.append_assoc]
    · exact List.nil_prefix

/-- Whatever the local file has become, its front is written. -/
theorem putPieces_front (length : Nat) (bytes : Str) :
    (putPieces length bytes).flatten <+: bytes := by
  have hrounds := putRounds_prefix (length / bufsize) bytes
  unfold putPieces
  split
  · rename_i pieces h
    rw [h, Option.getD_none, List.append_nil] at hrounds
    exact hrounds
  · rename_i pieces rest h
    rw [h, Option.getD_some] at hrounds
    dsimp only
    split
    · rw [List.flatten_append, List.flatten_singleton]
      exact ((List.prefix_append_right_inj _).mpr (List.take_prefix _ _)).trans hrounds
    · exact (List.prefix_append _ _).trans hrounds

end Pieces

/-! ## One piece -/

section Piece

variable {c : Client} {s : Session} {t : Cluster} {file : FileDes} {recs : List Rec}
    {d d' : FileDesc}
  {piece buf : Str} {len : UInt64} {r : Int} {fds' : Fds}

/-- A range that begins at a multiple of the piece size and is not longer than a piece lies in one
block, and where it needs a new block it begins with it. -/
theorem piece_aligned {len offset n : Nat} (hoff : offset % bufsize = 0) (hn : 0 < n ∧ n ≤ bufsize)
    (hin : offset ≤ len) :
    HeadAligned offset (offset + n) ∧ WriteAligned len offset (offset + n) := by
  have hhead : HeadAligned offset (offset + n) := by
    left
    simp only [bufsize] at hoff hn
    simp only [blocksFor_eq, BLOCKSIZE]
    omega
  refine ⟨hhead, ?_⟩
  unfold WriteAligned
  split
  · exact hhead
  · rename_i hgrow
    simp only [bufsize] at hoff hn
    simp only [blocksFor_eq, BLOCKSIZE] at hgrow ⊢
    omega

theorem pos_slot (hslot : s.fds c.fd.toNat = some d) : s.pos c = d.offset.toNat := by
  unfold Session.pos
  rw [hslot]
  rfl

/-- A write that does not fail has written all. -/
theorem writeFile_whole (hopen : OpenAs c s d file)
    (hfile : FileThere s.cluster.ctrl (argI file.fb).toNat s.content.length recs)
    (hs : SoundWrite s d buf len)
    (h : writeFile (netLink c.users c.uid) c.login d buf len s.cluster = .ok ((r, d'), t)) :
    r < 0 ∨ r = len.toNat := by
  obtain ⟨-, ents, s₁, hask, hcase⟩ := writeFile_done h
  obtain ⟨q, n', hcall, rfl, hents⟩ := askBlocks_done (serve_write _ _ _) hask
  rcases hcase with ⟨-, rfl, -⟩ | ⟨es, rfl, hblocks⟩
  · exact .inl (by decide)
  rcases hents with ⟨-, hnone⟩ | ⟨data, rfl, hents⟩
  · cases hnone
  rcases write_granted (hfile.opened hopen.found) (fun _ => hs.2.2.1) hcall with ⟨-, e, he⟩ |
    ⟨-, fs, chain, owner, flags, ips, w, reply, news, w₁, cs, -, hwrote, hq⟩
  · cases he
  rcases hq with ⟨hdata, hsend⟩ | ⟨⟨e, he⟩, -⟩
  · cases hdata
    cases hents hsend
    have htiles := hs.tiles hfile.count hwrote.alloc.length
    have hlen := lengths_tiles htiles
    rcases writeBlocks_done hblocks with ⟨hret, -⟩ | ⟨hneg, -⟩
    · exact .inr (by omega)
    · exact .inl (by omega)
  · cases he

/-- What the write of a piece leaves. -/
structure Put (c : Client) (s : Session) (piece : Str) (r : Int) (s' : Session) : Prop where
  holding : Holding c s'
  outcome : (r < 0 ∧ s'.pos c = s.pos c ∧ s'.content = s.content) ∨
    (r = piece.length ∧ s'.pos c = s.pos c + piece.length ∧
      s'.content = overwrite s.content (s.pos c) piece)

theorem put_piece (h : Holding c s) (hpos : s.pos c % bufsize = 0)
    (hin : s.pos c ≤ s.content.length)
    (hn : 0 < piece.length ∧ piece.length ≤ bufsize) (hend : s.pos c + piece.length ≤ MAX_END)
    (hcounter : CounterFits s.cluster.ctrl s.content.length (s.pos c + piece.length))
    (hanswered : r < 0 → Refused c s (.ofNat piece.length))
    (hrun : Libc.Transfer.sbpWrite (netLink c.users c.uid) c.login s.fds c.fd piece
      (.ofNat piece.length)
      s.cluster = .ok ((r, fds'), t)) :
    Put c s piece r ⟨t, fds', written s.content (s.pos c) piece r⟩ := by
  obtain ⟨d, file, recs, hopen, hfile, hm⟩ := h.file
  have hslot := pos_slot hopen.slot
  have hlen : (UInt64.ofNat piece.length).toNat = piece.length := by
    simp only [bufsize] at hn
    exact UInt64.toNat_ofNat_of_lt' (show piece.length
      < UInt64.size by simp only [UInt64.size]; omega)
  have hsound : SoundWrite s d piece (.ofNat piece.length) := by
    rw [hslot] at hpos hin hend hcounter
    refine ⟨hin, ?_, ?_, ?_, ?_⟩
    · rw [hlen]
    · rw [hlen]
      exact hend
    · rw [hlen]
      exact (piece_aligned hpos hn hin).2
    · rw [hlen]
      exact hcounter
  have hstep : SoundStep c s (.write piece (.ofNat piece.length))
      ⟨t, fds', written s.content (s.pos c) piece r⟩ := by
    refine ⟨.write hrun fun hr => .inr (hanswered hr), fun d₁ hd₁ => ?_⟩
    obtain rfl := Option.some.inj (hopen.slot.symm.trans hd₁)
    exact hsound
  obtain ⟨d', hwrite, rfl⟩ := sbpWrite_done h.number hopen.slot hopen.type hrun
  have hwhole := writeFile_whole hopen hfile hsound hwrite
  obtain ⟨rfl, -⟩ := writeFile_done hwrite
  have hpos' : ∀ content, Session.pos c
      ⟨t, setSlot s.fds c.fd.toNat (some (advance d r)), content⟩ = (advance d r).offset.toNat :=
    fun content => pos_slot (if_pos rfl)
  refine ⟨holding_step h hstep, ?_⟩
  rw [hpos', hslot]
  rcases hwhole with hneg | hret
  · refine .inl ⟨hneg, ?_, if_pos hneg⟩
    unfold advance
    rw [if_neg (by omega)]
  · rw [hlen] at hret
    subst hret
    have hnonneg : ¬ ((piece.length : Int) < 0) := by omega
    refine .inr ⟨rfl, ?_, ?_⟩
    · have hmax := MAX_END_lt
      unfold advance
      rw [if_pos (by omega), Int.toNat_natCast]
      dsimp only
      rw [UInt64.toNat_add, hlen]
      omega
    · unfold written
      rw [if_neg hnonneg, Int.toNat_natCast, List.take_length]

end Piece

/-! ## A whole file -/

section Whole

variable {c : Client} {s s' : Session} {pieces : List Str} {rs : List Int}

/-- A string that is written right behind another one, which may reach behind the end. -/
theorem overwrite_behind {b x y : Str} {p : Nat} (h : p ≤ b.length) :
    overwrite (overwrite b p x) (p + x.length) y = overwrite b p (x ++ y) := by
  have hfront : (b.take p ++ x).length = p + x.length := by
    rw [List.length_append, List.length_take, Nat.min_eq_left h]
  unfold overwrite
  rw [List.take_left' hfront, List.drop_append, List.drop_of_length_le (by rw [hfront]; omega),
    List.nil_append, hfront,
    List.drop_drop, List.length_append]
  simp only [List.append_assoc]
  congr 4
  omega

/-- What the writes leave, from any multiple of the piece size on. -/
theorem writes_kept (h : Holding c s) (hpos : pieces ≠ [] → s.pos c % bufsize = 0)
    (hin : s.pos c ≤ s.content.length) (hchunked : Chunked (pieces.map List.length))
    (hend : s.pos c + pieces.flatten.length ≤ MAX_END) (hw : Writes c pieces s rs s') :
    Holding c s' ∧ rs.length = pieces.length ∧ s'.pos c = s.pos c + (kept pieces rs).length ∧
      s'.content = overwrite s.content (s.pos c) (kept pieces rs) := by
  induction hw with
  | nil => exact ⟨h, rfl, rfl, (overwrite_nil _ _).symm⟩
  | @write piece pieces s s' r rs fds' t run answered counter rest ih =>
    obtain ⟨hpiece, hshort, hfull, hchunked'⟩ := hchunked
    rw [List.flatten_cons, List.length_append] at hend
    have haligned := hpos (List.cons_ne_nil _ _)
    have hput := put_piece h haligned hin ⟨hpiece, hshort⟩ (by omega) counter answered run
    generalize (⟨t, fds', written s.content (s.pos c) piece r⟩ : Session) = s₁ at hput rest ih
    rw [kept, List.length_cons, List.length_cons]
    rcases hput.outcome with ⟨hneg, hsame, hcontent⟩ | ⟨hret, hmoved, hcontent⟩
    · -- a piece that is refused leaves everything where it was
      obtain ⟨hhold, hcount, hp, hc⟩ := ih hput.holding (fun _ => by rwa [hsame])
        (by rw [hsame, hcontent]; exact hin) hchunked' (by omega)
      rw [if_pos hneg, hp, hc, hsame, hcontent, hcount]
      exact ⟨hhold, rfl, rfl, rfl⟩
    · have hin' : s₁.pos c ≤ s₁.content.length := by
        rw [hmoved, hcontent, length_written hin]
        omega
      have haligned' : pieces ≠ [] → s₁.pos c % bufsize = 0 := by
        intro hne
        rw [hmoved, hfull fun hnil => hne (List.map_eq_nil_iff.mp hnil), Nat.add_mod_right]
        exact haligned
      obtain ⟨hhold, hcount, hp, hc⟩ := ih hput.holding haligned' hin' hchunked' (by omega)
      rw [if_neg (by omega), List.length_append, hc, hcontent, hmoved, overwrite_behind hin]
      exact ⟨hhold, by rw [hcount], by omega, rfl⟩
  | @notice pieces s s' rs e n' run rest ih =>
    have hstep : SoundStep c s (.notice e) ⟨{ s.cluster with ctrl := n' }, s.fds, s.content⟩ :=
      ⟨.notice run, trivial⟩
    exact ih (holding_step h hstep) hpos hin hchunked hend

theorem kept_all (hcount : rs.length = pieces.length) (h : ∀ r ∈ rs, 0 ≤ r) :
    kept pieces rs = pieces.flatten := by
  induction pieces generalizing rs with
  | nil => rfl
  | cons piece pieces ih =>
    cases rs with
    | nil => cases hcount
    | cons r rs =>
      have hr := h r (List.mem_cons_self ..)
      rw [kept, if_neg (by omega), List.flatten_cons,
        ih (Nat.succ.inj hcount) fun q hq => h q (List.mem_cons_of_mem _ hq)]

/-- What `put` leaves of a file that it has opened: the pieces that were not refused stand at its
front, behind them is what stood there before. Only where no piece was refused is that the local
file, if its size has not changed either. -/
theorem put_run {length : Nat} {bytes : Str} (h : Holding c s) (hpos : s.pos c = 0)
    (hend : bytes.length ≤ MAX_END) (hw : Writes c (putPieces length bytes) s rs s') :
    Holding c s' ∧ s'.content = kept (putPieces length bytes) rs ++
        s.content.drop (kept (putPieces length bytes) rs).length ∧
      (length = bytes.length → (∀ r ∈ rs, 0 ≤ r) → s'.content = bytes ++
        s.content.drop bytes.length) := by
  have hfits := (putPieces_front length bytes).length_le
  obtain ⟨hhold, hcount, -, hcontent⟩ := writes_kept h (fun _ => by rw [hpos]; rfl) (by omega)
    (putPieces_chunked length bytes) (by omega) hw
  have hfront : s'.content = kept (putPieces length bytes) rs ++
      s.content.drop (kept (putPieces length bytes) rs).length := by
    rw [hcontent, hpos]
    unfold overwrite
    rw [List.take_zero, List.nil_append, Nat.zero_add]
  refine ⟨hhold, hfront, ?_⟩
  rintro rfl hall
  rw [hfront, kept_all hcount hall, putPieces_flatten]

end Whole

/-- The file `/a` is made while there is no data node. -/
def lonelyA : List Op := [.openFile (ascii "/a") (ascii "4") (ascii "15") 0]

theorem lonelyA_holding {rs : List (Except Exc Value)} {n : CtrlNode}
    (h : runOps lonelyA = some (rs, n)) :
    NodeHolding n := by
  obtain ⟨n₀, hboot, hexec⟩ := Option.bind_eq_some_iff.mp h
  obtain ⟨r₁, _, n₁, -, hends₁, hnil⟩ := execOps_cons hexec
  cases hnil
  exact makesA_holding (mounted_boot hboot).2 hends₁

/-- What a write is worth that the control node refuses. -/
theorem sbpWrite_refused {σ : Type} {net : Link σ} {l : Login} {fds : Fds} {fd : Int} {d : FileDesc}
    {buf : Str} {len : UInt64} {st st' : σ} (hn : 0 ≤ fd ∧ fd < MAX_FILE_OPEN)
    (hslot : fds fd.toNat = some d) (htype : d.type = T_FILE)
    (hask : askBlocks net l d len "WRITE" st = .ok (none, st')) :
    Libc.Transfer.sbpWrite net l fds fd buf len st
      = .ok ((-1, setSlot fds fd.toNat (some d)), st') := by
  unfold Libc.Transfer.sbpWrite writeFile
  rw [if_neg (by omega), bind_run (slot_run hn hslot)]
  dsimp only
  rw [if_pos htype, bind_run (bind_run hask _)]
  rfl

/-- A megabyte and a byte. -/
def bytesA : Str := List.replicate bufsize 0x79 ++ ascii "x"

theorem putPieces_two {a b : Str} (ha : a.length = bufsize) (hb : b.length = 1) :
    putPieces (bufsize + 1) (a ++ b) = [a, b] := by
  have htake : (a ++ b).take bufsize = a := List.take_left' ha
  have hdrop : (a ++ b).drop bufsize = b := List.drop_left' ha
  have hne : a ≠ [] := by
    rintro rfl
    exact absurd ha (by decide)
  have hne' : b ≠ [] := by
    rintro rfl
    exact absurd hb (by decide)
  have hdiv : (bufsize + 1) / bufsize = 1 := by decide
  have hmod : (bufsize + 1) % bufsize = 1 := by decide
  have hlast : b.take 1 = b := List.take_of_length_le (Nat.le_of_eq hb)
  have hrounds : putRounds 1 (a ++ b) = ([a], some b) := by
    rw [putRounds, htake, hdrop, if_pos ⟨hne, ha⟩]
    rfl
  unfold putPieces
  rw [hdiv, hmod, hrounds]
  dsimp only
  rw [hlast, if_pos ⟨Nat.one_ne_zero, hne', hb⟩]
  rfl

theorem putPieces_bytesA :
    putPieces (bufsize + 1) bytesA = [List.replicate bufsize 0x79, ascii "x"] :=
  putPieces_two List.length_replicate rfl

/-- The megabyte is refused, then a data node reports, and the byte is written: it is all that the
file holds. -/
theorem put_run_refused : ∃ s s', Holding clientA s ∧ s.pos clientA = 0 ∧
    Writes clientA (putPieces (bufsize + 1) bytesA) s [-1, 1] s' ∧ s'.content = ascii "x" := by
  have hrun : ((runOps lonelyA).any fun q => showsFile q.2 0 [] &&
      q.2.world.dt.sb.maxBlockNum == 0 &&
      (askBlocks (netLink .empty 0) caller { FileDesc.zero with type := T_FILE }
        (.ofNat bufsize) "WRITE"
        (siteA q.2 freshNode)).toOption.any fun p => p.1.isNone &&
          ((Event.report [ascii "d"] [] (ascii "d") (ascii "1.2.3.4")).run p.2.ctrl).toOption.any
          fun e =>
            e.1.toOption.isSome && e.2.world.dt.sb.maxBlockNum == 0 &&
              (Libc.Transfer.sbpWrite (netLink .empty 0) caller callerFds 0 (ascii "x") 1
                { p.2 with ctrl := e.2 }).toOption.any fun w => w.1.1 == 1) = true := by
    decide +kernel
  simp only [Option.any_eq_true, Bool.and_eq_true, beq_iff_eq, Prod.exists,
    Option.isNone_iff_eq_none] at hrun
  obtain ⟨_, n, hops, ⟨hshows, hmax⟩, es, t, hask, rfl, e, n', hreport, ⟨hdone, hmax'⟩, r,
    fds, t', hwrite,
    rfl⟩ := hrun
  have hempty : FileThere n 2 0 [] := showsFile_there (lonelyA_holding hops) hshows List.nodup_nil
    fun r hr => absurd hr List.not_mem_nil
  have hmirrors : Mirrors [] [] (siteA n freshNode).nodes := fun i x r a d hx => nomatch hx
  have h0 : Holding clientA ⟨siteA n freshNode, callerFds, []⟩ :=
    holding_siteA rfl rfl rfl hempty (showsFile_live hshows).2 (fun k => rfl) hmirrors
  have hfds : setSlot callerFds 0 (some { FileDesc.zero with type := T_FILE }) = callerFds := by
    funext i
    unfold setSlot callerFds
    split <;> rfl
  have hrefused := @sbpWrite_refused _ (netLink .empty 0) caller callerFds 0 _
    (List.replicate bufsize 0x79) _ _ _
    (by decide) rfl rfl (toOption_some hask)
  rw [Int.toNat_zero, hfds] at hrefused
  have hfits : ∀ m k, m = 0 → k ≤ bufsize → m + growth (blocksFor 0) k < 2 ^ 64 := by
    rintro _ k rfl hk
    have hmax := blocksFor_mono hk
    have hfull : blocksFor bufsize = 1 := by decide
    unfold growth
    omega
  have hfull : (List.replicate bufsize (0x79 : UInt8)).length = bufsize := List.length_replicate
  obtain ⟨x, rfl⟩ : ∃ x, e = .ok x := by
    cases e with
    | ok x => exact ⟨x, rfl⟩
    | error x => cases hdone
  have hrest : Writes clientA [ascii "x"] ⟨t, callerFds, []⟩ [1] ⟨t', fds, ascii "x"⟩ := by
    refine .notice (toOption_some hreport) (.write (c := clientA) (toOption_some hwrite)
      (fun hneg => absurd hneg (by decide)) (hfits _ _ hmax' ?_) .nil)
    show 0 + 1 ≤ bufsize
    decide
  have hw : Writes clientA (putPieces (bufsize + 1) bytesA) ⟨siteA n freshNode,
      callerFds, []⟩ [-1, 1]
      ⟨t', fds, ascii "x"⟩ := by
    rw [← show written [] 0 (List.replicate bufsize 0x79) (-1)
      = [] from if_pos (by decide)] at hrest
    rw [putPieces_bytesA]
    refine .write (c := clientA) (by rw [hfull]; exact hrefused) (fun _ => ⟨_, t, rfl, ?_⟩) ?_ hrest
    · rw [hfull]
      exact toOption_some hask
    · refine hfits _ _ hmax ?_
      rw [show Session.pos clientA ⟨siteA n freshNode, callerFds, []⟩ = 0 from rfl,
        Nat.zero_add, hfull]
  have hend : bytesA.length ≤ MAX_END := by
    unfold bytesA
    rw [List.length_append, hfull]
    decide
  refine ⟨_, _, h0, rfl, hw, ?_⟩
  obtain ⟨-, hcontent, -⟩ := put_run h0 rfl hend hw
  rw [hcontent, putPieces_bytesA]
  simp only [kept, if_pos (by decide : (-1 : Int) < 0), if_neg (by decide : ¬ (1 : Int) < 0),
    List.append_nil,
    List.drop_nil]

/-! ## Getting a file -/

/-- What `get` asks for, one read after the other, where the file has `length` bytes. -/
def getPieces (length : Nat) : List Nat :=
  List.replicate (length / bufsize) bufsize ++
    if length % bufsize ≠ 0 then [length % bufsize] else []

/-- The reads of `get`, with what they return and what stands in the memory that `wrap_sbp_read` has
allocated for them, with reports in between. `get` looks at the length of the memory only, and ends
where there is none. -/
inductive Reads (c : Client) : List Nat → Session → List (Int × Str) → Session → Prop
  | done {s : Session} : Reads c [] s [] s
  | starved {n : Nat} {ns : List Nat} {s : Session} : Reads c (n :: ns) s [] s
  | read {n : Nat} {ns : List Nat} {s s' : Session} {buf buf' : Str} {r : Int}
      {fds' : Fds} {t : Cluster}
      {outs : List (Int × Str)} (memory : buf.length = n)
      (run : Libc.Transfer.sbpRead (netLink c.users c.uid) c.login s.fds c.fd buf
        (.ofNat n) s.cluster
        = .ok ((r, buf', fds'), t))
      (rest : Reads c ns ⟨t, fds', s.content⟩ outs s') : Reads c (n :: ns) s ((r, buf') :: outs) s'
  | notice {ns : List Nat} {s s' : Session} {e : Event} {n' : CtrlNode} {outs : List (Int × Str)}
      (run : e.run s.cluster.ctrl = .ok (.ok (), n'))
      (rest : Reads c ns ⟨{ s.cluster with ctrl := n' }, s.fds, s.content⟩ outs s') :
      Reads c ns s outs s'

/-- The bytes of the local file. -/
def copied (outs : List (Int × Str)) : Str := (outs.map Prod.snd).flatten

section Buffers

variable {σ : Type} {net : Link σ} {l : Login} {authCode buf buf' : Str} {ent : BlockEntry}
  {es : List BlockEntry} {ptr : Nat} {st st' : σ} {r : Int}

/-- Whatever comes of a read, the memory is as long as before. -/
theorem readBlocks_length (hptr : ptr ≤ buf.length)
    (h : readBlocks (readBlock net l authCode) es ptr buf st = .ok ((r, buf'), st')) :
    buf'.length = buf.length := by
  induction es generalizing ptr buf st with
  | nil =>
    cases h
    rfl
  | cons ent es ih =>
    obtain ⟨⟨k, buf₁⟩, s₁, hreplicas, hrest⟩ := bind_ok.mp h
    dsimp only at hrest
    rcases readReplicas_done hreplicas with ⟨rfl, data, -, hlen, hfits, rfl⟩ | ⟨rfl, rfl, -⟩
    · rw [if_pos rfl] at hrest
      have hroom : ptr + data.length ≤ buf.length := by omega
      have hsame := length_overwrite hroom
      rw [← hsame]
      exact ih (by omega) hrest
    · rw [if_neg (by decide)] at hrest
      cases hrest
      rfl

theorem fetched_hasNode {js : List (Fin (REDUNDANCY + 1))} {data : Str}
    (h : Fetched net l authCode ent js (some data) st st') : HasNode ent := by
  induction js generalizing st with
  | nil => cases h
  | cons j js ih =>
    cases h with
    | skip zero rest => exact ih rest
    | miss node heard fails rest => exact ih rest
    | hit node heard delivers => exact ⟨j, node⟩

theorem allFetched_hasNode {datas : List Str} (h : AllFetched net l authCode es datas st st') :
    ∀ e ∈ es, HasNode e := by
  induction h with
  | nil => exact fun e he => nomatch he
  | cons block rest ih =>
    intro e he
    rcases List.mem_cons.mp he with rfl | he
    · exact fetched_hasNode block
    · exact ih e he

end Buffers

/-- A block that the filter leaves a node is registered. -/
theorem registered_sieve {n : CtrlNode} {b : SendBlock} {q : Rec} (hloc : Located n b.blockNum)
    (hnum : b.blockNum = q.num) (hip : b.ip = q.ip) (h : HasNode (toEntry (sieve n b))) :
    Registered n q := by
  obtain ⟨users, husers, hall⟩ := hloc
  obtain ⟨j, hj⟩ := h
  change UInt32.ofNat (((sieve n b).ip[j.val]?).getD 0) ≠ 0 at hj
  refine ⟨users, hnum ▸ husers, hall, ?_⟩
  cases hkept : (sieve n b).ip[j.val]? with
  | none =>
    rw [hkept] at hj
    exact absurd rfl hj
  | some v =>
    rw [hkept, Option.getD_some] at hj
    obtain ⟨ip, hmem, rfl⟩ := List.mem_map.mp (List.mem_of_getElem? hkept)
    split at hj
    · rename_i huser
      obtain ⟨user, hin, haddr⟩ := huser
      rw [husers, Option.getD_some] at hin
      exact ⟨user, hin, ip, hip ▸ hmem, fun hzero => hj (by rw [hzero]; rfl), haddr⟩
    · exact absurd rfl hj

section OneRead

variable {c : Client} {s : Session} {t : Cluster} {file : FileDes} {recs : List Rec}
    {d d' : FileDesc}
  {buf buf' : Str} {len : UInt64} {r : Int} {fds' : Fds} {n : Nat}

/-- A read that has not failed was allowed, and its blocks are registered. -/
theorem read_made (h : Holding c s) (hopen : OpenAs c s d file)
    (hfile : FileThere s.cluster.ctrl (argI file.fb).toNat s.content.length recs)
    (hstart : d.offset.toNat ≤ s.content.length)
    (hrun : readFile (netLink c.users c.uid) c.login d buf len s.cluster = .ok ((r, buf', d'), t))
    (hr : 0 ≤ r) : FileRead c s d file len := by
  obtain ⟨fs, chain, owner, flags, hst, ho⟩ := hfile.disk
  obtain ⟨-, ents, s₁, hask, hcase⟩ := readFile_done hrun
  rcases hcase with ⟨-, rfl, -⟩ | ⟨es, rfl, hblocks⟩
  · omega
  obtain ⟨q, n', hcall, rfl, hents⟩ := askBlocks_done (serve_read _ _ _) hask
  rcases hents with ⟨-, hnone⟩ | ⟨data, rfl, hents⟩
  · cases hnone
  have hoff : argK (s64 d.offset.toNat) = d.offset := argK_s64 _
  have hlen : argK (s64 len.toNat) = len := argK_s64 _
  obtain ⟨hmay, rfl, hloc⟩ := read_returns (pyInt_decimal 0 _)
    (pyInt_decimal 0 (s64 d.offset.toNat))
    (pyInt_decimal 0 (s64 len.toNat)) hopen.found hopen.fileType hst ho h.memory
    (hoff.symm ▸ hstart) hcall
  rw [hoff, hlen] at hloc hents
  have hentry : ∀ {j : Nat} {b : SendBlock},
      (readEntries recs s.content.length d.offset.toNat len.toNat)[j]? = some b → ∃ q,
        recs[d.offset.toNat / BLOCKSIZE + j]? = some q ∧ b.blockNum = q.num ∧ b.ip = q.ip := by
    intro j b hb
    obtain ⟨q, hq, hnum, hip, -⟩ := readEntries_blocks hfile.count hstart hb
    exact ⟨q, hq, hnum, hip⟩
  have hsend : Sendable
      ((readEntries recs s.content.length d.offset.toNat len.toNat).map
        (sieve s.cluster.ctrl)) := by
    refine ⟨fun b hb => ?_, ?_⟩
    · obtain ⟨b, hb', rfl⟩ := List.mem_map.mp hb
      obtain ⟨j, hj⟩ := List.getElem?_of_mem hb'
      obtain ⟨q, hq, -, hip⟩ := hentry hj
      change (b.ip.map _).length = 3
      rw [List.length_map, hip]
      exact rec_shape hst ho (List.mem_of_getElem? hq)
    · have hle := file_len_le hst ho
      have hread := @readLen_le s.content.length d.offset.toNat len.toNat hstart
      rw [List.length_map, readEntries_length]
      exact (Nat.sub_le _ _).trans_lt ((blocksFor_max (hread.trans hle)).trans (by decide))
  cases hents hsend
  have hnodes : ∀ e ∈ ((readEntries recs s.content.length d.offset.toNat len.toNat).map
      (sieve s.cluster.ctrl)).map toEntry, HasNode e := by
    rcases readBlocks_done (Nat.zero_le _) hblocks with ⟨datas, hall, -⟩ | ⟨hneg, -⟩
    · exact allFetched_hasNode hall
    · omega
  refine ⟨hopen, hmay, hstart, fun i q hlow hhigh hq => ?_⟩
  rw [blockList_eq hst ho] at hq
  rw [expected_length] at hhigh
  -- the entry of the block
  have hj : i - d.offset.toNat / BLOCKSIZE
      < (readEntries recs s.content.length d.offset.toNat len.toNat).length := by
    rw [readEntries_length]
    omega
  have hb := List.getElem?_eq_getElem hj
  obtain ⟨q', hq', hnum, hip⟩ := hentry hb
  rw [Nat.add_sub_cancel' hlow, hq] at hq'
  obtain rfl := Option.some.inj hq'
  have hmem := List.mem_of_getElem? hb
  exact registered_sieve (hloc _ hmem) hnum hip
    (hnodes _ (List.mem_map_of_mem (List.mem_map_of_mem hmem)))

/-- What the read of a piece leaves. -/
structure Got (c : Client) (s : Session) (n : Nat) (r : Int) (piece : Str)
    (s' : Session) : Prop where
  holding : Holding c s'
  length : piece.length = n
  outcome : (r < 0 ∧ s'.pos c = s.pos c) ∨
    (r = n ∧ s'.pos c = s.pos c + n ∧ piece = slice s.content (s.pos c) n)

theorem get_piece (h : Holding c s) (hpos : s.pos c % bufsize = 0) (hn : 0 < n ∧ n ≤ bufsize)
    (hin : s.pos c + n ≤ s.content.length) (memory : buf.length = n)
    (hrun : Libc.Transfer.sbpRead (netLink c.users c.uid) c.login s.fds c.fd buf
      (.ofNat n) s.cluster
      = .ok ((r, buf', fds'), t)) : Got c s n r buf' ⟨t, fds', s.content⟩ := by
  obtain ⟨d, file, recs, hopen, hfile, hm⟩ := h.file
  have hslot := pos_slot hopen.slot
  have hlen : (UInt64.ofNat n).toNat = n := by
    simp only [bufsize] at hn
    exact UInt64.toNat_ofNat_of_lt' (show n < UInt64.size by simp only [UInt64.size]; omega)
  rw [hslot] at hpos hin
  obtain ⟨d', hread, rfl⟩ := sbpRead_done h.number hopen.slot hopen.type hrun
  obtain ⟨rfl, hafter⟩ := readFile_after hfile hm h.willing hread
  have hsame : buf'.length = buf.length := by
    obtain ⟨-, ents, s₁, -, hcase⟩ := readFile_done hread
    rcases hcase with ⟨-, -, rfl, -⟩ | ⟨es, -, hblocks⟩
    · rfl
    · exact readBlocks_length (Nat.zero_le _) hblocks
  refine ⟨h.after hopen hafter (if_pos rfl) (advance_same _ _).1 (advance_same _ _).2,
    hsame.trans memory, ?_⟩
  rw [pos_slot (s := ⟨t, _, s.content⟩) (if_pos rfl), hslot]
  rcases Int.lt_or_le r 0 with hneg | hr
  · refine .inl ⟨hneg, ?_⟩
    unfold advance
    rw [if_neg (by omega)]
  have hexpected : expected s d (.ofNat n) = slice s.content d.offset.toNat n := by
    unfold expected
    rw [hlen]
  have hcount : (slice s.content d.offset.toNat n).length = n := length_slice hin
  have hsound : SoundRead c s d file (.ofNat n) := by
    refine ⟨read_made h hopen hfile (by omega) hread hr, ?_⟩
    rw [hexpected, hcount]
    exact (piece_aligned hpos hn (show d.offset.toNat ≤ s.content.length by omega)).1
  obtain ⟨hret, hbuf⟩ := (holding_exact h d file buf _ hsound).1 r buf' _ t hrun hr
  rw [hexpected, hcount] at hret
  subst hret
  refine .inr ⟨rfl, ?_, ?_⟩
  · unfold advance
    rw [if_pos hr, Int.toNat_natCast]
    dsimp only
    obtain ⟨fs, chain, owner, flags, hst, ho⟩ := hfile.disk
    have hle := file_len_le hst ho
    have hmax := MAX_END_lt
    rw [UInt64.toNat_add, hlen]
    omega
  · rw [hbuf, hexpected]
    unfold overwrite
    rw [List.take_zero, List.nil_append, hcount, Nat.zero_add, ← memory, List.drop_length,
      List.append_nil,
      memory]

end OneRead

section WholeRead

variable {c : Client} {s s' : Session} {ns : List Nat} {outs : List (Int × Str)}

theorem getPieces_chunked (length : Nat) : Chunked (getPieces length) := by
  unfold getPieces
  split
  · rename_i hlast
    have hmod : length % bufsize < bufsize := Nat.mod_lt _ (by decide)
    exact chunked_concat (fun n hn => (List.mem_replicate.mp hn).2) (by omega) (by omega)
  · rw [List.append_nil]
    exact chunked_full fun n hn => (List.mem_replicate.mp hn).2

theorem getPieces_sum (length : Nat) : (getPieces length).sum = length := by
  have hdiv := Nat.div_add_mod' length bufsize
  unfold getPieces
  rw [List.sum_append, List.sum_replicate_nat]
  split
  · rw [List.sum_singleton]
    exact hdiv
  · rename_i hzero
    rw [not_not.mp hzero] at hdiv
    exact hdiv

theorem slice_prefix {content back : Str} {p n : Nat} (h : back <+: content.drop (p + n)) :
    slice content p n ++ back <+: content.drop p := by
  have hall := (List.prefix_append_right_inj (slice content p n)).mpr h
  unfold slice at hall ⊢
  rwa [← List.drop_drop, List.take_append_drop] at hall

/-- What the reads return, from any multiple of the piece size on. -/
theorem reads_got (h : Holding c s) (hpos : ns ≠ [] → s.pos c % bufsize = 0) (hchunked : Chunked ns)
    (hin : s.pos c + ns.sum ≤ s.content.length) (hr : Reads c ns s outs s') :
    Holding c s' ∧ s'.content = s.content ∧
      outs.map (fun o => o.2.length) = ns.take outs.length ∧
      kept (outs.map Prod.snd) (outs.map Prod.fst) <+: s.content.drop (s.pos c) := by
  induction hr with
  | done => exact ⟨h, rfl, rfl, List.nil_prefix⟩
  | starved => exact ⟨h, rfl, rfl, List.nil_prefix⟩
  | @read n ns s s' buf buf' r fds' t outs memory run rest ih =>
    obtain ⟨hn, hshort, hfull, hchunked'⟩ := hchunked
    rw [List.sum_cons] at hin
    have haligned := hpos (List.cons_ne_nil _ _)
    have hgot := get_piece h haligned ⟨hn, hshort⟩ (by omega) memory run
    have hcontent : (⟨t, fds', s.content⟩ : Session).content = s.content := rfl
    generalize (⟨t, fds', s.content⟩ : Session) = s₁ at hgot rest ih hcontent
    rw [List.map_cons, List.map_cons, List.map_cons, kept, List.length_cons,
      List.take_succ_cons, hgot.length]
    rcases hgot.outcome with ⟨hneg, hsame⟩ | ⟨hret, hmoved, hpiece⟩
    · -- a piece that has failed is asked for again under the next one's size
      obtain ⟨hhold, hc, hsizes, hfront⟩ := ih hgot.holding (fun _ => by rwa [hsame]) hchunked'
        (by rw [hcontent, hsame]; omega)
      rw [if_pos hneg, hsizes]
      rw [hcontent, hsame] at hfront
      exact ⟨hhold, hc.trans hcontent, rfl, hfront⟩
    · have haligned' : ns ≠ [] → s₁.pos c % bufsize = 0 := by
        intro hne
        rw [hmoved, hfull hne, Nat.add_mod_right]
        exact haligned
      obtain ⟨hhold, hc, hsizes, hfront⟩ := ih hgot.holding haligned' hchunked'
        (by rw [hcontent, hmoved]; omega)
      rw [hcontent, hmoved] at hfront
      rw [if_neg (by omega), hsizes, hpiece]
      exact ⟨hhold, hc.trans hcontent, rfl, slice_prefix hfront⟩
  | @notice ns s s' e n' outs run rest ih =>
    have hstep : SoundStep c s (.notice e) ⟨{ s.cluster with ctrl := n' }, s.fds, s.content⟩ :=
      ⟨.notice run, trivial⟩
    exact ih (holding_step h hstep) hpos hchunked hin

theorem copied_length (outs : List (Int × Str)) :
    (copied outs).length = (outs.map fun o => o.2.length).sum := by
  unfold copied
  rw [List.length_flatten, List.map_map]
  rfl

theorem kept_copied (h : ∀ o ∈ outs, 0 ≤ o.1) :
    kept (outs.map Prod.snd) (outs.map Prod.fst) = copied outs := by
  refine kept_all (by rw [List.length_map, List.length_map]) fun r hr => ?_
  obtain ⟨o, ho, rfl⟩ := List.mem_map.mp hr
  exact h o ho

/-- The header of the file says how many bytes were last written. -/
theorem header_length {d : FileDesc} {file : FileDes} (h : Holding c s)
    (hopen : OpenAs c s d file) :
    metaFlen (s.cluster.ctrl.world.dt.data (argI file.fb).toNat) = s.content.length := by
  obtain ⟨d₁, file₁, recs, hopen₁, hfile, -⟩ := h.file
  obtain rfl := Option.some.inj (hopen₁.slot.symm.trans hopen.slot)
  obtain rfl := Option.some.inj (hopen₁.found.symm.trans hopen.found)
  obtain ⟨fs, chain, owner, flags, hst, ho⟩ := hfile.disk
  exact (file_header hst ho).1

/-- What `get` makes of a file that it has opened, where `length` is what the file's header says.
All pieces have the sizes that were asked for, whatever has become of their reads; those whose reads
have not failed are the front of the file, in order. Only where none has failed, and memory was
there for all of them, is the local file a copy. -/
theorem get_run {d : FileDesc} {file : FileDes} {length : Nat} (h : Holding c s)
    (hpos : s.pos c = 0)
    (hopen : OpenAs c s d file)
    (hlength : length = metaFlen (s.cluster.ctrl.world.dt.data (argI file.fb).toNat))
    (hr : Reads c (getPieces length) s outs s') :
    Holding c s' ∧ s'.content = s.content ∧
      outs.map (fun o => o.2.length) = (getPieces length).take outs.length ∧
      kept (outs.map Prod.snd) (outs.map Prod.fst) <+: s.content ∧
      ((∀ o ∈ outs, 0 ≤ o.1) → outs.length = (getPieces length).length → copied outs
        = s.content) := by
  have hsize : length = s.content.length := hlength.trans (header_length h hopen)
  obtain ⟨hhold, hc, hsizes, hfront⟩ :=
    reads_got h (fun _ => by rw [hpos]; rfl) (getPieces_chunked length)
      (by rw [hpos, getPieces_sum]; omega) hr
  rw [hpos, List.drop_zero] at hfront
  refine ⟨hhold, hc, hsizes, hfront, fun hall hcount => ?_⟩
  rw [kept_copied hall] at hfront
  refine hfront.eq_of_length ?_
  rw [copied_length, hsizes, hcount, List.take_length, getPieces_sum, hsize]

end WholeRead

/-! ## A file that can be had -/

/-- The reads of `get` into the memory `bufs`, with nobody else about. -/
def getFile (c : Client) : List Str → Session → Except Stop (List (Int × Str) × Session)
  | [], s => .ok ([], s)
  | buf :: bufs, s => do
    let ((r, buf', fds'), t) ← Libc.Transfer.sbpRead (netLink c.users c.uid) c.login s.fds c.fd buf
      (.ofNat buf.length) s.cluster
    let (outs, s') ← getFile c bufs ⟨t, fds', s.content⟩
    return ((r, buf') :: outs, s')

/-- The file may be read, its blocks are registered, and the nodes that they are to be kept at can
answer; nothing gets lost. -/
structure Available (c : Client) (s : Session) (file : FileDes) : Prop where
  openAs : ∃ d, OpenAs c s d file
  may : mayUse file SBP_O_RDONLY = true
  served : Served s.cluster
  blocks : ∀ r ∈ blockList s.cluster.ctrl.world.dt (argI file.fb).toNat,
    Registered s.cluster.ctrl r ∧
    ∀ a, Replica r a → ∃ node, s.cluster.nodes a = some node ∧ Able node (.ofNat r.num)

section Answered

variable {c : Client} {s : Session} {file : FileDes} {n : Nat} {buf : Str}

theorem registered_onlyC {n n' : CtrlNode} {r : Rec} (h : OnlyC n n') (hr : Registered n r) :
    Registered n' r := by
  unfold Registered at hr ⊢
  rw [h.blockmap, h.ipmap]
  exact hr

/-- A piece of a file that can be had is delivered, and the next one can be had. -/
theorem available_read (h : Holding c s) (ha : Available c s file) (hpos : s.pos c % bufsize = 0)
    (hn : 0 < n ∧ n ≤ bufsize) (hin : s.pos c + n ≤ s.content.length) (memory : buf.length = n) :
    ∃ r buf' fds' t, Libc.Transfer.sbpRead (netLink c.users c.uid) c.login s.fds c.fd buf (.ofNat n)
        s.cluster = .ok ((r, buf', fds'), t) ∧ 0 ≤ r ∧ Available c ⟨t, fds', s.content⟩ file := by
  obtain ⟨d, file', recs, hopen, hfile, hm⟩ := h.file
  obtain ⟨d₁, hopen₁⟩ := ha.openAs
  obtain rfl := Option.some.inj (hopen₁.slot.symm.trans hopen.slot)
  obtain rfl := Option.some.inj (hopen₁.found.symm.trans hopen.found)
  rw [pos_slot hopen.slot] at hpos hin
  have hlen : (UInt64.ofNat n).toNat = n := by
    simp only [bufsize] at hn
    exact UInt64.toNat_ofNat_of_lt' (show n < UInt64.size by simp only [UInt64.size]; omega)
  have hcount : (expected s d₁ (.ofNat n)).length = n := by
    unfold expected
    rw [hlen]
    exact length_slice hin
  have hread : FileRead c s d₁ file (.ofNat n) :=
    ⟨hopen, ha.may, by omega, fun i r _ _ hr => (ha.blocks r (List.mem_of_getElem? hr)).1⟩
  have hall : AllAnswer s d₁ file (.ofNat n) :=
    ⟨ha.served, fun i r _ _ hr => (ha.blocks r (List.mem_of_getElem? hr)).2⟩
  have hsound : SoundRead c s d₁ file (.ofNat n) := by
    refine ⟨hread, ?_⟩
    rw [hcount]
    exact (piece_aligned hpos hn (show d₁.offset.toNat ≤ s.content.length by omega)).1
  have hne : rangeEntries s d₁ (.ofNat n) recs ≠ [] := by
    intro hnil
    have hlength := congrArg List.length hnil
    unfold rangeEntries at hlength
    rw [readEntries_length, ← expected_length, hcount, List.length_nil] at hlength
    simp only [blocksFor_eq, BLOCKSIZE] at hlength
    omega
  obtain ⟨n', hgranted⟩ := read_granted hread h hfile hne
  have hreads := granted_reads hsound hfile
  have hsum := lengths_tiles (granted_tiles hsound hfile)
  have hserved : Served { s.cluster with ctrl := n' } := ha.served
  have hthere : Mirrors recs s.content ({ s.cluster with ctrl := n' } : Cluster).nodes := hm
  obtain ⟨t, hblocks, hatt⟩ := readBlocks_attended c.users c.uid d₁.authCode buf 0 h.fits hserved
    (fun e he => granted_answerable hread hall hfile hm hreads he) hthere hreads (by omega)
  -- what the control node has kept
  obtain ⟨q, n₁, hcall, hctrl, -⟩ := askBlocks_done (serve_read _ _ _) hgranted
  obtain rfl : n' = n₁ := congrArg Cluster.ctrl hctrl
  have hquiet : Quiet s.cluster.ctrl n' := (quiet_read _ _ _ _).rel hcall
  have honly : OnlyC s.cluster.ctrl n' := (stays_read _ _ _ _).rel hcall
  have hkeeps : t.ctrl = n' := hatt.unwritten.ctrl
  have hret : (0 : Int) ≤ ((0 + lengths (granted s d₁ (.ofNat n) recs) : Nat) : Int) :=
    Int.natCast_nonneg _
  generalize ((0 + lengths (granted s d₁ (.ofNat n) recs) : Nat) : Int) = ret at hblocks hret
  generalize overwrite buf 0 _ = buf' at hblocks
  have hrun : Libc.Transfer.sbpRead (netLink c.users c.uid) c.login s.fds c.fd buf
      (.ofNat n) s.cluster
      = .ok ((ret, buf', setSlot s.fds c.fd.toNat (some (advance d₁ ret))), t) := by
    rw [sbpRead_eq h.number hopen.slot hopen.type, bind_run (readFile_run hgranted hblocks)]
    rfl
  refine ⟨ret, buf', _, t, hrun, hret, ⟨⟨_, if_pos rfl, (advance_same _ _).1.trans hopen.type, ?_,
    hopen.fileType⟩, ha.may, hatt.served ha.served, fun r hr => ?_⟩⟩
  · rw [(advance_same _ _).2, hkeeps]
    exact (getFile_onlyC honly _ _).trans hopen.found
  · rw [hkeeps, hquiet.dt] at hr
    obtain ⟨hreg, hable⟩ := ha.blocks r hr
    refine ⟨hkeeps ▸ registered_onlyC honly hreg, fun a hrep => ?_⟩
    obtain ⟨node, hnode, hable⟩ := hable a hrep
    obtain ⟨node', hnode', hlooked⟩ := hatt.alive a node hnode
    exact ⟨node', hnode', hlooked.able hable⟩

/-- All reads come back with their pieces. -/
theorem getFile_available {bufs : List Str} (h : Holding c s) (ha : Available c s file)
    (hpos : bufs ≠ [] → s.pos c % bufsize = 0) (hchunked : Chunked (bufs.map List.length))
    (hin : s.pos c + (bufs.map List.length).sum ≤ s.content.length) :
    ∃ outs s', getFile c bufs s = .ok (outs, s') ∧ Reads c (bufs.map List.length) s outs s' ∧
      outs.length = bufs.length ∧ ∀ o ∈ outs, 0 ≤ o.1 := by
  induction bufs generalizing s with
  | nil => exact ⟨[], s, rfl, .done, rfl, fun o ho => nomatch ho⟩
  | cons buf bufs ih =>
    obtain ⟨hn, hshort, hfull, hchunked'⟩ := hchunked
    rw [List.map_cons, List.sum_cons] at hin
    have haligned := hpos (List.cons_ne_nil _ _)
    obtain ⟨r, buf', fds', t, hread, hr, hnext⟩ :=
      available_read h ha haligned ⟨hn, hshort⟩ (by omega) (rfl : buf.length = buf.length)
    have hgot := get_piece h haligned ⟨hn, hshort⟩ (by omega) rfl hread
    obtain ⟨-, hmoved, -⟩ := hgot.outcome.resolve_left fun hneg => by omega
    have haligned' : bufs ≠ [] → Session.pos c ⟨t, fds', s.content⟩ % bufsize = 0 := by
      intro hne
      rw [hmoved, hfull fun hnil => hne (List.map_eq_nil_iff.mp hnil), Nat.add_mod_right]
      exact haligned
    obtain ⟨outs, s', hrest, hreads, hcount, hall⟩ := ih hgot.holding hnext haligned' hchunked'
      (by rw [hmoved]; dsimp only; omega)
    refine ⟨(r, buf') :: outs, s', ?_, .read rfl hread hreads, congrArg Nat.succ hcount,
      fun o ho => ?_⟩
    · rw [getFile, hread]
      change (getFile c bufs ⟨t, fds', s.content⟩ >>= fun q => pure ((r, buf') :: q.1, q.2)) = _
      rw [hrest]
      rfl
    · rcases List.mem_cons.mp ho with rfl | ho
      · exact hr
      · exact hall o ho

/-- `get` makes a copy of a file that can be had, whatever stands in its memory before. -/
theorem get_available {bufs : List Str} (h : Holding c s) (ha : Available c s file)
    (hpos : s.pos c = 0)
    (hbufs : bufs.map List.length
      = getPieces (metaFlen (s.cluster.ctrl.world.dt.data (argI file.fb).toNat))) :
    ∃ outs s', getFile c bufs s = .ok (outs, s') ∧ Holding c s' ∧ copied outs = s.content := by
  obtain ⟨d, hopen⟩ := ha.openAs
  have hsize := header_length h hopen
  rw [hsize] at hbufs
  have hin : s.pos c + (bufs.map List.length).sum ≤ s.content.length := by
    rw [hpos, hbufs, getPieces_sum, Nat.zero_add]
  have hchunked : Chunked (bufs.map List.length) := hbufs ▸ getPieces_chunked _
  have haligned : s.pos c % bufsize = 0 := by rw [hpos]; rfl
  obtain ⟨outs, s', hrun, hreads, hcount, hall⟩ :=
    getFile_available h ha (fun _ => haligned) hchunked hin
  obtain ⟨hhold, -, hsizes, hfront⟩ := reads_got h (fun _ => haligned) hchunked hin hreads
  refine ⟨outs, s', hrun, hhold, ?_⟩
  rw [hpos, List.drop_zero, kept_copied hall] at hfront
  refine hfront.eq_of_length ?_
  rw [copied_length, hsizes, hcount, List.take_of_length_le (Nat.le_of_eq (List.length_map ..)),
    hbufs,
    getPieces_sum]

end Answered

/-! ## A file of one byte -/

/-- The file gets a byte, and the node reports its block. -/
def shown : List Turn := [⟨byteA, calm⟩, ⟨.addBlockInfo [nodeD] [0] nodeD addrD, calm⟩]

/-- A data node that has the block. -/
def byteNode : DNode :=
  { freshNode with files :=
    fun p => if p = pathOf 0 then some ⟨1, fun _ => 0x78⟩ else freshNode.files p }

theorem shown_holding {n₀ n : CtrlNode} {rs : List (Except Exc Value)} (h : NodeHolding n₀)
    (hshows : showsFile n₀ 0 [] = true) (hexec : execOps shown n₀ = some (rs, n)) :
    NodeHolding n := by
  obtain ⟨r₁, _, n₁, -, hends₁, hrest⟩ := execOps_cons hexec
  obtain ⟨r₂, _, _, -, hends₂, hnil⟩ := execOps_cons hrest
  cases hnil
  obtain ⟨hlive, hget⟩ := showsFile_live hshows
  have hcall : libCall n₀ byteA = some (.write 2 0 1 (parseIps n₀.ips)) :=
    libCall_write (by decide : pyInt (ascii "0") = some 0) (by decide : pyInt (ascii "0") = some 0)
      (by decide : pyInt (ascii "1") = some 1) hget
  refine nodeHolding_turn (nodeHolding_turn h hends₁ fun c hc => ?_) hends₂ ?_
  · cases hcall.symm.trans hc
    exact .inr ⟨hlive, by decide⟩
  · rintro c ⟨⟩

theorem mirrors_byte {n : CtrlNode} :
    Mirrors [⟨0, [0x01020304, 0, 0]⟩] (ascii "x") (siteA n byteNode).nodes := by
  intro i x r a d hx hr hrep hd
  obtain ⟨-, rfl⟩ := siteA_node hd
  obtain ⟨hi, rfl⟩ := List.getElem?_eq_some_iff.mp hx
  have hlen : (ascii "x").length = 1 := rfl
  obtain rfl : i = 0 := by omega
  obtain rfl := Option.some.inj hr
  exact byteOf_some.mpr ⟨Nat.zero_lt_one, rfl⟩

/-- The file of one byte can be had. -/
theorem exists_available : ∃ s, Holding clientA s ∧ s.pos clientA = 0 ∧ s.content = ascii "x" ∧
    Available clientA s ⟨2, 4, Pool.S_FIL⟩ ∧ metaFlen (s.cluster.ctrl.world.dt.data 2) = 1 := by
  have hrun : ((runOps openedA).any fun q => showsFile q.2 0 [] &&
      (execOps shown q.2).any fun v => showsFile v.2 1 [⟨0, [0x01020304, 0, 0]⟩] &&
        v.2.world.dt.sb.maxBlockNum == 1 && decide (v.2.blockmap.lookup 0 = some {nodeD}) &&
        v.2.ipmap.lookup nodeD == some addrD) = true := by
    decide +kernel
  simp only [Option.any_eq_true, Bool.and_eq_true, beq_iff_eq, Prod.exists,
    decide_eq_true_eq] at hrun
  obtain ⟨_, n₀, hops, hshows₀, _, n, hexec, ⟨⟨hshows, hmax⟩, hblock⟩, haddr⟩ := hrun
  have hbelow : ∀ r ∈ ([⟨0, [0x01020304, 0, 0]⟩] : List Rec), r.num
    < n.world.dt.sb.maxBlockNum := by
    rw [hmax]
    decide
  have hfile : FileThere n 2 1 [⟨0, [0x01020304, 0, 0]⟩] :=
    showsFile_there (shown_holding (openedA_holding hops) hshows₀ hexec) hshows (by decide) hbelow
  obtain ⟨fs, chain, owner, flags, hst, ho⟩ := hfile.disk
  have hget := (showsFile_live hshows).2
  refine ⟨⟨siteA n byteNode, callerFds, ascii "x"⟩,
    holding_siteA rfl rfl rfl hfile hget (fun k => rfl) mirrors_byte, rfl, rfl,
    ⟨⟨_, rfl, rfl, hget, rfl⟩, rfl, fun k => rfl, fun r hr => ?_⟩, (file_header hst ho).1⟩
  change r ∈ blockList n.world.dt 2 at hr
  rw [blockList_eq hst ho] at hr
  obtain rfl := List.mem_singleton.mp hr
  refine ⟨registered_homeD hblock haddr, fun a ha => ?_⟩
  exact ⟨byteNode, if_pos (replica_homeD ha), fun _ => rfl, fun _ => rfl,
    fun _ => rfl, by decide, by decide⟩

/-- The byte is read into memory that has another one. -/
theorem get_available_byte : ∃ s outs s', Holding clientA s ∧ s.content = ascii "x" ∧
    getFile clientA [ascii "?"] s = .ok (outs, s') ∧ copied outs = ascii "x" := by
  obtain ⟨s, hhold, hpos, hcontent, ha, hlen⟩ := exists_available
  have hsize : metaFlen (s.cluster.ctrl.world.dt.data (argI 2).toNat) = 1 := hlen
  have hbufs : [ascii "?"].map List.length
      = getPieces (metaFlen (s.cluster.ctrl.world.dt.data (argI 2).toNat)) := by
    rw [hsize]
    decide
  obtain ⟨outs, s', hrun, -, hcopied⟩ := get_available hhold ha hpos hbufs
  exact ⟨s, outs, s', hhold, hcontent, hrun, hcopied.trans hcontent⟩

theorem get_run_byte : ∃ s outs s', Holding clientA s ∧ s.content = ascii "x" ∧
    Reads clientA (getPieces 1) s outs s' ∧ copied outs = ascii "x" := by
  obtain ⟨s, hhold, hpos, hcontent, ha, hlen⟩ := exists_available
  have hsizes : [ascii "?"].map List.length = getPieces 1 := by decide
  have hchunked : Chunked ([ascii "?"].map List.length) := hsizes ▸ getPieces_chunked 1
  obtain ⟨outs, s', -, hreads, hcount, hall⟩ :=
    getFile_available hhold ha (fun _ => by rw [hpos]; rfl) hchunked
      (by rw [hpos, hcontent]; decide)
  rw [hsizes] at hreads
  obtain ⟨d, hopen⟩ := ha.openAs
  obtain ⟨-, -, -, -, hcopy⟩ := get_run hhold hpos hopen (show 1 = _ from hlen.symm) hreads
  exact ⟨s, outs, s', hhold, hcontent, hreads, (hcopy hall hcount).trans hcontent⟩

end Sbpfs.Net.FileCopy
