import Sbpfs.Net.Contents
import Sbpfs.Net.Messages
import Sbpfs.Net.Reporting

/-!
# The replies of the control node

The replies to the methods of which the client reads the data can all be taken apart: their texts
hold no line ends, their numbers are small, and the blocks that they list are as long as they say.
-/
namespace Sbpfs.Net.Replies

open Sbpfs.Lib.Program Sbpfs.Lib.Raise Sbpfs.Lib.Run Sbpfs.Lib.Search Sbpfs.Lib.Pack
    Sbpfs.Lib.Memory
open Sbpfs.Cfs.Layout (World Buf BLOCKSIZE)
open Sbpfs.Cfs.Data Sbpfs.Cfs.Calls
open Sbpfs.Wire.Head Sbpfs.Wire.HeadSpec Sbpfs.Wire.Number
open Sbpfs.Libc.Request Sbpfs.Libc.Recv
open Sbpfs.Libc.Transfer Sbpfs.Libc.Directory
open Sbpfs.Cnode Sbpfs.Cnode.RequestFields Sbpfs.Cnode.Libcfs Sbpfs.Cnode.DTree Sbpfs.Cnode.Ops
open Sbpfs.Cnode.ReplyLaws Sbpfs.Cnode.Descriptors Sbpfs.Cnode.OpenObjects
open Sbpfs.Cnode.Dispatch (Conn Reply okWith sendrep dataLen exceptDTree exceptArguments
  serveMethod)
open Sbpfs.Cnode.Pool (FileDes)
open Sbpfs.Net.Granting Sbpfs.Net.FailedWrites Sbpfs.Net.Queries Sbpfs.Net.Messages
open Sbpfs.Net.Contents (serve_read)
open Sbpfs.Cnode.Users (UsersInfo)

/-! ## The replies of the control node -/

/-- A text of moderate length in which no line ends, without a NUL and without the letter of
`Length`. -/
def Tame (s : Str) : Prop := s.length ≤ 512 ∧ ∀ c ∈ s, c ≠ 0 ∧ c ≠ 0x0d ∧ c ≠ 0x4c

instance (s : Str) : Decidable (Tame s) :=
  @instDecidableAnd _ _ (Nat.decLe _ _) (List.decidableBAll _ _)

/-- `senderr`'s reply. -/
def errWith (type detail : Str) : Reply :=
  ⟨ascii "SBPFS/1.0 ERROR", [(ascii "User", ascii "CNode_0"), (ascii "Content-Length", ascii "0"),
    (ascii "Error-Type", type), (ascii "Error-Detail", detail)], .none⟩

section Replies

variable {s : Str} {title type detail : Str} {more : Dict} {data : Value}

theorem Tame.line (h : Tame s) : Free crlf s := free_crlf fun c hc => (h.2 c hc).2.1

theorem Tame.nul (h : Tame s) : 0 ∉ s := fun hc => (h.2 0 hc).1 rfl

theorem Tame.append {s t : Str} (hs : Tame s) (ht : Tame t) (hlen : s.length + t.length ≤ 512) :
    Tame (s ++ t) := by
  refine ⟨by rwa [List.length_append], fun c hc => ?_⟩
  rcases List.mem_append.mp hc with hc | hc
  · exact hs.2 c hc
  · exact ht.2 c hc

theorem tame_decimal {z : Int} (h : z.natAbs < 10 ^ 20) :
    Tame (decimal 0 z) ∧ (decimal 0 z).length ≤ 21 := by
  have hlen : (numeral 10 z.natAbs).length ≤ 20 := numeral_length (by decide) h
  have hdigit : ∀ c ∈ numeral 10 z.natAbs, c ≠ 0 ∧ c ≠ 0x0d ∧ c ≠ 0x4c := by
    intro c hc
    have hd := numeral_digits c hc
    refine ⟨?_, ?_, ?_⟩ <;>
    · rintro rfl
      exact absurd hd (by decide)
  by_cases hz : z < 0
  · have htext : decimal 0 z = 0x2d :: numeral 10 z.natAbs := by
      rw [decimal, if_pos hz, zeroPad, Nat.zero_sub]
      rfl
    rw [htext]
    refine ⟨⟨?_, fun c hc => ?_⟩, ?_⟩
    · rw [List.length_cons]
      omega
    · rcases List.mem_cons.mp hc with rfl | hc
      · decide
      · exact hdigit c hc
    · rw [List.length_cons]
      omega
  · obtain ⟨n, rfl⟩ := Int.eq_ofNat_of_zero_le (Int.not_lt.mp hz)
    rw [decimal_nat]
    rw [Int.natAbs_natCast] at hlen hdigit
    exact ⟨⟨by omega, hdigit⟩, by omega⟩

/-- A reply with tame fields beside the user and the length of the data. -/
theorem plain_fields (htitle : TitleOk title ∧ Free CONTENT_LEN title ∧ title.length ≤ 15)
    (hnames : ∀ f ∈ more, (Free colon f.1 ∧ f.1 ≠ ascii "Protocol" ∧ f.1 ≠ ascii "Response") ∧
      Tame f.1)
    (hvalues : ∀ f ∈ more, Tame f.2) (hkeys : (USER :: CONTENT_LEN :: more.map Prod.fst).Nodup)
    (hfew : more.length ≤ 2) (hsize : dataLen data < 2 ^ 62)
    (hdata : ∀ stray, (dataBytes stray data).length = dataLen data) :
    Plain ⟨title, (USER, ascii "CNode_0") :: (CONTENT_LEN, decimal 0 (dataLen data : Int)) :: more,
      data⟩ := by
  obtain ⟨htitle, htwords, htlen⟩ := htitle
  have hnum := Reporting.decimal_sound (dataLen data)
  have hdigits : (decimal 0 (dataLen data : Int)).length ≤ 19 := by
    rw [decimal_nat]
    exact numeral_length (by decide) (by omega)
  refine ⟨htitle, fun e he => ?_, hkeys, ?_, ?_, htwords, fun e he hne => ?_, ?_, hsize, hdata⟩
  · rcases List.mem_cons.mp he with rfl | he
    · exact Reporting.entryOk_of (by decide) (by decide)
    rcases List.mem_cons.mp he with rfl | he
    · have hname : Free colon CONTENT_LEN ∧ Free crlf CONTENT_LEN ∧ CONTENT_LEN ≠ ascii "Protocol" ∧
          CONTENT_LEN ≠ ascii "Response" ∧ 0 ∉ CONTENT_LEN := by
        decide
      exact Reporting.entryOk_of hname hnum
    · obtain ⟨f, hf, rfl⟩ := List.mem_map.mp he
      obtain ⟨⟨hcolon, hprotocol, hresponse⟩, htame⟩ := hnames f hf
      exact Reporting.entryOk_of ⟨hcolon, htame.line, hprotocol, hresponse, htame.nul⟩
        ⟨(hvalues f hf).line, (hvalues f hf).nul⟩
  · simp only [List.length_cons, MAX_ENTRY_IN_HEAD]
    omega
  · exact List.mem_cons_of_mem _ (List.mem_cons_self ..)
  · rcases List.mem_cons.mp he with rfl | he
    · exact (by decide : Free CONTENT_LEN (entryLine ⟨USER, ascii "CNode_0"⟩))
    rcases List.mem_cons.mp he with rfl | he
    · exact absurd rfl hne
    · obtain ⟨f, hf, rfl⟩ := List.mem_map.mp he
      -- the letter stands in none of the parts
      intro hin
      have hletter : (0x4c : UInt8) ∈ entryLine ⟨f.1, f.2⟩ := hin.subset (by decide)
      rcases List.mem_append.mp hletter with hname | hvalue
      · rcases List.mem_append.mp hname with hname | hcolon
        · exact ((hnames f hf).2.2 _ hname).2.2 rfl
        · exact absurd hcolon (by decide)
      · exact ((hvalues f hf).2 _ hvalue).2.2 rfl
  · have hmore : (entryLines (entries more)).length ≤ more.length * 1028 := by
      clear hkeys hfew
      induction more with
      | nil => exact Nat.le_refl 0
      | cons f more ih =>
        have hrest := ih (fun f hf => hnames f (List.mem_cons_of_mem _ hf))
          fun f hf => hvalues f (List.mem_cons_of_mem _ hf)
        have hname := (hnames f (List.mem_cons_self ..)).2.1
        have hvalue := (hvalues f (List.mem_cons_self ..)).1
        have hcolon : colon.length = 2 := rfl
        have hcrlf : crlf.length = 2 := rfl
        simp only [entries, entryLines, entryLine, List.map_cons, List.flatMap_cons,
          List.length_append,
          List.length_cons] at hrest ⊢
        omega
    have huser : (entryLine ⟨USER, ascii "CNode_0"⟩ ++ crlf).length = 15 := by decide
    have hlength : (CONTENT_LEN ++ colon).length = 16 := by decide
    have hcrlf : crlf.length = 2 := rfl
    rw [genHead_eq]
    simp only [entries, entryLines, List.map_cons, List.flatMap_cons, List.length_append, BUF_SIZE]
      at hmore huser hlength ⊢
    rw [show entryLine ⟨CONTENT_LEN, decimal 0 (dataLen data : Int)⟩
      = CONTENT_LEN ++ colon ++ decimal 0 (dataLen data : Int) from rfl]
    simp only [List.length_append]
    omega

/-- Replies that say OK can be taken apart. -/
theorem plain_ok (hsize : dataLen data < 2 ^ 62)
    (hdata : ∀ stray, (dataBytes stray data).length = dataLen data) : Plain (okWith [] data) :=
  @plain_fields (ascii "SBPFS/1.0 OK") [] data
    ⟨⟨by decide, by decide, by decide⟩, by decide, by decide⟩
    (fun f hf => nomatch hf) (fun f hf => nomatch hf) (by decide) (by decide) hsize hdata

/-- Replies that say ERROR, if their texts are tame. -/
theorem plain_err (htype : Tame type) (hdetail : Tame detail) : Plain (errWith type detail) := by
  refine @plain_fields (ascii "SBPFS/1.0 ERROR")
    [(ascii "Error-Type", type), (ascii "Error-Detail", detail)] .none
    ⟨⟨by decide, by decide, by decide⟩, by decide, by decide⟩ (fun f hf => ?_) (fun f hf => ?_) ?_
    (Nat.le_refl 2) (by decide) fun _ => rfl
  · simp only [List.mem_cons, List.not_mem_nil, or_false] at hf
    rcases hf with rfl | rfl
    · exact (by decide : (Free colon (ascii "Error-Type") ∧ ascii "Error-Type" ≠ ascii "Protocol" ∧
        ascii "Error-Type" ≠ ascii "Response") ∧ Tame (ascii "Error-Type"))
    · exact (by decide : (Free colon (ascii "Error-Detail") ∧
        ascii "Error-Detail" ≠ ascii "Protocol" ∧
        ascii "Error-Detail" ≠ ascii "Response") ∧ Tame (ascii "Error-Detail"))
  · simp only [List.mem_cons, List.not_mem_nil, or_false] at hf
    rcases hf with rfl | rfl
    · exact htype
    · exact hdetail
  · exact (by decide : [USER, CONTENT_LEN, ascii "Error-Type", ascii "Error-Detail"].Nodup)

end Replies

/-! ## The blocks of a reply -/

/-- The blocks have three addresses each, and they are no more than there is room for. -/
structure Carries (cap : Nat) (blocks : List SendBlock) : Prop where
  shape : ∀ b ∈ blocks, b.ip.length = 3
  count : blocks.length ≤ cap

section Blocks

variable {w w' : World} {fb : UInt32} {offset length : UInt64} {ips : List Nat} {cap k : Nat}
  {blocks : List SendBlock} {n n' : CtrlNode}

theorem segment_shape (buf : Bytes) (offset length blocknum i : Nat) :
    (Cfs.Data.segment buf offset length blocknum i).ip.length = 3 := by
  unfold Cfs.Data.segment
  split_ifs <;> rfl

theorem oldSegment_shape (buf : Bytes) (offset i : Nat) :
    (oldSegment buf offset i).ip.length = 3 := by
  unfold oldSegment
  split_ifs <;> rfl

theorem newSegments_carries {len : Nat} {buf buf' : Buf} (h : newSegments len ips k buf w
    = .ok ((buf', blocks), w')) : Carries k blocks := by
  induction k generalizing buf w blocks with
  | zero =>
    cases h
    exact ⟨nofun, Nat.le_refl 0⟩
  | succ k ih =>
    obtain ⟨⟨num, ip⟩, w₀, -, h₀⟩ := bind_ok.mp h
    obtain ⟨b₁, w₁, -, h₁⟩ := bind_ok.mp h₀
    obtain ⟨b₂, w₂, -, h₂⟩ := bind_ok.mp h₁
    obtain ⟨b₃, w₃, -, h₃⟩ := bind_ok.mp h₂
    obtain ⟨b₄, w₄, -, h₄⟩ := bind_ok.mp h₃
    obtain ⟨b₅, w₅, -, h₅⟩ := bind_ok.mp h₄
    obtain ⟨b₆, w₆, -, h₆⟩ := bind_ok.mp h₅
    obtain ⟨b₇, w₇, -, h₇⟩ := bind_ok.mp h₆
    obtain ⟨b₈, w₈, -, h₈⟩ := bind_ok.mp h₇
    obtain ⟨⟨b₉, segs⟩, w₉, hrest, h₉⟩ := bind_ok.mp h₈
    cases h₉
    obtain ⟨hshape, hcount⟩ := ih hrest
    refine ⟨fun b hb => ?_, Nat.succ_le_succ hcount⟩
    rcases List.mem_cons.mp hb with rfl | hb
    · rfl
    · exact hshape b hb

theorem segments_carry {f : Nat → SendBlock} (hf : ∀ i, (f i).ip.length = 3) (k : Nat) :
    Carries k ((List.range k).map f) := by
  refine ⟨fun b hb => ?_, by simp⟩
  obtain ⟨i, -, rfl⟩ := List.mem_map.mp hb
  exact hf i

theorem Carries.mono {cap' : Nat} (h : Carries cap blocks) (hle : cap ≤ cap') :
    Carries cap' blocks :=
  ⟨h.shape, h.count.trans hle⟩

theorem Carries.append {cap' : Nat} {blocks' : List SendBlock} (h : Carries cap blocks)
    (h' : Carries cap' blocks') : Carries (cap + cap') (blocks ++ blocks') := by
  refine ⟨fun b hb => (List.mem_append.mp hb).elim (h.shape b) (h'.shape b), ?_⟩
  rw [List.length_append]
  exact Nat.add_le_add h.count h'.count

theorem cRead_carries {r : Int} (h : cRead fb offset length cap w = .ok ((r, blocks), w')) :
    Carries cap blocks := by
  obtain ⟨fmeta, w₁, -, h₁⟩ := bind_ok.mp h
  dsimp only at h₁
  split at h₁
  · cases h₁
    exact ⟨nofun, Nat.zero_le _⟩
  obtain ⟨buf, w₂, -, h₂⟩ := bind_ok.mp h₁
  cases buf with
  | none =>
    cases h₂
    exact ⟨nofun, Nat.zero_le _⟩
  | some buf =>
    obtain ⟨buf', w₃, -, h₃⟩ := bind_ok.mp h₂
    generalize (if length.toNat < _ then length.toNat else _) = len at h₃
    split at h₃
    · rename_i hcap
      cases h₃
      exact (segments_carry (segment_shape _ _ _ _) _).mono hcap
    · cases h₃

theorem writeRecords_carries {off len : Nat} {blocknum newblocknum : Int} {buf buf' : Buf}
    (h : writeRecords buf off len blocknum newblocknum ips cap w = .ok ((buf', blocks), w')) :
    Carries cap blocks := by
  unfold writeRecords at h
  split at h
  · split at h
    · rename_i hcap
      obtain ⟨b₁, w₁, -, h₁⟩ := bind_ok.mp h
      cases h₁
      exact (segments_carry (segment_shape _ _ _ _) _).mono hcap
    · cases h
  · dsimp only at h
    split at h
    · rename_i hcap
      obtain ⟨⟨b₁, new⟩, w₁, hnew, h₁⟩ := bind_ok.mp h
      cases h₁
      exact ((segments_carry (oldSegment_shape _ _) _).append (newSegments_carries hnew)).mono hcap
    · cases h

theorem cWrite_carries {r : Int} (h : cWrite fb offset length ips cap w = .ok ((r, blocks), w')) :
    Carries cap blocks := by
  obtain ⟨fmeta, w₁, -, h₁⟩ := bind_ok.mp h
  dsimp only at h₁
  split at h₁
  · cases h₁
    exact ⟨nofun, Nat.zero_le _⟩
  obtain ⟨buf, w₂, -, h₂⟩ := bind_ok.mp h₁
  cases buf with
  | none =>
    cases h₂
    exact ⟨nofun, Nat.zero_le _⟩
  | some buf =>
    obtain ⟨b₃, w₃, -, h₃⟩ := bind_ok.mp h₂
    obtain ⟨⟨b₄, segs⟩, w₄, hwrite, h₄⟩ := bind_ok.mp h₃
    obtain ⟨b₅, w₅, -, h₅⟩ := bind_ok.mp h₄
    obtain ⟨now, w₆, -, h₆⟩ := bind_ok.mp h₅
    obtain ⟨b₇, w₇, -, h₇⟩ := bind_ok.mp h₆
    obtain ⟨b₈, w₈, -, h₈⟩ := bind_ok.mp h₇
    obtain ⟨-, w₉, -, h₉⟩ := bind_ok.mp h₈
    cases h₉
    exact writeRecords_carries hwrite

/-- The buffers for replies are not so large that their lengths could not be written down. -/
theorem replyRoom_le {t : CtrlNode} {room : Nat}
    (h : inC (replyRoom (replyCap length) 32) n = .ok (.ok room, t)) : room < 2 ^ 57 := by
  have hlt := length.toNat_lt
  have hcap : replyCap length < 2 ^ 57 := by
    unfold replyCap
    simp only [BLOCKSIZE]
    omega
  obtain ⟨room', w, hroom, hr, -⟩ := onPart_done.mp h
  cases hr
  obtain ⟨b, w₁, -, h₁⟩ := bind_ok.mp hroom
  cases b with
  | none =>
    cases h₁
    decide
  | some b =>
    cases h₁
    exact hcap

theorem sendable_carries {room : Nat} (h : Carries room blocks) (hroom : room < 2 ^ 57) :
    Sendable blocks := ⟨h.shape, h.count.trans_lt hroom⟩

theorem someBlocks_some {q : Int × List SendBlock} (h : someBlocks q = some blocks) :
    blocks = q.2 := by
  unfold someBlocks at h
  split at h
  · cases h
  · exact (Option.some.inj h).symm

theorem wrapCRead_sendable {fb offset length uid : Int}
    (h : wrapCRead fb offset length uid n = .ok (.ok (some blocks), n')) : Sendable blocks := by
  obtain ⟨room, t, hroom, h₁⟩ := bind_returns.mp h
  obtain ⟨-, t₁, -, h₂⟩ := bind_returns.mp h₁
  obtain ⟨⟨r, entries⟩, t₂, hcall, h₃⟩ := bind_returns.mp h₂
  obtain ⟨q, w, hread, hq, -⟩ := onPart_done.mp hcall
  cases hq
  obtain ⟨hsome, -⟩ := Prod.mk.inj (Except.ok.inj h₃)
  obtain rfl := someBlocks_some (Except.ok.inj hsome)
  exact sendable_carries (cRead_carries hread) (replyRoom_le hroom)

theorem wrapCWrite_sendable {fb offset length uid : Int} {ips : Str}
    (h : wrapCWrite fb offset length ips uid n = .ok (.ok (some blocks), n')) :
    Sendable blocks := by
  obtain ⟨tmp, t, -, h₁⟩ := bind_returns.mp h
  obtain ⟨b, t₁, -, h₂⟩ := bind_returns.mp h₁
  cases b with
  | none => cases h₂
  | some b =>
    obtain ⟨b', t₂, -, h₃⟩ := bind_returns.mp h₂
    cases b' with
    | none => cases h₃
    | some b' =>
      obtain ⟨room, t₃, hroom, h₄⟩ := bind_returns.mp h₃
      obtain ⟨-, t₄, -, h₅⟩ := bind_returns.mp h₄
      obtain ⟨⟨r, entries⟩, t₅, hcall, h₆⟩ := bind_returns.mp h₅
      obtain ⟨q, w, hwrite, hq, -⟩ := onPart_done.mp hcall
      cases hq
      obtain ⟨hsome, -⟩ := Prod.mk.inj (Except.ok.inj h₆)
      obtain rfl := someBlocks_some (Except.ok.inj hsome)
      exact sendable_carries (cWrite_carries hwrite) (replyRoom_le hroom)

/-- The filter only changes addresses. -/
theorem flitRead_sendable {data : List SendBlock} (h : flitRead data n = .ok (.ok blocks, n'))
    (hsend : Sendable data) : Sendable blocks := by
  by_cases hall : ∀ b ∈ data, Located n b.blockNum
  · cases h.symm.trans (flitRead_located hall)
    refine ⟨fun b hb => ?_, ?_⟩
    · obtain ⟨c, hc, rfl⟩ := List.mem_map.mp hb
      exact (List.length_map _).trans (hsend.shape c hc)
    · rw [List.length_map]
      exact hsend.count
  · simp only [not_forall] at hall
    obtain ⟨b, hb, hnot⟩ := hall
    cases h.symm.trans (flitRead_missing ⟨b, hb, hnot⟩)

/-- What a `READ` returns can be sent, -/
theorem read_sendable {fd offset length : Str} {uid : Int}
    (h : DTree.read fd offset length uid n = .ok (.ok blocks, n')) : Sendable blocks := by
  obtain ⟨k, t, -, h₁⟩ := bind_returns.mp h
  obtain ⟨o, t₁, -, h₂⟩ := bind_returns.mp h₁
  obtain ⟨l, t₂, -, h₃⟩ := bind_returns.mp h₂
  obtain ⟨file, t₃, -, h₄⟩ := bind_returns.mp h₃
  split at h₄
  · cases h₄
  obtain ⟨data, t₄, hcall, h₅⟩ := bind_returns.mp h₄
  cases data with
  | none => cases h₅
  | some data => exact flitRead_sendable h₅ (wrapCRead_sendable hcall)

/-- and what a `WRITE` returns, too. -/
theorem write_sendable {fd offset length : Str} {uid : Int}
    (h : DTree.write fd offset length uid n = .ok (.ok blocks, n')) : Sendable blocks := by
  obtain ⟨k, t, -, h₁⟩ := bind_returns.mp h
  obtain ⟨o, t₁, -, h₂⟩ := bind_returns.mp h₁
  obtain ⟨l, t₂, -, h₃⟩ := bind_returns.mp h₂
  obtain ⟨n₁, t₃, -, h₄⟩ := bind_returns.mp h₃
  split at h₄
  · cases h₄
  obtain ⟨file, t₄, -, h₅⟩ := bind_returns.mp h₄
  split at h₅
  · cases h₅
  obtain ⟨data, t₅, hcall, h₆⟩ := bind_returns.mp h₅
  cases data with
  | none => cases h₆
  | some data =>
    cases h₆
    exact wrapCWrite_sendable hcall

end Blocks
/-! ## The modes of open files -/

/-- All descriptors have modes of one byte. -/
def ByteModes (n : CtrlNode) : Prop :=
  ∀ uid k file, CtrlNode.getFile n uid k = some file → IsByte file.mode

section Modes

variable {n n' : CtrlNode} {op : Op} {file : FileDes}

theorem wrapCOpen_byte {path : Str} {o m uid fb : Int}
    (h : wrapCOpen path o m uid n = .ok (.ok fb, n')) :
    IsByte o := by
  obtain ⟨p, t, -, h₁⟩ := bind_returns.mp h
  obtain ⟨b, t₁, harg, -⟩ := bind_returns.mp h₁
  by_contra hno
  cases harg.symm.trans (argB_escapes hno t)

theorem openDes_byte {path oflags mode : Str} {uid : Int}
    (h : openDes path oflags mode uid n = .ok (.ok file, n')) : IsByte file.mode := by
  obtain ⟨lost, t, -, h₁⟩ := bind_returns.mp h
  split at h₁
  · cases h₁
  obtain ⟨o, t₁, -, h₂⟩ := bind_returns.mp h₁
  obtain ⟨m, t₂, -, h₃⟩ := bind_returns.mp h₂
  obtain ⟨fb, t₃, hopen, h₄⟩ := bind_returns.mp h₃
  have hbyte : IsByte o := wrapCOpen_byte hopen
  split at h₄
  · cases h₄
  split at h₄
  · cases h₄
  split at h₄
  · cases h₄
  split at h₄
  · cases h₄
  · cases h₄
    exact hbyte

theorem madeBy_byte (h : madeBy n op = some file) : IsByte file.mode := by
  cases op with
  | openFile path oflags mode uid =>
    obtain ⟨t, hdes⟩ := returned_some h
    exact openDes_byte hdes
  | opendir path uid =>
    obtain ⟨⟨file', entnum⟩, hret, rfl⟩ := Option.map_eq_some_iff.mp h
    obtain ⟨t, hdes⟩ := returned_some hret
    obtain ⟨p, k, q, w, -, -, -, rfl, -⟩ := opendirDes_returns hdes
    exact ⟨Int.le_refl 0, by show (0 : Int) ≤ 255; decide⟩
  | _ => cases h

theorem byteModes_entered {uid fd : Int} {made : Option FileDes} (h : ByteModes n)
    (hent : Entered n uid fd made n') (hmade : ∀ file, made = some file → IsByte file.mode) :
    ByteModes n' := by
  intro u k file hget
  rw [hent.getFile] at hget
  unfold enter at hget
  split at hget
  · exact hmade file hget
  · exact h u k file hget

theorem byteModes_turn {a : Turn} {r : Except Exc Value} (hn : Partitioned n) (h : ByteModes n)
    (hends : Ends n a r n') : ByteModes n' := by
  have heff := effect_run (n := CtrlNode.answering n a.env) hn hends.2
  have h' : ByteModes (CtrlNode.answering n a.env) := h
  cases heff with
  | same fds =>
    intro u k file hget
    unfold CtrlNode.getFile at hget
    rw [fds] at hget
    exact h' u k file hget
  | opened uid fd file _ _ _ made entered =>
    exact byteModes_entered h' entered fun file' hf => Option.some.inj hf ▸ madeBy_byte made
  | closed uid fd _ _ entered => exact byteModes_entered h' entered nofun

/-- The modes are bytes after every run of calls. -/
theorem byteModes_run {s : Session} (h : Reach Begun SessionStep s) : ByteModes s.node := by
  have hboth : PoolsSound s ∧ ByteModes s.node := by
    refine Reach.inv (I := fun s => PoolsSound s ∧ ByteModes s.node) (fun s hs => ?_)
      (fun s a s' hi hs => ?_) h
    · refine ⟨poolsSound_begun hs, fun uid k file hget => ?_⟩
      rw [getFile_started hs.1] at hget
      cases hget
    · refine ⟨poolsSound_step hi.1 hs, ?_⟩
      obtain ⟨r, hends, -⟩ := hs
      exact byteModes_turn hi.1.partition hi.2 hends
  exact hboth.2

end Modes

/-! ## The replies to the methods -/

/-- The type and the detail of the error that is sent for an exception. -/
def errText : Exc → Option (Str × Str)
  | .dtree type msg => some (type, msg)
  | .typeError msg => some (ascii "ArguementError", msg)
  | .valueError => some (ascii "ArguementError", ascii "Wrong type")
  | _ => none

def TameExc (e : Exc) : Prop := ∀ t, errText e = some t → Tame t.1 ∧ Tame t.2

section Methods

variable {α : Type} {users : UsersInfo} {uid : Int} {method : String} {args : List Str} {m : Py α}
  {rep : α → Value} {d : α → Dict} {n : CtrlNode}

/-- A method is answered with what it returned or raised, or not at all. -/
theorem sent_answer {q : Except Exc Unit} {c : Conn}
    (hserve : serveMethod users uid (ascii method) args
      = exceptArguments (Dispatch.answer m fun a => sendrep (d a) (rep a)))
    (h : serveMethod users uid (ascii method) args ⟨n, []⟩ = .ok (q, c)) :
    c.sent = [] ∨ (∃ a n', m n = .ok (.ok a, n') ∧ c.sent = [okWith (d a) (rep a)]) ∨
      ∃ e n' t, m n = .ok (.error e, n') ∧ errText e = some t ∧ c.sent = [errWith t.1 t.2] := by
  rw [hserve] at h
  cases hm : m n with
  | error stop =>
    have hstop : exceptArguments (Dispatch.answer m fun a => sendrep (d a) (rep a)) ⟨n, []⟩
      = .error stop :=
      rescue_stop (rescue_stop (bind_stop (within_stop hm) _))
    cases h.symm.trans hstop
  | ok p =>
    obtain ⟨q', n₁⟩ := p
    have hcall : Dispatch.onDTree m ⟨n, []⟩ = .ok (q', ⟨n₁, []⟩) := within_run hm
    cases q' with
    | ok a =>
      have hbody : (Dispatch.onDTree m >>= fun a => sendrep (d a) (rep a)) ⟨n, []⟩
          = .ok (.ok (), ⟨n₁, [okWith (d a) (rep a)]⟩) := bind_step hcall _
      cases h.symm.trans (rescue_returns (rescue_returns hbody))
      exact .inr (.inl ⟨a, n₁, rfl, rfl⟩)
    | error e =>
      have heq : exceptArguments (Dispatch.answer m fun a => sendrep (d a) (rep a)) ⟨n, []⟩
          = exceptArguments (exceptDTree (raise e)) ⟨n₁, []⟩ :=
        rescued_congr (rescued_congr (bind_raise hcall _))
      rw [heq] at h
      by_cases hcaught : Caught e
      · refine .inr (.inr ⟨e, n₁, ?_⟩)
        cases e with
        | dtree type msg =>
          cases h
          exact ⟨_, rfl, rfl, rfl⟩
        | typeError msg =>
          cases h
          exact ⟨_, rfl, rfl, rfl⟩
        | valueError =>
          cases h
          exact ⟨_, rfl, rfl, rfl⟩
        | keyError => exact hcaught.elim
        | overflowError => exact hcaught.elim
        | memoryError => exact hcaught.elim
        | unboundLocalError => exact hcaught.elim
      · rw [escaped hcaught] at h
        cases h
        exact .inl rfl

theorem plain_answer (hserve : serveMethod users uid (ascii method) args
      = exceptArguments (Dispatch.answer m fun a => sendrep (d a) (rep a)))
    (hraise : ∀ e n', m n = .ok (.error e, n') → TameExc e)
    (hplain : ∀ a n', m n = .ok (.ok a, n') → Plain (okWith (d a) (rep a))) :
    PlainReplies users uid method args n := by
  intro q c h
  rcases sent_answer hserve h with hnone | ⟨a, n', hm, hsent⟩ | ⟨e, n', t, hm, htext, hsent⟩
  · exact .inl hnone
  · exact .inr ⟨_, hsent, hplain a n' hm⟩
  · obtain ⟨htype, hdetail⟩ := hraise e n' hm t htext
    exact .inr ⟨_, hsent, plain_err htype hdetail⟩

theorem tame_dtree {type msg : Str} (htype : Tame type) (hmsg : Tame msg) :
    TameExc (.dtree type msg) :=
  fun _ h => Option.some.inj h ▸ ⟨htype, hmsg⟩

theorem tame_argS {i : Nat} (h : i < 10) (s : Str) : Raises TameExc (argS i s) := by
  have hall : ∀ i < 10, Tame (ascii "argument " ++ numeral 10 i ++
      ascii " must be string without null bytes, not str") := by
    decide +kernel
  unfold argS
  split
  · exact raises_pure _
  · refine raises_raise fun t ht => ?_
    have htype : Tame (ascii "ArguementError") := by decide
    cases ht
    exact ⟨htype, hall i h⟩

theorem raises_withPath {P : Exc → Prop} (path : Cfs.Layout.CStr) (null : α) (c : LibCall)
    (f : Cfs.Layout.CM α) :
    Raises P (withPath path null c f) := by
  apply raises_bind (raises_onPart _ _ _)
  intro b
  cases b with
  | none => exact raises_pure _
  | some b => exact raises_bind (raises_modifyState _) fun _ => raises_onPart _ _ _

theorem tame_stat (path : Str) (uid : Int) : Raises TameExc (DTree.stat path uid) := by
  apply raises_bind (raises_bind (tame_argS (by decide) path) fun _ => raises_withPath _ _ _ _)
  intro data
  cases data with
  | none => exact raises_raise (tame_dtree (by decide) (by decide))
  | some data => exact raises_pure _

theorem tame_int (s : Str) : Raises TameExc (DTree.int s) := by
  unfold DTree.int
  split
  · exact raises_pure _
  · refine raises_raise fun t h => ?_
    cases h
    exact ⟨by decide, by decide⟩

theorem int_decimal (z : Int) : DTree.int (decimal 0 z) = pure z := by
  unfold DTree.int
  rw [pyInt_decimal]

/-- A message that ends with a number. -/
theorem tame_raiseWith {type msg : String} {z : Int} (htype : Tame (ascii type))
    (hmsg : Tame (ascii msg) ∧ (ascii msg).length ≤ 100) (hz : z.natAbs < 10 ^ 20) :
    Raises TameExc (DTree.raiseWith type msg z : Py α) := by
  obtain ⟨hnum, hlen⟩ := tame_decimal hz
  exact raises_raise (tame_dtree htype (hmsg.1.append hnum (by have := hmsg.2; omega)))

theorem tame_findFile {errType msg : String} {fd uid type : Int} (htype : Tame (ascii errType))
    (hmsg : Tame (ascii msg) ∧ (ascii msg).length ≤ 100) (hfd : fd.natAbs < 10 ^ 20) :
    Raises TameExc (DTree.findFile fd uid type errType msg) := by
  apply raises_bind raises_getState
  intro n
  split
  · exact tame_raiseWith htype hmsg hfd
  · exact raises_ite (tame_raiseWith htype hmsg hfd) (raises_pure _)

theorem tame_readdir {dd : Int} (h : dd.natAbs < 10 ^ 20) (en : Str) (uid : Int) :
    Raises TameExc (DTree.readdir (decimal 0 dd) en uid) := by
  unfold DTree.readdir
  rw [int_decimal, pure_bind]
  apply raises_bind (tame_int _)
  intro entnum
  apply raises_bind (tame_findFile (by decide) (by decide) h)
  intro file
  have hwrap : Raises TameExc (wrapCReaddir file.fb entnum uid) :=
    raises_bind (raises_modifyState _) fun _ => raises_bind (raises_onPart _ _ _) fun _ =>
      raises_ite (raises_pure _) (raises_pure _)
  apply raises_bind hwrap
  intro ret
  cases ret with
  | none => exact raises_raise (tame_dtree (by decide) (by decide))
  | some ret => exact raises_pure _

/-- What is raised behind the search for a file. -/
theorem tame_found {errType msg : String} {fd type : Int} {f : FileDes → Py α}
    {n' : CtrlNode} {e : Exc}
    (htype : Tame (ascii errType)) (hmsg : Tame (ascii msg) ∧ (ascii msg).length ≤ 100)
    (hfd : fd.natAbs < 10 ^ 20) (hmode : ByteModes n)
    (hf : ∀ file : FileDes, file.mode.natAbs < 10 ^ 20 → Raises TameExc (f file))
    (h : (DTree.findFile fd uid type errType msg >>= f) n = .ok (.error e, n')) : TameExc e := by
  rcases bind_done.mp h with ⟨e', he, hr⟩ | ⟨file, t, hfind, hrest⟩
  · cases hr
    exact (tame_findFile htype hmsg hfd).exc he
  · obtain ⟨rfl, hget, -⟩ := Descriptors.findFile_ok hfind
    have hbyte : 0 ≤ file.mode ∧ file.mode ≤ 255 := hmode uid fd file hget
    exact (hf file (by omega)).exc hrest

theorem tame_flitRead (data : List Cfs.Data.SendBlock) : Raises TameExc (DTree.flitRead data) := by
  have hkey : ∀ {β : Type}, Raises TameExc (raise .keyError : Py β) :=
    raises_raise fun _ h => nomatch h
  induction data with
  | nil => exact raises_pure _
  | cons b data ih =>
    have hblock : Raises TameExc (DTree.flitBlock b) := by
      apply raises_bind raises_getState
      intro n
      split
      · exact hkey
      · exact raises_ite (raises_pure _) hkey
    exact raises_bind hblock fun _ => raises_bind ih fun _ => raises_pure _

theorem tame_read {fd offset length : Int} {n' : CtrlNode} {e : Exc} (hfd : fd.natAbs < 10 ^ 20)
    (hmode : ByteModes n)
    (h : DTree.read (decimal 0 fd) (decimal 0 offset) (decimal 0 length) uid n
      = .ok (.error e, n')) :
    TameExc e := by
  unfold DTree.read at h
  simp only [int_decimal, pure_bind] at h
  refine tame_found (by decide) (by decide) hfd hmode (fun file hsmall => ?_) h
  apply raises_ite (tame_raiseWith (by decide) (by decide) hsmall)
  have hwrap : Raises TameExc (wrapCRead file.fb offset length uid) :=
    raises_bind (raises_onPart _ _ _) fun _ => raises_bind (raises_modifyState _) fun _ =>
      raises_bind (raises_onPart _ _ _) fun _ => raises_pure _
  apply raises_bind hwrap
  intro data
  cases data with
  | none => exact raises_raise (tame_dtree (by decide) (by decide))
  | some data => exact tame_flitRead data

theorem tame_wrapCWrite (fb offset length : Int) (ips : Str) (uid : Int) :
    Raises TameExc (wrapCWrite fb offset length ips uid) := by
  apply raises_bind (tame_argS (by decide) _)
  intro tmp
  apply raises_bind (raises_onPart _ _ _)
  intro b
  cases b with
  | none => exact raises_pure _
  | some b =>
    apply raises_bind (raises_onPart _ _ _)
    intro b'
    cases b' with
    | none => exact raises_pure _
    | some b' =>
      exact raises_bind (raises_onPart _ _ _) fun _ => raises_bind (raises_modifyState _) fun _ =>
        raises_bind (raises_onPart _ _ _) fun _ => raises_pure _

theorem tame_write {fd offset length : Int} {n' : CtrlNode} {e : Exc} (hfd : fd.natAbs < 10 ^ 20)
    (hmode : ByteModes n)
    (h : DTree.write (decimal 0 fd) (decimal 0 offset) (decimal 0 length) uid n
      = .ok (.error e, n')) :
    TameExc e := by
  unfold DTree.write at h
  simp only [int_decimal, pure_bind] at h
  rw [bind_step (getState_run n)] at h
  by_cases hips : n.ips = []
  · rw [if_pos hips] at h
    cases h
    exact tame_dtree (by decide) (by decide)
  · rw [if_neg hips] at h
    refine tame_found (by decide) (by decide) hfd hmode (fun file hsmall => ?_) h
    apply raises_ite (tame_raiseWith (by decide) (by decide) hsmall)
    apply raises_bind (tame_wrapCWrite _ _ _ _ _)
    intro data
    cases data with
    | none => exact raises_raise (tame_dtree (by decide) (by decide))
    | some data => exact raises_pure _

/-! The replies to the methods of which the client reads the data. -/

theorem plain_stat (path : Str) : PlainReplies users uid "STAT" [path] n := by
  refine plain_answer (serve_stat path) (fun e n' h => (tame_stat path uid).exc h) fun st n' _ => ?_
  have hlen : dataLen (.stat st) = statSize := rfl
  exact plain_ok (hlen ▸ by decide) (length_statBytes st)

theorem plain_readdir {dd : Int} (h : dd.natAbs < 10 ^ 20) (en : Str) :
    PlainReplies users uid "READDIR" [decimal 0 dd, en] n := by
  refine plain_answer (serve_readdir _ en) (fun e n' he => (tame_readdir h en uid).exc he)
    fun q n' _ => ?_
  have hlen : dataLen (.entry q.1 q.2) = direntSize := rfl
  exact plain_ok (hlen ▸ by decide) fun _ => length_entryBytes q.1 q.2

theorem plain_blocks {data : List Cfs.Data.SendBlock} (h : Sendable data) :
    Plain (okWith [] (.blocks data)) := by
  have hcount := h.count
  have hlen : dataLen (.blocks data) = 32 * data.length := rfl
  exact plain_ok (by omega) fun _ => length_blockBytes h.shape

theorem plain_read {fd offset length : Int} (hfd : fd.natAbs < 10 ^ 20) (hmode : ByteModes n) :
    PlainReplies users uid "READ" [decimal 0 fd, decimal 0 offset, decimal 0 length] n :=
  @plain_answer _ users uid "READ" _ _ Value.blocks (fun _ => []) n (serve_read _ _ _)
    (fun _ _ h => tame_read hfd hmode h) fun _ _ h => plain_blocks (read_sendable h)

theorem plain_write {fd offset length : Int} (hfd : fd.natAbs < 10 ^ 20) (hmode : ByteModes n) :
    PlainReplies users uid "WRITE" [decimal 0 fd, decimal 0 offset, decimal 0 length] n :=
  @plain_answer _ users uid "WRITE" _ _ Value.blocks (fun _ => []) n (serve_write _ _ _)
    (fun _ _ h => tame_write hfd hmode h) fun _ _ h => plain_blocks (write_sendable h)

end Methods

end Sbpfs.Net.Replies
