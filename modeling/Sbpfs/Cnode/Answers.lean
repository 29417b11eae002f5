import Sbpfs.Cnode.Finishing

/-!
# The requests that are answered

Which requests get one reply, told from the request and the state of the control node alone: from
the disk, the descriptors and what the data nodes have reported.
-/
namespace Sbpfs.Cnode.Answers

open Sbpfs.Lib.Program Sbpfs.Lib.Raise
open Sbpfs.Cfs.Layout (BLOCKSIZE CStr S_FIL metaFlen)
open Sbpfs.Cfs.Rules Sbpfs.Cfs.Image Sbpfs.Cfs.DiskStore Sbpfs.Cfs.DiskView Sbpfs.Cfs.NamespaceSpec
open Sbpfs.Cfs.FileSpec (imageOf)
open Sbpfs.Cfs.Data Sbpfs.Cfs.DataSpec Sbpfs.Cfs.BlockSpec Sbpfs.Cfs.Calls
open Sbpfs.Cfs.Mkfs (freshFs freshFs_some)
open Sbpfs.Cfs.Invariants (rootPath letterA)
open Sbpfs.Cfs.TilingLaws (blockList blockList_eq)
open Sbpfs.Cfs.ChainLaws Sbpfs.Cfs.NamespaceLaws Sbpfs.Cfs.Totality
open Sbpfs.Spec.FileTree Sbpfs.Spec.Resolve
open Sbpfs.Wire.Head Sbpfs.Wire.Number Sbpfs.Libc.Request
open Sbpfs.Cnode.Pool (FileDes)
open Sbpfs.Cnode.Libcfs Sbpfs.Cnode.DTree Sbpfs.Cnode.Ops Sbpfs.Cnode.Dispatch Sbpfs.Cnode.ReplyLaws
open Sbpfs.Cnode.Reading Sbpfs.Cnode.Finishing
open Sbpfs.Cnode.LostFiles (replyRoom_run inC_run)
open Sbpfs.Cnode.Users (UsersInfo)

/-! ## What a read touches -/

/-- The records of the blocks of a range, in a file of `len` bytes. -/
def touched (recs : List Rec) (len offset length : Nat) : List Rec :=
  (recs.take (blocksFor (offset + readLen len offset length))).drop (offset / BLOCKSIZE)

section Touched

variable {recs : List Rec} {len offset length : Nat}

theorem readEntries_touched (hcount : recs.length = blocksFor len) (hoff : offset ≤ len) :
    (readEntries recs len offset length).map SendBlock.blockNum
      = (touched recs len offset length).map Rec.num := by
  have hstop := blocksFor_mono (@readLen_le len offset length hoff)
  apply List.ext_getElem?
  intro j
  rw [List.getElem?_map, List.getElem?_map]
  unfold touched
  rw [List.getElem?_drop]
  cases hb : (readEntries recs len offset length)[j]? with
  | some b =>
    obtain ⟨r, hr, hnum, -, hlt⟩ := readEntries_blocks hcount hoff hb
    rw [List.getElem?_take_of_lt hlt, hr]
    exact congrArg some hnum
  | none =>
    have hj := List.getElem?_eq_none_iff.mp hb
    rw [readEntries_length] at hj
    rw [List.getElem?_eq_none (by rw [List.length_take]; omega)]
    rfl

theorem unlocated_iff {n : CtrlNode} (hcount : recs.length = blocksFor len) (hoff : offset ≤ len) :
    (∃ b ∈ readEntries recs len offset length, ¬ Located n b.blockNum) ↔
      ∃ r ∈ touched recs len offset length, ¬ Located n r.num := by
  have hmap := @readEntries_touched recs len offset length hcount hoff
  constructor
  · rintro ⟨b, hb, hnot⟩
    have hmem := List.mem_map_of_mem (f := SendBlock.blockNum) hb
    rw [hmap] at hmem
    obtain ⟨r, hr, hnum⟩ := List.mem_map.mp hmem
    exact ⟨r, hr, by rwa [hnum]⟩
  · rintro ⟨r, hr, hnot⟩
    have hmem := List.mem_map_of_mem (f := Rec.num) hr
    rw [← hmap] at hmem
    obtain ⟨b, hb, hnum⟩ := List.mem_map.mp hmem
    exact ⟨b, hb, by rwa [hnum]⟩

end Touched

/-! ## What is raised -/

/-- The range begins in the file at `fb` and touches a block that is not known. -/
structure Unlocated (n : CtrlNode) (fb offset length : Nat) : Prop where
  live : Live n.world.dt fb S_FIL
  start : offset ≤ metaFlen (n.world.dt.data fb)
  block : ∃ r ∈ touched (blockList n.world.dt fb) (metaFlen (n.world.dt.data fb)) offset length,
    ¬ Located n r.num

/-- The call ends with an exception that no clause names. -/
def Uncaught (n : CtrlNode) : Op → Prop
  | .openFile path oflags mode _ => ∃ p o m, cstrOf path = some p ∧ ¬ SaidLost n p ∧
      pyInt oflags = some o ∧ pyInt mode = some m ∧ ¬ (IsByte o ∧ IsByte m)
  | .chmod path mode _ => ∃ p m, cstrOf path = some p ∧ pyInt mode = some m ∧ ¬ IsByte m
  | .read fd offset length uid => ∃ k o l file, pyInt fd = some k ∧ pyInt offset = some o ∧
      pyInt length = some l ∧ MayRead n uid k file ∧
      Unlocated n (argI file.fb).toNat (argK o).toNat (argK l).toNat
  | _ => False

section Raised

variable {fs : Fs} {chain : Nat → List Nat} {n : CtrlNode} {uid : Int}

/-- Behind the end of the file there is nothing to list. -/
theorem wrapCRead_behind (hmem : Ample n.world.env) {fb o l : Int}
    (h : Behind n.world.dt (argI fb) (argK o)) :
    ∃ n', wrapCRead fb o l uid n = .ok (.ok none, n') := by
  obtain ⟨w, hroom, hsame⟩ := replyRoom_run hmem (replyCap (argK l)) 32
  obtain ⟨hin, hbehind⟩ := h
  rw [← hsame.dt] at hin hbehind
  have hrun : cRead (argI fb) (argK o) (argK l) (replyCap (argK l)) w = .ok ((-1, []), w) := by
    unfold cRead
    rw [bind_run (readSector_run hin)]
    dsimp only
    rw [if_pos hbehind]
    rfl
  refine ⟨{ n with
    world := w
    calls := .read (argI fb) (argK o) (argK l) (argI uid) :: n.calls }, ?_⟩
  unfold wrapCRead
  rw [bind_step (inC_run hroom)]
  exact (bind_step rfl _).trans ((bind_step (inC_run hrun) _).trans rfl)

/-- In front of it there are the entries of the blocks that the range touches. -/
theorem wrapCRead_live (hw : WellFormed n.world.dt fs chain) (hmem : Ample n.world.env)
    {file : FileDes} {o l : Int}
    (hlive : Live n.world.dt (argI file.fb).toNat S_FIL)
    (hnot : ¬ Behind n.world.dt (argI file.fb) (argK o)) :
    (argK o).toNat ≤ metaFlen (n.world.dt.data (argI file.fb).toNat) ∧
    ∃ blocks n', wrapCRead file.fb o l uid n
      = .ok (.ok (if blocks = [] then none else some blocks), n') ∧
      ((∃ b ∈ blocks, ¬ Located n b.blockNum) ↔
        ∃ r ∈ touched (blockList n.world.dt (argI file.fb).toNat)
          (metaFlen (n.world.dt.data (argI file.fb).toNat)) (argK o).toNat (argK l).toNat,
          ¬ Located n r.num) := by
  obtain ⟨⟨u, fl, node⟩, hfile, htype⟩ := (live_iff hw.store hw.tree _ _).mp hlive
  cases node with
  | dir p kids => cases htype
  | file len recs =>
    have hat := hw.store.obj _ _ hfile
    have himage : FileImage (imageOf n.world.dt.data (chain (argI file.fb).toNat))
      (chain (argI file.fb).toNat).length len recs := hat.holds.node
    have hflen : metaFlen (n.world.dt.data (argI file.fb).toNat) = len :=
      (hat.header_field (by omega)).trans himage.flen
    have hoff : (argK o).toNat ≤ len := by
      by_contra hlt
      refine hnot ⟨?_, ?_⟩
      · rw [hw.store.sized.sectorOf hat.head_lt, hw.store.sized.dataSecs]
        exact hat.head_lt
      · rw [hw.store.sized.sectorOf hat.head_lt, hflen]
        omega
    rw [hflen, blockList_eq hw.store hfile]
    obtain ⟨n', hrun, -⟩ := wrapCRead_run uid o l hw.store hfile hmem hoff
    exact ⟨hoff, _, n', hrun, unlocated_iff himage.count hoff⟩

/-- What is raised uncaught, told from the state. -/
theorem escapes_of_uncaught {op : Op} (hw : WellFormed n.world.dt fs chain)
    (hmem : Ample n.world.env)
    (hnot : ¬ Crashes n op) (h : Uncaught n op) : Escapes n op := by
  cases op with
  | openFile path oflags mode uid =>
    obtain ⟨p, o, m, hp, hlost, ho, hm, hbyte⟩ := h
    obtain ⟨lost, t, hrun, hsaid⟩ :=
      (isFileLost_outcome hw hmem hp).2 fun hodd => hnot ⟨p, hp, hodd⟩
    exact ⟨p, lost, t, o, m, hp, hrun, fun hl => hlost (hsaid.mp hl), ho, hm, hbyte⟩
  | chmod path mode uid => exact h
  | read fd offset length uid =>
    obtain ⟨k, o, l, file, hk, ho, hl, hmay, hlive, hoff, hblock⟩ := h
    have hbehind : ¬ Behind n.world.dt (argI file.fb) (argK o) := by
      rintro ⟨-, hlt⟩
      obtain ⟨obj, hfile, -⟩ := (live_iff hw.store hw.tree _ _).mp hlive
      rw [hw.store.sized.sectorOf (hw.store.obj _ _ hfile).head_lt] at hlt
      omega
    obtain ⟨-, blocks, t, hrun, hiff⟩ := wrapCRead_live hw hmem hlive hbehind
    obtain ⟨b, hb, hbnot⟩ := hiff.mpr hblock
    rw [if_neg (List.ne_nil_of_mem hb)] at hrun
    exact ⟨k, o, l, file, blocks, t, hk, ho, hl, hmay.found, hmay.type, hmay.may,
      hrun, b, hb, hbnot⟩
  | _ => exact h.elim

theorem uncaught_of_escapes {op : Op} (hw : WellFormed n.world.dt fs chain)
    (hmem : Ample n.world.env)
    (hfeas : Feasible fs chain n op) (hnot : ¬ Crashes n op) (h : Escapes n op) :
    Uncaught n op := by
  cases op with
  | openFile path oflags mode uid =>
    obtain ⟨p, lost, t, o, m, hp, hrun, hlost, ho, hm, hbyte⟩ := h
    obtain ⟨lost', t', hrun', hsaid⟩ :=
      (isFileLost_outcome hw hmem hp).2 fun hodd => hnot ⟨p, hp, hodd⟩
    cases hrun.symm.trans hrun'
    exact ⟨p, o, m, hp, fun hs => hlost (hsaid.mpr hs), ho, hm, hbyte⟩
  | chmod path mode uid => exact h
  | read fd offset length uid =>
    obtain ⟨k, o, l, file, blocks, t, hk, ho, hl, hget, htype, hmay, hrun, b, hb, hbnot⟩ := h
    have hread : MayRead n uid k file := ⟨hget, htype, hmay⟩
    have hbehind : ¬ Behind n.world.dt (argI file.fb) (argK o) := by
      intro hbehind
      obtain ⟨t', hnone⟩ := wrapCRead_behind hmem hbehind
      cases hrun.symm.trans hnone
    have hlive := (hfeas k o l file hk ho hl hread).resolve_left hbehind
    obtain ⟨hoff, blocks', t', hrun', hiff⟩ := wrapCRead_live hw hmem hlive hbehind
    refine ⟨k, o, l, file, hk, ho, hl, hread, hlive, hoff, hiff.mp ?_⟩
    cases hnil : blocks' with
    | nil =>
      rw [hnil] at hrun'
      cases hrun.symm.trans hrun'
    | cons b' rest =>
      rw [hnil] at hrun'
      cases hrun.symm.trans hrun'
      exact ⟨b, hb, hbnot⟩
  | _ => exact h.elim

/-- An `open` that crashes is not served. -/
theorem not_served_of_crashes {op : Op} (hw : WellFormed n.world.dt fs chain)
    (hmem : Ample n.world.env)
    (h : Crashes n op) : ¬ Served op.run n := by
  cases op with
  | openFile path oflags mode uid =>
    obtain ⟨p, hp, hodd⟩ := h
    have hstop := (isFileLost_outcome hw hmem hp).1 hodd
    rintro ⟨r, n', hrun, -⟩
    have hrun' : (Op.openFile path oflags mode uid).run n = .error .fault :=
      bind_stop (bind_stop (bind_stop hstop _) _) _
    cases hrun.symm.trans hrun'
  | _ => exact h.elim

/-- A call that is served neither crashes nor raises what is not caught; -/
theorem served_only {op : Op} (hw : WellFormed n.world.dt fs chain) (hmem : Ample n.world.env)
    (h : Served op.run n) : ¬ Crashes n op ∧ ¬ Uncaught n op := by
  have hnot : ¬ Crashes n op := fun hc => not_served_of_crashes hw hmem hc h
  exact ⟨hnot, fun hu => ((served_iff op n).mp h).2 (escapes_of_uncaught hw hmem hnot hu)⟩

/-- and one that does neither is served, if it can be carried out. -/
theorem served_of {op : Op} (hw : WellFormed n.world.dt fs chain) (hmem : Ample n.world.env)
    (hfeas : Feasible fs chain n op) (hnot : ¬ Crashes n op) (hcaught : ¬ Uncaught n op) :
    Served op.run n :=
  (served_iff op n).mpr ⟨op_finishes hw hmem hfeas hnot,
    fun he => hcaught (uncaught_of_escapes hw hmem hfeas hnot he)⟩

end Raised

/-! ## What is answered -/

/-- On a disk that holds a file tree, with memory enough, a request that is answered once is refused
or asks for nothing that crashes or is raised uncaught; and what asks for neither, and for nothing
that cannot be carried out, is answered once. -/
theorem request_answered {fs : Fs} {chain : Nat → List Nat} (users : UsersInfo) (room : Nat)
    (username password : Str) (head : Dict) (c : Conn) (hdisk : WellFormed c.node.world.dt fs chain)
    (hmem : Ample c.node.world.env) :
    (Once (handleClient users room username password head) c →
      UsersInfo.check users username password = true →
        ∀ uid, UsersInfo.findUid users username = some uid →
          Answerable users room uid head fun op => ¬ Crashes c.node op ∧ ¬ Uncaught c.node op) ∧
    ((UsersInfo.check users username password = true →
        ∀ uid, UsersInfo.findUid users username = some uid →
          Answerable users room uid head fun op =>
            Feasible fs chain c.node op ∧ ¬ Crashes c.node op ∧ ¬ Uncaught c.node op) →
      Once (handleClient users room username password head) c) := by
  rw [once_handleClient_iff]
  constructor
  · intro h hcheck uid huid
    exact (h hcheck uid huid).mono fun op hop => served_only hdisk hmem hop
  · intro h hcheck uid huid
    exact (h hcheck uid huid).mono fun op hop => served_of hdisk hmem hop.1 hop.2.1 hop.2.2

/-- A directory made on a fresh disk. -/
theorem request_answered_mkdir : ∃ n, FreshWorld n.world ∧
    Once (handleClient rootOnly 2 (ascii "root") (ascii "secret")
      [(METHOD, ascii "MKDIR"), (ARGC, ascii "1"), (argName 0, ascii "/a")]) ⟨n, []⟩ := by
  obtain ⟨w, hw⟩ := exists_freshWorld
  refine ⟨⟨w, ∅, ∅, [], ∅, []⟩, hw, (request_answered _ _ _ _ _ _ hw.1 hw.2).2 ?_⟩
  have huser : UsersInfo.findUid rootOnly (ascii "root") = some 0 := by decide
  have hargs : argsOf [(METHOD, ascii "MKDIR"), (ARGC, ascii "1"), (argName 0, ascii "/a")]
      (List.range 1) = some [ascii "/a"] := by decide
  have hpath : cstrOf (ascii "/a") = some (rootPath letterA) := by decide
  have hplan : mkdirPlan (view freshFs) (rootPath letterA) 0 = .ok (rootFb, [letterA]) := by decide
  intro _ uid huid method argc hmethod hargc
  cases huid.symm.trans huser
  cases hmethod.symm.trans (by decide : _ = some (ascii "MKDIR"))
  cases hargc.symm.trans (by decide : _ = some (ascii "1"))
  refine ⟨1, by decide, by decide, by decide, fun args hargs' => ?_⟩
  cases hargs'.symm.trans hargs
  refine ⟨.mkdir, by decide, fun op hop => ⟨?_, ?_, ?_⟩⟩
  all_goals cases hop
  · intro p d name hp hplan'
    cases hp.symm.trans hpath
    cases hplan'.symm.trans hplan
    exact fresh_roomFor hw (by decide)
  · exact id
  · exact id

end Sbpfs.Cnode.Answers
