import Sbpfs.Cfs.Totality
import Sbpfs.Cnode.LibCalls
import Sbpfs.Cnode.LostFiles
import Sbpfs.Cnode.Reading

/-!
# Methods that come back

A method of `DTree` comes back unless the library does not. On a disk that holds a file tree,
with memory enough, that is a matter of what is asked for: whether the path of an `open` makes the
look for lost files run out of its buffers, whether there is room for what is added, and whether
the first sector of a descriptor still is what it was.
-/
namespace Sbpfs.Cnode.Finishing

open Sbpfs.Lib.Program Sbpfs.Lib.Raise
open Sbpfs.Cfs.Layout (CStr CM World S_DIR S_FIL)
open Sbpfs.Cfs.Rules Sbpfs.Cfs.DiskStore Sbpfs.Cfs.LookupSpec Sbpfs.Cfs.DiskView
    Sbpfs.Cfs.NamespaceSpec
open Sbpfs.Cfs.EntrySpec Sbpfs.Cfs.BlockNumbers Sbpfs.Cfs.BlockListing Sbpfs.Cfs.ChainLaws
open Sbpfs.Cfs.Query Sbpfs.Cfs.MoveSpec Sbpfs.Cfs.Totality
open Sbpfs.Cfs.Calls (replyCap)
open Sbpfs.Spec.FileTree Sbpfs.Spec.Resolve
open Sbpfs.Wire.Head Sbpfs.Wire.Number Sbpfs.Libc.Request
open Sbpfs.Cnode.Pool (FileDes)
open Sbpfs.Cnode.Libcfs Sbpfs.Cnode.DTree Sbpfs.Cnode.Ops
open Sbpfs.Cnode.DiskSteps Sbpfs.Cnode.ReplyLaws Sbpfs.Cnode.RequestFields
open Sbpfs.Cnode.LibCalls (Harmless harmless_raiseDTree harmless_pure harmless_ite harmless_checkRet
  harmless_genFd harmless_bind harmless_flitRead)
open Sbpfs.Cnode.LostFiles (Held asked asked_same inC_run withPath_run replyRoom_run malloc_run)
open Sbpfs.Cnode.Descriptors (closeAs)
open Sbpfs.Cnode.Reading (MayRead)

/-! ## The pieces of a method -/

section Pieces

variable {α β : Type} {n : CtrlNode}

theorem finishes_harmless {m : Py α} (h : Harmless m) (n : CtrlNode) : Finishes m n := by
  obtain ⟨r, n', hrun, -⟩ := h n
  exact ⟨(r, n'), hrun⟩

/-- What follows only looks at the value. -/
theorem finishes_then {m : Py α} {f : α → Py β} (hm : Finishes m n) (hf : ∀ a, Harmless (f a)) :
    Finishes (m >>= f) n := finishes_bind hm fun a t _ => finishes_harmless (hf a) t

theorem finishes_argS {i : Nat} {s : Str} {f : CStr → Py β}
    (hf : ∀ p, cstrOf s = some p → Finishes (f p) n) : Finishes (argS i s >>= f) n := by
  cases hp : cstrOf s with
  | none =>
    obtain ⟨msg, hraise⟩ := argS_none (i := i) hp n
    exact ⟨_, bind_raise hraise f⟩
  | some p => exact finishes_step (argS_some hp n) (hf p hp)

theorem finishes_int {s : Str} {f : Int → Py β} (hf : ∀ z, pyInt s = some z → Finishes (f z) n) :
    Finishes (int s >>= f) n := by
  cases hz : pyInt s with
  | none => exact ⟨_, bind_raise (int_none hz n) f⟩
  | some z => exact finishes_step (int_some hz n) (hf z hz)

theorem finishes_argB {z : Int} {f : UInt8 → Py β}
    (hf : IsByte z → Finishes (f (UInt8.ofNat z.toNat)) n) : Finishes (argB z >>= f) n := by
  by_cases hz : IsByte z
  · exact finishes_step (argB_byte hz n) (hf hz)
  · exact ⟨_, bind_raise (argB_escapes hz n) f⟩

theorem finishes_findFile {k uid type : Int} {errType msg : String} {f : FileDes → Py β}
    (hf : ∀ file, CtrlNode.getFile n uid k = some file → file.type = type → Finishes (f file) n) :
    Finishes (findFile k uid type errType msg >>= f) n := by
  by_cases h : ∃ file, CtrlNode.getFile n uid k = some file ∧ file.type = type
  · obtain ⟨file, hget, htype⟩ := h
    exact finishes_step (findFile_some hget htype) (hf file hget htype)
  · have hraise : ∃ e, findFile k uid type errType msg n = .ok (.error e, n) :=
      LibCalls.findFile_raises n fun file hget htype => h ⟨file, hget, htype⟩
    obtain ⟨e, he⟩ := hraise
    exact ⟨_, bind_raise he f⟩

theorem finishes_inC {m : CM α} (h : Terminates m n.world) : Finishes (inC m) n := by
  obtain ⟨q, hq⟩ := h
  exact finishes_onPart hq

theorem inC_stop {m : CM α} {e : Stop} (h : m n.world = .error e) : inC m n = .error e := by
  unfold inC onPart
  rw [h]

theorem copyPaths_run {w : World} (hmem : Ample w.env) (p q : CStr) :
    ∃ w', copyPaths p q w = .ok ((), w') ∧ Same w w' := by
  obtain ⟨b, hb⟩ := malloc_run hmem .path (p.length + 1)
  have hsame := Same.pop w .path
  obtain ⟨b', hb'⟩ := malloc_run (hmem.later hsame.later) .path (q.length + 1)
  refine ⟨_, ?_, hsame.trans (Same.pop _ .path)⟩
  unfold copyPaths
  rw [bind_run hb, bind_run hb', if_pos ⟨rfl, rfl⟩]
  rfl

/-- The library is called with the disk as it is. -/
theorem finishes_withPath {path : CStr} {null : α} {c : LibCall} {m : CM α}
    (hmem : Ample n.world.env)
    (hm : Terminates m (asked n)) : Finishes (withPath path null c m) n := by
  obtain ⟨q, hq⟩ := hm
  rw [Finishes, Terminates, withPath_run hmem]
  exact finishes_inC ⟨q, hq⟩

/-- The methods that take a path and check the value. -/
theorem finishes_pathCall {path : Str} {lc : CStr → LibCall} {m : CStr → CM Int}
    {errors : List (Int × String × String)} (hmem : Ample n.world.env)
    (hm : ∀ p, cstrOf path = some p → Terminates (m p) (asked n)) :
    Finishes ((argS 2 path >>= fun p => withPath p (-1) (lc p) (m p)) >>=
      fun ret => checkRet ret errors) n :=
  finishes_then (finishes_argS fun p hp => finishes_withPath hmem (hm p hp))
    fun ret => harmless_checkRet ret errors

end Pieces

/-! ## Looking for lost files -/

/-- The path names a directory whose entries, taken for records of twice their size, do not come
out even. -/
def Odd (n : CtrlNode) (path : CStr) : Prop :=
  ∃ fb, Names n.world.dt path S_DIR fb ∧ ¬ Even (entries n.world.dt fb).length

/-- The path names something with the number of a block that no registered data node has
reported. -/
def SaidLost (n : CtrlNode) (path : CStr) : Prop :=
  ∃ type fb, Names n.world.dt path type fb ∧ ∃ block ∈ blockNums n.world.dt fb, ¬ Held n block

section Look

variable {fs : Fs} {chain : Nat → List Nat} {n : CtrlNode} {w : World} {path : CStr}
    {d : Nat} {e : Ent}
  {o : Obj}

theorem odd_iff (hw : WellFormed n.world.dt fs chain) (hq : named fs.ents path = some (d, e))
    (ho : fs e.fb = some o) : Odd n path ↔ tableSize o e.fb % 32 ≠ 0 := by
  have hnames := names_iff hw.store hw.tree hq S_DIR
  obtain ⟨o', ho', htyped⟩ := named_typed hw.tree hq
  cases ho.symm.trans ho'
  obtain ⟨uid, flags, node⟩ := o
  cases node with
  | file len recs =>
    have htype : e.type = S_FIL := htyped.elim (fun hd => absurd hd.2 id) And.left
    constructor
    · rintro ⟨fb, hfb, -⟩
      cases htype.symm.trans ((hnames fb).mp hfb).1
    · intro h
      exact absurd (Nat.mul_mod_right 32 recs.length) h
  | dir p kids =>
    have htype : e.type = S_DIR := htyped.elim And.left fun hf => absurd trivial hf.2
    have hlen : (entries n.world.dt e.fb).length = (table e.fb p kids).length := by
      rw [entries_eq hw.store ho]
    have hsize : tableSize ⟨uid, flags, .dir p kids⟩ e.fb = 16 * (table e.fb p kids).length := rfl
    have hodd : Odd n path ↔ ¬ Even (table e.fb p kids).length := by
      constructor
      · rintro ⟨fb, hfb, h⟩
        rw [((hnames fb).mp hfb).2, hlen] at h
        exact h
      · intro h
        exact ⟨e.fb, (hnames _).mpr ⟨htype, rfl⟩, by rwa [hlen]⟩
    rw [hodd, hsize, Nat.even_iff]
    omega

theorem saidLost_iff (hw : WellFormed n.world.dt fs chain) (hq : named fs.ents path = some (d, e)) :
    SaidLost n path ↔ ∃ block ∈ blockNums n.world.dt e.fb, ¬ Held n block := by
  constructor
  · rintro ⟨type, fb, hfb, h⟩
    rwa [((names_iff hw.store hw.tree hq type fb).mp hfb).2] at h
  · intro h
    exact ⟨e.type, e.fb, (names_iff hw.store hw.tree hq _ _).mpr ⟨rfl, rfl⟩, h⟩

/-- Where the table does not end with a record, both calls run out of the buffer. -/
theorem getblocks_stops (hw : WellFormed w.dt fs chain) (hmem : Ample w.env)
    (hq : named fs.ents path = some (d, e)) (ho : fs e.fb = some o)
    (hdiv : tableSize o e.fb % 32 ≠ 0) :
    getblocks path w = .error .fault := by
  have hpos : 32 ≤ tableSize o e.fb := by
    obtain ⟨uid, flags, node⟩ := o
    cases node with
    | file len recs => exact absurd (Nat.mul_mod_right 32 recs.length) hdiv
    | dir p kids =>
      show 32 ≤ 16 * (kids.length + 2)
      omega
  obtain ⟨w', hsame, heq⟩ := LostFiles.getblocks_eq hw.store hw.tree hmem hq ho hpos
  have hst' : Store w'.dt fs chain := by rw [hsame.dt]; exact hw.store
  rw [heq]
  exact bind_fault (cGetblocks_stops hst' hw.tree (hmem.later hsame.later) hq ho hdiv) _

/-- The look for lost files runs out of its buffers, or tells whether the file is lost. -/
theorem isFileLost_outcome (hw : WellFormed n.world.dt fs chain) (hmem : Ample n.world.env)
    {s : Str} (hp : cstrOf s = some path) :
    (Odd n path → isFileLost s n = .error .fault) ∧
      (¬ Odd n path → ∃ lost n', isFileLost s n = .ok (.ok lost, n') ∧
        (lost = some true ↔ SaidLost n path)) := by
  rw [← bytesOf_cstrOf hp]
  have hw' : WellFormed (asked n).dt fs chain := hw
  have hmem' : Ample (asked n).env := hmem.later (asked_same n).later
  cases hq : named fs.ents path with
  | none =>
    have hno := not_names hw.store hw.tree hq
    refine ⟨fun ⟨fb, h, _⟩ => absurd h (hno _ fb), fun _ => ?_⟩
    obtain ⟨w', hrun⟩ := LostFiles.getblocks_none hw'.store hw.tree hmem' hq
    obtain ⟨n', hlost⟩ := LostFiles.isFileLost_run hmem hrun
    exact ⟨none, n', hlost, nofun, fun ⟨type, fb, h, _⟩ => absurd h (hno type fb)⟩
  | some q =>
    obtain ⟨d, e⟩ := q
    obtain ⟨o, ho, -⟩ := named_typed hw.tree hq
    rw [odd_iff hw hq ho]
    constructor
    · intro hdiv
      have hstop : wrapCGetblocks (bytesOf path) n = .error .fault := by
        unfold wrapCGetblocks
        rw [bind_step (argS_some (cstrOf_bytesOf path) n), withPath_run hmem]
        exact inC_stop (getblocks_stops hw' hmem' hq ho hdiv)
      exact bind_stop hstop _
    · intro hdiv
      obtain ⟨w', hrun⟩ := LostFiles.getblocks_some hw'.store hw.tree hmem' hq ho (not_not.mp hdiv)
      obtain ⟨n', hlost⟩ := LostFiles.isFileLost_run hmem hrun
      refine ⟨_, n', hlost, ?_⟩
      rw [saidLost_iff hw hq]
      show some _ = some true ↔ _
      rw [Option.some.injEq]
      exact LostFiles.any_lost_iff n _

end Look

/-! ## What a method needs -/

/-- The look for lost files that an `open` begins with does not come back. -/
def Crashes (n : CtrlNode) : Op → Prop
  | .openFile path _ _ _ => ∃ p, cstrOf path = some p ∧ Odd n p
  | _ => False

/-- The library is not asked for what it cannot do: there is room for a new entry, a move fits
the tables it reads, and a descriptor that is used has a first sector from which the call can
go on, if it does not stop at the header. -/
def Feasible (fs : Fs) (chain : Nat → List Nat) (n : CtrlNode) : Op → Prop
  | .openFile path oflags mode uid => ∀ p o m d name, cstrOf path = some p →
      pyInt oflags = some o → pyInt mode = some m → IsByte o → IsByte m →
      openPlan (view fs) p (argI uid) = .ok (d, name, none) → RoomFor n.world.dt chain d name
  | .mkdir path uid => ∀ p d name, cstrOf path = some p →
      mkdirPlan (view fs) p (argI uid) = .ok (d, name) → RoomFor n.world.dt chain d name
  | .move dst src uid => ∀ p q s d e name, cstrOf dst = some p → cstrOf src = some q →
      movePlan (view fs) p q (argI uid) = .ok (s, d, e, name) → MoveFits n.world.dt chain s d name
  | .read fd offset length uid => ∀ k o l file, pyInt fd = some k → pyInt offset = some o →
      pyInt length = some l → MayRead n uid k file →
      Behind n.world.dt (argI file.fb) (argK o) ∨ Live n.world.dt (argI file.fb).toNat S_FIL
  | .write fd offset length uid => ∀ k o l file, pyInt fd = some k → pyInt offset = some o →
      pyInt length = some l → n.ips ≠ [] → CtrlNode.getFile n uid k = some file →
      file.type = Pool.S_FIL → mayUse file SBP_O_WRONLY = true →
      Behind n.world.dt (argI file.fb) (argK o) ∨
        Extends n.world.dt chain (argI file.fb) (argK o) (argK l)
  | .readdir dd entnum uid => ∀ k o file, pyInt dd = some k → pyInt entnum = some o →
      CtrlNode.getFile n uid k = some file → file.type = Pool.S_DIR →
      Listable n.world.dt (argI file.fb).toNat (argK o)
  | _ => True

section Methods

variable {fs : Fs} {chain : Nat → List Nat} {n : CtrlNode} {uid : Int}
  (hw : WellFormed n.world.dt fs chain) (hmem : Ample n.world.env)

include hw hmem

theorem finishes_openFile {path oflags mode : Str}
    (h : Feasible fs chain n (.openFile path oflags mode uid))
    (hnot : ¬ Crashes n (.openFile path oflags mode uid)) :
    Finishes (DTree.openFile path oflags mode uid) n := by
  refine finishes_then ?_ fun file => harmless_genFd file uid
  unfold openDes
  cases hp : cstrOf path with
  | none =>
    obtain ⟨msg, hraise⟩ := argS_none (i := 2) hp n
    have hwrap : wrapCGetblocks path n = .ok (.error (.typeError msg), n) := bind_raise hraise _
    have hlost : isFileLost path n = .ok (.error (.typeError msg), n) := bind_raise hwrap _
    exact ⟨_, bind_raise hlost _⟩
  | some p =>
    obtain ⟨lost, t, hlost, -⟩ := (isFileLost_outcome hw hmem hp).2 fun hodd => hnot ⟨p, hp, hodd⟩
    have hsame : Same n.world t.world := (quiet_isFileLost path).rel hlost
    refine finishes_step hlost (finishes_ite (fun _ => finishes_raise _ t) fun _ => ?_)
    refine finishes_int fun o ho => finishes_int fun m hm => ?_
    refine finishes_then ?_ fun fb => ?_
    · refine finishes_argS fun p' hp' => finishes_argB fun ho' => finishes_argB fun hm' => ?_
      cases hp.symm.trans hp'
      have hsame' : Same n.world (asked t) := hsame.trans (asked_same t)
      have hw' : WellFormed (asked t).dt fs chain := by rw [hsame'.dt]; exact hw
      refine finishes_withPath (hmem.later hsame.later)
        (cOpen_terminates hw' (hmem.later hsame'.later) fun d name hplan => ?_)
      rw [hsame'.dt]
      exact h p o m d name hp ho hm ho' hm' hplan
    · apply harmless_ite (harmless_raiseDTree _ _)
      apply harmless_ite (harmless_raiseDTree _ _)
      apply harmless_ite (harmless_raiseDTree _ _)
      exact harmless_ite (harmless_raiseDTree _ _) (harmless_pure _)

theorem finishes_stat (path : Str) : Finishes (DTree.stat path uid) n := by
  refine finishes_then (finishes_argS fun p _ => finishes_withPath hmem ?_) fun data => ?_
  · have hstat : Terminates (cStat p (argI uid)) (asked n) :=
      cStat_terminates hw (hmem.later (asked_same n).later)
    obtain ⟨q, hq⟩ := hstat
    rw [Terminates, bind_run hq]
    dsimp only
    split <;> exact ⟨_, rfl⟩
  · cases data with
    | none => exact harmless_raiseDTree _ _
    | some data => exact harmless_pure _

theorem finishes_opendir (path : Str) : Finishes (DTree.opendir path uid) n := by
  refine finishes_then (finishes_then ?_ fun q => ?_) fun _ =>
    harmless_bind (harmless_genFd _ _) fun _ => harmless_pure _
  · refine finishes_argS fun p _ => finishes_step (getState_run n) (finishes_withPath hmem ?_)
    have hopen := @cOpendir_terminates fs chain (asked n) p (argI uid) hw
      (hmem.later (asked_same n).later)
    obtain ⟨q, hq⟩ := hopen (n.world.env.stray 0)
    rw [Terminates, bind_run hq]
    exact ⟨_, rfl⟩
  · cases q with
    | none => exact harmless_raiseDTree _ _
    | some q =>
      apply harmless_ite (harmless_raiseDTree _ _)
      apply harmless_ite (harmless_raiseDTree _ _)
      exact harmless_ite (harmless_raiseDTree _ _) (harmless_pure _)

theorem finishes_readdir {dd entnum : Str} (h : Feasible fs chain n (.readdir dd entnum uid)) :
    Finishes (DTree.readdir dd entnum uid) n := by
  refine finishes_int fun k hk => finishes_int fun o ho =>
    finishes_findFile fun file hget htype => ?_
  refine finishes_then ?_ fun ret => ?_
  · refine finishes_step rfl (finishes_then (finishes_inC ?_) fun q => ?_)
    · exact cReaddir_terminates hw hmem (h k o file hk ho hget htype)
    · exact harmless_ite (harmless_pure _) (harmless_pure _)
  · cases ret with
    | none => exact harmless_raiseDTree _ _
    | some ret => exact harmless_pure _

theorem finishes_read {fd offset length : Str}
    (h : Feasible fs chain n (.read fd offset length uid)) :
    Finishes (DTree.read fd offset length uid) n := by
  refine finishes_int fun k hk => finishes_int fun o ho => finishes_int fun l hl =>
    finishes_findFile fun file hget htype => ?_
  refine finishes_ite (fun _ => finishes_raise _ n) fun hmay => finishes_then ?_ fun data => ?_
  · have hread : MayRead n uid k file := ⟨hget, htype, by simpa using hmay⟩
    obtain ⟨w, hroom, hsame⟩ := replyRoom_run hmem (replyCap (argK l)) 32
    have hw' : WellFormed w.dt fs chain := by rw [hsame.dt]; exact hw
    refine finishes_step (inC_run hroom) (finishes_step rfl ?_)
    refine finishes_then (finishes_inC ?_) fun _ => harmless_pure _
    refine cRead_terminates hw' (hmem.later hsame.later) (Nat.le_refl _) ?_
    rw [hsame.dt]
    exact h k o l file hk ho hl hread
  · cases data with
    | none => exact harmless_raiseDTree _ _
    | some data => exact harmless_flitRead data

theorem finishes_write {fd offset length : Str}
    (h : Feasible fs chain n (.write fd offset length uid)) :
    Finishes (DTree.write fd offset length uid) n := by
  refine finishes_int fun k hk => finishes_int fun o ho => finishes_int fun l hl =>
    finishes_step (getState_run n) ?_
  refine finishes_ite (fun _ => finishes_raise _ n) fun hips =>
    finishes_findFile fun file hget htype => ?_
  refine finishes_ite (fun _ => finishes_raise _ n) fun hmay => finishes_then ?_ fun data => ?_
  · refine finishes_argS fun tmp _ => ?_
    obtain ⟨b, hb⟩ := malloc_run hmem .path (tmp.length + 1)
    refine finishes_step (inC_run hb) ?_
    have hsame₁ := Same.pop n.world .path
    obtain ⟨b', hb'⟩ := malloc_run (hmem.later hsame₁.later) .path ((parseIps n.ips).length * 4)
    refine finishes_step (inC_run hb') ?_
    have hsame₂ := hsame₁.trans (Same.pop _ .path)
    obtain ⟨w, hroom, hsame₃⟩ := replyRoom_run (hmem.later hsame₂.later) (replyCap (argK l)) 32
    have hsame := hsame₂.trans hsame₃
    have hw' : WellFormed w.dt fs chain := by rw [hsame.dt]; exact hw
    refine finishes_step (inC_run hroom) (finishes_step rfl ?_)
    refine finishes_then (finishes_inC ?_) fun _ => harmless_pure _
    refine cWrite_terminates hw' (hmem.later hsame.later) ?_ (Nat.le_refl _) ?_
    · rw [Ne, List.map_eq_nil_iff]
      exact parseIps_ne_nil _
    · rw [hsame.dt]
      exact h k o l file hk ho hl hips hget htype (by simpa using hmay)
  · cases data with
    | none => exact harmless_raiseDTree _ _
    | some data => exact harmless_pure _

theorem finishes_move {dst src : Str} (h : Feasible fs chain n (.move dst src uid)) :
    Finishes (DTree.move dst src uid) n := by
  refine finishes_then ?_ fun ret => harmless_checkRet ret _
  refine finishes_argS fun p hp => finishes_argS fun q hq => ?_
  obtain ⟨w, hcopy, hsame⟩ := copyPaths_run hmem p q
  have hw' : WellFormed w.dt fs chain := by rw [hsame.dt]; exact hw
  refine finishes_step (inC_run hcopy) (finishes_step rfl (finishes_inC ?_))
  refine cMove_terminates hw' (hmem.later hsame.later) fun s d e name hplan => ?_
  rw [hsame.dt]
  exact h p q s d e name hp hq hplan

theorem finishes_chmod {path mode : Str} : Finishes (DTree.chmod path mode uid) n := by
  refine finishes_int fun z _ => finishes_then ?_ fun ret => harmless_checkRet ret _
  refine finishes_argS fun p _ => finishes_argB fun _ => finishes_withPath hmem ?_
  have hw' : WellFormed (asked n).dt fs chain := hw
  exact cChmod_terminates hw' (hmem.later (asked_same n).later)

omit hw hmem in
theorem finishes_closeAs (type : Int) (errType msg : String) (fd : Str) :
    Finishes (closeAs type errType msg fd uid) n := by
  refine finishes_int fun k _ => finishes_findFile fun file _ _ => ?_
  unfold desFd
  refine finishes_step (getState_run n) ?_
  cases n.fds.lookup uid with
  | none => exact finishes_raise _ n
  | some fdp =>
    cases hdes : fdp.des k with
    | none =>
      simp only [hdes]
      exact finishes_raise _ n
    | some fdp' =>
      simp only [hdes]
      exact ⟨_, rfl⟩

/-- A call that the disk can carry out and that does not crash comes back. -/
theorem op_finishes {op : Op} (h : Feasible fs chain n op) (hnot : ¬ Crashes n op) :
    Finishes op.run n := by
  have hmem' : Ample (asked n).env := hmem.later (asked_same n).later
  have hw' : WellFormed (asked n).dt fs chain := hw
  cases op with
  | openFile path oflags mode uid => exact finishes_map _ (finishes_openFile hw hmem h hnot)
  | read fd offset length uid => exact finishes_map _ (finishes_read hw hmem h)
  | write fd offset length uid => exact finishes_map _ (finishes_write hw hmem h)
  | stat path uid => exact finishes_map _ (finishes_stat hw hmem path)
  | close fd uid => exact finishes_map _ (finishes_closeAs _ _ _ fd)
  | opendir path uid => exact finishes_map _ (finishes_opendir hw hmem path)
  | readdir dd entnum uid => exact finishes_map _ (finishes_readdir hw hmem h)
  | closedir dd uid => exact finishes_map _ (finishes_closeAs _ _ _ dd)
  | move dst src uid => exact finishes_map _ (finishes_move hw hmem h)
  | remove path uid =>
    exact finishes_map _ (finishes_pathCall hmem fun p _ => cRemove_terminates hw' hmem')
  | chown path newuid uid =>
    exact finishes_map _ (finishes_pathCall hmem fun p _ => cChown_terminates hw' hmem')
  | chmod path mode uid => exact finishes_map _ (finishes_chmod hw hmem)
  | mkdir path uid =>
    exact finishes_map _ (finishes_pathCall hmem fun p hp =>
      cMkdir_terminates hw' hmem' fun d name hplan => h p d name hp hplan)
  | rmdir path uid =>
    exact finishes_map _ (finishes_pathCall hmem fun p _ => cRmdir_terminates hw' hmem')
  | addBlockInfo order l user ip => exact ⟨_, rfl⟩
  | dropUser user => exact ⟨_, rfl⟩

end Methods

end Sbpfs.Cnode.Finishing
