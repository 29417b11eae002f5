import Sbpfs.Cnode.OpenObjects

/-!
# Descriptor types and object types

`opendir` does not look at the type of what it opens, and nothing keeps an object that a
descriptor stands for. Over runs that avoid both, a descriptor of type `S_DIR` stands for a
directory and one of type `S_FIL` for a regular file, and the functions that get a sector
number get one of the type they expect.
-/
namespace Sbpfs.Cnode.DescriptorTypes

open Sbpfs.Lib.Program Sbpfs.Lib.Raise Sbpfs.Lib.Run
open Sbpfs.Cfs Sbpfs.Cfs.DiskView Sbpfs.Cfs.DiskStore Sbpfs.Cfs.LookupSpec Sbpfs.Cfs.Calls
open Sbpfs.Cfs.Invariants (calm)
open Sbpfs.Spec.Resolve
open Sbpfs.Wire.Head Sbpfs.Wire.Number
open Sbpfs.Cnode.Pool Sbpfs.Cnode.Libcfs Sbpfs.Cnode.DTree Sbpfs.Cnode.Ops Sbpfs.Cnode.Frame
open Sbpfs.Cnode.Descriptors Sbpfs.Cnode.DiskSteps Sbpfs.Cnode.OpenObjects

/-- The descriptor's number is the first sector of a live object of type `t`. -/
def StandsFor (n : CtrlNode) (file : FileDes) (t : UInt8) : Prop :=
  ∃ fb : Nat, file.fb = fb ∧ Live n.world.dt fb t

/-- Every open descriptor stands for an object of its type. -/
structure TypesMatch (n : CtrlNode) : Prop where
  dir : ∀ uid fd file, CtrlNode.getFile n uid fd = some file → file.type = Pool.S_DIR →
    StandsFor n file Layout.S_DIR
  file : ∀ uid fd file, CtrlNode.getFile n uid fd = some file → file.type = Pool.S_FIL →
    StandsFor n file Layout.S_FIL

/-- A function that gets a sector number gets one of the type it expects. -/
def CallTyped (dt : Layout.Dtree) : LibCall → Prop
  | .readdir fb _ _ => Live dt fb.toNat Layout.S_DIR
  | .read fb _ _ _ => Live dt fb.toNat Layout.S_FIL
  | .write fb _ _ _ _ => Live dt fb.toNat Layout.S_FIL
  | _ => True

/-- The calls into the library between two nodes get what they expect on the disk `dt`. -/
def CallsTyped (dt : Layout.Dtree) (n n' : CtrlNode) : Prop :=
  ∃ new, n'.calls = new ++ n.calls ∧ ∀ c ∈ new, CallTyped dt c

/-- Where the descriptors keep standing for what they do: the library's calls are sound,
`opendir` is called for no file that the user may read, and no object is taken away that is
open. -/
structure CalmTurn (n : CtrlNode) (a : Turn) : Prop where
  sound : SoundTurn n a
  opendir : ∀ path uid p e, a.op = .opendir path uid → cstrOf path = some p →
    resolve (entries n.world.dt) p = some e →
    (diskView n.world.dt).may (argI uid) e.fb Lookup.R ≠ 0 → e.type = Layout.S_DIR
  kept : ∀ uid fd file (fb : Nat), CtrlNode.getFile n uid fd = some file → file.fb = fb →
    ¬ Takes n a.op fb

def CalmStep (n : CtrlNode) (a : Turn) (n' : CtrlNode) : Prop := OpStep n a n' ∧ CalmTurn n a

/-! ## Over runs -/

section Runs

variable {n n' : CtrlNode} {a : Turn} {r : Except Exc Value}

/-- What an open descriptor stands for, it stands for after a calm turn. -/
theorem standsFor_turn {uid fd : Int} {file : FileDes} {t : UInt8} (h : NodeHolding n)
    (hends : Ends n a r n') (hcalm : CalmTurn n a) (hfile : CtrlNode.getFile n uid fd = some file)
    (hs : StandsFor n file t) : StandsFor n' file t := by
  obtain ⟨fb, hfb, hlive⟩ := hs
  exact ⟨fb, hfb, live_turn h hends hcalm.sound hlive (hcalm.kept uid fd file fb hfile hfb)⟩

/-- What a descriptor stands for when it is handed out. -/
theorem standsFor_made {file : FileDes} (h : NodeHolding n) (hends : Ends n a r n')
    (hcalm : CalmTurn n a) (hmade : madeBy (CtrlNode.answering n a.env) a.op = some file) :
    (file.type = Pool.S_DIR ∧ StandsFor n' file Layout.S_DIR) ∨
      (file.type = Pool.S_FIL ∧ StandsFor n' file Layout.S_FIL) := by
  cases hop : a.op with
  | openFile path oflags mode uid =>
    obtain ⟨p, o, k, hopen⟩ := openFile_made h hop hends hcalm.sound hmade
    right
    rw [hopen.file_eq]
    exact ⟨rfl, k, rfl, hopen.live⟩
  | opendir path uid =>
    obtain ⟨p, e, hp, hr, hmay, hfile, hlive⟩ := opendir_made h hop hends hmade
    rw [hcalm.opendir path uid p e hop hp hr hmay] at hlive
    left
    rw [hfile]
    exact ⟨rfl, e.fb, rfl, hlive⟩
  | _ =>
    rw [hop] at hmade
    cases hmade

theorem typesMatch_turn (h : NodeHolding n) (hpool : Partitioned n) (ht : TypesMatch n)
    (hends : Ends n a r n') (hcalm : CalmTurn n a) : TypesMatch n' := by
  have heff := effect_run (n := CtrlNode.answering n a.env) hpool hends.2
  -- a descriptor that was open before the turn
  have hold : ∀ {uid fd : Int} {file : FileDes}, CtrlNode.getFile n uid fd = some file →
      (file.type = Pool.S_DIR → StandsFor n' file Layout.S_DIR) ∧
        (file.type = Pool.S_FIL → StandsFor n' file Layout.S_FIL) := by
    intro uid fd file hfile
    constructor
    · intro htype
      exact standsFor_turn h hends hcalm hfile (ht.dir uid fd file hfile htype)
    · intro htype
      exact standsFor_turn h hends hcalm hfile (ht.file uid fd file hfile htype)
  have hall : ∀ uid fd file, CtrlNode.getFile n' uid fd = some file →
      (file.type = Pool.S_DIR → StandsFor n' file Layout.S_DIR) ∧
        (file.type = Pool.S_FIL → StandsFor n' file Layout.S_FIL) := by
    intro uid fd file hfile
    cases heff with
    | same hfds =>
      refine @hold uid fd file ?_
      unfold CtrlNode.getFile at hfile ⊢
      rw [hfds] at hfile
      exact hfile
    | opened uid' fd' file' _ _ _ hmade hent =>
      rw [hent.getFile] at hfile
      unfold enter at hfile
      split at hfile
      · cases hfile
        rcases standsFor_made h hends hcalm hmade with ⟨htype, hs⟩ | ⟨htype, hs⟩
        · refine ⟨fun _ => hs, fun hfil => ?_⟩
          rw [htype] at hfil
          cases hfil
        · refine ⟨fun hdir => ?_, fun _ => hs⟩
          rw [htype] at hdir
          cases hdir
      · exact hold hfile
    | closed uid' fd' _ _ hent =>
      rw [hent.getFile] at hfile
      unfold enter at hfile
      split at hfile
      · cases hfile
      · exact hold hfile
  exact ⟨fun uid fd file hfile => (hall uid fd file hfile).1,
    fun uid fd file hfile => (hall uid fd file hfile).2⟩

/-- The disk, the pools and the descriptors. -/
structure Steady (n : CtrlNode) : Prop where
  holding : NodeHolding n
  pools : Partitioned n
  types : TypesMatch n

theorem steady_mounted (h : Mounted n) : Steady n := by
  refine ⟨h.2, partitioned_started h.1, ?_, ?_⟩
  · intro uid fd file hfile
    rw [getFile_started h.1] at hfile
    cases hfile
  · intro uid fd file hfile
    rw [getFile_started h.1] at hfile
    cases hfile

theorem steady_step (h : Steady n) (hs : CalmStep n a n') : Steady n' := by
  obtain ⟨⟨r, hends⟩, hcalm⟩ := hs
  exact ⟨nodeHolding_turn h.holding hends hcalm.sound, partitioned_turn h.pools hends,
    typesMatch_turn h.holding h.pools h.types hends hcalm⟩

theorem steady_run (h : Reach Mounted CalmStep n) : Steady n :=
  h.inv (fun _ hm => steady_mounted hm) fun _ _ _ hi hs => steady_step hi hs

end Runs

/-! ## The calls into the library -/

section Calls

variable {dt : Layout.Dtree} {n n' : CtrlNode}

theorem callsTyped_same (h : n'.calls = n.calls) : CallsTyped dt n n' :=
  ⟨[], h, fun _ hc => absurd hc List.not_mem_nil⟩

instance : Std.Refl (CallsTyped dt) := ⟨fun _ => callsTyped_same rfl⟩

instance : IsTrans CtrlNode (CallsTyped dt) := by
  constructor
  rintro n t n' ⟨new, h, hnew⟩ ⟨new', h', hnew'⟩
  refine ⟨new' ++ new, ?_, ?_⟩
  · rw [h', h, List.append_assoc]
  · intro c hc
    rcases List.mem_append.mp hc with hc | hc
    · exact hnew' c hc
    · exact hnew c hc

theorem typed_record {c : LibCall} (h : CallTyped dt c) : Stays (CallsTyped dt) (record c) := by
  apply stays_modifyState
  intro n
  refine ⟨[c], rfl, fun c' hc => ?_⟩
  rw [List.mem_singleton.mp hc]
  exact h

instance : Aside (CallsTyped dt) where
  inC := fun m => by
    apply stays_onPart
    intro n a w h
    exact callsTyped_same rfl
  record := fun c hc => by
    apply typed_record
    cases c <;> first | exact trivial | exact absurd hc id

theorem typed_genFd (file : FileDes) (uid : Int) : Stays (CallsTyped dt) (genFd file uid) :=
  stays_bind stays_getState fun _ =>
    stays_bind (stays_modifyState fun _ => callsTyped_same rfl) fun _ => stays_pure _

theorem typed_closeAs (type : Int) (errType msg : String) (fd : Str) (uid : Int) :
    Stays (CallsTyped dt) (closeAs type errType msg fd uid) := by
  apply stays_bind (stays_int _)
  intro fd
  apply stays_bind (stays_findFile _ _ _ _ _)
  intro file
  apply stays_bind stays_getState
  intro n
  split
  · exact stays_raise _
  · split
    · exact stays_raiseWith _ _ _
    · exact stays_modifyState fun _ => callsTyped_same rfl

/-- A number that fits an `unsigned int` comes through the conversion. -/
theorem argI_eq {fb : Nat} (h : fb < 2 ^ 32) : (argI fb).toNat = fb := by
  unfold argI
  rw [UInt32.toNat_ofNat']
  omega

/-- The call for the file of a descriptor. -/
theorem standsFor_arg {file : FileDes} {t : UInt8} (h : NodeHolding n) (hs : StandsFor n file t) :
    Live n.world.dt (argI file.fb).toNat t := by
  obtain ⟨fb, hfb, hlive⟩ := hs
  obtain ⟨fs, chain, hst, ht, -⟩ := h
  obtain ⟨o, ho, -⟩ := live_obj hst ht hlive
  have hlt := (hst.obj fb o ho).head_lt
  have hnum := hst.sized.fatNum_lt
  rw [hfb, argI_eq (by omega)]
  exact hlive

theorem typed_read {fd offset length : Str} {uid : Int} {r : Except Exc (List Data.SendBlock)}
    (hs : Steady n) (h : DTree.read fd offset length uid n = .ok (r, n')) :
    CallsTyped n.world.dt n n' := by
  rcases bind_done.mp h with ⟨e, he, -⟩ | ⟨k, t, hint, h₁⟩
  · exact (stays_int fd).rel he
  obtain ⟨rfl, -⟩ := int_done hint
  rcases bind_done.mp h₁ with ⟨e, he, -⟩ | ⟨o, t₁, hint', h₂⟩
  · exact (stays_int offset).rel he
  obtain ⟨rfl, -⟩ := int_done hint'
  rcases bind_done.mp h₂ with ⟨e, he, -⟩ | ⟨l, t₂, hint'', h₃⟩
  · exact (stays_int length).rel he
  obtain ⟨rfl, -⟩ := int_done hint''
  rcases bind_done.mp h₃ with ⟨e, he, -⟩ | ⟨file, t₃, hfind, h₄⟩
  · exact (stays_findFile ..).rel he
  obtain ⟨rfl, hfile⟩ := findFile_done hfind
  obtain ⟨hget, htype⟩ := hfile file rfl
  have hcall : CallTyped t₃.world.dt (.read (argI file.fb) (argK o) (argK l) (argI uid)) :=
    standsFor_arg hs.holding (hs.types.file uid k file hget htype)
  refine Stays.rel ?_ h₄
  apply stays_ite (stays_raiseWith _ _ _)
  apply stays_bind (stays_wrapCRead (typed_record hcall))
  intro data
  cases data with
  | none => exact stays_raiseDTree _ _
  | some data => exact stays_flitRead data

theorem typed_write {fd offset length : Str} {uid : Int} {r : Except Exc (List Data.SendBlock)}
    (hs : Steady n) (h : DTree.write fd offset length uid n = .ok (r, n')) :
    CallsTyped n.world.dt n n' := by
  rcases bind_done.mp h with ⟨e, he, -⟩ | ⟨k, t, hint, h₁⟩
  · exact (stays_int fd).rel he
  obtain ⟨rfl, -⟩ := int_done hint
  rcases bind_done.mp h₁ with ⟨e, he, -⟩ | ⟨o, t₁, hint', h₂⟩
  · exact (stays_int offset).rel he
  obtain ⟨rfl, -⟩ := int_done hint'
  rcases bind_done.mp h₂ with ⟨e, he, -⟩ | ⟨l, t₂, hint'', h₃⟩
  · exact (stays_int length).rel he
  obtain ⟨rfl, -⟩ := int_done hint''
  rw [bind_step (getState_run _)] at h₃
  by_cases hips : t₂.ips = []
  · rw [if_pos hips] at h₃
    exact (stays_raiseDTree _ _).rel h₃
  rw [if_neg hips] at h₃
  rcases bind_done.mp h₃ with ⟨e, he, -⟩ | ⟨file, t₃, hfind, h₄⟩
  · exact (stays_findFile ..).rel he
  obtain ⟨rfl, hfile⟩ := findFile_done hfind
  obtain ⟨hget, htype⟩ := hfile file rfl
  have hcall : CallTyped t₃.world.dt
      (.write (argI file.fb) (argK o) (argK l) (parseIps t₃.ips) (argI uid)) :=
    standsFor_arg hs.holding (hs.types.file uid k file hget htype)
  refine Stays.rel ?_ h₄
  apply stays_ite (stays_raiseWith _ _ _)
  apply stays_bind (stays_wrapCWrite (typed_record hcall))
  intro data
  cases data with
  | none => exact stays_raiseDTree _ _
  | some data => exact stays_pure _

theorem typed_readdir {dd entnum : Str} {uid : Int} {r : Except Exc (Str × Int)}
    (hs : Steady n) (h : DTree.readdir dd entnum uid n = .ok (r, n')) :
    CallsTyped n.world.dt n n' := by
  rcases bind_done.mp h with ⟨e, he, -⟩ | ⟨k, t, hint, h₁⟩
  · exact (stays_int dd).rel he
  obtain ⟨rfl, -⟩ := int_done hint
  rcases bind_done.mp h₁ with ⟨e, he, -⟩ | ⟨i, t₁, hint', h₂⟩
  · exact (stays_int entnum).rel he
  obtain ⟨rfl, -⟩ := int_done hint'
  rcases bind_done.mp h₂ with ⟨e, he, -⟩ | ⟨file, t₂, hfind, h₃⟩
  · exact (stays_findFile ..).rel he
  obtain ⟨rfl, hfile⟩ := findFile_done hfind
  obtain ⟨hget, htype⟩ := hfile file rfl
  have hcall : CallTyped t₂.world.dt (.readdir (argI file.fb) (argK i) (argI uid)) :=
    standsFor_arg hs.holding (hs.types.dir uid k file hget htype)
  refine Stays.rel ?_ h₃
  apply stays_bind (stays_wrapCReaddir (typed_record hcall))
  intro ret
  cases ret with
  | none => exact stays_raiseDTree _ _
  | some ret => exact stays_pure _

/-- Where descriptors stand for what they should, every call gets what it expects. -/
theorem callsTyped_run {op : Op} {r : Except Exc Value} (hs : Steady n)
    (h : op.run n = .ok (r, n')) : CallsTyped n.world.dt n n' := by
  cases op with
  | read fd offset length uid =>
    obtain ⟨q, hq⟩ := map_done h
    exact typed_read hs hq
  | write fd offset length uid =>
    obtain ⟨q, hq⟩ := map_done h
    exact typed_write hs hq
  | readdir dd entnum uid =>
    obtain ⟨q, hq⟩ := map_done h
    exact typed_readdir hs hq
  | openFile path oflags mode uid =>
    exact (stays_map _ (stays_bind (stays_openDes ..) fun _ => typed_genFd _ _)).rel h
  | opendir path uid =>
    exact (stays_map _ (stays_bind (stays_opendirDes ..) fun _ =>
      stays_bind (typed_genFd _ _) fun _ => stays_pure _)).rel h
  | close fd uid => exact (stays_map _ (typed_closeAs Pool.S_FIL ..)).rel h
  | closedir dd uid => exact (stays_map _ (typed_closeAs Pool.S_DIR ..)).rel h
  | stat path uid => exact (stays_map _ (stays_stat ..)).rel h
  | move dst src uid => exact (stays_map _ (stays_move ..)).rel h
  | remove path uid => exact (stays_map _ (stays_remove ..)).rel h
  | chown path newuid uid => exact (stays_map _ (stays_chown ..)).rel h
  | chmod path mode uid => exact (stays_map _ (stays_chmod ..)).rel h
  | mkdir path uid => exact (stays_map _ (stays_mkdir ..)).rel h
  | rmdir path uid => exact (stays_map _ (stays_rmdir ..)).rel h
  | addBlockInfo order l user ip =>
    cases h
    exact callsTyped_same rfl
  | dropUser user =>
    cases h
    exact callsTyped_same rfl

end Calls

/-- After every run of calm turns each descriptor stands for an object of its type, and the
calls into the library that the next turn makes get sectors of the type they expect. -/
theorem descriptorTypes_run {n : CtrlNode} (h : Reach Mounted CalmStep n) :
    TypesMatch n ∧ ∀ a r n', Ends n a r n' → CallsTyped n.world.dt n n' := by
  have hs : Steady n := steady_run h
  refine ⟨hs.types, fun a r n' hends => ?_⟩
  have hready : Steady (CtrlNode.answering n a.env) :=
    ⟨hs.holding, hs.pools, hs.types.dir, hs.types.file⟩
  exact @callsTyped_run (CtrlNode.answering n a.env) n' a.op r hready hends.2

/-! ## Runs on a fresh disk -/

/-- Opening a file with a short path is calm where no allocation fails. -/
theorem calmTurn_open {n : CtrlNode} {path oflags mode : Str} {uid o m : Int} {p : Layout.CStr}
    (hp : cstrOf path = some p) (ho : pyInt oflags = some o) (hm : pyInt mode = some m)
    (hlen : p.length < 2 ^ 31) : CalmTurn n ⟨.openFile path oflags mode uid, calm⟩ := by
  have hcall : libCall n (.openFile path oflags mode uid) = some _ := libCall_openFile hp ho hm
  refine ⟨soundTurn_open hp ho hm hlen, ?_, ?_⟩
  · intro path' uid' p' e hop
    cases hop
  · rintro uid' fd file fb - - ⟨path', uid'', d, e, -, ⟨hc, -⟩ | ⟨hc, -⟩⟩
    · rw [hcall] at hc
      cases hc
    · rw [hcall] at hc
      cases hc

theorem calmTurn_openA {n : CtrlNode} {a : Turn} (ha : a ∈ openA.map fun op => ⟨op, calm⟩) :
    CalmTurn n a := by
  obtain rfl : a = ⟨.openFile (ascii "/a") (ascii "1") (ascii "15") 0, calm⟩ := by
    simpa [openA] using ha
  have hp : cstrOf (ascii "/a") = some [Layout.slash, ⟨0x61, by decide⟩] := by decide
  have ho : pyInt (ascii "1") = some 1 := by decide
  have hm : pyInt (ascii "15") = some 15 := by decide
  exact calmTurn_open hp ho hm (by decide)

theorem descriptorTypes_run_openA :
    ∃ n, Reach Mounted CalmStep n ∧ CtrlNode.getFile n 0 0 = some ⟨2, 1, Pool.S_FIL⟩ ∧
      TypesMatch n := by
  have hrun : (runOps openA).map (fun q => CtrlNode.getFile q.2 0 0)
      = some (some ⟨2, 1, Pool.S_FIL⟩) := by
    decide +kernel
  obtain ⟨⟨rs, n'⟩, hops, hget⟩ := Option.map_eq_some_iff.mp hrun
  obtain ⟨n, hboot, hexec⟩ := Option.bind_eq_some_iff.mp hops
  have hstart : Reach Mounted CalmStep n := .init (mounted_boot hboot)
  obtain ⟨s, rfl, hreach⟩ := @reach_execOps _ id _ _ _ _ _ _
    (fun a ha s r n' hends => ⟨n', rfl, ⟨r, hends⟩, calmTurn_openA ha⟩) hstart hexec
  exact ⟨s, hreach, hget, (descriptorTypes_run hreach).1⟩

/-- No object is both a directory and a file. -/
theorem live_type {n : CtrlNode} (h : NodeHolding n) {fb : Nat} {t t' : UInt8}
    (hlive : Live n.world.dt fb t) (hlive' : Live n.world.dt fb t') : t = t' := by
  obtain ⟨fs, chain, hst, ht, -⟩ := h
  obtain ⟨o, ho, rfl⟩ := live_obj hst ht hlive
  obtain ⟨o', ho', rfl⟩ := live_obj hst ht hlive'
  rw [ho] at ho'
  cases ho'
  rfl

/-- `opendir` of a regular file hands out a descriptor for a directory. -/
theorem opendir_of_file : ∃ n, Reach Mounted OpStep n ∧ ¬ TypesMatch n := by
  have hrun : (runOps (openA ++ [.opendir (ascii "/a") 0])).map (fun q =>
      (CtrlNode.getFile q.2 0 0, CtrlNode.getFile q.2 0 1))
      = some (some ⟨2, 1, Pool.S_FIL⟩, some ⟨2, 0, Pool.S_DIR⟩) := by
    decide +kernel
  obtain ⟨⟨rs, n₂⟩, hops, hget⟩ := Option.map_eq_some_iff.mp hrun
  obtain ⟨n, hboot, hexec⟩ := Option.bind_eq_some_iff.mp hops
  obtain ⟨r, rs', n₁, -, hends, hexec'⟩ := execOps_cons hexec
  obtain ⟨r', rs'', n₂', -, hends', hexec''⟩ := execOps_cons hexec'
  cases hexec''
  have hcalm : CalmTurn n ⟨.openFile (ascii "/a") (ascii "1") (ascii "15") 0, calm⟩ :=
    calmTurn_openA (List.mem_singleton.mpr rfl)
  have hsound : SoundTurn n₁ ⟨.opendir (ascii "/a") 0, calm⟩ := fun c hc => nomatch hc
  have hmount := mounted_boot hboot
  have hhold : NodeHolding n₂ :=
    nodeHolding_turn (nodeHolding_turn hmount.2 hends hcalm.sound) hends' hsound
  refine ⟨n₂, .step (.step (.init hmount) ⟨r, hends⟩) ⟨r', hends'⟩, fun ht => ?_⟩
  -- the same object would be a file for one descriptor and a directory for the other
  simp only [Prod.mk.injEq] at hget
  obtain ⟨fb, hfb, hfile⟩ := ht.file 0 0 _ hget.1 rfl
  obtain ⟨fb', hfb', hdir⟩ := ht.dir 0 1 _ hget.2 rfl
  have heq : fb = fb' := Int.ofNat.inj (hfb.symm.trans hfb')
  rw [heq] at hfile
  exact absurd (live_type hhold hfile hdir) (by decide)

end Sbpfs.Cnode.DescriptorTypes
