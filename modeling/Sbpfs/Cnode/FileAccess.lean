import Sbpfs.Cnode.OpenObjects

/-!
# Permissions and descriptors

Beside the node the disk is kept that each descriptor was handed out on. What a user reads
or writes through a descriptor is then compared with what the header of the file granted
when it was opened. `c_open` asks the directory only; over runs whose opens ask for no more
than the file grants, neither does a later read or write.
-/
namespace Sbpfs.Cnode.FileAccess

open Sbpfs.Lib.Program Sbpfs.Lib.Raise Sbpfs.Lib.Run
open Sbpfs.Cfs Sbpfs.Cfs.DiskView Sbpfs.Cfs.Lookup Sbpfs.Cfs.NamespaceSpec Sbpfs.Cfs.Calls
open Sbpfs.Cfs.Invariants (calm)
open Sbpfs.Spec.Resolve
open Sbpfs.Wire.Head Sbpfs.Wire.Number
open Sbpfs.Cnode.Pool Sbpfs.Cnode.Libcfs Sbpfs.Cnode.DTree Sbpfs.Cnode.Ops Sbpfs.Cnode.Frame
open Sbpfs.Cnode.Descriptors Sbpfs.Cnode.DiskSteps Sbpfs.Cnode.OpenObjects

/-- The disks that the descriptors were handed out on. -/
abbrev Origins := Int → Int → Option Layout.Dtree

/-- The origins after a call with the result `r`. -/
def origins (n : CtrlNode) (op : Op) (r : Except Exc Value) (since : Origins) : Origins :=
  fun uid fd => if Op.user op = some uid ∧ handedOut r
    = some fd then some n.world.dt else since uid fd

/-- A node with the origins of its descriptors. -/
structure Watch where
  node : CtrlNode
  since : Origins

def Watching (s : Watch) : Prop := Mounted s.node ∧ s.since = fun _ _ => none

def WatchStep (s : Watch) (a : Turn) (s' : Watch) : Prop :=
  ∃ r, Ends s.node a r s'.node ∧ s'.since = origins s.node a.op r s.since

/-- The file of the descriptor, if it was there on the disk `dt`, granted `op` to the user. -/
def Granted (dt : Layout.Dtree) (file : FileDes) (uid : Int) (op : UInt8) : Prop :=
  ∀ fb : Nat, file.fb = fb → Live dt fb Layout.S_FIL →
    permissionCheck (argI uid) (dt.data fb) op ≠ 0

/-- What a read or write that returns was granted when the descriptor was handed out. -/
structure AccessGranted (s : Watch) : Prop where
  read : ∀ e fd offset length uid data n',
    Ends s.node ⟨.read fd offset length uid, e⟩ (.ok (.blocks data)) n' →
    ∃ k file dt, pyInt fd = some k ∧ CtrlNode.getFile s.node uid k = some file ∧
      s.since uid k = some dt ∧ Granted dt file uid R
  write : ∀ e fd offset length uid data n',
    Ends s.node ⟨.write fd offset length uid, e⟩ (.ok (.blocks data)) n' →
    ∃ k file dt, pyInt fd = some k ∧ CtrlNode.getFile s.node uid k = some file ∧
      s.since uid k = some dt ∧ Granted dt file uid W

/-- An open of a file that is there asks for no more than the file grants. -/
structure GuardedTurn (n : CtrlNode) (a : Turn) : Prop where
  sound : SoundTurn n a
  asks : ∀ path oflags mode uid p o d name e, a.op = .openFile path oflags mode uid →
    cstrOf path = some p → pyInt oflags = some o →
    openPlan (diskView n.world.dt) p (argI uid) = .ok (d, name, some e) →
    (mayUse ⟨e.fb, o, Pool.S_FIL⟩ SBP_O_RDONLY = true →
      permissionCheck (argI uid) (n.world.dt.data e.fb) R ≠ 0) ∧
    (mayUse ⟨e.fb, o, Pool.S_FIL⟩ SBP_O_WRONLY = true →
      permissionCheck (argI uid) (n.world.dt.data e.fb) W ≠ 0)

def GuardedStep (s : Watch) (a : Turn) (s' : Watch) : Prop :=
  WatchStep s a s' ∧ GuardedTurn s.node a

/-! ## Over runs -/

/-- The flags of a descriptor ask for no more than its file granted. -/
def Backed (dt : Layout.Dtree) (uid : Int) (file : FileDes) : Prop :=
  (mayUse file SBP_O_RDONLY = true → Granted dt file uid R) ∧
    (mayUse file SBP_O_WRONLY = true → Granted dt file uid W)

/-- The disk, the pools and what backs the descriptors. -/
structure Guarded (s : Watch) : Prop where
  holding : NodeHolding s.node
  pools : Partitioned s.node
  backed : ∀ uid fd file, CtrlNode.getFile s.node uid fd = some file →
    ∃ dt, s.since uid fd = some dt ∧ Backed dt uid file

section Runs

variable {s s' : Watch} {a : Turn} {n n' : CtrlNode} {r : Except Exc Value}

theorem origins_same {op : Op} {since : Origins} (h : handedOut r = none) :
    origins n op r since = since := by
  funext uid fd
  unfold origins
  rw [h, if_neg (fun hc => nomatch hc.2)]

theorem origins_opened {op : Op} {since : Origins} {uid fd : Int} (huser : Op.user op = some uid)
    (hhand : handedOut r = some fd) (u k : Int) :
    origins n op r since u k = if u = uid ∧ k = fd then some n.world.dt else since u k := by
  unfold origins
  rw [huser, hhand]
  simp only [Option.some.injEq, eq_comm]

/-- What backs a descriptor that a guarded turn hands out. -/
theorem backed_made {uid : Int} {file : FileDes} (h : NodeHolding n) (hends : Ends n a r n')
    (hg : GuardedTurn n a) (huser : Op.user a.op = some uid)
    (hmade : madeBy (CtrlNode.answering n a.env) a.op = some file) :
    Backed n.world.dt uid file := by
  cases hop : a.op with
  | openFile path oflags mode uid' =>
    rw [hop] at huser
    cases huser
    obtain ⟨p, o, k, hopen⟩ := openFile_made h hop hends hg.sound hmade
    rw [hopen.file_eq]
    rcases hopen.origin with ⟨d, name, e, hplan, hfb⟩ | hnew
    · obtain ⟨hr, hw⟩ :=
        hg.asks path oflags mode uid p o d name e hop hopen.path_eq hopen.oflags_eq hplan
      rw [hfb] at hr hw
      constructor
      · intro hmay fb heq _
        obtain rfl : k = fb := Int.ofNat.inj heq
        exact hr hmay
      · intro hmay fb heq _
        obtain rfl : k = fb := Int.ofNat.inj heq
        exact hw hmay
    · constructor
      · intro _ fb heq hlive
        obtain rfl : k = fb := Int.ofNat.inj heq
        exact absurd hlive (hnew _)
      · intro _ fb heq hlive
        obtain rfl : k = fb := Int.ofNat.inj heq
        exact absurd hlive (hnew _)
  | opendir path uid' =>
    -- the mode of a directory's descriptor is 0
    obtain ⟨p, e, -, -, -, hfile, -⟩ := opendir_made h hop hends hmade
    rw [hfile]
    constructor
    · intro hmay
      cases hmay
    · intro hmay
      cases hmay
  | _ =>
    rw [hop] at hmade
    cases hmade

theorem guarded_step (h : Guarded s) (hs : GuardedStep s a s') : Guarded s' := by
  obtain ⟨⟨r, hends, hsince⟩, hg⟩ := hs
  refine ⟨nodeHolding_turn h.holding hends hg.sound, partitioned_turn h.pools hends, ?_⟩
  have heff := effect_run (n := CtrlNode.answering s.node a.env) h.pools hends.2
  intro u k file hfile
  rw [hsince]
  cases heff with
  | same hfds _ hhand =>
    rw [origins_same hhand]
    refine h.backed u k file ?_
    unfold CtrlNode.getFile at hfile ⊢
    rw [hfds] at hfile
    exact hfile
  | opened uid fd file' huser hhand _ hmade hent =>
    rw [origins_opened huser hhand]
    rw [hent.getFile] at hfile
    unfold enter at hfile
    by_cases hk : u = uid ∧ k = fd
    · rw [if_pos hk] at hfile ⊢
      cases hfile
      obtain ⟨rfl, rfl⟩ := hk
      exact ⟨s.node.world.dt, rfl, backed_made h.holding hends hg huser hmade⟩
    · rw [if_neg hk] at hfile ⊢
      exact h.backed u k file hfile
  | closed uid fd _ hhand hent =>
    rw [origins_same hhand]
    rw [hent.getFile] at hfile
    unfold enter at hfile
    split at hfile
    · cases hfile
    · exact h.backed u k file hfile

theorem guarded_start (h : Watching s) : Guarded s := by
  refine ⟨h.1.2, partitioned_started h.1.1, ?_⟩
  intro uid fd file hfile
  rw [getFile_started h.1.1] at hfile
  cases hfile

/-- After every run whose opens ask for no more than the files grant, what a read or write
returns was granted by the file itself when it was opened. -/
theorem fileAccess_run (h : Reach Watching GuardedStep s) : AccessGranted s := by
  have hg : Guarded s :=
    h.inv (fun _ hw => guarded_start hw) fun _ _ _ hi hs => guarded_step hi hs
  constructor
  · intro e fd offset length uid data n' hends
    obtain ⟨data', hread, hval⟩ := map_returns hends.2
    obtain ⟨k, o, l, file, blocks, hdone⟩ := read_returns hread
    obtain ⟨dt, hdt, hback⟩ := hg.backed uid k file hdone.found
    exact ⟨k, file, dt, hdone.fd_eq, hdone.found, hdt, hback.1 hdone.may⟩
  · intro e fd offset length uid data n' hends
    obtain ⟨data', hwrite, hval⟩ := map_returns hends.2
    rcases write_done hwrite with ⟨-, hno⟩ |
      ⟨k, o, l, file, cap, q, w, hk, -, -, hfile, -, hmay, -⟩
    · exact absurd rfl (hno data')
    obtain ⟨dt, hdt, hback⟩ := hg.backed uid k file hfile
    exact ⟨k, file, dt, hk, hfile, hdt, hback.2 hmay⟩

end Runs

/-! ## Runs on a fresh disk -/

/-- A node's turn with the origins that it leads to. -/
theorem watch_next (s : Watch) {a : Turn} {r : Except Exc Value} {n' : CtrlNode}
    (hends : Ends s.node a r n') : ∃ s', s'.node = n' ∧
      s'.since = origins s.node a.op r s.since ∧ WatchStep s a s' :=
  ⟨⟨n', _⟩, rfl, rfl, r, hends, rfl⟩

/-- Opening `/a` is guarded where the file, if it is there, grants both. -/
theorem guardedTurn_openA {n : CtrlNode} {oflags mode : Str} {uid o m : Int}
    (ho : pyInt oflags = some o) (hm : pyInt mode = some m)
    (hplan : ∀ d name e, openPlan (diskView n.world.dt) pathA (argI uid) = .ok (d, name, some e) →
      permissionCheck (argI uid) (n.world.dt.data e.fb) R ≠ 0 ∧
        permissionCheck (argI uid) (n.world.dt.data e.fb) W ≠ 0) :
    GuardedTurn n ⟨.openFile (ascii "/a") oflags mode uid, calm⟩ := by
  refine ⟨soundTurn_open cstrOf_pathA ho hm (by decide), ?_⟩
  intro path oflags' mode' uid' p o' d name e hop hp _ hfound
  cases hop
  rw [cstrOf_pathA] at hp
  cases hp
  obtain ⟨hr, hw⟩ := hplan d name e hfound
  exact ⟨fun _ => hr, fun _ => hw⟩

/-- The first sector of the file that an open of `/a` by `uid` would find. -/
def foundA (n : CtrlNode) (uid : UInt32) : Option (Option Nat) :=
  (openPlan (diskView n.world.dt) pathA uid).toOption.map fun q => q.2.2.map Spec.FileTree.Ent.fb

theorem foundA_some {n : CtrlNode} {uid : UInt32} {d : Nat} {name : Layout.CStr}
    {e : Spec.FileTree.Ent} (h : openPlan (diskView n.world.dt) pathA uid = .ok (d, name, some e)) :
    foundA n uid = some (some e.fb) := by
  unfold foundA
  rw [h]
  rfl

/-- A file that only its owner may use. -/
def makeA : Op := .openFile (ascii "/a") (ascii "1") (ascii "12") 0

/-- The file opened for writing. -/
def writeA (uid : Int) : Op := .openFile (ascii "/a") (ascii "2") (ascii "0") uid

theorem fileAccess_run_writeA : ∃ s, Reach Watching GuardedStep s ∧
    CtrlNode.getFile s.node 0 1 = some ⟨2, 2, Pool.S_FIL⟩ ∧ AccessGranted s := by
  have hrun : (bootNode.any fun n => foundA n 0 == some none &&
      (execOps [⟨makeA, calm⟩] n).any fun q => foundA q.2 0 == some (some 2) &&
        permissionCheck 0 (q.2.world.dt.data 2) R != 0 &&
        permissionCheck 0 (q.2.world.dt.data 2) W != 0 &&
        (execOps [⟨writeA 0, calm⟩] q.2).any fun q =>
          CtrlNode.getFile q.2 0 1 == some ⟨2, 2, Pool.S_FIL⟩) = true := by
    decide +kernel
  simp only [Option.any_eq_true, Bool.and_eq_true, beq_iff_eq, bne_iff_ne, Prod.exists] at hrun
  obtain ⟨n, hboot, hnone, rs, n₁, hexec, ⟨⟨hfound, hr⟩, hw⟩, rs', n₂, hexec', hget⟩ := hrun
  obtain ⟨r, _, _, -, hends, hnil⟩ := execOps_cons hexec
  cases hnil
  obtain ⟨r', _, _, -, hends', hnil'⟩ := execOps_cons hexec'
  cases hnil'
  have hnew : GuardedTurn n ⟨makeA, calm⟩ := by
    refine guardedTurn_openA rfl rfl fun d name e hplan => ?_
    have hfb : foundA n 0 = some (some e.fb) := foundA_some hplan
    rw [hnone] at hfb
    cases hfb
  have hold : GuardedTurn n₁ ⟨writeA 0, calm⟩ := by
    refine guardedTurn_openA rfl rfl fun d name e hplan => ?_
    have hfb : foundA n₁ 0 = some (some e.fb) := foundA_some hplan
    have he : e.fb = 2 := by simpa [hfound] using hfb.symm
    rw [he]
    exact ⟨hr, hw⟩
  have h0 : Reach Watching GuardedStep (⟨n, fun _ _ => none⟩ : Watch) :=
    .init ⟨mounted_boot hboot, rfl⟩
  obtain ⟨s₁, rfl, -, hs₁⟩ := watch_next ⟨n, fun _ _ => none⟩ hends
  obtain ⟨s₂, rfl, -, hs₂⟩ := watch_next s₁ hends'
  have h2 := (h0.step ⟨hs₁, hnew⟩).step ⟨hs₂, hold⟩
  exact ⟨s₂, h2, hget, fileAccess_run h2⟩

/-- A user writes to a file that only its owner may use. -/
theorem write_foreign_file : ∃ s, Reach Watching WatchStep s ∧ ¬ AccessGranted s := by
  have hrun : ((runOps [makeA, .addBlockInfo [ascii "d"] [] (ascii "d") (ascii "1.2.3.4")]).any
      fun q => decide (⟨[⟨0x61, by decide⟩], 2, Layout.S_FIL⟩ ∈ entries q.2.world.dt 1) &&
        Layout.entryFb (q.2.world.dt.data 0) 0 == 1 &&
        Layout.entryType (q.2.world.dt.data 0) 0 == Layout.S_DIR &&
        permissionCheck 5 (q.2.world.dt.data 2) W == 0 &&
        (execOps [⟨writeA 5, calm⟩] q.2).any fun q => q.1.map Except.toOption == [some (.fd 0)] &&
          CtrlNode.getFile q.2 5 0 == some ⟨2, 2, Pool.S_FIL⟩ &&
          (execOps [⟨.write (ascii "0") (ascii "0") (ascii "9") 5, calm⟩] q.2).any fun q =>
            q.1.map Except.toOption == [some (.blocks [⟨0, 0, 9, [16909060, 0, 0]⟩])]) = true := by
    decide +kernel
  simp only [Option.any_eq_true, Bool.and_eq_true, beq_iff_eq, decide_eq_true_eq,
    Prod.exists] at hrun
  obtain ⟨rs, n₂, hops, ⟨⟨⟨⟨hmem, hfb⟩, htype⟩, hperm⟩, rs', n₃, hexec, ⟨⟨hfd, hget⟩, rs'', n₄,
    hexec', hdata⟩⟩⟩ := hrun
  obtain ⟨n, hboot, hfirst⟩ := Option.bind_eq_some_iff.mp hops
  obtain ⟨r₀, _, n₁, -, hends₀, hrest⟩ := execOps_cons hfirst
  obtain ⟨r₁, _, _, -, hends₁, hnil⟩ := execOps_cons hrest
  cases hnil
  obtain ⟨r₂, _, _, rfl, hends₂, hnil⟩ := execOps_cons hexec
  cases hnil
  obtain ⟨r₃, _, _, rfl, hends₃, hnil⟩ := execOps_cons hexec'
  cases hnil
  have hopened : r₂ = .ok (.fd 0) := toOption_some (List.singleton_inj.mp hfd)
  have hwrote : r₃ = .ok (.blocks [⟨0, 0, 9, [16909060, 0, 0]⟩]) :=
    toOption_some (List.singleton_inj.mp hdata)
  have h0 : Reach Watching WatchStep (⟨n, fun _ _ => none⟩ : Watch) :=
    .init ⟨mounted_boot hboot, rfl⟩
  obtain ⟨s₁, rfl, -, hs₁⟩ := watch_next ⟨n, fun _ _ => none⟩ hends₀
  obtain ⟨s₂, rfl, -, hs₂⟩ := watch_next s₁ hends₁
  obtain ⟨s₃, rfl, hsince, hs₃⟩ := watch_next s₂ hends₂
  have h3 := ((h0.step hs₁).step hs₂).step hs₃
  refine ⟨s₃, h3, fun hg => ?_⟩
  rw [hwrote] at hends₃
  obtain ⟨k, file, dt, hk, hfile, hdt, hgrant⟩ := hg.write _ _ _ _ _ _ _ hends₃
  obtain rfl : k = 0 := by
    have hzero : pyInt (ascii "0") = some 0 := by decide
    rw [hzero] at hk
    exact (Option.some.inj hk).symm
  obtain rfl : file = ⟨2, 2, Pool.S_FIL⟩ := Option.some.inj (hfile.symm.trans hget)
  -- the descriptor was handed out on the disk after the first two calls
  have hhand : handedOut r₂ = some 0 := by
    rw [hopened]
    rfl
  rw [hsince, origins_opened rfl hhand, if_pos ⟨rfl, rfl⟩] at hdt
  cases hdt
  exact hgrant 2 rfl (live_inRoot hfb htype hmem) hperm

end Sbpfs.Cnode.FileAccess
