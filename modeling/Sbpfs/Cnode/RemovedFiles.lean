import Sbpfs.Cnode.OpenObjects

/-!
# Descriptors that outlive their files

A descriptor keeps a bare sector number. Beside the node it is kept which descriptors are
open since before their file was removed. Such a descriptor reaches what the sector has
become since; it does no harm where the length in the sector's header stops the call, and a
read does none while the sector is free.
-/
namespace Sbpfs.Cnode.RemovedFiles

open Sbpfs.Lib.Program Sbpfs.Lib.Raise Sbpfs.Lib.Run
open Sbpfs.Cfs Sbpfs.Cfs.DiskStore Sbpfs.Cfs.DiskView Sbpfs.Cfs.LookupSpec Sbpfs.Cfs.RunSpec
open Sbpfs.Cfs.Layout (Dtree sectorOf FREESEC ENDSEC metaFlen)
open Sbpfs.Cfs.Invariants (calm calm_succeeds)
open Sbpfs.Spec.FileTree Sbpfs.Spec.Resolve
open Sbpfs.Wire.Head Sbpfs.Wire.Number
open Sbpfs.Cnode.Pool Sbpfs.Cnode.Libcfs Sbpfs.Cnode.DTree Sbpfs.Cnode.Ops Sbpfs.Cnode.Frame
open Sbpfs.Cnode.Descriptors Sbpfs.Cnode.DiskSteps Sbpfs.Cnode.OpenObjects

/-- The sector number that the library gets for a descriptor. -/
def sectorArg (file : FileDes) : Nat := (argI file.fb).toNat

/-- A call of `remove` has taken the file of the descriptor away. -/
def Removed (n : CtrlNode) (op : Op) (r : Except Exc Value) (file : FileDes) : Prop :=
  r = .ok .none ∧ ∃ path uid p d e, op = .remove path uid ∧ cstrOf path = some p ∧
    removePlan (diskView n.world.dt) p (argI uid) = .ok (d, e) ∧ e.fb = sectorArg file

/-- A node with the descriptors that have outlived their files. -/
structure Census where
  node : CtrlNode
  outlived : Int → Int → Prop

def CensusBegun (s : Census) : Prop := Mounted s.node ∧ s.outlived = fun _ _ => False

/-- A descriptor that was open before the call and still is has outlived its file if it had
before, or if the call removed the file. -/
def outlives (n : CtrlNode) (op : Op) (r : Except Exc Value) (n' : CtrlNode)
    (outlived : Int → Int → Prop) : Int → Int → Prop := fun uid fd =>
  ∃ file, CtrlNode.getFile n uid fd = some file ∧ CtrlNode.getFile n' uid fd = some file ∧
    (outlived uid fd ∨ file.type = Pool.S_FIL ∧ Removed n op r file)

def CensusStep (s : Census) (a : Turn) (s' : Census) : Prop :=
  ∃ r, Ends s.node a r s'.node ∧ s'.outlived = outlives s.node a.op r s'.node s.outlived

/-- The call through the sector `fb` leaves every live object and the root entry alone, and
it fails or reads nothing that belongs to a live object. -/
structure Contained (n : CtrlNode) (fb : Nat) (r : Except Exc Value) (n' : CtrlNode) : Prop where
  objects : ∀ f t cs, Live n.world.dt f t → IsChain n.world.dt f cs →
    ∀ c ∈ cs, n'.world.dt.fat c = n.world.dt.fat c ∧ n'.world.dt.data c = n.world.dt.data c
  root : n'.world.dt.fat 0 = n.world.dt.fat 0 ∧ n'.world.dt.data 0 = n.world.dt.data 0
  apart : (∃ e, r = .error e) ∨ ∀ f t cs, Live n.world.dt f t → IsChain n.world.dt f cs →
    cs.Disjoint (chainOf n.world.dt fb)

/-- What a turn through descriptors that have outlived their files does. -/
structure TurnContained (s : Census) (a : Turn) (r : Except Exc Value) (n' : CtrlNode) : Prop where
  read : ∀ fd offset length uid k file, a.op = .read fd offset length uid → pyInt fd = some k →
    s.outlived uid k → CtrlNode.getFile s.node uid k = some file →
    Contained s.node (sectorArg file) r n'
  write : ∀ fd offset length uid k file, a.op = .write fd offset length uid → pyInt fd = some k →
    s.outlived uid k → CtrlNode.getFile s.node uid k = some file →
    Contained s.node (sectorArg file) r n'

/-- The length in the header that the sector now holds stops the call. -/
def Stopped (dt : Dtree) (file : FileDes) (offset : Int) : Prop :=
  metaFlen (dt.data (sectorOf (sectorArg file))) < (argK offset).toNat

/-- The sector belongs to nobody. -/
def IsFree (dt : Dtree) (fb : Nat) : Prop := fb < dt.sb.fatNum ∧ dt.fat fb = FREESEC

/-- The library's calls are sound; a write through a descriptor that has outlived its file
is stopped, and a read is, or its sector is free. -/
structure SparingTurn (s : Census) (a : Turn) : Prop where
  sound : SoundTurn s.node a
  read : ∀ fd offset length uid k o file, a.op = .read fd offset length uid → pyInt fd = some k →
    pyInt offset = some o → s.outlived uid k → CtrlNode.getFile s.node uid k = some file →
    Stopped s.node.world.dt file o ∨ IsFree s.node.world.dt (sectorArg file)
  write : ∀ fd offset length uid k o file, a.op = .write fd offset length uid → pyInt fd = some k →
    pyInt offset = some o → s.outlived uid k → CtrlNode.getFile s.node uid k = some file →
    Stopped s.node.world.dt file o

def SparingStep (s : Census) (a : Turn) (s' : Census) : Prop :=
  CensusStep s a s' ∧ SparingTurn s a

/-! ## One turn -/

section Turn

variable {n n' : CtrlNode} {a : Turn} {r : Except Exc Value}

/-- Whoever does not change the disk leaves the live objects alone. -/
theorem contained_same {fb : Nat} (hdt : n'.world.dt = n.world.dt)
    (hapart : (∃ e, r = .error e) ∨ ∀ f t cs, Live n.world.dt f t → IsChain n.world.dt f cs →
      cs.Disjoint (chainOf n.world.dt fb)) : Contained n fb r n' := by
  refine ⟨fun f t cs _ _ c _ => ?_, ?_, hapart⟩
  · rw [hdt]
    exact ⟨rfl, rfl⟩
  · rw [hdt]
    exact ⟨rfl, rfl⟩

/-- From a free slot the chain leads to the reserved one and ends. -/
theorem chainFrom_free {fat : Nat → Nat} {fb : Nat} (hfb : fat fb = 0) (h0 : fat 0 = ENDSEC)
    (m : Nat) : ∀ c ∈ chainFrom fat m fb, c = fb ∨ c = 0 := by
  have hzero : ∀ m, ∀ c ∈ chainFrom fat m 0, c = 0 := by
    intro m c hc
    cases m with
    | zero => cases hc
    | succ m =>
      rw [chainFrom, if_neg (by decide), h0] at hc
      rcases List.mem_cons.mp hc with rfl | hc
      · rfl
      · cases m with
        | zero => cases hc
        | succ m =>
          rw [chainFrom, if_pos rfl] at hc
          cases hc
  intro c hc
  cases m with
  | zero => cases hc
  | succ m =>
    rw [chainFrom] at hc
    split at hc
    · cases hc
    · rw [hfb] at hc
      rcases List.mem_cons.mp hc with rfl | hc
      · exact .inl rfl
      · exact .inr (hzero m c hc)

/-- What a free sector leads to belongs to no live object. -/
theorem chainOf_free {fb : Nat} (h : NodeHolding n) (hfree : IsFree n.world.dt fb) :
    ∀ f t cs, Live n.world.dt f t → IsChain n.world.dt f cs →
      cs.Disjoint (chainOf n.world.dt fb) := by
  obtain ⟨fs, chain, hst, ht, -⟩ := h
  intro f t cs hlive hchain c hc hc'
  obtain ⟨o, ho, -⟩ := live_obj hst ht hlive
  have hat := hst.obj f o ho
  rw [hchain.unique hst.sized (isChain_of hat)] at hc
  rcases chainFrom_free hfree.2 hst.reserved _ c hc' with rfl | rfl
  · exact hat.fat_ne_zero hc hfree.2
  · exact hat.pos 0 hc rfl

theorem contained_read {fd offset length : Str} {uid k : Int} {file : FileDes}
    (h : NodeHolding n) (hop : a.op = .read fd offset length uid) (hk : pyInt fd = some k)
    (hfile : CtrlNode.getFile n uid k = some file) (hends : Ends n a r n')
    (hspare : ∀ o, pyInt offset = some o →
      Stopped n.world.dt file o ∨ IsFree n.world.dt (sectorArg file)) :
    Contained n (sectorArg file) r n' := by
  have hrun := hends.2
  rw [hop] at hrun
  have hquiet : Quiet (CtrlNode.answering n a.env) n' :=
    (stays_map _ (quiet_read fd offset length uid)).rel hrun
  have hend : n'.world.dt = n.world.dt := hquiet.dt
  apply contained_same hend
  cases r with
  | error e => exact .inl ⟨e, rfl⟩
  | ok v =>
    right
    obtain ⟨data, hread, -⟩ := map_returns hrun
    obtain ⟨k', o, l, file', blocks, hdone⟩ := read_returns hread
    obtain rfl : k = k' := Option.some.inj (hk.symm.trans hdone.fd_eq)
    obtain rfl : file = file' := Option.some.inj (hfile.symm.trans hdone.found)
    rcases hspare o hdone.offset_eq with hstop | hfree
    · obtain ⟨cap, q, w, w', -, hsame, hcall, hblocks⟩ := hdone.call
      have hdt : w.dt = n.world.dt := hsame.dt
      have hq : q = (-1, []) := cRead_refused (hdt ▸ hstop) hcall
      rw [hq] at hblocks
      cases hblocks
    · exact chainOf_free h hfree

theorem contained_write {fd offset length : Str} {uid k : Int} {file : FileDes}
    (hop : a.op = .write fd offset length uid) (hk : pyInt fd = some k)
    (hfile : CtrlNode.getFile n uid k = some file) (hends : Ends n a r n')
    (hspare : ∀ o, pyInt offset = some o → Stopped n.world.dt file o) :
    Contained n (sectorArg file) r n' := by
  have hrun := hends.2
  rw [hop] at hrun
  -- the call is stopped before it changes anything
  have hstopped : ∀ {q : Except Exc (List Data.SendBlock)},
      DTree.write fd offset length uid (CtrlNode.answering n a.env) = .ok (q, n') →
      n'.world.dt = n.world.dt ∧ ∀ data, q ≠ .ok data := by
    intro q hq
    rcases write_done hq with ⟨hquiet, hno⟩ |
      ⟨k', o, l, file', cap, p, w, hk', ho, -, hfile', -, -, -, -, hsame, hcall, hdata⟩
    · exact ⟨hquiet.dt, hno⟩
    obtain rfl : k = k' := Option.some.inj (hk.symm.trans hk')
    obtain rfl : file = file' := Option.some.inj (hfile.symm.trans hfile')
    have hdt : w.dt = n.world.dt := hsame.dt
    have hstop := hspare o ho
    obtain ⟨hw, hp⟩ := cWrite_refused (hdt ▸ hstop) hcall
    refine ⟨by rw [hw, hdt], fun data hd => ?_⟩
    rw [hd, hp] at hdata
    cases hdata
  rcases bind_done.mp hrun with ⟨e, he, rfl⟩ | ⟨data, t, hret, hp⟩
  · exact contained_same (hstopped he).1 (.inl ⟨e, rfl⟩)
  · obtain ⟨-, rfl⟩ := pure_done.mp hp
    exact absurd rfl ((hstopped hret).2 data)

end Turn

/-! ## Over runs -/

theorem holding_census {s : Census} (h : Reach CensusBegun SparingStep s) : NodeHolding s.node := by
  refine h.inv (fun s hb => hb.1.2) fun s a s' hi hs => ?_
  obtain ⟨⟨r, hends, -⟩, hspare⟩ := hs
  exact nodeHolding_turn hi hends hspare.sound

/-- Over every run whose turns are sparing, a read or write through a descriptor that has
outlived its file leaves all live objects and the root entry alone. -/
theorem removedFiles_run {s : Census} (h : Reach CensusBegun SparingStep s) {a : Turn}
    {r : Except Exc Value} {n' : CtrlNode} (hends : Ends s.node a r n') (hspare : SparingTurn s a) :
    TurnContained s a r n' := by
  have hhold := holding_census h
  constructor
  · intro fd offset length uid k file hop hk hout hfile
    exact contained_read hhold hop hk hfile hends fun o ho =>
      hspare.read fd offset length uid k o file hop hk ho hout hfile
  · intro fd offset length uid k file hop hk hout hfile
    exact contained_write hop hk hfile hends fun o ho =>
      hspare.write fd offset length uid k o file hop hk ho hout hfile

/-! ## Runs on a fresh disk -/

/-- A node's turn with the descriptors that have outlived their files after it. -/
theorem census_next (s : Census) {a : Turn} {r : Except Exc Value} {n' : CtrlNode}
    (hends : Ends s.node a r n') : ∃ s', s'.node = n' ∧
      s'.outlived = outlives s.node a.op r n' s.outlived ∧ CensusStep s a s' :=
  ⟨⟨n', _⟩, rfl, rfl, r, hends, rfl⟩

/-- The first sector of the file that a `remove` of `/a` by root would take away. -/
def removesA (n : CtrlNode) : Option Nat :=
  (removePlan (diskView n.world.dt) pathA 0).toOption.map fun q => q.2.fb

theorem removed_a {n : CtrlNode} {r : Except Exc Value} {file : FileDes} (hr : r = .ok .none)
    (h : removesA n = some (sectorArg file)) : Removed n (.remove (ascii "/a") 0) r file := by
  obtain ⟨⟨d, e⟩, hplan, hfb⟩ := Option.map_eq_some_iff.mp h
  exact ⟨hr, ascii "/a", 0, pathA, d, e, rfl, cstrOf_pathA, toOption_some hplan, hfb⟩

/-- A new file is opened, and removed. -/
def openRemoveA : List Op :=
  [.openFile (ascii "/a") (ascii "2") (ascii "15") 0, .remove (ascii "/a") 0]

theorem sparing_openRemoveA {s : Census} {a : Turn}
    (ha : a ∈ openRemoveA.map fun op => ⟨op, calm⟩) :
    SparingTurn s a := by
  have hcases : a = ⟨.openFile (ascii "/a") (ascii "2") (ascii "15") 0, calm⟩ ∨
      a = ⟨.remove (ascii "/a") 0, calm⟩ := by
    simpa [openRemoveA] using ha
  rcases hcases with rfl | rfl
  · refine ⟨soundTurn_open cstrOf_pathA rfl rfl (by decide), ?_, ?_⟩
    · intro _ _ _ _ _ _ _ hop
      cases hop
    · intro _ _ _ _ _ _ _ hop
      cases hop
  · refine ⟨?_, ?_, ?_⟩
    · intro c hc
      cases hc
      exact calm_succeeds _
    · intro _ _ _ _ _ _ _ hop
      cases hop
    · intro _ _ _ _ _ _ _ hop
      cases hop

/-- Reading behind the end of what is left of the removed file. -/
def readPast : Turn := ⟨.read (ascii "0") (ascii "1") (ascii "1") 0, calm⟩

theorem removedFiles_run_readPast : ∃ s r n', Reach CensusBegun SparingStep s ∧ s.outlived 0 0 ∧
    Ends s.node readPast r n' ∧ TurnContained s readPast r n' := by
  have hrun : (bootNode.any fun n =>
      (execOps [⟨.openFile (ascii "/a") (ascii "2") (ascii "15") 0, calm⟩] n).any fun q =>
        removesA q.2 == some 2 && CtrlNode.getFile q.2 0 0 == some ⟨2, 2, Pool.S_FIL⟩ &&
        (execOps [⟨.remove (ascii "/a") 0, calm⟩] q.2).any fun q =>
          q.1.map Except.toOption == [some .none] &&
          CtrlNode.getFile q.2 0 0 == some ⟨2, 2, Pool.S_FIL⟩ &&
          metaFlen (q.2.world.dt.data 2) == 0 && (execOps [readPast] q.2).isSome) = true := by
    decide +kernel
  simp only [Option.any_eq_true, Bool.and_eq_true, beq_iff_eq, Prod.exists,
    Option.isSome_iff_exists] at hrun
  obtain ⟨n, hboot, _, n₁, hexec, ⟨hrem, hget⟩, _, n₂, hexec', ⟨⟨hret, hget'⟩, hlen⟩, _, n₃,
    hexec''⟩ := hrun
  obtain ⟨r, _, _, -, hends, hnil⟩ := execOps_cons hexec
  cases hnil
  obtain ⟨r', _, _, rfl, hends', hnil⟩ := execOps_cons hexec'
  cases hnil
  obtain ⟨r'', _, _, -, hends'', hnil⟩ := execOps_cons hexec''
  cases hnil
  have h0 : Reach CensusBegun SparingStep (⟨n, fun _ _ => False⟩ : Census) :=
    .init ⟨mounted_boot hboot, rfl⟩
  obtain ⟨s₁, rfl, -, hs₁⟩ := census_next ⟨n, fun _ _ => False⟩ hends
  obtain ⟨s₂, rfl, hout, hs₂⟩ := census_next s₁ hends'
  have h2 := (h0.step ⟨hs₁, sparing_openRemoveA (List.mem_cons_self ..)⟩).step
    ⟨hs₂, sparing_openRemoveA (List.mem_cons_of_mem _ (List.mem_singleton.mpr rfl))⟩
  have houtlived : s₂.outlived 0 0 := by
    rw [hout]
    have hr : r' = .ok .none := toOption_some (List.singleton_inj.mp hret)
    exact ⟨⟨2, 2, Pool.S_FIL⟩, hget, hget', .inr ⟨rfl, removed_a hr hrem⟩⟩
  have hspare : SparingTurn s₂ readPast := by
    refine ⟨?_, ?_, ?_⟩
    · intro c hc
      cases hc
    · intro fd offset length uid k o file hop hk ho _ hfile
      cases hop
      obtain rfl : k = 0 := Option.some.inj (hk.symm.trans (by decide))
      obtain rfl : o = 1 := Option.some.inj (ho.symm.trans (by decide))
      obtain rfl : file = ⟨2, 2, Pool.S_FIL⟩ := Option.some.inj (hfile.symm.trans hget')
      left
      show metaFlen (s₂.node.world.dt.data 2) < 1
      rw [hlen]
      decide
    · intro _ _ _ _ _ _ _ hop
      cases hop
  exact ⟨s₂, r'', n₃, h2, houtlived, hends'', removedFiles_run h2 hends'' hspare⟩

/-- Writing through the descriptor of a removed file. -/
def writeStale : Turn := ⟨.write (ascii "0") (ascii "0") (ascii "9") 0, calm⟩

/-- A write through the descriptor of a removed file changes the file that has its sector
now. -/
theorem stale_write : ∃ s r n', Reach CensusBegun CensusStep s ∧ Ends s.node writeStale r n' ∧
    ¬ TurnContained s writeStale r n' := by
  have hrun : ((runOps [.openFile (ascii "/a") (ascii "2") (ascii "15") 0,
        .addBlockInfo [ascii "d"] [] (ascii "d") (ascii "1.2.3.4")]).any fun q =>
      removesA q.2 == some 2 && CtrlNode.getFile q.2 0 0 == some ⟨2, 2, Pool.S_FIL⟩ &&
      (execOps [⟨.remove (ascii "/a") 0, calm⟩] q.2).any fun q =>
        q.1.map Except.toOption == [some .none] &&
        CtrlNode.getFile q.2 0 0 == some ⟨2, 2, Pool.S_FIL⟩ &&
        (execOps [⟨.openFile (ascii "/b") (ascii "2") (ascii "15") 0, calm⟩] q.2).any fun q =>
          CtrlNode.getFile q.2 0 0 == some ⟨2, 2, Pool.S_FIL⟩ &&
          decide (⟨[⟨0x62, by decide⟩], 2, Layout.S_FIL⟩ ∈ entries q.2.world.dt 1) &&
          Layout.entryFb (q.2.world.dt.data 0) 0 == 1 &&
          Layout.entryType (q.2.world.dt.data 0) 0 == Layout.S_DIR &&
          q.2.world.dt.fat 2 == ENDSEC && decide (2 < q.2.world.dt.sb.fatNum) &&
          metaFlen (q.2.world.dt.data 2) == 0 &&
          (execOps [writeStale] q.2).any fun q => metaFlen (q.2.world.dt.data 2) == 9) = true := by
    decide +kernel
  simp only [Option.any_eq_true, Bool.and_eq_true, beq_iff_eq, decide_eq_true_eq,
    Prod.exists] at hrun
  obtain ⟨_, n₂, hops, ⟨hrem, hget⟩, _, n₃, hexec, ⟨hret, hget'⟩, _, n₄, hexec',
    ⟨⟨⟨⟨⟨⟨hget'', hmem⟩, hfb⟩, htype⟩, hfat⟩, hnum⟩, hlen⟩, _, n₅, hexec'', hlen'⟩ := hrun
  obtain ⟨n, hboot, hfirst⟩ := Option.bind_eq_some_iff.mp hops
  obtain ⟨r₀, _, n₁, -, hends₀, hrest⟩ := execOps_cons hfirst
  obtain ⟨r₁, _, _, -, hends₁, hnil⟩ := execOps_cons hrest
  cases hnil
  obtain ⟨r₂, _, _, rfl, hends₂, hnil⟩ := execOps_cons hexec
  cases hnil
  obtain ⟨r₃, _, _, -, hends₃, hnil⟩ := execOps_cons hexec'
  cases hnil
  obtain ⟨r₄, _, _, -, hends₄, hnil⟩ := execOps_cons hexec''
  cases hnil
  have h0 : Reach CensusBegun CensusStep (⟨n, fun _ _ => False⟩ : Census) :=
    .init ⟨mounted_boot hboot, rfl⟩
  obtain ⟨s₁, rfl, -, hs₁⟩ := census_next ⟨n, fun _ _ => False⟩ hends₀
  obtain ⟨s₂, rfl, -, hs₂⟩ := census_next s₁ hends₁
  obtain ⟨s₃, rfl, hout₃, hs₃⟩ := census_next s₂ hends₂
  obtain ⟨s₄, rfl, hout₄, hs₄⟩ := census_next s₃ hends₃
  refine ⟨s₄, r₄, n₅, (((h0.step hs₁).step hs₂).step hs₃).step hs₄, hends₄, fun hc => ?_⟩
  have hr : r₂ = .ok .none := toOption_some (List.singleton_inj.mp hret)
  have hout : s₃.outlived 0 0 := by
    rw [hout₃]
    exact ⟨⟨2, 2, Pool.S_FIL⟩, hget, hget', .inr ⟨rfl, removed_a hr hrem⟩⟩
  have hout' : s₄.outlived 0 0 := by
    rw [hout₄]
    exact ⟨⟨2, 2, Pool.S_FIL⟩, hget', hget'', .inl hout⟩
  have hcontained := hc.write _ _ _ _ 0 _ rfl (by decide) hout' hget''
  -- sector 2 is the chain of `/b`
  have hchain : IsChain s₄.node.world.dt 2 [2] := by
    refine ⟨rfl, hfat, fun c hc => ?_⟩
    rw [List.mem_singleton.mp hc]
    exact hnum
  have hsame := (hcontained.objects 2 _ [2] (live_inRoot hfb htype hmem) hchain 2
    (List.mem_singleton.mpr rfl)).2
  rw [hsame, hlen] at hlen'
  cases hlen'

end Sbpfs.Cnode.RemovedFiles
