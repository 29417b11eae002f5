import Sbpfs.Cfs.OpenSpec
import Sbpfs.Cnode.Descriptors
import Sbpfs.Cnode.DiskSteps

/-!
# The objects behind descriptors

A descriptor keeps the number of a sector. When it is handed out, an object of the
descriptor's type begins there, provided `opendir` was called for a directory; while sound
calls run, the object stays until a call takes it away.
-/
namespace Sbpfs.Cnode.OpenObjects

open Sbpfs.Lib.Program Sbpfs.Lib.Raise Sbpfs.Lib.Run
open Sbpfs.Cfs.Rules Sbpfs.Cfs.Query Sbpfs.Cfs.DiskStore Sbpfs.Cfs.DiskView Sbpfs.Cfs.LookupSpec
open Sbpfs.Cfs.NamespaceSpec Sbpfs.Cfs.QuerySpec Sbpfs.Cfs.Calls Sbpfs.Cfs.RunSpec
    Sbpfs.Cfs.OpenSpec
open Sbpfs.Cfs Sbpfs.Spec.FileTree Sbpfs.Spec.Resolve
open Sbpfs.Cfs.Layout (CStr)
open Sbpfs.Cfs.Invariants (calm calm_succeeds)
open Sbpfs.Wire.Head Sbpfs.Wire.Number
open Sbpfs.Cnode.Pool Sbpfs.Cnode.Libcfs Sbpfs.Cnode.DTree Sbpfs.Cnode.Ops Sbpfs.Cnode.Frame
open Sbpfs.Cnode.Descriptors Sbpfs.Cnode.DiskSteps

/-- A node that has just started on a disk with a file tree. -/
def Mounted (n : CtrlNode) : Prop := Started n ∧ NodeHolding n

theorem mounted_boot {n : CtrlNode} (h : bootNode = some n) : Mounted n := by
  obtain ⟨hstart, hfresh⟩ := bootNode_fresh h
  exact ⟨hstart, holding_fresh hfresh⟩

theorem partitioned_started {n : CtrlNode} (h : Started n) : Partitioned n := by
  intro uid p hp
  rw [h.fds] at hp
  cases hp

theorem getFile_started {n : CtrlNode} (h : Started n) (uid fd : Int) :
    CtrlNode.getFile n uid fd = none := by
  unfold CtrlNode.getFile
  rw [h.fds]
  rfl

/-- A call makes no other sound pool unsound. -/
theorem partitioned_turn {n n' : CtrlNode} {a : Turn} {r : Except Exc Value} (h : Partitioned n)
    (hends : Ends n a r n') : Partitioned n' := by
  have heff := effect_run (n := CtrlNode.answering n a.env) h hends.2
  cases heff with
  | same hfds =>
    intro uid p hp
    rw [hfds] at hp
    exact h uid p hp
  | opened _ _ _ _ _ _ _ hent => exact hent.partitioned
  | closed _ _ _ _ hent => exact hent.partitioned

/-! ## What descriptors stand for when they are handed out -/

section Handout

variable {n n' : CtrlNode} {a : Turn} {r : Except Exc Value} {file : FileDes}

/-- `opendirDes` that returns: what `c_opendir` returned is the descriptor's sector. -/
theorem opendirDes_returns {path : Str} {uid entnum : Int}
    (h : opendirDes path uid n = .ok (.ok (file, entnum), n')) :
    ∃ p k q w, cstrOf path = some p ∧ Same n.world w ∧
      cOpendir p (argI uid) k w = .ok (q, n'.world) ∧ file = ⟨q.1, 0, Pool.S_DIR⟩ ∧ 0 ≤ q.1 := by
  obtain ⟨reply, t, hwrap, hrest⟩ := bind_returns.mp h
  obtain ⟨p, t₁, harg, hget⟩ := bind_returns.mp hwrap
  obtain ⟨rfl, hp⟩ := argS_done harg
  rw [bind_step (getState_run _)] at hget
  obtain ⟨reply', heq, hcall⟩ := withPath_done hget
  cases heq
  rcases hcall with ⟨rfl, -⟩ | ⟨w, hsame, hrun⟩
  · cases hrest
  obtain ⟨q, w', hopen, hret⟩ := bind_ok.mp hrun
  obtain ⟨rfl, rfl⟩ := pure_ok.mp hret
  -- the checks of the value change nothing
  obtain ⟨rfl, hfile, hpos⟩ : n' = t ∧ file = ⟨q.1, 0, Pool.S_DIR⟩ ∧ 0 ≤ q.1 := by
    dsimp only at hrest
    split at hrest
    · cases hrest
    split at hrest
    · cases hrest
    split at hrest
    · cases hrest
    · rename_i hneg
      cases hrest
      exact ⟨rfl, rfl, by omega⟩
  exact ⟨p, t₁.world.env.stray 0, q, w, hp p rfl, hsame, hopen, hfile, hpos⟩

/-- What a program returned. -/
theorem returned_some {α : Type} {q : Except Stop (Except Exc α × CtrlNode)} {a : α}
    (h : returned q = some a) : ∃ t, q = .ok (.ok a, t) := by
  unfold returned at h
  split at h
  · cases h
    exact ⟨_, rfl⟩
  · cases h

/-- The descriptor that `open` makes stands for a regular file: the one that the path names,
or one that was not there before. -/
structure OpensObject (n : CtrlNode) (path oflags : Str) (uid : Int) (file : FileDes)
    (n' : CtrlNode) (p : CStr) (o : Int) (k : Nat) : Prop where
  path_eq : cstrOf path = some p
  oflags_eq : pyInt oflags = some o
  file_eq : file = ⟨k, o, Pool.S_FIL⟩
  live : Live n'.world.dt k Layout.S_FIL
  origin : (∃ d name e, openPlan (diskView n.world.dt) p (argI uid) = .ok (d, name, some e) ∧
    e.fb = k) ∨ ∀ t, ¬ Live n.world.dt k t

theorem openFile_made {path oflags mode : Str} {uid : Int} (h : NodeHolding n)
    (hop : a.op = .openFile path oflags mode uid) (hends : Ends n a r n') (hs : SoundTurn n a)
    (hmade : madeBy (CtrlNode.answering n a.env) a.op = some file) :
    ∃ p o k, OpensObject n path oflags uid file n' p o k := by
  obtain ⟨fs, chain, hst, ht, hb⟩ := h
  rw [hop] at hmade
  obtain ⟨t, hdes⟩ := returned_some hmade
  -- the call of `open` ends where its first part does
  have hworld : n'.world = t.world := by
    have hrun := hends.2
    rw [hop] at hrun
    obtain ⟨q, hq⟩ := map_done hrun
    obtain ⟨r', t', hdes', hw, -⟩ := openFile_done hq
    rw [hdes] at hdes'
    cases hdes'
    exact hw
  rcases openDes_done hdes with ⟨-, hno⟩ | ⟨p, o, m, ret, hp, ho, hm, ⟨w, hsame, hrun⟩, hfile⟩
  · exact absurd rfl (hno file)
  obtain ⟨rfl, hret⟩ := hfile file rfl
  have hcall : libCall n a.op
      = some (.openFile p (UInt8.ofNat o.toNat) (UInt8.ofNat m.toNat) (argI uid)) := by
    rw [hop]
    exact libCall_openFile hp ho hm
  have hdt : w.dt = n.world.dt := hsame.dt
  have hsound : Sound w.dt (.openFile p (UInt8.ofNat o.toNat) (UInt8.ofNat m.toNat) (argI uid))
      w.env := by
    rw [hdt]
    exact sound_later (hs _ hcall) hsame.later
  rw [← hworld] at hrun
  obtain ⟨fs', chain', k, hst', ho'⟩ := cOpen_returns (hdt ▸ hst) ht hsound hrun hret
  obtain ⟨u, fl, len, recs, hfile'⟩ := ho'.file
  refine ⟨p, o, k, hp, ho, ?_, ?_, ?_⟩
  · rw [ho'.value]
  · exact (live_iff hst' (ho'.effect.tree ht) k _).mpr ⟨_, hfile', rfl⟩
  · rcases ho'.origin with ⟨-, d, name, e, hplan, he⟩ | hnone
    · left
      refine ⟨d, name, e, ?_, he⟩
      rw [openPlan_agree hst ht]
      exact hplan
    · right
      intro ty hlive
      obtain ⟨ob, hob, -⟩ := live_obj hst ht hlive
      rw [hnone] at hob
      cases hob

/-- The descriptor that `opendir` makes stands for what the path names, which the user may
read. -/
theorem opendir_made {path : Str} {uid : Int} (h : NodeHolding n)
    (hop : a.op = .opendir path uid) (hends : Ends n a r n')
    (hmade : madeBy (CtrlNode.answering n a.env) a.op = some file) :
    ∃ p e, cstrOf path = some p ∧ resolve (entries n.world.dt) p = some e ∧
      (diskView n.world.dt).may (argI uid) e.fb Lookup.R ≠ 0 ∧ file = ⟨e.fb, 0, Pool.S_DIR⟩ ∧
      Live n'.world.dt e.fb e.type := by
  obtain ⟨fs, chain, hst, ht, -⟩ := h
  have hquiet : Quiet (CtrlNode.answering n a.env) n' := by
    have hrun := hends.2
    rw [hop] at hrun
    exact (stays_map _ (quiet_opendir path uid)).rel hrun
  rw [hop] at hmade
  obtain ⟨⟨file', entnum⟩, hret, rfl⟩ := Option.map_eq_some_iff.mp hmade
  obtain ⟨t, hdes⟩ := returned_some hret
  obtain ⟨p, k, q, w, hp, hsame, hrun, hfile, hpos⟩ := opendirDes_returns hdes
  have hdt : w.dt = n.world.dt := hsame.dt
  have hpost := wp_ok (wp_cOpendir (H := True) (hdt ▸ hst) ht p (argI uid) k (.inl trivial)) hrun
  obtain ⟨-, hopened⟩ := hpost
  rcases hopened with hneg | hneg | ⟨e, ob, hr, hob, hfb, hperm⟩
  · omega
  · omega
  obtain ⟨ob', hob', hty⟩ := resolve_typed ht hr
  refine ⟨p, e, hp, ?_, ?_, ?_, ?_⟩
  · rw [resolve_agree hst ht]
    exact hr
  · rw [diskView_may hst hob, view_may hob]
    exact hperm
  · rw [← hfb]
    exact hfile
  · have hend : n'.world.dt = n.world.dt := hquiet.dt
    rw [hend]
    exact (live_iff hst ht e.fb e.type).mpr ⟨ob', hob', typeOf_typed hty⟩

end Handout

/-! ## What becomes of the objects -/

section Later

variable {n n' : CtrlNode} {a : Turn} {r : Except Exc Value}

/-- The call takes the object of an entry away if it succeeds. -/
def Takes (n : CtrlNode) (op : Op) (fb : Nat) : Prop :=
  ∃ path uid d e, e.fb = fb ∧
    ((libCall n op = some (.remove path uid) ∧
        removePlan (diskView n.world.dt) path uid = .ok (d, e)) ∨
      (libCall n op = some (.rmdir path uid) ∧
        rmdirPlan (diskView n.world.dt) path uid = .ok (d, e)))

/-- A live object stays alive, as what it is, unless the call takes it away. -/
theorem live_turn (h : NodeHolding n) (hends : Ends n a r n') (hs : SoundTurn n a) {fb : Nat}
    {t : UInt8} (hlive : Live n.world.dt fb t) (hkept : ¬ Takes n a.op fb) :
    Live n'.world.dt fb t := by
  obtain ⟨fs, chain, hst, ht, hb⟩ := h
  rcases turn_explained hst ht hb hends hs with hdt | ⟨c, ret, fs', chain', hc, hst', he⟩
  · rw [hdt]
    exact hlive
  obtain ⟨o, ho, hty⟩ := live_obj hst ht hlive
  rcases he.change ht ho with ⟨-, -, path, uid, d, e, hfb, hplan⟩ | ⟨o', ho', hchange⟩
  · refine absurd ⟨path, uid, d, e, hfb, ?_⟩ hkept
    rcases hplan with ⟨rfl, hplan⟩ | ⟨rfl, hplan⟩
    · left
      refine ⟨hc, ?_⟩
      rw [removePlan_agree hst ht]
      exact hplan
    · right
      refine ⟨hc, ?_⟩
      rw [rmdirPlan_agree hst ht]
      exact hplan
  · refine (live_iff hst' (he.tree ht) fb t).mpr ⟨o', ho', ?_⟩
    rw [hty]
    obtain ⟨u, fl, node⟩ := o
    obtain ⟨u', fl', node'⟩ := o'
    cases node with
    | dir p kids =>
      obtain ⟨kids', hnode, -⟩ := hchange.dir p kids rfl
      cases hnode
      rfl
    | file len recs =>
      obtain ⟨len', recs', hnode⟩ := hchange.file len recs rfl
      cases hnode
      rfl

end Later

/-! ## Turns where no allocation fails -/

/-- Opening a file with a short path is sound. -/
theorem soundTurn_open {n : CtrlNode} {path oflags mode : Str} {uid o m : Int} {p : CStr}
    (hp : cstrOf path = some p) (ho : pyInt oflags = some o) (hm : pyInt mode = some m)
    (hlen : p.length < 2 ^ 31) : SoundTurn n ⟨.openFile path oflags mode uid, calm⟩ := by
  intro c hc
  have hcall : libCall n (.openFile path oflags mode uid) = some _ := libCall_openFile hp ho hm
  rw [hcall] at hc
  cases hc
  exact ⟨hlen, calm_succeeds _⟩

/-- What the directory that the root entry names contains is live. -/
theorem live_inRoot {dt : Layout.Dtree} {d : Nat} {e : Ent} (hd : Layout.entryFb (dt.data 0) 0 = d)
    (ht : Layout.entryType (dt.data 0) 0 = Layout.S_DIR) (he : e ∈ entries dt d) :
    Live dt e.fb e.type := by
  have hroot : Live dt (Layout.entryFb (dt.data 0) 0) (Layout.entryType (dt.data 0) 0) := .root
  rw [hd, ht] at hroot
  exact .entry hroot he

def pathA : CStr := (cstrOf (ascii "/a")).getD []

theorem cstrOf_pathA : cstrOf (ascii "/a") = some pathA := by decide

end Sbpfs.Cnode.OpenObjects
