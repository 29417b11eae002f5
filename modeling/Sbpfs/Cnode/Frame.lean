import Sbpfs.Cnode.Ops

/-! What the methods of `DTree` leave alone on the Python side. -/
namespace Sbpfs.Cnode.Frame

open Sbpfs.Lib.Program Sbpfs.Lib.Raise
open Sbpfs.Cfs.Layout Sbpfs.Cfs.Data
open Sbpfs.Wire.Head
open Sbpfs.Cnode.Pool Sbpfs.Cnode.Libcfs Sbpfs.Cnode.DTree Sbpfs.Cnode.Ops

/-- Only the C side and the record of the calls may differ. -/
structure OnlyC (n n' : CtrlNode) : Prop where
  fds : n'.fds = n.fds
  ipmap : n'.ipmap = n.ipmap
  ips : n'.ips = n.ips
  blockmap : n'.blockmap = n.blockmap

instance : Std.Refl OnlyC := ⟨fun _ => ⟨rfl, rfl, rfl, rfl⟩⟩

instance : IsTrans CtrlNode OnlyC :=
  ⟨fun _ _ _ h h' => ⟨h'.fds.trans h.fds, h'.ipmap.trans h.ipmap, h'.ips.trans h.ips,
    h'.blockmap.trans h.blockmap⟩⟩

/-- The function is called with a path. -/
def LibCall.ByPath : LibCall → Prop
  | .read .. => False
  | .write .. => False
  | .readdir .. => False
  | _ => True

/-- A relation that the C side does not disturb, nor the record of a call with a path. -/
class Aside (R : CtrlNode → CtrlNode → Prop) : Prop extends Std.Refl R, IsTrans CtrlNode R where
  inC : ∀ {α : Type} (m : CM α), Stays R (inC m)
  record : ∀ c : LibCall, LibCall.ByPath c → Stays R (record c)

theorem stays_inC {α : Type} (m : CM α) : Stays OnlyC (inC m) := by
  apply stays_onPart
  intro n a w h
  exact ⟨rfl, rfl, rfl, rfl⟩

theorem stays_record (c : LibCall) : Stays OnlyC (record c) :=
  stays_modifyState fun _ => ⟨rfl, rfl, rfl, rfl⟩

instance : Aside OnlyC where
  inC := stays_inC
  record := fun c _ => stays_record c

/-! ## The wrappers -/

section Wrappers

variable {α : Type} {R : CtrlNode → CtrlNode → Prop}

theorem stays_argS [Std.Refl R] (i : Nat) (s : Str) : Stays R (argS i s) := by
  unfold argS
  split
  · exact stays_pure _
  · exact stays_raise _

theorem stays_argB [Std.Refl R] (z : Int) : Stays R (argB z) :=
  stays_ite (stays_pure _) (stays_raise _)

variable [Aside R]

theorem stays_withPath {path : CStr} {null : α} {c : LibCall} {m : CM α} (hc : LibCall.ByPath c) :
    Stays R (withPath path null c m) := by
  apply stays_bind (Aside.inC _)
  intro b
  cases b with
  | none => exact stays_pure _
  | some b => exact stays_bind (Aside.record c hc) fun _ => Aside.inC m

theorem stays_wrapCGetblocks (path : Str) : Stays R (wrapCGetblocks path) :=
  stays_bind (stays_argS _ _) fun _ => stays_withPath trivial

theorem stays_wrapCOpen (path : Str) (oflags mode uid : Int) :
    Stays R (wrapCOpen path oflags mode uid) :=
  stays_bind (stays_argS _ _) fun _ => stays_bind (stays_argB _) fun _ =>
    stays_bind (stays_argB _) fun _ => stays_withPath trivial

theorem stays_wrapCStat (path : Str) (uid : Int) : Stays R (wrapCStat path uid) :=
  stays_bind (stays_argS _ _) fun _ => stays_withPath trivial

theorem stays_wrapCOpendir (path : Str) (uid : Int) : Stays R (wrapCOpendir path uid) :=
  stays_bind (stays_argS _ _) fun _ => stays_bind stays_getState fun _ => stays_withPath trivial

theorem stays_wrapCMove (srcpath dstpath : Str) (uid : Int) :
    Stays R (wrapCMove srcpath dstpath uid) :=
  stays_bind (stays_argS _ _) fun _ => stays_bind (stays_argS _ _) fun _ =>
    stays_bind (Aside.inC _) fun _ => stays_bind (Aside.record _ trivial) fun _ => Aside.inC _

theorem stays_wrapCRemove (path : Str) (uid : Int) : Stays R (wrapCRemove path uid) :=
  stays_bind (stays_argS _ _) fun _ => stays_withPath trivial

theorem stays_wrapCChown (path : Str) (newuid uid : Int) :
    Stays R (wrapCChown path newuid uid) :=
  stays_bind (stays_argS _ _) fun _ => stays_withPath trivial

theorem stays_wrapCChmod (path : Str) (mode uid : Int) :
    Stays R (wrapCChmod path mode uid) :=
  stays_bind (stays_argS _ _) fun _ => stays_bind (stays_argB _) fun _ => stays_withPath trivial

theorem stays_wrapCRmdir (path : Str) (uid : Int) : Stays R (wrapCRmdir path uid) :=
  stays_bind (stays_argS _ _) fun _ => stays_withPath trivial

theorem stays_wrapCMkdir (path : Str) (uid : Int) : Stays R (wrapCMkdir path uid) :=
  stays_bind (stays_argS _ _) fun _ => stays_withPath trivial

theorem stays_wrapCRead {fb offset length uid : Int}
    (h : Stays R (record (.read (argI fb) (argK offset) (argK length) (argI uid)))) :
    Stays R (wrapCRead fb offset length uid) :=
  stays_bind (Aside.inC _) fun _ => stays_bind h fun _ => stays_bind (Aside.inC _) fun _ =>
    stays_pure _

theorem stays_wrapCWrite {fb offset length uid : Int} {ips : Str}
    (h : Stays R
      (record (.write (argI fb) (argK offset) (argK length) (parseIps ips) (argI uid)))) :
    Stays R (wrapCWrite fb offset length ips uid) := by
  apply stays_bind (stays_argS _ _)
  intro tmp
  apply stays_bind (Aside.inC _)
  intro b
  cases b with
  | none => exact stays_pure _
  | some b =>
    apply stays_bind (Aside.inC _)
    intro b'
    cases b' with
    | none => exact stays_pure _
    | some b' =>
      exact stays_bind (Aside.inC _) fun _ => stays_bind h fun _ =>
        stays_bind (Aside.inC _) fun _ => stays_pure _

theorem stays_wrapCReaddir {fb entnum uid : Int}
    (h : Stays R (record (.readdir (argI fb) (argK entnum) (argI uid)))) :
    Stays R (wrapCReaddir fb entnum uid) :=
  stays_bind h fun _ => stays_bind (Aside.inC _) fun _ => stays_ite (stays_pure _) (stays_pure _)

end Wrappers

/-! ## The methods -/

section Steps

variable {R : CtrlNode → CtrlNode → Prop} [Std.Refl R]

theorem stays_int (s : Str) : Stays R (int s) := by
  unfold int
  split
  · exact stays_pure _
  · exact stays_raise _

theorem stays_raiseDTree {α : Type} (type msg : String) :
    Stays R (raiseDTree type msg : Py α) := stays_raise _

theorem stays_raiseWith {α : Type} (type msg : String) (z : Int) :
    Stays R (raiseWith type msg z : Py α) := stays_raise _

theorem stays_findFile [IsTrans CtrlNode R] (fd uid type : Int) (errType msg : String) :
    Stays R (findFile fd uid type errType msg) := by
  apply stays_bind stays_getState
  intro n
  split
  · exact stays_raiseWith _ _ _
  · exact stays_ite (stays_raiseWith _ _ _) (stays_pure _)

theorem stays_checkRet (ret : Int) (errors : List (Int × String × String)) :
    Stays R (checkRet ret errors) := by
  unfold checkRet
  split
  · exact stays_raiseDTree _ _
  · exact stays_ite (stays_raiseDTree _ _) (stays_pure _)

theorem stays_flitBlock [IsTrans CtrlNode R] (b : SendBlock) : Stays R (flitBlock b) := by
  apply stays_bind stays_getState
  intro n
  split
  · exact stays_raise _
  · exact stays_ite (stays_pure _) (stays_raise _)

theorem stays_flitRead [IsTrans CtrlNode R] (data : List SendBlock) : Stays R (flitRead data) := by
  induction data with
  | nil => exact stays_pure _
  | cons b data ih =>
    exact stays_bind (stays_flitBlock b) fun _ => stays_bind ih fun _ => stays_pure _

end Steps

section Methods

variable {R : CtrlNode → CtrlNode → Prop} [Aside R]

theorem stays_isFileLost (path : Str) : Stays R (isFileLost path) := by
  apply stays_bind (stays_wrapCGetblocks path)
  intro l
  cases l with
  | none => exact stays_pure _
  | some l => exact stays_bind stays_getState fun _ => stays_pure _

theorem stays_openDes (path oflags mode : Str) (uid : Int) :
    Stays R (openDes path oflags mode uid) := by
  apply stays_bind (stays_isFileLost path)
  intro lost
  apply stays_ite (stays_raise _)
  apply stays_bind (stays_int _)
  intro oflags
  apply stays_bind (stays_int _)
  intro mode
  apply stays_bind (stays_wrapCOpen _ _ _ _)
  intro fb
  apply stays_ite (stays_raiseDTree _ _)
  apply stays_ite (stays_raiseDTree _ _)
  apply stays_ite (stays_raiseDTree _ _)
  exact stays_ite (stays_raiseDTree _ _) (stays_pure _)

theorem stays_opendirDes (path : Str) (uid : Int) : Stays R (opendirDes path uid) := by
  apply stays_bind (stays_wrapCOpendir path uid)
  intro q
  cases q with
  | none => exact stays_raiseDTree _ _
  | some q =>
    apply stays_ite (stays_raiseDTree _ _)
    apply stays_ite (stays_raiseDTree _ _)
    exact stays_ite (stays_raiseDTree _ _) (stays_pure _)

theorem stays_stat (path : Str) (uid : Int) : Stays R (DTree.stat path uid) := by
  apply stays_bind (stays_wrapCStat path uid)
  intro data
  cases data with
  | none => exact stays_raiseDTree _ _
  | some data => exact stays_pure _

theorem stays_move (dst src : Str) (uid : Int) : Stays R (DTree.move dst src uid) :=
  stays_bind (stays_wrapCMove _ _ _) fun _ => stays_checkRet _ _

theorem stays_remove (path : Str) (uid : Int) : Stays R (DTree.remove path uid) :=
  stays_bind (stays_wrapCRemove _ _) fun _ => stays_checkRet _ _

theorem stays_chown (path : Str) (newuid uid : Int) : Stays R (DTree.chown path newuid uid) :=
  stays_bind (stays_wrapCChown _ _ _) fun _ => stays_checkRet _ _

theorem stays_chmod (path mode : Str) (uid : Int) : Stays R (DTree.chmod path mode uid) :=
  stays_bind (stays_int _) fun _ => stays_bind (stays_wrapCChmod _ _ _) fun _ => stays_checkRet _ _

theorem stays_mkdir (path : Str) (uid : Int) : Stays R (DTree.mkdir path uid) :=
  stays_bind (stays_wrapCMkdir _ _) fun _ => stays_checkRet _ _

theorem stays_rmdir (path : Str) (uid : Int) : Stays R (DTree.rmdir path uid) :=
  stays_bind (stays_wrapCRmdir _ _) fun _ => stays_checkRet _ _

theorem stays_read (fd offset length : Str) (uid : Int) :
    Stays OnlyC (DTree.read fd offset length uid) := by
  apply stays_bind (stays_int _)
  intro fd
  apply stays_bind (stays_int _)
  intro offset
  apply stays_bind (stays_int _)
  intro length
  apply stays_bind (stays_findFile _ _ _ _ _)
  intro file
  apply stays_ite (stays_raiseWith _ _ _)
  apply stays_bind (stays_wrapCRead (stays_record _))
  intro data
  cases data with
  | none => exact stays_raiseDTree _ _
  | some data => exact stays_flitRead data

theorem stays_write (fd offset length : Str) (uid : Int) :
    Stays OnlyC (DTree.write fd offset length uid) := by
  apply stays_bind (stays_int _)
  intro fd
  apply stays_bind (stays_int _)
  intro offset
  apply stays_bind (stays_int _)
  intro length
  apply stays_bind stays_getState
  intro n
  apply stays_ite (stays_raiseDTree _ _)
  apply stays_bind (stays_findFile _ _ _ _ _)
  intro file
  apply stays_ite (stays_raiseWith _ _ _)
  apply stays_bind (stays_wrapCWrite (stays_record _))
  intro data
  cases data with
  | none => exact stays_raiseDTree _ _
  | some data => exact stays_pure _

theorem stays_readdir (dd entnum : Str) (uid : Int) :
    Stays OnlyC (DTree.readdir dd entnum uid) := by
  apply stays_bind (stays_int _)
  intro dd
  apply stays_bind (stays_int _)
  intro entnum
  apply stays_bind (stays_findFile _ _ _ _ _)
  intro file
  apply stays_bind (stays_wrapCReaddir (stays_record _))
  intro ret
  cases ret with
  | none => exact stays_raiseDTree _ _
  | some ret => exact stays_pure _

end Methods

end Sbpfs.Cnode.Frame
