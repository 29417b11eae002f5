import Sbpfs.Cfs.QuerySpec
import Sbpfs.Cfs.RunSpec
import Sbpfs.Cnode.Frame

/-!
# What a method call does to the disk

A method call leaves the disk alone, or it comes down to one call into the library, made
where nothing but allocations has happened since it began. `libCall` reads that call off
the arguments and the user's descriptors.
-/
namespace Sbpfs.Cnode.DiskSteps

open Sbpfs.Lib.Program Sbpfs.Lib.Raise Sbpfs.Lib.Memory
open Sbpfs.Cfs.Layout Sbpfs.Cfs.Rules Sbpfs.Cfs.Data Sbpfs.Cfs.Query Sbpfs.Cfs.Calls
open Sbpfs.Cfs.DiskStore Sbpfs.Cfs.LookupSpec Sbpfs.Cfs.QuerySpec Sbpfs.Cfs.RunSpec
open Sbpfs.Spec.FileTree
open Sbpfs.Wire.Head Sbpfs.Wire.Number
open Sbpfs.Cnode.Pool Sbpfs.Cnode.Libcfs Sbpfs.Cnode.DTree Sbpfs.Cnode.Ops Sbpfs.Cnode.Frame

/-- Nothing but allocations happened on the C side. -/
def Quiet (n n' : CtrlNode) : Prop := Same n.world n'.world

instance : Std.Refl Quiet := ⟨fun n => Same.refl n.world⟩

instance : IsTrans CtrlNode Quiet := ⟨fun _ _ _ h h' => Same.trans h h'⟩

/-- One call into the library, after nothing but allocations. -/
def Ran (n : CtrlNode) (c : Call) (ret : Int) (n' : CtrlNode) : Prop :=
  ∃ w, Same n.world w ∧ c.run w = .ok (ret, n'.world)

/-- The call into the library that a method call comes down to, if it gets so far. The two
paths of a move change places. -/
def libCall (n : CtrlNode) : Op → Option Call
  | .openFile path oflags mode uid => do
    let path ← cstrOf path
    let oflags ← pyInt oflags
    let mode ← pyInt mode
    return .openFile path (UInt8.ofNat oflags.toNat) (UInt8.ofNat mode.toNat) (argI uid)
  | .write fd offset length uid => do
    let fd ← pyInt fd
    let offset ← pyInt offset
    let length ← pyInt length
    let file ← CtrlNode.getFile n uid fd
    return .write (argI file.fb) (argK offset) (argK length) (parseIps n.ips)
  | .move dst src uid => do
    let path1 ← cstrOf dst
    let path2 ← cstrOf src
    return .move path1 path2 (argI uid)
  | .remove path uid => (cstrOf path).map fun path => .remove path (argI uid)
  | .chown path newuid uid => (cstrOf path).map fun path => .chown path (argI newuid) (argI uid)
  | .chmod path mode uid => do
    let mode ← pyInt mode
    let path ← cstrOf path
    return .chmod path (UInt8.ofNat mode.toNat) (argI uid)
  | .mkdir path uid => (cstrOf path).map fun path => .mkdir path (argI uid)
  | .rmdir path uid => (cstrOf path).map fun path => .rmdir path (argI uid)
  | _ => none

/-! ## The wrappers -/

section Wrappers

variable {n n' : CtrlNode} {α : Type} {r : Except Exc α}

theorem argS_done {i : Nat} {s : Str} {r : Except Exc CStr} (h : argS i s n = .ok (r, n')) :
    n' = n ∧ ∀ p, r = .ok p → cstrOf s = some p := by
  unfold argS at h
  cases hs : cstrOf s with
  | none =>
    rw [hs] at h
    cases h
    exact ⟨rfl, fun p hp => nomatch hp⟩
  | some p =>
    rw [hs] at h
    cases h
    refine ⟨rfl, fun p' hp => ?_⟩
    cases hp
    rfl

theorem argB_done {z : Int} {r : Except Exc UInt8} (h : argB z n = .ok (r, n')) :
    n' = n ∧ ∀ b, r = .ok b → b = UInt8.ofNat z.toNat := by
  unfold argB at h
  split at h <;> cases h
  · exact ⟨rfl, fun b hb => (Except.ok.inj hb).symm⟩
  · exact ⟨rfl, fun b hb => nomatch hb⟩

theorem inC_done {m : CM α} (h : inC m n = .ok (r, n')) :
    ∃ a, r = .ok a ∧ m n.world = .ok (a, n'.world) ∧ n' = { n with world := n'.world } := by
  obtain ⟨a, w, hrun, rfl, rfl⟩ := onPart_done.mp h
  exact ⟨a, rfl, hrun, rfl⟩

/-- A call with the copy of a path finds no memory, or runs. -/
theorem withPath_done {path : CStr} {null : α} {c : LibCall} {m : CM α}
    (h : withPath path null c m n = .ok (r, n')) : ∃ a, r = .ok a ∧
      ((a = null ∧ Quiet n n') ∨ ∃ w, Same n.world w ∧ m w = .ok (a, n'.world)) := by
  rcases bind_done.mp h with ⟨e, he, -⟩ | ⟨b, t, hb, hrest⟩
  · obtain ⟨a, ha, -⟩ := inC_done he
    cases ha
  obtain ⟨b', hb', hmalloc, -⟩ := inC_done hb
  cases hb'
  have hsame : Same n.world t.world := (keeps_malloc _ _).rel hmalloc
  cases b with
  | none =>
    cases hrest
    exact ⟨null, rfl, .inl ⟨rfl, hsame⟩⟩
  | some b =>
    rcases bind_done.mp hrest with ⟨e, he, -⟩ | ⟨u, t', hrec, hcall⟩
    · cases he
    · cases hrec
      obtain ⟨a, rfl, hrun, -⟩ := inC_done hcall
      exact ⟨a, rfl, .inr ⟨t.world, hsame, hrun⟩⟩

theorem quiet_inC {m : CM α} (h : Keeps Same m) : Stays Quiet (inC m) := by
  constructor
  intro n n' r hrun
  obtain ⟨a, -, hrun, -⟩ := inC_done hrun
  exact h.rel hrun

theorem quiet_record (c : LibCall) : Stays Quiet (record c) :=
  stays_modifyState fun n => Same.refl n.world

theorem quiet_argS (i : Nat) (s : Str) : Stays Quiet (argS i s) := by
  constructor
  intro n n' r h
  rw [(argS_done h).1]
  exact Same.refl _

theorem quiet_argB (z : Int) : Stays Quiet (argB z) := stays_ite (stays_pure _) (stays_raise _)

theorem quiet_withPath {path : CStr} {null : α} {c : LibCall} {m : CM α} (h : Keeps Same m) :
    Stays Quiet (withPath path null c m) := by
  apply stays_bind (quiet_inC (keeps_malloc _ _))
  intro b
  cases b with
  | none => exact stays_pure _
  | some b => exact stays_bind (quiet_record c) fun _ => quiet_inC h

theorem keeps_replyRoom (k size : Nat) : Keeps Same (replyRoom k size) := by
  apply keeps_bind (keeps_malloc _ _)
  intro b
  cases b <;> exact keeps_pure _

theorem keeps_getblocks (path : CStr) : Keeps Same (getblocks path) := by
  apply keeps_bind (keeps_cGetblocknum path)
  intro ret
  apply keeps_ite (keeps_pure _)
  apply keeps_ite (keeps_pure _)
  apply keeps_bind (keeps_replyRoom _ _)
  intro cap
  apply keeps_bind (keeps_cGetblocks _ _)
  intro q
  exact keeps_ite (keeps_pure _) (keeps_pure _)

theorem quiet_wrapCGetblocks (path : Str) : Stays Quiet (wrapCGetblocks path) :=
  stays_bind (quiet_argS _ _) fun _ => quiet_withPath (keeps_getblocks _)

theorem quiet_wrapCStat (path : Str) (uid : Int) : Stays Quiet (wrapCStat path uid) := by
  apply stays_bind (quiet_argS _ _)
  intro path
  apply quiet_withPath
  apply keeps_bind (keeps_cStat _ _)
  intro q
  exact keeps_ite (keeps_pure _) (keeps_pure _)

theorem quiet_wrapCRead (fb offset length uid : Int) :
    Stays Quiet (wrapCRead fb offset length uid) :=
  stays_bind (quiet_inC (keeps_replyRoom _ _)) fun _ => stays_bind (quiet_record _) fun _ =>
    stays_bind (quiet_inC (keeps_cRead _ _ _ _)) fun _ => stays_pure _

theorem quiet_wrapCOpendir (path : Str) (uid : Int) : Stays Quiet (wrapCOpendir path uid) := by
  apply stays_bind (quiet_argS _ _)
  intro path
  apply stays_bind stays_getState
  intro n
  apply quiet_withPath
  exact keeps_bind (keeps_cOpendir _ _ _) fun _ => keeps_pure _

theorem quiet_wrapCReaddir (fb entnum uid : Int) : Stays Quiet (wrapCReaddir fb entnum uid) :=
  stays_bind (quiet_record _) fun _ => stays_bind (quiet_inC (keeps_cReaddir _ _)) fun _ =>
    stays_ite (stays_pure _) (stays_pure _)

/-- What is read with room for some entries is read with room for more. -/
theorem writeRecords_cap {buf : Buf} {offset length cap cap' : Nat} {k k' : Int} {ips : List Nat}
    {w : World} {q : (Buf × List SendBlock) × World} (hcap : cap ≤ cap')
    (h : writeRecords buf offset length k k' ips cap w = .ok q) :
    writeRecords buf offset length k k' ips cap' w = .ok q := by
  unfold writeRecords at h ⊢
  split
  · rename_i hk
    rw [if_pos hk] at h
    by_cases hle : k.toNat ≤ cap
    · rw [if_pos hle] at h
      rw [if_pos (hle.trans hcap)]
      exact h
    · rw [if_neg hle] at h
      cases h
  · rename_i hk
    rw [if_neg hk] at h
    dsimp only at h ⊢
    by_cases hle : u64OfInt (k - k') + k'.toNat ≤ cap
    · rw [if_pos hle] at h
      rw [if_pos (hle.trans hcap)]
      exact h
    · rw [if_neg hle] at h
      cases h

theorem bind_congr_ok {α β : Type} {m m' : CM α} {f f' : α → CM β} {w : World} {q : β × World}
    (hm : ∀ {q}, m w = .ok q → m' w = .ok q) (hf : ∀ a w q, f a w = .ok q → f' a w = .ok q)
    (h : (m >>= f) w = .ok q) : (m' >>= f') w = .ok q := by
  obtain ⟨a, t, ha, hb⟩ := bind_ok.mp h
  exact bind_ok.mpr ⟨a, t, hm ha, hf a t q hb⟩

theorem cWrite_cap {fb : UInt32} {offset length : UInt64} {ips : List Nat} {cap cap' : Nat}
    {w : World} {q : (Int × List SendBlock) × World} (hcap : cap ≤ cap')
    (h : cWrite fb offset length ips cap w = .ok q) :
    cWrite fb offset length ips cap' w = .ok q := by
  unfold cWrite at h ⊢
  refine bind_congr_ok (fun h => h) (fun fmeta w q h => ?_) h
  dsimp only at h ⊢
  by_cases hoff : metaFlen fmeta < offset.toNat
  · rw [if_pos hoff] at h ⊢
    exact h
  rw [if_neg hoff] at h ⊢
  refine bind_congr_ok (fun h => h) (fun buf w q h => ?_) h
  cases buf with
  | none => exact h
  | some buf =>
    refine bind_congr_ok (fun h => h) (fun buf w q h => ?_) h
    exact bind_congr_ok (fun h => writeRecords_cap hcap h) (fun _ _ _ h => h) h

end Wrappers

/-! ## The methods that only read -/

theorem quiet_isFileLost (path : Str) : Stays Quiet (isFileLost path) := by
  apply stays_bind (quiet_wrapCGetblocks path)
  intro l
  cases l with
  | none => exact stays_pure _
  | some l => exact stays_bind stays_getState fun _ => stays_pure _

theorem quiet_opendirDes (path : Str) (uid : Int) : Stays Quiet (opendirDes path uid) := by
  apply stays_bind (quiet_wrapCOpendir path uid)
  intro q
  cases q with
  | none => exact stays_raiseDTree _ _
  | some q =>
    apply stays_ite (stays_raiseDTree _ _)
    apply stays_ite (stays_raiseDTree _ _)
    exact stays_ite (stays_raiseDTree _ _) (stays_pure _)

theorem quiet_genFd (file : FileDes) (uid : Int) : Stays Quiet (genFd file uid) :=
  stays_bind stays_getState fun _ =>
    stays_bind (stays_modifyState fun n => Same.refl n.world) fun _ => stays_pure _

theorem quiet_desFd (fd uid : Int) : Stays Quiet (desFd fd uid) := by
  apply stays_bind stays_getState
  intro n
  split
  · exact stays_raise _
  · split
    · exact stays_raiseWith _ _ _
    · exact stays_modifyState fun n => Same.refl n.world

theorem quiet_opendir (path : Str) (uid : Int) : Stays Quiet (DTree.opendir path uid) :=
  stays_bind (quiet_opendirDes path uid) fun _ => stays_bind (quiet_genFd _ _) fun _ =>
    stays_pure _

theorem quiet_close (fd : Str) (uid : Int) : Stays Quiet (DTree.close fd uid) :=
  stays_bind (stays_int _) fun _ => stays_bind (stays_findFile _ _ _ _ _) fun _ => quiet_desFd _ _

theorem quiet_closedir (dd : Str) (uid : Int) : Stays Quiet (DTree.closedir dd uid) :=
  stays_bind (stays_int _) fun _ => stays_bind (stays_findFile _ _ _ _ _) fun _ => quiet_desFd _ _

theorem quiet_read (fd offset length : Str) (uid : Int) :
    Stays Quiet (DTree.read fd offset length uid) := by
  apply stays_bind (stays_int _)
  intro fd
  apply stays_bind (stays_int _)
  intro offset
  apply stays_bind (stays_int _)
  intro length
  apply stays_bind (stays_findFile _ _ _ _ _)
  intro file
  apply stays_ite (stays_raiseWith _ _ _)
  apply stays_bind (quiet_wrapCRead _ _ _ _)
  intro data
  cases data with
  | none => exact stays_raiseDTree _ _
  | some data => exact stays_flitRead data

theorem quiet_stat (path : Str) (uid : Int) : Stays Quiet (DTree.stat path uid) := by
  apply stays_bind (quiet_wrapCStat path uid)
  intro data
  cases data with
  | none => exact stays_raiseDTree _ _
  | some data => exact stays_pure _

theorem quiet_readdir (dd entnum : Str) (uid : Int) :
    Stays Quiet (DTree.readdir dd entnum uid) := by
  apply stays_bind (stays_int _)
  intro dd
  apply stays_bind (stays_int _)
  intro entnum
  apply stays_bind (stays_findFile _ _ _ _ _)
  intro file
  apply stays_bind (quiet_wrapCReaddir _ _ _)
  intro ret
  cases ret with
  | none => exact stays_raiseDTree _ _
  | some ret => exact stays_pure _

/-! ## The methods that call into the library -/

section Library

variable {n n' : CtrlNode}

theorem Ran.after {n₁ : CtrlNode} {c : Call} {ret : Int} (hs : Quiet n n₁) (h : Ran n₁ c ret n') :
    Ran n c ret n' := by
  obtain ⟨w, hw, hrun⟩ := h
  exact ⟨w, Same.trans hs hw, hrun⟩

/-- A path that is refused, or a call with it. -/
theorem pathCall_done {path : Str} {i : Nat} {lc : CStr → LibCall} {m : CStr → CM Int}
    {k : Int → Py Unit} {c : CStr → Call} {r : Except Exc Unit} (hm : ∀ p, m p = (c p).run)
    (hk : ∀ ret, Stays (· = ·) (k ret))
    (h : ((argS i path >>= fun p => withPath p (-1) (lc p) (m p)) >>= k) n = .ok (r, n')) :
    Quiet n n' ∨ ∃ p ret, cstrOf path = some p ∧ Ran n (c p) ret n' := by
  rcases bind_done.mp h with ⟨e, he, -⟩ | ⟨ret, t, hcall, hrest⟩
  · rcases bind_done.mp he with ⟨e', harg, -⟩ | ⟨p, t, harg, hwith⟩
    · exact .inl ((quiet_argS i path).rel harg)
    · obtain ⟨a, ha, -⟩ := withPath_done hwith
      cases ha
  · obtain rfl : t = n' := (hk ret).rel hrest
    obtain ⟨p, t', harg, hwith⟩ := bind_returns.mp hcall
    obtain ⟨rfl, hp⟩ := argS_done harg
    obtain ⟨a, ha, ⟨-, hquiet⟩ | ⟨w, hsame, hrun⟩⟩ := withPath_done hwith
    · exact .inl hquiet
    · refine .inr ⟨p, a, hp p rfl, w, hsame, ?_⟩
      rw [← hm]
      exact hrun

theorem keeps_checkRet (errors : List (Int × String × String)) (ret : Int) :
    Stays (· = ·) (checkRet ret errors) := stays_checkRet ret errors

theorem int_done {s : Str} {r : Except Exc Int} (h : int s n = .ok (r, n')) :
    n' = n ∧ ∀ z, r = .ok z → pyInt s = some z := by
  unfold int at h
  cases hz : pyInt s with
  | none =>
    rw [hz] at h
    cases h
    exact ⟨rfl, fun z h => nomatch h⟩
  | some z =>
    rw [hz] at h
    cases h
    refine ⟨rfl, fun z' h => ?_⟩
    cases h
    rfl

theorem chmod_done {path mode : Str} {uid : Int} {r : Except Exc Unit}
    (h : DTree.chmod path mode uid n = .ok (r, n')) :
    Quiet n n' ∨ ∃ c ret, libCall n (.chmod path mode uid) = some c ∧ Ran n c ret n' := by
  rcases bind_done.mp h with ⟨e, he, -⟩ | ⟨z, t, hint, hrest⟩
  · rw [(int_done he).1]
    exact .inl (Same.refl _)
  obtain ⟨rfl, hz⟩ := int_done hint
  rcases bind_done.mp hrest with ⟨e, he, -⟩ | ⟨ret, t', hcall, hcheck⟩
  · rcases bind_done.mp he with ⟨e', harg, -⟩ | ⟨p, t₁, harg, hw⟩
    · exact .inl ((quiet_argS 2 path).rel harg)
    · obtain ⟨rfl, -⟩ := argS_done harg
      rcases bind_done.mp hw with ⟨e', hb, -⟩ | ⟨b, t₂, hb, hwith⟩
      · exact .inl ((quiet_argB z).rel hb)
      · obtain ⟨a, ha, -⟩ := withPath_done hwith
        cases ha
  · obtain rfl : t' = n' := (keeps_checkRet _ ret).rel hcheck
    obtain ⟨p, t₁, harg, hw⟩ := bind_returns.mp hcall
    obtain ⟨rfl, hp⟩ := argS_done harg
    obtain ⟨b, t₂, hb, hwith⟩ := bind_returns.mp hw
    obtain ⟨rfl, hbv⟩ := argB_done hb
    obtain ⟨a, ha, ⟨-, hquiet⟩ | ⟨w, hsame, hrun⟩⟩ := withPath_done hwith
    · exact .inl hquiet
    · refine .inr ⟨.chmod p (UInt8.ofNat z.toNat) (argI uid), a, ?_, w, hsame, ?_⟩
      · simp [libCall, hz z rfl, hp p rfl]
      · rw [← hbv b rfl]
        exact hrun

theorem copyPaths_done {p q : CStr} {w w' : World} {u : Unit}
    (h : copyPaths p q w = .ok (u, w')) : Same w w' := by
  have hk : Keeps Same (copyPaths p q) :=
    keeps_bind (keeps_malloc _ _) fun _ => keeps_bind (keeps_malloc _ _) fun _ =>
      keeps_ite (keeps_pure _) keeps_fault
  exact hk.rel h

theorem move_done {dst src : Str} {uid : Int} {r : Except Exc Unit}
    (h : DTree.move dst src uid n = .ok (r, n')) :
    Quiet n n' ∨ ∃ c ret, libCall n (.move dst src uid) = some c ∧ Ran n c ret n' := by
  -- what the wrapper does, whatever becomes of its value
  have hwrap : ∀ {q : Except Exc Int} {t : CtrlNode}, wrapCMove dst src uid n = .ok (q, t) →
      Quiet n t ∨ ∃ c ret, libCall n (.move dst src uid) = some c ∧ Ran n c ret t := by
    intro q t hw
    rcases bind_done.mp hw with ⟨e, he, -⟩ | ⟨p, t₁, harg, hw₁⟩
    · exact .inl ((quiet_argS 2 dst).rel he)
    obtain ⟨rfl, hp⟩ := argS_done harg
    rcases bind_done.mp hw₁ with ⟨e, he, -⟩ | ⟨p', t₂, harg', hw₂⟩
    · exact .inl ((quiet_argS 3 src).rel he)
    obtain ⟨rfl, hp'⟩ := argS_done harg'
    rcases bind_done.mp hw₂ with ⟨e, he, -⟩ | ⟨u, t₃, hcopy, hw₃⟩
    · obtain ⟨a, ha, -⟩ := inC_done he
      cases ha
    obtain ⟨a, -, hpaths, -⟩ := inC_done hcopy
    have hsame := copyPaths_done hpaths
    rcases bind_done.mp hw₃ with ⟨e, he, -⟩ | ⟨u', t₄, hrec, hw₄⟩
    · cases he
    cases hrec
    obtain ⟨a, -, hrun, -⟩ := inC_done hw₄
    refine .inr ⟨.move p p' (argI uid), a, ?_, t₃.world, hsame, hrun⟩
    simp [libCall, hp p rfl, hp' p' rfl]
  rcases bind_done.mp h with ⟨e, he, -⟩ | ⟨ret, t, hcall, hcheck⟩
  · exact hwrap he
  · obtain rfl : t = n' := (keeps_checkRet _ ret).rel hcheck
    exact hwrap hcall

/-- What the opening part of `open` does: it ends before the call into the library, or the
file has the number that the library returned. -/
theorem openDes_done {path oflags mode : Str} {uid : Int} {r : Except Exc FileDes}
    (h : openDes path oflags mode uid n = .ok (r, n')) :
    (Quiet n n' ∧ ∀ file, r ≠ .ok file) ∨
      ∃ p o m ret, cstrOf path = some p ∧ pyInt oflags = some o ∧ pyInt mode = some m ∧
        Ran n (.openFile p (UInt8.ofNat o.toNat) (UInt8.ofNat m.toNat) (argI uid)) ret n' ∧
        ∀ file, r = .ok file → file = ⟨ret, o, S_FIL⟩ ∧ 0 ≤ ret := by
  rcases bind_done.mp h with ⟨e, he, rfl⟩ | ⟨lost, t, hlost, hrest⟩
  · exact .inl ⟨(quiet_isFileLost path).rel he, fun _ h => nomatch h⟩
  have hquiet : Quiet n t := (quiet_isFileLost path).rel hlost
  by_cases hl : lost = some true
  · rw [if_pos hl] at hrest
    cases hrest
    exact .inl ⟨hquiet, fun _ h => nomatch h⟩
  rw [if_neg hl] at hrest
  rcases bind_done.mp hrest with ⟨e, he, rfl⟩ | ⟨o, t₁, hint, hrest₁⟩
  · rw [(int_done he).1]
    exact .inl ⟨hquiet, fun _ h => nomatch h⟩
  obtain ⟨rfl, ho⟩ := int_done hint
  rcases bind_done.mp hrest₁ with ⟨e, he, rfl⟩ | ⟨m, t₂, hint', hrest₂⟩
  · rw [(int_done he).1]
    exact .inl ⟨hquiet, fun _ h => nomatch h⟩
  obtain ⟨rfl, hm⟩ := int_done hint'
  -- what the wrapper does, whatever becomes of its value
  have hwrap : ∀ {q : Except Exc Int} {t' : CtrlNode}, wrapCOpen path o m uid t₂ = .ok (q, t') →
      (Quiet n t' ∧ ∀ z, q = .ok z → z = -1) ∨ ∃ p ret, cstrOf path = some p ∧
        Ran n (.openFile p (UInt8.ofNat o.toNat) (UInt8.ofNat m.toNat) (argI uid)) ret t' ∧
        q = .ok ret := by
    intro q t' hw
    rcases bind_done.mp hw with ⟨e, he, rfl⟩ | ⟨p, s₁, harg, hw₁⟩
    · rw [(argS_done he).1]
      exact .inl ⟨hquiet, fun _ h => nomatch h⟩
    obtain ⟨rfl, hp⟩ := argS_done harg
    rcases bind_done.mp hw₁ with ⟨e, he, rfl⟩ | ⟨b, s₂, hb, hw₂⟩
    · rw [(argB_done he).1]
      exact .inl ⟨hquiet, fun _ h => nomatch h⟩
    obtain ⟨rfl, hbv⟩ := argB_done hb
    rcases bind_done.mp hw₂ with ⟨e, he, rfl⟩ | ⟨b', s₃, hb', hw₃⟩
    · rw [(argB_done he).1]
      exact .inl ⟨hquiet, fun _ h => nomatch h⟩
    obtain ⟨rfl, hbv'⟩ := argB_done hb'
    obtain ⟨a, rfl, ⟨rfl, hq⟩ | ⟨w, hsame, hrun⟩⟩ := withPath_done hw₃
    · refine .inl ⟨Trans.trans hquiet hq, fun z hz => ?_⟩
      cases hz
      rfl
    · refine .inr ⟨p, a, hp p rfl, ⟨w, Same.trans hquiet hsame, ?_⟩, rfl⟩
      rw [← hbv b rfl, ← hbv' b' rfl]
      exact hrun
  rcases bind_done.mp hrest₂ with ⟨e, he, rfl⟩ | ⟨fb, t₃, hcall, hend⟩
  · rcases hwrap he with ⟨hq, -⟩ | ⟨p, ret, -, -, hret⟩
    · exact .inl ⟨hq, fun _ h => nomatch h⟩
    · cases hret
  -- the checks of the value change nothing
  have hend' : n' = t₃ ∧ ∀ file, r = .ok file → file = ⟨fb, o, S_FIL⟩ ∧ 0 ≤ fb ∧ fb ≠ -1 := by
    split at hend
    · cases hend
      exact ⟨rfl, fun _ h => nomatch h⟩
    split at hend
    · cases hend
      exact ⟨rfl, fun _ h => nomatch h⟩
    split at hend
    · cases hend
      exact ⟨rfl, fun _ h => nomatch h⟩
    split at hend
    · cases hend
      exact ⟨rfl, fun _ h => nomatch h⟩
    · rename_i h1 _ _ h0
      cases hend
      refine ⟨rfl, fun file hf => ?_⟩
      cases hf
      exact ⟨rfl, by omega, h1⟩
  obtain ⟨rfl, hfile⟩ := hend'
  rcases hwrap hcall with ⟨hq, hnull⟩ | ⟨p, ret, hp, hran, hret⟩
  · exact .inl ⟨hq, fun file hf => (hfile file hf).2.2 (hnull fb rfl)⟩
  · cases hret
    exact .inr ⟨p, o, m, fb, hp, ho o rfl, hm m rfl, hran,
      fun file hf => ⟨(hfile file hf).1, (hfile file hf).2.1⟩⟩

/-- A reply buffer holds what was asked for, or nothing. -/
theorem replyRoom_le {k size cap : Nat} {w w' : World} (h : replyRoom k size w = .ok (cap, w')) :
    cap ≤ k := by
  obtain ⟨b, t, -, hret⟩ := bind_ok.mp h
  cases b with
  | none =>
    obtain ⟨rfl, -⟩ := pure_ok.mp hret
    exact Nat.zero_le _
  | some b =>
    obtain ⟨rfl, -⟩ := pure_ok.mp hret
    exact Nat.le_refl _

/-- What the wrapper of `c_write` does. -/
theorem wrapCWrite_done {fb offset length uid : Int} {ips : Str}
    {r : Except Exc (Option (List SendBlock))}
    (h : wrapCWrite fb offset length ips uid n = .ok (r, n')) :
    (Quiet n n' ∧ ∀ data, r ≠ .ok (some data)) ∨ ∃ cap q w, cap ≤ replyCap (argK length) ∧
      Same n.world w ∧ cWrite (argI fb) (argK offset) (argK length)
        ((parseIps ips).map UInt32.toNat) cap w = .ok (q, n'.world) ∧ r = .ok (someBlocks q) := by
  rcases bind_done.mp h with ⟨e, he, rfl⟩ | ⟨tmp, t, harg, h₁⟩
  · rw [(argS_done he).1]
    exact .inl ⟨Same.refl _, fun _ h => nomatch h⟩
  obtain ⟨rfl, -⟩ := argS_done harg
  rcases bind_done.mp h₁ with ⟨e, he, -⟩ | ⟨b, t₁, hb, h₂⟩
  · obtain ⟨a, ha, -⟩ := inC_done he
    cases ha
  have hs₁ : Quiet t t₁ := (quiet_inC (keeps_malloc _ _)).rel hb
  cases b with
  | none =>
    cases h₂
    exact .inl ⟨hs₁, fun _ h => nomatch h⟩
  | some b =>
    rcases bind_done.mp h₂ with ⟨e, he, -⟩ | ⟨b', t₂, hb', h₃⟩
    · obtain ⟨a, ha, -⟩ := inC_done he
      cases ha
    have hs₂ : Quiet t₁ t₂ := (quiet_inC (keeps_malloc _ _)).rel hb'
    cases b' with
    | none =>
      cases h₃
      exact .inl ⟨Trans.trans hs₁ hs₂, fun _ h => nomatch h⟩
    | some b' =>
      rcases bind_done.mp h₃ with ⟨e, he, -⟩ | ⟨cap, t₃, hroom, h₄⟩
      · obtain ⟨a, ha, -⟩ := inC_done he
        cases ha
      have hs₃ : Quiet t₂ t₃ := (quiet_inC (keeps_replyRoom _ _)).rel hroom
      obtain ⟨cap', hcap', hroom, -⟩ := inC_done hroom
      cases hcap'
      have hle : cap ≤ replyCap (argK length) := replyRoom_le hroom
      rcases bind_done.mp h₄ with ⟨e, he, -⟩ | ⟨u, t₄, hrec, h₅⟩
      · cases he
      cases hrec
      rcases bind_done.mp h₅ with ⟨e, he, -⟩ | ⟨q, t₅, hcall, hret⟩
      · obtain ⟨a, ha, -⟩ := inC_done he
        cases ha
      obtain ⟨q', hq', hrun, -⟩ := inC_done hcall
      cases hq'
      obtain ⟨rfl, rfl⟩ := pure_done.mp hret
      have hsame : Quiet t t₃ := Trans.trans (Trans.trans hs₁ hs₂) hs₃
      exact .inr ⟨cap, q, t₃.world, hle, hsame, hrun, rfl⟩

theorem findFile_done {fd uid type : Int} {errType msg : String} {r : Except Exc FileDes}
    (h : findFile fd uid type errType msg n = .ok (r, n')) :
    n' = n ∧ ∀ file, r = .ok file → CtrlNode.getFile n uid fd = some file ∧ file.type = type := by
  unfold findFile at h
  rw [bind_step (getState_run n)] at h
  cases hfound : CtrlNode.getFile n uid fd with
  | none =>
    simp only [hfound] at h
    cases h
    exact ⟨rfl, fun _ h => nomatch h⟩
  | some found =>
    simp only [hfound] at h
    by_cases htype : found.type = type
    · rw [if_neg (not_not_intro htype)] at h
      cases h
      refine ⟨rfl, fun file hf => ?_⟩
      cases hf
      exact ⟨rfl, htype⟩
    · rw [if_pos htype] at h
      cases h
      exact ⟨rfl, fun _ h => nomatch h⟩

/-- What a write does on the C side: it ends before the call into the library, or the library
is called for the file of the descriptor, which may be written. -/
theorem write_done {fd offset length : Str} {uid : Int} {r : Except Exc (List SendBlock)}
    (h : DTree.write fd offset length uid n = .ok (r, n')) :
    (Quiet n n' ∧ ∀ data, r ≠ .ok data) ∨
      ∃ k o l file cap q w, pyInt fd = some k ∧ pyInt offset = some o ∧ pyInt length = some l ∧
        CtrlNode.getFile n uid k = some file ∧ file.type = Pool.S_FIL ∧
        mayUse file SBP_O_WRONLY = true ∧ n.ips ≠ [] ∧ cap ≤ replyCap (argK l) ∧
        Same n.world w ∧ cWrite (argI file.fb) (argK o) (argK l)
          ((parseIps n.ips).map UInt32.toNat) cap w = .ok (q, n'.world) ∧
        someBlocks q = r.toOption := by
  have hquit : ∀ {α : Type} {r : Except Exc α} (hr : ∃ e, r = .error e) (data : α), r
    ≠ .ok data := by
    intro α r hr data hd
    obtain ⟨e, rfl⟩ := hr
    cases hd
  rcases bind_done.mp h with ⟨e, he, rfl⟩ | ⟨k, t, hint, h₁⟩
  · rw [(int_done he).1]
    exact .inl ⟨Same.refl _, hquit ⟨e, rfl⟩⟩
  obtain ⟨rfl, hk⟩ := int_done hint
  rcases bind_done.mp h₁ with ⟨e, he, rfl⟩ | ⟨o, t₁, hint', h₂⟩
  · rw [(int_done he).1]
    exact .inl ⟨Same.refl _, hquit ⟨e, rfl⟩⟩
  obtain ⟨rfl, ho⟩ := int_done hint'
  rcases bind_done.mp h₂ with ⟨e, he, rfl⟩ | ⟨l, t₂, hint'', h₃⟩
  · rw [(int_done he).1]
    exact .inl ⟨Same.refl _, hquit ⟨e, rfl⟩⟩
  obtain ⟨rfl, hl⟩ := int_done hint''
  rw [bind_step (getState_run _)] at h₃
  by_cases hips : t₂.ips = []
  · rw [if_pos hips] at h₃
    cases h₃
    exact .inl ⟨Same.refl _, hquit ⟨_, rfl⟩⟩
  rw [if_neg hips] at h₃
  rcases bind_done.mp h₃ with ⟨e, he, rfl⟩ | ⟨file, t₃, hfind, h₄⟩
  · rw [(findFile_done he).1]
    exact .inl ⟨Same.refl _, hquit ⟨e, rfl⟩⟩
  obtain ⟨rfl, hfile⟩ := findFile_done hfind
  obtain ⟨hget, htype⟩ := hfile file rfl
  by_cases hmay : (!mayUse file SBP_O_WRONLY) = true
  · rw [if_pos hmay] at h₄
    cases h₄
    exact .inl ⟨Same.refl _, hquit ⟨_, rfl⟩⟩
  rw [if_neg hmay] at h₄
  rcases bind_done.mp h₄ with ⟨e, he, rfl⟩ | ⟨data, t₄, hcall, hret⟩
  · rcases wrapCWrite_done he with ⟨hq, -⟩ | ⟨cap, q, w, -, -, -, hbad⟩
    · exact .inl ⟨hq, hquit ⟨e, rfl⟩⟩
    · cases hbad
  -- what follows the wrapper changes nothing
  have hend : n' = t₄ ∧ data = r.toOption := by
    cases data with
    | none =>
      cases hret
      exact ⟨rfl, rfl⟩
    | some data =>
      cases hret
      exact ⟨rfl, rfl⟩
  obtain ⟨rfl, hdata⟩ := hend
  rcases wrapCWrite_done hcall with ⟨hq, hnone⟩ | ⟨cap, q, w, hcap, hsame, hrun, heq⟩
  · refine .inl ⟨hq, fun data' hd => ?_⟩
    rw [hd] at hdata
    exact hnone data' (congrArg Except.ok hdata)
  · refine .inr ⟨k, o, l, file, cap, q, w, hk k rfl, ho o rfl, hl l rfl, hget, htype,
      ?_, hips, hcap,
      hsame, hrun, ?_⟩
    · simpa using hmay
    · exact (Except.ok.inj heq).symm.trans hdata

theorem wrapCRead_returns {fb o l uid : Int} {blocks : List SendBlock}
    (h : wrapCRead fb o l uid n = .ok (.ok (some blocks), n')) :
    ∃ cap q w, cap ≤ replyCap (argK l) ∧
      Same n.world w ∧ cRead (argI fb) (argK o) (argK l) cap w = .ok (q, n'.world) ∧
      someBlocks q = some blocks := by
  obtain ⟨cap, s₁, hroom, hcall₁⟩ := bind_returns.mp h
  have hsame : Quiet n s₁ := (quiet_inC (keeps_replyRoom _ _)).rel hroom
  obtain ⟨cap', hcap', hroom', -⟩ := inC_done hroom
  cases hcap'
  obtain ⟨u, s₂, hrec, hcall₂⟩ := bind_returns.mp hcall₁
  cases hrec
  obtain ⟨q, s₃, hread, hret⟩ := bind_returns.mp hcall₂
  obtain ⟨q', hq', hrun, -⟩ := inC_done hread
  cases hq'
  obtain ⟨hblocks, rfl⟩ := pure_done.mp hret
  exact ⟨cap, q, s₁.world, replyRoom_le hroom', hsame, hrun, (Except.ok.inj hblocks).symm⟩

/-- A read that returns: the library's function was called for the file of the descriptor,
which may be read, and its entries went through `__flit_read`. -/
structure ReadDone (n : CtrlNode) (fd offset length : Str) (uid : Int) (data : List SendBlock)
    (n' : CtrlNode) (k o l : Int) (file : FileDes) (blocks : List SendBlock) : Prop where
  fd_eq : pyInt fd = some k
  offset_eq : pyInt offset = some o
  length_eq : pyInt length = some l
  found : CtrlNode.getFile n uid k = some file
  type : file.type = Pool.S_FIL
  may : mayUse file SBP_O_RDONLY = true
  call : ∃ cap q w w', cap ≤ replyCap (argK l) ∧ Same n.world w ∧
    cRead (argI file.fb) (argK o) (argK l) cap w = .ok (q, w') ∧ someBlocks q = some blocks
  flit : ∃ t, OnlyC n t ∧ flitRead blocks t = .ok (.ok data, n')

theorem read_returns {fd offset length : Str} {uid : Int} {data : List SendBlock}
    (h : DTree.read fd offset length uid n = .ok (.ok data, n')) :
    ∃ k o l file blocks, ReadDone n fd offset length uid data n' k o l file blocks := by
  obtain ⟨k, t, hint, h₁⟩ := bind_returns.mp h
  obtain ⟨rfl, hk⟩ := int_done hint
  obtain ⟨o, t₁, hint', h₂⟩ := bind_returns.mp h₁
  obtain ⟨rfl, ho⟩ := int_done hint'
  obtain ⟨l, t₂, hint'', h₃⟩ := bind_returns.mp h₂
  obtain ⟨rfl, hl⟩ := int_done hint''
  obtain ⟨file, t₃, hfind, h₄⟩ := bind_returns.mp h₃
  obtain ⟨rfl, hfile⟩ := findFile_done hfind
  obtain ⟨hget, htype⟩ := hfile file rfl
  by_cases hmay : (!mayUse file SBP_O_RDONLY) = true
  · rw [if_pos hmay] at h₄
    cases h₄
  rw [if_neg hmay] at h₄
  obtain ⟨reply, t₄, hcall, hflit⟩ := bind_returns.mp h₄
  cases reply with
  | none => cases hflit
  | some blocks =>
    have honly : OnlyC t₃ t₄ := (stays_wrapCRead (stays_record _)).rel hcall
    obtain ⟨cap, q, w, hcap, hsame, hrun, hblocks⟩ := wrapCRead_returns hcall
    exact ⟨k, o, l, file, blocks, hk k rfl, ho o rfl, hl l rfl, hget, htype, by simpa using hmay,
      ⟨cap, q, w, t₄.world, hcap, hsame, hrun, hblocks⟩, t₄, honly, hflit⟩

/-- `open` is the part that makes the `FileDes`, and handing out a number. -/
theorem openFile_done {path oflags mode : Str} {uid : Int} {q : Except Exc Int}
    (h : DTree.openFile path oflags mode uid n = .ok (q, n')) :
    ∃ r t, openDes path oflags mode uid n = .ok (r, t) ∧ n'.world = t.world ∧
      ∀ fd, q = .ok fd → ∃ file, r = .ok file ∧ genFd file uid t = .ok (.ok fd, n') := by
  rcases bind_done.mp h with ⟨e, he, rfl⟩ | ⟨file, t, hdes, hgen⟩
  · exact ⟨_, n', he, rfl, fun _ h => nomatch h⟩
  · refine ⟨_, t, hdes, ?_, fun fd hfd => ⟨file, rfl, hfd ▸ hgen⟩⟩
    cases hgen
    rfl

theorem libCall_openFile {path oflags mode : Str} {uid o m : Int} {p : CStr}
    (hp : cstrOf path = some p) (ho : pyInt oflags = some o) (hm : pyInt mode = some m) :
    libCall n (.openFile path oflags mode uid)
      = some (.openFile p (UInt8.ofNat o.toNat) (UInt8.ofNat m.toNat) (argI uid)) := by
  simp only [libCall, hp, ho, hm]
  rfl

theorem libCall_write {fd offset length : Str} {uid k o l : Int} {file : FileDes}
    (hk : pyInt fd = some k) (ho : pyInt offset = some o) (hl : pyInt length = some l)
    (hfile : CtrlNode.getFile n uid k = some file) :
    libCall n (.write fd offset length uid)
      = some (.write (argI file.fb) (argK o) (argK l) (parseIps n.ips)) := by
  simp [libCall, hk, ho, hl, hfile]

/-- Every method call leaves the disk alone or comes down to its call into the library. -/
theorem disk_run {op : Op} {r : Except Exc Value} (h : op.run n = .ok (r, n')) :
    Quiet n n' ∨ ∃ c ret, libCall n op = some c ∧ Ran n c ret n' := by
  have hname : ∀ {path : Str} {c : CStr → Call}, (libCall n op = (cstrOf path).map c) →
      (Quiet n n' ∨ ∃ p ret, cstrOf path = some p ∧ Ran n (c p) ret n') →
      Quiet n n' ∨ ∃ c ret, libCall n op = some c ∧ Ran n c ret n' := by
    intro path c hc hd
    rcases hd with hq | ⟨p, ret, hp, hran⟩
    · exact .inl hq
    · refine .inr ⟨c p, ret, ?_, hran⟩
      rw [hc, hp]
      rfl
  cases op with
  | openFile path oflags mode uid =>
    obtain ⟨q, hq⟩ := map_done h
    obtain ⟨r', t, hdes, hworld, -⟩ := openFile_done hq
    rcases openDes_done hdes with ⟨hquiet, -⟩ | ⟨p, o, m, ret, hp, ho, hm, ⟨w, hsame, hrun⟩, -⟩
    · left
      show Same n.world n'.world
      rw [hworld]
      exact hquiet
    · refine .inr ⟨_, ret, libCall_openFile hp ho hm, w, hsame, ?_⟩
      rw [hworld]
      exact hrun
  | write fd offset length uid =>
    obtain ⟨q, hq⟩ := map_done h
    rcases write_done hq with ⟨hquiet, -⟩ |
      ⟨k, o, l, file, cap, q, w, hk, ho, hl, hget, -, -, -, hcap, hsame, hrun, -⟩
    · exact .inl hquiet
    · refine .inr ⟨_, q.1, libCall_write hk ho hl hget, w, hsame, ?_⟩
      apply bind_ok.mpr
      exact ⟨q, n'.world, cWrite_cap hcap hrun, rfl⟩
  | move dst src uid =>
    obtain ⟨q, hq⟩ := map_done h
    exact move_done hq
  | chmod path mode uid =>
    obtain ⟨q, hq⟩ := map_done h
    exact chmod_done hq
  | remove path uid =>
    obtain ⟨q, hq⟩ := map_done h
    exact hname rfl (pathCall_done (fun _ => rfl) (keeps_checkRet _) hq)
  | chown path newuid uid =>
    obtain ⟨q, hq⟩ := map_done h
    exact hname rfl (pathCall_done (fun _ => rfl) (keeps_checkRet _) hq)
  | mkdir path uid =>
    obtain ⟨q, hq⟩ := map_done h
    exact hname rfl (pathCall_done (fun _ => rfl) (keeps_checkRet _) hq)
  | rmdir path uid =>
    obtain ⟨q, hq⟩ := map_done h
    exact hname rfl (pathCall_done (fun _ => rfl) (keeps_checkRet _) hq)
  | read fd offset length uid => exact .inl ((stays_map _ (quiet_read _ _ _ _)).rel h)
  | stat path uid => exact .inl ((stays_map _ (quiet_stat _ _)).rel h)
  | close fd uid => exact .inl ((stays_map _ (quiet_close _ _)).rel h)
  | opendir path uid => exact .inl ((stays_map _ (quiet_opendir _ _)).rel h)
  | readdir dd entnum uid => exact .inl ((stays_map _ (quiet_readdir _ _ _)).rel h)
  | closedir dd uid => exact .inl ((stays_map _ (quiet_closedir _ _)).rel h)
  | addBlockInfo order l user ip =>
    cases h
    exact .inl (Same.refl _)
  | dropUser user =>
    cases h
    exact .inl (Same.refl _)

end Library

/-! ## Runs of sound calls -/

/-- The library is called only where it does not spoil the image. -/
def SoundTurn (n : CtrlNode) (a : Turn) : Prop :=
  ∀ c, libCall n a.op = some c → Sound n.world.dt c a.env

/-- The disk of the node holds a file tree. -/
def NodeHolding (n : CtrlNode) : Prop :=
  ∃ fs chain, Store n.world.dt fs chain ∧ Tree fs ∧ Bounded fs

theorem sound_later {dt : Dtree} {c : Call} {e e' : Env} (h : Sound dt c e) (hl : Later e e') :
    Sound dt c e' := by
  cases c with
  | mkdir path uid => exact ⟨h.1, h.2.later hl⟩
  | openFile path oflags mode uid => exact ⟨h.1, h.2.later hl⟩
  | remove path uid =>
    have hs : Env.Succeeds e .tail := h
    exact hs.later hl
  | rmdir path uid => exact ⟨h.1.later hl, h.2⟩
  | move srcpath dstpath uid => exact h
  | write fb offset length ips => exact h
  | chmod path mode uid => exact h
  | chown path newuid uid => exact h

theorem parseIps_ne_nil (s : Str) : parseIps s ≠ [] := by
  unfold parseIps
  intro h
  simp only [List.reverse_eq_nil_iff, List.map_eq_nil_iff] at h
  exact List.splitOn_ne_nil _ _ h

/-- A write gets the addresses the node knows. -/
theorem libCall_write_ips {n : CtrlNode} {op : Op} {fb : UInt32} {offset length : UInt64}
    {ips : List UInt32} (h : libCall n op = some (.write fb offset length ips)) :
    ips = parseIps n.ips := by
  cases op with
  | write fd offset length uid =>
    simp only [libCall, Option.bind_eq_bind, Option.bind_eq_some_iff, Option.pure_def,
      Option.some.injEq, Call.write.injEq] at h
    obtain ⟨_, -, _, -, _, -, _, -, -, -, -, hips⟩ := h
    exact hips.symm
  | openFile path oflags mode uid => simp [libCall, Option.bind_eq_some_iff] at h
  | chmod path mode uid => simp [libCall, Option.bind_eq_some_iff] at h
  | move dst src uid => simp [libCall, Option.bind_eq_some_iff] at h
  | _ => simp [libCall] at h

section Turns

variable {n n' : CtrlNode} {a : Turn} {r : Except Exc Value} {fs : Fs} {chain : Nat → List Nat}

/-- What a sound call into the library does to the tree. -/
theorem ran_explained {c : Call} {ret : Int} (hst : Store n.world.dt fs chain) (ht : Tree fs)
    (hb : Bounded fs) (hs : Sound n.world.dt c n.world.env)
    (hips : ∀ fb offset length ips, c = .write fb offset length ips → ips ≠ [])
    (h : Ran n c ret n') : ∃ fs' chain', Store n'.world.dt fs' chain' ∧
      Effect fs n.world.dt.sb.maxBlockNum c ret fs' n'.world.dt.sb.maxBlockNum := by
  obtain ⟨w, hsame, hrun⟩ := h
  have hdt : w.dt = n.world.dt := hsame.dt
  have hsound : Sound w.dt c w.env := by
    rw [hdt]
    exact sound_later hs hsame.later
  have hallow : ∃ opened, c.Allowed ⟨w.dt, w.ipIndex, opened⟩ := by
    cases c with
    | write fb offset length ips =>
      exact ⟨[fb.toNat], List.mem_singleton.mpr rfl, hips _ _ _ _ rfl⟩
    | _ => exact ⟨[], trivial⟩
  obtain ⟨opened, hallow⟩ := hallow
  obtain ⟨fs', chain', hst', he⟩ :=
    @explained fs chain c ⟨w.dt, w.ipIndex, opened⟩ w.env ret n'.world (hdt ▸ hst) ht hb hallow
      hsound hrun
  refine ⟨fs', chain', hst', ?_⟩
  rw [← hdt]
  exact he

/-- What a sound turn does to the tree. -/
theorem turn_explained (hst : Store n.world.dt fs chain) (ht : Tree fs) (hb : Bounded fs)
    (h : Ends n a r n') (hs : SoundTurn n a) :
    n'.world.dt = n.world.dt ∨ ∃ c ret fs' chain', libCall n a.op = some c ∧
      Store n'.world.dt fs' chain' ∧
      Effect fs n.world.dt.sb.maxBlockNum c ret fs' n'.world.dt.sb.maxBlockNum := by
  rcases disk_run h.2 with hquiet | ⟨c, ret, hc, hran⟩
  · exact .inl hquiet.dt
  right
  have hcall : libCall n a.op = some c := hc
  have hips : ∀ fb offset length ips, c = .write fb offset length ips → ips ≠ [] := by
    intro fb offset length ips he
    subst he
    rw [libCall_write_ips hcall]
    exact parseIps_ne_nil _
  obtain ⟨fs', chain', hst', he⟩ :=
    @ran_explained (CtrlNode.answering n a.env) n' fs chain c ret hst ht hb (hs c hcall) hips hran
  exact ⟨c, ret, fs', chain', hcall, hst', he⟩

theorem nodeHolding_turn (h : NodeHolding n) (hends : Ends n a r n') (hs : SoundTurn n a) :
    NodeHolding n' := by
  obtain ⟨fs, chain, hst, ht, hb⟩ := h
  rcases turn_explained hst ht hb hends hs with hdt | ⟨c, ret, fs', chain', -, hst', he⟩
  · refine ⟨fs, chain, ?_, ht, hb⟩
    rw [hdt]
    exact hst
  · exact ⟨fs', chain', hst', he.tree ht, he.bounded hb⟩

end Turns

end Sbpfs.Cnode.DiskSteps
