import Sbpfs.Cnode.ReplyLaws

/-!
# The calls a method makes into the library

A method of `DTree` that gets as far as its call into the library makes that call and no
other, up to a look for lost blocks; it comes back unless the library does not.
-/
namespace Sbpfs.Cnode.LibCalls

open Sbpfs.Lib.Program Sbpfs.Lib.Raise
open Sbpfs.Cfs.Layout Sbpfs.Cfs.Rules Sbpfs.Cfs.Namespace Sbpfs.Cfs.Data Sbpfs.Cfs.Query
open Sbpfs.Cfs.LookupSpec Sbpfs.Cfs.QuerySpec
open Sbpfs.Cfs.Calls (replyCap)
open Sbpfs.Wire.Head Sbpfs.Wire.Number
open Sbpfs.Cnode.ReplyLaws
open Sbpfs.Cnode.Pool Sbpfs.Cnode.Libcfs Sbpfs.Cnode.DTree Sbpfs.Cnode.Frame Sbpfs.Cnode.DiskSteps

/-- The function does not come back, whatever its reply buffer has room for and the stack
holds. -/
def LibCall.Stops (c : LibCall) (w : World) (e : Stop) : Prop :=
  match c with
  | .getblocks path => getblocks path w = .error e
  | .openFile path oflags mode uid => cOpen path oflags mode uid w = .error e
  | .stat path uid => cStat path uid w = .error e
  | .read fb offset length _ => ∃ cap, cRead fb offset length cap w = .error e
  | .write fb offset length ips _ =>
    ∃ cap, cWrite fb offset length (ips.map UInt32.toNat) cap w = .error e
  | .opendir path uid => ∃ k, cOpendir path uid k w = .error e
  | .readdir fb entnum _ => cReaddir fb entnum w = .error e
  | .move srcpath dstpath uid => cMove srcpath dstpath uid w = .error e
  | .remove path uid => cRemove path uid w = .error e
  | .chown path newuid uid => cChown path newuid uid w = .error e
  | .chmod path mode uid => cChmod path mode uid w = .error e
  | .rmdir path uid => cRmdir path uid w = .error e
  | .mkdir path uid => cMkdir path uid w = .error e

/-- The calls made between two states. -/
def Called (P : LibCall → Prop) (n n' : CtrlNode) : Prop :=
  ∃ new, n'.calls = new ++ n.calls ∧ ∀ d ∈ new, P d

/-- The program makes calls with `P` only. Where it is `ready`, it makes the call `c`, and
stops only if the library does. -/
structure Calling {α : Type} (P : LibCall → Prop) (c : LibCall) (ready : Prop) (m : Py α)
    (n : CtrlNode) : Prop where
  only : ∀ r n', m n = .ok (r, n') → Called P n n'
  reach : ready → (∃ r n', m n = .ok (r, n') ∧ ∃ new, n'.calls = new ++ n.calls ∧ c ∈ new) ∨
    ∃ e w, m n = .error e ∧ Same n.world w ∧ LibCall.Stops c w e

/-- The program comes back, and calls nothing. -/
def Harmless {α : Type} (m : Py α) : Prop :=
  ∀ n, ∃ r n', m n = .ok (r, n') ∧ n'.calls = n.calls

section Harmless

variable {α β : Type}

theorem harmless_pure (a : α) : Harmless (pure a : Py α) := fun n => ⟨_, n, rfl, rfl⟩

theorem harmless_raise (e : Exc) : Harmless (raise e : Py α) := fun n => ⟨_, n, rfl, rfl⟩

theorem harmless_getState : Harmless (getState : Py CtrlNode) := fun n => ⟨_, n, rfl, rfl⟩

theorem harmless_bind {m : Py α} {f : α → Py β} (hm : Harmless m) (hf : ∀ a, Harmless (f a)) :
    Harmless (m >>= f) := by
  intro n
  obtain ⟨r, t, hrun, hcalls⟩ := hm n
  cases r with
  | error e => exact ⟨_, t, bind_raise hrun f, hcalls⟩
  | ok a =>
    obtain ⟨r', t', hrun', hcalls'⟩ := hf a t
    exact ⟨r', t', (bind_step hrun f).trans hrun', hcalls'.trans hcalls⟩

theorem harmless_ite {p : Prop} [Decidable p] {m m' : Py α} (hm : Harmless m)
    (hm' : Harmless m') : Harmless (if p then m else m') := by
  split
  · exact hm
  · exact hm'

theorem harmless_raiseDTree (type msg : String) : Harmless (raiseDTree type msg : Py α) :=
  harmless_raise _

theorem harmless_checkRet (ret : Int) (errors : List (Int × String × String)) :
    Harmless (checkRet ret errors) := by
  unfold checkRet
  split
  · exact harmless_raiseDTree _ _
  · exact harmless_ite (harmless_raiseDTree _ _) (harmless_pure _)

theorem harmless_genFd (file : FileDes) (uid : Int) : Harmless (genFd file uid) :=
  fun _ => ⟨_, _, rfl, rfl⟩

theorem harmless_flitRead (blocks : List SendBlock) : Harmless (flitRead blocks) := by
  induction blocks with
  | nil => exact harmless_pure _
  | cons b blocks ih =>
    have hblock : Harmless (flitBlock b) := by
      apply harmless_bind harmless_getState
      intro n
      split
      · exact harmless_raise _
      · exact harmless_ite (harmless_pure _) (harmless_raise _)
    exact harmless_bind hblock fun _ => harmless_bind ih fun _ => harmless_pure _

end Harmless

section Calling

variable {α β : Type} {P : LibCall → Prop} {c : LibCall} {ready : Prop} {n : CtrlNode}

/-- What follows the call calls nothing. -/
theorem calling_bind {m : Py α} {f : α → Py β} (hm : Calling P c ready m n)
    (hf : ∀ a, Harmless (f a)) : Calling P c ready (m >>= f) n := by
  constructor
  · intro r n' hrun
    rcases bind_done.mp hrun with ⟨e, he, -⟩ | ⟨a, t, ha, hrest⟩
    · exact hm.only _ _ he
    · obtain ⟨new, hnew, hP⟩ := hm.only _ _ ha
      obtain ⟨r', t', hrun', hcalls⟩ := hf a t
      cases hrun'.symm.trans hrest
      exact ⟨new, hcalls.trans hnew, hP⟩
  · intro h
    rcases hm.reach h with ⟨r, t, hrun, new, hnew, hc⟩ | ⟨e, w, hrun, hsame, hstop⟩
    · cases r with
      | error e => exact .inl ⟨_, t, bind_raise hrun f, new, hnew, hc⟩
      | ok a =>
        obtain ⟨r', t', hrun', hcalls⟩ := hf a t
        exact .inl ⟨r', t', (bind_step hrun f).trans hrun', new, hcalls.trans hnew, hc⟩
    · exact .inr ⟨e, w, bind_stop hrun f, hsame, hstop⟩

/-- What comes before the call makes other calls at most. -/
theorem calling_after {m : Py α} {f : α → Py β} {a : α} {t : CtrlNode}
    (hm : m n = .ok (.ok a, t)) (hsame : Same n.world t.world) (hcalls : Called P n t)
    (hf : Calling P c ready (f a) t) : Calling P c ready (m >>= f) n := by
  obtain ⟨old, hold, hPold⟩ := hcalls
  have hstep := bind_step hm f
  constructor
  · intro r n' hrun
    obtain ⟨new, hnew, hP⟩ := hf.only r n' (hstep.symm.trans hrun)
    refine ⟨new ++ old, ?_, fun d hd => ?_⟩
    · rw [hnew, hold, List.append_assoc]
    · rcases List.mem_append.mp hd with hd | hd
      · exact hP d hd
      · exact hPold d hd
  · intro h
    rcases hf.reach h with ⟨r, t', hrun, new, hnew, hc⟩ | ⟨e, w, hrun, hs, hstop⟩
    · refine .inl ⟨r, t', hstep.trans hrun, new ++ old, ?_, List.mem_append_left _ hc⟩
      rw [hnew, hold, List.append_assoc]
    · exact .inr ⟨e, w, hstep.trans hrun, hsame.trans hs, hstop⟩

theorem called_refl (P : LibCall → Prop) (n : CtrlNode) : Called P n n :=
  ⟨[], rfl, fun _ hd => (List.not_mem_nil hd).elim⟩

/-- What comes before the call changes nothing. -/
theorem calling_step {m : Py α} {f : α → Py β} {a : α} (hm : m n = .ok (.ok a, n))
    (hf : Calling P c ready (f a) n) : Calling P c ready (m >>= f) n :=
  calling_after hm (Same.refl _) (called_refl P n) hf

/-- Where the program is not ready, it is enough that it calls nothing. -/
theorem calling_not_ready {m : Py α} (h : ∃ r n', m n = .ok (r, n') ∧ n'.calls = n.calls)
    (hready : ¬ ready) : Calling P c ready m n := by
  constructor
  · intro r n' hrun
    obtain ⟨r', t, hrun', hcalls⟩ := h
    cases hrun'.symm.trans hrun
    exact ⟨[], hcalls, fun _ hd => (List.not_mem_nil hd).elim⟩
  · exact fun hr => absurd hr hready

theorem Calling.weaken {m : Py α} {ready' : Prop} (h : Calling P c ready m n)
    (hr : ready' → ready) : Calling P c ready' m n := ⟨h.only, fun hr' => h.reach (hr hr')⟩

/-! ## The call -/

/-- The call itself. -/
theorem calling_record {m : CM α} (hP : P c) (hstop : ∀ w e, m w = .error e → LibCall.Stops c w e) :
    Calling P c True (record c >>= fun _ => inC m) n := by
  have hstep : ∀ m' : Unit → Py α, (record c >>= m') n = m' () { n with calls := c :: n.calls } :=
    fun m' => bind_step rfl m'
  constructor
  · intro r n' hrun
    rw [hstep] at hrun
    obtain ⟨a, -, -, hn'⟩ := inC_done hrun
    refine ⟨[c], ?_, fun d hd => ?_⟩
    · rw [hn']
      rfl
    · rw [List.mem_singleton.mp hd]
      exact hP
  · intro
    rw [hstep]
    unfold inC onPart
    cases hm : m n.world with
    | error e => exact .inr ⟨e, n.world, rfl, Same.refl _, hstop _ _ hm⟩
    | ok q =>
      refine .inl ⟨_, _, rfl, [c], rfl, List.mem_singleton.mpr rfl⟩

theorem calling_record_bind {m : CM α} {f : α → Py β} (hP : P c)
    (hstop : ∀ w e, m w = .error e → LibCall.Stops c w e) (hf : ∀ a, Harmless (f a)) :
    Calling P c True (record c >>= fun _ => inC m >>= f) n := by
  rw [← bind_assoc]
  exact calling_bind (calling_record hP hstop) hf

/-- An allocation. -/
theorem malloc_run (s : AllocSite) (size : Nat) (n : CtrlNode) : ∃ b t,
    (inC (malloc s size) : Py _) n = .ok (.ok b, t) ∧ Same n.world t.world ∧ t.calls = n.calls ∧
      (Env.Succeeds n.world.env s → b ≠ none) := by
  refine ⟨_, _, rfl, Same.pop _ _, rfl, fun h hnone => ?_⟩
  exact h 0 (Option.map_eq_none_iff.mp hnone)

theorem called_of_eq {t : CtrlNode} (h : t.calls = n.calls) : Called P n t :=
  ⟨[], h, fun _ hd => (List.not_mem_nil hd).elim⟩

/-- A call with the copy of a path is made where there is memory for the copy. -/
theorem calling_withPath {path : CStr} {null : α} {m : CM α} (hP : P c)
    (hstop : ∀ w e, m w = .error e → LibCall.Stops c w e) :
    Calling P c (Env.Succeeds n.world.env .path) (withPath path null c m) n := by
  obtain ⟨b, t, hb, hsame, hcalls, hmem⟩ := malloc_run .path (path.length + 1) n
  apply calling_after hb hsame (called_of_eq hcalls)
  cases b with
  | none => exact calling_not_ready (harmless_pure null _) fun h => hmem h rfl
  | some b => exact (calling_record hP hstop).weaken fun _ => trivial

end Calling

/-! ## The methods -/

section Methods

variable {P : LibCall → Prop} {n : CtrlNode} {path : Str} {p : CStr} {uid : Int}

/-- The methods that take a path and check the value. -/
theorem calling_pathMethod {c : LibCall} {lc : CStr → LibCall} {m : CStr → CM Int}
    {errors : List (Int × String × String)} (hp : cstrOf path = some p) (hc : lc p = c) (hP : P c)
    (hstop : ∀ w e, m p w = .error e → LibCall.Stops c w e) :
    Calling P c (Env.Succeeds n.world.env .path)
      ((argS 2 path >>= fun p => withPath p (-1) (lc p) (m p)) >>= fun ret => checkRet ret errors)
      n := by
  subst hc
  apply calling_bind _ fun ret => harmless_checkRet ret errors
  exact calling_step (argS_some hp n) (calling_withPath hP hstop)

theorem calling_chmod {mode : Str} {z : Int} (hp : cstrOf path = some p) (hz : pyInt mode = some z)
    (hbyte : IsByte z) (hP : P (.chmod p (UInt8.ofNat z.toNat) (argI uid))) :
    Calling P (.chmod p (UInt8.ofNat z.toNat) (argI uid)) (Env.Succeeds n.world.env .path)
      (DTree.chmod path mode uid) n := by
  apply calling_step (int_some hz n)
  apply calling_bind _ fun ret => harmless_checkRet ret _
  apply calling_step (argS_some hp n)
  exact calling_step (argB_byte hbyte n) (calling_withPath hP fun _ _ h => h)

theorem calling_move {dst src : Str} {p q : CStr} (hp : cstrOf dst = some p)
    (hq : cstrOf src = some q) (hP : P (.move p q (argI uid))) :
    Calling P (.move p q (argI uid)) (Env.Succeeds n.world.env .path)
      (DTree.move dst src uid) n := by
  apply calling_bind _ fun ret => harmless_checkRet ret _
  apply calling_step (argS_some hp n)
  apply calling_step (argS_some hq n)
  cases hcopy : copyPaths p q n.world with
  | error e =>
    have hstop : ∀ {β : Type} (f : Unit → Py β), (inC (copyPaths p q) >>= f) n = .error e := by
      intro β f
      apply bind_stop
      unfold inC onPart
      rw [hcopy]
    constructor
    · intro r n' hrun
      rw [hstop] at hrun
      cases hrun
    · intro hmem
      exfalso
      have hwp : wpOr False (copyPaths p q) (fun _ _ => True) n.world := by
        have h₀ := hmem 0
        have h₁ := hmem 1
        simp only [copyPaths, wp_bind, wp_malloc, wp_ite, wp_pure, wp_fault]
        rw [if_pos]
        · trivial
        · simpa [Env.pop, Option.isSome_iff_ne_none] using ⟨h₀, h₁⟩
      obtain ⟨a, w, hrun, -⟩ := wp_returns hwp
      cases hcopy.symm.trans hrun
  | ok q' =>
    have hrun : inC (copyPaths p q) n = .ok (.ok (), { n with world := q'.2 }) := by
      unfold inC onPart
      rw [hcopy]
    apply calling_after hrun (copyPaths_done hcopy) (called_of_eq rfl)
    exact (calling_record hP fun _ _ h => h).weaken fun _ => trivial

theorem calling_opendir (hp : cstrOf path = some p) (hP : P (.opendir p (argI uid))) :
    Calling P (.opendir p (argI uid)) (Env.Succeeds n.world.env .path)
      (DTree.opendir path uid) n := by
  have hdes : Calling P (.opendir p (argI uid)) (Env.Succeeds n.world.env .path)
      (opendirDes path uid) n := by
    apply calling_bind
    · apply calling_step (argS_some hp n)
      apply calling_step (getState_run n)
      refine calling_withPath hP fun w e h => ?_
      refine ⟨n.world.env.stray 0, ?_⟩
      cases hrun : cOpendir p (argI uid) (n.world.env.stray 0) w with
      | error e' =>
        simp only [bind, StateT.bind, hrun] at h
        cases h
        rfl
      | ok q =>
        simp only [bind, StateT.bind, hrun] at h
        cases h
    · intro q
      cases q with
      | none => exact harmless_raiseDTree _ _
      | some q =>
        apply harmless_ite (harmless_raiseDTree _ _)
        apply harmless_ite (harmless_raiseDTree _ _)
        exact harmless_ite (harmless_raiseDTree _ _) (harmless_pure _)
  exact calling_bind hdes fun _ => harmless_bind (harmless_genFd _ _) fun _ => harmless_pure _

theorem findFile_raises {k type : Int} {errType msg : String} (n : CtrlNode)
    (h : ∀ file, CtrlNode.getFile n uid k = some file → file.type ≠ type) :
    ∃ e, findFile k uid type errType msg n = .ok (.error e, n) := by
  unfold findFile
  rw [bind_step (getState_run n)]
  cases hget : CtrlNode.getFile n uid k with
  | none => exact ⟨_, rfl⟩
  | some file =>
    simp only [if_pos (h file hget)]
    exact ⟨_, rfl⟩

/-- A method that looks its descriptor up. -/
theorem calling_findFile {α : Type} {k type : Int} {errType msg : String} {c : LibCall}
    {ready : FileDes → Prop} {f : FileDes → Py α} {file : FileDes}
    (hget : CtrlNode.getFile n uid k = some file)
    (hf : file.type = type → Calling P c (ready file) (f file) n) :
    Calling P c (file.type = type ∧ ready file) (findFile k uid type errType msg >>= f) n := by
  by_cases htype : file.type = type
  · apply calling_step (findFile_some hget htype)
    exact (hf htype).weaken And.right
  · obtain ⟨e, he⟩ : ∃ e, findFile k uid type errType msg n = .ok (.error e, n) := by
      apply findFile_raises
      intro file' h
      cases hget.symm.trans h
      exact htype
    exact calling_not_ready ⟨_, n, bind_raise he f, rfl⟩ fun h => htype h.1

theorem replyRoom_run (k size : Nat) (n : CtrlNode) : ∃ cap t,
    (inC (replyRoom k size) : Py _) n = .ok (.ok cap, t) ∧ Same n.world t.world ∧
      t.calls = n.calls := by
  cases hrun : replyRoom k size n.world with
  | error e =>
    exfalso
    have hwp : wpOr False (replyRoom k size) (fun _ _ => True) n.world := by
      simp only [replyRoom, wp_bind, wp_malloc]
      split <;> trivial
    obtain ⟨a, w, hok, -⟩ := wp_returns hwp
    cases hrun.symm.trans hok
  | ok q =>
    refine ⟨q.1, { n with world := q.2 }, ?_, (keeps_replyRoom k size).rel hrun, rfl⟩
    unfold inC onPart
    rw [hrun]

theorem calling_read {fd offset length : Str} {k o l : Int} {file : FileDes}
    (hk : pyInt fd = some k) (ho : pyInt offset = some o) (hl : pyInt length = some l)
    (hget : CtrlNode.getFile n uid k = some file)
    (hP : P (.read (argI file.fb) (argK o) (argK l) (argI uid))) :
    Calling P (.read (argI file.fb) (argK o) (argK l) (argI uid))
      (file.type = Pool.S_FIL ∧ mayUse file SBP_O_RDONLY = true) (DTree.read fd offset length uid)
      n := by
  apply calling_step (int_some hk n)
  apply calling_step (int_some ho n)
  apply calling_step (int_some hl n)
  apply calling_findFile hget
  intro
  by_cases hmay : mayUse file SBP_O_RDONLY = true
  · rw [if_neg (by rw [hmay]; decide)]
    apply calling_bind
    · obtain ⟨cap, t, hroom, hsame, hcalls⟩ := replyRoom_run (replyCap (argK l)) 32 n
      apply calling_after hroom hsame (called_of_eq hcalls)
      exact (calling_record_bind hP (fun _ _ h => ⟨cap, h⟩) fun _ => harmless_pure _).weaken
        fun _ => trivial
    · intro data
      cases data with
      | none => exact harmless_raiseDTree _ _
      | some data => exact harmless_flitRead data
  · rw [if_pos (by simpa using hmay)]
    exact calling_not_ready (harmless_raise _ n) hmay

theorem calling_write {fd offset length : Str} {k o l : Int} {file : FileDes}
    (hk : pyInt fd = some k) (ho : pyInt offset = some o) (hl : pyInt length = some l)
    (hget : CtrlNode.getFile n uid k = some file)
    (hP : P (.write (argI file.fb) (argK o) (argK l) (parseIps n.ips) (argI uid))) :
    Calling P (.write (argI file.fb) (argK o) (argK l) (parseIps n.ips) (argI uid))
      (n.ips ≠ [] ∧ file.type = Pool.S_FIL ∧ mayUse file SBP_O_WRONLY = true ∧
        (cstrOf n.ips).isSome ∧ Env.Succeeds n.world.env .path)
      (DTree.write fd offset length uid) n := by
  apply calling_step (int_some hk n)
  apply calling_step (int_some ho n)
  apply calling_step (int_some hl n)
  apply calling_step (getState_run n)
  by_cases hips : n.ips = []
  · rw [if_pos hips]
    exact calling_not_ready (harmless_raiseDTree _ _ n) fun h => h.1 hips
  rw [if_neg hips]
  apply Calling.weaken _ And.right
  apply calling_findFile hget
  intro
  by_cases hmay : mayUse file SBP_O_WRONLY = true
  swap
  · rw [if_pos (by simpa using hmay)]
    exact calling_not_ready (harmless_raise _ n) fun h => hmay h.1
  rw [if_neg (by rw [hmay]; decide)]
  apply calling_bind
  · cases htmp : cstrOf n.ips with
    | none =>
      obtain ⟨msg, hraise⟩ := argS_none (i := 5) htmp n
      exact calling_not_ready ⟨_, n, bind_raise hraise _, rfl⟩ fun h => nomatch h.2.1
    | some tmp =>
      apply calling_step (argS_some htmp n)
      obtain ⟨b, t, hb, hsame, hcalls, hmem⟩ := malloc_run .path (tmp.length + 1) n
      apply calling_after hb hsame (called_of_eq hcalls)
      cases b with
      | none => exact calling_not_ready (harmless_pure _ _) fun h => hmem h.2.2 rfl
      | some b =>
        obtain ⟨b', t', hb', hsame', hcalls', hmem'⟩ :=
          malloc_run .path ((parseIps n.ips).length * 4) t
        apply calling_after hb' hsame' (called_of_eq hcalls')
        cases b' with
        | none =>
          exact calling_not_ready (harmless_pure _ _) fun h =>
            hmem' (h.2.2.later hsame.later) rfl
        | some b' =>
          obtain ⟨cap, t'', hroom, hsame'', hcalls''⟩ := replyRoom_run (replyCap (argK l)) 32 t'
          apply calling_after hroom hsame'' (called_of_eq hcalls'')
          exact (calling_record_bind hP (fun _ _ h => ⟨cap, h⟩) fun _ => harmless_pure _).weaken
            fun _ => trivial
  · intro data
    cases data with
    | none => exact harmless_raiseDTree _ _
    | some data => exact harmless_pure _

theorem calling_readdir {dd entnum : Str} {k o : Int} {file : FileDes} (hk : pyInt dd = some k)
    (ho : pyInt entnum = some o) (hget : CtrlNode.getFile n uid k = some file)
    (hP : P (.readdir (argI file.fb) (argK o) (argI uid))) :
    Calling P (.readdir (argI file.fb) (argK o) (argI uid)) (file.type = Pool.S_DIR ∧ True)
      (DTree.readdir dd entnum uid) n := by
  apply calling_step (int_some hk n)
  apply calling_step (int_some ho n)
  apply calling_findFile hget
  intro
  apply calling_bind
  · exact calling_record_bind hP (fun _ _ h => h) fun q =>
      harmless_ite (harmless_pure _) (harmless_pure _)
  · intro ret
    cases ret with
    | none => exact harmless_raiseDTree _ _
    | some ret => exact harmless_pure _

/-- The look for lost blocks makes its own call before. -/
theorem calling_openFile {oflags mode : Str} {o m : Int} (hp : cstrOf path = some p)
    (ho : pyInt oflags = some o) (hm : pyInt mode = some m) (hbytes : IsByte o ∧ IsByte m)
    (hP : P (.openFile p (UInt8.ofNat o.toNat) (UInt8.ofNat m.toNat) (argI uid)))
    (hlook : P (.getblocks p)) :
    Calling P (.openFile p (UInt8.ofNat o.toNat) (UInt8.ofNat m.toNat) (argI uid))
      (Env.Succeeds n.world.env .path ∧
        ∃ lost t, isFileLost path n = .ok (.ok lost, t) ∧ lost ≠ some true)
      (DTree.openFile path oflags mode uid) n := by
  apply calling_bind _ fun file => harmless_genFd file uid
  have hlost : Calling P (.getblocks p) (Env.Succeeds n.world.env .path) (isFileLost path) n := by
    apply calling_bind (calling_step (argS_some hp n) (calling_withPath hlook fun _ _ h => h))
    intro l
    cases l with
    | none => exact harmless_pure _
    | some l => exact harmless_bind harmless_getState fun _ => harmless_pure _
  cases hrun : isFileLost path n with
  | error e =>
    constructor
    · intro r n' h
      cases (bind_stop hrun _).symm.trans h
    · rintro ⟨-, lost, t, h, -⟩
      cases h
  | ok q =>
    obtain ⟨r, t⟩ := q
    have hquiet : Quiet n t := (quiet_isFileLost path).rel hrun
    have hcalled : Called P n t := hlost.only _ _ hrun
    cases r with
    | error e =>
      constructor
      · intro r n' h
        cases (bind_raise hrun _).symm.trans h
        exact hcalled
      · rintro ⟨-, lost, t', h, -⟩
        cases h
    | ok lost =>
      apply calling_after hrun hquiet hcalled
      by_cases hl : lost = some true
      · rw [if_pos hl]
        refine calling_not_ready (harmless_raise _ t) ?_
        rintro ⟨-, lost', t', h, hne⟩
        cases h
        exact hne hl
      rw [if_neg hl]
      apply calling_step (int_some ho t)
      apply calling_step (int_some hm t)
      apply calling_bind
      · apply calling_step (argS_some hp t)
        apply calling_step (argB_byte hbytes.1 t)
        apply calling_step (argB_byte hbytes.2 t)
        exact (calling_withPath hP fun _ _ h => h).weaken fun h => h.1.later hquiet.later
      · intro fb
        apply harmless_ite (harmless_raiseDTree _ _)
        apply harmless_ite (harmless_raiseDTree _ _)
        apply harmless_ite (harmless_raiseDTree _ _)
        exact harmless_ite (harmless_raiseDTree _ _) (harmless_pure _)

end Methods

end Sbpfs.Cnode.LibCalls
