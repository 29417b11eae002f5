import Sbpfs.Cfs.Invariants
import Sbpfs.Cnode.Frame

/-!
# Descriptors over whole runs

Beside the node a ledger is kept of the descriptors that have been handed out and not been
closed: for each user and number the `FileDes` that the opening call made. Over every run
of method calls the pools say what the ledger says, a number is handed out only when its
user does not hold it, and nobody changes what another user's numbers stand for.
-/
namespace Sbpfs.Cnode.Descriptors

open Sbpfs.Lib.Program Sbpfs.Lib.Raise Sbpfs.Lib.Run
open Sbpfs.Cfs.Layout Sbpfs.Cfs.Calls Sbpfs.Cfs.Invariants
open Sbpfs.Cfs.Mkfs (blank)
open Sbpfs.Wire.Head Sbpfs.Wire.Number
open Sbpfs.Cnode.Pool Sbpfs.Cnode.Libcfs Sbpfs.Cnode.DTree Sbpfs.Cnode.Ops Sbpfs.Cnode.Frame

/-! ## The ledger -/

abbrev Ledger := Int → Int → Option FileDes

/-- The entry of one user's number changed. -/
def enter (owned : Ledger) (uid fd : Int) (file : Option FileDes) : Ledger :=
  fun u k => if u = uid ∧ k = fd then file else owned u k

/-- The value a program returns. -/
def returned {α : Type} : Except Stop (Except Exc α × CtrlNode) → Option α
  | .ok (.ok a, _) => some a
  | _ => none

/-- The `FileDes` that an opening call makes of the node. -/
def madeBy (n : CtrlNode) : Op → Option FileDes
  | .openFile path oflags mode uid => returned (openDes path oflags mode uid n)
  | .opendir path uid => (returned (opendirDes path uid n)).map Prod.fst
  | _ => none

/-- The user a call is made for. -/
def Op.user : Op → Option Int
  | .openFile _ _ _ uid => some uid
  | .read _ _ _ uid => some uid
  | .write _ _ _ uid => some uid
  | .stat _ uid => some uid
  | .close _ uid => some uid
  | .opendir _ uid => some uid
  | .readdir _ _ uid => some uid
  | .closedir _ uid => some uid
  | .move _ _ uid => some uid
  | .remove _ uid => some uid
  | .chown _ _ uid => some uid
  | .chmod _ _ uid => some uid
  | .mkdir _ uid => some uid
  | .rmdir _ uid => some uid
  | .addBlockInfo .. => none
  | .dropUser _ => none

/-- The descriptor a call hands out. -/
def handedOut : Except Exc Value → Option Int
  | .ok (.fd fd) => some fd
  | .ok (.dir dd _) => some dd
  | _ => none

/-- The entry of the number that a closing call has closed is gone. -/
def cross (owned : Ledger) (uid : Int) (fd : Str) (r : Except Exc Value) : Ledger :=
  match r, pyInt fd with
  | .ok _, some fd => enter owned uid fd none
  | _, _ => owned

/-- The ledger after a call with the result `r`. -/
def ledger (n : CtrlNode) (op : Op) (r : Except Exc Value) (owned : Ledger) : Ledger :=
  match op with
  | .close fd uid => cross owned uid fd r
  | .closedir dd uid => cross owned uid dd r
  | op =>
    match Op.user op, handedOut r with
    | some uid, some fd => enter owned uid fd (madeBy n op)
    | _, _ => owned

/-- A node with the ledger. -/
structure Session where
  node : CtrlNode
  owned : Ledger

def Begun (s : Session) : Prop := Started s.node ∧ s.owned = fun _ _ => none

def SessionStep (s : Session) (a : Turn) (s' : Session) : Prop :=
  ∃ r, Ends s.node a r s'.node ∧
    s'.owned = ledger (CtrlNode.answering s.node a.env) a.op r s.owned

/-! ## The two operations on pools -/

/-- Every pool is sound. -/
def Partitioned (n : CtrlNode) : Prop := ∀ uid p, n.fds.lookup uid = some p → p.Partition

/-- The descriptors after a call: `uid`'s number `fd` stands for `file`, and the others for
what they did. -/
structure Entered (n : CtrlNode) (uid fd : Int) (file : Option FileDes) (n' : CtrlNode) : Prop where
  partitioned : Partitioned n'
  getFile : ∀ u k, CtrlNode.getFile n' u k = enter (CtrlNode.getFile n) uid fd file u k

section Pools

variable {n n' : CtrlNode} {uid fd : Int} {file : FileDes}

theorem partitioned_insert {p : FdPool} (hn : Partitioned n) (hp : p.Partition)
    (hfds : n'.fds = n.fds.insert uid p) : Partitioned n' := by
  intro u q hq
  rw [hfds] at hq
  by_cases hu : u = uid
  · subst hu
    rw [AList.lookup_insert] at hq
    cases hq
    exact hp
  · rw [AList.lookup_insert_ne hu] at hq
    exact hn u q hq

theorem partitioned_erase (hn : Partitioned n) (hfds : n'.fds = n.fds.erase uid) :
    Partitioned n' := by
  intro u q hq
  rw [hfds] at hq
  by_cases hu : u = uid
  · rw [hu, AList.lookup_erase] at hq
    cases hq
  · rw [AList.lookup_erase_ne hu] at hq
    exact hn u q hq

theorem getFile_insert {p : FdPool} (hfds : n'.fds = n.fds.insert uid p) (u k : Int) :
    CtrlNode.getFile n' u k = if u = uid then p.getFile k else CtrlNode.getFile n u k := by
  unfold CtrlNode.getFile
  rw [hfds]
  split
  · rename_i hu
    rw [hu, AList.lookup_insert]
    rfl
  · rename_i hu
    rw [AList.lookup_insert_ne hu]

theorem getFile_erase (hfds : n'.fds = n.fds.erase uid) (u k : Int) :
    CtrlNode.getFile n' u k = if u = uid then none else CtrlNode.getFile n u k := by
  unfold CtrlNode.getFile
  rw [hfds]
  split
  · rename_i hu
    rw [hu, AList.lookup_erase]
    rfl
  · rename_i hu
    rw [AList.lookup_erase_ne hu]

/-- The user's pool, empty when there is none. -/
theorem getFile_getD (u k : Int) :
    CtrlNode.getFile n u k = ((n.fds.lookup u).getD .empty).getFile k := by
  unfold CtrlNode.getFile
  cases n.fds.lookup u with
  | none => rfl
  | some p => rfl

theorem partition_getD (h : Partitioned n) (u : Int) :
    ((n.fds.lookup u).getD .empty).Partition := by
  cases hl : n.fds.lookup u with
  | none => exact FdPool.empty_partition
  | some p => exact h u p hl

/-- `__gen_fd` hands out a number the user does not hold and enters the file under it. -/
theorem genFd_spec {r : Except Exc Int} (h : Partitioned n)
    (hrun : genFd file uid n = .ok (r, n')) :
    ∃ fd, r = .ok fd ∧ CtrlNode.getFile n uid fd = none ∧ Entered n uid fd (some file) n' := by
  cases hrun
  have hp := partition_getD h uid
  refine ⟨_, rfl, ?_, ?_, ?_⟩
  · rw [getFile_getD]
    exact FdPool.gen_fresh hp file
  · exact partitioned_insert h (FdPool.gen_partition hp file) rfl
  · intro u k
    rw [getFile_insert rfl]
    unfold enter
    by_cases hu : u = uid
    · subst hu
      rw [if_pos rfl, FdPool.gen_getFile hp, getFile_getD]
      simp
    · rw [if_neg hu, if_neg fun hc => hu hc.1]

/-- `__des_fd` of a number in use; the pool goes with its last number. -/
theorem desFd_spec {r : Except Exc Unit} (h : Partitioned n)
    (hfile : CtrlNode.getFile n uid fd = some file) (hrun : desFd fd uid n = .ok (r, n')) :
    r = .ok () ∧ Entered n uid fd none n' := by
  obtain ⟨p, hp, hget⟩ := Option.bind_eq_some_iff.mp hfile
  have hold : ∀ k, CtrlNode.getFile n uid k = p.getFile k := by
    intro k
    unfold CtrlNode.getFile
    rw [hp]
    rfl
  obtain ⟨p', hdes⟩ : ∃ p', p.des fd = some p' := by
    cases hd : p.des fd with
    | none =>
      rw [FdPool.des_none.mp hd] at hget
      cases hget
    | some p' => exact ⟨p', rfl⟩
  have hleft : ∀ k, p'.getFile k = if k = fd then none else CtrlNode.getFile n uid k := by
    intro k
    rw [FdPool.des_getFile hdes, hold]
  obtain ⟨rfl, hfds⟩ : r = .ok () ∧
      n'.fds = if p'.isEmpty then n.fds.erase uid else n.fds.insert uid p' := by
    unfold desFd at hrun
    rw [bind_step (getState_run n)] at hrun
    simp only [hp, hdes, modifyState_run] at hrun
    cases hrun
    exact ⟨rfl, rfl⟩
  refine ⟨rfl, ?_⟩
  by_cases hempty : p'.isEmpty = true
  · rw [if_pos hempty] at hfds
    have hnone : ∀ k, p'.getFile k = none := by
      intro k
      apply AList.lookup_eq_none.mpr
      intro hm
      have hkeys : p'.usingmap.keys = [] := by
        apply List.length_eq_zero_iff.mp
        simpa [FdPool.isEmpty] using hempty
      rw [AList.mem_keys, hkeys] at hm
      cases hm
    constructor
    · exact partitioned_erase h hfds
    · intro u k
      rw [getFile_erase hfds]
      unfold enter
      by_cases hu : u = uid
      · subst hu
        have hk := hnone k
        rw [hleft] at hk
        rw [if_pos rfl]
        by_cases hkfd : k = fd
        · rw [if_pos ⟨rfl, hkfd⟩]
        · rw [if_neg fun hc => hkfd hc.2]
          rw [if_neg hkfd] at hk
          exact hk.symm
      · rw [if_neg hu, if_neg fun hc => hu hc.1]
  · rw [if_neg hempty] at hfds
    constructor
    · exact partitioned_insert h (FdPool.des_partition (h uid p hp) hdes) hfds
    · intro u k
      rw [getFile_insert hfds]
      unfold enter
      by_cases hu : u = uid
      · subst hu
        rw [if_pos rfl, hleft]
        simp
      · rw [if_neg hu, if_neg fun hc => hu hc.1]

end Pools

/-! ## One call -/

/-- The pools and the ledger agree. -/
structure PoolsSound (s : Session) : Prop where
  partition : ∀ uid p, s.node.fds.lookup uid = some p → p.Partition
  denotes : ∀ uid fd, CtrlNode.getFile s.node uid fd = s.owned uid fd

/-- The number handed out by a call is not in use, and other users' numbers stand for what
they did before. -/
structure CallSound (s : Session) (op : Op) (r : Except Exc Value) (n' : CtrlNode) : Prop where
  fresh : ∀ uid fd, Op.user op = some uid → handedOut r = some fd → s.owned uid fd = none
  isolated : ∀ uid, Op.user op ≠ some uid → ∀ fd,
    CtrlNode.getFile n' uid fd = CtrlNode.getFile s.node uid fd

section Calls

variable {n n' : CtrlNode} {op : Op} {r : Except Exc Value} {owned : Ledger}

/-- What a call with the user `uid` does to the descriptors. -/
inductive FdEffect (n : CtrlNode) (op : Op) (r : Except Exc Value) (n' : CtrlNode) : Prop
  | same (fds : n'.fds = n.fds) (books : ∀ owned, ledger n op r owned = owned)
      (hand : handedOut r = none)
  | opened (uid fd : Int) (file : FileDes) (user : Op.user op = some uid)
      (hand : handedOut r = some fd) (fresh : CtrlNode.getFile n uid fd = none)
      (made : madeBy n op = some file)
      (entered : Entered n uid fd (some file) n')
      (books : ∀ owned, ledger n op r owned = enter owned uid fd (some file))
  | closed (uid fd : Int) (user : Op.user op = some uid) (hand : handedOut r = none)
      (entered : Entered n uid fd none n')
      (books : ∀ owned, ledger n op r owned = enter owned uid fd none)

/-- A call that leaves the Python side alone and returns no descriptor. -/
theorem effect_same {α : Type} {m : Py α} {f : α → Value} (hstay : Stays OnlyC m)
    (hf : ∀ a, handedOut (.ok (f a)) = none) (hrun : (f <$> m) n = .ok (r, n'))
    (hl : ∀ owned, handedOut r = none → ledger n op r owned = owned) : FdEffect n op r n' := by
  have hnone : handedOut r = none := by
    rcases bind_done.mp hrun with ⟨e, -, rfl⟩ | ⟨a, t, -, hp⟩
    · rfl
    · obtain ⟨rfl, -⟩ := pure_done.mp hp
      exact hf a
  have honly := (stays_map f hstay).rel hrun
  exact .same honly.fds (fun owned => hl owned hnone) hnone

theorem getFile_onlyC (h : OnlyC n n') (u k : Int) :
    CtrlNode.getFile n' u k = CtrlNode.getFile n u k := by
  unfold CtrlNode.getFile
  rw [h.fds]

theorem partitioned_onlyC (h : OnlyC n n') (hn : Partitioned n) : Partitioned n' := by
  intro u p hp
  rw [h.fds] at hp
  exact hn u p hp

/-- An entry made after a part that leaves the Python side alone. -/
theorem Entered.after {t : CtrlNode} {uid fd : Int} {file : Option FileDes} (h : OnlyC n t)
    (he : Entered t uid fd file n') : Entered n uid fd file n' := by
  refine ⟨he.partitioned, fun u k => ?_⟩
  rw [he.getFile]
  unfold enter
  rw [getFile_onlyC h]

theorem effect_openFile {path oflags mode : Str} {uid : Int} (hn : Partitioned n)
    (hrun : (Op.openFile path oflags mode uid).run n = .ok (r, n')) :
    FdEffect n (.openFile path oflags mode uid) r n' := by
  rcases bind_done.mp hrun with ⟨e, he, rfl⟩ | ⟨fd, t, ho, hp⟩
  · rcases bind_done.mp he with ⟨e', he', -⟩ | ⟨file, t, ho, hg⟩
    · have honly : OnlyC _ _ := (stays_openDes path oflags mode uid).rel he'
      exact .same honly.fds (fun _ => rfl) rfl
    · have honly : OnlyC _ _ := (stays_openDes path oflags mode uid).rel ho
      obtain ⟨fd, hfd, -⟩ := genFd_spec (partitioned_onlyC honly hn) hg
      cases hfd
  · obtain ⟨rfl, rfl⟩ := pure_done.mp hp
    obtain ⟨file, t', ho, hg⟩ := bind_returns.mp ho
    have honly : OnlyC _ _ := (stays_openDes path oflags mode uid).rel ho
    obtain ⟨k, hk, hfresh, hent⟩ := genFd_spec (partitioned_onlyC honly hn) hg
    cases hk
    rw [getFile_onlyC honly] at hfresh
    have hmade : madeBy n (.openFile path oflags mode uid) = some file := by
      show returned (openDes path oflags mode uid n) = some file
      rw [ho]
      rfl
    refine .opened _ _ _ rfl rfl hfresh hmade (hent.after honly) fun owned => ?_
    rw [← hmade]
    rfl

theorem effect_opendir {path : Str} {uid : Int} (hn : Partitioned n)
    (hrun : (Op.opendir path uid).run n = .ok (r, n')) : FdEffect n (.opendir path uid) r n' := by
  rcases bind_done.mp hrun with ⟨e, he, rfl⟩ | ⟨q, t, ho, hp⟩
  · rcases bind_done.mp he with ⟨e', he', -⟩ | ⟨⟨file, entnum⟩, t, ho, hg⟩
    · have honly : OnlyC _ _ := (stays_opendirDes path uid).rel he'
      exact .same honly.fds (fun _ => rfl) rfl
    · have honly : OnlyC _ _ := (stays_opendirDes path uid).rel ho
      rcases bind_done.mp hg with ⟨e', hg, -⟩ | ⟨k, t', -, hp⟩
      · obtain ⟨fd, hfd, -⟩ := genFd_spec (partitioned_onlyC honly hn) hg
        cases hfd
      · cases hp
  · obtain ⟨rfl, rfl⟩ := pure_done.mp hp
    obtain ⟨⟨file, entnum⟩, t', hmade, hrest⟩ := bind_returns.mp ho
    obtain ⟨fd, t'', hg, hp⟩ := bind_returns.mp hrest
    cases hp
    have honly : OnlyC _ _ := (stays_opendirDes path uid).rel hmade
    obtain ⟨k, hk, hfresh, hent⟩ := genFd_spec (partitioned_onlyC honly hn) hg
    cases hk
    rw [getFile_onlyC honly] at hfresh
    have hfile : madeBy n (.opendir path uid) = some file := by
      show (returned (opendirDes path uid n)).map Prod.fst = some file
      rw [hmade]
      rfl
    refine .opened _ _ _ rfl rfl hfresh hfile (hent.after honly) fun owned => ?_
    rw [← hfile]
    rfl

/-- The number that `findFile` returns a file for is in use. -/
theorem findFile_ok {fd uid type : Int} {errType msg : String} {file : FileDes}
    (h : findFile fd uid type errType msg n = .ok (.ok file, n')) :
    n' = n ∧ CtrlNode.getFile n uid fd = some file ∧ file.type = type := by
  unfold findFile at h
  rw [bind_step (getState_run n)] at h
  cases hfound : CtrlNode.getFile n uid fd with
  | none =>
    simp only [hfound] at h
    cases h
  | some found =>
    simp only [hfound] at h
    by_cases htype : found.type = type
    · rw [if_neg (not_not_intro htype)] at h
      cases h
      exact ⟨rfl, rfl, htype⟩
    · rw [if_pos htype] at h
      cases h

/-- A text that is read as a number. -/
theorem int_ok {s : Str} {z : Int} (h : int s n = .ok (.ok z, n')) : pyInt s = some z ∧ n' = n := by
  unfold int at h
  cases hz : pyInt s with
  | none =>
    rw [hz] at h
    cases h
  | some z' =>
    rw [hz] at h
    cases h
    exact ⟨rfl, rfl⟩

/-- `close` and `closedir`. -/
def closeAs (type : Int) (errType msg : String) (fd : Str) (uid : Int) : Py Unit := do
  let fd ← int fd
  let _ ← findFile fd uid type errType msg
  desFd fd uid

theorem closeAs_spec {type : Int} {errType msg : String} {fd : Str} {uid : Int}
    {q : Except Exc Unit} (hn : Partitioned n)
    (hrun : closeAs type errType msg fd uid n = .ok (q, n')) :
    (n'.fds = n.fds ∧ ∃ e, q = .error e) ∨
      ∃ k, pyInt fd = some k ∧ q = .ok () ∧ Entered n uid k none n' := by
  have hstay : ∀ s, Stays OnlyC (int s) := stays_int
  rcases bind_done.mp hrun with ⟨e, he, rfl⟩ | ⟨k, t, hint, hrest⟩
  · exact .inl ⟨((hstay fd).rel he).fds, e, rfl⟩
  obtain ⟨hk, rfl⟩ := int_ok hint
  rcases bind_done.mp hrest with ⟨e, he, rfl⟩ | ⟨file, t', hfind, hdes⟩
  · have honly : OnlyC t n' := (stays_findFile k uid type errType msg).rel he
    exact .inl ⟨honly.fds, e, rfl⟩
  · obtain ⟨rfl, hfile, -⟩ := findFile_ok hfind
    obtain ⟨rfl, hent⟩ := desFd_spec hn hfile hdes
    exact .inr ⟨k, hk, rfl, hent⟩

theorem effect_closeAs {type : Int} {errType msg : String} {fd : Str} {uid : Int}
    (huser : Op.user op = some uid)
    (hledger : ∀ r owned, ledger n op r owned = cross owned uid fd r) (hn : Partitioned n)
    (hrun : ((fun _ => Value.none) <$> closeAs type errType msg fd uid) n = .ok (r, n')) :
    FdEffect n op r n' := by
  rcases bind_done.mp hrun with ⟨e, he, rfl⟩ | ⟨u, t, ho, hp⟩
  · rcases closeAs_spec hn he with ⟨hfds, -⟩ | ⟨k, -, hq, -⟩
    · exact .same hfds (fun owned => hledger _ owned) rfl
    · cases hq
  · obtain ⟨rfl, rfl⟩ := pure_done.mp hp
    rcases closeAs_spec hn ho with ⟨-, e, he⟩ | ⟨k, hk, -, hent⟩
    · cases he
    · refine .closed _ _ huser rfl hent fun owned => ?_
      rw [hledger]
      unfold cross
      rw [hk]

/-- What each method does to the descriptors. -/
theorem effect_run (hn : Partitioned n) (hrun : op.run n = .ok (r, n')) : FdEffect n op r n' := by
  have hidle : ∀ owned, handedOut r = none → (match Op.user op, handedOut r with
      | some uid, some fd => enter owned uid fd (madeBy n op)
      | _, _ => owned) = owned := by
    intro owned hnone
    rw [hnone]
    cases Op.user op <;> rfl
  cases op with
  | openFile path oflags mode uid => exact effect_openFile hn hrun
  | opendir path uid => exact effect_opendir hn hrun
  | close fd uid => exact effect_closeAs rfl (fun _ _ => rfl) hn hrun
  | closedir dd uid => exact effect_closeAs rfl (fun _ _ => rfl) hn hrun
  | read fd offset length uid =>
    exact effect_same (stays_read fd offset length uid) (fun _ => rfl) hrun hidle
  | write fd offset length uid =>
    exact effect_same (stays_write fd offset length uid) (fun _ => rfl) hrun hidle
  | stat path uid => exact effect_same (stays_stat path uid) (fun _ => rfl) hrun hidle
  | readdir dd entnum uid =>
      exact effect_same (stays_readdir dd entnum uid) (fun _ => rfl) hrun hidle
  | move dst src uid => exact effect_same (stays_move dst src uid) (fun _ => rfl) hrun hidle
  | remove path uid => exact effect_same (stays_remove path uid) (fun _ => rfl) hrun hidle
  | chown path newuid uid =>
      exact effect_same (stays_chown path newuid uid) (fun _ => rfl) hrun hidle
  | chmod path mode uid => exact effect_same (stays_chmod path mode uid) (fun _ => rfl) hrun hidle
  | mkdir path uid => exact effect_same (stays_mkdir path uid) (fun _ => rfl) hrun hidle
  | rmdir path uid => exact effect_same (stays_rmdir path uid) (fun _ => rfl) hrun hidle
  | addBlockInfo order l user ip =>
    cases hrun
    exact .same rfl (fun _ => rfl) rfl
  | dropUser user =>
    cases hrun
    exact .same rfl (fun _ => rfl) rfl

end Calls

/-! ## Runs -/

theorem answering_getFile (n : CtrlNode) (e : Env) (u k : Int) :
    CtrlNode.getFile (CtrlNode.answering n e) u k = CtrlNode.getFile n u k := rfl

theorem callSound {s : Session} {a : Turn} {r : Except Exc Value} {n' : CtrlNode}
    (h : PoolsSound s) (hends : Ends s.node a r n') : CallSound s a.op r n' := by
  have heff := effect_run (n := CtrlNode.answering s.node a.env) h.partition hends.2
  cases heff with
  | same hfds _ hnone =>
    constructor
    · intro uid fd _ hfd
      rw [hnone] at hfd
      cases hfd
    · intro uid _ fd
      unfold CtrlNode.getFile
      rw [hfds]
      rfl
  | opened uid fd file huser hhand hfresh _ hent _ =>
    constructor
    · intro uid' fd' huser' hfd'
      rw [huser] at huser'
      rw [hhand] at hfd'
      cases huser'
      cases hfd'
      rw [← h.denotes]
      exact hfresh
    · intro uid' hne k
      rw [hent.getFile]
      exact if_neg fun hc => hne (huser.trans (congrArg some hc.1.symm))
  | closed uid fd huser hhand hent _ =>
    constructor
    · intro uid' fd' _ hfd'
      rw [hhand] at hfd'
      cases hfd'
    · intro uid' hne k
      rw [hent.getFile]
      exact if_neg fun hc => hne (huser.trans (congrArg some hc.1.symm))

theorem poolsSound_step {s s' : Session} {a : Turn} (h : PoolsSound s)
    (hs : SessionStep s a s') : PoolsSound s' := by
  obtain ⟨r, hends, hledger⟩ := hs
  have heff := effect_run (n := CtrlNode.answering s.node a.env) h.partition hends.2
  have henter : ∀ {uid fd : Int} {file : Option FileDes},
      Entered (CtrlNode.answering s.node a.env) uid fd file s'.node →
      s'.owned = enter s.owned uid fd file → PoolsSound s' := by
    intro uid fd file hent howned
    refine ⟨hent.partitioned, fun u k => ?_⟩
    rw [hent.getFile, howned]
    unfold enter
    rw [answering_getFile, h.denotes]
  cases heff with
  | same hfds hsame _ =>
    constructor
    · intro uid p hp
      rw [hfds] at hp
      exact h.partition uid p hp
    · intro uid fd
      rw [hledger, hsame, ← h.denotes]
      unfold CtrlNode.getFile
      rw [hfds]
      rfl
  | opened _ _ _ _ _ _ _ hent hled => exact henter hent (hledger.trans (hled _))
  | closed _ _ _ _ hent hled => exact henter hent (hledger.trans (hled _))

theorem poolsSound_begun {s : Session} (h : Begun s) : PoolsSound s := by
  obtain ⟨hstart, howned⟩ := h
  constructor
  · intro uid p hp
    rw [hstart.fds] at hp
    cases hp
  · intro uid fd
    unfold CtrlNode.getFile
    rw [hstart.fds, howned]
    rfl

/-- After every run of method calls by any users the pools and the ledger agree, and the
next call hands out no number that is in use and touches nobody else's. -/
theorem descriptorPools_run {s : Session} (h : Reach Begun SessionStep s) :
    PoolsSound s ∧ ∀ a r n', Ends s.node a r n' → CallSound s a.op r n' := by
  have hsound : PoolsSound s :=
    h.inv (fun _ hs => poolsSound_begun hs) fun _ _ _ hi hs => poolsSound_step hi hs
  exact ⟨hsound, fun a r n' hends => callSound hsound hends⟩

/-! ## A run on a fresh disk -/

/-- A control node that starts on a fresh disk. -/
def bootNode : Option CtrlNode :=
  (execFresh calm blank []).map fun q => startedNode ⟨q.2.dt, q.2.ipIndex, calm⟩

/-- Calls on a node that has just started, no allocation failing. -/
def runOps (ops : List Op) : Option (List (Except Exc Value) × CtrlNode) :=
  bootNode.bind fun n => execOps (ops.map fun op => ⟨op, calm⟩) n

theorem bootNode_fresh {n : CtrlNode} (h : bootNode = some n) :
    Started n ∧ Fresh ⟨n.world.dt, n.world.ipIndex, []⟩ := by
  obtain ⟨⟨rs, s⟩, hs, rfl⟩ := Option.map_eq_some_iff.mp h
  refine ⟨startedNode_started _, ?_⟩
  have hfresh := fresh_exec (calm_succeeds _) hs
  obtain ⟨w, w', hmem, hip, hrun, rfl⟩ := hfresh
  exact ⟨w, w', hmem, hip, hrun, rfl⟩

/-- Such calls are a run of a session. -/
theorem reach_runOps {ops : List Op} {rs : List (Except Exc Value)} {n : CtrlNode}
    (h : runOps ops = some (rs, n)) : ∃ s : Session, s.node = n ∧ Reach Begun SessionStep s := by
  obtain ⟨n₀, hboot, hexec⟩ := Option.bind_eq_some_iff.mp h
  have hbegun : Reach Begun SessionStep (⟨n₀, fun _ _ => none⟩ : Session) :=
    .init ⟨(bootNode_fresh hboot).1, rfl⟩
  have hnext : ∀ (a : Turn) (s : Session) r n', Ends s.node a r n' →
      ∃ s' : Session, s'.node = n' ∧ SessionStep s a s' :=
    fun a s r n' hends => ⟨⟨n', _⟩, rfl, r, hends, rfl⟩
  exact @reach_execOps _ Session.node _ _ _ _ _ _ (fun a _ => hnext a) hbegun hexec

/-- Opening a new file on a fresh disk. -/
def openA : List Op := [.openFile (ascii "/a") (ascii "1") (ascii "15") 0]

theorem descriptorPools_run_openA :
    ∃ s, Reach Begun SessionStep s ∧ CtrlNode.getFile s.node 0 0 = some ⟨2, 1, S_FIL⟩ ∧
      s.owned 0 0 = some ⟨2, 1, S_FIL⟩ := by
  have hrun : (runOps openA).map (fun q => CtrlNode.getFile q.2 0 0)
    = some (some ⟨2, 1, S_FIL⟩) := by
    decide +kernel
  obtain ⟨⟨rs, n'⟩, hops, hget⟩ := Option.map_eq_some_iff.mp hrun
  obtain ⟨s, rfl, hreach⟩ := reach_runOps hops
  refine ⟨s, hreach, hget, ?_⟩
  rw [← (descriptorPools_run hreach).1.denotes]
  exact hget

end Sbpfs.Cnode.Descriptors
