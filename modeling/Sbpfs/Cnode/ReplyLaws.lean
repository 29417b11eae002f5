import Sbpfs.Cnode.Descriptors
import Sbpfs.Cnode.DiskSteps
import Sbpfs.Cnode.Dispatch
import Sbpfs.Cnode.FieldSpec
import Sbpfs.Cnode.OpenObjects

/-!
# One reply for a request

When the handler of a client answers with one message and comes back. It does so unless an
`Argc` or a method cannot be understood, a number does not fit a byte of the library, or
blocks are to be read whose data nodes are not known.
-/
namespace Sbpfs.Cnode.ReplyLaws

open Sbpfs.Lib.Program Sbpfs.Lib.Raise
open Sbpfs.Cfs.Data
open Sbpfs.Cfs.Layout (CStr CM)
open Sbpfs.Wire.Head Sbpfs.Wire.Number Sbpfs.Libc.Request
open Sbpfs.Cnode.Pool Sbpfs.Cnode.Libcfs Sbpfs.Cnode.DTree Sbpfs.Cnode.Ops Sbpfs.Cnode.Frame
open Sbpfs.Cnode.Descriptors Sbpfs.Cnode.DiskSteps Sbpfs.Cnode.OpenObjects Sbpfs.Cnode.FieldSpec
open Sbpfs.Cnode.Dispatch
open Sbpfs.Cnode.Users (UsersInfo)

/-! ## What the handler answers -/

/-- An exception that one of the clauses names. -/
def Caught : Exc → Prop
  | .dtree _ _ => True
  | .typeError _ => True
  | .valueError => True
  | _ => False

/-- One more reply has been sent, OK or ERROR. -/
def Replied (c c' : Conn) : Prop :=
  ∃ reply, c'.sent = c.sent ++ [reply] ∧
    (reply.statusline = ascii "SBPFS/1.0 OK" ∨ reply.statusline = ascii "SBPFS/1.0 ERROR")

/-- The program sends one reply and comes back without an exception. -/
def Once (m : Serve Unit) (c : Conn) : Prop := ∃ c', m c = .ok (.ok (), c') ∧ Replied c c'

/-- The program comes back, with a value or with an exception that is caught. -/
def Served {α : Type} (m : Py α) (n : CtrlNode) : Prop :=
  ∃ r n', m n = .ok (r, n') ∧ ∀ e, r = .error e → Caught e

section Once

variable {c : Conn} {α : Type}

theorem once_senderr (type detail : Str) (c : Conn) : Once (senderr type detail) c :=
  ⟨_, rfl, _, rfl, .inr rfl⟩

theorem once_sendrep (d : Dict) (data : Value) (c : Conn) : Once (sendrep d data) c :=
  ⟨_, rfl, _, rfl, .inl rfl⟩

theorem once_raise (e : Exc) (h : Caught e) (c : Conn) :
    Once (exceptArguments (exceptDTree (raise e))) c := by
  have hraise : (raise e : Serve Unit) c = .ok (.error e, c) := rfl
  cases e with
  | dtree type msg =>
    obtain ⟨c', hrun, hreply⟩ := once_senderr type msg c
    exact ⟨c', rescue_returns ((rescue_handled hraise rfl).trans hrun), hreply⟩
  | typeError msg =>
    obtain ⟨c', hrun, hreply⟩ := once_senderr (ascii "ArguementError") msg c
    exact ⟨c', (rescue_handled (rescue_raise hraise rfl) rfl).trans hrun, hreply⟩
  | valueError =>
    obtain ⟨c', hrun, hreply⟩ := once_senderr (ascii "ArguementError") (ascii "Wrong type") c
    exact ⟨c', (rescue_handled (rescue_raise hraise rfl) rfl).trans hrun, hreply⟩
  | keyError => exact h.elim
  | overflowError => exact h.elim
  | memoryError => exact h.elim
  | unboundLocalError => exact h.elim

/-- A clause for one kind of exception only looks at what was raised. -/
theorem rescued_congr {m m' : Serve Unit} {h : Exc → Option (Serve Unit)} {c₁ c₂ : Conn}
    (he : m c₁ = m' c₂) : rescue m h c₁ = rescue m' h c₂ := by
  unfold rescue
  rw [he]

/-- What a method of `DTree` raises uncaught, the handler raises. -/
theorem escaped {e : Exc} (h : ¬ Caught e) (c : Conn) :
    exceptArguments (exceptDTree (raise e)) c = .ok (.error e, c) := by
  cases e with
  | dtree type msg => exact absurd trivial h
  | typeError msg => exact absurd trivial h
  | valueError => exact absurd trivial h
  | keyError => rfl
  | overflowError => rfl
  | memoryError => rfl
  | unboundLocalError => rfl

/-- A method of `DTree` is answered once exactly when it comes back without an exception that
is not caught. -/
theorem once_answer_iff (m : Py α) {rep : α → Serve Unit} (hrep : ∀ a c, Once (rep a) c) :
    Once (exceptArguments (answer m rep)) c ↔ Served m c.node := by
  cases hm : m c.node with
  | error stop =>
    have hstop : exceptArguments (answer m rep) c = .error stop :=
      rescue_stop (rescue_stop (bind_stop (within_stop hm) rep))
    constructor
    · rintro ⟨c', hrun, -⟩
      rw [hstop] at hrun
      cases hrun
    · rintro ⟨r, n', hrun, -⟩
      rw [hm] at hrun
      cases hrun
  | ok q =>
    obtain ⟨r, n'⟩ := q
    have hcall : onDTree m c = .ok (r, { c with node := n' }) := within_run hm
    cases r with
    | error e =>
      have hbody : (onDTree m >>= rep) c = .ok (.error e, { c with node := n' }) :=
        bind_raise hcall rep
      have heq : exceptArguments (answer m rep) c
          = exceptArguments (exceptDTree (raise e)) { c with node := n' } :=
        rescued_congr (rescued_congr hbody)
      constructor
      · rintro ⟨c', hrun, -⟩
        refine ⟨_, n', hm, fun e' he => ?_⟩
        cases he
        by_contra hcaught
        rw [heq, escaped hcaught] at hrun
        cases hrun
      · rintro ⟨r', t, hrun, hcaught⟩
        rw [hm] at hrun
        cases hrun
        obtain ⟨c', hc, hreply⟩ := once_raise e (hcaught e rfl) { c with node := n' }
        exact ⟨c', heq.trans hc, hreply⟩
    | ok a =>
      obtain ⟨c', hrun, hreply⟩ := hrep a { c with node := n' }
      constructor
      · intro
        exact ⟨_, n', hm, fun e he => nomatch he⟩
      · intro
        refine ⟨c', ?_, hreply⟩
        exact rescue_returns (rescue_returns ((bind_step hcall rep).trans hrun))

theorem once_generic_iff (m : Py Unit) :
    Once (exceptArguments (genericDoMethod m)) c ↔ Served m c.node :=
  once_answer_iff m fun _ c => once_sendrep _ _ c

end Once

/-! ## What the methods raise -/

section Caught

variable {α : Type}

theorem caught_argS (i : Nat) (s : Str) : Raises Caught (argS i s) := by
  unfold argS
  split
  · exact raises_pure _
  · exact raises_raise trivial

theorem caught_int (s : Str) : Raises Caught (int s) := by
  unfold int
  split
  · exact raises_pure _
  · exact raises_raise trivial

theorem caught_inC (m : CM α) : Raises Caught (inC m) := raises_onPart _ _ _

theorem caught_raiseDTree (type msg : String) : Raises Caught (raiseDTree type msg : Py α) :=
  raises_raise trivial

theorem caught_raiseWith (type msg : String) (z : Int) :
    Raises Caught (raiseWith type msg z : Py α) := raises_raise trivial

theorem caught_withPath (path : CStr) (null : α) (c : LibCall) (m : CM α) :
    Raises Caught (withPath path null c m) := by
  apply raises_bind (caught_inC _)
  intro b
  cases b with
  | none => exact raises_pure _
  | some b => exact raises_bind (raises_modifyState _) fun _ => caught_inC m

theorem caught_checkRet (ret : Int) (errors : List (Int × String × String)) :
    Raises Caught (checkRet ret errors) := by
  unfold checkRet
  split
  · exact caught_raiseDTree _ _
  · exact raises_ite (caught_raiseDTree _ _) (raises_pure _)

theorem caught_findFile (fd uid type : Int) (errType msg : String) :
    Raises Caught (findFile fd uid type errType msg) := by
  apply raises_bind raises_getState
  intro n
  split
  · exact caught_raiseWith _ _ _
  · exact raises_ite (caught_raiseWith _ _ _) (raises_pure _)

theorem caught_isFileLost (path : Str) : Raises Caught (isFileLost path) := by
  apply raises_bind (raises_bind (caught_argS _ _) fun _ => caught_withPath _ _ _ _)
  intro l
  cases l with
  | none => exact raises_pure _
  | some l => exact raises_bind raises_getState fun _ => raises_pure _

theorem caught_genFd (file : FileDes) (uid : Int) : Raises Caught (genFd file uid) :=
  raises_bind raises_getState fun _ => raises_bind (raises_modifyState _) fun _ => raises_pure _

theorem caught_stat (path : Str) (uid : Int) : Raises Caught (DTree.stat path uid) := by
  apply raises_bind (raises_bind (caught_argS _ _) fun _ => caught_withPath _ _ _ _)
  intro data
  cases data with
  | none => exact caught_raiseDTree _ _
  | some data => exact raises_pure _

theorem caught_opendir (path : Str) (uid : Int) : Raises Caught (DTree.opendir path uid) := by
  have hdes : Raises Caught (opendirDes path uid) := by
    apply raises_bind (raises_bind (caught_argS _ _) fun _ => raises_bind raises_getState fun _ =>
      caught_withPath _ _ _ _)
    intro q
    cases q with
    | none => exact caught_raiseDTree _ _
    | some q =>
      apply raises_ite (caught_raiseDTree _ _)
      apply raises_ite (caught_raiseDTree _ _)
      exact raises_ite (caught_raiseDTree _ _) (raises_pure _)
  exact raises_bind hdes fun _ => raises_bind (caught_genFd _ _) fun _ => raises_pure _

theorem caught_readdir (dd entnum : Str) (uid : Int) :
    Raises Caught (DTree.readdir dd entnum uid) := by
  apply raises_bind (caught_int _)
  intro dd
  apply raises_bind (caught_int _)
  intro entnum
  apply raises_bind (caught_findFile _ _ _ _ _)
  intro file
  have hwrap : Raises Caught (wrapCReaddir file.fb entnum uid) :=
    raises_bind (raises_modifyState _) fun _ => raises_bind (caught_inC _) fun _ =>
      raises_ite (raises_pure _) (raises_pure _)
  apply raises_bind hwrap
  intro ret
  cases ret with
  | none => exact caught_raiseDTree _ _
  | some ret => exact raises_pure _

theorem caught_wrapCWrite (fb offset length : Int) (ips : Str) (uid : Int) :
    Raises Caught (wrapCWrite fb offset length ips uid) := by
  apply raises_bind (caught_argS _ _)
  intro tmp
  apply raises_bind (caught_inC _)
  intro b
  cases b with
  | none => exact raises_pure _
  | some b =>
    apply raises_bind (caught_inC _)
    intro b'
    cases b' with
    | none => exact raises_pure _
    | some b' =>
      exact raises_bind (caught_inC _) fun _ => raises_bind (raises_modifyState _) fun _ =>
        raises_bind (caught_inC _) fun _ => raises_pure _

theorem caught_write (fd offset length : Str) (uid : Int) :
    Raises Caught (DTree.write fd offset length uid) := by
  apply raises_bind (caught_int _)
  intro fd
  apply raises_bind (caught_int _)
  intro offset
  apply raises_bind (caught_int _)
  intro length
  apply raises_bind raises_getState
  intro n
  apply raises_ite (caught_raiseDTree _ _)
  apply raises_bind (caught_findFile _ _ _ _ _)
  intro file
  apply raises_ite (caught_raiseWith _ _ _)
  apply raises_bind (caught_wrapCWrite _ _ _ _ _)
  intro data
  cases data with
  | none => exact caught_raiseDTree _ _
  | some data => exact raises_pure _

theorem caught_move (dst src : Str) (uid : Int) : Raises Caught (DTree.move dst src uid) := by
  have hwrap : Raises Caught (wrapCMove dst src uid) :=
    raises_bind (caught_argS _ _) fun _ => raises_bind (caught_argS _ _) fun _ =>
      raises_bind (caught_inC _) fun _ => raises_bind (raises_modifyState _) fun _ => caught_inC _
  exact raises_bind hwrap fun _ => caught_checkRet _ _

/-- A call with a path and the check of its value. -/
theorem caught_pathCall {path : Str} {lc : CStr → LibCall} {m : CStr → CM Int}
    {errors : List (Int × String × String)} :
    Raises Caught ((argS 2 path >>= fun p => withPath p (-1) (lc p) (m p)) >>=
      fun ret => checkRet ret errors) :=
  raises_bind (raises_bind (caught_argS _ _) fun _ => caught_withPath _ _ _ _) fun _ =>
    caught_checkRet _ _

/-- The pool of a number in use is there when the number is given back. -/
theorem caught_closeAs (type : Int) (errType msg : String) (fd : Str) (uid : Int) :
    Raises Caught (closeAs type errType msg fd uid) := by
  apply raises_bind (caught_int _)
  intro k
  constructor
  intro n n' e h
  rcases bind_done.mp h with ⟨e', he, hr⟩ | ⟨file, t, hfind, hdes⟩
  · cases hr
    exact (caught_findFile _ _ _ _ _).exc he
  obtain ⟨rfl, hget, -⟩ := findFile_ok hfind
  unfold desFd at hdes
  rw [bind_step (getState_run t)] at hdes
  obtain ⟨p, hp, -⟩ := Option.bind_eq_some_iff.mp hget
  cases hd : p.des k with
  | none =>
    simp only [hp, hd] at hdes
    exact (caught_raiseWith _ _ _).exc hdes
  | some p' =>
    simp only [hp, hd] at hdes
    cases hdes

end Caught

/-! ## What they raise uncaught -/

/-- What the format `b` takes. -/
def IsByte (z : Int) : Prop := 0 ≤ z ∧ z ≤ 255

/-- A data node has reported the block, and the address of each that has is known. -/
def Located (n : CtrlNode) (block : Nat) : Prop :=
  ∃ users, n.blockmap.lookup block = some users ∧ ∀ user ∈ users, (n.ipmap.lookup user).isSome

/-- The call ends with an exception that is not caught, if it ends: the library is to be
called with a number that is no byte, or has found a block that is not known. -/
def Escapes (n : CtrlNode) : Op → Prop
  | .openFile path oflags mode _ => ∃ p lost t o m, cstrOf path = some p ∧
      isFileLost path n = .ok (.ok lost, t) ∧ lost ≠ some true ∧ pyInt oflags = some o ∧
      pyInt mode = some m ∧ ¬ (IsByte o ∧ IsByte m)
  | .chmod path mode _ => ∃ p m, cstrOf path = some p ∧ pyInt mode = some m ∧ ¬ IsByte m
  | .read fd offset length uid => ∃ k o l file blocks t, pyInt fd = some k ∧
      pyInt offset = some o ∧ pyInt length = some l ∧ CtrlNode.getFile n uid k = some file ∧
      file.type = S_FIL ∧ mayUse file SBP_O_RDONLY = true ∧
      wrapCRead file.fb o l uid n = .ok (.ok (some blocks), t) ∧
      ∃ b ∈ blocks, ¬ Located n b.blockNum
  | _ => False

section Escapes

variable {n n' : CtrlNode} {α : Type}

theorem argB_byte {z : Int} (h : IsByte z) (n : CtrlNode) :
    argB z n = .ok (.ok (UInt8.ofNat z.toNat), n) := by
  have hz : 0 ≤ z ∧ z ≤ 255 := h
  unfold argB
  rw [if_pos hz]
  rfl

theorem argB_escapes {z : Int} (h : ¬ IsByte z) (n : CtrlNode) :
    argB z n = .ok (.error .overflowError, n) := by
  have hz : ¬ (0 ≤ z ∧ z ≤ 255) := h
  unfold argB
  rw [if_neg hz]
  rfl

theorem argS_some {i : Nat} {s : Str} {p : CStr} (h : cstrOf s = some p) (n : CtrlNode) :
    argS i s n = .ok (.ok p, n) := by
  unfold argS
  rw [h]
  rfl

theorem argS_none {i : Nat} {s : Str} (h : cstrOf s = none) (n : CtrlNode) :
    ∃ msg, argS i s n = .ok (.error (.typeError msg), n) := by
  unfold argS
  rw [h]
  exact ⟨_, rfl⟩

theorem int_some {s : Str} {z : Int} (h : pyInt s = some z) (n : CtrlNode) :
    int s n = .ok (.ok z, n) := by
  unfold int
  rw [h]
  rfl

theorem int_none {s : Str} (h : pyInt s = none) (n : CtrlNode) :
    int s n = .ok (.error .valueError, n) := by
  unfold int
  rw [h]
  rfl

theorem findFile_some {k uid type : Int} {errType msg : String} {file : FileDes}
    (hget : CtrlNode.getFile n uid k = some file) (htype : file.type = type) :
    findFile k uid type errType msg n = .ok (.ok file, n) := by
  unfold findFile
  rw [bind_step (getState_run n)]
  simp only [hget]
  rw [if_neg (not_not_intro htype)]
  rfl

theorem uncaught_wrapCOpen {path : Str} {o m uid : Int} {e : Exc} (he : ¬ Caught e)
    (h : wrapCOpen path o m uid n = .ok (.error e, n')) : ¬ (IsByte o ∧ IsByte m) := by
  rintro ⟨ho, hm⟩
  rcases bind_done.mp h with ⟨e', harg, hr⟩ | ⟨p, t, -, h₁⟩
  · cases hr
    exact he ((caught_argS _ _).exc harg)
  rw [bind_step (argB_byte ho t), bind_step (argB_byte hm t)] at h₁
  exact he ((caught_withPath _ _ _ _).exc h₁)

theorem uncaught_wrapCChmod {path : Str} {m uid : Int} {e : Exc} (he : ¬ Caught e)
    (h : wrapCChmod path m uid n = .ok (.error e, n')) :
    ∃ p, cstrOf path = some p ∧ ¬ IsByte m := by
  rcases bind_done.mp h with ⟨e', harg, hr⟩ | ⟨p, t, harg, h₁⟩
  · cases hr
    exact absurd ((caught_argS _ _).exc harg) he
  refine ⟨p, (argS_done harg).2 p rfl, fun hm => ?_⟩
  rw [bind_step (argB_byte hm t)] at h₁
  exact he ((caught_withPath _ _ _ _).exc h₁)

theorem uncaught_openFile {path oflags mode : Str} {uid : Int} {e : Exc} (he : ¬ Caught e)
    (h : DTree.openFile path oflags mode uid n = .ok (.error e, n')) :
    Escapes n (.openFile path oflags mode uid) := by
  rcases bind_done.mp h with ⟨e', hdes, hr⟩ | ⟨file, t, -, hgen⟩
  · cases hr
    rcases bind_done.mp hdes with ⟨e', hlost, hr⟩ | ⟨lost, t, hlost, h₁⟩
    · cases hr
      exact absurd ((caught_isFileLost _).exc hlost) he
    by_cases hl : lost = some true
    · rw [if_pos hl] at h₁
      cases h₁
      exact absurd trivial he
    rw [if_neg hl] at h₁
    rcases bind_done.mp h₁ with ⟨e', hint, hr⟩ | ⟨o, t₁, hint, h₂⟩
    · cases hr
      exact absurd ((caught_int _).exc hint) he
    obtain ⟨rfl, ho⟩ := int_done hint
    rcases bind_done.mp h₂ with ⟨e', hint, hr⟩ | ⟨m, t₂, hint, h₃⟩
    · cases hr
      exact absurd ((caught_int _).exc hint) he
    obtain ⟨rfl, hm⟩ := int_done hint
    obtain ⟨p, hp⟩ : ∃ p, cstrOf path = some p := by
      obtain ⟨q, t, hwrap, -⟩ := bind_returns.mp hlost
      obtain ⟨p, t', harg, -⟩ := bind_returns.mp hwrap
      exact ⟨p, (argS_done harg).2 p rfl⟩
    rcases bind_done.mp h₃ with ⟨e', hopen, hr⟩ | ⟨fb, t₃, -, h₄⟩
    · cases hr
      exact ⟨p, lost, _, o, m, hp, hlost, hl, ho o rfl, hm m rfl, uncaught_wrapCOpen he hopen⟩
    · have hcaught : Raises Caught (if fb = -1 then raiseDTree "OpenError" "No such file"
          else if fb = -2 then raiseDTree "OpenError" "Cannot open a directory"
          else if fb = -4 then raiseDTree "PermissionError" "Permission denied"
          else if fb < 0 then raiseDTree "OpenError" "Unknown error"
          else pure ⟨fb, o, S_FIL⟩ : Py FileDes) :=
        raises_ite (caught_raiseDTree _ _) (raises_ite (caught_raiseDTree _ _)
          (raises_ite (caught_raiseDTree _ _) (raises_ite (caught_raiseDTree _ _) (raises_pure _))))
      exact absurd (hcaught.exc h₄) he
  · exact absurd ((caught_genFd _ _).exc hgen) he

theorem uncaught_chmod {path mode : Str} {uid : Int} {e : Exc} (he : ¬ Caught e)
    (h : DTree.chmod path mode uid n = .ok (.error e, n')) :
    Escapes n (.chmod path mode uid) := by
  rcases bind_done.mp h with ⟨e', hint, hr⟩ | ⟨m, t, hint, h₁⟩
  · cases hr
    exact absurd ((caught_int _).exc hint) he
  obtain ⟨rfl, hm⟩ := int_done hint
  rcases bind_done.mp h₁ with ⟨e', hcall, hr⟩ | ⟨ret, t, -, hcheck⟩
  · cases hr
    obtain ⟨p, hp, hbyte⟩ := uncaught_wrapCChmod he hcall
    exact ⟨p, m, hp, hm m rfl, hbyte⟩
  · exact absurd ((caught_checkRet _ _).exc hcheck) he

/-- What `__flit_read` leaves of a block: the addresses of users that have it. -/
def sieve (n : CtrlNode) (b : SendBlock) : SendBlock :=
  { b with ip := b.ip.map fun ip => if ∃ user ∈ (n.blockmap.lookup b.blockNum).getD ∅,
    n.ipmap.lookup user = some (long2ip ip) then ip else 0 }

theorem flitBlock_located {b : SendBlock} (h : Located n b.blockNum) :
    flitBlock b n = .ok (.ok (sieve n b), n) := by
  obtain ⟨users, hu, hall⟩ := h
  unfold flitBlock sieve
  rw [bind_step (getState_run n), hu]
  dsimp only
  rw [if_pos hall]
  rfl

theorem flitBlock_missing {b : SendBlock} (h : ¬ Located n b.blockNum) :
    flitBlock b n = .ok (.error .keyError, n) := by
  unfold flitBlock
  rw [bind_step (getState_run n)]
  cases hu : n.blockmap.lookup b.blockNum with
  | none => rfl
  | some users =>
    have hall : ¬ ∀ user ∈ users, (n.ipmap.lookup user).isSome := fun hall => h ⟨users, hu, hall⟩
    dsimp only
    rw [if_neg hall]
    rfl

/-- `__flit_read` finds every block, -/
theorem flitRead_located {blocks : List SendBlock} (h : ∀ b ∈ blocks, Located n b.blockNum) :
    flitRead blocks n = .ok (.ok (blocks.map (sieve n)), n) := by
  induction blocks with
  | nil => rfl
  | cons b blocks ih =>
    have hrest := ih fun b hb => h b (List.mem_cons_of_mem _ hb)
    exact (bind_step (flitBlock_located (h b (List.mem_cons_self ..))) _).trans
      (bind_step hrest _)

/-- or raises a KeyError at the first that it does not. -/
theorem flitRead_missing {blocks : List SendBlock} (h : ∃ b ∈ blocks, ¬ Located n b.blockNum) :
    flitRead blocks n = .ok (.error .keyError, n) := by
  induction blocks with
  | nil =>
    obtain ⟨b, hb, -⟩ := h
    exact (List.not_mem_nil hb).elim
  | cons b blocks ih =>
    by_cases hb : Located n b.blockNum
    · obtain ⟨b', hb', hnot⟩ := h
      have hrest : b' ∈ blocks := (List.mem_cons.mp hb').resolve_left fun he => hnot (he ▸ hb)
      exact (bind_step (flitBlock_located hb) _).trans (bind_raise (ih ⟨b', hrest, hnot⟩) _)
    · exact bind_raise (flitBlock_missing hb) _

theorem located_onlyC (h : OnlyC n n') (block : Nat) : Located n' block ↔ Located n block := by
  unfold Located
  rw [h.blockmap, h.ipmap]

theorem uncaught_read {fd offset length : Str} {uid : Int} {e : Exc} (he : ¬ Caught e)
    (h : DTree.read fd offset length uid n = .ok (.error e, n')) :
    Escapes n (.read fd offset length uid) := by
  rcases bind_done.mp h with ⟨e', hint, hr⟩ | ⟨k, t, hint, h₁⟩
  · cases hr
    exact absurd ((caught_int _).exc hint) he
  obtain ⟨rfl, hk⟩ := int_done hint
  rcases bind_done.mp h₁ with ⟨e', hint, hr⟩ | ⟨o, t, hint, h₂⟩
  · cases hr
    exact absurd ((caught_int _).exc hint) he
  obtain ⟨rfl, ho⟩ := int_done hint
  rcases bind_done.mp h₂ with ⟨e', hint, hr⟩ | ⟨l, t, hint, h₃⟩
  · cases hr
    exact absurd ((caught_int _).exc hint) he
  obtain ⟨rfl, hl⟩ := int_done hint
  rcases bind_done.mp h₃ with ⟨e', hfind, hr⟩ | ⟨file, t, hfind, h₄⟩
  · cases hr
    exact absurd ((caught_findFile _ _ _ _ _).exc hfind) he
  obtain ⟨rfl, hget, htype⟩ := findFile_ok hfind
  by_cases hmay : (!mayUse file SBP_O_RDONLY) = true
  · rw [if_pos hmay] at h₄
    exact absurd ((caught_raiseWith _ _ _).exc h₄) he
  rw [if_neg hmay] at h₄
  rcases bind_done.mp h₄ with ⟨e', hcall, hr⟩ | ⟨data, t, hcall, h₅⟩
  · cases hr
    have hwrap : Raises Caught (wrapCRead file.fb o l uid) :=
      raises_bind (caught_inC _) fun _ => raises_bind (raises_modifyState _) fun _ =>
        raises_bind (caught_inC _) fun _ => raises_pure _
    exact absurd (hwrap.exc hcall) he
  cases data with
  | none => exact absurd ((caught_raiseDTree _ _).exc h₅) he
  | some blocks =>
    have honly : OnlyC _ t := (stays_wrapCRead (stays_record _)).rel hcall
    by_cases hall : ∀ b ∈ blocks, Located t b.blockNum
    · cases (flitRead_located hall).symm.trans h₅
    · simp only [not_forall] at hall
      obtain ⟨b, hb, hnot⟩ := hall
      refine ⟨k, o, l, file, blocks, t, hk k rfl, ho o rfl, hl l rfl, hget, htype, ?_, hcall, b, hb,
        ?_⟩
      · simpa using hmay
      · rwa [← located_onlyC honly]

/-- What is not caught is one of those that escape. -/
theorem uncaught_run {op : Op} {e : Exc} (he : ¬ Caught e) (h : op.run n = .ok (.error e, n')) :
    Escapes n op := by
  have hmap : ∀ {β : Type} {m : Py β} {f : β → Value}, (f <$> m) n = .ok (.error e, n') →
      m n = .ok (.error e, n') := by
    intro β m f h
    rcases bind_done.mp h with ⟨e', he', hr⟩ | ⟨a, t, -, hp⟩
    · cases hr
      exact he'
    · cases hp
  have hno : ∀ {β : Type} {m : Py β} {f : β → Value}, Raises Caught m →
      (f <$> m) n = .ok (.error e, n') → False := fun hm h => he (hm.exc (hmap h))
  cases op with
  | openFile path oflags mode uid => exact uncaught_openFile he (hmap h)
  | chmod path mode uid => exact uncaught_chmod he (hmap h)
  | read fd offset length uid => exact uncaught_read he (hmap h)
  | write fd offset length uid => exact hno (caught_write fd offset length uid) h
  | stat path uid => exact hno (caught_stat path uid) h
  | close fd uid => exact hno (caught_closeAs _ _ _ fd uid) h
  | opendir path uid => exact hno (caught_opendir path uid) h
  | readdir dd entnum uid => exact hno (caught_readdir dd entnum uid) h
  | closedir dd uid => exact hno (caught_closeAs _ _ _ dd uid) h
  | move dst src uid => exact hno (caught_move dst src uid) h
  | remove path uid => exact hno caught_pathCall h
  | chown path newuid uid => exact hno caught_pathCall h
  | mkdir path uid => exact hno caught_pathCall h
  | rmdir path uid => exact hno caught_pathCall h
  | addBlockInfo order l user ip => cases h
  | dropUser user => cases h

/-- What escapes is not caught. -/
theorem escapes_run {op : Op} (h : Escapes n op) :
    ∃ e n', op.run n = .ok (.error e, n') ∧ ¬ Caught e := by
  cases op with
  | openFile path oflags mode uid =>
    obtain ⟨p, lost, t, o, m, hp, hlost, hl, ho, hm, hbyte⟩ := h
    have hopen : wrapCOpen path o m uid t = .ok (.error .overflowError, t) := by
      refine (bind_step (argS_some hp t) _).trans ?_
      by_cases hob : IsByte o
      · refine (bind_step (argB_byte hob t) _).trans ?_
        exact bind_raise (argB_escapes (fun hmb => hbyte ⟨hob, hmb⟩) t) _
      · exact bind_raise (argB_escapes hob t) _
    have hdes : openDes path oflags mode uid n = .ok (.error .overflowError, t) := by
      refine (bind_step hlost _).trans ?_
      rw [if_neg hl]
      exact (bind_step (int_some ho t) _).trans
        ((bind_step (int_some hm t) _).trans (bind_raise hopen _))
    exact ⟨_, t, bind_raise (bind_raise hdes _) _, fun hc => hc⟩
  | chmod path mode uid =>
    obtain ⟨p, m, hp, hm, hbyte⟩ := h
    have hchmod : wrapCChmod path m uid n = .ok (.error .overflowError, n) :=
      (bind_step (argS_some hp n) _).trans (bind_raise (argB_escapes hbyte n) _)
    have hrun : DTree.chmod path mode uid n = .ok (.error .overflowError, n) :=
      (bind_step (int_some hm n) _).trans (bind_raise hchmod _)
    exact ⟨_, n, bind_raise hrun _, fun hc => hc⟩
  | read fd offset length uid =>
    obtain ⟨k, o, l, file, blocks, t, hk, ho, hl, hget, htype, hmay, hcall, b, hb, hnot⟩ := h
    have honly : OnlyC n t := (stays_wrapCRead (stays_record _)).rel hcall
    have hflit : flitRead blocks t = .ok (.error .keyError, t) :=
      flitRead_missing ⟨b, hb, fun hloc => hnot ((located_onlyC honly _).mp hloc)⟩
    have hrun : DTree.read fd offset length uid n = .ok (.error .keyError, t) := by
      refine (bind_step (int_some hk n) _).trans ((bind_step (int_some ho n) _).trans
        ((bind_step (int_some hl n) _).trans ((bind_step (findFile_some hget htype) _).trans ?_)))
      rw [hmay]
      exact (bind_step hcall _).trans hflit
    exact ⟨_, t, bind_raise hrun _, fun hc => hc⟩
  | _ => exact h.elim

/-- A call is served exactly when it comes back and does not escape. -/
theorem served_iff (op : Op) (n : CtrlNode) :
    Served op.run n ↔ (∃ q, op.run n = .ok q) ∧ ¬ Escapes n op := by
  constructor
  · rintro ⟨r, n', hrun, hcaught⟩
    refine ⟨⟨_, hrun⟩, fun hesc => ?_⟩
    obtain ⟨e, t, hrun', he⟩ := escapes_run hesc
    cases hrun.symm.trans hrun'
    exact he (hcaught e rfl)
  · rintro ⟨⟨⟨r, n'⟩, hrun⟩, hesc⟩
    refine ⟨r, n', hrun, fun e he => ?_⟩
    by_contra hcaught
    rw [he] at hrun
    exact hesc (uncaught_run hcaught hrun)

end Escapes

/-! ## Methods with their arguments -/

/-- The call of `DTree` that a method with these arguments makes; none with a wrong number of
arguments, nor for an owner who is not known. -/
def opOf (users : UsersInfo) (uid : Int) : Method → List Str → Option Op
  | .read, [fd, offset, length] => some (.read fd offset length uid)
  | .readdir, [dd, en] => some (.readdir dd en uid)
  | .write, [fd, offset, length] => some (.write fd offset length uid)
  | .remove, [filename] => some (.remove filename uid)
  | .move, [dst, src] => some (.move dst src uid)
  | .mkdir, [dirname] => some (.mkdir dirname uid)
  | .rmdir, [dirname] => some (.rmdir dirname uid)
  | .openFile, [filename, oflags, mode] => some (.openFile filename oflags mode uid)
  | .opendir, [dirname] => some (.opendir dirname uid)
  | .close, [fd] => some (.close fd uid)
  | .closedir, [dd] => some (.closedir dd uid)
  | .chown, [filename, username] =>
    (UsersInfo.findUid users username).map fun newuid => .chown filename newuid uid
  | .chmod, [filename, mode] => some (.chmod filename mode uid)
  | .stat, [filename] => some (.stat filename uid)
  | _, _ => none

section Invoke

variable {users : UsersInfo} {uid : Int} {c : Conn}

theorem served_map {α β : Type} {m : Py α} (f : α → β) {n : CtrlNode} :
    Served (f <$> m) n ↔ Served m n := by
  constructor
  · rintro ⟨r, n', hrun, hcaught⟩
    rcases bind_done.mp hrun with ⟨e, he, rfl⟩ | ⟨a, t, ha, -⟩
    · exact ⟨_, n', he, fun e' h => hcaught e' (congrArg _ (Except.error.inj h))⟩
    · exact ⟨_, t, ha, fun e h => nomatch h⟩
  · rintro ⟨r, n', hrun, hcaught⟩
    cases r with
    | error e =>
        exact ⟨_, n', bind_raise hrun _, fun e' h => hcaught e' (congrArg _ (Except.error.inj h))⟩
    | ok a => exact ⟨_, n', (bind_step hrun _).trans rfl, fun e h => nomatch h⟩

theorem once_arityError (m : Method) (k : Nat) (c : Conn) :
    Once (exceptArguments (raise (arityError m k))) c := by
  obtain ⟨c', hrun, hreply⟩ := once_senderr (ascii "ArguementError") _ c
  exact ⟨c', (rescue_handled rfl rfl).trans hrun, hreply⟩

theorem once_returns {m : Serve Unit} (h : Once m c) : Once (exceptArguments m) c := by
  obtain ⟨c', hrun, hreply⟩ := h
  exact ⟨c', rescue_returns hrun, hreply⟩

/-- A method is answered once exactly when the call it makes is served. -/
theorem once_invoke_iff (m : Method) (args : List Str) :
    Once (exceptArguments (invoke users uid m args)) c ↔
      ∀ op, opOf users uid m args = some op → Served op.run c.node := by
  have hop : ∀ {op : Op} {p : Serve Unit}, (Once (exceptArguments p) c ↔ Served op.run c.node) →
      (Once (exceptArguments p) c ↔ ∀ op', some op = some op' → Served op'.run c.node) := by
    intro op p h
    rw [h]
    constructor
    · rintro hs op' ⟨⟩
      exact hs
    · intro hs
      exact hs op rfl
  have hanswer : ∀ {α : Type} {m : Py α} {rep : α → Serve Unit} (f : α → Value),
      (∀ a c, Once (rep a) c) → (Once (exceptArguments (answer m rep)) c ↔
        Served (f <$> m) c.node) :=
    fun f hrep => (once_answer_iff _ hrep).trans (served_map f).symm
  have hgeneric : ∀ {m : Py Unit}, Once (exceptArguments (genericDoMethod m)) c ↔
      Served ((fun _ => Value.none) <$> m) c.node :=
    (once_generic_iff _).trans (served_map _).symm
  have hrep : ∀ d data c, Once (sendrep d data) c := once_sendrep
  fun_cases invoke users uid m args
  · exact hop (hanswer _ fun _ _ => hrep ..)
  · exact hop (hanswer _ fun _ _ => hrep ..)
  · exact hop (hanswer _ fun _ _ => hrep ..)
  · exact hop hgeneric
  · exact hop hgeneric
  · exact hop hgeneric
  · exact hop hgeneric
  · exact hop (hanswer _ fun _ _ => hrep ..)
  · exact hop (hanswer _ fun _ _ => hrep ..)
  · exact hop hgeneric
  · exact hop hgeneric
  · rename_i filename username
    show Once (exceptArguments (Dispatch.chown users uid filename username)) c ↔
      ∀ op, (UsersInfo.findUid users username).map _ = some op → _
    unfold Dispatch.chown
    cases UsersInfo.findUid users username with
    | none =>
      constructor
      · rintro _ op ⟨⟩
      · intro
        exact once_returns (once_senderr _ _ c)
    | some newuid => exact hop hgeneric
  · exact hop hgeneric
  · exact hop (hanswer _ fun _ _ => hrep ..)
  · -- the patterns of the call are those of the method
    have hnone : opOf users uid m args = none := by
      unfold opOf
      split
      all_goals first | rfl | (exfalso; solve_by_elim [rfl])
    rw [hnone]
    constructor
    · rintro _ op ⟨⟩
    · intro
      exact once_arityError _ _ c

end Invoke

/-! ## Requests -/

/-- The arguments of a request, if all of them are there. -/
def argsOf (head : Dict) (is : List Nat) : Option (List Str) :=
  is.mapM fun i => head.get (argName i)

/-- What a request of the user `uid` has to be like: if it names a method and a number of
arguments, that number can be read and counted up to; if it holds the arguments, the method is one
of the table; and if that is called with as many arguments as it takes, the call is one with
`P`. -/
def Answerable (users : UsersInfo) (room : Nat) (uid : Int) (head : Dict) (P : Op → Prop) : Prop :=
  ∀ method argc, head.get METHOD = some method → head.get ARGC = some argc →
    ∃ z : Int, pyInt argc = some z ∧ z < 2 ^ 63 ∧ z ≤ room ∧
      ∀ args, argsOf head (List.range z.toNat) = some args →
        ∃ m, doMethod method = some m ∧ ∀ op, opOf users uid m args = some op → P op

theorem Answerable.mono {users : UsersInfo} {room : Nat} {uid : Int} {head : Dict} {P Q : Op → Prop}
    (h : Answerable users room uid head P) (hPQ : ∀ op, P op → Q op) :
    Answerable users room uid head Q := by
  intro method argc hmethod hargc
  obtain ⟨z, hz, hbig, hroom, hcall⟩ := h method argc hmethod hargc
  refine ⟨z, hz, hbig, hroom, fun args hargs => ?_⟩
  obtain ⟨m, hm, hop⟩ := hcall args hargs
  exact ⟨m, hm, fun op ho => hPQ op (hop op ho)⟩

section Requests

variable {users : UsersInfo} {room : Nat} {uid : Int} {head : Dict} {c : Conn}

theorem checkMissingKey_run (head : Dict) (key type detail : Str) (c : Conn) :
    (∃ v, head.get key = some v ∧ checkMissingKey head key type detail c = .ok (.ok false, c)) ∨
      (head.get key = none ∧
        ∃ c', checkMissingKey head key type detail c = .ok (.ok true, c') ∧ Replied c c') := by
  unfold checkMissingKey
  cases hget : head.get key with
  | some v =>
    have hkey : head.hasKey key = true := by
      rw [← get_isSome, hget]
      rfl
    rw [if_pos hkey]
    exact .inl ⟨v, rfl, rfl⟩
  | none =>
    have hkey : ¬ head.hasKey key = true := by
      rw [← get_isSome, hget]
      decide
    rw [if_neg hkey]
    obtain ⟨c', hrun, hreply⟩ := once_senderr type detail c
    exact .inr ⟨rfl, c', bind_step hrun _, hreply⟩

theorem collectArgs_run (head : Dict) (is : List Nat) (c : Conn) :
    (∃ args, argsOf head is = some args ∧ collectArgs head is c = .ok (.ok (some args), c)) ∨
      (argsOf head is = none ∧ ∃ c', collectArgs head is c = .ok (.ok none, c') ∧
        Replied c c') := by
  induction is with
  | nil => exact .inl ⟨[], rfl, rfl⟩
  | cons i is ih =>
    unfold argsOf at ih ⊢
    rw [List.mapM_cons]
    rcases checkMissingKey_run head (argName i) (ascii "No" ++ argName i ++ ascii "Error")
        (ascii "Missing arguement " ++ numeral 10 i) c with
      ⟨v, hget, hcheck⟩ | ⟨hget, c', hcheck, hreply⟩
    · rcases ih with ⟨args, hargs, hrun⟩ | ⟨hargs, c', hrun, hreply⟩
      · refine .inl ⟨v :: args, ?_, ?_⟩
        · rw [hget, hargs]
          rfl
        · refine (bind_step hcheck _).trans ((bind_step hrun _).trans ?_)
          rw [hget]
          rfl
      · refine .inr ⟨?_, c', ?_, hreply⟩
        · rw [hget, hargs]
          rfl
        · exact (bind_step hcheck _).trans (bind_step hrun _)
    · refine .inr ⟨?_, c', bind_step hcheck _, hreply⟩
      rw [hget]
      rfl

/-- A whole request of a known method. -/
theorem serveRequest_run {method argc : Str} {z : Int} {args : List Str} (c : Conn)
    (hmethod : head.get METHOD = some method) (hargc : head.get ARGC = some argc)
    (hz : pyInt argc = some z) (hbig : z < 2 ^ 63) (hroom : z ≤ room)
    (hargs : argsOf head (List.range z.toNat) = some args) :
    serveRequest users room uid head c = serveMethod users uid method args c := by
  have hthere : ∀ {key v type detail : Str}, head.get key = some v →
      checkMissingKey head key type detail c = .ok (.ok false, c) := by
    intro key v type detail hget
    rcases checkMissingKey_run head key type detail c with ⟨-, -, hrun⟩ | ⟨hnone, -⟩
    · exact hrun
    · rw [hget] at hnone
      cases hnone
  have hcollect : collectArgs head (List.range z.toNat) c = .ok (.ok (some args), c) := by
    rcases collectArgs_run head (List.range z.toNat) c with ⟨args', h, hrun⟩ | ⟨h, -⟩
    · rw [hargs] at h
      cases h
      exact hrun
    · rw [hargs] at h
      cases h
  unfold serveRequest
  refine (bind_step (hthere hmethod) _).trans ((bind_step (hthere hargc) _).trans ?_)
  rw [hargc, hmethod, Option.getD_some, hz]
  have hrange : range room z c = .ok (.ok (List.range z.toNat), c) := by
    unfold range
    rw [if_neg (Int.not_le.mpr hbig), if_neg (Int.not_lt.mpr hroom)]
    rfl
  exact (bind_step hrange _).trans (bind_step hcollect _)

theorem not_once_raises (e : Exc) (c' : Conn) {m : Serve Unit} (h : m c = .ok (.error e, c')) :
    ¬ Once m c := by
  rintro ⟨t, hrun, -⟩
  cases h.symm.trans hrun

theorem once_serveMethod_iff (method : Str) (args : List Str) :
    Once (serveMethod users uid method args) c ↔ ∃ m, doMethod method = some m ∧
      ∀ op, opOf users uid m args = some op → Served op.run c.node := by
  unfold serveMethod
  cases hm : doMethod method with
  | none =>
    constructor
    · intro h
      refine absurd h ?_
      obtain ⟨c', hrun, -⟩ :=
        once_senderr (ascii "MethodError") (ascii "No Such Method: " ++ method) c
      exact not_once_raises .keyError c' (bind_step hrun _)
    · rintro ⟨m, hm', -⟩
      cases hm'
  | some m =>
    show Once (exceptArguments (invoke users uid m args)) c ↔ _
    rw [once_invoke_iff]
    constructor
    · intro h
      exact ⟨m, rfl, h⟩
    · rintro ⟨m', hm', h⟩
      cases hm'
      exact h

theorem once_congr {m m' : Serve Unit} {c' : Conn} (h : m c = m' c') (hs : c'.sent = c.sent) :
    Once m c ↔ Once m' c' := by
  unfold Once Replied
  rw [h, hs]

theorem once_of_replied {m : Serve Unit} {c' : Conn} (h : m c = .ok (.ok (), c'))
    (hr : Replied c c') : Once m c := ⟨c', h, hr⟩

theorem once_serveRequest_iff :
    Once (serveRequest users room uid head) c ↔
      Answerable users room uid head fun op => Served op.run c.node := by
  unfold serveRequest Answerable
  rcases checkMissingKey_run head METHOD (ascii "NoMethodError") (ascii "No Method") c with
    ⟨method, hmethod, hcheck⟩ | ⟨hmethod, c', hcheck, hreply⟩
  swap
  · constructor
    · intro _ method argc hm
      rw [hmethod] at hm
      cases hm
    · intro
      exact once_of_replied (bind_step hcheck _) hreply
  rw [once_congr (bind_step hcheck _) rfl]
  rcases checkMissingKey_run head ARGC (ascii "NoArgcError") (ascii "No Argc") c with
    ⟨argc, hargc, hcheck'⟩ | ⟨hargc, c', hcheck', hreply⟩
  swap
  · constructor
    · intro _ method argc _ ha
      rw [hargc] at ha
      cases ha
    · intro
      exact once_of_replied (bind_step hcheck' _) hreply
  rw [if_neg (by decide), once_congr (bind_step hcheck' _) rfl, if_neg (by decide)]
  simp only [hmethod, hargc, Option.getD_some]
  have hall : ∀ {P : Str → Str → Prop}, (∀ m a, some method = some m → some argc = some a → P m a) ↔
      P method argc := by
    intro P
    constructor
    · exact fun h => h method argc rfl rfl
    · rintro h m a ⟨⟩ ⟨⟩
      exact h
  rw [hall]
  cases hz : pyInt argc with
  | none =>
    constructor
    · intro h
      refine absurd h ?_
      obtain ⟨c', hrun, -⟩ :=
        once_senderr (ascii "TypeError") (ascii "Expect Argc to be an integer") c
      exact not_once_raises .unboundLocalError c' (bind_step hrun _)
    · rintro ⟨z, hz', -⟩
      cases hz'
  | some z =>
    have hex : ∀ {P : Int → Prop}, (∃ z', some z = some z' ∧ P z') ↔ P z := by
      intro P
      constructor
      · rintro ⟨z', ⟨⟩, h⟩
        exact h
      · exact fun h => ⟨z, rfl, h⟩
    rw [hex]
    dsimp only
    unfold range
    by_cases hbig : 2 ^ 63 ≤ z
    · rw [if_pos hbig]
      exact ⟨fun h => absurd h (not_once_raises _ _ (bind_raise (raise_run _ c) _)),
        fun h => absurd h.1 (by omega)⟩
    rw [if_neg hbig]
    by_cases hroom : (room : Int) < z
    · rw [if_pos hroom]
      exact ⟨fun h => absurd h (not_once_raises _ _ (bind_raise (raise_run _ c) _)),
        fun h => absurd h.2.1 (by omega)⟩
    rw [if_neg hroom, once_congr (bind_step (pure_run _ c) _) rfl]
    rcases collectArgs_run head (List.range z.toNat) c with
      ⟨args, hargs, hrun⟩ | ⟨hargs, c', hrun, hreply⟩
    · rw [once_congr (bind_step hrun _) rfl, once_serveMethod_iff, hargs]
      constructor
      · rintro h
        refine ⟨by omega, by omega, ?_⟩
        rintro args' ⟨⟩
        exact h
      · rintro ⟨-, -, h⟩
        exact h args rfl
    · constructor
      · intro
        refine ⟨by omega, by omega, fun args h => ?_⟩
        rw [hargs] at h
        cases h
      · intro
        exact once_of_replied (bind_step hrun _) hreply

/-- The handler of a client sends one reply and comes back exactly when the user is refused, or
the call that the request asks for is served. -/
theorem once_handleClient_iff (users : UsersInfo) (room : Nat)
    (username password : Str) (head : Dict)
    (c : Conn) : Once (handleClient users room username password head) c ↔
      (UsersInfo.check users username password = true →
        ∀ uid, UsersInfo.findUid users username = some uid →
          Answerable users room uid head fun op => Served op.run c.node) := by
  unfold handleClient
  by_cases hcheck : UsersInfo.check users username password = true
  · rw [if_pos hcheck]
    cases hfind : UsersInfo.findUid users username with
    | none =>
      -- a user that passes the check has a number
      exfalso
      unfold UsersInfo.findUid at hfind
      unfold UsersInfo.check at hcheck
      rw [Option.map_eq_none_iff.mp hfind] at hcheck
      cases hcheck
    | some uid =>
      show Once (serveRequest users room uid head) c ↔ _
      rw [once_serveRequest_iff]
      constructor
      · rintro h - uid' ⟨⟩
        exact h
      · exact fun h => h hcheck uid rfl
  · rw [if_neg hcheck]
    exact ⟨fun _ h => absurd h hcheck, fun _ => once_senderr _ _ c⟩

end Requests

/-! ## Requests that are not answered -/

/-- The user that every control node knows. -/
def anonymousOnly : UsersInfo := .load [ascii "anonymous:1000:anonymous"]

/-- A node that knows the owner of the disk. -/
def rootOnly : UsersInfo := .load [ascii "root:0:secret"]

/-- A request of the anonymous user with these fields. -/
def anonymousHead (fields : Dict) : Dict :=
  [(ascii "Protocol", ascii "SBPFS/1.0"), (USER, ascii "Client_anonymous"), (PASS, [])] ++ fields

/-- An `Argc` that is no number, a method that is none, and a mode that is no byte leave the
handler by an exception. -/
theorem request_unanswered : ∃ n, Mounted n ∧
    UsersInfo.check anonymousOnly (ascii "anonymous") [] = true ∧
    ∀ fields ∈ ([[(METHOD, ascii "MKDIR"), (ARGC, ascii "x")],
        [(METHOD, ascii "LINK"), (ARGC, ascii "0")],
        [(METHOD, ascii "CHMOD"), (ARGC, ascii "2"), (argName 0, ascii "/a"),
          (argName 1, ascii "256")]] : List Dict),
      ¬ Once (handleClient anonymousOnly 2 (ascii "anonymous") [] (anonymousHead fields)) ⟨n,
        []⟩ := by
  have hboot : bootNode.isSome = true := by decide +kernel
  obtain ⟨n, hn⟩ := Option.isSome_iff_exists.mp hboot
  refine ⟨n, mounted_boot hn, by decide, fun fields hf => ?_⟩
  simp only [List.mem_cons, List.not_mem_nil, or_false] at hf
  rcases hf with rfl | rfl | rfl
  · exact not_once_raises .unboundLocalError _ rfl
  · exact not_once_raises .keyError _ rfl
  · exact not_once_raises .overflowError _ rfl

end Sbpfs.Cnode.ReplyLaws
