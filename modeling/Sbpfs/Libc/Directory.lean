import Sbpfs.Libc.TableSpec
import Sbpfs.Libc.TransferSpec

/-!
# Directories and headers at the client

`sbp_readdir` and `sbp_stat`. Both copy a structure of a fixed size out of the data of the reply;
`wrap_sbp_readdir` gives the caller the name up to its NUL.
-/
namespace Sbpfs.Libc.Directory

open Sbpfs.Lib.Program Sbpfs.Lib.Pack
open Sbpfs.Wire.Head Sbpfs.Wire.Number Sbpfs.Cfs.Layout Sbpfs.Libc.Request Sbpfs.Libc.Table
open Sbpfs.Libc.Transfer Sbpfs.Libc.TransferSpec Sbpfs.Libc.TableSpec

@[simp] abbrev MAX_FILENAME_LEN : Nat := 256

/-- `sizeof(struct sbp_dirent_for_trans)`. -/
@[simp] abbrev direntSize : Nat := 257

/-- `sizeof(struct sbp_filestat)`. -/
@[simp] abbrev statSize : Nat := 64

/-- `struct sbp_dirent`. -/
structure Dirent where
  type : UInt8
  name : Str
  offset : UInt64
  deriving DecidableEq, Repr

/-- `struct sbp_filestat`. -/
structure Filestat where
  size : UInt64
  atime : UInt64
  mtime : UInt64
  ctime : UInt64
  owner : UInt32
  mode : UInt8
  preserved : Str
  deriving DecidableEq, Repr

/-- The data of a reply that says OK, if they are announced to be `size` bytes. -/
def announced (a : Answer) (size : Nat) : Except Stop (Option Str) :=
  if a.saysOk then
    match valueOf a.entrys CONTENT_LEN with
    | none => .ok none
    | some value =>
      if u64OfInt (atoll value) ≠ size then .ok none
      else if size ≤ a.data.length then .ok (some (a.data.take size))
      else .error .fault
  else .ok none

def direntAt (data : Str) (offset : UInt64) : Dirent :=
  ⟨(data[0]?).getD 0, slice data 1 MAX_FILENAME_LEN, offset⟩

def filestatAt (data : Str) : Filestat where
  size := .ofNat (ofLE (slice data 0 8))
  atime := .ofNat (ofLE (slice data 8 8))
  mtime := .ofNat (ofLE (slice data 16 8))
  ctime := .ofNat (ofLE (slice data 24 8))
  owner := .ofNat (ofLE (slice data 32 4))
  mode := (data[36]?).getD 0
  preserved := slice data 37 27

/-- The name that `wrap_sbp_readdir` returns. Behind the array there is a NUL. -/
def Dirent.text (e : Dirent) : Str := e.name.takeWhile (· ≠ 0)

/-- What the caller sees of an entry beside its offset. -/
def Dirent.reading (e : Dirent) : Str × UInt8 := (e.text, e.type)

section Calls

variable {σ : Type} (control : String → List Str → Prog σ (Option Answer)) (l : Login)

/-- `none` is NULL. The type of the descriptor is not looked at. -/
def sbpReaddir (fds : Fds) (dirfd : Int) : Prog σ (Option Dirent × Fds) :=
  if dirfd < 0 then return (none, fds)
  else do
    match ← slot fds dirfd with
    | none => return (none, fds)
    | some d =>
      let _ ← check (prepareRequest l)
      match ← control "READDIR" [decimal 0 (s64 d.serverFd.toNat),
        decimal 0 (s64 d.offset.toNat)] with
      | none => return (none, fds)
      | some a =>
        match ← check (announced a direntSize) with
        | none => return (none, fds)
        | some data =>
          return (some (direntAt data d.offset),
            setSlot fds dirfd.toNat (some { d with offset := d.offset + 1 }))

def sbpStat (filename : CStr) : Prog σ (Option Filestat) := do
  let _ ← check (prepareRequest l)
  match ← control "STAT" [bytesOf filename] with
  | none => return none
  | some a => return (← check (announced a statSize)).map filestatAt

end Calls

section Opened

variable {l : Login} {a : Answers} {fds fds' : Fds} {r : Int} {head : SbpfsHead} {filename : CStr}

/-- The error exit returns -1, whatever the close does. -/
theorem openFailed_neg {close : Exchange → Int → Fds → Except Stop (Int × Fds)} {fd : Int}
    (h : openFailed close a fd fds = .ok (r, fds')) : r = -1 := by
  unfold openFailed at h
  cases hclose : close a.closing fd fds with
  | error e =>
    rw [hclose] at h
    cases h
  | ok q =>
    rw [hclose] at h
    cases h
    rfl

/-- A directory descriptor is made in a slot of the table, at the beginning of the directory. -/
theorem opendirOk_done (h : opendirOk l a head filename fds = .ok (r, fds')) (hr : 0 ≤ r) :
    ∃ (i : Nat) (d : FileDesc) (fdS : Str), r = (i : Int) ∧ i < MAX_FILE_OPEN ∧ fds' i = some d ∧
      d.offset = 0 ∧ getHeadEntryValue head DIR_FD = some fdS ∧ d.serverFd = u64OfText fdS := by
  have hneg : ∀ {close fd fds₁}, openFailed close a fd fds₁ = .ok (r, fds') → False := fun hf => by
    have hr' := openFailed_neg hf
    omega
  unfold opendirOk at h
  cases hslot : getSlot fds with
  | none =>
    rw [hslot] at h
    cases h
  | some i =>
    rw [hslot] at h
    dsimp only at h
    split at h
    · cases h
      omega
    split at h
    · exact (hneg h).elim
    split at h
    · cases h
    cases hfd : getHeadEntryValue head DIR_FD with
    | none =>
      rw [hfd] at h
      exact (hneg h).elim
    | some fdS =>
      rw [hfd] at h
      dsimp only at h
      cases hnum : getHeadEntryValue head DIR_ENT_NUM with
      | none =>
        rw [hnum] at h
        exact (hneg h).elim
      | some num =>
        rw [hnum] at h
        cases h
        exact ⟨i, _, fdS, rfl, (getSlot_some hslot).1, setSlot_self .., rfl, rfl, rfl⟩

theorem sbpOpendir_done (h : Table.sbpOpendir l a filename fds = .ok (r, fds')) (hr : 0 ≤ r) :
    ∃ head, a.opening.reply = some head ∧ Table.saysOk head = true ∧
      opendirOk l a head filename fds = .ok (r, fds') := by
  unfold Table.sbpOpendir at h
  split at h
  · cases h
    omega
  cases hreq : Request.sbpOpendir l filename with
  | error e =>
    rw [hreq] at h
    cases h
  | ok msg =>
    rw [hreq] at h
    cases msg with
    | none =>
      cases h
      omega
    | some msg =>
      dsimp only [bind, Except.bind] at h
      cases hreply : a.opening.reply with
      | none =>
        rw [hreply] at h
        cases h
        omega
      | some head =>
        rw [hreply] at h
        dsimp only at h
        split at h
        · exact ⟨head, rfl, ‹_›, h⟩
        split at h
        · cases h
          omega
        · have hneg := openFailed_neg h
          omega

end Opened

section Returned

variable {σ : Type} {control : String → List Str → Prog σ (Option Answer)} {l : Login}
    {fds fds' : Fds}
  {dirfd : Int} {d : FileDesc} {s t : σ} {a : Answer} {size : Nat} {value : Str}

theorem announced_run (hok : a.saysOk = true) (hvalue : valueOf a.entrys CONTENT_LEN = some value)
    (hnum : u64OfInt (atoll value) = size) (hlen : a.data.length = size) :
    announced a size = .ok (some a.data) := by
  unfold announced
  rw [if_pos hok, hvalue]
  dsimp only
  rw [if_neg (not_not.mpr hnum), if_pos (Nat.le_of_eq hlen.symm), ← hlen, List.take_length]

/-- Without an entry the descriptor stays where it is; with one it moves on by one. -/
theorem sbpReaddir_done {e : Option Dirent} (hn : 0 ≤ dirfd ∧ dirfd < MAX_FILE_OPEN)
    (hslot : fds dirfd.toNat = some d) (h : sbpReaddir control l fds dirfd s = .ok ((e, fds'), t)) :
    ∃ answer, control "READDIR" [decimal 0 (s64 d.serverFd.toNat), decimal 0 (s64 d.offset.toNat)] s
        = .ok (answer, t) ∧
      (e = none ∧ fds' = fds ∧ (∀ a, answer = some a → announced a direntSize = .ok none) ∨
        ∃ a data, answer = some a ∧ announced a direntSize = .ok (some data) ∧
          e = some (direntAt data d.offset) ∧
          fds' = setSlot fds dirfd.toNat (some { d with offset := d.offset + 1 })) := by
  unfold sbpReaddir at h
  rw [if_neg (by omega), bind_run (slot_run hn hslot)] at h
  obtain ⟨usr, s₁, hcheck, h₁⟩ := bind_ok.mp h
  obtain ⟨-, rfl⟩ := check_done hcheck
  obtain ⟨answer, s₂, hcontrol, h₂⟩ := bind_ok.mp h₁
  refine ⟨answer, ?_⟩
  cases answer with
  | none =>
    cases h₂
    exact ⟨hcontrol, .inl ⟨rfl, rfl, fun a ha => nomatch ha⟩⟩
  | some a =>
    obtain ⟨data, s₃, hchecked, h₃⟩ := bind_ok.mp h₂
    obtain ⟨hreply, rfl⟩ := check_done hchecked
    cases data with
    | none =>
      cases h₃
      refine ⟨hcontrol, .inl ⟨rfl, rfl, fun a' ha => ?_⟩⟩
      cases ha
      exact hreply
    | some data =>
      cases h₃
      exact ⟨hcontrol, .inr ⟨a, data, rfl, hreply, rfl, rfl⟩⟩

theorem sbpReaddir_run {usr : List HeadEntry} {answer : Option Answer}
    (hn : 0 ≤ dirfd ∧ dirfd < MAX_FILE_OPEN)
    (hslot : fds dirfd.toNat = some d) (hfit : prepareRequest l = .ok usr)
    (hcontrol : control "READDIR" [decimal 0 (s64 d.serverFd.toNat),
      decimal 0 (s64 d.offset.toNat)] s
      = .ok (answer, t))
    (hreply : ∀ a, answer = some a → ∃ data, announced a direntSize = .ok data) :
    ∃ e fds', sbpReaddir control l fds dirfd s = .ok ((e, fds'), t) := by
  unfold sbpReaddir
  rw [if_neg (by omega), bind_run (slot_run hn hslot)]
  dsimp only
  rw [hfit, bind_run (show check (.ok usr) s = .ok (usr, s) from rfl), bind_run hcontrol]
  cases answer with
  | none => exact ⟨_, _, rfl⟩
  | some a =>
    obtain ⟨data, hdata⟩ := hreply a rfl
    dsimp only
    rw [hdata, bind_run (show check (.ok data) t = .ok (data, t) from rfl)]
    cases data with
    | none => exact ⟨_, _, rfl⟩
    | some data => exact ⟨_, _, rfl⟩

/-- No reply is as good as one without the data. -/
theorem sbpStat_run {filename : CStr} {usr : List HeadEntry} {answer : Option Answer}
    {data : Option Str}
    (hfit : prepareRequest l = .ok usr)
    (hcontrol : control "STAT" [bytesOf filename] s = .ok (answer, t))
    (hreply : ∀ a, answer = some a → announced a statSize = .ok data)
    (hnone : answer = none → data = none) :
    sbpStat control l filename s = .ok (data.map filestatAt, t) := by
  unfold sbpStat
  rw [hfit, bind_run (show check (.ok usr) s = .ok (usr, s) from rfl), bind_run hcontrol]
  cases answer with
  | none =>
    rw [hnone rfl]
    rfl
  | some a =>
    dsimp only
    rw [hreply a rfl]
    rfl

end Returned

end Sbpfs.Libc.Directory
