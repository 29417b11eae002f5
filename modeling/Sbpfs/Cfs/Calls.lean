import Sbpfs.Lib.Program
import Sbpfs.Cfs.Namespace
import Sbpfs.Cfs.Data

/-!
# Runs of calls on one disk

The control node makes a fresh disk and then calls into the library, one call at a time.
What the C library answers is chosen anew for each call.
-/
namespace Sbpfs.Cfs.Calls

open Sbpfs.Lib.Program Sbpfs.Lib.Run
open Sbpfs.Cfs.Layout Sbpfs.Cfs.File Sbpfs.Cfs.Namespace Sbpfs.Cfs.Data

/-- A call that may change the disk, with its arguments. -/
inductive Call where
  | mkdir (path : CStr) (uid : UInt32)
  | rmdir (path : CStr) (uid : UInt32)
  | openFile (path : CStr) (oflags mode : UInt8) (uid : UInt32)
  | remove (path : CStr) (uid : UInt32)
  | move (srcpath dstpath : CStr) (uid : UInt32)
  | chmod (path : CStr) (mode : UInt8) (uid : UInt32)
  | chown (path : CStr) (newuid uid : UInt32)
  | write (fb : UInt32) (offset length : UInt64) (ips : List UInt32)

/-- The entries the wrappers' reply buffer holds. -/
def replyCap (length : UInt64) : Nat := length.toNat / BLOCKSIZE + 2

def Call.run : Call → CM Int
  | .mkdir path uid => cMkdir path uid
  | .rmdir path uid => cRmdir path uid
  | .openFile path oflags mode uid => cOpen path oflags mode uid
  | .remove path uid => cRemove path uid
  | .move srcpath dstpath uid => cMove srcpath dstpath uid
  | .chmod path mode uid => cChmod path mode uid
  | .chown path newuid uid => cChown path newuid uid
  | .write fb offset length ips => do
    let (ret, _) ← cWrite fb offset length (ips.map UInt32.toNat) (replyCap length)
    return ret

/-- Who makes the call. -/
def Call.caller : Call → Option UInt32
  | .mkdir _ uid => some uid
  | .rmdir _ uid => some uid
  | .openFile _ _ _ uid => some uid
  | .remove _ uid => some uid
  | .move _ _ uid => some uid
  | .chmod _ _ uid => some uid
  | .chown _ _ uid => some uid
  | .write .. => none

/-- The mounted disk, the counter of `gen_ip_index`, and the numbers `c_open` has returned. -/
structure Sys where
  dt : Dtree
  ipIndex : Int
  opened : List Nat

/-- The callers pass `c_write` a number `c_open` has returned and at least one address. -/
def Call.Allowed (s : Sys) : Call → Prop
  | .write fb _ _ ips => fb.toNat ∈ s.opened ∧ ips ≠ []
  | _ => True

/-- The numbers `c_open` has returned after a call with the value `r`. -/
def Call.record (c : Call) (r : Int) (opened : List Nat) : List Nat :=
  match c with
  | .openFile .. => if 0 ≤ r then r.toNat :: opened else opened
  | _ => opened

/-- A call, and what the C library answers during it. -/
structure Action where
  call : Call
  env : Env

/-- The disk `do_mkcfs` has made in a fresh process, the allocation of the root directory
having succeeded. -/
def Fresh (s : Sys) : Prop :=
  ∃ w w' : World, (∀ k, w.env.heap .initdir k ≠ none) ∧ w.ipIndex = 0 ∧
    doMkcfs w = .ok ((), w') ∧ s = ⟨w'.dt, w'.ipIndex, []⟩

/-- One call with the value `r`. -/
def Returns (s : Sys) (a : Action) (r : Int) (s' : Sys) : Prop :=
  a.call.Allowed s ∧ ∃ w', a.call.run ⟨s.dt, s.ipIndex, a.env⟩ = .ok (r, w') ∧
    s' = ⟨w'.dt, w'.ipIndex, a.call.record r s.opened⟩

def Step (s : Sys) (a : Action) (s' : Sys) : Prop := ∃ r, Returns s a r s'

/-! ## Executing a list of calls -/

instance (s : Sys) (c : Call) : Decidable (c.Allowed s) := by
  cases c <;> unfold Call.Allowed <;> infer_instance

/-- The calls one after another. -/
def exec : List Action → Sys → Option (List Int × Sys)
  | [], s => some ([], s)
  | a :: as, s =>
    if a.call.Allowed s then
      match a.call.run ⟨s.dt, s.ipIndex, a.env⟩ with
      | .ok (r, w') =>
        match exec as ⟨w'.dt, w'.ipIndex, a.call.record r s.opened⟩ with
        | some (rs, s') => some (r :: rs, s')
        | none => none
      | .error _ => none
    else none

/-- A run on a fresh disk, made with the answers `env`. -/
def execFresh (env : Env) (dt : Dtree) (as : List Action) : Option (List Int × Sys) :=
  match doMkcfs ⟨dt, 0, env⟩ with
  | .ok ((), w') => exec as ⟨w'.dt, w'.ipIndex, []⟩
  | .error _ => none

theorem exec_cons {a : Action} {as : List Action} {s s' : Sys} {rs : List Int}
    (h : exec (a :: as) s = some (rs, s')) :
    ∃ r rs' s₁, rs = r :: rs' ∧ Returns s a r s₁ ∧ exec as s₁ = some (rs', s') := by
  rw [exec] at h
  by_cases hallow : a.call.Allowed s
  · rw [if_pos hallow] at h
    cases hr : a.call.run ⟨s.dt, s.ipIndex, a.env⟩ with
    | error e => simp [hr] at h
    | ok q =>
      obtain ⟨r, w'⟩ := q
      simp only [hr] at h
      cases he : exec as ⟨w'.dt, w'.ipIndex, a.call.record r s.opened⟩ with
      | none => simp [he] at h
      | some q =>
        obtain ⟨rs', s''⟩ := q
        simp only [he, Option.some.injEq, Prod.mk.injEq] at h
        obtain ⟨rfl, rfl⟩ := h
        exact ⟨r, rs', _, rfl, ⟨hallow, w', hr, rfl⟩, he⟩
  · rw [if_neg hallow] at h
    cases h

theorem returns_exec {a : Action} {s s' : Sys} {r : Int} (h : exec [a] s = some ([r], s')) :
    Returns s a r s' := by
  obtain ⟨r', rs', s₁, hrs, hret, hrest⟩ := exec_cons h
  cases hrs
  cases hrest
  exact hret

theorem fresh_exec {env : Env} {dt : Dtree} {s : Sys} {rs : List Int}
    (hmem : ∀ k, env.heap .initdir k ≠ none) (h : execFresh env dt [] = some (rs, s)) :
    Fresh s := by
  unfold execFresh at h
  cases hr : doMkcfs ⟨dt, 0, env⟩ with
  | error e => simp [hr] at h
  | ok q =>
    obtain ⟨u, w'⟩ := q
    simp only [hr, exec, Option.some.injEq, Prod.mk.injEq] at h
    obtain ⟨-, rfl⟩ := h
    exact ⟨⟨dt, 0, env⟩, w', hmem, rfl, hr, rfl⟩

theorem reach_exec {init : Sys → Prop} {step : Sys → Action → Sys → Prop} {as : List Action}
    {s s' : Sys} {rs : List Int} (hstep : ∀ a ∈ as, ∀ s s', Step s a s' → step s a s')
    (hs : Reach init step s) (h : exec as s = some (rs, s')) : Reach init step s' := by
  induction as generalizing s rs with
  | nil =>
    cases h
    exact hs
  | cons a as ih =>
    obtain ⟨r, rs', s₁, rfl, hret, hrest⟩ := exec_cons h
    exact ih (fun a ha => hstep a (List.mem_cons_of_mem _ ha))
      (.step hs (hstep a (List.mem_cons_self ..) _ _ ⟨r, hret⟩)) hrest

theorem reach_execFresh {step : Sys → Action → Sys → Prop} {env : Env} {dt : Dtree}
    {as : List Action} {s' : Sys} {rs : List Int}
    (hstep : ∀ a ∈ as, ∀ s s', Step s a s' → step s a s')
    (hmem : ∀ k, env.heap .initdir k ≠ none) (h : execFresh env dt as = some (rs, s')) :
    Reach Fresh step s' := by
  unfold execFresh at h
  cases hr : doMkcfs ⟨dt, 0, env⟩ with
  | error e => simp [hr] at h
  | ok q =>
    obtain ⟨u, w'⟩ := q
    simp only [hr] at h
    exact reach_exec hstep (.init ⟨⟨dt, 0, env⟩, w', hmem, rfl, hr, rfl⟩) h

end Sbpfs.Cfs.Calls
