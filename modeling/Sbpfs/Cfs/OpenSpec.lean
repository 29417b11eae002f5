import Sbpfs.Cfs.RunSpec

/-!
# What `c_open` returns

A number that is not negative is the first sector of a regular file: one that is there
already, and then the disk has not changed, or one that has just been made.
-/
namespace Sbpfs.Cfs.OpenSpec

open Sbpfs.Lib.Program
open Sbpfs.Cfs.Layout Sbpfs.Cfs.Lookup Sbpfs.Cfs.Namespace Sbpfs.Cfs.DiskStore Sbpfs.Cfs.LookupSpec
open Sbpfs.Cfs.ObjectSpec Sbpfs.Cfs.NamespaceSpec Sbpfs.Cfs.Calls Sbpfs.Cfs.RunSpec
open Sbpfs.Spec.FileTree Sbpfs.Spec.Resolve

variable {fs : Fs} {chain : Nat → List Nat} {w w' : World} {path : CStr} {oflags mode : UInt8}
  {uid : UInt32} {ret : Int}

/-- The entry that is found names a regular file. -/
theorem openPlan_found (ht : Tree fs) {d : Nat} {name : CStr} {e : Ent}
    (h : openPlan (view fs) path uid = .ok (d, name, some e)) :
    ∃ u fl len recs, fs e.fb = some ⟨u, fl, .file len recs⟩ := by
  unfold openPlan at h
  split at h
  · cases h
  split at h
  · cases h
  split at h
  · cases h
  split at h
  · cases h
  · rename_i hfind htype
    cases h
    obtain ⟨⟨u, fl, node⟩, ho, hty⟩ := ht.typed_ents (findName_mem hfind)
    cases node with
    | file len recs => exact ⟨u, fl, len, recs, ho⟩
    | dir p kids =>
      rcases hty with hty | hty
      · exact absurd hty.1 htype
      · exact absurd trivial hty.2

/-- What an opening that succeeds does: the tree after it and the file's first sector. -/
structure OpensFile (fs : Fs) (w : World) (path : CStr) (oflags mode : UInt8) (uid : UInt32)
    (ret : Int) (w' : World) (fs' : Fs) (k : Nat) : Prop where
  value : ret = k
  effect : Effect fs w.dt.sb.maxBlockNum (.openFile path oflags mode uid) ret fs'
    w'.dt.sb.maxBlockNum
  file : ∃ u fl len recs, fs' k = some ⟨u, fl, .file len recs⟩
  origin : (fs' = fs ∧ ∃ d name e, openPlan (view fs) path uid = .ok (d, name, some e) ∧
    e.fb = k) ∨ fs k = none

theorem cOpen_returns (hst : Store w.dt fs chain) (ht : Tree fs)
    (h : Sound w.dt (.openFile path oflags mode uid) w.env)
    (hrun : cOpen path oflags mode uid w = .ok (ret, w')) (hret : 0 ≤ ret) :
    ∃ fs' chain' k, Store w'.dt fs' chain' ∧
      OpensFile fs w path oflags mode uid ret w' fs' k := by
  have hpost := wp_ok (wp_cOpen (H := True) hst ht oflags mode uid
    (fun _ _ hp => (openPlan_length hp).trans (h.1.trans (by decide))) (fun _ _ _ _ => h.2 0)
    (.inl trivial)) hrun
  rcases hpost with ⟨-, hneg, -⟩ | hpost
  · omega
  cases hplan : openPlan (view fs) path uid with
  | error code =>
    rw [hplan] at hpost
    have hneg := openPlan_error hplan
    have hcode : ret = code := hpost.2
    omega
  | ok q =>
    obtain ⟨d, name, e⟩ := q
    rw [hplan] at hpost
    cases e with
    | some e =>
      obtain ⟨hs, rfl⟩ := hpost
      refine ⟨fs, chain, e.fb, ?_, rfl, ?_, openPlan_found ht hplan,
        .inl ⟨rfl, d, name, e, hplan, rfl⟩⟩
      · rw [hs.dt]
        exact hst
      · rw [hs.dt]
        exact .found hplan
    | none =>
      obtain ⟨fb, rfl, u, fl, p, kids, chain', -, he⟩ := hpost
      refine ⟨_, chain', fb, he.store, rfl, ?_, ?_, .inr he.linkable.fresh⟩
      · rw [he.maxBlockNum]
        exact .create hplan he.linkable
      · have hne : fb ≠ d := he.linkable.ne
        refine ⟨uid.toNat, mode, 0, [], ?_⟩
        rw [link, Function.update_of_ne hne, Function.update_self]
        rfl

end Sbpfs.Cfs.OpenSpec
