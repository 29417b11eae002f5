import Sbpfs.Cfs.FileHeaders
import Sbpfs.Cfs.HalfDone
import Sbpfs.Cfs.MoveLaws
import Sbpfs.Cfs.OpenSpec

/-!
# What the value of a call tells

A caller takes the value of a call for the whole story: an error code for a disk that is
as it was, any other value for a change that has been made completely. The calls keep to
it, whatever allocation fails on the way, exactly when they do not come to one whose
failure is ignored or noticed too late.
-/
namespace Sbpfs.Cfs.ErrorLaws

open Sbpfs.Lib.Program Sbpfs.Lib.Run
open Sbpfs.Cfs.Layout Sbpfs.Cfs.Rules Sbpfs.Cfs.Lookup Sbpfs.Cfs.Namespace Sbpfs.Cfs.Data
open Sbpfs.Cfs.Image Sbpfs.Cfs.DiskStore Sbpfs.Cfs.BlockSpec
open Sbpfs.Cfs.DiskView Sbpfs.Cfs.Mkfs Sbpfs.Cfs.LookupSpec Sbpfs.Cfs.ObjectSpec
open Sbpfs.Cfs.NamespaceSpec Sbpfs.Cfs.DataSpec Sbpfs.Cfs.HeaderSpec Sbpfs.Cfs.Calls
open Sbpfs.Cfs.RunSpec Sbpfs.Cfs.OpenSpec Sbpfs.Cfs.Invariants Sbpfs.Cfs.FileHeaders
open Sbpfs.Cfs.ChainLaws Sbpfs.Cfs.NamespaceLaws Sbpfs.Cfs.MoveLaws Sbpfs.Cfs.HalfDone
open Sbpfs.Spec.FileTree Sbpfs.Spec.Resolve

/-- The value is an error code: a negative one where the call returns a number, else any
but 0. -/
def Failed (c : Call) (r : Int) : Prop :=
  match c with
  | .openFile .. => r < 0
  | .write .. => r < 0
  | _ => r ≠ 0

/-- The FAT, the root entry and the sectors of every object are as they were. -/
structure Unchanged (fs : Fs) (chain : Nat → List Nat) (dt dt' : Dtree) : Prop where
  fat : dt'.fat = dt.fat
  root : dt'.data 0 = dt.data 0
  objects : ∀ fb o, fs fb = some o → ∀ c ∈ chain fb, dt'.data c = dt.data c

/-- The change that the call asks for has been made, all of it. -/
def Complete (fs : Fs) (chain : Nat → List Nat) (c : Call) (w : World) (r : Int) (w' : World) :
    Prop :=
  match c with
  | .mkdir path uid => ∃ d name fb, mkdirPlan (view fs) path uid = .ok (d, name) ∧
      Makes fs chain d name S_DIR (newDir uid d) w w' fb
  | .openFile path _ mode uid => ∃ a, openPlan (view fs) path uid = .ok a ∧
      Opened fs chain uid mode w a r w'
  | .remove path uid => ∃ d e, removePlan (view fs) path uid = .ok (d, e) ∧ Drops fs chain d e w w'
  | .rmdir path uid => ∃ d e, rmdirPlan (view fs) path uid = .ok (d, e) ∧ Drops fs chain d e w w'
  | .move srcpath dstpath uid => ∃ sdir sname ddir dname s d e fs' chain',
      Named srcpath sdir sname ∧ Named dstpath ddir dname ∧
      Movable fs sdir sname ddir dname uid s d e ∧ Moved fs chain s d sname dname e w w' fs' chain'
  | .write fb offset length ips => ∃ u fl len recs news w₁ cs segs,
      fs fb.toNat = some ⟨u, fl, .file len recs⟩ ∧
      Wrote fs chain fb.toNat u fl len recs offset.toNat length.toNat (ips.map UInt32.toNat) w
        (r, segs) w' news w₁ cs
  | .chmod path mode _ => ∃ e o, resolve fs.ents path = some e ∧ fs e.fb = some o ∧
      Patched fs chain e.fb { o with flags := chmodFlags o.flags mode } w w'
  | .chown path newuid _ => ∃ e o, resolve fs.ents path = some e ∧ fs e.fb = some o ∧
      ((o.uid = newuid.toNat ∧ w'.dt = w.dt) ∨
        Patched fs chain e.fb { o with uid := newuid.toNat } w w')

/-- The value of the call tells what became of the disk. -/
structure Truthful (fs : Fs) (chain : Nat → List Nat) (c : Call) (w : World) : Prop where
  error : ∀ r w', c.run w = .ok (r, w') → Failed c r → Unchanged fs chain w.dt w'.dt
  success : ∀ r w', c.run w = .ok (r, w') → ¬ Failed c r → Complete fs chain c w r w'

/-- The call does not come to a step that fails unnoticed or too late: the allocations it makes
before it changes anything may fail, and where they do not, the one for the object or for the
tail of the table succeeds; no directory is removed through its own entry, no table is changed
by a move, and a write that begins goes to a file that is there. -/
def Heeds (fs : Fs) (w : World) : Call → Prop
  | .mkdir path uid => ∀ a, mkdirPlan (view fs) path uid = .ok a →
      Searches w.env path ∧ w.env.heap .image 0 ≠ none → w.env.heap .initdir 0 ≠ none
  | .openFile path _ _ uid => ∀ d name, openPlan (view fs) path uid = .ok (d, name, none) →
      Searches w.env path ∧ w.env.heap .image 0 ≠ none → w.env.heap .initfile 0 ≠ none
  | .remove path uid => ∀ a, removePlan (view fs) path uid = .ok a →
      Searches w.env path → w.env.heap .tail 0 ≠ none
  | .rmdir path uid => ∀ d e, rmdirPlan (view fs) path uid = .ok (d, e) →
      Searches w.env path ∧ w.env.heap .image 0 ≠ none → e.fb ≠ d ∧ w.env.heap .tail 0 ≠ none
  | .move srcpath dstpath uid => ∀ a, movePlan (view fs) srcpath dstpath uid = .ok a →
      ¬ Reaches w.env srcpath dstpath
  | .write fb offset _ _ => WriteStops w fb offset ∨ Live w.dt fb.toNat S_FIL
  | .chmod .. => True
  | .chown .. => True

/-- The sizes in the call do not wrap: names are shorter than 2^33, and a write that begins ends
at a place a block number reaches. -/
def Fits (fs : Fs) (w : World) : Call → Prop
  | .mkdir path uid => ∀ d name, mkdirPlan (view fs) path uid = .ok (d, name) → name.length < 2 ^ 33
  | .openFile path _ _ uid => ∀ d name, openPlan (view fs) path uid = .ok (d, name, none) →
      name.length < 2 ^ 33
  | .write fb offset length ips => ips ≠ [] ∧
      (WriteStops w fb offset ∨ offset.toNat + length.toNat ≤ MAX_END)
  | _ => True

/-- The call is a move that comes to change a table. -/
def Moves (fs : Fs) (w : World) : Call → Prop
  | .move srcpath dstpath uid => (∃ a, movePlan (view fs) srcpath dstpath uid = .ok a) ∧
      Reaches w.env srcpath dstpath
  | _ => False

/-! ## Calls that tell the truth -/

section Laws

variable {fs : Fs} {chain : Nat → List Nat} {w : World} {c : Call}

theorem unchanged_same {w' : World} (h : Same w w') : Unchanged fs chain w.dt w'.dt := by
  rw [h.dt]
  exact ⟨rfl, rfl, fun _ _ _ _ _ => rfl⟩

/-- Either the value is an error code and nothing has changed, or it is none and the change
has been made. -/
theorem truthful_of (h : ∀ r w', c.run w = .ok (r, w') →
    (Failed c r ∧ Same w w') ∨ (¬ Failed c r ∧ Complete fs chain c w r w')) :
    Truthful fs chain c w := by
  constructor
  · intro r w' hrun hfail
    rcases h r w' hrun with ⟨-, hs⟩ | ⟨hno, -⟩
    · exact unchanged_same hs
    · exact absurd hfail hno
  · intro r w' hrun hfail
    rcases h r w' hrun with ⟨hf, -⟩ | ⟨-, hc⟩
    · exact absurd hf hfail
    · exact hc

/-- The outcome of an operation whose errors are its negative values and the codes of its
plan. -/
theorem told_outcome {α : Type} {plan : Except Int α} {did : α → Int → World → Prop} {r : Int}
    {w' : World} (h : Outcome w plan did r w') (hneg : r < 0 → Failed c r)
    (hcode : plan = .error r → Failed c r)
    (hdid : ∀ a, plan = .ok a → did a r w' → ¬ Failed c r ∧ Complete fs chain c w r w') :
    (Failed c r ∧ Same w w') ∨ (¬ Failed c r ∧ Complete fs chain c w r w') := by
  rcases h with ⟨hs, hr, -⟩ | h
  · exact .inl ⟨hneg hr, hs⟩
  cases hplan : plan with
  | error code =>
    simp only [hplan] at h
    obtain ⟨hs, rfl⟩ := h
    exact .inl ⟨hcode hplan, hs⟩
  | ok a =>
    simp only [hplan] at h
    exact .inr (hdid a hplan h)

theorem ne_zero_of_neg {r : Int} (h : r < 0) : r ≠ 0 := Int.ne_of_lt h

theorem truthful_mkdir {path : CStr} {uid : UInt32} (hst : Store w.dt fs chain) (ht : Tree fs)
    (hfits : Fits fs w (.mkdir path uid)) (h : Heeds fs w (.mkdir path uid)) :
    Truthful fs chain (.mkdir path uid) w := by
  apply truthful_of
  intro r w' hrun
  have hpost := wp_ok (wp_cMkdir (H := True) hst ht uid hfits h (.inl trivial)) hrun
  refine told_outcome hpost ne_zero_of_neg (fun hp => mkdirPlan_error hp) fun a hplan hdid => ?_
  obtain ⟨rfl, fb, hmakes⟩ := hdid
  exact ⟨not_not_intro rfl, a.1, a.2, fb, hplan, hmakes⟩

theorem truthful_openFile {path : CStr} {oflags mode : UInt8} {uid : UInt32}
    (hst : Store w.dt fs chain) (ht : Tree fs) (hfits : Fits fs w (.openFile path oflags mode uid))
    (h : Heeds fs w (.openFile path oflags mode uid)) :
    Truthful fs chain (.openFile path oflags mode uid) w := by
  apply truthful_of
  intro r w' hrun
  have hpost := wp_ok (wp_cOpen (H := True) hst ht oflags mode uid hfits h (.inl trivial)) hrun
  refine told_outcome hpost id (fun hp => openPlan_error hp) fun a hplan hdid => ?_
  refine ⟨?_, a, hplan, hdid⟩
  have hpos : 0 ≤ r := by
    obtain ⟨d, name, e⟩ := a
    cases e with
    | none =>
      obtain ⟨fb, rfl, -⟩ := hdid
      exact Int.natCast_nonneg fb
    | some e =>
      obtain ⟨-, rfl⟩ := hdid
      exact Int.natCast_nonneg e.fb
  exact Int.not_lt.mpr hpos

theorem truthful_remove {path : CStr} {uid : UInt32} (hst : Store w.dt fs chain) (ht : Tree fs)
    (h : Heeds fs w (.remove path uid)) : Truthful fs chain (.remove path uid) w := by
  apply truthful_of
  intro r w' hrun
  have hpost := wp_ok (wp_cRemove (H := True) hst ht path uid h (.inl trivial)) hrun
  refine told_outcome hpost ne_zero_of_neg (fun hp => removePlan_error hp) fun a hplan hdid => ?_
  obtain ⟨rfl, hdrops⟩ := hdid
  exact ⟨not_not_intro rfl, a.1, a.2, hplan, hdrops⟩

theorem truthful_rmdir {path : CStr} {uid : UInt32} (hst : Store w.dt fs chain) (ht : Tree fs)
    (h : Heeds fs w (.rmdir path uid)) : Truthful fs chain (.rmdir path uid) w := by
  apply truthful_of
  intro r w' hrun
  have hpost := wp_ok (wp_cRmdir (H := True) hst ht path uid h (.inl trivial)) hrun
  refine told_outcome hpost ne_zero_of_neg (fun hp => rmdirPlan_error hp) fun a hplan hdid => ?_
  obtain ⟨rfl, hdrops⟩ := hdid
  exact ⟨not_not_intro rfl, a.1, a.2, hplan, hdrops⟩

theorem truthful_move {srcpath dstpath : CStr} {uid : UInt32} (hst : Store w.dt fs chain)
    (ht : Tree fs) (h : Heeds fs w (.move srcpath dstpath uid)) :
    Truthful fs chain (.move srcpath dstpath uid) w := by
  apply truthful_of
  intro r w' hrun
  have hpost : wp (cMove srcpath dstpath uid) (fun r w' => r ≠ 0 ∧ Same w w') w := by
    refine wp_cMove_until hst ht (fun c hplan w' hs => ?_) (fun _ _ w' hs => ?_)
      (fun _ _ _ _ _ _ _ _ hplan hgot _ => ?_) (.inl trivial)
    · exact ⟨movePlan_error hplan, hs⟩
    · exact ⟨by decide, hs⟩
    · exact absurd hgot (h _ hplan)
  have hrefused := wp_ok hpost hrun
  exact .inl hrefused

theorem truthful_write {fb : UInt32} {offset length : UInt64} {ips : List UInt32}
    (hst : Store w.dt fs chain) (ht : Tree fs) (hb : Bounded fs)
    (hfits : Fits fs w (.write fb offset length ips))
    (h : Heeds fs w (.write fb offset length ips)) :
    Truthful fs chain (.write fb offset length ips) w := by
  apply truthful_of
  intro r w' hrun
  by_cases hstop : WriteStops w fb offset
  · obtain ⟨segs, hwrite⟩ := write_run hrun
    obtain ⟨hs, hneg⟩ := (cWrite_stops hwrite).1 hstop
    exact .inl ⟨hneg, hs⟩
  rcases write_outcome_run hst ht hb hfits.1
    (.inr ⟨h.resolve_left hstop, hfits.2.resolve_left hstop⟩) hrun with
    ⟨hs, hneg⟩ | ⟨hret, segs, u, fl, len, recs, news, w₁, cs, ho, -, -, hw⟩
  · exact .inl ⟨hneg, hs⟩
  · exact .inr ⟨Int.not_lt.mpr hret, u, fl, len, recs, news, w₁, cs, segs, ho, hw⟩

theorem truthful_chmod {path : CStr} {mode : UInt8} {uid : UInt32} (hst : Store w.dt fs chain)
    (ht : Tree fs) : Truthful fs chain (.chmod path mode uid) w := by
  apply truthful_of
  intro r w' hrun
  rcases wp_ok (wp_cChmod (H := True) hst ht path mode uid (.inl trivial))
    hrun with ⟨hs, hneg, -⟩ | hr
  · exact .inl ⟨ne_zero_of_neg hneg, hs⟩
  cases hpath : resolve fs.ents path with
  | none =>
    simp only [hpath] at hr
    obtain ⟨hs, rfl⟩ := hr
    exact .inl ⟨(by decide : (1 : Int) ≠ 0), hs⟩
  | some e =>
    simp only [hpath] at hr
    obtain ⟨o, ho, hc⟩ := hr
    unfold Chmoded at hc
    split at hc
    · obtain ⟨hs, rfl⟩ := hc
      exact .inl ⟨(by decide : (4 : Int) ≠ 0), hs⟩
    · obtain ⟨rfl, hp⟩ := hc
      exact .inr ⟨not_not_intro rfl, e, o, hpath, ho, hp⟩

theorem truthful_chown {path : CStr} {newuid uid : UInt32} (hst : Store w.dt fs chain)
    (ht : Tree fs) : Truthful fs chain (.chown path newuid uid) w := by
  apply truthful_of
  intro r w' hrun
  rcases wp_ok (wp_cChown (H := True) hst ht path newuid uid (.inl trivial))
    hrun with ⟨hs, hneg, -⟩ | hr
  · exact .inl ⟨ne_zero_of_neg hneg, hs⟩
  cases hpath : resolve fs.ents path with
  | none =>
    simp only [hpath] at hr
    obtain ⟨hs, rfl⟩ := hr
    exact .inl ⟨(by decide : (1 : Int) ≠ 0), hs⟩
  | some e =>
    simp only [hpath] at hr
    obtain ⟨o, ho, hc⟩ := hr
    unfold Chowned at hc
    split at hc
    · obtain ⟨hs, rfl⟩ := hc
      exact .inl ⟨(by decide : (4 : Int) ≠ 0), hs⟩
    split at hc
    · rename_i huid
      obtain ⟨hs, rfl⟩ := hc
      exact .inr ⟨not_not_intro rfl, e, o, hpath, ho, .inl ⟨huid, hs.dt⟩⟩
    split at hc
    · obtain ⟨hs, rfl⟩ := hc
      exact .inl ⟨(by decide : (4 : Int) ≠ 0), hs⟩
    · obtain ⟨rfl, hp⟩ := hc
      exact .inr ⟨not_not_intro rfl, e, o, hpath, ho, .inr hp⟩

/-! ## Calls that do not -/

/-- A freed chain is no unchanged disk. -/
theorem not_unchanged_freed {w' : World} {fb : Nat} (hst : Store w.dt fs chain)
    (hlive : ∃ o, fs fb = some o) (hfree : w'.dt.fat fb = FREESEC) :
    ¬ Unchanged fs chain w.dt w'.dt := by
  obtain ⟨o, ho⟩ := hlive
  have hat := hst.obj fb o ho
  intro h
  rw [h.fat] at hfree
  exact hat.fat_ne_zero hat.head_mem hfree

theorem heeds_mkdir {path : CStr} {uid : UInt32} {q : Int × World} (hst : Store w.dt fs chain)
    (ht : Tree fs) (hfits : Fits fs w (.mkdir path uid))
    (hrun : cMkdir path uid w = .ok q) (h : Truthful fs chain (.mkdir path uid) w) :
    Heeds fs w (.mkdir path uid) := by
  intro a hplan hgot hnull
  obtain ⟨d, name⟩ := a
  obtain ⟨hzero, hrewrote, hd⟩ :=
    wp_ok (wp_cMkdir_starved hst ht (hfits d name hplan) hplan hgot hnull) hrun
  obtain ⟨d', name', fb, hplan', hmakes⟩ := h.success q.1 q.2 hrun (not_not_intro hzero)
  exact hrewrote.not_makes hd hmakes

theorem heeds_openFile {path : CStr} {oflags mode : UInt8} {uid : UInt32} {q : Int × World}
    (hst : Store w.dt fs chain) (ht : Tree fs) (hfits : Fits fs w (.openFile path oflags mode uid))
    (hrun : cOpen path oflags mode uid w = .ok q)
    (h : Truthful fs chain (.openFile path oflags mode uid) w) :
    Heeds fs w (.openFile path oflags mode uid) := by
  intro d name hplan hgot hnull
  obtain ⟨hrewrote, ⟨o, hd⟩, hlonger⟩ :=
    wp_ok (wp_cOpen_starved hst ht (hfits d name hplan) hplan hgot hnull) hrun
  by_cases hfail : q.1 < 0
  · -- the table has grown, so the disk is not as it was
    have hsame := (h.error q.1 q.2 hrun hfail).objects d o hd d (hst.obj d o hd).head_mem
    rw [hsame] at hlonger
    exact Nat.lt_irrefl _ hlonger
  · obtain ⟨a, hplan', hopened⟩ := h.success q.1 q.2 hrun hfail
    cases hplan.symm.trans hplan'
    obtain ⟨fb, -, hmakes⟩ := hopened
    exact hrewrote.not_makes ⟨o, hd⟩ hmakes

theorem heeds_remove {path : CStr} {uid : UInt32} {q : Int × World} (hst : Store w.dt fs chain)
    (ht : Tree fs) (hrun : cRemove path uid w = .ok q)
    (h : Truthful fs chain (.remove path uid) w) : Heeds fs w (.remove path uid) := by
  intro a hplan hgot hnull
  obtain ⟨hneg, hlive, hfree⟩ := wp_ok (wp_cRemove_starved (d := a.1) hst ht hplan hgot hnull) hrun
  have hfail : q.1 ≠ 0 := by
    rw [hneg]
    decide
  exact not_unchanged_freed hst hlive hfree (h.error q.1 q.2 hrun hfail)

theorem heeds_rmdir {path : CStr} {uid : UInt32} {q : Int × World} (hst : Store w.dt fs chain)
    (ht : Tree fs) (hrun : cRmdir path uid w = .ok q)
    (h : Truthful fs chain (.rmdir path uid) w) : Heeds fs w (.rmdir path uid) := by
  intro d e hplan hgot
  have htail : w.env.heap .tail 0 ≠ none := by
    intro hnull
    obtain ⟨hneg, hlive, hfree⟩ := wp_ok (wp_cRmdir_starved hst ht hplan hgot hnull) hrun
    have hfail : q.1 ≠ 0 := by
      rw [hneg]
      decide
    exact not_unchanged_freed hst hlive hfree (h.error q.1 q.2 hrun hfail)
  refine ⟨fun hself => ?_, htail⟩
  have hzero := wp_ok (wp_cRmdir_itself hst ht hplan hgot hself htail) hrun
  obtain ⟨d', e', hplan', hdrops⟩ := h.success q.1 q.2 hrun (not_not_intro hzero)
  cases hplan.symm.trans hplan'
  obtain ⟨u, fl, p, kids, i, chain', -, hdropped⟩ := hdrops
  exact hdropped.unlinkable.ne ht hself

theorem heeds_write {fb : UInt32} {offset length : UInt64} {ips : List UInt32} {q : Int × World}
    (hst : Store w.dt fs chain) (ht : Tree fs) (hfits : Fits fs w (.write fb offset length ips))
    (hrun : (Call.write fb offset length ips).run w = .ok q)
    (h : Truthful fs chain (.write fb offset length ips) w) :
    Heeds fs w (.write fb offset length ips) := by
  by_cases hstop : WriteStops w fb offset
  · exact .inl hstop
  refine .inr ?_
  obtain ⟨segs, hwrite⟩ := write_run hrun
  have hcount := (cWrite_stops hwrite).2 hstop
  rw [rangeBlocks_nat (hfits.2.resolve_left hstop)] at hcount
  have hfail : ¬ q.1 < 0 := by
    rw [hcount]
    exact Int.not_lt.mpr (Int.natCast_nonneg _)
  obtain ⟨u, fl, len, recs, news, w₁, cs, segs', ho, -⟩ := h.success q.1 q.2 hrun hfail
  exact (live_iff hst ht _ _).mpr ⟨_, ho, rfl⟩

/-- A call on a disk that holds a file tree: an error code comes with a disk that is as it was
and any other value with the change that was asked for, when the call heeds what fails, and
among the calls that come back and do not move anything only then. -/
theorem call_truthful (hst : Store w.dt fs chain) (ht : Tree fs) (hb : Bounded fs) :
    (Fits fs w c → Heeds fs w c → Truthful fs chain c w) ∧
      (Fits fs w c → ¬ Moves fs w c → (∃ q, c.run w = .ok q) → Truthful fs chain c w →
        Heeds fs w c) := by
  constructor
  · intro hfits h
    cases c with
    | mkdir path uid => exact truthful_mkdir hst ht hfits h
    | openFile path oflags mode uid => exact truthful_openFile hst ht hfits h
    | remove path uid => exact truthful_remove hst ht h
    | rmdir path uid => exact truthful_rmdir hst ht h
    | move srcpath dstpath uid => exact truthful_move hst ht h
    | write fb offset length ips => exact truthful_write hst ht hb hfits h
    | chmod path mode uid => exact truthful_chmod hst ht
    | chown path newuid uid => exact truthful_chown hst ht
  · intro hfits hmoves hback htrue
    obtain ⟨q, hrun⟩ := hback
    cases c with
    | mkdir path uid => exact heeds_mkdir hst ht hfits hrun htrue
    | openFile path oflags mode uid => exact heeds_openFile hst ht hfits hrun htrue
    | remove path uid => exact heeds_remove hst ht hrun htrue
    | rmdir path uid => exact heeds_rmdir hst ht hrun htrue
    | move srcpath dstpath uid => exact fun a hplan hgot => hmoves ⟨⟨a, hplan⟩, hgot⟩
    | write fb offset length ips => exact heeds_write hst ht hfits hrun htrue
    | chmod path mode uid => trivial
    | chown path newuid uid => trivial

end Laws

theorem call_truthful_mkdir : ∃ w, FreshWorld w ∧
    Truthful freshFs (fun _ => [rootFb]) (.mkdir (rootPath letterA) 0) w := by
  obtain ⟨w, hw⟩ := exists_freshWorld
  have hfits : Fits freshFs w (.mkdir (rootPath letterA) 0) :=
    fun _ _ hp => (mkdirPlan_length hp).trans (by decide)
  exact ⟨w, hw, (call_truthful hw.1.store hw.1.tree bounded_fresh).1 hfits
    fun _ _ _ => hw.2.heap _ 0⟩

/-- `c_remove` frees the file before its last allocation fails. -/
theorem remove_half_done : ∃ w fs chain, Store w.dt fs chain ∧ Tree fs ∧ Bounded fs ∧
    ¬ Truthful fs chain (.remove (rootPath letterA) 0) w := by
  have hrun : ((twoCalls (calmly (.openFile (rootPath letterA) 8 6 0))
      ⟨.remove (rootPath letterA) 0, noTail⟩).any fun q =>
        q.2.2.1.dt.fat 2 == ENDSEC && q.2.2.2.1 == -9 && q.2.2.2.2.dt.fat 2 == FREESEC) = true := by
    decide +kernel
  simp only [Option.any_eq_true, Bool.and_eq_true, beq_iff_eq, Prod.exists] at hrun
  obtain ⟨s, r₁, s₁, r, s₂, hcalls, ⟨hbefore, rfl⟩, hafter⟩ := hrun
  obtain ⟨hfresh, hopen, -, w', hrem, rfl⟩ := twoCalls_returns hcalls
  have hsound : SoundStep s (calmly (.openFile (rootPath letterA) 8 6 0)) s₁ :=
    ⟨⟨r₁, hopen⟩, by decide, calm_succeeds _⟩
  obtain ⟨fs, chain, hst, ht, hb⟩ := holding_step (holding_fresh hfresh) hsound
  refine ⟨⟨s₁.dt, s₁.ipIndex, noTail⟩, fs, chain, hst, ht, hb, fun h => ?_⟩
  have hfat := (h.error _ _ hrem (by decide : (-9 : Int) ≠ 0)).fat
  have hslot : w'.dt.fat 2 = s₁.dt.fat 2 := congrFun hfat 2
  rw [hbefore] at hslot
  exact absurd (hafter.symm.trans hslot) (by decide)

end Sbpfs.Cfs.ErrorLaws
