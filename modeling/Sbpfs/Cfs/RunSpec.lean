import Sbpfs.Cfs.Calls
import Sbpfs.Cfs.DataSpec
import Sbpfs.Cfs.DiskView
import Sbpfs.Cfs.HeaderSpec
import Sbpfs.Cfs.Mkfs

/-!
# What a call does to the file tree

A call is sound on a disk when it keeps away from the places where the library spoils
the image: no allocation of a new object fails, no directory is removed through its own
entry, nothing is moved, and only live files are written. A sound call changes the tree
as `Effect` says and leaves the image in step with it.
-/
namespace Sbpfs.Cfs.RunSpec

open Sbpfs.Lib.Program Sbpfs.Lib.Memory Sbpfs.Lib.Run
open Sbpfs.Cfs.Layout Sbpfs.Cfs.Rules Sbpfs.Cfs.FatSpec Sbpfs.Cfs.File Sbpfs.Cfs.FileSpec
open Sbpfs.Cfs.Lookup Sbpfs.Cfs.Namespace Sbpfs.Cfs.Data Sbpfs.Cfs.Image Sbpfs.Cfs.DiskStore
open Sbpfs.Cfs.LookupSpec Sbpfs.Cfs.ObjectSpec Sbpfs.Cfs.BlockSpec Sbpfs.Cfs.NamespaceSpec
open Sbpfs.Cfs.DataSpec Sbpfs.Cfs.HeaderSpec Sbpfs.Cfs.Mkfs Sbpfs.Cfs.DiskView Sbpfs.Cfs.Calls
open Sbpfs.Spec.FileTree Sbpfs.Spec.Resolve

attribute [local irreducible] wpOr

/-- The write is refused, or goes to a live file and ends at a place a block number reaches. -/
def WriteSound (dt : Dtree) (fb offset length : Nat) : Prop :=
  metaFlen (dt.data (sectorOf fb)) < offset ∨ (Live dt fb S_FIL ∧ offset + length ≤ MAX_END)

/-- The call keeps away from the places where the library spoils the image. -/
def Sound (dt : Dtree) (c : Call) (e : Env) : Prop :=
  match c with
  | .mkdir path _ => path.length < 2 ^ 31 ∧ Env.Succeeds e .initdir
  | .openFile path _ _ _ => path.length < 2 ^ 31 ∧ Env.Succeeds e .initfile
  | .remove _ _ => Env.Succeeds e .tail
  | .rmdir path uid => Env.Succeeds e .tail ∧
      ∀ d ent, rmdirPlan (diskView dt) path uid = .ok (d, ent) → ent.fb ≠ d
  | .move srcpath dstpath uid => ∃ code, movePlan (diskView dt) srcpath dstpath uid = .error code
  | .write fb offset length _ => WriteSound dt fb.toNat offset.toNat length.toNat
  | .chmod .. => True
  | .chown .. => True

/-- The tree and the block counter after a call with the value `r`. -/
inductive Effect (fs : Fs) (m : Nat) : Call → Int → Fs → Nat → Prop
  | same (c : Call) (r : Int) : Effect fs m c r fs m
  | mkdir {path name : CStr} {uid : UInt32} {d u p fb : Nat} {fl : UInt8} {kids : List Ent}
      (plan : mkdirPlan (view fs) path uid = .ok (d, name))
      (hl : Linkable fs d ⟨u, fl, .dir p kids⟩ p kids ⟨name, fb, S_DIR⟩ (newDir uid d)) :
      Effect fs m (.mkdir path uid) 0
        (link fs d ⟨u, fl, .dir p kids⟩ p kids ⟨name, fb, S_DIR⟩ (newDir uid d)) m
  | create {path name : CStr} {uid : UInt32} {oflags mode fl : UInt8} {d u p fb : Nat}
      {kids : List Ent} (plan : openPlan (view fs) path uid = .ok (d, name, none))
      (hl : Linkable fs d ⟨u, fl, .dir p kids⟩ p kids ⟨name, fb, S_FIL⟩ (newFile uid mode)) :
      Effect fs m (.openFile path oflags mode uid) fb
        (link fs d ⟨u, fl, .dir p kids⟩ p kids ⟨name, fb, S_FIL⟩ (newFile uid mode)) m
  | found {path name : CStr} {uid : UInt32} {oflags mode : UInt8} {d : Nat} {e : Ent}
      (plan : openPlan (view fs) path uid = .ok (d, name, some e)) :
      Effect fs m (.openFile path oflags mode uid) e.fb fs m
  | remove {path : CStr} {uid : UInt32} {d u p i : Nat} {fl : UInt8} {kids : List Ent} {e : Ent}
      (plan : removePlan (view fs) path uid = .ok (d, e))
      (hu : Unlinkable fs d ⟨u, fl, .dir p kids⟩ p kids i e) :
      Effect fs m (.remove path uid) 0 (unlink fs d ⟨u, fl, .dir p kids⟩ p kids i e.fb) m
  | rmdir {path : CStr} {uid : UInt32} {d u p i : Nat} {fl : UInt8} {kids : List Ent} {e : Ent}
      (plan : rmdirPlan (view fs) path uid = .ok (d, e))
      (hu : Unlinkable fs d ⟨u, fl, .dir p kids⟩ p kids i e) :
      Effect fs m (.rmdir path uid) 0 (unlink fs d ⟨u, fl, .dir p kids⟩ p kids i e.fb) m
  | chmod {path : CStr} {mode : UInt8} {uid : UInt32} {e : Ent} {o : Obj}
      (path_eq : resolve fs.ents path = some e) (obj : fs e.fb = some o)
      (own : ownCheck uid o.uid = true) :
      Effect fs m (.chmod path mode uid) 0
        (Function.update fs e.fb (some { o with flags := chmodFlags o.flags mode })) m
  | chown {path : CStr} {newuid : UInt32} {e : Ent} {o : Obj}
      (path_eq : resolve fs.ents path = some e) (obj : fs e.fb = some o) :
      Effect fs m (.chown path newuid 0) 0
        (Function.update fs e.fb (some { o with uid := newuid.toNat })) m
  | write {fb : UInt32} {offset length : UInt64} {ips : List UInt32} {u len m' : Nat} {fl : UInt8}
      {recs news : List Rec} {r : Int} (obj : fs fb.toNat = some ⟨u, fl, .file len recs⟩)
      (offset_le : offset.toNat ≤ len) (end_le : offset.toNat + length.toNat ≤ MAX_END)
      (grow : news.length = growth recs.length (offset.toNat + length.toNat))
      (count : (recs ++ news).length = blocksFor (max len (offset.toNat + length.toNat)))
      (counter : m + news.length < 2 ^ 64 → m' = m + news.length)
      (nums : m + news.length < 2 ^ 64 → ∀ i r, news[i]? = some r → r.num = m + i)
      (ret : r = (blocksFor (offset.toNat + length.toNat) - offset.toNat / BLOCKSIZE : Nat)) :
      Effect fs m (.write fb offset length ips) r (Function.update fs fb.toNat
        (some ⟨u, fl, .file (max len (offset.toNat + length.toNat)) (recs ++ news)⟩)) m'

/-- No file ends behind the last place a block number reaches. -/
def Bounded (fs : Fs) : Prop :=
  ∀ fb u fl len recs, fs fb = some ⟨u, fl, .file len recs⟩ → len ≤ MAX_END

section Step

variable {fs : Fs} {chain : Nat → List Nat} {w : World}

/-- The disk after a call holds a tree that the call's effect explains. -/
def Explained (fs : Fs) (c : Call) (w : World) (r : Int) (w' : World) : Prop :=
  ∃ fs' chain', Store w'.dt fs' chain' ∧
    Effect fs w.dt.sb.maxBlockNum c r fs' w'.dt.sb.maxBlockNum

theorem explained_same (hst : Store w.dt fs chain) (c : Call) {r : Int} {w' : World}
    (hs : Same w w') : Explained fs c w r w' := by
  refine ⟨fs, chain, ?_, ?_⟩
  · rw [hs.dt]
    exact hst
  · rw [hs.dt]
    exact .same c r

theorem explained_outcome {α : Type} {plan : Except Int α} {did : α → Int → World → Prop} {c : Call}
    {r : Int} {w' : World} (hst : Store w.dt fs chain) (h : Outcome w plan did r w')
    (hdid : ∀ a, plan = .ok a → did a r w' → Explained fs c w r w') : Explained fs c w r w' := by
  rcases h with ⟨hs, -, -⟩ | h
  · exact explained_same hst c hs
  · cases hplan : plan with
    | error code =>
      simp only [hplan] at h
      exact explained_same hst c h.1
    | ok a =>
      simp only [hplan] at h
      exact hdid a hplan h

theorem explained_mkdir (hst : Store w.dt fs chain) (ht : Tree fs) {path : CStr} {uid : UInt32}
    (h : Sound w.dt (.mkdir path uid) w.env) :
    wp (cMkdir path uid) (Explained fs (.mkdir path uid) w) w := by
  refine wp_mono (wp_cMkdir hst ht uid
    (fun _ _ hp => (mkdirPlan_length hp).trans (h.1.trans (by decide))) (fun _ _ _ => h.2 0)
    (.inl trivial)) fun r w' ho => explained_outcome hst ho ?_
  rintro ⟨d, name⟩ hplan ⟨rfl, fb, u, fl, p, kids, chain', -, he⟩
  refine ⟨_, chain', he.store, ?_⟩
  rw [he.maxBlockNum]
  exact .mkdir hplan he.linkable

theorem explained_openFile (hst : Store w.dt fs chain) (ht : Tree fs) {path : CStr}
    {oflags mode : UInt8} {uid : UInt32} (h : Sound w.dt (.openFile path oflags mode uid) w.env) :
    wp (cOpen path oflags mode uid) (Explained fs (.openFile path oflags mode uid) w) w := by
  refine wp_mono (wp_cOpen hst ht oflags mode uid
    (fun _ _ hp => (openPlan_length hp).trans (h.1.trans (by decide))) (fun _ _ _ _ => h.2 0)
    (.inl trivial)) fun r w' ho => explained_outcome hst ho ?_
  rintro ⟨d, name, e⟩ hplan hopened
  cases e with
  | none =>
    obtain ⟨fb, rfl, u, fl, p, kids, chain', -, he⟩ := hopened
    refine ⟨_, chain', he.store, ?_⟩
    rw [he.maxBlockNum]
    exact .create hplan he.linkable
  | some e =>
    obtain ⟨hs, rfl⟩ := hopened
    refine ⟨fs, chain, ?_, ?_⟩
    · rw [hs.dt]
      exact hst
    · rw [hs.dt]
      exact .found hplan

theorem explained_remove (hst : Store w.dt fs chain) (ht : Tree fs) {path : CStr} {uid : UInt32}
    (h : Sound w.dt (.remove path uid) w.env) :
    wp (cRemove path uid) (Explained fs (.remove path uid) w) w := by
  refine wp_mono (wp_cRemove hst ht path uid (fun _ _ _ => h 0) (.inl trivial)) fun r w' ho =>
    explained_outcome hst ho ?_
  rintro ⟨d, e⟩ hplan ⟨rfl, u, fl, p, kids, i, chain', -, hd⟩
  refine ⟨_, chain', hd.store, ?_⟩
  rw [hd.maxBlockNum]
  exact .remove hplan hd.unlinkable

theorem explained_rmdir (hst : Store w.dt fs chain) (ht : Tree fs) {path : CStr} {uid : UInt32}
    (h : Sound w.dt (.rmdir path uid) w.env) :
    wp (cRmdir path uid) (Explained fs (.rmdir path uid) w) w := by
  have hself : ∀ d e, rmdirPlan (view fs) path uid = .ok (d, e) → e.fb ≠ d := by
    rw [← rmdirPlan_agree hst ht]
    exact h.2
  refine wp_mono (wp_cRmdir hst ht path uid (fun d e hp _ => ⟨hself d e hp, h.1 0⟩)
    (.inl trivial)) fun r w' ho => explained_outcome hst ho ?_
  rintro ⟨d, e⟩ hplan ⟨rfl, u, fl, p, kids, i, chain', -, hd⟩
  refine ⟨_, chain', hd.store, ?_⟩
  rw [hd.maxBlockNum]
  exact .rmdir hplan hd.unlinkable

theorem explained_move (hst : Store w.dt fs chain) (ht : Tree fs) {srcpath dstpath : CStr}
    {uid : UInt32} (h : Sound w.dt (.move srcpath dstpath uid) w.env) :
    wp (cMove srcpath dstpath uid) (Explained fs (.move srcpath dstpath uid) w) w := by
  obtain ⟨code, hplan⟩ := h
  rw [movePlan_agree hst ht] at hplan
  exact wp_mono (wp_cMove_refused hst ht hplan (.inl trivial)) fun r w' hr =>
    explained_same hst _ hr.1

theorem explained_chmod (hst : Store w.dt fs chain) (ht : Tree fs) (path : CStr) (mode : UInt8)
    (uid : UInt32) :
    wp (cChmod path mode uid) (Explained fs (.chmod path mode uid) w) w := by
  refine wp_mono (wp_cChmod hst ht path mode uid (.inl trivial)) fun r w' hr => ?_
  rcases hr with ⟨hs, -, -⟩ | hr
  · exact explained_same hst _ hs
  cases hpath : resolve fs.ents path with
  | none =>
    simp only [hpath] at hr
    exact explained_same hst _ hr.1
  | some e =>
    simp only [hpath] at hr
    obtain ⟨o, ho, hc⟩ := hr
    unfold Chmoded at hc
    by_cases hown : ownCheck uid o.uid = true
    · rw [if_neg (not_not_intro hown)] at hc
      obtain ⟨rfl, hp⟩ := hc
      refine ⟨_, chain, hp.store, ?_⟩
      rw [hp.maxBlockNum]
      exact .chmod hpath ho hown
    · rw [if_pos hown] at hc
      exact explained_same hst _ hc.1

theorem explained_chown (hst : Store w.dt fs chain) (ht : Tree fs) (path : CStr)
    (newuid uid : UInt32) :
    wp (cChown path newuid uid) (Explained fs (.chown path newuid uid) w) w := by
  refine wp_mono (wp_cChown hst ht path newuid uid (.inl trivial)) fun r w' hr => ?_
  rcases hr with ⟨hs, -, -⟩ | hr
  · exact explained_same hst _ hs
  cases hpath : resolve fs.ents path with
  | none =>
    simp only [hpath] at hr
    exact explained_same hst _ hr.1
  | some e =>
    simp only [hpath] at hr
    obtain ⟨o, ho, hc⟩ := hr
    unfold Chowned at hc
    split at hc
    · exact explained_same hst _ hc.1
    split at hc
    · exact explained_same hst _ hc.1
    split at hc
    · exact explained_same hst _ hc.1
    · rename_i hroot
      obtain ⟨rfl, hp⟩ := hc
      obtain rfl : uid = 0 := by simpa using hroot
      refine ⟨_, chain, hp.store, ?_⟩
      rw [hp.maxBlockNum]
      exact .chown hpath ho

/-- A write behind the end of what the first sector calls a file is refused. -/
theorem wp_cWrite_refused {fb : UInt32} {offset length : UInt64} {ips : List Nat} {cap : Nat}
    (hlt : sectorOf fb.toNat < w.dt.dataSecs)
    (h : metaFlen (w.dt.data (sectorOf fb.toNat)) < offset.toNat) :
    wp (cWrite fb offset length ips cap) (fun r w' => w' = w ∧ r = (-1, [])) w := by
  unfold cWrite
  simp only [wp_bind, wp_readSector, wp_ite]
  refine ⟨hlt, ?_⟩
  rw [if_pos h]
  exact (wp_pure _ _ _).mpr ⟨rfl, rfl⟩

/-- An execution of a refused write leaves everything alone. -/
theorem cWrite_refused {fb : UInt32} {offset length : UInt64} {ips : List Nat} {cap : Nat}
    {q : Int × List SendBlock} {w' : World}
    (h : metaFlen (w.dt.data (sectorOf fb.toNat)) < offset.toNat)
    (hrun : cWrite fb offset length ips cap w = .ok (q, w')) : w' = w ∧ q = (-1, []) := by
  by_cases hlt : sectorOf fb.toNat < w.dt.dataSecs
  · have hwp : wp (cWrite fb offset length ips cap) (fun r w' => w' = w ∧ r = (-1, [])) w :=
      wp_cWrite_refused hlt h
    have hpost := wp_ok hwp hrun
    exact hpost
  · unfold cWrite at hrun
    obtain ⟨b, t, hread, -⟩ := bind_ok.mp hrun
    unfold readSector at hread
    obtain ⟨dt, t', hdt, hread⟩ := bind_ok.mp hread
    cases hdt
    rw [if_neg hlt] at hread
    cases hread

/-- The same for a read. -/
theorem cRead_refused {fb : UInt32} {offset length : UInt64} {cap : Nat}
    {q : Int × List SendBlock} {w' : World}
    (h : metaFlen (w.dt.data (sectorOf fb.toNat)) < offset.toNat)
    (hrun : cRead fb offset length cap w = .ok (q, w')) : q = (-1, []) := by
  unfold cRead at hrun
  obtain ⟨b, t, hread, hrest⟩ := bind_ok.mp hrun
  unfold readSector at hread
  obtain ⟨dt, t', hdt, hread⟩ := bind_ok.mp hread
  cases hdt
  split at hread
  · cases hread
    rw [if_pos h] at hrest
    exact (pure_ok.mp hrest).1.symm
  · cases hread

/-- A sound write is refused, finds no memory, or writes to a live file. -/
theorem write_outcome (hst : Store w.dt fs chain) (ht : Tree fs) (hb : Bounded fs)
    {fb : UInt32} {offset length : UInt64} {ips : List Nat} {cap : Nat} (hips : ips ≠ [])
    (hcap : length.toNat / BLOCKSIZE + 2 ≤ cap) {q : Int × List SendBlock} {w' : World}
    (h : WriteSound w.dt fb.toNat offset.toNat length.toNat)
    (hrun : cWrite fb offset length ips cap w = .ok (q, w')) :
    (Same w w' ∧ q.1 < 0) ∨ ∃ u fl len recs news w₁ cs,
      fs fb.toNat = some ⟨u, fl, .file len recs⟩ ∧ offset.toNat ≤ len ∧
      offset.toNat + length.toNat ≤ MAX_END ∧
      Wrote fs chain fb.toNat u fl len recs offset.toNat length.toNat ips w q w' news w₁ cs := by
  rcases h with h | ⟨hlive, hend⟩
  · obtain ⟨rfl, rfl⟩ := cWrite_refused h hrun
    exact .inl ⟨Same.refl _, by decide⟩
  obtain ⟨u, fl, len, recs, ho⟩ := live_file hst ht hlive
  have hlen : len ≤ MAX_END := hb _ _ _ _ _ ho
  have hpost :=
    wp_ok (wp_cWrite (H := True) hst ho hlen (fun _ => hend) hips hcap (.inl trivial)) hrun
  rcases hpost with ⟨hs, ⟨rfl, -⟩ | ⟨-, rfl⟩⟩ | ⟨hoff, news, w₁, cs, hw⟩
  · exact .inl ⟨hs, by decide⟩
  · exact .inl ⟨hs, by decide⟩
  · exact .inr ⟨u, fl, len, recs, news, w₁, cs, ho, hoff, hend, hw⟩

/-- The call is one of `c_write`. -/
theorem write_run {fb : UInt32} {offset length : UInt64} {ips : List UInt32} {r : Int} {w' : World}
    (hrun : (Call.write fb offset length ips).run w = .ok (r, w')) :
    ∃ segs, cWrite fb offset length (ips.map UInt32.toNat) (replyCap length) w
      = .ok ((r, segs), w') := by
  obtain ⟨⟨ret, segs⟩, w₁, hwrite, hret⟩ := bind_ok.mp hrun
  obtain ⟨rfl, rfl⟩ := pure_ok.mp hret
  exact ⟨segs, hwrite⟩

theorem map_toNat_ne {ips : List UInt32} (h : ips ≠ []) : ips.map UInt32.toNat ≠ [] :=
  fun hnil => h (List.map_eq_nil_iff.mp hnil)

/-- A call writes, with a value that is not negative, or leaves the disk as it is. -/
theorem write_outcome_run (hst : Store w.dt fs chain) (ht : Tree fs) (hb : Bounded fs)
    {fb : UInt32} {offset length : UInt64} {ips : List UInt32} (hips : ips ≠ []) {r : Int}
    {w' : World} (h : WriteSound w.dt fb.toNat offset.toNat length.toNat)
    (hrun : (Call.write fb offset length ips).run w = .ok (r, w')) :
    (Same w w' ∧ r < 0) ∨ 0 ≤ r ∧ ∃ segs u fl len recs news w₁ cs,
      fs fb.toNat = some ⟨u, fl, .file len recs⟩ ∧ offset.toNat ≤ len ∧
      offset.toNat + length.toNat ≤ MAX_END ∧ Wrote fs chain fb.toNat u fl len recs offset.toNat
        length.toNat (ips.map UInt32.toNat) w (r, segs) w' news w₁ cs := by
  obtain ⟨segs, hwrite⟩ := write_run hrun
  refine (write_outcome hst ht hb (map_toNat_ne hips) (Nat.le_refl _) h hwrite).imp_right ?_
  rintro ⟨u, fl, len, recs, news, w₁, cs, ho, hoff, hend, hw⟩
  have hreply : r = _ := congrArg Prod.fst hw.reply
  refine ⟨?_, segs, u, fl, len, recs, news, w₁, cs, ho, hoff, hend, hw⟩
  rw [hreply]
  exact Int.natCast_nonneg _

theorem explained_write (hst : Store w.dt fs chain) (ht : Tree fs) (hb : Bounded fs)
    {fb : UInt32} {offset length : UInt64} {ips : List UInt32} (hips : ips ≠ []) {r : Int}
    {w' : World} (h : Sound w.dt (.write fb offset length ips) w.env)
    (hrun : (Call.write fb offset length ips).run w = .ok (r, w')) :
    Explained fs (.write fb offset length ips) w r w' := by
  rcases write_outcome_run hst ht hb hips h hrun with
    ⟨hs, -⟩ | ⟨-, segs, u, fl, len, recs, news, w₁, cs, ho, hoff, hend, hw⟩
  · exact explained_same hst _ hs
  have halloc := hw.alloc
  have hcounter := hw.rewritten.maxBlockNum
  refine ⟨_, _, hw.rewritten.store, .write ho hoff hend halloc.length hw.count ?_ ?_ ?_⟩
  · intro hlt
    rw [halloc.length] at hlt ⊢
    rw [hcounter]
    exact halloc.maxBlockNum hlt
  · intro hlt
    rw [halloc.length] at hlt
    exact halloc.nums hlt
  · exact congrArg Prod.fst hw.reply

/-- A sound call does to the tree what its effect says. -/
theorem explained {c : Call} {s : Sys} {e : Env} {r : Int} {w' : World}
    (hst : Store s.dt fs chain) (ht : Tree fs) (hb : Bounded fs) (hallow : c.Allowed s)
    (h : Sound s.dt c e) (hrun : c.run ⟨s.dt, s.ipIndex, e⟩ = .ok (r, w')) :
    Explained fs c ⟨s.dt, s.ipIndex, e⟩ r w' := by
  cases c with
  | mkdir path uid =>
    have := wp_ok (explained_mkdir (w := ⟨s.dt, s.ipIndex, e⟩) hst ht h) hrun
    exact this
  | openFile path oflags mode uid =>
    have := wp_ok (explained_openFile (w := ⟨s.dt, s.ipIndex, e⟩) hst ht h) hrun
    exact this
  | remove path uid =>
    have := wp_ok (explained_remove (w := ⟨s.dt, s.ipIndex, e⟩) hst ht h) hrun
    exact this
  | rmdir path uid =>
    have := wp_ok (explained_rmdir (w := ⟨s.dt, s.ipIndex, e⟩) hst ht h) hrun
    exact this
  | move srcpath dstpath uid =>
    have := wp_ok (explained_move (w := ⟨s.dt, s.ipIndex, e⟩) hst ht h) hrun
    exact this
  | chmod path mode uid =>
    have := wp_ok (explained_chmod (w := ⟨s.dt, s.ipIndex, e⟩) hst ht path mode uid) hrun
    exact this
  | chown path newuid uid =>
    have := wp_ok (explained_chown (w := ⟨s.dt, s.ipIndex, e⟩) hst ht path newuid uid) hrun
    exact this
  | write fb offset length ips => exact explained_write hst ht hb hallow.2 h hrun

end Step

/-! ## What a call does to one object -/

/-- The call takes the object at `n` away. -/
def TakesAway (fs : Fs) (c : Call) (r : Int) (n : Nat) : Prop :=
  r = 0 ∧ ∃ path uid d e, e.fb = n ∧
    ((c = .remove path uid ∧ removePlan (view fs) path uid = .ok (d, e)) ∨
      (c = .rmdir path uid ∧ rmdirPlan (view fs) path uid = .ok (d, e)))

/-- The call makes a new file in the directory `n`. -/
def Creates (v : View) (c : Call) (n : Nat) : Prop :=
  ∃ path oflags mode uid name, c = .openFile path oflags mode uid ∧
    openPlan v path uid = .ok (n, name, none)

/-- What a call may do to an object `o` at `n` that it leaves alive. -/
structure Change (fs : Fs) (c : Call) (n : Nat) (o o' : Obj) : Prop where
  uid : o'.uid = o.uid ∨ ∃ path newuid, c = .chown path newuid 0
  flags : o'.flags = o.flags ∨
    ∃ path mode uid, c = .chmod path mode uid ∧ ownCheck uid o.uid = true
  dir : ∀ p kids, o.node = .dir p kids → ∃ kids', o'.node = .dir p kids' ∧
    (kids' = kids ∨ (∃ uid, c.caller = some uid ∧ perm uid o W ≠ 0) ∨ Creates (view fs) c n)
  file : ∀ len recs, o.node = .file len recs → ∃ len' recs', o'.node = .file len' recs'

theorem Change.refl (fs : Fs) (c : Call) (n : Nat) (o : Obj) : Change fs c n o o :=
  ⟨.inl rfl, .inl rfl, fun _ kids h => ⟨kids, h, .inl rfl⟩, fun len recs h => ⟨len, recs, h⟩⟩

section Change

variable {fs : Fs} {c : Call} {d n u p i : Nat} {fl : UInt8} {kids : List Ent}
    {e : Ent} {o on : Obj}

/-- An object beside a new one. -/
theorem change_link (hl : Linkable fs d ⟨u, fl, .dir p kids⟩ p kids e o) (hn : fs n = some on)
    (hw : (∃ uid, c.caller = some uid ∧ perm uid ⟨u, fl, .dir p kids⟩ W ≠ 0) ∨
      Creates (view fs) c d) :
    ∃ o', link fs d ⟨u, fl, .dir p kids⟩ p kids e o n = some o' ∧ Change fs c n on o' := by
  by_cases hd : n = d
  · subst hd
    rw [hl.dir] at hn
    cases hn
    refine ⟨_, link_dir .., .inl rfl, .inl rfl, ?_, ?_⟩
    · rintro p' kids' ⟨⟩
      exact ⟨_, rfl, .inr hw⟩
    · rintro len recs ⟨⟩
  · have hne : n ≠ e.fb := by
      rintro rfl
      rw [hl.fresh] at hn
      cases hn
    exact ⟨on, (link_ne hd hne).trans hn, Change.refl ..⟩

/-- An object beside one that goes. -/
theorem change_unlink (hu : Unlinkable fs d ⟨u, fl, .dir p kids⟩ p kids i e) (hn : fs n = some on)
    (hne : n ≠ e.fb)
    (hw : ∃ uid, c.caller = some uid ∧ perm uid ⟨u, fl, .dir p kids⟩ W ≠ 0) :
    ∃ o', unlink fs d ⟨u, fl, .dir p kids⟩ p kids i e.fb n = some o' ∧ Change fs c n on o' := by
  by_cases hd : n = d
  · subst hd
    rw [hu.dir] at hn
    cases hn
    refine ⟨_, unlink_dir .., .inl rfl, .inl rfl, ?_, ?_⟩
    · rintro p' kids' ⟨⟩
      exact ⟨_, rfl, .inr (.inl hw)⟩
    · rintro len recs ⟨⟩
  · exact ⟨on, (unlink_ne hd hne).trans hn, Change.refl ..⟩

/-- An object beside one that changes in place. -/
theorem change_update {m : Nat} {o' : Obj} (hm : fs m = some o) (hn : fs n = some on)
    (h : Change fs c m o o') :
    ∃ o₁, Function.update fs m (some o') n = some o₁ ∧ Change fs c n on o₁ := by
  by_cases hnm : n = m
  · subst hnm
    rw [hm] at hn
    cases hn
    exact ⟨o', Function.update_self .., h⟩
  · exact ⟨on, by rw [Function.update_of_ne hnm, hn], Change.refl ..⟩

end Change

section Plans

variable {v : View} {path name : CStr} {uid : UInt32} {d : Nat} {e : Ent}

theorem mkdirPlan_may (h : mkdirPlan v path uid = .ok (d, name)) : v.may uid d W ≠ 0 := by
  unfold mkdirPlan at h
  split at h
  · cases h
  · split at h
    · cases h
    · split at h
      · cases h
      · cases h
        assumption

theorem removePlan_ok (h : removePlan v path uid = .ok (d, e)) :
    v.may uid d W ≠ 0 ∧ e ∈ v.ents d ∧ e.type ≠ S_DIR := by
  unfold removePlan at h
  split at h
  · cases h
  · split at h
    · cases h
    · split at h
      · cases h
      · split at h
        · cases h
        · rename_i hmay _ _ hfind hne
          cases h
          exact ⟨hmay, findName_mem hfind, hne⟩

theorem rmdirPlan_ok (h : rmdirPlan v path uid = .ok (d, e)) :
    v.may uid d W ≠ 0 ∧ e ∈ v.ents d ∧ e.type = S_DIR ∧ (v.ents e.fb).length ≤ 2 := by
  unfold rmdirPlan at h
  split at h
  · cases h
  · split at h
    · cases h
    · split at h
      · cases h
      · split at h
        · cases h
        · split at h
          · cases h
          · rename_i hmay _ _ hfind hne hlen
            cases h
            exact ⟨hmay, findName_mem hfind, not_not.mp hne, by omega⟩

end Plans

theorem Effect.change {fs fs' : Fs} {m m' : Nat} {c : Call} {r : Int} (h : Effect fs m c r fs' m')
    (ht : Tree fs) {n : Nat} {o : Obj} (hn : fs n = some o) :
    (fs' n = none ∧ TakesAway fs c r n) ∨ ∃ o', fs' n = some o' ∧ Change fs c n o o' := by
  cases h with
  | same => exact .inr ⟨o, hn, Change.refl ..⟩
  | mkdir plan hl =>
    have hmay := mkdirPlan_may plan
    rw [view_may hl.dir] at hmay
    exact .inr (change_link hl hn (.inl ⟨_, rfl, hmay⟩))
  | create plan hl => exact .inr (change_link hl hn (.inr ⟨_, _, _, _, _, rfl, plan⟩))
  | found => exact .inr ⟨o, hn, Change.refl ..⟩
  | @remove path uid d u p i fl kids e plan hu =>
    have hmay := (removePlan_ok plan).1
    rw [view_may hu.dir] at hmay
    by_cases hne : n = e.fb
    · subst hne
      refine .inl ⟨?_, rfl, path, uid, d, e, rfl, .inl ⟨rfl, plan⟩⟩
      exact hu.unlink_self ht
    · exact .inr (change_unlink hu hn hne ⟨uid, rfl, hmay⟩)
  | @rmdir path uid d u p i fl kids e plan hu =>
    have hmay := (rmdirPlan_ok plan).1
    rw [view_may hu.dir] at hmay
    by_cases hne : n = e.fb
    · subst hne
      refine .inl ⟨?_, rfl, path, uid, d, e, rfl, .inr ⟨rfl, plan⟩⟩
      exact hu.unlink_self ht
    · exact .inr (change_unlink hu hn hne ⟨uid, rfl, hmay⟩)
  | @chmod path mode uid e o₁ _ obj own =>
    refine .inr (change_update obj hn ⟨.inl rfl, .inr ⟨path, mode, uid, rfl, own⟩, ?_, ?_⟩)
    · exact fun _ kids hk => ⟨kids, hk, .inl rfl⟩
    · exact fun len recs hf => ⟨len, recs, hf⟩
  | @chown path newuid e o₁ _ obj =>
    refine .inr (change_update obj hn ⟨.inr ⟨path, newuid, rfl⟩, .inl rfl, ?_, ?_⟩)
    · exact fun _ kids hk => ⟨kids, hk, .inl rfl⟩
    · exact fun len recs hf => ⟨len, recs, hf⟩
  | write obj =>
    refine .inr (change_update obj hn ⟨.inl rfl, .inl rfl, ?_, ?_⟩)
    · rintro _ _ ⟨⟩
    · rintro _ _ ⟨⟩
      exact ⟨_, _, rfl⟩

/-- A file that a call other than a write leaves behind was there before, as it is, or is
new and empty. -/
theorem Effect.fileFrom {fs fs' : Fs} {m m' n u len : Nat} {c : Call} {r : Int} {fl : UInt8}
    {recs : List Rec} (h : Effect fs m c r fs' m') (ht : Tree fs)
    (hc : ∀ fb offset length ips, c ≠ .write fb offset length ips)
    (hn : fs' n = some ⟨u, fl, .file len recs⟩) :
    (∃ u' fl', fs n = some ⟨u', fl', .file len recs⟩) ∨ (fs n = none ∧ len = 0 ∧ recs = []) := by
  have hunlink : ∀ {d u' p i e} {fl' : UInt8} {kids : List Ent},
      Unlinkable fs d ⟨u', fl', .dir p kids⟩ p kids i e →
      unlink fs d ⟨u', fl', .dir p kids⟩ p kids i e.fb n = some ⟨u, fl, .file len recs⟩ →
      fs n = some ⟨u, fl, .file len recs⟩ := by
    intro d u' p i e fl' kids hu hun
    by_cases hd : n = d
    · subst hd
      rw [unlink_dir] at hun
      cases hun
    by_cases hne : n = e.fb
    · subst hne
      rw [hu.unlink_self ht] at hun
      cases hun
    · rwa [unlink_ne hd hne] at hun
  have hupdate : ∀ {k u' fl'} {o : Obj}, fs k = some o →
      Function.update fs k (some ⟨u', fl', o.node⟩) n = some ⟨u, fl, .file len recs⟩ →
      ∃ u' fl', fs n = some ⟨u', fl', .file len recs⟩ := by
    rintro k u' fl' ⟨uo, flo, node⟩ hk hup
    by_cases hnk : n = k
    · subst hnk
      rw [Function.update_self] at hup
      cases hup
      exact ⟨uo, flo, hk⟩
    · rw [Function.update_of_ne hnk] at hup
      exact ⟨u, fl, hup⟩
  cases h with
  | same => exact .inl ⟨u, fl, hn⟩
  | @mkdir path name uid d _ p fb _ kids _ hl =>
    by_cases hd : n = d
    · subst hd
      rw [link_dir] at hn
      cases hn
    by_cases hne : n = fb
    · subst hne
      rw [link, Function.update_of_ne hd, Function.update_self] at hn
      cases hn
    · rw [link_ne hd hne] at hn
      exact .inl ⟨u, fl, hn⟩
  | @create path name uid _ _ _ d _ p fb kids _ hl =>
    by_cases hd : n = d
    · subst hd
      rw [link_dir] at hn
      cases hn
    by_cases hne : n = fb
    · subst hne
      rw [link, Function.update_of_ne hd, Function.update_self] at hn
      cases hn
      exact .inr ⟨hl.fresh, rfl, rfl⟩
    · rw [link_ne hd hne] at hn
      exact .inl ⟨u, fl, hn⟩
  | found => exact .inl ⟨u, fl, hn⟩
  | remove _ hu => exact .inl ⟨u, fl, hunlink hu hn⟩
  | rmdir _ hu => exact .inl ⟨u, fl, hunlink hu hn⟩
  | chmod _ obj => exact .inl (hupdate obj hn)
  | chown _ obj => exact .inl (hupdate obj hn)
  | write => exact absurd rfl (hc _ _ _ _)

/-! ## Runs of sound calls -/

/-- A call that is sound where it is made. -/
def SoundStep (s : Sys) (a : Action) (s' : Sys) : Prop := Step s a s' ∧ Sound s.dt a.call a.env

/-- The disk holds a file tree. -/
def Holding (s : Sys) : Prop :=
  ∃ fs chain, Store s.dt fs chain ∧ Tree fs ∧ Bounded fs

theorem Effect.tree {fs fs' : Fs} {m m' : Nat} {c : Call} {r : Int} (h : Effect fs m c r fs' m')
    (ht : Tree fs) : Tree fs' := by
  cases h with
  | same => exact ht
  | mkdir _ hl => exact ht.link hl
  | create _ hl => exact ht.link hl
  | found => exact ht
  | remove _ hu => exact ht.unlink hu
  | rmdir _ hu => exact ht.unlink hu
  | chmod _ obj => exact ht.touch obj (SameShape.refl _)
  | chown _ obj => exact ht.touch obj (SameShape.refl _)
  | write obj => exact ht.touch obj trivial

theorem Bounded.update {fs : Fs} (hb : Bounded fs) {fb : Nat} {o : Option Obj}
    (h : ∀ u fl len recs, o = some ⟨u, fl, .file len recs⟩ → len ≤ MAX_END) :
    Bounded (Function.update fs fb o) := by
  intro n u fl len recs hn
  by_cases hne : n = fb
  · subst hne
    rw [Function.update_self] at hn
    exact h u fl len recs hn
  · rw [Function.update_of_ne hne] at hn
    exact hb n u fl len recs hn

theorem Effect.bounded {fs fs' : Fs} {m m' : Nat} {c : Call} {r : Int} (h : Effect fs m c r fs' m')
    (hb : Bounded fs) : Bounded fs' := by
  cases h with
  | same => exact hb
  | mkdir _ hl => exact (hb.update (by rintro _ _ _ _ ⟨⟩)).update (by rintro _ _ _ _ ⟨⟩)
  | create _ hl =>
    refine (hb.update ?_).update (by rintro _ _ _ _ ⟨⟩)
    rintro _ _ _ _ ⟨⟩
    exact Nat.zero_le _
  | found => exact hb
  | remove _ hu => exact (hb.update (by rintro _ _ _ _ ⟨⟩)).update (by rintro _ _ _ _ ⟨⟩)
  | rmdir _ hu => exact (hb.update (by rintro _ _ _ _ ⟨⟩)).update (by rintro _ _ _ _ ⟨⟩)
  | @chmod _ _ _ _ o _ obj =>
    obtain ⟨ou, ofl, node⟩ := o
    refine hb.update fun u fl len recs ho => ?_
    cases ho
    exact hb _ _ _ len recs obj
  | @chown _ _ _ o _ obj =>
    obtain ⟨ou, ofl, node⟩ := o
    refine hb.update fun u fl len recs ho => ?_
    cases ho
    exact hb _ _ _ len recs obj
  | write obj _ hend =>
    refine hb.update fun u fl len recs ho => ?_
    cases ho
    exact Nat.max_le.mpr ⟨hb _ _ _ _ _ obj, hend⟩

theorem holding_step {s s' : Sys} {a : Action} (h : Holding s) (hs : SoundStep s a s') :
    Holding s' := by
  obtain ⟨fs, chain, hst, ht, hb⟩ := h
  obtain ⟨⟨r, hallow, w', hrun, rfl⟩, hsound⟩ := hs
  obtain ⟨fs', chain', hst', he⟩ := explained hst ht hb hallow hsound hrun
  exact ⟨fs', chain', hst', he.tree ht, he.bounded hb⟩

theorem bounded_fresh : Bounded freshFs := by
  intro n u fl len recs hn
  obtain ⟨-, ho⟩ := freshFs_some hn
  cases ho

theorem holding_fresh {s : Sys} (h : Fresh s) : Holding s := by
  obtain ⟨w, w', hmem, -, hrun, rfl⟩ := h
  obtain ⟨hst, -⟩ := wp_ok (wp_doMkcfs (H := True) hmem (.inl trivial)) hrun
  exact ⟨freshFs, _, hst, freshFs_tree, bounded_fresh⟩

/-- Every run of sound calls leaves a disk that holds a file tree. -/
theorem holding_run {s : Sys} (h : Reach Fresh SoundStep s) : Holding s :=
  h.inv (fun _ hs => holding_fresh hs) fun _ _ _ hi hs => holding_step hi hs

end Sbpfs.Cfs.RunSpec
