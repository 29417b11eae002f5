import Sbpfs.Cfs.Invariants

/-!
# The link counts of directories

`meta.count` of a directory against the number of directories that its table names. `c_mkdir` and
`c_rmdir` move the count with the table and `c_open` leaves it alone; `c_remove` takes one off for
a file that was never counted.
-/
namespace Sbpfs.Cfs.LinkCounts

open Sbpfs.Lib.Program Sbpfs.Lib.Memory Sbpfs.Lib.Run
open Sbpfs.Cfs.Layout Sbpfs.Cfs.Rules Sbpfs.Cfs.FatSpec Sbpfs.Cfs.FileSpec Sbpfs.Cfs.Namespace
open Sbpfs.Cfs.Image Sbpfs.Cfs.DiskStore Sbpfs.Cfs.LookupSpec Sbpfs.Cfs.ObjectSpec
open Sbpfs.Cfs.NamespaceSpec Sbpfs.Cfs.Mkfs Sbpfs.Cfs.DiskView Sbpfs.Cfs.Calls Sbpfs.Cfs.RunSpec
open Sbpfs.Cfs.Invariants
open Sbpfs.Spec.FileTree Sbpfs.Spec.Resolve

attribute [local irreducible] wpOr

/-! ## The counts -/

/-- The entries of `d` that name directories, `.` and `..` apart. -/
def subdirs (dt : Dtree) (d : Nat) : Nat :=
  (entries dt d).countP fun e => e.type = S_DIR ∧ e.name ≠ dotName ∧ e.name ≠ dotdotName

/-- Every directory counts three and its subdirectories. -/
def LinksCounted (dt : Dtree) : Prop :=
  ∀ d, Live dt d S_DIR → metaCount (dt.data d) = 3 + subdirs dt d

/-- The calls that make, remove and move names. -/
def OnNames : Call → Prop
  | .mkdir .. | .rmdir .. | .openFile .. | .remove .. | .move .. => True
  | _ => False

def NameStep (s : Sys) (a : Action) (s' : Sys) : Prop := Step s a s' ∧ OnNames a.call

/-- A sound call, which no `c_remove` is that takes a file away. -/
def CountedStep (s : Sys) (a : Action) (s' : Sys) : Prop :=
  NameStep s a s' ∧ Sound s.dt a.call a.env ∧
    ∀ path uid, a.call = .remove path uid →
      ∃ code, removePlan (diskView s.dt) path uid = .error code

/-- The directories among the entries. -/
def kidDirs (kids : List Ent) : Nat := kids.countP fun e => e.type = S_DIR

/-- The counts of a tree's directories. -/
def Counts (fs : Fs) (dt : Dtree) : Prop :=
  ∀ d u fl p kids, fs d = some ⟨u, fl, .dir p kids⟩ → metaCount (dt.data d) = 3 + kidDirs kids

section Tables

variable {fs : Fs} {chain : Nat → List Nat} {kids : List Ent} {e : Ent}

theorem kidDirs_snoc (kids : List Ent) (e : Ent) :
    kidDirs (kids ++ [e]) = kidDirs kids + if e.type = S_DIR then 1 else 0 := by
  unfold kidDirs
  rw [List.countP_append, List.countP_singleton]
  simp only [decide_eq_true_eq]

theorem kidDirs_erase {i : Nat} (h : kids[i]? = some e) :
    kidDirs kids = kidDirs (kids.eraseIdx i) + if e.type = S_DIR then 1 else 0 := by
  obtain ⟨hi, he⟩ := List.getElem?_eq_some_iff.mp h
  have hperm := List.getElem_cons_eraseIdx_perm hi
  rw [he] at hperm
  unfold kidDirs
  rw [← hperm.countP_eq, List.countP_cons]
  simp only [decide_eq_true_eq]

/-- The subdirectories that the image shows are those of the tree. -/
theorem subdirs_eq {dt : Dtree} {d u p : Nat} {fl : UInt8} (hst : Store dt fs chain) (ht : Tree fs)
    (hd : fs d = some ⟨u, fl, .dir p kids⟩) : subdirs dt d = kidDirs kids := by
  have hnodup := ht.nodup d
  rw [kids_of_dir hd] at hnodup
  simp only [table, List.map_cons, List.nodup_cons, List.mem_cons, not_or] at hnodup
  obtain ⟨⟨-, hdot⟩, hdotdot, -⟩ := hnodup
  have hkids : ∀ e ∈ kids, e.name ≠ dotName ∧ e.name ≠ dotdotName := by
    intro e he
    refine ⟨fun h => hdot ?_, fun h => hdotdot ?_⟩
    · rw [← h]
      exact List.mem_map_of_mem he
    · rw [← h]
      exact List.mem_map_of_mem he
  unfold subdirs kidDirs
  rw [entries_eq hst hd, table, List.countP_cons_of_neg (by simp),
    List.countP_cons_of_neg (by simp)]
  apply List.countP_congr
  intro e he
  simp only [decide_eq_true_eq]
  exact ⟨fun h => h.1, fun h => ⟨h, hkids e he⟩⟩

/-- A table on a disk names fewer directories than a count can tell. -/
theorem kidDirs_lt {dt : Dtree} {d u p : Nat} {fl : UInt8} (hst : Store dt fs chain)
    (hd : fs d = some ⟨u, fl, .dir p kids⟩) : 3 + kidDirs kids < 2 ^ 32 := by
  have hat := hst.obj d _ hd
  have hdir : DirImage (imageOf dt.data (chain d)) (chain d).length (table d p kids) :=
    hat.holds.node
  have hle := hdir.le
  have hlen : (table d p kids).length = kids.length + 2 := rfl
  have hchain := hat.length_le hst.sized
  have hnum := hst.sized.fatNum_lt
  have hcount : kidDirs kids ≤ kids.length := List.countP_le_length
  omega

end Tables

/-! ## What a call does to the counts -/

section Calls

variable {fs : Fs} {chain : Nat → List Nat} {w w' : World}

/-- The header of an object that is kept. -/
theorem Kept.count {chain' : Nat → List Nat} {d n : Nat} {o : Obj} (hst : Store w.dt fs chain)
    {fs₁ : Fs} (h : Kept fs₁ chain chain' d w.dt w'.dt) (hn : fs n = some o) (hn₁ : fs₁ n = some o)
    (hd : n ≠ d) : metaCount (w'.dt.data n) = metaCount (w.dt.data n) := by
  rw [((h n o hn₁ hd).2 n (hst.obj n o hn).head_mem).2]

/-- An entry was added: the new object counts itself, and the directory counts it. -/
theorem counts_entered {d u p : Nat} {fl : UInt8} {kids : List Ent} {e : Ent} {o : Obj}
    {chain' : Nat → List Nat} (hst : Store w.dt fs chain) (hc : Counts fs w.dt)
    (he : Entered fs chain d ⟨u, fl, .dir p kids⟩ p kids e o w w' chain')
    (hparent : metaCount (w'.dt.data d) = 3 + kidDirs (kids ++ [e]))
    (hnew : ∀ p' kids', o.node = .dir p' kids' → metaCount (w'.dt.data e.fb) = 3) :
    Counts (link fs d ⟨u, fl, .dir p kids⟩ p kids e o) w'.dt := by
  intro n un fln pn kidsn hn
  by_cases hd : n = d
  · subst hd
    rw [link_dir] at hn
    cases hn
    exact hparent
  by_cases hfb : n = e.fb
  · subst hfb
    rw [he.linkable.link_self] at hn
    cases hn
    obtain ⟨-, rfl⟩ := he.linkable.empty _ _ rfl
    exact hnew _ _ rfl
  · rw [link_ne hd hfb] at hn
    rw [Kept.count hst he.kept hn hn hd]
    exact hc n _ _ _ _ hn

/-- An entry was taken away, and the directory's count is for those that are left. -/
theorem counts_dropped {d u p i : Nat} {fl : UInt8} {kids : List Ent} {e : Ent}
    {chain' : Nat → List Nat} (hst : Store w.dt fs chain) (ht : Tree fs) (hc : Counts fs w.dt)
    (hd : Dropped fs chain d ⟨u, fl, .dir p kids⟩ p kids i e w w' chain')
    (hparent : metaCount (w'.dt.data d) = 3 + kidDirs (kids.eraseIdx i)) :
    Counts (unlink fs d ⟨u, fl, .dir p kids⟩ p kids i e.fb) w'.dt := by
  intro n un fln pn kidsn hn
  by_cases hnd : n = d
  · subst hnd
    rw [unlink_dir] at hn
    cases hn
    exact hparent
  by_cases hfb : n = e.fb
  · subst hfb
    rw [hd.unlinkable.unlink_self ht] at hn
    cases hn
  · rw [unlink_ne hnd hfb] at hn
    rw [Kept.count hst hd.kept hn ((Function.update_of_ne hfb _ _).trans hn) hnd]
    exact hc n _ _ _ _ hn

/-- The disk holds a tree whose directories are counted. -/
def Counted (dt : Dtree) : Prop :=
  ∃ fs chain, Store dt fs chain ∧ Tree fs ∧ Counts fs dt

theorem counted_same (h : Counted w.dt) (hs : Same w w') : Counted w'.dt := by
  rw [hs.dt]
  exact h

theorem counted_outcome {α : Type} {plan : Except Int α} {did : α → Int → World → Prop} {r : Int}
    (h : Counted w.dt) (ho : Outcome w plan did r w')
    (hdid : ∀ a, plan = .ok a → did a r w' → Counted w'.dt) : Counted w'.dt := by
  rcases ho with ⟨hs, -, -⟩ | ho
  · exact counted_same h hs
  cases hplan : plan with
  | error code =>
    rw [hplan] at ho
    exact counted_same h ho.1
  | ok a =>
    rw [hplan] at ho
    exact hdid a hplan ho

theorem counted_mkdir {path : CStr} {uid : UInt32} (h : Counted w.dt)
    (hsound : Sound w.dt (.mkdir path uid) w.env) :
    wp (cMkdir path uid) (fun _ w' => Counted w'.dt) w := by
  have hcounted := h
  obtain ⟨fs, chain, hst, ht, hc⟩ := h
  refine wp_mono (wp_cMkdir_counts hst ht uid
    (fun _ _ hp => (mkdirPlan_length hp).trans (hsound.1.trans (by decide)))
    (fun _ _ _ => hsound.2 0)
    (.inl trivial)) fun r w' ho => counted_outcome hcounted ho ?_
  rintro ⟨d, name⟩ hplan ⟨-, fb, ⟨u, fl, p, kids, chain', hd, he⟩, hparent, hnew⟩
  have hsmall := kidDirs_lt he.store (link_dir ..)
  have hsnoc := kidDirs_snoc kids ⟨name, fb, S_DIR⟩
  rw [if_pos rfl] at hsnoc
  refine ⟨_, chain', he.store, ht.link he.linkable, counts_entered hst hc he ?_ fun _ _ _ => hnew⟩
  rw [hparent, hc d _ _ _ _ hd]
  dsimp only at hsmall ⊢
  rw [hsnoc] at hsmall ⊢
  unfold u32
  omega

theorem counted_openFile {path : CStr} {oflags mode : UInt8} {uid : UInt32} (h : Counted w.dt)
    (hsound : Sound w.dt (.openFile path oflags mode uid) w.env) :
    wp (cOpen path oflags mode uid) (fun _ w' => Counted w'.dt) w := by
  have hcounted := h
  obtain ⟨fs, chain, hst, ht, hc⟩ := h
  refine wp_mono (wp_cOpen_counts hst ht oflags mode uid
    (fun _ _ hp => (openPlan_length hp).trans (hsound.1.trans (by decide)))
    (fun _ _ _ _ => hsound.2 0)
    (.inl trivial)) fun r w' ho => counted_outcome hcounted ho ?_
  rintro ⟨d, name, e⟩ hplan ⟨hopened, hsame⟩
  cases e with
  | some e => exact counted_same hcounted hopened.1
  | none =>
    obtain ⟨fb, -, u, fl, p, kids, chain', hd, he⟩ := hopened
    have hsnoc := kidDirs_snoc kids ⟨name, fb, S_FIL⟩
    have hfile : ¬ (⟨name, fb, S_FIL⟩ : Ent).type = S_DIR := (by decide : S_FIL ≠ S_DIR)
    rw [if_neg hfile, Nat.add_zero] at hsnoc
    refine ⟨_, chain', he.store, ht.link he.linkable, counts_entered hst hc he ?_ ?_⟩
    · rw [hsnoc]
      exact (hsame rfl).trans (hc d _ _ _ _ hd)
    · intro p' kids' hnode
      cases hnode

theorem counted_rmdir {path : CStr} {uid : UInt32} (h : Counted w.dt)
    (hsound : Sound w.dt (.rmdir path uid) w.env) :
    wp (cRmdir path uid) (fun _ w' => Counted w'.dt) w := by
  have hcounted := h
  obtain ⟨fs, chain, hst, ht, hc⟩ := h
  have hself : ∀ d e, rmdirPlan (view fs) path uid = .ok (d, e) → e.fb ≠ d := by
    rw [← rmdirPlan_agree hst ht]
    exact hsound.2
  refine wp_mono (wp_cRmdir_counts hst ht path uid (fun d e hp _ => ⟨hself d e hp, hsound.1 0⟩)
    (.inl trivial)) fun r w' ho => counted_outcome hcounted ho ?_
  rintro ⟨d, e⟩ hplan ⟨-, ⟨u, fl, p, kids, i, chain', hd, hdrop⟩, hparent⟩
  have herase := kidDirs_erase hdrop.unlinkable.entry
  rw [if_pos (rmdirPlan_ok hplan).2.2.1] at herase
  have hsmall := kidDirs_lt hst hd
  refine ⟨_, chain', hdrop.store, ht.unlink hdrop.unlinkable,
    counts_dropped hst ht hc hdrop ?_⟩
  rw [hparent, hc d _ _ _ _ hd, herase]
  unfold u32Sub
  omega

/-- A refused `c_remove` or `c_move` leaves the disk as it is. -/
theorem counted_remove {path : CStr} {uid : UInt32} (h : Counted w.dt)
    (hsound : Sound w.dt (.remove path uid) w.env)
    (hno : ∃ code, removePlan (diskView w.dt) path uid = .error code) :
    wp (cRemove path uid) (fun _ w' => Counted w'.dt) w := by
  have hcounted := h
  obtain ⟨fs, chain, hst, ht, -⟩ := h
  obtain ⟨code, hcode⟩ := hno
  rw [removePlan_agree hst ht] at hcode
  refine wp_mono (wp_cRemove hst ht path uid (fun _ _ _ => hsound 0) (.inl trivial)) fun r w' ho =>
    counted_outcome hcounted ho ?_
  intro a hplan _
  rw [hcode] at hplan
  cases hplan

theorem counted_move {srcpath dstpath : CStr} {uid : UInt32} (h : Counted w.dt)
    (hsound : Sound w.dt (.move srcpath dstpath uid) w.env) :
    wp (cMove srcpath dstpath uid) (fun _ w' => Counted w'.dt) w := by
  have hcounted := h
  obtain ⟨fs, chain, hst, ht, -⟩ := h
  obtain ⟨code, hplan⟩ := hsound
  rw [movePlan_agree hst ht] at hplan
  exact wp_mono (wp_cMove_refused hst ht hplan (.inl trivial)) fun r w' hr =>
    counted_same hcounted hr.1

end Calls

/-! ## Runs -/

theorem counted_fresh {s : Sys} (h : Fresh s) : Counted s.dt := by
  obtain ⟨w, w', hmem, -, hrun, rfl⟩ := h
  obtain ⟨⟨hst, -⟩, hcount⟩ := wp_ok (wp_doMkcfs_counts (H := True) hmem (.inl trivial)) hrun
  refine ⟨freshFs, _, hst, freshFs_tree, fun d u fl p kids hd => ?_⟩
  obtain ⟨rfl, ho⟩ := freshFs_some hd
  cases ho
  exact hcount

theorem counted_step {s s' : Sys} {a : Action} (h : Counted s.dt) (hs : CountedStep s a s') :
    Counted s'.dt := by
  obtain ⟨⟨⟨r, hallow, w', hrun, rfl⟩, hnames⟩, hsound, hremove⟩ := hs
  obtain ⟨c, e⟩ := a
  have hw : Counted (World.mk s.dt s.ipIndex e).dt := h
  cases c with
  | mkdir path uid =>
    have hpost := wp_ok (counted_mkdir hw hsound) hrun
    exact hpost
  | openFile path oflags mode uid =>
    have hpost := wp_ok (counted_openFile hw hsound) hrun
    exact hpost
  | remove path uid =>
    have hpost := wp_ok (counted_remove hw hsound (hremove path uid rfl)) hrun
    exact hpost
  | rmdir path uid =>
    have hpost := wp_ok (counted_rmdir hw hsound) hrun
    exact hpost
  | move srcpath dstpath uid =>
    have hpost := wp_ok (counted_move hw hsound) hrun
    exact hpost
  | chmod path mode uid => cases hnames
  | chown path newuid uid => cases hnames
  | write fb offset length ips => cases hnames

/-- In every run in which no file is removed every directory counts three and its subdirectories. -/
theorem linkCounts_run {s : Sys} (h : Reach Fresh CountedStep s) : LinksCounted s.dt := by
  have hcounted : Counted s.dt :=
    h.inv (fun _ hs => counted_fresh hs) fun _ _ _ hi hs => counted_step hi hs
  obtain ⟨fs, chain, hst, ht, hc⟩ := hcounted
  intro d hlive
  obtain ⟨u, fl, p, kids, hd⟩ := live_dir hst ht hlive
  rw [subdirs_eq hst ht hd]
  exact hc d u fl p kids hd

/-- A directory and a file are made. -/
def madeCalls : List Action :=
  [calmly (.mkdir (rootPath letterA) 0), calmly (.openFile (rootPath letterB) 12 6 0)]

theorem madeCalls_counted : ∀ a ∈ madeCalls, ∀ s s', Step s a s' → CountedStep s a s' := by
  intro a hc s s' hs
  simp only [madeCalls, List.mem_cons, List.not_mem_nil, or_false] at hc
  rcases hc with rfl | rfl
  · refine ⟨⟨hs, trivial⟩, ⟨by decide, calm_succeeds _⟩, fun path uid heq => ?_⟩
    cases heq
  · refine ⟨⟨hs, trivial⟩, ⟨by decide, calm_succeeds _⟩, fun path uid heq => ?_⟩
    cases heq

theorem linkCounts_run_made :
    ∃ s, execFresh calm blank madeCalls = some ([0, 3], s) ∧ LinksCounted s.dt := by
  have hrun : (execFresh calm blank madeCalls).map Prod.fst = some [0, 3] := by decide +kernel
  obtain ⟨s, hs⟩ := exists_run hrun
  exact ⟨s, hs, linkCounts_run (reach_execFresh madeCalls_counted (calm_succeeds _) hs)⟩

/-- The root counts two once a file has been made in it and removed. -/
theorem remove_uncounts : ∃ s, Reach Fresh NameStep s ∧ Live s.dt rootFb S_DIR ∧
    metaCount (s.dt.data rootFb) = 2 ∧ ¬ LinksCounted s.dt := by
  have hrun : (twoCalls (calmly (.openFile (rootPath letterA) 8 6 0))
      (calmly (.remove (rootPath letterA) 0))).map
      (fun q => (rootReading q.2.2.2.2.dt, metaCount (q.1.dt.data rootFb),
        metaCount (q.2.2.2.2.dt.data rootFb)))
      = some ([(1, S_DIR), (1, S_DIR), (1, S_DIR)], 3, 2) := by decide +kernel
  cases hm : twoCalls (calmly (.openFile (rootPath letterA) 8 6 0))
      (calmly (.remove (rootPath letterA) 0)) with
  | none => simp [hm] at hrun
  | some q =>
    obtain ⟨s, r₁, s₁, r, s₂⟩ := q
    simp only [hm, Option.map_some, Option.some.injEq, Prod.mk.injEq] at hrun
    obtain ⟨hread, -, hcount⟩ := hrun
    obtain ⟨hfresh, hopen, hrem⟩ := twoCalls_returns hm
    have hroot : Live s₂.dt rootFb S_DIR := live_of_root hread (by decide)
    refine ⟨s₂, .step (.step (.init hfresh) ⟨⟨_, hopen⟩, trivial⟩) ⟨⟨_, hrem⟩, trivial⟩, hroot,
      hcount, fun h => ?_⟩
    have hlinks := h rootFb hroot
    rw [hcount] at hlinks
    omega

end Sbpfs.Cfs.LinkCounts
