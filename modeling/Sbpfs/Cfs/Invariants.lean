import Sbpfs.Cfs.MoveSpec
import Sbpfs.Cfs.RunSpec

/-!
# What runs of calls keep

The FAT, the namespace, the permissions of directories and the owners of objects over
whole runs from a fresh disk: what every run of sound calls keeps, and runs of other
calls that lose it.
-/
namespace Sbpfs.Cfs.Invariants

open Sbpfs.Lib.Program Sbpfs.Lib.Memory Sbpfs.Lib.Run
open Sbpfs.Cfs.Layout Sbpfs.Cfs.Rules Sbpfs.Cfs.Lookup Sbpfs.Cfs.DiskStore Sbpfs.Cfs.ObjectSpec
open Sbpfs.Cfs.NamespaceSpec Sbpfs.Cfs.HeaderSpec Sbpfs.Cfs.DiskView Sbpfs.Cfs.Calls
open Sbpfs.Cfs.MoveSpec Sbpfs.Cfs.RunSpec
open Sbpfs.Cfs.Mkfs (blank)
open Sbpfs.Spec.FileTree Sbpfs.Spec.Resolve

/-! ## A calm environment for runs on fixed inputs -/

/-- Every allocation succeeds and finds zeroed memory. -/
def calm : Env := ⟨7, 200, fun _ _ => some fun _ => 0, fun _ => 0⟩

/-- The path `/c`. -/
def rootPath (c : CChar) : CStr := [slash, c]

def letterA : CChar := ⟨0x61, by decide⟩
def letterB : CChar := ⟨0x62, by decide⟩

/-- A call during which no allocation fails. -/
def calmly (c : Call) : Action := ⟨c, calm⟩

theorem calm_succeeds (s : AllocSite) : Env.Succeeds calm s := fun _ => by simp [calm]

/-! ## The FAT -/

/-- The FAT stays well formed over every run of sound calls. -/
theorem fatWellFormed_run {s : Sys} (h : Reach Fresh SoundStep s) : FatWellFormed s.dt := by
  obtain ⟨fs, chain, hst, ht, -⟩ := holding_run h
  exact Store.fatWellFormed hst ht

/-- A run of a sound `c_mkdir`, `c_open` and `c_remove`. -/
def soundCalls : List Action :=
  [calmly (.mkdir (rootPath letterA) 0), calmly (.openFile (rootPath letterB) 12 6 0),
    calmly (.remove (rootPath letterB) 0)]

theorem soundCalls_sound : ∀ a ∈ soundCalls, ∀ s s', Step s a s' → SoundStep s a s' := by
  intro a hc s s' hs
  refine ⟨hs, ?_⟩
  simp only [soundCalls, List.mem_cons, List.not_mem_nil, or_false] at hc
  rcases hc with rfl | rfl | rfl
  · exact ⟨by decide, calm_succeeds _⟩
  · exact ⟨by decide, calm_succeeds _⟩
  · exact calm_succeeds _

theorem exists_run {env : Env} {dt : Dtree} {cs : List Action} {rs : List Int}
    (h : (execFresh env dt cs).map Prod.fst = some rs) :
    ∃ s, execFresh env dt cs = some (rs, s) := by
  cases he : execFresh env dt cs with
  | none => simp [he] at h
  | some q =>
    obtain ⟨rs', s⟩ := q
    simp only [he, Option.map_some, Option.some.injEq] at h
    exact ⟨s, by rw [h]⟩

theorem fatWellFormed_run_soundCalls :
    ∃ s, execFresh calm blank soundCalls = some ([0, 3, 0], s) ∧ FatWellFormed s.dt := by
  have hrun : (execFresh calm blank soundCalls).map Prod.fst = some [0, 3, 0] := by decide +kernel
  obtain ⟨s, hs⟩ := exists_run hrun
  exact ⟨s, hs, fatWellFormed_run (reach_execFresh soundCalls_sound (calm_succeeds _) hs)⟩

/-- Removing the root through its own entry frees the reserved slot of the FAT. -/
theorem rmdir_root_dot :
    ∃ s, execFresh calm blank [calmly (.rmdir [slash, dot] 0)] = some ([0], s) ∧
    Reach Fresh Step s ∧ ¬ FatWellFormed s.dt := by
  have hrun : (execFresh calm blank [calmly (.rmdir [slash, dot] 0)]).map
      (fun q => (q.1, q.2.dt.fat 0)) = some ([0], FREESEC) := by decide +kernel
  cases he : execFresh calm blank [calmly (.rmdir [slash, dot] 0)] with
  | none => simp [he] at hrun
  | some q =>
    obtain ⟨rs, s⟩ := q
    simp only [he, Option.map_some, Option.some.injEq, Prod.mk.injEq] at hrun
    obtain ⟨rfl, hfat⟩ := hrun
    exact ⟨s, rfl, reach_execFresh (fun _ _ _ _ h => h) (calm_succeeds _) he,
      fun h => h.reserved hfat⟩

/-! ## The namespace -/

/-- The calls on names. -/
def Call.OnNames : Call → Prop
  | .mkdir .. => True
  | .rmdir .. => True
  | .openFile .. => True
  | .remove .. => True
  | .move .. => True
  | _ => False

/-- A disk and the directories that have been made on it and not been removed. -/
structure Census where
  sys : Sys
  dirs : Nat → Prop

/-- The call removes the directory `d`. -/
def Removes (dt : Dtree) (c : Call) (r : Int) (d : Nat) : Prop :=
  r = 0 ∧ ∃ path uid p e, c = .rmdir path uid ∧ rmdirPlan (diskView dt) path uid = .ok (p, e) ∧
    e.fb = d

/-- The directories after a call: what it made joins, what it removed leaves. -/
def census (s : Census) (c : Call) (r : Int) (s' : Sys) : Nat → Prop :=
  fun d => (s.dirs d ∧ ¬ Removes s.sys.dt c r d) ∨ Live s'.dt d S_DIR

def CensusFresh (s : Census) : Prop := Fresh s.sys ∧ s.dirs = fun d => d = rootFb

/-- A call that `allowed` lets pass, with the census taken after it. -/
def CensusStep (allowed : Sys → Action → Prop) (s : Census) (a : Action) (s' : Census) : Prop :=
  allowed s.sys a ∧ ∃ r, Returns s.sys a r s'.sys ∧ s'.dirs = census s a.call r s'.sys

/-- The disk holds a tree in which every directory of the census is one. -/
def Counting (s : Census) : Prop :=
  ∃ fs chain, Store s.sys.dt fs chain ∧ Tree fs ∧ Bounded fs ∧
    ∀ d, s.dirs d → ∃ u fl p kids, fs d = some ⟨u, fl, .dir p kids⟩

/-- What a removal takes away is a directory only if it is a `c_rmdir` that removes it. -/
theorem removes_of_takesAway {dt : Dtree} {fs : Fs} {chain : Nat → List Nat} {c : Call} {r : Int}
    {d u p : Nat} {fl : UInt8} {kids : List Ent} (hst : Store dt fs chain) (ht : Tree fs)
    (hd : fs d = some ⟨u, fl, .dir p kids⟩) (h : TakesAway fs c r d) : Removes dt c r d := by
  obtain ⟨rfl, path, uid, q, e, he, ⟨-, hplan⟩ | ⟨rfl, hplan⟩⟩ := h
  · obtain ⟨-, hmem, htype⟩ := removePlan_ok hplan
    obtain ⟨o, ho, hty⟩ := ht.typed_ents hmem
    rw [he, hd] at ho
    cases ho
    exact absurd (typeOf_typed hty) htype
  · refine ⟨rfl, path, uid, q, e, rfl, ?_, he⟩
    rw [rmdirPlan_agree hst ht]
    exact hplan

theorem counting_step {s s' : Census} {a : Action} (h : Counting s)
    (hs : CensusStep (fun s a => Sound s.dt a.call a.env) s a s') : Counting s' := by
  obtain ⟨fs, chain, hst, ht, hb, hdirs⟩ := h
  obtain ⟨hsound, r, ⟨hallow, w', hrun, hsys⟩, hcensus⟩ := hs
  obtain ⟨fs', chain', hst', he⟩ := explained hst ht hb hallow hsound hrun
  have ht' := he.tree ht
  rw [Counting, hsys]
  refine ⟨fs', chain', hst', ht', he.bounded hb, fun d hd => ?_⟩
  rw [hcensus, hsys] at hd
  rcases hd with ⟨hd, hkept⟩ | hlive
  · obtain ⟨u, fl, p, kids, hd⟩ := hdirs d hd
    rcases he.change ht hd with ⟨-, htake⟩ | ⟨⟨u', fl', node'⟩, hd', hchange⟩
    · exact absurd (removes_of_takesAway hst ht hd htake) hkept
    · obtain ⟨kids', hnode, -⟩ := hchange.dir p kids rfl
      cases hnode
      exact ⟨u', fl', p, kids', hd'⟩
  · exact live_dir hst' ht' hlive

theorem counting_fresh {s : Census} (h : CensusFresh s) : Counting s := by
  obtain ⟨hfresh, hdirs⟩ := h
  obtain ⟨fs, chain, hst, ht, hb⟩ := holding_fresh hfresh
  refine ⟨fs, chain, hst, ht, hb, fun d hd => ?_⟩
  rw [hdirs] at hd
  obtain rfl : d = rootFb := hd
  obtain ⟨u, fl, kids, hr⟩ := ht.root
  exact ⟨u, fl, rootFb, kids, hr⟩

/-- Every run of sound calls keeps the directories a tree. -/
theorem namespaceTree_run {s : Census}
    (h : Reach CensusFresh (CensusStep fun s a => Sound s.dt a.call a.env) s) :
    NamespaceTree s.sys.dt s.dirs := by
  have hcount : Counting s :=
    h.inv (fun _ hs => counting_fresh hs) fun _ _ _ hi hs => counting_step hi hs
  obtain ⟨fs, chain, hst, ht, -, hdirs⟩ := hcount
  exact Store.namespaceTree hst ht hdirs

theorem censusStep (allowed : Sys → Action → Prop) (dirs : Nat → Prop) {s s' : Sys} {c : Call}
    {e : Env} {r : Int} (h : Returns s ⟨c, e⟩ r s') (ha : allowed s ⟨c, e⟩) :
    CensusStep allowed ⟨s, dirs⟩ ⟨c, e⟩ ⟨s', census ⟨s, dirs⟩ c r s'⟩ := ⟨ha, r, h, rfl⟩

/-- A fresh disk and what one call makes of it. -/
def oneCall (a : Action) : Option (Sys × Int × Sys) :=
  match execFresh calm blank [] with
  | some (_, s) =>
    match exec [a] s with
    | some ([r], s') => some (s, r, s')
    | _ => none
  | none => none

theorem oneCall_returns {a : Action} {s s' : Sys} {r : Int} (h : oneCall a = some (s, r, s')) :
    Fresh s ∧ Returns s a r s' := by
  unfold oneCall at h
  cases hf : execFresh calm blank [] with
  | none => simp [hf] at h
  | some q =>
    obtain ⟨rs, s₀⟩ := q
    simp only [hf] at h
    have hfresh := fresh_exec (calm_succeeds _) hf
    split at h
    · rename_i r' s₁ he
      cases h
      exact ⟨hfresh, returns_exec he⟩
    · cases h

/-- The root entry, and what the entries of the root directory name. -/
def rootReading (dt : Dtree) : List (Nat × UInt8) :=
  (entryFb (dt.data 0) 0, entryType (dt.data 0) 0) ::
    (entries dt rootFb).map fun e => (e.fb, e.type)

theorem live_root {dt : Dtree} (h : (rootReading dt).head? = some (rootFb, S_DIR)) :
    Live dt rootFb S_DIR := by
  simp only [rootReading, List.head?_cons, Option.some.injEq, Prod.mk.injEq] at h
  have hroot : Live dt (entryFb (dt.data 0) 0) (entryType (dt.data 0) 0) := .root
  rwa [h.1, h.2] at hroot

theorem live_of_root {dt : Dtree} {l : List (Nat × UInt8)} {fb : Nat} {t : UInt8}
    (h : rootReading dt = (rootFb, S_DIR) :: l) (hm : (fb, t) ∈ l) : Live dt fb t := by
  simp only [rootReading, List.cons.injEq, Prod.mk.injEq] at h
  obtain ⟨⟨hfb, ht⟩, rfl⟩ := h
  have hroot : Live dt (entryFb (dt.data 0) 0) (entryType (dt.data 0) 0) := .root
  rw [hfb, ht] at hroot
  obtain ⟨e, he, heq⟩ := List.mem_map.mp hm
  cases heq
  exact .entry hroot he

/-- Where the root names nothing but itself nothing else is live. -/
theorem live_only_root {dt : Dtree} {l : List (Nat × UInt8)} {fb : Nat} {t : UInt8}
    (h : rootReading dt = (rootFb, S_DIR) :: l) (hl : ∀ x ∈ l, x.1 = rootFb)
    (hlive : Live dt fb t) :
    fb = rootFb := by
  simp only [rootReading, List.cons.injEq, Prod.mk.injEq] at h
  obtain ⟨⟨hfb, ht⟩, rfl⟩ := h
  induction hlive with
  | root => exact hfb
  | entry _ he ih =>
    subst ih
    exact hl _ (List.mem_map_of_mem he)

/-- A fresh disk and what two calls make of it. -/
def twoCalls (a a' : Action) : Option (Sys × Int × Sys × Int × Sys) :=
  match oneCall a with
  | some (s, r, s₁) =>
    match exec [a'] s₁ with
    | some ([r'], s₂) => some (s, r, s₁, r', s₂)
    | _ => none
  | none => none

theorem twoCalls_returns {a a' : Action} {s s₁ s₂ : Sys} {r r' : Int}
    (h : twoCalls a a' = some (s, r, s₁, r', s₂)) :
    Fresh s ∧ Returns s a r s₁ ∧ Returns s₁ a' r' s₂ := by
  unfold twoCalls at h
  cases ho : oneCall a with
  | none => simp [ho] at h
  | some q =>
    obtain ⟨s', r₁, s₁'⟩ := q
    simp only [ho] at h
    obtain ⟨hfresh, hret⟩ := oneCall_returns ho
    split at h
    · rename_i r₂ s₂' he
      cases h
      exact ⟨hfresh, hret, returns_exec he⟩
    · cases h

theorem mkdir_sound (dt : Dtree) : Sound dt (.mkdir (rootPath letterA) 0) calm :=
  ⟨by decide, calm_succeeds _⟩

theorem namespaceTree_run_mkdir :
    ∃ s r s', oneCall (calmly (.mkdir (rootPath letterA) 0)) = some (s, r, s') ∧
      NamespaceTree s'.dt (census ⟨s, fun d => d = rootFb⟩ (.mkdir (rootPath letterA) 0) r s') := by
  have hrun : (oneCall (calmly (.mkdir (rootPath letterA) 0))).isSome = true := by decide +kernel
  obtain ⟨⟨s, r, s'⟩, hs⟩ := Option.isSome_iff_exists.mp hrun
  obtain ⟨hfresh, hret⟩ := oneCall_returns hs
  have hstep := censusStep (fun s a => Sound s.dt a.call a.env) (fun d => d = rootFb) hret
    (mkdir_sound s.dt)
  exact ⟨s, r, s', hs, namespaceTree_run (.step (.init ⟨hfresh, rfl⟩) hstep)⟩

/-- Moving a directory below itself is not refused and cuts it off from the root. -/
theorem move_below_itself :
    ∃ s, Reach CensusFresh (CensusStep fun _ a => Call.OnNames a.call) s ∧
      ¬ NamespaceTree s.sys.dt s.dirs := by
  have hrun : (twoCalls (calmly (.mkdir (rootPath letterA) 0))
      (calmly (.move (rootPath letterA) (rootPath letterA ++ rootPath letterB) 0))).map
      (fun q => (rootReading q.2.2.1.dt, q.2.2.2.1, rootReading q.2.2.2.2.dt))
      = some ([(1, S_DIR), (1, S_DIR), (1, S_DIR), (2, S_DIR)], 0,
        [(1, S_DIR), (1, S_DIR), (1, S_DIR)]) := by decide +kernel
  cases hm : twoCalls (calmly (.mkdir (rootPath letterA) 0))
      (calmly (.move (rootPath letterA) (rootPath letterA ++ rootPath letterB) 0)) with
  | none => simp [hm] at hrun
  | some q =>
    obtain ⟨s, r₁, s₁, r, s₂⟩ := q
    simp only [hm, Option.map_some, Option.some.injEq, Prod.mk.injEq] at hrun
    obtain ⟨hbefore, rfl, hafter⟩ := hrun
    obtain ⟨hfresh, hmk, hmv⟩ := twoCalls_returns hm
    -- the directory joins the census with the call that makes it
    have hlive : Live s₁.dt 2 S_DIR := live_of_root hbefore (by decide)
    have hmkstep := censusStep (fun _ a => Call.OnNames a.call) (fun d => d = rootFb) hmk trivial
    have hmvstep := censusStep (fun _ a => Call.OnNames a.call)
      (census ⟨s, fun d => d = rootFb⟩ (.mkdir (rootPath letterA) 0) r₁ s₁) hmv trivial
    refine ⟨_, .step (.step (.init ⟨hfresh, rfl⟩) hmkstep) hmvstep, fun htree => ?_⟩
    have hdir := htree.reachable 2 (.inl ⟨.inr hlive, fun h => ?_⟩)
    · exact absurd (live_only_root hafter (by decide) hdir) (by decide)
    · obtain ⟨-, path, uid, p, e, hc, -⟩ := h
      cases hc

/-! ## Permissions on directories -/

/-- The entries of a directory that is there before and after the call change only by a
caller who may write it. -/
def EntriesGuarded (dt : Dtree) (c : Call) (dt' : Dtree) : Prop :=
  ∀ d, Live dt d S_DIR → Live dt' d S_DIR → entries dt' d ≠ entries dt d →
    ∃ uid, c.caller = some uid ∧ permissionCheck uid (dt.data d) W ≠ 0

/-- No call makes a file in a directory that its caller may not write. -/
def MayCreate (dt : Dtree) (c : Call) : Prop :=
  ∀ d, Creates (diskView dt) c d →
    ∃ uid, c.caller = some uid ∧ permissionCheck uid (dt.data d) W ≠ 0

/-- A move that is not refused and copies nothing behind its buffers. -/
def MovesInside (dt : Dtree) (c : Call) (e : Env) : Prop :=
  ∃ srcpath dstpath uid s d ent name, c = .move srcpath dstpath uid ∧
    movePlan (diskView dt) srcpath dstpath uid = .ok (s, d, ent, name) ∧ CopyFits dt e s d name

/-- Whatever a move makes of its two tables, the caller may write both, and the others stay. -/
theorem entriesGuarded_move {w w' : World} {fs : Fs} {chain : Nat → List Nat} {c : Call} {r : Int}
    (hst : Store w.dt fs chain) (ht : Tree fs) (h : MovesInside w.dt c w.env)
    (hrun : c.run w = .ok (r, w')) : EntriesGuarded w.dt c w'.dt := by
  obtain ⟨srcpath, dstpath, uid, s, d, ent, name, rfl, hplan, hfits⟩ := h
  obtain ⟨hmays, hmayd⟩ := movePlan_may hplan
  rw [movePlan_agree hst ht] at hplan
  have helse := wp_ok (wp_cMove_elsewhere (H := True) hst ht hplan hfits (.inl trivial)) hrun
  intro n hlive _ hne
  refine ⟨uid, rfl, ?_⟩
  by_cases hns : n = s
  · rw [hns]
    exact hmays
  by_cases hnd : n = d
  · rw [hnd]
    exact hmayd
  · obtain ⟨u, fl, p, kids, ho⟩ := live_dir hst ht hlive
    refine absurd ?_ hne
    rw [entries_at helse.sized (helse.obj ho hns hnd), entries_eq hst ho]

/-- In every run of sound calls, a call that makes no file where its caller may not write
changes the entries of directories with write permission only; that call may be a move. -/
theorem entriesGuarded_run {s s' : Sys} {a : Action} (h : Reach Fresh SoundStep s)
    (hs : Step s a s') (hsound : Sound s.dt a.call a.env ∨ MovesInside s.dt a.call a.env)
    (hmay : MayCreate s.dt a.call) : EntriesGuarded s.dt a.call s'.dt := by
  obtain ⟨fs, chain, hst, ht, hb⟩ := holding_run h
  obtain ⟨r, hallow, w', hrun, rfl⟩ := hs
  rcases hsound with hsound | hmoves
  swap
  · exact entriesGuarded_move (w := ⟨s.dt, s.ipIndex, a.env⟩) hst ht hmoves hrun
  obtain ⟨fs', chain', hst', he⟩ := explained hst ht hb hallow hsound hrun
  have ht' := he.tree ht
  intro d hd hd' hne
  obtain ⟨u, fl, p, kids, ho⟩ := live_dir hst ht hd
  obtain ⟨u', fl', p', kids', ho'⟩ := live_dir hst' ht' hd'
  rcases he.change ht ho with ⟨hgone, -⟩ | ⟨o', hsome, hchange⟩
  · rw [ho'] at hgone
    cases hgone
  rw [ho'] at hsome
  cases hsome
  obtain ⟨kids₁, hnode, hkids⟩ := hchange.dir p kids rfl
  cases hnode
  rcases hkids with rfl | ⟨uid, hcaller, hperm⟩ | ⟨path, oflags, mode, uid, name, hc, hplan⟩
  · refine absurd ?_ hne
    rw [entries_eq hst' ho', entries_eq hst ho]
  · refine ⟨uid, hcaller, ?_⟩
    rw [header_perm (hst.obj d _ ho)]
    exact hperm
  · refine hmay d ⟨path, oflags, mode, uid, name, hc, ?_⟩
    rw [openPlan_agree hst ht]
    exact hplan

/-- A directory is made and then moved inside the root. -/
theorem entriesGuarded_run_move :
    ∃ s r s₁ r' s₂, twoCalls (calmly (.mkdir (rootPath letterA) 0))
        (calmly (.move (rootPath letterA) (rootPath letterB) 0)) = some (s, r, s₁, r', s₂) ∧
      EntriesGuarded s.dt (.mkdir (rootPath letterA) 0) s₁.dt ∧
      EntriesGuarded s₁.dt (.move (rootPath letterA) (rootPath letterB) 0) s₂.dt := by
  have hrun : ((twoCalls (calmly (.mkdir (rootPath letterA) 0))
      (calmly (.move (rootPath letterA) (rootPath letterB) 0))).any fun q =>
      (movePlan (diskView q.2.2.1.dt) (rootPath letterA) (rootPath letterB) 0).toOption.any fun p =>
        p.1 == p.2.1 && decide (metaStrlen (q.2.2.1.dt.data p.1) + p.2.2.2.length + 1
          ≤ 512 * (metaBlocks (q.2.2.1.dt.data p.1) + 1))) = true := by decide +kernel
  obtain ⟨⟨s, r, s₁, r', s₂⟩, hs, hmoves⟩ := (Option.any_eq_true _ _).mp hrun
  obtain ⟨⟨src, dst, ent, name⟩, hplan, hfits⟩ := (Option.any_eq_true _ _).mp hmoves
  obtain ⟨hsame, hle⟩ := Bool.and_eq_true_iff.mp hfits
  obtain ⟨hfresh, hmk, hmv⟩ := twoCalls_returns hs
  have hmk' : SoundStep s (calmly (.mkdir (rootPath letterA) 0)) s₁ := ⟨⟨r, hmk⟩, mkdir_sound _⟩
  refine ⟨s, r, s₁, r', s₂, hs, entriesGuarded_run (.init hfresh) hmk'.1 (.inl hmk'.2) ?_,
    entriesGuarded_run (.step (.init hfresh) hmk') ⟨r', hmv⟩
      (.inr ⟨_, _, _, src, dst, ent, name, rfl, toOption_some hplan, ?_⟩) ?_⟩
  · rintro d ⟨path, oflags, mode, uid, name, hc, -⟩
    cases hc
  · unfold CopyFits
    rw [if_pos (beq_iff_eq.mp hsame)]
    exact of_decide_eq_true hle
  · rintro d ⟨path, oflags, mode, uid, name, hc, -⟩
    cases hc

/-- A call of a user who may not write the root of a fresh disk makes a file in it. -/
theorem open_without_write :
    ∃ s s' a, Reach Fresh Step s ∧ Step s a s' ∧ ¬ EntriesGuarded s.dt a.call s'.dt := by
  have hrun : (oneCall (calmly (.openFile (rootPath letterA) 8 6 5))).map
      (fun q => (rootReading q.1.dt,
      rootReading q.2.2.dt, permissionCheck 5 (q.1.dt.data rootFb) W))
      = some ([(1, S_DIR), (1, S_DIR), (1, S_DIR)],
        [(1, S_DIR), (1, S_DIR), (1, S_DIR), (2, S_FIL)], 0) := by decide +kernel
  cases ho : oneCall (calmly (.openFile (rootPath letterA) 8 6 5)) with
  | none => simp [ho] at hrun
  | some q =>
    obtain ⟨s, r, s'⟩ := q
    simp only [ho, Option.map_some, Option.some.injEq, Prod.mk.injEq] at hrun
    obtain ⟨hbefore, hafter, hperm⟩ := hrun
    obtain ⟨hfresh, hret⟩ := oneCall_returns ho
    refine ⟨s, s', calmly (.openFile (rootPath letterA) 8 6 5), .init hfresh,
      ⟨r, hret⟩, fun h => ?_⟩
    have hne : entries s'.dt rootFb ≠ entries s.dt rootFb := by
      intro heq
      have hlen := congrArg List.length hbefore
      have hlen' := congrArg List.length hafter
      simp only [rootReading, heq, List.length_cons, List.length_map, List.length_nil] at hlen hlen'
      omega
    obtain ⟨uid, hcaller, hne'⟩ := h rootFb (live_of_root hbefore (by decide))
      (live_of_root hafter (by decide)) hne
    cases hcaller
    exact hne' hperm

/-! ## Owners and modes -/

/-- The owner and the permission bits of an object that stays alive change only as
`c_chown` by root and `c_chmod` by root or the owner change them. -/
def OwnersGuarded (dt : Dtree) (c : Call) (dt' : Dtree) : Prop :=
  ∀ fb t t', Live dt fb t → Live dt' fb t' →
    (metaUid (dt'.data fb) ≠ metaUid (dt.data fb) → ∃ path newuid, c = .chown path newuid 0) ∧
    (metaFlags (dt'.data fb) &&& S_ALL ≠ metaFlags (dt.data fb) &&& S_ALL →
      ∃ path mode uid, c = .chmod path mode uid ∧ (uid = 0 ∨ uid.toNat = metaUid (dt.data fb)))

/-- In every run of sound calls owners and modes are changed only by those entitled to. -/
theorem ownersGuarded_run {s s' : Sys} {a : Action} (h : Reach Fresh SoundStep s)
    (hs : SoundStep s a s') : OwnersGuarded s.dt a.call s'.dt := by
  obtain ⟨fs, chain, hst, ht, hb⟩ := holding_run h
  obtain ⟨⟨r, hallow, w', hrun, rfl⟩, hsound⟩ := hs
  obtain ⟨fs', chain', hst', he⟩ := explained hst ht hb hallow hsound hrun
  have ht' := he.tree ht
  intro fb t t' hl hl'
  obtain ⟨o, ho, -⟩ := live_obj hst ht hl
  obtain ⟨o', ho', -⟩ := live_obj hst' ht' hl'
  rcases he.change ht ho with ⟨hgone, -⟩ | ⟨o₁, hsome, hchange⟩
  · rw [ho'] at hgone
    cases hgone
  rw [ho'] at hsome
  cases hsome
  have hat := hst.obj fb o ho
  have hat' := hst'.obj fb o' ho'
  have huid : metaUid (s.dt.data fb) = o.uid := (hat.header_field (by omega)).trans hat.holds.uid
  have huid' : metaUid (w'.dt.data fb) = o'.uid :=
    (hat'.header_field (by omega)).trans hat'.holds.uid
  have hfl : metaFlags (s.dt.data fb) = o.flags := (hat.header (by omega)).trans hat.holds.flags
  have hfl' : metaFlags (w'.dt.data fb) = o'.flags :=
    (hat'.header (by omega)).trans hat'.holds.flags
  constructor
  · intro hne
    rw [huid, huid'] at hne
    exact hchange.uid.resolve_left hne
  · intro hne
    rw [hfl, hfl'] at hne
    rcases hchange.flags with heq | ⟨path, mode, uid, hc, hown⟩
    · exact absurd (by rw [heq]) hne
    · refine ⟨path, mode, uid, hc, ?_⟩
      rw [huid]
      unfold ownCheck at hown
      simp only [Bool.or_eq_true, decide_eq_true_eq] at hown
      exact hown.imp_left fun h0 => UInt32.toNat_inj.mp h0

theorem ownersGuarded_run_mkdir :
    ∃ s r s', oneCall (calmly (.mkdir (rootPath letterA) 0)) = some (s, r, s') ∧
      OwnersGuarded s.dt (.mkdir (rootPath letterA) 0) s'.dt := by
  have hrun : (oneCall (calmly (.mkdir (rootPath letterA) 0))).isSome = true := by decide +kernel
  obtain ⟨⟨s, r, s'⟩, hs⟩ := Option.isSome_iff_exists.mp hrun
  obtain ⟨hfresh, hret⟩ := oneCall_returns hs
  have hstep : SoundStep s (calmly (.mkdir (rootPath letterA) 0)) s' := ⟨⟨r, hret⟩, mkdir_sound _⟩
  exact ⟨s, r, s', hs, ownersGuarded_run (.init hfresh) hstep⟩

/-- A name of 54 characters; with it the name pool of the root is 60 bytes long. -/
def longName : CStr := List.replicate 54 letterA

/-- A rename copies the new name over the flags of the directory. -/
theorem rename_over_flags :
    ∃ s s' a, Reach Fresh Step s ∧ Step s a s' ∧ ¬ OwnersGuarded s.dt a.call s'.dt := by
  have hrun : (twoCalls (calmly (.openFile (slash :: longName) 8 6 0))
      (calmly (.move (slash :: longName) (rootPath letterB) 0))).map
      (fun q => ((rootReading q.2.2.1.dt).head?, metaFlags (q.2.2.1.dt.data rootFb) &&& S_ALL,
        (rootReading q.2.2.2.2.dt).head?, metaFlags (q.2.2.2.2.dt.data rootFb) &&& S_ALL))
      = some (some (1, S_DIR), 14, some (1, S_DIR), 2) := by decide +kernel
  cases hm : twoCalls (calmly (.openFile (slash :: longName) 8 6 0))
      (calmly (.move (slash :: longName) (rootPath letterB) 0)) with
  | none => simp [hm] at hrun
  | some q =>
    obtain ⟨s, r₁, s₁, r, s₂⟩ := q
    simp only [hm, Option.map_some, Option.some.injEq, Prod.mk.injEq] at hrun
    obtain ⟨hbefore, hfl, hafter, hfl'⟩ := hrun
    obtain ⟨hfresh, hopen, hmv⟩ := twoCalls_returns hm
    refine ⟨s₁, s₂, _, .step (.init hfresh) ⟨_, hopen⟩, ⟨_, hmv⟩, fun h => ?_⟩
    have hne : metaFlags (s₂.dt.data rootFb) &&& S_ALL
      ≠ metaFlags (s₁.dt.data rootFb) &&& S_ALL := by
      rw [hfl, hfl']
      decide
    obtain ⟨path, mode, uid, hc, -⟩ :=
      (h rootFb S_DIR S_DIR (live_root hbefore) (live_root hafter)).2 hne
    cases hc

end Sbpfs.Cfs.Invariants
