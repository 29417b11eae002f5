import Sbpfs.Cfs.RemovalLaws

/-!
# Opening a file

What the flags of `c_open` ask for, and when it keeps to them. Its tests of the flags
join where they should mask, so that every flag counts as set.
-/
namespace Sbpfs.Cfs.OpenLaws

open Sbpfs.Lib.Program Sbpfs.Lib.Memory
open Sbpfs.Cfs.Layout Sbpfs.Cfs.Rules Sbpfs.Cfs.FatSpec Sbpfs.Cfs.Lookup Sbpfs.Cfs.Namespace
open Sbpfs.Cfs.DiskStore Sbpfs.Cfs.Mkfs Sbpfs.Cfs.LookupSpec Sbpfs.Cfs.ObjectSpec
open Sbpfs.Cfs.NamespaceSpec Sbpfs.Cfs.ChainLaws Sbpfs.Cfs.Invariants Sbpfs.Cfs.NamespaceLaws
open Sbpfs.Cfs.RemovalLaws Sbpfs.Spec.FileTree Sbpfs.Spec.Resolve

-- the rules are used by name; a program is never evaluated
attribute [local irreducible] wpOr

variable {fs : Fs} {chain : Nat → List Nat} {w : World} {path dir name : CStr} {uid : UInt32}
  {oflags mode : UInt8}

/-- `uid` has R or W on the directory. -/
def MayAccess (uid : UInt32) (od : Obj) : Prop := perm uid od W ≠ 0 ∨ perm uid od R ≠ 0

/-- `uid` has on the directory what one of the access flags asks for. -/
def MayOpen (uid : UInt32) (od : Obj) (oflags : UInt8) : Prop :=
  (perm uid od W ≠ 0 ∧ oflags &&& SBP_O_WRONLY ≠ 0) ∨
    (perm uid od R ≠ 0 ∧ oflags &&& SBP_O_RDONLY ≠ 0) ∨
    (perm uid od W ≠ 0 ∧ perm uid od R ≠ 0 ∧ oflags &&& SBP_O_RDWR ≠ 0)

theorem MayOpen.access {od : Obj} (h : MayOpen uid od oflags) : MayAccess uid od := by
  rcases h with ⟨hw, -⟩ | ⟨hr, -⟩ | ⟨hw, -, -⟩
  · exact .inl hw
  · exact .inr hr
  · exact .inl hw

/-- The flags ask for a file that may be opened, or for one that may be made. -/
def Grants (fs : Fs) (name : CStr) (oflags : UInt8) (uid : UInt32) (d : Nat) (od : Obj) : Prop :=
  (∃ e, findName (fs.ents d) name = some e ∧ e.type = S_FIL ∧ MayOpen uid od oflags) ∨
    (findName (fs.ents d) name = none ∧ oflags &&& SBP_O_CREAT ≠ 0 ∧ perm uid od W ≠ 0)

/-- What `c_open` is for. -/
def OpenLaw (fs : Fs) (chain : Nat → List Nat) (path dir name : CStr) (oflags mode : UInt8)
    (uid : UInt32) (w : World) : Prop :=
  ∃ ret w', cOpen path oflags mode uid w = .ok (ret, w') ∧
    (∀ d od e, Parent fs dir d od → findName (fs.ents d) name = some e → e.type = S_FIL →
      MayOpen uid od oflags → ret = e.fb ∧ w'.dt = w.dt) ∧
    (∀ d od e, Parent fs dir d od → findName (fs.ents d) name = some e → e.type = S_DIR →
      MayAccess uid od → ret = -2 ∧ w'.dt = w.dt) ∧
    (∀ d od, Parent fs dir d od → findName (fs.ents d) name = none → oflags &&& SBP_O_CREAT ≠ 0 →
      perm uid od W ≠ 0 → ∃ fb : Nat, ret = fb ∧
        Inserted fs chain d name S_FIL (newFile uid mode) fb w w') ∧
    ((¬ ∃ d od, Parent fs dir d od ∧ Grants fs name oflags uid d od) → ret < 0 ∧ w'.dt = w.dt)

/-- Wherever `c_open` would open or make a file, the flags ask for it. -/
def FlagsAgree (fs : Fs) (dir name : CStr) (oflags : UInt8) (uid : UInt32) : Prop :=
  ∀ d od, Parent fs dir d od → MayAccess uid od →
    (∃ e, findName (fs.ents d) name = some e ∧ e.type = S_DIR) ∨ Grants fs name oflags uid d od

/-- What `c_open` settles on, read off the tree. -/
inductive OpenCase (fs : Fs) (path dir name : CStr) (uid : UInt32) : Prop where
  | refused {c : Int} (no : ∀ d od, Parent fs dir d od → ¬ MayAccess uid od) (neg : c < 0)
      (plan : openPlan (view fs) path uid = .error c)
  | directory {d : Nat} {od : Obj} {e : Ent} (parent : Parent fs dir d od)
      (find : findName (fs.ents d) name = some e) (type : e.type = S_DIR)
      (plan : openPlan (view fs) path uid = .error (-2))
  | file {d : Nat} {od : Obj} {e : Ent} (parent : Parent fs dir d od) (access : MayAccess uid od)
      (find : findName (fs.ents d) name = some e) (type : e.type = S_FIL)
      (plan : openPlan (view fs) path uid = .ok (d, name, some e))
  | absent {d : Nat} {od : Obj} (parent : Parent fs dir d od) (access : MayAccess uid od)
      (find : findName (fs.ents d) name = none)
      (plan : openPlan (view fs) path uid = .ok (d, name, none))

theorem openCase (ht : Tree fs) (hn : Named path dir name) (uid : UInt32) :
    OpenCase fs path dir name uid := by
  rcases target_cases ht hn (-1) (-1) with ⟨d, od, hp, htarget⟩ | ⟨hno, c, hc, htarget⟩
  swap
  · have hplan : openPlan (view fs) path uid = .error c := by
      unfold openPlan
      rw [htarget]
    exact .refused (fun d od hp _ => hno d od hp) (by rcases hc with rfl | rfl <;> decide) hplan
  have ho : fs d = some od := hp.choose_spec.2.2.2
  by_cases haccess : MayAccess uid od
  swap
  · have hnone : perm uid od W = 0 ∧ perm uid od R = 0 := by
      constructor
      · exact not_not.mp fun h => haccess (.inl h)
      · exact not_not.mp fun h => haccess (.inr h)
    have hplan : openPlan (view fs) path uid = .error (-4) := by
      unfold openPlan
      simp only [htarget, view_may ho, if_pos hnone]
    refine .refused (fun d' od' hp' => ?_) (by decide) hplan
    obtain ⟨-, rfl⟩ := hp.unique hp'
    exact haccess
  have hsome : ¬ (perm uid od W = 0 ∧ perm uid od R = 0) := fun h =>
    haccess.elim (fun hw => hw h.1) fun hr => hr h.2
  cases hfind : findName ((view fs).ents d) name with
  | none =>
    refine .absent hp haccess hfind ?_
    unfold openPlan
    simp only [htarget, view_may ho, if_neg hsome, hfind]
  | some e =>
    obtain ⟨o, -, htyped⟩ := ht.typed_ents (findName_mem hfind)
    by_cases hdir : e.type = S_DIR
    · refine .directory hp hfind hdir ?_
      unfold openPlan
      simp only [htarget, view_may ho, if_neg hsome, hfind, if_pos hdir]
    · refine .file hp haccess hfind (htyped.resolve_left fun h => hdir h.1).1 ?_
      unfold openPlan
      simp only [htarget, view_may ho, if_neg hsome, hfind, if_neg hdir]

/-- `c_open` keeps to its flags exactly where every flag counting as set makes no difference. -/
theorem cOpen_law_iff (hwf : WellFormed w.dt fs chain) (hn : Named path dir name)
    (oflags mode : UInt8) (uid : UInt32) (hample : Ample w.env)
    (hroom : ∀ d od, Parent fs dir d od → MayAccess uid od → findName (fs.ents d) name = none →
      RoomFor w.dt chain d name) :
    OpenLaw fs chain path dir name oflags mode uid w ↔ FlagsAgree fs dir name oflags uid := by
  have hcase := openCase hwf.tree hn uid
  have hroom' : ∀ d n, openPlan (view fs) path uid = .ok (d, n, none) → RoomFor w.dt chain d n := by
    intro d n hok
    cases hcase with
    | refused _ _ plan => cases plan.symm.trans hok
    | directory _ _ _ plan => cases plan.symm.trans hok
    | file _ _ _ _ plan => cases plan.symm.trans hok
    | absent parent access find plan =>
      cases plan.symm.trans hok
      exact hroom _ _ parent access find
  obtain ⟨ret, w', hrun, hout⟩ := wp_returns (wp_cOpen (H := False) hwf.store hwf.tree
    oflags mode uid
    (fun d n hok => roomFor_name_lt hwf.store.sized (hroom' d n hok))
    (fun _ _ _ _ => hample.heap _ 0)
    (.inr ⟨hample, hroom'⟩))
  have hsame : ∀ {r : Int} {v : World}, cOpen path oflags mode uid w = .ok (r, v) →
    r = ret ∧ v = w' :=
    fun h => by
      cases hrun.symm.trans h
      exact ⟨rfl, rfl⟩
  cases hcase with
  | refused no neg plan =>
    obtain ⟨hs, rfl⟩ := outcome_error hample plan hout
    refine ⟨fun _ d od hp ha => absurd ha (no d od hp), fun _ => ⟨_, w', hrun, ?_, ?_, ?_, ?_⟩⟩
    · exact fun d od e hp _ _ hm => absurd hm.access (no d od hp)
    · exact fun d od e hp _ _ ha => absurd ha (no d od hp)
    · exact fun d od hp _ _ hw => absurd (.inl hw) (no d od hp)
    · exact fun _ => ⟨neg, hs.dt⟩
  | @directory d od e parent find type plan =>
    obtain ⟨hs, rfl⟩ := outcome_error hample plan hout
    refine ⟨fun _ d' od' hp _ => ?_, fun _ => ⟨_, w', hrun, ?_, ?_, ?_, ?_⟩⟩
    · obtain ⟨rfl, rfl⟩ := parent.unique hp
      exact .inl ⟨e, find, type⟩
    · intro d' od' e' hp hfind hfile _
      obtain ⟨rfl, rfl⟩ := parent.unique hp
      cases find.symm.trans hfind
      rw [type] at hfile
      cases hfile
    · exact fun _ _ _ _ _ _ _ => ⟨rfl, hs.dt⟩
    · intro d' od' hp hnone _ _
      obtain ⟨rfl, rfl⟩ := parent.unique hp
      cases find.symm.trans hnone
    · exact fun _ => ⟨by decide, hs.dt⟩
  | @file d od e parent access find type plan =>
    obtain ⟨hs, rfl⟩ := outcome_ok hample plan hout
    constructor
    · -- a file that may not be opened would have to be refused
      intro hlaw d' od' hp _
      obtain ⟨rfl, rfl⟩ := parent.unique hp
      obtain ⟨r, v, hr, -, -, -, hother⟩ := hlaw
      obtain ⟨rfl, rfl⟩ := hsame hr
      refine .inr (not_not.mp fun hno => ?_)
      have hneg := (hother fun h => by
        obtain ⟨d'', od'', hp'', hg⟩ := h
        obtain ⟨rfl, rfl⟩ := parent.unique hp''
        exact hno hg).1
      omega
    · intro hflags
      have hopen : MayOpen uid od oflags := by
        rcases hflags d od parent access with ⟨e', hfind, hdir⟩ | ⟨e', hfind, -, hm⟩ | ⟨hnone, -⟩
        · cases find.symm.trans hfind
          rw [type] at hdir
          cases hdir
        · exact hm
        · cases find.symm.trans hnone
      refine ⟨_, w', hrun, ?_, ?_, ?_, ?_⟩
      · intro d' od' e' hp hfind _ _
        obtain ⟨rfl, rfl⟩ := parent.unique hp
        cases find.symm.trans hfind
        exact ⟨rfl, hs.dt⟩
      · intro d' od' e' hp hfind hdir _
        obtain ⟨rfl, rfl⟩ := parent.unique hp
        cases find.symm.trans hfind
        rw [type] at hdir
        cases hdir
      · intro d' od' hp hnone _ _
        obtain ⟨rfl, rfl⟩ := parent.unique hp
        cases find.symm.trans hnone
      · exact fun hno => absurd ⟨d, od, parent, .inl ⟨e, find, type, hopen⟩⟩ hno
  | @absent d od parent access find plan =>
    obtain ⟨fb, hret, hmakes⟩ := outcome_ok hample plan hout
    constructor
    · -- a file nobody asked for has been made all the same
      intro hlaw d' od' hp _
      obtain ⟨rfl, rfl⟩ := parent.unique hp
      obtain ⟨r, v, hr, -, -, -, hother⟩ := hlaw
      obtain ⟨rfl, rfl⟩ := hsame hr
      refine .inr (not_not.mp fun hno => ?_)
      have hneg := (hother fun h => by
        obtain ⟨d'', od'', hp'', hg⟩ := h
        obtain ⟨rfl, rfl⟩ := parent.unique hp''
        exact hno hg).1
      omega
    · intro hflags
      have hcreat : oflags &&& SBP_O_CREAT ≠ 0 ∧ perm uid od W ≠ 0 := by
        rcases hflags d od parent access with ⟨e', hfind, -⟩ | ⟨e', hfind, -⟩ | ⟨-, hc⟩
        · cases find.symm.trans hfind
        · cases find.symm.trans hfind
        · exact hc
      refine ⟨_, w', hrun, ?_, ?_, ?_, ?_⟩
      · intro d' od' e' hp hfind _ _
        obtain ⟨rfl, rfl⟩ := parent.unique hp
        cases find.symm.trans hfind
      · intro d' od' e' hp hfind _ _
        obtain ⟨rfl, rfl⟩ := parent.unique hp
        cases find.symm.trans hfind
      · intro d' od' hp _ _ _
        obtain ⟨rfl, rfl⟩ := parent.unique hp
        exact ⟨fb, hret, makes_inserted hwf hmakes⟩
      · exact fun hno => absurd ⟨d, od, parent, .inr ⟨find, hcreat⟩⟩ hno

/-- An absent file that the flags ask for is made. -/
theorem cOpen_law_fresh : ∃ w, FreshWorld w ∧
    OpenLaw freshFs (fun _ => [rootFb]) (rootPath letterA) [] [letterA] 10 6 0 w := by
  obtain ⟨w, hw⟩ := exists_freshWorld
  refine ⟨w, hw, (cOpen_law_iff hw.1 named_rootPath 10 6 0 hw.2 fun d od hp _ _ => ?_).mpr
    fun d od hp _ => ?_⟩
  · obtain ⟨rfl, rfl⟩ := fresh_parent hp
    exact fresh_roomFor hw (by decide)
  · obtain ⟨rfl, rfl⟩ := fresh_parent hp
    exact .inr (.inr ⟨fresh_absent, by decide, by decide⟩)

/-- A read-only open of an absent file makes it. -/
theorem open_law_fails_readonly : ∃ w, FreshWorld w ∧
    ¬ OpenLaw freshFs (fun _ => [rootFb]) (rootPath letterA) [] [letterA] SBP_O_RDONLY 6 0 w := by
  obtain ⟨w, hw⟩ := exists_freshWorld
  refine ⟨w, hw, fun hlaw => ?_⟩
  have hplan : openPlan (view freshFs) (rootPath letterA) 0 = .ok (rootFb, [letterA], none) := by
    decide
  obtain ⟨ret, w', hrun, -, -, -, hother⟩ := hlaw
  have hout := wp_ok (m := cOpen (rootPath letterA) SBP_O_RDONLY 6 0)
    (wp_cOpen (H := True) hw.1.store hw.1.tree SBP_O_RDONLY 6 0
      (fun _ _ hp => (openPlan_length hp).trans (by decide)) (fun _ _ _ _ => hw.2.heap _ 0)
    (.inl trivial)) hrun
  obtain ⟨fb, hret, -⟩ := outcome_ok hw.2 hplan hout
  have hneg := (hother fun h => by
    obtain ⟨d, od, hp, hg⟩ := h
    obtain ⟨od', hp', -⟩ := fresh_writable
    obtain ⟨rfl, rfl⟩ := hp.unique hp'
    rcases hg with ⟨e, hfind, -⟩ | ⟨-, hcreat, -⟩
    · cases fresh_absent.symm.trans hfind
    · exact hcreat (by decide)).1
  omega

end Sbpfs.Cfs.OpenLaws
