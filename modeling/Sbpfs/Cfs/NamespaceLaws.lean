import Sbpfs.Cfs.ChainLaws
import Sbpfs.Cfs.Invariants

/-!
# Insertion into a directory

The path of an operation names an entry of a parent directory. `c_mkdir` returns 0
exactly where `uid` may write to the parent and the name is not taken; then the tree has
one new directory, and nothing else on the disk has changed.
-/
namespace Sbpfs.Cfs.NamespaceLaws

open Sbpfs.Lib.Program Sbpfs.Lib.Memory Sbpfs.Lib.Chain
open Sbpfs.Cfs.Layout Sbpfs.Cfs.Rules Sbpfs.Cfs.FatSpec Sbpfs.Cfs.File Sbpfs.Cfs.FileSpec
open Sbpfs.Cfs.Lookup Sbpfs.Cfs.Namespace Sbpfs.Cfs.Image Sbpfs.Cfs.DiskStore Sbpfs.Cfs.Mkfs
open Sbpfs.Cfs.LookupSpec Sbpfs.Cfs.ObjectSpec Sbpfs.Cfs.NamespaceSpec Sbpfs.Cfs.ChainLaws
open Sbpfs.Cfs.Invariants Sbpfs.Spec.FileTree Sbpfs.Spec.Resolve

-- the rules are used by name; a program is never evaluated
attribute [local irreducible] wpOr

/-! ## Paths -/

/-- `path` is `dir/name`, or `dir/name/`. -/
structure Named (path dir name : CStr) : Prop where
  nonempty : name ≠ []
  plain : slash ∉ name
  form : path = dir ++ slash :: name ∨ path = dir ++ slash :: name ++ [slash]

theorem splitLast_plain {name : CStr} (h : slash ∉ name) : splitLast name = none := by
  induction name with
  | nil => rfl
  | cons c cs ih =>
    obtain ⟨hc, hcs⟩ := not_or.mp (List.mem_cons.not.mp h)
    rw [splitLast, ih hcs]
    exact if_neg (Ne.symm hc)

theorem splitLast_append {name : CStr} (h : slash ∉ name) (dir : CStr) :
    splitLast (dir ++ slash :: name) = some (dir, name) := by
  induction dir with
  | nil =>
    rw [List.nil_append, splitLast, splitLast_plain h]
    exact if_pos rfl
  | cons c cs ih => rw [List.cons_append, splitLast, ih]

theorem Named.split {path dir name : CStr} (h : Named path dir name) :
    getFilenameFromPath path = some (dir, name) := by
  have hlast : (dir ++ slash :: name).getLast? ≠ some slash := by
    intro hl
    have hmem := List.mem_of_getLast? (l := name) (a := slash)
    rw [List.getLast?_append, List.getLast?_cons] at hl
    cases hn : name.getLast? with
    | none => exact h.nonempty (List.getLast?_eq_none_iff.mp hn)
    | some c =>
      rw [hn] at hl hmem
      cases hl
      exact h.plain (hmem rfl)
  unfold getFilenameFromPath
  rcases h.form with rfl | rfl
  · rw [if_neg hlast]
    exact splitLast_append h.plain dir
  · rw [List.getLast?_concat, if_pos rfl, List.dropLast_concat]
    exact splitLast_append h.plain dir

/-! ## The directory an operation works in -/

/-- `dir` names the directory `od` at `d`. -/
def Parent (fs : Fs) (dir : CStr) (d : Nat) (od : Obj) : Prop :=
  ∃ e, resolve fs.ents dir = some e ∧ e.type = S_DIR ∧ e.fb = d ∧ fs d = some od

/-- `dir` names the directory at `d`, and `uid` has W on it. -/
def Writable (fs : Fs) (dir : CStr) (uid : UInt32) (d : Nat) : Prop :=
  ∃ od, Parent fs dir d od ∧ perm uid od W ≠ 0

variable {fs : Fs} {chain : Nat → List Nat} {w : World} {path dir name : CStr} {uid : UInt32}

theorem Parent.unique {d d' : Nat} {od od' : Obj} (h : Parent fs dir d od)
    (h' : Parent fs dir d' od') : d = d' ∧ od = od' := by
  obtain ⟨e, hr, -, rfl, ho⟩ := h
  obtain ⟨e', hr', -, rfl, ho'⟩ := h'
  obtain rfl : e = e' := Option.some.inj (hr.symm.trans hr')
  exact ⟨rfl, Option.some.inj (ho.symm.trans ho')⟩

/-- The target of an operation is the parent of the path, or there is none. -/
theorem target_cases (ht : Tree fs) (hn : Named path dir name) (bad notDir : Int) :
    (∃ d od, Parent fs dir d od ∧ target (view fs) path bad notDir = .ok (d, name)) ∨
      ((∀ d od, ¬ Parent fs dir d od) ∧
        ∃ c, (c = bad ∨ c = notDir) ∧ target (view fs) path bad notDir = .error c) := by
  unfold target
  rw [hn.split]
  cases hr : resolve (view fs).ents dir with
  | none =>
    refine .inr ⟨fun d od h => ?_, bad, .inl rfl, by simp only [hr]⟩
    obtain ⟨e, he, -⟩ := h
    rw [show resolve fs.ents dir = none from hr] at he
    cases he
  | some e =>
    by_cases hdir : e.type = S_DIR
    · obtain ⟨od, ho, -⟩ := resolve_typed ht hr
      exact .inl ⟨e.fb, od, ⟨e, hr, hdir, rfl, ho⟩, by simp only [hr, if_pos hdir]⟩
    · refine .inr ⟨fun d od h => ?_, notDir, .inr rfl, by simp only [hr, if_neg hdir]⟩
      obtain ⟨e', he, hdir', -⟩ := h
      obtain rfl : e = e' := Option.some.inj (Eq.symm hr |>.trans he)
      exact hdir hdir'

/-- An operation that needs W on its parent works there or refuses. -/
theorem writable_cases (ht : Tree fs) (hn : Named path dir name) (bad notDir : Int)
    (uid : UInt32) :
    (∃ d, Writable fs dir uid d ∧ target (view fs) path bad notDir = .ok (d, name) ∧
        (view fs).may uid d W ≠ 0) ∨
      ((∀ d, ¬ Writable fs dir uid d) ∧
        ((∃ c, (c = bad ∨ c = notDir) ∧ target (view fs) path bad notDir = .error c) ∨
          ∃ d, target (view fs) path bad notDir = .ok (d, name) ∧ (view fs).may uid d W = 0)) := by
  rcases target_cases ht hn bad notDir with ⟨d, od, hp, htarget⟩ | ⟨hno, hc⟩
  · have hmay : (view fs).may uid d W = perm uid od W := view_may hp.choose_spec.2.2.2 uid W
    by_cases hperm : perm uid od W = 0
    · refine .inr ⟨fun d' h => ?_, .inr ⟨d, htarget, hmay.trans hperm⟩⟩
      obtain ⟨od', hp', hperm'⟩ := h
      exact hperm' ((hp.unique hp').2 ▸ hperm)
    · exact .inl ⟨d, ⟨od, hp, hperm⟩, htarget, by rwa [hmay]⟩
  · refine .inr ⟨fun d h => ?_, .inl hc⟩
    obtain ⟨od, hp, -⟩ := h
    exact hno d od hp

theorem Writable.unique {d d' : Nat} (h : Writable fs dir uid d) (h' : Writable fs dir uid d') :
    d = d' := by
  obtain ⟨_, hp, -⟩ := h
  obtain ⟨_, hp', -⟩ := h'
  exact (hp.unique hp').1

section Outcome

variable {α : Type} {plan : Except Int α} {did : α → Int → World → Prop} {r : Int} {w' : World}

/-- With memory enough an operation does what its plan says. -/
theorem outcome_ok {a : α} (hample : Ample w.env) (hplan : plan = .ok a)
    (h : Outcome w plan did r w') : did a r w' := by
  subst hplan
  rcases h with ⟨-, -, s, hs⟩ | h
  · exact absurd (hample.heap s) hs
  · exact h

theorem outcome_error {c : Int} (hample : Ample w.env) (hplan : plan = .error c)
    (h : Outcome w plan did r w') : Same w w' ∧ r = c := by
  subst hplan
  rcases h with ⟨-, -, s, hs⟩ | h
  · exact absurd (hample.heap s) hs
  · exact h

end Outcome

/-! ## Insertion -/

/-- Room for an entry bounds the length of its name. -/
theorem roomFor_name_lt {d : Nat} (hs : Sized w.dt) (h : RoomFor w.dt chain d name) :
    name.length < 2 ^ 33 := by
  obtain ⟨f, -, -, cs, hlen, hsort, hcs⟩ := h
  have hnum := hs.fatNum_lt
  have hle := length_le_of_lt (n := 2 ^ 23) ((List.pairwise_cons.mp hsort).2.imp Nat.ne_of_lt)
    fun c hc => by
      have haff : c < w.dt.sb.fatNum ∨ c < 4161535 := (hcs c hc).2
      omega
  omega

/-- The tree and the disk after the new object `o` was entered in `d` under `name`. -/
structure Inserted (fs : Fs) (chain : Nat → List Nat) (d : Nat) (name : CStr) (type : UInt8)
    (o : Obj) (fb : Nat) (w w' : World) : Prop where
  fresh : fs fb = none
  after : ∃ od p kids chain', fs d = some od ∧ od.node = .dir p kids ∧
    WellFormed w'.dt (link fs d od p kids ⟨name, fb, type⟩ o) chain' ∧
    Kept fs chain chain' d w.dt w'.dt

theorem makes_inserted {d fb : Nat} {type : UInt8} {o : Obj} {w' : World}
    (hwf : WellFormed w.dt fs chain) (h : Makes fs chain d name type o w w' fb) :
    Inserted fs chain d name type o fb w w' := by
  obtain ⟨ouid, flags, p, kids, chain', ho, he⟩ := h
  exact ⟨he.linkable.fresh, _, p, kids, chain', ho, rfl,
    ⟨he.store, hwf.tree.link he.linkable, he.ordered hwf.ordered⟩, he.kept⟩

/-- `c_mkdir` inserts an empty directory. -/
theorem cMkdir_inserts (hwf : WellFormed w.dt fs chain) (hn : Named path dir name)
    (uid : UInt32) (hample : Ample w.env)
    (hroom : ∀ d, Writable fs dir uid d → findName (fs.ents d) name = none →
      RoomFor w.dt chain d name) :
    ∃ ret w', cMkdir path uid w = .ok (ret, w') ∧
      (ret = 0 ↔ ∃ d, Writable fs dir uid d ∧ findName (fs.ents d) name = none) ∧
      (ret = 0 → ∃ d fb, Writable fs dir uid d ∧
        Inserted fs chain d name S_DIR (newDir uid d) fb w w') ∧
      (ret ≠ 0 → w'.dt = w.dt) := by
  have hplan : (∃ d, Writable fs dir uid d ∧ findName (fs.ents d) name = none ∧
        mkdirPlan (view fs) path uid = .ok (d, name)) ∨
      ((¬ ∃ d, Writable fs dir uid d ∧ findName (fs.ents d) name = none) ∧
        ∃ c, c ≠ 0 ∧ mkdirPlan (view fs) path uid = .error c) := by
    unfold mkdirPlan
    rcases writable_cases hwf.tree hn 1 2 uid with ⟨d, hd, htarget, hmay⟩ | ⟨hno, hc⟩
    · simp only [htarget, if_neg hmay]
      cases hfind : findName ((view fs).ents d) name with
      | none => exact .inl ⟨d, hd, hfind, rfl⟩
      | some e =>
        refine .inr ⟨fun h => ?_, 3, by decide, rfl⟩
        obtain ⟨d', hd', hnone⟩ := h
        obtain rfl := hd.unique hd'
        exact absurd (hfind.symm.trans hnone) (by simp)
    · refine .inr ⟨fun h => hno _ h.choose_spec.1, ?_⟩
      rcases hc with ⟨c, hc, htarget⟩ | ⟨d, htarget, hmay⟩
      · exact ⟨c, by rcases hc with rfl | rfl <;> decide, by rw [htarget]⟩
      · exact ⟨4, by decide, by simp only [htarget, if_pos hmay]⟩
  have hroom' : ∀ d n, mkdirPlan (view fs) path uid = .ok (d, n) → RoomFor w.dt chain d n := by
    intro d n hok
    rcases hplan with ⟨d', hd', hnone, hok'⟩ | ⟨-, c, -, herr⟩
    · obtain ⟨rfl, rfl⟩ := Prod.mk.inj (Except.ok.inj (hok'.symm.trans hok))
      exact hroom _ hd' hnone
    · exact absurd (hok.symm.trans herr) (by simp)
  obtain ⟨ret, w', hrun, hout⟩ := wp_returns (wp_cMkdir (H := False) hwf.store hwf.tree uid
    (fun d n hok => roomFor_name_lt hwf.store.sized (hroom' d n hok)) (fun _ _ _ => hample.heap _ 0)
    (.inr ⟨hample, hroom'⟩))
  refine ⟨ret, w', hrun, ?_⟩
  rcases hplan with ⟨d, hd, hnone, hok⟩ | ⟨hno, c, hc, herr⟩
  · obtain ⟨rfl, fb, hmakes⟩ := outcome_ok hample hok hout
    exact ⟨⟨fun _ => ⟨d, hd, hnone⟩, fun _ => rfl⟩, fun _ => ⟨d, fb, hd, makes_inserted hwf hmakes⟩,
      fun h => absurd rfl h⟩
  · obtain ⟨hs, rfl⟩ := outcome_error hample herr hout
    exact ⟨⟨fun h => absurd h hc, fun h => absurd h hno⟩, fun h => absurd h hc, fun _ => hs.dt⟩

/-- Where `c_mkdir` returns 0 it has made the directory that its plan says. -/
theorem cMkdir_makes (hst : Store w.dt fs chain) (ht : Tree fs) (hample : Ample w.env)
    (hlen : path.length < 2 ^ 31) {uid : UInt32} {w' : World}
    (hrun : cMkdir path uid w = .ok (0, w')) :
    ∃ d name fb, mkdirPlan (view fs) path uid = .ok (d, name) ∧
      Makes fs chain d name S_DIR (newDir uid d) w w' fb := by
  have hout := wp_ok (wp_cMkdir (H := True) hst ht uid
    (fun _ _ hp => (mkdirPlan_length hp).trans (hlen.trans (by decide)))
    (fun _ _ _ => hample.heap _ 0)
    (.inl trivial)) hrun
  cases hplan : mkdirPlan (view fs) path uid with
  | error c =>
    obtain ⟨-, hc⟩ := outcome_error hample hplan hout
    exact absurd hc.symm (mkdirPlan_error hplan)
  | ok q =>
    obtain ⟨-, fb, hmakes⟩ := outcome_ok hample hplan hout
    exact ⟨q.1, q.2, fb, rfl, hmakes⟩

/-! ### The fresh disk -/

theorem named_rootPath : Named (rootPath letterA) [] [letterA] :=
  ⟨by decide, by decide, .inl rfl⟩

theorem fresh_writable : Writable freshFs [] 0 rootFb :=
  ⟨newDir 0 rootFb, ⟨rootEnt, rfl, rfl, rfl, freshFs_root⟩, by decide⟩

theorem fresh_parent {d : Nat} {od : Obj} (h : Parent freshFs [] d od) :
    d = rootFb ∧ od = newDir 0 rootFb := by
  obtain ⟨e, -, -, -, ho⟩ := h
  exact freshFs_some ho

theorem fresh_absent : findName (freshFs.ents rootFb) [letterA] = none := by
  rw [ents_of_dir freshFs_root]
  decide

/-- A fresh disk has room for a short name in the root. -/
theorem fresh_roomFor (h : FreshWorld w) (hname : name.length < 1000) :
    RoomFor w.dt (fun _ => [rootFb]) rootFb name := by
  have hdir : DirImage (imageOf w.dt.data [rootFb]) 1 (table rootFb rootFb []) :=
    (h.1.store.obj _ _ freshFs_root).holds.node
  have hflen : metaFlen (w.dt.data rootFb) = metaFlen (imageOf w.dt.data [rootFb]) :=
    (h.1.store.obj _ _ freshFs_root).header_field (by omega)
  have hf := hdir.flen
  have hle := hdir.le
  have hfree : ∀ c, 2 < c → (freed (setFat w.dt 2 ENDSEC) [rootFb]).fat c = 0 := by
    intro c hc
    have hnot : c ∉ [rootFb] := by
      simp only [rootFb, List.mem_singleton]
      omega
    refine (cleared_of_not_mem hnot).trans ?_
    exact (if_neg (Nat.ne_of_gt hc)).trans (fresh_free h (show 1 < c by omega))
  have hfirst : FirstFree w.dt 2 := by
    refine ⟨fresh_free h (by decide), fun i hi => ?_⟩
    have hroot := (h.1.store.obj _ _ freshFs_root).fat_ne_zero (List.mem_singleton_self _)
    rcases (by omega : i = 0 ∨ i = 1) with rfl | rfl
    · rw [h.1.store.reserved]
      decide
    · exact hroot
  refine ⟨2, hfirst, .inr (by decide), List.range' 3 _, List.length_range', ?_, fun c hc => ?_⟩
  · refine List.pairwise_cons.mpr ⟨fun c hc => ?_, List.pairwise_lt_range' (s := 3)⟩
    have hc' := (List.mem_range'_1.mp hc).1
    simp only [rootFb]
    omega
  · have hc' := List.mem_range'_1.mp hc
    refine ⟨hfree c (by omega), .inr ?_⟩
    simp only [slotLimit]
    omega

/-- A disk whose root holds one object, the entry `a`. -/
structure MadeWorld (fs : Fs) (chain : Nat → List Nat) (type : UInt8) (o : Obj) (fb : Nat)
    (w : World) : Prop where
  wellFormed : WellFormed w.dt fs chain
  ample : Ample w.env
  writable : Writable fs [] 0 rootFb
  entries : fs.ents rootFb = table rootFb rootFb [⟨[letterA], fb, type⟩]
  object : fs fb = some o
  leaf : fs.kids fb = []

theorem MadeWorld.entry {type : UInt8} {o : Obj} {fb : Nat} (h : MadeWorld fs chain type o fb w) :
    findName (fs.ents rootFb) [letterA] = some ⟨[letterA], fb, type⟩ := by
  rw [h.entries]
  unfold findName table
  rw [List.find?_cons_of_neg (by decide), List.find?_cons_of_neg (by decide)]
  exact List.find?_cons_of_pos (by simp)

theorem MadeWorld.absent {type : UInt8} {o : Obj} {fb : Nat} (h : MadeWorld fs chain type o fb w) :
    findName (fs.ents rootFb) [letterB] = none := by
  rw [h.entries]
  unfold findName table
  rw [List.find?_cons_of_neg (by decide), List.find?_cons_of_neg (by decide),
    List.find?_cons_of_neg (by simp [letterA, letterB]), List.find?_nil]

theorem made_world {type : UInt8} {o : Obj} {fb : Nat} {w' : World} (h : FreshWorld w)
    (hm : Makes freshFs (fun _ => [rootFb]) rootFb [letterA] type o w w' fb) :
    ∃ fs chain, MadeWorld fs chain type o fb w' := by
  obtain ⟨u, flags, p, kids, chain', ho, he⟩ := hm
  have hroot := freshFs_root
  rw [ho] at hroot
  cases hroot
  have hnew := link_dir freshFs rootFb ⟨(0 : UInt32).toNat, INITMODE, .dir rootFb []⟩ rootFb []
    ⟨[letterA], fb, type⟩ o
  refine ⟨_, chain', ⟨he.store, h.1.tree.link he.linkable, he.ordered h.1.ordered⟩,
    h.2.later he.later, ⟨_, ⟨rootEnt, rfl, rfl, rfl, hnew⟩, by simp only [perm]; decide⟩, ?_,
    he.linkable.link_self, ?_⟩
  · rw [ents_of_dir hnew, List.nil_append]
  · have hself := he.linkable.link_self
    unfold Fs.kids
    rw [hself]
    split
    · rename_i hdir
      cases hdir
      exact (he.linkable.empty _ _ rfl).2
    · rfl

theorem cMkdir_inserts_fresh : ∃ w w' fb, cMkdir (rootPath letterA) 0 w = .ok (0, w') ∧
    Inserted freshFs (fun _ => [rootFb]) rootFb [letterA] S_DIR (newDir 0 rootFb) fb w w' := by
  obtain ⟨w, hw⟩ := exists_freshWorld
  obtain ⟨ret, w', hrun, hiff, hdone, -⟩ := cMkdir_inserts hw.1 named_rootPath 0 hw.2
    fun d hd _ => by
      obtain rfl := hd.unique fresh_writable
      exact fresh_roomFor hw (by decide)
  obtain rfl : ret = 0 := hiff.mpr ⟨rootFb, fresh_writable, fresh_absent⟩
  obtain ⟨d, fb, hd, hins⟩ := hdone rfl
  obtain rfl := hd.unique fresh_writable
  exact ⟨w, w', fb, hrun, hins⟩

end Sbpfs.Cfs.NamespaceLaws
