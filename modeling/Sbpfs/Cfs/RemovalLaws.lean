import Sbpfs.Cfs.NamespaceLaws

/-!
# Removal from a directory

`c_remove` unlinks regular files and `c_rmdir` empty directories. The parent's table is
shifted and its chain rebuilt; every other name, object and sector stays what it was.
`c_rmdir` also takes a directory away through its own entry `.`.
-/
namespace Sbpfs.Cfs.RemovalLaws

open Sbpfs.Lib.Program Sbpfs.Lib.Memory Sbpfs.Lib.Chain
open Sbpfs.Cfs.Layout Sbpfs.Cfs.Rules Sbpfs.Cfs.FatSpec Sbpfs.Cfs.File Sbpfs.Cfs.FileSpec
open Sbpfs.Cfs.Lookup Sbpfs.Cfs.Namespace Sbpfs.Cfs.Image Sbpfs.Cfs.DiskStore Sbpfs.Cfs.Mkfs
open Sbpfs.Cfs.LookupSpec Sbpfs.Cfs.ObjectSpec Sbpfs.Cfs.NamespaceSpec Sbpfs.Cfs.ChainLaws
open Sbpfs.Cfs.Invariants Sbpfs.Cfs.NamespaceLaws Sbpfs.Cfs.DiskView Sbpfs.Spec.FileTree
    Sbpfs.Spec.Resolve

-- the rules are used by name; a program is never evaluated
attribute [local irreducible] wpOr

variable {fs : Fs} {chain : Nat → List Nat} {w : World} {path dir name : CStr} {uid : UInt32}

/-! ## The table without an entry -/

/-- Taking an entry out of a table with distinct names takes its name away and no other. -/
theorem findName_eraseIdx {l : List Ent} {i : Nat} {e : Ent} (hnodup : (l.map Ent.name).Nodup)
    (hget : l[i]? = some e) (n : CStr) :
    findName (l.eraseIdx i) n = if n = e.name then none else findName l n := by
  induction l generalizing i with
  | nil => simp at hget
  | cons a l ih =>
    obtain ⟨hnot, hnodup'⟩ := List.nodup_cons.mp hnodup
    cases i with
    | zero =>
      obtain rfl : a = e := Option.some.inj hget
      rw [List.eraseIdx_zero, List.tail_cons]
      by_cases hn : n = a.name
      · subst hn
        rw [if_pos rfl]
        refine List.find?_eq_none.mpr fun x hx => ?_
        have hne : x.name ≠ a.name := fun he => hnot (he ▸ List.mem_map_of_mem hx)
        simpa using hne
      · rw [if_neg hn, findName, findName, List.find?_cons_of_neg (by simpa using Ne.symm hn)]
    | succ i =>
      have htail := ih hnodup' hget
      have hmem : e ∈ l := List.mem_of_getElem? hget
      rw [List.eraseIdx_cons_succ]
      by_cases ha : a.name = n
      · have hne : n ≠ e.name := by
          rintro rfl
          exact hnot (ha ▸ List.mem_map_of_mem hmem)
        rw [if_neg hne, findName, findName, List.find?_cons_of_pos (by simpa using ha),
          List.find?_cons_of_pos (by simpa using ha)]
      · rw [findName, List.find?_cons_of_neg (by simpa using ha)]
        refine htail.trans ?_
        split
        · rfl
        · rw [findName, findName, List.find?_cons_of_neg (by simpa using ha)]

/-- The header of the directory `d` in the sectors `cs` describes its table. -/
structure TableFits (dt : Dtree) (d : Nat) (cs : List Nat) : Prop where
  flen : metaFlen (dt.data d) = metaSize + metaStrbase (dt.data d) + metaStrlen (dt.data d)
  le : metaFlen (dt.data d) ≤ BYTSPERSEC * metaBlocks (dt.data d)
  blocks : metaBlocks (dt.data d) = cs.length

theorem tableFits {dt : Dtree} {d uid p : Nat} {flags : UInt8} {kids : List Ent} {cs : List Nat}
    (hat : ObjAt dt d ⟨uid, flags, .dir p kids⟩ cs) : TableFits dt d cs := by
  have hdir : DirImage (imageOf dt.data cs) cs.length (table d p kids) := hat.holds.node
  have hflen : metaFlen (dt.data d) = metaFlen (imageOf dt.data cs) := hat.header_field (by omega)
  have hbase : metaStrbase (dt.data d) = metaStrbase (imageOf dt.data cs) :=
    hat.header_field (by omega)
  have hlen : metaStrlen (dt.data d) = metaStrlen (imageOf dt.data cs) :=
    hat.header_field (by omega)
  have hblocks : metaBlocks (dt.data d) = cs.length :=
    (hat.header_field (by omega)).trans hat.holds.blocks
  have hf := hdir.flen
  have hle := hdir.le
  have hb := hdir.strbase
  constructor
  · rw [hflen, hbase, hlen, hf, hb]
  · rw [hflen, hblocks, hf]
    exact hle
  · exact hblocks

/-- The tree and the disk after the entry `e` of `d` went away with its object. -/
structure Unlinked (fs : Fs) (chain : Nat → List Nat) (d : Nat) (od : Obj) (p : Nat)
    (kids : List Ent) (i : Nat) (e : Ent) (w w' : World) (chain' : Nat → List Nat) : Prop where
  dir : fs d = some od ∧ od.node = .dir p kids ∧ kids[i]? = some e
  wellFormed : WellFormed w'.dt (unlink fs d od p kids i e.fb) chain'
  kept : Kept (Function.update fs e.fb none) chain chain' d w.dt w'.dt
  gone : findName ((unlink fs d od p kids i e.fb).ents d) e.name = none
  others : ∀ n, n ≠ e.name →
    findName ((unlink fs d od p kids i e.fb).ents d) n = findName (fs.ents d) n
  released : ∀ c ∈ chain e.fb, w'.dt.fat c = FREESEC ∨ c ∈ chain' d
  fits : TableFits w'.dt d (chain' d)

/-- Some entry `e` of `d` went away. -/
def Unlinks (fs : Fs) (chain : Nat → List Nat) (d : Nat) (e : Ent) (w w' : World) : Prop :=
  ∃ od p kids i chain', Unlinked fs chain d od p kids i e w w' chain'

theorem drops_unlinks {d : Nat} {e : Ent} {w' : World} (hwf : WellFormed w.dt fs chain)
    (h : Drops fs chain d e w w') : Unlinks fs chain d e w w' := by
  obtain ⟨ouid, flags, p, kids, i, chain', ho, hd⟩ := h
  have hu := hd.unlinkable
  obtain ⟨oe, hoe, -⟩ := hwf.tree.typed d e hu.mem
  have hdir := unlink_dir fs d ⟨ouid, flags, .dir p kids⟩ p kids i e.fb
  have hnames : ((table d p kids).map Ent.name).Nodup := by
    have hn := hwf.tree.nodup d
    rw [hu.kids_eq] at hn
    exact names_nodup_table hn
  have hfind : ∀ n, findName ((unlink fs d ⟨ouid, flags, .dir p kids⟩ p kids i e.fb).ents d) n
      = if n = e.name then none else findName (fs.ents d) n := by
    intro n
    rw [ents_of_dir hdir, ents_of_dir ho]
    exact findName_eraseIdx (i := i + 2) hnames hu.entry n
  refine ⟨_, p, kids, i, chain', ⟨ho, rfl, hu.entry⟩, ⟨hd.store, hwf.tree.unlink hu,
    hd.ordered hwf.ordered⟩, hd.kept, ?_, fun n hn => ?_, fun c hc => ?_, ?_⟩
  · rw [hfind, if_pos rfl]
  · rw [hfind, if_neg hn]
  · by_cases hfree : w'.dt.fat c = FREESEC
    · exact .inl hfree
    obtain ⟨m, o, hm, hmem⟩ := hd.store.owned c (hwf.store.ne_zero_of_mem hoe hc) hfree
    by_cases hmd : m = d
    · exact .inr (hmd ▸ hmem)
    -- any other object keeps its chain, and the removed one shared no sector with it
    exfalso
    have hme : m ≠ e.fb := by
      rintro rfl
      rw [hu.unlink_self hwf.tree] at hm
      cases hm
    have hlive : fs m = some o := (unlink_ne hmd hme).symm.trans hm
    have hkept := hd.kept m o ((Function.update_of_ne hme _ _).trans hlive) hmd
    rw [hkept.1] at hmem
    exact hwf.store.disjoint m e.fb o oe hlive hoe hme hmem hc
  · exact tableFits (hd.store.obj d _ hdir)

/-! ## Files -/

/-- `c_remove` unlinks a regular file. -/
theorem cRemove_unlinks (hwf : WellFormed w.dt fs chain) (hn : Named path dir name) (uid : UInt32)
    (hample : Ample w.env) :
    ∃ ret w', cRemove path uid w = .ok (ret, w') ∧
      (ret = 0 ↔ ∃ d e, Writable fs dir uid d ∧ findName (fs.ents d) name = some e ∧
        e.type = S_FIL) ∧
      (ret = 0 → ∃ d e, Writable fs dir uid d ∧ findName (fs.ents d) name = some e ∧
        Unlinks fs chain d e w w') ∧
      (ret ≠ 0 → w'.dt = w.dt) := by
  have hplan : (∃ d e, Writable fs dir uid d ∧ findName (fs.ents d) name = some e ∧
        e.type = S_FIL ∧ removePlan (view fs) path uid = .ok (d, e)) ∨
      ((¬ ∃ d e, Writable fs dir uid d ∧ findName (fs.ents d) name = some e ∧ e.type = S_FIL) ∧
        ∃ c, c ≠ 0 ∧ removePlan (view fs) path uid = .error c) := by
    unfold removePlan
    rcases writable_cases hwf.tree hn 1 1 uid with ⟨d, hd, htarget, hmay⟩ | ⟨hno, hc⟩
    · simp only [htarget, if_neg hmay]
      cases hfind : findName ((view fs).ents d) name with
      | none =>
        refine .inr ⟨fun h => ?_, 1, by decide, rfl⟩
        obtain ⟨d', e, hd', hsome, -⟩ := h
        obtain rfl := hd.unique hd'
        exact absurd (hfind.symm.trans hsome) (by simp)
      | some e =>
        obtain ⟨o, -, htyped⟩ := hwf.tree.typed_ents (findName_mem hfind)
        by_cases hdir : e.type = S_DIR
        · refine .inr ⟨fun h => ?_, 2, by decide, by simp only [if_pos hdir]⟩
          obtain ⟨d', e', hd', hsome, hfile⟩ := h
          obtain rfl := hd.unique hd'
          obtain rfl := Option.some.inj (hfind.symm.trans hsome)
          rw [hdir] at hfile
          cases hfile
        · have hfile : e.type = S_FIL := (htyped.resolve_left fun h => hdir h.1).1
          exact .inl ⟨d, e, hd, hfind, hfile, by simp only [if_neg hdir]⟩
    · refine .inr ⟨fun h => hno _ h.choose_spec.choose_spec.1, ?_⟩
      rcases hc with ⟨c, hc, htarget⟩ | ⟨d, htarget, hmay⟩
      · exact ⟨c, by rcases hc with rfl | rfl <;> decide, by rw [htarget]⟩
      · exact ⟨4, by decide, by simp only [htarget, if_pos hmay]⟩
  obtain ⟨ret, w', hrun, hout⟩ := wp_returns (wp_cRemove (H := False) hwf.store hwf.tree path uid
    (fun _ _ _ => hample.heap _ 0) (.inr ⟨hample, hwf.ordered⟩))
  refine ⟨ret, w', hrun, ?_⟩
  rcases hplan with ⟨d, e, hd, hsome, hfile, hok⟩ | ⟨hno, c, hc, herr⟩
  · obtain ⟨rfl, hdrops⟩ := outcome_ok hample hok hout
    exact ⟨⟨fun _ => ⟨d, e, hd, hsome, hfile⟩, fun _ => rfl⟩,
      fun _ => ⟨d, e, hd, hsome, drops_unlinks hwf hdrops⟩, fun h => absurd rfl h⟩
  · obtain ⟨hs, rfl⟩ := outcome_error hample herr hout
    exact ⟨⟨fun h => absurd h hc, fun h => absurd h hno⟩, fun h => absurd h hc, fun _ => hs.dt⟩

/-- `c_open` with creation of `/a` on a fresh disk. -/
theorem cOpen_made {w : World} (hw : FreshWorld w) : ∃ ret w' fs chain fb,
    cOpen (rootPath letterA) 8 6 0 w = .ok (ret, w') ∧
      MadeWorld fs chain S_FIL (newFile 0 6) fb w' := by
  have hplan : openPlan (view freshFs) (rootPath letterA) 0 = .ok (rootFb, [letterA], none) := by
    decide
  obtain ⟨ret, w', hrun, hout⟩ := wp_returns (m := cOpen (rootPath letterA) 8 6 0)
    (wp_cOpen hw.1.store hw.1.tree 8 6 0 (fun _ _ hp => (openPlan_length hp).trans (by decide))
    (fun _ _ _ _ => hw.2.heap _ 0) (.inr ⟨hw.2, fun d n hp => by
      obtain ⟨rfl, h⟩ := Prod.mk.inj (Except.ok.inj (hplan.symm.trans hp))
      obtain ⟨rfl, -⟩ := Prod.mk.inj h
      exact fresh_roomFor hw (by decide)⟩))
  obtain ⟨fb, -, hmakes⟩ := outcome_ok hw.2 hplan hout
  obtain ⟨fs, chain, h⟩ := made_world hw hmakes
  exact ⟨ret, w', fs, chain, fb, hrun, h⟩

theorem cRemove_unlinks_made : ∃ w fs chain fb w', cRemove (rootPath letterA) 0 w = .ok (0, w') ∧
    Unlinks fs chain rootFb ⟨[letterA], fb, S_FIL⟩ w w' := by
  obtain ⟨_, hfresh⟩ := exists_freshWorld
  obtain ⟨-, w, fs, chain, fb, -, hw⟩ := cOpen_made hfresh
  obtain ⟨ret, w', hrun, hiff, hdone, -⟩ := cRemove_unlinks hw.wellFormed named_rootPath 0 hw.ample
  obtain rfl : ret = 0 := hiff.mpr ⟨rootFb, _, hw.writable, hw.entry, rfl⟩
  obtain ⟨d, e, hd, he, hun⟩ := hdone rfl
  obtain rfl := hd.unique hw.writable
  obtain rfl := Option.some.inj (he.symm.trans hw.entry)
  exact ⟨w, fs, chain, fb, w', hrun, hun⟩

/-! ## Directories -/

/-- The entry `e` of a directory `uid` may write to is an empty directory. -/
def Removable (fs : Fs) (dir name : CStr) (uid : UInt32) (d : Nat) (e : Ent) : Prop :=
  Writable fs dir uid d ∧ findName (fs.ents d) name = some e ∧ e.type = S_DIR ∧ fs.kids e.fb = []

/-- What `c_rmdir` is for: it removes an empty directory that is neither `.` nor `..`, and
refuses everything else. -/
def RmdirLaw (fs : Fs) (chain : Nat → List Nat) (path dir name : CStr) (uid : UInt32) (w : World) :
    Prop :=
  ∃ ret w', cRmdir path uid w = .ok (ret, w') ∧
    (ret = 0 ↔ name ≠ dotName ∧ name ≠ dotdotName ∧ ∃ d e, Removable fs dir name uid d e) ∧
    (ret = 0 → ∃ d e, Removable fs dir name uid d e ∧ Unlinks fs chain d e w w') ∧
    (ret ≠ 0 → w'.dt = w.dt)

/-- The path names, through `.` or the `..` of the root, the empty directory it is in. -/
def NamesItself (fs : Fs) (dir name : CStr) (uid : UInt32) : Prop :=
  ∃ d, Writable fs dir uid d ∧ fs.kids d = [] ∧
    (name = dotName ∨ (name = dotdotName ∧ d = rootFb))

theorem writable_isDir (ht : Tree fs) {d : Nat} (h : Writable fs dir uid d) :
    ∃ u flags p kids, fs d = some ⟨u, flags, .dir p kids⟩ := by
  obtain ⟨od, ⟨e, hr, hdir, rfl, -⟩, -⟩ := h
  exact dir_of_typed (resolve_typed ht hr) hdir

/-- The directory above another one is not empty. -/
theorem parent_kids (ht : Tree fs) {d u p : Nat} {flags : UInt8} {kids : List Ent}
    (ho : fs d = some ⟨u, flags, .dir p kids⟩) (hroot : d ≠ rootFb) : fs.kids p ≠ [] := by
  obtain ⟨e, hmem, -⟩ := ht.up d u flags p kids ho hroot
  exact List.ne_nil_of_mem hmem

theorem root_parent (ht : Tree fs) {u p : Nat} {flags : UInt8} {kids : List Ent}
    (ho : fs rootFb = some ⟨u, flags, .dir p kids⟩) : p = rootFb := by
  obtain ⟨u', flags', kids', hr⟩ := ht.root
  rw [hr] at ho
  cases ho
  rfl

/-- A removable entry named `.` or `..` is the directory itself. -/
theorem Removable.dots {d : Nat} {e : Ent} (ht : Tree fs) (h : Removable fs dir name uid d e)
    (hn : name = dotName ∨ name = dotdotName) : NamesItself fs dir name uid := by
  obtain ⟨hd, hfind, -, hkids⟩ := h
  obtain ⟨u, flags, p, kids, ho⟩ := writable_isDir ht hd
  rw [ents_of_dir ho] at hfind
  rcases hn with rfl | rfl
  · rw [findName_dot] at hfind
    cases hfind
    exact ⟨d, hd, hkids, .inl rfl⟩
  · rw [findName_dotdot] at hfind
    cases hfind
    by_cases hroot : d = rootFb
    · subst hroot
      obtain rfl := root_parent ht ho
      exact ⟨_, hd, hkids, .inr ⟨rfl, rfl⟩⟩
    · exact absurd hkids (parent_kids ht ho hroot)

/-- Where a removable entry is the directory itself the path names it so. -/
theorem Removable.self {d : Nat} {e : Ent} (ht : Tree fs) (h : Removable fs dir name uid d e)
    (he : e.fb = d) : NamesItself fs dir name uid := by
  have hd := h.1
  obtain ⟨u, flags, p, kids, ho⟩ := writable_isDir ht hd
  have hname := findName_name h.2.1
  have hmem := findName_mem h.2.1
  rw [ents_of_dir ho] at hmem
  rcases List.mem_cons.mp hmem with rfl | hmem
  · exact h.dots ht (.inl hname.symm)
  rcases List.mem_cons.mp hmem with rfl | hmem
  · exact h.dots ht (.inr hname.symm)
  · exact absurd he (ht.child_ne ⟨e, by rw [kids_of_dir ho]; exact hmem, rfl⟩)

theorem NamesItself.removable (ht : Tree fs) (h : NamesItself fs dir name uid) :
    ∃ d, Removable fs dir name uid d ⟨name, d, S_DIR⟩ := by
  obtain ⟨d, hd, hkids, rfl | ⟨rfl, rfl⟩⟩ := h
  · obtain ⟨u, flags, p, kids, ho⟩ := writable_isDir ht hd
    exact ⟨d, hd, by rw [ents_of_dir ho, findName_dot], rfl, hkids⟩
  · obtain ⟨u, flags, p, kids, ho⟩ := writable_isDir ht hd
    obtain rfl := root_parent ht ho
    exact ⟨_, hd, by rw [ents_of_dir ho, findName_dotdot], rfl, hkids⟩

/-- `c_rmdir` settles on a removable entry or refuses. -/
theorem rmdirPlan_cases (ht : Tree fs) (hn : Named path dir name) (uid : UInt32) :
    (∃ d e, Removable fs dir name uid d e ∧ rmdirPlan (view fs) path uid = .ok (d, e)) ∨
      ((∀ d e, ¬ Removable fs dir name uid d e) ∧
        ∃ c, c ≠ 0 ∧ rmdirPlan (view fs) path uid = .error c) := by
  unfold rmdirPlan
  rcases writable_cases ht hn 1 1 uid with ⟨d, hd, htarget, hmay⟩ | ⟨hno, hc⟩
  · simp only [htarget, if_neg hmay]
    cases hfind : findName ((view fs).ents d) name with
    | none =>
      refine .inr ⟨fun d' e h => ?_, 1, by decide, rfl⟩
      obtain rfl := hd.unique h.1
      exact absurd (hfind.symm.trans h.2.1) (by simp)
    | some e =>
      have hsame : ∀ d' e', Removable fs dir name uid d' e' → e' = e := by
        intro d' e' h
        obtain rfl := hd.unique h.1
        exact Option.some.inj (h.2.1.symm.trans hfind)
      by_cases hdir : e.type = S_DIR
      swap
      · refine .inr ⟨fun d' e' h => ?_, 2, by decide, by simp only [ne_eq, hdir, not_false_eq_true,
          if_true]⟩
        obtain rfl := hsame d' e' h
        exact hdir h.2.2.1
      obtain ⟨u, flags, p, kids, ho⟩ := dir_of_typed (ht.typed_ents (findName_mem hfind)) hdir
      have hlen : ((view fs).ents e.fb).length = kids.length + 2 := ents_length ho
      have hkids := kids_of_dir ho
      simp only [ne_eq, hdir, not_true_eq_false, if_false]
      by_cases hempty : kids = []
      · refine .inl ⟨d, e, ⟨hd, hfind, hdir, hkids.trans hempty⟩, ?_⟩
        rw [if_neg (by rw [hlen, hempty]; decide)]
      · refine .inr ⟨fun d' e' h => ?_, 3, by decide, ?_⟩
        · obtain rfl := hsame d' e' h
          exact hempty (hkids.symm.trans h.2.2.2)
        · have hpos := List.length_pos_iff.mpr hempty
          rw [if_pos (by rw [hlen]; omega)]
  · refine .inr ⟨fun d' e h => hno d' h.1, ?_⟩
    rcases hc with ⟨c, hc, htarget⟩ | ⟨d, htarget, hmay⟩
    · exact ⟨c, by rcases hc with rfl | rfl <;> decide, by rw [htarget]⟩
    · exact ⟨4, by decide, by simp only [htarget, if_pos hmay]⟩

theorem Removable.unique {d d' : Nat} {e e' : Ent} (h : Removable fs dir name uid d e)
    (h' : Removable fs dir name uid d' e') : d = d' ∧ e = e' := by
  obtain rfl := h.1.unique h'.1
  exact ⟨rfl, Option.some.inj (h.2.1.symm.trans h'.2.1)⟩

/-- Through its own entry an empty directory is removed all the same. -/
theorem rmdir_itself (hwf : WellFormed w.dt fs chain) (hn : Named path dir name)
    (hample : Ample w.env) (h : NamesItself fs dir name uid) {ret : Int} {w' : World}
    (hrun : cRmdir path uid w = .ok (ret, w')) : ret = 0 := by
  obtain ⟨d₀, hrem₀⟩ := h.removable hwf.tree
  rcases rmdirPlan_cases hwf.tree hn uid with ⟨d, e, hrem, hplan⟩ | ⟨hno, -⟩
  swap
  · exact absurd hrem₀ (hno _ _)
  obtain ⟨rfl, rfl⟩ := hrem.unique hrem₀
  have hzero : wp (cRmdir path uid) (fun r _ => r = 0) w := by
    refine wp_cRmdir_until hwf.store hwf.tree path uid (fun c hc _ _ => ?_) (fun hm _ _ _ => ?_)
      (fun d' e' ouid flags p kids i pdata w₁ hplan' _ hspot _ => ?_) (.inl trivial)
    · exact absurd (hplan.symm.trans hc) (by simp)
    · obtain ⟨s, hs⟩ := hm
      exact absurd (hample.heap s) hs
    · obtain ⟨rfl, rfl⟩ := Prod.mk.inj (Except.ok.inj (hplan.symm.trans hplan'))
      have hst₁ : Store w₁.dt fs chain := by rw [hspot.same.dt]; exact hwf.store
      exact wp_dropEntry_self (H := True) hst₁ hspot.dir hspot.entry rfl hspot.holds hspot.room
        ((hample.heap _).later hspot.same.later 0) (.inl trivial)
  have hret := wp_ok hzero hrun
  exact hret

/-- `c_rmdir` does what it is for unless the path names the empty directory it is in. -/
theorem cRmdir_law_iff (hwf : WellFormed w.dt fs chain) (hn : Named path dir name) (uid : UInt32)
    (hample : Ample w.env) :
    RmdirLaw fs chain path dir name uid w ↔ ¬ NamesItself fs dir name uid := by
  constructor
  · intro hlaw hself
    obtain ⟨ret, w', hrun, hiff, -⟩ := hlaw
    obtain ⟨hdot, hdotdot, -⟩ := hiff.mp (rmdir_itself hwf hn hample hself hrun)
    obtain ⟨d, -, -, h | h⟩ := hself
    · exact hdot h
    · exact hdotdot h.1
  · intro hself
    have hne : ∀ d e, rmdirPlan (view fs) path uid = .ok (d, e) → e.fb ≠ d := by
      intro d e hok he
      rcases rmdirPlan_cases hwf.tree hn uid with ⟨d', e', hrem, hplan⟩ | ⟨-, c, -, herr⟩
      · obtain ⟨rfl, rfl⟩ := Prod.mk.inj (Except.ok.inj (hplan.symm.trans hok))
        exact hself (hrem.self hwf.tree he)
      · exact absurd (hok.symm.trans herr) (by simp)
    obtain ⟨ret, w', hrun, hout⟩ := wp_returns (wp_cRmdir (H := False) hwf.store hwf.tree path uid
      (fun d e hok _ => ⟨hne d e hok, hample.heap _ 0⟩) (.inr ⟨hample, hwf.ordered⟩))
    refine ⟨ret, w', hrun, ?_⟩
    rcases rmdirPlan_cases hwf.tree hn uid with ⟨d, e, hrem, hok⟩ | ⟨hno, c, hc, herr⟩
    · obtain ⟨rfl, hdrops⟩ := outcome_ok hample hok hout
      exact ⟨⟨fun _ => ⟨fun h => hself (hrem.dots hwf.tree (.inl h)),
        fun h => hself (hrem.dots hwf.tree (.inr h)), d, e, hrem⟩, fun _ => rfl⟩,
        fun _ => ⟨d, e, hrem, drops_unlinks hwf hdrops⟩, fun h => absurd rfl h⟩
    · obtain ⟨hs, rfl⟩ := outcome_error hample herr hout
      refine ⟨⟨fun h => absurd h hc, fun h => ?_⟩, fun h => absurd h hc, fun _ => hs.dt⟩
      obtain ⟨-, -, d, e, hrem⟩ := h
      exact absurd hrem (hno d e)

/-- `c_mkdir` of `/a` on a fresh disk. -/
theorem fresh_mkdir {w : World} (hw : FreshWorld w) : ∃ w' fs chain fb,
    cMkdir (rootPath letterA) 0 w = .ok (0, w') ∧
      MadeWorld fs chain S_DIR (newDir 0 rootFb) fb w' := by
  have hplan : mkdirPlan (view freshFs) (rootPath letterA) 0 = .ok (rootFb, [letterA]) := by decide
  obtain ⟨ret, w', hrun, hout⟩ := wp_returns (m := cMkdir (rootPath letterA) 0)
    (wp_cMkdir hw.1.store hw.1.tree 0 (fun _ _ hp => (mkdirPlan_length hp).trans (by decide))
    (fun _ _ _ => hw.2.heap _ 0) (.inr ⟨hw.2, fun d n hp => by
      obtain ⟨rfl, rfl⟩ := Prod.mk.inj (Except.ok.inj (hplan.symm.trans hp))
      exact fresh_roomFor hw (by decide)⟩))
  obtain ⟨rfl, -⟩ := outcome_ok hw.2 hplan hout
  obtain ⟨d, name, fb, hp, hmakes⟩ := cMkdir_makes hw.1.store hw.1.tree hw.2 (by decide) hrun
  cases hplan.symm.trans hp
  obtain ⟨fs, chain, h⟩ := made_world hw hmakes
  exact ⟨w', fs, chain, fb, hrun, h⟩

theorem cRmdir_law_made : ∃ w fs chain,
    RmdirLaw fs chain (rootPath letterA) [] [letterA] 0 w := by
  obtain ⟨_, hfresh⟩ := exists_freshWorld
  obtain ⟨w, fs, chain, fb, -, hw⟩ := fresh_mkdir hfresh
  refine ⟨w, fs, chain, (cRmdir_law_iff hw.wellFormed named_rootPath 0 hw.ample).mpr fun h => ?_⟩
  obtain ⟨d, -, -, hdot | hdotdot⟩ := h
  · exact absurd hdot (by decide)
  · exact absurd hdotdot.1 (by decide)

/-- On a fresh disk `c_rmdir` of `/.` returns 0 for the root itself. -/
theorem rmdir_law_fails_root : ∃ w, FreshWorld w ∧
    ¬ RmdirLaw freshFs (fun _ => [rootFb]) [slash, dot] [] dotName 0 w := by
  obtain ⟨w, hw⟩ := exists_freshWorld
  refine ⟨w, hw, fun h => ?_⟩
  obtain ⟨ret, w', hrun, hiff, -⟩ := h
  have hself : NamesItself freshFs [] dotName 0 :=
    ⟨rootFb, fresh_writable, freshFs_kids _, .inl rfl⟩
  have hnamed : Named [slash, dot] [] dotName := ⟨by decide, by decide, .inl rfl⟩
  exact (hiff.mp (rmdir_itself hw.1 hnamed hw.2 hself hrun)).1 rfl

end Sbpfs.Cfs.RemovalLaws
