import Sbpfs.Cfs.OpenLaws

/-!
# Moving an entry

What `c_move` is for, and that it keeps to it where it has to refuse. Every move it
accepts goes wrong: in one directory the new name is copied over the header instead of
into the name pool, between two the destination's length stays what it was.
-/
namespace Sbpfs.Cfs.MoveLaws

open Sbpfs.Lib.Program Sbpfs.Lib.Memory
open Sbpfs.Cfs.Layout Sbpfs.Cfs.Rules Sbpfs.Cfs.FatSpec Sbpfs.Cfs.File Sbpfs.Cfs.FileSpec
    Sbpfs.Cfs.Lookup
open Sbpfs.Cfs.Namespace Sbpfs.Cfs.Image Sbpfs.Cfs.DiskStore Sbpfs.Cfs.Mkfs Sbpfs.Cfs.LookupSpec
open Sbpfs.Cfs.ObjectSpec Sbpfs.Cfs.NamespaceSpec Sbpfs.Cfs.ChainLaws Sbpfs.Cfs.Invariants
open Sbpfs.Cfs.NamespaceLaws Sbpfs.Cfs.RemovalLaws Sbpfs.Spec.FileTree Sbpfs.Spec.Resolve

variable {fs : Fs} {chain : Nat → List Nat} {w : World}
    {srcpath sdir sname dstpath ddir dname : CStr}
  {uid : UInt32}

/-- The entry `e` of `s` may be moved to `d` under the name `dname`. -/
structure Movable (fs : Fs) (sdir sname ddir dname : CStr) (uid : UInt32) (s d : Nat) (e : Ent) :
    Prop where
  source : Writable fs sdir uid s
  target : Writable fs ddir uid d
  entry : findName (fs.ents s) sname = some e
  free : findName (fs.ents d) dname = none

/-- The tree and the disk after `e` went from `s` to `d`. -/
structure Moved (fs : Fs) (chain : Nat → List Nat) (s d : Nat) (sname dname : CStr) (e : Ent)
    (w w' : World) (fs' : Fs) (chain' : Nat → List Nat) : Prop where
  store : Store w'.dt fs' chain'
  arrived : findName (fs'.ents d) dname = some ⟨dname, e.fb, e.type⟩
  left : findName (fs'.ents s) sname = none
  source : ∀ n, n ≠ sname → (s ≠ d ∨ n ≠ dname) →
    findName (fs'.ents s) n = findName (fs.ents s) n
  target : ∀ n, n ≠ dname → (s ≠ d ∨ n ≠ sname) →
    findName (fs'.ents d) n = findName (fs.ents d) n
  others : ∀ m, m ≠ s → m ≠ d → fs' m = fs m
  kept : ∀ m o, fs m = some o → m ≠ s → m ≠ d → chain' m = chain m ∧
    ∀ c ∈ chain m, w'.dt.fat c = w.dt.fat c ∧ w'.dt.data c = w.dt.data c
  fits : TableFits w'.dt s (chain' s) ∧ TableFits w'.dt d (chain' d)

/-- What `c_move` is for. -/
def MoveLaw (fs : Fs) (chain : Nat → List Nat) (srcpath sdir sname dstpath ddir dname : CStr)
    (uid : UInt32) (w : World) : Prop :=
  ∃ ret w', cMove srcpath dstpath uid w = .ok (ret, w') ∧
    (∀ s d e, Movable fs sdir sname ddir dname uid s d e →
      ret = 0 ∧ ∃ fs' chain', Moved fs chain s d sname dname e w w' fs' chain') ∧
    ((∀ s d e, ¬ Movable fs sdir sname ddir dname uid s d e) → ret ≠ 0 ∧ w'.dt = w.dt)

theorem movePlan_refuses (ht : Tree fs) (hs : Named srcpath sdir sname)
    (hd : Named dstpath ddir dname)
    (hno : ∀ s d e, ¬ Movable fs sdir sname ddir dname uid s d e) :
    ∃ c, c ≠ 0 ∧ movePlan (view fs) srcpath dstpath uid = .error c := by
  unfold movePlan
  have hbad : ∀ {c : Int}, c = 1 ∨ c = 1 → c ≠ 0 := by
    rintro c (rfl | rfl) <;> decide
  rcases writable_cases ht hs 1 1 uid with
    ⟨s, hsw, hst, hsmay⟩ | ⟨-, ⟨c, hc, hst⟩ | ⟨s, hst, hsmay⟩⟩
  · rcases writable_cases ht hd 1 1 uid with
      ⟨d, hdw, hdt, hdmay⟩ | ⟨-, ⟨c, hc, hdt⟩ | ⟨d, hdt, hdmay⟩⟩
    · simp only [hst, hdt, hsmay, hdmay, or_self, if_false]
      cases hfind : findName ((view fs).ents s) sname with
      | none => exact ⟨1, by decide, rfl⟩
      | some e =>
        cases hfree : findName ((view fs).ents d) dname with
        | none => exact absurd ⟨hsw, hdw, hfind, hfree⟩ (hno s d e)
        | some e' => exact ⟨2, by decide, rfl⟩
    · exact ⟨c, hbad hc, by simp only [hst, hdt]⟩
    · exact ⟨4, by decide, by simp only [hst, hdt, hdmay, or_true, if_true]⟩
  · exact ⟨c, hbad hc, by simp only [hst]⟩
  · rcases target_cases ht hd 1 1 with ⟨d, od, -, hdt⟩ | ⟨-, c, hc, hdt⟩
    · exact ⟨4, by decide, by simp only [hst, hdt, hsmay, true_or, if_true]⟩
    · exact ⟨c, hbad hc, by simp only [hst, hdt]⟩

/-- Where there is nothing to move `c_move` returns nonzero and leaves the disk alone. -/
theorem cMove_law (hwf : WellFormed w.dt fs chain) (hs : Named srcpath sdir sname)
    (hd : Named dstpath ddir dname) (hample : Ample w.env)
    (hno : ∀ s d e, ¬ Movable fs sdir sname ddir dname uid s d e) :
    MoveLaw fs chain srcpath sdir sname dstpath ddir dname uid w := by
  obtain ⟨c, hc, hplan⟩ := movePlan_refuses hwf.tree hs hd hno
  obtain ⟨ret, w', hrun, hsame, hret⟩ := wp_returns
    (wp_cMove_refused (H := False) hwf.store hwf.tree
    hplan (.inr hample))
  refine ⟨ret, w', hrun, fun s d e h => absurd h (hno s d e), fun _ => ⟨?_, hsame.dt⟩⟩
  rcases hret with ⟨-, site, hsite⟩ | rfl
  · exact absurd (hample.heap site) hsite
  · exact hc

/-- On a fresh disk there is nothing to move. -/
theorem cMove_law_fresh : ∃ w, FreshWorld w ∧ MoveLaw freshFs (fun _ => [rootFb])
    (rootPath letterA) [] [letterA] (rootPath letterB) [] [letterB] 0 w := by
  obtain ⟨w, hw⟩ := exists_freshWorld
  refine ⟨w, hw, cMove_law hw.1 named_rootPath ⟨by decide, by decide, .inl rfl⟩ hw.2
    fun s d e h => ?_⟩
  obtain rfl := h.source.unique fresh_writable
  cases fresh_absent.symm.trans h.entry

theorem dir_of_findName {d : Nat} {name : CStr} {e : Ent} (h : findName (fs.ents d) name = some e) :
    ∃ u flags p kids, fs d = some ⟨u, flags, .dir p kids⟩ := by
  unfold Fs.ents at h
  split at h
  · rename_i hd
    exact ⟨_, _, _, _, hd⟩
  · cases h

/-- A name that the table of a directory holds is found in the tree. -/
theorem findName_of_strEq {d u p i off : Nat} {flags : UInt8} {kids : List Ent} {name : CStr}
    (hst : Store w.dt fs chain) (ho : fs d = some ⟨u, flags, .dir p kids⟩)
    (hi : 16 * i < metaStrbase (w.dt.data d)) (hsec : entryOff i + 16 ≤ 512)
    (hoff : off = 64 + metaStrbase (w.dt.data d) + entryName (w.dt.data d) (entryOff i))
    (hfits : off + name.length < 512) (hname : strEq (w.dt.data d) off name = true) :
    findName (fs.ents d) name ≠ none := by
  have hat := hst.obj d _ ho
  have hname : strEq (imageOf w.dt.data (chain d)) off name = true := by
    rw [← hname]
    refine strEq_congr fun k hk => ?_
    exact (hat.header (by omega)).symm
  rw [hoff] at hname
  have hdir : DirImage (imageOf w.dt.data (chain d)) (chain d).length (table d p kids) :=
    hat.holds.node
  have hbase : metaStrbase (w.dt.data d) = 16 * (table d p kids).length :=
    (hat.header_field (by omega)).trans hdir.strbase
  rw [hbase] at hi hname
  have hlt : i < (table d p kids).length := by omega
  have hent := hdir.entry i _ (List.getElem?_eq_getElem hlt)
  have hfield : entryName (w.dt.data d) (entryOff i)
      = entryName (imageOf w.dt.data (chain d)) (entryOff i) := hat.header_field (by omega)
  rw [hfield] at hname
  have he := strEq_unique hent.name hname
  rw [ents_of_dir ho]
  intro hnone
  exact findName_none hnone _ (List.getElem_mem hlt) he

/-- A fresh disk, `/a` made on it, and `/a` moved to `/b`. -/
def moveInRoot : CM Int := do
  doMkcfs
  let _ ← cOpen (rootPath letterA) 8 6 0
  cMove (rootPath letterA) (rootPath letterB) 0

/-- The table of the root spells `/a` in its third entry. -/
def rootHoldsA (data : Bytes) : Bool :=
  metaStrbase data == 48 && entryName data (entryOff 2) == 5 && strEq data 117 [letterA]

/-- `c_move` returns 0 and the old name is still in the table. -/
theorem moveInRoot_leaves :
    ∃ w, moveInRoot ⟨blank, 0, vast⟩ = .ok (0, w) ∧ rootHoldsA (w.dt.data rootFb) := by
  have h : (moveInRoot ⟨blank, 0, vast⟩).toOption.any (fun r => r.1 == 0 &&
      rootHoldsA (r.2.dt.data rootFb))
      = true := by
    decide +kernel
  cases hrun : moveInRoot ⟨blank, 0, vast⟩ with
  | error stop =>
    rw [hrun] at h
    cases h
  | ok r =>
    obtain ⟨ret, w⟩ := r
    rw [hrun] at h
    obtain ⟨hret, hold⟩ := Bool.and_eq_true_iff.mp h
    obtain rfl := beq_iff_eq.mp hret
    exact ⟨w, rfl, hold⟩

/-- A file `/a` that root moves to `/b` is still called `/a`. -/
theorem move_law_fails_inRoot : ∃ w fs chain fb, MadeWorld fs chain S_FIL (newFile 0 6) fb w ∧
    Movable fs [] [letterA] [] [letterB] 0 rootFb rootFb ⟨[letterA], fb, S_FIL⟩ ∧
    ¬ MoveLaw fs chain (rootPath letterA) [] [letterA] (rootPath letterB) [] [letterB] 0 w := by
  obtain ⟨w₃, hrun, hold⟩ := moveInRoot_leaves
  obtain ⟨u, w₁, hmkfs, hrun⟩ := bind_ok.mp hrun
  obtain ⟨ret, w₂, hopen, hmove⟩ := bind_ok.mp hrun
  obtain ⟨w, hw, hfresh⟩ := doMkcfs_fresh
  obtain rfl : w = w₁ := congrArg Prod.snd (Except.ok.inj (hw.symm.trans hmkfs))
  obtain ⟨ret', w', fs, chain, fb, hmade, hworld⟩ := cOpen_made hfresh
  obtain rfl : w' = w₂ := congrArg Prod.snd (Except.ok.inj (hmade.symm.trans hopen))
  have hmov : Movable fs [] [letterA] [] [letterB] 0 rootFb rootFb ⟨[letterA], fb, S_FIL⟩ :=
    ⟨hworld.writable, hworld.writable, hworld.entry, hworld.absent⟩
  refine ⟨w', fs, chain, fb, hworld, hmov, fun hlaw => ?_⟩
  obtain ⟨ret, w₄, hrun', hmoved, -⟩ := hlaw
  obtain rfl : w₄ = w₃ := congrArg Prod.snd (Except.ok.inj (hrun'.symm.trans hmove))
  obtain ⟨-, fs', chain', hm⟩ := hmoved rootFb rootFb _ hmov
  obtain ⟨u, flags, p, kids, ho⟩ := dir_of_findName hm.arrived
  simp only [rootHoldsA, Bool.and_eq_true, beq_iff_eq] at hold
  obtain ⟨⟨hbase, hname⟩, hspells⟩ := hold
  refine findName_of_strEq (i := 2) hm.store ho (by omega) (by decide) ?_ (by decide) hspells
    hm.left
  rw [hbase, hname]

end Sbpfs.Cfs.MoveLaws
