import Sbpfs.Cfs.DataSpec
import Sbpfs.Cfs.DiskView

/-!
# Calls that stop half way

What the operations leave behind when the allocation of `do_remove_entry`, `initfile` or
`initdir` returns NULL: a chain that is free while its entry is still there, or an entry
without an object. Neither is a change that the call could have asked for. A write that
does not stop at its first checks returns a count.
-/
namespace Sbpfs.Cfs.HalfDone

open Sbpfs.Lib.Program Sbpfs.Lib.Memory Sbpfs.Lib.Chain
open Sbpfs.Cfs.Layout Sbpfs.Cfs.Rules Sbpfs.Cfs.FatSpec Sbpfs.Cfs.File Sbpfs.Cfs.Lookup
open Sbpfs.Cfs.Namespace Sbpfs.Cfs.Image Sbpfs.Cfs.DiskStore Sbpfs.Cfs.LookupSpec Sbpfs.Cfs.Edit
open Sbpfs.Cfs.ObjectSpec Sbpfs.Cfs.NamespaceSpec Sbpfs.Cfs.Data
open Sbpfs.Cfs.DiskView (chainOf_eq)
open Sbpfs.Spec.FileTree Sbpfs.Spec.Resolve

-- the rules are used by name; a program is never evaluated
attribute [local irreducible] wpOr

variable {fs : Fs} {chain : Nat → List Nat} {w : World} {path : CStr} {uid : UInt32}

section Remove

/-- Without the memory to move the table up, the object is freed all the same. -/
theorem wp_dropEntry_starved {d ouid p i : Nat} {flags : UInt8} {kids : List Ent} {e : Ent}
    {oe : Obj} {pdata : Buf} (hst : Store w.dt fs chain) (hget : (table d p kids)[i]? = some e)
    (hoe : fs e.fb = some oe)
    (hh : Holds pdata.bytes (chain d).length d ⟨ouid, flags, .dir p kids⟩)
    (hsize : 512 * (chain d).length ≤ pdata.size) (htail : w.env.heap .tail 0 = none) :
    wp (dropEntry d pdata (entryOff i)) (fun r w' => r = -9 ∧ w'.dt.fat e.fb = FREESEC) w := by
  have hcount := hh.setCount (v := u32Sub (metaCount pdata.bytes) 1)
  have hdir : DirImage (putLE pdata.bytes 4 4 (u32Sub (metaCount pdata.bytes) 1)) (chain d).length
      (table d p kids) := hcount.node
  have hflen := hdir.flen
  have hle := hdir.le
  unfold dropEntry doRemoveEntry
  simp only [wp_bind, wp_store, (hdir.entry i e hget).fb]
  refine ⟨by omega, wp_mono (wp_resetObj hst hoe (.inl trivial)) ?_⟩
  rintro _ _ rfl
  have hneg : (-9 : Int) ≠ 0 := by decide
  simp only [wp_getNow, wp_malloc, htail, Option.map_none, wp_pure, if_pos hneg]
  exact ⟨trivial, cleared_of_mem (hst.obj _ _ hoe).head_mem⟩

/-- `c_remove` frees the file before it asks for the memory to remove the entry. -/
theorem wp_cRemove_starved {d : Nat} {e : Ent} (hst : Store w.dt fs chain) (ht : Tree fs)
    (hplan : removePlan (view fs) path uid = .ok (d, e)) (hgot : Searches w.env path)
    (htail : w.env.heap .tail 0 = none) :
    wp (cRemove path uid)
      (fun r w' => r = -9 ∧ (∃ o, fs e.fb = some o) ∧ w'.dt.fat e.fb = FREESEC) w := by
  refine wp_cRemove_until hst ht path uid (fun c hc w' _ => ?_) (fun _ hno w' _ => ?_)
    (fun d' e' ouid flags p kids j pdata w₁ hplan' _ hspot hj _ => ?_) (.inl trivial)
  · cases hplan.symm.trans hc
  · exact absurd hgot (hno _ hplan)
  cases hplan.symm.trans hplan'
  have hst₁ : Store w₁.dt fs chain := by rw [hspot.same.dt]; exact hst
  have hmem : e ∈ fs.ents d := by
    rw [ents_of_dir hspot.dir]
    exact List.mem_of_getElem? hspot.entry
  obtain ⟨oe, hoe, -⟩ := ht.typed_ents hmem
  refine wp_mono (wp_dropEntry_starved hst₁ hspot.entry hoe hspot.holds hspot.room
    (hspot.tail ▸ htail)) ?_
  rintro r w' ⟨rfl, hfree⟩
  exact ⟨rfl, ⟨oe, hoe⟩, hfree⟩

/-- So does `c_rmdir`. -/
theorem wp_cRmdir_starved {d : Nat} {e : Ent} (hst : Store w.dt fs chain) (ht : Tree fs)
    (hplan : rmdirPlan (view fs) path uid = .ok (d, e))
    (hgot : Searches w.env path ∧ w.env.heap .image 0 ≠ none)
    (htail : w.env.heap .tail 0 = none) :
    wp (cRmdir path uid)
      (fun r w' => r = -9 ∧ (∃ o, fs e.fb = some o) ∧ w'.dt.fat e.fb = FREESEC) w := by
  refine wp_cRmdir_until hst ht path uid (fun c hc w' _ => ?_) (fun _ hno w' _ => ?_)
    (fun d' e' ouid flags p kids i pdata w₁ hplan' _ hspot hempty => ?_) (.inl trivial)
  · cases hplan.symm.trans hc
  · exact absurd hgot (hno _ hplan)
  cases hplan.symm.trans hplan'
  have hst₁ : Store w₁.dt fs chain := by rw [hspot.same.dt]; exact hst
  obtain ⟨euid, eflags, ep, hoe⟩ := hempty
  refine wp_mono (wp_dropEntry_starved hst₁ hspot.entry hoe hspot.holds hspot.room
    (hspot.tail ▸ htail)) ?_
  rintro r w' ⟨rfl, hfree⟩
  exact ⟨rfl, ⟨_, hoe⟩, hfree⟩

/-- With the memory, `c_rmdir` returns 0 for the directory it works in. -/
theorem wp_cRmdir_itself {d : Nat} {e : Ent} (hst : Store w.dt fs chain) (ht : Tree fs)
    (hplan : rmdirPlan (view fs) path uid = .ok (d, e))
    (hgot : Searches w.env path ∧ w.env.heap .image 0 ≠ none) (hself : e.fb = d)
    (htail : w.env.heap .tail 0 ≠ none) : wp (cRmdir path uid) (fun r _ => r = 0) w := by
  refine wp_cRmdir_until hst ht path uid (fun c hc w' _ => ?_) (fun _ hno w' _ => ?_)
    (fun d' e' ouid flags p kids i pdata w₁ hplan' _ hspot _ => ?_) (.inl trivial)
  · cases hplan.symm.trans hc
  · exact absurd hgot (hno _ hplan)
  cases hplan.symm.trans hplan'
  have hst₁ : Store w₁.dt fs chain := by rw [hspot.same.dt]; exact hst
  exact wp_dropEntry_self hst₁ hspot.dir hspot.entry hself hspot.holds hspot.room
    (hspot.tail ▸ htail) (.inl trivial)

end Remove

section Create

theorem wp_initfile_starved {mode : UInt8} (h : w.env.heap .initfile 0 = none) :
    wp (initfile uid mode) (fun r w' => r = none ∧ Same w w') w := by
  unfold initfile
  simp only [wp_bind, wp_malloc, h, Option.map_none, wp_pure]
  exact ⟨trivial, Same.pop w _⟩

theorem wp_initdir_starved {parent : Option Nat} (h : w.env.heap .initdir 0 = none) :
    wp (initdir uid parent) (fun r w' => r = none ∧ Same w w') w := by
  unfold initdir
  simp only [wp_bind, wp_malloc, h, Option.map_none, wp_pure]
  exact ⟨trivial, Same.pop w _⟩

/-- The table of `d` has been rewritten, and no object has been made. -/
def Rewrote (fs : Fs) (d : Nat) (w' : World) : Prop :=
  ∃ o' chain', Store w'.dt (Function.update fs d (some o')) chain'

/-- `c_mkdir` enters the name of a directory that `initdir` has not made. -/
theorem wp_cMkdir_starved {d : Nat} {name : CStr} (hst : Store w.dt fs chain) (ht : Tree fs)
    (hname : name.length < 2 ^ 33) (hplan : mkdirPlan (view fs) path uid = .ok (d, name))
    (hgot : Searches w.env path ∧ w.env.heap .image 0 ≠ none)
    (hinit : w.env.heap .initdir 0 = none) :
    wp (cMkdir path uid) (fun r w' => r = 0 ∧ Rewrote fs d w' ∧ ∃ o, fs d = some o) w := by
  refine wp_cMkdir_until hst ht uid (fun _ _ hp => ?_) (fun c hc w' _ => ?_)
    (fun _ hno w' _ => ?_)
    (fun d' name' ouid flags p kids pdata size buf w₁ hplan' _ habs hsize _ => ?_) (.inl trivial)
  · cases hplan.symm.trans hp
    exact hname
  · cases hplan.symm.trans hc
  · exact absurd hgot (hno _ hplan)
  cases hplan.symm.trans hplan'
  have hst₁ : Store w₁.dt fs chain := by rw [habs.same.dt]; exact hst
  have hge := habs.ge
  have hlt := habs.lt
  have hnone : w₁.env.heap .initdir 0 = none := by
    rw [habs.others _ (by decide) (by decide) (by decide)]
    exact hinit
  simp only [wp_bind]
  refine wp_mono (wp_spliced_entry habs.holds habs.header hsize habs.size_eq (by omega)
    (wp_initdir_starved hnone) fun fb w' h => ?_) ?_
  · cases h.1
  rintro ⟨buf', _⟩ w₂ ⟨⟨rfl, hs⟩, fb, -, hbsize, hbh, hbflen, -, -⟩
  simp only at hbsize
  have hst₂ : Store w₂.dt fs chain := by rw [hs.dt]; exact hst₁
  have hcount := hbh.setCount (v := u32 (metaCount buf'.bytes + 1))
  have hflen : metaFlen (putLE buf'.bytes 4 4 (u32 (metaCount buf'.bytes + 1))) = size :=
    (getLE_putLE_ne (by omega)).trans hbflen
  simp only [wp_store, wp_pure]
  refine ⟨by omega, wp_mono (wp_writeObj_headed hst₂ habs.dir hcount (by omega)
    (Nat.le_of_eq hflen) (by omega) (.inl trivial)) ?_⟩
  rintro _ w' ⟨⟨cs, hrew⟩, -⟩
  exact ⟨trivial, ⟨_, _, hrew.store⟩, _, habs.dir⟩

/-- `c_open` enters the name of a file that `initfile` has not made. -/
theorem wp_cOpen_starved {d : Nat} {name : CStr} {oflags mode : UInt8} (hst : Store w.dt fs chain)
    (ht : Tree fs) (hname : name.length < 2 ^ 33)
    (hplan : openPlan (view fs) path uid = .ok (d, name, none))
    (hgot : Searches w.env path ∧ w.env.heap .image 0 ≠ none)
    (hinit : w.env.heap .initfile 0 = none) :
    wp (cOpen path oflags mode uid) (fun _ w' => Rewrote fs d w' ∧ (∃ o, fs d = some o) ∧
      metaFlen (w.dt.data d) < metaFlen (w'.dt.data d)) w := by
  refine wp_cOpen_until hst ht oflags mode uid (fun _ _ hp => ?_) (fun c hc w' _ => ?_)
    (fun _ _ _ hp w' _ => ?_) (fun _ hno _ _ w' _ => ?_)
    (fun d' name' ouid flags p kids pdata size buf w₁ hplan' _ habs hsize => ?_) (.inl trivial)
  · cases hplan.symm.trans hp
    exact hname
  · cases hplan.symm.trans hc
  · cases hplan.symm.trans hp
  · exact absurd hgot (hno _ _ hplan)
  cases hplan.symm.trans hplan'
  have hst₁ : Store w₁.dt fs chain := by rw [habs.same.dt]; exact hst
  have hge := habs.ge
  have hlt := habs.lt
  have hnone : w₁.env.heap .initfile 0 = none := by
    rw [habs.others _ (by decide) (by decide) (by decide)]
    exact hinit
  simp only [wp_bind]
  refine wp_mono (wp_spliced_entry habs.holds habs.header hsize habs.size_eq (by omega)
    (wp_initfile_starved hnone) fun fb w' h => ?_) ?_
  · cases h.1
  rintro ⟨buf', _⟩ w₂ ⟨⟨rfl, hs⟩, fb, -, -, hbh, hbflen, -, -⟩
  have hst₂ : Store w₂.dt fs chain := by rw [hs.dt]; exact hst₁
  simp only [wp_pure]
  refine wp_mono (wp_writeObj_headed hst₂ habs.dir hbh (by omega) (Nat.le_of_eq hbflen) (by omega)
    (.inl trivial)) ?_
  rintro _ w' ⟨⟨cs, hrew⟩, hheaded⟩
  refine ⟨⟨_, _, hrew.store⟩, ⟨_, habs.dir⟩, ?_⟩
  have hold : metaFlen (w.dt.data d) = metaFlen pdata := habs.header 8 8 (by decide)
  have hnew : metaFlen (w'.dt.data d) = metaFlen buf'.bytes := hheaded 8 8 (by decide)
  have hsize' := habs.size_eq
  dsimp only at hbflen
  omega

end Create

/-- Two trees on one disk: what the larger one has more than the other would have to own
slots of its own, but every used slot is one of the other tree's. -/
theorem no_new_object {dt : Dtree} {fs fs' : Fs} {chain chain' : Nat → List Nat}
    (h : Store dt fs chain) (h' : Store dt fs' chain')
    (hsub : ∀ m o, fs m = some o → ∃ o', fs' m = some o') {fb : Nat} {o : Obj}
    (hfb : fs' fb = some o) : ∃ o', fs fb = some o' := by
  have hat := h'.obj fb o hfb
  obtain ⟨m, om, hm, hmem⟩ := h.owned fb hat.head_ne_zero (hat.fat_ne_zero hat.head_mem)
  by_cases hne : m = fb
  · exact ⟨om, hne ▸ hm⟩
  · obtain ⟨om', hm'⟩ := hsub m om hm
    have hchain : chain m = chain' m :=
      (chainOf_eq h.sized (h.obj m om hm)).symm.trans (chainOf_eq h'.sized (h'.obj m om' hm'))
    rw [hchain] at hmem
    exact absurd hat.head_mem (h'.disjoint m fb om' o hm' hfb hne hmem)

/-- A disk where only a table has been rewritten has no new object. -/
theorem Rewrote.not_makes {d d' fb : Nat} {name : CStr} {type : UInt8} {o : Obj} {w' : World}
    (h : Rewrote fs d w') (hd : ∃ od, fs d = some od) :
    ¬ Makes fs chain d' name type o w w' fb := by
  rintro ⟨muid, flags, p, kids, chain', ho, he⟩
  obtain ⟨o', chain'', hst⟩ := h
  have hlink := he.linkable
  have hlinked := he.store
  obtain ⟨od, hod⟩ := hd
  generalize hfs' : link fs d' ⟨muid, flags, .dir p kids⟩ p kids ⟨name, fb, type⟩ o = fs' at hlinked
  have hsub : ∀ m om, Function.update fs d (some o') m = some om → ∃ om', fs' m = some om' := by
    intro m om hm
    have hlive : ∃ om', fs m = some om' := by
      by_cases hmd : m = d
      · exact ⟨od, hmd ▸ hod⟩
      · rw [Function.update_of_ne hmd] at hm
        exact ⟨om, hm⟩
    obtain ⟨om', hm'⟩ := hlive
    have hne : m ≠ fb := by
      rintro rfl
      cases hlink.fresh.symm.trans hm'
    by_cases hmd : m = d'
    · exact ⟨_, by rw [← hfs', link, hmd, Function.update_self]⟩
    · exact ⟨om', by rw [← hfs', link, Function.update_of_ne hmd, Function.update_of_ne hne, hm']⟩
  have hnew : fs' fb = some o := by
    rw [← hfs', link, Function.update_of_ne hlink.ne, Function.update_self]
  obtain ⟨ofb, hofb⟩ := no_new_object hst hlinked hsub hnew
  have hfb : fb ≠ d := by
    rintro rfl
    cases hlink.fresh.symm.trans hod
  rw [Function.update_of_ne hfb] at hofb
  cases hlink.fresh.symm.trans hofb

/-- A write stops where its offset is behind the file, or without memory for the records. -/
def WriteStops (w : World) (fb : UInt32) (offset : UInt64) : Prop :=
  metaFlen (w.dt.data (sectorOf fb.toNat)) < offset.toNat ∨ w.env.heap .records 0 = none

/-- A write that stops has changed nothing, and any other one returns its count of blocks. -/
theorem cWrite_stops {fb : UInt32} {offset length : UInt64} {ips : List Nat} {cap : Nat} {r : Int}
    {segs : List SendBlock} {w' : World}
    (hrun : cWrite fb offset length ips cap w = .ok ((r, segs), w')) :
    (WriteStops w fb offset → Same w w' ∧ r < 0) ∧
      (¬ WriteStops w fb offset → r = rangeBlocks offset.toNat length.toNat) := by
  unfold WriteStops
  by_cases hin : sectorOf fb.toNat < w.dt.dataSecs
  swap
  · unfold cWrite at hrun
    rw [bind_fault (readSector_fault hin)] at hrun
    cases hrun
  unfold cWrite at hrun
  rw [bind_run (readSector_run hin)] at hrun
  by_cases hoff : metaFlen (w.dt.data (sectorOf fb.toNat)) < offset.toNat
  · simp only [if_pos hoff] at hrun
    cases hrun
    exact ⟨fun _ => ⟨Same.refl w, by decide⟩, fun h => absurd (.inl hoff) h⟩
  simp only [if_neg hoff] at hrun
  obtain ⟨buf, w₁, hm, hrun⟩ := bind_ok.mp hrun
  obtain ⟨rfl, rfl⟩ : buf = _ ∧ w₁ = _ :=
    wp_ok (Q := fun b v => b = _ ∧ v = _) ((wp_malloc (H := True) _ _ _).mpr ⟨rfl, rfl⟩) hm
  cases hmem : w.env.heap .records 0 with
  | none =>
    rw [hmem] at hrun
    cases hrun
    exact ⟨fun _ => ⟨Same.pop w _, by decide⟩, fun h => absurd (.inr rfl) h⟩
  | some junk =>
    rw [hmem] at hrun
    have hgo : ¬ (metaFlen (w.dt.data (sectorOf fb.toNat)) < offset.toNat ∨
        (some junk : Option Bytes) = none) := not_or.mpr ⟨hoff, Option.some_ne_none _⟩
    refine ⟨fun h => absurd h hgo, fun _ => ?_⟩
    obtain ⟨b₁, w₂, -, hrun⟩ := bind_ok.mp hrun
    obtain ⟨⟨b₂, segs'⟩, w₃, -, hrun⟩ := bind_ok.mp hrun
    obtain ⟨b₃, w₄, -, hrun⟩ := bind_ok.mp hrun
    obtain ⟨now, w₅, -, hrun⟩ := bind_ok.mp hrun
    obtain ⟨b₄, w₆, -, hrun⟩ := bind_ok.mp hrun
    obtain ⟨b₅, w₇, -, hrun⟩ := bind_ok.mp hrun
    obtain ⟨_, w₈, -, hrun⟩ := bind_ok.mp hrun
    cases hrun
    rfl

end Sbpfs.Cfs.HalfDone
