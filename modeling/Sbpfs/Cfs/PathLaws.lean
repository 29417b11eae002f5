import Sbpfs.Cfs.ChainLaws
import Sbpfs.Cfs.LookupSpec
import Sbpfs.Spec.Components

/-!
# What a path leads to

`c_lookup` walks the components of its path over the tables on the disk.
-/
namespace Sbpfs.Cfs.PathLaws

open Sbpfs.Lib.Program
open Sbpfs.Cfs.Layout Sbpfs.Cfs.Rules Sbpfs.Cfs.Lookup Sbpfs.Cfs.LookupSpec Sbpfs.Cfs.Image
open Sbpfs.Cfs.FileSpec Sbpfs.Cfs.DiskStore Sbpfs.Cfs.ChainLaws Sbpfs.Cfs.Mkfs
open Sbpfs.Spec.FileTree Sbpfs.Spec.Resolve Sbpfs.Spec.Components

variable {fs : Fs} {chain : Nat → List Nat} {w : World}

/-- `p` is what the disk has for the entry `e` of the directory `d`, with its name in the pool. -/
def PoolEntry (dt : Dtree) (fs : Fs) (chain : Nat → List Nat) (d : Nat) (e : Ent)
    (p : FileEntry) : Prop :=
  OnDisk dt fs chain d e p ∧ strEq (imageOf dt.data (chain d))
    (metaSize + metaStrbase (imageOf dt.data (chain d)) + p.name) e.name = true

/-- No table has a name twice. -/
theorem ents_nodup (ht : Tree fs) (d : Nat) : ((fs.ents d).map Ent.name).Nodup := by
  unfold Fs.ents
  split
  · rename_i uid flags parent kids hd
    have h := ht.nodup d
    rw [kids_of_dir hd] at h
    exact names_nodup_table h
  · exact List.nodup_nil

/-- An entry is on the disk in one place. -/
theorem OnDisk.unique {dt : Dtree} (ht : Tree fs) {d : Nat} {e : Ent} {p p' : FileEntry}
    (h : OnDisk dt fs chain d e p) (h' : OnDisk dt fs chain d e p') : p = p' := by
  obtain ⟨i, hi, rfl⟩ := h
  obtain ⟨j, hj, rfl⟩ := h'
  have hnodup := ents_nodup ht d
  have hname : ((fs.ents d).map Ent.name)[i]? = ((fs.ents d).map Ent.name)[j]? := by
    rw [List.getElem?_map, List.getElem?_map, hi, hj]
  have hlt : i < ((fs.ents d).map Ent.name).length := by
    rw [List.length_map]
    exact (List.getElem?_eq_some_iff.mp hi).1
  rw [(List.getElem?_inj hlt hnodup).mp hname]

/-- `c_lookup` comes back with the disk as it was and the entry that the components lead to, or
with 1 when they lead nowhere. -/
theorem cLookup_walks (hst : Store w.dt fs chain) (ht : Tree fs) (hmem : Ample w.env)
    (path : CStr) :
    ∃ r w', cLookup path w = .ok (r, w') ∧ w'.dt = w.dt ∧
      (walked path = [] → r = .ok ⟨0, rootFb, S_DIR⟩) ∧
      (walked path ≠ [] →
        (∀ p, r = .ok p ↔ ∃ d e, Walks fs.ents rootFb (components path) d e ∧
          PoolEntry w.dt fs chain d e p) ∧
        (r = .error 1 ↔ ¬ ∃ d e, Walks fs.ents rootFb (components path) d e)) := by
  obtain ⟨r, w', hrun, hsame, hpost⟩ :=
    wp_returns (wp_cLookup_at (H := False) hst ht path (.inr hmem))
  refine ⟨r, w', hrun, hsame.dt, ?_, ?_⟩
  · intro hq
    rwa [if_pos hq] at hpost
  · intro hq
    rw [if_neg hq] at hpost
    have hwalks := fun d e =>
      @walkAt_iff fs.ents rootFb d e (walked path) (ents_nodup ht) _ (Nat.lt_succ_self _)
    rcases hpost with hmemory | hfound
    · exact absurd hmemory.2 fun h => h.elim fun s hs => hs (hmem.heap s)
    · cases hwalk : walkAt fs.ents ((walked path).length + 1) rootFb (walked path) with
      | none =>
        rw [hwalk] at hfound
        have hnone : ¬ ∃ d e, Walks fs.ents rootFb (components path) d e := by
          intro h
          obtain ⟨d, e, h⟩ := h
          have := (hwalks d e).mpr h
          rw [hwalk] at this
          cases this
        refine ⟨fun p => ⟨fun h => ?_, fun h => ?_⟩, fun _ => hnone, fun _ => hfound⟩
        · rw [hfound] at h
          cases h
        · obtain ⟨d, e, h, -⟩ := h
          exact absurd ⟨d, e, h⟩ hnone
      | some q =>
        obtain ⟨d, e⟩ := q
        rw [hwalk] at hfound
        obtain ⟨p, hp, hon⟩ := hfound
        have hleads : Walks fs.ents rootFb (components path) d e := (hwalks d e).mp hwalk
        refine ⟨fun p' => ⟨fun h => ?_, fun h => ?_⟩, fun h => ?_, fun h => ?_⟩
        · rw [hp] at h
          cases h
          exact ⟨d, e, hleads, hon, (hon.fields hst).2.2⟩
        · obtain ⟨d', e', hleads', hon', -⟩ := h
          have hsome := (hwalks d' e').mpr hleads'
          rw [hwalk] at hsome
          cases hsome
          rw [hp, OnDisk.unique ht hon hon']
        · rw [hp] at h
          cases h
        · exact absurd ⟨d, e, hleads⟩ h

/-- On a disk just made `.` leads to the root directory. -/
theorem cLookup_walks_fresh :
    ∃ w p w', FreshWorld w ∧ cLookup dotName w = .ok (.ok p, w') ∧ w'.dt = w.dt ∧
      PoolEntry w.dt freshFs (fun _ => [rootFb]) rootFb ⟨dotName, rootFb, S_DIR⟩ p := by
  obtain ⟨w, hw⟩ := exists_freshWorld
  obtain ⟨r, w', hrun, hdt, -, hwalk⟩ :=
    cLookup_walks hw.1.store hw.1.tree hw.2 dotName
  obtain ⟨hok, -⟩ := hwalk (List.cons_ne_nil _ _)
  have hleads : Walks freshFs.ents rootFb (components dotName) rootFb
      ⟨dotName, rootFb, S_DIR⟩ := by
    show Walks freshFs.ents rootFb [(⟨dotName, rootFb, S_DIR⟩ : Ent).name] rootFb _
    refine .last ?_
    rw [ents_of_dir freshFs_root]
    exact List.mem_cons_self ..
  have hon : OnDisk w.dt freshFs (fun _ => [rootFb]) rootFb ⟨dotName, rootFb, S_DIR⟩
      (entryAt (imageOf w.dt.data [rootFb]) (entryOff 0)) :=
    ⟨0, by rw [ents_of_dir freshFs_root]; rfl, rfl⟩
  have hentry : PoolEntry w.dt freshFs (fun _ => [rootFb]) rootFb ⟨dotName, rootFb, S_DIR⟩
      (entryAt (imageOf w.dt.data [rootFb]) (entryOff 0)) := ⟨hon, (hon.fields hw.1.store).2.2⟩
  exact ⟨w, _, w', hw, (hok _).mpr ⟨_, _, hleads, hentry⟩ ▸ hrun, hdt, hentry⟩

end Sbpfs.Cfs.PathLaws
