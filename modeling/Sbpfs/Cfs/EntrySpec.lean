import Sbpfs.Cfs.DiskView
import Sbpfs.Cfs.Query

/-!
# What a path names in its directory

Most operations cut the last name off the path, look the rest up and search the name in the
directory that they find.
-/
namespace Sbpfs.Cfs.EntrySpec

open Sbpfs.Lib.Program Sbpfs.Lib.Memory
open Sbpfs.Cfs.Layout Sbpfs.Cfs.Rules Sbpfs.Cfs.File Sbpfs.Cfs.FileSpec Sbpfs.Cfs.Lookup
open Sbpfs.Cfs.Image Sbpfs.Cfs.DiskStore Sbpfs.Cfs.LookupSpec Sbpfs.Cfs.NamespaceSpec
open Sbpfs.Cfs.DiskView Sbpfs.Cfs.Query Sbpfs.Spec.FileTree Sbpfs.Spec.Resolve

attribute [local irreducible] wpOr

/-- The entry and its directory. -/
def named (ents : Nat → List Ent) (path : CStr) : Option (Nat × Ent) :=
  match getFilenameFromPath path with
  | none => none
  | some (dir, name) =>
    match resolve ents dir with
    | none => none
    | some e => if e.type = S_DIR then (findName (ents e.fb) name).map fun k => (e.fb, k) else none

/-- `findObject` with the whole entry. -/
def findOfile (path : CStr) : CM (Except Int FileEntry) :=
  match getFilenameFromPath path with
  | none => return .error (-1)
  | some (path, filename) => do
    match ← cLookup path with
    | .error _ => return .error (-1)
    | .ok parent =>
      if parent.type ≠ S_DIR then return .error (-1)
      else
        let pmeta ← readSector parent.fb
        match ← malloc .table (u32 (metaBlocks pmeta * BYTSPERSEC)) with
        | none => return .error (-9)
        | some pdata =>
          let pdata ← doReadfile parent.fb pdata
          match ← findEntryByName pdata.bytes filename with
          | none => return .error (-1)
          | some ofile => return .ok (entryAt pdata.bytes (entryOff ofile))

/-- `findObject` returns the first sector in that entry. -/
theorem findObject_eq (path : CStr) :
    findObject path = (do
      let r ← findOfile path
      return r.map FileEntry.fb) := by
  unfold findObject findOfile
  cases getFilenameFromPath path with
  | none => rfl
  | some q =>
    dsimp only
    rw [bind_assoc]
    refine bind_congr fun r => ?_
    cases r with
    | error c => rfl
    | ok parent =>
      dsimp only
      by_cases htype : parent.type ≠ S_DIR
      · rw [if_pos htype, if_pos htype, pure_bind]
        rfl
      · rw [if_neg htype, if_neg htype, bind_assoc]
        refine bind_congr fun pmeta => ?_
        rw [bind_assoc]
        refine bind_congr fun pdata => ?_
        cases pdata with
        | none => rfl
        | some pdata =>
          dsimp only
          rw [bind_assoc]
          refine bind_congr fun pdata => ?_
          rw [bind_assoc]
          refine bind_congr fun ofile => ?_
          cases ofile <;> rfl

/-- What the search leaves, against the entry that the path names. -/
def Found (dt : Dtree) (fs : Fs) (chain : Nat → List Nat) (q : Option (Nat × Ent)) (env : Env)
    (r : Except Int FileEntry) : Prop :=
  (∃ c < 0, r = .error c ∧ OutOfMemory env) ∨
    match q with
    | none => r = .error (-1)
    | some (d, e) => ∃ p, r = .ok p ∧ OnDisk dt fs chain d e p

section Stored

variable {fs : Fs} {chain : Nat → List Nat} {H : Prop} {w : World}

theorem named_agree {dt : Dtree} (hst : Store dt fs chain) (ht : Tree fs) (path : CStr) :
    named (entries dt) path = named fs.ents path := by
  unfold named
  cases getFilenameFromPath path with
  | none => rfl
  | some q =>
    dsimp only
    rw [resolve_agree hst ht]
    cases hr : resolve fs.ents q.1 with
    | none => rfl
    | some e =>
      dsimp only
      by_cases htype : e.type = S_DIR
      · obtain ⟨uid, flags, p, kids, hd⟩ := dir_of_typed (resolve_typed ht hr) htype
        rw [ents_agree hst hd]
      · rw [if_neg htype, if_neg htype]

/-- What a path names is live and of the type of its entry. -/
theorem named_typed (ht : Tree fs) {path : CStr} {d : Nat} {e : Ent}
    (h : named fs.ents path = some (d, e)) : ∃ o, fs e.fb = some o ∧ Typed e o := by
  unfold named at h
  split at h
  · cases h
  · split at h
    · cases h
    · split at h
      · obtain ⟨k, hk, he⟩ := Option.map_eq_some_iff.mp h
        cases he
        exact ht.typed_ents (findName_mem hk)
      · cases h

/-- The search finds what the path names, unless memory runs out. -/
theorem wp_findOfile (hst : Store w.dt fs chain) (ht : Tree fs) (path : CStr)
    (hH : H ∨ Ample w.env) :
    wpOr H (findOfile path)
      (fun r w' => Same w w' ∧ Found w.dt fs chain (named fs.ents path) w.env r) w := by
  unfold findOfile named
  cases getFilenameFromPath path with
  | none => exact (wp_pure _ _ _).mpr ⟨Same.refl w, .inr rfl⟩
  | some q =>
    obtain ⟨dir, name⟩ := q
    dsimp only
    refine wp_lookupDir (g := fun _ => Except.error (-1)) hst ht (fun hm _ w' hs => ?_)
      (fun hr w' hs => ?_)
      (fun e hr htype w' hs => ?_) (fun parent e hr htype hfb w₁ htook₁ => ?_) hH
    · exact ⟨hs, .inl ⟨-1, by decide, rfl, hm⟩⟩
    · rw [hr]
      exact ⟨hs, .inr rfl⟩
    · rw [hr]
      dsimp only
      rw [if_neg htype]
      exact ⟨hs, .inr rfl⟩
    · have hs₁ := htook₁.same
      have hst₁ : Store w₁.dt fs chain := by rw [hs₁.dt]; exact hst
      obtain ⟨uid, flags, p, kids, ho⟩ := dir_of_typed (resolve_typed ht hr) htype
      have hat := hst₁.obj _ _ ho
      rw [hr]
      dsimp only
      rw [if_pos htype, hfb]
      simp only [wp_bind, wp_readSector, hst₁.sized.sectorOf hat.head_lt, hst₁.sized.dataSecs]
      refine ⟨hat.head_lt, ?_⟩
      rw [← wp_bind]
      refine wp_searchTable hst₁ ho (Nat.le_of_eq (hat.buffer_size hst₁.sized).symm)
        (fun hm w' hs => ?_) ?_ (hH.imp_right fun h => h.later hs₁.later)
      · exact ⟨hs₁.trans hs, .inl ⟨-9, by decide, rfl, (outOfMemory_of_none hm).later hs₁.later⟩⟩
      intro b r w₂ htook₂ hsize hholds hagree hfound
      have hs := hs₁.trans htook₂.same
      rcases hfound with hnone | hsome
      · obtain ⟨rfl, hnone⟩ := hnone
        rw [hnone]
        exact (wp_pure _ _ _).mpr ⟨hs, .inr rfl⟩
      · obtain ⟨i, k, rfl, hi, hsome⟩ := hsome
        rw [hsome]
        refine (wp_pure _ _ _).mpr ⟨hs, .inr ⟨_, rfl, i, hi, ?_⟩⟩
        rw [hs₁.dt] at hagree
        have hdir : DirImage b.bytes (chain e.fb).length (table e.fb p kids) := hholds.node
        rw [ents_of_dir ho] at hi
        have hlt := (List.getElem?_eq_some_iff.mp hi).1
        refine entryAt_agree hagree ?_
        have hle := hdir.le
        simp only [entryOff, metaSize, entrySize]
        omega

/-- The search without a failing allocation. -/
theorem findOfile_run (hst : Store w.dt fs chain) (ht : Tree fs) (hmem : Ample w.env)
    (path : CStr) :
    ∃ r w', findOfile path w = .ok (r, w') ∧ Same w w' ∧
      match named fs.ents path with
      | none => r = .error (-1)
      | some (d, e) => ∃ p, r = .ok p ∧ OnDisk w.dt fs chain d e p := by
  obtain ⟨r, w', hrun, hsame, hfound⟩ :=
    wp_returns (wp_findOfile (H := False) hst ht path (.inr hmem))
  refine ⟨r, w', hrun, hsame, ?_⟩
  rcases hfound with hoom | hfound
  · obtain ⟨c, -, -, s, hs⟩ := hoom
    exact absurd (hmem.heap s) hs
  · exact hfound

/-- The walk of a whole path without a failing allocation. -/
theorem cLookup_run (hst : Store w.dt fs chain) (ht : Tree fs) (hmem : Ample w.env)
    {path : CStr} (hpath : walked path ≠ []) :
    ∃ r w', cLookup path w = .ok (r, w') ∧ Same w w' ∧
      match walkAt fs.ents ((walked path).length + 1) rootFb (walked path) with
      | none => r = .error 1
      | some (d, e) => ∃ p, r = .ok p ∧ OnDisk w.dt fs chain d e p := by
  obtain ⟨r, w', hrun, hsame, hfound⟩ :=
    wp_returns (wp_cLookup_at (H := False) hst ht path (.inr hmem))
  rw [if_neg hpath] at hfound
  refine ⟨r, w', hrun, hsame, ?_⟩
  rcases hfound with hoom | hfound
  · obtain ⟨-, s, hs⟩ := hoom
    exact absurd (hmem.heap s) hs
  · exact hfound

end Stored

end Sbpfs.Cfs.EntrySpec
