import Sbpfs.Cfs.DiskStore
import Sbpfs.Cfs.Namespace

/-!
# Edits of a directory table

`spliceEntry` and `do_remove_entry` work on the packed table and name pool of one
directory. Here their results are read as tables again: one entry more at the end, or
one entry less.
-/
namespace Sbpfs.Cfs.Edit

open Sbpfs.Lib.Program Sbpfs.Lib.Memory
open Sbpfs.Cfs.Layout Sbpfs.Cfs.Rules Sbpfs.Cfs.File Sbpfs.Cfs.Namespace Sbpfs.Cfs.Image
open Sbpfs.Spec.FileTree

variable {H : Prop}

section Splice

/-- The bytes `spliceEntry` leaves for a table of `m` entries and a pool of `plen` bytes. -/
def spliced (b pdata : Bytes) (m plen : Nat) (name : CStr) (type : UInt8) (fb newsize : Nat) :
    Bytes :=
  let e := 64 + 16 * m
  let b := blit b 0 pdata 0 e
  let b := putLE b e 8 plen
  let b := putLE b (e + 12) 1 type.toNat
  let b := putLE b (e + 8) 4 fb
  let b := putLE b 40 8 (16 * m + 16)
  let b := blit b (e + 16) pdata e plen
  let b := blit b (e + 16 + plen) (strBytes name) 0 (name.length + 1)
  let b := putLE b 48 8 (plen + name.length + 1)
  let b := putLE b 8 8 newsize
  putLE b 56 4 ((newsize + 511) / 512)

variable {b pdata : Bytes} {m plen fb newsize : Nat} {name : CStr} {type : UInt8}

theorem spliced_uid : metaUid (spliced b pdata m plen name type fb newsize) = metaUid pdata := by
  simp (disch := omega) only [spliced, metaUid, getLE_putLE_ne, getLE_blit_outside,
    getLE_blit_inside, Nat.zero_add, Nat.sub_zero]

theorem spliced_count :
    metaCount (spliced b pdata m plen name type fb newsize) = metaCount pdata := by
  simp (disch := omega) only [spliced, metaCount, getLE_putLE_ne, getLE_blit_outside,
    getLE_blit_inside, Nat.zero_add, Nat.sub_zero]

theorem spliced_flags :
    metaFlags (spliced b pdata m plen name type fb newsize) = metaFlags pdata := by
  simp (disch := omega) only [spliced, metaFlags, putLE_outside, blit_outside, blit_inside,
    Nat.zero_add, Nat.sub_zero]

theorem spliced_strbase (h : 16 * m + 16 < 2 ^ 64) :
    metaStrbase (spliced b pdata m plen name type fb newsize) = 16 * m + 16 := by
  simp (disch := omega) only [spliced, metaStrbase, getLE_putLE_ne, getLE_blit_outside]
  exact getLE_putLE (by omega)

theorem spliced_strlen (h : plen + name.length + 1 < 2 ^ 64) :
    metaStrlen (spliced b pdata m plen name type fb newsize) = plen + name.length + 1 := by
  simp (disch := omega) only [spliced, metaStrlen, getLE_putLE_ne]
  exact getLE_putLE (by omega)

theorem spliced_flen (h : newsize < 2 ^ 64) :
    metaFlen (spliced b pdata m plen name type fb newsize) = newsize := by
  simp (disch := omega) only [spliced, metaFlen, getLE_putLE_ne]
  exact getLE_putLE (by omega)

theorem spliced_blocks (h : newsize < 2 ^ 41 - 512) :
    metaBlocks (spliced b pdata m plen name type fb newsize) = (newsize + 511) / 512 := by
  simp only [spliced, metaBlocks]
  exact getLE_putLE (by omega)

/-- The old entries are where they were. -/
theorem spliced_table {i : Nat} (h : 64 ≤ i) (h' : i < 64 + 16 * m) :
    spliced b pdata m plen name type fb newsize i = pdata i := by
  simp (disch := omega) only [spliced, putLE_outside, blit_outside, blit_inside,
    Nat.zero_add, Nat.sub_zero]

/-- The old pool moved behind the new entry. -/
theorem spliced_pool {k : Nat} (h : k < plen) :
    spliced b pdata m plen name type fb newsize (64 + 16 * m + 16 + k)
      = pdata (64 + 16 * m + k) := by
  simp (disch := omega) only [spliced, putLE_outside, blit_outside, blit_inside]
  congr 1
  omega

/-- The new name stands at the end of the pool. -/
theorem spliced_name {k : Nat} (h : k ≤ name.length) :
    spliced b pdata m plen name type fb newsize (64 + 16 * m + 16 + plen + k)
      = strBytes name k := by
  simp (disch := omega) only [spliced, putLE_outside, blit_inside]
  congr 1
  omega

theorem spliced_entryName (h : plen < 2 ^ 64) :
    entryName (spliced b pdata m plen name type fb newsize) (64 + 16 * m) = plen := by
  simp (disch := omega) only [spliced, entryName, getLE_putLE_ne, getLE_blit_outside]
  exact getLE_putLE (by omega)

theorem spliced_entryFb (h : fb < 2 ^ 32) :
    entryFb (spliced b pdata m plen name type fb newsize) (64 + 16 * m) = fb := by
  simp (disch := omega) only [spliced, entryFb, getLE_putLE_ne, getLE_blit_outside]
  exact getLE_putLE (by omega)

theorem spliced_entryType :
    entryType (spliced b pdata m plen name type fb newsize) (64 + 16 * m) = type := by
  simp (disch := omega) only [spliced, entryType, putLE_outside, blit_outside]
  exact putLE_byte _ _ _

variable {n : Nat} {ents : List Ent}

/-- An old entry reads the same in the new image. -/
theorem spliced_old (hd : DirImage pdata n ents) {i : Nat} {e : Ent} (he : ents[i]? = some e)
    {plen' : Nat} (hp : metaStrlen pdata ≤ plen') :
    EntryImage (spliced b pdata ents.length (metaStrlen pdata) name type fb newsize)
      (64 + 16 * ents.length + 16) plen' (entryOff i) e := by
  have hi : i < ents.length := (List.getElem?_eq_some_iff.mp he).1
  have hent := hd.entry i e he
  have hbound := hent.bound
  have hoff : 64 ≤ entryOff i ∧ entryOff i + 16 ≤ 64 + 16 * ents.length := by
    simp only [entryOff, metaSize, entrySize]
    omega
  have htab : ∀ k, k < 16 →
      spliced b pdata ents.length (metaStrlen pdata) name type fb newsize (entryOff i + k)
        = pdata (entryOff i + k) := fun k hk => spliced_table (by omega) (by omega)
  have hname : entryName (spliced b pdata ents.length (metaStrlen pdata) name type fb newsize)
      (entryOff i) = entryName pdata (entryOff i) :=
    getLE_shift fun k hk => htab k (by omega)
  refine ⟨?_, ?_, ?_, ?_⟩
  · rw [← hent.fb]
    refine getLE_shift fun k hk => ?_
    rw [Nat.add_assoc]
    exact htab (8 + k) (by omega)
  · rw [← hent.type]
    exact htab 12 (by omega)
  · rw [hname]
    omega
  · rw [hname, ← hent.name]
    refine strEq_congr fun k hk => ?_
    have hpool : spliced b pdata ents.length (metaStrlen pdata) name type fb newsize
        (64 + 16 * ents.length + 16 + (entryName pdata (entryOff i) + k))
        = pdata (64 + 16 * ents.length + (entryName pdata (entryOff i) + k)) :=
      spliced_pool (by omega)
    rwa [← Nat.add_assoc, ← Nat.add_assoc] at hpool

/-- The spliced bytes are the table with the new entry at its end. -/
theorem spliced_dir (hd : DirImage pdata n ents) (hfb : fb < 2 ^ 32)
    (hsize : newsize = metaFlen pdata + name.length + 1 + 16) (hlt : newsize < 2 ^ 41 - 512) :
    DirImage (spliced b pdata ents.length (metaStrlen pdata) name type fb newsize)
      ((newsize + 511) / 512) (ents ++ [⟨name, fb, type⟩]) := by
  have hflen := hd.flen
  have hlen : (ents ++ [(⟨name, fb, type⟩ : Ent)]).length = ents.length + 1 := by simp
  have hbase : 64 + 16 * (ents.length + 1) = 64 + 16 * ents.length + 16 := by omega
  refine ⟨?_, ?_, ?_, ?_⟩
  · rw [spliced_strbase (by omega), hlen]
    omega
  · rw [spliced_flen (by omega), spliced_strlen (by omega), hlen]
    omega
  · rw [spliced_strlen (by omega), hlen]
    omega
  · intro i e he
    rw [spliced_strlen (by omega), hlen, hbase]
    by_cases hi : i < ents.length
    · rw [List.getElem?_append_left hi] at he
      exact spliced_old hd he (by omega)
    · have hii : i = ents.length := by
        have := (List.getElem?_eq_some_iff.mp he).1
        omega
      subst hii
      rw [List.getElem?_append_right (Nat.le_refl _), Nat.sub_self] at he
      cases he
      have hoff : entryOff ents.length = 64 + 16 * ents.length := rfl
      rw [hoff]
      refine ⟨spliced_entryFb hfb, spliced_entryType, ?_, ?_⟩
      · rw [spliced_entryName (by omega)]
        simp only
        omega
      · rw [spliced_entryName (by omega)]
        exact strEq_strBytes name _ _ fun k hk => spliced_name hk

/-- The number the new entry gets: without an object, what stands in the buffer. -/
def enteredFb (b : Bytes) (m : Nat) (fb : Option Nat) : Nat := fb.getD (getLE b (64 + 16 * m + 8) 4)

/-- The store of the number of the new entry, if there is one. -/
theorem wp_storeFb {α : Type} {w : World} {b b' : Bytes} {size m : Nat} {fb : Option Nat}
    {k : Buf → CM α} {Q : α → World → Prop} (hsize : 64 + 16 * m + 8 + 4 ≤ size)
    (hold : Agree b b' (64 + 16 * m + 8) 4)
    (h : wpOr H (k ⟨size, putLE b (64 + 16 * m + 8) 4 (enteredFb b' m fb)⟩) Q w) :
    wpOr H (match fb with
      | some fb => do
        let buf ← (⟨size, b⟩ : Buf).store (64 + 16 * m + 8) 4 fb
        k buf
      | none => do
        let buf ← (pure ⟨size, b⟩ : CM Buf)
        k buf) Q w := by
  cases fb with
  | some fb => exact (wp_bind _ _ _ _).mpr ((wp_store ..).mpr ⟨hsize, h⟩)
  | none =>
    rw [enteredFb, Option.getD_none, putLE_getLE hold] at h
    exact (wp_bind _ _ _ _).mpr ((wp_pure _ _ _).mpr h)

/-- `spliceEntry` around any `init`. -/
theorem wp_spliceEntry {w : World} {pmeta : Bytes} {buf : Buf} {init : CM (Option Nat)}
    {Q : Option Nat → World → Prop} (hsb : metaStrbase pmeta = 16 * m)
    (hsl : metaStrlen pmeta = plen)
    (hb : buf.size = newsize) (hsize : newsize = 64 + 16 * m + plen + name.length + 1 + 16)
    (hlt : newsize < 2 ^ 41 - 512) (hpd : metaStrbase pdata = 16 * m)
    (hpl : metaStrlen pdata = plen) (hinit : wpOr H init Q w) :
    wpOr H (spliceEntry pdata pmeta buf newsize name type init)
      (fun r w' => r.1 = ⟨newsize, spliced buf.bytes pdata m plen name type
        (enteredFb buf.bytes m r.2) newsize⟩ ∧ Q r.2 w') w := by
  obtain ⟨bsize, bytes⟩ := buf
  obtain rfl : bsize = newsize := hb
  unfold spliceEntry
  simp only [wp_bind, wp_copyIn, wp_store, hsb, hsl, metaSize]
  refine ⟨by omega, by omega, by omega, wp_mono hinit ?_⟩
  intro r w' hq
  refine wp_storeFb ?_ (show Agree _ bytes _ 4 from ?_) ?_
  · omega
  · refine ((putLE_agree (by omega)).trans (putLE_agree (by omega))).trans ?_
    exact blit_agree_outside (by omega)
  generalize hfb : enteredFb bytes m r = fb
  simp only [wp_bind, wp_copyIn, wp_store, wp_pure]
  -- the size fields still read as in the old table when they are updated
  have hbase : ∀ b' : Bytes, metaStrbase
      (putLE (putLE (putLE (blit b' 0 pdata 0 (64 + 16 * m)) (64 + 16 * m) 8 plen)
        (64 + 16 * m + 12) 1 type.toNat) (64 + 16 * m + 8) 4 fb) = 16 * m := by
    intro b'
    rw [← hpd]
    simp (disch := omega) only [metaStrbase, getLE_putLE_ne, getLE_blit_inside, Nat.zero_add,
      Nat.sub_zero]
  have hu : u64 (16 * m + entrySize) = 16 * m + 16 := by
    simp only [u64, entrySize]
    omega
  simp only [hbase, hu]
  have hbase' : ∀ b' : Bytes, metaStrbase (putLE b' 40 8 (16 * m + 16)) = 16 * m + 16 :=
    fun b' => getLE_putLE (by omega)
  simp only [hbase']
  have hplen : ∀ b' s' : Bytes, metaStrlen
      (blit (blit
        (putLE (putLE (putLE (putLE (blit b' 0 pdata 0 (64 + 16 * m)) (64 + 16 * m) 8 plen)
        (64 + 16 * m + 12) 1 type.toNat) (64 + 16 * m + 8) 4 fb) 40 8 (16 * m + 16))
        (64 + (16 * m + 16)) pdata (64 + 16 * m) plen) (64 + (16 * m + 16) + plen) s' 0
        (name.length + 1)) = plen := by
    intro b' s'
    refine Eq.trans ?_ hpl
    simp (disch := omega) only [metaStrlen, getLE_putLE_ne, getLE_blit_outside, getLE_blit_inside,
      Nat.zero_add, Nat.sub_zero]
  simp only [hplen]
  have hul : u64 (plen + name.length + 1) = plen + name.length + 1 := by
    unfold u64
    omega
  have hub : u32 (u64 (bsize + BYTSPERSEC - 1) / BYTSPERSEC) = (bsize + 511) / 512 := by
    simp only [u32, u64, BYTSPERSEC]
    omega
  simp only [hul, hub, ← Nat.add_assoc]
  refine ⟨by omega, by omega, by omega, by omega, by omega, by omega, ?_, hq⟩
  rw [hfb]
  rfl

end Splice

section Remove

/-- The bytes `do_remove_entry` leaves: everything behind the entry at `off` moved up. -/
def removed (pdata : Bytes) (off flen strbase now : Nat) : Bytes :=
  putLE (putLE (putLE (blit pdata off pdata (off + 16) (flen - off)) 40 8 (strbase - 16)) 32 8 now)
    8 8 (flen - 16)

variable {pdata : Bytes} {off flen strbase now n : Nat} {ents : List Ent}

theorem removed_uid (h : 64 ≤ off) :
    metaUid (removed pdata off flen strbase now) = metaUid pdata := by
  simp (disch := omega) only [removed, metaUid, getLE_putLE_ne, getLE_blit_outside]

theorem removed_count (h : 64 ≤ off) :
    metaCount (removed pdata off flen strbase now) = metaCount pdata := by
  simp (disch := omega) only [removed, metaCount, getLE_putLE_ne, getLE_blit_outside]

theorem removed_flags (h : 64 ≤ off) :
    metaFlags (removed pdata off flen strbase now) = metaFlags pdata := by
  simp (disch := omega) only [removed, metaFlags, putLE_outside, blit_outside]

theorem removed_blocks (h : 64 ≤ off) :
    metaBlocks (removed pdata off flen strbase now) = metaBlocks pdata := by
  simp (disch := omega) only [removed, metaBlocks, getLE_putLE_ne, getLE_blit_outside]

theorem removed_strbase (hs : strbase < 2 ^ 64) :
    metaStrbase (removed pdata off flen strbase now) = strbase - 16 := by
  simp (disch := omega) only [removed, metaStrbase, getLE_putLE_ne]
  exact getLE_putLE (by omega)

theorem removed_strlen (h : 64 ≤ off) :
    metaStrlen (removed pdata off flen strbase now) = metaStrlen pdata := by
  simp (disch := omega) only [removed, metaStrlen, getLE_putLE_ne, getLE_blit_outside]

theorem removed_flen (hf : flen < 2 ^ 64) :
    metaFlen (removed pdata off flen strbase now) = flen - 16 := by
  simp only [removed, metaFlen]
  exact getLE_putLE (by omega)

theorem removed_before {i : Nat} (h : 64 ≤ i) (h' : i < off) :
    removed pdata off flen strbase now i = pdata i := by
  simp (disch := omega) only [removed, putLE_outside, blit_outside]

theorem removed_behind {i : Nat} (h : 64 ≤ off) (h' : off ≤ i) (hi : i < flen) :
    removed pdata off flen strbase now i = pdata (i + 16) := by
  simp (disch := omega) only [removed, putLE_outside, blit_inside]
  congr 1
  omega

/-- The bytes left are the table without the entry. -/
theorem removed_dir (hd : DirImage pdata n ents) {i : Nat} (hi : i < ents.length)
    (hlt : metaFlen pdata < 2 ^ 64) :
    DirImage (removed pdata (entryOff i) (metaFlen pdata) (metaStrbase pdata) now) n
      (ents.eraseIdx i) := by
  have hoff : ∀ k, entryOff k = 64 + 16 * k := fun _ => rfl
  have hflen := hd.flen
  have hbase := hd.strbase
  have hle := hd.le
  have hlen : (ents.eraseIdx i).length = ents.length - 1 := List.length_eraseIdx_of_lt hi
  have hlow : 64 ≤ entryOff i := by
    rw [hoff]
    omega
  refine ⟨?_, ?_, ?_, ?_⟩
  · rw [removed_strbase (by omega), hlen]
    omega
  · rw [removed_flen hlt, removed_strlen hlow, hlen]
    omega
  · rw [removed_strlen hlow, hlen]
    omega
  · intro k e he
    rw [removed_strlen hlow, hlen]
    -- the entry was at `k`, or at `k + 1` when it stood behind the one removed
    obtain ⟨k', hk', hat⟩ : ∃ k', ents[k']? = some e ∧
        ∀ j, j < 16 → removed pdata (entryOff i) (metaFlen pdata) (metaStrbase pdata) now
          (entryOff k + j) = pdata (entryOff k' + j) := by
      rw [List.getElem?_eraseIdx] at he
      by_cases hki : k < i
      · rw [if_pos hki] at he
        refine ⟨k, he, fun j hj => removed_before ?_ ?_⟩
        · rw [hoff]
          omega
        · rw [hoff, hoff]
          omega
      · rw [if_neg hki] at he
        have hk1 : k + 1 < ents.length := (List.getElem?_eq_some_iff.mp he).1
        refine ⟨k + 1, he, fun j hj => ?_⟩
        rw [removed_behind hlow (by rw [hoff, hoff]; omega) (by rw [hoff]; omega)]
        exact congrArg pdata (by rw [hoff, hoff]; omega)
    have hent := hd.entry k' e hk'
    have hbound := hent.bound
    have hname : entryName (removed pdata (entryOff i) (metaFlen pdata) (metaStrbase pdata) now)
        (entryOff k) = entryName pdata (entryOff k') :=
      getLE_shift fun j hj => hat j (by omega)
    refine ⟨?_, ?_, ?_, ?_⟩
    · rw [← hent.fb]
      refine getLE_shift fun j hj => ?_
      rw [Nat.add_assoc, Nat.add_assoc]
      exact hat (8 + j) (by omega)
    · rw [← hent.type]
      exact hat 12 (by omega)
    · rw [hname]
      exact hbound
    · rw [hname, ← hent.name]
      refine strEq_congr fun j hj => ?_
      rw [removed_behind hlow (by rw [hoff]; omega) (by omega)]
      exact congrArg pdata (by omega)

/-- `do_remove_entry` on any table whose entry at `off` lies in front of its end. -/
theorem doRemoveEntry_run {pdata : Buf} (w : World) (hlow : 64 ≤ off)
    (hoff : off + 16 ≤ metaFlen pdata.bytes) (hbase : 16 ≤ metaStrbase pdata.bytes)
    (hsize : metaFlen pdata.bytes ≤ pdata.size) :
    doRemoveEntry pdata off w = .ok
      (if (w.env.heap .tail 0).isNone then (-9, pdata)
        else (0, ⟨pdata.size, removed pdata.bytes off (metaFlen pdata.bytes)
          (metaStrbase pdata.bytes) w.env.now⟩), { w with env := w.env.pop .tail }) := by
  have hlt : metaFlen pdata.bytes < 256 ^ 8 := getLE_lt _ _ _
  have hslt : metaStrbase pdata.bytes < 256 ^ 8 := getLE_lt _ _ _
  have htmp : u64Sub (metaFlen pdata.bytes) off = metaFlen pdata.bytes - off := by
    unfold u64Sub
    omega
  have h : wpOr False (doRemoveEntry pdata off) (fun r w' =>
      r = (if (w.env.heap .tail 0).isNone then (-9, pdata)
        else (0, ⟨pdata.size, removed pdata.bytes off (metaFlen pdata.bytes)
          (metaStrbase pdata.bytes) w.env.now⟩)) ∧ w' = { w with env := w.env.pop .tail }) w := by
    unfold doRemoveEntry
    simp only [wp_bind, wp_getNow, wp_malloc, htmp]
    cases hm : w.env.heap .tail 0 with
    | none => exact ⟨rfl, rfl⟩
    | some junk =>
      simp only [Option.map_some, wp_bind, wp_copyIn, wp_store, wp_pure, blit_through, entrySize]
      refine ⟨by omega, by omega, by omega, by omega, by omega, ?_, trivial⟩
      have hb : metaStrbase (blit pdata.bytes off pdata.bytes (off + 16)
          (metaFlen pdata.bytes - off)) = metaStrbase pdata.bytes :=
        getLE_blit_outside (by omega)
      have hf : ∀ v v', metaFlen (putLE (putLE (blit pdata.bytes off pdata.bytes
          (off + 16) (metaFlen pdata.bytes - off)) 40 8 v) 32 8 v') = metaFlen pdata.bytes := by
        intro v v'
        simp (disch := omega) only [metaFlen, getLE_putLE_ne, getLE_blit_outside]
      have hsub : ∀ a, 16 ≤ a → a < 256 ^ 8 → u64Sub a 16 = a - 16 := by
        intro a h1 h2
        unfold u64Sub
        omega
      rw [hb, hf, hsub _ hbase hslt, hsub _ (by omega) hlt]
      rfl
  obtain ⟨r, w', hrun, rfl, rfl⟩ := wp_returns h
  exact hrun

theorem wp_doRemoveEntry {w : World} {pdata : Buf} {i : Nat} (hd : DirImage pdata.bytes n ents)
    (hi : i < ents.length) (hsize : 512 * n ≤ pdata.size) :
    wpOr H (doRemoveEntry pdata (entryOff i))
      (fun r w' => w' = { w with env := w.env.pop .tail } ∧
        ((r = (-9, pdata) ∧ w.env.heap .tail 0 = none) ∨
          r = (0, ⟨pdata.size, removed pdata.bytes (entryOff i) (metaFlen pdata.bytes)
            (metaStrbase pdata.bytes) w.env.now⟩))) w := by
  have hoff : entryOff i = 64 + 16 * i := rfl
  have hflen := hd.flen
  have hbase := hd.strbase
  have hle := hd.le
  have hrun := doRemoveEntry_run w (show 64 ≤ entryOff i by omega) (by omega)
    (show 16 ≤ metaStrbase pdata.bytes by omega) (by omega)
  unfold wpOr
  rw [hrun]
  cases hm : w.env.heap .tail 0 with
  | none => exact ⟨rfl, .inl ⟨rfl, rfl⟩⟩
  | some junk => exact ⟨rfl, .inr rfl⟩

end Remove

end Sbpfs.Cfs.Edit
