import Sbpfs.Cfs.ObjectSpec

/-! # A freshly made disk holds the root directory and nothing else -/
namespace Sbpfs.Cfs.Mkfs

open Sbpfs.Lib.Program Sbpfs.Lib.Memory Sbpfs.Lib.Chain
open Sbpfs.Cfs.Layout Sbpfs.Cfs.Rules Sbpfs.Cfs.FatSpec Sbpfs.Cfs.File Sbpfs.Cfs.FileSpec
open Sbpfs.Cfs.Image Sbpfs.Cfs.DiskStore Sbpfs.Cfs.ObjectSpec Sbpfs.Spec.FileTree

/-- The image before `do_mkcfs`. -/
def blank : Dtree := ⟨⟨0, 0, 0, 0⟩, fun _ => 0, fun _ _ => 0, INIT_MAX⟩

/-- The tree on a fresh disk: the root directory, owned by root, above itself. -/
def freshFs : Fs := fun fb => if fb = rootFb then some (newDir 0 rootFb) else none

theorem freshFs_some {fb : Nat} {o : Obj} (h : freshFs fb = some o) :
    fb = rootFb ∧ o = newDir 0 rootFb := by
  unfold freshFs at h
  split at h
  · rename_i hfb
    cases h
    exact ⟨hfb, rfl⟩
  · cases h

theorem freshFs_root : freshFs rootFb = some (newDir 0 rootFb) := if_pos rfl

theorem freshFs_kids (d : Nat) : freshFs.kids d = [] := by
  unfold Fs.kids
  split
  · rename_i h
    obtain ⟨_, ho⟩ := freshFs_some h
    cases ho
    rfl
  · rfl

theorem freshFs_tree : Tree freshFs where
  root := ⟨_, _, _, freshFs_root⟩
  up := fun d _ _ _ _ hd hne => absurd (freshFs_some hd).1 hne
  nodup := fun d => by
    rw [freshFs_kids]
    exact nodup_dots
  typed := fun d e he => by
    rw [freshFs_kids] at he
    cases he
  unique := fun p q e he => by
    rw [freshFs_kids] at he
    cases he
  top := fun p ⟨e, he, _⟩ => by
    rw [freshFs_kids] at he
    cases he
  reach := fun n o hn => by
    rw [(freshFs_some hn).1]

/-- The disk when `do_mkcfs` calls `initdir`: superblock and FAT are laid out. -/
def formatted (dt : Dtree) : Dtree :=
  { dt with
    sb := ⟨64, 1, 62, 0⟩
    fat := fun i => if i = 0 then ENDSEC else FREESEC
    dtSize := INIT_MAX }

theorem formatted_sized (dt : Dtree) : Sized (formatted dt) :=
  ⟨rfl, (by decide : 1 = (4 * (32768 / 512) + 511) / 512), (by decide : 32768 < 2 ^ 32)⟩

theorem formatted_topFree (dt : Dtree) : TopFree (formatted dt) := by
  intro i hi
  have hi' : 62 ≤ i := hi
  exact if_neg (by omega)

theorem formatted_free (dt : Dtree) : Free (formatted dt) 0 :=
  ⟨rootFb, by decide, rfl, .inl (by decide : rootFb < 62)⟩

/-- Slot 0 is reserved, so the first free slot is slot 1. -/
theorem formatted_first {dt : Dtree} {fb : Nat} (hfree : (formatted dt).fat fb = 0)
    (hfirst : ∀ i, i < fb → (formatted dt).fat i ≠ 0) : fb = rootFb := by
  have h0 : fb ≠ 0 := by
    rintro rfl
    exact absurd hfree (by simp [formatted])
  by_contra hne
  have h1 : rootFb < fb := by
    simp only [rootFb] at hne ⊢
    omega
  exact hfirst rootFb h1 rfl

/-- The root entry that `do_mkcfs` stores reads back. -/
theorem root_entry (b : Bytes) :
    entryAt (blit b 0 (putEntry (fun _ => 0) 0 0 rootFb S_DIR) 0 16) 0 = ⟨0, rootFb, S_DIR⟩ := by
  have hsec : ∀ j, j < 16 → blit b 0 (putEntry (fun _ => 0) 0 0 rootFb S_DIR) 0 16 j
      = putEntry (fun _ => 0) 0 0 rootFb S_DIR j := by
    intro j hj
    rw [blit_inside (by omega) (by omega), Nat.zero_add, Nat.sub_zero]
  have hname : entryName (blit b 0 (putEntry (fun _ => 0) 0 0 rootFb S_DIR) 0 16) 0 = 0 :=
    (getLE_shift fun k hk => hsec (0 + k) (by omega)).trans (putEntry_name (by decide))
  have hfb : entryFb (blit b 0 (putEntry (fun _ => 0) 0 0 rootFb S_DIR) 0 16) 0 = rootFb :=
    (getLE_shift fun k hk => hsec (0 + 8 + k) (by omega)).trans (putEntry_fb (by decide))
  have htype : entryType (blit b 0 (putEntry (fun _ => 0) 0 0 rootFb S_DIR) 0 16) 0 = S_DIR :=
    (hsec 12 (by decide)).trans putEntry_type
  rw [entryAt, hname, hfb, htype]

/-- The image of a new root directory holds it. -/
theorem root_holds {img : Bytes} (now : Nat)
    (h : ∀ j, j < 101 → img j = initdirImage (0 : UInt32).toNat now rootFb rootFb j) :
    Holds img 1 rootFb (newDir 0 rootFb) := by
  have hh : Holds (initdirImage (0 : UInt32).toNat now rootFb rootFb) 1 rootFb (newDir 0 rootFb) :=
    newDir_holds (by decide) (by decide)
  have hflen : metaFlen (initdirImage (0 : UInt32).toNat now rootFb rootFb) = 101 :=
    (initdirImage_header (by omega)).trans (newMeta_flen (by decide))
  have hext : extent (initdirImage (0 : UInt32).toNat now rootFb rootFb) (newDir 0 rootFb).node
    ≤ 101 := by
    simp only [newDir, extent, hflen, Nat.le_refl]
  exact hh.congr (fun j _ hj => h j hj) hext (by decide)

/-- `do_mkcfs` makes the disk of the fresh tree, whose root counts itself. -/
theorem wp_doMkcfs_counts {w : World} {H : Prop} (hmem : Env.Succeeds w.env .initdir)
    (hH : H ∨ Ample w.env) :
    wpOr H doMkcfs (fun _ w' => (Store w'.dt freshFs (fun _ => [rootFb]) ∧ Later w.env w'.env ∧
      w'.ipIndex = w.ipIndex ∧ w'.dt.sb.maxBlockNum = 0) ∧
        metaCount (w'.dt.data rootFb) = 3) w := by
  unfold doMkcfs
  refine (wp_bind _ _ _ _).mpr ((wp_modifyDt _ _).mpr ?_)
  refine wp_call (wp_initdir (w := { w with dt := formatted w.dt }) (formatted_sized _)
    (formatted_topFree _) (hH.imp_right fun h => ⟨h, formatted_free _⟩)) fun r w₁ hr => ?_
  cases r with
  | none => exact absurd hr (hmem 0)
  | some fb =>
    have hfb := formatted_first hr.free hr.first
    subst hfb
    have hw := hr.written
    have h1 : rootFb < w₁.dt.sb.fatNum := hw.lt rootFb (by simp)
    have h0 : sectorOf 0 = 0 := sectorOf_lt (by decide)
    have hpos : 0 < w₁.dt.sb.fatNum := (Nat.zero_le _).trans_lt h1
    refine (wp_writeSector _ _ _ _ _).mpr ?_
    rw [h0, hw.sized.dataSecs]
    have hcount : metaCount (w₁.dt.data rootFb) = 3 :=
      (headed_written hw Nat.one_pos (show 64 ≤ 101 by decide) 4 4 (by decide)).trans
        ((initdirImage_header (by omega)).trans (newMeta_count (by decide)))
    refine ⟨hpos, ⟨⟨setSector_sized hw.sized _ _ _ _, hw.topFree, hpos, ?_, ?_, ?_, ?_, ?_⟩,
      hw.later, hw.ipIndex, hw.maxBlockNum⟩, ?_⟩
    · exact (hw.fat 0 (by decide)).trans (show (formatted w.dt).fat 0 = ENDSEC from rfl)
    · rw [setSector_data_self]
      exact root_entry _
    · intro n o hn
      obtain ⟨rfl, rfl⟩ := freshFs_some hn
      refine ⟨rfl, hw.linked, by decide, hw.lt, root_holds w.env.now fun j hj => ?_⟩
      have hj' : j < 512 := by omega
      rw [imageOf_head hj', setSector_data_ne (by decide)]
      have hc := hw.contents j hj (by omega)
      rw [imageOf_head hj', Nat.zero_add] at hc
      exact hc
    · intro n n' o o' hn hn' hne
      rw [(freshFs_some hn).1, (freshFs_some hn').1] at hne
      exact absurd rfl hne
    · intro i hi hne
      refine ⟨rootFb, _, freshFs_root, ?_⟩
      by_contra hnot
      exact hne ((hw.fat i hnot).trans (if_neg hi))
    · rw [setSector_data_ne (by decide)]
      exact hcount

/-- `do_mkcfs` makes the disk of the fresh tree. -/
theorem wp_doMkcfs {w : World} {H : Prop} (hmem : Env.Succeeds w.env .initdir)
    (hH : H ∨ Ample w.env) :
    wpOr H doMkcfs (fun _ w' => Store w'.dt freshFs (fun _ => [rootFb]) ∧ Later w.env w'.env ∧
      w'.ipIndex = w.ipIndex ∧ w'.dt.sb.maxBlockNum = 0) w :=
  wp_mono (wp_doMkcfs_counts hmem hH) fun _ _ h => h.1

end Sbpfs.Cfs.Mkfs
