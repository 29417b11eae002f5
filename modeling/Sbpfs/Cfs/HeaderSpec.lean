import Sbpfs.Cfs.NamespaceSpec

/-! # `c_chown` and `c_chmod`: one field of one header changes -/
namespace Sbpfs.Cfs.HeaderSpec

open Sbpfs.Lib.Program Sbpfs.Lib.Memory Sbpfs.Lib.Chain
open Sbpfs.Cfs.Layout Sbpfs.Cfs.Rules Sbpfs.Cfs.FatSpec Sbpfs.Cfs.FileSpec
open Sbpfs.Cfs.Lookup Sbpfs.Cfs.Namespace Sbpfs.Cfs.Image Sbpfs.Cfs.DiskStore
open Sbpfs.Cfs.LookupSpec Sbpfs.Cfs.ObjectSpec
open Sbpfs.Spec.FileTree Sbpfs.Spec.Resolve

attribute [local irreducible] wpOr

variable {fs : Fs} {chain : Nat → List Nat} {w : World} {H : Prop}

/-- The state after the header of the object at `fb` was patched to make it `o'`. -/
structure Patched (fs : Fs) (chain : Nat → List Nat) (fb : Nat) (o' : Obj) (w w' : World) :
    Prop where
  store : Store w'.dt (Function.update fs fb (some o')) chain
  kept : Kept fs chain chain fb w.dt w'.dt
  later : Later w.env w'.env
  ipIndex : w'.ipIndex = w.ipIndex
  maxBlockNum : w'.dt.sb.maxBlockNum = w.dt.sb.maxBlockNum

/-- A field of the header written through the first sector is written in the image. -/
theorem patched_image {dt : Dtree} {fb : Nat} {o : Obj} {cs : List Nat} (hs : Sized dt)
    (hat : ObjAt dt fb o cs) {off m v : Nat} (hoff : off + m ≤ 64) :
    Agree (imageOf (setSector dt fb (putLE (dt.data fb) off m v) 0 64).data cs)
      (putLE (imageOf dt.data cs) off m v) 0 (512 * cs.length) := by
  obtain ⟨rest, rfl⟩ := hat.cons
  have hnot : fb ∉ rest := (List.nodup_cons.mp (hat.nodup hs)).1
  intro j _ hj
  by_cases hj' : j < 512
  · have hhead : (setSector dt fb (putLE (dt.data fb) off m v) 0 64).data fb
        = blit (dt.data fb) 0 (putLE (dt.data fb) off m v) 0 64 := if_pos rfl
    rw [imageOf_head hj', hhead]
    by_cases hlow : j < 64
    · rw [blit_inside (by omega) (by omega), Nat.zero_add, Nat.sub_zero]
      unfold putLE
      rw [imageOf_head hj']
    · rw [blit_outside (by omega), putLE_outside (by omega), imageOf_head hj']
  · obtain ⟨k, rfl⟩ : ∃ k, j = 512 + k := ⟨j - 512, by omega⟩
    rw [putLE_outside (by omega), imageOf_tail, imageOf_tail]
    refine imageOf_congr (fun c hc => if_neg ?_) ?_
    · rintro rfl
      exact hnot hc
    · simp only [List.length_cons] at hj
      omega

/-- A header write that turns the image into one of `o'` patches the object. -/
theorem patched {fb : Nat} {o o' : Obj} (hst : Store w.dt fs chain) (ho : fs fb = some o)
    {off m v : Nat} (hoff : off + m ≤ 64)
    (hh : Holds (putLE (imageOf w.dt.data (chain fb)) off m v) (chain fb).length fb o') :
    Patched fs chain fb o' w
      { w with dt := setSector w.dt fb (putLE (w.dt.data fb) off m v) 0 64 } := by
  have hat := hst.obj fb o ho
  have hpos := hat.length_pos
  have hle := hh.extent_le
  refine ⟨hst.patch ho ?_, fun n o₁ hn hne => ⟨rfl, fun c hc => ⟨rfl, if_neg ?_⟩⟩,
    Later.refl _, rfl,
    rfl⟩
  · exact hh.congr (patched_image hst.sized hat hoff) hle (by omega)
  · rintro rfl
    exact hst.disjoint n c o₁ o hn ho hne hc hat.head_mem

theorem Patched.after {w₁ w' : World} {fb : Nat} {o' : Obj} (h : Patched fs chain fb o' w₁ w')
    (hs : Same w w₁) : Patched fs chain fb o' w w' := by
  refine ⟨h.store, ?_, hs.later.trans h.later, h.ipIndex.trans hs.ipIndex, ?_⟩
  · rw [← hs.dt]
    exact h.kept
  · rw [← hs.dt]
    exact h.maxBlockNum

/-- What `c_chown` does once the path names the object `o` at `fb`. -/
def Chowned (fs : Fs) (chain : Nat → List Nat) (fb : Nat) (o : Obj) (newuid uid : UInt32)
    (w : World) (r : Int) (w' : World) : Prop :=
  if ¬ ownCheck uid o.uid then Same w w' ∧ r = 4
  else if o.uid = newuid.toNat then Same w w' ∧ r = 0
  else if uid ≠ 0 then Same w w' ∧ r = 4
  else r = 0 ∧ Patched fs chain fb { o with uid := newuid.toNat } w w'

theorem wp_cChown (hst : Store w.dt fs chain) (ht : Tree fs) (path : CStr) (newuid uid : UInt32)
    (hH : H ∨ Ample w.env) :
    wpOr H (cChown path newuid uid)
      (fun r w' => (Same w w' ∧ r < 0 ∧ OutOfMemory w.env) ∨
        match resolve fs.ents path with
        | none => Same w w' ∧ r = 1
        | some e => ∃ o, fs e.fb = some o ∧ Chowned fs chain e.fb o newuid uid w r w') w := by
  unfold cChown
  refine wp_call (wp_cLookup hst ht path hH) ?_
  rintro r w₁ ⟨hs, ⟨rfl, hm⟩ | hpost⟩
  · exact (wp_pure _ _ _).mpr (.inl ⟨hs, by decide, hm⟩)
  cases hr : resolve fs.ents path with
  | none =>
    simp only [hr] at hpost
    subst hpost
    exact (wp_pure _ _ _).mpr (.inr ⟨hs, rfl⟩)
  | some e =>
    simp only [hr] at hpost
    obtain ⟨entry, rfl, hfb, -⟩ := hpost
    obtain ⟨o, ho, -⟩ := resolve_typed ht hr
    have hst₁ : Store w₁.dt fs chain := by rw [hs.dt]; exact hst
    have hat := hst₁.obj _ _ ho
    have huid : metaUid (w₁.dt.data e.fb) = o.uid :=
      (hat.header_field (by omega)).trans hat.holds.uid
    simp only [hfb, wp_bind, wp_readSector, hst₁.sized.sectorOf hat.head_lt, hst₁.sized.dataSecs,
      huid, wp_ite, wp_pure, wp_writeSector, metaSize]
    refine ⟨hat.head_lt, ?_⟩
    have houtcome : ∀ r w', Chowned fs chain e.fb o newuid uid w r w' →
        (Same w w' ∧ r < 0 ∧ OutOfMemory w.env) ∨
          ∃ o, fs e.fb = some o ∧ Chowned fs chain e.fb o newuid uid w r w' :=
      fun r w' h => .inr ⟨o, ho, h⟩
    by_cases hown : ownCheck uid o.uid
    swap
    · rw [if_pos hown]
      refine houtcome 4 w₁ ?_
      unfold Chowned
      rw [if_pos hown]
      exact ⟨hs, rfl⟩
    rw [if_neg (by simpa using hown)]
    by_cases hsame : o.uid = newuid.toNat
    · rw [if_pos hsame]
      refine houtcome 0 w₁ ?_
      unfold Chowned
      rw [if_neg (by simpa using hown), if_pos hsame]
      exact ⟨hs, rfl⟩
    rw [if_neg hsame]
    by_cases hroot : uid = 0
    swap
    · rw [if_pos hroot]
      refine houtcome 4 w₁ ?_
      unfold Chowned
      rw [if_neg (by simpa using hown), if_neg hsame, if_pos hroot]
      exact ⟨hs, rfl⟩
    rw [if_neg (by simpa using hroot)]
    refine ⟨hat.head_lt, houtcome 0 _ ?_⟩
    unfold Chowned
    rw [if_neg (by simpa using hown), if_neg hsame, if_neg (by simpa using hroot)]
    have hh : Holds (putLE (imageOf w₁.dt.data (chain e.fb)) 0 4 newuid.toNat)
        (chain e.fb).length e.fb { o with uid := newuid.toNat } :=
      hat.holds.setUid newuid.toNat_lt
    exact ⟨rfl, (patched hst₁ ho (by omega) hh).after hs⟩

/-- The flags `c_chmod` stores. -/
def chmodFlags (flags mode : UInt8) : UInt8 := (flags &&& ~~~S_ALL) ||| mode

/-- What `c_chmod` does once the path names the object `o` at `fb`. -/
def Chmoded (fs : Fs) (chain : Nat → List Nat) (fb : Nat) (o : Obj) (mode : UInt8) (uid : UInt32)
    (w : World) (r : Int) (w' : World) : Prop :=
  if ¬ ownCheck uid o.uid then Same w w' ∧ r = 4
  else r = 0 ∧ Patched fs chain fb { o with flags := chmodFlags o.flags mode } w w'

theorem wp_cChmod (hst : Store w.dt fs chain) (ht : Tree fs) (path : CStr) (mode : UInt8)
    (uid : UInt32) (hH : H ∨ Ample w.env) :
    wpOr H (cChmod path mode uid)
      (fun r w' => (Same w w' ∧ r < 0 ∧ OutOfMemory w.env) ∨
        match resolve fs.ents path with
        | none => Same w w' ∧ r = 1
        | some e => ∃ o, fs e.fb = some o ∧ Chmoded fs chain e.fb o mode uid w r w') w := by
  unfold cChmod
  refine wp_call (wp_cLookup hst ht path hH) ?_
  rintro r w₁ ⟨hs, ⟨rfl, hm⟩ | hpost⟩
  · exact (wp_pure _ _ _).mpr (.inl ⟨hs, by decide, hm⟩)
  cases hr : resolve fs.ents path with
  | none =>
    simp only [hr] at hpost
    subst hpost
    exact (wp_pure _ _ _).mpr (.inr ⟨hs, rfl⟩)
  | some e =>
    simp only [hr] at hpost
    obtain ⟨entry, rfl, hfb, -⟩ := hpost
    obtain ⟨o, ho, -⟩ := resolve_typed ht hr
    have hst₁ : Store w₁.dt fs chain := by rw [hs.dt]; exact hst
    have hat := hst₁.obj _ _ ho
    have huid : metaUid (w₁.dt.data e.fb) = o.uid :=
      (hat.header_field (by omega)).trans hat.holds.uid
    have hflags : metaFlags (w₁.dt.data e.fb) = o.flags :=
      (hat.header (by omega)).trans hat.holds.flags
    simp only [hfb, wp_bind, wp_readSector, hst₁.sized.sectorOf hat.head_lt, hst₁.sized.dataSecs,
      huid, hflags, wp_ite, wp_pure, wp_writeSector, metaSize]
    refine ⟨hat.head_lt, ?_⟩
    by_cases hown : ownCheck uid o.uid
    swap
    · rw [if_pos hown]
      refine .inr ⟨o, ho, ?_⟩
      unfold Chmoded
      rw [if_pos hown]
      exact ⟨hs, rfl⟩
    rw [if_neg (by simpa using hown)]
    refine ⟨hat.head_lt, .inr ⟨o, ho, ?_⟩⟩
    unfold Chmoded
    rw [if_neg (by simpa using hown)]
    have hh : Holds (putLE (imageOf w₁.dt.data (chain e.fb)) 60 1 (chmodFlags o.flags mode).toNat)
        (chain e.fb).length e.fb { o with flags := chmodFlags o.flags mode } :=
      hat.holds.setFlags
    exact ⟨rfl, (patched hst₁ ho (by omega) hh).after hs⟩

end Sbpfs.Cfs.HeaderSpec
