import Mathlib.Data.List.Perm.Subperm
import Sbpfs.Cfs.FileSpec
import Sbpfs.Cfs.Image

/-!
# The disk image of a file tree

`Store dt fs chain` says that the image `dt` holds exactly the objects of `fs`, the
object at `fb` in the sectors `chain fb`. Freeing an object, installing one in free
sectors and patching a header keep it.
-/
namespace Sbpfs.Cfs.DiskStore

open Sbpfs.Lib.Program Sbpfs.Lib.Memory Sbpfs.Lib.Chain
open Sbpfs.Cfs.Layout Sbpfs.Cfs.Rules Sbpfs.Cfs.FatSpec Sbpfs.Cfs.File Sbpfs.Cfs.FileSpec
open Sbpfs.Cfs.Image Sbpfs.Spec.FileTree

/-- The sectors `cs` are a chain that holds the object `o`. -/
structure ObjAt (dt : Dtree) (fb : Nat) (o : Obj) (cs : List Nat) : Prop where
  head : cs.head? = some fb
  linked : Linked dt.fat ENDSEC cs
  pos : ∀ c ∈ cs, c ≠ 0
  lt : ∀ c ∈ cs, c < dt.sb.fatNum
  holds : Holds (imageOf dt.data cs) cs.length fb o

structure Store (dt : Dtree) (fs : Fs) (chain : Nat → List Nat) : Prop where
  sized : Sized dt
  topFree : TopFree dt
  usable : 0 < dt.sb.fatNum
  reserved : dt.fat 0 = ENDSEC
  rootEntry : entryAt (dt.data 0) 0 = ⟨0, rootFb, S_DIR⟩
  obj : ∀ fb o, fs fb = some o → ObjAt dt fb o (chain fb)
  disjoint : ∀ fb fb' o o', fs fb = some o → fs fb' = some o' → fb ≠ fb' →
    (chain fb).Disjoint (chain fb')
  owned : ∀ i, i ≠ 0 → dt.fat i ≠ FREESEC → ∃ fb o, fs fb = some o ∧ i ∈ chain fb

variable {dt : Dtree} {fs : Fs} {chain : Nat → List Nat} {fb : Nat} {o : Obj} {cs : List Nat}

/-- The sectors of every object stand in ascending order. -/
def Ordered (fs : Fs) (chain : Nat → List Nat) : Prop :=
  ∀ fb o, fs fb = some o → (chain fb).Pairwise (· < ·)

theorem Ordered.update (h : Ordered fs chain) (hcs : cs.Pairwise (· < ·)) (fb : Nat) (o : Obj) :
    Ordered (Function.update fs fb (some o)) (Function.update chain fb cs) := by
  intro m o₁ hm
  by_cases hmf : m = fb
  · subst hmf
    rw [Function.update_self]
    exact hcs
  · rw [Function.update_of_ne hmf] at hm ⊢
    exact h m o₁ hm

theorem Ordered.remove (h : Ordered fs chain) (fb : Nat) :
    Ordered (Function.update fs fb none) chain := by
  intro m o₁ hm
  by_cases hmf : m = fb
  · rw [hmf, Function.update_self] at hm
    cases hm
  · rw [Function.update_of_ne hmf] at hm
    exact h m o₁ hm

theorem length_le_of_lt {n : Nat} (hnodup : cs.Nodup) (hlt : ∀ c ∈ cs, c < n) : cs.length ≤ n := by
  have hsub : cs ⊆ List.range n := fun c hc => List.mem_range.mpr (hlt c hc)
  have hle := (List.subperm_of_subset hnodup hsub).length_le
  rwa [List.length_range] at hle

namespace ObjAt

theorem cons (h : ObjAt dt fb o cs) : ∃ rest, cs = fb :: rest := by
  cases cs with
  | nil => cases h.head
  | cons a rest =>
    cases h.head
    exact ⟨rest, rfl⟩

theorem head_mem (h : ObjAt dt fb o cs) : fb ∈ cs := by
  obtain ⟨rest, rfl⟩ := h.cons
  simp

theorem head_lt (h : ObjAt dt fb o cs) : fb < dt.sb.fatNum := h.lt fb h.head_mem

theorem head_ne_zero (h : ObjAt dt fb o cs) : fb ≠ 0 := h.pos fb h.head_mem

/-- No slot of a chain is free. -/
theorem fat_ne_zero (h : ObjAt dt fb o cs) {c : Nat} (hc : c ∈ cs) : dt.fat c ≠ 0 := by
  rcases h.linked.next_mem hc with he | hm
  · rw [he]
    decide
  · exact h.pos _ hm

theorem length_pos (h : ObjAt dt fb o cs) : 0 < cs.length := h.holds.sectors_pos

theorem nodup (hs : Sized dt) (h : ObjAt dt fb o cs) : cs.Nodup :=
  h.linked.nodup fun hm => hs.ne_endsec (h.lt _ hm) rfl

/-- A chain is no longer than the FAT. -/
theorem length_le (hs : Sized dt) (h : ObjAt dt fb o cs) : cs.length ≤ dt.sb.fatNum :=
  length_le_of_lt (h.nodup hs) h.lt

/-- The object stays where its slots and sectors do. -/
theorem frame {dt' : Dtree} (h : ObjAt dt fb o cs) (hnum : dt.sb.fatNum ≤ dt'.sb.fatNum)
    (hfat : ∀ c ∈ cs, dt'.fat c = dt.fat c) (hdata : ∀ c ∈ cs, dt'.data c = dt.data c) :
    ObjAt dt' fb o cs where
  head := h.head
  linked := h.linked.congr hfat
  pos := h.pos
  lt := fun c hc => (h.lt c hc).trans_le hnum
  holds := by
    have hpos := h.length_pos
    have hagree : Agree (imageOf dt'.data cs) (imageOf dt.data cs) 0 (512 * cs.length) :=
      fun j _ hj => imageOf_congr hdata (by omega)
    exact h.holds.congr hagree h.holds.extent_le (by omega)

/-- The first sector carries the header. -/
theorem header (h : ObjAt dt fb o cs) {j : Nat} (hj : j < 512) :
    dt.data fb j = imageOf dt.data cs j := by
  obtain ⟨rest, rfl⟩ := h.cons
  rw [imageOf_head hj]

theorem header_field (h : ObjAt dt fb o cs) {off m : Nat} (hm : off + m ≤ 512) :
    getLE (dt.data fb) off m = getLE (imageOf dt.data cs) off m :=
  getLE_congr fun j _ hj => h.header (by omega)

/-- The buffer `malloc(meta.blocks * bytsPerSec)` holds the whole chain. -/
theorem buffer_size (hs : Sized dt) (h : ObjAt dt fb o cs) :
    u32 (metaBlocks (dt.data fb) * BYTSPERSEC) = 512 * cs.length := by
  have hb : metaBlocks (dt.data fb) = cs.length :=
    (h.header_field (by omega)).trans h.holds.blocks
  have hle := h.length_le hs
  have hlt := hs.fatNum_lt
  rw [hb]
  simp only [BYTSPERSEC, u32]
  omega

end ObjAt

namespace Store

theorem ne_zero_of_mem (h : Store dt fs chain) (ho : fs fb = some o) {c : Nat}
    (hc : c ∈ chain fb) : c ≠ 0 := (h.obj fb o ho).pos c hc

/-- Freeing a live object leaves the others. -/
theorem free (h : Store dt fs chain) (ho : fs fb = some o) :
    Store (freed dt (chain fb)) (Function.update fs fb none) chain where
  sized := freed_sized h.sized _
  topFree := freed_topFree h.topFree _
  usable := h.usable
  reserved := by
    refine (cleared_of_not_mem ?_).trans h.reserved
    exact fun hm => h.ne_zero_of_mem ho hm rfl
  rootEntry := h.rootEntry
  obj := fun n o' hn => by
    have hne : n ≠ fb := by
      rintro rfl
      rw [Function.update_self] at hn
      cases hn
    rw [Function.update_of_ne hne] at hn
    refine (h.obj n o' hn).frame (Nat.le_refl _) (fun c hc => cleared_of_not_mem ?_)
      fun _ _ => rfl
    exact fun hm => h.disjoint n fb o' o hn ho hne hc hm
  disjoint := fun n n' o₁ o₂ h₁ h₂ hne => by
    by_cases hn : n = fb
    · subst hn
      rw [Function.update_self] at h₁
      cases h₁
    by_cases hn' : n' = fb
    · subst hn'
      rw [Function.update_self] at h₂
      cases h₂
    rw [Function.update_of_ne hn] at h₁
    rw [Function.update_of_ne hn'] at h₂
    exact h.disjoint n n' o₁ o₂ h₁ h₂ hne
  owned := fun i hi hfat => by
    have hnot : i ∉ chain fb := fun hm => hfat (cleared_of_mem hm)
    rw [show (freed dt (chain fb)).fat i = dt.fat i from cleared_of_not_mem hnot] at hfat
    obtain ⟨n, o', hn, hm⟩ := h.owned i hi hfat
    have hne : n ≠ fb := by
      rintro rfl
      exact hnot hm
    exact ⟨n, o', by rw [Function.update_of_ne hne, hn], hm⟩

/-- An object written into free sectors joins the others. -/
theorem install {w w' : World} {image : Bytes} {size n : Nat} (h : Store w.dt fs chain)
    (hnone : fs fb = none) (hfree : w.dt.fat fb = 0)
    (hw : Written w image 0 size fb n cs w')
    (hholds : ∀ img, (∀ j, j < size → j < 512 * n → img j = image j) → Holds img n fb o) :
    Store w'.dt (Function.update fs fb (some o)) (Function.update chain fb cs) := by
  have hzero : ∀ c ∈ cs, w.dt.fat c = 0 := by
    intro c hc
    rcases hw.fresh c hc with rfl | hz
    · exact hfree
    · exact hz
  have hres : 0 ∉ cs := by
    intro hm
    have hz := hzero 0 hm
    rw [h.reserved] at hz
    cases hz
  have hother : ∀ m o', fs m = some o' → (chain m).Disjoint cs := by
    intro m o' hm c hc hcs
    exact (h.obj m o' hm).fat_ne_zero hc (hzero c hcs)
  have hne_of : ∀ {m o'}, fs m = some o' → m ≠ fb := by
    rintro m o' hm rfl
    rw [hnone] at hm
    cases hm
  refine ⟨hw.sized, hw.topFree, h.usable.trans_le hw.fatNum_le, ?_, ?_, ?_, ?_, ?_⟩
  · exact (hw.fat 0 hres).trans h.reserved
  · rw [hw.data 0 h.usable hres]
    exact h.rootEntry
  · intro m o' hm
    by_cases hmf : m = fb
    · subst hmf
      rw [Function.update_self] at hm ⊢
      cases hm
      refine ⟨hw.head, hw.linked, fun c hc hz => hres (hz ▸ hc), hw.lt, ?_⟩
      rw [hw.length]
      refine hholds _ fun j hj hn => ?_
      rw [hw.contents j hj hn, Nat.zero_add]
    · rw [Function.update_of_ne hmf] at hm ⊢
      have hat := h.obj m o' hm
      exact hat.frame hw.fatNum_le (fun c hc => hw.fat c (hother m o' hm hc))
        fun c hc => hw.data c (hat.lt c hc) (hother m o' hm hc)
  · intro m m' o₁ o₂ h₁ h₂ hne
    by_cases hm : m = fb
    · subst hm
      have hm' : m' ≠ m := Ne.symm hne
      rw [Function.update_of_ne hm'] at h₂ ⊢
      rw [Function.update_self]
      exact fun c hc hm => hother m' o₂ h₂ hm hc
    · rw [Function.update_of_ne hm] at h₁ ⊢
      by_cases hm' : m' = fb
      · subst hm'
        rw [Function.update_self]
        exact hother m o₁ h₁
      · rw [Function.update_of_ne hm'] at h₂ ⊢
        exact h.disjoint m m' o₁ o₂ h₁ h₂ hne
  · intro i hi hfat
    by_cases hcs : i ∈ cs
    · exact ⟨fb, o, Function.update_self .., by rw [Function.update_self]; exact hcs⟩
    · rw [hw.fat i hcs] at hfat
      obtain ⟨m, o', hm, hmem⟩ := h.owned i hi hfat
      have hne := hne_of hm
      exact ⟨m, o', by rw [Function.update_of_ne hne, hm],
        by rw [Function.update_of_ne hne]; exact hmem⟩

/-- Writing an object back over its own chain replaces it. -/
theorem rewrite {w w' : World} {image : Bytes} {size n : Nat} {o' : Obj}
    (h : Store w.dt fs chain) (ho : fs fb = some o)
    (hw : Written { w with dt := freed w.dt (chain fb) } image 0 size fb n cs w')
    (hholds : ∀ img, (∀ j, j < size → j < 512 * n → img j = image j) → Holds img n fb o') :
    Store w'.dt (Function.update fs fb (some o')) (Function.update chain fb cs) := by
  have hfree : (freed w.dt (chain fb)).fat fb = 0 := cleared_of_mem (h.obj fb o ho).head_mem
  have hinst := install (w := { w with dt := freed w.dt (chain fb) }) (h.free ho)
    (Function.update_self ..) hfree hw hholds
  rwa [Function.update_idem] at hinst

/-- A slot that was free is the first sector of no object. -/
theorem none_of_free (h : Store dt fs chain) (hfree : dt.fat fb = 0) : fs fb = none := by
  cases ho : fs fb with
  | none => rfl
  | some o =>
    have hat := h.obj fb o ho
    exact absurd hfree (hat.fat_ne_zero hat.head_mem)

/-- A new object of one sector joins the others. -/
theorem create {w w' : World} {image : Bytes} {size : Nat} (h : Store w.dt fs chain)
    (hc : Created w image size fb w')
    (hholds : ∀ img, (∀ j, j < size → j < 512 → img j = image j) → Holds img 1 fb o) :
    fs fb = none ∧ Store w'.dt (Function.update fs fb (some o)) (Function.update chain fb [fb]) :=
  ⟨h.none_of_free hc.free, h.install (h.none_of_free hc.free) hc.free hc.written hholds⟩

/-- New contents for the first sector of an object. -/
theorem patch {src : Bytes} {o' : Obj} (h : Store dt fs chain) (ho : fs fb = some o)
    (hholds : Holds (imageOf (setSector dt fb src 0 64).data (chain fb)) (chain fb).length fb o') :
    Store (setSector dt fb src 0 64) (Function.update fs fb (some o')) chain := by
  have hat := h.obj fb o ho
  have hother : ∀ m o₁, fs m = some o₁ → m ≠ fb → ∀ c ∈ chain m,
      (setSector dt fb src 0 64).data c = dt.data c := by
    intro m o₁ hm hne c hc
    refine if_neg ?_
    rintro rfl
    exact h.disjoint m c o₁ o hm ho hne hc hat.head_mem
  refine ⟨⟨h.sized.exact, h.sized.fatSec, h.sized.lt⟩, h.topFree, h.usable, h.reserved, ?_, ?_, ?_,
    ?_⟩
  · rw [show (setSector dt fb src 0 64).data 0 = dt.data 0 from if_neg hat.head_ne_zero.symm]
    exact h.rootEntry
  · intro m o₁ hm
    by_cases hmf : m = fb
    · subst hmf
      rw [Function.update_self] at hm
      cases hm
      exact ⟨hat.head, hat.linked, hat.pos, hat.lt, hholds⟩
    · rw [Function.update_of_ne hmf] at hm
      exact (h.obj m o₁ hm).frame (Nat.le_refl _) (fun _ _ => rfl) (hother m o₁ hm hmf)
  · have hsome : ∀ {m o₁}, Function.update fs fb (some o') m = some o₁ → ∃ o₂, fs m = some o₂ := by
      intro m o₁ hm
      by_cases hmf : m = fb
      · exact ⟨o, hmf ▸ ho⟩
      · rw [Function.update_of_ne hmf] at hm
        exact ⟨o₁, hm⟩
    intro m m' o₁ o₂ h₁ h₂ hne
    obtain ⟨p₁, hp₁⟩ := hsome h₁
    obtain ⟨p₂, hp₂⟩ := hsome h₂
    exact h.disjoint m m' p₁ p₂ hp₁ hp₂ hne
  · intro i hi hfat
    obtain ⟨m, o₁, hm, hmem⟩ := h.owned i hi hfat
    by_cases hmf : m = fb
    · exact ⟨fb, o', Function.update_self .., hmf ▸ hmem⟩
    · exact ⟨m, o₁, by rw [Function.update_of_ne hmf, hm], hmem⟩

end Store

end Sbpfs.Cfs.DiskStore
