import Sbpfs.Cfs.File
import Sbpfs.Cfs.FatSpec

/-!
# Reading and writing sector chains

The bytes of an object are those of the sectors of its chain, one after another.
`do_readfile` collects them; the write loop stores an image into a chain that starts
at a given sector and continues through slots that were free.
-/
namespace Sbpfs.Cfs.FileSpec

open Sbpfs.Lib.Program Sbpfs.Lib.Memory Sbpfs.Lib.Chain
open Sbpfs.Cfs.Layout Sbpfs.Cfs.Rules Sbpfs.Cfs.Fat Sbpfs.Cfs.FatSpec Sbpfs.Cfs.File

variable {H : Prop}

/-- The bytes of the sectors `cs` in order. -/
def imageOf (data : Nat → Bytes) (cs : List Nat) : Bytes :=
  fun j => data ((cs[j / 512]?).getD 0) (j % 512)

theorem imageOf_head {data : Nat → Bytes} {c : Nat} {cs : List Nat} {j : Nat} (h : j < 512) :
    imageOf data (c :: cs) j = data c j := by
  unfold imageOf
  rw [Nat.div_eq_of_lt h, Nat.mod_eq_of_lt h]
  rfl

theorem imageOf_tail {data : Nat → Bytes} {c : Nat} {cs : List Nat} {j : Nat} :
    imageOf data (c :: cs) (512 + j) = imageOf data cs j := by
  unfold imageOf
  rw [show (512 + j) / 512 = j / 512 + 1 from by omega, show (512 + j) % 512
    = j % 512 from by omega]
  rfl

theorem imageOf_congr {data data' : Nat → Bytes} {cs : List Nat} {j : Nat}
    (h : ∀ c ∈ cs, data c = data' c) (hj : j < 512 * cs.length) :
    imageOf data cs j = imageOf data' cs j := by
  have hlt : j / 512 < cs.length := by omega
  unfold imageOf
  rw [List.getElem?_eq_getElem hlt, Option.getD_some, h _ (List.getElem_mem hlt)]

theorem wp_doReadfileLoop {n a i : Nat} {cs : List Nat} {data : Buf} {w : World}
    (hs : Sized w.dt) (hc : Linked w.dt.fat ENDSEC (a :: cs))
    (hb : ∀ c ∈ a :: cs, c < w.dt.sb.fatNum)
    (hlen : 512 * (i + (a :: cs).length) ≤ data.size) (hi : i + (a :: cs).length < 2 ^ 23)
    (hH : H ∨ (a :: cs).length < n) :
    wpOr H (doReadfileLoop n a i data)
      (fun b w' => w' = w ∧ b.size = data.size ∧
        (∀ j, j < 512 * i → b.bytes j = data.bytes j) ∧
        ∀ j, j < 512 * (a :: cs).length →
          b.bytes (512 * i + j) = imageOf w.dt.data (a :: cs) j) w := by
  induction cs generalizing n a i data with
  | nil =>
    cases n with
    | zero => exact hH.resolve_right (Nat.not_lt_zero _)
    | succ n =>
      have ha := hb a (by simp)
      have hnext : w.dt.fat a = ENDSEC := hc
      simp only [List.length_cons, List.length_nil] at hlen hi ⊢
      have hoff : u32 (i * 512) = i * 512 := by unfold u32; omega
      simp only [doReadfileLoop, if_neg (hs.ne_endsec ha), wp_bind, wp_readSector, wp_copyIn,
        wp_readFat, hnext, hs.sectorOf ha, hs.dataSecs, BYTSPERSEC, hoff]
      refine ⟨ha, by omega, ha.trans hs.fatNum_lt_slots, ?_⟩
      cases n with
      | zero => exact hH.resolve_right (by simp)
      | succ n =>
        simp only [doReadfileLoop, if_true, wp_pure]
        refine ⟨trivial, trivial, fun j hj => blit_outside (by omega), fun j hj => ?_⟩
        rw [blit_inside (by omega) (by omega), imageOf_head (by omega)]
        congr 1
        omega
  | cons b cs ih =>
    cases n with
    | zero => exact hH.resolve_right (Nat.not_lt_zero _)
    | succ n =>
      have ha := hb a (by simp)
      simp only [List.length_cons] at hlen hi ⊢
      have hoff : u32 (i * 512) = i * 512 := by unfold u32; omega
      have hsucc : u32 (i + 1) = i + 1 := by unfold u32; omega
      simp only [doReadfileLoop, if_neg (hs.ne_endsec ha), wp_bind, wp_readSector, wp_copyIn,
        wp_readFat, hc.1, hs.sectorOf ha, hs.dataSecs, BYTSPERSEC, hoff, hsucc]
      refine ⟨ha, by omega, ha.trans hs.fatNum_lt_slots, ?_⟩
      refine wp_mono (ih hc.2 (fun c hcm => hb c (List.mem_cons_of_mem _ hcm))
        (by simp only [List.length_cons]; omega) (by simp only [List.length_cons]; omega)
        (hH.imp_right Nat.lt_of_succ_lt_succ)) ?_
      rintro r _ ⟨rfl, hsize, hlow, hhigh⟩
      refine ⟨rfl, hsize, fun j hj => ?_, fun j hj => ?_⟩
      · exact (hlow j (by omega)).trans (blit_outside (by omega))
      · by_cases hj' : j < 512
        · rw [imageOf_head hj']
          refine (hlow _ (by omega)).trans ((blit_inside (by omega) (by omega)).trans ?_)
          congr 1
          omega
        · obtain ⟨k, rfl⟩ : ∃ k, j = 512 + k := ⟨j - 512, by omega⟩
          rw [imageOf_tail, ← hhigh k (by simp only [List.length_cons]; omega)]
          congr 1
          omega

/-- `do_readfile` fills a buffer of at least the chain's length with the object's bytes. -/
theorem wp_doReadfile {a : Nat} {cs : List Nat} {data : Buf} {w : World} (hs : Sized w.dt)
    (hc : Linked w.dt.fat ENDSEC (a :: cs)) (hb : ∀ c ∈ a :: cs, c < w.dt.sb.fatNum)
    (hlen : 512 * (a :: cs).length ≤ data.size) (hi : (a :: cs).length < 2 ^ 23)
    (hH : H ∨ (a :: cs).length < w.env.fuel) :
    wpOr H (doReadfile a data)
      (fun b w' => w' = w ∧ b.size = data.size ∧
        Agree b.bytes (imageOf w.dt.data (a :: cs)) 0 (512 * (a :: cs).length)) w := by
  unfold doReadfile
  simp only [wp_bind, wp_get]
  refine wp_mono (wp_doReadfileLoop (i := 0) hs hc hb (by omega) (by omega) hH) ?_
  rintro b _ ⟨rfl, hsize, _, hhigh⟩
  refine ⟨rfl, hsize, fun j _ hj => ?_⟩
  have h := hhigh j (by rwa [Nat.zero_add] at hj)
  rwa [Nat.mul_zero, Nat.zero_add] at h

/-- The write loop put `n` sectors of `image`, from byte `off` on, into the chain `cs`. -/
structure Written (w : World) (image : Bytes) (off size fb n : Nat) (cs : List Nat)
    (w' : World) : Prop where
  sized : Sized w'.dt
  topFree : TopFree w'.dt
  fatNum_le : w.dt.sb.fatNum ≤ w'.dt.sb.fatNum
  maxBlockNum : w'.dt.sb.maxBlockNum = w.dt.sb.maxBlockNum
  later : Later w.env w'.env
  ipIndex : w'.ipIndex = w.ipIndex
  head : cs.head? = some fb
  length : cs.length = n
  linked : Linked w'.dt.fat ENDSEC cs
  sorted : cs.Pairwise (· < ·)
  lt : ∀ c ∈ cs, c < w'.dt.sb.fatNum
  fresh : ∀ c ∈ cs, c = fb ∨ w.dt.fat c = 0
  fat : ∀ i, i ∉ cs → w'.dt.fat i = w.dt.fat i
  data : ∀ k, k < w.dt.sb.fatNum → k ∉ cs → w'.dt.data k = w.dt.data k
  contents : ∀ j, j < size → j < 512 * n → imageOf w'.dt.data cs j = image (off + j)

theorem setFat_sized {dt : Dtree} (h : Sized dt) (i v : Nat) : Sized (setFat dt i v) :=
  ⟨h.exact, h.fatSec, h.lt⟩

theorem setSector_sized {dt : Dtree} (h : Sized dt) (k : Nat) (src : Bytes) (soff n : Nat) :
    Sized (setSector dt k src soff n) := ⟨h.exact, h.fatSec, h.lt⟩

theorem setFat_topFree {dt : Dtree} (h : TopFree dt) {i v : Nat} (hi : i < dt.sb.fatNum) :
    TopFree (setFat dt i v) := by
  intro k hk
  have hki : k ≠ i := by
    rintro rfl
    exact absurd hk (not_le.mpr hi)
  simp only [setFat, if_neg hki]
  exact h k hk

/-- The image after one round of the write loop, before it looks for the next sector. -/
def putSector (dt : Dtree) (fb : Nat) (image : Bytes) (off len : Nat) : Dtree :=
  setFat (setSector dt fb image off len) fb ENDSEC

theorem putSector_fat_self (dt : Dtree) (fb : Nat) (image : Bytes) (off len : Nat) :
    (putSector dt fb image off len).fat fb = ENDSEC := if_pos rfl

theorem putSector_fat_ne {dt : Dtree} {fb i : Nat} {image : Bytes} {off len : Nat} (h : i ≠ fb) :
    (putSector dt fb image off len).fat i = dt.fat i := if_neg h

theorem putSector_data_ne {dt : Dtree} {fb k : Nat} {image : Bytes} {off len : Nat} (h : k ≠ fb) :
    (putSector dt fb image off len).data k = dt.data k := if_neg h

theorem putSector_data_self {dt : Dtree} {fb j : Nat} {image : Bytes} {off len : Nat}
    (hj : j < len) : (putSector dt fb image off len).data fb j = image (off + j) := by
  have h : (putSector dt fb image off len).data fb = blit (dt.data fb) 0 image off len := if_pos rfl
  rw [h, blit_inside (by omega) (by omega), Nat.sub_zero]

/-- The slot found behind a sector just written is another one. -/
theorem found_putSector_lt {w w₂ : World} {fb k off len : Nat} {image : Bytes}
    (hfound : Found fb { w with dt := putSector w.dt fb image off len } k w₂) : fb < k := by
  have hne : fb ≠ k := by
    rintro rfl
    have hfree := hfound.free
    rw [putSector_fat_self] at hfree
    cases hfree
  exact lt_of_le_of_ne hfound.base_le hne

theorem putSector_sized {dt : Dtree} (h : Sized dt) (fb : Nat) (image : Bytes) (off len : Nat) :
    Sized (putSector dt fb image off len) := ⟨h.exact, h.fatSec, h.lt⟩

theorem putSector_topFree {dt : Dtree} (h : TopFree dt) {fb : Nat} (hfb : fb < dt.sb.fatNum)
    (image : Bytes) (off len : Nat) : TopFree (putSector dt fb image off len) :=
  setFat_topFree (show TopFree (setSector dt fb image off len) from h) hfb

theorem Written.single {w : World} {image : Bytes} {i size fb : Nat} (hs : Sized w.dt)
    (ht : TopFree w.dt) (hfb : fb < w.dt.sb.fatNum) :
    Written w image (512 * i) size fb 1 [fb]
      { w with dt := putSector w.dt fb image (i * 512) (if size < 512 then size else 512) } where
  sized := putSector_sized hs ..
  topFree := putSector_topFree ht hfb _ _ _
  fatNum_le := Nat.le_refl _
  maxBlockNum := rfl
  later := Later.refl _
  ipIndex := rfl
  head := rfl
  length := rfl
  linked := putSector_fat_self ..
  sorted := List.pairwise_singleton _ _
  lt := fun c hc => by rw [List.mem_singleton.mp hc]; exact hfb
  fresh := fun c hc => .inl (List.mem_singleton.mp hc)
  fat := fun i hi => putSector_fat_ne fun h => hi (List.mem_singleton.mpr h)
  data := fun k _ hk => putSector_data_ne fun h => hk (List.mem_singleton.mpr h)
  contents := fun j hj hn => by
    have hlen : j < (if size < 512 then size else 512) := by split <;> omega
    rw [imageOf_head (by omega), Nat.mul_comm 512 i]
    exact putSector_data_self hlen

/-- One more sector in front of a chain that the rest of the loop has written. -/
theorem Written.cons {w w₂ w' : World} {image : Bytes} {i size fb n k : Nat} {cs : List Nat}
    (hsize : size < 2 ^ 64)
    (hfound : Found fb
      { w with dt := putSector w.dt fb image (i * 512) (if size < 512 then size else 512) } k w₂)
    (h : Written { w₂ with dt := setFat w₂.dt fb k } image (512 * (i + 1)) (u64Sub size 512) k n cs
      w') (hfb : fb < w.dt.sb.fatNum) :
    Written w image (512 * i) size fb (n + 1) (fb :: cs) w' := by
  obtain ⟨rest, rfl⟩ : ∃ rest, cs = k :: rest := by
    cases cs with
    | nil => cases h.head
    | cons a rest => cases h.head; exact ⟨rest, rfl⟩
  have hlt : fb < k := found_putSector_lt hfound
  have habove : ∀ c ∈ k :: rest, fb < c := by
    intro c hc
    rcases List.mem_cons.mp hc with rfl | hc
    · exact hlt
    · exact hlt.trans ((List.pairwise_cons.mp h.sorted).1 c hc)
  have hnot : fb ∉ k :: rest := fun hm => Nat.lt_irrefl _ (habove fb hm)
  have hfat : ∀ c, c ≠ fb → w.dt.fat c = (setFat w₂.dt fb k).fat c := by
    intro c hc
    rw [show (setFat w₂.dt fb k).fat c = w₂.dt.fat c from if_neg hc, hfound.grows.fat]
    exact (putSector_fat_ne hc).symm
  have hle : w.dt.sb.fatNum ≤ w₂.dt.sb.fatNum := hfound.grows.fatNum_le
  have hself : w'.dt.data fb
      = (putSector w.dt fb image (i * 512) (if size < 512 then size else 512)).data fb :=
    (h.data fb (hfb.trans_le hle) hnot).trans (hfound.grows.data fb hfb)
  refine ⟨h.sized, h.topFree, hle.trans h.fatNum_le,
    h.maxBlockNum.trans hfound.grows.maxBlockNum, hfound.later.trans h.later,
    h.ipIndex.trans hfound.ipIndex, rfl, ?_, ?_, ?_, ?_, ?_, ?_, ?_, ?_⟩
  · simp [h.length]
  · refine Linked.cons ?_ h.linked
    rw [h.fat fb hnot]
    exact if_pos rfl
  · exact List.pairwise_cons.mpr ⟨habove, h.sorted⟩
  · intro c hc
    rcases List.mem_cons.mp hc with rfl | hc
    · exact hfb.trans_le (hle.trans h.fatNum_le)
    · exact h.lt c hc
  · intro c hc
    rcases List.mem_cons.mp hc with rfl | hc
    · exact .inl rfl
    · right
      have hcne : c ≠ fb := (Nat.ne_of_gt (habove c hc))
      rcases h.fresh c hc with rfl | hz
      · exact (putSector_fat_ne hcne).symm.trans hfound.free
      · rw [hfat c hcne]
        exact hz
  · intro c hc
    have hcne : c ≠ fb := fun he => hc (by simp [he])
    rw [h.fat c fun hm => hc (List.mem_cons_of_mem _ hm), hfat c hcne]
  · intro c hc hm
    have hcne : c ≠ fb := fun he => hm (by simp [he])
    refine (h.data c (hc.trans_le hle) fun hm' => hm (List.mem_cons_of_mem _ hm')).trans ?_
    exact (hfound.grows.data c hc).trans (putSector_data_ne hcne)
  · intro j hj hn
    by_cases hj' : j < 512
    · rw [imageOf_head hj', hself, Nat.mul_comm 512 i]
      exact putSector_data_self (by split <;> omega)
    · obtain ⟨m, rfl⟩ : ∃ m, j = 512 + m := ⟨j - 512, by omega⟩
      have hsub : u64Sub size 512 = size - 512 := by unfold u64Sub; omega
      rw [imageOf_tail, h.contents m (by omega) (by omega), Nat.mul_succ, Nat.add_assoc]

/-- Behind `fb` there are `n` free slots that the image can afford. -/
def Spare (dt : Dtree) (fb n : Nat) : Prop :=
  ∃ cs : List Nat, cs.length = n ∧ (fb :: cs).Pairwise (· < ·) ∧
    ∀ c ∈ cs, dt.fat c = 0 ∧ Affords dt c

theorem Spare.mono {dt dt' : Dtree} {fb n : Nat} (h : Spare dt fb n)
    (hfat : ∀ c, dt.fat c = 0 → dt'.fat c = 0) (haff : ∀ c, Affords dt c → Affords dt' c) :
    Spare dt' fb n := by
  obtain ⟨cs, hlen, hsort, hcs⟩ := h
  exact ⟨cs, hlen, hsort, fun c hc => ⟨hfat c (hcs c hc).1, haff c (hcs c hc).2⟩⟩

theorem Spare.free {dt dt' : Dtree} {fb n : Nat} (h : Spare dt fb (n + 1))
    (hfat : ∀ c, c ≠ fb → dt'.fat c = dt.fat c) (haff : ∀ c, Affords dt c → Affords dt' c) :
    Free dt' fb := by
  obtain ⟨cs, hlen, hsort, hcs⟩ := h
  obtain ⟨k, rest, rfl⟩ := List.exists_cons_of_length_eq_add_one hlen
  have hlt : fb < k := (List.pairwise_cons.mp hsort).1 k (by simp)
  obtain ⟨hfree, hk⟩ := hcs k (by simp)
  exact ⟨k, hlt.le, (hfat k (Nat.ne_of_gt hlt)).trans hfree, haff k hk⟩

/-- The first free slot uses up one of the spare ones. -/
theorem Spare.next {dt dt' : Dtree} {fb n k : Nat} (h : Spare dt fb (n + 1)) (hlt : fb < k)
    (hfirst : ∀ j, fb < j → j < k → dt.fat j ≠ 0)
    (hfat : ∀ c, c ≠ fb → c ≠ k → dt'.fat c = dt.fat c)
    (haff : ∀ c, Affords dt c → Affords dt' c) : Spare dt' k n := by
  obtain ⟨cs, hlen, hsort, hcs⟩ := h
  obtain ⟨k', rest, rfl⟩ := List.exists_cons_of_length_eq_add_one hlen
  obtain ⟨habove, hsort'⟩ := List.pairwise_cons.mp hsort
  obtain ⟨habove', hrest⟩ := List.pairwise_cons.mp hsort'
  have hle : k ≤ k' := by
    by_contra hgt
    exact hfirst k' (habove k' (by simp)) (by omega) (hcs k' (by simp)).1
  have hbehind : ∀ c ∈ rest, k < c := fun c hc => hle.trans_lt (habove' c hc)
  refine ⟨rest, by simpa using hlen, List.pairwise_cons.mpr ⟨hbehind, hrest⟩, fun c hc => ?_⟩
  have hkc := hbehind c hc
  obtain ⟨hfree, hc'⟩ := hcs c (List.mem_cons_of_mem _ hc)
  exact ⟨(hfat c (by omega) (by omega)).trans hfree, haff c hc'⟩

theorem Spare.after_found {w w₂ : World} {fb n k off len : Nat} {image : Bytes}
    (h : Spare w.dt fb (n + 1))
    (hfound : Found fb { w with dt := putSector w.dt fb image off len } k w₂) :
    Spare (setFat w₂.dt fb k) k n := by
  refine h.next (found_putSector_lt hfound) (fun j h1 h2 => ?_) (fun c hc _ => ?_) fun c hc => ?_
  · rw [← putSector_fat_ne (Nat.ne_of_gt h1)]
    exact hfound.first j h1.le h2
  · rw [show (setFat w₂.dt fb k).fat c = w₂.dt.fat c from if_neg hc, hfound.grows.fat]
    exact putSector_fat_ne hc
  · exact Or.imp_left (fun hlt => hlt.trans_le hfound.grows.fatNum_le) hc

theorem wp_writeChain {n i fb size : Nat} {image : Bytes} {w : World} (hs : Sized w.dt)
    (ht : TopFree w.dt) (hfb : fb < w.dt.sb.fatNum) (hsize : size < 2 ^ 64)
    (hH : H ∨ (Ample w.env ∧ Spare w.dt fb n)) :
    wpOr H (writeChain image (n + 1) i fb size)
      (fun _ w' => ∃ cs, Written w image (512 * i) size fb (n + 1) cs w') w := by
  induction n generalizing i fb size w with
  | zero =>
    simp only [writeChain, wp_bind, wp_writeSector, wp_writeFat, hs.sectorOf hfb, hs.dataSecs,
      setSector_slots, if_true, wp_pure, BYTSPERSEC]
    exact ⟨hfb, hfb.trans hs.fatNum_lt_slots, _, Written.single hs ht hfb⟩
  | succ n ih =>
    rw [writeChain]
    simp only [wp_bind, wp_writeSector, wp_writeFat, hs.sectorOf hfb, hs.dataSecs,
      setSector_slots, BYTSPERSEC, if_neg (Nat.succ_ne_zero n)]
    refine ⟨hfb, hfb.trans hs.fatNum_lt_slots, ?_⟩
    refine wp_mono (wp_findFreeSlot (putSector_sized hs fb image (i * 512) _)
      (putSector_topFree ht hfb _ _ _)
      (hH.imp_right fun h => ⟨h.1, h.2.free (fun c hc => putSector_fat_ne hc) fun _ hc => hc⟩))
      fun k w₂ hfound => ?_
    have hfb₂ : fb < w₂.dt.sb.fatNum := hfb.trans_le hfound.grows.fatNum_le
    refine ⟨hfb₂.trans hfound.grows.sized.fatNum_lt_slots, ?_⟩
    have hsub : u64Sub size 512 < 2 ^ 64 := by
      unfold u64Sub
      omega
    refine wp_mono (ih (i := i + 1) (w := { w₂ with dt := setFat w₂.dt fb k })
      (setFat_sized hfound.grows.sized fb k)
      (setFat_topFree (hfound.grows.topFree (putSector_topFree ht hfb _ _ _)) hfb₂)
      hfound.lt hsub (hH.imp_right fun h => ⟨h.1.later hfound.later, h.2.after_found hfound⟩)) ?_
    intro _ w' htail
    obtain ⟨cs, h⟩ := htail
    exact ⟨fb :: cs, Written.cons hsize hfound h hfb⟩

theorem freed_sized {dt : Dtree} (h : Sized dt) (cs : List Nat) : Sized (freed dt cs) :=
  ⟨h.exact, h.fatSec, h.lt⟩

theorem freed_topFree {dt : Dtree} (h : TopFree dt) (cs : List Nat) : TopFree (freed dt cs) := by
  intro i hi
  by_cases hm : i ∈ cs
  · exact cleared_of_mem hm
  · exact (cleared_of_not_mem hm).trans (h i hi)

/-- `do_writefile` frees the old chain and stores the image in a chain with the same head. -/
theorem wp_doWritefile {fb n size : Nat} {old : List Nat} {data : Bytes} {w : World}
    (hs : Sized w.dt) (ht : TopFree w.dt) (hc : Linked w.dt.fat ENDSEC (fb :: old))
    (hb : ∀ c ∈ fb :: old, c < w.dt.sb.fatNum) (hn : metaBlocks data = n + 1)
    (hsize : size < 2 ^ 64)
    (hH : H ∨ (Ample w.env ∧ (fb :: old).length < 2 ^ 23 ∧ Spare (freed w.dt (fb :: old)) fb n)) :
    wpOr H (doWritefile fb data size)
      (fun _ w' => ∃ cs, Written { w with dt := freed w.dt (fb :: old) } data 0 size fb (n + 1) cs
        w') w := by
  unfold doWritefile
  refine wp_call (wp_resetFat hc (fun c hm => (hb c hm).trans hs.fatNum_lt_slots)
    (fun hm => hs.ne_endsec (hb _ hm) rfl)
    (hH.imp_right fun h => h.2.1.trans h.1.fuel)) ?_
  rintro _ _ rfl
  rw [hn]
  exact wp_writeChain (freed_sized hs _) (freed_topFree ht _) (hb fb (by simp)) hsize
    (hH.imp_right fun h => ⟨h.1, h.2.2⟩)

/-- A write that starts at a slot just found counts as one on the image before the search. -/
theorem Written.after_found {base fb : Nat} {w w₁ w' : World} {image : Bytes} {off size n : Nat}
    {cs : List Nat} (hf : Found base w fb w₁) (h : Written w₁ image off size fb n cs w') :
    Written w image off size fb n cs w' where
  sized := h.sized
  topFree := h.topFree
  fatNum_le := hf.grows.fatNum_le.trans h.fatNum_le
  maxBlockNum := h.maxBlockNum.trans hf.grows.maxBlockNum
  later := hf.later.trans h.later
  ipIndex := h.ipIndex.trans hf.ipIndex
  head := h.head
  length := h.length
  linked := h.linked
  sorted := h.sorted
  lt := h.lt
  fresh := fun c hc => by rw [← hf.grows.fat]; exact h.fresh c hc
  fat := fun i hi => by rw [← hf.grows.fat]; exact h.fat i hi
  data := fun k hk hm =>
    (h.data k (hk.trans_le hf.grows.fatNum_le) hm).trans (hf.grows.data k hk)
  contents := h.contents

/-- An allocation outcome consumed before the write does not matter to what is written. -/
theorem Written.after_pop {w w' : World} {s : AllocSite} {image : Bytes} {off size fb n : Nat}
    {cs : List Nat} (h : Written { w with env := w.env.pop s } image off size fb n cs w') :
    Written w image off size fb n cs w' where
  sized := h.sized
  topFree := h.topFree
  fatNum_le := h.fatNum_le
  maxBlockNum := h.maxBlockNum
  later := (Later.pop _ _).trans h.later
  ipIndex := h.ipIndex
  head := h.head
  length := h.length
  linked := h.linked
  sorted := h.sorted
  lt := h.lt
  fresh := h.fresh
  fat := h.fat
  data := h.data
  contents := h.contents

theorem Written.chain_single {w w' : World} {image : Bytes} {off size fb : Nat} {cs : List Nat}
    (h : Written w image off size fb 1 cs w') : cs = [fb] := by
  obtain ⟨c, rfl⟩ := List.length_eq_one_iff.mp h.length
  cases h.head
  rfl

/-- A new one-sector object at the first slot that was free. -/
structure Created (w : World) (image : Bytes) (size fb : Nat) (w' : World) : Prop where
  written : Written w image 0 size fb 1 [fb] w'
  free : w.dt.fat fb = 0
  first : ∀ i, i < fb → w.dt.fat i ≠ 0

/-- The value of `initfile` and `initdir`: nothing on a failed allocation, else a new object. -/
def InitPost (site : AllocSite) (image : Nat → Bytes) (size : Nat) (w : World)
    (r : Option Nat) (w' : World) : Prop :=
  match r with
  | none => w.env.heap site 0 = none
  | some fb => Created w (image fb) size fb w'

theorem Spare.zero (dt : Dtree) (fb : Nat) : Spare dt fb 0 :=
  ⟨[], rfl, List.pairwise_singleton _ _, fun _ h => by cases h⟩

theorem wp_initfile {uid : UInt32} {mode : UInt8} {w : World} (hs : Sized w.dt)
    (ht : TopFree w.dt) (hH : H ∨ (Ample w.env ∧ Free w.dt 0)) :
    wpOr H (initfile uid mode)
      (InitPost .initfile (fun _ => newMeta uid.toNat w.env.now 1 0 0 0 1 mode) 64 w) w := by
  unfold initfile
  simp only [wp_bind, wp_malloc]
  cases hm : w.env.heap .initfile 0 with
  | none => exact hm
  | some junk =>
    simp only [Option.map_some, wp_bind, wp_getNow]
    refine wp_mono (wp_findFreeSlot (w := { w with env := w.env.pop .initfile }) hs ht
      (hH.imp_right fun h => ⟨h.1.later (Later.pop _ _), h.2⟩)) ?_
    intro fb w₁ hf
    simp only [hf.later.now, metaSize]
    refine wp_mono (wp_writeChain hf.grows.sized (hf.grows.topFree ht) hf.lt (by decide)
      (hH.imp_right fun h => ⟨h.1.later ((Later.pop _ _).trans hf.later), Spare.zero _ _⟩)) ?_
    rintro _ w' ⟨cs, h⟩
    have hw := (h.after_found hf).after_pop
    rw [hw.chain_single] at hw
    exact ⟨hw, hf.free, fun i hi => hf.first i (Nat.zero_le _) hi⟩

theorem wp_initdir {uid : UInt32} {parent : Option Nat} {w : World} (hs : Sized w.dt)
    (ht : TopFree w.dt) (hH : H ∨ (Ample w.env ∧ Free w.dt 0)) :
    wpOr H (initdir uid parent)
      (InitPost .initdir (fun fb => initdirImage uid.toNat w.env.now fb (parent.getD fb)) 101 w)
      w := by
  unfold initdir
  simp only [wp_bind, wp_malloc]
  cases hm : w.env.heap .initdir 0 with
  | none => exact hm
  | some junk =>
    simp only [Option.map_some, wp_bind, wp_getNow]
    refine wp_mono (wp_findFreeSlot (w := { w with env := w.env.pop .initdir }) hs ht
      (hH.imp_right fun h => ⟨h.1.later (Later.pop _ _), h.2⟩)) ?_
    intro fb w₁ hf
    simp only [hf.later.now]
    refine wp_mono (wp_writeChain hf.grows.sized (hf.grows.topFree ht) hf.lt (by decide)
      (hH.imp_right fun h => ⟨h.1.later ((Later.pop _ _).trans hf.later), Spare.zero _ _⟩)) ?_
    rintro _ w' ⟨cs, h⟩
    have hw := (h.after_found hf).after_pop
    rw [hw.chain_single] at hw
    exact ⟨hw, hf.free, fun i hi => hf.first i (Nat.zero_le _) hi⟩

end Sbpfs.Cfs.FileSpec
