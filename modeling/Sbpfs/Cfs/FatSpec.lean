import Sbpfs.Cfs.Fat
import Sbpfs.Cfs.Rules
import Sbpfs.Lib.Chain

/-!
# What the FAT routines do to the image

`Sized` ties the three size fields of the superblock together, `TopFree` says that
the slots behind the last usable sector are zero. Under both, growing the image
changes no slot and no byte of an old sector.
-/
namespace Sbpfs.Cfs.FatSpec

open Sbpfs.Lib.Program Sbpfs.Lib.Memory Sbpfs.Lib.Chain
open Sbpfs.Cfs.Layout Sbpfs.Cfs.Rules Sbpfs.Cfs.Fat

/-- Superblock, FAT sectors and data sectors fill the image exactly. -/
structure Sized (dt : Dtree) : Prop where
  exact : dt.dtSize = 512 * (1 + dt.sb.fatSecNum + dt.sb.fatNum)
  fatSec : dt.sb.fatSecNum = (4 * (dt.dtSize / 512) + 511) / 512
  lt : dt.dtSize < 2 ^ 32

def TopFree (dt : Dtree) : Prop := ∀ i, dt.sb.fatNum ≤ i → dt.fat i = 0

theorem Sized.dataSecs {dt : Dtree} (h : Sized dt) : dt.dataSecs = dt.sb.fatNum := by
  have he := h.exact
  simp only [Dtree.dataSecs, BYTSPERSEC]
  omega

theorem Sized.fatNum_lt_slots {dt : Dtree} (h : Sized dt) : dt.sb.fatNum < dt.slots := by
  have he := h.exact
  have hf := h.fatSec
  simp only [Dtree.slots, BYTSPERSEC]
  omega

theorem Sized.fatNum_lt {dt : Dtree} (h : Sized dt) : dt.sb.fatNum < 2 ^ 23 := by
  have he := h.exact
  have hl := h.lt
  omega

theorem Sized.sectorOf {dt : Dtree} (h : Sized dt) {c : Nat} (hc : c < dt.sb.fatNum) :
    sectorOf c = c :=
  sectorOf_lt (hc.trans h.fatNum_lt)

theorem Sized.ne_endsec {dt : Dtree} (h : Sized dt) {c : Nat} (hc : c < dt.sb.fatNum) :
    c ≠ ENDSEC := by
  have hl := h.fatNum_lt
  simp only [ENDSEC]
  omega

/-- `dt'` is `dt` after any number of extensions. -/
structure Grows (dt dt' : Dtree) : Prop where
  sized : Sized dt'
  fatNum_le : dt.sb.fatNum ≤ dt'.sb.fatNum
  maxBlockNum : dt'.sb.maxBlockNum = dt.sb.maxBlockNum
  fat : dt'.fat = dt.fat
  data : ∀ k, k < dt.sb.fatNum → dt'.data k = dt.data k

theorem Grows.refl {dt : Dtree} (h : Sized dt) : Grows dt dt :=
  ⟨h, Nat.le_refl _, rfl, rfl, fun _ _ => rfl⟩

theorem Grows.trans {dt dt' dt'' : Dtree} (h : Grows dt dt') (h' : Grows dt' dt'') :
    Grows dt dt'' :=
  ⟨h'.sized, h.fatNum_le.trans h'.fatNum_le, h'.maxBlockNum.trans h.maxBlockNum,
    h'.fat.trans h.fat,
    fun k hk => (h'.data k (hk.trans_le h.fatNum_le)).trans (h.data k hk)⟩

theorem Grows.topFree {dt dt' : Dtree} (h : Grows dt dt') (ht : TopFree dt) : TopFree dt' := by
  intro i hi
  rw [h.fat]
  exact ht i (h.fatNum_le.trans hi)

/-- The size formulas of `extend` agree for every whole number of sectors: superblock, FAT
and data sectors fill the new size exactly, and the usable part does not shrink. -/
theorem grown_sized {dt : Dtree} (hs : Sized dt) {N : Nat} (hN : dt.dtSize / 512 < N)
    (hlt : N < 2 ^ 23) (junk : Bytes) :
    let fatSize := u32 (u32 (N * 512 / 512) * 4)
    let fatSecNum := u32 (fatSize + 512 - 1) / 512
    Sized (grownImage dt (N * 512) fatSize fatSecNum (u32 (N * 512 / 512)) junk) ∧
      dt.sb.fatNum ≤ (grownImage dt (N * 512) fatSize fatSecNum
        (u32 (N * 512 / 512)) junk).sb.fatNum := by
  have he := hs.exact
  have hf := hs.fatSec
  have hl := hs.lt
  have hsec : u32 (N * 512 / 512) = N := by unfold u32; omega
  have hsize : u32 (N * 4) = N * 4 := by unfold u32; omega
  have hround : u32 (N * 4 + 512 - 1) = N * 4 + 511 := by unfold u32; omega
  have hrest : u64Sub (N * 512) (N * 4) = N * 508 := by unfold u64Sub; omega
  have hdata : u64Sub (N * 508) 512 = N * 508 - 512 := by unfold u64Sub; omega
  have hnum : u32 ((N * 508 - 512) / 512) = (N * 508 - 512) / 512 := by unfold u32; omega
  have hnew : u32 (N * 512) = N * 512 := by unfold u32; omega
  simp only [hsec, hsize, hround, grownImage, BYTSPERSEC, hrest, hdata, hnum, hnew]
  refine ⟨⟨?_, ?_, ?_⟩, ?_⟩
  · change N * 512 = 512 * (1 + (N * 4 + 511) / 512 + (N * 508 - 512) / 512)
    omega
  · change (N * 4 + 511) / 512 = (4 * (N * 512 / 512) + 511) / 512
    omega
  · change N * 512 < 2 ^ 32
    omega
  · omega

/-- `dt'` is the image `dt` enlarged to `newsize` bytes. -/
structure Enlarged (dt dt' : Dtree) (newsize : Nat) : Prop where
  sized : Sized dt'
  dtSize : dt'.dtSize = newsize
  fatNum_le : dt.sb.fatNum ≤ dt'.sb.fatNum
  maxBlockNum : dt'.sb.maxBlockNum = dt.sb.maxBlockNum
  fat : dt'.fat = dt.fat
  data : ∀ k, k < dt.sb.fatNum → dt'.data k = dt.data k

theorem Enlarged.grows {dt dt' : Dtree} {newsize : Nat} (h : Enlarged dt dt' newsize) :
    Grows dt dt' := ⟨h.sized, h.fatNum_le, h.maxBlockNum, h.fat, h.data⟩

section Total

variable {H : Prop}

/-- What `extend` answers: 1 where nothing is to be done, -9 without memory, else 0. -/
def ExtendPost (newsize : Nat) (w : World) (r : Int) (w' : World) : Prop :=
  Later w.env w'.env ∧ w'.ipIndex = w.ipIndex ∧
    ((r = 1 ∧ newsize ≤ w.dt.dtSize ∧ w'.dt = w.dt) ∨
      (r = -9 ∧ w.env.heap .extend 0 = none ∧ w'.dt = w.dt) ∨
      (r = 0 ∧ Enlarged w.dt w'.dt newsize))

theorem wp_extendTo {w : World} {N : Nat} (hs : Sized w.dt) (ht : TopFree w.dt)
    (hN : N < 2 ^ 23) : wpOr H (extend (N * 512)) (ExtendPost (N * 512) w) w := by
  have he := hs.exact
  have hlt := hs.lt
  unfold extend
  simp only [wp_bind, wp_getDt, wp_ite, wp_pure, BYTSPERSEC]
  split
  · rename_i hsize
    exact ⟨Later.refl _, rfl, .inl ⟨rfl, hsize, rfl⟩⟩
  rename_i hsize
  simp only [wp_malloc]
  cases hm : w.env.heap .extend 0 with
  | none => exact ⟨Later.pop _ _, rfl, .inr (.inl ⟨rfl, hm, rfl⟩)⟩
  | some junk =>
    simp only [Option.map_some, wp_bind, wp_modifyDt, wp_pure]
    obtain ⟨hsized, hnum⟩ := grown_sized hs (N := N) (by omega) hN junk
    have hnew : u32 (N * 512) = N * 512 := Nat.mod_eq_of_lt (by omega)
    refine ⟨Later.pop _ _, rfl, .inr (.inr ⟨rfl, hsized, hnew, hnum, rfl, ?_, ?_⟩)⟩
    · funext i
      by_cases hi : i < w.dt.slots
      · exact if_pos hi
      · exact (if_neg hi).trans (ht i (hs.fatNum_lt_slots.le.trans (not_lt.mp hi))).symm
    · intro k hk
      refine if_pos ?_
      simp only [BYTSPERSEC]
      omega

/-- `extend` on the doubled size either leaves the image alone or grows it. -/
theorem wp_extend {w : World} (hs : Sized w.dt) (ht : TopFree w.dt) :
    wpOr H (extend (u32 (w.dt.dtSize * 2)))
      (fun _ w' => (Grows w.dt w'.dt ∧ Later w.env w'.env ∧ w'.ipIndex = w.ipIndex) ∧
        (w.dt.dtSize < 2 ^ 31 → w.env.heap .extend 0 ≠ none → w'.dt.dtSize = 2 * w.dt.dtSize))
      w := by
  have he := hs.exact
  have hlt := hs.lt
  have hdouble : w.dt.dtSize < 2 ^ 31 → u32 (w.dt.dtSize * 2) = w.dt.dtSize * 2 :=
    fun hhalf => Nat.mod_eq_of_lt (by omega)
  obtain ⟨N, hN⟩ : ∃ N, u32 (w.dt.dtSize * 2) = N * 512 := by
    refine ⟨u32 (w.dt.dtSize * 2) / 512, ?_⟩
    unfold u32
    omega
  have hNlt : N < 2 ^ 23 := by
    have : u32 (w.dt.dtSize * 2) < 2 ^ 32 := Nat.mod_lt _ (by decide)
    omega
  rw [hN] at hdouble ⊢
  refine wp_mono (wp_extendTo hs ht hNlt) ?_
  rintro r w' ⟨hl, hip, ⟨-, hsize, hdt⟩ | ⟨-, hnone, hdt⟩ | ⟨-, hen⟩⟩
  · refine ⟨⟨by rw [hdt]; exact Grows.refl hs, hl, hip⟩, fun hhalf _ => ?_⟩
    have := hdouble hhalf
    omega
  · exact ⟨⟨by rw [hdt]; exact Grows.refl hs, hl, hip⟩, fun _ h => absurd hnone h⟩
  · refine ⟨⟨hen.grows, hl, hip⟩, fun hhalf _ => ?_⟩
    rw [hen.dtSize, hdouble hhalf, Nat.mul_comm]

theorem nextFreeFatFrom_some {fat : Nat → Nat} {n i k : Nat}
    (h : nextFreeFatFrom fat n i = some k) :
    i ≤ k ∧ k < i + n ∧ fat k = 0 ∧ ∀ j, i ≤ j → j < k → fat j ≠ 0 := by
  induction n generalizing i with
  | zero => cases h
  | succ n ih =>
    rw [nextFreeFatFrom] at h
    split at h
    · rename_i hf
      cases h
      exact ⟨Nat.le_refl _, by omega, hf, fun j h1 h2 => absurd h1 (not_le.mpr h2)⟩
    · rename_i hf
      obtain ⟨h1, h2, h3, h4⟩ := ih h
      refine ⟨by omega, by omega, h3, fun j hj hjk => ?_⟩
      rcases Nat.eq_or_lt_of_le hj with rfl | hlt
      · exact hf
      · exact h4 j hlt hjk

/-- What `next_free_fat` finds is the first free usable slot at or behind `base`. -/
theorem nextFreeFat_some {fat : Nat → Nat} {base fatNum k : Nat}
    (h : nextFreeFat base fat fatNum = some k) :
    base ≤ k ∧ k < fatNum ∧ fat k = 0 ∧ ∀ j, base ≤ j → j < k → fat j ≠ 0 := by
  obtain ⟨h1, h2, h3, h4⟩ := nextFreeFatFrom_some h
  exact ⟨h1, by omega, h3, h4⟩

/-- A slot the retry loop settles on: free, usable, and found without losing anything. -/
structure Found (base : Nat) (w : World) (k : Nat) (w' : World) : Prop where
  grows : Grows w.dt w'.dt
  later : Later w.env w'.env
  ipIndex : w'.ipIndex = w.ipIndex
  base_le : base ≤ k
  lt : k < w'.dt.sb.fatNum
  free : w.dt.fat k = 0
  first : ∀ j, base ≤ j → j < k → w.dt.fat j ≠ 0

/-- The usable sectors of an image of 2^31 bytes. -/
def slotLimit : Nat := 4161535

/-- The image has the slot already, or has it once it has grown to 2^31 bytes. -/
def Affords (dt : Dtree) (k : Nat) : Prop := k < dt.sb.fatNum ∨ k < slotLimit

theorem Affords.grows {dt dt' : Dtree} {k : Nat} (h : Affords dt k) (hg : Grows dt dt') :
    Affords dt' k :=
  h.imp_left fun hk => hk.trans_le hg.fatNum_le

/-- A slot that an image lacks and can still get leaves room for doubling it. -/
theorem Affords.small {dt : Dtree} {k : Nat} (h : Affords dt k) (hs : Sized dt)
    (hk : dt.sb.fatNum ≤ k) : dt.dtSize < 2 ^ 31 := by
  have he := hs.exact
  have hf := hs.fatSec
  have hlt : k < 4161535 := h.resolve_left (not_lt.mpr hk)
  omega

/-- There is a free slot at or behind `base` that the image can afford. -/
def Free (dt : Dtree) (base : Nat) : Prop := ∃ k, base ≤ k ∧ dt.fat k = 0 ∧ Affords dt k

/-- The slot that a search from the start of the FAT takes. -/
def FirstFree (dt : Dtree) (k : Nat) : Prop := dt.fat k = 0 ∧ ∀ i, i < k → dt.fat i ≠ 0

theorem FirstFree.unique {dt : Dtree} {k k' : Nat} (h : FirstFree dt k) (h' : FirstFree dt k') :
    k = k' := by
  rcases Nat.lt_trichotomy k k' with hlt | heq | hgt
  · exact absurd h.1 (h'.2 k hlt)
  · exact heq
  · exact absurd h'.1 (h.2 k' hgt)

theorem nextFreeFatFrom_none {fat : Nat → Nat} {n i : Nat} (h : nextFreeFatFrom fat n i = none) :
    ∀ k, i ≤ k → k < i + n → fat k ≠ 0 := by
  induction n generalizing i with
  | zero =>
    intro k h1 h2
    omega
  | succ n ih =>
    rw [nextFreeFatFrom] at h
    split at h
    · cases h
    · rename_i hf
      intro k h1 h2
      rcases Nat.eq_or_lt_of_le h1 with rfl | hlt
      · exact hf
      · exact ih h k hlt (by omega)

/-- The retry loop settles on a slot. It ends because every round doubles the image. -/
theorem wp_findSlot {base n : Nat} {w : World} (hs : Sized w.dt) (ht : TopFree w.dt)
    (hH : H ∨ (2 ^ 32 ≤ w.dt.dtSize * 2 ^ n ∧ Env.Succeeds w.env .extend ∧ Free w.dt base)) :
    wpOr H (findSlot base n) (Found base w) w := by
  induction n generalizing w with
  | zero =>
    rcases hH with hH | ⟨hn, -, -⟩
    · exact hH
    · have hlt := hs.lt
      omega
  | succ n ih =>
    rw [findSlot]
    simp only [wp_bind, wp_getDt]
    cases hf : nextFreeFat base w.dt.fat w.dt.sb.fatNum with
    | some k =>
      obtain ⟨h1, h2, h3, h4⟩ := nextFreeFat_some hf
      exact ⟨Grows.refl hs, Later.refl _, rfl, h1, h2, h3, h4⟩
    | none =>
      refine wp_call (wp_extend hs ht) fun _ w' hext => ?_
      obtain ⟨⟨hg, hl, hip⟩, hdouble⟩ := hext
      have hH' : H ∨ (2 ^ 32 ≤ w'.dt.dtSize * 2 ^ n ∧ Env.Succeeds w'.env .extend ∧
          Free w'.dt base) := by
        refine hH.imp_right fun h => ?_
        obtain ⟨hn, hmem, k, hbase, hfree, haff⟩ := h
        have hk : w.dt.sb.fatNum ≤ k := by
          by_contra hlt
          exact nextFreeFatFrom_none hf k hbase (by omega) hfree
        refine ⟨?_, hmem.later hl, k, hbase, by rw [hg.fat]; exact hfree, haff.grows hg⟩
        rw [hdouble (haff.small hs hk) (hmem 0), Nat.mul_comm 2, Nat.mul_assoc, ← pow_succ']
        exact hn
      refine wp_mono (ih hg.sized (hg.topFree ht) hH') fun k w'' h => ?_
      exact ⟨hg.trans h.grows, hl.trans h.later, h.ipIndex.trans hip, h.base_le, h.lt,
        by rw [← hg.fat]; exact h.free, by rw [← hg.fat]; exact h.first⟩

theorem wp_findFreeSlot {base : Nat} {w : World} (hs : Sized w.dt) (ht : TopFree w.dt)
    (hH : H ∨ (Ample w.env ∧ Free w.dt base)) :
    wpOr H (findFreeSlot base) (Found base w) w := by
  unfold findFreeSlot
  simp only [wp_bind, wp_get]
  refine wp_findSlot hs ht (hH.imp_right fun h => ⟨?_, h.1.heap .extend, h.2⟩)
  have he := hs.exact
  have hfuel := h.1.fuel
  have hpow : 2 ^ 32 ≤ 2 ^ w.env.fuel := Nat.pow_le_pow_right (by decide) (by omega)
  exact hpow.trans (Nat.le_mul_of_pos_left _ (by omega))

/-- The table with the chain `cs` freed. -/
def freed (dt : Dtree) (cs : List Nat) : Dtree := { dt with fat := cleared dt.fat cs 0 }

theorem wp_resetFatLoop {n : Nat} {a : Nat} {cs : List Nat} {w : World}
    (hc : Linked w.dt.fat ENDSEC (a :: cs)) (hb : ∀ c ∈ a :: cs, c < w.dt.slots)
    (he : ENDSEC ∉ a :: cs) (hH : H ∨ (a :: cs).length < n) :
    wpOr H (resetFatLoop n a) (fun _ w' => w' = { w with dt := freed w.dt (a :: cs) }) w := by
  induction cs generalizing n a w with
  | nil =>
    cases n with
    | zero => exact hH.resolve_right (Nat.not_lt_zero _)
    | succ n =>
      have ha : a ≠ ENDSEC := fun h => he (by simp [h])
      have hnext : w.dt.fat a = ENDSEC := hc
      simp only [resetFatLoop, if_neg ha, wp_bind, wp_readFat, wp_writeFat, hnext]
      refine ⟨hb a (by simp), hb a (by simp), ?_⟩
      cases n with
      | zero => exact hH.resolve_right (by simp)
      | succ n =>
        simp only [resetFatLoop, if_true, wp_pure, freed, setFat]
        congr 2
        funext i
        simp [cleared]
  | cons b cs ih =>
    cases n with
    | zero => exact hH.resolve_right (Nat.not_lt_zero _)
    | succ n =>
      have ha : a ≠ ENDSEC := fun h => he (by simp [h])
      have hnot : a ∉ b :: cs := (List.nodup_cons.mp (hc.nodup he)).1
      simp only [resetFatLoop, if_neg ha, wp_bind, wp_readFat, wp_writeFat, hc.1]
      refine ⟨hb a (by simp), hb a (by simp), ?_⟩
      have hlink : Linked (setFat w.dt a 0).fat ENDSEC (b :: cs) :=
        hc.2.congr fun c hcm => by
          have hca : c ≠ a := fun h => hnot (h ▸ hcm)
          simp [setFat, hca]
      refine wp_mono (ih (w := { w with dt := setFat w.dt a 0 }) hlink
        (fun c hcm => hb c (List.mem_cons_of_mem _ hcm))
        (fun hm => he (List.mem_cons_of_mem _ hm)) (hH.imp_right Nat.lt_of_succ_lt_succ)) ?_
      rintro _ _ rfl
      simp only [freed, setFat]
      congr 2
      funext i
      by_cases hi : i = a
      · subst hi
        simp [cleared]
      · simp [cleared, hi]

/-- `reset_fat` on the first cell of a chain frees exactly the chain. -/
theorem wp_resetFat {a : Nat} {cs : List Nat} {w : World}
    (hc : Linked w.dt.fat ENDSEC (a :: cs)) (hb : ∀ c ∈ a :: cs, c < w.dt.slots)
    (he : ENDSEC ∉ a :: cs) (hH : H ∨ (a :: cs).length < w.env.fuel) :
    wpOr H (resetFat a) (fun _ w' => w' = { w with dt := freed w.dt (a :: cs) }) w := by
  unfold resetFat
  simp only [wp_bind, wp_get]
  exact wp_resetFatLoop hc hb he hH

end Total

end Sbpfs.Cfs.FatSpec
