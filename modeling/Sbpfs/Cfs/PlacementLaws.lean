import Mathlib.Data.List.Dedup
import Mathlib.Data.List.Perm.Subperm
import Sbpfs.Cfs.Data

/-!
# Where the copies of a block go

`alloc_block` takes the addresses that follow in the list, from the counter of `gen_ip_index` on,
and compares them with the first one only.
-/
namespace Sbpfs.Cfs.PlacementLaws

open Sbpfs.Lib.Program Sbpfs.Cfs.Layout Sbpfs.Cfs.Data

/-! ## The addresses drawn -/

/-- The counter after `j` draws. -/
def counter (c : Int) : Nat → Int
  | 0 => c
  | j + 1 => s32 ((counter c j + 1) % 2 ^ 32).toNat

/-- The index of draw `j`. -/
def index (ips : List Nat) (c : Int) (j : Nat) : Int := (counter c j).tmod ips.length

def InList (ips : List Nat) (k : Int) : Prop := 0 ≤ k ∧ k < ips.length

instance (ips : List Nat) (k : Int) : Decidable (InList ips k) := by
  unfold InList
  infer_instance

/-- What draw `j` reads; behind the list it is whatever is there. -/
def drawn (ips : List Nat) (w : World) (j : Nat) : Nat :=
  let k := index ips w.ipIndex j
  if 0 ≤ k then (ips[k.toNat]?).getD (w.env.stray k) else w.env.stray k

/-- The addresses that are stored. -/
def stored (ips : List Nat) (w : World) : List Nat :=
  if drawn ips w 1 = drawn ips w 0 then [drawn ips w 0, 0, 0]
  else if drawn ips w 2 = drawn ips w 0 then [drawn ips w 0, drawn ips w 1, 0]
  else [drawn ips w 0, drawn ips w 1, drawn ips w 2]

/-- How many draws are made. -/
def draws (ips : List Nat) (w : World) : Nat := if drawn ips w 1 = drawn ips w 0 then 2 else 3

variable {ips : List Nat} {w : World}

theorem nextIp_eq (hips : ips ≠ []) (w : World) (j : Nat) :
    nextIp ips { w with ipIndex := counter w.ipIndex j }
      = .ok (drawn ips w j, { w with ipIndex := counter w.ipIndex (j + 1) }) := by
  have hlen : ips.length ≠ 0 := fun h => hips (List.length_eq_zero_iff.mp h)
  have hgen : genIpIndex ips.length { w with ipIndex := counter w.ipIndex j }
      = .ok (index ips w.ipIndex j, { w with ipIndex := counter w.ipIndex (j + 1) }) := by
    unfold genIpIndex
    simp only [if_neg hlen]
    rfl
  refine bind_ok.mpr ⟨_, _, hgen, ?_⟩
  unfold drawn
  dsimp only
  by_cases hk : 0 ≤ index ips w.ipIndex j
  · simp only [if_pos hk]
    rfl
  · simp only [if_neg hk]
    rfl

theorem allocIps_stop {first n : Nat} {t t' : World} (h : nextIp ips t = .ok (first, t')) :
    allocIps ips first (n + 1) t = .ok (List.replicate (n + 1) 0, t') := by
  rw [allocIps]
  refine bind_ok.mpr ⟨_, _, h, ?_⟩
  rw [if_pos rfl]
  rfl

theorem allocIps_go {first ip n : Nat} {rest : List Nat} {t t' t'' : World}
    (h : nextIp ips t = .ok (ip, t')) (hne : ip ≠ first)
    (hrest : allocIps ips first n t' = .ok (rest, t'')) :
    allocIps ips first (n + 1) t = .ok (ip :: rest, t'') := by
  rw [allocIps]
  refine bind_ok.mpr ⟨_, _, h, ?_⟩
  rw [if_neg hne]
  exact bind_ok.mpr ⟨_, _, hrest, rfl⟩

theorem allocBlock_of_rest {first : Nat} {rest : List Nat} {t t' : World}
    (h : nextIp ips w = .ok (first, t)) (hrest : allocIps ips first 2 t = .ok (rest, t')) :
    ∃ w', allocBlock ips w = .ok ((t'.dt.sb.maxBlockNum, first :: rest), w') ∧
      w'.ipIndex = t'.ipIndex := by
  refine ⟨_, bind_ok.mpr ⟨_, _, h, bind_ok.mpr ⟨_, _, hrest, rfl⟩⟩, rfl⟩

/-- What `alloc_block` stores, and how far it moves the counter. -/
theorem allocBlock_eq (hips : ips ≠ []) (w : World) :
    ∃ w', allocBlock ips w = .ok ((w.dt.sb.maxBlockNum, stored ips w), w') ∧
      w'.ipIndex = counter w.ipIndex (draws ips w) := by
  have h0 := nextIp_eq hips w 0
  have h1 := nextIp_eq hips w 1
  have h2 := nextIp_eq hips w 2
  unfold stored draws
  by_cases hsecond : drawn ips w 1 = drawn ips w 0
  · rw [if_pos hsecond, if_pos hsecond]
    rw [hsecond] at h1
    exact allocBlock_of_rest h0 (allocIps_stop h1)
  · rw [if_neg hsecond, if_neg hsecond]
    by_cases hthird : drawn ips w 2 = drawn ips w 0
    · rw [if_pos hthird]
      rw [hthird] at h2
      exact allocBlock_of_rest h0 (allocIps_go h1 hsecond (allocIps_stop h2))
    · rw [if_neg hthird]
      exact allocBlock_of_rest h0 (allocIps_go h1 hsecond (allocIps_go h2 hthird rfl))

/-! ## Placement -/

/-- Every index is in the list, and as many different addresses are stored as there can be. -/
def Placed (ips : List Nat) (w : World) : Prop :=
  ∃ num addrs w' k, allocBlock ips w = .ok ((num, addrs), w') ∧
    k ≤ 3 ∧ w'.ipIndex = counter w.ipIndex k ∧ (∀ j < k, InList ips (index ips w.ipIndex j)) ∧
    (addrs.filter (· ≠ 0)).Nodup ∧
    (addrs.filter (· ≠ 0)).length = min 3 ips.dedup.length

/-- The three addresses that follow in the list fit the number of different ones. -/
def WindowFits (ips : List Nat) (w : World) : Prop :=
  (drawn ips w 1 = drawn ips w 0 ∧ ips.dedup.length = 1) ∨
    (drawn ips w 1 ≠ drawn ips w 0 ∧ drawn ips w 2 = drawn ips w 0 ∧ ips.dedup.length = 2) ∨
    [drawn ips w 0, drawn ips w 1, drawn ips w 2].Nodup

/-- The counter is not at a place where it gives an index outside the list. -/
def InBounds (ips : List Nat) (w : World) : Prop :=
  InList ips (index ips w.ipIndex 0) ∧ InList ips (index ips w.ipIndex 1) ∧
    (drawn ips w 1 = drawn ips w 0 ∨ InList ips (index ips w.ipIndex 2))

theorem drawn_mem {j : Nat} (h : InList ips (index ips w.ipIndex j)) : drawn ips w j ∈ ips := by
  have hlt : (index ips w.ipIndex j).toNat < ips.length := by
    have := h.2
    have := h.1
    omega
  unfold drawn
  dsimp only
  rw [if_pos h.1, List.getElem?_eq_getElem hlt]
  exact List.getElem_mem hlt

theorem length_le_dedup {s : List Nat} (hs : s.Nodup) (hsub : s ⊆ ips) :
    s.length ≤ ips.dedup.length :=
  (List.subperm_of_subset hs fun _ ha => List.mem_dedup.mpr (hsub ha)).length_le

theorem counter_emod (c : Int) (j : Nat) : counter c j % 2 ^ 32 = (c + j) % 2 ^ 32 := by
  induction j with
  | zero => simp [counter]
  | succ j ih =>
    have hwrap : ∀ z : Int, s32 (z % 2 ^ 32).toNat % 2 ^ 32 = z % 2 ^ 32 := by
      intro z
      unfold s32
      split <;> omega
    rw [counter, hwrap]
    omega

/-- The counter tells how many draws there were. -/
theorem counter_inj {c : Int} {j k : Nat} (hj : j ≤ 3) (hk : k ≤ 3)
    (h : counter c j = counter c k) : j = k := by
  have h1 := counter_emod c j
  have h2 := counter_emod c k
  rw [h] at h1
  omega

theorem draws_le (ips : List Nat) (w : World) : draws ips w ≤ 3 := by
  unfold draws
  split <;> omega

/-- The indices of a call are in the list just when `InBounds` says so. -/
theorem inBounds_iff (ips : List Nat) (w : World) :
    (∀ j < draws ips w, InList ips (index ips w.ipIndex j)) ↔ InBounds ips w := by
  unfold draws InBounds
  by_cases hsecond : drawn ips w 1 = drawn ips w 0
  · rw [if_pos hsecond]
    constructor
    · intro h
      exact ⟨h 0 (by omega), h 1 (by omega), .inl hsecond⟩
    · intro h j hj
      rcases (by omega : j = 0 ∨ j = 1) with rfl | rfl
      · exact h.1
      · exact h.2.1
  · rw [if_neg hsecond]
    constructor
    · intro h
      exact ⟨h 0 (by omega), h 1 (by omega), .inr (h 2 (by omega))⟩
    · intro h j hj
      rcases (by omega : j = 0 ∨ j = 1 ∨ j = 2) with rfl | rfl | rfl
      · exact h.1
      · exact h.2.1
      · exact h.2.2.resolve_left hsecond

/-- With the indices in the list the copies are as many as they can be just when the window
fits. -/
theorem stored_iff (hnonzero : ∀ a ∈ ips, a ≠ 0) (hin : InBounds ips w) :
    (((stored ips w).filter (· ≠ 0)).Nodup ∧
      ((stored ips w).filter (· ≠ 0)).length = min 3 ips.dedup.length) ↔ WindowFits ips w := by
  have hmem0 := drawn_mem hin.1
  have hmem1 := drawn_mem hin.2.1
  have h0 := hnonzero _ hmem0
  have h1 := hnonzero _ hmem1
  unfold stored WindowFits
  by_cases hsecond : drawn ips w 1 = drawn ips w 0
  · have hpos : 1 ≤ ips.dedup.length :=
      length_le_dedup (List.nodup_singleton (drawn ips w 0)) (by simpa)
    simp [hsecond, h0]
    omega
  · have hmem2 := drawn_mem (hin.2.2.resolve_left hsecond)
    have h2 := hnonzero _ hmem2
    have hsecond' : drawn ips w 0 ≠ drawn ips w 1 := fun h => hsecond h.symm
    by_cases hthird : drawn ips w 2 = drawn ips w 0
    · have hpair : 2 ≤ ips.dedup.length :=
        length_le_dedup (s := [drawn ips w 0, drawn ips w 1]) (by simpa using hsecond')
          (by simp [hmem0, hmem1])
      simp [hsecond, hsecond', hthird, h0, h1]
      omega
    · have hthird' : drawn ips w 0 ≠ drawn ips w 2 := fun h => hthird h.symm
      by_cases hlast : drawn ips w 1 = drawn ips w 2
      · simp [hthird, hthird', h0, h2, hlast]
      · have htriple : 3 ≤ ips.dedup.length :=
          length_le_dedup (s := [drawn ips w 0, drawn ips w 1, drawn ips w 2])
            (by simp [hsecond', hthird', hlast]) (by simp [hmem0, hmem1, hmem2])
        simp [hsecond, hsecond', hthird, hthird', h0, h1, h2, hlast]
        omega

theorem fits_of_placed (hips : ips ≠ []) (hnonzero : ∀ a ∈ ips, a ≠ 0) (h : Placed ips w) :
    InBounds ips w ∧ WindowFits ips w := by
  obtain ⟨w', hrun, hcounter⟩ := allocBlock_eq hips w
  obtain ⟨num, addrs, w'', k, hrun', hk, hcounter', hin, hnodup, hlen⟩ := h
  rw [hrun] at hrun'
  cases hrun'
  obtain rfl : draws ips w = k := counter_inj (draws_le ips w) hk (hcounter.symm.trans hcounter')
  have hbounds := (inBounds_iff ips w).mp hin
  exact ⟨hbounds, (stored_iff hnonzero hbounds).mp ⟨hnodup, hlen⟩⟩

theorem placed_of_fits (hips : ips ≠ []) (hnonzero : ∀ a ∈ ips, a ≠ 0) (hbounds : InBounds ips w)
    (hfits : WindowFits ips w) : Placed ips w := by
  obtain ⟨w', hrun, hcounter⟩ := allocBlock_eq hips w
  obtain ⟨hnodup, hlen⟩ := (stored_iff hnonzero hbounds).mpr hfits
  exact ⟨_, _, w', draws ips w, hrun, draws_le ips w, hcounter, (inBounds_iff ips w).mpr hbounds,
    hnodup, hlen⟩

/-- The copies of a new block are placed as they should be just when the counter gives indices
in the list and the addresses there fit. -/
theorem placed_iff (hips : ips ≠ []) (hnonzero : ∀ a ∈ ips, a ≠ 0) :
    Placed ips w ↔ InBounds ips w ∧ WindowFits ips w := by
  constructor
  · intro h
    exact fits_of_placed hips hnonzero h
  · intro h
    exact placed_of_fits hips hnonzero h.1 h.2

/-- A process whose counter stands at `c`. -/
def atCounter (c : Int) : World :=
  ⟨⟨⟨0, 0, 0, 0⟩, fun _ => 0, fun _ _ => 0, 0⟩, c, ⟨0, 0, fun _ _ => none, fun _ => 0⟩⟩

theorem placed_shared : Placed [5, 6, 5] (atCounter 0) :=
  (placed_iff (by decide) (by decide)).mpr
    ⟨⟨by decide, by decide, .inr (by decide)⟩, .inr (.inl ⟨by decide, by decide, by decide⟩)⟩

/-- Of two nodes with one address and a third only one gets the block, and when the counter has
wrapped an index is outside the list. -/
theorem not_placed :
    ¬ Placed [5, 5, 6] (atCounter 0) ∧ ¬ Placed [5, 6, 7] (atCounter (2 ^ 31 - 1)) := by
  constructor
  · intro h
    obtain ⟨-, hfits⟩ := fits_of_placed (by decide) (by decide) h
    rcases hfits with ⟨-, hone⟩ | ⟨hne, -⟩ | hnodup
    · exact absurd hone (by decide)
    · exact hne (by decide)
    · exact absurd hnodup (by decide)
  · intro h
    obtain ⟨⟨-, hin, -⟩, -⟩ := fits_of_placed (by decide) (by decide) h
    exact absurd hin (by decide)

/-! ## Nodes with addresses of their own -/

theorem counter_of_small {c : Int} {j : Nat} (h0 : 0 ≤ c) (h : c + j < 2 ^ 31) :
    counter c j = c + j := by
  induction j with
  | zero => simp [counter]
  | succ j ih =>
    rw [counter, ih (by omega)]
    unfold s32
    rw [if_pos (by omega)]
    omega

/-- Below the end of the int range draw `j` is the entry at the counter's place. -/
theorem drawn_of_small (hips : ips ≠ []) {j : Nat} (h0 : 0 ≤ w.ipIndex)
    (h : w.ipIndex + j < 2 ^ 31) :
    InList ips (index ips w.ipIndex j) ∧
      ips[(w.ipIndex.toNat + j) % ips.length]? = some (drawn ips w j) := by
  have hpos := List.length_pos_iff.mpr hips
  have hindex : index ips w.ipIndex j = ((w.ipIndex.toNat + j) % ips.length : Nat) := by
    have hsum : w.ipIndex + j = ((w.ipIndex.toNat + j : Nat) : Int) := by omega
    rw [index, counter_of_small h0 h, Int.tmod_eq_emod_of_nonneg (by omega), hsum]
    rfl
  have hlt := Nat.mod_lt (w.ipIndex.toNat + j) hpos
  refine ⟨⟨by omega, by omega⟩, ?_⟩
  unfold drawn
  dsimp only
  rw [hindex, if_pos (by omega), Int.toNat_natCast, List.getElem?_eq_getElem hlt]
  rfl

/-- Places less than a round apart are different. -/
theorem place_ne {c n i j : Nat} (hij : i < j) (hj : j < i + n) : (c + i) % n ≠ (c + j) % n := by
  intro h
  have hzero : (c + j - (c + i)) % n = 0 := Nat.sub_mod_eq_zero_of_mod_eq h.symm
  have hle : n ≤ c + j - (c + i) := Nat.le_of_dvd (by omega) (Nat.dvd_of_mod_eq_zero hzero)
  omega

/-- Where no two nodes share an address and the counter is not at the end of its range, a block
gets its copies. -/
theorem placed_of_nodup (hips : ips ≠ []) (hnonzero : ∀ a ∈ ips, a ≠ 0) (hnodup : ips.Nodup)
    (h0 : 0 ≤ w.ipIndex) (h2 : w.ipIndex + 2 < 2 ^ 31) : Placed ips w := by
  have hpos := List.length_pos_iff.mpr hips
  obtain ⟨hin0, hat0⟩ := drawn_of_small (j := 0) hips h0 (by omega)
  obtain ⟨hin1, hat1⟩ := drawn_of_small (j := 1) hips h0 (by omega)
  obtain ⟨hin2, hat2⟩ := drawn_of_small (j := 2) hips h0 (by omega)
  have hne : ∀ {i j x y : Nat}, i < j → j < i + ips.length →
      ips[(w.ipIndex.toNat + i) % ips.length]? = some x →
      ips[(w.ipIndex.toNat + j) % ips.length]? = some y → x ≠ y := by
    intro i j x y hij hj hx hy hxy
    rw [hxy, ← hy] at hx
    exact place_ne hij hj ((List.getElem?_inj (Nat.mod_lt _ hpos) hnodup).mp hx)
  refine placed_of_fits hips hnonzero ⟨hin0, hin1, .inr hin2⟩ ?_
  rw [WindowFits, List.dedup_eq_self.mpr hnodup]
  rcases (by omega : ips.length = 1 ∨ ips.length = 2 ∨ 3 ≤ ips.length) with hlen | hlen | hlen
  · refine .inl ⟨?_, hlen⟩
    rw [hlen, Nat.mod_one] at hat0 hat1
    exact Option.some.inj (hat1.symm.trans hat0)
  · refine .inr (.inl ⟨(hne (by omega) (by omega) hat0 hat1).symm, ?_, hlen⟩)
    rw [hlen, Nat.add_mod_right] at hat2
    rw [hlen, Nat.add_zero] at hat0
    exact Option.some.inj (hat2.symm.trans hat0)
  · refine .inr (.inr ?_)
    have h01 := hne (by omega) (by omega) hat0 hat1
    have h02 := hne (by omega) (by omega) hat0 hat2
    have h12 := hne (by omega) (by omega) hat1 hat2
    simp [h01, h02, h12]

end Sbpfs.Cfs.PlacementLaws
