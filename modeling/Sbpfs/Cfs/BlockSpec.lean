import Sbpfs.Cfs.Data
import Sbpfs.Cfs.ObjectSpec

/-!
# Counting and allocating blocks

The block numbers `c_read` and `c_write` compute in unsigned and signed machine
integers are the mathematical ones as long as a range ends below `MAX_END`. The last
loop of `c_write` appends one record for each new block.
-/
namespace Sbpfs.Cfs.BlockSpec

open Sbpfs.Lib.Program Sbpfs.Lib.Memory
open Sbpfs.Cfs.Layout Sbpfs.Cfs.Rules Sbpfs.Cfs.Image Sbpfs.Cfs.Data Sbpfs.Cfs.LookupSpec
open Sbpfs.Spec.FileTree

/-- The largest end of a range whose number of blocks fits a signed int. -/
def MAX_END : Nat := (2 ^ 31 - 1) * BLOCKSIZE

theorem MAX_END_lt : MAX_END < 2 ^ 64 := by decide

theorem blocksFor_eq (n : Nat) : blocksFor n = (n + 16777215) / 16777216 := rfl

theorem blocksFor_mono {a b : Nat} (h : a ≤ b) : blocksFor a ≤ blocksFor b := by
  simp only [blocksFor_eq]
  omega

theorem blocksFor_max {n : Nat} (h : n ≤ MAX_END) : blocksFor n < 2 ^ 31 := by
  simp only [blocksFor_eq, MAX_END, BLOCKSIZE] at h ⊢
  omega

theorem upDiv_blocks {n : Nat} (h : n ≤ MAX_END) : upDiv n BLOCKSIZE = blocksFor n := by
  simp only [upDiv, u64, blocksFor_eq, MAX_END, BLOCKSIZE] at h ⊢
  omega

theorem s32_sub {a b : Nat} (ha : a < 2 ^ 31) (hb : b < 2 ^ 31) :
    s32 (u64Sub a b) = (a : Int) - b := by
  unfold s32 u64Sub
  split <;> omega

/-- The quotient of the wrapped difference of two multiples of the block size. -/
theorem s32_blocks {k q : Nat} (hk : k < 2 ^ 31) (hq : q < 2 ^ 31) (h : q ≤ k + 1) :
    s32 (u64Sub (k * BLOCKSIZE) (q * BLOCKSIZE) / BLOCKSIZE) = (k : Int) - q := by
  simp only [BLOCKSIZE]
  by_cases hle : q ≤ k
  · have hsub : u64Sub (k * 16777216) (q * 16777216) / 16777216 = k - q := by
      unfold u64Sub
      omega
    rw [hsub]
    unfold s32
    split <;> omega
  · have hsub : u64Sub (k * 16777216) (q * 16777216) / 16777216 = 2 ^ 40 - 1 := by
      unfold u64Sub
      omega
    rw [hsub]
    unfold s32
    split <;> omega

/-- Rounding the ends of a range outwards, one block at a time. -/
theorem range_arith (a b : Nat) :
    (if b ≠ b / BLOCKSIZE * BLOCKSIZE then
      (if a ≠ blocksFor a * BLOCKSIZE then (b / BLOCKSIZE : Nat) - (blocksFor a : Int) + 1
        else (b / BLOCKSIZE : Nat) - (blocksFor a : Int)) + 1
      else if a ≠ blocksFor a * BLOCKSIZE then (b / BLOCKSIZE : Nat) - (blocksFor a : Int) + 1
        else (b / BLOCKSIZE : Nat) - (blocksFor a : Int))
      = (blocksFor b : Int) - (a / BLOCKSIZE : Nat) := by
  have ha : blocksFor a = (a + 16777215) / 16777216 := rfl
  have hb : blocksFor b = (b + 16777215) / 16777216 := rfl
  have hB : BLOCKSIZE = 16777216 := rfl
  rw [hB, ha, hb]
  split <;> split <;> omega

/-- The blocks a range touches, counted from the block of its offset. -/
theorem rangeBlocks_eq {offset length : Nat} (h : offset + length ≤ MAX_END) :
    rangeBlocks offset length = (blocksFor (offset + length) : Int)
      - (offset / BLOCKSIZE : Nat) := by
  have hoff : upDiv offset BLOCKSIZE = blocksFor offset := upDiv_blocks (by omega)
  have hend : u64 (length + offset) = offset + length := by
    simp only [u64, MAX_END, BLOCKSIZE] at h ⊢
    omega
  have hend' : u64 (offset + length) = offset + length := by
    rw [Nat.add_comm length] at hend
    exact hend
  have h₁ : u64 (blocksFor offset * BLOCKSIZE) = blocksFor offset * BLOCKSIZE := by
    simp only [u64, blocksFor_eq, MAX_END, BLOCKSIZE] at h ⊢
    omega
  have hnum : s32 (u64Sub ((offset + length) / BLOCKSIZE * BLOCKSIZE)
      (blocksFor offset * BLOCKSIZE) / BLOCKSIZE)
        = ((offset + length) / BLOCKSIZE : Nat) - (blocksFor offset : Int) := by
    refine s32_blocks ?_ (blocksFor_max (by omega)) ?_
    · simp only [MAX_END, BLOCKSIZE] at h ⊢
      omega
    · simp only [blocksFor_eq, BLOCKSIZE]
      omega
  unfold rangeBlocks
  rw [hend, hend', hoff, h₁]
  dsimp only
  rw [hnum]
  exact range_arith offset (offset + length)

theorem firstBlock_le {offset n : Nat} (h : offset ≤ n) : offset / BLOCKSIZE ≤ blocksFor n := by
  simp only [blocksFor_eq, BLOCKSIZE]
  omega

/-- The reply buffer the wrappers allocate holds every range. -/
theorem rangeBlocks_cap (offset length : Nat) :
    blocksFor (offset + length) - offset / BLOCKSIZE ≤ length / BLOCKSIZE + 2 := by
  simp only [blocksFor_eq, BLOCKSIZE]
  omega

/-! ## Allocation -/

section Alloc

variable {w : World} {ips : List Nat} {H : Prop}

/-- The state after blocks were allocated: the counters moved, nothing else. -/
structure Counted (w w' : World) : Prop where
  later : Later w.env w'.env
  fat : w'.dt.fat = w.dt.fat
  data : w'.dt.data = w.dt.data
  dtSize : w'.dt.dtSize = w.dt.dtSize
  fatSecNum : w'.dt.sb.fatSecNum = w.dt.sb.fatSecNum
  fatNum : w'.dt.sb.fatNum = w.dt.sb.fatNum

theorem Counted.refl (w : World) : Counted w w := ⟨Later.refl _, rfl, rfl, rfl, rfl, rfl⟩

theorem Counted.trans {w w' w'' : World} (h : Counted w w') (h' : Counted w' w'') : Counted w w'' :=
  ⟨h.later.trans h'.later, h'.fat.trans h.fat, h'.data.trans h.data, h'.dtSize.trans h.dtSize,
    h'.fatSecNum.trans h.fatSecNum, h'.fatNum.trans h.fatNum⟩

/-- One step of the counter of `gen_ip_index`; while it is in range the address is one of the
list. -/
structure Picked (ips : List Nat) (w : World) (ip : Nat) (w' : World) : Prop where
  counted : Counted w w'
  maxBlockNum : w'.dt.sb.maxBlockNum = w.dt.sb.maxBlockNum
  mem : 0 ≤ w.ipIndex → ip ∈ ips
  next : 0 ≤ w.ipIndex → w.ipIndex + 1 < 2 ^ 31 → w'.ipIndex = w.ipIndex + 1

theorem wp_nextIp (hips : ips ≠ []) : wpOr H (nextIp ips) (Picked ips w) w := by
  have hlen : ips.length ≠ 0 := fun h => hips (List.length_eq_zero_iff.mp h)
  have hpos : (0 : Int) < ips.length := by omega
  unfold nextIp genIpIndex
  simp only [wp_bind, wp_get, wp_ite, if_neg hlen, wp_set, wp_pure]
  have hnext : 0 ≤ w.ipIndex → w.ipIndex + 1 < 2 ^ 31 →
      s32 ((w.ipIndex + 1) % 2 ^ 32).toNat = w.ipIndex + 1 := by
    intro h0 h1
    have hmod : ((w.ipIndex + 1) % 2 ^ 32).toNat = (w.ipIndex + 1).toNat := by
      rw [Int.emod_eq_of_lt (by omega) (by omega)]
    unfold s32
    rw [hmod, if_pos (by omega)]
    omega
  split
  · rename_i hk
    refine ⟨⟨Later.refl _, rfl, rfl, rfl, rfl, rfl⟩, rfl, fun h0 => ?_, hnext⟩
    have hlt : w.ipIndex.tmod ips.length < ips.length := Int.tmod_lt_of_pos _ hpos
    have hidx : (w.ipIndex.tmod ips.length).toNat < ips.length := by omega
    rw [List.getElem?_eq_getElem hidx, Option.getD_some]
    exact List.getElem_mem hidx
  · rename_i hk
    refine ⟨⟨Later.refl _, rfl, rfl, rfl, rfl, rfl⟩, rfl, fun h0 => ?_, hnext⟩
    exact absurd (Int.tmod_nonneg _ h0) hk

/-- `k` picks leave the counter at most `k` further, while it does not wrap. -/
structure Drawn (k : Nat) (w w' : World) : Prop where
  counted : Counted w w'
  maxBlockNum : w'.dt.sb.maxBlockNum = w.dt.sb.maxBlockNum
  next : 0 ≤ w.ipIndex → w.ipIndex + k < 2 ^ 31 → w.ipIndex ≤ w'.ipIndex ∧
    w'.ipIndex ≤ w.ipIndex + k

theorem wp_allocIps (hips : ips ≠ []) (first n : Nat) :
    wpOr H (allocIps ips first n) (fun r w' => r.length = n ∧ Drawn n w w') w := by
  induction n generalizing w with
  | zero => exact ⟨rfl, Counted.refl w, rfl, fun _ _ => ⟨Int.le_refl _, by omega⟩⟩
  | succ n ih =>
    rw [allocIps]
    refine wp_call (wp_nextIp hips) fun ip w₁ hp => ?_
    simp only [wp_ite, wp_bind, wp_pure]
    split
    · refine ⟨by simp, hp.counted, hp.maxBlockNum, fun h0 h1 => ?_⟩
      have := hp.next h0 (by omega)
      omega
    · refine wp_mono ih fun r w₂ hrest => ?_
      obtain ⟨hr, hd⟩ := hrest
      refine ⟨by simp [hr], hp.counted.trans hd.counted, hd.maxBlockNum.trans hp.maxBlockNum,
        fun h0 h1 => ?_⟩
      have hn := hp.next h0 (by omega)
      have := hd.next (by omega) (by omega)
      omega

/-- The state after `k` blocks got the numbers from `maxBlockNum` on. -/
structure Allocated (ips : List Nat) (k : Nat) (w : World) (news : List Rec) (w' : World) :
    Prop where
  counted : Counted w w'
  length : news.length = k
  maxBlockNum : w.dt.sb.maxBlockNum + k < 2 ^ 64 →
    w'.dt.sb.maxBlockNum = w.dt.sb.maxBlockNum + k
  nums : w.dt.sb.maxBlockNum + k < 2 ^ 64 →
    ∀ i r, news[i]? = some r → r.num = w.dt.sb.maxBlockNum + i
  shape : ∀ r ∈ news, r.ip.length = 3
  addr : 0 ≤ w.ipIndex → w.ipIndex + 3 * k < 2 ^ 31 →
    (∀ r ∈ news, ∃ ip ∈ r.ip, ∃ a ∈ ips, ip = a % 2 ^ 32) ∧
      w.ipIndex ≤ w'.ipIndex ∧ w'.ipIndex ≤ w.ipIndex + 3 * k

theorem wp_allocBlock (hips : ips ≠ []) :
    wpOr H (allocBlock ips)
      (fun r w' => r.1 = w.dt.sb.maxBlockNum ∧ r.2.length = 3 ∧ Counted w w' ∧
        w'.dt.sb.maxBlockNum = u64 (w.dt.sb.maxBlockNum + 1) ∧
        (0 ≤ w.ipIndex → w.ipIndex + 3 < 2 ^ 31 →
          (∃ a ∈ ips, r.2.head? = some a) ∧ w.ipIndex ≤ w'.ipIndex ∧ w'.ipIndex
          ≤ w.ipIndex + 3)) w := by
  unfold allocBlock
  refine wp_call (wp_nextIp hips) fun first w₁ hp => ?_
  refine wp_call (wp_allocIps hips first (NR_COPY - 1)) fun rest w₂ ⟨hrest, hd⟩ => ?_
  simp only [wp_bind, wp_getDt, wp_modifyDt, wp_pure]
  have hmax : w₂.dt.sb.maxBlockNum = w.dt.sb.maxBlockNum := hd.maxBlockNum.trans hp.maxBlockNum
  have hc := hp.counted.trans hd.counted
  refine ⟨hmax, by simp [hrest], ⟨hc.later, hc.fat, hc.data, hc.dtSize, hc.fatSecNum, hc.fatNum⟩,
    by rw [hmax], fun h0 h1 => ?_⟩
  have hn := hp.next h0 (by omega)
  have := hd.next (by omega) (by simp only [NR_COPY]; omega)
  simp only [NR_COPY] at this
  exact ⟨⟨first, hp.mem h0, rfl⟩, by omega, by omega⟩

/-- The record of a block with number `num` and addresses `ip`, as the bytes store it. -/
def storedRec (num : Nat) (ip : List Nat) : Rec :=
  ⟨u64 num, [u32 ((ip[0]?).getD 0), u32 ((ip[1]?).getD 0), u32 ((ip[2]?).getD 0)]⟩

/-- The addresses of a stored record are those of the list it was made of. -/
theorem storedRec_addr {num a : Nat} {ip ips : List Nat} (ha : a ∈ ips) (h : ip.head? = some a) :
    ∃ x ∈ (storedRec num ip).ip, ∃ a ∈ ips, x = a % 2 ^ 32 := by
  obtain ⟨rest, rfl⟩ : ∃ rest, ip = a :: rest := by
    cases ip with
    | nil => cases h
    | cons c rest =>
      cases h
      exact ⟨rest, rfl⟩
  exact ⟨u32 a, List.mem_cons_self .., a, ha, rfl⟩

theorem Allocated.nil (ips : List Nat) (w : World) : Allocated ips 0 w [] w where
  counted := Counted.refl w
  length := rfl
  maxBlockNum := fun _ => rfl
  nums := fun _ i r hi => by simp at hi
  shape := fun r hr => by simp at hr
  addr := fun _ _ => ⟨fun r hr => by simp at hr, Int.le_refl _, by omega⟩

/-- One block more in front of `k` others. -/
theorem Allocated.cons {ips : List Nat} {k num : Nat} {ip : List Nat} {news : List Rec}
    {w₁ w' : World} (h : Allocated ips k w₁ news w') (hc : Counted w w₁)
    (hnum : num = w.dt.sb.maxBlockNum) (hmax : w₁.dt.sb.maxBlockNum = u64 (w.dt.sb.maxBlockNum + 1))
    (haddr : 0 ≤ w.ipIndex → w.ipIndex + 3 < 2 ^ 31 →
      (∃ a ∈ ips, ip.head? = some a) ∧ w.ipIndex ≤ w₁.ipIndex ∧ w₁.ipIndex ≤ w.ipIndex + 3) :
    Allocated ips (k + 1) w (storedRec num ip :: news) w' where
  counted := hc.trans h.counted
  length := by rw [List.length_cons, h.length]
  maxBlockNum := by
    intro hlt
    have hw₁ : w₁.dt.sb.maxBlockNum = w.dt.sb.maxBlockNum + 1 := by
      rw [hmax, u64, Nat.mod_eq_of_lt (by omega)]
    rw [h.maxBlockNum (by omega), hw₁]
    omega
  nums := by
    intro hlt i r hi
    have hw₁ : w₁.dt.sb.maxBlockNum = w.dt.sb.maxBlockNum + 1 := by
      rw [hmax, u64, Nat.mod_eq_of_lt (by omega)]
    cases i with
    | zero =>
      cases hi
      simp only [storedRec, hnum, u64, Nat.add_zero]
      exact Nat.mod_eq_of_lt (by omega)
    | succ i =>
      rw [h.nums (by omega) i r hi, hw₁]
      omega
  shape := by
    intro r hr
    rcases List.mem_cons.mp hr with rfl | hr
    · rfl
    · exact h.shape r hr
  addr := by
    intro h0 hlt
    obtain ⟨⟨a, ha, hip⟩, hge, hle⟩ := haddr h0 (by omega)
    obtain ⟨hrest, hge', hle'⟩ := h.addr (by omega) (by omega)
    refine ⟨fun r hr => ?_, by omega, by omega⟩
    rcases List.mem_cons.mp hr with rfl | hr
    · exact storedRec_addr ha hip
    · exact hrest r hr

theorem Allocated.after {ips : List Nat} {k : Nat} {w₀ w₁ : World} {news : List Rec}
    (h : Allocated ips k w₀ news w₁) (hs : Same w w₀) : Allocated ips k w news w₁ := by
  have hc : Counted w w₀ := by
    refine ⟨hs.later, ?_, ?_, ?_, ?_, ?_⟩ <;> rw [hs.dt]
  have hmax : w₀.dt.sb.maxBlockNum = w.dt.sb.maxBlockNum := by rw [hs.dt]
  refine ⟨hc.trans h.counted, h.length, ?_, ?_, h.shape, ?_⟩
  · rw [← hmax]
    exact h.maxBlockNum
  · rw [← hmax]
    exact h.nums
  · rw [← hs.ipIndex]
    exact h.addr

end Alloc

end Sbpfs.Cfs.BlockSpec
