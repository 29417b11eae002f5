import Sbpfs.Cfs.Mkfs

/-!
# Growing the image and rewriting a chain

Total versions of what `extend` and `do_writefile` do: from a well-formed disk, with
memory and room enough, they return, and change nothing but what they are for.
-/
namespace Sbpfs.Cfs.ChainLaws

open Sbpfs.Lib.Program Sbpfs.Lib.Memory Sbpfs.Lib.Chain
open Sbpfs.Cfs.Layout Sbpfs.Cfs.Rules Sbpfs.Cfs.Fat Sbpfs.Cfs.FatSpec Sbpfs.Cfs.File
open Sbpfs.Cfs.FileSpec Sbpfs.Cfs.DiskStore Sbpfs.Cfs.Mkfs Sbpfs.Spec.FileTree

/-! ## Growing the image -/

/-- The first byte of data sector `k` in the image. -/
def sectorAddr (dt : Dtree) (k : Nat) : Nat :=
  BYTSPERSEC + dt.sb.fatSecNum * BYTSPERSEC + k * BYTSPERSEC

/-- What an `extend` to `newsize` bytes has to leave of the image `dt`. -/
structure Preserves (dt dt' : Dtree) (newsize : Nat) : Prop where
  dtSize : dt'.dtSize = newsize
  oldSlots : ∀ i, i < dt.slots → dt'.fat i = dt.fat i
  newSlots : ∀ i, dt.slots ≤ i ∨ dt.sb.fatNum ≤ i → dt'.fat i = FREESEC
  data : ∀ k, k < dt.sb.fatNum → dt'.data k = dt.data k
  maxBlockNum : dt'.sb.maxBlockNum = dt.sb.maxBlockNum
  fatNum_le : dt.sb.fatNum ≤ dt'.sb.fatNum
  doubled : newsize = 2 * dt.dtSize → dt.sb.fatNum < dt'.sb.fatNum
  slots : dt'.sb.fatNum ≤ dt'.slots
  exact : BYTSPERSEC + BYTSPERSEC * dt'.sb.fatSecNum + BYTSPERSEC * dt'.sb.fatNum = newsize
  inside : ∀ k, k < dt'.sb.fatNum → sectorAddr dt' k + BYTSPERSEC ≤ dt'.dtSize

theorem Enlarged.preserves {dt dt' : Dtree} {newsize : Nat} (h : Enlarged dt dt' newsize)
    (hs : Sized dt) (ht : TopFree dt) : Preserves dt dt' newsize := by
  have he := hs.exact
  have hf := hs.fatSec
  have he' := h.sized.exact
  have hf' := h.sized.fatSec
  have hsize := h.dtSize
  constructor
  · exact hsize
  · intro i _
    rw [h.fat]
  · intro i hi
    rw [h.fat]
    exact ht i (hi.elim hs.fatNum_lt_slots.le.trans id)
  · exact h.data
  · exact h.maxBlockNum
  · exact h.fatNum_le
  · intro hdouble
    omega
  · exact h.sized.fatNum_lt_slots.le
  · simp only [BYTSPERSEC]
    omega
  · intro k hk
    simp only [sectorAddr, BYTSPERSEC]
    omega

/-- `extend` to any larger whole number of sectors keeps everything that was there. -/
theorem extend_preserves {w : World} {newsize : Nat} (hs : Sized w.dt) (ht : TopFree w.dt)
    (hsec : 512 ∣ newsize) (hgt : w.dt.dtSize < newsize) (hlt : newsize < 2 ^ 32)
    (hmem : w.env.heap .extend 0 ≠ none) :
    ∃ w', extend newsize w = .ok (0, w') ∧ Preserves w.dt w'.dt newsize := by
  obtain ⟨N, rfl⟩ := hsec
  rw [Nat.mul_comm] at hgt hlt ⊢
  obtain ⟨r, w', hrun, -, -, hpost⟩ :=
    wp_returns (wp_extendTo (H := False) hs ht (N := N) (by omega))
  rcases hpost with ⟨-, hle, -⟩ | ⟨-, hnone, -⟩ | ⟨rfl, hen⟩
  · omega
  · exact absurd hnone hmem
  · exact ⟨w', hrun, Enlarged.preserves hen hs ht⟩

/-! ## Well-formed disks -/

/-- The image holds the tree `fs`, every object in ascending sectors. -/
structure WellFormed (dt : Dtree) (fs : Fs) (chain : Nat → List Nat) : Prop where
  store : Store dt fs chain
  tree : Tree fs
  ordered : Ordered fs chain

/-- An environment in which every allocation succeeds and every loop may go on. -/
def vast : Env := ⟨7, 2 ^ 24, fun _ _ => some fun _ => 0, fun _ => 0⟩

theorem vast_ample : Ample vast := ⟨by decide, fun s k => by simp [vast]⟩

/-- A disk just made, with memory enough. -/
def FreshWorld (w : World) : Prop :=
  WellFormed w.dt freshFs (fun _ => [rootFb]) ∧ Ample w.env

theorem doMkcfs_fresh : ∃ w, doMkcfs ⟨blank, 0, vast⟩ = .ok ((), w) ∧ FreshWorld w := by
  obtain ⟨_, w, hrun, hst, hl, -⟩ := wp_returns (wp_doMkcfs (H := False) (w := ⟨blank, 0, vast⟩)
    (vast_ample.heap _) (.inr vast_ample))
  exact ⟨w, hrun, ⟨hst, freshFs_tree, fun _ _ _ => List.pairwise_singleton _ _⟩,
    vast_ample.later hl⟩

theorem exists_freshWorld : ∃ w, FreshWorld w := by
  obtain ⟨w, -, hw⟩ := doMkcfs_fresh
  exact ⟨w, hw⟩

theorem fresh_free {w : World} (h : FreshWorld w) {i : Nat} (hi : rootFb < i) : w.dt.fat i = 0 := by
  by_contra hne
  obtain ⟨fb, o, _, hmem⟩ := h.1.store.owned i (by omega) hne
  rw [List.mem_singleton.mp hmem] at hi
  exact Nat.lt_irrefl _ hi

theorem extend_preserves_fresh : ∃ w w' newsize, extend newsize w = .ok (0, w') ∧
    Preserves w.dt w'.dt newsize := by
  obtain ⟨w', hw'⟩ := @extend_preserves ⟨formatted blank, 0, vast⟩ 65536 (formatted_sized _)
    (formatted_topFree _) (by decide) (by decide : (32768 : Nat) < 65536) (by decide)
    (vast_ample.heap _ _)
  exact ⟨_, w', _, hw'⟩

/-! ## Rewriting a chain -/

/-- The world after `data` was written to the object at `fb`: the sectors `cs` carry it. -/
structure Threaded (fs : Fs) (chain : Nat → List Nat) (fb size : Nat) (data : Bytes)
    (w w' : World) (cs : List Nat) : Prop where
  head : cs.head? = some fb
  linked : Linked w'.dt.fat ENDSEC cs
  length : cs.length = metaBlocks data
  ascending : cs.Pairwise (· < ·)
  inside : ∀ c ∈ cs, c < w'.dt.sb.fatNum
  reads : ∀ buf : Buf, BYTSPERSEC * cs.length ≤ buf.size →
    ∃ b, doReadfile fb buf w' = .ok (b, w') ∧ Agree b.bytes data 0 size
  others : ∀ m o, fs m = some o → m ≠ fb → Linked w'.dt.fat ENDSEC (chain m) ∧
    ∀ c ∈ chain m, c ∉ cs ∧ w'.dt.fat c = w.dt.fat c ∧ w'.dt.data c = w.dt.data c
  reserved : w'.dt.fat 0 = w.dt.fat 0 ∧ w'.dt.data 0 = w.dt.data 0
  released : ∀ c ∈ chain fb, c ∉ cs → w'.dt.fat c = FREESEC

/-- Every slot of the new chain was free or belonged to the object. -/
theorem written_slot {fs : Fs} {chain : Nat → List Nat} {w w' : World} {fb size n : Nat} {o : Obj}
    {data : Bytes} {cs : List Nat} (hst : Store w.dt fs chain) (ho : fs fb = some o)
    (hw : Written { w with dt := freed w.dt (chain fb) } data 0 size fb n cs w') {c : Nat}
    (hc : c ∈ cs) : c ∈ chain fb ∨ w.dt.fat c = 0 := by
  by_cases hmem : c ∈ chain fb
  · exact .inl hmem
  · rcases hw.fresh c hc with rfl | hz
    · exact .inl (hst.obj c o ho).head_mem
    · exact .inr ((cleared_of_not_mem hmem).symm.trans hz)

/-- What was written is read back from the new chain. -/
theorem written_reads {w₀ w' : World} {fb size n : Nat} {data : Bytes} {cs : List Nat}
    (hw : Written w₀ data 0 size fb n cs w') (hsize : size ≤ 512 * n) (hn : n < 2 ^ 23)
    (hample : Ample w'.env) (buf : Buf) (hbuf : 512 * cs.length ≤ buf.size) :
    ∃ b, doReadfile fb buf w' = .ok (b, w') ∧ Agree b.bytes data 0 size := by
  have hlen := hw.length
  obtain ⟨rest, hcs⟩ : ∃ rest, cs = fb :: rest := by
    have hhead := hw.head
    cases cs with
    | nil => cases hhead
    | cons a rest => cases hhead; exact ⟨rest, rfl⟩
  have hlink := hw.linked
  have hlt := hw.lt
  have hcontents := hw.contents
  rw [hcs] at hlink hlt hbuf hlen hcontents
  have hfuel := hample.fuel
  obtain ⟨b, w'', hrun, rfl, -, hagree⟩ := wp_returns
    (wp_doReadfile (H := False) hw.sized hlink hlt hbuf
    (by omega) (.inr (by omega)))
  refine ⟨b, hrun, fun j h0 hj => ?_⟩
  rw [hagree j h0 (by omega), hcontents j (by omega) (by omega), Nat.zero_add]

/-- `do_writefile` on a live object and `do_readfile` are a round trip, and the others stay. -/
theorem writefile_readfile {w : World} {fs : Fs} {chain : Nat → List Nat} {fb size : Nat} {o : Obj}
    {data : Bytes} (hwf : WellFormed w.dt fs chain) (ho : fs fb = some o)
    (hpos : 1 ≤ metaBlocks data) (hsize : size ≤ BYTSPERSEC * metaBlocks data)
    (hample : Ample w.env) (hroom : Spare (freed w.dt (chain fb)) fb (metaBlocks data - 1)) :
    ∃ w' cs, doWritefile fb data size w = .ok ((), w') ∧
      Threaded fs chain fb size data w w' cs := by
  have hst := hwf.store
  have hat := hst.obj fb o ho
  simp only [BYTSPERSEC] at hsize
  obtain ⟨n, hn⟩ : ∃ n, metaBlocks data = n + 1 := ⟨metaBlocks data - 1, by omega⟩
  have hblocks : metaBlocks data < 256 ^ 4 := getLE_lt data 56 4
  obtain ⟨rest, hrest⟩ := hat.cons
  have hlink := hat.linked
  have hlt := hat.lt
  have hlen : (chain fb).length < 2 ^ 23 := (hat.length_le hst.sized).trans_lt hst.sized.fatNum_lt
  rw [hn, Nat.add_sub_cancel] at hroom
  rw [hrest] at hlink hlt hlen hroom
  obtain ⟨_, w', hrun, cs, hw⟩ := wp_returns (m := doWritefile fb data size)
    (wp_doWritefile hst.sized hst.topFree hlink hlt hn (by omega) (.inr ⟨hample, hlen, hroom⟩))
  rw [← hrest] at hw
  have hcsLen : cs.length ≤ w'.dt.sb.fatNum :=
    length_le_of_lt (hw.sorted.imp fun h => Nat.ne_of_lt h) hw.lt
  have hfatNum := hw.sized.fatNum_lt
  have hcs := hw.length
  have hother : ∀ m o₁, fs m = some o₁ → m ≠ fb → ∀ c ∈ chain m, c ∉ chain fb ∧ c ∉ cs := by
    intro m o₁ hm hne c hc
    have hold : c ∉ chain fb := fun hcf => hst.disjoint m fb o₁ o hm ho hne hc hcf
    refine ⟨hold, fun hcs => ?_⟩
    exact (written_slot hst ho hw hcs).elim hold ((hst.obj m o₁ hm).fat_ne_zero hc)
  have hzero : 0 ∉ chain fb ∧ 0 ∉ cs := by
    have hold : 0 ∉ chain fb := fun hm => hst.ne_zero_of_mem ho hm rfl
    refine ⟨hold, fun hcs => ?_⟩
    refine (written_slot hst ho hw hcs).elim hold fun hz => ?_
    rw [hst.reserved] at hz
    cases hz
  refine ⟨w', cs, hrun, hw.head, hw.linked, hcs.trans hn.symm, hw.sorted, hw.lt, ?_, ?_, ?_, ?_⟩
  · exact written_reads hw (by omega) (by omega) (hample.later hw.later)
  · intro m o₁ hm hne
    have hfat : ∀ c ∈ chain m, w'.dt.fat c = w.dt.fat c := fun c hc =>
      (hw.fat c (hother m o₁ hm hne c hc).2).trans
        (cleared_of_not_mem (hother m o₁ hm hne c hc).1)
    refine ⟨(hst.obj m o₁ hm).linked.congr hfat, fun c hc => ?_⟩
    have hnew := (hother m o₁ hm hne c hc).2
    exact ⟨hnew, hfat c hc, hw.data c ((hst.obj m o₁ hm).lt c hc) hnew⟩
  · exact ⟨(hw.fat 0 hzero.2).trans (cleared_of_not_mem hzero.1), hw.data 0 hst.usable hzero.2⟩
  · intro c hc hnew
    exact (hw.fat c hnew).trans (cleared_of_mem hc)

/-- A hundred sectors for the root of a fresh disk, which holds sixty-two. -/
theorem writefile_readfile_fresh : ∃ w w' cs,
    doWritefile rootFb (putLE (fun _ => 7) 56 4 100) 51200 w = .ok ((), w') ∧
      Threaded freshFs (fun _ => [rootFb]) rootFb 51200 (putLE (fun _ => 7) 56 4 100) w w' cs := by
  obtain ⟨w, hw⟩ := exists_freshWorld
  have hblocks : metaBlocks (putLE (fun _ => 7) 56 4 100) = 100 := getLE_putLE (by decide)
  have hfree : ∀ c, rootFb < c → (freed w.dt [rootFb]).fat c = 0 := fun c hc =>
    (cleared_of_not_mem (by simpa using Nat.ne_of_gt hc)).trans (fresh_free hw hc)
  have hroom : Spare (freed w.dt [rootFb]) rootFb 99 := by
    refine ⟨List.range' 2 99, rfl, List.pairwise_lt_range' (s := 1) (n := 100), fun c hc => ?_⟩
    have hbounds := List.mem_range'_1.mp hc
    exact ⟨hfree c (by simp only [rootFb]; omega), .inr (by simp only [slotLimit]; omega)⟩
  exact ⟨w, writefile_readfile hw.1 freshFs_root (by rw [hblocks]; decide)
    (by rw [hblocks]; decide) hw.2 (by rw [hblocks]; exact hroom)⟩

end Sbpfs.Cfs.ChainLaws
