import Sbpfs.Cfs.FileHeaders

/-!
# The lengths in the records

A record has a field for the length of its block. `c_write` sets it in the block that a write
lies in, in the last one of several, and in new blocks, each time in another way; the field of
the block that was the last one is not set when the file grows by blocks. Reads do not use the
field.
-/
namespace Sbpfs.Cfs.RecordLengths

open Sbpfs.Lib.Program Sbpfs.Lib.Memory Sbpfs.Lib.Run
open Sbpfs.Cfs.Layout Sbpfs.Cfs.Rules Sbpfs.Cfs.FileSpec Sbpfs.Cfs.Data Sbpfs.Cfs.Image
    Sbpfs.Cfs.DiskStore
open Sbpfs.Cfs.LookupSpec Sbpfs.Cfs.ObjectSpec Sbpfs.Cfs.BlockSpec Sbpfs.Cfs.DataSpec
open Sbpfs.Cfs.DiskView Sbpfs.Cfs.Calls Sbpfs.Cfs.RunSpec Sbpfs.Cfs.Invariants Sbpfs.Cfs.FileHeaders
open Sbpfs.Spec.FileTree

attribute [local irreducible] wpOr

/-- The length of block `i` of a file of `len` bytes. -/
def dueLength (len i : Nat) : Nat := min BLOCKSIZE (len - i * BLOCKSIZE)

/-- The records of the file at `fb` have the lengths of its blocks. -/
def LengthsMatch (dt : Dtree) (fb : Nat) : Prop :=
  ∀ i < blocksFor (metaFlen (dt.data fb)),
    blockLength (imageOf dt.data (chainOf dt fb)) (blockOff i) = dueLength (metaFlen (dt.data fb)) i

/-- The write lies in more than one block, or in the first of 256 blocks and does not end in
front of both the end of the file and the end of the block. A write that adds blocks starts at a
boundary, and the file ended at one. -/
def KeepsLengths (flen offset length : Nat) : Prop :=
  if blocksFor (offset + length) ≤ blocksFor flen then
    offset / BLOCKSIZE + 1 < blocksFor (offset + length) ∨
      (offset / BLOCKSIZE % 256 = 0 ∧ (flen ≤ offset + length ∨ (offset + length) % BLOCKSIZE = 0))
  else flen % BLOCKSIZE = 0 ∧ offset % BLOCKSIZE = 0

/-! ## The lengths of blocks -/

section Lengths

variable {len len' offset length i : Nat}

theorem dueLength_full (h : (i + 1) * BLOCKSIZE ≤ len) : dueLength len i = BLOCKSIZE := by
  unfold dueLength
  simp only [BLOCKSIZE] at h ⊢
  omega

theorem dueLength_last (h : blocksFor len = i + 1) : dueLength len i = tailLen len := by
  unfold dueLength tailLen
  simp only [blocksFor_eq, BLOCKSIZE] at h ⊢
  split <;> omega

/-- A block in front of the last one of the longer file does not care which file it is in. -/
theorem dueLength_inner (hb : blocksFor len = blocksFor len') (hi : i + 1 < blocksFor len) :
    dueLength len i = dueLength len' i := by
  rw [dueLength_full, dueLength_full]
  · simp only [blocksFor_eq, BLOCKSIZE] at hb hi ⊢
    omega
  · simp only [blocksFor_eq, BLOCKSIZE] at hb hi ⊢
    omega

theorem dueLength_max (len len' i : Nat) :
    max (dueLength len i) (dueLength len' i) = dueLength (max len len') i := by
  unfold dueLength
  simp only [BLOCKSIZE]
  omega

theorem tailLen_eq_iff (offset length : Nat) :
    tailLen length = tailLen (offset + length) ↔ offset % BLOCKSIZE = 0 := by
  unfold tailLen
  simp only [BLOCKSIZE]
  split <;> split <;> omega

/-- The end of a write in one block, cut to 32 bits, is the length of the block only there. -/
theorem u32_due_iff (hone : blocksFor (offset + length) = offset / BLOCKSIZE + 1) :
    u32 (offset + length) = dueLength (max len (offset + length)) (offset / BLOCKSIZE) ↔
      offset / BLOCKSIZE % 256 = 0 ∧
        (len ≤ offset + length ∨ (offset + length) % BLOCKSIZE = 0) := by
  unfold u32 dueLength
  simp only [blocksFor_eq, BLOCKSIZE] at hone ⊢
  omega

/-- A write into the blocks that there are. -/
theorem newLength_within_iff (hpos : 1 ≤ length)
    (hold : blocksFor (offset + length) ≤ blocksFor len) :
    (∀ i < blocksFor len, newLength (blocksFor len) offset length i (dueLength len i)
      = dueLength (max len (offset + length)) i) ↔ KeepsLengths len offset length := by
  have hmax : blocksFor (max len (offset + length)) = blocksFor len := by
    rcases Nat.le_total len (offset + length) with h | h
    · rw [Nat.max_eq_right h]
      exact Nat.le_antisymm hold (blocksFor_mono h)
    · rw [Nat.max_eq_left h]
  have hfirst : offset / BLOCKSIZE < blocksFor (offset + length) := by
    simp only [blocksFor_eq, BLOCKSIZE]
    omega
  have hother : ∀ i < blocksFor len, i + 1 ≠ blocksFor (offset + length) →
      dueLength len i = dueLength (max len (offset + length)) i := by
    intro i hi hne
    rcases Nat.le_total (offset + length) len with h | h
    · rw [Nat.max_eq_left h]
    · have hmono := blocksFor_mono h
      exact dueLength_inner hmax.symm (by omega)
  unfold KeepsLengths newLength
  simp only [if_pos hold]
  by_cases hone : blocksFor (offset + length) = offset / BLOCKSIZE + 1
  · rw [or_iff_right (by omega), ← u32_due_iff hone]
    constructor
    · intro h
      have hlast := h (offset / BLOCKSIZE) (by omega)
      rw [if_neg (by omega), if_pos hone] at hlast
      exact hlast
    · intro h i hi
      by_cases hne : i + 1 = blocksFor (offset + length)
      · obtain rfl : i = offset / BLOCKSIZE := by omega
        rw [if_neg (by omega), if_pos hone]
        exact h
      · rw [if_pos (.inl hne)]
        exact hother i hi hne
  · refine iff_of_true (fun i hi => ?_) (.inl (by omega))
    by_cases hne : i + 1 = blocksFor (offset + length)
    · rw [if_neg (by omega), if_neg hone, ← dueLength_last hne.symm, dueLength_max]
    · rw [if_pos (.inl hne)]
      exact hother i hi hne

/-- A write that adds blocks. -/
theorem newLength_beyond_iff (hnew : blocksFor len < blocksFor (offset + length)) :
    (∀ i < blocksFor (offset + length), newLength (blocksFor len) offset length i (dueLength len i)
      = dueLength (offset + length) i) ↔ KeepsLengths len offset length := by
  have hbeyond : ¬ blocksFor (offset + length) ≤ blocksFor len := Nat.not_le.mpr hnew
  unfold KeepsLengths newLength
  simp only [if_neg hbeyond]
  constructor
  · intro h
    constructor
    · -- the block that was the last one is full
      by_cases hzero : blocksFor len = 0
      · simp only [blocksFor_eq, BLOCKSIZE] at hzero ⊢
        omega
      · have hlast := h (blocksFor len - 1) (by omega)
        rw [if_pos (by omega), dueLength_last (by omega), dueLength_full] at hlast
        · unfold tailLen at hlast
          simp only [BLOCKSIZE] at hlast ⊢
          split at hlast <;> omega
        · simp only [blocksFor_eq, BLOCKSIZE] at hnew hzero ⊢
          omega
    · have hlast := h (blocksFor (offset + length) - 1) (by omega)
      rw [if_neg (by omega), if_pos (by omega), dueLength_last (by omega)] at hlast
      exact (tailLen_eq_iff offset length).mp hlast
  · intro h i hi
    obtain ⟨hlen, hoff⟩ := h
    by_cases hlt : i < blocksFor len
    · rw [if_pos hlt, dueLength_full, dueLength_full]
      · simp only [blocksFor_eq, BLOCKSIZE] at hnew hlt ⊢
        omega
      · simp only [blocksFor_eq, BLOCKSIZE] at hlen hlt ⊢
        omega
    rw [if_neg hlt]
    by_cases hlast : i + 1 = blocksFor (offset + length)
    · rw [if_pos hlast, dueLength_last hlast.symm]
      exact (tailLen_eq_iff offset length).mpr hoff
    · rw [if_neg hlast, dueLength_full]
      simp only [blocksFor_eq, BLOCKSIZE] at hi hlast ⊢
      omega

/-- Every record gets the length that is due to its block. -/
theorem relengthed_iff {b b' : Bytes} (hpos : 1 ≤ length)
    (hdue : ∀ i < blocksFor len, lengthAt b i = dueLength len i)
    (h : Relengthed (blocksFor len) offset length b b') :
    (∀ i < blocksFor (max len (offset + length)),
      lengthAt b' i = dueLength (max len (offset + length)) i) ↔
        KeepsLengths len offset length := by
  have hall : blocksFor len + growth (blocksFor len) (offset + length)
      = blocksFor (max len (offset + length)) := blocksFor_max_eq rfl
  have hnew : ∀ i < blocksFor (max len (offset + length)),
      lengthAt b' i = newLength (blocksFor len) offset length i (dueLength len i) := by
    intro i hi
    rw [← hall] at hi
    rw [h i hi]
    by_cases hlt : i < blocksFor len
    · rw [hdue i hlt]
    · exact newLength_new (Nat.le_of_not_lt hlt) hi
  have hsame : (∀ i < blocksFor (max len (offset + length)),
        lengthAt b' i = dueLength (max len (offset + length)) i) ↔
      ∀ i < blocksFor (max len (offset + length)),
        newLength (blocksFor len) offset length i (dueLength len i)
          = dueLength (max len (offset + length)) i :=
    forall₂_congr fun i hi => by rw [hnew i hi]
  rw [hsame]
  by_cases hold : blocksFor (offset + length) ≤ blocksFor len
  · have hnone : growth (blocksFor len) (offset + length) = 0 := Nat.sub_eq_zero_of_le hold
    rw [← hall, hnone, Nat.add_zero]
    exact newLength_within_iff hpos hold
  · have hlen : len ≤ offset + length := by
      by_contra hlt
      exact hold (blocksFor_mono (by omega))
    rw [Nat.max_eq_right hlen]
    exact newLength_beyond_iff (Nat.lt_of_not_le hold)

end Lengths

/-! ## One write -/

/-- The arguments of a call of `c_write`, and what the C library answers during it. -/
structure Request where
  fb : UInt32
  offset : UInt64
  length : UInt64
  ips : List UInt32
  env : Env

def Request.action (q : Request) : Action := ⟨.write q.fb q.offset q.length q.ips, q.env⟩

/-- A write of at least one byte to a file, at its end or in front of it. -/
structure Writes (s : Sys) (q : Request) (s' : Sys) : Prop where
  step : Step s q.action s'
  live : Live s.dt q.fb.toNat S_FIL
  offset : q.offset.toNat ≤ metaFlen (s.dt.data q.fb.toNat)
  length : 1 ≤ q.length.toNat

/-- There is no memory for the write, or it keeps the lengths of the file at `fb`. -/
def Suits (fb : Nat) (s : Sys) (q : Request) : Prop :=
  q.env.heap .records 0 = none ∨ (q.offset.toNat + q.length.toNat ≤ MAX_END ∧
    (q.fb.toNat = fb → KeepsLengths (metaFlen (s.dt.data fb)) q.offset.toNat q.length.toNat))

def SuitedStep (fb : Nat) (s : Sys) (q : Request) (s' : Sys) : Prop := Writes s q s' ∧ Suits fb s q

/-- A disk with an empty file at `fb`. -/
structure EmptyFile (fb : Nat) (s : Sys) : Prop where
  holding : Holding s
  live : Live s.dt fb S_FIL
  empty : metaFlen (s.dt.data fb) = 0

/-- A disk with a file at `fb` that has the lengths of its blocks. -/
structure Recorded (fb : Nat) (s : Sys) : Prop where
  holding : Holding s
  live : Live s.dt fb S_FIL
  lengths : LengthsMatch s.dt fb

section Steps

variable {s s' : Sys} {q : Request} {fs : Fs} {chain : Nat → List Nat} {fb : Nat}

theorem lengthsMatch_iff {dt : Dtree} {u len : Nat} {fl : UInt8} {recs : List Rec}
    (hst : Store dt fs chain) (ho : fs fb = some ⟨u, fl, .file len recs⟩) :
    LengthsMatch dt fb ↔
      ∀ i < blocksFor len, lengthAt (imageOf dt.data (chain fb)) i = dueLength len i := by
  unfold LengthsMatch lengthAt
  rw [chainOf_eq hst.sized (hst.obj fb _ ho), (file_header hst ho).1]

/-- Without memory for the records the disk stays as it is. -/
theorem cWrite_noMemory {w w' : World} {fb : UInt32} {o : Obj} {offset length : UInt64}
    {ips : List Nat} {cap : Nat} {r : Int × List SendBlock} (hst : Store w.dt fs chain)
    (ho : fs fb.toNat = some o) (hmem : w.env.heap .records 0 = none)
    (hrun : cWrite fb offset length ips cap w = .ok (r, w')) : w'.dt = w.dt := by
  have hat := hst.obj _ _ ho
  refine wp_ok (H := True) (Q := fun _ w' => w'.dt = w.dt) ?_ hrun
  unfold cWrite
  simp only [wp_bind, wp_readSector, hst.sized.sectorOf hat.head_lt, hst.sized.dataSecs, wp_ite,
    wp_pure, wp_malloc, hmem, Option.map_none, ite_self]
  exact ⟨hat.head_lt, trivial⟩

theorem writes_noMemory (hst : Store s.dt fs chain) (ht : Tree fs) (hw : Writes s q s')
    (hmem : q.env.heap .records 0 = none) : s'.dt = s.dt := by
  obtain ⟨⟨ret, -, w', hrun, rfl⟩, hl, -, -⟩ := hw
  obtain ⟨u, fl, len, recs, ho⟩ := live_file hst ht hl
  obtain ⟨segs, hwrite⟩ := write_run hrun
  exact cWrite_noMemory (w := ⟨s.dt, s.ipIndex, q.env⟩) hst ho hmem hwrite

/-- With memory the call goes through. -/
theorem writes_outcome (hst : Store s.dt fs chain) (ht : Tree fs) (hb : Bounded fs)
    (hw : Writes s q s') (hend : q.offset.toNat + q.length.toNat ≤ MAX_END)
    (hmem : q.env.heap .records 0 ≠ none) :
    ∃ u fl len recs news r w₁ w' cs, fs q.fb.toNat = some ⟨u, fl, .file len recs⟩ ∧ s'.dt = w'.dt ∧
      Wrote fs chain q.fb.toNat u fl len recs q.offset.toNat q.length.toNat
        (q.ips.map UInt32.toNat) ⟨s.dt, s.ipIndex, q.env⟩ r w' news w₁ cs ∧
      Relengthed recs.length q.offset.toNat q.length.toNat (imageOf s.dt.data (chain q.fb.toNat))
        (imageOf w'.dt.data cs) := by
  obtain ⟨⟨ret, hallow, w', hrun, rfl⟩, hl, hoff, -⟩ := hw
  obtain ⟨u, fl, len, recs, ho⟩ := live_file hst ht hl
  obtain ⟨segs, hwrite⟩ := write_run hrun
  rw [(file_header hst ho).1] at hoff
  have hpost := wp_ok (wp_cWrite_lengths (H := True) (w := ⟨s.dt, s.ipIndex, q.env⟩) hst ho
    (hb _ _ _ _ _ ho) (fun _ => hend) (map_toNat_ne hallow.2) (Nat.le_refl _)
    (.inl trivial)) hwrite
  rcases hpost with ⟨-, ⟨-, hnone⟩ | ⟨hlt, -⟩⟩ | ⟨-, news, w₁, cs, hw, hrec⟩
  · exact absurd hnone hmem
  · omega
  · exact ⟨u, fl, len, recs, news, _, w₁, _, cs, ho, rfl, hw, hrec⟩

section Wrote

variable {d u len offset length : Nat} {fl : UInt8} {recs news : List Rec} {ips : List Nat}
  {w w' w₁ : World} {r : Int × List SendBlock} {cs : List Nat}

/-- The file that was written. -/
theorem lengthsMatch_own (hst : Store w.dt fs chain) (ho : fs d = some ⟨u, fl, .file len recs⟩)
    (hw : Wrote fs chain d u fl len recs offset length ips w r w' news w₁ cs)
    (hrec : Relengthed recs.length offset length (imageOf w.dt.data (chain d))
      (imageOf w'.dt.data cs)) (hpos : 1 ≤ length) (hm : LengthsMatch w.dt d) :
    LengthsMatch w'.dt d ↔ KeepsLengths len offset length := by
  have hfile : FileImage (imageOf w.dt.data (chain d)) (chain d).length len recs :=
    (hst.obj _ _ ho).holds.node
  rw [hfile.count] at hrec
  rw [lengthsMatch_iff hw.rewritten.store (Function.update_self ..), Function.update_self]
  exact relengthed_iff hpos ((lengthsMatch_iff hst ho).mp hm) hrec

/-- A file that was not written has the lengths it had. -/
theorem lengthsMatch_other {u₁ len₁ : Nat} {fl₁ : UInt8} {recs₁ : List Rec}
    (hst : Store w.dt fs chain) (ho : fs fb = some ⟨u₁, fl₁, .file len₁ recs₁⟩) (hne : fb ≠ d)
    (hw : Wrote fs chain d u fl len recs offset length ips w r w' news w₁ cs) :
    LengthsMatch w'.dt fb ↔ LengthsMatch w.dt fb := by
  obtain ⟨hchain, hdata⟩ := hw.rewritten.kept fb _ ho hne
  have hfile : FileImage (imageOf w.dt.data (chain fb)) (chain fb).length len₁ recs₁ :=
    (hst.obj fb _ ho).holds.node
  have hcount := hfile.count
  have hsectors := hfile.sectors
  have hagree : Agree (imageOf w'.dt.data (chain fb)) (imageOf w.dt.data (chain fb)) 0
      (512 * (chain fb).length) := by
    intro j _ hj
    refine imageOf_congr (fun c hc => ?_) (by omega)
    rw [(hdata c hc).2, hw.alloc.counted.data]
  rw [lengthsMatch_iff hst ho,
    lengthsMatch_iff hw.rewritten.store ((Function.update_of_ne hne ..).trans ho), hchain]
  refine forall₂_congr fun i hi => ?_
  rw [lengthAt_congr hagree (Nat.zero_le _) (by omega)]

end Wrote

/-- A write keeps the lengths of a file if it suits, and only then. -/
theorem recorded_write (h : Recorded fb s) (hw : Writes s q s')
    (hfits : q.env.heap .records 0 = none ∨ q.offset.toNat + q.length.toNat ≤ MAX_END) :
    Holding s' ∧ Live s'.dt fb S_FIL ∧ (LengthsMatch s'.dt fb ↔ Suits fb s q) := by
  obtain ⟨⟨fs, chain, hst, ht, hb⟩, hl, hlengths⟩ := h
  by_cases hmem : q.env.heap .records 0 = none
  · have hdt := writes_noMemory hst ht hw hmem
    unfold Holding
    rw [hdt]
    exact ⟨⟨fs, chain, hst, ht, hb⟩, hl, iff_of_true hlengths (.inl hmem)⟩
  have hend := hfits.resolve_left hmem
  obtain ⟨u, fl, len, recs, ho⟩ := live_file hst ht hl
  obtain ⟨u₁, fl₁, len₁, recs₁, news, r, w₁, w', cs, ho₁, hdt, hwrote, hrec⟩ :=
    writes_outcome hst ht hb hw hend hmem
  have hst' := hwrote.rewritten.store
  have ht' : Tree (Function.update fs q.fb.toNat (some ⟨u₁, fl₁,
      .file (max len₁ (q.offset.toNat + q.length.toNat)) (recs₁ ++ news)⟩)) := ht.touch ho₁ trivial
  unfold Holding Suits
  rw [hdt, or_iff_right hmem, and_iff_right hend]
  refine ⟨⟨_, _, hst', ht', hb.update fun u' fl' len' recs' heq => ?_⟩, ?_⟩
  · cases heq
    exact Nat.max_le.mpr ⟨hb _ _ _ _ _ ho₁, hend⟩
  by_cases hfb : q.fb.toNat = fb
  · subst hfb
    rw [forall_prop_of_true rfl, (file_header hst ho₁).1]
    exact ⟨obj_live hst' ht' (Function.update_self ..),
      lengthsMatch_own hst ho₁ hwrote hrec hw.length hlengths⟩
  · have hne : fb ≠ q.fb.toNat := Ne.symm hfb
    rw [lengthsMatch_other hst ho hne hwrote]
    exact ⟨obj_live hst' ht' ((Function.update_of_ne hne ..).trans ho),
      iff_of_true hlengths fun h => absurd h hfb⟩

end Steps

/-! ## Runs of writes -/

theorem recorded_empty {fb : Nat} {s : Sys} (h : EmptyFile fb s) : Recorded fb s := by
  refine ⟨h.holding, h.live, fun i hi => ?_⟩
  rw [h.empty] at hi
  exact absurd hi (Nat.not_lt_zero i)

theorem recorded_step {fb : Nat} {s s' : Sys} {q : Request} (h : Recorded fb s)
    (hs : SuitedStep fb s q s') : Recorded fb s' := by
  obtain ⟨hw, hsuit⟩ := hs
  obtain ⟨hhold, hlive, hiff⟩ := recorded_write h hw (hsuit.imp_right And.left)
  exact ⟨hhold, hlive, hiff.mpr hsuit⟩

/-- In every run of writes that suit, from an empty file on, the records have the lengths of the
blocks, and of the writes that may follow, those that suit are the ones that keep them. -/
theorem recordLengths_run {fb : Nat} {s : Sys} (h : Reach (EmptyFile fb) (SuitedStep fb) s) :
    LengthsMatch s.dt fb ∧ ∀ q s', Writes s q s' → q.offset.toNat + q.length.toNat ≤ MAX_END →
      (LengthsMatch s'.dt fb ↔ Suits fb s q) := by
  have hrec : Recorded fb s :=
    h.inv (fun _ hs => recorded_empty hs) fun _ _ _ hi hs => recorded_step hi hs
  exact ⟨hrec.lengths, fun q s' hw hend => (recorded_write hrec hw (.inr hend)).2.2⟩

/-- A write at the start of a file that has just been made. -/
def startWrite (length : UInt64) : Request := ⟨2, 0, length, [0x7f000001], calm⟩

/-- Ten bytes into an empty file, and then one byte. -/
theorem twoWrites : ∃ s s₁ s₂, EmptyFile 2 s ∧ Writes s (startWrite 10) s₁ ∧
    Writes s₁ (startWrite 1) s₂ ∧ metaFlen (s₁.dt.data 2) = 10 := by
  have hrun : ((twoCalls (calmly (.openFile (rootPath letterA) 8 6 0)) (startWrite 10).action).bind
      fun q => (exec [(startWrite 1).action] q.2.2.2.2).map fun q' => (q'.1, rootReading q.2.2.1.dt,
        metaFlen (q.2.2.1.dt.data 2), metaFlen (q.2.2.2.2.dt.data 2)))
      = some ([1], [(1, S_DIR), (1, S_DIR), (1, S_DIR), (2, S_FIL)], 0, 10) := by decide +kernel
  cases hm : twoCalls (calmly (.openFile (rootPath letterA) 8 6 0)) (startWrite 10).action with
  | none => simp [hm] at hrun
  | some q =>
    obtain ⟨s₀, r, s, r₁, s₁⟩ := q
    simp only [hm, Option.bind_some, Option.map_eq_some_iff, Prod.exists, Prod.mk.injEq] at hrun
    obtain ⟨rs, s₂, hexec, rfl, hread, hempty, hflen⟩ := hrun
    obtain ⟨hfresh, hopen, hwrite⟩ := twoCalls_returns hm
    have hnew : EmptyFile 2 s := by
      refine ⟨holding_step (holding_fresh hfresh) ⟨⟨_, hopen⟩, ?_⟩, live_of_root hread (by decide),
        hempty⟩
      exact ⟨by decide, calm_succeeds _⟩
    have hw : Writes s (startWrite 10) s₁ :=
      ⟨⟨_, hwrite⟩, hnew.live, Nat.zero_le _, by decide⟩
    have hrec : Recorded 2 s := recorded_empty hnew
    have hlive : Live s₁.dt 2 S_FIL := (recorded_write hrec hw (.inr (by decide))).2.1
    exact ⟨s, s₁, s₂, hnew, hw, ⟨⟨_, returns_exec hexec⟩, hlive, Nat.zero_le _, by decide⟩, hflen⟩

theorem startWrite_suits {s : Sys} (h : EmptyFile 2 s) : Suits 2 s (startWrite 10) := by
  refine .inr ⟨by decide, fun _ => ?_⟩
  rw [h.empty]
  unfold KeepsLengths
  decide

/-- The second write is in front of the end of the file. -/
theorem startWrite_shrinks {s : Sys} (h : metaFlen (s.dt.data 2) = 10) :
    ¬ Suits 2 s (startWrite 1) := by
  rintro (hmem | ⟨-, hkeeps⟩)
  · exact absurd hmem (calm_succeeds _ 0)
  · have hkeeps := hkeeps rfl
    rw [h] at hkeeps
    revert hkeeps
    unfold KeepsLengths
    decide

theorem recordLengths_run_ten : ∃ s s', Reach (EmptyFile 2) (SuitedStep 2) s ∧
    metaFlen (s.dt.data 2) = 10 ∧ LengthsMatch s.dt 2 ∧ Writes s (startWrite 1) s' ∧
      ¬ LengthsMatch s'.dt 2 := by
  obtain ⟨s, s₁, s₂, hnew, hw, hw', hflen⟩ := twoWrites
  have hreach : Reach (EmptyFile 2) (SuitedStep 2) s₁ :=
    .step (.init hnew) ⟨hw, startWrite_suits hnew⟩
  obtain ⟨hmatch, hnext⟩ := recordLengths_run hreach
  exact ⟨s₁, s₂, hreach, hflen, hmatch, hw', fun h =>
    startWrite_shrinks hflen ((hnext _ _ hw' (by decide)).mp h)⟩

/-- The length of the first block becomes 1 while the file has ten bytes. -/
theorem overwrite_shrinks : ∃ s, Reach (EmptyFile 2) Writes s ∧ ¬ LengthsMatch s.dt 2 := by
  obtain ⟨s, s₁, s₂, hnew, hw, hw', hflen⟩ := twoWrites
  have hrec : Recorded 2 s₁ :=
    recorded_step (recorded_empty hnew) ⟨hw, startWrite_suits hnew⟩
  refine ⟨s₂, .step (.step (.init hnew) hw) hw', fun h => ?_⟩
  exact startWrite_shrinks hflen ((recorded_write hrec hw' (.inr (by decide))).2.2.mp h)

end Sbpfs.Cfs.RecordLengths
