import Mathlib.Data.Finset.Card
import Sbpfs.Dnode.BlockStore
import Sbpfs.Dnode.ListSpec

/-!
# The list of blocks

The rows of `blocklist`, the records of the list file and the count in front of them against the
set of the numbers that were entered and not deleted. `blocklist` has 64 rows of 6400 bytes, the
row that `deletelist` writes back is not assigned where no row has the number, and a number is
entered as often as its block is created.
-/
namespace Sbpfs.Dnode.BlockList

open Sbpfs.Lib.Program Sbpfs.Lib.Memory Sbpfs.Lib.Run Sbpfs.Lib.Raise
open Sbpfs.Cfs.Layout (s32)
open Sbpfs.Wire.Head Sbpfs.Wire.Number
open Sbpfs.Dnode.Blockman Sbpfs.Dnode.BlockSpec Sbpfs.Dnode.ListSpec
open Sbpfs.Dnode.BlockStore (Willing willing_later freshNode)

/-! ## Runs -/

inductive Call where
  | create (b : UInt64)
  | delete (b : UInt64)

/-- The node, `none` once a call has gone wrong, and the numbers that are listed. -/
structure Session where
  node : Option DNode
  listed : Finset UInt64

def Call.run : Call → DM Int
  | .create b => createblock b
  | .delete b => deleteblock b

def Call.listed : Call → Finset UInt64 → Finset UInt64
  | .create b, s => insert b s
  | .delete b, s => s.erase b

/-- The node behind a call. -/
def after (m : DM Int) (d : DNode) : Option DNode := (m d).toOption.map Prod.snd

/-- A call that leaves at most 6400 blocks listed. -/
inductive Step : Session → Call → Session → Prop
  | call {d : DNode} {listed : Finset UInt64} {a : Call} (room : (a.listed listed).card ≤ 6400) :
    Step ⟨some d, listed⟩ a ⟨after a.run d, a.listed listed⟩

/-- The process has just made the list file. -/
def Fresh (s : Session) : Prop :=
  ∃ d d', d.files BLOCKLISTPATH = none ∧ d.bnum = 0 ∧ initlist d = .ok ((), d') ∧
    s = ⟨some d', ∅⟩

/-- No call has written outside of `blocklist` or behind the records of the list file, and what
`getlist` returns and puts into `blolist` are the numbers that are listed, each once. -/
structure Kept (s : Session) (d : DNode) : Prop where
  node : s.node = some d
  size : ∃ f, d.files BLOCKLISTPATH = some f ∧ f.size = 6401 * 64
  list : d.env.opens 0 = true → ∃ count d', getlist d = .ok (count, d') ∧
    count.toNat = s.listed.card ∧ (∀ i < count.toNat, d'.blolist i ∈ s.listed) ∧
    ∀ b ∈ s.listed, ∃! i, i < count.toNat ∧ d'.blolist i = b

/-- Neither list has changed, nor any file but the list file and the one of block `b`, which is
gone. -/
structure Unchanged (b : UInt64) (d d' : DNode) : Prop where
  bnum : d'.bnum = d.bnum
  rows : d'.blocklist = d.blocklist
  blolist : d'.blolist = d.blolist
  files : ∀ p ≠ BLOCKLISTPATH, (p = pathOf b → d.files p = none) → d'.files p = d.files p

/-- The texts fit their arrays, the files that the lists need are opened, a number is entered only
once and into a row of the table, and a number is listed when it is deleted, or `delnum` happens to
do no harm. -/
def Fitting (d : DNode) (listed : Finset UInt64) : Call → Prop
  | .create b => TextFits d b ∧ (d.env.opens 0 = true ∧ d.env.opens 1 = true) ∧ b ∉ listed ∧
      listed.card < BLOCKNAME
  | .delete b => TextFits d b ∧ d.env.opens 1 = true ∧ (b ∈ listed ∨ Spared d)

def FittingStep (s : Session) (a : Call) (s' : Session) : Prop :=
  Step s a s' ∧ ∀ d, s.node = some d → Fitting d s.listed a

/-- The node keeps the numbers that are listed. -/
def Lists (s : Session) : Prop :=
  ∃ d n num, s.node = some d ∧ Listing d n num ∧ s.listed = (Finset.range n).image num

section Runs

variable {s s' : Session} {d : DNode} {n : Nat} {num : Nat → UInt64} {b : UInt64}

theorem mem_image_range {i : Nat} (hi : i < n) : num i ∈ (Finset.range n).image num :=
  Finset.mem_image_of_mem num (Finset.mem_range.mpr hi)

theorem listing_card (h : Listing d n num) : ((Finset.range n).image num).card = n := by
  rw [Finset.card_image_of_injOn, Finset.card_range]
  intro i hi j hj hij
  exact h.distinct i (Finset.mem_range.mp hi) j (Finset.mem_range.mp hj) hij

theorem initlist_run (hnone : d.files BLOCKLISTPATH = none) (ho : d.env.opens 0 = true) :
    initlist d = .ok ((), stored d ⟨6401 * 64, fun _ => 0⟩) := by
  have hnew := fopenNew_run BLOCKLISTPATH d
  rw [ho, if_pos rfl] at hnew
  unfold initlist
  rw [bind_run (show (get : DM DNode) d = .ok (d, d) from rfl), hnone, if_neg (by decide),
    bind_run hnew, if_pos rfl, setFile_run]
  unfold stored
  simp only [Function.update_idem]

theorem initlist_done (hnone : d.files BLOCKLISTPATH = none) {d' : DNode}
    (h : initlist d = .ok ((), d')) : d' = stored d ⟨6401 * 64, fun _ => 0⟩ := by
  cases ho : d.env.opens 0 with
  | false =>
    have hnew := fopenNew_run BLOCKLISTPATH d
    rw [ho] at hnew
    unfold initlist at h
    rw [bind_run (show (get : DM DNode) d = .ok (d, d) from rfl), hnone, if_neg (by decide),
      bind_run hnew] at h
    cases h
  | true =>
    rw [initlist_run hnone ho] at h
    cases h
    rfl

theorem lists_fresh (h : Fresh s) : Lists s := by
  obtain ⟨d, d', hnone, hbnum, hrun, rfl⟩ := h
  rw [initlist_done hnone hrun]
  have hcount : d.bnum.toNat = 0 := by
    rw [hbnum]
    rfl
  refine ⟨_, 0, fun _ => 0, rfl, ?_, rfl⟩
  refine ⟨hcount, Nat.zero_le _, fun i hi => ?_, fun i hi => ?_, _, stored_list d _, ?_⟩
  · exact absurd hi (Nat.not_lt_zero i)
  · exact absurd hi (Nat.not_lt_zero i)
  · refine ⟨rfl, ⟨[], by decide, List.not_mem_nil, by decide, fun k hk => ?_⟩, fun i hi => ?_⟩
    · cases Nat.le_zero.mp hk
      rfl
    · exact absurd hi (Nat.not_lt_zero i)

theorem insert_image (num : Nat → UInt64) (n : Nat) (b : UInt64) :
    insert b ((Finset.range n).image num)
      = (Finset.range (n + 1)).image (Function.update num n b) := by
  have hold : (Finset.range n).image num = (Finset.range n).image (Function.update num n b) := by
    apply Finset.image_congr
    intro i hi
    exact (Function.update_of_ne (Nat.ne_of_lt (Finset.mem_range.mp hi)) _ _).symm
  rw [Finset.range_add_one, Finset.image_insert, Function.update_self, hold]

theorem erase_image (h : Listing d n num) {m : Nat} (hm : m < n) :
    ((Finset.range n).image num).erase (num m)
      = (Finset.range (n - 1)).image (without num n m) := by
  have hself : without num n m m = num (n - 1) := Function.update_self _ _ _
  have hother : ∀ i ≠ m, without num n m i = num i := fun i him => Function.update_of_ne him _ _
  ext x
  rw [Finset.mem_erase, Finset.mem_image, Finset.mem_image]
  constructor
  · intro hx
    obtain ⟨hne, i, hi, rfl⟩ := hx
    have him : i ≠ m := fun heq => hne (heq ▸ rfl)
    rw [Finset.mem_range] at hi
    by_cases hlast : i = n - 1
    · refine ⟨m, Finset.mem_range.mpr (by omega), ?_⟩
      rw [hself, hlast]
    · exact ⟨i, Finset.mem_range.mpr (by omega), hother i him⟩
  · intro hx
    obtain ⟨i, hi, rfl⟩ := hx
    rw [Finset.mem_range] at hi
    by_cases him : i = m
    · subst him
      rw [hself]
      refine ⟨fun heq => ?_, n - 1, Finset.mem_range.mpr (by omega), rfl⟩
      exact absurd (h.distinct (n - 1) (by omega) i hm heq) (by omega)
    · rw [hother i him]
      refine ⟨fun heq => ?_, i, Finset.mem_range.mpr (by omega), rfl⟩
      exact him (h.distinct i (by omega) m hm heq)

theorem after_run {m : DM Int} {r : Int} {d' : DNode} (h : m d = .ok (r, d')) :
    after m d = some d' := by
  unfold after
  rw [h]
  rfl

theorem lists_step {a : Call} (h : Lists s) (hs : FittingStep s a s') : Lists s' := by
  obtain ⟨hstep, hfit⟩ := hs
  obtain ⟨d, n, num, hnode, hlist, hlisted⟩ := h
  have hfit := hfit d hnode
  cases hstep with
  | @call d₀ listed _ room =>
    cases hnode
    dsimp only at hlisted hfit
    subst hlisted
    cases a with
    | create b =>
      obtain ⟨ht, hopens, hnew, hroom⟩ := hfit
      rw [listing_card hlist] at hroom
      obtain ⟨d', hrun, hlist'⟩ := createblock_lists hlist hroom hopens ht
        fun i hi heq => hnew (heq ▸ mem_image_range hi)
      exact ⟨d', _, _, after_run hrun, hlist', insert_image num n b⟩
    | delete b =>
      obtain ⟨ht, hopen, hin⟩ := hfit
      by_cases hb : b ∈ (Finset.range n).image num
      · obtain ⟨m, hm, rfl⟩ := Finset.mem_image.mp hb
        rw [Finset.mem_range] at hm
        obtain ⟨d', hrun, hlist'⟩ := deleteblock_lists hlist hm hopen ht
        exact ⟨d', _, _, after_run hrun, hlist', erase_image hlist hm⟩
      · have hnone : ∀ i < n, num i ≠ b := by
          intro i hi heq
          apply hb
          rw [← heq]
          exact mem_image_range hi
        obtain ⟨d', hrun, -, hlist'⟩ := deleteblock_none hlist hnone hopen ht (hin.resolve_left hb)
        exact ⟨d', _, _, after_run hrun, hlist', Finset.erase_eq_of_notMem hb⟩

theorem kept_of_lists (hnode : s.node = some d) (h : Listing d n num)
    (hlisted : s.listed = (Finset.range n).image num) : Kept s d := by
  obtain ⟨f, hf, hrec⟩ := h.file
  refine ⟨hnode, ⟨f, hf, hrec.size⟩, fun ho => ?_⟩
  obtain ⟨d', hrun, hat⟩ := getlist_lists h ho
  refine ⟨_, d', hrun, ?_, ?_, ?_⟩
  · rw [hlisted, listing_card h, h.count]
  · intro i hi
    rw [h.count] at hi
    rw [hat i hi, hlisted]
    exact mem_image_range hi
  · intro b hb
    rw [hlisted, Finset.mem_image] at hb
    obtain ⟨i, hi, rfl⟩ := hb
    rw [Finset.mem_range] at hi
    rw [h.count]
    refine ⟨i, ⟨hi, hat i hi⟩, fun j hj => ?_⟩
    exact h.distinct j hj.1 i hi ((hat j hj.1).symm.trans hj.2)

theorem unchanged_of_same {d' : DNode} (h : SameBlocks (unlinked d b) d') : Unchanged b d d' := by
  refine ⟨h.bnum, h.rows, h.blolist, fun p hp hgone => ?_⟩
  rw [h.files p hp]
  show (if d.env.opens 0 then Function.update d.files (pathOf b) none else d.files) p = d.files p
  split
  · by_cases hpb : p = pathOf b
    · rw [hgone hpb, hpb]
      exact update_same
    · exact update_ne hpb
  · rfl

theorem lists_run (h : Reach Fresh FittingStep s) : Lists s :=
  h.inv (fun _ hs => lists_fresh hs) fun _ _ _ hi hs => lists_step hi hs

/-- In every run of calls that fit, the lists are what was entered and not deleted, and a call that
deletes what is not listed changes nothing. -/
theorem listKept_run (h : Reach Fresh FittingStep s) :
    ∃ d, Kept s d ∧ ∀ b s', b ∉ s.listed → FittingStep s (.delete b) s' →
      ∃ d', s'.node = some d' ∧ s'.listed = s.listed ∧ Unchanged b d d' := by
  obtain ⟨d, n, num, hnode, hlist, hlisted⟩ := lists_run h
  refine ⟨d, kept_of_lists hnode hlist hlisted, fun b s' hb hs => ?_⟩
  obtain ⟨hstep, hfit⟩ := hs
  obtain ⟨ht, hopen, hin⟩ := hfit d hnode
  cases hstep with
  | @call d₀ listed _ room =>
    cases hnode
    have hnone : ∀ i < n, num i ≠ b := by
      intro i hi heq
      apply hb
      rw [hlisted, ← heq]
      exact mem_image_range hi
    obtain ⟨d', hrun, hsame, -⟩ := deleteblock_none hlist hnone hopen ht (hin.resolve_left hb)
    exact ⟨d', after_run hrun, Finset.erase_eq_of_notMem hb, unchanged_of_same hsame⟩

end Runs

/-! ## One block more than the table has rows -/

/-- The numbers below `k`. -/
def numbers (k : Nat) : Finset UInt64 := (Finset.range k).image UInt64.ofNat

theorem ofNat_inj_below {i k : Nat} (hi : i < 2 ^ 64) (hk : k < 2 ^ 64)
    (h : UInt64.ofNat i = UInt64.ofNat k) : i = k := by
  have hval := congrArg UInt64.toNat h
  rw [UInt64.toNat_ofNat', UInt64.toNat_ofNat'] at hval
  omega

theorem numbers_card {k : Nat} (hk : k ≤ 2 ^ 64) : (numbers k).card = k := by
  unfold numbers
  rw [Finset.card_image_of_injOn, Finset.card_range]
  intro i hi j hj hij
  have hlt := Finset.mem_range.mp hi
  have hlt' := Finset.mem_range.mp hj
  exact ofNat_inj_below (by omega) (by omega) hij

theorem notMem_numbers {k : Nat} (hk : k < 2 ^ 64) : UInt64.ofNat k ∉ numbers k := by
  intro hmem
  obtain ⟨i, hi, heq⟩ := Finset.mem_image.mp hmem
  have hlt := Finset.mem_range.mp hi
  exact absurd (ofNat_inj_below (by omega) hk heq) (Nat.ne_of_lt hlt)

theorem insert_numbers (k : Nat) : insert (UInt64.ofNat k) (numbers k) = numbers (k + 1) := by
  unfold numbers
  rw [Finset.range_add_one, Finset.image_insert]

theorem after_some {m : DM Int} {d d' : DNode} (h : after m d = some d') :
    ∃ r, m d = .ok (r, d') := by
  unfold after at h
  cases hm : m d with
  | error e =>
    rw [hm] at h
    cases h
  | ok q =>
    rw [hm] at h
    cases h
    exact ⟨q.1, rfl⟩

/-- Every file is opened, there is slack for any number, and memory holds zeros. -/
structure Calm (d : DNode) : Prop where
  willing : Willing d
  slack : 19 ≤ d.env.slack
  stray : d.env.stray = fun _ => 0

theorem Calm.textFits {d : DNode} (h : Calm d) (b : UInt64) : TextFits d b := by
  have hslack := h.slack
  have hlen := numText_length b
  have hflag : (flagnum b).length ≤ 2 := by
    unfold flagnum
    rw [decimal_nat]
    apply numeral_length (by decide)
    rw [UInt64.toNat_mod]
    exact Nat.mod_lt _ (by decide)
  exact ⟨by omega, by omega⟩

theorem Calm.spared {d : DNode} (h : Calm d) : Spared d := by
  have hzero : s32 (getLE d.env.stray 0 4) = 0 := by
    rw [h.stray]
    decide
  unfold Spared
  rw [hzero]
  exact .inr ⟨by decide, by decide⟩

theorem Calm.later {d d' : DNode} (h : Calm d) (hlater : OnlyOpens d d') : Calm d' := by
  have hwilling := willing_later hlater h.willing
  obtain ⟨k, hk⟩ := hlater
  refine ⟨hwilling, ?_, ?_⟩
  · rw [hk]
    exact h.slack
  · rw [hk]
    exact h.stray

/-- The node before there is a list file. -/
def bareNode : DNode := { freshNode with files := fun _ => none }

theorem fresh_bareNode : Fresh ⟨some (stored bareNode ⟨6401 * 64, fun _ => 0⟩), numbers 0⟩ :=
  ⟨bareNode, _, rfl, rfl, initlist_run rfl rfl, rfl⟩

theorem reach_numbers {k : Nat} (hk : k ≤ BLOCKNAME) :
    ∃ d, Reach Fresh FittingStep ⟨some d, numbers k⟩ ∧ Calm d := by
  induction k with
  | zero => exact ⟨_, .init fresh_bareNode, fun _ => rfl, by decide, rfl⟩
  | succ k ih =>
    obtain ⟨d, hreach, hcalm⟩ := ih (Nat.le_of_succ_le hk)
    simp only [BLOCKNAME] at hk
    have hcard : (numbers k).card < BLOCKNAME := by
      rw [numbers_card (by omega)]
      simp only [BLOCKNAME]
      omega
    have hroom : (insert (UInt64.ofNat k) (numbers k)).card ≤ 6400 := by
      rw [insert_numbers, numbers_card (by omega)]
      omega
    have hstep : FittingStep ⟨some d, numbers k⟩ (.create (UInt64.ofNat k))
        ⟨after (createblock (UInt64.ofNat k)) d, insert (UInt64.ofNat k) (numbers k)⟩ := by
      refine ⟨.call hroom, fun d₀ hd₀ => ?_⟩
      cases hd₀
      exact ⟨hcalm.textFits _, ⟨hcalm.willing 0, hcalm.willing 1⟩, notMem_numbers (by omega), hcard⟩
    have hnext := hreach.step hstep
    obtain ⟨d', n, num, hnode, -, -⟩ := lists_run hnext
    have hafter : after (createblock (UInt64.ofNat k)) d = some d' := hnode
    obtain ⟨r, hrun⟩ := after_some hafter
    rw [insert_numbers, hafter] at hnext
    exact ⟨d', hnext, hcalm.later ((keeps_createblock _).rel hrun)⟩

/-- Block 64 is not among the 64 that were created, and its deletion changes nothing. -/
theorem listKept_run_full : ∃ s d s' d', Reach Fresh FittingStep s ∧ s.listed.card = 64 ∧
    Kept s d ∧ FittingStep s (.delete 64) s' ∧ s'.node = some d' ∧ Unchanged 64 d d' := by
  obtain ⟨d, hreach, hcalm⟩ := reach_numbers (Nat.le_refl BLOCKNAME)
  obtain ⟨d₀, hkept, hsame⟩ := listKept_run hreach
  cases hkept.node
  have hfree : (64 : UInt64) ∉ numbers BLOCKNAME :=
    notMem_numbers (k := BLOCKNAME) (by decide)
  have hroom : ((numbers BLOCKNAME).erase 64).card ≤ 6400 := by
    rw [Finset.erase_eq_of_notMem hfree, numbers_card (by decide)]
    decide
  have hstep : FittingStep ⟨some d, numbers BLOCKNAME⟩ (.delete 64)
      ⟨after (deleteblock 64) d, (numbers BLOCKNAME).erase 64⟩ := by
    refine ⟨.call hroom, fun d₁ hd₁ => ?_⟩
    cases hd₁
    exact ⟨hcalm.textFits 64, hcalm.willing 1, .inr hcalm.spared⟩
  obtain ⟨d', hnode, -, hunchanged⟩ := hsame 64 _ hfree hstep
  exact ⟨_, d, _, d', hreach, numbers_card (by decide), hkept, hstep, hnode, hunchanged⟩

/-- The number of the next one is written behind the table. -/
theorem list_overflow :
    ∃ s, Reach Fresh Step s ∧ s.listed.card = 65 ∧ ∀ d, ¬ Kept s d := by
  obtain ⟨d, hreach, hcalm⟩ := reach_numbers (Nat.le_refl BLOCKNAME)
  obtain ⟨d₀, n, num, hnode, hlist, hlisted⟩ := lists_run hreach
  cases hnode
  have hn : n = BLOCKNAME := by
    rw [← listing_card hlist, ← hlisted]
    exact numbers_card (by decide)
  have hfault : createblock (UInt64.ofNat 64) d = .error .fault := by
    apply createblock_fault (hcalm.textFits _)
    intro f hf
    have hrow : d.bnum.toNat * MAX_BLOCKSIZE + (numText (UInt64.ofNat 64)).length + 1
        ≤ BLOCKNAME * MAX_BLOCKSIZE := hf.room.row
    rw [hlist.count, hn] at hrow
    omega
  have hcard : (insert (UInt64.ofNat 64) (numbers 64)).card = 65 := by
    rw [insert_numbers]
    exact numbers_card (by decide)
  have hstep : Step ⟨some d, numbers 64⟩ (.create (UInt64.ofNat 64))
      ⟨after (createblock (UInt64.ofNat 64)) d, insert (UInt64.ofNat 64) (numbers 64)⟩ :=
    .call (hcard.trans_le (by decide))
  have hgone : after (createblock (UInt64.ofNat 64)) d = none := by
    unfold after
    rw [hfault]
    rfl
  refine ⟨_, .step (hreach.mono (fun _ hs => hs) fun _ _ _ hs => hs.1) hstep, hcard, ?_⟩
  intro d' hkept
  have hsome : after (createblock (UInt64.ofNat 64)) d = some d' := hkept.node
  rw [hgone] at hsome
  cases hsome

end Sbpfs.Dnode.BlockList
