import Sbpfs.Cfs.Invariants

/-!
# The headers of files over runs

What the header of a file says about its records and its chain, and how its length moves.
`c_read` and `c_write` index the records without a check of their own: this is what keeps
them inside the buffer.
-/
namespace Sbpfs.Cfs.FileHeaders

open Sbpfs.Lib.Program Sbpfs.Lib.Memory Sbpfs.Lib.Run
open Sbpfs.Cfs.Layout Sbpfs.Cfs.Rules Sbpfs.Cfs.FileSpec Sbpfs.Cfs.Data Sbpfs.Cfs.Image
    Sbpfs.Cfs.DiskStore
open Sbpfs.Cfs.LookupSpec Sbpfs.Cfs.ObjectSpec Sbpfs.Cfs.BlockSpec Sbpfs.Cfs.DataSpec
open Sbpfs.Cfs.DiskView Sbpfs.Cfs.Calls Sbpfs.Cfs.RunSpec Sbpfs.Cfs.Invariants
open Sbpfs.Cfs.Mkfs (blank)
open Sbpfs.Spec.FileTree Sbpfs.Spec.Resolve

attribute [local irreducible] wpOr

/-- One record for every 16 MB of length, as many sectors as header and records take, and
a chain of that many sectors. -/
structure HeaderAgrees (dt : Dtree) (fb : Nat) : Prop where
  strbase : metaStrbase (dt.data fb) = 32 * blocksFor (metaFlen (dt.data fb))
  blocks : metaBlocks (dt.data fb) = (64 + metaStrbase (dt.data fb) + 511) / 512
  chain : ∃ cs, IsChain dt fb cs ∧ cs.length = metaBlocks (dt.data fb)

/-- The length of the file at `fb` after a call with the value `r`, when it was `len`. -/
def lengthAfter (c : Call) (r : Int) (fb len : Nat) : Nat :=
  match c with
  | .write fb' offset length _ =>
    if fb'.toNat = fb ∧ 0 ≤ r then max len (offset.toNat + length.toNat) else len
  | _ => len

theorem le_lengthAfter (c : Call) (r : Int) (fb len : Nat) : len ≤ lengthAfter c r fb len := by
  cases c with
  | write fb' offset length ips =>
    dsimp only [lengthAfter]
    by_cases h : fb'.toNat = fb ∧ 0 ≤ r
    · rw [if_pos h]
      exact Nat.le_max_left ..
    · rw [if_neg h]
  | _ => exact Nat.le_refl _

section Stored

variable {dt : Dtree} {fs : Fs} {chain : Nat → List Nat} {fb u len : Nat} {fl : UInt8}
  {recs : List Rec}

/-- The fields of the first sector of a file. -/
theorem file_header (hst : Store dt fs chain) (ho : fs fb = some ⟨u, fl, .file len recs⟩) :
    metaFlen (dt.data fb) = len ∧ metaStrbase (dt.data fb) = 32 * recs.length ∧
      metaBlocks (dt.data fb) = (chain fb).length := by
  have hat := hst.obj fb _ ho
  have hfile : FileImage (imageOf dt.data (chain fb)) (chain fb).length len recs := hat.holds.node
  refine ⟨?_, ?_, ?_⟩
  · exact (hat.header_field (by omega)).trans hfile.flen
  · exact (hat.header_field (by omega)).trans hfile.strbase
  · exact (hat.header_field (by omega)).trans hat.holds.blocks

theorem headerAgrees_of_store (hst : Store dt fs chain)
    (ho : fs fb = some ⟨u, fl, .file len recs⟩) : HeaderAgrees dt fb := by
  have hat := hst.obj fb _ ho
  have hfile : FileImage (imageOf dt.data (chain fb)) (chain fb).length len recs := hat.holds.node
  obtain ⟨hflen, hbase, hblocks⟩ := file_header hst ho
  refine ⟨?_, ?_, chain fb, isChain_of hat, hblocks.symm⟩
  · rw [hbase, hflen, hfile.count]
  · rw [hblocks, hbase]
    exact hfile.sectors

end Stored

/-- The length of a file moves as `lengthAfter` says. -/
theorem length_step {s s' : Sys} {a : Action} {r : Int} {fb : Nat} (h : Holding s)
    (hret : Returns s a r s') (hsound : Sound s.dt a.call a.env) (hl : Live s.dt fb S_FIL)
    (hl' : Live s'.dt fb S_FIL) :
    metaFlen (s'.dt.data fb) = lengthAfter a.call r fb (metaFlen (s.dt.data fb)) := by
  obtain ⟨fs, chain, hst, ht, hb⟩ := h
  obtain ⟨hallow, w', hrun, rfl⟩ := hret
  obtain ⟨u, fl, len, recs, ho⟩ := live_file hst ht hl
  have hlen := (file_header hst ho).1
  obtain ⟨c, e⟩ := a
  by_cases hc : ∀ fb offset length ips, c ≠ .write fb offset length ips
  · obtain ⟨fs', chain', hst', he⟩ := explained hst ht hb hallow hsound hrun
    obtain ⟨u', fl', len', recs', ho'⟩ := live_file hst' (he.tree ht) hl'
    rcases he.fileFrom ht hc ho' with ⟨u₁, fl₁, ho₁⟩ | ⟨hnone, -⟩
    swap
    · rw [ho] at hnone
      cases hnone
    rw [ho] at ho₁
    cases ho₁
    have hlen' := (file_header hst' ho').1
    rw [hlen', hlen]
    cases c with
    | write fb' offset length ips => exact absurd rfl (hc _ _ _ _)
    | _ => rfl
  · push Not at hc
    obtain ⟨fb', offset, length, ips, rfl⟩ := hc
    rcases write_outcome_run (w := ⟨s.dt, s.ipIndex, e⟩) hst ht hb hallow.2 hsound hrun with
      ⟨hs, hneg⟩ | ⟨hret, segs, u₁, fl₁, len₁, recs₁, news, w₁, cs, ho₁, -, -, hw⟩
    · have hdt : w'.dt = s.dt := hs.dt
      have hneg' : ¬ (fb'.toNat = fb ∧ 0 ≤ r) := fun h => absurd h.2 (not_le.mpr hneg)
      dsimp only [lengthAfter]
      rw [if_neg hneg', hdt]
    · have hst' := hw.rewritten.store
      dsimp only [lengthAfter]
      by_cases hfb : fb'.toNat = fb
      · subst hfb
        rw [ho] at ho₁
        cases ho₁
        have hlen' := (file_header hst' (Function.update_self ..)).1
        rw [if_pos ⟨rfl, hret⟩, hlen]
        exact hlen'
      · have hlen' := (file_header hst' ((Function.update_of_ne (Ne.symm hfb) ..).trans ho)).1
        rw [if_neg fun h => hfb h.1, hlen]
        exact hlen'

/-- In every run of sound calls the headers of all files agree with their records and
chains, and a sound call moves a length as `lengthAfter` says, never down. -/
theorem fileHeaders_run {s : Sys} (h : Reach Fresh SoundStep s) :
    (∀ fb, Live s.dt fb S_FIL → HeaderAgrees s.dt fb) ∧
    ∀ a r s', Returns s a r s' → Sound s.dt a.call a.env →
      ∀ fb, Live s.dt fb S_FIL → Live s'.dt fb S_FIL →
        metaFlen (s'.dt.data fb) = lengthAfter a.call r fb (metaFlen (s.dt.data fb)) ∧
        metaFlen (s.dt.data fb) ≤ metaFlen (s'.dt.data fb) := by
  have hold := holding_run h
  constructor
  · intro fb hl
    obtain ⟨fs, chain, hst, ht, -⟩ := hold
    obtain ⟨u, fl, len, recs, ho⟩ := live_file hst ht hl
    exact headerAgrees_of_store hst ho
  · intro a r s' hret hsound fb hl hl'
    have hstep := length_step hold hret hsound hl hl'
    refine ⟨hstep, ?_⟩
    rw [hstep]
    exact le_lengthAfter ..

theorem fileHeaders_run_soundCalls :
    ∃ s, execFresh calm blank soundCalls = some ([0, 3, 0], s) ∧
      ∀ fb, Live s.dt fb S_FIL → HeaderAgrees s.dt fb := by
  have hrun : (execFresh calm blank soundCalls).map Prod.fst = some [0, 3, 0] := by decide +kernel
  obtain ⟨s, hs⟩ := exists_run hrun
  exact ⟨s, hs, (fileHeaders_run (reach_execFresh soundCalls_sound (calm_succeeds _) hs)).1⟩

/-- The allocation of `do_remove_entry` fails, all others succeed. -/
def noTail : Env := { calm with heap := fun s k => if s = .tail then none else calm.heap s k }

/-- A removal whose last allocation fails keeps the entry of a file that has
no chain any more. -/
theorem remove_without_tail :
    ∃ s, Reach Fresh Step s ∧ ∃ fb, Live s.dt fb S_FIL ∧ ¬ HeaderAgrees s.dt fb := by
  have hrun : (twoCalls (calmly (.openFile (rootPath letterA) 8 6 0))
      ⟨.remove (rootPath letterA) 0, noTail⟩).map
      (fun q => (rootReading q.2.2.2.2.dt, q.2.2.2.1,
        [metaBlocks (q.2.2.2.2.dt.data 2), q.2.2.2.2.dt.fat 2]))
      = some ([(1, S_DIR), (1, S_DIR), (1, S_DIR), (2, S_FIL)], -9, [1, FREESEC]) := by
        decide +kernel
  cases hm : twoCalls (calmly (.openFile (rootPath letterA) 8 6 0))
      ⟨.remove (rootPath letterA) 0, noTail⟩ with
  | none => simp [hm] at hrun
  | some q =>
    obtain ⟨s, r₁, s₁, r, s₂⟩ := q
    simp only [hm, Option.map_some, Option.some.injEq, Prod.mk.injEq] at hrun
    obtain ⟨hread, rfl, hfields⟩ := hrun
    simp only [List.cons.injEq, and_true] at hfields
    obtain ⟨hblocks, hfat⟩ := hfields
    obtain ⟨hfresh, hopen, hrem⟩ := twoCalls_returns hm
    refine ⟨s₂, .step (.step (.init hfresh) ⟨_, hopen⟩) ⟨_, hrem⟩, 2,
      live_of_root hread (by decide), fun h => ?_⟩
    -- one sector by its header, but its slot does not end a chain
    obtain ⟨cs, hc, hlen⟩ := h.chain
    rw [hblocks] at hlen
    obtain ⟨c, rfl⟩ := List.length_eq_one_iff.mp hlen
    cases hc.head
    have hend : s₂.dt.fat 2 = ENDSEC := hc.linked
    rw [hfat] at hend
    exact absurd hend (by decide)

end Sbpfs.Cfs.FileHeaders
