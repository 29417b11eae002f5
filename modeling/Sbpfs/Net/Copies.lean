import Sbpfs.Net.TransferSteps

/-!
# The copies of a block

What the segments of a write make of the file of a block. A node that is to store a segment more
than once is none the worse for it, so two nodes that store the same segments of a block have
the same file if they had it before.
-/
namespace Sbpfs.Net.Copies

open Sbpfs.Lib.Memory
open Sbpfs.Wire.Head Sbpfs.Libc.Transfer
open Sbpfs.Dnode.Blockman Sbpfs.Dnode.BlockSpec
open Sbpfs.Dnode.BlockStore (Willing)
open Sbpfs.Net.Parties Sbpfs.Net.TransferSteps

/-- What a segment makes of the file of the block `b`. -/
def put (b : UInt64) (f : Option File) (q : BlockEntry × Str) : Option File :=
  if q.1.blockId = b then some ((f.getD blank).splice q.1.offsetInBlock.toNat
    q.1.lengthInBlock.toNat (memOf q.2 fun _ => 0))
  else f

theorem file_ext {f g : File} (h : f.size = g.size) (h' : f.bytes = g.bytes) : f = g := by
  cases f
  cases g
  cases h
  cases h'
  rfl

theorem splice_twice (f : File) (offset n : Nat) (data : Bytes) :
    (f.splice offset n data).splice offset n data = f.splice offset n data := by
  by_cases hn : n = 0
  · unfold File.splice
    rw [if_pos hn, if_pos hn]
  have hsize : ((f.splice offset n data).splice offset n data).size
    = (f.splice offset n data).size := by
    rw [splice_size hn, splice_size hn]
    omega
  have hbytes : ((f.splice offset n data).splice offset n data).bytes
    = (f.splice offset n data).bytes := by
    funext i
    rw [splice_bytes hn, splice_bytes hn, splice_size hn]
    by_cases hin : offset ≤ i ∧ i < offset + n
    · rw [if_pos hin, if_pos hin]
    · rw [if_neg hin, if_neg hin]
      by_cases hi : i < f.size
      · rw [if_pos hi, if_pos (by omega)]
      · rw [if_neg hi, ite_self]
  exact file_ext hsize hbytes

theorem put_twice (b : UInt64) (f : Option File) (q : BlockEntry × Str) :
    put b (put b f q) q = put b f q := by
  by_cases h : q.1.blockId = b
  · unfold put
    rw [if_pos h, if_pos h, Option.getD_some, splice_twice]
  · unfold put
    rw [if_neg h, if_neg h]

theorem put_other {b : UInt64} {q : BlockEntry × Str} (h : q.1.blockId ≠ b) (f : Option File) :
    put b f q = f := if_neg h

/-- Any number of times is as good as once. -/
theorem put_replicate (b : UInt64) (f : Option File) (q : BlockEntry × Str) (n : Nat) :
    (List.replicate n q).foldl (put b) f = if n = 0 then f else put b f q := by
  induction n generalizing f with
  | zero => rfl
  | succ n ih =>
    rw [List.replicate_succ, List.foldl_cons, ih, if_neg (Nat.succ_ne_zero n), put_twice]
    exact ite_self _

section Nodes

variable {b : UInt64} {l : List (BlockEntry × Str)} {d d' : DNode}

theorem stored_put {q : BlockEntry × Str} (hd : Willing d)
    (h : Stored q.1.blockId q.1.offsetInBlock.toNat q.1.lengthInBlock.toNat q.2 d d') :
    block d' b = put b (block d b) q := by
  by_cases hb : q.1.blockId = b
  · subst hb
    obtain ⟨f, hf, hat⟩ := h.spliced
    have hget : (block d q.1.blockId).getD blank = f := by
      rcases hf with hf | ⟨rfl, hnone⟩
      · rw [hf]
        rfl
      · rw [hnone (hd 0)]
        rfl
    unfold put
    rw [if_pos rfl, hget, hat]
  · rw [put_other hb]
    exact h.other b (Ne.symm hb)

/-- What a node that has stored segments holds for a block. -/
theorem stores_put (h : Stores l d d') (hd : Willing d) :
    block d' b = l.foldl (put b) (block d b) ∧ Willing d' := by
  induction h with
  | nil => exact ⟨rfl, hd⟩
  | @cons ent data l d d₁ d' store opens _ ih =>
    obtain ⟨hblock, hwilling⟩ := ih (opens hd)
    refine ⟨?_, hwilling⟩
    rw [hblock, stored_put (q := (ent, data)) hd store, List.foldl_cons]

end Nodes

/-- The entry names both nodes or none of them. -/
def Alike (ent : BlockEntry) (a a' : UInt32) : Prop := 0 < copies ent a ↔ 0 < copies ent a'

section Segments

variable {buf : Str} {b : UInt64} {a a' : UInt32} {es : List BlockEntry}

theorem segments_put (f : Option File) (h : ∀ e ∈ es, e.blockId = b → Alike e a a') (ptr : Nat) :
    (segmentsAt buf a es ptr).foldl (put b) f = (segmentsAt buf a' es ptr).foldl (put b) f := by
  induction es generalizing f ptr with
  | nil => rfl
  | cons e es ih =>
    have hrest :=
      fun g => ih g (fun x hx => h x (List.mem_cons_of_mem _ hx)) (ptr + e.lengthInBlock.toNat)
    unfold segmentsAt
    rw [List.foldl_append, List.foldl_append, put_replicate, put_replicate]
    by_cases hb : e.blockId = b
    · have halike := h e (List.mem_cons_self ..) hb
      unfold Alike at halike
      by_cases hz : copies e a = 0
      · rw [if_pos hz, if_pos (by omega)]
        exact hrest f
      · rw [if_neg hz, if_neg (by omega)]
        exact hrest _
    · rw [put_other (q := (e, _)) hb, ite_self, ite_self]
      exact hrest f

/-- Two nodes hold the same file for a block of which they were to store the same. -/
theorem takes_same {ent : BlockEntry} {data : Str} {ptr n n' : Nat} {s s' : Cluster}
    (h : Takes a (segmentsAt buf a es ptr ++ List.replicate n (ent, data)) s s')
    (h' : Takes a' (segmentsAt buf a' es ptr ++ List.replicate n' (ent, data)) s s')
    (hb : ent.blockId ≠ b) (halike : ∀ e ∈ es, e.blockId = b → Alike e a a') {d₁ d₂ d₁' d₂' : DNode}
    (hd₁ : s.nodes a = some d₁) (hd₂ : s.nodes a' = some d₂) (hd₁' : s'.nodes a = some d₁')
    (hd₂' : s'.nodes a' = some d₂') (hw₁ : Willing d₁) (hw₂ : Willing d₂)
    (hsame : block d₁ b = block d₂ b) : block d₁' b = block d₂' b := by
  obtain ⟨_, hd, hstores⟩ := h d₁' hd₁'
  obtain rfl := Option.some.inj (hd₁.symm.trans hd)
  obtain ⟨_, hd, hstores'⟩ := h' d₂' hd₂'
  obtain rfl := Option.some.inj (hd₂.symm.trans hd)
  rw [(stores_put hstores hw₁).1, (stores_put hstores' hw₂).1, List.foldl_append, List.foldl_append,
    put_replicate, put_replicate, put_other (q := (ent, data)) hb, put_other (q := (ent, data)) hb,
    ite_self, ite_self, hsame]
  exact segments_put _ halike ptr

end Segments

end Sbpfs.Net.Copies
