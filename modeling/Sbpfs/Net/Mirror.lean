import Sbpfs.Net.FailedWrites

/-!
# A file in the blocks of the data nodes

The bytes of a file against the files in which the data nodes keep its blocks. A write whose
segments cut its range along the blocks puts every byte where it belongs, and leaves the others
alone; the segments of a read are put together again.
-/
namespace Sbpfs.Net.Mirror

open Sbpfs.Lib.Memory Sbpfs.Lib.Pack Sbpfs.Lib.Tiling
open Sbpfs.Cfs.Layout (BLOCKSIZE)
open Sbpfs.Spec.FileTree (Rec)
open Sbpfs.Wire.Head (Str)
open Sbpfs.Libc.Recv (overwrite)
open Sbpfs.Libc.Transfer
open Sbpfs.Dnode.Blockman Sbpfs.Dnode.BlockSpec
open Sbpfs.Dnode.BlockStore (Willing)
open Sbpfs.Net.Parties Sbpfs.Net.TransferSteps Sbpfs.Net.Copies Sbpfs.Net.FailedWrites

/-! ## Bytes of files -/

/-- The byte at a position of a file, if the file reaches that far. -/
def byteOf (f : Option File) (k : Nat) : Option UInt8 :=
  f.bind fun g => if k < g.size then some (g.bytes k) else none

/-- The bytes `content` stand in the blocks `recs`, on every node that is to keep them. -/
def Mirrors (recs : List Rec) (content : Str) (nodes : UInt32 → Option DNode) : Prop :=
  ∀ i x r a d, content[i]? = some x → recs[i / BLOCKSIZE]? = some r → Replica r a →
    nodes a = some d → byteOf (block d (.ofNat r.num)) (i % BLOCKSIZE) = some x

/-- No two blocks have the same number. -/
def Apart (recs : List Rec) : Prop :=
  ∀ (i j : Nat) r r', recs[i]? = some r → recs[j]? = some r' → UInt64.ofNat r.num
    = .ofNat r'.num → i = j

theorem byteOf_some {f : File} {k : Nat} {x : UInt8} :
    byteOf (some f) k = some x ↔ k < f.size ∧ f.bytes k = x := by
  unfold byteOf
  rw [Option.bind_some]
  by_cases hk : k < f.size
  · rw [if_pos hk]
    exact ⟨fun h => ⟨hk, Option.some.inj h⟩, fun h => congrArg some h.2⟩
  · rw [if_neg hk]
    exact iff_of_false (Option.some_ne_none x).symm fun h => hk h.1

section Put

variable {b : UInt64} {f : Option File} {q : BlockEntry × Str} {k : Nat} {x : UInt8}

theorem byteOf_put_inside (hid : q.1.blockId = b) (hlow : q.1.offsetInBlock.toNat ≤ k)
    (hhigh : k < q.1.offsetInBlock.toNat + q.1.lengthInBlock.toNat)
    (hx : q.2[k - q.1.offsetInBlock.toNat]? = some x) : byteOf (put b f q) k = some x := by
  have hn : q.1.lengthInBlock.toNat ≠ 0 := by omega
  unfold put
  rw [if_pos hid, byteOf_some, splice_size hn, splice_bytes hn, if_pos ⟨hlow, hhigh⟩]
  refine ⟨by omega, ?_⟩
  unfold memOf
  rw [hx]
  rfl

theorem byteOf_put_outside (h : byteOf f k = some x) (hout : q.1.blockId = b →
    k < q.1.offsetInBlock.toNat ∨ q.1.offsetInBlock.toNat + q.1.lengthInBlock.toNat ≤ k) :
    byteOf (put b f q) k = some x := by
  by_cases hid : q.1.blockId = b
  · have hk := hout hid
    cases f with
    | none => cases h
    | some f =>
      obtain ⟨hsize, rfl⟩ := byteOf_some.mp h
      unfold put
      rw [if_pos hid, Option.getD_some]
      by_cases hn : q.1.lengthInBlock.toNat = 0
      · unfold File.splice
        rw [if_pos hn]
        exact h
      · rw [byteOf_some, splice_size hn, splice_bytes hn, if_neg (by omega), if_pos hsize]
        exact ⟨by omega, rfl⟩
  · rw [put_other hid]
    exact h

end Put

/-! ## Entries -/

/-- What `P` says of a block and an entry about it, for entries about the blocks from `b` on. -/
def Listed (P : Nat → BlockEntry → Prop) (b : Nat) (es : List BlockEntry) : Prop :=
  ∀ (j : Nat) e, es[j]? = some e → P (b + j) e

theorem listed_cons {P : Nat → BlockEntry → Prop} {b : Nat} {e : BlockEntry} {es : List BlockEntry}
    (h : Listed P b (e :: es)) : P b e ∧ Listed P (b + 1) es := by
  refine ⟨h 0 e rfl, fun j e' he' => ?_⟩
  rw [Nat.add_right_comm]
  exact h (j + 1) e' he'

/-- Offset and length of an entry. -/
def cutOf (e : BlockEntry) : Nat × Nat := (e.offsetInBlock.toNat, e.lengthInBlock.toNat)

/-- The entry has the number of the block. -/
def About (recs : List Rec) (i : Nat) (e : BlockEntry) : Prop :=
  ∃ r, recs[i]? = some r ∧ e.blockId = .ofNat r.num

/-- The entry has the number of the block and names all of its nodes. -/
def Reaches (recs : List Rec) (i : Nat) (e : BlockEntry) : Prop :=
  ∃ r, recs[i]? = some r ∧ e.blockId = .ofNat r.num ∧ ∀ a, Replica r a → 0 < copies e a

theorem Reaches.about {recs : List Rec} {i : Nat} {e : BlockEntry} (h : Reaches recs i e) :
    About recs i e := by
  obtain ⟨r, hr, hid, -⟩ := h
  exact ⟨r, hr, hid⟩

section Writing

variable {recs : List Rec} {buf : Str} {a : UInt32} {es : List BlockEntry} {i : Nat}
    {r : Rec} {x : UInt8}

/-- Bytes outside of the range stay what they are. -/
theorem segments_keep {b start stop ptr : Nat} {f : Option File} (hap : Apart recs)
    (hl : Listed (About recs) b es) (ht : Tiles BLOCKSIZE b start stop (es.map cutOf))
    (hr : recs[i / BLOCKSIZE]? = some r) (hout : i < start ∨ stop ≤ i)
    (hf : byteOf f (i % BLOCKSIZE) = some x) :
    byteOf ((segmentsAt buf a es ptr).foldl (put (.ofNat r.num)) f) (i % BLOCKSIZE) = some x := by
  induction es generalizing b start ptr f with
  | nil => exact hf
  | cons e es ih =>
    obtain ⟨⟨r', hr', hid⟩, hl⟩ := listed_cons hl
    obtain ⟨hstart, -, htail⟩ := ht
    change b * BLOCKSIZE + e.offsetInBlock.toNat = start at hstart
    change Tiles BLOCKSIZE (b + 1) (start + e.lengthInBlock.toNat) stop (es.map cutOf) at htail
    have hle : start + e.lengthInBlock.toNat ≤ stop := htail.sum ▸ Nat.le_add_right _ _
    have hput : byteOf (put (.ofNat r.num) f (e, segmentData buf e ptr)) (i % BLOCKSIZE)
      = some x := by
      refine byteOf_put_outside hf fun hnum => ?_
      have hb : b = i / BLOCKSIZE := hap b _ r' r hr' hr (hid.symm.trans hnum)
      dsimp only [BLOCKSIZE] at hb hstart ⊢
      omega
    unfold segmentsAt
    rw [List.foldl_append, put_replicate]
    refine ih hl htail (by omega) ?_
    split
    · exact hf
    · exact hput

/-- Bytes of the range get where they belong. -/
theorem segments_give {b start stop ptr : Nat} {f : Option File} (hap : Apart recs)
    (hl : Listed (Reaches recs) b es) (ht : Tiles BLOCKSIZE b start stop (es.map cutOf))
    (hr : recs[i / BLOCKSIZE]? = some r) (hrep : Replica r a) (hlow : start ≤ i) (hhigh : i < stop)
    (hx : buf[ptr + (i - start)]? = some x) :
    byteOf ((segmentsAt buf a es ptr).foldl (put (.ofNat r.num)) f) (i % BLOCKSIZE) = some x := by
  induction es generalizing b start ptr f with
  | nil =>
    change start = stop at ht
    omega
  | cons e es ih =>
    obtain ⟨⟨r', hr', hid, hnodes⟩, hl⟩ := listed_cons hl
    obtain ⟨hstart, hin, htail⟩ := ht
    change b * BLOCKSIZE + e.offsetInBlock.toNat = start at hstart
    change e.offsetInBlock.toNat + e.lengthInBlock.toNat ≤ BLOCKSIZE at hin
    change Tiles BLOCKSIZE (b + 1) (start + e.lengthInBlock.toNat) stop (es.map cutOf) at htail
    unfold segmentsAt
    rw [List.foldl_append, put_replicate]
    by_cases hi : i < start + e.lengthInBlock.toNat
    · -- the byte is one of this entry's, and the entries behind it are about other blocks
      have hb : i / BLOCKSIZE = b ∧ i % BLOCKSIZE = e.offsetInBlock.toNat + (i - start) := by
        dsimp only [BLOCKSIZE] at hstart hin ⊢
        omega
      obtain rfl : r' = r := Option.some.inj (hr'.symm.trans (hb.1 ▸ hr))
      rw [if_neg (Nat.ne_of_gt (hnodes a hrep))]
      refine segments_keep hap (fun j e' he' => (hl j e' he').about) htail hr (.inl hi) ?_
      have hlow' : e.offsetInBlock.toNat ≤ i % BLOCKSIZE := hb.2 ▸ Nat.le_add_right _ _
      have hhigh' : i % BLOCKSIZE < e.offsetInBlock.toNat + e.lengthInBlock.toNat := by omega
      refine byteOf_put_inside hid hlow' hhigh' ?_
      dsimp only
      rw [hb.2, Nat.add_sub_cancel_left]
      unfold segmentData slice
      rw [List.getElem?_take_of_lt (by omega), List.getElem?_drop]
      exact hx
    · refine ih hl htail (by omega) ?_
      rw [← hx]
      exact congrArg (buf[·]?) (by omega)

end Writing

/-! ## Writing a range -/

theorem overwrite_inside {s t : Str} {p i : Nat} (hp : p ≤ s.length) (hlow : p ≤ i)
    (hhigh : i < p + t.length) : (overwrite s p t)[i]? = t[i - p]? := by
  have hfront : (s.take p).length = p := List.length_take_of_le hp
  unfold overwrite
  rw [List.getElem?_append_left (by rw [List.length_append]; omega),
    List.getElem?_append_right (by omega), hfront]

theorem overwrite_outside {s t : Str} {p i : Nat} (hp : p ≤ s.length)
    (hout : i < p ∨ p + t.length ≤ i) : (overwrite s p t)[i]? = s[i]? := by
  have hfront : (s.take p).length = p := List.length_take_of_le hp
  unfold overwrite
  rcases hout with hi | hi
  · rw [List.getElem?_append_left (by rw [List.length_append]; omega),
      List.getElem?_append_left (by omega), List.getElem?_take_of_lt hi]
  · rw [List.getElem?_append_right (by rw [List.length_append]; omega), List.length_append, hfront,
      List.getElem?_drop]
    exact congrArg (s[·]?) (by omega)

/-- Every node that is there opens the files that are there. -/
def AllWilling (nodes : UInt32 → Option DNode) : Prop := ∀ a d, nodes a = some d → Willing d

section Range

variable {recs news : List Rec} {content buf : Str} {es : List BlockEntry} {s s' : Cluster}

theorem takes_willing (hw : AllWilling s.nodes) (ht : ∀ a, ∃ l, Takes a l s s') :
    AllWilling s'.nodes := by
  intro a d' hd'
  obtain ⟨l, htakes⟩ := ht a
  obtain ⟨d, hd, hstores⟩ := htakes d' hd'
  exact (stores_put (b := 0) hstores (hw a d hd)).2

/-- Segments that cut the range along the blocks update the file. -/
theorem mirrors_written {pos len : Nat} (h : Mirrors recs content s.nodes) (hw : AllWilling s.nodes)
    (hap : Apart (recs ++ news)) (hl : Listed (Reaches (recs ++ news)) (pos / BLOCKSIZE) es)
    (ht : Tiles BLOCKSIZE (pos / BLOCKSIZE) pos (pos + len) (es.map cutOf))
    (hpos : pos ≤ content.length)
    (hlen : len ≤ buf.length) (hroom : content.length ≤ recs.length * BLOCKSIZE)
    (htake : ∀ a, Takes a (segmentsAt buf a es 0) s s') :
    Mirrors (recs ++ news) (overwrite content pos (buf.take len)) s'.nodes := by
  have hdata : (buf.take len).length = len := List.length_take_of_le hlen
  intro i x r a d' hx hr hrep hd'
  obtain ⟨d, hd, hstores⟩ := htake a d' hd'
  rw [(stores_put hstores (hw a d hd)).1]
  by_cases hin : pos ≤ i ∧ i < pos + len
  · rw [overwrite_inside hpos hin.1 (by rw [hdata]; exact hin.2),
      List.getElem?_take_of_lt (by omega)] at hx
    exact segments_give hap hl ht hr hrep hin.1 hin.2 (by rw [Nat.zero_add]; exact hx)
  · rw [overwrite_outside hpos (by omega)] at hx
    have hi : i < content.length := (List.getElem?_eq_some_iff.mp hx).1
    have hold : i / BLOCKSIZE < recs.length := Nat.div_lt_of_lt_mul (by rw [Nat.mul_comm]; omega)
    have hr' : recs[i / BLOCKSIZE]? = some r := by
      rw [← hr, List.getElem?_append_left hold]
    exact segments_keep hap (fun j e he => (hl j e he).about) ht hr (by omega)
      (h i x r a d hx hr' hrep hd)

theorem mem_segmentsAt {a : UInt32} {ptr : Nat} {q : BlockEntry × Str}
    (h : q ∈ segmentsAt buf a es ptr) :
    q.1 ∈ es := by
  induction es generalizing ptr with
  | nil => cases h
  | cons e es ih =>
    rcases List.mem_append.mp h with hq | hq
    · rw [(List.mem_replicate.mp hq).2]
      exact List.mem_cons_self ..
    · exact List.mem_cons_of_mem _ (ih hq)

/-- Segments of no bytes change nothing. -/
theorem mirrors_empty (h : Mirrors recs content s.nodes) (hw : AllWilling s.nodes)
    (htake : ∀ a, ∃ l, Takes a l s s' ∧ ∀ q ∈ l, q.1.lengthInBlock.toNat = 0) :
    Mirrors recs content s'.nodes := by
  have hput : ∀ {b : UInt64} {k : Nat} {x : UInt8} {l : List (BlockEntry × Str)} {f : Option File},
      (∀ q ∈ l, q.1.lengthInBlock.toNat = 0) → byteOf f k = some x →
        byteOf (l.foldl (put b) f) k = some x := by
    intro b k x l
    induction l with
    | nil => exact fun _ hf => hf
    | cons q l ih =>
      intro f hl hf
      refine ih (fun q' hq' => hl q' (List.mem_cons_of_mem _ hq'))
        (byteOf_put_outside hf fun _ => ?_)
      have hq := hl q (List.mem_cons_self ..)
      omega
  intro i x r a d' hx hr hrep hd'
  obtain ⟨l, htakes, hl⟩ := htake a
  obtain ⟨d, hd, hstores⟩ := htakes d' hd'
  rw [(stores_put hstores (hw a d hd)).1]
  exact hput hl (h i x r a d hx hr hrep hd)

end Range

/-! ## Reading a range -/

/-- What entries about the blocks from `b` on are to deliver. -/
def gathered (content : Str) : Nat → List BlockEntry → Str
  | _, [] => []
  | b, e :: es => slice content (b * BLOCKSIZE + e.offsetInBlock.toNat) e.lengthInBlock.toNat ++
      gathered content (b + 1) es

theorem gathered_tiles {content : Str} {b start stop : Nat} {es : List BlockEntry}
    (ht : Tiles BLOCKSIZE b start stop (es.map cutOf)) :
    gathered content b es = slice content start (stop - start) := by
  induction es generalizing b start with
  | nil =>
    change start = stop at ht
    rw [ht, Nat.sub_self]
    rfl
  | cons e es ih =>
    obtain ⟨hstart, -, htail⟩ := ht
    change b * BLOCKSIZE + e.offsetInBlock.toNat = start at hstart
    change Tiles BLOCKSIZE (b + 1) (start + e.lengthInBlock.toNat) stop (es.map cutOf) at htail
    have hle : start + e.lengthInBlock.toNat ≤ stop := htail.sum ▸ Nat.le_add_right _ _
    have hsplit : stop - start
      = e.lengthInBlock.toNat + (stop - (start + e.lengthInBlock.toNat)) := by
      omega
    unfold gathered
    rw [ih htail, hstart, hsplit, slice_add]

end Sbpfs.Net.Mirror
