import Sbpfs.Lib.Program
import Sbpfs.Dnode.BlockSpec

/-!
# The blocks as a store

`writeblock` and `readblock` against a map from block numbers to bytes that is told from the writes
alone. The operating system opens every file that is there. What `fread` has not got is not
noticed, so a range that ends behind the file of its block is not read in full.
-/
namespace Sbpfs.Dnode.BlockStore

open Sbpfs.Lib.Program Sbpfs.Lib.Memory Sbpfs.Lib.Run
open Sbpfs.Wire.Head Sbpfs.Libc.Request Sbpfs.Dnode.Blockman Sbpfs.Dnode.BlockSpec

/-! ## What the writes say -/

/-- A write that was done. -/
structure Write where
  block : UInt64
  offset : Nat
  bytes : Str

/-- The byte that was last written at a position of a block, 0 where none was. -/
def lastByte : List Write → UInt64 → Nat → UInt8
  | [], _, _ => 0
  | w :: ws, b, i =>
    if w.block = b ∧ w.offset ≤ i ∧ i < w.offset + w.bytes.length then
      (w.bytes[i - w.offset]?).getD 0
    else lastByte ws b i

def Created (ws : List Write) (b : UInt64) : Prop := ∃ w ∈ ws, w.block = b

/-- Where the file of a block ends: a write behind the size that it was made with extends it. -/
def fileEnd : List Write → UInt64 → Nat
  | [], _ => FILEMAXSIZE
  | w :: ws, b =>
    if w.block = b ∧ w.bytes ≠ [] then max (fileEnd ws b) (w.offset + w.bytes.length)
    else fileEnd ws b

/-- The range lies in the file of the block. -/
def Deliverable (ws : List Write) (b : UInt64) (offset length : Nat) : Prop :=
  Created ws b ∧ (length = 0 ∨ offset + length ≤ fileEnd ws b)

/-- A read returns 0 with the bytes last written, or a negative value if it cannot get them all. -/
def ReadLaw (ws : List Write) (b : UInt64) (offset length : Nat) (r : Int) (buf : Bytes) : Prop :=
  (r = 0 ∧ Deliverable ws b offset length ∧ ∀ i < length, buf i = lastByte ws b (offset + i)) ∨
    r < 0 ∧ ¬ Deliverable ws b offset length

/-! ## Calls -/

inductive Request where
  | write (b : UInt64) (offset length : UInt32) (data : Str)
  | read (b : UInt64) (offset length : UInt32) (databuf : Bytes)

/-- The node, and the writes that it has done, the last one first. -/
structure Session where
  node : DNode
  writes : List Write

/-- A call that comes back. -/
inductive Step : Session → Request → Session → Prop
  | write {s : Session} {b : UInt64} {offset length : UInt32} {data : Str} {r : Int} {n : DNode}
      (run : writeblock b offset length data s.node = .ok (r, n)) :
      Step s (.write b offset length data)
        ⟨n, ⟨b, offset.toNat, data.take length.toNat⟩ :: s.writes⟩
  | read {s : Session} {b : UInt64} {offset length : UInt32} {databuf buf : Bytes} {r : Int}
      {n : DNode} (run : readblock b offset length databuf s.node = .ok ((r, buf), n)) :
      Step s (.read b offset length databuf) ⟨n, s.writes⟩

/-- Every file that is there is opened. -/
def Willing (d : DNode) : Prop := ∀ k, d.env.opens k = true

/-- There is no block yet. -/
structure Empty (s : Session) : Prop where
  willing : Willing s.node
  blocks : ∀ b, block s.node b = none
  writes : s.writes = []

/-! ## Calls on a willing system -/

/-- Nothing that the programs do makes the system refuse a file. -/
theorem willing_later {d d' : DNode} (h : OnlyOpens d d') (hd : Willing d) : Willing d' := by
  obtain ⟨k, hk⟩ := h
  intro j
  rw [hk]
  exact hd (j + k)

section Willing

variable {d d' : DNode} {b : UInt64} {offset length : UInt32} {data : Str} {r : Int}

/-- A block that has just been made can be opened. -/
theorem writeblock_zero (hd : Willing d) (h : writeblock b offset length data d = .ok (r, d')) :
    r = 0 := by
  obtain ⟨path, t, hpath, h₁⟩ := bind_ok.mp h
  obtain ⟨rfl, rfl⟩ := getpath_done hpath
  rw [bind_run (fopen_run ..)] at h₁
  cases ho : (if t.env.opens 0 then t.files (pathOf b) else none) with
  | some f =>
    rw [ho] at h₁
    exact (storeBlock_done h₁).1
  | none =>
    rw [ho] at h₁
    obtain ⟨q, t₁, hcreate, h₂⟩ := bind_ok.mp h₁
    have hopened : Willing (opened t) := fun k => hd (k + 1)
    have hwilling : Willing t₁ := willing_later ((keeps_createblock b).rel hcreate) hopened
    have hfile : t₁.files (pathOf b) = some blank := (createblock_done hcreate).1
    rw [bind_run (fopen_run ..), hwilling 0, if_pos rfl, hfile] at h₂
    exact (storeBlock_done h₂).1

/-- The outcome of a write. -/
theorem writeblock_stored (hd : Willing d) (h : writeblock b offset length data d = .ok (r, d')) :
    Willing d' ∧ length.toNat ≤ data.length ∧
      (∃ f, (block d b = some f ∨ f = blank ∧ block d b = none) ∧
        block d' b = some (f.splice offset.toNat length.toNat (memOf data fun _ => 0))) ∧
      ∀ b' ≠ b, block d' b' = block d b' := by
  have hzero := writeblock_zero hd h
  rcases writeblock_done h with ⟨-, hst⟩ | hneg
  · obtain ⟨f, hf, hat⟩ := hst.spliced
    refine ⟨willing_later ((keeps_writeblock b offset length data).rel h) hd, hst.enough,
      ⟨f, ?_, hat⟩, hst.other⟩
    rcases hf with hf | ⟨hf, hnone⟩
    · exact .inl hf
    · exact .inr ⟨hf, hnone (hd 0)⟩
  · rw [hneg] at hzero
    exact absurd hzero (by decide)

/-- The outcome of a read. -/
theorem readblock_done {databuf buf : Bytes} (hd : Willing d)
    (h : readblock b offset length databuf d = .ok ((r, buf), d')) :
    Willing d' ∧ (∀ b', block d' b' = block d b') ∧
      (block d b = none ∧ r = -1 ∨ ∃ f, block d b = some f ∧ r = 0 ∧
        buf = blit databuf 0 f.bytes offset.toNat (f.avail offset.toNat length.toNat)) := by
  obtain ⟨path, t, hpath, h₁⟩ := bind_ok.mp h
  obtain ⟨rfl, rfl⟩ := getpath_done hpath
  rw [bind_run (fopen_run ..), hd 0, if_pos rfl] at h₁
  have hopened : Willing (opened t) := fun k => hd (k + 1)
  cases hf : t.files (pathOf b) with
  | none =>
    rw [hf] at h₁
    cases h₁
    exact ⟨hopened, fun _ => rfl, .inl ⟨hf, rfl⟩⟩
  | some f =>
    rw [hf] at h₁
    cases h₁
    exact ⟨hopened, fun _ => rfl, .inr ⟨f, hf, rfl, rfl⟩⟩

end Willing

/-! ## Runs -/

/-- The files are what the writes say. -/
structure Tells (s : Session) : Prop where
  willing : Willing s.node
  absent : ∀ b, ¬ Created s.writes b → block s.node b = none
  file : ∀ b, Created s.writes b → ∃ f, block s.node b = some f ∧ f.size = fileEnd s.writes b ∧
    ∀ i, (if i < f.size then f.bytes i else 0) = lastByte s.writes b i

section Runs

variable {s s' : Session} {b : UInt64} {offset length : UInt32} {r : Int} {n : DNode}

theorem created_cons {w : Write} {ws : List Write} :
    Created (w :: ws) b ↔ w.block = b ∨ Created ws b := by
  unfold Created
  simp only [List.mem_cons, exists_eq_or_imp]

/-- Nothing has been written to a block that is not there. -/
theorem lastByte_absent {ws : List Write} (h : ¬ Created ws b) (i : Nat) : lastByte ws b i = 0 := by
  induction ws with
  | nil => rfl
  | cons w ws ih =>
    rw [created_cons, not_or] at h
    exact (if_neg fun hc => h.1 hc.1).trans (ih h.2)

theorem fileEnd_absent {ws : List Write} (h : ¬ Created ws b) : fileEnd ws b = FILEMAXSIZE := by
  induction ws with
  | nil => rfl
  | cons w ws ih =>
    rw [created_cons, not_or] at h
    rw [fileEnd, if_neg fun hc => h.1 hc.1]
    exact ih h.2

theorem lastByte_inside {w : Write} {ws : List Write} {i : Nat}
    (h : w.block = b ∧ w.offset ≤ i ∧ i < w.offset + w.bytes.length) :
    lastByte (w :: ws) b i = (w.bytes[i - w.offset]?).getD 0 := if_pos h

theorem lastByte_outside {w : Write} {ws : List Write} {i : Nat}
    (h : ¬ (w.block = b ∧ w.offset ≤ i ∧ i < w.offset + w.bytes.length)) :
    lastByte (w :: ws) b i = lastByte ws b i := if_neg h

theorem lastByte_other {w : Write} {ws : List Write} (h : w.block ≠ b) (i : Nat) :
    lastByte (w :: ws) b i = lastByte ws b i := lastByte_outside fun hc => h hc.1

theorem fileEnd_other {w : Write} {ws : List Write} (h : w.block ≠ b) :
    fileEnd (w :: ws) b = fileEnd ws b := by
  rw [fileEnd, if_neg fun hc => h hc.1]

/-- A write to a file is a write to what the file says. -/
theorem splice_tells {f : File} {ws : List Write} {data : Str} {off len : Nat}
    (hlen : len ≤ data.length) (hsize : f.size = fileEnd ws b)
    (hbytes : ∀ i, (if i < f.size then f.bytes i else 0) = lastByte ws b i) :
    (f.splice off len (memOf data fun _ => 0)).size = fileEnd (⟨b, off, data.take len⟩ :: ws) b ∧
      ∀ i, (if i < (f.splice off len (memOf data fun _ => 0)).size then
        (f.splice off len (memOf data fun _ => 0)).bytes i else 0)
          = lastByte (⟨b, off, data.take len⟩ :: ws) b i := by
  have htake : (data.take len).length = len := by
    rw [List.length_take, Nat.min_eq_left hlen]
  by_cases hzero : len = 0
  · subst hzero
    have hsplice : f.splice off 0 (memOf data fun _ => 0) = f := rfl
    rw [hsplice, fileEnd, if_neg fun hc => hc.2 rfl]
    refine ⟨hsize, fun i => ?_⟩
    rw [lastByte_outside fun hc => ?_]
    · exact hbytes i
    · have hlow : off ≤ i := hc.2.1
      have hhigh : i < off + 0 := hc.2.2
      omega
  · have hne : data.take len ≠ [] := by
      intro hnil
      rw [hnil] at htake
      exact hzero htake.symm
    have hend : fileEnd (⟨b, off, data.take len⟩ :: ws) b = max f.size (off + len) := by
      rw [fileEnd, if_pos ⟨rfl, hne⟩, htake, hsize]
    rw [splice_size hzero, hend]
    refine ⟨rfl, fun i => ?_⟩
    rw [splice_bytes hzero]
    by_cases hin : off ≤ i ∧ i < off + len
    · have hlt : i < max f.size (off + len) := lt_of_lt_of_le hin.2 (Nat.le_max_right _ _)
      rw [if_pos hlt, if_pos hin, lastByte_inside ⟨rfl, hin.1, by rw [htake]; exact hin.2⟩]
      show (data[i - off]?).getD 0 = ((data.take len)[i - off]?).getD 0
      rw [List.getElem?_take_of_lt (by omega)]
    · have hout : ¬ ((⟨b, off, data.take len⟩ : Write).block = b ∧ off ≤ i ∧
          i < off + (data.take len).length) := by
        rw [htake]
        exact fun hc => hin hc.2
      rw [if_neg hin, lastByte_outside hout, ← hbytes i]
      by_cases hold : i < f.size
      · rw [if_pos hold, if_pos (lt_of_lt_of_le hold (Nat.le_max_left _ _))]
      · rw [if_neg hold, ite_self]

theorem tells_write {data : Str} (h : Tells s)
    (hrun : writeblock b offset length data s.node = .ok (r, n)) :
    Tells ⟨n, ⟨b, offset.toNat, data.take length.toNat⟩ :: s.writes⟩ := by
  obtain ⟨hwilling, hlen, ⟨f, hf, hat⟩, hother⟩ := writeblock_stored h.willing hrun
  refine ⟨hwilling, fun b' hb' => ?_, fun b' hb' => ?_⟩
  · rw [created_cons, not_or] at hb'
    exact (hother b' (Ne.symm hb'.1)).trans (h.absent b' hb'.2)
  · by_cases hbb : b' = b
    · subst hbb
      have hold : f.size = fileEnd s.writes b' ∧
          ∀ i, (if i < f.size then f.bytes i else 0) = lastByte s.writes b' i := by
        by_cases hc : Created s.writes b'
        · obtain ⟨g, hg, hsize, hbytes⟩ := h.file b' hc
          rcases hf with hf | ⟨-, hf⟩
          · cases hg.symm.trans hf
            exact ⟨hsize, hbytes⟩
          · cases hg.symm.trans hf
        · rcases hf with hf | ⟨rfl, -⟩
          · cases (h.absent b' hc).symm.trans hf
          · refine ⟨(fileEnd_absent hc).symm, fun i => ?_⟩
            rw [lastByte_absent hc]
            exact ite_self _
      obtain ⟨hsize, hbytes⟩ := splice_tells hlen hold.1 hold.2
      exact ⟨_, hat, hsize, hbytes⟩
    · have hold : Created s.writes b' := (created_cons.mp hb').resolve_left (Ne.symm hbb)
      obtain ⟨g, hg, hsize, hbytes⟩ := h.file b' hold
      refine ⟨g, (hother b' hbb).trans hg, ?_, fun i => ?_⟩
      · rw [fileEnd_other (Ne.symm hbb)]
        exact hsize
      · rw [lastByte_other (Ne.symm hbb)]
        exact hbytes i

theorem tells_run (h : Reach Empty Step s) : Tells s := by
  refine h.inv (fun s he => ?_) fun s a s' hi hs => ?_
  · refine ⟨he.willing, fun b _ => he.blocks b, fun b hc => ?_⟩
    rw [he.writes] at hc
    obtain ⟨w, hw, -⟩ := hc
    cases hw
  · cases hs with
    | write run => exact tells_write hi run
    | read run =>
      obtain ⟨hwilling, hsame, -⟩ := readblock_done hi.willing run
      refine ⟨hwilling, fun b hb => (hsame b).trans (hi.absent b hb), fun b hb => ?_⟩
      obtain ⟨f, hf, hrest⟩ := hi.file b hb
      exact ⟨f, (hsame b).trans hf, hrest⟩

/-- A range with which a read keeps to the law: the block is not there, or the range lies in its
file. -/
def Readable (ws : List Write) (b : UInt64) (offset length : Nat) : Prop :=
  ¬ Created ws b ∨ length = 0 ∨ offset + length ≤ fileEnd ws b

theorem readLaw_iff {databuf buf : Bytes} (h : Tells s)
    (hrun : readblock b offset length databuf s.node = .ok ((r, buf), n)) :
    ReadLaw s.writes b offset.toNat length.toNat r buf ↔
      Readable s.writes b offset.toNat length.toNat := by
  obtain ⟨-, -, ⟨hnone, rfl⟩ | ⟨f, hf, rfl, rfl⟩⟩ := readblock_done h.willing hrun
  · have hc : ¬ Created s.writes b := by
      intro hc
      obtain ⟨f, hf, -⟩ := h.file b hc
      cases hnone.symm.trans hf
    exact ⟨fun _ => .inl hc, fun _ => .inr ⟨by decide, fun hd => hc hd.1⟩⟩
  · have hc : Created s.writes b := by
      by_contra hc
      cases (h.absent b hc).symm.trans hf
    obtain ⟨g, hg, hsize, hbytes⟩ := h.file b hc
    cases hf.symm.trans hg
    constructor
    · intro hlaw
      rcases hlaw with ⟨-, hd, -⟩ | ⟨hneg, -⟩
      · exact .inr hd.2
      · exact absurd hneg (by decide)
    · intro hread
      have hin := hread.resolve_left (not_not.mpr hc)
      refine .inl ⟨rfl, ⟨hc, hin⟩, fun i hi => ?_⟩
      have hend : offset.toNat + length.toNat ≤ f.size := by
        rw [hsize]
        exact hin.resolve_left (by omega)
      have havail : f.avail offset.toNat length.toNat = length.toNat := by
        unfold File.avail
        omega
      rw [havail, ← hbytes, if_pos (by omega : offset.toNat + i < f.size)]
      unfold blit
      rw [if_pos (by omega), Nat.sub_zero]

/-- After every run of calls a write succeeds and leaves the other blocks alone, and a read leaves
all blocks alone and keeps to the law just when the block is not there or the range lies in its
file. -/
theorem blockStore_run (h : Reach Empty Step s) :
    (∀ b offset length data r n, writeblock b offset length data s.node = .ok (r, n) →
      r = 0 ∧ ∀ b' ≠ b, block n b' = block s.node b') ∧
    ∀ b offset length databuf r buf n, readblock b offset length databuf s.node
      = .ok ((r, buf), n) →
      (∀ b', block n b' = block s.node b') ∧
        (ReadLaw s.writes b offset.toNat length.toNat r buf ↔
          Readable s.writes b offset.toNat length.toNat) := by
  have htells := tells_run h
  constructor
  · intro b offset length data r n hrun
    exact ⟨writeblock_zero htells.willing hrun, (writeblock_stored htells.willing hrun).2.2.2⟩
  · intro b offset length databuf r buf n hrun
    exact ⟨(readblock_done htells.willing hrun).2.1, readLaw_iff htells hrun⟩

end Runs

/-! ## Reading behind the end -/

/-- A node on which `initlist` has run. -/
def freshNode : DNode where
  files := fun p => if p = BLOCKLISTPATH then some ⟨6401 * 64, fun _ => 0⟩ else none
  blocklist := fun _ => 0
  blolist := fun _ => 0
  bnum := 0
  env := ⟨19, fun _ => 0, fun _ => true, fun _ => true, fun _ => true⟩

theorem empty_freshNode : Empty ⟨freshNode, []⟩ where
  willing := fun _ => rfl
  blocks := fun b => by
    show (if pathOf b = BLOCKLISTPATH then some (⟨6401 * 64, fun _ => 0⟩ : File) else none) = none
    exact if_neg (pathOf_ne_list b)
  writes := rfl

/-- The bytes of `abc` in block 5. -/
def wroteAbc : List Write := [⟨5, 0, ascii "abc"⟩]

theorem reach_wroteAbc : ∃ n, Reach Empty Step ⟨n, wroteAbc⟩ ∧
    (∃ buf n', readblock 5 1 2 (fun _ => 1) n = .ok ((0, buf), n')) ∧
    ∃ buf n', readblock 5 16777215 2 (fun _ => 1) n = .ok ((0, buf), n') ∧ buf 1 = 1 := by
  have hrun : ((writeblock 5 0 3 (ascii "abc") freshNode).toOption.any fun q =>
      ((readblock 5 1 2 (fun _ => 1) q.2).toOption.any fun p => p.1.1 == 0) &&
        (readblock 5 16777215 2 (fun _ => 1) q.2).toOption.any fun p =>
          p.1.1 == 0 && p.1.2 1 == 1) = true := by
    decide +kernel
  have hto : ∀ {α : Type} {x : Except Stop α} {a : α}, x.toOption = some a → x = .ok a := by
    intro α x a h
    cases x with
    | error e => cases h
    | ok b => exact congrArg _ (Option.some.inj h)
  simp only [Option.any_eq_true, Bool.and_eq_true, beq_iff_eq, Prod.exists] at hrun
  obtain ⟨r, n, hw, ⟨r₁, buf₁, n₁, hr₁, rfl⟩, r₂, buf₂, n₂, hr₂, rfl, hbyte⟩ := hrun
  have hstep : Step ⟨freshNode, []⟩ (.write 5 0 3 (ascii "abc"))
      ⟨n, [⟨5, (0 : UInt32).toNat, (ascii "abc").take (3 : UInt32).toNat⟩]⟩ := .write (hto hw)
  have hwrites : (ascii "abc").take (3 : UInt32).toNat = ascii "abc" := by decide
  rw [hwrites] at hstep
  exact ⟨n, .step (.init empty_freshNode) hstep, ⟨buf₁, n₁, hto hr₁⟩, ⟨buf₂, n₂, hto hr₂, hbyte⟩⟩

theorem blockStore_run_abc : ∃ n buf n', Reach Empty Step ⟨n, wroteAbc⟩ ∧
    readblock 5 1 2 (fun _ => 1) n = .ok ((0, buf), n') ∧ ReadLaw wroteAbc 5 1 2 0 buf := by
  obtain ⟨n, hreach, ⟨buf, n', hrun⟩, -⟩ := reach_wroteAbc
  have hlaw := ((blockStore_run hreach).2 _ _ _ _ _ _ _ hrun).2
  have hend : 1 + 2 ≤ fileEnd wroteAbc 5 := by decide
  exact ⟨n, buf, n', hreach, hrun, hlaw.mpr (.inr (.inr hend))⟩

/-- Two bytes are read where the file has one, and the second is left as it was. -/
theorem read_behind_end : ∃ n buf n', Reach Empty Step ⟨n, wroteAbc⟩ ∧
    readblock 5 16777215 2 (fun _ => 1) n = .ok ((0, buf), n') ∧
    buf 1 ≠ lastByte wroteAbc 5 16777216 ∧ ¬ ReadLaw wroteAbc 5 16777215 2 0 buf := by
  obtain ⟨n, hreach, -, buf, n', hrun, hbyte⟩ := reach_wroteAbc
  have hlast : lastByte wroteAbc 5 16777216 = 0 := by decide
  refine ⟨n, buf, n', hreach, hrun, ?_, fun hlaw => ?_⟩
  · rw [hbyte, hlast]
    decide
  · rcases hlaw with ⟨-, -, hbytes⟩ | ⟨hneg, -⟩
    · have hone := hbytes 1 (by decide)
      rw [hbyte, hlast] at hone
      exact absurd hone (by decide)
    · exact absurd hneg (by decide)

end Sbpfs.Dnode.BlockStore
