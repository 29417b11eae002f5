import Sbpfs.Cfs.Lookup
import Sbpfs.Spec.FileTree

/-!
# Objects as bytes

When the bytes of a chain are a directory with a given table, or a file with a given
length and list of records, and what the edits of the source do to such bytes.
-/
namespace Sbpfs.Cfs.Image

open Sbpfs.Lib.Memory Sbpfs.Cfs.Layout Sbpfs.Cfs.File Sbpfs.Spec.FileTree

/-! ## Names in a pool -/

theorem strEq_congr {b b' : Bytes} {off off' : Nat} {name : CStr}
    (h : ∀ k, k ≤ name.length → b (off + k) = b' (off' + k)) :
    strEq b off name = strEq b' off' name := by
  induction name generalizing off off' with
  | nil =>
    have h0 := h 0 (Nat.le_refl _)
    simp only [Nat.add_zero] at h0
    simp only [strEq, h0]
  | cons c cs ih =>
    have h0 := h 0 (Nat.zero_le _)
    have htail : strEq b (off + 1) cs = strEq b' (off' + 1) cs := by
      refine ih fun k hk => ?_
      have hk' := h (k + 1) (by simp only [List.length_cons]; omega)
      rwa [show off + (k + 1) = off + 1 + k from by omega,
        show off' + (k + 1) = off' + 1 + k from by omega] at hk'
    simp only [Nat.add_zero] at h0
    rw [strEq, strEq, h0, htail]

/-- A string is equal to one name only. -/
theorem strEq_unique {b : Bytes} {off : Nat} {name name' : CStr} (h : strEq b off name = true)
    (h' : strEq b off name' = true) : name = name' := by
  induction name generalizing off name' with
  | nil =>
    cases name' with
    | nil => rfl
    | cons c cs =>
      simp only [strEq, beq_iff_eq, Bool.and_eq_true] at h h'
      exact absurd (h'.1.symm.trans h) c.property
  | cons c cs ih =>
    cases name' with
    | nil =>
      simp only [strEq, beq_iff_eq, Bool.and_eq_true] at h h'
      exact absurd (h.1.symm.trans h') c.property
    | cons c' cs' =>
      simp only [strEq, beq_iff_eq, Bool.and_eq_true] at h h'
      rw [Subtype.ext (h.1.symm.trans h'.1), ih h.2 h'.2]

theorem strEq_strBytes (name : CStr) (b : Bytes) (off : Nat)
    (h : ∀ k, k ≤ name.length → b (off + k) = strBytes name k) : strEq b off name = true := by
  induction name generalizing off with
  | nil =>
    have h0 := h 0 (Nat.le_refl _)
    simpa [strEq, strBytes] using h0
  | cons c cs ih =>
    have h0 := h 0 (Nat.zero_le _)
    have htail : strEq b (off + 1) cs = true := by
      refine ih (off + 1) fun k hk => ?_
      have hk' := h (k + 1) (by simp only [List.length_cons]; omega)
      rw [show off + 1 + k = off + (k + 1) from by omega, hk']
      simp [strBytes]
    have hhead : b off = c.val := by simpa [strBytes] using h0
    simp [strEq, hhead, htail]

/-! ## Directories and files -/

/-- The entry at `off` is `e`, its name in a pool of `plen` bytes at `base`. -/
structure EntryImage (img : Bytes) (base plen off : Nat) (e : Ent) : Prop where
  fb : entryFb img off = e.fb
  type : entryType img off = e.type
  bound : entryName img off + e.name.length < plen
  name : strEq img (base + entryName img off) e.name = true

/-- The first `512 * n` bytes hold a directory with the table `ents`. -/
structure DirImage (img : Bytes) (n : Nat) (ents : List Ent) : Prop where
  strbase : metaStrbase img = 16 * ents.length
  flen : metaFlen img = 64 + 16 * ents.length + metaStrlen img
  le : 64 + 16 * ents.length + metaStrlen img ≤ 512 * n
  entry : ∀ i e, ents[i]? = some e →
    EntryImage img (64 + 16 * ents.length) (metaStrlen img) (entryOff i) e

/-- The record at `off`. -/
def recAt (img : Bytes) (off : Nat) : Rec :=
  ⟨blockNum img off, [blockIp img off 0, blockIp img off 1, blockIp img off 2]⟩

/-- The number of 16 MB blocks that hold `len` bytes. -/
def blocksFor (len : Nat) : Nat := (len + (BLOCKSIZE - 1)) / BLOCKSIZE

/-- The first `512 * n` bytes hold a file of length `len` with the records `recs`. -/
structure FileImage (img : Bytes) (n len : Nat) (recs : List Rec) : Prop where
  flen : metaFlen img = len
  strbase : metaStrbase img = 32 * recs.length
  sectors : n = (64 + 32 * recs.length + 511) / 512
  count : recs.length = blocksFor len
  record : ∀ i r, recs[i]? = some r → recAt img (blockOff i) = r

/-- The bytes of the object `o` whose first sector is `fb`, in `n` sectors. -/
structure Holds (img : Bytes) (n fb : Nat) (o : Obj) : Prop where
  uid : metaUid img = o.uid
  flags : metaFlags img = o.flags
  blocks : metaBlocks img = n
  node : match o.node with
    | .file flen recs => FileImage img n flen recs
    | .dir parent kids => DirImage img n (table fb parent kids)

/-- How many bytes of an image matter. -/
def extent (img : Bytes) : Node → Nat
  | .file _ recs => 64 + 32 * recs.length
  | .dir _ _ => metaFlen img

section Congr

variable {img img' : Bytes} {size n : Nat}

theorem field_congr (h : Agree img' img 0 size) {off m : Nat} (hm : off + m ≤ size) :
    getLE img' off m = getLE img off m :=
  getLE_congr (h.mono (Nat.zero_le _) (by omega))

/-- An entry depends on the bytes of the table and the pool only. -/
theorem EntryImage.congr {k base plen off : Nat} {e : Ent} (h : Agree img' img 64 k)
    (he : EntryImage img base plen off e) (hlow : 64 ≤ off) (hoff : off + 16 ≤ 64 + k)
    (hbase : 64 ≤ base) (hpool : base + plen ≤ 64 + k) : EntryImage img' base plen off e := by
  have hname : entryName img' off = entryName img off := getLE_congr (h.mono (by omega) (by omega))
  have hb := he.bound
  refine ⟨?_, ?_, ?_, ?_⟩
  · rw [← he.fb]
    exact getLE_congr (h.mono (by omega) (by omega))
  · rw [← he.type]
    exact h _ (by omega) (by omega)
  · rwa [hname]
  · rw [hname, ← he.name]
    exact strEq_congr fun k hk => h _ (by omega) (by omega)

theorem DirImage.congr {k : Nat} {ents : List Ent} (h : Agree img' img 64 k)
    (hflen : metaFlen img' = metaFlen img) (hbase : metaStrbase img' = metaStrbase img)
    (hlen : metaStrlen img' = metaStrlen img) (hd : DirImage img n ents)
    (hk : metaFlen img ≤ 64 + k) : DirImage img' n ents := by
  have hf := hd.flen
  refine ⟨?_, ?_, ?_, ?_⟩
  · rw [hbase, hd.strbase]
  · rw [hflen, hlen, hd.flen]
  · rw [hlen]
    exact hd.le
  · intro i e he
    have hi : i < ents.length := (List.getElem?_eq_some_iff.mp he).1
    rw [hlen]
    refine (hd.entry i e he).congr h ?_ ?_ (by omega) (by omega) <;>
    · simp only [entryOff, metaSize, entrySize]
      omega

theorem FileImage.congr {k len : Nat} {recs : List Rec} (h : Agree img' img 64 k)
    (hflen : metaFlen img' = metaFlen img) (hbase : metaStrbase img' = metaStrbase img)
    (hf : FileImage img n len recs) (hk : 32 * recs.length ≤ k) : FileImage img' n len recs := by
  refine ⟨?_, ?_, hf.sectors, hf.count, ?_⟩
  · rw [hflen, hf.flen]
  · rw [hbase, hf.strbase]
  · intro i r hr
    have hi : i < recs.length := (List.getElem?_eq_some_iff.mp hr).1
    have hoff : blockOff i = 64 + 32 * i := rfl
    have hfield : ∀ off m, 64 ≤ off → off + m ≤ 64 + k → getLE img' off m = getLE img off m :=
      fun off m h1 h2 => getLE_congr (h.mono h1 h2)
    rw [← hf.record i r hr]
    simp only [recAt, blockNum, blockIp]
    rw [hfield _ _ (by omega) (by omega), hfield _ _ (by omega) (by omega),
      hfield _ _ (by omega) (by omega), hfield _ _ (by omega) (by omega)]

/-- Images that agree on the bytes that matter hold the same object. -/
theorem Holds.congr (h : Agree img' img 0 size) {fb : Nat} {o : Obj} (ho : Holds img n fb o)
    (hsize : extent img o.node ≤ size) (hmeta : 64 ≤ size) : Holds img' n fb o := by
  refine ⟨?_, ?_, ?_, ?_⟩
  · rw [← ho.uid]
    exact field_congr h (by omega)
  · rw [← ho.flags]
    exact h _ (by omega) (by omega)
  · rw [← ho.blocks]
    exact field_congr h (by omega)
  · have hnode := ho.node
    revert hnode hsize
    have hbody : Agree img' img 64 (size - 64) := h.mono (by omega) (by omega)
    cases o.node with
    | file flen recs =>
      intro hsize hnode
      simp only [extent] at hsize
      exact hnode.congr hbody (field_congr h (by omega)) (field_congr h (by omega)) (by omega)
    | dir parent kids =>
      intro hsize hnode
      simp only [extent] at hsize
      exact hnode.congr hbody (field_congr h (by omega)) (field_congr h (by omega))
        (field_congr h (by omega)) (by omega)

/-- A header field that describes neither size nor layout does not matter to the contents. -/
theorem node_putLE {o : Obj} {fb off m v : Nat}
    (hnode : match o.node with
      | .file flen recs => FileImage img n flen recs
      | .dir parent kids => DirImage img n (table fb parent kids))
    (hoff : off + m ≤ 8 ∨ (16 ≤ off ∧ off + m ≤ 40) ∨ (56 ≤ off ∧ off + m ≤ 64)) :
    match o.node with
      | .file flen recs => FileImage (putLE img off m v) n flen recs
      | .dir parent kids => DirImage (putLE img off m v) n (table fb parent kids) := by
  have hbody : ∀ k, Agree (putLE img off m v) img 64 k := fun k => putLE_agree (by omega)
  revert hnode
  cases o.node with
  | file flen recs =>
    exact fun hnode => hnode.congr (hbody _) (getLE_putLE_ne (by omega)) (getLE_putLE_ne (by omega))
      (Nat.le_refl _)
  | dir parent kids =>
    exact fun hnode => hnode.congr (hbody (metaFlen img)) (getLE_putLE_ne (by omega))
      (getLE_putLE_ne (by omega)) (getLE_putLE_ne (by omega)) (by omega)

theorem Holds.setUid {fb uid : Nat} {o : Obj} (h : Holds img n fb o) (hu : uid < 2 ^ 32) :
    Holds (putLE img 0 4 uid) n fb { o with uid := uid } where
  uid := getLE_putLE hu
  flags := by
    rw [← h.flags]
    exact putLE_outside (by omega)
  blocks := by
    rw [← h.blocks]
    exact getLE_putLE_ne (by omega)
  node := node_putLE h.node (by omega)

theorem Holds.setFlags {fb : Nat} {flags : UInt8} {o : Obj} (h : Holds img n fb o) :
    Holds (putLE img 60 1 flags.toNat) n fb { o with flags := flags } where
  uid := by
    rw [← h.uid]
    exact getLE_putLE_ne (by omega)
  flags := putLE_byte _ _ _
  blocks := by
    rw [← h.blocks]
    exact getLE_putLE_ne (by omega)
  node := node_putLE h.node (by omega)

/-- The link count is no part of the object. -/
theorem Holds.setCount {fb v : Nat} {o : Obj} (h : Holds img n fb o) :
    Holds (putLE img 4 4 v) n fb o where
  uid := by
    rw [← h.uid]
    exact getLE_putLE_ne (by omega)
  flags := by
    rw [← h.flags]
    exact putLE_outside (by omega)
  blocks := by
    rw [← h.blocks]
    exact getLE_putLE_ne (by omega)
  node := node_putLE h.node (by omega)

end Congr

theorem Holds.extent_le {img : Bytes} {n fb : Nat} {o : Obj} (h : Holds img n fb o) :
    extent img o.node ≤ 512 * n := by
  have hnode := h.node
  revert hnode
  cases o.node with
  | file flen recs =>
    intro hnode
    have hs := hnode.sectors
    simp only [extent]
    omega
  | dir parent kids =>
    intro hnode
    have hl := hnode.le
    simp only [extent, hnode.flen]
    omega

theorem Holds.sectors_pos {img : Bytes} {n fb : Nat} {o : Obj} (h : Holds img n fb o) :
    0 < n := by
  have hnode := h.node
  revert hnode
  cases o.node with
  | file flen recs =>
    intro hnode
    have hs := hnode.sectors
    omega
  | dir parent kids =>
    intro hnode
    have hl := hnode.le
    omega

end Sbpfs.Cfs.Image
