import Mathlib.Data.List.AList
import Mathlib.Data.List.Range

/-!
# The descriptor pool of one user

`FdPool` hands out numbers: a recycled one if there is one, else the next of a counter. A
pool that becomes empty forgets the recycled numbers and starts again at 0. The numbers in
use and the recycled ones are at any time the numbers below the counter, each once.
-/
namespace Sbpfs.Cnode.Pool

/-- A Python dictionary. -/
abbrev Map (κ ν : Type) := AList fun _ : κ => ν

/-- Python's `S_DIR` and `S_FIL`; the C library has others. -/
abbrev S_DIR : Int := 1
abbrev S_FIL : Int := 0

structure FileDes where
  fb : Int
  mode : Int
  type : Int
  deriving DecidableEq, Repr

/-- The list grows and shrinks at its end. -/
structure FdPool where
  usingmap : Map Int FileDes
  usedlist : List Int
  count : Nat

def FdPool.empty : FdPool := ⟨∅, [], 0⟩

def FdPool.getFile (p : FdPool) (fd : Int) : Option FileDes := p.usingmap.lookup fd

def FdPool.gen (p : FdPool) (file : FileDes) : Int × FdPool :=
  match p.usedlist.getLast? with
  | some fd => (fd, { p with
      usedlist := p.usedlist.dropLast
      usingmap := p.usingmap.insert fd file })
  | none => (p.count, { p with
      count := p.count + 1
      usingmap := p.usingmap.insert (p.count : Int) file })

/-- `none` for the exception. -/
def FdPool.des (p : FdPool) (fd : Int) : Option FdPool :=
  if fd ∈ p.usingmap then
    let usingmap := p.usingmap.erase fd
    if usingmap.keys.length = 0 then some ⟨usingmap, [], 0⟩
    else some { p with usingmap := usingmap, usedlist := p.usedlist ++ [fd] }
  else none

def FdPool.isEmpty (p : FdPool) : Bool := p.usingmap.keys.length = 0

/-! ## The numbers of a pool -/

/-- The numbers in use and the recycled ones are `0..count-1`, none of them twice. -/
def FdPool.Partition (p : FdPool) : Prop :=
  (p.usingmap.keys ++ p.usedlist).Perm ((List.range p.count).map Int.ofNat)

namespace FdPool

variable {p p' : FdPool} {fd : Int} {file : FileDes}

theorem empty_partition : empty.Partition := by
  show ([] : List Int).Perm _
  exact List.Perm.refl _

theorem Partition.nodup (h : p.Partition) : (p.usingmap.keys ++ p.usedlist).Nodup := by
  apply h.nodup_iff.mpr
  exact List.nodup_range.map fun _ _ he => Int.ofNat.inj he

theorem Partition.lt (h : p.Partition) (hfd : fd ∈ p.usingmap.keys ++ p.usedlist) :
    fd < p.count := by
  have hmem := h.mem_iff.mp hfd
  obtain ⟨k, hk, rfl⟩ := List.mem_map.mp hmem
  exact Int.ofNat_lt.mpr (List.mem_range.mp hk)

/-- A recycled number is not in use. -/
theorem Partition.recycled (h : p.Partition) (hfd : fd ∈ p.usedlist) : fd ∉ p.usingmap := by
  intro hm
  exact List.disjoint_of_nodup_append h.nodup (AList.mem_keys.mp hm) hfd

/-- The counter has not been handed out. -/
theorem Partition.counter (h : p.Partition) : (p.count : Int) ∉ p.usingmap := by
  intro hm
  have hlt := h.lt (List.mem_append_left _ (AList.mem_keys.mp hm))
  omega

/-- What `gen` does: it takes a number that is not in use and enters the file under it. -/
theorem gen_spec (h : p.Partition) (file : FileDes) :
    (p.gen file).1 ∉ p.usingmap ∧
      (p.gen file).2.usingmap = p.usingmap.insert (p.gen file).1 file := by
  unfold gen
  cases hl : p.usedlist.getLast? with
  | none => exact ⟨h.counter, rfl⟩
  | some fd => exact ⟨h.recycled (List.mem_of_getLast? hl), rfl⟩

theorem gen_fresh (h : p.Partition) (file : FileDes) : p.getFile (p.gen file).1 = none :=
  AList.lookup_eq_none.mpr (gen_spec h file).1

theorem gen_getFile (h : p.Partition) (file : FileDes) (fd : Int) :
    (p.gen file).2.getFile fd = if fd = (p.gen file).1 then some file else p.getFile fd := by
  unfold getFile
  rw [(gen_spec h file).2]
  split
  · rename_i he
    rw [he, AList.lookup_insert]
  · rename_i hne
    exact AList.lookup_insert_ne hne

theorem gen_partition (h : p.Partition) (file : FileDes) : (p.gen file).2.Partition := by
  unfold gen
  cases hl : p.usedlist.getLast? with
  | none =>
    have hnil : p.usedlist = [] := List.getLast?_eq_none_iff.mp hl
    have hkeys : p.usingmap.keys.erase (p.count : Int) = p.usingmap.keys :=
      List.erase_of_not_mem fun hm => h.counter (AList.mem_keys.mpr hm)
    have hperm : p.usingmap.keys.Perm ((List.range p.count).map Int.ofNat) := by
      simpa [Partition, hnil] using h
    show ((p.usingmap.insert (p.count : Int) file).keys ++ p.usedlist).Perm _
    rw [AList.keys_insert, hkeys, hnil, List.append_nil, List.range_succ, List.map_append]
    exact (hperm.cons _).trans (List.perm_append_singleton _ _).symm
  | some fd =>
    have hsplit : p.usedlist.dropLast ++ [fd] = p.usedlist :=
      List.dropLast_append_getLast? fd hl
    have hfresh : fd ∉ p.usingmap := h.recycled (List.mem_of_getLast? hl)
    have hkeys : p.usingmap.keys.erase fd = p.usingmap.keys :=
      List.erase_of_not_mem fun hm => hfresh (AList.mem_keys.mpr hm)
    show ((p.usingmap.insert fd file).keys ++ p.usedlist.dropLast).Perm _
    rw [AList.keys_insert, hkeys]
    have hmove : (fd :: p.usingmap.keys ++ p.usedlist.dropLast).Perm
        (p.usingmap.keys ++ (p.usedlist.dropLast ++ [fd])) := by
      rw [← List.append_assoc]
      exact (List.perm_append_singleton fd _).symm
    rw [hsplit] at hmove
    exact hmove.trans h

/-- A number that is not in use is refused. -/
theorem des_none : p.des fd = none ↔ p.getFile fd = none := by
  unfold des getFile
  rw [AList.lookup_eq_none]
  by_cases hm : fd ∈ p.usingmap
  · rw [if_pos hm]
    constructor
    · intro h
      dsimp only at h
      split at h <;> cases h
    · intro h
      exact absurd hm h
  · rw [if_neg hm]
    exact ⟨fun _ => hm, fun _ => rfl⟩

theorem des_usingmap (hd : p.des fd = some p') : p'.usingmap = p.usingmap.erase fd := by
  unfold des at hd
  split at hd
  · dsimp only at hd
    split at hd <;> cases hd <;> rfl
  · cases hd

theorem des_getFile (hd : p.des fd = some p') (fd' : Int) :
    p'.getFile fd' = if fd' = fd then none else p.getFile fd' := by
  unfold getFile
  rw [des_usingmap hd]
  split
  · rename_i he
    rw [he, AList.lookup_erase]
  · rename_i hne
    exact AList.lookup_erase_ne hne

theorem des_partition (h : p.Partition) (hd : p.des fd = some p') : p'.Partition := by
  unfold des at hd
  by_cases hm : fd ∈ p.usingmap
  · rw [if_pos hm] at hd
    dsimp only at hd
    split at hd
    · rename_i hnil
      cases hd
      show ((p.usingmap.erase fd).keys ++ []).Perm _
      rw [List.length_eq_zero_iff.mp hnil]
      exact List.Perm.refl _
    · cases hd
      show ((p.usingmap.erase fd).keys ++ (p.usedlist ++ [fd])).Perm _
      rw [AList.keys_erase]
      have hback : (p.usingmap.keys.erase fd ++ (p.usedlist ++ [fd])).Perm
          (p.usingmap.keys ++ p.usedlist) := by
        rw [← List.append_assoc]
        apply (List.perm_append_singleton fd _).trans
        exact (List.perm_cons_erase (AList.mem_keys.mp hm)).symm.append_right p.usedlist
      exact hback.trans h
  · rw [if_neg hm] at hd
    cases hd

end FdPool

end Sbpfs.Cnode.Pool
