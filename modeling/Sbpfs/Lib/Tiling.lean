import Mathlib.Data.List.Basic
import Mathlib.Tactic.Ring

/-!
# Ranges cut along blocks of one size

A piece is its offset in a block and its length. Pieces tile a range when they lie in
consecutive blocks and, laid end to end, cover it.
-/
namespace Sbpfs.Lib.Tiling

variable {size b start stop : Nat}

/-- The pieces lie in the blocks from `b` on and cover the positions from `start` to `stop`. -/
def Tiles (size : Nat) : Nat → Nat → Nat → List (Nat × Nat) → Prop
  | _, start, stop, [] => start = stop
  | b, start, stop, p :: ps =>
    b * size + p.1 = start ∧ p.1 + p.2 ≤ size ∧ Tiles size (b + 1) (start + p.2) stop ps

theorem Tiles.within {ps : List (Nat × Nat)} (h : Tiles size b start stop ps) :
    ∀ p ∈ ps, p.1 + p.2 ≤ size := by
  induction ps generalizing b start with
  | nil =>
    intro p hp
    cases hp
  | cons q ps ih =>
    obtain ⟨-, hle, htail⟩ := h
    intro p hp
    cases hp with
    | head => exact hle
    | tail _ hp => exact ih htail p hp

theorem Tiles.sum {ps : List (Nat × Nat)} (h : Tiles size b start stop ps) :
    start + (ps.map Prod.snd).sum = stop := by
  induction ps generalizing b start with
  | nil => exact h
  | cons p ps ih =>
    obtain ⟨-, -, htail⟩ := h
    rw [List.map_cons, List.sum_cons, ← Nat.add_assoc]
    exact ih htail

/-- What a first piece of its own and equal ones behind it look like. -/
theorem map_range_head {α : Type} {f : Nat → α} {n : Nat} {first middle : α} (hfirst : f 0 = first)
    (hmiddle : ∀ i, i < n → f (i + 1) = middle) :
    (List.range (n + 1)).map f = first :: List.replicate n middle := by
  rw [List.range_succ_eq_map, List.map_cons, List.map_map, hfirst]
  refine congrArg _ (List.eq_replicate_iff.mpr ⟨by simp, fun a ha => ?_⟩)
  obtain ⟨i, hi, rfl⟩ := List.mem_map.mp ha
  exact hmiddle i (List.mem_range.mp hi)

/-- The same with a last piece of its own. -/
theorem map_range_ends {α : Type} {f : Nat → α} {n : Nat} {first middle last : α}
    (hfirst : f 0 = first) (hmiddle : ∀ i, i < n → f (i + 1) = middle) (hlast : f (n + 1) = last) :
    (List.range (n + 2)).map f = first :: (List.replicate n middle ++ [last]) := by
  rw [List.range_succ, List.map_append, map_range_head hfirst hmiddle, List.map_singleton, hlast,
    List.cons_append]

/-- One piece. -/
theorem tiles_single {o t : Nat} :
    Tiles size b start stop [(o, t)] ↔ b * size + o = start ∧ o + t ≤ size ∧ start + t = stop :=
  Iff.rfl

/-- Whole blocks and the front of the next one. -/
theorem tiles_whole {k t : Nat} :
    Tiles size b start stop (List.replicate k (0, size) ++ [(0, t)]) ↔
      start = b * size ∧ t ≤ size ∧ stop = (b + k) * size + t := by
  induction k generalizing b start with
  | zero =>
    rw [List.replicate_zero, List.nil_append, tiles_single]
    constructor
    · rintro ⟨rfl, hle, rfl⟩
      exact ⟨rfl, by omega, rfl⟩
    · rintro ⟨rfl, hle, rfl⟩
      exact ⟨rfl, by omega, rfl⟩
  | succ k ih =>
    have hblocks : (b + 1 + k) * size = (b + (k + 1)) * size := by ring
    have hnext : (b + 1) * size = b * size + size := Nat.succ_mul b size
    rw [List.replicate_succ, List.cons_append]
    constructor
    · rintro ⟨hstart, -, htail⟩
      obtain ⟨-, hle, hstop⟩ := ih.mp htail
      exact ⟨hstart.symm, hle, hstop.trans (by rw [hblocks])⟩
    · rintro ⟨rfl, hle, rfl⟩
      refine ⟨rfl, by simp, ih.mpr ⟨hnext.symm, hle, ?_⟩⟩
      rw [hblocks]

/-- A piece at the back of a block, whole blocks, and the front of the next one. -/
theorem tiles_across {o h k t : Nat} :
    Tiles size b start stop ((o, h) :: (List.replicate k (0, size) ++ [(0, t)])) ↔
      b * size + o = start ∧ o + h = size ∧ t ≤ size ∧ stop = (b + 1 + k) * size + t := by
  have hnext : (b + 1) * size = b * size + size := Nat.succ_mul b size
  constructor
  · rintro ⟨hstart, hle, htail⟩
    obtain ⟨hedge, ht, hstop⟩ := tiles_whole.mp htail
    exact ⟨hstart, by omega, ht, hstop⟩
  · rintro ⟨hstart, hedge, ht, hstop⟩
    exact ⟨hstart, by omega, tiles_whole.mpr ⟨by omega, ht, hstop⟩⟩

end Sbpfs.Lib.Tiling
