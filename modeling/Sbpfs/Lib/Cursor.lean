import Mathlib.Data.List.Nodup

/-!
# A cursor in a list that others edit

A reader goes through a list place by place, and between two of its steps the list is edited:
elements are appended, or one is taken away. As long as nothing is taken away that has been read,
what has been read is the front of the list.
-/
namespace Sbpfs.Lib.Cursor

variable {α : Type}

/-- Elements are appended, or the one at a place is taken away. -/
inductive Edit (l : List α) : List α → Prop
  | append (back : List α) : Edit l (l ++ back)
  | erase (i : Nat) : Edit l (l.eraseIdx i)

theorem Edit.refl (l : List α) : Edit l l := by
  have h := Edit.append (l := l) []
  rwa [List.append_nil] at h

/-- The list, the place that is read next, and what has been read. -/
structure Scan (α : Type) where
  list : List α
  pos : Nat
  out : List α

/-- All that has been read is there after an edit. -/
inductive Step (s : Scan α) : Scan α → Prop
  | edit {l : List α} (edit : Edit s.list l) (nodup : s.list.Nodup) (stays : ∀ a ∈ s.out, a ∈ l) :
      Step s ⟨l, s.pos, s.out⟩
  | next {a : α} (found : s.list[s.pos]? = some a) : Step s ⟨s.list, s.pos + 1, s.out ++ [a]⟩

/-- What has been read is the front of the list. -/
structure Following (s : Scan α) : Prop where
  front : s.out = s.list.take s.pos
  inside : s.pos ≤ s.list.length

theorem take_eraseIdx {l : List α} {i k : Nat} (h : k ≤ i) : (l.eraseIdx i).take k = l.take k := by
  rw [List.eraseIdx_eq_take_drop_succ, List.take_append, List.take_take, Nat.min_eq_left h]
  by_cases hi : i ≤ l.length
  · rw [List.length_take, Nat.min_eq_left hi, Nat.sub_eq_zero_of_le h, List.take_zero,
      List.append_nil]
  · rw [List.drop_of_length_le (by omega), List.take_nil, List.append_nil]

/-- An element that is taken away is not in the list any more, if it was there once. -/
theorem not_mem_eraseIdx {l : List α} {i : Nat} {a : α} (hnodup : l.Nodup) (ha : l[i]? = some a) :
    a ∉ l.eraseIdx i := by
  obtain ⟨hi, rfl⟩ := List.getElem?_eq_some_iff.mp ha
  intro hmem
  obtain ⟨j, hj, hne, heq⟩ := List.mem_eraseIdx_iff_getElem.mp hmem
  exact hne (hnodup.getElem_inj_iff.mp heq)

theorem following_edit {s : Scan α} {l : List α} (h : Following s) (he : Edit s.list l)
    (hnodup : s.list.Nodup) (hstays : ∀ a ∈ s.out, a ∈ l) : Following ⟨l, s.pos, s.out⟩ := by
  obtain ⟨hfront, hinside⟩ := h
  cases he with
  | append back =>
    refine ⟨?_, ?_⟩
    · rw [List.take_append_of_le_length hinside]
      exact hfront
    · rw [List.length_append]
      dsimp only
      omega
  | erase i =>
    by_cases hi : i < s.pos
    · -- what was read there is missed
      have hlt : i < s.list.length := by omega
      have hread : s.list[i] ∈ s.out := by
        rw [hfront]
        exact List.mem_take_iff_getElem.mpr ⟨i, by omega, rfl⟩
      exact absurd (hstays _ hread) (not_mem_eraseIdx hnodup (List.getElem?_eq_getElem hlt))
    · refine ⟨?_, ?_⟩
      · rw [take_eraseIdx (Nat.le_of_not_lt hi)]
        exact hfront
      · rw [List.length_eraseIdx]
        dsimp only
        split
        · omega
        · exact hinside

theorem following_step {s s' : Scan α} (h : Following s) (hs : Step s s') : Following s' := by
  cases hs with
  | edit edit nodup stays => exact following_edit h edit nodup stays
  | next found =>
    obtain ⟨hlt, rfl⟩ := List.getElem?_eq_some_iff.mp found
    refine ⟨?_, hlt⟩
    rw [h.front, List.take_succ_eq_append_getElem hlt]

/-- If an element in front of the cursor is taken away, the next one is missed. -/
theorem edit_skips {l l' : List α} {k : Nat} {a : α} (he : Edit l l') (ha : a ∈ l.take k)
    (hgone : a ∉ l') :
    l'[k]? = l[k + 1]? := by
  cases he with
  | append back => exact absurd (List.mem_append_left _ (List.mem_of_mem_take ha)) hgone
  | erase i =>
    by_cases hi : i < k
    · exact List.getElem?_eraseIdx_of_ge (Nat.le_of_lt hi)
    · rw [← take_eraseIdx (Nat.le_of_not_lt hi)] at ha
      exact absurd (List.mem_of_mem_take ha) hgone

/-- Where nothing is left to be read, all has been read. -/
theorem Following.done {s : Scan α} (h : Following s) (hnone : s.list[s.pos]? = none) :
    s.out = s.list := by
  rw [h.front]
  exact List.take_of_length_le (List.getElem?_eq_none_iff.mp hnone)

end Sbpfs.Lib.Cursor
