import Mathlib.Logic.Relation
import Mathlib.Data.List.Nodup
import Mathlib.Data.List.Basic

/-!
# Linked cells

A table `next` threads its cells into chains that end at `stop`. A chain is
determined by its first cell, has no repetition, and is not disturbed by changes
to other cells.
-/
namespace Sbpfs.Lib.Chain

variable {ι : Type} {next next' : ι → ι} {stop : ι}

/-- `cs` starts at its head and follows `next` up to the last cell before `stop`. -/
def Linked (next : ι → ι) (stop : ι) : List ι → Prop
  | [] => False
  | [a] => next a = stop
  | a :: b :: cs => next a = b ∧ Linked next stop (b :: cs)

theorem Linked.congr {cs : List ι} (h : Linked next stop cs)
    (he : ∀ c ∈ cs, next' c = next c) : Linked next' stop cs := by
  induction cs with
  | nil => exact h
  | cons a cs ih =>
    cases cs with
    | nil => exact (he a (by simp)).trans h
    | cons b cs =>
      exact ⟨(he a (by simp)).trans h.1, ih h.2 fun c hc => he c (List.mem_cons_of_mem _ hc)⟩

theorem Linked.cons {a b : ι} {cs : List ι} (ha : next a = b) (h : Linked next stop (b :: cs)) :
    Linked next stop (a :: b :: cs) := ⟨ha, h⟩

/-- Two chains with the same first cell are the same chain. -/
theorem Linked.unique {a : ι} {cs cs' : List ι} (h : Linked next stop (a :: cs))
    (h' : Linked next stop (a :: cs')) (hs : stop ∉ cs) (hs' : stop ∉ cs') : cs = cs' := by
  induction cs generalizing a cs' with
  | nil =>
    cases cs' with
    | nil => rfl
    | cons b cs' =>
      have hb : b = stop := h'.1.symm.trans h
      exact absurd (by simp [hb]) hs'
  | cons b cs ih =>
    cases cs' with
    | nil =>
      have hb : b = stop := h.1.symm.trans h'
      exact absurd (by simp [hb]) hs
    | cons b' cs' =>
      have hb : b = b' := h.1.symm.trans h'.1
      subst hb
      rw [ih h.2 h'.2 (fun hm => hs (List.mem_cons_of_mem _ hm))
        (fun hm => hs' (List.mem_cons_of_mem _ hm))]

/-- What follows a cell of a chain is the chain of that cell. -/
theorem Linked.suffix {a : ι} {pre post : List ι} (h : Linked next stop (pre ++ a :: post)) :
    Linked next stop (a :: post) := by
  induction pre with
  | nil => exact h
  | cons b pre ih =>
    cases pre with
    | nil => exact h.2
    | cons c pre => exact ih h.2

/-- A chain that ends passes no cell twice. -/
theorem Linked.nodup {cs : List ι} (h : Linked next stop cs) (hs : stop ∉ cs) : cs.Nodup := by
  induction cs with
  | nil => exact List.nodup_nil
  | cons a cs ih =>
    have htail : cs.Nodup := by
      cases cs with
      | nil => exact List.nodup_nil
      | cons b cs => exact ih h.2 fun hm => hs (List.mem_cons_of_mem _ hm)
    refine List.nodup_cons.mpr ⟨fun hm => ?_, htail⟩
    -- a second visit to `a` would give `a` two chains of different lengths
    obtain ⟨pre, post, rfl⟩ := List.append_of_mem hm
    have hwhole : Linked next stop ((a :: pre) ++ a :: post) := h
    have hsuf : Linked next stop (a :: post) := hwhole.suffix
    have he := Linked.unique h hsuf (fun hm' => hs (List.mem_cons_of_mem _ hm'))
      (fun hm' => hs (by simp [hm']))
    have hl := congrArg List.length he
    simp only [List.length_append, List.length_cons] at hl
    omega

/-- The successor of a cell is the next cell of the chain or its end. -/
theorem Linked.next_mem {cs : List ι} (h : Linked next stop cs) {c : ι} (hc : c ∈ cs) :
    next c = stop ∨ next c ∈ cs := by
  induction cs with
  | nil => cases hc
  | cons a cs ih =>
    cases cs with
    | nil =>
      rw [List.mem_singleton.mp hc]
      exact .inl h
    | cons b cs =>
      rcases List.mem_cons.mp hc with rfl | hc
      · exact .inr (by rw [h.1]; simp)
      · exact (ih h.2 hc).imp_right (List.mem_cons_of_mem _)

/-- The table with every cell of `cs` reset to `v`. -/
def cleared [DecidableEq ι] (next : ι → ι) (cs : List ι) (v : ι) : ι → ι :=
  fun i => if i ∈ cs then v else next i

theorem cleared_of_mem [DecidableEq ι] {cs : List ι} {v i : ι} (h : i ∈ cs) :
    cleared next cs v i = v := if_pos h

theorem cleared_of_not_mem [DecidableEq ι] {cs : List ι} {v i : ι} (h : i ∉ cs) :
    cleared next cs v i = next i := if_neg h

end Sbpfs.Lib.Chain

/-! ## Trees given by a parent-child relation

The nodes are those that the root reaches; no node but the root is without a
parent, and none has two. -/
namespace Sbpfs.Lib.Tree

open Relation

variable {ν : Type} {child child' : ν → ν → Prop} {root leaf n : ν}

/-- Taking a leaf away cuts nobody else off. -/
theorem reach_of_leaf_removed (hleaf : ∀ m, ¬ child leaf m)
    (hkeep : ∀ p m, child p m → m ≠ leaf → child' p m) (h : ReflTransGen child root n)
    (hn : n ≠ leaf) : ReflTransGen child' root n := by
  induction h with
  | refl => exact .refl
  | tail hp hc ih =>
    rename_i p m
    have hpl : p ≠ leaf := by
      rintro rfl
      exact hleaf m hc
    exact (ih hpl).tail (hkeep p m hc hn)

/-- With one parent a node and none for the root, no node lies below itself. -/
theorem acyclic (hunique : ∀ p q m, child p m → child q m → p = q) (htop : ∀ p, ¬ child p root)
    (h : ReflTransGen child root n) : ¬ TransGen child n n := by
  induction h with
  | refl =>
    intro hcycle
    obtain ⟨p, _, hp⟩ := TransGen.tail'_iff.mp hcycle
    exact htop p hp
  | tail hp hc ih =>
    rename_i p m
    intro hcycle
    obtain ⟨q, hreach, hq⟩ := TransGen.tail'_iff.mp hcycle
    have hqp : q = p := hunique q p m hq hc
    subst hqp
    exact ih (TransGen.head' hc hreach)

end Sbpfs.Lib.Tree
