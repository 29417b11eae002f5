import Mathlib.Data.List.Infix
import Mathlib.Data.List.Basic

/-!
# Searching and splitting at a separator

The first occurrence of a pattern in a list, splitting at a separator and joining with
it. A separator no proper end of which begins it (it is borderless) cannot overlap
itself, so joining pieces that are free of it makes no new occurrence: what was joined
splits into the same pieces. Nothing here depends on what the elements are.
-/
namespace Sbpfs.Lib.Search

variable {α : Type} {pat sep p q s : List α}

/-- `pat` does not occur in `s`. -/
def Free (pat s : List α) : Prop := ¬ pat <:+: s

/-- No proper end of `pat` begins it. -/
def Borderless (pat : List α) : Prop := ∀ m, m < pat.length → 0 < m → ¬ pat.drop m <+: pat

/-! ## Free lists -/

theorem Free.tail {c : α} (h : Free pat (c :: s)) : Free pat s :=
  fun hi => h (hi.trans (List.suffix_cons c s).isInfix)

theorem Free.infix (h : Free pat s) (hp : p <:+: s) : Free pat p := fun hi => h (hi.trans hp)

theorem free_nil (hne : pat ≠ []) : Free pat ([] : List α) :=
  fun hi => hne (List.infix_nil.mp hi)

/-- An element that the pattern does not have ends an occurrence of it. -/
theorem infix_append_cons {c : α} (hc : c ∉ pat) (h : pat <:+: p ++ c :: q) :
    pat <:+: p ∨ pat <:+: q := by
  obtain ⟨s, t, hst⟩ := h
  rcases List.append_eq_append_iff.mp hst with ⟨u, hp, -⟩ | ⟨u, hs, hu⟩
  · exact .inl ⟨s, u, hp.symm⟩
  · cases u with
    | nil => exact .inl ⟨s, [], by rw [List.append_nil, hs, List.append_nil]⟩
    | cons d u =>
      obtain ⟨rfl, rfl⟩ := List.cons.inj hu
      rcases List.append_eq_append_iff.mp hs with ⟨v, hp, hpat⟩ | ⟨v, -, hv⟩
      · exact absurd (hpat ▸ List.mem_append_right v (List.mem_cons_self ..)) hc
      · cases v with
        | nil => exact absurd ((List.nil_append pat ▸ hv) ▸ List.mem_cons_self ..) hc
        | cons d v =>
          obtain ⟨-, rfl⟩ := List.cons.inj hv
          exact .inr ⟨v, t, rfl⟩

theorem free_append_cons {c : α} (hc : c ∉ pat) (hp : Free pat p) (hq : Free pat q) :
    Free pat (p ++ c :: q) := fun h => (infix_append_cons hc h).elim hp hq

/-- An occurrence does not end in a part that lacks its last element. -/
theorem infix_of_append {c : α} (hc : c ∉ q) (h : pat ++ [c] <:+: p ++ q) : pat ++ [c] <:+: p := by
  obtain ⟨s, t, hst⟩ := h
  rcases List.append_eq_append_iff.mp hst with ⟨u, hp, -⟩ | ⟨u, hs, rfl⟩
  · exact ⟨s, u, hp.symm⟩
  · cases u using List.reverseRecOn with
    | nil => exact ⟨s, [], by rw [List.append_nil, hs, List.append_nil]⟩
    | append_singleton u d =>
      rw [← List.append_assoc, ← List.append_assoc] at hs
      obtain rfl : c = d := List.singleton_inj.mp (List.append_inj_right' hs rfl)
      exact absurd (by simp) hc

/-- Before an occurrence of a borderless pattern nothing free of it begins another. -/
theorem not_prefix_of_free (hb : Borderless pat) (hp : p ≠ []) (hf : Free pat p) :
    ¬ pat <+: p ++ pat ++ q := by
  intro hpre
  rw [List.append_assoc] at hpre
  rcases Nat.lt_or_ge p.length pat.length with hlt | hle
  · -- the occurrence would run into the pattern that follows
    have hpat : p <+: pat :=
      List.prefix_of_prefix_length_le (List.prefix_append p (pat ++ q)) hpre hlt.le
    obtain ⟨t, ht⟩ := hpat
    have htail : t <+: pat ++ q := by
      rw [← ht, List.prefix_append_right_inj] at hpre
      rwa [ht] at hpre
    have hlen : t.length ≤ pat.length := by
      rw [← ht, List.length_append]
      omega
    have hdrop : pat.drop p.length = t := by
      rw [← ht, List.drop_left]
    refine hb p.length hlt (List.length_pos_iff.mpr hp) ?_
    rw [hdrop]
    exact List.prefix_of_prefix_length_le htail (List.prefix_append pat q) hlen
  · exact hf (List.prefix_of_prefix_length_le hpre (List.prefix_append p (pat ++ q)) hle).isInfix

/-- Joining with a separator makes a list at least as long as the number of separators. -/
theorem length_le_join (hne : sep ≠ []) (p : List α) (ps : List (List α)) :
    ps.length ≤ (List.intercalate sep (p :: ps)).length := by
  have hpos := List.length_pos_iff.mpr hne
  induction ps generalizing p with
  | nil => exact Nat.zero_le _
  | cons p' ps ih =>
    have h := ih p'
    rw [List.intercalate_cons_cons]
    simp only [List.length_append, List.length_cons]
    omega

/-- Joining two runs of pieces. -/
theorem join_append (sep p : List α) (qs : List (List α)) (r : List α) (rs : List (List α)) :
    List.intercalate sep (p :: (qs ++ r :: rs))
      = List.intercalate sep (p :: qs) ++ sep ++ List.intercalate sep (r :: rs) := by
  induction qs generalizing p with
  | nil => rw [List.nil_append, List.intercalate_cons_cons, List.intercalate_singleton]
  | cons q qs ih =>
    rw [List.cons_append, List.intercalate_cons_cons, ih, List.intercalate_cons_cons]
    simp only [List.append_assoc]

/-- An empty piece doubles the separator. -/
theorem join_double (sep p : List α) (qs : List (List α)) (r : List α) (rs : List (List α)) :
    List.intercalate sep (p :: (qs ++ [] :: r :: rs))
      = List.intercalate sep (p :: qs) ++ ((sep ++ sep) ++ List.intercalate sep (r :: rs)) := by
  rw [join_append, List.intercalate_cons_cons, List.nil_append]
  simp only [List.append_assoc]

/-! ## Finding -/

variable [DecidableEq α]

instance (pat s : List α) : Decidable (Free pat s) := by unfold Free; infer_instance
instance (pat : List α) : Decidable (Borderless pat) := by unfold Borderless; infer_instance

/-- Where `pat` first occurs. -/
def find (pat : List α) : List α → Option Nat
  | [] => if pat = [] then some 0 else none
  | c :: s => if pat <+: c :: s then some 0 else (find pat s).map (· + 1)

theorem find_eq_none (hne : pat ≠ []) : find pat s = none ↔ Free pat s := by
  induction s with
  | nil => simp [find, hne, free_nil hne]
  | cons c s ih =>
    rw [find]
    by_cases hpre : pat <+: c :: s
    · rw [if_pos hpre]
      exact ⟨nofun, fun h => absurd hpre.isInfix h⟩
    · rw [if_neg hpre, Option.map_eq_none_iff, ih]
      refine ⟨fun h hi => ?_, Free.tail⟩
      rcases List.infix_cons_iff.mp hi with hpre' | hi'
      · exact hpre hpre'
      · exact h hi'

theorem find_of_prefix (hpre : pat <+: s) : find pat s = some 0 := by
  cases s with
  | nil => rw [find, if_pos (List.prefix_nil.mp hpre)]
  | cons c s => rw [find, if_pos hpre]

theorem find_cons {c : α} (hpre : ¬ pat <+: c :: s) :
    find pat (c :: s) = (find pat s).map (· + 1) := by
  rw [find, if_neg hpre]

/-- The first occurrence behind a part that is free of the pattern. -/
theorem find_append (hb : Borderless pat) (hf : Free pat p) :
    find pat (p ++ pat ++ q) = some p.length := by
  induction p with
  | nil => exact find_of_prefix (List.prefix_append pat q)
  | cons c p ih =>
    have hnot : ¬ pat <+: (c :: p) ++ pat ++ q := not_prefix_of_free hb (List.cons_ne_nil _ _) hf
    simp only [List.cons_append] at hnot ⊢
    rw [find_cons hnot, ih hf.tail]
    rfl

theorem find_length {i : Nat} (h : find pat s = some i) : i + pat.length ≤ s.length := by
  induction s generalizing i with
  | nil =>
    rw [find] at h
    split at h
    · rename_i hnil
      cases h
      simp [hnil]
    · cases h
  | cons c s ih =>
    rw [find] at h
    split at h
    · rename_i hpre
      cases h
      have := hpre.length_le
      omega
    · obtain ⟨j, hj, rfl⟩ := Option.map_eq_some_iff.mp h
      have := ih hj
      rw [List.length_cons]
      omega

/-- An occurrence that is found is one. -/
theorem find_eq {i : Nat} (h : find pat s = some i) :
    s = s.take i ++ pat ++ s.drop (i + pat.length) := by
  induction s generalizing i with
  | nil =>
    rw [find] at h
    split at h
    · rename_i hnil
      cases h
      simp [hnil]
    · cases h
  | cons c s ih =>
    rw [find] at h
    split at h
    · rename_i hpre
      cases h
      obtain ⟨t, ht⟩ := hpre
      rw [List.take_zero, List.nil_append, Nat.zero_add, ← ht, List.drop_left]
    · obtain ⟨j, hj, rfl⟩ := Option.map_eq_some_iff.mp h
      rw [List.take_succ_cons, show j + 1 + pat.length = j + pat.length + 1 by omega,
        List.drop_succ_cons, List.cons_append, List.cons_append, ← ih hj]

/-- What is found in a list is found there in every longer one. -/
theorem find_append_right {i : Nat} (h : find pat s = some i) (t : List α) :
    find pat (s ++ t) = some i := by
  induction s generalizing i with
  | nil =>
    rw [find] at h
    split at h
    · rename_i hnil
      rw [List.nil_append, hnil]
      cases h
      exact find_of_prefix List.nil_prefix
    · cases h
  | cons c s ih =>
    rw [find] at h
    split at h
    · rename_i hpre
      cases h
      exact find_of_prefix (hpre.trans (List.prefix_append _ _))
    · rename_i hpre
      obtain ⟨j, hj, rfl⟩ := Option.map_eq_some_iff.mp h
      have hlen := find_length hj
      have hnot : ¬ pat <+: c :: (s ++ t) := fun hp =>
        hpre (List.prefix_of_prefix_length_le hp (List.prefix_append (c :: s) t)
          (by rw [List.length_cons]; omega))
      rw [List.cons_append, find_cons hnot, ih hj]
      rfl

/-- Nothing is found before the first occurrence. -/
theorem find_take_free {i : Nat} (hne : pat ≠ []) (h : find pat s = some i) :
    Free pat (s.take i) := by
  refine (find_eq_none hne).mp ?_
  cases hfind : find pat (s.take i) with
  | none => rfl
  | some j =>
    have hlen := find_length hfind
    have hpos := List.length_pos_iff.mpr hne
    have hs := find_append_right hfind (s.drop i)
    rw [List.take_append_drop, h] at hs
    cases hs
    rw [List.length_take] at hlen
    omega

/-- A line and the separator behind it hold no doubled separator unless another one follows. -/
theorem find_double_line (hb : Borderless sep) (hf : Free sep p) (hq : ¬ sep <+: q) :
    find (sep ++ sep) (p ++ sep ++ q)
      = (find (sep ++ sep) q).map (p.length + sep.length + ·) := by
  -- behind the line, from position `sep.length - k` of the separator on
  have hsep : ∀ k ≤ sep.length, find (sep ++ sep) (sep.drop (sep.length - k) ++ q)
      = (find (sep ++ sep) q).map (k + ·) := by
    intro k hk
    induction k with
    | zero => simp
    | succ k ih =>
      have hdrop := List.drop_eq_getElem_cons (i := sep.length - (k + 1)) (l := sep) (by omega)
      have hnot : ¬ sep ++ sep <+: sep.drop (sep.length - (k + 1)) ++ q := by
        intro hp
        rcases Nat.eq_or_lt_of_le hk with heq | hlt
        · rw [heq, Nat.sub_self, List.drop_zero, List.prefix_append_right_inj] at hp
          exact hq hp
        · refine hb (sep.length - (k + 1)) (by omega) (by omega) ?_
          exact List.prefix_of_prefix_length_le (List.prefix_append _ q)
            ((List.prefix_append sep sep).trans hp) (by simp)
      rw [hdrop, List.cons_append] at hnot ⊢
      rw [find_cons hnot, show sep.length - (k + 1) + 1 = sep.length - k by omega, ih (by omega),
        Option.map_map]
      congr 1
      funext i
      simp only [Function.comp_apply]
      omega
  induction p with
  | nil =>
    have h := hsep sep.length (Nat.le_refl _)
    rw [Nat.sub_self, List.drop_zero] at h
    simpa using h
  | cons c p ih =>
    have hnot : ¬ sep ++ sep <+: c :: p ++ sep ++ q := fun hp =>
      not_prefix_of_free hb (List.cons_ne_nil c p) hf ((List.prefix_append sep sep).trans hp)
    rw [List.cons_append, List.cons_append] at hnot ⊢
    rw [find_cons hnot, ih hf.tail, Option.map_map]
    congr 1
    funext i
    simp only [Function.comp_apply, List.length_cons]
    omega

theorem find_double_end (hb : Borderless sep) (hf : Free sep p) :
    find (sep ++ sep) (p ++ sep ++ (sep ++ q)) = some p.length := by
  induction p with
  | nil =>
    refine find_of_prefix ?_
    rw [List.nil_append, ← List.append_assoc]
    exact List.prefix_append _ q
  | cons c p ih =>
    have hnot : ¬ sep ++ sep <+: c :: p ++ sep ++ (sep ++ q) := fun hp =>
      not_prefix_of_free hb (List.cons_ne_nil c p) hf ((List.prefix_append sep sep).trans hp)
    rw [List.cons_append, List.cons_append] at hnot ⊢
    rw [find_cons hnot, ih hf.tail]
    rfl

/-! ## Splitting -/

/-- The pieces between the first `n` occurrences of `sep`. -/
def splitN (sep : List α) : Nat → List α → List (List α)
  | 0, s => [s]
  | n + 1, s =>
    match find sep s with
    | none => [s]
    | some i => s.take i :: splitN sep n (s.drop (i + sep.length))

/-- The pieces between all occurrences of `sep`. -/
def split (sep s : List α) : List (List α) := splitN sep s.length s

theorem splitN_free (hne : sep ≠ []) (hf : Free sep s) (n : Nat) : splitN sep n s = [s] := by
  cases n with
  | zero => rfl
  | succ n => rw [splitN, (find_eq_none hne).mpr hf]

theorem splitN_append (hb : Borderless sep) (hf : Free sep p) (n : Nat) :
    splitN sep (n + 1) (p ++ sep ++ q) = p :: splitN sep n q := by
  rw [splitN, find_append hb hf]
  dsimp only
  rw [List.append_assoc, List.take_left, ← List.append_assoc,
    show p.length + sep.length = (p ++ sep).length from List.length_append.symm, List.drop_left]

/-- Pieces that are free of the separator come back from what they are joined to. -/
theorem splitN_join {ps : List (List α)} {n : Nat} (hne : sep ≠ []) (hb : Borderless sep)
    (hf : ∀ x ∈ p :: ps, Free sep x) (hn : ps.length ≤ n) :
    splitN sep n (List.intercalate sep (p :: ps)) = p :: ps := by
  induction ps generalizing p n with
  | nil =>
    rw [List.intercalate_singleton]
    exact splitN_free hne (hf p (by simp)) n
  | cons p' ps ih =>
    obtain ⟨n, rfl⟩ : ∃ m, n = m + 1 := ⟨n - 1, by simp only [List.length_cons] at hn; omega⟩
    have hn' : ps.length ≤ n := by
      simp only [List.length_cons] at hn
      omega
    rw [List.intercalate_cons_cons, splitN_append hb (hf p (by simp)),
      ih (fun x hx => hf x (List.mem_cons_of_mem _ hx)) hn']

theorem split_join {ps : List (List α)} (hne : sep ≠ []) (hb : Borderless sep)
    (hf : ∀ x ∈ p :: ps, Free sep x) : split sep (List.intercalate sep (p :: ps)) = p :: ps :=
  splitN_join hne hb hf (length_le_join hne p ps)

theorem splitN_of_le (hne : sep ≠ []) {n m : Nat} (hn : s.length ≤ n) (hm : s.length ≤ m) :
    splitN sep n s = splitN sep m s := by
  have hpos := List.length_pos_iff.mpr hne
  induction n generalizing m s with
  | zero =>
    obtain rfl := List.length_eq_zero_iff.mp (Nat.le_zero.mp hn)
    rw [splitN_free hne (free_nil hne), splitN_free hne (free_nil hne)]
  | succ n ih =>
    cases hfind : find sep s with
    | none =>
      have hf := (find_eq_none hne).mp hfind
      rw [splitN_free hne hf, splitN_free hne hf]
    | some i =>
      have hlen := find_length hfind
      obtain ⟨m, rfl⟩ : ∃ k, m = k + 1 := ⟨m - 1, by omega⟩
      rw [splitN, splitN, hfind]
      dsimp only
      rw [ih (m := m) (by rw [List.length_drop]; omega) (by rw [List.length_drop]; omega)]

theorem split_free (hne : sep ≠ []) (hf : Free sep s) : split sep s = [s] := splitN_free hne hf _

theorem split_find (hne : sep ≠ []) {i : Nat} (h : find sep s = some i) :
    split sep s = s.take i :: split sep (s.drop (i + sep.length)) := by
  have hpos := List.length_pos_iff.mpr hne
  have hlen := find_length h
  obtain ⟨n, hn⟩ : ∃ n, s.length = n + 1 := ⟨s.length - 1, by omega⟩
  unfold split
  rw [hn, splitN, h]
  dsimp only
  rw [splitN_of_le hne (m := (s.drop (i + sep.length)).length) (by rw [List.length_drop]; omega)
    (Nat.le_refl _)]

/-- A character in front that begins no separator joins the first piece. -/
theorem split_cons (hne : sep ≠ []) {c : α} {ps : List (List α)} (hpre : ¬ sep <+: c :: s)
    (h : split sep s = p :: ps) : split sep (c :: s) = (c :: p) :: ps := by
  cases hfind : find sep s with
  | none =>
    have hfind' : find sep (c :: s) = none := by
      rw [find_cons hpre, hfind]
      rfl
    rw [split_free hne ((find_eq_none hne).mp hfind)] at h
    rw [split_free hne ((find_eq_none hne).mp hfind')]
    cases h
    rfl
  | some i =>
    have hfind' : find sep (c :: s) = some (i + 1) := by
      rw [find_cons hpre, hfind]
      rfl
    rw [split_find hne hfind] at h
    rw [split_find hne hfind', show i + 1 + sep.length = i + sep.length + 1 by omega]
    cases h
    rfl

/-- Splitting at one occurrence splits both sides. -/
theorem split_append (hne : sep ≠ []) (hb : Borderless sep) (s t : List α) :
    split sep (s ++ sep ++ t) = split sep s ++ split sep t := by
  induction hn : s.length using Nat.strong_induction_on generalizing s with
  | _ n ih =>
    subst hn
    cases hfind : find sep s with
    | none =>
      have hf := (find_eq_none hne).mp hfind
      rw [split_free hne hf, split_find hne (find_append hb hf), List.append_assoc,
        List.take_left, ← List.append_assoc, ← List.length_append, List.drop_left]
      rfl
    | some i =>
      have hpos := List.length_pos_iff.mpr hne
      have hlen := find_length hfind
      have hfind' : find sep (s ++ sep ++ t) = some i := by
        rw [List.append_assoc]
        exact find_append_right hfind _
      have htail := ih (s.drop (i + sep.length)).length (by rw [List.length_drop]; omega) _ rfl
      rw [split_find hne hfind, split_find hne hfind', List.append_assoc,
        List.take_append_of_le_length (by omega), List.drop_append_of_le_length hlen,
        ← List.append_assoc, htail]
      rfl

/-- The pieces are free of the separator and joined make the list again. -/
theorem split_spec (hne : sep ≠ []) (s : List α) :
    ∃ p ps, split sep s = p :: ps ∧ (∀ x ∈ p :: ps, Free sep x) ∧
      s = List.intercalate sep (p :: ps) := by
  induction hn : s.length using Nat.strong_induction_on generalizing s with
  | _ n ih =>
    subst hn
    cases hfind : find sep s with
    | none =>
      have hf := (find_eq_none hne).mp hfind
      refine ⟨s, [], split_free hne hf, fun x hx => ?_, by simp⟩
      rw [List.mem_singleton.mp hx]
      exact hf
    | some i =>
      have hpos := List.length_pos_iff.mpr hne
      have hlen := find_length hfind
      obtain ⟨p, ps, hsplit, hfree, hjoin⟩ :=
        ih (s.drop (i + sep.length)).length (by rw [List.length_drop]; omega) _ rfl
      refine ⟨s.take i, p :: ps, by rw [split_find hne hfind, hsplit], fun x hx => ?_, ?_⟩
      · rcases List.mem_cons.mp hx with rfl | hx
        · exact find_take_free hne hfind
        · exact hfree x hx
      · rw [List.intercalate_cons_cons, ← hjoin]
        exact find_eq hfind

/-- In lines joined by a separator the first empty line behind the first one is where the
separator is first doubled. -/
theorem find_double_join (hb : Borderless sep) {qs rs : List (List α)} {r : List α}
    (hf : ∀ x ∈ p :: qs, Free sep x) (hqs : [] ∉ qs) :
    find (sep ++ sep) (List.intercalate sep (p :: (qs ++ [] :: r :: rs)))
      = some (List.intercalate sep (p :: qs)).length := by
  induction qs generalizing p with
  | nil =>
    rw [List.nil_append, List.intercalate_cons_cons, List.intercalate_cons_cons, List.nil_append,
      find_double_end hb (hf p (List.mem_cons_self ..)), List.intercalate_singleton]
  | cons q qs ih =>
    simp only [List.mem_cons, not_or] at hqs
    have hrest := ih (p := q) (fun x hx => hf x (List.mem_cons_of_mem _ hx)) hqs.2
    have hnot : ¬ sep <+: List.intercalate sep (q :: (qs ++ [] :: r :: rs)) := by
      have hq : Free sep q := hf q (List.mem_cons_of_mem _ (List.mem_cons_self ..))
      obtain ⟨y, ys, hy⟩ : ∃ y ys, qs ++ [] :: r :: rs = y :: ys := by
        cases qs with
        | nil => exact ⟨_, _, rfl⟩
        | cons y ys => exact ⟨_, _, rfl⟩
      rw [hy, List.intercalate_cons_cons]
      exact not_prefix_of_free hb (Ne.symm hqs.1) hq
    rw [List.cons_append, List.intercalate_cons_cons,
      find_double_line hb (hf p (List.mem_cons_self ..)) hnot, hrest, List.intercalate_cons_cons]
    simp only [Option.map_some, List.length_append]

/-- So splitting once at the doubled separator cuts the lines there. -/
theorem splitN_double_join (hb : Borderless sep) {qs rs : List (List α)} {r : List α}
    (hf : ∀ x ∈ p :: qs, Free sep x) (hqs : [] ∉ qs) :
    splitN (sep ++ sep) 1 (List.intercalate sep (p :: (qs ++ [] :: r :: rs)))
      = [List.intercalate sep (p :: qs), List.intercalate sep (r :: rs)] := by
  rw [splitN, find_double_join hb hf hqs, join_double]
  dsimp only
  rw [List.take_left, ← List.append_assoc, ← List.length_append, List.drop_left]
  rfl

/-- Before the first doubled separator no piece behind the first one is empty. -/
theorem nil_notMem_split (hne : sep ≠ []) (hb : Borderless sep) {k : Nat}
    (h : find (sep ++ sep) s = some k) : [] ∉ (split sep (s.take k)).tail := by
  obtain ⟨p, ps, hsplit, hfree, hjoin⟩ := split_spec hne (s.take k)
  rw [hsplit, List.tail_cons]
  intro hmem
  obtain ⟨qs, rs, rfl, hqs⟩ := List.eq_append_cons_of_mem hmem
  -- the list with its pieces up to the empty one, that one, and whatever follows
  obtain ⟨r, rs', hrest⟩ : ∃ r rs', rs ++ [[], s.drop (k + (sep ++ sep).length)] = r :: rs' := by
    cases rs with
    | nil => exact ⟨_, _, rfl⟩
    | cons r rs => exact ⟨_, _, rfl⟩
  have hs : s = List.intercalate sep (p :: (qs ++ [] :: r :: rs')) := by
    have hdouble := join_double sep p (qs ++ [] :: rs) (s.drop (k + (sep ++ sep).length)) []
    rw [List.intercalate_singleton, ← hjoin, ← List.append_assoc (s.take k), ← find_eq h] at hdouble
    rw [← hrest]
    exact hdouble.symm.trans (congrArg (fun l => List.intercalate sep (p :: l))
      (List.append_assoc ..))
  have hfirst : find (sep ++ sep) s = some (List.intercalate sep (p :: qs)).length := by
    conv_lhs => rw [hs]
    exact find_double_join hb (fun x hx => hfree x (by
      rcases List.mem_cons.mp hx with rfl | hx
      · exact List.mem_cons_self ..
      · exact List.mem_cons_of_mem _ (List.mem_append_left _ hx))) hqs
  have hk : k = (List.intercalate sep (p :: qs)).length := Option.some.inj (h.symm.trans hfirst)
  have hlen := congrArg List.length hjoin
  have hpos := List.length_pos_iff.mpr hne
  have hbound := find_length h
  rw [join_append, List.length_take, List.length_append, List.length_append, ← hk] at hlen
  omega

end Sbpfs.Lib.Search
