import Sbpfs.Spec.Components

/-!
# Cutting the last name off a path

One cut takes the name behind the last slash and walks the rest, the other walks the whole path.
The names they go through are the same where the path has a slash, does not end with one, and is
not a name behind two slashes.
-/
namespace Sbpfs.Spec.Cut

open Sbpfs.Cfs.Layout Sbpfs.Cfs.Lookup Sbpfs.Spec.FileTree Sbpfs.Spec.Resolve
open Sbpfs.Spec.Components

variable {path dir name : CStr}

/-! ## The cut -/

/-- The path without a slash at its end. -/
def trimmed (path : CStr) : CStr := if path.getLast? = some slash then path.dropLast else path

theorem splitLast_none {t : CStr} : splitLast t = none ↔ slash ∉ t := by
  induction t with
  | nil => exact ⟨fun _ => List.not_mem_nil, fun _ => rfl⟩
  | cons c cs ih =>
    rw [splitLast]
    cases hs : splitLast cs with
    | some q =>
      constructor
      · intro h
        cases h
      · intro h
        have hnone := ih.mpr fun hm => h (List.mem_cons_of_mem _ hm)
        rw [hs] at hnone
        cases hnone
    | none =>
      have hfree := ih.mp hs
      by_cases hc : c = slash
      · constructor
        · intro h
          rw [if_pos hc] at h
          cases h
        · intro h
          exact absurd (hc ▸ List.mem_cons_self ..) h
      · constructor
        · intro _
          exact List.not_mem_cons_of_ne_of_not_mem (Ne.symm hc) hfree
        · intro _
          exact if_neg hc

/-- The name has no slash, and the slash before it is the last one. -/
theorem splitLast_some {t : CStr} (h : splitLast t = some (dir, name)) :
    t = dir ++ slash :: name ∧ slash ∉ name := by
  induction t generalizing dir with
  | nil => cases h
  | cons c cs ih =>
    rw [splitLast] at h
    cases hs : splitLast cs with
    | some q =>
      obtain ⟨pre, name'⟩ := q
      rw [hs] at h
      cases h
      obtain ⟨hcs, hfree⟩ := ih hs
      exact ⟨by rw [hcs]; rfl, hfree⟩
    | none =>
      rw [hs] at h
      dsimp only at h
      by_cases hc : c = slash
      · rw [if_pos hc] at h
        cases h
        exact ⟨by rw [hc]; rfl, splitLast_none.mp hs⟩
      · rw [if_neg hc] at h
        cases h

/-- The names that lead to what the path names in its directory. -/
def cut (path : CStr) : Option (List CStr) :=
  (getFilenameFromPath path).map fun q =>
    (if walked q.1 = [] then [] else components q.1) ++ [q.2]

/-- The two cuts give the same names. -/
structure Plain (path : CStr) : Prop where
  slashed : slash ∈ path
  open_end : path.getLast? ≠ some slash
  single : ∀ name, slash ∉ name → path ≠ slash :: slash :: name

theorem walked_append (hdir : dir ≠ []) :
    walked (dir ++ slash :: name) = walked dir ++ slash :: name := by
  cases dir with
  | nil => exact absurd rfl hdir
  | cons c cs =>
    unfold walked
    rw [List.cons_append, List.head?_cons, List.head?_cons]
    by_cases hc : some c = some slash
    · rw [if_pos hc, if_pos hc]
      rfl
    · rw [if_neg hc, if_neg hc]
      rfl

theorem splitOn_name (hfree : slash ∉ name) (u : CStr) :
    (u ++ slash :: name).splitOn slash = u.splitOn slash ++ [name] := by
  rw [List.splitOn_append_cons_self, List.splitOn_eq_singleton hfree]

/-- Where the path to the directory is not empty, the last name is the last component. -/
theorem components_append (hdir : walked dir ≠ []) (hfree : slash ∉ name) :
    components (dir ++ slash :: name) = components dir ++ [name] := by
  have hne : dir ≠ [] := by
    intro h
    rw [h] at hdir
    exact hdir rfl
  unfold components
  rw [walked_append hne, splitOn_name hfree]

/-- A directory that is walked without a step is the empty path or `/`. -/
theorem walked_nil (h : walked dir = []) : dir = [] ∨ dir = [slash] := by
  unfold walked at h
  cases dir with
  | nil => exact .inl rfl
  | cons c cs =>
    rw [List.head?_cons] at h
    by_cases hc : some c = some slash
    · rw [if_pos hc] at h
      cases Option.some.inj hc
      exact .inr (congrArg (slash :: ·) h)
    · rw [if_neg hc] at h
      cases h

/-- How a trimmed path is cut. -/
inductive Cuts (path : CStr) : Prop where
  | free (hfree : slash ∉ trimmed path) (hcut : cut path = none)
  | whole (hslash : slash ∈ trimmed path)
      (hsingle : ∀ name, slash ∉ name → trimmed path ≠ slash :: slash :: name)
      (hcut : cut path = some (components (trimmed path)))
  | doubled {name : CStr} (hfree : slash ∉ name) (hpath : trimmed path = slash :: slash :: name)
      (hcut : cut path = some [name]) (hall : components (trimmed path) = [[], name])

theorem cuts (path : CStr) : Cuts path := by
  have hcut : cut path = (splitLast (trimmed path)).map fun q =>
      (if walked q.1 = [] then [] else components q.1) ++ [q.2] := rfl
  cases hs : splitLast (trimmed path) with
  | none =>
    rw [hs] at hcut
    exact .free (splitLast_none.mp hs) hcut
  | some q =>
    obtain ⟨dir, name⟩ := q
    rw [hs, Option.map_some] at hcut
    obtain ⟨ht, hfree⟩ := splitLast_some hs
    have hslash : slash ∈ trimmed path := by
      rw [ht]
      exact List.mem_append_right _ (List.mem_cons_self ..)
    by_cases hdir : walked dir = []
    · rw [if_pos hdir] at hcut
      rcases walked_nil hdir with rfl | rfl
      · refine .whole hslash (fun name' hfree' heq => ?_) ?_
        · rw [ht] at heq
          cases heq
          exact hfree (List.mem_cons_self ..)
        · rw [hcut, ht]
          show some [name] = some (name.splitOn slash)
          rw [List.splitOn_eq_singleton hfree]
      · refine .doubled hfree ht hcut ?_
        rw [ht]
        show (slash :: name).splitOn slash = [[], name]
        exact splitOn_name hfree []
    · rw [if_neg hdir] at hcut
      refine .whole hslash (fun name' hfree' heq => hdir ?_) ?_
      · -- the directory in front of the last slash would be `/`
        have hback := congrArg splitLast heq
        rw [hs] at hback
        have hsplit : splitLast (slash :: slash :: name') = some ([slash], name') := by
          rw [splitLast, splitLast, splitLast_none.mpr hfree']
          dsimp only
          rw [if_pos rfl]
        rw [hsplit] at hback
        cases hback
        rfl
      · rw [hcut, ht, components_append hdir hfree]

theorem trimmed_open (h : path.getLast? ≠ some slash) : trimmed path = path := if_neg h

/-- A slash at the end is one more component, an empty one. -/
theorem trimmed_closed (h : path.getLast? = some slash) (hne : trimmed path ≠ []) :
    path = trimmed path ++ [slash] ∧ components path = components (trimmed path) ++ [[]] := by
  have hpath : path = trimmed path ++ [slash] := by
    unfold trimmed
    rw [if_pos h]
    obtain ⟨u, hu⟩ := List.getLast?_eq_some_iff.mp h
    rw [hu, List.dropLast_concat]
  refine ⟨hpath, ?_⟩
  have hwalk : walked (trimmed path ++ [slash]) = walked (trimmed path) ++ [slash] :=
    walked_append hne
  rw [← hpath] at hwalk
  unfold components
  rw [hwalk, splitOn_name List.not_mem_nil]

/-- Of a plain path both cuts give the same names. -/
theorem Plain.cut_eq (h : Plain path) : cut path = some (components path) := by
  have htrim := trimmed_open h.open_end
  cases cuts path with
  | free hfree hcut =>
    rw [htrim] at hfree
    exact absurd h.slashed hfree
  | whole hslash hsingle hcut =>
    rw [hcut, htrim]
  | doubled hfree hpath hcut hall =>
    rw [htrim] at hpath
    exact absurd hpath (h.single _ hfree)

/-- The name behind the cut is empty just when the path ends in two slashes. -/
theorem filename_nil_iff (h : getFilenameFromPath path = some (dir, name)) :
    name = [] ↔ [slash, slash] <:+ path := by
  obtain ⟨ht, hfree⟩ := splitLast_some (show splitLast (trimmed path) = some (dir, name) from h)
  constructor
  · intro hname
    rw [hname] at ht
    have hlast : path.getLast? = some slash := by
      by_contra hopen
      rw [trimmed_open hopen] at ht
      rw [ht, List.getLast?_concat] at hopen
      exact hopen rfl
    have hne : trimmed path ≠ [] := by
      rw [ht]
      exact List.append_ne_nil_of_right_ne_nil _ (List.cons_ne_nil _ _)
    obtain ⟨hpath, -⟩ := trimmed_closed hlast hne
    exact ⟨dir, by rw [hpath, ht, List.append_assoc]; rfl⟩
  · intro hsuffix
    obtain ⟨u, hu⟩ := hsuffix
    have htrim : trimmed path = u ++ [slash] := by
      have hpath : path = (u ++ [slash]) ++ [slash] := by rw [← hu, List.append_assoc]; rfl
      unfold trimmed
      rw [hpath, List.getLast?_concat, if_pos rfl, List.dropLast_concat]
    rcases List.eq_nil_or_concat name with hnil | ⟨ys, c, hc⟩
    · exact hnil
    · have hlast := congrArg List.getLast? (ht.symm.trans htrim)
      rw [hc, List.concat_eq_append, ← List.cons_append, ← List.append_assoc, List.getLast?_concat,
        List.getLast?_concat] at hlast
      rw [hc, Option.some.inj hlast] at hfree
      exact absurd (by simp) hfree

/-! ## Walks -/

section Walks

variable {ents ents' : Nat → List Ent} {base d d' : Nat} {e e' : Ent} {names : List CStr}

theorem walks_ne_nil (h : Walks ents base names d e) : names ≠ [] := by
  cases h <;> exact List.cons_ne_nil _ _

theorem walks_single {x : CStr} :
    Walks ents base [x] d e ↔ d = base ∧ e ∈ ents base ∧ e.name = x := by
  constructor
  · intro h
    generalize hnames : [x] = names at h
    cases h with
    | last hmem =>
      exact ⟨rfl, hmem, (List.head_eq_of_cons_eq hnames).symm⟩
    | step hmem htype hrest =>
      exact absurd (List.tail_eq_of_cons_eq hnames).symm (walks_ne_nil hrest)
  · intro h
    obtain ⟨rfl, hmem, rfl⟩ := h
    exact .last hmem

theorem walks_cons (hne : names ≠ []) {n : CStr} :
    Walks ents base (n :: names) d e ↔ ∃ next ∈ ents base, next.name = n ∧ next.type = S_DIR ∧
      Walks ents next.fb names d e := by
  constructor
  · intro h
    generalize hnames : n :: names = all at h
    cases h with
    | last hmem => exact absurd (List.tail_eq_of_cons_eq hnames) hne
    | @step _ _ next _ names' hmem htype hrest =>
      rw [← List.tail_eq_of_cons_eq hnames] at hrest
      exact ⟨next, hmem, (List.head_eq_of_cons_eq hnames).symm, htype, hrest⟩
  · intro h
    obtain ⟨next, hmem, rfl, htype, hrest⟩ := h
    exact .step hmem htype hrest

/-- One more name is looked up where the names before it lead. -/
theorem walks_snoc (hne : names ≠ []) {x : CStr} :
    Walks ents base (names ++ [x]) d e ↔ ∃ d' f, Walks ents base names d' f ∧ f.type = S_DIR ∧
      f.fb = d ∧ e ∈ ents d ∧ e.name = x := by
  induction names generalizing base with
  | nil => exact absurd rfl hne
  | cons n names ih =>
    rw [List.cons_append, walks_cons (List.append_ne_nil_of_right_ne_nil _ (List.cons_ne_nil _ _))]
    by_cases hnil : names = []
    · subst hnil
      constructor
      · intro h
        obtain ⟨next, hmem, hname, htype, hrest⟩ := h
        obtain ⟨rfl, he, hx⟩ := walks_single.mp hrest
        exact ⟨base, next, walks_single.mpr ⟨rfl, hmem, hname⟩, htype, rfl, he, hx⟩
      · intro h
        obtain ⟨d', f, hf, htype, hfb, he, hx⟩ := h
        obtain ⟨-, hmem, hname⟩ := walks_single.mp hf
        refine ⟨f, hmem, hname, htype, walks_single.mpr ⟨hfb.symm, ?_, hx⟩⟩
        rw [hfb]
        exact he
    · constructor
      · intro h
        obtain ⟨next, hmem, hname, htype, hrest⟩ := h
        obtain ⟨d', f, hf, hend⟩ := (ih hnil).mp hrest
        exact ⟨d', f, (walks_cons hnil).mpr ⟨next, hmem, hname, htype, hf⟩, hend⟩
      · intro h
        obtain ⟨d', f, hf, hend⟩ := h
        obtain ⟨next, hmem, hname, htype, hrest⟩ := (walks_cons hnil).mp hf
        exact ⟨next, hmem, hname, htype, (ih hnil).mpr ⟨d', f, hrest, hend⟩⟩

/-- No table has two entries of a name. -/
theorem entry_unique (hnodup : ∀ d, ((ents d).map Ent.name).Nodup) (h : e ∈ ents d)
    (h' : e' ∈ ents d) (hname : e.name = e'.name) : e = e' :=
  List.inj_on_of_nodup_map (hnodup d) h h' hname

/-- Names lead to one entry. -/
theorem walks_unique (hnodup : ∀ d, ((ents d).map Ent.name).Nodup) (h : Walks ents base names d e)
    (h' : Walks ents base names d' e') : d = d' ∧ e = e' := by
  induction h with
  | last hmem =>
    obtain ⟨hd, hmem', hname⟩ := walks_single.mp h'
    exact ⟨hd.symm, entry_unique hnodup hmem hmem' hname.symm⟩
  | step hmem htype hrest ih =>
    obtain ⟨next', hmem', hname, -, hrest'⟩ := (walks_cons (walks_ne_nil hrest)).mp h'
    rw [entry_unique hnodup hmem' hmem hname] at hrest'
    exact ih hrest'

theorem walks_mono (hsub : ∀ d, ents d ⊆ ents' d) (h : Walks ents base names d e) :
    Walks ents' base names d e := by
  induction h with
  | last hmem => exact .last (hsub _ hmem)
  | step hmem htype hrest ih => exact .step (hsub _ hmem) htype ih

end Walks

end Sbpfs.Spec.Cut
