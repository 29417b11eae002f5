import Sbpfs.Spec.Resolve

/-!
# Paths as lists of names

A path is a list of components with slashes between them. Walking it is going from one
directory to the next, and two ways to cut a path are compared by the components they give.
-/
namespace Sbpfs.Spec.Components

open Sbpfs.Cfs.Layout Sbpfs.Cfs.Lookup Sbpfs.Spec.FileTree Sbpfs.Spec.Resolve

/-- The components between the slashes, behind one slash at the start. -/
def components (path : CStr) : List CStr := (walked path).splitOn slash

/-- From the directory `base` the names lead to the entry `e` of the directory `d`; every name
before the last is that of a directory. -/
inductive Walks (ents : Nat → List Ent) : Nat → List CStr → Nat → Ent → Prop
  | last {d : Nat} {e : Ent} (h : e ∈ ents d) : Walks ents d [e.name] d e
  | step {base d : Nat} {next e : Ent} {names : List CStr} (h : next ∈ ents base)
      (htype : next.type = S_DIR) (hrest : Walks ents next.fb names d e) :
      Walks ents base (next.name :: names) d e

variable {ents : Nat → List Ent} {base d : Nat} {e : Ent} {path next rest : CStr}

theorem splitFirst_none (h : splitFirst path = none) : path.splitOn slash = [path] := by
  refine List.splitOn_eq_singleton fun hmem => ?_
  induction path with
  | nil => exact absurd hmem List.not_mem_nil
  | cons c cs ih =>
    rw [splitFirst] at h
    by_cases hc : c = slash
    · rw [if_pos hc] at h
      cases h
    · rw [if_neg hc] at h
      rcases List.mem_cons.mp hmem with hs | hs
      · exact hc hs.symm
      · exact ih (Option.map_eq_none_iff.mp h) hs

theorem splitFirst_eq (h : splitFirst path = some (next, rest)) :
    path = next ++ slash :: rest ∧ slash ∉ next := by
  induction path generalizing next with
  | nil => cases h
  | cons c cs ih =>
    rw [splitFirst] at h
    by_cases hc : c = slash
    · rw [if_pos hc] at h
      cases h
      exact ⟨by rw [hc]; rfl, List.not_mem_nil⟩
    · rw [if_neg hc] at h
      obtain ⟨q, hq, heq⟩ := Option.map_eq_some_iff.mp h
      obtain ⟨next', rest'⟩ := q
      cases heq
      obtain ⟨hcs, hfree⟩ := ih hq
      exact ⟨by rw [hcs]; rfl, List.not_mem_cons_of_ne_of_not_mem (Ne.symm hc) hfree⟩

theorem splitFirst_some (h : splitFirst path = some (next, rest)) :
    path.splitOn slash = next :: rest.splitOn slash := by
  obtain ⟨hpath, hfree⟩ := splitFirst_eq h
  rw [hpath, List.splitOn_append_cons_self_of_not_mem hfree]

/-- With one entry of a name in each table the search finds it. -/
theorem findName_iff (hnodup : ∀ d, ((ents d).map Ent.name).Nodup) {name : CStr} :
    findName (ents d) name = some e ↔ e ∈ ents d ∧ e.name = name := by
  constructor
  · intro h
    exact ⟨findName_mem h, findName_name h⟩
  · intro h
    cases hfind : findName (ents d) name with
    | none => exact absurd h.2 (findName_none hfind e h.1)
    | some e' =>
      have hname : e'.name = e.name := (findName_name hfind).trans h.2.symm
      exact congrArg some (List.inj_on_of_nodup_map (hnodup d) (findName_mem hfind) h.1 hname)

/-- The search of the source walks the components. The induction is on the rounds left. -/
theorem walkAt_iff (hnodup : ∀ d, ((ents d).map Ent.name).Nodup) {n : Nat} (hn : path.length < n) :
    walkAt ents n base path = some (d, e) ↔ Walks ents base (path.splitOn slash) d e := by
  induction n generalizing base path with
  | zero => exact absurd hn (Nat.not_lt_zero _)
  | succ n ih =>
    rw [walkAt]
    cases hsplit : splitFirst path with
    | none =>
      dsimp only
      rw [splitFirst_none hsplit]
      constructor
      · intro h
        obtain ⟨e', hfind, heq⟩ := Option.map_eq_some_iff.mp h
        cases heq
        obtain ⟨hmem, hname⟩ := (findName_iff hnodup).mp hfind
        exact hname ▸ .last hmem
      · intro h
        generalize hnames : [path] = names at h
        cases h with
        | last hmem =>
          have hname : path = e.name := List.head_eq_of_cons_eq hnames
          rw [(findName_iff hnodup).mpr ⟨hmem, hname.symm⟩]
          rfl
        | step hmem htype hrest =>
          have hnil := List.tail_eq_of_cons_eq hnames
          rw [← hnil] at hrest
          cases hrest
    | some q =>
      obtain ⟨next, rest⟩ := q
      dsimp only
      rw [splitFirst_some hsplit]
      have hlen : rest.length < n := by
        have hpath := congrArg List.length (splitFirst_eq hsplit).1
        simp only [List.length_append, List.length_cons] at hpath
        omega
      constructor
      · intro h
        cases hfind : findName (ents base) next with
        | none =>
          rw [hfind] at h
          cases h
        | some e' =>
          rw [hfind] at h
          dsimp only at h
          by_cases htype : e'.type = S_DIR
          · rw [if_pos htype] at h
            obtain ⟨hmem, hname⟩ := (findName_iff hnodup).mp hfind
            exact hname ▸ .step hmem htype ((ih hlen).mp h)
          · rw [if_neg htype] at h
            cases h
      · intro h
        generalize hnames : next :: rest.splitOn slash = names at h
        cases h with
        | last hmem =>
          exact absurd (List.tail_eq_of_cons_eq hnames) (List.splitOn_ne_nil _ _)
        | step hmem htype hrest =>
          have hname := List.head_eq_of_cons_eq hnames
          have htail := List.tail_eq_of_cons_eq hnames
          rw [← htail] at hrest
          rw [(findName_iff hnodup).mpr ⟨hmem, hname.symm⟩]
          dsimp only
          rw [if_pos htype]
          exact (ih hlen).mpr hrest

/-- A path that is walked names the entry its components lead to. -/
theorem resolve_iff (hnodup : ∀ d, ((ents d).map Ent.name).Nodup) (hpath : walked path ≠ []) :
    resolve ents path = some e ↔ ∃ d, Walks ents rootFb (components path) d e := by
  have hat := fun d f => @walkAt_iff ents rootFb d f (walked path) hnodup _ (Nat.lt_succ_self _)
  have hresolve : resolve ents path
      = (walkAt ents ((walked path).length + 1) rootFb (walked path)).map Prod.snd := by
    rw [← walk_eq]
    exact if_neg hpath
  rw [hresolve, Option.map_eq_some_iff]
  constructor
  · intro h
    obtain ⟨q, hq, rfl⟩ := h
    exact ⟨q.1, (hat q.1 q.2).mp hq⟩
  · intro h
    obtain ⟨d, hd⟩ := h
    exact ⟨(d, e), (hat d e).mpr hd, rfl⟩

theorem resolve_root (hpath : walked path = []) : resolve ents path = some rootEnt := if_pos hpath

end Sbpfs.Spec.Components
