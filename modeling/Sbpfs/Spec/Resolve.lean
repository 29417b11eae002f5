import Sbpfs.Cfs.Lookup
import Sbpfs.Spec.FileTree

/-!
# Paths in a file tree

Walking a path is searching one table after another. The tables come from anywhere:
from a file tree, or read off a disk image.
-/
namespace Sbpfs.Spec.Resolve

open Sbpfs.Cfs.Layout Sbpfs.Cfs.Lookup Sbpfs.Spec.FileTree

def findName (ents : List Ent) (name : CStr) : Option Ent := ents.find? fun e => e.name = name

/-- The entry a path leads to from the directory `base`, `ents` giving the table of each
directory; every component before the last has to name a directory. -/
def walk (ents : Nat → List Ent) : Nat → Nat → CStr → Option Ent
  | 0, _, _ => none
  | n + 1, base, path =>
    match splitFirst path with
    | none => findName (ents base) path
    | some (next, rest) =>
      match findName (ents base) next with
      | none => none
      | some e => if e.type = S_DIR then walk ents n e.fb rest else none

/-- The same walk with the directory that the entry stands in. -/
def walkAt (ents : Nat → List Ent) : Nat → Nat → CStr → Option (Nat × Ent)
  | 0, _, _ => none
  | n + 1, base, path =>
    match splitFirst path with
    | none => (findName (ents base) path).map fun e => (base, e)
    | some (next, rest) =>
      match findName (ents base) next with
      | none => none
      | some e => if e.type = S_DIR then walkAt ents n e.fb rest else none

theorem walk_eq (ents : Nat → List Ent) (n base : Nat) (path : CStr) :
    walk ents n base path = (walkAt ents n base path).map Prod.snd := by
  induction n generalizing base path with
  | zero => rfl
  | succ n ih =>
    rw [walk, walkAt]
    cases splitFirst path with
    | none =>
      dsimp only
      rw [Option.map_map]
      exact Option.map_id'.symm
    | some q =>
      dsimp only
      cases findName (ents base) q.1 with
      | none => rfl
      | some e =>
        dsimp only
        by_cases htype : e.type = S_DIR
        · rw [if_pos htype, if_pos htype, ih]
        · rw [if_neg htype, if_neg htype]
          rfl

def rootEnt : Ent := ⟨[], rootFb, S_DIR⟩

/-- The path that `c_lookup` walks. -/
def walked (path : CStr) : CStr := if path.head? = some slash then path.tail else path

/-- The entry a whole path names. -/
def resolve (ents : Nat → List Ent) (path : CStr) : Option Ent :=
  let path := if path.head? = some slash then path.tail else path
  if path = [] then some rootEnt else walk ents (path.length + 1) rootFb path

/-- What the operations look at before they change anything: the tables of the directories
and the permission bits of an object. -/
structure View where
  ents : Nat → List Ent
  may : UInt32 → Nat → UInt8 → UInt8

/-! ## Decisions

Each operation either refuses with a code or settles what it will change. -/

/-- The directory an operation on `path` works in, and the name it looks for there. -/
def target (v : View) (path : CStr) (bad notDir : Int) : Except Int (Nat × CStr) :=
  match getFilenameFromPath path with
  | none => .error bad
  | some (dir, name) =>
    match resolve v.ents dir with
    | none => .error bad
    | some e => if e.type = S_DIR then .ok (e.fb, name) else .error notDir

def mkdirPlan (v : View) (path : CStr) (uid : UInt32) : Except Int (Nat × CStr) :=
  match target v path 1 2 with
  | .error c => .error c
  | .ok (d, name) =>
    if v.may uid d W = 0 then .error 4
    else
      match findName (v.ents d) name with
      | some _ => .error 3
      | none => .ok (d, name)

/-- The directory, the name, and the file if there is one already. -/
def openPlan (v : View) (path : CStr) (uid : UInt32) : Except Int (Nat × CStr × Option Ent) :=
  match target v path (-1) (-1) with
  | .error c => .error c
  | .ok (d, name) =>
    if v.may uid d W = 0 ∧ v.may uid d R = 0 then .error (-4)
    else
      match findName (v.ents d) name with
      | none => .ok (d, name, none)
      | some e => if e.type = S_DIR then .error (-2) else .ok (d, name, some e)

/-- The directory and the entry that goes. -/
def removePlan (v : View) (path : CStr) (uid : UInt32) : Except Int (Nat × Ent) :=
  match target v path 1 1 with
  | .error c => .error c
  | .ok (d, name) =>
    if v.may uid d W = 0 then .error 4
    else
      match findName (v.ents d) name with
      | none => .error 1
      | some e => if e.type = S_DIR then .error 2 else .ok (d, e)

def rmdirPlan (v : View) (path : CStr) (uid : UInt32) : Except Int (Nat × Ent) :=
  match target v path 1 1 with
  | .error c => .error c
  | .ok (d, name) =>
    if v.may uid d W = 0 then .error 4
    else
      match findName (v.ents d) name with
      | none => .error 1
      | some e =>
        if e.type ≠ S_DIR then .error 2
        else if (v.ents e.fb).length > 2 then .error 3
        else .ok (d, e)

/-- The directories, the entry that moves and its new name. -/
def movePlan (v : View) (srcpath dstpath : CStr) (uid : UInt32) :
    Except Int (Nat × Nat × Ent × CStr) :=
  match target v srcpath 1 1 with
  | .error c => .error c
  | .ok (s, srcname) =>
    match target v dstpath 1 1 with
    | .error c => .error c
    | .ok (d, dstname) =>
      if v.may uid s W = 0 ∨ v.may uid d W = 0 then .error 4
      else
        match findName (v.ents s) srcname with
        | none => .error 1
        | some e =>
          match findName (v.ents d) dstname with
          | some _ => .error 2
          | none => .ok (s, d, e, dstname)

section Codes

variable {v : View} {path srcpath dstpath : CStr} {uid : UInt32} {code bad notDir : Int}

theorem target_error (h : target v path bad notDir = .error code) : code = bad ∨ code = notDir := by
  unfold target at h
  split at h
  · cases h
    exact .inl rfl
  split at h
  · cases h
    exact .inl rfl
  split at h
  · cases h
  · cases h
    exact .inr rfl

/-- A refusal of `c_open` has a negative code. -/
theorem openPlan_error (h : openPlan v path uid = .error code) : code < 0 := by
  unfold openPlan at h
  split at h
  · rename_i ht
    cases h
    rcases target_error ht with rfl | rfl <;> decide
  split at h
  · cases h
    decide
  split at h
  · cases h
  split at h
  · cases h
    decide
  · cases h

/-- The other refusals have a code that is not 0. -/
theorem mkdirPlan_error (h : mkdirPlan v path uid = .error code) : code ≠ 0 := by
  unfold mkdirPlan at h
  split at h
  · rename_i ht
    cases h
    rcases target_error ht with rfl | rfl <;> decide
  split at h
  · cases h
    decide
  split at h
  · cases h
    decide
  · cases h

theorem removePlan_error (h : removePlan v path uid = .error code) : code ≠ 0 := by
  unfold removePlan at h
  split at h
  · rename_i ht
    cases h
    rcases target_error ht with rfl | rfl <;> decide
  split at h
  · cases h
    decide
  split at h
  · cases h
    decide
  split at h
  · cases h
    decide
  · cases h

theorem rmdirPlan_error (h : rmdirPlan v path uid = .error code) : code ≠ 0 := by
  unfold rmdirPlan at h
  split at h
  · rename_i ht
    cases h
    rcases target_error ht with rfl | rfl <;> decide
  split at h
  · cases h
    decide
  split at h
  · cases h
    decide
  split at h
  · cases h
    decide
  split at h
  · cases h
    decide
  · cases h

theorem movePlan_error (h : movePlan v srcpath dstpath uid = .error code) : code ≠ 0 := by
  unfold movePlan at h
  split at h
  · rename_i ht
    cases h
    rcases target_error ht with rfl | rfl <;> decide
  split at h
  · rename_i ht
    cases h
    rcases target_error ht with rfl | rfl <;> decide
  split at h
  · cases h
    decide
  split at h
  · cases h
    decide
  split at h
  · cases h
    decide
  · cases h

/-- A move is granted by the `W` of both directories. -/
theorem movePlan_may {s d : Nat} {e : Ent} {name : CStr}
    (h : movePlan v srcpath dstpath uid = .ok (s, d, e, name)) :
    v.may uid s W ≠ 0 ∧ v.may uid d W ≠ 0 := by
  unfold movePlan at h
  split at h
  · cases h
  split at h
  · cases h
  split at h
  · cases h
  rename_i hmay
  split at h
  · cases h
  split at h
  · cases h
  cases h
  exact not_or.mp hmay

end Codes

theorem findName_mem {ents : List Ent} {name : CStr} {e : Ent} (h : findName ents name = some e) :
    e ∈ ents := List.mem_of_find?_eq_some h

theorem findName_name {ents : List Ent} {name : CStr} {e : Ent} (h : findName ents name = some e) :
    e.name = name := by
  have hp := List.find?_some h
  simpa using hp

theorem findName_none {ents : List Ent} {name : CStr} (h : findName ents name = none) :
    ∀ e ∈ ents, e.name ≠ name := by
  intro e he
  have hp := List.find?_eq_none.mp h e he
  simpa using hp

/-- The search by index and the search by value find the same entry. -/
theorem findName_eq (ents : List Ent) (name : CStr) :
    findName ents name = (ents.findIdx? fun e => e.name = name).bind (ents[·]?) := by
  unfold findName
  induction ents with
  | nil => rfl
  | cons e ents ih =>
    by_cases he : e.name = name
    · simp [List.findIdx?_cons, he]
    · rw [List.find?_cons_of_neg (by simpa using he), ih, List.findIdx?_cons]
      cases hi : ents.findIdx? fun e => e.name = name with
      | none => simp [he]
      | some i => simp [he]

/-- What a resolved path names is live and of the type of its entry. -/
theorem walk_typed {fs : Fs} (h : Tree fs) {n base : Nat} {path : CStr} {e : Ent}
    (hw : walk fs.ents n base path = some e) : ∃ o, fs e.fb = some o ∧ Typed e o := by
  induction n generalizing base path with
  | zero => cases hw
  | succ n ih =>
    rw [walk] at hw
    cases hs : splitFirst path with
    | none =>
      simp only [hs] at hw
      exact h.typed_ents (findName_mem hw)
    | some q =>
      obtain ⟨next, rest⟩ := q
      simp only [hs] at hw
      split at hw
      · cases hw
      · split at hw
        · exact ih hw
        · cases hw

theorem resolve_typed {fs : Fs} (h : Tree fs) {path : CStr} {e : Ent}
    (hr : resolve fs.ents path = some e) : ∃ o, fs e.fb = some o ∧ Typed e o := by
  unfold resolve at hr
  simp only at hr
  generalize hp : (if path.head? = some slash then path.tail else path) = q at hr
  split at hr
  · cases hr
    obtain ⟨uid, flags, kids, hroot⟩ := h.root
    exact ⟨_, hroot, .inl ⟨rfl, trivial⟩⟩
  · exact walk_typed h hr

theorem dir_of_typed {fs : Fs} {e : Ent} (h : ∃ o, fs e.fb = some o ∧ Typed e o)
    (ht : e.type = S_DIR) : ∃ uid flags p kids, fs e.fb = some ⟨uid, flags, .dir p kids⟩ := by
  obtain ⟨⟨uid, flags, node⟩, ho, hd | hf⟩ := h
  · cases node with
    | file flen recs => exact absurd hd.2 id
    | dir p kids => exact ⟨uid, flags, p, kids, ho⟩
  · rw [ht] at hf
    cases hf.1

theorem file_of_typed {fs : Fs} {e : Ent} (h : ∃ o, fs e.fb = some o ∧ Typed e o)
    (ht : e.type ≠ S_DIR) : ∃ uid flags len recs, fs e.fb = some ⟨uid, flags, .file len recs⟩ := by
  obtain ⟨⟨uid, flags, node⟩, ho, hd | hf⟩ := h
  · exact absurd hd.1 ht
  · cases node with
    | file len recs => exact ⟨uid, flags, len, recs, ho⟩
    | dir p kids => exact absurd trivial hf.2

/-! ## Lengths of names -/

theorem splitLast_length {path dir name : CStr} (h : splitLast path = some (dir, name)) :
    name.length < path.length := by
  induction path generalizing dir with
  | nil => cases h
  | cons c cs ih =>
    rw [splitLast] at h
    cases hs : splitLast cs with
    | some q =>
      obtain ⟨pre, name'⟩ := q
      simp only [hs, Option.some.injEq, Prod.mk.injEq] at h
      obtain ⟨rfl, rfl⟩ := h
      have hlt := ih hs
      simp only [List.length_cons]
      omega
    | none =>
      simp only [hs] at h
      split at h
      · cases h
        simp
      · cases h

theorem filename_length {path dir name : CStr} (h : getFilenameFromPath path = some (dir, name)) :
    name.length < path.length := by
  unfold getFilenameFromPath at h
  have hlt := splitLast_length h
  split at hlt
  · rw [List.length_dropLast] at hlt
    omega
  · exact hlt

theorem target_name_length {v : View} {path name : CStr} {bad notDir : Int} {d : Nat}
    (h : target v path bad notDir = .ok (d, name)) : name.length < path.length := by
  unfold target at h
  split at h
  · cases h
  · rename_i dir name' hf
    split at h
    · cases h
    · split at h
      · cases h
        exact filename_length hf
      · cases h

theorem mkdirPlan_length {v : View} {path name : CStr} {uid : UInt32} {d : Nat}
    (h : mkdirPlan v path uid = .ok (d, name)) : name.length < path.length := by
  unfold mkdirPlan at h
  split at h
  · cases h
  · rename_i d' name' ht
    split at h
    · cases h
    · split at h
      · cases h
      · cases h
        exact target_name_length ht

theorem openPlan_length {v : View} {path name : CStr} {uid : UInt32} {d : Nat} {e : Option Ent}
    (h : openPlan v path uid = .ok (d, name, e)) : name.length < path.length := by
  unfold openPlan at h
  split at h
  · cases h
  · rename_i d' name' ht
    split at h
    · cases h
    · split at h
      · cases h
        exact target_name_length ht
      · split at h
        · cases h
        · cases h
          exact target_name_length ht

end Sbpfs.Spec.Resolve
