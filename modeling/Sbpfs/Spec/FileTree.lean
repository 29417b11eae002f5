import Mathlib.Data.List.Nodup
import Mathlib.Logic.Function.Basic
import Sbpfs.Cfs.Layout
import Sbpfs.Lib.Chain

/-!
# The file tree

What the disk image stands for: objects under the number of their first sector,
directories with the entries behind `.` and `..`. `Tree` is the shape that every
directory operation has to keep; the three changes the operations make (linking a
new object, unlinking one, changing one in place) are shown to keep it.
-/
namespace Sbpfs.Spec.FileTree

open Relation Sbpfs.Cfs.Layout Sbpfs.Lib.Tree

/-- A directory entry with its name read from the pool. -/
structure Ent where
  name : CStr
  fb : Nat
  type : UInt8
  deriving DecidableEq

/-- A block record of a file. -/
structure Rec where
  num : Nat
  ip : List Nat
  deriving DecidableEq, Repr

inductive Node where
  | file (flen : Nat) (recs : List Rec)
  | dir (parent : Nat) (kids : List Ent)

structure Obj where
  uid : Nat
  flags : UInt8
  node : Node

/-- The live objects by first sector. -/
abbrev Fs := Nat → Option Obj

/-- The first sector of the root directory. -/
abbrev rootFb : Nat := 1

def Node.IsDir : Node → Prop
  | .file _ _ => False
  | .dir _ _ => True

def Fs.kids (fs : Fs) (d : Nat) : List Ent :=
  match fs d with
  | some ⟨_, _, .dir _ kids⟩ => kids
  | _ => []

/-- The whole table of a directory. -/
def table (d parent : Nat) (kids : List Ent) : List Ent :=
  ⟨dotName, d, S_DIR⟩ :: ⟨dotdotName, parent, S_DIR⟩ :: kids

def Fs.ents (fs : Fs) (d : Nat) : List Ent :=
  match fs d with
  | some ⟨_, _, .dir parent kids⟩ => table d parent kids
  | _ => []

/-- `n` is the object of an entry of `p` other than `.` and `..`. -/
def Fs.Child (fs : Fs) (p n : Nat) : Prop := ∃ e ∈ fs.kids p, e.fb = n

/-- The type an entry carries is the kind of the object it names. -/
def Typed (e : Ent) (o : Obj) : Prop :=
  (e.type = S_DIR ∧ o.node.IsDir) ∨ (e.type = S_FIL ∧ ¬ o.node.IsDir)

structure Tree (fs : Fs) : Prop where
  root : ∃ uid flags kids, fs rootFb = some ⟨uid, flags, .dir rootFb kids⟩
  up : ∀ d uid flags p kids, fs d = some ⟨uid, flags, .dir p kids⟩ → d ≠ rootFb → fs.Child p d
  nodup : ∀ d, ((table d d (fs.kids d)).map Ent.name).Nodup
  typed : ∀ d, ∀ e ∈ fs.kids d, ∃ o, fs e.fb = some o ∧ Typed e o
  unique : ∀ p q, ∀ e ∈ fs.kids p, ∀ e' ∈ fs.kids q, e.fb = e'.fb → p = q ∧ e = e'
  top : ∀ p, ¬ fs.Child p rootFb
  reach : ∀ n o, fs n = some o → ReflTransGen fs.Child rootFb n

variable {fs : Fs}

@[simp] theorem isDir_dir (p : Nat) (kids : List Ent) : (Node.dir p kids).IsDir := trivial
@[simp] theorem isDir_file (flen : Nat) (recs : List Rec) : ¬ (Node.file flen recs).IsDir := id

theorem kids_of_dir {d uid p : Nat} {flags : UInt8} {kids : List Ent}
    (h : fs d = some ⟨uid, flags, .dir p kids⟩) : fs.kids d = kids := by
  simp only [Fs.kids, h]

theorem ents_of_dir {d uid p : Nat} {flags : UInt8} {kids : List Ent}
    (h : fs d = some ⟨uid, flags, .dir p kids⟩) : fs.ents d = table d p kids := by
  simp only [Fs.ents, h]

/-- A directory has kids only where there is a directory. -/
theorem dir_of_kid {d : Nat} {e : Ent} (h : e ∈ fs.kids d) :
    ∃ uid flags p kids, fs d = some ⟨uid, flags, .dir p kids⟩ ∧ e ∈ kids := by
  unfold Fs.kids at h
  split at h
  · rename_i uid flags p kids hd
    exact ⟨uid, flags, p, kids, hd, h⟩
  · cases h

theorem kids_update_ne {d fb : Nat} {o : Option Obj} (h : d ≠ fb) :
    Fs.kids (Function.update fs fb o) d = fs.kids d := by
  simp only [Fs.kids, Function.update_of_ne h]

theorem nodup_dots : [dotName, dotdotName].Nodup := by decide

theorem names_nodup_table {d d' p : Nat} {kids : List Ent}
    (h : ((table d d' kids).map Ent.name).Nodup) : ((table d p kids).map Ent.name).Nodup := h

namespace Tree

/-- Every entry of a table, `.` and `..` included, names a live object of its type. -/
theorem typed_ents (h : Tree fs) {d : Nat} {e : Ent} (he : e ∈ fs.ents d) :
    ∃ o, fs e.fb = some o ∧ Typed e o := by
  unfold Fs.ents at he
  split at he
  · rename_i uid flags p kids hd
    rcases List.mem_cons.mp he with rfl | he
    · exact ⟨_, hd, .inl ⟨rfl, trivial⟩⟩
    rcases List.mem_cons.mp he with rfl | he
    · by_cases hroot : d = rootFb
      · obtain ⟨uid', flags', kids', hr⟩ := h.root
        subst hroot
        rw [hr] at hd
        cases hd
        exact ⟨_, hr, .inl ⟨rfl, trivial⟩⟩
      · obtain ⟨e', hmem, _⟩ := h.up d uid flags p kids hd hroot
        obtain ⟨uid', flags', p', kids', hp, _⟩ := dir_of_kid hmem
        exact ⟨_, hp, .inl ⟨rfl, trivial⟩⟩
    · exact h.typed d e (by rw [kids_of_dir hd]; exact he)
  · cases he

/-- No object is its own child. -/
theorem child_ne (h : Tree fs) {d n : Nat} (hc : fs.Child d n) : n ≠ d := by
  rintro rfl
  obtain ⟨e, hmem, he⟩ := hc
  obtain ⟨o, ho, _⟩ := h.typed n e hmem
  rw [he] at ho
  refine acyclic (fun p q m ⟨e, hp, hpe⟩ ⟨e', hq, hqe⟩ => ?_) h.top (h.reach n o ho)
    (.single ⟨e, hmem, he⟩)
  exact (h.unique p q e hp e' hq (hpe.trans hqe.symm)).1

end Tree

/-! ## Changes of the tree -/

/-- A new object `o` below the directory `d`, whose object is `od`. -/
def link (fs : Fs) (d : Nat) (od : Obj) (p : Nat) (kids : List Ent) (e : Ent) (o : Obj) : Fs :=
  Function.update (Function.update fs e.fb (some o)) d
    (some { od with node := .dir p (kids ++ [e]) })

/-- Entry `i` behind `.` and `..` of the directory `d` taken away with its object `fb`. -/
def unlink (fs : Fs) (d : Nat) (od : Obj) (p : Nat) (kids : List Ent) (i fb : Nat) : Fs :=
  Function.update (Function.update fs fb none) d
    (some { od with node := .dir p (kids.eraseIdx i) })

/-- The two objects are files, or directories with the same entries. -/
def SameShape : Node → Node → Prop
  | .file _ _, .file _ _ => True
  | .dir p kids, .dir p' kids' => p = p' ∧ kids = kids'
  | _, _ => False

section Link

variable {d p : Nat} {od o : Obj} {kids : List Ent} {e : Ent}

/-- What a new entry and its object have to look like. -/
structure Linkable (fs : Fs) (d : Nat) (od : Obj) (p : Nat) (kids : List Ent) (e : Ent)
    (o : Obj) : Prop where
  dir : fs d = some od
  node : od.node = .dir p kids
  fresh : fs e.fb = none
  name : ∀ e' ∈ table d p kids, e'.name ≠ e.name
  typed : Typed e o
  empty : ∀ p' kids', o.node = .dir p' kids' → p' = d ∧ kids' = []

theorem Linkable.kids_eq (hl : Linkable fs d od p kids e o) : fs.kids d = kids := by
  obtain ⟨uid, flags, node⟩ := od
  cases hl.node
  exact kids_of_dir hl.dir

theorem Linkable.ne (hl : Linkable fs d od p kids e o) : e.fb ≠ d := by
  intro h
  have hf := hl.fresh
  rw [h, hl.dir] at hf
  cases hf

theorem Linkable.link_self (hl : Linkable fs d od p kids e o) :
    link fs d od p kids e o e.fb = some o := by
  simp only [link, Function.update_of_ne hl.ne, Function.update_self]

theorem link_dir (fs : Fs) (d : Nat) (od : Obj) (p : Nat) (kids : List Ent) (e : Ent) (o : Obj) :
    link fs d od p kids e o d = some { od with node := .dir p (kids ++ [e]) } := by
  simp only [link, Function.update_self]

theorem link_ne {n : Nat} (hd : n ≠ d) (hn : n ≠ e.fb) : link fs d od p kids e o n = fs n := by
  simp only [link, Function.update_of_ne hd, Function.update_of_ne hn]

theorem Linkable.no_kids (hl : Linkable fs d od p kids e o) : fs.kids e.fb = [] := by
  simp only [Fs.kids, hl.fresh]

theorem Linkable.mem_kids (hl : Linkable fs d od p kids e o) {q : Nat} {e' : Ent} :
    e' ∈ (link fs d od p kids e o).kids q ↔ e' ∈ fs.kids q ∨ (q = d ∧ e' = e) := by
  by_cases hq : q = d
  · subst hq
    rw [kids_of_dir (link_dir ..), hl.kids_eq]
    simp
  · by_cases hqe : q = e.fb
    · subst hqe
      obtain ⟨uid, flags, node⟩ := o
      rw [hl.no_kids]
      cases node with
      | file flen recs => simp [Fs.kids, hl.link_self, hq]
      | dir p' kids' =>
        obtain ⟨rfl, rfl⟩ := hl.empty p' kids' rfl
        simp [kids_of_dir hl.link_self, hq]
    · rw [link, kids_update_ne hq, kids_update_ne hqe]
      simp [hq]

theorem Linkable.child_mono (hl : Linkable fs d od p kids e o) {q n : Nat} (h : fs.Child q n) :
    (link fs d od p kids e o).Child q n := by
  obtain ⟨e', hmem, he⟩ := h
  exact ⟨e', hl.mem_kids.mpr (.inl hmem), he⟩

theorem Linkable.child_new (hl : Linkable fs d od p kids e o) :
    (link fs d od p kids e o).Child d e.fb :=
  ⟨e, hl.mem_kids.mpr (.inr ⟨rfl, rfl⟩), rfl⟩

/-- An object that was there is still there, of the same kind. -/
theorem Linkable.link_some (hl : Linkable fs d od p kids e o) {n : Nat} {o₁ : Obj}
    (h : fs n = some o₁) :
    ∃ o₂, link fs d od p kids e o n = some o₂ ∧ (o₂.node.IsDir ↔ o₁.node.IsDir) := by
  have hne : n ≠ e.fb := by
    rintro rfl
    rw [hl.fresh] at h
    cases h
  by_cases hd : n = d
  · subst hd
    rw [hl.dir] at h
    cases h
    refine ⟨_, (link_dir ..), ?_⟩
    rw [hl.node]
    rfl
  · exact ⟨o₁, by rw [link_ne hd hne, h], Iff.rfl⟩

theorem Typed.congr {e : Ent} {o o' : Obj} (h : Typed e o) (hk : o'.node.IsDir ↔ o.node.IsDir) :
    Typed e o' := by
  unfold Typed at h ⊢
  rwa [hk]

theorem Tree.link (h : Tree fs) (hl : Linkable fs d od p kids e o) :
    Tree (link fs d od p kids e o) := by
  have hold : ∀ q, ∀ e' ∈ fs.kids q, e'.fb ≠ e.fb := by
    intro q e' hmem he
    obtain ⟨o', ho', _⟩ := h.typed q e' hmem
    rw [he, hl.fresh] at ho'
    cases ho'
  refine ⟨?_, ?_, ?_, ?_, ?_, ?_, ?_⟩
  · obtain ⟨uid, flags, kids', hr⟩ := h.root
    by_cases hd : rootFb = d
    · subst hd
      obtain ⟨uid', flags', node⟩ := od
      have hr' := hl.dir
      rw [hr] at hr'
      cases hr'
      cases hl.node
      exact ⟨_, _, _, (link_dir ..)⟩
    · refine ⟨uid, flags, kids', ?_⟩
      rw [link_ne hd, hr]
      intro he
      have hf := hl.fresh
      rw [← he, hr] at hf
      cases hf
  · intro d' uid flags p' kids' hd' hroot
    by_cases hd : d' = d
    · subst hd
      rw [(link_dir ..)] at hd'
      cases hd'
      obtain ⟨uid', flags', node⟩ := od
      cases hl.node
      exact hl.child_mono (h.up d' _ _ p kids hl.dir hroot)
    · by_cases he : d' = e.fb
      · subst he
        rw [hl.link_self] at hd'
        cases hd'
        obtain ⟨rfl, rfl⟩ := hl.empty _ _ rfl
        exact hl.child_new
      · rw [link_ne hd he] at hd'
        exact hl.child_mono (h.up d' _ _ p' kids' hd' hroot)
  · intro d'
    by_cases hd : d' = d
    · subst hd
      rw [kids_of_dir (link_dir ..)]
      have hnodup := h.nodup d'
      rw [hl.kids_eq] at hnodup
      change ((table d' d' kids ++ [e]).map Ent.name).Nodup
      rw [List.map_append, List.nodup_append]
      refine ⟨hnodup, by simp, ?_⟩
      intro a ha b hb
      obtain ⟨e', he', rfl⟩ := List.mem_map.mp ha
      cases List.mem_singleton.mp hb
      rcases List.mem_cons.mp he' with rfl | he'
      · exact hl.name _ (by simp [table])
      rcases List.mem_cons.mp he' with rfl | he'
      · exact hl.name ⟨dotdotName, p, S_DIR⟩ (by simp [table])
      · exact hl.name e' (by simp [table, he'])
    · by_cases he : d' = e.fb
      · subst he
        have hkids : (FileTree.link fs d od p kids e o).kids e.fb = [] := by
          refine List.eq_nil_iff_forall_not_mem.mpr fun e' hmem => ?_
          rcases hl.mem_kids.mp hmem with hm | ⟨hd', _⟩
          · rw [hl.no_kids] at hm
            cases hm
          · exact hd hd'
        rw [hkids]
        exact nodup_dots
      · have hkids : (FileTree.link fs d od p kids e o).kids d' = fs.kids d' := by
          rw [FileTree.link, kids_update_ne hd, kids_update_ne he]
        rw [hkids]
        exact h.nodup d'
  · intro d' e' hmem
    rcases hl.mem_kids.mp hmem with hm | ⟨rfl, rfl⟩
    · obtain ⟨o', ho', ht⟩ := h.typed d' e' hm
      obtain ⟨o₂, ho₂, hk⟩ := hl.link_some ho'
      exact ⟨o₂, ho₂, ht.congr hk⟩
    · exact ⟨o, hl.link_self, hl.typed⟩
  · intro q q' e₁ h₁ e₂ h₂ hfb
    rcases hl.mem_kids.mp h₁ with hm₁ | ⟨rfl, rfl⟩
    · rcases hl.mem_kids.mp h₂ with hm₂ | ⟨rfl, rfl⟩
      · exact h.unique q q' e₁ hm₁ e₂ hm₂ hfb
      · exact absurd hfb (hold q e₁ hm₁)
    · rcases hl.mem_kids.mp h₂ with hm₂ | ⟨rfl, rfl⟩
      · exact absurd hfb.symm (hold q' e₂ hm₂)
      · exact ⟨rfl, rfl⟩
  · rintro q ⟨e', hmem, he⟩
    rcases hl.mem_kids.mp hmem with hm | ⟨rfl, rfl⟩
    · exact h.top q ⟨e', hm, he⟩
    · obtain ⟨uid, flags, kids', hr⟩ := h.root
      have hf := hl.fresh
      rw [he, hr] at hf
      cases hf
  · intro n o' hn
    have hmono : ∀ {m : Nat}, ReflTransGen fs.Child rootFb m →
        ReflTransGen (FileTree.link fs d od p kids e o).Child rootFb m :=
      fun hm => ReflTransGen.mono (fun _ _ hc => hl.child_mono hc) _ _ hm
    by_cases he : n = e.fb
    · subst he
      exact (hmono (h.reach d od hl.dir)).tail hl.child_new
    · by_cases hd : n = d
      · subst hd
        exact hmono (h.reach n od hl.dir)
      · rw [link_ne hd he] at hn
        exact hmono (h.reach n o' hn)

end Link

section Unlink

variable {d p i : Nat} {od : Obj} {kids : List Ent} {e : Ent}

/-- What an entry has to look like that goes away with its object. -/
structure Unlinkable (fs : Fs) (d : Nat) (od : Obj) (p : Nat) (kids : List Ent) (i : Nat)
    (e : Ent) : Prop where
  dir : fs d = some od
  node : od.node = .dir p kids
  entry : kids[i]? = some e
  leaf : fs.kids e.fb = []

theorem Unlinkable.kids_eq (hu : Unlinkable fs d od p kids i e) : fs.kids d = kids := by
  obtain ⟨uid, flags, node⟩ := od
  cases hu.node
  exact kids_of_dir hu.dir

theorem Unlinkable.mem (hu : Unlinkable fs d od p kids i e) : e ∈ fs.kids d := by
  rw [hu.kids_eq]
  exact List.mem_of_getElem? hu.entry

theorem Unlinkable.child (hu : Unlinkable fs d od p kids i e) : fs.Child d e.fb :=
  ⟨e, hu.mem, rfl⟩

theorem Unlinkable.ne (h : Tree fs) (hu : Unlinkable fs d od p kids i e) : e.fb ≠ d :=
  h.child_ne hu.child

theorem Unlinkable.unlink_self (h : Tree fs) (hu : Unlinkable fs d od p kids i e) :
    unlink fs d od p kids i e.fb e.fb = none := by
  simp only [unlink, Function.update_of_ne (hu.ne h), Function.update_self]

theorem unlink_dir (fs : Fs) (d : Nat) (od : Obj) (p : Nat) (kids : List Ent)
    (i fb : Nat) :
    unlink fs d od p kids i fb d = some { od with node := .dir p (kids.eraseIdx i) } := by
  simp only [unlink, Function.update_self]

theorem unlink_ne {n fb : Nat} (hd : n ≠ d) (hn : n ≠ fb) :
    unlink fs d od p kids i fb n = fs n := by
  simp only [unlink, Function.update_of_ne hd, Function.update_of_ne hn]

theorem Unlinkable.mem_kids (h : Tree fs) (hu : Unlinkable fs d od p kids i e) {q : Nat}
    {e' : Ent} :
    e' ∈ (unlink fs d od p kids i e.fb).kids q ↔ e' ∈ fs.kids q ∧ e' ≠ e := by
  by_cases hq : q = d
  · subst hq
    obtain ⟨hi, he⟩ := List.getElem?_eq_some_iff.mp hu.entry
    have hnodup : kids.Nodup := by
      have hn := h.nodup q
      rw [hu.kids_eq] at hn
      exact (List.Nodup.of_map _ hn).of_cons.of_cons
    rw [kids_of_dir (unlink_dir fs q od p kids i e.fb), hu.kids_eq,
      ← hnodup.erase_getElem i hi, hnodup.mem_erase_iff, he, and_comm]
  · have hother : e' ∈ fs.kids q → e' ≠ e := by
      rintro hmem rfl
      exact hq (h.unique q d e' hmem e' hu.mem rfl).1
    by_cases hqe : q = e.fb
    · subst hqe
      have hnone : (unlink fs d od p kids i e.fb).kids e.fb = [] := by
        simp only [Fs.kids, hu.unlink_self h]
      rw [hnone, hu.leaf]
      simp
    · rw [unlink, kids_update_ne hq, kids_update_ne hqe]
      exact ⟨fun hm => ⟨hm, hother hm⟩, fun hm => hm.1⟩

theorem Unlinkable.child_keep (h : Tree fs) (hu : Unlinkable fs d od p kids i e) {q n : Nat}
    (hc : fs.Child q n) (hn : n ≠ e.fb) : (unlink fs d od p kids i e.fb).Child q n := by
  obtain ⟨e', hmem, rfl⟩ := hc
  exact ⟨e', (hu.mem_kids h).mpr ⟨hmem, fun he => hn (by rw [he])⟩, rfl⟩

/-- The other objects stay, of the same kind. -/
theorem Unlinkable.unlink_some (hu : Unlinkable fs d od p kids i e) {n : Nat}
    {o₁ : Obj} (h₁ : fs n = some o₁) (hn : n ≠ e.fb) :
    ∃ o₂, unlink fs d od p kids i e.fb n = some o₂ ∧ (o₂.node.IsDir ↔ o₁.node.IsDir) := by
  by_cases hd : n = d
  · subst hd
    rw [hu.dir] at h₁
    cases h₁
    refine ⟨_, unlink_dir .., ?_⟩
    rw [hu.node]
    rfl
  · exact ⟨o₁, by rw [unlink_ne hd hn, h₁], Iff.rfl⟩

theorem Tree.unlink (h : Tree fs) (hu : Unlinkable fs d od p kids i e) :
    Tree (unlink fs d od p kids i e.fb) := by
  have hroot : e.fb ≠ rootFb := by
    intro he
    exact h.top d (he ▸ hu.child)
  have hkeep : ∀ {n o'}, FileTree.unlink fs d od p kids i e.fb n = some o' →
      ∃ o, fs n = some o ∧ n ≠ e.fb := by
    intro n o' hn
    have hne : n ≠ e.fb := by
      rintro rfl
      rw [hu.unlink_self h] at hn
      cases hn
    by_cases hd : n = d
    · subst hd
      exact ⟨od, hu.dir, hne⟩
    · rw [unlink_ne hd hne] at hn
      exact ⟨o', hn, hne⟩
  refine ⟨?_, ?_, ?_, ?_, ?_, ?_, ?_⟩
  · obtain ⟨uid, flags, kids', hr⟩ := h.root
    by_cases hd : rootFb = d
    · subst hd
      have hr' := hu.dir
      rw [hr] at hr'
      cases hr'
      cases hu.node
      exact ⟨_, _, _, unlink_dir ..⟩
    · exact ⟨uid, flags, kids', by rw [unlink_ne hd (Ne.symm hroot), hr]⟩
  · intro d' uid flags p' kids' hd' hne
    obtain ⟨o, ho, hde⟩ := hkeep hd'
    by_cases hd : d' = d
    · subst hd
      rw [unlink_dir] at hd'
      cases hd'
      obtain ⟨uid', flags', node⟩ := od
      cases hu.node
      exact hu.child_keep h (h.up d' _ _ p kids hu.dir hne) hde
    · rw [unlink_ne hd hde] at hd'
      exact hu.child_keep h (h.up d' _ _ p' kids' hd' hne) hde
  · intro d'
    by_cases hd : d' = d
    · subst hd
      rw [kids_of_dir (unlink_dir ..)]
      have hn := h.nodup d'
      rw [hu.kids_eq] at hn
      exact hn.sublist (((List.eraseIdx_sublist kids i).cons_cons _).cons_cons _ |>.map _)
    · by_cases he : d' = e.fb
      · subst he
        have hnone : (FileTree.unlink fs d od p kids i e.fb).kids e.fb = [] := by
          simp only [Fs.kids, hu.unlink_self h]
        rw [hnone]
        exact nodup_dots
      · have hsame : (FileTree.unlink fs d od p kids i e.fb).kids d' = fs.kids d' := by
          rw [FileTree.unlink, kids_update_ne hd, kids_update_ne he]
        rw [hsame]
        exact h.nodup d'
  · intro d' e' hmem
    obtain ⟨hm, hne⟩ := (hu.mem_kids h).mp hmem
    obtain ⟨o', ho', ht⟩ := h.typed d' e' hm
    have hfb : e'.fb ≠ e.fb := fun he => hne (h.unique d' d e' hm e hu.mem he).2
    obtain ⟨o₂, ho₂, hk⟩ := hu.unlink_some ho' hfb
    exact ⟨o₂, ho₂, ht.congr hk⟩
  · intro q q' e₁ h₁ e₂ h₂ hfb
    exact h.unique q q' e₁ ((hu.mem_kids h).mp h₁).1 e₂ ((hu.mem_kids h).mp h₂).1 hfb
  · rintro q ⟨e', hmem, he⟩
    exact h.top q ⟨e', ((hu.mem_kids h).mp hmem).1, he⟩
  · intro n o' hn
    obtain ⟨o, ho, hne⟩ := hkeep hn
    refine reach_of_leaf_removed ?_ (fun q m hc hm => hu.child_keep h hc hm) (h.reach n o ho) hne
    rintro m ⟨e', hmem, _⟩
    rw [hu.leaf] at hmem
    cases hmem

end Unlink

section Touch

variable {fb : Nat} {o o' : Obj}

theorem SameShape.refl (n : Node) : SameShape n n := by
  cases n with
  | file flen recs => exact trivial
  | dir p kids => exact ⟨rfl, rfl⟩

theorem SameShape.isDir {n n' : Node} (h : SameShape n n') : n'.IsDir ↔ n.IsDir := by
  cases n <;> cases n' <;> simp_all [SameShape]

theorem kids_touch (ho : fs fb = some o) (hs : SameShape o.node o'.node) (q : Nat) :
    Fs.kids (Function.update fs fb (some o')) q = fs.kids q := by
  by_cases hq : q = fb
  · subst hq
    obtain ⟨uid, flags, node⟩ := o
    obtain ⟨uid', flags', node'⟩ := o'
    cases node with
    | file flen recs =>
      cases node' with
      | file flen' recs' => simp only [Fs.kids, ho, Function.update_self]
      | dir p' kids' => cases hs
    | dir p kids =>
      cases node' with
      | file flen' recs' => cases hs
      | dir p' kids' =>
        obtain ⟨rfl, rfl⟩ := hs
        simp only [Fs.kids, ho, Function.update_self]
  · exact kids_update_ne hq

/-- A change of an object that leaves directories their entries keeps the tree. -/
theorem Tree.touch (h : Tree fs) (ho : fs fb = some o) (hs : SameShape o.node o'.node) :
    Tree (Function.update fs fb (some o')) := by
  have hchild : Fs.Child (Function.update fs fb (some o')) = fs.Child := by
    funext q n
    simp only [Fs.Child, kids_touch ho hs]
  have hsome : ∀ {n o₁}, fs n = some o₁ → ∃ o₂,
      Function.update fs fb (some o') n = some o₂ ∧ (o₂.node.IsDir ↔ o₁.node.IsDir) := by
    intro n o₁ h₁
    by_cases hn : n = fb
    · subst hn
      rw [ho] at h₁
      cases h₁
      exact ⟨o', Function.update_self .., hs.isDir⟩
    · exact ⟨o₁, by rw [Function.update_of_ne hn, h₁], Iff.rfl⟩
  refine ⟨?_, ?_, ?_, ?_, ?_, ?_, ?_⟩
  · obtain ⟨uid, flags, kids', hr⟩ := h.root
    by_cases hf : rootFb = fb
    · subst hf
      rw [hr] at ho
      cases ho
      obtain ⟨uid', flags', node'⟩ := o'
      cases node' with
      | file flen' recs' => cases hs
      | dir p' kids' =>
        obtain ⟨rfl, rfl⟩ := hs
        exact ⟨_, _, _, Function.update_self ..⟩
    · exact ⟨uid, flags, kids', by rw [Function.update_of_ne hf, hr]⟩
  · intro d uid flags p kids hd hroot
    rw [hchild]
    by_cases hf : d = fb
    · subst hf
      rw [Function.update_self] at hd
      cases hd
      obtain ⟨uid', flags', node'⟩ := o
      cases node' with
      | file flen' recs' => cases hs
      | dir p' kids' =>
        obtain ⟨rfl, rfl⟩ := hs
        exact h.up d _ _ _ _ ho hroot
    · rw [Function.update_of_ne hf] at hd
      exact h.up d uid flags p kids hd hroot
  · intro d
    rw [kids_touch ho hs]
    exact h.nodup d
  · intro d e he
    rw [kids_touch ho hs] at he
    obtain ⟨o₁, h₁, ht⟩ := h.typed d e he
    obtain ⟨o₂, h₂, hk⟩ := hsome h₁
    exact ⟨o₂, h₂, ht.congr hk⟩
  · intro p q e he e' he' hfb
    rw [kids_touch ho hs] at he he'
    exact h.unique p q e he e' he' hfb
  · rw [hchild]
    exact h.top
  · intro n o₁ hn
    rw [hchild]
    by_cases hf : n = fb
    · subst hf
      exact h.reach n o ho
    · rw [Function.update_of_ne hf] at hn
      exact h.reach n o₁ hn

end Touch

end Sbpfs.Spec.FileTree
