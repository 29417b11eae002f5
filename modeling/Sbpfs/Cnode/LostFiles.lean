import Mathlib.Algebra.Group.Even
import Sbpfs.Cfs.BlockListing
import Sbpfs.Cfs.ChainLaws
import Sbpfs.Cnode.RequestFields

/-!
# Lost files

`isFileLost` looks for a block that no registered data node has reported. It asks the library for
the blocks of the path first, whatever the path names.
-/
namespace Sbpfs.Cnode.LostFiles

open Sbpfs.Lib.Program Sbpfs.Lib.Raise Sbpfs.Lib.Run
open Sbpfs.Cfs.Layout (CStr CM World Dtree AllocSite malloc S_DIR S_FIL)
open Sbpfs.Cfs.Rules Sbpfs.Cfs.Image Sbpfs.Cfs.DiskStore Sbpfs.Cfs.LookupSpec Sbpfs.Cfs.DiskView
open Sbpfs.Cfs.Query Sbpfs.Cfs.Calls Sbpfs.Cfs.RunSpec Sbpfs.Cfs.Invariants
open Sbpfs.Cfs.EntrySpec Sbpfs.Cfs.BlockNumbers Sbpfs.Cfs.BlockListing
open Sbpfs.Cfs.Mkfs (blank)
open Sbpfs.Spec.FileTree Sbpfs.Libc.Request
open Sbpfs.Cnode.Libcfs Sbpfs.Cnode.DTree Sbpfs.Cnode.ReplyLaws Sbpfs.Cnode.RequestFields

/-- A registered data node has reported the block. -/
def Held (n : CtrlNode) (block : Nat) : Prop :=
  ∃ users, n.blockmap.lookup block = some users ∧ ∃ user ∈ users, (n.ipmap.lookup user).isSome

/-- The blocks of the path are counted and listed alike, those of a regular file in its order, and
the file is said to be lost when one of them is not held. -/
structure Lists (path : CStr) (n : CtrlNode) : Prop where
  count : ∃ k w₁ l w₂, cGetblocknum path n.world = .ok (k, w₁) ∧
    cGetblocks path k.toNat w₁ = .ok ((k, l), w₂) ∧ l.length = k.toNat ∧
    ∀ fb, Names n.world.dt path S_FIL fb → l = blockNums n.world.dt fb
  lost : ∃ b n', isFileLost (bytesOf path) n = .ok (.ok b, n') ∧
    (b = some true ↔ ∃ fb, Names n.world.dt path S_FIL fb ∧
      ∃ block ∈ blockNums n.world.dt fb, ¬ Held n block)

theorem isBlockExists_iff (n : CtrlNode) (block : Nat) :
    isBlockExists n block = true ↔ Held n block := by
  unfold isBlockExists Held
  cases n.blockmap.lookup block with
  | none => simp
  | some users => simp

theorem any_lost_iff (n : CtrlNode) (l : List Nat) :
    (l.any fun block => !isBlockExists n block) = true ↔ ∃ block ∈ l, ¬ Held n block := by
  rw [List.any_eq_true]
  refine exists_congr fun block => and_congr_right fun _ => ?_
  rw [← isBlockExists_iff, Bool.not_eq_true', Bool.not_eq_true]

/-! ## The calls of the library -/

section Calls

variable {n : CtrlNode} {path : CStr}

/-- What `isFileLost` says about the numbers it gets. -/
def verdict (n : CtrlNode) (l : Option (List Nat)) : Option Bool :=
  l.map fun l => l.any fun block => !isBlockExists n block

theorem malloc_run {w : World} (hmem : Ample w.env) (site : AllocSite) (size : Nat) :
    ∃ b, malloc site size w = .ok (some b, { w with env := w.env.pop site }) := by
  obtain ⟨junk, hjunk⟩ := Option.ne_none_iff_exists'.mp (hmem.heap site 0)
  refine ⟨⟨size, junk⟩, ?_⟩
  show Except.ok ((w.env.heap site 0).map _, _) = _
  rw [hjunk]
  rfl

theorem inC_run {α : Type} {m : CM α} {a : α} {w : World} (h : m n.world = .ok (a, w)) :
    inC m n = .ok (.ok a, { n with world := w }) := by
  unfold inC onPart
  rw [h]

/-- With memory for the copy of the path the library is called. -/
theorem withPath_run {α : Type} (hmem : Ample n.world.env) (null : α) (c : LibCall) (m : CM α) :
    withPath path null c m n
      = inC m { n with
          world := { n.world with env := n.world.env.pop .path }
          calls := c :: n.calls } := by
  obtain ⟨b, hb⟩ := malloc_run hmem .path (path.length + 1)
  unfold withPath
  rw [bind_step (inC_run hb)]
  rfl

/-- The world in which the library is asked for the blocks. -/
def asked (n : CtrlNode) : World := { n.world with env := n.world.env.pop .path }

theorem asked_same (n : CtrlNode) : Same n.world (asked n) := Same.pop n.world .path

/-- With an answer of the library `isFileLost` returns. -/
theorem isFileLost_run (hmem : Ample n.world.env) {l : Option (List Nat)} {w : World}
    (h : getblocks path (asked n) = .ok (l, w)) :
    ∃ n', isFileLost (bytesOf path) n = .ok (.ok (verdict n l), n') := by
  have hwrap : wrapCGetblocks (bytesOf path) n = .ok (.ok l, { n with
      world := w
      calls := .getblocks path :: n.calls }) := by
    unfold wrapCGetblocks
    rw [bind_step (argS_some (cstrOf_bytesOf path) n), withPath_run hmem]
    exact inC_run h
  refine ⟨{ n with world := w, calls := .getblocks path :: n.calls }, ?_⟩
  unfold isFileLost
  rw [bind_step hwrap]
  cases l <;> rfl

end Calls

/-! ## What a path may name -/

section Stored

variable {fs : Fs} {chain : Nat → List Nat} {w : World} {n : CtrlNode} {path : CStr} {d : Nat}
  {e : Ent} {o : Obj}

theorem getblocks_none (hst : Store w.dt fs chain) (ht : Tree fs) (hmem : Ample w.env)
    (hq : named fs.ents path = none) : ∃ w', getblocks path w = .ok (none, w') := by
  obtain ⟨w', hnum, -⟩ := getblocks_missing hst ht hmem hq 0
  exact ⟨w', bind_run hnum _⟩

theorem replyRoom_run (hmem : Ample w.env) (k size : Nat) :
    ∃ w', replyRoom k size w = .ok (k, w') ∧ Same w w' := by
  obtain ⟨b, hb⟩ := malloc_run hmem .reply (k * size)
  exact ⟨_, bind_run hb _, Same.pop w .reply⟩

section Named

variable (hst : Store w.dt fs chain) (ht : Tree fs) (hmem : Ample w.env)
  (hq : named fs.ents path = some (d, e)) (ho : fs e.fb = some o)

include hst ht hmem hq ho

/-- With records to list both calls are made. -/
theorem getblocks_eq (hpos : 32 ≤ tableSize o e.fb) :
    ∃ w', Same w w' ∧ getblocks path w = (do
      let (ret, l) ← cGetblocks path (tableSize o e.fb / 32)
      if ret ≤ 0 then return none else return some (l.take ret.toNat)) w' := by
  obtain ⟨w₁, hnum, hsame₁⟩ := cGetblocknum_named hst ht hmem hq ho
  obtain ⟨w₂, hroom, hsame₂⟩ := replyRoom_run (hmem.later hsame₁.later) (tableSize o e.fb / 32) 8
  refine ⟨w₂, hsame₁.trans hsame₂, ?_⟩
  unfold getblocks
  rw [bind_run hnum, if_neg (by omega), if_neg (by omega), Int.toNat_natCast, bind_run hroom]

theorem getblocks_some (hdiv : tableSize o e.fb % 32 = 0) :
    ∃ w', getblocks path w = .ok (some (blockNums w.dt e.fb), w') := by
  have hlen := blockNums_length hst ho
  by_cases hpos : 32 ≤ tableSize o e.fb
  · obtain ⟨w₁, hsame, heq⟩ := getblocks_eq hst ht hmem hq ho hpos
    have hst₁ : Store w₁.dt fs chain := by rw [hsame.dt]; exact hst
    obtain ⟨w₂, hlist, -⟩ := cGetblocks_named hst₁ ht (hmem.later hsame.later) hq ho hdiv
      (Nat.le_refl _)
    rw [hsame.dt] at hlist
    refine ⟨w₂, ?_⟩
    rw [heq, bind_run hlist]
    dsimp only
    rw [if_neg (by omega), Int.toNat_natCast, List.take_of_length_le (Nat.le_of_eq hlen)]
    rfl
  · obtain ⟨w₁, hnum, -⟩ := cGetblocknum_named hst ht hmem hq ho
    have hzero : tableSize o e.fb / 32 = 0 := by omega
    have hnil : blockNums w.dt e.fb = [] := List.length_eq_zero_iff.mp (hlen.trans hzero)
    refine ⟨w₁, ?_⟩
    unfold getblocks
    rw [bind_run hnum, hzero, hnil]
    rfl

end Named

/-- A path that names nothing has no blocks, and no file is lost. -/
theorem lists_missing (hst : Store n.world.dt fs chain) (ht : Tree fs) (hmem : Ample n.world.env)
    (hq : named fs.ents path = none) : Lists path n := by
  constructor
  · obtain ⟨w₁, hnum, -, hsame⟩ := getblocks_missing hst ht hmem hq 0
    have hst₁ : Store w₁.dt fs chain := by rw [hsame.dt]; exact hst
    obtain ⟨w₂, -, hlist, -⟩ := getblocks_missing hst₁ ht (hmem.later hsame.later) hq 0
    exact ⟨-1, w₁, [], w₂, hnum, hlist, rfl, fun fb h => absurd h (not_names hst ht hq _ fb)⟩
  · have hst' : Store (asked n).dt fs chain := hst
    obtain ⟨w', hrun⟩ := getblocks_none hst' ht (hmem.later (asked_same n).later) hq
    obtain ⟨n', hlost⟩ := isFileLost_run hmem hrun
    refine ⟨none, n', hlost, ?_⟩
    constructor
    · intro h
      cases h
    · intro h
      obtain ⟨fb, h, -⟩ := h
      exact absurd h (not_names hst ht hq _ fb)

/-- Where the table ends with a record, all depends on what is said of its numbers. -/
theorem lists_whole (hst : Store n.world.dt fs chain) (ht : Tree fs) (hmem : Ample n.world.env)
    (hq : named fs.ents path = some (d, e)) (ho : fs e.fb = some o)
    (hdiv : tableSize o e.fb % 32 = 0) :
    Lists path n ↔ ((∃ block ∈ blockNums n.world.dt e.fb, ¬ Held n block) →
      e.type = S_FIL) := by
  have hnames := names_iff hst ht hq S_FIL
  have hst' : Store (asked n).dt fs chain := hst
  obtain ⟨w', hrun⟩ := getblocks_some hst' ht (hmem.later (asked_same n).later) hq ho hdiv
  obtain ⟨n', hlost⟩ := isFileLost_run hmem hrun
  have hverdict : verdict n (some (blockNums (asked n).dt e.fb)) = some true ↔
      ∃ block ∈ blockNums n.world.dt e.fb, ¬ Held n block := by
    show some _ = some true ↔ _
    rw [Option.some.injEq]
    exact any_lost_iff n _
  constructor
  · intro h hex
    obtain ⟨b, n₂, hb, hiff⟩ := h.lost
    rw [hlost] at hb
    cases hb
    obtain ⟨fb, hfile, -⟩ := hiff.mp (hverdict.mpr hex)
    exact ((hnames fb).mp hfile).1
  · intro h
    constructor
    · obtain ⟨w₁, hnum, hsame⟩ := cGetblocknum_named hst ht hmem hq ho
      have hst₁ : Store w₁.dt fs chain := by rw [hsame.dt]; exact hst
      obtain ⟨w₂, hlist, -⟩ := cGetblocks_named hst₁ ht (hmem.later hsame.later) hq ho hdiv
        (Nat.le_refl _)
      rw [hsame.dt] at hlist
      refine ⟨_, w₁, _, w₂, hnum, hlist, blockNums_length hst ho, fun fb hfb => ?_⟩
      rw [((hnames fb).mp hfb).2]
    · refine ⟨_, n', hlost, ?_⟩
      rw [hverdict]
      constructor
      · intro hex
        exact ⟨e.fb, (hnames _).mpr ⟨h hex, rfl⟩, hex⟩
      · intro hex
        obtain ⟨fb, hfb, hex⟩ := hex
        rw [((hnames fb).mp hfb).2] at hex
        exact hex

/-- Where the table does not end with a record, the library runs out of its buffers. -/
theorem not_lists (hst : Store n.world.dt fs chain) (ht : Tree fs) (hmem : Ample n.world.env)
    (hq : named fs.ents path = some (d, e)) (ho : fs e.fb = some o)
    (hdiv : tableSize o e.fb % 32 ≠ 0) : ¬ Lists path n := by
  intro h
  obtain ⟨k, w₁, l, w₂, hnum, hlist, -⟩ := h.count
  obtain ⟨w', hnum', hsame⟩ := cGetblocknum_named hst ht hmem hq ho
  rw [hnum'] at hnum
  cases hnum
  have hst₁ : Store w₁.dt fs chain := by rw [hsame.dt]; exact hst
  rw [cGetblocks_stops hst₁ ht (hmem.later hsame.later) hq ho hdiv] at hlist
  cases hlist

end Stored

/-! ## Every reachable disk -/

/-- The blocks of a path are listed as they should be just when the path does not name a
directory, or names one with an even number of entries whose bytes, taken for records, have the
numbers of held blocks only. -/
theorem lists_iff {s : Sys} (h : Reach Fresh SoundStep s) {n : CtrlNode} (hdt : n.world.dt = s.dt)
    (hmem : Ample n.world.env) (path : CStr) :
    Lists path n ↔ ∀ fb, Names s.dt path S_DIR fb →
      Even (entries s.dt fb).length ∧ ∀ block ∈ blockNums s.dt fb, Held n block := by
  obtain ⟨fs, chain, hst, ht, -⟩ := holding_run h
  rw [← hdt] at hst ⊢
  cases hq : named fs.ents path with
  | none =>
    constructor
    · intro _ fb hfb
      exact absurd hfb (not_names hst ht hq _ fb)
    · intro _
      exact lists_missing hst ht hmem hq
  | some q =>
    obtain ⟨d, e⟩ := q
    obtain ⟨⟨uid, flags, node⟩, ho, htyped⟩ := named_typed ht hq
    have hnames := names_iff hst ht hq S_DIR
    cases node with
    | file len recs =>
      have htype : e.type = S_FIL := htyped.elim (fun hd => absurd hd.2 id) And.left
      have hdiv : tableSize ⟨uid, flags, .file len recs⟩ e.fb % 32 = 0 :=
        Nat.mul_mod_right 32 recs.length
      constructor
      · intro _ fb hfb
        have hdir := ((hnames fb).mp hfb).1
        rw [htype] at hdir
        cases hdir
      · intro _
        exact (lists_whole hst ht hmem hq ho hdiv).mpr fun _ => htype
    | dir p kids =>
      have htype : e.type = S_DIR := htyped.elim And.left fun hf => absurd trivial hf.2
      have hentries : (entries n.world.dt e.fb).length = (table e.fb p kids).length := by
        rw [entries_eq hst ho]
      have hsize : tableSize ⟨uid, flags, .dir p kids⟩ e.fb = 16 * (table e.fb p kids).length := rfl
      by_cases heven : Even (table e.fb p kids).length
      · have hdiv : tableSize ⟨uid, flags, .dir p kids⟩ e.fb % 32 = 0 := by
          obtain ⟨m, hm⟩ := heven
          omega
        rw [lists_whole hst ht hmem hq ho hdiv]
        constructor
        · intro hall fb hfb
          rw [((hnames fb).mp hfb).2, hentries]
          refine ⟨heven, fun block hblock => ?_⟩
          by_contra hne
          have hfile := hall ⟨block, hblock, hne⟩
          rw [htype] at hfile
          cases hfile
        · intro hall hex
          obtain ⟨block, hblock, hne⟩ := hex
          exact absurd ((hall e.fb ((hnames _).mpr ⟨htype, rfl⟩)).2 block hblock) hne
      · have hodd := Nat.not_even_iff_odd.mp heven
        have hdiv : tableSize ⟨uid, flags, .dir p kids⟩ e.fb % 32 ≠ 0 := by
          obtain ⟨m, hm⟩ := hodd
          omega
        constructor
        · intro hl
          exact absurd hl (not_lists hst ht hmem hq ho hdiv)
        · intro hall
          have heven' := (hall e.fb ((hnames _).mpr ⟨htype, rfl⟩)).1
          rw [hentries] at heven'
          exact absurd heven' heven

/-- The control node on a disk, without users, where no data node has reported. -/
def idle (s : Sys) (e : Cfs.Layout.Env) : CtrlNode := ⟨⟨s.dt, s.ipIndex, e⟩, ∅, ∅, [], ∅, []⟩

/-- A new file in the root directory has no blocks, and none is missed. -/
theorem lists_file : ∃ s, Reach Fresh SoundStep s ∧
    Names s.dt (rootPath letterB) S_FIL 2 ∧
      Lists (rootPath letterB) (idle s Cfs.ChainLaws.vast) := by
  have hrun : (execFresh calm blank [calmly (.openFile (rootPath letterB) 12 6 0)]).map
      (fun q => named (entries q.2.dt) (rootPath letterB))
      = some (some (rootFb, ⟨[letterB], 2, S_FIL⟩)) := by decide +kernel
  cases he : execFresh calm blank [calmly (.openFile (rootPath letterB) 12 6 0)] with
  | none => simp [he] at hrun
  | some q =>
    obtain ⟨rs, s⟩ := q
    have hnamed : named (entries s.dt) (rootPath letterB)
      = some (rootFb, ⟨[letterB], 2, S_FIL⟩) := by
      simpa only [he, Option.map_some, Option.some.injEq] using hrun
    have hreach : Reach Fresh SoundStep s := by
      refine reach_execFresh (fun a ha s s' hs => ⟨hs, ?_⟩) (calm_succeeds _) he
      rw [List.mem_singleton.mp ha]
      exact ⟨by decide, calm_succeeds _⟩
    refine ⟨s, hreach, ⟨_, _, hnamed, rfl, rfl⟩,
      (lists_iff hreach rfl Cfs.ChainLaws.vast_ample _).mpr ?_⟩
    intro fb hfb
    obtain ⟨d, e, h, htype, -⟩ := hfb
    rw [hnamed] at h
    cases h
    cases htype

/-- The calls make a run of sound calls. -/
theorem reach_sound {as : List Action} {rs : List Int} {s : Sys}
    (hsound : ∀ a ∈ as, ∀ dt, Sound dt a.call a.env) (h : execFresh calm blank as = some (rs, s)) :
    Reach Fresh SoundStep s :=
  reach_execFresh (fun a ha s _ hs => ⟨hs, hsound a ha s.dt⟩) (calm_succeeds _) h

/-- The directory `/a`, and a file in it. -/
def makeDir : List Action := [calmly (.mkdir (rootPath letterA) 0)]
def fillDir : List Action :=
  makeDir ++ [calmly (.openFile (rootPath letterA ++ rootPath letterB) 12 6 0)]

theorem fillDir_sound : ∀ a ∈ fillDir, ∀ dt, Sound dt a.call a.env := by
  intro a ha dt
  simp only [fillDir, makeDir, List.cons_append, List.nil_append, List.mem_cons, List.not_mem_nil,
    or_false] at ha
  rcases ha with rfl | rfl <;> exact ⟨by decide, calm_succeeds _⟩

/-- What `isFileLost` returns or raises for the path after these calls. -/
def lostAfter (as : List Action) (path : CStr) :
    Option (Except Stop (Except Exc (Option Bool)) × Option (Nat × Ent)) :=
  (execFresh calm blank as).map fun q =>
    ((isFileLost (bytesOf path) (idle q.2 calm)).map Prod.fst, named (entries q.2.dt) path)

theorem lostAfter_some {as : List Action} (path : CStr) {p : Option (Nat × Ent)}
    {r : Except Stop (Except Exc (Option Bool))}
    (hsound : ∀ a ∈ as, ∀ dt, Sound dt a.call a.env) (h : lostAfter as path = some (r, p)) :
    ∃ s, Reach Fresh SoundStep s ∧ named (entries s.dt) path = p ∧
      (isFileLost (bytesOf path) (idle s calm)).map Prod.fst = r := by
  unfold lostAfter at h
  obtain ⟨q, he, hq⟩ := Option.map_eq_some_iff.mp h
  simp only [Prod.mk.injEq] at hq
  exact ⟨q.2, reach_sound hsound he, hq.2, hq.1⟩

/-- A directory with two entries is said to be a lost file; one with three makes the library run
out of its buffers. -/
theorem lists_directory :
    (∃ s, Reach Fresh SoundStep s ∧ Names s.dt (rootPath letterA) S_DIR 2 ∧
      (∃ n', isFileLost (bytesOf (rootPath letterA)) (idle s calm) = .ok (.ok (some true), n')) ∧
      ¬ Lists (rootPath letterA) (idle s calm)) ∧
    ∃ s, Reach Fresh SoundStep s ∧ Names s.dt (rootPath letterA) S_DIR 2 ∧
      isFileLost (bytesOf (rootPath letterA)) (idle s calm) = .error .fault ∧
      ¬ Lists (rootPath letterA) (idle s calm) := by
  constructor
  · obtain ⟨s, hreach, hnamed, hrun⟩ := lostAfter_some (rootPath letterA)
      (fun a ha => fillDir_sound a (List.mem_append_left _ ha))
      (show lostAfter makeDir (rootPath letterA) = some (.ok (.ok (some true)),
        some (rootFb, ⟨[letterA], 2, S_DIR⟩)) by decide +kernel)
    cases hlost : isFileLost (bytesOf (rootPath letterA)) (idle s calm) with
    | error stop =>
      rw [hlost] at hrun
      cases hrun
    | ok q =>
      obtain ⟨r, n'⟩ := q
      rw [hlost] at hrun
      cases hrun
      refine ⟨s, hreach, ⟨_, _, hnamed, rfl, rfl⟩, ⟨n', hlost⟩, fun h => ?_⟩
      obtain ⟨b, n₂, hb, hiff⟩ := h.lost
      rw [hlost] at hb
      cases hb
      obtain ⟨fb, hfile, -⟩ := hiff.mp rfl
      obtain ⟨d, e, he, htype, -⟩ := hfile
      have hentry := hnamed.symm.trans he
      cases hentry
      cases htype
  · obtain ⟨s, hreach, hnamed, hrun⟩ := lostAfter_some (rootPath letterA) fillDir_sound
      (show lostAfter fillDir (rootPath letterA) = some (.error .fault,
        some (rootFb, ⟨[letterA], 2, S_DIR⟩)) by decide +kernel)
    cases hlost : isFileLost (bytesOf (rootPath letterA)) (idle s calm) with
    | error stop =>
      rw [hlost] at hrun
      cases hrun
      refine ⟨s, hreach, ⟨_, _, hnamed, rfl, rfl⟩, hlost, fun h => ?_⟩
      obtain ⟨b, n₂, hb, -⟩ := h.lost
      rw [hlost] at hb
      cases hb
    | ok q =>
      rw [hlost] at hrun
      cases hrun

end Sbpfs.Cnode.LostFiles
