import Sbpfs.Cfs.FileHeaders
import Sbpfs.Cfs.PersistSpec

/-!
# Block numbers are not shared

The counter in the superblock against the block lists of all files, over runs that mix
calls with growths of the image and with restarts from a saved one.
-/
namespace Sbpfs.Cfs.BlockNumbers

open Sbpfs.Lib.Program Sbpfs.Lib.Memory Sbpfs.Lib.Run
open Sbpfs.Cfs.Layout Sbpfs.Cfs.Rules Sbpfs.Cfs.Fat Sbpfs.Cfs.FatSpec Sbpfs.Cfs.FileSpec
open Sbpfs.Cfs.File Sbpfs.Cfs.Data Sbpfs.Cfs.Image Sbpfs.Cfs.DiskStore Sbpfs.Cfs.BlockSpec
    Sbpfs.Cfs.DataSpec
open Sbpfs.Cfs.Mkfs Sbpfs.Cfs.DiskView Sbpfs.Cfs.Calls Sbpfs.Cfs.RunSpec Sbpfs.Cfs.Invariants
open Sbpfs.Cfs.FileHeaders Sbpfs.Cfs.Persist Sbpfs.Cfs.PersistSpec
open Sbpfs.Spec.FileTree Sbpfs.Spec.Resolve

attribute [local irreducible] wpOr

/-- The numbers in the block list of the file at `fb`. -/
def blockNums (dt : Dtree) (fb : Nat) : List Nat :=
  let b := imageOf dt.data (chainOf dt fb)
  (List.range (metaStrbase b / 32)).map fun i => blockNum b (blockOff i)

/-- No number stands twice in the lists of the live files, and all are below the counter. -/
structure NumbersDistinct (dt : Dtree) : Prop where
  once : ∀ fb, Live dt fb S_FIL → (blockNums dt fb).Nodup
  apart : ∀ fb fb', Live dt fb S_FIL → Live dt fb' S_FIL → fb ≠ fb' →
    (blockNums dt fb).Disjoint (blockNums dt fb')
  below : ∀ fb, Live dt fb S_FIL → ∀ n ∈ blockNums dt fb, n < dt.sb.maxBlockNum

/-! ## The system -/

/-- A mounted disk in its process. -/
structure Machine where
  dt : Dtree
  ipIndex : Int

/-- A call, a growth, or a restart from the image saved over the file `old`. -/
inductive Event where
  | call (c : Call) (e : Env)
  | grow (e : Env)
  | restart (old : Saved) (ret : Option Nat) (inode : Bool) (e : Env)

/-- The calls on directories and files, writes on files that exist only. -/
def Call.OnFiles (dt : Dtree) : Call → Prop
  | .mkdir .. => True
  | .openFile .. => True
  | .remove .. => True
  | .write fb _ _ ips => Live dt fb.toNat S_FIL ∧ ips ≠ []
  | _ => False

inductive Moves (s : Machine) : Event → Machine → Prop
  | call {c : Call} {e : Env} {r : Int} {w' : World} (on : Call.OnFiles s.dt c)
      (run : c.run ⟨s.dt, s.ipIndex, e⟩ = .ok (r, w')) : Moves s (.call c e) ⟨w'.dt, w'.ipIndex⟩
  | grow {e : Env} {r : Int} {w' : World}
      (run : extend (u32 (s.dt.dtSize * 2)) ⟨s.dt, s.ipIndex, e⟩ = .ok (r, w')) :
      Moves s (.grow e) ⟨w'.dt, w'.ipIndex⟩
  | restart {old file : Saved} {ret : Option Nat} {inode : Bool} {e : Env} {w' : World}
      (save : saveDisk s.dt old ret inode = (file, 0))
      (mount : openDisk (some file) ⟨s.dt, 0, e⟩ = .ok (true, w')) :
      Moves s (.restart old ret inode e) ⟨w'.dt, w'.ipIndex⟩

/-- A fresh disk in a fresh process. -/
def Booted (s : Machine) : Prop := Fresh ⟨s.dt, s.ipIndex, []⟩

/-- The write leaves the counter of blocks in its field. -/
def CounterFits (dt : Dtree) : Call → Prop
  | .write fb offset length _ =>
    dt.sb.maxBlockNum + (blocksFor (offset.toNat + length.toNat)
      - blocksFor (metaFlen (dt.data fb.toNat))) < 2 ^ 64
  | _ => True

/-- The event keeps away from the places where the library spoils the image: a sound call,
a saved image that covers the old file and can be read back. -/
def Sound (dt : Dtree) : Event → Prop
  | .call c e => RunSpec.Sound dt c e ∧ CounterFits dt c
  | .grow _ => True
  | .restart old _ _ e => old.size ≤ dt.dtSize ∧ Env.Succeeds e .load

def SoundMove (s : Machine) (ev : Event) (s' : Machine) : Prop := Moves s ev s' ∧ Sound s.dt ev

/-! ## Block lists of a file tree -/

/-- The numbers in the records of the files of a tree, against the counter `m`. -/
structure Numbered (fs : Fs) (m : Nat) : Prop where
  once : ∀ {fb u fl len recs}, fs fb = some ⟨u, fl, .file len recs⟩ → (recs.map Rec.num).Nodup
  apart : ∀ {fb fb' u u' fl fl' len len' recs recs'}, fs fb = some ⟨u, fl, .file len recs⟩ →
    fs fb' = some ⟨u', fl', .file len' recs'⟩ → fb ≠ fb' →
    (recs.map Rec.num).Disjoint (recs'.map Rec.num)
  below : ∀ {fb u fl len recs}, fs fb = some ⟨u, fl, .file len recs⟩ →
    ∀ n ∈ recs.map Rec.num, n < m

section Numbered

variable {fs fs' : Fs} {m m' : Nat}

/-- Files that keep their records, and empty ones, do no harm. -/
theorem Numbered.of_files (h : Numbered fs m)
    (hsub : ∀ {fb u fl len recs}, fs' fb = some ⟨u, fl, .file len recs⟩ →
      (∃ u' fl', fs fb = some ⟨u', fl', .file len recs⟩) ∨ recs = []) : Numbered fs' m where
  once := fun hn => by
    rcases hsub hn with ⟨_, _, ho⟩ | rfl
    · exact h.once ho
    · exact List.nodup_nil
  apart := fun hn hn' hne => by
    rcases hsub hn with ⟨_, _, ho⟩ | rfl
    · rcases hsub hn' with ⟨_, _, ho'⟩ | rfl
      · exact h.apart ho ho' hne
      · exact List.disjoint_nil_right _
    · exact List.disjoint_nil_left _
  below := fun hn => by
    rcases hsub hn with ⟨_, _, ho⟩ | rfl
    · exact h.below ho
    · intro n hm
      cases hm

/-- The numbers `m`, `m + 1`, ... of new records. -/
theorem news_nums {news : List Rec} (hnums : ∀ i r, news[i]? = some r → r.num = m + i) :
    news.map Rec.num = List.range' m news.length := by
  refine List.ext_getElem (by simp) fun i hi hi' => ?_
  rw [List.getElem_map, List.getElem_range', Nat.one_mul]
  exact hnums i _ (List.getElem?_eq_getElem _)

/-- New records take their numbers from the counter. -/
theorem Numbered.append (h : Numbered fs m) {fb u len len' : Nat} {fl : UInt8}
    {recs news : List Rec} (ho : fs fb = some ⟨u, fl, .file len recs⟩)
    (hnums : ∀ i r, news[i]? = some r → r.num = m + i) :
    Numbered (Function.update fs fb (some ⟨u, fl, .file len' (recs ++ news)⟩))
      (m + news.length) := by
  have hnews := news_nums hnums
  have hfresh : ∀ {n : Nat}, n ∈ news.map Rec.num → m ≤ n ∧ n < m + news.length := by
    intro n hn
    rw [hnews, List.mem_range'_1] at hn
    exact hn
  -- what a file other than the written one holds is as before
  have hother : ∀ {n u' fl' len'' recs'}, n ≠ fb →
      Function.update fs fb (some ⟨u, fl, .file len' (recs ++ news)⟩) n
        = some ⟨u', fl', .file len'' recs'⟩ → fs n = some ⟨u', fl', .file len'' recs'⟩ := by
    intro n u' fl' len'' recs' hne hn
    rwa [Function.update_of_ne hne] at hn
  have hapart : ∀ {n u' fl' len'' recs'}, n ≠ fb → fs n = some ⟨u', fl', .file len'' recs'⟩ →
      ((recs ++ news).map Rec.num).Disjoint (recs'.map Rec.num) := by
    intro n u' fl' len'' recs' hne hn
    rw [List.map_append, List.disjoint_append_left]
    refine ⟨h.apart ho hn (Ne.symm hne), fun k hk hk' => ?_⟩
    have hlow := (hfresh hk).1
    have hhigh := h.below hn k hk'
    omega
  refine ⟨?_, ?_, ?_⟩
  · intro n u' fl' len'' recs' hn
    by_cases hne : n = fb
    · subst hne
      rw [Function.update_self] at hn
      cases hn
      rw [List.map_append, List.nodup_append']
      refine ⟨h.once ho, ?_, fun k hk hk' => ?_⟩
      · rw [hnews]
        exact List.nodup_range'
      · have hlow := (hfresh hk').1
        have hhigh := h.below ho k hk
        omega
    · exact h.once (hother hne hn)
  · intro n n' u₁ u₂ fl₁ fl₂ len₁ len₂ recs₁ recs₂ hn hn' hne
    by_cases h1 : n = fb
    · subst h1
      have h2 : n' ≠ n := Ne.symm hne
      rw [Function.update_self] at hn
      cases hn
      exact hapart h2 (hother h2 hn')
    · by_cases h2 : n' = fb
      · subst h2
        rw [Function.update_self] at hn'
        cases hn'
        exact fun k hk hk' => hapart h1 (hother h1 hn) hk' hk
      · exact h.apart (hother h1 hn) (hother h2 hn') hne
  · intro n u' fl' len'' recs' hn k hk
    by_cases hne : n = fb
    · subst hne
      rw [Function.update_self] at hn
      cases hn
      rw [List.map_append, List.mem_append] at hk
      rcases hk with hk | hk
      · have hlt := h.below ho k hk
        omega
      · exact (hfresh hk).2
    · have hlt := h.below (hother hne hn) k hk
      omega

end Numbered

section Stored

variable {dt : Dtree} {fs : Fs} {chain : Nat → List Nat}

theorem blockNums_eq (hst : Store dt fs chain) {fb u len : Nat} {fl : UInt8} {recs : List Rec}
    (ho : fs fb = some ⟨u, fl, .file len recs⟩) : blockNums dt fb = recs.map Rec.num := by
  have hat := hst.obj fb _ ho
  have hfile : FileImage (imageOf dt.data (chain fb)) (chain fb).length len recs := hat.holds.node
  unfold blockNums
  rw [chainOf_eq hst.sized hat]
  dsimp only
  rw [hfile.strbase, Nat.mul_div_cancel_left _ (by omega)]
  refine List.ext_getElem (by simp) fun i hi hi' => ?_
  rw [List.getElem_map, List.getElem_range, List.getElem_map]
  exact congrArg Rec.num (hfile.record i _ (List.getElem?_eq_getElem _))

theorem numbersDistinct (hst : Store dt fs chain) (ht : Tree fs)
    (h : Numbered fs dt.sb.maxBlockNum) : NumbersDistinct dt where
  once := fun fb hl => by
    obtain ⟨u, fl, len, recs, ho⟩ := live_file hst ht hl
    rw [blockNums_eq hst ho]
    exact h.once ho
  apart := fun fb fb' hl hl' hne => by
    obtain ⟨u, fl, len, recs, ho⟩ := live_file hst ht hl
    obtain ⟨u', fl', len', recs', ho'⟩ := live_file hst ht hl'
    rw [blockNums_eq hst ho, blockNums_eq hst ho']
    exact h.apart ho ho' hne
  below := fun fb hl => by
    obtain ⟨u, fl, len, recs, ho⟩ := live_file hst ht hl
    rw [blockNums_eq hst ho]
    exact h.below ho

end Stored

/-! ## Runs -/

/-- The disk holds a tree whose block lists keep below the counter. -/
def Counts (s : Machine) : Prop :=
  s.dt.sb.maxBlockNum < 2 ^ 64 ∧
    ∃ fs chain, Store s.dt fs chain ∧ Tree fs ∧ Bounded fs ∧ Numbered fs s.dt.sb.maxBlockNum

/-- A sound call keeps the numbers distinct. -/
theorem numbered_effect {fs fs' : Fs} {m m' : Nat} {c : Call} {r : Int} (h : Effect fs m c r fs' m')
    (ht : Tree fs) (hnum : Numbered fs m) (hm : m < 2 ^ 64)
    (hfits : ∀ fb offset length ips u fl len recs, c = .write fb offset length ips →
      fs fb.toNat = some ⟨u, fl, .file len recs⟩ →
      m + growth recs.length (offset.toNat + length.toNat) < 2 ^ 64) :
    Numbered fs' m' ∧ m' < 2 ^ 64 := by
  have hkept : (∀ fb offset length ips, c ≠ .write fb offset length ips) → Numbered fs' m := by
    intro hc
    refine hnum.of_files fun hn => ?_
    rcases h.fileFrom ht hc hn with ho | ⟨-, -, hrecs⟩
    · exact .inl ho
    · exact .inr hrecs
  cases h with
  | same => exact ⟨hnum, hm⟩
  | write obj _ _ grow _ counter nums =>
    have hlt := hfits _ _ _ _ _ _ _ _ rfl obj
    rw [← grow] at hlt
    rw [counter hlt]
    exact ⟨hnum.append obj (nums hlt), hlt⟩
  | _ => exact ⟨hkept (by rintro _ _ _ _ ⟨⟩), hm⟩

theorem counts_step {s s' : Machine} {ev : Event} (h : Counts s) (hs : SoundMove s ev s') :
    Counts s' := by
  obtain ⟨hm, fs, chain, hst, ht, hb, hnum⟩ := h
  obtain ⟨hmove, hsound⟩ := hs
  cases hmove with
  | @call c e r w' on run =>
    obtain ⟨hcall, hfits⟩ := hsound
    have hex : Explained fs c ⟨s.dt, s.ipIndex, e⟩ r w' := by
      cases c with
      | write fb offset length ips =>
        exact explained (s := ⟨s.dt, s.ipIndex, [fb.toNat]⟩) hst ht hb
          ⟨List.mem_singleton.mpr rfl, on.2⟩ hcall run
      | _ => exact explained (s := ⟨s.dt, s.ipIndex, []⟩) hst ht hb trivial hcall run
    obtain ⟨fs', chain', hst', he⟩ := hex
    obtain ⟨hnum', hm'⟩ :=
      numbered_effect he ht hnum hm fun fb offset length ips u fl len recs hc ho => by
      subst hc
      have hat := hst.obj _ _ ho
      have hfile : FileImage (imageOf s.dt.data (chain fb.toNat))
        (chain fb.toNat).length len recs :=
        hat.holds.node
      have hlen := (file_header hst ho).1
      dsimp only [CounterFits] at hfits
      rw [hlen, ← hfile.count] at hfits
      exact hfits
    exact ⟨hm', fs', chain', hst', he.tree ht, he.bounded hb, hnum'⟩
  | @grow e r w' run =>
    have hpost :=
      wp_ok (wp_extend (H := True) (w := ⟨s.dt, s.ipIndex, e⟩) hst.sized hst.topFree) run
    obtain ⟨⟨hg, -, -⟩, -⟩ := hpost
    have hmax : w'.dt.sb.maxBlockNum = s.dt.sb.maxBlockNum := hg.maxBlockNum
    refine ⟨hmax.trans_lt hm, fs, chain, Store.grows hst hg, ht, hb, ?_⟩
    rw [hmax]
    exact hnum
  | @restart old file ret inode e w' save mount =>
    obtain ⟨hold, hload⟩ := hsound
    obtain ⟨hsize, hbytes⟩ := saveDisk_ok save hold
    obtain ⟨hdt, -⟩ := openDisk_ok hload mount
    obtain ⟨hst', hmax⟩ := mounted_saved hst hm hbytes
    rw [Counts, hdt, hsize, hmax]
    exact ⟨hm, fs, chain, hst', ht, hb, hnum⟩

theorem counts_booted {s : Machine} (h : Booted s) : Counts s := by
  obtain ⟨w, w', hmem, -, hrun, hs⟩ := h
  have hdt : s.dt = w'.dt := congrArg Sys.dt hs
  obtain ⟨hst, -, -, hmax⟩ := wp_ok (wp_doMkcfs (H := True) hmem (.inl trivial)) hrun
  rw [Counts, hdt, hmax]
  have hnone : ∀ {fb u fl len recs}, freshFs fb ≠ some ⟨u, fl, .file len recs⟩ := by
    intro fb u fl len recs ho
    cases (freshFs_some ho).2
  refine ⟨by decide, freshFs, _, hst, freshFs_tree, fun _ _ _ _ _ ho => absurd ho hnone,
    fun ho => absurd ho hnone, fun ho => absurd ho hnone, fun ho => absurd ho hnone⟩

/-- Over every run of sound events no block number is shared, and all are below the counter. -/
theorem blockNumbers_run {s : Machine} (h : Reach Booted SoundMove s) : NumbersDistinct s.dt := by
  obtain ⟨-, fs, chain, hst, ht, -, hnum⟩ : Counts s :=
    h.inv (fun _ hs => counts_booted hs) fun _ _ _ hi hs => counts_step hi hs
  exact numbersDistinct hst ht hnum

/-- A write of ten bytes to a file that has just been made. -/
theorem blockNumbers_run_write :
    ∃ s r s₁ r' s₂, twoCalls (calmly (.openFile (rootPath letterA) 8 6 0))
      (calmly (.write 2 0 10 [0x7f000001])) = some (s, r, s₁, r', s₂) ∧
      blockNums s₂.dt 2 = [0] ∧ NumbersDistinct s₂.dt := by
  have hrun : (twoCalls (calmly (.openFile (rootPath letterA) 8 6 0))
      (calmly (.write 2 0 10 [0x7f000001]))).map (fun q => (rootReading q.2.2.1.dt,
        q.2.2.1.dt.sb.maxBlockNum, metaFlen (q.2.2.1.dt.data 2), blockNums q.2.2.2.2.dt 2))
      = some ([(1, S_DIR), (1, S_DIR), (1, S_DIR), (2, S_FIL)], 0, 0, [0]) := by decide +kernel
  cases hm : twoCalls (calmly (.openFile (rootPath letterA) 8 6 0))
      (calmly (.write 2 0 10 [0x7f000001])) with
  | none => simp [hm] at hrun
  | some q =>
    obtain ⟨s, r, s₁, r', s₂⟩ := q
    simp only [hm, Option.map_some, Option.some.injEq, Prod.mk.injEq] at hrun
    obtain ⟨hread, hmax, hflen, hnums⟩ := hrun
    obtain ⟨hfresh, ⟨-, w₁, hopen, rfl⟩, hallow, w₂, hwrite, rfl⟩ := twoCalls_returns hm
    have hlive : Live w₁.dt 2 S_FIL := live_of_root hread (by decide)
    have hfits : CounterFits w₁.dt (.write 2 0 10 [0x7f000001]) := by
      change w₁.dt.sb.maxBlockNum + (blocksFor (0 + 10) - blocksFor (metaFlen (w₁.dt.data 2)))
        < 2 ^ 64
      rw [hmax, hflen]
      decide
    have hboot : Booted ⟨s.dt, s.ipIndex⟩ := by
      obtain ⟨w, w', hmem, hip, hmk, rfl⟩ := hfresh
      exact ⟨w, w', hmem, hip, hmk, rfl⟩
    have hmove : Moves ⟨s.dt, s.ipIndex⟩ (.call (.openFile (rootPath letterA) 8 6 0) calm)
        ⟨w₁.dt, w₁.ipIndex⟩ := .call (c := .openFile (rootPath letterA) 8 6 0) trivial hopen
    have hmove' : Moves ⟨w₁.dt, w₁.ipIndex⟩ (.call (.write 2 0 10 [0x7f000001]) calm)
        ⟨w₂.dt, w₂.ipIndex⟩ := .call (c := .write 2 0 10 [0x7f000001]) ⟨hlive, hallow.2⟩ hwrite
    refine ⟨s, r, _, r', _, rfl, hnums, blockNumbers_run (s := ⟨w₂.dt, w₂.ipIndex⟩) ?_⟩
    exact .step (.step (.init hboot) ⟨hmove, ⟨by decide, calm_succeeds _⟩, trivial⟩)
      ⟨hmove', .inr ⟨hlive, by decide⟩, hfits⟩

/-- A run on a fresh disk starts on a fresh disk. -/
theorem fresh_of_execFresh {env : Env} {dt : Dtree} {as : List Action} {s : Sys} {rs : List Int}
    (hmem : ∀ k, env.heap .initdir k ≠ none) (h : execFresh env dt as = some (rs, s)) :
    ∃ s₀ : Sys, Booted ⟨s₀.dt, s₀.ipIndex⟩ ∧ exec as s₀ = some (rs, s) := by
  unfold execFresh at h
  cases hr : doMkcfs ⟨dt, 0, env⟩ with
  | error e => simp [hr] at h
  | ok q =>
    obtain ⟨u, w'⟩ := q
    simp only [hr] at h
    exact ⟨_, ⟨⟨dt, 0, env⟩, w', hmem, rfl, hr, rfl⟩, h⟩

theorem reach_moves {as : List Action} {s s' : Sys} {rs : List Int}
    (hon : ∀ a ∈ as, ∀ dt, Call.OnFiles dt a.call) (hs : Reach Booted Moves ⟨s.dt, s.ipIndex⟩)
    (h : exec as s = some (rs, s')) : Reach Booted Moves ⟨s'.dt, s'.ipIndex⟩ := by
  induction as generalizing s rs with
  | nil =>
    cases h
    exact hs
  | cons a as ih =>
    obtain ⟨r, rs', s₁, rfl, ⟨-, w', hrun, rfl⟩, hrest⟩ := exec_cons h
    have hmove : Moves ⟨s.dt, s.ipIndex⟩ (.call a.call a.env) ⟨w'.dt, w'.ipIndex⟩ :=
      .call (hon a (List.mem_cons_self ..) _) hrun
    exact ih (fun a ha => hon a (List.mem_cons_of_mem _ ha)) (.step hs hmove) hrest

/-- The removal that keeps the entry of `/a` frees its sector, which then becomes the
directory `/b`: read as a block list, its table says that `/a` has the block 0. -/
def reuse : List Action :=
  [calmly (.openFile (rootPath letterA) 8 6 0), ⟨.remove (rootPath letterA) 0, noTail⟩,
    calmly (.mkdir (rootPath letterB) 0)]

theorem remove_then_reuse : ∃ s, Reach Booted Moves s ∧ ¬ NumbersDistinct s.dt := by
  have hrun : (execFresh calm blank reuse).map (fun q => (q.1, rootReading q.2.dt,
      blockNums q.2.dt 2, q.2.dt.sb.maxBlockNum))
      = some ([2, -9, 0], [(1, S_DIR), (1, S_DIR), (1, S_DIR), (2, S_FIL), (2, S_DIR)], [0],
        0) := by
    decide +kernel
  cases he : execFresh calm blank reuse with
  | none => simp [he] at hrun
  | some q =>
    obtain ⟨rs, s⟩ := q
    simp only [he, Option.map_some, Option.some.injEq, Prod.mk.injEq] at hrun
    obtain ⟨-, hread, hnums, hmax⟩ := hrun
    refine ⟨⟨s.dt, s.ipIndex⟩, ?_, fun h => ?_⟩
    · obtain ⟨s₀, hfresh, hexec⟩ := fresh_of_execFresh (calm_succeeds _) he
      refine reach_moves (fun a ha dt => ?_) (.init hfresh) hexec
      simp only [reuse, List.mem_cons, List.not_mem_nil, or_false] at ha
      rcases ha with rfl | rfl | rfl <;> exact trivial
    · have hlt := h.below 2 (live_of_root hread (by decide)) 0 (by rw [hnums]; decide)
      rw [hmax] at hlt
      exact absurd hlt (Nat.lt_irrefl 0)

end Sbpfs.Cfs.BlockNumbers
