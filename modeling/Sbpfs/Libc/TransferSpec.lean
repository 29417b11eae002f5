import Sbpfs.Libc.Transfer

/-!
# The transfer loops

What the loops over blocks and replicas have done when they end, whatever a single request does:
which requests were made, in which order, and how the value that is returned comes about. What the
calls make of it.
-/
namespace Sbpfs.Libc.TransferSpec

open Sbpfs.Lib.Program Sbpfs.Lib.Pack
open Sbpfs.Wire.Head (Str)
open Sbpfs.Libc.Request (Login)
open Sbpfs.Libc.Table
open Sbpfs.Libc.Transfer

variable {σ : Type} {s s₁ s' : σ} {ent : BlockEntry} {es : List BlockEntry} {ptr : Nat}

theorem check_done {α : Type} {r : Except Stop α} {a : α}
    (h : check r s = .ok (a, s')) : r = .ok a ∧ s' = s := by
  unfold check at h
  cases r with
  | error e => cases h
  | ok b =>
    cases h
    exact ⟨rfl, rfl⟩

/-- The length of the blocks together. -/
def lengths (es : List BlockEntry) : Nat := (es.map fun e => e.lengthInBlock.toNat).sum

@[simp] theorem lengths_nil : lengths [] = 0 := rfl

@[simp] theorem lengths_cons : lengths (ent :: es) = ent.lengthInBlock.toNat + lengths es := rfl

/-! ## Writing -/

section Writing

variable {write : Fin (REDUNDANCY + 1) → Prog σ Int}

/-- The requests of one block, with what they returned. -/
inductive Rounds (write : Fin (REDUNDANCY + 1) → Prog σ Int) (ent : BlockEntry) :
    List (Fin (REDUNDANCY + 1)) → List (Fin (REDUNDANCY + 1) × Int) → σ → σ → Prop
  | nil {s : σ} : Rounds write ent [] [] s s
  | skip {j : Fin (REDUNDANCY + 1)} {js : List (Fin (REDUNDANCY + 1))}
      {rs : List (Fin (REDUNDANCY + 1) × Int)} {s s' : σ} (zero : ent.dNodes j = 0)
      (rest : Rounds write ent js rs s s') : Rounds write ent (j :: js) rs s s'
  | ask {j : Fin (REDUNDANCY + 1)} {js : List (Fin (REDUNDANCY + 1))} {r : Int}
      {rs : List (Fin (REDUNDANCY + 1) × Int)} {s s₁ s' : σ} (node : ent.dNodes j ≠ 0)
      (run : write j s = .ok (r, s₁)) (rest : Rounds write ent js rs s₁ s') :
      Rounds write ent (j :: js) ((j, r) :: rs) s s'

/-- The request returned the length of the block, or more. -/
def Acked (ent : BlockEntry) (q : Fin (REDUNDANCY + 1) × Int) : Prop :=
  q.2 ≥ ent.lengthInBlock.toNat

instance (ent : BlockEntry) (q : Fin (REDUNDANCY + 1) × Int) : Decidable (Acked ent q) :=
  inferInstanceAs (Decidable (q.2 ≥ ent.lengthInBlock.toNat))

/-- The counters are those of the requests made and of the requests that succeeded. -/
theorem writeReplicas_done {js : List (Fin (REDUNDANCY + 1))} {k l k' l' : Nat}
    (h : writeReplicas write ent js k l s = .ok ((k', l'), s')) :
    ∃ rs, Rounds write ent js rs s s' ∧ l' = l + rs.length ∧
      k' = k + (rs.filter (Acked ent)).length := by
  induction js generalizing k l s with
  | nil =>
    obtain ⟨hkl, rfl⟩ := pure_ok.mp h
    cases hkl
    exact ⟨[], .nil, rfl, rfl⟩
  | cons j js ih =>
    rw [writeReplicas] at h
    split at h
    · rename_i hnode
      obtain ⟨r, s₁, hrun, hrest⟩ := bind_ok.mp h
      obtain ⟨rs, hrounds, hl, hk⟩ := ih hrest
      refine ⟨(j, r) :: rs, .ask hnode hrun hrounds, ?_, ?_⟩
      · rw [List.length_cons, hl]
        omega
      · by_cases hack : r ≥ ent.lengthInBlock.toNat
        · rw [if_pos hack] at hk
          rw [List.filter_cons_of_pos (by simpa [Acked] using hack), List.length_cons, hk]
          omega
        · rw [if_neg hack] at hk
          rw [List.filter_cons_of_neg (by simpa [Acked] using hack), hk]
    · rename_i hzero
      obtain ⟨rs, hrounds, hl, hk⟩ := ih h
      exact ⟨rs, .skip (not_not.mp hzero) hrounds, hl, hk⟩

end Writing

section Lists

variable {write : BlockEntry → Fin (REDUNDANCY + 1) → Nat → Prog σ Int}

/-- One block: its requests, from the data at `ptr`. -/
def Asks (write : BlockEntry → Fin (REDUNDANCY + 1) → Nat → Prog σ Int) (ent : BlockEntry)
    (ptr : Nat) (rs : List (Fin (REDUNDANCY + 1) × Int)) (s s' : σ) : Prop :=
  Rounds (fun j => write ent j ptr) ent (List.finRange (REDUNDANCY + 1)) rs s s'

/-- Every block was written by all of its nodes. -/
inductive Written (write : BlockEntry → Fin (REDUNDANCY + 1) → Nat → Prog σ Int) :
    List BlockEntry → Nat → σ → σ → Prop
  | nil {ptr : Nat} {s : σ} : Written write [] ptr s s
  | cons {ent : BlockEntry} {es : List BlockEntry} {ptr : Nat}
      {rs : List (Fin (REDUNDANCY + 1) × Int)} {s s₁ s' : σ} (asks : Asks write ent ptr rs s s₁)
      (acked : ∀ q ∈ rs, Acked ent q)
      (rest : Written write es (ptr + ent.lengthInBlock.toNat) s₁ s') :
      Written write (ent :: es) ptr s s'

/-- The blocks `pre` were written by all of their nodes, and `ent` was not. -/
def Halted (write : BlockEntry → Fin (REDUNDANCY + 1) → Nat → Prog σ Int)
    (pre : List BlockEntry) (ent : BlockEntry) (ptr : Nat) (s s' : σ) : Prop :=
  ∃ rs s₁, Written write pre ptr s s₁ ∧ Asks write ent (ptr + lengths pre) rs s₁ s' ∧
    ∃ q ∈ rs, ¬ Acked ent q

/-- The value of `write_blocks` is the end of the data, or -1 after the first block that not
every node of it has taken. -/
theorem writeBlocks_done {r : Int} (h : writeBlocks write es ptr s = .ok (r, s')) :
    r = ((ptr + lengths es : Nat) : Int) ∧ Written write es ptr s s' ∨
      r = -1 ∧ ∃ pre ent post, es = pre ++ ent :: post ∧ Halted write pre ent ptr s s' := by
  induction es generalizing ptr s with
  | nil =>
    obtain ⟨rfl, rfl⟩ := pure_ok.mp h
    exact .inl ⟨rfl, .nil⟩
  | cons ent es ih =>
    obtain ⟨⟨k, l⟩, s₁, hreplicas, hrest⟩ := bind_ok.mp h
    obtain ⟨rs, hasks, hl, hk⟩ := writeReplicas_done hreplicas
    rw [Nat.zero_add] at hl hk
    subst hl hk
    by_cases hall : (rs.filter (Acked ent)).length = rs.length
    · have hacked : ∀ q ∈ rs, Acked ent q := by
        simpa using List.length_filter_eq_length_iff.mp hall
      dsimp only at hrest
      rw [if_pos hall] at hrest
      rcases ih hrest with ⟨hr, hw⟩ | ⟨hr, pre, ent', post, hes, ⟨rs', s₂, hpre, hask, hnot⟩⟩
      · refine .inl ⟨?_, .cons hasks hacked hw⟩
        rw [hr, lengths_cons, Nat.add_assoc]
      · refine .inr ⟨hr, ent :: pre, ent', post, congrArg (ent :: ·) hes,
          ⟨rs', s₂, .cons hasks hacked hpre, ?_, hnot⟩⟩
        rw [lengths_cons, ← Nat.add_assoc]
        exact hask
    · dsimp only at hrest
      rw [if_neg hall] at hrest
      obtain ⟨rfl, rfl⟩ := pure_ok.mp hrest
      refine .inr ⟨rfl, [], ent, es, rfl, ⟨rs, s, .nil, hasks, ?_⟩⟩
      by_contra hnone
      apply hall
      rw [List.length_filter_eq_length_iff]
      intro q hq
      by_contra hack
      exact hnone ⟨q, hq, by simpa using hack⟩

/-- Requests that were made are made again from the same state. -/
theorem writeReplicas_run {write : Fin (REDUNDANCY + 1) → Prog σ Int}
    {js : List (Fin (REDUNDANCY + 1))} {rs : List (Fin (REDUNDANCY + 1) × Int)} {k l : Nat}
    (h : Rounds write ent js rs s s') : writeReplicas write ent js k l s
      = .ok ((k + (rs.filter (Acked ent)).length, l + rs.length), s') := by
  induction h generalizing k l with
  | nil => rfl
  | skip zero rest ih =>
    rw [writeReplicas, if_neg (not_not.mpr zero)]
    exact ih
  | @ask j js r rs s s₁ s' node run rest ih =>
    rw [writeReplicas, if_pos node, bind_run run, ih, List.length_cons]
    by_cases hack : Acked ent (j, r)
    · have hge : r ≥ ent.lengthInBlock.toNat := hack
      rw [if_pos hge, List.filter_cons_of_pos (by simpa using hack), List.length_cons,
        Nat.add_right_comm, Nat.add_assoc, Nat.add_right_comm l, Nat.add_assoc l]
    · have hlt : ¬ r ≥ ent.lengthInBlock.toNat := hack
      rw [if_neg hlt, List.filter_cons_of_neg (by simpa using hack), Nat.add_right_comm l,
        Nat.add_assoc l]

/-- A write that gets through returns the end of the data. -/
theorem writeBlocks_run (h : Written write es ptr s s') :
    writeBlocks write es ptr s = .ok (((ptr + lengths es : Nat) : Int), s') := by
  induction h with
  | nil => rfl
  | @cons ent es ptr rs s s₁ s' asks acked rest ih =>
    have hall : (rs.filter (Acked ent)).length = rs.length :=
      List.length_filter_eq_length_iff.mpr (by simpa using acked)
    rw [writeBlocks, bind_run (writeReplicas_run asks)]
    dsimp only
    rw [hall, if_pos rfl, ih, lengths_cons, Nat.add_assoc]

end Lists

/-! ## Files -/

section Files

variable {net : Link σ} {l : Login} {fds fds' : Fds} {fd : Int} {d d' : FileDesc} {buf buf' : Str}
  {len : UInt64} {r : Int} {t : σ}

theorem advance_same (d : FileDesc) (r : Int) :
    (advance d r).type = d.type ∧ (advance d r).serverFd = d.serverFd := by
  unfold advance
  split
  · exact ⟨rfl, rfl⟩
  · exact ⟨rfl, rfl⟩

theorem writeFile_done (h : writeFile net l d buf len s = .ok ((r, d'), t)) :
    d' = advance d r ∧ ∃ ents s₁, askBlocks net l d len "WRITE" s = .ok (ents, s₁) ∧
      (ents = none ∧ r = -1 ∧ t = s₁ ∨
        ∃ es, ents = some es ∧ writeBlocks (writeBlock net l d.authCode buf) es 0 s₁
          = .ok (r, t)) := by
  obtain ⟨ents, s₁, hask, hrest⟩ := bind_ok.mp h
  cases ents with
  | none =>
    cases hrest
    exact ⟨rfl, none, _, hask, .inl ⟨rfl, rfl, rfl⟩⟩
  | some es =>
    obtain ⟨ret, s₂, hblocks, hret⟩ := bind_ok.mp hrest
    cases hret
    exact ⟨rfl, some es, _, hask, .inr ⟨es, rfl, hblocks⟩⟩

theorem readFile_done (h : readFile net l d buf len s = .ok ((r, buf', d'), t)) :
    d' = advance d r ∧ ∃ ents s₁, askBlocks net l d len "READ" s = .ok (ents, s₁) ∧
      (ents = none ∧ r = -1 ∧ buf' = buf ∧ t = s₁ ∨
        ∃ es, ents = some es ∧
          readBlocks (readBlock net l d.authCode) es 0 buf s₁ = .ok ((r, buf'), t)) := by
  obtain ⟨ents, s₁, hask, hrest⟩ := bind_ok.mp h
  cases ents with
  | none =>
    cases hrest
    exact ⟨rfl, none, _, hask, .inl ⟨rfl, rfl, rfl, rfl⟩⟩
  | some es =>
    obtain ⟨⟨ret, buf₁⟩, s₂, hblocks, hret⟩ := bind_ok.mp hrest
    cases hret
    exact ⟨rfl, some es, _, hask, .inr ⟨es, rfl, hblocks⟩⟩

theorem readFile_run (hask : askBlocks net l d len "READ" s = .ok (some es, s₁))
    (hblocks : readBlocks (readBlock net l d.authCode) es 0 buf s₁ = .ok ((r, buf'), t)) :
    readFile net l d buf len s = .ok ((r, buf', advance d r), t) := by
  unfold readFile
  rw [bind_run hask]
  dsimp only
  rw [bind_run hblocks]
  rfl

theorem slot_run (hn : 0 ≤ fd ∧ fd < MAX_FILE_OPEN) (hslot : fds fd.toNat = some d) :
    slot fds fd s = .ok (some d, s) := by
  unfold slot
  rw [if_neg (by omega), hslot]
  rfl

theorem sbpWrite_done (hn : 0 ≤ fd ∧ fd < MAX_FILE_OPEN) (hslot : fds fd.toNat = some d)
    (htype : d.type = T_FILE)
    (h : Libc.Transfer.sbpWrite net l fds fd buf len s = .ok ((r, fds'), t)) :
    ∃ d', writeFile net l d buf len s = .ok ((r, d'), t) ∧ fds'
      = setSlot fds fd.toNat (some d') := by
  unfold Libc.Transfer.sbpWrite at h
  rw [if_neg (by omega), bind_run (slot_run hn hslot)] at h
  dsimp only at h
  rw [if_pos htype] at h
  obtain ⟨⟨ret, d'⟩, s₁, hfile, hret⟩ := bind_ok.mp h
  cases hret
  exact ⟨d', hfile, rfl⟩

theorem sbpRead_eq (hn : 0 ≤ fd ∧ fd < MAX_FILE_OPEN) (hslot : fds fd.toNat = some d)
    (htype : d.type = T_FILE) : Libc.Transfer.sbpRead net l fds fd buf len s = (do
      let (ret, buf, d) ← readFile net l d buf len
      return (ret, buf, setSlot fds fd.toNat (some d)) : Prog σ (Int × Str × Fds)) s := by
  unfold Libc.Transfer.sbpRead
  rw [if_neg (by omega), bind_run (slot_run hn hslot)]
  dsimp only
  rw [if_pos htype]

theorem sbpRead_done (hn : 0 ≤ fd ∧ fd < MAX_FILE_OPEN) (hslot : fds fd.toNat = some d)
    (htype : d.type = T_FILE)
    (h : Libc.Transfer.sbpRead net l fds fd buf len s = .ok ((r, buf', fds'), t)) :
    ∃ d', readFile net l d buf len s = .ok ((r, buf', d'), t) ∧ fds'
      = setSlot fds fd.toNat (some d') := by
  rw [sbpRead_eq hn hslot htype] at h
  obtain ⟨⟨ret, buf₁, d'⟩, s₁, hfile, hret⟩ := bind_ok.mp h
  cases hret
  exact ⟨d', hfile, rfl⟩

/-- A seek changes the position at most. -/
theorem sbpSeek_done {offset : Int} (hn : 0 ≤ fd ∧ fd < MAX_FILE_OPEN)
    (hslot : fds fd.toNat = some d)
    (h : sbpSeek fds fd offset s = .ok ((r, fds'), t)) :
    t = s ∧ ∃ sum, fds' fd.toNat = some { d with offset := sum } := by
  unfold sbpSeek at h
  rw [if_neg (by omega), bind_run (slot_run hn hslot)] at h
  dsimp only at h
  split at h
  · cases h
    exact ⟨rfl, d.offset, hslot⟩
  · cases h
    exact ⟨rfl, _, if_pos rfl⟩

end Files

end Sbpfs.Libc.TransferSpec
