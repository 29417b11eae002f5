import Mathlib.Data.Finset.Card
import Sbpfs.Lib.Program
import Sbpfs.Libc.RequestSpec
import Sbpfs.Libc.Table

/-!
# What runs keep of the descriptor table

The slots in use are those of the descriptors that were handed out and not closed, as long
as no call takes one of the exits that lose a slot or write outside of the table.
-/
namespace Sbpfs.Libc.TableSpec

open Sbpfs.Lib.Program Sbpfs.Lib.Run Sbpfs.Cfs.Layout
open Sbpfs.Wire.Head Sbpfs.Libc.RequestSpec Sbpfs.Libc.Table
open Sbpfs.Libc.Request hiding sbpOpen sbpOpendir sbpClose sbpClosedir

/-! ## Slots -/

@[simp] theorem setSlot_self (fds : Fds) (i : Nat) (d : Option FileDesc) : setSlot fds i d i = d :=
  if_pos rfl

theorem setSlot_ne {fds : Fds} {i k : Nat} (h : k ≠ i) (d : Option FileDesc) :
    setSlot fds i d k = fds k := if_neg h

@[simp] theorem setSlot_setSlot (fds : Fds) (i : Nat) (d d' : Option FileDesc) :
    setSlot (setSlot fds i d) i d' = setSlot fds i d' := by
  funext k
  unfold setSlot
  split <;> rfl

/-- A slot is set to what it holds. -/
theorem setSlot_same {fds : Fds} {i : Nat} {d : Option FileDesc} (h : fds i = d) :
    setSlot fds i d = fds := by
  funext k
  unfold setSlot
  split
  · rename_i hk
    rw [hk, h]
  · rfl

theorem getSlotFrom_some {fds : Fds} {n i k : Nat} (h : getSlotFrom fds n i = some k) :
    i ≤ k ∧ k < i + n ∧ fds k = none := by
  induction n generalizing i with
  | zero => cases h
  | succ n ih =>
    rw [getSlotFrom] at h
    split at h
    · rename_i hfree
      cases h
      exact ⟨Nat.le_refl _, by omega, hfree⟩
    · obtain ⟨h1, h2, h3⟩ := ih h
      exact ⟨by omega, by omega, h3⟩

theorem getSlotFrom_none {fds : Fds} {n i : Nat} (h : getSlotFrom fds n i = none) :
    ∀ k, i ≤ k → k < i + n → fds k ≠ none := by
  induction n generalizing i with
  | zero => intro k h1 h2; omega
  | succ n ih =>
    intro k h1 h2
    rw [getSlotFrom] at h
    split at h
    · cases h
    · rename_i hfree
      rcases Nat.eq_or_lt_of_le h1 with rfl | hlt
      · exact hfree
      · exact ih h k (by omega) (by omega)

theorem getSlot_some {fds : Fds} {i : Nat} (h : getSlot fds = some i) :
    i < MAX_FILE_OPEN ∧ fds i = none := by
  obtain ⟨-, hlt, hfree⟩ := getSlotFrom_some h
  exact ⟨by omega, hfree⟩

theorem getSlot_none {fds : Fds} (h : getSlot fds = none) : ∀ i < MAX_FILE_OPEN, fds i ≠ none :=
  fun i hi => getSlotFrom_none h i (Nat.zero_le i) (by omega)

/-! ## What the calls do -/

/-- What a call that opens can return and leave. -/
inductive Opened (fds : Fds) : Int → Fds → Prop
  | failed : Opened fds (-1) fds
  | installed (i : Nat) (d : FileDesc) : i < MAX_FILE_OPEN → fds i = none →
      Opened fds i (setSlot fds i (some d))

/-- What a call that closes `fd` can return and leave. -/
inductive Closed (fds : Fds) (fd : Int) : Int → Fds → Prop
  | refused : Closed fds fd (-1) fds
  | freed (r : Int) (d : FileDesc) : 0 ≤ fd → fds fd.toNat = some d →
      Closed fds fd r (setSlot fds fd.toNat none)

section Calls

variable {l : Login} {fds : Fds} {x : Exchange}

theorem sbpClose_none {fd : Int} (hlt : fd < MAX_FILE_OPEN) (h : fd < 0 ∨ fds fd.toNat = none) :
    sbpClose l x fd fds = .ok (-1, fds) := by
  unfold sbpClose
  by_cases hneg : fd < 0
  · rw [if_pos hneg]
  · rw [if_neg hneg, if_neg (by omega), h.resolve_left hneg]

/-- A close of an open descriptor: the slot is lost to the table if the server says OK. -/
theorem sbpClose_open (hfit : Fits l) {fd : Int} {d : FileDesc} (h0 : 0 ≤ fd)
    (hlt : fd < MAX_FILE_OPEN) (hd : fds fd.toNat = some d) :
    sbpClose l x fd fds = .ok (if x.prepared = false then (-1, fds)
      else if (x.reply.map saysOk).getD false then (0, fds) else (-1,
        setSlot fds fd.toNat none)) := by
  obtain ⟨msg, hmsg⟩ : ∃ msg, Request.sbpClose l d.serverFd = .ok (some msg) :=
    ⟨_, request_msg hfit _ _ (by simp)⟩
  unfold sbpClose
  rw [if_neg (by omega), if_neg (by omega), hd]
  dsimp only
  rw [hmsg]
  cases x.prepared with
  | false => rfl
  | true =>
    cases hreply : x.reply with
    | none => rfl
    | some head => cases hok : saysOk head <;> simp [hok] <;> rfl

theorem sbpClosedir_none {fd : Int} (hlt : fd < MAX_FILE_OPEN)
    (h : fd < 0 ∨ fds fd.toNat = none) : sbpClosedir l x fd fds = .ok (-1, fds) := by
  unfold sbpClosedir
  by_cases hneg : fd < 0
  · rw [if_pos hneg]
  · rw [if_neg hneg, if_neg (by omega), h.resolve_left hneg]

/-- A close of an open directory frees the slot whatever the server says. -/
theorem sbpClosedir_open (hfit : Fits l) {fd : Int} {d : FileDesc} (h0 : 0 ≤ fd)
    (hlt : fd < MAX_FILE_OPEN) (hd : fds fd.toNat = some d) :
    sbpClosedir l x fd fds = .ok (if d.type ≠ T_DIR ∨ x.prepared = false then (-1, fds)
      else (if (x.reply.map saysOk).getD false then 0 else -1, setSlot fds fd.toNat none)) := by
  obtain ⟨msg, hmsg⟩ : ∃ msg, Request.sbpClosedir l d.serverFd = .ok (some msg) :=
    ⟨_, request_msg hfit _ _ (by simp)⟩
  unfold sbpClosedir
  rw [if_neg (by omega), if_neg (by omega), hd]
  dsimp only
  rw [hmsg]
  by_cases htype : d.type ≠ T_DIR
  · rw [if_pos htype, if_pos (.inl htype)]
  · rw [if_neg htype]
    cases hprep : x.prepared with
    | false => simp
    | true =>
      rw [if_neg (by simp), if_neg (by simp [htype])]
      cases hreply : x.reply with
      | none => rfl
      | some head => cases hok : saysOk head <;> simp [hok] <;> rfl

end Calls

/-! ## Calls that keep the table -/

/-- The request of a close is sent, and not answered with OK. -/
def Frees (x : Exchange) : Prop := x.prepared = true ∧ (x.reply.map saysOk).getD false = false

/-- The reply holds all that `sbp_open` asks for. -/
def openComplete (head : SbpfsHead) : Bool :=
  (getHeadEntryValue head FILE_DESC).isSome &&
    match getHeadEntryValue head AUTH_CODE with
    | none => false
    | some authCode => authCode.length ≤ AUTH_CODE_LEN

/-- The reply holds all that `sbp_opendir` asks for. -/
def opendirComplete (head : SbpfsHead) : Bool :=
  (getHeadEntryValue head DIR_FD).isSome && (getHeadEntryValue head DIR_ENT_NUM).isSome

/-- The reply to the request of a call, if it says OK. -/
def okReply (x : Exchange) : Option SbpfsHead :=
  if x.prepared then x.reply.filter saysOk else none

/-- A call that neither loses a slot nor writes outside of a block, in a table `fds`.
A call that opens and is answered with OK needs a free slot and a name of at most 7
characters, and on its error exit a close that frees the slot; `sbp_closedir` frees no slot
whose type has not been assigned. A close of an open descriptor is not answered with OK. -/
def Sound (fds : Fds) : Call → Prop
  | .openFile filename _ _ a => ∀ head, okReply a.opening = some head →
      getSlot fds ≠ none ∧ (a.fdMem = true →
        (a.nameMem = true → filename.length < nameSize) ∧
        ((a.nameMem = true ∧ openComplete head = true) ∨ Frees a.closing))
  | .opendir filename a => ∀ head, okReply a.opening = some head →
      getSlot fds ≠ none ∧ (a.fdMem = true → a.nameMem = true ∧ filename.length < nameSize ∧
        (opendirComplete head = true ∨ a.closing.prepared = true))
  | .close fd x => fd < MAX_FILE_OPEN ∧ (0 ≤ fd → fds fd.toNat ≠ none → okReply x = none)
  | .closedir dirfd _ => dirfd < MAX_FILE_OPEN

section Sound

variable {l : Login} {fds : Fds}

theorem close_sound (hfit : Fits l) {fd : Int} {x : Exchange} (h : Sound fds (.close fd x)) :
    ∃ r fds', sbpClose l x fd fds = .ok (r, fds') ∧ Closed fds fd r fds' ∧ r ≠ 0 := by
  obtain ⟨hlt, hno⟩ := h
  by_cases hnone : fd < 0 ∨ fds fd.toNat = none
  · exact ⟨-1, fds, sbpClose_none hlt hnone, .refused, by decide⟩
  · simp only [not_or] at hnone
    obtain ⟨d, hd⟩ := Option.ne_none_iff_exists'.mp hnone.2
    have h0 : 0 ≤ fd := by omega
    rw [sbpClose_open hfit h0 hlt hd]
    have hreply := hno h0 hnone.2
    unfold okReply at hreply
    cases hprep : x.prepared with
    | false => exact ⟨-1, fds, rfl, .refused, by decide⟩
    | true =>
      rw [hprep, if_pos rfl] at hreply
      refine ⟨-1, setSlot fds fd.toNat none, ?_, .freed _ d h0 hd, by decide⟩
      cases hr : x.reply with
      | none => rfl
      | some head =>
        rw [hr] at hreply
        have hok : saysOk head = false := by simpa using hreply
        simp [hok]

theorem closedir_sound (hfit : Fits l) {fd : Int} {x : Exchange} (hlt : fd < MAX_FILE_OPEN) :
    ∃ r fds', sbpClosedir l x fd fds = .ok (r, fds') ∧ Closed fds fd r fds' ∧
      (r = 0 → fds' fd.toNat = none) := by
  by_cases hnone : fd < 0 ∨ fds fd.toNat = none
  · exact ⟨-1, fds, sbpClosedir_none hlt hnone, .refused, fun h => absurd h (by decide)⟩
  · simp only [not_or] at hnone
    obtain ⟨d, hd⟩ := Option.ne_none_iff_exists'.mp hnone.2
    have h0 : 0 ≤ fd := by omega
    rw [sbpClosedir_open hfit h0 hlt hd]
    split
    · exact ⟨-1, fds, rfl, .refused, fun h => absurd h (by decide)⟩
    · exact ⟨_, _, rfl, .freed _ d h0 hd, fun _ => setSlot_self ..⟩

/-- The error exit of `sbp_open` after a slot was taken gives it back. -/
theorem openFailed_close (hfit : Fits l) {a : Answers} {i : Nat} {d : FileDesc}
    (hi : i < MAX_FILE_OPEN) (hfree : fds i = none) (hclose : Frees a.closing) :
    openFailed (sbpClose l) a i (setSlot fds i (some d)) = .ok (-1, fds) := by
  have hd : setSlot fds i (some d) ((i : Int)).toNat = some d := setSlot_self ..
  unfold openFailed
  rw [sbpClose_open hfit (by omega) (by omega) hd, hclose.1, hclose.2]
  change Except.ok (-1, setSlot (setSlot fds i (some d)) i none) = _
  rw [setSlot_setSlot, setSlot_same hfree]

theorem openFailed_closedir (hfit : Fits l) {a : Answers} {i : Nat} {d : FileDesc}
    (hi : i < MAX_FILE_OPEN) (hfree : fds i = none) (htype : d.type = T_DIR)
    (hclose : a.closing.prepared = true) :
    openFailed (sbpClosedir l) a i (setSlot fds i (some d)) = .ok (-1, fds) := by
  have hd : setSlot fds i (some d) ((i : Int)).toNat = some d := setSlot_self ..
  unfold openFailed
  rw [sbpClosedir_open hfit (by omega) (by omega) hd, if_neg (by simp [htype, hclose])]
  change Except.ok (-1, setSlot (setSlot fds i (some d)) i none) = _
  rw [setSlot_setSlot, setSlot_same hfree]

/-- The error exits without a slot. -/
theorem openFailed_free {a : Answers} :
    openFailed (sbpClose l) a (slotFd (getSlot fds)) fds = .ok (-1, fds) ∧
      openFailed (sbpClosedir l) a (slotFd (getSlot fds)) fds = .ok (-1, fds) := by
  have hnone : slotFd (getSlot fds) < MAX_FILE_OPEN ∧
      (slotFd (getSlot fds) < 0 ∨ fds (slotFd (getSlot fds)).toNat = none) := by
    cases hslot : getSlot fds with
    | none => exact ⟨by simp [slotFd], .inl (by simp [slotFd])⟩
    | some i =>
      obtain ⟨hi, hfree⟩ := getSlot_some hslot
      exact ⟨by simp only [slotFd]; omega, .inr hfree⟩
  unfold openFailed
  rw [sbpClose_none hnone.1 hnone.2, sbpClosedir_none hnone.1 hnone.2]
  exact ⟨rfl, rfl⟩

theorem openOk_sound (hfit : Fits l) {a : Answers} {head : SbpfsHead} {filename : CStr}
    {oflag : UInt32} (hslot : getSlot fds ≠ none)
    (h : a.fdMem = true → (a.nameMem = true → filename.length < nameSize) ∧
      ((a.nameMem = true ∧ openComplete head = true) ∨ Frees a.closing)) :
    ∃ r fds', openOk l a head filename oflag fds = .ok (r, fds') ∧ Opened fds r fds' := by
  obtain ⟨i, hi⟩ := Option.ne_none_iff_exists'.mp hslot
  obtain ⟨hlt, hfree⟩ := getSlot_some hi
  have hfailed : ∀ d, Frees a.closing →
      ∃ r fds', openFailed (sbpClose l) a i (setSlot fds i (some d)) = .ok (r, fds') ∧
        Opened fds r fds' :=
    fun d hc => ⟨-1, fds, openFailed_close hfit hlt hfree hc, .failed⟩
  unfold openOk
  rw [hi]
  dsimp only
  cases hfd : a.fdMem with
  | false => exact ⟨-1, setSlot fds i none, rfl, by rw [setSlot_same hfree]; exact .failed⟩
  | true =>
    obtain ⟨hname, hrest⟩ := h hfd
    rw [if_neg (by simp)]
    cases hmem : a.nameMem with
    | false =>
      rw [if_pos rfl]
      exact hfailed _ (hrest.resolve_left fun hc => by simp [hmem] at hc)
    | true =>
      have hlen := hname hmem
      rw [if_neg (by simp), if_neg (by omega)]
      unfold openComplete at hrest
      cases hdesc : getHeadEntryValue head FILE_DESC with
      | none => exact hfailed _ (hrest.resolve_left fun hc => by simp [hdesc] at hc)
      | some fdS =>
        dsimp only
        cases hauth : getHeadEntryValue head AUTH_CODE with
        | none => exact hfailed _ (hrest.resolve_left fun hc => by simp [hauth] at hc)
        | some authCode =>
          dsimp only
          split
          · rename_i hlong
            simp only [AUTH_CODE_LEN] at hlong
            exact hfailed _ (hrest.resolve_left fun hc => by simp [hdesc, hauth] at hc; omega)
          · exact ⟨i, _, rfl, .installed i _ hlt hfree⟩

theorem opendirOk_sound (hfit : Fits l) {a : Answers} {head : SbpfsHead} {filename : CStr}
    (hslot : getSlot fds ≠ none)
    (h : a.fdMem = true → a.nameMem = true ∧ filename.length < nameSize ∧
      (opendirComplete head = true ∨ a.closing.prepared = true)) :
    ∃ r fds', opendirOk l a head filename fds = .ok (r, fds') ∧ Opened fds r fds' := by
  obtain ⟨i, hi⟩ := Option.ne_none_iff_exists'.mp hslot
  obtain ⟨hlt, hfree⟩ := getSlot_some hi
  have hfailed : ∀ d : FileDesc, d.type = T_DIR → a.closing.prepared = true →
      ∃ r fds', openFailed (sbpClosedir l) a i (setSlot fds i (some d)) = .ok (r, fds') ∧
        Opened fds r fds' :=
    fun d ht hc => ⟨-1, fds, openFailed_closedir hfit hlt hfree ht hc, .failed⟩
  unfold opendirOk
  rw [hi]
  dsimp only
  cases hfd : a.fdMem with
  | false => exact ⟨-1, setSlot fds i none, rfl, by rw [setSlot_same hfree]; exact .failed⟩
  | true =>
    obtain ⟨hmem, hlen, hrest⟩ := h hfd
    rw [if_neg (by simp), hmem, if_neg (by simp), if_neg (by omega)]
    unfold opendirComplete at hrest
    cases hdesc : getHeadEntryValue head DIR_FD with
    | none => exact hfailed _ rfl (hrest.resolve_left fun hc => by simp [hdesc] at hc)
    | some fdS =>
      dsimp only
      cases hnum : getHeadEntryValue head DIR_ENT_NUM with
      | none => exact hfailed _ rfl (hrest.resolve_left fun hc => by simp [hnum] at hc)
      | some num => exact ⟨i, _, rfl, .installed i _ hlt hfree⟩

/-- A sound call returns, and does what a call of its kind can do. -/
theorem openFile_sound (hfit : Fits l) {filename : CStr} {oflag : UInt32} {mode : UInt16}
    {a : Answers} (h : Sound fds (.openFile filename oflag mode a)) :
    ∃ r fds', sbpOpen l a filename oflag mode fds = .ok (r, fds') ∧ Opened fds r fds' := by
  obtain ⟨msg, hmsg⟩ : ∃ msg, Request.sbpOpen l filename oflag mode = .ok (some msg) :=
    ⟨_, request_msg hfit _ _ (by simp)⟩
  unfold sbpOpen
  cases hprep : a.opening.prepared with
  | false => exact ⟨-1, fds, rfl, .failed⟩
  | true =>
    rw [if_neg (by simp), hmsg]
    cases hreply : a.opening.reply with
    | none => exact ⟨-1, fds, rfl, .failed⟩
    | some head =>
      change ∃ r fds', (if saysOk head then _ else _) = Except.ok (r, fds') ∧ _
      cases hok : saysOk head with
      | true =>
        have hgood := h head (by simp [okReply, hprep, hreply, hok])
        exact openOk_sound hfit hgood.1 hgood.2
      | false =>
        rw [if_neg (by simp), openFailed_free.1]
        split
        · exact ⟨-1, fds, rfl, .failed⟩
        · exact ⟨-1, fds, rfl, .failed⟩

theorem opendir_sound (hfit : Fits l) {filename : CStr} {a : Answers}
    (h : Sound fds (.opendir filename a)) :
    ∃ r fds', sbpOpendir l a filename fds = .ok (r, fds') ∧ Opened fds r fds' := by
  obtain ⟨msg, hmsg⟩ : ∃ msg, Request.sbpOpendir l filename = .ok (some msg) :=
    ⟨_, request_msg hfit _ _ (by simp)⟩
  unfold sbpOpendir
  cases hprep : a.opening.prepared with
  | false => exact ⟨-1, fds, rfl, .failed⟩
  | true =>
    rw [if_neg (by simp), hmsg]
    cases hreply : a.opening.reply with
    | none => exact ⟨-1, fds, rfl, .failed⟩
    | some head =>
      change ∃ r fds', (if saysOk head then _ else _) = Except.ok (r, fds') ∧ _
      cases hok : saysOk head with
      | true =>
        have hgood := h head (by simp [okReply, hprep, hreply, hok])
        exact opendirOk_sound hfit hgood.1 hgood.2
      | false =>
        rw [if_neg (by simp), openFailed_free.2]
        split
        · exact ⟨-1, fds, rfl, .failed⟩
        · exact ⟨-1, fds, rfl, .failed⟩

end Sound

/-! ## Runs -/

/-- The table, and the descriptors that were handed out and not closed since. -/
structure Client where
  fds : Fds
  live : Finset Nat

/-- The descriptor a call is to close. -/
def closes : Call → Option Int
  | .close fd _ => some fd
  | .closedir dirfd _ => some dirfd
  | _ => none

/-- The open descriptors after a call that returned `r`: a close ends a descriptor when it
succeeds or frees the slot. -/
def ledger (c : Call) (r : Int) (fds' : Fds) (live : Finset Nat) : Finset Nat :=
  match closes c with
  | none => if 0 ≤ r then insert r.toNat live else live
  | some fd => if 0 ≤ fd ∧ (r = 0 ∨ fds' fd.toNat = none) then live.erase fd.toNat else live

def Start (s : Client) : Prop := s = ⟨fun _ => none, ∅⟩

def Step (l : Login) (s : Client) (c : Call) (s' : Client) : Prop :=
  ∃ r, c.run l s.fds = .ok (r, s'.fds) ∧ s'.live = ledger c r s'.fds s.live

def SoundStep (l : Login) (s : Client) (c : Call) (s' : Client) : Prop :=
  Fits l ∧ Sound s.fds c ∧ Step l s c s'

/-- What a caller can expect of a call that returns `r`. -/
structure Contract (s : Client) (c : Call) (r : Int) (fds' : Fds) : Prop where
  opened : closes c = none → 0 ≤ r →
    r < MAX_FILE_OPEN ∧ s.fds r.toNat = none ∧ fds' r.toNat ≠ none ∧ r.toNat ∉ s.live
  kept : ∀ i ∈ s.live, closes c ≠ some (i : Int) → fds' i = s.fds i
  closed : ∀ fd, closes c = some fd → r = 0 → fds' fd.toNat = none
  rejected : ∀ fd, closes c = some fd → (fd < 0 ∨ fd.toNat ∉ s.live) → r = -1 ∧ fds' = s.fds

/-- The slots in use are those of the open descriptors. -/
structure Exact (s : Client) : Prop where
  used : ∀ i, i < MAX_FILE_OPEN → ((s.fds i).isSome ↔ i ∈ s.live)
  bound : ∀ i ∈ s.live, i < MAX_FILE_OPEN

theorem Exact.free {s : Client} (h : Exact s) {i : Nat} (hi : i < MAX_FILE_OPEN)
    (hfree : s.fds i = none) : i ∉ s.live := by
  intro hlive
  have := (h.used i hi).mpr hlive
  rw [hfree] at this
  cases this

/-- What a call that opens leaves of a run. -/
theorem opened_step {s : Client} (h : Exact s) {c : Call} {r : Int} {fds' : Fds}
    (hc : closes c = none) (ho : Opened s.fds r fds') :
    Contract s c r fds' ∧ Exact ⟨fds', ledger c r fds' s.live⟩ := by
  have hledger : ledger c r fds' s.live = if 0 ≤ r then insert r.toNat s.live else s.live := by
    unfold ledger
    rw [hc]
  cases ho with
  | failed =>
    rw [hledger, if_neg (by decide)]
    refine ⟨⟨fun _ h => absurd h (by decide), fun i _ _ => rfl, fun fd h => ?_, fun fd h => ?_⟩, h⟩
    · rw [hc] at h
      cases h
    · rw [hc] at h
      cases h
  | installed i d hi hfree =>
    have hnew := h.free hi hfree
    have hother : ∀ k, k ≠ i → setSlot s.fds i (some d) k = s.fds k := fun k hk => setSlot_ne hk _
    rw [hledger, if_pos (by omega), Int.toNat_natCast]
    refine ⟨⟨fun _ _ => ⟨by omega, hfree, ?_, hnew⟩, fun k hk _ => ?_, fun fd h => ?_,
      fun fd h => ?_⟩,
      ⟨fun k hk => ?_, fun k hk => ?_⟩⟩
    · rw [Int.toNat_natCast, setSlot_self]
      simp
    · exact hother k fun hki => hnew (hki ▸ hk)
    · rw [hc] at h
      cases h
    · rw [hc] at h
      cases h
    · by_cases hki : k = i
      · subst hki
        simp
      · dsimp only
        rw [hother k hki, h.used k hk]
        simp [hki]
    · rcases Finset.mem_insert.mp hk with rfl | hk
      · exact hi
      · exact h.bound k hk

/-- What a call that closes leaves of a run. -/
theorem closed_step {s : Client} (h : Exact s) {c : Call} {fd r : Int} {fds' : Fds}
    (hc : closes c = some fd) (hlt : fd < MAX_FILE_OPEN) (hcl : Closed s.fds fd r fds')
    (hzero : r = 0 → fds' fd.toNat = none) :
    Contract s c r fds' ∧ Exact ⟨fds', ledger c r fds' s.live⟩ := by
  have hledger : ledger c r fds' s.live
      = if 0 ≤ fd ∧ (r = 0 ∨ fds' fd.toNat = none) then s.live.erase fd.toNat else s.live := by
    unfold ledger
    rw [hc]
  have hsame : ∀ fd', closes c = some fd' → fd' = fd := by
    intro fd' h'
    rw [hc] at h'
    exact (Option.some.inj h').symm
  have hopen : closes c = none → ∀ {p : Prop}, p := by
    intro h'
    rw [hc] at h'
    cases h'
  cases hcl with
  | refused =>
    refine ⟨⟨fun h' => hopen h', fun i _ _ => rfl, fun fd' h' h0 => absurd h0 (by decide),
      fun fd' _ _ => ⟨rfl, rfl⟩⟩, ?_⟩
    rw [hledger]
    split
    · rename_i hgone
      have hnot : fd.toNat ∉ s.live :=
        h.free (by omega) (hgone.2.resolve_left (by decide))
      rw [Finset.erase_eq_of_notMem hnot]
      exact h
    · exact h
  | freed r d h0 hd =>
    have hlive : fd.toNat ∈ s.live := by
      refine (h.used _ (by omega)).mp ?_
      rw [hd]
      rfl
    rw [hledger, if_pos ⟨h0, .inr (setSlot_self ..)⟩]
    refine ⟨⟨fun h' => hopen h', fun i hi hne => ?_, fun fd' h' _ => ?_, fun fd' h' hnot => ?_⟩,
      ⟨fun k hk => ?_, fun k hk => h.bound k (Finset.mem_of_mem_erase hk)⟩⟩
    · refine setSlot_ne (fun hki => hne ?_) _
      rw [hc, hki, Int.toNat_of_nonneg h0]
    · rw [hsame fd' h']
      exact setSlot_self ..
    · rw [hsame fd' h'] at hnot
      exact absurd hlive (hnot.resolve_left (by omega))
    · by_cases hki : k = fd.toNat
      · subst hki
        simp
      · dsimp only
        rw [setSlot_ne hki, h.used k hk]
        simp [hki]

/-- A sound call returns, keeps its contract and leaves the table exact. -/
theorem sound_step {l : Login} {s : Client} (hfit : Fits l) (h : Exact s) {c : Call}
    (hs : Sound s.fds c) : ∃ r fds', c.run l s.fds = .ok (r, fds') ∧ Contract s c r fds' ∧
      Exact ⟨fds', ledger c r fds' s.live⟩ := by
  cases c with
  | openFile filename oflag mode a =>
    obtain ⟨r, fds', hrun, ho⟩ := openFile_sound hfit hs
    exact ⟨r, fds', hrun, opened_step h rfl ho⟩
  | opendir filename a =>
    obtain ⟨r, fds', hrun, ho⟩ := opendir_sound hfit hs
    exact ⟨r, fds', hrun, opened_step h rfl ho⟩
  | close fd x =>
    obtain ⟨r, fds', hrun, hcl, hne⟩ := close_sound hfit hs
    exact ⟨r, fds', hrun, closed_step h rfl hs.1 hcl fun h0 => absurd h0 hne⟩
  | closedir fd x =>
    obtain ⟨r, fds', hrun, hcl, hzero⟩ := closedir_sound hfit hs
    exact ⟨r, fds', hrun, closed_step h rfl hs hcl hzero⟩

theorem exact_start {s : Client} (h : Start s) : Exact s := by
  cases h
  exact ⟨fun i _ => by simp, fun i hi => by simp at hi⟩

/-- The table is exact after every run of sound calls. -/
theorem exact_run {l : Login} {s : Client} (h : Reach Start (SoundStep l) s) : Exact s := by
  refine h.inv (fun s hs => exact_start hs) fun s c s' hex hstep => ?_
  obtain ⟨hfit, hsound, r, hrun, hlive⟩ := hstep
  obtain ⟨r', fds', hrun', -, hex'⟩ := sound_step hfit hex hsound
  rw [hrun] at hrun'
  cases hrun'
  obtain ⟨fds, live⟩ := s'
  change live = ledger c r fds s.live at hlive
  subst hlive
  exact hex'

/-- Fewer than 4096 open descriptors leave a free slot. -/
theorem room {s : Client} (h : Exact s) (hcard : s.live.card < MAX_FILE_OPEN) :
    getSlot s.fds ≠ none := by
  intro hnone
  have hall := getSlot_none hnone
  have hsub : Finset.range MAX_FILE_OPEN ⊆ s.live := by
    intro i hi
    have hlt := Finset.mem_range.mp hi
    exact (h.used i hlt).mp (Option.isSome_iff_ne_none.mpr (hall i hlt))
  have := Finset.card_le_card hsub
  rw [Finset.card_range] at this
  omega

/-- A reply that grants an open: a title, an `FD` and an `Auth-Code`. -/
def granted : SbpfsHead :=
  ⟨30, REQUEST_OK ++
    0 :: (FILE_DESC ++ 0 :: (ascii "3" ++ 0 :: (AUTH_CODE ++ 0 :: (ascii "x" ++ [0])))),
    [(13, 16), (18, 28)]⟩

/-- All goes well. -/
def smooth : Answers := ⟨⟨true, some granted⟩, true, true, ⟨true, none⟩⟩

/-- An open that is granted hands out the free slot. -/
theorem open_granted {l : Login} (hfit : Fits l) {fds : Fds} {i : Nat} {filename : CStr}
    (hslot : getSlot fds = some i) (hname : filename.length < nameSize) (oflag : UInt32)
    (mode : UInt16) : ∃ d, sbpOpen l smooth filename oflag mode fds
      = .ok ((i : Int), setSlot fds i (some d)) := by
  obtain ⟨msg, hmsg⟩ : ∃ msg, Request.sbpOpen l filename oflag mode = .ok (some msg) :=
    ⟨_, request_msg hfit _ _ (by simp)⟩
  have hok : saysOk granted = true := by decide
  have hfd : getHeadEntryValue granted FILE_DESC = some (ascii "3") := by decide
  have hauth : getHeadEntryValue granted AUTH_CODE = some (ascii "x") := by decide
  have hrun : sbpOpen l smooth filename oflag mode fds
      = openOk l smooth granted filename oflag fds := by
    unfold sbpOpen
    rw [hmsg]
    change (if saysOk granted = true then openOk l smooth granted filename oflag fds
      else if saysErr granted = true then .ok (-1, fds)
      else openFailed (sbpClose l) smooth (slotFd (getSlot fds)) fds) = _
    rw [if_pos hok]
  rw [hrun]
  unfold openOk
  rw [hslot]
  dsimp only
  rw [if_neg (by decide), if_neg (by decide), if_neg (by omega), hfd]
  dsimp only
  rw [hauth]
  dsimp only
  rw [if_neg (by decide)]
  exact ⟨_, rfl⟩

/-- After every run of sound calls each sound call keeps its contract, and while fewer than
4096 descriptors are open another open can succeed. -/
theorem descriptors_run {l : Login} (hfit : Fits l) {s : Client}
    (h : Reach Start (SoundStep l) s) :
    (∀ c, Sound s.fds c → ∃ r fds', c.run l s.fds = .ok (r, fds') ∧ Contract s c r fds') ∧
    (s.live.card < MAX_FILE_OPEN → ∀ (filename : CStr) (oflag : UInt32) (mode : UInt16),
      filename.length < nameSize → ∃ a r fds',
        (Call.openFile filename oflag mode a).run l s.fds = .ok (r, fds') ∧ 0 ≤ r) := by
  have hex := exact_run h
  refine ⟨fun c hc => ?_, fun hcard filename oflag mode hname => ?_⟩
  · obtain ⟨r, fds', hrun, hcontract, -⟩ := sound_step hfit hex hc
    exact ⟨r, fds', hrun, hcontract⟩
  · obtain ⟨i, hi⟩ := Option.ne_none_iff_exists'.mp (room hex hcard)
    obtain ⟨d, hd⟩ := open_granted hfit hi hname oflag mode
    exact ⟨smooth, i, _, hd, by omega⟩

theorem anonymous_fits : Fits anonymous := by
  unfold Fits
  decide

/-- The client after its first open. -/
theorem first_open :
    ∃ s d, Reach Start (SoundStep anonymous) s ∧ s.fds 0 = some d ∧ s.live = {0} := by
  have hslot : getSlot (fun _ => none) = some 0 := rfl
  obtain ⟨d, hd⟩ := @open_granted _ anonymous_fits _ _ (text "/a") hslot (by decide) 1 6
  refine ⟨⟨setSlot (fun _ => none) 0 (some d), {0}⟩, d,
    .step (s := ⟨fun _ => none, ∅⟩) (a := .openFile (text "/a") 1 6 smooth)
      (.init (by unfold Start; rfl)) ?_, rfl, rfl⟩
  refine ⟨anonymous_fits, fun head hhead =>
    ⟨by rw [hslot]; simp, fun _ => ⟨fun _ => by decide, .inl ?_⟩⟩,
    0, hd, rfl⟩
  have hsome : okReply smooth.opening = some granted := rfl
  rw [hsome] at hhead
  cases hhead
  exact ⟨rfl, by decide⟩

theorem descriptors_run_first : ∃ s, s.live = {0} ∧
    (∀ c, Sound s.fds c → ∃ r fds', c.run anonymous s.fds = .ok (r, fds') ∧ Contract s c r fds') ∧
    (s.live.card < MAX_FILE_OPEN → ∀ (filename : CStr) (oflag : UInt32) (mode : UInt16),
      filename.length < nameSize → ∃ a r fds',
        (Call.openFile filename oflag mode a).run anonymous s.fds = .ok (r, fds') ∧ 0 ≤ r) := by
  obtain ⟨s, d, hreach, -, hlive⟩ := first_open
  exact ⟨s, hlive, descriptors_run anonymous_fits hreach⟩

/-- A close that the server grants returns 0 and leaves the slot in use. -/
theorem close_keeps_slot : ∃ s d, Reach Start (Step anonymous) s ∧ s.fds 0 = some d ∧
    (Call.close 0 ⟨true, some granted⟩).run anonymous s.fds = .ok (0, s.fds) ∧
    ¬ Contract s (.close 0 ⟨true, some granted⟩) 0 s.fds := by
  obtain ⟨s, d, hreach, hd, -⟩ := first_open
  refine ⟨s, d, hreach.mono (fun _ h => h) (fun _ _ _ h => h.2.2), hd, ?_, fun hc => ?_⟩
  · have hok : (Option.map saysOk (some granted)).getD false = true := by decide
    have hopen := sbpClose_open (x := ⟨true, some granted⟩) anonymous_fits (Int.le_refl 0)
      (by decide) hd
    rw [hok] at hopen
    exact hopen
  · have := hc.closed 0 rfl rfl
    rw [Int.toNat_zero, hd] at this
    cases this

end Sbpfs.Libc.TableSpec
