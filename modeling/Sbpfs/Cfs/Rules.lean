import Sbpfs.Cfs.Layout

/-!
# Rules for the primitive accesses

One `wp` rule for each primitive of the model, and what the environment of a call
keeps while the call consumes allocation outcomes.
-/
namespace Sbpfs.Cfs.Rules

open Sbpfs.Lib.Program Sbpfs.Lib.Memory Sbpfs.Cfs.Layout

variable {α : Type} {w : World} {H : Prop}

@[simp] theorem wp_getDt (Q : Dtree → World → Prop) : wpOr H getDt Q w ↔ Q w.dt w := by
  simp only [getDt, wp_bind, wp_get, wp_pure]

@[simp] theorem wp_getNow (Q : Nat → World → Prop) : wpOr H getNow Q w ↔ Q w.env.now w := by
  simp only [getNow, wp_bind, wp_get, wp_pure]

@[simp] theorem wp_modifyDt (f : Dtree → Dtree) (Q : Unit → World → Prop) :
    wpOr H (modifyDt f) Q w ↔ Q () { w with dt := f w.dt } := by
  simp only [modifyDt, wp_modify]

@[simp] theorem wp_malloc (s : AllocSite) (n : Nat) (Q : Option Buf → World → Prop) :
    wpOr H (malloc s n) Q w ↔
      Q ((w.env.heap s 0).map (Buf.mk n)) { w with env := w.env.pop s } := by
  simp only [malloc, wp_bind, wp_get, wp_set, wp_pure]

@[simp] theorem wp_readFat (i : Nat) (Q : Nat → World → Prop) :
    wpOr H (readFat i) Q w ↔ i < w.dt.slots ∧ Q (w.dt.fat i) w := by
  by_cases h : i < w.dt.slots <;> simp [readFat, h]

/-- The FAT with slot `i` set to `v`. -/
def setFat (dt : Dtree) (i v : Nat) : Dtree :=
  { dt with fat := fun k => if k = i then v else dt.fat k }

@[simp] theorem wp_writeFat (i v : Nat) (Q : Unit → World → Prop) :
    wpOr H (writeFat i v) Q w ↔ i < w.dt.slots ∧ Q () { w with dt := setFat w.dt i v } := by
  by_cases h : i < w.dt.slots <;> simp [writeFat, h, setFat]

@[simp] theorem wp_readSector (fb : Nat) (Q : Bytes → World → Prop) :
    wpOr H (readSector fb) Q w ↔
      sectorOf fb < w.dt.dataSecs ∧ Q (w.dt.data (sectorOf fb)) w := by
  by_cases h : sectorOf fb < w.dt.dataSecs <;> simp [readSector, h]

theorem readSector_run {i : Nat} (hi : sectorOf i < w.dt.dataSecs) :
    readSector i w = .ok (w.dt.data (sectorOf i), w) := by
  show (if sectorOf i < w.dt.dataSecs then pure (w.dt.data (sectorOf i)) else fault :
    CM Bytes) w = _
  rw [if_pos hi]
  rfl

theorem readSector_fault {i : Nat} (hi : ¬ sectorOf i < w.dt.dataSecs) :
    readSector i w = .error .fault := by
  show (if sectorOf i < w.dt.dataSecs then pure (w.dt.data (sectorOf i)) else fault :
    CM Bytes) w = _
  rw [if_neg hi]
  rfl

/-- The data area with `n` bytes copied over the start of sector `k`. -/
def setSector (dt : Dtree) (k : Nat) (src : Bytes) (soff n : Nat) : Dtree :=
  { dt with data := fun i => if i = k then blit (dt.data i) 0 src soff n else dt.data i }

@[simp] theorem wp_writeSector (fb : Nat) (src : Bytes) (soff n : Nat) (Q : Unit → World → Prop) :
    wpOr H (writeSector fb src soff n) Q w ↔
      sectorOf fb < w.dt.dataSecs ∧
        Q () { w with dt := setSector w.dt (sectorOf fb) src soff n } := by
  by_cases h : sectorOf fb < w.dt.dataSecs <;> simp [writeSector, h, setSector]

@[simp] theorem wp_copyIn (b : Buf) (doff : Nat) (src : Bytes) (soff n : Nat)
    (Q : Buf → World → Prop) :
    wpOr H (b.copyIn doff src soff n) Q w ↔
      doff + n ≤ b.size ∧ Q ⟨b.size, blit b.bytes doff src soff n⟩ w := by
  by_cases h : doff + n ≤ b.size <;> simp [Buf.copyIn, h]

@[simp] theorem wp_store (b : Buf) (off n v : Nat) (Q : Buf → World → Prop) :
    wpOr H (b.store off n v) Q w ↔ off + n ≤ b.size ∧ Q ⟨b.size, putLE b.bytes off n v⟩ w := by
  by_cases h : off + n ≤ b.size <;> simp [Buf.store, h]

@[simp] theorem setFat_sb (dt : Dtree) (i v : Nat) : (setFat dt i v).sb = dt.sb := rfl
@[simp] theorem setFat_data (dt : Dtree) (i v : Nat) : (setFat dt i v).data = dt.data := rfl
@[simp] theorem setFat_dtSize (dt : Dtree) (i v : Nat) : (setFat dt i v).dtSize = dt.dtSize := rfl
@[simp] theorem setFat_slots (dt : Dtree) (i v : Nat) : (setFat dt i v).slots = dt.slots := rfl
@[simp] theorem setFat_dataSecs (dt : Dtree) (i v : Nat) :
    (setFat dt i v).dataSecs = dt.dataSecs := rfl

@[simp] theorem setSector_sb (dt : Dtree) (k : Nat) (src : Bytes) (soff n : Nat) :
    (setSector dt k src soff n).sb = dt.sb := rfl
@[simp] theorem setSector_fat (dt : Dtree) (k : Nat) (src : Bytes) (soff n : Nat) :
    (setSector dt k src soff n).fat = dt.fat := rfl
@[simp] theorem setSector_dtSize (dt : Dtree) (k : Nat) (src : Bytes) (soff n : Nat) :
    (setSector dt k src soff n).dtSize = dt.dtSize := rfl
@[simp] theorem setSector_slots (dt : Dtree) (k : Nat) (src : Bytes) (soff n : Nat) :
    (setSector dt k src soff n).slots = dt.slots := rfl
@[simp] theorem setSector_dataSecs (dt : Dtree) (k : Nat) (src : Bytes) (soff n : Nat) :
    (setSector dt k src soff n).dataSecs = dt.dataSecs := rfl

theorem setSector_data_self (dt : Dtree) (k : Nat) (src : Bytes) (soff n : Nat) :
    (setSector dt k src soff n).data k = blit (dt.data k) 0 src soff n := if_pos rfl

theorem setSector_data_ne {dt : Dtree} {k i : Nat} {src : Bytes} {soff n : Nat} (h : i ≠ k) :
    (setSector dt k src soff n).data i = dt.data i := if_neg h

theorem sectorOf_lt {fb : Nat} (h : fb < 2 ^ 23) : sectorOf fb = fb := by
  simp only [sectorOf, u32, BYTSPERSEC]
  omega

/-! ## What a call leaves of its environment -/

/-- `e'` is `e` after some allocations. -/
structure Later (e e' : Env) : Prop where
  now : e'.now = e.now
  fuel : e'.fuel = e.fuel
  stray : e'.stray = e.stray
  heap : ∀ s, ∃ m, ∀ k, e'.heap s k = e.heap s (k + m)

theorem Later.refl (e : Env) : Later e e := ⟨rfl, rfl, rfl, fun _ => ⟨0, fun _ => rfl⟩⟩

theorem Later.trans {e e' e'' : Env} (h : Later e e') (h' : Later e' e'') : Later e e'' := by
  refine ⟨h'.now.trans h.now, h'.fuel.trans h.fuel, h'.stray.trans h.stray, fun s => ?_⟩
  obtain ⟨m, hm⟩ := h.heap s
  obtain ⟨m', hm'⟩ := h'.heap s
  refine ⟨m' + m, fun k => ?_⟩
  rw [hm', hm]
  congr 1
  omega

theorem Later.pop (e : Env) (s : AllocSite) : Later e (e.pop s) := by
  refine ⟨rfl, rfl, rfl, fun t => ?_⟩
  by_cases h : t = s
  · exact ⟨1, fun k => by simp [Env.pop, h]⟩
  · exact ⟨0, fun k => by simp [Env.pop, h]⟩

/-- No allocation at `s` returns NULL. -/
def Env.Succeeds (e : Env) (s : AllocSite) : Prop := ∀ k, e.heap s k ≠ none

theorem Env.Succeeds.later {e e' : Env} {s : AllocSite} (h : Env.Succeeds e s)
    (hl : Later e e') : Env.Succeeds e' s := by
  intro k
  obtain ⟨m, hm⟩ := hl.heap s
  rw [hm]
  exact h _

/-- The next `n` allocations at `s` succeed. -/
def Env.Gives (e : Env) (s : AllocSite) (n : Nat) : Prop := ∀ k, k < n → e.heap s k ≠ none

/-- The environment after `n` allocations at `s`. -/
def Env.skip (e : Env) (s : AllocSite) (n : Nat) : Env :=
  { e with heap := fun t k => if t = s then e.heap t (k + n) else e.heap t k }

theorem Env.skip_other {e : Env} {s t : AllocSite} (h : t ≠ s) (n : Nat) :
    (Env.skip e s n).heap t = e.heap t := by
  funext k
  simp only [Env.skip, if_neg h]

theorem Env.skip_zero (e : Env) (s : AllocSite) : Env.skip e s 0 = e := by
  unfold Env.skip
  congr 1
  funext t k
  exact ite_self _

theorem Env.skip_skip (e : Env) (s : AllocSite) (m n : Nat) :
    Env.skip (Env.skip e s m) s n = Env.skip e s (m + n) := by
  unfold Env.skip
  congr 1
  funext t k
  by_cases h : t = s
  · simp only [if_pos h]
    congr 1
    omega
  · simp only [if_neg h]

theorem Env.gives_add {e : Env} {s : AllocSite} {m n : Nat} :
    Env.Gives e s (m + n) ↔ Env.Gives e s m ∧ Env.Gives (Env.skip e s m) s n := by
  have hskip : ∀ k, (Env.skip e s m).heap s k = e.heap s (k + m) := fun k => by
    simp only [Env.skip, if_true]
  constructor
  · intro h
    refine ⟨fun k hk => h k (by omega), fun k hk => ?_⟩
    rw [hskip]
    exact h _ (by omega)
  · rintro ⟨h, h'⟩ k hk
    by_cases hkm : k < m
    · exact h k hkm
    · have hrest := h' (k - m) (by omega)
      rwa [hskip, Nat.sub_add_cancel (Nat.le_of_not_lt hkm)] at hrest

theorem Env.gives_one {e : Env} {s : AllocSite} : Env.Gives e s 1 ↔ e.heap s 0 ≠ none := by
  constructor
  · exact fun h => h 0 Nat.one_pos
  · intro h k hk
    rwa [Nat.lt_one_iff.mp hk]

theorem Later.skip (e : Env) (s : AllocSite) (n : Nat) : Later e (Env.skip e s n) := by
  refine ⟨rfl, rfl, rfl, fun t => ?_⟩
  by_cases h : t = s
  · exact ⟨n, fun k => by simp only [Env.skip, if_pos h]⟩
  · exact ⟨0, fun k => by simp only [Env.skip, if_neg h, Nat.add_zero]⟩

theorem Env.Succeeds.gives {e : Env} {s : AllocSite} (h : Env.Succeeds e s) (n : Nat) :
    Env.Gives e s n := fun k _ => h k

/-- Every allocation succeeds, and a loop may visit every sector of the largest image. -/
structure Ample (e : Env) : Prop where
  fuel : 2 ^ 23 < e.fuel
  heap : ∀ s, Env.Succeeds e s

theorem Ample.later {e e' : Env} (h : Ample e) (hl : Later e e') : Ample e' where
  fuel := by rw [hl.fuel]; exact h.fuel
  heap := fun s => (h.heap s).later hl

end Sbpfs.Cfs.Rules
