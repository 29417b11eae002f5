import Mathlib.Order.Defs.Unbundled
import Sbpfs.Lib.Program

/-!
# Programs that raise exceptions

A program that returns a value or raises an exception, in either case with the state it
has got to, on top of the programs that may stop without a result. The rules take an
execution apart at its binds; `Keeps` is for relations between the states before and
after. Nothing here depends on what the state and the exceptions are.
-/
namespace Sbpfs.Lib.Raise

open Sbpfs.Lib.Program

abbrev Raising (ε σ α : Type) := ExceptT ε (Prog σ) α

variable {ε σ τ α β : Type}

/-- A program on a part of the state; it raises nothing. -/
def onPart (part : σ → τ) (put : τ → σ → σ) (m : Prog τ α) : Raising ε σ α := fun s =>
  match m (part s) with
  | .ok (a, t) => .ok (.ok a, put t s)
  | .error e => .error e

/-- A program on a part of the state that may raise. -/
def within (part : σ → τ) (put : τ → σ → σ) (m : Raising ε τ α) : Raising ε σ α :=
  focus part put m

/-- What `h` handles goes on with its handler, in the state that was reached. -/
def rescue (m : Raising ε σ α) (h : ε → Option (Raising ε σ α)) : Raising ε σ α := fun s =>
  match m s with
  | .ok (.error e, t) => ((h e).getD fun t => .ok (.error e, t)) t
  | q => q

def getState : Raising ε σ σ := fun s => .ok (.ok s, s)

def modifyState (f : σ → σ) : Raising ε σ Unit := fun s => .ok (.ok (), f s)

def raise (e : ε) : Raising ε σ α := fun s => .ok (.error e, s)

/-! ## Executions -/

/-- How an execution of `m >>= f` goes. -/
theorem bind_done {m : Raising ε σ α} {f : α → Raising ε σ β} {s s' : σ} {r : Except ε β} :
    (m >>= f) s = .ok (r, s') ↔ (∃ e, m s = .ok (.error e, s') ∧ r = .error e) ∨
      ∃ a t, m s = .ok (.ok a, t) ∧ f a t = .ok (r, s') := by
  change (m s >>= fun p => (ExceptT.bindCont f p.1) p.2) = _ ↔ _
  rcases m s with e | ⟨e | a, t⟩
  · constructor
    · intro h
      cases h
    · rintro (⟨_, h, -⟩ | ⟨_, _, h, -⟩) <;> cases h
  · constructor
    · intro h
      cases h
      exact .inl ⟨e, rfl, rfl⟩
    · rintro (⟨_, h, rfl⟩ | ⟨_, _, h, -⟩) <;> cases h
      rfl
  · constructor
    · intro h
      exact .inr ⟨a, t, rfl, h⟩
    · rintro (⟨_, h, -⟩ | ⟨_, _, h, hf⟩) <;> cases h
      exact hf

theorem bind_returns {m : Raising ε σ α} {f : α → Raising ε σ β} {s s' : σ} {b : β} :
    (m >>= f) s = .ok (.ok b, s') ↔ ∃ a t, m s = .ok (.ok a, t) ∧ f a t = .ok (.ok b, s') := by
  rw [bind_done]
  constructor
  · rintro (⟨e, -, h⟩ | h)
    · cases h
    · exact h
  · exact .inr

/-- The rest of the program runs where the first part has returned. -/
theorem bind_step {m : Raising ε σ α} {s t : σ} {a : α} (h : m s = .ok (.ok a, t))
    (f : α → Raising ε σ β) : (m >>= f) s = f a t := by
  change (m s >>= fun p => (ExceptT.bindCont f p.1) p.2) = _
  rw [h]
  rfl

/-- What the first part raises, the program raises. -/
theorem bind_raise {m : Raising ε σ α} {s t : σ} {e : ε} (h : m s = .ok (.error e, t))
    (f : α → Raising ε σ β) : (m >>= f) s = .ok (.error e, t) := by
  change (m s >>= fun p => (ExceptT.bindCont f p.1) p.2) = _
  rw [h]
  rfl

/-- Where the first part stops, the program stops. -/
theorem bind_stop {m : Raising ε σ α} {s : σ} {e : Stop} (h : m s = .error e)
    (f : α → Raising ε σ β) : (m >>= f) s = .error e := by
  change (m s >>= fun p => (ExceptT.bindCont f p.1) p.2) = _
  rw [h]
  rfl

theorem pure_done {a : α} {s s' : σ} {r : Except ε α} :
    (pure a : Raising ε σ α) s = .ok (r, s') ↔ r = .ok a ∧ s' = s := by
  change Except.ok (Except.ok a, s) = _ ↔ _
  simp [eq_comm]

/-- Wrapping a value up takes no further step. -/
theorem map_done {m : Raising ε σ α} {f : α → β} {s s' : σ} {r : Except ε β}
    (h : (f <$> m) s = .ok (r, s')) : ∃ q, m s = .ok (q, s') := by
  rcases bind_done.mp h with ⟨e, he, -⟩ | ⟨a, t, ha, hp⟩
  · exact ⟨_, he⟩
  · obtain ⟨-, rfl⟩ := pure_done.mp hp
    exact ⟨_, ha⟩

theorem map_returns {m : Raising ε σ α} {f : α → β} {s s' : σ} {b : β}
    (h : (f <$> m) s = .ok (.ok b, s')) : ∃ a, m s = .ok (.ok a, s') ∧ b = f a := by
  obtain ⟨a, t, ha, hp⟩ := bind_returns.mp h
  obtain ⟨hb, rfl⟩ := pure_done.mp hp
  exact ⟨a, ha, Except.ok.inj hb⟩

@[simp] theorem pure_run (a : α) (s : σ) : (pure a : Raising ε σ α) s = .ok (.ok a, s) := rfl

@[simp] theorem getState_run (s : σ) : (getState : Raising ε σ σ) s = .ok (.ok s, s) := rfl

@[simp] theorem raise_run (e : ε) (s : σ) : (raise e : Raising ε σ α) s = .ok (.error e, s) := rfl

@[simp] theorem modifyState_run (f : σ → σ) (s : σ) :
    (modifyState f : Raising ε σ Unit) s = .ok (.ok (), f s) := rfl

theorem onPart_done {part : σ → τ} {put : τ → σ → σ} {m : Prog τ α} {s s' : σ}
    {r : Except ε α} : onPart part put m s = .ok (r, s') ↔
      ∃ a t, m (part s) = .ok (a, t) ∧ r = .ok a ∧ s' = put t s := by
  unfold onPart
  rcases m (part s) with e | ⟨a, t⟩
  · constructor
    · intro h
      cases h
    · rintro ⟨_, _, h, -⟩
      cases h
  · constructor
    · intro h
      cases h
      exact ⟨a, t, rfl, rfl, rfl⟩
    · rintro ⟨_, _, h, rfl, rfl⟩
      cases h
      rfl

theorem within_run {part : σ → τ} {put : τ → σ → σ} {m : Raising ε τ α} {s : σ} {t : τ}
    {r : Except ε α} (h : m (part s) = .ok (r, t)) : within part put m s = .ok (r, put t s) :=
  focus_run h

theorem within_stop {part : σ → τ} {put : τ → σ → σ} {m : Raising ε τ α} {s : σ} {e : Stop}
    (h : m (part s) = .error e) : within part put m s = .error e := focus_stop h

section Rescue

variable {m : Raising ε σ α} {h : ε → Option (Raising ε σ α)} {s t : σ} {e : ε}

theorem rescue_returns {a : α} (hm : m s = .ok (.ok a, t)) : rescue m h s = .ok (.ok a, t) := by
  unfold rescue
  rw [hm]

theorem rescue_handled {k : Raising ε σ α} (hm : m s = .ok (.error e, t)) (he : h e = some k) :
    rescue m h s = k t := by
  unfold rescue
  rw [hm]
  simp only [he, Option.getD_some]

theorem rescue_raise (hm : m s = .ok (.error e, t)) (he : h e = none) :
    rescue m h s = .ok (.error e, t) := by
  unfold rescue
  rw [hm]
  simp only [he, Option.getD_none]

theorem rescue_stop {e : Stop} (hm : m s = .error e) : rescue m h s = .error e := by
  unfold rescue
  rw [hm]

end Rescue

/-! ## Programs that come back -/

/-- The program comes back, with a value or an exception. -/
def Finishes (m : Raising ε σ α) (s : σ) : Prop := Terminates m s

theorem finishes_pure (a : α) (s : σ) : Finishes (pure a : Raising ε σ α) s := ⟨_, rfl⟩

theorem finishes_raise (e : ε) (s : σ) : Finishes (raise e : Raising ε σ α) s := ⟨_, rfl⟩

/-- The rest has to come back from where the first part has got to. -/
theorem finishes_bind {m : Raising ε σ α} {f : α → Raising ε σ β} {s : σ} (hm : Finishes m s)
    (hf : ∀ a t, m s = .ok (.ok a, t) → Finishes (f a) t) : Finishes (m >>= f) s := by
  obtain ⟨⟨r, t⟩, hrun⟩ := hm
  cases r with
  | error e => exact ⟨_, bind_raise hrun f⟩
  | ok a =>
    obtain ⟨q, hq⟩ := hf a t hrun
    exact ⟨q, (bind_step hrun f).trans hq⟩

theorem finishes_step {m : Raising ε σ α} {f : α → Raising ε σ β} {s t : σ} {a : α}
    (hm : m s = .ok (.ok a, t)) (hf : Finishes (f a) t) : Finishes (m >>= f) s := by
  obtain ⟨q, hq⟩ := hf
  exact ⟨q, (bind_step hm f).trans hq⟩

/-- What comes back as a whole has come back from its first part. -/
theorem Finishes.first {m : Raising ε σ α} {f : α → Raising ε σ β} {s : σ}
    (h : Finishes (m >>= f) s) : Finishes m s := by
  obtain ⟨⟨r, t⟩, hrun⟩ := h
  rcases bind_done.mp hrun with ⟨e, he, -⟩ | ⟨a, t', ha, -⟩
  · exact ⟨_, he⟩
  · exact ⟨_, ha⟩

theorem finishes_ite {c : Prop} [Decidable c] {m m' : Raising ε σ α} {s : σ}
    (hm : c → Finishes m s) (hm' : ¬ c → Finishes m' s) :
    Finishes (if c then m else m') s := by
  split
  · rename_i h
    exact hm h
  · rename_i h
    exact hm' h

theorem finishes_map {m : Raising ε σ α} (f : α → β) {s : σ} (hm : Finishes m s) :
    Finishes (f <$> m) s := finishes_bind hm fun a t _ => finishes_pure (f a) t

theorem finishes_onPart {part : σ → τ} {put : τ → σ → σ} {m : Prog τ α} {s : σ} {q : α × τ}
    (h : m (part s) = .ok q) : Finishes (onPart part put m : Raising ε σ α) s := by
  refine ⟨(.ok q.1, put q.2 s), ?_⟩
  unfold onPart
  rw [h]

/-! ## The exceptions of a program -/

/-- Whatever the program raises satisfies `P`. -/
structure Raises (P : ε → Prop) (m : Raising ε σ α) : Prop where
  exc : ∀ {s s' e}, m s = .ok (.error e, s') → P e

section Raises

variable {P : ε → Prop}

theorem raises_bind {m : Raising ε σ α} {f : α → Raising ε σ β} (hm : Raises P m)
    (hf : ∀ a, Raises P (f a)) : Raises P (m >>= f) := by
  constructor
  intro s s' e h
  rcases bind_done.mp h with ⟨e', he, hr⟩ | ⟨a, t, -, hb⟩
  · cases hr
    exact hm.exc he
  · exact (hf a).exc hb

theorem raises_pure (a : α) : Raises P (pure a : Raising ε σ α) := ⟨fun h => nomatch h⟩

theorem raises_raise {e : ε} (h : P e) : Raises P (raise e : Raising ε σ α) := by
  constructor
  intro s s' e' hr
  cases hr
  exact h

theorem raises_getState : Raises P (getState : Raising ε σ σ) := ⟨fun h => nomatch h⟩

theorem raises_modifyState (f : σ → σ) : Raises P (modifyState f : Raising ε σ Unit) :=
  ⟨fun h => nomatch h⟩

theorem raises_onPart (part : σ → τ) (put : τ → σ → σ) (m : Prog τ α) :
    Raises P (onPart part put m : Raising ε σ α) := by
  constructor
  intro s s' e h
  obtain ⟨a, t, -, hr, -⟩ := onPart_done.mp h
  cases hr

theorem raises_ite {c : Prop} [Decidable c] {m m' : Raising ε σ α} (hm : Raises P m)
    (hm' : Raises P m') : Raises P (if c then m else m') := by
  split
  · exact hm
  · exact hm'

end Raises

/-! ## Relations between the states before and after -/

/-- Whenever the program comes back, `R` holds between the states. -/
structure Keeps (R : σ → σ → Prop) (m : Prog σ α) : Prop where
  rel : ∀ {s s' a}, m s = .ok (a, s') → R s s'

/-- The same for a program that may raise. -/
structure Stays (R : σ → σ → Prop) (m : Raising ε σ α) : Prop where
  rel : ∀ {s s' r}, m s = .ok (r, s') → R s s'

section Keeps

variable {R : σ → σ → Prop}

theorem keeps_bind [IsTrans σ R] {m : Prog σ α} {f : α → Prog σ β} (hm : Keeps R m)
    (hf : ∀ a, Keeps R (f a)) : Keeps R (m >>= f) := by
  constructor
  intro s s' b h
  obtain ⟨a, t, ha, hb⟩ := bind_ok.mp h
  exact Trans.trans (hm.rel ha) ((hf a).rel hb)

theorem keeps_pure [Std.Refl R] (a : α) : Keeps R (pure a : Prog σ α) := by
  constructor
  intro s s' b h
  obtain ⟨-, rfl⟩ := pure_ok.mp h
  exact Std.Refl.refl s

theorem keeps_fault : Keeps R (fault : Prog σ α) := ⟨fun h => nomatch h⟩

theorem keeps_hang : Keeps R (hang : Prog σ α) := ⟨fun h => nomatch h⟩

theorem keeps_get [Std.Refl R] : Keeps R (get : Prog σ σ) := by
  constructor
  intro s s' a h
  cases h
  exact Std.Refl.refl s

theorem keeps_ite {c : Prop} [Decidable c] {m m' : Prog σ α} (hm : Keeps R m) (hm' : Keeps R m') :
    Keeps R (if c then m else m') := by
  split
  · exact hm
  · exact hm'

theorem stays_bind [IsTrans σ R] {m : Raising ε σ α} {f : α → Raising ε σ β} (hm : Stays R m)
    (hf : ∀ a, Stays R (f a)) : Stays R (m >>= f) := by
  constructor
  intro s s' r h
  rcases bind_done.mp h with ⟨e, he, -⟩ | ⟨a, t, ha, hb⟩
  · exact hm.rel he
  · exact Trans.trans (hm.rel ha) ((hf a).rel hb)

theorem stays_pure [Std.Refl R] (a : α) : Stays R (pure a : Raising ε σ α) := by
  constructor
  intro s s' r h
  cases h
  exact Std.Refl.refl s

theorem stays_raise [Std.Refl R] (e : ε) : Stays R (raise e : Raising ε σ α) := by
  constructor
  intro s s' r h
  cases h
  exact Std.Refl.refl s

theorem stays_getState [Std.Refl R] : Stays R (getState : Raising ε σ σ) := by
  constructor
  intro s s' r h
  cases h
  exact Std.Refl.refl s

theorem stays_modifyState {f : σ → σ} (h : ∀ s, R s (f s)) :
    Stays R (modifyState f : Raising ε σ Unit) := by
  constructor
  intro s s' r hs
  cases hs
  exact h s

theorem stays_onPart {part : σ → τ} {put : τ → σ → σ} {m : Prog τ α}
    (h : ∀ s a t, m (part s) = .ok (a, t) → R s (put t s)) :
    Stays R (onPart part put m : Raising ε σ α) := by
  constructor
  intro s s' r hs
  obtain ⟨a, t, hrun, -, rfl⟩ := onPart_done.mp hs
  exact h s a t hrun

theorem stays_ite {c : Prop} [Decidable c] {m m' : Raising ε σ α} (hm : Stays R m)
    (hm' : Stays R m') : Stays R (if c then m else m') := by
  split
  · exact hm
  · exact hm'

theorem stays_map [Std.Refl R] [IsTrans σ R] {m : Raising ε σ α} (f : α → β) (hm : Stays R m) :
    Stays R (f <$> m) :=
  stays_bind hm fun _ => stays_pure _

end Keeps

end Sbpfs.Lib.Raise
