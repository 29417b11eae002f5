import Mathlib.Tactic.Common

/-!
# Stateful programs that may stop without a result

A program transforms a state and either returns a value, runs into undefined
behaviour (`fault`) or never comes back (`hang`). `wp` is the precondition from
which a program cannot fault and, if it returns, ends in the postcondition; `wpOr H`
also says under which condition it may hang, so that `wpOr False` is total correctness.
Nothing here depends on what the state is.
-/
namespace Sbpfs.Lib.Program

/-- Why a program stops without a result. -/
inductive Stop where
  | fault
  | hang
  deriving DecidableEq, Repr

abbrev Prog (σ : Type) (α : Type) := StateT σ (Except Stop) α

variable {σ τ α β : Type}

/-- Undefined behaviour: nothing is known about what follows. -/
def fault : Prog σ α := fun _ => .error .fault

/-- A loop that is never left. -/
def hang : Prog σ α := fun _ => .error .hang

/-- A program on a part of the state. -/
def focus (part : σ → τ) (put : τ → σ → σ) (m : Prog τ α) : Prog σ α := fun s =>
  match m (part s) with
  | .ok (a, t) => .ok (a, put t s)
  | .error e => .error e

/-- The program comes back with a value. -/
def Terminates (m : Prog σ α) (s : σ) : Prop := ∃ q, m s = .ok q

/-- No fault, `Q` of the value and the state if the program returns, and `H` if it hangs. -/
def wpOr (H : Prop) (m : Prog σ α) (Q : α → σ → Prop) (s : σ) : Prop :=
  match m s with
  | .ok (a, s') => Q a s'
  | .error .hang => H
  | .error .fault => False

/-- No fault, and `Q` of the value and the state if the program returns. -/
abbrev wp (m : Prog σ α) (Q : α → σ → Prop) (s : σ) : Prop := wpOr True m Q s

variable {H : Prop}

theorem wp_ok {m : Prog σ α} {Q : α → σ → Prop} {s s' : σ} {a : α}
    (h : wpOr H m Q s) (he : m s = .ok (a, s')) : Q a s' := by
  unfold wpOr at h
  rw [he] at h
  exact h

theorem toOption_some {ε α : Type} {r : Except ε α} {a : α} (h : r.toOption = some a) :
    r = .ok a := by
  cases r with
  | error e => cases h
  | ok a' => exact congrArg _ (Option.some.inj h)

/-- Where hanging is ruled out the program returns. -/
theorem wp_returns {m : Prog σ α} {Q : α → σ → Prop} {s : σ} (h : wpOr False m Q s) :
    ∃ a s', m s = .ok (a, s') ∧ Q a s' := by
  unfold wpOr at h
  rcases he : m s with (_ | _) | ⟨a, s'⟩
  · rw [he] at h; exact h.elim
  · rw [he] at h; exact h.elim
  · rw [he] at h; exact ⟨a, s', rfl, h⟩

theorem Terminates.of_wp {m : Prog σ α} {Q : α → σ → Prop} {s : σ} (h : wpOr False m Q s) :
    Terminates m s := by
  obtain ⟨a, s', hrun, -⟩ := wp_returns h
  exact ⟨(a, s'), hrun⟩

theorem wp_mono {m : Prog σ α} {Q Q' : α → σ → Prop} {s : σ}
    (h : wpOr H m Q s) (hq : ∀ a s', Q a s' → Q' a s') : wpOr H m Q' s := by
  unfold wpOr at h ⊢
  rcases he : m s with (_ | _) | ⟨a, s'⟩
  · rw [he] at h; exact h
  · rw [he] at h; exact h
  · rw [he] at h; exact hq a s' h

@[simp] theorem wp_pure (a : α) (Q : α → σ → Prop) (s : σ) :
    wpOr H (pure a : Prog σ α) Q s ↔ Q a s := Iff.rfl

@[simp] theorem wp_bind (m : Prog σ α) (f : α → Prog σ β) (Q : β → σ → Prop) (s : σ) :
    wpOr H (m >>= f) Q s ↔ wpOr H m (fun a s' => wpOr H (f a) Q s') s := by
  unfold wpOr
  change (match (m s >>= fun p => f p.1 p.2) with
    | .ok (a, s') => Q a s' | .error .hang => H | .error .fault => False) ↔ _
  rcases m s with (_ | _) | ⟨a, s'⟩ <;> rfl

@[simp] theorem wp_get (Q : σ → σ → Prop) (s : σ) :
    wpOr H (get : Prog σ σ) Q s ↔ Q s s := Iff.rfl

@[simp] theorem wp_set (t : σ) (Q : PUnit → σ → Prop) (s : σ) :
    wpOr H (set t : Prog σ PUnit) Q s ↔ Q ⟨⟩ t := Iff.rfl

@[simp] theorem wp_modify (f : σ → σ) (Q : PUnit → σ → Prop) (s : σ) :
    wpOr H (modify f : Prog σ PUnit) Q s ↔ Q ⟨⟩ (f s) := Iff.rfl

@[simp] theorem wp_fault (Q : α → σ → Prop) (s : σ) :
    wpOr H (fault : Prog σ α) Q s ↔ False := Iff.rfl

@[simp] theorem wp_hang (Q : α → σ → Prop) (s : σ) :
    wpOr H (hang : Prog σ α) Q s ↔ H := Iff.rfl

@[simp] theorem wp_ite (c : Prop) [Decidable c] (m n : Prog σ α) (Q : α → σ → Prop) (s : σ) :
    wpOr H (if c then m else n) Q s ↔ if c then wpOr H m Q s else wpOr H n Q s := by
  split <;> rfl

/-- The rule for a call: prove the callee's triple, continue from its postcondition. -/
theorem wp_call {m : Prog σ α} {f : α → Prog σ β} {P : α → σ → Prop} {Q : β → σ → Prop} {s : σ}
    (h : wpOr H m P s) (hf : ∀ a s', P a s' → wpOr H (f a) Q s') : wpOr H (m >>= f) Q s :=
  (wp_bind m f Q s).mpr (wp_mono h hf)

/-! ## How the pieces of a returning program return -/

theorem bind_ok {m : Prog σ α} {f : α → Prog σ β} {s s' : σ} {b : β} :
    (m >>= f) s = .ok (b, s') ↔ ∃ a t, m s = .ok (a, t) ∧ f a t = .ok (b, s') := by
  change (m s >>= fun p => f p.1 p.2) = _ ↔ _
  rcases m s with e | ⟨a, t⟩
  · constructor
    · intro h; cases h
    · rintro ⟨a, t, h, _⟩; cases h
  · constructor
    · intro h; exact ⟨a, t, rfl, h⟩
    · rintro ⟨a', t', h, h'⟩; cases h; exact h'

/-- The rest of the program runs where the first part has returned. -/
theorem bind_run {m : Prog σ α} {s t : σ} {a : α} (h : m s = .ok (a, t)) (f : α → Prog σ β) :
    (m >>= f) s = f a t := by
  show (m s >>= fun p => f p.1 p.2) = _
  rw [h]
  rfl

/-- Where the first part stops, the program stops. -/
theorem bind_fault {m : Prog σ α} {s : σ} {e : Stop} (h : m s = .error e) (f : α → Prog σ β) :
    (m >>= f) s = .error e := by
  show (m s >>= fun p => f p.1 p.2) = _
  rw [h]
  rfl

section Focus

variable {part : σ → τ} {put : τ → σ → σ} {m : Prog τ α} {s : σ}

theorem focus_ok {s' : σ} {a : α} : focus part put m s = .ok (a, s') ↔
    ∃ t, m (part s) = .ok (a, t) ∧ s' = put t s := by
  unfold focus
  rcases m (part s) with e | ⟨b, t⟩
  · constructor
    · intro h
      cases h
    · rintro ⟨_, h, -⟩
      cases h
  · constructor
    · intro h
      cases h
      exact ⟨t, rfl, rfl⟩
    · rintro ⟨_, h, rfl⟩
      cases h
      rfl

theorem focus_run {t : τ} {a : α} (h : m (part s) = .ok (a, t)) :
    focus part put m s = .ok (a, put t s) := focus_ok.mpr ⟨t, h, rfl⟩

theorem focus_stop {e : Stop} (h : m (part s) = .error e) : focus part put m s = .error e := by
  unfold focus
  rw [h]

end Focus

theorem pure_ok {s s' : σ} {a b : α} :
    (pure a : Prog σ α) s = .ok (b, s') ↔ a = b ∧ s = s' := by
  change Except.ok (a, s) = _ ↔ _
  simp

end Sbpfs.Lib.Program

/-! ## Runs of a labelled transition system

The states a system reaches by taking steps one after another, and the one induction
that turns a fact about every step into a fact about every run. -/
namespace Sbpfs.Lib.Run

variable {σ l : Type}

/-- The states reached from `init` by steps that `step` allows. -/
inductive Reach (init : σ → Prop) (step : σ → l → σ → Prop) : σ → Prop
  | init {s : σ} : init s → Reach init step s
  | step {s s' : σ} {a : l} : Reach init step s → step s a s' → Reach init step s'

variable {init : σ → Prop} {step : σ → l → σ → Prop}

/-- What holds at the start and is kept by every step holds after every run. -/
theorem Reach.inv {I : σ → Prop} (h0 : ∀ s, init s → I s)
    (hs : ∀ s a s', I s → step s a s' → I s') {s : σ} (h : Reach init step s) : I s := by
  induction h with
  | init hi => exact h0 _ hi
  | step _ ha ih => exact hs _ _ _ ih ha

/-- A system with fewer starts and steps reaches fewer states. -/
theorem Reach.mono {init' : σ → Prop} {step' : σ → l → σ → Prop} (hi : ∀ s, init s → init' s)
    (hs : ∀ s a s', step s a s' → step' s a s') {s : σ} (h : Reach init step s) :
    Reach init' step' s := by
  induction h with
  | init h => exact .init (hi _ h)
  | step _ ha ih => exact .step ih (hs _ _ _ ha)

end Sbpfs.Lib.Run
