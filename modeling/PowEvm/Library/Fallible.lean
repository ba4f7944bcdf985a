import Mathlib.Data.List.Basic

/-!
# Fallible programs

What the success of a composed program that only returns (`Except`) says about its parts, and how
one that also changes a state, and keeps what it changed when it fails (`EStateM`), runs its first
step.
-/

variable {ε σ α β : Type}

theorem Except.bind_eq_ok_iff {x : Except ε α} {f : α → Except ε β} {b : β} :
    (x >>= f) = .ok b ↔ ∃ a, x = .ok a ∧ f a = .ok b := by
  cases x with
  | ok a =>
    change f a = .ok b ↔ _
    simp
  | error e =>
    change Except.error e = .ok b ↔ _
    simp

theorem Except.foldlM_cons_eq_ok_iff {f : β → α → Except ε β} {a : α} {as : List α} {b c : β} :
    (a :: as).foldlM f b = .ok c ↔ ∃ d, f b a = .ok d ∧ as.foldlM f d = .ok c := by
  rw [List.foldlM_cons]
  exact Except.bind_eq_ok_iff

/-! ## Errors that do not occur -/

/-- A composed program avoids an error that its first part avoids, and its second part avoids on
every value the first can return. -/
theorem Except.bind_ne_error {x : Except ε α} {f : α → Except ε β} {e : ε} (hx : x ≠ .error e)
    (hf : ∀ a, x = .ok a → f a ≠ .error e) : (x >>= f) ≠ .error e := by
  cases x with
  | ok a => exact hf a rfl
  | error e' =>
    intro h
    exact hx (congrArg Except.error (Except.error.inj h))

/-- A loop avoids an error that every pass of it avoids. -/
theorem Except.foldlM_ne_error {f : β → α → Except ε β} {e : ε} (hf : ∀ b a, f b a ≠ .error e)
    (as : List α) (b : β) : as.foldlM f b ≠ .error e := by
  induction as generalizing b with
  | nil => exact fun h => nomatch h
  | cons a as ih =>
    rw [List.foldlM_cons]
    exact Except.bind_ne_error (hf b a) fun b' _ => ih b'

namespace EStateM

variable {s : σ} {e : ε}

/-- Reading the state first. -/
theorem run_get_bind {f : σ → EStateM ε σ β} : ((get : EStateM ε σ σ) >>= f).run s = (f s).run s :=
  rfl

/-- Changing the state first. -/
theorem run_modify_bind {g : σ → σ} {f : PUnit → EStateM ε σ β} :
    ((modify g : EStateM ε σ PUnit) >>= f).run s = (f ⟨⟩).run (g s) :=
  rfl

/-- Going on with a value that is there. -/
theorem run_ofExcept_ok_bind {a : α} {f : α → EStateM ε σ β} :
    ((ofExcept (.ok a) : EStateM ε σ α) >>= f).run s = (f a).run s :=
  rfl

/-- Stopping at an error. -/
theorem run_ofExcept_error_bind {f : α → EStateM ε σ β} :
    ((ofExcept (.error e) : EStateM ε σ α) >>= f).run s = .error e s :=
  rfl

end EStateM
