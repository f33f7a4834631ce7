import RollTray.Fault

/-!
# Attempts

An attempt changes a state and either gives an answer or fails. What it changed before a failure
stays changed, so its meaning (`Attempt.perform`) is a function from a state to an answer or fault
and the state left behind. `Attempt.within` makes an attempt on a part of a state. The lemmas
`perform_bind`, `perform_get` and so on say what each way of building an attempt means.
-/

namespace RollTray

/-- An operation on a state that may fail and leaves a state either way. -/
abbrev Attempt (σ α : Type) := ExceptT Fault (StateM σ) α

namespace Attempt

variable {σ τ α : Type}

/-- The attempt that a function describes. -/
def of (f : σ → Except Fault α × σ) : Attempt σ α := f

/-- What an attempt gives or fails with, and the state it leaves. -/
def perform (a : Attempt σ α) (s : σ) : Except Fault α × σ := a s

/-- What is asked of a state, which stays as it is. -/
def ask (f : σ → Except Fault α) : Attempt σ α :=
  of fun s => (f s, s)

/-- An attempt on a part of a state. -/
def within (part : σ → τ) (put : τ → σ → σ) (a : Attempt τ α) : Attempt σ α :=
  of fun s =>
    let (answer, t) := a.perform (part s)
    (answer, put t s)

@[simp]
theorem perform_of (f : σ → Except Fault α × σ) : perform (of f) = f := rfl

@[simp]
theorem perform_ask (f : σ → Except Fault α) (s : σ) : perform (ask f) s = (f s, s) := rfl

theorem perform_within (part : σ → τ) (put : τ → σ → σ) (a : Attempt τ α) (s : σ) :
    perform (within part put a) s =
      ((perform a (part s)).1, put (perform a (part s)).2 s) := rfl

theorem perform_bind {β : Type} (a : Attempt σ α) (f : α → Attempt σ β) (s : σ) :
    perform (a >>= f) s =
      match perform a s with
      | (.ok x, s) => perform (f x) s
      | (.error fault, s) => (.error fault, s) := by
  show (ExceptT.bindCont f (perform a s).1 : StateM σ _) (perform a s).2 = _
  rcases perform a s with ⟨_ | _, _⟩ <;> rfl

theorem perform_bind_of_ok {β : Type} {a : Attempt σ α} {f : α → Attempt σ β} {s s' : σ} {x : α}
    (h : perform a s = (.ok x, s')) : perform (a >>= f) s = perform (f x) s' := by
  rw [perform_bind, h]

theorem perform_bind_of_error {β : Type} {a : Attempt σ α} {f : α → Attempt σ β} {s s' : σ}
    {fault : Fault} (h : perform a s = (.error fault, s')) :
    perform (a >>= f) s = (.error fault, s') := by
  rw [perform_bind, h]

@[simp]
theorem perform_get (s : σ) : perform get s = (.ok s, s) := rfl

@[simp]
theorem perform_set (s t : σ) : perform (set t) s = (.ok (), t) := rfl

@[simp]
theorem perform_modify (f : σ → σ) (s : σ) : perform (modify f) s = (.ok (), f s) := rfl

@[simp]
theorem perform_pure (x : α) (s : σ) : perform (pure x) s = (.ok x, s) := rfl

@[simp]
theorem perform_lift (x : Except Fault α) (s : σ) :
    perform (liftM x : Attempt σ α) s = (x, s) := rfl

@[simp]
theorem perform_throw (f : Fault) (s : σ) : perform (throw f : Attempt σ α) s = (.error f, s) := rfl

end Attempt

end RollTray
