import Mathlib.Data.List.Basic

/-!
# Stateful fallible computations

`EStateM` keeps the state a failed computation stopped in, as a program does
that writes before it fails. Inversion rules: what an `ok` or an `error` has
gone through.
-/

namespace Strk20.Effect

universe u

variable {ε σ : Type u} {α β : Type u}

open EStateM (Result)

/-- A computation that does not touch the state. -/
def lift (x : Except ε α) : EStateM ε σ α := fun s =>
  match x with
  | .ok a => .ok a s
  | .error e => .error e s

/-- Whether a computation has returned. -/
def returns : Result ε σ α → Bool
  | .ok _ _ => true
  | .error _ _ => false

theorem bind_ok {x : EStateM ε σ α} {f : α → EStateM ε σ β} {s s' : σ} {b : β} :
    (x >>= f) s = Result.ok b s' ↔ ∃ a t, x s = Result.ok a t ∧ f a t = Result.ok b s' := by
  show EStateM.bind x f s = _ ↔ _
  unfold EStateM.bind
  cases x s <;> simp

theorem bind_error {x : EStateM ε σ α} {f : α → EStateM ε σ β} {s s' : σ} {e : ε} :
    (x >>= f) s = Result.error e s' ↔
      x s = Result.error e s' ∨ ∃ a t, x s = Result.ok a t ∧ f a t = Result.error e s' := by
  show EStateM.bind x f s = _ ↔ _
  unfold EStateM.bind
  cases x s <;> simp

theorem bind_of_ok {x : EStateM ε σ α} {f : α → EStateM ε σ β} {s t : σ} {a : α}
    (h : x s = Result.ok a t) : (x >>= f) s = f a t := by
  show EStateM.bind x f s = _
  simp only [EStateM.bind, h]

theorem bind_of_error {x : EStateM ε σ α} {f : α → EStateM ε σ β} {s t : σ} {e : ε}
    (h : x s = Result.error e t) : (x >>= f) s = Result.error e t := by
  show EStateM.bind x f s = _
  simp only [EStateM.bind, h]

theorem get_bind (f : σ → EStateM ε σ β) (s : σ) : ((get : EStateM ε σ σ) >>= f) s = f s s := rfl

theorem set_bind (t : σ) (f : PUnit → EStateM ε σ β) (s : σ) :
    ((set t : EStateM ε σ PUnit) >>= f) s = f PUnit.unit t := rfl

theorem lift_bind_ok {x : Except ε α} {f : α → EStateM ε σ β} {s s' : σ} {b : β} :
    (lift x >>= f) s = Result.ok b s' ↔ ∃ a, x = .ok a ∧ f a s = Result.ok b s' := by
  show EStateM.bind (lift x) f s = _ ↔ _
  cases x <;> simp [EStateM.bind, lift]

@[simp] theorem pure_apply (a : α) (s : σ) : (pure a : EStateM ε σ α) s = Result.ok a s := rfl

@[simp] theorem modify_apply (f : σ → σ) (s : σ) :
    (modify f : EStateM ε σ PUnit) s = Result.ok PUnit.unit (f s) := rfl

@[simp] theorem throw_apply (e : ε) (s : σ) :
    (throw e : EStateM ε σ α) s = Result.error e s := rfl

theorem lift_ok {x : Except ε α} {s s' : σ} {a : α} :
    lift x s = Result.ok a s' ↔ x = .ok a ∧ s = s' := by
  cases x <;> simp [lift]

theorem lift_error {x : Except ε α} {s s' : σ} {e : ε} :
    (lift x : EStateM ε σ α) s = Result.error e s' ↔ x = .error e ∧ s = s' := by
  cases x <;> simp [lift]

theorem ite_throw_ok {c : Prop} [Decidable c] {e : ε} {x : EStateM ε σ α} {s s' : σ} {a : α} :
    (if c then throw e else x) s = Result.ok a s' ↔ ¬ c ∧ x s = Result.ok a s' := by
  by_cases hc : c <;> simp [hc]

end Strk20.Effect
