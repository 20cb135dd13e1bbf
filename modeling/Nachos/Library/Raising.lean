import Mathlib.Tactic.Common

/-! # Computations that can raise an exception or fail

A computation returns a value, raises an exception that is handled elsewhere, or fails for good.
`Ends T R P x` says what holds of the failure, the exception or the value; `Alike R Q x y` relates two
runs that fail together, raise related exceptions or return related values. Both are chained through
`bind`, so that a statement about a computation follows its text. -/
set_option autoImplicit false

namespace Raising

variable {ε ρ α β γ δ : Type}

abbrev Run (ε ρ α : Type) := ExceptT ρ (Except ε) α

/-- A failure. -/
def fail (e : ε) : Run ε ρ α := ExceptT.mk (.error e)

/-- An exception. -/
def raise (r : ρ) : Run ε ρ α := ExceptT.mk (.ok (.error r))

inductive Ends (T : ε → Prop) (R : ρ → Prop) (P : α → Prop) : Run ε ρ α → Prop
  | fail {e : ε} (h : T e) : Ends T R P (fail e)
  | raise {r : ρ} (h : R r) : Ends T R P (raise r)
  | value {a : α} (h : P a) : Ends T R P (pure a)

section Ends

variable {T : ε → Prop} {R : ρ → Prop} {P : α → Prop} {x : Run ε ρ α}

theorem Ends.bind {f : α → Run ε ρ β} {Q : β → Prop} (hx : Ends T R P x)
    (hf : ∀ a, P a → Ends T R Q (f a)) : Ends T R Q (x >>= f) := by
  cases hx with
  | fail h => exact .fail h
  | raise h => exact .raise h
  | value h => exact hf _ h

theorem Ends.mono {T' : ε → Prop} {R' : ρ → Prop} {P' : α → Prop} (hx : Ends T R P x) (hT : ∀ e, T e → T' e)
    (hR : ∀ r, R r → R' r) (hP : ∀ a, P a → P' a) : Ends T' R' P' x := by
  cases hx with
  | fail h => exact .fail (hT _ h)
  | raise h => exact .raise (hR _ h)
  | value h => exact .value (hP _ h)

theorem Ends.of_raise {r : ρ} (h : Ends T R P (Raising.raise r)) : R r := by
  generalize hx : (Raising.raise r : Run ε ρ α) = x at h
  cases h with
  | fail _ => cases hx
  | raise hr =>
    cases hx
    exact hr
  | value _ => cases hx

theorem Ends.of_pure {a : α} (h : Ends T R P (pure a)) : P a := by
  generalize hx : (pure a : Run ε ρ α) = x at h
  cases h with
  | fail _ => cases hx
  | raise _ => cases hx
  | value ha =>
    cases hx
    exact ha

end Ends

/-! ## Two runs -/

inductive Alike (R : ρ → ρ → Prop) (Q : α → β → Prop) : Run ε ρ α → Run ε ρ β → Prop
  | fail (e : ε) : Alike R Q (fail e) (fail e)
  | raise {r r' : ρ} (h : R r r') : Alike R Q (raise r) (raise r')
  | value {a : α} {b : β} (h : Q a b) : Alike R Q (pure a) (pure b)

section Alike

variable {R : ρ → ρ → Prop} {Q : α → β → Prop} {x : Run ε ρ α} {y : Run ε ρ β}

theorem Alike.bind {f : α → Run ε ρ γ} {g : β → Run ε ρ δ} {Q' : γ → δ → Prop} (hxy : Alike R Q x y)
    (hfg : ∀ a b, Q a b → Alike R Q' (f a) (g b)) : Alike R Q' (x >>= f) (y >>= g) := by
  cases hxy with
  | fail e => exact .fail e
  | raise h => exact .raise h
  | value h => exact hfg _ _ h

end Alike

end Raising
