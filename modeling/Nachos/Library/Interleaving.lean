import Nachos.Library.Execution

/-! # Programs over a shared store

A program accesses the cells of a store one at a time and may fail in between. `run` takes it to its end
undisturbed, and `access` makes its next access, after which another program may have its turn. `Uses R W`
bounds the cells that are read and updated: a program that only reads what nobody updates in the meantime ends
as it would have ended. -/
set_option autoImplicit false

namespace Interleaving
open Execution

/-- A program that returns, fails, or accesses a cell and goes on. -/
inductive Program (I V ε α : Type) : Type where
  | ret (a : α)
  | fail (e : ε)
  | read (i : I) (next : V → Program I V ε α)
  | update (i : I) (f : V → V) (next : Program I V ε α)

namespace Program

variable {I V ε α β : Type}

def bind (f : α → Program I V ε β) : Program I V ε α → Program I V ε β
  | ret a => f a
  | fail e => fail e
  | read i next => read i fun v => bind f (next v)
  | update i g next => update i g (bind f next)

instance : Monad (Program I V ε) where
  pure := ret
  bind p f := bind f p

/-- A call that accesses nothing. -/
def ofCall : Except ε α → Program I V ε α
  | .ok a => ret a
  | .error e => fail e

@[simp] theorem ofCall_ok_bind (a : α) (f : α → Program I V ε β) : (ofCall (.ok a) >>= f) = f a := rfl

variable [DecidableEq I]

/-- The whole program, undisturbed. -/
def run : Program I V ε α → (I → V) → Except ε (α × (I → V))
  | ret a, s => .ok (a, s)
  | fail e, _ => .error e
  | read i next, s => run (next (s i)) s
  | update i f next, s => run next (Function.update s i (f (s i)))

/-- The next access. -/
def access : Program I V ε α → (I → V) → Option (Program I V ε α × (I → V))
  | ret _, _ => none
  | fail _, _ => none
  | read i next, s => some (next (s i), s)
  | update i f next, s => some (next, Function.update s i (f (s i)))

@[simp] theorem run_pure (a : α) (s : I → V) : run (pure a : Program I V ε α) s = .ok (a, s) := rfl

@[simp] theorem run_ofCall (x : Except ε α) (s : I → V) :
    run (ofCall x : Program I V ε α) s = x >>= fun a => .ok (a, s) := by
  cases x with
  | error e => rfl
  | ok a => rfl

@[simp] theorem run_bind (p : Program I V ε α) (f : α → Program I V ε β) (s : I → V) :
    run (p >>= f) s = run p s >>= fun r => run (f r.1) r.2 := by
  induction p generalizing s with
  | ret a => rfl
  | fail e => rfl
  | read i next ih => exact ih (s i) s
  | update i g next ih => exact ih _

theorem run_access {p p' : Program I V ε α} {s s' : I → V} (h : p.access s = some (p', s')) :
    run p' s' = run p s := by
  cases p with
  | ret a => cases h
  | fail e => cases h
  | read i next =>
    cases h
    rfl
  | update i f next =>
    cases h
    rfl

/-! ## The cells a program uses -/

/-- It reads cells in `R` only, and updates cells in `W` only. -/
def Uses (R W : I → Prop) : Program I V ε α → Prop
  | ret _ => True
  | fail _ => True
  | read i next => R i ∧ ∀ v, Uses R W (next v)
  | update i _ next => W i ∧ Uses R W next

variable {R W : I → Prop}

omit [DecidableEq I] in
theorem uses_ofCall (x : Except ε α) : Uses R W (ofCall x : Program I V ε α) := by
  cases x with
  | error e => trivial
  | ok a => trivial

omit [DecidableEq I] in
theorem Uses.bind {p : Program I V ε α} {f : α → Program I V ε β} (hp : Uses R W p) (hf : ∀ a, Uses R W (f a)) :
    Uses R W (p >>= f) := by
  induction p with
  | ret a => exact hf a
  | fail e => trivial
  | read i next ih => exact ⟨hp.1, fun v => ih v (hp.2 v)⟩
  | update i g next ih => exact ⟨hp.1, ih hp.2⟩

theorem Uses.access {p p' : Program I V ε α} {s s' : I → V} (hp : Uses R W p) (h : p.access s = some (p', s')) :
    Uses R W p' := by
  cases p with
  | ret a => cases h
  | fail e => cases h
  | read i next =>
    cases h
    exact hp.2 (s i)
  | update i f next =>
    cases h
    exact hp.2

/-- What is not updated keeps its value. -/
theorem Uses.frame {p : Program I V ε α} {s s' : I → V} {a : α} (hp : Uses R W p) (h : run p s = .ok (a, s'))
    {i : I} (hi : ¬ W i) : s' i = s i := by
  induction p generalizing s with
  | ret b =>
    cases h
    rfl
  | fail e => cases h
  | read j next ih => exact ih (s j) (hp.2 (s j)) h
  | update j f next ih =>
    have hne : i ≠ j := by
      rintro rfl
      exact hi hp.1
    rw [ih hp.2 h, Function.update_of_ne hne]

/-- The next access of a program that only reads: the store stays, and wherever what it reads is the same the
program goes on to the same end. -/
theorem Uses.access_reads {p p' : Program I V ε α} {s s' : I → V} (hp : Uses R (fun _ => False) p)
    (h : p.access s = some (p', s')) : s' = s ∧ ∀ s₁, (∀ i, R i → s₁ i = s i) → run p' s₁ = run p s₁ := by
  cases p with
  | ret a => cases h
  | fail e => cases h
  | read i next =>
    cases h
    refine ⟨rfl, fun s₁ hs => ?_⟩
    rw [← hs i hp.1]
    rfl
  | update i f next => exact absurd hp.1 id

end Program

end Interleaving
