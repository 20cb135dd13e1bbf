import Mathlib.Logic.Function.Basic
import Mathlib.Tactic.Common

/-! # Calls that may fail, and the states a system can reach

A call that may not return normally has type `Except ε α`; `bind_eq_ok` takes a chain of such calls
apart, and `returns_bind` says when it comes back. `ReturnsAs x y` says that `y` returns what `x` returns.
`Meets E Q x` says that `x` returns a value with `Q` or fails in a way that `E` admits, and `Meets.bind`
chains such statements. `Reachable init step allowed` are the states reached from an initial state by labelled
steps, each of them allowed in the state in which it is taken; `Reachable.invariant` is the
induction over such a run. `Trace` keeps the labels of the run, and `Trace.simulate` carries it over to
another system that takes the same steps. `Inevitable` is what every run comes to, and `callAll` a sequence
of calls on one object, with `callAll_refines` for an object that answers as another one does. -/
set_option autoImplicit false

namespace Execution

@[simp] theorem ok_bind {ε α β : Type} (a : α) (f : α → Except ε β) :
    (Except.ok a >>= f) = f a := by
  simp only [bind, Except.bind]

@[simp] theorem error_bind {ε α β : Type} (e : ε) (f : α → Except ε β) :
    (Except.error e >>= f) = Except.error e := rfl

@[simp] theorem pure_eq_ok {ε α : Type} (a : α) : (pure a : Except ε α) = .ok a := rfl

theorem bind_eq_ok {ε α β : Type} {x : Except ε α} {f : α → Except ε β} {b : β} :
    x >>= f = .ok b ↔ ∃ a, x = .ok a ∧ f a = .ok b := by
  cases x with
  | error e =>
    constructor
    · intro h
      cases h
    · rintro ⟨a, ha, -⟩
      cases ha
  | ok a =>
    constructor
    · intro h
      exact ⟨a, rfl, h⟩
    · rintro ⟨a', ha, hf⟩
      cases ha
      exact hf

theorem eq_ok_of_toOption {ε α : Type} {x : Except ε α} {a : α} (h : x.toOption = some a) : x = .ok a := by
  cases x with
  | error e => cases h
  | ok b =>
    cases h
    rfl

/-- The call comes back. -/
def Returns {ε α : Type} (x : Except ε α) : Prop := ∃ a, x = .ok a

@[simp] theorem returns_ok {ε α : Type} (a : α) : Returns (.ok a : Except ε α) := ⟨a, rfl⟩

@[simp] theorem returns_pure {ε α : Type} (a : α) : Returns (pure a : Except ε α) := ⟨a, rfl⟩

@[simp] theorem not_returns_error {ε α : Type} (e : ε) : ¬ Returns (.error e : Except ε α) := by
  rintro ⟨a, ha⟩
  cases ha

theorem returns_bind {ε α β : Type} {x : Except ε α} {f : α → Except ε β} :
    Returns (x >>= f) ↔ ∃ a, x = .ok a ∧ Returns (f a) := by
  constructor
  · rintro ⟨b, hb⟩
    obtain ⟨a, ha, hf⟩ := bind_eq_ok.mp hb
    exact ⟨a, ha, b, hf⟩
  · rintro ⟨a, ha, b, hb⟩
    exact ⟨b, bind_eq_ok.mpr ⟨a, ha, hb⟩⟩

/-- A second step that returns or not whatever the first one has given. -/
theorem returns_bind_iff {ε α β : Type} {x : Except ε α} {f : α → Except ε β} {P Q : Prop} (hx : Returns x ↔ P)
    (hf : ∀ a, Returns (f a) ↔ Q) : Returns (x >>= f) ↔ P ∧ Q := by
  rw [returns_bind, ← hx]
  constructor
  · rintro ⟨a, ha, hb⟩
    exact ⟨⟨a, ha⟩, (hf a).mp hb⟩
  · rintro ⟨⟨a, ha⟩, hQ⟩
    exact ⟨a, ha, (hf a).mpr hQ⟩

/-- The value returned, where there is one. -/
def valueOr {ε α : Type} (default : α) : Except ε α → α
  | .ok a => a
  | .error _ => default

theorem eq_ok_valueOr {ε α : Type} {x : Except ε α} (default : α) (h : x.isOk = true) : x = .ok (valueOr default x) := by
  cases x with
  | error e => cases h
  | ok a => rfl

/-! ## Calls that return what another one returns -/

/-- Whatever `x` returns, `y` returns. -/
def ReturnsAs {ε α : Type} (x y : Except ε α) : Prop := ∀ a, x = .ok a → y = .ok a

section ReturnsAs

variable {ε α β : Type} {x y : Except ε α}

theorem ReturnsAs.refl (x : Except ε α) : ReturnsAs x x := fun _ h => h

theorem ReturnsAs.bind {f g : α → Except ε β} (h : ReturnsAs x y) (hf : ∀ a, ReturnsAs (f a) (g a)) :
    ReturnsAs (x >>= f) (y >>= g) := by
  intro b hb
  obtain ⟨a, ha, hfa⟩ := bind_eq_ok.mp hb
  exact bind_eq_ok.mpr ⟨a, h a ha, hf a b hfa⟩

theorem ReturnsAs.ite {p : Prop} [Decidable p] {x' y' : Except ε α} (h : ReturnsAs x y) (h' : ReturnsAs x' y') :
    ReturnsAs (if p then x else x') (if p then y else y') := by
  split
  · exact h
  · exact h'

end ReturnsAs

/-! ## Postconditions -/

/-- The value returned satisfies `Q`, or the failure satisfies `E`. -/
def Meets {ε α : Type} (E : ε → Prop) (Q : α → Prop) : Except ε α → Prop
  | .ok a => Q a
  | .error e => E e

section Meets

variable {ε α β : Type} {E : ε → Prop} {P : α → Prop} {x : Except ε α}

@[simp] theorem meets_ok {Q : α → Prop} (a : α) : Meets E Q (.ok a) ↔ Q a := Iff.rfl

@[simp] theorem meets_error {Q : α → Prop} (e : ε) : Meets E Q (.error e) ↔ E e := Iff.rfl

theorem Meets.bind {Q : β → Prop} {f : α → Except ε β} (hx : Meets E P x)
    (hf : ∀ a, x = .ok a → P a → Meets E Q (f a)) : Meets E Q (x >>= f) := by
  cases x with
  | error e => exact hx
  | ok a =>
    rw [ok_bind]
    exact hf a rfl hx

theorem Meets.mono {Q : α → Prop} (hx : Meets E P x) (h : ∀ a, x = .ok a → P a → Q a) :
    Meets E Q x := by
  cases x with
  | error e => exact hx
  | ok a => exact h a rfl hx

theorem Meets.of_ok {a : α} (hx : Meets E P x) (h : x = .ok a) : P a := by
  subst h
  exact hx

end Meets

/-! ## Runs -/

variable {σ ι : Type}

/-- The states a system reaches by allowed steps. -/
inductive Reachable (init : σ → Prop) (step : σ → ι → σ → Prop) (allowed : σ → ι → Prop) : σ → Prop
  | start {s : σ} (h : init s) : Reachable init step allowed s
  | next {s s' : σ} {l : ι} (h : Reachable init step allowed s) (ha : allowed s l)
      (hs : step s l s') : Reachable init step allowed s'

variable {init : σ → Prop} {step : σ → ι → σ → Prop} {allowed : σ → ι → Prop}

theorem Reachable.mono {allowed' : σ → ι → Prop} (himp : ∀ s l, allowed s l → allowed' s l) {s : σ}
    (h : Reachable init step allowed s) : Reachable init step allowed' s := by
  induction h with
  | start hi => exact .start hi
  | next _ ha hs ih => exact .next ih (himp _ _ ha) hs

theorem Reachable.invariant (Inv : σ → Prop) (h0 : ∀ s, init s → Inv s)
    (h1 : ∀ s l s', Inv s → allowed s l → step s l s' → Inv s') {s : σ}
    (h : Reachable init step allowed s) : Inv s := by
  induction h with
  | start hi => exact h0 _ hi
  | next _ ha hs ih => exact h1 _ _ _ ih ha hs

/-- A run, by the labels of its steps. -/
inductive Trace (init : σ → Prop) (step : σ → ι → σ → Prop) : List ι → σ → Prop
  | start {s : σ} (h : init s) : Trace init step [] s
  | next {ls : List ι} {s s' : σ} {l : ι} (h : Trace init step ls s) (hs : step s l s') :
      Trace init step (ls ++ [l]) s'

theorem Trace.invariant (Inv : σ → Prop) (h0 : ∀ s, init s → Inv s) (h1 : ∀ s l s', Inv s → step s l s' → Inv s')
    {ls : List ι} {s : σ} (h : Trace init step ls s) : Inv s := by
  induction h with
  | start hi => exact h0 _ hi
  | next _ hs ih => exact h1 _ _ _ ih hs

/-- A run goes through a state after each of its first steps. -/
theorem Trace.front {ls : List ι} {s : σ} (h : Trace init step ls s) :
    ∀ before after, ls = before ++ after → ∃ mid, Trace init step before mid := by
  induction h with
  | @start s hi =>
    intro before after hls
    rw [(List.append_eq_nil_iff.mp hls.symm).1]
    exact ⟨s, .start hi⟩
  | @next ls s s' l h hs ih =>
    intro before after hls
    rcases List.eq_nil_or_concat after with rfl | ⟨after, l', rfl⟩
    · rw [List.append_nil] at hls
      exact ⟨s', hls ▸ .next h hs⟩
    · rw [List.concat_eq_append, ← List.append_assoc] at hls
      exact ih before after (List.append_inj_left' hls rfl)

/-- A relation between the states of two systems that every step of the first keeps, if the second takes a
step with the same label. -/
theorem Trace.simulate {τ : Type} {init' : τ → Prop} {step' : τ → ι → τ → Prop} (R : σ → τ → Prop)
    (h0 : ∀ s, init s → ∃ a, init' a ∧ R s a)
    (h1 : ∀ s a l s', R s a → step s l s' → ∃ a', step' a l a' ∧ R s' a') {ls : List ι} {s : σ}
    (h : Trace init step ls s) : ∃ a, Trace init' step' ls a ∧ R s a := by
  induction h with
  | start hi =>
    obtain ⟨a, ha, hR⟩ := h0 _ hi
    exact ⟨a, .start ha, hR⟩
  | next _ hs ih =>
    obtain ⟨a, ha, hR⟩ := ih
    obtain ⟨a', ha', hR'⟩ := h1 _ _ _ _ hR hs
    exact ⟨a', .next ha ha', hR'⟩

/-! ## What every run comes to -/

section Inevitable

variable {move : σ → σ → Prop} {P : σ → Prop}

/-- Every run from the state comes to one with `P` after finitely many moves. -/
inductive Inevitable (move : σ → σ → Prop) (P : σ → Prop) : σ → Prop
  | now {s : σ} (h : P s) : Inevitable move P s
  | later {s : σ} (hmoves : ∃ s', move s s') (hall : ∀ s', move s s' → Inevitable move P s') : Inevitable move P s

/-- The moves stay among states without it. -/
theorem not_inevitable (Inv : σ → Prop) (hnot : ∀ s, Inv s → ¬ P s) (hmove : ∀ s s', Inv s → move s s' → Inv s')
    {s : σ} (h : Inv s) : ¬ Inevitable move P s := by
  intro hinevitable
  induction hinevitable with
  | now hP => exact hnot _ h hP
  | later hmoves _ ih =>
    obtain ⟨s', hs'⟩ := hmoves
    exact ih s' hs' (hmove _ _ h hs')

end Inevitable

/-! ## Sequences of calls -/

section Calls

variable {ε ρ τ : Type}

/-- Calls on an object one after the other, with what each of them returns. -/
def callAll (call : σ → ι → Except ε (ρ × σ)) : σ → List ι → Except ε (List ρ × σ)
  | s, [] => .ok ([], s)
  | s, c :: cs => do
    let (r, s) ← call s c
    let (rs, s) ← callAll call s cs
    return (r :: rs, s)

/-- Calls with their results, where `answer` says which are possible. -/
inductive Answers (answer : τ → ι → ρ → τ → Prop) : τ → List ι → List ρ → τ → Prop
  | nil (a : τ) : Answers answer a [] [] a
  | cons {a a' a'' : τ} {c : ι} {r : ρ} {cs : List ι} {rs : List ρ} (h : answer a c r a')
      (hs : Answers answer a' cs rs a'') : Answers answer a (c :: cs) (r :: rs) a''

/-- An object of which each call returns with an answer that the other one gives. -/
theorem callAll_refines {call : σ → ι → Except ε (ρ × σ)} {answer : τ → ι → ρ → τ → Prop} (R : σ → τ → Prop)
    (hcall : ∀ s a c, R s a → ∃ r s' a', call s c = .ok (r, s') ∧ answer a c r a' ∧ R s' a') {s : σ} {a : τ}
    (h : R s a) (cs : List ι) :
    ∃ rs s' a', callAll call s cs = .ok (rs, s') ∧ Answers answer a cs rs a' ∧ R s' a' := by
  induction cs generalizing s a with
  | nil => exact ⟨[], s, a, rfl, .nil a, h⟩
  | cons c cs ih =>
    obtain ⟨r, s1, a1, hc, hanswer, h1⟩ := hcall s a c h
    obtain ⟨rs, s2, a2, hcs, hanswers, h2⟩ := ih h1
    refine ⟨r :: rs, s2, a2, ?_, .cons hanswer hanswers, h2⟩
    simp only [callAll, hc, hcs, ok_bind, pure_eq_ok]

end Calls

end Execution
