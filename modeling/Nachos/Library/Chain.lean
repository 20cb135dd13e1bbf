import Mathlib.Data.List.Nodup

/-! # Chains of linked nodes

`Chain next p l` says that the links lead from the pointer `p` through the nodes of `l` and end there.
`Chain.link` is the insertion of a node behind another one, `Chain.cons` that of a node in front. -/
set_option autoImplicit false

namespace LinkChain

variable {α : Type} {next next' : α → Option α} {p : Option α} {l : List α}

def Chain (next : α → Option α) : Option α → List α → Prop
  | p, [] => p = none
  | p, a :: l => p = some a ∧ Chain next (next a) l

theorem Chain.head (h : Chain next p l) : p = l.head? := by
  cases l with
  | nil => exact h
  | cons a l => exact h.1

theorem Chain.congr (h : Chain next p l) (hsame : ∀ a ∈ l, next' a = next a) : Chain next' p l := by
  induction l generalizing p with
  | nil => exact h
  | cons a l ih =>
    refine ⟨h.1, ?_⟩
    rw [hsame a List.mem_cons_self]
    exact ih h.2 fun b hb => hsame b (List.mem_cons_of_mem _ hb)

theorem Chain.cons (h : Chain next p l) {x : α} (hx : next' x = p) (hsame : ∀ a ∈ l, next' a = next a) :
    Chain next' (some x) (x :: l) := by
  refine ⟨rfl, ?_⟩
  rw [hx]
  exact h.congr hsame

theorem Chain.link {x z : α} {l₁ l₂ : List α} (h : Chain next p (l₁ ++ z :: l₂)) (hz : next' z = some x)
    (hx : next' x = next z) (hsame : ∀ a ∈ l₁ ++ l₂, next' a = next a) : Chain next' p (l₁ ++ z :: x :: l₂) := by
  induction l₁ generalizing p with
  | nil =>
    refine ⟨h.1, hz, ?_⟩
    rw [hx]
    exact h.2.congr hsame
  | cons a l₁ ih =>
    refine ⟨h.1, ?_⟩
    rw [hsame a List.mem_cons_self]
    exact ih h.2 fun b hb => hsame b (List.mem_cons_of_mem _ hb)

/-- The links behind a node lead to the next one. -/
theorem Chain.next_eq {z : α} {l₁ l₂ : List α} (h : Chain next p (l₁ ++ z :: l₂)) : next z = l₂.head? := by
  induction l₁ generalizing p with
  | nil => exact h.2.head
  | cons a l₁ ih => exact ih h.2

end LinkChain
