import Mathlib.Data.List.Nodup
import Mathlib.Logic.Function.Iterate

/-! # Rings of linked nodes

`Path next a l b` says that from node `a` the links lead through the nodes of `l` to `b`; a ring is a
path that comes back to its first node. `Path.snoc` is the insertion of a node before the end of a path,
`Path.scan` the loop that searches a ring, and `Path.mem_iff` identifies the nodes of a ring with those
that the links reach. A path with one in the other direction through the same nodes is doubly linked
(`Path.inverse`). -/
set_option autoImplicit false

namespace LinkRing

variable {α : Type} {next : α → α} {a b : α} {l : List α}

def Path (next : α → α) : α → List α → α → Prop
  | a, [], b => next a = b
  | a, x :: l, b => next a = x ∧ Path next x l b

theorem Path.congr {next' : α → α} (h : Path next a l b) (hsame : ∀ y ∈ a :: l, next' y = next y) :
    Path next' a l b := by
  induction l generalizing a with
  | nil => exact (hsame a List.mem_cons_self).trans h
  | cons x l ih =>
    exact ⟨(hsame a List.mem_cons_self).trans h.1, ih h.2 fun y hy => hsame y (List.mem_cons_of_mem _ hy)⟩

theorem getLastD_mem (a : α) (l : List α) : l.getLastD a ∈ a :: l := by
  induction l generalizing a with
  | nil => exact List.mem_cons_self
  | cons x l ih =>
    rw [List.getLastD_cons]
    exact List.mem_cons_of_mem _ (ih x)

/-- A node is put between the last node of a path and its end. -/
theorem Path.snoc [DecidableEq α] (h : Path next a l b) (hnd : (a :: l).Nodup) {x : α} (hx : x ∉ a :: l) :
    Path (Function.update (Function.update next x b) (l.getLastD a) x) a (l ++ [x]) b := by
  induction l generalizing a with
  | nil =>
    have hxa : x ≠ a := fun he => hx (he ▸ List.mem_cons_self)
    exact ⟨Function.update_self _ _ _, (Function.update_of_ne hxa _ _).trans (Function.update_self _ _ _)⟩
  | cons y l ih =>
    have hya := List.nodup_cons.mp hnd
    have hlast : a ≠ l.getLastD y := fun he => hya.1 (he ▸ getLastD_mem y l)
    have hxa : a ≠ x := fun he => hx (he ▸ List.mem_cons_self)
    rw [List.getLastD_cons]
    refine ⟨?_, ih h.2 hya.2 fun hm => hx (List.mem_cons_of_mem _ hm)⟩
    rw [Function.update_of_ne hlast, Function.update_of_ne hxa]
    exact h.1

/-! ## Links in both directions -/

theorem path_concat {x : α} : Path next a (l ++ [x]) b ↔ Path next a l x ∧ next x = b := by
  induction l generalizing a with
  | nil => exact Iff.rfl
  | cons y l ih =>
    rw [List.cons_append]
    unfold Path
    rw [ih, and_assoc]

/-- Another node takes the place of the first one. -/
theorem Path.restart {next' : α → α} {a' : α} (h : Path next a l b) (ha : next' a' = next a)
    (hsame : ∀ y ∈ l, next' y = next y) : Path next' a' l b := by
  cases l with
  | nil => exact ha.trans h
  | cons x l => exact ⟨ha.trans h.1, h.2.congr hsame⟩

theorem Path.inverse {prev : α → α} (h : Path next a l b) (hback : Path prev b l.reverse a) :
    ∀ r ∈ a :: l, prev (next r) = r := by
  induction l generalizing a with
  | nil =>
    intro r hr
    have hnext : next a = b := h
    have hprev : prev b = a := hback
    rw [List.mem_singleton.mp hr, hnext, hprev]
  | cons x l ih =>
    obtain ⟨hnext, hrest⟩ := h
    rw [List.reverse_cons, path_concat] at hback
    obtain ⟨hback, hprev⟩ := hback
    intro r hr
    rcases List.mem_cons.mp hr with rfl | hr
    · rw [hnext, hprev]
    · exact ih hrest hback r hr

/-! ## Searching -/

/-- Follow the links from a node until `p` holds or the next node is `first`; `none` if the fuel runs out. -/
def scan [DecidableEq α] (next : α → α) (p : α → Bool) (first : α) : ℕ → α → Option (Option α)
  | 0, _ => none
  | fuel + 1, a =>
    if p a then some (some a)
    else if next a = first then some none
    else scan next p first fuel (next a)

theorem Path.scan [DecidableEq α] (h : Path next a l b) (hb : b ∉ l) (p : α → Bool) {fuel : ℕ}
    (hf : l.length < fuel) : LinkRing.scan next p b fuel a = some ((a :: l).find? p) := by
  induction l generalizing a fuel with
  | nil =>
    obtain ⟨fuel, rfl⟩ := Nat.exists_eq_succ_of_ne_zero (by omega : fuel ≠ 0)
    have hn : next a = b := h
    cases hp : p a <;> simp [LinkRing.scan, hp, hn]
  | cons x l ih =>
    obtain ⟨fuel, rfl⟩ := Nat.exists_eq_succ_of_ne_zero (by omega : fuel ≠ 0)
    obtain ⟨hn, hrest⟩ := h
    have hxb : x ≠ b := fun he => hb (he ▸ List.mem_cons_self)
    have hlen : l.length < fuel := by
      rw [List.length_cons] at hf
      omega
    have htail := ih hrest (fun hm => hb (List.mem_cons_of_mem _ hm)) hlen
    cases hp : p a with
    | true => simp [LinkRing.scan, hp]
    | false =>
      have hfind : (a :: x :: l).find? p = (x :: l).find? p := by simp [List.find?_cons, hp]
      rw [LinkRing.scan, hp, if_neg (by simp), hn, if_neg hxb, htail, hfind]

/-- The nodes that the search looks at, in order. -/
def visited [DecidableEq α] (next : α → α) (p : α → Bool) (first : α) : ℕ → α → List α
  | 0, _ => []
  | fuel + 1, a =>
    a :: if p a then [] else if next a = first then [] else visited next p first fuel (next a)

theorem Path.visited_initial [DecidableEq α] (h : Path next a l b) (p : α → Bool) (fuel : ℕ) :
    visited next p b fuel a <+: a :: l := by
  induction l generalizing a fuel with
  | nil =>
    have hnext : next a = b := h
    cases fuel with
    | zero => exact List.nil_prefix
    | succ fuel =>
      have hlast : visited next p b (fuel + 1) a = [a] := by
        rw [visited, if_pos hnext, ite_self]
      exact hlast ▸ List.prefix_refl _
  | cons x l ih =>
    obtain ⟨hnext, hrest⟩ := h
    cases fuel with
    | zero => exact List.nil_prefix
    | succ fuel =>
      unfold visited
      rw [List.prefix_cons_inj, hnext]
      split
      · exact List.nil_prefix
      · split
        · exact List.nil_prefix
        · exact ih hrest fuel

/-! ## The nodes of a ring -/

theorem Path.exists_iterate (h : Path next a l b) {r : α} (hr : r ∈ a :: l) : ∃ n, next^[n] a = r := by
  induction l generalizing a with
  | nil => exact ⟨0, (List.mem_singleton.mp hr).symm⟩
  | cons x l ih =>
    rcases List.mem_cons.mp hr with rfl | hr
    · exact ⟨0, rfl⟩
    · obtain ⟨n, hn⟩ := ih h.2 hr
      refine ⟨n + 1, ?_⟩
      rw [Function.iterate_succ_apply, h.1]
      exact hn

theorem Path.next_mem (h : Path next a l b) {y : α} (hy : y ∈ a :: l) : next y ∈ l ∨ next y = b := by
  induction l generalizing a with
  | nil =>
    rw [List.mem_singleton.mp hy]
    exact Or.inr h
  | cons x l ih =>
    rcases List.mem_cons.mp hy with rfl | hy
    · rw [h.1]
      exact Or.inl List.mem_cons_self
    · exact (ih h.2 hy).imp_left (List.mem_cons_of_mem _)

theorem Path.mem_iff (h : Path next a l a) {r : α} : r ∈ a :: l ↔ ∃ n, next^[n] a = r := by
  refine ⟨h.exists_iterate, ?_⟩
  rintro ⟨n, rfl⟩
  induction n with
  | zero => exact List.mem_cons_self
  | succ n ih =>
    rw [Function.iterate_succ_apply']
    rcases h.next_mem ih with hm | he
    · exact List.mem_cons_of_mem _ hm
    · rw [he]
      exact List.mem_cons_self

end LinkRing
