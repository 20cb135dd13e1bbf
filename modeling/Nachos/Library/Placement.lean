import Mathlib.Data.Set.Card
import Mathlib.Tactic.Common

/-! # Keys placed in exclusive cells

A key is either placed in a cell or not; `Exclusive` says that the cells in use are not shared. What a
key holds is then the contents of its cell, or what backs it up while it has none, and neither the
placing of another key nor a store into another cell changes it. `Accounted` adds that no cell is in use
without a key; then there are as many cells in use as keys that are placed. -/
set_option autoImplicit false

namespace Placement

variable {κ ρ δ : Type}

/-- Every place taken is in use, by one key. -/
structure Exclusive (place : κ → Option ρ) (used : ρ → Prop) : Prop where
  used : ∀ {k r}, place k = some r → used r
  inj : ∀ {k k' r}, place k = some r → place k' = some r → k = k'

variable {place place' : κ → Option ρ} {used used' : ρ → Prop}

theorem Exclusive.restrict (h : Exclusive place used) (hsub : ∀ k r, place' k = some r → place k = some r) :
    Exclusive place' used where
  used hk := h.used (hsub _ _ hk)
  inj hk hk' := h.inj (hsub _ _ hk) (hsub _ _ hk')

theorem Exclusive.take [DecidableEq κ] (h : Exclusive place used) (k : κ) {r : ρ} (hfree : ¬ used r)
    (hr : used' r) (hmono : ∀ r', used r' → used' r') :
    Exclusive (Function.update place k (some r)) used' := by
  have hold : ∀ {k' r'}, k' ≠ k → Function.update place k (some r) k' = some r' → place k' = some r' := by
    intro k' r' hne hk'
    rwa [Function.update_of_ne hne] at hk'
  have hnew : ∀ {r'}, Function.update place k (some r) k = some r' → r' = r := by
    intro r' hk
    rw [Function.update_self] at hk
    exact (Option.some.inj hk).symm
  constructor
  · intro k' r' hk'
    by_cases hne : k' = k
    · subst hne
      rw [hnew hk']
      exact hr
    · exact hmono r' (h.used (hold hne hk'))
  · intro k1 k2 r' h1 h2
    by_cases e1 : k1 = k
    · by_cases e2 : k2 = k
      · rw [e1, e2]
      · subst e1
        rw [hnew h1] at h2
        exact absurd (h.used (hold e2 h2)) hfree
    · by_cases e2 : k2 = k
      · subst e2
        rw [hnew h2] at h1
        exact absurd (h.used (hold e1 h1)) hfree
      · exact h.inj (hold e1 h1) (hold e2 h2)

theorem Exclusive.release [DecidableEq κ] (h : Exclusive place used) {k : κ} {r : ρ} (hk : place k = some r)
    (hused : ∀ r', used r' → r' ≠ r → used' r') : Exclusive (Function.update place k none) used' := by
  have hold : ∀ {k' r'}, Function.update place k none k' = some r' → k' ≠ k ∧ place k' = some r' := by
    intro k' r' hk'
    by_cases hne : k' = k
    · subst hne
      rw [Function.update_self] at hk'
      cases hk'
    · rw [Function.update_of_ne hne] at hk'
      exact ⟨hne, hk'⟩
  constructor
  · intro k' r' hk'
    obtain ⟨hne, hk'⟩ := hold hk'
    refine hused r' (h.used hk') ?_
    rintro rfl
    exact hne (h.inj hk' hk)
  · intro k1 k2 r' h1 h2
    exact h.inj (hold h1).2 (hold h2).2

theorem Exclusive.move [DecidableEq κ] (h : Exclusive place used) {k k' : κ} {r : ρ} (hk : place k = some r) :
    Exclusive (Function.update (Function.update place k none) k' (some r)) used := by
  have hreleased : Exclusive (Function.update place k none) fun r' => used r' ∧ r' ≠ r :=
    h.release hk fun r' hr' hne => ⟨hr', hne⟩
  exact hreleased.take k' (fun hr => hr.2 rfl) (h.used hk) fun r' hr' => hr'.1

/-! ## No cell in use without a key -/

structure Accounted (place : κ → Option ρ) (inUse : ρ → Prop) : Prop extends Exclusive place inUse where
  held : ∀ {r}, inUse r → ∃ k, place k = some r

theorem Accounted.take [DecidableEq κ] (h : Accounted place used) {k : κ} (hk : place k = none) {r : ρ}
    (hfree : ¬ used r) (hused : ∀ r', used' r' ↔ used r' ∨ r' = r) :
    Accounted (Function.update place k (some r)) used' where
  toExclusive := h.toExclusive.take k hfree ((hused r).mpr (Or.inr rfl)) fun r' hr' => (hused r').mpr (Or.inl hr')
  held := by
    intro r' hr'
    rcases (hused r').mp hr' with hold | rfl
    · obtain ⟨k', hk'⟩ := h.held hold
      have hne : k' ≠ k := by
        rintro rfl
        rw [hk] at hk'
        cases hk'
      exact ⟨k', by rwa [Function.update_of_ne hne]⟩
    · exact ⟨k, Function.update_self _ _ _⟩

theorem Accounted.release [DecidableEq κ] (h : Accounted place used) {k : κ} {r : ρ} (hk : place k = some r)
    (hused : ∀ r', used' r' ↔ used r' ∧ r' ≠ r) : Accounted (Function.update place k none) used' where
  toExclusive := h.toExclusive.release hk fun r' hr' hne => (hused r').mpr ⟨hr', hne⟩
  held := by
    intro r' hr'
    obtain ⟨hr', hne⟩ := (hused r').mp hr'
    obtain ⟨k', hk'⟩ := h.held hr'
    have hkk : k' ≠ k := by
      rintro rfl
      rw [hk] at hk'
      exact hne (Option.some.inj hk').symm
    exact ⟨k', by rwa [Function.update_of_ne hkk]⟩

theorem Accounted.move [DecidableEq κ] (h : Accounted place used) {k k' : κ} {r : ρ} (hk : place k = some r)
    (hk' : place k' = none) :
    Accounted (Function.update (Function.update place k none) k' (some r)) used := by
  have hreleased : Accounted (Function.update place k none) fun r' => used r' ∧ r' ≠ r :=
    h.release hk fun _ => Iff.rfl
  have hne : k' ≠ k := by
    rintro rfl
    rw [hk] at hk'
    cases hk'
  apply hreleased.take
  · rwa [Function.update_of_ne hne]
  · exact fun hr => hr.2 rfl
  · intro r'
    constructor
    · intro hr'
      by_cases hrr : r' = r
      · exact Or.inr hrr
      · exact Or.inl ⟨hr', hrr⟩
    · rintro (⟨hr', -⟩ | rfl)
      · exact hr'
      · exact h.used hk

/-- As many cells in use as keys that are placed. -/
theorem Accounted.encard_eq (h : Accounted place used) :
    {r | used r}.encard = {k | place k ≠ none}.encard := by
  have himage : place '' {k | place k ≠ none} = some '' {r | used r} := by
    ext p
    constructor
    · rintro ⟨k, hk, rfl⟩
      obtain ⟨r, hr⟩ := Option.ne_none_iff_exists'.mp hk
      exact ⟨r, h.used hr, hr.symm⟩
    · rintro ⟨r, hr, rfl⟩
      obtain ⟨k, hk⟩ := h.held hr
      exact ⟨k, by simp [hk], hk⟩
  have hinj : Set.InjOn place {k | place k ≠ none} := by
    intro k hk k' _ heq
    obtain ⟨r, hr⟩ := Option.ne_none_iff_exists'.mp hk
    exact h.inj hr (heq ▸ hr)
  rw [← (Option.some_injective ρ).encard_image, ← himage, hinj.encard_image]

/-! ## What a key holds -/

/-- The contents of the cell a key is placed in, or what backs it up while it has none. -/
def view (place : κ → Option ρ) (cell : ρ → δ) (backing : κ → δ) (k : κ) : δ :=
  (place k).elim (backing k) cell

variable {cell cell' : ρ → δ} {backing : κ → δ} {k : κ} {r : ρ}

theorem view_some (h : place k = some r) : view place cell backing k = cell r := by
  rw [view, h, Option.elim_some]

theorem view_none (h : place k = none) : view place cell backing k = backing k := by
  rw [view, h, Option.elim_none]

/-- Keys may be given cells that are filled with what backs them up. -/
theorem view_extend (hold : ∀ k r, place k = some r → place' k = some r ∧ cell' r = cell r)
    (hnew : ∀ k r, place k = none → place' k = some r → cell' r = backing k) :
    view place' cell' backing = view place cell backing := by
  funext k
  cases hk : place k with
  | some r => rw [view_some hk, view_some (hold k r hk).1, (hold k r hk).2]
  | none =>
    rw [view_none hk]
    cases hk' : place' k with
    | some r => rw [view_some hk', hnew k r hk hk']
    | none => rw [view_none hk']

theorem view_write [DecidableEq κ] [DecidableEq ρ] (h : Exclusive place used) (hk : place k = some r) (c : δ) :
    view place (Function.update cell r c) backing = Function.update (view place cell backing) k c := by
  funext k'
  by_cases hkk : k' = k
  · subst hkk
    rw [view_some hk, Function.update_self, Function.update_self]
  · rw [Function.update_of_ne hkk]
    cases hk' : place k' with
    | some r' =>
      have hne : r' ≠ r := by
        rintro rfl
        exact hkk (h.inj hk' hk)
      rw [view_some hk', view_some hk', Function.update_of_ne hne]
    | none => rw [view_none hk', view_none hk']

/-- Where the keys are pairs, a cell is written by changing one function of many. -/
theorem view_write_pair {ι α : Type} [DecidableEq ι] [DecidableEq α] [DecidableEq ρ] {place : ι × α → Option ρ}
    {backing : ι × α → δ} (h : Exclusive place used) {i : ι} {x : α} (hk : place (i, x) = some r) (c : δ) :
    (fun j y => view place (Function.update cell r c) backing (j, y)) =
      Function.update (fun j y => view place cell backing (j, y)) i
        (Function.update (fun y => view place cell backing (i, y)) x c) := by
  funext j y
  rw [view_write h hk c]
  by_cases hj : j = i
  · subst hj
    rw [Function.update_self]
    by_cases hy : y = x
    · subst hy
      rw [Function.update_self, Function.update_self]
    · have hne : (j, y) ≠ (j, x) := fun heq => hy (Prod.mk.inj heq).2
      rw [Function.update_of_ne hne, Function.update_of_ne hy]
  · have hne : (j, y) ≠ (i, x) := fun heq => hj (Prod.mk.inj heq).1
    rw [Function.update_of_ne hne, Function.update_of_ne hj]

end Placement
