import Mathlib.Data.Finmap
import Mathlib.Data.Finset.Card

/-! # A table of slots as a finite map

A table has `n` slots, each empty or with a key and a value, and no key stands in two slots. Filling a slot under a key
that stands in no other is an insertion, emptying one is an erasure, and the map has as many keys as slots are used. -/
set_option autoImplicit false

namespace SlotTable

variable {K V : Type} {slots slots' : ℕ → Option (K × V)} {n i : ℕ} {k : K} {v : V}

/-- No key stands in two slots, and the map has what the slots have. -/
structure Holds [DecidableEq K] (slots : ℕ → Option (K × V)) (n : ℕ) (m : Finmap fun _ : K => V) : Prop where
  distinct : ∀ i < n, ∀ j < n, ∀ k v w, slots i = some (k, v) → slots j = some (k, w) → i = j
  lookup_iff : ∀ k v, m.lookup k = some v ↔ ∃ i < n, slots i = some (k, v)

namespace Holds

variable [DecidableEq K] {m : Finmap fun _ : K => V}

theorem lookup (h : Holds slots n m) (hi : i < n) (hs : slots i = some (k, v)) : m.lookup k = some v :=
  (h.lookup_iff k v).mpr ⟨i, hi, hs⟩

theorem mem_iff (h : Holds slots n m) : k ∈ m ↔ ∃ i < n, ∃ v, slots i = some (k, v) := by
  rw [Finmap.mem_iff]
  constructor
  · rintro ⟨v, hv⟩
    obtain ⟨i, hi, hs⟩ := (h.lookup_iff k v).mp hv
    exact ⟨i, hi, v, hs⟩
  · rintro ⟨i, hi, v, hs⟩
    exact ⟨v, h.lookup hi hs⟩

/-- A slot is filled under a key that stands in no other slot; if it was used, then under the same key. -/
theorem put (h : Holds slots n m) (hi : i < n) (hother : ∀ j < n, j ≠ i → ∀ w, slots j ≠ some (k, w))
    (hsame : ∀ k' w, slots i = some (k', w) → k' = k) (hnew : slots' i = some (k, v))
    (heq : ∀ j < n, j ≠ i → slots' j = slots j) : Holds slots' n (m.insert k v) where
  distinct j hj l hl k' w w' hw hw' := by
    by_cases hji : j = i
    · subst hji
      by_cases hlj : l = j
      · exact hlj.symm
      · have hk : k' = k := (Prod.mk.inj (Option.some.inj (hnew.symm.trans hw))).1.symm
        exact absurd ((heq l hl hlj).symm.trans (hk ▸ hw')) (hother l hl hlj w')
    · by_cases hli : l = i
      · subst hli
        have hk : k' = k := (Prod.mk.inj (Option.some.inj (hnew.symm.trans hw'))).1.symm
        exact absurd ((heq j hj hji).symm.trans (hk ▸ hw)) (hother j hj hji w)
      · exact h.distinct j hj l hl k' w w' ((heq j hj hji).symm.trans hw) ((heq l hl hli).symm.trans hw')
  lookup_iff k' w := by
    by_cases hk : k' = k
    · subst hk
      rw [Finmap.lookup_insert]
      constructor
      · intro hv
        exact ⟨i, hi, hnew.trans (by rw [Option.some.inj hv])⟩
      · rintro ⟨j, hj, hw⟩
        by_cases hji : j = i
        · subst hji
          rw [(Prod.mk.inj (Option.some.inj (hnew.symm.trans hw))).2]
        · exact absurd ((heq j hj hji).symm.trans hw) (hother j hj hji w)
    · rw [Finmap.lookup_insert_of_ne _ hk, h.lookup_iff]
      constructor
      · rintro ⟨j, hj, hw⟩
        have hji : j ≠ i := by
          rintro rfl
          exact hk (hsame k' w hw)
        exact ⟨j, hj, (heq j hj hji).trans hw⟩
      · rintro ⟨j, hj, hw⟩
        have hji : j ≠ i := by
          rintro rfl
          exact hk (Prod.mk.inj (Option.some.inj (hnew.symm.trans hw))).1.symm
        exact ⟨j, hj, (heq j hj hji).symm.trans hw⟩

theorem empty_slot (h : Holds slots n m) (hi : i < n) (hold : slots i = some (k, v)) (hnew : slots' i = none)
    (heq : ∀ j < n, j ≠ i → slots' j = slots j) : Holds slots' n (m.erase k) where
  distinct j hj l hl k' w w' hw hw' := by
    have hji : j ≠ i := by
      rintro rfl
      rw [hnew] at hw
      cases hw
    have hli : l ≠ i := by
      rintro rfl
      rw [hnew] at hw'
      cases hw'
    exact h.distinct j hj l hl k' w w' ((heq j hj hji).symm.trans hw) ((heq l hl hli).symm.trans hw')
  lookup_iff k' w := by
    have hused : (∃ j < n, slots' j = some (k', w)) ↔ ∃ j < n, j ≠ i ∧ slots j = some (k', w) := by
      refine exists_congr fun j => and_congr_right fun hj => ?_
      by_cases hji : j = i
      · subst hji
        simp [hnew]
      · simp [heq j hj hji, hji]
    rw [hused]
    by_cases hk : k' = k
    · subst hk
      rw [Finmap.lookup_erase]
      constructor
      · intro hv
        cases hv
      · rintro ⟨j, hj, hji, hw⟩
        exact absurd (h.distinct j hj i hi _ _ _ hw hold) hji
    · rw [Finmap.lookup_erase_ne hk, h.lookup_iff]
      refine exists_congr fun j => and_congr_right fun hj => ⟨fun hw => ⟨?_, hw⟩, And.right⟩
      rintro rfl
      exact hk (Prod.mk.inj (Option.some.inj (hw.symm.trans hold))).1

/-- The map has as many keys as slots are used. -/
theorem card_keys (h : Holds slots n m) :
    ((Finset.range n).filter fun i => (slots i).isSome).card = m.keys.card := by
  refine Finset.card_bij (fun i hi => ((slots i).get (Finset.mem_filter.mp hi).2).1) (fun i hi => ?_)
    (fun i hi j hj hij => ?_) (fun k hk => ?_)
  · obtain ⟨hlt, hsome⟩ := Finset.mem_filter.mp hi
    rw [Finmap.mem_keys]
    exact h.mem_iff.mpr ⟨i, Finset.mem_range.mp hlt, _, (Option.some_get hsome).symm⟩
  · obtain ⟨hlt, hsome⟩ := Finset.mem_filter.mp hi
    obtain ⟨hlt', hsome'⟩ := Finset.mem_filter.mp hj
    have hi' : slots i = some (((slots i).get hsome).1, ((slots i).get hsome).2) := (Option.some_get hsome).symm
    have hj' : slots j = some (((slots j).get hsome').1, ((slots j).get hsome').2) := (Option.some_get hsome').symm
    rw [← hij] at hj'
    exact h.distinct i (Finset.mem_range.mp hlt) j (Finset.mem_range.mp hlt') _ _ _ hi' hj'
  · obtain ⟨i, hi, v, hs⟩ := h.mem_iff.mp (Finmap.mem_keys.mp hk)
    refine ⟨i, Finset.mem_filter.mpr ⟨Finset.mem_range.mpr hi, by rw [hs]; rfl⟩, ?_⟩
    simp [hs]

theorem full_iff (h : Holds slots n m) : n ≤ m.keys.card ↔ ∀ i < n, (slots i).isSome = true := by
  rw [← h.card_keys]
  have hle := Finset.card_filter_le (Finset.range n) fun i => (slots i).isSome
  rw [Finset.card_range] at hle
  constructor
  · intro hn i hi
    have hall : (Finset.range n).filter (fun i => (slots i).isSome) = Finset.range n :=
      Finset.eq_of_subset_of_card_le (Finset.filter_subset _ _) (by rwa [Finset.card_range])
    have hmem := Finset.mem_range.mpr hi
    rw [← hall] at hmem
    exact (Finset.mem_filter.mp hmem).2
  · intro hall
    rw [Finset.filter_true_of_mem fun i hi => hall i (Finset.mem_range.mp hi), Finset.card_range]

end Holds

end SlotTable
