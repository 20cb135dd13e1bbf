import Mathlib.Data.List.Nodup
import Mathlib.Data.List.Perm.Basic
import Mathlib.Logic.Function.Basic

/-! # Resources owned by slots, and the table that marks them

A fixed list of resources and the resources of `n` slots, each slot owning a list of its own. An
allocation table is `Exact` when no resource occurs twice among them and the marked resources are
those that occur. A slot that owns nothing may be given unmarked resources, and a slot may give back
what it owns. -/
set_option autoImplicit false

namespace Ledger

variable {α : Type}

/-- Everything that is owned. -/
def owned (fixed : List α) (n : ℕ) (own : ℕ → List α) : List α :=
  fixed ++ (List.range n).flatMap own

theorem mem_owned {fixed : List α} {n : ℕ} {own : ℕ → List α} {x : α} :
    x ∈ owned fixed n own ↔ x ∈ fixed ∨ ∃ i < n, x ∈ own i := by
  simp [owned]

theorem owned_congr (fixed : List α) {n : ℕ} {own own' : ℕ → List α} (h : ∀ i < n, own' i = own i) :
    owned fixed n own' = owned fixed n own := by
  unfold owned
  congr 1
  exact List.flatMap_congr fun i hi => h i (List.mem_range.mp hi)

/-- Slot `i` owned nothing; now it owns `own' i`. -/
theorem owned_perm (fixed : List α) {n : ℕ} {own own' : ℕ → List α} {i : ℕ} (hi : i < n)
    (empty : own i = []) (others : ∀ j < n, j ≠ i → own' j = own j) :
    (owned fixed n own').Perm (owned fixed n own ++ own' i) := by
  unfold owned
  rw [List.append_assoc]
  refine List.Perm.append_left fixed ?_
  induction n with
  | zero => omega
  | succ n ih =>
    rw [List.range_succ, List.flatMap_append, List.flatMap_append, List.flatMap_singleton,
      List.flatMap_singleton]
    by_cases hin : i = n
    · subst hin
      have hrest : (List.range i).flatMap own' = (List.range i).flatMap own :=
        List.flatMap_congr fun j hj => by
          have := List.mem_range.mp hj
          exact others j (by omega) (by omega)
      rw [hrest, empty, List.append_nil]
    · rw [others n (by omega) (by omega), List.append_assoc]
      refine ((ih (by omega) fun j hj hne => others j (by omega) hne).append_right _).trans ?_
      rw [List.append_assoc]
      exact List.Perm.append_left _ List.perm_append_comm

/-- The table marks what is owned, and nothing is owned twice. -/
structure Exact (marked : α → Prop) (fixed : List α) (n : ℕ) (own : ℕ → List α) : Prop where
  nodup : (owned fixed n own).Nodup
  marked_iff : ∀ x, marked x ↔ x ∈ owned fixed n own

variable {marked marked' : α → Prop} {fixed : List α} {n : ℕ} {own own' : ℕ → List α} {i : ℕ}

theorem Exact.give (h : Exact marked fixed n own) (hi : i < n) (empty : own i = [])
    (others : ∀ j < n, j ≠ i → own' j = own j) (nodup : (own' i).Nodup)
    (fresh : ∀ x ∈ own' i, ¬ marked x) (hm : ∀ x, marked' x ↔ marked x ∨ x ∈ own' i) :
    Exact marked' fixed n own' := by
  have hperm := owned_perm fixed hi empty others
  refine ⟨hperm.nodup_iff.mpr (List.nodup_append.mpr ⟨h.nodup, nodup, ?_⟩), fun x => ?_⟩
  · rintro a ha b hb rfl
    exact fresh a hb ((h.marked_iff a).mpr ha)
  · rw [hm, hperm.mem_iff, List.mem_append, h.marked_iff]

theorem Exact.takeBack (h : Exact marked fixed n own) (hi : i < n) (empty : own' i = [])
    (others : ∀ j < n, j ≠ i → own' j = own j) (hm : ∀ x, marked' x ↔ marked x ∧ x ∉ own i) :
    Exact marked' fixed n own' := by
  have hperm := owned_perm fixed hi empty fun j hj hne => (others j hj hne).symm
  obtain ⟨hrest, -, hdisj⟩ := List.nodup_append.mp (hperm.nodup_iff.mp h.nodup)
  refine ⟨hrest, fun x => ?_⟩
  rw [hm, h.marked_iff, hperm.mem_iff, List.mem_append]
  constructor
  · rintro ⟨hx | hx, hni⟩
    · exact hx
    · exact absurd hx hni
  · intro hx
    exact ⟨Or.inl hx, fun hxi => hdisj x hx x hxi rfl⟩

/-- Two slots share nothing. -/
theorem Exact.slots_disjoint (h : Exact marked fixed n own) {j : ℕ} (hi : i < n) (hj : j < n)
    (hne : i ≠ j) {x : α} (hx : x ∈ own i) : x ∉ own j := by
  intro hxj
  have hf := (List.nodup_append.mp h.nodup).2.1
  have hpair := (List.nodup_flatMap.mp hf).2
  rcases Nat.lt_or_gt_of_ne hne with hlt | hlt
  · exact List.pairwise_iff_getElem.mp hpair i j (by simpa using hi) (by simpa using hj) hlt
      (by simpa using hx) (by simpa using hxj)
  · exact List.pairwise_iff_getElem.mp hpair j i (by simpa using hj) (by simpa using hi) hlt
      (by simpa using hxj) (by simpa using hx)

theorem Exact.fixed_disjoint (h : Exact marked fixed n own) (hi : i < n) {x : α} (hx : x ∈ fixed) :
    x ∉ own i := by
  intro hxi
  have hmem : x ∈ (List.range n).flatMap own := List.mem_flatMap.mpr ⟨i, List.mem_range.mpr hi, hxi⟩
  exact (List.nodup_append.mp h.nodup).2.2 x hx x hmem rfl

theorem Exact.slot_nodup (h : Exact marked fixed n own) (hi : i < n) : (own i).Nodup :=
  (List.nodup_flatMap.mp (List.nodup_append.mp h.nodup).2.1).1 i (List.mem_range.mpr hi)

end Ledger
