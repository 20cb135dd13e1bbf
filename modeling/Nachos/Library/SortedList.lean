import Mathlib.Data.List.Sort

/-! # Lists sorted by a key

Insertion keeps the list sorted and puts an item behind those of the same key. -/
set_option autoImplicit false

namespace SortedList

variable {α : Type}

structure Element (α : Type) where
  item : α
  key : ℕ
  deriving DecidableEq, Repr

def insert (item : α) (key : ℕ) : List (Element α) → List (Element α)
  | [] => [⟨item, key⟩]
  | x :: rest => if key < x.key then ⟨item, key⟩ :: x :: rest else x :: insert item key rest

/-- In increasing order of the keys. -/
def Sorted (l : List (Element α)) : Prop := l.Pairwise fun x y => x.key ≤ y.key

theorem insert_perm (item : α) (key : ℕ) (l : List (Element α)) : (insert item key l).Perm (⟨item, key⟩ :: l) := by
  induction l with
  | nil => exact .refl _
  | cons x rest ih =>
    unfold insert
    split
    · exact .refl _
    · exact (ih.cons x).trans (.swap _ _ _)

theorem mem_insert {item : α} {key : ℕ} {l : List (Element α)} {y : Element α} :
    y ∈ insert item key l ↔ y = ⟨item, key⟩ ∨ y ∈ l := by
  rw [(insert_perm item key l).mem_iff, List.mem_cons]

theorem Sorted.tail {x : Element α} {l : List (Element α)} (h : Sorted (x :: l)) : Sorted l :=
  (List.pairwise_cons.mp h).2

theorem Sorted.insert {l : List (Element α)} (h : Sorted l) (item : α) (key : ℕ) :
    Sorted (insert item key l) := by
  induction l with
  | nil => exact List.pairwise_singleton _ _
  | cons x rest ih =>
    have hx := (List.pairwise_cons.mp h).1
    unfold SortedList.insert
    split
    · next hlt =>
      refine List.pairwise_cons.mpr ⟨fun y hy => ?_, h⟩
      rcases List.mem_cons.mp hy with rfl | hy
      · exact Nat.le_of_lt hlt
      · exact Nat.le_trans (Nat.le_of_lt hlt) (hx y hy)
    · next hge =>
      refine List.pairwise_cons.mpr ⟨fun y hy => ?_, ih h.tail⟩
      rcases mem_insert.mp hy with rfl | hy
      · exact Nat.le_of_not_lt hge
      · exact hx y hy

/-- Insertion at the front of a list leaves it as it would be with the item as its head, unless another item comes no
later than the key. -/
theorem map_insert_eq_cons_iff {item : α} {key : ℕ} {l : List (Element α)} :
    (insert item key l).map Element.item = item :: l.map Element.item ↔
      ∀ x ∈ l.takeWhile (fun x => x.key ≤ key), x.item = item := by
  induction l with
  | nil => exact ⟨fun _ => nofun, fun _ => rfl⟩
  | cons x rest ih =>
    unfold insert
    split
    · next hlt =>
      rw [List.takeWhile_cons_of_neg (by simpa using hlt)]
      exact ⟨fun _ => nofun, fun _ => rfl⟩
    · next hge =>
      rw [List.takeWhile_cons_of_pos (by simpa using hge), List.forall_mem_cons, ← ih, List.map_cons, List.map_cons,
        List.cons.injEq]
      constructor
      · rintro ⟨rfl, h⟩
        exact ⟨rfl, h⟩
      · rintro ⟨rfl, h⟩
        exact ⟨rfl, h⟩

/-- Among the items of one key the inserted one comes last. -/
theorem Sorted.filter_insert {l : List (Element α)} (h : Sorted l) (item : α) (key k : ℕ) :
    (SortedList.insert item key l).filter (fun x => x.key = k) =
      (l ++ [Element.mk item key]).filter (fun x => x.key = k) := by
  induction l with
  | nil => rfl
  | cons x rest ih =>
    unfold SortedList.insert
    split
    · next hlt =>
      by_cases hkey : key = k
      · have hlater : ∀ y ∈ x :: rest, ¬ y.key = k := by
          intro y hy
          have hle : x.key ≤ y.key := by
            rcases List.mem_cons.mp hy with rfl | hy
            · exact Nat.le_refl _
            · exact (List.pairwise_cons.mp h).1 y hy
          omega
        have hnone : (x :: rest).filter (fun y => y.key = k) = [] := by
          rw [List.filter_eq_nil_iff]
          simpa using hlater
        rw [List.filter_append, List.filter_cons, hnone, List.nil_append, List.filter_cons, List.filter_nil]
      · have hskip : [Element.mk item key].filter (fun y => y.key = k) = [] := by
          rw [List.filter_cons_of_neg (by simpa using hkey), List.filter_nil]
        rw [List.filter_append, hskip, List.append_nil, List.filter_cons_of_neg (by simpa using hkey)]
    · rw [List.cons_append, List.filter_cons, List.filter_cons, ih h.tail]

end SortedList
