import Mathlib.Data.Multiset.Range
import Mathlib.Logic.Equiv.Basic
import Mathlib.Tactic.Common

/-! # Binary heaps as the C++ standard library keeps them

`push_heap` and `pop_heap` move a hole through the array instead of swapping entries: down to a leaf, always to the
child that is not after its sibling, and up again past every entry that is after the value to be put in. `comp x y` says
that `x` comes after `y`. The order `R` of the heap is a parameter: it is kept where what `comp` says is `Right` for it. -/
set_option autoImplicit false

namespace BinaryHeap

variable {α : Type}

/-- Entry `i` hangs below entry `(i - 1) / 2`. -/
def parent (i : ℕ) : ℕ := (i - 1) / 2

theorem parent_lt {i : ℕ} (hi : 0 < i) : parent i < i := by
  unfold parent
  omega

/-! ## The operations -/

section Operations

variable (comp : α → α → Bool)

/-- `__push_heap`: the hole goes up as long as its parent comes after the value. -/
def siftUp (value : α) : ℕ → ℕ → (ℕ → α) → ℕ → α
  | 0, hole, a => Function.update a hole value
  | fuel + 1, hole, a =>
    if 0 < hole ∧ comp (a (parent hole)) value = true then
      siftUp value fuel (parent hole) (Function.update a hole (a (parent hole)))
    else Function.update a hole value

/-- The child that the hole goes to: the right one, unless it comes after the left one. -/
def child (a : ℕ → α) (hole : ℕ) : ℕ :=
  if comp (a (2 * (hole + 1))) (a (2 * (hole + 1) - 1)) = true then 2 * (hole + 1) - 1 else 2 * (hole + 1)

/-- The loop of `__adjust_heap`: the hole goes down as long as it has two children. -/
def siftDown (len : ℕ) : ℕ → ℕ → (ℕ → α) → ℕ × (ℕ → α)
  | 0, hole, a => (hole, a)
  | fuel + 1, hole, a =>
    if hole < (len - 1) / 2 then
      siftDown len fuel (child comp a hole) (Function.update a hole (a (child comp a hole)))
    else (hole, a)

/-- `__adjust_heap`, with the hole at the top. -/
def adjustHeap (a : ℕ → α) (len : ℕ) (value : α) : ℕ → α :=
  let (hole, a) := siftDown comp len len 0 a
  if len % 2 = 0 ∧ hole = (len - 2) / 2 then
    siftUp comp value (2 * (hole + 1) - 1) (2 * (hole + 1) - 1) (Function.update a hole (a (2 * (hole + 1) - 1)))
  else siftUp comp value hole hole a

end Operations

/-- `std::priority_queue`, with the vector `c`. -/
structure PriorityQueue (α : Type) where
  size : ℕ
  c : ℕ → α

namespace PriorityQueue

def push (comp : α → α → Bool) (q : PriorityQueue α) (x : α) : PriorityQueue α :=
  ⟨q.size + 1, siftUp comp x q.size q.size (Function.update q.c q.size x)⟩

def top (q : PriorityQueue α) : α := q.c 0

def pop (comp : α → α → Bool) (q : PriorityQueue α) : PriorityQueue α :=
  ⟨q.size - 1, if 1 < q.size then
    adjustHeap comp (Function.update q.c (q.size - 1) (q.c 0)) (q.size - 1) (q.c (q.size - 1)) else q.c⟩

end PriorityQueue

/-! ## The contents -/

def contents (n : ℕ) (a : ℕ → α) : Multiset α := (Multiset.range n).map a

theorem mem_contents {n : ℕ} {a : ℕ → α} {x : α} : x ∈ contents n a ↔ ∃ i < n, a i = x := by
  simp [contents]

theorem contents_congr {n : ℕ} {a b : ℕ → α} (h : ∀ i < n, a i = b i) : contents n a = contents n b :=
  Multiset.map_congr rfl fun i hi => h i (Multiset.mem_range.mp hi)

theorem contents_succ (n : ℕ) (a : ℕ → α) : contents (n + 1) a = a n ::ₘ contents n a := by
  simp [contents, Multiset.range_succ]

theorem contents_swap {n i j : ℕ} (hi : i < n) (hj : j < n) (a : ℕ → α) :
    contents n (a ∘ Equiv.swap i j) = contents n a := by
  have hrange : (Multiset.range n).map (Equiv.swap i j) = Multiset.range n := by
    refine Multiset.Nodup.ext ((Multiset.nodup_range n).map (Equiv.swap i j).injective) (Multiset.nodup_range n) |>.mpr ?_
    intro k
    have hbound : ∀ m < n, Equiv.swap i j m < n := by
      intro m hm
      rw [Equiv.swap_apply_def]
      split
      · exact hj
      · split
        · exact hi
        · exact hm
    rw [Multiset.mem_map, Multiset.mem_range]
    constructor
    · rintro ⟨m, hm, rfl⟩
      exact hbound m (Multiset.mem_range.mp hm)
    · intro hk
      exact ⟨Equiv.swap i j k, Multiset.mem_range.mpr (hbound k hk), Equiv.swap_apply_self i j k⟩
  unfold contents
  rw [← Multiset.map_map, hrange]

/-- The hole goes from `i` to `j`. -/
theorem contents_move {n i j : ℕ} (hi : i < n) (hj : j < n) (hij : i ≠ j) (a : ℕ → α) (value : α) :
    contents n (Function.update (Function.update a i (a j)) j value) = contents n (Function.update a i value) := by
  rw [← contents_swap hi hj (Function.update a i value)]
  congr 1
  funext k
  rw [Function.comp_apply, Equiv.swap_apply_def]
  by_cases hkj : k = j
  · rw [hkj, Function.update_self, if_neg (Ne.symm hij), if_pos rfl, Function.update_self]
  · rw [Function.update_of_ne hkj]
    by_cases hki : k = i
    · rw [hki, Function.update_self, if_pos rfl, Function.update_of_ne (Ne.symm hij)]
    · rw [Function.update_of_ne hki, if_neg hki, if_neg hkj, Function.update_of_ne hki]

/-! ## The order -/

def Ordered (R : α → α → Prop) (n : ℕ) (a : ℕ → α) : Prop := ∀ i, 0 < i → i < n → R (a (parent i)) (a i)

/-- What `comp` says of `x` and `y` is right for the order `R`. -/
structure Right (comp : α → α → Bool) (R : α → α → Prop) (x y : α) : Prop where
  after : comp x y = true → R y x
  notAfter : comp x y = false → R x y

/-- All but the hole is in order, also across it, and `comp` is right about the value that will be put in. -/
structure Hole (comp : α → α → Bool) (R : α → α → Prop) (n : ℕ) (value : α) (a : ℕ → α) (hole : ℕ) : Prop where
  lt : hole < n
  ordered : ∀ i, 0 < i → i < n → i ≠ hole → parent i ≠ hole → R (a (parent i)) (a i)
  across : 0 < hole → ∀ i, 0 < i → i < n → parent i = hole → R (a (parent hole)) (a i)
  right : ∀ i < n, i ≠ hole → Right comp R (a i) value

variable {comp : α → α → Bool} {R : α → α → Prop} {n hole : ℕ} {value : α} {a : ℕ → α}

theorem Hole.down (h : Hole comp R n value a hole) {c : ℕ} (h0 : 0 < c) (hlt : c < n) (hc : parent c = hole)
    (hleast : ∀ i, 0 < i → i < n → parent i = hole → i ≠ c → R (a c) (a i)) :
    Hole comp R n value (Function.update a hole (a c)) c := by
  have hne : c ≠ hole := by
    have := parent_lt h0
    omega
  refine ⟨hlt, fun i hi0 hi hic hpc => ?_, fun _ i hi0 hi hpc => ?_, fun i hi hic => ?_⟩
  · by_cases hih : i = hole
    · have hp : parent hole < hole := hih ▸ parent_lt hi0
      rw [hih, Function.update_self, Function.update_of_ne (by omega)]
      exact h.across (by omega) c h0 hlt hc
    · rw [Function.update_of_ne hih]
      by_cases hph : parent i = hole
      · rw [hph, Function.update_self]
        exact hleast i hi0 hi hph hic
      · rw [Function.update_of_ne hph]
        exact h.ordered i hi0 hi hih hph
  · have hih : i ≠ hole := by
      have := parent_lt hi0
      have := parent_lt h0
      omega
    rw [hc, Function.update_self, Function.update_of_ne hih, ← hpc]
    exact h.ordered i hi0 hi hih (by rw [hpc]; exact hne)
  · by_cases hih : i = hole
    · rw [hih, Function.update_self]
      exact h.right c hlt hne
    · rw [Function.update_of_ne hih]
      exact h.right i hi hih

theorem Hole.up (htrans : ∀ x y z, R x y → R y z → R x z) (h : Hole comp R n value a hole) (h0 : 0 < hole)
    (hcomp : comp (a (parent hole)) value = true) :
    Hole comp R n value (Function.update a hole (a (parent hole))) (parent hole) ∧
      ∀ i, 0 < i → i < n → parent i = parent hole → R value (Function.update a hole (a (parent hole)) i) := by
  have hp := parent_lt h0
  have hvalue : R value (a (parent hole)) := (h.right (parent hole) (hp.trans h.lt) (by omega)).after hcomp
  have hsibling : ∀ i, 0 < i → i < n → parent i = parent hole → i ≠ hole → R (a (parent hole)) (a i) := by
    intro i hi0 hi hpi hih
    rw [← hpi]
    exact h.ordered i hi0 hi hih (by omega)
  refine ⟨⟨hp.trans h.lt, fun i hi0 hi hip hpp => ?_, fun hpos i hi0 hi hpi => ?_, fun i hi hip => ?_⟩,
    fun i hi0 hi hpi => ?_⟩
  · have hih : i ≠ hole := by
      rintro rfl
      exact hpp rfl
    rw [Function.update_of_ne hih]
    by_cases hph : parent i = hole
    · rw [hph, Function.update_self]
      exact h.across h0 i hi0 hi hph
    · rw [Function.update_of_ne hph]
      exact h.ordered i hi0 hi hih hph
  · have hpp := parent_lt hpos
    have habove : R (a (parent (parent hole))) (a (parent hole)) :=
      h.ordered (parent hole) hpos (hp.trans h.lt) (by omega) (by omega)
    rw [Function.update_of_ne (by omega)]
    by_cases hih : i = hole
    · rw [hih, Function.update_self]
      exact habove
    · rw [Function.update_of_ne hih]
      exact htrans _ _ _ habove (hsibling i hi0 hi hpi hih)
  · by_cases hih : i = hole
    · rw [hih, Function.update_self]
      exact h.right (parent hole) (hp.trans h.lt) (by omega)
    · rw [Function.update_of_ne hih]
      exact h.right i hi hih
  · by_cases hih : i = hole
    · rw [hih, Function.update_self]
      exact hvalue
    · rw [Function.update_of_ne hih]
      exact htrans _ _ _ hvalue (hsibling i hi0 hi hpi hih)

theorem Hole.fill (h : Hole comp R n value a hole) (hbelow : ∀ i, 0 < i → i < n → parent i = hole → R value (a i))
    (hstop : ¬ (0 < hole ∧ comp (a (parent hole)) value = true)) : Ordered R n (Function.update a hole value) := by
  intro i hi0 hi
  by_cases hih : i = hole
  · have hp := parent_lt hi0
    rw [hih] at hi0 hp ⊢
    rw [Function.update_self, Function.update_of_ne (by omega)]
    refine (h.right (parent hole) (hp.trans h.lt) (by omega)).notAfter ?_
    rw [Bool.eq_false_iff]
    exact fun hcomp => hstop ⟨hi0, hcomp⟩
  · rw [Function.update_of_ne hih]
    by_cases hph : parent i = hole
    · rw [hph, Function.update_self]
      exact hbelow i hi0 hi hph
    · rw [Function.update_of_ne hph]
      exact h.ordered i hi0 hi hih hph

/-! ## The loops -/

theorem siftUp_ordered (htrans : ∀ x y z, R x y → R y z → R x z) {fuel : ℕ} (hfuel : hole ≤ fuel)
    (h : Hole comp R n value a hole) (hbelow : ∀ i, 0 < i → i < n → parent i = hole → R value (a i)) :
    Ordered R n (siftUp comp value fuel hole a) := by
  induction fuel generalizing hole a with
  | zero => exact h.fill hbelow (by omega)
  | succ fuel ih =>
    unfold siftUp
    split
    · next hup =>
      obtain ⟨hhole, hbelow'⟩ := h.up htrans hup.1 hup.2
      exact ih (by have := parent_lt hup.1; omega) hhole hbelow'
    · next hstop => exact h.fill hbelow hstop

theorem siftUp_contents {fuel : ℕ} (hlt : hole < n) :
    contents n (siftUp comp value fuel hole a) = contents n (Function.update a hole value) := by
  induction fuel generalizing hole a with
  | zero => rfl
  | succ fuel ih =>
    unfold siftUp
    split
    · next hup =>
      have hp := parent_lt hup.1
      rw [ih (hp.trans hlt), contents_move hlt (hp.trans hlt) (by omega)]
    · rfl

theorem child_cases (comp : α → α → Bool) (a : ℕ → α) (hole : ℕ) :
    child comp a hole = 2 * hole + 1 ∧ comp (a (2 * hole + 2)) (a (2 * hole + 1)) = true ∨
    child comp a hole = 2 * hole + 2 ∧ comp (a (2 * hole + 2)) (a (2 * hole + 1)) = false := by
  unfold child
  rw [show 2 * (hole + 1) - 1 = 2 * hole + 1 by omega, show 2 * (hole + 1) = 2 * hole + 2 by omega]
  cases comp (a (2 * hole + 2)) (a (2 * hole + 1)) with
  | true => exact Or.inl ⟨rfl, rfl⟩
  | false => exact Or.inr ⟨rfl, rfl⟩

theorem siftDown_hole (fuel : ℕ) (hfuel : n ≤ hole + fuel) (h : Hole comp R n value a hole)
    (hsiblings : ∀ i, hole ≤ i → 2 * i + 2 < n → Right comp R (a (2 * i + 2)) (a (2 * i + 1))) :
    Hole comp R n value (siftDown comp n fuel hole a).2 (siftDown comp n fuel hole a).1 ∧
      ¬ (siftDown comp n fuel hole a).1 < (n - 1) / 2 := by
  induction fuel generalizing hole a with
  | zero => exact ⟨h, by have := h.lt; omega⟩
  | succ fuel ih =>
    unfold siftDown
    split
    · next hdown =>
      have hright := hsiblings hole le_rfl (by omega)
      have hboth : ∀ i, 0 < i → parent i = hole → i = 2 * hole + 1 ∨ i = 2 * hole + 2 := by
        intro i hi0 hpi
        unfold parent at hpi
        omega
      have hbounds : hole < child comp a hole ∧ child comp a hole < n ∧ parent (child comp a hole) = hole := by
        unfold parent
        rcases child_cases comp a hole with ⟨hc, -⟩ | ⟨hc, -⟩
        · omega
        · omega
      have hleast : ∀ i, 0 < i → i < n → parent i = hole → i ≠ child comp a hole → R (a (child comp a hole)) (a i) := by
        intro i hi0 _ hpi hic
        rcases child_cases comp a hole with ⟨hc, hcomp⟩ | ⟨hc, hcomp⟩
        · rw [hc] at hic ⊢
          rw [(hboth i hi0 hpi).resolve_left hic]
          exact hright.after hcomp
        · rw [hc] at hic ⊢
          rw [(hboth i hi0 hpi).resolve_right hic]
          exact hright.notAfter hcomp
      refine ih (by omega) (h.down (by omega) hbounds.2.1 hbounds.2.2 hleast) fun i hi hlt => ?_
      rw [Function.update_of_ne (by omega), Function.update_of_ne (by omega)]
      exact hsiblings i (by omega) hlt
    · next hstop => exact ⟨h, hstop⟩

theorem siftDown_contents (comp : α → α → Bool) (fuel : ℕ) {a : ℕ → α} (hlt : hole < n) (value : α) :
    (siftDown comp n fuel hole a).1 < n ∧
    contents n (Function.update (siftDown comp n fuel hole a).2 (siftDown comp n fuel hole a).1 value) =
      contents n (Function.update a hole value) := by
  induction fuel generalizing hole a with
  | zero => exact ⟨hlt, rfl⟩
  | succ fuel ih =>
    unfold siftDown
    split
    · have hc : hole < child comp a hole ∧ child comp a hole < n := by
        rcases child_cases comp a hole with ⟨hc, -⟩ | ⟨hc, -⟩
        · omega
        · omega
      obtain ⟨hlt', hcontents⟩ := ih (a := Function.update a hole (a (child comp a hole))) hc.2
      exact ⟨hlt', hcontents.trans (contents_move hlt hc.2 (by omega) a value)⟩
    · exact ⟨hlt, rfl⟩

theorem adjustHeap_ordered (htrans : ∀ x y z, R x y → R y z → R x z) (h : Hole comp R n value a 0)
    (hsiblings : ∀ i, 2 * i + 2 < n → Right comp R (a (2 * i + 2)) (a (2 * i + 1))) :
    Ordered R n (adjustHeap comp a n value) := by
  obtain ⟨hhole, hstop⟩ := siftDown_hole n (by omega) h fun i _ hi => hsiblings i hi
  unfold adjustHeap
  generalize siftDown comp n n 0 a = result at hhole hstop
  obtain ⟨hole, b⟩ := result
  simp only at hhole hstop ⊢
  have hlt := hhole.lt
  split
  · next hlast =>
    -- the hole has a left child only
    have hchild : 2 * (hole + 1) - 1 < n ∧ parent (2 * (hole + 1) - 1) = hole := by
      unfold parent
      omega
    refine siftUp_ordered htrans le_rfl (hhole.down (by omega) hchild.1 hchild.2 fun i hi0 hi hpi hne => ?_) ?_
    · unfold parent at hpi
      omega
    · intro i hi0 hi hpi
      unfold parent at hpi
      omega
  · next hleaf =>
    refine siftUp_ordered htrans le_rfl hhole fun i hi0 hi hpi => ?_
    unfold parent at hpi
    omega

theorem adjustHeap_contents (h0 : 0 < n) :
    contents n (adjustHeap comp a n value) = contents n (Function.update a 0 value) := by
  obtain ⟨hlt, hcontents⟩ := siftDown_contents comp n (a := a) h0 value
  unfold adjustHeap
  generalize siftDown comp n n 0 a = result at hlt hcontents
  obtain ⟨hole, b⟩ := result
  simp only at hlt hcontents ⊢
  split
  · next hlast =>
    have hchild : 2 * (hole + 1) - 1 < n := by omega
    rw [siftUp_contents hchild, contents_move hlt hchild (by omega), hcontents]
  · rw [siftUp_contents hlt, hcontents]

/-! ## Priority queues -/

namespace PriorityQueue

variable {q : PriorityQueue α} {x : α}

def items (q : PriorityQueue α) : Multiset α := contents q.size q.c

def InOrder (R : α → α → Prop) (q : PriorityQueue α) : Prop := Ordered R q.size q.c

theorem push_items : (q.push comp x).items = x ::ₘ q.items := by
  unfold items push
  rw [siftUp_contents (Nat.lt_succ_self _), contents_succ, Function.update_self]
  congr 1
  exact contents_congr fun i hi => by rw [Function.update_of_ne (by omega), Function.update_of_ne (by omega)]

theorem pop_items (h0 : 0 < q.size) : q.top ::ₘ (q.pop comp).items = q.items := by
  unfold items pop top
  obtain ⟨m, hm⟩ := Nat.exists_eq_succ_of_ne_zero (Nat.ne_of_gt h0)
  dsimp only
  rw [hm, Nat.succ_sub_one, contents_succ]
  split
  · next hmany =>
    rw [adjustHeap_contents (by omega)]
    -- the last entry takes the place of the first one
    have hswap := contents_move (n := m + 1) (i := 0) (j := m) (by omega) (by omega) (by omega) q.c (q.c 0)
    rw [Function.update_eq_self, contents_succ, contents_succ, Function.update_self] at hswap
    rw [← hswap]
    congr 1
    refine contents_congr fun i hi => ?_
    rw [Function.update_of_ne (show i ≠ m by omega)]
    by_cases hi0 : i = 0
    · rw [hi0, Function.update_self, Function.update_self]
    · rw [Function.update_of_ne hi0, Function.update_of_ne hi0, Function.update_of_ne (by omega)]
  · next hone =>
    have hm0 : m = 0 := by omega
    rw [hm0]

theorem push_inOrder (htrans : ∀ x y z, R x y → R y z → R x z) (h : q.InOrder R)
    (hnew : ∀ i < q.size, Right comp R (q.c i) x) : (q.push comp x).InOrder R := by
  unfold InOrder push
  dsimp only
  refine siftUp_ordered htrans le_rfl ⟨Nat.lt_succ_self _, fun i hi0 hi hne hpi => ?_, fun _ i hi0 hi hpi => ?_,
    fun i hi hne => ?_⟩ fun i hi0 hi hpi => ?_
  · rw [Function.update_of_ne hne, Function.update_of_ne hpi]
    exact h i hi0 (by omega)
  · have := parent_lt hi0
    omega
  · rw [Function.update_of_ne hne]
    exact hnew i (by omega)
  · have := parent_lt hi0
    omega

/-- `pop` keeps an order for which `comp` is right about the siblings in the rest of the heap, and about all entries
and the last one. -/
theorem pop_inOrder (htrans : ∀ x y z, R x y → R y z → R x z) (h : q.InOrder R)
    (hsiblings : ∀ i, 2 * i + 2 < q.size - 1 → Right comp R (q.c (2 * i + 2)) (q.c (2 * i + 1)))
    (hlast : ∀ i < q.size - 1, Right comp R (q.c i) (q.c (q.size - 1))) : (q.pop comp).InOrder R := by
  unfold InOrder pop
  dsimp only
  split
  · next hmany =>
    have hrest : ∀ i < q.size - 1, Function.update q.c (q.size - 1) (q.c 0) i = q.c i := fun i hi =>
      Function.update_of_ne (by omega) _ _
    refine adjustHeap_ordered htrans ⟨by omega, fun i hi0 hi _ hpi => ?_, fun hpos => absurd hpos (Nat.lt_irrefl 0),
      fun i hi _ => ?_⟩ fun i hi => ?_
    · rw [hrest i hi, hrest (parent i) (by have := parent_lt hi0; omega)]
      exact h i hi0 (by omega)
    · rw [hrest i hi]
      exact hlast i hi
    · rw [hrest _ hi, hrest _ (by omega)]
      exact hsiblings i hi
  · exact fun i hi0 hi => h i hi0 (by omega)

theorem top_mem (h0 : 0 < q.size) : q.top ∈ q.items := mem_contents.mpr ⟨0, h0, rfl⟩

theorem top_le (hrefl : ∀ x, R x x) (htrans : ∀ x y z, R x y → R y z → R x z) (h : q.InOrder R) (hx : x ∈ q.items) :
    R q.top x := by
  obtain ⟨i, hi, rfl⟩ := mem_contents.mp hx
  clear hx
  induction i using Nat.strong_induction_on with
  | _ i ih =>
    rcases Nat.eq_zero_or_pos i with rfl | hpos
    · exact hrefl _
    · have hp := parent_lt hpos
      exact htrans _ _ _ (ih (parent i) hp (hp.trans hi)) (h i hpos hi)

end PriorityQueue

end BinaryHeap
