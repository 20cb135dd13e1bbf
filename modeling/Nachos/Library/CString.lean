import Nachos.Library.Buffer
import Mathlib.Algebra.GroupWithZero.Nat

/-! # Strings and vectors of strings in a memory

A string in a memory ends with a zero byte. Strings can be packed one below the other, each with room for its zero byte,
and pointed at by consecutive words. `argumentBlock_iff` says when packed strings and the words that point at them make a
vector of strings that ends with a null pointer. -/
set_option autoImplicit false

namespace Buffer

/-- The bytes of the string, and a zero byte after them. -/
def HoldsString (mem : Image) (x : ℕ) (s : List UInt8) : Prop := ∀ o ≤ s.length, mem (x + o) = s.getD o 0

theorem holdsString_congr {mem mem' : Image} {x : ℕ} {s : List UInt8}
    (h : ∀ y, x ≤ y → y ≤ x + s.length → mem' y = mem y) : HoldsString mem' x s ↔ HoldsString mem x s := by
  refine forall_congr' fun o => imp_congr_right fun ho => ?_
  rw [h (x + o) (by omega) (by omega)]

/-! ## Consecutive words -/

def HoldsWords (mem : Image) : ℕ → List (BitVec 32) → Prop
  | _, [] => True
  | x, w :: rest => wordAt mem x = w ∧ HoldsWords mem (x + 4) rest

/-- The words are stored one after the other. -/
def storeWords : ℕ → List (BitVec 32) → Image → Image
  | _, [], mem => mem
  | x, w :: rest, mem => storeWords (x + 4) rest (copy mem x (wordByte w) 4)

theorem storeWords_outside (x : ℕ) (words : List (BitVec 32)) (mem : Image) {y : ℕ}
    (hy : y < x ∨ x + 4 * words.length ≤ y) : storeWords x words mem y = mem y := by
  induction words generalizing x mem with
  | nil => rfl
  | cons w rest ih =>
    rw [List.length_cons] at hy
    unfold storeWords
    rw [ih (x + 4) _ (by omega)]
    exact copy_outside mem _ (by omega)

theorem storeWords_append (x : ℕ) (words more : List (BitVec 32)) (mem : Image) :
    storeWords x (words ++ more) mem = storeWords (x + 4 * words.length) more (storeWords x words mem) := by
  induction words generalizing x mem with
  | nil => rfl
  | cons w rest ih =>
    rw [List.cons_append, List.length_cons, show x + 4 * (rest.length + 1) = x + 4 + 4 * rest.length by omega]
    exact ih (x + 4) _

theorem wordAt_copy (mem : Image) (x : ℕ) (w : BitVec 32) : wordAt (copy mem x (wordByte w) 4) x = w := by
  apply wordAt_of_bytes
  intro k hk
  rw [copy_inside mem _ (by omega) (by omega), Nat.add_sub_cancel_left]

theorem holdsWords_storeWords (x : ℕ) (words : List (BitVec 32)) (mem : Image) :
    HoldsWords (storeWords x words mem) x words := by
  induction words generalizing x mem with
  | nil => trivial
  | cons w rest ih =>
    refine ⟨(wordAt_congr fun k hk => ?_).trans (wordAt_copy mem x w), ih (x + 4) _⟩
    exact storeWords_outside (x + 4) rest _ (by omega)

/-! ## Packed strings -/

/-- The room that the strings take. -/
def packedSize (strs : List (List UInt8)) : ℕ := (strs.map fun s => s.length + 1).sum

theorem packedSize_cons (s : List UInt8) (rest : List (List UInt8)) :
    packedSize (s :: rest) = s.length + 1 + packedSize rest := by
  simp [packedSize]

/-- Where the strings are that are packed below `top`, the first one uppermost. -/
def packedAt : ℕ → List (List UInt8) → List ℕ
  | _, [] => []
  | top, s :: rest => (top - (s.length + 1)) :: packedAt (top - (s.length + 1)) rest

def Packed (mem : Image) : ℕ → List (List UInt8) → Prop
  | _, [] => True
  | top, s :: rest => HoldsString mem (top - (s.length + 1)) s ∧ Packed mem (top - (s.length + 1)) rest

theorem packedAt_length (top : ℕ) (strs : List (List UInt8)) : (packedAt top strs).length = strs.length := by
  induction strs generalizing top with
  | nil => rfl
  | cons s rest ih => exact congrArg Nat.succ (ih _)

theorem packed_congr {mem mem' : Image} {top : ℕ} {strs : List (List UInt8)} (hfits : packedSize strs ≤ top)
    (h : ∀ y, top - packedSize strs ≤ y → y < top → mem' y = mem y) : Packed mem' top strs ↔ Packed mem top strs := by
  induction strs generalizing top with
  | nil => exact Iff.rfl
  | cons s rest ih =>
    rw [packedSize_cons] at hfits h
    refine and_congr (holdsString_congr fun y hy hy' => h y (by omega) (by omega)) ?_
    exact ih (by omega) fun y hy hy' => h y (by omega) (by omega)

/-! ## Vectors -/

/-- From `x` on there are pointers to the strings in order, each of which is below the one before it and the first below
`top`; then comes a null pointer, below them all. -/
def ArgumentBlock (mem : Image) : ℕ → ℕ → List (List UInt8) → Prop
  | x, top, [] => wordAt mem x = 0#32 ∧ x + 4 ≤ top
  | x, top, s :: rest => HoldsString mem (wordAt mem x).toNat s ∧ (wordAt mem x).toNat + s.length + 1 ≤ top ∧
    ArgumentBlock mem (x + 4) (wordAt mem x).toNat rest

theorem argumentBlock_iff {mem : Image} {x top : ℕ} {strs : List (List UInt8)}
    (hwords : HoldsWords mem x ((packedAt top strs).map (BitVec.ofNat 32) ++ [0#32]))
    (hfits : x + 4 * strs.length + 4 + packedSize strs ≤ top) (htop : top < 4294967296) :
    ArgumentBlock mem x top strs ↔ Packed mem top strs := by
  induction strs generalizing x top with
  | nil =>
    rw [List.length_nil] at hfits
    exact iff_of_true ⟨hwords.1, by omega⟩ trivial
  | cons s rest ih =>
    rw [List.length_cons, packedSize_cons] at hfits
    obtain ⟨hword, hrest⟩ := hwords
    have haddr : (wordAt mem x).toNat = top - (s.length + 1) := by
      rw [hword, BitVec.toNat_ofNat]
      omega
    unfold ArgumentBlock Packed
    rw [haddr]
    refine and_congr_right fun _ => ?_
    rw [and_iff_right (by omega)]
    exact ih hrest (by omega) (by omega)

end Buffer
