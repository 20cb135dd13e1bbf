import Mathlib.Algebra.Group.Nat.Defs
import Mathlib.Logic.Function.Basic
import Mathlib.Tactic.Common

/-! # Byte images and little-endian words

A block of memory is a function from offsets to bytes. `copy` overwrites a range of it by the
bytes of another block; every statement about it is pointwise, so range arguments are left to
`omega`. A 32-bit word occupies four consecutive bytes, least significant first; `wordAt` and
`wordByte` are inverse to each other. -/
set_option autoImplicit false

namespace Buffer

/-- The bytes of a block of memory, by offset. -/
abbrev Image := ℕ → UInt8

/-! ## Copying a range -/

/-- `dst` with the `len` bytes from offset `pos` on replaced by the first `len` bytes of `src`. -/
def copy (dst : Image) (pos : ℕ) (src : Image) (len : ℕ) : Image :=
  fun o => if pos ≤ o ∧ o < pos + len then src (o - pos) else dst o

/-- The bytes of `src` from offset `pos` on. -/
def shift (src : Image) (pos : ℕ) : Image := fun o => src (pos + o)

@[simp] theorem shift_apply (src : Image) (pos o : ℕ) : shift src pos o = src (pos + o) := rfl

theorem copy_inside (dst src : Image) {pos len o : ℕ} (h : pos ≤ o) (h' : o < pos + len) :
    copy dst pos src len o = src (o - pos) := by
  unfold copy
  rw [if_pos ⟨h, h'⟩]

theorem copy_outside (dst src : Image) {pos len o : ℕ} (h : o < pos ∨ pos + len ≤ o) :
    copy dst pos src len o = dst o := by
  unfold copy
  rw [if_neg (by omega)]

@[simp] theorem copy_zero (dst src : Image) (pos : ℕ) : copy dst pos src 0 = dst := by
  funext o
  exact copy_outside dst src (by omega)

theorem copy_succ (dst src : Image) (pos len : ℕ) :
    copy dst pos src (len + 1) = Function.update (copy dst pos src len) (pos + len) (src len) := by
  funext o
  by_cases ho : o = pos + len
  · subst ho
    rw [Function.update_self, copy_inside dst src (by omega) (by omega), Nat.add_sub_cancel_left]
  · rw [Function.update_of_ne ho]
    unfold copy
    exact if_congr (by omega) rfl rfl

theorem copy_cons (dst src : Image) (pos len : ℕ) :
    copy dst pos src (len + 1) = copy (Function.update dst pos (src 0)) (pos + 1) (fun o => src (o + 1)) len := by
  funext o
  by_cases ho : o = pos
  · subst ho
    rw [copy_inside dst src (Nat.le_refl o) (by omega), copy_outside _ _ (by omega), Function.update_self, Nat.sub_self]
  · by_cases hin : pos + 1 ≤ o ∧ o < pos + 1 + len
    · rw [copy_inside dst src (by omega) (by omega), copy_inside _ _ hin.1 hin.2]
      exact congrArg src (by omega)
    · rw [copy_outside dst src (by omega), copy_outside _ _ (by omega), Function.update_of_ne ho]

theorem copy_from_zero (dst src : Image) {len o : ℕ} (h : o < len) : copy dst 0 src len o = src o := by
  rw [copy_inside dst src (Nat.zero_le o) (by omega), Nat.sub_zero]

/-- A block that agrees with another one below `n` is given its byte `n`. -/
theorem update_agrees {a b : Image} {n : ℕ} (h : ∀ o < n, a o = b o) : ∀ o ≤ n, Function.update a n (b n) o = b o := by
  intro o ho
  by_cases hon : o = n
  · rw [hon, Function.update_self]
  · rw [Function.update_of_ne hon]
    exact h o (by omega)

/-! ## Words -/

/-- Byte number `k` of a word. -/
def wordByte (w : BitVec 32) (k : ℕ) : UInt8 := UInt8.ofNat (w.toNat / 256 ^ k % 256)

/-- The word whose four bytes start at offset `pos`. -/
def wordAt (m : Image) (pos : ℕ) : BitVec 32 :=
  BitVec.ofNat 32 ((m pos).toNat + 256 * (m (pos + 1)).toNat + 65536 * (m (pos + 2)).toNat +
    16777216 * (m (pos + 3)).toNat)

theorem wordByte_toNat (w : BitVec 32) (k : ℕ) : (wordByte w k).toNat = w.toNat / 256 ^ k % 256 := by
  unfold wordByte
  rw [UInt8.toNat_ofNat']
  omega

theorem wordAt_of_bytes (m : Image) (pos : ℕ) (w : BitVec 32)
    (h : ∀ k < 4, m (pos + k) = wordByte w k) : wordAt m pos = w := by
  apply BitVec.eq_of_toNat_eq
  have h0 := h 0 (by omega)
  have h1 := h 1 (by omega)
  have h2 := h 2 (by omega)
  have h3 := h 3 (by omega)
  rw [Nat.add_zero] at h0
  unfold wordAt
  rw [h0, h1, h2, h3, BitVec.toNat_ofNat]
  simp only [wordByte_toNat]
  have hw := w.isLt
  omega

theorem wordAt_congr {m m' : Image} {pos : ℕ} (h : ∀ k < 4, m (pos + k) = m' (pos + k)) :
    wordAt m pos = wordAt m' pos := by
  have h0 := h 0 (by omega)
  rw [Nat.add_zero] at h0
  unfold wordAt
  rw [h0, h 1 (by omega), h 2 (by omega), h 3 (by omega)]

/-! ## Images made of words -/

/-- The image of a table of words: word `k` occupies the bytes from `4 * k` on. -/
def ofWords (w : ℕ → BitVec 32) : Image := fun o => wordByte (w (o / 4)) (o % 4)

theorem wordAt_ofWords (w : ℕ → BitVec 32) (k : ℕ) : wordAt (ofWords w) (4 * k) = w k := by
  apply wordAt_of_bytes
  intro j hj
  have hd : (4 * k + j) / 4 = k := by omega
  have hm : (4 * k + j) % 4 = j := by omega
  unfold ofWords
  rw [hd, hm]

/-- A signed 32-bit value survives its two's-complement representation. -/
theorem toInt_ofInt_of_bounds {x : Int} (h : -2147483648 ≤ x) (h' : x < 2147483648) :
    (BitVec.ofInt 32 x).toInt = x := by
  rw [BitVec.toInt_ofInt]
  exact Int.bmod_eq_of_le (by omega) (by omega)

end Buffer
