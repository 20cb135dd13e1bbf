import Nachos.Filesys.OpenFileMeaning
import Mathlib.Order.Interval.Finset.Nat
import Mathlib.Data.Nat.Count

/-! # Bitmaps (`userprog/bitmap.cc`)

An array of words, one bit for each item. `bit` reads it as a set of indices; each operation has one
lemma that says what it does to that set. -/
set_option autoImplicit false

namespace Nachos
open Buffer Execution

abbrev bitsInWord : ℕ := 32

structure BitMap where
  numBits : Int
  map : ℕ → BitVec 32

namespace BitMap

def numWords (b : BitMap) : Int := divRoundUp b.numBits bitsInWord

def setWord (b : BitMap) (k : ℕ) (x : BitVec 32) : BitMap := { b with map := Function.update b.map k x }

def mark (b : BitMap) (which : Int) : Call BitMap :=
  if 0 ≤ which ∧ which < b.numBits then
    .ok (b.setWord (which.toNat / bitsInWord)
      (b.map (which.toNat / bitsInWord) ||| 1#32 <<< (which.toNat % bitsInWord)))
  else .error .assertFailed

def clear (b : BitMap) (which : Int) : Call BitMap :=
  if 0 ≤ which ∧ which < b.numBits then
    .ok (b.setWord (which.toNat / bitsInWord)
      (b.map (which.toNat / bitsInWord) &&& ~~~ (1#32 <<< (which.toNat % bitsInWord))))
  else .error .assertFailed

def test (b : BitMap) (which : Int) : Call Bool :=
  if 0 ≤ which ∧ which < b.numBits then
    .ok (b.map (which.toNat / bitsInWord) &&& 1#32 <<< (which.toNat % bitsInWord) != 0#32)
  else .error .assertFailed

/-- The loop of the constructor, for the first `n` bits. -/
def clearBelow (b : BitMap) : ℕ → Call BitMap
  | 0 => .ok b
  | n + 1 => do
    let b ← clearBelow b n
    b.clear n

/-- `BitMap::BitMap`; the words hold garbage until they are cleared. -/
def new (junk : ℕ → BitVec 32) (nitems : Int) : Call BitMap :=
  if divRoundUp nitems bitsInWord < 0 then .error .badAlloc
  else clearBelow { numBits := nitems, map := junk } nitems.toNat

/-- The loop of `Find` from bit `i` on, with `n` bits to go. -/
def findFrom (b : BitMap) (i : ℕ) : ℕ → Call (Int × BitMap)
  | 0 => .ok (-1, b)
  | n + 1 => do
    if ! (← b.test i) then
      let b ← b.mark i
      return ((i : Int), b)
    else findFrom b (i + 1) n

def find (b : BitMap) : Call (Int × BitMap) := b.findFrom 0 b.numBits.toNat

/-- The loop of `NumClear`, for the first `n` bits. -/
def numClearBelow (b : BitMap) : ℕ → Call Int
  | 0 => .ok 0
  | n + 1 => do
    let count ← numClearBelow b n
    return if ! (← b.test n) then count + 1 else count

def numClear (b : BitMap) : Call Int := b.numClearBelow b.numBits.toNat

/-- `BitMap::FetchFrom`: the bytes that `ReadAt` delivers replace those of the words. -/
def fetchFrom (b : BitMap) (disk : Disk) (file : OpenFile) (junk : Image) : Call BitMap := do
  let (n, bytes) ← readAt disk file.hdr junk (b.numWords * 4) 0
  return { b with map := fun i => wordAt (copy (ofWords b.map) 0 bytes n.toNat) (4 * i) }

def writeBack (b : BitMap) (disk : Disk) (file : OpenFile) (junk : Image) : Call Disk := do
  let (_, disk) ← writeAt disk file.hdr junk (ofWords b.map) (b.numWords * 4) 0
  return disk

/-! ## The set of marked indices -/

/-- Whether index `i` is marked. -/
def bit (b : BitMap) (i : ℕ) : Bool := (b.map (i / bitsInWord)).getLsbD (i % bitsInWord)

/-- A word update that sets bit `w % 32` to `v` and keeps the others sets index `w` to `v`. -/
theorem bit_setWord (b : BitMap) (w : ℕ) (x : BitVec 32) (v : Bool)
    (hx : ∀ k < 32, x.getLsbD k = if k = w % bitsInWord then v
      else (b.map (w / bitsInWord)).getLsbD k) (i : ℕ) :
    (b.setWord (w / bitsInWord) x).bit i = if i = w then v else b.bit i := by
  unfold bit
  rw [show (b.setWord (w / bitsInWord) x).map = Function.update b.map (w / bitsInWord) x from rfl]
  by_cases hword : i / bitsInWord = w / bitsInWord
  · have hmod : i % bitsInWord = w % bitsInWord ↔ i = w := by
      simp only [bitsInWord] at *
      omega
    rw [hword, Function.update_self, hx _ (Nat.mod_lt i (by decide))]
    simp only [hmod]
  · have hne : i ≠ w := by
      rintro rfl
      exact hword rfl
    rw [Function.update_of_ne hword, if_neg hne]

theorem getLsbD_mask {k w : ℕ} (hk : k < 32) : (1#32 <<< w).getLsbD k = decide (k = w) := by
  rw [BitVec.getLsbD_shiftLeft, BitVec.getLsbD_one]
  simp only [hk, decide_true, Bool.true_and]
  by_cases h : k < w
  · simp [h, Nat.ne_of_lt h]
  · have : k - w = 0 ↔ k = w := by omega
    simp [h, this]

theorem mark_spec (b : BitMap) {w : ℕ} (hw : w < b.numBits) :
    ∃ b', b.mark w = .ok b' ∧ b'.numBits = b.numBits ∧
      ∀ i, b'.bit i = if i = w then true else b.bit i := by
  refine ⟨b.setWord (w / bitsInWord) (b.map (w / bitsInWord) ||| 1#32 <<< (w % bitsInWord)),
    by unfold mark; rw [if_pos ⟨by omega, hw⟩, Int.toNat_natCast], rfl, ?_⟩
  apply bit_setWord
  intro k hk
  rw [BitVec.getLsbD_or, getLsbD_mask hk]
  by_cases h : k = w % bitsInWord <;> simp [h]

theorem clear_spec (b : BitMap) {w : ℕ} (hw : w < b.numBits) :
    ∃ b', b.clear w = .ok b' ∧ b'.numBits = b.numBits ∧
      ∀ i, b'.bit i = if i = w then false else b.bit i := by
  refine ⟨b.setWord (w / bitsInWord) (b.map (w / bitsInWord) &&& ~~~ (1#32 <<< (w % bitsInWord))),
    by unfold clear; rw [if_pos ⟨by omega, hw⟩, Int.toNat_natCast], rfl, ?_⟩
  apply bit_setWord
  intro k hk
  rw [BitVec.getLsbD_and, BitVec.getLsbD_not, getLsbD_mask hk]
  by_cases h : k = w % bitsInWord <;> simp [h, hk]

theorem test_eq (b : BitMap) {w : ℕ} (hw : w < b.numBits) : b.test w = .ok (b.bit w) := by
  unfold test
  rw [if_pos ⟨by omega, hw⟩, Int.toNat_natCast]
  congr 1
  have hlt : w % bitsInWord < 32 := Nat.mod_lt w (by decide)
  rw [Bool.eq_iff_iff, bne_iff_ne]
  constructor
  · intro hne
    by_contra hoff
    apply hne
    apply BitVec.eq_of_getLsbD_eq
    intro k hk
    rw [BitVec.getLsbD_and, getLsbD_mask hk]
    by_cases h : k = w % bitsInWord
    · subst h
      simpa [bit] using hoff
    · simp [h]
  · intro hon hz
    have hbit : (b.map (w / bitsInWord) &&& 1#32 <<< (w % bitsInWord)).getLsbD (w % bitsInWord) = true := by
      rw [BitVec.getLsbD_and, getLsbD_mask hlt]
      simpa [bit] using hon
    rw [hz] at hbit
    simp at hbit

theorem clearBelow_spec (b : BitMap) (n : ℕ) (hn : n ≤ b.numBits) :
    ∃ b', b.clearBelow n = .ok b' ∧ b'.numBits = b.numBits ∧
      ∀ i, b'.bit i = if i < n then false else b.bit i := by
  induction n with
  | zero => exact ⟨b, rfl, rfl, by simp⟩
  | succ n ih =>
    obtain ⟨c, hc, hbits, hset⟩ := ih (by omega)
    obtain ⟨d, hd, hbits', hset'⟩ := c.clear_spec (w := n) (by omega)
    refine ⟨d, by simp only [clearBelow, hc, ok_bind, hd], by omega, ?_⟩
    intro i
    rw [hset', hset]
    by_cases h1 : i = n
    · simp [h1]
    · have h2 : i < n ↔ i < n + 1 := by omega
      simp [h1, h2]

theorem new_spec (junk : ℕ → BitVec 32) {nitems : ℕ} :
    ∃ b, new junk nitems = .ok b ∧ b.numBits = nitems ∧ ∀ i < nitems, b.bit i = false := by
  obtain ⟨b, hb, hbits, hset⟩ := clearBelow_spec { numBits := nitems, map := junk } nitems (by simp)
  refine ⟨b, ?_, hbits, fun i hi => by rw [hset, if_pos hi]⟩
  have hwords : ¬ divRoundUp (nitems : Int) bitsInWord < 0 := by
    unfold divRoundUp
    rw [Int.tdiv_eq_ediv_of_nonneg (by omega)]
    simp only [bitsInWord]
    split <;> omega
  unfold new
  rw [if_neg hwords, Int.toNat_natCast, hb]

/-! ## Searching and counting -/

/-- `Find` from bit `i` on: the least clear index is marked, or there is none. -/
theorem findFrom_spec (b : BitMap) (i n : ℕ) (hn : ((i + n : ℕ) : Int) ≤ b.numBits) :
    (b.findFrom i n = .ok (-1, b) ∧ ∀ j, i ≤ j → j < i + n → b.bit j = true) ∨
    ∃ (w : ℕ) (b' : BitMap), b.findFrom i n = .ok ((w : Int), b') ∧ w < i + n ∧ b.bit w = false ∧
      (∀ j, i ≤ j → j < w → b.bit j = true) ∧ b'.numBits = b.numBits ∧
      ∀ j, b'.bit j = if j = w then true else b.bit j := by
  induction n generalizing i with
  | zero => exact Or.inl ⟨rfl, by omega⟩
  | succ n ih =>
    have htest := b.test_eq (w := i) (by omega)
    cases hbit : b.bit i with
    | false =>
      obtain ⟨c, hc, hbits, hset⟩ := b.mark_spec (w := i) (by omega)
      refine Or.inr ⟨i, c, ?_, by omega, hbit, by omega, hbits, hset⟩
      simp only [findFrom, htest, hbit, hc, ok_bind, pure_eq_ok, Bool.not_false, if_true]
    | true =>
      have hstep : b.findFrom i (n + 1) = b.findFrom (i + 1) n := by
        simp [findFrom, htest, hbit]
      rw [hstep]
      rcases ih (i + 1) (by omega) with ⟨hrun, hall⟩ | ⟨w, c, hrun, hlt, hw, hleast, hrest⟩
      · refine Or.inl ⟨hrun, fun j hj hj' => ?_⟩
        by_cases h : j = i
        · rw [h, hbit]
        · exact hall j (by omega) (by omega)
      · refine Or.inr ⟨w, c, hrun, by omega, hw, fun j hj hj' => ?_, hrest⟩
        by_cases h : j = i
        · rw [h, hbit]
        · exact hleast j (by omega) hj'

/-- The number of clear indices. -/
def clearCount (b : BitMap) : ℕ := Nat.count (fun i => b.bit i = false) b.numBits.toNat

theorem numClear_eq (b : BitMap) : b.numClear = .ok (b.clearCount : Int) := by
  have hloop : ∀ n : ℕ, n ≤ b.numBits.toNat → b.numClearBelow n =
      .ok (Nat.count (fun i => b.bit i = false) n : Int) := by
    intro n hn
    induction n with
    | zero => simp [numClearBelow]
    | succ n ih =>
      rw [Nat.count_succ]
      simp only [numClearBelow, ih (by omega), b.test_eq (w := n) (by omega), ok_bind, pure_eq_ok]
      cases b.bit n <;> simp
  exact hloop b.numBits.toNat le_rfl

/-- Marking a clear index leaves one clear index less. -/
theorem clearCount_mark {b b' : BitMap} {w : ℕ} (hw : w < b.numBits) (hclear : b.bit w = false)
    (hbits : b'.numBits = b.numBits) (hset : ∀ i, b'.bit i = if i = w then true else b.bit i) :
    b.clearCount = b'.clearCount + 1 := by
  unfold clearCount
  rw [hbits, Nat.count_eq_card_filter_range, Nat.count_eq_card_filter_range]
  have herase : (Finset.range b.numBits.toNat).filter (fun i => b'.bit i = false) =
      ((Finset.range b.numBits.toNat).filter (fun i => b.bit i = false)).erase w := by
    ext i
    by_cases h : i = w <;> simp [hset, h]
  have hmem : w ∈ (Finset.range b.numBits.toNat).filter (fun i => b.bit i = false) := by
    simp only [Finset.mem_filter, Finset.mem_range]
    exact ⟨by omega, hclear⟩
  rw [herase, Finset.card_erase_add_one hmem]

/-- `Find` succeeds when some index is clear. -/
theorem find_of_clearCount (b : BitMap) (hc : 0 < b.clearCount) :
    ∃ (w : ℕ) (b' : BitMap), b.find = .ok ((w : Int), b') ∧ w < b.numBits ∧ b.bit w = false ∧
      b'.numBits = b.numBits ∧ (∀ j, b'.bit j = if j = w then true else b.bit j) ∧
      b.clearCount = b'.clearCount + 1 := by
  obtain ⟨w, hw, hclear⟩ : ∃ w, w < b.numBits.toNat ∧ b.bit w = false := by
    unfold clearCount at hc
    rw [Nat.count_eq_card_filter_range] at hc
    obtain ⟨w, hw⟩ := Finset.card_pos.mp hc
    exact ⟨w, by simpa using hw⟩
  unfold find
  rcases b.findFrom_spec 0 b.numBits.toNat (by omega) with ⟨-, hall⟩ | ⟨v, c, hrun, hlt, hv, -, hbits, hset⟩
  · rw [hall w (by omega) (by omega)] at hclear
    cases hclear
  · exact ⟨v, c, hrun, by omega, hv, hbits, hset, clearCount_mark (by omega) hv hbits hset⟩

/-! ## The bitmap as a file -/

variable {h : FileHeader}

/-- The index set stored in a file that begins with the words of a bitmap. -/
def storedBit (h : FileHeader) (disk : Disk) (i : ℕ) : Bool :=
  (wordAt (h.byteAt disk) (4 * (i / bitsInWord))).getLsbD (i % bitsInWord)

theorem numWords_eq (b : BitMap) (hb : 0 ≤ b.numBits) : b.numWords = (b.numBits + 31) / 32 := by
  unfold numWords divRoundUp
  rw [Int.tdiv_eq_ediv_of_nonneg hb, Int.tmod_eq_emod_of_nonneg hb]
  simp only [bitsInWord]
  split <;> omega

theorem fetchFrom_spec (wf : h.WellFormed) (b : BitMap) (disk : Disk) (p : Int) (junk : Image)
    (hb : 0 ≤ b.numBits) (hsize : b.numWords * 4 ≤ h.numBytes) (hmax : h.numBytes ≤ intMax) :
    ∃ b', b.fetchFrom disk ⟨h, p⟩ junk = .ok b' ∧ b'.numBits = b.numBits ∧
      ∀ i : ℕ, i < b.numBits → b'.bit i = storedBit h disk i := by
  obtain ⟨bytes, hrun, hbytes⟩ := readAt_eq wf disk junk (b.numWords * 4) 0 (by omega) (by omega)
  have hwords := b.numWords_eq hb
  have hk : transferred h (b.numWords * 4) 0 = b.numWords * 4 := transferred_whole (by omega) (by omega)
  rw [hk] at hrun hbytes
  refine ⟨{ b with map := fun i => wordAt (copy (ofWords b.map) 0 bytes (b.numWords * 4).toNat) (4 * i) },
    by simp only [fetchFrom, hrun, ok_bind, pure_eq_ok], rfl, fun i hi => ?_⟩
  unfold bit storedBit
  simp only []
  rw [wordAt_congr]
  intro k hk'
  simp only [bitsInWord]
  rw [copy_from_zero _ _ (by omega), hbytes _ (by omega), Int.toNat_zero, Nat.zero_add]

theorem writeBack_spec (wf : h.WellFormed) (b : BitMap) (disk : Disk) (p : Int) (junk : Image)
    (hb : 0 ≤ b.numBits) (hsize : b.numWords * 4 ≤ h.numBytes) (hmax : h.numBytes ≤ intMax) :
    ∃ disk', b.writeBack disk ⟨h, p⟩ junk = .ok disk' ∧
      (∀ i : ℕ, i < b.numBits → storedBit h disk' i = b.bit i) ∧
      ∀ t, (∀ i : ℕ, i < h.numSectors → t ≠ (h.dataSectors i).toNat) → disk' t = disk t := by
  obtain ⟨disk', hrun, hin, hout⟩ :=
    writeAt_eq wf disk junk (ofWords b.map) (b.numWords * 4) 0 (by omega) (by omega)
  have hwords := b.numWords_eq hb
  have hk : transferred h (b.numWords * 4) 0 = b.numWords * 4 := transferred_whole (by omega) (by omega)
  refine ⟨disk', by simp only [writeBack, hrun, ok_bind, pure_eq_ok], fun i hi => ?_, hout⟩
  unfold bit storedBit
  rw [← wordAt_ofWords b.map (i / bitsInWord), wordAt_congr]
  intro k hk'
  simp only [bitsInWord]
  rw [hin _ (by omega), if_pos (by omega), Int.toNat_zero, Nat.sub_zero]

end BitMap

end Nachos
