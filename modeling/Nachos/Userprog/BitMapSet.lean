import Nachos.Userprog.BitMap
import Mathlib.Algebra.BigOperators.Fin
import Mathlib.Data.Fintype.Card

/-! # Bitmaps are finite sets (`userprog/bitmap.cc`)

What a client sees of a bitmap is a set of indices below the number of its bits. Every sequence of calls
with indices in range returns what the same calls return on a set, and the set survives `WriteBack` and
`FetchFrom`. Bits of the last word past the end are garbage that no call looks at. -/
set_option autoImplicit false

namespace Nachos
open Buffer Execution

inductive BitOp (n : ℕ) where
  | mark (which : Fin n)
  | clear (which : Fin n)
  | test (which : Fin n)
  | find
  | numClear
  deriving DecidableEq

inductive BitResult where
  | done
  | answer (b : Bool)
  | number (k : Int)
  deriving DecidableEq

def BitMap.call {n : ℕ} (b : BitMap) : BitOp n → Call (BitResult × BitMap)
  | .mark which => do return (.done, ← b.mark which)
  | .clear which => do return (.done, ← b.clear which)
  | .test which => do return (.answer (← b.test which), b)
  | .find => do
    let (which, b) ← b.find
    return (.number which, b)
  | .numClear => do return (.number (← b.numClear), b)

/-! ## Sets of indices -/

/-- The calls on a set of indices. -/
inductive SetStep {n : ℕ} (s : Finset (Fin n)) : BitOp n → BitResult → Finset (Fin n) → Prop
  | mark (which : Fin n) : SetStep s (.mark which) .done (insert which s)
  | clear (which : Fin n) : SetStep s (.clear which) .done (s.erase which)
  | test (which : Fin n) : SetStep s (.test which) (.answer (decide (which ∈ s))) s
  | found {which : Fin n} (hclear : which ∉ s) (hleast : ∀ j, j < which → j ∈ s) :
      SetStep s .find (.number which) (insert which s)
  | full (hall : ∀ j, j ∈ s) : SetStep s .find (.number (-1)) s
  | numClear : SetStep s .numClear (.number (n - s.card : ℕ)) s

section History

variable {n : ℕ}

/-- The call has marked the index, or found it. -/
def Sets (i : Fin n) (e : BitOp n × BitResult) : Prop := e.1 = .mark i ∨ e = (.find, .number i)

/-- The index has been marked or found since it was last cleared. -/
def Held (i : Fin n) (history : List (BitOp n × BitResult)) : Prop :=
  ∃ before e after, history = before ++ e :: after ∧ Sets i e ∧ ∀ e' ∈ after, e'.1 ≠ .clear i

theorem not_held_nil (i : Fin n) : ¬ Held i [] := by
  rintro ⟨before, e, after, h, -⟩
  simp at h

theorem held_cons {i : Fin n} {e : BitOp n × BitResult} {history : List (BitOp n × BitResult)} :
    Held i (e :: history) ↔ Held i history ∨ (Sets i e ∧ ∀ e' ∈ history, e'.1 ≠ .clear i) := by
  constructor
  · rintro ⟨before, e', after, h, hsets, hafter⟩
    cases before with
    | nil =>
      obtain ⟨rfl, rfl⟩ := List.cons.inj h
      exact .inr ⟨hsets, hafter⟩
    | cons b before =>
      obtain ⟨-, rfl⟩ := List.cons.inj h
      exact .inl ⟨before, e', after, rfl, hsets, hafter⟩
  · rintro (⟨before, e', after, rfl, hsets, hafter⟩ | ⟨hsets, hafter⟩)
    · exact ⟨e :: before, e', after, rfl, hsets, hafter⟩
    · exact ⟨[], e, history, rfl, hsets, hafter⟩

theorem SetStep.mem_iff {s s' : Finset (Fin n)} {op : BitOp n} {r : BitResult} (h : SetStep s op r s') (i : Fin n) :
    i ∈ s' ↔ Sets i (op, r) ∨ (i ∈ s ∧ op ≠ .clear i) := by
  cases h with
  | mark which =>
    simp only [Finset.mem_insert, Sets, BitOp.mark.injEq, reduceCtorEq, Prod.mk.injEq, ne_eq, not_false_eq_true,
      and_true, false_and, or_false, eq_comm]
  | clear which =>
    simp only [Finset.mem_erase, Sets, BitOp.clear.injEq, reduceCtorEq, Prod.mk.injEq, ne_eq, false_and, or_self,
      false_or, and_comm, eq_comm]
  | test which => simp [Sets]
  | @found which hclear hleast =>
    have hcast : (which : Int) = (i : Int) ↔ i = which := by
      rw [Int.natCast_inj, Fin.val_inj, eq_comm]
    simp [Sets, hcast]
  | full hall =>
    have hcast : (-1 : Int) ≠ (i : Int) := by omega
    simp [Sets, hcast]
  | numClear => simp [Sets]

/-- The set after a sequence of calls, by its history. -/
theorem mem_of_answers {s s' : Finset (Fin n)} {ops : List (BitOp n)} {rs : List BitResult}
    (h : Answers SetStep s ops rs s') (i : Fin n) :
    i ∈ s' ↔ Held i (ops.zip rs) ∨ (i ∈ s ∧ ∀ e ∈ ops.zip rs, e.1 ≠ .clear i) := by
  induction h with
  | nil s => simp [not_held_nil]
  | @cons s s1 s2 op r ops rs hstep hs ih =>
    rw [ih, List.zip_cons_cons, held_cons, List.forall_mem_cons, hstep.mem_iff]
    tauto

end History

/-! ## The refinement -/

namespace BitMap

variable {n : ℕ} {b : BitMap} {s : Finset (Fin n)}

structure Represents (b : BitMap) (s : Finset (Fin n)) : Prop where
  numBits : b.numBits = n
  bit : ∀ i : Fin n, b.bit i = decide (i ∈ s)

theorem Represents.lt (h : b.Represents s) (i : Fin n) : ((i : ℕ) : Int) < b.numBits := by
  rw [h.numBits]
  exact_mod_cast i.isLt

/-- One bit is set or cleared. -/
theorem Represents.assigned (h : b.Represents s) (which : Fin n) {b' : BitMap} {value : Bool}
    (hbits : b'.numBits = b.numBits) (hset : ∀ i, b'.bit i = if i = (which : ℕ) then value else b.bit i) :
    b'.Represents (if value then insert which s else s.erase which) where
  numBits := hbits.trans h.numBits
  bit i := by
    rw [hset, h.bit]
    by_cases hi : i = which
    · cases value <;> simp [hi]
    · cases value <;> simp [hi, Fin.val_inj]

theorem Represents.clearCount (h : b.Represents s) : b.clearCount = n - s.card := by
  unfold BitMap.clearCount
  rw [h.numBits, Int.toNat_natCast, Nat.count_eq_card_filter_range, Finset.card_filter, Finset.sum_range,
    ← Finset.card_filter]
  have hcompl : Finset.univ.filter (fun i : Fin n => b.bit i = false) = sᶜ := by
    ext i
    simp [h.bit]
  rw [hcompl, Finset.card_compl, Fintype.card_fin]

theorem Represents.test (h : b.Represents s) (i : Fin n) : b.test (i : ℕ) = .ok (decide (i ∈ s)) := by
  rw [b.test_eq (h.lt i), h.bit]

theorem Represents.find (h : b.Represents s) :
    (b.find = .ok (-1, b) ∧ ∀ j, j ∈ s) ∨ ∃ (which : Fin n) (b' : BitMap), b.find = .ok (((which : ℕ) : Int), b') ∧
      which ∉ s ∧ (∀ j, j < which → j ∈ s) ∧ b'.Represents (insert which s) := by
  have htoNat : b.numBits.toNat = n := by rw [h.numBits, Int.toNat_natCast]
  have hspec := b.findFrom_spec 0 b.numBits.toNat (by rw [htoNat, h.numBits, Nat.zero_add])
  rw [htoNat] at hspec
  unfold BitMap.find
  rw [htoNat]
  rcases hspec with ⟨hrun, hall⟩ | ⟨w, b', hrun, hlt, hclear, hleast, hbits, hset⟩
  · refine .inl ⟨hrun, ?_⟩
    intro j
    have hj := hall j (Nat.zero_le _) (by omega)
    rw [h.bit] at hj
    exact of_decide_eq_true hj
  · rw [Nat.zero_add] at hlt
    refine .inr ⟨⟨w, hlt⟩, b', hrun, ?_, ?_, h.assigned ⟨w, hlt⟩ hbits hset⟩
    · have hw := h.bit ⟨w, hlt⟩
      rw [hclear] at hw
      exact of_decide_eq_false hw.symm
    · intro j hj
      have hbit := hleast j (Nat.zero_le _) hj
      rw [h.bit] at hbit
      exact of_decide_eq_true hbit

/-- A call on the bitmap is the call on the set. -/
theorem Represents.call (b : BitMap) (s : Finset (Fin n)) (op : BitOp n) (h : b.Represents s) :
    ∃ r b' s', b.call op = .ok (r, b') ∧ SetStep s op r s' ∧ b'.Represents s' := by
  cases op with
  | mark which =>
    obtain ⟨b', hrun, hbits, hset⟩ := b.mark_spec (h.lt which)
    exact ⟨.done, b', _, by simp only [BitMap.call, hrun, ok_bind, pure_eq_ok], .mark which, h.assigned which hbits hset⟩
  | clear which =>
    obtain ⟨b', hrun, hbits, hset⟩ := b.clear_spec (h.lt which)
    exact ⟨.done, b', _, by simp only [BitMap.call, hrun, ok_bind, pure_eq_ok], .clear which, h.assigned which hbits hset⟩
  | test which =>
    exact ⟨_, b, s, by simp only [BitMap.call, h.test which, ok_bind, pure_eq_ok], .test which, h⟩
  | find =>
    rcases h.find with ⟨hrun, hall⟩ | ⟨which, b', hrun, hclear, hleast, hb'⟩
    · exact ⟨_, b, s, by simp only [BitMap.call, hrun, ok_bind, pure_eq_ok], .full hall, h⟩
    · exact ⟨_, b', _, by simp only [BitMap.call, hrun, ok_bind, pure_eq_ok], .found hclear hleast, hb'⟩
  | numClear =>
    refine ⟨_, b, s, ?_, .numClear, h⟩
    simp only [BitMap.call, b.numClear_eq, h.clearCount, ok_bind, pure_eq_ok]

theorem new_represents (junk : ℕ → BitVec 32) (n : ℕ) :
    ∃ b, new junk n = .ok b ∧ b.Represents (∅ : Finset (Fin n)) := by
  obtain ⟨b, hb, hbits, hset⟩ := @new_spec junk n
  exact ⟨b, hb, hbits, fun i => by simp [hset i i.isLt]⟩

/-! ## Successive calls of `Find` -/

theorem setStep_find_result {s s' : Finset (Fin n)} {r : BitResult} (h : SetStep s .find r s') :
    (r ≠ .number (-1) ∧ s.card < n ∧ s'.card = s.card + 1) ∨ (r = .number (-1) ∧ s.card = n) := by
  cases h with
  | @found which hclear hleast =>
    have hcard : (insert which s).card = s.card + 1 := Finset.card_insert_of_notMem hclear
    have hle := Finset.card_le_univ (insert which s)
    rw [Fintype.card_fin] at hle
    refine .inl ⟨?_, by omega, hcard⟩
    intro heq
    have hneg := BitResult.number.inj heq
    omega
  | full hall =>
    refine .inr ⟨rfl, ?_⟩
    rw [Finset.eq_univ_of_forall hall, Finset.card_univ, Fintype.card_fin]

/-- `k` calls of `Find` on a set succeed if that many indices are clear. -/
theorem finds_succeed_iff {s s' : Finset (Fin n)} {k : ℕ} {rs : List BitResult}
    (h : Answers SetStep s (List.replicate k .find) rs s') : (∀ r ∈ rs, r ≠ .number (-1)) ↔ k ≤ n - s.card := by
  induction k generalizing s rs with
  | zero =>
    cases h
    simp
  | succ k ih =>
    rw [List.replicate_succ] at h
    cases h with
    | cons hstep hs =>
      rw [List.forall_mem_cons, ih hs]
      rcases setStep_find_result hstep with ⟨hr, hlt, hcard⟩ | ⟨hr, hcard⟩
      · constructor
        · rintro ⟨-, hk⟩
          omega
        · intro hk
          exact ⟨hr, by omega⟩
      · constructor
        · rintro ⟨hne, -⟩
          exact absurd hr hne
        · intro hk
          omega

/-! ## Files -/

/-- The set comes back from the file, into any bitmap of the same size. -/
theorem Represents.restored (h : b.Represents s) {hdr : FileHeader} (wf : hdr.WellFormed) (disk : Disk) (p : Int)
    (junk : Image) (hsize : b.numWords * 4 ≤ hdr.numBytes) (hmax : hdr.numBytes ≤ intMax) :
    ∃ disk', b.writeBack disk ⟨hdr, p⟩ junk = .ok disk' ∧ ∀ (c : BitMap) (q : Int) (junk' : Image), c.numBits = n →
      ∃ c', c.fetchFrom disk' ⟨hdr, q⟩ junk' = .ok c' ∧ c'.Represents s := by
  have hb : 0 ≤ b.numBits := by
    rw [h.numBits]
    omega
  obtain ⟨disk', hwrite, hstored, -⟩ := b.writeBack_spec wf disk p junk hb hsize hmax
  refine ⟨disk', hwrite, ?_⟩
  intro c q junk' hc
  have hwords : c.numWords = b.numWords := by
    unfold numWords
    rw [hc, h.numBits]
  obtain ⟨c', hfetch, hbits, hset⟩ :=
    c.fetchFrom_spec wf disk' q junk' (by omega) (by rw [hwords]; exact hsize) hmax
  refine ⟨c', hfetch, hbits.trans hc, ?_⟩
  intro i
  rw [hset i (by rw [hc]; exact_mod_cast i.isLt), hstored i (h.lt i), h.bit]

/-- Whatever the words hold when they are allocated, every sequence of calls with indices in range returns
what it returns on a set of indices that is empty at first; then `Test` tells which have been marked or
found since they were last cleared, as many calls of `Find` succeed as `NumClear` says, and the set is the
same after `WriteBack` and `FetchFrom`. -/
theorem refines_set (n : ℕ) (junk : ℕ → BitVec 32) (ops : List (BitOp n)) :
    ∃ b0 rs b s, BitMap.new junk n = .ok b0 ∧ callAll BitMap.call b0 ops = .ok (rs, b) ∧
      Answers SetStep ∅ ops rs s ∧
      (∀ i : Fin n, b.test (i : ℕ) = .ok (decide (i ∈ s))) ∧ (∀ i, i ∈ s ↔ Held i (ops.zip rs)) ∧
      b.numClear = .ok ((n - s.card : ℕ) : Int) ∧
      (∀ k, ∃ rs' b', callAll BitMap.call b (List.replicate k (.find : BitOp n)) = .ok (rs', b') ∧
        ((∀ r ∈ rs', r ≠ .number (-1)) ↔ k ≤ n - s.card)) ∧
      ∀ hdr : FileHeader, hdr.WellFormed → hdr.numBytes ≤ intMax → b.numWords * 4 ≤ hdr.numBytes →
        ∀ (disk : Disk) (p : Int) (junk : Image), ∃ disk', b.writeBack disk ⟨hdr, p⟩ junk = .ok disk' ∧
          ∀ (c : BitMap) (q : Int) (junk' : Image), c.numBits = n → ∃ c', c.fetchFrom disk' ⟨hdr, q⟩ junk' = .ok c' ∧
            ∀ i : Fin n, c'.test (i : ℕ) = .ok (decide (i ∈ s)) := by
  obtain ⟨b0, hnew, h0⟩ := new_represents junk n
  obtain ⟨rs, b, s, hrun, hanswers, h⟩ := callAll_refines BitMap.Represents Represents.call h0 ops
  refine ⟨b0, rs, b, s, hnew, hrun, hanswers, h.test, ?_, ?_, ?_, ?_⟩
  · intro i
    rw [mem_of_answers hanswers]
    simp
  · rw [b.numClear_eq, h.clearCount]
  · intro k
    obtain ⟨rs', b', s', hfinds, hanswers', -⟩ :=
      callAll_refines BitMap.Represents Represents.call h (List.replicate k .find)
    exact ⟨rs', b', hfinds, finds_succeed_iff hanswers'⟩
  · intro hdr wf hmax hsize disk p junk
    obtain ⟨disk', hwrite, hfetch⟩ := h.restored wf disk p junk hsize hmax
    refine ⟨disk', hwrite, ?_⟩
    intro c q junk' hc
    obtain ⟨c', hc', hrep⟩ := hfetch c q junk' hc
    exact ⟨c', hc', hrep.test⟩

end BitMap

end Nachos
