import Mathlib.Data.Int.ModEq
import Mathlib.Tactic.Ring
import Nachos.Machine.MipsI

/-! # Multiplication and overflow (`machine/mipssim.cc`)

`Mult` adds up the multiples of one operand by the bits of the other, in two words each, and works on absolute values if
the operands are signed. `ADD`, `ADDI` and `SUB` find out from three sign bits whether the result is an `int`. -/
set_option autoImplicit false

namespace Nachos
open Buffer Execution Raising

/-! ## Bits of words -/

theorem and_one_eq_zero (x : BitVec 32) : x &&& 1#32 = 0#32 ↔ x.toNat % 2 = 0 := by
  rw [← BitVec.toNat_inj, BitVec.toNat_and]
  change x.toNat &&& 1 = 0 ↔ _
  rw [Nat.and_one_is_mod]

theorem signBit_eq_zero (x : BitVec 32) : x &&& 0x80000000#32 = 0#32 ↔ x.toNat < 2 ^ 31 := by
  have htwoPow : (0x80000000#32) = BitVec.twoPow 32 31 := by decide
  have hmsb : x.getLsbD 31 = decide (2 ^ 31 ≤ x.toNat) := by
    have hlast := BitVec.msb_eq_getLsbD_last x
    rw [BitVec.msb_eq_decide] at hlast
    exact hlast.symm
  rw [htwoPow, BitVec.and_twoPow, hmsb]
  by_cases hx : 2 ^ 31 ≤ x.toNat
  · rw [decide_eq_true hx]
    exact iff_of_false (by decide) (by omega)
  · rw [decide_eq_false hx]
    exact iff_of_true rfl (by omega)

theorem hasSign_eq (x : BitVec 32) : hasSign x = x.msb := by
  unfold hasSign
  rw [Bool.eq_iff_iff, bne_iff_ne, ne_eq, signBit_eq_zero, BitVec.msb_eq_decide, decide_eq_true_eq, Nat.not_lt]

/-- The word without its lowest bit. -/
theorem and_fffffffe_eq_zero (x : BitVec 32) : x &&& 0xfffffffe#32 = 0#32 ↔ x.toNat / 2 = 0 := by
  have hbit : ∀ i < 32, (0xfffffffe#32).getLsbD i = decide (1 ≤ i) := by decide
  have hmask : x &&& 0xfffffffe#32 = (x >>> 1) <<< 1 := by
    apply BitVec.eq_of_getLsbD_eq
    intro i hi
    rw [BitVec.getLsbD_and, hbit i hi, BitVec.getLsbD_shiftLeft, BitVec.getLsbD_ushiftRight]
    by_cases h1 : 1 ≤ i
    · simp [hi, h1, Nat.not_lt.mpr h1]
    · simp [h1, Nat.lt_of_not_le h1]
  have hx := x.isLt
  rw [hmask, ← BitVec.toNat_inj, BitVec.toNat_shiftLeft, BitVec.toNat_ushiftRight, Nat.shiftLeft_eq,
    Nat.shiftRight_eq_div_pow]
  change x.toNat / 2 ^ 1 * 2 ^ 1 % 2 ^ 32 = 0 ↔ _
  omega

/-! ## Double words -/

/-- The high and the low word as one number. -/
def double (words : BitVec 32 × BitVec 32) : ℕ := words.1.toNat * 2 ^ 32 + words.2.toNat

/-- The addition of `Mult`, with the carry out of the low words. -/
theorem double_add (hi lo bHi bLo : BitVec 32) :
    double ((if lo + bLo < bLo then hi + 1#32 else hi) + bHi, lo + bLo) ≡
      double (hi, lo) + double (bHi, bLo) [MOD 2 ^ 64] := by
  have hlo := lo.isLt
  have hbLo := bLo.isLt
  unfold double Nat.ModEq
  dsimp only
  split
  · next hcarry =>
    rw [BitVec.lt_def, BitVec.toNat_add] at hcarry
    rw [BitVec.toNat_add, BitVec.toNat_add, BitVec.toNat_add, show (1#32).toNat = 1 from rfl]
    omega
  · next hcarry =>
    rw [BitVec.lt_def, BitVec.toNat_add] at hcarry
    rw [BitVec.toNat_add, BitVec.toNat_add]
    omega

/-- The shift of the multiple by one place. -/
theorem double_shift (bHi bLo : BitVec 32) :
    double (if bLo &&& 0x80000000#32 ≠ 0#32 then bHi <<< 1 ||| 1#32 else bHi <<< 1, bLo <<< 1) ≡
      2 * double (bHi, bLo) [MOD 2 ^ 64] := by
  have hor : bHi <<< 1 ||| 1#32 = bHi <<< 1 + 1#32 := by
    refine (BitVec.add_eq_or_of_and_eq_zero _ _ ?_).symm
    rw [and_one_eq_zero, BitVec.toNat_shiftLeft, Nat.shiftLeft_eq]
    omega
  have hbLo := bLo.isLt
  unfold double Nat.ModEq
  dsimp only
  split
  · next hsign =>
    rw [ne_eq, signBit_eq_zero] at hsign
    rw [hor, BitVec.toNat_add, BitVec.toNat_shiftLeft, BitVec.toNat_shiftLeft, Nat.shiftLeft_eq, Nat.shiftLeft_eq,
      show (1#32).toNat = 1 from rfl]
    omega
  · next hsign =>
    rw [ne_eq, not_not, signBit_eq_zero] at hsign
    rw [BitVec.toNat_shiftLeft, BitVec.toNat_shiftLeft, Nat.shiftLeft_eq, Nat.shiftLeft_eq]
    omega

/-- The two's complement of a double word. -/
theorem double_neg (hi lo : BitVec 32) :
    double (if ~~~lo + 1#32 = 0#32 then ~~~hi + 1#32 else ~~~hi, ~~~lo + 1#32) + double (hi, lo) ≡ 0 [MOD 2 ^ 64] := by
  have hhi := hi.isLt
  have hlo := lo.isLt
  have hnot : (~~~lo + 1#32).toNat = (2 ^ 32 - 1 - lo.toNat + 1) % 2 ^ 32 := by
    rw [BitVec.toNat_add, BitVec.toNat_not]
    rfl
  unfold double Nat.ModEq
  dsimp only
  rw [hnot]
  split
  · next hzero =>
    rw [← BitVec.toNat_inj, hnot, show (0#32).toNat = 0 from rfl] at hzero
    rw [BitVec.toNat_add, BitVec.toNat_not, show (1#32).toNat = 1 from rfl]
    omega
  · next hne =>
    rw [← BitVec.toNat_inj, hnot, show (0#32).toNat = 0 from rfl] at hne
    rw [BitVec.toNat_not]
    omega

/-! ## The loop of `Mult` -/

/-- The shift of a signed number to the right, where the copies of its sign do not matter. -/
theorem sshiftRight_mod (a : BitVec 32) {n : ℕ} (hn : n ≤ 31) :
    (a.sshiftRight 1).toNat % 2 ^ n = a.toNat / 2 % 2 ^ n := by
  have ha := a.isLt
  obtain ⟨k, hk⟩ := Nat.pow_dvd_pow 2 hn
  rw [BitVec.toNat_sshiftRight]
  split
  · next hmsb =>
    rw [BitVec.msb_eq_decide, decide_eq_true_eq] at hmsb
    have hshift : 2 ^ 32 - 1 - (2 ^ 32 - 1 - a.toNat) >>> 1 = a.toNat / 2 + 2 ^ n * k := by
      rw [← hk, Nat.shiftRight_eq_div_pow]
      omega
    rw [hshift, Nat.add_mul_mod_self_left]
  · rw [Nat.shiftRight_eq_div_pow, Nat.pow_one]

theorem multLoop_modEq {n : ℕ} (hn : n ≤ 32) (a bLo bHi lo hi : BitVec 32) :
    double (multLoop n a bLo bHi lo hi) ≡ double (hi, lo) + double (bHi, bLo) * (a.toNat % 2 ^ n) [MOD 2 ^ 64] := by
  induction n generalizing a bLo bHi lo hi with
  | zero =>
    rw [Nat.pow_zero, Nat.mod_one, Nat.mul_zero, Nat.add_zero]
    rfl
  | succ n ih =>
    have hadd := double_add hi lo bHi bLo
    have hbits : a.toNat % 2 ^ (n + 1) = a.toNat % 2 + 2 * (a.toNat / 2 % 2 ^ n) := by
      rw [Nat.pow_succ, Nat.mul_comm, Nat.mod_mul]
    have hround : ∀ hi' lo' : BitVec 32,
        double (multLoop n (a.sshiftRight 1) (bLo <<< 1)
          (if bLo &&& 0x80000000#32 ≠ 0#32 then bHi <<< 1 ||| 1#32 else bHi <<< 1) lo' hi') ≡
        double (hi', lo') + double (bHi, bLo) * (2 * (a.toNat / 2 % 2 ^ n)) [MOD 2 ^ 64] := by
      intro hi' lo'
      refine (ih (by omega) _ _ _ _ _).trans ?_
      rw [sshiftRight_mod a (by omega), show double (bHi, bLo) * (2 * (a.toNat / 2 % 2 ^ n)) =
        2 * double (bHi, bLo) * (a.toNat / 2 % 2 ^ n) by ring]
      exact ((double_shift bHi bLo).mul_right _).add_left _
    rw [hbits]
    unfold multLoop
    dsimp only
    by_cases hodd : a &&& 1#32 = 0#32
    · have heven := (and_one_eq_zero a).mp hodd
      rw [if_neg (not_not.mpr hodd), if_neg (fun h => h.1 hodd), heven, Nat.zero_add]
      exact hround hi lo
    · have hone : a.toNat % 2 = 1 := by
        have := mt (and_one_eq_zero a).mpr hodd
        omega
      have hsplit : double (hi, lo) + double (bHi, bLo) * (1 + 2 * (a.toNat / 2 % 2 ^ n)) =
          double (hi, lo) + double (bHi, bLo) + double (bHi, bLo) * (2 * (a.toNat / 2 % 2 ^ n)) := by ring
      rw [if_pos hodd, hone, hsplit]
      split
      · next hlast =>
        -- nothing is left of the multiplier
        rw [(and_fffffffe_eq_zero a).mp hlast.2, Nat.zero_mod, Nat.mul_zero, Nat.add_zero]
        exact hadd
      · exact (hround _ _).trans (hadd.add_right _)

/-! ## Mult -/

/-- The operand without its sign. -/
theorem magnitude_eq (a : BitVec 32) : ((if a.slt 0#32 then -a else a).toNat : Int) = |a.toInt| := by
  have ha := a.isLt
  rw [BitVec.slt_zero_eq_msb, BitVec.msb_eq_decide, BitVec.toInt_eq_toNat_cond]
  by_cases hneg : 2 ^ 31 ≤ a.toNat
  · rw [if_pos (by simpa using hneg), if_neg (by omega), BitVec.toNat_neg, abs_of_neg (by omega)]
    omega
  · rw [if_neg (by simpa using hneg), if_pos (by omega), abs_of_nonneg (by omega)]

theorem multLoop_product (a b : BitVec 32) : double (multLoop 32 a b 0#32 0#32 0#32) ≡ a.toNat * b.toNat [MOD 2 ^ 64] := by
  refine (multLoop_modEq le_rfl a b 0#32 0#32 0#32).trans ?_
  rw [Nat.mod_eq_of_lt a.isLt]
  unfold double
  simp only [BitVec.toNat_ofNat, Nat.zero_mod, Nat.zero_mul, Nat.zero_add]
  rw [Nat.mul_comm]

theorem double_mult_of_zero {a b : BitVec 32} (h : a = 0#32 ∨ b = 0#32) (signedArith : Bool) :
    double (mult a b signedArith) = 0 := by
  unfold mult
  rw [if_pos h]
  rfl

theorem mult_unsigned {a b : BitVec 32} (h : ¬ (a = 0#32 ∨ b = 0#32)) :
    double (mult a b false) ≡ a.toNat * b.toNat [MOD 2 ^ 64] := by
  have hproduct := multLoop_product a b
  unfold mult
  rw [if_neg h]
  exact hproduct

theorem mult_signed {a b : BitVec 32} (h : ¬ (a = 0#32 ∨ b = 0#32)) :
    (double (mult a b true) : Int) ≡ a.toInt * b.toInt [ZMOD 2 ^ 64] := by
  have hproduct : (double (multLoop 32 (if a.slt 0#32 then -a else a) (if b.slt 0#32 then -b else b) 0#32 0#32 0#32) : Int) ≡
      |a.toInt| * |b.toInt| [ZMOD 2 ^ 64] := by
    rw [← magnitude_eq, ← magnitude_eq]
    exact_mod_cast Int.natCast_modEq_iff.mpr (multLoop_product _ _)
  have hsign : ∀ x : BitVec 32, x.slt 0#32 = decide (x.toInt < 0) := fun x => rfl
  unfold mult
  rw [if_neg h]
  simp only [true_and, Bool.true_and]
  generalize multLoop 32 (if a.slt 0#32 then -a else a) (if b.slt 0#32 then -b else b) 0#32 0#32 0#32 = words at hproduct ⊢
  obtain ⟨hi, lo⟩ := words
  have hneg : (double (if ~~~lo + 1#32 = 0#32 then ~~~hi + 1#32 else ~~~hi, ~~~lo + 1#32) : Int) ≡
      -(|a.toInt| * |b.toInt|) [ZMOD 2 ^ 64] := by
    have hsum := Int.natCast_modEq_iff.mpr (double_neg hi lo)
    rw [Nat.cast_add] at hsum
    have hdiff := hsum.sub hproduct
    rwa [Int.add_sub_cancel, Nat.cast_zero, Int.zero_sub] at hdiff
  dsimp only
  rw [hsign, hsign]
  by_cases ha : a.toInt < 0
  · rw [abs_of_neg ha] at hproduct hneg
    by_cases hb : b.toInt < 0
    · rw [abs_of_neg hb, Int.neg_mul_neg] at hproduct
      simpa [ha, hb] using hproduct
    · rw [abs_of_nonneg (Int.not_lt.mp hb), Int.neg_mul, Int.neg_neg] at hneg
      simpa [ha, hb] using hneg
  · rw [abs_of_nonneg (Int.not_lt.mp ha)] at hproduct hneg
    by_cases hb : b.toInt < 0
    · rw [abs_of_neg hb, Int.mul_neg, Int.neg_neg] at hneg
      simpa [ha, hb] using hneg
    · rw [abs_of_nonneg (Int.not_lt.mp hb)] at hproduct
      simpa [ha, hb] using hproduct

/-- The words that `Mult` computes are the product, modulo `2 ^ 64`, of the operands as they are to be read. -/
theorem mult_exact (a b : BitVec 32) :
    (double (mult a b true) : Int) ≡ a.toInt * b.toInt [ZMOD 2 ^ 64] ∧
    double (mult a b false) ≡ a.toNat * b.toNat [MOD 2 ^ 64] := by
  by_cases h : a = 0#32 ∨ b = 0#32
  · rw [double_mult_of_zero h, double_mult_of_zero h]
    rcases h with rfl | rfl
    · rw [BitVec.toInt_zero, BitVec.toNat_zero, Int.zero_mul, Nat.zero_mul]
      exact ⟨rfl, rfl⟩
    · rw [BitVec.toInt_zero, BitVec.toNat_zero, Int.mul_zero, Nat.mul_zero]
      exact ⟨rfl, rfl⟩
  · exact ⟨mult_signed h, mult_unsigned h⟩

/-! ## Overflow -/

/-- The tests of `ADD`, `ADDI` and `SUB` say just when the result is no `int`. -/
theorem add_test (x y : BitVec 32) :
    (! hasSign (x ^^^ y) && hasSign (x ^^^ (x + y))) = x.saddOverflow y := by
  rw [hasSign_eq, hasSign_eq, BitVec.msb_xor, BitVec.msb_xor, BitVec.saddOverflow_eq]
  cases x.msb <;> cases y.msb <;> cases (x + y).msb <;> rfl

theorem addi_test (x y : BitVec 32) :
    (! hasSign (x ^^^ y) && hasSign (y ^^^ (x + y))) = x.saddOverflow y := by
  rw [hasSign_eq, hasSign_eq, BitVec.msb_xor, BitVec.msb_xor, BitVec.saddOverflow_eq]
  cases x.msb <;> cases y.msb <;> cases (x + y).msb <;> rfl

theorem sub_test (x y : BitVec 32) :
    (hasSign (x ^^^ y) && hasSign (x ^^^ (x - y))) = x.ssubOverflow y := by
  rw [hasSign_eq, hasSign_eq, BitVec.msb_xor, BitVec.msb_xor, BitVec.ssubOverflow_eq]
  cases x.msb <;> cases y.msb <;> cases (x - y).msb <;> rfl

/-- A number that is no `int`. -/
def Overflows (x : Int) : Prop := x < -2 ^ 31 ∨ 2 ^ 31 ≤ x

instance (x : Int) : Decidable (Overflows x) := inferInstanceAs (Decidable (_ ∨ _))

theorem saddOverflow_iff (x y : BitVec 32) : x.saddOverflow y = true ↔ Overflows (x.toInt + y.toInt) := by
  unfold BitVec.saddOverflow Overflows
  rw [Bool.or_eq_true, decide_eq_true_eq, decide_eq_true_eq]
  exact or_comm

theorem ssubOverflow_iff (x y : BitVec 32) : x.ssubOverflow y = true ↔ Overflows (x.toInt - y.toInt) := by
  unfold BitVec.ssubOverflow Overflows
  rw [Bool.or_eq_true, decide_eq_true_eq, decide_eq_true_eq]
  exact or_comm

/-- The destination of an instruction that checks for overflow, and its result as a number. -/
def MipsI.checked (value : BitVec 32) (r : Registers) : Option (ℕ × Int) :=
  let rs := (r (field value 21)).toInt
  let rt := (r (field value 16)).toInt
  match (decode value).opCode with
  | .add => some (field value 11, rs + rt)
  | .addi => some (field value 16, rs + (immediate value).toInt)
  | .sub => some (field value 11, rs - rt)
  | _ => none

namespace Cpu

open MipsI

variable {s s' : Cpu} {value : BitVec 32} {dest : ℕ} {result : Int}

/-- The instruction raises an exception, or puts a word that is the result into its destination. -/
theorem execute_checked (h : checked value s.registers = some (dest, result)) :
    dest < 32 ∧ ∃ (overflow : Bool) (word : BitVec 32), s.execute (decode value) = s.putUnless overflow dest word ∧
      (overflow = true ↔ Overflows result) ∧ (overflow = false → word.toInt = result) := by
  obtain ⟨hrs, hrt, hrd⟩ := decode_registers value
  have himm := decode_immediate value
  unfold checked at h
  unfold execute
  rw [hrs, hrt, hrd]
  dsimp only at h ⊢
  revert h himm
  cases (decode value).opCode with
  | add =>
    intro h himm
    cases h
    refine ⟨field_lt_32 value _, _, _, rfl, ?_, fun hno => ?_⟩
    · rw [add_test]
      exact saddOverflow_iff _ _
    · rw [add_test] at hno
      exact BitVec.toInt_add_of_not_saddOverflow (by rw [hno]; decide)
  | addi =>
    intro h himm
    cases h
    have hextra : (decode value).extra = (immediate value).signExtend 32 :=
      (himm (by decide)).trans (extraOf_ifmt value)
    have himmediate : ((immediate value).signExtend 32).toInt = (immediate value).toInt :=
      BitVec.toInt_signExtend_of_le (by decide)
    rw [hextra, ← himmediate]
    refine ⟨field_lt_32 value _, _, _, rfl, ?_, fun hno => ?_⟩
    · rw [addi_test]
      exact saddOverflow_iff _ _
    · rw [addi_test] at hno
      exact BitVec.toInt_add_of_not_saddOverflow (by rw [hno]; decide)
  | sub =>
    intro h himm
    cases h
    refine ⟨field_lt_32 value _, _, _, rfl, ?_, fun hno => ?_⟩
    · rw [sub_test]
      exact ssubOverflow_iff _ _
    · rw [sub_test] at hno
      exact BitVec.toInt_sub_of_not_ssubOverflow (by rw [hno]; decide)
  | _ =>
    intro h
    cases h

theorem set_registers_self (s : Cpu) (num : ℕ) (value : BitVec 32) : (s.set num value).registers num = value := by
  unfold set
  exact Function.update_self num value s.registers

theorem set_registers_ne (s : Cpu) {num k : ℕ} (h : k ≠ num) (value : BitVec 32) :
    (s.set num value).registers k = s.registers k := by
  unfold set
  exact Function.update_of_ne h value s.registers

theorem oneInstruction_checked (hread : s.readMem (s.registers pcReg) 4 = pure (value, s'))
    (hchecked : checked value s.registers = some (dest, result)) (hrange : (s.registers loadReg).toNat < numTotalRegs) :
    (Overflows result ∧ s.oneInstruction = raise ⟨s', .overflowException, 0#32⟩) ∨
    (¬ Overflows result ∧ ∃ u : Cpu, s.oneInstruction = pure u ∧
      (dest ≠ 0 → dest ≠ (s.registers loadReg).toNat → (u.registers dest).toInt = result)) := by
  obtain ⟨hfetch, hreg⟩ := fetch_of_readMem hread
  rw [← hreg] at hchecked
  obtain ⟨hdest, overflow, word, hexecute, hiff, hexact⟩ := execute_checked hchecked
  cases overflow with
  | true => exact Or.inl ⟨hiff.mp rfl, (oneInstruction_of_fetch hfetch).2.1 _ hexecute⟩
  | false =>
    have hload : (s'.set dest word).registers loadReg = s.registers loadReg := by
      rw [set_registers_ne _ (by simp only [loadReg]; omega), hreg]
    obtain ⟨u, hone, hu⟩ := oneInstruction_next hread hexecute (by rw [hload]; exact hrange)
    refine Or.inr ⟨fun ho => absurd (hiff.mpr ho) (by decide), u, hone, fun h0 htarget => ?_⟩
    rw [hu dest (by simp only [pcReg]; omega), hload]
    unfold loaded
    rw [if_neg h0, if_neg (by simp only [loadValueReg]; omega), if_neg (by simp only [loadReg]; omega), if_neg htarget,
      set_registers_self]
    exact hexact rfl

/-- The registers that the handler finds. -/
theorem raiseException_registers {r : Raised} (hrange : (r.cpu.registers loadReg).toNat < numTotalRegs) :
    ∃ u, raiseException r = .ok u ∧ u.registers 0 = 0#32 ∧ ∀ k, k ≠ 0 → k ≠ (r.cpu.registers loadReg).toNat →
      k ∉ [badVAddrReg, loadReg, loadValueReg] → u.registers k = r.cpu.registers k := by
  have hload : (r.cpu.set badVAddrReg r.badVAddr).registers loadReg = r.cpu.registers loadReg :=
    set_registers_ne _ (by decide) _
  refine ⟨_, cpu_delayedLoad_eq (delayedLoad_eq (by rw [hload]; exact hrange) _ _), rfl, fun k h0 htarget hk => ?_⟩
  simp only [List.mem_cons, List.not_mem_nil, or_false, not_or] at hk
  dsimp only
  unfold loaded
  rw [hload, if_neg h0, if_neg hk.2.2, if_neg hk.2.1, if_neg htarget, set_registers_ne _ hk.1]

/-- Overflow is trapped just when the result is no `int`. When the handler is entered, no register has changed but
register 0, the target of the load that was pending, and those that note the exception and the load. Otherwise the
destination has the result, unless it is register 0 or that target. -/
theorem overflow_traps_exact (hread : s.readMem (s.registers pcReg) 4 = pure (value, s'))
    (hchecked : checked value s.registers = some (dest, result))
    (hrange : (s.registers loadReg).toNat < numTotalRegs) :
    ((∃ r : Raised, s.oneInstruction = raise r ∧ r.which = .overflowException) ↔ Overflows result) ∧
    (∀ r : Raised, s.oneInstruction = raise r → ∃ u, raiseException r = .ok u ∧ u.registers 0 = 0#32 ∧
      ∀ k, k ≠ 0 → k ≠ (s.registers loadReg).toNat → k ∉ [badVAddrReg, loadReg, loadValueReg] →
        u.registers k = s.registers k) ∧
    (¬ Overflows result → ∃ u : Cpu, s.oneInstruction = pure u ∧
      (dest ≠ 0 → dest ≠ (s.registers loadReg).toNat → (u.registers dest).toInt = result)) := by
  have hreg := (fetch_of_readMem hread).2
  rcases oneInstruction_checked hread hchecked hrange with ⟨ho, hone⟩ | ⟨hno, u, hone, hu⟩
  · refine ⟨iff_of_true ⟨_, hone, rfl⟩ ho, fun r hr => ?_, fun hno => absurd ho hno⟩
    rw [hone] at hr
    cases hr
    rw [← hreg] at hrange ⊢
    exact raiseException_registers hrange
  · refine ⟨iff_of_false ?_ hno, fun r hr => ?_, fun _ => ⟨u, hone, hu⟩⟩
    · rintro ⟨r, hr, -⟩
      rw [hone] at hr
      cases hr
    · rw [hone] at hr
      cases hr

/-- `ADD r3, r1, r2` of 3 and 1, with a load of 9 into register 4 on its way. -/
theorem overflow_traps_exact_add :
    ∃ u : Cpu, (repeating 0x00221820#32 (operands 3#32 1#32 4#32 9#32)).oneInstruction = pure u ∧
      (u.registers 3).toInt = 4 := by
  obtain ⟨s, hread⟩ := @repeating_readMem 0x00221820#32 (operands 3#32 1#32 4#32 9#32) rfl
  have hchecked : checked 0x00221820#32 (operands 3#32 1#32 4#32 9#32) = some (3, 4) := by decide
  obtain ⟨-, -, hput⟩ := overflow_traps_exact hread hchecked (by decide)
  obtain ⟨u, hone, hu⟩ := hput (by decide)
  exact ⟨u, hone, hu (by decide) (by decide)⟩

/-- `ADD r0, r1, r2` of 1 and 2 leaves 0 in its destination, and the overflow of `ADD r3, r1, r2` with 5 in register 0
has the handler find 0 there. -/
theorem overflow_spares_zero :
    (checked 0x00220020#32 (operands 1#32 2#32 0#32 0#32) = some (0, 3) ∧
      ∃ u : Cpu, (repeating 0x00220020#32 (operands 1#32 2#32 0#32 0#32)).oneInstruction = pure u ∧
        u.registers 0 = 0#32) ∧
    ∃ r u, (repeating 0x00221820#32 (Function.update (operands 0x7fffffff#32 1#32 0#32 0#32) 0 5#32)).oneInstruction =
        raise r ∧ r.which = .overflowException ∧ raiseException r = .ok u ∧ u.registers 0 = 0#32 := by
  constructor
  · have hchecked : checked 0x00220020#32 (operands 1#32 2#32 0#32 0#32) = some (0, 3) := by decide
    obtain ⟨s, hread⟩ := @repeating_readMem 0x00220020#32 (operands 1#32 2#32 0#32 0#32) rfl
    rcases oneInstruction_checked hread hchecked (by decide) with ⟨ho, -⟩ | ⟨-, u, hone, -⟩
    · exact absurd ho (by decide)
    · have hends := oneInstruction_ends (repeating 0x00220020#32 (operands 1#32 2#32 0#32 0#32))
      rw [hone] at hends
      exact ⟨hchecked, u, hone, hends.of_pure.zero⟩
  · have hchecked : checked 0x00221820#32 (Function.update (operands 0x7fffffff#32 1#32 0#32 0#32) 0 5#32) =
        some (3, 2 ^ 31) := by decide
    obtain ⟨s, hread⟩ := @repeating_readMem 0x00221820#32
      (Function.update (operands 0x7fffffff#32 1#32 0#32 0#32) 0 5#32) rfl
    have hreg := (fetch_of_readMem hread).2
    rcases oneInstruction_checked hread hchecked (by decide) with ⟨-, hone⟩ | ⟨hno, -⟩
    · obtain ⟨u, hraise, hu, -⟩ := @raiseException_registers ⟨s, .overflowException, 0#32⟩ (by rw [hreg]; decide)
      exact ⟨_, u, hone, rfl, hraise, hu⟩
    · exact absurd (by decide) hno

end Cpu

end Nachos
