import Nachos.Machine.MipsSim

/-! # Integer instructions (`machine/mipssim.cc`)

What the architecture says an integer instruction writes, in its own terms: the fields of the word, the
operands as signed or unsigned numbers, immediates extended by sign or by zeros. `integer_instruction_iff`
compares the processor with it. -/
set_option autoImplicit false

namespace Nachos
open Buffer Execution Raising

/-! ## The architecture -/

namespace MipsI

/-- The five bits of the word from bit `start` on. -/
def field (value : BitVec 32) (start : ℕ) : ℕ := (value.extractLsb' start 5).toNat

def immediate (value : BitVec 32) : BitVec 16 := value.extractLsb' 0 16

/-- New values for some of the registers. -/
abbrev Writes := ℕ → Option (BitVec 32)

def one (num : ℕ) (value : BitVec 32) : Writes := fun k => if k = num then some value else none

def hiLo (hi lo : BitVec 32) : Writes :=
  fun k => if k = hiReg then some hi else if k = loReg then some lo else none

/-- What an integer instruction writes. There is nothing for the other instructions and for a quotient
that does not exist. -/
def writes (value : BitVec 32) (r : Registers) : Option Writes :=
  let rs := r (field value 21)
  let rt := r (field value 16)
  let toRd := fun result => some (one (field value 11) result)
  let toRt := fun result => some (one (field value 16) result)
  let signed := (immediate value).signExtend 32
  let unsigned := (immediate value).zeroExtend 32
  let shamt := field value 6
  let flag := fun (p : Prop) [Decidable p] => if p then 1#32 else 0#32
  match (decode value).opCode with
  | .addu => toRd (rs + rt)
  | .subu => toRd (rs - rt)
  | .addiu => toRt (rs + signed)
  | .and => toRd (rs &&& rt)
  | .andi => toRt (rs &&& unsigned)
  | .or => toRd (rs ||| rt)
  | .ori => toRt (rs ||| unsigned)
  | .xor => toRd (rs ^^^ rt)
  | .xori => toRt (rs ^^^ unsigned)
  | .nor => toRd (~~~(rs ||| rt))
  | .lui => toRt (immediate value ++ 0#16)
  | .slt => toRd (flag (rs.toInt < rt.toInt))
  | .slti => toRt (flag (rs.toInt < (immediate value).toInt))
  | .sltu => toRd (flag (rs.toNat < rt.toNat))
  | .sltiu => toRt (flag (rs.toNat < signed.toNat))
  | .sll => toRd (rt <<< shamt)
  | .sllv => toRd (rt <<< (rs.toNat % 32))
  | .srl => toRd (rt >>> shamt)
  | .srlv => toRd (rt >>> (rs.toNat % 32))
  | .sra => toRd (rt.sshiftRight shamt)
  | .srav => toRd (rt.sshiftRight (rs.toNat % 32))
  | .div =>
    if rt = 0#32 ∨ (rs = BitVec.intMin 32 ∧ rt = BitVec.allOnes 32) then none
    else some (hiLo (BitVec.ofInt 32 (rs.toInt.tmod rt.toInt)) (BitVec.ofInt 32 (rs.toInt.tdiv rt.toInt)))
  | .divu =>
    if rt = 0#32 then none
    else some (hiLo (BitVec.ofNat 32 (rs.toNat % rt.toNat)) (BitVec.ofNat 32 (rs.toNat / rt.toNat)))
  | .mfhi => toRd (r hiReg)
  | .mflo => toRd (r loReg)
  | .mthi => some (one hiReg rs)
  | .mtlo => some (one loReg rs)
  | _ => none

/-- The general registers, `HI` and `LO` after the instruction: register `0` is zero, and a load that was
pending arrives where the instruction does not write. -/
def after (r : Registers) (w : Writes) (k : ℕ) : BitVec 32 :=
  if k = 0 then 0#32
  else (w k).getD (if k = (r loadReg).toNat then r loadValueReg else r k)

/-- The operands on which the simulator computes what the architecture says. -/
def Exact (value : BitVec 32) (r : Registers) : Prop :=
  match (decode value).opCode with
  | .or => r (field value 16) &&& ~~~(r (field value 21)) = 0#32
  | .srl => field value 6 = 0 ∨ (r (field value 16)).msb = false
  | .srlv => (r (field value 21)).toNat % 32 = 0 ∨ (r (field value 16)).msb = false
  | _ => True

end MipsI

/-! ## Fields of the word -/

open MipsI

theorem and_31_toNat (x : BitVec 32) : (x &&& 0x1f#32).toNat = x.toNat % 32 := by
  rw [BitVec.toNat_and]
  exact Nat.and_two_pow_sub_one_eq_mod x.toNat 5

theorem field_eq (value : BitVec 32) (start : ℕ) : ((value >>> start) &&& 0x1f#32).toNat = field value start := by
  rw [and_31_toNat, BitVec.toNat_ushiftRight, field, BitVec.extractLsb'_toNat]

theorem decode_registers (value : BitVec 32) :
    (decode value).rs = field value 21 ∧ (decode value).rt = field value 16 ∧ (decode value).rd = field value 11 := by
  unfold decode
  dsimp only
  split <;> exact ⟨field_eq value 21, field_eq value 16, field_eq value 11⟩

theorem field_lt_32 (value : BitVec 32) (start : ℕ) : field value start < 32 := (value.extractLsb' start 5).isLt

theorem getLsbD_65535 (i : ℕ) (hi : i < 32) : (0xffff#32).getLsbD i = decide (i < 16) := by
  revert i
  decide

theorem getLsbD_high_half (i : ℕ) (hi : i < 32) : (0xffff0000#32).getLsbD i = decide (16 ≤ i) := by
  revert i
  decide

theorem immediate_getLsbD (value : BitVec 32) (i : ℕ) :
    (immediate value).getLsbD i = (decide (i < 16) && value.getLsbD i) := by
  simp [immediate, BitVec.getLsbD_extractLsb']

theorem sign_test (x : BitVec 32) : x &&& 0x8000#32 ≠ 0#32 ↔ x.getLsbD 15 = true := by
  have htwoPow : (0x8000#32) = BitVec.twoPow 32 15 := by decide
  rw [htwoPow, BitVec.and_twoPow]
  cases x.getLsbD 15 <;> decide

theorem extraOf_ifmt (value : BitVec 32) : extraOf value .ifmt = (immediate value).signExtend 32 := by
  apply BitVec.eq_of_getLsbD_eq
  intro i hi
  have hmsb : (immediate value).msb = value.getLsbD 15 := by
    rw [BitVec.msb_eq_getLsbD_last, immediate_getLsbD]
    rfl
  have hlow := getLsbD_65535 i hi
  have hhigh := getLsbD_high_half i hi
  have htest : (value &&& 0xffff#32) &&& 0x8000#32 ≠ 0#32 ↔ value.getLsbD 15 = true := by
    rw [sign_test, BitVec.getLsbD_and, getLsbD_65535 15 (by decide)]
    simp
  rw [BitVec.getLsbD_signExtend, hmsb, immediate_getLsbD]
  unfold extraOf
  dsimp only
  by_cases hsign : value.getLsbD 15 = true
  · rw [if_pos (htest.mpr hsign), BitVec.getLsbD_or, BitVec.getLsbD_and, hlow, hhigh, hsign]
    by_cases hi16 : i < 16
    · simp [hi, hi16, Nat.not_le_of_lt hi16]
    · simp [hi, hi16, Nat.le_of_not_lt hi16]
  · rw [if_neg (fun h => hsign (htest.mp h)), BitVec.getLsbD_and, hlow, Bool.eq_false_iff.mpr hsign]
    by_cases hi16 : i < 16 <;> simp [hi, hi16]

theorem extra_and_65535 (value : BitVec 32) : extraOf value .ifmt &&& 0xffff#32 = (immediate value).zeroExtend 32 := by
  apply BitVec.eq_of_getLsbD_eq
  intro i hi
  rw [extraOf_ifmt, BitVec.getLsbD_and, getLsbD_65535 i hi, BitVec.getLsbD_signExtend, BitVec.getLsbD_setWidth,
    immediate_getLsbD]
  by_cases hi16 : i < 16 <;> simp [hi, hi16]

theorem extra_shiftLeft_16 (value : BitVec 32) : extraOf value .ifmt <<< 16 = immediate value ++ 0#16 := by
  apply BitVec.eq_of_getLsbD_eq
  intro i hi
  rw [extraOf_ifmt, BitVec.getLsbD_shiftLeft, BitVec.getLsbD_signExtend, BitVec.getLsbD_append]
  by_cases hi16 : i < 16
  · simp [hi, hi16]
  · have hlow : i - 16 < 16 := by omega
    simp [hi, hi16, hlow]
    omega

theorem extraOf_rfmt_toNat (value : BitVec 32) : (extraOf value .rfmt).toNat = field value 6 := field_eq value 6

theorem decode_immediate (value : BitVec 32)
    (h : (decode value).opCode ∈ [OpCode.addi, .addiu, .andi, .ori, .xori, .lui, .slti, .sltiu]) :
    (decode value).extra = extraOf value .ifmt := by
  have hop : ∀ op format, OpInfo.op op format ∈ opTable →
      op ∈ [OpCode.addi, .addiu, .andi, .ori, .xori, .lui, .slti, .sltiu] → format = .ifmt := by
    intro op format hentry hmem
    cases format with
    | ifmt => rfl
    | jfmt | rfmt =>
      revert hentry
      revert op
      decide
  obtain ⟨format, hextra, hformat⟩ := decode_rule value hop (by decide) (by decide)
  rw [hextra, hformat h]

theorem decode_shamt (value : BitVec 32) (h : (decode value).opCode ∈ [OpCode.sll, .srl, .sra]) :
    (decode value).extra.toNat = field value 6 := by
  have hop : ∀ op format, OpInfo.op op format ∈ opTable → op ∈ [OpCode.sll, .srl, .sra] → format = .rfmt := by
    intro op format hentry hmem
    cases format with
    | rfmt => rfl
    | ifmt | jfmt =>
      revert hentry
      revert op
      decide
  obtain ⟨format, hextra, hformat⟩ := decode_rule value hop (by decide) (by decide)
  rw [hextra, hformat h, extraOf_rfmt_toNat]

/-! ## Operations -/

theorem or_self_eq_or_iff (a b : BitVec 32) : a ||| a = a ||| b ↔ b &&& ~~~a = 0#32 := by
  rw [BitVec.or_self]
  constructor
  · intro h
    apply BitVec.eq_of_getLsbD_eq
    intro i hi
    have hbit := congrArg (BitVec.getLsbD · i) h
    rw [BitVec.getLsbD_or] at hbit
    rw [BitVec.getLsbD_and, BitVec.getLsbD_not, BitVec.getLsbD_zero, decide_eq_true hi, Bool.true_and]
    revert hbit
    cases a.getLsbD i <;> cases b.getLsbD i <;> decide
  · intro h
    apply BitVec.eq_of_getLsbD_eq
    intro i hi
    have hbit := congrArg (BitVec.getLsbD · i) h
    rw [BitVec.getLsbD_and, BitVec.getLsbD_not, BitVec.getLsbD_zero, decide_eq_true hi, Bool.true_and] at hbit
    rw [BitVec.getLsbD_or]
    revert hbit
    cases a.getLsbD i <;> cases b.getLsbD i <;> decide

theorem sshiftRight_eq_ushiftRight_iff (x : BitVec 32) (n : ℕ) :
    x.sshiftRight n = x >>> n ↔ n = 0 ∨ x.msb = false := by
  constructor
  · intro h
    have hmsb := congrArg BitVec.msb h
    rw [BitVec.msb_sshiftRight, BitVec.msb_ushiftRight] at hmsb
    cases hx : x.msb with
    | false => exact Or.inr rfl
    | true =>
      rw [hx] at hmsb
      left
      simpa using hmsb
  · rintro (rfl | hmsb)
    · simp
    · exact BitVec.sshiftRight_eq_of_msb_false hmsb

theorem sdiv_eq_ofInt (a b : BitVec 32) : a.sdiv b = BitVec.ofInt 32 (a.toInt.tdiv b.toInt) := by
  apply BitVec.eq_of_toInt_eq
  rw [BitVec.toInt_sdiv, BitVec.toInt_ofInt]

theorem srem_eq_ofInt (a b : BitVec 32) : a.srem b = BitVec.ofInt 32 (a.toInt.tmod b.toInt) := by
  rw [← BitVec.toInt_srem, BitVec.ofInt_toInt]

theorem udiv_eq_ofNat (a b : BitVec 32) : a / b = BitVec.ofNat 32 (a.toNat / b.toNat) := by
  rw [← BitVec.toNat_udiv, BitVec.ofNat_toNat, BitVec.setWidth_eq]

theorem umod_eq_ofNat (a b : BitVec 32) : a % b = BitVec.ofNat 32 (a.toNat % b.toNat) := by
  rw [← BitVec.toNat_umod, BitVec.ofNat_toNat, BitVec.setWidth_eq]

/-! ## What the switch computes -/

/-- The machine after the switch: nothing is written but what the architecture writes, with the right
values just on operands that `P` admits. -/
def Cpu.Computes (s : Cpu) (w : Writes) (P : Prop) (run : Cycle Executed) : Prop :=
  ∃ s' : Cpu, run = pure s'.next ∧ (∀ k, w k = none → s'.registers k = s.registers k) ∧
    ∀ k v, w k = some v → k < pcReg ∧ (s'.registers k = v ↔ P)

namespace Cpu

theorem computes_put (s : Cpu) {num : ℕ} (hnum : num < pcReg) {value result : BitVec 32} {P : Prop}
    (h : result = value ↔ P) : s.Computes (one num value) P (pure (s.put num result)) := by
  refine ⟨s.set num result, rfl, fun k hk => ?_, fun k v hk => ?_⟩
  · have hne : k ≠ num := by
      rintro rfl
      simp [one] at hk
    exact Function.update_of_ne hne _ _
  · unfold one at hk
    split at hk
    · next heq =>
      cases hk
      rw [heq]
      exact ⟨hnum, by rw [show (s.set num result).registers num = result from Function.update_self _ _ _, h]⟩
    · cases hk

theorem computes_putHiLo (s : Cpu) (hi lo : BitVec 32) : s.Computes (hiLo hi lo) True (pure (s.putHiLo hi lo)) := by
  refine ⟨(s.set loReg lo).set hiReg hi, rfl, fun k hk => ?_, fun k v hk => ?_⟩
  · unfold hiLo at hk
    have hhi : k ≠ hiReg := by
      rintro rfl
      simp at hk
    have hlo : k ≠ loReg := by
      rintro rfl
      simp at hk
    exact (Function.update_of_ne hhi _ _).trans (Function.update_of_ne hlo _ _)
  · unfold hiLo at hk
    split at hk
    · next heq =>
      cases hk
      rw [heq]
      exact ⟨by decide, iff_of_true rfl trivial⟩
    · split at hk
      · next hne heq =>
        cases hk
        rw [heq]
        exact ⟨by decide, iff_of_true rfl trivial⟩
      · cases hk

theorem execute_computes {s : Cpu} {value : BitVec 32} {w : Writes} (hw : writes value s.registers = some w) :
    s.Computes w (Exact value s.registers) (s.execute (decode value)) := by
  obtain ⟨hrs, hrt, hrd⟩ := decode_registers value
  have hlt := fun start => Nat.lt_trans (field_lt_32 value start) (by decide : 32 < pcReg)
  have himm := decode_immediate value
  have hshamt := decode_shamt value
  unfold writes at hw
  unfold Exact execute
  rw [hrs, hrt, hrd]
  revert hw
  cases hop : (decode value).opCode with
  | addu | subu | and | xor | nor | mfhi | mflo =>
    intro hw
    cases hw
    exact s.computes_put (hlt 11) (iff_of_true rfl trivial)
  | mthi | mtlo =>
    intro hw
    cases hw
    exact s.computes_put (by decide) (iff_of_true rfl trivial)
  | or =>
    intro hw
    cases hw
    exact s.computes_put (hlt 11) (or_self_eq_or_iff _ _)
  | addiu =>
    intro hw
    cases hw
    exact s.computes_put (hlt 16) (iff_of_true (by rw [himm (by rw [hop]; decide), extraOf_ifmt]) trivial)
  | andi | ori | xori =>
    intro hw
    cases hw
    exact s.computes_put (hlt 16) (iff_of_true (by rw [himm (by rw [hop]; decide), extra_and_65535]) trivial)
  | lui =>
    intro hw
    cases hw
    exact s.computes_put (hlt 16) (iff_of_true (by rw [himm (by rw [hop]; decide), extra_shiftLeft_16]) trivial)
  | slt =>
    intro hw
    cases hw
    exact s.computes_put (hlt 11) (iff_of_true (by simp only [BitVec.slt_iff_toInt_lt]) trivial)
  | sltu =>
    intro hw
    cases hw
    exact s.computes_put (hlt 11) (iff_of_true (by simp only [BitVec.ult_iff_lt, BitVec.lt_def]) trivial)
  | slti =>
    intro hw
    cases hw
    have hsigned : ((immediate value).signExtend 32).toInt = (immediate value).toInt :=
      BitVec.toInt_signExtend_of_le (by decide)
    exact s.computes_put (hlt 16) (iff_of_true
      (by simp only [himm (by rw [hop]; decide), extraOf_ifmt, BitVec.slt_iff_toInt_lt, hsigned]) trivial)
  | sltiu =>
    intro hw
    cases hw
    exact s.computes_put (hlt 16) (iff_of_true
      (by simp only [himm (by rw [hop]; decide), extraOf_ifmt, BitVec.ult_iff_lt, BitVec.lt_def]) trivial)
  | sll | sra =>
    intro hw
    cases hw
    exact s.computes_put (hlt 11) (iff_of_true (by rw [hshamt (by rw [hop]; decide)]) trivial)
  | sllv | srav =>
    intro hw
    cases hw
    exact s.computes_put (hlt 11) (iff_of_true (by rw [and_31_toNat]) trivial)
  | srl =>
    intro hw
    cases hw
    exact s.computes_put (hlt 11) (by rw [hshamt (by rw [hop]; decide), sshiftRight_eq_ushiftRight_iff])
  | srlv =>
    intro hw
    cases hw
    exact s.computes_put (hlt 11) (by rw [and_31_toNat, sshiftRight_eq_ushiftRight_iff])
  | div =>
    intro hw
    dsimp only at hw ⊢
    split at hw
    · cases hw
    · next hdefined =>
      cases hw
      obtain ⟨hzero, hrange⟩ := not_or.mp hdefined
      have hexists : ¬ (s.registers (field value 21) = 0x80000000#32 ∧ s.registers (field value 16) = 0xffffffff#32) :=
        hrange
      unfold divide
      rw [if_neg hzero, if_neg hexists, sdiv_eq_ofInt, srem_eq_ofInt]
      exact s.computes_putHiLo _ _
  | divu =>
    intro hw
    dsimp only at hw ⊢
    split at hw
    · cases hw
    · next hzero =>
      cases hw
      rw [if_neg hzero, udiv_eq_ofNat, umod_eq_ofNat]
      exact s.computes_putHiLo _ _
  | _ =>
    intro hw
    cases hw

theorem finish_next {s : Cpu} (hrange : (s.registers loadReg).toNat < numTotalRegs) :
    ∃ u : Cpu, finish s.next = .ok u ∧
      ∀ k < pcReg, u.registers k = loaded s.registers (s.registers loadReg).toNat 0#32 0#32 k := by
  have hload := cpu_delayedLoad_eq (s := s) (delayedLoad_eq hrange 0#32 0#32)
  unfold finish
  change ∃ u : Cpu, (s.delayedLoad 0#32 0#32 >>= _) = Except.ok u ∧ _
  rw [hload]
  refine ⟨_, rfl, fun k hk => ?_⟩
  have hcontrol : k ≠ nextPCReg ∧ k ≠ pcReg ∧ k ≠ prevPCReg := by
    simp only [pcReg, nextPCReg, prevPCReg] at hk ⊢
    omega
  simp only [set, Function.update_of_ne hcontrol.1, Function.update_of_ne hcontrol.2.1,
    Function.update_of_ne hcontrol.2.2]

theorem finish_range {e : Executed} {u : Cpu} (h : finish e = .ok u) :
    (e.cpu.registers loadReg).toNat < numTotalRegs := by
  obtain ⟨v, hload, _⟩ := bind_eq_ok.mp h
  obtain ⟨r, hr, _⟩ := cpu_delayedLoad_eq_ok hload
  exact delayedLoad_range hr

theorem fetch_of_readMem {s s' : Cpu} {value : BitVec 32}
    (hread : s.readMem (s.registers pcReg) 4 = pure (value, s')) :
    s.fetch = pure (decode value, s') ∧ s'.registers = s.registers := by
  constructor
  · unfold fetch
    rw [hread]
    rfl
  · have hends := @readMem_ends 4 (fun _ => True) s (s.registers pcReg) (by decide)
    rw [hread] at hends
    exact hends.of_pure.1

theorem oneInstruction_next {s s' t : Cpu} {value : BitVec 32}
    (hread : s.readMem (s.registers pcReg) 4 = pure (value, s')) (hexecute : s'.execute (decode value) = pure t.next)
    (hrange : (t.registers loadReg).toNat < numTotalRegs) :
    ∃ u : Cpu, s.oneInstruction = pure u ∧
      ∀ k < pcReg, u.registers k = loaded t.registers (t.registers loadReg).toNat 0#32 0#32 k := by
  obtain ⟨u, hfinish, hu⟩ := finish_next hrange
  have hone := (oneInstruction_of_fetch (fetch_of_readMem hread).1).2.2 _ hexecute
  rw [hfinish] at hone
  exact ⟨u, hone, hu⟩

/-- One register after the delayed load, against what the architecture says. -/
theorem loaded_eq_after_iff {r t : Registers} {w : Writes} {P : Prop} {k : ℕ} (hk : k < pcReg)
    (hvalue : t loadValueReg = r loadValueReg) (hsame : w k = none → t k = r k)
    (hwritten : ∀ v, w k = some v → (t k = v ↔ P)) :
    loaded t (r loadReg).toNat 0#32 0#32 k = after r w k ↔
      ∀ v, w k = some v → k ≠ 0 → if k = (r loadReg).toNat then r loadValueReg = v else P := by
  have hcontrol : k ≠ loadValueReg ∧ k ≠ loadReg := by
    simp only [pcReg, loadValueReg, loadReg] at hk ⊢
    omega
  unfold loaded after
  rw [if_neg hcontrol.1, if_neg hcontrol.2, hvalue]
  by_cases hzero : k = 0
  · rw [if_pos hzero, if_pos hzero]
    exact iff_of_true rfl fun v _ hne => absurd hzero hne
  · rw [if_neg hzero, if_neg hzero]
    cases hwk : w k with
    | none =>
      rw [hsame hwk]
      exact iff_of_true rfl nofun
    | some v =>
      have hv := hwritten v hwk
      constructor
      · intro h v' hv' _
        cases hv'
        split at h
        · next htarget => rwa [if_pos htarget]
        · next htarget => exact (if_neg htarget).symm ▸ hv.mp h
      · intro h
        have h' := h v rfl hzero
        split at h'
        · next htarget => rwa [if_pos htarget]
        · next htarget => rw [if_neg htarget]; exact hv.mpr h'

/-- The instruction at the program counter does what the architecture says just when the load that is pending
goes elsewhere, or brings the very result, and the operation is not one of those that are coded wrong: `OR`
takes `rs` for both operands, and the logical shifts to the right copy the sign. -/
theorem integer_instruction_iff {s s' : Cpu} {value : BitVec 32} {w : Writes}
    (hread : s.readMem (s.registers pcReg) 4 = pure (value, s')) (hw : writes value s.registers = some w) :
    (∃ u : Cpu, s.oneInstruction = pure u ∧ ∀ k < pcReg, u.registers k = after s.registers w k) ↔
      (s.registers loadReg).toNat < numTotalRegs ∧ ∀ k v, w k = some v → k ≠ 0 →
        if k = (s.registers loadReg).toNat then s.registers loadValueReg = v else Exact value s.registers := by
  obtain ⟨hfetch, hreg⟩ := fetch_of_readMem hread
  rw [← hreg] at hw ⊢
  obtain ⟨t, hexecute, hsame, hwritten⟩ := execute_computes hw
  have hcontrol : ∀ k, pcReg ≤ k → t.registers k = s'.registers k := by
    intro k hk
    apply hsame
    cases hwk : w k with
    | none => rfl
    | some v => exact absurd (hwritten k v hwk).1 (Nat.not_lt_of_le hk)
  have hload := hcontrol loadReg (by decide)
  by_cases hrange : (s'.registers loadReg).toNat < numTotalRegs
  · obtain ⟨u, hone, hu⟩ := oneInstruction_next hread hexecute (by rw [hload]; exact hrange)
    rw [hload] at hu
    have hregister := fun k (hk : k < pcReg) =>
      loaded_eq_after_iff hk (hcontrol loadValueReg (by decide)) (hsame k) (fun v hv => (hwritten k v hv).2)
    constructor
    · rintro ⟨u', hu', hafter⟩
      rw [hone] at hu'
      cases hu'
      refine ⟨hrange, fun k v hv => ?_⟩
      have hk := (hwritten k v hv).1
      exact (hregister k hk).mp ((hu k hk).symm.trans (hafter k hk)) v hv
    · rintro ⟨_, hall⟩
      exact ⟨u, hone, fun k hk => (hu k hk).trans ((hregister k hk).mpr (hall k))⟩
  · refine iff_of_false ?_ fun h => hrange h.1
    rintro ⟨u, hu, _⟩
    have hone := (oneInstruction_of_fetch hfetch).2.2 _ hexecute
    cases hfinish : finish t.next with
    | error trap =>
      rw [hone, hfinish] at hu
      cases hu
    | ok v => exact hrange (hload ▸ finish_range hfinish)

/-- A machine with a single page, all of whose words are the same instruction. -/
def repeating (word : BitVec 32) (r : Registers) : Cpu where
  registers := r
  pageTable := fun v => ⟨v, v, true, false, false, false⟩
  pageTableSize := 1
  mainMemory := ofWords fun _ => word

theorem repeating_readMem (word : BitVec 32) {r : Registers} (hpc : r pcReg = 0#32) :
    ∃ s, (repeating word r).readMem (r pcReg) 4 = pure (word, s) := by
  have htrans : translate (repeating word r).pageTable 1 (r pcReg).toInt 4 false = .ok (.ok (0,
      Function.update (repeating word r).pageTable 0 (((repeating word r).pageTable 0).touched false))) := by
    rw [hpc]
    exact @translate_mapped 4 1 (repeating word r).pageTable 0 0 false (Or.inr ⟨rfl, rfl⟩) (by decide) (by decide) rfl
      nofun (by decide) rfl
  have hword : wordAt (repeating word r).mainMemory 0 = word := wordAt_ofWords (fun _ => word) 0
  have hread := @readMem_word (r pcReg) 0 _ (repeating word r) htrans
  rw [hword] at hread
  exact ⟨_, hread⟩

/-- The register file of the cases below: two operands, and a load that is pending. -/
def operands (a b load value : BitVec 32) : Registers := fun k =>
  if k = 1 then a else if k = 2 then b else if k = loadReg then load else if k = loadValueReg then value else 0#32

/-- `OR r3, r1, r2` of 3 and 1, with a load of 9 into register 4 on its way. -/
theorem integer_instruction_or :
    writes 0x00221825#32 (operands 3#32 1#32 4#32 9#32) = some (one 3 3#32) ∧
    ∃ u : Cpu, (repeating 0x00221825#32 (operands 3#32 1#32 4#32 9#32)).oneInstruction = pure u ∧
      ∀ k < pcReg, u.registers k = after (operands 3#32 1#32 4#32 9#32) (one 3 3#32) k := by
  have hw : writes 0x00221825#32 (operands 3#32 1#32 4#32 9#32) = some (one 3 3#32) := rfl
  obtain ⟨s, hread⟩ := @repeating_readMem 0x00221825#32 (operands 3#32 1#32 4#32 9#32) rfl
  refine ⟨hw, (integer_instruction_iff hread hw).mpr ⟨by decide, fun k v hv hk => ?_⟩⟩
  have hk3 : k = 3 := by
    by_contra hne
    simp [one, hne] at hv
  subst hk3
  exact (by decide : (1#32 &&& ~~~3#32) = 0#32)

theorem repeating_put {word : BitVec 32} {r : Registers} (hpc : r pcReg = 0#32) (value : BitVec 32)
    (hexecute : ∀ s : Cpu, s.registers = r → s.execute (decode word) = pure (s.put 3 value))
    (hload : (r loadReg).toNat < numTotalRegs) :
    ∃ u : Cpu, (repeating word r).oneInstruction = pure u ∧
      u.registers 3 = if 3 = (r loadReg).toNat then r loadValueReg else value := by
  obtain ⟨s, hread⟩ := repeating_readMem word hpc
  have hreg : s.registers = r := (fetch_of_readMem hread).2
  have hregisters : (s.set 3 value).registers loadReg = r loadReg := by rw [← hreg]; rfl
  obtain ⟨u, hone, hu⟩ := oneInstruction_next hread (hexecute s hreg) (by rw [hregisters]; exact hload)
  refine ⟨u, hone, ?_⟩
  rw [hu 3 (by decide), hregisters, ← hreg]
  rfl

/-- `OR` of 1 and 2 gives 1, `SRL` and `SRLV` of the most negative number by one place give a negative number, and
`ADDU` of 1 and 2 gives 9 if a load of 9 into its destination is on its way. -/
theorem integer_instruction_wrong :
    (writes 0x00221825#32 (operands 1#32 2#32 0#32 0#32) = some (one 3 3#32) ∧
      ∃ u : Cpu, (repeating 0x00221825#32 (operands 1#32 2#32 0#32 0#32)).oneInstruction = pure u ∧
        u.registers 3 = 1#32) ∧
    (writes 0x00021842#32 (operands 1#32 0x80000000#32 0#32 0#32) = some (one 3 0x40000000#32) ∧
      ∃ u : Cpu, (repeating 0x00021842#32 (operands 1#32 0x80000000#32 0#32 0#32)).oneInstruction = pure u ∧
        u.registers 3 = 0xc0000000#32) ∧
    (writes 0x00221806#32 (operands 1#32 0x80000000#32 0#32 0#32) = some (one 3 0x40000000#32) ∧
      ∃ u : Cpu, (repeating 0x00221806#32 (operands 1#32 0x80000000#32 0#32 0#32)).oneInstruction = pure u ∧
        u.registers 3 = 0xc0000000#32) ∧
    (writes 0x00221821#32 (operands 1#32 2#32 3#32 9#32) = some (one 3 3#32) ∧
      ∃ u : Cpu, (repeating 0x00221821#32 (operands 1#32 2#32 3#32 9#32)).oneInstruction = pure u ∧
        u.registers 3 = 9#32) := by
  refine ⟨⟨rfl, ?_⟩, ⟨rfl, ?_⟩, ⟨rfl, ?_⟩, rfl, ?_⟩
  · exact repeating_put rfl 1#32 (fun s hs => by
      have hdecode : decode 0x00221825#32 = ⟨.or, 1, 2, 3, 0#32⟩ := by decide
      rw [hdecode]
      change pure (s.put 3 (s.registers 1 ||| s.registers 1)) = _
      rw [hs]
      rfl) (by decide)
  · exact repeating_put rfl 0xc0000000#32 (fun s hs => by
      have hdecode : decode 0x00021842#32 = ⟨.srl, 0, 2, 3, 1#32⟩ := by decide
      rw [hdecode]
      change pure (s.put 3 ((s.registers 2).sshiftRight 1)) = _
      rw [hs]
      rfl) (by decide)
  · exact repeating_put rfl 0xc0000000#32 (fun s hs => by
      have hdecode : decode 0x00221806#32 = ⟨.srlv, 1, 2, 3, 0#32⟩ := by decide
      rw [hdecode]
      change pure (s.put 3 ((s.registers 2).sshiftRight (s.registers 1 &&& 0x1f#32).toNat)) = _
      rw [hs]
      rfl) (by decide)
  · exact repeating_put rfl 3#32 (fun s hs => by
      have hdecode : decode 0x00221821#32 = ⟨.addu, 1, 2, 3, 0#32⟩ := by decide
      rw [hdecode]
      change pure (s.put 3 (s.registers 1 + s.registers 2)) = _
      rw [hs]
      rfl) (by decide)

end Cpu

end Nachos
