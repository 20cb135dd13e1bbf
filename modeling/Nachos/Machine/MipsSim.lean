import Nachos.Library.Raising
import Nachos.Machine.Translate

/-! # The processor (`machine/mipssim.cc`, `machine/mipssim.h`)

The 40 registers of the simulated machine hold 32-bit words, and `oneInstruction` fetches, decodes and
executes one instruction. A cycle of the processor can raise a MIPS exception, which hands the machine
as it then is to `raiseException`, or can trap the host: by a failed `ASSERT`, by a division whose result
does not exist, or by a delayed load into a register that is none. `int` arithmetic wraps; a shift to the
right of an `int` keeps its sign. -/
set_option autoImplicit false

namespace Nachos
open Buffer Execution Raising

variable {size : Int} {nextReg nextValue addr : BitVec 32} {num phys rt : ℕ} {table : PageTable}

abbrev numTotalRegs : ℕ := 40
abbrev retAddrReg : ℕ := 31
abbrev hiReg : ℕ := 32
abbrev loReg : ℕ := 33
abbrev pcReg : ℕ := 34
abbrev nextPCReg : ℕ := 35
abbrev prevPCReg : ℕ := 36
abbrev loadReg : ℕ := 37
abbrev loadValueReg : ℕ := 38
abbrev badVAddrReg : ℕ := 39

/-! ## Decoding -/

inductive OpCode where
  | add | addi | addiu | addu | and | andi | beq | bgez | bgezal | bgtz | blez | bltz | bltzal | bne
  | div | divu | j | jal | jalr | jr | lb | lbu | lh | lhu | lui | lw | lwl | lwr
  | mfhi | mflo | mthi | mtlo | mult | multu | nor | or | ori | rfe | sb | sh | sll | sllv
  | slt | slti | sltiu | sltu | sra | srav | srl | srlv | sub | subu | sw | swl | swr | xor | xori
  | syscall | unimp | res
  deriving DecidableEq, Repr

inductive Format where
  | ifmt
  | jfmt
  | rfmt
  deriving DecidableEq, Repr

/-- An entry of `opTable`: an operation, or a word that needs further decoding. -/
inductive OpInfo where
  | special
  | bcond
  | op (opCode : OpCode) (format : Format)
  deriving DecidableEq, Repr

/-- Bits 31 to 26 of the instruction. -/
def opTable : List OpInfo :=
  [.special, .bcond, .op .j .jfmt, .op .jal .jfmt,
   .op .beq .ifmt, .op .bne .ifmt, .op .blez .ifmt, .op .bgtz .ifmt,
   .op .addi .ifmt, .op .addiu .ifmt, .op .slti .ifmt, .op .sltiu .ifmt,
   .op .andi .ifmt, .op .ori .ifmt, .op .xori .ifmt, .op .lui .ifmt,
   .op .unimp .ifmt, .op .unimp .ifmt, .op .unimp .ifmt, .op .unimp .ifmt,
   .op .res .ifmt, .op .res .ifmt, .op .res .ifmt, .op .res .ifmt,
   .op .res .ifmt, .op .res .ifmt, .op .res .ifmt, .op .res .ifmt,
   .op .res .ifmt, .op .res .ifmt, .op .res .ifmt, .op .res .ifmt,
   .op .lb .ifmt, .op .lh .ifmt, .op .lwl .ifmt, .op .lw .ifmt,
   .op .lbu .ifmt, .op .lhu .ifmt, .op .lwr .ifmt, .op .res .ifmt,
   .op .sb .ifmt, .op .sh .ifmt, .op .swl .ifmt, .op .sw .ifmt,
   .op .res .ifmt, .op .res .ifmt, .op .swr .ifmt, .op .res .ifmt,
   .op .unimp .ifmt, .op .unimp .ifmt, .op .unimp .ifmt, .op .unimp .ifmt,
   .op .res .ifmt, .op .res .ifmt, .op .res .ifmt, .op .res .ifmt,
   .op .unimp .ifmt, .op .unimp .ifmt, .op .unimp .ifmt, .op .unimp .ifmt,
   .op .res .ifmt, .op .res .ifmt, .op .res .ifmt, .op .res .ifmt]

/-- The "funct" field of `SPECIAL` instructions. -/
def specialTable : List OpCode :=
  [.sll, .res, .srl, .sra, .sllv, .res, .srlv, .srav,
   .jr, .jalr, .res, .res, .syscall, .unimp, .res, .res,
   .mfhi, .mthi, .mflo, .mtlo, .res, .res, .res, .res,
   .mult, .multu, .div, .divu, .res, .res, .res, .res,
   .add, .addu, .sub, .subu, .and, .or, .xor, .nor,
   .res, .res, .slt, .sltu, .res, .res, .res, .res,
   .res, .res, .res, .res, .res, .res, .res, .res,
   .res, .res, .res, .res, .res, .res, .res, .res]

structure Instruction where
  opCode : OpCode
  rs : ℕ
  rt : ℕ
  rd : ℕ
  extra : BitVec 32
  deriving DecidableEq, Repr

/-- The immediate, the shift amount or the target. -/
def extraOf (value : BitVec 32) : Format → BitVec 32
  | .ifmt =>
    let extra := value &&& 0xffff#32
    if extra &&& 0x8000#32 ≠ 0#32 then extra ||| 0xffff0000#32 else extra
  | .rfmt => (value >>> 6) &&& 0x1f#32
  | .jfmt => value &&& 0x3ffffff#32

def bcondOf (value : BitVec 32) : OpCode :=
  let i := value &&& 0x1f0000#32
  if i = 0#32 then .bltz
  else if i = 0x10000#32 then .bgez
  else if i = 0x100000#32 then .bltzal
  else if i = 0x110000#32 then .bgezal
  else .unimp

/-- `Instruction::Decode`. -/
def decode (value : BitVec 32) : Instruction :=
  let instr (opCode : OpCode) (format : Format) : Instruction :=
    { opCode := opCode
      rs := ((value >>> 21) &&& 0x1f#32).toNat
      rt := ((value >>> 16) &&& 0x1f#32).toNat
      rd := ((value >>> 11) &&& 0x1f#32).toNat
      extra := extraOf value format }
  match opTable.getD ((value >>> 26) &&& 0x3f#32).toNat (.op .res .ifmt) with
  | .special => instr (specialTable.getD (value &&& 0x3f#32).toNat .res) .rfmt
  | .bcond => instr (bcondOf value) .ifmt
  | .op opCode format => instr opCode format

theorem getD_mem {α : Type} {l : List α} {d : α} (hd : d ∈ l) (i : ℕ) : l.getD i d ∈ l := by
  rw [List.getD_eq_getElem?_getD]
  cases hentry : l[i]? with
  | none => exact hd
  | some entry => exact List.mem_of_getElem? hentry

theorem bcondOf_mem (value : BitVec 32) : bcondOf value ∈ [.bltz, .bgez, .bltzal, .bgezal, .unimp] := by
  unfold bcondOf
  dsimp only
  repeat' split
  all_goals decide

/-- What holds of the entries of the tables holds of what an instruction word decodes to. -/
theorem decode_rule (value : BitVec 32) {P : OpCode → Format → Prop}
    (hop : ∀ op format, OpInfo.op op format ∈ opTable → P op format) (hspecial : ∀ op ∈ specialTable, P op .rfmt)
    (hbcond : ∀ op ∈ [OpCode.bltz, .bgez, .bltzal, .bgezal, .unimp], P op .ifmt) :
    ∃ format, (decode value).extra = extraOf value format ∧ P (decode value).opCode format := by
  have hentry : opTable.getD ((value >>> 26) &&& 0x3f#32).toNat (.op .res .ifmt) ∈ opTable := getD_mem (by decide) _
  unfold decode
  dsimp only
  cases h : opTable.getD ((value >>> 26) &&& 0x3f#32).toNat (.op .res .ifmt) with
  | special => exact ⟨.rfmt, rfl, hspecial _ (getD_mem (by decide) _)⟩
  | bcond => exact ⟨.ifmt, rfl, hbcond _ (bcondOf_mem value)⟩
  | op opCode format => exact ⟨format, rfl, hop opCode format (h ▸ hentry)⟩

/-! ## The machine -/

/-- The registers of the machine; `numTotalRegs` of them count. -/
abbrev Registers := ℕ → BitVec 32

/-- `Machine::DelayedLoad`. -/
def delayedLoad (r : Registers) (nextReg nextValue : BitVec 32) : Call Registers :=
  let target := (r loadReg).toNat
  if target < numTotalRegs then
    let r := Function.update r target (r loadValueReg)
    let r := Function.update r loadReg nextReg
    let r := Function.update r loadValueReg nextValue
    .ok (Function.update r 0 0#32)
  else .error (.outOfBounds .registers)

structure Cpu where
  registers : Registers
  pageTable : PageTable
  pageTableSize : ℕ
  mainMemory : Image

variable {s s' : Cpu} {instr : Instruction}

/-- A call of `RaiseException`, with the machine as it is at that moment. -/
structure Raised where
  cpu : Cpu
  which : ExceptionType
  badVAddr : BitVec 32

/-- A part of a cycle of the processor. -/
abbrev Cycle (α : Type) := Run Trap Raised α

namespace Cpu

def set (s : Cpu) (num : ℕ) (value : BitVec 32) : Cpu :=
  { s with registers := Function.update s.registers num value }

/-- `Machine::ReadMem`. -/
def readMem (s : Cpu) (addr : BitVec 32) (size : Int) : Cycle (BitVec 32 × Cpu) :=
  match Nachos.readMem s.pageTable s.pageTableSize s.mainMemory addr.toInt size with
  | .error trap => fail trap
  | .ok (.error which) => raise ⟨s, which, addr⟩
  | .ok (.ok (value, table)) => pure (BitVec.ofInt 32 value, { s with pageTable := table })

/-- `Machine::WriteMem`. -/
def writeMem (s : Cpu) (addr : BitVec 32) (size : Int) (value : BitVec 32) : Cycle Cpu :=
  match Nachos.writeMem s.pageTable s.pageTableSize s.mainMemory addr.toInt size value.toInt with
  | .error trap => fail trap
  | .ok (.error which) => raise ⟨s, which, addr⟩
  | .ok (.ok (mem, table)) => pure { s with pageTable := table, mainMemory := mem }

def delayedLoad (s : Cpu) (nextReg nextValue : BitVec 32) : Call Cpu := do
  let registers ← Nachos.delayedLoad s.registers nextReg nextValue
  return { s with registers := registers }

/-- `Machine::RaiseException`, up to the call of the handler. -/
def raiseException (r : Raised) : Call Cpu :=
  (r.cpu.set badVAddrReg r.badVAddr).delayedLoad 0#32 0#32

end Cpu

/-! ## Delayed loads -/

/-- The registers after a delayed load into register `target`. -/
def loaded (r : Registers) (target : ℕ) (nextReg nextValue : BitVec 32) (k : ℕ) : BitVec 32 :=
  if k = 0 then 0#32
  else if k = loadValueReg then nextValue
  else if k = loadReg then nextReg
  else if k = target then r loadValueReg
  else r k

theorem delayedLoad_eq {r : Registers} (hrange : (r loadReg).toNat < numTotalRegs) (nextReg nextValue : BitVec 32) :
    delayedLoad r nextReg nextValue = .ok (loaded r (r loadReg).toNat nextReg nextValue) := by
  unfold delayedLoad
  dsimp only
  rw [if_pos hrange]
  congr 1
  funext k
  unfold loaded
  simp only [Function.update_apply]

theorem delayedLoad_range {r r' : Registers}
    (h : delayedLoad r nextReg nextValue = .ok r') : (r loadReg).toNat < numTotalRegs := by
  by_contra hrange
  unfold delayedLoad at h
  dsimp only at h
  rw [if_neg hrange] at h
  cases h

theorem delayedLoad_eq_ok {r r' : Registers}
    (h : delayedLoad r nextReg nextValue = .ok r') : r' = loaded r (r loadReg).toNat nextReg nextValue := by
  rw [delayedLoad_eq (delayedLoad_range h)] at h
  exact (Except.ok.inj h).symm

theorem cpu_delayedLoad_eq_ok {u : Cpu} (h : s.delayedLoad nextReg nextValue = .ok u) :
    ∃ r, delayedLoad s.registers nextReg nextValue = .ok r ∧ u = { s with registers := r } := by
  obtain ⟨r, hr, hu⟩ := bind_eq_ok.mp h
  cases hu
  exact ⟨r, hr, rfl⟩

theorem cpu_delayedLoad_eq {r : Registers} (h : delayedLoad s.registers nextReg nextValue = .ok r) :
    s.delayedLoad nextReg nextValue = .ok { s with registers := r } := by
  unfold Cpu.delayedLoad
  rw [h]
  rfl

/-! ## Multiplication -/

/-- The loop of `Mult`, with `n` rounds to go. -/
def multLoop : ℕ → (a bLo bHi lo hi : BitVec 32) → BitVec 32 × BitVec 32
  | 0, _, _, _, lo, hi => (hi, lo)
  | n + 1, a, bLo, bHi, lo, hi =>
    let sum := lo + bLo
    let carry := if sum < bLo then hi + 1#32 else hi
    let (lo', hi') := if a &&& 1#32 ≠ 0#32 then (sum, carry + bHi) else (lo, hi)
    if a &&& 1#32 ≠ 0#32 ∧ a &&& 0xfffffffe#32 = 0#32 then (hi', lo')
    else
      let bHi' := bHi <<< 1
      multLoop n (a.sshiftRight 1) (bLo <<< 1)
        (if bLo &&& 0x80000000#32 ≠ 0#32 then bHi' ||| 1#32 else bHi') lo' hi'

/-- The high and the low word of the product. -/
def mult (a b : BitVec 32) (signedArith : Bool) : BitVec 32 × BitVec 32 :=
  if a = 0#32 ∨ b = 0#32 then (0#32, 0#32)
  else
    let a' := if signedArith ∧ a.slt 0#32 then -a else a
    let b' := if signedArith ∧ b.slt 0#32 then -b else b
    let negative := signedArith && (a.slt 0#32 ^^ b.slt 0#32)
    let (hi, lo) := multLoop 32 a' b' 0#32 0#32 0#32
    if negative then
      let lo := ~~~lo + 1#32
      (if lo = 0#32 then ~~~hi + 1#32 else ~~~hi, lo)
    else (hi, lo)

/-! ## Partial words -/

/-- The new value of the register, by the two low bits of the address. -/
def lwlValue (tmp value old : BitVec 32) : BitVec 32 :=
  if tmp &&& 3#32 = 0#32 then value
  else if tmp &&& 3#32 = 1#32 then (old &&& 0xff#32) ||| (value <<< 8)
  else if tmp &&& 3#32 = 2#32 then (old &&& 0xffff#32) ||| (value <<< 16)
  else (old &&& 0xffffff#32) ||| (value <<< 24)

def lwrValue (tmp value old : BitVec 32) : BitVec 32 :=
  if tmp &&& 3#32 = 0#32 then (old &&& 0xffffff00#32) ||| (value.sshiftRight 24 &&& 0xff#32)
  else if tmp &&& 3#32 = 1#32 then (old &&& 0xffff0000#32) ||| (value.sshiftRight 16 &&& 0xffff#32)
  else if tmp &&& 3#32 = 2#32 then (old &&& 0xff000000#32) ||| (value.sshiftRight 8 &&& 0xffffff#32)
  else value

/-- The new value of the word in memory. -/
def swlValue (tmp value rt : BitVec 32) : BitVec 32 :=
  if tmp &&& 3#32 = 0#32 then rt
  else if tmp &&& 3#32 = 1#32 then (value &&& 0xff000000#32) ||| (rt.sshiftRight 8 &&& 0xffffff#32)
  else if tmp &&& 3#32 = 2#32 then (value &&& 0xffff0000#32) ||| (rt.sshiftRight 16 &&& 0xffff#32)
  else (value &&& 0xffffff00#32) ||| (rt.sshiftRight 24 &&& 0xff#32)

def swrValue (tmp value rt : BitVec 32) : BitVec 32 :=
  if tmp &&& 3#32 = 0#32 then (value &&& 0xffffff#32) ||| (rt <<< 24)
  else if tmp &&& 3#32 = 1#32 then (value &&& 0xffff#32) ||| (rt <<< 16)
  else if tmp &&& 3#32 = 2#32 then (value &&& 0xff#32) ||| (rt <<< 8)
  else rt

/-! ## One instruction -/

/-- What is left to do once the operation is done. -/
structure Executed where
  cpu : Cpu
  pcAfter : BitVec 32
  nextLoadReg : BitVec 32
  nextLoadValue : BitVec 32

def hasSign (x : BitVec 32) : Bool := x &&& 0x80000000#32 != 0#32

namespace Cpu

/-- No branch, no load. -/
def next (s : Cpu) : Executed := ⟨s, s.registers nextPCReg + 4#32, 0#32, 0#32⟩

def jump (s : Cpu) (pcAfter : BitVec 32) : Executed := ⟨s, pcAfter, 0#32, 0#32⟩

def branch (s : Cpu) (taken : Bool) (extra : BitVec 32) : Executed :=
  s.jump (if taken then s.registers nextPCReg + (extra <<< 2) else s.registers nextPCReg + 4#32)

def load (s : Cpu) (rt : ℕ) (value : BitVec 32) : Executed :=
  ⟨s, s.registers nextPCReg + 4#32, BitVec.ofNat 32 rt, value⟩

/-- `registers[num] = value`, and no branch. -/
def put (s : Cpu) (num : ℕ) (value : BitVec 32) : Executed := (s.set num value).next

/-- The same unless the operation overflows. -/
def putUnless (s : Cpu) (overflow : Bool) (num : ℕ) (value : BitVec 32) : Cycle Executed :=
  if overflow then raise ⟨s, .overflowException, 0#32⟩ else pure (s.put num value)

def putHiLo (s : Cpu) (hi lo : BitVec 32) : Executed := ((s.set loReg lo).set hiReg hi).next

/-- The register of a partial load, or what is on its way to it. -/
def pendingValue (s : Cpu) (rt : ℕ) : BitVec 32 :=
  if s.registers loadReg = BitVec.ofNat 32 rt then s.registers loadValueReg else s.registers rt

/-- A load that extends the value it reads. -/
def loadWith (s : Cpu) (tmp : BitVec 32) (size : Int) (rt : ℕ) (extend : BitVec 32 → BitVec 32) :
    Cycle Executed := do
  let (value, s) ← s.readMem tmp size
  return s.load rt (extend value)

/-- A load that merges the value it reads into the register. -/
def loadMerge (s : Cpu) (tmp : BitVec 32) (rt : ℕ) (merge : BitVec 32 → BitVec 32 → BitVec 32) :
    Cycle Executed :=
  if tmp &&& 3#32 ≠ 0#32 then fail .assertFailed
  else do
    let (value, s) ← s.readMem tmp 4
    return s.load rt (merge value (s.pendingValue rt))

def store (s : Cpu) (tmp : BitVec 32) (size : Int) (value : BitVec 32) : Cycle Executed := do
  let s ← s.writeMem tmp size value
  return s.next

/-- A store that merges the register into the word it reads. -/
def storeMerge (s : Cpu) (tmp : BitVec 32) (merge : BitVec 32 → BitVec 32) : Cycle Executed :=
  if tmp &&& 3#32 ≠ 0#32 then fail .assertFailed
  else do
    let (value, s) ← s.readMem (tmp &&& ~~~3#32) 4
    s.store (tmp &&& ~~~3#32) 4 (merge value)

/-- The quotient of the most negative number and `-1` is no `int`. -/
def divide (s : Cpu) (a b : BitVec 32) : Cycle Executed :=
  if b = 0#32 then pure (s.putHiLo 0#32 0#32)
  else if a = 0x80000000#32 ∧ b = 0xffffffff#32 then fail .overflow
  else pure (s.putHiLo (a.srem b) (a.sdiv b))

/-- The switch of `Machine::OneInstruction`. -/
def execute (s : Cpu) (instr : Instruction) : Cycle Executed :=
  let rs := s.registers instr.rs
  let rt := s.registers instr.rt
  let extra := instr.extra
  let tmp := rs + extra
  let link := s.registers nextPCReg + 4#32
  match instr.opCode with
  | .add => s.putUnless (! hasSign (rs ^^^ rt) && hasSign (rs ^^^ (rs + rt))) instr.rd (rs + rt)
  | .addi => s.putUnless (! hasSign (rs ^^^ extra) && hasSign (extra ^^^ tmp)) instr.rt tmp
  | .addiu => pure (s.put instr.rt tmp)
  | .addu => pure (s.put instr.rd (rs + rt))
  | .and => pure (s.put instr.rd (rs &&& rt))
  | .andi => pure (s.put instr.rt (rs &&& (extra &&& 0xffff#32)))
  | .beq => pure (s.branch (rs == rt) extra)
  | .bgezal =>
    let s := s.set retAddrReg link
    pure (s.branch (! hasSign (s.registers instr.rs)) extra)
  | .bgez => pure (s.branch (! hasSign rs) extra)
  | .bgtz => pure (s.branch (BitVec.slt 0#32 rs) extra)
  | .blez => pure (s.branch (rs.sle 0#32) extra)
  | .bltzal =>
    let s := s.set retAddrReg link
    pure (s.branch (hasSign (s.registers instr.rs)) extra)
  | .bltz => pure (s.branch (hasSign rs) extra)
  | .bne => pure (s.branch (rs != rt) extra)
  | .div => s.divide rs rt
  | .divu => pure (if rt = 0#32 then s.putHiLo 0#32 0#32 else s.putHiLo (rs % rt) (rs / rt))
  | .jal => pure ((s.set retAddrReg link).jump ((link &&& 0xf0000000#32) ||| (extra <<< 2)))
  | .j => pure (s.jump ((link &&& 0xf0000000#32) ||| (extra <<< 2)))
  | .jalr =>
    let s := s.set instr.rd link
    pure (s.jump (s.registers instr.rs))
  | .jr => pure (s.jump rs)
  | .lb => s.loadWith tmp 1 instr.rt fun value =>
      if value &&& 0x80#32 ≠ 0#32 then value ||| 0xffffff00#32 else value &&& 0xff#32
  | .lbu => s.loadWith tmp 1 instr.rt fun value => value &&& 0xff#32
  | .lh =>
    if tmp &&& 1#32 ≠ 0#32 then raise ⟨s, .addressErrorException, tmp⟩
    else s.loadWith tmp 2 instr.rt fun value =>
      if value &&& 0x8000#32 ≠ 0#32 then value ||| 0xffff0000#32 else value &&& 0xffff#32
  | .lhu =>
    if tmp &&& 1#32 ≠ 0#32 then raise ⟨s, .addressErrorException, tmp⟩
    else s.loadWith tmp 2 instr.rt fun value => value &&& 0xffff#32
  | .lui => pure (s.put instr.rt (extra <<< 16))
  | .lw =>
    if tmp &&& 3#32 ≠ 0#32 then raise ⟨s, .addressErrorException, tmp⟩
    else s.loadWith tmp 4 instr.rt fun value => value
  | .lwl => s.loadMerge tmp instr.rt fun value old => lwlValue tmp value old
  | .lwr => s.loadMerge tmp instr.rt fun value old => lwrValue tmp value old
  | .mfhi => pure (s.put instr.rd (s.registers hiReg))
  | .mflo => pure (s.put instr.rd (s.registers loReg))
  | .mthi => pure (s.put hiReg rs)
  | .mtlo => pure (s.put loReg rs)
  | .mult => pure (s.putHiLo (mult rs rt true).1 (mult rs rt true).2)
  | .multu => pure (s.putHiLo (mult rs rt false).1 (mult rs rt false).2)
  | .nor => pure (s.put instr.rd (~~~(rs ||| rt)))
  | .or => pure (s.put instr.rd (rs ||| rs))
  | .ori => pure (s.put instr.rt (rs ||| (extra &&& 0xffff#32)))
  | .sb => s.store tmp 1 rt
  | .sh => s.store tmp 2 rt
  | .sll => pure (s.put instr.rd (rt <<< extra.toNat))
  | .sllv => pure (s.put instr.rd (rt <<< (rs &&& 0x1f#32).toNat))
  | .slt => pure (s.put instr.rd (if rs.slt rt then 1#32 else 0#32))
  | .slti => pure (s.put instr.rt (if rs.slt extra then 1#32 else 0#32))
  | .sltiu => pure (s.put instr.rt (if rs.ult extra then 1#32 else 0#32))
  | .sltu => pure (s.put instr.rd (if rs.ult rt then 1#32 else 0#32))
  | .sra => pure (s.put instr.rd (rt.sshiftRight extra.toNat))
  | .srav => pure (s.put instr.rd (rt.sshiftRight (rs &&& 0x1f#32).toNat))
  | .srl => pure (s.put instr.rd (rt.sshiftRight extra.toNat))
  | .srlv => pure (s.put instr.rd (rt.sshiftRight (rs &&& 0x1f#32).toNat))
  | .sub => s.putUnless (hasSign (rs ^^^ rt) && hasSign (rs ^^^ (rs - rt))) instr.rd (rs - rt)
  | .subu => pure (s.put instr.rd (rs - rt))
  | .sw => s.store tmp 4 rt
  | .swl => s.storeMerge tmp fun value => swlValue tmp value rt
  | .swr => s.storeMerge tmp fun value => swrValue tmp value rt
  | .syscall => raise ⟨s, .syscallException, 0#32⟩
  | .xor => pure (s.put instr.rd (rs ^^^ rt))
  | .xori => pure (s.put instr.rt (rs ^^^ (extra &&& 0xffff#32)))
  | .res => raise ⟨s, .illegalInstrException, 0#32⟩
  | .unimp => raise ⟨s, .illegalInstrException, 0#32⟩
  | .rfe => fail .assertFailed

/-- The delayed load is done and the program counters advance. -/
def finish (e : Executed) : Call Cpu := do
  let s ← e.cpu.delayedLoad e.nextLoadReg e.nextLoadValue
  let s := s.set prevPCReg (s.registers pcReg)
  let s := s.set pcReg (s.registers nextPCReg)
  return s.set nextPCReg e.pcAfter

def fetch (s : Cpu) : Cycle (Instruction × Cpu) := do
  let (raw, s) ← s.readMem (s.registers pcReg) 4
  return (decode raw, s)

/-- `Machine::OneInstruction`, up to a call of `RaiseException`. -/
def oneInstruction (s : Cpu) : Cycle Cpu := do
  let (instr, s) ← s.fetch
  let e ← s.execute instr
  match finish e with
  | .error trap => fail trap
  | .ok s => pure s

/-- One cycle of the processor up to the entry into the kernel, if there is one. -/
def step (s : Cpu) : Call (Cpu × Option ExceptionType) :=
  match s.oneInstruction.run with
  | .error trap => .error trap
  | .ok (.ok s) => .ok (s, none)
  | .ok (.error r) => do
    let s ← raiseException r
    return (s, some r.which)

end Cpu

/-! ## What an instruction can end in -/

/-- Neither memory nor the mapping of pages is changed. -/
structure Cpu.SameMemory (s s' : Cpu) : Prop where
  memory : s'.mainMemory = s.mainMemory
  size : s'.pageTableSize = s.pageTableSize
  table : SameMappings s.pageTable s'.pageTable

theorem Cpu.SameMemory.refl (s : Cpu) : s.SameMemory s := ⟨rfl, rfl, .refl _⟩

theorem Cpu.SameMemory.trans {s'' : Cpu} (h : s.SameMemory s') (h' : s'.SameMemory s'') : s.SameMemory s'' :=
  ⟨h'.memory.trans h.memory, h'.size.trans h.size, h.table.trans h'.table⟩

/-- The operation raises an exception by itself, or a translation of the address gives it. -/
def Raised.Caused (r : Raised) : Prop :=
  r.which = .syscallException ∨ r.which = .overflowException ∨ r.which = .illegalInstrException ∨
    r.which = .addressErrorException ∨
    ∃ size writing, translate r.cpu.pageTable r.cpu.pageTableSize r.badVAddr.toInt size writing = .ok (.error r.which)

/-- An exception raised before any register or byte of memory has changed. -/
structure Raised.Clean (s : Cpu) (r : Raised) : Prop where
  registers : r.cpu.registers = s.registers
  memory : s.SameMemory r.cpu
  cause : r.Caused

theorem Raised.clean_self {which : ExceptionType}
    (h : (⟨s, which, addr⟩ : Raised).Caused) : Raised.Clean s ⟨s, which, addr⟩ :=
  ⟨rfl, .refl s, h⟩

theorem Raised.Clean.trans {r : Raised} (hreg : s'.registers = s.registers) (hmem : s.SameMemory s')
    (h : r.Clean s') : r.Clean s :=
  ⟨h.registers.trans hreg, hmem.trans h.memory, h.cause⟩

/-- The operations that have no way out but to trap the host. -/
def Cpu.Crashes (s : Cpu) (instr : Instruction) : Prop :=
  match instr.opCode with
  | .lwl | .lwr | .swl | .swr => (s.registers instr.rs + instr.extra) &&& 3#32 ≠ 0#32
  | .div => s.registers instr.rs = 0x80000000#32 ∧ s.registers instr.rt = 0xffffffff#32
  | .rfe => True
  | _ => False

namespace Cpu

variable {T : Trap → Prop}

theorem readMem_raise {which : ExceptionType}
    (h : translate s.pageTable s.pageTableSize addr.toInt size false = .ok (.error which)) :
    s.readMem addr size = raise ⟨s, which, addr⟩ := by
  unfold readMem Nachos.readMem
  rw [h]
  rfl

theorem readMem_value {x : Int}
    (h : translate s.pageTable s.pageTableSize addr.toInt size false = .ok (.ok (phys, table)))
    (hx : valueAt s.mainMemory phys size = .ok x) :
    s.readMem addr size = pure (BitVec.ofInt 32 x, { s with pageTable := table }) := by
  unfold readMem Nachos.readMem
  simp only [h, ok_bind, hx]
  rfl

/-- A read raises what its translation gives, or reads from the frame and sets the use bit. -/
theorem readMem_cases (s : Cpu) (addr : BitVec 32) (hsize : size = 1 ∨ size = 2 ∨ size = 4) :
    (∃ which, translate s.pageTable s.pageTableSize addr.toInt size false = .ok (.error which) ∧
      s.readMem addr size = raise ⟨s, which, addr⟩) ∨
    ∃ phys table value, translate s.pageTable s.pageTableSize addr.toInt size false = .ok (.ok (phys, table)) ∧
      s.readMem addr size = pure (value, { s with pageTable := table }) := by
  cases htrans : translate s.pageTable s.pageTableSize addr.toInt size false with
  | error trap => exact absurd htrans (translate_total hsize trap)
  | ok x =>
    cases x with
    | error which => exact Or.inl ⟨which, rfl, readMem_raise htrans⟩
    | ok x =>
      obtain ⟨phys, table⟩ := x
      obtain ⟨value, hvalue⟩ := valueAt_total s.mainMemory phys hsize
      exact Or.inr ⟨phys, table, _, rfl, readMem_value htrans hvalue⟩

/-- A write raises what its translation gives, or changes the frame and sets the dirty bit. -/
theorem writeMem_cases (s : Cpu) (addr : BitVec 32) (hsize : size = 1 ∨ size = 2 ∨ size = 4) (value : BitVec 32) :
    (∃ which, translate s.pageTable s.pageTableSize addr.toInt size true = .ok (.error which) ∧
      s.writeMem addr size value = raise ⟨s, which, addr⟩) ∨
    ∃ phys table, translate s.pageTable s.pageTableSize addr.toInt size true = .ok (.ok (phys, table)) ∧
      s.writeMem addr size value = pure { s with
        pageTable := table
        mainMemory := copy s.mainMemory phys (wordByte value) size.toNat } := by
  unfold writeMem Nachos.writeMem
  cases htrans : translate s.pageTable s.pageTableSize addr.toInt size true with
  | error trap => exact absurd htrans (translate_total hsize trap)
  | ok x =>
    cases x with
    | error which => exact Or.inl ⟨which, rfl, rfl⟩
    | ok x =>
      obtain ⟨phys, table⟩ := x
      simp only [ok_bind, putValue, if_pos hsize, BitVec.ofInt_toInt]
      exact Or.inr ⟨phys, table, rfl, rfl⟩

theorem readMem_ends (s : Cpu) (addr : BitVec 32) (hsize : size = 1 ∨ size = 2 ∨ size = 4) :
    Ends T (Raised.Clean s) (fun x => x.2.registers = s.registers ∧ s.SameMemory x.2) (s.readMem addr size) := by
  rcases s.readMem_cases addr hsize with ⟨which, htrans, hrun⟩ | ⟨phys, table, value, htrans, hrun⟩
  · rw [hrun]
    exact .raise (Raised.clean_self (Or.inr (Or.inr (Or.inr (Or.inr ⟨size, false, htrans⟩)))))
  · rw [hrun]
    exact .value ⟨rfl, rfl, rfl, translate_sameMapping htrans⟩

/-- What every access to memory leaves as it is. -/
structure Kept (s s' : Cpu) : Prop where
  registers : s'.registers = s.registers
  size : s'.pageTableSize = s.pageTableSize
  table : SameMappings s.pageTable s'.pageTable

theorem writeMem_ends (s : Cpu) (addr : BitVec 32) (hsize : size = 1 ∨ size = 2 ∨ size = 4)
    (value : BitVec 32) : Ends T (Raised.Clean s) s.Kept (s.writeMem addr size value) := by
  rcases s.writeMem_cases addr hsize value with ⟨which, htrans, hrun⟩ | ⟨phys, table, htrans, hrun⟩
  · rw [hrun]
    exact .raise (Raised.clean_self (Or.inr (Or.inr (Or.inr (Or.inr ⟨size, true, htrans⟩)))))
  · rw [hrun]
    exact .value ⟨rfl, rfl, translate_sameMapping htrans⟩

/-- The registers from the program counter on are written by the end of the cycle only, and the mapping of
pages by the kernel only; a load goes to a general register. -/
structure Sound (s : Cpu) (e : Executed) : Prop where
  control : ∀ k, pcReg ≤ k → e.cpu.registers k = s.registers k
  size : e.cpu.pageTableSize = s.pageTableSize
  table : SameMappings s.pageTable e.cpu.pageTable
  load : e.nextLoadReg.toNat < 32

theorem Kept.sound_load (h : s.Kept s') (hrt : rt < 32) (value : BitVec 32) :
    s.Sound (s'.load rt value) where
  control k _ := congrFun h.registers k
  size := h.size
  table := h.table
  load := by
    simp only [Cpu.load, BitVec.toNat_ofNat]
    omega

theorem Kept.sound_next (h : s.Kept s') : s.Sound s'.next :=
  ⟨fun k _ => congrFun h.registers k, h.size, h.table, Nat.zero_lt_succ _⟩

theorem sound_jump (s : Cpu) (pcAfter : BitVec 32) : s.Sound (s.jump pcAfter) :=
  ⟨fun _ _ => rfl, rfl, .refl _, Nat.zero_lt_succ _⟩

theorem set_control (s : Cpu) (hnum : num < pcReg) (value : BitVec 32) (k : ℕ) (hk : pcReg ≤ k) :
    (s.set num value).registers k = s.registers k :=
  Function.update_of_ne (Nat.ne_of_gt (Nat.lt_of_lt_of_le hnum hk)) _ _

theorem sound_set_jump (s : Cpu) (hnum : num < pcReg) (value pcAfter : BitVec 32) :
    s.Sound ((s.set num value).jump pcAfter) :=
  ⟨s.set_control hnum value, rfl, .refl _, Nat.zero_lt_succ _⟩

theorem sound_put (s : Cpu) (hnum : num < pcReg) (value : BitVec 32) : s.Sound (s.put num value) :=
  s.sound_set_jump hnum value _

theorem sound_putHiLo (s : Cpu) (hi lo : BitVec 32) : s.Sound (s.putHiLo hi lo) where
  control k hk := ((s.set loReg lo).set_control (by decide) hi k hk).trans (s.set_control (by decide) lo k hk)
  size := rfl
  table := .refl _
  load := Nat.zero_lt_succ _

theorem loadWith_ends (s : Cpu) (tmp : BitVec 32) (hsize : size = 1 ∨ size = 2 ∨ size = 4) (hrt : rt < 32)
    (extend : BitVec 32 → BitVec 32) : Ends T (Raised.Clean s) s.Sound (s.loadWith tmp size rt extend) :=
  (s.readMem_ends tmp hsize).bind fun _ h => .value (Kept.sound_load ⟨h.1, h.2.size, h.2.table⟩ hrt _)

theorem store_ends (s : Cpu) (tmp : BitVec 32) (hsize : size = 1 ∨ size = 2 ∨ size = 4)
    (value : BitVec 32) : Ends T (Raised.Clean s) s.Sound (s.store tmp size value) :=
  (s.writeMem_ends tmp hsize value).bind fun _ h => .value h.sound_next

theorem loadMerge_ends (s : Cpu) {tmp : BitVec 32} (hcrash : ∀ trap, tmp &&& 3#32 ≠ 0#32 → T trap) (hrt : rt < 32)
    (merge : BitVec 32 → BitVec 32 → BitVec 32) : Ends T (Raised.Clean s) s.Sound (s.loadMerge tmp rt merge) := by
  unfold loadMerge
  split
  · next hodd => exact .fail (hcrash _ hodd)
  · exact (s.readMem_ends tmp (by decide)).bind fun _ h => .value (Kept.sound_load ⟨h.1, h.2.size, h.2.table⟩ hrt _)

theorem storeMerge_ends (s : Cpu) {tmp : BitVec 32} (hcrash : ∀ trap, tmp &&& 3#32 ≠ 0#32 → T trap)
    (merge : BitVec 32 → BitVec 32) : Ends T (Raised.Clean s) s.Sound (s.storeMerge tmp merge) := by
  unfold storeMerge
  split
  · next hodd => exact .fail (hcrash _ hodd)
  · apply (s.readMem_ends _ (by decide)).bind
    rintro ⟨value, s'⟩ ⟨hreg, hmem⟩
    dsimp only at hreg hmem
    apply (s'.store_ends _ (by decide) _).mono (fun _ h => h) (fun r hr => hr.trans hreg hmem)
    intro e he
    exact ⟨fun k hk => (he.control k hk).trans (congrFun hreg k), he.size.trans hmem.size, hmem.table.trans he.table,
      he.load⟩

theorem putUnless_ends (s : Cpu) (overflow : Bool) (hnum : num < pcReg) (value : BitVec 32) :
    Ends T (Raised.Clean s) s.Sound (s.putUnless overflow num value) := by
  cases overflow with
  | true => exact .raise (Raised.clean_self (Or.inr (Or.inl rfl)))
  | false => exact .value (s.sound_put hnum value)

theorem execute_ends (s : Cpu) (hfields : instr.rs < 32 ∧ instr.rt < 32 ∧ instr.rd < 32) :
    Ends (fun _ => s.Crashes instr) (Raised.Clean s) s.Sound (s.execute instr) := by
  have haddr : ∀ addr, Raised.Clean s ⟨s, .addressErrorException, addr⟩ := fun addr =>
    Raised.clean_self (Or.inr (Or.inr (Or.inr (Or.inl rfl))))
  have hillegal : Raised.Clean s ⟨s, .illegalInstrException, 0#32⟩ :=
    Raised.clean_self (Or.inr (Or.inr (Or.inl rfl)))
  obtain ⟨op, rs, rt, rd, extra⟩ := instr
  obtain ⟨-, hrt, hrd⟩ := hfields
  have hrt' : rt < pcReg := Nat.lt_trans hrt (by decide)
  have hrd' : rd < pcReg := Nat.lt_trans hrd (by decide)
  cases op with
  | add | sub => exact s.putUnless_ends _ hrd' _
  | addi => exact s.putUnless_ends _ hrt' _
  | lb | lbu =>
    simp only [execute]
    exact s.loadWith_ends _ (Or.inl rfl) hrt _
  | lh | lhu | lw =>
    simp only [execute]
    split
    · exact .raise (haddr _)
    · apply s.loadWith_ends _ _ hrt
      decide
  | lwl | lwr =>
    simp only [execute]
    exact s.loadMerge_ends (fun _ h => h) hrt _
  | sb | sh | sw =>
    apply store_ends
    decide
  | swl | swr =>
    simp only [execute]
    exact s.storeMerge_ends (fun _ h => h) _
  | div =>
    simp only [execute, divide]
    split
    · exact .value (s.sound_putHiLo _ _)
    · split
      · next hcrash => exact .fail hcrash
      · exact .value (s.sound_putHiLo _ _)
  | divu =>
    simp only [execute]
    split <;> exact .value (s.sound_putHiLo _ _)
  | mult | multu =>
    simp only [execute]
    exact .value (s.sound_putHiLo _ _)
  | syscall => exact .raise (Raised.clean_self (Or.inl rfl))
  | unimp | res => exact .raise hillegal
  | rfe => exact .fail trivial
  | beq | bgez | bgtz | blez | bltz | bne | j | jr =>
    simp only [execute]
    exact .value (s.sound_jump _)
  | bgezal | bltzal | jal =>
    simp only [execute]
    exact .value (s.sound_set_jump (by decide) _ _)
  | jalr =>
    simp only [execute]
    exact .value (s.sound_set_jump hrd' _ _)
  | mthi | mtlo =>
    simp only [execute]
    exact .value (s.sound_put (by decide) _)
  | addiu | andi | lui | ori | slti | sltiu | xori =>
    simp only [execute]
    exact .value (s.sound_put hrt' _)
  | addu | and | mfhi | mflo | nor | or | sll | sllv | slt | sltu | sra | srav | srl | srlv | subu | xor =>
    simp only [execute]
    exact .value (s.sound_put hrd' _)

theorem field_lt (value : BitVec 32) : (value &&& 0x1f#32).toNat < 32 := by
  rw [BitVec.toNat_and]
  exact Nat.lt_of_le_of_lt Nat.and_le_right (by decide)

theorem decode_fields (value : BitVec 32) :
    (decode value).rs < 32 ∧ (decode value).rt < 32 ∧ (decode value).rd < 32 := by
  unfold decode
  dsimp only
  split <;> exact ⟨field_lt _, field_lt _, field_lt _⟩

theorem fetch_ends (s : Cpu) :
    Ends T (Raised.Clean s) (fun x => (∃ value, x.1 = decode value) ∧ x.2.registers = s.registers ∧ s.SameMemory x.2)
      s.fetch :=
  (s.readMem_ends _ (by decide)).bind fun x h => .value ⟨⟨x.1, rfl⟩, h⟩

theorem readMem_word (h : translate s.pageTable s.pageTableSize addr.toInt 4 false = .ok (.ok (phys, table))) :
    s.readMem addr 4 = pure (wordAt s.mainMemory phys, { s with pageTable := table }) := by
  rw [readMem_value h (rfl : valueAt s.mainMemory phys 4 = .ok (wordAt s.mainMemory phys).toInt), BitVec.ofInt_toInt]

theorem fetch_mapped
    (h : translate s.pageTable s.pageTableSize (s.registers pcReg).toInt 4 false = .ok (.ok (phys, table))) :
    s.fetch = pure (decode (wordAt s.mainMemory phys), { s with pageTable := table }) := by
  unfold fetch
  rw [readMem_word h]
  rfl

/-- What an instruction that has been fetched does to the cycle. -/
theorem oneInstruction_of_fetch (h : s.fetch = pure (instr, s')) :
    (∀ trap, s'.execute instr = fail trap → s.oneInstruction = fail trap) ∧
    (∀ x, s'.execute instr = raise x → s.oneInstruction = raise x) ∧
    ∀ e, s'.execute instr = pure e → s.oneInstruction = match finish e with
      | .error trap => fail trap
      | .ok u => pure u := by
  refine ⟨fun trap hrun => ?_, fun x hrun => ?_, fun e hrun => ?_⟩ <;>
  · unfold oneInstruction
    rw [h, pure_bind]
    dsimp only
    rw [hrun]
    rfl

/-- After a cycle register `0` holds zero and the pending load goes to a general register; the mapping of
pages is as before. -/
structure Cycled (s s' : Cpu) : Prop where
  zero : s'.registers 0 = 0#32
  load : (s'.registers loadReg).toNat < 32
  size : s'.pageTableSize = s.pageTableSize
  table : SameMappings s.pageTable s'.pageTable

theorem Sound.finish {e : Executed} (h : s.Sound e) (hfinish : finish e = .ok s') : s.Cycled s' := by
  obtain ⟨u, hload, hpc⟩ := bind_eq_ok.mp hfinish
  obtain ⟨r, hr, rfl⟩ := cpu_delayedLoad_eq_ok hload
  rw [delayedLoad_eq_ok hr] at hpc
  cases hpc
  exact ⟨rfl, h.load, h.size, h.table⟩

theorem oneInstruction_ends (s : Cpu) : Ends (fun _ => True) (Raised.Clean s) s.Cycled s.oneInstruction := by
  unfold oneInstruction
  apply s.fetch_ends.bind
  rintro ⟨instr, s'⟩ ⟨⟨value, hinstr⟩, hreg, hmem⟩
  dsimp only at hinstr hreg hmem ⊢
  subst hinstr
  have hexecute := (s'.execute_ends (decode_fields value)).mono (fun _ _ => trivial) (fun r hr => hr.trans hreg hmem)
    fun _ h => h
  apply hexecute.bind
  intro e he
  cases hfinish : finish e with
  | error trap => exact .fail trivial
  | ok u =>
    have hcycled := he.finish hfinish
    exact .value ⟨hcycled.zero, hcycled.load, hcycled.size.trans hmem.size, hmem.table.trans hcycled.table⟩

end Cpu

end Nachos
