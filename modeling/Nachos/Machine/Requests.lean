import Nachos.Machine.MipsSim

/-! # What an instruction asks of the kernel

An instruction traps the host, comes to its end or raises an exception. By a system call or a page fault it
asks for a service, and `Cpu.request` says from the instruction, the registers and the page table which one;
every other exception ends the program. -/
set_option autoImplicit false

namespace Nachos
open Buffer Execution Raising

variable {size : Int} {addr : BitVec 32}

/-! ## Operations without a guard -/

namespace Cpu

/-- A partial word at an address that is not a multiple of four, or the most negative number divided by `-1`. -/
def Unguarded (s : Cpu) (instr : Instruction) : Prop :=
  (instr.opCode ∈ [OpCode.lwl, .lwr, .swl, .swr] ∧ (s.registers instr.rs + instr.extra) &&& 3#32 ≠ 0#32) ∨
    (instr.opCode = .div ∧ s.registers instr.rs = 0x80000000#32 ∧ s.registers instr.rt = 0xffffffff#32)

end Cpu

/-- The number of bytes at `rs + extra` that an instruction reads or writes first. -/
def Instruction.access (instr : Instruction) : Option Int :=
  match instr.opCode with
  | .lb | .lbu | .sb => some 1
  | .lh | .lhu | .sh => some 2
  | .lw | .sw | .lwl | .lwr | .swl | .swr => some 4
  | _ => none

namespace Cpu

/-- The page of an access is not in memory. -/
abbrev absent (s : Cpu) (addr : BitVec 32) (size : Int) : Prop := Absent s.pageTable s.pageTableSize addr.toInt size

/-- An access asks for a page that is not in memory. -/
def accessRequest (s : Cpu) (addr : BitVec 32) (size : Int) : Option (ExceptionType × BitVec 32) :=
  if s.absent addr size then some (.pageFaultException, addr) else none

/-- The exception by which an instruction asks for a service of the kernel, with its address. -/
def request (s : Cpu) (instr : Instruction) : Option (ExceptionType × BitVec 32) :=
  if instr.opCode = .syscall then some (.syscallException, 0#32)
  else
    match instr.access with
    | none => none
    | some size => s.accessRequest (s.registers instr.rs + instr.extra) size

variable {T : Trap → Prop}

theorem SameMemory.accessRequest {s s' : Cpu} (h : s.SameMemory s') (addr : BitVec 32) (size : Int) :
    s'.accessRequest addr size = s.accessRequest addr size := by
  have hiff : s'.absent addr size ↔ s.absent addr size := by
    unfold absent Absent
    rw [h.size, (h.table _).valid]
  unfold Cpu.accessRequest
  simp only [hiff]

end Cpu

end Nachos
