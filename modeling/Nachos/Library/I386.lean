import Mathlib.Logic.Function.Basic
import Mathlib.Data.Option.Basic

/-! # A part of the i386 instruction set

The moves between registers and memory, and what a return takes from the stack. Memory is made of the long words at the
addresses that are multiples of four; an access to any other address has no result. -/
set_option autoImplicit false

namespace I386

inductive Reg where
  | eax
  | ebx
  | ecx
  | edx
  | esi
  | edi
  | ebp
  | esp
  deriving DecidableEq

abbrev Word := BitVec 32

structure Core where
  regs : Reg → Word
  mem : Word → Word

def Aligned (a : Word) : Prop := a.toNat % 4 = 0

instance decidableAligned (a : Word) : Decidable (Aligned a) := inferInstanceAs (Decidable (a.toNat % 4 = 0))

inductive Operand where
  | reg (r : Reg)
  | disp (offset : Word) (base : Reg)
  | abs (address : Word)

inductive Instr where
  | movl (src dst : Operand)

namespace Core

def setReg (cpu : Core) (r : Reg) (v : Word) : Core := { cpu with regs := Function.update cpu.regs r v }

def load (cpu : Core) (a : Word) : Option Word := if Aligned a then some (cpu.mem a) else none

def store (cpu : Core) (a v : Word) : Option Core :=
  if Aligned a then some { cpu with mem := Function.update cpu.mem a v } else none

def read (cpu : Core) : Operand → Option Word
  | .reg r => some (cpu.regs r)
  | .disp offset base => cpu.load (cpu.regs base + offset)
  | .abs address => cpu.load address

def write (cpu : Core) (v : Word) : Operand → Option Core
  | .reg r => some (cpu.setReg r v)
  | .disp offset base => cpu.store (cpu.regs base + offset) v
  | .abs address => cpu.store address v

def pop (cpu : Core) : Option (Word × Core) := do
  let v ← cpu.load (cpu.regs .esp)
  return (v, cpu.setReg .esp (cpu.regs .esp + 4))

def step (cpu : Core) : Instr → Option Core
  | .movl src dst => do
    let v ← cpu.read src
    cpu.write v dst

/-- Instructions one after the other. -/
def exec (cpu : Core) : List Instr → Option Core
  | [] => some cpu
  | i :: is => do
    let cpu ← cpu.step i
    cpu.exec is

end Core

/-! ## Straight-line code -/

theorem regs_eq_iff {f g : Reg → Word} : f = g ↔ f .eax = g .eax ∧ f .ebx = g .ebx ∧ f .ecx = g .ecx ∧ f .edx = g .edx ∧
    f .esi = g .esi ∧ f .edi = g .edi ∧ f .ebp = g .ebp ∧ f .esp = g .esp := by
  constructor
  · rintro rfl
    simp
  · rintro ⟨heax, hebx, hecx, hedx, hesi, hedi, hebp, hesp⟩
    funext r
    cases r <;> assumption

theorem Aligned.add {a : Word} (h : Aligned a) {k : Word} (hk : k.toNat % 4 = 0) : Aligned (a + k) := by
  unfold Aligned at *
  rw [BitVec.toNat_add]
  omega

theorem Aligned.sub {a : Word} (h : Aligned a) {k : Word} (hk : k.toNat % 4 = 0) : Aligned (a - k) := by
  unfold Aligned at *
  rw [BitVec.toNat_sub]
  omega

variable {cpu : Core} {a v : Word}

namespace Core

theorem exec_append (cpu : Core) (is js : List Instr) :
    cpu.exec (is ++ js) = (cpu.exec is).bind fun cpu => cpu.exec js := by
  induction is generalizing cpu with
  | nil => rfl
  | cons i is ih =>
    simp only [List.cons_append, exec]
    cases cpu.step i with
    | none => rfl
    | some cpu => exact ih cpu

theorem load_eq (h : Aligned a) : cpu.load a = some (cpu.mem a) := if_pos h

theorem store_eq (h : Aligned a) (v : Word) : cpu.store a v = some ⟨cpu.regs, Function.update cpu.mem a v⟩ := if_pos h

end Core

end I386
