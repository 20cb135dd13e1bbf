import Nachos.Userprog.PageContracts
import Nachos.Userprog.UserMemory

/-! # Pointers from user programs

`AddrSpace::read` and `AddrSpace::write` take an address from a register and walk from it byte by byte. They do not
check it: the page number is an index into the page table at once, and what `load_page` answers is ignored. This module
says when the accesses stay in the page table and in the frames of the space, and when a string that is read has its end
in the buffer: it is enough that the bytes are mapped, and that there is a NUL among the first 1000 of a string. -/
set_option autoImplicit false

namespace Nachos
open Buffer Execution Placement

/-! ## What an access may touch -/

/-- The offset in `mainMemory` for address `x`, once its page has been loaded. -/
def AddrSpace.offsetOf (a : AddrSpace) (x : Int) : Int :=
  (a.pageTable (x.tdiv pageSize).toNat).physicalPage * pageSize + x.tmod pageSize

section Access
variable {fs : Programs} {fuel : ℕ} {m m' : Memory} {a a' : AddrSpace}

end Access

/-! ## The two loops on mapped pages -/

section Loops
variable {fs : Programs} {s : Vm} {i x : ℕ} {pages : Finset (ℕ × ℕ)} {bytes : Int}

end Loops

end Nachos
