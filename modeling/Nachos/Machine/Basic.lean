import Nachos.Library.Buffer
import Nachos.Library.Execution
import Mathlib.Tactic.Common

/-! # The simulated machine: sizes, host integers, the disk

Sizes are those of `machine/disk.h` and `machine/machine.h`. A kernel routine is a `Call`: it
returns a value or ends in a `Trap`, which is a failed `ASSERT`, a C++ `throw` (of the kernel or of
`new` on a negative size), or a step the language gives no meaning to (an index outside its array,
a pointer to no object, a signed overflow). `SynchDisk` is taken at its contract: a sector read returns
what was last written to the sector. -/
set_option autoImplicit false

namespace Nachos
open Buffer

abbrev sectorSize : ℕ := 128
abbrev sectorsPerTrack : ℕ := 32
abbrev numTracks : ℕ := 32
abbrev numSectors : ℕ := sectorsPerTrack * numTracks
abbrev pageSize : ℕ := sectorSize
abbrev numPhysPages : ℕ := 32
abbrev memorySize : ℕ := numPhysPages * pageSize

/-- The arrays an index can miss. -/
inductive Region where
  | pageTable
  | availablePages
  | mainMemory
  | pageSector
  | dataSectors
  | buffer
  | registers
  deriving DecidableEq, Repr

/-- How a kernel routine fails to return. -/
inductive Trap where
  | assertFailed
  | thrown (n : Int)
  | outOfBounds (r : Region)
  | badPointer
  | overflow
  | badAlloc
  | outOfFuel
  deriving DecidableEq, Repr

abbrev Call (α : Type) := Except Trap α

/-! ## Host integers -/

/-- The largest value of the host's 32-bit `int`. -/
abbrev intMax : Int := 2147483647

/-- Two's-complement wrap-around of a 32-bit `int`. -/
def int32 (x : Int) : Int := x.bmod 4294967296

/-- The value kept is the one in range that differs by a multiple of `2 ^ 32`. -/
theorem int32_spec (x : Int) :
    -2147483648 ≤ int32 x ∧ int32 x ≤ 2147483647 ∧ ∃ k, int32 x = x + 4294967296 * k := by
  unfold int32
  rw [Int.bmod_def]
  split
  · exact ⟨by omega, by omega, -(x / 4294967296), by omega⟩
  · exact ⟨by omega, by omega, -(x / 4294967296) - 1, by omega⟩

/-- `divRoundDown` of `utility.h`: C division truncates toward zero. -/
def divRoundDown (n s : Int) : Int := n.tdiv s

/-- `divRoundUp` of `utility.h`. -/
def divRoundUp (n s : Int) : Int := n.tdiv s + if 0 < n.tmod s then 1 else 0

theorem divRoundDown_of_nonneg {n s : Int} (hn : 0 ≤ n) : divRoundDown n s = n / s :=
  Int.tdiv_eq_ediv_of_nonneg hn

theorem divRoundUp_of_nonneg {n : Int} (hn : 0 ≤ n) : divRoundUp n 128 = (n + 127) / 128 := by
  unfold divRoundUp
  rw [Int.tdiv_eq_ediv_of_nonneg hn, Int.tmod_eq_emod_of_nonneg hn]
  split <;> omega

/-! ## The disk -/

/-- The contents of each sector. -/
abbrev Disk := ℕ → Image

/-- `SynchDisk::ReadSector`; the range check is `Disk::ReadRequest`'s. -/
def readSector (disk : Disk) (sectorNumber : Int) : Call Image :=
  if 0 ≤ sectorNumber ∧ sectorNumber < numSectors then .ok (disk sectorNumber.toNat)
  else .error .assertFailed

/-- `SynchDisk::WriteSector`: the first `SectorSize` bytes of `data` replace the sector. -/
def writeSector (disk : Disk) (sectorNumber : Int) (data : Image) : Call Disk :=
  if 0 ≤ sectorNumber ∧ sectorNumber < numSectors then
    .ok (Function.update disk sectorNumber.toNat (copy (disk sectorNumber.toNat) 0 data sectorSize))
  else .error .assertFailed

end Nachos
