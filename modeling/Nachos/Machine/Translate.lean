import Nachos.Machine.Basic

/-! # Address translation (`machine/translate.cc`)

The linear page table of `Machine::Translate`; the kernel is built without a TLB. A routine that
raises an exception returns it in place of its value, so that the handler is a step of its own. -/
set_option autoImplicit false

namespace Nachos
open Buffer Execution

variable {size addr : Int} {numPages : ℕ} {writing : Bool}

structure TranslationEntry where
  virtualPage : Int
  physicalPage : Int
  valid : Bool
  readOnly : Bool
  use : Bool
  dirty : Bool
  deriving DecidableEq, Repr

abbrev PageTable := ℕ → TranslationEntry

variable {table table' : PageTable}

/-- The causes of a trap into the kernel; a translation ends in one of the middle four, or in none. -/
inductive ExceptionType where
  | syscallException
  | pageFaultException
  | readOnlyException
  | busErrorException
  | addressErrorException
  | overflowException
  | illegalInstrException
  deriving DecidableEq, Repr

/-- The value of an `int` read as `unsigned`. -/
def toUnsigned (x : Int) : ℕ := (x % 4294967296).toNat

/-- The translated entry: its use bit set, and its dirty bit if the access writes. -/
def TranslationEntry.touched (entry : TranslationEntry) (writing : Bool) : TranslationEntry :=
  { entry with use := true, dirty := entry.dirty || writing }

/-- `Machine::Translate`: the physical address, and the page table with its bits set. -/
def translate (pageTable : PageTable) (pageTableSize : ℕ) (virtAddr size : Int) (writing : Bool) :
    Call (Except ExceptionType (ℕ × PageTable)) :=
  let vpn := toUnsigned virtAddr / pageSize
  let offset := toUnsigned virtAddr % pageSize
  let entry := pageTable vpn
  let pageFrame := toUnsigned entry.physicalPage
  if (size = 4 ∧ virtAddr % 4 ≠ 0) ∨ (size = 2 ∧ virtAddr % 2 ≠ 0) then
    .ok (.error .addressErrorException)
  else if vpn ≥ pageTableSize then .ok (.error .addressErrorException)
  else if ¬ entry.valid then .ok (.error .pageFaultException)
  else if entry.readOnly ∧ writing then .ok (.error .readOnlyException)
  else if pageFrame ≥ numPhysPages then .ok (.error .busErrorException)
  else if ((pageFrame * pageSize + offset : ℕ) : Int) + size ≤ memorySize then
    .ok (.ok (pageFrame * pageSize + offset, Function.update pageTable vpn (entry.touched writing)))
  else .error .assertFailed

theorem translate_eq_ok {phys : ℕ} (h : translate table numPages addr size writing = .ok (.ok (phys, table'))) :
    toUnsigned addr / 128 < numPages ∧ (table (toUnsigned addr / 128)).valid = true ∧
      phys = toUnsigned (table (toUnsigned addr / 128)).physicalPage * 128 + toUnsigned addr % 128 ∧
      (size = 4 → addr % 4 = 0) ∧ (size = 2 → addr % 2 = 0) ∧
      table' = Function.update table (toUnsigned addr / 128) ((table (toUnsigned addr / 128)).touched writing) := by
  unfold translate at h
  dsimp only at h
  split at h
  · cases h
  · next haligned =>
    split at h
    · cases h
    · next hvpn =>
      split at h
      · cases h
      · next hvalid =>
        split at h
        · cases h
        · split at h
          · cases h
          · split at h
            · cases h
              exact ⟨Nat.lt_of_not_le hvpn, not_not.mp hvalid, rfl, by omega, by omega, rfl⟩
            · cases h

/-- An access of one, two or four bytes never fails the last assertion. -/
theorem translate_total (hsize : size = 1 ∨ size = 2 ∨ size = 4) (trap : Trap) :
    translate table numPages addr size writing ≠ .error trap := by
  intro h
  unfold translate at h
  dsimp only at h
  split at h
  · cases h
  · next haligned =>
    split at h
    · cases h
    · split at h
      · cases h
      · split at h
        · cases h
        · split at h
          · cases h
          · next hframe =>
            split at h
            · cases h
            · next hfit =>
              apply hfit
              simp only [toUnsigned, pageSize, sectorSize, memorySize, numPhysPages] at hframe ⊢
              omega

/-- An aligned access to a page of the table that is not in memory. -/
def Absent (table : PageTable) (numPages : ℕ) (addr size : Int) : Prop :=
  ¬ ((size = 4 ∧ addr % 4 ≠ 0) ∨ (size = 2 ∧ addr % 2 ≠ 0)) ∧ toUnsigned addr / pageSize < numPages ∧
    (table (toUnsigned addr / pageSize)).valid = false

instance (table : PageTable) (numPages : ℕ) (addr size : Int) : Decidable (Absent table numPages addr size) :=
  inferInstanceAs (Decidable (_ ∧ _ ∧ _))

/-- Only absent pages raise a page fault, and no translation raises a system call. -/
theorem translate_present {which : ExceptionType} (h : translate table numPages addr size writing = .ok (.error which))
    (hpresent : ¬ Absent table numPages addr size) : which ≠ .pageFaultException ∧ which ≠ .syscallException := by
  unfold translate at h
  dsimp only at h
  split at h
  · cases h
    decide
  · next haligned =>
    split at h
    · cases h
      decide
    · next hvpn =>
      split at h
      · next hvalid => exact absurd ⟨haligned, Nat.lt_of_not_le hvpn, by simpa using hvalid⟩ hpresent
      · split at h
        · cases h
          decide
        · split at h
          · cases h
            decide
          · split at h <;> cases h

/-- An access to a byte or to an aligned word of a page that is there. -/
theorem translate_mapped {x f : ℕ} (writing : Bool) (hsize : size = 1 ∨ size = 4 ∧ x % 4 = 0) (hx : x < 4294967296)
    (hv : x / 128 < numPages) (hvalid : (table (x / 128)).valid = true)
    (hwritable : writing = true → (table (x / 128)).readOnly = false) (hf : f < numPhysPages)
    (hframe : (table (x / 128)).physicalPage = f) :
    translate table numPages x size writing =
      .ok (.ok (f * 128 + x % 128, Function.update table (x / 128) ((table (x / 128)).touched writing))) := by
  have haddr : toUnsigned x = x := by
    rw [toUnsigned]
    omega
  have hframe' : toUnsigned (table (x / pageSize)).physicalPage = f := by
    rw [show x / pageSize = x / 128 from rfl, hframe, toUnsigned]
    simp only [numPhysPages] at hf
    omega
  have hwrite : ¬ ((table (x / pageSize)).readOnly = true ∧ writing = true) := by
    rintro ⟨hro, hw⟩
    rw [hwritable hw] at hro
    cases hro
  unfold translate
  dsimp only
  rw [haddr, hframe', if_neg (by omega), if_neg (Nat.not_le.mpr hv), if_neg (not_not.mpr hvalid),
    if_neg hwrite, if_neg (Nat.not_le.mpr hf), if_pos ?_]
  simp only [memorySize, numPhysPages, pageSize, sectorSize] at hf ⊢
  omega

/-! ## Page tables up to their use and dirty bits -/

structure TranslationEntry.SameMapping (e e' : TranslationEntry) : Prop where
  virtualPage : e'.virtualPage = e.virtualPage
  physicalPage : e'.physicalPage = e.physicalPage
  valid : e'.valid = e.valid
  readOnly : e'.readOnly = e.readOnly

def SameMappings (table table' : PageTable) : Prop := ∀ v, (table v).SameMapping (table' v)

theorem SameMappings.refl (table : PageTable) : SameMappings table table := fun _ => ⟨rfl, rfl, rfl, rfl⟩

theorem SameMappings.trans {table'' : PageTable} (h : SameMappings table table')
    (h' : SameMappings table' table'') : SameMappings table table'' := fun v =>
  ⟨(h' v).virtualPage.trans (h v).virtualPage, (h' v).physicalPage.trans (h v).physicalPage,
    (h' v).valid.trans (h v).valid, (h' v).readOnly.trans (h v).readOnly⟩

theorem sameMappings_touched (table : PageTable) (v : ℕ) (w : Bool) :
    SameMappings table (Function.update table v ((table v).touched w)) := by
  intro u
  by_cases hu : u = v
  · subst hu
    rw [Function.update_self]
    exact ⟨rfl, rfl, rfl, rfl⟩
  · rw [Function.update_of_ne hu]
    exact ⟨rfl, rfl, rfl, rfl⟩

theorem translate_sameMapping {phys : ℕ}
    (h : translate table numPages addr size writing = .ok (.ok (phys, table'))) : SameMappings table table' := by
  obtain ⟨-, -, -, -, -, htable⟩ := translate_eq_ok h
  rw [htable]
  exact sameMappings_touched _ _ _

theorem SameMappings.touched (h : SameMappings table table') (v : ℕ) (w : Bool) :
    SameMappings (Function.update table v ((table v).touched w))
      (Function.update table' v ((table' v).touched w)) := by
  intro u
  by_cases hu : u = v
  · subst hu
    rw [Function.update_self, Function.update_self]
    exact ⟨(h u).virtualPage, (h u).physicalPage, (h u).valid, (h u).readOnly⟩
  · rw [Function.update_of_ne hu, Function.update_of_ne hu]
    exact h u

/-- Two translations that raise the same exception or give the same address. -/
inductive SameTranslation : Call (Except ExceptionType (ℕ × PageTable)) →
    Call (Except ExceptionType (ℕ × PageTable)) → Prop
  | fail (trap : Trap) : SameTranslation (.error trap) (.error trap)
  | raise (which : ExceptionType) : SameTranslation (.ok (.error which)) (.ok (.error which))
  | value (phys : ℕ) {table table' : PageTable} (h : SameMappings table table') :
      SameTranslation (.ok (.ok (phys, table))) (.ok (.ok (phys, table')))

theorem translate_sameMappings (h : SameMappings table table') (numPages : ℕ) (addr size : Int) (writing : Bool) :
    SameTranslation (translate table numPages addr size writing) (translate table' numPages addr size writing) := by
  have he := h (toUnsigned addr / pageSize)
  unfold translate
  dsimp only
  rw [he.valid, he.readOnly, he.physicalPage]
  split
  · exact .raise _
  · split
    · exact .raise _
    · split
      · exact .raise _
      · split
        · exact .raise _
        · split
          · exact .raise _
          · split
            · exact .value _ (h.touched _ _)
            · exact .fail _

/-! ## Access to memory -/

/-- The value of the `size` bytes at `pos`: a `char` is signed, a short is not. -/
def valueAt (mem : Image) (pos : ℕ) (size : Int) : Call Int :=
  if size = 1 then .ok (mem pos).toBitVec.toInt
  else if size = 2 then .ok ((mem pos).toNat + 256 * (mem (pos + 1)).toNat)
  else if size = 4 then .ok (wordAt mem pos).toInt
  else .error .assertFailed

theorem valueAt_congr {mem mem' : Image} {pos pos' : ℕ}
    (h : ∀ k < size.toNat, mem (pos + k) = mem' (pos' + k)) : valueAt mem pos size = valueAt mem' pos' size := by
  unfold valueAt
  by_cases h1 : size = 1
  · subst h1
    have h0 : mem pos = mem' pos' := h 0 (by omega)
    rw [if_pos rfl, if_pos rfl, h0]
  · rw [if_neg h1, if_neg h1]
    by_cases h2 : size = 2
    · subst h2
      have h0 : mem pos = mem' pos' := h 0 (by omega)
      rw [if_pos rfl, if_pos rfl, h0, h 1 (by omega)]
    · rw [if_neg h2, if_neg h2]
      by_cases h4 : size = 4
      · subst h4
        have h0 : mem pos = mem' pos' := h 0 (by omega)
        unfold wordAt
        rw [if_pos rfl, if_pos rfl, h0, h 1 (by omega), h 2 (by omega), h 3 (by omega)]
      · rw [if_neg h4, if_neg h4]

theorem valueAt_total (mem : Image) (pos : ℕ) (hsize : size = 1 ∨ size = 2 ∨ size = 4) :
    ∃ x, valueAt mem pos size = .ok x := by
  rcases hsize with rfl | rfl | rfl <;> exact ⟨_, rfl⟩

/-- The low `size` bytes of `value` stored at `pos`, least significant first. -/
def putValue (mem : Image) (pos : ℕ) (size value : Int) : Call Image :=
  if size = 1 ∨ size = 2 ∨ size = 4 then
    .ok (copy mem pos (wordByte (BitVec.ofInt 32 value)) size.toNat)
  else .error .assertFailed

/-- `Machine::ReadMem`. -/
def readMem (pageTable : PageTable) (pageTableSize : ℕ) (mainMemory : Image) (addr size : Int) :
    Call (Except ExceptionType (Int × PageTable)) := do
  match ← translate pageTable pageTableSize addr size false with
  | .error exception => return .error exception
  | .ok (physicalAddress, pageTable) =>
    let data ← valueAt mainMemory physicalAddress size
    return .ok (data, pageTable)

/-- `Machine::WriteMem`. -/
def writeMem (pageTable : PageTable) (pageTableSize : ℕ) (mainMemory : Image) (addr size value : Int) :
    Call (Except ExceptionType (Image × PageTable)) := do
  match ← translate pageTable pageTableSize addr size true with
  | .error exception => return .error exception
  | .ok (physicalAddress, pageTable) =>
    let mem ← putValue mainMemory physicalAddress size value
    return .ok (mem, pageTable)

end Nachos
