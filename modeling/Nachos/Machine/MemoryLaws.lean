import Nachos.Machine.MipsSim

/-! # Laws of virtual memory (`machine/translate.cc`)

A page table that maps its valid pages to distinct frames makes the bytes of the address space distinct bytes
of memory, and an aligned access stays within a page. So what `WriteMem` puts at an address is what `ReadMem`
finds there, byte by byte, and nothing else changes. -/
set_option autoImplicit false

namespace Nachos
open Buffer Execution Raising

variable {size sz : Int} {table table' : PageTable} {numPages : ℕ} {addr : BitVec 32}

/-- The sizes of an access. -/
abbrev AccessSize (size : Int) : Prop := size = 1 ∨ size = 2 ∨ size = 4

/-- Distinct valid pages are in distinct frames of memory. -/
structure DistinctFrames (table : PageTable) (numPages : ℕ) : Prop where
  inMemory : ∀ v < numPages, (table v).valid = true →
    0 ≤ (table v).physicalPage ∧ (table v).physicalPage < numPhysPages
  distinct : ∀ u < numPages, ∀ v < numPages, (table u).valid = true → (table v).valid = true →
    (table u).physicalPage = (table v).physicalPage → u = v

/-- What a read of `size` bytes makes of the bytes of `value` from byte `skip` on: a `char` is signed. -/
def readBack (size : Int) (value : BitVec 32) (skip : ℕ) : BitVec 32 :=
  if size = 1 then (value.extractLsb' (8 * skip) 8).signExtend 32
  else if size = 2 then (value.extractLsb' (8 * skip) 16).zeroExtend 32
  else value.extractLsb' (8 * skip) 32

/-! ## Bytes of a value -/

theorem wordByte_toBitVec (value : BitVec 32) (i : ℕ) : (wordByte value i).toBitVec = value.extractLsb' (8 * i) 8 := by
  apply BitVec.eq_of_toNat_eq
  rw [BitVec.extractLsb'_toNat, Nat.shiftRight_eq_div_pow, Nat.pow_mul]
  exact wordByte_toNat value i

theorem valueAt_bytes {mem : Image} {pos skip : ℕ} {value : BitVec 32} (hsize : AccessSize size)
    (hskip : skip + size.toNat ≤ 4) (h : ∀ k < size.toNat, mem (pos + k) = wordByte value (skip + k)) :
    ∃ x, valueAt mem pos size = .ok x ∧ BitVec.ofInt 32 x = readBack size value skip := by
  rcases hsize with rfl | rfl | rfl
  · have h0 : mem pos = wordByte value skip := h 0 (by decide)
    refine ⟨_, rfl, ?_⟩
    rw [h0, wordByte_toBitVec]
    rfl
  · have h0 : mem pos = wordByte value skip := h 0 (by decide)
    have h1 : mem (pos + 1) = wordByte value (skip + 1) := h 1 (by decide)
    refine ⟨_, rfl, ?_⟩
    rw [h0, h1, wordByte_toNat, wordByte_toNat, Nat.pow_succ, ← Nat.div_div_eq_div_mul]
    apply BitVec.eq_of_toNat_eq
    unfold readBack
    rw [if_neg (by decide), if_pos rfl, BitVec.toNat_setWidth, BitVec.extractLsb'_toNat, Nat.shiftRight_eq_div_pow,
      Nat.pow_mul, BitVec.toNat_ofInt]
    generalize value.toNat / (2 ^ 8) ^ skip = q
    omega
  · have hzero : skip = 0 := by
      have : (4 : Int).toNat = 4 := rfl
      omega
    subst hzero
    refine ⟨_, rfl, ?_⟩
    have hword : wordAt mem pos = value := wordAt_of_bytes mem pos value fun k hk => by
      rw [h k hk, Nat.zero_add]
    rw [hword, BitVec.ofInt_toInt]
    exact (BitVec.extractLsb'_eq_self).symm

/-! ## Bytes of the address space -/

/-- The place in memory of a byte of the address space. -/
def physical (table : PageTable) (x : ℕ) : ℕ := toUnsigned (table (x / 128)).physicalPage * 128 + x % 128

theorem toUnsigned_toInt (x : BitVec 32) : toUnsigned x.toInt = x.toNat := by
  have hlt := x.isLt
  rw [toUnsigned, BitVec.toInt_eq_toNat_cond]
  split <;> omega

/-- An aligned access does not leave its page. -/
theorem aligned_page {x k : ℕ} (hsize : AccessSize size) (haligned : x % size.toNat = 0)
    (hk : k < size.toNat) : (x + k) / 128 = x / 128 ∧ (x + k) % 128 = x % 128 + k := by
  rcases hsize with rfl | rfl | rfl <;> simp only [Int.toNat_one, Int.reduceToNat] at haligned hk <;> omega

theorem physical_add {x k : ℕ} (hsize : AccessSize size) (haligned : x % size.toNat = 0)
    (hk : k < size.toNat) : physical table (x + k) = physical table x + k := by
  obtain ⟨hpage, hoffset⟩ := aligned_page hsize haligned hk
  unfold physical
  rw [hpage, hoffset, Nat.add_assoc]

theorem DistinctFrames.physical_injective (h : DistinctFrames table numPages) {x y : ℕ} (hx : x / 128 < numPages)
    (hy : y / 128 < numPages) (hvx : (table (x / 128)).valid = true) (hvy : (table (y / 128)).valid = true)
    (heq : physical table x = physical table y) : x = y := by
  have hfx := h.inMemory _ hx hvx
  have hfy := h.inMemory _ hy hvy
  unfold physical toUnsigned at heq
  simp only [numPhysPages] at hfx hfy
  have hframe : (table (x / 128)).physicalPage = (table (y / 128)).physicalPage := by omega
  have hpage := h.distinct _ hx _ hy hvx hvy hframe
  omega

theorem DistinctFrames.sameMappings (h : DistinctFrames table numPages)
    (hsame : SameMappings table table') : DistinctFrames table' numPages := by
  constructor
  · intro v hv hvalid
    rw [(hsame v).valid] at hvalid
    rw [(hsame v).physicalPage]
    exact h.inMemory v hv hvalid
  · intro u hu v hv hvu hvv heq
    rw [(hsame u).valid] at hvu
    rw [(hsame v).valid] at hvv
    rw [(hsame u).physicalPage, (hsame v).physicalPage] at heq
    exact h.distinct u hu v hv hvu hvv heq

theorem physical_sameMappings (hsame : SameMappings table table') (x : ℕ) : physical table' x = physical table x := by
  unfold physical
  rw [(hsame _).physicalPage]

/-! ## Translation of an address -/

theorem aligned_iff (addr : BitVec 32) (hsize : AccessSize size) :
    ¬ ((size = 4 ∧ addr.toInt % 4 ≠ 0) ∨ (size = 2 ∧ addr.toInt % 2 ≠ 0)) ↔ addr.toNat % size.toNat = 0 := by
  have hsigned : addr.toInt = addr.toNat ∨ addr.toInt = (addr.toNat : Int) - 4294967296 := by
    rw [BitVec.toInt_eq_toNat_cond]
    split
    · exact Or.inl rfl
    · exact Or.inr rfl
  have htoNat : (1 : Int).toNat = 1 ∧ (2 : Int).toNat = 2 ∧ (4 : Int).toNat = 4 := ⟨rfl, rfl, rfl⟩
  rcases hsize with rfl | rfl | rfl
  · rw [htoNat.1]
    omega
  · rw [htoNat.2.1]
    omega
  · rw [htoNat.2.2]
    omega

theorem translate_misaligned (hsize : AccessSize size) (h : addr.toNat % size.toNat ≠ 0) (writing : Bool) :
    translate table numPages addr.toInt size writing = .ok (.error .addressErrorException) := by
  have hmisaligned := (not_congr (aligned_iff addr hsize)).mpr h
  unfold translate
  dsimp only
  rw [if_pos (not_not.mp hmisaligned)]

theorem translate_addr {phys : ℕ} {writing : Bool} (hsize : AccessSize size)
    (h : translate table numPages addr.toInt size writing = .ok (.ok (phys, table'))) :
    addr.toNat / 128 < numPages ∧ (table (addr.toNat / 128)).valid = true ∧ phys = physical table addr.toNat ∧
      addr.toNat % size.toNat = 0 ∧
      table' = Function.update table (addr.toNat / 128) ((table (addr.toNat / 128)).touched writing) := by
  obtain ⟨hpage, hvalid, hphys, hfour, htwo, htable⟩ := translate_eq_ok h
  rw [toUnsigned_toInt] at hpage hvalid hphys htable
  exact ⟨hpage, hvalid, hphys, (aligned_iff addr hsize).mp (by omega), htable⟩

theorem DistinctFrames.translate_read (h : DistinctFrames table numPages) (hsize : AccessSize size)
    (haligned : addr.toNat % size.toNat = 0) (hpage : addr.toNat / 128 < numPages)
    (hvalid : (table (addr.toNat / 128)).valid = true) :
    translate table numPages addr.toInt size false = .ok (.ok (physical table addr.toNat,
      Function.update table (addr.toNat / 128) ((table (addr.toNat / 128)).touched false))) := by
  cases htrans : translate table numPages addr.toInt size false with
  | error trap => exact absurd htrans (translate_total hsize trap)
  | ok x =>
    cases x with
    | ok x =>
      obtain ⟨phys, table'⟩ := x
      obtain ⟨-, -, hphys, -, htable⟩ := translate_addr hsize htrans
      rw [hphys, htable]
    | error which =>
      have hframe : toUnsigned (table (addr.toNat / 128)).physicalPage < numPhysPages := by
        have hin := h.inMemory _ hpage hvalid
        simp only [toUnsigned, numPhysPages] at hin ⊢
        omega
      unfold translate at htrans
      dsimp only at htrans
      rw [toUnsigned_toInt, if_neg ((aligned_iff addr hsize).mpr haligned), if_neg (Nat.not_le.mpr hpage),
        if_neg (not_not.mpr hvalid), if_neg (by simp), if_neg (Nat.not_le.mpr hframe)] at htrans
      split at htrans <;> cases htrans

namespace Cpu

/-! ## Reads after a write -/

/-- Two reads that raise the same exception or give the same value. -/
def SameRead (s s' : Cpu) (a : BitVec 32) (sz : Int) : Prop :=
  (∃ which, s.readMem a sz = raise ⟨s, which, a⟩ ∧ s'.readMem a sz = raise ⟨s', which, a⟩) ∨
  ∃ value u u', s.readMem a sz = pure (value, u) ∧ s'.readMem a sz = pure (value, u')

/-- The machine `s'` after `value` has been written to the `size` bytes at `addr`. -/
structure Written (s s' : Cpu) (addr : BitVec 32) (size : Int) (value : BitVec 32) : Prop where
  same : ∃ u, s'.readMem addr size = pure (readBack size value 0, u)
  within : ∀ a sz, AccessSize sz → addr.toNat ≤ a.toNat → a.toNat + sz.toNat ≤ addr.toNat + size.toNat →
    a.toNat % sz.toNat = 0 → ∃ u, s'.readMem a sz = pure (readBack sz value (a.toNat - addr.toNat), u)
  misaligned : ∀ a sz, AccessSize sz → a.toNat % sz.toNat ≠ 0 →
    s'.readMem a sz = raise ⟨s', .addressErrorException, a⟩
  elsewhere : ∀ a sz, AccessSize sz → a.toNat + sz.toNat ≤ addr.toNat ∨ addr.toNat + size.toNat ≤ a.toNat →
    SameRead s s' a sz
  registers : s'.registers = s.registers
  table : ∀ v, s'.pageTable v =
    if v = addr.toNat / pageSize then { s.pageTable v with use := true, dirty := true } else s.pageTable v

theorem toNat_pos (hsize : AccessSize size) : 0 < size.toNat ∧ size.toNat ≤ 4 := by
  rcases hsize with rfl | rfl | rfl <;> decide

theorem touched_apply (table : PageTable) (page : ℕ) (writing : Bool) (v : ℕ) :
    Function.update table page ((table page).touched writing) v =
      if v = page then { table v with use := true, dirty := (table v).dirty || writing } else table v := by
  rw [Function.update_apply]
  by_cases hv : v = page
  · rw [if_pos hv, if_pos hv, hv]
    rfl
  · rw [if_neg hv, if_neg hv]

/-- The low bytes of `value` in the memory of `s`, at the place of `addr`. -/
def stored (s : Cpu) (addr : BitVec 32) (size : Int) (value : BitVec 32) (table : PageTable) : Cpu :=
  { s with
    pageTable := table
    mainMemory := copy s.mainMemory (physical s.pageTable addr.toNat) (wordByte value) size.toNat }

section
variable {s : Cpu} {phys : ℕ} (h : DistinctFrames s.pageTable s.pageTableSize) (hsize : AccessSize size)
  (htrans : translate s.pageTable s.pageTableSize addr.toInt size true = .ok (.ok (phys, table)))

include h hsize htrans

theorem read_within (value : BitVec 32) {a : BitVec 32} (hsz : AccessSize sz) (hle : addr.toNat ≤ a.toNat)
    (hend : a.toNat + sz.toNat ≤ addr.toNat + size.toNat) (haligned : a.toNat % sz.toNat = 0) :
    ∃ u, (s.stored addr size value table).readMem a sz = pure (readBack sz value (a.toNat - addr.toNat), u) := by
  obtain ⟨hpage, hvalid, -, haddr, -⟩ := translate_addr hsize htrans
  have hsame := translate_sameMapping htrans
  have hpos := toNat_pos hsz
  have hfour := toNat_pos hsize
  obtain ⟨i, hi⟩ := Nat.exists_eq_add_of_le hle
  have hapage := (aligned_page hsize haddr (by omega : i < size.toNat)).1
  rw [← hi] at hapage
  have hread := (h.sameMappings hsame).translate_read hsz haligned (hapage.symm ▸ hpage)
    (by rw [(hsame _).valid, hapage]; exact hvalid)
  rw [physical_sameMappings hsame, hi, physical_add hsize haddr (by omega : i < size.toNat), ← hi] at hread
  have hbytes : ∀ k < sz.toNat, (s.stored addr size value table).mainMemory
      (physical s.pageTable addr.toNat + i + k) = wordByte value (i + k) := by
    intro k hk
    unfold stored
    dsimp only
    rw [copy_inside _ _ (by omega) (by omega)]
    congr 1
    omega
  obtain ⟨x, hx, hback⟩ := valueAt_bytes hsz (by omega) hbytes
  have hskip : a.toNat - addr.toNat = i := by omega
  rw [hskip, ← hback]
  exact ⟨_, readMem_value hread hx⟩

/-- No byte of one range is a byte of the other. -/
theorem stored_elsewhere (value : BitVec 32) {a : BitVec 32} (hsz : AccessSize sz)
    (hdisjoint : a.toNat + sz.toNat ≤ addr.toNat ∨ addr.toNat + size.toNat ≤ a.toNat)
    (hpage : a.toNat / 128 < s.pageTableSize) (hvalid : (s.pageTable (a.toNat / 128)).valid = true)
    (haligned : a.toNat % sz.toNat = 0) {k : ℕ} (hk : k < sz.toNat) :
    s.mainMemory (physical s.pageTable a.toNat + k) =
      (s.stored addr size value table).mainMemory (physical s.pageTable a.toNat + k) := by
  obtain ⟨hpage', hvalid', -, haligned', -⟩ := translate_addr hsize htrans
  refine (copy_outside _ _ ?_).symm
  by_contra hin
  obtain ⟨j, hj⟩ := Nat.exists_eq_add_of_le
    (by omega : physical s.pageTable addr.toNat ≤ physical s.pageTable a.toNat + k)
  have hjlt : j < size.toNat := by omega
  have hka := (aligned_page hsz haligned hk).1
  have hja := (aligned_page hsize haligned' hjlt).1
  rw [← physical_add hsz haligned hk, ← physical_add hsize haligned' hjlt] at hj
  have heq : a.toNat + k = addr.toNat + j :=
    h.physical_injective (hka.symm ▸ hpage) (hja.symm ▸ hpage') (hka.symm ▸ hvalid) (hja.symm ▸ hvalid') hj
  omega

theorem read_elsewhere (value : BitVec 32) {a : BitVec 32} (hsz : AccessSize sz)
    (hdisjoint : a.toNat + sz.toNat ≤ addr.toNat ∨ addr.toNat + size.toNat ≤ a.toNat) :
    SameRead s (s.stored addr size value table) a sz := by
  have hboth := translate_sameMappings (translate_sameMapping htrans) s.pageTableSize a.toInt sz false
  generalize hread : translate s.pageTable s.pageTableSize a.toInt sz false = x at hboth
  generalize hread' : translate table s.pageTableSize a.toInt sz false = y at hboth
  cases hboth with
  | fail trap => exact absurd hread (translate_total hsz trap)
  | raise which => exact Or.inl ⟨which, readMem_raise hread, readMem_raise hread'⟩
  | value physA _ =>
    obtain ⟨hpage, hvalid, rfl, haligned, -⟩ := translate_addr hsz hread
    obtain ⟨x, hx⟩ := valueAt_total s.mainMemory (physical s.pageTable a.toNat) hsz
    have hx' : valueAt (s.stored addr size value table).mainMemory (physical s.pageTable a.toNat) sz = .ok x := by
      rw [← hx]
      exact (valueAt_congr fun k hk => stored_elsewhere h hsize htrans value hsz hdisjoint hpage hvalid haligned hk).symm
    exact Or.inr ⟨_, _, _, readMem_value hread hx, readMem_value hread' hx'⟩

theorem written_stored (value : BitVec 32) : s.Written (s.stored addr size value table) addr size value := by
  obtain ⟨-, -, -, haligned, htable⟩ := translate_addr hsize htrans
  constructor
  · have hread := read_within h hsize htrans value hsize (Nat.le_refl _) (Nat.le_refl _) haligned
    rwa [Nat.sub_self] at hread
  · intro a sz hsz hle hend ha
    exact read_within h hsize htrans value hsz hle hend ha
  · intro a sz hsz ha
    exact readMem_raise (translate_misaligned hsz ha false)
  · intro a sz hsz hdisjoint
    exact read_elsewhere h hsize htrans value hsz hdisjoint
  · rfl
  · intro v
    change table v = _
    rw [htable, touched_apply, Bool.or_true]

end

/-- Translation never fails its assertions, and marks the entry of the page and no other. -/
def TranslatesSafely (s : Cpu) (addr : BitVec 32) (size : Int) (writing : Bool) : Prop :=
  (∃ which, translate s.pageTable s.pageTableSize addr.toInt size writing = .ok (.error which)) ∨
  ∃ phys table, translate s.pageTable s.pageTableSize addr.toInt size writing = .ok (.ok (phys, table)) ∧
    ∀ v, table v = if v = addr.toNat / pageSize
      then { s.pageTable v with use := true, dirty := (s.pageTable v).dirty || writing } else s.pageTable v

theorem translatesSafely (s : Cpu) (addr : BitVec 32) (hsize : AccessSize size) (writing : Bool) :
    s.TranslatesSafely addr size writing := by
  unfold TranslatesSafely
  cases htrans : translate s.pageTable s.pageTableSize addr.toInt size writing with
  | error trap => exact absurd htrans (translate_total hsize trap)
  | ok x =>
    cases x with
    | error which => exact Or.inl ⟨which, rfl⟩
    | ok x =>
      obtain ⟨phys, table⟩ := x
      obtain ⟨-, -, -, -, rfl⟩ := translate_addr hsize htrans
      exact Or.inr ⟨phys, _, rfl, touched_apply _ _ _⟩

/-- A write raises an exception and changes nothing, or is read back byte by byte and leaves all else as it
was. -/
theorem virtual_memory_laws {s : Cpu} (h : DistinctFrames s.pageTable s.pageTableSize) (hsize : AccessSize size)
    (addr value : BitVec 32) :
    (∀ writing, s.TranslatesSafely addr size writing) ∧
    ((∃ which, s.writeMem addr size value = raise ⟨s, which, addr⟩) ∨
      ∃ s', s.writeMem addr size value = pure s' ∧ s.Written s' addr size value) := by
  refine ⟨s.translatesSafely addr hsize, ?_⟩
  rcases s.writeMem_cases addr hsize value with ⟨which, -, hrun⟩ | ⟨phys, table, htrans, hrun⟩
  · exact Or.inl ⟨which, hrun⟩
  · obtain ⟨-, -, rfl, -, -⟩ := translate_addr hsize htrans
    exact Or.inr ⟨_, hrun, written_stored h hsize htrans value⟩

/-- A machine whose pages are in the frames of the same number. -/
def flat : Cpu := ⟨fun _ => 0#32, fun v => ⟨v, v, true, false, false, false⟩, 32, fun _ => 0⟩

theorem flat_distinctFrames : DistinctFrames flat.pageTable flat.pageTableSize :=
  ⟨fun v hv _ => ⟨Int.natCast_nonneg v, Int.ofNat_lt.mpr hv⟩, fun _ _ _ _ _ _ heq => Int.ofNat.inj heq⟩

theorem virtual_memory_laws_flat : DistinctFrames flat.pageTable flat.pageTableSize ∧
    ((∃ which, flat.writeMem 200#32 2 0x8081#32 = raise ⟨flat, which, 200#32⟩) ∨
      ∃ s', flat.writeMem 200#32 2 0x8081#32 = pure s' ∧ flat.Written s' 200#32 2 0x8081#32) :=
  ⟨flat_distinctFrames, (virtual_memory_laws flat_distinctFrames (Or.inr (Or.inl rfl)) 200#32 0x8081#32).2⟩

/-- A byte comes back with its sign, and a part of a word that is not aligned does not come back. -/
theorem readMem_extends_sign : DistinctFrames flat.pageTable flat.pageTableSize ∧
    (∃ s' u, flat.writeMem 200#32 1 0x80#32 = pure s' ∧ s'.readMem 200#32 1 = pure (0xffffff80#32, u)) ∧
    ∃ s' : Cpu, flat.writeMem 200#32 4 0x80#32 = pure s' ∧
      s'.readMem 201#32 2 = raise ⟨s', .addressErrorException, 201#32⟩ :=
  ⟨flat_distinctFrames, ⟨_, _, rfl, rfl⟩, ⟨_, rfl, rfl⟩⟩

end Cpu

end Nachos
