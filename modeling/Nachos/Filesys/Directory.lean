import Nachos.Filesys.OpenFileMeaning

/-! # The directory (`filesys/directory.cc`)

A table of entries of twenty bytes: the flag `inUse` and three bytes of padding, the header's sector,
ten bytes of name and two of padding. Names are compared by `strncmp` over `FileNameMaxLen` bytes,
which is equality of the strings cut off there (`cstring`). -/
set_option autoImplicit false

namespace Nachos
open Buffer Execution

/-! ## C strings -/

/-- The string at an address, cut off after `n` bytes. -/
def cstring : ℕ → Image → List UInt8
  | 0, _ => []
  | n + 1, a => if a 0 = 0 then [] else a 0 :: cstring n (shift a 1)

/-- `!strncmp(a, b, n)`. -/
def strncmpEq : ℕ → Image → Image → Bool
  | 0, _, _ => true
  | n + 1, a, b => a 0 == b 0 && (a 0 == 0 || strncmpEq n (shift a 1) (shift b 1))

/-- `strncpy(dst, src, n)`: what follows the end of the string is filled with zero bytes. -/
def strncpy : ℕ → Image → Image → Image
  | 0, dst, _ => dst
  | n + 1, dst, src => fun o =>
    if o = 0 then src 0
    else strncpy n (shift dst 1) (if src 0 = 0 then fun _ => 0 else shift src 1) (o - 1)

theorem strncmpEq_iff (n : ℕ) (a b : Image) : strncmpEq n a b = true ↔ cstring n a = cstring n b := by
  induction n generalizing a b with
  | zero => simp [strncmpEq, cstring]
  | succ n ih =>
    by_cases hab : a 0 = b 0
    · by_cases h0 : b 0 = 0
      · simp [strncmpEq, cstring, hab, h0]
      · simp [strncmpEq, cstring, hab, h0, ih]
    · have hne : cstring (n + 1) a ≠ cstring (n + 1) b := by
        by_cases ha : a 0 = 0 <;> by_cases hb : b 0 = 0 <;> simp_all [cstring]
      simp [strncmpEq, hab, hne]

theorem cstring_congr {n : ℕ} {a b : Image} (h : ∀ o < n, a o = b o) : cstring n a = cstring n b := by
  induction n generalizing a b with
  | zero => rfl
  | succ n ih =>
    have hrest : cstring n (shift a 1) = cstring n (shift b 1) :=
      ih fun o ho => h (1 + o) (by omega)
    simp only [cstring, h 0 (by omega), hrest]

theorem shift_strncpy (n : ℕ) (dst src : Image) (h0 : src 0 ≠ 0) :
    shift (strncpy (n + 1) dst src) 1 = strncpy n (shift dst 1) (shift src 1) := by
  funext o
  have hsub : 1 + o - 1 = o := by omega
  simp only [shift_apply, strncpy, h0, if_false, hsub]
  rw [if_neg (by omega)]

theorem cstring_strncpy (n : ℕ) (dst src : Image) : cstring n (strncpy n dst src) = cstring n src := by
  induction n generalizing dst src with
  | zero => rfl
  | succ n ih =>
    have hhead : strncpy (n + 1) dst src 0 = src 0 := by simp [strncpy]
    by_cases h0 : src 0 = 0
    · simp [cstring, hhead, h0]
    · simp only [cstring, hhead, h0, if_false, shift_strncpy n dst src h0, ih]

/-! ## Entries -/

abbrev fileNameMaxLen : ℕ := 9

/-- `sizeof(DirectoryEntry)`. -/
abbrev directoryEntrySize : ℕ := 20

structure DirectoryEntry where
  inUse : Bool
  sector : Int
  name : Image

namespace DirectoryEntry

def image (e : DirectoryEntry) : Image := fun o =>
  if o = 0 then (if e.inUse then 1 else 0)
  else if 4 ≤ o ∧ o < 8 then wordByte (BitVec.ofInt 32 e.sector) (o - 4)
  else if 8 ≤ o ∧ o < 18 then e.name (o - 8)
  else 0

/-- Entry `i` of a table of entries. -/
def ofImage (m : Image) (i : ℕ) : DirectoryEntry where
  inUse := m (directoryEntrySize * i) != 0
  sector := (wordAt m (directoryEntrySize * i + 4)).toInt
  name := shift m (directoryEntrySize * i + 8)

/-- The same entry, as far as its ten bytes of name go. -/
structure Same (e e' : DirectoryEntry) : Prop where
  inUse : e.inUse = e'.inUse
  sector : e.sector = e'.sector
  name : ∀ o < fileNameMaxLen + 1, e.name o = e'.name o

theorem Same.trans {e e' e'' : DirectoryEntry} (h : e.Same e') (h' : e'.Same e'') : e.Same e'' :=
  ⟨h.inUse.trans h'.inUse, h.sector.trans h'.sector, fun o ho => (h.name o ho).trans (h'.name o ho)⟩

/-- What `FindIndex` compares. -/
def key (e : DirectoryEntry) : List UInt8 := cstring fileNameMaxLen e.name

theorem Same.key {e e' : DirectoryEntry} (h : e.Same e') : e.key = e'.key :=
  cstring_congr fun o ho => h.name o (by omega)

theorem ofImage_congr {m m' : Image} {i : ℕ}
    (h : ∀ o < directoryEntrySize, m (directoryEntrySize * i + o) = m' (directoryEntrySize * i + o)) :
    (ofImage m i).Same (ofImage m' i) where
  inUse := by
    have := h 0 (by decide)
    simp only [Nat.add_zero] at this
    simp only [ofImage, this]
  sector := by
    simp only [ofImage]
    rw [wordAt_congr]
    intro k hk
    have := h (4 + k) (by simp only [directoryEntrySize]; omega)
    rw [← Nat.add_assoc] at this
    exact this
  name o ho := by
    have := h (8 + o) (by simp only [directoryEntrySize, fileNameMaxLen] at *; omega)
    rw [← Nat.add_assoc] at this
    exact this

end DirectoryEntry

/-! ## The table -/

structure Directory where
  tableSize : ℕ
  table : ℕ → DirectoryEntry

namespace Directory

/-- `Directory::Directory`: only the flags of the entries are initialised. -/
def new (junk : Image) (size : ℕ) : Directory where
  tableSize := size
  table := fun i => { DirectoryEntry.ofImage junk i with inUse := false }

def image (d : Directory) : Image := fun o =>
  (d.table (o / directoryEntrySize)).image (o % directoryEntrySize)

def fetchFrom (d : Directory) (disk : Disk) (file : OpenFile) (junk : Image) : Call Directory := do
  let (n, bytes) ← readAt disk file.hdr junk ((d.tableSize * directoryEntrySize : ℕ) : Int) 0
  return { d with table := DirectoryEntry.ofImage (copy d.image 0 bytes n.toNat) }

def writeBack (d : Directory) (disk : Disk) (file : OpenFile) (junk : Image) : Call Disk := do
  let (_, disk) ← writeAt disk file.hdr junk d.image ((d.tableSize * directoryEntrySize : ℕ) : Int) 0
  return disk

/-- The loop of `FindIndex` from entry `i` on, with `n` entries to go. -/
def findIndexFrom (d : Directory) (name : Image) (i : ℕ) : ℕ → Int
  | 0 => -1
  | n + 1 =>
    if (d.table i).inUse && strncmpEq fileNameMaxLen (d.table i).name name then i
    else findIndexFrom d name (i + 1) n

def findIndex (d : Directory) (name : Image) : Int := d.findIndexFrom name 0 d.tableSize

def find (d : Directory) (name : Image) : Int :=
  if d.findIndex name ≠ -1 then (d.table (d.findIndex name).toNat).sector else -1

def setEntry (d : Directory) (i : ℕ) (e : DirectoryEntry) : Directory :=
  { d with table := Function.update d.table i e }

/-- The loop of `Add` from entry `i` on, with `n` entries to go. -/
def addFrom (d : Directory) (name : Image) (newSector : Int) (i : ℕ) : ℕ → Bool × Directory
  | 0 => (false, d)
  | n + 1 =>
    if ! (d.table i).inUse then
      (true, d.setEntry i ⟨true, newSector, strncpy fileNameMaxLen (d.table i).name name⟩)
    else addFrom d name newSector (i + 1) n

def add (d : Directory) (name : Image) (newSector : Int) : Bool × Directory :=
  if d.findIndex name ≠ -1 then (false, d) else d.addFrom name newSector 0 d.tableSize

def remove (d : Directory) (name : Image) : Bool × Directory :=
  if d.findIndex name = -1 then (false, d)
  else (true, d.setEntry (d.findIndex name).toNat
    { d.table (d.findIndex name).toNat with inUse := false })

/-! ## What the operations find -/

/-- Entry `i` is in use under the given name. -/
def Matches (d : Directory) (name : Image) (i : ℕ) : Prop :=
  (d.table i).inUse = true ∧ (d.table i).key = cstring fileNameMaxLen name

theorem findIndexFrom_spec (d : Directory) (name : Image) (i n : ℕ) :
    (d.findIndexFrom name i n = -1 ∧ ∀ j, i ≤ j → j < i + n → ¬ d.Matches name j) ∨
    ∃ w : ℕ, d.findIndexFrom name i n = w ∧ w < i + n ∧ d.Matches name w := by
  induction n generalizing i with
  | zero => exact Or.inl ⟨rfl, by omega⟩
  | succ n ih =>
    have hiff : ((d.table i).inUse && strncmpEq fileNameMaxLen (d.table i).name name) = true ↔
        d.Matches name i := by
      rw [Bool.and_eq_true, strncmpEq_iff]
      rfl
    by_cases hi : d.Matches name i
    · exact Or.inr ⟨i, by rw [findIndexFrom, if_pos (hiff.mpr hi)], by omega, hi⟩
    · rw [findIndexFrom, if_neg (fun h => hi (hiff.mp h))]
      rcases ih (i + 1) with ⟨hrun, hall⟩ | ⟨w, hrun, hlt, hw⟩
      · refine Or.inl ⟨hrun, fun j hj hj' => ?_⟩
        by_cases h : j = i
        · rw [h]
          exact hi
        · exact hall j (by omega) (by omega)
      · exact Or.inr ⟨w, hrun, by omega, hw⟩

theorem findIndex_spec (d : Directory) (name : Image) :
    (d.findIndex name = -1 ∧ ∀ i < d.tableSize, ¬ d.Matches name i) ∨
    ∃ i : ℕ, d.findIndex name = i ∧ i < d.tableSize ∧ d.Matches name i := by
  rcases d.findIndexFrom_spec name 0 d.tableSize with ⟨hrun, hall⟩ | ⟨w, hrun, hlt, hw⟩
  · exact Or.inl ⟨hrun, fun i hi => hall i (by omega) (by omega)⟩
  · exact Or.inr ⟨w, hrun, by omega, hw⟩

theorem addFrom_spec (d : Directory) (name : Image) (newSector : Int) (i n : ℕ) :
    (d.addFrom name newSector i n = (false, d) ∧ ∀ j, i ≤ j → j < i + n → (d.table j).inUse = true) ∨
    ∃ w : ℕ, w < i + n ∧ (d.table w).inUse = false ∧ d.addFrom name newSector i n =
      (true, d.setEntry w ⟨true, newSector, strncpy fileNameMaxLen (d.table w).name name⟩) := by
  induction n generalizing i with
  | zero => exact Or.inl ⟨rfl, by omega⟩
  | succ n ih =>
    cases hi : (d.table i).inUse with
    | false => exact Or.inr ⟨i, by omega, hi, by simp [addFrom, hi]⟩
    | true =>
      have hstep : d.addFrom name newSector i (n + 1) = d.addFrom name newSector (i + 1) n := by
        simp [addFrom, hi]
      rw [hstep]
      rcases ih (i + 1) with ⟨hrun, hall⟩ | ⟨w, hlt, hw, hrun⟩
      · refine Or.inl ⟨hrun, fun j hj hj' => ?_⟩
        by_cases h : j = i
        · rw [h, hi]
        · exact hall j (by omega) (by omega)
      · exact Or.inr ⟨w, by omega, hw, hrun⟩

/-! ## The directory as a file -/

variable {h : FileHeader}

/-- Entry `i` of the table stored in a file. -/
def storedEntry (h : FileHeader) (disk : Disk) (i : ℕ) : DirectoryEntry :=
  DirectoryEntry.ofImage (h.byteAt disk) i

theorem ofImage_image (d : Directory) (i : ℕ) (hlow : -2147483648 ≤ (d.table i).sector)
    (hhigh : (d.table i).sector < 2147483648) :
    (DirectoryEntry.ofImage d.image i).Same (d.table i) := by
  have hdiv : ∀ o < directoryEntrySize, (directoryEntrySize * i + o) / directoryEntrySize = i := by
    intro o ho
    simp only [directoryEntrySize] at *
    omega
  have hmod : ∀ o < directoryEntrySize, (directoryEntrySize * i + o) % directoryEntrySize = o := by
    intro o ho
    simp only [directoryEntrySize] at *
    omega
  have hbyte : ∀ o < directoryEntrySize, d.image (directoryEntrySize * i + o) = (d.table i).image o := by
    intro o ho
    unfold image
    rw [hdiv o ho, hmod o ho]
  refine ⟨?_, ?_, fun o ho => ?_⟩
  · have := hbyte 0 (by decide)
    rw [Nat.add_zero] at this
    simp only [DirectoryEntry.ofImage, this, DirectoryEntry.image]
    cases (d.table i).inUse <;> rfl
  · have hword : wordAt d.image (directoryEntrySize * i + 4) = BitVec.ofInt 32 (d.table i).sector := by
      apply wordAt_of_bytes
      intro k hk
      rw [Nat.add_assoc, hbyte _ (by simp only [directoryEntrySize]; omega)]
      simp only [DirectoryEntry.image]
      rw [if_neg (by omega), if_pos (by omega), Nat.add_sub_cancel_left]
    simp only [DirectoryEntry.ofImage, hword]
    exact toInt_ofInt_of_bounds hlow hhigh
  · simp only [fileNameMaxLen] at ho
    simp only [DirectoryEntry.ofImage, shift_apply]
    rw [Nat.add_assoc, hbyte _ (by simp only [directoryEntrySize]; omega)]
    simp only [DirectoryEntry.image]
    rw [if_neg (by omega), if_neg (by omega), if_pos (by omega), Nat.add_sub_cancel_left]

theorem fetchFrom_spec (wf : h.WellFormed) (d : Directory) (disk : Disk) (p : Int) (junk : Image)
    (hsize : (d.tableSize * directoryEntrySize : ℕ) ≤ h.numBytes) (hmax : h.numBytes ≤ intMax) :
    ∃ d', d.fetchFrom disk ⟨h, p⟩ junk = .ok d' ∧ d'.tableSize = d.tableSize ∧
      ∀ i < d.tableSize, (d'.table i).Same (storedEntry h disk i) := by
  obtain ⟨bytes, hrun, hbytes⟩ := readAt_eq wf disk junk ((d.tableSize * directoryEntrySize : ℕ) : Int) 0
    (by omega) (by omega)
  have hk := transferred_whole (Int.natCast_nonneg _) hsize
  rw [hk] at hrun hbytes
  refine ⟨{ d with table := DirectoryEntry.ofImage (copy d.image 0 bytes (d.tableSize * directoryEntrySize)) },
    by simp only [fetchFrom, hrun, ok_bind, pure_eq_ok, Int.toNat_natCast], rfl, fun i hi => ?_⟩
  apply DirectoryEntry.ofImage_congr
  intro o ho
  simp only [directoryEntrySize] at *
  rw [copy_from_zero _ _ (by omega), hbytes _ (by omega), Int.toNat_zero, Nat.zero_add]

theorem writeBack_spec (wf : h.WellFormed) (d : Directory) (disk : Disk) (p : Int) (junk : Image)
    (hsize : (d.tableSize * directoryEntrySize : ℕ) ≤ h.numBytes) (hmax : h.numBytes ≤ intMax) :
    ∃ disk', d.writeBack disk ⟨h, p⟩ junk = .ok disk' ∧
      (∀ i < d.tableSize, (storedEntry h disk' i).Same (DirectoryEntry.ofImage d.image i)) ∧
      ∀ t, (∀ i : ℕ, i < h.numSectors → t ≠ (h.dataSectors i).toNat) → disk' t = disk t := by
  obtain ⟨disk', hrun, hin, hout⟩ := writeAt_eq wf disk junk d.image
    ((d.tableSize * directoryEntrySize : ℕ) : Int) 0 (by omega) (by omega)
  have hk := transferred_whole (Int.natCast_nonneg _) hsize
  refine ⟨disk', by simp only [writeBack, hrun, ok_bind, pure_eq_ok], fun i hi => ?_, hout⟩
  apply DirectoryEntry.ofImage_congr
  intro o ho
  simp only [directoryEntrySize] at *
  rw [hin _ (by omega), if_pos (by omega), Int.toNat_zero, Nat.sub_zero]

end Directory

end Nachos
