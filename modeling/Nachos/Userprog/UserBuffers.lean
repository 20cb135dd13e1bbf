import Nachos.Filesys.Allocation
import Nachos.Userprog.Syscall
import Nachos.Userprog.UserMemory

/-! # The `Read` and `Write` system calls on user buffers

The bytes of a `Write` go through the 1000 bytes that `AddrSpace::read` returns, those of a `Read` through a buffer of the
size asked for that `AddrSpace::write` copies up to 1000 bytes of. The number of bytes the file takes or gives, the size
asked for and these 1000 are three lengths; this module says what each call does where they differ. -/
set_option autoImplicit false

namespace Nachos
open Buffer Execution

/-! ## Files at a position -/

namespace OpenFile

/-- What an open file has been checked for. -/
structure Valid (file : OpenFile) : Prop where
  wellFormed : file.hdr.WellFormed
  position : 0 ≤ file.seekPosition

/-- The number of bytes that the file has for a request from its position on. -/
def accepted (file : OpenFile) (size : ℕ) : ℕ := (transferred file.hdr size file.seekPosition).toNat

/-- The next bytes of the file. -/
def byteFrom (file : OpenFile) (disk : Disk) (j : ℕ) : UInt8 := file.hdr.byteAt disk (file.seekPosition.toNat + j)

variable {file : OpenFile}

theorem accepted_cast (file : OpenFile) (size : ℕ) :
    transferred file.hdr size file.seekPosition = (file.accepted size : Int) := by
  unfold accepted transferred
  omega

theorem accepted_of_numBytes {hdr : FileHeader} {n position : Int} (h : hdr.numBytes = n) (size : ℕ) :
    (⟨hdr, position⟩ : OpenFile).accepted size = (max 0 (min (size : Int) (n - position))).toNat := by
  unfold accepted transferred
  rw [h]

theorem accepted_le (file : OpenFile) (size : ℕ) : file.accepted size ≤ size := by
  unfold accepted transferred
  omega

/-- The sum of position and size is no larger than an `int` if any byte is transferred at all. -/
theorem Valid.no_overflow (h : file.Valid) {size : ℕ} (hsize : size ≤ memorySize)
    (hpos : ¬ file.seekPosition ≥ file.hdr.fileLength) : file.seekPosition + size ≤ intMax := by
  have hcovered := h.wellFormed.covered
  have hfits := h.wellFormed.fits
  unfold FileHeader.fileLength at hpos
  simp only [memorySize, numPhysPages, pageSize, sectorSize, numDirect, intMax] at *
  omega

theorem Valid.read_eq (h : file.Valid) (disk : Disk) (junk : Image) {size : ℕ} (hsize : size ≤ memorySize) :
    ∃ bytes, file.read disk junk size =
        .ok ((file.accepted size : Int), bytes, { file with seekPosition := file.seekPosition + file.accepted size }) ∧
      ∀ j < file.accepted size, bytes j = file.byteFrom disk j := by
  unfold read
  by_cases hpast : file.seekPosition ≥ file.hdr.fileLength
  · have hnone : file.accepted size = 0 := Int.toNat_eq_zero.mpr (transferred_none (Or.inr hpast)).le
    unfold readAt
    rw [if_pos (Or.inr hpast), hnone]
    exact ⟨junk, rfl, fun j hj => absurd hj (Nat.not_lt_zero j)⟩
  · obtain ⟨bytes, hrun, hbytes⟩ :=
      readAt_eq h.wellFormed disk junk size file.seekPosition h.position (h.no_overflow hsize hpast)
    rw [accepted_cast] at hrun hbytes
    rw [hrun]
    exact ⟨bytes, rfl, fun j hj => hbytes j (by omega)⟩

theorem Valid.write_eq (h : file.Valid) (disk : Disk) (junk src : Image) {size : ℕ} (hsize : size ≤ memorySize) :
    ∃ disk', file.write disk junk src size =
        .ok ((file.accepted size : Int), disk', { file with seekPosition := file.seekPosition + file.accepted size }) ∧
      ∀ q : ℕ, (q : Int) < file.hdr.numBytes → file.hdr.byteAt disk' q =
        if file.seekPosition ≤ q ∧ q < file.seekPosition + file.accepted size then src (q - file.seekPosition.toNat)
        else file.hdr.byteAt disk q := by
  unfold write
  by_cases hpast : file.seekPosition ≥ file.hdr.fileLength
  · have hnone : file.accepted size = 0 := Int.toNat_eq_zero.mpr (transferred_none (Or.inr hpast)).le
    unfold writeAt
    rw [if_pos (Or.inr hpast), hnone]
    exact ⟨disk, rfl, fun q _ => by rw [if_neg (by omega)]⟩
  · obtain ⟨disk', hrun, hbytes, -⟩ :=
      writeAt_eq h.wellFormed disk junk src size file.seekPosition h.position (h.no_overflow hsize hpast)
    rw [accepted_cast] at hrun hbytes
    rw [hrun]
    exact ⟨disk', rfl, hbytes⟩

end OpenFile

/-! ## The kernel's view of user memory -/

namespace Os

/-- The virtual memory system of the kernel. -/
def vm (k : Os) : Vm := ⟨fun t => (k.process t).map Process.space, k.memory⟩

/-- What process `t` has at address `x`. -/
def userByte (env : Outside) (k : Os) (t x : ℕ) : UInt8 := k.vm.user env.fs t x

/-- The `size` bytes from `x` on are mapped in the memory of the caller. -/
def MappedBuffer (env : Outside) (k : Os) (x size : ℕ) : Prop := k.vm.Mapped env.fs (bufferPages k.current x size)

/-- Descriptor `fd` of the caller is open on a file. -/
structure OpenOn (k : Os) (fd : Int) (f : ℕ) (file : OpenFile) : Prop where
  notConsole : 2 ≤ fd
  entry : ∃ p, k.process k.current = some p ∧ p.openFiles.entry fd = some f
  opened : k.files f = some file
  valid : file.Valid

/-- `Write` to the console prints the bytes of the buffer and returns their number. -/
def SendsToConsole (env : Outside) (k : Os) (x size : ℕ) : Prop :=
  ∃ k', k.writeSyscallFunc env x size consoleOutput = .ok ((size : Int), k') ∧
    k'.output = k.output ++ (List.range size).map fun j => k.userByte env k.current (x + j)

/-- `Write` to a file hands it the bytes of the buffer, as many as it accepts, and returns their number. -/
def SendsToFile (env : Outside) (k : Os) (x size : ℕ) (fd : Int) (f : ℕ) (file : OpenFile) : Prop :=
  ∃ k', k.writeSyscallFunc env x size fd = .ok ((file.accepted size : Int), k') ∧
    k'.files f = some { file with seekPosition := file.seekPosition + file.accepted size } ∧
    ∀ q : ℕ, (q : Int) < file.hdr.numBytes → file.hdr.byteAt k'.memory.disk q =
      if file.seekPosition ≤ q ∧ q < file.seekPosition + file.accepted size then
        k.userByte env k.current (x + (q - file.seekPosition.toNat))
      else file.hdr.byteAt k.memory.disk q

/-- `Read` returns the number of bytes that the file has, puts them into the buffer and changes nothing else. -/
def Delivers (env : Outside) (k : Os) (x size : ℕ) (fd : Int) (f : ℕ) (file : OpenFile) : Prop :=
  ∃ k', k.readSyscallFunc env x size fd = .ok ((file.accepted size : Int), k') ∧
    k'.files f = some { file with seekPosition := file.seekPosition + file.accepted size } ∧
    (∀ j < file.accepted size, k'.userByte env k.current (x + j) = file.byteFrom k.memory.disk j) ∧
    ∀ t y, ¬ (t = k.current ∧ x ≤ y ∧ y < x + file.accepted size) → k'.userByte env t y = k.userByte env t y

section Access
variable {env : Outside} {k : Os} {t : ℕ} {p : Process} {pages : Finset (ℕ × ℕ)} {flat : Flat}

theorem vm_setSpace (k : Os) (m : Memory) (t : ℕ) (p : Process) :
    ({ k with memory := m }.setProcess t p).vm = k.vm.set t p.space m := by
  unfold vm setProcess Vm.set
  congr 1
  funext u
  by_cases hu : u = t
  · subst hu
    simp
  · simp [hu]

theorem vm_space (hp : k.process t = some p) : k.vm.spaces t = some p.space := by
  simp [vm, hp]

theorem exists_process (h : k.vm.Mapped env.fs pages) {v : ℕ} (hv : (t, v) ∈ pages) : ∃ p, k.process t = some p := by
  obtain ⟨a, ha⟩ := h.page _ hv
  obtain ⟨p, hp, -⟩ := Option.map_eq_some_iff.mp ha.space
  exact ⟨p, hp⟩

/-- `AddrSpace::read` on mapped pages. -/
theorem read_mapped (h : k.vm.Stands env.fs pages flat) (hp : k.process t = some p) (x : ℕ) (bytes : Int)
    (hpages : ∀ j < (readBytes (flat t) x bytes bufferSize 0).length, (t, (x + j) / 128) ∈ pages) :
    ∃ space m, k.read env t x bytes = .ok (ofBytes (readBytes (flat t) x bytes bufferSize 0),
        { k with memory := m }.setProcess t { p with space := space }) ∧
      ({ k with memory := m }.setProcess t { p with space := space }).vm.Stands env.fs pages flat ∧
      m.disk = k.memory.disk := by
  rw [← Vm.set_self (vm_space hp)] at h
  obtain ⟨space, m, hrun, hstands, hdisk⟩ := h.readFrom env.fuel bufferSize 0 hpages
  refine ⟨space, m, ?_, ?_, hdisk⟩
  · unfold read
    rw [getProcess_eq hp, ok_bind]
    unfold AddrSpace.read
    show (readFrom (loadPage env.fs env.fuel) x bytes bufferSize 0 k.vm.memory p.space >>= _) = _
    rw [hrun]
    rfl
  · rw [vm_setSpace]
    exact hstands

/-- `AddrSpace::write` on mapped pages. -/
theorem write_mapped (h : k.vm.Stands env.fs pages flat) (hp : k.process t = some p) (x : ℕ) (str : Image) (bytes : Int)
    (hpages : ∀ j < (readBytes str 0 bytes bufferSize 0).length, (t, (x + j) / 128) ∈ pages) :
    ∃ space m, k.write env t x str bytes = .ok ({ k with memory := m }.setProcess t { p with space := space }) ∧
      ({ k with memory := m }.setProcess t { p with space := space }).vm.Stands env.fs pages
        (Function.update flat t (writeBytes x str bytes bufferSize 0 (flat t))) ∧
      m.disk = k.memory.disk := by
  rw [← Vm.set_self (vm_space hp)] at h
  obtain ⟨space, m, hrun, hstands, hdisk⟩ := h.writeFrom env.fuel bufferSize 0 hpages
  refine ⟨space, m, ?_, ?_, hdisk⟩
  · unfold write
    rw [getProcess_eq hp, ok_bind]
    unfold AddrSpace.write
    show (writeFrom (loadPage env.fs env.fuel) x str bytes bufferSize 0 k.vm.memory p.space >>= _) = _
    rw [hrun]
    rfl
  · rw [vm_setSpace]
    exact hstands

/-- A mapped buffer is no larger than the memory of the machine. -/
theorem MappedBuffer.size_le (hsound : k.vm.Sound) {x size : ℕ} (h : k.MappedBuffer env x size) : size ≤ memorySize := by
  by_contra hlong
  obtain ⟨a, ha⟩ := h.page _ (mem_bufferPages k.current x (show size - 1 < size by omega))
  have hlt := ha.lt
  have hfits := (hsound.ok _ a ha.space).fits
  simp only [memorySize, numPhysPages, pageSize, sectorSize] at *
  omega

theorem ofBytes_sized (mem : Image) (x : ℕ) {size : ℕ} (hsize : 0 < size) {j : ℕ} (hj : j < min bufferSize size) :
    ofBytes (readBytes mem x size bufferSize 0) j = mem (x + j) := by
  unfold ofBytes
  rw [readBytes_sized mem x hsize, List.getD_eq_getElem?_getD, List.getElem?_map, List.getElem?_range (by omega)]
  rfl

end Access

/-! ## Write -/

section Write
variable {env : Outside} {k : Os} {x size : ℕ}

/-- The buffer of a `Write` is read: the kernel has its first 1000 bytes, and its files are as before. -/
theorem read_buffer (hsound : k.vm.Sound) (hmapped : k.MappedBuffer env x size) (hsize : 0 < size) {p : Process}
    (hp : k.process k.current = some p) :
    ∃ buf k₁ p₁, k.read env k.current x size = .ok (buf, k₁) ∧ k₁.current = k.current ∧ k₁.output = k.output ∧
      k₁.files = k.files ∧ k₁.memory.disk = k.memory.disk ∧ k₁.getProcess k.current = .ok p₁ ∧
      p₁.openFiles = p.openFiles ∧ ∀ j < min bufferSize size, buf j = k.userByte env k.current (x + j) := by
  have hstands : k.vm.Stands env.fs (bufferPages k.current x size) (k.vm.user env.fs) := ⟨hsound, hmapped, rfl⟩
  obtain ⟨space, m, hread, -, hdisk⟩ := read_mapped hstands hp x size fun j hj => by
    rw [readBytes_sized _ _ hsize, List.length_map, List.length_range] at hj
    exact mem_bufferPages k.current x (by omega)
  refine ⟨_, _, { p with space := space }, hread, rfl, rfl, rfl, hdisk, getProcess_eq (Function.update_self _ _ _), rfl,
    fun j hj => ofBytes_sized _ x hsize hj⟩

theorem sendsToConsole_iff (hsound : k.vm.Sound) (hmapped : k.MappedBuffer env x size) (hsize : 0 < size) :
    k.SendsToConsole env x size ↔ size ≤ bufferSize := by
  obtain ⟨p, hp⟩ := exists_process hmapped (mem_bufferPages k.current x hsize)
  obtain ⟨buf, k₁, p₁, hread, -, houtput, -, -, -, -, hbuf⟩ := read_buffer hsound hmapped hsize hp
  unfold SendsToConsole writeSyscallFunc
  rw [if_neg (by decide), if_neg (by omega), if_neg (by omega), if_neg (by decide), hread, ok_bind]
  dsimp only
  rw [if_pos rfl, Int.toNat_natCast]
  constructor
  · rintro ⟨k', hrun, -⟩
    by_contra hlong
    rw [if_neg (by omega)] at hrun
    cases hrun
  · intro hshort
    rw [if_pos (by omega)]
    refine ⟨_, rfl, congrArg₂ _ houtput (List.map_congr_left fun j hj => ?_)⟩
    have hlt := List.mem_range.mp hj
    exact hbuf j (by omega)

theorem accepted_le_iff (file : OpenFile) (size n : ℕ) :
    file.accepted size ≤ n ↔ size ≤ n ∨ file.hdr.numBytes ≤ file.seekPosition + n := by
  unfold OpenFile.accepted transferred
  omega

theorem sendsToFile_iff (hsound : k.vm.Sound) (hmapped : k.MappedBuffer env x size) (hsize : 0 < size) {fd : Int}
    {f : ℕ} {file : OpenFile} (hopen : k.OpenOn fd f file) :
    k.SendsToFile env x size fd f file ↔ file.accepted size ≤ bufferSize := by
  obtain ⟨p, hp, hentry⟩ := hopen.entry
  have hfd := hopen.notConsole
  obtain ⟨buf, k₁, p₁, hread, hcurrent, -, hfiles, hdisk, hprocess, hsame, hbuf⟩ := read_buffer hsound hmapped hsize hp
  obtain ⟨disk', hwrite, hbytes⟩ := hopen.valid.write_eq k.memory.disk (env.junk 0) buf (hmapped.size_le hsound)
  have hfile : k₁.getFile f = .ok file := by
    unfold getFile
    rw [hfiles, hopen.opened]
  unfold SendsToFile writeSyscallFunc
  rw [if_neg (by omega), if_neg (by omega), if_neg (by omega), if_neg (by simp only [consoleInput]; omega), hread,
    ok_bind]
  dsimp only
  rw [if_neg (by simp only [consoleOutput]; omega), hcurrent, hprocess, ok_bind, FdList.fdGet_eq, ok_bind, hsame, hentry]
  dsimp only
  rw [hfile, ok_bind, hdisk, hwrite, ok_bind]
  dsimp only
  constructor
  · rintro ⟨k', hrun, -⟩
    by_contra hlong
    rw [if_neg (by omega)] at hrun
    cases hrun
  · intro hshort
    rw [if_pos (by omega)]
    refine ⟨_, rfl, Function.update_self _ _ _, fun q hq => ?_⟩
    have hle := file.accepted_le size
    have hpos := hopen.valid.position
    refine (hbytes q hq).trans ?_
    split
    · next hin => exact hbuf _ (by omega)
    · rfl

end Write

/-! ## Read -/

section Read
variable {env : Outside} {k : Os} {x size : ℕ} {fd : Int} {f : ℕ} {file : OpenFile}

/-- The bytes that are copied without being of the file, and those of the file that are not copied, are in user memory
already. -/
structure Coincides (env : Outside) (k : Os) (x size : ℕ) (file : OpenFile) : Prop where
  /-- The rest of the kernel's buffer is copied as well. -/
  junk : ∀ j, file.accepted size ≤ j → j < min bufferSize size → env.junk 1 j = k.userByte env k.current (x + j)
  /-- Bytes past the 1000th are not copied. -/
  rest : ∀ j, bufferSize ≤ j → j < file.accepted size →
    k.userByte env k.current (x + j) = file.byteFrom k.memory.disk j

/-- What `Read` does to user memory: up to 1000 bytes of its buffer are copied if the file had any. -/
theorem readSyscallFunc_eq (hsound : k.vm.Sound) (hmapped : k.MappedBuffer env x size) (hsize : 0 < size)
    (hopen : k.OpenOn fd f file) :
    ∃ k', k.readSyscallFunc env x size fd = .ok ((file.accepted size : Int), k') ∧
      k'.files f = some { file with seekPosition := file.seekPosition + file.accepted size } ∧
      ∀ t y, k'.userByte env t y =
        if 0 < file.accepted size ∧ t = k.current ∧ x ≤ y ∧ y < x + min bufferSize size then
          if y - x < file.accepted size then file.byteFrom k.memory.disk (y - x) else env.junk 1 (y - x)
        else k.userByte env t y := by
  obtain ⟨p, hp, hentry⟩ := hopen.entry
  have hfd := hopen.notConsole
  obtain ⟨bytes, hread, hbytes⟩ := hopen.valid.read_eq k.memory.disk (env.junk 0) (hmapped.size_le hsound)
  have hfile : k.getFile f = .ok file := by
    unfold getFile
    rw [hopen.opened]
  have hheap := (hmapped.size_le hsound).trans env.heap_room
  unfold readSyscallFunc
  rw [if_neg (by omega), if_neg (by omega), if_neg (by omega), if_neg (by omega),
    if_neg (by simp only [consoleOutput]; omega), if_neg (by simp only [consoleInput]; omega),
    getProcess_eq hp, ok_bind, FdList.fdGet_eq, ok_bind, hentry]
  dsimp only
  rw [hfile, ok_bind, hread, ok_bind]
  dsimp only
  by_cases hnone : file.accepted size = 0
  · rw [hnone, if_neg (by decide), if_pos Int.natCast_zero]
    refine ⟨_, rfl, Function.update_self _ _ _, fun t y => ?_⟩
    rw [if_neg (by omega)]
    rfl
  · rw [if_pos (by omega), Int.toNat_natCast]
    have hstands : (k.setFile f (some { file with seekPosition := file.seekPosition + file.accepted size })).vm.Stands
        env.fs (bufferPages k.current x size) (k.vm.user env.fs) := ⟨hsound, hmapped, rfl⟩
    obtain ⟨space, m, hwrite, hstands', -⟩ := write_mapped hstands hp x
      (copy (env.junk 1) 0 bytes (file.accepted size)) size fun j hj => by
        rw [readBytes_sized _ _ hsize, List.length_map, List.length_range] at hj
        exact mem_bufferPages k.current x (by omega)
    rw [show (k.setFile f (some { file with seekPosition := file.seekPosition + file.accepted size })).current =
      k.current from rfl, hwrite, ok_bind]
    refine ⟨_, rfl, Function.update_self _ _ _, fun t y => ?_⟩
    have huser := congrFun (congrFun hstands'.user t) y
    refine huser.trans ?_
    by_cases ht : t = k.current
    · subst ht
      rw [Function.update_self, writeBytes_sized x _ hsize]
      by_cases hy : x ≤ y ∧ y < x + min bufferSize size
      · rw [if_pos (by omega), if_pos ⟨by omega, rfl, hy⟩]
        by_cases hlt : y - x < file.accepted size
        · rw [if_pos hlt, ← hbytes _ hlt]
          simp [copy, hlt]
        · rw [if_neg hlt]
          simp [copy, hlt]
      · rw [if_neg (by omega), if_neg (fun h => hy h.2.2)]
        rfl
    · rw [Function.update_of_ne ht, if_neg (fun h => ht h.2.1)]
      rfl

theorem delivers_iff (hsound : k.vm.Sound) (hmapped : k.MappedBuffer env x size) (hsize : 0 < size)
    (hopen : k.OpenOn fd f file) :
    k.Delivers env x size fd f file ↔ file.accepted size = 0 ∨ k.Coincides env x size file := by
  obtain ⟨k', hrun, hposition, huser⟩ := readSyscallFunc_eq hsound hmapped hsize hopen
  have hle := file.accepted_le size
  unfold Delivers
  constructor
  · rintro ⟨k₁, hrun₁, -, hfile, hother⟩
    rw [hrun] at hrun₁
    cases hrun₁
    rcases Nat.eq_zero_or_pos (file.accepted size) with hnone | hpos
    · exact Or.inl hnone
    · refine Or.inr ⟨fun j hj hlt => ?_, fun j hj hlt => ?_⟩
      · have hsame := hother k.current (x + j) (by omega)
        rwa [huser, if_pos ⟨hpos, rfl, by omega, by omega⟩, Nat.add_sub_cancel_left, if_neg (by omega)] at hsame
      · have hsame := hfile j hlt
        rwa [huser, if_neg (by omega)] at hsame
  · intro hcond
    refine ⟨k', hrun, hposition, fun j hj => ?_, fun t y hout => ?_⟩
    · rw [huser]
      by_cases hcopied : j < bufferSize
      · rw [if_pos ⟨by omega, rfl, by omega, by omega⟩, Nat.add_sub_cancel_left, if_pos hj]
      · rw [if_neg (by omega)]
        exact (hcond.resolve_left (by omega)).rest j (by omega) hj
    · rw [huser]
      by_cases hcopied : 0 < file.accepted size ∧ t = k.current ∧ x ≤ y ∧ y < x + min bufferSize size
      · obtain ⟨hpos, rfl, hlow, hhigh⟩ := hcopied
        rw [if_pos ⟨hpos, rfl, hlow, hhigh⟩, if_neg (by omega)]
        have hjunk := (hcond.resolve_left (by omega)).junk (y - x) (by omega) (by omega)
        rwa [Nat.add_sub_cancel' hlow] at hjunk
      · rw [if_neg hcopied]

end Read

end Os

/-! ## A process with a file open -/

/-- What the process finds outside; the kernel's buffers hold sevens at first. -/
def readerOutside : Outside := ⟨onlyFile blankFile, 0, fun _ _ => 7, fun _ => none, none, 0, 1, memorySize, le_rfl⟩

/-- The table of a new process after its first `Open`. -/
def readerFiles : FdList :=
  valueOr ⟨⟨0, fun _ => 0#32⟩, fun _ => none⟩ do
    let l ← Os.newOpenFiles readerOutside
    let (_, l) ← l.fdPut (some 0)
    return l

theorem readerFiles_entry : readerFiles.entry 2 = some 0 := by decide +kernel

/-- A formatted disk with a file of 2000 bytes that has the empty name. -/
abbrev ReaderDisk := OneFile (ofBytes []) 2000

theorem exists_readerDisk : Nonempty ReaderDisk := exists_oneFile _ (by decide) (by decide)

/-- Process 0 with the table `l`; no page of it is in memory yet. -/
def reader (d : ReaderDisk) (a : AddrSpace) (l : FdList) (position : Int) : Os where
  memory := ⟨fun _ => 0, ⟨numSectors, fun _ => 0#32⟩, fun _ => 0, d.disk⟩
  fileSystem := d.fs
  files f := if f = 0 then some ⟨d.hdr, position⟩ else none
  process t := if t = 0 then some ⟨a, l, 4080, 0, 0⟩ else none
  threads := ⟨fun _ => ChildThread.new 0 0 0, 0, fun _ => none, fun _ => none, 0, none, fun t => t = 0, [], []⟩
  readyList := []
  current := 0
  output := []

theorem blank_imageByte (x : ℕ) : blankHeader.imageByte blankFile x = 0 := by
  have hcode : ¬ blankHeader.code.Covers x := by
    unfold Segment.Covers
    simp only [blankHeader]
    omega
  unfold NoffHeader.imageByte
  rw [if_neg hcode, if_neg (show ¬ blankHeader.initData.Covers x from hcode)]

section Blank
variable {s : Vm} {t : ℕ} {a : AddrSpace} (ha : s.spaces t = some a) (hblank : a.noffH = blankHeader)
include ha hblank

/-- Every page of a blank program that has not run can be loaded. -/
theorem blank_mappedPage (hpages : a.numPages = 32) (htable : a.pageTable = TranslationEntry.absent) {v : ℕ}
    (hv : v < 32) : s.MappedPage (onlyFile blankFile) t v a := by
  refine ⟨ha, by omega, fun hvalid => ?_, fun _ => ⟨blankFile, rfl, ?_, fun frame _ => ?_⟩⟩
  · rw [htable] at hvalid
    cases hvalid
  · rw [hblank, hpages]
    exact blank_layout
  · rw [hblank]
    exact blank_loadsImage _ frame

theorem blank_user {x : ℕ} (hnone : s.place (t, x) = none) : s.user (onlyFile blankFile) t x = 0 := by
  unfold Vm.user
  rw [Placement.view_none hnone]
  unfold Vm.image
  rw [ha]
  show a.image (onlyFile blankFile) x = 0
  unfold AddrSpace.image
  rw [hblank]
  exact blank_imageByte x

end Blank

section Reader
variable {a : AddrSpace} (hok : a.Ok) (hblank : a.noffH = blankHeader) (hpages : a.numPages = 32)
  (htable : a.pageTable = TranslationEntry.absent) (d : ReaderDisk) (l : FdList) (position : Int)

theorem reader_space {t : ℕ} {b : AddrSpace} (h : (reader d a l position).vm.spaces t = some b) : t = 0 ∧ b = a := by
  simp only [Os.vm, reader] at h
  split at h
  · next ht =>
    cases h
    exact ⟨ht, rfl⟩
  · cases h

include htable in
theorem reader_frame (k : ℕ × ℕ) : (reader d a l position).vm.frame k = none := by
  unfold Vm.frame
  cases hspace : (reader d a l position).vm.spaces k.1 with
  | none => rfl
  | some b =>
    obtain ⟨-, rfl⟩ := reader_space d l position hspace
    exact frame_eq_none (by rw [htable]; rfl)

include hok htable in
theorem reader_sound : (reader d a l position).vm.Sound where
  ok t b hb := by
    obtain ⟨-, rfl⟩ := reader_space d l position hb
    exact hok
  exclusive := by
    constructor
    · intro k f hf
      rw [reader_frame htable] at hf
      cases hf
    · intro k k' f hf
      rw [reader_frame htable] at hf
      cases hf

theorem reader_freeFrames : freeFrames (reader d a l position).vm.memory = Finset.range numPhysPages :=
  Finset.filter_true_of_mem fun _ _ => rfl

include hblank hpages htable in
theorem reader_mapped {x size : ℕ} (hfits : x + size ≤ 4096) :
    (reader d a l position).MappedBuffer readerOutside x size where
  page := by
    rintro ⟨t, v⟩ hk
    obtain ⟨j, hj, heq⟩ := Finset.mem_image.mp hk
    have hlt := Finset.mem_range.mp hj
    obtain ⟨rfl, rfl⟩ := Prod.mk.inj heq
    exact ⟨a, blank_mappedPage rfl hblank hpages htable (by omega)⟩
  room := by
    rw [reader_freeFrames, Finset.card_range]
    refine (Finset.card_le_card (Finset.filter_subset _ _)).trans ?_
    have hsub : bufferPages (reader d a l position).current x size ⊆ (Finset.range numPhysPages).image fun v => (0, v) := by
      intro k hk
      obtain ⟨j, hj, rfl⟩ := Finset.mem_image.mp hk
      have hlt := Finset.mem_range.mp hj
      exact Finset.mem_image.mpr ⟨(x + j) / 128, Finset.mem_range.mpr (by simp only [numPhysPages]; omega), rfl⟩
    exact (Finset.card_le_card hsub).trans (Finset.card_image_le.trans_eq (Finset.card_range _))

include hblank htable in
theorem reader_userByte (x : ℕ) : (reader d a l position).userByte readerOutside 0 x = 0 := by
  have hnone : (reader d a l position).vm.place (0, x) = none := by
    rw [place_eq_none]
    cases hheld : (reader d a l position).vm.held (0, x / 128) with
    | none => rfl
    | some f => rw [← held_frame hheld, reader_frame htable]
  exact blank_user rfl hblank hnone

theorem exists_reader {position : Int} (hposition : 0 ≤ position) : ∃ (k : Os) (hdr : FileHeader),
    hdr.numBytes = 2000 ∧ k.vm.Sound ∧ (∀ size ≤ 4096, k.MappedBuffer readerOutside 0 size) ∧
      k.OpenOn 2 0 ⟨hdr, position⟩ ∧ k.current = 0 ∧ ∀ x, k.userByte readerOutside 0 x = 0 := by
  obtain ⟨d⟩ := exists_readerDisk
  obtain ⟨a, ha, hblank, hpages, -⟩ := blank_construct []
  obtain ⟨hok, -, htable, -⟩ := construct_eq_ok ha
  have hopen : (reader d a readerFiles position).OpenOn 2 0 ⟨d.hdr, position⟩ := by
    refine ⟨by decide, ⟨⟨a, readerFiles, 4080, 0, 0⟩, rfl, ?_⟩, rfl, d.wellFormed, hposition⟩
    dsimp only
    exact readerFiles_entry
  exact ⟨reader d a readerFiles position, d.hdr, d.numBytes, reader_sound hok htable d readerFiles position,
    fun size hsize => reader_mapped hblank hpages htable d readerFiles position (by omega), hopen, rfl,
    reader_userByte hblank htable d readerFiles position⟩

end Reader

/-! ## When the calls keep to the lengths -/

namespace Os
variable {env : Outside} {k : Os} {x size : ℕ}

theorem write_sends_buffer_iff (hsound : k.vm.Sound) (hsize : 0 < size) (hmapped : k.MappedBuffer env x size) :
    (k.SendsToConsole env x size ↔ size ≤ bufferSize) ∧ ∀ fd f file, k.OpenOn fd f file →
      (k.SendsToFile env x size fd f file ↔
        size ≤ bufferSize ∨ file.hdr.numBytes ≤ file.seekPosition + (bufferSize : ℕ)) := by
  refine ⟨sendsToConsole_iff hsound hmapped hsize, fun fd f file hopen => ?_⟩
  rw [sendsToFile_iff hsound hmapped hsize hopen, accepted_le_iff]

theorem write_sends_buffer_small : ∃ (k : Os) (hdr : FileHeader), hdr.numBytes = 2000 ∧ k.vm.Sound ∧
    k.MappedBuffer readerOutside 0 300 ∧ k.OpenOn 2 0 ⟨hdr, 0⟩ ∧ k.SendsToConsole readerOutside 0 300 ∧
    k.SendsToFile readerOutside 0 300 2 0 ⟨hdr, 0⟩ := by
  obtain ⟨k, hdr, hbytes, hsound, hmapped, hopen, -, -⟩ := exists_reader (le_refl 0)
  obtain ⟨hconsole, hfile⟩ := write_sends_buffer_iff hsound (by decide) (hmapped 300 (by decide))
  exact ⟨k, hdr, hbytes, hsound, hmapped 300 (by decide), hopen, hconsole.mpr (by decide),
    (hfile 2 0 _ hopen).mpr (Or.inl (by decide))⟩

/-- With one byte more than the kernel's buffer has room for, the call goes past its end. -/
theorem write_leaves_buffer : ∃ (k : Os) (hdr : FileHeader), hdr.numBytes = 2000 ∧ k.vm.Sound ∧
    k.MappedBuffer readerOutside 0 1001 ∧ k.OpenOn 2 0 ⟨hdr, 0⟩ ∧ ¬ k.SendsToConsole readerOutside 0 1001 ∧
    ¬ k.SendsToFile readerOutside 0 1001 2 0 ⟨hdr, 0⟩ := by
  obtain ⟨k, hdr, hbytes, hsound, hmapped, hopen, -, -⟩ := exists_reader (le_refl 0)
  refine ⟨k, hdr, hbytes, hsound, hmapped 1001 (by decide), hopen, ?_, ?_⟩
  · rw [sendsToConsole_iff hsound (hmapped 1001 (by decide)) (by decide)]
    decide
  · rw [sendsToFile_iff hsound (hmapped 1001 (by decide)) (by decide) hopen, OpenFile.accepted_of_numBytes hbytes]
    decide

theorem read_delivers_iff (hsound : k.vm.Sound) (hsize : 0 < size) (hmapped : k.MappedBuffer env x size) {fd : Int}
    {f : ℕ} {file : OpenFile} (hopen : k.OpenOn fd f file) :
    k.Delivers env x size fd f file ↔ file.hdr.numBytes ≤ file.seekPosition ∨ k.Coincides env x size file := by
  have hnone : file.accepted size = 0 ↔ file.hdr.numBytes ≤ file.seekPosition := by
    unfold OpenFile.accepted transferred
    omega
  rw [delivers_iff hsound hmapped hsize hopen, hnone]

/-- The last 300 bytes of the file. -/
theorem read_delivers_tail : ∃ (k : Os) (hdr : FileHeader), hdr.numBytes = 2000 ∧ k.vm.Sound ∧
    k.MappedBuffer readerOutside 0 300 ∧ k.OpenOn 2 0 ⟨hdr, 1700⟩ ∧ k.Delivers readerOutside 0 300 2 0 ⟨hdr, 1700⟩ := by
  obtain ⟨k, hdr, hbytes, hsound, hmapped, hopen, -, -⟩ := exists_reader (show (0 : Int) ≤ 1700 by decide)
  have haccepted : (⟨hdr, 1700⟩ : OpenFile).accepted 300 = 300 := OpenFile.accepted_of_numBytes hbytes 300
  refine ⟨k, hdr, hbytes, hsound, hmapped 300 (by decide), hopen,
    (read_delivers_iff hsound (by decide) (hmapped 300 (by decide)) hopen).mpr (Or.inr ⟨?_, ?_⟩)⟩
  · intro j hj hlt
    rw [haccepted] at hj
    omega
  · intro j hj hlt
    rw [haccepted] at hlt
    simp only [bufferSize] at hj
    omega

/-- The file has one byte left, and two are asked for: the second byte of the buffer is overwritten with what the
kernel's buffer held. -/
theorem read_writes_junk : ∃ (k : Os) (hdr : FileHeader), hdr.numBytes = 2000 ∧ k.vm.Sound ∧
    k.MappedBuffer readerOutside 0 2 ∧ k.OpenOn 2 0 ⟨hdr, 1999⟩ ∧
    (∃ k', k.readSyscallFunc readerOutside (0 : ℕ) (2 : ℕ) 2 = .ok (1, k') ∧
      k.userByte readerOutside 0 1 = 0 ∧ k'.userByte readerOutside 0 1 = 7) ∧
    ¬ k.Delivers readerOutside 0 2 2 0 ⟨hdr, 1999⟩ := by
  obtain ⟨k, hdr, hbytes, hsound, hmapped, hopen, hcurrent, hzero⟩ := exists_reader (show (0 : Int) ≤ 1999 by decide)
  have haccepted : (⟨hdr, 1999⟩ : OpenFile).accepted 2 = 1 := OpenFile.accepted_of_numBytes hbytes 2
  obtain ⟨k', hrun, -, huser⟩ := readSyscallFunc_eq hsound (hmapped 2 (by decide)) (by decide) hopen
  rw [haccepted] at hrun
  refine ⟨k, hdr, hbytes, hsound, hmapped 2 (by decide), hopen, ⟨k', hrun, hzero 1, ?_⟩, ?_⟩
  · rw [huser, haccepted, if_pos ⟨by decide, hcurrent.symm, by decide, by decide⟩, if_neg (by decide)]
    rfl
  · rw [delivers_iff hsound (hmapped 2 (by decide)) (by decide) hopen, haccepted]
    rintro (hnone | hsame)
    · cases hnone
    · have hbyte := hsame.junk 1 (by rw [haccepted]) (by decide)
      rw [hcurrent, hzero] at hbyte
      exact absurd hbyte (by decide)

end Os

end Nachos
