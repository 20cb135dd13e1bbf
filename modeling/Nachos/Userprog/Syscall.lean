import Nachos.Filesys.FileSys
import Nachos.Userprog.Exception
import Nachos.Userprog.Join

/-! # The services of the kernel (`userprog/exception.cc`, `FD_List` and `createStackArgs` of `addrspace.cc`)

`Os` is what the system calls work on: the memory and the disk, the `OpenFile` objects by address, the
process that each thread runs, and the threads themselves. Each `…SyscallFunc` is the function of that name
in the source, `exceptionHandler` dispatches to them, and `cycle` is one instruction of a user program with
the call of the handler that it may make. `AddrSpace::read` and `AddrSpace::write` load pages as they go,
and a string they have read ends within the buffer of `bufferSize` bytes or not at all. -/
set_option autoImplicit false

namespace Nachos
open Buffer Execution Raising Uniprocessor

/-! ## Descriptor tables -/

/-- A bit for each descriptor and its pointer to an `OpenFile`; `none` is the null pointer. -/
structure FdList where
  map : BitMap
  list : ℕ → Option ℕ

namespace FdList

/-- The map is made with one bit for each pointer of the list. -/
def size (l : FdList) : Int := l.map.numBits

/-- `FD_List::FD_List(int)`; the pointers hold garbage until they are put. -/
def new (words : ℕ → BitVec 32) (junk : ℕ → Option ℕ) (size : Int) : Call FdList := do
  let map ← BitMap.new words size
  if size < 0 then .error .badAlloc
  else return ⟨map, junk⟩

/-- `FD_List::fd_get`. -/
def fdGet (l : FdList) (i : Int) : Call (Option ℕ) :=
  if 0 ≤ i ∧ i < l.size then do
    if ← l.map.test i then return l.list i.toNat
    else return none
  else .ok none

/-- `FD_List::fd_put`. -/
def fdPut (l : FdList) (newFd : Option ℕ) : Call (Int × FdList) := do
  let (i, map) ← l.map.find
  if i ≠ -1 then return (i, ⟨map, Function.update l.list i.toNat newFd⟩)
  else return (i, ⟨map, l.list⟩)

/-- `FD_List::fd_remove`; `oldFd` is what its local variable holds before it is set. -/
def fdRemove (l : FdList) (oldFd : Option ℕ) (i : Int) : Call (Option ℕ × FdList) :=
  if 0 ≤ i ∧ i < l.size then do
    if ← l.map.test i then
      let map ← l.map.clear i
      return (l.list i.toNat, ⟨map, Function.update l.list i.toNat none⟩)
    else return (oldFd, l)
  else .ok (oldFd, l)

/-- Descriptor `i` has been put and not removed. -/
def IsOpen (l : FdList) (i : Int) : Prop := 0 ≤ i ∧ i < l.size ∧ l.map.bit i.toNat = true

instance (l : FdList) (i : Int) : Decidable (l.IsOpen i) := inferInstanceAs (Decidable (_ ∧ _ ∧ _))

/-- What the calls for descriptor `i` find. -/
def entry (l : FdList) (i : Int) : Option ℕ := if l.IsOpen i then l.list i.toNat else none

theorem test_of_range (l : FdList) {i : Int} (h : 0 ≤ i ∧ i < l.size) : l.map.test i = .ok (l.map.bit i.toNat) := by
  have hcast := Int.toNat_of_nonneg h.1
  have htest := l.map.test_eq (w := i.toNat) (by rw [hcast]; exact h.2)
  rwa [hcast] at htest

theorem bit_of_closed {l : FdList} {i : Int} (h : ¬ l.IsOpen i) (hrange : 0 ≤ i ∧ i < l.size) :
    l.map.bit i.toNat = false :=
  Bool.eq_false_iff.mpr fun hbit => h ⟨hrange.1, hrange.2, hbit⟩

theorem fdGet_eq (l : FdList) (i : Int) : l.fdGet i = .ok (l.entry i) := by
  unfold fdGet entry
  by_cases hopen : l.IsOpen i
  · have hrange : 0 ≤ i ∧ i < l.size := ⟨hopen.1, hopen.2.1⟩
    rw [if_pos hrange, l.test_of_range hrange, ok_bind, hopen.2.2, if_pos rfl, if_pos hopen]
    rfl
  · rw [if_neg hopen]
    split
    · next hrange =>
      rw [l.test_of_range hrange, ok_bind, bit_of_closed hopen hrange]
      rfl
    · rfl

theorem fdPut_returns (l : FdList) (newFd : Option ℕ) : Returns (l.fdPut newFd) := by
  have hfind : Returns l.map.find := by
    have hspec := l.map.findFrom_spec 0 l.map.numBits.toNat
    by_cases hneg : l.map.numBits < 0
    · have hzero : l.map.numBits.toNat = 0 := by omega
      unfold BitMap.find
      rw [hzero]
      exact ⟨_, rfl⟩
    · rcases hspec (by omega) with ⟨hrun, -⟩ | ⟨w, map, hrun, -⟩ <;> exact ⟨_, hrun⟩
  obtain ⟨⟨i, map⟩, hfind⟩ := hfind
  unfold fdPut
  rw [hfind, ok_bind]
  dsimp only
  split <;> exact ⟨_, rfl⟩

/-- `fd_put` takes the first descriptor that is not open. -/
theorem fdPut_spec (l : FdList) (newFd : Option ℕ) (hsize : 0 ≤ l.size) :
    (l.fdPut newFd = .ok (-1, l) ∧ ∀ i, 0 ≤ i → i < l.size → l.IsOpen i) ∨
    ∃ (w : ℕ) (l' : FdList), l.fdPut newFd = .ok ((w : Int), l') ∧ ¬ l.IsOpen w ∧
      (∀ i : Int, 0 ≤ i → i < w → l.IsOpen i) ∧ l'.size = l.size ∧ l'.list = Function.update l.list w newFd ∧
      ∀ i : Int, l'.IsOpen i ↔ i = w ∨ l.IsOpen i := by
  unfold size at hsize
  unfold fdPut IsOpen size
  rcases l.map.findFrom_spec 0 l.map.numBits.toNat (by omega) with
    ⟨hfind, hall⟩ | ⟨w, map, hfind, hlt, hbit, hleast, hbits, hset⟩
  · left
    have hrun : l.map.find = .ok (-1, l.map) := hfind
    rw [hrun]
    exact ⟨rfl, fun i hi hlt => ⟨hi, hlt, hall i.toNat (Nat.zero_le _) (by omega)⟩⟩
  · right
    have hrun : l.map.find = .ok ((w : Int), map) := hfind
    rw [hrun, ok_bind]
    refine ⟨w, ⟨map, Function.update l.list w newFd⟩, if_pos (by omega), ?_, ?_, hbits, rfl, fun i => ?_⟩
    · rintro ⟨-, -, h⟩
      rw [Int.toNat_natCast, hbit] at h
      cases h
    · intro i hi hiw
      exact ⟨hi, by omega, hleast i.toNat (Nat.zero_le _) (by omega)⟩
    · dsimp only
      rw [hbits, hset]
      by_cases hi : i = w
      · subst hi
        rw [Int.toNat_natCast, if_pos rfl]
        exact iff_of_true ⟨by omega, by omega, rfl⟩ (Or.inl rfl)
      · rw [or_iff_right hi]
        by_cases hneg : 0 ≤ i
        · rw [if_neg (by omega)]
        · exact iff_of_false (fun h => hneg h.1) (fun h => hneg h.1)

/-- `fd_remove` on a descriptor that is not open returns what it has never set. -/
theorem fdRemove_spec (l : FdList) (oldFd : Option ℕ) (i : Int) :
    ∃ l', l.fdRemove oldFd i = .ok (if l.IsOpen i then l.list i.toNat else oldFd, l') ∧ l'.size = l.size ∧
      (∀ j, l'.IsOpen j ↔ l.IsOpen j ∧ j ≠ i) ∧ ∀ j : ℕ, (j : Int) ≠ i → l'.list j = l.list j := by
  unfold fdRemove
  by_cases hopen : l.IsOpen i
  · have hrange : 0 ≤ i ∧ i < l.size := ⟨hopen.1, hopen.2.1⟩
    have hcast := Int.toNat_of_nonneg hrange.1
    obtain ⟨map, hclear, hbits, hset⟩ := l.map.clear_spec (w := i.toNat) (by rw [hcast]; exact hrange.2)
    rw [hcast] at hclear
    rw [if_pos hrange, l.test_of_range hrange, ok_bind, hopen.2.2, if_pos rfl, hclear, ok_bind, if_pos hopen]
    refine ⟨_, rfl, hbits, fun j => ?_, fun j hj => Function.update_of_ne (by omega) _ _⟩
    unfold IsOpen size
    dsimp only
    rw [hbits, hset]
    by_cases hj : j = i
    · subst hj
      rw [if_pos rfl]
      exact iff_of_false (fun h => Bool.false_ne_true h.2.2) (fun h => h.2 rfl)
    · rw [and_iff_left hj]
      by_cases hneg : 0 ≤ j
      · rw [if_neg (by omega)]
      · exact iff_of_false (fun h => hneg h.1) (fun h => hneg h.1)
  · have hsame : ∀ j, l.IsOpen j ↔ l.IsOpen j ∧ j ≠ i := by
      intro j
      refine (and_iff_left_of_imp ?_).symm
      rintro hj rfl
      exact hopen hj
    rw [if_neg hopen]
    split
    · next hrange =>
      rw [l.test_of_range hrange, ok_bind, bit_of_closed hopen hrange]
      exact ⟨l, rfl, rfl, hsame, fun _ _ => rfl⟩
    · exact ⟨l, rfl, rfl, hsame, fun _ _ => rfl⟩

end FdList

/-! ## The state -/

/-- An address space with the members that only the system calls use. -/
structure Process where
  space : AddrSpace
  openFiles : FdList
  stackBase : Int
  argc : Int
  argv : Int

structure Os where
  memory : Memory
  fileSystem : FileSystem
  files : ℕ → Option OpenFile
  process : ℕ → Option Process
  threads : Processes ℕ
  readyList : List ℕ
  current : ℕ
  /-- What has been printed. -/
  output : List UInt8

/-- What a call finds outside the kernel: the executables that `Open` hands out, what memory holds before it
is set, the word typed at the console, the addresses that `new` gives, and the largest block it has, which is no
smaller than the memory of the machine. -/
structure Outside where
  fs : Programs
  fuel : ℕ
  junk : ℕ → Image
  oldFds : ℕ → Option ℕ
  typed : Option (List UInt8)
  newFile : ℕ
  newThread : ℕ
  heap : ℕ
  heap_room : memorySize ≤ heap

def Outside.loader (env : Outside) : Loader := loadPage env.fs env.fuel

def Outside.words (env : Outside) : ℕ → BitVec 32 := fun i => wordAt (env.junk 0) (4 * i)

abbrev consoleInput : Int := 0
abbrev consoleOutput : Int := 1

/-- The bytes in a buffer. -/
def ofBytes (bytes : List UInt8) : Image := fun o => bytes.getD o 0

/-- `strlen` of a string in a buffer of `size` bytes. -/
def strlen (buf : Image) (size : ℕ) : Call ℕ :=
  match (List.range size).find? fun i => buf i == 0 with
  | some n => .ok n
  | none => .error (.outOfBounds .buffer)

namespace Os

def setProcess (k : Os) (t : ℕ) (p : Process) : Os := { k with process := Function.update k.process t (some p) }

def getProcess (k : Os) (t : ℕ) : Call Process :=
  match k.process t with
  | some p => .ok p
  | none => .error .badPointer

def getFile (k : Os) (f : ℕ) : Call OpenFile :=
  match k.files f with
  | some file => .ok file
  | none => .error .badPointer

def setFile (k : Os) (f : ℕ) (file : Option OpenFile) : Os := { k with files := Function.update k.files f file }

def setDisk (k : Os) (disk : Disk) : Os := { k with memory := { k.memory with disk := disk } }

/-- `space->read(addr, bytes)`, for the space of thread `t`. -/
def read (env : Outside) (k : Os) (t : ℕ) (addr bytes : Int) : Call (Image × Os) := do
  let p ← k.getProcess t
  let (buf, space, m) ← p.space.read env.loader k.memory addr bytes
  return (ofBytes buf, { k with memory := m }.setProcess t { p with space := space })

/-- `space->write(addr, str, bytes)`, for the space of thread `t`. -/
def write (env : Outside) (k : Os) (t : ℕ) (addr : Int) (str : Image) (bytes : Int) : Call Os := do
  let p ← k.getProcess t
  let (space, m) ← p.space.write env.loader k.memory addr str bytes
  return { k with memory := m }.setProcess t { p with space := space }

section Access
variable {env : Outside} {k k' : Os} {t : ℕ} {p : Process}

theorem getProcess_eq (h : k.process t = some p) : k.getProcess t = .ok p := by
  unfold getProcess
  rw [h]

theorem getProcess_eq_ok (h : k.getProcess t = .ok p) : k.process t = some p := by
  unfold getProcess at h
  split at h
  · next hp =>
    cases h
    exact hp
  · cases h

theorem getFile_eq_ok {f : ℕ} {file : OpenFile} (h : k.getFile f = .ok file) : k.files f = some file := by
  unfold getFile at h
  split at h
  · next hfile =>
    cases h
    exact hfile
  · cases h

/-- `AddrSpace::read` changes nothing but the memory and the space. -/
theorem read_eq_ok {addr bytes : Int} {buf : Image} (h : k.read env t addr bytes = .ok (buf, k')) :
    ∃ (p : Process) (space : AddrSpace) (m : Memory), k.process t = some p ∧
      (∃ chars, p.space.read env.loader k.memory addr bytes = .ok (chars, space, m)) ∧
      k' = { k with memory := m }.setProcess t { p with space := space } := by
  obtain ⟨p, hp, hrun⟩ := bind_eq_ok.mp h
  obtain ⟨⟨chars, space, m⟩, hread, hrun⟩ := bind_eq_ok.mp hrun
  cases hrun
  exact ⟨p, space, m, getProcess_eq_ok hp, ⟨chars, hread⟩, rfl⟩

theorem write_eq_ok {addr bytes : Int} {str : Image} (h : k.write env t addr str bytes = .ok k') :
    ∃ (p : Process) (space : AddrSpace) (m : Memory), k.process t = some p ∧
      p.space.write env.loader k.memory addr str bytes = .ok (space, m) ∧
      k' = { k with memory := m }.setProcess t { p with space := space } := by
  obtain ⟨p, hp, hrun⟩ := bind_eq_ok.mp h
  obtain ⟨⟨space, m⟩, hwrite, hrun⟩ := bind_eq_ok.mp hrun
  cases hrun
  exact ⟨p, space, m, getProcess_eq_ok hp, hwrite, rfl⟩

end Access

/-! ## Files -/

def createSyscallFunc (env : Outside) (k : Os) (addr : Int) : Call Os := do
  let (buf, k) ← k.read env k.current addr 0
  let (_, disk) ← k.fileSystem.create env.junk k.memory.disk buf 0
  return k.setDisk disk

def openSyscallFunc (env : Outside) (k : Os) (addr : Int) : Call (Int × Os) := do
  let (buf, k) ← k.read env k.current addr 0
  match ← k.fileSystem.openFile env.junk k.memory.disk buf with
  | none => return (-1, k)
  | some file =>
    let p ← k.getProcess k.current
    let (fd, openFiles) ← p.openFiles.fdPut (some env.newFile)
    let k := k.setProcess k.current { p with openFiles := openFiles }
    -- the file is deleted where the table is full
    let k := if fd = -1 then k else k.setFile env.newFile (some file)
    return (if fd = 0 then -1 else fd, k)

def writeSyscallFunc (env : Outside) (k : Os) (addr size fd : Int) : Call (Int × Os) :=
  if fd < 0 then .ok (-1, k)
  else if size = 0 then .ok (0, k)
  else if size < 0 then .ok (-1, k)
  else if fd = consoleInput then .ok (-1, k)
  else do
    let (buf, k) ← k.read env k.current addr size
    if fd = consoleOutput then
      -- the loop prints `buf[count]` for every `count` below `size`
      if size ≤ bufferSize then
        return (size, { k with output := k.output ++ (List.range size.toNat).map buf })
      else .error (.outOfBounds .buffer)
    else
      let p ← k.getProcess k.current
      match ← p.openFiles.fdGet fd with
      | none => return (-1, k)
      | some f =>
        let file ← k.getFile f
        let (temp, disk, file) ← file.write k.memory.disk (env.junk 0) buf size
        -- the bytes that the file accepts are read from the buffer
        if temp ≤ bufferSize then return (temp, (k.setDisk disk).setFile f (some file))
        else .error (.outOfBounds .buffer)

/-- `scanf("%s", buf)` into a buffer of `size` bytes; at the end of the input the buffer stays as it is. -/
def scanf (env : Outside) (size : Int) : Call Image :=
  match env.typed with
  | none => .ok (env.junk 0)
  | some word =>
    if word.length < size then .ok (store (env.junk 0) 0 (word ++ [0]))
    else .error (.outOfBounds .buffer)

def readSyscallFunc (env : Outside) (k : Os) (addr size fd : Int) : Call (Int × Os) :=
  if size = 0 then .ok (0, k)
  else if size < 0 then .ok (-1, k)
  else if fd < 0 then .ok (-1, k)
  -- `buf = new char[size]`
  else if (env.heap : Int) < size then .error .badAlloc
  else if fd = consoleOutput then .ok (-1, k)
  else if fd = consoleInput then do
    let buf ← scanf env size
    let k ← k.write env k.current addr buf size
    let strLen ← strlen buf size.toNat
    return ((strLen : Int) - 1, k)
  else do
    let p ← k.getProcess k.current
    match ← p.openFiles.fdGet fd with
    | none => return (-1, k)
    | some f =>
      let file ← k.getFile f
      let (readSize, bytes, file) ← file.read k.memory.disk (env.junk 0) size
      let k := k.setFile f (some file)
      if readSize > 0 then
        let k ← k.write env k.current addr (copy (env.junk 1) 0 bytes readSize.toNat) size
        return (readSize, k)
      else if readSize = 0 then return (0, k)
      else return (-1, k)

def closeSyscallFunc (env : Outside) (k : Os) (fd : Int) : Call Os :=
  if fd < 0 then .ok k
  else do
    let p ← k.getProcess k.current
    let (file, openFiles) ← p.openFiles.fdRemove (env.oldFds 0) fd
    let k := k.setProcess k.current { p with openFiles := openFiles }
    match file with
    | none => return k
    | some f =>
      let _ ← k.getFile f
      return k.setFile f none

/-! ## Processes -/

/-- The first loop of `createStackArgs`, from argument `argNum` on with `n` more to go: the pointers before
the null pointer. -/
def readArgv (env : Outside) (argvAddr : Int) : ℕ → ℕ → Os → Call (List (BitVec 32) × Os)
  | 0, _, k => .ok ([], k)
  | n + 1, argNum, k => do
    let (argPtr, k) ← k.read env k.current (int32 (argvAddr + argNum * 4)) 4
    if wordAt argPtr 0 = 0#32 then return ([], k)
    else
      let (rest, k) ← readArgv env argvAddr n (argNum + 1) k
      return (wordAt argPtr 0 :: rest, k)

/-- The number of entries of `stack_argv`, and one less than those of `curr_argv`. -/
abbrev maxArgs : ℕ := 19

/-- The second loop: each string is copied below the others. The entries of `stack_argv` are those of
`stackArgv`. -/
def pushStrings (env : Outside) (thread : ℕ) :
    List (BitVec 32) → List Int → Int → Os → Call (List Int × Int × Os)
  | [], stackArgv, stackBase, k => .ok (stackArgv, stackBase, k)
  | arg :: rest, stackArgv, stackBase, k => do
    let (argStr, k) ← k.read env k.current arg.toInt 0
    let len ← strlen argStr bufferSize
    let stackBase := stackBase - (len + 1)
    if stackArgv.length < maxArgs then
      let k ← k.write env thread stackBase argStr len
      pushStrings env thread rest (stackArgv ++ [stackBase]) stackBase k
    else .error (.outOfBounds .buffer)

/-- The third loop, from argument `argNum` on: the pointers to the strings. -/
def pushPointers (env : Outside) (thread : ℕ) (stackBase : Int) : List Int → ℕ → Os → Call Os
  | [], _, k => .ok k
  | argPtrStr :: rest, argNum, k => do
    let k ← k.write env thread (stackBase + argNum * 4) (ofWords fun _ => BitVec.ofInt 32 argPtrStr) 4
    pushPointers env thread stackBase rest (argNum + 1) k

/-- `AddrSpace::createStackArgs`, for the space of `thread`. -/
def createStackArgs (env : Outside) (k : Os) (thread : ℕ) (argvAddr : Int) (name : Image) : Call Os := do
  let p ← k.getProcess thread
  let len ← strlen name bufferSize
  let stackBase := p.stackBase - (len + 1)
  let k ← k.write env thread stackBase name 0
  let (currArgv, k) ← readArgv env argvAddr maxArgs 0 k
  let argc := currArgv.length + 1
  -- `curr_argv[argc] = 0`
  if argc < maxArgs + 1 then
    let (stackArgv, stackBase, k) ← pushStrings env thread currArgv [stackBase] stackBase k
    let stackBase := stackBase - (argc * 4 + 4)
    let stackBase := stackBase - stackBase % 4
    let k ← pushPointers env thread stackBase stackArgv 0 k
    let k ← k.write env thread (stackBase + argc * 4) (ofWords fun _ => 0#32) 4
    let p ← k.getProcess thread
    return k.setProcess thread { p with argv := stackBase, argc := argc, stackBase := stackBase - 8 }
  else .error (.outOfBounds .buffer)

/-- The descriptors that every process begins with are those of the console. -/
def newOpenFiles (env : Outside) : Call FdList := do
  let openFiles ← FdList.new env.words env.oldFds 512
  let (_, openFiles) ← openFiles.fdPut none
  let (_, openFiles) ← openFiles.fdPut none
  return openFiles

theorem newOpenFiles_spec (env : Outside) :
    ∃ l, newOpenFiles env = .ok l ∧ l.size = 512 ∧
      l.list = Function.update (Function.update env.oldFds 0 none) 1 none ∧ ∀ i : Int, l.IsOpen i ↔ i = 0 ∨ i = 1 := by
  obtain ⟨map, hmap, hbits, hclear⟩ := @BitMap.new_spec env.words 512
  have hclosed : ∀ i : Int, ¬ (FdList.mk map env.oldFds).IsOpen i := by
    rintro i ⟨hi, hlt, hbit⟩
    have hlt' : i < map.numBits := hlt
    rw [hclear i.toNat (by omega)] at hbit
    cases hbit
  have hnew : FdList.new env.words env.oldFds 512 = .ok ⟨map, env.oldFds⟩ := by
    unfold FdList.new
    rw [show BitMap.new env.words 512 = .ok map from hmap, ok_bind, if_neg (by decide)]
    rfl
  have hsize : (FdList.mk map env.oldFds).size = 512 := hbits
  unfold newOpenFiles
  rw [hnew, ok_bind]
  rcases (FdList.mk map env.oldFds).fdPut_spec none (by rw [hsize]; decide) with
    ⟨-, hall⟩ | ⟨w, l₁, hput₁, -, hleast₁, hsize₁, hlist₁, hopen₁⟩
  · exact absurd (hall 0 (by omega) (by rw [hsize]; decide)) (hclosed 0)
  have hw : w = 0 := by
    by_contra hne
    exact hclosed 0 (hleast₁ 0 (by omega) (by omega))
  subst hw
  rw [hput₁, ok_bind]
  have hopen₁' : ∀ i : Int, l₁.IsOpen i ↔ i = 0 := fun i => (hopen₁ i).trans (or_iff_left (hclosed i))
  rcases l₁.fdPut_spec none (by rw [hsize₁, hsize]; decide) with
    ⟨-, hall⟩ | ⟨w, l₂, hput₂, hfree₂, hleast₂, hsize₂, hlist₂, hopen₂⟩
  · have h1 := (hopen₁' 1).mp (hall 1 (by omega) (by rw [hsize₁, hsize]; decide))
    cases h1
  have hw : w = 1 := by
    have hne : w ≠ 0 := by
      rintro rfl
      exact hfree₂ ((hopen₁' 0).mpr rfl)
    by_contra hne'
    have h1 := (hopen₁' 1).mp (hleast₂ 1 (by omega) (by omega))
    cases h1
  subst hw
  dsimp only
  rw [hput₂, ok_bind]
  refine ⟨l₂, rfl, by rw [hsize₂, hsize₁, hsize], by rw [hlist₂, hlist₁], fun i => ?_⟩
  rw [hopen₂, hopen₁', or_comm]
  rfl

/-- `new AddrSpace(name)`. -/
def newAddrSpace (env : Outside) (name : Image) : Call Process := do
  let len ← strlen name bufferSize
  let space ← AddrSpace.construct env.fs (env.junk 0) env.words ((List.range len).map name)
  let openFiles ← newOpenFiles env
  return ⟨space, openFiles, space.numPages * pageSize - 16, 0, 0⟩

/-- The body of the `try` in `Exec_Syscall_Func`. -/
def launch (env : Outside) (k : Os) (thread : ℕ) (fileName : Image) (args : Int) : Call Os := do
  let p ← newAddrSpace env fileName
  let k := k.setProcess thread p
  let k ← if args ≠ 0 then k.createStackArgs env thread args fileName else pure k
  return { k with readyList := k.readyList ++ [thread] }

/-- `Thread::getID`. -/
def getID (k : Os) (thread : ℕ) : Int :=
  match k.threads.parentRecord thread with
  | some r => (k.threads.records r).id
  | none => -1

def execSyscallFunc (env : Outside) (k : Os) (name args : Int) : Call (Int × Os) := do
  let (fileName, k) ← k.read env k.current name 0
  let threads ← k.threads.newThread env.newThread k.current
  let k := { k with threads := threads }
  match k.launch env env.newThread fileName args with
  | .ok k => return (k.getID env.newThread, k)
  -- `catch (int e)`
  | .error (.thrown _) => return (-1, k)
  | .error trap => .error trap

/-- `notifyParent` and `Finish` of the current thread. -/
def finish (k : Os) (status : Int) : Call Os := do
  let (threads, wakes) ← k.threads.notifyParent k.current status
  return { k with threads := { threads with threadToBeDestroyed := some k.current },
                  readyList := k.readyList ++ wakes }

/-- `Join_Syscall_Func`; no value where the caller has to wait for the child. -/
def joinSyscallFunc (k : Os) (cid : Int) : Call (Option Int × Os) := do
  let e ← k.threads.join k.current cid
  let value := if e.sleeps then none else e.obj.returns.getLast?.map JoinReturn.value
  return (value, { k with threads := e.obj })

/-! ## The handler -/

/-- How the call of the handler ends for the current thread. -/
inductive Outcome where
  | user (registers : Registers)
  | waiting
  | finished
  | halted

/-- A system call that has returned a value. -/
def reply (r : Registers) (sysRet : Int) : Outcome := .user (returnFromSyscall r (BitVec.ofInt 32 sysRet))

def serve (env : Outside) (k : Os) (r : Registers) : SysCall → Call (Outcome × Os)
  | .halt => .ok (.halted, k)
  | .exit => do
    let k ← k.finish (r 4).toInt
    return (.finished, k)
  | .exec => do
    let (sysRet, k) ← k.execSyscallFunc env (r 4).toInt (r 5).toInt
    return (reply r sysRet, k)
  | .join => do
    let (value, k) ← k.joinSyscallFunc (r 4).toInt
    return (match value with | some sysRet => reply r sysRet | none => .waiting, k)
  | .create => do
    let k ← k.createSyscallFunc env (r 4).toInt
    return (reply r 0, k)
  | .openFile => do
    let (sysRet, k) ← k.openSyscallFunc env (r 4).toInt
    return (reply r sysRet, k)
  | .read => do
    let (sysRet, k) ← k.readSyscallFunc env (r 4).toInt (r 5).toInt (r 6).toInt
    return (reply r sysRet, k)
  | .write => do
    let (sysRet, k) ← k.writeSyscallFunc env (r 4).toInt (r 5).toInt (r 6).toInt
    return (reply r sysRet, k)
  | .close => do
    let k ← k.closeSyscallFunc env (r 4).toInt
    return (reply r 0, k)

/-- The end of a process by a fault. -/
def kill (k : Os) : Call (Outcome × Os) := do
  let k ← k.finish (-1)
  return (.finished, k)

/-- `ExceptionHandler`. -/
def exceptionHandler (env : Outside) (k : Os) (r : Registers) : ExceptionType → Call (Outcome × Os)
  | .syscallException =>
    match SysCall.ofCode (r 2) with
    | some call => k.serve env r call
    | none => .error .assertFailed
  | .pageFaultException =>
    match k.process k.current with
    | none => k.kill
    | some p => do
      let (frame, space, m) ← env.loader k.memory p.space ((r badVAddrReg).toInt.tdiv pageSize)
      let k := { k with memory := m }.setProcess k.current { p with space := space }
      if frame = -1 then k.kill else return (.user r, k)
  | .addressErrorException | .overflowException | .readOnlyException => k.kill
  -- "Unsupported exception type"
  | .busErrorException | .illegalInstrException => .ok (.user r, k)

/-- The processor as it runs process `p`. -/
def cpu (k : Os) (p : Process) (r : Registers) : Cpu :=
  ⟨r, p.space.pageTable, p.space.numPages, k.memory.mainMemory⟩

/-- What the instruction leaves in memory and in the page table. -/
def store (k : Os) (p : Process) (s : Cpu) : Os :=
  { k with memory := { k.memory with mainMemory := s.mainMemory } }.setProcess k.current
    { p with space := { p.space with pageTable := s.pageTable } }

/-- `Machine::OneInstruction`, with the handler. -/
def cycle (env : Outside) (k : Os) (r : Registers) : Call (Outcome × Os) := do
  let p ← k.getProcess k.current
  match (k.cpu p r).oneInstruction.run with
  | .error trap => .error trap
  | .ok (.ok s) => .ok (.user s.registers, k.store p s)
  | .ok (.error x) => do
    let s ← Cpu.raiseException x
    (k.store p s).exceptionHandler env s.registers x.which

/-! ## The handler as the other threads see it -/

/-- The memory and the space of the current thread are those of the machine. -/
structure Agrees (k : Os) (w : World) : Prop where
  current : w.current = k.current
  memory : w.vm.memory = k.memory
  space : w.space = (k.process k.current).map Process.space

/-- What the end of the handler means for the current thread and its registers. -/
def Outcome.Matches (w : World) (r : Registers) : Outcome → Prop
  | .user registers => w.mode w.current = .user ∧ r = registers
  | .finished => w.mode w.current = .finished
  | .halted => w.halted = true
  | .waiting => False

variable {env : Outside} {k k' : Os} {w : World} {r : Registers} {o : Outcome}

theorem kill_eq_ok (h : k.kill = .ok (o, k')) : o = .finished := by
  obtain ⟨k, -, h⟩ := bind_eq_ok.mp h
  cases h
  rfl

/-- A service that comes back gives a value to `World.handle`. -/
theorem serve_refines {call : SysCall} (hcode : SysCall.ofCode (r 2) = some call)
    (hrun : k.serve env r call = .ok (o, k')) (hdone : o ≠ .waiting) :
    ∃ sysRet w' r', w.handle env.fs env.fuel sysRet r .syscallException = .ok (w', r') ∧ o.Matches w' r' := by
  have hreply : ∀ sysRet : Int, call ≠ .halt → call ≠ .exit → o = reply r sysRet →
      ∃ sysRet w' r', w.handle env.fs env.fuel sysRet r .syscallException = .ok (w', r') ∧ o.Matches w' r' := by
    rintro sysRet hhalt hexit rfl
    refine ⟨BitVec.ofInt 32 sysRet, w.enter .user, returnFromSyscall r (BitVec.ofInt 32 sysRet), ?_,
      World.enter_mode w .user, rfl⟩
    unfold World.handle
    rw [hcode]
    cases call with
    | halt => exact absurd rfl hhalt
    | exit => exact absurd rfl hexit
    | _ => rfl
  cases call with
  | halt =>
    cases hrun
    refine ⟨0#32, { w with halted := true }, r, ?_, rfl⟩
    unfold World.handle
    rw [hcode]
  | exit =>
    obtain ⟨k, -, hrun⟩ := bind_eq_ok.mp hrun
    cases hrun
    refine ⟨0#32, w.enter .finished, r, ?_, World.enter_mode w .finished⟩
    unfold World.handle
    rw [hcode]
  | join =>
    obtain ⟨⟨value, k⟩, -, hrun⟩ := bind_eq_ok.mp hrun
    cases hrun
    cases value with
    | none => exact absurd rfl hdone
    | some sysRet => exact hreply sysRet nofun nofun rfl
  | create | close =>
    obtain ⟨k, -, hrun⟩ := bind_eq_ok.mp hrun
    cases hrun
    exact hreply 0 nofun nofun rfl
  | exec | openFile | read | write =>
    obtain ⟨⟨sysRet, k⟩, -, hrun⟩ := bind_eq_ok.mp hrun
    cases hrun
    exact hreply sysRet nofun nofun rfl

/-- The handler does to the current thread what `World.handle` does for some value of the service. -/
theorem exceptionHandler_refines {which : ExceptionType} (h : k.Agrees w)
    (hrun : k.exceptionHandler env r which = .ok (o, k')) (hdone : o ≠ .waiting) :
    ∃ sysRet w' r', w.handle env.fs env.fuel sysRet r which = .ok (w', r') ∧ o.Matches w' r' := by
  cases which with
  | syscallException =>
    unfold exceptionHandler at hrun
    cases hcode : SysCall.ofCode (r 2) with
    | none =>
      rw [hcode] at hrun
      cases hrun
    | some call =>
      rw [hcode] at hrun
      exact serve_refines hcode hrun hdone
  | pageFaultException =>
    unfold exceptionHandler at hrun
    have hspace := h.space
    cases hp : k.process k.current with
    | none =>
      rw [hp] at hrun hspace
      rw [kill_eq_ok hrun]
      refine ⟨0#32, w.enter .finished, r, ?_, World.enter_mode w .finished⟩
      unfold World.handle
      rw [hspace]
      rfl
    | some p =>
      rw [hp] at hrun hspace
      obtain ⟨⟨frame, space, m⟩, hload, hrun⟩ := bind_eq_ok.mp hrun
      have hhandle : w.handle env.fs env.fuel 0#32 r .pageFaultException =
          .ok (World.enter { w with vm := w.vm.set w.current space m } (if frame = -1 then .finished else .user), r) := by
        have hload' : loadPage env.fs env.fuel w.vm.memory p.space ((r badVAddrReg).toInt.tdiv pageSize) =
            .ok (frame, space, m) := by
          rw [h.memory]
          exact hload
        unfold World.handle
        rw [hspace]
        dsimp only [Option.map_some]
        rw [hload', ok_bind]
        rfl
      refine ⟨0#32, _, r, hhandle, ?_⟩
      dsimp only at hrun
      split at hrun
      · next hframe =>
        rw [kill_eq_ok hrun, if_pos hframe]
        exact World.enter_mode _ _
      · next hframe =>
        cases hrun
        rw [if_neg hframe]
        exact ⟨World.enter_mode _ _, rfl⟩
  | addressErrorException | overflowException | readOnlyException =>
    rw [kill_eq_ok hrun]
    exact ⟨0#32, _, _, rfl, World.enter_mode w .finished⟩
  | busErrorException | illegalInstrException =>
    cases hrun
    exact ⟨0#32, _, _, rfl, World.enter_mode w .user, rfl⟩

end Os

end Nachos
