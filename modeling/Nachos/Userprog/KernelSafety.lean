import Nachos.Filesys.FileSysRun
import Nachos.Machine.Requests
import Nachos.Userprog.JoinRun
import Nachos.Userprog.PageContracts
import Nachos.Userprog.StackArgs

/-! # Which instructions bring the kernel down

A cycle of a user program returns to it, ends it or halts the machine unless it traps the host. `Os.Guarded` says for
which instruction and which registers neither the processor nor the dispatch of system calls traps, and no other cycle
returns. `Os.Ready` says what a page fault or a system call has to find before the instruction: the bytes of user memory
that must be mapped, the disk, the open files, and the lengths of strings and transfers. -/
set_option autoImplicit false

namespace Nachos
open Buffer Execution Raising Uniprocessor

namespace Os

/-! ## What a service needs -/

/-- The `size` bytes at an address of the caller are mapped. -/
structure HasBuffer (env : Outside) (k : Os) (addr size : Int) : Prop where
  sound : k.vm.Sound
  nonneg : 0 ≤ addr
  mapped : k.MappedBuffer env addr.toNat size.toNat

/-- The caller has the string `s` at an address, on mapped pages; `AddrSpace::read` finds its end. -/
structure HasString (env : Outside) (k : Os) (addr : Int) (s : List UInt8) : Prop where
  buffer : k.HasBuffer env addr (s.length + 1 : ℕ)
  holds : HoldsString (k.userByte env k.current) addr.toNat s
  chars : 0 ∉ s
  short : s.length < bufferSize

/-- Descriptor `fd` is not open, or leads to a file with property `P`. -/
def FileReady (k : Os) (fd : Int) (P : OpenFile → Prop) : Prop :=
  ∀ p f, k.process k.current = some p → p.openFiles.entry fd = some f → ∃ file, k.files f = some file ∧ P file

/-- What a service needs of the state that it is called in. Where the file of an `Exec` exists, the constructor of
`AddrSpace` copies the name into a buffer that is one byte too short for it. -/
def Serves (env : Outside) (k : Os) (r : Registers) : SysCall → Prop
  | .halt | .exit | .join => True
  | .create | .openFile => (∃ s, k.HasString env (r 4).toInt s) ∧ DiskOk k.memory.disk ∧
      Mounted k.fileSystem k.memory.disk
  | .write => (r 6).toInt ≤ consoleInput ∨ (r 5).toInt ≤ 0 ∨ k.HasBuffer env (r 4).toInt (r 5).toInt ∧
      ((r 6).toInt = consoleOutput → (r 5).toInt ≤ bufferSize) ∧
      ((r 6).toInt ≠ consoleOutput → k.FileReady (r 6).toInt fun file =>
        file.Valid ∧ file.accepted (r 5).toInt.toNat ≤ bufferSize)
  | .read => (r 5).toInt ≤ 0 ∨ (r 6).toInt < 0 ∨ (r 5).toInt ≤ env.heap ∧
      ((r 6).toInt = consoleInput → k.HasBuffer env (r 4).toInt (r 5).toInt ∧
        ∃ word, env.typed = some word ∧ word.length < (r 5).toInt) ∧
      (consoleOutput < (r 6).toInt → k.FileReady (r 6).toInt fun file =>
        file.Valid ∧ k.HasBuffer env (r 4).toInt (r 5).toInt)
  | .close => (r 4).toInt < 0 ∨ ∀ p f, k.process k.current = some p →
      (if p.openFiles.IsOpen (r 4).toInt then p.openFiles.list (r 4).toInt.toNat else env.oldFds 0) = some f →
        k.files f ≠ none
  | .exec => (∃ s, k.HasString env (r 4).toInt s ∧ env.fs s = none) ∧ k.threads.globalID ≠ intMax

/-- What the handler needs for an exception: a known system call that can be served, or a page that can be loaded. -/
def Handles (env : Outside) (k : Os) (r : Registers) : ExceptionType → Prop
  | .syscallException => ∃ call, SysCall.ofCode (r 2) = some call ∧ k.Serves env r call
  | .pageFaultException => k.vm.Sound ∧
      k.vm.Mapped env.fs {(k.current, ((r badVAddrReg).toInt.tdiv pageSize).toNat)}
  | _ => True

/-- The table of the threads is one that occurs in a run, while the current thread is in its program. -/
def Reached (k : Os) : Prop :=
  ∃ s : ProcState ℕ, s.Reached ∧
    s.current = k.current ∧ s.obj = k.threads ∧ s.pc s.current = .user

variable {env : Outside} {k : Os} {p : Process} {r : Registers} {addr size fd : Int}

/-! ## The services -/

theorem Reached.join (h : k.Reached) (cid : Int) : Returns (k.threads.join k.current cid) := by
  obtain ⟨s, hs, hcur, hobj, hpc⟩ := h
  obtain ⟨-, ring, hinv⟩ := processProgram_stable.run (fun _ h => procStart_inv h) hs
  rw [← hcur, ← hobj]
  rcases hinv.join_sect hpc cid with ⟨r, -, -, hrun⟩ | ⟨-, hrun⟩ <;> exact ⟨_, hrun⟩

/-- The semaphore that `notifyParent` raises has not been raised before. -/
theorem Reached.finish (h : k.Reached) (status : Int) : Returns (k.finish status) := by
  obtain ⟨s, hs, hcur, hobj, hpc⟩ := h
  obtain ⟨-, ring, hinv⟩ := processProgram_stable.run (fun _ h => procStart_inv h) hs
  have hnotify : Returns (k.threads.notifyParent k.current status) := by
    rw [← hcur, ← hobj]
    unfold Processes.notifyParent
    dsimp only
    cases hparent : s.obj.parentRecord s.current with
    | none => exact ⟨_, rfl⟩
    | some r =>
      obtain ⟨hzero, hunits⟩ := hinv.value s.current r hparent
      have hexits := hinv.exits s.current
      rw [hpc] at hexits
      have hvalue : (s.obj.records r).joinSem.value ≠ intMax := by
        have hnone : s.obj.exitCount s.current = 0 := hexits
        simp only [intMax]
        omega
      unfold Semaphore.v
      dsimp only
      rw [if_neg hvalue]
      exact ⟨_, rfl⟩
  obtain ⟨⟨threads, wakes⟩, hrun⟩ := hnotify
  unfold Os.finish
  rw [hrun]
  exact ⟨_, rfl⟩

theorem Reached.kill (h : k.Reached) : Returns k.kill := by
  obtain ⟨k', hrun⟩ := h.finish (-1)
  unfold Os.kill
  rw [hrun]
  exact ⟨_, rfl⟩

/-- The name is read, and nothing but the memory and the space of the caller changes. -/
theorem HasString.read {s : List UInt8} (h : k.HasString env addr s) :
    ∃ k' p', k.read env k.current addr 0 = .ok (ofBytes s, k') ∧ k'.current = k.current ∧
      k'.fileSystem = k.fileSystem ∧ k'.memory.disk = k.memory.disk ∧ k'.threads = k.threads ∧
      k'.process k.current = some p' := by
  obtain ⟨x, rfl⟩ := Int.eq_ofNat_of_zero_le h.buffer.nonneg
  have hmapped := h.buffer.mapped
  have hholds := h.holds
  rw [Int.toNat_natCast] at hmapped hholds
  rw [Int.toNat_natCast] at hmapped
  have hstands : k.vm.Stands env.fs (bufferPages k.current x (s.length + 1)) (k.vm.user env.fs) :=
    ⟨h.buffer.sound, hmapped, rfl⟩
  obtain ⟨p, space, m, -, hread, -, hdisk⟩ := read_string hstands
    ⟨hholds, h.chars, h.short, fun j hj => mem_bufferPages k.current x (by omega)⟩
  exact ⟨_, _, hread, rfl, rfl, hdisk, rfl, Function.update_self _ _ _⟩

/-- The word that is typed and its zero byte are in the buffer. -/
theorem scanf_terminated {word : List UInt8} {n : ℕ} (htyped : env.typed = some word) (hword : word.length < n) :
    ∃ buf, scanf env n = .ok buf ∧ Returns (strlen buf n) := by
  refine ⟨Nachos.store (env.junk 0) 0 (word ++ [0]), ?_, ?_⟩
  · unfold scanf
    rw [htyped]
    exact if_pos (by omega)
  · have hzero : Nachos.store (env.junk 0) 0 (word ++ [0]) word.length = 0 := by
      simp [Nachos.store, copy]
    unfold strlen
    cases hfind : (List.range n).find? fun i => Nachos.store (env.junk 0) 0 (word ++ [0]) i == 0 with
    | some len => exact returns_ok _
    | none =>
      have hbyte := List.find?_eq_none.mp hfind word.length (List.mem_range.mpr hword)
      simp [hzero] at hbyte

theorem read_returns (hp : k.process k.current = some p)
    (h : size ≤ 0 ∨ fd < 0 ∨ size ≤ env.heap ∧
      (fd = consoleInput → k.HasBuffer env addr size ∧ ∃ word, env.typed = some word ∧ word.length < size) ∧
      (consoleOutput < fd → k.FileReady fd fun file => file.Valid ∧ k.HasBuffer env addr size)) :
    Returns (k.readSyscallFunc env addr size fd) := by
  by_cases hearly : size ≤ 0 ∨ fd < 0
  · unfold readSyscallFunc
    split_ifs <;> first | exact returns_ok _ | omega
  rw [← or_assoc] at h
  obtain ⟨hheap, hconsole, hfile⟩ := h.resolve_left hearly
  simp only [consoleInput, consoleOutput, not_or] at hearly hconsole hfile
  obtain ⟨n, rfl⟩ := Int.eq_ofNat_of_zero_le (show 0 ≤ size by omega)
  have hsize : 0 < n := by omega
  by_cases hin : fd = 0
  · obtain ⟨hbuffer, word, htyped, hword⟩ := hconsole hin
    obtain ⟨x, rfl⟩ := Int.eq_ofNat_of_zero_le hbuffer.nonneg
    have hword' : word.length < n := by omega
    obtain ⟨buf, hscan, len, hlen⟩ := scanf_terminated htyped hword'
    have hstands : k.vm.Stands env.fs (bufferPages k.current x n) (k.vm.user env.fs) :=
      ⟨hbuffer.sound, hbuffer.mapped, rfl⟩
    obtain ⟨space, m, hwrite, -⟩ := write_mapped hstands hp x buf n fun j hj => by
      rw [readBytes_sized _ _ hsize, List.length_map, List.length_range] at hj
      exact mem_bufferPages k.current x (by omega)
    unfold readSyscallFunc
    rw [if_neg (by omega), if_neg (by omega), if_neg (by omega), if_neg (by omega),
      if_neg (by simp only [consoleOutput]; omega), if_pos hin, hscan, ok_bind, hwrite, ok_bind, Int.toNat_natCast, hlen]
    exact returns_ok _
  cases hentry : p.openFiles.entry fd with
  | none =>
    unfold readSyscallFunc
    rw [if_neg (by omega), if_neg (by omega), if_neg (by omega), if_neg (by omega)]
    split
    · exact returns_ok _
    · rw [getProcess_eq hp, ok_bind, FdList.fdGet_eq, ok_bind, hentry]
      exact returns_ok _
  | some f =>
    by_cases hout : fd = consoleOutput
    · unfold readSyscallFunc
      rw [if_neg (by omega), if_neg (by omega), if_neg (by omega), if_neg (by omega), if_pos hout]
      exact returns_ok _
    · have hfd : 2 ≤ fd := by
        clear hconsole hfile
        simp only [consoleOutput] at hout
        omega
      obtain ⟨file, hopened, hvalid, hbuffer⟩ := hfile hfd p f hp hentry
      obtain ⟨x, rfl⟩ := Int.eq_ofNat_of_zero_le hbuffer.nonneg
      obtain ⟨k', hrun, -⟩ := readSyscallFunc_eq hbuffer.sound hbuffer.mapped hsize
        ⟨hfd, ⟨p, hp, hentry⟩, hopened, hvalid⟩
      exact ⟨_, hrun⟩

section Store
variable {s : Cpu} (hp : k.process k.current = some p) (hs : (k.cpu p r).SameMemory s)
include hp hs

theorem store_stands {pages : Finset (ℕ × ℕ)} {flat : Flat} (h : k.vm.Stands env.fs pages flat) :
    (k.store p s).vm.Stands env.fs pages flat := by
  have hmemory : ({ k.memory with mainMemory := s.mainMemory } : Memory) = k.vm.memory := by
    rw [hs.memory]
    rfl
  unfold store
  rw [vm_setSpace, hmemory]
  exact h.bits (vm_space hp) hs.table

omit hp hs in
theorem store_process : (k.store p s).process (k.store p s).current =
    some { p with space := { p.space with pageTable := s.pageTable } } := Function.update_self k.current _ _

theorem HasBuffer.store (h : k.HasBuffer env addr size) : (k.store p s).HasBuffer env addr size := by
  have hstands := store_stands hp hs ⟨h.sound, h.mapped, rfl⟩
  exact ⟨hstands.sound, h.nonneg, hstands.mapped⟩

theorem HasString.store {name : List UInt8} (h : k.HasString env addr name) : (k.store p s).HasString env addr name := by
  have huser := (store_stands hp hs ⟨h.buffer.sound, h.buffer.mapped, rfl⟩).user
  refine ⟨h.buffer.store hp hs, ?_, h.chars, h.short⟩
  unfold userByte
  rw [huser]
  exact h.holds

omit hs in
theorem FileReady.store {P Q : OpenFile → Prop} (h : k.FileReady fd P) (hPQ : ∀ file, P file → Q file) :
    (k.store p s).FileReady fd Q := by
  intro p' f hp' hentry
  rw [store_process] at hp'
  cases hp'
  obtain ⟨file, hopened, hP⟩ := h p f hp hentry
  exact ⟨file, hopened, hPQ file hP⟩

theorem Serves.store {r' : Registers} {call : SysCall} (h : k.Serves env r' call) :
    (k.store p s).Serves env r' call := by
  cases call with
  | halt | exit | join => trivial
  | create | openFile =>
    obtain ⟨⟨name, hname⟩, hdisk⟩ := h
    exact ⟨⟨name, hname.store hp hs⟩, hdisk⟩
  | write =>
    refine h.imp_right (Or.imp_right ?_)
    rintro ⟨hbuffer, hconsole, hfile⟩
    exact ⟨hbuffer.store hp hs, hconsole, fun hout => (hfile hout).store hp fun _ hfile => hfile⟩
  | read =>
    refine h.imp_right (Or.imp_right ?_)
    rintro ⟨hheap, hconsole, hfile⟩
    refine ⟨hheap, fun hin => ?_, fun hout => (hfile hout).store hp ?_⟩
    · exact ⟨(hconsole hin).1.store hp hs, (hconsole hin).2⟩
    · exact fun _ hfile => ⟨hfile.1, hfile.2.store hp hs⟩
  | close =>
    refine Or.imp_right (fun hclose p' f hp' hf => ?_) h
    rw [store_process] at hp'
    cases hp'
    exact hclose p f hp hf
  | exec =>
    obtain ⟨⟨name, hname, hnone⟩, hid⟩ := h
    exact ⟨⟨name, hname.store hp hs, hnone⟩, hid⟩

theorem Handles.store {r' : Registers} {which : ExceptionType} (h : k.Handles env r' which) :
    (k.store p s).Handles env r' which := by
  cases which with
  | syscallException =>
    obtain ⟨call, hcode, hserves⟩ := h
    exact ⟨call, hcode, hserves.store hp hs⟩
  | pageFaultException =>
    have hstands := store_stands hp hs ⟨h.1, h.2, rfl⟩
    exact ⟨hstands.sound, hstands.mapped⟩
  | _ => trivial

end Store

end Os

/-! ## The cycle -/

/-- The registers at the entry into the handler: the pending load is done. -/
def entryRegisters (r : Registers) (badVAddr : BitVec 32) : Registers :=
  loaded (Function.update r badVAddrReg badVAddr) (r loadReg).toNat 0#32 0#32

namespace Cpu

/-- The processor at the entry into the handler. -/
def entered (s : Cpu) (badVAddr : BitVec 32) : Cpu := { s with registers := entryRegisters s.registers badVAddr }

end Cpu

namespace Os

variable {env : Outside} {k : Os} {p : Process} {r : Registers}

/-- The pending load goes to a register, the instruction has a guard against every trap, and a system call has a
branch in the handler. -/
structure Guarded (k : Os) (p : Process) (r : Registers) : Prop where
  load : (r loadReg).toNat < numTotalRegs
  execute : ∀ instr s, (k.cpu p r).fetch = pure (instr, s) → ¬ s.Unguarded instr
  code : ∀ instr s, (k.cpu p r).fetch = pure (instr, s) → instr.opCode = .syscall →
    SysCall.ofCode (entryRegisters r 0#32 2) ≠ none

/-- The cycle does not trap, and the handler returns where it is called. -/
structure Completes (env : Outside) (k : Os) (p : Process) (r : Registers) : Prop where
  load : (r loadReg).toNat < numTotalRegs
  fetch : (k.cpu p r).absent (r pcReg) 4 → Returns ((k.store p (k.cpu p r)).exceptionHandler env
    (entryRegisters r (r pcReg)) .pageFaultException)
  execute : ∀ instr s, (k.cpu p r).fetch = pure (instr, s) → ¬ s.Unguarded instr ∧
    ∀ which addr, s.request instr = some (which, addr) →
      Returns ((k.store p s).exceptionHandler env (entryRegisters r addr) which)

theorem Completes.guarded (h : k.Completes env p r) : k.Guarded p r := by
  refine ⟨h.load, fun instr s hfetch => (h.execute instr s hfetch).1, fun instr s hfetch hop hnone => ?_⟩
  have hreturns := (h.execute instr s hfetch).2 .syscallException 0#32 (if_pos hop)
  unfold exceptionHandler at hreturns
  rw [hnone] at hreturns
  exact not_returns_error _ hreturns

/-- Each page is in the frame of its number. -/
def filled : Process where
  space := ⟨TranslationEntry.identity, 32, [], blankHeader, ⟨32, fun _ => 0#32⟩, fun _ => -1, 0⟩
  openFiles := ⟨⟨512, fun _ => 0#32⟩, fun _ => none⟩
  stackBase := 4080
  argc := 0
  argv := 0

def running (word : BitVec 32) : Os where
  memory := ⟨fun _ => 1, ⟨numSectors, fun _ => 0#32⟩, ofWords fun _ => word, fun _ _ => 0⟩
  fileSystem := ⟨⟨⟨0, 0, fun _ => 0⟩, 0⟩, ⟨⟨0, 0, fun _ => 0⟩, 0⟩⟩
  files _ := none
  process t := if t = 0 then some filled else none
  threads := ⟨fun _ => ChildThread.new 0 0 0, 0, fun _ => none, fun _ => none, 0, none, fun t => t = 0, [], []⟩
  readyList := []
  current := 0
  output := []

end Os

end Nachos
