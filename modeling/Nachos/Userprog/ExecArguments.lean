import Nachos.Userprog.Syscall

/-! # The arguments of `Exec` (`createStackArgs` and `InitRegisters` of `addrspace.cc`, `createProcess`)

`Exec` lays out the strings and the vector below the top of the new stack and notes in the address space how
many there are, where they are and where the stack now ends. The new thread begins with `InitRegisters`, which
reads none of this. -/
set_option autoImplicit false

namespace Nachos
open Buffer Execution

/-- The registers with which the program of a new process executes its first instruction (`createProcess`). -/
def Process.firstRegisters (p : Process) : Registers := initRegisters p.space.numPages

/-- The number and the address of the arguments are in the first two argument registers, and the stack of the
program begins below them. -/
structure Process.Delivered (p : Process) : Prop where
  argc : (p.firstRegisters 4).toInt = p.argc
  argv : (p.firstRegisters 5).toInt = p.argv
  stack : (p.firstRegisters stackReg).toInt ≤ p.stackBase

theorem Process.firstRegisters_stack {p : Process} (h : p.space.Ok) :
    (p.firstRegisters stackReg).toInt = p.space.numPages * pageSize - 16 := by
  have hfits := h.fits
  simp only [numPhysPages] at hfits
  change (BitVec.ofInt 32 (p.space.numPages * pageSize - 16)).toInt = _
  rw [BitVec.toInt_ofInt_eq_self (by decide)]
  · simp only [pageSize, sectorSize]
    omega
  · simp only [pageSize, sectorSize]
    omega

/-! ## The layout of the new space -/

section Access
variable {fs : Programs} {fuel : ℕ} {m m' : Memory} {a a' : AddrSpace} {addr bytes : Int}

theorem set_ok (h : a.Ok) : ((⟨fun _ => none, m⟩ : Vm).set 0 a m').Ok ∧
    ((⟨fun _ => none, m⟩ : Vm).set 0 a m').HasPages 0 a.numPages := by
  refine ⟨fun i b hb => ?_, a, Vm.set_spaces _ _ _ _, rfl⟩
  rcases Vm.spaces_set_eq_some hb with ⟨-, rfl⟩ | ⟨-, hb⟩
  · exact h
  · cases hb

theorem of_set_ok {s : Vm} {n : ℕ} (h : (s.set 0 a m).Ok ∧ (s.set 0 a m).HasPages 0 n) : a.Ok ∧ a.numPages = n := by
  obtain ⟨b, hb, hn⟩ := h.2
  have hspace : (s.set 0 a m).spaces 0 = some a := Vm.set_spaces _ _ _ _
  rw [hspace] at hb
  cases hb
  exact ⟨h.1 0 a hspace, hn⟩

theorem read_numPages {buf : List UInt8} (h : a.Ok)
    (hread : a.read (loadPage fs fuel) m addr bytes = .ok (buf, a', m')) : a'.Ok ∧ a'.numPages = a.numPages :=
  of_set_ok (Vm.KeepsLoads.readFrom (keepsUsed_hasPages fs fuel 0 a.numPages).load _ _ (set_ok (m := m) h) hread)

theorem write_numPages {str : Image} (h : a.Ok)
    (hwrite : a.write (loadPage fs fuel) m addr str bytes = .ok (a', m')) : a'.Ok ∧ a'.numPages = a.numPages :=
  of_set_ok ((keepsUsed_hasPages fs fuel 0 a.numPages).writeFrom _ _ (set_ok (m := m) h) hwrite)

end Access

namespace Os

variable {env : Outside} {k k' : Os} {thread n : ℕ} {base : Int}

/-- The space of `thread` has `n` pages, and its stack ends at `base`. -/
def Layout (k : Os) (thread n : ℕ) (base : Int) : Prop :=
  ∃ p, k.process thread = some p ∧ p.space.Ok ∧ p.space.numPages = n ∧ p.stackBase = base

theorem Layout.setSpace (h : k.Layout thread n base) {t : ℕ} {p : Process} {space : AddrSpace} (m : Memory)
    (hp : k.process t = some p) (hspace : p.space.Ok → space.Ok ∧ space.numPages = p.space.numPages) :
    ({ k with memory := m }.setProcess t { p with space := space }).Layout thread n base := by
  obtain ⟨p', hp', hok, hn, hbase⟩ := h
  by_cases ht : thread = t
  · subst ht
    rw [hp] at hp'
    cases hp'
    exact ⟨_, Function.update_self _ _ _, (hspace hok).1, (hspace hok).2.trans hn, hbase⟩
  · exact ⟨p', (Function.update_of_ne ht _ _).trans hp', hok, hn, hbase⟩

theorem Layout.read (h : k.Layout thread n base) {t : ℕ} {addr bytes : Int} {buf : Image}
    (hread : k.read env t addr bytes = .ok (buf, k')) : k'.Layout thread n base := by
  obtain ⟨p, space, m, hp, ⟨chars, hrun⟩, rfl⟩ := read_eq_ok hread
  exact h.setSpace m hp fun hok => read_numPages hok hrun

theorem Layout.write (h : k.Layout thread n base) {t : ℕ} {addr bytes : Int} {str : Image}
    (hwrite : k.write env t addr str bytes = .ok k') : k'.Layout thread n base := by
  obtain ⟨p, space, m, hp, hrun, rfl⟩ := write_eq_ok hwrite
  exact h.setSpace m hp fun hok => write_numPages hok hrun

theorem Layout.readArgv (h : k.Layout thread n base) {argvAddr : Int} (rounds argNum : ℕ) {argv : List (BitVec 32)}
    (hread : Os.readArgv env argvAddr rounds argNum k = .ok (argv, k')) : k'.Layout thread n base := by
  induction rounds generalizing argNum k argv with
  | zero =>
    cases hread
    exact h
  | succ rounds ih =>
    obtain ⟨⟨argPtr, k₁⟩, hptr, hread⟩ := bind_eq_ok.mp hread
    have h₁ := h.read hptr
    dsimp only at hread
    split at hread
    · cases hread
      exact h₁
    · obtain ⟨⟨rest, k₂⟩, hrest, hread⟩ := bind_eq_ok.mp hread
      cases hread
      exact ih h₁ _ hrest

/-- The strings go below what was the end of the stack. -/
theorem Layout.pushStrings (h : k.Layout thread n base) {argv : List (BitVec 32)} {stackArgv stackArgv' : List Int}
    {top top' : Int} (hpush : Os.pushStrings env thread argv stackArgv top k = .ok (stackArgv', top', k')) :
    k'.Layout thread n base ∧ top' ≤ top := by
  induction argv generalizing stackArgv top k with
  | nil =>
    cases hpush
    exact ⟨h, Int.le_refl _⟩
  | cons arg rest ih =>
    obtain ⟨⟨argStr, k₁⟩, hread, hpush⟩ := bind_eq_ok.mp hpush
    obtain ⟨len, -, hpush⟩ := bind_eq_ok.mp hpush
    dsimp only at hpush
    split at hpush
    · obtain ⟨k₂, hwrite, hpush⟩ := bind_eq_ok.mp hpush
      obtain ⟨hlayout, hle⟩ := ih ((h.read hread).write hwrite) hpush
      exact ⟨hlayout, by omega⟩
    · cases hpush

theorem Layout.pushPointers (h : k.Layout thread n base) {top : Int} {stackArgv : List Int} (argNum : ℕ)
    (hpush : Os.pushPointers env thread top stackArgv argNum k = .ok k') : k'.Layout thread n base := by
  induction stackArgv generalizing argNum k with
  | nil =>
    cases hpush
    exact h
  | cons ptr rest ih =>
    obtain ⟨k₁, hwrite, hpush⟩ := bind_eq_ok.mp hpush
    exact ih (h.write hwrite) _ hpush

/-- `createStackArgs` counts the name of the program, and lowers the end of the stack. -/
theorem Layout.createStackArgs (h : k.Layout thread n base) {argvAddr : Int} {name : Image}
    (hargs : k.createStackArgs env thread argvAddr name = .ok k') :
    ∃ p, k'.process thread = some p ∧ p.space.Ok ∧ p.space.numPages = n ∧ 1 ≤ p.argc ∧ p.stackBase < base := by
  obtain ⟨p, hp, hargs⟩ := bind_eq_ok.mp hargs
  have hbase : p.stackBase = base := by
    obtain ⟨p', hp', -, -, hbase⟩ := h
    rw [getProcess_eq_ok hp] at hp'
    cases hp'
    exact hbase
  obtain ⟨len, -, hargs⟩ := bind_eq_ok.mp hargs
  obtain ⟨k₁, hwrite, hargs⟩ := bind_eq_ok.mp hargs
  obtain ⟨⟨currArgv, k₂⟩, hread, hargs⟩ := bind_eq_ok.mp hargs
  have h₂ := (h.write hwrite).readArgv _ _ hread
  dsimp only at hargs
  split at hargs
  · obtain ⟨⟨stackArgv, top, k₃⟩, hstrings, hargs⟩ := bind_eq_ok.mp hargs
    obtain ⟨h₃, hle⟩ := h₂.pushStrings hstrings
    obtain ⟨k₄, hpointers, hargs⟩ := bind_eq_ok.mp hargs
    obtain ⟨k₅, hnull, hargs⟩ := bind_eq_ok.mp hargs
    obtain ⟨q, hq, hok, hpages, -⟩ := (h₃.pushPointers _ hpointers).write hnull
    obtain ⟨q', hq', hargs⟩ := bind_eq_ok.mp hargs
    cases hargs
    have heq : q' = q := by
      have hprocess := getProcess_eq_ok hq'
      rw [hq] at hprocess
      exact (Option.some.inj hprocess).symm
    refine ⟨_, Function.update_self _ _ _, ?_, ?_, ?_, ?_⟩
    · rw [heq]
      exact hok
    · rw [heq]
      exact hpages
    · dsimp only
      omega
    · dsimp only
      omega
  · cases hargs

theorem newAddrSpace_layout {name : Image} {p : Process} (h : newAddrSpace env name = .ok p) :
    p.space.Ok ∧ p.stackBase = p.space.numPages * pageSize - 16 ∧ p.argc = 0 ∧ p.argv = 0 := by
  obtain ⟨len, -, h⟩ := bind_eq_ok.mp h
  obtain ⟨space, hspace, h⟩ := bind_eq_ok.mp h
  obtain ⟨openFiles, -, h⟩ := bind_eq_ok.mp h
  cases h
  exact ⟨(construct_eq_ok hspace).1, rfl, rfl, rfl⟩

theorem launch_delivers {fileName : Image} {args : Int} (h : k.launch env thread fileName args = .ok k') :
    ∃ p, k'.process thread = some p ∧ (p.Delivered ↔ args = 0) ∧
      (args ≠ 0 → (p.firstRegisters 4).toInt < p.argc ∧ p.stackBase < (p.firstRegisters stackReg).toInt) := by
  obtain ⟨p, hp, h⟩ := bind_eq_ok.mp h
  obtain ⟨hok, hbase, hargc, hargv⟩ := newAddrSpace_layout hp
  dsimp only at h
  by_cases hzero : args = 0
  · rw [if_neg (not_not.mpr hzero)] at h
    cases h
    refine ⟨p, Function.update_self _ _ _, iff_of_true ⟨?_, ?_, ?_⟩ hzero, fun h => absurd hzero h⟩
    · rw [hargc]
      rfl
    · rw [hargv]
      rfl
    · rw [Process.firstRegisters_stack hok, hbase]
  · rw [if_pos hzero] at h
    obtain ⟨k₁, hargs, h⟩ := bind_eq_ok.mp h
    cases h
    have hlayout : (k.setProcess thread p).Layout thread p.space.numPages p.stackBase :=
      ⟨p, Function.update_self _ _ _, hok, rfl, rfl⟩
    obtain ⟨q, hq, hqok, hqpages, hqargc, hqbase⟩ := hlayout.createStackArgs hargs
    have hfour : (q.firstRegisters 4).toInt < q.argc := by
      change (0 : Int) < q.argc
      omega
    refine ⟨q, hq, iff_of_false (fun h => ?_) hzero, fun _ => ⟨hfour, ?_⟩⟩
    · exact absurd h.argc (Int.ne_of_lt hfour)
    · rw [Process.firstRegisters_stack hqok, hqpages, ← hbase]
      exact hqbase

/-- The process that `Exec` makes finds its arguments only if it has none. -/
theorem exec_delivers_iff {name args : Int} {fileName : Image} {k₁ : Os} {threads : Processes ℕ}
    (hread : k.read env k.current name 0 = .ok (fileName, k₁))
    (hthread : k₁.threads.newThread env.newThread k₁.current = .ok threads)
    (hlaunch : { k₁ with threads := threads }.launch env env.newThread fileName args = .ok k') :
    k.execSyscallFunc env name args = .ok (k'.getID env.newThread, k') ∧
    ∃ p, k'.process env.newThread = some p ∧ (p.Delivered ↔ args = 0) ∧
      (args ≠ 0 → (p.firstRegisters 4).toInt < p.argc ∧ p.stackBase < (p.firstRegisters stackReg).toInt) := by
  refine ⟨?_, launch_delivers hlaunch⟩
  unfold execSyscallFunc
  rw [hread, ok_bind]
  dsimp only
  rw [hthread, ok_bind, hlaunch]
  rfl

/-! ## A call with one argument -/

/-- At address 0 the name `c`, at 4 the vector, and at 12 its only string, `x`. -/
def callerMemory : Memory :=
  ⟨fun i => if i = 0 then 1 else 0, ⟨numSectors, fun _ => 0#32⟩,
    ofBytes [99, 0, 0, 0, 12, 0, 0, 0, 0, 0, 0, 0, 120, 0], fun _ _ => 0⟩

def callerSpace : AddrSpace :=
  ⟨TranslationEntry.identity, 1, [], ⟨noffMagic, ⟨0, 0, 0⟩, ⟨0, 0, 0⟩, ⟨0, 0, 0⟩⟩, ⟨1, fun _ => 0#32⟩, fun _ => -1, 0⟩

def caller : Os where
  memory := callerMemory
  fileSystem := ⟨⟨⟨0, 0, fun _ => 0⟩, 0⟩, ⟨⟨0, 0, fun _ => 0⟩, 0⟩⟩
  files _ := none
  process t := if t = 0 then some ⟨callerSpace, ⟨⟨512, fun _ => 0#32⟩, fun _ => none⟩, 112, 0, 0⟩ else none
  threads := ⟨fun _ => ChildThread.new 0 0 0, 0, fun _ => none, fun _ => none, 0, none, fun t => t = 0, [], []⟩
  readyList := []
  current := 0
  output := []

/-- An executable without code or data. -/
def emptyProgram : Executable := ⟨[0xad, 0xdf, 0xba, 0] ++ List.replicate 36 0, by decide⟩

def callerOutside : Outside :=
  ⟨fun _ => some emptyProgram, 0, fun _ _ => 0, fun _ => none, none, 0, 1, memorySize, le_rfl⟩

/-- The name as read, the thread for the program, and the state in which the call returns. -/
def callerName : Image × Os := valueOr (ofBytes [], caller) (caller.read callerOutside 0 0 0)

def callerThreads : Processes ℕ := valueOr caller.threads (callerName.2.threads.newThread 1 callerName.2.current)

def called : Os :=
  valueOr caller ({ callerName.2 with threads := callerThreads }.launch callerOutside 1 callerName.1 4)

theorem caller_read : caller.read callerOutside caller.current 0 0 = .ok (callerName.1, callerName.2) :=
  eq_ok_valueOr (ofBytes [], caller) (by decide +kernel)

theorem caller_newThread :
    callerName.2.threads.newThread callerOutside.newThread callerName.2.current = .ok callerThreads :=
  eq_ok_valueOr caller.threads (by decide +kernel)

theorem caller_launch : { callerName.2 with threads := callerThreads }.launch callerOutside callerOutside.newThread
    callerName.1 4 = .ok called :=
  eq_ok_valueOr caller (by decide +kernel)

theorem exec_delivers_iff_called : caller.execSyscallFunc callerOutside 0 4 =
      .ok (called.getID callerOutside.newThread, called) ∧
    ∃ p, called.process callerOutside.newThread = some p ∧ (p.Delivered ↔ (4 : Int) = 0) ∧
      ((4 : Int) ≠ 0 → (p.firstRegisters 4).toInt < p.argc ∧ p.stackBase < (p.firstRegisters stackReg).toInt) :=
  exec_delivers_iff caller_read caller_newThread caller_launch

/-- Two arguments are recorded, their vector at 992 and a stack from 984 down, but the program begins with none and
with its stack at 1008. -/
theorem exec_loses_arguments : ∃ k' p, caller.execSyscallFunc callerOutside 0 4 = .ok (0, k') ∧
    k'.process 1 = some p ∧ p.argc = 2 ∧ p.argv = 992 ∧ p.stackBase = 984 ∧
    (p.firstRegisters 4).toInt = 0 ∧ (p.firstRegisters 5).toInt = 0 ∧ (p.firstRegisters stackReg).toInt = 1008 := by
  have hok : (caller.execSyscallFunc callerOutside 0 4).isOk = true := by decide +kernel
  have hid : (valueOr (0, caller) (caller.execSyscallFunc callerOutside 0 4)).1 = 0 := by decide +kernel
  have hvalues : ((valueOr (0, caller) (caller.execSyscallFunc callerOutside 0 4)).2.process 1).map
      (fun p => (p.argc, p.argv, p.stackBase, (p.firstRegisters 4).toInt, (p.firstRegisters 5).toInt,
        (p.firstRegisters stackReg).toInt)) = some (2, 992, 984, 0, 0, 1008) := by decide +kernel
  have hcall := eq_ok_valueOr (0, caller) hok
  generalize valueOr (0, caller) (caller.execSyscallFunc callerOutside 0 4) = result at hcall hid hvalues
  obtain ⟨id, k'⟩ := result
  subst hid
  obtain ⟨p, hp, hvalues⟩ := Option.map_eq_some_iff.mp hvalues
  simp only [Prod.mk.injEq] at hvalues
  exact ⟨k', p, hcall, hp, hvalues⟩

end Os

end Nachos
