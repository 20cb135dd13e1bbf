import Nachos.Machine.MipsSim
import Nachos.Userprog.Lifetime

/-! # Kernel entry and return (`userprog/exception.cc`)

A thread is in user mode, in the exception handler, or before or after its user program. `World.cycle` is
one instruction of the machine together with the kernel entry it may make, `World.handle` the end of
`ExceptionHandler`. The services of the system calls work on address spaces before that, in steps of their
own (`World.Works`), and touch no register: `sysRet` is what a service has returned. -/
set_option autoImplicit false

namespace Nachos
open Buffer Execution

variable {i : ℕ} {r r' : Registers} {a : AddrSpace} {which : ExceptionType} {op : LifeOp}

/-! ## System calls -/

/-- The system calls that the handler knows. -/
inductive SysCall where
  | halt
  | exit
  | exec
  | join
  | create
  | openFile
  | read
  | write
  | close
  deriving DecidableEq, Repr

/-- The codes of `syscall.h`; `SC_Fork` and `SC_Yield` have no branch in the handler. -/
def SysCall.ofCode (type : BitVec 32) : Option SysCall :=
  match type.toNat with
  | 0 => some .halt
  | 1 => some .exit
  | 2 => some .exec
  | 3 => some .join
  | 4 => some .create
  | 5 => some .openFile
  | 6 => some .read
  | 7 => some .write
  | 8 => some .close
  | _ => none

/-- The result goes to `r2`, and the program counters advance past the instruction. -/
def returnFromSyscall (r : Registers) (sysRet : BitVec 32) : Registers :=
  let r := Function.update r 2 sysRet
  let r := Function.update r prevPCReg (r pcReg)
  let r := Function.update r pcReg (r nextPCReg)
  Function.update r nextPCReg (r pcReg + 4#32)

abbrev stackReg : ℕ := 29

/-- `AddrSpace::InitRegisters`. -/
def initRegisters (numPages : ℕ) : Registers :=
  let r : Registers := fun _ => 0#32
  let r := Function.update r pcReg 0#32
  let r := Function.update r nextPCReg 4#32
  Function.update r stackReg (BitVec.ofInt 32 (numPages * pageSize - 16))

/-! ## Threads -/

/-- What a thread does. A thread in the handler carries the exception with the address and the next
program counter at the time it was raised. -/
inductive Mode where
  /-- It has not run yet; its first switch goes to `ThreadRoot`. -/
  | fresh
  /-- It has not come to `InitRegisters` yet. -/
  | starting
  /-- It is between `InitRegisters` and `Run`. -/
  | loaded
  | user
  | handling (which : ExceptionType) (badVAddr nextPC : BitVec 32)
  /-- It is in `Finish`, from which it does not return. -/
  | finished
  deriving DecidableEq

/-- The machine without its registers, as all threads see it. -/
structure World where
  current : ℕ
  mode : ℕ → Mode
  vm : Vm
  halted : Bool

variable {w w' : World}

namespace World

def space (w : World) : Option AddrSpace := w.vm.spaces w.current

/-- The current thread goes on in another mode. -/
def enter (w : World) (m : Mode) : World := { w with mode := Function.update w.mode w.current m }

/-- What an instruction that goes through the page table of space `i` leaves. -/
def store (w : World) (i : ℕ) (a : AddrSpace) (s : Cpu) : World :=
  { w with vm := w.vm.set i { a with pageTable := s.pageTable } { w.vm.memory with mainMemory := s.mainMemory } }

/-- `Machine::OneInstruction` on registers `r`, through the page table of space `i`. -/
def cycle (w : World) (r : Registers) (i size : ℕ) : Call (World × Registers) :=
  match w.vm.spaces i with
  | none => .error (.outOfBounds .pageTable)
  | some a =>
    match (Cpu.mk r a.pageTable size w.vm.memory.mainMemory).oneInstruction.run with
    | .error trap => .error trap
    | .ok (.ok s) => .ok (w.store i a s, s.registers)
    | .ok (.error x) => do
      let s ← Cpu.raiseException x
      return ((w.store i a s).enter (.handling x.which x.badVAddr (x.cpu.registers nextPCReg)), s.registers)

/-- `ExceptionHandler`; the service of a system call has returned `sysRet`. -/
def handle (w : World) (fs : Programs) (fuel : ℕ) (sysRet : BitVec 32) (r : Registers) :
    ExceptionType → Call (World × Registers)
  | .syscallException =>
    match SysCall.ofCode (r 2) with
    | none => .error .assertFailed
    | some .halt => .ok ({ w with halted := true }, r)
    | some .exit => .ok (w.enter .finished, r)
    | some _ => .ok (w.enter .user, returnFromSyscall r sysRet)
  | .pageFaultException =>
    match w.space with
    | none => .ok (w.enter .finished, r)
    | some a => do
      let (frame, a, m) ← loadPage fs fuel w.vm.memory a ((r badVAddrReg).toInt.tdiv pageSize)
      let w := { w with vm := w.vm.set w.current a m }
      return (w.enter (if frame = -1 then .finished else .user), r)
  | .addressErrorException | .overflowException | .readOnlyException => .ok (w.enter .finished, r)
  -- "Unsupported exception type"
  | .busErrorException | .illegalInstrException => .ok (w.enter .user, r)

/-- Kernel work on address spaces. A thread is deleted before it runs or after it has finished. -/
def Works (w : World) (op : LifeOp) (w' : World) : Prop :=
  w.mode w.current ≠ .user ∧
    (∀ i, op = .terminate i → i ≠ w.current ∧ (w.mode i = .fresh ∨ w.mode i = .finished)) ∧
    ∃ vm, LifeStep w.vm op vm ∧ w' = { w with vm := vm }

/-- Another thread becomes the current one. -/
def switchTo (w : World) (next : ℕ) : World :=
  { w with current := next
           mode := if w.mode next = .fresh then Function.update w.mode next .starting else w.mode }

end World

/-- The main thread runs, and there is no user program yet. -/
structure World.Start (w : World) : Prop where
  booted : w.vm.Booted
  mode : ∀ t, w.mode t = if t = w.current then .starting else .fresh
  halted : w.halted = false

/-! ## Address spaces -/

/-- Thread `t` has an address space, of `n` pages. -/
def Vm.HasPages (s : Vm) (t n : ℕ) : Prop := ∃ a, s.spaces t = some a ∧ a.numPages = n

theorem Vm.HasPages.set {s : Vm} {t n : ℕ} (h : s.HasPages t n) {a' : AddrSpace} (ha : s.spaces i = some a)
    (hn : a'.numPages = a.numPages) (m : Memory) : (s.set i a' m).HasPages t n := by
  obtain ⟨b, hb, hpages⟩ := h
  by_cases hi : t = i
  · subst hi
    rw [ha] at hb
    cases hb
    exact ⟨a', Vm.set_spaces s t a' m, hn.trans hpages⟩
  · exact ⟨b, by rw [Vm.set_spaces_of_ne s hi, hb], hpages⟩

theorem keepsUsed_hasPages (fs : Programs) (fuel t n : ℕ) :
    Vm.KeepsUsed (loadPage fs fuel) fun s => s.Ok ∧ s.HasPages t n where
  load s i a v r a' m' h ha hload := by
    obtain ⟨hok, hprog⟩ := loadPage_ok (h.1 i a ha) hload
    exact ⟨h.1.set hok m', h.2.set ha hprog.numPages m'⟩
  bytes s mem h := h
  touch s i a v w h ha hv := by
    refine ⟨(Vm.keeps_ok fs fuel).touch s i a v w h.1 ha hv, ?_⟩
    apply h.2.set ha
    rfl

theorem LifeStep.ok {s s' : Vm} (h : LifeStep s op s') (hok : s.Ok) : s'.Ok := by
  cases op with
  | call q =>
    obtain ⟨⟨fuel, result, hstep⟩, -⟩ := h
    exact (Vm.keeps_ok q.fs fuel).step hok hstep
  | terminate i =>
    obtain ⟨a, -, rfl⟩ := h
    intro j b hb
    by_cases hj : j = i
    · rw [hj, terminate_spaces] at hb
      cases hb
    · rw [terminate_spaces_of_ne s hj] at hb
      exact hok j b hb

theorem LifeStep.hasPages {s s' : Vm} (h : LifeStep s op s') (hok : s.Ok) {t n : ℕ} (hpages : s.HasPages t n)
    (hlive : op ≠ .terminate t) : s'.HasPages t n := by
  cases op with
  | call q =>
    obtain ⟨⟨fuel, result, hstep⟩, hnew⟩ := h
    by_cases hop : ∃ i junk words name, q.op = .construct i junk words name
    · obtain ⟨i, junk, words, name, hop⟩ := hop
      rw [hop] at hstep
      obtain ⟨a, -, hstep⟩ := bind_eq_ok.mp hstep
      cases hstep
      obtain ⟨b, hb, hn⟩ := hpages
      have hi : t ≠ i := by
        rintro rfl
        rw [hnew t junk words name hop] at hb
        cases hb
      exact ⟨b, by rw [Vm.set_spaces_of_ne s hi, hb], hn⟩
    · have hused : ∀ i junk words name, q.op ≠ .construct i junk words name := by
        intro i junk words name heq
        exact hop ⟨i, junk, words, name, heq⟩
      exact ((keepsUsed_hasPages q.fs fuel t n).step ⟨hok, hpages⟩ hused hstep).2
  | terminate i =>
    obtain ⟨a, -, rfl⟩ := h
    obtain ⟨b, hb, hn⟩ := hpages
    have hi : t ≠ i := by
      rintro rfl
      exact hlive rfl
    exact ⟨b, by rw [terminate_spaces_of_ne s hi, hb], hn⟩

/-! ## What an instruction and the handler do -/

namespace World

@[simp] theorem enter_current (w : World) (m : Mode) : (w.enter m).current = w.current := rfl

@[simp] theorem enter_vm (w : World) (m : Mode) : (w.enter m).vm = w.vm := rfl

@[simp] theorem enter_halted (w : World) (m : Mode) : (w.enter m).halted = w.halted := rfl

@[simp] theorem enter_mode (w : World) (m : Mode) : (w.enter m).mode w.current = m := Function.update_self _ _ _

theorem enter_mode_of_ne (w : World) (m : Mode) {t : ℕ} (ht : t ≠ w.current) : (w.enter m).mode t = w.mode t :=
  Function.update_of_ne ht _ _

/-- An instruction is completed, or it raises an exception. -/
inductive Cycled (w : World) (r : Registers) (i size : ℕ) (a : AddrSpace) : World → Registers → Prop
  | done {s : Cpu}
      (h : (Cpu.mk r a.pageTable size w.vm.memory.mainMemory).oneInstruction = pure s) :
      Cycled w r i size a (w.store i a s) s.registers
  | raised {x : Raised} {s : Cpu}
      (h : (Cpu.mk r a.pageTable size w.vm.memory.mainMemory).oneInstruction = Raising.raise x)
      (hraise : Cpu.raiseException x = .ok s) :
      Cycled w r i size a ((w.store i a s).enter (.handling x.which x.badVAddr (x.cpu.registers nextPCReg))) s.registers

theorem cycle_eq_ok {size : ℕ} (h : w.cycle r i size = .ok (w', r')) :
    ∃ a, w.vm.spaces i = some a ∧ w.Cycled r i size a w' r' := by
  unfold cycle at h
  cases ha : w.vm.spaces i with
  | none =>
    rw [ha] at h
    cases h
  | some a =>
    rw [ha] at h
    dsimp only at h
    refine ⟨a, rfl, ?_⟩
    split at h
    · cases h
    · next s hs =>
      cases h
      exact .done hs
    · next x hx =>
      obtain ⟨s, hs, h⟩ := bind_eq_ok.mp h
      cases h
      exact .raised hx hs

theorem store_ok (h : w.vm.Ok) (ha : w.vm.spaces i = some a) {s : Cpu}
    (htable : SameMappings a.pageTable s.pageTable) : (w.store i a s).vm.Ok := by
  apply h.set
  have hok := h i a ha
  refine AddrSpace.Ok.of_entries hok ?_ ?_
  · exact ⟨rfl, rfl, rfl, rfl⟩
  intro v hv
  have he := hok.entry v hv
  have hv' := htable v
  exact ⟨hv'.virtualPage.trans he.index, by rw [hv'.physicalPage]; exact he.frame, hv'.readOnly.trans he.writable⟩

/-- How the handler ends. -/
inductive Handled (w : World) (r : Registers) : ExceptionType → World → Registers → Prop
  | halt : Handled w r .syscallException { w with halted := true } r
  | finish {which : ExceptionType} (h : which ≠ .busErrorException ∧ which ≠ .illegalInstrException) :
      Handled w r which (w.enter .finished) r
  | returns (sysRet : BitVec 32) : Handled w r .syscallException (w.enter .user) (returnFromSyscall r sysRet)
  | pageIn {fs : Programs} {fuel : ℕ} {a a' : AddrSpace} {frame : Int} {m : Memory}
      (ha : w.space = some a)
      (hload : loadPage fs fuel w.vm.memory a ((r badVAddrReg).toInt.tdiv pageSize) = .ok (frame, a', m)) :
      Handled w r .pageFaultException
        (({ w with vm := w.vm.set w.current a' m }).enter (if frame = -1 then .finished else .user)) r
  | unsupported {which : ExceptionType} (h : which = .busErrorException ∨ which = .illegalInstrException) :
      Handled w r which (w.enter .user) r

theorem Handled.current (h : w.Handled r which w' r') : w'.current = w.current := by
  cases h <;> rfl

theorem Handled.mode_of_ne (h : w.Handled r which w' r') (t : ℕ) (ht : t ≠ w.current) : w'.mode t = w.mode t := by
  cases h with
  | halt => rfl
  | finish _ | returns _ | pageIn _ _ | unsupported _ => exact enter_mode_of_ne _ _ ht

theorem handle_eq_ok {fs : Programs} {fuel : ℕ} {sysRet : BitVec 32}
    (h : w.handle fs fuel sysRet r which = .ok (w', r')) : w.Handled r which w' r' := by
  cases which with
  | syscallException =>
    unfold handle at h
    dsimp only at h
    split at h
    · cases h
    · cases h
      exact .halt
    · cases h
      exact .finish (by decide)
    · cases h
      exact .returns sysRet
  | pageFaultException =>
    unfold handle at h
    cases ha : w.space with
    | none =>
      rw [ha] at h
      cases h
      exact .finish (by decide)
    | some a =>
      rw [ha] at h
      obtain ⟨⟨frame, a', m⟩, hload, h⟩ := bind_eq_ok.mp h
      cases h
      exact .pageIn ha hload
  | addressErrorException | overflowException | readOnlyException =>
    cases h
    exact .finish (by decide)
  | busErrorException =>
    cases h
    exact .unsupported (Or.inl rfl)
  | illegalInstrException =>
    cases h
    exact .unsupported (Or.inr rfl)

end World

/-! ## The address spaces of the threads -/

/-- The thread has registers of its own. -/
def Mode.hasContext : Mode → Bool
  | loaded | user | handling _ _ _ => true
  | fresh | starting | finished => false

namespace World

structure Sane (w : World) : Prop where
  ok : w.vm.Ok
  spaces : ∀ t, (w.mode t).hasContext = true → ∃ n, w.vm.HasPages t n

/-- A step keeps the threads' address spaces, and their sizes. -/
structure Keeps (w w' : World) : Prop where
  sane : w'.Sane
  pages : ∀ t n, (w.mode t).hasContext = true → w.vm.HasPages t n → w'.vm.HasPages t n

theorem Start.sane (h : w.Start) : w.Sane := by
  refine ⟨?_, ?_⟩
  · intro i a ha
    rw [h.booted.spaces i] at ha
    cases ha
  · intro t ht
    rw [h.mode t] at ht
    split at ht <;> cases ht

theorem Keeps.enter (h : w.Keeps w') {m : Mode}
    (hm : m.hasContext = true → ∃ n, w'.vm.HasPages w'.current n) : w.Keeps (w'.enter m) := by
  refine ⟨⟨h.sane.ok, ?_⟩, h.pages⟩
  intro t ht
  by_cases hcur : t = w'.current
  · subst hcur
    rw [enter_mode] at ht
    exact hm ht
  · rw [w'.enter_mode_of_ne m hcur] at ht
    exact h.sane.spaces t ht

theorem Sane.keeps (h : w.Sane) : w.Keeps w := ⟨h, fun _ _ _ hn => hn⟩

theorem Sane.keeps_set (h : w.Sane) {a' : AddrSpace} (ha : w.vm.spaces i = some a) (hn : a'.numPages = a.numPages)
    {m : Memory} (hok : (w.vm.set i a' m).Ok) : w.Keeps { w with vm := w.vm.set i a' m } := by
  refine ⟨⟨hok, ?_⟩, fun t n _ hpages => hpages.set ha hn m⟩
  intro t ht
  obtain ⟨n, hpages⟩ := h.spaces t ht
  exact ⟨n, hpages.set ha hn m⟩

theorem Sane.keeps_store (h : w.Sane) (ha : w.vm.spaces i = some a) {s : Cpu}
    (htable : SameMappings a.pageTable s.pageTable) : w.Keeps (w.store i a s) := by
  apply h.keeps_set ha
  · rfl
  · exact store_ok h.ok ha htable

theorem Sane.cycled {size : ℕ} (h : w.Sane) (ha : w.vm.spaces i = some a)
    (hmode : (w.mode w.current).hasContext = true) (hcycle : w.Cycled r i size a w' r') : w.Keeps w' := by
  have hends := (Cpu.mk r a.pageTable size w.vm.memory.mainMemory).oneInstruction_ends
  cases hcycle with
  | done hdone =>
    rw [hdone] at hends
    exact h.keeps_store ha hends.of_pure.table
  | raised hx hraise =>
    rw [hx] at hends
    obtain ⟨r, -, rfl⟩ := cpu_delayedLoad_eq_ok hraise
    have hkeeps := h.keeps_store ha hends.of_raise.memory.table
    exact hkeeps.enter fun _ => hkeeps.sane.spaces w.current hmode

theorem Sane.handled (h : w.Sane) (hmode : (w.mode w.current).hasContext = true)
    (hhandle : w.Handled r which w' r') : w.Keeps w' := by
  cases hhandle with
  | halt => exact ⟨⟨h.ok, h.spaces⟩, fun _ _ _ hn => hn⟩
  | finish _ => exact h.keeps.enter nofun
  | returns _ => exact h.keeps.enter fun _ => h.spaces w.current hmode
  | @pageIn fs fuel a a' frame m ha hload =>
    obtain ⟨hok, hprog⟩ := loadPage_ok (h.ok w.current _ ha) hload
    have hkeeps := h.keeps_set ha hprog.numPages (h.ok.set hok m)
    exact hkeeps.enter fun _ => hkeeps.sane.spaces w.current hmode
  | unsupported _ => exact h.keeps.enter fun _ => h.spaces w.current hmode

theorem Sane.works (h : w.Sane) (hworks : w.Works op w') : w.Keeps w' := by
  obtain ⟨-, hend, vm, hlife, rfl⟩ := hworks
  have hpages : ∀ t n, (w.mode t).hasContext = true → w.vm.HasPages t n → vm.HasPages t n := by
    intro t n ht hn
    apply hlife.hasPages h.ok hn
    intro hop
    rcases (hend t hop).2 with hmode | hmode
    · rw [hmode] at ht
      cases ht
    · rw [hmode] at ht
      cases ht
  refine ⟨⟨hlife.ok h.ok, ?_⟩, hpages⟩
  intro t ht
  obtain ⟨n, hn⟩ := h.spaces t ht
  exact ⟨n, hpages t n ht hn⟩

theorem Sane.switchTo (h : w.Sane) (next : ℕ) : w.Keeps (w.switchTo next) := by
  refine ⟨⟨h.ok, ?_⟩, fun _ _ _ hn => hn⟩
  intro t ht
  unfold World.switchTo at ht
  dsimp only at ht
  split at ht
  · by_cases hnext : t = next
    · rw [hnext, Function.update_self] at ht
      cases ht
    · rw [Function.update_of_ne hnext] at ht
      exact h.spaces t ht
  · exact h.spaces t ht

end World

end Nachos
