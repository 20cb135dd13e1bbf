import Nachos.Userprog.ContextSwitch

/-! # What comes after an exception

When the handler is done, the thread has ended, or it goes on after a system call, or the page whose fault
it had is there. That is so for every exception but two: for a bus error and for an illegal instruction
the handler prints a line and returns, and the same instruction is executed again. -/
set_option autoImplicit false

namespace Nachos
open Buffer Execution Raising

variable {a : AddrSpace} {fs : Programs} {table : PageTable} {which : ExceptionType}

/-! ## The registers in the handler -/

/-- Loads go to general registers, and the handler finds the address and the program counter of the
exception where they were put. -/
structure TrapInv (A : Threads) : Prop where
  load : ∀ t, (A.mode t).hasContext = true → (A.registers t loadReg).toNat < 32
  trap : ∀ t which badVAddr nextPC, A.mode t = .handling which badVAddr nextPC →
    A.registers t badVAddrReg = badVAddr ∧ A.registers t nextPCReg = nextPC

theorem loaded_of_ne {r : Registers} {target k : ℕ} (nextReg nextValue : BitVec 32) (h0 : k ≠ 0)
    (hvalue : k ≠ loadValueReg) (hload : k ≠ loadReg) (htarget : k ≠ target) :
    loaded r target nextReg nextValue k = r k := by
  unfold loaded
  rw [if_neg h0, if_neg hvalue, if_neg hload, if_neg htarget]

/-- `RaiseException` sets `BadVAddrReg`, and the delayed load goes to a general register. -/
theorem raise_registers {x : Raised} {s : Cpu} (hload : (x.cpu.registers loadReg).toNat < 32)
    (h : Cpu.raiseException x = .ok s) :
    s.registers badVAddrReg = x.badVAddr ∧ s.registers nextPCReg = x.cpu.registers nextPCReg ∧
      s.registers loadReg = 0#32 := by
  obtain ⟨r, hr, rfl⟩ := cpu_delayedLoad_eq_ok h
  have htarget : ∀ k, 32 ≤ k → k ≠ ((x.cpu.set badVAddrReg x.badVAddr).registers loadReg).toNat := by
    intro k hk heq
    have hsame : (x.cpu.set badVAddrReg x.badVAddr).registers loadReg = x.cpu.registers loadReg := rfl
    rw [hsame] at heq
    omega
  dsimp only
  rw [delayedLoad_eq_ok hr]
  refine ⟨?_, ?_, rfl⟩
  · rw [loaded_of_ne _ _ (by decide) (by decide) (by decide) (htarget _ (by decide))]
    simp only [Cpu.set, Function.update_self]
  · rw [loaded_of_ne _ _ (by decide) (by decide) (by decide) (htarget _ (by decide))]
    rfl

section Steps

variable {A : Threads}

/-- A step of the current thread. -/
theorem TrapInv.act (h : TrapInv A) {w : World} {r : Registers}
    (hother : ∀ t, t ≠ A.current → w.mode t = A.mode t)
    (hload : (w.mode A.current).hasContext = true → (r loadReg).toNat < 32)
    (htrap : ∀ which badVAddr nextPC, w.mode A.current = .handling which badVAddr nextPC →
      r badVAddrReg = badVAddr ∧ r nextPCReg = nextPC) : TrapInv (A.put w r) := by
  refine ⟨?_, ?_⟩
  · intro t ht
    change (w.mode t).hasContext = true at ht
    change (Function.update A.registers A.current r t loadReg).toNat < 32
    by_cases hcur : t = A.current
    · subst hcur
      rw [Function.update_self]
      exact hload ht
    · rw [Function.update_of_ne hcur]
      exact h.load t (by rw [← hother t hcur]; exact ht)
  · intro t which badVAddr nextPC ht
    change w.mode t = _ at ht
    change Function.update A.registers A.current r t _ = _ ∧ Function.update A.registers A.current r t _ = _
    by_cases hcur : t = A.current
    · subst hcur
      rw [Function.update_self]
      exact htrap _ _ _ ht
    · rw [Function.update_of_ne hcur]
      exact h.trap t _ _ _ (by rw [← hother t hcur]; exact ht)

theorem TrapInv.instruction (h : TrapInv A) {A' : Threads} (hstep : A.Step .instruction A') : TrapInv A' := by
  obtain ⟨-, hmode, a, w, r, -, hcycle, rfl⟩ := hstep
  obtain ⟨b, hb, hcycled⟩ := World.cycle_eq_ok hcycle
  have hload := h.load A.current (by rw [hmode]; rfl)
  have hends := (Cpu.mk (A.registers A.current) b.pageTable a.numPages A.vm.memory.mainMemory).oneInstruction_ends
  cases hcycled with
  | @done s hdone =>
    rw [hdone] at hends
    refine h.act (w := A.store A.current b s) (fun _ _ => rfl) (fun _ => hends.of_pure.load) ?_
    intro which badVAddr nextPC ht
    change A.mode A.current = _ at ht
    rw [hmode] at ht
    cases ht
  | @raised x s hx hraise =>
    rw [hx] at hends
    have hregisters := hends.of_raise.registers
    have hload' : (x.cpu.registers loadReg).toNat < 32 := by
      rw [hregisters]
      exact hload
    obtain ⟨hbad, hnext, hzero⟩ := raise_registers hload' hraise
    have hset := World.enter_mode (A.store A.current b s) (.handling x.which x.badVAddr (x.cpu.registers nextPCReg))
    refine TrapInv.act h ?_ ?_ ?_
    · intro t ht
      exact World.enter_mode_of_ne _ _ ht
    · intro _
      rw [hzero]
      decide
    · intro which badVAddr nextPC ht
      have heq := hset.symm.trans ht
      cases heq
      exact ⟨hbad, hnext⟩

theorem TrapInv.handle (h : TrapInv A) {sysRet : BitVec 32} {A' : Threads}
    (hstep : A.Step (.handle fs sysRet) A') : TrapInv A' := by
  obtain ⟨-, which, badVAddr, nextPC, hmode, fuel, w, r, hhandle, rfl⟩ := hstep
  have hload := h.load A.current (by rw [hmode]; rfl)
  have hhandled := World.handle_eq_ok hhandle
  cases hhandled with
  | halt =>
    refine h.act (w := { A.toWorld with halted := true }) (fun _ _ => rfl) (fun _ => hload) ?_
    intro which' badVAddr' nextPC' ht
    exact h.trap A.current _ _ _ ht
  | finish _ | unsupported _ =>
    apply h.act (fun t ht => World.enter_mode_of_ne _ _ ht) (fun _ => hload)
    intro which' badVAddr' nextPC' ht
    rw [World.enter_mode] at ht
    cases ht
  | returns sysRet =>
    apply h.act (fun t ht => World.enter_mode_of_ne _ _ ht)
    · intro _
      rw [returnFromSyscall_apply]
      exact hload
    · intro which' badVAddr' nextPC' ht
      rw [World.enter_mode] at ht
      cases ht
  | @pageIn fs fuel a a' frame m _ _ =>
    refine TrapInv.act h ?_ (fun _ => hload) ?_
    · intro t ht
      exact World.enter_mode_of_ne _ _ ht
    · intro which' badVAddr' nextPC' ht
      have hset := World.enter_mode { A.toWorld with vm := A.vm.set A.current a' m }
        (if frame = -1 then .finished else .user)
      rw [hset] at ht
      split at ht <;> cases ht

theorem TrapInv.step (A : Threads) (e : Event) (A' : Threads) (h : TrapInv A) (hstep : A.Step e A') : TrapInv A' := by
  cases e with
  | instruction => exact h.instruction hstep
  | interrupt =>
    obtain ⟨-, hstep⟩ := hstep
    split at hstep
    · next huser =>
      obtain ⟨r, hr, rfl⟩ := hstep
      apply h.act (fun _ _ => rfl)
      · intro _
        rw [(settled_of_delayedLoad hr).load]
        decide
      · intro which badVAddr nextPC ht
        rw [huser] at ht
        cases ht
    · rw [hstep]
      exact h
  | switchTo next =>
    obtain ⟨-, rfl⟩ := hstep
    refine ⟨?_, ?_⟩
    · intro t ht
      have hsame := (switchTo_mode ht).1
      exact h.load t (by rw [← hsame]; exact ht)
    · intro t which badVAddr nextPC ht
      have hsame := (@switchTo_mode A.toWorld next t (by rw [ht]; rfl)).1
      exact h.trap t _ _ _ (by rw [← hsame]; exact ht)
  | initRegisters =>
    obtain ⟨-, -, a, -, rfl⟩ := hstep
    apply h.act (fun t ht => World.enter_mode_of_ne _ _ ht)
    · intro _
      rw [(initRegisters_settled a.numPages).load]
      decide
    · intro which badVAddr nextPC ht
      rw [World.enter_mode] at ht
      cases ht
  | restoreState =>
    obtain ⟨-, hmode, rfl⟩ := hstep
    refine ⟨?_, ?_⟩
    · intro t ht
      by_cases hcur : t = A.current
      · exact h.load t (by rw [hcur, hmode]; rfl)
      · exact h.load t (by rw [← World.enter_mode_of_ne _ .user hcur]; exact ht)
    · intro t which badVAddr nextPC ht
      change (A.enter .user).mode t = _ at ht
      by_cases hcur : t = A.current
      · rw [hcur, World.enter_mode] at ht
        cases ht
      · rw [World.enter_mode_of_ne _ _ hcur] at ht
        exact h.trap t _ _ _ ht
  | work op =>
    obtain ⟨-, w, ⟨-, -, vm, -, rfl⟩, rfl⟩ := hstep
    exact ⟨h.load, h.trap⟩
  | handle fs sysRet => exact h.handle hstep

end Steps

theorem trapInv_start (A : Threads) (h : A.Start) : TrapInv A := by
  refine ⟨?_, ?_⟩
  · intro t ht
    rw [h.mode t] at ht
    split at ht <;> cases ht
  · intro t which badVAddr nextPC ht
    rw [h.mode t] at ht
    split at ht <;> cases ht

theorem trapInv_of_trace {events : List Event} {A : Threads} (h : Trace Threads.Start Threads.Step events A) :
    TrapInv A :=
  h.invariant TrapInv trapInv_start TrapInv.step

/-! ## Progress -/

/-- The thread or the machine has ended, the system call is behind, or a retry of the translation does not
end in a page fault. -/
def Progress (which : ExceptionType) (badVAddr nextPC : BitVec 32) (s : Processor) : Prop :=
  s.halted = true ∨ s.mode s.current = .finished ∨
    (which = .syscallException ∧ s.registers pcReg = nextPC) ∨
    (which = .pageFaultException ∧ ∃ i a, s.tableOf = some i ∧ s.vm.spaces i = some a ∧
      ∀ size writing, translate a.pageTable s.pageTableSize badVAddr.toInt size writing ≠
        .ok (.error .pageFaultException))

/-- A page that has been loaded has no page fault. -/
theorem translate_of_loaded {fuel : ℕ} {m m' : Memory} {a' : AddrSpace} (hok : a.Ok) {addr : BitVec 32} {frame : Int}
    (hload : loadPage fs fuel m a (addr.toInt.tdiv pageSize) = .ok (frame, a', m')) (hframe : frame ≠ -1) (size : Int)
    (writing : Bool) :
    translate a'.pageTable a.numPages addr.toInt size writing ≠ .ok (.error .pageFaultException) := by
  intro hfault
  obtain ⟨-, hrange, hinvalid⟩ : Absent a'.pageTable a.numPages addr.toInt size := by
    by_contra hpresent
    exact (translate_present hfault hpresent).1 rfl
  obtain ⟨v, hv, -, hvalid, -⟩ := loadPage_valid hload hframe
  have hfits := hok.fits
  simp only [numPhysPages, pageSize, sectorSize] at hfits hrange
  have hnonneg : 0 ≤ addr.toInt := by
    by_contra hneg
    have hmin := BitVec.le_toInt addr
    unfold toUnsigned at hrange
    omega
  have hpage : toUnsigned addr.toInt / 128 = v := by
    have hmax := BitVec.toInt_lt (x := addr)
    rw [Int.tdiv_eq_ediv_of_nonneg hnonneg] at hv
    unfold toUnsigned
    simp only [pageSize, sectorSize] at hv
    omega
  rw [show toUnsigned addr.toInt / pageSize = v from hpage, hvalid] at hinvalid
  cases hinvalid

/-- Every exception but a bus error and an illegal instruction makes progress. -/
theorem trap_progress {events : List Event} {s : Processor} (h : Trace Processor.Start Processor.Step events s)
    {badVAddr nextPC : BitVec 32} (hmode : s.mode s.current = .handling which badVAddr nextPC) {sysRet : BitVec 32}
    {s' : Processor} (hstep : s.Step (.handle fs sysRet) s') :
    Progress which badVAddr nextPC s' ↔ which ≠ .busErrorException ∧ which ≠ .illegalInstrException := by
  obtain ⟨A, hA, hagrees⟩ := exists_agrees h
  have hcontext : (s.mode s.current).hasContext = true := by rw [hmode]; rfl
  have hmapped : (s.mode s.current).isMapped = true := by rw [hmode]; rfl
  have hmodeA : A.mode s.current = .handling which badVAddr nextPC := by
    rw [hagrees.world]
    exact hmode
  obtain ⟨hbad, hnext⟩ := (trapInv_of_trace hA).trap s.current _ _ _ hmodeA
  rw [hagrees.registers hcontext] at hbad hnext
  obtain ⟨hhalted, which', badVAddr', nextPC', hmode', fuel, w, r, hhandle, rfl⟩ := hstep
  rw [hmode] at hmode'
  cases hmode'
  have hhandled := World.handle_eq_ok hhandle
  cases hhandled with
  | halt => exact iff_of_true (Or.inl rfl) (by decide)
  | finish hother => exact iff_of_true (Or.inr (Or.inl (World.enter_mode _ _))) hother
  | returns _ =>
    refine iff_of_true (Or.inr (Or.inr (Or.inl ⟨rfl, ?_⟩))) (by decide)
    dsimp only
    rw [returnFromSyscall_apply]
    exact hnext
  | @pageIn fs fuel a a' frame m ha hload =>
    refine iff_of_true ?_ (by decide)
    have henter := World.enter_mode { s.toWorld with vm := s.vm.set s.current a' m }
      (if frame = -1 then .finished else .user)
    by_cases hframe : frame = -1
    · rw [if_pos hframe] at henter
      exact Or.inr (Or.inl (by rw [if_pos hframe]; exact henter))
    · obtain ⟨htable, b, hb, hsize⟩ := hagrees.mapped hmapped
      have hab : a = b := Option.some.inj (ha.symm.trans hb)
      refine Or.inr (Or.inr (Or.inr ⟨rfl, s.current, a', htable, Vm.set_spaces _ _ _ _, ?_⟩))
      intro size writing
      rw [hbad] at hload
      rw [← hsize, ← hab]
      exact translate_of_loaded (hagrees.sane.ok _ _ ha) hload hframe size writing
  | unsupported hother =>
    refine iff_of_false ?_ ?_
    · rintro (hhalt | hfinished | ⟨hsys, -⟩ | ⟨hfault, -⟩)
      · change s.halted = true at hhalt
        rw [hhalted] at hhalt
        cases hhalt
      · change (s.enter .user).mode s.current = .finished at hfinished
        rw [World.enter_mode] at hfinished
        cases hfinished
      · rw [hsys] at hother
        rcases hother with hother | hother <;> cases hother
      · rw [hfault] at hother
        rcases hother with hother | hother <;> cases hother
    · rintro ⟨hbus, hillegal⟩
      rcases hother with hother | hother
      · exact hbus hother
      · exact hillegal hother

/-! ## An illegal instruction -/

theorem World.store_self {w : World} {i : ℕ} (ha : w.vm.spaces i = some a) (r : Registers) (size : ℕ) :
    w.store i a ⟨r, a.pageTable, size, w.vm.memory.mainMemory⟩ = w := by
  have hset := Vm.set_self ha
  unfold World.store
  dsimp only
  rw [hset]

/-- With no load pending, an exception that leaves `BadVAddrReg` as it is changes nothing. -/
theorem raise_settled {x : Raised} (hsettled : Settled x.cpu.registers)
    (hbad : x.cpu.registers badVAddrReg = x.badVAddr) : Cpu.raiseException x = .ok x.cpu := by
  have hsame : Function.update x.cpu.registers badVAddrReg x.badVAddr = x.cpu.registers := by
    rw [← hbad, Function.update_eq_self]
  unfold Cpu.raiseException Cpu.set
  rw [hsame]
  exact cpu_delayedLoad_eq hsettled.delayedLoad

/-- A thread without a pending load comes into the handler with the registers it has. -/
theorem Processor.step_raise {s : Processor} (hhalted : s.halted = false) (hmode : s.mode s.current = .user)
    (htable : s.tableOf = some s.current) (ha : s.space = some a) (hsettled : Settled s.registers)
    {badVAddr : BitVec 32} (hbad : s.registers badVAddrReg = badVAddr)
    (hraise : (Cpu.mk s.registers a.pageTable s.pageTableSize s.vm.memory.mainMemory).oneInstruction =
      raise ⟨⟨s.registers, table, s.pageTableSize, s.vm.memory.mainMemory⟩, which, badVAddr⟩) :
    s.Step .instruction { s with
      toWorld := (s.store s.current a ⟨s.registers, table, s.pageTableSize, s.vm.memory.mainMemory⟩).enter
        (.handling which badVAddr (s.registers nextPCReg)) } := by
  refine ⟨hhalted, hmode, s.current, _, s.registers, htable, ?_, rfl⟩
  unfold World.cycle
  rw [show s.vm.spaces s.current = some a from ha]
  dsimp only
  rw [hraise]
  change (Cpu.raiseException _ >>= _) = _
  rw [raise_settled hsettled hbad]
  rfl

theorem oneInstruction_fault {s : Cpu}
    (h : translate s.pageTable s.pageTableSize (s.registers pcReg).toInt 4 false = .ok (.error which)) :
    s.oneInstruction = raise ⟨s, which, s.registers pcReg⟩ := by
  unfold Cpu.oneInstruction Cpu.fetch Cpu.readMem Nachos.readMem
  rw [h]
  rfl

theorem oneInstruction_illegal {s : Cpu} {phys : ℕ}
    (h : translate s.pageTable s.pageTableSize (s.registers pcReg).toInt 4 false = .ok (.ok (phys, table)))
    (hop : (decode (wordAt s.mainMemory phys)).opCode = .res) :
    s.oneInstruction = raise ⟨⟨s.registers, table, s.pageTableSize, s.mainMemory⟩, .illegalInstrException, 0#32⟩ := by
  apply (Cpu.oneInstruction_of_fetch (Cpu.fetch_mapped h)).2.1
  unfold Cpu.execute
  rw [hop]

/-- The thread is back at the illegal instruction; only the page that holds it has been used. -/
theorem Processor.illegal_round {s : Processor} (hhalted : s.halted = false) (hmode : s.mode s.current = .user)
    (htable : s.tableOf = some s.current) (ha : s.space = some a) (hsettled : Settled s.registers)
    (hbad : s.registers badVAddrReg = 0#32) {phys : ℕ}
    (htrans : translate a.pageTable s.pageTableSize (s.registers pcReg).toInt 4 false = .ok (.ok (phys, table)))
    (hop : (decode (wordAt s.vm.memory.mainMemory phys)).opCode = .res) (fs : Programs) :
    ∃ s₁ s₂ : Processor, s.Step .instruction s₁ ∧
      s₁.mode s₁.current = .handling .illegalInstrException 0#32 (s.registers nextPCReg) ∧
      s₁.Step (.handle fs 0#32) s₂ ∧
      s₂ = { s with toWorld := s.store s.current a ⟨s.registers, table, s.pageTableSize, s.vm.memory.mainMemory⟩ } := by
  have hstep := step_raise hhalted hmode htable ha hsettled hbad (oneInstruction_illegal htrans hop)
  refine ⟨_, _, hstep, World.enter_mode _ _, ⟨hhalted, _, _, _, World.enter_mode _ _, 0, _, _, rfl, rfl⟩, ?_⟩
  have hback : Function.update s.mode s.current .user = s.mode := by
    rw [← hmode, Function.update_eq_self]
  simp only [World.enter, World.store, Function.update_idem, hback]

/-- One instruction, the word `0xfc000000`, and the stack: 9 pages. -/
def illegalFile : Executable where
  bytes := [0xad, 0xdf, 0xba, 0] ++ [0, 0, 0, 0, 40, 0, 0, 0, 4, 0, 0, 0] ++ List.replicate 24 0 ++ [0, 0, 0, 0xfc]
  fits := by decide

def instructionHeader : NoffHeader where
  noffMagic := 0xbadfad
  code := ⟨0, 40, 4⟩
  initData := ⟨0, 0, 0⟩
  uninitData := ⟨0, 0, 0⟩

/-- The executable has one instruction, the four bytes given. -/
structure OneInstruction (f : Executable) (bytes : List UInt8) : Prop where
  length : bytes.length = 4
  header : NoffHeader.fetch f (fun _ => 0) = .ok instructionHeader
  code : ∀ m a, loadSegment (onlyFile f) m a instructionHeader.code codeEnd (0 : ℕ) (0 : ℕ) =
    .ok (some { m with mainMemory := store m.mainMemory 0 bytes })

theorem illegal_oneInstruction : OneInstruction illegalFile [0, 0, 0, 0xfc] := ⟨rfl, rfl, fun _ _ => rfl⟩

/-- The word of four bytes. -/
def wordOf (bytes : List UInt8) : BitVec 32 := wordAt (store (fun _ => 0) 0 bytes) 0

theorem wordAt_store {bytes : List UInt8} (h : bytes.length = 4) (mem : Image) :
    wordAt (store mem 0 bytes) 0 = wordOf bytes := by
  match bytes, h with
  | [_, _, _, _], _ => rfl

section OneInstruction

variable {f : Executable} {bytes : List UInt8} (hf : OneInstruction f bytes)
include hf

theorem OneInstruction.construct (name : FileName) :
    ∃ a, AddrSpace.construct (onlyFile f) (fun _ => 0) (fun _ => 0#32) name = .ok a ∧
      a.noffH = instructionHeader ∧ a.numPages = 9 ∧ a.victumOffset = 0 :=
  construct_of_header (fun _ => 0#32) rfl hf.header rfl (show divRoundUp _ _ = _ by decide) (by decide)

/-- Its first page is loaded into frame `0`. -/
theorem OneInstruction.load (h : a.Ok) (hheader : a.noffH = instructionHeader) (hpages : a.numPages = 9)
    (htable : a.pageTable = TranslationEntry.absent) {m : Memory} (hfree : firstFree m = some 0) :
    ∃ mem, loadPage (onlyFile f) 0 m a (0 : ℕ) =
        .ok ((0 : ℕ), a.resident 0 0, { m.taken 0 with mainMemory := mem }) ∧ wordAt mem 0 = wordOf bytes := by
  have hv : 0 < a.numPages := by omega
  have hcode := hf.code ((m.taken 0).zeroed 0) (a.mapped 0 0)
  rw [← show (a.mapped 0 0).noffH = instructionHeader from hheader] at hcode
  have hdata : ¬ (a.mapped 0 0).noffH.initData.OnPage (0 : ℕ) := by
    rw [show (a.mapped 0 0).noffH = instructionHeader from hheader]
    decide
  refine ⟨store ((m.taken 0).zeroed 0).mainMemory 0 bytes, ?_, wordAt_store hf.length _⟩
  rw [loadPage_free h hv (by rw [htable]; rfl) hfree, ← mapped_valid]
  exact fillPage_of_segments (h.mapped hv (by decide)) hv (by decide) mapped_physicalPage hcode (loadSegment_absent hdata)

end OneInstruction

theorem handle_pageIn {w : World} {fuel : ℕ} {a' : AddrSpace} {frame : Int} {m : Memory} {r : Registers}
    (ha : w.space = some a)
    (hload : loadPage fs fuel w.vm.memory a ((r badVAddrReg).toInt.tdiv pageSize) = .ok (frame, a', m))
    (sysRet : BitVec 32) :
    w.handle fs fuel sysRet r .pageFaultException =
      .ok (({ w with vm := w.vm.set w.current a' m }).enter (if frame = -1 then .finished else .user), r) := by
  unfold World.handle
  rw [ha]
  dsimp only
  rw [hload]
  rfl

/-- The program is at its first instruction; its page comes in. -/
theorem exists_firstInstruction {f : Executable} {bytes : List UInt8} (hf : OneInstruction f bytes) :
    ∃ (events : List Event) (s s' : Processor) (a : AddrSpace),
      Trace Processor.Start Processor.Step events s ∧
      s.mode s.current = .handling .pageFaultException 0#32 4#32 ∧
      s.Step (.handle (onlyFile f) 0#32) s' ∧ s'.halted = false ∧
      s'.mode s'.current = .user ∧ s'.tableOf = some s'.current ∧ s'.space = some (a.resident 0 0) ∧
      a.pageTable = TranslationEntry.absent ∧ s'.pageTableSize = 9 ∧ s'.registers = initRegisters 9 ∧
      wordAt s'.vm.memory.mainMemory 0 = wordOf bytes := by
  obtain ⟨s, hstart, hcurrent⟩ := exists_start
  obtain ⟨a, ha, hheader, hpages, -⟩ := hf.construct []
  obtain ⟨hok, -, htable, -⟩ := construct_eq_ok ha
  have hmode := hstart.1.mode s.current
  rw [if_pos rfl] at hmode
  have hlaunch := Processor.launch (.start hstart) hstart.1.halted hmode (hstart.1.booted.spaces _) ha
  have hspace : (s.launched a).space = some a := Vm.set_spaces _ _ _ _
  have hsettled : Settled (s.launched a).registers := initRegisters_settled _
  have hfault : translate a.pageTable (s.launched a).pageTableSize ((s.launched a).registers pcReg).toInt 4 false =
      .ok (.error .pageFaultException) := by
    have hpc : ((s.launched a).registers pcReg).toInt = 0 := rfl
    rw [hpc, htable, show (s.launched a).pageTableSize = 9 from hpages]
    rfl
  have hstep := Processor.step_raise (s := s.launched a) hstart.1.halted (s.launched_mode a) rfl hspace hsettled rfl
    (oneInstruction_fault hfault)
  rw [World.store_self hspace] at hstep
  have hfree : firstFree (s.launched a).vm.memory = some 0 := hstart.1.booted.firstFree
  obtain ⟨mem, hload, hword⟩ := hf.load hok hheader hpages htable hfree
  let faulted : Processor :=
    { s.launched a with toWorld := (s.launched a).enter (.handling .pageFaultException 0#32 4#32) }
  have haddr : (faulted.registers badVAddrReg).toInt.tdiv pageSize = ((0 : ℕ) : Int) := by
    rw [show faulted.registers badVAddrReg = 0#32 from rfl]
    decide
  rw [← haddr] at hload
  have hhandle := @handle_pageIn _ _ faulted.toWorld _ _ _ _ _ hspace hload 0#32
  exact ⟨_, faulted, _, a, hlaunch.next hstep, World.enter_mode _ _,
    ⟨hstart.1.halted, _, _, _, World.enter_mode _ _, 0, _, _, hhandle, rfl⟩, hstart.1.halted, World.enter_mode _ _, rfl,
    Vm.set_spaces _ _ _ _, htable, hpages, congrArg initRegisters hpages, hword⟩

theorem resident_entry (h : a.pageTable = TranslationEntry.absent) :
    (a.resident 0 0).pageTable 0 = ⟨0, 0, true, false, false, false⟩ := by
  simp [AddrSpace.resident, h, TranslationEntry.absent]

theorem translate_first {use : Bool} (hentry : table 0 = ⟨0, 0, true, false, use, false⟩) :
    translate table 9 (0 : ℕ) 4 false = .ok (.ok (0, Function.update table 0 ((table 0).touched false))) :=
  @translate_mapped 4 9 table 0 0 false (Or.inr ⟨rfl, rfl⟩) (by decide) (by decide) (by rw [hentry])
    (fun h => absurd h Bool.false_ne_true) (by decide) (by rw [hentry]; rfl)

/-- The page fault of a first instruction is one that makes progress. -/
theorem trap_progress_firstFault :
    ∃ (events : List Event) (s s' : Processor), Trace Processor.Start Processor.Step events s ∧
      s.Step (.handle (onlyFile illegalFile) 0#32) s' ∧ Progress .pageFaultException 0#32 4#32 s' := by
  obtain ⟨events, s, s', a, htrace, hmode, hstep, -⟩ := exists_firstInstruction illegal_oneInstruction
  exact ⟨events, s, s', htrace, hstep, (trap_progress htrace hmode hstep).mpr (by decide)⟩

/-- An instruction that raises an exception in a state, after which the handler returns to that state. -/
theorem illegalInstr_loops :
    ∃ (events : List Event) (s s₁ : Processor), Trace Processor.Start Processor.Step events s ∧
      s.mode s.current = .user ∧ s.Step .instruction s₁ ∧
      s₁.mode s₁.current = .handling .illegalInstrException 0#32 4#32 ∧
      s₁.Step (.handle (onlyFile illegalFile) 0#32) s ∧ ¬ Progress .illegalInstrException 0#32 4#32 s := by
  obtain ⟨events, s₀, s, a, htrace, -, hstep, hhalted, hmode, htable, hspace, habsent, hsize, hregisters, hword⟩ :=
    exists_firstInstruction illegal_oneInstruction
  have htrace' := htrace.next hstep
  have hsettled : Settled s.registers := by
    rw [hregisters]
    exact initRegisters_settled 9
  have hbad : s.registers badVAddrReg = 0#32 := by
    rw [hregisters]
    rfl
  have hpc : (s.registers pcReg).toInt = (0 : ℕ) := by
    rw [hregisters]
    rfl
  have hnext : s.registers nextPCReg = 4#32 := by
    rw [hregisters]
    rfl
  have hop : (decode (wordAt s.vm.memory.mainMemory 0)).opCode = .res := by
    rw [hword]
    decide
  have hentry := resident_entry habsent
  have htrans := translate_first hentry
  rw [← hpc, ← hsize] at htrans
  obtain ⟨s₁, s₂, hinstr, -, hhandle, hs₂⟩ :=
    Processor.illegal_round hhalted hmode htable hspace hsettled hbad htrans hop (onlyFile illegalFile)
  have htrace₂ := (htrace'.next hinstr).next hhandle
  rw [hs₂] at htrace₂
  -- the page counts as used now, and a second round changes nothing any more
  let table := Function.update (a.resident 0 0).pageTable 0 (((a.resident 0 0).pageTable 0).touched false)
  let used : Processor :=
    { s with toWorld := s.store s.current (a.resident 0 0) ⟨s.registers, table, s.pageTableSize, s.vm.memory.mainMemory⟩ }
  have hspace₂ : used.space = some { a.resident 0 0 with pageTable := table } := Vm.set_spaces _ _ _ _
  have hentry₂ : table 0 = ⟨0, 0, true, false, true, false⟩ := by
    simp only [table, Function.update_self, hentry, TranslationEntry.touched, Bool.or_false]
  have hsame : Function.update table 0 ((table 0).touched false) = table := by
    have htouched : (table 0).touched false = table 0 := by
      rw [hentry₂]
      rfl
    rw [htouched, Function.update_eq_self]
  have htrans₂ := translate_first hentry₂
  rw [← hpc, ← hsize, hsame] at htrans₂
  obtain ⟨s₃, s₄, hinstr₂, hmode₂, hhandle₂, hs₄⟩ :=
    Processor.illegal_round (s := used) hhalted hmode htable hspace₂ hsettled hbad htrans₂ hop (onlyFile illegalFile)
  have hback : used.toWorld.store used.current { a.resident 0 0 with pageTable := table }
      ⟨used.registers, table, used.pageTableSize, used.vm.memory.mainMemory⟩ = used.toWorld :=
    World.store_self hspace₂ _ _
  rw [hback] at hs₄
  rw [hs₄] at hhandle₂
  rw [show used.registers nextPCReg = 4#32 from hnext] at hmode₂
  refine ⟨_, used, s₃, htrace₂, hmode, hinstr₂, hmode₂, hhandle₂, ?_⟩
  rintro (hhalt | hfinished | ⟨hsys, -⟩ | ⟨hfault, -⟩)
  · rw [show used.halted = false from hhalted] at hhalt
    cases hhalt
  · rw [show used.mode used.current = .user from hmode] at hfinished
    cases hfinished
  · cases hsys
  · cases hfault

end Nachos
