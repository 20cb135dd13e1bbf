import Nachos.Userprog.TrapProgress

/-! # The register file (`machine/mipssim.cc`, `machine/machine.cc`)

Instructions may name register `0` as their destination, and `DelayedLoad` stores through `LoadReg`.
`DelayedLoad` comes last in every cycle, sets register `0` to zero and is told the register of the load
that has just been decoded. At every instruction fetch register `0` holds zero and `LoadReg` holds the
number of a general register. -/
set_option autoImplicit false

namespace Nachos
open Buffer Execution Raising

variable {r r' : Registers} {w w' : World}

abbrev numGPRegs : ℕ := 32

/-- Register `0` holds zero, and the pending load goes to a general register. -/
structure RegisterFile (r : Registers) : Prop where
  zero : r 0 = 0#32
  nonneg : 0 ≤ (r loadReg).toInt
  lt : (r loadReg).toInt < numGPRegs

/-- `DelayedLoad` returns, and no register beyond the general ones changes but the two that hold the
pending load. -/
def StoresGeneral (r : Registers) : Prop :=
  ∀ nextReg nextValue, ∃ r', delayedLoad r nextReg nextValue = .ok r' ∧
    ∀ k, numGPRegs ≤ k → k ≠ loadReg → k ≠ loadValueReg → r' k = r k

theorem storesGeneral_of_lt (h : (r loadReg).toNat < numGPRegs) : StoresGeneral r := by
  intro nextReg nextValue
  refine ⟨_, delayedLoad_eq (Nat.lt_trans h (by decide)) nextReg nextValue, ?_⟩
  intro k hk hload hvalue
  exact loaded_of_ne _ _ (by omega) hvalue hload (by omega)

/-! ## One register file -/

namespace RegisterFile

theorem of_toNat (hzero : r 0 = 0#32) (hload : (r loadReg).toNat < 32) : RegisterFile r := by
  have hint : (r loadReg).toInt = (r loadReg).toNat := BitVec.toInt_eq_toNat_of_lt (by omega)
  exact ⟨hzero, by omega, by rw [hint]; exact_mod_cast hload⟩

theorem toNat_lt (h : RegisterFile r) : (r loadReg).toNat < numGPRegs := by
  have hint := BitVec.toInt_eq_toNat_cond (r loadReg)
  have hnonneg := h.nonneg
  have hlt := h.lt
  have hmax := (r loadReg).isLt
  split at hint <;> omega

theorem of_settled (h : Settled r) : RegisterFile r :=
  of_toNat h.zero (by rw [h.load]; decide)

theorem of_cycled {i size : ℕ} {a : AddrSpace} (h : w.Cycled r i size a w' r') : RegisterFile r' := by
  cases h with
  | done hdone =>
    have hends := (Cpu.mk r a.pageTable size w.vm.memory.mainMemory).oneInstruction_ends
    rw [hdone] at hends
    exact of_toNat hends.of_pure.zero hends.of_pure.load
  | raised _ hraise =>
    obtain ⟨r', hr, rfl⟩ := cpu_delayedLoad_eq_ok hraise
    exact of_settled (settled_of_delayedLoad hr)

theorem handled {which : ExceptionType} (h : RegisterFile r)
    (hhandled : w.Handled r which w' r') : RegisterFile r' := by
  cases hhandled with
  | returns sysRet =>
    have hzero : returnFromSyscall r sysRet 0 = r 0 := rfl
    have hload : returnFromSyscall r sysRet loadReg = r loadReg := rfl
    exact ⟨hzero.trans h.zero, by rw [hload]; exact h.nonneg, by rw [hload]; exact h.lt⟩
  | halt | finish _ | pageIn _ _ | unsupported _ => exact h

end RegisterFile

/-! ## The calls of `DelayedLoad` in a cycle -/

/-- `DelayedLoad` is called at the end of an instruction, or on the way into the handler. -/
structure Cpu.StoresGeneral (s : Cpu) : Prop where
  atEnd : ∀ instr s' e, s.fetch = pure (instr, s') → s'.execute instr = pure e → Nachos.StoresGeneral e.cpu.registers
  atRaise : ∀ x, s.oneInstruction = raise x → Nachos.StoresGeneral (x.cpu.set badVAddrReg x.badVAddr).registers

/-- No instruction changes `LoadReg` before that. -/
theorem RegisterFile.storesGeneral {s : Cpu} (h : RegisterFile s.registers) : s.StoresGeneral where
  atEnd instr s' e hfetch hexecute := by
    have hends := s.fetch_ends (T := fun _ => True)
    rw [hfetch] at hends
    obtain ⟨⟨value, hinstr⟩, hregisters, -⟩ := hends.of_pure
    dsimp only at hinstr hregisters
    have hsound := s'.execute_ends (Cpu.decode_fields value)
    rw [← hinstr, hexecute] at hsound
    apply storesGeneral_of_lt
    rw [hsound.of_pure.control loadReg (by decide), hregisters]
    exact h.toNat_lt
  atRaise x hx := by
    have hends := s.oneInstruction_ends
    rw [hx] at hends
    have hset : (x.cpu.set badVAddrReg x.badVAddr).registers loadReg = x.cpu.registers loadReg := rfl
    apply storesGeneral_of_lt
    rw [hset, hends.of_raise.registers]
    exact h.toNat_lt

/-! ## Threads that have registers of their own -/

/-- The registers of every thread that has been through `InitRegisters`. -/
def ContextsOk (A : Threads) : Prop := ∀ t, (A.mode t).hasContext = true → RegisterFile (A.registers t)

section Steps

variable {A : Threads}

theorem ContextsOk.put (h : ContextsOk A) (hother : ∀ t, t ≠ A.current → w.mode t = A.mode t)
    (hr : RegisterFile r) : ContextsOk (A.put w r) := by
  intro t ht
  change (w.mode t).hasContext = true at ht
  change RegisterFile (Function.update A.registers A.current r t)
  by_cases hcur : t = A.current
  · subst hcur
    rw [Function.update_self]
    exact hr
  · rw [Function.update_of_ne hcur]
    exact h t (by rw [← hother t hcur]; exact ht)

theorem ContextsOk.step (A : Threads) (e : Event) (A' : Threads) (h : ContextsOk A) (hstep : A.Step e A') :
    ContextsOk A' := by
  cases e with
  | instruction =>
    obtain ⟨-, -, a, w, r, -, hcycle, rfl⟩ := hstep
    obtain ⟨b, -, hcycled⟩ := World.cycle_eq_ok hcycle
    exact h.put hcycled.current.2.2 (.of_cycled hcycled)
  | interrupt =>
    obtain ⟨-, hstep⟩ := hstep
    split at hstep
    · obtain ⟨r, hr, rfl⟩ := hstep
      exact h.put (fun _ _ => rfl) (.of_settled (settled_of_delayedLoad hr))
    · rw [hstep]
      exact h
  | switchTo next =>
    obtain ⟨-, rfl⟩ := hstep
    intro t ht
    exact h t (by rw [← (switchTo_mode ht).1]; exact ht)
  | initRegisters =>
    obtain ⟨-, -, a, -, rfl⟩ := hstep
    exact h.put (fun t ht => World.enter_mode_of_ne _ _ ht) (.of_settled (initRegisters_settled _))
  | restoreState =>
    obtain ⟨-, hmode, rfl⟩ := hstep
    intro t ht
    by_cases hcur : t = A.current
    · exact h t (by rw [hcur, hmode]; rfl)
    · exact h t (by rw [← World.enter_mode_of_ne _ .user hcur]; exact ht)
  | work op =>
    obtain ⟨-, w, ⟨-, -, vm, -, rfl⟩, rfl⟩ := hstep
    exact h
  | handle fs sysRet =>
    obtain ⟨-, which, badVAddr, nextPC, hmode, fuel, w, r, hhandle, rfl⟩ := hstep
    have hhandled := World.handle_eq_ok hhandle
    have hcontext := h A.current (by rw [hmode]; rfl)
    exact h.put hhandled.mode_of_ne (hcontext.handled hhandled)

end Steps

theorem contextsOk_start (A : Threads) (h : A.Start) : ContextsOk A := by
  intro t ht
  rw [h.mode t] at ht
  split at ht <;> cases ht

theorem contextsOk_of_trace {events : List Event} {A : Threads} (h : Trace Threads.Start Threads.Step events A) :
    ContextsOk A :=
  h.invariant ContextsOk contextsOk_start ContextsOk.step

/-! ## The machine in kernel mode

An interrupt applies `DelayedLoad` to the machine's registers whatever thread is current. Threads without a
program leave there what they have found. -/

/-- `StartProcess` gives the current thread an address space, and `Exec` a thread that has not run. -/
def Processor.OwnSpaces (s : Processor) (e : Event) : Prop :=
  ∀ fs i junk words name, e = .work (.call ⟨fs, .construct i junk words name⟩) → i = s.current ∨ s.mode i = .fresh

structure MachineOk (s : Processor) : Prop where
  machine : RegisterFile s.registers
  saved : ∀ t, t ≠ s.current → s.mode t ≠ .fresh → s.vm.spaces t ≠ none → RegisterFile (s.userRegisters t)

theorem keepsUsed_noSpace (fs : Programs) (fuel t : ℕ) :
    Vm.KeepsUsed (loadPage fs fuel) fun s => s.spaces t = none where
  load _ _ _ _ _ a' m' h ha _ := Vm.set_spaces_of_none ha h a' m'
  bytes _ _ h := h
  touch _ _ _ _ _ h ha _ := Vm.set_spaces_of_none ha h _ _

/-- Only the constructor gives a thread an address space. -/
theorem LifeStep.noSpace {s s' : Vm} {op : LifeOp} (h : LifeStep s op s') {t : ℕ} (hnone : s.spaces t = none)
    (hop : ∀ fs junk words name, op ≠ .call ⟨fs, .construct t junk words name⟩) : s'.spaces t = none := by
  cases op with
  | call q =>
    obtain ⟨⟨fuel, result, hstep⟩, -⟩ := h
    by_cases hbuild : ∃ i junk words name, q.op = .construct i junk words name
    · obtain ⟨i, junk, words, name, hbuild⟩ := hbuild
      have hne : t ≠ i := by
        rintro rfl
        apply hop q.fs junk words name
        rw [← hbuild]
      rw [hbuild] at hstep
      obtain ⟨a, -, hstep⟩ := bind_eq_ok.mp hstep
      cases hstep
      rw [Vm.set_spaces_of_ne s hne]
      exact hnone
    · have hused : ∀ i junk words name, q.op ≠ .construct i junk words name := by
        intro i junk words name heq
        exact hbuild ⟨i, junk, words, name, heq⟩
      exact (keepsUsed_noSpace q.fs fuel t).step hnone hused hstep
  | terminate i =>
    obtain ⟨a, -, rfl⟩ := h
    by_cases hne : t = i
    · rw [hne]
      exact terminate_spaces s i
    · rw [terminate_spaces_of_ne s hne]
      exact hnone

section Steps

variable {s : Processor}

/-- A step of the current thread that leaves the other threads as they are. -/
theorem MachineOk.put (h : MachineOk s) (hcurrent : w.current = s.current)
    (hmode : ∀ t, t ≠ s.current → w.mode t = s.mode t)
    (hspaces : ∀ t, s.vm.spaces t = none → t = s.current ∨ s.mode t = .fresh ∨ w.vm.spaces t = none)
    (hr : RegisterFile r) : MachineOk { s with toWorld := w, registers := r } where
  machine := hr
  saved t hne hfresh hspace := by
    change t ≠ w.current at hne
    rw [hcurrent] at hne
    change w.mode t ≠ .fresh at hfresh
    rw [hmode t hne] at hfresh
    apply h.saved t hne hfresh
    intro hnone
    rcases hspaces t hnone with hcur | hfresh' | hnone'
    · exact hne hcur
    · exact hfresh hfresh'
    · exact hspace hnone'

theorem World.Cycled.noSpace {i size t : ℕ} {a : AddrSpace} (ha : w.vm.spaces i = some a)
    (h : w.Cycled r i size a w' r') (hnone : w.vm.spaces t = none) : w'.vm.spaces t = none := by
  cases h with
  | done _ | raised _ _ => exact Vm.set_spaces_of_none ha hnone _ _

theorem World.Handled.noSpace {which : ExceptionType} (h : w.Handled r which w' r') {t : ℕ}
    (hnone : w.vm.spaces t = none) : w'.vm.spaces t = none := by
  cases h with
  | pageIn ha hload => exact Vm.set_spaces_of_none ha hnone _ _
  | halt | finish _ | returns _ | unsupported _ => exact hnone

theorem saveUserState_registers (s : Processor) : s.saveUserState.registers = s.registers := by
  unfold Processor.saveUserState
  split <;> rfl

theorem run_registers_of_fresh (s : Processor) {next : ℕ} (hfresh : s.mode next = .fresh) :
    (s.run next).registers = s.registers := by
  unfold Processor.run
  dsimp only
  rw [saveUserState_toWorld, hfresh]
  exact saveUserState_registers s

theorem run_registers_of_noSpace (s : Processor) {next : ℕ} (hnone : s.vm.spaces next = none) :
    (s.run next).registers = s.registers := by
  unfold Processor.run
  dsimp only
  rw [saveUserState_toWorld]
  split
  · exact saveUserState_registers s
  · unfold Processor.resume
    rw [show World.space (s.toWorld.switchTo next) = none from hnone]
    exact saveUserState_registers s

theorem MachineOk.switchTo (h : MachineOk s) (next : ℕ) : MachineOk (s.run next) := by
  have hworld := run_toWorld s next
  have hcurrent : (s.run next).current = next := congrArg World.current hworld
  have hvm : (s.run next).vm = (s.toWorld.switchTo next).vm := congrArg World.vm hworld
  have hmode : (s.run next).mode = (s.toWorld.switchTo next).mode := congrArg World.mode hworld
  refine ⟨?_, ?_⟩
  · by_cases hfresh : s.mode next = .fresh
    · rw [run_registers_of_fresh s hfresh]
      exact h.machine
    · cases hspace : s.vm.spaces next with
      | none =>
        rw [run_registers_of_noSpace s hspace]
        exact h.machine
      | some a =>
        rw [(run_resumes s hfresh hspace).1]
        unfold Processor.context
        split
        · exact h.machine
        · next hne => exact h.saved next hne hfresh (by rw [hspace]; exact Option.some_ne_none a)
  · intro t ht hfresh hspace
    rw [hcurrent] at ht
    rw [hvm] at hspace
    change s.vm.spaces t ≠ none at hspace
    have hsame : (s.toWorld.switchTo next).mode t = s.mode t := by
      unfold World.switchTo
      dsimp only
      split
      · exact Function.update_of_ne ht _ _
      · rfl
    rw [hmode, hsame] at hfresh
    rw [run_userRegisters]
    by_cases hcur : t = s.current
    · subst hcur
      obtain ⟨a, ha⟩ := Option.ne_none_iff_exists'.mp hspace
      rw [saveUserState_current s ha]
      exact h.machine
    · rw [saveUserState_of_ne s hcur]
      exact h.saved t hcur hfresh hspace

theorem MachineOk.step (s : Processor) (e : Event) (s' : Processor) (h : MachineOk s) (hown : s.OwnSpaces e)
    (hstep : s.Step e s') : MachineOk s' := by
  cases e with
  | instruction =>
    obtain ⟨-, -, i, w, r, -, hcycle, rfl⟩ := hstep
    obtain ⟨a, ha, hcycled⟩ := World.cycle_eq_ok hcycle
    exact h.put hcycled.current.1 hcycled.current.2.2 (fun t hnone => .inr (.inr (hcycled.noSpace ha hnone)))
      (.of_cycled hcycled)
  | interrupt =>
    obtain ⟨-, r, hr, rfl⟩ := hstep
    exact ⟨.of_settled (settled_of_delayedLoad hr), h.saved⟩
  | switchTo next =>
    obtain ⟨-, rfl⟩ := hstep
    exact h.switchTo next
  | initRegisters =>
    obtain ⟨-, -, a, -, rfl⟩ := hstep
    exact h.put rfl (fun t ht => World.enter_mode_of_ne _ _ ht) (fun t hnone => .inr (.inr hnone))
      (.of_settled (initRegisters_settled _))
  | restoreState =>
    obtain ⟨-, -, a, -, rfl⟩ := hstep
    have hput := h.put (w := s.enter .user) rfl (fun t ht => World.enter_mode_of_ne _ _ ht)
      (fun t hnone => .inr (.inr hnone)) h.machine
    exact ⟨hput.machine, hput.saved⟩
  | work op =>
    obtain ⟨-, w, ⟨-, -, vm, hlife, rfl⟩, rfl⟩ := hstep
    refine h.put (w := { s.toWorld with vm := vm }) rfl (fun _ _ => rfl) ?_ h.machine
    intro t hnone
    by_cases hbuild : ∃ fs junk words name, op = .call ⟨fs, .construct t junk words name⟩
    · obtain ⟨fs, junk, words, name, rfl⟩ := hbuild
      rcases hown fs t junk words name rfl with hcur | hfresh
      · exact .inl hcur
      · exact .inr (.inl hfresh)
    · refine .inr (.inr (hlife.noSpace hnone ?_))
      intro fs junk words name hop
      exact hbuild ⟨fs, junk, words, name, hop⟩
  | handle fs sysRet =>
    obtain ⟨-, which, badVAddr, nextPC, -, fuel, w, r, hhandle, rfl⟩ := hstep
    have hhandled := World.handle_eq_ok hhandle
    exact h.put hhandled.current hhandled.mode_of_ne (fun t hnone => .inr (.inr (hhandled.noSpace hnone)))
      (h.machine.handled hhandled)

end Steps

theorem machineOk_start (s : Processor) (h : s.Start) : MachineOk s where
  machine := .of_settled ⟨h.2.1 _, h.2.1 _, h.2.1 _⟩
  saved t _ _ hspace := absurd (h.1.booted.spaces t) hspace

/-! ## Every fetch -/

/-- In every run, while a program is between `InitRegisters` and its end the machine's register `0` is zero
and the pending load goes to a general register. So it is at every instruction fetch, and no `DelayedLoad`
of the cycle, or of an interrupt, stores anywhere else. Kernel threads do not change that. -/
theorem registerFile_of_trace {events : List Event} {s : Processor}
    (h : Trace Processor.Start Processor.Step events s) :
    ((s.mode s.current).hasContext = true → s.registers 0 = 0#32 ∧ 0 ≤ (s.registers loadReg).toInt ∧
      (s.registers loadReg).toInt < numGPRegs ∧ StoresGeneral s.registers) ∧
    (s.mode s.current = .user → ∀ cpu : Cpu, cpu.registers = s.registers → cpu.StoresGeneral) ∧
    (Reachable Processor.Start Processor.Step Processor.OwnSpaces s → StoresGeneral s.registers) := by
  obtain ⟨A, hA, hagrees⟩ := exists_agrees h
  have hcontexts := contextsOk_of_trace hA
  have hcontext : (s.mode s.current).hasContext = true → RegisterFile s.registers := by
    intro hmode
    rw [← hagrees.registers hmode]
    exact hcontexts _ (by rw [hagrees.world]; exact hmode)
  refine ⟨?_, ?_, ?_⟩
  · intro hmode
    have hok := hcontext hmode
    exact ⟨hok.zero, hok.nonneg, hok.lt, storesGeneral_of_lt hok.toNat_lt⟩
  · intro huser cpu hcpu
    have hok := hcontext (by rw [huser]; rfl)
    rw [← hcpu] at hok
    exact hok.storesGeneral
  · intro hreach
    have hok := hreach.invariant MachineOk machineOk_start MachineOk.step
    exact storesGeneral_of_lt hok.machine.toNat_lt

/-- `lw $8, 0($0)`: the program loads its own instruction. -/
def loadFile : Executable where
  bytes := [0xad, 0xdf, 0xba, 0] ++ [0, 0, 0, 0, 40, 0, 0, 0, 4, 0, 0, 0] ++ List.replicate 24 0 ++ [0, 0, 8, 0x8c]
  fits := by decide

theorem load_oneInstruction : OneInstruction loadFile [0, 0, 8, 0x8c] := ⟨rfl, rfl, fun _ _ => rfl⟩

theorem oneInstruction_lw {s : Cpu} {word : BitVec 32} {table table' : PageTable} {phys phys' : ℕ}
    (hfetch : translate s.pageTable s.pageTableSize (s.registers pcReg).toInt 4 false = .ok (.ok (phys, table)))
    (hword : wordAt s.mainMemory phys = word) (hop : (decode word).opCode = .lw) {addr : BitVec 32}
    (haddr : s.registers (decode word).rs + (decode word).extra = addr) (haligned : addr &&& 3#32 = 0#32)
    (hdata : translate table s.pageTableSize addr.toInt 4 false = .ok (.ok (phys', table')))
    (hsettled : Settled s.registers) :
    ∃ u, s.oneInstruction = pure u ∧ u.registers loadReg = BitVec.ofNat 32 (decode word).rt ∧
      u.registers loadValueReg = wordAt s.mainMemory phys' := by
  have hread := @Cpu.readMem_word _ _ _ { s with pageTable := table } hdata
  have hrun : Cpu.execute { s with pageTable := table } (decode word) =
      pure (Cpu.load { s with pageTable := table' } (decode word).rt (wordAt s.mainMemory phys')) := by
    unfold Cpu.execute
    rw [hop]
    dsimp only
    rw [haddr, if_neg (not_not.mpr haligned)]
    unfold Cpu.loadWith
    rw [hread]
    rfl
  have hfetched := Cpu.fetch_mapped hfetch
  rw [hword] at hfetched
  have hload := (Cpu.oneInstruction_of_fetch hfetched).2.2 _ hrun
  have hrange : (s.registers loadReg).toNat < numTotalRegs := by
    rw [hsettled.load]
    decide
  have hdelayed := delayedLoad_eq hrange (BitVec.ofNat 32 (decode word).rt) (wordAt s.mainMemory phys')
  have hcpu := @cpu_delayedLoad_eq _ _ { s with pageTable := table' } _ hdelayed
  unfold Cpu.finish at hload
  simp only [Cpu.load, hcpu, ok_bind] at hload
  exact ⟨_, hload, rfl, rfl⟩

theorem registerFile_pendingLoad : ∃ (events : List Event) (s : Processor),
    Trace Processor.Start Processor.Step events s ∧ s.mode s.current = .user ∧ s.registers loadReg = 8#32 ∧
      s.registers loadValueReg = 0x8c080000#32 ∧ s.registers 0 = 0#32 ∧ 0 ≤ (s.registers loadReg).toInt ∧
      (s.registers loadReg).toInt < 32 ∧ ∀ cpu : Cpu, cpu.registers = s.registers → cpu.StoresGeneral := by
  obtain ⟨events, s₀, s, a, htrace, -, hstep, hhalted, hmode, htable, hspace, habsent, hsize, hregisters, hword⟩ :=
    exists_firstInstruction load_oneInstruction
  have hsettled : Settled s.registers := by
    rw [hregisters]
    exact initRegisters_settled 9
  have hpc : (s.registers pcReg).toInt = (0 : ℕ) := by
    rw [hregisters]
    rfl
  have hfetch := translate_first (resident_entry habsent)
  have hdata := @translate_first (Function.update (a.resident 0 0).pageTable 0 (((a.resident 0 0).pageTable 0).touched false))
    true (by simp only [Function.update_self, resident_entry habsent]; rfl)
  rw [← hsize] at hfetch hdata
  rw [← hpc] at hfetch
  have haddr : s.registers (decode 0x8c080000#32).rs + (decode 0x8c080000#32).extra = 0#32 := by
    rw [hregisters]
    decide
  obtain ⟨u, hdone, hload, hvalue⟩ := oneInstruction_lw
    (s := ⟨s.registers, (a.resident 0 0).pageTable, s.pageTableSize, s.vm.memory.mainMemory⟩) hfetch hword (by decide)
    haddr (by decide) hdata hsettled
  have hcycle : s.Step .instruction { s with toWorld := s.store s.current (a.resident 0 0) u, registers := u.registers } := by
    refine ⟨hhalted, hmode, s.current, _, _, htable, ?_, rfl⟩
    unfold World.cycle
    rw [show s.vm.spaces s.current = some _ from hspace]
    dsimp only
    rw [hdone]
    rfl
  have hrun := (htrace.next hstep).next hcycle
  obtain ⟨hcontext, hstores, -⟩ := registerFile_of_trace hrun
  obtain ⟨hzero, hnonneg, hlt, -⟩ := hcontext (congrArg Mode.hasContext hmode)
  exact ⟨_, _, hrun, hmode, hload, hvalue.trans hword, hzero, hnonneg, hlt, hstores hmode⟩

end Nachos
