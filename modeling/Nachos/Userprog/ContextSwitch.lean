import Nachos.Userprog.Exception

/-! # Context switches (`threads/scheduler.cc`, `threads/thread.cc`)

There is one set of machine registers and one page table register for all threads. `Scheduler::Run` saves
and restores them, but a thread that runs for the first time restores nothing, and an interrupt applies the
delayed load to whatever is in the machine. `Threads` is the machine that the threads are meant to see:
each has registers and a page table of its own, and no switch touches them. Every run of the kernel is, step
by step, a run of it. -/
set_option autoImplicit false

namespace Nachos
open Buffer Execution

variable {r r' : Registers} {w w' : World} {a : AddrSpace} {fs : Programs} {next : ℕ}

inductive Event where
  | instruction
  | interrupt
  | switchTo (next : ℕ)
  | initRegisters
  | restoreState
  | work (op : LifeOp)
  | handle (fs : Programs) (sysRet : BitVec 32)

/-! ## The kernel -/

/-- `tableOf` is the thread whose page table `machine->pageTable` points to. -/
structure Processor extends World where
  registers : Registers
  tableOf : Option ℕ
  pageTableSize : ℕ
  userRegisters : ℕ → Registers

namespace Processor

/-- `AddrSpace::RestoreState`. -/
def restoreState (s : Processor) (a : AddrSpace) : Processor :=
  { s with tableOf := some s.current, pageTableSize := a.numPages }

/-- `Thread::SaveUserState`, for a thread that has an address space. -/
def saveUserState (s : Processor) : Processor :=
  match s.space with
  | none => s
  | some _ => { s with userRegisters := Function.update s.userRegisters s.current s.registers }

/-- The end of `Scheduler::Run`, in the thread that is switched to. -/
def resume (s : Processor) : Processor :=
  match s.space with
  | none => s
  | some a => { s with registers := s.userRegisters s.current }.restoreState a

/-- `Scheduler::Run`. -/
def run (s : Processor) (next : ℕ) : Processor :=
  let s := s.saveUserState
  let s' := { s with toWorld := s.switchTo next }
  match s.mode next with
  | .fresh => s'
  | _ => s'.resume

def Step (s : Processor) : Event → Processor → Prop
  | .instruction, s' => s.halted = false ∧ s.mode s.current = .user ∧
      ∃ i w r, s.tableOf = some i ∧ s.cycle s.registers i s.pageTableSize = .ok (w, r) ∧
        s' = { s with toWorld := w, registers := r }
  | .interrupt, s' => s.halted = false ∧
      ∃ r, delayedLoad s.registers 0#32 0#32 = .ok r ∧ s' = { s with registers := r }
  | .switchTo next, s' => s.halted = false ∧ s' = s.run next
  | .initRegisters, s' => s.halted = false ∧ s.mode s.current = .starting ∧
      ∃ a, s.space = some a ∧ s' = { s with toWorld := s.enter .loaded, registers := Nachos.initRegisters a.numPages }
  | .restoreState, s' => s.halted = false ∧ s.mode s.current = .loaded ∧
      ∃ a, s.space = some a ∧ s' = { s.restoreState a with toWorld := s.enter .user }
  | .work op, s' => s.halted = false ∧ ∃ w, s.Works op w ∧ s' = { s with toWorld := w }
  | .handle fs sysRet, s' => s.halted = false ∧
      ∃ which badVAddr nextPC, s.mode s.current = .handling which badVAddr nextPC ∧
        ∃ fuel w r, s.toWorld.handle fs fuel sysRet s.registers which = .ok (w, r) ∧
          s' = { s with toWorld := w, registers := r }

end Processor

def Processor.Start (s : Processor) : Prop := s.toWorld.Start ∧ (∀ k, s.registers k = 0#32) ∧ s.tableOf = none

/-! ## A processor for each thread -/

structure Threads extends World where
  registers : ℕ → Registers

namespace Threads

/-- The current thread has new registers. -/
def put (s : Threads) (w : World) (r : Registers) : Threads :=
  ⟨w, Function.update s.registers s.current r⟩

def Step (s : Threads) : Event → Threads → Prop
  | .instruction, s' => s.halted = false ∧ s.mode s.current = .user ∧
      ∃ a w r, s.space = some a ∧ s.cycle (s.registers s.current) s.current a.numPages = .ok (w, r) ∧ s' = s.put w r
  -- the pending load of a user program is completed; in the kernel there is none
  | .interrupt, s' => s.halted = false ∧
      if s.mode s.current = .user then
        ∃ r, delayedLoad (s.registers s.current) 0#32 0#32 = .ok r ∧ s' = s.put s.toWorld r
      else s' = s
  | .switchTo next, s' => s.halted = false ∧ s' = ⟨s.toWorld.switchTo next, s.registers⟩
  | .initRegisters, s' => s.halted = false ∧ s.mode s.current = .starting ∧
      ∃ a, s.space = some a ∧ s' = s.put (s.enter .loaded) (Nachos.initRegisters a.numPages)
  | .restoreState, s' => s.halted = false ∧ s.mode s.current = .loaded ∧ s' = ⟨s.enter .user, s.registers⟩
  | .work op, s' => s.halted = false ∧ ∃ w, s.Works op w ∧ s' = ⟨w, s.registers⟩
  | .handle fs sysRet, s' => s.halted = false ∧
      ∃ which badVAddr nextPC, s.mode s.current = .handling which badVAddr nextPC ∧
        ∃ fuel w r, s.toWorld.handle fs fuel sysRet (s.registers s.current) which = .ok (w, r) ∧ s' = s.put w r

def Start (s : Threads) : Prop := s.toWorld.Start

end Threads

/-! ## Delayed loads in the kernel -/

/-- No load is pending. -/
structure Settled (r : Registers) : Prop where
  zero : r 0 = 0#32
  load : r loadReg = 0#32
  value : r loadValueReg = 0#32

/-- Then an interrupt changes nothing. -/
theorem Settled.delayedLoad (h : Settled r) : delayedLoad r 0#32 0#32 = .ok r := by
  have htarget : (r loadReg).toNat = 0 := by rw [h.load]; rfl
  rw [delayedLoad_eq (by rw [htarget]; decide), htarget]
  congr 1
  funext k
  unfold loaded
  split
  · next hk => rw [hk, h.zero]
  · split
    · next hk => rw [hk, h.value]
    · split
      · next hk => rw [hk, h.load]
      · rfl

theorem settled_of_delayedLoad (h : delayedLoad r 0#32 0#32 = .ok r') : Settled r' := by
  rw [delayedLoad_eq_ok h]
  exact ⟨rfl, rfl, rfl⟩

theorem initRegisters_settled (numPages : ℕ) : Settled (initRegisters numPages) := ⟨rfl, rfl, rfl⟩

/-! ## The refinement -/

namespace Mode

/-- The page table register is the thread's own while it runs. -/
def isMapped : Mode → Bool
  | user | handling _ _ _ => true
  | _ => false

/-- The thread has registers, and is in the kernel. -/
def inKernel : Mode → Bool
  | loaded | handling _ _ _ => true
  | _ => false

theorem hasContext_of_isMapped {m : Mode} (h : m.isMapped = true) : m.hasContext = true := by
  cases m with
  | user | handling => rfl
  | _ => cases h

theorem hasContext_of_inKernel {m : Mode} (h : m.inKernel = true) : m.hasContext = true := by
  cases m with
  | loaded | handling => rfl
  | _ => cases h

end Mode

/-- Where a thread's registers are: in the machine while it is the current one. -/
def Processor.context (s : Processor) (t : ℕ) : Registers := if t = s.current then s.registers else s.userRegisters t

structure Agrees (s : Processor) (A : Threads) : Prop where
  world : A.toWorld = s.toWorld
  sane : s.toWorld.Sane
  held : ∀ t, (s.mode t).hasContext = true → A.registers t = s.context t
  mapped : (s.mode s.current).isMapped = true →
    s.tableOf = some s.current ∧ s.vm.HasPages s.current s.pageTableSize
  settled : ∀ t, (s.mode t).inKernel = true → Settled (A.registers t)

section Steps

variable {s : Processor} {A : Threads}

theorem Agrees.registers (h : Agrees s A) (hmode : (s.mode s.current).hasContext = true) :
    A.registers s.current = s.registers := by
  rw [h.held _ hmode, Processor.context, if_pos rfl]

/-- The current thread takes a step on its registers. -/
theorem Agrees.act (h : Agrees s A) (hkeeps : s.toWorld.Keeps w) (hcurrent : w.current = s.current)
    (hother : ∀ t, t ≠ s.current → w.mode t = s.mode t)
    (hmapped : (w.mode s.current).isMapped = true → (s.mode s.current).isMapped = true)
    (hsettled : (w.mode s.current).inKernel = true → Settled r) :
    Agrees { s with toWorld := w, registers := r } (A.put w r) := by
  have hA : A.current = s.current := congrArg World.current h.world
  refine ⟨rfl, hkeeps.sane, ?_, ?_, ?_⟩
  · intro t ht
    unfold Threads.put Processor.context
    dsimp only
    rw [hA, hcurrent]
    by_cases hcur : t = s.current
    · rw [if_pos hcur, hcur, Function.update_self]
    · have hheld := h.held t (by rw [← hother t hcur]; exact ht)
      rw [Processor.context, if_neg hcur] at hheld
      rw [if_neg hcur, Function.update_of_ne hcur, hheld]
  · intro hmode
    dsimp only at hmode ⊢
    rw [hcurrent] at hmode ⊢
    obtain ⟨htable, hpages⟩ := h.mapped (hmapped hmode)
    exact ⟨htable, hkeeps.pages _ _ (Mode.hasContext_of_isMapped (hmapped hmode)) hpages⟩
  · intro t ht
    unfold Threads.put
    dsimp only at ht ⊢
    rw [hA]
    by_cases hcur : t = s.current
    · rw [hcur] at ht ⊢
      rw [Function.update_self]
      exact hsettled ht
    · rw [Function.update_of_ne hcur]
      exact h.settled t (by rw [← hother t hcur]; exact ht)

/-- An exception is entered with no load pending. -/
theorem World.Cycled.settled {i size : ℕ} (hmode : w.mode w.current = .user) (h : w.Cycled r i size a w' r')
    (hkernel : (w'.mode w.current).inKernel = true) : Settled r' := by
  cases h with
  | done _ =>
    rw [show (w.store i a _).mode w.current = .user from hmode] at hkernel
    cases hkernel
  | raised _ hraise =>
    obtain ⟨r, hr, rfl⟩ := cpu_delayedLoad_eq_ok hraise
    exact settled_of_delayedLoad hr

theorem World.Cycled.current {i size : ℕ} (h : w.Cycled r i size a w' r') :
    w'.current = w.current ∧ w'.halted = w.halted ∧ ∀ t, t ≠ w.current → w'.mode t = w.mode t := by
  cases h with
  | done _ => exact ⟨rfl, rfl, fun _ _ => rfl⟩
  | raised _ _ => exact ⟨rfl, rfl, fun t ht => enter_mode_of_ne _ _ ht⟩

theorem Agrees.instruction (h : Agrees s A) {s' : Processor} (hstep : s.Step .instruction s') :
    ∃ A', A.Step .instruction A' ∧ Agrees s' A' := by
  obtain ⟨hhalted, hmode, i, w, r, htable, hcycle, rfl⟩ := hstep
  have hmapped : (s.mode s.current).isMapped = true := by rw [hmode]; rfl
  have hcontext := Mode.hasContext_of_isMapped hmapped
  obtain ⟨htable', b, hb, hsize⟩ := h.mapped hmapped
  rw [htable'] at htable
  cases htable
  obtain ⟨a, ha, hcycled⟩ := World.cycle_eq_ok hcycle
  obtain ⟨hcurrent, -, hother⟩ := hcycled.current
  refine ⟨A.put w r, ⟨?_, ?_, b, w, r, ?_, ?_, rfl⟩, ?_⟩
  · rw [h.world]
    exact hhalted
  · rw [h.world]
    exact hmode
  · rw [h.world]
    exact hb
  · rw [h.world, h.registers hcontext, hsize]
    exact hcycle
  · exact h.act (h.sane.cycled ha hcontext hcycled) hcurrent hother (fun _ => hmapped) (hcycled.settled hmode)

theorem Agrees.handle (h : Agrees s A) {sysRet : BitVec 32} {s' : Processor}
    (hstep : s.Step (.handle fs sysRet) s') : ∃ A', A.Step (.handle fs sysRet) A' ∧ Agrees s' A' := by
  obtain ⟨hhalted, which, badVAddr, nextPC, hmode, fuel, w, r, hhandle, rfl⟩ := hstep
  have hcontext : (s.mode s.current).hasContext = true := by rw [hmode]; rfl
  have hkernel : (s.mode s.current).inKernel = true := by rw [hmode]; rfl
  have hhandled := World.handle_eq_ok hhandle
  refine ⟨A.put w r, ⟨?_, which, badVAddr, nextPC, ?_, fuel, w, r, ?_, rfl⟩, ?_⟩
  · rw [h.world]
    exact hhalted
  · rw [h.world]
    exact hmode
  · rw [h.world, h.registers hcontext]
    exact hhandle
  · have hkeeps := h.sane.handled hcontext hhandled
    have hsettled := h.settled _ hkernel
    rw [h.registers hcontext] at hsettled
    have hmapped : (s.mode s.current).isMapped = true := by rw [hmode]; rfl
    apply h.act hkeeps hhandled.current hhandled.mode_of_ne (fun _ => hmapped)
    intro hkernel'
    cases hhandled with
    | returns _ =>
      rw [World.enter_mode] at hkernel'
      cases hkernel'
    | halt | finish _ | pageIn _ _ | unsupported _ => exact hsettled

theorem Agrees.interrupt (h : Agrees s A) {s' : Processor} (hstep : s.Step .interrupt s') :
    ∃ A', A.Step .interrupt A' ∧ Agrees s' A' := by
  obtain ⟨hhalted, r, hload, rfl⟩ := hstep
  by_cases huser : s.mode s.current = .user
  · have hcontext : (s.mode s.current).hasContext = true := by rw [huser]; rfl
    refine ⟨A.put s.toWorld r, ⟨?_, ?_⟩, ?_⟩
    · rw [h.world]
      exact hhalted
    · rw [if_pos (by rw [h.world]; exact huser)]
      refine ⟨r, ?_, ?_⟩
      · rw [h.world, h.registers hcontext]
        exact hload
      · rw [h.world]
    · apply h.act h.sane.keeps rfl (fun _ _ => rfl) id
      intro hkernel
      rw [huser] at hkernel
      cases hkernel
  · refine ⟨A, ⟨?_, ?_⟩, ?_⟩
    · rw [h.world]
      exact hhalted
    · rw [if_neg (by rw [h.world]; exact huser)]
    · refine ⟨h.world, h.sane, ?_, h.mapped, h.settled⟩
      intro t ht
      rw [h.held t ht]
      unfold Processor.context
      split
      · next hcur =>
        subst hcur
        have hkernel : (s.mode s.current).inKernel = true := by
          cases hm : s.mode s.current with
          | user => exact absurd hm huser
          | loaded | handling => rfl
          | fresh | starting | finished =>
            rw [show ({ s with registers := r } : Processor).mode s.current = s.mode s.current from rfl, hm] at ht
            cases ht
        have hsettled := h.settled _ hkernel
        rw [h.registers ht] at hsettled
        rw [hsettled.delayedLoad] at hload
        exact Except.ok.inj hload
      · rfl

theorem Agrees.initRegisters (h : Agrees s A) {s' : Processor} (hstep : s.Step .initRegisters s') :
    ∃ A', A.Step .initRegisters A' ∧ Agrees s' A' := by
  obtain ⟨hhalted, hmode, a, ha, rfl⟩ := hstep
  refine ⟨A.put (s.enter .loaded) (Nachos.initRegisters a.numPages), ⟨?_, ?_, a, ?_, ?_⟩, ?_⟩
  · rw [h.world]
    exact hhalted
  · rw [h.world]
    exact hmode
  · rw [h.world]
    exact ha
  · rw [h.world]
  · apply h.act (h.sane.keeps.enter fun _ => ⟨_, a, ha, rfl⟩) rfl (fun t ht => World.enter_mode_of_ne _ _ ht)
    · intro hmapped
      rw [World.enter_mode] at hmapped
      cases hmapped
    · intro _
      exact initRegisters_settled _

theorem Agrees.restoreState (h : Agrees s A) {s' : Processor} (hstep : s.Step .restoreState s') :
    ∃ A', A.Step .restoreState A' ∧ Agrees s' A' := by
  obtain ⟨hhalted, hmode, a, ha, rfl⟩ := hstep
  refine ⟨⟨s.enter .user, A.registers⟩, ⟨?_, ?_, ?_⟩, ?_⟩
  · rw [h.world]
    exact hhalted
  · rw [h.world]
    exact hmode
  · rw [h.world]
  · have hheld : ∀ t, ((s.enter .user).mode t).hasContext = true → (s.mode t).hasContext = true := by
      intro t ht
      by_cases hcur : t = s.current
      · rw [hcur, hmode]
        rfl
      · rwa [s.enter_mode_of_ne _ hcur] at ht
    refine ⟨rfl, (h.sane.keeps.enter fun _ => ⟨_, a, ha, rfl⟩).sane, fun t ht => h.held t (hheld t ht), ?_, ?_⟩
    · intro _
      exact ⟨rfl, a, ha, rfl⟩
    · intro t ht
      by_cases hcur : t = s.current
      · rw [hcur] at ht
        change ((s.enter .user).mode s.current).inKernel = true at ht
        rw [World.enter_mode] at ht
        cases ht
      · change ((s.enter .user).mode t).inKernel = true at ht
        rw [s.enter_mode_of_ne _ hcur] at ht
        exact h.settled t ht

theorem Agrees.work (h : Agrees s A) {op : LifeOp} {s' : Processor} (hstep : s.Step (.work op) s') :
    ∃ A', A.Step (.work op) A' ∧ Agrees s' A' := by
  obtain ⟨hhalted, w, hworks, rfl⟩ := hstep
  have hkeeps := h.sane.works hworks
  refine ⟨⟨w, A.registers⟩, ⟨?_, w, ?_, rfl⟩, ?_⟩
  · rw [h.world]
    exact hhalted
  · rw [h.world]
    exact hworks
  · obtain ⟨-, -, vm, -, rfl⟩ := hworks
    refine ⟨rfl, hkeeps.sane, h.held, ?_, h.settled⟩
    intro hmapped
    obtain ⟨htable, hpages⟩ := h.mapped hmapped
    exact ⟨htable, hkeeps.pages _ _ (Mode.hasContext_of_isMapped hmapped) hpages⟩

theorem saveUserState_toWorld (s : Processor) : s.saveUserState.toWorld = s.toWorld := by
  unfold Processor.saveUserState
  split <;> rfl

theorem saveUserState_of_ne (s : Processor) {t : ℕ} (ht : t ≠ s.current) :
    s.saveUserState.userRegisters t = s.userRegisters t := by
  unfold Processor.saveUserState
  split
  · rfl
  · exact Function.update_of_ne ht _ _

theorem saveUserState_current (s : Processor) (ha : s.space = some a) :
    s.saveUserState.userRegisters s.current = s.registers := by
  unfold Processor.saveUserState
  rw [ha]
  exact Function.update_self _ _ _

theorem resume_toWorld (s : Processor) : s.resume.toWorld = s.toWorld := by
  unfold Processor.resume
  split <;> rfl

theorem resume_userRegisters (s : Processor) : s.resume.userRegisters = s.userRegisters := by
  unfold Processor.resume
  split <;> rfl

theorem run_toWorld (s : Processor) (next : ℕ) : (s.run next).toWorld = s.toWorld.switchTo next := by
  unfold Processor.run
  dsimp only
  split
  · rw [saveUserState_toWorld]
  · rw [resume_toWorld, saveUserState_toWorld]

theorem run_userRegisters (s : Processor) (next : ℕ) : (s.run next).userRegisters = s.saveUserState.userRegisters := by
  unfold Processor.run
  dsimp only
  split
  · rfl
  · rw [resume_userRegisters]

/-- A thread with an address space that has run before gets its registers and its page table back, also when
it is woken while it is itself looking for the next thread. -/
theorem run_resumes (s : Processor) (hmode : s.mode next ≠ .fresh) (ha : s.vm.spaces next = some a) :
    (s.run next).registers = s.context next ∧ (s.run next).tableOf = some next ∧
      (s.run next).pageTableSize = a.numPages := by
  have hsave : s.saveUserState.userRegisters next = s.context next := by
    unfold Processor.context
    split
    · next hcur =>
      subst hcur
      exact saveUserState_current s ha
    · next hne => exact saveUserState_of_ne s hne
  unfold Processor.run
  dsimp only
  rw [saveUserState_toWorld]
  split
  · next hfresh => exact absurd hfresh hmode
  · unfold Processor.resume
    rw [show World.space (s.toWorld.switchTo next) = some a from ha]
    exact ⟨hsave, rfl, rfl⟩

/-- A switch makes no thread enter user mode or the handler. -/
theorem switchTo_mode {t : ℕ} (h : ((w.switchTo next).mode t).hasContext = true) :
    (w.switchTo next).mode t = w.mode t ∧ (t = next → w.mode next ≠ .fresh) := by
  unfold World.switchTo at h ⊢
  dsimp only at h ⊢
  split
  · next hfresh =>
    rw [if_pos hfresh] at h
    by_cases hnext : t = next
    · rw [hnext, Function.update_self] at h
      cases h
    · exact ⟨Function.update_of_ne hnext _ _, fun heq => absurd heq hnext⟩
  · next hfresh => exact ⟨rfl, fun _ => hfresh⟩

theorem Agrees.switchTo (h : Agrees s A) {s' : Processor} (hstep : s.Step (.switchTo next) s') :
    ∃ A', A.Step (.switchTo next) A' ∧ Agrees s' A' := by
  obtain ⟨hhalted, rfl⟩ := hstep
  have hworld := run_toWorld s next
  have hmode : (s.run next).mode = (s.toWorld.switchTo next).mode := congrArg World.mode hworld
  have hcurrent : (s.run next).current = next := congrArg World.current hworld
  have hkeeps := h.sane.switchTo next
  -- what the next thread gets back, if it has registers to get back
  have hresumes : (s.mode next).hasContext = true → ∃ a, s.vm.spaces next = some a ∧
      (s.run next).registers = s.context next ∧ (s.run next).tableOf = some next ∧
        (s.run next).pageTableSize = a.numPages := by
    intro hnext
    obtain ⟨n, a, ha, -⟩ := h.sane.spaces next hnext
    refine ⟨a, ha, run_resumes s ?_ ha⟩
    intro hfresh
    rw [hfresh] at hnext
    cases hnext
  refine ⟨⟨s.toWorld.switchTo next, A.registers⟩, ⟨?_, ?_⟩, hworld.symm, ?_, ?_, ?_, ?_⟩
  · rw [h.world]
    exact hhalted
  · rw [h.world]
  · rw [hworld]
    exact hkeeps.sane
  · intro t ht
    rw [hmode] at ht
    have hsame := (switchTo_mode ht).1
    rw [hsame] at ht
    dsimp only
    rw [h.held t ht]
    by_cases hnext : t = next
    · subst hnext
      obtain ⟨a, -, hregisters, -⟩ := hresumes ht
      rw [← hregisters, Processor.context, if_pos hcurrent.symm]
    · unfold Processor.context
      rw [hcurrent, run_userRegisters, if_neg hnext]
      by_cases hcur : t = s.current
      · subst hcur
        obtain ⟨n, a, ha, -⟩ := h.sane.spaces _ ht
        rw [if_pos rfl, saveUserState_current s ha]
      · rw [if_neg hcur, saveUserState_of_ne s hcur]
  · intro hmapped
    rw [hcurrent, hmode] at hmapped
    have hcontext := Mode.hasContext_of_isMapped hmapped
    have hsame := (switchTo_mode hcontext).1
    rw [hsame] at hcontext
    obtain ⟨a, ha, -, htable, hsize⟩ := hresumes hcontext
    rw [hcurrent, htable, hsize]
    refine ⟨rfl, a, ?_, rfl⟩
    rw [hworld]
    exact ha
  · intro t ht
    rw [hmode] at ht
    have hsame := (switchTo_mode (Mode.hasContext_of_inKernel ht)).1
    rw [hsame] at ht
    exact h.settled t ht

end Steps

theorem agrees_start (s : Processor) (h : s.Start) : ∃ A : Threads, A.Start ∧ Agrees s A := by
  have hmode : ∀ t, (s.mode t).hasContext = false := by
    intro t
    rw [h.1.mode t]
    split <;> rfl
  have hnone : ∀ {t : ℕ} {m : Mode → Bool}, (∀ {m' : Mode}, m m' = true → m'.hasContext = true) →
      m (s.mode t) = true → False := by
    intro t m hm ht
    have hcontext := hm ht
    rw [hmode t] at hcontext
    cases hcontext
  exact ⟨⟨s.toWorld, fun _ => s.registers⟩, h.1, rfl, h.1.sane, fun t ht => (hnone (fun h => h) ht).elim,
    fun ht => (hnone Mode.hasContext_of_isMapped ht).elim, fun t ht => (hnone Mode.hasContext_of_inKernel ht).elim⟩

theorem Agrees.step (s : Processor) (A : Threads) (e : Event) (s' : Processor) (h : Agrees s A) (hstep : s.Step e s') :
    ∃ A', A.Step e A' ∧ Agrees s' A' := by
  cases e with
  | instruction => exact h.instruction hstep
  | interrupt => exact h.interrupt hstep
  | switchTo next => exact h.switchTo hstep
  | initRegisters => exact h.initRegisters hstep
  | restoreState => exact h.restoreState hstep
  | work op => exact h.work hstep
  | handle fs sysRet => exact h.handle hstep

theorem exists_agrees {events : List Event} {s : Processor} (h : Trace Processor.Start Processor.Step events s) :
    ∃ A, Trace Threads.Start Threads.Step events A ∧ Agrees s A :=
  h.simulate Agrees agrees_start Agrees.step

/-! ## Isolation -/

theorem threads_step_other {A A' : Threads} {e : Event} (h : A.Step e A') {t : ℕ} (ht : t ≠ A.current) :
    A'.registers t = A.registers t := by
  have hput : ∀ w r, (A.put w r).registers t = A.registers t := fun w r => Function.update_of_ne ht _ _
  cases e with
  | instruction =>
    obtain ⟨-, -, a, w, r, -, -, rfl⟩ := h
    exact hput w r
  | interrupt =>
    obtain ⟨-, h⟩ := h
    split at h
    · obtain ⟨r, -, rfl⟩ := h
      exact hput _ r
    · rw [h]
  | switchTo next =>
    obtain ⟨-, rfl⟩ := h
    rfl
  | initRegisters =>
    obtain ⟨-, -, a, -, rfl⟩ := h
    exact hput _ _
  | restoreState =>
    obtain ⟨-, -, rfl⟩ := h
    rfl
  | work op =>
    obtain ⟨-, w, -, rfl⟩ := h
    rfl
  | handle fs sysRet =>
    obtain ⟨-, which, badVAddr, nextPC, -, fuel, w, r, -, rfl⟩ := h
    exact hput w r

theorem returnFromSyscall_apply (r : Registers) (sysRet : BitVec 32) (k : ℕ) :
    returnFromSyscall r sysRet k =
      if k = nextPCReg then r nextPCReg + 4#32 else if k = pcReg then r nextPCReg
      else if k = prevPCReg then r pcReg else if k = 2 then sysRet else r k := by
  unfold returnFromSyscall
  simp only [Function.update_apply]
  rfl

theorem handle_returns {fuel : ℕ} {sysRet : BitVec 32} (h : w.handle fs fuel sysRet r .syscallException = .ok (w', r'))
    (hmode : w.mode w.current ≠ .user) (huser : w'.mode w.current = .user) : r' = returnFromSyscall r sysRet := by
  unfold World.handle at h
  dsimp only at h
  split at h
  · cases h
  · cases h
    exact absurd huser hmode
  · cases h
    rw [World.enter_mode] at huser
    cases huser
  · cases h
    rfl

/-- Whenever a thread executes a user instruction, the machine's registers are those that its own steps
have produced, and the page table is its own. Steps of other threads do not touch them, and a system call
that returns has changed its result register and the program counters only. -/
theorem registers_isolated {events : List Event} {s : Processor} (h : Trace Processor.Start Processor.Step events s) :
    ∃ A, Trace Threads.Start Threads.Step events A ∧ A.toWorld = s.toWorld ∧
      (s.mode s.current = .user →
        s.registers = A.registers s.current ∧ s.tableOf = some s.current ∧
          ∃ a, s.space = some a ∧ s.pageTableSize = a.numPages) ∧
      (∀ e A', A.Step e A' → ∀ t, t ≠ A.current → A'.registers t = A.registers t) ∧
      (∀ fs sysRet A' badVAddr nextPC, A.Step (.handle fs sysRet) A' →
        A.mode A.current = .handling .syscallException badVAddr nextPC → A'.mode A.current = .user →
        ∀ k, A'.registers A.current k =
          if k = nextPCReg then A.registers A.current nextPCReg + 4#32
          else if k = pcReg then A.registers A.current nextPCReg
          else if k = prevPCReg then A.registers A.current pcReg
          else if k = 2 then sysRet else A.registers A.current k) := by
  obtain ⟨A, hA, hagrees⟩ := exists_agrees h
  refine ⟨A, hA, hagrees.world, ?_, ?_, ?_⟩
  · intro huser
    have hmapped : (s.mode s.current).isMapped = true := by rw [huser]; rfl
    obtain ⟨htable, a, ha, hsize⟩ := hagrees.mapped hmapped
    exact ⟨(hagrees.registers (Mode.hasContext_of_isMapped hmapped)).symm, htable, a, ha, hsize.symm⟩
  · intro e A' hstep t ht
    exact threads_step_other hstep ht
  · intro fs sysRet A' badVAddr nextPC hstep hmode huser k
    obtain ⟨-, which, badVAddr', nextPC', hmode', fuel, w, r, hhandle, rfl⟩ := hstep
    rw [hmode] at hmode'
    cases hmode'
    have hr := handle_returns hhandle (by rw [hmode]; nofun) huser
    rw [← returnFromSyscall_apply, ← hr]
    exact congrFun (Function.update_self _ _ _) k

/-! ## A run with two programs -/

/-- The current thread has been given the address space `a` and has begun to execute its program. -/
def Processor.launched (s : Processor) (a : AddrSpace) : Processor where
  toWorld := World.enter { s.toWorld with vm := s.vm.set s.current a s.vm.memory } .user
  registers := initRegisters a.numPages
  tableOf := some s.current
  pageTableSize := a.numPages
  userRegisters := s.userRegisters

theorem Processor.launched_mode (s : Processor) (a : AddrSpace) : (s.launched a).mode s.current = .user :=
  World.enter_mode _ _

theorem Processor.launched_mode_of_ne (s : Processor) (a : AddrSpace) {t : ℕ} (ht : t ≠ s.current) :
    (s.launched a).mode t = s.mode t :=
  World.enter_mode_of_ne _ _ ht

theorem Processor.launch {events : List Event} {s : Processor} (h : Trace Start Step events s)
    (hhalted : s.halted = false) (hmode : s.mode s.current = .starting) (hspace : s.vm.spaces s.current = none)
    {junk : Image} {words : ℕ → BitVec 32} {name : FileName}
    (hbuild : AddrSpace.construct fs junk words name = .ok a) :
    Trace Start Step (events ++ [.work (.call ⟨fs, .construct s.current junk words name⟩)] ++ [.initRegisters] ++
      [.restoreState]) (s.launched a) := by
  have hbuilt : LifeStep s.vm (.call ⟨fs, .construct s.current junk words name⟩) (s.vm.set s.current a s.vm.memory) := by
    refine ⟨⟨0, _, Vm.step_build s.current _ hbuild⟩, ?_⟩
    intro i junk' words' name' hop
    cases hop
    exact hspace
  have hworks : s.Works (.call ⟨fs, .construct s.current junk words name⟩)
      { s.toWorld with vm := s.vm.set s.current a s.vm.memory } :=
    ⟨by rw [hmode]; nofun, nofun, _, hbuilt, rfl⟩
  have hspace' := Vm.set_spaces s.vm s.current a s.vm.memory
  let s1 : Processor := { s with toWorld := { s.toWorld with vm := s.vm.set s.current a s.vm.memory } }
  have hstep1 : s.Step (.work (.call ⟨fs, .construct s.current junk words name⟩)) s1 := ⟨hhalted, _, hworks, rfl⟩
  have hstep2 : s1.Step .initRegisters
      { s1 with toWorld := s1.enter .loaded, registers := Nachos.initRegisters a.numPages } :=
    ⟨hhalted, hmode, a, hspace', rfl⟩
  have hstep3 : Step { s1 with toWorld := s1.enter .loaded, registers := Nachos.initRegisters a.numPages }
      .restoreState (s.launched a) := by
    refine ⟨hhalted, World.enter_mode _ _, a, hspace', ?_⟩
    simp only [Processor.launched, Processor.restoreState, World.enter, s1, Function.update_idem]
  exact ((h.next hstep1).next hstep2).next hstep3

theorem exists_start : ∃ s : Processor, s.Start ∧ s.current = 0 := by
  obtain ⟨vm, hboot, -⟩ := Vm.exists_booted
  exact ⟨⟨⟨0, fun t => if t = 0 then .starting else .fresh, vm, false⟩, fun _ => 0#32, none, 0, fun _ _ => 0#32⟩,
    ⟨⟨hboot, fun _ => rfl, rfl⟩, fun _ => rfl, rfl⟩, rfl⟩

/-- The main thread is interrupted by a new thread that starts a program of its own, and goes on after it. -/
theorem registers_isolated_twoPrograms :
    ∃ (events : List Event) (s : Processor) (A : Threads), Trace Processor.Start Processor.Step events s ∧
      Trace Threads.Start Threads.Step events A ∧ s.mode 0 = .user ∧ s.mode 1 = .user ∧ s.current = 0 ∧
      s.registers = A.registers 0 ∧ s.tableOf = some 0 := by
  obtain ⟨s, hstart, hcurrent⟩ := exists_start
  obtain ⟨a, ha, -⟩ := blank_construct []
  have hspaces := hstart.1.booted.spaces
  have hmode := hstart.1.mode
  rw [hcurrent] at hmode
  have h1 := Processor.launch (.start hstart) hstart.1.halted (by rw [hcurrent]; exact hmode 0) (hspaces _) ha
  have hmode1 := s.launched_mode a
  rw [hcurrent] at hmode1
  have hfresh : (s.launched a).mode 1 = .fresh := by
    rw [s.launched_mode_of_ne a (by rw [hcurrent]; decide)]
    exact hmode 1
  -- the second thread is dispatched with the registers of the first one still in the machine
  have hstep2 : (s.launched a).Step (.switchTo 1) ((s.launched a).run 1) :=
    ⟨hstart.1.halted, rfl⟩
  have hworld2 := run_toWorld (s.launched a) 1
  have hspace2 : ((s.launched a).run 1).vm.spaces ((s.launched a).run 1).current = none := by
    rw [hworld2]
    change ((s.vm.set s.current a s.vm.memory)).spaces 1 = none
    rw [hcurrent, Vm.set_spaces_of_ne _ (by decide)]
    exact hspaces 1
  have hmode2 : ((s.launched a).run 1).mode = Function.update (s.launched a).mode 1 .starting := by
    rw [hworld2]
    exact if_pos hfresh
  have hcurrent2 : ((s.launched a).run 1).current = 1 := by rw [hworld2]; rfl
  have h3 := Processor.launch (h1.next hstep2) (by rw [hworld2]; exact hstart.1.halted)
    (by rw [hmode2, hcurrent2, Function.update_self]) hspace2 ha
  have hmode3 := ((s.launched a).run 1).launched_mode a
  rw [hcurrent2] at hmode3
  have hmode3' : (((s.launched a).run 1).launched a).mode 0 = .user := by
    rw [Processor.launched_mode_of_ne _ a (by rw [hcurrent2]; decide), hmode2, Function.update_of_ne (by decide)]
    exact hmode1
  have hstep4 : (((s.launched a).run 1).launched a).Step (.switchTo 0) ((((s.launched a).run 1).launched a).run 0) := by
    refine ⟨?_, rfl⟩
    change ((s.launched a).run 1).halted = false
    rw [hworld2]
    exact hstart.1.halted
  have h4 := h3.next hstep4
  have hworld4 := run_toWorld (((s.launched a).run 1).launched a) 0
  have hmode4 : ((((s.launched a).run 1).launched a).run 0).mode = (((s.launched a).run 1).launched a).mode := by
    rw [hworld4]
    exact if_neg (by rw [hmode3']; nofun)
  have hcurrent4 : ((((s.launched a).run 1).launched a).run 0).current = 0 := by rw [hworld4]; rfl
  obtain ⟨A, hA, -, hregisters, -⟩ := registers_isolated h4
  rw [hcurrent4, hmode4] at hregisters
  obtain ⟨hregisters, htable, -⟩ := hregisters hmode3'
  exact ⟨_, _, A, h4, hA, by rw [hmode4]; exact hmode3', by rw [hmode4]; exact hmode3, hcurrent4, hregisters, htable⟩

end Nachos
