import Nachos.Library.Execution
import Nachos.Library.I386

/-! # The context switch (`threads/switch.s`, `Thread::StackAllocate`)

`SWITCH` of the i386 stores the registers of the thread that calls it in its `Thread` object and loads those of another
thread. The return address is on the stack of each thread; the copy of it in the object goes to the word above, which
nobody reads. For the threads it is as if each of them had registers of its own. -/
set_option autoImplicit false

namespace Nachos
open Execution I386

/-! ## The code -/

/-- The nine words at the start of a `Thread` object. -/
def InObject (object a : Word) : Prop := ∃ i < 9, a = object + BitVec.ofNat 32 (4 * i)

/-- `_ESP`, `_EAX` and so on: where a register is saved in a `Thread` object. -/
def offsetOf : Reg → Word
  | .esp => 0
  | .eax => 4
  | .ebx => 8
  | .ecx => 12
  | .edx => 16
  | .ebp => 20
  | .esi => 24
  | .edi => 28

/-- The first half of `SWITCH`: the registers go to the object of the old thread. -/
def switchSave (eaxSave : Word) : List Instr :=
  [.movl (.reg .eax) (.abs eaxSave),
    .movl (.disp 4 .esp) (.reg .eax),
    .movl (.reg .ebx) (.disp 8 .eax),
    .movl (.reg .ecx) (.disp 12 .eax),
    .movl (.reg .edx) (.disp 16 .eax),
    .movl (.reg .esi) (.disp 24 .eax),
    .movl (.reg .edi) (.disp 28 .eax),
    .movl (.reg .ebp) (.disp 20 .eax),
    .movl (.reg .esp) (.disp 0 .eax),
    .movl (.abs eaxSave) (.reg .ebx),
    .movl (.reg .ebx) (.disp 4 .eax),
    .movl (.disp 0 .esp) (.reg .ebx),
    .movl (.reg .ebx) (.disp 32 .eax)]

/-- The second half: the registers come from the object of the new thread. -/
def switchRestore (eaxSave : Word) : List Instr :=
  [.movl (.disp 8 .esp) (.reg .eax),
    .movl (.disp 4 .eax) (.reg .ebx),
    .movl (.reg .ebx) (.abs eaxSave),
    .movl (.disp 8 .eax) (.reg .ebx),
    .movl (.disp 12 .eax) (.reg .ecx),
    .movl (.disp 16 .eax) (.reg .edx),
    .movl (.disp 24 .eax) (.reg .esi),
    .movl (.disp 28 .eax) (.reg .edi),
    .movl (.disp 20 .eax) (.reg .ebp),
    .movl (.disp 0 .eax) (.reg .esp),
    .movl (.disp 32 .eax) (.reg .eax),
    .movl (.reg .eax) (.disp 4 .esp),
    .movl (.abs eaxSave) (.reg .eax)]

/-- `SWITCH` with its `ret`: the address it returns to, and the processor there. -/
def runSwitch (eaxSave : Word) (cpu : Core) : Option (Word × Core) := do
  let cpu ← cpu.exec (switchSave eaxSave ++ switchRestore eaxSave)
  cpu.pop

/-- The registers and the place where a thread goes on. -/
structure Context where
  regs : Reg → Word
  pc : Word

/-! ## What the code does -/

theorem inObject_add {object k : Word} (hk : k.toNat % 4 = 0) (hlt : k.toNat < 36) : InObject object (object + k) := by
  refine ⟨k.toNat / 4, by omega, ?_⟩
  congr 1
  apply BitVec.eq_of_toNat_eq
  rw [BitVec.toNat_ofNat]
  omega

theorem ne_add_of_not_inObject {object a k : Word} (ha : ¬ InObject object a) (hk : k.toNat % 4 = 0)
    (hlt : k.toNat < 36) : a ≠ object + k := by
  rintro rfl
  exact ha (inObject_add hk hlt)

theorem ne_of_not_inObject {object a : Word} (ha : ¬ InObject object a) : a ≠ object := by
  have hne := ne_add_of_not_inObject (k := 0#32) ha rfl (by decide)
  rwa [BitVec.add_zero] at hne

/-- The registers in an object, in the order in which `SWITCH` writes them. -/
def storeContext (object : Word) (c : Context) (mem : Word → Word) : Word → Word :=
  let mem := Function.update mem (object + 8) (c.regs .ebx)
  let mem := Function.update mem (object + 12) (c.regs .ecx)
  let mem := Function.update mem (object + 16) (c.regs .edx)
  let mem := Function.update mem (object + 24) (c.regs .esi)
  let mem := Function.update mem (object + 28) (c.regs .edi)
  let mem := Function.update mem (object + 20) (c.regs .ebp)
  let mem := Function.update mem (object + 0) (c.regs .esp)
  let mem := Function.update mem (object + 4) (c.regs .eax)
  Function.update mem (object + 32) c.pc

theorem storeContext_outside {object a : Word} (ha : ¬ InObject object a) (c : Context) (mem : Word → Word) :
    storeContext object c mem a = mem a := by
  simp [storeContext, ne_add_of_not_inObject ha, ne_of_not_inObject ha]

theorem storeContext_reg (object : Word) (c : Context) (mem : Word → Word) (r : Reg) :
    storeContext object c mem (object + offsetOf r) = c.regs r := by
  cases r <;> simp [storeContext, offsetOf]

variable {cpu : Core} {eaxSave object : Word}

/-- What must hold where `SWITCH` is called: the objects and the words on the stack are where they do not meet. -/
structure SwitchCall (eaxSave : Word) (cpu : Core) (old next : Word) : Prop where
  aligned : Aligned (cpu.regs .esp) ∧ Aligned eaxSave ∧ Aligned old ∧ Aligned next
  first : cpu.mem (cpu.regs .esp + 4#32) = old
  second : cpu.mem (cpu.regs .esp + 8#32) = next
  frame : ¬ InObject old (cpu.regs .esp) ∧ ¬ InObject old (cpu.regs .esp + 8#32)
  save : ¬ InObject old eaxSave ∧ ¬ InObject next eaxSave
  apart : cpu.regs .esp ≠ eaxSave ∧ cpu.regs .esp + 4#32 ≠ eaxSave ∧ cpu.regs .esp + 8#32 ≠ eaxSave

/-- The memory once the old thread's registers are saved. -/
def savedMem (eaxSave old : Word) (cpu : Core) : Word → Word :=
  storeContext old ⟨cpu.regs, cpu.mem (cpu.regs .esp)⟩ (Function.update cpu.mem eaxSave (cpu.regs .eax))

theorem savedMem_outside {old x : Word} (hobject : ¬ InObject old x) (hsave : x ≠ eaxSave) :
    savedMem eaxSave old cpu x = cpu.mem x := by
  unfold savedMem
  rw [storeContext_outside hobject, Function.update_of_ne hsave]

theorem exec_switchSave {old next : Word} (h : SwitchCall eaxSave cpu old next) :
    cpu.exec (switchSave eaxSave) = some ⟨Function.update (Function.update cpu.regs .eax old) .ebx
      (cpu.mem (cpu.regs .esp)), savedMem eaxSave old cpu⟩ := by
  obtain ⟨⟨hesp, hsave, hold, -⟩, harg, -, ⟨hframe, -⟩, ⟨hout, -⟩, hne, hne', -⟩ := h
  unfold savedMem storeContext
  simp [switchSave, Core.exec, Core.step, Core.read, Core.write, Core.setReg, Core.load_eq, Core.store_eq,
    Aligned.add, hesp, hsave, hold, harg, hne, hne', ne_add_of_not_inObject hout, ne_of_not_inObject hout,
    ne_add_of_not_inObject hframe, ne_of_not_inObject hframe]

theorem exec_switchRestore {next : Word} (halign : Aligned (cpu.regs .esp)) (hsave : Aligned eaxSave)
    (hnext : Aligned next) (harg : cpu.mem (cpu.regs .esp + 8#32) = next) (hout : ¬ InObject next eaxSave)
    (hesp : Aligned (cpu.mem next)) (hslot : cpu.mem next + 4#32 ≠ eaxSave) :
    cpu.exec (switchRestore eaxSave) = some ⟨fun r => cpu.mem (next + offsetOf r),
      Function.update (Function.update cpu.mem eaxSave (cpu.mem (next + 4#32))) (cpu.mem next + 4#32)
        (cpu.mem (next + 32#32))⟩ := by
  have hne {k : Word} (hk : k.toNat % 4 = 0) (hlt : k.toNat < 36) : next + k ≠ eaxSave :=
    (ne_add_of_not_inObject hout hk hlt).symm
  simp [switchRestore, Core.exec, Core.step, Core.read, Core.write, Core.setReg, Core.load_eq, Core.store_eq,
    Aligned.add, halign, hsave, hnext, harg, hne, hesp, hslot.symm, (ne_of_not_inObject hout).symm, regs_eq_iff,
    offsetOf]

/-- The memory when `SWITCH` comes to its `ret`; `slot` is the word above the return address of the new thread. -/
def switchedMem (eaxSave old next slot : Word) (cpu : Core) : Word → Word :=
  Function.update (Function.update (savedMem eaxSave old cpu) eaxSave (savedMem eaxSave old cpu (next + 4#32)))
    slot (savedMem eaxSave old cpu (next + 32#32))

/-- The processor when `SWITCH` comes to its `ret`. -/
theorem exec_switch {old next : Word} (h : SwitchCall eaxSave cpu old next)
    (hesp : Aligned (savedMem eaxSave old cpu next)) (hslot : savedMem eaxSave old cpu next + 4#32 ≠ eaxSave) :
    cpu.exec (switchSave eaxSave ++ switchRestore eaxSave) = some
      ⟨fun r => savedMem eaxSave old cpu (next + offsetOf r),
        switchedMem eaxSave old next (savedMem eaxSave old cpu next + 4#32) cpu⟩ := by
  rw [Core.exec_append, exec_switchSave h, Option.bind_some]
  refine exec_switchRestore ?_ h.aligned.2.1 h.aligned.2.2.2 ?_ h.save.2 hesp hslot
  · exact h.aligned.1
  · exact (savedMem_outside h.frame.2 h.apart.2.2).trans h.second

/-! ## Threads on one processor -/

variable {Tid : Type}

/-- Where the threads are in the memory of the host. -/
structure HostLayout (Tid : Type) where
  object : Tid → Word
  inStack : Tid → Word → Prop
  eaxSave : Word
  threadRoot : Word
  interruptEnable : Word
  threadFinish : Word
  aligned_eaxSave : Aligned eaxSave

/-- The object and the stack of a thread. -/
def HostLayout.owns (L : HostLayout Tid) (t : Tid) (x : Word) : Prop := InObject (L.object t) x ∨ L.inStack t x

structure HostPlaced (L : HostLayout Tid) (t : Tid) : Prop where
  aligned : Aligned (L.object t)
  eaxSave : ¬ L.owns t L.eaxSave
  stack_object : ∀ x, L.inStack t x → ¬ InObject (L.object t) x

/-- The memory of a thread does not meet that of another one. -/
def Apart (L : HostLayout Tid) (t u : Tid) : Prop := ∀ x, L.owns t x → ¬ L.owns u x

structure HostState (Tid : Type) where
  cpu : Core
  pc : Word
  currentThread : Tid
  forked : Tid → Bool

/-- What happens between two context switches is one step `compute`: the running thread goes on until it has these
registers, is at this place, and the memory is this. A thread that is destroyed may leave its memory to others. -/
inductive HostAct (Tid : Type) where
  | compute (c : Context) (mem : Word → Word)
  | fork (thread : Tid) (stack func arg : Word)
  | switch (nextThread : Tid)
  | destroy (thread : Tid)

/-- `StackSize`, in words. -/
abbrev stackSize : ℕ := 4 * 1024

/-- `STACK_FENCEPOST`. -/
def stackFencepost : Word := 0xdeadbeef

/-- `stack + StackSize - 4`. -/
def stackTop (stack : Word) : Word := stack + BitVec.ofNat 32 (4 * (stackSize - 4))

/-- `Thread::StackAllocate`, once it has memory for the stack. -/
def stackAllocate (L : HostLayout Tid) (thread : Tid) (stack func arg : Word) (mem : Word → Word) : Word → Word :=
  let mem := Function.update mem (stackTop stack - 4) L.threadRoot
  let mem := Function.update mem stack stackFencepost
  let mem := Function.update mem (L.object thread + 0) (stackTop stack - 4)
  let mem := Function.update mem (L.object thread + 32) L.threadRoot
  let mem := Function.update mem (L.object thread + 12) L.interruptEnable
  let mem := Function.update mem (L.object thread + 24) func
  let mem := Function.update mem (L.object thread + 16) arg
  Function.update mem (L.object thread + 28) L.threadFinish

/-- The memory that `AllocBoundedArray` gives for a stack. -/
def StackAt (L : HostLayout Tid) (thread : Tid) (stack : Word) : Prop :=
  Aligned stack ∧ ∀ i < stackSize, L.inStack thread (stack + BitVec.ofNat 32 (4 * i))

/-- The running thread has called `SWITCH(currentThread, nextThread)`. -/
structure CallsSwitch (L : HostLayout Tid) (s : HostState Tid) (nextThread : Tid) : Prop where
  aligned : Aligned (s.cpu.regs .esp)
  frame : L.inStack s.currentThread (s.cpu.regs .esp) ∧ L.inStack s.currentThread (s.cpu.regs .esp + 4#32) ∧
    L.inStack s.currentThread (s.cpu.regs .esp + 8#32)
  old : s.cpu.mem (s.cpu.regs .esp + 4#32) = L.object s.currentThread
  next : s.cpu.mem (s.cpu.regs .esp + 8#32) = L.object nextThread

/-- The code that runs between two context switches leaves alone what `SWITCH` has stored for the other threads: the
words in their objects and their return addresses. -/
def LeavesAlone (L : HostLayout Tid) (s : HostState Tid) (mem : Word → Word) : Prop :=
  ∀ u, u ≠ s.currentThread → s.forked u = true →
    (∀ a, InObject (L.object u) a → mem a = s.cpu.mem a) ∧
    mem (s.cpu.mem (L.object u)) = s.cpu.mem (s.cpu.mem (L.object u))

section Steps

variable [DecidableEq Tid]

inductive HostStep (L : HostLayout Tid) : HostState Tid → HostAct Tid → HostState Tid → Prop
  | compute {s : HostState Tid} {c : Context} {mem : Word → Word} (halone : LeavesAlone L s mem) :
      HostStep L s (.compute c mem) { s with cpu := ⟨c.regs, mem⟩, pc := c.pc }
  | fork {s : HostState Tid} {thread : Tid} {stack func arg : Word} (hnew : s.forked thread = false)
      (hplaced : HostPlaced L thread) (hapart : ∀ u, s.forked u = true → Apart L thread u)
      (hstack : StackAt L thread stack) :
      HostStep L s (.fork thread stack func arg)
        { s with cpu := ⟨s.cpu.regs, stackAllocate L thread stack func arg s.cpu.mem⟩,
                 forked := Function.update s.forked thread true }
  | switch {s : HostState Tid} {nextThread : Tid} {pc : Word} {cpu : Core} (hforked : s.forked nextThread = true)
      (hcalls : CallsSwitch L s nextThread) (hrun : runSwitch L.eaxSave s.cpu = some (pc, cpu)) :
      HostStep L s (.switch nextThread) { s with cpu := cpu, pc := pc, currentThread := nextThread }
  | destroy {s : HostState Tid} {thread : Tid} (hother : thread ≠ s.currentThread) :
      HostStep L s (.destroy thread) { s with forked := Function.update s.forked thread false }

/-- The main thread runs. -/
def HostStart (L : HostLayout Tid) (s : HostState Tid) : Prop :=
  (∀ t, s.forked t = true ↔ t = s.currentThread) ∧ HostPlaced L s.currentThread

/-! ## Threads with registers of their own -/

structure OwnState (Tid : Type) where
  currentThread : Tid
  contexts : Tid → Option Context
  mem : Word → Word

/-- The context in which a thread that has called a function goes on when it returns. -/
def Context.returned (c : Context) (mem : Word → Word) : Context :=
  ⟨Function.update c.regs .esp (c.regs .esp + 4), mem (c.regs .esp)⟩

/-- The contexts when the running thread has called a function. -/
def OwnState.calling (a : OwnState Tid) (c : Context) : Tid → Option Context :=
  Function.update a.contexts a.currentThread (some (c.returned a.mem))

/-- The registers that `StackAllocate` sets, for a thread that starts at `ThreadRoot`. -/
structure StartsAt (L : HostLayout Tid) (stack func arg : Word) (c : Context) : Prop where
  pc : c.pc = L.threadRoot
  startup : c.regs .ecx = L.interruptEnable
  initialPC : c.regs .esi = func
  initialArg : c.regs .edx = arg
  whenDone : c.regs .edi = L.threadFinish
  esp : c.regs .esp = stackTop stack

/-- A step only changes the context of the thread that computes or is made. A switch is a change of the running thread;
it may change words of the object of the old thread, the word `_eax_save` and, of the stack of the new thread, the word
that was the first argument. -/
inductive OwnStep (L : HostLayout Tid) : OwnState Tid → HostAct Tid → OwnState Tid → Prop
  | compute {a : OwnState Tid} {c : Context} {mem : Word → Word} :
      OwnStep L a (.compute c mem) ⟨a.currentThread, Function.update a.contexts a.currentThread (some c), mem⟩
  | fork {a : OwnState Tid} {thread : Tid} {stack func arg : Word} {c : Context} {mem : Word → Word}
      (hnew : a.contexts thread = none) (hc : StartsAt L stack func arg c)
      (hmem : ∀ x, ¬ L.owns thread x → mem x = a.mem x) :
      OwnStep L a (.fork thread stack func arg) ⟨a.currentThread, Function.update a.contexts thread (some c), mem⟩
  | switch {a : OwnState Tid} {nextThread : Tid} {c next : Context} {mem : Word → Word}
      (hc : a.contexts a.currentThread = some c) (hnext : a.calling c nextThread = some next)
      (hmem : ∀ x, ¬ InObject (L.object a.currentThread) x → x ≠ L.eaxSave → x ≠ next.regs .esp → mem x = a.mem x) :
      OwnStep L a (.switch nextThread) ⟨nextThread, a.calling c, mem⟩
  | destroy {a : OwnState Tid} {thread : Tid} :
      OwnStep L a (.destroy thread) { a with contexts := Function.update a.contexts thread none }

def OwnStart (a : OwnState Tid) : Prop := ∀ t, (a.contexts t).isSome = true ↔ t = a.currentThread

end Steps

/-! ## The simulation -/

theorem inObject_offset (object : Word) (r : Reg) : InObject object (object + offsetOf r) := by
  cases r <;> exact inObject_add (by decide) (by decide)

theorem inObject_self (object : Word) : InObject object object := ⟨0, by decide, by simp⟩

/-- What `SWITCH` finds of a thread that does not run. -/
structure Saved (L : HostLayout Tid) (mem : Word → Word) (u : Tid) (c : Context) : Prop where
  regs : ∀ r, r ≠ .esp → mem (L.object u + offsetOf r) = c.regs r
  esp : mem (L.object u) = c.regs .esp - 4#32
  ret : mem (c.regs .esp - 4#32) = c.pc
  aligned : Aligned (c.regs .esp)
  frame : L.inStack u (c.regs .esp - 4#32) ∧ L.inStack u (c.regs .esp)

structure Runs (L : HostLayout Tid) (s : HostState Tid) (a : OwnState Tid) : Prop where
  current : a.currentThread = s.currentThread
  forked : ∀ t, (a.contexts t).isSome = s.forked t
  running : a.contexts s.currentThread = some ⟨s.cpu.regs, s.pc⟩
  mem : a.mem = s.cpu.mem
  saved : ∀ u c, u ≠ s.currentThread → a.contexts u = some c → Saved L s.cpu.mem u c
  placed : ∀ t, s.forked t = true → HostPlaced L t
  apart : ∀ t u, s.forked t = true → s.forked u = true → t ≠ u → Apart L t u

variable {L : HostLayout Tid} {s s' : HostState Tid} {a : OwnState Tid} {mem mem' : Word → Word} {u : Tid} {c : Context}

theorem Saved.congr (h : Saved L mem u c) (hobject : ∀ x, InObject (L.object u) x → mem' x = mem x)
    (hret : mem' (c.regs .esp - 4#32) = mem (c.regs .esp - 4#32)) : Saved L mem' u c where
  regs r hr := (hobject _ (inObject_offset _ r)).trans (h.regs r hr)
  esp := (hobject _ (inObject_self _)).trans h.esp
  ret := hret.trans h.ret
  aligned := h.aligned
  frame := h.frame

/-- Words that belong to no other thread are changed. -/
theorem Saved.outside (h : Saved L mem u c) (hsame : ∀ x, L.owns u x → mem' x = mem x) : Saved L mem' u c :=
  h.congr (fun x hx => hsame x (Or.inl hx)) (hsame _ (Or.inr h.frame.1))

/-- The place of the first word that a new thread pops, and of the one above it. -/
theorem StackAt.top {thread : Tid} {stack : Word} (h : StackAt L thread stack) :
    L.inStack thread (stackTop stack - 4#32) ∧ L.inStack thread (stackTop stack) ∧ L.inStack thread stack := by
  refine ⟨?_, h.2 (stackSize - 4) (by decide), ?_⟩
  · have hword := h.2 (stackSize - 5) (by decide)
    rwa [show stackTop stack - 4#32 = stack + BitVec.ofNat 32 (4 * (stackSize - 5)) by
      rw [stackTop, BitVec.sub_eq_add_neg, BitVec.add_assoc]
      rfl]
  · have hword := h.2 0 (by decide)
    simpa using hword

theorem stackAllocate_outside {thread : Tid} {stack func arg x : Word} (hstack : StackAt L thread stack)
    (hx : ¬ L.owns thread x) (mem : Word → Word) : stackAllocate L thread stack func arg mem x = mem x := by
  obtain ⟨hobject, hin⟩ := not_or.mp hx
  have htop : x ≠ stackTop stack - 4 := by
    rintro rfl
    exact hin hstack.top.1
  have hbottom : x ≠ stack := by
    rintro rfl
    exact hin hstack.top.2.2
  unfold stackAllocate
  iterate 6 rw [Function.update_of_ne (ne_add_of_not_inObject hobject (by decide) (by decide))]
  rw [Function.update_of_ne hbottom, Function.update_of_ne htop]

theorem Apart.symm {t : Tid} (h : Apart L t u) : Apart L u t := fun x hx ht => h x ht hx

/-- The context that a new thread will have. -/
def newContext (L : HostLayout Tid) (thread : Tid) (stack : Word) (mem : Word → Word) : Context :=
  ⟨Function.update (fun r => mem (L.object thread + offsetOf r)) .esp (stackTop stack), L.threadRoot⟩

theorem newContext_esp (L : HostLayout Tid) (thread : Tid) (stack : Word) (mem : Word → Word) :
    (newContext L thread stack mem).regs .esp = stackTop stack := by
  simp only [newContext, Function.update_self]

theorem newContext_reg (L : HostLayout Tid) (thread : Tid) (stack : Word) (mem : Word → Word) {r : Reg}
    (hr : r ≠ .esp) : (newContext L thread stack mem).regs r = mem (L.object thread + offsetOf r) := by
  simp only [newContext, Function.update_of_ne hr]

theorem newContext_startsAt (L : HostLayout Tid) (thread : Tid) (stack func arg : Word) (mem : Word → Word) :
    StartsAt L stack func arg (newContext L thread stack (stackAllocate L thread stack func arg mem)) := by
  refine ⟨rfl, ?_, ?_, ?_, ?_, newContext_esp L thread stack _⟩ <;> rw [newContext_reg _ _ _ _ (by decide)] <;>
    simp [stackAllocate, offsetOf]

theorem newContext_saved {thread : Tid} {stack : Word} (hplaced : HostPlaced L thread) (hstack : StackAt L thread stack)
    (func arg : Word) (mem : Word → Word) :
    Saved L (stackAllocate L thread stack func arg mem) thread
      (newContext L thread stack (stackAllocate L thread stack func arg mem)) := by
  obtain ⟨htop, habove, -⟩ := hstack.top
  have hne : stackTop stack - 4#32 ≠ stack := by
    simp only [stackTop, stackSize]
    bv_omega
  have hobject := hplaced.stack_object _ htop
  refine ⟨fun r hr => (newContext_reg L thread stack _ hr).symm, ?_, ?_, ?_, ?_⟩ <;> rw [newContext_esp]
  · simp [stackAllocate]
  · simp [stackAllocate, newContext, hne, ne_add_of_not_inObject hobject, ne_of_not_inObject hobject]
  · exact hstack.1.add (by decide)
  · exact ⟨htop, habove⟩

theorem HostPlaced.ne_eaxSave {t : Tid} (h : HostPlaced L t) {x : Word} (hx : L.owns t x) : x ≠ L.eaxSave := by
  rintro rfl
  exact h.eaxSave hx

theorem HostPlaced.eaxSave_object {t : Tid} (h : HostPlaced L t) : ¬ InObject (L.object t) L.eaxSave :=
  fun hx => h.eaxSave (Or.inl hx)

theorem Runs.current_forked (h : Runs L s a) : s.forked s.currentThread = true := by
  rw [← h.forked, h.running]
  rfl

theorem Runs.switchCall (h : Runs L s a) {nextThread : Tid} (hforked : s.forked nextThread = true)
    (hcalls : CallsSwitch L s nextThread) :
    SwitchCall L.eaxSave s.cpu (L.object s.currentThread) (L.object nextThread) := by
  have hplaced := h.placed _ h.current_forked
  obtain ⟨hesp, hold, hnext⟩ := hcalls.frame
  have hne : ∀ x, L.inStack s.currentThread x → x ≠ L.eaxSave := fun x hx => hplaced.ne_eaxSave (Or.inr hx)
  exact ⟨⟨hcalls.aligned, L.aligned_eaxSave, hplaced.aligned, (h.placed _ hforked).aligned⟩, hcalls.old, hcalls.next,
    ⟨hplaced.stack_object _ hesp, hplaced.stack_object _ hnext⟩,
    ⟨hplaced.eaxSave_object, (h.placed _ hforked).eaxSave_object⟩, hne _ hesp, hne _ hold, hne _ hnext⟩

variable [DecidableEq Tid]

theorem eq_of_update_eq {V : Type} {f : Tid → V} {t u : Tid} {v v' : V} (h : Function.update f t v u = v')
    (hne : v ≠ v') : f u = v' := by
  by_cases hu : u = t
  · rw [hu, Function.update_self] at h
    exact absurd h hne
  · rwa [Function.update_of_ne hu] at h

namespace Runs

variable (h : Runs L s a)
include h

omit [DecidableEq Tid] in
theorem forked_of_some (hc : a.contexts u = some c) : s.forked u = true := by
  rw [← h.forked, hc]
  rfl

theorem compute (halone : LeavesAlone L s mem) :
    Runs L { s with cpu := ⟨c.regs, mem⟩, pc := c.pc }
      ⟨a.currentThread, Function.update a.contexts a.currentThread (some c), mem⟩ where
  current := h.current
  forked t := by
    dsimp only
    rw [h.current]
    by_cases ht : t = s.currentThread
    · subst ht
      rw [Function.update_self, ← h.forked, h.running]
      rfl
    · rw [Function.update_of_ne ht, h.forked]
  running := by
    dsimp only
    rw [h.current, Function.update_self]
  mem := rfl
  saved u c' hu hc' := by
    dsimp only at hu hc' ⊢
    rw [h.current, Function.update_of_ne hu] at hc'
    have hsaved := h.saved u c' hu hc'
    obtain ⟨hobject, hret⟩ := halone u hu (h.forked_of_some hc')
    rw [hsaved.esp] at hret
    exact hsaved.congr hobject hret
  placed := h.placed
  apart := h.apart

theorem destroy {thread : Tid} (hother : thread ≠ s.currentThread) :
    Runs L { s with forked := Function.update s.forked thread false }
      { a with contexts := Function.update a.contexts thread none } where
  current := h.current
  forked t := by
    by_cases ht : t = thread
    · simp [ht]
    · simp [ht, h.forked]
  running := by simp [hother.symm, h.running]
  mem := h.mem
  saved u c hu hc := h.saved u c hu (eq_of_update_eq hc nofun)
  placed t ht := h.placed t (eq_of_update_eq ht nofun)
  apart t u ht hu := h.apart t u (eq_of_update_eq ht nofun) (eq_of_update_eq hu nofun)

theorem fork {thread : Tid} {stack : Word} (hnew : s.forked thread = false) (hplaced : HostPlaced L thread)
    (hapart : ∀ u, s.forked u = true → Apart L thread u) (hstack : StackAt L thread stack) (func arg : Word) :
    ∃ c, StartsAt L stack func arg c ∧
      Runs L ⟨⟨s.cpu.regs, stackAllocate L thread stack func arg s.cpu.mem⟩, s.pc, s.currentThread,
          Function.update s.forked thread true⟩
        ⟨a.currentThread, Function.update a.contexts thread (some c),
          stackAllocate L thread stack func arg s.cpu.mem⟩ := by
  have hcurrent : thread ≠ s.currentThread := by
    rintro rfl
    rw [h.current_forked] at hnew
    cases hnew
  refine ⟨_, newContext_startsAt L thread stack func arg s.cpu.mem, h.current, fun t => ?_, ?_, rfl,
    fun u c hu hc => ?_, fun t ht => ?_, fun t u ht hu hne => ?_⟩
  · by_cases ht : t = thread
    · simp [ht]
    · simp [ht, h.forked]
  · simp [hcurrent.symm, h.running]
  · dsimp only at hu hc ⊢
    by_cases hut : u = thread
    · subst hut
      rw [Function.update_self, Option.some.injEq] at hc
      rw [← hc]
      exact newContext_saved hplaced hstack func arg s.cpu.mem
    · rw [Function.update_of_ne hut] at hc
      exact (h.saved u c hu hc).outside fun x hx =>
        stackAllocate_outside hstack ((hapart u (h.forked_of_some hc)).symm x hx) s.cpu.mem
  · dsimp only at ht
    by_cases htt : t = thread
    · exact htt ▸ hplaced
    · rw [Function.update_of_ne htt] at ht
      exact h.placed t ht
  · dsimp only at ht hu
    by_cases htt : t = thread
    · subst htt
      rw [Function.update_of_ne hne.symm] at hu
      exact hapart u hu
    · rw [Function.update_of_ne htt] at ht
      by_cases hut : u = thread
      · subst hut
        exact (hapart t ht).symm
      · rw [Function.update_of_ne hut] at hu
        exact h.apart t u ht hu hne

/-! ## Switch -/

/-- The memory when the registers of the running thread are saved. -/
abbrev saving (L : HostLayout Tid) (s : HostState Tid) : Word → Word :=
  savedMem L.eaxSave (L.object s.currentThread) s.cpu

theorem calling_isSome (t : Tid) : (a.calling ⟨s.cpu.regs, s.pc⟩ t).isSome = s.forked t := by
  unfold OwnState.calling
  by_cases ht : t = a.currentThread
  · rw [ht, Function.update_self, h.current, h.current_forked]
    rfl
  · rw [Function.update_of_ne ht, h.forked]

/-- After the first half of `SWITCH` all threads are saved. -/
theorem saved_all {nextThread : Tid} (hcalls : CallsSwitch L s nextThread)
    (hc : a.calling ⟨s.cpu.regs, s.pc⟩ u = some c) : Saved L (saving L s) u c := by
  have hplaced := h.placed _ h.current_forked
  unfold OwnState.calling at hc
  rw [h.current, h.mem] at hc
  by_cases hu : u = s.currentThread
  · subst hu
    rw [Function.update_self, Option.some.injEq] at hc
    subst hc
    have hesp : saving L s (L.object s.currentThread) = s.cpu.regs .esp := by
      have hreg := storeContext_reg (L.object s.currentThread) ⟨s.cpu.regs, s.cpu.mem (s.cpu.regs .esp)⟩
        (Function.update s.cpu.mem L.eaxSave (s.cpu.regs .eax)) .esp
      rwa [show L.object s.currentThread + offsetOf .esp = L.object s.currentThread from BitVec.add_zero _] at hreg
    have hback : s.cpu.regs .esp + 4 - 4#32 = s.cpu.regs .esp := BitVec.add_sub_cancel _ _
    obtain ⟨hframe, hframe', -⟩ := hcalls.frame
    refine ⟨fun r hr => ?_, ?_, ?_, ?_, ?_⟩ <;> simp only [Context.returned, Function.update_self, hback]
    · rw [Function.update_of_ne hr]
      exact storeContext_reg _ _ _ r
    · exact hesp
    · exact savedMem_outside (hplaced.stack_object _ hframe) (hplaced.ne_eaxSave (Or.inr hframe))
    · exact hcalls.aligned.add (by decide)
    · exact ⟨hframe, hframe'⟩
  · rw [Function.update_of_ne hu] at hc
    have hforked := h.forked_of_some hc
    refine (h.saved u c hu hc).outside fun x hx => savedMem_outside (fun ho => ?_) ((h.placed u hforked).ne_eaxSave hx)
    exact h.apart u _ hforked h.current_forked hu x hx (Or.inl ho)

/-- `SWITCH` returns in the context of the next thread, and the others stay saved. -/
theorem switch {nextThread : Tid} (hforked : s.forked nextThread = true) (hcalls : CallsSwitch L s nextThread) :
    ∃ next mem, a.calling ⟨s.cpu.regs, s.pc⟩ nextThread = some next ∧
      runSwitch L.eaxSave s.cpu = some (next.pc, ⟨next.regs, mem⟩) ∧
      (∀ x, ¬ InObject (L.object s.currentThread) x → x ≠ L.eaxSave → x ≠ next.regs .esp → mem x = s.cpu.mem x) ∧
      ∀ u c, u ≠ nextThread → a.calling ⟨s.cpu.regs, s.pc⟩ u = some c → Saved L mem u c := by
  obtain ⟨next, hnext⟩ := Option.isSome_iff_exists.mp ((h.calling_isSome nextThread).trans hforked)
  have hsaved := h.saved_all hcalls hnext
  have hstack : ∀ x, L.inStack nextThread x → x ≠ L.eaxSave := fun x hx => (h.placed _ hforked).ne_eaxSave (Or.inr hx)
  have hslot : next.regs .esp - 4#32 + 4#32 = next.regs .esp := BitVec.sub_add_cancel _ _
  have hsp : savedMem L.eaxSave (L.object s.currentThread) s.cpu (L.object nextThread) = next.regs .esp - 4#32 :=
    hsaved.esp
  have hexec := exec_switch (h.switchCall hforked hcalls) (by rw [hsp]; exact hsaved.aligned.sub (by decide))
    (by rw [hsp, hslot]; exact hstack _ hsaved.frame.2)
  rw [hsp, hslot] at hexec
  have hesp : L.object nextThread + offsetOf .esp = L.object nextThread := BitVec.add_zero _
  have hne : next.regs .esp - 4#32 ≠ next.regs .esp := by bv_omega
  refine ⟨next, switchedMem L.eaxSave (L.object s.currentThread) (L.object nextThread) (next.regs .esp) s.cpu, hnext,
    ?_, fun x hobject hsave hx => ?_, fun u c hu hc => ?_⟩
  · unfold runSwitch
    rw [hexec]
    simp only [Option.bind_eq_bind, Option.bind_some, Core.pop, hesp, hsp]
    rw [Core.load_eq (hsaved.aligned.sub (by decide)), Option.bind_some]
    have hret : switchedMem L.eaxSave (L.object s.currentThread) (L.object nextThread) (next.regs .esp) s.cpu
        (next.regs .esp - 4#32) = next.pc := by
      unfold switchedMem
      rw [Function.update_of_ne hne, Function.update_of_ne (hstack _ hsaved.frame.1)]
      exact hsaved.ret
    dsimp only
    rw [hret]
    refine congrArg some (Prod.ext rfl ?_)
    have hregs : Function.update (fun r => saving L s (L.object nextThread + offsetOf r)) .esp
        (next.regs .esp - 4#32 + 4#32) = next.regs := by
      funext r
      by_cases hr : r = .esp
      · rw [hr, Function.update_self, hslot]
      · rw [Function.update_of_ne hr, hsaved.regs r hr]
    simp only [Core.setReg]
    exact congrArg (Core.mk · _) hregs
  · unfold switchedMem
    rw [Function.update_of_ne hx, Function.update_of_ne hsave, savedMem_outside hobject hsave]
  · have hu' : s.forked u = true := by
      rw [← h.calling_isSome, hc]
      rfl
    refine (h.saved_all hcalls hc).outside fun x hx => ?_
    have hslot' : x ≠ next.regs .esp := by
      rintro rfl
      exact h.apart u nextThread hu' hforked hu _ hx (Or.inr hsaved.frame.2)
    unfold switchedMem
    rw [Function.update_of_ne hslot', Function.update_of_ne ((h.placed u hu').ne_eaxSave hx)]

theorem step {act : HostAct Tid} (hstep : HostStep L s act s') : ∃ a', OwnStep L a act a' ∧ Runs L s' a' := by
  cases hstep with
  | compute halone => exact ⟨_, .compute, h.compute halone⟩
  | fork hnew hplaced hapart hstack =>
    obtain ⟨c, hc, hruns⟩ := h.fork hnew hplaced hapart hstack _ _
    refine ⟨_, .fork (Option.not_isSome_iff_eq_none.mp (by rw [h.forked, hnew]; decide)) hc fun x hx => ?_, hruns⟩
    rw [stackAllocate_outside hstack hx, h.mem]
  | @switch nextThread pc cpu hforked hcalls hrun =>
    obtain ⟨next, mem, hnext, hrun', hmem, hsaved⟩ := h.switch hforked hcalls
    rw [hrun] at hrun'
    obtain ⟨rfl, rfl⟩ := Prod.mk.inj (Option.some.inj hrun')
    rw [← h.current, ← h.mem] at hmem
    have hc : a.contexts a.currentThread = some ⟨s.cpu.regs, s.pc⟩ := by rw [h.current, h.running]
    exact ⟨_, .switch hc hnext hmem, rfl, h.calling_isSome, hnext, rfl, hsaved, h.placed, h.apart⟩
  | destroy hother => exact ⟨_, .destroy, h.destroy hother⟩

end Runs

theorem HostStart.runs (h : HostStart L s) : ∃ a, OwnStart a ∧ Runs L s a := by
  obtain ⟨hforked, hplaced⟩ := h
  refine ⟨⟨s.currentThread, Function.update (fun _ => none) s.currentThread (some ⟨s.cpu.regs, s.pc⟩), s.cpu.mem⟩,
    fun t => ?_, rfl, fun t => ?_, by simp, rfl, fun u c hu hc => ?_, fun t ht => ?_, fun t u ht hu hne => ?_⟩
  · by_cases ht : t = s.currentThread
    · simp [ht]
    · simp [ht]
  · by_cases ht : t = s.currentThread
    · simp [ht, (hforked s.currentThread).mpr rfl]
    · simp [ht, Bool.eq_false_iff.mpr fun hf => ht ((hforked t).mp hf)]
  · simp [hu] at hc
  · rw [(hforked t).mp ht]
    exact hplaced
  · exact absurd (((hforked t).mp ht).trans ((hforked u).mp hu).symm) hne

/-- The threads on the one processor behave as if each had registers of its own, over every sequence of computations,
forks, context switches and destructions, and also when a thread switches to itself. `SWITCH` never faults where it is
called for a thread that has been forked. -/
theorem switch_gives_own_registers {acts : List (HostAct Tid)} (h : Trace (HostStart L) (HostStep L) acts s) :
    (∃ a, Trace OwnStart (OwnStep L) acts a ∧ a.currentThread = s.currentThread ∧
      a.contexts a.currentThread = some ⟨s.cpu.regs, s.pc⟩ ∧ a.mem = s.cpu.mem) ∧
    ∀ nextThread, s.forked nextThread = true → CallsSwitch L s nextThread →
      ∃ r, runSwitch L.eaxSave s.cpu = some r := by
  have hstep : ∀ s a act s', Runs L s a → HostStep L s act s' → ∃ a', OwnStep L a act a' ∧ Runs L s' a' :=
    fun _ _ _ _ hruns hstep => hruns.step hstep
  obtain ⟨a, ha, hruns⟩ := Trace.simulate (Runs L) (fun _ hstart => HostStart.runs hstart) hstep h
  refine ⟨⟨a, ha, hruns.current, by rw [hruns.current, hruns.running], hruns.mem⟩, fun nextThread hforked hcalls => ?_⟩
  obtain ⟨next, mem, -, hrun, -⟩ := hruns.switch hforked hcalls
  exact ⟨_, hrun⟩

/-- Two threads, with stacks at `0x30000` and `0x50000`. -/
def twoStacks : HostLayout Bool where
  object t := if t then 0x40000 else 0x20000
  inStack t a := a.toNat / 65536 = if t then 5 else 3
  eaxSave := 0x100
  threadRoot := 0x400
  interruptEnable := 0x500
  threadFinish := 0x600
  aligned_eaxSave := by decide

/-- The main thread is about to call `SWITCH(main, other)`; the other thread is not yet forked. -/
def aboutToSwitch : HostState Bool where
  cpu := ⟨fun r => if r = .esp then 0x30100 else 7,
    fun a => if a = 0x30100 then 0x700 else if a = 0x30104 then 0x20000 else if a = 0x30108 then 0x40000 else 0⟩
  pc := 0x300
  currentThread := false
  forked t := ! t

theorem twoStacks_object {t : Bool} {x : Word} (hx : InObject (twoStacks.object t) x) :
    x.toNat / 65536 = if t then 4 else 2 := by
  obtain ⟨i, hi, rfl⟩ := hx
  have hall : ∀ t : Bool, ∀ i < 9,
      (twoStacks.object t + BitVec.ofNat 32 (4 * i)).toNat / 65536 = if t then 4 else 2 := by decide
  exact hall t i hi

theorem twoStacks_owns {t : Bool} {x : Word} (hx : twoStacks.owns t x) : x.toNat / 131072 = if t then 2 else 1 := by
  rcases hx with hobject | hstack
  · have hx := twoStacks_object hobject
    cases t <;> simp only [if_true, Bool.false_eq_true, if_false] at hx ⊢ <;> omega
  · have hx : x.toNat / 65536 = if t then 5 else 3 := hstack
    cases t <;> simp only [if_true, Bool.false_eq_true, if_false] at hx ⊢ <;> omega

theorem twoStacks_placed (t : Bool) : HostPlaced twoStacks t where
  aligned := by cases t <;> decide
  eaxSave h := by
    have hx := twoStacks_owns h
    cases t <;> revert hx <;> decide
  stack_object x hs ho := by
    have hx := (twoStacks_object ho).symm.trans hs
    cases t <;> cases hx

theorem twoStacks_apart : Apart twoStacks true false := by
  intro x h h'
  cases (twoStacks_owns h).symm.trans (twoStacks_owns h')

/-- The other thread is forked and switched to. -/
theorem switch_gives_own_registers_forked : ∃ s,
    Trace (HostStart twoStacks) (HostStep twoStacks) [.fork true 0x50000#32 0x800 5, .switch true] s ∧
    ∃ a, Trace OwnStart (OwnStep twoStacks) [.fork true 0x50000#32 0x800 5, .switch true] a ∧
      a.contexts a.currentThread = some ⟨s.cpu.regs, s.pc⟩ := by
  have hstart : HostStart twoStacks aboutToSwitch := ⟨by decide, twoStacks_placed _⟩
  have hstack : StackAt twoStacks true 0x50000#32 := by
    refine ⟨by decide, fun i hi => ?_⟩
    have hlt : i < 4096 := hi
    dsimp only [twoStacks]
    simp only [if_true, BitVec.toNat_add, BitVec.toNat_ofNat]
    omega
  have hfork : HostStep twoStacks aboutToSwitch (.fork true 0x50000#32 0x800 5) _ :=
    .fork (by decide) (twoStacks_placed true) (fun u hu => by
      cases u with
      | false => exact twoStacks_apart
      | true => cases hu) hstack
  have hforked := Trace.next (.start hstart) hfork
  have hcalls : CallsSwitch twoStacks { aboutToSwitch with
      cpu := ⟨aboutToSwitch.cpu.regs, stackAllocate twoStacks true 0x50000#32 0x800 5 aboutToSwitch.cpu.mem⟩,
      forked := Function.update aboutToSwitch.forked true true } true :=
    ⟨by decide, ⟨rfl, rfl, rfl⟩, rfl, rfl⟩
  obtain ⟨⟨pc, cpu⟩, hrun⟩ := (switch_gives_own_registers hforked).2 true rfl hcalls
  have hswitched := Trace.next hforked (HostStep.switch rfl hcalls hrun)
  obtain ⟨⟨a, ha, -, hcontext, -⟩, -⟩ := switch_gives_own_registers hswitched
  exact ⟨_, hswitched, a, ha, hcontext⟩

end Nachos
