import Nachos.Threads.Synch
import Mathlib.Data.List.Chain
import Mathlib.Data.List.Infix

/-! # Threads that share the console (`userprog/synchconsole.cc`, `machine/console.cc`)

The device looks for input at any time (`CheckCharAvail`) and keeps one character for the kernel; that there is
none is said by the value `EOF` of the same `char`, which on the host has a sign. `input` is what the keyboard
has not delivered yet and `returned` are the characters that calls of `GetChar` have returned. A call holds the
lock until it returns, so the calls return in the order in which they take the lock. -/
set_option autoImplicit false

namespace Nachos
open Execution Uniprocessor

variable {Tid : Type}

/-! ## The device -/

abbrev eof : Int := -1

/-- The `int` to which a `char` is promoted. -/
def promote (ch : UInt8) : Int := ch.toInt8.toInt

/-- The `char` to which an `int` is converted. -/
def toChar (n : Int) : UInt8 := UInt8.ofInt n

theorem promote_eq_eof_iff (ch : UInt8) : promote ch = eof ↔ ch = 255 := by
  have heof : eof = promote 255 := rfl
  rw [heof]
  constructor
  · intro h
    have hint := Int8.toInt_inj.mp h
    exact congrArg Int8.toUInt8 hint
  · rintro rfl
    rfl

/-- `Console`, with the number of its `ConsoleWriteInt` interrupts that are scheduled. -/
structure Console where
  input : List UInt8
  incoming : UInt8
  putBusy : Bool
  writeInts : ℕ
  display : List UInt8

namespace Console

/-- `Console::Console`. -/
def new (input : List UInt8) : Console := ⟨input, toChar eof, false, 0, []⟩

/-- `Console::CheckCharAvail`, and whether it calls the `readHandler`; `avail` is the answer of `PollFile`. At
the end of the file there is nothing for `Read` to read, which it asserts there is. -/
def checkCharAvail (c : Console) (avail : Bool) : Call (Console × Bool) :=
  if promote c.incoming ≠ eof ∨ avail = false then .ok (c, false)
  else
    match c.input with
    | [] => .error .assertFailed
    | ch :: input => .ok ({ c with input := input, incoming := ch }, true)

/-- `Console::WriteDone`, up to the call of the `writeHandler`. -/
def writeDone (c : Console) : Console := { c with putBusy := false, writeInts := c.writeInts - 1 }

/-- `Console::GetChar`. -/
def getChar (c : Console) : UInt8 × Console := (c.incoming, { c with incoming := toChar eof })

/-- `Console::PutChar`. -/
def putChar (c : Console) (ch : UInt8) : Call Console :=
  if c.putBusy then .error .assertFailed
  else .ok { c with display := c.display ++ [ch], putBusy := true, writeInts := c.writeInts + 1 }

end Console

/-! ## `SynchConsole` -/

structure SynchConsole (Tid : Type) where
  console : Console
  lock : Lock Tid
  synchReadAvail : Semaphore Tid
  synchWriteDone : Semaphore Tid
  returned : List UInt8

inductive ConsoleCall where
  | getChar
  | putChar (ch : UInt8)

inductive ConsolePc where
  | outside
  | inAcquire (call : ConsoleCall)
  | inReadAvail
  | getChar
  | got (ch : UInt8)
  | putChar (ch : UInt8)
  | inWriteDone
  | written

/-- Where a call goes on when it has the lock. -/
def ConsoleCall.body : ConsoleCall → ConsolePc
  | .getChar => .inReadAvail
  | .putChar ch => .putChar ch

inductive ConsoleAct where
  | call (call : ConsoleCall)
  | resume

inductive ConsoleInt where
  | poll (avail : Bool)
  | write

abbrev ConsoleState (Tid : Type) := State Tid ConsolePc (SynchConsole Tid)

namespace SynchConsole

/-- `SynchConsole::SynchConsole`. -/
def new (input : List UInt8) : SynchConsole Tid := ⟨Console.new input, Lock.new, ⟨0, []⟩, ⟨0, []⟩, []⟩

/-- After a pass through the loop of `Acquire`. -/
def locked (o : SynchConsole Tid) (call : ConsoleCall) (r : Lock Tid × Bool) :
    Effect Tid ConsolePc (SynchConsole Tid) :=
  if r.2 then { obj := { o with lock := r.1 }, pc := call.body }
  else { obj := { o with lock := r.1 }, pc := .inAcquire call, sleeps := true }

/-- After a pass through the loop of `SynchReadAvail -> P()`. -/
def readWaited (o : SynchConsole Tid) (r : Semaphore Tid × Bool) : Effect Tid ConsolePc (SynchConsole Tid) :=
  if r.2 then { obj := { o with synchReadAvail := r.1 }, pc := .getChar }
  else { obj := { o with synchReadAvail := r.1 }, pc := .inReadAvail, sleeps := true }

/-- After a pass through the loop of `SynchWriteDone -> P()`. -/
def writeWaited (o : SynchConsole Tid) (r : Semaphore Tid × Bool) : Effect Tid ConsolePc (SynchConsole Tid) :=
  if r.2 then { obj := { o with synchWriteDone := r.1 }, pc := .written }
  else { obj := { o with synchWriteDone := r.1 }, pc := .inWriteDone, sleeps := true }

/-- A read poll, which calls `SynchConsole::ReadAvail` if a character has arrived. -/
def readPoll (o : SynchConsole Tid) (avail : Bool) : Call (SynchConsole Tid × List Tid) := do
  let (console, arrived) ← o.console.checkCharAvail avail
  if arrived then
    let (synchReadAvail, wakes) ← o.synchReadAvail.v
    return ({ o with console := console, synchReadAvail := synchReadAvail }, wakes)
  else return ({ o with console := console }, [])

/-- A write interrupt, which calls `SynchConsole::WriteDone`. -/
def writeInt (o : SynchConsole Tid) : Call (SynchConsole Tid × List Tid) := do
  let (synchWriteDone, wakes) ← o.synchWriteDone.v
  return ({ o with console := o.console.writeDone, synchWriteDone := synchWriteDone }, wakes)

end SynchConsole

/-- `SynchConsole::GetChar` and `SynchConsole::PutChar`, and the interrupts of the console. -/
def consoleProgram (Tid : Type) [DecidableEq Tid] :
    Program Tid ConsolePc (SynchConsole Tid) ConsoleAct ConsoleInt Trap where
  enabled
    | .call _, .outside => True
    | .call _, _ => False
    | .resume, .outside => False
    | .resume, _ => True
  sect
    | .call call, t, _, o => do
      let r ← o.lock.acquire t
      return o.locked call r
    | .resume, _, .outside, o => .ok { obj := o, pc := .outside }
    | .resume, t, .inAcquire call, o => .ok (o.locked call (o.lock.tryAcquire t))
    | .resume, t, .inReadAvail, o => .ok (o.readWaited (o.synchReadAvail.tryP t))
    | .resume, _, .getChar, o =>
      let (ch, console) := o.console.getChar
      .ok { obj := { o with console := console }, pc := .got ch }
    | .resume, t, .got ch, o => do
      let (lock, wakes) ← o.lock.release t
      return { obj := { o with lock := lock, returned := o.returned ++ [ch] }, pc := .outside, wakes := wakes }
    | .resume, _, .putChar ch, o => do
      let console ← o.console.putChar ch
      return { obj := { o with console := console }, pc := .inWriteDone }
    | .resume, t, .inWriteDone, o => .ok (o.writeWaited (o.synchWriteDone.tryP t))
    | .resume, t, .written, o => do
      let (lock, wakes) ← o.lock.release t
      return { obj := { o with lock := lock }, pc := .outside, wakes := wakes }
  handler
    | .poll avail, o => o.readPoll avail
    | .write, o => if o.console.writeInts = 0 then .ok (o, []) else o.writeInt

def ConsoleStart (input : List UInt8) (s : ConsoleState Tid) : Prop :=
  Placed s ∧ s.obj = SynchConsole.new input ∧ ∀ t, s.pc t = .outside

/-- The states in any interleaving of calls, polls and write interrupts. -/
def ConsoleReached [DecidableEq Tid] (input : List UInt8) (s : ConsoleState Tid) : Prop :=
  Reachable (ConsoleStart input) (Step (consoleProgram Tid)) (fun _ _ => True) s

/-- A byte that reads as `EOF` is followed by such bytes only. -/
def EofLast (input : List UInt8) : Prop := List.IsChain (fun a b => a = 255 → b = 255) input

theorem EofLast.all (before : List UInt8) {after : List UInt8} (h : EofLast (before ++ 255 :: after)) :
    ∀ b ∈ after, b = 255 := by
  have htail : EofLast (255 :: after) := List.IsChain.right_of_append h
  clear h
  induction after with
  | nil => simp
  | cons b after ih =>
    obtain ⟨hb, hrest⟩ := List.isChain_cons_cons.mp htail
    have hb : b = 255 := hb rfl
    subst hb
    intro c hc
    rcases List.mem_cons.mp hc with rfl | hc
    · rfl
    · exact ih hrest c hc

/-! ## The invariant -/

namespace ConsolePc

/-- Between a returned `Acquire` and its `Release`. -/
def holds : ConsolePc → Bool
  | outside | inAcquire _ => false
  | _ => true

/-- In the loop of `Acquire`. -/
def atLock : ConsolePc → Bool
  | inAcquire _ => true
  | _ => false

def atReadAvail : ConsolePc → Bool
  | inReadAvail => true
  | _ => false

def atWriteDone : ConsolePc → Bool
  | inWriteDone => true
  | _ => false

/-- The character that has been taken from the console and not returned yet. -/
def taken : ConsolePc → List UInt8
  | got ch => [ch]
  | _ => []

/-- The characters for which `SynchReadAvail` has been passed and that have not been taken yet. -/
def due : ConsolePc → ℕ
  | getChar => 1
  | _ => 0

end ConsolePc

/-- The characters that have been read from the keyboard and not taken are at most the one in `incoming`, or they
and everything after them read as `EOF`. -/
def Buffered (queued input : List UInt8) (incoming : UInt8) : Prop :=
  (queued = [] ∧ incoming = 255) ∨ queued = [incoming] ∨ (incoming = 255 ∧ ∀ b ∈ queued ++ input, b = 255)

namespace SynchConsole

/-- What the semaphore `SynchReadAvail` and the device say about the input while the holder of the lock is at `p`. -/
def Reads (input : List UInt8) (p : ConsolePc) (o : SynchConsole Tid) : Prop :=
  ∃ queued, input = o.returned ++ p.taken ++ queued ++ o.console.input ∧
    o.synchReadAvail.value + p.due = queued.length ∧ Buffered queued o.console.input o.console.incoming

/-- Nothing is being written, or the holder of the lock waits for the end of it. -/
def Writes (p : ConsolePc) (o : SynchConsole Tid) : Prop :=
  (o.synchWriteDone.value = 0 ∧ o.console.putBusy = false ∧ o.console.writeInts = 0 ∧ p ≠ .inWriteDone) ∨
  (o.synchWriteDone.value = 0 ∧ o.console.writeInts = 1 ∧ p = .inWriteDone) ∨
  (o.synchWriteDone.value = 1 ∧ o.console.putBusy = false ∧ o.console.writeInts = 0 ∧ p = .inWriteDone)

/-- The console while the holder of the lock is at `p`. -/
structure At (input : List UInt8) (p : ConsolePc) (o : SynchConsole Tid) : Prop where
  avail : 0 ≤ o.synchReadAvail.value
  reads : EofLast input → o.Reads input p
  writes : o.Writes p

end SynchConsole

structure ConsoleInv (input : List UInt8) (pc : Tid → ConsolePc) (blocked : Tid → Bool) (o : SynchConsole Tid) : Prop
    where
  lock : o.lock.Serves ConsolePc.holds ConsolePc.atLock pc blocked
  readQueue : Waits o.synchReadAvail.queue ConsolePc.atReadAvail pc blocked
  writeQueue : Waits o.synchWriteDone.queue ConsolePc.atWriteDone pc blocked
  free : (∀ t, (pc t).holds = false) → o.At input .outside
  held : ∀ t, (pc t).holds = true → o.At input (pc t)

variable {input : List UInt8} {o : SynchConsole Tid} {p : ConsolePc}

/-! ## The device under the calls and the interrupts -/

namespace SynchConsole

theorem At.body (h : o.At input .outside) (call : ConsoleCall) (lock : Lock Tid) :
    ({ o with lock := lock } : SynchConsole Tid).At input call.body := by
  cases call with
  | getChar => exact ⟨h.avail, h.reads, by simpa [Writes, ConsoleCall.body] using h.writes⟩
  | putChar ch => exact ⟨h.avail, h.reads, by simpa [Writes, ConsoleCall.body] using h.writes⟩

theorem At.readPass (h : o.At input .inReadAvail) (h0 : o.synchReadAvail.value ≠ 0) :
    ({ o with synchReadAvail := { o.synchReadAvail with value := o.synchReadAvail.value - 1 } } :
      SynchConsole Tid).At input .getChar := by
  have havail := h.avail
  refine ⟨?_, fun hlast => ?_, by simpa [Writes] using h.writes⟩
  · simp only
    omega
  obtain ⟨queued, hinput, hvalue, hbuffered⟩ := h.reads hlast
  refine ⟨queued, hinput, ?_, hbuffered⟩
  simp only [ConsolePc.due] at hvalue ⊢
  omega

/-- The character taken from the device is the next of the input. -/
theorem At.take (h : o.At input .getChar) :
    ({ o with console := o.console.getChar.2 } : SynchConsole Tid).At input (.got o.console.getChar.1) := by
  have havail := h.avail
  refine ⟨havail, fun hlast => ?_, by simpa [Writes, Console.getChar] using h.writes⟩
  obtain ⟨queued, hinput, hdue, hbuffered⟩ := h.reads hlast
  simp only [ConsolePc.due, ConsolePc.taken, List.append_nil] at hdue hinput
  rcases hbuffered with ⟨rfl, -⟩ | rfl | ⟨hincoming, hall⟩
  · simp at hdue
    omega
  · refine ⟨[], ?_, ?_, Or.inl ⟨rfl, rfl⟩⟩
    · simpa [ConsolePc.taken, Console.getChar] using hinput
    · simp only [ConsolePc.due, List.length_singleton, List.length_nil] at hdue ⊢
      omega
  · cases queued with
    | nil =>
      simp at hdue
      omega
    | cons b queued =>
      have hb : b = 255 := hall b (by simp)
      refine ⟨queued, ?_, ?_, Or.inr (Or.inr ⟨rfl, fun c hc => hall c (by simp at hc ⊢; tauto)⟩)⟩
      · simpa [ConsolePc.taken, Console.getChar, hincoming, hb] using hinput
      · simp only [ConsolePc.due, List.length_cons] at hdue ⊢
        omega

theorem At.got {ch : UInt8} (h : o.At input (.got ch)) (lock : Lock Tid) :
    ({ o with lock := lock, returned := o.returned ++ [ch] } : SynchConsole Tid).At input .outside := by
  refine ⟨h.avail, fun hlast => ?_, by simpa [Writes] using h.writes⟩
  obtain ⟨queued, hinput, hrest⟩ := h.reads hlast
  exact ⟨queued, by simpa [ConsolePc.taken] using hinput, hrest⟩

theorem At.putChar {ch : UInt8} (h : o.At input (.putChar ch)) :
    ∃ console, o.console.putChar ch = .ok console ∧
      ({ o with console := console } : SynchConsole Tid).At input .inWriteDone := by
  rcases h.writes with ⟨hvalue, hbusy, hints, -⟩ | ⟨-, -, hp⟩ | ⟨-, -, -, hp⟩
  · refine ⟨{ o.console with display := o.console.display ++ [ch], putBusy := true,
                             writeInts := o.console.writeInts + 1 }, ?_, h.avail, h.reads, ?_⟩
    · unfold Console.putChar
      rw [if_neg (by simp [hbusy])]
    · exact Or.inr (Or.inl ⟨hvalue, by simp [hints], rfl⟩)
  · cases hp
  · cases hp

theorem At.writePass (h : o.At input .inWriteDone) (h0 : o.synchWriteDone.value ≠ 0) :
    ({ o with synchWriteDone := { o.synchWriteDone with value := o.synchWriteDone.value - 1 } } :
      SynchConsole Tid).At input .written := by
  refine ⟨h.avail, h.reads, ?_⟩
  rcases h.writes with ⟨hvalue, -⟩ | ⟨hvalue, -⟩ | ⟨hvalue, hbusy, hints, -⟩
  · exact absurd hvalue h0
  · exact absurd hvalue h0
  · exact Or.inl ⟨by simp [hvalue], hbusy, hints, by simp⟩

theorem At.written (h : o.At input .written) (lock : Lock Tid) :
    ({ o with lock := lock } : SynchConsole Tid).At input .outside :=
  ⟨h.avail, h.reads, by simpa [Writes] using h.writes⟩

/-- A poll changes nothing, or a character arrives in a console that looks empty. -/
theorem readPoll_cases {avail : Bool} {o' : SynchConsole Tid} {wakes : List Tid}
    (h : o.readPoll avail = .ok (o', wakes)) : (o' = o ∧ wakes = []) ∨
    ∃ ch rest, o.console.incoming = 255 ∧ o.console.input = ch :: rest ∧
      o' = { o with console := { o.console with input := rest, incoming := ch },
                    synchReadAvail := ⟨o.synchReadAvail.value + 1, o.synchReadAvail.queue.drop 1⟩ } ∧
      wakes = o.synchReadAvail.queue.take 1 := by
  obtain ⟨⟨console, arrived⟩, hcheck, h⟩ := bind_eq_ok.mp h
  unfold Console.checkCharAvail at hcheck
  split at hcheck
  · cases hcheck
    cases h
    exact Or.inl ⟨rfl, rfl⟩
  · rename_i hready
    have hempty : o.console.incoming = 255 := by
      rw [← promote_eq_eof_iff]
      by_contra hne
      exact hready (Or.inl hne)
    split at hcheck
    · cases hcheck
    · rename_i ch rest hinput
      cases hcheck
      dsimp only at h
      rw [if_pos rfl] at h
      obtain ⟨⟨semaphore, ws⟩, hv, h⟩ := bind_eq_ok.mp h
      unfold Semaphore.v at hv
      split at hv
      · cases hv
      · cases hv
        cases h
        exact Or.inr ⟨ch, rest, hempty, hinput, rfl, rfl⟩

/-- A character arrives: it is the only one that has not been taken, or it is one of the last, which all read
as `EOF`. -/
theorem At.arrive (h : o.At input p) {ch : UInt8} {rest : List UInt8} (hempty : o.console.incoming = 255)
    (hinput : o.console.input = ch :: rest) (queue : List Tid) :
    ({ o with console := { o.console with input := rest, incoming := ch },
              synchReadAvail := ⟨o.synchReadAvail.value + 1, queue⟩ } : SynchConsole Tid).At input p := by
  have havail := h.avail
  refine ⟨?_, fun hlast => ?_, h.writes⟩
  · simp only
    omega
  obtain ⟨queued, hall, hvalue, hbuffered⟩ := h.reads hlast
  rw [hinput] at hall hbuffered
  refine ⟨queued ++ [ch], by simpa using hall, ?_, ?_⟩
  · simp only [List.length_append, List.length_singleton]
    push_cast
    omega
  · rcases hbuffered with ⟨rfl, -⟩ | rfl | ⟨-, hlasts⟩
    · exact Or.inr (Or.inl rfl)
    · rw [hempty] at hall ⊢
      have hlasts : ∀ b ∈ ch :: rest, b = 255 := by
        refine EofLast.all (o.returned ++ p.taken) ?_
        rw [hall] at hlast
        simpa using hlast
      refine Or.inr (Or.inr ⟨hlasts ch (by simp), fun b hb => ?_⟩)
      simp only [List.mem_append, List.mem_singleton] at hb
      rcases hb with (rfl | rfl) | hb
      · rfl
      · exact hlasts b (by simp)
      · exact hlasts b (by simp [hb])
    · exact Or.inr (Or.inr ⟨hlasts ch (by simp), by simpa using hlasts⟩)

/-- The state after a write interrupt. -/
def afterWrite (o : SynchConsole Tid) : SynchConsole Tid :=
  { o with console := o.console.writeDone,
           synchWriteDone := ⟨o.synchWriteDone.value + 1, o.synchWriteDone.queue.drop 1⟩ }

/-- A write interrupt comes only for the call that waits for it. -/
theorem At.writeInt (h : o.At input p) (hints : o.console.writeInts ≠ 0) :
    o.writeInt = .ok (o.afterWrite, o.synchWriteDone.queue.take 1) ∧ o.afterWrite.At input p := by
  rcases h.writes with ⟨-, -, h0, -⟩ | ⟨hvalue, hone, hp⟩ | ⟨-, -, h0, -⟩
  · exact absurd h0 hints
  · refine ⟨?_, h.avail, h.reads, Or.inr (Or.inr ⟨?_, rfl, ?_, hp⟩)⟩
    · unfold SynchConsole.writeInt Semaphore.v
      rw [if_neg (by rw [hvalue]; decide), ok_bind]
      rfl
    · simp [afterWrite, hvalue]
    · simp [afterWrite, Console.writeDone, hone]
  · exact absurd h0 hints

end SynchConsole

/-! ## Steps of the system -/

namespace ConsolePc

theorem atLock_of_holds (h : p.holds = true) : p.atLock = false := by
  cases p <;> first | rfl | cases h

theorem elsewhere_of_atLock (h : p.atLock = true) : p.atReadAvail = false ∧ p.atWriteDone = false := by
  cases p <;> first | exact ⟨rfl, rfl⟩ | cases h

theorem elsewhere_of_atReadAvail (h : p.atReadAvail = true) : p.atLock = false ∧ p.atWriteDone = false := by
  cases p <;> first | exact ⟨rfl, rfl⟩ | cases h

theorem elsewhere_of_atWriteDone (h : p.atWriteDone = true) : p.atLock = false ∧ p.atReadAvail = false := by
  cases p <;> first | exact ⟨rfl, rfl⟩ | cases h

theorem body_holds (call : ConsoleCall) : call.body.holds = true ∧ call.body.atLock = false := by
  cases call <;> exact ⟨rfl, rfl⟩

end ConsolePc

section Steps
variable {pc : Tid → ConsolePc} {blocked blocked' : Tid → Bool} {o' : SynchConsole Tid} {t : Tid}

theorem SynchConsole.locked_wakes (call : ConsoleCall) (r : Lock Tid × Bool) : (o.locked call r).wakes = [] := by
  unfold SynchConsole.locked
  split <;> rfl

theorem SynchConsole.readWaited_wakes (r : Semaphore Tid × Bool) : (o.readWaited r).wakes = [] := by
  unfold SynchConsole.readWaited
  split <;> rfl

theorem SynchConsole.writeWaited_wakes (r : Semaphore Tid × Bool) : (o.writeWaited r).wakes = [] := by
  unfold SynchConsole.writeWaited
  split <;> rfl

theorem ConsoleInv.exists_at (h : ConsoleInv input pc blocked o) : ∃ p, o.At input p := by
  by_cases hall : ∀ t, (pc t).holds = false
  · exact ⟨.outside, h.free hall⟩
  · push Not at hall
    obtain ⟨t, ht⟩ := hall
    exact ⟨pc t, h.held t (by simpa using ht)⟩

section Sections
variable [DecidableEq Tid] (h : ConsoleInv input pc blocked o)
include h

/-- The holder of the lock goes on to another point where it holds it. -/
theorem ConsoleInv.step (ht : (pc t).holds = true) {next : ConsolePc}
    (hn : next.holds = true) (hb : ∀ u, u ≠ t → blocked' u = blocked u) (hlock : o'.lock = o.lock)
    (hread : Waits o'.synchReadAvail.queue ConsolePc.atReadAvail (Function.update pc t next) blocked')
    (hwrite : Waits o'.synchWriteDone.queue ConsolePc.atWriteDone (Function.update pc t next) blocked')
    (hat : o'.At input next) : ConsoleInv input (Function.update pc t next) blocked' o' where
  lock := hlock ▸ h.lock.stays ht (ConsolePc.atLock_of_holds ht) hn (ConsolePc.atLock_of_holds hn) hb
  readQueue := hread
  writeQueue := hwrite
  free hall := by
    have hno := hall t
    rw [Function.update_self, hn] at hno
    cases hno
  held u hu := by
    by_cases hut : u = t
    · subst hut
      rwa [Function.update_self]
    · rw [Function.update_of_ne hut] at hu
      exact absurd (h.lock.holds_unique hu ht) hut

/-- The holder goes on without sleeping. -/
theorem ConsoleInv.step_awake (hb : blocked t = false) (ht : (pc t).holds = true) {next : ConsolePc}
    (hn : next.holds = true) (hlock : o'.lock = o.lock) (hread : o'.synchReadAvail.queue = o.synchReadAvail.queue)
    (hwrite : o'.synchWriteDone.queue = o.synchWriteDone.queue) (hat : o'.At input next) :
    ConsoleInv input (Function.update pc t next) blocked o' := by
  refine h.step ht hn (fun _ _ => rfl) hlock ?_ ?_ hat
  · rw [hread]
    exact h.readQueue.move hb (Or.inr hb) fun _ _ => rfl
  · rw [hwrite]
    exact h.writeQueue.move hb (Or.inr hb) fun _ _ => rfl

theorem ConsoleInv.locked (hb : blocked t = false) (ht : (pc t).holds = false) (call : ConsoleCall) :
    ConsoleInv input (Function.update pc t (o.locked call (o.lock.tryAcquire t)).pc)
      (blockedAfter blocked t (o.locked call (o.lock.tryAcquire t))) (o.locked call (o.lock.tryAcquire t)).obj := by
  rcases h.lock.tryAcquire hb ht call.body (.inAcquire call) (ConsolePc.body_holds call).1
    (ConsolePc.body_holds call).2 rfl rfl with ⟨l', hl, hnone, -, hserves⟩ | ⟨l', hl, -, hserves⟩
  · rw [hl, blockedAfter_awake _ _ rfl rfl]
    refine ⟨hserves, h.readQueue.move hb (Or.inr hb) fun _ _ => rfl, h.writeQueue.move hb (Or.inr hb) fun _ _ => rfl,
      fun hall => ?_, fun u hu => ?_⟩
    · have hno := hall t
      simp [SynchConsole.locked, (ConsolePc.body_holds call).1] at hno
    · by_cases hut : u = t
      · subst hut
        simp only [SynchConsole.locked, if_true, Function.update_self]
        exact (h.free hnone).body call l'
      · rw [Function.update_of_ne hut, hnone u] at hu
        cases hu
  · have hsleep : ∀ u, u ≠ t → Function.update blocked t true u = blocked u := fun u hu =>
      Function.update_of_ne hu _ _
    rw [hl, blockedAfter_asleep _ _ rfl rfl]
    refine ⟨hserves, h.readQueue.move hb (Or.inl rfl) hsleep, h.writeQueue.move hb (Or.inl rfl) hsleep,
      fun hall => ?_, fun u hu => ?_⟩
    · have hfree := h.free fun u => ?_
      · exact ⟨hfree.avail, hfree.reads, hfree.writes⟩
      · by_cases hut : u = t
        · rw [hut, ht]
        · simpa [hut, SynchConsole.locked] using hall u
    · by_cases hut : u = t
      · subst hut
        simp [SynchConsole.locked, ConsolePc.holds] at hu
      · rw [Function.update_of_ne hut] at hu ⊢
        have hheld := h.held u hu
        exact ⟨hheld.avail, hheld.reads, hheld.writes⟩

theorem ConsoleInv.readWaited (hb : blocked t = false) (ht : pc t = .inReadAvail) :
    ConsoleInv input (Function.update pc t (o.readWaited (o.synchReadAvail.tryP t)).pc)
      (blockedAfter blocked t (o.readWaited (o.synchReadAvail.tryP t)))
      (o.readWaited (o.synchReadAvail.tryP t)).obj := by
  have hholds : (pc t).holds = true := by rw [ht]; rfl
  have hat : o.At input .inReadAvail := ht ▸ h.held t hholds
  by_cases h0 : o.synchReadAvail.value = 0
  · have hrun : o.readWaited (o.synchReadAvail.tryP t) =
        { obj := { o with synchReadAvail := { o.synchReadAvail with queue := o.synchReadAvail.queue ++ [t] } },
          pc := .inReadAvail, sleeps := true } := by
      simp [Semaphore.tryP, SynchConsole.readWaited, h0]
    have hsleep : ∀ u, u ≠ t → Function.update blocked t true u = blocked u := fun u hu =>
      Function.update_of_ne hu _ _
    rw [hrun, blockedAfter_asleep _ _ rfl rfl]
    exact h.step hholds rfl hsleep rfl (h.readQueue.sleep hb rfl) (h.writeQueue.move hb (Or.inl rfl) hsleep)
      ⟨hat.avail, hat.reads, hat.writes⟩
  · have hrun : o.readWaited (o.synchReadAvail.tryP t) =
        { obj := { o with synchReadAvail := { o.synchReadAvail with value := o.synchReadAvail.value - 1 } },
          pc := .getChar } := by
      simp [Semaphore.tryP, SynchConsole.readWaited, h0]
    rw [hrun, blockedAfter_awake _ _ rfl rfl]
    exact h.step_awake hb hholds rfl rfl rfl rfl (hat.readPass h0)

theorem ConsoleInv.writeWaited (hb : blocked t = false) (ht : pc t = .inWriteDone) :
    ConsoleInv input (Function.update pc t (o.writeWaited (o.synchWriteDone.tryP t)).pc)
      (blockedAfter blocked t (o.writeWaited (o.synchWriteDone.tryP t)))
      (o.writeWaited (o.synchWriteDone.tryP t)).obj := by
  have hholds : (pc t).holds = true := by rw [ht]; rfl
  have hat : o.At input .inWriteDone := ht ▸ h.held t hholds
  by_cases h0 : o.synchWriteDone.value = 0
  · have hrun : o.writeWaited (o.synchWriteDone.tryP t) =
        { obj := { o with synchWriteDone := { o.synchWriteDone with queue := o.synchWriteDone.queue ++ [t] } },
          pc := .inWriteDone, sleeps := true } := by
      simp [Semaphore.tryP, SynchConsole.writeWaited, h0]
    have hsleep : ∀ u, u ≠ t → Function.update blocked t true u = blocked u := fun u hu =>
      Function.update_of_ne hu _ _
    rw [hrun, blockedAfter_asleep _ _ rfl rfl]
    exact h.step hholds rfl hsleep rfl (h.readQueue.move hb (Or.inl rfl) hsleep) (h.writeQueue.sleep hb rfl)
      ⟨hat.avail, hat.reads, hat.writes⟩
  · have hrun : o.writeWaited (o.synchWriteDone.tryP t) =
        { obj := { o with synchWriteDone := { o.synchWriteDone with value := o.synchWriteDone.value - 1 } },
          pc := .written } := by
      simp [Semaphore.tryP, SynchConsole.writeWaited, h0]
    rw [hrun, blockedAfter_awake _ _ rfl rfl]
    exact h.step_awake hb hholds rfl rfl rfl rfl (hat.writePass h0)

/-- The end of a call; `returned` is what it adds to the characters returned. -/
theorem ConsoleInv.release (hb : blocked t = false) (ht : (pc t).holds = true)
    (returned : List UInt8) (hat : ∀ lock, ({ o with lock := lock, returned := returned } : SynchConsole Tid).At input
      .outside) :
    ∃ lock wakes, o.lock.release t = .ok (lock, wakes) ∧ wakes.Nodup ∧ (∀ u ∈ wakes, blocked u = true) ∧
      ConsoleInv input (Function.update pc t .outside) (fun u => if u ∈ wakes then false else blocked u)
        { o with lock := lock, returned := returned } := by
  obtain ⟨lock, wakes, hrun, hnd, hw, -, hserves⟩ := h.lock.release ht (ConsolePc.atLock_of_holds ht)
  have hread := h.readQueue.others fun u hu => (ConsolePc.elsewhere_of_atLock (hw u hu).1).1
  have hwrite := h.writeQueue.others fun u hu => (ConsolePc.elsewhere_of_atLock (hw u hu).1).2
  have hawake : (if t ∈ wakes then false else blocked t) = false := by simp [hb]
  refine ⟨lock, wakes, hrun, hnd, fun u hu => (hw u hu).2, hserves _ _ rfl rfl (fun _ _ => rfl),
    hread.move hawake (Or.inl rfl) (fun _ _ => rfl), hwrite.move hawake (Or.inl rfl) (fun _ _ => rfl),
    fun _ => hat lock, fun u hu => ?_⟩
  by_cases hut : u = t
  · subst hut
    rw [Function.update_self] at hu
    cases hu
  · rw [Function.update_of_ne hut] at hu
    exact absurd (h.lock.holds_unique hu ht) hut

/-- Every section that can start runs to its end, with no assertion failing, and keeps the invariant. -/
theorem ConsoleInv.sect (hb : blocked t = false) {a : ConsoleAct} (he : (consoleProgram Tid).enabled a (pc t)) :
    ∃ e, (consoleProgram Tid).sect a t (pc t) o = .ok e ∧ e.wakes.Nodup ∧ (∀ u ∈ e.wakes, blocked u = true) ∧
      ConsoleInv input (Function.update pc t e.pc) (blockedAfter blocked t e) e.obj := by
  cases a with
  | call call =>
    cases hpc : pc t <;> rw [hpc] at he <;> try exact he.elim
    have hout : (pc t).holds = false := by rw [hpc]; rfl
    refine ⟨o.locked call (o.lock.tryAcquire t), ?_, by simp [SynchConsole.locked_wakes],
      by simp [SynchConsole.locked_wakes], h.locked hb hout call⟩
    simp only [consoleProgram, h.lock.acquire hout, ok_bind, pure_eq_ok]
  | resume =>
    cases hpc : pc t with
    | outside =>
      rw [hpc] at he
      exact he.elim
    | inAcquire call =>
      exact ⟨_, rfl, by simp [SynchConsole.locked_wakes], by simp [SynchConsole.locked_wakes],
        h.locked hb (by rw [hpc]; rfl) call⟩
    | inReadAvail =>
      exact ⟨_, rfl, by simp [SynchConsole.readWaited_wakes], by simp [SynchConsole.readWaited_wakes],
        h.readWaited hb hpc⟩
    | getChar =>
      have hholds : (pc t).holds = true := by rw [hpc]; rfl
      have hat : o.At input .getChar := hpc ▸ h.held t hholds
      refine ⟨_, rfl, List.nodup_nil, by simp, ?_⟩
      rw [blockedAfter_awake _ _ rfl rfl]
      exact h.step_awake hb hholds rfl rfl rfl rfl hat.take
    | got ch =>
      have hholds : (pc t).holds = true := by rw [hpc]; rfl
      have hat : o.At input (.got ch) := hpc ▸ h.held t hholds
      obtain ⟨lock, wakes, hrun, hnd, hw, hinv⟩ := h.release hb hholds (o.returned ++ [ch]) hat.got
      refine ⟨{ obj := { o with lock := lock, returned := o.returned ++ [ch] }, pc := .outside, wakes := wakes },
        ?_, hnd, hw, ?_⟩
      · simp only [consoleProgram, hrun, ok_bind, pure_eq_ok]
      · rwa [blockedAfter_wakes _ _ rfl]
    | putChar ch =>
      have hholds : (pc t).holds = true := by rw [hpc]; rfl
      have hat : o.At input (.putChar ch) := hpc ▸ h.held t hholds
      obtain ⟨console, hrun, hat'⟩ := hat.putChar
      refine ⟨{ obj := { o with console := console }, pc := .inWriteDone }, ?_, List.nodup_nil, by simp, ?_⟩
      · simp only [consoleProgram, hrun, ok_bind, pure_eq_ok]
      · rw [blockedAfter_awake _ _ rfl rfl]
        exact h.step_awake hb hholds rfl rfl rfl rfl hat'
    | inWriteDone =>
      exact ⟨_, rfl, by simp [SynchConsole.writeWaited_wakes], by simp [SynchConsole.writeWaited_wakes],
        h.writeWaited hb hpc⟩
    | written =>
      have hholds : (pc t).holds = true := by rw [hpc]; rfl
      have hat : o.At input .written := hpc ▸ h.held t hholds
      obtain ⟨lock, wakes, hrun, hnd, hw, hinv⟩ := h.release hb hholds o.returned hat.written
      refine ⟨{ obj := { o with lock := lock }, pc := .outside, wakes := wakes }, ?_, hnd, hw, ?_⟩
      · simp only [consoleProgram, hrun, ok_bind, pure_eq_ok]
      · rwa [blockedAfter_wakes _ _ rfl]

theorem ConsoleInv.readPoll {avail : Bool} {wakes : List Tid}
    (hrun : o.readPoll avail = .ok (o', wakes)) : wakes.Nodup ∧ (∀ u ∈ wakes, blocked u = true) ∧
      ConsoleInv input pc (fun u => if u ∈ wakes then false else blocked u) o' := by
  rcases SynchConsole.readPoll_cases hrun with ⟨rfl, rfl⟩ | ⟨ch, rest, hempty, hinput, rfl, rfl⟩
  · exact ⟨List.nodup_nil, by simp, by simpa using h⟩
  · have hfirst : ∀ u ∈ o.synchReadAvail.queue.take 1, (pc u).atReadAvail = true := fun u hu =>
      (h.readQueue.first hu).1
    exact ⟨h.readQueue.nodup.sublist (List.take_sublist 1 _), fun u hu => (h.readQueue.first hu).2,
      h.lock.others fun u hu => (ConsolePc.elsewhere_of_atReadAvail (hfirst u hu)).1, h.readQueue.wake,
      h.writeQueue.others fun u hu => (ConsolePc.elsewhere_of_atReadAvail (hfirst u hu)).2,
      fun hall => (h.free hall).arrive hempty hinput _, fun u hu => (h.held u hu).arrive hempty hinput _⟩

theorem ConsoleInv.writeInt (hints : o.console.writeInts ≠ 0) :
    ∃ o' wakes, o.writeInt = .ok (o', wakes) ∧ wakes.Nodup ∧ (∀ u ∈ wakes, blocked u = true) ∧
      ConsoleInv input pc (fun u => if u ∈ wakes then false else blocked u) o' := by
  obtain ⟨p, hat⟩ := h.exists_at
  have hfirst : ∀ u ∈ o.synchWriteDone.queue.take 1, (pc u).atWriteDone = true := fun u hu =>
    (h.writeQueue.first hu).1
  exact ⟨o.afterWrite, o.synchWriteDone.queue.take 1, (hat.writeInt hints).1,
    h.writeQueue.nodup.sublist (List.take_sublist 1 _), fun u hu => (h.writeQueue.first hu).2,
    h.lock.others fun u hu => (ConsolePc.elsewhere_of_atWriteDone (hfirst u hu)).1,
    h.readQueue.others fun u hu => (ConsolePc.elsewhere_of_atWriteDone (hfirst u hu)).2, h.writeQueue.wake,
    fun hall => ((h.free hall).writeInt hints).2, fun u hu => ((h.held u hu).writeInt hints).2⟩

end Sections

theorem consoleProgram_stable [DecidableEq Tid] (input : List UInt8) :
    Stable (consoleProgram Tid) (fun _ _ _ _ => True) (ConsoleInv input) where
  exec hinv hb he _ hs := by
    obtain ⟨e, hrun, hrest⟩ := hinv.sect hb he
    rw [hrun] at hs
    cases hs
    exact hrest
  interrupt {_ _ o ev _ _} hinv hs := by
    cases ev with
    | poll avail => exact hinv.readPoll hs
    | write =>
      by_cases hints : o.console.writeInts = 0
      · simp only [consoleProgram, hints, if_true] at hs
        cases hs
        exact ⟨List.nodup_nil, by simp, by simpa using hinv⟩
      · simp only [consoleProgram, hints, if_false] at hs
        obtain ⟨o', wakes, hrun, hrest⟩ := hinv.writeInt hints
        rw [hrun] at hs
        cases hs
        exact hrest

theorem consoleStart_inv {s : ConsoleState Tid} (h : ConsoleStart input s) :
    Placed s ∧ ConsoleInv input s.pc s.blocked s.obj := by
  obtain ⟨hp, ho, hpc⟩ := h
  have hat : (SynchConsole.new input : SynchConsole Tid).At input .outside := by
    refine ⟨le_refl _, fun _ => ⟨[], rfl, rfl, Or.inl ⟨rfl, rfl⟩⟩, Or.inl ⟨rfl, rfl, rfl, by simp⟩⟩
  rw [ho]
  exact ⟨hp, Lock.new_ok.congr (by simp [hpc, ConsolePc.holds]) (by simp [hpc, ConsolePc.atLock]),
    ⟨List.nodup_nil, by simp [SynchConsole.new, hpc, ConsolePc.atReadAvail]⟩,
    ⟨List.nodup_nil, by simp [SynchConsole.new, hpc, ConsolePc.atWriteDone]⟩, fun _ => hat,
    by simp [hpc, ConsolePc.holds]⟩

theorem consoleReached_inv [DecidableEq Tid] {s : ConsoleState Tid} (h : ConsoleReached input s) :
    ConsoleInv input s.pc s.blocked s.obj :=
  ((consoleProgram_stable input).run (fun _ hs => consoleStart_inv hs)
    (h.mono fun _ _ _ _ _ => trivial)).2

end Steps

/-! ## A thread alone with the console -/

section Alone
variable [DecidableEq Tid]

/-- The console between two calls, with no character in it. -/
def SynchConsole.empty (input returned : List UInt8) : SynchConsole Tid := { new input with returned := returned }

/-- `t` has the console to itself. -/
def lone (t : Tid) (p : ConsolePc) (o : SynchConsole Tid) : ConsoleState Tid :=
  State.alone t .outside p o

theorem reached_exec {t : Tid} (a : ConsoleAct) (p' : ConsolePc) (o' : SynchConsole Tid)
    (h : ConsoleReached input (lone t p o)) (he : (consoleProgram Tid).enabled a p)
    (hs : (consoleProgram Tid).sect a t p o = .ok { obj := o', pc := p' }) : ConsoleReached input (lone t p' o') :=
  Reachable.next h trivial (Step.alone_exec he hs)

theorem reached_poll {t : Tid} (o' : SynchConsole Tid) (h : ConsoleReached input (lone t p o))
    (hs : o.readPoll true = .ok (o', [])) : ConsoleReached input (lone t p o') :=
  Reachable.next h trivial (Step.alone_interrupt (P := consoleProgram Tid) (e := .poll true) hs)

/-- A `GetChar` returns at once what is in the console, if there has been a call of `ReadAvail` for it. -/
theorem reached_getChar {t : Tid} {console : Console} {n : ℕ} {returned : List UInt8}
    (h : ConsoleReached input (lone t .outside ⟨console, Lock.new, ⟨n + 1, []⟩, ⟨0, []⟩, returned⟩)) :
    ConsoleReached input (lone t .outside
      ⟨console.getChar.2, Lock.new, ⟨n, []⟩, ⟨0, []⟩, returned ++ [console.getChar.1]⟩) := by
  have hacquire := reached_exec (.call .getChar) .inReadAvail
    ⟨console, ⟨false, some t, []⟩, ⟨n + 1, []⟩, ⟨0, []⟩, returned⟩ h trivial rfl
  have hpass := reached_exec .resume .getChar
    ⟨console, ⟨false, some t, []⟩, ⟨n, []⟩, ⟨0, []⟩, returned⟩ hacquire trivial (by
      have hne : (n : Int) + 1 ≠ 0 := by omega
      simp [consoleProgram, Semaphore.tryP, SynchConsole.readWaited, hne])
  have htake := reached_exec .resume (.got console.getChar.1)
    ⟨console.getChar.2, ⟨false, some t, []⟩, ⟨n, []⟩, ⟨0, []⟩, returned⟩ hpass trivial rfl
  exact reached_exec .resume _ _ htake trivial rfl

theorem reached_start (input : List UInt8) (t : Tid) :
    ConsoleReached input (lone t .outside (SynchConsole.empty input [])) :=
  Reachable.start ⟨placed_alone _ _ _ _, rfl, fun u => by simp [lone, State.alone]⟩

/-- One character after the other is polled and returned. -/
theorem reached_after {t : Tid} (front rest : List UInt8) {returned : List UInt8}
    (h : ConsoleReached input (lone t .outside (SynchConsole.empty (front ++ rest) returned))) :
    ConsoleReached input (lone t .outside (SynchConsole.empty rest (returned ++ front))) := by
  induction front generalizing returned with
  | nil => simpa using h
  | cons ch front ih =>
    have hpoll := reached_poll
      ⟨⟨front ++ rest, ch, false, 0, []⟩, Lock.new, ⟨0 + 1, []⟩, ⟨0, []⟩, returned⟩ h rfl
    have hget := ih (reached_getChar (n := 0) hpoll)
    simpa [Console.getChar] using hget

/-- When `EOF` is polled and the next poll comes before the call, the character after it is returned first. -/
theorem reached_overtaken {t : Tid} {ch : UInt8} {rest returned : List UInt8}
    (h : ConsoleReached input (lone t .outside (SynchConsole.empty (255 :: ch :: rest) returned))) :
    ∃ s : ConsoleState Tid, ConsoleReached input s ∧ s.obj.returned = returned ++ [ch] := by
  have hfirst := reached_poll
    ⟨⟨ch :: rest, 255, false, 0, []⟩, Lock.new, ⟨0 + 1, []⟩, ⟨0, []⟩, returned⟩ h rfl
  have hsecond := reached_poll
    ⟨⟨rest, ch, false, 0, []⟩, Lock.new, ⟨1 + 1, []⟩, ⟨0, []⟩, returned⟩ hfirst rfl
  exact ⟨_, reached_getChar (n := 1) hsecond, rfl⟩

end Alone

/-- `PutChar` finds the device free in every interleaving, and in every interleaving the characters returned are a
prefix of the input, exactly if the input has no byte `0xff`, which reads as `EOF`, before another byte. -/
theorem synchConsole_delivers_iff [DecidableEq Tid] [Inhabited Tid] (input : List UInt8) :
    (∀ s : ConsoleState Tid, ConsoleReached input s →
      ∀ t ch, s.pc t = .putChar ch → ∃ console, s.obj.console.putChar ch = .ok console) ∧
    ((∀ s : ConsoleState Tid, ConsoleReached input s → s.obj.returned <+: input) ↔
      EofLast input) := by
  refine ⟨fun s hs t ch ht => ?_, fun hall => ?_, fun hlast s hs => ?_⟩
  · have hat : s.obj.At input (.putChar ch) := ht ▸ (consoleReached_inv hs).held t (by rw [ht]; rfl)
    obtain ⟨console, hrun, -⟩ := hat.putChar
    exact ⟨console, hrun⟩
  · rw [EofLast, List.isChain_iff_getElem]
    intro i hi heof
    have hsplit : input = input.take i ++ 255 :: input[i + 1] :: input.drop (i + 2) := by
      rw [← heof, List.getElem_cons_drop, List.getElem_cons_drop, List.take_append_drop]
    have hstart : ConsoleReached input (lone (default : Tid) .outside (SynchConsole.empty
        (input.take i ++ 255 :: input[i + 1] :: input.drop (i + 2)) [])) := by
      rw [← hsplit]
      exact reached_start input default
    obtain ⟨s, hs, hreturned⟩ := reached_overtaken (reached_after _ _ hstart)
    have hprefix : input.take i ++ [input[i + 1]] <+: input.take i ++ 255 :: input[i + 1] :: input.drop (i + 2) := by
      rw [← hsplit]
      simpa [hreturned] using hall s hs
    exact (List.cons_prefix_cons.mp ((List.prefix_append_right_inj _).mp hprefix)).1
  · obtain ⟨p, hat⟩ := (consoleReached_inv hs).exists_at
    obtain ⟨queued, hinput, -⟩ := hat.reads hlast
    exact ⟨p.taken ++ queued ++ s.obj.console.input, by simpa using hinput.symm⟩

/-- The input `0xff`, `a`: one thread reads `a` first. -/
theorem synchConsole_overtakes : ∃ s : State (Fin 1) ConsolePc (SynchConsole (Fin 1)),
    ConsoleReached [255, 97] s ∧ s.obj.returned = [97] ∧ ¬ s.obj.returned <+: [255, 97] := by
  obtain ⟨s, hs, hreturned⟩ := reached_overtaken (reached_start [255, 97] (0 : Fin 1))
  exact ⟨s, hs, hreturned, by rw [hreturned]; decide⟩

end Nachos
