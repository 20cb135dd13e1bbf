import Nachos.Library.SortedList
import Nachos.Machine.Basic

/-! # Simulated time and interrupts (`machine/interrupt.cc`, `threads/list.cc`, `machine/stats.h`)

The handlers are code of the devices, so a call of `OneTick`, `SetLevel` or `Idle` is cut where it calls one:
between two steps of `Simulation` either the kernel or a handler makes the next call, or a loop of
`CheckIfDue` goes on. `Yield` at the end of `OneTick` lets other threads make calls; that the status is restored
after it is a step `setStatus` of its own. Ticks are 64-bit unsigned numbers. -/
set_option autoImplicit false

namespace Nachos
open Buffer Execution

abbrev userTick : ℕ := 1
abbrev systemTick : ℕ := 10

inductive IntStatus where
  | intOff
  | intOn
  deriving DecidableEq, Repr

inductive MachineStatus where
  | idleMode
  | systemMode
  | userMode
  deriving DecidableEq, Repr

inductive IntType where
  | timerInt
  | diskInt
  | consoleWriteInt
  | consoleReadInt
  | networkSendInt
  | networkRecvInt
  deriving DecidableEq, Repr

/-- A pending interrupt; `object` tells the objects apart that `new` gives. -/
structure PendingInterrupt where
  object : ℕ
  handler : ℕ
  arg : Int
  when : ℕ
  type : IntType
  deriving DecidableEq, Repr

structure Statistics where
  totalTicks : ℕ
  idleTicks : ℕ
  systemTicks : ℕ
  userTicks : ℕ
  deriving DecidableEq, Repr

structure Interrupt where
  level : IntStatus
  pending : List (SortedList.Element PendingInterrupt)
  inHandler : Bool
  yieldOnReturn : Bool
  status : MachineStatus
  stats : Statistics
  deriving DecidableEq, Repr

/-- The wrap-around of an `unsigned long long`. -/
def uint64 (x : ℕ) : ℕ := x % 18446744073709551616

namespace Interrupt

def new : Interrupt := ⟨.intOff, [], false, false, .systemMode, ⟨0, 0, 0, 0⟩⟩

/-- The object that `Schedule` makes. -/
def toOccur (s : Interrupt) (object handler : ℕ) (arg : Int) (fromNow : ℕ) (type : IntType) : PendingInterrupt :=
  ⟨object, handler, arg, uint64 (s.stats.totalTicks + fromNow), type⟩

/-- `Interrupt::Schedule`. -/
def schedule (s : Interrupt) (object handler : ℕ) (arg : Int) (fromNow : ℕ) (type : IntType) : Call Interrupt :=
  let toOccur := s.toOccur object handler arg fromNow type
  if fromNow = 0 then .error .assertFailed
  else .ok { s with pending := SortedList.insert toOccur toOccur.when s.pending }

/-- `Interrupt::YieldOnReturn`. -/
def yieldAtReturn (s : Interrupt) : Call Interrupt :=
  if s.inHandler then .ok { s with yieldOnReturn := true } else .error .assertFailed

/-- `Interrupt::SetLevel`, up to the call of `OneTick` if there is one. -/
def setLevel (s : Interrupt) (now : IntStatus) : Call (Interrupt × Bool) :=
  if now = .intOff ∨ s.inHandler = false then .ok ({ s with level := now }, now = .intOn ∧ s.level = .intOff)
  else .error .assertFailed

/-- The ticks of `OneTick`, up to the loop. -/
def tick (s : Interrupt) : Interrupt :=
  let stats := s.stats
  let stats :=
    if s.status = .systemMode then
      { stats with
        totalTicks := uint64 (stats.totalTicks + systemTick)
        systemTicks := uint64 (stats.systemTicks + systemTick) }
    else
      { stats with
        totalTicks := uint64 (stats.totalTicks + userTick)
        userTicks := uint64 (stats.userTicks + userTick) }
  { s with stats := stats, level := .intOff }

/-- `OneTick` after the loop, up to the call of `Yield`. -/
def endTick (s : Interrupt) : Interrupt :=
  let s := { s with level := .intOn }
  if s.yieldOnReturn then { s with yieldOnReturn := false, status := .systemMode } else s

/-- `Idle` after the loop. -/
def endIdle (s : Interrupt) : Interrupt := { s with yieldOnReturn := false, status := .systemMode }

/-- The clock goes on to the time of the next interrupt. -/
def advance (s : Interrupt) (when : ℕ) : Interrupt :=
  { s with stats := { s.stats with
      totalTicks := when
      idleTicks := uint64 (s.stats.idleTicks + (when - s.stats.totalTicks)) } }

/-- `CheckIfDue` once the interrupt is due: put back, or its handler is called. -/
def fire (s : Interrupt) (toOccur : PendingInterrupt) (when : ℕ) : Interrupt × Option PendingInterrupt :=
  if s.status = .idleMode ∧ toOccur.type = .timerInt ∧ s.pending = [] then
    ({ s with pending := SortedList.insert toOccur when s.pending }, none)
  else ({ s with inHandler := true, status := .systemMode }, some toOccur)

/-- `Interrupt::CheckIfDue`, up to the call of the handler if there is one to call. -/
def checkIfDue (s : Interrupt) (advanceClock : Bool) : Call (Interrupt × Option PendingInterrupt) :=
  if s.level ≠ .intOff then .error .assertFailed
  else
    match s.pending with
    | [] => .ok (s, none)
    | ⟨toOccur, when⟩ :: rest =>
      let s := { s with pending := rest }
      if advanceClock ∧ when > s.stats.totalTicks then .ok ((s.advance when).fire toOccur when)
      else if when > s.stats.totalTicks then
        .ok ({ s with pending := SortedList.insert toOccur when s.pending }, none)
      else .ok (s.fire toOccur when)

/-- What `CheckIfDue` does with the first interrupt. -/
inductive Checked (s : Interrupt) (advanceClock : Bool) : Interrupt × Option PendingInterrupt → Prop
  | nothing (hpending : s.pending = []) : Checked s advanceClock (s, none)
  | advanced {e : SortedList.Element PendingInterrupt} {rest : List (SortedList.Element PendingInterrupt)}
      (hpending : s.pending = e :: rest) (hadvance : advanceClock = true) (hlater : s.stats.totalTicks < e.key) :
      Checked s advanceClock ((advance { s with pending := rest } e.key).fire e.item e.key)
  | notYet {e : SortedList.Element PendingInterrupt} {rest : List (SortedList.Element PendingInterrupt)}
      (hpending : s.pending = e :: rest) (hstay : advanceClock = false) (hlater : s.stats.totalTicks < e.key) :
      Checked s advanceClock ({ s with pending := SortedList.insert e.item e.key rest }, none)
  | due {e : SortedList.Element PendingInterrupt} {rest : List (SortedList.Element PendingInterrupt)}
      (hpending : s.pending = e :: rest) (hdue : e.key ≤ s.stats.totalTicks) :
      Checked s advanceClock (fire { s with pending := rest } e.item e.key)

theorem checkIfDue_eq_ok {s : Interrupt} {advanceClock : Bool} {x : Interrupt × Option PendingInterrupt}
    (h : s.checkIfDue advanceClock = .ok x) : s.Checked advanceClock x := by
  unfold checkIfDue at h
  split at h
  · cases h
  · cases hpending : s.pending with
    | nil =>
      rw [hpending] at h
      obtain rfl := Except.ok.inj h
      exact .nothing hpending
    | cons e rest =>
      rw [hpending] at h
      dsimp only at h
      split at h
      · next hadvance =>
        obtain rfl := Except.ok.inj h
        exact .advanced hpending hadvance.1 hadvance.2
      · next hstay =>
        split at h
        · next hlater =>
          obtain rfl := Except.ok.inj h
          exact .notYet hpending (Bool.eq_false_iff.mpr fun hadvance => hstay ⟨hadvance, hlater⟩) hlater
        · next hdue =>
          obtain rfl := Except.ok.inj h
          exact .due hpending (Nat.le_of_not_lt hdue)

/-- `CheckIfDue` after the handler has returned. -/
def endHandler (s : Interrupt) (old : MachineStatus) : Interrupt := { s with status := old, inHandler := false }

end Interrupt

/-! ## The machine between two calls -/

/-- Whose loop of `CheckIfDue` it is. -/
inductive Caller where
  | oneTick
  | idle
  deriving DecidableEq, Repr

inductive Control where
  | kernel
  | checking (caller : Caller)
  | handler (caller : Caller) (old : MachineStatus)
  | halted
  deriving DecidableEq, Repr

/-- A call of a handler, with the time at which it is made. -/
structure HandlerCall where
  interrupt : PendingInterrupt
  time : ℕ
  deriving DecidableEq, Repr

/-- The interrupts with what has happened so far: those that have been scheduled, and the handlers that have
been called, in this order. -/
structure Simulation where
  interrupt : Interrupt
  control : Control
  scheduled : List PendingInterrupt
  calls : List HandlerCall
  deriving DecidableEq, Repr

inductive Simulation.Event where
  | schedule (handler : ℕ) (arg : Int) (fromNow : ℕ) (type : IntType)
  | setLevel (now : IntStatus)
  | oneTick
  | idle
  | yieldOnReturn
  | setStatus (status : MachineStatus)
  | check
  | handlerReturns
  deriving DecidableEq, Repr

/-- The kernel or a handler is about to make a call. -/
def Control.RunsCode : Control → Prop
  | .kernel => True
  | .handler _ _ => True
  | _ => False

namespace Simulation

def start : Simulation := ⟨.new, .kernel, [], []⟩

def totalTicks (s : Simulation) : ℕ := s.interrupt.stats.totalTicks

/-- After `CheckIfDue`: in the handler, or as the caller goes on. -/
def checked (s : Simulation) (caller : Caller) (old : MachineStatus) (otherwise : Interrupt → Simulation) :
    Interrupt × Option PendingInterrupt → Simulation
  | (i, some toOccur) =>
    { s with
      interrupt := i
      control := .handler caller old
      calls := s.calls ++ [⟨toOccur, i.stats.totalTicks⟩] }
  | (i, none) => otherwise i

def ticking (s : Simulation) (i : Interrupt) : Simulation :=
  { s with interrupt := i.tick, control := .checking .oneTick }

/-- The caller after its loop. -/
def loopEnds (s : Simulation) : Caller → Interrupt → Simulation
  | .oneTick, i => { s with interrupt := i.endTick, control := .kernel }
  | .idle, i => { s with interrupt := i.endIdle, control := .kernel }

inductive Step : Simulation → Event → Simulation → Prop
  | schedule {s : Simulation} {handler : ℕ} {arg : Int} {fromNow : ℕ} {type : IntType} {i : Interrupt}
      (hcode : s.control.RunsCode)
      (h : s.interrupt.schedule s.scheduled.length handler arg fromNow type = .ok i) :
      Step s (.schedule handler arg fromNow type)
        { s with
          interrupt := i
          scheduled := s.scheduled ++ [s.interrupt.toOccur s.scheduled.length handler arg fromNow type] }
  | setLevel {s : Simulation} {now : IntStatus} {i : Interrupt} {ticks : Bool} (hcode : s.control.RunsCode)
      (h : s.interrupt.setLevel now = .ok (i, ticks)) :
      Step s (.setLevel now) (if ticks then s.ticking i else { s with interrupt := i })
  | yieldOnReturn {s : Simulation} {i : Interrupt} (hcode : s.control.RunsCode)
      (h : s.interrupt.yieldAtReturn = .ok i) : Step s .yieldOnReturn { s with interrupt := i }
  | oneTick {s : Simulation} (hkernel : s.control = .kernel) : Step s .oneTick (s.ticking s.interrupt)
  | idle {s : Simulation} {x : Interrupt × Option PendingInterrupt} (hkernel : s.control = .kernel)
      (h : Interrupt.checkIfDue { s.interrupt with status := .idleMode } true = .ok x) :
      Step s .idle (s.checked .idle .idleMode (fun i => { s with interrupt := i, control := .halted }) x)
  | setStatus {s : Simulation} (hkernel : s.control = .kernel) (status : MachineStatus) :
      Step s (.setStatus status) { s with interrupt := { s.interrupt with status := status } }
  | check {s : Simulation} {caller : Caller} {x : Interrupt × Option PendingInterrupt}
      (hloop : s.control = .checking caller) (h : s.interrupt.checkIfDue false = .ok x) :
      Step s .check (s.checked caller s.interrupt.status (s.loopEnds caller) x)
  | handlerReturns {s : Simulation} {caller : Caller} {old : MachineStatus} (hhandler : s.control = .handler caller old) :
      Step s .handlerReturns { s with interrupt := s.interrupt.endHandler old, control := .checking caller }

/-- No sum of ticks exceeds 64 bits. -/
def Fits (s : Simulation) : Event → Prop
  | .schedule _ _ fromNow _ => s.totalTicks + fromNow < 18446744073709551616
  | .setLevel _ => s.totalTicks + systemTick < 18446744073709551616
  | .oneTick => s.totalTicks + systemTick < 18446744073709551616
  | _ => True

abbrev Reached : Simulation → Prop := Reachable (· = start) Step Fits

/-! ## Invariant -/

/-- What holds of the ticks, the list of pending interrupts, those scheduled and the handlers called. -/
structure Inv (stats : Statistics) (pending : List (SortedList.Element PendingInterrupt))
    (scheduled : List PendingInterrupt) (calls : List HandlerCall) : Prop where
  ticks : stats.totalTicks = stats.idleTicks + stats.systemTicks + stats.userTicks
  sorted : SortedList.Sorted pending
  key : ∀ e ∈ pending, e.key = e.item.when ∧ e.key < 18446744073709551616
  objects : scheduled.map PendingInterrupt.object = List.range scheduled.length
  once : (pending.map SortedList.Element.item ++ calls.map HandlerCall.interrupt).Perm scheduled
  due : ∀ c ∈ calls, c.interrupt.when ≤ c.time ∧ c.time ≤ stats.totalTicks
  ordered : calls.Pairwise fun c c' => c.interrupt.when ≤ c'.interrupt.when
  later : ∀ c ∈ calls, ∀ e ∈ pending, c.interrupt.when ≤ e.key

theorem uint64_of_lt {x : ℕ} (h : x < 18446744073709551616) : uint64 x = x := Nat.mod_eq_of_lt h

section Inv

variable {stats stats' : Statistics} {pending rest : List (SortedList.Element PendingInterrupt)}
  {e : SortedList.Element PendingInterrupt} {scheduled : List PendingInterrupt} {calls : List HandlerCall}

/-- Time goes on. -/
theorem Inv.elapse (h : Inv stats pending scheduled calls)
    (hticks : stats'.totalTicks = stats'.idleTicks + stats'.systemTicks + stats'.userTicks)
    (hle : stats.totalTicks ≤ stats'.totalTicks) : Inv stats' pending scheduled calls :=
  ⟨hticks, h.sorted, h.key, h.objects, h.once, fun c hc => ⟨(h.due c hc).1, Nat.le_trans (h.due c hc).2 hle⟩,
    h.ordered, h.later⟩

theorem Inv.add (h : Inv stats pending scheduled calls) {p : PendingInterrupt} (hobject : p.object = scheduled.length)
    (htime : stats.totalTicks < p.when) (hfits : p.when < 18446744073709551616) :
    Inv stats (SortedList.insert p p.when pending) (scheduled ++ [p]) calls where
  ticks := h.ticks
  sorted := h.sorted.insert p p.when
  key e he := by
    rcases SortedList.mem_insert.mp he with rfl | he
    · exact ⟨rfl, hfits⟩
    · exact h.key e he
  objects := by
    rw [List.map_append, h.objects, List.length_append, List.length_singleton, List.range_succ, List.map_singleton,
      hobject]
  once := by
    have hinsert := ((SortedList.insert_perm p p.when pending).map SortedList.Element.item).append_right
      (calls.map HandlerCall.interrupt)
    refine hinsert.trans ?_
    exact (h.once.cons p).trans (List.perm_append_singleton p scheduled).symm
  due := h.due
  ordered := h.ordered
  later c hc e he := by
    rcases SortedList.mem_insert.mp he with rfl | he
    · exact Nat.le_trans ((h.due c hc).1.trans (h.due c hc).2) (Nat.le_of_lt htime)
    · exact h.later c hc e he

theorem Inv.putBack (h : Inv stats (e :: rest) scheduled calls) :
    Inv stats (SortedList.insert e.item e.key rest) scheduled calls where
  ticks := h.ticks
  sorted := h.sorted.tail.insert e.item e.key
  key x hx := h.key x ((SortedList.insert_perm e.item e.key rest).mem_iff.mp hx)
  objects := h.objects
  once := (((SortedList.insert_perm e.item e.key rest).map SortedList.Element.item).append_right _).trans h.once
  due := h.due
  ordered := h.ordered
  later c hc x hx := h.later c hc x ((SortedList.insert_perm e.item e.key rest).mem_iff.mp hx)

theorem Inv.call (h : Inv stats (e :: rest) scheduled calls) (hdue : e.key ≤ stats.totalTicks) :
    Inv stats rest scheduled (calls ++ [⟨e.item, stats.totalTicks⟩]) where
  ticks := h.ticks
  sorted := h.sorted.tail
  key x hx := h.key x (List.mem_cons_of_mem _ hx)
  objects := h.objects
  once := by
    rw [List.map_append, ← List.append_assoc]
    exact (List.perm_append_singleton e.item _).trans h.once
  due c hc := by
    rcases List.mem_append.mp hc with hc | hc
    · exact h.due c hc
    · cases List.mem_singleton.mp hc
      exact ⟨(h.key e List.mem_cons_self).1 ▸ hdue, Nat.le_refl _⟩
  ordered := by
    refine List.pairwise_append.mpr ⟨h.ordered, List.pairwise_singleton _ _, fun c hc c' hc' => ?_⟩
    cases List.mem_singleton.mp hc'
    exact (h.key e List.mem_cons_self).1 ▸ h.later c hc e List.mem_cons_self
  later c hc x hx := by
    rcases List.mem_append.mp hc with hc | hc
    · exact h.later c hc x (List.mem_cons_of_mem _ hx)
    · cases List.mem_singleton.mp hc
      exact (h.key e List.mem_cons_self).1 ▸ (List.pairwise_cons.mp h.sorted).1 x hx

/-- The handler that `CheckIfDue` calls, if it calls one. -/
def called (x : Interrupt × Option PendingInterrupt) : List HandlerCall :=
  match x.2 with
  | some toOccur => [⟨toOccur, x.1.stats.totalTicks⟩]
  | none => []

theorem Inv.fire {i : Interrupt} (h : Inv i.stats (e :: i.pending) scheduled calls) (hdue : e.key ≤ i.stats.totalTicks) :
    (i.fire e.item e.key).1.stats = i.stats ∧
      Inv i.stats (i.fire e.item e.key).1.pending scheduled (calls ++ called (i.fire e.item e.key)) := by
  unfold Interrupt.fire
  split
  · refine ⟨rfl, ?_⟩
    rw [called, List.append_nil]
    exact h.putBack
  · exact ⟨rfl, h.call hdue⟩

theorem Inv.checkIfDue {i : Interrupt} {advanceClock : Bool} {x : Interrupt × Option PendingInterrupt}
    (h : Inv i.stats i.pending scheduled calls) (hcheck : i.checkIfDue advanceClock = .ok x) :
    i.stats.totalTicks ≤ x.1.stats.totalTicks ∧ Inv x.1.stats x.1.pending scheduled (calls ++ called x) := by
  cases Interrupt.checkIfDue_eq_ok hcheck with
  | nothing hpending =>
    refine ⟨Nat.le_refl _, ?_⟩
    rw [called, List.append_nil]
    exact h
  | @advanced e rest hpending _ hlater =>
    rw [hpending] at h
    have hkey := h.key e List.mem_cons_self
    have hticks := h.ticks
    have hidle : uint64 (i.stats.idleTicks + (e.key - i.stats.totalTicks)) =
        i.stats.idleTicks + (e.key - i.stats.totalTicks) := uint64_of_lt (by omega)
    have hinv : Inv (Interrupt.advance { i with pending := rest } e.key).stats (e :: rest) scheduled calls := by
      refine h.elapse ?_ (Nat.le_of_lt hlater)
      change e.key = uint64 (i.stats.idleTicks + (e.key - i.stats.totalTicks)) + i.stats.systemTicks +
        i.stats.userTicks
      omega
    obtain ⟨hstats, hfire⟩ := Inv.fire (i := Interrupt.advance { i with pending := rest } e.key) hinv (Nat.le_refl _)
    rw [hstats]
    exact ⟨Nat.le_of_lt hlater, hfire⟩
  | notYet hpending _ _ =>
    rw [hpending] at h
    refine ⟨Nat.le_refl _, ?_⟩
    rw [called, List.append_nil]
    exact h.putBack
  | @due e rest hpending hdue =>
    rw [hpending] at h
    obtain ⟨hstats, hfire⟩ := Inv.fire (i := { i with pending := rest }) h hdue
    rw [hstats]
    exact ⟨Nat.le_refl _, hfire⟩

theorem Inv.tick {i : Interrupt} (h : Inv i.stats pending scheduled calls)
    (hfits : i.stats.totalTicks + systemTick < 18446744073709551616) :
    i.stats.totalTicks ≤ i.tick.stats.totalTicks ∧ Inv i.tick.stats pending scheduled calls := by
  have hticks := h.ticks
  simp only [systemTick] at hfits
  unfold Interrupt.tick
  dsimp only
  split
  · rw [uint64_of_lt hfits, uint64_of_lt (by simp only [systemTick]; omega)]
    refine ⟨Nat.le_add_right _ _, h.elapse ?_ (Nat.le_add_right _ _)⟩
    simp only [systemTick]
    omega
  · rw [uint64_of_lt (by simp only [userTick]; omega), uint64_of_lt (by simp only [userTick]; omega)]
    refine ⟨Nat.le_add_right _ _, h.elapse ?_ (Nat.le_add_right _ _)⟩
    simp only [userTick]
    omega

end Inv

/-! ## Runs -/

abbrev Consistent (s : Simulation) : Prop := Inv s.interrupt.stats s.interrupt.pending s.scheduled s.calls

theorem Consistent.checked {s : Simulation} {i : Interrupt} {advanceClock : Bool}
    {x : Interrupt × Option PendingInterrupt} (h : Inv i.stats i.pending s.scheduled s.calls)
    (hcheck : i.checkIfDue advanceClock = .ok x) (caller : Caller) (old : MachineStatus)
    {otherwise : Interrupt → Simulation} (hother : ∀ j, (otherwise j).interrupt.stats = j.stats ∧
      (otherwise j).interrupt.pending = j.pending ∧ (otherwise j).scheduled = s.scheduled ∧ (otherwise j).calls = s.calls) :
    i.stats.totalTicks ≤ (s.checked caller old otherwise x).totalTicks ∧
      (s.checked caller old otherwise x).Consistent := by
  obtain ⟨hle, hinv⟩ := h.checkIfDue hcheck
  obtain ⟨j, due⟩ := x
  cases due with
  | some toOccur => exact ⟨hle, hinv⟩
  | none =>
    obtain ⟨hstats, hpending, hscheduled, hcalls⟩ := hother j
    rw [called, List.append_nil] at hinv
    unfold Simulation.checked Consistent totalTicks
    dsimp only
    rw [hstats, hpending, hscheduled, hcalls]
    exact ⟨hle, hinv⟩

/-- Each step keeps the invariant, and time does not go back. -/
theorem step_consistent {s s' : Simulation} {event : Event} (h : s.Consistent) (hfits : s.Fits event)
    (hstep : Step s event s') : s.totalTicks ≤ s'.totalTicks ∧ s'.Consistent := by
  cases hstep with
  | @schedule handler arg fromNow type _ hcode hschedule =>
    unfold Interrupt.schedule at hschedule
    dsimp only at hschedule
    split at hschedule
    · cases hschedule
    · next hpositive =>
      cases hschedule
      have hwhen : (s.interrupt.toOccur s.scheduled.length handler arg fromNow type).when =
          s.interrupt.stats.totalTicks + fromNow := uint64_of_lt hfits
      refine ⟨Nat.le_refl _, h.add rfl ?_ ?_⟩
      · rw [hwhen]
        exact Nat.lt_add_of_pos_right (Nat.pos_of_ne_zero hpositive)
      · rw [hwhen]
        exact hfits
  | setLevel hcode hlevel =>
    unfold Interrupt.setLevel at hlevel
    split at hlevel
    · cases hlevel
      split
      · exact Inv.tick (i := { s.interrupt with level := _ }) h hfits
      · exact ⟨Nat.le_refl _, h⟩
    · cases hlevel
  | yieldOnReturn hcode hyield =>
    unfold Interrupt.yieldAtReturn at hyield
    split at hyield
    · cases hyield
      exact ⟨Nat.le_refl _, h⟩
    · cases hyield
  | oneTick hkernel => exact h.tick hfits
  | idle hkernel hcheck =>
    exact Consistent.checked (i := { s.interrupt with status := .idleMode }) h hcheck .idle .idleMode
      fun j => ⟨rfl, rfl, rfl, rfl⟩
  | setStatus hkernel status => exact ⟨Nat.le_refl _, h⟩
  | @check caller _ hloop hcheck =>
    refine Consistent.checked h hcheck caller _ fun j => ?_
    cases caller with
    | oneTick =>
      unfold loopEnds Interrupt.endTick
      dsimp only
      split <;> exact ⟨rfl, rfl, rfl, rfl⟩
    | idle => exact ⟨rfl, rfl, rfl, rfl⟩
  | handlerReturns hhandler => exact ⟨Nat.le_refl _, h⟩

theorem reached_consistent {s : Simulation} (h : s.Reached) : s.Consistent := by
  refine Reachable.invariant Consistent (fun s hs => ?_) (fun s event s' hinv hfits hstep =>
    (step_consistent hinv hfits hstep).2) h
  subst hs
  exact ⟨rfl, .nil, nofun, rfl, .refl _, nofun, .nil, nofun⟩

/-- A run from `s` on. -/
abbrev Leads : Simulation → Simulation → Prop :=
  Relation.ReflTransGen fun s s' => ∃ event, s.Fits event ∧ Step s event s'

theorem leads_totalTicks {s s' : Simulation} (h : s.Reached) (hrun : Leads s s') : s.totalTicks ≤ s'.totalTicks := by
  have hboth : s'.Reached ∧ s.totalTicks ≤ s'.totalTicks := by
    induction hrun with
    | refl => exact ⟨h, Nat.le_refl _⟩
    | tail _ hstep ih =>
      obtain ⟨event, hfits, hstep⟩ := hstep
      have hle := (step_consistent (reached_consistent ih.1) hfits hstep).1
      exact ⟨.next ih.1 hfits hstep, Nat.le_trans ih.2 hle⟩
  exact hboth.2

theorem Inv.scheduled_nodup {stats : Statistics} {pending : List (SortedList.Element PendingInterrupt)}
    {scheduled : List PendingInterrupt} {calls : List HandlerCall} (h : Inv stats pending scheduled calls) :
    scheduled.Nodup := by
  apply List.Nodup.of_map PendingInterrupt.object
  rw [h.objects]
  exact List.nodup_range

/-- Time never goes back and is the sum of its three parts; the pending interrupts are in order; no handler
is called before its time, and none after one that is due later; and an interrupt that has been scheduled is pending
once, or its handler has been called once. -/
theorem simulated_time {s : Simulation} (h : s.Reached) :
    (∀ s', Leads s s' → s.totalTicks ≤ s'.totalTicks) ∧
    s.totalTicks =
      s.interrupt.stats.idleTicks + s.interrupt.stats.systemTicks + s.interrupt.stats.userTicks ∧
    (s.interrupt.pending.map fun e => e.item.when).Pairwise (· ≤ ·) ∧
    (∀ c ∈ s.calls, c.interrupt.when ≤ c.time ∧ c.time ≤ s.totalTicks) ∧
    (s.calls.map fun c => c.interrupt.when).Pairwise (· ≤ ·) ∧
    ∀ p ∈ s.scheduled,
      (s.interrupt.pending.map SortedList.Element.item).count p = 1 ∧ (s.calls.map HandlerCall.interrupt).count p = 0 ∨
      (s.interrupt.pending.map SortedList.Element.item).count p = 0 ∧ (s.calls.map HandlerCall.interrupt).count p = 1 := by
  have hinv := reached_consistent h
  refine ⟨fun s' => leads_totalTicks h, hinv.ticks, ?_, hinv.due, ?_, fun p hp => ?_⟩
  · rw [List.pairwise_map]
    refine hinv.sorted.imp_of_mem fun {x y} hx hy hle => ?_
    rw [← (hinv.key x hx).1, ← (hinv.key y hy).1]
    exact hle
  · exact List.pairwise_map.mpr hinv.ordered
  · have hcount := hinv.once.count_eq p
    rw [List.count_append, List.count_eq_one_of_mem hinv.scheduled_nodup hp] at hcount
    omega

def disk (object when : ℕ) : PendingInterrupt := ⟨object, 1, 0, when, .diskInt⟩

/-- The machine in the handler of the first of two disk interrupts. -/
def inDiskHandler (pending : List (SortedList.Element PendingInterrupt)) (scheduled : List PendingInterrupt) :
    Simulation :=
  ⟨⟨.intOff, pending, true, false, .systemMode, ⟨10, 0, 10, 0⟩⟩, .handler .oneTick .systemMode, scheduled,
    [⟨disk 0 5, 10⟩]⟩

theorem inDiskHandler_reached : (inDiskHandler [] [disk 0 5]).Reached := by
  have h₁ : Step start (.schedule 1 0 5 .diskInt)
      ⟨⟨.intOff, [⟨disk 0 5, 5⟩], false, false, .systemMode, ⟨0, 0, 0, 0⟩⟩, .kernel, [disk 0 5], []⟩ :=
    .schedule trivial rfl
  have h₂ : Step _ (.setLevel .intOn)
      ⟨⟨.intOff, [⟨disk 0 5, 5⟩], false, false, .systemMode, ⟨10, 0, 10, 0⟩⟩, .checking .oneTick, [disk 0 5], []⟩ :=
    @Step.setLevel ⟨⟨.intOff, [⟨disk 0 5, 5⟩], false, false, .systemMode, ⟨0, 0, 0, 0⟩⟩, .kernel, [disk 0 5], []⟩
      .intOn _ true trivial rfl
  have h₃ : Step _ .check (inDiskHandler [] [disk 0 5]) :=
    @Step.check ⟨⟨.intOff, [⟨disk 0 5, 5⟩], false, false, .systemMode, ⟨10, 0, 10, 0⟩⟩, .checking .oneTick, [disk 0 5], []⟩
      .oneTick (_, some (disk 0 5)) rfl rfl
  have hfits : start.Fits (.schedule 1 0 5 .diskInt) := (by decide : 0 + 5 < 18446744073709551616)
  have h := Reachable.next (.start rfl : start.Reached) hfits h₁
  refine .next (.next h ?_ h₂) ?_ h₃
  · exact (by decide : 0 + 10 < 18446744073709551616)
  · trivial

/-- As interrupts are enabled a disk interrupt is due, and its handler schedules another one. -/
theorem simulated_time_disk :
    (inDiskHandler [⟨disk 1 17, 17⟩] [disk 0 5, disk 1 17]).Reached ∧
    ∀ p ∈ [disk 0 5, disk 1 17],
      [disk 1 17].count p = 1 ∧ [disk 0 5].count p = 0 ∨ [disk 1 17].count p = 0 ∧ [disk 0 5].count p = 1 := by
  have h : Step (inDiskHandler [] [disk 0 5]) (.schedule 1 0 7 .diskInt)
      (inDiskHandler [⟨disk 1 17, 17⟩] [disk 0 5, disk 1 17]) := .schedule trivial rfl
  have hfits : (inDiskHandler [] [disk 0 5]).Fits (.schedule 1 0 7 .diskInt) :=
    (by decide : 10 + 7 < 18446744073709551616)
  have hreached := inDiskHandler_reached.next hfits h
  exact ⟨hreached, (simulated_time hreached).2.2.2.2.2⟩

end Simulation

end Nachos
