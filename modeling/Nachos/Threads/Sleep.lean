import Nachos.Machine.InterruptOrder
import Nachos.Threads.Scheduler

/-! # The idle machine (`threads/thread.cc`, `machine/interrupt.cc`, `machine/timer.cc`)

A thread that goes to sleep while no other is ready calls `Idle` until there is one. Timers do not make a
thread ready, so with nothing but timers the machine is meant to halt. `CheckIfDue` notices that when the
interrupt it has taken is a timer and no other is pending. Two timers never see each other's list empty:
each handler schedules itself again before the other one is looked at. -/
set_option autoImplicit false

namespace Nachos
open Execution

variable {Tid : Type}

/-! ## The handlers of the timers -/

abbrev timerTicks : ℕ := 100

/-- `Timer::TimeOfNextInterrupt`; `random` is what `Random` gives. -/
def timeOfNextInterrupt (randomize : Bool) (random : ℕ) : ℕ :=
  if randomize then 1 + random % (timerTicks * 2) else timerTicks

/-- The calls that `Timer::TimerExpired` makes, with `TimerInterruptHandler`. -/
def timerExpired (p : PendingInterrupt) (s : Interrupt) (fromNow : ℕ) : List Simulation.Event :=
  .schedule p.handler p.arg fromNow .timerInt :: if s.status ≠ .idleMode then [.yieldOnReturn] else []

/-- The calls that `RoundRobin` makes. -/
def roundRobin (handler : ℕ) (currentThread : Int) : List Simulation.Event :=
  [.schedule handler currentThread 20 .timerInt, .yieldOnReturn]

/-- Handlers that only schedule themselves again and ask for a yield. -/
structure TimerHandlers where
  calls : PendingInterrupt → Interrupt → List Simulation.Event → Prop
  exist : ∀ p s, ∃ events, calls p s events
  reschedule : ∀ p s events, calls p s events → ∃ handler arg fromNow, 0 < fromNow ∧
    (events = [.schedule handler arg fromNow .timerInt] ∨
      events = [.schedule handler arg fromNow .timerInt, .yieldOnReturn])

/-- The two timers of the kernel; `handler` stands for `RoundRobin`. -/
def kernelTimers (handler : ℕ) (currentThread : Int) (randomize : Bool) : TimerHandlers where
  calls p s events :=
    if p.handler = handler then events = roundRobin handler currentThread
    else ∃ random, events = timerExpired p s (timeOfNextInterrupt randomize random)
  exist p s := by
    by_cases hp : p.handler = handler
    · exact ⟨_, (if_pos hp).mpr rfl⟩
    · exact ⟨_, (if_neg hp).mpr ⟨0, rfl⟩⟩
  reschedule p s events h := by
    split at h
    · exact ⟨handler, currentThread, 20, by decide, .inr h⟩
    · obtain ⟨random, h⟩ := h
      refine ⟨p.handler, p.arg, timeOfNextInterrupt randomize random, ?_, ?_⟩
      · unfold timeOfNextInterrupt
        split
        · omega
        · decide
      · unfold timerExpired at h
        split at h
        · exact .inr h
        · exact .inl h

/-- Calls on the interrupts one after the other. -/
def Simulation.Runs : Simulation → List Simulation.Event → Simulation → Prop
  | s, [], s' => s' = s
  | s, event :: events, s' => ∃ s₁, Simulation.Step s event s₁ ∧ Simulation.Runs s₁ events s'

/-! ## The loop of `Thread::Sleep` -/

structure Sleeping (Tid : Type) where
  scheduler : Scheduler Tid
  machine : Simulation
  nextThread : Option (ReadyThread Tid)

namespace Sleeping

def pending (s : Sleeping Tid) : List (SortedList.Element PendingInterrupt) := s.machine.interrupt.pending

/-- The loop, and the loops of `Idle` within it. -/
inductive Step (priorityLevel : Tid → Int) (H : TimerHandlers) (s : Sleeping Tid) : Sleeping Tid → Prop
  | found {scheduler : Scheduler Tid} {next : ReadyThread Tid} (hloop : s.nextThread = none)
      (hkernel : s.machine.control = .kernel) (h : s.scheduler.findNextToRun priorityLevel = (some next, scheduler)) :
      Step priorityLevel H s { s with scheduler := scheduler, nextThread := some next }
  | idle {scheduler : Scheduler Tid} {machine : Simulation} (hloop : s.nextThread = none)
      (h : s.scheduler.findNextToRun priorityLevel = (none, scheduler))
      (hidle : Simulation.Step s.machine .idle machine) :
      Step priorityLevel H s { s with scheduler := scheduler, machine := machine }
  | check {machine : Simulation} (hloop : s.nextThread = none) (hcheck : Simulation.Step s.machine .check machine) :
      Step priorityLevel H s { s with machine := machine }
  | handler {call : HandlerCall} {events : List Simulation.Event} {machine : Simulation} {old : MachineStatus}
      (hloop : s.nextThread = none) (hcontrol : s.machine.control = .handler .idle old)
      (hcall : s.machine.calls.getLast? = some call) (hevents : H.calls call.interrupt s.machine.interrupt events)
      (hruns : s.machine.Runs (events ++ [.handlerReturns]) machine) :
      Step priorityLevel H s { s with machine := machine }

/-- `Interrupt::Halt` has been called. -/
def Halted (s : Sleeping Tid) : Prop := s.machine.control = .halted

end Sleeping

/-! ## `CheckIfDue` -/

namespace Interrupt

theorem fire_level (s : Interrupt) (toOccur : PendingInterrupt) (when : ℕ) :
    (s.fire toOccur when).1.level = s.level ∧
      ∀ p, (s.fire toOccur when).2 = some p → (s.fire toOccur when).1.inHandler = true := by
  unfold fire
  split
  · exact ⟨rfl, fun p hp => (Option.some_ne_none p hp.symm).elim⟩
  · exact ⟨rfl, fun _ _ => rfl⟩

theorem checkIfDue_level {s : Interrupt} {advanceClock : Bool} {x : Interrupt × Option PendingInterrupt}
    (h : s.checkIfDue advanceClock = .ok x) :
    x.1.level = s.level ∧ ∀ p, x.2 = some p → x.1.inHandler = true := by
  cases checkIfDue_eq_ok h with
  | nothing _ | notYet _ _ _ => exact ⟨rfl, fun p hp => (Option.some_ne_none p hp.symm).elim⟩
  | advanced _ _ _ | due _ _ => exact fire_level _ _ _

theorem checkIfDue_returns {s : Interrupt} (hlevel : s.level = .intOff) (advanceClock : Bool) :
    ∃ x, s.checkIfDue advanceClock = .ok x := by
  unfold checkIfDue
  rw [if_neg (not_not.mpr hlevel)]
  split
  · exact ⟨_, rfl⟩
  · dsimp only
    split
    · exact ⟨_, rfl⟩
    · split
      · exact ⟨_, rfl⟩
      · exact ⟨_, rfl⟩

/-- One timer alone: the idle machine has nothing more to do. -/
theorem checkIfDue_alone {s : Interrupt} {x : Interrupt × Option PendingInterrupt} (h : s.checkIfDue true = .ok x)
    (hstatus : s.status = .idleMode) {e : SortedList.Element PendingInterrupt} (hpending : s.pending = [e])
    (htype : e.item.type = .timerInt) : x.2 = none := by
  have hfire : ∀ (t : Interrupt) (when : ℕ), t.status = .idleMode → t.pending = [] → (t.fire e.item when).2 = none := by
    intro t when hidle hempty
    unfold fire
    rw [if_pos ⟨hidle, htype, hempty⟩]
  cases checkIfDue_eq_ok h with
  | nothing _ | notYet _ _ _ => rfl
  | advanced hcons _ _ | due hcons _ =>
    rw [hpending] at hcons
    obtain ⟨rfl, rfl⟩ := List.cons.inj hcons
    exact hfire _ _ hstatus rfl

end Interrupt

/-! ## A handler runs -/

namespace Simulation

/-- What a timer's handler leaves: one interrupt more is pending. -/
structure Rescheduled (s s' : Simulation) : Prop where
  control : s'.control = .checking .idle
  level : s'.interrupt.level = s.interrupt.level
  length : s'.interrupt.pending.length = s.interrupt.pending.length + 1

theorem insert_length {β : Type} (item : β) (key : ℕ) (l : List (SortedList.Element β)) :
    (SortedList.insert item key l).length = l.length + 1 :=
  (SortedList.insert_perm item key l).length_eq

theorem schedule_eq_ok {i j : Interrupt} {object handler : ℕ} {arg : Int} {fromNow : ℕ} {type : IntType}
    (h : i.schedule object handler arg fromNow type = .ok j) :
    j.level = i.level ∧ j.inHandler = i.inHandler ∧ j.pending.length = i.pending.length + 1 := by
  unfold Interrupt.schedule at h
  dsimp only at h
  split at h
  · cases h
  · obtain rfl := Except.ok.inj h
    exact ⟨rfl, rfl, insert_length _ _ _⟩

theorem runs_rescheduled {s s' : Simulation} {old : MachineStatus} (hcontrol : s.control = .handler .idle old)
    {handler : ℕ} {arg : Int} {fromNow : ℕ} {events : List Event}
    (hevents : events = [.schedule handler arg fromNow .timerInt] ∨
      events = [.schedule handler arg fromNow .timerInt, .yieldOnReturn])
    (hruns : s.Runs (events ++ [.handlerReturns]) s') : Rescheduled s s' := by
  have hend : ∀ {t : Simulation}, t.Runs [.handlerReturns] s' → t.control = .handler .idle old →
      t.interrupt.level = s.interrupt.level →
      t.interrupt.pending.length = s.interrupt.pending.length + 1 → Rescheduled s s' := by
    intro t hruns htcontrol hlevel hlength
    obtain ⟨u, hstep, rfl⟩ := hruns
    cases hstep with
    | handlerReturns hhandler =>
      rw [htcontrol] at hhandler
      cases hhandler
      exact ⟨rfl, hlevel, hlength⟩
  rcases hevents with rfl | rfl
  · obtain ⟨t, hstep, hruns⟩ := hruns
    cases hstep with
    | schedule _ hschedule =>
      obtain ⟨hlevel, -, hlength⟩ := schedule_eq_ok hschedule
      exact hend hruns hcontrol hlevel hlength
  · obtain ⟨t, hstep, u, hyield, hruns⟩ := hruns
    cases hstep with
    | schedule _ hschedule =>
      obtain ⟨hlevel, -, hlength⟩ := schedule_eq_ok hschedule
      cases hyield with
      | yieldOnReturn _ hyield =>
        unfold Interrupt.yieldAtReturn at hyield
        split at hyield
        · obtain rfl := Except.ok.inj hyield
          exact hend hruns hcontrol hlevel hlength
        · cases hyield

/-- The calls of a timer's handler return. -/
theorem exists_runs {s : Simulation} {old : MachineStatus} (hcontrol : s.control = .handler .idle old)
    (hinHandler : s.interrupt.inHandler = true) {handler : ℕ} {arg : Int} {fromNow : ℕ} (hpos : 0 < fromNow)
    {events : List Event}
    (hevents : events = [.schedule handler arg fromNow .timerInt] ∨
      events = [.schedule handler arg fromNow .timerInt, .yieldOnReturn]) :
    ∃ s', s.Runs (events ++ [.handlerReturns]) s' := by
  have hcode : s.control.RunsCode := by
    rw [hcontrol]
    trivial
  have hschedule : ∃ i, s.interrupt.schedule s.scheduled.length handler arg fromNow .timerInt = .ok i :=
    ⟨_, if_neg (Nat.ne_of_gt hpos)⟩
  obtain ⟨i, hi⟩ := hschedule
  obtain ⟨-, hkeeps, -⟩ := schedule_eq_ok hi
  rcases hevents with rfl | rfl
  · exact ⟨_, _, .schedule hcode hi, _, .handlerReturns hcontrol, rfl⟩
  · have hyield : i.yieldAtReturn = .ok { i with yieldOnReturn := true } := if_pos (hkeeps.trans hinHandler)
    exact ⟨_, _, .schedule hcode hi, _, .yieldOnReturn hcode hyield, _, .handlerReturns hcontrol, rfl⟩

end Simulation

/-! ## Two timers or more -/

namespace Sleeping

/-- Where the loop is, with the number of timers that are pending or whose handler runs. -/
inductive Position (m : Simulation) : ℕ → Prop
  | test (hcontrol : m.control = .kernel) : Position m m.interrupt.pending.length
  | loop (hcontrol : m.control = .checking .idle) : Position m m.interrupt.pending.length
  | handler {old : MachineStatus} (hcontrol : m.control = .handler .idle old) (hin : m.interrupt.inHandler = true)
      (hcalls : m.calls ≠ []) : Position m (m.interrupt.pending.length + 1)

/-- The loop turns with this many timers. -/
structure Turns (s : Sleeping Tid) (n : ℕ) : Prop where
  ready : s.scheduler.readyList.size = 0
  looping : s.nextThread = none
  level : s.machine.interrupt.level = .intOff
  position : Position s.machine n

variable {priorityLevel : Tid → Int} {H : TimerHandlers} {s s' : Sleeping Tid} {n : ℕ}

theorem Turns.not_halted (h : s.Turns n) : ¬ s.Halted := by
  intro hhalted
  unfold Halted at hhalted
  cases h.position with
  | test hcontrol | loop hcontrol | handler hcontrol _ _ =>
    rw [hhalted] at hcontrol
    cases hcontrol

/-- After `CheckIfDue` the timer is back in the list, or its handler is about to run. -/
theorem position_checked (m : Simulation) (old : MachineStatus) (otherwise : Interrupt → Simulation) {i : Interrupt}
    {advanceClock : Bool} {x : Interrupt × Option PendingInterrupt} (hcheck : i.checkIfDue advanceClock = .ok x)
    (hpending : i.pending = m.interrupt.pending)
    (hother : x.2 = none → x.1.pending.length = m.interrupt.pending.length →
      Position (otherwise x.1) m.interrupt.pending.length ∧ (otherwise x.1).interrupt.level = x.1.level) :
    Position (m.checked .idle old otherwise x) m.interrupt.pending.length ∧
      (m.checked .idle old otherwise x).interrupt.level = i.level := by
  obtain ⟨hlevel, hin⟩ := Interrupt.checkIfDue_level hcheck
  have hnone : x.2 = none → x.1.pending.length = m.interrupt.pending.length →
      Position (m.checked .idle old otherwise x) m.interrupt.pending.length ∧
        (m.checked .idle old otherwise x).interrupt.level = i.level := by
    intro hnone hlength
    obtain ⟨hposition, hsame⟩ := hother hnone hlength
    obtain ⟨j, due⟩ := x
    dsimp only at hnone
    subst hnone
    exact ⟨hposition, hsame.trans hlevel⟩
  obtain ⟨hnil, heq⟩ | ⟨e, rest, hcons, ⟨hcalled, hrest⟩ | ⟨hback, hinsert, -, -⟩⟩ := Interrupt.checkIfDue_cases hcheck
  · apply hnone
    · rw [heq]
    · rw [heq, hpending]
  · obtain ⟨j, due⟩ := x
    dsimp only at hcalled hrest
    subst hcalled
    have hlength : m.interrupt.pending.length = j.pending.length + 1 := by
      rw [← hpending, hcons, hrest, List.length_cons]
    rw [hlength]
    refine ⟨.handler rfl (hin _ rfl) ?_, hlevel⟩
    exact List.append_ne_nil_of_right_ne_nil _ (List.cons_ne_nil _ _)
  · apply hnone hback
    rw [hinsert, Simulation.insert_length, ← hpending, hcons, List.length_cons]

/-- `CheckIfDue` that advances the clock returns false only if no second interrupt is pending. -/
theorem length_le_of_checkIfDue {i : Interrupt} {x : Interrupt × Option PendingInterrupt}
    (hcheck : i.checkIfDue true = .ok x) (hnone : x.2 = none) : i.pending.length ≤ 1 := by
  obtain ⟨hnil, -⟩ | ⟨e, rest, hcons, ⟨hcalled, -⟩ | ⟨-, -, -, hrest | ⟨hfalse, -⟩⟩⟩ := Interrupt.checkIfDue_cases hcheck
  · rw [hnil]
    exact Nat.zero_le 1
  · rw [hnone] at hcalled
    cases hcalled
  · rw [hcons, hrest]
    exact Nat.le_refl 1
  · cases hfalse

theorem Position.of_kernel {m : Simulation} (h : Position m n) (hcontrol : m.control = .kernel) :
    n = m.interrupt.pending.length := by
  cases h with
  | test _ | loop _ => rfl
  | handler hcontrol' _ _ =>
    rw [hcontrol] at hcontrol'
    cases hcontrol'

theorem Position.of_checking {m : Simulation} {caller : Caller} (h : Position m n)
    (hcontrol : m.control = .checking caller) : caller = .idle ∧ n = m.interrupt.pending.length := by
  cases h with
  | test hcontrol' =>
    rw [hcontrol] at hcontrol'
    cases hcontrol'
  | loop hcontrol' =>
    rw [hcontrol] at hcontrol'
    cases hcontrol'
    exact ⟨rfl, rfl⟩
  | handler hcontrol' _ _ =>
    rw [hcontrol] at hcontrol'
    cases hcontrol'

theorem Position.of_handler {m : Simulation} {old : MachineStatus} (h : Position m n)
    (hcontrol : m.control = .handler .idle old) : n = m.interrupt.pending.length + 1 := by
  cases h with
  | test hcontrol' | loop hcontrol' =>
    rw [hcontrol] at hcontrol'
    cases hcontrol'
  | handler _ _ _ => rfl

/-- With two timers or more the loop goes on with as many. -/
theorem Turns.step (h : s.Turns n) (hn : 2 ≤ n) (hstep : Step priorityLevel H s s') : s'.Turns n := by
  have hfind := @Scheduler.findNextToRun_none _ priorityLevel _ h.ready
  cases hstep with
  | found _ _ hfound =>
    rw [hfind] at hfound
    cases hfound
  | idle hloop hnone hidle =>
    rw [hfind] at hnone
    cases hnone
    cases hidle with
    | @idle x hkernel hcheck =>
      have hlength := h.position.of_kernel hkernel
      subst hlength
      obtain ⟨hposition, hlevel⟩ := position_checked s.machine .idleMode
        (fun i => { s.machine with interrupt := i, control := .halted }) hcheck rfl (by
          intro hnone _
          have hle := length_le_of_checkIfDue hcheck hnone
          exact absurd hn (Nat.not_le_of_lt (Nat.lt_succ_of_le hle)))
      exact ⟨h.ready, hloop, hlevel.trans h.level, hposition⟩
  | check hloop hcheck =>
    cases hcheck with
    | @check caller x hcontrol hcheck =>
      obtain ⟨rfl, hlength⟩ := h.position.of_checking hcontrol
      subst hlength
      obtain ⟨hposition, hlevel⟩ := position_checked s.machine s.machine.interrupt.status
        (s.machine.loopEnds .idle) hcheck rfl (by
          intro _ hlength
          rw [← hlength]
          exact ⟨.test rfl, rfl⟩)
      exact ⟨h.ready, hloop, hlevel.trans h.level, hposition⟩
  | handler hloop hcontrol hcall hevents hruns =>
    have hlength := h.position.of_handler hcontrol
    subst hlength
    obtain ⟨handler, arg, fromNow, -, hevents⟩ := H.reschedule _ _ _ hevents
    obtain ⟨hloops, hlevel, hmore⟩ := Simulation.runs_rescheduled hcontrol hevents hruns
    refine ⟨h.ready, hloop, hlevel.trans h.level, ?_⟩
    rw [← hmore]
    exact .loop hloops

theorem Turns.exists_step (h : s.Turns n) (priorityLevel : Tid → Int) (H : TimerHandlers) :
    ∃ s', Step priorityLevel H s s' := by
  cases h.position with
  | test hcontrol =>
    obtain ⟨x, hx⟩ := Interrupt.checkIfDue_returns (s := { s.machine.interrupt with status := .idleMode }) h.level true
    exact ⟨_, .idle h.looping (Scheduler.findNextToRun_none h.ready) (.idle hcontrol hx)⟩
  | loop hcontrol =>
    obtain ⟨x, hx⟩ := Interrupt.checkIfDue_returns h.level false
    exact ⟨_, .check h.looping (.check hcontrol hx)⟩
  | handler hcontrol hin hcalls =>
    obtain ⟨call, hcall⟩ : ∃ call, s.machine.calls.getLast? = some call :=
      ⟨_, List.getLast?_eq_some_getLast hcalls⟩
    obtain ⟨events, hevents⟩ := H.exist call.interrupt s.machine.interrupt
    obtain ⟨handler, arg, fromNow, hpos, hshape⟩ := H.reschedule _ _ _ hevents
    obtain ⟨machine, hruns⟩ := Simulation.exists_runs hcontrol hin hpos hshape
    exact ⟨_, .handler h.looping hcontrol hcall hevents hruns⟩

/-! ## One timer -/

theorem halts_of_one (hcontrol : s.machine.control = .kernel) (hready : s.scheduler.readyList.size = 0)
    (hlooping : s.nextThread = none) (hlevel : s.machine.interrupt.level = .intOff)
    {e : SortedList.Element PendingInterrupt} (hpending : s.pending = [e]) (htype : e.item.type = .timerInt) :
    Inevitable (Step priorityLevel H) Halted s := by
  have hturns : s.Turns s.pending.length := ⟨hready, hlooping, hlevel, .test hcontrol⟩
  refine .later (hturns.exists_step priorityLevel H) ?_
  intro s' hstep
  have hfind := @Scheduler.findNextToRun_none _ priorityLevel _ hready
  apply Inevitable.now
  cases hstep with
  | found _ _ hfound =>
    rw [hfind] at hfound
    cases hfound
  | idle _ _ hidle =>
    cases hidle with
    | @idle x hkernel hcheck =>
      have hnone := Interrupt.checkIfDue_alone hcheck rfl hpending htype
      obtain ⟨i, due⟩ := x
      dsimp only at hnone
      subst hnone
      rfl
  | check _ hcheck =>
    cases hcheck with
    | check hloop _ =>
      rw [hcontrol] at hloop
      cases hloop
  | handler _ hhandler _ _ _ =>
    rw [hcontrol] at hhandler
    cases hhandler

/-- A thread goes to sleep while no other is ready and nothing but timers are pending. -/
structure OnlyTimers (s : Sleeping Tid) : Prop where
  atTest : s.machine.control = .kernel
  looping : s.nextThread = none
  ready : s.scheduler.readyList.size = 0
  level : s.machine.interrupt.level = .intOff
  timers : ∀ e ∈ s.pending, e.item.type = .timerInt
  some : s.pending ≠ []

/-- With one timer the machine halts; with more of them the loop never ends. -/
theorem sleep_halts_iff (priorityLevel : Tid → Int) (H : TimerHandlers) {s : Sleeping Tid} (h : s.OnlyTimers) :
    (Inevitable (Step priorityLevel H) Halted s ↔ s.pending.length = 1) ∧
    (s.pending.length ≠ 1 → ∀ s', Relation.ReflTransGen (Step priorityLevel H) s s' →
      ¬ s'.Halted ∧ ∃ s'', Step priorityLevel H s' s'') := by
  have hturns : s.Turns s.pending.length := ⟨h.ready, h.looping, h.level, .test h.atTest⟩
  have hpos : 0 < s.pending.length := List.length_pos_iff.mpr h.some
  refine ⟨⟨?_, ?_⟩, ?_⟩
  · intro hhalts
    by_contra hone
    have htwo : 2 ≤ s.pending.length := by omega
    exact not_inevitable (fun t : Sleeping Tid => t.Turns s.pending.length) (fun t ht => ht.not_halted)
      (fun t t' ht hstep => ht.step htwo hstep) hturns hhalts
  · intro hone
    obtain ⟨e, he⟩ := List.length_eq_one_iff.mp hone
    have htype := h.timers e (by rw [he]; exact List.mem_singleton_self e)
    exact halts_of_one h.atTest h.ready h.looping h.level he htype
  · intro hone s' hrun
    have htwo : 2 ≤ s.pending.length := by omega
    have hturns' : s'.Turns s.pending.length := by
      induction hrun with
      | refl => exact hturns
      | tail _ hstep ih => exact ih.step htwo hstep
    exact ⟨hturns'.not_halted, hturns'.exists_step priorityLevel H⟩

/-- No thread is ready. -/
def noThreads : Scheduler ℕ where
  readyList := ⟨0, fun _ => ⟨0, 0⟩⟩
  calls := 0
  dispatched := []

/-- Timers that are pending when the current thread goes to sleep at time `100`. -/
def asleep (pending : List (SortedList.Element PendingInterrupt)) : Sleeping ℕ where
  scheduler := noThreads
  machine := ⟨⟨.intOff, pending, false, false, .systemMode, ⟨100, 0, 100, 0⟩⟩, .kernel, [], []⟩
  nextThread := none

/-- `RoundRobin` at time `110`, and the timer of `-rs` at time `150`. -/
def roundRobinAt : SortedList.Element PendingInterrupt := ⟨⟨0, 1, 0, 110, .timerInt⟩, 110⟩
def randomYieldAt : SortedList.Element PendingInterrupt := ⟨⟨1, 2, 0, 150, .timerInt⟩, 150⟩

theorem asleep_onlyTimers {pending : List (SortedList.Element PendingInterrupt)}
    (htimers : ∀ e ∈ pending, e.item.type = .timerInt) (hsome : pending ≠ []) : (asleep pending).OnlyTimers :=
  ⟨rfl, rfl, rfl, rfl, htimers, hsome⟩

theorem sleep_halts_iff_roundRobin :
    Inevitable (Step (fun _ => 1) (kernelTimers 1 0 true)) Halted (asleep [roundRobinAt]) :=
  (sleep_halts_iff _ _ (asleep_onlyTimers (by decide) (by decide))).1.mpr rfl

/-- With `-rs` and a user program the idle machine does not halt. -/
theorem idle_timers_never_halt : (asleep [roundRobinAt, randomYieldAt]).OnlyTimers ∧
    ¬ Inevitable (Step (fun _ => 1) (kernelTimers 1 0 true)) Halted (asleep [roundRobinAt, randomYieldAt]) := by
  have honly : (asleep [roundRobinAt, randomYieldAt]).OnlyTimers := asleep_onlyTimers (by decide) (by decide)
  have hturns : (asleep [roundRobinAt, randomYieldAt]).Turns 2 :=
    ⟨honly.ready, honly.looping, honly.level, .test honly.atTest⟩
  exact ⟨honly, not_inevitable (fun s : Sleeping ℕ => s.Turns 2) (fun s h => h.not_halted)
    (fun s s' h hstep => h.step (Nat.le_refl 2) hstep) hturns⟩

end Sleeping

end Nachos
