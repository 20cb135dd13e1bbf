import Nachos.Threads.Sleep

/-! # Time slices (`RoundRobin` of `userprog/progtest.cc`)

`StartProcess` schedules `RoundRobin`, and `RoundRobin` schedules itself again 20 ticks later and asks for a yield. The
other handlers and the kernel may do anything. Between two yields less than 20 ticks pass, however often the machine
was idle before: an idle machine forgets the yield that `RoundRobin` has asked for, but not to schedule it. -/
set_option autoImplicit false

namespace Nachos
open Execution

namespace Simulation

variable {s s' : Simulation} {event : Event} {handler deadline : ℕ}

/-! ## The machine and `RoundRobin` -/

/-- The machine has just called `RoundRobin`. -/
def InRoundRobin (handler : ℕ) (s : Simulation) : Prop :=
  (∃ caller old, s.control = .handler caller old) ∧
    ∃ call, s.calls.getLast? = some call ∧ call.interrupt.handler = handler

inductive SliceAct where
  | event (event : Event)
  | roundRobin (currentThread : Int)

inductive SliceStep (handler : ℕ) : Simulation → SliceAct → Simulation → Prop
  | event {s s' : Simulation} {event : Event} (hout : ¬ s.InRoundRobin handler) (hfits : s.Fits event)
      (hstep : Step s event s') : SliceStep handler s (.event event) s'
  | roundRobin {s s' : Simulation} {currentThread : Int} (hin : s.InRoundRobin handler)
      (hfits : s.Fits (.schedule handler currentThread 20 .timerInt))
      (hruns : s.Runs (roundRobin handler currentThread ++ [.handlerReturns]) s') :
      SliceStep handler s (.roundRobin currentThread) s'

/-- `StartProcess` has scheduled `RoundRobin`. -/
def SliceStart (handler : ℕ) (s : Simulation) : Prop :=
  ∃ s₀ currentThread, s₀.Reached ∧ s₀.Fits (.schedule handler currentThread 20 .timerInt) ∧
    Step s₀ (.schedule handler currentThread 20 .timerInt) s

/-- `OneTick` comes to its end and calls `Yield`. -/
def Yields (s : Simulation) (act : SliceAct) : Prop :=
  act = .event .check ∧ s.control = .checking .oneTick ∧ s.interrupt.yieldOnReturn = true ∧
    ∃ i, s.interrupt.checkIfDue false = .ok (i, none)

/-- A step of the thread that has the processor: it neither yields nor sleeps. -/
def KeepsRunning (s : Simulation) (act : SliceAct) : Prop :=
  ¬ s.Yields act ∧ act ≠ .event .idle ∧ act ≠ .event (.setStatus .idleMode)

/-! ## `RoundRobin` is pending -/

def RobinBy (handler deadline : ℕ) (s : Simulation) : Prop :=
  ∃ e ∈ s.interrupt.pending, e.item.handler = handler ∧ e.key ≤ deadline

theorem handler_of_called (hstep : Step s event s') (hcalls : s'.calls ≠ s.calls) :
    ∃ caller old, s'.control = .handler caller old := by
  cases hstep with
  | schedule | yieldOnReturn | oneTick | setStatus | handlerReturns => exact absurd rfl hcalls
  | setLevel =>
    split at hcalls <;> exact absurd rfl hcalls
  | @idle x =>
    obtain ⟨i, due⟩ := x
    cases due with
    | none => exact absurd rfl hcalls
    | some toOccur => exact ⟨_, _, rfl⟩
  | @check caller x =>
    obtain ⟨i, due⟩ := x
    cases due with
    | none => cases caller <;> exact absurd rfl hcalls
    | some toOccur => exact ⟨_, _, rfl⟩

/-- An interrupt that is pending stays so until its handler is called. -/
theorem RobinBy.step (h : s.RobinBy handler deadline) (hstep : Step s event s') :
    s'.RobinBy handler deadline ∨ s'.InRoundRobin handler := by
  obtain ⟨e, he, hhandler, hkey⟩ := h
  rcases step_effect hstep with ⟨hpending, -⟩ | ⟨p, hpending, -⟩ | ⟨i, advance, x, hcheck, hi, -, hpending, -, hcalls⟩
  · exact .inl ⟨e, by rwa [hpending], hhandler, hkey⟩
  · exact .inl ⟨e, by rw [hpending]; exact SortedList.mem_insert.mpr (.inr he), hhandler, hkey⟩
  · rw [← hi] at he
    obtain ⟨-, rfl⟩ | ⟨e', rest, hcons, ⟨hcalled, hrest⟩ | ⟨-, hback, -⟩⟩ := Interrupt.checkIfDue_cases hcheck
    · exact .inl ⟨e, by rwa [hpending], hhandler, hkey⟩
    · rw [hcons] at he
      rcases List.mem_cons.mp he with rfl | he
      · have hlast : s'.calls = s.calls ++ [⟨e.item, x.1.stats.totalTicks⟩] := by rw [hcalls, called, hcalled]
        exact .inr ⟨handler_of_called hstep (by simp [hlast]), _, by rw [hlast, List.getLast?_concat], hhandler⟩
      · exact .inl ⟨e, by rwa [hpending, hrest], hhandler, hkey⟩
    · rw [hcons, ← (SortedList.insert_perm e'.item e'.key rest).mem_iff, ← hback, ← hpending] at he
      exact .inl ⟨e, he, hhandler, hkey⟩

/-- What `RoundRobin` does. -/
theorem roundRobin_runs {currentThread : Int} {caller : Caller} {old : MachineStatus} (h : s.Consistent)
    (hcontrol : s.control = .handler caller old) (hfits : s.Fits (.schedule handler currentThread 20 .timerInt))
    (hruns : s.Runs (roundRobin handler currentThread ++ [.handlerReturns]) s') :
    s'.Consistent ∧ s'.totalTicks = s.totalTicks ∧ s'.RobinBy handler (s.totalTicks + 20) ∧
      s'.control = .checking caller ∧ s'.interrupt.status = old ∧ s'.interrupt.yieldOnReturn = true := by
  obtain ⟨s₁, hschedule, s₂, hyield, s₃, hreturns, rfl⟩ := hruns
  have h₁ := (step_consistent h hfits hschedule).2
  have h₂ := (step_consistent h₁ (by trivial) hyield).2
  have h₃ := (step_consistent h₂ (by trivial) hreturns).2
  refine ⟨h₃, ?_⟩
  cases hschedule with
  | schedule _ hschedule =>
    cases hschedule
    cases hyield with
    | yieldOnReturn _ hyield =>
      unfold Interrupt.yieldAtReturn at hyield
      split at hyield <;> cases hyield
      cases hreturns with
      | handlerReturns hhandler =>
        cases hcontrol.symm.trans hhandler
        exact ⟨rfl, ⟨_, SortedList.mem_insert.mpr (.inl rfl), rfl, (uint64_of_lt hfits).le⟩, rfl, rfl, rfl⟩

/-- `RoundRobin` comes within 20 ticks. -/
structure Sliced (handler : ℕ) (s : Simulation) : Prop where
  consistent : s.Consistent
  soon : s.RobinBy handler (s.totalTicks + 20) ∨ s.InRoundRobin handler

theorem RobinBy.mono (h : s.RobinBy handler deadline) {deadline' : ℕ} (hle : deadline ≤ deadline') :
    s.RobinBy handler deadline' := by
  obtain ⟨e, he, hhandler, hkey⟩ := h
  exact ⟨e, he, hhandler, hkey.trans hle⟩

theorem Sliced.step {act : SliceAct} (h : s.Sliced handler) (hstep : SliceStep handler s act s') :
    s'.Sliced handler := by
  cases hstep with
  | event hout hfits hstep =>
    obtain ⟨hle, hconsistent⟩ := step_consistent h.consistent hfits hstep
    have hsoon := (h.soon.resolve_right hout).step hstep
    exact ⟨hconsistent, hsoon.imp_left fun hby => hby.mono (Nat.add_le_add_right hle 20)⟩
  | roundRobin hin hfits hruns =>
    obtain ⟨⟨caller, old, hcontrol⟩, -⟩ := hin
    obtain ⟨hconsistent, hticks, hby, -⟩ := roundRobin_runs h.consistent hcontrol hfits hruns
    exact ⟨hconsistent, .inl (hticks ▸ hby)⟩

theorem SliceStart.sliced (h : s.SliceStart handler) : s.Sliced handler := by
  obtain ⟨s₀, currentThread, hreached, hfits, hstep⟩ := h
  refine ⟨(step_consistent (reached_consistent hreached) hfits hstep).2, .inl ?_⟩
  cases hstep with
  | schedule _ hschedule =>
    cases hschedule
    exact ⟨_, SortedList.mem_insert.mpr (.inl rfl), rfl, (uint64_of_lt hfits).le⟩

/-! ## One slice -/

/-- The processor runs code of a thread, or is in a tick of it. -/
def Awake (s : Simulation) : Prop :=
  match s.control with
  | .kernel | .checking .oneTick => s.interrupt.status ≠ .idleMode
  | .handler .oneTick old => old ≠ .idleMode ∧ s.interrupt.inHandler = true
  | _ => False

/-- A tick comes to its end without a yield. -/
structure TickEnds (s s' : Simulation) : Prop where
  stays : s.interrupt.yieldOnReturn = false
  ticks : s'.totalTicks = s.totalTicks
  later : ∀ e ∈ s.interrupt.pending, s.totalTicks < e.key

/-- What a step does that neither yields nor sleeps: the kernel goes on, a tick ends, or a tick goes on. -/
structure StaysAwake (s s' : Simulation) : Prop where
  awake : s'.Awake
  kernel : s'.control = .kernel → s.control = .kernel ∧ s'.totalTicks = s.totalTicks ∨ TickEnds s s'
  yield : s'.control ≠ .kernel → s.control ≠ .kernel → s.interrupt.yieldOnReturn = true →
    s'.interrupt.yieldOnReturn = true

theorem Awake.check (h : s.Awake) (hcons : s.Consistent) {caller : Caller} {x : Interrupt × Option PendingInterrupt}
    (hloop : s.control = .checking caller) (hcheck : s.interrupt.checkIfDue false = .ok x)
    (hkeeps : s.KeepsRunning (.event .check)) :
    StaysAwake s (s.checked caller s.interrupt.status (s.loopEnds caller) x) := by
  unfold Awake at h
  rw [hloop] at h
  cases caller with
  | idle => exact h.elim
  | oneTick =>
    have hsorted := hcons.sorted
    have hstays : ∀ i, x = (i, none) → s.interrupt.yieldOnReturn = false := fun i hx =>
      Bool.eq_false_iff.mpr fun hyield => hkeeps.1 ⟨rfl, hloop, hyield, i, hx ▸ hcheck⟩
    have hend : ∀ pending, s.interrupt.yieldOnReturn = false →
        Interrupt.endTick { s.interrupt with pending := pending } =
          { s.interrupt with pending := pending, level := .intOn } := by
      intro pending hyield
      simp [Interrupt.endTick, hyield]
    cases Interrupt.checkIfDue_eq_ok hcheck with
    | nothing hpending =>
      have hyield := hstays _ rfl
      dsimp only [checked, loopEnds]
      rw [hend _ hyield]
      exact ⟨h, fun _ => .inr ⟨hyield, rfl, by simp [hpending]⟩, absurd rfl⟩
    | advanced _ hadvance => cases hadvance
    | @notYet e rest hpending _ hlater =>
      have hyield := hstays _ rfl
      dsimp only [checked, loopEnds]
      rw [hend _ hyield]
      refine ⟨h, fun _ => .inr ⟨hyield, rfl, fun e' he' => ?_⟩, absurd rfl⟩
      rw [hpending] at hsorted he'
      rcases List.mem_cons.mp he' with rfl | he'
      · exact hlater
      · exact hlater.trans_le ((List.pairwise_cons.mp hsorted).1 e' he')
    | @due e rest hpending hdue =>
      have hfire : Interrupt.fire { s.interrupt with pending := rest } e.item e.key =
          ({ s.interrupt with pending := rest, inHandler := true, status := .systemMode }, some e.item) :=
        if_neg fun hidle => h hidle.1
      rw [hfire]
      exact ⟨⟨h, rfl⟩, nofun, fun _ _ => id⟩

theorem Awake.step (h : s.Awake) (hcons : s.Consistent) (hkeeps : s.KeepsRunning (.event event))
    (hstep : Step s event s') : StaysAwake s s' := by
  cases hstep with
  | schedule _ hschedule =>
    unfold Interrupt.schedule at hschedule
    dsimp only at hschedule
    split at hschedule <;> cases hschedule
    exact ⟨h, fun hkernel => .inl ⟨hkernel, rfl⟩, fun _ _ => id⟩
  | yieldOnReturn _ hyield =>
    unfold Interrupt.yieldAtReturn at hyield
    split at hyield <;> cases hyield
    exact ⟨h, fun hkernel => .inl ⟨hkernel, rfl⟩, fun _ _ _ => rfl⟩
  | @setLevel now i ticks hcode hlevel =>
    unfold Interrupt.setLevel at hlevel
    split at hlevel <;> cases hlevel
    next hnow =>
    split
    · next hticks =>
      -- a handler cannot enable interrupts
      have hkernel : s.control = .kernel := by
        cases hc : s.control with
        | kernel => rfl
        | checking | halted =>
          rw [hc] at hcode
          exact hcode.elim
        | handler caller old =>
          unfold Awake at h
          rw [hc] at h
          cases caller with
          | idle => exact h.elim
          | oneTick => simp_all
      unfold Awake at h
      rw [hkernel] at h
      exact ⟨h, nofun, fun _ hno => absurd hkernel hno⟩
    · exact ⟨h, fun hkernel => .inl ⟨hkernel, rfl⟩, fun _ _ => id⟩
  | oneTick hkernel =>
    unfold Awake at h
    rw [hkernel] at h
    exact ⟨h, nofun, fun _ hno => absurd hkernel hno⟩
  | idle => exact absurd rfl hkeeps.2.1
  | setStatus hkernel status =>
    refine ⟨?_, fun _ => .inl ⟨hkernel, rfl⟩, fun _ hno => absurd hkernel hno⟩
    unfold Awake
    dsimp only
    rw [hkernel]
    exact fun hidle => hkeeps.2.2 (by rw [hidle])
  | check hloop hcheck => exact h.check hcons hloop hcheck hkeeps
  | @handlerReturns caller old hhandler =>
    unfold Awake at h
    rw [hhandler] at h
    cases caller with
    | oneTick => exact ⟨h.1, nofun, fun _ _ => id⟩
    | idle => exact h.elim

/-- The thread has not yielded yet: a yield is asked for, or `RoundRobin` comes before the deadline. -/
structure InSlice (handler deadline : ℕ) (s : Simulation) : Prop where
  awake : s.Awake
  ahead : s.interrupt.yieldOnReturn = true ∧ s.control ≠ .kernel ∨ s.RobinBy handler deadline ∨ s.InRoundRobin handler
  clock : s.control = .kernel → s.totalTicks < deadline

theorem InSlice.step {act : SliceAct} (h : s.InSlice handler deadline) (hcons : s.Consistent)
    (hkeeps : s.KeepsRunning act) (hstep : SliceStep handler s act s') : s'.InSlice handler deadline := by
  cases hstep with
  | event hout _ hstep =>
    obtain ⟨hawake, hkernel, hyield⟩ := h.awake.step hcons hkeeps hstep
    refine ⟨hawake, ?_, fun hk => ?_⟩
    · rcases h.ahead with ⟨hasked, hno⟩ | hby | hin
      · have hno' : s'.control ≠ .kernel := by
          intro hk
          rcases hkernel hk with ⟨hk₀, -⟩ | hends
          · exact hno hk₀
          · cases hends.stays.symm.trans hasked
        exact .inl ⟨hyield hno' hno hasked, hno'⟩
      · exact .inr (hby.step hstep)
      · exact absurd hin hout
    · rcases hkernel hk with ⟨hk₀, hticks⟩ | ⟨hstays, hticks, hlater⟩
      · rw [hticks]
        exact h.clock hk₀
      · rcases h.ahead with ⟨hasked, -⟩ | ⟨e, he, -, hkey⟩ | hin
        · cases hstays.symm.trans hasked
        · rw [hticks]
          exact (hlater e he).trans_le hkey
        · exact absurd hin hout
  | roundRobin hin hfits hruns =>
    obtain ⟨⟨caller, old, hcontrol⟩, -⟩ := hin
    obtain ⟨-, -, -, hchecking, hstatus, hasked⟩ := roundRobin_runs hcons hcontrol hfits hruns
    have hawake := h.awake
    unfold Awake at hawake
    rw [hcontrol] at hawake
    cases caller with
    | idle => exact hawake.elim
    | oneTick =>
      refine ⟨?_, .inl ⟨hasked, by simp [hchecking]⟩, fun hk => nomatch hchecking.symm.trans hk⟩
      unfold Awake
      rw [hchecking, hstatus]
      exact hawake.1

/-- Over every run since `StartProcess`, `RoundRobin` comes within 20 ticks or is being called; and from any point at
which the processor is in user mode, less than 20 ticks pass before the machine calls `Yield`, whatever the kernel and
the other handlers do. -/
theorem time_slice (h : Reachable (SliceStart handler) (SliceStep handler) (fun _ _ => True) s) :
    (s.RobinBy handler (s.totalTicks + 20) ∨ s.InRoundRobin handler) ∧
    (s.control = .kernel → s.interrupt.status = .userMode →
      ∀ s', Reachable (· = s) (SliceStep handler) KeepsRunning s' → s'.control = .kernel →
        s'.totalTicks < s.totalTicks + 20) := by
  have hsliced : s.Sliced handler := h.invariant (Sliced handler) (fun _ => SliceStart.sliced)
    fun _ _ _ hinv _ hstep => hinv.step hstep
  refine ⟨hsliced.soon, fun hkernel huser s' hrun hkernel' => ?_⟩
  have hslice : s'.Sliced handler ∧ s'.InSlice handler (s.totalTicks + 20) := by
    refine hrun.invariant (fun s' => s'.Sliced handler ∧ s'.InSlice handler (s.totalTicks + 20)) ?_ ?_
    · rintro s₀ rfl
      refine ⟨hsliced, ?_, .inr hsliced.soon, fun _ => by omega⟩
      unfold Awake
      rw [hkernel, huser]
      nofun
    · rintro s₁ act s₂ ⟨hinv, hslice⟩ hkeeps hstep
      exact ⟨hinv.step hstep, hslice.step hinv.consistent hkeeps hstep⟩
  exact hslice.2.clock hkernel'

/-- `RoundRobin` is pending, and `ticks` instructions have been executed. -/
def sliceAt (ticks : ℕ) (status : MachineStatus) (level : IntStatus) (control : Control) : Simulation :=
  ⟨⟨level, [⟨⟨0, 1, 0, 20, .timerInt⟩, 20⟩], false, false, status, ⟨ticks, 0, 0, ticks⟩⟩, control,
    [⟨0, 1, 0, 20, .timerInt⟩], []⟩

/-- One instruction: a tick at whose end nothing is due. -/
theorem sliceAt_tick {init : Simulation → Prop} {ticks : ℕ} (hlt : ticks < 19) {level : IntStatus}
    (h : Reachable init (SliceStep 1) KeepsRunning (sliceAt ticks .userMode level .kernel)) :
    Reachable init (SliceStep 1) KeepsRunning (sliceAt (ticks + 1) .userMode .intOn .kernel) := by
  have hadd : uint64 (ticks + userTick) = ticks + 1 := uint64_of_lt (by simp only [userTick]; omega)
  have hticked : (sliceAt ticks .userMode level .kernel).ticking (sliceAt ticks .userMode level .kernel).interrupt =
      sliceAt (ticks + 1) .userMode .intOff (.checking .oneTick) := by
    simp [ticking, Interrupt.tick, sliceAt, hadd]
  have hcheck : (sliceAt (ticks + 1) .userMode .intOff (.checking .oneTick)).interrupt.checkIfDue false =
      .ok ((sliceAt (ticks + 1) .userMode .intOff (.checking .oneTick)).interrupt, none) := by
    simp [Interrupt.checkIfDue, sliceAt, SortedList.insert, show ticks + 1 < 20 by omega]
  have hstep := Step.oneTick (s := sliceAt ticks .userMode level .kernel) rfl
  rw [hticked] at hstep
  have hfits : (sliceAt ticks .userMode level .kernel).Fits .oneTick :=
    show ticks + 10 < 18446744073709551616 by omega
  have htick := h.next (by simp [KeepsRunning, Yields]) (.event (by simp [InRoundRobin, sliceAt]) hfits hstep)
  exact htick.next (l := .event .check) (by simp [KeepsRunning, Yields, sliceAt])
    (.event (by simp [InRoundRobin, sliceAt]) (by trivial) (@Step.check _ .oneTick _ rfl hcheck))

/-- A user program is started and executes 19 instructions; the next one would be its last before `RoundRobin`. -/
theorem time_slice_nineteen : ∃ s s' : Simulation,
    Reachable (SliceStart 1) (SliceStep 1) (fun _ _ => True) s ∧ s.totalTicks = 0 ∧ s.RobinBy 1 (0 + 20) ∧
    Reachable (· = s) (SliceStep 1) KeepsRunning s' ∧ s'.totalTicks = 19 ∧ s'.totalTicks < 0 + 20 := by
  have hstart : SliceStart 1 (sliceAt 0 .systemMode .intOff .kernel) :=
    ⟨start, 0, .start rfl, (by decide : 0 + 20 < 18446744073709551616), .schedule trivial rfl⟩
  have hreached : Reachable (SliceStart 1) (SliceStep 1) (fun _ _ => True) (sliceAt 0 .userMode .intOff .kernel) :=
    .next (.start hstart) trivial (.event (by simp [InRoundRobin, sliceAt]) (by trivial) (.setStatus rfl .userMode))
  obtain ⟨hsoon, hslice⟩ := time_slice hreached
  have hrun : ∀ n < 19, Reachable (· = sliceAt 0 .userMode .intOff .kernel) (SliceStep 1) KeepsRunning
      (sliceAt (n + 1) .userMode .intOn .kernel) := by
    intro n hn
    induction n with
    | zero => exact sliceAt_tick (by decide) (.start rfl)
    | succ n ih => exact sliceAt_tick hn (ih (by omega))
  have hlast := hrun 18 (by decide)
  refine ⟨_, _, hreached, rfl, hsoon.resolve_right ?_, hlast, rfl, hslice rfl rfl _ hlast rfl⟩
  simp [InRoundRobin, sliceAt]

end Simulation

end Nachos
