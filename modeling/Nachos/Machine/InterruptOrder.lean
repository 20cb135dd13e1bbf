import Nachos.Machine.Interrupt

/-! # Interrupts that are due at the same time (`machine/interrupt.cc`, `threads/list.cc`)

`CheckIfDue` takes the first interrupt off the list, and if it is not due puts it back as `Schedule` would: behind those
of the same time. Where there is one, the check has changed the order. -/
set_option autoImplicit false

namespace Nachos
open Buffer Execution

namespace Interrupt

/-- The pending interrupts in their order. -/
def waiting (s : Interrupt) : List PendingInterrupt := s.pending.map SortedList.Element.item

/-- What a check that calls no handler has to leave as it is. -/
structure Unchanged (s s' : Interrupt) : Prop where
  waiting : s'.waiting = s.waiting
  totalTicks : s'.stats.totalTicks = s.stats.totalTicks
  idleTicks : s'.stats.idleTicks = s.stats.idleTicks
  status : s'.status = s.status

/-- The first interrupt is not due, and among those behind it that come no later there is another one. -/
def Tied (s : Interrupt) : Prop :=
  match s.pending with
  | [] => False
  | e :: rest => s.stats.totalTicks < e.key ∧ ∃ x ∈ rest.takeWhile (fun x => x.key ≤ e.key), x.item ≠ e.item

/-- The first interrupt is called, or put back because it is alone or not due. -/
theorem checkIfDue_cases {s : Interrupt} {advanceClock : Bool} {x : Interrupt × Option PendingInterrupt}
    (h : s.checkIfDue advanceClock = .ok x) :
    s.pending = [] ∧ x = (s, none) ∨
      ∃ e rest, s.pending = e :: rest ∧
        (x.2 = some e.item ∧ x.1.pending = rest ∨
          x.2 = none ∧ x.1.pending = SortedList.insert e.item e.key rest ∧
            (advanceClock = false → x.1.stats = s.stats ∧ x.1.status = s.status) ∧
            (rest = [] ∨ advanceClock = false ∧ s.stats.totalTicks < e.key)) := by
  cases checkIfDue_eq_ok h with
  | nothing hpending => exact .inl ⟨hpending, rfl⟩
  | advanced hpending hadvance hlater =>
    refine .inr ⟨_, _, hpending, ?_⟩
    unfold fire
    split
    · next halone => exact .inr ⟨rfl, rfl, fun hfalse => absurd hadvance (by simp [hfalse]), .inl halone.2.2⟩
    · exact .inl ⟨rfl, rfl⟩
  | notYet hpending hstay hlater =>
    exact .inr ⟨_, _, hpending, .inr ⟨rfl, rfl, fun _ => ⟨rfl, rfl⟩, .inr ⟨hstay, hlater⟩⟩⟩
  | due hpending hdue =>
    refine .inr ⟨_, _, hpending, ?_⟩
    unfold fire
    split
    · next halone => exact .inr ⟨rfl, rfl, fun _ => ⟨rfl, rfl⟩, .inl halone.2.2⟩
    · exact .inl ⟨rfl, rfl⟩

/-- Without a tie the first interrupt goes back to its place. -/
theorem putBack_iff {s : Interrupt} {e : SortedList.Element PendingInterrupt}
    {rest : List (SortedList.Element PendingInterrupt)} (hpending : s.pending = e :: rest)
    (hback : rest = [] ∨ s.stats.totalTicks < e.key) :
    (SortedList.insert e.item e.key rest).map SortedList.Element.item = s.waiting ↔ ¬ s.Tied := by
  unfold waiting Tied
  rw [hpending, List.map_cons, SortedList.map_insert_eq_cons_iff]
  dsimp only
  rcases hback with rfl | hlater
  · exact ⟨fun _ htied => by simpa using htied.2, fun _ => nofun⟩
  · constructor
    · rintro hsame ⟨-, x, hx, hne⟩
      exact hne (hsame x hx)
    · intro huntied x hx
      by_contra hne
      exact huntied ⟨hlater, x, hx, hne⟩

theorem unchanged_iff {s s' : Interrupt} (h : s.checkIfDue false = .ok (s', none)) : s.Unchanged s' ↔ ¬ s.Tied := by
  obtain ⟨hpending, heq⟩ | ⟨e, rest, hpending, ⟨hcalled, -⟩ | ⟨-, hback, hsame, hwhy⟩⟩ := checkIfDue_cases h
  · cases heq
    refine ⟨fun _ htied => ?_, fun _ => ⟨rfl, rfl, rfl, rfl⟩⟩
    unfold Tied at htied
    rw [hpending] at htied
    exact htied
  · cases hcalled
  · obtain ⟨hstats, hstatus⟩ := hsame rfl
    have hiff := putBack_iff hpending (hwhy.imp id And.right)
    rw [← hback] at hiff
    refine ⟨fun hunchanged => hiff.mp hunchanged.waiting, fun huntied => ⟨hiff.mpr huntied, ?_, ?_, hstatus⟩⟩
    · exact congrArg Statistics.totalTicks hstats
    · exact congrArg Statistics.idleTicks hstats

end Interrupt

namespace Simulation

/-! ## Order of scheduling -/

/-- What a step does to the pending interrupts, those scheduled and the handlers called. -/
theorem step_effect {s s' : Simulation} {event : Event} (h : Step s event s') :
    s'.interrupt.pending = s.interrupt.pending ∧ s'.scheduled = s.scheduled ∧ s'.calls = s.calls ∨
    (∃ p : PendingInterrupt, s'.interrupt.pending = SortedList.insert p p.when s.interrupt.pending ∧
      s'.scheduled = s.scheduled ++ [p] ∧ s'.calls = s.calls) ∨
    ∃ (i : Interrupt) (advanceClock : Bool) (x : Interrupt × Option PendingInterrupt),
      i.checkIfDue advanceClock = .ok x ∧ i.pending = s.interrupt.pending ∧
      (advanceClock = false → event = .check ∧ i = s.interrupt) ∧
      s'.interrupt.pending = x.1.pending ∧ s'.scheduled = s.scheduled ∧ s'.calls = s.calls ++ called x := by
  cases h with
  | schedule hcode hschedule =>
    unfold Interrupt.schedule at hschedule
    dsimp only at hschedule
    split at hschedule
    · cases hschedule
    · cases hschedule
      exact .inr (.inl ⟨_, rfl, rfl, rfl⟩)
  | setLevel hcode hlevel =>
    unfold Interrupt.setLevel at hlevel
    split at hlevel
    · cases hlevel
      left
      split <;> exact ⟨rfl, rfl, rfl⟩
    · cases hlevel
  | yieldOnReturn hcode hyield =>
    unfold Interrupt.yieldAtReturn at hyield
    split at hyield
    · cases hyield
      exact .inl ⟨rfl, rfl, rfl⟩
    · cases hyield
  | oneTick hkernel => exact .inl ⟨rfl, rfl, rfl⟩
  | @idle x hkernel hcheck =>
    refine .inr (.inr ⟨_, true, x, hcheck, rfl, nofun, ?_⟩)
    obtain ⟨i, due⟩ := x
    cases due with
    | some toOccur => exact ⟨rfl, rfl, rfl⟩
    | none => exact ⟨rfl, rfl, (List.append_nil _).symm⟩
  | setStatus hkernel status => exact .inl ⟨rfl, rfl, rfl⟩
  | @check caller x hloop hcheck =>
    refine .inr (.inr ⟨_, false, x, hcheck, rfl, fun _ => ⟨rfl, rfl⟩, ?_⟩)
    obtain ⟨i, due⟩ := x
    cases due with
    | some toOccur => exact ⟨rfl, rfl, rfl⟩
    | none =>
      refine (?_ : _ ∧ _ ∧ _)
      cases caller with
      | oneTick =>
        unfold checked loopEnds Interrupt.endTick
        dsimp only
        split <;> exact ⟨rfl, rfl, (List.append_nil _).symm⟩
      | idle => exact ⟨rfl, rfl, (List.append_nil _).symm⟩
  | handlerReturns hhandler => exact .inl ⟨rfl, rfl, rfl⟩

/-- For each time, the interrupts of that time are called in the order in which they have been scheduled, and those not
called yet wait in this order. -/
structure InOrder (pending : List (SortedList.Element PendingInterrupt)) (scheduled : List PendingInterrupt)
    (calls : List HandlerCall) : Prop where
  sorted : SortedList.Sorted pending
  key : ∀ e ∈ pending, e.key = e.item.when
  order : ∀ when, (calls.map HandlerCall.interrupt ++ pending.map SortedList.Element.item).filter (·.when = when) =
    scheduled.filter (·.when = when)

section InOrder

variable {pending rest : List (SortedList.Element PendingInterrupt)} {e : SortedList.Element PendingInterrupt}
  {scheduled : List PendingInterrupt} {calls : List HandlerCall}

theorem filter_items {l : List (SortedList.Element PendingInterrupt)} (hkey : ∀ e ∈ l, e.key = e.item.when) (when : ℕ) :
    (l.map SortedList.Element.item).filter (·.when = when) =
      (l.filter (fun e => e.key = when)).map SortedList.Element.item := by
  rw [List.filter_map]
  congr 1
  refine List.filter_congr fun e he => ?_
  rw [hkey e he]
  rfl

theorem InOrder.add (h : InOrder pending scheduled calls) (p : PendingInterrupt) :
    InOrder (SortedList.insert p p.when pending) (scheduled ++ [p]) calls where
  sorted := h.sorted.insert p p.when
  key e he := by
    rcases SortedList.mem_insert.mp he with rfl | he
    · rfl
    · exact h.key e he
  order when := by
    have hkey : ∀ e ∈ pending ++ [SortedList.Element.mk p p.when], e.key = e.item.when := by
      intro e he
      rcases List.mem_append.mp he with he | he
      · exact h.key e he
      · rw [List.mem_singleton.mp he]
    have hinsert : ∀ e ∈ SortedList.insert p p.when pending, e.key = e.item.when := by
      intro e he
      exact hkey e (((SortedList.insert_perm p p.when pending).trans (List.perm_append_singleton _ _).symm).mem_iff.mp he)
    rw [List.filter_append, List.filter_append, filter_items hinsert, h.sorted.filter_insert, ← filter_items hkey,
      List.map_append, List.filter_append, ← List.append_assoc, ← List.filter_append, h.order when]
    rfl

theorem InOrder.call (h : InOrder (e :: rest) scheduled calls) (time : ℕ) :
    InOrder rest scheduled (calls ++ [⟨e.item, time⟩]) where
  sorted := h.sorted.tail
  key x hx := h.key x (List.mem_cons_of_mem _ hx)
  order when := by
    rw [← h.order when, List.map_append, List.append_assoc]
    rfl

theorem InOrder.putBack (h : InOrder (e :: rest) scheduled calls)
    (hsame : (SortedList.insert e.item e.key rest).map SortedList.Element.item =
      (e :: rest).map SortedList.Element.item) :
    InOrder (SortedList.insert e.item e.key rest) scheduled calls where
  sorted := h.sorted.tail.insert e.item e.key
  key x hx := h.key x ((SortedList.insert_perm e.item e.key rest).mem_iff.mp hx)
  order when := by
    rw [hsame]
    exact h.order when

theorem InOrder.checkIfDue {i : Interrupt} {advanceClock : Bool} {x : Interrupt × Option PendingInterrupt}
    (h : InOrder i.pending scheduled calls) (hcheck : i.checkIfDue advanceClock = .ok x)
    (huntied : advanceClock = false → ¬ i.Tied) : InOrder x.1.pending scheduled (calls ++ called x) := by
  obtain ⟨hpending, rfl⟩ | ⟨e, rest, hpending, ⟨hcalled, hrest⟩ | ⟨hnone, hback, -, hwhy⟩⟩ :=
    Interrupt.checkIfDue_cases hcheck
  · rw [called, List.append_nil]
    exact h
  · rw [hpending] at h
    rw [hrest, called, hcalled]
    exact h.call _
  · rw [called, hnone, List.append_nil, hback]
    rcases hwhy with rfl | ⟨hfalse, hlater⟩
    · rw [hpending] at h
      exact h.putBack rfl
    · have hsame := (Interrupt.putBack_iff hpending (.inr hlater)).mpr (huntied hfalse)
      unfold Interrupt.waiting at hsame
      rw [hpending] at h hsame
      exact h.putBack hsame

end InOrder

/-- A check does not find the first interrupt before its time and tied with another. -/
def Untied (s : Simulation) : Event → Prop
  | .check => ¬ s.interrupt.Tied
  | _ => True

theorem step_inOrder {s s' : Simulation} {event : Event} (h : InOrder s.interrupt.pending s.scheduled s.calls)
    (huntied : s.Untied event) (hstep : Step s event s') : InOrder s'.interrupt.pending s'.scheduled s'.calls := by
  obtain ⟨hpending, hscheduled, hcalls⟩ | ⟨p, hpending, hscheduled, hcalls⟩ |
    ⟨i, advanceClock, x, hcheck, hsame, hwhich, hpending, hscheduled, hcalls⟩ := step_effect hstep
  · rw [hpending, hscheduled, hcalls]
    exact h
  · rw [hpending, hscheduled, hcalls]
    exact h.add p
  · rw [hpending, hscheduled, hcalls]
    rw [← hsame] at h
    refine h.checkIfDue hcheck fun hfalse => ?_
    obtain ⟨rfl, rfl⟩ := hwhich hfalse
    exact huntied

theorem untied_inOrder {s : Simulation} (h : Reachable (· = start) Step Untied s) :
    InOrder s.interrupt.pending s.scheduled s.calls := by
  refine Reachable.invariant (fun s => InOrder s.interrupt.pending s.scheduled s.calls) (fun s hs => ?_)
    (fun s event s' hinv huntied hstep => step_inOrder hinv huntied hstep) h
  subst hs
  exact ⟨.nil, nofun, fun _ => rfl⟩

/-- The handlers of the interrupts of one time are called in the order in which the interrupts were scheduled. -/
def CalledInOrder (s : Simulation) : Prop :=
  ∀ when, (s.calls.map HandlerCall.interrupt).filter (·.when = when) <+: s.scheduled.filter (·.when = when)

/-- A check that calls no handler leaves everything as it is unless there is a tie; and in a run without such checks
the handlers are called in the order of scheduling. -/
theorem quiet_checks (i i' : Interrupt) (s : Simulation) :
    (i.checkIfDue false = .ok (i', none) → (i.Unchanged i' ↔ ¬ i.Tied)) ∧
      (Reachable (· = start) Step Untied s → s.CalledInOrder) := by
  refine ⟨fun h => Interrupt.unchanged_iff h, fun h when => ?_⟩
  rw [← (untied_inOrder h).order when, List.filter_append]
  exact List.prefix_append _ _

/-- The machine with disk interrupts pending at time 15. -/
def awaiting (ticks : ℕ) (level : IntStatus) (pending : List PendingInterrupt) : Interrupt :=
  ⟨level, pending.map fun p => ⟨p, 15⟩, false, false, .systemMode, ⟨ticks, 0, ticks, 0⟩⟩

/-- The machine in the handler of a disk interrupt at time 20. -/
def atTwenty (first : PendingInterrupt) (pending scheduled : List PendingInterrupt) : Simulation :=
  ⟨{ awaiting 20 .intOff pending with inHandler := true }, .handler .oneTick .systemMode, scheduled, [⟨first, 20⟩]⟩

/-- Interrupts are enabled, those pending are found not due, and another tick passes. -/
theorem reaches_twenty {allowed : Simulation → Event → Prop} {scheduled pending : List PendingInterrupt}
    (h : Reachable (· = start) Step allowed ⟨awaiting 0 .intOff scheduled, .kernel, scheduled, []⟩)
    (hquiet : (awaiting 10 .intOff scheduled).checkIfDue false = .ok (awaiting 10 .intOff pending, none))
    (hlevel : allowed ⟨awaiting 0 .intOff scheduled, .kernel, scheduled, []⟩ (.setLevel .intOn))
    (hcheck : allowed ⟨awaiting 10 .intOff scheduled, .checking .oneTick, scheduled, []⟩ .check)
    (htick : allowed ⟨awaiting 10 .intOn pending, .kernel, scheduled, []⟩ .oneTick) :
    Reachable (· = start) Step allowed ⟨awaiting 20 .intOff pending, .checking .oneTick, scheduled, []⟩ := by
  have h₁ : Step ⟨awaiting 0 .intOff scheduled, .kernel, scheduled, []⟩ (.setLevel .intOn)
      ⟨awaiting 10 .intOff scheduled, .checking .oneTick, scheduled, []⟩ :=
    @Step.setLevel ⟨awaiting 0 .intOff scheduled, .kernel, scheduled, []⟩ .intOn _ true trivial rfl
  have h₂ : Step ⟨awaiting 10 .intOff scheduled, .checking .oneTick, scheduled, []⟩ .check
      ⟨awaiting 10 .intOn pending, .kernel, scheduled, []⟩ :=
    @Step.check ⟨awaiting 10 .intOff scheduled, .checking .oneTick, scheduled, []⟩ .oneTick _ rfl hquiet
  have h₃ : Step ⟨awaiting 10 .intOn pending, .kernel, scheduled, []⟩ .oneTick
      ⟨awaiting 20 .intOff pending, .checking .oneTick, scheduled, []⟩ := .oneTick rfl
  exact .next (.next (.next h hlevel h₁) hcheck h₂) htick h₃

/-- One disk interrupt is found not due once, and then its handler is called. -/
theorem quiet_checks_oneDisk :
    (awaiting 10 .intOff [disk 0 15]).checkIfDue false = .ok (awaiting 10 .intOff [disk 0 15], none) ∧
      (awaiting 10 .intOff [disk 0 15]).Unchanged (awaiting 10 .intOff [disk 0 15]) ∧
      Reachable (· = start) Step Untied (atTwenty (disk 0 15) [] [disk 0 15]) ∧
      (atTwenty (disk 0 15) [] [disk 0 15]).CalledInOrder := by
  have hcheck : (awaiting 10 .intOff [disk 0 15]).checkIfDue false = .ok (awaiting 10 .intOff [disk 0 15], none) := rfl
  have hquiet : ¬ (awaiting 10 .intOff [disk 0 15]).Tied := by
    rintro ⟨-, x, hx, -⟩
    cases hx
  have hdue : ¬ (awaiting 20 .intOff [disk 0 15]).Tied := by
    rintro ⟨hlater, -⟩
    exact absurd hlater (by decide)
  have hschedule : Step start (.schedule 1 0 15 .diskInt) ⟨awaiting 0 .intOff [disk 0 15], .kernel, [disk 0 15], []⟩ :=
    .schedule trivial rfl
  have hcall : Step ⟨awaiting 20 .intOff [disk 0 15], .checking .oneTick, [disk 0 15], []⟩ .check
      (atTwenty (disk 0 15) [] [disk 0 15]) :=
    @Step.check ⟨awaiting 20 .intOff [disk 0 15], .checking .oneTick, [disk 0 15], []⟩ .oneTick (_, some _) rfl rfl
  have hreached : Reachable (· = start) Step Untied (atTwenty (disk 0 15) [] [disk 0 15]) := by
    refine .next (reaches_twenty (.next (.start rfl) ?_ hschedule) hcheck ?_ hquiet ?_) ?_ hcall
    · trivial
    · trivial
    · trivial
    · exact hdue
  obtain ⟨hunchanged, horder⟩ := quiet_checks (awaiting 10 .intOff [disk 0 15]) (awaiting 10 .intOff [disk 0 15])
    (atTwenty (disk 0 15) [] [disk 0 15])
  exact ⟨hcheck, (hunchanged hcheck).mpr hquiet, hreached, horder hreached⟩

/-- Two disk interrupts change places as they are found not due, and the second one is called first. -/
theorem quiet_check_swaps :
    ((awaiting 10 .intOff [disk 0 15, disk 1 15]).checkIfDue false =
        .ok (awaiting 10 .intOff [disk 1 15, disk 0 15], none) ∧
      ¬ (awaiting 10 .intOff [disk 0 15, disk 1 15]).Unchanged (awaiting 10 .intOff [disk 1 15, disk 0 15])) ∧
    (atTwenty (disk 1 15) [disk 0 15] [disk 0 15, disk 1 15]).Reached ∧
      ¬ (atTwenty (disk 1 15) [disk 0 15] [disk 0 15, disk 1 15]).CalledInOrder := by
  have hcheck : (awaiting 10 .intOff [disk 0 15, disk 1 15]).checkIfDue false =
      .ok (awaiting 10 .intOff [disk 1 15, disk 0 15], none) := rfl
  have hfirst : Step start (.schedule 1 0 15 .diskInt) ⟨awaiting 0 .intOff [disk 0 15], .kernel, [disk 0 15], []⟩ :=
    .schedule trivial rfl
  have hsecond : Step ⟨awaiting 0 .intOff [disk 0 15], .kernel, [disk 0 15], []⟩ (.schedule 1 0 15 .diskInt)
      ⟨awaiting 0 .intOff [disk 0 15, disk 1 15], .kernel, [disk 0 15, disk 1 15], []⟩ := .schedule trivial rfl
  have hcall : Step ⟨awaiting 20 .intOff [disk 1 15, disk 0 15], .checking .oneTick, [disk 0 15, disk 1 15], []⟩ .check
      (atTwenty (disk 1 15) [disk 0 15] [disk 0 15, disk 1 15]) :=
    @Step.check ⟨awaiting 20 .intOff [disk 1 15, disk 0 15], .checking .oneTick, [disk 0 15, disk 1 15], []⟩ .oneTick
      (_, some _) rfl rfl
  refine ⟨⟨hcheck, fun h => absurd h.waiting (by decide)⟩, ?_, fun h => absurd (h 15) (by decide)⟩
  refine .next (reaches_twenty (.next (.next (.start rfl) ?_ hfirst) ?_ hsecond) hcheck ?_ ?_ ?_) ?_ hcall
  · exact (by decide : 0 + 15 < 18446744073709551616)
  · exact (by decide : 0 + 15 < 18446744073709551616)
  · exact (by decide : 0 + 10 < 18446744073709551616)
  · trivial
  · exact (by decide : 10 + 10 < 18446744073709551616)
  · trivial

end Simulation

end Nachos
