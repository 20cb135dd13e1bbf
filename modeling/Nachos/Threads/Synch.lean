import Nachos.Machine.Basic
import Nachos.Library.Uniprocessor
import Mathlib.Algebra.GroupWithZero.Nat
import Mathlib.Data.List.Nodup

/-! # Semaphores, locks and condition variables (`threads/synch.cc`)

Each operation runs with interrupts off, up to its return or to a call of `Sleep`. A thread that was
put to sleep inside `P`, `Acquire` or `Wait` continues there once it has been woken, so one pass
through the waiting loop is a function of its own. The operations return the threads they make ready
(`wakes`) and whether the caller goes on or goes to sleep. -/
set_option autoImplicit false

namespace Nachos
open Execution

/-- The threads of a system of two are those of `Fin 2`. -/
instance neZeroTwo : NeZero 2 := ⟨by decide⟩

variable {Tid : Type}

/-! ## Semaphores -/

structure Semaphore (Tid : Type) where
  value : Int
  queue : List Tid

namespace Semaphore

/-- The loop of `P`: take the semaphore, or queue up and sleep. -/
def tryP (s : Semaphore Tid) (currentThread : Tid) : Semaphore Tid × Bool :=
  if s.value = 0 then ({ s with queue := s.queue ++ [currentThread] }, false)
  else ({ s with value := s.value - 1 }, true)

/-- `Semaphore::V`. -/
def v (s : Semaphore Tid) : Call (Semaphore Tid × List Tid) :=
  if s.value = intMax then .error .overflow
  else .ok (⟨s.value + 1, s.queue.drop 1⟩, s.queue.take 1)

end Semaphore

/-! ## Locks -/

structure Lock (Tid : Type) where
  available : Bool
  ownerThread : Option Tid
  queue : List Tid

namespace Lock

/-- `Lock::Lock`. -/
def new : Lock Tid := ⟨true, none, []⟩

/-- The loop of `Acquire`: take the lock, or queue up and sleep. -/
def tryAcquire (l : Lock Tid) (currentThread : Tid) : Lock Tid × Bool :=
  if ! l.available then ({ l with queue := l.queue ++ [currentThread] }, false)
  else ({ l with available := false, ownerThread := some currentThread }, true)

/-- `Lock::Acquire`, up to its return or to its first `Sleep`. -/
def acquire [DecidableEq Tid] (l : Lock Tid) (currentThread : Tid) : Call (Lock Tid × Bool) :=
  if l.ownerThread = some currentThread then .error .assertFailed else .ok (l.tryAcquire currentThread)

/-- `Lock::Release`. -/
def release [DecidableEq Tid] (l : Lock Tid) (currentThread : Tid) : Call (Lock Tid × List Tid) :=
  if ! l.available ∨ l.ownerThread = some currentThread then
    .ok (⟨true, none, l.queue.drop 1⟩, l.queue.take 1)
  else .error .assertFailed

/-- `Lock::isHeldByCurrentThread`. -/
def isHeldByCurrentThread [DecidableEq Tid] (l : Lock Tid) (currentThread : Tid) : Bool :=
  l.ownerThread = some currentThread

end Lock

/-! ## Condition variables -/

structure Condition (Tid : Type) where
  queue : List Tid

namespace Condition

/-- `Condition::Wait`, up to its `Sleep`; it goes on with `Acquire`. -/
def wait [DecidableEq Tid] (c : Condition Tid) (conditionLock : Lock Tid) (currentThread : Tid) :
    Call (Condition Tid × Lock Tid × List Tid) :=
  if conditionLock.isHeldByCurrentThread currentThread then do
    let (lock, wakes) ← conditionLock.release currentThread
    return (⟨c.queue ++ [currentThread]⟩, lock, wakes)
  else .error .assertFailed

/-- `Condition::Signal`. -/
def signal [DecidableEq Tid] (c : Condition Tid) (conditionLock : Lock Tid) (currentThread : Tid) :
    Call (Condition Tid × List Tid) :=
  if conditionLock.isHeldByCurrentThread currentThread then .ok (⟨c.queue.drop 1⟩, c.queue.take 1)
  else .error .assertFailed

/-- `Condition::Broadcast`: its loop makes the waiters ready in the order of the queue. -/
def broadcast [DecidableEq Tid] (c : Condition Tid) (conditionLock : Lock Tid) (currentThread : Tid) :
    Call (Condition Tid × List Tid) :=
  if conditionLock.isHeldByCurrentThread currentThread then .ok (⟨[]⟩, c.queue)
  else .error .assertFailed

end Condition

/-! ## Queues -/

theorem mem_drop_one {q : List Tid} (h : q.Nodup) (u : Tid) : u ∈ q.drop 1 ↔ u ∈ q ∧ u ∉ q.take 1 := by
  cases q with
  | nil => simp
  | cons t q =>
    have hnd := List.nodup_cons.mp h
    simp only [List.drop_succ_cons, List.drop_zero, List.take_succ_cons, List.take_zero, List.mem_cons,
      List.not_mem_nil, or_false]
    constructor
    · intro hu
      exact ⟨Or.inr hu, fun he => hnd.1 (he ▸ hu)⟩
    · rintro ⟨he | hu, hne⟩
      · exact absurd he hne
      · exact hu

theorem nodup_snoc {q : List Tid} (h : q.Nodup) {t : Tid} (ht : t ∉ q) : (q ++ [t]).Nodup := by
  refine List.nodup_append.mpr ⟨h, List.nodup_singleton t, ?_⟩
  rintro a ha b hb rfl
  exact ht (List.mem_singleton.mp hb ▸ ha)

/-! ## Queues among clients with control points -/

section Waits
variable {Pc : Type} {waiting : Pc → Bool} {pc : Tid → Pc} {blocked blocked' : Tid → Bool} {q : List Tid} {t : Tid}

/-- The queue holds once each thread that sleeps at a control point where it waits. -/
structure Waits (q : List Tid) (waiting : Pc → Bool) (pc : Tid → Pc) (blocked : Tid → Bool) : Prop where
  nodup : q.Nodup
  mem_iff : ∀ t, t ∈ q ↔ waiting (pc t) = true ∧ blocked t = true

variable [DecidableEq Tid]

/-- A thread that is awake goes on to a point where it does not wait, or stays awake there. -/
theorem Waits.move (h : Waits q waiting pc blocked) (hb : blocked t = false) {next : Pc}
    (hn : waiting next = false ∨ blocked' t = false) (hb' : ∀ u, u ≠ t → blocked' u = blocked u) :
    Waits q waiting (Function.update pc t next) blocked' where
  nodup := h.nodup
  mem_iff u := by
    by_cases hu : u = t
    · subst hu
      rcases hn with hn | hn <;> simp [h.mem_iff, hb, hn]
    · rw [Function.update_of_ne hu, hb' u hu, h.mem_iff]

theorem Waits.sleep (h : Waits q waiting pc blocked) (hb : blocked t = false) {next : Pc} (hn : waiting next = true) :
    Waits (q ++ [t]) waiting (Function.update pc t next) (Function.update blocked t true) where
  nodup := nodup_snoc h.nodup (by simp [h.mem_iff, hb])
  mem_iff u := by
    rw [List.mem_append, List.mem_singleton, h.mem_iff]
    by_cases hu : u = t <;> simp [hu, hn]

omit [DecidableEq Tid] in
theorem Waits.first (h : Waits q waiting pc blocked) {u : Tid} (hu : u ∈ q.take 1) :
    waiting (pc u) = true ∧ blocked u = true :=
  (h.mem_iff u).mp (List.mem_of_mem_take hu)

/-- The first of the queue is woken. -/
theorem Waits.wake (h : Waits q waiting pc blocked) :
    Waits (q.drop 1) waiting pc (fun u => if u ∈ q.take 1 then false else blocked u) where
  nodup := h.nodup.sublist (List.drop_sublist 1 _)
  mem_iff u := by
    rw [mem_drop_one h.nodup, h.mem_iff]
    by_cases hm : u ∈ q.take 1 <;> simp [hm]

/-- Threads that wait elsewhere are woken. -/
theorem Waits.others (h : Waits q waiting pc blocked) {wakes : List Tid} (hw : ∀ u ∈ wakes, waiting (pc u) = false) :
    Waits q waiting pc (fun u => if u ∈ wakes then false else blocked u) where
  nodup := h.nodup
  mem_iff u := by
    rw [h.mem_iff]
    by_cases hm : u ∈ wakes
    · simp [hm, hw u hm]
    · simp [hm]

end Waits

/-! ## The lock between its clients -/

namespace Lock

/-- The lock's fields say who holds it and who waits in its queue. -/
structure Ok (l : Lock Tid) (holds waits : Tid → Prop) : Prop where
  owner : ∀ t, l.ownerThread = some t ↔ holds t
  available : l.available = true ↔ l.ownerThread = none
  queue : ∀ t, t ∈ l.queue ↔ waits t
  nodup : l.queue.Nodup

variable {l : Lock Tid} {holds waits : Tid → Prop}

theorem new_ok : (new : Lock Tid).Ok (fun _ => False) (fun _ => False) := by
  refine ⟨by simp [new], by simp [new], by simp [new], by simp [new]⟩

theorem Ok.congr (h : l.Ok holds waits) {holds' waits' : Tid → Prop} (hh : ∀ t, holds' t ↔ holds t)
    (hw : ∀ t, waits' t ↔ waits t) : l.Ok holds' waits' :=
  ⟨fun t => (h.owner t).trans (hh t).symm, h.available, fun t => (h.queue t).trans (hw t).symm, h.nodup⟩

theorem Ok.holds_unique (h : l.Ok holds waits) {t u : Tid} (ht : holds t) (hu : holds u) : t = u := by
  have h1 := (h.owner t).mpr ht
  rw [(h.owner u).mpr hu] at h1
  cases h1
  rfl

theorem Ok.not_available (h : l.Ok holds waits) {t : Tid} (ht : holds t) : l.available = false := by
  rw [Bool.eq_false_iff, Ne, h.available, (h.owner t).mpr ht]
  simp

/-- One pass through the loop of `Acquire`: the lock was free and is the caller's now, or the caller
waits in the queue. -/
theorem Ok.tryAcquire (h : l.Ok holds waits) {t : Tid} (ht : ¬ waits t) :
    (∃ l', l.tryAcquire t = (l', true) ∧ l.available = true ∧ l'.Ok (fun u => u = t) waits ∧
      l'.available = false) ∨
    ∃ l', l.tryAcquire t = (l', false) ∧ l'.Ok holds (fun u => waits u ∨ u = t) ∧ l'.available = false := by
  cases ha : l.available with
  | true =>
    refine Or.inl ⟨⟨false, some t, l.queue⟩, by simp [Lock.tryAcquire, ha], rfl,
      ⟨fun u => ?_, by simp, h.queue, h.nodup⟩, rfl⟩
    simp only [Option.some.injEq]
    exact eq_comm
  | false =>
    refine Or.inr ⟨⟨false, l.ownerThread, l.queue ++ [t]⟩, by simp [Lock.tryAcquire, ha],
      ⟨h.owner, by rw [← h.available, ha], fun u => ?_, nodup_snoc h.nodup (by rwa [h.queue])⟩, rfl⟩
    simp only [List.mem_append, List.mem_singleton, h.queue]

/-- The holder's `Release` wakes the first waiter and leaves the lock free. -/
theorem Ok.release [DecidableEq Tid] (h : l.Ok holds waits) {t : Tid} (ht : holds t) :
    ∃ l' wakes, l.release t = .ok (l', wakes) ∧ wakes.Nodup ∧ (∀ u ∈ wakes, waits u) ∧
      l'.Ok (fun _ => False) (fun u => waits u ∧ u ∉ wakes) ∧ (l'.queue ≠ [] → wakes ≠ []) := by
  refine ⟨⟨true, none, l.queue.drop 1⟩, l.queue.take 1, ?_, h.nodup.sublist (List.take_sublist 1 _), ?_,
    ⟨by simp, by simp, fun u => ?_, h.nodup.sublist (List.drop_sublist 1 _)⟩, ?_⟩
  · unfold Lock.release
    rw [if_pos (Or.inr ((h.owner t).mpr ht))]
  · intro u hu
    exact (h.queue u).mp (List.mem_of_mem_take hu)
  · rw [mem_drop_one h.nodup, h.queue]
  · cases l.queue <;> simp

/-! ## Clients with control points -/

variable {Pc : Type} {inside inAcquire : Pc → Bool} {pc : Tid → Pc} {blocked : Tid → Bool} {t : Tid}

/-- The lock among clients whose control points say whether they hold it or are in the loop of `Acquire`. -/
def Serves (l : Lock Tid) (inside inAcquire : Pc → Bool) (pc : Tid → Pc) (blocked : Tid → Bool) : Prop :=
  l.Ok (fun t => inside (pc t) = true) (fun t => inAcquire (pc t) = true ∧ blocked t = true)

theorem Serves.acquire [DecidableEq Tid] (h : l.Serves inside inAcquire pc blocked) (ht : inside (pc t) = false) :
    l.acquire t = .ok (l.tryAcquire t) := by
  have hno : l.ownerThread ≠ some t := by
    rw [Ne, h.owner, ht]
    simp
  unfold Lock.acquire
  rw [if_neg hno]

/-- A pass through the loop of `Acquire`: nobody was inside and the caller goes on at `next`, or it
sleeps at `waiting`. -/
theorem Serves.tryAcquire [DecidableEq Tid] (h : l.Serves inside inAcquire pc blocked) (hb : blocked t = false)
    (ht : inside (pc t) = false) (next waiting : Pc) (hn : inside next = true) (hn' : inAcquire next = false)
    (hw : inAcquire waiting = true) (hw' : inside waiting = false) :
    (∃ l', l.tryAcquire t = (l', true) ∧ (∀ u, inside (pc u) = false) ∧ l'.available = false ∧
      l'.Serves inside inAcquire (Function.update pc t next) blocked) ∨
    ∃ l', l.tryAcquire t = (l', false) ∧ l'.available = false ∧
      l'.Serves inside inAcquire (Function.update pc t waiting) (Function.update blocked t true) := by
  rcases Ok.tryAcquire h (t := t) (by simp [hb]) with ⟨l', hl, ha, hok, hna⟩ | ⟨l', hl, hok, hna⟩
  · have hnone : ∀ u, inside (pc u) = false := by
      intro u
      rw [Bool.eq_false_iff]
      intro hu
      rw [h.not_available hu] at ha
      cases ha
    refine Or.inl ⟨l', hl, hnone, hna, hok.congr (fun u => ?_) (fun u => ?_)⟩
    · by_cases hu : u = t <;> simp [hu, hn, hnone]
    · by_cases hu : u = t <;> simp [hu, hn', hb]
  · refine Or.inr ⟨l', hl, hna, hok.congr (fun u => ?_) (fun u => ?_)⟩
    · by_cases hu : u = t <;> simp [hu, hw', ht]
    · by_cases hu : u = t <;> simp [hu, hw]

/-- The thread inside goes on to another point inside. -/
theorem Serves.stays [DecidableEq Tid] (h : l.Serves inside inAcquire pc blocked) (ht : inside (pc t) = true)
    (ht' : inAcquire (pc t) = false) {next : Pc} (hn : inside next = true) (hn' : inAcquire next = false)
    {blocked' : Tid → Bool} (hb : ∀ u, u ≠ t → blocked' u = blocked u) :
    l.Serves inside inAcquire (Function.update pc t next) blocked' := by
  refine h.congr (fun u => ?_) (fun u => ?_)
  · by_cases hu : u = t <;> simp [hu, hn, ht]
  · by_cases hu : u = t
    · simp [hu, hn', ht']
    · simp [hu, hb u hu]

/-- Threads that do not wait for the lock are woken. -/
theorem Serves.others [DecidableEq Tid] (h : l.Serves inside inAcquire pc blocked) {wakes : List Tid}
    (hw : ∀ u ∈ wakes, inAcquire (pc u) = false) :
    l.Serves inside inAcquire pc (fun u => if u ∈ wakes then false else blocked u) := by
  refine h.congr (fun _ => Iff.rfl) (fun u => ?_)
  by_cases hm : u ∈ wakes
  · simp [hm, hw u hm]
  · simp [hm]

/-- A `Release` by the thread inside, which goes on at `next`, awake or asleep. -/
theorem Serves.release [DecidableEq Tid] (h : l.Serves inside inAcquire pc blocked) (ht : inside (pc t) = true)
    (ht' : inAcquire (pc t) = false) :
    ∃ l' wakes, l.release t = .ok (l', wakes) ∧ wakes.Nodup ∧
      (∀ u ∈ wakes, inAcquire (pc u) = true ∧ blocked u = true) ∧ (l'.queue ≠ [] → wakes ≠ []) ∧
      ∀ (next : Pc) (blocked' : Tid → Bool), inside next = false → inAcquire next = false →
        (∀ u, u ≠ t → blocked' u = if u ∈ wakes then false else blocked u) →
        l'.Serves inside inAcquire (Function.update pc t next) blocked' := by
  obtain ⟨l', wakes, hrun, hnd, hw, hok, hfirst⟩ := Ok.release h ht
  refine ⟨l', wakes, hrun, hnd, hw, hfirst, ?_⟩
  intro next blocked' hn hn' hb'
  refine hok.congr (fun u => ?_) (fun u => ?_)
  · by_cases hu : u = t
    · simp [hu, hn]
    · have hno : inside (pc u) = false := by
        rw [Bool.eq_false_iff]
        exact fun hin => hu (h.holds_unique hin ht)
      simp [hu, hno]
  · by_cases hu : u = t
    · simp [hu, hn', ht']
    · rw [Function.update_of_ne hu, hb' u hu]
      by_cases hm : u ∈ wakes <;> simp [hm]

end Lock

/-! ## Three clients -/

open Uniprocessor

/-- Three threads at one control point, the first of them running. -/
def threeThreads {Pc Obj : Type} (pc : Pc) (obj : Obj) : State (Fin 3) Pc Obj where
  current := 0
  readyList := [1, 2]
  status t := if t = 0 then .running else .ready
  pc _ := pc
  obj := obj

theorem threeThreads_placed {Pc Obj : Type} (pc : Pc) (obj : Obj) : Placed (threeThreads pc obj) where
  nodup := by simp [threeThreads]
  mem_iff := show ∀ t : Fin 3, t ∈ [1, 2] ↔ (if t = 0 then Status.running else .ready) = .ready by decide
  running := show ∀ t : Fin 3, (if t = 0 then Status.running else .ready) = .running → t = 0 by decide

end Nachos
