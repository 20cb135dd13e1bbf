import Nachos.Threads.Synch

/-! # Where the threads are (`threads/thread.cc`, `threads/scheduler.cc`, `threads/synch.cc`)

Any number of threads use any number of semaphores, locks and condition variables, and interrupt
handlers call `V`. `Sleep` is called by `P`, `Acquire`, `Wait` and `Finish`. The control points of a
thread are those at which it can lose the processor. A thread that has not been forked is not on the
ready list and has no processor, so for the scheduler it counts as blocked. -/
set_option autoImplicit false

namespace Nachos
open Execution Uniprocessor

variable {Tid S L C : Type}

/-- The queues a thread can sleep on. -/
inductive WaitQueue (S L C : Type) where
  | semaphore (s : S)
  | lock (l : L)
  | condition (c : C)
  deriving DecidableEq

inductive ThreadPc (S L C : Type) where
  | outside
  | inP (s : S)
  | inAcquire (l : L)
  | inWait (c : C) (l : L)
  | finished
  deriving DecidableEq

inductive ThreadAct (Tid S L C : Type) where
  | fork (thread : Tid)
  | finish
  | p (s : S)
  | v (s : S)
  | acquire (l : L)
  | release (l : L)
  | wait (c : C) (l : L)
  | signal (c : C) (l : L)
  | broadcast (c : C) (l : L)
  | resume

/-- The synchronisation objects, and which threads have been forked. -/
structure Kernel (Tid S L C : Type) where
  forked : Tid → Bool
  semaphore : S → Semaphore Tid
  lock : L → Lock Tid
  condition : C → Condition Tid

abbrev KernelEffect (Tid S L C : Type) := Effect Tid (ThreadPc S L C) (Kernel Tid S L C)

abbrev KernelState (Tid S L C : Type) := State Tid (ThreadPc S L C) (Kernel Tid S L C)

namespace Kernel

variable [DecidableEq Tid] [DecidableEq S] [DecidableEq L] [DecidableEq C]

/-- What a thread does next after `P` or `Acquire` has tested: return, or sleep in the loop. -/
def tested (o : Kernel Tid S L C) (passed : Bool) (waiting : ThreadPc S L C) :
    KernelEffect Tid S L C :=
  if passed then { obj := o, pc := .outside } else { obj := o, pc := waiting, sleeps := true }

def setLock (o : Kernel Tid S L C) (l : L) (lock : Lock Tid) : Kernel Tid S L C :=
  { o with lock := Function.update o.lock l lock }

def setCondition (o : Kernel Tid S L C) (c : C) (condition : Condition Tid) : Kernel Tid S L C :=
  { o with condition := Function.update o.condition c condition }

def setSemaphore (o : Kernel Tid S L C) (s : S) (semaphore : Semaphore Tid) : Kernel Tid S L C :=
  { o with semaphore := Function.update o.semaphore s semaphore }

/-- `Thread::Fork`. -/
def fork (o : Kernel Tid S L C) (thread : Tid) : KernelEffect Tid S L C :=
  { obj := { o with forked := Function.update o.forked thread true }, pc := .outside, wakes := [thread] }

/-- One pass through the loop of `P`. -/
def tryP (o : Kernel Tid S L C) (s : S) (t : Tid) : KernelEffect Tid S L C :=
  (o.setSemaphore s ((o.semaphore s).tryP t).1).tested ((o.semaphore s).tryP t).2 (.inP s)

def v (o : Kernel Tid S L C) (s : S) : Call (Kernel Tid S L C × List Tid) := do
  let (semaphore, wakes) ← (o.semaphore s).v
  return (o.setSemaphore s semaphore, wakes)

/-- One pass through the loop of `Acquire`. -/
def tryAcquire (o : Kernel Tid S L C) (l : L) (t : Tid) : KernelEffect Tid S L C :=
  (o.setLock l ((o.lock l).tryAcquire t).1).tested ((o.lock l).tryAcquire t).2 (.inAcquire l)

def acquire (o : Kernel Tid S L C) (l : L) (t : Tid) :
    Call (KernelEffect Tid S L C) := do
  let (lock, passed) ← (o.lock l).acquire t
  return (o.setLock l lock).tested passed (.inAcquire l)

def release (o : Kernel Tid S L C) (l : L) (t : Tid) :
    Call (KernelEffect Tid S L C) := do
  let (lock, wakes) ← (o.lock l).release t
  return { obj := o.setLock l lock, pc := .outside, wakes := wakes }

def wait (o : Kernel Tid S L C) (c : C) (l : L) (t : Tid) :
    Call (KernelEffect Tid S L C) := do
  let (condition, lock, wakes) ← (o.condition c).wait (o.lock l) t
  return { obj := (o.setLock l lock).setCondition c condition, pc := .inWait c l, wakes := wakes, sleeps := true }

def signal (o : Kernel Tid S L C) (c : C) (l : L) (t : Tid) :
    Call (KernelEffect Tid S L C) := do
  let (condition, wakes) ← (o.condition c).signal (o.lock l) t
  return { obj := o.setCondition c condition, pc := .outside, wakes := wakes }

def broadcast (o : Kernel Tid S L C) (c : C) (l : L) (t : Tid) :
    Call (KernelEffect Tid S L C) := do
  let (condition, wakes) ← (o.condition c).broadcast (o.lock l) t
  return { obj := o.setCondition c condition, pc := .outside, wakes := wakes }

end Kernel

variable [DecidableEq Tid] [DecidableEq S] [DecidableEq L] [DecidableEq C]

def threadProgram (Tid S L C : Type) [DecidableEq Tid] [DecidableEq S] [DecidableEq L] [DecidableEq C] :
    Program Tid (ThreadPc S L C) (Kernel Tid S L C) (ThreadAct Tid S L C) S Trap where
  enabled
    | .resume, .inP _ | .resume, .inAcquire _ | .resume, .inWait _ _ => True
    | .resume, _ => False
    | _, .outside => True
    | _, _ => False
  sect
    | .fork thread, _, _, o => .ok (o.fork thread)
    | .finish, _, _, o => .ok { obj := o, pc := .finished, sleeps := true }
    | .p s, t, _, o => .ok (o.tryP s t)
    | .v s, _, _, o => do
      let (o, wakes) ← o.v s
      return { obj := o, pc := .outside, wakes := wakes }
    | .acquire l, t, _, o => o.acquire l t
    | .release l, t, _, o => o.release l t
    | .wait c l, t, _, o => o.wait c l t
    | .signal c l, t, _, o => o.signal c l t
    | .broadcast c l, t, _, o => o.broadcast c l t
    | .resume, t, .inP s, o => .ok (o.tryP s t)
    | .resume, t, .inAcquire l, o => .ok (o.tryAcquire l t)
    -- `Wait` goes on with `Acquire`
    | .resume, t, .inWait _ l, o => o.acquire l t
    | .resume, _, pc, o => .ok { obj := o, pc := pc }
  handler s o := o.v s

/-- The main thread runs, nothing else has been forked, and nobody waits. -/
structure ThreadStart (s : KernelState Tid S L C) : Prop where
  forked : ∀ t, s.obj.forked t = true ↔ t = s.current
  status : ∀ t, s.status t = if t = s.current then .running else .blocked
  ready : s.readyList = []
  pc : ∀ t, s.pc t = .outside
  semaphores : ∀ x, (s.obj.semaphore x).queue = []
  locks : ∀ l, s.obj.lock l = Lock.new
  conditions : ∀ c, (s.obj.condition c).queue = []

/-- A thread is forked once. -/
def forksOnce : ThreadAct Tid S L C → Tid → ThreadPc S L C → Kernel Tid S L C → Prop
  | .fork thread, _, _, o => o.forked thread = false
  | _, _, _, _ => True

/-! ## The invariant -/

/-- The threads on a queue. -/
def Kernel.queue (o : Kernel Tid S L C) : WaitQueue S L C → List Tid
  | .semaphore s => (o.semaphore s).queue
  | .lock l => (o.lock l).queue
  | .condition c => (o.condition c).queue

/-- The queue a thread sleeps on at a control point. -/
def ThreadPc.waitsOn : ThreadPc S L C → Option (WaitQueue S L C)
  | inP s => some (.semaphore s)
  | inAcquire l => some (.lock l)
  | inWait c _ => some (.condition c)
  | _ => none

structure KernelInv (pc : Tid → ThreadPc S L C) (blocked : Tid → Bool) (o : Kernel Tid S L C) : Prop where
  queue : ∀ q t, t ∈ o.queue q ↔ (pc t).waitsOn = some q ∧ blocked t = true
  nodup : ∀ q, (o.queue q).Nodup
  unforked : ∀ t, o.forked t = false → pc t = .outside ∧ blocked t = true
  awake : ∀ t, o.forked t = true → pc t = .outside → blocked t = false
  finished : ∀ t, pc t = .finished → blocked t = true

variable {pc : Tid → ThreadPc S L C} {blocked : Tid → Bool} {o o' : Kernel Tid S L C} {t : Tid}

section Queues
omit [DecidableEq Tid]

@[simp] theorem setSemaphore_queue (o : Kernel Tid S L C) (s : S) (x : Semaphore Tid) :
    (o.setSemaphore s x).queue = Function.update o.queue (.semaphore s) x.queue := by
  funext q
  cases q with
  | semaphore s' => by_cases h : s' = s <;> simp [Kernel.setSemaphore, Kernel.queue, h]
  | lock l => rfl
  | condition c => rfl

@[simp] theorem setLock_queue (o : Kernel Tid S L C) (l : L) (x : Lock Tid) :
    (o.setLock l x).queue = Function.update o.queue (.lock l) x.queue := by
  funext q
  cases q with
  | lock l' => by_cases h : l' = l <;> simp [Kernel.setLock, Kernel.queue, h]
  | semaphore s => rfl
  | condition c => rfl

@[simp] theorem setCondition_queue (o : Kernel Tid S L C) (c : C) (x : Condition Tid) :
    (o.setCondition c x).queue = Function.update o.queue (.condition c) x.queue := by
  funext q
  cases q with
  | condition c' => by_cases h : c' = c <;> simp [Kernel.setCondition, Kernel.queue, h]
  | semaphore s => rfl
  | lock l => rfl

end Queues

omit [DecidableEq Tid] in
theorem Kernel.v_spec {s : S} {wakes : List Tid} (hv : o.v s = .ok (o', wakes)) :
    ∃ rest, o.queue (.semaphore s) = wakes ++ rest ∧ o'.forked = o.forked ∧
      o'.queue = Function.update o.queue (.semaphore s) rest := by
  unfold Kernel.v Semaphore.v at hv
  split at hv
  · cases hv
  · cases hv
    exact ⟨_, (List.take_append_drop 1 _).symm, rfl, setSemaphore_queue _ _ _⟩

theorem Kernel.release_spec {l : Lock Tid} {l' : Lock Tid} {wakes : List Tid} (hr : l.release t = .ok (l', wakes)) :
    l.queue = wakes ++ l'.queue := by
  unfold Lock.release at hr
  split at hr
  · cases hr
    exact (List.take_append_drop 1 _).symm
  · cases hr

/-- What has to be shown of a section of thread `t`. -/
def SectionKeeps (pc : Tid → ThreadPc S L C) (blocked : Tid → Bool) (t : Tid)
    (e : KernelEffect Tid S L C) : Prop :=
  e.wakes.Nodup ∧ (∀ u ∈ e.wakes, blocked u = true) ∧
    KernelInv (Function.update pc t e.pc) (blockedAfter blocked t e) e.obj

section Invariant
variable (h : KernelInv pc blocked o)
include h

omit [DecidableEq Tid] [DecidableEq S] [DecidableEq L] [DecidableEq C] in
theorem KernelInv.forked {q : WaitQueue S L C} {u : Tid} (hu : u ∈ o.queue q) : o.forked u = true := by
  rw [← Bool.not_eq_false]
  intro hun
  have hwaits := ((h.queue q u).mp hu).1
  rw [(h.unforked u hun).1] at hwaits
  cases hwaits

omit [DecidableEq S] [DecidableEq L] [DecidableEq C] in
/-- Sleepers and new threads are made ready. -/
theorem KernelInv.ready {wakes : List Tid} (hwoken : ∀ u ∈ wakes, (∃ q, u ∈ o.queue q) ∨ o.forked u = false)
    (hforked : ∀ u, o'.forked u = true ↔ o.forked u = true ∨ u ∈ wakes) (hnodup : ∀ q, (o'.queue q).Nodup)
    (hqueue : ∀ q u, u ∈ o'.queue q ↔ u ∈ o.queue q ∧ u ∉ wakes) :
    (∀ u ∈ wakes, blocked u = true) ∧ KernelInv pc (fun u => if u ∈ wakes then false else blocked u) o' := by
  refine ⟨fun u hu => ?_, fun q u => ?_, hnodup, fun u hu => ?_, fun u hu hpc => ?_, fun u hpc => ?_⟩
  · rcases hwoken u hu with ⟨q, hq⟩ | hun
    · exact ((h.queue q u).mp hq).2
    · exact (h.unforked u hun).2
  · rw [hqueue, h.queue]
    by_cases hm : u ∈ wakes <;> simp [hm]
  · have hnot : o.forked u = false ∧ u ∉ wakes := by
      have hn := hforked u
      rw [hu] at hn
      simpa using hn
    rw [if_neg hnot.2]
    exact h.unforked u hnot.1
  · split
    · rfl
    · rename_i hm
      exact h.awake u (((hforked u).mp hu).resolve_right hm) hpc
  · have hm : u ∉ wakes := by
      intro hm
      rcases hwoken u hm with ⟨q, hq⟩ | hun
      · have hwaits := ((h.queue q u).mp hq).1
        rw [hpc] at hwaits
        cases hwaits
      · rw [(h.unforked u hun).1] at hpc
        cases hpc
    rw [if_neg hm]
    exact h.finished u hpc

/-- The first threads of a queue are made ready. -/
theorem KernelInv.wake {q : WaitQueue S L C} {wakes rest : List Tid} (hq : o.queue q = wakes ++ rest)
    (hforked : o'.forked = o.forked) (hqueue : o'.queue = Function.update o.queue q rest) :
    wakes.Nodup ∧ (∀ u ∈ wakes, blocked u = true) ∧
      KernelInv pc (fun u => if u ∈ wakes then false else blocked u) o' := by
  have hnd := h.nodup q
  rw [hq, List.nodup_append] at hnd
  have hmem : ∀ u ∈ wakes, u ∈ o.queue q := fun u hu => by
    rw [hq]
    exact List.mem_append_left _ hu
  refine ⟨hnd.1, h.ready (fun u hu => Or.inl ⟨q, hmem u hu⟩) (fun u => ?_) (fun q' => ?_) (fun q' u => ?_)⟩
  · rw [hforked]
    exact ⟨Or.inl, fun hu => hu.elim id fun hm => h.forked (hmem u hm)⟩
  · rw [hqueue]
    by_cases hqq : q' = q
    · rw [hqq, Function.update_self]
      exact hnd.2.1
    · rw [Function.update_of_ne hqq]
      exact h.nodup q'
  · rw [hqueue]
    by_cases hqq : q' = q
    · have hdisj : u ∈ rest → u ∉ wakes := fun hr hw => hnd.2.2 u hw u hr rfl
      rw [hqq, Function.update_self, hq, List.mem_append]
      tauto
    · have hother : u ∈ o.queue q' → u ∉ wakes := by
        intro hu hw
        have hwaits := ((h.queue q' u).mp hu).1
        rw [((h.queue q u).mp (hmem u hw)).1] at hwaits
        exact hqq (Option.some.inj hwaits).symm
      rw [Function.update_of_ne hqq]
      tauto

/-- The running thread goes to another control point; it sleeps exactly where it cannot go on by itself. -/
theorem KernelInv.settle (hb : blocked t = false) {p : ThreadPc S L C} {sleeps : Bool}
    (hsleeps : sleeps = true ↔ p ≠ .outside) (hforked : o'.forked = o.forked) (hnodup : ∀ q, (o'.queue q).Nodup)
    (hqueue : ∀ q u, u ∈ o'.queue q ↔ u ∈ o.queue q ∨ (u = t ∧ p.waitsOn = some q)) :
    KernelInv (Function.update pc t p) (Function.update blocked t sleeps) o' := by
  have htq : ∀ q, t ∉ o.queue q := by
    intro q
    rw [h.queue, hb]
    simp
  have hwaits : ∀ q, p.waitsOn = some q → sleeps = true := by
    intro q hq
    rw [hsleeps]
    rintro rfl
    cases hq
  refine ⟨fun q u => ?_, hnodup, fun u hu => ?_, fun u hu hpc => ?_, fun u hpc => ?_⟩
  · rw [hqueue]
    by_cases hu : u = t
    · subst hu
      rw [Function.update_self, Function.update_self]
      have := hwaits q
      have := htq q
      tauto
    · rw [Function.update_of_ne hu, Function.update_of_ne hu, ← h.queue]
      tauto
  · rw [hforked] at hu
    have hut : u ≠ t := by
      rintro rfl
      rw [(h.unforked u hu).2] at hb
      cases hb
    rw [Function.update_of_ne hut, Function.update_of_ne hut]
    exact h.unforked u hu
  · rw [hforked] at hu
    by_cases hut : u = t
    · subst hut
      rw [Function.update_self] at hpc ⊢
      rw [Bool.eq_false_iff, Ne, hsleeps, not_not]
      exact hpc
    · rw [Function.update_of_ne hut] at hpc ⊢
      exact h.awake u hu hpc
  · by_cases hut : u = t
    · subst hut
      rw [Function.update_self] at hpc ⊢
      rw [hsleeps, hpc]
      simp
    · rw [Function.update_of_ne hut] at hpc ⊢
      exact h.finished u hpc

/-- The running thread goes to the end of a queue and sleeps. -/
theorem KernelInv.park (hb : blocked t = false) {p : ThreadPc S L C} {q : WaitQueue S L C} (hp : p.waitsOn = some q)
    (hforked : o'.forked = o.forked) (hqueue : o'.queue = Function.update o.queue q (o.queue q ++ [t])) :
    KernelInv (Function.update pc t p) (Function.update blocked t true) o' := by
  have hne : p ≠ .outside := by
    rintro rfl
    cases hp
  refine h.settle hb (by simp [hne]) hforked (fun q' => ?_) (fun q' u => ?_)
  · rw [hqueue]
    by_cases hqq : q' = q
    · rw [hqq, Function.update_self]
      exact nodup_snoc (h.nodup q) (by rw [h.queue, hb]; simp)
    · rw [Function.update_of_ne hqq]
      exact h.nodup q'
  · rw [hqueue, hp]
    by_cases hqq : q' = q
    · rw [hqq, Function.update_self]
      simp
    · rw [Function.update_of_ne hqq]
      simp [Ne.symm hqq]

/-- The running thread goes on, or is where it was, outside the synchronisation routines. -/
theorem KernelInv.pass (hb : blocked t = false) (hforked : o'.forked = o.forked)
    (hqueue : o'.queue = o.queue) : KernelInv (Function.update pc t .outside) blocked o' := by
  have hgo : KernelInv (Function.update pc t .outside) (Function.update blocked t false) o' :=
    h.settle hb (by simp) hforked (by rw [hqueue]; exact h.nodup) (by rw [hqueue]; simp [ThreadPc.waitsOn])
  rwa [← hb, Function.update_eq_self] at hgo

/-! ## The sections -/

theorem KernelInv.tested (hb : blocked t = false) {p : ThreadPc S L C}
    {q : WaitQueue S L C} (hp : p.waitsOn = some q) {passed : Bool} (hforked : o'.forked = o.forked)
    (hqueue : o'.queue = if passed = true then o.queue else Function.update o.queue q (o.queue q ++ [t])) :
    SectionKeeps pc blocked t (o'.tested passed p) := by
  cases passed with
  | true =>
    refine ⟨List.nodup_nil, by simp [Kernel.tested], ?_⟩
    rw [blockedAfter_awake _ _ rfl rfl]
    exact h.pass hb hforked (by simpa [Kernel.tested] using hqueue)
  | false =>
    refine ⟨List.nodup_nil, by simp [Kernel.tested], ?_⟩
    rw [blockedAfter_asleep _ _ rfl rfl]
    exact h.park hb hp hforked (by simpa [Kernel.tested] using hqueue)

theorem KernelInv.tryP (hb : blocked t = false) (s : S) : SectionKeeps pc blocked t (o.tryP s t) := by
  refine h.tested hb rfl rfl ?_
  rw [setSemaphore_queue]
  unfold Semaphore.tryP
  split
  · simp [Kernel.queue]
  · simp only [if_true]
    exact Function.update_eq_self _ _

theorem KernelInv.lock_tested (hb : blocked t = false) (l : L) : SectionKeeps pc blocked t (o.tryAcquire l t) := by
  refine h.tested hb rfl rfl ?_
  rw [setLock_queue]
  unfold Lock.tryAcquire
  split
  · simp [Kernel.queue]
  · simp only [if_true]
    exact Function.update_eq_self _ _

theorem KernelInv.acquire (hb : blocked t = false) {l : L}
    {e : KernelEffect Tid S L C} (he : o.acquire l t = .ok e) : SectionKeeps pc blocked t e := by
  unfold Kernel.acquire Lock.acquire at he
  split at he
  · cases he
  · cases he
    exact h.lock_tested hb l

/-- A section of a thread outside the synchronisation routines that only wakes the first threads of a queue. -/
theorem KernelInv.wakes (hpc : pc t = .outside)
    {q : WaitQueue S L C} {wakes rest : List Tid} (hq : o.queue q = wakes ++ rest) (hforked : o'.forked = o.forked)
    (hqueue : o'.queue = Function.update o.queue q rest) :
    SectionKeeps pc blocked t { obj := o', pc := .outside, wakes := wakes } := by
  obtain ⟨hnd, hw, hinv⟩ := h.wake hq hforked hqueue
  refine ⟨hnd, hw, ?_⟩
  rw [blockedAfter_wakes _ _ rfl, ← hpc, Function.update_eq_self]
  exact hinv

theorem KernelInv.release (hpc : pc t = .outside) {l : L}
    {e : KernelEffect Tid S L C} (he : o.release l t = .ok e) : SectionKeeps pc blocked t e := by
  simp only [Kernel.release, bind_eq_ok, pure_eq_ok, Except.ok.injEq] at he
  obtain ⟨⟨l', wakes⟩, hr, rfl⟩ := he
  exact h.wakes hpc (q := .lock l) (Kernel.release_spec hr) rfl (setLock_queue _ _ _)

theorem KernelInv.signal (hpc : pc t = .outside) {c : C} {l : L}
    {e : KernelEffect Tid S L C} (he : o.signal c l t = .ok e) : SectionKeeps pc blocked t e := by
  unfold Kernel.signal Condition.signal at he
  split at he
  · cases he
    exact h.wakes hpc (q := .condition c) (List.take_append_drop 1 _).symm rfl (setCondition_queue _ _ _)
  · cases he

theorem KernelInv.broadcast (hpc : pc t = .outside) {c : C} {l : L}
    {e : KernelEffect Tid S L C} (he : o.broadcast c l t = .ok e) : SectionKeeps pc blocked t e := by
  unfold Kernel.broadcast Condition.broadcast at he
  split at he
  · cases he
    exact h.wakes hpc (q := .condition c) (List.append_nil _).symm rfl (setCondition_queue _ _ _)
  · cases he

/-- `Wait` makes a waiter of the lock ready and then sleeps on the condition. -/
theorem KernelInv.wait (hb : blocked t = false) {c : C} {l : L}
    {e : KernelEffect Tid S L C} (he : o.wait c l t = .ok e) : SectionKeeps pc blocked t e := by
  simp only [Kernel.wait, bind_eq_ok, pure_eq_ok, Except.ok.injEq] at he
  obtain ⟨⟨c', l', wakes⟩, hwait, rfl⟩ := he
  unfold Condition.wait at hwait
  split at hwait
  · simp only [bind_eq_ok, pure_eq_ok, Except.ok.injEq, Prod.mk.injEq] at hwait
    obtain ⟨⟨l1, w1⟩, hr, rfl, rfl, rfl⟩ := hwait
    have hforked : (o.setLock l l1).forked = o.forked := rfl
    obtain ⟨hnd, hw, hinv⟩ := h.wake (q := .lock l) (Kernel.release_spec hr) hforked (setLock_queue o l l1)
    refine ⟨hnd, hw, ?_⟩
    rw [blockedAfter_eq_update hb hw]
    refine hinv.park (by simp [hb]) (q := .condition c) rfl rfl ?_
    rw [setCondition_queue, setLock_queue]
    simp [Kernel.queue]
  · cases hwait

omit [DecidableEq S] [DecidableEq L] [DecidableEq C] in
theorem KernelInv.fork (hpc : pc t = .outside) {thread : Tid}
    (hf : o.forked thread = false) : SectionKeeps pc blocked t (o.fork thread) := by
  have hwoken : ∀ u ∈ [thread], (∃ q, u ∈ o.queue q) ∨ o.forked u = false := by simp [hf]
  have hforked : ∀ u, (o.fork thread).obj.forked u = true ↔ o.forked u = true ∨ u ∈ [thread] := by
    intro u
    by_cases hu : u = thread <;> simp [Kernel.fork, hu]
  have hqueue : ∀ q u, u ∈ (o.fork thread).obj.queue q ↔ u ∈ o.queue q ∧ u ∉ [thread] := by
    intro q u
    refine ⟨fun hu => ⟨hu, fun hm => ?_⟩, And.left⟩
    rw [← List.mem_singleton.mp hm, h.forked hu] at hf
    cases hf
  obtain ⟨hw, hinv⟩ := h.ready hwoken hforked h.nodup hqueue
  refine ⟨List.nodup_singleton _, hw, ?_⟩
  rw [blockedAfter_wakes _ _ rfl]
  simp only [Kernel.fork, ← hpc, Function.update_eq_self]
  exact hinv

theorem KernelInv.finish (hb : blocked t = false) :
    SectionKeeps pc blocked t { obj := o, pc := .finished, sleeps := true } := by
  refine ⟨List.nodup_nil, by simp, ?_⟩
  rw [blockedAfter_asleep _ _ rfl rfl]
  exact h.settle hb (by simp) rfl h.nodup (by simp [ThreadPc.waitsOn])

end Invariant

theorem threadProgram_stable : Stable (threadProgram Tid S L C) forksOnce KernelInv where
  exec {pc blocked o a t e} hinv hb he hd hs := by
    -- only `resume` starts inside a synchronisation routine
    have hout : a ≠ .resume → pc t = .outside := by
      intro ha
      cases hpc : pc t <;> rw [hpc] at he <;> cases a <;> first | rfl | exact he.elim | exact absurd rfl ha
    cases a with
    | fork thread =>
      cases hs
      exact hinv.fork (hout (by simp)) hd
    | finish =>
      cases hs
      exact hinv.finish hb
    | p s =>
      cases hs
      exact hinv.tryP hb s
    | v s =>
      simp only [threadProgram, bind_eq_ok, pure_eq_ok, Except.ok.injEq] at hs
      obtain ⟨⟨o', wakes⟩, hv, rfl⟩ := hs
      obtain ⟨rest, hq, hforked, hqueue⟩ := Kernel.v_spec hv
      exact hinv.wakes (hout (by simp)) hq hforked hqueue
    | acquire l => exact hinv.acquire hb hs
    | release l => exact hinv.release (hout (by simp)) hs
    | wait c l => exact hinv.wait hb hs
    | signal c l => exact hinv.signal (hout (by simp)) hs
    | broadcast c l => exact hinv.broadcast (hout (by simp)) hs
    | resume =>
      cases hpc : pc t with
      | outside =>
        rw [hpc] at he
        exact he.elim
      | inP s =>
        rw [hpc] at hs
        cases hs
        exact hinv.tryP hb s
      | inAcquire l =>
        rw [hpc] at hs
        cases hs
        exact hinv.lock_tested hb l
      | inWait c l =>
        rw [hpc] at hs
        exact hinv.acquire hb hs
      | finished =>
        rw [hpc] at he
        exact he.elim
  interrupt hinv hs := by
    obtain ⟨rest, hq, hforked, hqueue⟩ := Kernel.v_spec hs
    exact hinv.wake hq hforked hqueue

omit [DecidableEq S] [DecidableEq L] [DecidableEq C] in
theorem threadStart_inv {s : KernelState Tid S L C} (h : ThreadStart s) :
    Placed s ∧ KernelInv s.pc s.blocked s.obj := by
  have hqueue : ∀ q, s.obj.queue q = [] := by
    intro q
    cases q with
    | semaphore x => exact h.semaphores x
    | lock l =>
      simp only [Kernel.queue, h.locks l]
      rfl
    | condition c => exact h.conditions c
  refine ⟨⟨by rw [h.ready]; exact List.nodup_nil, fun t => ?_, fun t ht => ?_⟩, fun q t => ?_, fun q => ?_,
    fun t ht => ⟨h.pc t, ?_⟩, fun t ht _ => ?_, fun t ht => ?_⟩
  · rw [h.ready, h.status]
    split <;> simp
  · rw [h.status] at ht
    by_contra hne
    simp [hne] at ht
  · simp [hqueue, h.pc, ThreadPc.waitsOn]
  · rw [hqueue]
    exact List.nodup_nil
  · have hne : t ≠ s.current := by
      rw [Ne, ← h.forked, ht]
      simp
    simp [State.blocked, h.status, hne]
  · simp [State.blocked, h.status, (h.forked t).mp ht]
  · rw [h.pc] at ht
    cases ht

/-! ## The places of a thread -/

/-- `ThreadStatus` of `thread.h`. -/
inductive ThreadStatus where
  | justCreated
  | running
  | ready
  | blocked
  deriving DecidableEq, Repr

/-- The field `status` of a thread. -/
def threadStatus (s : KernelState Tid S L C) (t : Tid) : ThreadStatus :=
  if s.obj.forked t then
    match s.status t with
    | .running => .running
    | .ready => .ready
    | .blocked => .blocked
  else .justCreated

/-- How often a thread occurs at each place: the processor, the ready list, and the queues. -/
structure OccursOnly (s : KernelState Tid S L C) (t : Tid) (processor ready : ℕ)
    (queue : WaitQueue S L C → ℕ) : Prop where
  processor : (if t = s.current then 1 else 0) = processor
  ready : s.readyList.count t = ready
  queue : ∀ q, (s.obj.queue q).count t = queue q

variable {s : KernelState Tid S L C}

theorem KernelInv.queue_count (h : KernelInv s.pc s.blocked s.obj) (q : WaitQueue S L C) (t : Tid) :
    (s.obj.queue q).count t = if (s.pc t).waitsOn = some q ∧ s.status t = .blocked then 1 else 0 := by
  have hmem : t ∈ s.obj.queue q ↔ (s.pc t).waitsOn = some q ∧ s.status t = .blocked := by
    rw [h.queue]
    simp [State.blocked]
  split
  · exact List.count_eq_one_of_mem (h.nodup q) (hmem.mpr ‹_›)
  · exact List.count_eq_zero_of_not_mem (fun hm => absurd (hmem.mp hm) ‹_›)

/-- Whenever a thread runs, each forked unfinished thread is at exactly one place, once, with the status
that goes with the place, and finished threads are nowhere. -/
theorem thread_placement (hs : Reachable ThreadStart (Step (threadProgram Tid S L C)) (Disciplined forksOnce) s)
    (hr : s.status s.current = .running) (t : Tid) :
    (s.obj.forked t = true → s.pc t ≠ .finished →
      (t = s.current ∧ threadStatus s t = .running ∧ OccursOnly s t 1 0 (fun _ => 0)) ∨
      (threadStatus s t = .ready ∧ OccursOnly s t 0 1 (fun _ => 0)) ∨
      (threadStatus s t = .blocked ∧ ∃ q, OccursOnly s t 0 0 (fun q' => if q' = q then 1 else 0))) ∧
    (s.pc t = .finished → OccursOnly s t 0 0 (fun _ => 0)) := by
  obtain ⟨hp, hinv⟩ := threadProgram_stable.run (fun _ h => threadStart_inv h) hs
  have hready : s.readyList.count t = if s.status t = .ready then 1 else 0 := by
    split
    · exact List.count_eq_one_of_mem hp.nodup ((hp.mem_iff t).mpr ‹_›)
    · exact List.count_eq_zero_of_not_mem (fun hm => absurd ((hp.mem_iff t).mp hm) ‹_›)
  have hcurrent : t = s.current ↔ s.status t = .running := ⟨fun ht => ht ▸ hr, hp.running t⟩
  refine ⟨fun hf hfin => ?_, fun hfin => ?_⟩
  · cases hst : s.status t with
    | running =>
      refine Or.inl ⟨hcurrent.mpr hst, by simp [threadStatus, hf, hst], by simp [hcurrent, hst], by simp [hready, hst],
        fun q => by simp [hinv.queue_count, hst]⟩
    | ready =>
      refine Or.inr (Or.inl ⟨by simp [threadStatus, hf, hst], by simp [hcurrent, hst], by simp [hready, hst],
        fun q => by simp [hinv.queue_count, hst]⟩)
    | blocked =>
      have hblocked : s.blocked t = true := by simp [State.blocked, hst]
      obtain ⟨q, hq⟩ : ∃ q, (s.pc t).waitsOn = some q := by
        cases hpc : s.pc t with
        | outside =>
          rw [hinv.awake t hf hpc] at hblocked
          cases hblocked
        | inP x => exact ⟨_, rfl⟩
        | inAcquire l => exact ⟨_, rfl⟩
        | inWait c l => exact ⟨_, rfl⟩
        | finished => exact absurd hpc hfin
      refine Or.inr (Or.inr ⟨by simp [threadStatus, hf, hst], q, by simp [hcurrent, hst], by simp [hready, hst],
        fun q' => ?_⟩)
      rw [hinv.queue_count, hq]
      simp [hst, eq_comm]
  · have hst : s.status t = .blocked := by simpa [State.blocked] using hinv.finished t hfin
    refine ⟨by simp [hcurrent, hst], by simp [hready, hst], fun q => ?_⟩
    rw [hinv.queue_count, hfin]
    simp [ThreadPc.waitsOn]

/-- The main thread, a thread that has not been forked, and a semaphore with value `0`. -/
def mainStart : State (Fin 2) (ThreadPc Unit Empty Empty) (Kernel (Fin 2) Unit Empty Empty) where
  current := 0
  readyList := []
  status t := if t = 0 then .running else .blocked
  pc _ := .outside
  obj := ⟨fun t => t = 0, fun _ => ⟨0, []⟩, Empty.elim, Empty.elim⟩

/-- The main thread forks the other one and waits for it; the other one runs. -/
theorem thread_placement_main :
    ∃ s : State (Fin 2) (ThreadPc Unit Empty Empty) (Kernel (Fin 2) Unit Empty Empty),
      Reachable ThreadStart (Step (threadProgram (Fin 2) Unit Empty Empty)) (Disciplined forksOnce) s ∧
      s.status s.current = .running ∧ s.obj.forked 0 = true ∧ s.pc 0 ≠ .finished ∧ threadStatus s 0 = .blocked ∧
      ∃ q, OccursOnly s 0 0 0 (fun q' => if q' = q then 1 else 0) := by
  have h0 : Reachable ThreadStart (Step (threadProgram (Fin 2) Unit Empty Empty)) (Disciplined forksOnce)
      mainStart := Reachable.start
    ⟨by simp [mainStart], fun _ => rfl, rfl, fun _ => rfl, fun _ => rfl, fun l => l.elim, fun c => c.elim⟩
  have h1 := Reachable.next h0 (l := .exec (.fork 1)) (by rintro a ha; cases ha; rfl) (Step.exec rfl trivial rfl)
  have h2 := Reachable.next h1 (l := .exec (.p ())) (by rintro a ha; cases ha; trivial) (Step.exec rfl trivial rfl)
  have h3 := Reachable.next h2 (l := .dispatch 1) (by rintro a ha; cases ha)
    (Step.dispatch (by decide) (by decide))
  refine ⟨_, h3, by decide, rfl, by decide, rfl, ?_⟩
  rcases (thread_placement h3 (by decide) 0).1 rfl (by decide) with ⟨hc, -⟩ | ⟨hst, -⟩ | ⟨-, hq⟩
  · cases hc
  · cases hst
  · exact hq

end Nachos
