import Nachos.Threads.Synch

/-! # Threads that share a lock

A thread may be inside (it has returned from `Acquire` and has not called `Release` since) and may be
waiting in the loop of `Acquire`. The processor is switched between two sections only. The invariant
is kept by every call of `Acquire`, and by every `Release` of the owner. -/
set_option autoImplicit false

namespace Nachos
open Execution Uniprocessor

variable {Tid : Type}

structure LockPc where
  waiting : Bool
  inside : Bool
  deriving DecidableEq, Repr

inductive LockAct where
  | acquire
  | retest
  | release
  deriving DecidableEq, Repr

/-- The caller of `Acquire` goes on inside, or sleeps in the loop. -/
def acquired (pc : LockPc) (l : Lock Tid × Bool) : Effect Tid LockPc (Lock Tid) :=
  if l.2 then { obj := l.1, pc := ⟨false, true⟩ }
  else { obj := l.1, pc := ⟨true, pc.inside⟩, sleeps := true }

@[simp] theorem acquired_wakes (pc : LockPc) (l : Lock Tid × Bool) : (acquired pc l).wakes = [] := by
  unfold acquired
  split <;> rfl

variable [DecidableEq Tid]

/-- Any thread may call `Acquire` or `Release` at any time; one that was put to sleep in `Acquire` tests
the lock again when it runs. -/
def lockProgram (Tid : Type) [DecidableEq Tid] : Program Tid LockPc (Lock Tid) LockAct Empty Trap where
  enabled
    | .acquire, pc => pc.waiting = false
    | .retest, pc => pc.waiting = true
    | .release, pc => pc.waiting = false
  sect
    | .acquire, t, pc, l => do
      let r ← l.acquire t
      return acquired pc r
    | .retest, t, pc, l => .ok (acquired pc (l.tryAcquire t))
    | .release, t, pc, l => do
      let (l, wakes) ← l.release t
      return { obj := l, pc := { pc with inside := false }, wakes := wakes }
  handler e _ := nomatch e

/-- Threads at the start: the lock is new and nobody has called it. -/
def LockStart (s : State Tid LockPc (Lock Tid)) : Prop :=
  Placed s ∧ s.obj = Lock.new ∧ ∀ t, s.pc t = ⟨false, false⟩

/-- `Release` is called by the recorded owner, or when the lock is free. -/
def ownerReleases : LockAct → Tid → LockPc → Lock Tid → Prop
  | .release, t, _, l => l.available = true ∨ l.ownerThread = some t
  | _, _, _, _ => True

/-- `Release` is called inside only, and `Acquire` outside only. -/
def lockDiscipline : LockAct → Tid → LockPc → Lock Tid → Prop
  | .release, _, pc, _ => pc.inside = true
  | .acquire, _, pc, _ => pc.inside = false
  | .retest, _, _, _ => True

structure LockInv (pc : Tid → LockPc) (blocked : Tid → Bool) (l : Lock Tid) : Prop where
  lock : l.Ok (fun t => (pc t).inside = true) (fun t => (pc t).waiting = true ∧ blocked t = true)
  waiting : ∀ t, (pc t).inside = true → (pc t).waiting = false
  wake : l.available = true → l.queue ≠ [] → ∃ t, (pc t).waiting = true ∧ blocked t = false

variable {pc : Tid → LockPc} {blocked : Tid → Bool} {l : Lock Tid}

theorem LockInv.acquired (h : LockInv pc blocked l) {t : Tid} (hb : blocked t = false)
    (ht : (pc t).inside = false) :
    LockInv (Function.update pc t (acquired (pc t) (l.tryAcquire t)).pc)
      (blockedAfter blocked t (Nachos.acquired (pc t) (l.tryAcquire t)))
      (Nachos.acquired (pc t) (l.tryAcquire t)).obj := by
  have hserves : l.Serves LockPc.inside LockPc.waiting pc blocked := h.lock
  have hkeep : ∀ next : LockPc, (next.inside = true → next.waiting = false) → ∀ u,
      (Function.update pc t next u).inside = true → (Function.update pc t next u).waiting = false := by
    intro next hnext u
    by_cases hu : u = t
    · simpa [hu] using hnext
    · simpa [hu] using h.waiting u
  rcases hserves.tryAcquire hb ht ⟨false, true⟩ ⟨true, false⟩ rfl rfl rfl rfl with
    ⟨l', hl, -, hna, hok⟩ | ⟨l', hl, hna, hok⟩
  · rw [hl, blockedAfter_awake _ _ (by simp) rfl]
    refine ⟨hok, hkeep _ fun _ => rfl, fun hav => ?_⟩
    cases hna.symm.trans hav
  · have hpc : (Nachos.acquired (pc t) (l', false)).pc = ⟨true, false⟩ := by
      change (⟨true, (pc t).inside⟩ : LockPc) = _
      rw [ht]
    rw [hl, blockedAfter_asleep _ _ (by simp) rfl, hpc]
    refine ⟨hok, hkeep _ nofun, fun hav => ?_⟩
    cases hna.symm.trans hav

theorem LockInv.release (h : LockInv pc blocked l) {t : Tid} (ht : (pc t).inside = true) :
    ∃ l' wakes, l.release t = .ok (l', wakes) ∧ wakes.Nodup ∧ (∀ u ∈ wakes, blocked u = true) ∧
      LockInv (Function.update pc t { pc t with inside := false })
        (fun u => if u ∈ wakes then false else blocked u) l' := by
  have hserves : l.Serves LockPc.inside LockPc.waiting pc blocked := h.lock
  have hwait := h.waiting t ht
  obtain ⟨l', wakes, hrun, hnd, hw, hfirst, hok⟩ := hserves.release ht hwait
  refine ⟨l', wakes, hrun, hnd, fun u hu => (hw u hu).2, hok _ _ rfl hwait fun _ _ => rfl, fun u => ?_, ?_⟩
  · by_cases hu : u = t
    · simp [hu]
    · simpa [hu] using h.waiting u
  · intro _ hq
    -- the lock is free and threads queue: the one just woken will test it again
    obtain ⟨u, hu⟩ := List.exists_mem_of_ne_nil _ (hfirst hq)
    have hne : u ≠ t := by
      rintro rfl
      rw [(hw u hu).1] at hwait
      cases hwait
    exact ⟨u, by simp [hne, (hw u hu).1], by simp [hu]⟩

theorem lockProgram_stable : Stable (lockProgram Tid) ownerReleases LockInv where
  exec {pc blocked l a t e} hinv hb he hd hs := by
    cases a with
    | acquire =>
      have hin : (pc t).inside = false := by
        rw [Bool.eq_false_iff]
        intro hin
        simp [lockProgram, Lock.acquire, (hinv.lock.owner t).mpr hin] at hs
      have hno : l.ownerThread ≠ some t := by
        rw [Ne, hinv.lock.owner, hin]
        simp
      simp only [lockProgram, Lock.acquire, hno, if_false, ok_bind, pure_eq_ok] at hs
      cases hs
      exact ⟨by simp, by simp, hinv.acquired hb hin⟩
    | retest =>
      have hin : (pc t).inside = false := by
        rw [Bool.eq_false_iff]
        intro hin
        have hw := hinv.waiting t hin
        rw [he] at hw
        cases hw
      cases hs
      exact ⟨by simp, by simp, hinv.acquired hb hin⟩
    | release =>
      have hown : l.ownerThread = some t := by
        rcases hd with hav | hown
        · by_contra hno
          simp [lockProgram, Lock.release, hav, hno] at hs
        · exact hown
      obtain ⟨l', wakes, hrun, hnd, hw, hinv'⟩ := hinv.release ((hinv.lock.owner t).mp hown)
      simp only [lockProgram, hrun, ok_bind, pure_eq_ok] at hs
      cases hs
      refine ⟨hnd, hw, ?_⟩
      unfold blockedAfter
      simpa using hinv'
  interrupt {_ _ _ ev} _ _ := nomatch ev

omit [DecidableEq Tid] in
theorem lockStart_inv {s : State Tid LockPc (Lock Tid)} (h : LockStart s) :
    Placed s ∧ LockInv s.pc s.blocked s.obj := by
  obtain ⟨hp, hl, hpc⟩ := h
  rw [hl]
  refine ⟨hp, Lock.new_ok.congr (by simp [hpc]) (by simp [hpc]), by simp [hpc], ?_⟩
  intro _ hq
  exact absurd rfl hq

/-! ## Disciplined use -/

theorem lockDiscipline_stable : Stable (lockProgram Tid) lockDiscipline LockInv :=
  lockProgram_stable.weaken fun {_ _ _ a t} hinv hd => by
    cases a with
    | release => exact Or.inr ((hinv.lock.owner t).mpr hd)
    | acquire => trivial
    | retest => trivial

/-- Threads that release only what they hold: at most one is inside, the fields of the lock name it, and
a free lock with waiters has a woken waiter that has not tested it yet. -/
theorem lock_safety {s : State Tid LockPc (Lock Tid)}
    (hs : Reachable LockStart (Step (lockProgram Tid)) (Disciplined lockDiscipline) s) :
    (∀ t u, (s.pc t).inside = true → (s.pc u).inside = true → t = u) ∧
    (∀ t, (s.pc t).inside = true ↔ s.obj.available = false ∧ s.obj.ownerThread = some t) ∧
    (s.obj.available = false ↔ ∃ t, (s.pc t).inside = true) ∧
    (s.obj.available = true → s.obj.queue ≠ [] → ∃ t, (s.pc t).waiting = true ∧ t ∉ s.obj.queue ∧
      (t ∈ s.readyList ∨ t = s.current ∧ s.status t = .running)) := by
  obtain ⟨hp, hinv⟩ := lockDiscipline_stable.run (fun _ h => lockStart_inv h) hs
  refine ⟨fun t u ht hu => hinv.lock.holds_unique ht hu, fun t => ?_, ?_, fun ha hq => ?_⟩
  · rw [← hinv.lock.owner]
    constructor
    · intro ho
      exact ⟨hinv.lock.not_available ((hinv.lock.owner t).mp ho), ho⟩
    · intro ho
      exact ho.2
  · constructor
    · intro ha
      cases ho : s.obj.ownerThread with
      | none =>
        rw [hinv.lock.available.mpr ho] at ha
        cases ha
      | some t => exact ⟨t, (hinv.lock.owner t).mp ho⟩
    · rintro ⟨t, ht⟩
      exact hinv.lock.not_available ht
  · obtain ⟨t, hw, hb⟩ := hinv.wake ha hq
    refine ⟨t, hw, ?_, ?_⟩
    · rw [hinv.lock.queue, hb]
      simp
    · cases hst : s.status t with
      | running => exact Or.inr ⟨hp.running t hst, rfl⟩
      | ready => exact Or.inl ((hp.mem_iff t).mpr hst)
      | blocked => simp [State.blocked, hst] at hb

/-- Two threads, the first of them running. -/
def twoThreads : State (Fin 2) LockPc (Lock (Fin 2)) where
  current := 0
  readyList := [1]
  status t := if t = 0 then .running else .ready
  pc _ := ⟨false, false⟩
  obj := Lock.new

theorem twoThreads_start : LockStart twoThreads :=
  ⟨⟨by decide, by decide, by decide⟩, rfl, fun _ => rfl⟩

/-- The first thread is inside, the second one ready. -/
def oneInside : State (Fin 2) LockPc (Lock (Fin 2)) :=
  twoThreads.perform { obj := ⟨false, some 0, []⟩, pc := ⟨false, true⟩ }

theorem oneInside_step : Step (lockProgram (Fin 2)) twoThreads (.exec .acquire) oneInside :=
  Step.exec rfl rfl rfl

/-- Two threads wait for the lock of the first; when it releases, one of them is woken and the other one is
still in the queue. -/
theorem lock_safety_woken :
    ∃ s s' : State (Fin 3) LockPc (Lock (Fin 3)),
      Reachable LockStart (Step (lockProgram (Fin 3))) (Disciplined lockDiscipline) s ∧
      s.obj.queue = [1, 2] ∧ (s.pc 0).inside = true ∧ (∀ t, (s.pc t).inside = true → t = 0) ∧
      Reachable LockStart (Step (lockProgram (Fin 3))) (Disciplined lockDiscipline) s' ∧
      s'.obj.available = true ∧ s'.obj.queue = [2] ∧
      ∃ t, (s'.pc t).waiting = true ∧ t ∉ s'.obj.queue ∧
        (t ∈ s'.readyList ∨ t = s'.current ∧ s'.status t = .running) := by
  have hcall : ∀ (s : State (Fin 3) LockPc (Lock (Fin 3))) (a : LockAct),
      lockDiscipline a s.current (s.pc s.current) s.obj →
        Disciplined lockDiscipline s (Label.exec a : Label (Fin 3) LockAct Empty) := by
    intro s a h _ ha
    cases ha
    exact h
  have hswitch : ∀ (s : State (Fin 3) LockPc (Lock (Fin 3))) (l : Label (Fin 3) LockAct Empty),
      (∀ a, l ≠ .exec a) → Disciplined lockDiscipline s l := fun s l h a ha => absurd ha (h a)
  have h0 : Reachable LockStart (Step (lockProgram (Fin 3))) (Disciplined lockDiscipline)
      (threeThreads ⟨false, false⟩ Lock.new) := .start ⟨threeThreads_placed _ _, rfl, fun _ => rfl⟩
  have h1 := h0.next (hcall _ .acquire rfl) (Step.exec (by decide) rfl rfl)
  have h2 := h1.next (hswitch _ (.yield 1) (by simp)) (Step.yield (by decide) (by decide))
  have h3 := h2.next (hcall _ .acquire rfl) (Step.exec (by decide) rfl rfl)
  have h4 := h3.next (hswitch _ (.dispatch 2) (by simp)) (Step.dispatch (by decide) (by decide))
  have h5 := h4.next (hcall _ .acquire rfl) (Step.exec (by decide) rfl rfl)
  have h6 := h5.next (hswitch _ (.dispatch 0) (by simp)) (Step.dispatch (by decide) (by decide))
  have h7 := h6.next (hcall _ .release rfl) (Step.exec rfl rfl rfl)
  obtain ⟨halone, -⟩ := lock_safety h6
  obtain ⟨-, -, -, hwoken⟩ := lock_safety h7
  exact ⟨_, _, h6, rfl, rfl, fun t ht => halone t 0 ht rfl, h7, rfl, rfl, hwoken rfl (by decide)⟩

/-! ## Calls in any order -/

/-- If `Release` is only ever called by the recorded owner or on a free lock, at most one thread is
inside, and the threads whose `Release` does not pass for somebody else's are exactly those. -/
theorem lock_release_by_owner {s : State Tid LockPc (Lock Tid)}
    (hs : Reachable LockStart (Step (lockProgram Tid)) (Disciplined ownerReleases) s) :
    (∀ t u, (s.pc t).inside = true → (s.pc u).inside = true → t = u) ∧
    ∀ t, (∀ r, s.obj.release t = .ok r → s.obj.ownerThread = some t ∧ s.obj.available = false) ↔
      ownerReleases .release t (s.pc t) s.obj := by
  obtain ⟨-, hinv⟩ := lockProgram_stable.run (fun _ h => lockStart_inv h) hs
  refine ⟨fun t u ht hu => hinv.lock.holds_unique ht hu, fun t => ?_⟩
  constructor
  · intro h
    cases ha : s.obj.available with
    | true => exact Or.inl ha
    | false => exact Or.inr (h _ (by unfold Lock.release; rw [if_pos (Or.inl (by simp [ha]))])).1
  · intro h r hr
    have hown : s.obj.ownerThread = some t := by
      rcases h with ha | ho
      · by_contra hno
        simp [Lock.release, ha, hno] at hr
      · exact ho
    exact ⟨hown, hinv.lock.not_available ((hinv.lock.owner t).mp hown)⟩

theorem lock_release_by_owner_oneInside :
    Reachable LockStart (Step (lockProgram (Fin 2))) (Disciplined ownerReleases) oneInside ∧
      ∀ r, oneInside.obj.release 0 = .ok r →
        oneInside.obj.ownerThread = some 0 ∧ oneInside.obj.available = false := by
  have hs : Reachable LockStart (Step (lockProgram (Fin 2))) (Disciplined ownerReleases) oneInside := by
    refine Reachable.next (Reachable.start twoThreads_start) ?_ oneInside_step
    intro a ha
    cases ha
    trivial
  exact ⟨hs, ((lock_release_by_owner hs).2 0).mpr (Or.inr rfl)⟩

/-- The second thread runs while the first is inside. -/
def otherRuns : State (Fin 2) LockPc (Lock (Fin 2)) := oneInside.yieldTo 1

/-- The second thread has released the first one's lock. -/
def otherReleased : State (Fin 2) LockPc (Lock (Fin 2)) :=
  otherRuns.perform { obj := ⟨true, none, []⟩, pc := ⟨false, false⟩ }

/-- The second thread has acquired the lock it released. -/
def bothInside : State (Fin 2) LockPc (Lock (Fin 2)) :=
  otherReleased.perform { obj := ⟨false, some 1, []⟩, pc := ⟨false, true⟩ }

/-- A thread that does not hold the lock releases it, acquires it, and is inside together with the
thread that held it. -/
theorem lock_released_by_other :
    Reachable LockStart (Step (lockProgram (Fin 2))) (fun _ _ => True) otherRuns ∧
    Step (lockProgram (Fin 2)) otherRuns (.exec .release) otherReleased ∧
    otherRuns.obj.ownerThread ≠ some otherRuns.current ∧
    Reachable LockStart (Step (lockProgram (Fin 2))) (fun _ _ => True) bothInside ∧
    (bothInside.pc 0).inside = true ∧ (bothInside.pc 1).inside = true := by
  have h1 : Reachable LockStart (Step (lockProgram (Fin 2))) (fun _ _ => True) oneInside :=
    Reachable.next (Reachable.start twoThreads_start) trivial oneInside_step
  have h2 : Reachable LockStart (Step (lockProgram (Fin 2))) (fun _ _ => True) otherRuns :=
    Reachable.next h1 trivial (Step.yield rfl (by decide))
  have hstep : Step (lockProgram (Fin 2)) otherRuns (.exec .release) otherReleased := Step.exec rfl rfl rfl
  have h3 := Reachable.next h2 trivial hstep
  have hstep' : Step (lockProgram (Fin 2)) otherReleased (.exec .acquire) bothInside := Step.exec rfl rfl rfl
  exact ⟨h2, hstep, by decide, Reachable.next h3 trivial hstep', rfl, rfl⟩

end Nachos
