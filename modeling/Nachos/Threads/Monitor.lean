import Nachos.Threads.ThreadRun

/-! # Monitors: locks, condition variables and the data they protect (`threads/synch.cc`)

The threads of `ThreadRun` now share data, and each lock protects a part of it. A thread that has acquired a lock and
has not released it since may change the data of the lock in any way; before it calls `Release` or `Wait` it has to
bring back the invariant `I l` of that lock. Which locks a thread holds is recorded from its own calls. Everything else
is left open: any number of locks and condition variables, a condition used with several locks, threads that hold
several locks, semaphores and interrupt handlers beside them. -/
set_option autoImplicit false

namespace Nachos
open Execution Uniprocessor

variable {Tid S L C D : Type}

/-! ## The most general clients -/

/-- Where a thread is, and the locks it has acquired and not released since. -/
structure MonitorPc (S L C : Type) where
  point : ThreadPc S L C
  held : L → Bool

/-- A call of the thread package, or a change of the data that a lock protects. -/
inductive MonitorAct (Tid S L C D : Type) where
  | call (a : ThreadAct Tid S L C)
  | change (l : L) (f : D → D)

structure Monitor (Tid S L C D : Type) where
  kernel : Kernel Tid S L C
  data : L → D

abbrev MonitorState (Tid S L C D : Type) := State Tid (MonitorPc S L C) (Monitor Tid S L C D)

/-- What a section of the thread package does. -/
abbrev ThreadEffect (Tid S L C : Type) := KernelEffect Tid S L C

/-- The lock that a sleeping thread goes on to acquire. -/
def ThreadPc.wants : ThreadPc S L C → Option L
  | inAcquire l | inWait _ l => some l
  | _ => none

def ThreadPc.isOutside : ThreadPc S L C → Bool
  | outside => true
  | _ => false

/-- The lock that a call acquires if it returns. -/
def ThreadAct.takes (a : ThreadAct Tid S L C) (point : ThreadPc S L C) : Option L :=
  match a with
  | .acquire l => some l
  | .resume => point.wants
  | _ => none

/-- The lock that a call gives back. -/
def ThreadAct.gives : ThreadAct Tid S L C → Option L
  | release l | wait _ l => some l
  | _ => none

/-- The locks a thread holds after a call that took it to `next`. -/
def MonitorPc.heldAfter [DecidableEq L] (pc : MonitorPc S L C) (a : ThreadAct Tid S L C) (next : ThreadPc S L C)
    (l : L) : Bool :=
  if a.gives = some l then false
  else if a.takes pc.point = some l ∧ next.isOutside = true then true
  else pc.held l

/-- A section of the thread package among threads that hold locks and share data. -/
def Monitor.after [DecidableEq L] (o : Monitor Tid S L C D) (pc : MonitorPc S L C) (a : ThreadAct Tid S L C)
    (e : ThreadEffect Tid S L C) : Effect Tid (MonitorPc S L C) (Monitor Tid S L C D) where
  obj := { o with kernel := e.obj }
  pc := ⟨e.pc, pc.heldAfter a e.pc⟩
  wakes := e.wakes
  sleeps := e.sleeps

def monitorProgram (Tid S L C D : Type) [DecidableEq Tid] [DecidableEq S] [DecidableEq L] [DecidableEq C] :
    Program Tid (MonitorPc S L C) (Monitor Tid S L C D) (MonitorAct Tid S L C D) S Trap where
  enabled
    | .call a, pc => (threadProgram Tid S L C).enabled a pc.point
    | .change _ _, pc => pc.point = .outside
  sect
    | .call a, t, pc, o => do
      let e ← (threadProgram Tid S L C).sect a t pc.point o.kernel
      return o.after pc a e
    | .change l f, _, pc, o => .ok { obj := { o with data := Function.update o.data l (f (o.data l)) }, pc := pc }
  handler x o := do
    let (kernel, wakes) ← (threadProgram Tid S L C).handler x o.kernel
    return ({ o with kernel := kernel }, wakes)

/-- Locks are acquired by threads that do not hold them and used by threads that do; the invariant holds when a lock is
given back. -/
def monitorDiscipline (I : L → D → Prop) : MonitorAct Tid S L C D → Tid → MonitorPc S L C → Monitor Tid S L C D → Prop
  | .call (.fork thread), _, _, o => o.kernel.forked thread = false
  | .call (.acquire l), _, pc, _ => pc.held l = false
  | .call (.release l), _, pc, o => pc.held l = true ∧ I l (o.data l)
  | .call (.wait _ l), _, pc, o => pc.held l = true ∧ I l (o.data l)
  | .call (.signal _ l), _, pc, _ => pc.held l = true
  | .call (.broadcast _ l), _, pc, _ => pc.held l = true
  | .change l _, _, pc, _ => pc.held l = true
  | _, _, _, _ => True

theorem forksOnce_of_discipline {I : L → D → Prop} {a : ThreadAct Tid S L C} {t : Tid} {pc : MonitorPc S L C}
    {o : Monitor Tid S L C D} (h : monitorDiscipline I (.call a) t pc o) : forksOnce a t pc.point o.kernel := by
  cases a with
  | fork thread => exact h
  | _ => trivial

/-- The main thread runs, nobody holds a lock, and the data are as the invariants say. -/
structure MonitorStart [DecidableEq Tid] (I : L → D → Prop) (s : MonitorState Tid S L C D) : Prop where
  kernel : ThreadStart ⟨s.current, s.readyList, s.status, fun t => (s.pc t).point, s.obj.kernel⟩
  held : ∀ t l, (s.pc t).held l = false
  data : ∀ l, I l (s.obj.data l)

abbrev MonitorReaches [DecidableEq Tid] [DecidableEq S] [DecidableEq L] [DecidableEq C] (I : L → D → Prop)
    (s : MonitorState Tid S L C D) : Prop :=
  Reachable (MonitorStart I) (Step (monitorProgram Tid S L C D)) (Disciplined (monitorDiscipline I)) s

/-! ## What a call does to the locks -/

/-- The queue whose threads a call wakes that has nothing to do with locks. -/
def ThreadAct.wakesOn : ThreadAct Tid S L C → Option (WaitQueue S L C)
  | v x => some (.semaphore x)
  | signal c _ | broadcast c _ => some (.condition c)
  | _ => none

/-- A call passes through the loop of `Acquire`, gives a lock back, or leaves the locks alone. -/
inductive LockEffect [DecidableEq L] (k : Kernel Tid S L C) (t : Tid) (a : ThreadAct Tid S L C) (point : ThreadPc S L C)
    (e : ThreadEffect Tid S L C) : Prop
  | take (l : L) (htakes : a.takes point = some l) (hgives : a.gives = none) (he : e = k.tryAcquire l t)
  | give (l : L) (htakes : a.takes point = none) (hgives : a.gives = some l)
      (hlock : e.obj.lock = Function.update k.lock l ⟨true, none, (k.lock l).queue.drop 1⟩)
      (hwakes : e.wakes = (k.lock l).queue.take 1) (hnext : ∀ l', e.pc.wants = some l' → l' = l)
  | neither (htakes : a.takes point = none) (hgives : a.gives = none) (hlock : e.obj.lock = k.lock)
      (hwakes : ∀ u ∈ e.wakes, a = .fork u ∨ ∃ q, a.wakesOn = some q ∧ u ∈ k.queue q) (hnext : e.pc.wants = none)

section Spec

variable {k : Kernel Tid S L C} {t : Tid} {a : ThreadAct Tid S L C} {point : ThreadPc S L C}
  {e : ThreadEffect Tid S L C}

theorem Kernel.acquire_eq [DecidableEq Tid] [DecidableEq L] {l : L} (h : k.acquire l t = .ok e) : e = k.tryAcquire l t := by
  unfold Kernel.acquire Lock.acquire at h
  split at h
  · cases h
  · cases h
    rfl

theorem Lock.release_eq [DecidableEq Tid] {lock lock' : Lock Tid} {wakes : List Tid}
    (h : lock.release t = .ok (lock', wakes)) :
    lock' = ⟨true, none, lock.queue.drop 1⟩ ∧ wakes = lock.queue.take 1 := by
  unfold Lock.release at h
  split at h <;> cases h
  exact ⟨rfl, rfl⟩

theorem Kernel.v_lock [DecidableEq S] {k' : Kernel Tid S L C} {x : S} {wakes : List Tid}
    (h : k.v x = .ok (k', wakes)) : k'.lock = k.lock := by
  unfold Kernel.v Semaphore.v at h
  split at h
  · cases h
  · cases h
    rfl

theorem Kernel.v_wakes [DecidableEq S] [DecidableEq L] [DecidableEq C] {k' : Kernel Tid S L C} {x : S}
    {wakes : List Tid} (h : k.v x = .ok (k', wakes)) {u : Tid} (hu : u ∈ wakes) : u ∈ k.queue (.semaphore x) := by
  obtain ⟨rest, hq, -⟩ := Kernel.v_spec h
  rw [hq]
  exact List.mem_append_left _ hu

theorem tryP_effect [DecidableEq S] [DecidableEq L] (x : S) (htakes : a.takes point = none) (hgives : a.gives = none) :
    LockEffect k t a point (k.tryP x t) := by
  unfold Kernel.tryP
  cases ((k.semaphore x).tryP t).2 <;> exact .neither htakes hgives rfl nofun rfl

theorem sect_effect [DecidableEq Tid] [DecidableEq S] [DecidableEq L] [DecidableEq C]
    (he : (threadProgram Tid S L C).enabled a point)
    (hs : (threadProgram Tid S L C).sect a t point k = .ok e) : LockEffect k t a point e := by
  cases a with
  | fork thread =>
    cases hs
    exact .neither rfl rfl rfl (fun u hu => .inl (by rw [List.mem_singleton.mp hu])) rfl
  | finish =>
    cases hs
    exact .neither rfl rfl rfl (by simp) rfl
  | p x =>
    cases hs
    exact tryP_effect x rfl rfl
  | v x =>
    simp only [threadProgram, bind_eq_ok, pure_eq_ok, Except.ok.injEq] at hs
    obtain ⟨⟨k', wakes⟩, hv, rfl⟩ := hs
    exact .neither rfl rfl (Kernel.v_lock hv) (fun u hu => .inr ⟨_, rfl, Kernel.v_wakes hv hu⟩) rfl
  | acquire l => exact .take l rfl rfl (Kernel.acquire_eq hs)
  | release l =>
    simp only [threadProgram, Kernel.release, bind_eq_ok, pure_eq_ok, Except.ok.injEq] at hs
    obtain ⟨⟨lock', wakes⟩, hr, rfl⟩ := hs
    obtain ⟨rfl, rfl⟩ := Lock.release_eq hr
    exact .give l rfl rfl rfl rfl (by simp [ThreadPc.wants])
  | wait c l =>
    simp only [threadProgram, Kernel.wait, Condition.wait] at hs
    split at hs
    · simp only [bind_eq_ok, pure_eq_ok, Except.ok.injEq] at hs
      obtain ⟨-, ⟨⟨lock', wakes⟩, hr, rfl⟩, rfl⟩ := hs
      obtain ⟨rfl, rfl⟩ := Lock.release_eq hr
      exact .give l rfl rfl rfl rfl fun l' hl => (Option.some.inj hl).symm
    · cases hs
  | signal c l =>
    simp only [threadProgram, Kernel.signal, Condition.signal] at hs
    split at hs <;> cases hs
    exact .neither rfl rfl rfl (fun u hu => .inr ⟨_, rfl, List.mem_of_mem_take hu⟩) rfl
  | broadcast c l =>
    simp only [threadProgram, Kernel.broadcast, Condition.broadcast] at hs
    split at hs <;> cases hs
    exact .neither rfl rfl rfl (fun u hu => .inr ⟨_, rfl, hu⟩) rfl
  | resume =>
    cases point with
    | inP x =>
      cases hs
      exact tryP_effect x rfl rfl
    | inAcquire l =>
      cases hs
      exact .take l rfl rfl rfl
    | inWait c l => exact .take l rfl rfl (Kernel.acquire_eq hs)
    | outside | finished => exact he.elim

end Spec

/-! ## One lock -/

/-- The fields of the lock say who holds it, and the data of a free lock are in order. -/
structure Guards (I : D → Prop) (l : L) (lock : Lock Tid) (d : D) (pc : Tid → MonitorPc S L C) : Prop where
  owner : ∀ t, lock.ownerThread = some t ↔ (pc t).held l = true
  available : lock.available = true ↔ lock.ownerThread = none
  wants : ∀ t, (pc t).point.wants = some l → (pc t).held l = false
  data : lock.available = true → I d

section OneLock

variable {I : D → Prop} {l : L} {lock lock' : Lock Tid} {d : D} {pc : Tid → MonitorPc S L C} {t : Tid}
  {next : MonitorPc S L C}

theorem Guards.holds_unique (h : Guards I l lock d pc) {u : Tid} (ht : (pc t).held l = true)
    (hu : (pc u).held l = true) : t = u :=
  Option.some.inj (((h.owner t).mpr ht).symm.trans ((h.owner u).mpr hu))

theorem Guards.not_available (h : Guards I l lock d pc) (ht : (pc t).held l = true) : lock.available = false := by
  rw [Bool.eq_false_iff, Ne, h.available, (h.owner t).mpr ht]
  simp

variable [DecidableEq Tid]

theorem wants_update (h : Guards I l lock d pc) (hnext : next.point.wants = some l → next.held l = false) (u : Tid)
    (hu : (Function.update pc t next u).point.wants = some l) : (Function.update pc t next u).held l = false := by
  by_cases hut : u = t
  · rw [hut, Function.update_self] at hu ⊢
    exact hnext hu
  · rw [Function.update_of_ne hut] at hu ⊢
    exact h.wants u hu

/-- A section of a thread that neither gets the lock nor gives it back. -/
theorem Guards.stays (h : Guards I l lock d pc) (howner : lock'.ownerThread = lock.ownerThread)
    (havailable : lock'.available = lock.available) (hheld : next.held l = (pc t).held l)
    (hwants : next.point.wants = some l → next.held l = false) : Guards I l lock' d (Function.update pc t next) where
  owner u := by
    rw [howner, h.owner]
    by_cases hu : u = t
    · rw [hu, Function.update_self, hheld]
    · rw [Function.update_of_ne hu]
  available := by
    rw [howner, havailable]
    exact h.available
  wants := wants_update h hwants
  data ha := h.data (havailable.symm.trans ha)

theorem Guards.taken (h : Guards I l lock d pc) (hfree : lock.available = true) (hheld : next.held l = true)
    (hwants : next.point.wants ≠ some l) :
    Guards I l { lock with available := false, ownerThread := some t } d (Function.update pc t next) where
  owner u := by
    by_cases hu : u = t
    · simp [hu, hheld]
    · have hno : ¬ (pc u).held l = true := by
        rw [← h.owner, h.available.mp hfree]
        simp
      simp [hu, hno, Ne.symm hu]
  available := by simp
  wants := wants_update h fun hw => absurd hw hwants
  data := nofun

theorem Guards.given (h : Guards I l lock d pc) (ht : (pc t).held l = true) (hI : I d) (hheld : next.held l = false)
    (queue : List Tid) : Guards I l ⟨true, none, queue⟩ d (Function.update pc t next) where
  owner u := by
    by_cases hu : u = t
    · simp [hu, hheld]
    · have hno : ¬ (pc u).held l = true := fun hheld' => hu (h.holds_unique hheld' ht)
      simp [hu, hno]
  available := by simp
  wants := wants_update h fun _ => hheld
  data _ := hI

end OneLock

/-! ## The sections -/

structure MonitorInv (I : L → D → Prop) (pc : Tid → MonitorPc S L C) (blocked : Tid → Bool) (o : Monitor Tid S L C D) :
    Prop where
  kernel : KernelInv (fun t => (pc t).point) blocked o.kernel
  guards : ∀ l, Guards (I l) l (o.kernel.lock l) (o.data l) pc

section Sections

variable {I : L → D → Prop} {pc : Tid → MonitorPc S L C} {blocked : Tid → Bool} {o : Monitor Tid S L C D} {t : Tid}
  {a : ThreadAct Tid S L C} {e : ThreadEffect Tid S L C} {l : L}

theorem heldAfter_other [DecidableEq L] {p : MonitorPc S L C} (hgives : a.gives ≠ some l)
    (htakes : a.takes p.point ≠ some l) (next : ThreadPc S L C) : p.heldAfter a next l = p.held l := by
  unfold MonitorPc.heldAfter
  rw [if_neg hgives, if_neg fun h => htakes h.1]

/-- A pass through the loop of `Acquire`. -/
theorem MonitorInv.take [DecidableEq Tid] [DecidableEq L] (h : MonitorInv I pc blocked o) {l₀ : L}
    (hgives : a.gives = none) (htakes : a.takes (pc t).point = some l₀) (ht : (pc t).held l₀ = false) (l : L) :
    Guards (I l) l ((o.kernel.tryAcquire l₀ t).obj.lock l) (o.data l) (Function.update pc t
      ⟨(o.kernel.tryAcquire l₀ t).pc, (pc t).heldAfter a (o.kernel.tryAcquire l₀ t).pc⟩) := by
  cases hfree : (o.kernel.lock l₀).available with
  | true =>
    have he : o.kernel.tryAcquire l₀ t = { obj := o.kernel.setLock l₀ { o.kernel.lock l₀ with
        available := false, ownerThread := some t }, pc := .outside } := by
      simp [Kernel.tryAcquire, Lock.tryAcquire, hfree, Kernel.tested]
    rw [he]
    by_cases hl : l = l₀
    · subst hl
      have hguards : Guards _ l _ (o.data l) (Function.update pc t ⟨.outside, (pc t).heldAfter a .outside⟩) :=
        (h.guards l).taken hfree (by simp [MonitorPc.heldAfter, hgives, htakes, ThreadPc.isOutside])
          (by simp [ThreadPc.wants])
      simpa [Kernel.setLock] using hguards
    · have hother : Guards _ l (o.kernel.lock l) (o.data l)
          (Function.update pc t ⟨.outside, (pc t).heldAfter a .outside⟩) := (h.guards l).stays rfl rfl
        (heldAfter_other (by simp [hgives]) (by simpa [htakes] using Ne.symm hl) _) (by simp [ThreadPc.wants])
      simpa [Kernel.setLock, hl] using hother
  | false =>
    have he : o.kernel.tryAcquire l₀ t = { obj := o.kernel.setLock l₀ { o.kernel.lock l₀ with
        queue := (o.kernel.lock l₀).queue ++ [t] }, pc := .inAcquire l₀, sleeps := true } := by
      simp [Kernel.tryAcquire, Lock.tryAcquire, hfree, Kernel.tested]
    have hheld : (pc t).heldAfter a (.inAcquire l₀) l = (pc t).held l := by
      simp [MonitorPc.heldAfter, hgives, ThreadPc.isOutside]
    rw [he]
    refine (h.guards l).stays ?_ ?_ hheld fun hwants => ?_
    · by_cases hl : l = l₀ <;> simp [Kernel.setLock, hl]
    · by_cases hl : l = l₀ <;> simp [Kernel.setLock, hl]
    · cases hwants
      exact hheld.trans ht

/-- Every call of a thread that keeps to the discipline leaves the locks in order. -/
theorem MonitorInv.call [DecidableEq Tid] [DecidableEq S] [DecidableEq L] [DecidableEq C]
    (h : MonitorInv I pc blocked o) (he : (threadProgram Tid S L C).enabled a (pc t).point)
    (hd : monitorDiscipline I (.call a) t (pc t) o)
    (hs : (threadProgram Tid S L C).sect a t (pc t).point o.kernel = .ok e) (l : L) :
    Guards (I l) l (e.obj.lock l) (o.data l) (Function.update pc t ⟨e.pc, (pc t).heldAfter a e.pc⟩) := by
  cases sect_effect he hs with
  | take l₀ htakes hgives heq =>
    subst heq
    refine h.take hgives htakes ?_ l
    cases a with
    | acquire l' =>
      cases htakes
      exact hd
    | resume => exact (h.guards l₀).wants t htakes
    | _ => cases htakes
  | give l₀ htakes hgives hlock _ hnext =>
    obtain ⟨ht, hI⟩ : (pc t).held l₀ = true ∧ I l₀ (o.data l₀) := by
      cases a with
      | release | wait =>
        cases hgives
        exact hd
      | _ => cases hgives
    rw [hlock]
    by_cases hl : l = l₀
    · subst hl
      rw [Function.update_self]
      exact (h.guards l).given ht hI (if_pos hgives) _
    · rw [Function.update_of_ne hl]
      exact (h.guards l).stays rfl rfl (heldAfter_other (by simpa [hgives] using Ne.symm hl) (by simp [htakes]) _)
        fun hwants => absurd (hnext l hwants) hl
  | neither htakes hgives hlock _ hnext =>
    rw [hlock]
    refine (h.guards l).stays rfl rfl (heldAfter_other (by simp [hgives]) (by simp [htakes]) _) fun hwants => ?_
    cases hnext.symm.trans hwants

end Sections

/-! ## Runs -/

section Runs

variable {I : L → D → Prop} {pc : Tid → MonitorPc S L C} {blocked : Tid → Bool} {o : Monitor Tid S L C D} {t : Tid}
  {s s' : MonitorState Tid S L C D}

theorem point_update [DecidableEq Tid] (next : MonitorPc S L C) :
    (fun u => (Function.update pc t next u).point) = Function.update (fun u => (pc u).point) t next.point := by
  funext u
  by_cases hu : u = t <;> simp [hu]

theorem monitorStart_inv [DecidableEq Tid] (h : MonitorStart I s) : Placed s ∧ MonitorInv I s.pc s.blocked s.obj := by
  obtain ⟨hplaced, hkernel⟩ := threadStart_inv h.kernel
  refine ⟨⟨hplaced.nodup, hplaced.mem_iff, hplaced.running⟩, hkernel, fun l => ?_⟩
  have hlock : s.obj.kernel.lock l = Lock.new := h.kernel.locks l
  rw [hlock]
  exact ⟨fun t => by simp [Lock.new, h.held], by simp [Lock.new], fun t _ => h.held t l, fun _ => h.data l⟩

theorem available_of_outside [DecidableEq L] {k : Kernel Tid S L C} {l : L}
    (h : (k.tryAcquire l t).pc.isOutside = true) : (k.lock l).available = true := by
  cases hbusy : (k.lock l).available with
  | true => rfl
  | false => simp [Kernel.tryAcquire, Lock.tryAcquire, hbusy, Kernel.tested, ThreadPc.isOutside] at h

/-- The holder of a lock changes the data. -/
theorem MonitorInv.change [DecidableEq L] (h : MonitorInv I pc blocked o) {l : L} (ht : (pc t).held l = true)
    (f : D → D) : MonitorInv I pc blocked { o with data := Function.update o.data l (f (o.data l)) } := by
  refine ⟨h.kernel, fun l' => ?_⟩
  by_cases hl : l' = l
  · subst hl
    have hbusy := (h.guards l').not_available ht
    obtain ⟨howner, havailable, hwants, -⟩ := h.guards l'
    exact ⟨howner, havailable, hwants, fun ha => nomatch hbusy.symm.trans ha⟩
  · simpa [hl] using h.guards l'

variable [DecidableEq Tid] [DecidableEq S] [DecidableEq L] [DecidableEq C]

theorem monitorProgram_stable : Stable (monitorProgram Tid S L C D) (monitorDiscipline I) (MonitorInv I) where
  exec {pc blocked o a t e} hinv hb he hd hs := by
    cases a with
    | call a =>
      simp only [monitorProgram, bind_eq_ok, pure_eq_ok, Except.ok.injEq] at hs
      obtain ⟨e, hs, rfl⟩ := hs
      obtain ⟨hnd, hw, hkernel⟩ := threadProgram_stable.exec hinv.kernel hb he (forksOnce_of_discipline hd) hs
      refine ⟨hnd, hw, ?_, hinv.call he hd hs⟩
      rw [point_update]
      exact hkernel
    | change l f =>
      cases hs
      refine ⟨List.nodup_nil, by simp, ?_⟩
      rw [blockedAfter_awake _ _ rfl rfl, Function.update_eq_self]
      exact hinv.change hd f
  interrupt {pc blocked o x o' wakes} hinv hs := by
    simp only [monitorProgram, bind_eq_ok, pure_eq_ok, Except.ok.injEq, Prod.mk.injEq] at hs
    obtain ⟨⟨k, wakes⟩, hv, rfl, rfl⟩ := hs
    obtain ⟨hnd, hw, hkernel⟩ := threadProgram_stable.interrupt hinv.kernel hv
    refine ⟨hnd, hw, hkernel, fun l => ?_⟩
    rw [Kernel.v_lock hv]
    exact hinv.guards l

/-- A thread gets a lock only when it is free, and finds the data as the last holder left them. -/
theorem MonitorInv.entered (h : MonitorInv I pc blocked o) {act : MonitorAct Tid S L C D}
    {e : Effect Tid (MonitorPc S L C) (Monitor Tid S L C D)} (he : (monitorProgram Tid S L C D).enabled act (pc t))
    (hs : (monitorProgram Tid S L C D).sect act t (pc t) o = .ok e) {l : L} (hbefore : (pc t).held l = false)
    (hafter : e.pc.held l = true) : I l (e.obj.data l) := by
  cases act with
  | change l' f =>
    cases hs
    cases hbefore.symm.trans hafter
  | call a =>
    simp only [monitorProgram, bind_eq_ok, pure_eq_ok, Except.ok.injEq] at hs
    obtain ⟨e, hs, rfl⟩ := hs
    have htakes : a.takes (pc t).point = some l ∧ e.pc.isOutside = true := by
      by_contra hno
      simp [Monitor.after, MonitorPc.heldAfter, hno, hbefore] at hafter
    cases sect_effect he hs with
    | take l' htakes' _ heq =>
      subst heq
      cases htakes.1.symm.trans htakes'
      exact (h.guards l).data (available_of_outside htakes.2)
    | give _ hnone => cases htakes.1.symm.trans hnone
    | neither hnone => cases htakes.1.symm.trans hnone

/-- The assertions hold. -/
theorem MonitorInv.returns (h : MonitorInv I pc blocked o) {act : MonitorAct Tid S L C D}
    (he : (monitorProgram Tid S L C D).enabled act (pc t)) (hd : monitorDiscipline I act t (pc t) o)
    (hv : ∀ x, act ≠ .call (.v x)) : Returns ((monitorProgram Tid S L C D).sect act t (pc t) o) := by
  have hacquire : ∀ l, (pc t).held l = false → Returns (o.kernel.acquire l t) := by
    intro l hl
    have hno : (o.kernel.lock l).ownerThread ≠ some t := by
      rw [Ne, (h.guards l).owner, hl]
      simp
    unfold Kernel.acquire Lock.acquire
    rw [if_neg hno]
    exact returns_ok _
  have hheld : ∀ l, (pc t).held l = true → (o.kernel.lock l).isHeldByCurrentThread t = true := by
    intro l hl
    simp [Lock.isHeldByCurrentThread, ((h.guards l).owner t).mpr hl]
  have hrelease : ∀ l, (pc t).held l = true → Returns ((o.kernel.lock l).release t) := by
    intro l hl
    unfold Lock.release
    rw [if_pos (Or.inr (((h.guards l).owner t).mpr hl))]
    exact returns_ok _
  cases act with
  | change l f => exact returns_ok _
  | call a =>
    suffices hcall : Returns ((threadProgram Tid S L C).sect a t (pc t).point o.kernel) by
      obtain ⟨e, he⟩ := hcall
      exact returns_bind.mpr ⟨e, he, returns_ok _⟩
    cases a with
    | v x => exact absurd rfl (hv x)
    | acquire l => exact hacquire l hd
    | release l =>
      obtain ⟨r, hr⟩ := hrelease l hd.1
      exact returns_bind.mpr ⟨r, hr, returns_ok _⟩
    | wait c l =>
      obtain ⟨r, hr⟩ := hrelease l hd.1
      simp only [threadProgram, Kernel.wait, Condition.wait, if_pos (hheld l hd.1), hr]
      exact returns_ok _
    | signal c l =>
      simp only [threadProgram, Kernel.signal, Condition.signal, if_pos (hheld l hd)]
      exact returns_ok _
    | broadcast c l =>
      simp only [threadProgram, Kernel.broadcast, Condition.broadcast, if_pos (hheld l hd)]
      exact returns_ok _
    | resume =>
      cases hpc : (pc t).point with
      | inWait c l => exact hacquire l ((h.guards l).wants t (by rw [hpc]; rfl))
      | _ => exact returns_ok _
    | _ => exact returns_ok _

/-- The monitor rule. At most one thread holds a lock, and the data of a lock that nobody holds satisfy its invariant,
so they do whenever a thread returns from `Acquire` or `Wait`. No assertion of the locks and conditions fails. -/
theorem monitor_rule (hs : MonitorReaches I s) :
    (∀ l t u, (s.pc t).held l = true → (s.pc u).held l = true → t = u) ∧
    (∀ l, (∀ t, (s.pc t).held l = false) → I l (s.obj.data l)) ∧
    (∀ act s', Step (monitorProgram Tid S L C D) s (.exec act) s' → ∀ l, (s.pc s.current).held l = false →
      (s'.pc s.current).held l = true → I l (s'.obj.data l)) ∧
    ∀ act, (monitorProgram Tid S L C D).enabled act (s.pc s.current) →
      monitorDiscipline I act s.current (s.pc s.current) s.obj → (∀ x, act ≠ .call (.v x)) →
      Returns ((monitorProgram Tid S L C D).sect act s.current (s.pc s.current) s.obj) := by
  obtain ⟨-, hinv⟩ := monitorProgram_stable.run (fun _ h => monitorStart_inv h) hs
  refine ⟨fun l t u ht hu => (hinv.guards l).holds_unique ht hu, fun l hnobody => (hinv.guards l).data ?_,
    fun act s' hstep l hbefore hafter => ?_, fun act he hd hv => hinv.returns he hd hv⟩
  · rw [(hinv.guards l).available, Option.eq_none_iff_forall_ne_some]
    intro t ht
    have hheld := ((hinv.guards l).owner t).mp ht
    rw [hnobody t] at hheld
    cases hheld
  · cases hstep with
    | exec _ he hsect =>
      refine hinv.entered he hsect hbefore ?_
      simpa [State.perform] using hafter

/-- The main thread, a thread that has not been forked, and a lock for an even number. -/
def monitorMain : MonitorState (Fin 2) Empty Unit Unit ℕ where
  current := 0
  readyList := []
  status t := if t = 0 then .running else .blocked
  pc _ := ⟨.outside, fun _ => false⟩
  obj := ⟨⟨fun t => t = 0, Empty.elim, fun _ => Lock.new, fun _ => ⟨[]⟩⟩, fun _ => 0⟩

theorem monitorMain_start : MonitorStart (fun _ d => d % 2 = 0) monitorMain where
  kernel := ⟨by simp [monitorMain], fun _ => rfl, rfl, fun _ => rfl, fun x => x.elim, fun _ => rfl, fun _ => rfl⟩
  held _ _ := rfl
  data _ := rfl

/-- The main thread takes the lock and changes the number. -/
theorem monitor_rule_main : ∃ s : MonitorState (Fin 2) Empty Unit Unit ℕ, MonitorReaches (fun _ d => d % 2 = 0) s ∧
    (s.pc 0).held () = true ∧ s.obj.data () = 1 ∧ ∀ l t u, (s.pc t).held l = true → (s.pc u).held l = true → t = u := by
  have h0 : MonitorReaches (fun _ d => d % 2 = 0) monitorMain := .start monitorMain_start
  have h1 := h0.next (l := .exec (.call (.acquire ()))) (by rintro a ha; cases ha; rfl) (Step.exec rfl trivial rfl)
  have h2 := h1.next (l := .exec (.change () (· + 1))) (by rintro a ha; cases ha; rfl) (Step.exec rfl rfl rfl)
  exact ⟨_, h2, rfl, rfl, (monitor_rule h2).1⟩

end Runs

/-! ## Waiting for a condition -/

section Waiting

variable {pc : Tid → ThreadPc S L C} {blocked : Tid → Bool} {k : Kernel Tid S L C} {t u : Tid} {c : C} {l : L}
  {s s' : KernelState Tid S L C}

/-- The states of the runs of the thread package; its clients call it in any order and with any arguments, and fork each
thread once. -/
abbrev ThreadReaches [DecidableEq Tid] [DecidableEq S] [DecidableEq L] [DecidableEq C]
    (s : KernelState Tid S L C) : Prop :=
  Reachable ThreadStart (Step (threadProgram Tid S L C)) (Disciplined forksOnce) s

/-- A step that wakes `t` if it sleeps in `Wait` on condition `c`. -/
def Signals (c : C) (t : Tid) (s : KernelState Tid S L C) :
    Label Tid (ThreadAct Tid S L C) S → Prop
  | .exec (.broadcast c' _) => c' = c
  | .exec (.signal c' _) => c' = c ∧ (s.obj.condition c).queue.head? = some t
  | _ => False

theorem mem_take_one {q : List Tid} {u : Tid} : u ∈ q.take 1 ↔ q.head? = some u := by
  cases q <;> simp [eq_comm]

/-- A thread asleep in `Wait` is on the queue of its condition only. -/
theorem KernelInv.waits_for (h : KernelInv pc blocked k) (hu : pc u = .inWait c l) {q : WaitQueue S L C}
    (hq : u ∈ k.queue q) : q = .condition c := by
  have hwaits := ((h.queue q u).mp hq).1
  simp only [hu, ThreadPc.waitsOn, Option.some.injEq] at hwaits
  exact hwaits.symm

variable [DecidableEq Tid] [DecidableEq S] [DecidableEq L] [DecidableEq C]

/-- Which call wakes a thread that is asleep in `Wait`. -/
theorem KernelInv.wakes_waiter (h : KernelInv pc blocked k) {a : ThreadAct Tid S L C} {e : ThreadEffect Tid S L C}
    (he : (threadProgram Tid S L C).enabled a (pc t)) (hd : forksOnce a t (pc t) k)
    (hs : (threadProgram Tid S L C).sect a t (pc t) k = .ok e) (hu : pc u = .inWait c l) (hb : blocked u = true) :
    u ∈ e.wakes ↔ (∃ l', a = .broadcast c l') ∨ ∃ l', a = .signal c l' ∧ (k.condition c).queue.head? = some u := by
  have hqueue : u ∈ (k.condition c).queue := (h.queue (.condition c) u).mpr ⟨by rw [hu]; rfl, hb⟩
  have hbroadcast : ∀ l', a = .broadcast c l' → e.wakes = (k.condition c).queue := by
    rintro l' rfl
    simp only [threadProgram, Kernel.broadcast, Condition.broadcast] at hs
    split at hs <;> cases hs
    rfl
  have hsignal : ∀ l', a = .signal c l' → e.wakes = (k.condition c).queue.take 1 := by
    rintro l' rfl
    simp only [threadProgram, Kernel.signal, Condition.signal] at hs
    split at hs <;> cases hs
    rfl
  constructor
  · intro hw
    cases sect_effect he hs with
    | take l' _ _ heq =>
      rw [heq] at hw
      unfold Kernel.tryAcquire Kernel.tested at hw
      split at hw <;> cases hw
    | give l' _ _ _ hwakes =>
      rw [hwakes] at hw
      cases h.waits_for hu (q := .lock l') (List.mem_of_mem_take hw)
    | neither _ _ _ hwakes =>
      rcases hwakes u hw with rfl | ⟨q, hq, hmem⟩
      · have houtside : pc u = .outside := (h.unforked u hd).1
        cases houtside.symm.trans hu
      · cases h.waits_for hu hmem
        cases a <;> cases hq
        · rw [hsignal _ rfl] at hw
          exact .inr ⟨_, rfl, mem_take_one.mp hw⟩
        · exact .inl ⟨_, rfl⟩
  · rintro (⟨l', ha⟩ | ⟨l', ha, hhead⟩)
    · rw [hbroadcast l' ha]
      exact hqueue
    · rw [hsignal l' ha]
      exact mem_take_one.mpr hhead

/-- A thread asleep in `Wait` stays there until a step that signals it, which makes it ready. -/
theorem KernelInv.waiter (hplaced : Placed s) (h : KernelInv s.pc s.blocked s.obj)
    {label : Label Tid (ThreadAct Tid S L C) S} (hd : Disciplined forksOnce s label)
    (hstep : Step (threadProgram Tid S L C) s label s') (ht : s.pc t = .inWait c l) (hb : s.status t = .blocked) :
    s'.pc t = s.pc t ∧ (Signals c t s label → s'.status t = .ready) ∧
      (¬ Signals c t s label → s'.status t = .blocked) := by
  have hblocked : s.blocked t = true := by simp [State.blocked, hb]
  cases hstep with
  | @exec a e hr he hsect =>
    have hne : t ≠ s.current := by
      rintro rfl
      cases hb.symm.trans hr
    have hstatus : (s.perform e).status t = if t ∈ e.wakes then .ready else .blocked := by
      simp [State.perform, hne, hb]
    have hwakes : t ∈ e.wakes ↔ Signals c t s (.exec a) := by
      refine (h.wakes_waiter he (hd _ rfl) hsect ht hblocked).trans ?_
      cases a <;> simp [Signals]
    refine ⟨by simp [State.perform, hne], ?_⟩
    rw [hstatus, ← hwakes]
    exact ⟨fun hw => if_pos hw, fun hw => if_neg hw⟩
  | @yield u hr hmem =>
    have hcurrent : t ≠ s.current := by
      rintro rfl
      cases hb.symm.trans hr
    have htarget : t ≠ u := by
      rintro rfl
      cases hb.symm.trans ((hplaced.mem_iff t).mp hmem)
    exact ⟨rfl, fun hsignals => hsignals.elim, fun _ => by simp [State.yieldTo, hcurrent, htarget, hb]⟩
  | @dispatch u hr hmem =>
    have htarget : t ≠ u := by
      rintro rfl
      cases hb.symm.trans ((hplaced.mem_iff t).mp hmem)
    exact ⟨rfl, fun hsignals => hsignals.elim, fun _ => by simp [State.dispatchTo, htarget, hb]⟩
  | @interrupt x _ wakes hv =>
    have hmem : t ∉ wakes := by
      intro hw
      cases h.waits_for ht (Kernel.v_wakes hv hw)
    exact ⟨rfl, fun hsignals => hsignals.elim, fun _ => by simp [State.wake, hmem, hb]⟩

/-- A thread that has called `Wait` does not return before its condition is signalled: in every run, it sleeps until a
`Broadcast`, or a `Signal` when it is the first in the queue, and each of these wakes it. -/
theorem wait_until_signalled (hs : ThreadReaches s) (ht : s.pc t = .inWait c l) (hb : s.status t = .blocked)
    (hrun : Reachable (fun s₀ => s₀ = s) (Step (threadProgram Tid S L C))
      (fun s label => Disciplined forksOnce s label ∧ ¬ Signals c t s label) s') :
    s'.pc t = s.pc t ∧ s'.status t = .blocked ∧
    ∀ label s'', Disciplined forksOnce s' label → Step (threadProgram Tid S L C) s' label s'' →
      (s''.status t = .ready ↔ Signals c t s' label) := by
  have hasleep : ThreadReaches s' ∧ s'.pc t = s.pc t ∧ s'.status t = .blocked := by
    refine hrun.invariant (fun s' => ThreadReaches s' ∧ s'.pc t = s.pc t ∧ s'.status t = .blocked) ?_ ?_
    · rintro s₀ rfl
      exact ⟨hs, rfl, hb⟩
    · rintro s₁ label s₂ ⟨hreach, hpc, hblocked⟩ ⟨hd, hsignals⟩ hstep
      obtain ⟨hplaced, hinv⟩ := threadProgram_stable.run (fun _ h => threadStart_inv h) hreach
      obtain ⟨hpc', -, hstays⟩ := hinv.waiter hplaced hd hstep (by rw [hpc, ht]) hblocked
      exact ⟨hreach.next hd hstep, hpc'.trans hpc, hstays hsignals⟩
  obtain ⟨hreach, hpc, hblocked⟩ := hasleep
  refine ⟨hpc, hblocked, fun label s'' hd hstep => ?_⟩
  obtain ⟨hplaced, hinv⟩ := threadProgram_stable.run (fun _ h => threadStart_inv h) hreach
  obtain ⟨-, hwakes, hstays⟩ := hinv.waiter hplaced hd hstep (by rw [hpc, ht]) hblocked
  refine ⟨fun hready => ?_, hwakes⟩
  by_contra hsignals
  cases (hstays hsignals).symm.trans hready

end Waiting

/-- The main thread waits, and the thread that it has forked takes the lock and signals. -/
theorem wait_until_signalled_woken :
    ∃ s s' s'' : State (Fin 2) (ThreadPc Empty Unit Unit) (Kernel (Fin 2) Empty Unit Unit),
      ThreadReaches s ∧ s.pc 0 = .inWait () () ∧ s.status 0 = .blocked ∧
      Reachable (fun s₀ => s₀ = s) (Step (threadProgram (Fin 2) Empty Unit Unit))
        (fun s label => Disciplined forksOnce s label ∧ ¬ Signals () 0 s label) s' ∧
      Step (threadProgram (Fin 2) Empty Unit Unit) s' (.exec (.signal () ())) s'' ∧
      s'.status 0 = .blocked ∧ s''.status 0 = .ready := by
  have hd : ∀ s (a : ThreadAct (Fin 2) Empty Unit Unit), (∀ u, a ≠ .fork u) →
      Disciplined forksOnce s (.exec a : Label (Fin 2) _ Empty) := by
    rintro s a hno _ ha
    cases ha
    cases a with
    | fork u => exact absurd rfl (hno u)
    | _ => trivial
  have h0 : ThreadReaches _ := .start monitorMain_start.kernel
  have h1 := h0.next (by rintro a ha; cases ha; rfl) (Step.exec (a := ThreadAct.fork 1) rfl trivial rfl)
  have h2 := h1.next (hd _ _ (by simp)) (Step.exec (a := ThreadAct.acquire ()) rfl trivial rfl)
  have h3 := h2.next (hd _ _ (by simp)) (Step.exec (a := ThreadAct.wait () ()) rfl trivial rfl)
  have hstay : ∀ {s}, ThreadReaches s → Reachable (fun s₀ => s₀ = s) (Step (threadProgram (Fin 2) Empty Unit Unit))
      (fun s label => Disciplined forksOnce s label ∧ ¬ Signals () 0 s label) s := fun _ => .start rfl
  have hdispatch := (hstay h3).next (l := .dispatch 1) ⟨fun _ ha => (nomatch ha), id⟩
    (Step.dispatch (by decide) (by decide))
  have hrun := hdispatch.next ⟨hd _ _ (by simp), id⟩ (Step.exec (a := ThreadAct.acquire ()) rfl trivial rfl)
  obtain ⟨-, hasleep, hwakes⟩ := wait_until_signalled h3 rfl rfl hrun
  have hwoken := hwakes (.exec (.signal () ())) _ (hd _ _ (by simp)) (.exec rfl trivial rfl)
  exact ⟨_, _, _, h3, rfl, rfl, hrun, .exec rfl trivial rfl, hasleep, hwoken.mpr ⟨rfl, rfl⟩⟩

end Nachos
