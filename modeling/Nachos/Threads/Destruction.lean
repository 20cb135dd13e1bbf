import Nachos.Threads.ThreadRun

/-! # How finished threads are destroyed (`Thread::Finish`, `Scheduler::Run`)

A thread cannot delete itself, so `Finish` leaves it in `threadToBeDestroyed` and the next thread deletes it when
it comes back from `SWITCH`, at the end of its own call of `Run`. A thread that is dispatched for the first time
does not come back from `SWITCH`: it begins in `ThreadRoot`. The threads are those of `ThreadRun`; what is added
is which of them have begun, the variable, and which threads have finished and have been deleted, in order. -/
set_option autoImplicit false

namespace Nachos
open Execution Uniprocessor

variable {Tid S L C : Type}

structure Reaper (Tid : Type) where
  begun : Tid → Bool
  threadToBeDestroyed : Option Tid
  finished : List Tid
  deleted : List Tid

namespace Reaper

variable [DecidableEq Tid]

/-- `Thread::Finish`, up to its `Sleep`. -/
def finish (r : Reaper Tid) (currentThread : Tid) : Reaper Tid :=
  { r with threadToBeDestroyed := some currentThread, finished := r.finished ++ [currentThread] }

/-- `Scheduler::Run` after `SWITCH`, or `ThreadRoot`; the destructor asserts that a thread does not delete itself. -/
def run (r : Reaper Tid) (nextThread : Tid) : Call (Reaper Tid) :=
  if r.begun nextThread then
    match r.threadToBeDestroyed with
    | none => .ok r
    | some thread =>
      if thread = nextThread then .error .assertFailed
      else .ok { r with threadToBeDestroyed := none, deleted := r.deleted ++ [thread] }
  else .ok { r with begun := Function.update r.begun nextThread true }

end Reaper

/-! ## The schedule -/

/-- The thread to which a step gives the processor. -/
def dispatched : Label Tid (ThreadAct Tid S L C) S → Option Tid
  | .yield t | .dispatch t => some t
  | _ => none

def finishes : Label Tid (ThreadAct Tid S L C) S → Bool
  | .exec .finish => true
  | _ => false

/-- A thread that has not run before; the earlier steps are given latest first. -/
def New (main : Tid) (earlier : List (Label Tid (ThreadAct Tid S L C) S)) (t : Tid) : Prop :=
  t ≠ main ∧ ∀ l ∈ earlier, dispatched l ≠ some t

/-- A thread has finished, and since then the processor was only given to new threads. -/
def OnlyNew (main : Tid) : List (Label Tid (ThreadAct Tid S L C) S) → Prop
  | [] => False
  | l :: earlier =>
    if finishes l then True
    else
      match dispatched l with
      | some t => OnlyNew main earlier ∧ New main earlier t
      | none => OnlyNew main earlier

/-- Between a `Finish` and the next one the processor is given to a thread that has run before. -/
def ResumesBetween (main : Tid) (ls : List (Label Tid (ThreadAct Tid S L C) S)) : Prop :=
  ∀ before after, ls = before ++ .exec .finish :: after → ¬ OnlyNew main before.reverse

variable {main : Tid} {ls : List (Label Tid (ThreadAct Tid S L C) S)} {l : Label Tid (ThreadAct Tid S L C) S} {t u : Tid}

theorem new_cons (hl : dispatched l = some t) : New main (l :: ls) u ↔ New main ls u ∧ u ≠ t := by
  simp only [New, List.forall_mem_cons, hl, ne_eq, Option.some.injEq]
  tauto

theorem ResumesBetween.of_snoc (h : ResumesBetween main (ls ++ [l])) :
    ResumesBetween main ls ∧ (l = .exec .finish → ¬ OnlyNew main ls.reverse) := by
  refine ⟨fun before after hls => ?_, fun hl => ?_⟩
  · exact h before (after ++ [l]) (by rw [hls]; simp)
  · exact h ls [] (by rw [hl])

/-! ## Runs -/

section Runs
variable [DecidableEq Tid] [DecidableEq S] [DecidableEq L] [DecidableEq C]

def Reaper.after (r : Reaper Tid) (currentThread : Tid) (l : Label Tid (ThreadAct Tid S L C) S) : Call (Reaper Tid) :=
  if finishes l then .ok (r.finish currentThread)
  else
    match dispatched l with
    | some nextThread => r.run nextThread
    | none => .ok r

structure ThreadSystem (Tid S L C : Type) where
  state : KernelState Tid S L C
  reaper : Reaper Tid

inductive ThreadStep : ThreadSystem Tid S L C → Label Tid (ThreadAct Tid S L C) S → ThreadSystem Tid S L C → Prop
  | step {x : ThreadSystem Tid S L C} {l : Label Tid (ThreadAct Tid S L C) S}
      {s : KernelState Tid S L C} {r : Reaper Tid} (ha : Disciplined forksOnce x.state l)
      (hs : Step (threadProgram Tid S L C) x.state l s) (hr : x.reaper.after x.state.current l = .ok r) :
      ThreadStep x l ⟨s, r⟩

structure ThreadsStart (main : Tid) (x : ThreadSystem Tid S L C) : Prop where
  state : ThreadStart x.state
  current : x.state.current = main
  reaper : x.reaper = ⟨fun t => t = main, none, [], []⟩

/-- A run of the threads, with its steps. -/
abbrev ThreadTrace (main : Tid) (ls : List (Label Tid (ThreadAct Tid S L C) S)) (x : ThreadSystem Tid S L C) : Prop :=
  Trace (ThreadsStart main) ThreadStep ls x

variable {x : ThreadSystem Tid S L C} {r r' : Reaper Tid}

theorem ThreadTrace.reachable (h : ThreadTrace main ls x) :
    Reachable ThreadStart (Step (threadProgram Tid S L C)) (Disciplined forksOnce) x.state := by
  induction h with
  | start hi => exact .start hi.state
  | next _ hstep ih =>
    cases hstep with
    | step ha hs _ => exact .next ih ha hs

/-! ## What a step does to the reaper -/

theorem run_eq_ok (h : r.run t = .ok r') : r'.finished = r.finished ∧
    (∀ u, r'.begun u = true ↔ r.begun u = true ∨ u = t) ∧
    ((r.begun t = true ∧ r'.threadToBeDestroyed = none ∧
        r'.deleted = r.deleted ++ r.threadToBeDestroyed.toList) ∨
      (r.begun t = false ∧ r'.threadToBeDestroyed = r.threadToBeDestroyed ∧ r'.deleted = r.deleted)) := by
  unfold Reaper.run at h
  cases hbegun : r.begun t with
  | true =>
    have hsame : ∀ u, r.begun u = true ↔ r.begun u = true ∨ u = t := by
      intro u
      constructor
      · exact Or.inl
      · rintro (hu | rfl)
        · exact hu
        · exact hbegun
    rw [if_pos hbegun] at h
    cases hslot : r.threadToBeDestroyed with
    | none =>
      rw [hslot] at h
      cases h
      exact ⟨rfl, hsame, Or.inl ⟨rfl, hslot, by simp⟩⟩
    | some thread =>
      rw [hslot] at h
      dsimp only at h
      split at h
      · cases h
      · cases h
        exact ⟨rfl, hsame, Or.inl ⟨rfl, rfl, rfl⟩⟩
  | false =>
    rw [if_neg (by simp [hbegun])] at h
    cases h
    refine ⟨rfl, fun u => ?_, Or.inr ⟨rfl, rfl, rfl⟩⟩
    by_cases hu : u = t <;> simp [hu]

omit [DecidableEq S] [DecidableEq L] [DecidableEq C] in
/-- A step finishes the running thread, dispatches a thread, or does nothing to the reaper. -/
theorem after_cases {currentThread : Tid} (h : r.after currentThread l = .ok r') :
    (l = .exec .finish ∧ r' = r.finish currentThread) ∨
    (∃ t, (l = .yield t ∨ l = .dispatch t) ∧ r.run t = .ok r') ∨
    (finishes l = false ∧ dispatched l = none ∧ r' = r) := by
  unfold Reaper.after at h
  cases l with
  | exec a =>
    cases a with
    | finish => exact Or.inl ⟨rfl, (Except.ok.inj h).symm⟩
    | _ => exact Or.inr (Or.inr ⟨rfl, rfl, (Except.ok.inj h).symm⟩)
  | yield t => exact Or.inr (Or.inl ⟨t, Or.inl rfl, h⟩)
  | dispatch t => exact Or.inr (Or.inl ⟨t, Or.inr rfl, h⟩)
  | interrupt s => exact Or.inr (Or.inr ⟨rfl, rfl, (Except.ok.inj h).symm⟩)

/-! ## The invariant -/

/-- The reaper after the steps `ls`. -/
structure ReaperInv (main : Tid) (ls : List (Label Tid (ThreadAct Tid S L C) S)) (x : ThreadSystem Tid S L C) : Prop where
  begun : ∀ t, x.reaper.begun t = true ↔ ¬ New main ls.reverse t
  slot : x.reaper.threadToBeDestroyed.isSome = true ↔ OnlyNew main ls.reverse
  pending : ∀ t, x.reaper.threadToBeDestroyed = some t → t ∈ x.reaper.finished
  finished : ∀ t ∈ x.reaper.finished, x.state.pc t = .finished
  nodup : x.reaper.finished.Nodup

/-- A finished thread stays finished. -/
theorem step_finished {s s' : KernelState Tid S L C}
    (hs : Step (threadProgram Tid S L C) s l s') (hpc : s.pc t = .finished) : s'.pc t = .finished := by
  cases hs with
  | @exec a e _ he _ =>
    have ht : t ≠ s.current := by
      rintro rfl
      rw [hpc] at he
      cases a <;> exact he
    simpa [State.perform, ht] using hpc
  | yield _ _ => exact hpc
  | dispatch _ _ => exact hpc
  | interrupt _ => exact hpc

theorem step_finish {s s' : KernelState Tid S L C} (hs : Step (threadProgram Tid S L C) s (.exec .finish) s') :
    s.pc s.current = .outside ∧ s'.pc s.current = .finished := by
  cases hs with
  | exec _ he hsect =>
    cases hsect
    refine ⟨?_, by simp [State.perform]⟩
    cases hpc : s.pc s.current with
    | outside => rfl
    | _ =>
      rw [hpc] at he
      exact he.elim

theorem ReaperInv.step (h : ReaperInv main ls x) {y : ThreadSystem Tid S L C} (hstep : ThreadStep x l y) :
    ReaperInv main (ls ++ [l]) y := by
  cases hstep with
  | @step s r _ hs hr =>
    have hkept : ∀ t ∈ x.reaper.finished, s.pc t = .finished := fun t ht => step_finished hs (h.finished t ht)
    rcases after_cases hr with ⟨rfl, rfl⟩ | ⟨t, hl, hrun⟩ | ⟨hfinishes, hnone, rfl⟩
    · obtain ⟨hout, hpc⟩ := step_finish hs
      refine ⟨fun u => ?_, ?_, fun u hu => ?_, fun u hu => ?_, nodup_snoc h.nodup fun hm => ?_⟩
      · rw [List.reverse_append]
        simpa [Reaper.finish, New, dispatched] using h.begun u
      · rw [List.reverse_append]
        simp [Reaper.finish, OnlyNew, finishes]
      · cases hu
        exact List.mem_append_right _ (List.mem_singleton_self _)
      · rcases List.mem_append.mp hu with hu | hu
        · exact hkept u hu
        · rw [List.mem_singleton.mp hu]
          exact hpc
      · rw [h.finished _ hm] at hout
        cases hout
    · have hdispatched : finishes l = false ∧ dispatched l = some t := by
        rcases hl with rfl | rfl <;> exact ⟨rfl, rfl⟩
      obtain ⟨hfinished, hbegun, hslot⟩ := run_eq_ok hrun
      refine ⟨fun u => ?_, ?_, fun u hu => ?_, fun u hu => hkept u (hfinished ▸ hu), hfinished ▸ h.nodup⟩
      · rw [hbegun, h.begun, List.reverse_append, List.reverse_singleton, List.singleton_append,
          new_cons hdispatched.2]
        tauto
      · rw [List.reverse_append]
        simp only [List.reverse_singleton, List.singleton_append, OnlyNew, hdispatched.1, hdispatched.2,
          Bool.false_eq_true, if_false]
        rcases hslot with ⟨ht, hnone, -⟩ | ⟨ht, hsame, -⟩
        · have hnew := (h.begun t).mp ht
          simp [hnone, hnew]
        · have hnew : New main ls.reverse t := by
            by_contra hnew
            rw [(h.begun t).mpr hnew] at ht
            cases ht
          rw [hsame, h.slot]
          exact (and_iff_left hnew).symm
      · rw [hfinished]
        rcases hslot with ⟨-, hnone, -⟩ | ⟨-, hsame, -⟩
        · rw [hnone] at hu
          cases hu
        · exact h.pending u (hsame ▸ hu)
    · refine ⟨fun u => ?_, ?_, h.pending, hkept, h.nodup⟩
      · rw [List.reverse_append]
        simpa [New, hnone] using h.begun u
      · rw [List.reverse_append]
        simpa [OnlyNew, hfinishes, hnone] using h.slot

omit [DecidableEq S] [DecidableEq L] [DecidableEq C] in
theorem reaperInv_start (h : ThreadsStart main x) : ReaperInv main [] x := by
  refine ⟨fun t => ?_, ?_, fun t ht => ?_, fun t ht => ?_, ?_⟩
  · simp [h.reaper, New]
  · simp [h.reaper, OnlyNew]
  · rw [h.reaper] at ht
    cases ht
  · rw [h.reaper] at ht
    cases ht
  · rw [h.reaper]
    exact List.nodup_nil

theorem ThreadTrace.inv (h : ThreadTrace main ls x) : ReaperInv main ls x := by
  induction h with
  | start hi => exact reaperInv_start hi
  | next _ hstep ih => exact ih.step hstep

/-- A thread on the ready list can be dispatched: it is not the one that is to be destroyed. -/
theorem ThreadTrace.run_returns (h : ThreadTrace main ls x) (ht : t ∈ x.state.readyList) :
    Returns (x.reaper.run t) := by
  obtain ⟨hplaced, hkernel⟩ := threadProgram_stable.run (fun _ hi => threadStart_inv hi) h.reachable
  have hinv := h.inv
  unfold Reaper.run
  split
  · cases hslot : x.reaper.threadToBeDestroyed with
    | none => exact returns_ok _
    | some thread =>
      have hne : thread ≠ t := by
        rintro rfl
        have hblocked := hkernel.finished thread (hinv.finished thread (hinv.pending thread hslot))
        simp [State.blocked, (hplaced.mem_iff thread).mp ht] at hblocked
      dsimp only
      rw [if_neg hne]
      exact returns_ok _
  · exact returns_ok _

/-- If no thread is lost, every finished thread has been deleted, once and in order, except the last one while it
waits for it. -/
theorem ThreadTrace.deleted (h : ThreadTrace main ls x) (hresumes : ResumesBetween main ls) :
    x.reaper.finished = x.reaper.deleted ++ x.reaper.threadToBeDestroyed.toList := by
  induction h with
  | start hi => rw [hi.reaper]; rfl
  | @next ls x y l hx hstep ih =>
    obtain ⟨hbefore, hfinish⟩ := hresumes.of_snoc
    have hsofar := ih hbefore
    cases hstep with
    | @step s r _ hs hr =>
      rcases after_cases hr with ⟨rfl, rfl⟩ | ⟨t, hl, hrun⟩ | ⟨hfinishes, hnone, rfl⟩
      · have hempty : x.reaper.threadToBeDestroyed = none := by
          rw [← Option.not_isSome_iff_eq_none, (ThreadTrace.inv hx).slot]
          exact hfinish rfl
        simp [Reaper.finish, hsofar, hempty]
      · obtain ⟨hfinished, -, hslot⟩ := run_eq_ok hrun
        rcases hslot with ⟨-, hnone, hdeleted⟩ | ⟨-, hsame, hdeleted⟩
        · simp [hfinished, hnone, hdeleted, hsofar]
        · simp [hfinished, hsame, hdeleted, hsofar]
      · exact hsofar

/-- `Finish` overwrites no thread that is to be destroyed exactly if between two calls of it a thread is dispatched
that has run before; then each finished thread is deleted once, before the next one finishes, and in every case
the destructor is not called by the thread itself. -/
theorem finished_deleted_once_iff (h : ThreadTrace main ls x) :
    ((∀ before after y, ls = before ++ .exec .finish :: after → ThreadTrace main before y →
        y.reaper.threadToBeDestroyed = none) ↔ ResumesBetween main ls) ∧
    (ResumesBetween main ls → x.reaper.finished = x.reaper.deleted ++ x.reaper.threadToBeDestroyed.toList ∧
      x.reaper.finished.Nodup) ∧
    ∀ t ∈ x.state.readyList, Returns (x.reaper.run t) := by
  refine ⟨⟨fun hempty before after hls honly => ?_, fun hresumes before after y hls hy => ?_⟩,
    fun hresumes => ⟨h.deleted hresumes, h.inv.nodup⟩, fun t ht => h.run_returns ht⟩
  · obtain ⟨y, hy⟩ := h.front before (.exec .finish :: after) hls
    have hsome := (ThreadTrace.inv hy).slot.mpr honly
    rw [hempty before after y hls hy] at hsome
    cases hsome
  · rw [← Option.not_isSome_iff_eq_none, hy.inv.slot]
    exact hresumes before after hls

end Runs

/-! ## Two runs -/

/-- The main thread and two that have not been forked. -/
def forkerStart (main : Fin 3) : ThreadSystem (Fin 3) Unit Empty Empty where
  state :=
    { current := main
      readyList := []
      status := fun t => if t = main then .running else .blocked
      pc := fun _ => .outside
      obj := ⟨fun t => t = main, fun _ => ⟨0, []⟩, Empty.elim, Empty.elim⟩ }
  reaper := ⟨fun t => t = main, none, [], []⟩

theorem forker_start (main : Fin 3) : ThreadTrace main [] (forkerStart main) :=
  Trace.start ⟨⟨by simp [forkerStart], fun _ => rfl, rfl, fun _ => rfl, fun _ => rfl, fun l => l.elim,
    fun c => c.elim⟩, rfl, rfl⟩

/-- The main thread forks one thread and waits for it; the thread ends with a `V`, and the main thread deletes it. -/
theorem finished_deleted_once_joined : ∃ ls x, ThreadTrace (S := Unit) (L := Empty) (C := Empty) (0 : Fin 3) ls x ∧
    x.reaper.finished = [1] ∧ x.reaper.deleted = [1] ∧ ResumesBetween 0 ls ∧
    ((∀ before after y, ls = before ++ .exec .finish :: after → ThreadTrace 0 before y →
        y.reaper.threadToBeDestroyed = none) ↔ ResumesBetween 0 ls) := by
  have h1 := Trace.next (forker_start 0) (l := .exec (.fork 1))
    (.step (by rintro a ha; cases ha; rfl) (Step.exec rfl trivial rfl) rfl)
  have h2 := Trace.next h1 (l := .exec (.p ()))
    (.step (by rintro a ha; cases ha; trivial) (Step.exec rfl trivial rfl) rfl)
  have h3 := Trace.next h2 (l := .dispatch 1)
    (.step (by rintro a ha; cases ha) (Step.dispatch (by decide) (by decide)) rfl)
  have h4 := Trace.next h3 (l := .exec (.v ()))
    (.step (by rintro a ha; cases ha; trivial) (Step.exec rfl trivial rfl) rfl)
  have h5 := Trace.next h4 (l := .exec .finish)
    (.step (by rintro a ha; cases ha; trivial) (Step.exec rfl trivial rfl) rfl)
  have h6 := Trace.next h5 (l := .dispatch 0)
    (.step (by rintro a ha; cases ha) (Step.dispatch (by decide) (by decide)) rfl)
  refine ⟨_, _, h6, rfl, rfl, fun before after hls => ?_, (finished_deleted_once_iff h6).1⟩
  simp only [List.nil_append, List.cons_append, List.cons_eq_append_iff, List.cons.injEq, Label.exec.injEq,
    reduceCtorEq, false_and, and_false, true_and, List.nil_eq, List.append_eq_nil_iff, exists_const, or_self, or_false,
    ↓existsAndEq, false_or] at hls
  obtain ⟨rfl, -⟩ := hls
  simp [OnlyNew, finishes, dispatched]

/-- The main thread forks two threads and yields. The first finishes, the second is dispatched and finishes too,
and the main thread deletes only the second. -/
theorem finish_overwrites : ∃ ls before y x,
    ThreadTrace (S := Unit) (L := Empty) (C := Empty) (0 : Fin 3) ls x ∧
    ls = before ++ [.exec .finish, .dispatch 0] ∧ ThreadTrace 0 before y ∧
    y.reaper.threadToBeDestroyed = some 1 ∧ x.reaper.finished = [1, 2] ∧ x.reaper.deleted = [2] ∧
    x.reaper.threadToBeDestroyed = none := by
  have h1 := Trace.next (forker_start 0) (l := .exec (.fork 1))
    (.step (by rintro a ha; cases ha; rfl) (Step.exec rfl trivial rfl) rfl)
  have h2 := Trace.next h1 (l := .exec (.fork 2))
    (.step (by rintro a ha; cases ha; rfl) (Step.exec rfl trivial rfl) rfl)
  have h3 := Trace.next h2 (l := .yield 1)
    (.step (by rintro a ha; cases ha) (Step.yield rfl (by decide)) rfl)
  have h4 := Trace.next h3 (l := .exec .finish)
    (.step (by rintro a ha; cases ha; trivial) (Step.exec rfl trivial rfl) rfl)
  have h5 := Trace.next h4 (l := .dispatch 2)
    (.step (by rintro a ha; cases ha) (Step.dispatch (by decide) (by decide)) rfl)
  have h6 := Trace.next h5 (l := .exec .finish)
    (.step (by rintro a ha; cases ha; trivial) (Step.exec rfl trivial rfl) rfl)
  have h7 := Trace.next h6 (l := .dispatch 0)
    (.step (by rintro a ha; cases ha) (Step.dispatch (by decide) (by decide)) rfl)
  exact ⟨_, _, _, _, h7, rfl, h5, rfl, rfl, rfl, rfl⟩

end Nachos
