import Nachos.Threads.Synch
import Mathlib.Data.Fintype.Basic

/-! # Threads and interrupt handlers that share a semaphore

The calls that have completed are read off what has happened: a section of `P` after which its caller is out of
the loop, and a section of `V` or a handler that calls it. A thread that `V` has removed from the queue tests
`value` again when it runs; while threads sleep in the queue, `value` never exceeds the number of those on their
way. -/
set_option autoImplicit false

namespace Nachos
open Execution Uniprocessor

variable {Tid : Type}

inductive SemAct where
  | p
  | v
  deriving DecidableEq, Repr

/-- The caller of `P` returns, or sleeps in the loop. -/
def passed (r : Semaphore Tid × Bool) : Effect Tid Bool (Semaphore Tid) :=
  if r.2 then { obj := r.1, pc := false } else { obj := r.1, pc := true, sleeps := true }

/-- A control point says whether the thread is in the loop of `P`; there it can only test the value
again. A device handler may call `V`. -/
def semProgram (Tid : Type) : Program Tid Bool (Semaphore Tid) SemAct Unit Trap where
  enabled
    | .p, _ => True
    | .v, waiting => waiting = false
  sect
    | .p, t, _, o => .ok (passed (o.tryP t))
    | .v, _, waiting, o => do
      let (o, wakes) ← o.v
      return { obj := o, pc := waiting, wakes := wakes }
  handler _ o := o.v

/-- A call of `P` returns. -/
def completesP : Event Tid Bool SemAct Unit → Bool
  | .ran _ .p _ waiting => !waiting
  | _ => false

/-- A call of `V` returns, in a thread or in a handler. -/
def completesV : Event Tid Bool SemAct Unit → Bool
  | .ran _ .v _ _ | .handled _ => true
  | _ => false

def SemStart (initialValue : Int) (s : State Tid Bool (Semaphore Tid)) : Prop :=
  Placed s ∧ s.obj = ⟨initialValue, []⟩ ∧ ∀ t, s.pc t = false

variable [DecidableEq Tid] [Fintype Tid]

structure SemInv (pc : Tid → Bool) (blocked : Tid → Bool) (o : Semaphore Tid) : Prop where
  nonneg : 0 ≤ o.value
  queue : ∀ t, t ∈ o.queue ↔ pc t = true ∧ blocked t = true
  nodup : o.queue.Nodup
  wake : o.queue ≠ [] → o.value ≤ count fun t => pc t = true ∧ blocked t = false

variable {init : Int} {pc : Tid → Bool} {blocked : Tid → Bool} {o o' : Semaphore Tid}

theorem SemInv.p_sleep (h : SemInv pc blocked o) {t : Tid} (hb : blocked t = false)
    (h0 : o.value = 0) :
    SemInv (Function.update pc t true) (fun u => if u = t then true else blocked u)
      { o with queue := o.queue ++ [t] } where
  nonneg := h.nonneg
  queue u := by
    rw [List.mem_append, List.mem_singleton, h.queue]
    by_cases hu : u = t <;> simp [hu]
  nodup := nodup_snoc h.nodup (by rw [h.queue, hb]; simp)
  wake _ := by
    simp only [h0]
    omega

theorem SemInv.p_pass (h : SemInv pc blocked o) {t : Tid} (hb : blocked t = false)
    (h0 : o.value ≠ 0) :
    SemInv (Function.update pc t false) blocked
      { o with value := o.value - 1 } where
  nonneg := by
    have := h.nonneg
    simp only []
    omega
  queue u := by
    rw [h.queue]
    by_cases hu : u = t <;> simp [hu, hb]
  nodup := h.nodup
  wake hq := by
    have hle := h.wake hq
    simp only []
    cases ht : pc t with
    | false =>
      have hsame : Function.update pc t false = pc := by rw [← ht, Function.update_eq_self]
      rw [hsame]
      omega
    | true =>
      -- the caller was on its way and is not any more
      have hcount : (count fun u => pc u = true ∧ blocked u = false) =
          (count fun u => Function.update pc t false u = true ∧ blocked u = false) + 1 :=
        count_gain (u := t) (by simp) ⟨ht, hb⟩ (fun u hu => by simp [hu])
      omega

theorem SemInv.v (h : SemInv pc blocked o) {wakes : List Tid} (hv : o.v = .ok (o', wakes)) :
    wakes.Nodup ∧ (∀ u ∈ wakes, blocked u = true) ∧
      SemInv pc (fun u => if u ∈ wakes then false else blocked u) o' := by
  unfold Semaphore.v at hv
  split at hv
  · cases hv
  · cases hv
    refine ⟨h.nodup.sublist (List.take_sublist 1 _),
      fun u hu => ((h.queue u).mp (List.mem_of_mem_take hu)).2, ?_, fun u => ?_,
      h.nodup.sublist (List.drop_sublist 1 _), fun hq => ?_⟩
    · have := h.nonneg
      simp only []
      omega
    · rw [mem_drop_one h.nodup, h.queue]
      by_cases hu : u ∈ o.queue.take 1 <;> simp [hu]
    · simp only [] at hq ⊢
      have hne : o.queue ≠ [] := by
        rintro he
        rw [he] at hq
        exact hq rfl
      have hle := h.wake hne
      obtain ⟨w, q, hwq⟩ := List.exists_cons_of_ne_nil hne
      obtain ⟨hpc, hbw⟩ := (h.queue w).mp (by rw [hwq]; exact List.mem_cons_self)
      have hcount : (count fun u => pc u = true ∧ (if u ∈ o.queue.take 1 then false else blocked u) = false) =
          (count fun u => pc u = true ∧ blocked u = false) + 1 :=
        count_gain (u := w) (by simp [hbw]) (by simp [hwq, hpc]) (fun u hu => by simp [hwq, hu])
      omega

theorem semProgram_stable : Stable (semProgram Tid) (fun _ _ _ _ => True) SemInv where
  exec {pc blocked o a t e} hinv hb he _ hs := by
    cases a with
    | p =>
      cases hs
      by_cases h0 : o.value = 0
      · simp only [Semaphore.tryP, h0, if_true, passed, Bool.false_eq_true, if_false]
        refine ⟨List.nodup_nil, by simp, ?_⟩
        unfold blockedAfter
        simpa [h0] using hinv.p_sleep hb h0
      · simp only [Semaphore.tryP, h0, if_true, passed, if_false]
        refine ⟨List.nodup_nil, by simp, ?_⟩
        unfold blockedAfter
        simpa using hinv.p_pass hb h0
    | v =>
      simp only [semProgram, bind_eq_ok] at hs
      obtain ⟨⟨o', wakes⟩, hv, he'⟩ := hs
      cases he'
      obtain ⟨hnd, hw, hinv'⟩ := hinv.v hv
      refine ⟨hnd, hw, ?_⟩
      unfold blockedAfter
      simpa using hinv'
  interrupt hinv hs := hinv.v hs

omit [DecidableEq Tid] in
theorem semStart_inv (h0 : 0 ≤ init) {s : State Tid Bool (Semaphore Tid)} (h : SemStart init s) :
    Placed s ∧ SemInv s.pc s.blocked s.obj := by
  obtain ⟨hp, ho, hpc⟩ := h
  rw [ho]
  exact ⟨hp, h0, by simp [hpc], List.nodup_nil, fun hq => absurd rfl hq⟩

/-! ## The calls and the value -/

/-- The value is what the completed calls have made of the initial one. -/
def PermitsConserved (init : Int) (es : List (Event Tid Bool SemAct Unit)) (o : Semaphore Tid) : Prop :=
  o.value = init + es.countP completesV - es.countP completesP

omit [DecidableEq Tid] [Fintype Tid] in
theorem Semaphore.v_value {wakes : List Tid} (hv : o.v = .ok (o', wakes)) : o'.value = o.value + 1 := by
  unfold Semaphore.v at hv
  split at hv
  · cases hv
  · cases hv
    rfl

omit [DecidableEq Tid] [Fintype Tid] in
theorem PermitsConserved.p {es : List (Event Tid Bool SemAct Unit)} (h : PermitsConserved init es o)
    (t : Tid) (waiting : Bool) :
    PermitsConserved init (es ++ [.ran t .p waiting (passed (o.tryP t)).pc]) (passed (o.tryP t)).obj := by
  unfold PermitsConserved at h ⊢
  rw [List.countP_append, List.countP_append]
  by_cases h0 : o.value = 0
  · simp [Semaphore.tryP, h0, passed, completesP, completesV] at h ⊢
    omega
  · simp [Semaphore.tryP, h0, passed, completesP, completesV]
    omega

omit [DecidableEq Tid] [Fintype Tid] in
theorem PermitsConserved.v {es : List (Event Tid Bool SemAct Unit)} (h : PermitsConserved init es o) {wakes : List Tid}
    (hv : o.v = .ok (o', wakes)) {e : Event Tid Bool SemAct Unit} (hV : completesV e = true)
    (hP : completesP e = false) : PermitsConserved init (es ++ [e]) o' := by
  unfold PermitsConserved at h ⊢
  rw [List.countP_append, List.countP_append, Semaphore.v_value hv]
  simp [hV, hP]
  omega

/-- In every interleaving of `P` and `V` calls the value is what the completed calls make it, it is
never negative, and sleepers are covered by threads on their way to test it again. -/
theorem semaphore_conservation {initialValue : Int} (h0 : 0 ≤ initialValue)
    {es : List (Event Tid Bool SemAct Unit)} {s : State Tid Bool (Semaphore Tid)}
    (hs : History (SemStart initialValue) (semProgram Tid) (fun _ _ _ _ => True) es s) :
    0 ≤ s.obj.value ∧
    s.obj.value = initialValue + es.countP completesV - es.countP completesP ∧
    (∀ t, t ∈ s.obj.queue ↔ s.pc t = true ∧ s.status t = .blocked) ∧
    (s.obj.queue ≠ [] → s.obj.value ≤ count fun t => s.pc t = true ∧ s.status t ≠ .blocked) := by
  obtain ⟨-, hinv⟩ := semProgram_stable.run (fun _ h => semStart_inv h0 h) hs.reachable
  have hconserved : PermitsConserved initialValue es s.obj := by
    refine semProgram_stable.history (L := fun es _ o => PermitsConserved initialValue es o)
      (fun _ h => semStart_inv h0 h) (fun s h => ?_) (fun {es pc blocked o a t e} _ hlog _ hsect => ?_)
      (fun _ hlog hv => hlog.v hv rfl rfl) hs
    · simp [PermitsConserved, h.2.1]
    · cases a with
      | p =>
        cases hsect
        exact hlog.p t (pc t)
      | v =>
        obtain ⟨⟨o', wakes⟩, hv, he⟩ := bind_eq_ok.mp hsect
        cases he
        exact hlog.v hv rfl rfl
  refine ⟨hinv.nonneg, hconserved, fun t => ?_, fun hq => ?_⟩
  · rw [hinv.queue]
    simp [State.blocked]
  · have hle := hinv.wake hq
    rwa [count_congr (q := fun t => s.pc t = true ∧ s.status t ≠ .blocked) (by simp [State.blocked])] at hle

/-- Two threads sleep in `P`; the third calls `V`, and the first, which it has woken, passes. -/
theorem semaphore_conservation_woken :
    ∃ (es es' : List (Event (Fin 3) Bool SemAct Unit)) (s s' : State (Fin 3) Bool (Semaphore (Fin 3))),
      History (SemStart 0) (semProgram (Fin 3)) (fun _ _ _ _ => True) es s ∧ s.obj.queue = [1] ∧
      es.countP completesV = 1 ∧ es.countP completesP = 0 ∧ s.obj.value = 1 ∧
      s.obj.value ≤ count (fun t => s.pc t = true ∧ s.status t ≠ .blocked) ∧
      History (SemStart 0) (semProgram (Fin 3)) (fun _ _ _ _ => True) es' s' ∧
      es'.countP completesV = 1 ∧ es'.countP completesP = 1 ∧ s'.obj.value = 0 := by
  have hany : ∀ (s : State (Fin 3) Bool (Semaphore (Fin 3))) (l : Label (Fin 3) SemAct Unit),
      Disciplined (fun _ _ _ _ => True) s l := fun _ _ _ _ => trivial
  have h0 : History (SemStart 0) (semProgram (Fin 3)) (fun _ _ _ _ => True) [] (threeThreads false ⟨0, []⟩) :=
    .start ⟨threeThreads_placed _ _, rfl, fun _ => rfl⟩
  have h1 := h0.next (hany _ _) (Step.exec (a := SemAct.p) rfl trivial rfl)
  have h2 := h1.next (hany _ _) (Step.dispatch (t := 1) (by decide) (by decide))
  have h3 := h2.next (hany _ _) (Step.exec (a := SemAct.p) rfl trivial rfl)
  have h4 := h3.next (hany _ _) (Step.dispatch (t := 2) (by decide) (by decide))
  have h5 := h4.next (hany _ _) (Step.exec (a := SemAct.v) rfl rfl rfl)
  have h6 := h5.next (hany _ _) (Step.yield (t := 0) (by decide) (by decide))
  have h7 := h6.next (hany _ _) (Step.exec (a := SemAct.p) rfl trivial rfl)
  obtain ⟨-, hvalue, -, hwoken⟩ := semaphore_conservation (by decide) h5
  obtain ⟨-, hvalue', -, -⟩ := semaphore_conservation (by decide) h7
  exact ⟨_, _, _, _, h5, rfl, rfl, rfl, hvalue, hwoken (by decide), h7, rfl, rfl, hvalue'⟩

end Nachos
