import Nachos.Library.Execution
import Mathlib.Data.Fintype.Card
import Mathlib.Data.List.Nodup

/-! # Threads on one processor, interleaved at atomic sections

One thread at a time has the processor. It executes one atomic section after the other; between
two sections the processor may be given to any ready thread. A section may make other threads
ready and may end by putting its own thread to sleep; then some ready thread is dispatched. An
interrupt handler may change the shared object and make threads ready at any time.

The dispatcher is left open (any ready thread may be chosen), so what is proved of every run here
holds of every scheduling order. `Placed` is the bookkeeping invariant of the ready list. `History` keeps
the sections and handlers of a run, as the threads and devices see them; `Stable.history` relates the shared
object to what has happened. -/
set_option autoImplicit false

namespace Uniprocessor
open Execution

inductive Status where
  | running
  | ready
  | blocked
  deriving DecidableEq, Repr

/-- The processor, the ready list, and for each thread its status and control point; `obj` is what
the threads share. -/
structure State (Tid Pc Obj : Type) where
  current : Tid
  readyList : List Tid
  status : Tid → Status
  pc : Tid → Pc
  obj : Obj

/-- What a section does: the shared object and the thread's control point afterwards, the threads
it makes ready, and whether it ends by going to sleep. -/
structure Effect (Tid Pc Obj : Type) where
  obj : Obj
  pc : Pc
  wakes : List Tid := []
  sleeps : Bool := false

/-- The sections of a program: which may start at a control point, and what each does (or how it
fails). A handler is what a device interrupt runs. -/
structure Program (Tid Pc Obj Act Evt ε : Type) where
  enabled : Act → Pc → Prop
  sect : Act → Tid → Pc → Obj → Except ε (Effect Tid Pc Obj)
  handler : Evt → Obj → Except ε (Obj × List Tid)

inductive Label (Tid Act Evt : Type) where
  | exec (a : Act)
  | yield (t : Tid)
  | dispatch (t : Tid)
  | interrupt (e : Evt)

section Steps
variable {Tid Pc Obj : Type} [DecidableEq Tid]

/-- Threads made ready go to the end of the ready list. -/
def State.wake (s : State Tid Pc Obj) (ts : List Tid) : State Tid Pc Obj :=
  { s with
    readyList := s.readyList ++ ts
    status := fun t => if t ∈ ts then .ready else s.status t }

/-- The running thread carries out a section. -/
def State.perform (s : State Tid Pc Obj) (e : Effect Tid Pc Obj) : State Tid Pc Obj :=
  { s with
    readyList := s.readyList ++ e.wakes
    status := fun t =>
      if t ∈ e.wakes then .ready
      else if t = s.current ∧ e.sleeps = true then .blocked else s.status t
    pc := Function.update s.pc s.current e.pc
    obj := e.obj }

/-- The running thread goes to the end of the ready list and `t` takes over. -/
def State.yieldTo (s : State Tid Pc Obj) (t : Tid) : State Tid Pc Obj :=
  { s with
    current := t
    readyList := s.readyList.erase t ++ [s.current]
    status := Function.update (Function.update s.status s.current .ready) t .running }

/-- The sleeping processor is given to `t`. -/
def State.dispatchTo (s : State Tid Pc Obj) (t : Tid) : State Tid Pc Obj :=
  { s with
    current := t
    readyList := s.readyList.erase t
    status := Function.update s.status t .running }

variable {Act Evt ε : Type}

inductive Step (P : Program Tid Pc Obj Act Evt ε) :
    State Tid Pc Obj → Label Tid Act Evt → State Tid Pc Obj → Prop
  | exec {s : State Tid Pc Obj} {a : Act} {e : Effect Tid Pc Obj}
      (hr : s.status s.current = .running) (he : P.enabled a (s.pc s.current))
      (hs : P.sect a s.current (s.pc s.current) s.obj = .ok e) : Step P s (.exec a) (s.perform e)
  | yield {s : State Tid Pc Obj} {t : Tid} (hr : s.status s.current = .running)
      (ht : t ∈ s.readyList) : Step P s (.yield t) (s.yieldTo t)
  | dispatch {s : State Tid Pc Obj} {t : Tid} (hr : s.status s.current ≠ .running)
      (ht : t ∈ s.readyList) : Step P s (.dispatch t) (s.dispatchTo t)
  | interrupt {s : State Tid Pc Obj} {e : Evt} {o : Obj} {ts : List Tid}
      (hs : P.handler e s.obj = .ok (o, ts)) :
      Step P s (.interrupt e) { s.wake ts with obj := o }

/-! ## The ready list -/

/-- The ready list holds each ready thread once, and only the current thread is running. -/
structure Placed (s : State Tid Pc Obj) : Prop where
  nodup : s.readyList.Nodup
  mem_iff : ∀ t, t ∈ s.readyList ↔ s.status t = .ready
  running : ∀ t, s.status t = .running → t = s.current

/-- The threads a section wakes are blocked, and each is woken once. -/
def WakesBlocked (s : State Tid Pc Obj) (ts : List Tid) : Prop :=
  ts.Nodup ∧ ∀ t ∈ ts, s.status t = .blocked

omit [DecidableEq Tid] in
theorem Placed.append {s : State Tid Pc Obj} (h : Placed s) {ts : List Tid}
    (hw : WakesBlocked s ts) : (s.readyList ++ ts).Nodup := by
  refine List.nodup_append.mpr ⟨h.nodup, hw.1, ?_⟩
  rintro a ha b hb rfl
  have hready := (h.mem_iff a).mp ha
  rw [hw.2 a hb] at hready
  cases hready

theorem Placed.perform {s : State Tid Pc Obj} (h : Placed s) {e : Effect Tid Pc Obj}
    (hr : s.status s.current = .running) (hw : WakesBlocked s e.wakes) : Placed (s.perform e) where
  nodup := h.append hw
  mem_iff t := by
    have hc : s.current ∉ s.readyList := by
      rw [h.mem_iff, hr]
      simp
    simp only [State.perform, List.mem_append, h.mem_iff]
    by_cases ht : t ∈ e.wakes
    · simp [ht]
    · by_cases hs : t = s.current ∧ e.sleeps = true
      · obtain ⟨rfl, hsl⟩ := hs
        simp [ht, hr, hsl]
      · simp [ht, hs]
  running t := by
    intro ht
    simp only [State.perform] at ht ⊢
    by_cases hm : t ∈ e.wakes
    · simp [hm] at ht
    · by_cases hs : t = s.current ∧ e.sleeps = true
      · exact hs.1
      · simp only [hm, hs, if_false] at ht
        exact h.running t ht

theorem Placed.wake {s : State Tid Pc Obj} (h : Placed s) {ts : List Tid} (hw : WakesBlocked s ts)
    (o : Obj) : Placed { s.wake ts with obj := o } where
  nodup := h.append hw
  mem_iff t := by
    simp only [State.wake, List.mem_append, h.mem_iff]
    by_cases ht : t ∈ ts <;> simp [ht]
  running t := by
    intro ht
    simp only [State.wake] at ht ⊢
    by_cases hm : t ∈ ts
    · simp [hm] at ht
    · simp only [hm, if_false] at ht
      exact h.running t ht

theorem Placed.yieldTo {s : State Tid Pc Obj} (h : Placed s) {t : Tid}
    (hr : s.status s.current = .running) (ht : t ∈ s.readyList) : Placed (s.yieldTo t) := by
  have hne : t ≠ s.current := by
    rintro rfl
    rw [(h.mem_iff _).mp ht] at hr
    cases hr
  have hc : s.current ∉ s.readyList.erase t := by
    intro hc
    rw [(h.mem_iff _).mp (List.mem_of_mem_erase hc)] at hr
    cases hr
  refine ⟨?_, ?_, ?_⟩
  · refine List.nodup_append.mpr ⟨h.nodup.erase t, List.nodup_singleton _, ?_⟩
    rintro a ha b hb rfl
    rw [List.mem_singleton.mp hb] at ha
    exact hc ha
  · intro u
    simp only [State.yieldTo, List.mem_append, List.mem_singleton, h.nodup.mem_erase_iff, h.mem_iff]
    by_cases hu : u = t
    · subst hu
      simp [hne]
    · by_cases huc : u = s.current
      · subst huc
        simp [hu]
      · simp [hu, huc]
  · intro u hu
    simp only [State.yieldTo] at hu ⊢
    by_cases hut : u = t
    · exact hut
    · by_cases huc : u = s.current
      · subst huc
        simp [hut] at hu
      · rw [Function.update_of_ne hut, Function.update_of_ne huc] at hu
        exact absurd (h.running u hu) huc

theorem Placed.dispatchTo {s : State Tid Pc Obj} (h : Placed s) {t : Tid}
    (hr : s.status s.current ≠ .running) : Placed (s.dispatchTo t) where
  nodup := h.nodup.erase t
  mem_iff u := by
    simp only [State.dispatchTo, h.nodup.mem_erase_iff, h.mem_iff]
    by_cases hu : u = t
    · subst hu
      simp
    · simp [hu]
  running u := by
    intro hu
    simp only [State.dispatchTo] at hu ⊢
    by_cases hut : u = t
    · exact hut
    · rw [Function.update_of_ne hut] at hu
      have hcu := h.running u hu
      subst hcu
      exact absurd hu hr

/-! ## Invariants of a run

An invariant of the threads' control points, of which of them are blocked, and of the shared object is
not affected by who has the processor. It is enough that every section and every handler keeps it. -/

def State.blocked (s : State Tid Pc Obj) (t : Tid) : Bool := decide (s.status t = .blocked)

/-- Which threads are blocked after thread `t` has carried out a section. -/
def blockedAfter (blocked : Tid → Bool) (t : Tid) (e : Effect Tid Pc Obj) (u : Tid) : Bool :=
  if u ∈ e.wakes then false else if u = t ∧ e.sleeps = true then true else blocked u

theorem blockedAfter_awake (blocked : Tid → Bool) (t : Tid) {e : Effect Tid Pc Obj} (hw : e.wakes = [])
    (hs : e.sleeps = false) : blockedAfter blocked t e = blocked := by
  funext u
  simp [blockedAfter, hw, hs]

theorem blockedAfter_asleep (blocked : Tid → Bool) (t : Tid) {e : Effect Tid Pc Obj} (hw : e.wakes = [])
    (hs : e.sleeps = true) : blockedAfter blocked t e = Function.update blocked t true := by
  funext u
  by_cases hu : u = t <;> simp [blockedAfter, hw, hs, hu]

theorem blockedAfter_wakes (blocked : Tid → Bool) (t : Tid) {e : Effect Tid Pc Obj} (hs : e.sleeps = false) :
    blockedAfter blocked t e = fun u => if u ∈ e.wakes then false else blocked u := by
  funext u
  simp [blockedAfter, hs]

/-- An awake thread wakes others and then sleeps or does not. -/
theorem blockedAfter_eq_update {blocked : Tid → Bool} {t : Tid} (hb : blocked t = false) {e : Effect Tid Pc Obj}
    (hw : ∀ u ∈ e.wakes, blocked u = true) :
    blockedAfter blocked t e = Function.update (fun u => if u ∈ e.wakes then false else blocked u) t e.sleeps := by
  have ht : t ∉ e.wakes := by
    intro hm
    rw [hw t hm] at hb
    cases hb
  funext u
  by_cases hu : u = t
  · subst hu
    cases hs : e.sleeps <;> simp [blockedAfter, ht, hs, hb]
  · simp [blockedAfter, hu]

theorem blocked_perform (s : State Tid Pc Obj) (e : Effect Tid Pc Obj) :
    (s.perform e).blocked = blockedAfter s.blocked s.current e := by
  funext u
  unfold State.blocked State.perform blockedAfter
  by_cases h1 : u ∈ e.wakes
  · simp [h1]
  · by_cases h2 : u = s.current ∧ e.sleeps = true
    · simp [h2]
    · simp only [h1, h2, if_false]

theorem blocked_wake (s : State Tid Pc Obj) (ts : List Tid) (o : Obj) :
    ({ s.wake ts with obj := o } : State Tid Pc Obj).blocked = fun u => if u ∈ ts then false else s.blocked u := by
  funext u
  unfold State.blocked State.wake
  by_cases h : u ∈ ts <;> simp [h]

theorem blocked_dispatchTo {s : State Tid Pc Obj} (h : Placed s) {t : Tid} (ht : t ∈ s.readyList) :
    (s.dispatchTo t).blocked = s.blocked := by
  funext u
  unfold State.blocked State.dispatchTo
  by_cases hu : u = t
  · subst hu
    simp [(h.mem_iff u).mp ht]
  · simp [hu]

theorem blocked_yieldTo {s : State Tid Pc Obj} (h : Placed s) {t : Tid}
    (hr : s.status s.current = .running) (ht : t ∈ s.readyList) : (s.yieldTo t).blocked = s.blocked := by
  funext u
  unfold State.blocked State.yieldTo
  by_cases hu : u = t
  · subst hu
    simp [(h.mem_iff u).mp ht]
  · by_cases hc : u = s.current
    · subst hc
      simp [hu, hr]
    · simp [hu, hc]

/-- Sections are only started as the discipline allows. -/
def Disciplined (discipline : Act → Tid → Pc → Obj → Prop) (s : State Tid Pc Obj) (l : Label Tid Act Evt) : Prop :=
  ∀ a, l = .exec a → discipline a s.current (s.pc s.current) s.obj

/-- Every disciplined section and every handler keeps `Inv`, and wakes only blocked threads. -/
structure Stable (P : Program Tid Pc Obj Act Evt ε) (discipline : Act → Tid → Pc → Obj → Prop)
    (Inv : (Tid → Pc) → (Tid → Bool) → Obj → Prop) : Prop where
  exec : ∀ {pc blocked obj a t e}, Inv pc blocked obj → blocked t = false → P.enabled a (pc t) →
    discipline a t (pc t) obj → P.sect a t (pc t) obj = .ok e →
    e.wakes.Nodup ∧ (∀ u ∈ e.wakes, blocked u = true) ∧
      Inv (Function.update pc t e.pc) (blockedAfter blocked t e) e.obj
  interrupt : ∀ {pc blocked obj ev o ts}, Inv pc blocked obj → P.handler ev obj = .ok (o, ts) →
    ts.Nodup ∧ (∀ u ∈ ts, blocked u = true) ∧ Inv pc (fun u => if u ∈ ts then false else blocked u) o

variable {P : Program Tid Pc Obj Act Evt ε} {discipline discipline' : Act → Tid → Pc → Obj → Prop}
  {Inv : (Tid → Pc) → (Tid → Bool) → Obj → Prop}

/-- A discipline may be replaced by one that is stricter under the invariant. -/
theorem Stable.weaken (h : Stable P discipline Inv)
    (hd : ∀ {pc blocked obj a t}, Inv pc blocked obj → discipline' a t (pc t) obj → discipline a t (pc t) obj) :
    Stable P discipline' Inv where
  exec hinv hb he hd' hs := h.exec hinv hb he (hd hinv hd') hs
  interrupt hinv hs := h.interrupt hinv hs

theorem Stable.run {init : State Tid Pc Obj → Prop} (h : Stable P discipline Inv)
    (hinit : ∀ s, init s → Placed s ∧ Inv s.pc s.blocked s.obj) {s : State Tid Pc Obj}
    (hs : Reachable init (Step P) (Disciplined discipline) s) : Placed s ∧ Inv s.pc s.blocked s.obj := by
  refine Reachable.invariant (fun s => Placed s ∧ Inv s.pc s.blocked s.obj) hinit ?_ hs
  rintro s l s' ⟨hp, hinv⟩ ha hstep
  cases hstep with
  | exec hr he hsect =>
    obtain ⟨hnd, hw, hinv'⟩ := h.exec hinv (by simp [State.blocked, hr]) he (ha _ rfl) hsect
    refine ⟨hp.perform hr ⟨hnd, fun t ht => by simpa [State.blocked] using hw t ht⟩, ?_⟩
    rw [blocked_perform]
    exact hinv'
  | yield hr ht =>
    refine ⟨hp.yieldTo hr ht, ?_⟩
    rw [blocked_yieldTo hp hr ht]
    exact hinv
  | dispatch hr ht =>
    refine ⟨hp.dispatchTo hr, ?_⟩
    rw [blocked_dispatchTo hp ht]
    exact hinv
  | interrupt hh =>
    obtain ⟨hnd, hw, hinv'⟩ := h.interrupt hinv hh
    refine ⟨hp.wake ⟨hnd, fun t ht => by simpa [State.blocked] using hw t ht⟩ _, ?_⟩
    rw [blocked_wake]
    exact hinv'

/-! ## What has happened in a run -/

/-- A section that a thread has carried out, with its control points before and after it, or a handler. -/
inductive Event (Tid Pc Act Evt : Type) where
  | ran (t : Tid) (a : Act) (before after : Pc)
  | handled (e : Evt)

/-- What happens in a step. -/
def Label.events (s s' : State Tid Pc Obj) : Label Tid Act Evt → List (Event Tid Pc Act Evt)
  | .exec a => [.ran s.current a (s.pc s.current) (s'.pc s.current)]
  | .interrupt e => [.handled e]
  | .yield _ | .dispatch _ => []

/-- A disciplined run and what has happened in it. -/
inductive History (init : State Tid Pc Obj → Prop) (P : Program Tid Pc Obj Act Evt ε)
    (discipline : Act → Tid → Pc → Obj → Prop) : List (Event Tid Pc Act Evt) → State Tid Pc Obj → Prop
  | start {s : State Tid Pc Obj} (h : init s) : History init P discipline [] s
  | next {es : List (Event Tid Pc Act Evt)} {s s' : State Tid Pc Obj} {l : Label Tid Act Evt}
      (h : History init P discipline es s) (ha : Disciplined discipline s l) (hs : Step P s l s') :
      History init P discipline (es ++ l.events s s') s'

variable {init : State Tid Pc Obj → Prop} {es : List (Event Tid Pc Act Evt)} {s : State Tid Pc Obj}

theorem History.reachable (h : History init P discipline es s) :
    Reachable init (Step P) (Disciplined discipline) s := by
  induction h with
  | start hi => exact .start hi
  | next _ ha hs ih => exact .next ih ha hs

/-- What relates the object and the control points to what has happened, if every section and every handler
keeps it. -/
theorem Stable.history (h : Stable P discipline Inv) {L : List (Event Tid Pc Act Evt) → (Tid → Pc) → Obj → Prop}
    (hinit : ∀ s, init s → Placed s ∧ Inv s.pc s.blocked s.obj) (hlog : ∀ s, init s → L [] s.pc s.obj)
    (hexec : ∀ {es pc blocked obj a t e}, Inv pc blocked obj → L es pc obj → P.enabled a (pc t) →
      P.sect a t (pc t) obj = .ok e → L (es ++ [.ran t a (pc t) e.pc]) (Function.update pc t e.pc) e.obj)
    (hhandler : ∀ {es pc blocked obj ev o ts}, Inv pc blocked obj → L es pc obj → P.handler ev obj = .ok (o, ts) →
      L (es ++ [.handled ev]) pc o)
    (hs : History init P discipline es s) : L es s.pc s.obj := by
  induction hs with
  | start hi => exact hlog _ hi
  | @next es s s' l hrun ha hstep ih =>
    obtain ⟨-, hinv⟩ := h.run hinit hrun.reachable
    cases hstep with
    | @exec a e hr he hsect =>
      have hpc : (s.perform e).pc s.current = e.pc := Function.update_self _ _ _
      simp only [Label.events, hpc]
      exact hexec hinv ih he hsect
    | yield hr ht =>
      rw [Label.events, List.append_nil]
      exact ih
    | dispatch hr ht =>
      rw [Label.events, List.append_nil]
      exact ih
    | interrupt hh => exact hhandler hinv ih hh

section LastCall
variable {β : Type} (call : Act → Option β) (t : Tid)

/-- What thread `t` was last asked to do, among the sections that `call` picks out. -/
def lastCall (es : List (Event Tid Pc Act Evt)) : Option β :=
  es.reverse.findSome? fun
    | .ran u a _ _ => if u = t then call a else none
    | .handled _ => none

theorem lastCall_ran (es : List (Event Tid Pc Act Evt)) (u : Tid) (a : Act) (p q : Pc) :
    lastCall call t (es ++ [.ran u a p q]) =
      if u = t then (call a).or (lastCall call t es) else lastCall call t es := by
  unfold lastCall
  rw [List.reverse_append, List.reverse_singleton, List.singleton_append, List.findSome?_cons]
  by_cases hu : u = t
  · cases hc : call a <;> simp [hu, hc]
  · simp [hu]

theorem lastCall_handled (es : List (Event Tid Pc Act Evt)) (e : Evt) :
    lastCall call t (es ++ [.handled e]) = lastCall call t es := by
  simp [lastCall]

end LastCall

end Steps

/-! ## One thread alone -/

section Alone
variable {Tid Pc Obj Act Evt ε : Type} [DecidableEq Tid] {P : Program Tid Pc Obj Act Evt ε} {t : Tid} {rest pc : Pc}
  {obj : Obj}

/-- Only `t` runs; the other threads sleep at `rest`. -/
def State.alone (t : Tid) (rest pc : Pc) (obj : Obj) : State Tid Pc Obj where
  current := t
  readyList := []
  status u := if u = t then .running else .blocked
  pc := Function.update (fun _ => rest) t pc
  obj := obj

theorem placed_alone (t : Tid) (rest pc : Pc) (obj : Obj) : Placed (State.alone t rest pc obj) where
  nodup := List.nodup_nil
  mem_iff u := by
    simp only [State.alone, List.not_mem_nil, false_iff]
    split <;> simp
  running u hu := by
    simp only [State.alone] at hu
    split at hu
    · assumption
    · cases hu

theorem Step.alone_exec {a : Act} {pc' : Pc} {obj' : Obj} (he : P.enabled a pc)
    (hs : P.sect a t pc obj = .ok { obj := obj', pc := pc' }) :
    Step P (State.alone t rest pc obj) (.exec a) (State.alone t rest pc' obj') := by
  have hpc : (State.alone t rest pc obj).pc t = pc := by simp [State.alone]
  have hstep := Step.exec (P := P) (s := State.alone t rest pc obj) (if_pos rfl) (hpc.symm ▸ he) (hpc.symm ▸ hs)
  convert hstep using 1
  simp [State.alone, State.perform]

theorem Step.alone_interrupt {e : Evt} {obj' : Obj} (hs : P.handler e obj = .ok (obj', [])) :
    Step P (State.alone t rest pc obj) (.interrupt e) (State.alone t rest pc obj') := by
  have hstep := Step.interrupt (P := P) (s := State.alone t rest pc obj) hs
  convert hstep using 1
  simp [State.alone, State.wake]

end Alone

/-! ## Counting threads -/

section Count
variable {Tid : Type} [Fintype Tid]

/-- The number of threads with a property. -/
def count (p : Tid → Prop) [DecidablePred p] : ℕ := (Finset.univ.filter p).card

variable {p q : Tid → Prop} [DecidablePred p] [DecidablePred q]

theorem count_congr (h : ∀ t, p t ↔ q t) : count p = count q := by
  unfold count
  congr 1
  ext t
  simp [h t]

theorem count_gain [DecidableEq Tid] {u : Tid} (hp : ¬ p u) (hq : q u)
    (h : ∀ t, t ≠ u → (q t ↔ p t)) : count q = count p + 1 := by
  unfold count
  have hins : Finset.univ.filter q = insert u (Finset.univ.filter p) := by
    ext t
    by_cases ht : t = u
    · subst ht
      simp [hq]
    · simp [ht, h t ht]
  rw [hins, Finset.card_insert_of_notMem (by simp [hp])]

theorem exists_of_count_pos (h : 0 < count p) : ∃ t, p t := by
  obtain ⟨t, ht⟩ := Finset.card_pos.mp h
  exact ⟨t, by simpa using ht⟩

end Count

end Uniprocessor
