import Nachos.Threads.Synch
import Mathlib.Data.Fintype.Basic

/-! # Producers and consumers of a synchronised list (`threads/synchlist.cc`)

An item is a pointer other than `NULL`; `List::Remove` returns none on the empty list. The control points
of a thread are those at which it can lose the processor: in the loop of `Acquire`, asleep in `Wait`, or
after interrupts have been enabled again; a thread outside the calls has what the last one returned. The items
appended and returned are read off the sections in which `List::Append` and `List::Remove` take effect, the
latter up to the return of `SynchList::Remove`. -/
set_option autoImplicit false

namespace Nachos
open Execution Uniprocessor

variable {Tid α : Type}

structure SynchList (Tid α : Type) where
  list : List α
  lock : Lock Tid
  listEmpty : Condition Tid

inductive ListPc (α : Type) where
  | outside (returned : Option α)
  | appendLock (item : α)
  | appendBody (item : α)
  | appendUnlock
  | removeLock
  | removeTest (signalled : Bool)
  | waitSignal
  | waitLock

inductive ListAct (α : Type) where
  | append (item : α)
  | remove
  | resume

abbrev ListEffect (Tid α : Type) := Effect Tid (ListPc α) (SynchList Tid α)

abbrev ListEvent (Tid α : Type) := Event Tid (ListPc α) (ListAct α) Empty

namespace SynchList

/-- `SynchList::SynchList`. -/
def new : SynchList Tid α := ⟨[], Lock.new, ⟨[]⟩⟩

/-- A thread in `Acquire` goes on at `inside`, or sleeps in the loop, at `waiting`. -/
def locked (o : SynchList Tid α) (inside waiting : ListPc α) (r : Lock Tid × Bool) :
    ListEffect Tid α :=
  if r.2 then { obj := { o with lock := r.1 }, pc := inside }
  else { obj := { o with lock := r.1 }, pc := waiting, sleeps := true }

@[simp] theorem locked_wakes (o : SynchList Tid α) (inside waiting : ListPc α) (r : Lock Tid × Bool) :
    (o.locked inside waiting r).wakes = [] := by
  unfold locked
  split <;> rfl

variable [DecidableEq Tid]

/-- `Append` with the lock held: `list->Append` and `Signal`. -/
def appendBody (o : SynchList Tid α) (item : α) (t : Tid) : Call (ListEffect Tid α) := do
  let (listEmpty, wakes) ← o.listEmpty.signal o.lock t
  return { obj := { o with list := o.list ++ [item], listEmpty := listEmpty }, pc := .appendUnlock, wakes := wakes }

/-- The end of `Append`: `Release`. -/
def appendUnlock (o : SynchList Tid α) (t : Tid) : Call (ListEffect Tid α) := do
  let (lock, wakes) ← o.lock.release t
  return { obj := { o with lock := lock }, pc := .outside none, wakes := wakes }

/-- `Remove` with the lock held: `Wait` on the empty list, else take the first item, `Release` and return it. -/
def removeTest (o : SynchList Tid α) (t : Tid) : Call (ListEffect Tid α) :=
  if o.list.isEmpty then do
    let (listEmpty, lock, wakes) ← o.listEmpty.wait o.lock t
    return { obj := { o with lock := lock, listEmpty := listEmpty }, pc := .waitSignal, wakes := wakes, sleeps := true }
  else match o.list.head? with
    | none => .error .assertFailed
    | some item => do
      let (lock, wakes) ← o.lock.release t
      return { obj := { o with list := o.list.tail, lock := lock }, pc := .outside (some item), wakes := wakes }

end SynchList

variable [DecidableEq Tid]

def listProgram (Tid α : Type) [DecidableEq Tid] :
    Program Tid (ListPc α) (SynchList Tid α) (ListAct α) Empty Trap where
  enabled
    | .append _, .outside _ => True
    | .remove, .outside _ => True
    | .resume, .outside _ => False
    | .resume, _ => True
    | _, _ => False
  sect
    | .append item, t, _, o => do
      let r ← o.lock.acquire t
      return o.locked (.appendBody item) (.appendLock item) r
    | .remove, t, _, o => do
      let r ← o.lock.acquire t
      return o.locked (.removeTest false) .removeLock r
    | .resume, t, .appendLock item, o =>
      .ok (o.locked (.appendBody item) (.appendLock item) (o.lock.tryAcquire t))
    | .resume, t, .appendBody item, o => o.appendBody item t
    | .resume, t, .appendUnlock, o => o.appendUnlock t
    | .resume, t, .removeLock, o => .ok (o.locked (.removeTest false) .removeLock (o.lock.tryAcquire t))
    | .resume, t, .removeTest _, o => o.removeTest t
    | .resume, t, .waitSignal, o => do
      let r ← o.lock.acquire t
      return o.locked (.removeTest true) .waitLock r
    | .resume, t, .waitLock, o => .ok (o.locked (.removeTest true) .waitLock (o.lock.tryAcquire t))
    | .resume, _, .outside returned, o => .ok { obj := o, pc := .outside returned }
  handler e _ := nomatch e

def ListStart (s : State Tid (ListPc α) (SynchList Tid α)) : Prop :=
  Placed s ∧ s.obj = SynchList.new ∧ ∀ t, s.pc t = .outside none

/-! ## The invariant -/

namespace ListPc

/-- Between a returned `Acquire` and its `Release`. -/
def holds : ListPc α → Bool
  | appendBody _ | appendUnlock | removeTest _ => true
  | _ => false

/-- In the loop of `Acquire`. -/
def inAcquire : ListPc α → Bool
  | appendLock _ | removeLock | waitLock => true
  | _ => false

/-- In the `Sleep` of `Wait`. -/
def inWait : ListPc α → Bool
  | waitSignal => true
  | _ => false

/-- A consumer that has been signalled and has not tested the list since. -/
def onItsWay : ListPc α → Bool → Bool
  | waitSignal, blocked => !blocked
  | waitLock, _ => true
  | removeTest signalled, _ => signalled
  | _, _ => false

end ListPc

variable [Fintype Tid]

structure ListInv (pc : Tid → ListPc α) (blocked : Tid → Bool) (o : SynchList Tid α) : Prop where
  lock : o.lock.Ok (fun t => (pc t).holds = true) (fun t => (pc t).inAcquire = true ∧ blocked t = true)
  cond : ∀ t, t ∈ o.listEmpty.queue ↔ (pc t).inWait = true ∧ blocked t = true
  condNodup : o.listEmpty.queue.Nodup
  wake : o.listEmpty.queue ≠ [] → o.list.length ≤ count fun t => (pc t).onItsWay (blocked t) = true

variable {pc : Tid → ListPc α} {blocked : Tid → Bool} {o : SynchList Tid α} {t : Tid}

/-- One pass through the loop of `Acquire`, wherever it was called from. -/
theorem ListInv.locked (h : ListInv pc blocked o) (hb : blocked t = false) (ht : (pc t).holds = false)
    {inside waiting : ListPc α} (hi : inside.holds = true) (hw : waiting.inAcquire = true)
    (hway : ∀ b, inside.onItsWay b = (pc t).onItsWay false ∧ waiting.onItsWay b = (pc t).onItsWay false) :
    ListInv (Function.update pc t (o.locked inside waiting (o.lock.tryAcquire t)).pc)
      (blockedAfter blocked t (o.locked inside waiting (o.lock.tryAcquire t)))
      (o.locked inside waiting (o.lock.tryAcquire t)).obj := by
  have hin : inside.inAcquire = false ∧ inside.inWait = false := by
    cases inside <;> simp_all [ListPc.holds, ListPc.inAcquire, ListPc.inWait]
  have hwn : waiting.holds = false ∧ waiting.inWait = false := by
    cases waiting <;> simp_all [ListPc.holds, ListPc.inAcquire, ListPc.inWait]
  have hcond : t ∉ o.listEmpty.queue := by rw [h.cond, hb]; simp
  have hserves : o.lock.Serves ListPc.holds ListPc.inAcquire pc blocked := h.lock
  rcases hserves.tryAcquire hb ht inside waiting hi hin.1 hw hwn.1 with ⟨l', hl, -, -, hok⟩ | ⟨l', hl, -, hok⟩
  · rw [hl, blockedAfter_awake _ _ rfl rfl]
    refine ⟨hok, fun u => ?_, h.condNodup, fun hq => ?_⟩
    · by_cases hu : u = t
      · subst hu
        simpa [SynchList.locked, hin] using hcond
      · simpa [hu, SynchList.locked] using h.cond u
    · refine (h.wake hq).trans (le_of_eq (count_congr fun u => ?_))
      by_cases hu : u = t <;> simp [hu, SynchList.locked, hb, (hway _).1]
  · rw [hl, blockedAfter_asleep _ _ rfl rfl]
    refine ⟨hok, fun u => ?_, h.condNodup, fun hq => ?_⟩
    · by_cases hu : u = t
      · subst hu
        simpa [SynchList.locked, hwn] using hcond
      · simpa [hu, SynchList.locked] using h.cond u
    · refine (h.wake hq).trans (le_of_eq (count_congr fun u => ?_))
      by_cases hu : u = t <;> simp [hu, SynchList.locked, hb, (hway _).2]

omit [Fintype Tid] in
/-- Waking waiters of the lock changes nothing for the consumers of the list. -/
theorem consumers_of_wakes {e : ListEffect Tid α}
    (hw : ∀ u ∈ e.wakes, (pc u).inAcquire = true) {u : Tid} (hu : u ≠ t) :
    (pc u).onItsWay (blockedAfter blocked t e u) = (pc u).onItsWay (blocked u) ∧
    ((pc u).inWait = true ∧ blockedAfter blocked t e u = true ↔ (pc u).inWait = true ∧ blocked u = true) := by
  by_cases hm : u ∈ e.wakes
  · have hpc := hw u hm
    cases hp : pc u <;> simp_all [ListPc.inAcquire, ListPc.onItsWay, ListPc.inWait]
  · simp [blockedAfter, hm, hu]

theorem ListInv.appendBody (h : ListInv pc blocked o) (hb : blocked t = false) {item : α}
    (ht : pc t = .appendBody item) :
    ∃ e, o.appendBody item t = .ok e ∧ e.wakes.Nodup ∧ (∀ u ∈ e.wakes, blocked u = true) ∧
      ListInv (Function.update pc t e.pc) (blockedAfter blocked t e) e.obj := by
  have hholds : (pc t).holds = true := by rw [ht]; rfl
  have hheld : o.lock.isHeldByCurrentThread t = true := by
    simp [Lock.isHeldByCurrentThread, (h.lock.owner t).mpr hholds]
  refine ⟨{ obj := { o with list := o.list ++ [item], listEmpty := ⟨o.listEmpty.queue.drop 1⟩ }, pc := .appendUnlock,
            wakes := o.listEmpty.queue.take 1 }, ?_, ?_, ?_, ?_⟩
  · simp [SynchList.appendBody, Condition.signal, hheld]
  · exact h.condNodup.sublist (List.take_sublist 1 _)
  · intro u hu
    exact ((h.cond u).mp (List.mem_of_mem_take hu)).2
  · have hsig : ∀ u ∈ o.listEmpty.queue.take 1, (pc u).inWait = true := fun u hu =>
      ((h.cond u).mp (List.mem_of_mem_take hu)).1
    refine ⟨h.lock.congr (fun u => ?_) (fun u => ?_), fun u => ?_,
      h.condNodup.sublist (List.drop_sublist 1 _), fun hq => ?_⟩
    · by_cases hu : u = t
      · simp [hu, ht, ListPc.holds]
      · simp [hu]
    · by_cases hu : u = t
      · simp [hu, ht, ListPc.inAcquire]
      · by_cases hm : u ∈ o.listEmpty.queue.take 1
        · have hpc := hsig u hm
          cases hp : pc u <;> simp_all [ListPc.inAcquire, ListPc.inWait]
        · simp [hu, blockedAfter, hm]
    · rw [mem_drop_one h.condNodup, h.cond]
      by_cases hu : u = t
      · simp [hu, ht, ListPc.inWait]
      · by_cases hm : u ∈ o.listEmpty.queue.take 1 <;> simp [hu, blockedAfter, hm]
    · simp only [] at hq
      have hne : o.listEmpty.queue ≠ [] := by
        intro he
        rw [he] at hq
        exact hq rfl
      obtain ⟨w, q, hwq⟩ := List.exists_cons_of_ne_nil hne
      obtain ⟨hpw, hbw⟩ := (h.cond w).mp (by rw [hwq]; exact List.mem_cons_self)
      have hwt : w ≠ t := by
        rintro rfl
        rw [hb] at hbw
        cases hbw
      have hpw' : pc w = .waitSignal := by
        cases hp : pc w <;> simp_all [ListPc.inWait]
      have hle := h.wake hne
      rw [List.length_append, List.length_singleton]
      refine (Nat.add_le_add_right hle 1).trans (le_of_eq (count_gain (u := w) ?_ ?_ fun u hu => ?_).symm)
      · simp [hpw', hbw, ListPc.onItsWay]
      · simp [hwt, hpw', hwq, blockedAfter, ListPc.onItsWay]
      · by_cases hut : u = t
        · simp [hut, ht, ListPc.onItsWay]
        · simp [hut, hwq, hu, blockedAfter]

/-- A `Release` by the holder, which then goes on at `next`. -/
theorem ListInv.release (h : ListInv pc blocked o) (hb : blocked t = false) (ht : (pc t).holds = true) :
    ∃ l' wakes, o.lock.release t = .ok (l', wakes) ∧ wakes.Nodup ∧ (∀ u ∈ wakes, blocked u = true) ∧
      (∀ u ∈ wakes, (pc u).inAcquire = true) ∧ t ∉ wakes ∧
      ∀ next : ListPc α, next.holds = false → next.inAcquire = false → ∀ sleeps : Bool,
        l'.Ok (fun u => (Function.update pc t next u).holds = true)
          (fun u => (Function.update pc t next u).inAcquire = true ∧
            (if u ∈ wakes then false else if u = t ∧ sleeps = true then true else blocked u) = true) := by
  have hserves : o.lock.Serves ListPc.holds ListPc.inAcquire pc blocked := h.lock
  have hout : (pc t).inAcquire = false := by
    cases hp : pc t <;> simp_all [ListPc.holds, ListPc.inAcquire]
  obtain ⟨l', wakes, hrun, hnd, hw, -, hok⟩ := hserves.release ht hout
  have htw : t ∉ wakes := by
    intro hm
    rw [(hw t hm).2] at hb
    cases hb
  refine ⟨l', wakes, hrun, hnd, fun u hu => (hw u hu).2, fun u hu => (hw u hu).1, htw, ?_⟩
  intro next hn hn' sleeps
  apply hok next _ hn hn'
  intro u hu
  simp [hu]

theorem ListInv.appendUnlock (h : ListInv pc blocked o) (hb : blocked t = false) (ht : pc t = .appendUnlock) :
    ∃ e, o.appendUnlock t = .ok e ∧ e.wakes.Nodup ∧ (∀ u ∈ e.wakes, blocked u = true) ∧
      ListInv (Function.update pc t e.pc) (blockedAfter blocked t e) e.obj := by
  obtain ⟨l', wakes, hrun, hnd, hw, hacq, htw, hok⟩ := h.release hb (by rw [ht]; rfl)
  refine ⟨{ obj := { o with lock := l' }, pc := .outside none, wakes := wakes }, ?_, hnd, hw,
    hok _ rfl rfl false, fun u => ?_, h.condNodup, fun hq => ?_⟩
  · simp [SynchList.appendUnlock, hrun]
  · simp only [h.cond]
    by_cases hu : u = t
    · simp [hu, ht, ListPc.inWait]
    · rw [Function.update_of_ne hu, (consumers_of_wakes hacq hu).2]
  · refine (h.wake hq).trans (le_of_eq (count_congr fun u => ?_))
    by_cases hu : u = t
    · simp [hu, ht, ListPc.onItsWay]
    · rw [Function.update_of_ne hu, (consumers_of_wakes hacq hu).1]

theorem ListInv.removeTest (h : ListInv pc blocked o) (hb : blocked t = false) {signalled : Bool}
    (ht : pc t = .removeTest signalled) :
    ∃ e, o.removeTest t = .ok e ∧ e.wakes.Nodup ∧ (∀ u ∈ e.wakes, blocked u = true) ∧
      ListInv (Function.update pc t e.pc) (blockedAfter blocked t e) e.obj := by
  have hholds : (pc t).holds = true := by rw [ht]; rfl
  obtain ⟨l', wakes, hrun, hnd, hw, hacq, htw, hok⟩ := h.release hb hholds
  have hheld : o.lock.isHeldByCurrentThread t = true := by
    simp [Lock.isHeldByCurrentThread, (h.lock.owner t).mpr hholds]
  cases hlist : o.list with
  | nil =>
    refine ⟨{ obj := { o with lock := l', listEmpty := ⟨o.listEmpty.queue ++ [t]⟩ }, pc := .waitSignal,
              wakes := wakes, sleeps := true }, ?_, hnd, hw, hok .waitSignal rfl rfl true, fun u => ?_, ?_,
      fun _ => ?_⟩
    · simp [SynchList.removeTest, hlist, Condition.wait, hheld, hrun]
    · simp only [List.mem_append, List.mem_singleton, h.cond]
      by_cases hu : u = t
      · simp [hu, blockedAfter, htw, ListPc.inWait]
      · rw [Function.update_of_ne hu, (consumers_of_wakes hacq hu).2]
        simp [hu]
    · exact nodup_snoc h.condNodup (by rw [h.cond, hb]; simp)
    · simp [hlist]
  | cons item rest =>
    refine ⟨{ obj := { o with list := rest, lock := l' }, pc := .outside (some item), wakes := wakes }, ?_, hnd, hw,
      hok _ rfl rfl false, fun u => ?_, h.condNodup, fun hq => ?_⟩
    · simp [SynchList.removeTest, hlist, hrun]
    · simp only [h.cond]
      by_cases hu : u = t
      · simp [hu, ht, ListPc.inWait]
      · rw [Function.update_of_ne hu, (consumers_of_wakes hacq hu).2]
    · have hle := h.wake hq
      rw [hlist, List.length_cons] at hle
      cases signalled with
      | true =>
        -- the item goes to a consumer that was on its way
        refine Nat.le_of_succ_le_succ (hle.trans (le_of_eq (count_gain (u := t) ?_ ?_ fun u hu => ?_)))
        · simp [ListPc.onItsWay]
        · simp [ht, ListPc.onItsWay]
        · rw [Function.update_of_ne hu, (consumers_of_wakes hacq hu).1]
      | false =>
        refine (Nat.le_of_succ_le hle).trans (le_of_eq (count_congr fun u => ?_))
        by_cases hu : u = t
        · simp [hu, ht, ListPc.onItsWay]
        · rw [Function.update_of_ne hu, (consumers_of_wakes hacq hu).1]

theorem ListInv.acquire (h : ListInv pc blocked o) (ht : (pc t).holds = false) :
    o.lock.acquire t = .ok (o.lock.tryAcquire t) := by
  have hno : o.lock.ownerThread ≠ some t := by
    rw [Ne, h.lock.owner, ht]
    simp
  unfold Lock.acquire
  rw [if_neg hno]

/-- Every section that can start runs to its end, with no assertion failing, and keeps the invariant. -/
theorem ListInv.sect (h : ListInv pc blocked o) (hb : blocked t = false) {a : ListAct α}
    (he : (listProgram Tid α).enabled a (pc t)) :
    ∃ e, (listProgram Tid α).sect a t (pc t) o = .ok e ∧ e.wakes.Nodup ∧ (∀ u ∈ e.wakes, blocked u = true) ∧
      ListInv (Function.update pc t e.pc) (blockedAfter blocked t e) e.obj := by
  -- a thread in `Acquire` has the same next section wherever it was called from
  have hlocked : ∀ inside waiting, (pc t).holds = false → inside.holds = true → waiting.inAcquire = true →
      (∀ b, inside.onItsWay b = (pc t).onItsWay false ∧ waiting.onItsWay b = (pc t).onItsWay false) →
      ∃ e, (.ok (o.locked inside waiting (o.lock.tryAcquire t)) : Call _) = .ok e ∧ e.wakes.Nodup ∧
        (∀ u ∈ e.wakes, blocked u = true) ∧
        ListInv (Function.update pc t e.pc) (blockedAfter blocked t e) e.obj :=
    fun inside waiting ht hi hw hway => ⟨_, rfl, by simp, by simp, h.locked hb ht hi hw hway⟩
  cases a with
  | append item =>
    cases hpc : pc t <;> rw [hpc] at he <;> try exact he.elim
    have hno : (pc t).holds = false := by rw [hpc]; rfl
    simp only [listProgram, h.acquire hno, ok_bind, pure_eq_ok]
    exact hlocked _ _ hno rfl rfl (by simp [hpc, ListPc.onItsWay])
  | remove =>
    cases hpc : pc t <;> rw [hpc] at he <;> try exact he.elim
    have hno : (pc t).holds = false := by rw [hpc]; rfl
    simp only [listProgram, h.acquire hno, ok_bind, pure_eq_ok]
    exact hlocked _ _ hno rfl rfl (by simp [hpc, ListPc.onItsWay])
  | resume =>
    cases hpc : pc t with
    | outside _ =>
      rw [hpc] at he
      exact he.elim
    | appendLock item => exact hlocked _ _ (by rw [hpc]; rfl) rfl rfl (by simp [hpc, ListPc.onItsWay])
    | appendBody item => exact h.appendBody hb hpc
    | appendUnlock => exact h.appendUnlock hb hpc
    | removeLock => exact hlocked _ _ (by rw [hpc]; rfl) rfl rfl (by simp [hpc, ListPc.onItsWay])
    | removeTest signalled => exact h.removeTest hb hpc
    | waitSignal =>
      have hno : (pc t).holds = false := by rw [hpc]; rfl
      simp only [listProgram, h.acquire hno, ok_bind, pure_eq_ok]
      exact hlocked _ _ hno rfl rfl (by simp [hpc, ListPc.onItsWay])
    | waitLock => exact hlocked _ _ (by rw [hpc]; rfl) rfl rfl (by simp [hpc, ListPc.onItsWay])

theorem listProgram_stable : Stable (listProgram Tid α) (fun _ _ _ _ => True) ListInv where
  exec hinv hb he _ hs := by
    obtain ⟨e, hrun, hrest⟩ := hinv.sect hb he
    rw [hrun] at hs
    cases hs
    exact hrest
  interrupt {_ _ _ ev} _ _ := nomatch ev

omit [DecidableEq Tid] in
theorem listStart_inv {s : State Tid (ListPc α) (SynchList Tid α)} (h : ListStart s) :
    Placed s ∧ ListInv s.pc s.blocked s.obj := by
  obtain ⟨hp, ho, hpc⟩ := h
  rw [ho]
  refine ⟨hp, Lock.new_ok.congr (by simp [hpc, ListPc.holds]) (by simp [hpc, ListPc.inAcquire]),
    by simp [SynchList.new, hpc, ListPc.inWait], List.nodup_nil, fun hq => absurd rfl hq⟩

/-! ## The items -/

/-- The item that `List::Append` adds in a section. -/
def appendedItem : ListEvent Tid α → Option α
  | .ran _ .resume (.appendBody item) _ => some item
  | _ => none

/-- The item that `SynchList::Remove` returns at the end of a section. -/
def returnedItem : ListEvent Tid α → Option α
  | .ran _ .resume _ (.outside returned) => returned
  | _ => none

/-- The item that a call of `Append` is given. -/
def ListAct.item : ListAct α → Option α
  | append item => some item
  | _ => none

/-- The item that a thread is going to append. -/
def ListPc.appends : ListPc α → Option α
  | appendLock item | appendBody item => some item
  | _ => none

/-- The items appended are those returned and then those in the list, and a thread in `Append` adds the item that
it was called with. -/
structure ListLog (es : List (ListEvent Tid α)) (pc : Tid → ListPc α) (o : SynchList Tid α) :
    Prop where
  fifo : es.filterMap appendedItem = es.filterMap returnedItem ++ o.list
  called : ∀ t item, (pc t).appends = some item → lastCall ListAct.item t es = some item

section Log
omit [Fintype Tid]
variable {es : List (ListEvent Tid α)} {a : ListAct α} {p q : ListPc α} {o' : SynchList Tid α}

/-- A section of thread `t`: what it adds at the end of the list and takes from the front. -/
theorem ListLog.ran (h : ListLog es pc o) (hpc : pc t = p)
    (hlist : o.list ++ (appendedItem (.ran t a p q)).toList = (returnedItem (.ran t a p q)).toList ++ o'.list)
    (hitem : ∀ item, q.appends = some item → a.item.or p.appends = some item) :
    ListLog (es ++ [.ran t a p q]) (Function.update pc t q) o' where
  fifo := by
    have hlast : ∀ (f : ListEvent Tid α → Option α) (ev : ListEvent Tid α),
        List.filterMap f [ev] = (f ev).toList := by
      intro f ev
      cases hf : f ev <;> simp [hf]
    rw [List.filterMap_append, List.filterMap_append, hlast, hlast, h.fifo, List.append_assoc, List.append_assoc, hlist]
  called u item hu := by
    rw [lastCall_ran]
    by_cases hut : u = t
    · subst hut
      rw [Function.update_self] at hu
      have hcalled := hitem item hu
      rw [if_pos rfl]
      cases ha : a.item with
      | some i => simpa [ha] using hcalled
      | none => simpa [ha] using h.called u item (by simpa [ha, hpc] using hcalled)
    · rw [Function.update_of_ne hut] at hu
      rw [if_neg (Ne.symm hut)]
      exact h.called u item hu

/-- A pass through the loop of `Acquire` by a thread that calls or goes on with `Append` or `Remove`. -/
theorem ListLog.locked (h : ListLog es pc o) (hpc : pc t = p) {inside waiting : ListPc α} (r : Lock Tid × Bool)
    (hadd : ∀ q, appendedItem (.ran t a p q) = none) (hi : inside.holds = true) (hw : waiting.inAcquire = true)
    (hitem : ∀ q, q = inside ∨ q = waiting → ∀ item, q.appends = some item → a.item.or p.appends = some item) :
    ListLog (es ++ [.ran t a p (o.locked inside waiting r).pc])
      (Function.update pc t (o.locked inside waiting r).pc) (o.locked inside waiting r).obj := by
  have hcases : (o.locked inside waiting r).obj.list = o.list ∧
      ((o.locked inside waiting r).pc = inside ∨ (o.locked inside waiting r).pc = waiting) := by
    unfold SynchList.locked
    split
    · exact ⟨rfl, Or.inl rfl⟩
    · exact ⟨rfl, Or.inr rfl⟩
  have hno : returnedItem (.ran t a p (o.locked inside waiting r).pc) = none := by
    rcases hcases.2 with hq | hq <;> rw [hq]
    · cases inside <;> cases hi <;> cases a <;> rfl
    · cases waiting <;> cases hw <;> cases a <;> rfl
  refine h.ran hpc ?_ (hitem _ hcases.2)
  rw [hadd, hno, hcases.1]
  simp

theorem ListLog.removeTest (h : ListLog es pc o) {signalled : Bool} (hpc : pc t = .removeTest signalled)
    {e : ListEffect Tid α} (hs : o.removeTest t = .ok e) :
    ListLog (es ++ [.ran t .resume (.removeTest signalled) e.pc]) (Function.update pc t e.pc) e.obj := by
  unfold SynchList.removeTest at hs
  cases hlist : o.list with
  | nil =>
    rw [hlist] at hs
    obtain ⟨⟨listEmpty, lock, wakes⟩, -, hr⟩ := bind_eq_ok.mp hs
    cases hr
    exact h.ran hpc (by rw [hlist]; rfl) (by simp [ListPc.appends])
  | cons item rest =>
    rw [hlist] at hs
    obtain ⟨⟨lock, wakes⟩, -, hr⟩ := bind_eq_ok.mp hs
    cases hr
    refine h.ran hpc ?_ (by simp [ListPc.appends])
    rw [hlist]
    exact List.append_nil _

theorem ListLog.sect (h : ListLog es pc o) {e : ListEffect Tid α}
    (he : (listProgram Tid α).enabled a (pc t)) (hs : (listProgram Tid α).sect a t (pc t) o = .ok e) :
    ListLog (es ++ [.ran t a (pc t) e.pc]) (Function.update pc t e.pc) e.obj := by
  cases a with
  | append item =>
    obtain ⟨r, -, hr⟩ := bind_eq_ok.mp hs
    cases hr
    exact h.locked rfl r (fun _ => rfl) rfl rfl (by rintro q (rfl | rfl) i hi <;> exact hi)
  | remove =>
    obtain ⟨r, -, hr⟩ := bind_eq_ok.mp hs
    cases hr
    exact h.locked rfl r (fun _ => rfl) rfl rfl (by rintro q (rfl | rfl) i hi <;> cases hi)
  | resume =>
    cases hpc : pc t with
    | outside returned =>
      rw [hpc] at he
      exact he.elim
    | appendLock item =>
      rw [hpc] at hs
      cases hs
      exact h.locked hpc _ (fun _ => rfl) rfl rfl (by rintro q (rfl | rfl) i hi <;> exact hi)
    | appendBody item =>
      rw [hpc] at hs
      obtain ⟨⟨listEmpty, wakes⟩, -, hr⟩ := bind_eq_ok.mp hs
      cases hr
      exact h.ran hpc rfl (by simp [ListPc.appends])
    | appendUnlock =>
      rw [hpc] at hs
      obtain ⟨⟨lock, wakes⟩, -, hr⟩ := bind_eq_ok.mp hs
      cases hr
      exact h.ran hpc (List.append_nil _) (by simp [ListPc.appends])
    | removeLock =>
      rw [hpc] at hs
      cases hs
      exact h.locked hpc _ (fun _ => rfl) rfl rfl (by rintro q (rfl | rfl) i hi <;> cases hi)
    | removeTest signalled =>
      rw [hpc] at hs
      exact h.removeTest hpc hs
    | waitSignal =>
      rw [hpc] at hs
      obtain ⟨r, -, hr⟩ := bind_eq_ok.mp hs
      cases hr
      exact h.locked hpc r (fun _ => rfl) rfl rfl (by rintro q (rfl | rfl) i hi <;> cases hi)
    | waitLock =>
      rw [hpc] at hs
      cases hs
      exact h.locked hpc _ (fun _ => rfl) rfl rfl (by rintro q (rfl | rfl) i hi <;> cases hi)

end Log

/-- In every interleaving of producers and consumers the items appended are those that `Remove` has returned, in
this order, and those in the list; no assertion fails, `Wait` returns with the lock held, and a non-empty list with
sleeping consumers has a signalled consumer on its way. -/
theorem synchList_fifo {es : List (ListEvent Tid α)} {s : State Tid (ListPc α) (SynchList Tid α)}
    (hs : History ListStart (listProgram Tid α) (fun _ _ _ _ => True) es s) :
    es.filterMap appendedItem = es.filterMap returnedItem ++ s.obj.list ∧
    (∀ t item, s.pc t = .appendLock item ∨ s.pc t = .appendBody item → lastCall ListAct.item t es = some item) ∧
    (∀ a, s.status s.current = .running → (listProgram Tid α).enabled a (s.pc s.current) →
      ∃ e, (listProgram Tid α).sect a s.current (s.pc s.current) s.obj = .ok e) ∧
    (∀ t signalled, s.pc t = .removeTest signalled →
      s.obj.lock.available = false ∧ s.obj.lock.ownerThread = some t) ∧
    (s.obj.list ≠ [] → s.obj.listEmpty.queue ≠ [] → ∃ t, s.pc t = .waitSignal ∧ s.status t ≠ .blocked ∨
      s.pc t = .waitLock ∨ s.pc t = .removeTest true) := by
  obtain ⟨-, hinv⟩ := listProgram_stable.run (fun _ h => listStart_inv h) hs.reachable
  have hlog : ListLog es s.pc s.obj := by
    refine listProgram_stable.history (fun _ h => listStart_inv h) (fun s h => ⟨?_, fun t item ht => ?_⟩)
      (fun _ hlog he hsect => hlog.sect he hsect) (fun {_ _ _ _ ev} => nomatch ev) hs
    · rw [h.2.1]
      rfl
    · rw [h.2.2 t] at ht
      cases ht
  refine ⟨hlog.fifo, fun t item ht => hlog.called t item ?_, fun a hr he => ?_, fun t signalled ht => ?_,
    fun hl hq => ?_⟩
  · rcases ht with ht | ht <;> rw [ht] <;> rfl
  · obtain ⟨e, hrun, -⟩ := hinv.sect (by simp [State.blocked, hr]) he
    exact ⟨e, hrun⟩
  · have hholds : (s.pc t).holds = true := by rw [ht]; rfl
    exact ⟨hinv.lock.not_available hholds, (hinv.lock.owner t).mpr hholds⟩
  · have hpos : 0 < count fun t => (s.pc t).onItsWay (s.blocked t) = true :=
      (List.length_pos_of_ne_nil hl).trans_le (hinv.wake hq)
    obtain ⟨t, ht⟩ := exists_of_count_pos hpos
    refine ⟨t, ?_⟩
    cases hpc : s.pc t with
    | waitSignal =>
      rw [hpc] at ht
      simpa [ListPc.onItsWay, State.blocked] using ht
    | waitLock => simp
    | removeTest signalled =>
      rw [hpc] at ht
      simpa [ListPc.onItsWay] using ht
    | outside _ | appendLock _ | appendBody _ | appendUnlock | removeLock =>
      rw [hpc] at ht
      cases ht

/-- Two consumers wait on the empty list; the third thread appends, and the first consumer returns its item. -/
theorem synchList_fifo_consumer :
    ∃ (es es' : List (Event (Fin 3) (ListPc ℕ) (ListAct ℕ) Empty))
      (s s' : State (Fin 3) (ListPc ℕ) (SynchList (Fin 3) ℕ)),
      History ListStart (listProgram (Fin 3) ℕ) (fun _ _ _ _ => True) es s ∧ s.obj.list = [7] ∧
      s.obj.listEmpty.queue = [1] ∧
      (∃ t, s.pc t = .waitSignal ∧ s.status t ≠ .blocked ∨ s.pc t = .waitLock ∨ s.pc t = .removeTest true) ∧
      History ListStart (listProgram (Fin 3) ℕ) (fun _ _ _ _ => True) es' s' ∧ s'.pc 0 = .outside (some 7) ∧
      es'.filterMap returnedItem = [7] ∧ es'.filterMap appendedItem = [7] ++ s'.obj.list := by
  have hany : ∀ (s : State (Fin 3) (ListPc ℕ) (SynchList (Fin 3) ℕ)) (l : Label (Fin 3) (ListAct ℕ) Empty),
      Disciplined (fun _ _ _ _ => True) s l := fun _ _ _ _ => trivial
  have h0 : History ListStart (listProgram (Fin 3) ℕ) (fun _ _ _ _ => True) []
      (threeThreads (.outside none) SynchList.new) := .start ⟨threeThreads_placed _ _, rfl, fun _ => rfl⟩
  have h1 := h0.next (hany _ _) (Step.exec (a := ListAct.remove) rfl trivial rfl)
  have h2 := h1.next (hany _ _) (Step.exec (a := ListAct.resume) rfl trivial rfl)
  have h3 := h2.next (hany _ _) (Step.dispatch (t := 1) (by decide) (by decide))
  have h4 := h3.next (hany _ _) (Step.exec (a := ListAct.remove) rfl trivial rfl)
  have h5 := h4.next (hany _ _) (Step.exec (a := ListAct.resume) rfl trivial rfl)
  have h6 := h5.next (hany _ _) (Step.dispatch (t := 2) (by decide) (by decide))
  have h7 := h6.next (hany _ _) (Step.exec (a := ListAct.append 7) rfl trivial rfl)
  have h8 := h7.next (hany _ _) (Step.exec (a := ListAct.resume) rfl trivial rfl)
  have h9 := h8.next (hany _ _) (Step.exec (a := ListAct.resume) rfl trivial rfl)
  have h10 := h9.next (hany _ _) (Step.yield (t := 0) (by decide) (by decide))
  have h11 := h10.next (hany _ _) (Step.exec (a := ListAct.resume) rfl trivial rfl)
  have h12 := h11.next (hany _ _) (Step.exec (a := ListAct.resume) rfl trivial rfl)
  obtain ⟨-, -, -, -, hway⟩ := synchList_fifo h8
  obtain ⟨hfifo, -⟩ := synchList_fifo h12
  exact ⟨_, _, _, _, h8, rfl, rfl, hway (List.cons_ne_nil _ _) (List.cons_ne_nil _ _), h12, rfl, rfl, hfifo⟩

end Nachos
