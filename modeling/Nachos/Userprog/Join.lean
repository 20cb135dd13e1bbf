import Nachos.Library.Ring
import Nachos.Threads.Synch

/-! # `Exec`, `Exit` and `Join` (`userprog/exception.cc`, `threads/thread.cc`, `threads/childthread.cc`)

A process keeps a ring of records, one for each child, in the order of their creation. `records` is the
heap of them, by address. The root process is as `Thread(name, NULL)` makes it. `exits` records the calls
of `notifyParent` and `returns` what `Join` has returned to its callers. -/
set_option autoImplicit false

namespace Nachos
open Execution Uniprocessor

variable {Tid : Type}

structure ChildThread (Tid : Type) where
  thread : Option Tid
  status : Int
  id : Int
  joinSem : Semaphore Tid
  next : ℕ
  prev : ℕ

/-- `ChildThread::ChildThread`, for a record at address `this`. -/
def ChildThread.new (this : ℕ) (thread : Tid) (id : Int) : ChildThread Tid :=
  ⟨some thread, -1, id, ⟨0, []⟩, this, this⟩

/-- What `Join` returned to its caller, in `r2`. -/
structure JoinReturn (Tid : Type) where
  caller : Tid
  cid : Int
  value : Int
  deriving DecidableEq

structure Processes (Tid : Type) where
  records : ℕ → ChildThread Tid
  allocated : ℕ
  child : Tid → Option ℕ
  parentRecord : Tid → Option ℕ
  globalID : Int
  threadToBeDestroyed : Option Tid
  created : Tid → Bool
  exits : List (Tid × Int)
  returns : List (JoinReturn Tid)

inductive ProcPc (Tid : Type) where
  | user
  | inExec (thread : Tid)
  | inJoin (record : ℕ) (cid : Int)
  | notified
  | finished
  deriving DecidableEq

/-- What a system call leaves when it returns or gives up the processor. -/
abbrev ProcEffect (Tid : Type) := Effect Tid (ProcPc Tid) (Processes Tid)

abbrev ProcState (Tid : Type) := State Tid (ProcPc Tid) (Processes Tid)

inductive ProcAct (Tid : Type) where
  | exec (thread : Tid)
  | launch (loaded : Bool)
  | join (cid : Int)
  | resume
  | notify (status : Int)
  | finish

namespace Processes

variable [DecidableEq Tid]

def next (o : Processes Tid) (r : ℕ) : ℕ := (o.records r).next

/-- The links of the constructor when the parent has children: the record goes before the first one. -/
def link (records : ℕ → ChildThread Tid) (record firstChild : ℕ) : ℕ → ChildThread Tid :=
  let records := Function.update records record { records record with prev := (records firstChild).prev }
  let records := Function.update records record { records record with next := firstChild }
  let last := (records firstChild).prev
  let records := Function.update records last { records last with next := record }
  Function.update records firstChild { records firstChild with prev := record }

/-- `Thread::Thread(name, parent)`. -/
def newThread (o : Processes Tid) (thread parent : Tid) : Call (Processes Tid) :=
  if o.globalID = intMax then .error .overflow
  else
    let record := o.allocated
    let records := Function.update o.records record (ChildThread.new record thread o.globalID)
    let o := { o with allocated := record + 1, globalID := o.globalID + 1,
                      parentRecord := Function.update o.parentRecord thread (some record),
                      child := Function.update o.child thread none,
                      created := Function.update o.created thread true }
    .ok (match o.child parent with
      | none => { o with records := records, child := Function.update o.child parent (some record) }
      | some firstChild => { o with records := link records record firstChild })

/-- The rest of `Exec`: fork the new thread, or delete it when its program cannot be loaded. -/
def launch (o : Processes Tid) (thread : Tid) (loaded : Bool) : ProcEffect Tid :=
  { obj := o, pc := .user, wakes := if loaded then [thread] else [] }

/-- `Thread::notifyParent`. -/
def notifyParent (o : Processes Tid) (thread : Tid) (status : Int) : Call (Processes Tid × List Tid) := do
  let o := { o with exits := o.exits ++ [(thread, status)] }
  match o.parentRecord thread with
  | none => return (o, [])
  | some r =>
    let (joinSem, wakes) ← (o.records r).joinSem.v
    let record := { o.records r with status := status, thread := none, joinSem := joinSem }
    return ({ o with records := Function.update o.records r record }, wakes)

def joinReturns (o : Processes Tid) (caller : Tid) (cid value : Int) : Processes Tid :=
  { o with returns := o.returns ++ [⟨caller, cid, value⟩] }

def setSem (o : Processes Tid) (r : ℕ) (joinSem : Semaphore Tid) : Processes Tid :=
  { o with records := Function.update o.records r { o.records r with joinSem := joinSem } }

/-- One pass through the loop of `P` in `Join`, which returns `0` after it. -/
def joinRecord (o : Processes Tid) (t : Tid) (r : ℕ) (cid : Int) : ProcEffect Tid :=
  let p := (o.records r).joinSem.tryP t
  if p.2 then { obj := (o.setSem r p.1).joinReturns t cid 0, pc := .user }
  else { obj := o.setSem r p.1, pc := .inJoin r cid, sleeps := true }

/-- `Join_Syscall_Func`, up to its return or to a `Sleep` in `P`. The loop meets each record once. -/
def join (o : Processes Tid) (t : Tid) (cid : Int) : Call (ProcEffect Tid) :=
  let notFound : ProcEffect Tid := { obj := o.joinReturns t cid (-1), pc := .user }
  if 0 ≤ cid then
    match o.child t with
    | none => .ok notFound
    | some first =>
      match LinkRing.scan o.next (fun r => (o.records r).id == cid) first o.allocated first with
      | none => .error .outOfFuel
      | some none => .ok notFound
      | some (some r) => .ok (o.joinRecord t r cid)
  else .ok notFound

/-- `Thread::~Thread` for a finished thread. Its loop over the children ends before the first one. -/
def destroy (o : Processes Tid) : Processes Tid :=
  match o.threadToBeDestroyed with
  | none => o
  | some t => { o with child := Function.update o.child t none, threadToBeDestroyed := none }

end Processes

/-- The system calls of the processes; a fatal fault is a `notify` of `-1`. The scheduler destroys finished
threads at some later time. -/
def processProgram (Tid : Type) [DecidableEq Tid] : Program Tid (ProcPc Tid) (Processes Tid) (ProcAct Tid) Unit Trap where
  enabled
    | .exec _, .user | .join _, .user | .notify _, .user => True
    | .launch _, .inExec _ => True
    | .resume, .inJoin _ _ => True
    | .finish, .notified => True
    | _, _ => False
  sect
    | .exec thread, t, _, o => do
      let o ← o.newThread thread t
      return { obj := o, pc := .inExec thread }
    | .launch loaded, _, .inExec thread, o => .ok (o.launch thread loaded)
    | .join cid, t, _, o => o.join t cid
    | .resume, t, .inJoin r cid, o => .ok (o.joinRecord t r cid)
    | .notify status, t, _, o => do
      let (o, wakes) ← o.notifyParent t status
      return { obj := o, pc := .notified, wakes := wakes }
    | .finish, t, _, o => .ok { obj := { o with threadToBeDestroyed := some t }, pc := .finished, sleeps := true }
    | _, _, pc, o => .ok { obj := o, pc := pc }
  handler _ o := .ok (o.destroy, [])

/-- The root process runs and there is no other. -/
structure ProcStart [DecidableEq Tid] (s : ProcState Tid) : Prop where
  created : ∀ t, s.obj.created t = true ↔ t = s.current
  status : ∀ t, s.status t = if t = s.current then .running else .blocked
  ready : s.readyList = []
  pc : ∀ t, s.pc t = .user
  allocated : s.obj.allocated = 0
  globalID : s.obj.globalID = 0
  child : ∀ t, s.obj.child t = none
  parentRecord : ∀ t, s.obj.parentRecord t = none
  destroyed : s.obj.threadToBeDestroyed = none
  exits : s.obj.exits = []
  returns : s.obj.returns = []

/-- `new Thread` is a thread that has not been there before. -/
def newThreads : ProcAct Tid → Tid → ProcPc Tid → Processes Tid → Prop
  | .exec thread, _, _, o => o.created thread = false
  | _, _, _, _ => True

abbrev ProcState.Reached [DecidableEq Tid] (s : ProcState Tid) : Prop :=
  Reachable ProcStart (Step (processProgram Tid)) (Disciplined newThreads) s

/-! ## The rings of children -/

namespace Processes

/-- The records that the links reach from a thread's first child. -/
def InRing (o : Processes Tid) (t : Tid) (r : ℕ) : Prop := ∃ first n, o.child t = some first ∧ o.next^[n] first = r

/-- The children of a thread, in the order of the ring. -/
def Linked (o : Processes Tid) (t : Tid) : List ℕ → Prop
  | [] => o.child t = none
  | first :: rest => o.child t = some first ∧ LinkRing.Path o.next first rest first ∧
      (o.records first).prev = rest.getLastD first

variable {o o' : Processes Tid} {t u : Tid} {l : List ℕ}

theorem Linked.congr (h : o.Linked t l) (hc : o'.child t = o.child t)
    (hr : ∀ r ∈ l, (o'.records r).next = (o.records r).next ∧ (o'.records r).prev = (o.records r).prev) :
    o'.Linked t l := by
  cases l with
  | nil => exact hc.trans h
  | cons first rest =>
    obtain ⟨hchild, hpath, hprev⟩ := h
    exact ⟨hc.trans hchild, hpath.congr fun r hm => (hr r hm).1, (hr first List.mem_cons_self).2.trans hprev⟩

theorem Linked.inRing (h : o.Linked t l) (r : ℕ) : o.InRing t r ↔ r ∈ l := by
  cases l with
  | nil =>
    have hnone : o.child t = none := h
    simp [InRing, hnone]
  | cons first rest =>
    obtain ⟨hchild, hpath, -⟩ := h
    rw [hpath.mem_iff]
    simp [InRing, hchild]

/-- `Join` finds the record with the given number, if there is one in the ring. -/
theorem Linked.join (h : o.Linked t l) (hnd : l.Nodup) (hlen : l.length ≤ o.allocated)
    (hid : ∀ r ∈ l, (o.records r).id = r) (cid : Int) :
    (∃ r ∈ l, cid = r ∧ o.join t cid = .ok (o.joinRecord t r cid)) ∨
    (∀ r ∈ l, cid ≠ r) ∧ o.join t cid = .ok { obj := o.joinReturns t cid (-1), pc := .user } := by
  by_cases h0 : 0 ≤ cid
  · cases l with
    | nil =>
      have hnone : o.child t = none := h
      exact Or.inr ⟨by simp, by simp [Processes.join, h0, hnone]⟩
    | cons first rest =>
      obtain ⟨hchild, hpath, -⟩ := h
      have hscan := hpath.scan (List.nodup_cons.mp hnd).1 (fun r => (o.records r).id == cid)
        (by rw [List.length_cons] at hlen; omega : rest.length < o.allocated)
      cases hfind : (first :: rest).find? (fun r => (o.records r).id == cid) with
      | none =>
        refine Or.inr ⟨fun r hr he => ?_, ?_⟩
        · have hno := List.find?_eq_none.mp hfind r hr
          simp [hid r hr, he] at hno
        · simp only [Processes.join, h0, if_true, hchild, hscan, hfind]
      | some r =>
        have hr := List.mem_of_find?_eq_some hfind
        have hcid := List.find?_some hfind
        refine Or.inl ⟨r, hr, ?_, ?_⟩
        · rw [← hid r hr]
          exact (eq_of_beq hcid).symm
        · simp only [Processes.join, h0, if_true, hchild, hscan, hfind]
  · refine Or.inr ⟨fun r _ he => h0 (by omega), ?_⟩
    simp only [Processes.join, h0, if_false]

theorem notifyParent_cases {status : Int} {wakes : List Tid} (hrun : o.notifyParent t status = .ok (o', wakes)) :
    (o.parentRecord t = none ∧ wakes = [] ∧ o' = { o with exits := o.exits ++ [(t, status)] }) ∨
    ∃ r, o.parentRecord t = some r ∧ wakes = (o.records r).joinSem.queue.take 1 ∧
      o' = { o with
        records := Function.update o.records r { o.records r with
          status := status, thread := none,
          joinSem := ⟨(o.records r).joinSem.value + 1, (o.records r).joinSem.queue.drop 1⟩ },
        exits := o.exits ++ [(t, status)] } := by
  unfold notifyParent at hrun
  cases hpr : o.parentRecord t with
  | none =>
    simp only [hpr, pure_eq_ok, Except.ok.injEq, Prod.mk.injEq] at hrun
    exact Or.inl ⟨rfl, hrun.2.symm, hrun.1.symm⟩
  | some r =>
    simp only [hpr, Semaphore.v] at hrun
    split at hrun
    · cases hrun
    · simp only [ok_bind, pure_eq_ok, Except.ok.injEq, Prod.mk.injEq] at hrun
      exact Or.inr ⟨r, rfl, hrun.2.symm, hrun.1.symm⟩

/-! ## A new record -/

variable {records : ℕ → ChildThread Tid} {x first : ℕ}

/-- A field that an assignment to a record does not change. -/
theorem update_field {β : Type} (f : ChildThread Tid → β) (records : ℕ → ChildThread Tid) (a : ℕ)
    {c : ChildThread Tid} (hc : f c = f (records a)) (r : ℕ) : f (Function.update records a c r) = f (records r) := by
  by_cases hr : r = a
  · rw [hr, Function.update_self, hc]
  · rw [Function.update_of_ne hr]

/-- The links change `next` and `prev` only. -/
theorem link_field {β : Type} (f : ChildThread Tid → β)
    (hf : ∀ (record : ChildThread Tid) (next prev : ℕ), f { record with next := next, prev := prev } = f record)
    (records : ℕ → ChildThread Tid) (x first r : ℕ) : f (link records x first r) = f (records r) := by
  unfold link
  rw [update_field f _ _ (hf _ _ _), update_field f _ _ (hf _ _ _), update_field f _ _ (hf _ _ _),
    update_field f _ _ (hf _ _ _)]

theorem link_next (hx : x ≠ first) (r : ℕ) :
    (link records x first r).next =
      Function.update (Function.update (fun r => (records r).next) x first) (records first).prev x r := by
  unfold link
  simp only [Function.update_of_ne hx.symm, Function.update_idem, Function.update_self]
  rw [update_field ChildThread.next _ _ (by rfl)]
  by_cases hl : r = (records first).prev
  · rw [hl, Function.update_self, Function.update_self]
  · rw [Function.update_of_ne hl, Function.update_of_ne hl]
    by_cases hr : r = x
    · rw [hr, Function.update_self, Function.update_self]
    · rw [Function.update_of_ne hr, Function.update_of_ne hr]

theorem link_prev (hx : x ≠ first) {r : ℕ} (hr : r ≠ x) :
    (link records x first r).prev = if r = first then x else (records r).prev := by
  unfold link
  simp only [Function.update_of_ne hx.symm, Function.update_idem, Function.update_self]
  by_cases hf : r = first
  · rw [hf, Function.update_self, if_pos rfl]
  · rw [Function.update_of_ne hf, update_field ChildThread.prev _ _ (by rfl), Function.update_of_ne hr, if_neg hf]

variable [DecidableEq Tid]

/-- The constructor of thread `c` before it sets the links. -/
def register (o : Processes Tid) (c : Tid) : Processes Tid :=
  { o with records := Function.update o.records o.allocated (ChildThread.new o.allocated c o.globalID),
           allocated := o.allocated + 1, globalID := o.globalID + 1,
           parentRecord := Function.update o.parentRecord c (some o.allocated),
           child := Function.update o.child c none,
           created := Function.update o.created c true }

/-- What the constructor of thread `c` changes apart from the links. -/
structure Grown (o o' : Processes Tid) (c : Tid) : Prop where
  allocated : o'.allocated = o.allocated + 1
  globalID : o'.globalID = o.globalID + 1
  parentRecord : o'.parentRecord = Function.update o.parentRecord c (some o.allocated)
  created : o'.created = Function.update o.created c true
  ids : ∀ r, (o'.records r).id = if r = o.allocated then o.globalID else (o.records r).id
  joinSem : ∀ r, (o'.records r).joinSem = if r = o.allocated then ⟨0, []⟩ else (o.records r).joinSem
  status : ∀ r, r ≠ o.allocated → (o'.records r).status = (o.records r).status
  exits : o'.exits = o.exits
  returns : o'.returns = o.returns
  destroyed : o'.threadToBeDestroyed = o.threadToBeDestroyed

variable {c : Tid}

theorem newThread_cases (hrun : o.newThread c t = .ok o') :
    ((o.register c).child t = none ∧
      o' = { o.register c with child := Function.update (o.register c).child t (some o.allocated) }) ∨
    ∃ first, (o.register c).child t = some first ∧
      o' = { o.register c with records := link (o.register c).records o.allocated first } := by
  unfold newThread at hrun
  split at hrun
  · cases hrun
  · simp only [Except.ok.injEq] at hrun
    split at hrun
    · next hnone => exact Or.inl ⟨hnone, hrun.symm⟩
    · next first hfirst => exact Or.inr ⟨first, hfirst, hrun.symm⟩

theorem register_self (o : Processes Tid) (c : Tid) :
    (o.register c).records o.allocated = ChildThread.new o.allocated c o.globalID :=
  Function.update_self _ _ _

theorem register_child (hct : t ≠ c) : (o.register c).child t = o.child t := Function.update_of_ne hct _ _

theorem newThread_of_none (hrun : o.newThread c t = .ok o') (hct : t ≠ c) (hchild : o.child t = none) :
    o' = { o.register c with child := Function.update (o.register c).child t (some o.allocated) } := by
  rcases newThread_cases hrun with ⟨-, ho'⟩ | ⟨first, hfirst, -⟩
  · exact ho'
  · rw [register_child hct, hchild] at hfirst
    cases hfirst

theorem newThread_of_some (hrun : o.newThread c t = .ok o') (hct : t ≠ c) (hchild : o.child t = some first) :
    o' = { o.register c with records := link (o.register c).records o.allocated first } := by
  rcases newThread_cases hrun with ⟨hnone, -⟩ | ⟨first', hfirst, ho'⟩
  · rw [register_child hct, hchild] at hnone
    cases hnone
  · rw [register_child hct, hchild] at hfirst
    cases hfirst
    exact ho'

/-- A field of the records that the links do not change. -/
theorem newThread_field {β : Type} (f : ChildThread Tid → β)
    (hf : ∀ (record : ChildThread Tid) (next prev : ℕ), f { record with next := next, prev := prev } = f record)
    (hrun : o.newThread c t = .ok o') (r : ℕ) :
    f (o'.records r) = if r = o.allocated then f (ChildThread.new o.allocated c o.globalID) else f (o.records r) := by
  have hnew : f ((o.register c).records r) =
      if r = o.allocated then f (ChildThread.new o.allocated c o.globalID) else f (o.records r) := by
    rw [← apply_ite f]
    exact congrArg f (Function.update_apply _ _ _ _)
  rcases newThread_cases hrun with ⟨-, rfl⟩ | ⟨first, -, rfl⟩
  · exact hnew
  · exact (link_field f hf _ _ _ _).trans hnew

theorem newThread_grown (hrun : o.newThread c t = .ok o') : Grown o o' c := by
  have hids := newThread_field ChildThread.id (fun _ _ _ => rfl) hrun
  have hjoinSem := newThread_field ChildThread.joinSem (fun _ _ _ => rfl) hrun
  have hstatus : ∀ r, r ≠ o.allocated → (o'.records r).status = (o.records r).status := by
    intro r hr
    rw [newThread_field ChildThread.status (fun _ _ _ => rfl) hrun, if_neg hr]
  rcases newThread_cases hrun with ⟨-, rfl⟩ | ⟨first, -, rfl⟩
  · exact ⟨rfl, rfl, rfl, rfl, hids, hjoinSem, hstatus, rfl, rfl, rfl⟩
  · exact ⟨rfl, rfl, rfl, rfl, hids, hjoinSem, hstatus, rfl, rfl, rfl⟩

/-- The new record is the last one in the ring of its parent. -/
theorem newThread_linked_parent (hrun : o.newThread c t = .ok o') (hct : t ≠ c) (h : o.Linked t l) (hnd : l.Nodup)
    (hl : ∀ r ∈ l, r < o.allocated) : o'.Linked t (l ++ [o.allocated]) := by
  have hfresh : o.allocated ∉ l := fun hm => lt_irrefl _ (hl _ hm)
  cases l with
  | nil =>
    obtain rfl := newThread_of_none hrun hct h
    have hself := register_self o c
    exact ⟨Function.update_self _ _ _, congrArg ChildThread.next hself, congrArg ChildThread.prev hself⟩
  | cons first rest =>
    obtain ⟨hchild, hpath, hprev⟩ := h
    obtain rfl := newThread_of_some hrun hct hchild
    have hx : o.allocated ≠ first := fun he => hfresh (he ▸ List.mem_cons_self)
    have hlast : ((o.register c).records first).prev = rest.getLastD first := by
      rw [← hprev]
      exact congrArg ChildThread.prev (Function.update_of_ne hx.symm _ _)
    refine ⟨(register_child hct).trans hchild, (hpath.snoc hnd hfresh).congr fun r hr => ?_, ?_⟩
    · simp only [Processes.next]
      rw [link_next hx, hlast]
      congr 1
      funext r'
      by_cases hr' : r' = o.allocated
      · simp [hr']
      · simp [hr', Processes.next, register]
    · simp [link_prev hx hx.symm]

/-- Other rings are not touched. -/
theorem newThread_linked_other (hrun : o.newThread c t = .ok o') (hct : t ≠ c) {l' : List ℕ} (h : o.Linked t l)
    (hl : ∀ r ∈ l, r < o.allocated) (hu : u ≠ t) (hl' : o.Linked u l') (hc : u = c → l' = [])
    (hlt : ∀ r ∈ l', r < o.allocated) (hdisj : ∀ r ∈ l', r ∉ l) : o'.Linked u l' := by
  have hold : ∀ r ∈ l', (o.register c).records r = o.records r := fun r hr =>
    Function.update_of_ne (Nat.ne_of_lt (hlt r hr)) _ _
  have hchild : (o.register c).child u = o.child u := by
    by_cases huc : u = c
    · rw [hc huc] at hl'
      have hnone : o.child u = none := hl'
      rw [hnone, huc]
      exact Function.update_self _ _ _
    · exact register_child huc
  cases l with
  | nil =>
    obtain rfl := newThread_of_none hrun hct h
    refine hl'.congr ((Function.update_of_ne hu _ _).trans hchild) fun r hr => ?_
    simp only [hold r hr, and_self]
  | cons first rest =>
    obtain ⟨hfirst, hpath, hprev⟩ := h
    obtain rfl := newThread_of_some hrun hct hfirst
    refine hl'.congr hchild fun r hr => ?_
    have hr' : r ≠ o.allocated := Nat.ne_of_lt (hlt r hr)
    have hrf : r ≠ first := fun he => hdisj r hr (he ▸ List.mem_cons_self)
    have hrl : r ≠ rest.getLastD first := fun he => hdisj r hr (he ▸ LinkRing.getLastD_mem first rest)
    have hx : o.allocated ≠ first := fun he => lt_irrefl _ (he ▸ hl first List.mem_cons_self)
    have hfirst' : (o.register c).records first = o.records first := Function.update_of_ne hx.symm _ _
    simp only [link_next hx, link_prev hx hr', hfirst', hprev, Function.update_of_ne hrl, Function.update_of_ne hr',
      hold r hr, if_neg hrf, and_self]

/-! ## The records of all processes -/

/-- Each record is in the ring of one thread and is the record of one child; `live` threads can still
reach their ring. -/
structure Forest (o : Processes Tid) (ring : Tid → List ℕ) (live : Tid → Prop) : Prop where
  alloc : ∀ t, ∀ r ∈ ring t, r < o.allocated
  nodup : ∀ t, (ring t).Nodup
  disjoint : ∀ t u r, r ∈ ring t → r ∈ ring u → t = u
  linked : ∀ t, live t → o.Linked t (ring t)
  ids : ∀ r < o.allocated, (o.records r).id = r
  globalID : o.globalID = o.allocated
  parentAlloc : ∀ c r, o.parentRecord c = some r → r < o.allocated
  parentInj : ∀ c d r, o.parentRecord c = some r → o.parentRecord d = some r → c = d
  parentExists : ∀ r < o.allocated, ∃ c, o.parentRecord c = some r
  uncreated : ∀ t, o.created t = false → o.parentRecord t = none ∧ ring t = []

variable {ring : Tid → List ℕ} {live live' : Tid → Prop}

omit [DecidableEq Tid] in
theorem Forest.length_le (h : o.Forest ring live) (t : Tid) : (ring t).length ≤ o.allocated := by
  have hsub : ring t ⊆ List.range o.allocated := fun r hr => List.mem_range.mpr (h.alloc t r hr)
  simpa using (List.subperm_of_subset (h.nodup t) hsub).length_le

omit [DecidableEq Tid] in
/-- The forest does not depend on the semaphores and the status of the records. -/
theorem Forest.congr (h : o.Forest ring live) (hlive : ∀ t, live' t → live t)
    (hr : ∀ r, (o'.records r).id = (o.records r).id ∧ (o'.records r).next = (o.records r).next ∧
      (o'.records r).prev = (o.records r).prev)
    (ha : o'.allocated = o.allocated) (hg : o'.globalID = o.globalID) (hp : o'.parentRecord = o.parentRecord)
    (hc : o'.created = o.created) (hchild : ∀ t, live' t → o'.child t = o.child t) : o'.Forest ring live' where
  alloc t r hm := ha ▸ h.alloc t r hm
  nodup := h.nodup
  disjoint := h.disjoint
  linked t ht := (h.linked t (hlive t ht)).congr (hchild t ht) fun r _ => (hr r).2
  ids r hlt := (hr r).1.trans (h.ids r (ha ▸ hlt))
  globalID := by rw [hg, ha, h.globalID]
  parentAlloc c r hcr := ha ▸ h.parentAlloc c r (hp ▸ hcr)
  parentInj c d r hcr hdr := h.parentInj c d r (hp ▸ hcr) (hp ▸ hdr)
  parentExists r hlt := hp ▸ h.parentExists r (ha ▸ hlt)
  uncreated t ht := hp ▸ h.uncreated t (hc ▸ ht)

/-- The new thread has the new record, and all others have theirs. -/
theorem Forest.newThread_parentRecord (h : o.Forest ring live) (hc : o.created c = false)
    (hrun : o.newThread c t = .ok o') {d : Tid} {r : ℕ} :
    o'.parentRecord d = some r ↔ o.parentRecord d = some r ∨ d = c ∧ r = o.allocated := by
  rw [(newThread_grown hrun).parentRecord]
  by_cases hdc : d = c
  · rw [hdc, Function.update_self, (h.uncreated c hc).1]
    simp [eq_comm]
  · rw [Function.update_of_ne hdc]
    simp [hdc]

theorem Forest.newThread (h : o.Forest ring live) (ht : live t) (hct : o.created t = true) (hc : o.created c = false)
    (hrun : o.newThread c t = .ok o') : o'.Forest (Function.update ring t (ring t ++ [o.allocated])) live := by
  have hne : t ≠ c := by
    rintro rfl
    rw [hc] at hct
    cases hct
  have hg := newThread_grown hrun
  have hmem : ∀ u r, r ∈ Function.update ring t (ring t ++ [o.allocated]) u ↔
      r ∈ ring u ∨ (u = t ∧ r = o.allocated) := by
    intro u r
    by_cases hu : u = t
    · simp [hu]
    · simp [hu]
  have hfresh : ∀ u, o.allocated ∉ ring u := fun u hm => lt_irrefl _ (h.alloc u _ hm)
  refine ⟨fun u r hr => ?_, fun u => ?_, fun u v r hu hv => ?_, fun u hu => ?_, fun r hr => ?_, ?_, fun d r hd => ?_,
    fun d e r hd he => ?_, fun r hr => ?_, fun u hu => ?_⟩
  · rw [hg.allocated]
    rcases (hmem u r).mp hr with hr | ⟨-, rfl⟩
    · exact Nat.lt_succ_of_lt (h.alloc u r hr)
    · exact Nat.lt_succ_self _
  · by_cases hu : u = t
    · rw [hu, Function.update_self]
      exact nodup_snoc (h.nodup t) (hfresh t)
    · rw [Function.update_of_ne hu]
      exact h.nodup u
  · rcases (hmem u r).mp hu with hur | ⟨hut, hr⟩
    · rcases (hmem v r).mp hv with hvr | ⟨-, hr⟩
      · exact h.disjoint u v r hur hvr
      · exact absurd (hr ▸ hur) (hfresh u)
    · rcases (hmem v r).mp hv with hvr | ⟨hvt, -⟩
      · exact absurd (hr ▸ hvr) (hfresh v)
      · exact hut.trans hvt.symm
  · by_cases hut : u = t
    · rw [hut, Function.update_self]
      exact newThread_linked_parent hrun hne (h.linked t ht) (h.nodup t) (h.alloc t)
    · rw [Function.update_of_ne hut]
      refine newThread_linked_other hrun hne (h.linked t ht) (h.alloc t) hut (h.linked u hu) (fun huc => ?_)
        (h.alloc u) fun r hr hr' => hut (h.disjoint u t r hr hr')
      exact (h.uncreated u (huc ▸ hc)).2
  · rw [hg.allocated] at hr
    rw [hg.ids]
    split
    · rw [h.globalID, ‹r = o.allocated›]
    · exact h.ids r (by omega)
  · rw [hg.globalID, hg.allocated, h.globalID]
    simp
  · rw [hg.allocated]
    rcases (h.newThread_parentRecord hc hrun).mp hd with hd | ⟨-, rfl⟩
    · exact Nat.lt_succ_of_lt (h.parentAlloc d r hd)
    · exact Nat.lt_succ_self _
  · have hold : ∀ d, o.parentRecord d ≠ some o.allocated := fun d hd => lt_irrefl _ (h.parentAlloc d _ hd)
    rcases (h.newThread_parentRecord hc hrun).mp hd with hd | ⟨rfl, hr⟩
    · rcases (h.newThread_parentRecord hc hrun).mp he with he | ⟨-, hr⟩
      · exact h.parentInj d e r hd he
      · exact absurd (hr ▸ hd) (hold d)
    · rcases (h.newThread_parentRecord hc hrun).mp he with he | ⟨rfl, -⟩
      · exact absurd (hr ▸ he) (hold e)
      · rfl
  · rw [hg.allocated] at hr
    by_cases hrx : r = o.allocated
    · exact ⟨c, (h.newThread_parentRecord hc hrun).mpr (.inr ⟨rfl, hrx⟩)⟩
    · obtain ⟨d, hd⟩ := h.parentExists r (by omega)
      exact ⟨d, (h.newThread_parentRecord hc hrun).mpr (.inl hd)⟩
  · rw [hg.created] at hu
    have huc : u ≠ c := by
      rintro rfl
      rw [Function.update_self] at hu
      cases hu
    rw [Function.update_of_ne huc] at hu
    have hut : u ≠ t := by
      rintro rfl
      rw [hu] at hct
      cases hct
    rw [hg.parentRecord, Function.update_of_ne huc, Function.update_of_ne hut]
    exact h.uncreated u hu

end Processes

end Nachos
