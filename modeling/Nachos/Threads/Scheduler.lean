import Nachos.Library.BinaryHeap
import Nachos.Library.Execution

/-! # The ready list (`threads/scheduler.cc`)

The ready list is a `std::priority_queue` of threads, compared by `priorityLevel` alone. With each ready thread the model
notes since which call of `ReadyToRun` it is ready, and it keeps the threads that `FindNextToRun` has returned. A thread
of least level is returned in every run; which of several, the moves of the heap decide. -/
set_option autoImplicit false

namespace Nachos
open Execution BinaryHeap

variable {Tid : Type}

structure ReadyThread (Tid : Type) where
  thread : Tid
  since : ℕ
  deriving DecidableEq

/-- `MyCmp`. -/
def myCmp (priorityLevel : Tid → Int) (t1 t2 : ReadyThread Tid) : Bool :=
  priorityLevel t1.thread > priorityLevel t2.thread

structure Scheduler (Tid : Type) where
  readyList : PriorityQueue (ReadyThread Tid)
  calls : ℕ
  dispatched : List (ReadyThread Tid)

inductive SchedCall (Tid : Type) where
  | readyToRun (thread : Tid)
  | findNextToRun

namespace Scheduler

section Calls

variable (priorityLevel : Tid → Int)

def readyToRun (s : Scheduler Tid) (thread : Tid) : Scheduler Tid :=
  { s with readyList := s.readyList.push (myCmp priorityLevel) ⟨thread, s.calls⟩, calls := s.calls + 1 }

def findNextToRun (s : Scheduler Tid) : Option (ReadyThread Tid) × Scheduler Tid :=
  if s.readyList.size = 0 then (none, s)
  else (some s.readyList.top,
    { s with readyList := s.readyList.pop (myCmp priorityLevel), dispatched := s.dispatched ++ [s.readyList.top] })

def step (s : Scheduler Tid) : SchedCall Tid → Scheduler Tid
  | .readyToRun thread => s.readyToRun priorityLevel thread
  | .findNextToRun => (s.findNextToRun priorityLevel).2

/-- `Scheduler::Scheduler`. -/
def New (s : Scheduler Tid) : Prop := s.readyList.size = 0 ∧ s.calls = 0 ∧ s.dispatched = []

/-- The states reached by calls that are allowed where they are made. -/
def Reached (allowed : Scheduler Tid → SchedCall Tid → Prop) : Scheduler Tid → Prop :=
  Reachable New (fun s call s' => s.step priorityLevel call = s') allowed

end Calls

variable {priorityLevel : Tid → Int} {s : Scheduler Tid}

theorem findNextToRun_none (h : s.readyList.size = 0) : s.findNextToRun priorityLevel = (none, s) := if_pos h

theorem findNextToRun_some (h : s.readyList.size ≠ 0) : s.findNextToRun priorityLevel =
    (some s.readyList.top, { s with
      readyList := s.readyList.pop (myCmp priorityLevel), dispatched := s.dispatched ++ [s.readyList.top] }) := if_neg h

/-! ## The orders of the heap -/

/-- The thread of the smaller level first. -/
def ByLevel (priorityLevel : Tid → Int) (x y : ReadyThread Tid) : Prop :=
  priorityLevel x.thread ≤ priorityLevel y.thread

/-- Of two threads of the same level, the one that was made ready first. -/
def ByAge (priorityLevel : Tid → Int) (x y : ReadyThread Tid) : Prop :=
  priorityLevel x.thread < priorityLevel y.thread ∨
    priorityLevel x.thread = priorityLevel y.thread ∧ x.since ≤ y.since

theorem byAge_trans (x y z : ReadyThread Tid) (hxy : ByAge priorityLevel x y) (hyz : ByAge priorityLevel y z) :
    ByAge priorityLevel x z := by
  unfold ByAge at *
  omega

theorem byLevel_trans (x y z : ReadyThread Tid) (hxy : ByLevel priorityLevel x y) (hyz : ByLevel priorityLevel y z) :
    ByLevel priorityLevel x z := le_trans hxy hyz

/-- `MyCmp` is right about the levels. -/
theorem right_byLevel (x y : ReadyThread Tid) : Right (myCmp priorityLevel) (ByLevel priorityLevel) x y := by
  unfold ByLevel myCmp
  refine ⟨fun hafter => ?_, fun hafter => ?_⟩
  · have := of_decide_eq_true hafter
    omega
  · have := of_decide_eq_false hafter
    omega

/-- `MyCmp` is right about the age of two threads of the same level if the first one was made ready first. -/
theorem right_byAge {x y : ReadyThread Tid}
    (h : priorityLevel x.thread = priorityLevel y.thread → x.since < y.since) :
    Right (myCmp priorityLevel) (ByAge priorityLevel) x y := by
  unfold ByAge myCmp
  refine ⟨fun hafter => ?_, fun hafter => ?_⟩
  · have := of_decide_eq_true hafter
    omega
  · have := of_decide_eq_false hafter
    omega

/-! ## Every run -/

/-- What a call does to the threads that are ready. -/
theorem readyToRun_items (priorityLevel : Tid → Int) (s : Scheduler Tid) (thread : Tid) :
    (s.readyToRun priorityLevel thread).readyList.items = ⟨thread, s.calls⟩ ::ₘ s.readyList.items :=
  PriorityQueue.push_items

theorem findNextToRun_items (priorityLevel : Tid → Int) (h : s.readyList.size ≠ 0) :
    s.readyList.top ::ₘ (s.findNextToRun priorityLevel).2.readyList.items = s.readyList.items := by
  rw [findNextToRun_some h]
  exact PriorityQueue.pop_items (Nat.pos_of_ne_zero h)

/-- The heap is in order by level, and ready threads have been made ready by different calls. -/
structure LevelInv (priorityLevel : Tid → Int) (s : Scheduler Tid) : Prop where
  ordered : s.readyList.InOrder (ByLevel priorityLevel)
  distinct : (s.readyList.items.map ReadyThread.since).Nodup
  since : ∀ x ∈ s.readyList.items, x.since < s.calls
  past : ∀ x ∈ s.dispatched, x.since < s.calls

theorem New.items_eq (h : s.New) : s.readyList.items = 0 := by
  unfold PriorityQueue.items contents
  rw [h.1]
  rfl

theorem New.inOrder (h : s.New) (R : ReadyThread Tid → ReadyThread Tid → Prop) : s.readyList.InOrder R := by
  intro i _ hi
  rw [h.1] at hi
  omega

theorem LevelInv.new (h : s.New) : LevelInv priorityLevel s := by
  refine ⟨h.inOrder _, ?_, fun x hx => ?_, fun x hx => ?_⟩
  · rw [h.items_eq]
    exact Multiset.nodup_zero
  · rw [h.items_eq] at hx
    exact absurd hx (Multiset.notMem_zero x)
  · rw [h.2.2] at hx
    cases hx

theorem LevelInv.readyToRun (h : LevelInv priorityLevel s) (thread : Tid) :
    LevelInv priorityLevel (s.readyToRun priorityLevel thread) := by
  have hitems := readyToRun_items priorityLevel s thread
  refine ⟨PriorityQueue.push_inOrder byLevel_trans h.ordered fun i _ => right_byLevel _ _, ?_, fun x hx => ?_,
    fun x hx => Nat.lt_succ_of_lt (h.past x hx)⟩
  · rw [hitems, Multiset.map_cons, Multiset.nodup_cons]
    refine ⟨fun hmem => ?_, h.distinct⟩
    obtain ⟨x, hx, hsince⟩ := Multiset.mem_map.mp hmem
    exact Nat.ne_of_lt (h.since x hx) hsince
  · rw [hitems] at hx
    rcases Multiset.mem_cons.mp hx with rfl | hx
    · exact Nat.lt_succ_self _
    · exact Nat.lt_succ_of_lt (h.since x hx)

theorem LevelInv.findNextToRun (h : LevelInv priorityLevel s) :
    LevelInv priorityLevel (s.findNextToRun priorityLevel).2 := by
  by_cases hsize : s.readyList.size = 0
  · rw [findNextToRun_none hsize]
    exact h
  · have hitems := findNextToRun_items priorityLevel hsize
    rw [findNextToRun_some hsize] at hitems ⊢
    refine ⟨PriorityQueue.pop_inOrder byLevel_trans h.ordered (fun i _ => right_byLevel _ _)
      fun i _ => right_byLevel _ _, ?_, fun x hx => h.since x ?_, fun x hx => ?_⟩
    · have hdistinct := h.distinct
      rw [← hitems, Multiset.map_cons, Multiset.nodup_cons] at hdistinct
      exact hdistinct.2
    · rw [← hitems]
      exact Multiset.mem_cons_of_mem hx
    · rcases List.mem_append.mp hx with hx | hx
      · exact h.past x hx
      · rw [List.mem_singleton.mp hx]
        exact h.since _ (PriorityQueue.top_mem (Nat.pos_of_ne_zero hsize))

theorem LevelInv.step (h : LevelInv priorityLevel s) (call : SchedCall Tid) :
    LevelInv priorityLevel (s.step priorityLevel call) := by
  cases call with
  | readyToRun thread => exact h.readyToRun thread
  | findNextToRun => exact h.findNextToRun

/-- `FindNextToRun` returns a ready thread of least level, if there is a ready thread. -/
structure ReturnsLeast (priorityLevel : Tid → Int) (s : Scheduler Tid) : Prop where
  returns : s.readyList.items ≠ 0 → ∃ r s', s.findNextToRun priorityLevel = (some r, s')
  least : ∀ r s', s.findNextToRun priorityLevel = (some r, s') →
    r ::ₘ s'.readyList.items = s.readyList.items ∧ ∀ x ∈ s.readyList.items, priorityLevel r.thread ≤ priorityLevel x.thread

theorem LevelInv.returnsLeast (h : LevelInv priorityLevel s) : ReturnsLeast priorityLevel s := by
  refine ⟨fun hitems => ?_, fun r s' hfind => ?_⟩
  · refine ⟨_, _, findNextToRun_some fun hsize => hitems ?_⟩
    unfold PriorityQueue.items contents
    rw [hsize]
    rfl
  · by_cases hsize : s.readyList.size = 0
    · rw [findNextToRun_none hsize] at hfind
      cases hfind
    · have hitems := findNextToRun_items priorityLevel hsize
      rw [hfind] at hitems
      rw [findNextToRun_some hsize] at hfind
      cases hfind
      exact ⟨hitems, fun x hx => PriorityQueue.top_le (fun y => le_refl (priorityLevel y.thread)) byLevel_trans h.ordered hx⟩

/-! ## Runs in which ties are in order -/

/-- `FindNextToRun` is called only when of two siblings of the same level in the heap, the last thread apart, the right
one was made ready first, and the last thread was made ready after all others of its level. -/
def TiesInOrder (priorityLevel : Tid → Int) (s : Scheduler Tid) (call : SchedCall Tid) : Prop :=
  call = .findNextToRun →
    (∀ i, 2 * i + 2 < s.readyList.size - 1 →
      priorityLevel (s.readyList.c (2 * i + 2)).thread = priorityLevel (s.readyList.c (2 * i + 1)).thread →
      (s.readyList.c (2 * i + 2)).since < (s.readyList.c (2 * i + 1)).since) ∧
    ∀ i < s.readyList.size - 1,
      priorityLevel (s.readyList.c i).thread = priorityLevel (s.readyList.c (s.readyList.size - 1)).thread →
      (s.readyList.c i).since < (s.readyList.c (s.readyList.size - 1)).since

/-- The heap is in order by level and age, and no ready thread has been overtaken. -/
structure AgeInv (priorityLevel : Tid → Int) (s : Scheduler Tid) : Prop where
  level : LevelInv priorityLevel s
  ordered : s.readyList.InOrder (ByAge priorityLevel)
  overtaken : ∀ x ∈ s.readyList.items, ∀ y ∈ s.dispatched, priorityLevel x.thread = priorityLevel y.thread →
    y.since < x.since

theorem AgeInv.top_since (h : AgeInv priorityLevel s) {x : ReadyThread Tid} (hx : x ∈ s.readyList.items)
    (hlevel : priorityLevel x.thread = priorityLevel s.readyList.top.thread) : s.readyList.top.since ≤ x.since := by
  have hage := PriorityQueue.top_le (R := ByAge priorityLevel) (fun y => Or.inr ⟨rfl, le_rfl⟩) byAge_trans h.ordered hx
  unfold ByAge at hage
  omega

theorem AgeInv.new (h : s.New) : AgeInv priorityLevel s := by
  refine ⟨.new h, h.inOrder _, fun x hx => ?_⟩
  rw [h.items_eq] at hx
  exact absurd hx (Multiset.notMem_zero x)

theorem AgeInv.readyToRun (h : AgeInv priorityLevel s) (thread : Tid) :
    AgeInv priorityLevel (s.readyToRun priorityLevel thread) := by
  have hitems := readyToRun_items priorityLevel s thread
  refine ⟨h.level.readyToRun thread, PriorityQueue.push_inOrder byAge_trans h.ordered fun i hi => right_byAge fun _ =>
    h.level.since _ (mem_contents.mpr ⟨i, hi, rfl⟩), fun x hx y hy hlevel => ?_⟩
  rw [hitems] at hx
  rcases Multiset.mem_cons.mp hx with rfl | hx
  · exact h.level.past y hy
  · exact h.overtaken x hx y hy hlevel

theorem AgeInv.findNextToRun (h : AgeInv priorityLevel s) (hties : TiesInOrder priorityLevel s .findNextToRun) :
    AgeInv priorityLevel (s.findNextToRun priorityLevel).2 := by
  have hlevels := h.level.findNextToRun
  by_cases hsize : s.readyList.size = 0
  · rw [findNextToRun_none hsize]
    exact h
  · have hitems := findNextToRun_items priorityLevel hsize
    obtain ⟨hsiblings, hlast⟩ := hties rfl
    rw [findNextToRun_some hsize] at hitems hlevels ⊢
    refine ⟨hlevels, PriorityQueue.pop_inOrder byAge_trans h.ordered (fun i hi => right_byAge (hsiblings i hi))
      fun i hi => right_byAge (hlast i hi), fun x hx y hy hlevel => ?_⟩
    have hx' : x ∈ s.readyList.items := by
      rw [← hitems]
      exact Multiset.mem_cons_of_mem hx
    rcases List.mem_append.mp hy with hy | hy
    · exact h.overtaken x hx' y hy hlevel
    · rw [List.mem_singleton.mp hy] at hlevel ⊢
      have hdistinct := h.level.distinct
      rw [← hitems, Multiset.map_cons, Multiset.nodup_cons] at hdistinct
      have hne : s.readyList.top.since ≠ x.since := fun he => hdistinct.1 (he ▸ Multiset.mem_map_of_mem _ hx)
      have hle := h.top_since hx' hlevel
      omega

/-- `FindNextToRun` returns, of the ready threads of least level, the one that was made ready first, and a ready thread
has never been overtaken by one of its level made ready after it. -/
structure FirstComeFirst (priorityLevel : Tid → Int) (s : Scheduler Tid) : Prop where
  least : ReturnsLeast priorityLevel s
  first : ∀ r s', s.findNextToRun priorityLevel = (some r, s') → ∀ x ∈ s.readyList.items,
    priorityLevel x.thread = priorityLevel r.thread → r.since ≤ x.since
  overtaken : ∀ x ∈ s.readyList.items, ∀ y ∈ s.dispatched, priorityLevel x.thread = priorityLevel y.thread →
    y.since < x.since

theorem AgeInv.firstComeFirst (h : AgeInv priorityLevel s) : FirstComeFirst priorityLevel s := by
  refine ⟨h.level.returnsLeast, fun r s' hfind x hx hlevel => ?_, h.overtaken⟩
  by_cases hsize : s.readyList.size = 0
  · rw [findNextToRun_none hsize] at hfind
    cases hfind
  · rw [findNextToRun_some hsize] at hfind
    cases hfind
    exact h.top_since hx hlevel

/-- A thread of least level is returned in every run, and the first of them in every run whose ties are in order. -/
theorem scheduling_order (priorityLevel : Tid → Int) :
    (∀ s, Reached priorityLevel (fun _ _ => True) s → ReturnsLeast priorityLevel s) ∧
    ∀ s, Reached priorityLevel (TiesInOrder priorityLevel) s → FirstComeFirst priorityLevel s := by
  constructor
  · intro s hs
    refine (hs.invariant (LevelInv priorityLevel) (fun _ h => .new h) ?_).returnsLeast
    rintro s call _ h - rfl
    exact h.step call
  · intro s hs
    refine (hs.invariant (AgeInv priorityLevel) (fun _ h => .new h) ?_).firstComeFirst
    rintro s call _ h hties rfl
    cases call with
    | readyToRun thread => exact h.readyToRun thread
    | findNextToRun => exact h.findNextToRun hties

theorem Reached.readyToRun (h : Reached priorityLevel (TiesInOrder priorityLevel) s) (thread : Tid) :
    Reached priorityLevel (TiesInOrder priorityLevel) (s.readyToRun priorityLevel thread) :=
  .next h (l := .readyToRun thread) nofun rfl

/-- The threads 10 to 12 have been made ready. -/
def threeEqual : Scheduler ℕ :=
  [.readyToRun 10, .readyToRun 11, .readyToRun 12].foldl (step fun _ => 1) ⟨⟨0, fun _ => ⟨0, 0⟩⟩, 0, []⟩

theorem threeEqual_reached :
    Reached (fun _ => 1) (TiesInOrder fun _ => 1) (threeEqual.step (fun _ => 1) .findNextToRun) := by
  have hready : Reached (fun _ => 1) (TiesInOrder fun _ => 1) threeEqual :=
    ((Reached.readyToRun (.start ⟨rfl, rfl, rfl⟩) 10).readyToRun 11).readyToRun 12
  refine .next hready (fun _ => ⟨fun i hi => ?_, by decide⟩) rfl
  have hsize : threeEqual.readyList.size = 3 := rfl
  omega

theorem scheduling_order_threeEqual :
    FirstComeFirst (fun _ => 1) (threeEqual.step (fun _ => 1) .findNextToRun) :=
  (scheduling_order fun _ => 1).2 _ threeEqual_reached

/-! ## Four threads of one level -/

theorem Reached.foldl (h : Reached priorityLevel (fun _ _ => True) s) (calls : List (SchedCall Tid)) :
    Reached priorityLevel (fun _ _ => True) (calls.foldl (step priorityLevel) s) := by
  induction calls generalizing s with
  | nil => exact h
  | cons call calls ih => exact ih (.next h trivial rfl)

/-- The threads 10 to 13 have been made ready and two have been asked for. -/
def fourEqual : Scheduler ℕ :=
  [.readyToRun 10, .readyToRun 11, .readyToRun 12, .readyToRun 13, .findNextToRun, .findNextToRun].foldl
    (step fun _ => 1) ⟨⟨0, fun _ => ⟨0, 0⟩⟩, 0, []⟩

/-- The third thread has been returned while the second is still ready. -/
theorem third_before_second : Reached (fun _ => 1) (fun _ _ => True) fourEqual ∧
    fourEqual.dispatched = [⟨10, 0⟩, ⟨12, 2⟩] ∧ ⟨11, 1⟩ ∈ fourEqual.readyList.items ∧
    ¬ FirstComeFirst (fun _ => 1) fourEqual := by
  have hdispatched : fourEqual.dispatched = [⟨10, 0⟩, ⟨12, 2⟩] := by decide
  have hready : ⟨11, 1⟩ ∈ fourEqual.readyList.items := mem_contents.mpr ⟨0, by decide, by decide⟩
  refine ⟨Reached.foldl (.start ⟨rfl, rfl, rfl⟩) _, hdispatched, hready, fun h => ?_⟩
  exact absurd (h.overtaken _ hready ⟨12, 2⟩ (by rw [hdispatched]; simp) rfl) (by decide)

end Scheduler

end Nachos
