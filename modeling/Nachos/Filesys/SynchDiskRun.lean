import Nachos.Threads.Synch

/-! # Threads that share the disk (`filesys/synchdisk.cc`, `machine/disk.cc`)

The device moves the sector when the request is made and schedules a `DiskInt`, which fires at any
later time and goes by the number of the request. A caller's control point has the transfer it was called
for, and after the request the buffer as the device has left it; a thread outside has what its last call
returned. `issued` are the transfers in the order in which the callers have requested them. -/
set_option autoImplicit false

namespace Nachos
open Buffer Execution Uniprocessor

variable {Tid : Type}

/-! ## The device -/

/-- One sector moved between the disk and a buffer. -/
structure Transfer where
  writing : Bool
  sectorNumber : Int
  data : Image

def Transfer.InRange (x : Transfer) : Prop := 0 ≤ x.sectorNumber ∧ x.sectorNumber < numSectors

/-- `Disk`, with the `DiskInt` interrupts that are scheduled. -/
structure DiskDevice where
  contents : Disk
  active : Bool
  pending : List ℕ
  requests : ℕ

namespace DiskDevice

/-- The end of a request: the device is busy until the interrupt. -/
def schedule (d : DiskDevice) (contents : Disk) : DiskDevice :=
  ⟨contents, true, d.pending ++ [d.requests], d.requests + 1⟩

/-- `Disk::ReadRequest`, with the caller's buffer afterwards. -/
def readRequest (d : DiskDevice) (sectorNumber : Int) (data : Image) : Call (DiskDevice × Image) :=
  if d.active then .error .assertFailed
  else do
    let sector ← readSector d.contents sectorNumber
    return (d.schedule d.contents, copy data 0 sector sectorSize)

/-- `Disk::WriteRequest`. -/
def writeRequest (d : DiskDevice) (sectorNumber : Int) (data : Image) : Call DiskDevice :=
  if d.active then .error .assertFailed
  else do
    let contents ← writeSector d.contents sectorNumber data
    return d.schedule contents

/-- The request of a call, with the transfer as it is in the caller's hands afterwards. -/
def request (d : DiskDevice) (x : Transfer) : Call (DiskDevice × Transfer) :=
  if x.writing then do
    let d ← d.writeRequest x.sectorNumber x.data
    return (d, x)
  else do
    let (d, data) ← d.readRequest x.sectorNumber x.data
    return (d, { x with data := data })

end DiskDevice

/-! ## `SynchDisk` -/

structure SynchDisk (Tid : Type) where
  semaphore : Semaphore Tid
  lock : Lock Tid
  disk : DiskDevice

inductive DiskPc where
  | outside (returned : Option Transfer)
  | inAcquire (x : Transfer)
  | request (x : Transfer)
  | inP (k : ℕ) (x : Transfer)
  | unlock (k : ℕ) (x : Transfer)

inductive DiskAct where
  | call (x : Transfer)
  | resume

abbrev DiskEvent (Tid : Type) := Event Tid DiskPc DiskAct ℕ

namespace SynchDisk

/-- `SynchDisk::SynchDisk`, over a disk with the given contents. -/
def new (contents : Disk) : SynchDisk Tid := ⟨⟨0, []⟩, Lock.new, ⟨contents, false, [], 0⟩⟩

/-- After a pass through the loop of `Acquire`. -/
def locked (o : SynchDisk Tid) (x : Transfer) (r : Lock Tid × Bool) : Effect Tid DiskPc (SynchDisk Tid) :=
  if r.2 then { obj := { o with lock := r.1 }, pc := .request x }
  else { obj := { o with lock := r.1 }, pc := .inAcquire x, sleeps := true }

/-- After a pass through the loop of `P`. -/
def waited (o : SynchDisk Tid) (k : ℕ) (x : Transfer) (r : Semaphore Tid × Bool) :
    Effect Tid DiskPc (SynchDisk Tid) :=
  if r.2 then { obj := { o with semaphore := r.1 }, pc := .unlock k x }
  else { obj := { o with semaphore := r.1 }, pc := .inP k x, sleeps := true }

/-- `Disk::HandleInterrupt` for request `k`, which calls `SynchDisk::RequestDone`. -/
def handleInterrupt (o : SynchDisk Tid) (k : ℕ) : Call (SynchDisk Tid × List Tid) := do
  let (semaphore, wakes) ← o.semaphore.v
  return ({ o with semaphore := semaphore,
                   disk := { o.disk with active := false, pending := o.disk.pending.erase k } }, wakes)

end SynchDisk

/-- `SynchDisk::ReadSector` and `SynchDisk::WriteSector`, and the interrupts of the disk. -/
def diskProgram (Tid : Type) [DecidableEq Tid] : Program Tid DiskPc (SynchDisk Tid) DiskAct ℕ Trap where
  enabled
    | .call _, .outside _ => True
    | .call _, _ => False
    | .resume, .outside _ => False
    | .resume, _ => True
  sect
    | .call x, t, _, o => do
      let r ← o.lock.acquire t
      return o.locked x r
    | .resume, _, .outside returned, o => .ok { obj := o, pc := .outside returned }
    | .resume, t, .inAcquire x, o => .ok (o.locked x (o.lock.tryAcquire t))
    | .resume, _, .request x, o => do
      let (disk, x) ← o.disk.request x
      return { obj := { o with disk := disk }, pc := .inP o.disk.requests x }
    | .resume, t, .inP k x, o => .ok (o.waited k x (o.semaphore.tryP t))
    | .resume, t, .unlock _ x, o => do
      let (lock, wakes) ← o.lock.release t
      return { obj := { o with lock := lock }, pc := .outside (some x), wakes := wakes }
  handler k o := if k ∈ o.disk.pending then o.handleInterrupt k else .ok (o, [])

def DiskStart (contents : Disk) (s : State Tid DiskPc (SynchDisk Tid)) : Prop :=
  Placed s ∧ s.obj = SynchDisk.new contents ∧ ∀ t, s.pc t = .outside none

/-- Callers name sectors of the disk. -/
def inRangeCalls : DiskAct → Tid → DiskPc → SynchDisk Tid → Prop
  | .call x, _, _, _ => x.InRange
  | .resume, _, _, _ => True

/-! ## The device -/

namespace DiskDevice

/-- An idle device takes every request for one of its sectors. -/
theorem request_eq {d : DiskDevice} (ha : d.active = false) {x : Transfer} (hx : x.InRange) :
    d.request x = .ok (if x.writing then
      (d.schedule (Function.update d.contents x.sectorNumber.toNat
        (copy (d.contents x.sectorNumber.toNat) 0 x.data sectorSize)), x)
    else
      (d.schedule d.contents, { x with data := copy x.data 0 (d.contents x.sectorNumber.toNat) sectorSize })) := by
  have hread : readSector d.contents x.sectorNumber = .ok (d.contents x.sectorNumber.toNat) := if_pos hx
  have hwrite : writeSector d.contents x.sectorNumber x.data = .ok (Function.update d.contents x.sectorNumber.toNat
      (copy (d.contents x.sectorNumber.toNat) 0 x.data sectorSize)) := if_pos hx
  unfold DiskDevice.request DiskDevice.writeRequest DiskDevice.readRequest
  rw [ha, hread, hwrite]
  split <;> rfl

/-- A request leaves the right bytes on the disk and in the caller's buffer. -/
theorem request_spec {d d' : DiskDevice} (ha : d.active = false) {x y : Transfer} (hx : x.InRange)
    (h : d.request x = .ok (d', y)) :
    (d'.requests = d.requests + 1 ∧ d'.pending = d.pending ++ [d.requests]) ∧
    (∀ n : ℕ, ∀ i < sectorSize, d'.contents n i =
      if x.writing = true ∧ x.sectorNumber = n then x.data i else d.contents n i) ∧
    (y.writing = x.writing ∧ y.sectorNumber = x.sectorNumber) ∧
    ∀ i < sectorSize, y.data i = if x.writing then x.data i else d.contents x.sectorNumber.toNat i := by
  have hrun := request_eq ha hx
  rw [h] at hrun
  by_cases hw : x.writing = true
  · rw [if_pos hw] at hrun
    cases hrun
    refine ⟨⟨rfl, rfl⟩, fun n i hi => ?_, ⟨rfl, rfl⟩, fun i _ => by rw [if_pos hw]⟩
    simp only [schedule]
    by_cases hn : n = x.sectorNumber.toNat
    · subst hn
      rw [Function.update_self, copy_from_zero _ _ hi, if_pos ⟨hw, (Int.toNat_of_nonneg hx.1).symm⟩]
    · rw [Function.update_of_ne hn, if_neg fun he => hn ?_]
      rw [he.2, Int.toNat_natCast]
  · rw [if_neg hw] at hrun
    cases hrun
    refine ⟨⟨rfl, rfl⟩, fun n i _ => (if_neg fun he => hw he.1).symm, ⟨rfl, rfl⟩, fun i hi => ?_⟩
    rw [if_neg hw]
    exact copy_from_zero _ _ hi

end DiskDevice

/-! ## The invariant -/

namespace DiskPc

/-- Between a returned `Acquire` and its `Release`. -/
def holds : DiskPc → Bool
  | request _ | inP _ _ | unlock _ _ => true
  | _ => false

/-- In the loop of `Acquire`. -/
def atLock : DiskPc → Bool
  | inAcquire _ => true
  | _ => false

/-- In the loop of `P`. -/
def atSemaphore : DiskPc → Bool
  | inP _ _ => true
  | _ => false

/-- The transfer a thread is going to request. -/
def wants : DiskPc → Option Transfer
  | inAcquire x | request x => some x
  | _ => none

/-- The request a thread has made, with the transfer in its hands. -/
def has : DiskPc → Option (ℕ × Transfer)
  | inP k x | unlock k x => some (k, x)
  | _ => none

variable {pc : DiskPc}

theorem exists_of_atSemaphore (h : pc.atSemaphore = true) : ∃ k x, pc = .inP k x := by
  cases pc <;> simp_all [atSemaphore]

theorem holds_of_atSemaphore (h : pc.atSemaphore = true) : pc.holds = true := by
  obtain ⟨k, x, rfl⟩ := exists_of_atSemaphore h
  rfl

theorem atLock_of_holds (h : pc.holds = true) : pc.atLock = false := by
  cases pc <;> simp_all [holds, atLock]

theorem atLock_of_atSemaphore (h : pc.atSemaphore = true) : pc.atLock = false := by
  obtain ⟨k, x, rfl⟩ := exists_of_atSemaphore h
  rfl

theorem atSemaphore_of_atLock (h : pc.atLock = true) : pc.atSemaphore = false := by
  cases pc <;> simp_all [atLock, atSemaphore]

end DiskPc

namespace SynchDisk

/-- No request is being served. -/
def Idle (o : SynchDisk Tid) : Prop :=
  o.semaphore.value = 0 ∧ o.disk.active = false ∧ o.disk.pending = []

/-- Request `k` is being served, or its interrupt has come and nobody has passed `P` since. -/
def Serves (o : SynchDisk Tid) (k : ℕ) : Prop :=
  (o.semaphore.value = 0 ∧ o.disk.active = true ∧ o.disk.pending = [k]) ∨
  (o.semaphore.value = 1 ∧ o.disk.active = false ∧ o.disk.pending = [])

end SynchDisk

structure DiskInv (pc : Tid → DiskPc) (blocked : Tid → Bool) (o : SynchDisk Tid) : Prop where
  lock : o.lock.Serves DiskPc.holds DiskPc.atLock pc blocked
  queue : ∀ t, t ∈ o.semaphore.queue ↔ (pc t).atSemaphore = true ∧ blocked t = true
  nodup : o.semaphore.queue.Nodup
  range : ∀ t x, (pc t).wants = some x → x.InRange
  idle : (∀ t, (pc t).atSemaphore = false) → o.Idle
  serves : ∀ t k x, pc t = .inP k x → o.Serves k

variable {pc : Tid → DiskPc} {blocked : Tid → Bool} {o : SynchDisk Tid} {t : Tid}

/-- The thread that holds the lock is the only one that can be waiting for the disk. -/
theorem DiskInv.alone (h : DiskInv pc blocked o) (ht : (pc t).holds = true) {u : Tid} (hu : u ≠ t) :
    (pc u).atSemaphore = false := by
  rw [Bool.eq_false_iff]
  exact fun hs => hu (h.lock.holds_unique (DiskPc.holds_of_atSemaphore hs) ht)

/-- The disk is idle when a caller makes its request. -/
theorem DiskInv.idle_of_request (h : DiskInv pc blocked o) {x : Transfer} (ht : pc t = .request x) : o.Idle := by
  refine h.idle fun u => ?_
  by_cases hu : u = t
  · rw [hu, ht]
    rfl
  · exact h.alone (by rw [ht]; rfl) hu

/-- A pending interrupt is that of the request the lock's holder is waiting for. -/
theorem DiskInv.of_pending (h : DiskInv pc blocked o) {k : ℕ} (hk : k ∈ o.disk.pending) :
    ∃ t x, pc t = .inP k x ∧ o.semaphore.value = 0 ∧ o.disk.pending = [k] := by
  by_cases hall : ∀ t, (pc t).atSemaphore = false
  · rw [(h.idle hall).2.2] at hk
    cases hk
  · push Not at hall
    obtain ⟨t, ht⟩ := hall
    obtain ⟨j, x, hj⟩ := DiskPc.exists_of_atSemaphore (by simpa using ht)
    rcases h.serves t j x hj with ⟨hvalue, -, hpending⟩ | ⟨-, -, hpending⟩
    · rw [hpending] at hk
      rw [List.mem_singleton.mp hk]
      exact ⟨t, x, hj, hvalue, hpending⟩
    · rw [hpending] at hk
      cases hk

theorem locked_wakes_nil (x : Transfer) (r : Lock Tid × Bool) : (o.locked x r).wakes = [] := by
  unfold SynchDisk.locked
  split <;> rfl

theorem waited_wakes_nil (k : ℕ) (x : Transfer) (r : Semaphore Tid × Bool) : (o.waited k x r).wakes = [] := by
  unfold SynchDisk.waited
  split <;> rfl

variable [DecidableEq Tid]

/-- The facts of one thread, when another thread's control point changes. -/
theorem update_eq {p q : DiskPc} {u : Tid} (h : Function.update pc t p u = q) (hne : p ≠ q) : pc u = q := by
  by_cases hu : u = t
  · subst hu
    rw [Function.update_self] at h
    exact absurd h hne
  · rwa [Function.update_of_ne hu] at h

section Sections
variable (h : DiskInv pc blocked o)
include h

theorem DiskInv.locked (hb : blocked t = false) (ht : (pc t).holds = false) {x : Transfer} (hx : x.InRange) :
    DiskInv (Function.update pc t (o.locked x (o.lock.tryAcquire t)).pc)
      (blockedAfter blocked t (o.locked x (o.lock.tryAcquire t))) (o.locked x (o.lock.tryAcquire t)).obj := by
  have hsem : t ∉ o.semaphore.queue := by simp [h.queue, hb]
  have hrange : ∀ p : DiskPc, (∀ y, p.wants = some y → y = x) →
      ∀ u y, (Function.update pc t p u).wants = some y → y.InRange := by
    intro p hp u y hy
    by_cases hu : u = t
    · subst hu
      rw [Function.update_self] at hy
      exact hp y hy ▸ hx
    · rw [Function.update_of_ne hu] at hy
      exact h.range u y hy
  rcases h.lock.tryAcquire hb ht (.request x) (.inAcquire x) rfl rfl rfl rfl with
    ⟨l', hl, hnone, -, hok⟩ | ⟨l', hl, -, hok⟩
  · have hout : ∀ u, (pc u).atSemaphore = false := by
      intro u
      rw [Bool.eq_false_iff]
      intro hu
      simpa [hnone u] using DiskPc.holds_of_atSemaphore hu
    rw [hl, blockedAfter_awake _ _ rfl rfl]
    refine ⟨hok, fun u => ?_, h.nodup, hrange _ (by simp [SynchDisk.locked, DiskPc.wants, eq_comm]),
      fun _ => h.idle hout, fun u k y hu => h.serves u k y (update_eq hu (by simp [SynchDisk.locked]))⟩
    by_cases hu : u = t
    · simpa [hu, SynchDisk.locked, DiskPc.atSemaphore] using hsem
    · simpa [hu, SynchDisk.locked] using h.queue u
  · rw [hl, blockedAfter_asleep _ _ rfl rfl]
    refine ⟨hok, fun u => ?_, h.nodup, hrange _ (by simp [SynchDisk.locked, DiskPc.wants, eq_comm]),
      fun hall => h.idle fun u => ?_, fun u k y hu => h.serves u k y (update_eq hu (by simp [SynchDisk.locked]))⟩
    · by_cases hu : u = t
      · simpa [hu, SynchDisk.locked, DiskPc.atSemaphore] using hsem
      · simpa [hu, SynchDisk.locked] using h.queue u
    · by_cases hu : u = t
      · subst hu
        rw [Bool.eq_false_iff]
        intro hs
        simpa [ht] using DiskPc.holds_of_atSemaphore hs
      · simpa [hu, SynchDisk.locked] using hall u

/-- A step of the lock's holder to another point before its `Release`. -/
theorem DiskInv.lock_stays (ht : (pc t).holds = true) {next : DiskPc}
    (hn : next.holds = true) {blocked' : Tid → Bool} (hb : ∀ u, u ≠ t → blocked' u = blocked u) :
    o.lock.Serves DiskPc.holds DiskPc.atLock (Function.update pc t next) blocked' :=
  h.lock.stays ht (DiskPc.atLock_of_holds ht) hn (DiskPc.atLock_of_holds hn) hb

theorem DiskInv.request (hb : blocked t = false) {x : Transfer} (ht : pc t = .request x) :
    ∃ disk y, o.disk.request x = .ok (disk, y) ∧
      DiskInv (Function.update pc t (.inP o.disk.requests y)) blocked { o with disk := disk } := by
  have hholds : (pc t).holds = true := by rw [ht]; rfl
  obtain ⟨hvalue, hactive, hpending⟩ := h.idle_of_request ht
  have hserves : ∀ contents', ({ o with disk := o.disk.schedule contents' } : SynchDisk Tid).Serves o.disk.requests :=
    fun contents' => Or.inl ⟨hvalue, rfl, by simp [DiskDevice.schedule, hpending]⟩
  have hkept : ∀ contents' y,
      DiskInv (Function.update pc t (.inP o.disk.requests y)) blocked { o with disk := o.disk.schedule contents' } := by
    intro contents' y
    refine ⟨h.lock_stays hholds rfl (fun _ _ => rfl), fun u => ?_, h.nodup, fun u z hz => ?_, fun hall => ?_,
      fun u k z hu => ?_⟩
    · by_cases hu : u = t
      · simp [hu, h.queue, hb]
      · simpa [hu] using h.queue u
    · by_cases hu : u = t
      · simp [hu, DiskPc.wants] at hz
      · exact h.range u z (by simpa [hu] using hz)
    · simpa [DiskPc.atSemaphore] using hall t
    · have hut : u = t := by
        by_contra hne
        rw [Function.update_of_ne hne] at hu
        simpa [hu, DiskPc.atSemaphore] using h.alone hholds hne
      subst hut
      rw [Function.update_self] at hu
      cases hu
      exact hserves contents'
  have hrun := DiskDevice.request_eq hactive (h.range t x (by rw [ht]; rfl))
  split at hrun
  · exact ⟨_, _, hrun, hkept _ _⟩
  · exact ⟨_, _, hrun, hkept _ _⟩

theorem DiskInv.waited (hb : blocked t = false) {k : ℕ} {x : Transfer} (ht : pc t = .inP k x) :
    DiskInv (Function.update pc t (o.waited k x (o.semaphore.tryP t)).pc)
      (blockedAfter blocked t (o.waited k x (o.semaphore.tryP t))) (o.waited k x (o.semaphore.tryP t)).obj := by
  have hholds : (pc t).holds = true := by rw [ht]; rfl
  have hrange : ∀ p : DiskPc, p.wants = none → ∀ u y, (Function.update pc t p u).wants = some y → y.InRange := by
    intro p hp u y hy
    by_cases hu : u = t
    · simp [hu, hp] at hy
    · exact h.range u y (by simpa [hu] using hy)
  by_cases h0 : o.semaphore.value = 0
  · have hrun : o.waited k x (o.semaphore.tryP t) =
        { obj := { o with semaphore := { o.semaphore with queue := o.semaphore.queue ++ [t] } }, pc := .inP k x,
          sleeps := true } := by
      simp [Semaphore.tryP, SynchDisk.waited, h0]
    have hpc : Function.update pc t (.inP k x) = pc := by rw [← ht, Function.update_eq_self]
    rw [hrun, blockedAfter_asleep _ _ rfl rfl]
    refine ⟨h.lock_stays hholds rfl (fun u hu => Function.update_of_ne hu _ _), fun u => ?_,
      nodup_snoc h.nodup (by simp [h.queue, hb]), hrange _ rfl, fun hall => ?_, fun u j y hu => ?_⟩
    · rw [List.mem_append, List.mem_singleton, h.queue]
      by_cases hu : u = t <;> simp [hu, DiskPc.atSemaphore]
    · simpa [DiskPc.atSemaphore] using hall t
    · simp only [hpc] at hu
      exact h.serves u j y hu
  · have hrun : o.waited k x (o.semaphore.tryP t) =
        { obj := { o with semaphore := { o.semaphore with value := o.semaphore.value - 1 } }, pc := .unlock k x } := by
      simp [Semaphore.tryP, SynchDisk.waited, h0]
    rcases h.serves t k x ht with ⟨hvalue, -⟩ | ⟨hvalue, hactive, hpending⟩
    · exact absurd hvalue h0
    · rw [hrun, blockedAfter_awake _ _ rfl rfl]
      refine ⟨h.lock_stays hholds rfl (fun _ _ => rfl), fun u => ?_, h.nodup, hrange _ rfl,
        fun _ => ⟨by simp [hvalue], hactive, hpending⟩, fun u j y hu => ?_⟩
      · by_cases hu : u = t
        · simp [hu, h.queue, hb]
        · simpa [hu] using h.queue u
      · have hut : u ≠ t := by
          rintro rfl
          simp at hu
        rw [Function.update_of_ne hut] at hu
        simpa [hu, DiskPc.atSemaphore] using h.alone hholds hut

theorem DiskInv.unlock (hb : blocked t = false) {k : ℕ} {x : Transfer} (ht : pc t = .unlock k x) :
    ∃ lock wakes, o.lock.release t = .ok (lock, wakes) ∧ wakes.Nodup ∧ (∀ u ∈ wakes, blocked u = true) ∧
      DiskInv (Function.update pc t (.outside (some x))) (fun u => if u ∈ wakes then false else blocked u)
        { o with lock := lock } := by
  obtain ⟨lock, wakes, hrun, hnd, hw, -, hok⟩ := h.lock.release (t := t) (by rw [ht]; rfl) (by rw [ht]; rfl)
  refine ⟨lock, wakes, hrun, hnd, fun u hu => (hw u hu).2, hok _ _ rfl rfl (fun _ _ => rfl), fun u => ?_, h.nodup,
    fun u y hy => ?_, fun hall => h.idle fun u => ?_, fun u j y hu => h.serves u j y (update_eq hu (by simp))⟩
  · by_cases hm : u ∈ wakes
    · simp [hm, h.queue, DiskPc.atSemaphore_of_atLock (hw u hm).1]
    · by_cases hu : u = t
      · simp [hu, h.queue, hb]
      · simpa [hu, hm] using h.queue u
  · by_cases hu : u = t
    · simp [hu, DiskPc.wants] at hy
    · exact h.range u y (by simpa [hu] using hy)
  · by_cases hu : u = t
    · rw [hu, ht]
      rfl
    · simpa [hu] using hall u

theorem DiskInv.handleInterrupt {k : ℕ} (hk : k ∈ o.disk.pending) :
    ∃ o' wakes, o.handleInterrupt k = .ok (o', wakes) ∧ wakes.Nodup ∧ (∀ u ∈ wakes, blocked u = true) ∧
      DiskInv pc (fun u => if u ∈ wakes then false else blocked u) o' := by
  obtain ⟨t, x, ht, hvalue, hpending⟩ := h.of_pending hk
  have hwakes : ∀ u ∈ o.semaphore.queue.take 1, (pc u).atSemaphore = true ∧ blocked u = true := fun u hu =>
    (h.queue u).mp (List.mem_of_mem_take hu)
  refine ⟨{ o with semaphore := ⟨o.semaphore.value + 1, o.semaphore.queue.drop 1⟩,
                   disk := { o.disk with active := false, pending := o.disk.pending.erase k } },
    o.semaphore.queue.take 1, ?_, h.nodup.sublist (List.take_sublist 1 _), fun u hu => (hwakes u hu).2,
    h.lock.others (fun u hu => DiskPc.atLock_of_atSemaphore (hwakes u hu).1), fun u => ?_,
    h.nodup.sublist (List.drop_sublist 1 _), h.range, fun hall => ?_, fun u j y hu => Or.inr ⟨?_, rfl, ?_⟩⟩
  · unfold SynchDisk.handleInterrupt Semaphore.v
    rw [if_neg (by rw [hvalue]; decide), ok_bind]
    rfl
  · rw [mem_drop_one h.nodup, h.queue]
    by_cases hm : u ∈ o.semaphore.queue.take 1 <;> simp [hm]
  · have hno := hall t
    rw [ht] at hno
    cases hno
  · simp [hvalue]
  · simp [hpending]

/-- Every section that can start runs to its end, with no assertion failing, and keeps the invariant. -/
theorem DiskInv.sect (hb : blocked t = false) {a : DiskAct}
    (he : (diskProgram Tid).enabled a (pc t)) (hd : inRangeCalls a t (pc t) o) :
    ∃ e, (diskProgram Tid).sect a t (pc t) o = .ok e ∧ e.wakes.Nodup ∧ (∀ u ∈ e.wakes, blocked u = true) ∧
      DiskInv (Function.update pc t e.pc) (blockedAfter blocked t e) e.obj := by
  cases a with
  | call x =>
    cases hpc : pc t <;> rw [hpc] at he <;> try exact he.elim
    have hout : (pc t).holds = false := by rw [hpc]; rfl
    refine ⟨o.locked x (o.lock.tryAcquire t), ?_, by simp [locked_wakes_nil], by simp [locked_wakes_nil],
      h.locked hb hout hd⟩
    simp only [diskProgram, h.lock.acquire hout, ok_bind, pure_eq_ok]
  | resume =>
    cases hpc : pc t with
    | outside _ =>
      rw [hpc] at he
      exact he.elim
    | inAcquire x =>
      exact ⟨_, rfl, by simp [locked_wakes_nil], by simp [locked_wakes_nil],
        h.locked hb (by rw [hpc]; rfl) (h.range t x (by rw [hpc]; rfl))⟩
    | request x =>
      obtain ⟨disk, y, hrun, hinv⟩ := h.request hb hpc
      refine ⟨{ obj := { o with disk := disk }, pc := .inP o.disk.requests y }, ?_, List.nodup_nil, by simp, ?_⟩
      · simp only [diskProgram, hrun, ok_bind, pure_eq_ok]
      · rwa [blockedAfter_awake _ _ rfl rfl]
    | inP k x => exact ⟨_, rfl, by simp [waited_wakes_nil], by simp [waited_wakes_nil], h.waited hb hpc⟩
    | unlock k x =>
      obtain ⟨lock, wakes, hrun, hnd, hw, hinv⟩ := h.unlock hb hpc
      refine ⟨{ obj := { o with lock := lock }, pc := .outside (some x), wakes := wakes }, ?_, hnd, hw, ?_⟩
      · simp only [diskProgram, hrun, ok_bind, pure_eq_ok]
      · rwa [blockedAfter_wakes _ _ rfl]

theorem DiskInv.handler (k : ℕ) :
    ∃ o' wakes, (diskProgram Tid).handler k o = .ok (o', wakes) ∧ wakes.Nodup ∧ (∀ u ∈ wakes, blocked u = true) ∧
      DiskInv pc (fun u => if u ∈ wakes then false else blocked u) o' := by
  by_cases hk : k ∈ o.disk.pending
  · obtain ⟨o', wakes, hrun, hrest⟩ := h.handleInterrupt hk
    exact ⟨o', wakes, by simp only [diskProgram, hk, if_true, hrun], hrest⟩
  · exact ⟨o, [], by simp only [diskProgram, hk, if_false], List.nodup_nil, by simp, by simpa using h⟩

end Sections

theorem diskProgram_stable : Stable (diskProgram Tid) inRangeCalls DiskInv where
  exec hinv hb he hd hs := by
    obtain ⟨e, hrun, hrest⟩ := hinv.sect hb he hd
    rw [hrun] at hs
    cases hs
    exact hrest
  interrupt {_ _ _ k _ _} hinv hs := by
    obtain ⟨o', wakes, hrun, hrest⟩ := hinv.handler k
    rw [hrun] at hs
    cases hs
    exact hrest

omit [DecidableEq Tid] in
theorem diskStart_inv {contents : Disk} {s : State Tid DiskPc (SynchDisk Tid)} (h : DiskStart contents s) :
    Placed s ∧ DiskInv s.pc s.blocked s.obj := by
  obtain ⟨hp, ho, hpc⟩ := h
  rw [ho]
  refine ⟨hp, Lock.new_ok.congr (by simp [hpc, DiskPc.holds]) (by simp [hpc, DiskPc.atLock]),
    by simp [SynchDisk.new, hpc, DiskPc.atSemaphore], List.nodup_nil, by simp [hpc, DiskPc.wants],
    fun _ => ⟨rfl, rfl, rfl⟩, by simp [hpc]⟩

/-! ## What the callers get -/

/-- The bytes of the last write to a sector among the transfers, or those the disk began with. -/
def lastWritten (contents : Disk) (issued : List Transfer) (sectorNumber : Int) : Image :=
  match issued.reverse.find? fun x => x.writing && x.sectorNumber == sectorNumber with
  | some x => x.data
  | none => contents sectorNumber.toNat

theorem lastWritten_snoc (contents : Disk) (issued : List Transfer) (x : Transfer) (n : Int) :
    lastWritten contents (issued ++ [x]) n =
      if x.writing = true ∧ x.sectorNumber = n then x.data else lastWritten contents issued n := by
  unfold lastWritten
  rw [List.reverse_append, List.reverse_singleton, List.singleton_append, List.find?_cons]
  by_cases h : x.writing = true ∧ x.sectorNumber = n
  · simp [h]
  · rw [if_neg h]
    have hne : (x.writing && x.sectorNumber == n) = false := by
      simpa using h
    rw [hne]

/-- The transfer a thread calls `ReadSector` or `WriteSector` for. -/
def DiskAct.transfer : DiskAct → Option Transfer
  | call x => some x
  | resume => none

/-- Thread `t` calls `ReadSector` or `WriteSector`. -/
def callsDisk (t : Tid) : DiskEvent Tid → Bool
  | .ran u (.call _) _ _ => u == t
  | _ => false

/-- The request that a caller makes in a section, with the transfer as it was called for. -/
def requestOf : DiskEvent Tid → Option (Tid × Transfer)
  | .ran t .resume (.request x) _ => some (t, x)
  | _ => none

/-- The requests of the callers, in order; a request goes by its place. -/
def issued (es : List (DiskEvent Tid)) : List (Tid × Transfer) := es.filterMap requestOf

/-- The interrupt of request `k` has been handled since the request. -/
def Handled (es : List (DiskEvent Tid)) (k : ℕ) : Prop :=
  ∃ before after, es = before ++ .handled k :: after ∧ k < (issued before).length

/-- The last call of thread `t`, for `x`, has made request `k`, which is the thread's last one, and has `y` in its
hands: what it writes, or what was last written to the sector before the request. -/
structure Requested (contents : Disk) (es : List (DiskEvent Tid)) (t : Tid) (x : Transfer) (k : ℕ)
    (y : Transfer) : Prop where
  call : lastCall DiskAct.transfer t es = some x
  request : (issued es)[k]? = some (t, x)
  last : ∀ j z, k < j → (issued es)[j]? ≠ some (t, z)
  same : y.writing = x.writing ∧ y.sectorNumber = x.sectorNumber
  data : ∀ i < sectorSize, y.data i =
    if x.writing then x.data i else lastWritten contents (((issued es).take k).map Prod.snd) x.sectorNumber i

section Log
variable {contents : Disk} {es : List (DiskEvent Tid)} {x y : Transfer} {k : ℕ} {a : DiskAct} {p q : DiskPc}

omit [DecidableEq Tid] in
theorem issued_snoc (es : List (DiskEvent Tid)) (ev : DiskEvent Tid) :
    issued (es ++ [ev]) = issued es ++ (requestOf ev).toList := by
  unfold issued
  rw [List.filterMap_append]
  cases hev : requestOf ev <;> simp [hev]

omit [DecidableEq Tid] in
theorem Handled.snoc (h : Handled es k) (ev : DiskEvent Tid) : Handled (es ++ [ev]) k := by
  obtain ⟨before, after, rfl, hk⟩ := h
  exact ⟨before, after ++ [ev], by simp, hk⟩

/-- An event that is no call and no request of the thread. -/
theorem Requested.snoc (h : Requested contents es t x k y) {ev : DiskEvent Tid}
    (hcall : lastCall DiskAct.transfer t (es ++ [ev]) = lastCall DiskAct.transfer t es)
    (hev : ∀ z, requestOf ev ≠ some (t, z)) : Requested contents (es ++ [ev]) t x k y := by
  have hk : k < (issued es).length := (List.getElem?_eq_some_iff.mp h.request).1
  refine ⟨hcall.trans h.call, ?_, fun j z hj => ?_, h.same, fun i hi => ?_⟩
  · rw [issued_snoc, List.getElem?_append_left hk]
    exact h.request
  · rw [issued_snoc]
    by_cases hlt : j < (issued es).length
    · rw [List.getElem?_append_left hlt]
      exact h.last j z hj
    · rw [List.getElem?_append_right (by omega)]
      intro hz
      have hmem := List.mem_of_getElem? hz
      rw [Option.mem_toList] at hmem
      exact hev z hmem
  · rw [issued_snoc, List.take_append_of_le_length hk.le]
    exact h.data i hi

/-- The call of thread `t` that returns with `y` after these events has made one request, whose interrupt has been
handled. -/
def ReturnsWith (contents : Disk) (es : List (DiskEvent Tid)) (t : Tid) (y : Transfer) : Prop :=
  es.countP (callsDisk t) = (issued es).countP (fun r => r.1 == t) ∧ ∃ x k, Requested contents es t x k y ∧ Handled es k

/-- What the device and the callers make of the requests: the numbers of the requests, the sectors, the calls, the
requests of the callers that wait, and what the calls have returned. -/
structure DiskLog (contents : Disk) (es : List (DiskEvent Tid)) (pc : Tid → DiskPc) (o : SynchDisk Tid) :
    Prop where
  number : o.disk.requests = (issued es).length
  sectors : ∀ n : ℕ, ∀ i < sectorSize, o.disk.contents n i = lastWritten contents ((issued es).map Prod.snd) n i
  calls : ∀ t, es.countP (callsDisk t) = (issued es).countP (fun r => r.1 == t) + if (pc t).wants.isSome then 1 else 0
  wants : ∀ t x, (pc t).wants = some x → lastCall DiskAct.transfer t es = some x
  requested : ∀ t k y, (pc t).has = some (k, y) → ∃ x, Requested contents es t x k y
  pending : ∀ k ∈ o.disk.pending, k < (issued es).length
  handled : ∀ t k y, (pc t).has = some (k, y) → k ∉ o.disk.pending → Handled es k
  returned : ∀ before after t a p y, es = before ++ .ran t a p (.outside (some y)) :: after →
    ReturnsWith contents before t y

/-- The calls that have returned, after one more event. -/
theorem DiskLog.returned_snoc (h : DiskLog contents es pc o) {ev : DiskEvent Tid}
    (hev : ∀ t a p y, ev = .ran t a p (.outside (some y)) → ReturnsWith contents es t y)
    (before after : List (DiskEvent Tid)) (t : Tid) (a : DiskAct) (p : DiskPc) (y : Transfer)
    (hes : es ++ [ev] = before ++ .ran t a p (.outside (some y)) :: after) : ReturnsWith contents before t y := by
  rcases List.eq_nil_or_concat after with rfl | ⟨after, last, rfl⟩
  · obtain ⟨rfl, hlast⟩ := List.append_inj' hes rfl
    exact hev t a p y (List.cons.inj hlast).1
  · rw [List.concat_eq_append, ← List.cons_append, ← List.append_assoc] at hes
    exact h.returned before after t a p y (List.append_inj' hes rfl).1

/-- A section of thread `t` without a request. -/
theorem DiskLog.ran (h : DiskLog contents es pc o) (hpc : pc t = p) {o' : SynchDisk Tid} (hdisk : o'.disk = o.disk)
    (hreq : requestOf (.ran t a p q) = none)
    (hcalls : (if q.wants.isSome then 1 else 0) = (if p.wants.isSome then 1 else 0) + if a.transfer.isSome then 1 else 0)
    (hwants : ∀ x, q.wants = some x → a.transfer.or p.wants = some x)
    (hhas : ∀ k y, q.has = some (k, y) → a = .resume ∧ p.has = some (k, y))
    (hreturns : ∀ y, q = .outside (some y) → ∃ k, p = .unlock k y ∧ k ∉ o.disk.pending) :
    DiskLog contents (es ++ [.ran t a p q]) (Function.update pc t q) o' := by
  have hissued : issued (es ++ [.ran t a p q]) = issued es := by
    rw [issued_snoc, hreq, Option.toList_none, List.append_nil]
  refine ⟨by rw [hdisk, hissued, h.number], fun n i hi => by rw [hdisk, hissued, h.sectors n i hi], fun u => ?_,
    fun u x hu => ?_, fun u k y hu => ?_, fun k hk => ?_, fun u k y hu hk => Handled.snoc ?_ _,
    h.returned_snoc fun u b p' y hev => ?_⟩
  · rw [hissued, List.countP_append, h.calls u]
    by_cases hut : u = t
    · subst hut
      rw [Function.update_self, hcalls, hpc]
      cases a <;> simp [callsDisk, DiskAct.transfer, Nat.add_assoc]
    · rw [Function.update_of_ne hut]
      cases a <;> simp [callsDisk, Ne.symm hut]
  · rw [lastCall_ran]
    by_cases hut : u = t
    · subst hut
      rw [Function.update_self] at hu
      have hcalled := hwants x hu
      rw [if_pos rfl]
      cases ha : a.transfer with
      | some z => simpa [ha] using hcalled
      | none => simpa [ha] using h.wants u x (by simpa [ha, hpc] using hcalled)
    · rw [Function.update_of_ne hut] at hu
      rw [if_neg (Ne.symm hut)]
      exact h.wants u x hu
  · by_cases hut : u = t
    · subst hut
      rw [Function.update_self] at hu
      obtain ⟨rfl, hp⟩ := hhas k y hu
      obtain ⟨x, hx⟩ := h.requested u k y (hpc ▸ hp)
      exact ⟨x, hx.snoc (by rw [lastCall_ran, if_pos rfl]; rfl) (by simp [hreq])⟩
    · rw [Function.update_of_ne hut] at hu
      obtain ⟨x, hx⟩ := h.requested u k y hu
      exact ⟨x, hx.snoc (by rw [lastCall_ran, if_neg (Ne.symm hut)]) (by simp [hreq])⟩
  · rw [hissued]
    exact h.pending k (hdisk ▸ hk)
  · rw [hdisk] at hk
    by_cases hut : u = t
    · rw [hut, Function.update_self] at hu
      exact h.handled t k y (hpc ▸ (hhas k y hu).2) hk
    · rw [Function.update_of_ne hut] at hu
      exact h.handled u k y hu hk
  · cases hev
    obtain ⟨k, rfl, hk⟩ := hreturns y rfl
    have hhas : (pc t).has = some (k, y) := by rw [hpc]; rfl
    obtain ⟨x, hx⟩ := h.requested t k y hhas
    refine ⟨?_, x, k, hx, h.handled t k y hhas hk⟩
    rw [h.calls t, hpc]
    rfl

/-- The section in which a caller makes its request. -/
theorem DiskLog.request (h : DiskLog contents es pc o) (hpc : pc t = .request x) (ha : o.disk.active = false)
    (hx : x.InRange) {disk : DiskDevice} (hrun : o.disk.request x = .ok (disk, y)) :
    DiskLog contents (es ++ [.ran t .resume (.request x) (.inP o.disk.requests y)])
      (Function.update pc t (.inP o.disk.requests y)) { o with disk := disk } := by
  obtain ⟨⟨hnumber, hpending⟩, hsectors, hsame, hdata⟩ := DiskDevice.request_spec ha hx hrun
  have hissued : issued (es ++ [.ran t .resume (.request x) (.inP o.disk.requests y)]) = issued es ++ [(t, x)] :=
    issued_snoc _ _
  have hcall : ∀ u, lastCall DiskAct.transfer u (es ++ [.ran t .resume (.request x) (.inP o.disk.requests y)]) =
      lastCall DiskAct.transfer u es := by
    intro u
    rw [lastCall_ran]
    split <;> rfl
  refine ⟨by rw [hissued]; simp [hnumber, h.number], fun n i hi => ?_, fun u => ?_, fun u z hu => ?_,
    fun u k z hu => ?_, fun k hk => ?_, fun u k z hu hk => ?_, h.returned_snoc fun _ _ _ _ hev => nomatch hev⟩
  · rw [hissued, List.map_append, List.map_singleton, lastWritten_snoc]
    simp only [hsectors n i hi, h.sectors n i hi]
    split <;> rfl
  · rw [hissued, List.countP_append, List.countP_append, h.calls u, List.countP_singleton, List.countP_singleton]
    by_cases hut : u = t
    · subst hut
      simp [hpc, DiskPc.wants, callsDisk]
    · simp [hut, Ne.symm hut, callsDisk]
  · by_cases hut : u = t
    · rw [hut, Function.update_self] at hu
      cases hu
    · rw [Function.update_of_ne hut] at hu
      rw [hcall]
      exact h.wants u z hu
  · by_cases hut : u = t
    · subst hut
      rw [Function.update_self] at hu
      cases hu
      refine ⟨x, (hcall u).trans (h.wants u x (by rw [hpc]; rfl)), ?_, fun j z hj => ?_, hsame, fun i hi => ?_⟩
      · rw [hissued, h.number]
        simp
      · rw [hissued, List.getElem?_eq_none (by rw [List.length_append, List.length_singleton, ← h.number]; omega)]
        simp
      · rw [hdata i hi, hissued, h.number, List.take_left, ← Int.toNat_of_nonneg hx.1, ← h.sectors _ i hi,
          Int.toNat_natCast]
    · rw [Function.update_of_ne hut] at hu
      obtain ⟨z', hz⟩ := h.requested u k z hu
      exact ⟨z', hz.snoc (hcall u) (by simp [requestOf, Ne.symm hut])⟩
  · rw [hissued, List.length_append, List.length_singleton]
    rw [hpending] at hk
    rcases List.mem_append.mp hk with hk | hk
    · have := h.pending k hk
      omega
    · rw [List.mem_singleton.mp hk, h.number]
      omega
  · rw [hpending, List.mem_append, not_or, List.mem_singleton] at hk
    by_cases hut : u = t
    · rw [hut, Function.update_self] at hu
      cases hu
      exact absurd rfl hk.2
    · rw [Function.update_of_ne hut] at hu
      exact (h.handled u k z hu hk.1).snoc _

/-- The interrupt of request `k`, if it is pending. -/
theorem DiskLog.handler (h : DiskLog contents es pc o) {o' : SynchDisk Tid}
    (hcontents : o'.disk.contents = o.disk.contents ∧ o'.disk.requests = o.disk.requests)
    (hpending : k ∈ o.disk.pending ∧ o'.disk.pending = o.disk.pending.erase k ∨ o'.disk.pending = o.disk.pending) :
    DiskLog contents (es ++ [.handled k]) pc o' := by
  have hissued : issued (es ++ [.handled k]) = issued es := by
    rw [issued_snoc]
    exact List.append_nil _
  refine ⟨by rw [hissued, hcontents.2, h.number], fun n i hi => by rw [hissued, hcontents.1, h.sectors n i hi],
    fun u => ?_, fun u x hu => ?_, fun u j y hu => ?_, fun j hj => ?_, fun u j y hu hj => ?_,
    h.returned_snoc fun _ _ _ _ hev => nomatch hev⟩
  · rw [hissued, List.countP_append, h.calls u]
    rfl
  · rw [lastCall_handled]
    exact h.wants u x hu
  · obtain ⟨x, hx⟩ := h.requested u j y hu
    exact ⟨x, hx.snoc (lastCall_handled _ _ _ _) (by simp [requestOf])⟩
  · rw [hissued]
    rcases hpending with ⟨-, hp⟩ | hp
    · exact h.pending j (List.mem_of_mem_erase (hp ▸ hj))
    · exact h.pending j (hp ▸ hj)
  · by_cases hp : j ∈ o.disk.pending
    · rcases hpending with ⟨hk, hp'⟩ | hp'
      · rw [hp'] at hj
        have hjk : j = k := by
          by_contra hne
          exact hj ((List.mem_erase_of_ne hne).mpr hp)
        subst hjk
        exact ⟨es, [], rfl, h.pending j hk⟩
      · exact absurd (hp' ▸ hp) hj
    · exact (h.handled u j y hu hp).snoc _

/-- A pass through the loop of `Acquire`. -/
theorem DiskLog.locked (h : DiskLog contents es pc o) (hpc : pc t = p) (r : Lock Tid × Bool)
    (hreq : ∀ q, requestOf (.ran t a p q) = none) (hcalls : p.wants.isSome = !a.transfer.isSome)
    (hx : a.transfer.or p.wants = some x) :
    DiskLog contents (es ++ [.ran t a p (o.locked x r).pc]) (Function.update pc t (o.locked x r).pc)
      (o.locked x r).obj := by
  have hcount : 1 = (if p.wants.isSome then 1 else 0) + if a.transfer.isSome then 1 else 0 := by
    rw [hcalls]
    cases a.transfer <;> rfl
  unfold SynchDisk.locked
  split
  · exact h.ran hpc rfl (hreq _) hcount (fun y hy => hy ▸ hx) (fun _ _ hk => nomatch hk) (fun _ hy => nomatch hy)
  · exact h.ran hpc rfl (hreq _) hcount (fun y hy => hy ▸ hx) (fun _ _ hk => nomatch hk) (fun _ hy => nomatch hy)

theorem DiskLog.sect (h : DiskLog contents es pc o) (hinv : DiskInv pc blocked o)
    {e : Effect Tid DiskPc (SynchDisk Tid)} (he : (diskProgram Tid).enabled a (pc t))
    (hs : (diskProgram Tid).sect a t (pc t) o = .ok e) :
    DiskLog contents (es ++ [.ran t a (pc t) e.pc]) (Function.update pc t e.pc) e.obj := by
  cases a with
  | call x =>
    obtain ⟨r, -, hr⟩ := bind_eq_ok.mp hs
    cases hr
    cases hpc : pc t <;> rw [hpc] at he <;> try exact he.elim
    exact h.locked hpc r (fun _ => rfl) rfl rfl
  | resume =>
    cases hpc : pc t with
    | outside returned =>
      rw [hpc] at he
      exact he.elim
    | inAcquire x =>
      rw [hpc] at hs
      cases hs
      exact h.locked hpc _ (fun _ => rfl) rfl rfl
    | request x =>
      rw [hpc] at hs
      obtain ⟨⟨disk, y⟩, hrun, hr⟩ := bind_eq_ok.mp hs
      cases hr
      exact h.request hpc (hinv.idle_of_request hpc).2.1 (hinv.range t x (by rw [hpc]; rfl)) hrun
    | inP k x =>
      rw [hpc] at hs
      cases hs
      unfold SynchDisk.waited
      split
      · exact h.ran hpc rfl rfl rfl (fun _ hy => nomatch hy) (fun _ _ hk => ⟨rfl, hk⟩) (fun _ hy => nomatch hy)
      · exact h.ran hpc rfl rfl rfl (fun _ hy => nomatch hy) (fun _ _ hk => ⟨rfl, hk⟩) (fun _ hy => nomatch hy)
    | unlock k x =>
      rw [hpc] at hs
      obtain ⟨⟨lock, wakes⟩, -, hr⟩ := bind_eq_ok.mp hs
      cases hr
      have hidle : o.Idle := hinv.idle fun u => by
        by_cases hu : u = t
        · rw [hu, hpc]
          rfl
        · exact hinv.alone (by rw [hpc]; rfl) hu
      refine h.ran hpc rfl rfl rfl (fun _ hy => nomatch hy) (fun _ _ hk => nomatch hk) fun y hy => ⟨k, ?_, ?_⟩
      · cases hy
        rfl
      · simp [hidle.2.2]

theorem diskLog_of_history {s : State Tid DiskPc (SynchDisk Tid)}
    (hs : History (DiskStart contents) (diskProgram Tid) inRangeCalls es s) : DiskLog contents es s.pc s.obj := by
  refine diskProgram_stable.history (fun _ h => diskStart_inv h) (fun s h => ?_)
    (fun hinv hlog he hsect => hlog.sect hinv he hsect) (fun {es pc blocked o k o' ts} _ hlog hh => ?_) hs
  · obtain ⟨-, ho, hpc⟩ := h
    rw [ho]
    exact ⟨rfl, fun _ _ _ => rfl, by simp [hpc, DiskPc.wants, issued], by simp [hpc, DiskPc.wants],
      by simp [hpc, DiskPc.has], by simp [SynchDisk.new], by simp [hpc, DiskPc.has], by simp⟩
  · simp only [diskProgram] at hh
    split at hh
    · next hk =>
      obtain ⟨⟨semaphore, wakes⟩, -, hr⟩ := bind_eq_ok.mp hh
      cases hr
      exact hlog.handler ⟨rfl, rfl⟩ (Or.inl ⟨hk, rfl⟩)
    · cases hh
      exact hlog.handler ⟨rfl, rfl⟩ (Or.inr rfl)

/-- In every interleaving of callers and disk interrupts no assertion fails, at most one interrupt is pending, and a
call returns only after the interrupt of the one request it has made, a read with what was last written to its
sector by the requests before its own. -/
theorem synchDisk_serialises {s : State Tid DiskPc (SynchDisk Tid)}
    (hs : History (DiskStart contents) (diskProgram Tid) inRangeCalls es s) :
    (∀ a, s.status s.current = .running → (diskProgram Tid).enabled a (s.pc s.current) →
      inRangeCalls a s.current (s.pc s.current) s.obj →
      ∃ e, (diskProgram Tid).sect a s.current (s.pc s.current) s.obj = .ok e) ∧
    (∀ k, ∃ r, (diskProgram Tid).handler k s.obj = .ok r) ∧
    s.obj.disk.pending.length ≤ 1 ∧
    (∀ before after t a p y, es = before ++ .ran t a p (.outside (some y)) :: after →
      before.countP (callsDisk t) = (issued before).countP (fun r => r.1 == t) ∧
      ∃ x k, Handled before k ∧ lastCall DiskAct.transfer t before = some x ∧ (issued before)[k]? = some (t, x) ∧
        (∀ j z, k < j → (issued before)[j]? ≠ some (t, z)) ∧ y.sectorNumber = x.sectorNumber ∧
        (x.writing = false → ∀ i < sectorSize,
          y.data i = lastWritten contents (((issued before).take k).map Prod.snd) x.sectorNumber i)) := by
  obtain ⟨-, hinv⟩ := diskProgram_stable.run (fun _ h => diskStart_inv h) hs.reachable
  refine ⟨fun a hr he hd => ?_, fun k => ?_, ?_, fun before after t a p y hes => ?_⟩
  · obtain ⟨e, hrun, -⟩ := hinv.sect (by simp [State.blocked, hr]) he hd
    exact ⟨e, hrun⟩
  · obtain ⟨o', wakes, hrun, -⟩ := hinv.handler k
    exact ⟨(o', wakes), hrun⟩
  · cases hp : s.obj.disk.pending with
    | nil => simp
    | cons k ks =>
      obtain ⟨t, -, -, -, hone⟩ := hinv.of_pending (k := k) (by simp [hp])
      rw [hone] at hp
      cases hp
      simp
  · obtain ⟨hcount, x, k, hx, hk⟩ := (diskLog_of_history hs).returned before after t a p y hes
    refine ⟨hcount, x, k, hk, hx.call, hx.request, hx.last, hx.same.2, fun hw i hi => ?_⟩
    rw [hx.data i hi, hw]
    rfl

end Log

/-- Two threads and a disk of zeros. -/
def writerStart : State (Fin 2) DiskPc (SynchDisk (Fin 2)) where
  current := 0
  readyList := [1]
  status t := if t = 0 then .running else .ready
  pc _ := .outside none
  obj := SynchDisk.new fun _ _ => 0

/-- The first thread writes sector 5 while the second waits for the lock to read it: the read returns what was
written. -/
theorem synchDisk_serialises_reader :
    ∃ (es : List (Event (Fin 2) DiskPc DiskAct ℕ)) (s : State (Fin 2) DiskPc (SynchDisk (Fin 2))) (y : Transfer),
      History (DiskStart fun _ _ => 0) (diskProgram (Fin 2)) inRangeCalls es s ∧ s.pc 1 = .outside (some y) ∧
      s.obj.disk.pending.length ≤ 1 ∧ y.sectorNumber = 5 ∧ ∀ i < sectorSize, y.data i = 7 := by
  have hany : ∀ (s : State (Fin 2) DiskPc (SynchDisk (Fin 2))) (l : Label (Fin 2) DiskAct ℕ),
      (∀ x, l ≠ .exec (.call x)) → Disciplined inRangeCalls s l := by
    rintro s l hl a rfl
    cases a with
    | call x => exact absurd rfl (hl x)
    | resume => trivial
  have hcall : ∀ (s : State (Fin 2) DiskPc (SynchDisk (Fin 2))) (x : Transfer), x.InRange →
      Disciplined inRangeCalls s (.exec (.call x) : Label (Fin 2) DiskAct ℕ) := by
    rintro s x hx a ha
    cases ha
    exact hx
  have h0 : History (DiskStart fun _ _ => 0) (diskProgram (Fin 2)) inRangeCalls [] writerStart :=
    .start ⟨⟨by decide, by decide, by decide⟩, rfl, fun _ => rfl⟩
  have h1 := h0.next (hcall _ _ ⟨by decide, by decide⟩)
    (Step.exec (a := DiskAct.call ⟨true, 5, fun _ => 7⟩) rfl trivial rfl)
  have h2 := h1.next (hany _ _ (by simp)) (Step.exec (a := DiskAct.resume) rfl trivial rfl)
  have h3 := h2.next (hany _ _ (by simp)) (Step.exec (a := DiskAct.resume) rfl trivial rfl)
  have h4 := h3.next (hany _ _ (by simp)) (Step.dispatch (t := 1) (by decide) (by decide))
  have h5 := h4.next (hcall _ _ ⟨by decide, by decide⟩)
    (Step.exec (a := DiskAct.call ⟨false, 5, fun _ => 0⟩) rfl trivial rfl)
  have h6 := h5.next (hany _ _ (by simp)) (Step.interrupt (e := 0) rfl)
  have h7 := h6.next (hany _ _ (by simp)) (Step.dispatch (t := 0) (by decide) (by decide))
  have h8 := h7.next (hany _ _ (by simp)) (Step.exec (a := DiskAct.resume) rfl trivial rfl)
  have h9 := h8.next (hany _ _ (by simp)) (Step.exec (a := DiskAct.resume) rfl trivial rfl)
  have h10 := h9.next (hany _ _ (by simp)) (Step.yield (t := 1) (by decide) (by decide))
  have h11 := h10.next (hany _ _ (by simp)) (Step.exec (a := DiskAct.resume) rfl trivial rfl)
  have h12 := h11.next (hany _ _ (by simp)) (Step.exec (a := DiskAct.resume) rfl trivial rfl)
  have h13 := h12.next (hany _ _ (by simp)) (Step.interrupt (e := 1) rfl)
  have h14 := h13.next (hany _ _ (by simp)) (Step.exec (a := DiskAct.resume) rfl trivial rfl)
  have h15 := h14.next (hany _ _ (by simp)) (Step.exec (a := DiskAct.resume) rfl trivial rfl)
  obtain ⟨-, -, hone, hreturns⟩ := synchDisk_serialises h15
  obtain ⟨-, x, k, -, hx, hk, -, hsector, hdata⟩ := hreturns _ [] 1 .resume _ _ rfl
  cases hx
  refine ⟨_, _, _, h15, rfl, hone, hsector, fun i hi => ?_⟩
  have hlast : k = 1 := by
    rcases k with _ | _ | k
    · cases hk
    · rfl
    · cases hk
  subst hlast
  exact hdata rfl i hi

end Nachos
