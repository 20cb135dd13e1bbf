import Nachos.Userprog.Join

/-! # What `Join` and `Exit` guarantee in every interleaving

For each child the calls of `notifyParent` are the units that its record's semaphore has received, and
the calls of `Join` that returned `0` are the units taken from it. -/
set_option autoImplicit false

namespace Nachos
open Execution Uniprocessor

variable {Tid : Type}

namespace ProcPc

/-- Past `notifyParent`. -/
def exited : ProcPc Tid → Bool
  | notified | finished => true
  | _ => false

/-- The record whose semaphore a thread is waiting for. -/
def joins : ProcPc Tid → Option ℕ
  | inJoin r _ => some r
  | _ => none

end ProcPc

namespace Processes

/-- How often `Join` has returned `0` for a child. -/
def joinCount (o : Processes Tid) (cid : Int) : ℕ := o.returns.countP fun e => e.cid == cid && e.value == 0

/-- How often a thread has called `notifyParent`. -/
def exitCount [DecidableEq Tid] (o : Processes Tid) (thread : Tid) : ℕ := o.exits.countP fun x => x.1 == thread

@[simp] theorem joinCount_joinReturns (o : Processes Tid) (t : Tid) (cid value cid' : Int) :
    (o.joinReturns t cid value).joinCount cid' =
      o.joinCount cid' + if cid = cid' ∧ value = 0 then 1 else 0 := by
  simp [joinReturns, joinCount, List.countP_append, List.countP_singleton]

theorem joinRecord_of_zero (o : Processes Tid) (t : Tid) (r : ℕ) (cid : Int) (h : (o.records r).joinSem.value = 0) :
    o.joinRecord t r cid =
      { obj := o.setSem r ⟨(o.records r).joinSem.value, (o.records r).joinSem.queue ++ [t]⟩, pc := .inJoin r cid,
        sleeps := true } := by
  simp [joinRecord, Semaphore.tryP, h]

theorem joinRecord_of_ne_zero (o : Processes Tid) (t : Tid) (r : ℕ) (cid : Int) (h : (o.records r).joinSem.value ≠ 0) :
    o.joinRecord t r cid =
      { obj := (o.setSem r ⟨(o.records r).joinSem.value - 1, (o.records r).joinSem.queue⟩).joinReturns t cid 0,
        pc := .user } := by
  simp [joinRecord, Semaphore.tryP, h]

/-- A pass through the loop of `P` touches one record, and `0` is what `Join` returns after it. -/
theorem joinRecord_frame (o : Processes Tid) (t : Tid) (r : ℕ) (cid : Int) :
    (∀ r', r' ≠ r → (o.joinRecord t r cid).obj.records r' = o.records r') ∧
    ((o.joinRecord t r cid).obj.returns = o.returns ∨
      (o.joinRecord t r cid).obj.returns = o.returns ++ [⟨t, cid, 0⟩]) := by
  by_cases h : (o.records r).joinSem.value = 0
  · rw [joinRecord_of_zero _ _ _ _ h]
    exact ⟨fun r' hr => Function.update_of_ne hr _ _, Or.inl rfl⟩
  · rw [joinRecord_of_ne_zero _ _ _ _ h]
    exact ⟨fun r' hr => Function.update_of_ne hr _ _, Or.inr rfl⟩

theorem setSem_joinSem (o : Processes Tid) (r r' : ℕ) (joinSem : Semaphore Tid) :
    ((o.setSem r joinSem).records r').joinSem = if r' = r then joinSem else (o.records r').joinSem := by
  by_cases h : r' = r <;> simp [setSem, h]

theorem setSem_status (o : Processes Tid) (r : ℕ) (joinSem : Semaphore Tid) (r' : ℕ) :
    ((o.setSem r joinSem).records r').status = (o.records r').status :=
  update_field ChildThread.status o.records r (by rfl) r'

/-- The links and the owners of the records are the same. -/
structure SameForest (o o' : Processes Tid) : Prop where
  links : ∀ r, (o'.records r).id = (o.records r).id ∧ (o'.records r).next = (o.records r).next ∧
    (o'.records r).prev = (o.records r).prev
  allocated : o'.allocated = o.allocated
  globalID : o'.globalID = o.globalID
  parentRecord : o'.parentRecord = o.parentRecord
  created : o'.created = o.created
  child : o'.child = o.child

/-- A record is given a new semaphore, and maybe another status. -/
theorem sameForest_update (o : Processes Tid) (r : ℕ) (thread : Option Tid) (status : Int) (joinSem : Semaphore Tid)
    (exits : List (Tid × Int)) (returns : List (JoinReturn Tid)) :
    o.SameForest { o with
      records := Function.update o.records r
        { o.records r with thread := thread, status := status, joinSem := joinSem },
      exits := exits, returns := returns } := by
  refine ⟨fun r' => ⟨?_, ?_, ?_⟩, rfl, rfl, rfl, rfl, rfl⟩
  · exact update_field ChildThread.id o.records r (by rfl) r'
  · exact update_field ChildThread.next o.records r (by rfl) r'
  · exact update_field ChildThread.prev o.records r (by rfl) r'

end Processes

variable [DecidableEq Tid]

structure ProcInv (ring : Tid → List ℕ) (pc : Tid → ProcPc Tid) (blocked : Tid → Bool) (o : Processes Tid) : Prop where
  forest : o.Forest ring fun t => pc t ≠ .finished
  value : ∀ c r, o.parentRecord c = some r →
    0 ≤ (o.records r).joinSem.value ∧ (o.records r).joinSem.value + o.joinCount r = o.exitCount c
  exits : ∀ c, o.exitCount c = if (pc c).exited = true then 1 else 0
  status : ∀ c r v, o.parentRecord c = some r → (c, v) ∈ o.exits → (o.records r).status = v
  queue : ∀ r < o.allocated, ∀ t, t ∈ (o.records r).joinSem.queue ↔ (pc t).joins = some r ∧ blocked t = true
  nodup : ∀ r < o.allocated, (o.records r).joinSem.queue.Nodup
  inJoin : ∀ t r cid, pc t = .inJoin r cid → r ∈ ring t ∧ cid = r
  inExec : ∀ t c, pc t = .inExec c → pc c = .user ∧ blocked c = true ∧ ∃ r ∈ ring t, o.parentRecord c = some r
  uncreated : ∀ t, o.created t = false → pc t = .user ∧ blocked t = true
  returned : ∀ e ∈ o.returns, e.value = 0 → ∃ r ∈ ring e.caller, e.cid = r
  destroyed : ∀ t, o.threadToBeDestroyed = some t → pc t = .finished

variable {ring : Tid → List ℕ} {pc : Tid → ProcPc Tid} {blocked : Tid → Bool} {o o' : Processes Tid} {t c : Tid}

theorem exitCount_snoc (o : Processes Tid) (status : Int) (c : Tid) :
    ({ o with exits := o.exits ++ [(t, status)] } : Processes Tid).exitCount c =
      o.exitCount c + if t = c then 1 else 0 := by
  simp [Processes.exitCount, List.countP_append, List.countP_singleton]

section Invariant
variable (h : ProcInv ring pc blocked o)
include h

theorem ProcInv.created (hb : blocked t = false) : o.created t = true := by
  rw [← Bool.not_eq_false]
  intro hc
  rw [(h.uncreated t hc).2] at hb
  cases hb

theorem ProcInv.created_child {r : ℕ} (hc : o.parentRecord c = some r) : o.created c = true := by
  rw [← Bool.not_eq_false]
  intro hcr
  rw [(h.forest.uncreated c hcr).1] at hc
  cases hc

/-- The running thread is on no queue. -/
theorem ProcInv.not_queued (hb : blocked t = false) {r : ℕ} (hr : r < o.allocated) :
    t ∉ (o.records r).joinSem.queue := by
  rw [h.queue r hr, hb]
  simp

/-- No `Join` has returned for a record that does not exist. -/
theorem ProcInv.joinCount_new : o.joinCount o.allocated = 0 := by
  unfold Processes.joinCount
  rw [List.countP_eq_zero]
  intro e he hcount
  simp only [Bool.and_eq_true, beq_iff_eq] at hcount
  obtain ⟨r, hr, hcid⟩ := h.returned e he hcount.2
  have hlt := h.forest.alloc _ r hr
  have heq : (r : Int) = o.allocated := hcid ▸ hcount.1
  omega

/-- A thread that has not called `notifyParent` has not been recorded with a status. -/
theorem ProcInv.not_exited (hc : (pc c).exited = false) (v : Int) : (c, v) ∉ o.exits := by
  intro hm
  have hcount := h.exits c
  rw [hc, if_neg (by simp), Processes.exitCount, List.countP_eq_zero] at hcount
  exact hcount (c, v) hm (by simp)

theorem ProcInv.exited_of_count (hc : 0 < o.exitCount c) : (pc c).exited = true := by
  have hcount := h.exits c
  split at hcount
  · assumption
  · omega

/-- A child that is being made belongs to one `Exec`. -/
theorem ProcInv.inExec_unique {u : Tid} (ht : pc t = .inExec c) (hu : pc u = .inExec c) : u = t := by
  obtain ⟨-, -, r, hr, hrc⟩ := h.inExec t c ht
  obtain ⟨-, -, r', hr', hrc'⟩ := h.inExec u c hu
  rw [hrc] at hrc'
  cases hrc'
  exact h.forest.disjoint u t r hr' hr

/-! ## The sections -/

/-- The semaphore of the new record has no unit, and its child has not exited. -/
theorem ProcInv.exec_value (hc : o.created c = false)
    (hrun : o.newThread c t = .ok o') {d : Tid} {r : ℕ} (hd : o'.parentRecord d = some r) :
    0 ≤ (o'.records r).joinSem.value ∧ (o'.records r).joinSem.value + o'.joinCount r = o'.exitCount d := by
  have hg := Processes.newThread_grown hrun
  have hjoin : o'.joinCount = o.joinCount := by
    unfold Processes.joinCount
    rw [hg.returns]
  have hexit : o'.exitCount = o.exitCount := by
    unfold Processes.exitCount
    rw [hg.exits]
  rw [hg.joinSem, hjoin, hexit]
  rcases (h.forest.newThread_parentRecord hc hrun).mp hd with hd | ⟨rfl, rfl⟩
  · rw [if_neg (Nat.ne_of_lt (h.forest.parentAlloc d r hd))]
    exact h.value d r hd
  · rw [if_pos rfl, h.joinCount_new, h.exits, (h.uncreated d hc).1]
    simp [ProcPc.exited]

/-- Nobody waits on the semaphore of the new record. -/
theorem ProcInv.exec_queue (hb : blocked t = false)
    (hrun : o.newThread c t = .ok o') {r : ℕ} (hr : r < o'.allocated) (u : Tid) :
    u ∈ (o'.records r).joinSem.queue ↔ (Function.update pc t (.inExec c) u).joins = some r ∧ blocked u = true := by
  have hg := Processes.newThread_grown hrun
  rw [hg.allocated] at hr
  rw [hg.joinSem]
  by_cases hrx : r = o.allocated
  · have hnone : (Function.update pc t (.inExec c) u).joins ≠ some r := by
      intro hj
      by_cases hu : u = t
      · rw [hu, Function.update_self] at hj
        cases hj
      · rw [Function.update_of_ne hu] at hj
        cases hpu : pc u <;> rw [hpu] at hj <;> cases hj
        exact lt_irrefl _ (hrx ▸ h.forest.alloc u r (h.inJoin u r _ hpu).1)
    simp [hrx, hrx ▸ hnone]
  · rw [if_neg hrx, h.queue r (by omega)]
    by_cases hu : u = t
    · simp [hu, hb]
    · simp [hu]

/-- The children that are being made are `c` and those that were before. -/
theorem ProcInv.exec_inExec (hb : blocked t = false) (hc : o.created c = false)
    (hne : c ≠ t) (hrun : o.newThread c t = .ok o') {u d : Tid} (hu : Function.update pc t (.inExec c) u = .inExec d) :
    Function.update pc t (.inExec c) d = .user ∧ blocked d = true ∧
      ∃ r ∈ Function.update ring t (ring t ++ [o.allocated]) u, o'.parentRecord d = some r := by
  by_cases hut : u = t
  · rw [hut, Function.update_self] at hu
    cases hu
    refine ⟨by rw [Function.update_of_ne hne, (h.uncreated c hc).1], (h.uncreated c hc).2, o.allocated, ?_, ?_⟩
    · simp [hut]
    · exact (h.forest.newThread_parentRecord hc hrun).mpr (.inr ⟨rfl, rfl⟩)
  · rw [Function.update_of_ne hut] at hu
    obtain ⟨hpd, hbd, r, hr, hrd⟩ := h.inExec u d hu
    have hdt : d ≠ t := ne_of_apply_ne blocked (by simp [hbd, hb])
    rw [Function.update_of_ne hdt, Function.update_of_ne hut]
    exact ⟨hpd, hbd, r, hr, (h.forest.newThread_parentRecord hc hrun).mpr (.inl hrd)⟩

theorem ProcInv.exec (hb : blocked t = false) (hpc : pc t = .user)
    (hc : o.created c = false) (hrun : o.newThread c t = .ok o') :
    ProcInv (Function.update ring t (ring t ++ [o.allocated])) (Function.update pc t (.inExec c)) blocked o' := by
  have hct := h.created hb
  have hne : c ≠ t := ne_of_apply_ne o.created (by simp [hc, hct])
  have hg := Processes.newThread_grown hrun
  have hring : ∀ u r, r ∈ ring u → r ∈ Function.update ring t (ring t ++ [o.allocated]) u := by
    intro u r hr
    by_cases hu : u = t
    · subst hu
      rw [Function.update_self]
      exact List.mem_append_left _ hr
    · rwa [Function.update_of_ne hu]
  have hlive : ∀ u, Function.update pc t (.inExec c) u ≠ .finished → pc u ≠ .finished := by
    intro u hu hfin
    by_cases hut : u = t
    · rw [hut, hpc] at hfin
      cases hfin
    · rw [Function.update_of_ne hut] at hu
      exact hu hfin
  refine ⟨(h.forest.newThread (by simp [hpc]) hct hc hrun).congr hlive (fun _ => ⟨rfl, rfl, rfl⟩) rfl rfl rfl rfl
      (fun _ _ => rfl), fun d r hd => h.exec_value hc hrun hd, fun d => ?_, fun d r v hd hv => ?_,
    fun r hr u => h.exec_queue hb hrun hr u, fun r hr => ?_, fun u r cid hu => ?_,
    fun u d hu => h.exec_inExec hb hc hne hrun hu, fun u hu => ?_, fun e he hv => ?_, fun u hu => ?_⟩
  · unfold Processes.exitCount
    rw [hg.exits]
    refine (h.exits d).trans ?_
    by_cases hd : d = t
    · simp [hd, hpc, ProcPc.exited]
    · simp [hd]
  · rw [hg.exits] at hv
    rcases (h.forest.newThread_parentRecord hc hrun).mp hd with hd | ⟨rfl, -⟩
    · rw [hg.status r (Nat.ne_of_lt (h.forest.parentAlloc d r hd))]
      exact h.status d r v hd hv
    · exact absurd hv (h.not_exited (by rw [(h.uncreated d hc).1]; rfl) v)
  · rw [hg.allocated] at hr
    rw [hg.joinSem]
    split
    · exact List.nodup_nil
    · exact h.nodup r (by omega)
  · by_cases hut : u = t
    · rw [hut, Function.update_self] at hu
      cases hu
    · rw [Function.update_of_ne hut] at hu
      exact ⟨hring u r (h.inJoin u r cid hu).1, (h.inJoin u r cid hu).2⟩
  · rw [hg.created] at hu
    have huc : u ≠ c := by
      rintro rfl
      rw [Function.update_self] at hu
      cases hu
    rw [Function.update_of_ne huc] at hu
    have hut : u ≠ t := ne_of_apply_ne o.created (by simp [hu, hct])
    rw [Function.update_of_ne hut]
    exact h.uncreated u hu
  · rw [hg.returns] at he
    obtain ⟨r, hr, hcid⟩ := h.returned e he hv
    exact ⟨r, hring _ r hr, hcid⟩
  · rw [hg.destroyed] at hu
    have hut : u ≠ t := ne_of_apply_ne pc (by simp [h.destroyed u hu, hpc])
    rw [Function.update_of_ne hut]
    exact h.destroyed u hu

/-- A thread that is woken sleeps on a semaphore, or has just been made by the one that wakes it. -/
theorem ProcInv.woken {u : Tid}
    (hwoken : (∃ r, r < o.allocated ∧ u ∈ (o.records r).joinSem.queue) ∨ pc t = .inExec u) :
    blocked u = true ∧ o.created u = true ∧ ∀ v, v ≠ t → pc v ≠ .inExec u := by
  rcases hwoken with ⟨r, hr, hq⟩ | hex
  · obtain ⟨hjoins, hblocked⟩ := (h.queue r hr u).mp hq
    have hnotUser : pc u ≠ .user := by
      intro huser
      rw [huser] at hjoins
      cases hjoins
    refine ⟨hblocked, ?_, ?_⟩
    · rw [← Bool.not_eq_false]
      intro hc
      exact hnotUser (h.uncreated u hc).1
    · intro v _ hv
      exact hnotUser (h.inExec v u hv).1
  · obtain ⟨-, hblocked, r, -, hr⟩ := h.inExec t u hex
    refine ⟨hblocked, h.created_child hr, ?_⟩
    intro v hv hex'
    exact hv (h.inExec_unique hex hex')

/-- A section that makes no child: it wakes sleepers or the thread it has made, keeps the units of every
semaphore accounted for, and sleeps where it waits for one. -/
theorem ProcInv.perform (hb : blocked t = false)
    {e : ProcEffect Tid} (hsame : o.SameForest e.obj)
    (hlive : e.pc ≠ .finished → pc t ≠ .finished)
    (hwoken : ∀ u ∈ e.wakes, (∃ r, r < o.allocated ∧ u ∈ (o.records r).joinSem.queue) ∨ pc t = .inExec u)
    (hqueue : ∀ r < o.allocated, (e.obj.records r).joinSem.queue.Nodup ∧
      ∀ u, u ∈ (e.obj.records r).joinSem.queue ↔
        (u ∈ (o.records r).joinSem.queue ∧ u ∉ e.wakes) ∨ (u = t ∧ e.pc.joins = some r))
    (hsleeps : ∀ r, e.pc.joins = some r → e.sleeps = true)
    (hvalue : ∀ c r, o.parentRecord c = some r → 0 ≤ (e.obj.records r).joinSem.value ∧
      (e.obj.records r).joinSem.value + e.obj.joinCount r = e.obj.exitCount c)
    (hexits : ∀ c, e.obj.exitCount c = if (Function.update pc t e.pc c).exited = true then 1 else 0)
    (hstatus : ∀ c r v, o.parentRecord c = some r → (c, v) ∈ e.obj.exits → (e.obj.records r).status = v)
    (hjoin : ∀ r cid, e.pc = .inJoin r cid → r ∈ ring t ∧ cid = r) (hexec : ∀ c, e.pc ≠ .inExec c)
    (hreturned : ∀ x ∈ e.obj.returns, x.value = 0 → ∃ r ∈ ring x.caller, x.cid = r)
    (hdestroyed : ∀ u, e.obj.threadToBeDestroyed = some u → Function.update pc t e.pc u = .finished) :
    (∀ u ∈ e.wakes, blocked u = true) ∧
      ProcInv ring (Function.update pc t e.pc) (blockedAfter blocked t e) e.obj := by
  have hblocked : ∀ u ∈ e.wakes, blocked u = true := fun u hu => (h.woken (hwoken u hu)).1
  have hlive' : ∀ u, Function.update pc t e.pc u ≠ .finished → pc u ≠ .finished := by
    intro u hu
    by_cases hut : u = t
    · rw [hut] at hu ⊢
      rw [Function.update_self] at hu
      exact hlive hu
    · rwa [Function.update_of_ne hut] at hu
  rw [blockedAfter_eq_update hb hblocked]
  refine ⟨hblocked, h.forest.congr hlive' hsame.links hsame.allocated hsame.globalID hsame.parentRecord hsame.created
      (fun u _ => congrFun hsame.child u), fun c r hc => hvalue c r (hsame.parentRecord ▸ hc), hexits,
    fun c r v hc => hstatus c r v (hsame.parentRecord ▸ hc), fun r hr u => ?_,
    fun r hr => (hqueue r (hsame.allocated ▸ hr)).1, fun u r cid hu => ?_, fun u d hu => ?_, fun u hu => ?_, hreturned,
    hdestroyed⟩
  · rw [hsame.allocated] at hr
    rw [(hqueue r hr).2]
    by_cases hu : u = t
    · subst hu
      rw [Function.update_self, Function.update_self]
      have := h.not_queued hb hr
      have := hsleeps r
      tauto
    · rw [Function.update_of_ne hu, Function.update_of_ne hu, h.queue r hr]
      by_cases hm : u ∈ e.wakes <;> simp [hm, hu]
  · by_cases hut : u = t
    · rw [hut] at hu ⊢
      rw [Function.update_self] at hu
      exact hjoin r cid hu
    · rw [Function.update_of_ne hut] at hu
      exact h.inJoin u r cid hu
  · have hut : u ≠ t := by
      rintro rfl
      rw [Function.update_self] at hu
      exact hexec d hu
    rw [Function.update_of_ne hut] at hu
    obtain ⟨hpd, hbd, hr⟩ := h.inExec u d hu
    have hdt : d ≠ t := ne_of_apply_ne blocked (by simp [hbd, hb])
    have hasleep : d ∉ e.wakes := fun hm => (h.woken (hwoken d hm)).2.2 u hut hu
    rw [Function.update_of_ne hdt, Function.update_of_ne hdt, if_neg hasleep, hsame.parentRecord]
    exact ⟨hpd, hbd, hr⟩
  · rw [hsame.created] at hu
    have hut : u ≠ t := ne_of_apply_ne o.created (by simp [hu, h.created hb])
    have hm : u ∉ e.wakes := by
      intro hm
      rw [(h.woken (hwoken u hm)).2.1] at hu
      cases hu
    rw [Function.update_of_ne hut, Function.update_of_ne hut, if_neg hm]
    exact h.uncreated u hu

/-- A section that leaves the semaphores as they are. -/
theorem ProcInv.keep_queue {wakes : List Tid} {p : ProcPc Tid}
    (hw : ∀ u ∈ wakes, (pc u).joins = none) (hp : p.joins = none) (r : ℕ) (hr : r < o.allocated) :
    (o.records r).joinSem.queue.Nodup ∧ ∀ u, u ∈ (o.records r).joinSem.queue ↔
      (u ∈ (o.records r).joinSem.queue ∧ u ∉ wakes) ∨ (u = t ∧ p.joins = some r) := by
  refine ⟨h.nodup r hr, fun u => ?_⟩
  have hno : u ∈ (o.records r).joinSem.queue → u ∉ wakes := by
    intro hq hm
    have hj := ((h.queue r hr u).mp hq).1
    rw [hw u hm] at hj
    cases hj
  simp only [hp, reduceCtorEq, and_false, or_false]
  tauto

theorem ProcInv.exits_stay {p : ProcPc Tid} (hp : p.exited = (pc t).exited) (c : Tid) :
    o.exitCount c = if (Function.update pc t p c).exited = true then 1 else 0 := by
  rw [h.exits]
  by_cases hc : c = t <;> simp [hc, hp]

theorem ProcInv.destroyed_stay {p : ProcPc Tid} (ht : pc t ≠ .finished) (u : Tid)
    (hu : o.threadToBeDestroyed = some u) : Function.update pc t p u = .finished := by
  have hfin := h.destroyed u hu
  have hut : u ≠ t := fun he => ht (he ▸ hfin)
  rwa [Function.update_of_ne hut]

theorem ProcInv.launch (hb : blocked t = false) (hpc : pc t = .inExec c)
    (loaded : Bool) : (o.launch c loaded).wakes.Nodup ∧ (∀ u ∈ (o.launch c loaded).wakes, blocked u = true) ∧
      ProcInv ring (Function.update pc t (o.launch c loaded).pc) (blockedAfter blocked t (o.launch c loaded))
        (o.launch c loaded).obj := by
  have hw : ∀ u ∈ (o.launch c loaded).wakes, u = c := by
    intro u hu
    cases loaded <;> simp [Processes.launch] at hu
    exact hu
  refine ⟨by cases loaded <;> simp [Processes.launch],
    h.perform hb ⟨fun _ => ⟨rfl, rfl, rfl⟩, rfl, rfl, rfl, rfl, rfl⟩ (by simp [hpc])
      (fun u hu => Or.inr (hw u hu ▸ hpc)) (h.keep_queue (fun u hu => ?_) rfl) (by simp [Processes.launch, ProcPc.joins])
      h.value (h.exits_stay (by rw [hpc]; rfl)) h.status (by simp [Processes.launch]) (by simp [Processes.launch])
      h.returned
      (h.destroyed_stay (by simp [hpc]))⟩
  rw [hw u hu, (h.inExec t c hpc).1]
  rfl

theorem ProcInv.joinRecord (hb : blocked t = false) (hpc : (pc t).exited = false)
    {r : ℕ} (hr : r ∈ ring t) {cid : Int} (hcid : cid = r) :
    (o.joinRecord t r cid).wakes = [] ∧
      ProcInv ring (Function.update pc t (o.joinRecord t r cid).pc) (blockedAfter blocked t (o.joinRecord t r cid))
        (o.joinRecord t r cid).obj := by
  have hlt := h.forest.alloc t r hr
  have hfin : pc t ≠ .finished := by
    intro hf
    rw [hf] at hpc
    cases hpc
  by_cases h0 : (o.records r).joinSem.value = 0
  · rw [o.joinRecord_of_zero t r cid h0]
    refine ⟨rfl, (h.perform hb (o.sameForest_update r _ _ _ _ _) (fun _ => hfin) (by simp) (fun r' hr' => ?_)
      (fun _ _ => rfl) (fun c r' hc => ?_) (h.exits_stay (by rw [hpc]; rfl)) (fun c r' v hc hv => ?_)
      (fun r' cid' he => ?_) (by simp) h.returned (h.destroyed_stay hfin)).2⟩
    · rw [Processes.setSem_joinSem]
      by_cases hrr : r' = r
      · subst hrr
        simp only [if_true]
        exact ⟨nodup_snoc (h.nodup r' hlt) (h.not_queued hb hlt), fun u => by simp [ProcPc.joins]⟩
      · rw [if_neg hrr]
        exact ⟨h.nodup r' hr', fun u => by simp [ProcPc.joins, Ne.symm hrr]⟩
    · have hv := h.value c r' hc
      rw [Processes.setSem_joinSem]
      split
      · rename_i hrr
        subst hrr
        exact hv
      · exact hv
    · exact (o.setSem_status r _ r').trans (h.status c r' v hc hv)
    · cases he
      exact ⟨hr, hcid⟩
  · rw [o.joinRecord_of_ne_zero t r cid h0]
    refine ⟨rfl, (h.perform hb (o.sameForest_update r _ _ _ _ _) (fun _ => hfin) (by simp) (fun r' hr' => ?_)
      (by simp [ProcPc.joins]) (fun c r' hc => ?_) (h.exits_stay (by rw [hpc]; rfl))
      (fun c r' v hc hv => (o.setSem_status r _ r').trans (h.status c r' v hc hv)) (by simp) (by simp)
      (fun x hx hv => ?_) (h.destroyed_stay hfin)).2⟩
    · have hsem : (((o.setSem r ⟨(o.records r).joinSem.value - 1, (o.records r).joinSem.queue⟩).joinReturns t cid 0).records
          r').joinSem.queue = (o.records r').joinSem.queue := by
        simp only [Processes.joinReturns, Processes.setSem_joinSem]
        split
        · rename_i hrr
          rw [hrr]
        · rfl
      rw [hsem]
      exact ⟨h.nodup r' hr', fun u => by simp [ProcPc.joins]⟩
    · have hv := h.value c r' hc
      have hcount : (o.setSem r ⟨(o.records r).joinSem.value - 1, (o.records r).joinSem.queue⟩).joinCount r' =
          o.joinCount r' := rfl
      have hexit : ((o.setSem r ⟨(o.records r).joinSem.value - 1, (o.records r).joinSem.queue⟩).joinReturns t cid 0).exitCount
          c = o.exitCount c := rfl
      rw [Processes.joinCount_joinReturns, hcount, hexit]
      simp only [Processes.joinReturns, Processes.setSem_joinSem, hcid]
      by_cases hrr : r' = r
      · subst hrr
        simp only [if_true, and_self]
        omega
      · have hne : (r : Int) ≠ r' := fun he => hrr (by omega)
        rw [if_neg hrr, if_neg (by simp [hne])]
        exact hv
    · rcases List.mem_append.mp hx with hx | hx
      · exact h.returned x hx hv
      · rw [List.mem_singleton.mp hx]
        exact ⟨r, hr, hcid⟩

/-- `Join` returns `-1` at once. -/
theorem ProcInv.notFound (hb : blocked t = false) (hpc : pc t = .user) (cid : Int) :
    ProcInv ring (Function.update pc t .user) blocked (o.joinReturns t cid (-1)) := by
  have hkeep := (h.perform hb (e := { obj := o.joinReturns t cid (-1), pc := .user })
    ⟨fun _ => ⟨rfl, rfl, rfl⟩, rfl, rfl, rfl, rfl, rfl⟩ (by simp [hpc]) (by simp) (h.keep_queue (by simp) rfl)
    (by simp [ProcPc.joins]) (fun c r hc => ?_) (h.exits_stay (by rw [hpc])) h.status (by simp) (by simp)
    (fun x hx hv => ?_)
    (h.destroyed_stay (by simp [hpc]))).2
  · rwa [blockedAfter_awake _ _ rfl rfl] at hkeep
  · rw [Processes.joinCount_joinReturns, if_neg (by simp), Nat.add_zero]
    exact h.value c r hc
  · rcases List.mem_append.mp hx with hx | hx
    · exact h.returned x hx hv
    · rw [List.mem_singleton.mp hx] at hv
      cases hv

theorem ProcInv.exits_notify (hpc : pc t = .user) (status : Int) (c : Tid) :
    ({ o with exits := o.exits ++ [(t, status)] } : Processes Tid).exitCount c =
      if (Function.update pc t .notified c).exited = true then 1 else 0 := by
  rw [exitCount_snoc, h.exits]
  by_cases hc : c = t
  · simp [hc, hpc, ProcPc.exited]
  · simp [hc, Ne.symm hc]

theorem ProcInv.notify (hb : blocked t = false) (hpc : pc t = .user) {status : Int}
    {wakes : List Tid} (hrun : o.notifyParent t status = .ok (o', wakes)) :
    wakes.Nodup ∧ (∀ u ∈ wakes, blocked u = true) ∧
      ProcInv ring (Function.update pc t .notified)
        (blockedAfter blocked t { obj := o', pc := (.notified : ProcPc Tid), wakes := wakes }) o' := by
  have hfin : pc t ≠ .finished := by simp [hpc]
  rcases Processes.notifyParent_cases hrun with ⟨hpr, rfl, rfl⟩ | ⟨r, hpr, rfl, rfl⟩
  · refine ⟨List.nodup_nil, h.perform hb (e := ⟨_, .notified, [], false⟩)
      ⟨fun _ => ⟨rfl, rfl, rfl⟩, rfl, rfl, rfl, rfl, rfl⟩ (fun _ => hfin) (by simp) (h.keep_queue (by simp) rfl)
      (by simp [ProcPc.joins]) (fun c r hc => ?_) (h.exits_notify hpc status) (fun c r v hc hv => ?_) (by simp)
      (by simp) h.returned (h.destroyed_stay hfin)⟩
    · have hct : t ≠ c := by
        rintro rfl
        rw [hpr] at hc
        cases hc
      rw [exitCount_snoc, if_neg hct]
      exact h.value c r hc
    · rcases List.mem_append.mp hv with hv | hv
      · exact h.status c r v hc hv
      · cases List.mem_singleton.mp hv
        rw [hpr] at hc
        cases hc
  · have hlt := h.forest.parentAlloc t r hpr
    refine ⟨(h.nodup r hlt).sublist (List.take_sublist 1 _), h.perform hb
      (e := ⟨_, .notified, _, false⟩) (o.sameForest_update r none status _ _ _) (fun _ => hfin)
      (fun u hu => Or.inl ⟨r, hlt, List.mem_of_mem_take hu⟩) (fun r' hr' => ?_)
      (by simp [ProcPc.joins]) (fun c r' hc => ?_) (h.exits_notify hpc status) (fun c r' v hc hv => ?_) (by simp)
      (by simp) h.returned (h.destroyed_stay hfin)⟩
    · by_cases hrr : r' = r
      · subst hrr
        simp only [Function.update_self]
        refine ⟨(h.nodup r' hlt).sublist (List.drop_sublist 1 _), fun u => ?_⟩
        rw [mem_drop_one (h.nodup r' hlt)]
        simp [ProcPc.joins]
      · simp only [Function.update_of_ne hrr]
        refine ⟨h.nodup r' hr', fun u => ?_⟩
        have hother : u ∈ (o.records r').joinSem.queue → u ∉ (o.records r).joinSem.queue.take 1 := by
          intro hu hm
          have hj := ((h.queue r' hr' u).mp hu).1
          rw [((h.queue r hlt u).mp (List.mem_of_mem_take hm)).1] at hj
          exact hrr (Option.some.inj hj).symm
        simp only [ProcPc.joins, reduceCtorEq, and_false, or_false]
        tauto
    · have hv := h.value c r' hc
      have hcount := exitCount_snoc o (t := t) status c
      simp only [Processes.exitCount, Processes.joinCount] at hv hcount ⊢
      rw [hcount]
      by_cases hrr : r' = r
      · subst hrr
        rw [h.forest.parentInj c t r' hc hpr, Function.update_self, if_pos rfl]
        rw [h.forest.parentInj c t r' hc hpr] at hv
        simp only []
        omega
      · have hct : t ≠ c := by
          rintro rfl
          rw [hpr] at hc
          exact hrr (Option.some.inj hc).symm
        rw [Function.update_of_ne hrr, if_neg hct]
        exact hv
    · rcases List.mem_append.mp hv with hold | hnew
      · have hrr : r' ≠ r := by
          rintro rfl
          rw [h.forest.parentInj c t r' hc hpr] at hold
          exact h.not_exited (by rw [hpc]; rfl) v hold
        simp only [Function.update_of_ne hrr]
        exact h.status c r' v hc hold
      · cases List.mem_singleton.mp hnew
        rw [hpr] at hc
        cases hc
        simp only [Function.update_self]

theorem ProcInv.finish (hb : blocked t = false) (hpc : pc t = .notified) :
    ProcInv ring (Function.update pc t .finished) (Function.update blocked t true)
      { o with threadToBeDestroyed := some t } := by
  have hkeep := (h.perform hb (e := { obj := { o with threadToBeDestroyed := some t }, pc := .finished, sleeps := true })
    ⟨fun _ => ⟨rfl, rfl, rfl⟩, rfl, rfl, rfl, rfl, rfl⟩ (by simp) (by simp) (h.keep_queue (by simp) rfl)
    (by simp) h.value (h.exits_stay (by rw [hpc]; rfl)) h.status (by simp) (by simp) h.returned (fun u hu => ?_)).2
  · rwa [blockedAfter_asleep _ _ rfl rfl] at hkeep
  · cases hu
    exact Function.update_self _ _ _

/-- Destroying a finished thread takes the ring from nobody who could still search it. -/
theorem ProcInv.destroy : ProcInv ring pc blocked o.destroy := by
  unfold Processes.destroy
  cases hd : o.threadToBeDestroyed with
  | none => exact h
  | some t =>
    have hchild : ∀ u, pc u ≠ .finished → Function.update o.child t none u = o.child u := by
      intro u hu
      have hut : u ≠ t := fun he => hu (he ▸ h.destroyed t hd)
      exact Function.update_of_ne hut _ _
    exact ⟨h.forest.congr (fun _ hu => hu) (fun _ => ⟨rfl, rfl, rfl⟩) rfl rfl rfl rfl hchild, h.value, h.exits, h.status,
      h.queue, h.nodup, h.inJoin, h.inExec, h.uncreated, h.returned, by simp⟩

end Invariant

theorem processProgram_stable :
    Stable (processProgram Tid) newThreads fun pc blocked o => ∃ ring, ProcInv ring pc blocked o where
  exec {pc blocked o a t e} hinv hb he hd hs := by
    obtain ⟨ring, hinv⟩ := hinv
    cases a with
    | exec c =>
      cases hpc : pc t <;> rw [hpc] at he <;> try exact he.elim
      simp only [processProgram, bind_eq_ok, pure_eq_ok, Except.ok.injEq] at hs
      obtain ⟨o', hrun, rfl⟩ := hs
      rw [blockedAfter_awake _ _ rfl rfl]
      exact ⟨List.nodup_nil, by simp, _, hinv.exec hb hpc hd hrun⟩
    | launch loaded =>
      cases hpc : pc t <;> rw [hpc] at he <;> try exact he.elim
      rw [hpc] at hs
      cases hs
      obtain ⟨hnd, hw, hkept⟩ := hinv.launch hb hpc loaded
      exact ⟨hnd, hw, ring, hkept⟩
    | join cid =>
      cases hpc : pc t <;> rw [hpc] at he <;> try exact he.elim
      have hs' : o.join t cid = .ok e := hs
      have hlinked := hinv.forest.linked t (by simp [hpc])
      rcases hlinked.join (hinv.forest.nodup t) (hinv.forest.length_le t)
        (fun r hr => hinv.forest.ids r (hinv.forest.alloc t r hr)) cid with ⟨r, hr, hcid, hrun⟩ | ⟨-, hrun⟩
      · rw [hrun] at hs'
        cases hs'
        obtain ⟨hw, hkept⟩ := hinv.joinRecord hb (by rw [hpc]; rfl) hr hcid
        exact ⟨by simp [hw], by simp [hw], ring, hkept⟩
      · rw [hrun] at hs'
        cases hs'
        refine ⟨List.nodup_nil, by simp, ring, ?_⟩
        rw [blockedAfter_awake _ _ rfl rfl]
        exact hinv.notFound hb hpc cid
    | resume =>
      cases hpc : pc t <;> rw [hpc] at he <;> try exact he.elim
      rename_i r cid
      rw [hpc] at hs
      cases hs
      obtain ⟨hr, hcid⟩ := hinv.inJoin t r cid hpc
      obtain ⟨hw, hkept⟩ := hinv.joinRecord hb (by rw [hpc]; rfl) hr hcid
      exact ⟨by simp [hw], by simp [hw], ring, hkept⟩
    | notify status =>
      cases hpc : pc t <;> rw [hpc] at he <;> try exact he.elim
      simp only [processProgram, bind_eq_ok, pure_eq_ok, Except.ok.injEq] at hs
      obtain ⟨⟨o', wakes⟩, hrun, rfl⟩ := hs
      obtain ⟨hnd, hw, hkept⟩ := hinv.notify hb hpc hrun
      exact ⟨hnd, hw, ring, hkept⟩
    | finish =>
      cases hpc : pc t <;> rw [hpc] at he <;> try exact he.elim
      cases hs
      refine ⟨List.nodup_nil, by simp, ring, ?_⟩
      rw [blockedAfter_asleep _ _ rfl rfl]
      exact hinv.finish hb hpc
  interrupt hinv hs := by
    obtain ⟨ring, hinv⟩ := hinv
    cases hs
    exact ⟨List.nodup_nil, by simp, ring, by simpa using hinv.destroy⟩

theorem procStart_inv {s : ProcState Tid} (h : ProcStart s) :
    Placed s ∧ ∃ ring, ProcInv ring s.pc s.blocked s.obj := by
  have hplaced : Placed s := by
    refine ⟨by rw [h.ready]; exact List.nodup_nil, fun t => ?_, fun t ht => ?_⟩
    · rw [h.ready, h.status]
      split <;> simp
    · rw [h.status] at ht
      by_contra hne
      simp [hne] at ht
  refine ⟨hplaced, fun _ => [], ⟨by simp, by simp, by simp, fun t _ => h.child t, by simp [h.allocated], ?_, ?_, ?_, ?_,
    fun t _ => ⟨h.parentRecord t, rfl⟩⟩, ?_, ?_, by simp [h.parentRecord], by simp [h.allocated], by simp [h.allocated],
    by simp [h.pc], by simp [h.pc], fun t ht => ⟨h.pc t, ?_⟩, by simp [h.returns], by simp [h.destroyed]⟩
  · rw [h.globalID, h.allocated]
    rfl
  · simp [h.parentRecord]
  · simp [h.parentRecord]
  · simp [h.allocated]
  · simp [h.parentRecord]
  · intro c
    simp [Processes.exitCount, h.exits, h.pc, ProcPc.exited]
  · have hne : t ≠ s.current := by
      rw [Ne, ← h.created, ht]
      simp
    simp [State.blocked, h.status, hne]

/-! ## What the callers see -/

variable {s : ProcState Tid}

/-- A returned `Join` and the child it was for. -/
theorem ProcInv.of_returned (h : ProcInv ring pc blocked o) {x : JoinReturn Tid} (hx : x ∈ o.returns)
    (hv : x.value = 0) :
    ∃ c r, o.parentRecord c = some r ∧ r ∈ ring x.caller ∧ (o.records r).id = x.cid ∧ 0 < o.exitCount c := by
  obtain ⟨r, hr, hcid⟩ := h.returned x hx hv
  have hlt := h.forest.alloc _ r hr
  obtain ⟨c, hc⟩ := h.forest.parentExists r hlt
  have hcount : 0 < o.joinCount r := by
    unfold Processes.joinCount
    exact List.countP_pos_iff.mpr ⟨x, hx, by simp [hcid, hv]⟩
  have hval := h.value c r hc
  exact ⟨c, r, hc, hr, by rw [h.forest.ids r hlt, hcid], by omega⟩

/-- The section that starts a `Join`. -/
theorem ProcInv.join_sect (h : ProcInv ring pc blocked o) (ht : pc t = .user) (cid : Int) :
    (∃ r, o.InRing t r ∧ (o.records r).id = cid ∧ o.join t cid = .ok (o.joinRecord t r cid)) ∨
    (¬ ∃ r, o.InRing t r ∧ (o.records r).id = cid) ∧
      o.join t cid = .ok { obj := o.joinReturns t cid (-1), pc := .user } := by
  have hlinked := h.forest.linked t (by simp [ht])
  have hid : ∀ r ∈ ring t, (o.records r).id = r := fun r hr => h.forest.ids r (h.forest.alloc t r hr)
  rcases hlinked.join (h.forest.nodup t) (h.forest.length_le t) hid cid with ⟨r, hr, hcid, hrun⟩ | ⟨hno, hrun⟩
  · exact Or.inl ⟨r, (hlinked.inRing r).mpr hr, by rw [hid r hr, hcid], hrun⟩
  · refine Or.inr ⟨?_, hrun⟩
    rintro ⟨r, hr, hcid⟩
    have hmem := (hlinked.inRing r).mp hr
    exact hno r hmem (by rw [← hcid, hid r hmem])

/-- In every interleaving of `Exec`, `Exit` and `Join`: a `Join` that returned `0` was for a child that is past
`notifyParent`; each child gives its own semaphore one unit there, which one `Join` takes; a `Join` touches no
other child's record; it returns `-1` at once exactly for numbers that are not in the caller's ring, and the
first one for a child that has exited returns `0` at once. -/
theorem join_exit_synchronised (hs : s.Reached) :
    (∀ x ∈ s.obj.returns, x.value = 0 → ∃ c r, s.obj.parentRecord c = some r ∧ (s.obj.records r).id = x.cid ∧
      (s.pc x.caller ≠ .finished → s.obj.InRing x.caller r) ∧ (s.pc c).exited = true) ∧
    (∀ c r, s.obj.parentRecord c = some r →
      (s.obj.records r).joinSem.value + s.obj.joinCount (s.obj.records r).id =
        if (s.pc c).exited = true then 1 else 0) ∧
    (s.pc s.current = .user → ∀ cid, ∃ e,
      (processProgram Tid).sect (.join cid) s.current (s.pc s.current) s.obj = .ok e ∧
      (∀ r, (s.obj.records r).id ≠ cid → e.obj.records r = s.obj.records r) ∧
      ((e.sleeps = false ∧ e.obj.returns = s.obj.returns ++ [⟨s.current, cid, -1⟩]) ↔
        ¬ ∃ r, s.obj.InRing s.current r ∧ (s.obj.records r).id = cid) ∧
      ∀ c r, s.obj.InRing s.current r → (s.obj.records r).id = cid → s.obj.parentRecord c = some r →
        (s.pc c).exited = true → s.obj.joinCount cid = 0 →
        e.sleeps = false ∧ e.obj.returns = s.obj.returns ++ [⟨s.current, cid, 0⟩]) ∧
    (∀ r cid, s.pc s.current = .inJoin r cid → (s.obj.records r).id = cid ∧ ∃ e,
      (processProgram Tid).sect .resume s.current (s.pc s.current) s.obj = .ok e ∧
      (∀ r', (s.obj.records r').id ≠ cid → e.obj.records r' = s.obj.records r') ∧
      (e.obj.returns = s.obj.returns ∨ e.obj.returns = s.obj.returns ++ [⟨s.current, cid, 0⟩])) := by
  obtain ⟨-, ring, hinv⟩ := processProgram_stable.run (fun _ h => procStart_inv h) hs
  refine ⟨fun x hx hv => ?_, fun c r hc => ?_, fun hpc cid => ?_, fun r cid hpc => ?_⟩
  · obtain ⟨c, r, hc, hr, hid, hexit⟩ := hinv.of_returned hx hv
    exact ⟨c, r, hc, hid, fun hlive => ((hinv.forest.linked _ hlive).inRing r).mpr hr, hinv.exited_of_count hexit⟩
  · rw [hinv.forest.ids r (hinv.forest.parentAlloc c r hc), (hinv.value c r hc).2, hinv.exits c]
    split <;> rfl
  · rw [hpc]
    rcases hinv.join_sect hpc cid with ⟨r, hr, hid, hrun⟩ | ⟨hno, hrun⟩
    · obtain ⟨hframe, hret⟩ := s.obj.joinRecord_frame s.current r cid
      refine ⟨_, hrun, fun r' hr' => hframe r' fun he => hr' (he ▸ hid), ⟨?_, fun hno => absurd ⟨r, hr, hid⟩ hno⟩,
        fun c r' hr' hid' hc hexit hjoin => ?_⟩
      · rintro ⟨-, hminus⟩
        rcases hret with hret | hret
        · rw [hret] at hminus
          simp at hminus
        · rw [hret] at hminus
          simp at hminus
      · have hmem := ((hinv.forest.linked s.current (by simp [hpc])).inRing r).mp hr
        have hmem' := ((hinv.forest.linked s.current (by simp [hpc])).inRing r').mp hr'
        have hrr : r' = r := by
          rw [hinv.forest.ids r (hinv.forest.alloc _ r hmem)] at hid
          rw [hinv.forest.ids r' (hinv.forest.alloc _ r' hmem')] at hid'
          omega
        have hne : (s.obj.records r).joinSem.value ≠ 0 := by
          have hval := (hinv.value c r (hrr ▸ hc)).2
          rw [← hid, hinv.forest.ids r (hinv.forest.alloc _ r hmem)] at hjoin
          rw [hinv.exits c, if_pos hexit] at hval
          omega
        rw [s.obj.joinRecord_of_ne_zero _ _ _ hne]
        exact ⟨rfl, rfl⟩
    · refine ⟨_, hrun, fun _ _ => rfl, ⟨fun _ => hno, fun _ => ⟨rfl, rfl⟩⟩, fun c r hr hid => ?_⟩
      exact absurd ⟨r, hr, hid⟩ hno
  · obtain ⟨hr, hcid⟩ := hinv.inJoin _ r cid hpc
    have hid : (s.obj.records r).id = cid := by rw [hinv.forest.ids r (hinv.forest.alloc _ r hr), hcid]
    obtain ⟨hframe, hret⟩ := s.obj.joinRecord_frame s.current r cid
    rw [hpc]
    exact ⟨hid, _, rfl, fun r' hr' => hframe r' fun he => hr' (he ▸ hid), hret⟩

/-- The root process, a thread for its child, and no record yet. -/
def familyStart : ProcState (Fin 2) where
  current := 0
  readyList := []
  status t := if t = 0 then .running else .blocked
  pc _ := .user
  obj := ⟨fun _ => ChildThread.new 0 0 0, 0, fun _ => none, fun _ => none, 0, none, fun t => t = 0, [], []⟩

theorem familyStart_reached : familyStart.Reached :=
  .start ⟨by simp [familyStart], fun _ => rfl, rfl, fun _ => rfl, rfl, rfl, fun _ => rfl, fun _ => rfl, rfl, rfl, rfl⟩

/-- Only `Exec` is under the discipline. -/
theorem disciplined_newThreads (s : ProcState (Fin 2)) {l : Label (Fin 2) (ProcAct (Fin 2)) Unit}
    (hl : ∀ c, l ≠ .exec (.exec c)) : Disciplined newThreads s l := by
  rintro a rfl
  cases a <;> first | trivial | exact absurd rfl (hl _)

/-- The root executes a child and joins it; the child exits with a status; the root's `Join` returns. -/
theorem family_returns (status : Int) : ∃ (s : ProcState (Fin 2)) (e : ProcEffect (Fin 2)), s.Reached ∧
    (processProgram (Fin 2)).enabled .resume (s.pc s.current) ∧
    (processProgram (Fin 2)).sect .resume s.current (s.pc s.current) s.obj = .ok e ∧
    e.obj.returns = s.obj.returns ++ [⟨s.current, 0, 0⟩] ∧ s.obj.InRing s.current 0 ∧ (s.obj.records 0).id = 0 ∧
    s.obj.parentRecord 1 = some 0 ∧ (1, status) ∈ s.obj.exits := by
  have h1 := familyStart_reached.next (l := .exec (.exec 1)) (by rintro a ha; cases ha; rfl) (Step.exec rfl trivial rfl)
  have h2 := h1.next (l := .exec (.launch true)) (disciplined_newThreads _ (by simp)) (Step.exec rfl trivial rfl)
  have h3 := h2.next (l := .exec (.join 0)) (disciplined_newThreads _ (by simp)) (Step.exec rfl trivial rfl)
  have h4 := h3.next (l := .dispatch 1) (disciplined_newThreads _ (by simp)) (Step.dispatch (by decide) (by decide))
  have h5 := h4.next (l := .exec (.notify status)) (disciplined_newThreads _ (by simp)) (Step.exec rfl trivial rfl)
  have h6 := h5.next (l := .exec .finish) (disciplined_newThreads _ (by simp)) (Step.exec rfl trivial rfl)
  have h7 := h6.next (l := .dispatch 0) (disciplined_newThreads _ (by simp))
    (Step.dispatch (fun h => Status.noConfusion h) (List.Mem.head _))
  exact ⟨_, _, h7, trivial, rfl, rfl, ⟨0, 0, rfl, rfl⟩, rfl, rfl, List.mem_singleton_self _⟩

/-- The root executes a child, which exits before the root joins it: `Join` returns `0` at once. -/
theorem join_exit_synchronised_family : ∃ (s s' : ProcState (Fin 2)) (e : ProcEffect (Fin 2)),
    s.Reached ∧ s.pc 1 = .finished ∧
    (processProgram (Fin 2)).sect (.join 0) s.current (s.pc s.current) s.obj = .ok e ∧ e.sleeps = false ∧
    e.obj.returns = s.obj.returns ++ [⟨0, 0, 0⟩] ∧ s'.Reached ∧ s'.obj.returns = [⟨0, 0, 0⟩] ∧
    (∃ c r, s'.obj.parentRecord c = some r ∧ (s'.obj.records r).id = 0 ∧ (s'.pc c).exited = true) ∧
    (s'.obj.records 0).joinSem.value + s'.obj.joinCount (s'.obj.records 0).id = 1 := by
  have h1 := familyStart_reached.next (l := .exec (.exec 1)) (by rintro a ha; cases ha; rfl) (Step.exec rfl trivial rfl)
  have h2 := h1.next (l := .exec (.launch true)) (disciplined_newThreads _ (by simp)) (Step.exec rfl trivial rfl)
  have h3 := h2.next (l := .yield 1) (disciplined_newThreads _ (by simp)) (Step.yield (by decide) (by decide))
  have h4 := h3.next (l := .exec (.notify 17)) (disciplined_newThreads _ (by simp)) (Step.exec rfl trivial rfl)
  have h5 := h4.next (l := .exec .finish) (disciplined_newThreads _ (by simp)) (Step.exec rfl trivial rfl)
  have h6 := h5.next (l := .dispatch 0) (disciplined_newThreads _ (by simp)) (Step.dispatch (by decide) (by decide))
  have h7 := h6.next (l := .exec (.join 0)) (disciplined_newThreads _ (by simp)) (Step.exec rfl trivial rfl)
  obtain ⟨e, he, -, -, hfirst⟩ := (join_exit_synchronised h6).2.2.1 rfl 0
  obtain ⟨hsleeps, hreturns⟩ := hfirst 1 0 ⟨0, 0, rfl, rfl⟩ rfl rfl rfl rfl
  obtain ⟨c, r, hc, hid, -, hexited⟩ := (join_exit_synchronised h7).1 ⟨0, 0, 0⟩ (List.mem_singleton_self _) rfl
  exact ⟨_, _, e, h6, rfl, he, hsleeps, hreturns, h7, rfl, ⟨c, r, hc, hid, hexited⟩,
    (join_exit_synchronised h7).2.1 1 0 rfl⟩

/-! ## The status of a child -/

/-- Only `Join` returns a value. -/
theorem sect_returns {a : ProcAct Tid} {p : ProcPc Tid} {e : ProcEffect Tid}
    (he : (processProgram Tid).enabled a p) (hsect : (processProgram Tid).sect a t p o = .ok e) :
    e.obj.returns = o.returns ∨ (∃ cid, a = .join cid ∧ p = .user) ∨ ∃ r cid, a = .resume ∧ p = .inJoin r cid := by
  cases a with
  | exec c =>
    simp only [processProgram, bind_eq_ok, pure_eq_ok, Except.ok.injEq] at hsect
    obtain ⟨o', hrun, rfl⟩ := hsect
    exact Or.inl (Processes.newThread_grown hrun).returns
  | launch loaded =>
    cases p <;> try exact he.elim
    cases hsect
    exact Or.inl rfl
  | join cid =>
    cases p <;> try exact he.elim
    exact Or.inr (Or.inl ⟨cid, rfl, rfl⟩)
  | resume =>
    cases p <;> try exact he.elim
    exact Or.inr (Or.inr ⟨_, _, rfl, rfl⟩)
  | notify status =>
    simp only [processProgram, bind_eq_ok, pure_eq_ok, Except.ok.injEq] at hsect
    obtain ⟨⟨o', wakes⟩, hrun, rfl⟩ := hsect
    rcases Processes.notifyParent_cases hrun with ⟨-, -, rfl⟩ | ⟨-, -, -, rfl⟩ <;> exact Or.inl rfl
  | finish =>
    cases hsect
    exact Or.inl rfl

/-- The value that a `Join` on a child returns is the status the child passed to `notifyParent` exactly when
that status is `0`: the status kept in the record is not read. -/
theorem join_value_iff (hs : s.Reached) {a : ProcAct Tid} {e : ProcEffect Tid}
    (he : (processProgram Tid).enabled a (s.pc s.current))
    (hsect : (processProgram Tid).sect a s.current (s.pc s.current) s.obj = .ok e) {cid value : Int}
    (hret : e.obj.returns = s.obj.returns ++ [⟨s.current, cid, value⟩]) {c : Tid} {r : ℕ} {status : Int}
    (hr : s.obj.InRing s.current r) (hid : (s.obj.records r).id = cid) (hc : s.obj.parentRecord c = some r)
    (hexit : (c, status) ∈ s.obj.exits) : (s.obj.records r).status = status ∧ (value = status ↔ status = 0) := by
  obtain ⟨-, ring, hinv⟩ := processProgram_stable.run (fun _ h => procStart_inv h) hs
  have hvalue : ∀ r' cid', e = s.obj.joinRecord s.current r' cid' → value = 0 := by
    rintro r' cid' rfl
    rcases (s.obj.joinRecord_frame s.current r' cid').2 with hsame | hzero
    · rw [hsame] at hret
      simp at hret
    · rw [hzero] at hret
      simp only [List.append_cancel_left_eq, List.cons.injEq, JoinReturn.mk.injEq] at hret
      exact hret.1.2.2.symm
  refine ⟨hinv.status c r status hc hexit, ?_⟩
  suffices h0 : value = 0 by
    rw [h0]
    exact eq_comm
  rcases sect_returns he hsect with hsame | ⟨cid', rfl, hpc⟩ | ⟨r', cid', rfl, hpc⟩
  · rw [hsame] at hret
    simp at hret
  · have hrun : s.obj.join s.current cid' = .ok e := hsect
    rcases hinv.join_sect hpc cid' with ⟨r', -, -, hfound⟩ | ⟨hno, hnone⟩
    · rw [hfound] at hrun
      exact hvalue r' cid' (Except.ok.inj hrun).symm
    · rw [hnone] at hrun
      cases hrun
      simp only [Processes.joinReturns, List.append_cancel_left_eq, List.cons.injEq, JoinReturn.mk.injEq] at hret
      exact absurd ⟨r, hr, by rw [hid, hret.1.2.1]⟩ hno
  · rw [hpc] at hsect
    exact hvalue r' cid' (Except.ok.inj hsect).symm

/-- The child passes `0`. -/
theorem join_value_iff_zero :
    ∃ (s : ProcState (Fin 2)) (e : ProcEffect (Fin 2)), s.Reached ∧
      (processProgram (Fin 2)).sect .resume s.current (s.pc s.current) s.obj = .ok e ∧
      (1, 0) ∈ s.obj.exits ∧ ∃ value, e.obj.returns = s.obj.returns ++ [⟨s.current, 0, value⟩] ∧
      (s.obj.records 0).status = 0 ∧ (value = 0 ↔ (0 : Int) = 0) := by
  obtain ⟨s, e, hs, he, hsect, hret, hr, hid, hc, hexit⟩ := family_returns 0
  exact ⟨s, e, hs, hsect, hexit, 0, hret, join_value_iff hs he hsect hret hr hid hc hexit⟩

/-- The child passes `17` and `Join` returns `0`. -/
theorem join_returns_zero_for_seventeen :
    ∃ (s : ProcState (Fin 2)) (e : ProcEffect (Fin 2)), s.Reached ∧
      (processProgram (Fin 2)).enabled .resume (s.pc s.current) ∧
      (processProgram (Fin 2)).sect .resume s.current (s.pc s.current) s.obj = .ok e ∧
      s.obj.InRing s.current 0 ∧ (s.obj.records 0).id = 0 ∧ s.obj.parentRecord 1 = some 0 ∧
      (1, 17) ∈ s.obj.exits ∧ ∃ value, e.obj.returns = s.obj.returns ++ [⟨s.current, 0, value⟩] ∧ value ≠ 17 := by
  obtain ⟨s, e, hs, he, hsect, hret, hr, hid, hc, hexit⟩ := family_returns 17
  exact ⟨s, e, hs, he, hsect, hr, hid, hc, hexit, 0, hret, by decide⟩

end Nachos
