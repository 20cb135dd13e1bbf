import Nachos.Userprog.Join

/-! # The rings of children (`threads/thread.cc`)

`Thread(name, parent)` puts a record at the end of its parent's ring. After any sequence of such
constructions each parent has a circular list, linked in both directions, of the records of its children
in the order of their creation, and the search of `Join` goes around it once. -/
set_option autoImplicit false

namespace Nachos
open Execution

variable {Tid : Type} [DecidableEq Tid]

structure Construction (Tid : Type) where
  thread : Tid
  parent : Option Tid
  deriving DecidableEq

namespace Processes

omit [DecidableEq Tid] in
def prev (o : Processes Tid) (r : ℕ) : ℕ := (o.records r).prev

/-- `Thread::Thread(name, NULL)`. -/
def newRoot (o : Processes Tid) (thread : Tid) : Processes Tid :=
  { o with parentRecord := Function.update o.parentRecord thread none,
           child := Function.update o.child thread none,
           created := Function.update o.created thread true }

/-- `Thread::Thread(name, parent)`. -/
def construct (o : Processes Tid) (c : Construction Tid) : Call (Processes Tid) :=
  match c.parent with
  | none => .ok (o.newRoot c.thread)
  | some parent => o.newThread c.thread parent

/-- Before the first thread is constructed; `records` is what the memory holds. -/
def empty (records : ℕ → ChildThread Tid) : Processes Tid where
  records := records
  allocated := 0
  child _ := none
  parentRecord _ := none
  globalID := 0
  threadToBeDestroyed := none
  created _ := false
  exits := []
  returns := []

/-- A new thread is constructed, with no parent or with one that has been constructed before. -/
def Constructs (o : Processes Tid) (c : Construction Tid) (o' : Processes Tid) : Prop :=
  o.created c.thread = false ∧ (∀ parent, c.parent = some parent → o.created parent = true) ∧ o.construct c = .ok o'

/-! ## A new record -/

variable {o o' : Processes Tid} {c t : Tid}

omit [DecidableEq Tid] in
theorem link_prev_self {records : ℕ → ChildThread Tid} {x first : ℕ} (hx : x ≠ first) :
    (link records x first x).prev = (records first).prev := by
  unfold link
  simp only [Function.update_of_ne hx.symm, Function.update_idem, Function.update_self]
  rw [Function.update_of_ne hx, update_field ChildThread.prev _ _ (by rfl), Function.update_self]

theorem newThread_thread (hrun : o.newThread c t = .ok o') (r : ℕ) :
    (o'.records r).thread = if r = o.allocated then some c else (o.records r).thread :=
  newThread_field ChildThread.thread (fun _ _ _ => rfl) hrun r

theorem register_prev (o : Processes Tid) (c : Tid) {r : ℕ} (hr : r ≠ o.allocated) : (o.register c).prev r = o.prev r :=
  congrArg ChildThread.prev (Function.update_of_ne hr _ _)

theorem newThread_prev_none (hrun : o.newThread c t = .ok o') (hct : t ≠ c) (hchild : o.child t = none) (r : ℕ) :
    o'.prev r = if r = o.allocated then o.allocated else o.prev r := by
  obtain rfl := newThread_of_none hrun hct hchild
  split
  · next hr =>
    rw [hr]
    exact congrArg ChildThread.prev (register_self o c)
  · next hr => exact register_prev o c hr

theorem newThread_prev_some (hrun : o.newThread c t = .ok o') (hct : t ≠ c) {first : ℕ} (hchild : o.child t = some first)
    (hfirst : first < o.allocated) (r : ℕ) :
    o'.prev r = if r = o.allocated then o.prev first else if r = first then o.allocated else o.prev r := by
  have hx : o.allocated ≠ first := (Nat.ne_of_lt hfirst).symm
  obtain rfl := newThread_of_some hrun hct hchild
  split
  · next hr =>
    rw [hr]
    exact (link_prev_self hx).trans (register_prev o c hx.symm)
  · next hr =>
    refine (link_prev hx hr).trans ?_
    split
    · rfl
    · exact register_prev o c hr

/-! ## The invariant -/

/-- The threads constructed with a given parent, in order. -/
def childrenOf (calls : List (Construction Tid)) (t : Tid) : List Tid :=
  (calls.filter fun c => c.parent = some t).map Construction.thread

structure Children (calls : List (Construction Tid)) (o : Processes Tid) (ring : Tid → List ℕ) : Prop where
  forest : o.Forest ring fun _ => True
  back : ∀ t first rest, ring t = first :: rest → LinkRing.Path o.prev first rest.reverse first
  threads : ∀ t, (ring t).map (fun r => (o.records r).thread) = (childrenOf calls t).map some
  parents : ∀ c r, o.parentRecord c = some r → (o.records r).thread = some c
  allocated_le : o.allocated ≤ calls.length

section Steps

variable {calls : List (Construction Tid)} {ring : Tid → List ℕ}

theorem children_empty (records : ℕ → ChildThread Tid) : Children [] (empty records) fun _ => [] where
  forest := {
    alloc := fun _ _ h => (List.not_mem_nil h).elim
    nodup := fun _ => List.nodup_nil
    disjoint := fun _ _ _ h => (List.not_mem_nil h).elim
    linked := fun _ _ => rfl
    ids := fun _ h => (Nat.not_lt_zero _ h).elim
    globalID := rfl
    parentAlloc := fun _ _ h => (Option.some_ne_none _ h.symm).elim
    parentInj := fun _ _ _ h => (Option.some_ne_none _ h.symm).elim
    parentExists := fun _ h => (Nat.not_lt_zero _ h).elim
    uncreated := fun _ _ => ⟨rfl, rfl⟩ }
  back _ _ _ h := (List.cons_ne_nil _ _ h.symm).elim
  threads _ := rfl
  parents _ _ h := (Option.some_ne_none _ h.symm).elim
  allocated_le := Nat.le_refl 0

theorem Forest.newRoot (h : o.Forest ring fun _ => True) (hc : o.created c = false) :
    (o.newRoot c).Forest ring fun _ => True := by
  obtain ⟨hparent, hring⟩ := h.uncreated c hc
  have hlinked : o.child c = none := by
    have hc' := h.linked c trivial
    rwa [hring] at hc'
  have hchild : (o.newRoot c).child = o.child := Function.update_eq_self_iff.mpr hlinked.symm
  have hsame : (o.newRoot c).parentRecord = o.parentRecord := Function.update_eq_self_iff.mpr hparent.symm
  refine ⟨h.alloc, h.nodup, h.disjoint, ?_, h.ids, h.globalID, ?_, ?_, ?_, ?_⟩
  · intro t ht
    exact (h.linked t ht).congr (congrFun hchild t) fun r _ => ⟨rfl, rfl⟩
  · rw [hsame]
    exact h.parentAlloc
  · rw [hsame]
    exact h.parentInj
  · rw [hsame]
    exact h.parentExists
  · intro t ht
    change Function.update o.created c true t = false at ht
    have htc : t ≠ c := by
      rintro rfl
      rw [Function.update_self] at ht
      cases ht
    rw [Function.update_of_ne htc] at ht
    rw [hsame]
    exact h.uncreated t ht

theorem childrenOf_concat (calls : List (Construction Tid)) (c : Construction Tid) (t : Tid) :
    childrenOf (calls ++ [c]) t = if c.parent = some t then childrenOf calls t ++ [c.thread] else childrenOf calls t := by
  unfold childrenOf
  rw [List.filter_append, List.map_append]
  split
  · next h => rw [List.filter_cons_of_pos (by simpa using h), List.filter_nil, List.map_cons, List.map_nil]
  · next h => rw [List.filter_cons_of_neg (by simpa using h), List.filter_nil, List.map_nil, List.append_nil]

theorem Children.newRoot (h : Children calls o ring) (hc : o.created c = false) :
    Children (calls ++ [⟨c, none⟩]) (o.newRoot c) ring where
  forest := h.forest.newRoot hc
  back := h.back
  threads t := by
    rw [childrenOf_concat, if_neg (Option.some_ne_none t).symm]
    exact h.threads t
  parents d r hd := by
    apply h.parents d r
    have hsame : (o.newRoot c).parentRecord = o.parentRecord :=
      Function.update_eq_self_iff.mpr (h.forest.uncreated c hc).1.symm
    rw [← hsame]
    exact hd
  allocated_le := by
    rw [List.length_append]
    exact Nat.le_add_right_of_le h.allocated_le

/-- The new record is the last one, and the first one leads back to it. -/
theorem newThread_back_parent (hrun : o.newThread c t = .ok o') (hct : t ≠ c) {first : ℕ} {rest : List ℕ}
    (hchild : o.child t = some first) (hnd : (first :: rest).Nodup) (hlt : ∀ r ∈ first :: rest, r < o.allocated)
    (hback : LinkRing.Path o.prev first rest.reverse first) :
    LinkRing.Path o'.prev first (rest ++ [o.allocated]).reverse first := by
  have hfirst := hlt first List.mem_cons_self
  have hprev := newThread_prev_some hrun hct hchild hfirst
  rw [List.reverse_append, List.reverse_singleton, List.singleton_append]
  refine ⟨?_, hback.restart ?_ ?_⟩
  · rw [hprev, if_neg (Nat.ne_of_lt hfirst), if_pos rfl]
  · rw [hprev, if_pos rfl]
  · intro r hr
    rw [List.mem_reverse] at hr
    have hr' := hlt r (List.mem_cons_of_mem _ hr)
    have hne : r ≠ first := by
      rintro rfl
      exact (List.nodup_cons.mp hnd).1 hr
    rw [hprev, if_neg (Nat.ne_of_lt hr'), if_neg hne]

/-- Records of other parents keep their links. -/
theorem newThread_prev_other (h : o.Forest ring fun _ => True) (hrun : o.newThread c t = .ok o') (hct : t ≠ c)
    {u : Tid} (hu : u ≠ t) {r : ℕ} (hr : r ∈ ring u) : o'.prev r = o.prev r := by
  have hlt := h.alloc u r hr
  have hlinked := h.linked t trivial
  cases hring : ring t with
  | nil =>
    rw [hring] at hlinked
    rw [newThread_prev_none hrun hct hlinked, if_neg (Nat.ne_of_lt hlt)]
  | cons first rest =>
    have hmem : first ∈ ring t := by
      rw [hring]
      exact List.mem_cons_self
    have hne : r ≠ first := by
      rintro rfl
      exact hu (h.disjoint u t r hr hmem)
    rw [hring] at hlinked
    rw [newThread_prev_some hrun hct hlinked.1 (h.alloc t first hmem), if_neg (Nat.ne_of_lt hlt), if_neg hne]

theorem Children.newThread_back (h : Children calls o ring) (hct : t ≠ c) (hrun : o.newThread c t = .ok o') {u : Tid}
    {first : ℕ} {rest : List ℕ} (hring : Function.update ring t (ring t ++ [o.allocated]) u = first :: rest) :
    LinkRing.Path o'.prev first rest.reverse first := by
  by_cases hu : u = t
  · subst hu
    rw [Function.update_self] at hring
    have hlinked := h.forest.linked u trivial
    cases hold : ring u with
    | nil =>
      rw [hold] at hring hlinked
      obtain ⟨rfl, rfl⟩ := List.cons.inj hring
      exact (newThread_prev_none hrun hct hlinked _).trans (if_pos rfl)
    | cons first' rest' =>
      have hnd := h.forest.nodup u
      have hlt := h.forest.alloc u
      rw [hold] at hring hlinked hnd hlt
      obtain ⟨rfl, rfl⟩ := List.cons.inj hring
      exact newThread_back_parent hrun hct hlinked.1 hnd hlt (h.back u _ _ hold)
  · rw [Function.update_of_ne hu] at hring
    apply (h.back u first rest hring).congr
    intro r hr
    apply newThread_prev_other h.forest hrun hct hu
    rw [hring]
    rcases List.mem_cons.mp hr with rfl | hr
    · exact List.mem_cons_self
    · exact List.mem_cons_of_mem _ (List.mem_reverse.mp hr)

theorem Children.newThread (h : Children calls o ring) (hc : o.created c = false) (ht : o.created t = true)
    (hrun : o.newThread c t = .ok o') :
    Children (calls ++ [⟨c, some t⟩]) o' (Function.update ring t (ring t ++ [o.allocated])) := by
  have hct : t ≠ c := by
    rintro rfl
    rw [hc] at ht
    cases ht
  have hthread := newThread_thread hrun
  have hold : ∀ u, (ring u).map (fun r => (o'.records r).thread) = (ring u).map fun r => (o.records r).thread := by
    intro u
    apply List.map_congr_left
    intro r hr
    rw [hthread, if_neg (Nat.ne_of_lt (h.forest.alloc u r hr))]
  refine ⟨h.forest.newThread trivial ht hc hrun, fun u first rest => h.newThread_back hct hrun, ?_, ?_, ?_⟩
  · intro u
    rw [childrenOf_concat]
    by_cases hu : u = t
    · subst hu
      rw [Function.update_self, List.map_append, hold, h.threads, if_pos rfl, List.map_append, List.map_singleton,
        List.map_singleton, hthread, if_pos rfl]
    · have hparent : ¬ (some t = some u) := by
        intro heq
        exact hu (Option.some.inj heq).symm
      rw [Function.update_of_ne hu, hold, h.threads, if_neg hparent]
  · intro d r hd
    rw [hthread]
    rcases (h.forest.newThread_parentRecord hc hrun).mp hd with hd | ⟨rfl, rfl⟩
    · rw [if_neg (Nat.ne_of_lt (h.forest.parentAlloc d r hd))]
      exact h.parents d r hd
    · rw [if_pos rfl]
  · rw [(newThread_grown hrun).allocated, List.length_append]
    exact Nat.succ_le_succ h.allocated_le

theorem Children.step {c : Construction Tid} (h : Children calls o ring) (hstep : o.Constructs c o') :
    ∃ ring', Children (calls ++ [c]) o' ring' := by
  obtain ⟨hc, hparent, hrun⟩ := hstep
  obtain ⟨thread, parent⟩ := c
  cases parent with
  | none =>
    obtain rfl := Except.ok.inj hrun
    exact ⟨ring, h.newRoot hc⟩
  | some parent => exact ⟨_, h.newThread hc (hparent parent rfl) hrun⟩

end Steps

theorem exists_children {records : ℕ → ChildThread Tid} {calls : List (Construction Tid)} {o : Processes Tid}
    (h : Trace (fun o => o = empty records) Constructs calls o) : ∃ ring, Children calls o ring := by
  induction h with
  | start hi =>
    rw [hi]
    exact ⟨_, children_empty records⟩
  | next _ hs ih =>
    obtain ⟨ring, hring⟩ := ih
    exact hring.step hs

/-! ## The rings -/

section Rings

variable {calls : List (Construction Tid)} {ring : Tid → List ℕ}

/-- `prev` and `next` are inverse to each other on every ring. -/
theorem Children.inverse (h : Children calls o ring) {t : Tid} {r : ℕ} (hr : r ∈ ring t) :
    o.prev (o.next r) = r ∧ o.next (o.prev r) = r := by
  have hlinked := h.forest.linked t trivial
  cases hring : ring t with
  | nil =>
    rw [hring] at hr
    exact (List.not_mem_nil hr).elim
  | cons first rest =>
    have hback := h.back t first rest hring
    rw [hring] at hlinked hr
    obtain ⟨-, hpath, -⟩ := hlinked
    have hr' : r ∈ first :: rest.reverse := by
      rcases List.mem_cons.mp hr with rfl | hr
      · exact List.mem_cons_self
      · exact List.mem_cons_of_mem _ (List.mem_reverse.mpr hr)
    refine ⟨hpath.inverse hback r hr, hback.inverse ?_ r hr'⟩
    rw [List.reverse_reverse]
    exact hpath

/-- The search of `Join` comes back, and has looked at no record twice. -/
theorem Children.join (h : Children calls o ring) (t : Tid) (cid : Int) :
    Returns (o.join t cid) ∧ ∀ first fuel, o.child t = some first →
      (LinkRing.visited o.next (fun r => (o.records r).id == cid) first fuel first).Nodup ∧
      ∀ r ∈ LinkRing.visited o.next (fun r => (o.records r).id == cid) first fuel first, r ∈ ring t := by
  have hlinked := h.forest.linked t trivial
  have hnd := h.forest.nodup t
  refine ⟨?_, ?_⟩
  · have hid : ∀ r ∈ ring t, (o.records r).id = r := fun r hr => h.forest.ids r (h.forest.alloc t r hr)
    rcases hlinked.join hnd (h.forest.length_le t) hid cid with ⟨r, -, -, hjoin⟩ | ⟨-, hjoin⟩
    · exact ⟨_, hjoin⟩
    · exact ⟨_, hjoin⟩
  · intro first fuel hchild
    cases hring : ring t with
    | nil =>
      rw [hring] at hlinked
      rw [show o.child t = none from hlinked] at hchild
      cases hchild
    | cons first' rest =>
      rw [hring] at hlinked hnd
      obtain ⟨hchild', hpath, -⟩ := hlinked
      rw [hchild'] at hchild
      cases hchild
      have hinitial := hpath.visited_initial (fun r => (o.records r).id == cid) fuel
      exact ⟨hnd.sublist hinitial.sublist, fun r hr => hinitial.subset hr⟩

/-- The records of a ring are those that its children hold. -/
theorem Children.parentRecord (h : Children calls o ring) {t : Tid} {r : ℕ} (hr : r ∈ ring t) {c : Tid}
    (hc : (o.records r).thread = some c) : o.parentRecord c = some r := by
  obtain ⟨d, hd⟩ := h.forest.parentExists r (h.forest.alloc t r hr)
  have hthread := h.parents d r hd
  rw [hc] at hthread
  cases hthread
  exact hd

/-- The next construction returns, unless it needs a number past the largest `int`. -/
theorem Children.constructs (h : Children calls o ring) (hlen : (calls.length : Int) < intMax) {c : Construction Tid}
    (hc : o.created c.thread = false) (hparent : ∀ parent, c.parent = some parent → o.created parent = true) :
    ∃ o', o.Constructs c o' := by
  obtain ⟨thread, parent⟩ := c
  cases parent with
  | none => exact ⟨o.newRoot thread, hc, hparent, rfl⟩
  | some parent =>
    have hid : o.globalID ≠ intMax := by
      have hle := h.allocated_le
      rw [h.forest.globalID]
      omega
    have hreturns : Returns (o.newThread thread parent) := by
      unfold Processes.newThread
      rw [if_neg hid]
      exact returns_ok _
    obtain ⟨o', ho'⟩ := hreturns
    exact ⟨o', hc, hparent, ho'⟩

end Rings

/-- After every sequence of constructions: the records of each parent form a ring that begins at its `child`,
linked in both directions, with the record of each of its children once and in the order of their
creation; no two parents share a record and no two records have the same number; and the search of `Join`
ends after it has looked at each record at most once. Every construction returns until the numbers run
out. -/
theorem childRings {records : ℕ → ChildThread Tid} {calls : List (Construction Tid)} {o : Processes Tid}
    (h : Trace (fun o => o = empty records) Constructs calls o) :
    (∃ ring : Tid → List ℕ,
      (∀ t, o.Linked t (ring t) ∧ (ring t).Nodup ∧
        (∀ r ∈ ring t, o.prev (o.next r) = r ∧ o.next (o.prev r) = r) ∧
        (ring t).map (fun r => (o.records r).thread) = (childrenOf calls t).map some ∧
        ∀ r ∈ ring t, ∀ c, (o.records r).thread = some c → o.parentRecord c = some r) ∧
      (∀ t u, t ≠ u → ∀ r ∈ ring t, r ∉ ring u) ∧
      (∀ t u, ∀ r ∈ ring t, ∀ r' ∈ ring u, (o.records r).id = (o.records r').id → r = r') ∧
      ∀ t cid, Returns (o.join t cid) ∧ ∀ first fuel, o.child t = some first →
        (LinkRing.visited o.next (fun r => (o.records r).id == cid) first fuel first).Nodup ∧
        ∀ r ∈ LinkRing.visited o.next (fun r => (o.records r).id == cid) first fuel first, r ∈ ring t) ∧
    ∀ c : Construction Tid, o.created c.thread = false → (∀ parent, c.parent = some parent → o.created parent = true) →
      (calls.length : Int) < intMax → ∃ o', o.Constructs c o' := by
  obtain ⟨ring, hring⟩ := exists_children h
  refine ⟨⟨ring, ?_, ?_, ?_, hring.join⟩, fun c hc hparent hlen => hring.constructs hlen hc hparent⟩
  · intro t
    exact ⟨hring.forest.linked t trivial, hring.forest.nodup t, fun r hr => hring.inverse hr, hring.threads t,
      fun r hr c hc => hring.parentRecord hr hc⟩
  · intro t u htu r hr hr'
    exact htu (hring.forest.disjoint t u r hr hr')
  · intro t u r hr r' hr' hid
    rw [hring.forest.ids r (hring.forest.alloc t r hr), hring.forest.ids r' (hring.forest.alloc u r' hr')] at hid
    exact_mod_cast hid

/-- A thread with two children, of which the first one has a child. -/
theorem childRings_family : ∃ o : Processes ℕ,
    Trace (fun o => o = empty fun _ => ChildThread.new 0 0 0) Constructs
      [⟨0, none⟩, ⟨1, some 0⟩, ⟨2, some 1⟩, ⟨3, some 0⟩] o ∧
    ∃ ring : ℕ → List ℕ, o.Linked 0 (ring 0) ∧ (ring 0).map (fun r => (o.records r).thread) = [some 1, some 3] ∧
      (ring 1).map (fun r => (o.records r).thread) = [some 2] ∧ ∀ r ∈ ring 0, o.prev (o.next r) = r := by
  have h0 : Trace (fun o => o = empty fun _ => ChildThread.new 0 0 0) Constructs []
      (empty fun _ => ChildThread.new 0 0 0) := .start rfl
  have hparent : ∀ {o : Processes ℕ} {p : ℕ}, o.created p = true → ∀ parent, some p = some parent →
      o.created parent = true := by
    intro o p hp parent heq
    rw [← Option.some.inj heq]
    exact hp
  have h1 := h0.next (l := ⟨0, none⟩) ⟨rfl, fun parent hp => (Option.some_ne_none parent hp.symm).elim, rfl⟩
  have h2 := h1.next (l := ⟨1, some 0⟩) ⟨rfl, hparent rfl, rfl⟩
  have h3 := h2.next (l := ⟨2, some 1⟩) ⟨rfl, hparent rfl, rfl⟩
  have h4 := h3.next (l := ⟨3, some 0⟩) ⟨rfl, hparent rfl, rfl⟩
  obtain ⟨⟨ring, hring, -⟩, -⟩ := childRings h4
  obtain ⟨hlinked, -, hinverse, hthreads, -⟩ := hring 0
  obtain ⟨-, -, -, hthreads', -⟩ := hring 1
  exact ⟨_, h4, ring, hlinked, hthreads, hthreads', fun r hr => (hinverse r hr).1⟩

end Processes

/-! ## `~Thread`

The loop that is meant to detach the children begins at the first record and runs until it comes back to it,
with the test at its head. It ends before it has done anything. -/

/-- The records that have been deleted, in order. -/
structure Detaching (Tid : Type) extends Processes Tid where
  deleted : List ℕ

namespace Detaching

omit [DecidableEq Tid] in
/-- A record is used. -/
def use (s : Detaching Tid) (r : ℕ) : Call Unit := if r ∈ s.deleted then .error .badPointer else .ok ()

/-- The body of the loop: `record` moves on, and the record behind it is deleted. -/
def detach (s : Detaching Tid) (record : ℕ) : Call (ℕ × Detaching Tid) := do
  s.use record
  let record := s.next record
  s.use record
  let behind := s.prev record
  s.use behind
  match (s.records behind).thread with
  | none => .error .badPointer
  | some thread =>
    return (record, { s with parentRecord := Function.update s.parentRecord thread none,
                             deleted := s.deleted ++ [behind] })

def detachLoop (child : ℕ) : ℕ → ℕ → Detaching Tid → Call (Detaching Tid)
  | 0, _, _ => .error .outOfFuel
  | fuel + 1, record, s =>
    if record = child then .ok s
    else do
      let (record, s) ← s.detach record
      detachLoop child fuel record s

/-- `Thread::~Thread`, after the stack and the address space. -/
def destructor (s : Detaching Tid) (currentThread t : Tid) : Call (Detaching Tid) :=
  if t = currentThread then .error .assertFailed
  else
    match s.child t with
    | none => .ok s
    | some child => do
      let s ← detachLoop child (s.allocated + 1) child s
      return { s with child := Function.update s.child t none }

/-- What the destructor of the parent is for. -/
structure Detached (s s' : Detaching Tid) (ring : List ℕ) : Prop where
  freed : ∀ r ∈ ring, s'.deleted.count r = 1
  cleared : ∀ r ∈ ring, ∀ c, (s.records r).thread = some c → s'.parentRecord c = none
  quiet : ∀ r ∈ ring, ∀ c, (s.records r).thread = some c → ∀ status o wakes,
    s'.notifyParent c status = .ok (o, wakes) → o.records = s'.records

def Detaches (s : Detaching Tid) (currentThread t : Tid) (ring : List ℕ) : Prop :=
  ∃ s', s.destructor currentThread t = .ok s' ∧ Detached s s' ring

theorem destructor_eq (s : Detaching Tid) {currentThread t : Tid} (ht : t ≠ currentThread) :
    s.destructor currentThread t = .ok { s with child := Function.update s.child t none } := by
  unfold destructor
  rw [if_neg ht]
  cases hchild : s.child t with
  | none =>
    have hsame : Function.update s.child t none = s.child := Function.update_eq_self_iff.mpr hchild.symm
    rw [hsame]
  | some child =>
    have hloop : detachLoop child (s.allocated + 1) child s = .ok s := if_pos rfl
    dsimp only
    rw [hloop]
    rfl

theorem not_detaches (s : Detaching Tid) {currentThread t : Tid} (ht : t ≠ currentThread) {ring : List ℕ}
    (hring : ring ≠ []) (hlive : ∀ r ∈ ring, r ∉ s.deleted) : ¬ s.Detaches currentThread t ring := by
  rintro ⟨s', hrun, hdetached⟩
  obtain ⟨first, rest, rfl⟩ := List.exists_cons_of_ne_nil hring
  rw [s.destructor_eq ht] at hrun
  obtain rfl := Except.ok.inj hrun
  have hcount := hdetached.freed first List.mem_cons_self
  have hnone : s.deleted.count first = 0 := List.count_eq_zero_of_not_mem (hlive first List.mem_cons_self)
  rw [show s.deleted.count first = 1 from hcount] at hnone
  cases hnone

/-- The destructor of a thread with a ring of children of any length, alive or not, frees none of the records,
which no thread can reach any more, and clears `parentRecord` in no child: a child that exits later
notifies such a record. -/
theorem destructor_detaches_none (s : Detaching Tid) {currentThread t : Tid} (ht : t ≠ currentThread) {ring : List ℕ}
    (hne : ring ≠ []) (hring : s.Linked t ring) (hlive : ∀ r ∈ ring, r ∉ s.deleted) :
    ¬ s.Detaches currentThread t ring ∧
    ∃ s', s.destructor currentThread t = .ok s' ∧ s'.deleted = s.deleted ∧ s'.parentRecord = s.parentRecord ∧
      ∀ r ∈ ring, s.InRing t r ∧ ¬ s'.InRing t r ∧ ∀ c, s.parentRecord c = some r → ∀ status o wakes,
        s'.notifyParent c status = .ok (o, wakes) → (o.records r).status = status ∧ (o.records r).thread = none := by
  refine ⟨s.not_detaches ht hne hlive, _, s.destructor_eq ht, rfl, rfl, ?_⟩
  intro r hr
  refine ⟨(hring.inRing r).mpr hr, ?_, ?_⟩
  · rintro ⟨first, n, hchild, -⟩
    change Function.update s.child t none t = some first at hchild
    rw [Function.update_self] at hchild
    cases hchild
  · intro c hc status o wakes hnotify
    rcases Processes.notifyParent_cases hnotify with ⟨hnone, -⟩ | ⟨r', hr', -, rfl⟩
    · rw [show s.parentRecord c = none from hnone] at hc
      cases hc
    · rw [show s.parentRecord c = some r' from hr'] at hc
      cases hc
      dsimp only
      rw [Function.update_self]
      exact ⟨rfl, rfl⟩

/-- Thread 0 with one child, thread 1. -/
def family : Detaching ℕ where
  records _ := ChildThread.new 0 1 0
  allocated := 1
  child t := if t = 0 then some 0 else none
  parentRecord t := if t = 1 then some 0 else none
  globalID := 1
  threadToBeDestroyed := none
  created _ := true
  exits := []
  returns := []
  deleted := []

theorem family_linked : family.Linked 0 [0] := ⟨rfl, rfl, rfl⟩

/-- Thread 0 with two children; the second, thread 2, has exited with status 7. -/
def siblings : Detaching ℕ :=
  { family with records := fun r => if r = 0 then ChildThread.new 1 1 0 else ⟨none, 7, 1, ⟨1, []⟩, 0, 0⟩
                allocated := 2
                parentRecord := fun t => if t = 1 then some 0 else if t = 2 then some 1 else none
                globalID := 2 }

theorem destructor_detaches_none_siblings : siblings.Linked 0 [0, 1] ∧ (siblings.records 1).thread = none ∧
    ¬ siblings.Detaches 1 0 [0, 1] ∧ ∃ s', siblings.destructor 1 0 = .ok s' ∧ s'.deleted = [] ∧
      ∀ r ∈ [0, 1], siblings.InRing 0 r ∧ ¬ s'.InRing 0 r := by
  have hlinked : siblings.Linked 0 [0, 1] := ⟨rfl, ⟨rfl, rfl⟩, rfl⟩
  obtain ⟨hnot, s', hrun, hdeleted, -, hring⟩ :=
    destructor_detaches_none siblings (show 0 ≠ 1 by decide) (by decide) hlinked (by decide)
  exact ⟨hlinked, rfl, hnot, s', hrun, hdeleted, fun r hr => ⟨(hring r hr).1, (hring r hr).2.1⟩⟩

theorem destructor_keeps_record : family.Linked 0 [0] ∧
    ∃ s', family.destructor 1 0 = .ok s' ∧ s'.deleted.count 0 = 0 ∧ s'.parentRecord 1 = some 0 ∧
      ¬ Detached family s' [0] := by
  refine ⟨family_linked, _, family.destructor_eq (by decide), rfl, rfl, ?_⟩
  intro hdetached
  have hcount := hdetached.freed 0 List.mem_cons_self
  cases hcount

end Detaching

end Nachos
