import Nachos.Userprog.FrameTable

/-! # Frames and swap sectors over process lifetimes

Processes come, load and lose pages, and go. `~AddrSpace` deletes the page table and releases neither
the frames nor the sectors of the process. The accounts balance in every run in which no process ends
while it holds a frame or a sector, and in which no page that has a frame but is not valid, which is what
a failed load leaves behind, is loaded again into another one. -/
set_option autoImplicit false

namespace Nachos
open Buffer Execution Placement

variable {s : Vm} {i : ℕ} {a a' : AddrSpace} {fs : Programs} {m' : Memory} {junk : Image} {words : ℕ → BitVec 32}
  {name : FileName}

/-! ## The accounts -/

/-- The swap sector of page `v`, if it has one. -/
def AddrSpace.sector (a : AddrSpace) (v : ℕ) : Option ℕ :=
  if v < a.numPages ∧ 0 ≤ a.pageSector v then some (a.pageSector v).toNat else none

/-- The swap sector of a page of a process. -/
def Vm.sector (s : Vm) (k : ℕ × ℕ) : Option ℕ :=
  (s.spaces k.1).bind fun a => a.sector k.2

def Memory.Reserved (m : Memory) (n : ℕ) : Prop := n < numSectors ∧ m.availableSectors.bit n = true

/-- As many frames in use as entries of live address spaces that hold one, and as many sectors reserved
as pages of live address spaces that have one. -/
structure Conserved (s : Vm) : Prop where
  frames : {f | s.memory.InUse f}.encard = {k | s.frame k ≠ none}.encard
  sectors : {n | s.memory.Reserved n}.encard = {k | s.sector k ≠ none}.encard

/-! ## Lifetimes -/

/-- `Thread::Finish` of process `i` up to `~Thread` and `~AddrSpace`: the page table is deleted. -/
def Vm.terminate (s : Vm) (i : ℕ) : Vm := { s with spaces := Function.update s.spaces i none }

inductive LifeOp where
  | call (q : Vm.Request)
  | terminate (i : ℕ)

/-- A process is created with an address space of its own, and a live one can end. -/
def LifeStep (s : Vm) : LifeOp → Vm → Prop
  | .call q, s' => Vm.Step s q s' ∧
      ∀ i junk words name, q.op = .construct i junk words name → s.spaces i = none
  | .terminate i, s' => ∃ a, s.spaces i = some a ∧ s' = s.terminate i

/-! ## The condition -/

/-- A page that is not valid is loaded while it has no frame, or while no frame is free. -/
def LoadsAfresh (m : Memory) (a : AddrSpace) (virtPage : Int) : Prop :=
  virtPage < 0 ∨ (a.numPages : Int) ≤ virtPage ∨ (a.pageTable virtPage.toNat).valid = true ∨
    (a.pageTable virtPage.toNat).physicalPage = -1 ∨ (firstFree m).isSome = false

instance (m : Memory) (a : AddrSpace) (virtPage : Int) : Decidable (LoadsAfresh m a virtPage) :=
  inferInstanceAs (Decidable (_ ∨ _ ∨ _ ∨ _ ∨ _))

/-- Every load that the call makes meets a condition. -/
def LoadsMeet (cond : Memory → AddrSpace → Int → Prop) [∀ m a v, Decidable (cond m a v)] (s : Vm)
    (q : Vm.Request) : Prop :=
  ∀ fuel x, s.step q.fs (loadPage q.fs fuel) q.op = .ok x →
    s.step q.fs (Vm.guarded cond (loadPage q.fs fuel)) q.op = .ok x

noncomputable instance (m : Memory) (a : AddrSpace) (virtPage : Int) : Decidable (Spared m a virtPage) :=
  Classical.propDecidable _

/-- No process ends with a frame or a sector, no frame is left behind by a second load, and no dirty page is
evicted. -/
def LeavesNothing (s : Vm) : LifeOp → Prop
  | .call q => LoadsMeet LoadsAfresh s q ∧ LoadsMeet Spared s q
  | .terminate i => ∀ v, s.frame (i, v) = none ∧ s.sector (i, v) = none

/-- A call that returns has evicted no dirty page. -/
theorem loadsMeet_spared (s : Vm) (q : Vm.Request) : LoadsMeet Spared s q := by
  intro fuel x hx
  have hspared : Vm.LoadsAs (loadPage q.fs fuel) (Vm.guarded Spared (loadPage q.fs fuel)) := fun _ _ _ _ hload =>
    Vm.guarded_eq_ok.mpr ⟨spared_of_loadPage hload, hload⟩
  exact hspared.step hx

/-! ## The invariant -/

theorem sector_set (ha : s.spaces i = some a) (m : Memory) (hprog : a.SameProgram a')
    (hsectors : a'.pageSector = a.pageSector) : (s.set i a' m).sector = s.sector := by
  funext k
  unfold Vm.sector
  by_cases hk : k.1 = i
  · rw [hk, Vm.set_spaces, ha]
    simp only [Option.bind_some, AddrSpace.sector, hprog.numPages, hsectors]
  · rw [Vm.set_spaces_of_ne s hk]

theorem construct_pageSector (h : AddrSpace.construct fs junk words name = .ok a) : a.pageSector = fun _ => -1 := by
  unfold AddrSpace.construct at h
  split at h
  · cases h
  · obtain ⟨noffH, -, h⟩ := bind_eq_ok.mp h
    split at h
    · cases h
    · dsimp only at h
      split at h
      · obtain ⟨onDisk, -, h⟩ := bind_eq_ok.mp h
        cases h
        rfl
      · cases h

theorem sector_construct (h : AddrSpace.construct fs junk words name = .ok a) (v : ℕ) : a.sector v = none := by
  simp [AddrSpace.sector, construct_pageSector h]

/-- A page that holds nothing in an empty slot changes no placement. -/
theorem bind_set_empty {ρ : Type} (hfree : s.spaces i = none) {hold : AddrSpace → ℕ → Option ρ}
    (hnone : ∀ v, hold a v = none) (k : ℕ × ℕ) :
    ((s.set i a s.memory).spaces k.1).bind (fun b => hold b k.2) = (s.spaces k.1).bind fun b => hold b k.2 := by
  by_cases hk : k.1 = i
  · rw [hk, Vm.set_spaces, hfree, Option.bind_some, Option.bind_none, hnone]
  · rw [Vm.set_spaces_of_ne s hk]

theorem terminate_spaces (s : Vm) (i : ℕ) : (s.terminate i).spaces i = none :=
  Function.update_self _ _ _

theorem terminate_spaces_of_ne (s : Vm) {j : ℕ} (hj : j ≠ i) : (s.terminate i).spaces j = s.spaces j :=
  Function.update_of_ne hj _ _

theorem bind_terminate {ρ : Type} {hold : AddrSpace → ℕ → Option ρ}
    (hnone : ∀ v, ((s.spaces i).bind fun b => hold b v) = none) (k : ℕ × ℕ) :
    ((s.terminate i).spaces k.1).bind (fun b => hold b k.2) = (s.spaces k.1).bind fun b => hold b k.2 := by
  by_cases hk : k.1 = i
  · rw [hk, hnone, terminate_spaces, Option.bind_none]
  · rw [terminate_spaces_of_ne s hk]

structure LifeInv (s : Vm) : Prop where
  ok : s.Ok
  frames : Accounted s.frame s.memory.InUse
  sectors : Accounted s.sector s.memory.Reserved

theorem inUse_taken {m : Memory} {f : ℕ} (hf : f < numPhysPages)
    (hcount : m'.availablePages = Function.update m.availablePages f 1) (f' : ℕ) :
    m'.InUse f' ↔ m.InUse f' ∨ f' = f := by
  unfold Memory.InUse
  rw [hcount]
  by_cases hff : f' = f
  · subst hff
    simp [hf]
  · simp [hff]

/-- Where the frames are after a load: as before, page `w` has one that was free, or one that page `u` had. -/
theorem FrameMove.placement {w : ℕ} (h : FrameMove s.memory a w a' m') (ha : s.spaces i = some a)
    (hw : w < a.numPages) :
    ((s.set i a' m').frame = s.frame ∧ m'.InUse = s.memory.InUse) ∨
    (∃ f, firstFree s.memory = some f ∧ (s.set i a' m').frame = Function.update s.frame (i, w) (some f) ∧
      ¬ s.memory.InUse f ∧ ∀ f', m'.InUse f' ↔ s.memory.InUse f' ∨ f' = f) ∨
    ∃ u f, s.frame (i, u) = some f ∧ s.frame (i, w) = none ∧
      (s.set i a' m').frame = Function.update (Function.update s.frame (i, u) none) (i, w) (some f) ∧
      (s.memory.InUse f → m'.InUse = s.memory.InUse) := by
  cases h with
  | keep hsame hcount =>
    refine Or.inl ⟨frame_set_same ha m' hsame.program hsame.frames, ?_⟩
    unfold Memory.InUse
    rw [hcount]
  | take f e hfree he ha' hcount =>
    obtain ⟨hf, hzero, -⟩ := firstFree_eq_some.mp hfree
    subst ha'
    exact Or.inr (Or.inl ⟨f, hfree, frame_set_entry ha m' hw he, fun hused => hused.2 hzero, inUse_taken hf hcount⟩)
  | move b u f e e' hsame hu hframe hphys he he' ha' hcount =>
    have hb : (s.set i b m').frame = s.frame := frame_set_same ha m' hsame.program hsame.frames
    have hdrop : (s.set i (b.setEntry u e) m').frame = Function.update s.frame (i, u) none := by
      have hset := frame_set_drop (Vm.set_spaces s i b m') m' u he
      rwa [Vm.set_set, hb] at hset
    have htake : (s.set i a' m').frame =
        Function.update (Function.update s.frame (i, u) none) (i, w) (some f) := by
      have hset := frame_set_entry (Vm.set_spaces s i (b.setEntry u e) m') m'
        (show w < (b.setEntry u e).numPages from hsame.program.numPages ▸ hw) he'
      rwa [Vm.set_set, hdrop, ← ha'] at hset
    refine Or.inr (Or.inr ⟨u, f, ?_, ?_, htake, fun hused => ?_⟩)
    · rw [vm_frame_eq ha, frame_eq_some hu, hframe]
    · rw [vm_frame_eq ha, frame_eq_none hphys]
    · funext f'
      rw [Function.update_idem] at hcount
      apply propext
      rw [inUse_taken hused.1 hcount]
      constructor
      · rintro (hf' | rfl)
        · exact hf'
        · exact hused
      · exact Or.inl

/-- The frames are accounted for after a load into a page that had none. -/
theorem FrameMove.accounted {w : ℕ} (h : FrameMove s.memory a w a' m') (hs : Accounted s.frame s.memory.InUse)
    (ha : s.spaces i = some a) (hw : w < a.numPages)
    (hafresh : (a.pageTable w).physicalPage = -1 ∨ firstFree s.memory = none) :
    Accounted (s.set i a' m').frame m'.InUse := by
  rcases h.placement ha hw with
    ⟨hframe, hused⟩ | ⟨f, hfree, hframe, hunused, hused⟩ | ⟨u, f, hu, hnone, hframe, hused⟩
  · rw [hframe, hused]
    exact hs
  · have hnone : s.frame (i, w) = none := by
      rw [vm_frame_eq ha, frame_eq_none (hafresh.resolve_right (by rw [hfree]; simp))]
    rw [hframe]
    exact hs.take hnone hunused hused
  · rw [hframe, hused (hs.used hu)]
    exact hs.move hu hnone

theorem LifeInv.load (h : LifeInv s) {fuel : ℕ} {v r : Int} (ha : s.spaces i = some a)
    (hafresh : LoadsAfresh s.memory a v) (hload : loadPage fs fuel s.memory a v = .ok (r, a', m')) :
    LifeInv (s.set i a' m') := by
  obtain ⟨hok, hprog⟩ := loadPage_ok (h.ok i a ha) hload
  obtain ⟨hsectors, hreserved, -, hcase⟩ := loadPage_move hload
  refine ⟨h.ok.set hok m', ?_, ?_⟩
  · rcases hcase with ⟨rfl, rfl⟩ | ⟨w, rfl, hw, hinvalid, hmove⟩
    · rw [Vm.set_self ha]
      exact h.frames
    · apply hmove.accounted h.frames ha hw
      simpa [LoadsAfresh, hinvalid, Int.not_lt.mpr (Int.natCast_nonneg w), Nat.not_le.mpr hw] using hafresh
  · rw [sector_set ha m' hprog hsectors]
    have hsame : m'.Reserved = s.memory.Reserved := by
      unfold Memory.Reserved
      rw [hreserved]
    show Accounted s.sector m'.Reserved
    rw [hsame]
    exact h.sectors

theorem LifeInv.touch (h : LifeInv s) {v : ℕ} (w : Bool) (ha : s.spaces i = some a) (hv : v < a.numPages) :
    LifeInv (s.set i (a.setEntry v ((a.pageTable v).touched w)) s.memory) := by
  have he := (h.ok i a ha).entry v hv
  have htouched : ((a.pageTable v).touched w).Ok v := ⟨he.index, he.frame, he.writable⟩
  have hprog := setEntry_sameProgram a v ((a.pageTable v).touched w)
  refine ⟨h.ok.set ((h.ok i a ha).setEntry htouched) s.memory, ?_, ?_⟩
  · rw [frame_set_same ha s.memory hprog fun u => (touched_entry a v w u).1]
    exact h.frames
  · rw [sector_set ha s.memory hprog rfl]
    exact h.sectors

theorem LifeInv.construct (h : LifeInv s) (hfree : s.spaces i = none)
    (hbuild : AddrSpace.construct fs junk words name = .ok a) : LifeInv (s.set i a s.memory) := by
  obtain ⟨hok, -, htable, -⟩ := construct_eq_ok hbuild
  have hframe : (s.set i a s.memory).frame = s.frame := by
    funext k
    exact bind_set_empty hfree (fun v => frame_eq_none (by rw [htable]; rfl)) k
  have hsector : (s.set i a s.memory).sector = s.sector := by
    funext k
    exact bind_set_empty hfree (sector_construct hbuild) k
  refine ⟨h.ok.set hok s.memory, ?_, ?_⟩
  · rw [hframe]
    exact h.frames
  · rw [hsector]
    exact h.sectors

theorem keepsUsed_lifeInv (fs : Programs) (fuel : ℕ) :
    Vm.KeepsUsed (Vm.guarded LoadsAfresh (loadPage fs fuel)) LifeInv where
  load _ _ _ _ _ _ _ h ha hload := h.load ha (Vm.guarded_eq_ok.mp hload).1 (Vm.guarded_eq_ok.mp hload).2
  bytes _ _ h := ⟨h.ok, h.frames, h.sectors⟩
  touch _ _ _ _ w h ha hv := h.touch w ha hv

theorem LifeInv.call {s' : Vm} {q : Vm.Request} (h : LifeInv s) (hmeet : LoadsMeet LoadsAfresh s q)
    (hstep : Vm.Step s q s')
    (hnew : ∀ i junk words name, q.op = .construct i junk words name → s.spaces i = none) : LifeInv s' := by
  obtain ⟨fuel, result, hstep⟩ := hstep
  have hguarded := hmeet fuel _ hstep
  by_cases hop : ∃ i junk words name, q.op = .construct i junk words name
  · obtain ⟨i, junk, words, name, hop⟩ := hop
    rw [hop] at hstep
    obtain ⟨a, hbuild, hstep⟩ := bind_eq_ok.mp hstep
    cases hstep
    exact h.construct (hnew i junk words name hop) hbuild
  · apply (keepsUsed_lifeInv q.fs fuel).step h _ hguarded
    intro i junk words name heq
    exact hop ⟨i, junk, words, name, heq⟩

theorem LifeInv.terminate (h : LifeInv s)
    (hnone : ∀ v, s.frame (i, v) = none ∧ s.sector (i, v) = none) : LifeInv (s.terminate i) := by
  have hframe : (s.terminate i).frame = s.frame := by
    funext k
    exact bind_terminate (fun v => (hnone v).1) k
  have hsector : (s.terminate i).sector = s.sector := by
    funext k
    exact bind_terminate (fun v => (hnone v).2) k
  refine ⟨?_, ?_, ?_⟩
  · intro j a ha
    by_cases hj : j = i
    · rw [hj, terminate_spaces] at ha
      cases ha
    · rw [terminate_spaces_of_ne s hj] at ha
      exact h.ok j a ha
  · rw [hframe]
    exact h.frames
  · rw [hsector]
    exact h.sectors

theorem booted_lifeInv (h : s.Booted) : LifeInv s where
  ok := (booted_frameInv h).ok
  frames := ⟨(booted_frameInv h).exclusive, fun hf => absurd (h.free _) hf.2⟩
  sectors := by
    obtain ⟨words, hnew⟩ := h.sectors
    obtain ⟨b, hb, -, hclear⟩ := @BitMap.new_spec words numSectors
    rw [hnew] at hb
    cases hb
    have hnone : ∀ k, s.sector k = none := by
      intro k
      simp [Vm.sector, h.spaces]
    refine ⟨⟨?_, ?_⟩, ?_⟩
    · intro k n hk
      rw [hnone] at hk
      cases hk
    · intro k k' n hk
      rw [hnone] at hk
      cases hk
    · rintro n ⟨hn, hset⟩
      rw [hclear n hn] at hset
      cases hset

/-! ## All lifetimes -/

theorem LifeInv.of_reachable (h : Reachable Vm.Booted LifeStep LeavesNothing s) : LifeInv s := by
  apply Reachable.invariant LifeInv (fun _ => booted_lifeInv) _ h
  rintro s (q | i) s' hs hallowed hstep
  · exact hs.call hallowed.1 hstep.1 hstep.2
  · obtain ⟨a, -, rfl⟩ := hstep
    exact hs.terminate hallowed

/-- In every run in which no process ends with a frame or a sector, no second load leaves a frame behind and no
dirty page is evicted, the accounts of frames and sectors balance in every state. -/
theorem frames_conserved (h : Reachable Vm.Booted LifeStep LeavesNothing s) : Conserved s := by
  have hinv := LifeInv.of_reachable h
  exact ⟨hinv.frames.encard_eq, hinv.sectors.encard_eq⟩

theorem loadsMeet_load {cond : Memory → AddrSpace → Int → Prop} [∀ m a v, Decidable (cond m a v)] {v : Int}
    (ha : s.spaces i = some a) (hcond : cond s.memory a v) : LoadsMeet cond s ⟨fs, .load i v⟩ := by
  intro fuel x hx
  simpa only [Vm.step, Vm.onSpace, ha, Vm.guarded, if_pos hcond] using hx

/-- Process `0` has loaded its first page after power-on. -/
theorem exists_onePage : ∃ (s : Vm) (a : AddrSpace), s.spaces 0 = some a ∧ s.frame (0, 0) = some 0 ∧
    (∀ j, j ≠ 0 → s.spaces j = none) ∧ Reachable Vm.Booted LifeStep LeavesNothing s := by
  obtain ⟨s, hboot, -⟩ := Vm.exists_booted
  obtain ⟨a, ha, hblank, hpages, -⟩ := blank_construct []
  obtain ⟨-, -, htable, -⟩ := construct_eq_ok ha
  have h1 : Reachable Vm.Booted LifeStep LeavesNothing (s.set 0 a s.memory) :=
    Reachable.next (l := .call ⟨onlyFile blankFile, .construct 0 (fun _ => 0) (fun _ => 0#32) []⟩)
      (Reachable.start hboot) ⟨fun _ _ hx => hx, loadsMeet_spared _ _⟩
      ⟨⟨0, _, Vm.step_build 0 _ ha⟩, fun i _ _ _ _ => hboot.spaces i⟩
  have hload : loadPage (onlyFile blankFile) 0 (s.set 0 a s.memory).memory a (0 : ℕ) = _ :=
    hboot.load_blank ha hblank hpages
  have hspace := Vm.set_spaces s 0 a s.memory
  have hafresh : LoadsAfresh (s.set 0 a s.memory).memory a (0 : ℕ) :=
    Or.inr (Or.inr (Or.inr (Or.inl (by rw [htable]; rfl))))
  have h2 : Reachable Vm.Booted LifeStep LeavesNothing _ :=
    Reachable.next (l := .call ⟨onlyFile blankFile, .load 0 (0 : ℕ)⟩) h1
      ⟨loadsMeet_load hspace hafresh, loadsMeet_spared _ _⟩
      ⟨⟨0, _, Vm.step_load (onlyFile blankFile) hspace hload⟩, fun _ _ _ _ hop => VmOp.noConfusion hop⟩
  refine ⟨_, a.resident 0 0, Vm.set_spaces _ 0 _ _, ?_, ?_, h2⟩
  · have hpos : 0 < (a.resident 0 0).numPages := hpages ▸ Nat.zero_lt_succ 31
    rw [vm_frame_eq (Vm.set_spaces _ 0 _ _), frame_eq_some hpos]
    simp [AddrSpace.resident]
  · intro j hj
    rw [Vm.set_spaces_of_ne _ hj, Vm.set_spaces_of_ne _ hj]
    exact hboot.spaces j

/-- A second process that comes and goes without a page. -/
theorem frames_conserved_twoProcesses : ∃ s : Vm, s.frame (0, 0) = some 0 ∧ s.spaces 1 = none ∧ Conserved s := by
  obtain ⟨s, a, ha, hframe, hothers, h⟩ := exists_onePage
  obtain ⟨b, hb, -⟩ := blank_construct []
  obtain ⟨-, -, htable, -⟩ := construct_eq_ok hb
  have h1 : Reachable Vm.Booted LifeStep LeavesNothing (s.set 1 b s.memory) :=
    Reachable.next (l := .call ⟨onlyFile blankFile, .construct 1 (fun _ => 0) (fun _ => 0#32) []⟩) h
      ⟨fun _ _ hx => hx, loadsMeet_spared _ _⟩ ⟨⟨0, _, Vm.step_build 1 _ hb⟩, by
        intro i junk words name hop
        cases hop
        exact hothers 1 (by decide)⟩
  have hspace := Vm.set_spaces s 1 b s.memory
  have hnone : ∀ v, (s.set 1 b s.memory).frame (1, v) = none ∧ (s.set 1 b s.memory).sector (1, v) = none := by
    intro v
    refine ⟨?_, ?_⟩
    · rw [vm_frame_eq hspace, frame_eq_none (by rw [htable]; rfl)]
    · simp only [Vm.sector, hspace, Option.bind_some, sector_construct hb]
  have h2 : Reachable Vm.Booted LifeStep LeavesNothing ((s.set 1 b s.memory).terminate 1) :=
    Reachable.next (l := .terminate 1) h1 hnone ⟨b, hspace, rfl⟩
  refine ⟨_, ?_, terminate_spaces _ 1, frames_conserved h2⟩
  rw [← hframe]
  simp [Vm.frame, Vm.terminate, Vm.set]

/-- A process loads one page and ends: its frame stays in use, and no live process holds it. -/
theorem terminate_leaks_frame :
    ∃ s : Vm, Reachable Vm.Booted LifeStep (fun _ _ => True) s ∧ (∀ i, s.spaces i = none) ∧ s.memory.InUse 0 ∧
      ¬ Conserved s := by
  obtain ⟨s, a, ha, hframe, hothers, h⟩ := exists_onePage
  have hused : s.memory.InUse 0 := (LifeInv.of_reachable h).frames.used hframe
  have hempty : ∀ i, (s.terminate 0).spaces i = none := by
    intro i
    by_cases hi : i = 0
    · rw [hi, terminate_spaces]
    · rw [terminate_spaces_of_ne s hi]
      exact hothers i hi
  refine ⟨s.terminate 0, .next (l := .terminate 0) (h.mono fun _ _ _ => trivial) trivial ⟨a, ha, rfl⟩, hempty,
    hused, ?_⟩
  intro hconserved
  have hnone : {k | (s.terminate 0).frame k ≠ none} = ∅ := by
    ext k
    simp [Vm.frame, hempty]
  have hcount := hconserved.frames
  rw [hnone, Set.encard_empty, Set.encard_eq_zero] at hcount
  exact Set.eq_empty_iff_forall_notMem.mp hcount 0 hused

end Nachos
