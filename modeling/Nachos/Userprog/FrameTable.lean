import Nachos.Library.Placement
import Nachos.Userprog.Eviction
import Nachos.Userprog.Vm

/-! # The frame table

Each page of each process is placed in a frame or not, and `available_pages` says which frames are in
use. As long as `load_page` finds a frame without a victim the placement is exclusive and every valid
entry has a frame. A clean victim keeps its valid bit when it loses its frame. -/
set_option autoImplicit false

namespace Nachos
open Buffer Execution Placement

variable {a a' : AddrSpace} {s : Vm} {i v : ℕ} {m : Memory} {fs : Programs} {junk : Image} {words : ℕ → BitVec 32}
  {name : FileName}

/-! ## Placement of pages -/

/-- The frame of page `v`, if it has one. -/
def AddrSpace.frame (a : AddrSpace) (v : ℕ) : Option ℕ :=
  if v < a.numPages ∧ 0 ≤ (a.pageTable v).physicalPage then some (a.pageTable v).physicalPage.toNat
  else none

/-- The frame of a page of a process. -/
def Vm.frame (s : Vm) (k : ℕ × ℕ) : Option ℕ :=
  (s.spaces k.1).bind fun a => a.frame k.2

def Memory.InUse (m : Memory) (f : ℕ) : Prop := f < numPhysPages ∧ m.availablePages f ≠ 0

theorem frame_eq_some (hv : v < a.numPages) (f : ℕ) : a.frame v = some f ↔ (a.pageTable v).physicalPage = f := by
  unfold AddrSpace.frame
  constructor
  · intro h
    split at h
    · have hf := Option.some.inj h
      omega
    · cases h
  · intro h
    rw [if_pos ⟨hv, by omega⟩, h, Int.toNat_natCast]

theorem vm_frame_eq (ha : s.spaces i = some a) (v : ℕ) : s.frame (i, v) = a.frame v := by
  simp [Vm.frame, ha]

theorem frame_set_other (s : Vm) (a : AddrSpace) (m : Memory) {k : ℕ × ℕ} (hk : k.1 ≠ i) :
    (s.set i a m).frame k = s.frame k := by
  simp [Vm.frame, Vm.set, Function.update_of_ne hk]

/-- A change of the entries that leaves the frames alone. -/
theorem frame_set_same (ha : s.spaces i = some a) (m : Memory) (hprog : a.SameProgram a')
    (hframes : ∀ v, (a'.pageTable v).physicalPage = (a.pageTable v).physicalPage) :
    (s.set i a' m).frame = s.frame := by
  funext k
  by_cases hk : k.1 = i
  · obtain ⟨j, v⟩ := k
    dsimp only at hk
    subst hk
    rw [vm_frame_eq (Vm.set_spaces s j a' m), vm_frame_eq ha]
    simp only [AddrSpace.frame, hprog.numPages, hframes]
  · exact frame_set_other s a' m hk

theorem frame_set_update (ha : s.spaces i = some a) (m : Memory) (w : ℕ) (e : TranslationEntry) :
    (s.set i (a.setEntry w e) m).frame = Function.update s.frame (i, w) ((a.setEntry w e).frame w) := by
  funext k
  by_cases hk : k.1 = i
  · obtain ⟨j, v⟩ := k
    dsimp only at hk
    subst hk
    rw [vm_frame_eq (Vm.set_spaces s j _ m)]
    by_cases hv : v = w
    · subst hv
      rw [Function.update_self]
    · have hne : (j, v) ≠ (j, w) := by
        intro h
        exact hv (Prod.mk.inj h).2
      rw [Function.update_of_ne hne, vm_frame_eq ha]
      simp only [AddrSpace.frame, setEntry_pageTable, Function.update_of_ne hv]
      rfl
  · have hne : k ≠ (i, w) := by
      rintro rfl
      exact hk rfl
    rw [frame_set_other s _ m hk, Function.update_of_ne hne]

theorem frame_set_entry (ha : s.spaces i = some a) (m : Memory) {w f : ℕ} (hw : w < a.numPages) {e : TranslationEntry}
    (he : e.physicalPage = f) : (s.set i (a.setEntry w e) m).frame = Function.update s.frame (i, w) (some f) := by
  have hframe : (a.setEntry w e).frame w = some f := by
    rw [frame_eq_some (show w < (a.setEntry w e).numPages from hw), setEntry_pageTable, Function.update_self]
    exact he
  rw [frame_set_update ha, hframe]

theorem frame_eq_none (h : (a.pageTable v).physicalPage = -1) : a.frame v = none := by
  unfold AddrSpace.frame
  rw [if_neg (by omega)]

theorem frame_set_drop (ha : s.spaces i = some a) (m : Memory) (w : ℕ) {e : TranslationEntry}
    (he : e.physicalPage = -1) : (s.set i (a.setEntry w e) m).frame = Function.update s.frame (i, w) none := by
  rw [frame_set_update ha, frame_eq_none (by rw [setEntry_pageTable, Function.update_self, he])]

/-- A free frame is none that a page has. -/
theorem frame_ne_free {κ : Type} {page : κ → Option ℕ} {frame : ℕ} (h : Exclusive page m.InUse)
    (hfree : firstFree m = some frame) (k : κ) (g : ℕ) (hk : page k = some g) : g ≠ frame := by
  rintro rfl
  exact (h.used hk).2 (firstFree_eq_some.mp hfree).2.1

/-- The frames of a new process's predecessor are no longer placed. -/
theorem exclusive_build {used : ℕ → Prop} (h : Exclusive s.frame used) (i : ℕ)
    (hbuild : AddrSpace.construct fs junk words name = .ok a) : Exclusive (s.set i a s.memory).frame used := by
  obtain ⟨-, -, htable, -⟩ := construct_eq_ok hbuild
  apply h.restrict
  rintro ⟨j, v⟩ f hf
  by_cases hj : j = i
  · subst hj
    rw [vm_frame_eq (Vm.set_spaces s j a s.memory)] at hf
    simp [AddrSpace.frame, htable, TranslationEntry.absent] at hf
  · rwa [frame_set_other s a s.memory hj] at hf

/-! ## Loads that need no victim -/

/-- The page needs no frame, has one, or finds one free. -/
def HasFrame (m : Memory) (a : AddrSpace) (virtPage : Int) : Prop :=
  virtPage < 0 ∨ (a.numPages : Int) ≤ virtPage ∨ (a.pageTable virtPage.toNat).valid = true ∨
    (a.pageTable virtPage.toNat).physicalPage ≠ -1 ∨ (firstFree m).isSome = true

instance (m : Memory) (a : AddrSpace) (virtPage : Int) : Decidable (HasFrame m a virtPage) :=
  inferInstanceAs (Decidable (_ ∨ _ ∨ _ ∨ _ ∨ _))

/-- What such a load does to the page table and to the use counts. -/
theorem loadPage_hasFrame {fuel : ℕ} {m' : Memory} {v r : Int} (hframe : HasFrame m a v)
    (hload : loadPage fs fuel m a v = .ok (r, a', m')) :
    (a' = a ∧ m' = m) ∨ ∃ (w : ℕ) (e : TranslationEntry), w < a.numPages ∧ a' = a.setEntry w e ∧
      ((∃ f, firstFree m = some f ∧ e.physicalPage = f ∧
          m'.availablePages = Function.update m.availablePages f 1) ∨
        e.physicalPage = (a.pageTable w).physicalPage ∧ e.physicalPage ≠ -1 ∧
          m'.availablePages = m.availablePages) := by
  rcases loadPage_cases hload with hsame | ⟨w, rfl, hw, hinvalid, a1, m1, htake, hfill⟩
  · exact Or.inl hsame
  · right
    obtain ⟨⟨mem, hmem⟩, hentry⟩ := fillPage_cases hfill
    unfold takeFrame at htake
    cases hfree : firstFree m with
    | some f =>
      simp only [hfree] at htake
      cases htake
      rcases hentry with ⟨-, rfl⟩ | ⟨-, rfl⟩
      · exact ⟨w, _, hw, rfl, Or.inl ⟨f, rfl, rfl, by rw [hmem]⟩⟩
      · refine ⟨w, _, hw, mapped_valid a w f, Or.inl ⟨f, rfl, rfl, by rw [hmem]⟩⟩
    | none =>
      have hphys : (a.pageTable w).physicalPage ≠ -1 := by
        simpa [HasFrame, hfree, hinvalid, Int.not_lt.mpr (Int.natCast_nonneg w),
          Nat.not_le.mpr hw] using hframe
      simp only [hfree, if_neg hphys] at htake
      cases htake
      rcases hentry with ⟨-, rfl⟩ | ⟨-, rfl⟩
      · refine ⟨w, a'.pageTable w, hw, ?_, Or.inr ⟨rfl, hphys, by rw [hmem]⟩⟩
        simp [AddrSpace.setEntry]
      · exact ⟨w, _, hw, rfl, Or.inr ⟨rfl, hphys, by rw [hmem]⟩⟩

/-! ## The invariant -/

structure FrameInv (s : Vm) : Prop where
  ok : s.Ok
  resident : ∀ i a v, s.spaces i = some a → v < a.numPages → (a.pageTable v).valid = true →
    (a.pageTable v).physicalPage ≠ -1
  exclusive : Exclusive s.frame s.memory.InUse

theorem FrameInv.of_set (h : FrameInv s) (hok : a.Ok)
    (hres : ∀ v < a.numPages, (a.pageTable v).valid = true → (a.pageTable v).physicalPage ≠ -1)
    (hex : Exclusive (s.set i a m).frame m.InUse) : FrameInv (s.set i a m) where
  ok := h.ok.set hok m
  resident j b v hb hv hvalid := by
    rcases Vm.spaces_set_eq_some hb with ⟨rfl, rfl⟩ | ⟨-, hb⟩
    · exact hres v hv hvalid
    · exact h.resident j b v hb hv hvalid
  exclusive := hex

theorem FrameInv.build (h : FrameInv s) (i : ℕ)
    (hbuild : AddrSpace.construct fs junk words name = .ok a) : FrameInv (s.set i a s.memory) := by
  obtain ⟨hok, -, htable, -⟩ := construct_eq_ok hbuild
  apply h.of_set hok
  · intro v _ hvalid
    rw [htable] at hvalid
    cases hvalid
  · exact exclusive_build h.exclusive i hbuild

theorem FrameInv.load (h : FrameInv s) {m' : Memory} {fuel : ℕ} {v r : Int} (ha : s.spaces i = some a)
    (hframe : HasFrame s.memory a v) (hload : loadPage fs fuel s.memory a v = .ok (r, a', m')) :
    FrameInv (s.set i a' m') := by
  have haok := h.ok i a ha
  have hok' := (loadPage_ok haok hload).1
  rcases loadPage_hasFrame hframe hload with ⟨rfl, rfl⟩ | ⟨w, e, hw, rfl, hcase⟩
  · rwa [Vm.set_self ha]
  · have hres : e.physicalPage ≠ -1 → ∀ u < a.numPages, ((a.setEntry w e).pageTable u).valid = true →
        ((a.setEntry w e).pageTable u).physicalPage ≠ -1 := by
      intro he u hu hvalid
      rw [setEntry_pageTable] at hvalid ⊢
      by_cases huw : u = w
      · subst huw
        rwa [Function.update_self]
      · rw [Function.update_of_ne huw] at hvalid ⊢
        exact h.resident i a u ha hu hvalid
    rcases hcase with ⟨f, hfree, he, hcount⟩ | ⟨he, hne, hcount⟩
    · obtain ⟨hf, hzero, -⟩ := firstFree_eq_some.mp hfree
      apply h.of_set hok' (hres (by omega))
      rw [frame_set_entry ha m' hw he]
      apply h.exclusive.take (i, w)
      · exact fun hused => hused.2 hzero
      · exact ⟨hf, by rw [hcount]; simp⟩
      · rintro f' ⟨hf', hused⟩
        refine ⟨hf', ?_⟩
        rw [hcount]
        by_cases hff : f' = f
        · subst hff
          simp
        · rwa [Function.update_of_ne hff]
    · apply h.of_set hok' (hres hne)
      rw [frame_set_same ha m' (setEntry_sameProgram a w e)]
      · have hsame : m'.InUse = s.memory.InUse := by
          unfold Memory.InUse
          rw [hcount]
        rw [hsame]
        exact h.exclusive
      · intro u
        rw [setEntry_pageTable]
        by_cases huw : u = w
        · subst huw
          rw [Function.update_self, he]
        · rw [Function.update_of_ne huw]

theorem touched_entry (a : AddrSpace) (v : ℕ) (w : Bool) (u : ℕ) :
    ((a.setEntry v ((a.pageTable v).touched w)).pageTable u).physicalPage = (a.pageTable u).physicalPage ∧
      ((a.setEntry v ((a.pageTable v).touched w)).pageTable u).valid = (a.pageTable u).valid := by
  rw [setEntry_pageTable]
  by_cases huv : u = v
  · subst huv
    rw [Function.update_self]
    exact ⟨rfl, rfl⟩
  · rw [Function.update_of_ne huv]
    exact ⟨rfl, rfl⟩

theorem FrameInv.touch (h : FrameInv s) (w : Bool) (ha : s.spaces i = some a) (hv : v < a.numPages) :
    FrameInv (s.set i (a.setEntry v ((a.pageTable v).touched w)) s.memory) := by
  have he := (h.ok i a ha).entry v hv
  have hentry := touched_entry a v w
  have htouched : ((a.pageTable v).touched w).Ok v := ⟨he.index, he.frame, he.writable⟩
  apply h.of_set ((h.ok i a ha).setEntry htouched)
  · intro u hu hvalid
    rw [(hentry u).1]
    rw [(hentry u).2] at hvalid
    exact h.resident i a u ha hu hvalid
  · rw [frame_set_same ha s.memory (setEntry_sameProgram a v _) fun u => (hentry u).1]
    exact h.exclusive

theorem keeps_frameInv (fs : Programs) (fuel : ℕ) :
    Vm.Keeps fs (Vm.guarded HasFrame (loadPage fs fuel)) FrameInv where
  build _ i _ _ _ _ h hbuild := h.build i hbuild
  load _ _ _ _ _ _ _ h ha hload := h.load ha (Vm.guarded_eq_ok.mp hload).1 (Vm.guarded_eq_ok.mp hload).2
  bytes _ _ h := ⟨h.ok, h.resident, h.exclusive⟩
  touch _ _ _ _ w h ha hv := h.touch w ha hv

theorem loadPage_fuel {v : Int} (h : HasFrame m a v) (fs : Programs) (fuel fuel' : ℕ) :
    loadPage fs fuel m a v = loadPage fs fuel' m a v := by
  unfold loadPage
  split
  · rfl
  · next hrange =>
    split
    · rfl
    · split
      · rfl
      · next hinvalid =>
        have htake : takeFrame fuel m a v.toNat = takeFrame fuel' m a v.toNat := by
          unfold takeFrame
          cases hfree : firstFree m with
          | some f => rfl
          | none =>
            dsimp only
            rw [if_neg, if_neg] <;>
            · intro hphys
              rcases h with hv | hv | hv | hv | hv
              · omega
              · omega
              · exact hinvalid hv
              · exact hv hphys
              · rw [hfree] at hv
                cases hv
        rw [htake]

/-- Every load that the call makes finds a frame without a victim. -/
def FramesSuffice (s : Vm) (q : Vm.Request) : Prop :=
  ∃ fuel result s', s.step q.fs (Vm.guarded HasFrame (loadPage q.fs fuel)) q.op = .ok (result, s')

theorem guarded_loadsAs {cond : Memory → AddrSpace → Int → Prop} [∀ m a v, Decidable (cond m a v)]
    (hcond : ∀ m a v, cond m a v → HasFrame m a v) (fs : Programs) (fuel fuel' : ℕ) :
    Vm.LoadsAs (Vm.guarded cond (loadPage fs fuel)) (loadPage fs fuel') := by
  intro m a v x hx
  obtain ⟨hmet, hx⟩ := Vm.guarded_eq_ok.mp hx
  rw [loadPage_fuel (hcond m a v hmet) fs fuel' fuel]
  exact hx

theorem FrameInv.step {s' : Vm} {q : Vm.Request} (h : FrameInv s) (hframes : FramesSuffice s q)
    (hstep : Vm.Step s q s') : FrameInv s' := by
  obtain ⟨fuel, result, s1, hguarded⟩ := hframes
  obtain ⟨fuel', result', hstep⟩ := hstep
  have hsame := (guarded_loadsAs (fun _ _ _ => id) q.fs fuel fuel').step hguarded
  rw [hstep] at hsame
  cases hsame
  exact (keeps_frameInv q.fs fuel).step h hguarded

theorem booted_frameInv (h : s.Booted) : FrameInv s where
  ok i a ha := by
    rw [h.spaces i] at ha
    cases ha
  resident i a v ha := by
    rw [h.spaces i] at ha
    cases ha
  exclusive := by
    constructor <;> intro k <;> simp [Vm.frame, h.spaces]

/-- Every valid entry has a frame that is counted as in use, and no two of them have the same one. -/
structure FrameTable (s : Vm) : Prop where
  mapped : ∀ i a v, s.spaces i = some a → v < a.numPages → (a.pageTable v).valid = true →
    IsFrame (a.pageTable v).physicalPage ∧ s.memory.availablePages (a.pageTable v).physicalPage.toNat ≠ 0
  distinct : ∀ i a v j b w, s.spaces i = some a → s.spaces j = some b → v < a.numPages → w < b.numPages →
    (a.pageTable v).valid = true → (b.pageTable w).valid = true →
    (a.pageTable v).physicalPage = (b.pageTable w).physicalPage → i = j ∧ v = w

theorem FrameInv.valid_frame (h : FrameInv s) (ha : s.spaces i = some a) (hv : v < a.numPages)
    (hvalid : (a.pageTable v).valid = true) :
    IsFrame (a.pageTable v).physicalPage ∧ s.frame (i, v) = some (a.pageTable v).physicalPage.toNat := by
  have hframe := ((h.ok i a ha).entry v hv).frame.resolve_left (h.resident i a v ha hv hvalid)
  refine ⟨hframe, ?_⟩
  rw [vm_frame_eq ha, frame_eq_some hv, Int.toNat_of_nonneg hframe.1]

/-- In every run in which no load needs a victim, the frame table is consistent in every state. -/
theorem frameTable_of_framesSuffice (h : Reachable Vm.Booted Vm.Step FramesSuffice s) : FrameTable s := by
  have hinv : FrameInv s := Reachable.invariant FrameInv (fun _ => booted_frameInv)
    (fun _ _ _ hs hq hstep => hs.step hq hstep) h
  constructor
  · intro i a v ha hv hvalid
    obtain ⟨hframe, hplace⟩ := hinv.valid_frame ha hv hvalid
    exact ⟨hframe, (hinv.exclusive.used hplace).2⟩
  · intro i a v j b w ha hb hv hw hvalid hvalid' hsame
    obtain ⟨-, hplace⟩ := hinv.valid_frame ha hv hvalid
    obtain ⟨-, hplace'⟩ := hinv.valid_frame hb hw hvalid'
    rw [← hsame] at hplace'
    exact Prod.mk.inj (hinv.exclusive.inj hplace hplace')

/-- The first page of a blank program is loaded after power-on, with a frame that is free. -/
theorem Vm.Booted.step_load_blank (hboot : s.Booted)
    (ha : AddrSpace.construct (onlyFile blankFile) junk words name = .ok a) (hblank : a.noffH = blankHeader)
    (hpages : a.numPages = 32) :
    ∃ x, (s.set 0 a s.memory).step (onlyFile blankFile) (loadPage (onlyFile blankFile) 0) (.load 0 (0 : ℕ)) =
        .ok (x, (s.set 0 a s.memory).set 0 (a.resident 0 0) ((s.memory.taken 0).zeroed 0)) ∧
      (s.set 0 a s.memory).step (onlyFile blankFile) (Vm.guarded HasFrame (loadPage (onlyFile blankFile) 0))
        (.load 0 (0 : ℕ)) = .ok (x, (s.set 0 a s.memory).set 0 (a.resident 0 0) ((s.memory.taken 0).zeroed 0)) := by
  have hload : loadPage (onlyFile blankFile) 0 (s.set 0 a s.memory).memory a (0 : ℕ) = _ :=
    hboot.load_blank ha hblank hpages
  have hfree : Nachos.firstFree (s.set 0 a s.memory).memory = some 0 := hboot.firstFree
  have hframe : HasFrame (s.set 0 a s.memory).memory a (0 : ℕ) :=
    Or.inr (Or.inr (Or.inr (Or.inr (by rw [hfree]; rfl))))
  have hspace := Vm.set_spaces s 0 a s.memory
  exact ⟨_, Vm.step_load _ hspace hload, Vm.step_load _ hspace (Vm.guarded_eq_ok.mpr ⟨hframe, hload⟩)⟩

/-- One page loaded after power-on. -/
theorem frameTable_of_framesSuffice_onePage :
    ∃ s a, s.spaces 0 = some a ∧ (a.pageTable 0).valid = true ∧ FrameTable s := by
  obtain ⟨s, hboot, -⟩ := Vm.exists_booted
  obtain ⟨a, ha, hblank, hpages, -⟩ := blank_construct []
  have h1 : Reachable Vm.Booted Vm.Step FramesSuffice (s.set 0 a s.memory) :=
    Reachable.next (l := ⟨onlyFile blankFile, .construct 0 (fun _ => 0) (fun _ => 0#32) []⟩)
      (Reachable.start hboot) ⟨0, _, _, Vm.step_build 0 _ ha⟩ ⟨0, _, Vm.step_build 0 _ ha⟩
  obtain ⟨x, hstep, hguarded⟩ := hboot.step_load_blank ha hblank hpages
  have h2 : Reachable Vm.Booted Vm.Step FramesSuffice _ :=
    Reachable.next (l := ⟨onlyFile blankFile, .load 0 (0 : ℕ)⟩) h1 ⟨0, _, _, hguarded⟩ ⟨0, _, hstep⟩
  refine ⟨_, a.resident 0 0, Vm.set_spaces _ 0 _ _, ?_, frameTable_of_framesSuffice h2⟩
  simp [AddrSpace.resident]

/-! ## A clean victim -/

/-- States reached by page faults alone. -/
inductive Faults (fs : Programs) (s : Vm) : Vm → Prop
  | refl : Faults fs s s
  | load {s' : Vm} {i fuel : ℕ} {a a' : AddrSpace} {m' : Memory} {v r : Int} (h : Faults fs s s')
      (ha : s'.spaces i = some a) (hload : loadPage fs fuel s'.memory a v = .ok (r, a', m')) :
      Faults fs s (s'.set i a' m')

theorem Faults.reached {s' : Vm} (h : Faults fs s s') (hs : s.Reached) : s'.Reached := by
  induction h with
  | refl => exact hs
  | load _ ha hload ih => exact ih.load ha hload

/-- Process `0` loads its pages until the frames from `1` to `k` are taken. -/
theorem faults_crowded (ha : s.spaces 0 = some a) (hok : a.Ok) (hblank : a.noffH = blankHeader)
    (hpages : a.numPages = 32) (hempty : ∀ v < 32, (a.pageTable v).valid = false)
    (hcount : ∀ i < 32, s.memory.availablePages i = if i < 1 then 1 else 0) (k : ℕ) (hk : k ≤ 31) :
    ∃ (s' : Vm) (a' : AddrSpace), Faults (onlyFile blankFile) s s' ∧ s'.spaces 0 = some a' ∧ a'.Ok ∧
      a'.noffH = blankHeader ∧ a'.numPages = 32 ∧
      (∀ v < 32, k ≤ v → (a'.pageTable v).valid = false) ∧
      (∀ i < 32, s'.memory.availablePages i = if i < k + 1 then 1 else 0) ∧
      ∀ j, j ≠ 0 → s'.spaces j = s.spaces j := by
  induction k with
  | zero => exact ⟨s, a, .refl, ha, hok, hblank, hpages, fun v hv _ => hempty v hv, hcount, fun _ _ => rfl⟩
  | succ k ih =>
    obtain ⟨s1, a1, hs1, ha1, hok1, hblank1, hpages1, hempty1, hcount1, hother1⟩ := ih (by omega)
    have hfree : firstFree s1.memory = some (k + 1) := by
      apply firstFree_eq_some.mpr
      refine ⟨by simp only [numPhysPages]; omega, ?_, ?_⟩
      · rw [hcount1 (k + 1) (by omega), if_neg (by omega)]
      · intro j hj
        rw [hcount1 j (by omega), if_pos hj]
        decide
    have hload : loadPage (onlyFile blankFile) 0 s1.memory a1 (k : ℕ) = _ :=
      loadPage_blank hok1 (by omega) (hempty1 k (by omega) (le_refl k)) hfree
        (blank_not_onPage hblank1 k).1 (blank_not_onPage hblank1 k).2 0
    refine ⟨_, a1.resident k (k + 1), hs1.load ha1 hload, Vm.set_spaces s1 0 _ _,
      (loadPage_ok hok1 hload).1, hblank1, hpages1, ?_, ?_, ?_⟩
    · intro v hv hkv
      have hne : v ≠ k := by omega
      simp only [AddrSpace.resident, setEntry_pageTable, Function.update_of_ne hne]
      exact hempty1 v hv (by omega)
    · intro i hi
      show Function.update s1.memory.availablePages (k + 1) 1 i = _
      by_cases hik : i = k + 1
      · subst hik
        rw [Function.update_self, if_pos (by omega)]
      · rw [Function.update_of_ne hik, hcount1 i hi]
        split <;> split <;> omega
    · intro j hj
      rw [← hother1 j hj]
      exact Function.update_of_ne hj _ _

section Clean

variable {f : ℕ}

/-- With no other page valid the page at the victim index goes; being clean it stays valid. -/
theorem storePage_clean (h : a.Ok) (hpos : 0 < a.numPages) (hvictim : a.victumOffset = 0) (hf : f < numPhysPages)
    (hframe : (a.pageTable 0).physicalPage = f) (hclean : (a.pageTable 0).dirty = false)
    (hcount : m.availablePages f = 1) (habsent : ∀ u < a.numPages, u ≠ 0 → (a.pageTable u).valid = false) :
    ∃ a' m', storePage 1 m a = .ok ((f : Int), a', m') ∧ a'.victumOffset = -1 ∧
      a'.pageTable = Function.update a.pageTable 0 { a.pageTable 0 with physicalPage := -1 } := by
  have hwritable := (h.entry 0 hpos).writable
  have hrelease : m.setFrameCount f 0 =
      .ok { m with availablePages := Function.update m.availablePages f 0 } := by
    unfold Memory.setFrameCount
    rw [if_pos ⟨by omega, by omega⟩, Int.toNat_natCast]
  have htry : tryStorePage m a = .ok ((f : Int),
      { a with victumOffset := -1,
               pageTable := Function.update a.pageTable 0 { a.pageTable 0 with physicalPage := -1 } },
      { m with availablePages := Function.update m.availablePages f 0 }) := by
    rw [tryStorePage_eq, chooseVictim_first h hpos hvictim hf hframe hcount habsent, ok_bind]
    unfold pushVictim pushOut
    dsimp only
    rw [if_neg (by simp [hclean, hwritable])]
    unfold releaseFrame
    dsimp only
    rw [hframe, hrelease]
    rfl
  have hstore : storePage 1 m a = tryStorePage m a := by
    unfold storePage
    rw [htry, ok_bind]
    dsimp only
    rw [if_neg (by omega)]
    rfl
  exact ⟨_, _, hstore.trans htry, rfl, rfl⟩

theorem loadPage_drops_clean (h : a.Ok) (hblank : a.noffH = blankHeader) (hvictim : a.victumOffset = 0)
    (hf : f < numPhysPages) (hframe : (a.pageTable 0).physicalPage = f) (hclean : (a.pageTable 0).dirty = false)
    (hcount : m.availablePages f = 1) (hfull : firstFree m = none)
    (habsent : ∀ u < a.numPages, u ≠ 0 → (a.pageTable u).valid = false) (hv : v < a.numPages) (hv0 : v ≠ 0)
    (hnone : (a.pageTable v).physicalPage = -1) :
    ∃ a' m', loadPage fs 1 m a v = .ok ((f : Int), a', m') ∧
      a'.pageTable 0 = { a.pageTable 0 with physicalPage := -1 } := by
  obtain ⟨a1, m1, hstore, -, htable⟩ := storePage_clean h (by omega) hvictim hf hframe hclean hcount habsent
  obtain ⟨a2, ha2⟩ : ∃ a2, a2 = a1.setEntry v { a1.pageTable v with physicalPage := f, use := true } := ⟨_, rfl⟩
  have htake : takeFrame 1 m a v = .ok (a2, m1.taken f) := by
    unfold takeFrame
    rw [hfull]
    dsimp only
    rw [if_pos hnone, hstore, ok_bind, ha2]
    dsimp only
    unfold Memory.setFrameCount
    rw [if_pos ⟨by omega, by omega⟩, Int.toNat_natCast]
    rfl
  obtain ⟨hok, hprog, -, -⟩ := (takeFrame_meets 1 m h hv).of_ok htake
  have hblank' : a2.noffH = blankHeader := hprog.noffH.trans hblank
  have hframe' : (a2.pageTable v).physicalPage = f := by simp [ha2]
  have hfill : fillPage fs (m1.taken f) a2 v =
      .ok ((f : Int), a2.setEntry v { a2.pageTable v with valid := true }, (m1.taken f).zeroed f) :=
    fillPage_of_segments hok (by rw [hprog.numPages]; exact hv) hf hframe'
      (loadSegment_absent (blank_not_onPage hblank' v).1) (loadSegment_absent (blank_not_onPage hblank' v).2)
  refine ⟨a2.setEntry v { a2.pageTable v with valid := true }, (m1.taken f).zeroed f, ?_, ?_⟩
  · unfold loadPage
    rw [if_neg (by omega), Int.toNat_natCast, if_neg (by rw [(h.entry v hv).index]; simp),
      if_neg (by rw [habsent v hv hv0]; simp), htake, ok_bind]
    exact hfill
  · simp only [ha2, setEntry_pageTable, Function.update_of_ne hv0.symm, htable, Function.update_self]

end Clean

/-- After power-on process `1` has its first page in frame `0`; then process `0` takes the other frames. -/
theorem booted_full (hboot : s.Booted) (hok : a.Ok) (hblank : a.noffH = blankHeader) (hpages : a.numPages = 32)
    (htable : a.pageTable = TranslationEntry.absent)
    (hm : m.availablePages = Function.update s.memory.availablePages 0 1) :
    ∃ s', Faults (onlyFile blankFile) (((s.set 0 a s.memory).set 1 a s.memory).set 1 (a.resident 0 0) m) s' ∧
      s'.spaces 1 = some (a.resident 0 0) ∧ firstFree s'.memory = none ∧ s'.memory.availablePages 0 = 1 := by
  have hspace : (((s.set 0 a s.memory).set 1 a s.memory).set 1 (a.resident 0 0) m).spaces 0 = some a := rfl
  have hcount : ∀ i < 32, m.availablePages i = if i < 1 then 1 else 0 := by
    intro i _
    rw [hm]
    by_cases hi : i = 0
    · subst hi
      rfl
    · rw [Function.update_of_ne hi, hboot.free i, if_neg (by omega)]
  obtain ⟨s', -, hs', -, -, -, -, -, hcount', hother⟩ :=
    faults_crowded hspace hok hblank hpages (fun v _ => by rw [htable]; rfl) hcount 31 (le_refl 31)
  refine ⟨s', hs', ?_, ?_, hcount' 0 (by decide)⟩
  · rw [hother 1 (by decide)]
    exact Vm.set_spaces _ 1 _ _
  · apply firstFree_eq_none.mpr
    intro i hi
    rw [hcount' i hi, if_pos hi]
    decide

/-- The only page of a space whose others have never been loaded. -/
theorem resident_entries (htable : a.pageTable = TranslationEntry.absent) :
    (a.resident 0 0).pageTable 0 = { TranslationEntry.absent 0 with physicalPage := (0 : ℕ), valid := true } ∧
      ∀ u, u ≠ 0 → (a.resident 0 0).pageTable u = TranslationEntry.absent u := by
  constructor
  · simp only [AddrSpace.resident, setEntry_pageTable, Function.update_self, htable]
  · intro u hu
    simp only [AddrSpace.resident, setEntry_pageTable, Function.update_of_ne hu, htable]

/-- The next load of process `1` leaves it with a valid entry without a frame. -/
theorem booted_drop_clean (hboot : s.Booted) (hok : a.Ok) (hblank : a.noffH = blankHeader) (hpages : a.numPages = 32)
    (hvictim : a.victumOffset = 0) (htable : a.pageTable = TranslationEntry.absent)
    (hm : m.availablePages = Function.update s.memory.availablePages 0 1) :
    ∃ (s' : Vm) (b : AddrSpace), Faults (onlyFile blankFile)
        (((s.set 0 a s.memory).set 1 a s.memory).set 1 (a.resident 0 0) m) s' ∧
      s'.spaces 1 = some b ∧ b.numPages = 32 ∧ (b.pageTable 0).valid = true ∧
      (b.pageTable 0).physicalPage = -1 := by
  obtain ⟨s1, hs1, hspace, hfull, hcount⟩ := booted_full hboot hok hblank hpages htable hm
  obtain ⟨hzero, hother⟩ := resident_entries htable
  have hrok : (a.resident 0 0).Ok := hok.resident (by omega) (by decide)
  have hdrop : ∃ b' m', loadPage (onlyFile blankFile) 1 s1.memory (a.resident 0 0) (1 : ℕ) =
      .ok (((0 : ℕ) : Int), b', m') ∧
        b'.pageTable 0 = { (a.resident 0 0).pageTable 0 with physicalPage := -1 } := by
    apply loadPage_drops_clean hrok hblank hvictim (by decide) (by rw [hzero]) (by rw [hzero]; rfl) hcount hfull
      (fun u _ hu => by rw [hother u hu]; rfl) (show 1 < a.numPages by omega) (by decide)
      (by rw [hother 1 (by decide)]; rfl)
  obtain ⟨b', m', hload, hentry⟩ := hdrop
  refine ⟨_, b', hs1.load hspace hload, Vm.set_spaces s1 1 b' m', ?_, ?_, ?_⟩
  · rw [(loadPage_ok hrok hload).2.numPages]
    exact hpages
  · rw [hentry, hzero]
  · rw [hentry]

/-- Two blank programs after power-on, the second one with its first page in frame `0`. -/
theorem exists_booted_pair : ∃ (s : Vm) (a : AddrSpace), s.Booted ∧ a.Ok ∧ a.noffH = blankHeader ∧ a.numPages = 32 ∧
    a.victumOffset = 0 ∧ a.pageTable = TranslationEntry.absent ∧
    (((s.set 0 a s.memory).set 1 a s.memory).set 1 (a.resident 0 0) ((s.memory.taken 0).zeroed 0)).Reached := by
  obtain ⟨s, hboot, -⟩ := Vm.exists_booted
  obtain ⟨a, ha, hblank, hpages, hvictim⟩ := blank_construct []
  obtain ⟨hok, -, htable, -⟩ := construct_eq_ok ha
  have hbuilt := (Vm.Reached.build (Reachable.start hboot) 0 ha).build 1 ha
  have hload : loadPage (onlyFile blankFile) 0 s.memory a (0 : ℕ) = _ := hboot.load_blank ha hblank hpages
  exact ⟨s, a, hboot, hok, hblank, hpages, hvictim, htable, hbuilt.load (Vm.set_spaces _ 1 a _) hload⟩

/-- The entry is valid, and `available_pages` has no index `-1`. -/
theorem valid_without_frame :
    ∃ (s : Vm) (a : AddrSpace), s.Reached ∧ s.spaces 1 = some a ∧ 0 < a.numPages ∧
      (a.pageTable 0).valid = true ∧ (a.pageTable 0).physicalPage = -1 := by
  obtain ⟨s, a, hboot, hok, hblank, hpages, hvictim, htable, hreached⟩ := exists_booted_pair
  obtain ⟨s', b, hs', hb, hbpages, hvalid, hframe⟩ := booted_drop_clean hboot hok hblank hpages hvictim htable
    (m := (s.memory.taken 0).zeroed 0) rfl
  exact ⟨s', b, hs'.reached hreached, hb, by omega, hvalid, hframe⟩

end Nachos
