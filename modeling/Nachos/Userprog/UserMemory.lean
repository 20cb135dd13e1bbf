import Nachos.Userprog.Lifetime
import Nachos.Userprog.Paging

/-! # User memory as the kernel copies it

The memory of a process is what its pages hold: a page that is in memory holds what its frame does, and one that is not
holds what demand loading will bring. No two pages have one frame in any run, swapping included, so a byte that is stored
in one page changes no other. A range of addresses is mapped if its pages are there or can be loaded without pushing
another page out; `AddrSpace::read` and `AddrSpace::write` on such a range return, read what the process has there and
change what they are told to. -/
set_option autoImplicit false

namespace Nachos
open Buffer Execution Placement

variable {x r v frame : ℕ} {bytes : Int}

/-! ## Frames are not shared -/

structure Vm.Sound (s : Vm) : Prop where
  ok : s.Ok
  exclusive : Exclusive s.frame s.memory.InUse

theorem FrameMove.exclusive {s : Vm} {i : ℕ} {a a' : AddrSpace} {m' : Memory} {w : ℕ}
    (h : FrameMove s.memory a w a' m') (hs : Exclusive s.frame s.memory.InUse) (ha : s.spaces i = some a)
    (hw : w < a.numPages) : Exclusive (s.set i a' m').frame m'.InUse := by
  rcases h.placement ha hw with ⟨hframe, hused⟩ | ⟨f, -, hframe, hunused, hused⟩ | ⟨u, f, hu, -, hframe, hused⟩
  · rw [hframe, hused]
    exact hs
  · rw [hframe]
    exact hs.take (i, w) hunused ((hused f).mpr (Or.inr rfl)) fun f' hf' => (hused f').mpr (Or.inl hf')
  · rw [hframe, hused (hs.used hu)]
    exact hs.move hu

namespace Vm

variable {s : Vm}

theorem Sound.load (h : s.Sound) {i : ℕ} {a a' : AddrSpace} {m' : Memory} {fs : Programs} {fuel : ℕ} {v r : Int}
    (ha : s.spaces i = some a) (hload : loadPage fs fuel s.memory a v = .ok (r, a', m')) : (s.set i a' m').Sound := by
  refine ⟨h.ok.set (loadPage_ok (h.ok i a ha) hload).1 m', ?_⟩
  rcases (loadPage_move hload).2.2.2 with ⟨rfl, rfl⟩ | ⟨w, -, hw, -, hmove⟩
  · rw [set_self ha]
    exact h.exclusive
  · exact hmove.exclusive h.exclusive ha hw

theorem keeps_sound (fs : Programs) (fuel : ℕ) : Keeps fs (loadPage fs fuel) Sound where
  build s i a junk words name h hbuild :=
    ⟨(keeps_ok fs fuel).build s i a junk words name h.ok hbuild, exclusive_build h.exclusive i hbuild⟩
  load s i a v r a' m' h ha hload := h.load ha hload
  bytes s mem h := ⟨h.ok, h.exclusive⟩
  touch s i a v w h ha hv := by
    refine ⟨(keeps_ok fs fuel).touch s i a v w h.ok ha hv, ?_⟩
    have hsame := frame_set_same ha s.memory (setEntry_sameProgram a v _) fun u => (touched_entry a v w u).1
    show Exclusive (s.set i (a.setEntry v ((a.pageTable v).touched w)) s.memory).frame s.memory.InUse
    rw [hsame]
    exact h.exclusive

theorem Reached.sound (h : s.Reached) : s.Sound := by
  refine Reachable.invariant Sound (fun s hboot => ?_) (fun s q s' hs _ hstep => ?_) h
  · have hinv := booted_frameInv hboot
    exact ⟨hinv.ok, hinv.exclusive⟩
  · obtain ⟨fuel, result, hstep⟩ := hstep
    exact (keeps_sound q.fs fuel).step hs hstep

end Vm

/-! ## The memory of a process -/

/-- The frame of a page that is in memory. -/
def AddrSpace.held (a : AddrSpace) (v : ℕ) : Option ℕ := if (a.pageTable v).valid then a.frame v else none

def Vm.held (s : Vm) (k : ℕ × ℕ) : Option ℕ := (s.spaces k.1).bind fun a => a.held k.2

/-- The physical address of a byte of a page that is in memory. -/
def Vm.place (s : Vm) (k : ℕ × ℕ) : Option ℕ := (s.held (k.1, k.2 / 128)).map fun f => f * 128 + k.2 % 128

/-- What the processes have in their memories. -/
def Vm.user (fs : Programs) (s : Vm) : Flat := fun i x =>
  view s.place s.memory.mainMemory (s.image fs) (i, x)

section User
variable {fs : Programs} {s : Vm} {i : ℕ} {a a' : AddrSpace} {m' : Memory}

theorem vm_held_eq (ha : s.spaces i = some a) (v : ℕ) : s.held (i, v) = a.held v := by
  simp [Vm.held, ha]

theorem held_frame {k : ℕ × ℕ} {f : ℕ} (h : s.held k = some f) : s.frame k = some f := by
  unfold Vm.held at h
  unfold Vm.frame
  cases hspace : s.spaces k.1 with
  | none =>
    rw [hspace] at h
    cases h
  | some a =>
    rw [hspace, Option.bind_some] at h
    unfold AddrSpace.held at h
    split at h
    · exact h
    · cases h

theorem place_eq_some {k : ℕ × ℕ} :
    s.place k = some r ↔ ∃ f, s.held (k.1, k.2 / 128) = some f ∧ r = f * 128 + k.2 % 128 := byteAt_eq_some

theorem place_eq_none {k : ℕ × ℕ} : s.place k = none ↔ s.held (k.1, k.2 / 128) = none := byteAt_eq_none

theorem place_phys {k : ℕ × ℕ} (h : s.place k = some r) : s.phys k = some r := by
  obtain ⟨f, hf, hr⟩ := place_eq_some.mp h
  exact phys_eq_some.mpr ⟨f, held_frame hf, hr⟩

theorem Vm.Sound.place (h : s.Sound) : Exclusive s.place fun r => s.memory.InUse (r / 128) :=
  (phys_exclusive h.exclusive).restrict fun _ _ => place_phys

theorem user_of_place (h : s.place (i, x) = some r) : s.user fs i x = s.memory.mainMemory r :=
  view_some h

variable (fs) in
/-- A store into a page that is in memory changes one byte of one process. -/
theorem Vm.Sound.setByte (h : s.Sound) (hx : s.place (i, x) = some r) (c : UInt8) :
    ({ s with memory := s.memory.setByte r c } : Vm).Sound ∧
      ({ s with memory := s.memory.setByte r c } : Vm).user fs =
        Function.update (s.user fs) i (Function.update (s.user fs i) x c) := by
  exact ⟨⟨h.ok, h.exclusive⟩, view_write_pair h.place hx c⟩

theorem held_resident (ha : s.spaces i = some a) (m' : Memory) (hv : v < a.numPages) :
    (s.set i (a.resident v frame) m').held = Function.update s.held (i, v) (some frame) := by
  funext k
  obtain ⟨j, u⟩ := k
  by_cases hj : j = i
  · subst hj
    rw [vm_held_eq (Vm.set_spaces s j _ m')]
    by_cases hu : u = v
    · subst hu
      rw [Function.update_self]
      unfold AddrSpace.held
      rw [if_pos (by simp [AddrSpace.resident])]
      exact (frame_eq_some (show u < (a.resident u frame).numPages from hv) frame).mpr (by simp [AddrSpace.resident])
    · have hne : (j, u) ≠ (j, v) := fun heq => hu (Prod.mk.inj heq).2
      rw [Function.update_of_ne hne, vm_held_eq ha]
      unfold AddrSpace.held AddrSpace.frame
      simp only [AddrSpace.resident, setEntry_pageTable, Function.update_of_ne hu]
      rfl
  · have hne : (j, u) ≠ (i, v) := fun heq => hj (Prod.mk.inj heq).1
    rw [Function.update_of_ne hne]
    unfold Vm.held
    rw [Vm.set_spaces_of_ne s hj]

/-- A page is loaded into a free frame: no process sees a change. -/
theorem Vm.Sound.resident (h : s.Sound) (ha : s.spaces i = some a) (hv : v < a.numPages)
    (hinvalid : (a.pageTable v).valid = false) {f : Executable} (hopen : fs a.filename = some f)
    (hlayout : a.noffH.Layout (a.numPages * 128) f) (hfree : firstFree s.memory = some frame)
    (himage : a.noffH.LoadsImage f v frame) (fuel : ℕ) :
    ∃ mem, loadPage fs fuel s.memory a v =
        .ok ((frame : Int), a.resident v frame, { s.memory.taken frame with mainMemory := mem }) ∧
      (s.set i (a.resident v frame) { s.memory.taken frame with mainMemory := mem }).user fs = s.user fs := by
  obtain ⟨mem, hload, hagree, hbytes⟩ := loadPage_bytes (h.ok i a ha) hv hinvalid hfree hopen hlayout fuel
  refine ⟨mem, hload, ?_⟩
  have hnone : s.held (i, v) = none := by
    rw [vm_held_eq ha]
    unfold AddrSpace.held
    rw [hinvalid]
    rfl
  have hprog : a.SameProgram (a.resident v frame) := setEntry_sameProgram a v _
  have hplace : (s.set i (a.resident v frame) { s.memory.taken frame with mainMemory := mem }).held =
      Function.update s.held (i, v) (some frame) := held_resident ha _ hv
  have hview : view (byteAt (Function.update s.held (i, v) (some frame))) mem (s.image fs) =
      view (byteAt s.held) s.memory.mainMemory (s.image fs) := by
    refine view_loaded hnone (fun k g hg => frame_ne_free h.exclusive hfree k g (held_frame hg))
      (fun o ho => hagree o (by omega)) fun x hx hx' => ?_
    rw [hbytes x hx hx', (loadsImage_iff hlayout v frame).mp himage x hx hx']
    unfold Vm.image AddrSpace.image
    rw [ha]
    dsimp only
    rw [hopen]
  funext j x
  refine Eq.trans ?_ (congrFun hview (j, x))
  unfold Vm.user Vm.place
  rw [image_set_same ha hprog, hplace]
  rfl

end User

/-! ## Mapped pages -/

def freeFrames (m : Memory) : Finset ℕ := (Finset.range numPhysPages).filter fun f => m.availablePages f = 0

/-- The page of a process is in memory, or it is a page of the program that any free frame can take. -/
structure Vm.MappedPage (fs : Programs) (s : Vm) (i v : ℕ) (a : AddrSpace) : Prop where
  space : s.spaces i = some a
  lt : v < a.numPages
  kept : (a.pageTable v).valid = true → (a.pageTable v).physicalPage ≠ -1
  loads : (a.pageTable v).valid = false → ∃ f, fs a.filename = some f ∧ a.noffH.Layout (a.numPages * 128) f ∧
    ∀ frame ∈ freeFrames s.memory, a.noffH.LoadsImage f v frame

/-- The pages are mapped, and there are free frames for all that are not in memory. -/
structure Vm.Mapped (fs : Programs) (s : Vm) (pages : Finset (ℕ × ℕ)) : Prop where
  page : ∀ k ∈ pages, ∃ a, s.MappedPage fs k.1 k.2 a
  room : (pages.filter fun k => s.held k = none).card ≤ (freeFrames s.memory).card

/-- The state is in order, the pages are mapped, and the processes have the given memories. -/
structure Vm.Stands (fs : Programs) (pages : Finset (ℕ × ℕ)) (s : Vm) (flat : Flat) : Prop where
  sound : s.Sound
  mapped : s.Mapped fs pages
  user : s.user fs = flat

/-- The pages of the `n` bytes from `x` on. -/
def bufferPages (i x n : ℕ) : Finset (ℕ × ℕ) := (Finset.range n).image fun j => (i, (x + j) / 128)

theorem mem_bufferPages (i x : ℕ) {n j : ℕ} (hj : j < n) : (i, (x + j) / 128) ∈ bufferPages i x n :=
  Finset.mem_image.mpr ⟨j, Finset.mem_range.mpr hj, rfl⟩

section Mapped
variable {fs : Programs} {s : Vm} {i : ℕ} {a : AddrSpace} {pages : Finset (ℕ × ℕ)} {flat : Flat}

theorem firstFree_mem {m : Memory} (h : (freeFrames m).Nonempty) :
    ∃ frame, firstFree m = some frame ∧ frame ∈ freeFrames m := by
  cases hfree : firstFree m with
  | none =>
    obtain ⟨f, hf⟩ := h
    unfold freeFrames at hf
    rw [Finset.mem_filter, Finset.mem_range] at hf
    exact absurd hf.2 (firstFree_eq_none.mp hfree f hf.1)
  | some frame =>
    obtain ⟨hlt, hzero, -⟩ := firstFree_eq_some.mp hfree
    exact ⟨frame, rfl, Finset.mem_filter.mpr ⟨Finset.mem_range.mpr hlt, hzero⟩⟩

theorem freeFrames_taken (m : Memory) (frame : ℕ) (mem : Image) :
    freeFrames { m.taken frame with mainMemory := mem } = (freeFrames m).erase frame := by
  ext f
  unfold freeFrames Memory.taken
  rw [Finset.mem_erase, Finset.mem_filter, Finset.mem_filter]
  dsimp only
  by_cases hf : f = frame
  · subst hf
    simp
  · rw [Function.update_of_ne hf]
    exact ⟨fun h => ⟨hf, h⟩, fun h => h.2⟩

theorem held_of_valid (hok : a.Ok) (hv : v < a.numPages) (hvalid : (a.pageTable v).valid = true)
    (hkept : (a.pageTable v).physicalPage ≠ -1) :
    ∃ f, f < numPhysPages ∧ (a.pageTable v).physicalPage = f ∧ a.held v = some f := by
  obtain ⟨h0, hlt⟩ := (hok.entry v hv).frame.resolve_left hkept
  obtain ⟨f, hf⟩ := Int.eq_ofNat_of_zero_le h0
  refine ⟨f, by omega, hf, ?_⟩
  unfold AddrSpace.held
  rw [if_pos hvalid]
  exact (frame_eq_some hv f).mpr hf

theorem held_of_invalid (hinvalid : (a.pageTable v).valid = false) : a.held v = none := by
  unfold AddrSpace.held
  rw [hinvalid]
  rfl

/-- A page is mapped as before when another one has been loaded into a free frame. -/
theorem Vm.Mapped.resident (h : s.Mapped fs pages) (ha : s.spaces i = some a) (hv : v < a.numPages)
    (hmem : (i, v) ∈ pages) (hnone : s.held (i, v) = none) (hfree : frame ∈ freeFrames s.memory) (mem : Image) :
    (s.set i (a.resident v frame) { s.memory.taken frame with mainMemory := mem }).Mapped fs pages := by
  constructor
  · rintro ⟨j, u⟩ hk
    obtain ⟨b, hb⟩ := h.page (j, u) hk
    have hless : ∀ f ∈ freeFrames { s.memory.taken frame with mainMemory := mem }, f ∈ freeFrames s.memory := by
      intro f hf
      rw [freeFrames_taken] at hf
      exact Finset.mem_of_mem_erase hf
    by_cases hj : j = i
    · subst hj
      have hab : b = a := Option.some.inj (hb.space.symm.trans ha)
      subst hab
      by_cases hu : u = v
      · subst hu
        have hvalid : ((b.resident u frame).pageTable u).valid = true := by simp [AddrSpace.resident]
        refine ⟨b.resident u frame, Vm.set_spaces s j _ _, hb.lt, fun _ => by simp [AddrSpace.resident],
          fun hinvalid => ?_⟩
        rw [hvalid] at hinvalid
        cases hinvalid
      · have hentry : (b.resident v frame).pageTable u = b.pageTable u := Function.update_of_ne hu _ _
        refine ⟨b.resident v frame, Vm.set_spaces s j _ _, hb.lt, by rw [hentry]; exact hb.kept, fun hinvalid => ?_⟩
        rw [hentry] at hinvalid
        obtain ⟨f, hopen, hlayout, himage⟩ := hb.loads hinvalid
        exact ⟨f, hopen, hlayout, fun g hg => himage g (hless g hg)⟩
    · refine ⟨b, (Vm.set_spaces_of_ne s hj _ _).trans hb.space, hb.lt, hb.kept, fun hinvalid => ?_⟩
      obtain ⟨f, hopen, hlayout, himage⟩ := hb.loads hinvalid
      exact ⟨f, hopen, hlayout, fun g hg => himage g (hless g hg)⟩
  · have hfilter : (pages.filter fun k => (s.set i (a.resident v frame)
        { s.memory.taken frame with mainMemory := mem }).held k = none) =
        (pages.filter fun k => s.held k = none).erase (i, v) := by
      ext k
      rw [held_resident ha _ hv, Finset.mem_erase, Finset.mem_filter, Finset.mem_filter]
      by_cases hk : k = (i, v)
      · subst hk
        simp
      · rw [Function.update_of_ne hk]
        exact ⟨fun hmem => ⟨hk, hmem⟩, fun hmem => hmem.2⟩
    rw [hfilter]
    show _ ≤ (freeFrames { s.memory.taken frame with mainMemory := mem }).card
    rw [freeFrames_taken, Finset.card_erase_of_mem hfree,
      Finset.card_erase_of_mem (Finset.mem_filter.mpr ⟨hmem, hnone⟩)]
    exact Nat.sub_le_sub_right h.room 1

theorem Vm.Stands.space (h : s.Stands fs pages flat) (hx : (i, x / 128) ∈ pages) (ha : s.spaces i = some a) :
    s.MappedPage fs i (x / 128) a := by
  obtain ⟨b, hb⟩ := h.mapped.page _ hx
  have hab : b = a := Option.some.inj (hb.space.symm.trans ha)
  rwa [hab] at hb

/-- Other `use` and `dirty` bits in a page table. -/
theorem Vm.Stands.bits (h : s.Stands fs pages flat) (ha : s.spaces i = some a) {table : PageTable}
    (hsame : SameMappings a.pageTable table) :
    (s.set i { a with pageTable := table } s.memory).Stands fs pages flat := by
  have hok := h.sound.ok i a ha
  have hprog : a.SameProgram { a with pageTable := table } := ⟨rfl, rfl, rfl, rfl⟩
  have hframe := frame_set_same ha s.memory hprog fun v => (hsame v).physicalPage
  have hheld : (s.set i { a with pageTable := table } s.memory).held = s.held := by
    funext k
    obtain ⟨j, v⟩ := k
    by_cases hj : j = i
    · subst hj
      rw [vm_held_eq (Vm.set_spaces s j _ _), vm_held_eq ha]
      unfold AddrSpace.held AddrSpace.frame
      rw [(hsame v).valid, (hsame v).physicalPage]
    · unfold Vm.held
      rw [Vm.set_spaces_of_ne s hj]
  refine ⟨⟨h.sound.ok.set (hok.of_entries hprog fun v hv => ?_) _, ?_⟩, ⟨fun k hk => ?_, ?_⟩, ?_⟩
  · have he := hok.entry v hv
    exact ⟨(hsame v).virtualPage.trans he.index, by rw [(hsame v).physicalPage]; exact he.frame,
      (hsame v).readOnly.trans he.writable⟩
  · rw [hframe]
    exact h.sound.exclusive
  · obtain ⟨b, hb⟩ := h.mapped.page k hk
    by_cases hj : k.1 = i
    · have hab : b = a := Option.some.inj (hb.space.symm.trans (hj ▸ ha))
      subst hab
      refine ⟨{ b with pageTable := table }, by rw [hj, Vm.set_spaces], hb.lt, fun hvalid => ?_, fun hinvalid => ?_⟩
      · rw [(hsame k.2).physicalPage]
        exact hb.kept ((hsame k.2).valid.symm.trans hvalid)
      · exact hb.loads ((hsame k.2).valid.symm.trans hinvalid)
    · exact ⟨b, by rw [Vm.set_spaces_of_ne s hj, hb.space], hb.lt, hb.kept, hb.loads⟩
  · rw [hheld]
    exact h.mapped.room
  · rw [← h.user]
    unfold Vm.user Vm.place
    rw [hheld, image_set_same ha hprog]
    rfl

/-- The byte at an address in a mapped page is found, and no process sees a change. -/
theorem Vm.Stands.locate (h : s.Stands fs pages flat) (ha : s.spaces i = some a) (hx : (i, x / 128) ∈ pages)
    (fuel : ℕ) : ∃ r a' m', Nachos.locate (loadPage fs fuel) s.memory a (x : Int) = .ok (r, a', m') ∧
      (s.set i a' m').Stands fs pages flat ∧ (s.set i a' m').place (i, x) = some r ∧ m'.disk = s.memory.disk := by
  have hpage := h.space hx ha
  have hok := h.sound.ok i a ha
  have hsplit : ((x / 128 * 128 + x % 128 : ℕ) : Int) = x := by omega
  have hmod : x % 128 < 128 := Nat.mod_lt _ (by decide)
  cases hvalid : (a.pageTable (x / 128)).valid with
  | true =>
    obtain ⟨f, hf, hphys, hheld⟩ := held_of_valid hok hpage.lt hvalid (hpage.kept hvalid)
    have hens : ensureLoaded (loadPage fs fuel) s.memory a (x / 128) = .ok (a, s.memory) := by
      unfold ensureLoaded
      rw [if_neg]
      rintro (hinvalid | hnone)
      · rw [hvalid] at hinvalid
        cases hinvalid
      · exact hpage.kept hvalid hnone
    have hloc := locate_of_loaded hpage.lt hmod hf hens hphys
    rw [hsplit] at hloc
    refine ⟨_, _, _, hloc, ?_, ?_, rfl⟩
    · rwa [Vm.set_self ha]
    · rw [Vm.set_self ha]
      exact place_eq_some.mpr ⟨f, (vm_held_eq ha _).trans hheld, rfl⟩
  | false =>
    have hnone : s.held (i, x / 128) = none := (vm_held_eq ha _).trans (held_of_invalid hvalid)
    have hroom : (freeFrames s.memory).Nonempty := by
      rw [← Finset.card_pos]
      refine lt_of_lt_of_le ?_ h.mapped.room
      exact Finset.card_pos.mpr ⟨_, Finset.mem_filter.mpr ⟨hx, hnone⟩⟩
    obtain ⟨frame, hfirst, hfree⟩ := firstFree_mem hroom
    obtain ⟨f, hopen, hlayout, himage⟩ := hpage.loads hvalid
    obtain ⟨mem, hload, huser⟩ :=
      h.sound.resident ha hpage.lt hvalid hopen hlayout hfirst (himage frame hfree) fuel
    have hframe : ((a.resident (x / 128) frame).pageTable (x / 128)).physicalPage = frame := by
      simp [AddrSpace.resident]
    have hloc := locate_of_loaded hpage.lt hmod (firstFree_eq_some.mp hfirst).1 (ensureLoaded_of_absent hvalid hload)
      hframe
    rw [hsplit] at hloc
    refine ⟨_, _, _, hloc, ⟨h.sound.load ha hload, h.mapped.resident ha hpage.lt hx hnone hfree mem,
      huser.trans h.user⟩, place_eq_some.mpr ⟨frame, ?_, rfl⟩, rfl⟩
    rw [held_resident ha _ hpage.lt, Function.update_self]

theorem Vm.Stands.setByte (h : s.Stands fs pages flat) (hx : s.place (i, x) = some r) (c : UInt8) :
    ({ s with memory := s.memory.setByte r c } : Vm).Stands fs pages
      (Function.update flat i (Function.update (flat i) x c)) := by
  obtain ⟨hsound, huser⟩ := h.sound.setByte fs hx c
  exact ⟨hsound, ⟨fun k hk => by obtain ⟨b, hb⟩ := h.mapped.page k hk; exact ⟨b, hb.space, hb.lt, hb.kept, hb.loads⟩,
    h.mapped.room⟩, by rw [huser, h.user]⟩

theorem Vm.Stands.byte (h : s.Stands fs pages flat) (hx : s.place (i, x) = some r) :
    s.memory.mainMemory r = flat i x := by
  rw [← h.user]
  exact (user_of_place hx).symm

/-- Addresses in mapped pages are far from the largest `int`. -/
theorem Vm.Stands.int32_eq (h : s.Stands fs pages flat) {k : ℕ} (hx : (i, (x + k) / 128) ∈ pages) :
    int32 ((x : Int) + k) = ((x + k : ℕ) : Int) := by
  obtain ⟨a, hpage⟩ := h.mapped.page _ hx
  have hfits := (h.sound.ok i a hpage.space).fits
  have hlt := hpage.lt
  obtain ⟨hlo, hhi, n, hn⟩ := int32_spec ((x : Int) + k)
  simp only [numPhysPages] at hfits
  omega

/-! ## The two loops -/

/-- The pages of the bytes that a loop comes to: that of the first one, and those of the rest. -/
theorem readBytes_pages {mem : Image} {y n k : ℕ}
    (hpages : ∀ j < (readBytes mem y bytes (n + 1) k).length, (i, (x + k + j) / 128) ∈ pages)
    (hmore : bytes = 0 ∨ (k : Int) < bytes) : (i, (x + k) / 128) ∈ pages ∧ (¬ (bytes = 0 ∧ mem (y + k) = 0) →
      ∀ j < (readBytes mem y bytes n (k + 1)).length, (i, (x + (k + 1) + j) / 128) ∈ pages) := by
  unfold readBytes at hpages
  rw [if_pos hmore] at hpages
  refine ⟨hpages 0 (by split <;> simp), fun hend j hj => ?_⟩
  rw [if_neg hend] at hpages
  have hnext := hpages (j + 1) (by rw [List.length_cons]; omega)
  rwa [show x + k + (j + 1) = x + (k + 1) + j by omega] at hnext

/-- The byte of one turn of a loop is found. -/
theorem Vm.Stands.turn {m : Memory} (h : (s.set i a m).Stands fs pages flat) {k : ℕ} (hx : (i, (x + k) / 128) ∈ pages)
    (fuel : ℕ) : ∃ r a' m',
      Nachos.locate (loadPage fs fuel) m a (int32 (x + k)) = .ok (r, a', m') ∧
      (s.set i a' m').Stands fs pages flat ∧ (s.set i a' m').place (i, x + k) = some r ∧ m'.disk = m.disk := by
  obtain ⟨r, a', m', hloc, h', hplace, hdisk⟩ := h.locate (Vm.set_spaces s i a m) hx fuel
  rw [Vm.set_set] at h' hplace
  exact ⟨r, a', m', by rw [h.int32_eq hx]; exact hloc, h', hplace, hdisk⟩

theorem Vm.Stands.readFrom (fuel n k : ℕ) {m : Memory} {a : AddrSpace} (h : (s.set i a m).Stands fs pages flat)
    (hpages : ∀ j < (readBytes (flat i) x bytes n k).length, (i, (x + k + j) / 128) ∈ pages) :
    ∃ a' m', Nachos.readFrom (loadPage fs fuel) x bytes n k m a = .ok (readBytes (flat i) x bytes n k, a', m') ∧
      (s.set i a' m').Stands fs pages flat ∧ m'.disk = m.disk := by
  induction n generalizing k m a with
  | zero => exact ⟨a, m, rfl, h, rfl⟩
  | succ n ih =>
    unfold Nachos.readFrom readBytes
    by_cases hmore : bytes = 0 ∨ (k : Int) < bytes
    · obtain ⟨hfirst, hnext⟩ := readBytes_pages hpages hmore
      obtain ⟨r, a₁, m₁, hloc, h₁, hplace, hdisk⟩ := h.turn hfirst fuel
      have hbyte : m₁.mainMemory r = flat i (x + k) := h₁.byte hplace
      rw [if_pos hmore, if_pos hmore, hloc, ok_bind]
      dsimp only
      rw [hbyte]
      by_cases hend : bytes = 0 ∧ flat i (x + k) = 0
      · rw [if_pos hend, if_pos hend]
        exact ⟨a₁, m₁, rfl, h₁, hdisk⟩
      · obtain ⟨a₂, m₂, hrest, h₂, hdisk₂⟩ := ih (k + 1) h₁ (hnext hend)
        rw [if_neg hend, if_neg hend, hrest]
        exact ⟨a₂, m₂, rfl, h₂, hdisk₂.trans hdisk⟩
    · rw [if_neg hmore, if_neg hmore]
      exact ⟨a, m, rfl, h, rfl⟩

theorem Vm.Stands.writeFrom {str : Image} (fuel n k : ℕ) {m : Memory} {a : AddrSpace} {flat : Flat}
    (h : (s.set i a m).Stands fs pages flat)
    (hpages : ∀ j < (readBytes str 0 bytes n k).length, (i, (x + k + j) / 128) ∈ pages) :
    ∃ a' m', Nachos.writeFrom (loadPage fs fuel) x str bytes n k m a = .ok (a', m') ∧
      (s.set i a' m').Stands fs pages (Function.update flat i (writeBytes x str bytes n k (flat i))) ∧
      m'.disk = m.disk := by
  induction n generalizing k m a flat with
  | zero =>
    refine ⟨a, m, rfl, ?_, rfl⟩
    unfold writeBytes
    rwa [Function.update_eq_self]
  | succ n ih =>
    unfold Nachos.writeFrom writeBytes
    by_cases hmore : bytes = 0 ∨ (k : Int) < bytes
    · obtain ⟨hfirst, hnext⟩ := readBytes_pages hpages hmore
      rw [Nat.zero_add] at hnext
      obtain ⟨r, a₁, m₁, hloc, h₁, hplace, hdisk⟩ := h.turn hfirst fuel
      have h₂ : (s.set i a₁ (m₁.setByte r (str k))).Stands fs pages _ := h₁.setByte hplace (str k)
      rw [if_pos hmore, if_pos hmore, hloc, ok_bind]
      dsimp only
      by_cases hend : bytes = 0 ∧ str k = 0
      · rw [if_pos hend, if_pos hend]
        exact ⟨a₁, _, rfl, h₂, hdisk⟩
      · obtain ⟨a₃, m₃, hrest, h₃, hdisk₃⟩ := ih (k + 1) h₂ (hnext hend)
        rw [Function.update_idem, Function.update_self] at h₃
        rw [if_neg hend, if_neg hend]
        exact ⟨a₃, m₃, hrest, h₃, hdisk₃.trans hdisk⟩
    · rw [if_neg hmore, if_neg hmore, Function.update_eq_self]
      exact ⟨a, m, rfl, h, rfl⟩

end Mapped

/-! ## Buffers of a given size -/

/-- With a size, the bytes are those of the buffer, as many as there is room for. -/
theorem readBytes_sized (mem : Image) (x : ℕ) {size : ℕ} (hsize : 0 < size) (n k : ℕ) :
    readBytes mem x size n k = (List.range (min n (size - k))).map fun j => mem (x + k + j) := by
  induction n generalizing k with
  | zero => simp [readBytes]
  | succ n ih =>
    unfold readBytes
    have hne : ¬ ((size : Int) = 0 ∧ mem (x + k) = 0) := by omega
    rw [if_neg hne]
    by_cases hk : k < size
    · rw [if_pos (Or.inr (by omega)), ih (k + 1), show min (n + 1) (size - k) = min n (size - (k + 1)) + 1 by omega,
        List.range_succ_eq_map, List.map_cons, List.map_map]
      refine congrArg₂ List.cons rfl (List.map_congr_left fun j _ => ?_)
      exact congrArg mem (by omega)
    · rw [if_neg (by omega), show min (n + 1) (size - k) = 0 by omega]
      rfl

theorem writeBytes_sized (x : ℕ) (str : Image) {size : ℕ} (hsize : 0 < size) (n k : ℕ) (mem : Image) (y : ℕ) :
    writeBytes x str size n k mem y =
      if x + k ≤ y ∧ y < x + k + min n (size - k) then str (y - x) else mem y := by
  induction n generalizing k mem with
  | zero =>
    rw [if_neg (by omega)]
    rfl
  | succ n ih =>
    unfold writeBytes
    have hne : ¬ ((size : Int) = 0 ∧ str k = 0) := by omega
    rw [if_neg hne]
    by_cases hk : k < size
    · rw [if_pos (Or.inr (by omega)), ih (k + 1)]
      by_cases hy : y = x + k
      · rw [if_neg (by omega), if_pos (by omega), hy, Function.update_self, Nat.add_sub_cancel_left]
      · rw [Function.update_of_ne hy]
        by_cases hin : x + (k + 1) ≤ y ∧ y < x + (k + 1) + min n (size - (k + 1))
        · rw [if_pos hin, if_pos (by omega)]
        · rw [if_neg hin, if_neg (by omega)]
    · rw [if_neg (by omega), if_neg (by omega)]

end Nachos
