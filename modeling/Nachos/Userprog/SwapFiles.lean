import Nachos.Filesys.FileSysRun
import Nachos.Userprog.Lifetime

/-! # The swap and the file system share a disk

`writePage` takes its sectors from `available_sectors`, which nothing connects to the file system's free
map. No call that returns has written a page out, so the table is empty whenever a page is written out:
the page goes to sector `0`, which holds the header of the free map. No other page has that sector. -/
set_option autoImplicit false

namespace Nachos
open Buffer Execution

variable {a a' : AddrSpace} {s : Vm} {i : ℕ} {disk : Disk} {m : Memory} {fs : Programs}

/-! ## Nothing is on the swap -/

/-- No sector is reserved and no page has one; the disk is `disk`. -/
structure SwapEmpty (disk : Disk) (s : Vm) : Prop where
  ok : s.Ok
  bits : s.memory.availableSectors.numBits = numSectors
  clear : ∀ n < numSectors, s.memory.availableSectors.bit n = false
  sectors : ∀ i a v, s.spaces i = some a → a.pageSector v = -1
  disk : s.memory.disk = disk

theorem SwapEmpty.set (h : SwapEmpty disk s) (hok : a.Ok) (hsectors : ∀ v, a.pageSector v = -1)
    (hmap : m.availableSectors = s.memory.availableSectors) (hdisk : m.disk = s.memory.disk) :
    SwapEmpty disk (s.set i a m) where
  ok := h.ok.set hok m
  bits := (congrArg BitMap.numBits hmap).trans h.bits
  clear n hn := (congrFun (congrArg BitMap.bit hmap) n).trans (h.clear n hn)
  sectors j b v hb := by
    rcases Vm.spaces_set_eq_some hb with ⟨rfl, rfl⟩ | ⟨-, hb⟩
    · exact hsectors v
    · exact h.sectors j b v hb
  disk := hdisk.trans h.disk

theorem SwapEmpty.load (h : SwapEmpty disk s) {m' : Memory} {fuel : ℕ} {v r : Int} (ha : s.spaces i = some a)
    (hload : loadPage fs fuel s.memory a v = .ok (r, a', m')) : SwapEmpty disk (s.set i a' m') := by
  obtain ⟨hsectors, hmap, hdisk, -⟩ := loadPage_move hload
  apply h.set (loadPage_ok (h.ok i a ha) hload).1 _ hmap hdisk
  intro u
  rw [hsectors]
  exact h.sectors i a u ha

theorem keeps_swapEmpty (fs : Programs) (fuel : ℕ) (disk : Disk) :
    Vm.Keeps fs (loadPage fs fuel) (SwapEmpty disk) where
  build s i a junk words name h hbuild :=
    h.set (construct_eq_ok hbuild).1 (fun v => congrFun (construct_pageSector hbuild) v) rfl rfl
  load _ _ _ _ _ _ _ h ha hload := h.load ha hload
  bytes _ _ h := ⟨h.ok, h.bits, h.clear, h.sectors, h.disk⟩
  touch s i a v w h ha hv := by
    have he := (h.ok i a ha).entry v hv
    have htouched : ((a.pageTable v).touched w).Ok v := ⟨he.index, he.frame, he.writable⟩
    exact h.set ((h.ok i a ha).setEntry htouched) (fun u => h.sectors i a u ha) rfl rfl

theorem SwapEmpty.lifeStep {s' : Vm} {op : LifeOp} (h : SwapEmpty disk s)
    (hstep : LifeStep s op s') : SwapEmpty disk s' := by
  cases op with
  | call q =>
    obtain ⟨⟨fuel, result, hstep⟩, -⟩ := hstep
    exact (keeps_swapEmpty q.fs fuel disk).step h hstep
  | terminate i =>
    obtain ⟨a, -, rfl⟩ := hstep
    have hlive : ∀ {j b}, (s.terminate i).spaces j = some b → s.spaces j = some b := by
      intro j b hb
      by_cases hj : j = i
      · rw [hj, terminate_spaces] at hb
        cases hb
      · rwa [terminate_spaces_of_ne s hj] at hb
    exact ⟨fun j b hb => h.ok j b (hlive hb), h.bits, h.clear, fun j b v hb => h.sectors j b v (hlive hb), h.disk⟩

theorem booted_swapEmpty (h : s.Booted) : SwapEmpty s.memory.disk s := by
  obtain ⟨words, hnew⟩ := h.sectors
  obtain ⟨b, hb, hbits, hclear⟩ := @BitMap.new_spec words numSectors
  rw [hnew] at hb
  cases hb
  have hnone : ∀ {i a}, s.spaces i = some a → False := by
    intro i a ha
    rw [h.spaces i] at ha
    cases ha
  exact ⟨fun i a ha => (hnone ha).elim, hbits, hclear, fun i a v ha => (hnone ha).elim, rfl⟩

/-- What a process has and what memory holds when `load_page` is called: in the state between two calls,
or inside `AddrSpace::read` or `AddrSpace::write` after loads and byte accesses of its own. -/
inductive During (s : Vm) (i : ℕ) : AddrSpace → Memory → Prop
  | start {a : AddrSpace} (ha : s.spaces i = some a) : During s i a s.memory
  | load {a a' : AddrSpace} {m m' : Memory} {fs : Programs} {fuel : ℕ} {v r : Int}
      (h : During s i a m) (hload : loadPage fs fuel m a v = .ok (r, a', m')) : During s i a' m'
  | bytes {a : AddrSpace} {m : Memory} (h : During s i a m) (mem : Image) :
      During s i a { m with mainMemory := mem }

theorem SwapEmpty.during (h : SwapEmpty disk s) (hduring : During s i a m) : SwapEmpty disk (s.set i a m) := by
  induction hduring with
  | start ha => rwa [Vm.set_self ha]
  | load _ hload ih =>
    have hset := ih.load (Vm.set_spaces s i _ _) hload
    rwa [Vm.set_set] at hset
  | bytes _ mem ih => exact ⟨ih.ok, ih.bits, ih.clear, ih.sectors, ih.disk⟩

/-! ## Where a page is written to -/

theorem find_first {b : BitMap} (hbits : 0 < b.numBits) (hclear : b.bit 0 = false) :
    ∃ b', b.find = .ok (0, b') ∧ b'.numBits = b.numBits := by
  rcases b.findFrom_spec 0 b.numBits.toNat (by omega) with ⟨-, hall⟩ | ⟨w, b', hfind, -, -, hleast, hbits', -⟩
  · rw [hall 0 (le_refl 0) (by omega)] at hclear
    cases hclear
  · have hw : w = 0 := by
      by_contra hne
      rw [hleast 0 (le_refl 0) (by omega)] at hclear
      cases hclear
    subst hw
    exact ⟨b', hfind, hbits'⟩

/-- With nothing reserved, `writePage` writes to sector `0`. -/
theorem writePage_first {p : ℕ} {physicalPage : Int} (hp : p < a.numPages) (hsector : a.pageSector p = -1)
    (hframe : IsFrame physicalPage) (hbits : m.availableSectors.numBits = numSectors)
    (hclear : m.availableSectors.bit 0 = false) : ∃ x, writePage m a physicalPage p = .ok (0, x) := by
  obtain ⟨b, hfind, hb⟩ := find_first (b := m.availableSectors) (by rw [hbits]; decide) hclear
  have hb0 : ((0 : ℕ) : Int) < b.numBits := by
    rw [hb, hbits]
    decide
  obtain ⟨b', hmark, -⟩ := b.mark_spec hb0
  have hswap : ∃ x, swapSector m a p = .ok (0, x) := by
    unfold swapSector
    dsimp only
    rw [if_pos (by rw [hsector]; decide), hfind, ok_bind]
    dsimp only
    rw [if_pos (le_refl 0), show (0 : Int) = ((0 : ℕ) : Int) from rfl, hmark]
    exact ⟨_, rfl⟩
  obtain ⟨⟨a', m'⟩, hswap⟩ := hswap
  unfold writePage
  rw [if_pos ⟨by omega, by omega⟩, Int.toNat_natCast, hswap, ok_bind]
  dsimp only
  rw [if_pos hframe]
  exact ⟨_, rfl⟩

theorem StoresOut.sameFrames {p : ℕ} (h : StoresOut m a a' p) (hok : a.Ok) :
    a'.Ok ∧ a.SameFrames a' ∧ p < a'.numPages ∧ IsFrame (a'.pageTable p).physicalPage := by
  induction h with
  | now hchoose _ =>
    obtain ⟨hok', hsame, hvictim⟩ := chooseVictim_eq_ok hok hchoose
    obtain ⟨hp, hframe⟩ := hvictim _ rfl
    exact ⟨hok', hsame, by rwa [hsame.program.numPages], hframe⟩
  | again hchoose _ ih =>
    obtain ⟨hok', hsame, -⟩ := chooseVictim_eq_ok hok hchoose
    obtain ⟨h1, h2, h3⟩ := ih hok'
    exact ⟨h1, hsame.trans h2, h3⟩

theorem SwapEmpty.storesOut (h : SwapEmpty disk s) {p : ℕ} (ha : s.spaces i = some a)
    (hstores : StoresOut s.memory a a' p) :
    ∃ x, writePage s.memory a' (a'.pageTable p).physicalPage (a'.pageTable p).virtualPage = .ok (0, x) := by
  obtain ⟨hok, hsame, hp, hframe⟩ := hstores.sameFrames (h.ok i a ha)
  rw [(hok.entry p hp).index]
  exact writePage_first hp (by rw [hsame.sectors]; exact h.sectors i a p ha) hframe h.bits (h.clear 0 (by decide))

theorem SwapEmpty.loadWrites (h : SwapEmpty disk s) (ha : s.spaces i = some a) {virtPage sector : Int} {p : ℕ}
    (hwrites : LoadWrites s.memory a virtPage p sector) : sector = 0 := by
  obtain ⟨-, a', x, hstores, hwrite⟩ := hwrites
  obtain ⟨y, hzero⟩ := h.storesOut ha hstores
  rw [hzero] at hwrite
  cases hwrite
  rfl

/-! ## One disk -/

/-- The file system and the processes. -/
structure Store where
  files : FsState
  vm : Vm

inductive StoreOp where
  | file (junk : ℕ → Image) (op : FsOp)
  | page (op : LifeOp)

namespace Store

/-- Either side works on the disk that the other left. -/
def Step (s : Store) : StoreOp → Store → Prop
  | .file junk op, s' => ∃ files, s.files.step junk op = .ok files ∧
      s' = ⟨files, { s.vm with memory := { s.vm.memory with disk := files.disk } }⟩
  | .page op, s' => ∃ vm, LifeStep s.vm op vm ∧ s' = ⟨{ s.files with disk := vm.memory.disk }, vm⟩

/-- The disk has been formatted, and no process has started. -/
def Start (s : Store) : Prop := s.files.Formatted ∧ s.vm.Booted ∧ s.vm.memory.disk = s.files.disk

/-- Files are created with a size a header has room for. -/
def LegalSizes (s : Store) : StoreOp → Prop
  | .file junk op => s.files.Allowed (junk, op)
  | .page _ => True

theorem swapEmpty {s : Store} (h : Reachable Start Step (fun _ _ => True) s) : SwapEmpty s.files.disk s.vm := by
  apply Reachable.invariant (fun s : Store => SwapEmpty s.files.disk s.vm) _ _ h
  · rintro s ⟨-, hboot, hdisk⟩
    rw [← hdisk]
    exact booted_swapEmpty hboot
  · rintro s (⟨junk, op⟩ | op) s' hs - hstep
    · obtain ⟨files, -, rfl⟩ := hstep
      exact ⟨hs.ok, hs.bits, hs.clear, hs.sectors, rfl⟩
    · obtain ⟨vm, hlife, rfl⟩ := hstep
      have hs' := hs.lifeStep hlife
      rwa [← hs'.disk] at hs'

theorem files_inv {s : Store} (h : Reachable Start Step LegalSizes s) : s.files.Inv := by
  have hinv : s.files.Inv ∧ SwapEmpty s.files.disk s.vm := by
    apply Reachable.invariant (fun s : Store => s.files.Inv ∧ SwapEmpty s.files.disk s.vm) _ _ h
    · intro s hs
      exact ⟨hs.1.inv, swapEmpty (Reachable.start hs)⟩
    · rintro s (⟨junk, op⟩ | op) s' ⟨hfiles, hs⟩ hlegal hstep
      · obtain ⟨files, hrun, rfl⟩ := hstep
        exact ⟨hfiles.step hlegal hrun, hs.ok, hs.bits, hs.clear, hs.sectors, rfl⟩
      · obtain ⟨vm, hlife, rfl⟩ := hstep
        have hs' := hs.lifeStep hlife
        have hdisk : ({ s.files with disk := vm.memory.disk } : FsState) = s.files := by rw [hs'.disk]
        rw [hdisk]
        exact ⟨hfiles, hs'⟩
  exact hinv.1

theorem marked_zero {s : Store} (h : Reachable Start Step LegalSizes s) : marked s.files.disk 0 := by
  apply ((files_inv h).ok.exact.marked_iff 0).mpr
  rw [Ledger.mem_owned]
  exact Or.inl (by simp [systemSectors])

end Store

/-! ## A run that writes a page out -/

namespace Store

theorem exists_start : ∃ s, Start s := by
  obtain ⟨fs, disk, hformat, -⟩ := format_spec (fun _ _ => 0) (fun _ _ => 0)
  obtain ⟨sectors, hnew, -⟩ := @BitMap.new_spec (fun _ => 0#32) numSectors
  exact ⟨⟨⟨fs, disk, fun _ => none⟩, ⟨fun _ => none, ⟨fun _ => 0, sectors, fun _ => 0, disk⟩⟩⟩,
    ⟨_, _, hformat, rfl⟩, ⟨fun _ => rfl, fun _ => rfl, _, hnew⟩, rfl⟩

theorem page {s : Store} (h : Reachable Start Step LegalSizes s) (op : LifeOp) {vm : Vm}
    (hlife : LifeStep s.vm op vm) : ∃ s', Reachable Start Step LegalSizes s' ∧ s'.vm = vm :=
  ⟨_, .next (l := .page op) h trivial ⟨vm, hlife, rfl⟩, rfl⟩

theorem construct {s : Store} (h : Reachable Start Step LegalSizes s) (hfree : s.vm.spaces i = none) {junk : Image}
    {words : ℕ → BitVec 32} {name : FileName} (hbuild : AddrSpace.construct fs junk words name = .ok a) :
    ∃ s', Reachable Start Step LegalSizes s' ∧ s'.vm = s.vm.set i a s.vm.memory := by
  apply page h (.call ⟨fs, .construct i junk words name⟩)
  refine ⟨⟨0, _, Vm.step_build i _ hbuild⟩, ?_⟩
  intro j junk' words' name' hop
  cases hop
  exact hfree

theorem faults {s : Store} (h : Reachable Start Step LegalSizes s) {vm : Vm}
    (hfaults : Faults fs s.vm vm) : ∃ s', Reachable Start Step LegalSizes s' ∧ s'.vm = vm := by
  induction hfaults with
  | refl => exact ⟨s, h, rfl⟩
  | @load vm' i fuel a a' m' v r _ ha hload ih =>
    obtain ⟨s', hs', rfl⟩ := ih
    exact page hs' (.call ⟨fs, .load i v⟩) ⟨⟨fuel, _, Vm.step_load fs ha hload⟩, by simp⟩

end Store

/-- The first page of an address space after a machine store into it. -/
def AddrSpace.written (a : AddrSpace) : AddrSpace :=
  a.setEntry 0 ((a.pageTable 0).touched true)

/-- In a full memory, the only page of process `1` has been written to. -/
theorem storesOut_written (hok : a.Ok) (hpages : a.numPages = 32) (hvictim : a.victumOffset = 0)
    (htable : a.pageTable = TranslationEntry.absent) (hcount : ∀ i < 32, m.availablePages i = 1) :
    NeedsVictim m (a.resident 0 0).written 1 ∧
      StoresOut m (a.resident 0 0).written { (a.resident 0 0).written with victumOffset := -1 } 0 := by
  have hrok : (a.resident 0 0).Ok := hok.resident (by omega) (by decide)
  have he := hrok.entry 0 (show 0 < a.numPages by omega)
  have hwok : (a.resident 0 0).written.Ok := hrok.setEntry ⟨he.index, he.frame, he.writable⟩
  have hother : ∀ u, u ≠ 0 → (a.resident 0 0).written.pageTable u = TranslationEntry.absent u := by
    intro u hu
    simp only [AddrSpace.written, AddrSpace.resident, setEntry_pageTable, Function.update_of_ne hu, htable]
  have hfull : firstFree m = none := by
    apply firstFree_eq_none.mpr
    intro i hi
    rw [hcount i hi]
    decide
  have hone := hother 1 (by decide)
  refine ⟨⟨by decide, show (1 : Int) < (a.numPages : ℕ) by omega, ?_, ?_, hfull, ?_⟩, ?_⟩
  · exact congrArg TranslationEntry.virtualPage hone
  · exact congrArg TranslationEntry.valid hone
  · exact congrArg TranslationEntry.physicalPage hone
  · apply StoresOut.now
    · apply chooseVictim_first hwok (show 0 < a.numPages by omega) hvictim (show 0 < numPhysPages by decide) _
        (hcount 0 (by decide))
      · intro u _ hu
        rw [hother u hu]
        rfl
      · simp [AddrSpace.written, AddrSpace.resident, TranslationEntry.touched]
    · left
      simp [AddrSpace.written, TranslationEntry.touched]

/-- Process `1` has its first page in frame `0` and stores into it; process `0` takes the other frames. -/
theorem exists_dirtyVictim : ∃ (s : Store) (a a' : AddrSpace),
    Reachable Store.Start Store.Step Store.LegalSizes s ∧ s.vm.spaces 1 = some a ∧
      NeedsVictim s.vm.memory a 1 ∧ StoresOut s.vm.memory a a' 0 := by
  obtain ⟨s0, hstart⟩ := Store.exists_start
  obtain ⟨a, ha, hblank, hpages, hvictim⟩ := blank_construct []
  obtain ⟨hok, -, htable, -⟩ := construct_eq_ok ha
  have hboot := hstart.2.1
  obtain ⟨s1, h1, hs1⟩ := Store.construct (.start hstart) (hboot.spaces 0) ha
  have hfree1 : s1.vm.spaces 1 = none := by
    rw [hs1, Vm.set_spaces_of_ne _ (by decide)]
    exact hboot.spaces 1
  obtain ⟨s2, h2, hs2⟩ := Store.construct h1 hfree1 ha
  have hspace2 : s2.vm.spaces 1 = some a := by rw [hs2, Vm.set_spaces]
  have hmem2 : s2.vm.memory = s0.vm.memory := by
    rw [hs2, hs1]
    rfl
  have hload := hboot.load_blank ha hblank hpages
  rw [← hmem2] at hload
  obtain ⟨s3, h3, hs3⟩ := Store.page h2 (.call ⟨onlyFile blankFile, .load 1 (0 : ℕ)⟩)
    ⟨⟨0, _, Vm.step_load (onlyFile blankFile) hspace2 hload⟩, by simp⟩
  have hspace3 : s3.vm.spaces 1 = some (a.resident 0 0) := by rw [hs3, Vm.set_spaces]
  have hentry : (a.resident 0 0).pageTable 0 =
      { TranslationEntry.absent 0 with physicalPage := (0 : ℕ), valid := true } := by
    simp only [AddrSpace.resident, setEntry_pageTable, Function.update_self, htable]
  have hwrite : writeMem (a.resident 0 0).pageTable (a.resident 0 0).numPages s3.vm.memory.mainMemory (0 : ℕ) 1 7 =
      .ok (.ok (copy s3.vm.memory.mainMemory 0 (wordByte (BitVec.ofInt 32 7)) 1,
        (a.resident 0 0).written.pageTable)) := by
    have htrans : translate (a.resident 0 0).pageTable (a.resident 0 0).numPages (0 : ℕ) 1 true = _ :=
      translate_mapped true (Or.inl rfl) (by decide) (show 0 / 128 < (a.resident 0 0).numPages from hpages ▸ (by decide))
        (by rw [hentry]) (by intro _; rw [hentry]; rfl) (show 0 < numPhysPages by decide) (by rw [hentry])
    unfold writeMem
    rw [htrans]
    rfl
  obtain ⟨s4, h4, hs4⟩ := Store.page h3 (.call ⟨onlyFile blankFile, .writeMem 1 (0 : ℕ) 1 7⟩)
    ⟨⟨0, _, Vm.step_writeMem (onlyFile blankFile) _ hspace3 hwrite⟩, by simp⟩
  have hspace4 : s4.vm.spaces 1 = some (a.resident 0 0).written := by rw [hs4, Vm.set_spaces]; rfl
  have hother4 : s4.vm.spaces 0 = some a := by
    rw [hs4, Vm.set_spaces_of_ne _ (by decide), hs3, Vm.set_spaces_of_ne _ (by decide), hs2,
      Vm.set_spaces_of_ne _ (by decide), hs1, Vm.set_spaces]
  have hcount4 : s4.vm.memory.availablePages = Function.update s0.vm.memory.availablePages 0 1 := by
    rw [← hmem2, hs4, hs3]
    rfl
  obtain ⟨vm, -, hfaults, -, -, -, -, -, hcount, hothers⟩ := faults_crowded hother4 hok hblank hpages
    (fun v _ => by rw [htable]; rfl) (by
      intro i _
      rw [hcount4]
      by_cases hi : i = 0
      · rw [hi, Function.update_self, if_pos (by decide)]
      · rw [Function.update_of_ne hi, hboot.free i, if_neg (by omega)]) 31 (le_refl 31)
  obtain ⟨s5, h5, rfl⟩ := Store.faults h4 hfaults
  obtain ⟨hneeds, hstores⟩ := storesOut_written (m := s5.vm.memory) hok hpages hvictim htable (by
    intro i hi
    rw [hcount i hi, if_pos hi])
  exact ⟨s5, _, _, h5, (hothers 1 (by decide)).trans hspace4, hneeds, hstores⟩

/-! ## All runs -/

/-- In every run, a page that is written out goes to a sector that no other page has. It goes to a sector
that the file system does not use only if no page is written out at all. -/
theorem swap_sectors {s : Store} (h : Reachable Store.Start Store.Step (fun _ _ => True) s)
    (hduring : During s.vm i a m) (virtPage : Int) :
    (∀ p sector, LoadWrites m a virtPage p sector → ∀ j b w, (s.vm.set i a m).spaces j = some b →
      (j, w) ≠ (i, p) → b.pageSector w ≠ sector) ∧
    (Spared m a virtPage → ∀ p sector, LoadWrites m a virtPage p sector → ¬ marked s.files.disk sector) ∧
    (Reachable Store.Start Store.Step Store.LegalSizes s →
      (∀ p sector, LoadWrites m a virtPage p sector → ¬ marked s.files.disk sector) → Spared m a virtPage) := by
  have hempty := (Store.swapEmpty h).during hduring
  have ha := Vm.set_spaces s.vm i a m
  refine ⟨?_, ?_, ?_⟩
  · intro p sector hwrites j b w hb _
    rw [hempty.sectors j b w hb, hempty.loadWrites ha hwrites]
    decide
  · intro hspared p sector hwrites
    obtain ⟨hneeds, a', x, hstores, -⟩ := hwrites
    exact absurd ⟨hneeds, a', p, hstores⟩ hspared
  · rintro hlegal hsafe ⟨hneeds, a', p, hstores⟩
    obtain ⟨x, hwrite⟩ := hempty.storesOut ha hstores
    exact hsafe p 0 ⟨hneeds, a', x, hstores, hwrite⟩ (Store.marked_zero hlegal)

/-- A page that is written out while two processes fill the memory. -/
theorem swap_sectors_dirty : ∃ (s : Store) (a : AddrSpace), s.vm.spaces 1 = some a ∧
    ¬ Spared s.vm.memory a 1 ∧ ∃ sector, LoadWrites s.vm.memory a 1 0 sector ∧
      ∀ j b w, (s.vm.set 1 a s.vm.memory).spaces j = some b → (j, w) ≠ (1, 0) → b.pageSector w ≠ sector := by
  obtain ⟨s, a, a', h, ha, hneeds, hstores⟩ := exists_dirtyVictim
  have hall : Reachable Store.Start Store.Step (fun _ _ => True) s := h.mono fun _ _ _ => trivial
  obtain ⟨x, hwrite⟩ := (Store.swapEmpty hall).storesOut ha hstores
  have hwrites : LoadWrites s.vm.memory a 1 0 0 := ⟨hneeds, a', x, hstores, hwrite⟩
  exact ⟨s, a, ha, fun hspared => hspared ⟨hneeds, a', 0, hstores⟩, 0, hwrites,
    (swap_sectors hall (.start ha) 1).1 0 0 hwrites⟩

/-- The load of a page has another page written over the header of the free map. -/
theorem swap_overwrites_freeMap : ∃ (s : Store) (a : AddrSpace),
    Reachable Store.Start Store.Step Store.LegalSizes s ∧ s.vm.spaces 1 = some a ∧
      LoadWrites s.vm.memory a 1 0 0 ∧ marked s.files.disk 0 := by
  obtain ⟨s, a, a', h, ha, hneeds, hstores⟩ := exists_dirtyVictim
  have hempty := Store.swapEmpty (h.mono fun _ _ _ => trivial)
  obtain ⟨x, hwrite⟩ := hempty.storesOut ha hstores
  exact ⟨s, a, h, ha, ⟨hneeds, a', x, hstores, hwrite⟩, Store.marked_zero h⟩

end Nachos
