import Nachos.Userprog.Paging

/-! # Dirty bits

A page whose dirty bit is clear may be dropped when a frame is needed, because demand loading can bring it back as it
was. `Machine::Translate` sets the bit of every page that a user program stores into. `AddrSpace::write` stores into
memory without passing through the translation and leaves the bit as it finds it: what the kernel copies into a clean
page is lost with the page. Where the kernel copies only into pages that are dirty already, and no load needs a victim,
every clean page can be loaded again. -/
set_option autoImplicit false

namespace Nachos
open Buffer Execution Placement

/-! ## Loading a page again -/

/-- Loading the page, into whichever frame is free, brings these bytes. -/
def AddrSpace.Regenerates (fs : Programs) (a : AddrSpace) (v : ℕ) (page : Image) : Prop :=
  ∀ (m : Memory) (g fuel : ℕ), firstFree m = some g → ∃ (a' : AddrSpace) (m' : Memory),
    loadPage fs fuel m (a.setEntry v (.absent v)) v = .ok ((g : Int), a', m') ∧
      ∀ o < pageSize, m'.mainMemory (g * pageSize + o) = page o

/-- Every valid page whose dirty bit is clear is in a frame that holds what loading it would bring. -/
def CleanPages (fs : Programs) (s : Vm) : Prop :=
  ∀ i a v, s.spaces i = some a → v < a.numPages → (a.pageTable v).valid = true → (a.pageTable v).dirty = false →
    ∃ frame : ℕ, frame < numPhysPages ∧ (a.pageTable v).physicalPage = frame ∧
      a.Regenerates fs v (shift s.memory.mainMemory (frame * pageSize))

/-- The address up to which the data segment is taken to reach is not inside the page before one that it touches. -/
def Segment.EndsClear (seg : Segment) : Prop :=
  ∀ v : ℕ, seg.Touches v → seg.dataStop ≤ (v - 1 : Int) * 128 ∨ (v : Int) * 128 ≤ seg.dataStop

section Loading
variable {fs : Programs} {s : Vm} {i : ℕ} {a a' : AddrSpace} {m m' : Memory}

theorem EndsClear.dataReads {seg : Segment} (h : seg.EndsClear) (f : Executable) (v frame frame' x : ℕ) :
    seg.DataReads f v frame x ↔ seg.DataReads f v frame' x := by
  refine and_congr_right fun htouch => and_congr_right fun _ => and_congr_left fun _ => ?_
  have hclear := h v htouch
  unfold Segment.StopsIn
  constructor <;>
  · intro hstop hin
    exact hstop (by omega)

/-- What is loaded does not depend on the frame. -/
theorem EndsClear.loadedByte {noffH : NoffHeader} (h : noffH.initData.EndsClear) (f : Executable)
    (v frame frame' x : ℕ) : noffH.loadedByte f v frame x = noffH.loadedByte f v frame' x := by
  unfold NoffHeader.loadedByte
  simp only [EndsClear.dataReads h f v frame frame' x]

theorem regenerates_of_bytes (hok : a.Ok) {v : ℕ} (hv : v < a.numPages) {f : Executable}
    (hopen : fs a.filename = some f) (hlayout : a.noffH.Layout (a.numPages * 128) f)
    (hclear : a.noffH.initData.EndsClear) (frame : ℕ) {page : Image}
    (hbytes : ∀ o < 128, page o = a.noffH.loadedByte f v frame (v * 128 + o)) : a.Regenerates fs v page := by
  intro m g fuel hfree
  have habsent : (a.setEntry v (.absent v)).Ok := hok.setEntry ⟨rfl, Or.inl rfl, rfl⟩
  obtain ⟨mem, hload, -, hloaded⟩ := loadPage_bytes habsent hv (by simp [TranslationEntry.absent]) hfree hopen hlayout
    fuel
  refine ⟨_, _, hload, ?_⟩
  intro o ho
  simp only [pageSize, sectorSize] at ho ⊢
  have hbyte := hloaded (v * 128 + o) (by omega) (by omega)
  rw [Nat.add_sub_cancel_left] at hbyte
  rw [hbytes o ho, EndsClear.loadedByte hclear f v frame g]
  exact hbyte

end Loading

/-! ## The invariant -/

structure CleanInv (fs : Programs) (s : Vm) : Prop extends PagingInv fs s where
  clear : ∀ i a, s.spaces i = some a → a.noffH.initData.EndsClear
  clean : ∀ i a v frame f, s.spaces i = some a → v < a.numPages → (a.pageTable v).valid = true →
    (a.pageTable v).dirty = false → s.frame (i, v) = some frame → fs a.filename = some f →
    ∀ o < 128, s.memory.mainMemory (frame * 128 + o) = a.noffH.loadedByte f v frame (v * 128 + o)

section Pieces
variable {fs : Programs} {s : Vm} {i : ℕ} {a a' : AddrSpace} {m m' : Memory}

theorem CleanInv.cleanPages (h : CleanInv fs s) : CleanPages fs s := by
  intro i a v ha hv hvalid hclean
  obtain ⟨⟨hlo, hhi⟩, hframe⟩ := h.valid_frame ha hv hvalid
  obtain ⟨f, hopen, hlayout⟩ := h.layout i a ha
  refine ⟨_, by omega, (Int.toNat_of_nonneg hlo).symm, ?_⟩
  exact regenerates_of_bytes (h.ok i a ha) hv hopen hlayout (h.clear i a ha) _
    (h.clean i a v _ f ha hv hvalid hclean hframe hopen)

/-- The bytes of the frame of a dirty page may change. -/
theorem CleanInv.store (h : CleanInv fs s) (ha : s.spaces i = some a) {v frame : ℕ}
    (hdirty : (a.pageTable v).dirty = true) (hframe : s.frame (i, v) = some frame) {mem : Image}
    (hsame : ∀ o, o / 128 ≠ frame → mem o = s.memory.mainMemory o) :
    CleanInv fs { s with memory := { s.memory with mainMemory := mem } } where
  ok := h.ok
  resident := h.resident
  exclusive := h.exclusive
  vacant := h.vacant
  layout := h.layout
  clear := h.clear
  clean := by
    intro j b u g f hb hu hvalid hclean hg hopen o ho
    have hne : g ≠ frame := by
      rintro rfl
      obtain ⟨rfl, rfl⟩ := Prod.mk.inj (h.exclusive.inj hframe hg)
      rw [ha] at hb
      cases hb
      rw [hdirty] at hclean
      cases hclean
    dsimp only
    rw [hsame _ (by omega)]
    exact h.clean j b u g f hb hu hvalid hclean hg hopen o ho

theorem CleanInv.build (h : CleanInv fs s) (i : ℕ) {junk : Image} {words : ℕ → BitVec 32} {name : FileName}
    (hbuild : AddrSpace.construct fs junk words name = .ok a)
    (hlayout : ∃ f, fs a.filename = some f ∧ a.noffH.Layout (a.numPages * 128) f)
    (hclear : a.noffH.initData.EndsClear) : CleanInv fs (s.set i a s.memory) where
  toPagingInv := by
    obtain ⟨-, -, htable, -⟩ := construct_eq_ok hbuild
    exact h.of_set (h.toFrameInv.build i hbuild) (fun v _ _ => by rw [htable]; rfl) hlayout
  clear j b hb := by
    rcases Vm.spaces_set_eq_some hb with ⟨rfl, rfl⟩ | ⟨-, hb⟩
    · exact hclear
    · exact h.clear j b hb
  clean j b v frame f hb hv hvalid hclean hframe hopen := by
    rcases Vm.spaces_set_eq_some hb with ⟨rfl, rfl⟩ | ⟨hj, hb⟩
    · obtain ⟨-, -, htable, -⟩ := construct_eq_ok hbuild
      rw [htable] at hvalid
      cases hvalid
    · rw [frame_set_other s a s.memory hj] at hframe
      exact h.clean j b v frame f hb hv hvalid hclean hframe hopen

theorem CleanInv.touch (h : CleanInv fs s) {v : ℕ} (w : Bool) (ha : s.spaces i = some a) (hv : v < a.numPages) :
    CleanInv fs (s.set i (a.setEntry v ((a.pageTable v).touched w)) s.memory) where
  toPagingInv := h.toPagingInv.touch w ha hv
  clear j b hb := by
    rcases Vm.spaces_set_eq_some hb with ⟨rfl, rfl⟩ | ⟨-, hb⟩
    · exact h.clear j a ha
    · exact h.clear j b hb
  clean j b u frame f hb hu hvalid hclean hframe hopen := by
    rw [frame_set_same ha s.memory (setEntry_sameProgram a v _) fun u => (touched_entry a v w u).1] at hframe
    rcases Vm.spaces_set_eq_some hb with ⟨rfl, rfl⟩ | ⟨-, hb⟩
    · rw [(touched_entry a v w u).2] at hvalid
      refine h.clean j a u frame f ha hu hvalid ?_ hframe hopen
      rw [setEntry_pageTable] at hclean
      by_cases huv : u = v
      · subst huv
        rw [Function.update_self, TranslationEntry.touched] at hclean
        exact (Bool.or_eq_false_iff.mp hclean).1
      · rwa [Function.update_of_ne huv] at hclean
    · exact h.clean j b u frame f hb hu hvalid hclean hframe hopen

/-- A page that is loaded into a free frame is as it is loaded, and the other frames keep their bytes. -/
theorem CleanInv.loaded (h : CleanInv fs s) (ha : s.spaces i = some a) {v : ℕ} (hv : v < a.numPages)
    (hinvalid : (a.pageTable v).valid = false) {frame : ℕ} (hfree : firstFree s.memory = some frame) {fuel : ℕ}
    {r : Int} (hload : loadPage fs fuel s.memory a v = .ok (r, a', m')) :
    CleanInv fs (s.set i a' m') ∧ ∀ u, (a'.pageTable u).dirty = (a.pageTable u).dirty := by
  obtain ⟨f, hopen, hlayout⟩ := h.layout i a ha
  obtain ⟨mem, hload', hagree, hbytes⟩ := loadPage_bytes (h.ok i a ha) hv hinvalid hfree hopen hlayout fuel
  rw [hload] at hload'
  cases hload'
  have hdirty : ∀ u, ((a.resident v frame).pageTable u).dirty = (a.pageTable u).dirty := by
    intro u
    unfold AddrSpace.resident
    rw [setEntry_pageTable]
    by_cases huv : u = v
    · subst huv
      rw [Function.update_self]
    · rw [Function.update_of_ne huv]
  have hplace : (s.set i (a.resident v frame) { s.memory.taken frame with mainMemory := mem }).frame =
      Function.update s.frame (i, v) (some frame) := frame_set_entry ha _ hv rfl
  have hother : ∀ k g, s.frame k = some g → ∀ o < 128, mem (g * 128 + o) = s.memory.mainMemory (g * 128 + o) := by
    intro k g hg o ho
    have hgf := frame_ne_free h.exclusive hfree k g hg
    exact hagree (g * 128 + o) (by omega)
  refine ⟨⟨h.toPagingInv.loaded ha hfree hload, ?_, ?_⟩, hdirty⟩
  · intro j b hb
    rcases Vm.spaces_set_eq_some hb with ⟨rfl, rfl⟩ | ⟨-, hb⟩
    · exact h.clear j a ha
    · exact h.clear j b hb
  · intro j b u g f' hb hu hvalid hclean hg hopen' o ho
    rw [hplace] at hg
    by_cases hk : (j, u) = (i, v)
    · obtain ⟨rfl, rfl⟩ := Prod.mk.inj hk
      rw [Function.update_self] at hg
      cases hg
      rw [Vm.set_spaces] at hb
      cases hb
      cases hopen.symm.trans hopen'
      have hbyte := hbytes (u * 128 + o) (by omega) (by omega)
      rwa [Nat.add_sub_cancel_left] at hbyte
    · rw [Function.update_of_ne hk] at hg
      refine (hother _ g hg o ho).trans ?_
      rcases Vm.spaces_set_eq_some hb with ⟨rfl, rfl⟩ | ⟨-, hb⟩
      · have huv : u ≠ v := fun heq => hk (by rw [heq])
        have hentry : (a.resident v frame).pageTable u = a.pageTable u := Function.update_of_ne huv _ _
        rw [hentry] at hvalid hclean
        exact h.clean j a u g f' ha hu hvalid hclean hg hopen' o ho
      · exact h.clean j b u g f' hb hu hvalid hclean hg hopen' o ho

/-- A load that needs no victim. -/
theorem CleanInv.load (h : CleanInv fs s) (ha : s.spaces i = some a) {v r : Int} {fuel : ℕ}
    (hframe : HasFrame s.memory a v) (hload : loadPage fs fuel s.memory a v = .ok (r, a', m')) :
    CleanInv fs (s.set i a' m') ∧ ∀ u, (a'.pageTable u).dirty = (a.pageTable u).dirty := by
  rcases loadPage_cases hload with ⟨rfl, rfl⟩ | ⟨w, rfl, hw, hinvalid, -⟩
  · rw [Vm.set_self ha]
    exact ⟨h, fun _ => rfl⟩
  · have hsome : (firstFree s.memory).isSome = true := by
      unfold HasFrame at hframe
      rw [Int.toNat_natCast, hinvalid, h.vacant i a w ha hw hinvalid] at hframe
      rcases hframe with hlt | hle | hvalid | hne | hsome
      · omega
      · omega
      · cases hvalid
      · exact absurd rfl hne
      · exact hsome
    obtain ⟨frame, hfree⟩ := Option.isSome_iff_exists.mp hsome
    exact h.loaded ha hw hinvalid hfree hload

end Pieces

/-! ## Calls -/

/-- Byte `k` of `str` is one that `AddrSpace::write` stores. -/
def Stores (str : Image) (bytes : Int) (k : ℕ) : Prop :=
  (bytes = 0 ∨ k < bytes) ∧ (bytes = 0 → ∀ j < k, str j ≠ 0)

section Calls
variable {fs : Programs} {s : Vm} {i fuel : ℕ} {a a' : AddrSpace} {m m' : Memory}

theorem CleanInv.locate (h : CleanInv fs (s.set i a m)) {x : Int} (hx : 0 ≤ x) {phys : ℕ}
    (hloc : locate (Vm.guarded HasFrame (loadPage fs fuel)) m a x = .ok (phys, a', m')) :
    CleanInv fs (s.set i a' m') ∧ (∀ u, (a'.pageTable u).dirty = (a.pageTable u).dirty) ∧
      (s.set i a' m').frame (i, (x / 128).toNat) = some (phys / 128) := by
  obtain ⟨-, hpage, hens, hphys⟩ := locate_eq_ok hloc
  have hnext : CleanInv fs (s.set i a' m') ∧ (∀ u, (a'.pageTable u).dirty = (a.pageTable u).dirty) ∧
      a'.numPages = a.numPages := by
    unfold ensureLoaded at hens
    split at hens
    · obtain ⟨⟨r, a1, m1⟩, hload, hens⟩ := bind_eq_ok.mp hens
      cases hens
      obtain ⟨hframe, hload⟩ := Vm.guarded_eq_ok.mp hload
      obtain ⟨h1, hdirty⟩ := h.load (Vm.set_spaces s i a m) hframe hload
      rw [Vm.set_set] at h1
      exact ⟨h1, hdirty, (loadPage_ok (h.ok i a (Vm.set_spaces s i a m)) hload).2.numPages⟩
    · cases hens
      exact ⟨h, fun _ => rfl, rfl⟩
  obtain ⟨h1, hdirty, hpages⟩ := hnext
  refine ⟨h1, hdirty, ?_⟩
  rw [Int.tdiv_eq_ediv_of_nonneg hx] at hpage hphys
  rw [Int.tmod_eq_emod_of_nonneg hx] at hphys
  simp only [pageSize, sectorSize, Nat.cast_ofNat] at hpage hphys
  rw [vm_frame_eq (Vm.set_spaces s i a' m'), frame_eq_some (by omega)]
  omega

theorem CleanInv.writeFrom {addr bytes : Int} {str : Image} (n k : ℕ) {m m' : Memory} {a a' : AddrSpace}
    (h : CleanInv fs (s.set i a m))
    (hdirty : ∀ j, k ≤ j → j < k + n → Stores str bytes j → 0 ≤ int32 (addr + j) ∧
      (a.pageTable (int32 (addr + j) / 128).toNat).dirty = true)
    (hreached : bytes = 0 → ∀ j < k, str j ≠ 0)
    (hwrite : writeFrom (Vm.guarded HasFrame (loadPage fs fuel)) addr str bytes n k m a = .ok (a', m')) :
    CleanInv fs (s.set i a' m') := by
  induction n generalizing k m a with
  | zero =>
    cases hwrite
    exact h
  | succ n ih =>
    unfold Nachos.writeFrom at hwrite
    split at hwrite
    · next hmore =>
      obtain ⟨⟨phys, a1, m1⟩, hloc, hwrite⟩ := bind_eq_ok.mp hwrite
      obtain ⟨hx, hset⟩ := hdirty k (by omega) (by omega) ⟨hmore, hreached⟩
      obtain ⟨h1, hsame, hframe⟩ := h.locate hx hloc
      have h2 : CleanInv fs (s.set i a1 (m1.setByte phys (str k))) := by
        refine h1.store (Vm.set_spaces s i a1 m1) (by rw [hsame]; exact hset) hframe ?_
        intro o ho
        exact Function.update_of_ne (fun heq => ho (by rw [heq])) _ _
      dsimp only at hwrite
      split at hwrite
      · cases hwrite
        exact h2
      · next hgoOn =>
        refine ih (k + 1) h2 ?_ ?_ hwrite
        · intro j hj hj' hstores
          rw [hsame]
          exact hdirty j (by omega) (by omega) hstores
        · intro hzero j hj
          rcases Nat.lt_succ_iff_lt_or_eq.mp hj with hj | rfl
          · exact hreached hzero j hj
          · exact fun hnul => hgoOn ⟨hzero, hnul⟩
    · cases hwrite
      exact h

theorem CleanInv.readMem (h : CleanInv fs s) (ha : s.spaces i = some a) {addr size value : Int} {table : PageTable}
    (hread : readMem a.pageTable a.numPages s.memory.mainMemory addr size = .ok (.ok (value, table))) :
    CleanInv fs (s.set i { a with pageTable := table } s.memory) := by
  obtain ⟨r, htrans, hread⟩ := bind_eq_ok.mp hread
  cases r with
  | error exception => cases hread
  | ok r =>
    obtain ⟨_, _, hread⟩ := bind_eq_ok.mp hread
    cases hread
    obtain ⟨hv, -, -, -, -, htable⟩ := translate_eq_ok htrans
    rw [htable]
    exact h.touch false ha hv

/-- A user program's store is into a page that the translation has marked dirty. -/
theorem CleanInv.writeMem (h : CleanInv fs s) (ha : s.spaces i = some a) {addr size value : Int} {mem : Image}
    {table : PageTable}
    (hwrite : writeMem a.pageTable a.numPages s.memory.mainMemory addr size value = .ok (.ok (mem, table))) :
    CleanInv fs (s.set i { a with pageTable := table } { s.memory with mainMemory := mem }) := by
  obtain ⟨r, htrans, hwrite⟩ := bind_eq_ok.mp hwrite
  cases r with
  | error exception => cases hwrite
  | ok r =>
    obtain ⟨phys, table'⟩ := r
    obtain ⟨mem', hput, hwrite⟩ := bind_eq_ok.mp hwrite
    cases hwrite
    obtain ⟨hv, hvalid, hphys, hfour, htwo, htable⟩ := translate_eq_ok htrans
    obtain ⟨⟨hlo, hhi⟩, hframe⟩ := h.valid_frame ha hv hvalid
    have hunsigned : toUnsigned (a.pageTable (toUnsigned addr / 128)).physicalPage =
        (a.pageTable (toUnsigned addr / 128)).physicalPage.toNat := by
      simp only [numPhysPages] at hhi
      rw [toUnsigned]
      omega
    rw [hunsigned] at hphys
    have h1 := h.touch true ha hv
    rw [htable]
    rw [← frame_set_same ha s.memory (setEntry_sameProgram a (toUnsigned addr / 128) _)
      fun u => (touched_entry a (toUnsigned addr / 128) true u).1] at hframe
    refine h1.store (Vm.set_spaces s i _ s.memory) ?_ hframe ?_
    · rw [setEntry_pageTable, Function.update_self]
      exact Bool.or_true _
    · intro o ho
      unfold putValue at hput
      split at hput
      · next hsize =>
        cases hput
        apply copy_outside
        have hinside : toUnsigned addr % 128 + size.toNat ≤ 128 := by
          rw [toUnsigned]
          omega
        omega
      · cases hput

end Calls

/-! ## Runs -/

/-- A call, while no file changes. -/
def StepOn (fs : Programs) (s : Vm) (op : VmOp) (s' : Vm) : Prop := Vm.Step s ⟨fs, op⟩ s'

/-- No load that the call makes needs a victim, a program is laid out and loads alike into every frame, and what the
kernel copies goes into pages that are dirty. -/
def PreservesClean (fs : Programs) (s : Vm) (op : VmOp) : Prop :=
  FramesSuffice s ⟨fs, op⟩ ∧
    match op with
    | .construct _ junk _ name => ∀ f noffH, fs name = some f → NoffHeader.fetch f junk = .ok noffH →
      noffH.Layout ((divRoundUp noffH.spaceSize pageSize).toNat * 128) f ∧ noffH.initData.EndsClear
    | .write i addr str bytes => ∀ a, s.spaces i = some a → ∀ k < bufferSize, Stores str bytes k →
      0 ≤ int32 (addr + k) ∧ (a.pageTable (int32 (addr + k) / 128).toNat).dirty = true
    | _ => True

section Run
variable {fs : Programs} {s s' : Vm} {op : VmOp}

theorem booted_cleanInv (h : s.Booted) : CleanInv fs s := by
  have hframes := booted_frameInv h
  have hnone : ∀ i a, s.spaces i ≠ some a := by
    intro i a ha
    rw [h.spaces i] at ha
    cases ha
  exact ⟨⟨hframes, fun i a _ ha => absurd ha (hnone i a), fun i a ha => absurd ha (hnone i a)⟩,
    fun i a ha => absurd ha (hnone i a), fun i a _ _ _ ha => absurd ha (hnone i a)⟩

theorem CleanInv.step (h : CleanInv fs s) (hop : PreservesClean fs s op) (hstep : StepOn fs s op s') : CleanInv fs s' := by
  obtain ⟨⟨fuel, result, s1, hguarded⟩, hop⟩ := hop
  obtain ⟨fuel', result', hstep⟩ := hstep
  have hsame := (guarded_loadsAs (fun _ _ _ => id) fs fuel fuel').step hguarded
  rw [hstep] at hsame
  cases hsame
  have hloads : Vm.KeepsLoads (Vm.guarded HasFrame (loadPage fs fuel)) (CleanInv fs) := by
    intro s i a v r a' m' hs ha hload
    obtain ⟨hframe, hload⟩ := Vm.guarded_eq_ok.mp hload
    exact (hs.load ha hframe hload).1
  cases op with
  | construct i junk words name =>
    obtain ⟨a, hbuild, -, rfl⟩ := Vm.step_build_eq_ok hguarded
    obtain ⟨hok, hname, -, -, f, hopen, hfetch, -⟩ := construct_eq_ok hbuild
    obtain ⟨hlayout, hclear⟩ := hop f a.noffH hopen hfetch
    rw [← hok.pages, Int.toNat_natCast] at hlayout
    exact h.build i hbuild ⟨f, by rw [hname]; exact hopen, hlayout⟩ hclear
  | load i virtPage =>
    obtain ⟨a, r, a', m', ha, hload, -, rfl⟩ := Vm.step_load_eq_ok hguarded
    exact hloads s i a _ _ _ _ h ha hload
  | read i addr bytes =>
    obtain ⟨a, buf, a', m', ha, hread, -, rfl⟩ := Vm.step_read_eq_ok hguarded
    rw [← Vm.set_self ha] at h
    exact hloads.readFrom _ _ h hread
  | write i addr str bytes =>
    obtain ⟨a, a', m', ha, hwrite, -, rfl⟩ := Vm.step_write_eq_ok hguarded
    rw [← Vm.set_self ha] at h
    refine h.writeFrom bufferSize 0 ?_ (fun _ j hj => absurd hj (Nat.not_lt_zero j)) hwrite
    intro j _ hj hstores
    exact hop a ha j (by omega) hstores
  | readMem i addr size =>
    rcases Vm.step_readMem_eq_ok hguarded with ⟨_, -, rfl⟩ | ⟨a, value, table, ha, hread, -, rfl⟩
    · exact h
    · exact h.readMem ha hread
  | writeMem i addr size value =>
    rcases Vm.step_writeMem_eq_ok hguarded with ⟨_, -, rfl⟩ | ⟨a, mem, table, ha, hwrite, -, rfl⟩
    · exact h
    · exact h.writeMem ha hwrite

/-- In every run whose steps all meet the condition, every clean page can be dropped and loaded again. -/
theorem cleanPages_of_preserving (h : Reachable Vm.Booted (StepOn fs) (PreservesClean fs) s) : CleanPages fs s := by
  have hinv : CleanInv fs s := Reachable.invariant (CleanInv fs) (fun _ => booted_cleanInv)
    (fun _ _ _ hs hop hstep => hs.step hop hstep) h
  exact hinv.cleanPages

end Run

theorem blank_endsClear : blankHeader.initData.EndsClear := by
  rintro v ⟨hpos, -⟩
  exact absurd hpos (by decide)

/-- A page that has been loaded and not stored into. -/
theorem cleanPages_of_preserving_loaded :
    ∃ (s : Vm) (a : AddrSpace), s.spaces 0 = some a ∧ (a.pageTable 0).valid = true ∧ (a.pageTable 0).dirty = false ∧
      CleanPages (onlyFile blankFile) s := by
  obtain ⟨s, hboot, -⟩ := Vm.exists_booted
  obtain ⟨a, ha, hblank, hpages, -⟩ := blank_construct []
  obtain ⟨-, -, htable, -⟩ := construct_eq_ok ha
  have hbuild : PreservesClean (onlyFile blankFile) s (.construct 0 (fun _ => 0) (fun _ => 0#32) []) := by
    refine ⟨⟨0, _, _, Vm.step_build 0 _ ha⟩, ?_⟩
    intro f noffH hopen hfetch
    cases hopen
    rw [blankFile_header] at hfetch
    cases hfetch
    exact ⟨blank_layout, blank_endsClear⟩
  obtain ⟨x, hstep, hguarded⟩ := hboot.step_load_blank ha hblank hpages
  have h1 : Reachable Vm.Booted (StepOn (onlyFile blankFile)) (PreservesClean (onlyFile blankFile)) _ :=
    Reachable.next (Reachable.start hboot) hbuild ⟨0, _, Vm.step_build 0 _ ha⟩
  have h2 : Reachable Vm.Booted (StepOn (onlyFile blankFile)) (PreservesClean (onlyFile blankFile)) _ :=
    Reachable.next (l := .load 0 (0 : ℕ)) h1 ⟨⟨0, _, _, hguarded⟩, trivial⟩ ⟨0, _, hstep⟩
  refine ⟨_, a.resident 0 0, Vm.set_spaces _ 0 _ _, ?_, ?_, cleanPages_of_preserving h2⟩
  · simp [AddrSpace.resident]
  · simp [AddrSpace.resident, htable, TranslationEntry.absent]

theorem blank_regenerates {a : AddrSpace} (h : a.Ok) (hblank : a.noffH = blankHeader) {v : ℕ} (hv : v < a.numPages)
    (hpages : a.numPages = 32) : a.Regenerates (onlyFile blankFile) v fun _ => 0 := by
  have hlayout : a.noffH.Layout (a.numPages * 128) blankFile := by
    rw [hblank, hpages]
    exact blank_layout
  have hclear : a.noffH.initData.EndsClear := by
    rw [hblank]
    exact blank_endsClear
  refine regenerates_of_bytes h hv rfl hlayout hclear 0 ?_
  intro o _
  have hnone : ∀ seg : Segment, seg.size = 0 → ¬ seg.Touches v := by
    rintro seg hsize ⟨hpos, -⟩
    omega
  unfold NoffHeader.loadedByte
  rw [hblank, if_neg (fun hreads => hnone _ rfl hreads.1), if_neg (fun hreads => hnone _ rfl hreads.1)]

theorem setByte_self (m : Memory) (phys : ℕ) (c : UInt8) : (m.setByte phys c).mainMemory phys = c := by
  simp [Memory.setByte]

/-- The kernel copies a byte into a page of zeros: the page is clean, and loading it would bring zeros. -/
theorem kernel_copy_leaves_page_clean :
    ∃ (s : Vm) (a : AddrSpace), Reachable Vm.Booted (StepOn (onlyFile blankFile)) (fun _ _ => True) s ∧
      s.spaces 0 = some a ∧ (a.pageTable 0).valid = true ∧ (a.pageTable 0).dirty = false ∧
      (a.pageTable 0).physicalPage = 0 ∧ s.memory.mainMemory 5 = 7 ∧
      a.Regenerates (onlyFile blankFile) 0 (fun _ => 0) ∧ ¬ CleanPages (onlyFile blankFile) s := by
  obtain ⟨s, hboot, -⟩ := Vm.exists_booted
  obtain ⟨a, ha, hblank, hpages, -⟩ := blank_construct []
  obtain ⟨hok, -, htable, -⟩ := construct_eq_ok ha
  have hfree : firstFree (s.set 0 a s.memory).memory = some 0 := hboot.firstFree
  have hwrite := write_blank hok hblank (v := 0) (j := 5) (by omega) (by decide) (by rw [htable]; rfl) hfree
    (onlyFile blankFile) 0 fun _ => 7
  have hspace := Vm.set_spaces s 0 a s.memory
  have h1 : Reachable Vm.Booted (StepOn (onlyFile blankFile)) (fun _ _ => True) _ :=
    Reachable.next (Reachable.start hboot) trivial ⟨0, _, Vm.step_build 0 _ ha⟩
  have h2 : Reachable Vm.Booted (StepOn (onlyFile blankFile)) (fun _ _ => True) _ :=
    Reachable.next (l := .write 0 ((0 * 128 + 5 : ℕ) : Int) (fun _ => 7) 1) h1 trivial
      ⟨0, _, Vm.step_write (onlyFile blankFile) hspace hwrite⟩
  obtain ⟨s', hs', hmem⟩ : ∃ s' : Vm, Reachable Vm.Booted (StepOn (onlyFile blankFile)) (fun _ _ => True) s' ∧
      s'.spaces 0 = some (a.resident 0 0) ∧ s'.memory.mainMemory 5 = 7 :=
    ⟨_, h2, Vm.set_spaces _ 0 _ _, setByte_self _ 5 7⟩
  have hvalid : ((a.resident 0 0).pageTable 0).valid = true := by simp [AddrSpace.resident]
  have hclean : ((a.resident 0 0).pageTable 0).dirty = false := by
    simp [AddrSpace.resident, htable, TranslationEntry.absent]
  have hzero : ((a.resident 0 0).pageTable 0).physicalPage = 0 := by simp [AddrSpace.resident]
  have hzeros : (a.resident 0 0).Regenerates (onlyFile blankFile) 0 fun _ => 0 :=
    blank_regenerates (hok.resident (by omega) (by decide)) hblank (show 0 < a.numPages by omega) hpages
  refine ⟨s', _, hs', hmem.1, hvalid, hclean, hzero, hmem.2, hzeros, ?_⟩
  intro hpagesClean
  obtain ⟨frame, -, hframe, hregen⟩ := hpagesClean 0 _ 0 hmem.1 (show 0 < a.numPages by omega) hvalid hclean
  have hframe0 : frame = 0 := by omega
  subst hframe0
  obtain ⟨a₁, m₁, hload₁, hbytes₁⟩ := hregen s.memory 0 0 hboot.firstFree
  obtain ⟨a₂, m₂, hload₂, hbytes₂⟩ := hzeros s.memory 0 0 hboot.firstFree
  rw [hload₁] at hload₂
  cases hload₂
  have hbyte := (hbytes₁ 5 (by decide)).symm.trans (hbytes₂ 5 (by decide))
  have hseven : shift s'.memory.mainMemory (0 * pageSize) 5 = 7 := hmem.2
  rw [hseven] at hbyte
  exact absurd hbyte (by decide)

end Nachos
