import Nachos.Userprog.FrameTable
import Nachos.Userprog.DemandLoading

/-! # Paging against flat memories

Seen from outside, every process has a memory of its own that starts as the image of its program and
changes only by the writes made to it. `Vm.contents` reads this memory off the frames and the
executables. Calls whose loads find a free frame and fill it with the image act on it as they would
on flat memories. A page that is dropped to make room takes its contents with it. -/
set_option autoImplicit false

namespace Nachos
open Buffer Execution Placement

variable {v r x fuel : ℕ} {fs : Programs} {addr size : Int} {a a' : AddrSpace} {s s' : Vm} {m : Memory}
  {mem : Image} {table : PageTable}

/-! ## Flat memories -/

/-- A memory for every process. -/
abbrev Flat := ℕ → Image

/-- `AddrSpace::read` on a flat memory. -/
def readBytes (mem : Image) (x : ℕ) (bytes : Int) : ℕ → ℕ → List UInt8
  | 0, _ => []
  | n + 1, k =>
    if bytes = 0 ∨ k < bytes then
      if bytes = 0 ∧ mem (x + k) = 0 then [mem (x + k)] else mem (x + k) :: readBytes mem x bytes n (k + 1)
    else []

/-- `AddrSpace::write` on a flat memory. -/
def writeBytes (x : ℕ) (str : Image) (bytes : Int) : ℕ → ℕ → Image → Image
  | 0, _, mem => mem
  | n + 1, k, mem =>
    if bytes = 0 ∨ k < bytes then
      if bytes = 0 ∧ str k = 0 then Function.update mem (x + k) (str k)
      else writeBytes x str bytes n (k + 1) (Function.update mem (x + k) (str k))
    else mem

/-- The memory of a program before it runs, as the file system has it. -/
def initialImage (fs : Programs) (junk : Image) (name : FileName) : Image :=
  match fs name with
  | none => fun _ => 0
  | some f => match NoffHeader.fetch f junk with
    | .error _ => fun _ => 0
    | .ok noffH => noffH.imageByte f

/-- The flat memories after a call that had the given result. -/
def Flat.after (fs : Programs) (flat : Flat) : VmOp → VmResult → Flat
  | .construct i junk _ name, _ => Function.update flat i (initialImage fs junk name)
  | .write i addr str bytes, _ =>
    Function.update flat i (writeBytes addr.toNat str bytes bufferSize 0 (flat i))
  | .writeMem i addr size value, .done =>
    Function.update flat i (copy (flat i) (toUnsigned addr) (wordByte (BitVec.ofInt 32 value)) size.toNat)
  | _, _ => flat

/-- What a call reads is what the flat memory holds. -/
def Flat.Answers (flat : Flat) : VmOp → VmResult → Prop
  | .read i addr bytes, result => result = .bytes (readBytes (flat i) addr.toNat bytes bufferSize 0)
  | .readMem i addr size, .value n => valueAt (flat i) (toUnsigned addr) size = .ok n
  | _, _ => True

/-! ## The memory that the frames stand for -/

/-- The physical address of a byte that is in a frame. -/
def Vm.phys (s : Vm) (k : ℕ × ℕ) : Option ℕ :=
  (s.frame (k.1, k.2 / 128)).map fun f => f * 128 + k.2 % 128

def AddrSpace.image (fs : Programs) (a : AddrSpace) : Image :=
  match fs a.filename with
  | none => fun _ => 0
  | some f => a.noffH.imageByte f

def Vm.image (fs : Programs) (s : Vm) (k : ℕ × ℕ) : UInt8 :=
  match s.spaces k.1 with
  | none => 0
  | some a => a.image fs k.2

/-- A byte in a frame is read there; the others are those of the image. -/
def Vm.contents (fs : Programs) (s : Vm) : Flat := fun i x =>
  view s.phys s.memory.mainMemory (s.image fs) (i, x)

/-! ## Bytes of pages -/

/-- The physical address of a byte whose page has a frame. -/
def byteAt (page : ℕ × ℕ → Option ℕ) (k : ℕ × ℕ) : Option ℕ := (page (k.1, k.2 / 128)).map fun f => f * 128 + k.2 % 128

section ByteAt

variable {page : ℕ × ℕ → Option ℕ} {k : ℕ × ℕ}

theorem byteAt_eq_some : byteAt page k = some r ↔ ∃ f, page (k.1, k.2 / 128) = some f ∧ r = f * 128 + k.2 % 128 := by
  unfold byteAt
  rw [Option.map_eq_some_iff]
  simp only [eq_comm]

theorem byteAt_eq_none : byteAt page k = none ↔ page (k.1, k.2 / 128) = none := Option.map_eq_none_iff

theorem byteAt_exclusive {used : ℕ → Prop} (h : Exclusive page used) :
    Exclusive (byteAt page) fun r => used (r / 128) := by
  constructor
  · rintro k r hk
    obtain ⟨f, hf, rfl⟩ := byteAt_eq_some.mp hk
    have hdiv : (f * 128 + k.2 % 128) / 128 = f := by omega
    rw [hdiv]
    exact h.used hf
  · rintro ⟨i, x⟩ ⟨j, y⟩ r hk hk'
    obtain ⟨f, hf, hr⟩ := byteAt_eq_some.mp hk
    obtain ⟨g, hg, hr'⟩ := byteAt_eq_some.mp hk'
    dsimp only at hf hg hr hr'
    have hfg : g = f := by omega
    rw [hfg] at hg
    obtain ⟨rfl, hpage⟩ := Prod.mk.inj (h.inj hf hg)
    have hxy : x = y := by omega
    rw [hxy]

/-- A page without a frame is given one that no other page has, filled with what backs the page up. -/
theorem view_loaded {i frame : ℕ} {mem' : Image} {backing : ℕ × ℕ → UInt8} (hnone : page (i, v) = none)
    (hother : ∀ k g, page k = some g → g ≠ frame)
    (hagree : ∀ o, o < frame * 128 ∨ (frame + 1) * 128 ≤ o → mem' o = mem o)
    (hbytes : ∀ x, v * 128 ≤ x → x < (v + 1) * 128 → mem' (frame * 128 + (x - v * 128)) = backing (i, x)) :
    view (byteAt (Function.update page (i, v) (some frame))) mem' backing = view (byteAt page) mem backing := by
  apply view_extend
  · intro k p hk
    obtain ⟨g, hg, rfl⟩ := byteAt_eq_some.mp hk
    have hne : (k.1, k.2 / 128) ≠ (i, v) := by
      intro heq
      rw [heq, hnone] at hg
      cases hg
    have hgf := hother _ g hg
    refine ⟨byteAt_eq_some.mpr ⟨g, ?_, rfl⟩, hagree (g * 128 + k.2 % 128) (by omega)⟩
    rw [Function.update_of_ne hne, hg]
  · rintro ⟨j, x⟩ p hk hk'
    rw [byteAt_eq_none] at hk
    obtain ⟨g, hg, rfl⟩ := byteAt_eq_some.mp hk'
    have heq : (j, x / 128) = (i, v) := by
      by_contra hne
      rw [Function.update_of_ne hne, hk] at hg
      cases hg
    rw [heq, Function.update_self] at hg
    cases hg
    obtain ⟨rfl, rfl⟩ := Prod.mk.inj heq
    have hbyte := hbytes x (by omega) (by omega)
    rwa [show x - x / 128 * 128 = x % 128 by omega] at hbyte

end ByteAt

theorem phys_eq_some {k : ℕ × ℕ} :
    s.phys k = some r ↔ ∃ f, s.frame (k.1, k.2 / 128) = some f ∧ r = f * 128 + k.2 % 128 := byteAt_eq_some

theorem phys_eq_none {k : ℕ × ℕ} : s.phys k = none ↔ s.frame (k.1, k.2 / 128) = none := byteAt_eq_none

theorem phys_exclusive {used : ℕ → Prop} (h : Exclusive s.frame used) :
    Exclusive s.phys fun r => used (r / 128) := byteAt_exclusive h

theorem image_set_same {i : ℕ} (ha : s.spaces i = some a) (hprog : a.SameProgram a') (m : Memory) :
    (s.set i a' m).image fs = s.image fs := by
  funext k
  unfold Vm.image
  by_cases hk : k.1 = i
  · rw [hk, Vm.set_spaces, ha]
    dsimp only
    unfold AddrSpace.image
    rw [hprog.filename, hprog.noffH]
  · rw [Vm.set_spaces_of_ne s hk]

/-! ## The invariant -/

structure PagingInv (fs : Programs) (s : Vm) : Prop extends FrameInv s where
  vacant : ∀ i a v, s.spaces i = some a → v < a.numPages → (a.pageTable v).valid = false →
    (a.pageTable v).physicalPage = -1
  layout : ∀ i a, s.spaces i = some a → ∃ f, fs a.filename = some f ∧ a.noffH.Layout (a.numPages * 128) f

section Pieces

variable {i : ℕ} {m' : Memory}

theorem PagingInv.of_set (h : PagingInv fs s) (hframes : FrameInv (s.set i a m))
    (hvacant : ∀ v < a.numPages, (a.pageTable v).valid = false → (a.pageTable v).physicalPage = -1)
    (hlayout : ∃ f, fs a.filename = some f ∧ a.noffH.Layout (a.numPages * 128) f) :
    PagingInv fs (s.set i a m) where
  toFrameInv := hframes
  vacant j b v hb hv hinvalid := by
    rcases Vm.spaces_set_eq_some hb with ⟨rfl, rfl⟩ | ⟨-, hb⟩
    · exact hvacant v hv hinvalid
    · exact h.vacant j b v hb hv hinvalid
  layout j b hb := by
    rcases Vm.spaces_set_eq_some hb with ⟨rfl, rfl⟩ | ⟨-, hb⟩
    · exact hlayout
    · exact h.layout j b hb

/-- The state keeps the invariant and stands for the flat memories. -/
structure Tracks (fs : Programs) (s : Vm) (flat : Flat) : Prop where
  inv : PagingInv fs s
  same : s.contents fs = flat

variable {flat : Flat}

theorem Tracks.byte (h : Tracks fs s flat) (hx : s.phys (i, x) = some r) : s.memory.mainMemory r = flat i x := by
  rw [← h.same]
  exact (view_some hx).symm

theorem Tracks.build (h : Tracks fs s flat) (i : ℕ) {junk : Image} {words : ℕ → BitVec 32} {name : FileName}
    (hbuild : AddrSpace.construct fs junk words name = .ok a)
    (hlayout : ∃ f, fs a.filename = some f ∧ a.noffH.Layout (a.numPages * 128) f) :
    Tracks fs (s.set i a s.memory) (Function.update flat i (initialImage fs junk name)) := by
  obtain ⟨hok, hname, htable, -, f, hopen, hfetch, -⟩ := construct_eq_ok hbuild
  refine ⟨h.inv.of_set (h.inv.toFrameInv.build i hbuild) (fun v _ _ => by rw [htable]; rfl) hlayout, ?_⟩
  funext j x
  by_cases hj : j = i
  · subst hj
    have hnone : (s.set j a s.memory).phys (j, x) = none := by
      rw [phys_eq_none, vm_frame_eq (Vm.set_spaces s j a s.memory)]
      simp [AddrSpace.frame, htable, TranslationEntry.absent]
    have himage : (s.set j a s.memory).image fs (j, x) = initialImage fs junk name x := by
      unfold Vm.image initialImage AddrSpace.image
      rw [Vm.set_spaces, hopen]
      dsimp only
      rw [hname, hopen, hfetch]
    unfold Vm.contents
    rw [view_none hnone, himage, Function.update_self]
  · have hsame : (s.set i a s.memory).contents fs j x = s.contents fs j x := by
      unfold Vm.contents view Vm.phys Vm.image Vm.frame
      dsimp only
      rw [Vm.set_spaces_of_ne s hj]
      rfl
    rw [Function.update_of_ne hj, hsame, h.same]

/-- A page is loaded into a free frame. -/
theorem PagingInv.loaded (h : PagingInv fs s) (ha : s.spaces i = some a) {frame : ℕ}
    (hfree : firstFree s.memory = some frame) {r : Int}
    (hload : loadPage fs fuel s.memory a v = .ok (r, a.resident v frame, { s.memory.taken frame with mainMemory := mem })) :
    PagingInv fs (s.set i (a.resident v frame) { s.memory.taken frame with mainMemory := mem }) := by
  have hframes := h.toFrameInv.load ha (Or.inr (Or.inr (Or.inr (Or.inr (by rw [hfree]; rfl))))) hload
  refine h.of_set hframes ?_ (h.layout i a ha)
  intro u hu hu'
  simp only [AddrSpace.resident, setEntry_pageTable] at hu' ⊢
  by_cases huv : u = v
  · subst huv
    rw [Function.update_self] at hu'
    cases hu'
  · rw [Function.update_of_ne huv] at hu' ⊢
    exact h.vacant i a u ha hu hu'

theorem PagingInv.touch (h : PagingInv fs s) (w : Bool) (ha : s.spaces i = some a) (hv : v < a.numPages) :
    PagingInv fs (s.set i (a.setEntry v ((a.pageTable v).touched w)) s.memory) := by
  refine h.of_set (h.toFrameInv.touch w ha hv) ?_ (h.layout i a ha)
  intro u hu hinvalid
  rw [(touched_entry a v w u).1]
  rw [(touched_entry a v w u).2] at hinvalid
  exact h.vacant i a u ha hu hinvalid

/-- A free frame is filled with the image of the page. -/
theorem Tracks.resident (h : Tracks fs s flat) (ha : s.spaces i = some a) (hv : v < a.numPages)
    (hinvalid : (a.pageTable v).valid = false) {f : Executable} (hopen : fs a.filename = some f) {frame : ℕ}
    (hfree : firstFree s.memory = some frame) (himage : a.noffH.LoadsImage f v frame) {r : Int}
    (hload : loadPage fs fuel s.memory a v = .ok (r, a', m')) :
    Tracks fs (s.set i a' m') flat ∧ (a'.pageTable v).valid = true := by
  obtain ⟨f', hopen', hlayout⟩ := h.inv.layout i a ha
  rw [hopen] at hopen'
  cases hopen'
  have hok := h.inv.ok i a ha
  obtain ⟨mem, hload', hagree, hbytes⟩ := loadPage_bytes hok hv hinvalid hfree hopen hlayout fuel
  rw [hload] at hload'
  cases hload'
  have hprog : a.SameProgram (a.resident v frame) := setEntry_sameProgram a v _
  have hnone : s.frame (i, v) = none := by
    rw [vm_frame_eq ha]
    simp [AddrSpace.frame, h.inv.vacant i a v ha hv hinvalid]
  have hplace : (s.set i (a.resident v frame) { s.memory.taken frame with mainMemory := mem }).frame =
      Function.update s.frame (i, v) (some frame) := frame_set_entry ha _ hv rfl
  refine ⟨⟨h.inv.loaded ha hfree hload, ?_⟩, by simp [AddrSpace.resident]⟩
  have hview : view (byteAt (Function.update s.frame (i, v) (some frame))) mem (s.image fs) =
      view (byteAt s.frame) s.memory.mainMemory (s.image fs) := by
    refine view_loaded hnone (frame_ne_free h.inv.exclusive hfree) (fun o ho => hagree o (by omega)) fun x hx hx' => ?_
    rw [hbytes x hx hx', (loadsImage_iff hlayout v frame).mp himage x hx hx']
    unfold Vm.image AddrSpace.image
    rw [ha]
    dsimp only
    rw [hopen]
  rw [← h.same]
  funext j x
  refine Eq.trans ?_ (congrFun hview (j, x))
  unfold Vm.contents Vm.phys
  rw [image_set_same ha hprog, hplace]
  rfl

theorem Tracks.setByte (h : Tracks fs s flat) (hx : s.phys (i, x) = some r) (c : UInt8) :
    Tracks fs { s with memory := s.memory.setByte r c }
      (Function.update flat i (Function.update (flat i) x c)) := by
  refine ⟨⟨⟨h.inv.ok, h.inv.resident, h.inv.exclusive⟩, h.inv.vacant, h.inv.layout⟩, ?_⟩
  rw [← h.same]
  exact view_write_pair (phys_exclusive h.inv.exclusive) hx c

theorem Tracks.touch (h : Tracks fs s flat) (w : Bool) (ha : s.spaces i = some a) (hv : v < a.numPages) :
    Tracks fs (s.set i (a.setEntry v ((a.pageTable v).touched w)) s.memory) flat := by
  have hprog := setEntry_sameProgram a v ((a.pageTable v).touched w)
  have hentry := touched_entry a v w
  refine ⟨h.inv.touch w ha hv, ?_⟩
  rw [← h.same]
  unfold Vm.contents Vm.phys
  rw [image_set_same ha hprog, frame_set_same ha s.memory hprog fun u => (hentry u).1]
  rfl

end Pieces

/-! ## Calls whose loads leave the contents alone -/

/-- The page needs no loading, or a frame is free and the image is what is loaded into it. -/
def LoadsExactly (fs : Programs) (m : Memory) (a : AddrSpace) (virtPage : Int) : Prop :=
  virtPage < 0 ∨ (a.numPages : Int) ≤ virtPage ∨ (a.pageTable virtPage.toNat).valid = true ∨
    ∃ f frame, fs a.filename = some f ∧ firstFree m = some frame ∧ a.noffH.LoadsImage f virtPage.toNat frame

theorem LoadsExactly.hasFrame {v : Int} (h : LoadsExactly fs m a v) : HasFrame m a v := by
  rcases h with h | h | h | ⟨f, frame, -, hfree, -⟩
  · exact Or.inl h
  · exact Or.inr (Or.inl h)
  · exact Or.inr (Or.inr (Or.inl h))
  · exact Or.inr (Or.inr (Or.inr (Or.inr (by rw [hfree]; rfl))))

theorem LoadsExactly.of_invalid (h : LoadsExactly fs m a v) (hv : v < a.numPages)
    (hinvalid : (a.pageTable v).valid = false) :
    ∃ f frame, fs a.filename = some f ∧ firstFree m = some frame ∧ a.noffH.LoadsImage f v frame := by
  rw [LoadsExactly, Int.toNat_natCast, hinvalid] at h
  rcases h with h | h | h | h
  · omega
  · omega
  · cases h
  · exact h

section Calls

variable {i : ℕ} {m' : Memory} {flat : Flat}

/-- A routine that returns what `load_page` returns, and only where it loads exactly. -/
def Exact (fs : Programs) (loader : Loader) : Prop :=
  ∀ m a v x, loader m a v = .ok x → LoadsExactly fs m a v ∧ ∃ fuel, loadPage fs fuel m a v = .ok x

variable {loader : Loader}

theorem Tracks.load (hexact : Exact fs loader) (h : Tracks fs s flat) (ha : s.spaces i = some a) {v r : Int}
    (hload : loader s.memory a v = .ok (r, a', m')) :
    Tracks fs (s.set i a' m') flat ∧
      ∀ w : ℕ, v = w → w < a.numPages → (a'.pageTable w).valid = true := by
  obtain ⟨hloads, fuel, hload⟩ := hexact _ _ _ _ hload
  rcases loadPage_cases hload with ⟨rfl, rfl⟩ | ⟨w, rfl, hw, hinvalid, -⟩
  · rw [Vm.set_self ha]
    refine ⟨h, ?_⟩
    intro w hvw hw
    subst hvw
    by_contra hinvalid
    rw [Bool.not_eq_true] at hinvalid
    obtain ⟨f, frame, hopen, hfree, himage⟩ := hloads.of_invalid hw hinvalid
    exact Bool.false_ne_true (hinvalid.symm.trans (h.resident ha hw hinvalid hopen hfree himage hload).2)
  · obtain ⟨f, frame, hopen, hfree, himage⟩ := hloads.of_invalid hw hinvalid
    obtain ⟨htracks, hvalid⟩ := h.resident ha hw hinvalid hopen hfree himage hload
    refine ⟨htracks, ?_⟩
    intro u hu _
    have huw : u = w := by omega
    rw [huw]
    exact hvalid

theorem Tracks.frame (h : Tracks fs s flat) (ha : s.spaces i = some a) (hv : v < a.numPages)
    (hvalid : (a.pageTable v).valid = true) :
    ∃ f, f < numPhysPages ∧ (a.pageTable v).physicalPage = f ∧
      ∀ x, x / 128 = v → s.phys (i, x) = some (f * 128 + x % 128) := by
  obtain ⟨⟨hlo, hhi⟩, hframe⟩ := h.inv.valid_frame ha hv hvalid
  refine ⟨_, by omega, (Int.toNat_of_nonneg hlo).symm, ?_⟩
  intro x hx
  exact phys_eq_some.mpr ⟨_, by rw [hx]; exact hframe, rfl⟩

/-- The byte at a virtual address, after its page has been loaded. -/
theorem Tracks.locate (hexact : Exact fs loader) (h : Tracks fs (s.set i a m) flat) (haddr : 0 ≤ addr) {phys : ℕ}
    (hloc : locate loader m a addr = .ok (phys, a', m')) :
    Tracks fs (s.set i a' m') flat ∧ (s.set i a' m').phys (i, addr.toNat) = some phys := by
  obtain ⟨x, rfl⟩ := Int.eq_ofNat_of_zero_le haddr
  have hdiv : (x : Int).tdiv ((pageSize : ℕ) : Int) = ((x / 128 : ℕ) : Int) := by
    rw [Int.tdiv_eq_ediv_of_nonneg haddr]
    simp only [pageSize, sectorSize]
    omega
  have hmod : (x : Int).tmod ((pageSize : ℕ) : Int) = ((x % 128 : ℕ) : Int) := by
    rw [Int.tmod_eq_emod_of_nonneg haddr]
    simp only [pageSize, sectorSize]
    omega
  obtain ⟨-, hrange, hens, hbyte⟩ := locate_eq_ok hloc
  rw [hdiv] at hrange
  rw [hdiv, Int.toNat_natCast] at hens
  rw [hdiv, hmod, Int.toNat_natCast] at hbyte
  have hloaded : Tracks fs (s.set i a' m') flat ∧ a'.numPages = a.numPages ∧
      (a'.pageTable (x / 128)).valid = true := by
    unfold ensureLoaded at hens
    split at hens
    · obtain ⟨⟨r, a1, m1⟩, hload, hens⟩ := bind_eq_ok.mp hens
      cases hens
      obtain ⟨htracks, hvalid⟩ := h.load hexact (Vm.set_spaces s i a m) hload
      rw [Vm.set_set] at htracks
      obtain ⟨-, fuel, hload⟩ := hexact _ _ _ _ hload
      have hprog := (loadPage_ok (h.inv.ok i a (Vm.set_spaces s i a m)) hload).2
      exact ⟨htracks, hprog.numPages, hvalid _ rfl (by omega)⟩
    · next hthere =>
      cases hens
      refine ⟨h, rfl, ?_⟩
      by_contra hinvalid
      rw [Bool.not_eq_true] at hinvalid
      exact hthere (Or.inl hinvalid)
  obtain ⟨htracks, hpages, hvalid⟩ := hloaded
  have hv : x / 128 < a'.numPages := by omega
  obtain ⟨f, hf, hframe, hphys⟩ := htracks.frame (Vm.set_spaces s i a' m') hv hvalid
  refine ⟨htracks, ?_⟩
  rw [hframe] at hbyte
  simp only [pageSize, sectorSize] at hbyte
  rw [Int.toNat_natCast, hphys x rfl]
  congr 1
  omega

/-- An address that runs past the largest `int` is negative, and no page is there. -/
theorem locate_addr (haddr : 0 ≤ addr) (hmax : addr ≤ 2147483647) {k : ℕ} (hk : k < bufferSize)
    {x : ℕ × AddrSpace × Memory} (hloc : locate loader m a (int32 (addr + k)) = .ok x) :
    int32 (addr + k) = addr + k := by
  obtain ⟨hlo, hhi, n, hn⟩ := int32_spec (addr + k)
  have hcases := tdiv_tmod_cases (int32 (addr + k))
  obtain ⟨hpage, -⟩ := locate_eq_ok hloc
  simp only [pageSize, sectorSize, Nat.cast_ofNat, bufferSize] at hk hpage
  omega

theorem Tracks.readFrom (hexact : Exact fs loader) {bytes : Int} (haddr : 0 ≤ addr) (hmax : addr ≤ 2147483647)
    (n k : ℕ) (hk : k + n ≤ bufferSize) {m' : Memory} {buf : List UInt8} (h : Tracks fs (s.set i a m) flat)
    (hread : readFrom loader addr bytes n k m a = .ok (buf, a', m')) :
    Tracks fs (s.set i a' m') flat ∧ buf = readBytes (flat i) addr.toNat bytes n k := by
  induction n generalizing k m a buf with
  | zero =>
    cases hread
    exact ⟨h, rfl⟩
  | succ n ih =>
    unfold Nachos.readFrom at hread
    unfold readBytes
    split at hread
    · next hmore =>
      rw [if_pos hmore]
      obtain ⟨⟨phys, a1, m1⟩, hloc, hread⟩ := bind_eq_ok.mp hread
      rw [locate_addr haddr hmax (by omega) hloc] at hloc
      obtain ⟨h1, hphys⟩ := h.locate hexact (by omega) hloc
      have hbyte := h1.byte hphys
      have hx : (addr + k).toNat = addr.toNat + k := by omega
      rw [hx] at hbyte
      dsimp only at hread
      rw [show m1.mainMemory phys = _ from hbyte] at hread
      split at hread
      · next hend =>
        cases hread
        rw [if_pos hend]
        exact ⟨h1, rfl⟩
      · next hgoOn =>
        obtain ⟨⟨rest, a2, m2⟩, hrest, hread⟩ := bind_eq_ok.mp hread
        cases hread
        obtain ⟨h2, rfl⟩ := ih (k + 1) (by omega) h1 hrest
        rw [if_neg hgoOn]
        exact ⟨h2, rfl⟩
    · next hdone =>
      cases hread
      rw [if_neg hdone]
      exact ⟨h, rfl⟩

theorem Tracks.writeFrom (hexact : Exact fs loader) {bytes : Int} (haddr : 0 ≤ addr) (hmax : addr ≤ 2147483647)
    (str : Image) (n k : ℕ) (hk : k + n ≤ bufferSize) {m' : Memory} {flat : Flat} (h : Tracks fs (s.set i a m) flat)
    (hwrite : writeFrom loader addr str bytes n k m a = .ok (a', m')) :
    Tracks fs (s.set i a' m') (Function.update flat i (writeBytes addr.toNat str bytes n k (flat i))) := by
  induction n generalizing k m a flat with
  | zero =>
    cases hwrite
    unfold writeBytes
    rwa [Function.update_eq_self]
  | succ n ih =>
    unfold Nachos.writeFrom at hwrite
    unfold writeBytes
    split at hwrite
    · next hmore =>
      rw [if_pos hmore]
      obtain ⟨⟨phys, a1, m1⟩, hloc, hwrite⟩ := bind_eq_ok.mp hwrite
      rw [locate_addr haddr hmax (by omega) hloc] at hloc
      obtain ⟨h1, hphys⟩ := h.locate hexact (by omega) hloc
      have hx : (addr + k).toNat = addr.toNat + k := by omega
      rw [hx] at hphys
      have h2 : Tracks fs (s.set i a1 (m1.setByte phys (str k))) _ := h1.setByte hphys (str k)
      dsimp only at hwrite
      split at hwrite
      · next hend =>
        cases hwrite
        rw [if_pos hend]
        exact h2
      · next hgoOn =>
        rw [if_neg hgoOn]
        have h3 := ih (k + 1) (by omega) h2 hwrite
        rwa [Function.update_idem, Function.update_self] at h3
    · next hdone =>
      cases hwrite
      rw [if_neg hdone, Function.update_eq_self]
      exact h

theorem Tracks.copy (h : Tracks fs s flat) (src : Image) (n : ℕ) (hphys : ∀ t < n, s.phys (i, x + t) = some (r + t)) :
    Tracks fs { s with memory := { s.memory with mainMemory := copy s.memory.mainMemory r src n } }
      (Function.update flat i (copy (flat i) x src n)) := by
  induction n with
  | zero =>
    rw [copy_zero, copy_zero, Function.update_eq_self]
    exact h
  | succ n ih =>
    have hstore := (ih fun t ht => hphys t (by omega)).setByte (hphys n (by omega)) (src n)
    rw [Function.update_idem, Function.update_self, ← copy_succ] at hstore
    rw [copy_succ]
    exact hstore

/-- An access that `Machine::Translate` lets through stays in one page, and that page is in a frame. -/
theorem Tracks.translate (h : Tracks fs s flat) (ha : s.spaces i = some a) {writing : Bool} {phys : ℕ}
    (hsize : size = 1 ∨ size = 2 ∨ size = 4)
    (htrans : translate a.pageTable a.numPages addr size writing = .ok (.ok (phys, table))) :
    Tracks fs (s.set i { a with pageTable := table } s.memory) flat ∧
      ∀ t < size.toNat,
        (s.set i { a with pageTable := table } s.memory).phys (i, toUnsigned addr + t) = some (phys + t) := by
  obtain ⟨hv, hvalid, hphys, hfour, htwo, htable⟩ := translate_eq_ok htrans
  have h1 := h.touch writing ha hv
  have hvalid' := (touched_entry a (toUnsigned addr / 128) writing (toUnsigned addr / 128)).2.trans hvalid
  have hframe' := (touched_entry a (toUnsigned addr / 128) writing (toUnsigned addr / 128)).1
  obtain ⟨f, hf, hframe, hbytes⟩ := h1.frame (Vm.set_spaces s i _ _) hv hvalid'
  rw [hframe'] at hframe
  have hunsigned : toUnsigned (a.pageTable (toUnsigned addr / 128)).physicalPage = f := by
    rw [hframe]
    simp only [numPhysPages] at hf
    rw [toUnsigned]
    omega
  rw [htable]
  refine ⟨h1, ?_⟩
  intro t ht
  have hinside : toUnsigned addr % 128 + t < 128 := by
    rw [toUnsigned]
    omega
  have hbyte := hbytes (toUnsigned addr + t) (by omega)
  have hsame : f * 128 + (toUnsigned addr + t) % 128 = phys + t := by
    rw [hphys, hunsigned]
    omega
  rw [hsame] at hbyte
  exact hbyte

theorem Tracks.readMem (h : Tracks fs s flat) (ha : s.spaces i = some a) {value : Int}
    (hread : readMem a.pageTable a.numPages s.memory.mainMemory addr size = .ok (.ok (value, table))) :
    Tracks fs (s.set i { a with pageTable := table } s.memory) flat ∧
      valueAt (flat i) (toUnsigned addr) size = .ok value := by
  obtain ⟨r, htrans, hread⟩ := bind_eq_ok.mp hread
  cases r with
  | error exception => cases hread
  | ok r =>
    obtain ⟨phys, table'⟩ := r
    obtain ⟨value', hvalue, hread⟩ := bind_eq_ok.mp hread
    cases hread
    have hsize : size = 1 ∨ size = 2 ∨ size = 4 := by
      by_contra hother
      rw [valueAt, if_neg (by omega), if_neg (by omega), if_neg (by omega)] at hvalue
      cases hvalue
    obtain ⟨h1, hphys⟩ := h.translate ha hsize htrans
    refine ⟨h1, ?_⟩
    rw [← hvalue]
    apply valueAt_congr
    intro t ht
    exact (h1.byte (hphys t ht)).symm

theorem Tracks.writeMem (h : Tracks fs s flat) (ha : s.spaces i = some a) {value : Int}
    (hwrite : writeMem a.pageTable a.numPages s.memory.mainMemory addr size value = .ok (.ok (mem, table))) :
    Tracks fs (s.set i { a with pageTable := table } { s.memory with mainMemory := mem })
      (Function.update flat i
        (Buffer.copy (flat i) (toUnsigned addr) (wordByte (BitVec.ofInt 32 value)) size.toNat)) := by
  obtain ⟨r, htrans, hwrite⟩ := bind_eq_ok.mp hwrite
  cases r with
  | error exception => cases hwrite
  | ok r =>
    obtain ⟨phys, table'⟩ := r
    obtain ⟨mem', hput, hwrite⟩ := bind_eq_ok.mp hwrite
    cases hwrite
    rw [putValue] at hput
    split at hput
    · next hsize =>
      cases hput
      obtain ⟨h1, hphys⟩ := h.translate ha hsize htrans
      exact h1.copy (wordByte (BitVec.ofInt 32 value)) size.toNat hphys
    · cases hput

/-- The segments of the program lie in its space and in its file, and the kernel is not asked for a byte
below address `0`. -/
def VmOp.InSpace (fs : Programs) : VmOp → Prop
  | .construct _ junk _ name => ∀ f noffH, fs name = some f → NoffHeader.fetch f junk = .ok noffH →
    noffH.Layout ((divRoundUp noffH.spaceSize pageSize).toNat * 128) f
  | .read _ addr _ => 0 ≤ addr ∧ addr ≤ 2147483647
  | .write _ addr _ _ => 0 ≤ addr ∧ addr ≤ 2147483647
  | _ => True

/-- Such a call does to the flat memories what it says, and reads what they hold. -/
theorem Tracks.step (hexact : Exact fs loader) (h : Tracks fs s flat) {op : VmOp} (hop : op.InSpace fs)
    {result : VmResult} (hstep : s.step fs loader op = .ok (result, s')) :
    Tracks fs s' (flat.after fs op result) ∧ flat.Answers op result := by
  cases op with
  | construct i junk words name =>
    obtain ⟨a, hbuild, rfl, rfl⟩ := Vm.step_build_eq_ok hstep
    obtain ⟨hok, hname, -, -, f, hopen, hfetch, -⟩ := construct_eq_ok hbuild
    have hlayout := hop f a.noffH hopen hfetch
    rw [← hok.pages, Int.toNat_natCast] at hlayout
    exact ⟨h.build i hbuild ⟨f, by rw [hname]; exact hopen, hlayout⟩, trivial⟩
  | load i virtPage =>
    obtain ⟨a, r, a', m', ha, hload, rfl, rfl⟩ := Vm.step_load_eq_ok hstep
    exact ⟨(h.load hexact ha hload).1, trivial⟩
  | read i addr bytes =>
    obtain ⟨a, buf, a', m', ha, hread, rfl, rfl⟩ := Vm.step_read_eq_ok hstep
    rw [← Vm.set_self ha] at h
    obtain ⟨h1, rfl⟩ := h.readFrom hexact hop.1 hop.2 bufferSize 0 (by omega) hread
    exact ⟨h1, rfl⟩
  | write i addr str bytes =>
    obtain ⟨a, a', m', ha, hwrite, rfl, rfl⟩ := Vm.step_write_eq_ok hstep
    rw [← Vm.set_self ha] at h
    exact ⟨h.writeFrom hexact hop.1 hop.2 str bufferSize 0 (by omega) hwrite, trivial⟩
  | readMem i addr size =>
    rcases Vm.step_readMem_eq_ok hstep with ⟨_, rfl, rfl⟩ | ⟨a, value, table, ha, hread, rfl, rfl⟩
    · exact ⟨h, trivial⟩
    · exact h.readMem ha hread
  | writeMem i addr size value =>
    rcases Vm.step_writeMem_eq_ok hstep with ⟨_, rfl, rfl⟩ | ⟨a, mem, table, ha, hwrite, rfl, rfl⟩
    · exact ⟨h, trivial⟩
    · exact ⟨h.writeMem ha hwrite, trivial⟩

end Calls

/-! ## Runs -/

/-- A call, and what it means for the flat memories. -/
def PagedStep (fs : Programs) (p : Vm × Flat) (op : VmOp) (p' : Vm × Flat) : Prop :=
  ∃ fuel result, p.1.step fs (loadPage fs fuel) op = .ok (result, p'.1) ∧ p'.2 = p.2.after fs op result

def PagedBoot (p : Vm × Flat) : Prop := p.1.Booted ∧ ∀ i x, p.2 i x = 0

open Classical in
/-- `load_page`, stopped where it would not load exactly. -/
noncomputable def exactLoader (fs : Programs) (fuel : ℕ) : Loader :=
  Vm.guarded (LoadsExactly fs) (loadPage fs fuel)

open Classical in
theorem exactLoader_eq_ok {v : Int} {x : Int × AddrSpace × Memory} :
    exactLoader fs fuel m a v = .ok x ↔ LoadsExactly fs m a v ∧ loadPage fs fuel m a v = .ok x :=
  Vm.guarded_eq_ok

theorem exactLoader_exact (fs : Programs) (fuel : ℕ) : Exact fs (exactLoader fs fuel) := by
  intro m a v x hx
  obtain ⟨hloads, hx⟩ := exactLoader_eq_ok.mp hx
  exact ⟨hloads, fuel, hx⟩

open Classical in
theorem exactLoader_loadsAs (fs : Programs) (fuel fuel' : ℕ) : Vm.LoadsAs (exactLoader fs fuel) (loadPage fs fuel') :=
  guarded_loadsAs (fun _ _ _ hloads => hloads.hasFrame) fs fuel fuel'

/-- Every load that the call makes loads exactly. -/
def Undisturbed (fs : Programs) (p : Vm × Flat) (op : VmOp) : Prop :=
  op.InSpace fs ∧ ∃ fuel x, p.1.step fs (exactLoader fs fuel) op = .ok x

section Run

variable {i : ℕ} {flat : Flat}

theorem booted_tracks (h : s.Booted) (hflat : ∀ i x, flat i x = 0) : Tracks fs s flat := by
  refine ⟨⟨booted_frameInv h, ?_, ?_⟩, ?_⟩
  · intro i a v ha
    rw [h.spaces i] at ha
    cases ha
  · intro i a ha
    rw [h.spaces i] at ha
    cases ha
  · funext i x
    have hnone : s.phys (i, x) = none := by simp [Vm.phys, Vm.frame, h.spaces]
    unfold Vm.contents
    rw [view_none hnone, hflat i x, Vm.image, h.spaces]

theorem Tracks.next {op : VmOp} (h : Tracks fs s flat) (hop : Undisturbed fs (s, flat) op) {result : VmResult}
    (hstep : s.step fs (loadPage fs fuel) op = .ok (result, s')) :
    Tracks fs s' (flat.after fs op result) ∧ flat.Answers op result := by
  obtain ⟨hspace, fuel', x, hguarded⟩ := hop
  have hsame := (exactLoader_loadsAs fs fuel' fuel).step hguarded
  rw [hstep] at hsame
  cases hsame
  exact h.step (exactLoader_exact fs fuel') hspace hguarded

theorem Tracks.locate_returns (h : Tracks fs s flat) (ha : s.spaces i = some a) {j : ℕ} (hv : v < a.numPages)
    (hj : j < 128) (hloads : LoadsExactly fs s.memory a v) (fuel : ℕ) :
    ∃ x, Nachos.locate (exactLoader fs fuel) s.memory a ((v * 128 + j : ℕ) : Int) = .ok x := by
  cases hvalid : (a.pageTable v).valid with
  | true =>
    obtain ⟨f, hf, hframe, -⟩ := h.frame ha hv hvalid
    have hens : ensureLoaded (exactLoader fs fuel) s.memory a v = .ok (a, s.memory) := by
      unfold ensureLoaded
      rw [if_neg]
      rintro (hinvalid | hnone)
      · rw [hvalid] at hinvalid
        cases hinvalid
      · omega
    exact ⟨_, locate_of_loaded hv hj hf hens hframe⟩
  | false =>
    obtain ⟨f, frame, hopen, hfree, -⟩ := hloads.of_invalid hv hvalid
    obtain ⟨f', hopen', hlayout⟩ := h.inv.layout i a ha
    rw [hopen] at hopen'
    cases hopen'
    obtain ⟨mem, hload, -⟩ := loadPage_bytes (h.inv.ok i a ha) hv hvalid hfree hopen hlayout fuel
    have hframe : ((a.resident v frame).pageTable v).physicalPage = frame := by simp [AddrSpace.resident]
    exact ⟨_, locate_of_loaded hv hj (firstFree_eq_some.mp hfree).1
      (ensureLoaded_of_absent hvalid (exactLoader_eq_ok.mpr ⟨hloads, hload⟩)) hframe⟩

theorem Tracks.read_returns (h : Tracks fs s flat) (ha : s.spaces i = some a) {j : ℕ} (hv : v < a.numPages)
    (hj : j < 128) (hloads : LoadsExactly fs s.memory a v) (fuel : ℕ) :
    ∃ s', s.step fs (loadPage fs fuel) (.read i ((v * 128 + j : ℕ) : Int) 1) =
      .ok (.bytes [flat i (v * 128 + j)], s') := by
  have hok := h.inv.ok i a ha
  obtain ⟨⟨phys, a', m'⟩, hloc⟩ := h.locate_returns ha hv hj hloads fuel
  have hread : a.read (exactLoader fs fuel) s.memory ((v * 128 + j : ℕ) : Int) 1 =
      .ok ([m'.mainMemory phys], a', m') := by
    rw [read_one, hok.int32_addr hv hj, hloc, ok_bind]
    rfl
  have hstep := Vm.step_read fs ha hread
  have hspace : VmOp.InSpace fs (.read i ((v * 128 + j : ℕ) : Int) 1) := by
    have hfits := hok.fits
    simp only [numPhysPages] at hfits
    exact ⟨by omega, by omega⟩
  have hanswer : VmResult.bytes [m'.mainMemory phys] = .bytes [flat i (v * 128 + j)] :=
    (h.step (exactLoader_exact fs fuel) hspace hstep).2
  rw [hanswer] at hstep
  exact ⟨_, (exactLoader_loadsAs fs fuel fuel).step hstep⟩

theorem Tracks.readMem_returns (h : Tracks fs s flat) (ha : s.spaces i = some a) (hx : x / 128 < a.numPages)
    (hvalid : (a.pageTable (x / 128)).valid = true) (loader : Loader) :
    ∃ s', s.step fs loader (.readMem i x 1) = .ok (.value (flat i x).toBitVec.toInt, s') := by
  have hfits := (h.inv.ok i a ha).fits
  simp only [numPhysPages] at hfits
  obtain ⟨f, hf, hframe, hphys⟩ := h.frame ha hx hvalid
  have htrans := translate_mapped false (Or.inl rfl) (by omega) hx hvalid (by simp) hf hframe
  have hread : Nachos.readMem a.pageTable a.numPages s.memory.mainMemory x 1 =
      .ok (.ok ((flat i x).toBitVec.toInt,
        Function.update a.pageTable (x / 128) ((a.pageTable (x / 128)).touched false))) := by
    unfold Nachos.readMem
    rw [htrans, ok_bind, ← h.byte (hphys x rfl)]
    rfl
  exact ⟨_, Vm.step_readMem fs loader ha hread⟩

theorem writeBytes_one (x : ℕ) (str mem : Image) :
    writeBytes x str 1 bufferSize 0 mem = Function.update mem x (str 0) := by
  rw [show bufferSize = 999 + 1 from rfl, writeBytes, if_pos (by decide)]
  rfl

variable {m' : Memory}

theorem pagedStep_build (s : Vm) (flat : Flat) (i : ℕ) {junk : Image} {words : ℕ → BitVec 32} {name : FileName}
    (hbuild : AddrSpace.construct fs junk words name = .ok a) :
    PagedStep fs (s, flat) (.construct i junk words name)
      (s.set i a s.memory, Function.update flat i (initialImage fs junk name)) :=
  ⟨0, .done, Vm.step_build i _ hbuild, rfl⟩

theorem pagedStep_write (flat : Flat) (ha : s.spaces i = some a) {str : Image}
    (hwrite : a.write (loadPage fs fuel) s.memory x str 1 = .ok (a', m')) :
    PagedStep fs (s, flat) (.write i x str 1)
      (s.set i a' m', Function.update flat i (Function.update (flat i) x (str 0))) := by
  refine ⟨fuel, .done, Vm.step_write fs ha hwrite, ?_⟩
  rw [← writeBytes_one]
  rfl

end Run

theorem blank_layout : blankHeader.Layout 4096 blankFile :=
  ⟨by constructor <;> decide, by constructor <;> decide⟩

theorem blank_loadsImage (v frame : ℕ) : blankHeader.LoadsImage blankFile v frame where
  codePast _ _ _ hread := absurd hread.1.1 (by decide)
  dataPast _ _ _ hread := absurd hread.1.1 (by decide)
  dataLeft x _ _ hcovers := by
    unfold Segment.Covers at hcovers
    simp only [blankHeader] at hcovers
    omega

/-- In every run whose loads all find a free frame and fill it with the image, memory reads as if it were
flat: a byte is what was last written to it, or what the image has there. -/
theorem paging_transparent {p : Vm × Flat} (h : Reachable PagedBoot (PagedStep fs) (Undisturbed fs) p) :
    (∀ op, Undisturbed fs p op → ∀ fuel result s', p.1.step fs (loadPage fs fuel) op = .ok (result, s') →
      p.2.Answers op result) ∧
    ∀ i a v j, p.1.spaces i = some a → v < a.numPages → j < 128 →
      (LoadsExactly fs p.1.memory a v → ∀ fuel, ∃ s',
        p.1.step fs (loadPage fs fuel) (.read i ((v * 128 + j : ℕ) : Int) 1) =
          .ok (.bytes [p.2 i (v * 128 + j)], s')) ∧
      ((a.pageTable v).valid = true → ∀ fuel, ∃ s',
        p.1.step fs (loadPage fs fuel) (.readMem i ((v * 128 + j : ℕ) : Int) 1) =
          .ok (.value (p.2 i (v * 128 + j)).toBitVec.toInt, s')) := by
  have htracks : Tracks fs p.1 p.2 := by
    apply Reachable.invariant (fun p : Vm × Flat => Tracks fs p.1 p.2) _ _ h
    · rintro p ⟨hboot, hflat⟩
      exact booted_tracks hboot hflat
    · rintro p op p' hp hop ⟨fuel, result, hstep, hflat⟩
      rw [hflat]
      exact (hp.next hop hstep).1
  refine ⟨?_, ?_⟩
  · intro op hop fuel result s' hstep
    exact (htracks.next hop hstep).2
  · intro i a v j ha hv hj
    refine ⟨fun hloads fuel => htracks.read_returns ha hv hj hloads fuel, ?_⟩
    intro hvalid fuel
    have hpage : (v * 128 + j) / 128 = v := by omega
    exact htracks.readMem_returns ha (by rw [hpage]; exact hv) (by rw [hpage]; exact hvalid) _

/-- A byte that is written, and read back. -/
theorem paging_transparent_written :
    ∃ (s s' : Vm) (flat : Flat),
      Reachable PagedBoot (PagedStep (onlyFile blankFile)) (Undisturbed (onlyFile blankFile)) (s, flat) ∧
      flat 0 0 = 7 ∧
      s.step (onlyFile blankFile) (loadPage (onlyFile blankFile) 0) (.read 0 ((0 * 128 + 0 : ℕ) : Int) 1) =
        .ok (.bytes [7], s') := by
  obtain ⟨s, hboot, -⟩ := Vm.exists_booted
  obtain ⟨a, ha, hblank, hpages, -⟩ := blank_construct []
  obtain ⟨hok, -, htable, -⟩ := construct_eq_ok ha
  have hinvalid : (a.pageTable 0).valid = false := by rw [htable]; rfl
  have hfree : firstFree s.memory = some 0 := hboot.firstFree
  have hload : loadPage (onlyFile blankFile) 0 s.memory a (0 : ℕ) = _ :=
    hboot.load_blank ha hblank hpages
  have hloads : LoadsExactly (onlyFile blankFile) s.memory a (0 : ℕ) :=
    Or.inr (Or.inr (Or.inr ⟨blankFile, 0, rfl, hfree, hblank ▸ blank_loadsImage 0 0⟩))
  have hbuild : Undisturbed (onlyFile blankFile) (s, fun _ _ => 0)
      (.construct 0 (fun _ => 0) (fun _ => 0#32) []) := by
    refine ⟨?_, 0, _, Vm.step_build 0 _ ha⟩
    intro f noffH hopen hfetch
    cases hopen
    rw [blankFile_header] at hfetch
    cases hfetch
    exact blank_layout
  have hstart : PagedBoot (s, fun _ _ => 0) := ⟨hboot, fun _ _ => rfl⟩
  have h1 := Reachable.next (Reachable.start hstart) hbuild (pagedStep_build s (fun _ _ => 0) 0 ha)
  have hspace := Vm.set_spaces s 0 a s.memory
  have hwrite := write_resident hok (j := 0) (by omega) (by decide) (by decide) hinvalid hload (fun _ => 7)
  have hexact := write_resident hok (j := 0) (by omega) (by decide) (by decide) hinvalid
    (exactLoader_eq_ok.mpr ⟨hloads, hload⟩) (fun _ => 7)
  have hinside : VmOp.InSpace (onlyFile blankFile) (.write 0 ((0 * 128 + 0 : ℕ) : Int) (fun _ => 7) 1) :=
    ⟨by decide, by decide⟩
  have h2 := Reachable.next h1 ⟨hinside, 0, _, Vm.step_write (onlyFile blankFile) hspace hexact⟩
    (pagedStep_write _ hspace hwrite)
  have hvalid : ((a.resident 0 0).pageTable 0).valid = true := by simp [AddrSpace.resident]
  obtain ⟨s', hread⟩ := ((paging_transparent h2).2 0 (a.resident 0 0) 0 0 (Vm.set_spaces _ 0 _ _)
    (by rw [show (a.resident 0 0).numPages = a.numPages from rfl]; omega) (by decide)).1
    (Or.inr (Or.inr (Or.inl hvalid))) 0
  exact ⟨_, s', _, h2, rfl, hread⟩

/-! ## A byte that is lost -/

theorem Faults.paged {flat : Flat} (h : Faults fs s s')
    (hs : Reachable PagedBoot (PagedStep fs) (fun _ _ => True) (s, flat)) :
    Reachable PagedBoot (PagedStep fs) (fun _ _ => True) (s', flat) := by
  induction h with
  | refl => exact hs
  | @load s1 i fuel a a' m' v r _ ha hload ih =>
    exact Reachable.next (l := .load i v) ih trivial ⟨fuel, .frame r, Vm.step_load fs ha hload, rfl⟩

theorem reached_of_paged {p : Vm × Flat}
    (h : Reachable PagedBoot (PagedStep fs) (fun _ _ => True) p) : p.1.Reached := by
  apply Reachable.invariant (fun p : Vm × Flat => p.1.Reached) _ _ h
  · rintro p ⟨hboot, -⟩
    exact Reachable.start hboot
  · rintro p op p' hp - ⟨fuel, result, hstep, -⟩
    exact hp.next hstep

section Lost

variable {i : ℕ}

/-- A page that is valid and has no frame cannot be read, nor loaded again. -/
theorem readMem_lost (ha : s.spaces i = some a) (hpos : 0 < a.numPages) (hvalid : (a.pageTable 0).valid = true)
    (hnone : (a.pageTable 0).physicalPage = -1) (fs : Programs) (loader : Loader) :
    s.step fs loader (.readMem i 0 1) = .ok (.raised .busErrorException, s) := by
  apply Vm.step_readMem_raised fs loader ha
  have htrans : translate a.pageTable a.numPages 0 1 false = .ok (.error .busErrorException) := by
    have hpage : toUnsigned 0 / pageSize = 0 := by decide
    unfold translate
    dsimp only
    rw [hpage, hnone, if_neg (by decide), if_neg (by omega), if_neg (not_not.mpr hvalid), if_neg (by simp),
      if_pos (by decide)]
  unfold Nachos.readMem
  rw [htrans]
  rfl

theorem read_lost (h : a.Ok) (ha : s.spaces i = some a) (hpos : 0 < a.numPages) (hvalid : (a.pageTable 0).valid = true)
    (hnone : (a.pageTable 0).physicalPage = -1) (fs : Programs) (fuel : ℕ) :
    s.step fs (loadPage fs fuel) (.read i 0 1) = .error (.outOfBounds .mainMemory) := by
  have hload : loadPage fs fuel s.memory a ((0 : ℕ) : Int) = .ok (-1, a, s.memory) := by
    unfold loadPage
    rw [if_neg (by omega), Int.toNat_natCast, if_neg (by rw [(h.entry 0 hpos).index]; simp), if_pos hvalid, hnone]
  have hens : ensureLoaded (loadPage fs fuel) s.memory a 0 = .ok (a, s.memory) := by
    unfold ensureLoaded
    rw [if_pos (Or.inr hnone), hload]
    rfl
  have hloc : locate (loadPage fs fuel) s.memory a 0 = .error (.outOfBounds .mainMemory) := by
    have hpage : Int.tdiv 0 ((pageSize : ℕ) : Int) = 0 := by decide
    unfold locate
    dsimp only
    rw [hpage, if_pos ⟨by decide, by omega⟩, Int.toNat_zero, hens, ok_bind]
    dsimp only
    rw [hnone, if_neg (by decide)]
  have hread : a.read (loadPage fs fuel) s.memory 0 1 = .error (.outOfBounds .mainMemory) := by
    rw [read_one, show int32 (0 + ((0 : ℕ) : Int)) = 0 by decide, hloc]
    rfl
  dsimp only [Vm.step]
  unfold Vm.onSpace
  rw [ha]
  dsimp only
  rw [hread]
  rfl

end Lost

/-- Process `1` writes a byte, which leaves its page clean; process `0` takes the other frames; the next
page of process `1` drops the one that was written. -/
theorem evicted_byte_lost :
    ∃ (s : Vm) (flat : Flat) (a : AddrSpace),
      Reachable PagedBoot (PagedStep (onlyFile blankFile)) (fun _ _ => True) (s, flat) ∧
      s.spaces 1 = some a ∧ 0 < a.numPages ∧ flat 1 0 = 7 ∧ ∀ fuel,
        s.step (onlyFile blankFile) (loadPage (onlyFile blankFile) fuel) (.readMem 1 0 1) =
          .ok (.raised .busErrorException, s) ∧
        s.step (onlyFile blankFile) (loadPage (onlyFile blankFile) fuel) (.read 1 0 1) =
          .error (.outOfBounds .mainMemory) := by
  obtain ⟨s, hboot, -⟩ := Vm.exists_booted
  obtain ⟨a, ha, hblank, hpages, hvictim⟩ := blank_construct []
  obtain ⟨hok, -, htable, -⟩ := construct_eq_ok ha
  have hfree : firstFree s.memory = some 0 := hboot.firstFree
  have hstart : PagedBoot (s, fun _ _ => 0) := ⟨hboot, fun _ _ => rfl⟩
  have h1 : Reachable PagedBoot (PagedStep (onlyFile blankFile)) (fun _ _ => True) _ :=
    Reachable.next (Reachable.start hstart) trivial (pagedStep_build s (fun _ _ => 0) 0 ha)
  have h2 := Reachable.next h1 trivial (pagedStep_build _ _ 1 ha)
  have hwrite := write_blank hok hblank (v := 0) (j := 0) (by omega) (by decide) (by rw [htable]; rfl) hfree
    (onlyFile blankFile) 0 (fun _ => 7)
  have h3 := Reachable.next h2 trivial (pagedStep_write _ (Vm.set_spaces _ 1 a _) hwrite)
  obtain ⟨s', b, hs', hb, hbpages, hvalid, hframe⟩ := booted_drop_clean hboot hok hblank hpages hvictim htable
    (m := ((s.memory.taken 0).zeroed 0).setByte 0 7) rfl
  have h4 := hs'.paged h3
  have hpos : 0 < b.numPages := by omega
  have hbok : b.Ok := (reached_of_paged h4).ok 1 b hb
  refine ⟨s', _, b, h4, hb, hpos, rfl, ?_⟩
  intro fuel
  exact ⟨readMem_lost hb hpos hvalid hframe _ _, read_lost hbok hb hpos hvalid hframe _ fuel⟩

end Nachos
