import Nachos.Userprog.Confinement
import Mathlib.Data.List.GetD

/-! # Loading on demand against loading at once

`AddrSpace(OpenFile*)` copies each segment whole; `load_page` recomputes for every page where a
segment starts and ends. In virtual addresses: past its first page the code segment is read for its
full size again, and the data segment is read up to `virtualAddr + size - inFileAddr` if that address
lies in the page, else to the end of the page. -/
set_option autoImplicit false

namespace Nachos
open Buffer Execution

variable {f : Executable} {size : ℕ}

/-! ## The image of a program -/

/-- The segment lies in an address space of `size` bytes and in the file. -/
structure Segment.Within (seg : Segment) (size : ℕ) (f : Executable) : Prop where
  addr : 0 ≤ seg.virtualAddr
  nonneg : 0 ≤ seg.size
  inSpace : seg.virtualAddr + seg.size ≤ size
  offset : 0 ≤ seg.inFileAddr
  inFile : seg.inFileAddr + seg.size ≤ f.bytes.length

def Segment.Covers (seg : Segment) (x : ℕ) : Prop :=
  seg.virtualAddr ≤ x ∧ (x : Int) < seg.virtualAddr + seg.size

instance (seg : Segment) (x : ℕ) : Decidable (seg.Covers x) := inferInstanceAs (Decidable (_ ∧ _))

/-- The byte of the file that belongs at address `x`, counted from the start of the segment. -/
def Segment.fileByte (seg : Segment) (f : Executable) (x : ℕ) : UInt8 :=
  f.bytes.getD (seg.inFileAddr + (x - seg.virtualAddr)).toNat 0

structure NoffHeader.Layout (h : NoffHeader) (size : ℕ) (f : Executable) : Prop where
  code : h.code.Within size f
  initData : h.initData.Within size f

/-- The memory of a program before it runs. -/
def NoffHeader.imageByte (h : NoffHeader) (f : Executable) (x : ℕ) : UInt8 :=
  if h.initData.Covers x then h.initData.fileByte f x
  else if h.code.Covers x then h.code.fileByte f x
  else 0

/-! ## Loading at once -/

theorem store_drop_take (mem : Image) (bytes : List UInt8) (start p n o : ℕ) :
    store mem start ((bytes.drop p).take n) o =
      if start ≤ o ∧ o < start + n ∧ p + (o - start) < bytes.length then bytes.getD (p + (o - start)) 0
      else mem o := by
  rw [store_apply, List.length_take, List.length_drop]
  by_cases h : start ≤ o ∧ o < start + n ∧ p + (o - start) < bytes.length
  · rw [if_pos h, if_pos (by omega), List.getD_eq_getElem?_getD, List.getD_eq_getElem?_getD,
      List.getElem?_take_of_lt (by omega), List.getElem?_drop]
  · rw [if_neg h, if_neg (by omega)]

theorem copySegment_eq {seg : Segment} (h : seg.Within size f) (hsize : size ≤ memorySize) (m : Memory) :
    ∃ mem, copySegment f m seg = .ok { m with mainMemory := mem } ∧
      ∀ x, mem x = if seg.Covers x then seg.fileByte f x else m.mainMemory x := by
  obtain ⟨haddr, hnonneg, hspace, hoffset, hfile⟩ := h
  unfold copySegment
  by_cases hpos : seg.size > 0
  · obtain ⟨va, hva⟩ := Int.eq_ofNat_of_zero_le haddr
    have hlen : va + ((f.bytes.drop seg.inFileAddr.toNat).take seg.size.toNat).length ≤ memorySize := by
      rw [List.length_take]
      omega
    rw [if_pos hpos, readAt_of_nonneg f hoffset, ok_bind, hva, putBytes_eq m hlen]
    refine ⟨_, rfl, ?_⟩
    intro x
    rw [store_drop_take]
    have hcovers : seg.Covers x ↔ va ≤ x ∧ x < va + seg.size.toNat := by
      unfold Segment.Covers
      omega
    by_cases hx : seg.Covers x
    · have hrange := hcovers.mp hx
      have hidx : (seg.inFileAddr + ((x : Int) - seg.virtualAddr)).toNat =
          seg.inFileAddr.toNat + (x - va) := by omega
      unfold Segment.fileByte
      rw [if_pos hx, if_pos ⟨hrange.1, hrange.2, by omega⟩, hidx]
    · rw [if_neg hx, if_neg (fun h => hx (hcovers.mpr ⟨h.1, h.2.1⟩))]
  · rw [if_neg hpos]
    refine ⟨m.mainMemory, rfl, ?_⟩
    intro x
    have hnone : ¬ seg.Covers x := by
      unfold Segment.Covers
      omega
    rw [if_neg hnone]

/-- The number of pages is the same, unsigned or not, as soon as there is a page. -/
theorem eager_numPages {size : Int} (hmax : size ≤ 2147483647) (hmin : -2147483648 ≤ size) {n : ℕ}
    (hn : divRoundUp size pageSize = n) (hpos : 0 < n) : divRoundUp (toUnsigned size) pageSize = n := by
  have hsize : 0 < size := by
    by_contra hle
    have hcases := tdiv_tmod_cases size
    unfold divRoundUp at hn
    simp only [pageSize, sectorSize, Nat.cast_ofNat] at hn
    split at hn <;> omega
  have hsame : (toUnsigned size : Int) = size := by
    unfold toUnsigned
    omega
  rw [hsame, hn]

/-- The constructor puts the image of the program at address `0`. -/
theorem constructEager_eq {a : AddrSpace} (h : a.Ok) {junk : Image} (hfetch : NoffHeader.fetch f junk = .ok a.noffH)
    (hmagic : a.noffH.noffMagic = noffMagic) (hpos : 0 < a.numPages) (hlayout : a.noffH.Layout (a.numPages * 128) f)
    (m : Memory) :
    ∃ m', AddrSpace.constructEager f junk m = .ok (a.numPages, TranslationEntry.identity, m') ∧
      ∀ x < a.numPages * 128, m'.mainMemory x = a.noffH.imageByte f x := by
  have hfits := h.fits
  simp only [numPhysPages] at hfits
  obtain ⟨hmin, hmax, -⟩ := int32_spec (a.noffH.code.size + a.noffH.initData.size +
    a.noffH.uninitData.size + userStackSize)
  have hpages := eager_numPages hmax hmin h.pages.symm hpos
  have hspace : a.numPages * 128 ≤ memorySize := by
    simp only [memorySize, numPhysPages, pageSize, sectorSize]
    omega
  have hzero : m.bzero 0 ((a.numPages : Int) * pageSize) = .ok
      { m with mainMemory := store m.mainMemory 0 (List.replicate (a.numPages * 128) 0) } := by
    have hlen : ((a.numPages : Int) * ((pageSize : ℕ) : Int)).toNat = a.numPages * 128 := by
      simp only [pageSize, sectorSize]
      omega
    unfold Memory.bzero
    rw [hlen]
    exact @putBytes_eq m 0 (List.replicate (a.numPages * 128) 0) (by rw [List.length_replicate]; omega)
  obtain ⟨mem1, hcode, hbyte1⟩ := copySegment_eq hlayout.code hspace
    { m with mainMemory := store m.mainMemory 0 (List.replicate (a.numPages * 128) 0) }
  obtain ⟨mem2, hdata, hbyte2⟩ := copySegment_eq hlayout.initData hspace { m with mainMemory := mem1 }
  refine ⟨{ m with mainMemory := mem2 }, ?_, ?_⟩
  · unfold AddrSpace.constructEager
    rw [hfetch, ok_bind, if_neg (not_not.mpr hmagic)]
    dsimp only
    unfold NoffHeader.spaceSize
    rw [hpages, if_pos (by simp only [numPhysPages]; omega), hzero, ok_bind, hcode, ok_bind, hdata, ok_bind,
      Int.toNat_natCast]
    rfl
  · intro x hx
    have hblank : store m.mainMemory 0 (List.replicate (a.numPages * 128) 0) x = 0 := by
      rw [store_apply, if_pos (by rw [List.length_replicate]; omega)]
      exact List.getD_replicate 0 (by omega)
    unfold NoffHeader.imageByte
    dsimp only at hbyte1 hbyte2 ⊢
    rw [hbyte2, hbyte1, hblank]

/-! ## Loading a page -/

/-- The first address of page `v` at which the segment is read in. -/
def Segment.pageStart (seg : Segment) (v : ℕ) : Int := max seg.virtualAddr (v * 128)

/-- The test of `load_page`, on addresses. -/
def Segment.Touches (seg : Segment) (v : ℕ) : Prop :=
  0 < seg.size ∧ seg.virtualAddr / 128 ≤ v ∧ (v : Int) ≤ (seg.virtualAddr + seg.size) / 128

instance (seg : Segment) (v : ℕ) : Decidable (seg.Touches v) := inferInstanceAs (Decidable (_ ∧ _ ∧ _))

/-- The code segment is read for its full size from wherever it starts in the page. -/
def Segment.CodeReads (seg : Segment) (f : Executable) (v x : ℕ) : Prop :=
  seg.Touches v ∧ seg.pageStart v ≤ x ∧ (x : Int) < seg.pageStart v + seg.size ∧
    seg.inFileAddr + (x - seg.virtualAddr) < f.bytes.length

instance (seg : Segment) (f : Executable) (v x : ℕ) : Decidable (seg.CodeReads f v x) :=
  inferInstanceAs (Decidable (_ ∧ _ ∧ _ ∧ _))

/-- The address up to which the data segment is taken to reach. -/
def Segment.dataStop (seg : Segment) : Int := seg.virtualAddr + seg.size - seg.inFileAddr

/-- That address lies in page `v`, or, in frame `0`, less than a page below it. -/
def Segment.StopsIn (seg : Segment) (v frame : ℕ) : Prop :=
  seg.dataStop < (v + 1) * 128 ∧
    ((v : Int) * 128 ≤ seg.dataStop ∨ frame = 0 ∧ (v - 1 : Int) * 128 < seg.dataStop)

instance (seg : Segment) (v frame : ℕ) : Decidable (seg.StopsIn v frame) :=
  inferInstanceAs (Decidable (_ ∧ (_ ∨ _)))

def Segment.DataReads (seg : Segment) (f : Executable) (v frame x : ℕ) : Prop :=
  seg.Touches v ∧ seg.pageStart v ≤ x ∧ (seg.StopsIn v frame → (x : Int) < seg.dataStop) ∧
    seg.inFileAddr + (x - seg.virtualAddr) < f.bytes.length

instance (seg : Segment) (f : Executable) (v frame x : ℕ) : Decidable (seg.DataReads f v frame x) :=
  inferInstanceAs (Decidable (_ ∧ _ ∧ (_ → _) ∧ _))

section Page

variable {fs : Programs} {a : AddrSpace} {seg : Segment} {v frame : ℕ} {segmentEnd : Segment → Int → Int → Int}

theorem onPage_iff (h : seg.Within size f) (hsize : size ≤ memorySize) (v : ℕ) : seg.OnPage v ↔ seg.Touches v := by
  obtain ⟨haddr, hnonneg, hspace, -, -⟩ := h
  simp only [memorySize, numPhysPages, pageSize, sectorSize] at hsize
  obtain ⟨hlo, hhi, k, hk⟩ := int32_spec (seg.virtualAddr + seg.size)
  have hsum : int32 (seg.virtualAddr + seg.size) = seg.virtualAddr + seg.size := by omega
  unfold Segment.OnPage Segment.Touches
  rw [hsum, Int.tdiv_eq_ediv_of_nonneg haddr, Int.tdiv_eq_ediv_of_nonneg (by omega)]
  exact Iff.rfl

theorem pageStart_bounds (h : seg.Within size f) (hv : seg.Touches v) :
    (v : Int) * 128 ≤ seg.pageStart v ∧ seg.pageStart v < (v + 1) * 128 ∧
      seg.virtualAddr ≤ seg.pageStart v ∧ seg.pageStart v ≤ seg.virtualAddr + seg.size := by
  have hnonneg := h.nonneg
  unfold Segment.Touches at hv
  unfold Segment.pageStart
  omega

theorem start_eq (h : seg.Within size f) (hv : seg.Touches v) (frame : ℕ) :
    seg.start v frame = (frame : Int) * 128 + (seg.pageStart v - v * 128) := by
  have haddr := h.addr
  unfold Segment.Touches at hv
  unfold Segment.start Segment.pageStart
  rw [Int.tdiv_eq_ediv_of_nonneg haddr, Int.tmod_eq_emod_of_nonneg haddr]
  simp only [pageSize, sectorSize, Nat.cast_ofNat]
  split <;> omega

theorem fileOffset_eq (h : seg.Within size f) (hv : seg.Touches v) :
    seg.fileOffset v = seg.inFileAddr + (seg.pageStart v - seg.virtualAddr) := by
  obtain ⟨haddr, hnonneg, hspace, hoffset, hfile⟩ := h
  have hfits := f.fits
  simp only [intMax] at hfits
  unfold Segment.Touches at hv
  obtain ⟨hlo, hhi, k, hk⟩ := int32_spec (seg.inFileAddr + ((v : Int) * 128 - seg.virtualAddr))
  unfold Segment.fileOffset Segment.pageStart
  rw [Int.tdiv_eq_ediv_of_nonneg haddr]
  simp only [pageSize, sectorSize, Nat.cast_ofNat]
  split <;> omega

/-- One segment of a page: the bytes from `pageStart` on, as many as asked for and as the file has. -/
theorem loadSegment_eq (h : seg.Within size f) (hsize : size ≤ memorySize) (hopen : fs a.filename = some f)
    (hframe : frame < numPhysPages) (hend : segmentEnd seg v frame ≤ ((frame : Int) + 1) * 128) (m : Memory) :
    ∃ mem, loadSegment fs m a seg segmentEnd v frame = .ok (some { m with mainMemory := mem }) ∧
      AgreeOutside frame m { m with mainMemory := mem } ∧
      ∀ x, v * 128 ≤ x → x < (v + 1) * 128 → mem (frame * 128 + (x - v * 128)) =
        if seg.Touches v ∧ seg.pageStart v ≤ x ∧
            (frame : Int) * 128 + (x - v * 128) < segmentEnd seg v frame ∧
            seg.inFileAddr + (x - seg.virtualAddr) < f.bytes.length then seg.fileByte f x
        else m.mainMemory (frame * 128 + (x - v * 128)) := by
  by_cases hv : seg.Touches v
  · have hstart := start_eq h hv frame
    have hoff := fileOffset_eq h hv
    have haddr := h.addr
    have hoffset := h.offset
    have hfirst := pageStart_bounds h hv
    simp only [numPhysPages] at hframe
    obtain ⟨s, hs⟩ := Int.eq_ofNat_of_zero_le (show 0 ≤ seg.start v frame by omega)
    obtain ⟨p, hp⟩ := Int.eq_ofNat_of_zero_le (show 0 ≤ seg.fileOffset v by omega)
    obtain ⟨n, hn⟩ : ∃ n, (segmentEnd seg v frame - seg.start v frame).toNat = n := ⟨_, rfl⟩
    have hlen : s + ((f.bytes.drop p).take n).length ≤ memorySize := by
      rw [List.length_take]
      simp only [memorySize, numPhysPages, pageSize, sectorSize]
      omega
    refine ⟨store m.mainMemory s ((f.bytes.drop p).take n), ?_, ?_, ?_⟩
    · unfold loadSegment
      rw [if_pos ((onPage_iff h hsize v).mpr hv), hopen]
      dsimp only
      rw [readAt_of_nonneg f (by omega), hn, hp, Int.toNat_natCast, ok_bind, hs, putBytes_eq m hlen, ok_bind]
      rfl
    · intro o ho
      have hle := List.length_take_le n (f.bytes.drop p)
      exact store_outside m.mainMemory _ (by omega)
    · intro x hx hx'
      rw [store_drop_take]
      have hcond : (s ≤ frame * 128 + (x - v * 128) ∧ frame * 128 + (x - v * 128) < s + n ∧
            p + (frame * 128 + (x - v * 128) - s) < f.bytes.length) ↔
          (seg.Touches v ∧ seg.pageStart v ≤ x ∧
            (frame : Int) * 128 + (x - v * 128) < segmentEnd seg v frame ∧
            seg.inFileAddr + (x - seg.virtualAddr) < f.bytes.length) := by
        constructor
        · rintro ⟨h1, h2, h3⟩
          exact ⟨hv, by omega, by omega, by omega⟩
        · rintro ⟨-, h1, h2, h3⟩
          exact ⟨by omega, by omega, by omega⟩
      by_cases hread : s ≤ frame * 128 + (x - v * 128) ∧ frame * 128 + (x - v * 128) < s + n ∧
            p + (frame * 128 + (x - v * 128) - s) < f.bytes.length
      · rw [if_pos hread, if_pos (hcond.mp hread)]
        unfold Segment.fileByte
        congr 1
        omega
      · rw [if_neg hread, if_neg (fun hc => hread (hcond.mpr hc))]
  · refine ⟨m.mainMemory, loadSegment_absent (fun hon => hv ((onPage_iff h hsize v).mp hon)), fun _ _ => rfl, ?_⟩
    intro x _ _
    rw [if_neg (fun hc => hv hc.1)]

theorem codeEnd_reads (h : seg.Within size f) (hsize : size ≤ memorySize) (hv : seg.Touches v) {frame x : ℕ}
    (hframe : frame < numPhysPages) (hx : v * 128 ≤ x) (hx' : x < (v + 1) * 128) :
    (frame : Int) * 128 + (x - v * 128) < codeEnd seg v frame ↔ (x : Int) < seg.pageStart v + seg.size := by
  have hstart := start_eq h hv frame
  have hfirst := pageStart_bounds h hv
  obtain ⟨haddr, hnonneg, hspace, -, -⟩ := h
  simp only [memorySize, numPhysPages, pageSize, sectorSize] at hsize hframe
  obtain ⟨hlo, hhi, k, hk⟩ := int32_spec (seg.start v frame + seg.size)
  have hcases := tdiv_tmod_cases (int32 (seg.start v frame + seg.size))
  have hpos := hv.1
  unfold codeEnd clipEnd
  simp only [pageSize, sectorSize, Nat.cast_ofNat]
  split <;> omega

theorem dataEnd_reads (h : seg.Within size f) (hsize : size ≤ memorySize) (hv : seg.Touches v) {frame x : ℕ}
    (hframe : frame < numPhysPages) (hx : v * 128 ≤ x) (hx' : x < (v + 1) * 128) :
    (frame : Int) * 128 + (x - v * 128) < dataEnd seg v frame ↔
      (seg.StopsIn v frame → (x : Int) < seg.dataStop) := by
  have hstart := start_eq h hv frame
  have hoff := fileOffset_eq h hv
  have hfirst := pageStart_bounds h hv
  obtain ⟨haddr, hnonneg, hspace, hoffset, hfile⟩ := h
  have hfits := f.fits
  simp only [memorySize, numPhysPages, pageSize, sectorSize, intMax] at hsize hframe hfits
  have hsame : int32 (seg.start v frame + seg.size - seg.fileOffset v) =
      (frame : Int) * 128 + (seg.dataStop - v * 128) := by
    obtain ⟨hlo, hhi, k, hk⟩ := int32_spec (seg.start v frame + seg.size - seg.fileOffset v)
    unfold Segment.dataStop
    omega
  have hcases := tdiv_tmod_cases (int32 (seg.start v frame + seg.size - seg.fileOffset v))
  unfold dataEnd clipEnd Segment.StopsIn
  simp only [pageSize, sectorSize, Nat.cast_ofNat]
  split <;> omega

end Page

/-- The byte that `load_page` leaves at address `x` of page `v`. -/
def NoffHeader.loadedByte (h : NoffHeader) (f : Executable) (v frame x : ℕ) : UInt8 :=
  if h.initData.DataReads f v frame x then h.initData.fileByte f x
  else if h.code.CodeReads f v x then h.code.fileByte f x
  else 0

section Load

variable {fs : Programs} {a : AddrSpace} {m : Memory} {v frame : ℕ}

theorem space_le (h : a.Ok) : a.numPages * 128 ≤ memorySize := by
  have hfits := h.fits
  simp only [memorySize, numPhysPages, pageSize, sectorSize] at *
  omega

theorem zeroed_inside (m : Memory) (frame : ℕ) {o : ℕ} (hlo : frame * 128 ≤ o) (hhi : o < (frame + 1) * 128) :
    (m.zeroed frame).mainMemory o = 0 := by
  unfold Memory.zeroed
  dsimp only
  rw [store_apply, if_pos (by rw [List.length_replicate]; omega)]
  exact List.getD_replicate 0 (by omega)

theorem zeroed_agree (m : Memory) (frame : ℕ) : AgreeOutside frame m (m.zeroed frame) := by
  intro o ho
  exact store_outside m.mainMemory _ (by rw [List.length_replicate]; omega)

/-- A page that finds a free frame is loaded there. -/
theorem loadPage_bytes (h : a.Ok) (hv : v < a.numPages) (hinvalid : (a.pageTable v).valid = false)
    (hfree : firstFree m = some frame) (hopen : fs a.filename = some f)
    (hlayout : a.noffH.Layout (a.numPages * 128) f) (fuel : ℕ) :
    ∃ mem, loadPage fs fuel m a v =
        .ok ((frame : Int), a.resident v frame, { m.taken frame with mainMemory := mem }) ∧
      AgreeOutside frame m { m.taken frame with mainMemory := mem } ∧
      ∀ x, v * 128 ≤ x → x < (v + 1) * 128 →
        mem (frame * 128 + (x - v * 128)) = a.noffH.loadedByte f v frame x := by
  have hframe := (firstFree_eq_some.mp hfree).1
  have hspace := space_le h
  have hopen' : fs (a.mapped v frame).filename = some f := hopen
  obtain ⟨mem1, hcode, hagree1, hbyte1⟩ := loadSegment_eq hlayout.code hspace hopen' hframe
    (codeEnd_le _ v _) ((m.taken frame).zeroed frame)
  obtain ⟨mem2, hdata, hagree2, hbyte2⟩ := loadSegment_eq hlayout.initData hspace hopen' hframe
    (dataEnd_le _ v _) { (m.taken frame).zeroed frame with mainMemory := mem1 }
  refine ⟨mem2, ?_, ?_, ?_⟩
  · rw [loadPage_free h hv hinvalid hfree, ← mapped_valid]
    exact fillPage_of_segments (h.mapped hv hframe) hv hframe mapped_physicalPage hcode hdata
  · intro o ho
    rw [hagree2 o ho, hagree1 o ho]
    exact zeroed_agree (m.taken frame) frame o ho
  · intro x hx hx'
    have hzero := zeroed_inside (m.taken frame) frame (o := frame * 128 + (x - v * 128)) (by omega) (by omega)
    have hcodeReads : a.noffH.code.CodeReads f v x ↔ _ :=
      and_congr_right fun ht => and_congr_right fun _ => and_congr_left fun _ =>
        (codeEnd_reads hlayout.code hspace ht hframe hx hx').symm
    have hdataReads : a.noffH.initData.DataReads f v frame x ↔ _ :=
      and_congr_right fun ht => and_congr_right fun _ => and_congr_left fun _ =>
        (dataEnd_reads hlayout.initData hspace ht hframe hx hx').symm
    dsimp only at hbyte1 hbyte2
    rw [hbyte2 x hx hx', hbyte1 x hx hx', hzero]
    unfold NoffHeader.loadedByte
    simp only [hcodeReads, hdataReads]

end Load

/-! ## When the two agree -/

/-- What is read of a segment past its end, and what is left out of it, is in the file as it should be in
memory. -/
structure NoffHeader.LoadsImage (h : NoffHeader) (f : Executable) (v frame : ℕ) : Prop where
  codePast : ∀ x, v * 128 ≤ x → x < (v + 1) * 128 → h.code.CodeReads f v x → ¬ h.code.Covers x →
    ¬ h.initData.Covers x → ¬ h.initData.DataReads f v frame x → h.code.fileByte f x = 0
  dataPast : ∀ x, v * 128 ≤ x → x < (v + 1) * 128 → h.initData.DataReads f v frame x →
    ¬ h.initData.Covers x → h.initData.fileByte f x = if h.code.Covers x then h.code.fileByte f x else 0
  dataLeft : ∀ x, v * 128 ≤ x → x < (v + 1) * 128 → h.initData.Covers x →
    ¬ h.initData.DataReads f v frame x →
    h.initData.fileByte f x = if h.code.CodeReads f v x then h.code.fileByte f x else 0

theorem codeReads_of_covers {code : Segment} (h : code.Within size f) {v x : ℕ} (hx : v * 128 ≤ x)
    (hx' : x < (v + 1) * 128) (hc : code.Covers x) : code.CodeReads f v x := by
  obtain ⟨haddr, hnonneg, -, -, hfile⟩ := h
  unfold Segment.Covers at hc
  unfold Segment.CodeReads Segment.Touches Segment.pageStart
  omega

theorem loadsImage_iff {h : NoffHeader} (hlayout : h.Layout size f) (v frame : ℕ) :
    h.LoadsImage f v frame ↔
      ∀ x, v * 128 ≤ x → x < (v + 1) * 128 → h.loadedByte f v frame x = h.imageByte f x := by
  unfold NoffHeader.loadedByte NoffHeader.imageByte
  constructor
  · intro hload x hx hx'
    by_cases hd : h.initData.Covers x
    · by_cases hr : h.initData.DataReads f v frame x
      · rw [if_pos hr, if_pos hd]
      · rw [if_neg hr, if_pos hd, hload.dataLeft x hx hx' hd hr]
    · by_cases hr : h.initData.DataReads f v frame x
      · rw [if_pos hr, if_neg hd, hload.dataPast x hx hx' hr hd]
      · rw [if_neg hr, if_neg hd]
        by_cases hc : h.code.Covers x
        · rw [if_pos hc, if_pos (codeReads_of_covers hlayout.code hx hx' hc)]
        · rw [if_neg hc]
          split
          · next hread => exact hload.codePast x hx hx' hread hc hd hr
          · rfl
  · intro hsame
    refine ⟨?_, ?_, ?_⟩
    · intro x hx hx' hread hc hd hr
      have hbyte := hsame x hx hx'
      rwa [if_neg hr, if_pos hread, if_neg hd, if_neg hc] at hbyte
    · intro x hx hx' hr hd
      have hbyte := hsame x hx hx'
      rwa [if_pos hr, if_neg hd] at hbyte
    · intro x hx hx' hd hr
      have hbyte := hsame x hx hx'
      rw [if_neg hr, if_pos hd] at hbyte
      exact hbyte.symm

/-- A space that has loaded nothing yet has no page to give up. -/
theorem loadPage_fresh_full {a : AddrSpace} (h : a.Ok) (hvictim : a.victumOffset = 0)
    (htable : a.pageTable = TranslationEntry.absent) {m : Memory} (hfull : firstFree m = none) {v : ℕ}
    (hv : v < a.numPages) (fs : Programs) (fuel : ℕ) (x : Int × AddrSpace × Memory) :
    loadPage fs fuel m a v ≠ .ok x := by
  have htry : tryStorePage m a = .error (.outOfBounds .availablePages) := by
    unfold tryStorePage
    rw [if_pos ⟨by omega, by omega⟩, scanVictims_skip m _ _ _ (fun _ _ _ => by rw [htable]; rfl), ok_bind]
    dsimp only
    rw [htable]
    rfl
  have hstore : ∀ y, storePage fuel m a ≠ .ok y := by
    intro y hy
    cases fuel with
    | zero => cases hy
    | succ fuel =>
      unfold storePage at hy
      rw [htry] at hy
      cases hy
  intro hload
  obtain ⟨r, a', m'⟩ := x
  unfold loadPage at hload
  rw [if_neg (by omega), Int.toNat_natCast, if_neg (by rw [(h.entry v hv).index]; simp),
    if_neg (by rw [htable]; simp [TranslationEntry.absent])] at hload
  obtain ⟨y, htake, -⟩ := bind_eq_ok.mp hload
  unfold takeFrame at htake
  rw [hfull] at htake
  dsimp only at htake
  rw [if_pos (by rw [htable]; rfl)] at htake
  obtain ⟨z, hz, -⟩ := bind_eq_ok.mp htake
  exact hstore z hz

/-- Ten bytes of code at address `120`, and four bytes of the file after them. -/
def straddleFile : Executable where
  bytes := [0xad, 0xdf, 0xba, 0, 120, 0, 0, 0, 40, 0, 0, 0, 10, 0, 0, 0] ++ List.replicate 24 0 ++
    [1, 2, 3, 4, 5, 6, 7, 8, 1, 2, 9, 9, 9, 9]
  fits := by decide

def straddleHeader : NoffHeader where
  noffMagic := 0xbadfad
  code := ⟨120, 40, 10⟩
  initData := ⟨0, 0, 0⟩
  uninitData := ⟨0, 0, 0⟩

theorem straddleHeader_layout : straddleHeader.Layout 1152 straddleFile :=
  ⟨by constructor <;> decide, by constructor <;> decide⟩

theorem straddle_construct :
    ∃ a, AddrSpace.construct (onlyFile straddleFile) (fun _ => 0) (fun _ => 0#32) [] = .ok a ∧
      a.noffH = straddleHeader ∧ a.numPages = 9 ∧ a.noffH.Layout (a.numPages * 128) straddleFile := by
  have hopen : onlyFile straddleFile [] = some straddleFile := rfl
  have hfetch : NoffHeader.fetch straddleFile (fun _ => 0) = .ok straddleHeader := rfl
  obtain ⟨a, ha, hheader, hpages, -⟩ := construct_of_header (fun _ => 0#32) hopen hfetch rfl (n := 9)
    (by decide) (by decide)
  refine ⟨a, ha, hheader, hpages, ?_⟩
  rw [hheader, hpages]
  exact straddleHeader_layout

theorem straddleHeader_loadsImage (frame : ℕ) : straddleHeader.LoadsImage straddleFile 0 frame := by
  have hnone : ¬ straddleHeader.initData.Touches 0 := by decide
  refine ⟨?_, fun x _ _ hread => absurd hread.1 hnone, ?_⟩
  · intro x _ hx hread hc
    obtain ⟨-, hstart, -⟩ := hread
    unfold Segment.pageStart at hstart
    refine absurd ?_ hc
    unfold Segment.Covers
    simp only [straddleHeader] at hstart ⊢
    omega
  · intro x _ _ hcovers
    unfold Segment.Covers at hcovers
    simp only [straddleHeader] at hcovers
    omega

/-- Of a fresh space, `load_page` brings a page in as the eager constructor would exactly if a frame is free
and, for that frame, what it reads too much or too little of the file makes no difference. -/
theorem loadPage_eager_iff {fs : Programs} {junk : Image} {words : ℕ → BitVec 32} {name : FileName} {a : AddrSpace}
    (hbuild : AddrSpace.construct fs junk words name = .ok a) (hopen : fs name = some f)
    (hlayout : a.noffH.Layout (a.numPages * 128) f) (m m₀ : Memory) (fuel : ℕ) {v : ℕ} (hv : v < a.numPages) :
    ∃ m₁, AddrSpace.constructEager f junk m₀ = .ok (a.numPages, TranslationEntry.identity, m₁) ∧
      (∀ x < a.numPages * 128, m₁.mainMemory x = a.noffH.imageByte f x) ∧
      ((∃ (frame : ℕ) (a' : AddrSpace) (m' : Memory), loadPage fs fuel m a v = .ok ((frame : Int), a', m') ∧
          (a'.pageTable v).valid = true ∧ (a'.pageTable v).physicalPage = frame ∧
          ∀ x, v * 128 ≤ x → x < (v + 1) * 128 →
            m'.mainMemory (frame * 128 + (x - v * 128)) = m₁.mainMemory x) ↔
        ∃ frame, firstFree m = some frame ∧ a.noffH.LoadsImage f v frame) := by
  obtain ⟨hok, hname, htable, hvictim, f', hf', hfetch, hmagic⟩ := construct_eq_ok hbuild
  rw [hopen] at hf'
  cases hf'
  obtain ⟨m₁, heager, himage⟩ := constructEager_eq hok hfetch hmagic (by omega) hlayout m₀
  refine ⟨m₁, heager, himage, ?_⟩
  have hinvalid : (a.pageTable v).valid = false := by rw [htable]; rfl
  have hfile : fs a.filename = some f := hname ▸ hopen
  constructor
  · rintro ⟨frame, a', m', hload, -, -, hbytes⟩
    cases hfree : firstFree m with
    | none => exact absurd hload (loadPage_fresh_full hok hvictim htable hfree hv fs fuel _)
    | some i =>
      obtain ⟨mem, hload', -, hloaded⟩ := loadPage_bytes hok hv hinvalid hfree hfile hlayout fuel
      rw [hload] at hload'
      cases hload'
      refine ⟨frame, rfl, (loadsImage_iff hlayout v frame).mpr ?_⟩
      intro x hx hx'
      rw [← hloaded x hx hx', ← himage x (by omega)]
      exact hbytes x hx hx'
  · rintro ⟨frame, hfree, himages⟩
    obtain ⟨mem, hload, -, hloaded⟩ := loadPage_bytes hok hv hinvalid hfree hfile hlayout fuel
    refine ⟨frame, _, _, hload, ?_, ?_, ?_⟩
    · simp [AddrSpace.resident]
    · simp [AddrSpace.resident]
    · intro x hx hx'
      rw [himage x (by omega), ← (loadsImage_iff hlayout v frame).mp himages x hx hx']
      exact hloaded x hx hx'

/-- The first page of the straddling program comes in as it should. -/
theorem loadPage_eager_iff_straddle :
    ∃ (s : Vm) (a : AddrSpace) (m₁ : Memory), Vm.Booted s ∧
      AddrSpace.construct (onlyFile straddleFile) (fun _ => 0) (fun _ => 0#32) [] = .ok a ∧
      AddrSpace.constructEager straddleFile (fun _ => 0) s.memory =
        .ok (a.numPages, TranslationEntry.identity, m₁) ∧
      ∃ (frame : ℕ) (a' : AddrSpace) (m' : Memory),
        loadPage (onlyFile straddleFile) 0 s.memory a ((0 : ℕ) : Int) = .ok ((frame : Int), a', m') ∧
        (a'.pageTable 0).valid = true ∧ (a'.pageTable 0).physicalPage = frame ∧
        ∀ x, 0 * 128 ≤ x → x < (0 + 1) * 128 →
          m'.mainMemory (frame * 128 + (x - 0 * 128)) = m₁.mainMemory x := by
  obtain ⟨s, hs, -⟩ := Vm.exists_booted
  obtain ⟨a, ha, hheader, hpages, hlayout⟩ := straddle_construct
  obtain ⟨m₁, heager, -, hiff⟩ := loadPage_eager_iff ha rfl hlayout s.memory s.memory 0 (v := 0) (by omega)
  have hfree : firstFree s.memory = some 0 := hs.firstFree
  exact ⟨s, a, m₁, hs, ha, heager, hiff.mpr ⟨0, hfree, hheader ▸ straddleHeader_loadsImage 0⟩⟩

/-- On its second page two bytes of code are left, and ten are read: the file's next bytes land where there
should be zeros. -/
theorem loadPage_reads_past_code :
    ∃ (s : Vm) (a a' : AddrSpace) (m' m₁ : Memory), Vm.Booted s ∧
      AddrSpace.construct (onlyFile straddleFile) (fun _ => 0) (fun _ => 0#32) [] = .ok a ∧
      a.noffH = straddleHeader ∧ a.numPages = 9 ∧ straddleHeader.Layout 1152 straddleFile ∧
      loadPage (onlyFile straddleFile) 0 s.memory a 1 = .ok (0, a', m') ∧
      (a'.pageTable 1).valid = true ∧ (a'.pageTable 1).physicalPage = 0 ∧ m'.mainMemory 2 = 9 ∧
      AddrSpace.constructEager straddleFile (fun _ => 0) s.memory = .ok (9, TranslationEntry.identity, m₁) ∧
      m₁.mainMemory 130 = 0 := by
  obtain ⟨s, hs, -⟩ := Vm.exists_booted
  obtain ⟨a, ha, hheader, hpages, hlayout⟩ := straddle_construct
  obtain ⟨hok, -, htable, -, f, hopen, hfetch, hmagic⟩ := construct_eq_ok ha
  cases hopen
  have hfree : firstFree s.memory = some 0 := hs.firstFree
  have hopen' : onlyFile straddleFile a.filename = some straddleFile := rfl
  obtain ⟨mem, hload, -, hbytes⟩ := loadPage_bytes hok (v := 1) (by omega) (by rw [htable]; rfl) hfree hopen'
    hlayout 0
  obtain ⟨m₁, heager, himage⟩ := constructEager_eq hok hfetch hmagic (by omega) hlayout s.memory
  refine ⟨s, a, _, _, m₁, hs, ha, hheader, hpages, straddleHeader_layout, hload, ?_, ?_, ?_, hpages ▸ heager, ?_⟩
  · simp [AddrSpace.resident]
  · simp [AddrSpace.resident]
  · have hbyte := hbytes 130 (by decide) (by decide)
    rw [hheader] at hbyte
    exact hbyte.trans (by decide)
  · rw [himage 130 (by omega), hheader]
    decide

end Nachos
