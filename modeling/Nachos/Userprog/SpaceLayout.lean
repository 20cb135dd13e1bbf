import Nachos.Userprog.Vm

/-! # The layout of an accepted executable (`AddrSpace::AddrSpace(char*)`)

The constructor adds the sizes of the three segments and `UserStackSize`, with wrap-around, and checks no more
than the number of pages that comes out. It does not look at the addresses of the segments. -/
set_option autoImplicit false

namespace Nachos
open Buffer Execution

/-- A segment that is not empty lies between address 0 and `limit`. -/
def Segment.EndsBy (seg : Segment) (limit : Int) : Prop :=
  seg.size ≠ 0 → 0 ≤ seg.virtualAddr ∧ 0 < seg.size ∧ seg.virtualAddr + seg.size ≤ limit

instance (seg : Segment) (limit : Int) : Decidable (seg.EndsBy limit) := inferInstanceAs (Decidable (_ → _))

namespace NoffHeader

def SegmentsEndBy (h : NoffHeader) (limit : Int) : Prop :=
  h.code.EndsBy limit ∧ h.initData.EndsBy limit ∧ h.uninitData.EndsBy limit

/-- The sum of the sizes as a number. -/
def totalSize (h : NoffHeader) : Int := h.code.size + h.initData.size + h.uninitData.size

/-- The size of the address space does not wrap, and no segment reaches further than the pages that the three of
them fill together. -/
def Packed (h : NoffHeader) : Prop :=
  h.totalSize + userStackSize ≤ intMax ∧ h.SegmentsEndBy (divRoundUp h.totalSize pageSize * pageSize)

end NoffHeader

/-- The segments are inside the address space and below the area of the stack. -/
def AddrSpace.SoundLayout (a : AddrSpace) : Prop := a.noffH.SegmentsEndBy (a.numPages * pageSize - userStackSize)

theorem Segment.EndsBy.size_bounds {seg : Segment} {limit : Int} (h : seg.EndsBy limit) :
    0 ≤ seg.size ∧ seg.size ≤ max 0 limit := by
  by_cases hzero : seg.size = 0
  · omega
  · obtain ⟨haddr, hsize, hend⟩ := h hzero
    omega

theorem NoffHeader.SegmentsEndBy.totalSize_bounds {h : NoffHeader} {limit : Int} (hends : h.SegmentsEndBy limit) :
    0 ≤ h.totalSize ∧ h.totalSize ≤ 3 * max 0 limit := by
  obtain ⟨hcode, hdata, huninit⟩ := hends
  have hcode := hcode.size_bounds
  have hdata := hdata.size_bounds
  have huninit := huninit.size_bounds
  unfold NoffHeader.totalSize
  omega

/-- Without wrap-around the pages are those of the segments and eight for the stack. -/
theorem pages_of_sizes {h : NoffHeader} {n : ℕ} (hpages : (n : Int) = divRoundUp h.spaceSize pageSize)
    (hnonneg : 0 ≤ h.totalSize) (hfits : h.totalSize + userStackSize ≤ intMax) :
    (n : Int) * pageSize - userStackSize = divRoundUp h.totalSize pageSize * pageSize := by
  have hspace : h.spaceSize = h.totalSize + 1024 := by
    obtain ⟨hlo, hhi, k, hk⟩ := int32_spec (h.code.size + h.initData.size + h.uninitData.size + userStackSize)
    unfold NoffHeader.spaceSize
    unfold NoffHeader.totalSize at hnonneg hfits ⊢
    simp only [intMax, userStackSize, Nat.cast_ofNat] at hfits hk hlo hhi ⊢
    omega
  rw [hspace] at hpages
  simp only [pageSize, sectorSize, userStackSize, Nat.cast_ofNat] at hpages ⊢
  rw [divRoundUp_of_nonneg (by omega)] at hpages
  rw [divRoundUp_of_nonneg hnonneg]
  omega

/-- An address space that has been made has a sound layout exactly if its header is packed. -/
theorem soundLayout_iff_packed {fs : Programs} {junk : Image} {words : ℕ → BitVec 32} {name : FileName} {a : AddrSpace}
    (hbuild : AddrSpace.construct fs junk words name = .ok a) : a.SoundLayout ↔ a.noffH.Packed := by
  obtain ⟨hok, -⟩ := construct_eq_ok hbuild
  have hpages := hok.pages
  have hmax := hok.fits
  simp only [numPhysPages] at hmax
  unfold AddrSpace.SoundLayout NoffHeader.Packed
  constructor
  · intro hsound
    obtain ⟨hnonneg, hle⟩ := hsound.totalSize_bounds
    have hfits : a.noffH.totalSize + userStackSize ≤ intMax := by
      simp only [pageSize, sectorSize, userStackSize, intMax] at hle ⊢
      omega
    rw [← pages_of_sizes hpages hnonneg hfits]
    exact ⟨hfits, hsound⟩
  · rintro ⟨hfits, hpacked⟩
    rw [pages_of_sizes hpages hpacked.totalSize_bounds.1 hfits]
    exact hpacked

theorem soundLayout_iff_packed_note :
    ∃ a, AddrSpace.construct (onlyFile noteFile) (fun _ => 0) (fun _ => 0#32) [] = .ok a ∧ a.noffH.code.size = 8 ∧
      a.SoundLayout := by
  obtain ⟨a, hbuild, hnote, -⟩ := note_construct []
  have hpacked : a.noffH.Packed := by
    rw [hnote]
    exact ⟨by decide, by decide, by decide, by decide⟩
  exact ⟨a, hbuild, by rw [hnote]; rfl, (soundLayout_iff_packed hbuild).mpr hpacked⟩

/-! ## Executables that are accepted all the same -/

/-- Four bytes of code at address 8192. -/
def distantFile : Executable where
  bytes := [0xad, 0xdf, 0xba, 0, 0, 32, 0, 0, 40, 0, 0, 0, 4, 0, 0, 0] ++ List.replicate 24 0
  fits := by decide

/-- Minus four bytes of data. -/
def shrinkingFile : Executable where
  bytes := [0xad, 0xdf, 0xba, 0] ++ List.replicate 20 0 ++ [0xfc, 0xff, 0xff, 0xff] ++ List.replicate 12 0
  fits := by decide

/-- `INT_MAX` bytes of code and of data, and two that start as zeros: the sum is 0. -/
def wrappingFile : Executable where
  bytes := [0xad, 0xdf, 0xba, 0] ++ List.replicate 8 0 ++ [0xff, 0xff, 0xff, 0x7f] ++ List.replicate 8 0 ++
    [0xff, 0xff, 0xff, 0x7f] ++ List.replicate 8 0 ++ [2, 0, 0, 0]
  fits := by decide

theorem construct_unsound (f : Executable) (noffH : NoffHeader) (n : ℕ)
    (hfetch : NoffHeader.fetch f (fun _ => 0) = .ok noffH) (hmagic : noffH.noffMagic = noffMagic)
    (hpages : divRoundUp noffH.spaceSize pageSize = n) (hn : n ≤ numPhysPages)
    (hunsound : ¬ noffH.SegmentsEndBy (n * pageSize - userStackSize)) :
    ∃ a, AddrSpace.construct (onlyFile f) (fun _ => 0) (fun _ => 0#32) [] = .ok a ∧ ¬ a.SoundLayout := by
  obtain ⟨a, hbuild, hheader, hcount, -⟩ := construct_of_header (fun _ => 0#32) (show onlyFile f [] = some f from rfl)
    hfetch hmagic hpages hn
  refine ⟨a, hbuild, ?_⟩
  unfold AddrSpace.SoundLayout
  rw [hheader, hcount]
  exact hunsound

theorem accepted_unsound :
    (∃ a, AddrSpace.construct (onlyFile distantFile) (fun _ => 0) (fun _ => 0#32) [] = .ok a ∧ ¬ a.SoundLayout) ∧
    (∃ a, AddrSpace.construct (onlyFile shrinkingFile) (fun _ => 0) (fun _ => 0#32) [] = .ok a ∧ ¬ a.SoundLayout) ∧
    ∃ a, AddrSpace.construct (onlyFile wrappingFile) (fun _ => 0) (fun _ => 0#32) [] = .ok a ∧ ¬ a.SoundLayout := by
  refine ⟨?_, ?_, ?_⟩
  · exact construct_unsound distantFile ⟨0xbadfad, ⟨8192, 40, 4⟩, ⟨0, 0, 0⟩, ⟨0, 0, 0⟩⟩ 9 rfl rfl (by decide)
      (by decide) fun h => absurd h.1 (by decide)
  · exact construct_unsound shrinkingFile ⟨0xbadfad, ⟨0, 0, 0⟩, ⟨0, 0, -4⟩, ⟨0, 0, 0⟩⟩ 8 rfl rfl (by decide)
      (by decide) fun h => absurd h.2.1 (by decide)
  · exact construct_unsound wrappingFile ⟨0xbadfad, ⟨0, 0, 2147483647⟩, ⟨0, 0, 2147483647⟩, ⟨0, 0, 2⟩⟩ 8 rfl rfl
      (by decide) (by decide) fun h => absurd h.1 (by decide)

end Nachos
