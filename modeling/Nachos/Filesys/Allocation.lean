import Nachos.Filesys.Names

/-! # Taking sectors (`FileSystem::Create` and `FileHeader::Allocate`)

`Create` changes the disk only once it has a sector for the header, a directory entry and the sectors of the data.
`Allocate` compares the sectors that a file needs with those that are free, but not with the room in the header: a
file that is too large is written past the table, and one of negative size is given no sector and a negative length. -/
set_option autoImplicit false

namespace Nachos
open Buffer Execution

variable {fs : FileSystem} {disk disk' : Disk} {name : Image} {size : Int}

/-! ## Create -/

/-- The sectors that the free map on the disk does not mark. -/
def freeSectors (disk : Disk) : Finset ℕ :=
  (Finset.range numSectors).filter fun x => BitMap.storedBit (mapHeader disk) disk x = false

theorem mem_freeSectors {x : ℕ} : x ∈ freeSectors disk ↔ x < numSectors ∧ ¬ marked disk x := by
  unfold freeSectors marked
  rw [Finset.mem_filter, Finset.mem_range, Int.toNat_natCast]
  constructor
  · rintro ⟨hx, hclear⟩
    exact ⟨hx, fun hmarked => by rw [hclear] at hmarked; exact absurd hmarked.2.2 (by decide)⟩
  · rintro ⟨hx, hfree⟩
    refine ⟨hx, ?_⟩
    rw [Bool.eq_false_iff]
    exact fun hset => hfree ⟨by omega, by omega, hset⟩

/-- The files of a full directory leave most of the disk free. -/
theorem DiskOk.free_room (ok : DiskOk disk) : numDirect + 1 ≤ (freeSectors disk).card := by
  have hsub : Finset.range numSectors ⊆ freeSectors disk ∪
      ((Ledger.owned (systemSectors disk) numDirEntries (ownSectors disk)).map Int.toNat).toFinset := by
    intro x hx
    rw [Finset.mem_union, mem_freeSectors, List.mem_toFinset, List.mem_map]
    by_cases hm : marked disk x
    · exact Or.inr ⟨x, (ok.exact.marked_iff x).mp hm, Int.toNat_natCast x⟩
    · exact Or.inl ⟨Finset.mem_range.mp hx, hm⟩
  have hcard := (Finset.card_le_card hsub).trans (Finset.card_union_le _ _)
  have howned := List.toFinset_card_le
    ((Ledger.owned (systemSectors disk) numDirEntries (ownSectors disk)).map Int.toNat)
  have hlength := ok.owned_length
  rw [List.length_map] at howned
  simp only [Finset.card_range, numSectors, sectorsPerTrack, numTracks, numDirEntries, numDirect, sectorSize] at *
  omega

/-- Once the sector of the header is taken, the free map has one clear bit less than there were free sectors. -/
theorem card_freeSectors {b : BitMap} {w : ℕ} (hw : w < numSectors) (hfree : ¬ marked disk w)
    (hbits : b.numBits = (numSectors : ℕ))
    (hset : ∀ x < numSectors, (b.bit x = true ↔ BitMap.storedBit (mapHeader disk) disk x = true ∨ x = w)) :
    (freeSectors disk).card = b.clearCount + 1 := by
  have hmem : w ∈ freeSectors disk := mem_freeSectors.mpr ⟨hw, hfree⟩
  have hclear : (Finset.range numSectors).filter (fun x => b.bit x = false) = (freeSectors disk).erase w := by
    ext x
    unfold freeSectors
    rw [Finset.mem_erase, Finset.mem_filter, Finset.mem_filter, Finset.mem_range]
    constructor
    · rintro ⟨hx, hbit⟩
      have hoff := mt (hset x hx).mpr (by rw [hbit]; decide)
      rw [not_or, Bool.not_eq_true] at hoff
      exact ⟨hoff.2, hx, hoff.1⟩
    · rintro ⟨hne, hx, hstored⟩
      refine ⟨hx, ?_⟩
      rw [Bool.eq_false_iff, ne_eq, hset x hx, hstored]
      simp [hne]
  have hcount : b.clearCount = ((freeSectors disk).erase w).card := by
    unfold BitMap.clearCount
    rw [hbits, Int.toNat_natCast, Nat.count_eq_card_filter_range, hclear]
  rw [hcount, Finset.card_erase_add_one hmem]

/-- There is no such file, an entry for it, and room for its header and its data. -/
structure Creatable (disk : Disk) (name : Image) (size : Int) : Prop where
  absent : ∀ j, ¬ FileAt disk name j
  entry : ∃ j < numDirEntries, (entryAt disk j).inUse = false
  room : 1 + (size + (sectorSize - 1)) / sectorSize ≤ (freeSectors disk).card

theorem create_true_iff (ok : DiskOk disk) (hm : Mounted fs disk) (junk : ℕ → Image) (name : Image) (h0 : 0 ≤ size)
    (hmax : size ≤ maxFileSize) :
    ∃ r disk', fs.create junk disk name size = .ok (r, disk') ∧ (r = true ↔ Creatable disk name size) := by
  rcases create_cases ok hm junk name size with
    ⟨hfail, hwhy⟩ | ⟨hname, d, hsize, hsame, i, hi, hu, w, hw, hfree, -, b, hbits, hset, hcreate⟩
  · refine ⟨false, disk, hfail, iff_of_false (by decide) fun hc => ?_⟩
    rcases hwhy with ⟨j, hj⟩ | hfull | hfull
    · exact hc.absent j hj
    · have hnone : freeSectors disk = ∅ := by
        refine Finset.eq_empty_of_forall_notMem fun x hx => ?_
        obtain ⟨hlt, hfree⟩ := mem_freeSectors.mp hx
        exact hfree (hfull x hlt)
      have hroom := hc.room
      rw [hnone, Finset.card_empty] at hroom
      simp only [sectorSize] at hroom
      omega
    · obtain ⟨j, hj, hunused⟩ := hc.entry
      rw [hfull j hj] at hunused
      cases hunused
  · have hround : divRoundUp size sectorSize = (size + 127) / 128 := divRoundUp_of_nonneg h0
    have hcard := card_freeSectors hw hfree hbits hset
    have hroom : divRoundUp size sectorSize ≤ b.clearCount ↔ Creatable disk name size := by
      constructor
      · intro hle
        refine ⟨hname, ⟨i, hi, hu⟩, ?_⟩
        rw [hcard]
        simp only [sectorSize]
        omega
      · intro hc
        have hle := hc.room
        rw [hcard] at hle
        simp only [sectorSize] at hle
        omega
    by_cases hc : divRoundUp size sectorSize ≤ b.clearCount
    · obtain ⟨g, c, halloc, -, -, -, -, hbits', -⟩ :=
        FileHeader.allocate_ok (FileHeader.ofImage (junk 4)) b size h0 hmax hc
      obtain ⟨disk', hrun, -⟩ := createFile_frame ok hm junk hsize hsame
        (strncpy fileNameMaxLen (d.table i).name name) hi hw hfree halloc (hbits'.trans hbits)
      exact ⟨true, disk', hcreate.trans hrun, iff_of_true rfl (hroom.mp hc)⟩
    · obtain ⟨g, halloc⟩ := FileHeader.allocate_fail (FileHeader.ofImage (junk 4)) b size (by omega)
      refine ⟨false, disk, ?_, iff_of_false (by decide) fun h => hc (hroom.mpr h)⟩
      rw [hcreate]
      simp [FileSystem.createFile, halloc]

/-- `Create` succeeds exactly when it can, changes nothing when it fails, and only the sector of the new header and those
of the directory and the free map when it succeeds. -/
theorem create_atomic (ok : DiskOk disk) (hm : Mounted fs disk) (junk : ℕ → Image) (name : Image) (h0 : 0 ≤ size)
    (hmax : size ≤ maxFileSize) :
    ∃ r disk', fs.create junk disk name size = .ok (r, disk') ∧ (r = true ↔ Creatable disk name size) ∧
      (r = false → disk' = disk) ∧
      (r = true → ∃ i w : ℕ, FileAt disk' name i ∧ (entryAt disk' i).sector = w ∧ w ∈ freeSectors disk ∧
        AgreeOff ([(w : Int)] ++ ((dirHeader disk).sectors ++ (mapHeader disk).sectors)) disk disk') := by
  obtain ⟨r, disk', hrun, hiff⟩ := create_true_iff ok hm junk name h0 hmax
  refine ⟨r, disk', hrun, hiff, ?_⟩
  rcases create_effect ok hm hrun with ⟨rfl, hsame⟩ | ⟨rfl, i, w, hadded⟩
  · exact ⟨fun _ => hsame, nofun⟩
  · exact ⟨nofun, fun _ => ⟨i, w, hadded.fileAt, hadded.entry, mem_freeSectors.mpr ⟨hadded.sector, hadded.free⟩,
      hadded.frame⟩⟩

/-- On a formatted disk a file of any size can be created. -/
theorem creatable_formatted (ok : DiskOk disk) (hempty : ∀ i < numDirEntries, (entryAt disk i).inUse = false)
    (hmax : size ≤ maxFileSize) : Creatable disk name size := by
  refine ⟨fun j hj => ?_, ⟨0, by decide, hempty 0 (by decide)⟩, ?_⟩
  · have hu := hj.inUse
    rw [hempty j hj.lt] at hu
    cases hu
  · have hroom := ok.free_room
    simp only [maxFileSize, numDirect, sectorSize] at hroom hmax ⊢
    omega

theorem create_atomic_formatted : ∃ fs disk disk', DiskOk disk ∧ Mounted fs disk ∧
    fs.create (fun _ _ => 0) disk (fun _ => 97) 200 = .ok (true, disk') ∧ ∃ i, FileAt disk' (fun _ => 97) i := by
  obtain ⟨fs, disk, -, ok, hm, hempty⟩ := format_spec (fun _ _ => 0) fun _ _ => 0
  obtain ⟨r, disk', hrun, hiff, -, hadded⟩ := create_atomic ok hm (fun _ _ => 0) (fun _ => 97)
    (by decide : (0 : Int) ≤ 200) (by decide)
  obtain rfl := hiff.mpr (creatable_formatted ok hempty (by decide))
  obtain ⟨i, -, hfile, -⟩ := hadded rfl
  exact ⟨fs, disk, disk', ok, hm, hrun, i, hfile⟩

/-- A disk that has been formatted, with a file of `size` bytes created on it. -/
structure OneFile (name : Image) (size : Int) where
  fs : FileSystem
  disk : Disk
  hdr : FileHeader
  created : ∃ formatted, FileSystem.format (fun _ _ => 0) (fun _ _ => 0) = .ok (fs, formatted) ∧
    fs.create (fun _ _ => 0) formatted name size = .ok (true, disk)
  wellFormed : hdr.WellFormed
  numBytes : hdr.numBytes = size
  opens : ∀ junk, fs.openFile junk disk name = .ok (some ⟨hdr, 0⟩)

theorem exists_oneFile (name : Image) (h0 : 0 ≤ size) (hmax : size ≤ maxFileSize) : Nonempty (OneFile name size) := by
  obtain ⟨fs, disk, hformat, ok, hm, hempty⟩ := format_spec (fun _ _ => 0) fun _ _ => 0
  obtain ⟨r, disk', hrun, hiff⟩ := create_true_iff ok hm (fun _ _ => 0) name h0 hmax
  obtain rfl := hiff.mpr (creatable_formatted ok hempty hmax)
  rcases create_effect ok hm hrun with ⟨hfalse, -⟩ | ⟨-, i, w, hadded⟩
  · cases hfalse
  · obtain ⟨r, disk'', hrun', hpreserves⟩ := create_spec ok hm (fun _ _ => 0) name h0 hmax
    rw [hrun] at hrun'
    cases hrun'
    have hbytes : (headerOf disk' i).numBytes = size := by
      simp only [maxFileSize, numDirect, sectorSize] at hmax
      exact hadded.numBytes (by omega) (by omega)
    exact ⟨fs, disk', headerOf disk' i, ⟨disk, hformat, hrun⟩, hpreserves.ok.file_wellFormed hadded.lt hadded.inUse,
      hbytes, hadded.openFile ok hm⟩

/-! ## Allocate -/

namespace FileHeader

variable {h g : FileHeader} {b c : BitMap}

/-- The header describes exactly the sectors taken from map `b`, also when it has been written and read again, and
map `c` has them marked. -/
structure Takes (b c : BitMap) (g : FileHeader) : Prop where
  shaped : 0 ≤ g.numSectors ∧ g.Shaped
  nodup : g.sectors.Nodup
  free : ∀ x ∈ g.sectors, 0 ≤ x ∧ x < b.numBits ∧ b.bit x.toNat = false
  numBits : c.numBits = b.numBits
  marks : ∀ i : ℕ, c.bit i = true ↔ b.bit i = true ∨ (i : Int) ∈ g.sectors
  reread : ∀ (disk : Disk) (sector : Int), 0 ≤ sector → sector < Nachos.numSectors →
    ∃ disk' g', g.writeBack disk sector = .ok disk' ∧ fetchFrom disk' sector = .ok g' ∧
      g'.numBytes = g.numBytes ∧ g'.sectors = g.sectors ∧
      ∀ d : BitMap, d.numBits = b.numBits → (∀ x ∈ g.sectors, d.bit x.toNat = true) →
        ∃ d', g'.deallocate d = .ok d' ∧ d'.numBits = d.numBits ∧
          ∀ i : ℕ, d'.bit i = true ↔ d.bit i = true ∧ (i : Int) ∉ g.sectors

/-- `Allocate` gives up and leaves the map as it is, or describes what it has taken. -/
def AllocatesRight (h : FileHeader) (b : BitMap) (size : Int) : Prop :=
  ∃ r g c, h.allocate b size = .ok (r, g, c) ∧ (r = false → c = b) ∧ (r = true → Takes b c g)

/-- A header that fits is read back and gives its sectors back. -/
theorem reread_spec (hs : g.Shaped) (hnd : g.sectors.Nodup) (hint : b.numBits ≤ intMax)
    (hrange : ∀ x ∈ g.sectors, 0 ≤ x ∧ x < b.numBits) (disk : Disk) {sector : Int} (h0 : 0 ≤ sector)
    (hlt : sector < Nachos.numSectors) :
    ∃ disk' g', g.writeBack disk sector = .ok disk' ∧ fetchFrom disk' sector = .ok g' ∧
      g'.numBytes = g.numBytes ∧ g'.sectors = g.sectors ∧
      ∀ d : BitMap, d.numBits = b.numBits → (∀ x ∈ g.sectors, d.bit x.toNat = true) →
        ∃ d', g'.deallocate d = .ok d' ∧ d'.numBits = d.numBits ∧
          ∀ i : ℕ, d'.bit i = true ↔ d.bit i = true ∧ (i : Int) ∉ g.sectors := by
  obtain ⟨hbytes, hsectors, hshaped⟩ := ofImage_image_of_ints hs
    (fun x hx => ⟨(hrange x hx).1, by have := (hrange x hx).2; simp only [intMax] at hint; omega⟩) (disk sector.toNat)
  refine ⟨_, ofImage (copy (disk sector.toNat) 0 g.image sectorSize), if_pos ⟨h0, hlt⟩, ?_, hbytes, hsectors, ?_⟩
  · unfold fetchFrom readSector
    rw [if_pos ⟨h0, hlt⟩, Function.update_self]
    rfl
  · intro d hbits hmarked
    rw [← hsectors] at hnd hmarked hrange
    rw [← hsectors]
    exact deallocate_spec hshaped d hnd fun x hx =>
      ⟨(hrange x hx).1, by rw [hbits]; exact (hrange x hx).2, hmarked x hx⟩

theorem AllocatesRight.size_range {size : Int} (hright : AllocatesRight h b size)
    (hc : ¬ (b.clearCount : Int) < divRoundUp size sectorSize) : 0 ≤ size ∧ size ≤ maxFileSize := by
  obtain ⟨r, g, c, hrun, -, htakes⟩ := hright
  have hr : r = true := by
    unfold allocate at hrun
    rw [b.numClear_eq, ok_bind, if_neg hc] at hrun
    obtain ⟨⟨g₁, c₁⟩, -, hrun⟩ := bind_eq_ok.mp hrun
    cases hrun
    rfl
  obtain ⟨hbytes, -⟩ := allocate_keeps hrun
  obtain ⟨-, hshaped⟩ := (htakes hr).shaped
  rw [← hbytes]
  exact ⟨hshaped.nonneg, hshaped.numBytes_le⟩

/-- `Allocate` does right exactly if the size is one that a header has room for, or there are not enough sectors
anyway. -/
theorem allocatesRight_iff (h : FileHeader) (b : BitMap) (hint : b.numBits ≤ intMax) (size : Int) :
    AllocatesRight h b size ↔ (0 ≤ size ∧ size ≤ maxFileSize) ∨ (b.clearCount : Int) < divRoundUp size sectorSize := by
  by_cases hc : (b.clearCount : Int) < divRoundUp size sectorSize
  · obtain ⟨g, hrun⟩ := allocate_fail h b size hc
    exact iff_of_true ⟨false, g, b, hrun, fun _ => rfl, nofun⟩ (Or.inr hc)
  · rw [or_iff_left hc]
    refine ⟨fun hright => hright.size_range hc, fun ⟨h0, hmax⟩ => ?_⟩
    obtain ⟨g, c, hrun, hshaped, -, hnd, hfree, hbits, hset, -⟩ := allocate_ok h b size h0 hmax (by omega)
    have hsectors : 0 ≤ g.numSectors := by
      have hnonneg := hshaped.nonneg
      have hcovered := hshaped.covered
      simp only [sectorSize] at hcovered
      omega
    exact ⟨true, g, c, hrun, nofun, fun _ => ⟨⟨hsectors, hshaped⟩, hnd, hfree, hbits, hset, fun disk sector h0 hlt =>
      reread_spec hshaped hnd hint (fun x hx => ⟨(hfree x hx).1, (hfree x hx).2.1⟩) disk h0 hlt⟩⟩

theorem allocatesRight_iff_clear : AllocatesRight ⟨0, 0, fun _ => 0⟩ ⟨64, fun _ => 0#32⟩ 100 ↔
    ((0 : Int) ≤ 100 ∧ (100 : Int) ≤ maxFileSize) ∨
      ((BitMap.clearCount ⟨64, fun _ => 0#32⟩ : ℕ) : Int) < divRoundUp 100 sectorSize :=
  allocatesRight_iff ⟨0, 0, fun _ => 0⟩ ⟨64, fun _ => 0#32⟩ (by decide) 100

/-- With all of 64 sectors free, a file of -1 bytes is given a negative length, and one of 3841 bytes, in 31 sectors, is
not refused. -/
theorem allocate_unchecked_size :
    (∃ g, allocate ⟨0, 0, fun _ => 0⟩ ⟨64, fun _ => 0#32⟩ (-1) = .ok (true, g, ⟨64, fun _ => 0#32⟩) ∧ g.numBytes = -1) ∧
    ¬ AllocatesRight ⟨0, 0, fun _ => 0⟩ ⟨64, fun _ => 0#32⟩ (-1) ∧
    ¬ AllocatesRight ⟨0, 0, fun _ => 0⟩ ⟨64, fun _ => 0#32⟩ 3841 := by
  have hcount : BitMap.clearCount ⟨64, fun _ => 0#32⟩ = 64 := by decide +kernel
  have hnone : divRoundUp (-1) sectorSize = 0 := by decide
  have hmany : divRoundUp 3841 sectorSize = 31 := by decide
  refine ⟨⟨⟨-1, 0, fun _ => 0⟩, ?_, rfl⟩, fun hright => ?_, fun hright => ?_⟩
  · unfold allocate
    rw [BitMap.numClear_eq, hcount, hnone, ok_bind]
    rfl
  · exact absurd (hright.size_range (by rw [hcount, hnone]; decide)).1 (by decide)
  · exact absurd (hright.size_range (by rw [hcount, hmany]; decide)).2 (by decide)

end FileHeader

end Nachos
