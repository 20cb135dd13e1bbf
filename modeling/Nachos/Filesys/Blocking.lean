import Nachos.Filesys.FileSysRun
import Nachos.Library.Interleaving

/-! # File operations as sequences of disk requests (`filesys/openfile.cc`, `filesys/synchdisk.cc`)

`SynchDisk::ReadSector` and `WriteSector` block until the disk has served the request, so that another process
can run between any two requests of a file operation. Here the operations are programs that make their requests
one at a time. Undisturbed they do what `readAt` and `writeAt` do, and their requests go to the sectors of the
file. -/
set_option autoImplicit false

namespace Nachos
open Buffer Execution Interleaving

/-- A routine that makes requests to the disk. -/
abbrev Request := Program ℕ Image Trap

namespace Blocking

/-- `SynchDisk::ReadSector`. -/
def readSector (sectorNumber : Int) : Request Image :=
  if 0 ≤ sectorNumber ∧ sectorNumber < numSectors then .read sectorNumber.toNat .ret else .fail .assertFailed

/-- `SynchDisk::WriteSector`. -/
def writeSector (sectorNumber : Int) (data : Image) : Request Unit :=
  if 0 ≤ sectorNumber ∧ sectorNumber < numSectors then
    .update sectorNumber.toNat (fun old => copy old 0 data sectorSize) (.ret ())
  else .fail .assertFailed

/-- The loop of `ReadAt`. -/
def readSectors (hdr : FileHeader) (first : Int) : ℕ → Image → Request Image
  | 0, buf => return buf
  | n + 1, buf => do
    let buf ← readSectors hdr first n buf
    let sector ← .ofCall (hdr.byteToSector ((first + n) * sectorSize))
    let data ← readSector sector
    return copy buf (n * sectorSize) data sectorSize

/-- The loop of `WriteAt`. -/
def writeSectors (hdr : FileHeader) (first : Int) (buf : Image) : ℕ → Request Unit
  | 0 => return ()
  | n + 1 => do
    writeSectors hdr first buf n
    let sector ← .ofCall (hdr.byteToSector ((first + n) * sectorSize))
    writeSector sector (shift buf (n * sectorSize))

/-- `OpenFile::ReadAt` past its range check. -/
def readSpan (hdr : FileHeader) (junk : Image) (numBytes position : Int) : Request Image := do
  let firstSector := divRoundDown position sectorSize
  let lastSector := divRoundDown (position + numBytes - 1) sectorSize
  let numSectors := 1 + lastSector - firstSector
  let buf ← readSectors hdr firstSector numSectors.toNat junk
  .ofCall (bcopyOut buf (numSectors * sectorSize) (position - firstSector * sectorSize) numBytes)

/-- `OpenFile::ReadAt`. -/
def readAt (hdr : FileHeader) (junk : Image) (numBytes position : Int) : Request (Int × Image) :=
  if numBytes ≤ 0 ∨ position ≥ hdr.fileLength then return (0, junk)
  else if position + numBytes > intMax then .fail .overflow
  else do
    let bytes ← readSpan hdr junk (clip hdr.fileLength numBytes position) position
    return (clip hdr.fileLength numBytes position, bytes)

/-- A `ReadAt` of one whole sector into a buffer at offset `pos`. -/
def readSectorInto (hdr : FileHeader) (junk buf : Image) (pos sector : Int) : Request Image := do
  let (n, bytes) ← readAt hdr junk sectorSize (sector * sectorSize)
  return copy buf pos.toNat bytes n.toNat

/-- `WriteAt` reads in the first sector, if it is to be partially modified. -/
def readFirst (hdr : FileHeader) (junk : Image) (position firstSector : Int) : Request Image :=
  if ¬ position = firstSector * sectorSize then readSectorInto hdr junk junk 0 firstSector
  else return junk

/-- The same for the last sector, unless it is the first one and already there. -/
def readLast (hdr : FileHeader) (junk buf : Image) (numBytes position firstSector lastSector : Int) :
    Request Image :=
  if ¬ position + numBytes = (lastSector + 1) * sectorSize ∧
      (firstSector ≠ lastSector ∨ position = firstSector * sectorSize) then
    readSectorInto hdr junk buf ((lastSector - firstSector) * sectorSize) lastSector
  else return buf

/-- `OpenFile::WriteAt` past its range check. -/
def writeSpan (hdr : FileHeader) (junk src : Image) (numBytes position : Int) : Request Unit := do
  let firstSector := divRoundDown position sectorSize
  let lastSector := divRoundDown (position + numBytes - 1) sectorSize
  let numSectors := 1 + lastSector - firstSector
  let buf ← readFirst hdr junk position firstSector
  let buf ← readLast hdr junk buf numBytes position firstSector lastSector
  let buf ← .ofCall (bcopyIn buf (numSectors * sectorSize) (position - firstSector * sectorSize) src numBytes)
  writeSectors hdr firstSector buf numSectors.toNat

/-- `OpenFile::WriteAt`. -/
def writeAt (hdr : FileHeader) (junk src : Image) (numBytes position : Int) : Request Int :=
  if numBytes ≤ 0 ∨ position ≥ hdr.fileLength then return 0
  else if position + numBytes > intMax then .fail .overflow
  else do
    writeSpan hdr junk src (clip hdr.fileLength numBytes position) position
    return clip hdr.fileLength numBytes position

/-! ## Undisturbed -/

/-- What a routine that only reads the disk delivers. -/
def reading {α : Type} (x : Call α) (disk : Disk) : Call (α × Disk) := x >>= fun a => .ok (a, disk)

/-- What a routine without a result does to the disk. -/
def writing (x : Call Disk) : Call (Unit × Disk) := x >>= fun disk => .ok ((), disk)

theorem run_readSector (sector : Int) (disk : Disk) :
    (readSector sector).run disk = reading (Nachos.readSector disk sector) disk := by
  unfold readSector Nachos.readSector
  split
  · rfl
  · rfl

theorem run_writeSector (sector : Int) (data : Image) (disk : Disk) :
    (writeSector sector data).run disk = writing (Nachos.writeSector disk sector data) := by
  unfold writeSector Nachos.writeSector
  split
  · rfl
  · rfl

theorem run_readSectors (hdr : FileHeader) (first : Int) (n : ℕ) (buf : Image) (disk : Disk) :
    (readSectors hdr first n buf).run disk = reading (Nachos.readSectors disk hdr first n buf) disk := by
  induction n with
  | zero => rfl
  | succ n ih => simp [readSectors, Nachos.readSectors, ih, run_readSector, reading]

theorem run_writeSectors (hdr : FileHeader) (first : Int) (buf : Image) (n : ℕ) (disk : Disk) :
    (writeSectors hdr first buf n).run disk = writing (Nachos.writeSectors hdr first buf n disk) := by
  induction n with
  | zero => rfl
  | succ n ih => simp [writeSectors, Nachos.writeSectors, ih, run_writeSector, writing]

theorem run_readSpan (hdr : FileHeader) (junk : Image) (n p : Int) (disk : Disk) :
    (readSpan hdr junk n p).run disk = reading (Nachos.readSpan disk hdr junk n p) disk := by
  simp [readSpan, Nachos.readSpan, run_readSectors, reading]

theorem run_readAt (hdr : FileHeader) (junk : Image) (n p : Int) (disk : Disk) :
    (readAt hdr junk n p).run disk = reading (Nachos.readAt disk hdr junk n p) disk := by
  unfold readAt Nachos.readAt
  split
  · rfl
  · split
    · rfl
    · simp [run_readSpan, reading]

theorem run_readSectorInto (hdr : FileHeader) (junk buf : Image) (pos sector : Int) (disk : Disk) :
    (readSectorInto hdr junk buf pos sector).run disk =
      reading (Nachos.readSectorInto disk hdr junk buf pos sector) disk := by
  simp [readSectorInto, Nachos.readSectorInto, run_readAt, reading]

theorem run_readFirst (hdr : FileHeader) (junk : Image) (p first : Int) (disk : Disk) :
    (readFirst hdr junk p first).run disk = reading (Nachos.readFirst disk hdr junk p first) disk := by
  unfold readFirst Nachos.readFirst
  split
  · exact run_readSectorInto hdr junk junk 0 first disk
  · rfl

theorem run_readLast (hdr : FileHeader) (junk buf : Image) (n p first last : Int) (disk : Disk) :
    (readLast hdr junk buf n p first last).run disk =
      reading (Nachos.readLast disk hdr junk buf n p first last) disk := by
  unfold readLast Nachos.readLast
  split
  · exact run_readSectorInto hdr junk buf _ last disk
  · rfl

theorem run_writeSpan (hdr : FileHeader) (junk src : Image) (n p : Int) (disk : Disk) :
    (writeSpan hdr junk src n p).run disk = writing (Nachos.writeSpan disk hdr junk src n p) := by
  simp [writeSpan, Nachos.writeSpan, run_readFirst, run_readLast, run_writeSectors, reading, writing]

theorem run_writeAt (hdr : FileHeader) (junk src : Image) (n p : Int) (disk : Disk) :
    (writeAt hdr junk src n p).run disk = Nachos.writeAt disk hdr junk src n p := by
  unfold writeAt Nachos.writeAt
  split
  · rfl
  · split
    · rfl
    · simp [run_writeSpan, writing]

/-! ## The sectors requested -/

section Sectors

open Program

variable {h : FileHeader} {W : ℕ → Prop}

/-- The data sectors of a file. -/
def OnFile (h : FileHeader) (t : ℕ) : Prop := (t : Int) ∈ h.sectors

theorem onFile_dataSectors (wf : h.WellFormed) {i : ℕ} (hi : i < h.numSectors) : OnFile h (h.dataSectors i).toNat := by
  unfold OnFile
  rw [Int.toNat_of_nonneg (wf.inRange i hi).1]
  exact FileHeader.mem_sectors.mpr ⟨i, hi, rfl⟩

theorem uses_readSectors (wf : h.WellFormed) (f n : ℕ) (buf : Image) (hn : ((f + n : ℕ) : Int) ≤ h.numSectors) :
    Uses (OnFile h) W (readSectors h f n buf) := by
  induction n with
  | zero => trivial
  | succ n ih =>
    have hi : ((f + n : ℕ) : Int) < h.numSectors := by omega
    have hcast : (f : Int) + (n : Int) = ((f + n : ℕ) : Int) := by omega
    unfold readSectors
    refine (ih (by omega)).bind fun buf => ?_
    rw [hcast, FileHeader.byteToSector_mul h (wf.lt_numDirect hi), ofCall_ok_bind]
    unfold readSector
    rw [if_pos (wf.inRange _ hi)]
    exact ⟨onFile_dataSectors wf hi, fun _ => trivial⟩

theorem uses_writeSectors {R : ℕ → Prop} (wf : h.WellFormed) (f n : ℕ) (buf : Image)
    (hn : ((f + n : ℕ) : Int) ≤ h.numSectors) : Uses R (OnFile h) (writeSectors h f buf n) := by
  induction n with
  | zero => trivial
  | succ n ih =>
    have hi : ((f + n : ℕ) : Int) < h.numSectors := by omega
    have hcast : (f : Int) + (n : Int) = ((f + n : ℕ) : Int) := by omega
    unfold writeSectors
    refine (ih (by omega)).bind fun _ => ?_
    rw [hcast, FileHeader.byteToSector_mul h (wf.lt_numDirect hi), ofCall_ok_bind]
    unfold writeSector
    rw [if_pos (wf.inRange _ hi)]
    exact ⟨onFile_dataSectors wf hi, trivial⟩

/-- The sectors that a transfer inside the file covers. -/
theorem span_le (wf : h.WellFormed) {n p : ℕ} (hn : 0 < n) (hp : ((p + n : ℕ) : Int) ≤ h.numBytes) :
    ((p / 128 + (1 + (((p + n - 1) / 128 : ℕ) : Int) - ((p / 128 : ℕ) : Int)).toNat : ℕ) : Int) ≤ h.numSectors := by
  have hcov := wf.covered
  simp only [sectorSize] at hcov
  omega

theorem clip_inside {n p : Int} (hc : ¬ (n ≤ 0 ∨ p ≥ h.fileLength)) (hp : 0 ≤ p) :
    ∃ k q : ℕ, 0 < k ∧ clip h.fileLength n p = k ∧ p = q ∧ ((q + k : ℕ) : Int) ≤ h.numBytes := by
  obtain ⟨ht, hk⟩ := transferred_inside hc
  exact ⟨(transferred h n p).toNat, p.toNat, by omega, by omega, by omega, by omega⟩

theorem uses_readAt (wf : h.WellFormed) (junk : Image) (n : Int) {p : Int} (hp : 0 ≤ p) :
    Uses (OnFile h) W (readAt h junk n p) := by
  unfold readAt
  split
  · trivial
  · next hc =>
    split
    · trivial
    · obtain ⟨k, q, hk, hclip, hq, hle⟩ := clip_inside hc hp
      rw [hclip, hq]
      refine Uses.bind ?_ fun _ => trivial
      unfold readSpan
      simp only [divRoundDown_natCast, divRoundDown_last hk]
      exact (uses_readSectors wf _ _ junk (span_le wf hk hle)).bind fun _ => uses_ofCall _

theorem uses_readSectorInto (wf : h.WellFormed) (junk buf : Image) (pos : Int) {sector : Int} (hs : 0 ≤ sector) :
    Uses (OnFile h) W (readSectorInto h junk buf pos sector) :=
  (uses_readAt wf junk _ (by simp only [sectorSize]; omega)).bind fun _ => trivial

theorem uses_writeAt (wf : h.WellFormed) (junk src : Image) (n : Int) {p : Int} (hp : 0 ≤ p) :
    Uses (OnFile h) (OnFile h) (writeAt h junk src n p) := by
  unfold writeAt
  split
  · trivial
  · next hc =>
    split
    · trivial
    · obtain ⟨k, q, hk, hclip, hq, hle⟩ := clip_inside hc hp
      rw [hclip, hq]
      refine Uses.bind ?_ fun _ => trivial
      unfold writeSpan
      simp only [divRoundDown_natCast, divRoundDown_last hk]
      have hfirst : Uses (OnFile h) (OnFile h) (readFirst h junk q ((q / 128 : ℕ) : Int)) := by
        unfold readFirst
        split
        · exact uses_readSectorInto wf junk junk 0 (by omega)
        · trivial
      refine hfirst.bind fun buf => Uses.bind ?_ fun buf => (uses_ofCall _).bind fun buf =>
        uses_writeSectors wf _ _ buf (span_le wf hk hle)
      unfold readLast
      split
      · exact uses_readSectorInto wf junk buf _ (by omega)
      · trivial

end Sectors

/-! ## The system files -/

/-- `Directory::FetchFrom`. -/
def fetchDirectory (fs : FileSystem) (junk : ℕ → Image) : Request Directory := do
  let d := Directory.new (junk 0) numDirEntries
  let (n, bytes) ← readAt fs.directoryFile.hdr (junk 1) ((d.tableSize * directoryEntrySize : ℕ) : Int) 0
  return { d with table := DirectoryEntry.ofImage (copy d.image 0 bytes n.toNat) }

/-- `BitMap::FetchFrom`. -/
def fetchFreeMap (fs : FileSystem) (junk : ℕ → Image) : Request BitMap := do
  let b ← .ofCall (FileSystem.newFreeMap (junk 2))
  let (n, bytes) ← readAt fs.freeMapFile.hdr (junk 3) (b.numWords * 4) 0
  return { b with map := fun i => wordAt (copy (ofWords b.map) 0 bytes n.toNat) (4 * i) }

/-- `Directory::WriteBack`. -/
def writeDirectory (fs : FileSystem) (junk : Image) (d : Directory) : Request Unit := do
  let _ ← writeAt fs.directoryFile.hdr junk d.image ((d.tableSize * directoryEntrySize : ℕ) : Int) 0

/-- `BitMap::WriteBack`. -/
def writeFreeMap (fs : FileSystem) (junk : Image) (b : BitMap) : Request Unit := do
  let _ ← writeAt fs.freeMapFile.hdr junk (ofWords b.map) (b.numWords * 4) 0

theorem run_fetchDirectory (fs : FileSystem) (junk : ℕ → Image) (disk : Disk) :
    (fetchDirectory fs junk).run disk = reading (fs.fetchDirectory junk disk) disk := by
  simp [fetchDirectory, FileSystem.fetchDirectory, Directory.fetchFrom, run_readAt, reading]

theorem run_fetchFreeMap (fs : FileSystem) (junk : ℕ → Image) (disk : Disk) :
    (fetchFreeMap fs junk).run disk = reading (fs.fetchFreeMap junk disk) disk := by
  simp [fetchFreeMap, FileSystem.fetchFreeMap, BitMap.fetchFrom, run_readAt, reading]

theorem run_writeDirectory (fs : FileSystem) (junk : Image) (d : Directory) (disk : Disk) :
    (writeDirectory fs junk d).run disk = writing (d.writeBack disk fs.directoryFile junk) := by
  simp [writeDirectory, Directory.writeBack, run_writeAt, writing]

theorem run_writeFreeMap (fs : FileSystem) (junk : Image) (b : BitMap) (disk : Disk) :
    (writeFreeMap fs junk b).run disk = writing (b.writeBack disk fs.freeMapFile junk) := by
  simp [writeFreeMap, BitMap.writeBack, run_writeAt, writing]

theorem uses_fetchDirectory {fs : FileSystem} (wf : fs.directoryFile.hdr.WellFormed) (junk : ℕ → Image)
    {W : ℕ → Prop} : (fetchDirectory fs junk).Uses (OnFile fs.directoryFile.hdr) W :=
  (uses_readAt wf (junk 1) _ (le_refl 0)).bind fun _ => trivial

theorem uses_writeFreeMap {fs : FileSystem} (wf : fs.freeMapFile.hdr.WellFormed) (junk : Image) (b : BitMap) :
    (writeFreeMap fs junk b).Uses (OnFile fs.freeMapFile.hdr) (OnFile fs.freeMapFile.hdr) :=
  (uses_writeAt wf junk _ _ (le_refl 0)).bind fun _ => trivial

end Blocking

end Nachos
